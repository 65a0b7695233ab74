import Libls.BitmapCalls

/-! # Bitmaps are sets

A program that works on any number of bitmaps of one size, by the inline functions of `include/ls/bitmap.h`, the
functions of `src/bitmap.c` and the bit functions of `include/ls/bitops`, does to the sets of positions what `meaning`
says, and gets the answers that `meaning` gives.

Destinations and sources of a call may be the same bitmap, those of `bitmap_copy` excepted. -/

namespace Libls.Bitmaps
open WordBits

variable {V : Type} {bits : ℕ}

/-! ### Commands -/

/-- The calls of a program with the bitmaps `V`, each with the arguments that it may have.  A destination may
be a source too, but not that of `bitmap_copy`, which is a `memcpy`; a shift of one word by all of its 64
bits has no meaning, and `n` is less than `bits`. -/
inductive Cmd (V : Type) (bits : ℕ) where
  | setBit (nr : Fin bits) (v : V)
  | clearBit (nr : Fin bits) (v : V)
  | changeBit (nr : Fin bits) (v : V)
  | testAndSetBit (nr : Fin bits) (v : V)
  | testAndClearBit (nr : Fin bits) (v : V)
  | testAndChangeBit (nr : Fin bits) (v : V)
  | testBit (nr : Fin bits) (v : V)
  | set (v : V) (start nr : ℕ) (h : start + nr ≤ bits)
  | clear (v : V) (start nr : ℕ) (h : start + nr ≤ bits)
  | zero (dst : V)
  | fill (dst : V)
  | copy (dst src : V) (h : src ≠ dst)
  | and (dst src1 src2 : V)
  | or (dst src1 src2 : V)
  | xor (dst src1 src2 : V)
  | andnot (dst src1 src2 : V)
  | complement (dst src : V)
  | shiftRight (dst src : V) (n : Fin bits)
  | shiftLeft (dst src : V) (n : Fin bits)
  | equal (src1 src2 : V)
  | intersects (src1 src2 : V)
  | subset (src1 src2 : V)
  | empty (src : V)
  | full (src : V)
  | weight (src : V)
  | findFirstBit (addr : V)
  | findFirstZeroBit (addr : V)
  | findLastBit (addr : V)
  | findNextBit (addr : V) (offset : ℕ) (h : offset ≤ bits)
  | findNextZeroBit (addr : V) (offset : ℕ) (h : offset ≤ bits)

/-- What a call returns. -/
inductive Answer where
  | done
  | truth (b : Bool)
  | count (n : ℤ)
  | found (i : ℕ)
deriving DecidableEq

/-- The memory of a program. -/
abbrev Memory (V : Type) := V → Block Word

namespace Memory
variable [DecidableEq V] (σ : Memory V)

/-- A source, which may be the destination. -/
def source (dst src : V) : Option (Block Word) := if src = dst then none else some (σ src)

/-- A call that writes to `v`. -/
def put (v : V) (o : Option (Block Word)) : Option (Memory V × Answer) := do
  return (Function.update σ v (← o), .done)

/-- A call that writes to `v` and says something about it. -/
def putTest (v : V) (o : Option (Block Word × Bool)) : Option (Memory V × Answer) := do
  let (dst, b) ← o
  return (Function.update σ v dst, .truth b)

omit [DecidableEq V] in
/-- A call that only reads. -/
def ask (o : Option Answer) : Option (Memory V × Answer) := do return (σ, ← o)

end Memory

variable [DecidableEq V]

/-- A call, at a call site that sees a constant size or does not. -/
def exec (isConst : Bool) (σ : Memory V) : Cmd V bits → Prog (Memory V × Answer)
  | .setBit nr v => liftM (σ.put v (setBit nr (σ v)))
  | .clearBit nr v => liftM (σ.put v (clearBit nr (σ v)))
  | .changeBit nr v => liftM (σ.put v (changeBit nr (σ v)))
  | .testAndSetBit nr v => liftM (σ.putTest v (testAndSetBit nr (σ v)))
  | .testAndClearBit nr v => liftM (σ.putTest v (testAndClearBit nr (σ v)))
  | .testAndChangeBit nr v => liftM (σ.putTest v (testAndChangeBit nr (σ v)))
  | .testBit nr v => liftM (σ.ask ((testBit nr (σ v)).map .truth))
  | .set v start nr _ => do
      let dst ← bitmapSet (σ v) start nr
      return (Function.update σ v dst, .done)
  | .clear v start nr _ => do
      let dst ← bitmapClear (σ v) start nr
      return (Function.update σ v dst, .done)
  | .zero dst => liftM (σ.put dst (Inline.bitmapZero isConst (σ dst) bits))
  | .fill dst => liftM (σ.put dst (Inline.bitmapFill isConst (σ dst) bits))
  | .copy dst src _ => liftM (σ.put dst (Inline.bitmapCopy isConst (σ dst) (σ src) bits))
  | .and dst src1 src2 =>
      liftM (σ.putTest dst (Inline.bitmapAnd isConst (σ dst) (σ.source dst src1) (σ.source dst src2) bits))
  | .or dst src1 src2 =>
      liftM (σ.put dst (Inline.bitmapOr isConst (σ dst) (σ.source dst src1) (σ.source dst src2) bits))
  | .xor dst src1 src2 =>
      liftM (σ.put dst (Inline.bitmapXor isConst (σ dst) (σ.source dst src1) (σ.source dst src2) bits))
  | .andnot dst src1 src2 =>
      liftM (σ.putTest dst (Inline.bitmapAndnot isConst (σ dst) (σ.source dst src1) (σ.source dst src2) bits))
  | .complement dst src => liftM (σ.put dst (Inline.bitmapComplement isConst (σ dst) (σ.source dst src) bits))
  | .shiftRight dst src n => liftM (σ.put dst (Inline.bitmapShiftRight isConst (σ dst) (σ.source dst src) n bits))
  | .shiftLeft dst src n => liftM (σ.put dst (Inline.bitmapShiftLeft isConst (σ dst) (σ.source dst src) n bits))
  | .equal src1 src2 => liftM (σ.ask ((Inline.bitmapEqual isConst (σ src1) (σ src2) bits).map .truth))
  | .intersects src1 src2 => liftM (σ.ask ((Inline.bitmapIntersects isConst (σ src1) (σ src2) bits).map .truth))
  | .subset src1 src2 => liftM (σ.ask ((Inline.bitmapSubset isConst (σ src1) (σ src2) bits).map .truth))
  | .empty src => liftM (σ.ask ((Inline.bitmapEmpty isConst (σ src) bits).map .truth))
  | .full src => liftM (σ.ask ((Inline.bitmapFull isConst (σ src) bits).map .truth))
  | .weight src => liftM (σ.ask ((Inline.bitmapWeight isConst (σ src) bits).map .count))
  | .findFirstBit addr => liftM (σ.ask ((findFirstBit (σ addr) bits).map .found))
  | .findFirstZeroBit addr => liftM (σ.ask ((findFirstZeroBit (σ addr) bits).map .found))
  | .findLastBit addr => liftM (σ.ask ((findLastBit (σ addr) bits).map .found))
  | .findNextBit addr offset _ => liftM (σ.ask ((findNextBit (σ addr) bits offset).map .found))
  | .findNextZeroBit addr offset _ => liftM (σ.ask ((findNextZeroBit (σ addr) bits offset).map .found))

/-- A program, with what each of its call sites sees. -/
def execAll (σ : Memory V) : List (Bool × Cmd V bits) → Prog (Memory V × List Answer)
  | [] => return (σ, [])
  | (isConst, c) :: prog => do
      let (σ, answer) ← exec isConst σ c
      let (σ, answers) ← execAll σ prog
      return (σ, answer :: answers)

/-! ### Their meaning -/

/-- The least member from `offset` on, or `bits`. -/
def leastFrom (bits : ℕ) (X : Finset ℕ) (offset : ℕ) : ℕ := (X.filter (offset ≤ ·)).min.untopD bits

/-- The greatest member, or `bits`. -/
def greatest (bits : ℕ) (X : Finset ℕ) : ℕ := X.max.unbotD bits

/-- What a call does to sets of positions below `bits`. -/
def meaning (S : V → Finset ℕ) : Cmd V bits → (V → Finset ℕ) × Answer
  | .setBit nr v => (Function.update S v (insert ↑nr (S v)), .done)
  | .clearBit nr v => (Function.update S v ((S v).erase nr), .done)
  | .changeBit nr v => (Function.update S v (symmDiff (S v) {↑nr}), .done)
  | .testAndSetBit nr v => (Function.update S v (insert ↑nr (S v)), .truth (decide (↑nr ∈ S v)))
  | .testAndClearBit nr v => (Function.update S v ((S v).erase nr), .truth (decide (↑nr ∈ S v)))
  | .testAndChangeBit nr v => (Function.update S v (symmDiff (S v) {↑nr}), .truth (decide (↑nr ∈ S v)))
  | .testBit nr v => (S, .truth (decide (↑nr ∈ S v)))
  | .set v start nr _ => (Function.update S v (S v ∪ Finset.Ico start (start + nr)), .done)
  | .clear v start nr _ => (Function.update S v (S v \ Finset.Ico start (start + nr)), .done)
  | .zero dst => (Function.update S dst ∅, .done)
  | .fill dst => (Function.update S dst (Finset.range bits), .done)
  | .copy dst src _ => (Function.update S dst (S src), .done)
  | .and dst src1 src2 => (Function.update S dst (S src1 ∩ S src2), .truth (decide (S src1 ∩ S src2).Nonempty))
  | .or dst src1 src2 => (Function.update S dst (S src1 ∪ S src2), .done)
  | .xor dst src1 src2 => (Function.update S dst (symmDiff (S src1) (S src2)), .done)
  | .andnot dst src1 src2 => (Function.update S dst (S src1 \ S src2), .truth (decide (S src1 \ S src2).Nonempty))
  | .complement dst src => (Function.update S dst (Finset.range bits \ S src), .done)
  | .shiftRight dst src n => (Function.update S dst ((Finset.range bits).filter fun i => i + n ∈ S src), .done)
  | .shiftLeft dst src n =>
      (Function.update S dst ((Finset.range bits).filter fun i => n ≤ i ∧ i - n ∈ S src), .done)
  | .equal src1 src2 => (S, .truth (decide (S src1 = S src2)))
  | .intersects src1 src2 => (S, .truth (decide (S src1 ∩ S src2).Nonempty))
  | .subset src1 src2 => (S, .truth (decide (S src1 ⊆ S src2)))
  | .empty src => (S, .truth (decide (S src = ∅)))
  | .full src => (S, .truth (decide (S src = Finset.range bits)))
  | .weight src => (S, .count (S src).card)
  | .findFirstBit addr => (S, .found (leastFrom bits (S addr) 0))
  | .findFirstZeroBit addr => (S, .found (leastFrom bits (Finset.range bits \ S addr) 0))
  | .findLastBit addr => (S, .found (greatest bits (S addr)))
  | .findNextBit addr offset _ => (S, .found (leastFrom bits (S addr) offset))
  | .findNextZeroBit addr offset _ => (S, .found (leastFrom bits (Finset.range bits \ S addr) offset))

/-- What a program does to sets of positions. -/
def meaningAll (S : V → Finset ℕ) : List (Bool × Cmd V bits) → (V → Finset ℕ) × List Answer
  | [] => (S, [])
  | (_, c) :: prog => ((meaningAll (meaning S c).1 prog).1, (meaning S c).2 :: (meaningAll (meaning S c).1 prog).2)

/-! ### Bitmaps that stand for sets -/

/-- The members of `X` are positions, and exactly their bits are set. -/
structure Stands (d : Bitmap bits) (X : Finset ℕ) : Prop where
  bit : ∀ i, d.bit i = true ↔ i ∈ X
  lt : ∀ i ∈ X, i < bits

/-- Every bitmap of the memory stands for its set. -/
def StandsFor (bits : ℕ) (σ : Memory V) (S : V → Finset ℕ) : Prop :=
  ∀ v, ∃ a : Bitmap bits, σ v = a.block ∧ Stands a (S v)

/-- A call leaves a bitmap that stands for `X`. -/
def Leaves (bits : ℕ) (o : Option (Block Word)) (X : Finset ℕ) : Prop := ∃ d : Bitmap bits, o = some d.block ∧ Stands d X

section
variable {a b d : Bitmap bits} {X Y : Finset ℕ} {n i r offset start : ℕ}

theorem stands_positions (h : a.Clean) : Stands a a.positions := by
  constructor
  · intro i
    rw [mem_positions]
    constructor
    · intro hi
      refine ⟨?_, hi⟩
      by_contra hlt
      rw [h i (Nat.not_lt.mp hlt)] at hi
      exact Bool.false_ne_true hi
    · exact And.right
  · intro i hi
    exact (mem_positions.mp hi).1

theorem Stands.positions (h : Stands a X) : a.positions = X := positions_eq h.bit h.lt

theorem Stands.bit_eq (h : Stands a X) (i : ℕ) : a.bit i = decide (i ∈ X) := by
  rw [Bool.eq_iff_iff, h.bit, decide_eq_true_iff]

theorem Stands.clean (h : Stands a X) : a.Clean := by
  intro i hi
  rw [h.bit_eq, decide_eq_false fun hmem => absurd (h.lt i hmem) (Nat.not_lt.mpr hi)]

/-! Searches -/

theorem leastFrom_eq {bit : ℕ → Bool} (hbit : ∀ i < bits, bit i = decide (i ∈ X)) (hlt : ∀ i ∈ X, i < bits)
    (hoff : offset ≤ bits) (hnext : IsNext bit bits offset r) : leastFrom bits X offset = r := by
  have hclear : ∀ i ∈ X, offset ≤ i → r ≤ i := by
    intro i hi hle
    by_contra hr
    have hfalse := hnext.clear i hle (Nat.not_le.mp hr)
    rw [hbit i (hlt i hi), decide_eq_true hi] at hfalse
    exact Bool.false_ne_true hfalse.symm
  unfold leastFrom
  rcases Nat.lt_or_ge r bits with hr | hr
  · have hmem : r ∈ X := by
      have hset := hnext.set hr
      rwa [hbit r hr, decide_eq_true_iff] at hset
    have hmin : (X.filter (offset ≤ ·)).min = WithTop.some r := by
      apply le_antisymm
      · exact Finset.min_le (Finset.mem_filter.mpr ⟨hmem, hnext.ge hoff⟩)
      · apply Finset.le_min
        intro i hi
        obtain ⟨hi, hle⟩ := Finset.mem_filter.mp hi
        exact WithTop.coe_le_coe.mpr (hclear i hi hle)
    rw [hmin]
    rfl
  · have hempty : X.filter (offset ≤ ·) = ∅ := by
      rw [Finset.filter_eq_empty_iff]
      intro i hi hle
      exact absurd (hclear i hi hle) (Nat.not_le.mpr (Nat.lt_of_lt_of_le (hlt i hi) hr))
    rw [hempty, Finset.min_empty]
    exact Nat.le_antisymm hr hnext.le

theorem greatest_eq (h : Stands a X) (hlast : IsLast a.bit bits r) : greatest bits X = r := by
  unfold greatest
  rcases Nat.lt_or_ge r bits with hr | hr
  · have hmax : X.max = WithBot.some r := by
      apply le_antisymm
      · apply Finset.max_le
        intro i hi
        apply WithBot.coe_le_coe.mpr
        by_contra hgt
        have hfalse := hlast.clear i (h.lt i hi) (.inl (Nat.not_le.mp hgt))
        rw [(h.bit i).mpr hi] at hfalse
        exact Bool.false_ne_true hfalse.symm
      · exact Finset.le_max ((h.bit r).mp (hlast.set hr))
    rw [hmax]
    rfl
  · have hempty : X = ∅ := by
      apply Finset.eq_empty_of_forall_notMem
      intro i hi
      have hfalse := hlast.clear i (h.lt i hi) (.inr (Nat.le_antisymm hlast.le hr))
      rw [(h.bit i).mpr hi] at hfalse
      exact Bool.false_ne_true hfalse.symm
    rw [hempty, Finset.max_empty]
    exact Nat.le_antisymm hr hlast.le

theorem Stands.complement (h : Stands a X) (i : ℕ) (hi : i < bits) : (!a.bit i) = decide (i ∈ Finset.range bits \ X) := by
  rw [h.bit_eq, ← decide_not]
  congr 1
  rw [Finset.mem_sdiff, Finset.mem_range]
  exact propext (and_iff_right hi).symm

theorem complement_lt (i : ℕ) (hi : i ∈ Finset.range bits \ X) : i < bits :=
  Finset.mem_range.mp (Finset.mem_sdiff.mp hi).1

/-! Questions -/

theorem stands_eq (h : Stands a X) (h' : Stands b Y) : (∀ i < bits, a.bit i = b.bit i) ↔ X = Y := by
  constructor
  · intro heq
    ext i
    rw [← h.bit, ← h'.bit]
    by_cases hi : i < bits
    · rw [heq i hi]
    · rw [h.clean i (Nat.not_lt.mp hi), h'.clean i (Nat.not_lt.mp hi)]
  · rintro rfl i -
    rw [h.bit_eq, h'.bit_eq]

theorem stands_meet (h : Stands a X) (h' : Stands b Y) :
    (∃ i < bits, a.bit i = true ∧ b.bit i = true) ↔ (X ∩ Y).Nonempty := by
  simp only [h.bit, h'.bit]
  constructor
  · rintro ⟨i, -, hX, hY⟩
    exact ⟨i, Finset.mem_inter.mpr ⟨hX, hY⟩⟩
  · rintro ⟨i, hi⟩
    obtain ⟨hX, hY⟩ := Finset.mem_inter.mp hi
    exact ⟨i, h.lt i hX, hX, hY⟩

theorem stands_subset (h : Stands a X) (h' : Stands b Y) : (∀ i < bits, a.bit i = true → b.bit i = true) ↔ X ⊆ Y := by
  simp only [h.bit, h'.bit]
  constructor
  · intro hsub i hi
    exact hsub i (h.lt i hi) hi
  · intro hsub i _ hi
    exact hsub hi

theorem stands_empty (h : Stands a X) : (∀ i < bits, a.bit i = false) ↔ X = ∅ := by
  rw [Finset.eq_empty_iff_forall_notMem]
  simp only [h.bit_eq, decide_eq_false_iff_not]
  constructor
  · intro hnone i hi
    exact hnone i (h.lt i hi) hi
  · intro hnone i _
    exact hnone i

theorem stands_full (h : Stands a X) : (∀ i < bits, a.bit i = true) ↔ X = Finset.range bits := by
  simp only [h.bit]
  constructor
  · intro hall
    ext i
    rw [Finset.mem_range]
    exact ⟨h.lt i, hall i⟩
  · rintro rfl i hi
    exact Finset.mem_range.mpr hi

/-! Changes -/

theorem Leaves.of_bits {o : Option (Block Word)} {p : ℕ → Bool} (h : ∃ d : Bitmap bits, o = some d.block ∧ ∀ i, d.bit i = p i)
    (hp : ∀ i, p i = true ↔ i ∈ X) (hlt : ∀ i ∈ X, i < bits) : Leaves bits o X := by
  obtain ⟨d, ho, hd⟩ := h
  refine ⟨d, ho, fun i => ?_, hlt⟩
  rw [hd, hp]

end

/-! ### Runs -/

section
variable {σ : Memory V} {S : V → Finset ℕ} {a b : Bitmap bits} {X : Finset ℕ}

omit [DecidableEq V] in
theorem StandsFor.size (hS : StandsFor bits σ S) (v : V) : (σ v).size = bitsToLongs bits := by
  obtain ⟨a, ha, -⟩ := hS v
  rw [ha, a.size]

theorem StandsFor.update (hS : StandsFor bits σ S) (v : V) (h : Stands a X) :
    StandsFor bits (Function.update σ v a.block) (Function.update S v X) := by
  intro w
  by_cases hw : w = v
  · subst hw
    rw [Function.update_self, Function.update_self]
    exact ⟨a, rfl, h⟩
  · rw [Function.update_of_ne hw, Function.update_of_ne hw]
    exact hS w

theorem exec_put (hS : StandsFor bits σ S) (v : V) {o : Option (Block Word)} (h : Leaves bits o X) :
    ∃ σ', Prog.Returns (liftM (σ.put v o)) (σ', .done) ∧ StandsFor bits σ' (Function.update S v X) := by
  obtain ⟨d, rfl, hd⟩ := h
  exact ⟨_, Prog.returns_lift.mpr rfl, hS.update v hd⟩

theorem exec_putTest (hS : StandsFor bits σ S) (v : V) {o : Option (Block Word × Bool)} {result : Bool}
    (h : ∃ d : Bitmap bits, o = some (d.block, result) ∧ Stands d X) :
    ∃ σ', Prog.Returns (liftM (σ.putTest v o)) (σ', .truth result) ∧ StandsFor bits σ' (Function.update S v X) := by
  obtain ⟨d, rfl, hd⟩ := h
  exact ⟨_, Prog.returns_lift.mpr rfl, hS.update v hd⟩

omit [DecidableEq V] in
theorem exec_ask (hS : StandsFor bits σ S) {o : Option Answer} {answer : Answer} (h : o = some answer) :
    ∃ σ', Prog.Returns (liftM (σ.ask o)) (σ', answer) ∧ StandsFor bits σ' S := by
  subst h
  exact ⟨σ, Prog.returns_lift.mpr rfl, hS⟩

theorem getD_source {dst src : V} : (σ.source dst src).getD (σ dst) = σ src := by
  unfold Memory.source
  by_cases h : src = dst
  · rw [if_pos h, h]
    rfl
  · rw [if_neg h]
    rfl

/-- The arguments of a call with two sources. -/
def Memory.args (σ : Memory V) (dst src1 src2 : V) (hsize : (σ dst).size = bitsToLongs bits) (ha : σ src1 = a.block)
    (hb : σ src2 = b.block) : Args a b :=
  ⟨σ dst, σ.source dst src1, σ.source dst src2, hsize, getD_source.trans ha, getD_source.trans hb⟩

/-- The arguments of a call with one source. -/
def Memory.arg (σ : Memory V) (dst src : V) (hsize : (σ dst).size = bitsToLongs bits) (ha : σ src = a.block) : Arg a :=
  ⟨σ dst, σ.source dst src, hsize, getD_source.trans ha⟩

/-- A bit that becomes `g` of what it was. -/
theorem stands_updateBit {g : Bool → Bool} {d : Bitmap bits} {X' : Finset ℕ} (h : Stands a X) {nr : ℕ} (hnr : nr < bits)
    (hd : ∀ i, d.bit i = if i = nr then g (a.bit i) else a.bit i)
    (hX : ∀ i, i ∈ X' ↔ if i = nr then g (decide (i ∈ X)) = true else i ∈ X) : Stands d X' := by
  constructor
  · intro i
    rw [hd, hX]
    by_cases hi : i = nr
    · rw [if_pos hi, if_pos hi, h.bit_eq]
    · rw [if_neg hi, if_neg hi, h.bit]
  · intro i hi
    rw [hX] at hi
    by_cases heq : i = nr
    · rwa [heq]
    · rw [if_neg heq] at hi
      exact h.lt i hi

theorem mem_insert_iff {nr : ℕ} (i : ℕ) : i ∈ insert nr X ↔ if i = nr then true = true else i ∈ X := by
  by_cases h : i = nr <;> simp [h]

theorem mem_erase_iff {nr : ℕ} (i : ℕ) : i ∈ X.erase nr ↔ if i = nr then false = true else i ∈ X := by
  by_cases h : i = nr <;> simp [h]

theorem mem_symmDiff_iff {nr : ℕ} (i : ℕ) : i ∈ symmDiff X {nr} ↔ if i = nr then (!decide (i ∈ X)) = true else i ∈ X := by
  by_cases h : i = nr <;> simp [h, Finset.mem_symmDiff]

/-- A set that `op` makes of two sets. -/
theorem stands_op {op : Bool → Bool → Bool} {d : Bitmap bits} {Y Z : Finset ℕ} (h : Stands a X) (h' : Stands b Y)
    (hop : op false false = false) (hZ : ∀ i, op (decide (i ∈ X)) (decide (i ∈ Y)) = true ↔ i ∈ Z)
    (hd : ∀ i, d.bit i = op (a.bit i) (b.bit i)) : Stands d Z := by
  constructor
  · intro i
    rw [hd, h.bit_eq, h'.bit_eq, hZ]
  · intro i hi
    rw [← hZ] at hi
    by_contra hge
    rw [decide_eq_false fun hmem => hge (h.lt i hmem), decide_eq_false fun hmem => hge (h'.lt i hmem), hop] at hi
    exact Bool.false_ne_true hi

/-- Whether any bit is set in the result. -/
theorem result_eq {d : Bitmap bits} {result : Bool} (h : Stands d X) (hresult : result = true ↔ ∃ i, d.bit i = true) :
    result = decide X.Nonempty := by
  rw [Bool.eq_iff_iff, hresult, decide_eq_true_iff]
  simp only [h.bit]
  rfl

/-! One call, of each group -/

section groups
variable {f : Word → Word → Word} {g : Bool → Bool} (hS : StandsFor bits σ S)
include hS

theorem put_bit (hf : Acts f g) (nr : Fin bits) (v : V)
    (hX : ∀ i, i ∈ X ↔ if i = nr then g (decide (i ∈ S v)) = true else i ∈ S v) :
    ∃ σ', Prog.Returns (liftM (σ.put v (updateBit f nr (σ v)))) (σ', .done) ∧
      StandsFor bits σ' (Function.update S v X) := by
  obtain ⟨a, ha, h⟩ := hS v
  obtain ⟨d, hupdate, hd⟩ := updateBit_spec hf a nr.isLt
  apply exec_put hS
  rw [ha]
  exact ⟨d, hupdate, stands_updateBit h nr.isLt hd hX⟩

theorem putTest_bit (hf : Acts f g) (nr : Fin bits) (v : V)
    (hX : ∀ i, i ∈ X ↔ if i = nr then g (decide (i ∈ S v)) = true else i ∈ S v) :
    ∃ σ', Prog.Returns (liftM (σ.putTest v (testAndUpdateBit f nr (σ v)))) (σ', .truth (decide (↑nr ∈ S v))) ∧
      StandsFor bits σ' (Function.update S v X) := by
  obtain ⟨a, ha, h⟩ := hS v
  obtain ⟨d, hupdate, hd⟩ := testAndUpdateBit_spec hf a nr.isLt
  rw [h.bit_eq] at hupdate
  apply exec_putTest hS
  rw [ha]
  exact ⟨d, hupdate, stands_updateBit h nr.isLt hd hX⟩

/-- `bitmap_set` and `bitmap_clear`. -/
theorem put_area {value : Bool} (hf : Acts f fun _ => value) (v : V) {start nr : ℕ} (hle : start + nr ≤ bits)
    (hX : ∀ i, i ∈ X ↔ if start ≤ i ∧ i < start + nr then value = true else i ∈ S v) :
    ∃ σ', Prog.Returns (do return (Function.update σ v (← updateArea f (σ v) start nr), Answer.done)) (σ', .done) ∧
      StandsFor bits σ' (Function.update S v X) := by
  obtain ⟨a, ha, h⟩ := hS v
  obtain ⟨d, hupdate, hd⟩ := updateArea_spec hf a hle
  rw [← ha] at hupdate
  refine ⟨_, Prog.returns_bind.mpr ⟨_, hupdate, Prog.returns_pure.mpr rfl⟩, hS.update v ⟨fun i => ?_, fun i hi => ?_⟩⟩
  · rw [hd, hX, ← h.bit]
    by_cases hi : start ≤ i ∧ i < start + nr
    · rw [if_pos hi, if_pos hi]
    · rw [if_neg hi, if_neg hi]
  · rw [hX] at hi
    by_cases harea : start ≤ i ∧ i < start + nr
    · omega
    · rw [if_neg harea] at hi
      exact h.lt i hi

theorem put_two (call : Block Word → Option (Block Word) → Option (Block Word) → Option (Block Word))
    (op : Bool → Bool → Bool) (hcall : ∀ {a b : Bitmap bits} (x : Args a b), ∃ d : Bitmap bits,
      call x.dst x.src1 x.src2 = some d.block ∧ ∀ i, d.bit i = op (a.bit i) (b.bit i))
    (hop : op false false = false) (dst src1 src2 : V)
    (hX : ∀ i, op (decide (i ∈ S src1)) (decide (i ∈ S src2)) = true ↔ i ∈ X) :
    ∃ σ', Prog.Returns (liftM (σ.put dst (call (σ dst) (σ.source dst src1) (σ.source dst src2)))) (σ', .done) ∧
      StandsFor bits σ' (Function.update S dst X) := by
  obtain ⟨a, ha, h⟩ := hS src1
  obtain ⟨b, hb, h'⟩ := hS src2
  obtain ⟨d, hdone, hd⟩ := hcall (σ.args dst src1 src2 (hS.size dst) ha hb)
  exact exec_put hS dst ⟨d, hdone, stands_op h h' hop hX hd⟩

theorem putTest_two (call : Block Word → Option (Block Word) → Option (Block Word) → Option (Block Word × Bool))
    (op : Bool → Bool → Bool) (hcall : ∀ {a b : Bitmap bits} (x : Args a b), ∃ d : Bitmap bits, ∃ result,
      call x.dst x.src1 x.src2 = some (d.block, result) ∧ (∀ i, d.bit i = op (a.bit i) (b.bit i)) ∧
        (result = true ↔ ∃ i, d.bit i = true))
    (hop : op false false = false) (dst src1 src2 : V)
    (hX : ∀ i, op (decide (i ∈ S src1)) (decide (i ∈ S src2)) = true ↔ i ∈ X) :
    ∃ σ', Prog.Returns (liftM (σ.putTest dst (call (σ dst) (σ.source dst src1) (σ.source dst src2))))
        (σ', .truth (decide X.Nonempty)) ∧ StandsFor bits σ' (Function.update S dst X) := by
  obtain ⟨a, ha, h⟩ := hS src1
  obtain ⟨b, hb, h'⟩ := hS src2
  obtain ⟨d, result, hdone, hd, hresult⟩ := hcall (σ.args dst src1 src2 (hS.size dst) ha hb)
  have hstands := stands_op h h' hop hX hd
  rw [result_eq hstands hresult] at hdone
  exact exec_putTest hS dst ⟨d, hdone, hstands⟩

/-- A call with one source, each of whose positions is `p` of what the source has. -/
theorem put_one (call : Block Word → Option (Block Word) → Option (Block Word)) (p : (ℕ → Bool) → ℕ → Bool)
    (hcall : ∀ {a : Bitmap bits}, a.Clean → ∀ x : Arg a, ∃ d : Bitmap bits,
      call x.dst x.src = some d.block ∧ ∀ i, d.bit i = p a.bit i)
    (dst src : V) (hX : ∀ i, p (fun i => decide (i ∈ S src)) i = true ↔ i ∈ X) (hlt : ∀ i ∈ X, i < bits) :
    ∃ σ', Prog.Returns (liftM (σ.put dst (call (σ dst) (σ.source dst src)))) (σ', .done) ∧
      StandsFor bits σ' (Function.update S dst X) := by
  obtain ⟨a, ha, h⟩ := hS src
  apply exec_put hS
  apply Leaves.of_bits (hcall h.clean (σ.arg dst src (hS.size dst) ha)) _ hlt
  rw [funext h.bit_eq]
  exact hX

omit [DecidableEq V] in
/-- A question about one bitmap. -/
theorem ask_one {β : Type} (call : Block Word → Option β) (answer : β → Answer) (src : V) {r : β}
    (hcall : ∀ {a : Bitmap bits}, Stands a (S src) → call a.block = some r) :
    ∃ σ', Prog.Returns (liftM (σ.ask ((call (σ src)).map answer))) (σ', answer r) ∧ StandsFor bits σ' S := by
  obtain ⟨a, ha, h⟩ := hS src
  apply exec_ask hS
  rw [ha, hcall h]
  rfl

omit [DecidableEq V] in
/-- A question about two bitmaps. -/
theorem ask_two (call : Block Word → Block Word → Option Bool) (src1 src2 : V) {r : Bool}
    (hcall : ∀ {a b : Bitmap bits}, Stands a (S src1) → Stands b (S src2) → call a.block b.block = some r) :
    ∃ σ', Prog.Returns (liftM (σ.ask ((call (σ src1) (σ src2)).map .truth))) (σ', .truth r) ∧ StandsFor bits σ' S := by
  obtain ⟨b, hb, h'⟩ := hS src2
  rw [hb]
  exact ask_one hS (call · b.block) .truth src1 fun h => hcall h h'

end groups

/-- What a search for a bit finds. -/
theorem find_next {o : Option ℕ} {offset : ℕ} (hoff : offset ≤ bits)
    (hfind : ∃ r, o = some r ∧ IsNext a.bit bits offset r) (h : Stands a X) :
    o = some (leastFrom bits X offset) := by
  obtain ⟨r, hfind, hnext⟩ := hfind
  rw [hfind, leastFrom_eq (fun i _ => h.bit_eq i) h.lt hoff hnext]

theorem find_nextZero {o : Option ℕ} {offset : ℕ} (hoff : offset ≤ bits)
    (hfind : ∃ r, o = some r ∧ IsNext (fun i => !a.bit i) bits offset r) (h : Stands a X) :
    o = some (leastFrom bits (Finset.range bits \ X) offset) := by
  obtain ⟨r, hfind, hnext⟩ := hfind
  rw [hfind, leastFrom_eq h.complement complement_lt hoff hnext]

/-- **One call** does what it means. -/
theorem exec_spec (h0 : 0 < bits) (hbits : bits < 2 ^ 31) (isConst : Bool) (hS : StandsFor bits σ S) (c : Cmd V bits) :
    ∃ σ', Prog.Returns (exec isConst σ c) (σ', (meaning S c).2) ∧ StandsFor bits σ' (meaning S c).1 := by
  cases c with
  | setBit nr v => exact put_bit hS acts_or nr v mem_insert_iff
  | clearBit nr v => exact put_bit hS acts_andnot nr v mem_erase_iff
  | changeBit nr v => exact put_bit hS acts_xor nr v mem_symmDiff_iff
  | testAndSetBit nr v => exact putTest_bit hS acts_or nr v mem_insert_iff
  | testAndClearBit nr v => exact putTest_bit hS acts_andnot nr v mem_erase_iff
  | testAndChangeBit nr v => exact putTest_bit hS acts_xor nr v mem_symmDiff_iff
  | testBit nr v =>
      apply ask_one hS (testBit nr) .truth v
      intro a h
      rw [testBit_spec a nr.isLt, h.bit_eq]
  | set v start nr hle =>
      apply put_area hS acts_or v hle
      intro i
      rw [Finset.mem_union, Finset.mem_Ico]
      by_cases hi : start ≤ i ∧ i < start + nr <;> simp [hi]
  | clear v start nr hle =>
      apply put_area hS acts_andnot v hle
      intro i
      rw [Finset.mem_sdiff, Finset.mem_Ico]
      by_cases hi : start ≤ i ∧ i < start + nr <;> simp [hi]
  | zero dst =>
      apply exec_put hS
      apply Leaves.of_bits (inlineZero_spec h0 isConst (hS.size dst))
      · intro i
        simp
      · intro i hi
        exact absurd hi (Finset.notMem_empty i)
  | fill dst =>
      apply exec_put hS
      apply Leaves.of_bits (inlineFill_spec h0 isConst (hS.size dst))
      · intro i
        simp
      · intro i hi
        exact Finset.mem_range.mp hi
  | copy dst src hne =>
      obtain ⟨a, ha, h⟩ := hS src
      apply exec_put hS
      rw [ha]
      exact .of_bits (inlineCopy_spec h0 isConst (hS.size dst) a) h.bit h.lt
  | and dst src1 src2 =>
      apply putTest_two hS (Inline.bitmapAnd isConst · · · bits) and (inlineAnd_spec h0 isConst) rfl
      intro i
      rw [Bool.and_eq_true, decide_eq_true_iff, decide_eq_true_iff, Finset.mem_inter]
  | or dst src1 src2 =>
      apply put_two hS (Inline.bitmapOr isConst · · · bits) or (inlineOr_spec h0 isConst) rfl
      intro i
      rw [Bool.or_eq_true, decide_eq_true_iff, decide_eq_true_iff, Finset.mem_union]
  | xor dst src1 src2 =>
      apply put_two hS (Inline.bitmapXor isConst · · · bits) xor (inlineXor_spec h0 isConst) rfl
      intro i
      rw [Finset.mem_symmDiff]
      by_cases hi : i ∈ S src1 <;> simp [hi]
  | andnot dst src1 src2 =>
      apply putTest_two hS (Inline.bitmapAndnot isConst · · · bits) (fun p q => p && !q) (inlineAndnot_spec h0 isConst) rfl
      intro i
      rw [Finset.mem_sdiff]
      simp
  | complement dst src =>
      apply put_one hS (Inline.bitmapComplement isConst · · bits) (fun p i => decide (i < bits) && !p i) fun _ =>
        inlineComplement_spec h0 isConst
      · intro i
        rw [Finset.mem_sdiff, Finset.mem_range]
        simp
      · intro i hi
        exact Finset.mem_range.mp (Finset.mem_sdiff.mp hi).1
  | shiftRight dst src n =>
      obtain ⟨a, ha, h⟩ := hS src
      apply put_one hS (Inline.bitmapShiftRight isConst · · n bits) (fun p i => p (i + n)) fun hclean x =>
        shiftRight_of_clean h0 isConst hclean x n.isLt
      · intro i
        rw [decide_eq_true_iff, Finset.mem_filter, Finset.mem_range]
        constructor
        · intro hi
          exact ⟨Nat.lt_of_le_of_lt (Nat.le_add_right i n) (h.lt _ hi), hi⟩
        · exact And.right
      · intro i hi
        exact Finset.mem_range.mp (Finset.mem_filter.mp hi).1
  | shiftLeft dst src n =>
      apply put_one hS (Inline.bitmapShiftLeft isConst · · n bits)
        (fun p i => decide (i < bits) && (decide (↑n ≤ i) && p (i - n))) fun _ x => inlineShiftLeft_spec h0 isConst x n.isLt
      · intro i
        rw [Finset.mem_filter, Finset.mem_range]
        simp
      · intro i hi
        exact Finset.mem_range.mp (Finset.mem_filter.mp hi).1
  | equal src1 src2 =>
      apply ask_two hS (Inline.bitmapEqual isConst · · bits) src1 src2
      intro a b h h'
      rw [inlineEqual_spec h0, decide_eq_decide.mpr (stands_eq h h')]
  | intersects src1 src2 =>
      apply ask_two hS (Inline.bitmapIntersects isConst · · bits) src1 src2
      intro a b h h'
      rw [inlineIntersects_spec h0, decide_eq_decide.mpr (stands_meet h h')]
  | subset src1 src2 =>
      apply ask_two hS (Inline.bitmapSubset isConst · · bits) src1 src2
      intro a b h h'
      rw [inlineSubset_spec h0, decide_eq_decide.mpr (stands_subset h h')]
  | empty src =>
      apply ask_one hS (Inline.bitmapEmpty isConst · bits) .truth src
      intro a h
      rw [inlineEmpty_spec h0, decide_eq_decide.mpr (stands_empty h)]
  | full src =>
      apply ask_one hS (Inline.bitmapFull isConst · bits) .truth src
      intro a h
      rw [inlineFull_spec h0, decide_eq_decide.mpr (stands_full h)]
  | weight src =>
      apply ask_one hS (Inline.bitmapWeight isConst · bits) .count src
      intro a h
      rw [inlineWeight_card h0 isConst a hbits, h.positions]
  | findFirstBit addr =>
      exact ask_one hS (findFirstBit · bits) .found addr fun {a} =>
        find_next (Nat.zero_le bits) (findFirstBit_spec a (Nat.le_refl bits))
  | findFirstZeroBit addr =>
      apply ask_one hS (findFirstZeroBit · bits) .found addr
      intro a h
      rw [findFirstZeroBit_eq]
      exact find_nextZero (Nat.zero_le bits) (findNextZeroBit_spec a (Nat.le_refl bits) (Nat.zero_le bits)) h
  | findLastBit addr =>
      apply ask_one hS (findLastBit · bits) .found addr
      intro a h
      obtain ⟨r, hfind, hlast⟩ := findLastBit_spec a (Nat.le_refl bits)
      rw [hfind, greatest_eq h hlast]
  | findNextBit addr offset hoff =>
      exact ask_one hS (findNextBit · bits offset) .found addr fun {a} =>
        find_next hoff (findNextBit_spec a (Nat.le_refl bits) hoff)
  | findNextZeroBit addr offset hoff =>
      exact ask_one hS (findNextZeroBit · bits offset) .found addr fun {a} =>
        find_nextZero hoff (findNextZeroBit_spec a (Nat.le_refl bits) hoff)

/-- **A program** does what it means, one call after the other. -/
theorem execAll_spec (h0 : 0 < bits) (hbits : bits < 2 ^ 31) (hS : StandsFor bits σ S) (prog : List (Bool × Cmd V bits)) :
    ∃ σ', Prog.Returns (execAll σ prog) (σ', (meaningAll S prog).2) ∧ StandsFor bits σ' (meaningAll S prog).1 := by
  induction prog generalizing σ S with
  | nil => exact ⟨σ, Prog.returns_pure.mpr rfl, hS⟩
  | cons call prog ih =>
      obtain ⟨isConst, c⟩ := call
      obtain ⟨σ₁, hexec, hS₁⟩ := exec_spec h0 hbits isConst hS c
      obtain ⟨σ₂, hrest, hS₂⟩ := ih hS₁
      refine ⟨σ₂, ?_, hS₂⟩
      unfold execAll
      rw [Prog.returns_bind]
      refine ⟨_, hexec, ?_⟩
      rw [Prog.returns_bind]
      exact ⟨_, hrest, Prog.returns_pure.mpr rfl⟩

/-- **Bitmaps are sets.**  Every program, on any bitmaps without unused bits that are set, returns.  It gets the
answers that the sets of positions have, and leaves the bitmaps of the sets that its calls mean, again without unused
bits that are set. -/
theorem bitmaps_are_sets (h0 : 0 < bits) (hbits : bits < 2 ^ 31) (prog : List (Bool × Cmd V bits)) (a : V → Bitmap bits)
    (ha : ∀ v, (a v).Clean) : ∃ a' : V → Bitmap bits,
      Prog.Returns (execAll (fun v => (a v).block) prog)
        (fun v => (a' v).block, (meaningAll (fun v => (a v).positions) prog).2) ∧
      ∀ v, (a' v).Clean ∧ (a' v).positions = (meaningAll (fun v => (a v).positions) prog).1 v := by
  have hS : StandsFor bits (fun v => (a v).block) fun v => (a v).positions :=
    fun v => ⟨a v, rfl, stands_positions (ha v)⟩
  obtain ⟨σ', hrun, hS'⟩ := execAll_spec h0 hbits hS prog
  choose a' hblock hstands using hS'
  refine ⟨a', ?_, fun v => ⟨(hstands v).clean, (hstands v).positions⟩⟩
  rwa [(funext hblock : σ' = fun v => (a' v).block)] at hrun

/-- Two bitmaps of 70 positions. -/
def pair70 (v : Bool) : Bitmap 70 := (Bitmap.ofWords 70 fun _ => if v = true then 3 else 5).cleared

theorem clean_pair70 (v : Bool) : (pair70 v).Clean := by
  intro i hi
  rw [pair70, bit_cleared, decide_eq_false (Nat.not_lt.mpr hi), Bool.false_and]

/-- An area, and what it has in common with the other bitmap. -/
def prog70 : List (Bool × Cmd Bool 70) :=
  [(false, .set false 60 8 (by decide)), (true, .and true true false), (false, .weight true)]

theorem bitmaps_are_sets_pair : ∃ a' : Bool → Bitmap 70,
    Prog.Returns (execAll (fun v => (pair70 v).block) prog70)
      (fun v => (a' v).block, (meaningAll (fun v => (pair70 v).positions) prog70).2) ∧
    ∀ v, (a' v).Clean ∧ (a' v).positions = (meaningAll (fun v => (pair70 v).positions) prog70).1 v :=
  bitmaps_are_sets (by decide) (by decide) prog70 pair70 clean_pair70

end

end Libls.Bitmaps
