import Libls.Library.Prog
import Libls.Library.Ranks
import Libls.BitmapShifts
import Libls.BitmapWeight
import Libls.FindBit

/-! # Maps between bitmaps

The functions of `src/bitmap.c` that map positions to positions.  `bitmap_pos_to_ord` is the rank of a position, and
`bitmap_ord_to_pos` selects the position with a rank; both are loops over `find_next_bit`.  An `int` that is a position
or a rank is a natural number or, where it may be negative, an integer.  A division by 0 has no result. -/

namespace Libls.Bitmaps
open Ranks WordBits

variable {σ : Type}

/-- `for_each_set_bit` -/
def forEachSetBit (addr : Block Word) (size : ℕ) (body : ℕ → σ → Prog σ) (s : σ) : Prog σ := do
  let bit ← findFirstBit addr size
  Prog.iterate (fun (bit, s) => do
    if bit < size then
      let s ← body bit s
      let bit ← findNextBit addr size (bit + 1)
      return .next (bit, s)
    else return .done s) (bit, s)

/-- `bitmap_pos_to_ord` -/
def bitmapPosToOrd (buf : Block Word) (pos : ℤ) (bits : ℕ) : Prog ℤ := do
  if pos < 0 ∨ bits ≤ pos then return -1
  else if !(← testBit pos.toNat buf) then return -1
  else
    let i ← findFirstBit buf bits
    let (i, ord) ← Prog.iterate (fun ((i, ord) : ℕ × ℕ) => do
      if (i : ℤ) < pos then
        let i ← findNextBit buf bits (i + 1)
        return .next (i, ord + 1)
      else return .done (i, ord)) (i, 0)
    if (i : ℤ) = pos then return ord
    else Prog.abort

/-- `bitmap_ord_to_pos` -/
def bitmapOrdToPos (buf : Block Word) (ord : ℤ) (bits : ℕ) : Prog ℕ := do
  if 0 ≤ ord ∧ ord < bits then
    let i ← findFirstBit buf bits
    let (i, ord) ← Prog.iterate (fun ((i, ord) : ℕ × ℕ) => do
      if i < bits ∧ 0 < ord then
        let i ← findNextBit buf bits (i + 1)
        return .next (i, ord - 1)
      else return .done (i, ord)) (i, ord.toNat)
    return if i < bits ∧ ord = 0 then i else 0
  else return 0

/-- The body of the loop of `bitmap_remap`. -/
def remapBit (old new : Option (Block Word)) (w : ℤ) (bits oldbit : ℕ) (dst : Block Word) : Prog (Block Word) := do
  let n ← bitmapPosToOrd (old.getD dst) oldbit bits
  if n < 0 ∨ w = 0 then setBit oldbit dst
  else
    let pos ← bitmapOrdToPos (new.getD dst) (n.tmod w) bits
    setBit pos dst

/-- `bitmap_remap` -/
def bitmapRemap (dst : Block Word) (src old new : Option (Block Word)) (bits : ℕ) : Prog (Block Word) :=
  match src with
  | none => return dst
  | some src => do
      let dst ← Inline.bitmapZero false dst bits
      let w ← Inline.bitmapWeight false (new.getD dst) bits
      forEachSetBit src bits (remapBit old new w bits) dst

/-- `bitmap_bitremap` -/
def bitmapBitremap (oldbit : ℤ) (old new : Block Word) (bits : ℕ) : Prog ℤ := do
  let w ← Inline.bitmapWeight false new bits
  let n ← bitmapPosToOrd old oldbit bits
  if n < 0 ∨ w = 0 then return oldbit
  else
    let pos ← bitmapOrdToPos new (n.tmod w) bits
    return pos

/-- The body of the loop of `bitmap_onto`. -/
def ontoBit (orig : Block Word) (n : ℕ) (s : Block Word × ℕ) : Option (Block Word × ℕ) := do
  let (dst, m) := s
  let dst ← if ← testBit m orig then setBit n dst else some dst
  return (dst, m + 1)

/-- `bitmap_onto` -/
def bitmapOnto (dst : Block Word) (orig : Option (Block Word)) (relmap : Block Word) (bits : ℕ) : Prog (Block Word) :=
  match orig with
  | none => return dst
  | some orig => do
      let dst ← Inline.bitmapZero false dst bits
      let (dst, _) ← forEachSetBit relmap bits (fun n s => (ontoBit orig n s : Option _)) (dst, 0)
      return dst

/-- The body of the loop of `bitmap_fold`. -/
def foldBit (sz : ℤ) (oldbit : ℕ) (dst : Block Word) : Option (Block Word) :=
  if sz = 0 then none else setBit ((oldbit : ℤ).tmod sz).toNat dst

/-- `bitmap_fold` -/
def bitmapFold (dst : Block Word) (orig : Option (Block Word)) (sz : ℤ) (bits : ℕ) : Prog (Block Word) :=
  match orig with
  | none => return dst
  | some orig => do
      let dst ← Inline.bitmapZero false dst bits
      forEachSetBit orig bits (fun oldbit dst => (foldBit sz oldbit dst : Option _)) dst

/-! ### The positions that are set -/

variable {bits n i : ℕ} {a d : Bitmap bits} {s s' : σ} {body : ℕ → σ → Prog σ}

theorem mem_positions : n ∈ a.positions ↔ n < bits ∧ a.bit n = true := by
  unfold Bitmap.positions
  rw [Finset.mem_filter, Finset.mem_range]

theorem positions_eq {X : Finset ℕ} (h : ∀ i, d.bit i = true ↔ i ∈ X) (hX : ∀ i ∈ X, i < bits) : d.positions = X := by
  ext i
  rw [mem_positions, h]
  exact and_iff_right_of_imp (hX i)

theorem inlineWeight_spec (a : Bitmap bits) (hbits : bits < 2 ^ 31) :
    Inline.bitmapWeight false a.block bits = some (a.positions.card : ℤ) := bitmapWeight_spec a hbits

theorem and_shift_ne_zero (w : Word) (k : ℕ) : (1 &&& w >>> k != 0) = w.getLsbD k := by
  have hbit : ∀ j, (1 &&& w >>> k).getLsbD j = (decide (j = 0) && w.getLsbD k) := by
    intro j
    have hone : (1 : Word).getLsbD j = decide (j = 0) := BitVec.getLsbD_one
    rw [BitVec.getLsbD_and, BitVec.getLsbD_ushiftRight, hone]
    cases j with
    | zero => rfl
    | succ j => rw [decide_eq_false (Nat.succ_ne_zero j), Bool.false_and, Bool.false_and]
  cases hk : w.getLsbD k with
  | false =>
      have hzero : 1 &&& w >>> k = 0 := by
        apply BitVec.eq_of_getLsbD_eq
        intro j _
        rw [hbit, hk, Bool.and_false]
        exact BitVec.getLsbD_zero.symm
      rw [hzero]
      rfl
  | true =>
      rw [bne_iff_ne]
      intro hzero
      have h0 := hbit 0
      rw [hzero, hk] at h0
      exact Bool.false_ne_true (BitVec.getLsbD_zero.symm.trans h0)

theorem testBit_spec (a : Bitmap bits) (hn : n < bits) : testBit n a.block = some (a.bit n) := by
  have hlong : n / 64 < bitsToLongs bits := by
    unfold bitsToLongs
    omega
  unfold testBit
  rw [a.read hlong, Option.bind_eq_bind, Option.bind_some]
  exact congrArg some (and_shift_ne_zero _ _)

/-- No position is skipped. -/
theorem IsNext.skip {r offset : ℕ} (h : IsNext a.bit bits offset r) : ∀ i, offset ≤ i → i < r → i ∉ a.positions := by
  intro i hi hlt hmem
  rw [mem_positions, h.clear i hi hlt] at hmem
  exact Bool.false_ne_true hmem.2

theorem IsNext.mem {r offset : ℕ} (h : IsNext a.bit bits offset r) (hlt : r < bits) : r ∈ a.positions :=
  mem_positions.mpr ⟨hlt, h.set hlt⟩

theorem IsNext.rank_eq {r offset : ℕ} (h : IsNext a.bit bits offset r) (hoff : offset ≤ bits) :
    rank a.positions r = rank a.positions offset := rank_skip (h.ge hoff) h.skip

theorem rank_bits (a : Bitmap bits) : rank a.positions bits = a.positions.card :=
  rank_eq_card fun _ hi => (mem_positions.mp hi).1

/-! ### The loop over the positions -/

/-- What holds of the state when all positions below `n` are done. -/
theorem skip_positions {I : ℕ → σ → Prop} {r offset : ℕ} (hskip : ∀ n s, n ∉ a.positions → I n s → I (n + 1) s)
    (hnext : IsNext a.bit bits offset r) (hoff : offset ≤ bits) (h : I offset s) : I r s := by
  have hclear := hnext.skip
  have hle := hnext.ge hoff
  clear hnext
  induction r, hle using Nat.le_induction with
  | base => exact h
  | succ r hr ih =>
      apply hskip r s (hclear r hr (Nat.lt_succ_self r))
      exact ih fun i hi hlt => hclear i hi (Nat.lt_succ_of_lt hlt)

/-- **The rule for `for_each_set_bit`.**  The loop goes through all numbers below `bits`, and the body is run at the
positions that are set. -/
theorem forEachSetBit_returns (a : Bitmap bits) {I : ℕ → σ → Prop}
    (hskip : ∀ n s, n ∉ a.positions → I n s → I (n + 1) s)
    (hset : ∀ n s, n ∈ a.positions → I n s → ∃ s', Prog.Returns (body n s) s' ∧ I (n + 1) s') (h0 : I 0 s) :
    ∃ s', Prog.Returns (forEachSetBit a.block bits body s) s' ∧ I bits s' := by
  obtain ⟨first, hfirst, hnext⟩ := findFirstBit_spec a le_rfl
  unfold forEachSetBit
  rw [hfirst, Prog.lift_bind]
  have hI : I first s := skip_positions hskip hnext (Nat.zero_le _) h0
  apply Prog.Returns.iterate (fun k p => k = bits - p.1 ∧ p.1 ≤ bits ∧ (p.1 < bits → p.1 ∈ a.positions) ∧ I p.1 p.2)
    _ (bits - first) (first, s) ⟨rfl, hnext.le, hnext.mem, hI⟩
  rintro k ⟨bit, s⟩ ⟨rfl, hle, hmem, hs⟩
  dsimp only at hle hmem hs ⊢
  rcases Nat.lt_or_ge bit bits with hlt | hge
  · obtain ⟨s₁, hbody, hs₁⟩ := hset bit s (hmem hlt) hs
    obtain ⟨r, hr, hnext⟩ := findNextBit_spec a le_rfl (Nat.succ_le_of_lt hlt)
    have hafter := hnext.ge (Nat.succ_le_of_lt hlt)
    refine .inr ⟨(r, s₁), bits - r, ?_, by omega, rfl, hnext.le, hnext.mem, ?_⟩
    · rw [if_pos hlt, hr, Prog.returns_bind]
      exact ⟨s₁, hbody, Prog.returns_pure.mpr rfl⟩
    · exact skip_positions hskip hnext (Nat.succ_le_of_lt hlt) hs₁
  · refine .inl ⟨s, ?_, ?_⟩
    · rw [if_neg (Nat.not_lt.mpr hge), Prog.returns_pure]
    · rwa [Nat.le_antisymm hge hle]

/-- What has been set for the positions below `n`. -/
def ImageDone (a : Bitmap bits) (f : ℕ → ℕ) (n : ℕ) (d : Bitmap bits) : Prop :=
  ∀ i, d.bit i = true ↔ ∃ x ∈ a.positions, x < n ∧ f x = i

/-- The step: `f n` is set. -/
theorem ImageDone.step {f : ℕ → ℕ} {d' : Bitmap bits} (h : ImageDone a f n d) (hn : n ∈ a.positions)
    (hd' : ∀ i, d'.bit i = true ↔ d.bit i = true ∨ i = f n) : ImageDone a f (n + 1) d' := by
  intro i
  rw [hd', h]
  constructor
  · rintro (⟨x, hx, hxn, hi⟩ | rfl)
    · exact ⟨x, hx, Nat.lt_succ_of_lt hxn, hi⟩
    · exact ⟨n, hn, Nat.lt_succ_self n, rfl⟩
  · rintro ⟨x, hx, hxn, rfl⟩
    obtain hxn | rfl := Nat.lt_succ_iff_lt_or_eq.mp hxn
    · exact .inl ⟨x, hx, hxn, rfl⟩
    · exact .inr rfl

/-- **The image of the positions.**  A loop with a body that sets `f n`. -/
theorem forEachSetBit_image {f : ℕ → ℕ} {body : ℕ → Block Word → Prog (Block Word)} {z : Bitmap bits}
    (hlt : ∀ x ∈ a.positions, f x < bits)
    (hbody : ∀ n ∈ a.positions, ∀ d : Bitmap bits, ImageDone a f n d →
      ∀ x, setBit (f n) d.block = some x → Prog.Returns (body n d.block) x)
    (hz : ∀ i, z.bit i = false) :
    ∃ d : Bitmap bits, Prog.Returns (forEachSetBit a.block bits body z.block) d.block ∧
      d.positions = a.positions.image f := by
  have hskip : ∀ n dst, n ∉ a.positions → (∃ d : Bitmap bits, d.block = dst ∧ ImageDone a f n d) →
      ∃ d : Bitmap bits, d.block = dst ∧ ImageDone a f (n + 1) d := by
    rintro n dst hn ⟨d, hd, hdone⟩
    refine ⟨d, hd, fun i => (hdone i).trans (exists_congr fun x => and_congr_right fun hx => ?_)⟩
    have hne : x ≠ n := fun e => hn (e ▸ hx)
    have hiff : x < n + 1 ↔ x < n := by omega
    rw [hiff]
  have hset : ∀ n dst, n ∈ a.positions → (∃ d : Bitmap bits, d.block = dst ∧ ImageDone a f n d) →
      ∃ dst', Prog.Returns (body n dst) dst' ∧ ∃ d : Bitmap bits, d.block = dst' ∧ ImageDone a f (n + 1) d := by
    rintro n dst hn ⟨d, rfl, hdone⟩
    obtain ⟨d', hset, hd'⟩ := setBit_spec d (hlt n hn)
    exact ⟨d'.block, hbody n hn d hdone _ hset, d', rfl, hdone.step hn hd'⟩
  have hstart : ∃ d : Bitmap bits, d.block = z.block ∧ ImageDone a f 0 d := by
    refine ⟨z, rfl, fun i => ?_⟩
    rw [hz]
    apply iff_of_false Bool.false_ne_true
    rintro ⟨x, -, hx, -⟩
    exact Nat.not_lt_zero x hx
  obtain ⟨dst', hret, d, rfl, hd⟩ := forEachSetBit_returns a hskip hset hstart
  refine ⟨d, hret, positions_eq (fun i => ?_) ?_⟩
  · rw [hd, Finset.mem_image]
    exact exists_congr fun x => and_congr_right fun hx => and_iff_right (mem_positions.mp hx).1
  · intro i hi
    obtain ⟨x, hx, rfl⟩ := Finset.mem_image.mp hi
    exact hlt x hx

/-- If there is a position, the body is run. -/
theorem forEachSetBit_first (h : a.positions.Nonempty) (hret : Prog.Returns (forEachSetBit a.block bits body s) s') :
    ∃ n ∈ a.positions, ∃ s₁, Prog.Returns (body n s) s₁ := by
  obtain ⟨first, hfirst, hnext⟩ := findFirstBit_spec a le_rfl
  have hlt : first < bits := by
    obtain ⟨n, hn⟩ := h
    by_contra hge
    exact hnext.skip n (Nat.zero_le n) (lt_of_lt_of_le (mem_positions.mp hn).1 (Nat.le_of_not_lt hge)) hn
  refine ⟨first, hnext.mem hlt, ?_⟩
  unfold forEachSetBit at hret
  rw [hfirst, Prog.lift_bind, Prog.returns_iterate] at hret
  dsimp only at hret
  simp only [if_pos hlt, Prog.returns_bind] at hret
  obtain ⟨s₁, hbody, -⟩ | ⟨-, ⟨s₁, hbody, -⟩, -⟩ := hret
  · exact ⟨s₁, hbody⟩
  · exact ⟨s₁, hbody⟩

/-! ### Ranks -/

theorem bitmapPosToOrd_none {pos : ℤ} (h : ∀ n ∈ a.positions, pos ≠ n) :
    Prog.Returns (bitmapPosToOrd a.block pos bits) (-1) := by
  unfold bitmapPosToOrd
  by_cases hrange : pos < 0 ∨ bits ≤ pos
  · rw [if_pos hrange, Prog.returns_pure]
  · obtain ⟨n, rfl⟩ : ∃ n : ℕ, pos = n := ⟨pos.toNat, by omega⟩
    have hlt : n < bits := by omega
    have hclear : a.bit n = false := by
      rw [Bool.eq_false_iff]
      intro hset
      exact h n (mem_positions.mpr ⟨hlt, hset⟩) rfl
    rw [if_neg hrange, Int.toNat_natCast, testBit_spec a hlt, hclear]
    exact Prog.returns_pure.mpr rfl

/-- **`bitmap_pos_to_ord`** is the rank of a position. -/
theorem bitmapPosToOrd_spec (hn : n ∈ a.positions) :
    Prog.Returns (bitmapPosToOrd a.block n bits) (rank a.positions n : ℤ) := by
  obtain ⟨hlt, hbit⟩ := mem_positions.mp hn
  obtain ⟨first, hfirst, hnext⟩ := findFirstBit_spec a le_rfl
  -- the search cannot pass a position that is set
  have hbefore : ∀ {r offset}, IsNext a.bit bits offset r → offset ≤ n → r ≤ n := by
    intro r offset hnext hoff
    by_contra hgt
    exact hnext.skip n hoff (Nat.lt_of_not_le hgt) hn
  have hrank : 0 = rank a.positions first := by
    rw [hnext.rank_eq (Nat.zero_le _)]
    exact rank_zero.symm
  have hstart : first ≤ n := hbefore hnext (Nat.zero_le n)
  unfold bitmapPosToOrd
  rw [if_neg (by omega), Int.toNat_natCast, testBit_spec a hlt, Prog.lift_bind, hbit]
  rw [if_neg (by decide), hfirst, Prog.lift_bind, Prog.returns_bind]
  refine ⟨(n, rank a.positions n), ?_, ?_⟩
  · apply Prog.Returns.iterate_to
      (fun k p => k = n - p.1 ∧ p.1 ≤ n ∧ p.1 ∈ a.positions ∧ p.2 = rank a.positions p.1)
      _ (n - first) (first, 0) ⟨rfl, hstart, hnext.mem (by omega), hrank⟩
    rintro k ⟨i, ord⟩ ⟨rfl, hle, hmem, hord⟩
    dsimp only at hle hmem hord ⊢
    subst hord
    rcases Nat.lt_or_ge i n with hi | hi
    · have hoff : i + 1 ≤ bits := by omega
      obtain ⟨r, hr, hnext⟩ := findNextBit_spec a le_rfl hoff
      have hr' := hbefore hnext hi
      have hafter := hnext.ge hoff
      refine .inr ⟨(r, rank a.positions i + 1), n - r, ?_, by omega, rfl, hr', hnext.mem (by omega), ?_⟩
      · rw [if_pos (by omega), hr]
        exact Prog.returns_pure.mpr rfl
      · rw [hnext.rank_eq hoff, rank_succ hmem]
    · obtain rfl : i = n := Nat.le_antisymm hle hi
      left
      rw [if_neg (by omega), Prog.returns_pure]
  · show Prog.Returns (if (n : ℤ) = n then pure (rank a.positions n : ℤ) else Prog.abort) _
    rw [if_pos rfl, Prog.returns_pure]

/-- **`bitmap_ord_to_pos`** selects the position with a rank, if there is one. -/
theorem bitmapOrdToPos_spec {m : ℕ} (hm : m < a.positions.card) :
    Prog.Returns (bitmapOrdToPos a.block m bits) (select a.positions m) := by
  have hcard := card_positions_le a
  obtain ⟨first, hfirst, hnext⟩ := findFirstBit_spec a le_rfl
  have hfirstRank : rank a.positions first = 0 := (hnext.rank_eq (Nat.zero_le _)).trans rank_zero
  unfold bitmapOrdToPos
  rw [if_pos ⟨by omega, by omega⟩, hfirst, Prog.lift_bind, Int.toNat_natCast, Prog.returns_bind]
  refine ⟨(select a.positions m, 0), ?_, ?_⟩
  · apply Prog.Returns.iterate_to
      (fun k p => k = bits - p.1 ∧ (p.1 < bits → p.1 ∈ a.positions) ∧ p.1 ≤ bits ∧ rank a.positions p.1 + p.2 = m)
      _ (bits - first) (first, m) ⟨rfl, hnext.mem, hnext.le, by rw [hfirstRank, Nat.zero_add]⟩
    rintro k ⟨i, ord⟩ ⟨rfl, hmem, hle, hord⟩
    dsimp only at hmem hle hord ⊢
    -- at the end all positions have been counted
    have hlt : i < bits := by
      apply Nat.lt_of_le_of_ne hle
      rintro rfl
      rw [rank_bits] at hord
      omega
    cases ord with
    | zero =>
        have hsel : select a.positions m = i := by
          rw [← hord, Nat.add_zero, select_rank (hmem hlt)]
        left
        rw [if_neg (by omega), Prog.returns_pure, hsel]
    | succ ord =>
        have hoff : i + 1 ≤ bits := hlt
        obtain ⟨r, hr, hnext⟩ := findNextBit_spec a le_rfl hoff
        have hafter := hnext.ge hoff
        refine .inr ⟨(r, ord), bits - r, ?_, by omega, rfl, hnext.mem, hnext.le, ?_⟩
        · rw [if_pos ⟨hlt, Nat.succ_pos ord⟩, hr]
          exact Prog.returns_pure.mpr rfl
        · rw [hnext.rank_eq hoff, rank_succ (hmem hlt)]
          omega
  · have hsel := (mem_positions.mp (select_mem hm)).1
    show Prog.Returns (pure (if select a.positions m < bits ∧ 0 = 0 then select a.positions m else 0)) _
    rw [if_pos ⟨hsel, rfl⟩, Prog.returns_pure]

end Libls.Bitmaps
