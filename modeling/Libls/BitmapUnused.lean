import Libls.BitmapShifts

/-! # The unused bits of the last word

Two runs of each function on bitmaps with the same positions.  The results are the same but for the truth
values of `__bitmap_and` and `__bitmap_andnot`, which are taken from whole words: `unaffected_iff` has the
bitmaps for which these are right. -/

namespace Libls.Bitmaps
open WordBits

variable {bits : ℕ} {a b a' b' : Bitmap bits} {o o' : Option (Block Word)} {q q' : Option (Block Word × Bool)}

/-! ### Two runs -/

/-- Two runs leave the same positions in the destination, or both access memory outside of it. -/
inductive SameTarget (bits : ℕ) : Option (Block Word) → Option (Block Word) → Prop where
  | outside : SameTarget bits none none
  | inside (d d' : Bitmap bits) (h : Agree d d') : SameTarget bits (some d.block) (some d'.block)

/-- Two runs leave the same positions in the destination and return the same truth value. -/
inductive SameOutcome (bits : ℕ) : Option (Block Word × Bool) → Option (Block Word × Bool) → Prop where
  | inside (d d' : Bitmap bits) (result : Bool) (h : Agree d d') :
      SameOutcome bits (some (d.block, result)) (some (d'.block, result))

/-- The unused bits of the destination are 0. -/
def CleanTarget (bits : ℕ) (o : Option (Block Word)) : Prop := ∀ d : Bitmap bits, o = some d.block → d.Clean

/-- **Unused bits do not matter** for the functions on `a` and `b`: every run on bitmaps with the same
positions has the same results, and zeros in the unused bits are kept. -/
structure Unaffected (a b : Bitmap bits) : Prop where
  empty : ∀ a', Agree a a' → bitmapEmpty a.block bits = bitmapEmpty a'.block bits
  full : ∀ a', Agree a a' → bitmapFull a.block bits = bitmapFull a'.block bits
  equal : ∀ a' b', Agree a a' → Agree b b' →
    bitmapEqual a.block b.block bits = bitmapEqual a'.block b'.block bits
  intersects : ∀ a' b', Agree a a' → Agree b b' →
    bitmapIntersects a.block b.block bits = bitmapIntersects a'.block b'.block bits
  subset : ∀ a' b', Agree a a' → Agree b b' →
    bitmapSubset a.block b.block bits = bitmapSubset a'.block b'.block bits
  weight : ∀ a', Agree a a' → bitmapWeight a.block bits = bitmapWeight a'.block bits
  and : ∀ a' b', Agree a a' → Agree b b' → ∀ (x : Args a b) (x' : Args a' b'),
    SameOutcome bits (bitmapAnd x.dst x.src1 x.src2 bits) (bitmapAnd x'.dst x'.src1 x'.src2 bits)
  andnot : ∀ a' b', Agree a a' → Agree b b' → ∀ (x : Args a b) (x' : Args a' b'),
    SameOutcome bits (bitmapAndnot x.dst x.src1 x.src2 bits) (bitmapAndnot x'.dst x'.src1 x'.src2 bits)
  or : ∀ a' b', Agree a a' → Agree b b' → ∀ (x : Args a b) (x' : Args a' b'),
    SameTarget bits (bitmapOr x.dst x.src1 x.src2 bits) (bitmapOr x'.dst x'.src1 x'.src2 bits)
  xor : ∀ a' b', Agree a a' → Agree b b' → ∀ (x : Args a b) (x' : Args a' b'),
    SameTarget bits (bitmapXor x.dst x.src1 x.src2 bits) (bitmapXor x'.dst x'.src1 x'.src2 bits)
  complement : ∀ a', Agree a a' → ∀ (x : Arg a) (x' : Arg a'),
    SameTarget bits (bitmapComplement x.dst x.src bits) (bitmapComplement x'.dst x'.src bits)
  shiftLeft : ∀ a', Agree a a' → ∀ (x : Arg a) (x' : Arg a') (shift : ℕ),
    SameTarget bits (bitmapShiftLeft x.dst x.src shift bits) (bitmapShiftLeft x'.dst x'.src shift bits)
  shiftRight : ∀ a', Agree a a' → ∀ (x : Arg a) (x' : Arg a') (shift : ℕ),
    SameTarget bits (bitmapShiftRight x.dst x.src shift bits) (bitmapShiftRight x'.dst x'.src shift bits)
  clean : a.Clean → b.Clean → ∀ (x : Args a b) (y : Arg a) (shift : ℕ),
    CleanTarget bits ((bitmapAnd x.dst x.src1 x.src2 bits).map Prod.fst) ∧
    CleanTarget bits ((bitmapAndnot x.dst x.src1 x.src2 bits).map Prod.fst) ∧
    CleanTarget bits (bitmapOr x.dst x.src1 x.src2 bits) ∧
    CleanTarget bits (bitmapXor x.dst x.src1 x.src2 bits) ∧
    CleanTarget bits (bitmapComplement y.dst y.src bits) ∧
    CleanTarget bits (bitmapShiftLeft y.dst y.src shift bits) ∧
    CleanTarget bits (bitmapShiftRight y.dst y.src shift bits)

/-! ### The functions that filter them out -/

/-- A destination with positions that come from those of the sources. -/
theorem SameTarget.of_spec {p p' : ℕ → Bool} (h : ∃ d : Bitmap bits, o = some d.block ∧ ∀ i, d.bit i = p i)
    (h' : ∃ d : Bitmap bits, o' = some d.block ∧ ∀ i, d.bit i = p' i) (hp : ∀ i < bits, p i = p' i) :
    SameTarget bits o o' := by
  obtain ⟨d, rfl, hd⟩ := h
  obtain ⟨d', rfl, hd'⟩ := h'
  refine .inside d d' fun i hi => ?_
  rw [hd, hd', hp i hi]

theorem block_injective {d d' : Bitmap bits} (h : d.block = d'.block) : d = d' := by
  cases d
  cases d'
  cases h
  rfl

theorem SameTarget.agree {d d' : Bitmap bits} (h : SameTarget bits o o') (ho : o = some d.block)
    (ho' : o' = some d'.block) : Agree d d' := by
  cases h with
  | outside => cases ho
  | inside e e' h =>
      rw [← block_injective (Option.some.inj ho), ← block_injective (Option.some.inj ho')]
      exact h

theorem CleanTarget.of_spec {p : ℕ → Bool} (h : ∃ d : Bitmap bits, o = some d.block ∧ ∀ i, d.bit i = p i)
    (hp : ∀ i, bits ≤ i → p i = false) : CleanTarget bits o := by
  obtain ⟨d, rfl, hd⟩ := h
  intro e he i hi
  rw [← block_injective (Option.some.inj he), hd, hp i hi]

theorem CleanTarget.of_none : CleanTarget bits none := by
  intro d hd
  cases hd

theorem bitmapEmpty_congr (ha : Agree a a') : bitmapEmpty a.block bits = bitmapEmpty a'.block bits := by
  rw [bitmapEmpty_spec, bitmapEmpty_spec]
  refine congrArg some (decide_eq_decide.mpr (forall₂_congr fun i hi => ?_))
  rw [ha i hi]

theorem bitmapFull_congr (ha : Agree a a') : bitmapFull a.block bits = bitmapFull a'.block bits := by
  rw [bitmapFull_spec, bitmapFull_spec]
  refine congrArg some (decide_eq_decide.mpr (forall₂_congr fun i hi => ?_))
  rw [ha i hi]

theorem bitmapEqual_congr (ha : Agree a a') (hb : Agree b b') :
    bitmapEqual a.block b.block bits = bitmapEqual a'.block b'.block bits := by
  rw [bitmapEqual_spec, bitmapEqual_spec]
  refine congrArg some (decide_eq_decide.mpr (forall₂_congr fun i hi => ?_))
  rw [ha i hi, hb i hi]

theorem bitmapIntersects_congr (ha : Agree a a') (hb : Agree b b') :
    bitmapIntersects a.block b.block bits = bitmapIntersects a'.block b'.block bits := by
  rw [bitmapIntersects_spec, bitmapIntersects_spec]
  refine congrArg some (decide_eq_decide.mpr (exists_congr fun i => and_congr_right fun hi => ?_))
  rw [ha i hi, hb i hi]

theorem bitmapSubset_congr (ha : Agree a a') (hb : Agree b b') :
    bitmapSubset a.block b.block bits = bitmapSubset a'.block b'.block bits := by
  rw [bitmapSubset_spec, bitmapSubset_spec]
  refine congrArg some (decide_eq_decide.mpr (forall₂_congr fun i hi => ?_))
  rw [ha i hi, hb i hi]

theorem or_sameTarget (ha : Agree a a') (hb : Agree b b') (x : Args a b) (x' : Args a' b') :
    SameTarget bits (bitmapOr x.dst x.src1 x.src2 bits) (bitmapOr x'.dst x'.src1 x'.src2 bits) := by
  refine .of_spec (bitmapOr_spec x) (bitmapOr_spec x') fun i hi => ?_
  rw [ha i hi, hb i hi]

theorem xor_sameTarget (ha : Agree a a') (hb : Agree b b') (x : Args a b) (x' : Args a' b') :
    SameTarget bits (bitmapXor x.dst x.src1 x.src2 bits) (bitmapXor x'.dst x'.src1 x'.src2 bits) := by
  refine .of_spec (bitmapXor_spec x) (bitmapXor_spec x') fun i hi => ?_
  rw [ha i hi, hb i hi]

theorem complement_sameTarget (ha : Agree a a') (x : Arg a) (x' : Arg a') :
    SameTarget bits (bitmapComplement x.dst x.src bits) (bitmapComplement x'.dst x'.src bits) := by
  refine .of_spec (bitmapComplement_spec x) (bitmapComplement_spec x') fun i hi => ?_
  rw [ha i hi]

theorem shiftLeft_sameTarget (ha : Agree a a') (x : Arg a) (x' : Arg a') (shift : ℕ) :
    SameTarget bits (bitmapShiftLeft x.dst x.src shift bits) (bitmapShiftLeft x'.dst x'.src shift bits) := by
  rcases Nat.lt_or_ge (bitsToLongs bits) (shift / 64) with h | h
  · rw [bitmapShiftLeft_none x h, bitmapShiftLeft_none x' h]
    exact .outside
  · refine .of_spec (bitmapShiftLeft_spec x h) (bitmapShiftLeft_spec x' h) fun i hi => ?_
    rw [ha (i - shift) (by omega)]

theorem shiftRight_sameTarget (ha : Agree a a') (x : Arg a) (x' : Arg a') (shift : ℕ) :
    SameTarget bits (bitmapShiftRight x.dst x.src shift bits) (bitmapShiftRight x'.dst x'.src shift bits) := by
  rcases Nat.lt_or_ge (bitsToLongs bits) (shift / 64) with h | h
  · rw [bitmapShiftRight_none x h, bitmapShiftRight_none x' h]
    exact .outside
  · refine .of_spec (bitmapShiftRight_spec x h) (bitmapShiftRight_spec x' h) fun i _ => ?_
    by_cases hi : i + shift < bits
    · rw [ha _ hi]
    · rw [decide_eq_false hi, Bool.false_and, Bool.false_and]

theorem clean_targets (ha : a.Clean) (hb : b.Clean) (x : Args a b) (y : Arg a) (shift : ℕ) :
    CleanTarget bits ((bitmapAnd x.dst x.src1 x.src2 bits).map Prod.fst) ∧
    CleanTarget bits ((bitmapAndnot x.dst x.src1 x.src2 bits).map Prod.fst) ∧
    CleanTarget bits (bitmapOr x.dst x.src1 x.src2 bits) ∧
    CleanTarget bits (bitmapXor x.dst x.src1 x.src2 bits) ∧
    CleanTarget bits (bitmapComplement y.dst y.src bits) ∧
    CleanTarget bits (bitmapShiftLeft y.dst y.src shift bits) ∧
    CleanTarget bits (bitmapShiftRight y.dst y.src shift bits) := by
  refine ⟨?_, ?_, ?_, ?_, ?_, ?_, ?_⟩
  · obtain ⟨d, result, hand, hd, -⟩ := bitmapAnd_spec x
    refine .of_spec ⟨d, by rw [hand]; rfl, hd⟩ fun i hi => ?_
    rw [ha i hi, Bool.false_and]
  · obtain ⟨d, result, handnot, hd, -⟩ := bitmapAndnot_spec x
    refine .of_spec ⟨d, by rw [handnot]; rfl, hd⟩ fun i hi => ?_
    rw [ha i hi, Bool.false_and]
  · refine .of_spec (bitmapOr_spec x) fun i hi => ?_
    rw [ha i hi, hb i hi, Bool.or_false]
  · refine .of_spec (bitmapXor_spec x) fun i hi => ?_
    rw [ha i hi, hb i hi, Bool.xor_false]
  · refine .of_spec (bitmapComplement_spec y) fun i hi => ?_
    rw [decide_eq_false (by omega), Bool.false_and]
  · rcases Nat.lt_or_ge (bitsToLongs bits) (shift / 64) with h | h
    · rw [bitmapShiftLeft_none y h]
      exact .of_none
    · refine .of_spec (bitmapShiftLeft_spec y h) fun i hi => ?_
      rw [decide_eq_false (by omega), Bool.false_and]
  · rcases Nat.lt_or_ge (bitsToLongs bits) (shift / 64) with h | h
    · rw [bitmapShiftRight_none y h]
      exact .of_none
    · refine .of_spec (bitmapShiftRight_spec y h) fun i hi => ?_
      rw [decide_eq_false (by omega), Bool.false_and]

/-! ### The two that do not -/

/-- Bitmaps without unused bits are the same when their positions are. -/
theorem Agree.bit_eq (hbits : bits % 64 = 0) (ha : Agree a a') (i : ℕ) : a.bit i = a'.bit i := by
  have hlong := bitsToLongs_of_eq hbits
  rcases Nat.lt_or_ge i bits with hi | hi
  · exact ha i hi
  · rw [bit_of_ge a (by omega), bit_of_ge a' (by omega)]

/-- Two runs that return whether any bit of the words is set. -/
theorem SameOutcome.of_spec {p p' : ℕ → Bool}
    (h : ∃ d : Bitmap bits, ∃ result, q = some (d.block, result) ∧ (∀ i, d.bit i = p i) ∧
      (result = true ↔ ∃ i, d.bit i = true))
    (h' : ∃ d : Bitmap bits, ∃ result, q' = some (d.block, result) ∧ (∀ i, d.bit i = p' i) ∧
      (result = true ↔ ∃ i, d.bit i = true))
    (hp : ∀ i < bits, p i = p' i) (hall : (∀ i, p i = p' i) ∨ ∃ i < bits, p i = true) : SameOutcome bits q q' := by
  obtain ⟨d, result, rfl, hd, hr⟩ := h
  obtain ⟨d', result', rfl, hd', hr'⟩ := h'
  have hagree : Agree d d' := by
    intro i hi
    rw [hd, hd', hp i hi]
  have hresult : result = result' := by
    rw [Bool.eq_iff_iff, hr, hr']
    simp only [hd, hd']
    rcases hall with hall | ⟨i, hi, hpi⟩
    · simp only [hall]
    · refine iff_of_true ⟨i, hpi⟩ ⟨i, ?_⟩
      rw [← hp i hi, hpi]
  rw [hresult]
  exact .inside d d' result' hagree

/-- The same for an operation on two bitmaps with the same positions. -/
theorem SameOutcome.of_agree (op : Bool → Bool → Bool) (ha : Agree a a') (hb : Agree b b')
    (hq : ∃ d : Bitmap bits, ∃ result, q = some (d.block, result) ∧ (∀ i, d.bit i = op (a.bit i) (b.bit i)) ∧
      (result = true ↔ ∃ i, d.bit i = true))
    (hq' : ∃ d : Bitmap bits, ∃ result, q' = some (d.block, result) ∧ (∀ i, d.bit i = op (a'.bit i) (b'.bit i)) ∧
      (result = true ↔ ∃ i, d.bit i = true))
    (h : bits % 64 = 0 ∨ ∃ i < bits, op (a.bit i) (b.bit i) = true) : SameOutcome bits q q' := by
  refine .of_spec hq hq' (fun i hi => ?_) (h.imp_left fun h i => ?_)
  · rw [ha i hi, hb i hi]
  · rw [ha.bit_eq h, hb.bit_eq h]

theorem and_sameOutcome (ha : Agree a a') (hb : Agree b b') (x : Args a b) (x' : Args a' b')
    (h : bits % 64 = 0 ∨ ∃ i < bits, a.bit i = true ∧ b.bit i = true) :
    SameOutcome bits (bitmapAnd x.dst x.src1 x.src2 bits) (bitmapAnd x'.dst x'.src1 x'.src2 bits) := by
  refine .of_agree and ha hb (bitmapAnd_spec x) (bitmapAnd_spec x') (h.imp_right ?_)
  rintro ⟨i, hi, hai, hbi⟩
  exact ⟨i, hi, by rw [hai, hbi]; rfl⟩

theorem andnot_sameOutcome (ha : Agree a a') (hb : Agree b b') (x : Args a b) (x' : Args a' b')
    (h : bits % 64 = 0 ∨ ∃ i < bits, a.bit i = true ∧ b.bit i = false) :
    SameOutcome bits (bitmapAndnot x.dst x.src1 x.src2 bits) (bitmapAndnot x'.dst x'.src1 x'.src2 bits) := by
  refine .of_agree (fun p q => p && !q) ha hb (bitmapAndnot_spec x) (bitmapAndnot_spec x') (h.imp_right ?_)
  rintro ⟨i, hi, hai, hbi⟩
  exact ⟨i, hi, by rw [hai, hbi]; rfl⟩

/-! ### Bitmaps with the same positions -/

/-- The unused bits cleared. -/
def Bitmap.cleared (a : Bitmap bits) : Bitmap bits := .ofWords bits (clip bits a.word)

/-- The unused bits set. -/
def Bitmap.filled (a : Bitmap bits) : Bitmap bits :=
  .ofWords bits fun k => a.word k ||| ~~~clip bits (fun _ => ~~~0) k

theorem bit_cleared (a : Bitmap bits) (i : ℕ) : a.cleared.bit i = (decide (i < bits) && a.bit i) := by
  rcases Nat.lt_or_ge i (bitsToLongs bits * 64) with hi | hi
  · unfold Bitmap.cleared
    rw [bit_ofWords hi, bitAt_clip (by decide)]
    rfl
  · rw [bit_of_ge _ hi, bit_of_ge a hi, Bool.and_false]

theorem bit_filled (a : Bitmap bits) {i : ℕ} (hi : i < bitsToLongs bits * 64) :
    a.filled.bit i = (a.bit i || !decide (i < bits)) := by
  have hones : bitAt (clip bits fun _ => (~~~0 : Word)) i = decide (i < bits) := by
    rw [bitAt_clip (by decide)]
    unfold bitAt
    rw [BitVec.getLsbD_not, decide_eq_true (Nat.mod_lt i (by decide))]
    simp
  unfold Bitmap.filled
  rw [bit_ofWords hi, ← hones]
  unfold Bitmap.bit bitAt
  rw [BitVec.getLsbD_or, BitVec.getLsbD_not, decide_eq_true (Nat.mod_lt i (by decide)), Bool.true_and]

theorem agree_cleared (a : Bitmap bits) : Agree a a.cleared := by
  intro i hi
  rw [bit_cleared, decide_eq_true hi, Bool.true_and]

theorem agree_filled (a : Bitmap bits) : Agree a a.filled := by
  intro i hi
  have hlt : i < bitsToLongs bits * 64 := by
    unfold bitsToLongs
    omega
  rw [bit_filled a hlt, decide_eq_true hi, Bool.not_true, Bool.or_false]

/-- A bitmap with unused bits has one right behind the last position. -/
theorem lt_of_unused (hbits : bits % 64 ≠ 0) : bits < bitsToLongs bits * 64 := by
  unfold bitsToLongs
  omega

/-- A call with the first source as the destination. -/
def Args.inPlace (a b : Bitmap bits) : Args a b := ⟨a.block, none, some b.block, a.size, rfl, rfl⟩

theorem SameOutcome.result_eq {block block' : Block Word} {result result' : Bool}
    (h : SameOutcome bits (some (block, result)) (some (block', result'))) : result = result' := by
  cases h
  rfl

theorem exists_common (h : Unaffected a b) (hbits : bits % 64 ≠ 0) : ∃ i < bits, a.bit i = true ∧ b.bit i = true := by
  obtain ⟨d, result, hand, hd, hr⟩ := bitmapAnd_spec (Args.inPlace a b)
  obtain ⟨d₁, result₁, hand₁, hd₁, hr₁⟩ := bitmapAnd_spec (Args.inPlace a.filled b.filled)
  obtain ⟨d₀, result₀, hand₀, hd₀, hr₀⟩ := bitmapAnd_spec (Args.inPlace a.cleared b.cleared)
  have h₁ := h.and _ _ (agree_filled a) (agree_filled b) (Args.inPlace a b) (Args.inPlace a.filled b.filled)
  have h₀ := h.and _ _ (agree_cleared a) (agree_cleared b) (Args.inPlace a b) (Args.inPlace a.cleared b.cleared)
  rw [hand, hand₁] at h₁
  rw [hand, hand₀] at h₀
  have hset : result₁ = true := by
    refine hr₁.mpr ⟨bits, ?_⟩
    rw [hd₁, bit_filled a (lt_of_unused hbits), bit_filled b (lt_of_unused hbits)]
    simp
  obtain ⟨i, hi⟩ := hr₀.mp (h₀.result_eq.symm.trans (h₁.result_eq.trans hset))
  rw [hd₀, bit_cleared, bit_cleared, Bool.and_eq_true, Bool.and_eq_true, Bool.and_eq_true, decide_eq_true_iff] at hi
  exact ⟨i, hi.1.1, hi.1.2, hi.2.2⟩

theorem exists_difference (h : Unaffected a b) (hbits : bits % 64 ≠ 0) :
    ∃ i < bits, a.bit i = true ∧ b.bit i = false := by
  obtain ⟨d, result, handnot, hd, hr⟩ := bitmapAndnot_spec (Args.inPlace a b)
  obtain ⟨d₁, result₁, handnot₁, hd₁, hr₁⟩ := bitmapAndnot_spec (Args.inPlace a.filled b.cleared)
  obtain ⟨d₀, result₀, handnot₀, hd₀, hr₀⟩ := bitmapAndnot_spec (Args.inPlace a.cleared b)
  have h₁ := h.andnot _ _ (agree_filled a) (agree_cleared b) (Args.inPlace a b) (Args.inPlace a.filled b.cleared)
  have h₀ := h.andnot _ _ (agree_cleared a) (fun i _ => rfl) (Args.inPlace a b) (Args.inPlace a.cleared b)
  rw [handnot, handnot₁] at h₁
  rw [handnot, handnot₀] at h₀
  have hset : result₁ = true := by
    refine hr₁.mpr ⟨bits, ?_⟩
    rw [hd₁, bit_filled a (lt_of_unused hbits), bit_cleared]
    simp
  obtain ⟨i, hi⟩ := hr₀.mp (h₀.result_eq.symm.trans (h₁.result_eq.trans hset))
  rw [hd₀, bit_cleared, Bool.and_eq_true, Bool.and_eq_true, decide_eq_true_iff, Bool.not_eq_true'] at hi
  exact ⟨i, hi.1.1, hi.1.2, hi.2⟩

/-- **When unused bits do not matter.**  All functions filter them out for the bitmaps `a` and `b` if and
only if there are none, or `a` has a position in common with `b` and another one that `b` does not have. -/
theorem unaffected_iff (a b : Bitmap bits) : Unaffected a b ↔ bits % 64 = 0 ∨
    (∃ i < bits, a.bit i = true ∧ b.bit i = true) ∧ ∃ i < bits, a.bit i = true ∧ b.bit i = false := by
  constructor
  · intro h
    by_cases hbits : bits % 64 = 0
    · exact .inl hbits
    · exact .inr ⟨exists_common h hbits, exists_difference h hbits⟩
  · intro h
    exact
      { empty := fun a' ha => bitmapEmpty_congr ha
        full := fun a' ha => bitmapFull_congr ha
        equal := fun a' b' ha hb => bitmapEqual_congr ha hb
        intersects := fun a' b' ha hb => bitmapIntersects_congr ha hb
        subset := fun a' b' ha hb => bitmapSubset_congr ha hb
        weight := fun a' ha => bitmapWeight_congr ha
        and := fun a' b' ha hb x x' => and_sameOutcome ha hb x x' (h.imp_right And.left)
        andnot := fun a' b' ha hb x x' => andnot_sameOutcome ha hb x x' (h.imp_right And.right)
        or := fun a' b' ha hb x x' => or_sameTarget ha hb x x'
        xor := fun a' b' ha hb x x' => xor_sameTarget ha hb x x'
        complement := fun a' ha x x' => complement_sameTarget ha x x'
        shiftLeft := fun a' ha x x' shift => shiftLeft_sameTarget ha x x' shift
        shiftRight := fun a' ha x x' shift => shiftRight_sameTarget ha x x' shift
        clean := fun ha hb x y shift => clean_targets ha hb x y shift }

/-- The bitmap of one position in which every unused bit is `bit`. -/
def stray (bit : Bool) : Bitmap 1 := .ofWords 1 fun _ => if bit = true then 2 else 0

/-- Two bitmaps of one position that differ in an unused bit. -/
theorem bitmapAnd_stray : Agree (stray true) (stray false) ∧
    bitmapAnd (stray true).block none none 1 = some ((stray true).block, true) ∧
    bitmapAnd (stray false).block none none 1 = some ((stray false).block, false) ∧
    ¬ Unaffected (stray true) (stray true) := by
  have hagree : Agree (stray true) (stray false) := by
    intro i hi
    obtain rfl : i = 0 := by omega
    decide
  have hset : bitmapAnd (stray true).block none none 1 = some ((stray true).block, true) := by decide
  have hclear : bitmapAnd (stray false).block none none 1 = some ((stray false).block, false) := by decide
  refine ⟨hagree, hset, hclear, fun h => ?_⟩
  have hsame := h.and _ _ hagree hagree ⟨(stray true).block, none, none, (stray true).size, rfl, rfl⟩
    ⟨(stray false).block, none, none, (stray false).size, rfl, rfl⟩
  rw [hset, hclear] at hsame
  exact absurd hsame.result_eq (by decide)

end Libls.Bitmaps
