import Libls.BitmapUnused

/-! # The single-word branches of the inline functions

For a constant size of at most 64 bits the functions of the header work on one word.  They agree with the
functions of the source file, but for `bitmap_shift_right`, which moves unused bits into the bitmap. -/

namespace Libls.Bitmaps
open Strings WordBits

variable {nbits n i : ℕ} {a b : Bitmap nbits} {v : Word}

/-! ### One word -/

theorem bitsToLongs_one (h0 : 0 < nbits) (h : nbits ≤ 64) : bitsToLongs nbits = 1 := by
  unfold bitsToLongs
  omega

theorem read_zero (h0 : 0 < nbits) (h : nbits ≤ 64) (a : Bitmap nbits) : a.block.read 0 = some (a.word 0) := by
  refine a.read ?_
  rw [bitsToLongs_one h0 h]
  exact Nat.zero_lt_one

theorem bit_one (h0 : 0 < nbits) (h : nbits ≤ 64) (a : Bitmap nbits) (i : ℕ) : a.bit i = (a.word 0).getLsbD i := by
  rcases Nat.lt_or_ge i 64 with hi | hi
  · unfold Bitmap.bit bitAt
    rw [Nat.div_eq_of_lt hi, Nat.mod_eq_of_lt hi]
  · rw [bit_of_ge a (by rw [bitsToLongs_one h0 h]; omega), BitVec.getLsbD_of_ge _ _ hi]

theorem getLsbD_lastWordMask (h0 : 0 < nbits) (h : nbits ≤ 64) :
    (lastWordMask nbits).getLsbD i = decide (i < nbits) := by
  unfold lastWordMask
  by_cases hbits : nbits % 64 = 0
  · obtain rfl : nbits = 64 := by omega
    rw [if_neg (by decide), BitVec.getLsbD_not]
    simp
  · have hmod : nbits % 64 = nbits := Nat.mod_eq_of_lt (by omega)
    rw [if_pos hbits, hmod]
    exact getLsbD_lowMask (by omega)

/-- A word that is stored as the whole destination. -/
theorem exists_store {dst : Block Word} (h0 : 0 < nbits) (h : nbits ≤ 64) (hsize : dst.size = bitsToLongs nbits)
    (v : Word) : ∃ d : Bitmap nbits, dst.write 0 v = some d.block ∧ ∀ i, d.bit i = v.getLsbD i := by
  have hlong := bitsToLongs_one h0 h
  obtain ⟨dst', hwrite, hsize', hread⟩ := Block.write_of_lt (by omega : 0 < dst.size) v
  obtain ⟨d, rfl, hd⟩ := @exists_bitmap nbits (fun k => if k = 0 then v else 0) dst' (hsize'.trans hsize)
    (fun k hk => by
      obtain rfl : k = 0 := by omega
      rw [hread, if_pos rfl, if_pos rfl])
    (fun k hk => if_neg (by omega))
  refine ⟨d, hwrite, fun i => ?_⟩
  rw [bit_one h0 h, hd]
  rfl

/-- A masked word is 0 when none of its positions is set. -/
theorem masked_eq_zero (h0 : 0 < nbits) (h : nbits ≤ 64) :
    v &&& lastWordMask nbits = 0 ↔ ∀ i < nbits, v.getLsbD i = false := by
  constructor
  · intro hv i hi
    have hbit := congrArg (BitVec.getLsbD · i) hv
    simp only [BitVec.getLsbD_and, getLsbD_lastWordMask h0 h, decide_eq_true hi, Bool.and_true] at hbit
    rw [hbit]
    exact BitVec.getLsbD_zero
  · intro hv
    refine BitVec.eq_of_getLsbD_eq fun i _ => ?_
    rw [BitVec.getLsbD_and, getLsbD_lastWordMask h0 h]
    by_cases hi : i < nbits
    · rw [hv i hi, Bool.false_and]
      exact BitVec.getLsbD_zero.symm
    · rw [decide_eq_false hi, Bool.and_false]
      exact BitVec.getLsbD_zero.symm

theorem smallConstNbits_true (h : nbits ≤ 64) : Inline.smallConstNbits true nbits = true := by
  unfold Inline.smallConstNbits
  rw [decide_eq_true h]
  rfl

/-! ### The branches -/

/-- The single-word branches on `a` and `b` do what the functions of the source file do. -/
structure SingleWord (a b : Bitmap nbits) (n : ℕ) : Prop where
  and : ∀ x : Args a b, SameOutcome nbits (Inline.bitmapAnd true x.dst x.src1 x.src2 nbits)
    (bitmapAnd x.dst x.src1 x.src2 nbits)
  andnot : ∀ x : Args a b, SameOutcome nbits (Inline.bitmapAndnot true x.dst x.src1 x.src2 nbits)
    (bitmapAndnot x.dst x.src1 x.src2 nbits)
  or : ∀ x : Args a b, SameTarget nbits (Inline.bitmapOr true x.dst x.src1 x.src2 nbits)
    (bitmapOr x.dst x.src1 x.src2 nbits)
  xor : ∀ x : Args a b, SameTarget nbits (Inline.bitmapXor true x.dst x.src1 x.src2 nbits)
    (bitmapXor x.dst x.src1 x.src2 nbits)
  complement : ∀ x : Arg a, SameTarget nbits (Inline.bitmapComplement true x.dst x.src nbits)
    (bitmapComplement x.dst x.src nbits)
  equal : Inline.bitmapEqual true a.block b.block nbits = bitmapEqual a.block b.block nbits
  intersects : Inline.bitmapIntersects true a.block b.block nbits = bitmapIntersects a.block b.block nbits
  subset : Inline.bitmapSubset true a.block b.block nbits = bitmapSubset a.block b.block nbits
  empty : Inline.bitmapEmpty true a.block nbits = bitmapEmpty a.block nbits
  full : Inline.bitmapFull true a.block nbits = bitmapFull a.block nbits
  weight : Inline.bitmapWeight true a.block nbits = bitmapWeight a.block nbits
  shiftRight : ∀ x : Arg a, SameTarget nbits (Inline.bitmapShiftRight true x.dst x.src n nbits)
    (bitmapShiftRight x.dst x.src n nbits)
  shiftLeft : ∀ x : Arg a, SameTarget nbits (Inline.bitmapShiftLeft true x.dst x.src n nbits)
    (bitmapShiftLeft x.dst x.src n nbits)

section
variable (h0 : 0 < nbits) (h : nbits ≤ 64)
include h0 h

theorem Args.read1 (x : Args a b) : (x.src1.getD x.dst).read 0 = some (a.word 0) := by
  rw [x.holds1, read_zero h0 h]

theorem Args.read2 (x : Args a b) : (x.src2.getD x.dst).read 0 = some (b.word 0) := by
  rw [x.holds2, read_zero h0 h]

theorem Arg.read (x : Arg a) : (x.src.getD x.dst).read 0 = some (a.word 0) := by
  rw [x.holds, read_zero h0 h]

theorem inlineEmpty_eq : Inline.bitmapEmpty true a.block nbits = bitmapEmpty a.block nbits := by
  unfold Inline.bitmapEmpty
  rw [smallConstNbits_true h, if_pos rfl, read_zero h0 h, bitmapEmpty_spec]
  refine congrArg some ?_
  rw [Bool.eq_iff_iff, beq_iff_eq, masked_eq_zero h0 h, decide_eq_true_iff]
  simp only [bit_one h0 h]

theorem inlineFull_eq : Inline.bitmapFull true a.block nbits = bitmapFull a.block nbits := by
  unfold Inline.bitmapFull
  rw [smallConstNbits_true h, if_pos rfl, read_zero h0 h, bitmapFull_spec]
  refine congrArg some ?_
  rw [Bool.eq_iff_iff, beq_iff_eq, masked_eq_zero h0 h, decide_eq_true_iff]
  refine forall₂_congr fun i hi => ?_
  rw [bit_one h0 h, BitVec.getLsbD_not, decide_eq_true (by omega : i < 64)]
  simp

theorem inlineEqual_eq : Inline.bitmapEqual true a.block b.block nbits = bitmapEqual a.block b.block nbits := by
  unfold Inline.bitmapEqual
  rw [smallConstNbits_true h, if_pos rfl, read_zero h0 h, read_zero h0 h, bitmapEqual_spec]
  refine congrArg some ?_
  rw [Bool.eq_iff_iff, beq_iff_eq, masked_eq_zero h0 h, decide_eq_true_iff]
  refine forall₂_congr fun i _ => ?_
  rw [bit_one h0 h, bit_one h0 h, BitVec.getLsbD_xor]
  simp

theorem inlineIntersects_eq :
    Inline.bitmapIntersects true a.block b.block nbits = bitmapIntersects a.block b.block nbits := by
  unfold Inline.bitmapIntersects
  rw [smallConstNbits_true h, if_pos rfl, read_zero h0 h, read_zero h0 h, bitmapIntersects_spec]
  refine congrArg some ?_
  rw [Bool.eq_iff_iff, bne_iff_ne, ne_eq, masked_eq_zero h0 h, decide_eq_true_iff]
  push Not
  refine exists_congr fun i => and_congr_right fun _ => ?_
  rw [bit_one h0 h, bit_one h0 h, BitVec.getLsbD_and]
  simp

theorem inlineSubset_eq : Inline.bitmapSubset true a.block b.block nbits = bitmapSubset a.block b.block nbits := by
  unfold Inline.bitmapSubset
  rw [smallConstNbits_true h, if_pos rfl, read_zero h0 h, read_zero h0 h, bitmapSubset_spec]
  refine congrArg some ?_
  rw [Bool.eq_iff_iff, beq_iff_eq, masked_eq_zero h0 h, decide_eq_true_iff]
  refine forall₂_congr fun i hi => ?_
  rw [bit_one h0 h, bit_one h0 h, BitVec.getLsbD_and, BitVec.getLsbD_not, decide_eq_true (by omega : i < 64)]
  simp

theorem inlineWeight_eq : Inline.bitmapWeight true a.block nbits = bitmapWeight a.block nbits := by
  unfold Inline.bitmapWeight bitmapWeight
  rw [smallConstNbits_true h, if_pos rfl, read_zero h0 h]
  by_cases hbits : nbits = 64
  · subst hbits
    have hmask : a.word 0 &&& lastWordMask 64 = a.word 0 := by
      refine BitVec.eq_of_getLsbD_eq fun i hi => ?_
      rw [BitVec.getLsbD_and, getLsbD_lastWordMask h0 h, decide_eq_true hi, Bool.and_true]
    simp [weightLoop, read_zero h0 h, hmask]
  · have hdiv : nbits / 64 = 0 := Nat.div_eq_of_lt (by omega)
    have hmod : nbits % 64 ≠ 0 := by omega
    simp [weightLoop, hdiv, hmod, read_zero h0 h]

/-- An operation on the two words, and whether it leaves any bit. -/
theorem Args.store_spec (x : Args a b) {f : Word → Word → Word} {g : Bool → Bool → Bool}
    (hf : ∀ x y j, j < 64 → (f x y).getLsbD j = g (x.getLsbD j) (y.getLsbD j)) (hg : g false false = false) :
    ∃ d : Bitmap nbits, x.dst.write 0 (f (a.word 0) (b.word 0)) = some d.block ∧
      (∀ i, d.bit i = g (a.bit i) (b.bit i)) ∧
      ((f (a.word 0) (b.word 0) != 0) = true ↔ ∃ i, d.bit i = true) := by
  obtain ⟨d, hwrite, hd⟩ := exists_store h0 h x.size (f (a.word 0) (b.word 0))
  refine ⟨d, hwrite, fun i => ?_, ?_⟩
  · rw [hd, bit_one h0 h, bit_one h0 h]
    rcases Nat.lt_or_ge i 64 with hi | hi
    · exact hf _ _ i hi
    · rw [BitVec.getLsbD_of_ge _ _ hi, BitVec.getLsbD_of_ge _ _ hi, BitVec.getLsbD_of_ge _ _ hi, hg]
  · simp only [hd]
    rw [bne_iff_ne, ne_eq, ← not_iff_not, not_not, not_exists]
    constructor
    · intro hv i
      rw [hv, Bool.not_eq_true]
      exact BitVec.getLsbD_zero
    · intro hv
      refine BitVec.eq_of_getLsbD_eq fun i _ => ?_
      rw [Bool.eq_false_of_not_eq_true (hv i)]
      exact BitVec.getLsbD_zero.symm

theorem inlineAnd_same (x : Args a b) : SameOutcome nbits (Inline.bitmapAnd true x.dst x.src1 x.src2 nbits)
    (bitmapAnd x.dst x.src1 x.src2 nbits) := by
  obtain ⟨d, hwrite, hd, hresult⟩ := @Args.store_spec nbits a b h0 h x (fun x y => x &&& y) and
    (fun x y j _ => BitVec.getLsbD_and) rfl
  refine .of_spec ⟨d, _, ?_, hd, hresult⟩ (bitmapAnd_spec x) (fun i _ => rfl) (.inl fun i => rfl)
  unfold Inline.bitmapAnd
  rw [smallConstNbits_true h, if_pos rfl, x.read1 h0 h, x.read2 h0 h]
  simp [hwrite]

theorem inlineAndnot_same (x : Args a b) : SameOutcome nbits (Inline.bitmapAndnot true x.dst x.src1 x.src2 nbits)
    (bitmapAndnot x.dst x.src1 x.src2 nbits) := by
  obtain ⟨d, hwrite, hd, hresult⟩ := @Args.store_spec nbits a b h0 h x (fun x y => x &&& ~~~y) (fun p q => p && !q)
    (fun x y j hj => by simp [hj]) rfl
  refine .of_spec ⟨d, _, ?_, hd, hresult⟩ (bitmapAndnot_spec x) (fun i _ => rfl) (.inl fun i => rfl)
  unfold Inline.bitmapAndnot
  rw [smallConstNbits_true h, if_pos rfl, x.read1 h0 h, x.read2 h0 h]
  simp [hwrite]

theorem inlineOr_same (x : Args a b) : SameTarget nbits (Inline.bitmapOr true x.dst x.src1 x.src2 nbits)
    (bitmapOr x.dst x.src1 x.src2 nbits) := by
  obtain ⟨d, hwrite, hd, -⟩ := @Args.store_spec nbits a b h0 h x (fun x y => x ||| y) or
    (fun x y j _ => BitVec.getLsbD_or) rfl
  refine .of_spec ⟨d, ?_, hd⟩ (bitmapOr_spec x) fun i _ => rfl
  unfold Inline.bitmapOr
  rw [smallConstNbits_true h, if_pos rfl, x.read1 h0 h, x.read2 h0 h]
  simp [hwrite]

theorem inlineXor_same (x : Args a b) : SameTarget nbits (Inline.bitmapXor true x.dst x.src1 x.src2 nbits)
    (bitmapXor x.dst x.src1 x.src2 nbits) := by
  obtain ⟨d, hwrite, hd, -⟩ := @Args.store_spec nbits a b h0 h x (fun x y => x ^^^ y) xor
    (fun x y j _ => BitVec.getLsbD_xor) rfl
  refine .of_spec ⟨d, ?_, hd⟩ (bitmapXor_spec x) fun i _ => rfl
  unfold Inline.bitmapXor
  rw [smallConstNbits_true h, if_pos rfl, x.read1 h0 h, x.read2 h0 h]
  simp [hwrite]

theorem inlineComplement_same (x : Arg a) : SameTarget nbits (Inline.bitmapComplement true x.dst x.src nbits)
    (bitmapComplement x.dst x.src nbits) := by
  obtain ⟨d, hwrite, hd⟩ := exists_store h0 h x.size (~~~a.word 0 &&& lastWordMask nbits)
  refine .of_spec ⟨d, ?_, hd⟩ (bitmapComplement_spec x) fun i hi => ?_
  · unfold Inline.bitmapComplement
    rw [smallConstNbits_true h, if_pos rfl, x.read h0 h]
    simp [hwrite]
  · rw [BitVec.getLsbD_and, BitVec.getLsbD_not, getLsbD_lastWordMask h0 h, bit_one h0 h, decide_eq_true hi,
      decide_eq_true (by omega : i < 64), Bool.and_true]

theorem inlineShiftLeft_same (x : Arg a) (hn : n < nbits) :
    SameTarget nbits (Inline.bitmapShiftLeft true x.dst x.src n nbits) (bitmapShiftLeft x.dst x.src n nbits) := by
  obtain ⟨d, hwrite, hd⟩ := exists_store h0 h x.size (a.word 0 <<< n &&& lastWordMask nbits)
  refine .of_spec ⟨d, ?_, hd⟩ (bitmapShiftLeft_spec x (by omega)) fun i hi => ?_
  · unfold Inline.bitmapShiftLeft
    rw [smallConstNbits_true h, if_pos rfl, x.read h0 h]
    simp [hwrite]
  · rw [BitVec.getLsbD_and, BitVec.getLsbD_shiftLeft, getLsbD_lastWordMask h0 h, bit_one h0 h, decide_eq_true hi,
      decide_eq_true (by omega : i < 64), Bool.true_and, Bool.true_and, Bool.and_true]
    congr 1
    rw [Bool.eq_iff_iff, Bool.not_eq_true', decide_eq_false_iff_not, decide_eq_true_iff, Nat.not_lt]

/-- What `bitmap_shift_right` leaves in the positions. -/
theorem inlineShiftRight_spec (x : Arg a) : ∃ d : Bitmap nbits,
    Inline.bitmapShiftRight true x.dst x.src n nbits = some d.block ∧ ∀ i, d.bit i = a.bit (i + n) := by
  obtain ⟨d, hwrite, hd⟩ := exists_store h0 h x.size (a.word 0 >>> n)
  refine ⟨d, ?_, fun i => ?_⟩
  · unfold Inline.bitmapShiftRight
    rw [smallConstNbits_true h, if_pos rfl, x.read h0 h]
    simp [hwrite]
  · rw [hd, BitVec.getLsbD_ushiftRight, bit_one h0 h, Nat.add_comm]

/-- The branch of `bitmap_shift_right` is right when the bits that it moves in are 0. -/
theorem inlineShiftRight_same_iff (x : Arg a) (hn : n < nbits) :
    SameTarget nbits (Inline.bitmapShiftRight true x.dst x.src n nbits) (bitmapShiftRight x.dst x.src n nbits) ↔
      ∀ i, nbits ≤ i → i < nbits + n → a.bit i = false := by
  obtain ⟨d, hinline, hd⟩ := @inlineShiftRight_spec nbits n a h0 h x
  obtain ⟨d', hright, hd'⟩ := bitmapShiftRight_spec x (by omega : n / 64 ≤ bitsToLongs nbits)
  rw [hinline, hright]
  constructor
  · intro hsame i hi hlt
    have hbit := hsame.agree rfl rfl (i - n) (by omega)
    rwa [hd, hd', Nat.sub_add_cancel (by omega), decide_eq_false (by omega), Bool.false_and] at hbit
  · intro hzero
    refine .inside d d' fun i hi => ?_
    rw [hd, hd']
    by_cases hlt : i + n < nbits
    · rw [decide_eq_true hlt, Bool.true_and]
    · rw [decide_eq_false hlt, Bool.false_and, hzero _ (by omega) (by omega)]

end

/-- A call in place. -/
def Arg.inPlace (a : Bitmap nbits) : Arg a := ⟨a.block, none, a.size, getD_none a⟩

/-- **When the single-word branches are right.**  For a size of at most 64 bits and a shift below it, all
of them agree with the functions of the source file if and only if the unused bits that
`bitmap_shift_right` moves into the bitmap are 0. -/
theorem singleWord_iff (h0 : 0 < nbits) (h : nbits ≤ 64) (hn : n < nbits) (a b : Bitmap nbits) :
    SingleWord a b n ↔ ∀ i, nbits ≤ i → i < nbits + n → a.bit i = false := by
  constructor
  · intro hsingle
    exact (inlineShiftRight_same_iff h0 h (Arg.inPlace a) hn).mp (hsingle.shiftRight (Arg.inPlace a))
  · intro hzero
    exact
      { and := fun x => inlineAnd_same h0 h x
        andnot := fun x => inlineAndnot_same h0 h x
        or := fun x => inlineOr_same h0 h x
        xor := fun x => inlineXor_same h0 h x
        complement := fun x => inlineComplement_same h0 h x
        equal := inlineEqual_eq h0 h
        intersects := inlineIntersects_eq h0 h
        subset := inlineSubset_eq h0 h
        empty := inlineEmpty_eq h0 h
        full := inlineFull_eq h0 h
        weight := inlineWeight_eq h0 h
        shiftRight := fun x => (inlineShiftRight_same_iff h0 h x hn).mpr hzero
        shiftLeft := fun x => inlineShiftLeft_same h0 h x hn }

/-- The bitmap of two positions with the given word. -/
def two (v : Word) : Bitmap 2 := .ofWords 2 fun _ => v

theorem singleWord_iff_two : SingleWord (two 1) (two 3) 1 := by
  refine (singleWord_iff (by decide) (by decide) (by decide) _ _).mpr fun i hi hlt => ?_
  obtain rfl : i = 2 := by omega
  decide

/-- An unused bit that is shifted into the bitmap. -/
theorem inlineShiftRight_stray :
    Inline.bitmapShiftRight true (two 4).block none 1 2 = some (two 2).block ∧
    bitmapShiftRight (two 4).block none 1 2 = some (two 0).block ∧
    (two 2).bit 1 ≠ (two 0).bit 1 ∧ ¬ SingleWord (two 4) (two 0) 1 := by
  have hinline : Inline.bitmapShiftRight true (two 4).block none 1 2 = some (two 2).block := by decide
  have hright : bitmapShiftRight (two 4).block none 1 2 = some (two 0).block := by decide
  refine ⟨hinline, hright, by decide, fun h => ?_⟩
  exact absurd ((h.shiftRight (Arg.inPlace (two 4))).agree hinline hright 1 (by decide)) (by decide)

end Libls.Bitmaps
