import Libls.BitmapEdits
import Libls.BitmapInline

/-! # The inline functions at any call site

A call site sees a constant size or not (`isConst`), so that any call of an inline function of `include/ls/bitmap.h`
may take the single-word branch.  What the call does is the same, as long as the unused bits that
`bitmap_shift_right` may move into the bitmap are 0. -/

namespace Libls.Bitmaps
open Strings WordBits

variable {bits n : ℕ} {a b : Bitmap bits} {dst : Block Word} (h0 : 0 < bits) (isConst : Bool)

/-! ### Operations -/

theorem smallConstNbits_iff : Inline.smallConstNbits isConst bits = true ↔ isConst = true ∧ bits ≤ 64 := by
  unfold Inline.smallConstNbits
  rw [Bool.and_eq_true, decide_eq_true_iff]

include h0

theorem inlineAnd_spec (x : Args a b) : ∃ d : Bitmap bits, ∃ result,
    Inline.bitmapAnd isConst x.dst x.src1 x.src2 bits = some (d.block, result) ∧ (∀ i, d.bit i = (a.bit i && b.bit i)) ∧
      (result = true ↔ ∃ i, d.bit i = true) := by
  by_cases hsmall : Inline.smallConstNbits isConst bits = true
  · have h := ((smallConstNbits_iff isConst).mp hsmall).2
    obtain ⟨d, hwrite, hd, hresult⟩ := @Args.store_spec bits a b h0 h x (fun x y => x &&& y) and
      (fun x y j _ => BitVec.getLsbD_and) rfl
    refine ⟨d, _, ?_, hd, hresult⟩
    unfold Inline.bitmapAnd
    rw [if_pos hsmall, x.read1 h0 h, x.read2 h0 h]
    simp [hwrite]
  · obtain ⟨d, result, hand, hd, hresult⟩ := bitmapAnd_spec x
    exact ⟨d, result, (if_neg hsmall).trans hand, hd, hresult⟩

theorem inlineAndnot_spec (x : Args a b) : ∃ d : Bitmap bits, ∃ result,
    Inline.bitmapAndnot isConst x.dst x.src1 x.src2 bits = some (d.block, result) ∧
      (∀ i, d.bit i = (a.bit i && !b.bit i)) ∧ (result = true ↔ ∃ i, d.bit i = true) := by
  by_cases hsmall : Inline.smallConstNbits isConst bits = true
  · have h := ((smallConstNbits_iff isConst).mp hsmall).2
    obtain ⟨d, hwrite, hd, hresult⟩ := @Args.store_spec bits a b h0 h x (fun x y => x &&& ~~~y) (fun p q => p && !q)
      (fun x y j hj => by simp [hj]) rfl
    refine ⟨d, _, ?_, hd, hresult⟩
    unfold Inline.bitmapAndnot
    rw [if_pos hsmall, x.read1 h0 h, x.read2 h0 h]
    simp [hwrite]
  · obtain ⟨d, result, handnot, hd, hresult⟩ := bitmapAndnot_spec x
    exact ⟨d, result, (if_neg hsmall).trans handnot, hd, hresult⟩

theorem inlineOr_spec (x : Args a b) : ∃ d : Bitmap bits,
    Inline.bitmapOr isConst x.dst x.src1 x.src2 bits = some d.block ∧ ∀ i, d.bit i = (a.bit i || b.bit i) := by
  by_cases hsmall : Inline.smallConstNbits isConst bits = true
  · have h := ((smallConstNbits_iff isConst).mp hsmall).2
    obtain ⟨d, hwrite, hd, -⟩ := @Args.store_spec bits a b h0 h x (fun x y => x ||| y) or
      (fun x y j _ => BitVec.getLsbD_or) rfl
    refine ⟨d, ?_, hd⟩
    unfold Inline.bitmapOr
    rw [if_pos hsmall, x.read1 h0 h, x.read2 h0 h]
    simp [hwrite]
  · obtain ⟨d, hor, hd⟩ := bitmapOr_spec x
    exact ⟨d, (if_neg hsmall).trans hor, hd⟩

theorem inlineXor_spec (x : Args a b) : ∃ d : Bitmap bits,
    Inline.bitmapXor isConst x.dst x.src1 x.src2 bits = some d.block ∧ ∀ i, d.bit i = (a.bit i ^^ b.bit i) := by
  by_cases hsmall : Inline.smallConstNbits isConst bits = true
  · have h := ((smallConstNbits_iff isConst).mp hsmall).2
    obtain ⟨d, hwrite, hd, -⟩ := @Args.store_spec bits a b h0 h x (fun x y => x ^^^ y) xor
      (fun x y j _ => BitVec.getLsbD_xor) rfl
    refine ⟨d, ?_, hd⟩
    unfold Inline.bitmapXor
    rw [if_pos hsmall, x.read1 h0 h, x.read2 h0 h]
    simp [hwrite]
  · obtain ⟨d, hxor, hd⟩ := bitmapXor_spec x
    exact ⟨d, (if_neg hsmall).trans hxor, hd⟩

theorem inlineComplement_spec (x : Arg a) : ∃ d : Bitmap bits,
    Inline.bitmapComplement isConst x.dst x.src bits = some d.block ∧
      ∀ i, d.bit i = (decide (i < bits) && !a.bit i) := by
  by_cases hsmall : Inline.smallConstNbits isConst bits = true
  · have h := ((smallConstNbits_iff isConst).mp hsmall).2
    obtain ⟨d, hwrite, hd⟩ := exists_store h0 h x.size (~~~a.word 0 &&& lastWordMask bits)
    refine ⟨d, ?_, fun i => ?_⟩
    · unfold Inline.bitmapComplement
      rw [if_pos hsmall, x.read h0 h]
      simp [hwrite]
    · rw [hd, BitVec.getLsbD_and, BitVec.getLsbD_not, getLsbD_lastWordMask h0 h, bit_one h0 h, Bool.and_comm]
      by_cases hi : i < bits
      · rw [decide_eq_true hi, decide_eq_true (by omega : i < 64), Bool.true_and, Bool.true_and]
      · rw [decide_eq_false hi, Bool.false_and, Bool.false_and]
  · obtain ⟨d, hcomplement, hd⟩ := bitmapComplement_spec x
    exact ⟨d, (if_neg hsmall).trans hcomplement, hd⟩

/-- Bits that are shifted in from behind the last position have to be 0. -/
theorem shiftRight_of_clean (ha : a.Clean) (x : Arg a) (hn : n < bits) : ∃ d : Bitmap bits,
    Inline.bitmapShiftRight isConst x.dst x.src n bits = some d.block ∧ ∀ i, d.bit i = a.bit (i + n) := by
  by_cases hsmall : Inline.smallConstNbits isConst bits = true
  · obtain ⟨rfl, h⟩ := (smallConstNbits_iff isConst).mp hsmall
    exact inlineShiftRight_spec h0 h x
  · obtain ⟨d, hshift, hd⟩ := @bitmapShiftRight_spec bits n a x (by unfold bitsToLongs; omega)
    refine ⟨d, (if_neg hsmall).trans hshift, fun i => ?_⟩
    rw [hd]
    by_cases hi : i + n < bits
    · rw [decide_eq_true hi, Bool.true_and]
    · rw [decide_eq_false hi, Bool.false_and, ha _ (by omega)]

theorem inlineShiftLeft_spec (x : Arg a) (hn : n < bits) : ∃ d : Bitmap bits,
    Inline.bitmapShiftLeft isConst x.dst x.src n bits = some d.block ∧
      ∀ i, d.bit i = (decide (i < bits) && (decide (n ≤ i) && a.bit (i - n))) := by
  by_cases hsmall : Inline.smallConstNbits isConst bits = true
  · have h := ((smallConstNbits_iff isConst).mp hsmall).2
    obtain ⟨d, hwrite, hd⟩ := exists_store h0 h x.size (a.word 0 <<< n &&& lastWordMask bits)
    refine ⟨d, ?_, fun i => ?_⟩
    · unfold Inline.bitmapShiftLeft
      rw [if_pos hsmall, x.read h0 h]
      simp [hwrite]
    · rw [hd, BitVec.getLsbD_and, BitVec.getLsbD_shiftLeft, getLsbD_lastWordMask h0 h, bit_one h0 h, Bool.and_comm]
      by_cases hi : i < bits
      · rw [decide_eq_true hi, decide_eq_true (by omega : i < 64), ← decide_not, Bool.true_and]
        simp only [Nat.not_lt, Bool.true_and]
      · rw [decide_eq_false hi, Bool.false_and, Bool.false_and]
  · obtain ⟨d, hshift, hd⟩ := @bitmapShiftLeft_spec bits n a x (by unfold bitsToLongs; omega)
    exact ⟨d, (if_neg hsmall).trans hshift, hd⟩

theorem inlineZero_spec (hsize : dst.size = bitsToLongs bits) : ∃ d : Bitmap bits,
    Inline.bitmapZero isConst dst bits = some d.block ∧ ∀ i, d.bit i = false := by
  by_cases hsmall : Inline.smallConstNbits isConst bits = true
  · have h := ((smallConstNbits_iff isConst).mp hsmall).2
    obtain ⟨d, hwrite, hd⟩ := exists_store h0 h hsize 0
    exact ⟨d, (if_pos hsmall).trans hwrite, fun i => (hd i).trans getLsbD_zero⟩
  · obtain ⟨d, hzero, hd⟩ := bitmapZero_spec hsize
    exact ⟨d, (if_neg hsmall).trans hzero, hd⟩

/-! ### Questions -/

theorem inlineEmpty_spec (a : Bitmap bits) :
    Inline.bitmapEmpty isConst a.block bits = some (decide (∀ i < bits, a.bit i = false)) := by
  rw [← bitmapEmpty_spec]
  by_cases hsmall : Inline.smallConstNbits isConst bits = true
  · obtain ⟨rfl, h⟩ := (smallConstNbits_iff isConst).mp hsmall
    exact inlineEmpty_eq h0 h
  · exact if_neg hsmall

theorem inlineFull_spec (a : Bitmap bits) :
    Inline.bitmapFull isConst a.block bits = some (decide (∀ i < bits, a.bit i = true)) := by
  rw [← bitmapFull_spec]
  by_cases hsmall : Inline.smallConstNbits isConst bits = true
  · obtain ⟨rfl, h⟩ := (smallConstNbits_iff isConst).mp hsmall
    exact inlineFull_eq h0 h
  · exact if_neg hsmall

theorem inlineEqual_spec (a b : Bitmap bits) :
    Inline.bitmapEqual isConst a.block b.block bits = some (decide (∀ i < bits, a.bit i = b.bit i)) := by
  rw [← bitmapEqual_spec]
  by_cases hsmall : Inline.smallConstNbits isConst bits = true
  · obtain ⟨rfl, h⟩ := (smallConstNbits_iff isConst).mp hsmall
    exact inlineEqual_eq h0 h
  · exact if_neg hsmall

theorem inlineIntersects_spec (a b : Bitmap bits) : Inline.bitmapIntersects isConst a.block b.block bits =
    some (decide (∃ i < bits, a.bit i = true ∧ b.bit i = true)) := by
  rw [← bitmapIntersects_spec]
  by_cases hsmall : Inline.smallConstNbits isConst bits = true
  · obtain ⟨rfl, h⟩ := (smallConstNbits_iff isConst).mp hsmall
    exact inlineIntersects_eq h0 h
  · exact if_neg hsmall

theorem inlineSubset_spec (a b : Bitmap bits) : Inline.bitmapSubset isConst a.block b.block bits =
    some (decide (∀ i < bits, a.bit i = true → b.bit i = true)) := by
  rw [← bitmapSubset_spec]
  by_cases hsmall : Inline.smallConstNbits isConst bits = true
  · obtain ⟨rfl, h⟩ := (smallConstNbits_iff isConst).mp hsmall
    exact inlineSubset_eq h0 h
  · exact if_neg hsmall

theorem inlineWeight_card (a : Bitmap bits) (hbits : bits < 2 ^ 31) :
    Inline.bitmapWeight isConst a.block bits = some (a.positions.card : ℤ) := by
  rw [← bitmapWeight_spec a hbits]
  by_cases hsmall : Inline.smallConstNbits isConst bits = true
  · obtain ⟨rfl, h⟩ := (smallConstNbits_iff isConst).mp hsmall
    exact inlineWeight_eq h0 h
  · exact if_neg hsmall

theorem inlineFill_spec (hsize : dst.size = bitsToLongs bits) : ∃ d : Bitmap bits,
    Inline.bitmapFill isConst dst bits = some d.block ∧ ∀ i, d.bit i = decide (i < bits) := by
  have hlongs : bitsToLongs bits ≠ 0 := by
    unfold bitsToLongs
    omega
  have hbit : ∀ i, bitAt (clip bits fun _ => (~~~0 : Word)) i = decide (i < bits) := by
    intro i
    have hzero : (0 : Word).getLsbD (i % 64) = false := BitVec.getLsbD_zero
    rw [bitAt_clip (by decide), bitAt, BitVec.getLsbD_not, hzero, decide_eq_true (Nat.mod_lt i (by decide))]
    exact Bool.and_true _
  have hlast : clip bits (fun _ => (~~~0 : Word)) (bitsToLongs bits - 1) = lastWordMask bits := by
    by_cases h : bits % 64 = 0
    · have hlong := bitsToLongs_of_eq h
      rw [clip_of_lt (by omega), lastWordMask, if_neg (not_not.mpr h)]
    · have hlong := bitsToLongs_of_ne h
      rw [(by omega : bitsToLongs bits - 1 = bits / 64), clip_last, lastWordMask_of_ne h]
      exact BitVec.allOnes_and
  -- The words before the last one, which a constant size has none of.
  obtain ⟨dst₁, hfill, hsize₁, hread₁⟩ : ∃ dst₁, (if Inline.smallConstNbits isConst bits then some dst
      else dst.writeList 0 (List.replicate (bitsToLongs bits - 1) (~~~0))) = some dst₁ ∧ dst₁.size = bitsToLongs bits ∧
      ∀ k < bitsToLongs bits - 1, dst₁.read k = some (~~~0) := by
    by_cases hsmall : Inline.smallConstNbits isConst bits = true
    · have hlong := bitsToLongs_one h0 ((smallConstNbits_iff isConst).mp hsmall).2
      exact ⟨dst, if_pos hsmall, hsize, fun k hk => absurd hk (by omega)⟩
    · obtain ⟨dst₁, hwrite, hsize₁, hhas, -⟩ := @Block.writeList_of_le _ dst 0
        (List.replicate (bitsToLongs bits - 1) (~~~0 : Word)) (by rw [List.length_replicate]; omega)
      refine ⟨dst₁, (if_neg hsmall).trans hwrite, hsize₁.trans hsize, fun k hk => ?_⟩
      have h := hhas k (by rwa [List.length_replicate])
      rwa [Nat.zero_add, List.getElem?_replicate, if_pos hk] at h
  obtain ⟨dst₂, hwrite, hsize₂, hread₂⟩ :=
    Block.write_of_lt (by omega : bitsToLongs bits - 1 < dst₁.size) (lastWordMask bits)
  obtain ⟨d, rfl, hd⟩ := @exists_bits bits (clip bits fun _ => (~~~0 : Word)) dst₂ _ hbit (hsize₂.trans hsize₁)
    (fun k hk => by
      rw [hread₂]
      by_cases hk' : k = bitsToLongs bits - 1
      · rw [if_pos hk', hk', hlast]
      · have hlong : bitsToLongs bits - 1 ≤ bits / 64 := by
          unfold bitsToLongs
          omega
        rw [if_neg hk', hread₁ k (by omega), clip_of_lt (by omega)])
    (fun k hk => clip_of_ge hk)
  refine ⟨d, ?_, hd⟩
  unfold Inline.bitmapFill
  dsimp only
  rw [if_neg hlongs]
  by_cases hsmall : Inline.smallConstNbits isConst bits = true
  · rw [if_pos hsmall] at hfill ⊢
    rw [hfill]
    exact hwrite
  · rw [if_neg hsmall] at hfill ⊢
    rw [hfill]
    exact hwrite

theorem inlineCopy_spec (hsize : dst.size = bitsToLongs bits) (a : Bitmap bits) : ∃ d : Bitmap bits,
    Inline.bitmapCopy isConst dst a.block bits = some d.block ∧ ∀ i, d.bit i = a.bit i := by
  by_cases hsmall : Inline.smallConstNbits isConst bits = true
  · have h := ((smallConstNbits_iff isConst).mp hsmall).2
    obtain ⟨d, hwrite, hd⟩ := exists_store h0 h hsize (a.word 0)
    refine ⟨d, ?_, fun i => (hd i).trans (bit_one h0 h a i).symm⟩
    unfold Inline.bitmapCopy
    rw [if_pos hsmall, read_zero h0 h a]
    exact hwrite
  · have hlen : ((List.range (bitsToLongs bits)).map a.word).length = bitsToLongs bits := by
      rw [List.length_map, List.length_range]
    have hget : ∀ k < bitsToLongs bits, ((List.range (bitsToLongs bits)).map a.word)[k]? = some (a.word k) := by
      intro k hk
      rw [List.getElem?_map, List.getElem?_range hk]
      rfl
    have hhas : a.block.Has 0 ((List.range (bitsToLongs bits)).map a.word) := by
      intro k hk
      rw [hlen] at hk
      rw [Nat.zero_add, hget k hk, a.read hk]
    have hread := hhas.readList
    rw [hlen] at hread
    obtain ⟨dst₁, hwrite, hsize₁, hhas₁, -⟩ := @Block.writeList_of_le _ dst 0
      ((List.range (bitsToLongs bits)).map a.word) (by rw [hlen]; omega)
    obtain ⟨d, rfl, hd⟩ := @exists_bitmap bits a.word dst₁ (hsize₁.trans hsize)
      (fun k hk => by
        have h := hhas₁ k (by rwa [hlen])
        rwa [Nat.zero_add, hget k hk] at h)
      (fun k hk => word_of_ge a hk)
    refine ⟨d, ?_, fun i => ?_⟩
    · unfold Inline.bitmapCopy
      rw [if_neg hsmall, hread]
      exact hwrite
    · unfold Bitmap.bit
      rw [hd]

end Libls.Bitmaps
