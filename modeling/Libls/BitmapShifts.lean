import Libls.BitmapOps

/-! # Shifting a bitmap

The masks on the source and on the destination make every word that is read and every word that is
written one of a clipped sequence.  In place, a pass of `__bitmap_shift_right` reads at or above the word
that it writes and one of `__bitmap_shift_left` at or below it, and the loops run accordingly. -/

namespace Libls.Bitmaps
open WordBits

variable {bits k n i off r shift : ℕ} {u : ℕ → Word} {a : Bitmap bits} {dst : Block Word}
  {src : Option (Block Word)}

/-! ### The masks -/

/-- A word of the bitmap with the mask of `__bitmap_shift_right`. -/
theorem clip_word (hk : k < bitsToLongs bits) : clip bits u k =
    if bits % 64 ≠ 0 ∧ k = bitsToLongs bits - 1 then u k &&& ((1 <<< (bits % 64)) - 1) else u k := by
  by_cases hbits : bits % 64 = 0
  · rw [bitsToLongs_of_eq hbits] at hk
    rw [if_neg (fun h => h.1 hbits), clip_of_lt hk]
  · rw [bitsToLongs_of_ne hbits] at hk ⊢
    by_cases hlast : k = bits / 64
    · rw [if_pos ⟨hbits, by omega⟩, hlast, clip_last]
      rfl
    · rw [if_neg (by omega), clip_of_lt (by omega)]

theorem shiftRightUpper_spec (hsrc : off + k + 1 < bitsToLongs bits →
    (src.getD dst).read (off + k + 1) = some (a.word (off + k + 1))) :
    ∃ upper, shiftRightUpper (bitsToLongs bits) (bits % 64) off r (src.getD dst) k = some upper ∧
      upper <<< (64 - r) = clip bits a.word (off + k + 1) <<< (64 - r) := by
  unfold shiftRightUpper
  by_cases hr : r = 0
  · refine ⟨0, if_pos (.inl hr), ?_⟩
    refine BitVec.eq_of_getLsbD_eq fun j hj => ?_
    rw [hr, BitVec.getLsbD_shiftLeft, BitVec.getLsbD_shiftLeft, decide_eq_true (by omega : j < 64 - 0)]
    simp
  · by_cases hlim : bitsToLongs bits ≤ off + k + 1
    · exact ⟨0, if_pos (.inr hlim), by rw [clip_of_ge hlim]⟩
    · refine ⟨clip bits a.word (off + k + 1), ?_, rfl⟩
      rw [if_neg (by omega), hsrc (by omega), clip_word (by omega)]
      simp only [and_comm]
      rfl

theorem shiftRightLower_spec (hk : off + k < bitsToLongs bits)
    (hsrc : (src.getD dst).read (off + k) = some (a.word (off + k))) :
    shiftRightLower (bitsToLongs bits) (bits % 64) off (src.getD dst) k = some (clip bits a.word (off + k)) := by
  unfold shiftRightLower
  rw [hsrc, clip_word hk]
  rfl

/-- Writing a word of the destination and masking it. -/
theorem store_spec (hk : k < bitsToLongs bits) (hroom : dst.size = bitsToLongs bits) :
    ∃ dst₁ dst', dst.write k (u k) = some dst₁ ∧ maskLast (bitsToLongs bits) (bits % 64) k dst₁ = some dst' ∧
      dst'.size = dst.size ∧ ∀ j, dst'.read j = if j = k then some (clip bits u k) else dst.read j := by
  obtain ⟨dst₁, hwrite, hsize₁, hread₁⟩ := Block.write_of_lt (hroom ▸ hk) (u k)
  unfold maskLast
  rw [clip_word hk]
  by_cases hlast : bits % 64 ≠ 0 ∧ k = bitsToLongs bits - 1
  · have hk₁ : dst₁.read k = some (u k) := by
      rw [hread₁, if_pos rfl]
    obtain ⟨dst', hmodify, hsize, hread⟩ := Block.modify_of_read hk₁ (· &&& ((1 <<< (bits % 64)) - 1))
    refine ⟨dst₁, dst', hwrite, ?_, hsize.trans hsize₁, fun j => ?_⟩
    · rw [if_pos hlast, hmodify]
    · rw [hread, hread₁, if_pos hlast]
      split <;> rfl
  · refine ⟨dst₁, dst₁, hwrite, if_neg hlast, hsize₁, fun j => ?_⟩
    rw [hread₁, if_neg hlast]

/-! ### Right -/

theorem shiftRightLoop_spec (hsize : dst.size = bitsToLongs bits) (hn : off + k + n = bitsToLongs bits)
    (hsrc : ∀ j, k + off ≤ j → j < bitsToLongs bits → (src.getD dst).read j = some (a.word j)) :
    ∃ dst', shiftRightLoop src (bitsToLongs bits) (bits % 64) off r k n dst = some dst' ∧ dst'.size = dst.size ∧
      ∀ j, dst'.read j = if k ≤ j ∧ j < k + n then some (clip bits (shiftedRight off r (clip bits a.word)) j)
        else dst.read j := by
  induction n generalizing k dst with
  | zero =>
      refine ⟨dst, rfl, rfl, fun j => ?_⟩
      rw [if_neg (by omega)]
  | succ n ih =>
      obtain ⟨upper, hupper, hshift⟩ := @shiftRightUpper_spec bits k off r a dst src fun h => hsrc _ (by omega) h
      have hlower := @shiftRightLower_spec bits k off a dst src (by omega) (hsrc _ (by omega) (by omega))
      obtain ⟨dst₁, dst₂, hwrite, hmask, hsize₂, hread₂⟩ := @store_spec bits k
        (shiftedRight off r (clip bits a.word)) dst (by omega) hsize
      obtain ⟨dst', hloop, hsize', hread⟩ := @ih (k + 1) dst₂ (hsize₂.trans hsize) (by omega)
        (fun j hj hlt => (read_source (by rw [hread₂, if_neg (by omega)])).trans (hsrc j (by omega) hlt))
      refine ⟨dst', ?_, hsize'.trans hsize₂, fun j => ?_⟩
      · unfold shiftedRight at hwrite
        rw [shiftRightLoop, hupper, hlower]
        simp only [Option.bind_eq_bind, Option.bind_some, hshift, hwrite, hmask, hloop]
      · rw [hread, hread₂]
        exact Block.read_cons (f := fun j => some (clip bits (shiftedRight off r (clip bits a.word)) j))

/-- Zeros in some of the words. -/
theorem memsetZero_spec (h : i + n ≤ dst.size) : ∃ dst', memsetZero dst i n = some dst' ∧ dst'.size = dst.size ∧
    ∀ j, dst'.read j = if i ≤ j ∧ j < i + n then some 0 else dst.read j := by
  obtain ⟨dst', hwrite, hsize, hhas, hread⟩ := @Block.writeList_of_le _ dst i (List.replicate n (0 : Word))
    (by rwa [List.length_replicate])
  rw [List.length_replicate] at hread
  refine ⟨dst', hwrite, hsize, fun j => ?_⟩
  by_cases hin : i ≤ j ∧ j < i + n
  · obtain ⟨d, rfl⟩ : ∃ d, j = i + d := ⟨j - i, by omega⟩
    have hd := hhas d (by rw [List.length_replicate]; omega)
    rw [hd, if_pos hin, List.getElem?_replicate, if_pos (by omega)]
  · rw [if_neg hin, hread j (by omega)]

/-- `bitmap_zero`, for a size that is not a constant. -/
theorem bitmapZero_spec (hsize : dst.size = bitsToLongs bits) : ∃ d : Bitmap bits,
    Inline.bitmapZero false dst bits = some d.block ∧ ∀ i, d.bit i = false := by
  obtain ⟨dst', hmemset, hsize', hread⟩ := @memsetZero_spec (bitsToLongs bits) 0 dst (by omega)
  obtain ⟨d, rfl, hd⟩ := @exists_bits bits (fun _ => 0) dst' _ (fun _ => BitVec.getLsbD_zero) (hsize'.trans hsize)
    (fun k hk => by rw [hread, if_pos (by omega)]) (fun _ _ => rfl)
  exact ⟨d, hmemset, hd⟩

theorem div_mul_add_mod (shift : ℕ) : shift / 64 * 64 + shift % 64 = shift := by
  omega

/-- **`__bitmap_shift_right`**, as long as it is not by more words than there are. -/
theorem bitmapShiftRight_spec (x : Arg a) (h : shift / 64 ≤ bitsToLongs bits) : ∃ d : Bitmap bits,
    bitmapShiftRight x.dst x.src shift bits = some d.block ∧
      ∀ i, d.bit i = (decide (i + shift < bits) && a.bit (i + shift)) := by
  have hbit : ∀ i, bitAt (clip bits (shiftedRight (shift / 64) (shift % 64) (clip bits a.word))) i =
      (decide (i + shift < bits) && a.bit (i + shift)) := by
    intro i
    rw [bitAt_clip (by decide), bitAt_shiftedRight (Nat.mod_lt _ (by decide)), div_mul_add_mod, bitAt_clip (by decide)]
    by_cases hi : i + shift < bits
    · rw [decide_eq_true (by omega : i < bits), Bool.true_and]
      rfl
    · rw [decide_eq_false hi, Bool.false_and, Bool.and_false, Bool.false_and]
  have hzero : ∀ k, bitsToLongs bits - shift / 64 ≤ k →
      clip bits (shiftedRight (shift / 64) (shift % 64) (clip bits a.word)) k = 0 := by
    intro k hk
    refine clip_of_zero ?_
    unfold shiftedRight
    rw [clip_of_ge (by omega), clip_of_ge (by omega)]
    simp
  obtain ⟨dst₁, hloop, hsize₁, hread₁⟩ := @shiftRightLoop_spec bits 0 (bitsToLongs bits - shift / 64) (shift / 64)
    (shift % 64) a x.dst x.src x.size (by omega) (fun j _ hj => by rw [x.holds]; exact a.read hj)
  unfold bitmapShiftRight
  simp only [hloop, Option.bind_eq_bind, Option.bind_some]
  by_cases hoff : shift / 64 = 0
  · rw [if_pos hoff]
    obtain ⟨d, rfl, hd⟩ := exists_bits hbit (hsize₁.trans x.size)
      (fun k hk => by rw [hread₁, if_pos (by omega)]) (fun k hk => hzero k (by omega))
    exact ⟨d, rfl, hd⟩
  · rw [if_neg hoff, if_pos h]
    obtain ⟨dst₂, hmemset, hsize₂, hread₂⟩ := @memsetZero_spec (shift / 64) (bitsToLongs bits - shift / 64) dst₁
      (by rw [hsize₁, x.size]; omega)
    obtain ⟨d, rfl, hd⟩ := exists_bits hbit (hsize₂.trans (hsize₁.trans x.size))
      (fun k hk => by
        rw [hread₂, hread₁]
        by_cases hhigh : bitsToLongs bits - shift / 64 ≤ k
        · rw [if_pos (by omega), hzero k hhigh]
        · rw [if_neg (by omega), if_pos (by omega)])
      (fun k hk => hzero k (by omega))
    exact ⟨d, hmemset, hd⟩

theorem bitmapShiftRight_none (x : Arg a) (h : bitsToLongs bits < shift / 64) :
    bitmapShiftRight x.dst x.src shift bits = none := by
  have hn : bitsToLongs bits - shift / 64 = 0 := by omega
  unfold bitmapShiftRight
  simp only [hn, shiftRightLoop, Option.bind_eq_bind, Option.bind_some]
  rw [if_neg (by omega), if_neg (by omega)]

/-! ### Left -/

theorem shiftLeftLower_spec (hk : k < bitsToLongs bits)
    (hsrc : ∀ j < k + 1, (src.getD dst).read j = some (a.word j)) :
    ∃ lower, shiftLeftLower r (src.getD dst) k = some lower ∧
      lower >>> (64 - r) = (if k = 0 then 0 else clip bits a.word (k - 1)) >>> (64 - r) := by
  unfold shiftLeftLower
  by_cases hr : r = 0
  · refine ⟨0, if_neg (fun h => h.1 hr), ?_⟩
    refine BitVec.eq_of_getLsbD_eq fun j hj => ?_
    rw [hr, BitVec.getLsbD_ushiftRight, BitVec.getLsbD_ushiftRight, BitVec.getLsbD_of_ge _ _ (by omega),
      BitVec.getLsbD_of_ge _ _ (by omega)]
  · by_cases hzero : k = 0
    · exact ⟨0, if_neg (by omega), by rw [if_pos hzero]⟩
    · refine ⟨clip bits a.word (k - 1), ?_, by rw [if_neg hzero]⟩
      rw [if_pos (by omega), hsrc _ (by omega), clip_word (by omega), if_neg (by omega)]

theorem shiftLeftUpper_spec (hk : k < bitsToLongs bits) (hsrc : (src.getD dst).read k = some (a.word k)) :
    shiftLeftUpper (bitsToLongs bits) (bits % 64) (src.getD dst) k = some (clip bits a.word k) := by
  unfold shiftLeftUpper
  rw [hsrc, clip_word hk]
  rfl

theorem shiftLeftLoop_spec (hsize : dst.size = bitsToLongs bits) (hn : off + n ≤ bitsToLongs bits)
    (hsrc : ∀ j < n, (src.getD dst).read j = some (a.word j)) :
    ∃ dst', shiftLeftLoop src (bitsToLongs bits) (bits % 64) off r n dst = some dst' ∧ dst'.size = dst.size ∧
      ∀ j, dst'.read j = if off ≤ j ∧ j < off + n then some (clip bits (shiftedLeft off r (clip bits a.word)) j)
        else dst.read j := by
  induction n generalizing dst with
  | zero =>
      refine ⟨dst, rfl, rfl, fun j => ?_⟩
      rw [if_neg (by omega)]
  | succ n ih =>
      obtain ⟨lower, hlower, hshift⟩ := @shiftLeftLower_spec bits n r a dst src (by omega) hsrc
      have hupper := @shiftLeftUpper_spec bits n a dst src (by omega) (hsrc n (by omega))
      have hword : shiftedLeft off r (clip bits a.word) (n + off) =
          lower >>> (64 - r) ||| clip bits a.word n <<< r := by
        unfold shiftedLeft
        rw [if_neg (by omega), Nat.add_sub_cancel, hshift]
        simp only [Nat.add_eq_right]
      obtain ⟨dst₁, dst₂, hwrite, hmask, hsize₂, hread₂⟩ := @store_spec bits (n + off)
        (shiftedLeft off r (clip bits a.word)) dst (by omega) hsize
      obtain ⟨dst', hloop, hsize', hread⟩ := @ih dst₂ (hsize₂.trans hsize) (by omega)
        (fun j hj => (read_source (by rw [hread₂, if_neg (by omega)])).trans (hsrc j (by omega)))
      refine ⟨dst', ?_, hsize'.trans hsize₂, fun j => ?_⟩
      · rw [hword] at hwrite
        rw [shiftLeftLoop, hlower, hupper]
        simp only [Option.bind_eq_bind, Option.bind_some, hwrite, hmask, hloop]
      · rw [hread, hread₂]
        by_cases hj : j = n + off
        · rw [if_neg (by omega), if_pos hj, if_pos (by omega), hj]
        · by_cases hin : off ≤ j ∧ j < off + (n + 1)
          · rw [if_pos (by omega), if_pos hin]
          · rw [if_neg (by omega), if_neg hj, if_neg hin]

/-- **`__bitmap_shift_left`**, as long as it is not by more words than there are. -/
theorem bitmapShiftLeft_spec (x : Arg a) (h : shift / 64 ≤ bitsToLongs bits) : ∃ d : Bitmap bits,
    bitmapShiftLeft x.dst x.src shift bits = some d.block ∧
      ∀ i, d.bit i = (decide (i < bits) && (decide (shift ≤ i) && a.bit (i - shift))) := by
  have hbit : ∀ i, bitAt (clip bits (shiftedLeft (shift / 64) (shift % 64) (clip bits a.word))) i =
      (decide (i < bits) && (decide (shift ≤ i) && a.bit (i - shift))) := by
    intro i
    rw [bitAt_clip (by decide), bitAt_shiftedLeft (Nat.mod_lt _ (by decide)), div_mul_add_mod, bitAt_clip (by decide)]
    by_cases hi : i < bits
    · rw [decide_eq_true (by omega : i - shift < bits), Bool.true_and]
      rfl
    · rw [decide_eq_false hi, Bool.false_and, Bool.false_and]
  obtain ⟨dst₁, hloop, hsize₁, hread₁⟩ := @shiftLeftLoop_spec bits (bitsToLongs bits - shift / 64) (shift / 64)
    (shift % 64) a x.dst x.src x.size (by omega) (fun j hj => by rw [x.holds]; exact a.read (by omega))
  unfold bitmapShiftLeft
  simp only [hloop, Option.bind_eq_bind, Option.bind_some]
  by_cases hoff : shift / 64 = 0
  · rw [if_pos hoff]
    obtain ⟨d, rfl, hd⟩ := exists_bits hbit (hsize₁.trans x.size)
      (fun k hk => by rw [hread₁, if_pos (by omega)]) (fun k hk => clip_of_ge hk)
    exact ⟨d, rfl, hd⟩
  · rw [if_neg hoff]
    obtain ⟨dst₂, hmemset, hsize₂, hread₂⟩ := @memsetZero_spec (shift / 64) 0 dst₁
      (by rw [hsize₁, x.size]; omega)
    obtain ⟨d, rfl, hd⟩ := exists_bits hbit (hsize₂.trans (hsize₁.trans x.size))
      (fun k hk => by
        rw [hread₂, hread₁]
        by_cases hlow : k < shift / 64
        · rw [if_pos (by omega), clip_of_zero (if_pos hlow)]
        · rw [if_neg (by omega), if_pos (by omega)])
      (fun k hk => clip_of_ge hk)
    exact ⟨d, hmemset, hd⟩

theorem bitmapShiftLeft_none (x : Arg a) (h : bitsToLongs bits < shift / 64) :
    bitmapShiftLeft x.dst x.src shift bits = none := by
  have hn : bitsToLongs bits - shift / 64 = 0 := by omega
  unfold bitmapShiftLeft
  simp only [hn, shiftLeftLoop, Option.bind_eq_bind, Option.bind_some]
  rw [if_neg (by omega)]
  refine Block.writeList_none ?_ ?_
  · rw [x.size, List.length_replicate]
    omega
  · rw [ne_eq, List.replicate_eq_nil_iff]
    omega

/-! ### Both shifts -/

/-- A word that is shifted by 64 is 0. -/
theorem shiftRightUpper_zero {lim left : ℕ} {block : Block Word} : shiftRightUpper lim left off 0 block k = some 0 :=
  if_pos (.inl rfl)

theorem shiftLeftLower_zero {block : Block Word} : shiftLeftLower 0 block k = some 0 := if_neg fun h => h.1 rfl

/-- The destination, which may be the source, is the source shifted by `shift` positions. -/
structure Shifted (x : Arg a) (shift : ℕ) : Prop where
  right : ∃ d : Bitmap bits, bitmapShiftRight x.dst x.src shift bits = some d.block ∧
    ∀ i < bits, d.bit i = if i + shift < bits then a.bit (i + shift) else false
  left : ∃ d : Bitmap bits, bitmapShiftLeft x.dst x.src shift bits = some d.block ∧
    ∀ i < bits, d.bit i = if shift ≤ i then a.bit (i - shift) else false
  /-- If the shift is by whole words, the other half of each word is 0. -/
  whole : shift % 64 = 0 → ∀ (lim left off k : ℕ) (block : Block Word) (w : Word),
    shiftRightUpper lim left off (shift % 64) block k = some w ∨ shiftLeftLower (shift % 64) block k = some w → w = 0

/-- **The shifts.** -/
theorem shifted (x : Arg a) (h : shift ≤ bits) : Shifted x shift := by
  have hlongs : shift / 64 ≤ bitsToLongs bits := by
    unfold bitsToLongs
    omega
  constructor
  · obtain ⟨d, hd, hbit⟩ := bitmapShiftRight_spec x hlongs
    refine ⟨d, hd, fun i _ => ?_⟩
    rw [hbit]
    by_cases hi : i + shift < bits
    · rw [if_pos hi, decide_eq_true hi, Bool.true_and]
    · rw [if_neg hi, decide_eq_false hi, Bool.false_and]
  · obtain ⟨d, hd, hbit⟩ := bitmapShiftLeft_spec x hlongs
    refine ⟨d, hd, fun i hi => ?_⟩
    rw [hbit, decide_eq_true hi, Bool.true_and]
    by_cases hge : shift ≤ i
    · rw [if_pos hge, decide_eq_true hge, Bool.true_and]
    · rw [if_neg hge, decide_eq_false hge, Bool.false_and]
  · intro hrem lim left off k block w hw
    rw [hrem, shiftRightUpper_zero, shiftLeftLower_zero, or_self, Option.some_inj] at hw
    exact hw.symm

/-- Two words, with a bit behind the last position. -/
def stray65 : Bitmap 65 := ⟨⟨[some 6, some 3]⟩, by decide, by decide⟩

theorem shifted_in_place : Shifted (⟨stray65.block, none, stray65.size, rfl⟩ : Arg stray65) 1 := shifted _ (by decide)

end Libls.Bitmaps
