import Libls.BitmapOps
import Libls.Library.Fields

/-! # The weight of a bitmap

`__sw_hweight64` adds neighbouring fields of 1, 2 and 4 bits, and then all bytes with a product.  The weight of a
bitmap is the number of its positions. -/

namespace Libls.Bitmaps
open Strings WordBits Fields

/-! ### One word -/

/-- The bits of a word, as numbers. -/
def bits01 (w : Word) (j : ℕ) : ℕ := (w.getLsbD j).toNat

variable {w x y : Word} {m n : ℕ} {f g : ℕ → ℕ}

theorem toNat_bits (w : Word) : w.toNat = pack 1 (bits01 w) 64 := by
  have h := @pack_testBit 64 w.toNat
  rw [Nat.mod_eq_of_lt w.isLt] at h
  exact h.symm

theorem bits01_le (w : Word) (j : ℕ) : bits01 w j ≤ 1 := Bool.toNat_le _

/-- Sums of neighbours. -/
def pairSums (f : ℕ → ℕ) (k : ℕ) : ℕ := f (2 * k) + f (2 * k + 1)

theorem pairSums_le {B : ℕ} (h : ∀ k, f k ≤ B) (k : ℕ) : pairSums f k ≤ 2 * B := by
  have h0 := h (2 * k)
  have h1 := h (2 * k + 1)
  unfold pairSums
  omega

/-- The bits in pairs: the higher one is subtracted from the pair. -/
theorem hweight_step1 (h : ∀ k, f k ≤ 1) (hw : w.toNat = pack 1 f 64) :
    (w - (w >>> 1 &&& 0x5555555555555555)).toNat = pack 2 (pairSums f) 32 := by
  have hlt : ∀ k, f k < 2 ^ 1 := fun k => Nat.lt_succ_of_le (h k)
  have hhigh : (w >>> 1 &&& 0x5555555555555555).toNat = pack 2 (fun k => f (2 * k + 1)) 32 := by
    rw [BitVec.toNat_and, BitVec.toNat_ushiftRight, Nat.shiftRight_eq_div_pow, hw]
    exact @pack_high 1 32 f hlt
  have hpair : w.toNat = pack 2 (pairSums f) 32 + pack 2 (fun k => f (2 * k + 1)) 32 := by
    rw [hw, pack_add, @pack_pairs 1 32 f]
    congr 1
    funext k
    unfold pairSums
    omega
  rw [BitVec.toNat_sub_of_le, hhigh, hpair, Nat.add_sub_cancel]
  rw [BitVec.le_def, hhigh, hpair]
  exact Nat.le_add_left _ _

/-- The sums in fields of four bits. -/
theorem hweight_step2 (h : ∀ k, f k ≤ 2) (hw : w.toNat = pack 2 f 32) :
    ((w &&& (0x3333333333333333 : Word)) + (w >>> 2 &&& (0x3333333333333333 : Word))).toNat = pack 4 (pairSums f) 16 := by
  have hlt : ∀ k, f k < 2 ^ 2 := fun k => (h k).trans_lt (by decide)
  have hlow : (w &&& 0x3333333333333333).toNat = pack 4 (fun k => f (2 * k)) 16 := by
    rw [BitVec.toNat_and, hw]
    exact @pack_low 2 16 f hlt
  have hhigh : (w >>> 2 &&& 0x3333333333333333).toNat = pack 4 (fun k => f (2 * k + 1)) 16 := by
    rw [BitVec.toNat_and, BitVec.toNat_ushiftRight, Nat.shiftRight_eq_div_pow, hw]
    exact @pack_high 2 16 f hlt
  have hsum : pack 4 (pairSums f) 16 < 2 ^ 64 :=
    @pack_lt 4 16 (pairSums f) fun k _ => (pairSums_le h k).trans_lt (by decide)
  rw [BitVec.toNat_add, hlow, hhigh, pack_add]
  exact Nat.mod_eq_of_lt hsum

/-- The sums in bytes. -/
theorem hweight_step3 (h : ∀ k, f k ≤ 4) (hw : w.toNat = pack 4 f 16) :
    ((w + w >>> 4) &&& 0x0f0f0f0f0f0f0f0f).toNat = pack 8 (pairSums f) 8 := by
  have hboth := @pack_both 4 8 4 f h (by decide)
  have hlt : pack 4 f 16 < 2 ^ 63 := by
    have htop : pack 4 f 16 = pack 4 f 15 + 2 ^ 60 * f 15 := pack_succ
    have hrest : pack 4 f 15 < 2 ^ 60 := @pack_lt 4 15 f fun k _ => (h k).trans_lt (by decide)
    have h15 := h 15
    omega
  rw [BitVec.toNat_and, BitVec.toNat_add, BitVec.toNat_ushiftRight, Nat.shiftRight_eq_div_pow, hw, Nat.mod_eq_of_lt (by omega)]
  exact hboth

/-- All bytes. -/
theorem hweight_step4 (h : ∀ k, f k ≤ 8) (hw : w.toNat = pack 8 f 8) :
    ((w * 0x0101010101010101) >>> 56).toNat = ∑ j ∈ Finset.range 8, f j := by
  have hsum : ∑ j ∈ Finset.range 8, f j < 2 ^ 8 := by
    have hle := Finset.sum_le_card_nsmul (Finset.range 8) f 8 fun j _ => h j
    rw [Finset.card_range] at hle
    exact hle.trans_lt (by decide)
  rw [BitVec.toNat_ushiftRight, BitVec.toNat_mul, Nat.shiftRight_eq_div_pow, hw]
  exact @pack_product 8 7 f hsum

/-- **`hweight_long`** counts the bits. -/
theorem hweightLong_spec (w : Word) : (hweightLong w).toNat = ∑ j ∈ Finset.range 64, bits01 w j := by
  have hpair : ∀ k, pairSums (bits01 w) k ≤ 2 := pairSums_le (bits01_le w)
  have hfour : ∀ k, pairSums (pairSums (bits01 w)) k ≤ 4 := pairSums_le hpair
  have hbyte : ∀ k, pairSums (pairSums (pairSums (bits01 w))) k ≤ 8 := pairSums_le hfour
  have h := hweight_step4 hbyte (hweight_step3 hfour (hweight_step2 hpair (hweight_step1 (bits01_le w) (toNat_bits w))))
  refine h.trans ?_
  calc ∑ j ∈ Finset.range 8, pairSums (pairSums (pairSums (bits01 w))) j
      = ∑ j ∈ Finset.range 16, pairSums (pairSums (bits01 w)) j := sum_pairs
    _ = ∑ j ∈ Finset.range 32, pairSums (bits01 w) j := sum_pairs
    _ = ∑ j ∈ Finset.range 64, bits01 w j := sum_pairs

/-! ### All words -/

variable {bits k : ℕ} {a : Bitmap bits}

/-- The weight of the positions below `n`. -/
def weightBelow (a : Bitmap bits) (n : ℕ) : ℕ := ∑ i ∈ Finset.range n, (a.bit i).toNat

theorem weightBelow_le (a : Bitmap bits) (n : ℕ) : weightBelow a n ≤ n := by
  have h := Finset.sum_le_card_nsmul (Finset.range n) (fun i => (a.bit i).toNat) 1 fun i _ => Bool.toNat_le _
  rwa [Finset.card_range, smul_eq_mul, Nat.mul_one] at h

theorem weightBelow_add (a : Bitmap bits) (n m : ℕ) :
    weightBelow a (n + m) = weightBelow a n + ∑ j ∈ Finset.range m, (a.bit (n + j)).toNat := Finset.sum_range_add _ _ _

theorem card_positions (a : Bitmap bits) : weightBelow a bits = a.positions.card := by
  unfold weightBelow Bitmap.positions
  rw [Finset.card_filter]
  apply Finset.sum_congr rfl
  intro i _
  cases a.bit i <;> rfl

theorem card_positions_le (a : Bitmap bits) : a.positions.card ≤ bits := by
  rw [← card_positions]
  exact weightBelow_le a bits

/-- The step: the bits of one word. -/
theorem hweightLong_word (a : Bitmap bits) (k : ℕ) :
    (hweightLong (a.word k)).toNat = ∑ j ∈ Finset.range 64, (a.bit (k * 64 + j)).toNat := by
  rw [hweightLong_spec]
  apply Finset.sum_congr rfl
  intro j hj
  exact (congrArg Bool.toNat (bitAt_mul_add (Finset.mem_range.mp hj))).symm

/-- The run: the words from `k` on. -/
theorem weightLoop_spec (hk : (k + n) * 64 ≤ bits) (hbits : bits < 2 ^ 32) :
    weightLoop a.block k n (weightBelow a (k * 64)) = some (weightBelow a ((k + n) * 64)) := by
  induction n generalizing k with
  | zero => rfl
  | succ n ih =>
      have hadd := weightBelow_add a (k * 64) 64
      rw [← hweightLong_word, ← Nat.add_one_mul] at hadd
      have hle := weightBelow_le a ((k + 1) * 64)
      have hlong : k < bitsToLongs bits := by
        unfold bitsToLongs
        omega
      rw [weightLoop, a.read hlong, Option.bind_eq_bind, Option.bind_some, ← hadd, u32_of_lt (by omega), ih (by omega)]
      congr 3
      omega

/-- The bits of the last word that count. -/
theorem hweightLong_last (a : Bitmap bits) (h : bits % 64 ≠ 0) :
    (hweightLong (a.word (bits / 64) &&& lastWordMask bits)).toNat =
      ∑ j ∈ Finset.range (bits % 64), (a.bit (bits / 64 * 64 + j)).toNat := by
  have hlt : bits % 64 < 64 := Nat.mod_lt _ (by decide)
  have hsplit : 64 = bits % 64 + (64 - bits % 64) := by omega
  have hhigh : ∀ j ∈ Finset.range (64 - bits % 64),
      bits01 (a.word (bits / 64) &&& lastWordMask bits) (bits % 64 + j) = 0 := by
    intro j _
    unfold bits01
    rw [BitVec.getLsbD_and, lastWordMask_of_ne h, getLsbD_lowMask hlt, decide_eq_false (by omega), Bool.and_false]
    rfl
  rw [hweightLong_spec]
  nth_rewrite 1 [hsplit]
  rw [Finset.sum_range_add, Finset.sum_eq_zero hhigh, Nat.add_zero]
  apply Finset.sum_congr rfl
  intro j hj
  have hj : j < bits % 64 := Finset.mem_range.mp hj
  have hbit : a.bit (bits / 64 * 64 + j) = (a.word (bits / 64)).getLsbD j := bitAt_mul_add (by omega)
  unfold bits01
  rw [BitVec.getLsbD_and, lastWordMask_of_ne h, getLsbD_lowMask hlt, decide_eq_true hj, Bool.and_true, hbit]

/-- **`bitmap_weight`** is the number of positions. -/
theorem bitmapWeight_spec (a : Bitmap bits) (hbits : bits < 2 ^ 31) :
    bitmapWeight a.block bits = some (a.positions.card : ℤ) := by
  have hle := weightBelow_le a bits
  have hloop := @weightLoop_spec (bits / 64) bits 0 a (by omega) (by omega)
  rw [Nat.zero_mul, Nat.zero_add] at hloop
  change weightLoop a.block 0 (bits / 64) 0 = _ at hloop
  unfold bitmapWeight
  rw [hloop, Option.bind_eq_bind, Option.bind_some, ← card_positions]
  by_cases h : bits % 64 = 0
  · have hdiv : bits / 64 * 64 = bits := by omega
    rw [if_neg (not_not_intro h), hdiv, toInt_of_lt (by omega)]
    rfl
  · have hlong : bits / 64 < bitsToLongs bits := by
      unfold bitsToLongs
      omega
    have hadd := weightBelow_add a (bits / 64 * 64) (bits % 64)
    rw [← hweightLong_last a h, Nat.div_add_mod'] at hadd
    rw [if_pos h, a.read hlong, Option.bind_eq_bind, Option.bind_some, ← hadd, u32_of_lt (by omega), toInt_of_lt (by omega)]
    rfl

end Libls.Bitmaps
