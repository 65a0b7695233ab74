import Mathlib.Tactic

/-! # Bits in a sequence of words

A sequence of words of `w` bits is one sequence of bits, the least significant bit of each word first.
`clip n` clears the bits from position `n` on; two sequences agree on the first `n` positions if and only
if they are the same after that.  The shifts are stated for whole sequences: the word of a shifted
sequence is made from two neighbours. -/

namespace Libls.WordBits

variable {w : ℕ} {u v : ℕ → BitVec w} {i j k m n off r : ℕ}

/-- Position `i`. -/
def bitAt (u : ℕ → BitVec w) (i : ℕ) : Bool := (u (i / w)).getLsbD (i % w)

/-- The word with the lowest `n` bits set. -/
def lowMask (w n : ℕ) : BitVec w := (1#w <<< n) - 1

/-- The bits from position `n` on are cleared. -/
def clip (n : ℕ) (u : ℕ → BitVec w) (k : ℕ) : BitVec w :=
  if k < n / w then u k else if k = n / w then u k &&& lowMask w (n % w) else 0

/-! ### Positions -/

theorem bitAt_mul_add (hj : j < w) : bitAt u (k * w + j) = (u k).getLsbD j := by
  have hdiv : (k * w + j) / w = k := by
    rw [Nat.mul_comm, Nat.mul_add_div (by omega), Nat.div_eq_of_lt hj, Nat.add_zero]
  have hmod : (k * w + j) % w = j := by
    rw [Nat.mul_comm, Nat.mul_add_mod, Nat.mod_eq_of_lt hj]
  unfold bitAt
  rw [hdiv, hmod]

theorem lt_of_mul_add_lt (hj : j < w) : k * w + j < n ↔ k < n / w ∨ k = n / w ∧ j < n % w := by
  have hn := Nat.div_add_mod n w
  have hlt := Nat.mod_lt n (Nat.lt_of_le_of_lt (Nat.zero_le j) hj)
  rw [Nat.mul_comm] at hn
  constructor
  · intro h
    rcases Nat.lt_trichotomy k (n / w) with hk | hk | hk
    · exact .inl hk
    · refine .inr ⟨hk, ?_⟩
      rw [hk] at h
      omega
    · have := Nat.mul_le_mul_right w (Nat.succ_le_of_lt hk)
      rw [Nat.succ_mul] at this
      omega
  · rintro (hk | ⟨hk, hj'⟩)
    · have := Nat.mul_le_mul_right w (Nat.succ_le_of_lt hk)
      rw [Nat.succ_mul] at this
      omega
    · rw [hk]
      omega

/-- A statement about every position is one about every bit of every word. -/
theorem forall_position (hw : 0 < w) {P : ℕ → Prop} : (∀ i, P i) ↔ ∀ k, ∀ j < w, P (k * w + j) := by
  refine ⟨fun h k j _ => h _, fun h i => ?_⟩
  have hi := h (i / w) (i % w) (Nat.mod_lt i hw)
  rwa [Nat.mul_comm, Nat.div_add_mod] at hi

theorem ext_bits (h : ∀ i, bitAt u i = bitAt v i) : u = v := by
  funext k
  refine BitVec.eq_of_getLsbD_eq fun j hj => ?_
  rw [← bitAt_mul_add hj, ← bitAt_mul_add hj, h]

/-! ### Masks -/

theorem toNat_one_shiftLeft (hn : n < w) : (1#w <<< n).toNat = 2 ^ n := by
  have hpow : 2 ^ n < 2 ^ w := Nat.pow_lt_pow_right (by decide) hn
  have hone : 1 < 2 ^ w := Nat.one_lt_two_pow (by omega)
  rw [BitVec.toNat_shiftLeft, BitVec.toNat_ofNat, Nat.mod_eq_of_lt hone, Nat.shiftLeft_eq, Nat.one_mul,
    Nat.mod_eq_of_lt hpow]

theorem toNat_lowMask (hn : n < w) : (lowMask w n).toNat = 2 ^ n - 1 := by
  have hpow : 2 ^ n < 2 ^ w := Nat.pow_lt_pow_right (by decide) hn
  have hone : (1 : BitVec w).toNat = 1 := Nat.mod_eq_of_lt (Nat.one_lt_two_pow (by omega))
  have hpos := Nat.two_pow_pos n
  have harith : 2 ^ w - 1 + 2 ^ n = 2 ^ n - 1 + 2 ^ w := by omega
  unfold lowMask
  rw [BitVec.toNat_sub, toNat_one_shiftLeft hn, hone, harith, Nat.add_mod_right, Nat.mod_eq_of_lt (by omega)]

theorem getLsbD_lowMask (hn : n < w) : (lowMask w n).getLsbD j = decide (j < n) := by
  rw [← BitVec.testBit_toNat, toNat_lowMask hn, Nat.testBit_two_pow_sub_one]

/-- The lowest `n` bits, where `n` may be the width: the highest of them and those below it. -/
theorem getLsbD_add_lowMask (hn : 0 < n) (hle : n ≤ w) :
    (1#w <<< (n - 1) + (1#w <<< (n - 1) - 1)).getLsbD j = decide (j < n) := by
  have hlt : n - 1 < w := by omega
  have hpow : 2 ^ n ≤ 2 ^ w := Nat.pow_le_pow_right (by decide) hle
  have hsucc : 2 ^ (n - 1) + 2 ^ (n - 1) = 2 ^ n := by
    rw [← Nat.two_mul, ← Nat.pow_succ', Nat.succ_eq_add_one, Nat.sub_add_cancel hn]
  have hpos := Nat.two_pow_pos (n - 1)
  have hsum : (1#w <<< (n - 1) + (1#w <<< (n - 1) - 1)).toNat = 2 ^ n - 1 := by
    change (1#w <<< (n - 1) + lowMask w (n - 1)).toNat = 2 ^ n - 1
    rw [BitVec.toNat_add, toNat_one_shiftLeft hlt, toNat_lowMask hlt, Nat.mod_eq_of_lt (by omega)]
    omega
  rw [← BitVec.testBit_toNat, hsum, Nat.testBit_two_pow_sub_one]

theorem bitAt_clip (hw : 0 < w) : bitAt (clip n u) i = (decide (i < n) && bitAt u i) := by
  revert i
  rw [forall_position hw]
  intro k j hj
  rw [bitAt_mul_add hj, bitAt_mul_add hj]
  unfold clip
  rcases Nat.lt_trichotomy k (n / w) with hk | hk | hk
  · have hlt : k * w + j < n := (lt_of_mul_add_lt hj).mpr (.inl hk)
    rw [if_pos hk, decide_eq_true hlt, Bool.true_and]
  · have hiff : k * w + j < n ↔ j < n % w := by
      rw [lt_of_mul_add_lt hj]
      omega
    rw [if_neg (by omega), if_pos hk, BitVec.getLsbD_and, getLsbD_lowMask (Nat.mod_lt n hw), Bool.and_comm]
    simp only [hiff]
  · have hge : ¬ k * w + j < n := by
      rw [lt_of_mul_add_lt hj]
      omega
    rw [if_neg (by omega), if_neg (by omega), decide_eq_false hge, Bool.false_and]
    exact BitVec.getLsbD_zero

/-- **Agreement on the first positions.** -/
theorem clip_eq_clip (hw : 0 < w) : clip n u = clip n v ↔ ∀ i < n, bitAt u i = bitAt v i := by
  constructor
  · intro h i hi
    have hbit := congrArg (bitAt · i) h
    simp only [bitAt_clip hw, decide_eq_true hi, Bool.true_and] at hbit
    exact hbit
  · intro h
    refine ext_bits fun i => ?_
    rw [bitAt_clip hw, bitAt_clip hw]
    by_cases hi : i < n
    · rw [h i hi]
    · rw [decide_eq_false hi, Bool.false_and, Bool.false_and]

theorem clip_of_lt (hk : k < n / w) : clip n u k = u k := if_pos hk

theorem clip_last : clip n u (n / w) = u (n / w) &&& lowMask w (n % w) := by
  unfold clip
  rw [if_neg (Nat.lt_irrefl _), if_pos rfl]

theorem clip_of_gt (hk : n / w < k) : clip n u k = 0 := by
  unfold clip
  rw [if_neg (by omega), if_neg (by omega)]

theorem clip_of_zero (h : u k = 0) : clip n u k = 0 := by
  unfold clip
  rw [h]
  simp

theorem exists_clip_ne_zero (hw : 0 < w) : (∃ k, clip n u k ≠ 0) ↔ ∃ i < n, bitAt u i = true := by
  constructor
  · rintro ⟨k, hk⟩
    by_contra hnone
    push Not at hnone
    have hzero : clip n u = clip n (fun _ => (0 : BitVec w)) := by
      rw [clip_eq_clip hw]
      intro i hi
      rw [Bool.eq_false_iff.mpr (hnone i hi)]
      exact BitVec.getLsbD_zero.symm
    refine hk ?_
    rw [hzero]
    exact clip_of_zero rfl
  · rintro ⟨i, hi, hbit⟩
    refine ⟨i / w, fun h => ?_⟩
    have hclip : bitAt (clip n u) i = true := by
      rw [bitAt_clip hw, hbit, decide_eq_true hi]
      rfl
    unfold bitAt at hclip
    rw [h] at hclip
    simp at hclip

/-! ### Shifts -/

/-- A word of the sequence shifted right by `off * w + r`. -/
def shiftedRight (off r : ℕ) (u : ℕ → BitVec w) (k : ℕ) : BitVec w :=
  u (off + k + 1) <<< (w - r) ||| u (off + k) >>> r

theorem bitAt_shiftedRight (hr : r < w) : bitAt (shiftedRight off r u) i = bitAt u (i + (off * w + r)) := by
  have hw : 0 < w := by omega
  revert i
  rw [forall_position hw]
  intro k j hj
  rw [bitAt_mul_add hj]
  unfold shiftedRight
  rw [BitVec.getLsbD_or, BitVec.getLsbD_shiftLeft, BitVec.getLsbD_ushiftRight]
  by_cases hlow : j + r < w
  · have hpos : k * w + j + (off * w + r) = (off + k) * w + (r + j) := by ring
    rw [hpos, bitAt_mul_add (by omega), decide_eq_true (by omega : j < w - r)]
    simp
  · have hpos : k * w + j + (off * w + r) = (off + k + 1) * w + (j - (w - r)) := by
      have hj' : j = j - (w - r) + (w - r) := by omega
      have hr' : r + (w - r) = w := by omega
      calc k * w + j + (off * w + r)
          = (off + k) * w + (j + r) := by ring
        _ = (off + k) * w + (j - (w - r) + w) := by omega
        _ = (off + k + 1) * w + (j - (w - r)) := by ring
    rw [hpos, bitAt_mul_add (by omega), decide_eq_true hj, decide_eq_false (by omega : ¬ j < w - r),
      BitVec.getLsbD_of_ge (u (off + k)) (r + j) (by omega)]
    simp

/-- A word of the sequence shifted left by `off * w + r`; the words below `off` are 0. -/
def shiftedLeft (off r : ℕ) (u : ℕ → BitVec w) (k : ℕ) : BitVec w :=
  if k < off then 0
  else (if k = off then 0 else u (k - off - 1)) >>> (w - r) ||| u (k - off) <<< r

theorem bitAt_shiftedLeft (hr : r < w) : bitAt (shiftedLeft off r u) i =
    (decide (off * w + r ≤ i) && bitAt u (i - (off * w + r))) := by
  have hw : 0 < w := by omega
  revert i
  rw [forall_position hw]
  intro k j hj
  rw [bitAt_mul_add hj]
  unfold shiftedLeft
  by_cases hk : k < off
  · have hlt : k * w + w ≤ off * w := by
      rw [← Nat.succ_mul]
      exact Nat.mul_le_mul_right w hk
    rw [if_pos hk, decide_eq_false (by omega), Bool.false_and]
    exact BitVec.getLsbD_zero
  · obtain ⟨d, rfl⟩ : ∃ d, k = off + d := ⟨k - off, by omega⟩
    rw [if_neg hk, Nat.add_sub_cancel_left, BitVec.getLsbD_or, BitVec.getLsbD_ushiftRight, BitVec.getLsbD_shiftLeft,
      decide_eq_true hj]
    by_cases hlow : j < r
    · rw [decide_eq_true hlow]
      cases d with
      | zero =>
          rw [if_pos (Nat.add_zero off), decide_eq_false (by rw [Nat.add_zero]; omega)]
          simp
      | succ d =>
          have hpos : (off + (d + 1)) * w + j = off * w + r + (d * w + (w - r + j)) := by
            have hr' : w - r + r = w := by omega
            calc (off + (d + 1)) * w + j
                = off * w + d * w + w + j := by ring
              _ = off * w + r + (d * w + (w - r + j)) := by omega
          rw [if_neg (by omega), hpos, Nat.add_sub_cancel_left, bitAt_mul_add (by omega),
            decide_eq_true (Nat.le_add_right _ _)]
          simp
    · have hpos : (off + d) * w + j = off * w + r + (d * w + (j - r)) := by
        rw [Nat.add_mul]
        omega
      rw [hpos, Nat.add_sub_cancel_left, bitAt_mul_add (by omega), decide_eq_true (Nat.le_add_right _ _),
        decide_eq_false hlow]
      split <;> simp
      intro h
      exact absurd (BitVec.lt_of_getLsbD h) (by omega)

end Libls.WordBits
