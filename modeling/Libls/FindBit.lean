import Libls.BitmapOps

/-! # Searching a bitmap: `src/find_next_bit.c`

The pointer `p` is the number of the word it points to.  A pass of the loops goes on while at least 64
bits are left, so the number of passes is `size / 64`. -/

namespace Libls.Bitmaps
open WordBits

/-- `__ffs`, which is not defined for 0. -/
def ffs (word : Word) : Option ℕ := (List.range 64).find? fun j => word.getLsbD j

/-- `found_middle` -/
def foundMiddle (tmp : Word) (result : ℕ) : Option ℕ := do return result + (← ffs tmp)

/-- `found_first` -/
def foundFirst (tmp : Word) (result size : ℕ) : Option ℕ :=
  let tmp := tmp &&& (~~~0 : Word) >>> (64 - size)
  if tmp = 0 then return result + size
  else foundMiddle tmp result

/-- The loop over whole words and what follows it. -/
def findWord (addr : Block Word) : ℕ → ℕ → ℕ → ℕ → Option ℕ
  | 0, p, result, size =>
      if size = 0 then return result
      else do foundFirst (← addr.read p) result size
  | n + 1, p, result, size => do
      let tmp ← addr.read p
      if tmp ≠ 0 then foundMiddle tmp result
      else findWord addr n (p + 1) (result + 64) (size - 64)

/-- `find_first_bit` -/
def findFirstBit (addr : Block Word) (size : ℕ) : Option ℕ := findWord addr (size / 64) 0 0 size

/-- `find_next_bit` -/
def findNextBit (addr : Block Word) (size offset : ℕ) : Option ℕ :=
  let p := offset / 64
  let result := offset - offset % 64
  if size ≤ offset then return size
  else
    let size := size - result
    let offset := offset % 64
    if offset = 0 then findWord addr (size / 64) p result size
    else do
      let tmp ← addr.read p
      let tmp := tmp &&& (~~~0 : Word) <<< offset
      if size < 64 then foundFirst tmp result size
      else if tmp ≠ 0 then foundMiddle tmp result
      else findWord addr ((size - 64) / 64) (p + 1) (result + 64) (size - 64)

/-! ### The next position -/

/-- The first position from `offset` on that is set, or `size`. -/
structure IsNext (bit : ℕ → Bool) (size offset r : ℕ) : Prop where
  le : r ≤ size
  ge : offset ≤ size → offset ≤ r
  clear : ∀ i, offset ≤ i → i < r → bit i = false
  set : r < size → bit r = true

variable {bits size offset p j : ℕ} {a : Bitmap bits} {tmp : Word}

theorem ffs_spec (h : tmp ≠ 0) : ∃ j < 64, ffs tmp = some j ∧ tmp.getLsbD j = true ∧
    ∀ k < j, tmp.getLsbD k = false := by
  have hsome : (ffs tmp).isSome := by
    by_contra hnone
    rw [Option.not_isSome_iff_eq_none, ffs, List.find?_range_eq_none] at hnone
    refine h (BitVec.eq_of_getLsbD_eq fun j hj => ?_)
    have hj := hnone j hj
    rw [Bool.not_eq_true'] at hj
    rw [hj]
    exact BitVec.getLsbD_zero.symm
  obtain ⟨j, hj⟩ := Option.isSome_iff_exists.mp hsome
  have hspec := hj
  rw [ffs, List.find?_range_eq_some] at hspec
  obtain ⟨hset, hmem, hclear⟩ := hspec
  exact ⟨j, List.mem_range.mp hmem, hj, hset, fun k hk => by simpa using hclear k hk⟩

/-- The positions of one word that count. -/
def Masked (a : Bitmap bits) (size offset p : ℕ) (tmp : Word) : Prop :=
  ∀ j < 64, tmp.getLsbD j = (decide (offset ≤ 64 * p + j ∧ 64 * p + j < size) && a.bit (64 * p + j))

/-- A word in which a position is found. -/
theorem foundMiddle_spec (h : tmp ≠ 0) (hmask : Masked a size offset p tmp)
    (hclear : ∀ i, offset ≤ i → i < 64 * p → a.bit i = false) :
    ∃ r, foundMiddle tmp (64 * p) = some r ∧ IsNext a.bit size offset r := by
  obtain ⟨j, hj, hffs, hset, hlow⟩ := ffs_spec h
  rw [hmask j hj, Bool.and_eq_true, decide_eq_true_iff] at hset
  refine ⟨64 * p + j, ?_, by omega, fun _ => hset.1.1, fun i hi hlt => ?_, fun _ => hset.2⟩
  · unfold foundMiddle
    rw [hffs]
    rfl
  · rcases Nat.lt_or_ge i (64 * p) with hip | hip
    · exact hclear i hi hip
    · obtain ⟨k, rfl⟩ : ∃ k, i = 64 * p + k := ⟨i - 64 * p, by omega⟩
      have hk := hlow k (by omega)
      rw [hmask k (by omega), decide_eq_true (by omega : offset ≤ 64 * p + k ∧ 64 * p + k < size),
        Bool.true_and] at hk
      exact hk

/-- A word in which none is found. -/
theorem Masked.clear (hmask : Masked a size offset p 0) (hclear : ∀ i, offset ≤ i → i < 64 * p → a.bit i = false)
    {i : ℕ} (hi : offset ≤ i) (hlt : i < 64 * p + 64) (hsize : i < size) : a.bit i = false := by
  rcases Nat.lt_or_ge i (64 * p) with hip | hip
  · exact hclear i hi hip
  · obtain ⟨k, rfl⟩ : ∃ k, i = 64 * p + k := ⟨i - 64 * p, by omega⟩
    have hk := hmask k (by omega)
    rw [decide_eq_true (by omega : offset ≤ 64 * p + k ∧ 64 * p + k < size), Bool.true_and] at hk
    rw [← hk]
    exact BitVec.getLsbD_zero

/-- The last word, of which `size - 64 * p` positions count. -/
theorem foundFirst_spec (hlt : 64 * p < size) (hlast : size < 64 * p + 64)
    (htmp : ∀ j < 64, tmp.getLsbD j = (decide (offset ≤ 64 * p + j) && a.bit (64 * p + j)))
    (hclear : ∀ i, offset ≤ i → i < 64 * p → a.bit i = false) :
    ∃ r, foundFirst tmp (64 * p) (size - 64 * p) = some r ∧ IsNext a.bit size offset r := by
  have hmask : Masked a size offset p (tmp &&& (~~~0 : Word) >>> (64 - (size - 64 * p))) := by
    intro j hj
    rw [BitVec.getLsbD_and, BitVec.getLsbD_ushiftRight, BitVec.getLsbD_not, htmp j hj]
    have hiff : 64 - (size - 64 * p) + j < 64 ↔ 64 * p + j < size := by omega
    have hzero : (0 : Word).getLsbD (64 - (size - 64 * p) + j) = false := BitVec.getLsbD_zero
    rw [hzero, Bool.not_false, Bool.and_true, Bool.decide_and]
    simp only [hiff]
    rw [Bool.and_assoc, Bool.and_assoc, Bool.and_comm (a.bit _)]
  unfold foundFirst
  by_cases hzero : tmp &&& (~~~0 : Word) >>> (64 - (size - 64 * p)) = 0
  · refine ⟨64 * p + (size - 64 * p), if_pos hzero, ?_⟩
    rw [hzero] at hmask
    have hsum : 64 * p + (size - 64 * p) = size := by omega
    rw [hsum]
    exact ⟨le_rfl, id, fun i hi h => hmask.clear hclear hi (by omega) h, fun h => absurd h (Nat.lt_irrefl _)⟩
  · rw [if_neg hzero]
    exact foundMiddle_spec hzero hmask hclear

theorem bit_word (a : Bitmap bits) (hj : j < 64) : (a.word p).getLsbD j = a.bit (64 * p + j) := by
  rw [Nat.mul_comm, ← bitAt_mul_add hj]
  rfl

/-- The loop over whole words. -/
theorem findWord_spec (hp : 64 * p ≤ size) (hsize : size ≤ bits) (hoff : offset ≤ 64 * p)
    (hclear : ∀ i, offset ≤ i → i < 64 * p → a.bit i = false) :
    ∃ r, findWord a.block ((size - 64 * p) / 64) p (64 * p) (size - 64 * p) = some r ∧
      IsNext a.bit size offset r := by
  have htmp : ∀ j < 64, (a.word p).getLsbD j = (decide (offset ≤ 64 * p + j) && a.bit (64 * p + j)) := by
    intro j hj
    rw [bit_word a hj, decide_eq_true (by omega), Bool.true_and]
  have hread : 64 * p < size → a.block.read p = some (a.word p) := by
    intro hlt
    refine a.read ?_
    unfold bitsToLongs
    omega
  induction hn : (size - 64 * p) / 64 generalizing p with
  | zero =>
      rw [findWord]
      by_cases hzero : size - 64 * p = 0
      · have hsum : 64 * p = size := by omega
        refine ⟨64 * p, if_pos hzero, by omega, fun _ => hoff, hclear, fun h => by omega⟩
      · rw [if_neg hzero, hread (by omega)]
        exact foundFirst_spec (by omega) (by omega) htmp hclear
  | succ n ih =>
      have hmask : Masked a size offset p (a.word p) := by
        intro j hj
        rw [bit_word a hj, decide_eq_true (by omega), Bool.true_and]
      rw [findWord, hread (by omega), Option.bind_eq_bind, Option.bind_some]
      by_cases hzero : a.word p = 0
      · rw [hzero] at hmask
        rw [if_neg (not_not_intro hzero)]
        obtain ⟨r, hr, hnext⟩ := @ih (p + 1) (by omega) (by omega)
          (fun i hi hlt => hmask.clear hclear hi (by omega) (by omega))
          (fun j hj => by rw [bit_word a hj, decide_eq_true (by omega), Bool.true_and])
          (fun hlt => a.read (by unfold bitsToLongs; omega)) (by omega)
        refine ⟨r, ?_, hnext⟩
        have hmul : 64 * (p + 1) = 64 * p + 64 := by ring
        rw [hmul, ← Nat.sub_sub] at hr
        exact hr
      · rw [if_pos hzero]
        exact foundMiddle_spec hzero hmask hclear

/-- **`find_first_bit`** -/
theorem findFirstBit_spec (a : Bitmap bits) (hsize : size ≤ bits) :
    ∃ r, findFirstBit a.block size = some r ∧ IsNext a.bit size 0 r :=
  @findWord_spec bits size 0 0 a (Nat.zero_le _) hsize le_rfl (fun i _ h => absurd h (Nat.not_lt_zero i))

/-- The positions of word `p` from `offset` on. -/
theorem getLsbD_from (a : Bitmap bits) (hp : offset / 64 = p) (hj : j < 64) :
    (a.word p &&& (~~~0 : Word) <<< (offset % 64)).getLsbD j =
      (decide (offset ≤ 64 * p + j) && a.bit (64 * p + j)) := by
  have hzero : (0 : Word).getLsbD (j - offset % 64) = false := BitVec.getLsbD_zero
  have hiff : ¬ j < offset % 64 ↔ offset ≤ 64 * p + j := by omega
  rw [BitVec.getLsbD_and, bit_word a hj, BitVec.getLsbD_shiftLeft, BitVec.getLsbD_not, hzero, Bool.not_false,
    Bool.and_comm, decide_eq_true hj, decide_eq_true (by omega : j - offset % 64 < 64), Bool.true_and,
    Bool.and_true, ← decide_not]
  simp only [hiff, Bool.and_true]

/-- **`find_next_bit`** -/
theorem findNextBit_spec (a : Bitmap bits) (hsize : size ≤ bits) (hoff : offset ≤ size) :
    ∃ r, findNextBit a.block size offset = some r ∧ IsNext a.bit size offset r := by
  unfold findNextBit
  rcases Nat.lt_or_ge offset size with hlt | hge
  · obtain ⟨p, hp⟩ : ∃ p, offset / 64 = p := ⟨_, rfl⟩
    have hresult : offset - offset % 64 = 64 * p := by omega
    have hread : a.block.read p = some (a.word p) := by
      refine a.read ?_
      unfold bitsToLongs
      omega
    have hclear : ∀ i, offset ≤ i → i < 64 * p → a.bit i = false := fun i hi h => by omega
    rw [if_neg (by omega), hp, hresult]
    by_cases hzero : offset % 64 = 0
    · rw [if_pos hzero]
      exact findWord_spec (by omega) hsize (by omega) hclear
    · rw [if_neg hzero, hread, Option.bind_eq_bind, Option.bind_some]
      rcases Nat.lt_or_ge (size - 64 * p) 64 with hlast | hmore
      · rw [if_pos hlast]
        exact foundFirst_spec (by omega) (by omega) (fun j hj => getLsbD_from a hp hj) hclear
      · have hmask : Masked a size offset p (a.word p &&& (~~~0 : Word) <<< (offset % 64)) := by
          intro j hj
          have hiff : offset ≤ 64 * p + j ∧ 64 * p + j < size ↔ offset ≤ 64 * p + j := by omega
          rw [getLsbD_from a hp hj]
          simp only [hiff]
        rw [if_neg (by omega)]
        by_cases htmp : a.word p &&& (~~~0 : Word) <<< (offset % 64) = 0
        · rw [htmp] at hmask
          have hmul : 64 * p + 64 = 64 * (p + 1) := by ring
          rw [if_neg (not_not_intro htmp), Nat.sub_sub, hmul]
          exact findWord_spec (by omega) hsize (by omega)
            fun i hi h => hmask.clear hclear hi (by omega) (by omega)
        · rw [if_pos htmp]
          exact foundMiddle_spec htmp hmask hclear
  · rw [if_pos hge]
    exact ⟨size, rfl, le_rfl, id, fun i hi h => by omega, fun h => absurd h (Nat.lt_irrefl _)⟩

end Libls.Bitmaps
