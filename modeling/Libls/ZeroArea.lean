import Libls.BitmapMaps

/-! # Searching for a zero area

`bitmap_find_next_zero_area` looks for `nr` bits that are 0, at a multiple of `align_mask + 1`.  If a bit of the
candidate is set, the search goes on behind it.  `first_fit` says that no area is passed over: every area that fits
begins behind the bits that the search has left behind.

An `unsigned long` is a natural number, with the sums modulo `2 ^ 64`. -/

namespace Libls.Bitmaps
open WordBits

/-! ### `find_next_zero_bit` -/

/-- `ffz` -/
def ffz (word : Word) : Option ℕ := ffs (~~~word)

/-- `found_middle` -/
def foundMiddleZero (tmp : Word) (result : ℕ) : Option ℕ := do return result + (← ffz tmp)

/-- `found_first` -/
def foundFirstZero (tmp : Word) (result size : ℕ) : Option ℕ :=
  let tmp := tmp ||| (~~~0 : Word) <<< size
  if tmp = ~~~0 then return result + size
  else foundMiddleZero tmp result

/-- The loop over whole words and what follows it. -/
def findZeroWord (addr : Block Word) : ℕ → ℕ → ℕ → ℕ → Option ℕ
  | 0, p, result, size =>
      if size = 0 then return result
      else do foundFirstZero (← addr.read p) result size
  | n + 1, p, result, size => do
      let tmp ← addr.read p
      if ~~~tmp ≠ 0 then foundMiddleZero tmp result
      else findZeroWord addr n (p + 1) (result + 64) (size - 64)

/-- `find_next_zero_bit` -/
def findNextZeroBit (addr : Block Word) (size offset : ℕ) : Option ℕ :=
  let p := offset / 64
  let result := offset - offset % 64
  if size ≤ offset then return size
  else
    let size := size - result
    let offset := offset % 64
    if offset = 0 then findZeroWord addr (size / 64) p result size
    else do
      let tmp ← addr.read p
      let tmp := tmp ||| (~~~0 : Word) >>> (64 - offset)
      if size < 64 then foundFirstZero tmp result size
      else if ~~~tmp ≠ 0 then foundMiddleZero tmp result
      else findZeroWord addr ((size - 64) / 64) (p + 1) (result + 64) (size - 64)

/-! ### The search -/

/-- `__ALIGN_MASK` -/
def alignMask (x mask : ℕ) : ℕ := (BitVec.ofNat 64 (x + mask) &&& ~~~BitVec.ofNat 64 mask).toNat

/-- The lines of `bitmap_find_next_zero_area` behind the label `again`. -/
def zeroAreaPass (map : Block Word) (size nr mask start : ℕ) : Option (Iter ℕ ℕ) := do
  let index := alignMask (← findNextZeroBit map size start) mask
  let stop := u64 (index + nr)
  if size < stop then return .done stop
  else
    let i ← findNextBit map stop index
    if i < stop then return .next (u64 (i + 1)) else return .done index

/-- `bitmap_find_next_zero_area` -/
def bitmapFindNextZeroArea (map : Block Word) (size start nr mask : ℕ) : Prog ℕ :=
  Prog.iterate (fun start => (zeroAreaPass map size nr mask start : Option _)) start

/-! ### The complement -/

/-- Every bit is flipped. -/
def flipped (addr : Block Word) : Block Word := ⟨addr.cells.map (Option.map (~~~·))⟩

variable {addr : Block Word} {tmp : Word} {n p i k result size offset bits : ℕ} {a : Bitmap bits}

theorem read_flipped : (flipped addr).read i = (addr.read i).map (~~~·) := by
  unfold flipped Block.read
  rw [List.getElem?_map]
  cases addr.cells[i]? with
  | none => rfl
  | some cell => rfl

theorem not_shift (h : k < 64) : ~~~((~~~0 : Word) <<< k) = (~~~0 : Word) >>> (64 - k) := by
  apply BitVec.eq_of_getLsbD_eq
  intro j hj
  have hzero : ∀ m, (0 : Word).getLsbD m = false := fun _ => BitVec.getLsbD_zero
  rw [BitVec.getLsbD_not, BitVec.getLsbD_shiftLeft, BitVec.getLsbD_ushiftRight, BitVec.getLsbD_not, BitVec.getLsbD_not,
    hzero, hzero, decide_eq_true hj, decide_eq_true (by omega : j - k < 64)]
  have hiff : j < k ↔ 64 - k + j < 64 := by omega
  simp only [hiff, Bool.true_and, Bool.not_false, Bool.and_true, Bool.not_not]

theorem foundFirstZero_eq (h : size < 64) : foundFirstZero tmp result size = foundFirst (~~~tmp) result size := by
  have hmask : ~~~(tmp ||| (~~~0 : Word) <<< size) = ~~~tmp &&& (~~~0 : Word) >>> (64 - size) := by
    rw [BitVec.not_or, not_shift h]
  have hzero : tmp ||| (~~~0 : Word) <<< size = ~~~0 ↔ ~~~tmp &&& (~~~0 : Word) >>> (64 - size) = 0 := by
    rw [← hmask, BitVec.not_eq_comm]
  unfold foundFirstZero foundFirst foundMiddleZero ffz
  dsimp only
  rw [hmask]
  simp only [hzero]
  rfl

theorem foundMiddleZero_eq : foundMiddleZero tmp result = foundMiddle (~~~tmp) result := rfl

theorem findZeroWord_eq (h : size / 64 = n) :
    findZeroWord addr n p result size = findWord (flipped addr) n p result size := by
  induction n generalizing p result size with
  | zero =>
      have hlt : size < 64 := by omega
      rw [findZeroWord, findWord, read_flipped]
      cases addr.read p with
      | none => simp only [Option.map_none, Option.bind_eq_bind, Option.bind_none]
      | some tmp =>
          simp only [Option.map_some, Option.bind_eq_bind, Option.bind_some]
          rw [foundFirstZero_eq hlt]
  | succ n ih =>
      rw [findZeroWord, findWord, read_flipped]
      cases addr.read p with
      | none => simp only [Option.map_none, Option.bind_eq_bind, Option.bind_none]
      | some tmp =>
          simp only [Option.map_some, Option.bind_eq_bind, Option.bind_some]
          rw [foundMiddleZero_eq, @ih (p + 1) (result + 64) (size - 64) (by omega)]

/-- The search for a 0 is the search for a 1 in the complement. -/
theorem findNextZeroBit_eq : findNextZeroBit addr size offset = findNextBit (flipped addr) size offset := by
  unfold findNextZeroBit findNextBit
  dsimp only
  by_cases hend : size ≤ offset
  · rw [if_pos hend, if_pos hend]
  · rw [if_neg hend, if_neg hend]
    by_cases hzero : offset % 64 = 0
    · rw [if_pos hzero, if_pos hzero]
      exact findZeroWord_eq rfl
    · rw [if_neg hzero, if_neg hzero, read_flipped]
      cases addr.read (offset / 64) with
      | none => simp only [Option.map_none, Option.bind_eq_bind, Option.bind_none]
      | some tmp =>
          have hmask : ~~~(tmp ||| (~~~0 : Word) >>> (64 - offset % 64)) = ~~~tmp &&& (~~~0 : Word) <<< (offset % 64) := by
            rw [BitVec.not_or, ← not_shift (Nat.mod_lt offset (by decide)), BitVec.not_not]
          simp only [Option.map_some, Option.bind_eq_bind, Option.bind_some]
          rw [← hmask]
          by_cases hlast : size - (offset - offset % 64) < 64
          · rw [if_pos hlast, if_pos hlast]
            exact foundFirstZero_eq hlast
          · rw [if_neg hlast, if_neg hlast, findZeroWord_eq rfl, foundMiddleZero_eq]

/-- The first position from `offset` on that is 0, or `size`. -/
theorem findNextZeroBit_spec (a : Bitmap bits) (hsize : size ≤ bits) (hoff : offset ≤ size) :
    ∃ r, findNextZeroBit a.block size offset = some r ∧ IsNext (fun i => !a.bit i) size offset r := by
  have hflip : ∀ k < bitsToLongs bits, (flipped a.block).read k = some (~~~a.word k) := by
    intro k hk
    rw [read_flipped, a.read hk]
    rfl
  have hblock : (flipped a.block).size = bitsToLongs bits := by
    unfold flipped Block.size
    rw [List.length_map]
    exact a.size
  obtain ⟨c, hc, hbit⟩ : ∃ c : Bitmap bits, c.block = flipped a.block ∧ ∀ i < bits, c.bit i = !a.bit i := by
    refine ⟨⟨flipped a.block, hblock, fun k hk => ?_⟩, rfl, fun i hi => ?_⟩
    · rw [hflip k hk]
      rfl
    · have hk : i / 64 < bitsToLongs bits := by
        unfold bitsToLongs
        omega
      have hword : ((flipped a.block).read (i / 64)).getD 0 = ~~~a.word (i / 64) := by
        rw [hflip _ hk]
        rfl
      show (((flipped a.block).read (i / 64)).getD 0).getLsbD (i % 64) = !(a.word (i / 64)).getLsbD (i % 64)
      rw [hword, BitVec.getLsbD_not, decide_eq_true (Nat.mod_lt i (by decide)), Bool.true_and]
  obtain ⟨r, hr, hnext⟩ := findNextBit_spec c hsize hoff
  rw [hc, ← findNextZeroBit_eq] at hr
  have hle := hnext.le
  refine ⟨r, hr, hle, hnext.ge, fun i hi hlt => ?_, fun hlt => ?_⟩
  · rw [← hbit i (by omega)]
    exact hnext.clear i hi hlt
  · rw [← hbit r (by omega)]
    exact hnext.set hlt

/-! ### Alignment -/

variable {x mask : ℕ}

theorem alignMask_eq (hmask : mask + 1 = 2 ^ k) (hx : x + mask < 2 ^ 64) : alignMask x mask = 2 ^ k * ((x + mask) / 2 ^ k) := by
  have hk : k ≤ 64 := by
    apply (Nat.pow_le_pow_iff_right (by decide : 1 < 2)).mp
    omega
  have hpow : 2 ^ 64 = 2 ^ k * 2 ^ (64 - k) := by
    rw [← Nat.pow_add, Nat.add_sub_cancel' hk]
  have hnot : 2 ^ 64 - 1 - mask = 0 + 2 ^ k * (2 ^ (64 - k) - 1) := by
    rw [Nat.mul_sub, ← hpow]
    omega
  have hlow : (x + mask) % 2 ^ k < 2 ^ k := Nat.mod_lt _ (Nat.two_pow_pos k)
  have hhigh : (x + mask) / 2 ^ k < 2 ^ (64 - k) := by
    rw [Nat.div_lt_iff_lt_mul (Nat.two_pow_pos k), Nat.mul_comm, ← hpow]
    exact hx
  unfold alignMask
  rw [BitVec.toNat_and, BitVec.toNat_not, BitVec.toNat_ofNat, BitVec.toNat_ofNat, Nat.mod_eq_of_lt hx,
    Nat.mod_eq_of_lt (by omega : mask < 2 ^ 64), hnot]
  calc (x + mask) &&& (0 + 2 ^ k * (2 ^ (64 - k) - 1))
      = ((x + mask) % 2 ^ k + 2 ^ k * ((x + mask) / 2 ^ k)) &&& (0 + 2 ^ k * (2 ^ (64 - k) - 1)) := by rw [Nat.mod_add_div]
    _ = 2 ^ k * ((x + mask) / 2 ^ k) := by
      rw [Fields.and_cons hlow (Nat.two_pow_pos k), Nat.and_zero, Nat.zero_add, Nat.and_two_pow_sub_one_eq_mod,
        Nat.mod_eq_of_lt hhigh]

/-- **`__ALIGN_MASK`** is the next multiple. -/
theorem alignMask_spec (hmask : ∃ k, mask + 1 = 2 ^ k) (hx : x + mask < 2 ^ 64) :
    alignMask x mask ≤ x + mask ∧ IsLeast {i | x ≤ i ∧ mask + 1 ∣ i} (alignMask x mask) := by
  obtain ⟨k, hk⟩ := hmask
  have hpos := Nat.two_pow_pos k
  have hdiv := Nat.div_add_mod (x + mask) (2 ^ k)
  have hlt := Nat.mod_lt (x + mask) hpos
  rw [alignMask_eq hk hx, hk]
  refine ⟨by omega, ⟨by omega, Nat.dvd_mul_right _ _⟩, ?_⟩
  rintro i ⟨hi, c, rfl⟩
  apply Nat.mul_le_mul_left
  apply Nat.le_of_lt_succ
  rw [Nat.div_lt_iff_lt_mul hpos, Nat.succ_mul, Nat.mul_comm c]
  omega

/-! ### The first fit -/

variable {start nr index : ℕ}

/-- An area that fits. -/
structure AreaFits (a : Bitmap size) (start nr mask index : ℕ) : Prop where
  ge : start ≤ index
  aligned : mask + 1 ∣ index
  room : index + nr ≤ size
  clear : ∀ i, index ≤ i → i < index + nr → a.bit i = false

/-- The sums of the search are below `2 ^ 64`. -/
def NoWrap (a : Bitmap size) (start nr mask : ℕ) : Prop :=
  ∀ start', Prog.Reached (fun start => (zeroAreaPass a.block size nr mask start : Option _)) start start' →
    ∀ index, findNextZeroBit a.block size start' = some index → index + mask + nr < 2 ^ 64

variable {a : Bitmap size}

theorem findNextZeroBit_le {r : ℕ} (h : findNextZeroBit a.block size start = some r) : r ≤ size := by
  rcases Nat.lt_or_ge size start with hlt | hge
  · have hend : findNextZeroBit a.block size start = some size := if_pos (Nat.le_of_lt hlt)
    cases h.symm.trans hend
    exact le_rfl
  · obtain ⟨r', hr', hnext⟩ := findNextZeroBit_spec a le_rfl hge
    cases h.symm.trans hr'
    exact hnext.le

/-- A bitmap that is far from the end of the numbers. -/
theorem noWrap_of_lt (h : size + mask + nr < 2 ^ 64) : NoWrap a start nr mask := by
  intro start' _ index hindex
  have := findNextZeroBit_le hindex
  omega

theorem AreaFits.of_le (h : AreaFits a start nr mask index) (hle : x ≤ index) : AreaFits a x nr mask index :=
  { h with ge := hle }

/-- What one pass does: an area that fits begins behind what is left behind. -/
theorem zeroAreaPass_spec (hnr : 0 < nr) (hmask : ∃ k, mask + 1 = 2 ^ k) (hstart : start ≤ size)
    (hwrap : ∀ index, findNextZeroBit a.block size start = some index → index + mask + nr < 2 ^ 64) :
    (∃ stop, zeroAreaPass a.block size nr mask start = some (.done stop) ∧ size < stop ∧
        ∀ index, ¬ AreaFits a start nr mask index) ∨
      (∃ r, zeroAreaPass a.block size nr mask start = some (.done r) ∧ IsLeast {index | AreaFits a start nr mask index} r) ∨
      ∃ start', zeroAreaPass a.block size nr mask start = some (.next start') ∧ start < start' ∧ start' ≤ size ∧
        ∀ index, AreaFits a start nr mask index → start' ≤ index := by
  obtain ⟨z, hzero, hnext⟩ := findNextZeroBit_spec a le_rfl hstart
  have hsum := hwrap z hzero
  obtain ⟨hle, ⟨hge, hdvd⟩, hleast⟩ := @alignMask_spec z mask hmask (by omega)
  obtain ⟨r, hr⟩ : ∃ r, alignMask z mask = r := ⟨_, rfl⟩
  rw [hr] at hle hge hdvd hleast
  -- an area begins with a 0, at a multiple
  have hfits : ∀ index, AreaFits a start nr mask index → r ≤ index := by
    intro index hindex
    refine hleast ⟨?_, hindex.aligned⟩
    by_contra hlt
    have hset := hnext.clear index hindex.ge (Nat.lt_of_not_le hlt)
    rw [hindex.clear index le_rfl (by omega)] at hset
    exact Bool.false_ne_true hset.symm
  have hfrom := hnext.ge hstart
  have hstop : u64 (r + nr) = r + nr := u64_of_lt (by omega)
  have hpass : zeroAreaPass a.block size nr mask start = if size < r + nr then some (.done (r + nr))
      else (findNextBit a.block (r + nr) r).bind fun i => if i < r + nr then some (.next (u64 (i + 1))) else some (.done r) := by
    unfold zeroAreaPass
    rw [hzero, ← hstop, ← hr]
    rfl
  rw [hpass]
  by_cases hroom : size < r + nr
  · refine .inl ⟨r + nr, if_pos hroom, hroom, fun index hindex => ?_⟩
    have := hfits index hindex
    have := hindex.room
    omega
  · obtain ⟨i, hi, hset⟩ := findNextBit_spec a (Nat.le_of_not_lt hroom) (Nat.le_add_right r nr)
    have hri := hset.ge (Nat.le_add_right r nr)
    have hir := hset.le
    rw [if_neg hroom, hi, Option.bind_some]
    rcases Nat.lt_or_ge i (r + nr) with hlt | hend
    · -- the areas up to the bit that is set contain it
      refine .inr (.inr ⟨i + 1, ?_, by omega, by omega, fun index hindex => ?_⟩)
      · rw [if_pos hlt, u64_of_lt (by omega)]
      · have hbegin := hfits index hindex
        by_contra hle
        have hclear := hindex.clear i (by omega) (by omega)
        exact Bool.false_ne_true (hclear.symm.trans (hset.set hlt))
    · refine .inr (.inl ⟨r, if_neg (Nat.not_lt.mpr hend), ?_, hfits⟩)
      exact ⟨hfrom.trans hge, hdvd, Nat.le_of_not_lt hroom, fun j hj hjlt => hset.clear j hj (hjlt.trans_le hend)⟩

/-- **First fit.**  The search ends with the smallest index that fits; if there is none, with one that is too large. -/
theorem first_fit (a : Bitmap size) (hstart : start ≤ size) (hnr : 0 < nr) (hmask : ∃ k, mask + 1 = 2 ^ k)
    (hwrap : NoWrap a start nr mask) : ∃ ret, Prog.Returns (bitmapFindNextZeroArea a.block size start nr mask) ret ∧
      (IsLeast {index | AreaFits a start nr mask index} ret ∨
        (∀ index, ¬ AreaFits a start nr mask index) ∧ (size : ℤ) - nr < ret) := by
  refine Prog.Returns.iterate (fun k s => k = size - s ∧ s ≤ size ∧ start ≤ s ∧
    (∀ index, AreaFits a start nr mask index → s ≤ index) ∧
    Prog.Reached (fun start => (zeroAreaPass a.block size nr mask start : Option _)) start s)
    ?_ (size - start) start ⟨rfl, hstart, le_rfl, fun index h => h.ge, .start⟩
  rintro k s ⟨rfl, hs, hfrom, hbehind, hreached⟩
  have hback : ∀ index, AreaFits a start nr mask index → AreaFits a s nr mask index :=
    fun index h => h.of_le (hbehind index h)
  obtain ⟨stop, hpass, hlarge, hnone⟩ | ⟨r, hpass, hfits, hleast⟩ | ⟨s', hpass, hlt, hle, hnext⟩ :=
    zeroAreaPass_spec hnr hmask hs (hwrap s hreached)
  · exact .inl ⟨stop, Prog.returns_lift.mpr hpass, .inr ⟨fun index h => hnone index (hback index h), by omega⟩⟩
  · refine .inl ⟨r, Prog.returns_lift.mpr hpass, .inl ⟨hfits.of_le (hfrom.trans hfits.ge), fun index h => ?_⟩⟩
    exact hleast (hback index h)
  · have hret := Prog.returns_lift.mpr hpass
    exact .inr ⟨s', size - s', hret, by omega, rfl, hle, by omega, fun index h => hnext index (hback index h),
      hreached.next hret⟩

/-- The bits 1 and 4 of 8. -/
def gap8 : Bitmap 8 := ⟨⟨[some 0x12]⟩, by decide, by decide⟩

theorem first_fit_gap : ∃ ret, Prog.Returns (bitmapFindNextZeroArea gap8.block 8 0 2 1) ret ∧
    (IsLeast {index | AreaFits gap8 0 2 1 index} ret ∨
      (∀ index, ¬ AreaFits gap8 0 2 1 index) ∧ ((8 : ℕ) : ℤ) - (2 : ℕ) < ret) :=
  first_fit gap8 (by decide) (by decide) ⟨1, rfl⟩ (noWrap_of_lt (by decide))

end Libls.Bitmaps
