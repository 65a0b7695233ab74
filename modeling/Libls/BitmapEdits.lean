import Libls.BitmapShifts
import Libls.ZeroArea

/-! # Changing bits and areas

The single-bit functions of `include/ls/bitops/non-atomic.h`, `bitmap_set` and `bitmap_clear` of `src/bitmap.c`,
`bitmap_fill` and `bitmap_copy` of `include/ls/bitmap.h`, `find_first_zero_bit` and `find_last_bit`.

A family of functions that differ in one operation on words is one definition with the operation as `f`. -/

namespace Libls.Bitmaps
open WordBits

/-! ### Single bits -/

/-- `BIT_MASK` -/
def bitMask (nr : ℕ) : Word := (1 : Word) <<< (nr % 64)

/-- `*p = f(*p, mask)` -/
def updateBit (f : Word → Word → Word) (nr : ℕ) (addr : Block Word) : Option (Block Word) :=
  addr.modify (nr / 64) (f · (bitMask nr))

/-- `*p = f(old, mask)`, and whether the bit was set in `old`. -/
def testAndUpdateBit (f : Word → Word → Word) (nr : ℕ) (addr : Block Word) : Option (Block Word × Bool) := do
  let old ← addr.read (nr / 64)
  let addr ← addr.write (nr / 64) (f old (bitMask nr))
  return (addr, old &&& bitMask nr != 0)

/-- `__clear_bit` -/
def clearBit : ℕ → Block Word → Option (Block Word) := updateBit fun old mask => old &&& ~~~mask

/-- `__change_bit` -/
def changeBit : ℕ → Block Word → Option (Block Word) := updateBit fun old mask => old ^^^ mask

/-- `__test_and_set_bit` -/
def testAndSetBit : ℕ → Block Word → Option (Block Word × Bool) := testAndUpdateBit fun old mask => old ||| mask

/-- `__test_and_clear_bit` -/
def testAndClearBit : ℕ → Block Word → Option (Block Word × Bool) := testAndUpdateBit fun old mask => old &&& ~~~mask

/-- `__test_and_change_bit` -/
def testAndChangeBit : ℕ → Block Word → Option (Block Word × Bool) := testAndUpdateBit fun old mask => old ^^^ mask

/-! ### Areas -/

/-- The variables of `bitmap_set` and `bitmap_clear`: `bits` and `mask` are `bits_to_set` and `mask_to_set`. -/
structure AreaLoop where
  map : Block Word
  p : ℕ
  nr : ℕ
  bits : ℕ
  mask : Word

/-- A pass of `while (nr - bits_to_set >= 0)`. -/
def areaPass (f : Word → Word → Word) (s : AreaLoop) : Option (Iter AreaLoop AreaLoop) :=
  if s.bits ≤ s.nr then do
    let map ← s.map.modify s.p (f · s.mask)
    return .next ⟨map, s.p + 1, s.nr - s.bits, 64, ~~~0⟩
  else return .done s

/-- `bitmap_set` and `bitmap_clear`, for a `start + nr` that an `int` can hold. -/
def updateArea (f : Word → Word → Word) (map : Block Word) (start nr : ℕ) : Prog (Block Word) := do
  let s ← Prog.iterate (fun s => liftM (areaPass f s)) ⟨map, start / 64, nr, 64 - start % 64, (~~~0 : Word) <<< (start % 64)⟩
  if s.nr ≠ 0 then liftM (s.map.modify s.p (f · (s.mask &&& lastWordMask (start + nr))))
  else return s.map

/-- `bitmap_set` -/
def bitmapSet : Block Word → ℕ → ℕ → Prog (Block Word) := updateArea fun word mask => word ||| mask

/-- `bitmap_clear` -/
def bitmapClear : Block Word → ℕ → ℕ → Prog (Block Word) := updateArea fun word mask => word &&& ~~~mask

namespace Inline
variable (isConst : Bool)

/-- `bitmap_fill`, for at least one bit. -/
def bitmapFill (dst : Block Word) (nbits : ℕ) : Option (Block Word) := do
  let nlongs := bitsToLongs nbits
  if nlongs = 0 then none
  else
    let dst ← if smallConstNbits isConst nbits then some dst else dst.writeList 0 (List.replicate (nlongs - 1) (~~~0))
    dst.write (nlongs - 1) (lastWordMask nbits)

/-- `bitmap_copy` -/
def bitmapCopy (dst src : Block Word) (nbits : ℕ) : Option (Block Word) :=
  if smallConstNbits isConst nbits then do dst.write 0 (← src.read 0)
  else do dst.writeList 0 (← src.readList 0 (bitsToLongs nbits))

end Inline

/-! ### Searches -/

/-- `find_first_zero_bit` -/
def findFirstZeroBit (addr : Block Word) (size : ℕ) : Option ℕ := findZeroWord addr (size / 64) 0 0 size

/-- The highest bit of the `n` lowest that is set. -/
def flsBelow (word : Word) : ℕ → Option ℕ
  | 0 => none
  | n + 1 => if word.getLsbD n then some n else flsBelow word n

/-- `__fls`, which has no value for 0. -/
def flsWord (word : Word) : Option ℕ := flsBelow word 64

/-- `while (words)` in `find_last_bit`. -/
def findLastWord (addr : Block Word) (size : ℕ) : ℕ → Option ℕ
  | 0 => some size
  | words + 1 => do
      let tmp ← addr.read words
      if tmp ≠ 0 then return words * 64 + (← flsWord tmp)
      else findLastWord addr size words

/-- `find_last_bit` -/
def findLastBit (addr : Block Word) (size : ℕ) : Option ℕ :=
  let words := size / 64
  if size % 64 ≠ 0 then do
    let tmp := (← addr.read words) &&& (~~~0 : Word) >>> (64 - size % 64)
    if tmp ≠ 0 then return words * 64 + (← flsWord tmp)
    else findLastWord addr size words
  else findLastWord addr size words

/-! ### What they compute -/

variable {bits k nr start size : ℕ} {a : Bitmap bits} {f : Word → Word → Word}

/-- Changing one word changes the positions in it. -/
theorem modify_spec (a : Bitmap bits) (hk : k < bitsToLongs bits) (g : Word → Word) : ∃ d : Bitmap bits,
    a.block.modify k g = some d.block ∧
      ∀ i, d.bit i = if i / 64 = k then (g (a.word k)).getLsbD (i % 64) else a.bit i := by
  obtain ⟨dst, hmodify, hsize, hread⟩ := Block.modify_of_read (a.read hk) g
  obtain ⟨d, rfl, hd⟩ := @exists_bitmap bits (fun j => if j = k then g (a.word k) else a.word j) dst
    (hsize.trans a.size)
    (fun j hj => by
      rw [hread]
      by_cases h : j = k
      · rw [if_pos h, if_pos h]
      · rw [if_neg h, if_neg h, a.read hj])
    (fun j hj => by rw [if_neg (by omega), word_of_ge a hj])
  refine ⟨d, hmodify, fun i => ?_⟩
  unfold Bitmap.bit bitAt
  rw [hd]
  by_cases h : i / 64 = k
  · simp only [h, if_true]
  · simp only [h, if_false]

theorem getLsbD_bitMask {j : ℕ} (hj : j < 64) : (bitMask nr).getLsbD j = decide (j = nr % 64) := by
  have hbit : (1 : Word).getLsbD (j - nr % 64) = decide (j - nr % 64 = 0) := BitVec.getLsbD_one
  have hiff : (¬ j < nr % 64 ∧ j - nr % 64 = 0) ↔ j = nr % 64 := by omega
  rw [bitMask, BitVec.getLsbD_shiftLeft, hbit, decide_eq_true hj, Bool.true_and, ← decide_not, ← Bool.decide_and]
  simp only [hiff]

theorem getLsbD_zero {j : ℕ} : (0 : Word).getLsbD j = false := BitVec.getLsbD_zero

/-- `f` puts `g` of what was there at the positions of the mask. -/
def Acts (f : Word → Word → Word) (g : Bool → Bool) : Prop :=
  ∀ w mask j, j < 64 → (f w mask).getLsbD j = if mask.getLsbD j then g (w.getLsbD j) else w.getLsbD j

theorem acts_or : Acts (fun word mask => word ||| mask) fun _ => true := by
  intro w mask j hj
  cases h : mask.getLsbD j <;> simp [h]

theorem acts_andnot : Acts (fun word mask => word &&& ~~~mask) fun _ => false := by
  intro w mask j hj
  rw [BitVec.getLsbD_and, BitVec.getLsbD_not, decide_eq_true hj, Bool.true_and]
  cases mask.getLsbD j <;> simp

theorem acts_xor : Acts (fun word mask => word ^^^ mask) fun b => !b := by
  intro w mask j hj
  cases h : mask.getLsbD j <;> simp [h]

theorem updateBit_spec {g : Bool → Bool} (hf : Acts f g) (a : Bitmap bits) (hnr : nr < bits) : ∃ d : Bitmap bits,
    updateBit f nr a.block = some d.block ∧ ∀ i, d.bit i = if i = nr then g (a.bit i) else a.bit i := by
  obtain ⟨d, hmodify, hd⟩ := modify_spec a (by unfold bitsToLongs; omega : nr / 64 < bitsToLongs bits)
    (f · (bitMask nr))
  refine ⟨d, hmodify, fun i => ?_⟩
  rw [hd]
  by_cases hk : i / 64 = nr / 64
  · have hiff : i % 64 = nr % 64 ↔ i = nr := by omega
    rw [if_pos hk, hf _ _ _ (Nat.mod_lt i (by decide)), getLsbD_bitMask (Nat.mod_lt i (by decide)), ← hk]
    simp only [hiff, decide_eq_true_eq]
    rfl
  · rw [if_neg hk, if_neg (fun h => hk (by rw [h]))]

theorem and_bitMask_ne_zero (w : Word) : (w &&& bitMask nr != 0) = w.getLsbD (nr % 64) := by
  have hlt : nr % 64 < 64 := Nat.mod_lt nr (by decide)
  have hbit : ∀ j < 64, (w &&& bitMask nr).getLsbD j = (w.getLsbD j && decide (j = nr % 64)) := by
    intro j hj
    rw [BitVec.getLsbD_and, getLsbD_bitMask hj]
  cases hw : w.getLsbD (nr % 64) with
  | false =>
      have hzero : w &&& bitMask nr = 0 := by
        apply BitVec.eq_of_getLsbD_eq
        intro j hj
        rw [hbit j hj, getLsbD_zero]
        by_cases hj : j = nr % 64
        · rw [hj, hw, Bool.false_and]
        · rw [decide_eq_false hj, Bool.and_false]
      rw [hzero]
      rfl
  | true =>
      rw [bne_iff_ne]
      intro hzero
      have h := hbit (nr % 64) hlt
      rw [hzero, hw, getLsbD_zero, decide_eq_true rfl] at h
      exact Bool.false_ne_true h

/-- The test says what was there before the change. -/
theorem testAndUpdateBit_spec {g : Bool → Bool} (hf : Acts f g) (a : Bitmap bits) (hnr : nr < bits) :
    ∃ d : Bitmap bits, testAndUpdateBit f nr a.block = some (d.block, a.bit nr) ∧
      ∀ i, d.bit i = if i = nr then g (a.bit i) else a.bit i := by
  obtain ⟨d, hupdate, hd⟩ := updateBit_spec hf a hnr
  have hread : a.block.read (nr / 64) = some (a.word (nr / 64)) := a.read (by unfold bitsToLongs; omega)
  have htest : (a.word (nr / 64) &&& bitMask nr != 0) = a.bit nr := and_bitMask_ne_zero _
  refine ⟨d, ?_, hd⟩
  rw [updateBit, Block.modify, hread, Option.bind_eq_bind, Option.bind_some] at hupdate
  rw [testAndUpdateBit, hread, Option.bind_eq_bind, Option.bind_some, hupdate, htest]
  rfl

/-! ### What areas become -/

/-- The area from `start` to `pos` has been done, and the words from `s.p` on are next. -/
structure AreaDone (a : Bitmap bits) (v : Bool) (start stop : ℕ) (s : AreaLoop) (pos : ℕ) (d : Bitmap bits) : Prop where
  map : s.map = d.block
  bit : ∀ i, d.bit i = if start ≤ i ∧ i < pos then v else a.bit i
  le : start ≤ pos
  rest : pos + s.nr = stop
  next : pos + s.bits = 64 * (s.p + 1)
  pos : 0 < s.bits
  small : s.bits ≤ 64
  mask : ∀ j < 64, s.mask.getLsbD j = decide (64 - s.bits ≤ j)

theorem getLsbD_firstMask {j : ℕ} (hj : j < 64) (n : ℕ) : ((~~~0 : Word) <<< n).getLsbD j = decide (n ≤ j) := by
  have hzero : (0 : Word).getLsbD (j - n) = false := BitVec.getLsbD_zero
  by_cases h : n ≤ j
  · rw [BitVec.getLsbD_shiftLeft, BitVec.getLsbD_not, hzero, decide_eq_true hj, decide_eq_false (by omega : ¬ j < n),
      decide_eq_true (by omega : j - n < 64), decide_eq_true h]
    rfl
  · rw [BitVec.getLsbD_shiftLeft, decide_eq_true (by omega : j < n), decide_eq_false h, Bool.not_true, Bool.and_false,
      Bool.false_and]

/-- A pass takes all that is left of a word. -/
theorem areaPass_spec {v : Bool} {stop pos : ℕ} {s : AreaLoop} {d : Bitmap bits} (hf : Acts f fun _ => v)
    (hstop : stop ≤ bits) (h : AreaDone a v start stop s pos d) (hle : s.bits ≤ s.nr) :
    ∃ s' d', areaPass f s = some (.next s') ∧ s'.nr < s.nr ∧ AreaDone a v start stop s' (pos + s.bits) d' := by
  have hrest := h.rest
  have hnext := h.next
  have hpos := h.pos
  have hsmall := h.small
  obtain ⟨d', hmodify, hd'⟩ := modify_spec d (by unfold bitsToLongs; omega : s.p < bitsToLongs bits) (f · s.mask)
  refine ⟨⟨d'.block, s.p + 1, s.nr - s.bits, 64, ~~~0⟩, d', ?_, by dsimp only; omega, ?_⟩
  · rw [areaPass, if_pos hle, h.map, hmodify]
    rfl
  · constructor
    · rfl
    · intro i
      have hlt : i % 64 < 64 := Nat.mod_lt i (by decide)
      rw [hd']
      by_cases hi : i / 64 = s.p
      · have hbit : (d.word s.p).getLsbD (i % 64) = d.bit i := by
          rw [← hi]
          rfl
        rw [if_pos hi, hf _ _ _ hlt, h.mask _ hlt, hbit, h.bit]
        have hle := h.le
        by_cases hmask : 64 - s.bits ≤ i % 64
        · rw [if_pos (decide_eq_true hmask)]
          show v = _
          rw [if_pos (by omega)]
        · rw [if_neg (by simpa using hmask)]
          congr 1
          apply propext
          omega
      · rw [if_neg hi, h.bit]
        congr 1
        apply propext
        have hle := h.le
        omega
    · exact Nat.le_trans h.le (Nat.le_add_right _ _)
    · dsimp only
      omega
    · dsimp only
      omega
    · exact Nat.succ_pos 63
    · exact Nat.le_refl 64
    · intro j hj
      have hzero : (0 : Word).getLsbD j = false := BitVec.getLsbD_zero
      rw [BitVec.getLsbD_not, hzero, decide_eq_true hj]
      rfl

/-- `bitmap_set` and `bitmap_clear` change the positions from `start` on, `nr` of them, and no others. -/
theorem updateArea_spec {v : Bool} (hf : Acts f fun _ => v) (a : Bitmap bits) (hle : start + nr ≤ bits) :
    ∃ d : Bitmap bits, Prog.Returns (updateArea f a.block start nr) d.block ∧
      ∀ i, d.bit i = if start ≤ i ∧ i < start + nr then v else a.bit i := by
  have hstart : AreaDone a v start (start + nr) ⟨a.block, start / 64, nr, 64 - start % 64, (~~~0 : Word) <<< (start % 64)⟩
      start a := by
    constructor
    · rfl
    · intro i
      rw [if_neg (by omega)]
    · exact Nat.le_refl _
    · rfl
    · dsimp only
      omega
    · dsimp only
      omega
    · dsimp only
      omega
    · intro j hj
      rw [getLsbD_firstMask hj]
      congr 1
      apply propext
      dsimp only
      omega
  obtain ⟨s, hloop, pos, d, hdone, hlt⟩ := @Prog.Returns.iterate _ _ (fun s => liftM (areaPass f s))
    (fun s => ∃ pos d, AreaDone a v start (start + nr) s pos d ∧ s.nr < s.bits)
    (fun n s => n = s.nr ∧ ∃ pos d, AreaDone a v start (start + nr) s pos d)
    (by
      rintro n s ⟨rfl, pos, d, h⟩
      by_cases hbits : s.bits ≤ s.nr
      · obtain ⟨s', d', hpass, hless, h'⟩ := areaPass_spec hf hle h hbits
        exact .inr ⟨s', s'.nr, Prog.returns_lift.mpr hpass, hless, rfl, _, d', h'⟩
      · exact .inl ⟨s, Prog.returns_lift.mpr (if_neg hbits), pos, d, h, Nat.lt_of_not_le hbits⟩)
    nr _ ⟨rfl, start, a, hstart⟩
  have hrest := hdone.rest
  have hnext := hdone.next
  have hsmall := hdone.small
  have hfrom := hdone.le
  by_cases hnr : s.nr = 0
  · refine ⟨d, ?_, fun i => ?_⟩
    · unfold updateArea
      rw [Prog.returns_bind]
      refine ⟨s, hloop, ?_⟩
      rw [if_neg (not_not.mpr hnr), Prog.returns_pure]
      exact hdone.map
    · rw [hdone.bit]
      congr 1
      apply propext
      omega
  · obtain ⟨d', hmodify, hd'⟩ := modify_spec d (by unfold bitsToLongs; omega : s.p < bitsToLongs bits)
      (f · (s.mask &&& lastWordMask (start + nr)))
    have hlast : (start + nr) % 64 ≠ 0 := by omega
    refine ⟨d', ?_, fun i => ?_⟩
    · unfold updateArea
      rw [Prog.returns_bind]
      refine ⟨s, hloop, ?_⟩
      rw [if_pos hnr, Prog.returns_lift, hdone.map]
      exact hmodify
    · have hlt : i % 64 < 64 := Nat.mod_lt i (by decide)
      rw [hd']
      by_cases hi : i / 64 = s.p
      · have hbit : (d.word s.p).getLsbD (i % 64) = d.bit i := by
          rw [← hi]
          rfl
        rw [if_pos hi, hf _ _ _ hlt, BitVec.getLsbD_and, hdone.mask _ hlt, lastWordMask_of_ne hlast,
          getLsbD_lowMask (Nat.mod_lt _ (by decide)), hbit, hdone.bit, ← Bool.decide_and]
        by_cases hmask : 64 - s.bits ≤ i % 64 ∧ i % 64 < (start + nr) % 64
        · rw [if_pos (decide_eq_true hmask)]
          show v = _
          rw [if_pos (by omega)]
        · rw [if_neg (by simpa using hmask)]
          congr 1
          apply propext
          omega
      · rw [if_neg hi, hdone.bit]
        congr 1
        apply propext
        omega

/-! ### The last position -/

/-- The last position below `size` that is set, or `size`. -/
structure IsLast (bit : ℕ → Bool) (size r : ℕ) : Prop where
  le : r ≤ size
  clear : ∀ i, i < size → (r < i ∨ r = size) → bit i = false
  set : r < size → bit r = true

theorem flsBelow_spec {tmp : Word} {n : ℕ} (h : ∃ i < n, tmp.getLsbD i = true) :
    ∃ j < n, flsBelow tmp n = some j ∧ tmp.getLsbD j = true ∧ ∀ i, j < i → i < n → tmp.getLsbD i = false := by
  induction n with
  | zero =>
      obtain ⟨i, hi, -⟩ := h
      exact absurd hi (Nat.not_lt_zero i)
  | succ n ih =>
      by_cases hn : tmp.getLsbD n = true
      · exact ⟨n, Nat.lt_succ_self n, if_pos hn, hn, fun i hi hlt => absurd hi (by omega)⟩
      · obtain ⟨i, hi, hset⟩ := h
        have hne : i ≠ n := by
          rintro rfl
          exact hn hset
        obtain ⟨j, hj, hfls, hset, hclear⟩ := ih ⟨i, by omega, hset⟩
        refine ⟨j, by omega, by rw [flsBelow, if_neg hn, hfls], hset, fun i hi hlt => ?_⟩
        by_cases heq : i = n
        · rw [heq]
          simpa using hn
        · exact hclear i hi (by omega)

theorem flsWord_spec {tmp : Word} (h : tmp ≠ 0) : ∃ j < 64, flsWord tmp = some j ∧ tmp.getLsbD j = true ∧
    ∀ i, j < i → i < 64 → tmp.getLsbD i = false := by
  apply flsBelow_spec
  by_contra hnone
  push Not at hnone
  apply h
  apply BitVec.eq_of_getLsbD_eq
  intro j hj
  rw [getLsbD_zero]
  simpa using hnone j hj

/-- What a word that is not 0 says about the positions: `hmask` says which of them count. -/
theorem isLast_word {p j : ℕ} {tmp : Word} (hmask : ∀ j < 64, tmp.getLsbD j = (decide (64 * p + j < size) && a.bit (64 * p + j)))
    (hj : j < 64) (hset : tmp.getLsbD j = true) (habove : ∀ i, j < i → i < 64 → tmp.getLsbD i = false)
    (hclear : ∀ i, 64 * (p + 1) ≤ i → i < size → a.bit i = false) : IsLast a.bit size (p * 64 + j) := by
  have hbit := hmask j hj
  rw [hset, eq_comm, Bool.and_eq_true, decide_eq_true_iff] at hbit
  refine ⟨by omega, fun i hi hgt => ?_, fun _ => by rw [Nat.mul_comm]; exact hbit.2⟩
  by_cases hword : i < 64 * (p + 1)
  · have habove := habove (i - 64 * p) (by omega) (by omega)
    rw [hmask _ (by omega), (by omega : 64 * p + (i - 64 * p) = i), decide_eq_true hi, Bool.true_and] at habove
    exact habove
  · exact hclear i (by omega) hi

theorem findLastWord_spec (a : Bitmap bits) (hsize : size ≤ bits) {words : ℕ} (hwords : 64 * words ≤ size)
    (hclear : ∀ i, 64 * words ≤ i → i < size → a.bit i = false) :
    ∃ r, findLastWord a.block size words = some r ∧ IsLast a.bit size r := by
  induction words with
  | zero =>
      exact ⟨size, rfl, Nat.le_refl size, fun i hi _ => hclear i (Nat.zero_le i) hi, fun h => absurd h (Nat.lt_irrefl size)⟩
  | succ words ih =>
      have hread : a.block.read words = some (a.word words) := a.read (by unfold bitsToLongs; omega)
      have hbits : ∀ j < 64, (a.word words).getLsbD j = (decide (64 * words + j < size) && a.bit (64 * words + j)) := by
        intro j hj
        rw [decide_eq_true (by omega), Bool.true_and, bit_word a hj]
      rw [findLastWord, hread, Option.bind_eq_bind, Option.bind_some]
      by_cases hzero : a.word words = 0
      · rw [if_neg (not_not.mpr hzero)]
        apply ih (by omega)
        intro i hi hlt
        by_cases hword : i < 64 * (words + 1)
        · have h := @bit_word bits words (i - 64 * words) a (by omega)
          rw [hzero, getLsbD_zero, (by omega : 64 * words + (i - 64 * words) = i)] at h
          exact h.symm
        · exact hclear i (by omega) hlt
      · obtain ⟨j, hj, hfls, hset, habove⟩ := flsWord_spec hzero
        rw [if_pos hzero, hfls]
        exact ⟨words * 64 + j, rfl, isLast_word hbits hj hset habove hclear⟩

/-- **`find_last_bit`** -/
theorem findLastBit_spec (a : Bitmap bits) (hsize : size ≤ bits) :
    ∃ r, findLastBit a.block size = some r ∧ IsLast a.bit size r := by
  unfold findLastBit
  by_cases hpart : size % 64 = 0
  · rw [if_neg (not_not.mpr hpart)]
    exact findLastWord_spec a hsize (by omega) (fun i hi hlt => by omega)
  · have hread : a.block.read (size / 64) = some (a.word (size / 64)) := a.read (by unfold bitsToLongs; omega)
    have hbits : ∀ j < 64, (a.word (size / 64) &&& (~~~0 : Word) >>> (64 - size % 64)).getLsbD j =
        (decide (64 * (size / 64) + j < size) && a.bit (64 * (size / 64) + j)) := by
      intro j hj
      have hzero : (0 : Word).getLsbD (64 - size % 64 + j) = false := BitVec.getLsbD_zero
      have hiff : 64 - size % 64 + j < 64 ↔ 64 * (size / 64) + j < size := by omega
      rw [BitVec.getLsbD_and, bit_word a hj, BitVec.getLsbD_ushiftRight, BitVec.getLsbD_not, hzero, Bool.and_comm]
      simp only [hiff, Bool.not_false, Bool.and_true]
    have hclear : ∀ i, 64 * (size / 64 + 1) ≤ i → i < size → a.bit i = false := fun i hi hlt => by omega
    rw [if_pos hpart, hread, Option.bind_eq_bind, Option.bind_some]
    by_cases hzero : a.word (size / 64) &&& (~~~0 : Word) >>> (64 - size % 64) = 0
    · rw [if_neg (not_not.mpr hzero)]
      apply findLastWord_spec a hsize (by omega)
      intro i hi hlt
      have h := hbits (i - 64 * (size / 64)) (by omega)
      rw [hzero, getLsbD_zero, (by omega : 64 * (size / 64) + (i - 64 * (size / 64)) = i), decide_eq_true hlt,
        Bool.true_and] at h
      exact h.symm
    · obtain ⟨j, hj, hfls, hset, habove⟩ := flsWord_spec hzero
      rw [if_pos hzero, hfls]
      exact ⟨size / 64 * 64 + j, rfl, isLast_word hbits hj hset habove hclear⟩

/-- `find_first_zero_bit` is `find_next_zero_bit` from the beginning. -/
theorem findFirstZeroBit_eq {addr : Block Word} : findFirstZeroBit addr size = findNextZeroBit addr size 0 := by
  unfold findFirstZeroBit findNextZeroBit
  by_cases hsize : size ≤ 0
  · obtain rfl : size = 0 := Nat.le_zero.mp hsize
    rfl
  · rw [if_neg hsize]
    rfl

end Libls.Bitmaps
