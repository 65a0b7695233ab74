import Libls.Library.Prog
import Libls.BitmapOps

/-! # Regions of a bitmap

A region is `2 ^ order` positions from a multiple of `2 ^ order` on.  `__reg_op` tests, sets or clears the bits of a
region with one mask for all its words: a region is a part of one word, or it is made of whole words.  The bits in the
mask of a word are those of the region (`mem_region`), and everything else follows from that.

An `int` that is a position or a size is a natural number; a sum or a shift that overflows has no result. -/

namespace Libls.Bitmaps
open WordBits

/-- `-ENOMEM` -/
def enomem : ℤ := -12

/-- `-EBUSY` -/
def ebusy : ℤ := -16

/-- `1 << order`, an `int` -/
def regionBits (order : ℕ) : Option ℕ := if order < 31 then some (1 <<< order) else none

/-- The sum of two `int`s. -/
def intSum (m n : ℕ) : Option ℕ := if m + n < 2 ^ 31 then some (m + n) else none

/-- What `__reg_op` does with a region. -/
inductive RegOp where
  | isfree
  | alloc
  | release

/-- `mask` in `__reg_op` -/
def regMask (nbitsinlong offset : ℕ) : Word :=
  let mask : Word := 1 <<< (nbitsinlong - 1)
  (mask + (mask - 1)) <<< offset

/-- `__reg_op` -/
def regOp (bitmap : Block Word) (pos order : ℕ) (reg_op : RegOp) : Option (Block Word × ℤ) := do
  let nbits_reg ← regionBits order
  let index := pos / 64
  let offset := pos - index * 64
  let nlongs_reg := bitsToLongs nbits_reg
  let mask := regMask (min nbits_reg 64) offset
  match reg_op with
  | .isfree =>
      let found ← scanLoop (fun i => do return (← bitmap.read (index + i)) &&& mask != 0) 0 nlongs_reg
      return (bitmap, if found then 0 else 1)
  | .alloc => return (← bitmap.modifyRange (· ||| mask) index nlongs_reg, 0)
  | .release => return (← bitmap.modifyRange (· &&& ~~~mask) index nlongs_reg, 0)

/-- A pass of the loop of `bitmap_find_free_region`; `stop` is `end`. -/
def freeRegionPass (bits order : ℕ) : Block Word × ℕ → Option (Iter (Block Word × ℕ) (Block Word × ℤ))
  | (bitmap, pos) => do
      let stop ← intSum pos (← regionBits order)
      if stop ≤ bits then
        let (bitmap, free) ← regOp bitmap pos order .isfree
        if free = 0 then return .next (bitmap, stop)
        else
          let (bitmap, _) ← regOp bitmap pos order .alloc
          return .done (bitmap, pos)
      else return .done (bitmap, enomem)

/-- `bitmap_find_free_region` -/
def bitmapFindFreeRegion (bitmap : Block Word) (bits order : ℕ) : Prog (Block Word × ℤ) :=
  Prog.iterate (fun s => (freeRegionPass bits order s : Option _)) (bitmap, 0)

/-- `bitmap_release_region` -/
def bitmapReleaseRegion (bitmap : Block Word) (pos order : ℕ) : Option (Block Word) := do
  let (bitmap, _) ← regOp bitmap pos order .release
  return bitmap

/-- `bitmap_allocate_region` -/
def bitmapAllocateRegion (bitmap : Block Word) (pos order : ℕ) : Option (Block Word × ℤ) := do
  let (bitmap, free) ← regOp bitmap pos order .isfree
  if free = 0 then return (bitmap, ebusy)
  else
    let (bitmap, _) ← regOp bitmap pos order .alloc
    return (bitmap, 0)

/-! ### The bits of a region -/

variable {bits order pos n i j k offset : ℕ} {a d : Bitmap bits} {bitmap bitmap' : Block Word}

/-- The positions of a region. -/
def region (order pos : ℕ) : Finset ℕ := Finset.Ico pos (pos + 2 ^ order)

theorem getLsbD_regMask (hn : 0 < n) (hle : n ≤ 64) (hj : j < 64) :
    (regMask n offset).getLsbD j = decide (offset ≤ j ∧ j < offset + n) := by
  have hmask := @getLsbD_add_lowMask 64 (j - offset) n hn hle
  have hiff : ¬ j < offset ∧ j - offset < n ↔ offset ≤ j ∧ j < offset + n := by omega
  unfold regMask
  change ((1#64 <<< (n - 1) + (1#64 <<< (n - 1) - 1)) <<< offset).getLsbD j = _
  rw [BitVec.getLsbD_shiftLeft, hmask, decide_eq_true hj, Bool.true_and, ← decide_not, ← Bool.decide_and]
  simp only [hiff]

/-- A region is a part of one word, or it is made of whole words. -/
theorem region_words (h : 2 ^ order ∣ pos) :
    pos % 64 + 2 ^ order ≤ 64 ∨ pos % 64 = 0 ∧ ∃ m, 2 ^ order = 64 * (m + 1) := by
  rcases Nat.le_total order 6 with hle | hge
  · -- the rest of the word is a multiple of the size
    have hdvd : 2 ^ order ∣ 64 := Nat.pow_dvd_pow 2 hle
    have hrest : 2 ^ order ∣ 64 - pos % 64 := Nat.dvd_sub hdvd ((Nat.dvd_mod_iff hdvd).mpr h)
    have hlt : pos % 64 < 64 := Nat.mod_lt pos (by decide)
    have := Nat.le_of_dvd (by omega) hrest
    exact .inl (by omega)
  · have hdvd : 64 ∣ 2 ^ order := Nat.pow_dvd_pow 2 hge
    have hzero : pos % 64 = 0 := Nat.mod_eq_zero_of_dvd (Nat.dvd_trans hdvd h)
    have hpos := Nat.two_pow_pos order
    obtain ⟨m, hm⟩ := hdvd
    obtain ⟨m, rfl⟩ := Nat.exists_eq_succ_of_ne_zero (by omega : m ≠ 0)
    exact .inr ⟨hzero, m, hm⟩

/-- A region is in an array if and only if its words are. -/
theorem region_room (h : 2 ^ order ∣ pos) : pos + 2 ^ order ≤ n * 64 ↔ pos / 64 + bitsToLongs (2 ^ order) ≤ n := by
  have hpos := Nat.two_pow_pos order
  unfold bitsToLongs
  obtain hpart | ⟨hzero, m, hm⟩ := region_words h
  · omega
  · omega

/-- The mask of a region. -/
def regionMask (order pos : ℕ) : Word := regMask (min (2 ^ order) 64) (pos - pos / 64 * 64)

/-- **The mask** of the words of a region has the bits of the region. -/
theorem mem_region (h : 2 ^ order ∣ pos) : i ∈ region order pos ↔
    (pos / 64 ≤ i / 64 ∧ i / 64 < pos / 64 + bitsToLongs (2 ^ order)) ∧
      (regionMask order pos).getLsbD (i % 64) = true := by
  have hpos := Nat.two_pow_pos order
  have hoffset : pos - pos / 64 * 64 = pos % 64 := by omega
  unfold region regionMask bitsToLongs
  rw [getLsbD_regMask (by omega) (by omega) (Nat.mod_lt i (by decide)), decide_eq_true_iff, Finset.mem_Ico, hoffset]
  obtain hpart | ⟨hzero, m, hm⟩ := region_words h
  · rw [Nat.min_eq_left (by omega)]
    omega
  · rw [Nat.min_eq_right (by omega)]
    omega

/-! ### The operations -/

theorem regionBits_of_lt (h : order < 31) : regionBits order = some (2 ^ order) := by
  unfold regionBits
  rw [if_pos h, Nat.one_shiftLeft]

/-- `__reg_op`, with the mask of the region. -/
theorem regOp_eq (h : order < 31) (reg_op : RegOp) : regOp bitmap pos order reg_op =
    match reg_op with
    | .isfree => do
        let found ← scanLoop (fun i => do return (← bitmap.read (pos / 64 + i)) &&& regionMask order pos != 0) 0
          (bitsToLongs (2 ^ order))
        return (bitmap, if found then 0 else 1)
    | .alloc => do
        return (← bitmap.modifyRange (· ||| regionMask order pos) (pos / 64) (bitsToLongs (2 ^ order)), 0)
    | .release => do
        return (← bitmap.modifyRange (· &&& ~~~regionMask order pos) (pos / 64) (bitsToLongs (2 ^ order)), 0) := by
  unfold regOp
  rw [regionBits_of_lt h]
  cases reg_op <;> rfl

/-- Changing the bits of a region. -/
theorem modifyRegion_spec (a : Bitmap bits) (h : 2 ^ order ∣ pos) (hroom : pos + 2 ^ order ≤ bitsToLongs bits * 64)
    {f : Word → Word → Word} {g : Bool → Bool → Bool}
    (hf : ∀ x y j, j < 64 → (f x y).getLsbD j = g (x.getLsbD j) (y.getLsbD j)) (hg : ∀ p, g p false = p) :
    ∃ d : Bitmap bits,
      a.block.modifyRange (f · (regionMask order pos)) (pos / 64) (bitsToLongs (2 ^ order)) = some d.block ∧
        ∀ i, d.bit i = g (a.bit i) (decide (i ∈ region order pos)) := by
  have hlongs := (region_room h).mp hroom
  obtain ⟨dst, hmodify, hsize, hread⟩ := @Block.modifyRange_of_read _ a.block (pos / 64) (bitsToLongs (2 ^ order)) a.word
    (fun j _ hlt => a.read (by omega)) (f · (regionMask order pos))
  obtain ⟨d, rfl, hd⟩ := @exists_bitmap bits (fun k => if pos / 64 ≤ k ∧ k < pos / 64 + bitsToLongs (2 ^ order) then
      f (a.word k) (regionMask order pos) else a.word k) dst (hsize.trans a.size)
    (fun k hk => by
      rw [hread]
      split
      · rfl
      · exact a.read hk)
    (fun k hk => by rw [if_neg (by omega), word_of_ge a hk])
  refine ⟨d, hmodify, fun i => ?_⟩
  unfold Bitmap.bit bitAt
  rw [hd]
  simp only [mem_region h]
  by_cases hin : pos / 64 ≤ i / 64 ∧ i / 64 < pos / 64 + bitsToLongs (2 ^ order)
  · rw [if_pos hin, hf _ _ _ (Nat.mod_lt i (by decide))]
    simp [hin]
  · rw [if_neg hin, decide_eq_false (fun hand => hin hand.1), hg]

/-- `REG_OP_ALLOC` -/
theorem regOp_alloc (a : Bitmap bits) (horder : order < 31) (h : 2 ^ order ∣ pos)
    (hroom : pos + 2 ^ order ≤ bitsToLongs bits * 64) : ∃ d : Bitmap bits,
    regOp a.block pos order .alloc = some (d.block, 0) ∧ ∀ i, d.bit i = (a.bit i || decide (i ∈ region order pos)) := by
  obtain ⟨d, hd, hbit⟩ := modifyRegion_spec a h hroom (fun x y j _ => BitVec.getLsbD_or) Bool.or_false
  refine ⟨d, ?_, hbit⟩
  rw [regOp_eq horder]
  dsimp only
  rw [hd]
  rfl

/-- `REG_OP_RELEASE` -/
theorem regOp_release (a : Bitmap bits) (horder : order < 31) (h : 2 ^ order ∣ pos)
    (hroom : pos + 2 ^ order ≤ bitsToLongs bits * 64) : ∃ d : Bitmap bits,
    regOp a.block pos order .release = some (d.block, 0) ∧
      ∀ i, d.bit i = (a.bit i && !decide (i ∈ region order pos)) := by
  obtain ⟨d, hd, hbit⟩ := @modifyRegion_spec _ _ _ a h hroom (fun x y => x &&& ~~~y) (fun p q => p && !q)
    (fun x y j hj => by rw [BitVec.getLsbD_and, BitVec.getLsbD_not, decide_eq_true hj, Bool.true_and])
    (fun p => by rw [Bool.not_false, Bool.and_true])
  refine ⟨d, ?_, hbit⟩
  rw [regOp_eq horder]
  dsimp only
  rw [hd]
  rfl

/-- All bits of the region are 0. -/
def Free (a : Bitmap bits) (order pos : ℕ) : Prop := ∀ i ∈ region order pos, a.bit i = false

instance : Decidable (Free a order pos) := inferInstanceAs (Decidable (∀ i ∈ region order pos, a.bit i = false))

theorem and_ne_zero {x y : Word} : (x &&& y != 0) = true ↔ ∃ j < 64, x.getLsbD j = true ∧ y.getLsbD j = true := by
  rw [bne_iff_ne]
  constructor
  · intro hne
    by_contra hnone
    apply hne
    apply BitVec.eq_of_getLsbD_eq
    intro j hj
    have hzero : (0 : Word).getLsbD j = false := BitVec.getLsbD_zero
    rw [BitVec.getLsbD_and, hzero, Bool.and_eq_false_iff, ← Bool.not_eq_true, ← Bool.not_eq_true, ← not_and_or]
    exact fun hboth => hnone ⟨j, hj, hboth⟩
  · rintro ⟨j, -, hx, hy⟩ hzero
    have hbit := congrArg (BitVec.getLsbD · j) hzero
    rw [BitVec.getLsbD_and, hx, hy] at hbit
    exact Bool.false_ne_true (BitVec.getLsbD_zero.symm.trans hbit.symm)

/-- `REG_OP_ISFREE` -/
theorem regOp_isfree (a : Bitmap bits) (horder : order < 31) (h : 2 ^ order ∣ pos)
    (hroom : pos + 2 ^ order ≤ bitsToLongs bits * 64) :
    regOp a.block pos order .isfree = some (a.block, if Free a order pos then 1 else 0) := by
  have hlongs := (region_room h).mp hroom
  obtain ⟨found, hscan, hfound⟩ := @scanLoop_spec 0 (bitsToLongs (2 ^ order))
    (fun i => do return (← a.block.read (pos / 64 + i)) &&& regionMask order pos != 0)
    (fun i => a.word (pos / 64 + i) &&& regionMask order pos != 0)
    (fun j _ hlt => by rw [a.read (by omega)]; rfl)
  have hiff : found = true ↔ ¬ Free a order pos := by
    unfold Free
    push Not
    rw [hfound]
    constructor
    · rintro ⟨j, -, hj, hne⟩
      obtain ⟨b, hb, hword, hmask⟩ := and_ne_zero.mp hne
      refine ⟨(pos / 64 + j) * 64 + b, (mem_region h).mpr ⟨by omega, ?_⟩, ?_⟩
      · rwa [Nat.mul_comm, Nat.mul_add_mod, Nat.mod_eq_of_lt hb]
      · rw [Bool.ne_false_iff]
        exact (bitAt_mul_add hb).trans hword
    · rintro ⟨i, hi, hset⟩
      obtain ⟨hin, hmask⟩ := (mem_region h).mp hi
      refine ⟨i / 64 - pos / 64, Nat.zero_le _, by omega, and_ne_zero.mpr ⟨i % 64, Nat.mod_lt i (by decide), ?_, hmask⟩⟩
      rw [Nat.add_sub_cancel' hin.1]
      exact Bool.ne_false_iff.mp hset
  rw [regOp_eq horder]
  dsimp only
  rw [hscan]
  by_cases hfree : Free a order pos
  · have hclear : found = false := Bool.eq_false_iff.mpr fun hset => hiff.mp hset hfree
    rw [if_pos hfree, hclear]
    rfl
  · rw [if_neg hfree, hiff.mpr hfree]
    rfl

/-! ### Allocation and release -/

theorem bitmapReleaseRegion_spec (a : Bitmap bits) (horder : order < 31) (h : 2 ^ order ∣ pos)
    (hroom : pos + 2 ^ order ≤ bitsToLongs bits * 64) : ∃ d : Bitmap bits,
    bitmapReleaseRegion a.block pos order = some d.block ∧
      ∀ i, d.bit i = (a.bit i && !decide (i ∈ region order pos)) := by
  obtain ⟨d, hd, hbit⟩ := regOp_release a horder h hroom
  refine ⟨d, ?_, hbit⟩
  unfold bitmapReleaseRegion
  rw [hd]
  rfl

/-- A region that is free is set. -/
theorem bitmapAllocateRegion_eq (horder : order < 31) (h : 2 ^ order ∣ pos)
    (hroom : pos + 2 ^ order ≤ bitsToLongs bits * 64) (hfree : Free a order pos) :
    bitmapAllocateRegion a.block pos order = do
      let (bitmap, _) ← regOp a.block pos order .alloc
      return (bitmap, 0) := by
  unfold bitmapAllocateRegion
  rw [regOp_isfree a horder h hroom, if_pos hfree]
  rfl

theorem bitmapAllocateRegion_of_free (horder : order < 31) (h : 2 ^ order ∣ pos)
    (hroom : pos + 2 ^ order ≤ bitsToLongs bits * 64) (hfree : Free a order pos) : ∃ d : Bitmap bits,
    bitmapAllocateRegion a.block pos order = some (d.block, 0) ∧
      ∀ i, d.bit i = (a.bit i || decide (i ∈ region order pos)) := by
  obtain ⟨d, hd, hbit⟩ := regOp_alloc a horder h hroom
  refine ⟨d, ?_, hbit⟩
  rw [bitmapAllocateRegion_eq horder h hroom hfree, hd]
  rfl

theorem bitmapAllocateRegion_of_not_free (horder : order < 31) (h : 2 ^ order ∣ pos)
    (hroom : pos + 2 ^ order ≤ bitsToLongs bits * 64) (hfree : ¬ Free a order pos) :
    bitmapAllocateRegion a.block pos order = some (a.block, ebusy) := by
  unfold bitmapAllocateRegion
  rw [regOp_isfree a horder h hroom, if_neg hfree]
  rfl

/-- An allocation that succeeds has tested and set the words of the region. -/
theorem allocated (h : bitmapAllocateRegion bitmap pos order = some (bitmap', 0)) : order < 31 ∧
    scanLoop (fun i => do return (← bitmap.read (pos / 64 + i)) &&& regionMask order pos != 0) 0
      (bitsToLongs (2 ^ order)) = some false ∧
    bitmap.modifyRange (· ||| regionMask order pos) (pos / 64) (bitsToLongs (2 ^ order)) = some bitmap' := by
  obtain ⟨⟨b, free⟩, hisfree, h⟩ := Option.bind_eq_some_iff.mp h
  have horder : order < 31 := by
    by_contra hge
    have hnone : regionBits order = none := if_neg hge
    unfold regOp at hisfree
    rw [hnone] at hisfree
    cases hisfree
  rw [regOp_eq horder] at hisfree
  obtain ⟨found, hscan, hfound⟩ := Option.bind_eq_some_iff.mp hisfree
  cases hfound
  cases found with
  | true => cases h
  | false =>
      obtain ⟨⟨b', z⟩, halloc, h⟩ := Option.bind_eq_some_iff.mp h
      cases h
      rw [regOp_eq horder] at halloc
      obtain ⟨b, hmodify, hb⟩ := Option.bind_eq_some_iff.mp halloc
      cases hb
      exact ⟨horder, hscan, hmodify⟩

/-- The words are those of the array. -/
theorem room_of_allocated (a : Bitmap bits) (h : 2 ^ order ∣ pos)
    (halloc : bitmapAllocateRegion a.block pos order = some (bitmap, 0)) : pos + 2 ^ order ≤ bitsToLongs bits * 64 := by
  have hlongs : 0 < bitsToLongs (2 ^ order) := by
    have hpos := Nat.two_pow_pos order
    unfold bitsToLongs
    omega
  obtain ⟨-, hscan, -⟩ := allocated halloc
  have hlast := scanLoop_false hscan (bitsToLongs (2 ^ order) - 1) (Nat.zero_le _) (by omega)
  obtain ⟨w, hw, -⟩ := Option.bind_eq_some_iff.mp hlast
  have hlt := Block.lt_of_read hw
  rw [a.size] at hlt
  rw [region_room h]
  omega

theorem free_of_allocated (horder : order < 31) (h : 2 ^ order ∣ pos)
    (halloc : bitmapAllocateRegion a.block pos order = some (bitmap, 0)) : Free a order pos := by
  by_contra hfree
  cases halloc.symm.trans (bitmapAllocateRegion_of_not_free horder h (room_of_allocated a h halloc) hfree)

theorem or_and_not {x y : Word} (h : x &&& y = 0) : (x ||| y) &&& ~~~y = x := by
  apply BitVec.eq_of_getLsbD_eq
  intro j hj
  have hbit := congrArg (BitVec.getLsbD · j) h
  have hzero : (0 : Word).getLsbD j = false := BitVec.getLsbD_zero
  rw [BitVec.getLsbD_and, hzero] at hbit
  rw [BitVec.getLsbD_and, BitVec.getLsbD_or, BitVec.getLsbD_not, decide_eq_true hj]
  cases hx : x.getLsbD j with
  | false => cases y.getLsbD j <;> rfl
  | true =>
      rw [hx, Bool.true_and] at hbit
      rw [hbit]
      rfl

/-- **Release after allocation** restores everything, whatever the region is. -/
theorem bitmapReleaseRegion_undo (h : bitmapAllocateRegion bitmap pos order = some (bitmap', 0)) :
    bitmapReleaseRegion bitmap' pos order = some bitmap := by
  obtain ⟨horder, hscan, hmodify⟩ := allocated h
  have htest := scanLoop_false hscan
  have hword : ∀ j, pos / 64 ≤ j → j < pos / 64 + bitsToLongs (2 ^ order) →
      ∃ w, bitmap.read j = some w ∧ w &&& regionMask order pos = 0 := by
    intro j hj hlt
    have hj' := htest (j - pos / 64) (Nat.zero_le _) (by omega)
    rw [Nat.add_sub_cancel' hj] at hj'
    obtain ⟨w, hw, hclear⟩ := Option.bind_eq_some_iff.mp hj'
    refine ⟨w, hw, ?_⟩
    rwa [Option.pure_def, Option.some_inj, bne_eq_false_iff_eq] at hclear
  have hundo := @Block.modifyRange_undo _ bitmap bitmap' (pos / 64) (bitsToLongs (2 ^ order))
    (fun j => (bitmap.read j).getD 0) (· ||| regionMask order pos) (· &&& ~~~regionMask order pos)
    (fun j hj hlt => by
      obtain ⟨w, hw, -⟩ := hword j hj hlt
      rw [hw, Option.getD_some])
    (fun j hj hlt => by
      obtain ⟨w, hw, hclear⟩ := hword j hj hlt
      rw [hw, Option.getD_some]
      exact or_and_not hclear)
    hmodify
  unfold bitmapReleaseRegion
  rw [regOp_eq horder]
  dsimp only
  rw [hundo]
  rfl

/-! ### The first free region -/

/-- A region of the bitmap that can be allocated. -/
structure FreeRegion (a : Bitmap bits) (order pos : ℕ) : Prop where
  aligned : 2 ^ order ∣ pos
  room : pos + 2 ^ order ≤ bits
  free : Free a order pos

theorem le_longs : bits ≤ bitsToLongs bits * 64 := by
  unfold bitsToLongs
  omega

theorem order_lt (hint : bits + 2 ^ order ≤ 2 ^ 31 - 1) : order < 31 := by
  apply (Nat.pow_lt_pow_iff_right (by decide : 1 < 2)).mp
  omega

theorem intSum_of_lt (h : n + k < 2 ^ 31) : intSum n k = some (n + k) := if_pos h

/-- What one pass does. -/
theorem freeRegionPass_spec (a : Bitmap bits) (hint : bits + 2 ^ order ≤ 2 ^ 31 - 1) (h : 2 ^ order ∣ pos)
    (hpos : pos ≤ bits) :
    (bits < pos + 2 ^ order ∧ freeRegionPass bits order (a.block, pos) = some (.done (a.block, enomem))) ∨
      (pos + 2 ^ order ≤ bits ∧ ¬ Free a order pos ∧
        freeRegionPass bits order (a.block, pos) = some (.next (a.block, pos + 2 ^ order))) ∨
      (FreeRegion a order pos ∧ ∃ bitmap, freeRegionPass bits order (a.block, pos) = some (.done (bitmap, pos)) ∧
        bitmapAllocateRegion a.block pos order = some (bitmap, 0)) := by
  have horder := order_lt hint
  have hsum : intSum pos (2 ^ order) = some (pos + 2 ^ order) := intSum_of_lt (by omega)
  unfold freeRegionPass
  rw [regionBits_of_lt horder]
  dsimp only [Option.bind_eq_bind, Option.bind_some]
  rw [hsum, Option.bind_some]
  rcases Nat.lt_or_ge bits (pos + 2 ^ order) with hend | hroom
  · exact .inl ⟨hend, if_neg (Nat.not_le.mpr hend)⟩
  · have hroom' := hroom.trans le_longs
    rw [if_pos hroom, regOp_isfree a horder h hroom', Option.bind_some]
    dsimp only
    by_cases hfree : Free a order pos
    · obtain ⟨d, halloc, -⟩ := regOp_alloc a horder h hroom'
      refine .inr (.inr ⟨⟨h, hroom, hfree⟩, d.block, ?_, ?_⟩)
      · rw [if_pos hfree, if_neg (by decide), halloc]
        rfl
      · rw [bitmapAllocateRegion_eq horder h hroom' hfree, halloc]
        rfl
    · refine .inr (.inl ⟨hroom, hfree, ?_⟩)
      rw [if_neg hfree]
      rfl

/-- Two regions of one size begin at the same position, or at least the size apart. -/
theorem region_unique {p : ℕ} (hp : n ∣ p) (h : n ∣ pos) (hle : pos ≤ p) (hlt : p < pos + n) : p = pos := by
  have hzero := Nat.eq_zero_of_dvd_of_lt (Nat.dvd_sub hp h) (by omega : p - pos < n)
  omega

/-- The search ends with the first free region. -/
theorem bitmapFindFreeRegion_first (a : Bitmap bits) (hint : bits + 2 ^ order ≤ 2 ^ 31 - 1) :
    ∃ ret, Prog.Returns (bitmapFindFreeRegion a.block bits order) ret ∧
      ((∃ (pos : ℕ) (bitmap : Block Word), ret = (bitmap, (pos : ℤ)) ∧ IsLeast {pos | FreeRegion a order pos} pos ∧
          bitmapAllocateRegion a.block pos order = some (bitmap, 0)) ∨
        ret = (a.block, enomem) ∧ ∀ pos, ¬ FreeRegion a order pos) := by
  refine Prog.Returns.iterate (fun k s => ∃ pos, s = (a.block, pos) ∧ k = bits - pos ∧ 2 ^ order ∣ pos ∧ pos ≤ bits ∧
    ∀ p < pos, ¬ FreeRegion a order p) ?_ bits (a.block, 0)
    ⟨0, rfl, rfl, Nat.dvd_zero _, Nat.zero_le _, fun p hp => absurd hp (Nat.not_lt_zero p)⟩
  rintro k s ⟨pos, rfl, rfl, hdvd, hpos, hbehind⟩
  have hsize := Nat.two_pow_pos order
  obtain ⟨hend, hpass⟩ | ⟨hroom, hnot, hpass⟩ | ⟨hfree, bitmap, hpass, halloc⟩ := freeRegionPass_spec a hint hdvd hpos
  · refine .inl ⟨_, Prog.returns_lift.mpr hpass, .inr ⟨rfl, fun p hp => ?_⟩⟩
    rcases Nat.lt_or_ge p pos with hlt | hge
    · exact hbehind p hlt hp
    · have := hp.room
      omega
  · refine .inr ⟨_, bits - (pos + 2 ^ order), Prog.returns_lift.mpr hpass, by omega, pos + 2 ^ order, rfl, rfl,
      Nat.dvd_add hdvd (Nat.dvd_refl _), hroom, fun p hlt hp => ?_⟩
    rcases Nat.lt_or_ge p pos with hp' | hge
    · exact hbehind p hp' hp
    · cases region_unique hp.aligned hdvd hge hlt
      exact hnot hp.free
  · refine .inl ⟨_, Prog.returns_lift.mpr hpass, .inl ⟨pos, bitmap, rfl, ⟨hfree, fun p hp => ?_⟩, halloc⟩⟩
    by_contra hlt
    exact hbehind p (Nat.lt_of_not_le hlt) hp

/-- **`bitmap_find_free_region`** -/
theorem bitmapFindFreeRegion_spec (a : Bitmap bits) (hint : bits + 2 ^ order ≤ 2 ^ 31 - 1) :
    (∃ (pos : ℕ) (d : Bitmap bits), Prog.Returns (bitmapFindFreeRegion a.block bits order) (d.block, (pos : ℤ)) ∧
        bitmapAllocateRegion a.block pos order = some (d.block, 0) ∧ IsLeast {pos | FreeRegion a order pos} pos ∧
          ∀ i, d.bit i = (a.bit i || decide (i ∈ region order pos))) ∨
      (∀ pos, ¬ FreeRegion a order pos) ∧ Prog.Returns (bitmapFindFreeRegion a.block bits order) (a.block, enomem) := by
  obtain ⟨ret, hret, ⟨pos, bitmap, rfl, hleast, halloc⟩ | ⟨rfl, hnone⟩⟩ := bitmapFindFreeRegion_first a hint
  · obtain ⟨h, hroom, hfree⟩ := hleast.1
    obtain ⟨d, hd, hbit⟩ := bitmapAllocateRegion_of_free (order_lt hint) h (hroom.trans le_longs) hfree
    cases halloc.symm.trans hd
    exact .inl ⟨pos, d, hret, hd, hleast, hbit⟩
  · exact .inr ⟨hnone, hret⟩

/-! ### All three functions -/

/-- What the functions do with the regions of one size. -/
structure RegionsExact (a : Bitmap bits) (order : ℕ) : Prop where
  /-- The first free region is set and returned, or there is none and nothing changes. -/
  find : ∃ (d : Bitmap bits) (ret : ℤ), Prog.Returns (bitmapFindFreeRegion a.block bits order) (d.block, ret) ∧
    ((∃ pos : ℕ, ret = pos ∧ IsLeast {pos | FreeRegion a order pos} pos ∧
        ∀ i, d.bit i = (a.bit i || decide (i ∈ region order pos))) ∨
      ret = enomem ∧ d = a ∧ ∀ pos, ¬ FreeRegion a order pos)
  nomem : (∃ bitmap, Prog.Returns (bitmapFindFreeRegion a.block bits order) (bitmap, enomem)) ↔
    ∀ pos, ¬ FreeRegion a order pos
  /-- The unused bits of the last word may belong to the region. -/
  allocate : ∀ pos, 2 ^ order ∣ pos → ((∃ bitmap, bitmapAllocateRegion a.block pos order = some (bitmap, 0)) ↔
    pos + 2 ^ order ≤ bitsToLongs bits * 64 ∧ Free a order pos)
  sets : ∀ pos bitmap, 2 ^ order ∣ pos → bitmapAllocateRegion a.block pos order = some (bitmap, 0) →
    ∃ d : Bitmap bits, d.block = bitmap ∧ ∀ i, d.bit i = (a.bit i || decide (i ∈ region order pos))
  busy : ∀ pos, 2 ^ order ∣ pos → pos + 2 ^ order ≤ bitsToLongs bits * 64 → ¬ Free a order pos →
    bitmapAllocateRegion a.block pos order = some (a.block, ebusy)
  release : ∀ pos bitmap, bitmapAllocateRegion a.block pos order = some (bitmap, 0) →
    bitmapReleaseRegion bitmap pos order = some a.block
  releaseFound : ∀ (pos : ℕ) bitmap, Prog.Returns (bitmapFindFreeRegion a.block bits order) (bitmap, (pos : ℤ)) →
    bitmapReleaseRegion bitmap pos order = some a.block

/-- **Regions.**  What is allocated is exactly a free region, and it can be released. -/
theorem regions_exact (a : Bitmap bits) (hint : bits + 2 ^ order ≤ 2 ^ 31 - 1) : RegionsExact a order := by
  have horder := order_lt hint
  have hfind := bitmapFindFreeRegion_spec a hint
  constructor
  · obtain ⟨pos, d, hret, -, hleast, hbit⟩ | ⟨hnone, hret⟩ := hfind
    · exact ⟨d, pos, hret, .inl ⟨pos, rfl, hleast, hbit⟩⟩
    · exact ⟨a, enomem, hret, .inr ⟨rfl, rfl, hnone⟩⟩
  · obtain ⟨pos, d, hret, -, hleast, -⟩ | ⟨hnone, hret⟩ := hfind
    · constructor
      · rintro ⟨bitmap, hnomem⟩
        have hpos : (pos : ℤ) = -12 := congrArg Prod.snd (hret.unique hnomem)
        omega
      · intro hnone
        exact absurd hleast.1 (hnone pos)
    · exact ⟨fun _ => hnone, fun _ => ⟨a.block, hret⟩⟩
  · intro pos h
    constructor
    · rintro ⟨bitmap, halloc⟩
      exact ⟨room_of_allocated a h halloc, free_of_allocated horder h halloc⟩
    · rintro ⟨hroom, hfree⟩
      obtain ⟨d, hd, -⟩ := bitmapAllocateRegion_of_free horder h hroom hfree
      exact ⟨d.block, hd⟩
  · intro pos bitmap h halloc
    obtain ⟨d, hd, hbit⟩ := bitmapAllocateRegion_of_free horder h (room_of_allocated a h halloc)
      (free_of_allocated horder h halloc)
    cases hd.symm.trans halloc
    exact ⟨d, rfl, hbit⟩
  · intro pos h hroom hfree
    exact bitmapAllocateRegion_of_not_free horder h hroom hfree
  · intro pos bitmap h
    exact bitmapReleaseRegion_undo h
  · intro pos bitmap h
    obtain ⟨p, d, hret, halloc, -, -⟩ | ⟨-, hret⟩ := hfind
    · have heq := hret.unique h
      cases Int.natCast_inj.mp (congrArg Prod.snd heq)
      cases congrArg Prod.fst heq
      exact bitmapReleaseRegion_undo halloc
    · have hpos : (-12 : ℤ) = pos := congrArg Prod.snd (hret.unique h)
      omega

/-- One bit of 130, in the first word. -/
def taken130 : Bitmap 130 := ⟨⟨[some 1, some 0, some 0]⟩, by decide, by decide⟩

theorem regions_exact_word : RegionsExact taken130 6 := regions_exact taken130 (by decide)

end Libls.Bitmaps
