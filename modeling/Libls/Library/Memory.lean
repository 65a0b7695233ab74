import Mathlib.Tactic

/-! # Unsigned arithmetic and allocated memory

`u32` is the reduction that every operation on `unsigned int` ends with.

A `Block` is what `malloc` and `realloc` return: cells that hold nothing until they are written.
Reading a cell that was never written, and reading or writing outside the block, has no
result. -/

namespace Libls

/-- Arithmetic on `unsigned int` is modulo `2 ^ 32`. -/
def u32 (n : ℕ) : ℕ := n % 2 ^ 32

theorem u32_of_lt {n : ℕ} (h : n < 2 ^ 32) : u32 n = n := Nat.mod_eq_of_lt h

/-- What `n--` makes of an `unsigned int`. -/
def pred32 (n : ℕ) : ℕ := if n = 0 then 2 ^ 32 - 1 else n - 1

/-- Arithmetic on `size_t` is modulo `2 ^ 64`. -/
def u64 (n : ℕ) : ℕ := n % 2 ^ 64

theorem u64_of_lt {n : ℕ} (h : n < 2 ^ 64) : u64 n = n := Nat.mod_eq_of_lt h

/-- What `n--` makes of a `size_t`. -/
def pred64 (n : ℕ) : ℕ := if n = 0 then 2 ^ 64 - 1 else n - 1

/-- The `char`s of the library are bytes. -/
abbrev Byte := UInt8

/-- What can be checked for the 256 bytes holds for all. -/
theorem forall_byte {P : Byte → Prop} (h : ∀ n < 256, P (UInt8.ofNat n)) (c : Byte) : P c := by
  rw [← UInt8.ofNat_toNat (x := c)]
  exact h _ c.toNat_lt

/-- The cells of an allocated block. -/
structure Block (α : Type) where
  cells : List (Option α)
deriving DecidableEq, Repr

namespace Block

variable {α : Type} {b b' : Block α} {i j n : ℕ} {v : α}

def size (b : Block α) : ℕ := b.cells.length

/-- The null pointer, as a block without cells. -/
def null : Block α := ⟨[]⟩

def read (b : Block α) (i : ℕ) : Option α := b.cells[i]?.join

def write (b : Block α) (i : ℕ) (v : α) : Option (Block α) :=
  if i < b.size then some ⟨b.cells.set i (some v)⟩ else none

/-- A successful `realloc` keeps what fits into the new block. -/
def realloc (b : Block α) (n : ℕ) : Block α :=
  ⟨b.cells.take n ++ List.replicate (n - b.size) none⟩

@[simp] theorem size_null : (null : Block α).size = 0 := rfl

theorem lt_of_read (h : b.read i = some v) : i < b.size := by
  by_contra hi
  have : b.cells[i]? = none := List.getElem?_eq_none (Nat.le_of_not_lt hi)
  simp [read, this] at h

theorem write_of_lt (h : i < b.size) (v : α) : ∃ b', b.write i v = some b' ∧ b'.size = b.size ∧
    ∀ j, b'.read j = if j = i then some v else b.read j := by
  refine ⟨_, if_pos h, List.length_set, fun j => ?_⟩
  by_cases hj : j = i
  · subst hj
    rw [if_pos rfl, read, List.getElem?_set_self h]
    rfl
  · rw [if_neg hj, read, List.getElem?_set_ne (Ne.symm hj)]
    rfl

@[simp] theorem size_realloc : (b.realloc n).size = n := by
  simp only [size, realloc, List.length_append, List.length_take, List.length_replicate]
  omega

theorem read_realloc (h : i < n) : (b.realloc n).read i = b.read i := by
  unfold read realloc
  by_cases hi : i < b.size
  · have hlt : i < (b.cells.take n).length := by
      rw [List.length_take]
      exact Nat.lt_min.mpr ⟨h, hi⟩
    rw [List.getElem?_append_left hlt, List.getElem?_take_of_lt h]
  · have hge : (b.cells.take n).length ≤ i := by
      rw [List.length_take]
      exact Nat.le_trans (Nat.min_le_right _ _) (Nat.le_of_not_lt hi)
    have hnone : b.cells[i]? = none := List.getElem?_eq_none (Nat.le_of_not_lt hi)
    rw [List.getElem?_append_right hge, hnone, List.getElem?_replicate]
    split <;> rfl

/-- Blocks of the same size are equal if the same is read from them. -/
theorem eq_of_read (hsize : b.size = b'.size) (h : ∀ i < b.size, b.read i = b'.read i) : b = b' := by
  obtain ⟨cells⟩ := b
  obtain ⟨cells'⟩ := b'
  have hlen : cells.length = cells'.length := hsize
  congr 1
  apply List.ext_getElem hlen
  intro i hi hi'
  have hcell := h i hi
  unfold read at hcell
  rwa [List.getElem?_eq_getElem hi, List.getElem?_eq_getElem hi', Option.join_some, Option.join_some] at hcell

/-- `b[i] = f(b[i])` -/
def modify (b : Block α) (i : ℕ) (f : α → α) : Option (Block α) := do
  let v ← b.read i
  b.write i (f v)

theorem modify_of_read (h : b.read i = some v) (f : α → α) : ∃ b', b.modify i f = some b' ∧
    b'.size = b.size ∧ ∀ j, b'.read j = if j = i then some (f v) else b.read j := by
  obtain ⟨b', hb', hsize, hread⟩ := write_of_lt (lt_of_read h) (f v)
  refine ⟨b', ?_, hsize, hread⟩
  unfold modify
  rw [h]
  exact hb'

/-! ### Runs of cells -/

/-- `b[j] = f(b[j])` for the `n` cells from cell `i` on. -/
def modifyRange (b : Block α) (f : α → α) (i : ℕ) : ℕ → Option (Block α)
  | 0 => some b
  | n + 1 => do
      let b ← b.modify i f
      b.modifyRange f (i + 1) n

/-- A cell in front of the cells that are written later. -/
theorem read_cons {β : Type} {f : ℕ → β} {y : β} :
    (if i + 1 ≤ j ∧ j < i + 1 + n then f j else if j = i then f i else y) =
      if i ≤ j ∧ j < i + (n + 1) then f j else y := by
  rcases Nat.lt_trichotomy j i with hlt | rfl | hgt
  · rw [if_neg (by omega), if_neg (by omega), if_neg (by omega)]
  · rw [if_neg (by omega), if_pos rfl, if_pos (by omega)]
  · have hiff : i + 1 ≤ j ∧ j < i + 1 + n ↔ i ≤ j ∧ j < i + (n + 1) := by omega
    rw [if_neg (by omega : ¬ j = i)]
    simp only [hiff]

theorem modifyRange_of_read {u : ℕ → α} (h : ∀ j, i ≤ j → j < i + n → b.read j = some (u j)) (f : α → α) :
    ∃ b', b.modifyRange f i n = some b' ∧ b'.size = b.size ∧
      ∀ j, b'.read j = if i ≤ j ∧ j < i + n then some (f (u j)) else b.read j := by
  induction n generalizing b i with
  | zero =>
      refine ⟨b, rfl, rfl, fun j => ?_⟩
      rw [if_neg (by omega)]
  | succ n ih =>
      obtain ⟨b₁, hmodify, hsize₁, hread₁⟩ := modify_of_read (h i (Nat.le_refl i) (by omega)) f
      obtain ⟨b', hb', hsize, hread⟩ := @ih b₁ (i + 1) fun j hj hlt => by
        rw [hread₁, if_neg (by omega), h j (by omega) (by omega)]
      refine ⟨b', ?_, hsize.trans hsize₁, fun j => ?_⟩
      · rw [modifyRange, hmodify]
        exact hb'
      · rw [hread, hread₁]
        exact read_cons (f := fun j => some (f (u j)))

/-- What `g` undoes in every cell is undone in the block. -/
theorem modifyRange_undo {u : ℕ → α} {f g : α → α} (h : ∀ j, i ≤ j → j < i + n → b.read j = some (u j))
    (hundo : ∀ j, i ≤ j → j < i + n → g (f (u j)) = u j) (hb' : b.modifyRange f i n = some b') :
    b'.modifyRange g i n = some b := by
  obtain ⟨b₁, hb₁, hsize₁, hread₁⟩ := modifyRange_of_read h f
  cases hb'.symm.trans hb₁
  obtain ⟨b₂, hb₂, hsize₂, hread₂⟩ := @modifyRange_of_read _ b' i n (fun j => f (u j))
    (fun j hj hlt => by rw [hread₁, if_pos ⟨hj, hlt⟩]) g
  have heq : b₂ = b := by
    apply eq_of_read (hsize₂.trans hsize₁)
    intro j _
    rw [hread₂, hread₁]
    by_cases hj : i ≤ j ∧ j < i + n
    · rw [if_pos hj, hundo j hj.1 hj.2, h j hj.1 hj.2]
    · rw [if_neg hj, if_neg hj]
  rw [hb₂, heq]

/-- Write the values `vs` from cell `i` on. -/
def writeList (b : Block α) (i : ℕ) : List α → Option (Block α)
  | [] => some b
  | v :: vs => do
      let b ← b.write i v
      b.writeList (i + 1) vs

/-- Read `n` cells from cell `i` on. -/
def readList (b : Block α) (i : ℕ) : ℕ → Option (List α)
  | 0 => some []
  | n + 1 => do
      let v ← b.read i
      let vs ← b.readList (i + 1) n
      return v :: vs

/-- From cell `i` on the block holds the values `vs`. -/
def Has (b : Block α) (i : ℕ) (vs : List α) : Prop :=
  ∀ k, k < vs.length → b.read (i + k) = vs[k]?

theorem has_nil : b.Has i [] := fun _ hk => absurd hk (Nat.not_lt_zero _)

theorem has_cons {vs : List α} : b.Has i (v :: vs) ↔ b.read i = some v ∧ b.Has (i + 1) vs := by
  constructor
  · refine fun h => ⟨h 0 (Nat.zero_lt_succ _), fun k hk => ?_⟩
    have := h (k + 1) (Nat.succ_lt_succ hk)
    rw [List.getElem?_cons_succ] at this
    rwa [Nat.add_right_comm, Nat.add_assoc]
  · rintro ⟨h0, h⟩ k hk
    cases k with
    | zero => exact h0
    | succ k =>
        rw [List.getElem?_cons_succ, ← h k (Nat.lt_of_succ_lt_succ hk), Nat.add_right_comm,
          Nat.add_assoc]

theorem has_append {us vs : List α} :
    b.Has i (us ++ vs) ↔ b.Has i us ∧ b.Has (i + us.length) vs := by
  induction us generalizing i with
  | nil => simp [has_nil]
  | cons u us ih =>
      rw [List.cons_append, has_cons, has_cons, ih, List.length_cons, and_assoc, Nat.add_right_comm,
        Nat.add_assoc]

theorem Has.readList {vs : List α} (h : b.Has i vs) : b.readList i vs.length = some vs := by
  induction vs generalizing i with
  | nil => rfl
  | cons v vs ih =>
      obtain ⟨h0, h⟩ := has_cons.mp h
      simp [Block.readList, h0, ih h]

/-- Writing inside the block succeeds, and leaves everything else as it was. -/
theorem writeList_of_le {vs : List α} (h : i + vs.length ≤ b.size) :
    ∃ b', b.writeList i vs = some b' ∧ b'.size = b.size ∧ b'.Has i vs ∧
      ∀ j, j < i ∨ i + vs.length ≤ j → b'.read j = b.read j := by
  induction vs generalizing b i with
  | nil => exact ⟨b, rfl, rfl, has_nil, fun _ _ => rfl⟩
  | cons v vs ih =>
      rw [List.length_cons] at h
      obtain ⟨b₁, hb₁, hsz₁, hrd₁⟩ := write_of_lt (by omega : i < b.size) v
      obtain ⟨b', hb', hsz, hhas, hrd⟩ := ih (b := b₁) (i := i + 1) (by omega)
      refine ⟨b', by simp [writeList, hb₁, hb'], hsz.trans hsz₁, has_cons.mpr ⟨?_, hhas⟩, fun j hj => ?_⟩
      · rw [hrd i (.inl (Nat.lt_succ_self i)), hrd₁, if_pos rfl]
      · rw [List.length_cons] at hj
        rw [hrd j (by omega), hrd₁, if_neg (by omega)]

/-- Writing does not change the size. -/
theorem writeList_size {vs : List α} (h : b.writeList i vs = some b') : b'.size = b.size := by
  induction vs generalizing b i with
  | nil =>
      cases h
      rfl
  | cons v vs ih =>
      obtain ⟨b₁, hb₁, h⟩ := Option.bind_eq_some_iff.mp h
      by_cases hi : i < b.size
      · obtain ⟨b₂, hb₂, hsize, -⟩ := write_of_lt hi v
        cases hb₁.symm.trans hb₂
        exact (ih h).trans hsize
      · cases hb₁.symm.trans (if_neg hi)

/-- Writing behind the block fails. -/
theorem writeList_none {vs : List α} (h : b.size < i + vs.length) (hne : vs ≠ []) : b.writeList i vs = none := by
  induction vs generalizing b i with
  | nil => exact absurd rfl hne
  | cons v vs ih =>
      rw [writeList]
      by_cases hi : i < b.size
      · obtain ⟨b₁, hb₁, hsize, -⟩ := write_of_lt hi v
        have hvs : vs ≠ [] := by
          rintro rfl
          rw [List.length_singleton] at h
          omega
        rw [List.length_cons] at h
        rw [hb₁, Option.bind_eq_bind, Option.bind_some, ih (by omega) hvs]
      · have hnone : b.write i v = none := if_neg hi
        rw [hnone]
        rfl

theorem Has.congr {vs : List α} (h : b.Has i vs)
    (hrd : ∀ j, i ≤ j → j < i + vs.length → b'.read j = b.read j) : b'.Has i vs :=
  fun k hk => (hrd (i + k) (Nat.le_add_right i k) (Nat.add_lt_add_left hk i)).trans (h k hk)

/-- A block that holds the values `vs`. -/
def ofList (vs : List α) : Block α := ⟨vs.map some⟩

theorem ofList_has (vs : List α) : (ofList vs).Has 0 vs := by
  intro k hk
  rw [Nat.zero_add, ofList, read, List.getElem?_map, List.getElem?_eq_getElem hk]
  rfl

end Block
end Libls
