import Mathlib.Data.Int.Init
import Mathlib.Logic.Function.Basic

/-! # Heap order

The order of a priority queue comes from a C comparison function: `Comparison cmp` says that its
signs are those of a total preorder.  `Agrees cmp le` only says that they put nothing against `le`: what
is proved from it holds for any function whatever, with the `le` that relates everything.

The second part is about heaps in arrays, where the parent of slot `i` is slot `(i - 1) / 2`.
`HeapOrdered le a n` says that the first `n` slots are in heap order.  The algorithms move a hole
through the array: `HoleOrder le a n i` says that all slots but `i` are in order, `HoleOrder.up`
and `HoleOrder.down` move the hole, and `HoleOrder.fill` ends the journey. -/

namespace Libls

/-! ### Comparison functions -/

/-- The signs of a comparison function are those of a total preorder. -/
structure Comparison {κ : Type} (cmp : κ → κ → ℤ) : Prop where
  swap : ∀ a b, cmp a b ≤ 0 ↔ 0 ≤ cmp b a
  trans : ∀ a b c, cmp a b ≤ 0 → cmp b c ≤ 0 → cmp a c ≤ 0

namespace Comparison

variable {κ ι : Type} {cmp : κ → κ → ℤ} (h : Comparison cmp)

include h

theorem refl (a : κ) : cmp a a ≤ 0 := by
  have := h.swap a a
  omega

theorem le_of_pos {a b : κ} (hab : 0 < cmp a b) : cmp b a ≤ 0 := by
  have := h.swap b a
  omega

/-- Comparing objects by a key. -/
theorem comap (key : ι → κ) : Comparison fun a b => cmp (key a) (key b) :=
  ⟨fun _ _ => h.swap _ _, fun _ _ _ => h.trans _ _ _⟩

end Comparison

/-- Comparing integers by their difference. -/
theorem Comparison.sub : Comparison fun a b : ℤ => a - b :=
  ⟨fun a b => by omega, fun a b c => by omega⟩

/-- The order of a comparison function. -/
abbrev Le {ι : Type} (cmp : ι → ι → ℤ) : ι → ι → Prop := fun a b => cmp a b ≤ 0

/-- The signs of a comparison function are right about `le`. -/
structure Agrees {ι : Type} (cmp : ι → ι → ℤ) (le : ι → ι → Prop) : Prop where
  of_le : ∀ {a b}, cmp a b ≤ 0 → le a b
  of_ge : ∀ {a b}, 0 ≤ cmp a b → le b a
  trans : ∀ a b c, le a b → le b c → le a c

theorem Comparison.agrees {ι : Type} {cmp : ι → ι → ℤ} (h : Comparison cmp) : Agrees cmp (Le cmp) :=
  ⟨fun h => h, fun hab => (h.swap _ _).mpr hab, h.trans⟩

theorem Agrees.any {ι : Type} (cmp : ι → ι → ℤ) : Agrees cmp fun _ _ => True :=
  ⟨fun _ => trivial, fun _ => trivial, fun _ _ _ _ _ => trivial⟩

theorem Agrees.refl {ι : Type} {cmp : ι → ι → ℤ} {le : ι → ι → Prop} (h : Agrees cmp le) (a : ι) : le a a :=
  (Int.le_total (cmp a a) 0).elim h.of_le h.of_ge

/-- A comparison function on nodes, from one on the keys the nodes have now. -/
def nodeCmp {ι κ : Type} (cmp : κ → κ → ℤ) (key : ι → κ) : ι → ι → ℤ :=
  fun a b => cmp (key a) (key b)

/-! ### Heaps in arrays -/

section array

variable {ι : Type} {le : ι → ι → Prop} {a : ℕ → ι} {n i c : ℕ} {x : ι}

/-- The slot above slot `i`. -/
def par (i : ℕ) : ℕ := (i - 1) / 2

/-- No node is above the node in its parent's slot. -/
def HeapOrdered (le : ι → ι → Prop) (a : ℕ → ι) (n : ℕ) : Prop :=
  ∀ j, 0 < j → j < n → le (a j) (a (par j))

/-- All slots but `i` are in order, and so would be the children of `i` under its parent. -/
def HoleOrder (le : ι → ι → Prop) (a : ℕ → ι) (n i : ℕ) : Prop :=
  (∀ j, 0 < j → j < n → j ≠ i → par j ≠ i → le (a j) (a (par j))) ∧
    ∀ j, 0 < j → j < n → par j = i → 0 < i → le (a j) (a (par i))

theorem par_lt (h : 0 < i) : par i < i := by
  unfold par
  omega

theorem par_eq_iff (h : 0 < c) : par c = i ↔ c = 2 * i + 1 ∨ c = 2 * i + 2 := by
  unfold par
  omega

theorem HeapOrdered.hole (htrans : ∀ a b c, le a b → le b c → le a c) (h : HeapOrdered le a n)
    (hi : i < n) : HoleOrder le a n i := by
  refine ⟨fun j hj hjn _ _ => h j hj hjn, fun j hj hjn hji hi0 => ?_⟩
  have h1 := h j hj hjn
  rw [hji] at h1
  exact htrans _ _ _ h1 (h i hi0 hi)

/-- The top of a heap is above all its nodes. -/
theorem HeapOrdered.le_top (hrefl : ∀ a, le a a) (htrans : ∀ a b c, le a b → le b c → le a c)
    (h : HeapOrdered le a n) : ∀ j, j < n → le (a j) (a 0) := by
  intro j
  induction j using Nat.strongRecOn with
  | _ j ih =>
      intro hj
      by_cases h0 : j = 0
      · rw [h0]
        exact hrefl _
      · have hlt := par_lt (Nat.pos_of_ne_zero h0)
        exact htrans _ _ _ (h j (by omega) hj) (ih (par j) hlt (by omega))

namespace HoleOrder

theorem mono {m : ℕ} (h : HoleOrder le a n i) (hm : m ≤ n) : HoleOrder le a m i :=
  ⟨fun j hj hjm => h.1 j hj (by omega), fun j hj hjm => h.2 j hj (by omega)⟩

/-- The order does not depend on what is in the hole. -/
theorem set (h : HoleOrder le a n i) (x : ι) : HoleOrder le (Function.update a i x) n i := by
  refine ⟨fun j hj hjn hji hpi => ?_, fun j hj hjn hji hi0 => ?_⟩
  · rw [Function.update_of_ne hji, Function.update_of_ne hpi]
    exact h.1 j hj hjn hji hpi
  · have hne : par i ≠ i := Nat.ne_of_lt (par_lt hi0)
    have hji' : j ≠ i := by
      rintro rfl
      exact hne hji
    rw [Function.update_of_ne hji', Function.update_of_ne hne]
    exact h.2 j hj hjn hji hi0

/-- The hole moves up: the node above it comes down. -/
theorem up (htrans : ∀ a b c, le a b → le b c → le a c) (h : HoleOrder le a n i) (hi : 0 < i)
    (hin : i < n) : HoleOrder le (Function.update a i (a (par i))) n (par i) := by
  have hp : par i < i := par_lt hi
  refine ⟨fun j hj hjn hji hpi => ?_, fun j hj hjn hji hi0 => ?_⟩
  · have hne : j ≠ i := by
      rintro rfl
      exact hpi rfl
    rw [Function.update_of_ne hne]
    by_cases hji' : par j = i
    · rw [hji', Function.update_self]
      exact h.2 j hj hjn hji' hi
    · rw [Function.update_of_ne hji']
      exact h.1 j hj hjn hne hji'
  · have hpp : par (par i) < par i := par_lt hi0
    have hup : le (a (par i)) (a (par (par i))) := h.1 (par i) hi0 (by omega) (by omega) (by omega)
    rw [Function.update_of_ne (by omega : par (par i) ≠ i)]
    by_cases hne : j = i
    · rw [hne, Function.update_self]
      exact hup
    · rw [Function.update_of_ne hne]
      have h1 := h.1 j hj hjn hne (by omega)
      rw [hji] at h1
      exact htrans _ _ _ h1 hup

/-- The hole moves down: its largest child `c` comes up. -/
theorem down (h : HoleOrder le a n i) (hc : 0 < c) (hci : par c = i) (hcn : c < n)
    (hmax : ∀ j, 0 < j → j < n → par j = i → le (a j) (a c)) :
    HoleOrder le (Function.update a i (a c)) n c := by
  have hic : i < c := hci ▸ par_lt hc
  refine ⟨fun j hj hjn hjc hpc => ?_, fun j hj hjn hjc _ => ?_⟩
  · by_cases hji : j = i
    · subst hji
      have hpj := par_lt hj
      rw [Function.update_self, Function.update_of_ne (Nat.ne_of_lt hpj)]
      exact h.2 c hc hcn hci hj
    · rw [Function.update_of_ne hji]
      by_cases hpi : par j = i
      · rw [hpi, Function.update_self]
        exact hmax j hj hjn hpi
      · rw [Function.update_of_ne hpi]
        exact h.1 j hj hjn hji hpi
  · have hcj : c < j := hjc ▸ par_lt hj
    rw [hci, Function.update_self, Function.update_of_ne (by omega : j ≠ i)]
    have h1 := h.1 j hj hjn (by omega) (by omega)
    rwa [hjc] at h1

/-- Putting a node into the hole. -/
theorem fill (h : HoleOrder le a n i) (hup : 0 < i → le x (a (par i)))
    (hdown : ∀ j, 0 < j → j < n → par j = i → le (a j) x) :
    HeapOrdered le (Function.update a i x) n := by
  intro j hj hjn
  have hpj := par_lt hj
  by_cases hji : j = i
  · subst hji
    rw [Function.update_self, Function.update_of_ne (Nat.ne_of_lt hpj)]
    exact hup hj
  · rw [Function.update_of_ne hji]
    by_cases hpi : par j = i
    · rw [hpi, Function.update_self]
      exact hdown j hj hjn hpi
    · rw [Function.update_of_ne hpi]
      exact h.1 j hj hjn hji hpi

end HoleOrder
end array
end Libls
