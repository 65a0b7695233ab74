import Mathlib.Tactic.Tauto
import Libls.Library.HeapOrder
import Libls.Library.LinkedTree

/-! # Heap-ordered trees

A priority queue keeps a linked tree in which no child compares greater than its parent.
`HeapOk le b t` says that `t` is heap-ordered and that its top is below the node `b` above it,
if there is one; `HeapCtx` says the same of a context.  The algorithms move one node whose
place is not yet known through the tree: `HoleOk ctx l r` says that everything around that node
is in order, and `HoleOk.up` and `HoleOk.down` say that this stays so while it moves. -/

namespace Libls.LinkedTree

variable {ι τ : Type}

/-! ### Heap order -/

/-- The node `x` is below the node a pointer refers to, if it refers to one. -/
def Below (le : ι → ι → Prop) (x : ι) (b : Option ι) : Prop := ∀ y, b = some y → le x y

/-- No child is above its parent, and the top node is below `b`. -/
def HeapOk (le : ι → ι → Prop) (b : Option ι) : LTree ι τ → Prop
  | .nil => True
  | .node l x _ r => Below le x b ∧ HeapOk le (some x) l ∧ HeapOk le (some x) r

/-- The part of a heap-ordered tree around a hole. -/
def HeapCtx (le : ι → ι → Prop) : List (Frame ι τ) → Prop
  | [] => True
  | f :: ctx => Below le f.x (above ctx) ∧ HeapOk le (some f.x) f.sib ∧ HeapCtx le ctx

/-- Heap order around a node of unknown rank, with the subtrees `l` and `r`. -/
def HoleOk (le : ι → ι → Prop) (ctx : List (Frame ι τ)) (l r : LTree ι τ) : Prop :=
  HeapCtx le ctx ∧ HeapOk le (above ctx) l ∧ HeapOk le (above ctx) r

section order

variable {le le' : ι → ι → Prop} {b : Option ι} {t l r : LTree ι τ} {ctx : List (Frame ι τ)}
  {f : Frame ι τ} {d : Dir} {x y : ι} {tag : τ}

@[simp] theorem below_none : Below le x none := by
  intro y hy
  cases hy

@[simp] theorem below_some : Below le x (some y) ↔ le x y :=
  ⟨fun h => h y rfl, fun h _ hz => Option.some.inj hz ▸ h⟩

@[simp] theorem heapOk_nil : HeapOk le b (.nil : LTree ι τ) := trivial

@[simp] theorem heapOk_make : HeapOk le b (.make d l x tag r) ↔
    Below le x b ∧ HeapOk le (some x) l ∧ HeapOk le (some x) r := by
  cases d with
  | left => exact Iff.rfl
  | right => exact and_congr Iff.rfl and_comm

theorem HeapOk.weaken (h : HeapOk le b t) {b' : Option ι}
    (hb : ∀ x, t.top = some x → Below le x b → Below le x b') : HeapOk le b' t := by
  cases t with
  | nil => trivial
  | node l x tag r => exact ⟨hb x rfl h.1, h.2⟩

theorem HeapOk.top_le (h : HeapOk le (some y) t) (hx : t.top = some x) : le x y := by
  cases t with
  | nil => cases hx
  | node l z tag r =>
      cases hx
      exact below_some.mp h.1

/-- A bound is a bound of the top node. -/
theorem HeapOk.bound (h : HeapOk le b t) (hx : ∀ y, t.top = some y → le y x) : HeapOk le (some x) t :=
  h.weaken fun y hy _ => below_some.mpr (hx y hy)

/-- A larger bound. -/
theorem HeapOk.mono (htrans : ∀ a b c, le a b → le b c → le a c) (h : HeapOk le (some x) t)
    {b : Option ι} (hx : Below le x b) : HeapOk le b t :=
  h.weaken fun y _ hy z hz => htrans y x z (below_some.mp hy) (hx z hz)

theorem HeapOk.congr (h : HeapOk le b t)
    (hle : ∀ x y, x ∈ t.toList → y ∈ t.toList ∨ b = some y → le x y → le' x y) :
    HeapOk le' b t := by
  induction t generalizing b with
  | nil => trivial
  | node l z tag r ihl ihr =>
      obtain ⟨hz, hl, hr⟩ := h
      refine ⟨fun y hy => hle z y (by simp) (.inr hy) (hz y hy), ihl hl ?_, ihr hr ?_⟩
      · intro x y hx hy
        refine hle x y (by simp [hx]) (.inl ?_)
        rcases hy with hy | hy
        · simp [hy]
        · simp [Option.some.inj hy]
      · intro x y hx hy
        refine hle x y (by simp [hx]) (.inl ?_)
        rcases hy with hy | hy
        · simp [hy]
        · simp [Option.some.inj hy]

theorem HeapCtx.congr (h : HeapCtx le ctx)
    (hle : ∀ x ∈ ctxNodes ctx, ∀ y ∈ ctxNodes ctx, le x y → le' x y) : HeapCtx le' ctx := by
  induction ctx with
  | nil => trivial
  | cons f ctx ih =>
      obtain ⟨hf, hs, hc⟩ := h
      refine ⟨fun y hy => ?_, hs.congr fun x y hx hy => ?_, ih hc fun x hx y hy => ?_⟩
      · exact hle f.x (by simp) y (by simp [above_mem hy]) (hf y hy)
      · refine hle x (by simp [hx]) y ?_
        rcases hy with hy | hy
        · simp [hy]
        · simp [Option.some.inj hy]
      · exact hle x (by simp [hx]) y (by simp [hy])

theorem heapOk_fill : HeapOk le none (fill ctx t) ↔ HeapCtx le ctx ∧ HeapOk le (above ctx) t := by
  induction ctx generalizing t with
  | nil => simp [fill, HeapCtx]
  | cons f ctx ih =>
      simp only [fill, ih, Frame.fill, heapOk_make, HeapCtx, above_cons]
      tauto

/-- The top of a heap-ordered tree is above all its nodes. -/
theorem HeapOk.le_top (hrefl : ∀ a, le a a) (htrans : ∀ a b c, le a b → le b c → le a c)
    (h : HeapOk le b t) (hx : t.top = some x) : ∀ y ∈ t.toList, le y x := by
  induction t generalizing b x with
  | nil => cases hx
  | node l z tag r ihl ihr =>
      cases hx
      obtain ⟨-, hl, hr⟩ := h
      have hside : ∀ u : LTree ι τ, HeapOk le (some z) u → (∀ w, u.top = some w → ∀ y ∈ u.toList, le y w) →
          ∀ y ∈ u.toList, le y z := by
        intro u hu ih y hy
        cases u with
        | nil => cases hy
        | node l' w tag' r' => exact htrans y w z (ih w rfl y hy) (below_some.mp hu.1)
      intro y hy
      simp only [LTree.toList_node, List.mem_append, List.mem_cons] at hy
      rcases hy with hy | rfl | hy
      · exact hside l hl (fun w hw => ihl hl hw) y hy
      · exact hrefl y
      · exact hside r hr (fun w hw => ihr hr hw) y hy

/-! ### Moving a node through the tree -/

/-- The node at the hole changes places with the one above it. -/
theorem HoleOk.up (htrans : ∀ a b c, le a b → le b c → le a c) (h : HoleOk le (f :: ctx) l r) :
    HoleOk le ctx (.make d l f.x tag r) f.sib := by
  obtain ⟨⟨hf, hs, hc⟩, hl, hr⟩ := h
  exact ⟨hc, heapOk_make.mpr ⟨hf, hl, hr⟩, hs.mono htrans hf⟩

/-- The node at the hole changes places with the child `x` below it. -/
theorem HoleOk.down {d' : Dir} {tag' : τ} {r' : LTree ι τ} (h : HoleOk le ctx (.make d l x tag r) r')
    (hr' : HeapOk le (some x) r') : HoleOk le (⟨d', x, tag', r'⟩ :: ctx) l r := by
  obtain ⟨hc, hl, -⟩ := h
  obtain ⟨hx, hl, hr⟩ := heapOk_make.mp hl
  exact ⟨⟨hx, hr', hc⟩, hl, hr⟩

theorem HoleOk.symm (h : HoleOk le ctx l r) : HoleOk le ctx r l := ⟨h.1, h.2.2, h.2.1⟩

/-- Putting a node into the hole. -/
theorem HoleOk.fill_node (h : HoleOk le ctx l r) (hx : Below le x (above ctx))
    (hl : HeapOk le (some x) l) (hr : HeapOk le (some x) r) :
    HeapOk le none (fill ctx (.make d l x tag r)) :=
  heapOk_fill.mpr ⟨h.1, heapOk_make.mpr ⟨hx, hl, hr⟩⟩

end order

end Libls.LinkedTree
