import Mathlib.Data.List.Nodup
import Mathlib.Data.List.Perm.Basic
import Mathlib.Tactic.Tauto

/-! # Binary trees linked by parent and child pointers

The intrusive trees of C libraries: every node is a memory cell with a parent pointer, two
child pointers and a small tag (a balance or a colour) kept beside the parent pointer, and a
root cell points at the top node.  Nodes are named by an arbitrary type `ι` of addresses, and
a pointer is an `Option ι` (`none` is the null pointer).

* `LTree` is the mathematical tree a set of linked cells stands for: its nodes are addresses,
  so two trees are equal only if they hold the same objects.
* `Linked m par t` says that the memory `m` links the nodes of `t` as `t`, below the parent
  pointer `par`; `LinkedCtx` says the same of a tree with a hole, given as the list of frames
  from the hole up to the root.
* `Focus s ctx t` puts both together: the store `s` is the tree `fill ctx t`, no address
  occurs twice, and an algorithm stands at the top of `t`.

`Cell.make d` and `LTree.make d` build a node from its child on side `d` and the other one, so
that a statement about mirror images is one statement about `d`.  Writes outside a tree keep
it (`Linked.congr`, `LinkedCtx.congr`), and `replaceChild_ctx` is the one way the algorithms
change the tree above the node they stand at. -/

namespace Libls.LinkedTree

variable {ι τ : Type}

/-! ### Directions and cells -/

/-- The two sides of a node. -/
inductive Dir where
  | left
  | right
deriving DecidableEq, Repr

def Dir.other : Dir → Dir
  | .left => .right
  | .right => .left

@[simp] theorem Dir.other_other (d : Dir) : d.other.other = d := by cases d <;> rfl

/-- A tree node in memory. -/
@[ext] structure Cell (ι τ : Type) where
  parent : Option ι
  tag : τ
  left : Option ι
  right : Option ι
deriving DecidableEq, Repr

namespace Cell

def child (c : Cell ι τ) : Dir → Option ι
  | .left => c.left
  | .right => c.right

def setParent (c : Cell ι τ) (p : Option ι) : Cell ι τ := { c with parent := p }

def setTag (c : Cell ι τ) (t : τ) : Cell ι τ := { c with tag := t }

def setChild (c : Cell ι τ) (d : Dir) (v : Option ι) : Cell ι τ :=
  match d with
  | .left => { c with left := v }
  | .right => { c with right := v }

/-- The cell whose child on side `d` is `near`. -/
def make (d : Dir) (parent : Option ι) (tag : τ) (near far : Option ι) : Cell ι τ :=
  match d with
  | .left => ⟨parent, tag, near, far⟩
  | .right => ⟨parent, tag, far, near⟩

variable (d : Dir) (p q : Option ι) (t u : τ) (a b v : Option ι)

@[simp] theorem make_other : make d.other p t a b = make d p t b a := by cases d <;> rfl
@[simp] theorem make_parent : (make d p t a b).parent = p := by cases d <;> rfl
@[simp] theorem make_tag : (make d p t a b).tag = t := by cases d <;> rfl
@[simp] theorem make_child : (make d p t a b).child d = a := by cases d <;> rfl
@[simp] theorem make_child_other : (make d p t a b).child d.other = b := by cases d <;> rfl

@[simp] theorem make_setParent : (make d p t a b).setParent q = make d q t a b := by
  cases d <;> rfl

@[simp] theorem make_setTag : (make d p t a b).setTag u = make d p u a b := by cases d <;> rfl

@[simp] theorem make_setChild : (make d p t a b).setChild d v = make d p t v b := by
  cases d <;> rfl

@[simp] theorem make_setChild_other : (make d p t a b).setChild d.other v = make d p t a v := by
  cases d <;> rfl

end Cell

/-! ### Stores -/

/-- The memory cells of all nodes, and the pointer to the top of the tree. -/
@[ext] structure Store (ι τ : Type) where
  mem : ι → Cell ι τ
  root : Option ι

namespace Store

variable [DecidableEq ι]

def write (s : Store ι τ) (x : ι) (c : Cell ι τ) : Store ι τ :=
  { s with mem := fun y => if y = x then c else s.mem y }

def setParent (s : Store ι τ) (x : ι) (p : Option ι) : Store ι τ := s.write x ((s.mem x).setParent p)

def setTag (s : Store ι τ) (x : ι) (t : τ) : Store ι τ := s.write x ((s.mem x).setTag t)

def setChild (s : Store ι τ) (d : Dir) (x : ι) (v : Option ι) : Store ι τ :=
  s.write x ((s.mem x).setChild d v)

/-- `if (o) set_parent(o, p)`. -/
def setParentOf (s : Store ι τ) (o p : Option ι) : Store ι τ :=
  match o with
  | none => s
  | some x => s.setParent x p

/-- Put `new` in the place of the child `old` of `parent`, or at the root if there is no
parent. -/
def replaceChild (s : Store ι τ) (parent : Option ι) (old : ι) (new : Option ι) : Store ι τ :=
  match parent with
  | none => { s with root := new }
  | some p => if (s.mem p).left = some old then s.setChild .left p new else s.setChild .right p new

variable (s : Store ι τ) (x y : ι) (c : Cell ι τ) (o p : Option ι) (t : τ) (d : Dir)

@[simp] theorem write_mem : (s.write x c).mem y = if y = x then c else s.mem y := rfl
@[simp] theorem write_root : (s.write x c).root = s.root := rfl

@[simp] theorem setParent_mem :
    (s.setParent x p).mem y = if y = x then (s.mem x).setParent p else s.mem y := rfl
@[simp] theorem setParent_root : (s.setParent x p).root = s.root := rfl

@[simp] theorem setTag_mem :
    (s.setTag x t).mem y = if y = x then (s.mem x).setTag t else s.mem y := rfl
@[simp] theorem setTag_root : (s.setTag x t).root = s.root := rfl

@[simp] theorem setChild_mem :
    (s.setChild d x o).mem y = if y = x then (s.mem x).setChild d o else s.mem y := rfl
@[simp] theorem setChild_root : (s.setChild d x o).root = s.root := rfl

@[simp] theorem setParentOf_mem :
    (s.setParentOf o p).mem y = if o = some y then (s.mem y).setParent p else s.mem y := by
  cases o with
  | none => rfl
  | some z =>
      by_cases h : y = z
      · subst h
        simp [setParentOf]
      · simp [setParentOf, h, Ne.symm h]

@[simp] theorem setParentOf_root : (s.setParentOf o p).root = s.root := by cases o <;> rfl

theorem replaceChild_mem_of_ne {parent : Option ι} (h : parent ≠ some y) (old : ι) (new : Option ι) :
    (s.replaceChild parent old new).mem y = s.mem y := by
  cases parent with
  | none => rfl
  | some q =>
      have hq : y ≠ q := fun e => h (by rw [e])
      simp only [replaceChild]
      split <;> simp [hq]

/-- A write to a node outside commutes with a change of the child above it. -/
theorem write_replaceChild {parent : Option ι} (h : parent ≠ some x) (old : ι) (new : Option ι) :
    (s.write x c).replaceChild parent old new = (s.replaceChild parent old new).write x c := by
  cases parent with
  | none => rfl
  | some q =>
      have hq : q ≠ x := fun e => h (by rw [e])
      simp only [replaceChild, write_mem, if_neg hq]
      split <;>
        (ext1
         · funext z
           by_cases hz : z = x <;> simp [hz, hq, hq.symm]
         · rfl)

end Store

/-! ### Trees -/

/-- Binary trees whose nodes are addresses with a tag. -/
inductive LTree (ι τ : Type) where
  | nil
  | node (l : LTree ι τ) (x : ι) (t : τ) (r : LTree ι τ)
deriving Repr

namespace LTree

/-- The pointer to the top node. -/
def top : LTree ι τ → Option ι
  | nil => none
  | node _ x _ _ => some x

/-- The nodes from left to right. -/
def toList : LTree ι τ → List ι
  | nil => []
  | node l x _ r => l.toList ++ x :: r.toList

/-- The tree whose subtree on side `d` is `near`. -/
def make (d : Dir) (near : LTree ι τ) (x : ι) (t : τ) (far : LTree ι τ) : LTree ι τ :=
  match d with
  | .left => node near x t far
  | .right => node far x t near

variable (d : Dir) (l r : LTree ι τ) (x y : ι) (t : τ)

@[simp] theorem top_nil : (nil : LTree ι τ).top = none := rfl
@[simp] theorem top_node : (node l x t r).top = some x := rfl
@[simp] theorem toList_nil : (nil : LTree ι τ).toList = [] := rfl
@[simp] theorem toList_node : (node l x t r).toList = l.toList ++ x :: r.toList := rfl
@[simp] theorem make_other : make d.other l x t r = make d r x t l := by cases d <;> rfl
@[simp] theorem top_make : (make d l x t r).top = some x := by cases d <;> rfl

@[simp] theorem mem_make : y ∈ (make d l x t r).toList ↔ y = x ∨ y ∈ l.toList ∨ y ∈ r.toList := by
  cases d <;> simp [make] <;> tauto

@[simp] theorem nodup_make : (make d l x t r).toList.Nodup ↔
    x ∉ l.toList ∧ x ∉ r.toList ∧ l.toList.Nodup ∧ r.toList.Nodup ∧
      ∀ y ∈ l.toList, y ∉ r.toList := by
  cases d <;> simp [make, List.nodup_append', List.disjoint_left] <;> grind

theorem top_mem {t : LTree ι τ} {x : ι} (h : t.top = some x) : x ∈ t.toList := by
  cases t with
  | nil => cases h
  | node l y u r =>
      cases h
      simp

end LTree

/-- The number of nodes on a longest path down from the top. -/
def height : LTree ι τ → ℕ
  | .nil => 0
  | .node l _ _ r => 1 + max (height l) (height r)

/-- The number of nodes of a tree. -/
def size (t : LTree ι τ) : ℕ := t.toList.length

@[simp] theorem height_nil : height (.nil : LTree ι τ) = 0 := rfl

@[simp] theorem height_make (d : Dir) (l r : LTree ι τ) (x : ι) (t : τ) :
    height (.make d l x t r) = 1 + max (height l) (height r) := by
  cases d
  · rfl
  · rw [Nat.max_comm]
    rfl

@[simp] theorem size_nil : size (.nil : LTree ι τ) = 0 := rfl

@[simp] theorem size_node (l r : LTree ι τ) (x : ι) (t : τ) :
    size (.node l x t r) = size l + size r + 1 := by
  simp [size]
  omega

@[simp] theorem size_make (d : Dir) (l r : LTree ι τ) (x : ι) (t : τ) :
    size (.make d l x t r) = size l + size r + 1 := by
  cases d <;> simp [LTree.make, Nat.add_comm]

theorem size_eq_zero {t : LTree ι τ} : size t = 0 ↔ t = .nil := by
  cases t <;> simp

/-- A node on the path from a hole to the root: the hole is below `x` on side `dir`. -/
structure Frame (ι τ : Type) where
  dir : Dir
  x : ι
  tag : τ
  sib : LTree ι τ

def Frame.fill (f : Frame ι τ) (t : LTree ι τ) : LTree ι τ := .make f.dir t f.x f.tag f.sib

/-- Fill the hole of a context, given from the hole upwards. -/
def fill : List (Frame ι τ) → LTree ι τ → LTree ι τ
  | [], t => t
  | f :: ctx, t => fill ctx (f.fill t)

/-- The pointer to the node above the hole. -/
def above : List (Frame ι τ) → Option ι
  | [] => none
  | f :: _ => some f.x

/-- The nodes of a context. -/
def ctxNodes : List (Frame ι τ) → List ι
  | [] => []
  | f :: ctx => f.x :: (f.sib.toList ++ ctxNodes ctx)

@[simp] theorem above_nil : above ([] : List (Frame ι τ)) = none := rfl
@[simp] theorem above_cons (f : Frame ι τ) (ctx : List (Frame ι τ)) : above (f :: ctx) = some f.x := rfl

@[simp] theorem ctxNodes_nil : ctxNodes ([] : List (Frame ι τ)) = [] := rfl
@[simp] theorem ctxNodes_cons (f : Frame ι τ) (ctx : List (Frame ι τ)) :
    ctxNodes (f :: ctx) = f.x :: (f.sib.toList ++ ctxNodes ctx) := rfl

theorem above_mem {ctx : List (Frame ι τ)} {x : ι} (h : above ctx = some x) : x ∈ ctxNodes ctx := by
  cases ctx with
  | nil => cases h
  | cons f ctx =>
      cases h
      simp

theorem fill_append (ctx₁ ctx₂ : List (Frame ι τ)) (t : LTree ι τ) :
    fill (ctx₁ ++ ctx₂) t = fill ctx₂ (fill ctx₁ t) := by
  induction ctx₁ generalizing t with
  | nil => rfl
  | cons f ctx₁ ih => exact ih (f.fill t)

theorem length_add_height_le (ctx : List (Frame ι τ)) (t : LTree ι τ) :
    ctx.length + height t ≤ height (fill ctx t) := by
  induction ctx generalizing t with
  | nil => simp [fill]
  | cons f ctx ih =>
      have := ih (f.fill t)
      rw [Frame.fill, height_make] at this
      rw [fill, Frame.fill, List.length_cons]
      omega

@[simp] theorem mem_fill {ctx : List (Frame ι τ)} {t : LTree ι τ} {x : ι} :
    x ∈ (fill ctx t).toList ↔ x ∈ t.toList ∨ x ∈ ctxNodes ctx := by
  induction ctx generalizing t with
  | nil => simp [fill]
  | cons f ctx ih =>
      simp only [fill, ih, Frame.fill, LTree.mem_make, ctxNodes_cons, List.mem_cons, List.mem_append]
      tauto

/-- The nodes to the left of the hole, from left to right. -/
def before : List (Frame ι τ) → List ι
  | [] => []
  | ⟨.left, _, _, _⟩ :: ctx => before ctx
  | ⟨.right, x, _, sib⟩ :: ctx => before ctx ++ (sib.toList ++ [x])

/-- The nodes to the right of the hole, from left to right. -/
def after : List (Frame ι τ) → List ι
  | [] => []
  | ⟨.left, x, _, sib⟩ :: ctx => x :: sib.toList ++ after ctx
  | ⟨.right, _, _, _⟩ :: ctx => after ctx

theorem toList_fill : ∀ (ctx : List (Frame ι τ)) (t : LTree ι τ),
    (fill ctx t).toList = before ctx ++ t.toList ++ after ctx
  | [], t => by simp [fill, before, after]
  | ⟨.left, x, u, sib⟩ :: ctx, t => by
      rw [fill, toList_fill ctx]
      simp [Frame.fill, LTree.make, before, after]
  | ⟨.right, x, u, sib⟩ :: ctx, t => by
      rw [fill, toList_fill ctx]
      simp [Frame.fill, LTree.make, before, after]

/-- The nodes of a context are those before and after its hole. -/
theorem ctxNodes_perm : ∀ ctx : List (Frame ι τ), (ctxNodes ctx).Perm (before ctx ++ after ctx)
  | [] => .nil
  | ⟨.left, x, u, sib⟩ :: ctx => by
      have ih := ctxNodes_perm ctx
      simp only [ctxNodes_cons, before, after, List.cons_append]
      exact ((ih.append_left sib.toList).trans (List.perm_append_comm_assoc _ _ _)).cons x |>.trans
        List.perm_middle.symm
  | ⟨.right, x, u, sib⟩ :: ctx => by
      have ih := ctxNodes_perm ctx
      simp only [ctxNodes_cons, before, after]
      have h1 : (x :: sib.toList).Perm (sib.toList ++ [x]) := (List.perm_append_singleton x _).symm
      have h2 := h1.append ih
      rw [List.cons_append] at h2
      refine h2.trans ?_
      rw [List.append_assoc (before ctx)]
      exact List.perm_append_comm_assoc _ _ _

/-! ### Linked trees -/

/-- The nodes of `t` are linked as `t`, below the parent pointer `par`. -/
def Linked (m : ι → Cell ι τ) (par : Option ι) : LTree ι τ → Prop
  | .nil => True
  | .node l x t r => m x = ⟨par, t, l.top, r.top⟩ ∧ Linked m (some x) l ∧ Linked m (some x) r

/-- The nodes of a context are linked as the context, with the pointer `hole` in its hole. -/
def LinkedCtx (m : ι → Cell ι τ) (root hole : Option ι) : List (Frame ι τ) → Prop
  | [] => root = hole
  | f :: ctx => m f.x = .make f.dir (above ctx) f.tag hole f.sib.top ∧
      Linked m (some f.x) f.sib ∧ LinkedCtx m root (some f.x) ctx

section linked

variable {m m' : ι → Cell ι τ} {par q root hole : Option ι} {t : LTree ι τ} {ctx : List (Frame ι τ)}

@[simp] theorem linked_nil : Linked m par .nil := trivial

@[simp] theorem linked_make {d : Dir} {l r : LTree ι τ} {x : ι} {u : τ} :
    Linked m par (.make d l x u r) ↔
      m x = .make d par u l.top r.top ∧ Linked m (some x) l ∧ Linked m (some x) r := by
  cases d with
  | left => exact Iff.rfl
  | right => exact and_congr Iff.rfl and_comm

theorem Linked.congr (h : Linked m par t) (hm : ∀ x ∈ t.toList, m' x = m x) : Linked m' par t := by
  induction t generalizing par with
  | nil => trivial
  | node l x tag r ihl ihr =>
      obtain ⟨hx, hl, hr⟩ := h
      refine ⟨?_, ihl hl fun y hy => hm y ?_, ihr hr fun y hy => hm y ?_⟩
      · rw [hm x (by simp), hx]
      · simp [hy]
      · simp [hy]

/-- Giving the top node of a tree another parent. -/
theorem Linked.reparent [DecidableEq ι] (h : Linked m par t) (hn : t.toList.Nodup)
    (hm : ∀ x ∈ t.toList, m' x = if t.top = some x then (m x).setParent q else m x) :
    Linked m' q t := by
  cases t with
  | nil => trivial
  | node l x tag r =>
      obtain ⟨hx, hl, hr⟩ := h
      simp only [LTree.toList_node, LTree.top_node, List.mem_append, List.mem_cons,
        Option.some.injEq] at hm
      simp only [LTree.toList_node, List.nodup_append', List.nodup_cons, List.disjoint_left] at hn
      refine ⟨?_, hl.congr fun y hy => ?_, hr.congr fun y hy => ?_⟩
      · rw [hm x (by simp), if_pos rfl, hx]
        rfl
      · rw [hm y (.inl hy), if_neg]
        rintro rfl
        exact hn.2.2 hy (by simp)
      · rw [hm y (.inr (.inr hy)), if_neg]
        rintro rfl
        exact hn.2.1.1 hy

theorem LinkedCtx.congr (h : LinkedCtx m root hole ctx) (hm : ∀ x ∈ ctxNodes ctx, m' x = m x) :
    LinkedCtx m' root hole ctx := by
  induction ctx generalizing hole with
  | nil => exact h
  | cons f ctx ih =>
      obtain ⟨hx, hs, hc⟩ := h
      refine ⟨?_, hs.congr fun y hy => hm y ?_, ih hc fun y hy => hm y ?_⟩
      · rw [hm f.x (by simp), hx]
      · simp [hy]
      · simp [hy]

end linked

/-- The store holds `fill ctx t`, and nothing in it twice. -/
structure Focus (s : Store ι τ) (ctx : List (Frame ι τ)) (t : LTree ι τ) : Prop where
  ctx_linked : LinkedCtx s.mem s.root t.top ctx
  linked : Linked s.mem (above ctx) t
  ctx_nodup : (ctxNodes ctx).Nodup
  nodup : t.toList.Nodup
  apart : ∀ x ∈ t.toList, x ∉ ctxNodes ctx

namespace Focus

variable {s s' : Store ι τ} {ctx : List (Frame ι τ)} {t u : LTree ι τ} {f : Frame ι τ}

/-- A null root pointer is the empty tree. -/
theorem empty (h : s.root = none) : Focus s [] .nil := ⟨h, trivial, .nil, .nil, by simp⟩

/-- Moving the focus between a node and its child. -/
theorem cons_iff : Focus s (f :: ctx) t ↔ Focus s ctx (f.fill t) := by
  constructor
  · rintro ⟨⟨hx, hs, hc⟩, hl, hcn, hn, ha⟩
    simp only [ctxNodes_cons, List.nodup_cons, List.nodup_append', List.disjoint_left,
      List.mem_append, List.mem_cons, not_or] at hcn ha
    refine ⟨by simpa [Frame.fill] using hc, ?_, hcn.2.2.1, ?_, ?_⟩
    · simpa [Frame.fill] using ⟨hx, hl, hs⟩
    · simp only [Frame.fill, LTree.nodup_make]
      grind
    · simp only [Frame.fill, LTree.mem_make]
      grind
  · rintro ⟨hc, hl, hcn, hn, ha⟩
    simp only [Frame.fill, LTree.top_make] at hc
    simp only [Frame.fill, linked_make] at hl
    simp only [Frame.fill, LTree.nodup_make, LTree.mem_make] at hn ha
    refine ⟨⟨hl.1, hl.2.2, hc⟩, hl.2.1, ?_, hn.2.2.1, ?_⟩
    · simp only [ctxNodes_cons, List.nodup_cons, List.nodup_append', List.disjoint_left,
        List.mem_append]
      grind
    · simp only [ctxNodes_cons, List.mem_append, List.mem_cons]
      grind

theorem near_iff {d : Dir} {x : ι} {tag : τ} :
    Focus s ctx (.make d t x tag u) ↔ Focus s (⟨d, x, tag, u⟩ :: ctx) t := by
  rw [cons_iff, Frame.fill]

theorem far_iff {d : Dir} {x : ι} {tag : τ} :
    Focus s ctx (.make d t x tag u) ↔ Focus s (⟨d.other, x, tag, t⟩ :: ctx) u := by
  rw [cons_iff, Frame.fill, LTree.make_other]

theorem append_iff {ctx₁ ctx₂ : List (Frame ι τ)} :
    Focus s (ctx₁ ++ ctx₂) t ↔ Focus s ctx₂ (fill ctx₁ t) := by
  induction ctx₁ generalizing t with
  | nil => rfl
  | cons f ctx₁ ih => rw [List.cons_append, cons_iff, ih, fill]

/-- The focus can always be moved to the root. -/
theorem fill_iff : Focus s ctx t ↔ Focus s [] (fill ctx t) := by
  have h : Focus s (ctx ++ []) t ↔ Focus s [] (fill ctx t) := append_iff
  rwa [List.append_nil] at h

/-- The cell of the node in focus. -/
theorem mem_top {d : Dir} {l r : LTree ι τ} {x : ι} {tag : τ}
    (h : Focus s ctx (.make d l x tag r)) : s.mem x = .make d (above ctx) tag l.top r.top :=
  (linked_make.mp h.linked).1

/-- The parent pointer of the node in focus. -/
theorem parent_top {x : ι} (h : Focus s ctx t) (hx : t.top = some x) :
    (s.mem x).parent = above ctx := by
  cases t with
  | nil => cases hx
  | node l y tag r =>
      cases hx
      rw [h.linked.1]

/-- The cell of the node above the focus. -/
theorem mem_above (h : Focus s (f :: ctx) t) :
    s.mem f.x = .make f.dir (above ctx) f.tag t.top f.sib.top := h.ctx_linked.1

/-- A store that agrees on all nodes of the tree, and has the same root, holds the same tree. -/
theorem congr (h : Focus s ctx t) (hroot : s'.root = s.root)
    (hm : ∀ x, x ∈ t.toList ∨ x ∈ ctxNodes ctx → s'.mem x = s.mem x) : Focus s' ctx t := by
  refine ⟨?_, h.linked.congr fun x hx => hm x (.inl hx), h.ctx_nodup, h.nodup, h.apart⟩
  rw [hroot]
  exact h.ctx_linked.congr fun x hx => hm x (.inr hx)

end Focus
end Libls.LinkedTree
