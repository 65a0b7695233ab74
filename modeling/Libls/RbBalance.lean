import Mathlib.Tactic
import Libls.RbTree

/-! # Colours and black heights

`RbOk t n` is the invariant that the comment at the head of `src/rbtree.c` states: no red node has
a red child, and every path down to a leaf has `n` black nodes.  `CtxOk ctx n` is the same of a
tree with a hole that is to be filled with a tree of black height `n`, and `MayBeRed ctx` says
that the top of that tree may be red.  `IsRb t` adds that the root is black.

The loop invariants are these three with one of them broken: in `__rb_insert` the top of the
subtree is red although it may not be, in `____rb_erase_color` the subtree has one black node too
few. -/

namespace Libls.Rb

open LinkedTree

variable {ι : Type}

/-! ### The invariant -/

/-- The colour of the top node; a leaf is black. -/
def color : LTree ι RbColor → RbColor
  | .nil => .black
  | .node _ _ c _ => c

/-- Black height `n`, and no red child of a red node. -/
def RbOk : LTree ι RbColor → ℕ → Prop
  | .nil, n => n = 0
  | .node l _ .red r, n => color l = .black ∧ color r = .black ∧ RbOk l n ∧ RbOk r n
  | .node l _ .black r, n => ∃ m, n = m + 1 ∧ RbOk l m ∧ RbOk r m

/-- The tree has the properties 1 to 5. -/
def IsRb (t : LTree ι RbColor) : Prop := color t = .black ∧ ∃ n, RbOk t n

/-- The hole may hold a red node. -/
def MayBeRed : List (Frame ι RbColor) → Prop
  | [] => False
  | f :: _ => f.tag = .black

/-- The tree around a hole, with a tree of black height `n` in the hole. -/
def CtxOk : List (Frame ι RbColor) → ℕ → Prop
  | [], _ => True
  | f :: ctx, n => RbOk f.sib n ∧
      match f.tag with
      | .black => CtxOk ctx (n + 1)
      | .red => color f.sib = .black ∧ MayBeRed ctx ∧ CtxOk ctx n

variable {d : Dir} {l r t : LTree ι RbColor} {x : ι} {c : RbColor} {n : ℕ}
  {ctx : List (Frame ι RbColor)}

@[simp] theorem color_nil : color (.nil : LTree ι RbColor) = .black := rfl
@[simp] theorem color_node : color (.node l x c r) = c := rfl
@[simp] theorem color_make : color (.make d l x c r) = c := by cases d <;> rfl

@[simp] theorem rbOk_nil : RbOk (.nil : LTree ι RbColor) n ↔ n = 0 := Iff.rfl

@[simp] theorem rbOk_red : RbOk (.make d l x .red r) n ↔
    color l = .black ∧ color r = .black ∧ RbOk l n ∧ RbOk r n := by
  cases d
  · exact Iff.rfl
  · show color r = .black ∧ color l = .black ∧ RbOk r n ∧ RbOk l n ↔ _
    tauto

@[simp] theorem rbOk_black : RbOk (.make d l x .black r) n ↔ ∃ m, n = m + 1 ∧ RbOk l m ∧ RbOk r m := by
  cases d
  · exact Iff.rfl
  · show (∃ m, n = m + 1 ∧ RbOk r m ∧ RbOk l m) ↔ _
    simp only [and_comm]

theorem rbOk_black_succ : RbOk (.make d l x .black r) (n + 1) ↔ RbOk l n ∧ RbOk r n := by
  rw [rbOk_black]
  constructor
  · rintro ⟨m, hm, h⟩
    obtain rfl : n = m := by omega
    exact h
  · exact fun h => ⟨n, rfl, h⟩

/-- A tree with a red top, or one that is too high for a leaf, is a node. -/
theorem exists_make_of_red (d : Dir) (h : color t = .red) : ∃ l x r, t = .make d l x .red r := by
  cases t with
  | nil => cases h
  | node l x c r =>
      cases h
      cases d
      · exact ⟨l, x, r, rfl⟩
      · exact ⟨r, x, l, rfl⟩

theorem exists_make_of_succ (d : Dir) (h : RbOk t (n + 1)) : ∃ l x c r, t = .make d l x c r := by
  cases t with
  | nil => cases h
  | node l x c r =>
      cases d
      · exact ⟨l, x, c, r, rfl⟩
      · exact ⟨r, x, c, l, rfl⟩

theorem isRb_fill (hctx : CtxOk ctx n) (ht : RbOk t n) (hred : color t = .red → MayBeRed ctx) :
    IsRb (fill ctx t) := by
  induction ctx generalizing t n with
  | nil =>
      refine ⟨?_, n, ht⟩
      cases hc : color t with
      | red => exact (hred hc).elim
      | black => exact hc
  | cons f ctx ih =>
      obtain ⟨d, x, c, sib⟩ := f
      obtain ⟨hsib, hctx⟩ := hctx
      cases c with
      | black => exact ih hctx (rbOk_black_succ.mpr ⟨ht, hsib⟩) (by simp [Frame.fill])
      | red =>
          obtain ⟨hblack, hmay, hctx⟩ := hctx
          have ht' : color t = .black := by
            cases hc : color t with
            | red => cases hred hc
            | black => rfl
          exact ih hctx (rbOk_red.mpr ⟨ht', hblack, ht, hsib⟩) fun _ => hmay

theorem of_isRb_fill (h : IsRb (fill ctx t)) :
    ∃ n, CtxOk ctx n ∧ RbOk t n ∧ (color t = .red → MayBeRed ctx) := by
  induction ctx generalizing t with
  | nil =>
      obtain ⟨hblack, n, hn⟩ := h
      have hb : color t = .black := hblack
      exact ⟨n, trivial, hn, fun hr => by rw [hb] at hr; cases hr⟩
  | cons f ctx ih =>
      obtain ⟨d, x, c, sib⟩ := f
      obtain ⟨n, hctx, hok, hred⟩ := ih h
      cases c with
      | black =>
          obtain ⟨m, rfl, ht, hsib⟩ := rbOk_black.mp hok
          exact ⟨m, ⟨hsib, hctx⟩, ht, fun _ => rfl⟩
      | red =>
          obtain ⟨hb, hsb, ht, hsib⟩ := rbOk_red.mp hok
          refine ⟨n, ⟨hsib, hsb, hred (by simp [Frame.fill]), hctx⟩, ht, fun hr => ?_⟩
          rw [hb] at hr
          cases hr

/-- The top of the tree may be red only where the context says so. -/
theorem CtxOk.mayBeRed_cases (h : CtxOk ctx n) (hm : MayBeRed ctx) :
    ∃ d x sib ctx', ctx = ⟨d, x, .black, sib⟩ :: ctx' ∧ RbOk sib n ∧ CtxOk ctx' (n + 1) := by
  cases ctx with
  | nil => exact hm.elim
  | cons f ctx =>
      obtain ⟨d, x, c, sib⟩ := f
      cases hm
      exact ⟨d, x, sib, ctx, rfl, h⟩

/-- The store is a red-black tree that holds the objects `S` from left to right. -/
def Holds (s : RbRoot ι) (S : List ι) : Prop := ∃ t, Focus s [] t ∧ IsRb t ∧ t.toList = S

theorem Holds.of_focus {s : RbRoot ι} (h : Focus s ctx t) (hctx : CtxOk ctx n) (ht : RbOk t n)
    (hred : color t = .red → MayBeRed ctx) : Holds s (fill ctx t).toList :=
  ⟨fill ctx t, Focus.fill_iff.mp h, isRb_fill hctx ht hred, rfl⟩

/-- Rotations keep the order of the nodes. -/
theorem toList_rotate {a b e : LTree ι RbColor} {p g : ι} {c₁ c₂ c₃ c₄ : RbColor} :
    (LTree.make d a p c₁ (.make d b g c₂ e)).toList =
      (LTree.make d (.make d a p c₃ b) g c₄ e).toList := by
  cases d <;> simp [LTree.make]

/-! ### Colours in memory -/

section memory

variable [DecidableEq ι] {s : RbRoot ι} {p : Option ι} {y : ι} {o par : Option ι}

@[simp] theorem rbSetParentColor_mem : (rbSetParentColor x p c s).mem y =
    if y = x then ((s.mem x).setParent p).setTag c else s.mem y := rfl

@[simp] theorem rbSetParentColor_root : (rbSetParentColor x p c s).root = s.root := rfl

@[simp] theorem rbSetParentColorOf_mem : (rbSetParentColorOf o p c s).mem y =
    if o = some y then ((s.mem y).setParent p).setTag c else s.mem y := by
  cases o with
  | none => rfl
  | some z =>
      by_cases h : y = z
      · subst h
        simp [rbSetParentColorOf]
      · simp [rbSetParentColorOf, h, Ne.symm h]

@[simp] theorem rbSetParentColorOf_root : (rbSetParentColorOf o p c s).root = s.root := by
  cases o <;> rfl

/-- Changing the colour only. -/
theorem rbSetParentColor_eq (h : (s.mem x).parent = p) : rbSetParentColor x p c s = s.setTag x c := by
  subst h
  rfl

omit [DecidableEq ι] in
theorem linked_color {m : ι → Cell ι RbColor} (h : Linked m par t) (hy : t.top = some y) :
    (m y).tag = color t := by
  cases t with
  | nil => cases hy
  | node l z c r =>
      cases hy
      rw [h.1]
      rfl

omit [DecidableEq ι] in
theorem rbIsRed_top (h : Linked s.mem par t) : rbIsRed t.top s = true ↔ color t = .red := by
  cases t with
  | nil => simp [rbIsRed]
  | node l z c r => simp [rbIsRed, rbColor, h.1]

omit [DecidableEq ι] in
theorem rbIsRed_top_black (h : Linked s.mem par t) (hc : color t = .black) : rbIsRed t.top s = false := by
  rw [Bool.eq_false_iff, Ne, rbIsRed_top h, hc]
  simp

omit [DecidableEq ι] in
/-- Setting the parent of a black tree and its colour at once. -/
theorem setParentColor_black {m : ι → Cell ι RbColor} (h : Linked m par t) (hb : color t = .black)
    (hy : t.top = some y) (p : Option ι) : ((m y).setParent p).setTag .black = (m y).setParent p := by
  have := linked_color h hy
  rw [hb] at this
  rw [Cell.setTag, ← this]
  rfl

end memory

/-! ### Walking -/

section walking

variable [DecidableEq ι] {s : RbRoot ι}

/-- A node of the tree is not empty. -/
theorem rbNext_eq (h : Focus s ctx (.node l x c r)) : rbNext x s = neighbour .right x s := by
  have hx : s.mem x = ⟨above ctx, c, l.top, r.top⟩ := h.linked.1
  have hempty : rbEmptyNode x s = false := by
    have hne : above ctx ≠ some x := fun e => h.apart x (by simp) (above_mem e)
    simp [rbEmptyNode, rbParent, hx, hne]
  unfold rbNext
  rw [hempty]
  rfl

/-- `rb_next` finds the node that follows in the sequence. -/
theorem rbNext_returns (h : Focus s ctx (.node l x c r)) :
    Prog.Returns (rbNext x s) (r.toList ++ after ctx).head? := by
  rw [rbNext_eq h]
  exact h.neighbour (d := .right)

end walking

theorem getLink_slot {ι : Type} {s : RbRoot ι} {ctx : List (Frame ι RbColor)} {t : LTree ι RbColor}
    (h : Focus s ctx t) : getLink (slot ctx) s = t.top := by
  cases ctx with
  | nil => exact h.ctx_linked
  | cons f ctx =>
      show (s.mem f.x).child f.dir = t.top
      rw [h.mem_above, Cell.make_child]

end Libls.Rb
