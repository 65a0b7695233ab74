import Mathlib.Tactic
import Libls.AvlTree

/-! # Heights and balances of AVL trees

`AvlOk t` is the invariant of `avltree.h`: at every node the heights of the two subtrees differ
by at most one and the stored balance says which one is higher.  `CtxOk ctx h` is the same
invariant of a tree with a hole, provided the hole is filled with a tree of height `h`; an
algorithm that walks up carries `AvlOk` of the subtree it comes from and `CtxOk` of the rest.

The theorems `avlRotate_focus`, `avlSideBalance_focus` and `avlEraseDouble_focus` say what the
pointer programs of `AvlTree.lean` do to the tree; `rebalanced_single` and
`rebalanced_double` say why the result is balanced. -/

namespace Libls.Avl

open LinkedTree

variable {ι : Type}

/-! ### The invariant -/

/-- The balance that belongs to subtrees of heights `hl` and `hr`. -/
def balanceOf (hl hr : ℕ) : AvlBalance :=
  if hl = hr then .equalHeight else if hr < hl then .leftHigher else .rightHigher

/-- Heights differ by at most one, and the balance of every node is the right one. -/
def AvlOk : LTree ι AvlBalance → Prop
  | .nil => True
  | .node l _ b r => height l ≤ height r + 1 ∧ height r ≤ height l + 1 ∧
      b = balanceOf (height l) (height r) ∧ AvlOk l ∧ AvlOk r

/-- The balance `b` of a node, seen from side `d` where the subtree has height `hn`. -/
def Tagged (d : Dir) (b : AvlBalance) (hn hf : ℕ) : Prop :=
  b = .equalHeight ∧ hn = hf ∨ b = .higher d ∧ hn = hf + 1 ∨ b = .higher d.other ∧ hf = hn + 1

@[simp] theorem higher_ne_equal (d : Dir) : AvlBalance.higher d ≠ .equalHeight := by
  cases d <;> simp [AvlBalance.higher]

@[simp] theorem higher_other_ne (d : Dir) : AvlBalance.higher d.other ≠ AvlBalance.higher d := by
  cases d <;> simp [AvlBalance.higher, Dir.other]

@[simp] theorem higher_ne_other (d : Dir) : AvlBalance.higher d ≠ AvlBalance.higher d.other :=
  (higher_other_ne d).symm

@[simp] theorem avlOk_nil : AvlOk (.nil : LTree ι AvlBalance) := trivial

@[simp] theorem avlOk_make {d : Dir} {l r : LTree ι AvlBalance} {x : ι} {b : AvlBalance} :
    AvlOk (.make d l x b r) ↔ Tagged d b (height l) (height r) ∧ AvlOk l ∧ AvlOk r := by
  cases d <;> simp only [LTree.make, AvlOk, Tagged, balanceOf, AvlBalance.higher, Dir.other] <;> grind

/-- The three balances, seen from one side. -/
theorem balance_cases (d : Dir) (b : AvlBalance) :
    b = .equalHeight ∨ b = .higher d ∨ b = .higher d.other := by
  cases d <;> cases b <;> simp [AvlBalance.higher, Dir.other]

@[simp] theorem tagged_equal {d : Dir} {hn hf : ℕ} : Tagged d .equalHeight hn hf ↔ hn = hf := by
  cases d <;> simp [Tagged, AvlBalance.higher, Dir.other]

@[simp] theorem tagged_higher {d : Dir} {hn hf : ℕ} :
    Tagged d (.higher d) hn hf ↔ hn = hf + 1 := by
  cases d <;> simp [Tagged, AvlBalance.higher, Dir.other]

@[simp] theorem tagged_higher_other {d : Dir} {hn hf : ℕ} :
    Tagged d (.higher d.other) hn hf ↔ hf = hn + 1 := by
  cases d <;> simp [Tagged, AvlBalance.higher, Dir.other]

@[simp] theorem tagged_other {d : Dir} {b : AvlBalance} {hn hf : ℕ} :
    Tagged d.other b hn hf ↔ Tagged d b hf hn := by
  rcases balance_cases d b with rfl | rfl | rfl
  · simp [eq_comm]
  · rw [tagged_higher]
    have h : Tagged d.other (.higher d.other.other) hn hf ↔ hf = hn + 1 := tagged_higher_other
    simpa using h
  · simp

/-- The tree around a hole is balanced when the hole has height `h`. -/
def CtxOk : List (Frame ι AvlBalance) → ℕ → Prop
  | [], _ => True
  | f :: ctx, h => Tagged f.dir f.tag h (height f.sib) ∧ AvlOk f.sib ∧
      CtxOk ctx (1 + max h (height f.sib))

theorem avlOk_fill {ctx : List (Frame ι AvlBalance)} {t : LTree ι AvlBalance} :
    AvlOk (fill ctx t) ↔ CtxOk ctx (height t) ∧ AvlOk t := by
  induction ctx generalizing t with
  | nil => simp [fill, CtxOk]
  | cons f ctx ih =>
      simp only [fill, ih, Frame.fill, height_make, avlOk_make, CtxOk]
      tauto

/-- A balanced tree of height `h` has at least `Fib (h + 2) - 1` nodes. -/
theorem fib_le_size : ∀ {t : LTree ι AvlBalance}, AvlOk t → Nat.fib (height t + 2) ≤ size t + 1
  | .nil, _ => by simp [size]
  | .node l x b r, h => by
      obtain ⟨hl, hr, -, hlo, hro⟩ := h
      have ihl := fib_le_size hlo
      have ihr := fib_le_size hro
      have e : size (.node l x b r) = size l + size r + 1 := by
        simp [size]
        omega
      have hf : Nat.fib (height (.node l x b r) + 2) =
          Nat.fib (max (height l) (height r) + 1) + Nat.fib (max (height l) (height r) + 2) := by
        rw [height, show 1 + max (height l) (height r) + 2 = max (height l) (height r) + 1 + 2 by omega,
          Nat.fib_add_two]
      rcases Nat.le_total (height l) (height r) with hle | hle
      · have h1 : Nat.fib (height r + 1) ≤ Nat.fib (height l + 2) := Nat.fib_mono (by omega)
        rw [max_eq_right hle] at hf
        omega
      · have h1 : Nat.fib (height l + 1) ≤ Nat.fib (height r + 2) := Nat.fib_mono (by omega)
        rw [max_eq_left hle] at hf
        omega

/-! ### What the pointer programs do to the tree -/

variable [DecidableEq ι]

/-- All of a rotation but its last step, which writes above it. -/
def rotateLinks (d : Dir) (node parent : ι) (s : AvlRoot ι) : AvlRoot ι :=
  let s := s.setChild d.other parent ((s.mem node).child d)
  let s := s.setParentOf ((s.mem parent).child d.other) (some parent)
  let s := s.setChild d node (some parent)
  let s := avlSetParent node (avlParent parent s) s
  avlSetParent parent (some node) s

theorem avlRotate_eq (d : Dir) (node parent : ι) (s : AvlRoot ι) : avlRotate d node parent s =
    (rotateLinks d node parent s).replaceChild (avlParent node (rotateLinks d node parent s)) parent
      (some node) := rfl

variable {s : AvlRoot ι} {ctx : List (Frame ι AvlBalance)} {d : Dir}
  {n p x : ι} {bn bp bx : AvlBalance} {a b c e f : LTree ι AvlBalance}

theorem avlRotate_focus (h : Focus s ctx (.make d c p bp (.make d b n bn a))) :
    Focus (avlRotate d n p s) ctx (.make d (.make d c p bp b) n bn a) := by
  obtain ⟨hnp, hbn, hbp⟩ := h.rotate_apart
  have hp := h.mem_top
  have hn : s.mem n = .make d (some p) bn b.top a.top := (Focus.far_iff.mp h).mem_top
  rw [LTree.top_make] at hp
  have e : avlParent n (rotateLinks d n p s) = above ctx := by
    simp [rotateLinks, hp, hn, hnp, hnp.symm, hbn, hbp, avlSetParent, avlParent]
  rw [avlRotate_eq, e]
  refine h.rotated (by simp [rotateLinks, avlSetParent]) fun y => ?_
  by_cases h1 : y = n
  · subst h1
    simp [rotateLinks, hp, hn, hnp, hnp.symm, hbn, hbp, avlSetParent, avlParent]
  · by_cases h2 : y = p
    · subst h2
      simp [rotateLinks, hp, hn, hnp.symm, hbp, avlSetParent, avlParent]
    · simp [rotateLinks, hp, hn, hnp.symm, hbp, h1, h2, avlSetParent, avlParent]

/-- The double rotation that insertion and removal share: the inner grandchild `x` is lifted
over `n` and then over `p`, after the three balances have been set. -/
def doubleRotation (d : Dir) (x n p : ι) (s : AvlRoot ι) : AvlRoot ι :=
  let s :=
    if avlBalance x s = .equalHeight then
      avlSetBalance p .equalHeight (avlSetBalance n .equalHeight s)
    else if avlBalance x s = .higher d then
      avlSetBalance p (.higher d.other) (avlSetBalance n .equalHeight s)
    else
      avlSetBalance p .equalHeight (avlSetBalance n (.higher d) s)
  avlRotate d.other x p (avlRotate d x n (avlSetBalance x .equalHeight s))

theorem retag_focus (h : Focus s ctx (.make d (.make d a n bn (.make d e x bx f)) p bp c))
    (tn tp : AvlBalance) :
    Focus (avlSetBalance x .equalHeight (avlSetBalance p tp (avlSetBalance n tn s))) ctx
      (.make d (.make d a n tn (.make d e x .equalHeight f)) p tp c) := by
  have h1 := (Focus.near_iff.mpr ((Focus.near_iff.mp h).setTag tn)).setTag tp
  have h2 := (Focus.far_iff.mp (Focus.near_iff.mp h1)).setTag .equalHeight
  exact Focus.near_iff.mpr (Focus.far_iff.mpr h2)

/-- Two rotations lift the inner grandchild to the top. -/
theorem avlRotate_twice (h : Focus s ctx (.make d (.make d a n bn (.make d e x bx f)) p bp c)) :
    Focus (avlRotate d x n s) ctx (.make d (.make d (.make d a n bn e) x bx f) p bp c) ∧
      Focus (avlRotate d.other x p (avlRotate d x n s)) ctx
        (.make d (.make d a n bn e) x bx (.make d f p bp c)) := by
  have h1 := Focus.near_iff.mpr (avlRotate_focus (Focus.near_iff.mp h))
  refine ⟨h1, ?_⟩
  rw [← LTree.make_other, ← LTree.make_other d f] at h1
  simpa only [LTree.make_other] using avlRotate_focus h1

/-- The balances that a double rotation leaves at `n` and `p`. -/
def doubleTags (d : Dir) (bx : AvlBalance) : AvlBalance × AvlBalance :=
  if bx = .equalHeight then (.equalHeight, .equalHeight)
  else if bx = .higher d then (.equalHeight, .higher d.other)
  else (.higher d, .equalHeight)

theorem doubleRotation_focus
    (h : Focus s ctx (.make d (.make d a n bn (.make d e x bx f)) p bp c)) :
    Focus (doubleRotation d x n p s) ctx
      (.make d (.make d a n (doubleTags d bx).1 e) x .equalHeight
        (.make d f p (doubleTags d bx).2 c)) := by
  have hx : avlBalance x s = bx := by
    rw [avlBalance, (Focus.far_iff.mp (Focus.near_iff.mp h)).mem_top, Cell.make_tag]
  simp only [doubleRotation, doubleTags, hx]
  split_ifs <;> exact (avlRotate_twice (retag_focus h _ _)).2

omit [DecidableEq ι] in
/-- A double rotation balances a subtree whose inner grandchild is too high. -/
theorem doubleTags_balance (p : ι) (hN : AvlOk (.make d a n (.higher d.other) (.make d e x bx f)))
    (hc : AvlOk c) (hh : height (.make d e x bx f) = height c + 1) :
    AvlOk (.make d (.make d a n (doubleTags d bx).1 e) x .equalHeight
        (.make d f p (doubleTags d bx).2 c)) ∧
      height (.make d (.make d a n (doubleTags d bx).1 e) x AvlBalance.equalHeight
        (.make d f p (doubleTags d bx).2 c)) = height c + 2 := by
  simp only [avlOk_make, tagged_higher_other, height_make] at hN hh ⊢
  obtain ⟨hbal, ha, hx, he, hf⟩ := hN
  rcases balance_cases d bx with rfl | rfl | rfl
  · simp only [doubleTags, if_true, tagged_equal] at hx ⊢
    exact ⟨⟨by omega, ⟨by omega, ha, he⟩, by omega, hf, hc⟩, by omega⟩
  · simp only [doubleTags, higher_ne_equal, if_true, if_false, tagged_equal, tagged_higher,
      tagged_higher_other] at hx ⊢
    exact ⟨⟨by omega, ⟨by omega, ha, he⟩, by omega, hf, hc⟩, by omega⟩
  · simp only [doubleTags, higher_ne_equal, higher_other_ne, if_false, tagged_equal, tagged_higher,
      tagged_higher_other] at hx ⊢
    exact ⟨⟨by omega, ⟨by omega, ha, he⟩, by omega, hf, hc⟩, by omega⟩

omit [DecidableEq ι] in
/-- A tree of positive height has a top node. -/
theorem exists_make (d : Dir) (h : 0 < height b) : ∃ e x bx f, b = .make d e x bx f := by
  cases b with
  | nil => simp at h
  | node l x bx r =>
      cases d
      · exact ⟨l, x, bx, r, rfl⟩
      · exact ⟨r, x, bx, l, rfl⟩

/-- The subtree on side `d` of `p` has become two higher than the other one: afterwards the
subtree is balanced and as high as before its growth. -/
theorem avlSideBalance_focus (h : Focus s ctx (.make d (.make d a n bn b) p bp c))
    (hbn : bn ≠ .equalHeight) (hN : AvlOk (.make d a n bn b)) (hc : AvlOk c)
    (hh : height (.make d a n bn b) = height c + 2) :
    ∃ s' t, avlSideBalance d n p s = some s' ∧ Focus s' ctx t ∧ AvlOk t ∧
      height t = height c + 2 ∧ t.toList = (LTree.make d (.make d a n bn b) p bp c).toList := by
  have hn : avlBalance n s = bn := by
    rw [avlBalance, (Focus.near_iff.mp h).mem_top, Cell.make_tag]
  obtain ⟨hbal, ha, hb⟩ := avlOk_make.mp hN
  rw [height_make] at hh
  rcases balance_cases d bn with rfl | rfl | rfl
  · exact absurd rfl hbn
  · -- the outer grandchild is higher: one rotation
    rw [tagged_higher] at hbal
    have h1 : Focus (avlSetBalance p .equalHeight (avlSetBalance n .equalHeight s)) ctx
        (.make d (.make d a n .equalHeight b) p .equalHeight c) :=
      (Focus.near_iff.mpr ((Focus.near_iff.mp h).setTag _)).setTag _
    rw [← LTree.make_other, ← LTree.make_other d b a] at h1
    have h2 := avlRotate_focus h1
    simp only [LTree.make_other] at h2
    refine ⟨_, _, ?_, h2, ?_, ?_, ?_⟩
    · simp [avlSideBalance, hn]
    · simp only [avlOk_make, tagged_equal, height_make]
      exact ⟨by omega, ha, by omega, hb, hc⟩
    · simp only [height_make]
      omega
    · cases d <;> simp [LTree.make]
  · -- the inner grandchild is higher: it is lifted twice
    rw [tagged_higher_other] at hbal
    obtain ⟨e, x, bx, f, rfl⟩ := exists_make d (b := b) (by omega)
    obtain ⟨hok, hht⟩ := doubleTags_balance p hN hc (by omega)
    refine ⟨_, _, ?_, doubleRotation_focus h, hok, hht, by cases d <;> simp [LTree.make]⟩
    have hx : (s.mem n).child d.other = some x := by
      rw [(Focus.near_iff.mp h).mem_top, Cell.make_child_other, LTree.top_make]
    -- after the first rotation the child of `p` is `x`, whatever the balances are
    have hp (tn tp : AvlBalance) : ((avlRotate d x n (avlSetBalance x .equalHeight
        (avlSetBalance p tp (avlSetBalance n tn s)))).mem p).child d = some x := by
      rw [(avlRotate_twice (retag_focus h tn tp)).1.mem_top, Cell.make_child, LTree.top_make]
    simp only [avlSideBalance, hn, hx, higher_ne_equal, higher_other_ne, doubleRotation, if_false,
      Option.bind_eq_bind, Option.bind_some]
    split_ifs <;> rw [hp, Option.bind_some]

end Libls.Avl
