import Mathlib.Tactic
import Libls.Library.Aggregates
import Libls.RbInsert
import Libls.RbAugmented

/-! # The callbacks of `RB_DECLARE_CALLBACKS`

The macro makes the three callbacks from a function `rbcompute` that computes the value of a node.  They
are right if that function reads the data of the node and the values of its children only
(`ComputesFrom`), and if it does not see rotations (`RotationLaw`).

The invariant is `RightValues`: all nodes of the tree have the values that `rbcompute` gives them.  The
loops of `__rb_insert` and `____rb_erase_color` keep it, since each of their rotations comes with a call
of `rotate`; `propagate` restores it on the way up from a node whose value is stale. -/

namespace Libls.Rb

open LinkedTree

variable {ι α β : Type} [DecidableEq ι]

/-! ### The macro -/

/-- What the tree nodes are embedded in: the field `rbaugmented`, and everything else. -/
structure RbStruct (α β : Type) where
  data : α
  rbaugmented : β

/-- The memory of all these structures. -/
abbrev RbStructs (ι α β : Type) := ι → RbStruct α β

namespace RbStructs

def datas (a : RbStructs ι α β) (x : ι) : α := (a x).data

def values (a : RbStructs ι α β) (x : ι) : β := (a x).rbaugmented

/-- `x->rbaugmented = v` -/
def setAugmented (a : RbStructs ι α β) (x : ι) (v : β) : RbStructs ι α β :=
  fun y => if y = x then ⟨(a x).data, v⟩ else a y

variable (a : RbStructs ι α β) (x y : ι) (v : β)

@[simp] theorem datas_setAugmented : (a.setAugmented x v).datas = a.datas := by
  funext y
  by_cases h : y = x
  · subst h
    simp [datas, setAugmented]
  · simp [datas, setAugmented, h]

@[simp] theorem values_setAugmented : (a.setAugmented x v).values y = if y = x then v else a.values y := by
  by_cases h : y = x
  · subst h
    simp [values, setAugmented]
  · simp [values, setAugmented, h]

end RbStructs

section callbacks

variable [DecidableEq β] (rbcompute : ι → RbRoot ι → RbStructs ι α β → β)

/-- One pass of the loop of `rbname_propagate`. -/
def propagateStep (stop : Option ι) (s : RbRoot ι) (p : Option ι × RbStructs ι α β) :
    Option (Iter (Option ι × RbStructs ι α β) (RbStructs ι α β)) :=
  let (rb, a) := p
  if rb = stop then some (.done a)
  else do
    let rb ← rb
    let augmented := rbcompute rb s a
    if a.values rb = augmented then return .done a
    else return .next (rbParent rb s, a.setAugmented rb augmented)

/-- `rbname_propagate` -/
def rbPropagate (rb stop : Option ι) (s : RbRoot ι) (a : RbStructs ι α β) : Prog (RbStructs ι α β) :=
  Prog.iterate (fun p => liftM (propagateStep rbcompute stop s p)) (rb, a)

/-- `rbname_copy` -/
def rbCopy (old new : ι) (_ : RbRoot ι) (a : RbStructs ι α β) : RbStructs ι α β :=
  a.setAugmented new (a.values old)

/-- `rbname_rotate` -/
def rbRotate (old new : ι) (s : RbRoot ι) (a : RbStructs ι α β) : RbStructs ι α β :=
  let a := a.setAugmented new (a.values old)
  a.setAugmented old (rbcompute old s a)

/-- `RB_DECLARE_CALLBACKS` -/
def rbDeclareCallbacks : RbAugmentCallbacks ι (RbStructs ι α β) :=
  ⟨rbPropagate rbcompute, rbCopy, rbRotate rbcompute⟩

end callbacks

/-! ### Right values -/

/-- `rbcompute(node)` reads the data of the node and the values of its children. -/
def ComputesFrom (rbcompute : ι → RbRoot ι → RbStructs ι α β → β) (comb : α → Option β → Option β → β) : Prop :=
  ∀ x s a, rbcompute x s a = comb (a.datas x) ((s.mem x).left.map a.values) ((s.mem x).right.map a.values)

/-- All nodes of the tree have right values. -/
def RightValues (comb : α → Option β → Option β → β) (s : RbRoot ι) (a : RbStructs ι α β) : Prop :=
  ∀ t, Focus s [] t → Cached comb a.datas a.values t

variable {comb : α → Option β → Option β → β} {rbcompute : ι → RbRoot ι → RbStructs ι α β → β}
  {s s' s₁ : RbRoot ι} {a : RbStructs ι α β} {ctx : List (Frame ι RbColor)} {d : Dir}
  {t u l b c e : LTree ι RbColor} {n p g x y z : ι} {tn tn' tp tp' tg tg' cx : RbColor} {k m : ℕ}

omit [DecidableEq ι] in
theorem ComputesFrom.on (h : ComputesFrom rbcompute comb) (d : Dir) (x : ι) (s : RbRoot ι) (a : RbStructs ι α β) :
    rbcompute x s a = combOn comb d (a.datas x) (((s.mem x).child d).map a.values)
      (((s.mem x).child d.other).map a.values) := by
  rw [h]
  cases d <;> rfl

omit [DecidableEq ι] in
theorem RightValues.of_focus (h : Focus s ctx t) (hc : Cached comb a.datas a.values (fill ctx t)) :
    RightValues comb s a := by
  intro t' h'
  have hf := Focus.fill_iff.mp h
  exact hc.of_linked hf.linked h'.linked (h'.ctx_linked.symm.trans hf.ctx_linked) fun _ _ => ⟨rfl, rfl⟩

omit [DecidableEq ι] in
theorem RightValues.cached (h : RightValues comb s a) (hf : Focus s ctx t) :
    Cached comb a.datas a.values (fill ctx t) := h _ (Focus.fill_iff.mp hf)

omit [DecidableEq ι] in
/-- Colours and parent pointers do not matter. -/
theorem RightValues.recolored (h : RightValues comb s a) (hf : Focus s ctx t) (hroot : s'.root = s.root)
    (hm : ∀ y, (s'.mem y).left = (s.mem y).left ∧ (s'.mem y).right = (s.mem y).right) :
    RightValues comb s' a := by
  intro t' h'
  have hf' := Focus.fill_iff.mp hf
  exact (h.cached hf).of_linked hf'.linked h'.linked
    (h'.ctx_linked.symm.trans (hroot.trans hf'.ctx_linked)) fun y _ => hm y

@[simp] theorem datas_rbRotate : (rbRotate rbcompute g p s a).datas = a.datas := by simp [rbRotate]

/-- `rotate` makes right values of right values, if it sees the new children of the lower node. -/
theorem rbRotate_cached (hcomp : ComputesFrom rbcompute comb) (hrot : RotationLaw comb)
    (h : Cached comb a.datas a.values (fill ctx (.make d (.make d t p tp b) g tg c)))
    (hnd : (fill ctx (.make d (.make d t p tp b) g tg c)).toList.Nodup)
    (hg : (s.mem g).child d = b.top ∧ (s.mem g).child d.other = c.top) :
    Cached comb (rbRotate rbcompute g p s a).datas (rbRotate rbcompute g p s a).values
      (fill ctx (.make d t p tp' (.make d b g tg' c))) := by
  have hpos : (LTree.make d (.make d t p tp b) g tg c).toList.Nodup := by
    rw [toList_fill] at hnd
    exact (List.nodup_append'.mp (List.nodup_append'.mp hnd).1).2.1
  simp only [LTree.nodup_make, LTree.mem_make, not_or] at hpos
  have hpg : p ≠ g := by grind
  have hbp : ∀ o : Option ι, o = b.top ∨ o = c.top → o.map (a.setAugmented p (a.values g)).values =
      o.map a.values := by
    rintro (_ | y) hy
    · rfl
    · have hyp : y ≠ p := by
        rintro rfl
        rcases hy with hy | hy
        · exact hpos.2.2.1.2.1 (LTree.top_mem hy.symm)
        · exact hpos.2.2.2.2 y (.inl rfl) (LTree.top_mem hy.symm)
      simp [hyp]
  rw [datas_rbRotate]
  refine Cached.rotated hrot h hnd ?_ ?_ ?_
  · simp [rbRotate, hpg]
  · rw [rbRotate]
    simp only [RbStructs.values_setAugmented, if_true]
    rw [hcomp.on d, hg.1, hg.2, RbStructs.datas_setAugmented, hbp _ (.inl rfl), hbp _ (.inr rfl)]
  · intro y hyp hyg
    simp [rbRotate, hyp, hyg]

/-- A single rotation. -/
theorem RightValues.rotated (hcomp : ComputesFrom rbcompute comb) (hrot : RotationLaw comb)
    (h : RightValues comb s a) (hf : Focus s ctx (.make d (.make d t p tp b) g tg c))
    (hf' : Focus s' ctx (.make d t p tp' (.make d b g tg' c))) :
    RightValues comb s' (rbRotate rbcompute g p s' a) := by
  have hg := (Focus.far_iff.mp hf').mem_top
  refine .of_focus hf' (rbRotate_cached hcomp hrot (h.cached hf) (Focus.fill_iff.mp hf).nodup ?_)
  rw [hg, Cell.make_child, Cell.make_child_other]
  exact ⟨rfl, rfl⟩

/-- A double rotation; `s₁` is the store between the two, as far as the lower node sees it. -/
theorem RightValues.doubleRotated (hcomp : ComputesFrom rbcompute comb) (hrot : RotationLaw comb)
    (h : RightValues comb s a) (hf : Focus s ctx (.make d (.make d t p tp (.make d b n tn e)) g tg u))
    (hf' : Focus s' ctx (.make d (.make d t p tp' b) n tn' (.make d e g tg' u)))
    (hp : (s₁.mem p).child d = t.top ∧ (s₁.mem p).child d.other = b.top) :
    RightValues comb s' (rbRotate rbcompute g n s' (rbRotate rbcompute p n s₁ a)) := by
  have hnear := Focus.fill_iff.mp (Focus.near_iff.mp hf)
  have h₀ := h.cached (Focus.near_iff.mp hf)
  have hnd₀ := hnear.nodup
  rw [← LTree.make_other d, ← LTree.make_other d e] at h₀ hnd₀
  have h₁ : Cached comb (rbRotate rbcompute p n s₁ a).datas (rbRotate rbcompute p n s₁ a).values
      (fill (⟨d, g, tg, u⟩ :: ctx) (.make d.other e n tn (.make d.other b p tp' t))) := by
    refine rbRotate_cached hcomp hrot h₀ hnd₀ ?_
    rw [Dir.other_other]
    exact ⟨hp.2, hp.1⟩
  rw [LTree.make_other, LTree.make_other] at h₁
  have hnd₁ : (fill (⟨d, g, tg, u⟩ :: ctx) (.make d (.make d t p tp' b) n tn e)).toList.Nodup := by
    have hL : (LTree.make d t p tp (.make d b n tn e)).toList =
        (LTree.make d (.make d t p tp' b) n tn e).toList := toList_rotate
    have hnd' := hnear.nodup
    rwa [toList_fill, hL, ← toList_fill] at hnd'
  have hg := (Focus.far_iff.mp hf').mem_top
  refine .of_focus hf' (rbRotate_cached hcomp hrot h₁ hnd₁ ?_)
  rw [hg, Cell.make_child, Cell.make_child_other]
  exact ⟨rfl, rfl⟩

theorem rbSetParentColor_children (x : ι) (p : Option ι) (c : RbColor) (s : RbRoot ι) (y : ι) :
    ((rbSetParentColor x p c s).mem y).left = (s.mem y).left ∧
      ((rbSetParentColor x p c s).mem y).right = (s.mem y).right := by
  rw [rbSetParentColor_mem]
  by_cases hy : y = x
  · subst hy
    rw [if_pos rfl]
    exact ⟨rfl, rfl⟩
  · rw [if_neg hy]
    exact ⟨rfl, rfl⟩

theorem RightValues.setParentColor (h : RightValues comb s a) (hf : Focus s ctx t) (o : Option ι) :
    RightValues comb (rbSetParentColor x o cx s) a :=
  h.recolored hf rfl fun y => rbSetParentColor_children x o cx s y

/-! ### The loop of `__rb_insert` -/

/-- The values are right after the pass of a loop that keeps the tree in `root`, and the data are still
the same. -/
def PassRight {σ : Type} (comb : α → Option β → Option β → β) (data : ι → α) (root : σ → RbRoot ι) :
    Iter (σ × RbStructs ι α β) (RbRoot ι × RbStructs ι α β) → Prop :=
  Iter.All (fun p => RightValues comb (root p.1) p.2 ∧ p.2.datas = data)
    fun r => RightValues comb r.1 r.2 ∧ r.2.datas = data

/-- Cases 2 and 3 with the node as the inner child. -/
theorem insertInner_right (hcomp : ComputesFrom rbcompute comb) (hrot : RotationLaw comb)
    (h : Focus s ctx (.make d (.make d t p .red (.make d b n .red e)) g .black u))
    (hb : color b = .black) (he : color e = .black) (hr : RightValues comb s a) :
    ∃ s₁, rbInsertInner d n p s = (n, e.top, s₁) ∧
      RightValues comb (rbInsertOuter d n g e.top s₁) (rbRotate rbcompute g n
        (rbInsertOuter d n g e.top s₁) (rbRotate rbcompute p n s₁ a)) := by
  have hp : s.mem p = .make d (some g) .red t.top (some n) := by
    simpa using (Focus.near_iff.mp h).mem_top
  have hn : s.mem n = .make d (some p) .red b.top e.top :=
    (Focus.far_iff.mp (Focus.near_iff.mp h)).mem_top
  have hnd := h.nodup
  simp only [LTree.nodup_make, LTree.mem_make, not_or] at hnd
  have hnp : n ≠ p := by grind
  have hbn : b.top ≠ some n := fun e => by grind [LTree.top_mem e]
  have hbp : b.top ≠ some p := fun e => by grind [LTree.top_mem e]
  obtain ⟨s₁, hinner, hf, -⟩ := rbInsertInner_focus h hb he
  obtain ⟨s₁', hinner', -, hmem⟩ := rbInsertInner_mem hnp hbn hbp hn hp
  obtain rfl : s₁' = s₁ := by
    rw [hinner'] at hinner
    exact congrArg (fun r => r.2.2) hinner
  refine ⟨s₁', hinner, hr.doubleRotated hcomp hrot h hf ?_⟩
  rw [hmem, if_pos rfl, Cell.make_child, Cell.make_child_other]
  exact ⟨rfl, rfl⟩

theorem insertArm_right [DecidableEq β] {df : Dir} (hcomp : ComputesFrom rbcompute comb) (hrot : RotationLaw comb)
    (hn : t.top = some n) (ht : color t = .red)
    (h : Focus s ctx (.make d (.make df t p .red b) g .black u)) (hb : color b = .black) (htm : RbOk t m)
    (hr : RightValues comb s a) :
    PassRight comb a.datas RbInsertLoop.root ((rbDeclareCallbacks rbcompute).insertArm d n p g s a) := by
  have hend : RightValues comb (rbInsertOuter d (rbInsertInner d n p s).1 g (rbInsertInner d n p s).2.1
      (rbInsertInner d n p s).2.2) (rbRotate rbcompute g (rbInsertInner d n p s).1 (rbInsertOuter d
        (rbInsertInner d n p s).1 g (rbInsertInner d n p s).2.1 (rbInsertInner d n p s).2.2)
        (if (s.mem p).child d.other = some n then rbRotate rbcompute p n (rbInsertInner d n p s).2.2 a
          else a)) := by
    obtain ⟨b', x, e, rfl⟩ := exists_make_of_red d ht
    obtain rfl : x = n := by simpa using hn
    obtain ⟨hb', he, -, -⟩ := rbOk_red.mp htm
    by_cases hdf : df = d
    · subst hdf
      have hp := (Focus.near_iff.mp h).mem_top
      have hne : b.top ≠ some x := by
        simpa using (Focus.near_iff.mp (Focus.near_iff.mp h)).sib_ne (x := x) (by simp)
      have hchild : (s.mem p).child df.other = b.top := by rw [hp, Cell.make_child_other]
      have hinner : rbInsertInner df x p s = (p, b.top, s) := by
        rw [rbInsertInner, hchild, if_neg hne]
      rw [hinner, hchild, if_neg hne]
      exact hr.rotated hcomp hrot h (rbInsertOuter_focus h hb).1
    · obtain rfl : df = d.other := by cases d <;> cases df <;> simp_all [Dir.other]
      rw [LTree.make_other] at h
      have hp := (Focus.near_iff.mp h).mem_top
      have hchild : (s.mem p).child d.other = some x := by
        rw [hp, Cell.make_child_other, LTree.top_make]
      obtain ⟨s₁, hinner, hright⟩ := insertInner_right hcomp hrot h hb' he hr
      rw [hinner, if_pos hchild]
      exact hright
  have hdatas : (rbRotate rbcompute g (rbInsertInner d n p s).1 (rbInsertOuter d (rbInsertInner d n p s).1 g
      (rbInsertInner d n p s).2.1 (rbInsertInner d n p s).2.2) (if (s.mem p).child d.other = some n then
        rbRotate rbcompute p n (rbInsertInner d n p s).2.2 a else a)).datas = a.datas := by
    rw [datas_rbRotate]
    split
    · exact datas_rbRotate
    · rfl
  unfold RbAugmentCallbacks.insertArm
  cases (s.mem g).child d.other with
  | none => exact ⟨hend, hdatas⟩
  | some y =>
      cases rbIsRed (some y) s with
      | false => exact ⟨hend, hdatas⟩
      | true =>
          refine ⟨hr.recolored h rfl fun z => ?_, rfl⟩
          have h₁ := rbSetParentColor_children y (some g) .black s z
          have h₂ := rbSetParentColor_children p (some g) .black (rbSetParentColor y (some g) .black s) z
          have h₃ := rbSetParentColor_children g (rbParent g (rbSetParentColor p (some g) .black
            (rbSetParentColor y (some g) .black s))) .red (rbSetParentColor p (some g) .black
            (rbSetParentColor y (some g) .black s)) z
          exact ⟨h₃.1.trans (h₂.1.trans h₁.1), h₃.2.trans (h₂.2.trans h₁.2)⟩

/-- One pass of the loop of `__rb_insert`. -/
theorem insertStep_right [DecidableEq β] {S : List ι} {s₀ : RbRoot ι} {q : RbInsertLoop ι}
    {i : Iter (RbInsertLoop ι × RbStructs ι α β) (RbRoot ι × RbStructs ι α β)}
    (hcomp : ComputesFrom rbcompute comb) (hrot : RotationLaw comb) (hg : Growing S s₀ k q)
    (hr : RightValues comb q.root a) (hi : (rbDeclareCallbacks rbcompute).insertStep (q, a) = some i) :
    PassRight comb a.datas RbInsertLoop.root i := by
  obtain ⟨ctx, t, m, -, hf, htop, hc, hpar, hctx, ht, -, -⟩ := hg
  obtain ⟨n, parent, s⟩ := q
  simp only at hf htop hpar hr
  subst hpar
  cases ctx with
  | nil =>
      cases hi
      exact ⟨hr.setParentColor hf none, rfl⟩
  | cons f ctx =>
      obtain ⟨df, p, c, b⟩ := f
      have hpc : rbColor p s = c := by rw [rbColor, hf.mem_above, Cell.make_tag]
      cases c with
      | black =>
          have hblack : (rbDeclareCallbacks rbcompute).insertStep (⟨n, some p, s⟩, a) = some (.done (s, a)) := by
            simp [RbAugmentCallbacks.insertStep, hpc]
          rw [above_cons, hblack] at hi
          cases hi
          exact ⟨hr, rfl⟩
      | red =>
          obtain ⟨-, hbc, hmay, hctx⟩ := hctx
          obtain ⟨d, g, u, ctx, rfl, -, -⟩ := hctx.mayBeRed_cases hmay
          have hf' := Focus.near_iff.mpr hf
          have hf'' := Focus.near_iff.mpr hf'
          have hred : (rbDeclareCallbacks rbcompute).insertStep (⟨n, some p, s⟩, a) =
              some ((rbDeclareCallbacks rbcompute).insertArm d n p g s a) := by
            have hright := hf'.right_eq_iff (hf'.sib_ne (LTree.top_make ..))
            rw [LTree.top_make] at hright
            have hgp : rbRedParent p s = some (some g) := by
              rw [rbRedParent, if_pos hpc, rbParent, hf'.parent_top (LTree.top_make ..), above_cons]
            cases d <;> simp_all [RbAugmentCallbacks.insertStep, rbIsBlack]
          rw [above_cons, hred] at hi
          cases hi
          exact insertArm_right hcomp hrot htop hc hf'' hbc ht hr

/-- **`rb_insert_augmented`** after `rb_link_node`, in a tree whose values are right with the new node. -/
theorem rbInsert_right [DecidableEq β] (hcomp : ComputesFrom rbcompute comb) (hrot : RotationLaw comb)
    (h : Focus s ctx .nil) (hrb : IsRb (fill ctx .nil)) (hn : n ∉ ctxNodes ctx)
    (hr : RightValues comb (rbLinkNode n (above ctx) (slot ctx) s) a) :
    ∃ s' a', Prog.Returns ((rbDeclareCallbacks rbcompute).rbInsert n (rbLinkNode n (above ctx) (slot ctx) s) a)
        (s', a') ∧ Holds s' (before ctx ++ n :: after ctx) ∧ RightValues comb s' a' ∧ a'.datas = a.datas := by
  obtain ⟨hg, hpar⟩ := growing_link h hrb hn
  obtain ⟨⟨s', a'⟩, hret, ⟨hH, -⟩, hv, hd⟩ := Prog.Returns.iterate_carry
    (RbAugmentCallbacks.insertStep_tree ·) (Growing (before ctx ++ n :: after ctx) s)
    (fun p => RightValues comb p.1.root p.2 ∧ p.2.datas = a.datas) (fun _ _ hq => hq.step)
    (fun _ _ _ hg hv hi => hv.2 ▸ insertStep_right hcomp hrot hg hv.1 hi) ctx.length
    (⟨n, above ctx, rbLinkNode n (above ctx) (slot ctx) s⟩, a) hg ⟨hr, rfl⟩
  refine ⟨s', a', ?_, hH, hv, hd⟩
  rw [RbAugmentCallbacks.rbInsert, hpar, Prog.lift_bind]
  exact hret

end Libls.Rb
