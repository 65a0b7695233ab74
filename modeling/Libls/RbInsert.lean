import Mathlib.Tactic
import Libls.RbBalance

/-! # Insertion into a red-black tree

`Growing` is the invariant of the loop of `__rb_insert`: the node is red, and nothing is wrong but
that its parent may be red, too, or missing.  Case 1 moves the node two levels up, cases 2 and 3
are a double or a single rotation after which the loop is left. -/

namespace Libls.Rb

open LinkedTree

variable {ι : Type} [DecidableEq ι] {s : RbRoot ι} {ctx : List (Frame ι RbColor)} {d : Dir}
  {a b e t u : LTree ι RbColor} {n p g x : ι} {c : RbColor}

/-! ### Rotations -/

/-- What case 3 writes, before `p` comes into the place of `g`. -/
theorem rbInsertOuter_mem {tmp par q near far inner outer : Option ι} {tp : RbColor}
    (hpg : p ≠ g) (htp : tmp ≠ some p) (htg : tmp ≠ some g)
    (hg : s.mem g = .make d par c near far) (hp : s.mem p = .make d q tp outer inner) :
    ∃ s₁ : RbRoot ι, rbInsertOuter d p g tmp s = s₁.replaceChild par g (some p) ∧ s₁.root = s.root ∧
      ∀ y, s₁.mem y = if y = p then .make d par c outer (some g)
        else if y = g then .make d (some p) .red tmp far
        else if tmp = some y then ((s.mem y).setParent (some g)).setTag .black else s.mem y := by
  refine ⟨rbSetParentColor g (some p) .red (rbCopyParentColor g p (rbSetParentColorOf tmp (some g)
    .black ((s.setChild d g tmp).setChild d.other p (some g)))), ?_, by simp [rbCopyParentColor], ?_⟩
  · have hpar : rbParent g (rbSetParentColorOf tmp (some g) .black
        ((s.setChild d g tmp).setChild d.other p (some g))) = par := by
      simp [rbParent, htg, hpg.symm, hg]
    rw [← hpar]
    rfl
  · intro y
    by_cases hyp : y = p
    · subst hyp
      simp [rbCopyParentColor, hpg, hpg.symm, htp, htg, hp, hg, rbParent, rbColor]
    · by_cases hyg : y = g
      · subst hyg
        simp [rbCopyParentColor, hpg.symm, htg, hg, rbParent, rbColor]
      · simp only [rbSetParentColor_mem, rbCopyParentColor, rbSetParentColorOf_mem,
          Store.setChild_mem, hyp, hyg, if_false]

/-- Case 3: a rotation that lifts `p` over `g`. -/
theorem rbInsertOuter_focus (h : Focus s ctx (.make d (.make d t p .red b) g c u))
    (hb : color b = .black) :
    Focus (rbInsertOuter d p g b.top s) ctx (.make d t p c (.make d b g .red u)) ∧
      SameOutside (fill ctx (.make d (.make d t p .red b) g c u)).toList s
        (rbInsertOuter d p g b.top s) := by
  have hp : s.mem p = .make d (some g) .red t.top b.top := (Focus.near_iff.mp h).mem_top
  have hlb : Linked s.mem (some p) b := (linked_make.mp (Focus.near_iff.mp h).linked).2.2
  have hg := h.mem_top
  rw [← LTree.make_other d u, ← LTree.make_other d b] at h
  obtain ⟨hpg, hbp, hbg⟩ := h.rotate_apart
  obtain ⟨s₁, heq, hroot, hmem⟩ := rbInsertOuter_mem hpg hbp hbg hg hp
  have hmem' : ∀ y, s₁.mem y = if y = p then .make d.other (above ctx) c (some g) t.top
      else if y = g then .make d.other (some p) .red u.top b.top
      else if b.top = some y then (s.mem y).setParent (some g) else s.mem y := by
    intro y
    rw [hmem, Cell.make_other, Cell.make_other]
    by_cases hy : b.top = some y
    · rw [if_pos hy, if_pos hy, setParentColor_black hlb hb hy]
    · rw [if_neg hy, if_neg hy]
  have hsame : SameOutside (fill ctx (.make d.other u g c (.make d.other b p .red t))).toList s _ :=
    Focus.rotated_same hmem'
  rw [heq]
  simpa only [LTree.make_other] using And.intro (h.rotated hroot hmem') hsame

/-- What case 2 writes. -/
theorem rbInsertInner_mem {q near far inner outer : Option ι} {tp tn : RbColor}
    (hnp : n ≠ p) (hbn : inner ≠ some n) (hbp : inner ≠ some p)
    (hn : s.mem n = .make d q tn inner outer) (hp : s.mem p = .make d far tp near (some n)) :
    ∃ s₁, rbInsertInner d n p s = (n, outer, s₁) ∧ s₁.root = s.root ∧
      ∀ y, s₁.mem y = if y = p then .make d (some n) .red near inner
        else if y = n then .make d q tn (some p) outer
        else if inner = some y then ((s.mem y).setParent (some p)).setTag .black else s.mem y := by
  let s₁ := rbSetParentColor p (some n) .red (rbSetParentColorOf inner (some p) .black
    ((s.setChild d.other p inner).setChild d n (some p)))
  have hs₁ : ∀ y, s₁.mem y = if y = p then .make d (some n) .red near inner
      else if y = n then .make d q tn (some p) outer
      else if inner = some y then ((s.mem y).setParent (some p)).setTag .black else s.mem y := by
    intro y
    by_cases hyp : y = p
    · subst hyp
      simp [s₁, hbp, hp, hnp.symm]
    · by_cases hyn : y = n
      · subst hyn
        simp [s₁, hbn, hn, hnp]
      · simp [s₁, hyp, hyn]
  refine ⟨s₁, ?_, by simp [s₁], hs₁⟩
  have htmp : (s₁.mem n).child d.other = outer := by
    rw [hs₁, if_neg hnp, if_pos rfl, Cell.make_child_other]
  rw [rbInsertInner, if_pos (by rw [hp, Cell.make_child_other]), ← htmp]
  simp only [hn, Cell.make_child]
  rfl

/-- Cases 2 and 3: the node is the inner child of its parent, and is lifted over the parent and
the grandparent. -/
theorem rbInsertInner_focus
    (h : Focus s ctx (.make d (.make d a p .red (.make d b n .red e)) g c u))
    (hb : color b = .black) (he : color e = .black) :
    ∃ s₁, rbInsertInner d n p s = (n, e.top, s₁) ∧
      Focus (rbInsertOuter d n g e.top s₁) ctx
        (.make d (.make d a p .red b) n c (.make d e g .red u)) ∧
      SameOutside (fill ctx (.make d (.make d a p .red (.make d b n .red e)) g c u)).toList s
        (rbInsertOuter d n g e.top s₁) := by
  have hp : s.mem p = .make d (some g) .red a.top (some n) := by
    simpa using (Focus.near_iff.mp h).mem_top
  have hn : s.mem n = .make d (some p) .red b.top e.top :=
    (Focus.far_iff.mp (Focus.near_iff.mp h)).mem_top
  have hg := h.mem_top
  have hl := h.linked
  have hnd := h.nodup
  simp only [linked_make] at hl
  simp only [LTree.nodup_make, LTree.mem_make, not_or] at hnd
  have hlb := hl.2.1.2.2.2.1
  have hle := hl.2.1.2.2.2.2
  have hnp : n ≠ p := by grind
  have hng : n ≠ g := by grind
  have hpg : p ≠ g := by grind
  have hbn : ∀ y, b.top = some y → y ≠ n ∧ y ≠ p ∧ y ≠ g ∧ e.top ≠ some y := fun y hy => by
    grind [LTree.top_mem hy, LTree.top_mem]
  have hen : ∀ y, e.top = some y → y ≠ n ∧ y ≠ p ∧ y ≠ g := fun y hy => by
    grind [LTree.top_mem hy]
  obtain ⟨s₁, hinner, hroot₁, hmem₁⟩ := rbInsertInner_mem hnp (fun he => (hbn n he).1 rfl)
    (fun he => (hbn p he).2.1 rfl) hn hp
  have hg₁ : s₁.mem g = .make d (above ctx) c (some p) u.top := by
    rw [hmem₁, if_neg hpg.symm, if_neg hng.symm, if_neg (fun he => (hbn g he).2.2.1 rfl), hg,
      LTree.top_make]
  have hn₁ : s₁.mem n = .make d (some p) .red (some p) e.top := by
    rw [hmem₁, if_neg hnp, if_pos rfl]
  obtain ⟨s₂, houter, hroot₂, hmem₂⟩ := rbInsertOuter_mem hng (fun he => (hen n he).1 rfl)
    (fun he => (hen g he).2.2 rfl) hg₁ hn₁
  refine ⟨s₁, hinner, ?_⟩
  rw [houter]
  refine h.doubleRotated (hroot₂.trans hroot₁) fun y => ?_
  rw [hmem₂]
  by_cases hyn : y = n
  · rw [if_pos hyn, if_pos hyn]
  · rw [if_neg hyn, if_neg hyn, hmem₁, if_neg hyn]
    by_cases hyp : y = p
    · have hey : e.top ≠ some y := fun he => (hen y he).2.1 hyp
      rw [if_neg (hyp ▸ hpg), if_neg hey, if_pos hyp, if_pos hyp]
    · rw [if_neg hyp, if_neg hyp]
      by_cases hyg : y = g
      · rw [if_pos hyg, if_pos hyg]
      · rw [if_neg hyg, if_neg hyg]
        by_cases hby : b.top = some y
        · rw [if_neg (hbn y hby).2.2.2, if_pos hby, if_pos hby, setParentColor_black hlb hb hby]
        · rw [if_neg hby, if_neg hby]
          by_cases hey : e.top = some y
          · rw [if_pos hey, if_pos hey, setParentColor_black hle he hey]
          · rw [if_neg hey, if_neg hey]

/-! ### The loop -/

/-- The subtree at `node` has a red top and is otherwise as its surroundings, of depth `k`, want
it; only nodes of the tree differ from the store `s₀`. -/
def Growing (S : List ι) (s₀ : RbRoot ι) (k : ℕ) (p : RbInsertLoop ι) : Prop :=
  ∃ ctx t m, ctx.length = k ∧ Focus p.root ctx t ∧ t.top = some p.node ∧ color t = .red ∧
    p.parent = above ctx ∧ CtxOk ctx m ∧ RbOk t m ∧ (fill ctx t).toList = S ∧
    SameOutside S s₀ p.root

/-- Case 1: the uncle is red, and takes the colour of the grandparent. -/
theorem rbInsertArm_red {df : Dir} {k m : ℕ} {S : List ι} {s₀ : RbRoot ι} (hk : ctx.length < k)
    (h : Focus s ctx (.make d (.make df t p .red a) g .black u)) (hu : color u = .red)
    (hctx : CtxOk ctx (m + 1)) (ht : RbOk t m) (ha : RbOk a m) (hum : RbOk u m)
    (hS : (fill ctx (.make d (.make df t p .red a) g .black u)).toList = S)
    (hs : SameOutside S s₀ s) :
    ∃ q j, rbInsertArm d n p g s = .next q ∧ j < k ∧ Growing S s₀ j q := by
  obtain ⟨ul, y, ur, rfl⟩ := exists_make_of_red d hu
  have hfar := Focus.far_iff.mp h
  have htmp : (s.mem g).child d.other = some y := by rw [h.mem_top]; simp
  have hred : rbIsRed (some y) s = true := by
    have := (rbIsRed_top hfar.linked).mpr hu
    rwa [LTree.top_make] at this
  -- the uncle, the parent and the grandparent get their colours
  have h₁ := Focus.near_iff.mp (Focus.far_iff.mpr (hfar.setTag .black))
  have e₁ : rbSetParentColor y (some g) .black s = s.setTag y .black :=
    rbSetParentColor_eq (hfar.parent_top (by simp))
  have h₂ := Focus.near_iff.mpr (h₁.setTag .black)
  have e₂ : rbSetParentColor p (some g) .black (s.setTag y .black) =
      (s.setTag y .black).setTag p .black := rbSetParentColor_eq (h₁.parent_top (by simp))
  have h₃ := h₂.setTag .red
  have hpar := h₂.parent_top (x := g) (by simp)
  obtain ⟨hbl, hbr, hul, hur⟩ := rbOk_red.mp hum
  have hL : (fill ctx (.make d (.make df t p .black a) g .red (.make d ul y .black ur))).toList =
      S := by
    rw [← hS, toList_fill, toList_fill]
    cases d <;> cases df <;> simp [LTree.make]
  refine ⟨⟨g, above ctx, ((s.setTag y .black).setTag p .black).setTag g .red⟩, ctx.length, ?_, hk,
    ctx, _, m + 1, rfl, h₃, by simp, by simp, rfl, hctx, ?_, hL, ?_⟩
  · rw [rbInsertArm, htmp, hred]
    simp only [e₁, e₂, rbParent, hpar, rbSetParentColor_eq hpar]
  · exact rbOk_red.mpr ⟨by simp, by simp, rbOk_black_succ.mpr ⟨ht, ha⟩,
      rbOk_black_succ.mpr ⟨hul, hur⟩⟩
  · have hin : ∀ z, z = y ∨ z = p ∨ z = g → z ∈ S := by
      rw [← hS]
      intro z hz
      simp only [mem_fill, LTree.mem_make]
      tauto
    exact hs.trans ((SameOutside.write (hin y (by simp)) _).trans
      ((SameOutside.write (hin p (by simp)) _).trans (SameOutside.write (hin g (by simp)) _)))

/-- Cases 2 and 3: the uncle is black, and a rotation ends the loop. -/
theorem rbInsertArm_black {df : Dir} {m : ℕ} (hn : t.top = some n) (ht : color t = .red)
    (h : Focus s ctx (.make d (.make df t p .red a) g .black u)) (hu : color u = .black)
    (ha : color a = .black) (hctx : CtxOk ctx (m + 1)) (htm : RbOk t m) (ham : RbOk a m)
    (hum : RbOk u m) :
    ∃ s', rbInsertArm d n p g s = .done s' ∧
      Holds s' (fill ctx (.make d (.make df t p .red a) g .black u)).toList ∧
      SameOutside (fill ctx (.make d (.make df t p .red a) g .black u)).toList s s' := by
  have hfar := Focus.far_iff.mp h
  have htmp : (s.mem g).child d.other = u.top := by rw [h.mem_top]; simp
  have hred : rbIsRed u.top s = false := rbIsRed_top_black hfar.linked hu
  have harm : rbInsertArm d n p g s = .done (rbInsertOuter d (rbInsertInner d n p s).1 g
      (rbInsertInner d n p s).2.1 (rbInsertInner d n p s).2.2) := by
    rw [rbInsertArm, htmp, hred]
    cases u.top <;> rfl
  obtain ⟨b, x, e, rfl⟩ := exists_make_of_red d ht
  obtain rfl : x = n := by simpa using hn
  obtain ⟨hb, he, hbm, hem⟩ := rbOk_red.mp htm
  by_cases hdf : df = d
  · -- the node is the outer child
    subst hdf
    have hinner : rbInsertInner df x p s = (p, a.top, s) := by
      have hp := (Focus.near_iff.mp h).mem_top
      have hne : a.top ≠ some x := by
        simpa using (Focus.near_iff.mp (Focus.near_iff.mp h)).sib_ne (x := x) (by simp)
      rw [rbInsertInner, hp, Cell.make_child_other, if_neg hne]
    obtain ⟨hf, hs⟩ := rbInsertOuter_focus h ha
    rw [hinner] at harm
    refine ⟨_, harm, ?_, hs⟩
    have := Holds.of_focus hf hctx (rbOk_black_succ.mpr ⟨htm, rbOk_red.mpr ⟨ha, hu, ham, hum⟩⟩)
      (by simp)
    rwa [toList_fill, toList_rotate, ← toList_fill] at this
  · obtain rfl : df = d.other := by cases d <;> cases df <;> simp_all [Dir.other]
    rw [LTree.make_other] at h ⊢
    obtain ⟨s₁, hinner, hf, hs⟩ := rbInsertInner_focus h hb he
    rw [hinner] at harm
    refine ⟨_, harm, ?_, hs⟩
    have := Holds.of_focus hf hctx (rbOk_black_succ.mpr ⟨rbOk_red.mpr ⟨ha, hb, ham, hbm⟩,
      rbOk_red.mpr ⟨he, hu, hem, hum⟩⟩) (by simp)
    have hL : (LTree.make d (.make d a p .red b) x .black (.make d e g .red u)).toList =
        (LTree.make d (.make d a p .red (.make d b x .red e)) g .black u).toList := by
      cases d <;> simp [LTree.make]
    rwa [toList_fill, hL, ← toList_fill] at this

/-- One pass of the loop of `__rb_insert`. -/
theorem Growing.step {S : List ι} {s₀ : RbRoot ι} {k : ℕ} {q : RbInsertLoop ι}
    (h : Growing S s₀ k q) :
    (∃ s', rbInsertStep q = some (.done s') ∧ Holds s' S ∧ SameOutside S s₀ s') ∨
      ∃ q' j, rbInsertStep q = some (.next q') ∧ j < k ∧ Growing S s₀ j q' := by
  obtain ⟨ctx, t, m, hk, hf, htop, hc, hpar, hctx, ht, hS, hs⟩ := h
  obtain ⟨n, parent, s⟩ := q
  simp only at hf htop hpar hs
  subst hpar
  cases ctx with
  | nil =>
      -- the node is the root
      left
      obtain ⟨l, x, r, rfl⟩ := exists_make_of_red .left hc
      obtain rfl : x = n := by simpa using htop
      obtain ⟨-, -, hl, hr⟩ := rbOk_red.mp ht
      have heq : rbSetParentColor x none .black s = s.setTag x .black :=
        rbSetParentColor_eq (hf.parent_top htop)
      refine ⟨s.setTag x .black, by simp [rbInsertStep, heq], ?_, ?_⟩
      · rw [← hS]
        have hok : RbOk (.make .left l x .black r) (m + 1) := rbOk_black_succ.mpr ⟨hl, hr⟩
        exact ⟨_, hf.setTag .black, ⟨rfl, m + 1, hok⟩, rfl⟩
      · refine hs.trans (SameOutside.write ?_ _)
        rw [← hS]
        exact LTree.top_mem htop
  | cons f ctx =>
      obtain ⟨df, p, c, a⟩ := f
      have hpc : rbColor p s = c := by rw [rbColor, hf.mem_above, Cell.make_tag]
      cases c with
      | black =>
          left
          refine ⟨s, by simp [rbInsertStep, hpc], ?_, hs⟩
          rw [← hS]
          exact Holds.of_focus hf hctx ht fun _ => rfl
      | red =>
          obtain ⟨ham, hac, hmay, hctx⟩ := hctx
          obtain ⟨d, g, u, ctx, rfl, hum, hctx⟩ := hctx.mayBeRed_cases hmay
          have hf' := Focus.near_iff.mpr hf
          have hf'' := Focus.near_iff.mpr hf'
          have hstep : rbInsertStep ⟨n, some p, s⟩ = some (rbInsertArm d n p g s) := by
            have hright := hf'.right_eq_iff (hf'.sib_ne (LTree.top_make ..))
            rw [LTree.top_make] at hright
            have hgp : rbRedParent p s = some (some g) := by
              rw [rbRedParent, if_pos hpc, rbParent, hf'.parent_top (LTree.top_make ..), above_cons]
            cases d <;> simp_all [rbInsertStep]
          rw [above_cons, hstep]
          cases hu : color u with
          | red =>
              right
              obtain ⟨q', j, hq, hj, hg⟩ := rbInsertArm_red (n := n) (k := k)
                (by simp at hk; omega) hf'' hu hctx ht ham hum hS hs
              exact ⟨q', j, by rw [hq], hj, hg⟩
          | black =>
              left
              obtain ⟨s', hs', hH, hsame⟩ := rbInsertArm_black htop hc hf'' hu hac hctx ht ham hum
              refine ⟨s', by rw [hs'], ?_, hs.trans ?_⟩
              · rwa [← hS]
              · rwa [← hS]

/-- `rb_link_node` at an empty slot of a red-black tree establishes the invariant. -/
theorem growing_link {n : ι} (h : Focus s ctx .nil) (hrb : IsRb (fill ctx .nil)) (hn : n ∉ ctxNodes ctx) :
    Growing (before ctx ++ n :: after ctx) s ctx.length
        ⟨n, above ctx, rbLinkNode n (above ctx) (slot ctx) s⟩ ∧
      rbRedParent n (rbLinkNode n (above ctx) (slot ctx) s) = some (above ctx) := by
  obtain ⟨m, hctx, hm, -⟩ := of_isRb_fill hrb
  have hf : Focus (rbLinkNode n (above ctx) (slot ctx) s) ctx (.node .nil n .red .nil) := h.link hn
  have hL : (fill ctx (.node .nil n .red .nil)).toList = before ctx ++ n :: after ctx := by
    rw [toList_fill]
    simp
  have hs : SameOutside (before ctx ++ n :: after ctx) s (rbLinkNode n (above ctx) (slot ctx) s) := by
    intro y hy
    rw [← hL, mem_fill, not_or] at hy
    have hyn : y ≠ n := fun e => hy.1 (by simp [e])
    rw [rbLinkNode, setSlot_mem_of_notMem _ hy.2, Store.write_mem, if_neg hyn]
  refine ⟨⟨ctx, _, m, rfl, hf, rfl, rfl, rfl, hctx, ⟨rfl, rfl, hm, hm⟩, hL, hs⟩, ?_⟩
  rw [rbRedParent, rbColor, rbParent, hf.linked.1]
  rfl

/-- **`rb_insert_color`** after `rb_link_node` at an empty slot of a red-black tree makes a
red-black tree with the new node at that place. -/
theorem rbInsertColor_holds {n : ι} (h : Focus s ctx .nil) (hrb : IsRb (fill ctx .nil))
    (hn : n ∉ ctxNodes ctx) :
    ∃ s', Prog.Returns (rbInsertColor n (rbLinkNode n (above ctx) (slot ctx) s)) s' ∧
      Holds s' (before ctx ++ n :: after ctx) ∧
      SameOutside (before ctx ++ n :: after ctx) s s' := by
  obtain ⟨hg, hpar⟩ := growing_link h hrb hn
  have hrun : ∃ s', Prog.Returns (Prog.iterate (fun q => liftM (rbInsertStep q))
      (⟨n, above ctx, rbLinkNode n (above ctx) (slot ctx) s⟩ : RbInsertLoop ι)) s' ∧
        Holds s' (before ctx ++ n :: after ctx) ∧ SameOutside (before ctx ++ n :: after ctx) s s' :=
    Prog.Returns.iterate (Growing (before ctx ++ n :: after ctx) s) (fun k q hq => by
      simpa only [Prog.returns_lift] using hq.step) _ _ hg
  obtain ⟨s', hs', hH, hsame⟩ := hrun
  refine ⟨s', ?_, hH, hsame⟩
  rw [rbInsertColor, hpar, Prog.lift_bind]
  exact hs'

end Libls.Rb
