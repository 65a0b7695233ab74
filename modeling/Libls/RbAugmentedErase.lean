import Mathlib.Tactic
import Libls.RbAugmentedValues

/-! # Removal from an augmented red-black tree

`__rb_erase_augmented` leaves one node or two whose values are stale: the node below which a node is
missing, and the successor that has come into the place of the erased node.  `rbPropagate_chain` says
that `propagate` mends the values from such a node up to `stop`, although it leaves off where a value
turns out to be right; `copy` is what makes this right for the nodes above the successor. -/

namespace Libls.Rb

open LinkedTree

variable {ι α β : Type} [DecidableEq ι] [DecidableEq β] {comb : α → Option β → Option β → β}
  {rbcompute : ι → RbRoot ι → RbStructs ι α β → β} {s s' : RbRoot ι} {a : RbStructs ι α β}
  {ctx ctx' : List (Frame ι RbColor)} {d : Dir} {t u l r b w a₁ a₂ b₁ b₂ : LTree ι RbColor} {n p x y z : ι}
  {c ty : RbColor} {k m : ℕ}

/-! ### `propagate` -/

/-- `propagate` from the node above a hole makes all values right up to `stop`. -/
theorem rbPropagate_chain {stop hole : Option ι} (hcomp : ComputesFrom rbcompute comb)
    (hchain : Chain s.mem stop hole ctx) (hst : StaleCtx comb a.datas a.values ctx)
    (hnd : (ctxNodes ctx).Nodup) (hstop : ∀ z, stop = some z → z ∉ ctxNodes ctx)
    (hhole : ∀ z, hole = some z → z ∉ ctxNodes ctx) :
    ∃ a' : RbStructs ι α β, Prog.Returns (rbPropagate rbcompute ((above ctx).or stop) stop s a) a' ∧
      a'.datas = a.datas ∧ CachedCtx comb a.datas a'.values (hole.map a.values) ctx ∧
      ∀ z ∉ ctxNodes ctx, a'.values z = a.values z := by
  induction ctx generalizing a hole with
  | nil =>
      refine ⟨a, Prog.Returns.iterate_done (Prog.returns_lift.mpr ?_), rfl, trivial, fun _ _ => rfl⟩
      simp [propagateStep]
  | cons f ctx ih =>
      obtain ⟨hcell, hchain⟩ := hchain
      obtain ⟨hsib, hctx⟩ := hst
      simp only [ctxNodes_cons, List.nodup_cons, List.nodup_append', List.disjoint_left, List.mem_append,
        List.mem_cons, not_or] at hnd hstop hhole
      have hne : some f.x ≠ stop := fun e => (hstop f.x e.symm).1 rfl
      have hval : rbcompute f.x s a = combOn comb f.dir (a.datas f.x) (hole.map a.values)
          (f.sib.top.map a.values) := by
        rw [hcomp.on f.dir, hcell, Cell.make_child, Cell.make_child_other]
      rw [above_cons, Option.some_or]
      by_cases heq : a.values f.x = rbcompute f.x s a
      · refine ⟨a, Prog.Returns.iterate_done (Prog.returns_lift.mpr ?_), rfl, ⟨?_, hsib, hctx⟩,
          fun _ _ => rfl⟩
        · simp [propagateStep, hne, heq]
        · rw [heq, hval]
      · let a₁ : RbStructs ι α β := a.setAugmented f.x (rbcompute f.x s a)
        have hsame : ∀ z, z ≠ f.x → a₁.values z = a.values z := fun z hz => by simp [a₁, hz]
        have hctx₁ : CachedCtx comb a₁.datas a₁.values (some (a.values f.x)) ctx := by
          rw [RbStructs.datas_setAugmented]
          exact hctx.congr fun z hz => hsame z fun e => hnd.1.2 (e ▸ hz)
        have hup : ∀ z, some f.x = some z → z ∉ ctxNodes ctx := fun z hz => Option.some.inj hz ▸ hnd.1.2
        obtain ⟨a', hret, hdatas, hc, hout⟩ := ih hchain hctx₁.stale hnd.2.2.1
          (fun z hz => (hstop z hz).2.2) hup
        have hfx : a'.values f.x = rbcompute f.x s a := by
          rw [hout f.x hnd.1.2]
          simp [a₁]
        refine ⟨a', Prog.Returns.iterate_next (Prog.returns_lift.mpr ?_) hret, ?_, ⟨?_, ?_, ?_⟩, ?_⟩
        · have hpar : rbParent f.x s = (above ctx).or stop := by
            rw [rbParent, hcell, Cell.make_parent]
          simp only [propagateStep, if_neg hne, Option.bind_eq_bind, Option.bind_some, if_neg heq, hpar]
          rfl
        · rw [hdatas, RbStructs.datas_setAugmented]
        · have hs : f.sib.top.map a'.values = f.sib.top.map a.values := top_map_congr fun z hz =>
            (hout z (hnd.2.2.2 hz)).trans (hsame z fun e => hnd.1.1 (e ▸ hz))
          rw [hfx, hval, hs]
        · exact hsib.congr fun z hz => (hout z (hnd.2.2.2 hz)).trans (hsame z fun e => hnd.1.1 (e ▸ hz))
        · have hv : (some f.x).map a₁.values = some (a'.values f.x) := by
            rw [hfx, Option.map_some]
            simp [a₁]
          rw [← hv]
          rwa [RbStructs.datas_setAugmented] at hc
        · intro z hz
          rw [ctxNodes_cons, List.mem_cons, List.mem_append, not_or, not_or] at hz
          exact (hout z hz.2.2).trans (hsame z hz.1)

/-- **`propagate`** from the node above the focus to the root, when only the value of that node may be
wrong. -/
theorem rbPropagate_right (hcomp : ComputesFrom rbcompute comb) (hf : Focus s ctx t)
    (ht : Cached comb a.datas a.values t) (hst : StaleCtx comb a.datas a.values ctx) :
    ∃ a', Prog.Returns (rbPropagate rbcompute (above ctx) none s a) a' ∧ RightValues comb s a' ∧
      a'.datas = a.datas := by
  obtain ⟨a', hret, hdatas, hc, hout⟩ := rbPropagate_chain hcomp hf.chain hst hf.ctx_nodup (by simp)
    fun z hz => hf.apart z (LTree.top_mem hz)
  have hsame : ∀ z ∈ t.toList, a'.values z = a.values z := fun z hz => hout z (hf.apart z hz)
  refine ⟨a', by rwa [Option.or_none] at hret, .of_focus hf (cached_fill.mpr ?_), hdatas⟩
  rw [hdatas, top_map_congr hsame]
  exact ⟨ht.congr hsame, hc⟩

/-! ### The loop of `____rb_erase_color` -/

omit [DecidableEq β] in
/-- Case 4. -/
theorem eraseOuter_right (hcomp : ComputesFrom rbcompute comb) (hrot : RotationLaw comb)
    (h : Focus s ctx (.make d t p c (.make d b y .black (.make d b₁ z .red b₂))))
    (hr : RightValues comb s a) : RightValues comb (rbEraseOuter d p y z s)
      (rbRotate rbcompute p y (rbEraseOuter d p y z s) a) := by
  have hz := Focus.far_iff.mp (Focus.far_iff.mp h)
  have h' := Focus.far_iff.mpr (Focus.far_iff.mpr (hz.setTag .black))
  have hr' : RightValues comb (s.setTag z .black) a := hr.recolored h rfl fun v => by
    by_cases hv : v = z
    · subst hv
      simp [Cell.setTag]
    · simp [hv]
  have hf := (rbEraseOuter_focus h).1
  rw [← LTree.make_other d _ t, ← LTree.make_other d _ b] at h'
  rw [← LTree.make_other d _ (LTree.make d t p _ b), ← LTree.make_other d _ t] at hf
  exact hr'.rotated hcomp hrot h' hf

omit [DecidableEq β] in
/-- Cases 3 and 4. -/
theorem eraseInner_right (hcomp : ComputesFrom rbcompute comb) (hrot : RotationLaw comb)
    (h : Focus s ctx (.make d t p c (.make d (.make d a₁ z .red a₂) y .black b)))
    (ha₂ : color a₂ = .black) (hr : RightValues comb s a) :
    ∃ s₁, rbEraseInner d p y z s = (y, z, s₁) ∧ RightValues comb (rbEraseOuter d p z y s₁)
      (rbRotate rbcompute p z (rbEraseOuter d p z y s₁) (rbRotate rbcompute y z s₁ a)) := by
  have hp := h.mem_top
  have hy : s.mem y = .make d (some p) .black (some z) b.top := by
    simpa using (Focus.far_iff.mp h).mem_top
  have hz : s.mem z = .make d (some y) .red a₁.top a₂.top :=
    (Focus.near_iff.mp (Focus.far_iff.mp h)).mem_top
  have hnd := h.nodup
  simp only [LTree.nodup_make, LTree.mem_make, not_or] at hnd
  have hyz : y ≠ z := by grind
  have hyp : y ≠ p := by grind
  have hzp : z ≠ p := by grind
  have h₂ : ∀ x, a₂.top = some x → x ≠ y ∧ x ≠ z ∧ x ≠ p := fun x hx => by
    grind [LTree.top_mem hx]
  obtain ⟨s₁, hinner, hf, -⟩ := rbEraseInner_focus h ha₂
  obtain ⟨s₁', hinner', -, hmem⟩ := rbEraseInner_mem hyz hyp hzp (fun e => (h₂ y e).1 rfl)
    (fun e => (h₂ z e).2.1 rfl) (fun e => (h₂ p e).2.2 rfl) hp hy hz
  obtain rfl : s₁' = s₁ := by
    rw [hinner'] at hinner
    exact congrArg (fun r => r.2.2) hinner
  have h' : Focus s ctx (.make d.other (.make d.other b y .black (.make d.other a₂ z .red a₁)) p c t) := by
    simpa only [LTree.make_other] using h
  have hf' : Focus (rbEraseOuter d p z y s₁') ctx
      (.make d.other (.make d.other b y .black a₂) z c (.make d.other a₁ p .black t)) := by
    simpa only [LTree.make_other] using hf
  refine ⟨s₁', hinner, hr.doubleRotated hcomp hrot h' hf' ?_⟩
  rw [hmem, if_pos rfl, Dir.other_other, Cell.make_child, Cell.make_child_other]
  exact ⟨rfl, rfl⟩

/-- Cases 2 to 4. -/
theorem eraseBlackSibling_right (hcomp : ComputesFrom rbcompute comb) (hrot : RotationLaw comb)
    (h : Focus s ctx (.make d t p c (.make d b y .black w))) (hbm : RbOk b m) (hr : RightValues comb s a) :
    PassRight comb a.datas RbEraseLoop.root
      ((rbDeclareCallbacks rbcompute).eraseBlackSibling d p y s a) := by
  have hfar := Focus.far_iff.mp h
  obtain ⟨-, hlb, hlw⟩ := linked_make.mp hfar.linked
  have hrb := rbIsRed_top hlb
  have hrw := rbIsRed_top hlw
  have hflip : PassRight comb a.datas RbEraseLoop.root ((rbEraseFlip p y s).map (·, a) (·, a)) := by
    have hy : RightValues comb (rbSetParentColor y (some p) .red s) a := hr.setParentColor h (some p)
    unfold rbEraseFlip
    have hc := fun v => rbSetParentColor_children y (some p) .red s v
    have hblack : RightValues comb (rbSetBlack p (rbSetParentColor y (some p) .red s)) a :=
      hr.recolored h rfl fun v => by
        by_cases hv : v = p
        · subst hv
          simpa [rbSetBlack, Cell.setTag] using hc v
        · simpa [rbSetBlack, hv] using hc v
    dsimp only
    split
    · exact ⟨hblack, rfl⟩
    · split
      · exact ⟨hy, rfl⟩
      · exact ⟨hy, rfl⟩
  unfold RbAugmentCallbacks.eraseBlackSibling
  rw [hfar.mem_top, Cell.make_child, Cell.make_child_other]
  cases hcw : color w with
  | red =>
      obtain ⟨b₁, v, b₂, rfl⟩ := exists_make_of_red d hcw
      rw [LTree.top_make] at hrw ⊢
      rw [hrw.mpr hcw]
      exact ⟨eraseOuter_right hcomp hrot h hr, datas_rbRotate⟩
  | black =>
      rw [rbIsRed_top_black hlw hcw]
      cases hcb : color b with
      | red =>
          obtain ⟨a₁, z, a₂, rfl⟩ := exists_make_of_red d hcb
          obtain ⟨-, ha₂, -, -⟩ := rbOk_red.mp hbm
          rw [LTree.top_make] at hrb ⊢
          rw [hrb.mpr hcb]
          obtain ⟨s₁, hin, hright⟩ := eraseInner_right hcomp hrot h ha₂ hr
          have hdatas : (rbRotate rbcompute p z (rbEraseOuter d p z y s₁) (rbRotate rbcompute y z s₁ a)).datas =
              a.datas := by
            rw [datas_rbRotate, datas_rbRotate]
          cases w.top <;> simp only [hin] <;> exact ⟨hright, hdatas⟩
      | black =>
          rw [rbIsRed_top_black hlb hcb]
          cases w.top <;> cases b.top <;> exact hflip

/-- One pass of the loop of `____rb_erase_color`. -/
theorem eraseStep_right {S : List ι} {q : RbEraseLoop ι}
    {i : Iter (RbEraseLoop ι × RbStructs ι α β) (RbRoot ι × RbStructs ι α β)}
    (hcomp : ComputesFrom rbcompute comb) (hrot : RotationLaw comb) (hl : Lacking S k q)
    (hr : RightValues comb q.root a) (hi : (rbDeclareCallbacks rbcompute).eraseStep (q, a) = some i) :
    PassRight comb a.datas RbEraseLoop.root i := by
  obtain ⟨f, ctx, t, m, -, hf, hnode, hpar, -, hctx, -⟩ := hl
  obtain ⟨node, parent, s⟩ := q
  simp only at hf hnode hpar hr
  subst hnode hpar
  obtain ⟨d, p, c, w⟩ := f
  obtain ⟨b, y, cy, w, rfl⟩ := exists_make_of_succ d hctx.1
  have h := Focus.near_iff.mpr hf
  have hfar := Focus.far_iff.mp h
  have hsib : (s.mem p).child d.other = some y := by simp [h.mem_top]
  have hcol : rbColor y s = cy := by rw [rbColor, hfar.mem_top, Cell.make_tag]
  have harm : ∀ j, (rbDeclareCallbacks rbcompute).eraseArm d p s a = some j →
      PassRight comb a.datas RbEraseLoop.root j := by
    intro j hj
    cases cy with
    | black =>
        obtain ⟨hb, -⟩ := rbOk_black_succ.mp hctx.1
        simp only [RbAugmentCallbacks.eraseArm, hsib, hcol, Option.bind_eq_bind, Option.bind_some,
          reduceCtorEq, if_false] at hj
        cases hj
        exact eraseBlackSibling_right hcomp hrot h hb hr
    | red =>
        obtain ⟨hw, hctx'⟩ := hctx
        cases c with
        | red => cases (color_make (d := d)).symm.trans hctx'.1
        | black =>
            obtain ⟨hb, -, hbm, -⟩ := rbOk_red.mp hw
            obtain ⟨a₁, z, ca, a₂, rfl⟩ := exists_make_of_succ d hbm
            obtain rfl : ca = .black := by simpa using hb
            obtain ⟨s', hs', hf', -⟩ := rbEraseRedSibling_focus h hb (LTree.top_make ..)
            simp only [RbAugmentCallbacks.eraseArm, hsib, hcol, hs', Option.bind_eq_bind, Option.bind_some,
              if_true] at hj
            cases hj
            have hr' : RightValues comb s' (rbRotate rbcompute p y s' a) := by
              rw [← LTree.make_other d _ t, ← LTree.make_other d _ (LTree.make d a₁ z .black a₂)] at h
              have hf₁ := hf'
              rw [← LTree.make_other d _ (LTree.make d t p .red _), ← LTree.make_other d _ t] at hf₁
              exact hr.rotated hcomp hrot h hf₁
            have hnear := Focus.near_iff.mp hf'
            have hpass := eraseBlackSibling_right hcomp hrot hnear (rbOk_black_succ.mp hbm).1 hr'
            rw [datas_rbRotate] at hpass
            exact hpass
  have hne : (LTree.make d b y cy w).top ≠ t.top := by
    cases ht : t.top with
    | none => simp
    | some x =>
        rw [← ht]
        exact hf.sib_ne ht
  have hright := hf.right_eq_iff hne
  cases d with
  | left =>
      have hneq : t.top ≠ (s.mem p).right := fun e => by cases hright.mp e.symm
      simp only [RbAugmentCallbacks.eraseStep, ne_eq, hneq, not_false_eq_true, if_true] at hi
      exact harm i hi
  | right =>
      have heq : t.top = (s.mem p).right := (hright.mpr rfl).symm
      simp only [RbAugmentCallbacks.eraseStep, ne_eq, heq, not_true_eq_false, if_false] at hi
      exact harm i hi

/-- `__rb_erase_color` -/
theorem rbEraseColor_right {S : List ι} (hcomp : ComputesFrom rbcompute comb) (hrot : RotationLaw comb)
    (h : Lacking S k ⟨none, p, s⟩) (hr : RightValues comb s a) :
    ∃ s' a', Prog.Returns ((rbDeclareCallbacks rbcompute).rbEraseColor p s a) (s', a') ∧ Holds s' S ∧
      RightValues comb s' a' ∧ a'.datas = a.datas := by
  obtain ⟨⟨s', a'⟩, hret, hH, hv, hd⟩ := Prog.Returns.iterate_carry (RbAugmentCallbacks.eraseStep_tree ·)
    (Q := fun s' => Holds s' S) (Lacking S) (fun p => RightValues comb p.1.root p.2 ∧ p.2.datas = a.datas)
    (fun k q hq => by
      obtain ⟨i, hi, hm⟩ := hq.step
      obtain ⟨s', rfl, hH, -⟩ | ⟨q', j, rfl, hj, hl, -⟩ := hm
      · exact .inl ⟨s', hi, hH⟩
      · exact .inr ⟨q', j, hi, hj, hl⟩)
    (fun _ _ _ hl hv hi => hv.2 ▸ eraseStep_right hcomp hrot hl hv.1 hi) k (⟨none, p, s⟩, a) h ⟨hr, rfl⟩
  exact ⟨s', a', hret, hH, hv, hd⟩

/-! ### `__rb_erase_augmented` -/

omit [DecidableEq ι] [DecidableEq β] in
@[simp] theorem cached_blacken {data : ι → α} {value : ι → β} :
    Cached comb data value (blacken u) ↔ Cached comb data value u := by
  cases u <;> exact Iff.rfl

omit [DecidableEq β] in
@[simp] theorem datas_rbCopy : (rbCopy x y s a).datas = a.datas := RbStructs.datas_setAugmented ..

omit [DecidableEq β] in
theorem values_rbCopy : (rbCopy x y s a).values z = if z = y then a.values x else a.values z :=
  RbStructs.values_setAugmented ..

/-- Case 1: the child, if any, comes into the place of the node. -/
theorem spliced_right (hcomp : ComputesFrom rbcompute comb) (h : Focus s ctx (.make d u x c .nil))
    (hf : Focus s' ctx (blacken u)) (hr : RightValues comb s a) :
    ∃ a', Prog.Returns (rbPropagate rbcompute (rbParent x s) none s' a) a' ∧ RightValues comb s' a' ∧
      a'.datas = a.datas := by
  obtain ⟨ht, hctx⟩ := cached_fill.mp (hr.cached h)
  have hpar : rbParent x s = above ctx := h.parent_top (LTree.top_make ..)
  rw [hpar]
  exact rbPropagate_right hcomp hf (cached_blacken.mpr (cached_make.mp ht).2.1) hctx.stale

/-- What the tree looks like to `propagate` in case 3, once the child of the successor `y` has been moved. -/
theorem rbEraseLeftmost_chain {child : ι} {f : Frame ι RbColor} {rest : List (Frame ι RbColor)}
    (h : Focus s (f :: (ctx' ++ rest)) (.node .nil y ty u)) (hd : f.dir = .left)
    (htop : (fill (f :: ctx') t).top = some child) :
    Chain (rbEraseLeftmost child y f.x s).2.mem (some y) u.top (f :: ctx') := by
  have hnd := h.ctx_nodup
  have hap := h.apart y (by simp)
  rw [← List.cons_append, ctxNodes_append] at hnd hap
  have hnd' := (List.nodup_append'.mp hnd).1
  have hy : y ∉ ctxNodes (f :: ctx') := fun hm => hap (List.mem_append_left _ hm)
  have hcell : s.mem y = ⟨some f.x, ty, none, u.top⟩ := h.linked.1
  -- the chain below the erased node, with the child of the successor in the hole
  have hc : Chain (s.setChild .left f.x u.top).mem (above rest) u.top (f :: ctx') := by
    have hc := h.ctx_linked
    rw [← List.cons_append] at hc
    obtain ⟨hf, hc⟩ := hc.chain
    refine ⟨?_, hc.congr fun z hz => ?_⟩
    · rw [Store.setChild_mem, if_pos rfl, hf, hd]
      rfl
    · have hne : z ≠ f.x := fun e => by
        rw [ctxNodes_cons, List.nodup_cons] at hnd'
        exact hnd'.1 (e ▸ List.mem_append_right _ hz)
      rw [Store.setChild_mem, if_neg hne]
  refine hc.restop hnd' htop fun z hz => ?_
  have hzy : z ≠ y := fun e => hy (e ▸ hz)
  simp only [rbEraseLeftmost, hcell, rbSetParent, Store.setParent_mem, Store.setChild_mem, if_neg hzy]
  by_cases hzc : z = child
  · subst hzc
    rw [if_pos rfl, if_pos rfl, if_neg hzy]
  · rw [if_neg hzc, if_neg hzc]

/-- Cases 2 and 3 after the values below the successor have been mended. -/
theorem succeeded_right (hcomp : ComputesFrom rbcompute comb) {a₀ : RbStructs ι α β}
    (h : Focus s ctx (.node l x c r)) (hf : Focus s' ctx (.node l y c t)) (hr : RightValues comb s a₀)
    (hdatas : a.datas = a₀.datas) (ht : Cached comb a.datas a.values t) (hy : a.values y = a₀.values x)
    (hsame : ∀ z, z ∈ l.toList ∨ z ∈ ctxNodes ctx → a.values z = a₀.values z) :
    ∃ a', Prog.Returns (rbPropagate rbcompute (some y) none s' a) a' ∧ RightValues comb s' a' ∧
      a'.datas = a₀.datas := by
  obtain ⟨⟨-, hl, -⟩, hctx⟩ := cached_fill.mp (hr.cached h)
  have hfar := Focus.far_iff (d := .left) |>.mp hf
  rw [← hdatas] at hl hctx ⊢
  refine rbPropagate_right hcomp hfar ht ⟨hl.congr fun z hz => hsame z (.inl hz), ?_⟩
  rw [hy]
  exact hctx.congr fun z hz => hsame z (.inr hz)

/-- Case 3. -/
theorem leftmost_right (hcomp : ComputesFrom rbcompute comb) {lt child : ι} {f : Frame ι RbColor}
    (h : Focus s ctx (.node l x c (fill (f :: ctx') (.node .nil y ty u)))) (hl : l.top = some lt)
    (hchild : (fill (f :: ctx') (.node .nil y ty u)).top = some child) (hd : ∀ g ∈ f :: ctx', g.dir = .left)
    (hrb : IsRb (fill ctx (.node l x c (fill (f :: ctx') (.node .nil y ty u))))) (hr : RightValues comb s a) :
    ∃ a₁ i a', Prog.Returns (rbPropagate rbcompute (some f.x) (some y) (rbEraseLeftmost child y f.x s).2
        (rbCopy x y (rbEraseLeftmost child y f.x s).2 a)) a₁ ∧
      rbEraseReplace x y f.x (rbEraseLeftmost child y f.x s).1 (rbEraseLeftmost child y f.x s).2 = some i ∧
      Prog.Returns (rbPropagate rbcompute (some y) none i.2 a₁) a' ∧
      Removed (before ctx ++ (l.toList ++ (fill (f :: ctx') (.node .nil y ty u)).toList) ++ after ctx) i ∧
      RightValues comb i.2 a' ∧ a'.datas = a.datas := by
  let s₁ := (rbEraseLeftmost child y f.x s).2
  let a₀ : RbStructs ι α β := rbCopy x y s₁ a
  have hfar : Focus s (f :: (ctx' ++ ⟨.right, x, c, l⟩ :: ctx)) (.node .nil y ty u) := by
    rw [← List.cons_append]
    exact Focus.append_iff.mpr (Focus.far_iff (d := .left) |>.mp h)
  have hchain := rbEraseLeftmost_chain (t := .node .nil y ty u) hfar (hd f (by simp)) hchild
  have hnd := hfar.ctx_nodup
  have hap := hfar.apart
  have hnu := hfar.nodup
  rw [← List.cons_append, ctxNodes_append] at hnd hap
  simp only [List.nodup_append', List.disjoint_left, List.mem_append, not_or, LTree.toList_node,
    LTree.toList_nil, List.nil_append, List.mem_cons, ctxNodes_cons, List.nodup_cons] at hnd hap hnu
  obtain ⟨-, hnd₂, hdisj⟩ := hnd
  have hy := hap y (.inl rfl)
  -- `copy` gives `y` the value that the nodes above know
  have hcopy : ∀ z, z ≠ y → a₀.values z = a.values z := fun z hz => by
    rw [values_rbCopy, if_neg hz]
  have hall := hr.cached h
  obtain ⟨⟨-, -, hright⟩, -⟩ := cached_fill.mp hall
  obtain ⟨⟨-, -, hcu⟩, hctx'⟩ := cached_fill.mp hright
  have hyC : y ∉ ctxNodes (f :: ctx') := by
    rw [ctxNodes_cons, List.mem_cons, List.mem_append]
    tauto
  have hst : StaleCtx comb a₀.datas a₀.values (f :: ctx') := by
    rw [datas_rbCopy]
    exact (hctx'.congr fun z hz => hcopy z fun e => hyC (e ▸ hz)).stale
  have hndC : (ctxNodes (f :: ctx')).Nodup := by
    have := hfar.ctx_nodup
    rw [← List.cons_append, ctxNodes_append] at this
    exact (List.nodup_append'.mp this).1
  have huC : ∀ z ∈ u.toList, z ∉ ctxNodes (f :: ctx') := fun z hz => by
    have := (hap z (.inr hz)).1
    rw [ctxNodes_cons, List.mem_cons, List.mem_append]
    tauto
  obtain ⟨a₁, ha₁, hd₁, hc₁, hout₁⟩ := rbPropagate_chain hcomp hchain hst hndC
    (fun z hz => (Option.some.inj hz) ▸ hyC) fun z hz => huC z (LTree.top_mem hz)
  rw [above_cons, Option.some_or] at ha₁
  -- the right subtree has its values again
  have hu₁ : ∀ z ∈ u.toList, a₁.values z = a₀.values z := fun z hz => hout₁ z (huC z hz)
  have hcached : Cached comb a₁.datas a₁.values (fill (f :: ctx') (blacken u)) := by
    rw [hd₁, cached_fill, cached_blacken, top_blacken, top_map_congr hu₁]
    refine ⟨?_, hc₁⟩
    rw [datas_rbCopy]
    exact hcu.congr fun z hz => (hu₁ z hz).trans (hcopy z fun e => hnu.1 (e ▸ hz))
  obtain ⟨i, hi, hf, hrem, -⟩ := rbEraseReplace_leftmost h hl hchild hd hrb
  have hkeep : ∀ z, z ∈ l.toList ∨ z ∈ ctxNodes ctx → a₁.values z = a.values z := by
    intro z hz
    have hzC : z ∉ ctxNodes (f :: ctx') := by
      intro hm
      rw [ctxNodes_cons, List.mem_cons, List.mem_append] at hm
      exact hz.elim (hdisj hm).2.1 (hdisj hm).2.2
    refine (hout₁ z hzC).trans (hcopy z ?_)
    rintro rfl
    exact hz.elim hy.2.2.1 hy.2.2.2
  have hyx : a₁.values y = a.values x := by
    rw [hout₁ y hyC, values_rbCopy, if_pos rfl]
  obtain ⟨a', ha', hr', hd'⟩ := succeeded_right hcomp h hf hr (hd₁.trans datas_rbCopy) hcached hyx hkeep
  exact ⟨a₁, i, a', ha₁, hi, ha', hrem, hr', hd'⟩

theorem rbEraseAugmented_right (hcomp : ComputesFrom rbcompute comb) (h : Focus s ctx (.node l x c r))
    (hrb : IsRb (fill ctx (.node l x c r))) (hr : RightValues comb s a) :
    ∃ i a', Prog.Returns ((rbDeclareCallbacks rbcompute).rbEraseAugmented x s a) (i.1, i.2, a') ∧
      Removed (before ctx ++ (l.toList ++ r.toList) ++ after ctx) i ∧ RightValues comb i.2 a' ∧
      a'.datas = a.datas := by
  obtain ⟨n, hctx, hn, hmay⟩ := of_isRb_fill hrb
  have hx : s.mem x = ⟨above ctx, c, l.top, r.top⟩ := h.linked.1
  rw [RbAugmentCallbacks.rbEraseAugmented, hx]
  cases l with
  | nil =>
      obtain ⟨hf, hrem, -⟩ := rbEraseNoLeft_removed h hctx hn hmay
      rw [toList_fill] at hrem
      obtain ⟨a', ha', hr', hd⟩ := spliced_right (d := .right) hcomp h hf hr
      exact ⟨_, a', Prog.returns_bind.mpr ⟨a', ha', Prog.returns_pure.mpr rfl⟩, hrem, hr', hd⟩
  | node ll lt lc lr =>
      cases r with
      | nil =>
          obtain ⟨hf, hrem, -⟩ := rbEraseNoRight_removed h hctx hn hmay
          rw [toList_fill] at hrem
          have hf' : Focus (rbEraseNoRight x lt s).2 ctx (blacken (.node ll lt lc lr)) := hf
          obtain ⟨a', ha', hr', hd⟩ := spliced_right (d := .left) hcomp h hf' hr
          refine ⟨_, a', Prog.returns_bind.mpr ⟨a', ha', Prog.returns_pure.mpr rfl⟩, ?_, hr', hd⟩
          rw [LTree.toList_nil, List.append_nil]
          exact hrem
      | node rl child rc rr =>
          have hright := h.linked.2.2
          have hchild : s.mem child = ⟨some x, rc, rl.top, rr.top⟩ := hright.1
          obtain ⟨⟨-, hcl, hcr⟩, -⟩ := cached_fill.mp (hr.cached h)
          have hap := h.apart
          have hnd := h.nodup
          simp only [LTree.toList_node, List.nodup_append', List.nodup_cons, List.disjoint_left, List.mem_append,
            List.mem_cons, not_or] at hnd hap
          cases rl with
          | nil =>
              obtain ⟨i, hi, hf, hrem, -⟩ := rbEraseReplace_child h rfl hrb
              have hcopy : ∀ z, z ≠ child → (rbCopy x child s a).values z = a.values z := fun z hz => by
                rw [values_rbCopy, if_neg hz]
              have ht : Cached comb (rbCopy x child s a).datas (rbCopy x child s a).values (blacken rr) := by
                rw [datas_rbCopy, cached_blacken]
                exact hcr.2.2.congr fun z hz => hcopy z (by grind)
              obtain ⟨a', ha', hr', hd⟩ := succeeded_right hcomp h hf hr datas_rbCopy ht
                (by rw [values_rbCopy, if_pos rfl]) fun z hz => hcopy z (by grind [LTree.toList_node])
              refine ⟨i, a', ?_, hrem, hr', hd⟩
              simp only [LTree.top_node, LTree.top_nil, hchild]
              exact Prog.returns_bind.mpr ⟨i, Prog.returns_lift.mpr hi,
                Prog.returns_bind.mpr ⟨a', ha', Prog.returns_pure.mpr rfl⟩⟩
          | node rll z zc rlr =>
              obtain ⟨ctx', y, ty, u, e, hd, hret⟩ := rbLeftmost_returns hright.2.1 child
              have e' : LTree.node (.node rll z zc rlr) child rc rr =
                  fill (ctx' ++ [⟨.left, child, rc, rr⟩]) (.node .nil y ty u) := by
                rw [fill_append, ← e]
                rfl
              obtain ⟨f, fs, hf⟩ : ∃ f fs, ctx' ++ [⟨.left, child, rc, rr⟩] = f :: fs := by
                cases ctx' <;> exact ⟨_, _, rfl⟩
              have hp : (above ctx').getD child = f.x := by
                cases ctx' <;> cases hf <;> rfl
              have hd' : ∀ g ∈ f :: fs, g.dir = .left := by
                rw [← hf]
                simpa [or_imp, forall_and] using hd
              rw [hf] at e'
              rw [e'] at h hrb ⊢
              have htop : (fill (f :: fs) (.node .nil y ty u)).top = some child := by
                rw [← e']
                rfl
              obtain ⟨a₁, i, a', ha₁, hi, ha', hrem, hr', hdatas⟩ := leftmost_right hcomp h rfl htop hd' hrb hr
              refine ⟨i, a', ?_, hrem, hr', hdatas⟩
              rw [← e']
              simp only [LTree.top_node, hchild]
              refine Prog.returns_bind.mpr ⟨_, hret, ?_⟩
              rw [hp]
              exact Prog.returns_bind.mpr ⟨a₁, ha₁, Prog.returns_bind.mpr ⟨i, Prog.returns_lift.mpr hi,
                Prog.returns_bind.mpr ⟨a', ha', Prog.returns_pure.mpr rfl⟩⟩⟩

/-- **`rb_erase_augmented`** keeps all values right. -/
theorem rbErase_right (hcomp : ComputesFrom rbcompute comb) (hrot : RotationLaw comb)
    (h : Focus s ctx (.node l x c r)) (hrb : IsRb (fill ctx (.node l x c r))) (hr : RightValues comb s a) :
    ∃ s' a', Prog.Returns ((rbDeclareCallbacks rbcompute).rbErase x s a) (s', a') ∧
      Holds s' (before ctx ++ (l.toList ++ r.toList) ++ after ctx) ∧ RightValues comb s' a' ∧
      a'.datas = a.datas := by
  obtain ⟨⟨rebalance, s₁⟩, a₁, hret, hrem, hr₁, hd₁⟩ := rbEraseAugmented_right hcomp h hrb hr
  cases rebalance with
  | none => exact ⟨s₁, a₁, Prog.returns_bind.mpr ⟨_, hret, Prog.returns_pure.mpr rfl⟩, hrem, hr₁, hd₁⟩
  | some p =>
      obtain ⟨k, hk⟩ := hrem
      obtain ⟨s', a', hret', hH, hr', hd'⟩ := rbEraseColor_right hcomp hrot hk hr₁
      exact ⟨s', a', Prog.returns_bind.mpr ⟨_, hret, hret'⟩, hH, hr', hd'.trans hd₁⟩

end Libls.Rb
