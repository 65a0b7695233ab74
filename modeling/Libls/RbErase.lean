import Mathlib.Tactic
import Libls.RbEraseColor

/-! # Removal from a red-black tree

A node with at most one child is spliced out; otherwise the first node to its right is, and comes
into its place.  In either case a hole is left at which a black node may be missing. -/

namespace Libls.Rb

open LinkedTree

variable {ι : Type} [DecidableEq ι] {s : RbRoot ι} {ctx ctx' : List (Frame ι RbColor)} {d : Dir}
  {l r t u : LTree ι RbColor} {p q x y z : ι} {c ty : RbColor} {n : ℕ}

/-! ### The hole -/

/-- The tree with a black top. -/
def blacken : LTree ι RbColor → LTree ι RbColor
  | .nil => .nil
  | .node l x _ r => .node l x .black r

omit [DecidableEq ι] in
@[simp] theorem toList_blacken : (blacken t).toList = t.toList := by cases t <;> rfl

omit [DecidableEq ι] in
@[simp] theorem top_blacken : (blacken t).top = t.top := by cases t <;> rfl

/-- `if (tmp) rb_set_black(tmp)` -/
def setBlackOf (tmp : Option ι) (s : RbRoot ι) : RbRoot ι :=
  match tmp with
  | none => s
  | some tmp => rbSetBlack tmp s

@[simp] theorem setBlackOf_mem {o : Option ι} : (setBlackOf o s).mem y =
    if o = some y then (s.mem y).setTag .black else s.mem y := by
  cases o with
  | none => rfl
  | some z =>
      by_cases h : y = z
      · subst h
        simp [setBlackOf, rbSetBlack]
      · simp [setBlackOf, rbSetBlack, h, Ne.symm h]

@[simp] theorem setBlackOf_root {o : Option ι} : (setBlackOf o s).root = s.root := by cases o <;> rfl

theorem blacken_focus (h : Focus s ctx t) : Focus (setBlackOf t.top s) ctx (blacken t) := by
  cases t with
  | nil => exact h
  | node l x c r => exact h.setTag (d := .left) .black

theorem setBlackOf_same {L : List ι} (h : ∀ z, t.top = some z → z ∈ L) :
    SameOutside L s (setBlackOf t.top s) := by
  intro y hy
  rw [setBlackOf_mem, if_neg fun e => hy (h y e)]

/-- A removal that has left a tree that may need `____rb_erase_color`. -/
def Removed (S : List ι) (i : Option ι × RbRoot ι) : Prop :=
  match i.1 with
  | none => Holds i.2 S
  | some p => ∃ k, Lacking S k ⟨none, p, i.2⟩

omit [DecidableEq ι] in
/-- The node `y` had only the child `u`, which has come into its place with a black top. -/
theorem removed_of_focus {s' : RbRoot ι} (h : Focus s' ctx (blacken u)) (hctx : CtxOk ctx n)
    (hu : RbOk (.make d .nil y ty u) n) (hmay : ty = .red → MayBeRed ctx) :
    Removed (fill ctx (blacken u)).toList
      (if u.top = none ∧ ty = .black then above ctx else none, s') := by
  cases u with
  | nil =>
      cases ty with
      | red =>
          obtain ⟨-, -, -, hn⟩ := rbOk_red.mp hu
          exact Holds.of_focus h hctx hn (by simp [blacken])
      | black =>
          obtain ⟨m, rfl, -, hm⟩ := rbOk_black.mp hu
          cases ctx with
          | nil => exact Holds.of_focus h trivial hm (by simp [blacken])
          | cons f ctx => exact ⟨ctx.length, f, ctx, .nil, m, rfl, h, rfl, rfl, hm, hctx, rfl⟩
  | node ul z cu ur =>
      have hH : RbOk (.make .left ul z .black ur) n := by
        cases ty with
        | red =>
            obtain ⟨-, hb, hn, hu⟩ := rbOk_red.mp hu
            obtain rfl : cu = .black := hb
            obtain ⟨m, hm, -⟩ := rbOk_black (d := .left).mp hu
            rw [rbOk_nil] at hn
            omega
        | black =>
            obtain ⟨m, rfl, hn, hu⟩ := rbOk_black.mp hu
            obtain rfl : m = 0 := hn
            cases cu with
            | red =>
                obtain ⟨-, -, hl, hr⟩ := rbOk_red (d := .left).mp hu
                exact rbOk_black_succ.mpr ⟨hl, hr⟩
            | black =>
                obtain ⟨m, hm, -⟩ := rbOk_black (d := .left).mp hu
                omega
      exact Holds.of_focus h hctx hH (by simp [blacken])

/-! ### At most one child -/

theorem splice_removed {s' : RbRoot ι} (h : Focus s ctx (.make d u x c .nil))
    (hctx : CtxOk ctx n) (hu : RbOk (.make d u x c .nil) n) (hmay : c = .red → MayBeRed ctx)
    (hs' : s' = setBlackOf u.top (Focus.spliced s ctx x u.top)) :
    Focus s' ctx (blacken u) ∧
      Removed (fill ctx u).toList (if u.top = none ∧ c = .black then above ctx else none, s') ∧
      SameOutside (fill ctx (.make d u x c .nil)).toList s s' := by
  subst hs'
  rw [← LTree.make_other] at hu
  refine ⟨blacken_focus h.splice, ?_, Focus.spliced_same.trans (setBlackOf_same fun z hz => ?_)⟩
  · have := removed_of_focus (blacken_focus h.splice) hctx hu hmay
    rwa [toList_fill, toList_blacken, ← toList_fill] at this
  · simp [LTree.top_mem hz]

omit [DecidableEq ι] in
/-- The only child of a node is red. -/
theorem only_child_red {l r : LTree ι RbColor} {x : ι} {cl : RbColor}
    (h : RbOk (.make d (.make .left l y cl r) x c .nil) n) : cl = .red ∧ c = .black := by
  have hno : ¬ RbOk (.make .left l y .black r) 0 := fun h => by
    obtain ⟨m, hm, -⟩ := rbOk_black.mp h
    omega
  cases c with
  | red =>
      obtain ⟨hb, -, h, rfl⟩ := rbOk_red.mp h
      obtain rfl : cl = .black := by simpa using hb
      exact absurd h hno
  | black =>
      obtain ⟨m, -, h, rfl⟩ := rbOk_black.mp h
      cases cl with
      | red => exact ⟨rfl, rfl⟩
      | black => exact absurd h hno

/-- Case 1 of `__rb_erase_augmented` without a left child. -/
theorem rbEraseNoLeft_removed (h : Focus s ctx (.node .nil x c u)) (hctx : CtxOk ctx n)
    (hu : RbOk (.node .nil x c u) n) (hmay : c = .red → MayBeRed ctx) :
    Focus (rbEraseNoLeft x s).2 ctx (blacken u) ∧ Removed (fill ctx u).toList (rbEraseNoLeft x s) ∧
      SameOutside (fill ctx (.node .nil x c u)).toList s (rbEraseNoLeft x s).2 := by
  have hx : s.mem x = ⟨above ctx, c, none, u.top⟩ := h.linked.1
  have key : rbEraseNoLeft x s = (if u.top = none ∧ c = .black then above ctx else none,
      setBlackOf u.top (Focus.spliced s ctx x u.top)) := by
    rw [rbEraseNoLeft, rbParent, rbColor, hx]
    cases u with
    | nil => cases c <;> rfl
    | node ul y cu ur =>
        obtain ⟨-, rfl⟩ := only_child_red (d := .right) hu
        ext1
        · rfl
        · ext1
          · funext z
            by_cases hz : z = y
            · simp [Focus.spliced, rbChangeChild, hz]
            · simp [Focus.spliced, rbChangeChild, hz, Ne.symm hz]
          · simp [Focus.spliced, rbChangeChild]
  have := splice_removed (d := .right) h hctx hu hmay rfl
  rw [key]
  exact this

/-- Case 1 with a left child only. -/
theorem rbEraseNoRight_removed (h : Focus s ctx (.node (.node l y ty r) x c .nil))
    (hctx : CtxOk ctx n) (hu : RbOk (.node (.node l y ty r) x c .nil) n)
    (hmay : c = .red → MayBeRed ctx) :
    Focus (rbEraseNoRight x y s).2 ctx (.node l y .black r) ∧
      Removed (fill ctx (.node l y ty r)).toList (rbEraseNoRight x y s) ∧
      SameOutside (fill ctx (.node (.node l y ty r) x c .nil)).toList s (rbEraseNoRight x y s).2 := by
  have hx : s.mem x = ⟨above ctx, c, some y, none⟩ := h.linked.1
  obtain ⟨-, rfl⟩ := only_child_red (d := .left) hu
  have hay : above ctx ≠ some y := fun e => h.apart y (by simp) (above_mem e)
  have key : rbEraseNoRight x y s = (none, setBlackOf (some y) (Focus.spliced s ctx x (some y))) := by
    rw [rbEraseNoRight, rbCopyParentColor, rbParent, rbColor, hx, rbChangeChild, rbSetParentColor,
      Store.write_replaceChild _ _ _ hay]
    ext1
    · rfl
    · ext1
      · funext z
        by_cases hz : z = y
        · subst hz
          simp [Focus.spliced, Store.replaceChild_mem_of_ne _ _ hay, Cell.setTag, Cell.setParent]
        · simp [Focus.spliced, hz, Ne.symm hz]
      · simp [Focus.spliced]
  have hsp := splice_removed (d := .left) h hctx hu hmay rfl
  rw [key]
  simp only [LTree.top_node, reduceCtorEq, false_and, if_false] at hsp
  exact hsp

/-! ### Two children -/

/-- What the lines after cases 2 and 3 write. -/
theorem rbEraseReplace_mem {lt : ι} {par child2 rt : Option ι} (hx : s.mem x = ⟨par, c, some lt, rt⟩)
    (hxy : x ≠ y) (hlx : lt ≠ x) (hly : lt ≠ y) (hpx : par ≠ some x) (hpy : par ≠ some y)
    (hpl : par ≠ some lt) (h2 : ∀ z, child2 = some z → z ≠ y ∧ z ≠ lt ∧ par ≠ some z) :
    ∃ s' : RbRoot ι, rbEraseReplace x y q child2 s =
        some (if child2 = none ∧ rbColor y s = .black then some q else none, s') ∧
      s'.root = (s.replaceChild par x (some y)).root ∧
      (∀ z, par = some z → s'.mem z = (s.replaceChild par x (some y)).mem z) ∧
      ∀ z, par ≠ some z → s'.mem z = if z = y then ⟨par, c, some lt, (s.mem y).right⟩
        else if z = lt then (s.mem z).setParent (some y)
        else if child2 = some z then ((s.mem z).setParent (some q)).setTag .black else s.mem z := by
  let s₂ := rbSetParent lt (some y) (s.setChild .left y (some lt))
  let s₃ := rbChangeChild x (some y) (rbParent x s₂) s₂
  have hx₂ : s₂.mem x = s.mem x := by simp [s₂, rbSetParent, hlx.symm, hxy]
  have hs₃ : s₃ = s₂.replaceChild par x (some y) := by
    simp only [s₃, rbChangeChild, rbParent, hx₂, hx]
  have hout : ∀ z, par ≠ some z → s₃.mem z = s₂.mem z := fun z hz => by
    rw [hs₃, Store.replaceChild_mem_of_ne _ _ hz]
  have hcol : rbColor y s₃ = rbColor y s := by
    rw [rbColor, hout y hpy]
    simp [s₂, rbSetParent, hly.symm, rbColor, Cell.setChild]
  have heq : rbEraseReplace x y q child2 s = some (if child2 = none ∧ rbColor y s = .black then some q
      else none, rbSetParentColorOf child2 (some q) .black (rbCopyParentColor x y s₃)) := by
    rw [rbEraseReplace, hx, ← hcol]
    cases child2 with
    | none => simp only [true_and]; rfl
    | some z => rfl
  have hcopy : rbCopyParentColor x y s₃ = rbSetParentColor y par c s₃ := by
    rw [rbCopyParentColor, rbParent, rbColor, hout x hpx, hx₂, hx]
  refine ⟨_, heq, ?_, fun z hz => ?_, fun z hz => ?_⟩
  · rw [hcopy, rbSetParentColorOf_root, rbSetParentColor_root, hs₃]
    exact Focus.replaceChild_root_congr (show s₂.root = s.root from rfl) par x (some y)
  · have hzy : z ≠ y := fun e => hpy (e ▸ hz)
    have hz2 : child2 ≠ some z := fun e => (h2 z e).2.2 hz
    rw [hcopy, rbSetParentColorOf_mem, if_neg hz2, rbSetParentColor_mem, if_neg hzy, hs₃]
    have hin : ∀ w, par = some w → s₂.mem w = s.mem w := fun w hw => by
      have hwy : w ≠ y := fun e => hpy (e ▸ hw)
      have hwl : w ≠ lt := fun e => hpl (e ▸ hw)
      simp [s₂, rbSetParent, hwy, hwl]
    exact Focus.replaceChild_congr (hin z hz) hin _ _
  · rw [hcopy, rbSetParentColorOf_mem, rbSetParentColor_mem, hout z hz]
    by_cases hzy : z = y
    · subst hzy
      have hz2 : child2 ≠ some z := fun e => (h2 z e).1 rfl
      rw [if_neg hz2, if_pos rfl, if_pos rfl, hout z hz]
      simp [s₂, rbSetParent, hly.symm, Cell.setChild, Cell.setParent, Cell.setTag]
    · rw [if_neg hzy, if_neg hzy]
      by_cases hzl : z = lt
      · subst hzl
        have hz2 : child2 ≠ some z := fun e => (h2 z e).2.1 rfl
        rw [if_neg hz2, if_pos rfl]
        simp [s₂, rbSetParent, hly]
      · rw [if_neg hzl]
        simp [s₂, rbSetParent, hzy, hzl]

/-- The loop of case 3, which keeps the parent of the successor. -/
def rbLeftmost (q z : ι) (s : RbRoot ι) : Prog (ι × ι) :=
  Prog.iterate (fun p : ι × ι => .ofOption <| some <|
    match (s.mem p.2).left with
    | some tmp => .next (p.2, tmp)
    | none => .done p) (q, z)

omit [DecidableEq ι] in
theorem rbLeftmost_returns {par : Option ι} (h : Linked s.mem par (.node l z c r)) (q : ι) :
    ∃ ctx' y ty u, LTree.node l z c r = fill ctx' (.node .nil y ty u) ∧
      (∀ f ∈ ctx', f.dir = .left) ∧
      Prog.Returns (rbLeftmost q z s) ((above ctx').getD q, y) := by
  induction l generalizing par q z c r with
  | nil =>
      refine ⟨[], z, c, r, rfl, by simp, Prog.Returns.iterate_done ?_⟩
      rw [Prog.returns_ofOption, h.1]
      rfl
  | node l₁ z' c' r' ih _ =>
      obtain ⟨ctx', y, ty, u, e, hd, hret⟩ := ih h.2.1 z
      have hret' : Prog.Returns (rbLeftmost z z' s)
          ((above (ctx' ++ [⟨.left, z, c, r⟩])).getD q, y) := by
        cases ctx' <;> exact hret
      refine ⟨ctx' ++ [⟨.left, z, c, r⟩], y, ty, u, ?_, ?_, ?_⟩
      · rw [fill_append, ← e]
        rfl
      · simpa [or_imp, forall_and] using hd
      · refine Prog.Returns.iterate_next (Prog.returns_ofOption.mpr ?_) hret'
        rw [h.1]
        rfl

omit [DecidableEq ι] in
/-- Colours do not depend on which objects the nodes are. -/
theorem ctxOk_rename {sib : LTree ι RbColor} : CtxOk (ctx' ++ ⟨d, x, c, sib⟩ :: ctx) n ↔
    CtxOk (ctx' ++ ⟨d, y, c, sib⟩ :: ctx) n := by
  have hmay : ∀ ctx' : List (Frame ι RbColor), MayBeRed (ctx' ++ ⟨d, x, c, sib⟩ :: ctx) ↔
      MayBeRed (ctx' ++ ⟨d, y, c, sib⟩ :: ctx) := by
    intro ctx'
    cases ctx' <;> exact Iff.rfl
  induction ctx' generalizing n with
  | nil => exact Iff.rfl
  | cons f ctx' ih =>
      obtain ⟨d', z, c', sib'⟩ := f
      cases c' with
      | black => exact and_congr Iff.rfl ih
      | red => exact and_congr Iff.rfl (and_congr Iff.rfl (and_congr (hmay ctx') ih))

/-- The successor `y` of `x` has come into the place of `x`, and its child into its own, with a
black top. -/
theorem succeeded_removed {s' : RbRoot ι}
    (h : Focus s ctx (.node l x c (fill ctx' (.node .nil y ty u))))
    (hrb : IsRb (fill ctx (.node l x c (fill ctx' (.node .nil y ty u)))))
    (hd : ∀ f ∈ ctx', f.dir = .left)
    (hroot : s'.root = (s.replaceChild (above ctx) x (some y)).root)
    (hctx : ∀ z ∈ ctxNodes ctx, s'.mem z = (s.replaceChild (above ctx) x (some y)).mem z)
    (hmem : ∀ z ∉ ctxNodes ctx, z ≠ x → s'.mem z =
      if z = y then ⟨above ctx, c, l.top, (fill ctx' (blacken u)).top⟩
      else if l.top = some z ∨ (fill ctx' (blacken u)).top = some z then
        ((Focus.spliced (setBlackOf u.top s) (ctx' ++ ⟨.right, x, c, l⟩ :: ctx) y u.top).mem
          z).setParent (some y)
      else (Focus.spliced (setBlackOf u.top s) (ctx' ++ ⟨.right, x, c, l⟩ :: ctx) y u.top).mem z) :
    Focus s' ctx (.node l y c (fill ctx' (blacken u))) ∧
      Removed (before ctx ++ (l.toList ++ (fill ctx' (.node .nil y ty u)).toList) ++ after ctx)
        (if u.top = none ∧ ty = .black then some ((above ctx').getD y) else none, s') ∧
      SameOutside (fill ctx (.node l x c (fill ctx' (.node .nil y ty u)))).toList s s' := by
  have hfar : Focus s (ctx' ++ ⟨.right, x, c, l⟩ :: ctx) (.node .nil y ty u) :=
    Focus.append_iff.mpr (Focus.far_iff (d := .left) |>.mp h)
  have hu : ∀ z, u.top = some z → z ∉ ctxNodes ctx := fun z hz hc =>
    h.apart z (by simp [LTree.top_mem hz]) hc
  -- the child of `y` becomes black first
  have hblack : Focus (setBlackOf u.top s) ctx (.node l x c (fill ctx' (.node .nil y ty (blacken u)))) :=
    Focus.far_iff (d := .left) |>.mpr <| Focus.append_iff.mp <| Focus.far_iff (d := .left) |>.mpr <|
      blacken_focus (Focus.far_iff (d := .left) |>.mp hfar)
  have hcong : ∀ z ∈ ctxNodes ctx, (setBlackOf u.top s).mem z = s.mem z := fun z hz => by
    rw [setBlackOf_mem, if_neg fun e => hu z e hz]
  have hmem' : ∀ z ∉ ctxNodes ctx, z ≠ x → s'.mem z =
      if z = y then ⟨above ctx, c, l.top, (fill ctx' (blacken u)).top⟩
      else if l.top = some z ∨ (fill ctx' (blacken u)).top = some z then
        ((Focus.spliced (setBlackOf u.top s) (ctx' ++ ⟨.right, x, c, l⟩ :: ctx) y
          (blacken u).top).mem z).setParent (some y)
      else (Focus.spliced (setBlackOf u.top s) (ctx' ++ ⟨.right, x, c, l⟩ :: ctx) y
        (blacken u).top).mem z := by
    rw [top_blacken]
    exact hmem
  have hF := hblack.succeeded
    (hroot.trans (Focus.replaceChild_root_congr setBlackOf_root.symm _ _ _))
    (fun z hz => (hctx z hz).trans (Focus.replaceChild_congr (hcong z hz).symm
      (fun q hq => (hcong q (above_mem hq)).symm) _ _)) hmem'
  have hF' : Focus s' (ctx' ++ ⟨.right, y, c, l⟩ :: ctx) (blacken u) :=
    Focus.append_iff.mpr (Focus.far_iff (d := .left) |>.mp hF)
  have hfill : fill ctx (.node l x c (fill ctx' (.node .nil y ty u))) =
      fill (ctx' ++ ⟨.right, x, c, l⟩ :: ctx) (.node .nil y ty u) := by
    rw [fill_append]
    rfl
  rw [hfill] at hrb
  obtain ⟨n, hctxn, hn, hmay⟩ := of_isRb_fill hrb
  have hmay' : ty = .red → MayBeRed (ctx' ++ ⟨.right, y, c, l⟩ :: ctx) := fun e => by
    cases ctx' <;> exact hmay e
  have hrem := removed_of_focus (d := .left) hF' (ctxOk_rename.mp hctxn) hn hmay'
  refine ⟨hF, ?_, ?_⟩
  · have habove : above (ctx' ++ ⟨.right, y, c, l⟩ :: ctx) = some ((above ctx').getD y) := by
      cases ctx' <;> rfl
    have hL : (fill (ctx' ++ ⟨.right, y, c, l⟩ :: ctx) (blacken u)).toList =
        before ctx ++ (l.toList ++ (fill ctx' (.node .nil y ty u)).toList) ++ after ctx := by
      rw [fill_append, toList_fill ctx', before_eq_nil hd, fill, toList_fill, Frame.fill,
        LTree.make]
      simp [toList_fill, before_eq_nil hd]
    rw [habove, hL] at hrem
    exact hrem
  · have h1 : SameOutside (fill ctx (.node l x c (fill ctx' (.node .nil y ty u)))).toList s
        (setBlackOf u.top s) := setBlackOf_same fun z hz => by simp [LTree.top_mem hz]
    have h2 : SameOutside (fill ctx (.node l x c (fill ctx' (.node .nil y ty (blacken u))))).toList
        (setBlackOf u.top s) s' := Focus.succeeded_same hmem'
    refine h1.trans (h2.mono fun z hz => ?_)
    simpa using hz

/-- Case 2: the right child is the successor. -/
theorem rbEraseReplace_child {lt : ι} (h : Focus s ctx (.node l x c (.node .nil y ty u)))
    (hl : l.top = some lt) (hrb : IsRb (fill ctx (.node l x c (.node .nil y ty u)))) :
    ∃ i, rbEraseReplace x y y u.top s = some i ∧ Focus i.2 ctx (.node l y c (blacken u)) ∧
      Removed (before ctx ++ (l.toList ++ (LTree.node .nil y ty u).toList) ++ after ctx) i ∧
      SameOutside (fill ctx (.node l x c (.node .nil y ty u))).toList s i.2 := by
  have h₀ : Focus s ctx (.node l x c (fill [] (.node .nil y ty u))) := h
  have hx : s.mem x = ⟨above ctx, c, some lt, some y⟩ := hl ▸ h.linked.1
  have hy : s.mem y = ⟨some x, ty, none, u.top⟩ := h.linked.2.2.1
  have hlt : lt ∈ l.toList := LTree.top_mem hl
  have hnd := h.nodup
  have hap := h.apart
  simp only [LTree.toList_node, LTree.toList_nil, List.nil_append, List.nodup_append',
    List.nodup_cons, List.disjoint_left, List.mem_append, List.mem_cons, not_or] at hnd hap
  have hu : ∀ z, u.top = some z → z ≠ y ∧ z ≠ lt ∧ above ctx ≠ some z := fun z hz => by
    have hzu := LTree.top_mem hz
    refine ⟨?_, ?_, fun e => hap z (by tauto) (above_mem e)⟩
    · rintro rfl
      exact hnd.2.1.2.1 hzu
    · rintro rfl
      exact (hnd.2.2 hlt).2.2 hzu
  obtain ⟨s', heq, hroot, hpar, hmem⟩ := rbEraseReplace_mem (q := y) hx (by grind) (by grind)
    (by grind) (fun e => hap x (by simp) (above_mem e)) (fun e => hap y (by simp) (above_mem e))
    (fun e => hap lt (by simp [hlt]) (above_mem e)) hu
  have hcol : rbColor y s = ty := by rw [rbColor, hy]
  rw [hcol] at heq
  refine ⟨_, heq, succeeded_removed h₀ hrb (by simp) hroot (fun z hz => ?_)
    fun z hzc hzx => ?_⟩
  · by_cases hpz : above ctx = some z
    · exact hpar z hpz
    · have h1 : z ≠ y := fun e => hap y (by simp) (e ▸ hz)
      have h2 : z ≠ lt := fun e => hap lt (by simp [hlt]) (e ▸ hz)
      have h3 : u.top ≠ some z := fun e => hap z (by simp [LTree.top_mem e]) hz
      rw [hmem z hpz, if_neg h1, if_neg h2, if_neg h3, Store.replaceChild_mem_of_ne _ _ hpz]
  · have hpz : above ctx ≠ some z := fun e => hzc (above_mem e)
    have hxz : above (⟨.right, x, c, l⟩ :: ctx) ≠ some z := fun e => hzx (Option.some.inj e).symm
    rw [hmem z hpz, hy, hl]
    by_cases hzy : z = y
    · rw [if_pos hzy, if_pos hzy]
      simp [fill]
    · rw [if_neg hzy, if_neg hzy, Focus.spliced, Store.setParentOf_mem, List.nil_append,
        Store.replaceChild_mem_of_ne _ _ hxz, setBlackOf_mem]
      by_cases hzl : z = lt
      · subst hzl
        have hzu : u.top ≠ some z := fun e => (hu z e).2.1 rfl
        simp [hzu]
      · have hzl' : some lt ≠ some z := fun e => hzl (Option.some.inj e).symm
        by_cases hzu : u.top = some z
        · simp [hzl, hzu, fill, Cell.setParent, Cell.setTag]
        · simp [hzl, Ne.symm hzl, hzu, fill]

/-- What the lines of case 3 write before those that the cases 2 and 3 share. -/
theorem rbEraseLeftmost_mem {child : ι} {par near far : Option ι} (hyp : y ≠ p) (hyc : y ≠ child)
    (hy : s.mem y = ⟨par, ty, near, far⟩) :
    ∃ s₁ : RbRoot ι, rbEraseLeftmost child y p s = (far, s₁) ∧ s₁.root = s.root ∧
      ∀ z, s₁.mem z = if z = y then ⟨par, ty, near, some child⟩
        else if z = child then
          (if z = p then (s.mem z).setChild .left far else s.mem z).setParent (some y)
        else if z = p then (s.mem z).setChild .left far else s.mem z := by
  refine ⟨rbSetParent child (some y) ((s.setChild .left p far).setChild .right y (some child)),
    by rw [rbEraseLeftmost, hy], rfl, fun z => ?_⟩
  by_cases hzy : z = y
  · subst hzy
    simp [rbSetParent, hyc, hyp, hy, Cell.setChild]
  · by_cases hzc : z = child
    · subst hzc
      by_cases hzp : z = p
      · simp [rbSetParent, hyp.symm, hzp]
      · simp [rbSetParent, hyc.symm, hzp]
    · by_cases hzp : z = p
      · subst hzp
        simp [rbSetParent, hzc, hzy]
      · simp [rbSetParent, hzc, hzp, hzy]

/-- Case 3: the successor is further down, below `p`. -/
theorem rbEraseReplace_leftmost {lt child : ι} {f : Frame ι RbColor}
    (h : Focus s ctx (.node l x c (fill (f :: ctx') (.node .nil y ty u)))) (hl : l.top = some lt)
    (hchild : (fill (f :: ctx') (.node .nil y ty u)).top = some child)
    (hd : ∀ g ∈ f :: ctx', g.dir = .left)
    (hrb : IsRb (fill ctx (.node l x c (fill (f :: ctx') (.node .nil y ty u))))) :
    ∃ i, rbEraseReplace x y f.x (rbEraseLeftmost child y f.x s).1 (rbEraseLeftmost child y f.x s).2 =
        some i ∧
      Focus i.2 ctx (.node l y c (fill (f :: ctx') (blacken u))) ∧
      Removed (before ctx ++ (l.toList ++ (fill (f :: ctx') (.node .nil y ty u)).toList) ++
        after ctx) i ∧
      SameOutside (fill ctx (.node l x c (fill (f :: ctx') (.node .nil y ty u)))).toList s i.2 := by
  have hfar : Focus s (f :: (ctx' ++ ⟨.right, x, c, l⟩ :: ctx)) (.node .nil y ty u) := by
    rw [← List.cons_append]
    exact Focus.append_iff.mpr (Focus.far_iff (d := .left) |>.mp h)
  have hx : s.mem x = ⟨above ctx, c, some lt, some child⟩ := by rw [← hl, ← hchild]; exact h.linked.1
  have hy : s.mem y = ⟨some f.x, ty, none, u.top⟩ := hfar.linked.1
  have hf : (s.mem f.x).left = some y := by
    rw [hfar.mem_above, hd f (by simp)]
    rfl
  have hlt : lt ∈ l.toList := LTree.top_mem hl
  obtain ⟨child', hin, htop⟩ := exists_top_fill f ctx'
  obtain rfl : child' = child := Option.some.inj ((htop _).symm.trans hchild)
  have hnd := hfar.ctx_nodup
  have hap := hfar.apart
  rw [← List.cons_append, ctxNodes_append] at hnd hap
  have hfin : f.x ∈ ctxNodes (f :: ctx') := by simp
  generalize hC : ctxNodes (f :: ctx') = C at hin hfin hnd hap
  simp only [ctxNodes_cons, List.nodup_append', List.nodup_cons, List.disjoint_left, List.mem_append,
    List.mem_cons, not_or, LTree.toList_node, LTree.toList_nil, List.nil_append] at hnd hap
  have hnu := hfar.nodup
  simp only [LTree.toList_node, LTree.toList_nil, List.nil_append, List.nodup_cons] at hnu
  have hyp : y ≠ f.x := fun e => (hap y (.inl rfl)).1 (e ▸ hfin)
  have hyc : y ≠ child' := fun e => (hap y (.inl rfl)).1 (e ▸ hin)
  obtain ⟨s₁, hs₁, hroot₁, hmem₁⟩ := rbEraseLeftmost_mem hyp hyc hy
  have hkeep : ∀ z, z ∉ C → z ≠ y → s₁.mem z = s.mem z := fun z hz hzy => by
    have h1 : z ≠ child' := fun e => hz (e ▸ hin)
    have h2 : z ≠ f.x := fun e => hz (e ▸ hfin)
    rw [hmem₁, if_neg hzy, if_neg h1, if_neg h2]
  have hu : ∀ z, u.top = some z → z ≠ y ∧ z ≠ lt ∧ above ctx ≠ some z := fun z hz => by
    have hzu := LTree.top_mem hz
    refine ⟨?_, ?_, fun e => (hap z (.inr hzu)).2.2.2 (above_mem e)⟩
    · rintro rfl
      exact hnu.1 hzu
    · rintro rfl
      exact (hap z (.inr hzu)).2.2.1 hlt
  have hxy : x ≠ y := fun e => (hap y (.inl rfl)).2.1 e.symm
  have hlx : lt ≠ x := fun e => hnd.2.1.1.1 (e ▸ hlt)
  have hly : lt ≠ y := fun e => (hap y (.inl rfl)).2.2.1 (e ▸ hlt)
  have hxC : x ∉ C := fun e => (hnd.2.2 e).1 rfl
  have hlC : lt ∉ C := fun e => (hnd.2.2 e).2.1 hlt
  obtain ⟨s', heq, hroot, hpar, hmem⟩ := rbEraseReplace_mem (q := f.x)
    ((hkeep x hxC hxy).trans hx) hxy hlx hly (fun e => hnd.2.1.1.2 (above_mem e))
    (fun e => (hap y (.inl rfl)).2.2.2 (above_mem e)) (fun e => hnd.2.1.2.2.2 hlt (above_mem e)) hu
  have hcol : rbColor y s₁ = ty := by rw [rbColor, hmem₁, if_pos rfl]
  have hkeepc : ∀ z ∈ ctxNodes ctx, s₁.mem z = s.mem z := fun z hz =>
    hkeep z (fun e => (hnd.2.2 e).2.2 hz) fun e => (hap y (.inl rfl)).2.2.2 (e ▸ hz)
  rw [hcol] at heq
  rw [hs₁]
  refine ⟨_, heq, succeeded_removed h hrb hd
    (hroot.trans (Focus.replaceChild_root_congr hroot₁ _ _ _)) (fun z hz => ?_) fun z hzc hzx => ?_⟩
  · have hcong := Focus.replaceChild_congr (hkeepc z hz) (fun q hq => hkeepc q (above_mem hq)) x
      (some y)
    by_cases hpz : above ctx = some z
    · exact (hpar z hpz).trans hcong
    · have h1 : z ≠ y := fun e => (hap y (.inl rfl)).2.2.2 (e ▸ hz)
      have h2 : z ≠ lt := fun e => hnd.2.1.2.2.2 hlt (e ▸ hz)
      have h3 : u.top ≠ some z := fun e => (hap z (.inr (LTree.top_mem e))).2.2.2 hz
      rw [hmem z hpz, if_neg h1, if_neg h2, if_neg h3, ← hcong, Store.replaceChild_mem_of_ne _ _ hpz]
  · have hpz : above ctx ≠ some z := fun e => hzc (above_mem e)
    rw [hmem z hpz, htop, hl]
    by_cases hzy : z = y
    · rw [if_pos hzy, if_pos hzy, hmem₁, if_pos rfl]
    · rw [if_neg hzy, if_neg hzy]
      have hCu : ∀ z ∈ C, u.top ≠ some z := fun z hz e => (hap z (.inr (LTree.top_mem e))).1 hz
      have hrep : ((setBlackOf u.top s).replaceChild (some f.x) y u.top).mem z =
          if z = f.x then (s.mem z).setChild .left u.top
          else if u.top = some z then (s.mem z).setTag .black else s.mem z := by
        rw [Store.replaceChild, setBlackOf_mem, if_neg (hCu _ hfin), hf, if_pos rfl,
          Store.setChild_mem, setBlackOf_mem, setBlackOf_mem, if_neg (hCu _ hfin)]
        by_cases hzf : z = f.x
        · rw [if_pos hzf, if_pos hzf, hzf]
        · rw [if_neg hzf, if_neg hzf]
      rw [Focus.spliced, Store.setParentOf_mem, List.cons_append, above_cons, hrep, hmem₁,
        if_neg hzy]
      by_cases hzl : z = lt
      · subst hzl
        have h1 : z ≠ child' := fun e => hlC (e ▸ hin)
        have h2 : z ≠ f.x := fun e => hlC (e ▸ hfin)
        have h3 : u.top ≠ some z := fun e => (hu z e).2.1 rfl
        simp [h1, h2, h3]
      · by_cases hzc : z = child'
        · subst hzc
          simp [hzl, hCu z hin]
        · by_cases hzu : u.top = some z
          · have h2 : z ≠ f.x := fun e => hCu z (e ▸ hfin) hzu
            simp [hzl, hzc, hzu, h2, Ne.symm hzl, Ne.symm hzc, Cell.setParent, Cell.setTag]
          · simp [hzl, hzc, hzu, Ne.symm hzl, Ne.symm hzc]

/-! ### The whole function -/

/-- `__rb_erase_augmented` takes out the node, up to a missing black node. -/
theorem rbEraseAugmented_removed (h : Focus s ctx (.node l x c r))
    (hrb : IsRb (fill ctx (.node l x c r))) :
    ∃ i, Prog.Returns (rbEraseAugmented x s) i ∧
      Removed (before ctx ++ (l.toList ++ r.toList) ++ after ctx) i ∧
      SameOutside (fill ctx (.node l x c r)).toList s i.2 := by
  obtain ⟨n, hctx, hn, hmay⟩ := of_isRb_fill hrb
  have hx : s.mem x = ⟨above ctx, c, l.top, r.top⟩ := h.linked.1
  rw [rbEraseAugmented, hx]
  cases l with
  | nil =>
      have hrem := (rbEraseNoLeft_removed h hctx hn hmay).2
      rw [toList_fill] at hrem
      exact ⟨_, Prog.returns_pure.mpr rfl, hrem⟩
  | node ll lt lc lr =>
      cases r with
      | nil =>
          have hrem := (rbEraseNoRight_removed h hctx hn hmay).2
          rw [toList_fill] at hrem
          refine ⟨_, Prog.returns_pure.mpr rfl, ?_⟩
          rw [LTree.toList_nil, List.append_nil]
          exact hrem
      | node rl child rc rr =>
          have hr := h.linked.2.2
          have hchild : s.mem child = ⟨some x, rc, rl.top, rr.top⟩ := hr.1
          cases rl with
          | nil =>
              obtain ⟨i, hi, -, hrem⟩ := rbEraseReplace_child h rfl hrb
              refine ⟨i, ?_, hrem⟩
              simp only [LTree.top_node, LTree.top_nil, hchild, Prog.returns_lift]
              exact hi
          | node rll z zc rlr =>
              obtain ⟨ctx', y, ty, u, e, hd, hret⟩ := rbLeftmost_returns hr.2.1 child
              have e' : LTree.node (.node rll z zc rlr) child rc rr =
                  fill (ctx' ++ [⟨.left, child, rc, rr⟩]) (.node .nil y ty u) := by
                rw [fill_append, ← e]
                rfl
              obtain ⟨f, fs, hf⟩ : ∃ f fs, ctx' ++ [⟨.left, child, rc, rr⟩] = f :: fs := by
                cases ctx' <;> exact ⟨_, _, rfl⟩
              have hp : (above ctx').getD child = f.x := by
                cases ctx' <;> cases hf <;> rfl
              have hd' : ∀ g ∈ f :: fs, g.dir = .left := by
                rw [← hf]
                simpa [or_imp, forall_and] using hd
              rw [hf] at e'
              rw [e'] at h hrb ⊢
              have htop : (fill (f :: fs) (.node .nil y ty u)).top = some child := by
                rw [← e']
                rfl
              obtain ⟨i, hi, -, hrem⟩ := rbEraseReplace_leftmost h rfl htop hd' hrb
              refine ⟨i, ?_, hrem⟩
              rw [← e']
              simp only [LTree.top_node, hchild, Prog.returns_bind]
              refine ⟨_, hret, ?_⟩
              rw [hp]
              exact Prog.returns_lift.mpr hi

/-- **`rb_erase`** takes the node out of the sequence and leaves a red-black tree. -/
theorem rbErase_holds (h : Focus s ctx (.node l x c r)) (hrb : IsRb (fill ctx (.node l x c r))) :
    ∃ s', Prog.Returns (rbErase x s) s' ∧
      Holds s' (before ctx ++ (l.toList ++ r.toList) ++ after ctx) ∧
      SameOutside (fill ctx (.node l x c r)).toList s s' := by
  obtain ⟨⟨reb, s₁⟩, hi, hrem, hs⟩ := rbEraseAugmented_removed h hrb
  cases reb with
  | none => exact ⟨s₁, Prog.returns_bind.mpr ⟨_, hi, Prog.returns_pure.mpr rfl⟩, hrem, hs⟩
  | some p =>
      obtain ⟨k, hk⟩ := hrem
      obtain ⟨s', hs', hH, hsame⟩ := rbEraseColor_holds hk
      refine ⟨s', Prog.returns_bind.mpr ⟨_, hi, hs'⟩, hH, hs.trans (hsame.mono fun y hy => ?_)⟩
      rw [toList_fill, LTree.toList_node]
      simp only [List.mem_append, List.mem_cons] at hy ⊢
      tauto

end Libls.Rb
