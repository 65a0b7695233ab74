import Mathlib.Tactic
import Libls.RbBalance

/-! # Rebalancing a red-black tree after a removal

`Lacking` is the invariant of the loop of `____rb_erase_color`: the paths through the subtree at
`node` have one black node too few, and nothing else is wrong.  Case 1 only rotates the node down
to a black sibling, case 2 hands the lack up to the parent or ends it there, and cases 3 and 4 end
it with a rotation. -/

namespace Libls.Rb

open LinkedTree

variable {ι : Type} [DecidableEq ι] {s : RbRoot ι} {ctx : List (Frame ι RbColor)} {d : Dir}
  {a a₁ a₂ b t w : LTree ι RbColor} {p y z : ι} {c : RbColor} {n : ℕ}

/-! ### Rotations -/

/-- Case 1: a rotation that lifts the red sibling `y` over `p`. -/
theorem rbEraseRedSibling_focus (h : Focus s ctx (.make d t p .black (.make d a y .red b)))
    (ha : color a = .black) (hz : a.top = some z) :
    ∃ s', rbEraseRedSibling d p y s = some (z, s') ∧
      Focus s' ctx (.make d (.make d t p .red a) y .black b) ∧
      SameOutside (fill ctx (.make d t p .black (.make d a y .red b))).toList s s' := by
  have hp := h.mem_top
  have hy : s.mem y = .make d (some p) .red a.top b.top := (Focus.far_iff.mp h).mem_top
  have hla : Linked s.mem (some y) a := (linked_make.mp (Focus.far_iff.mp h).linked).2.1
  obtain ⟨hyp, hay, hap⟩ := h.rotate_apart
  rw [hz] at hay hap
  have hzy : z ≠ y := fun e => hay (by rw [e])
  have hzp : z ≠ p := fun e => hap (by rw [e])
  let s₁ := rbSetParentColor p (some y) .red (rbCopyParentColor p y (rbSetParentColor z (some p)
    .black ((s.setChild d.other p (some z)).setChild d y (some p))))
  have hmem : ∀ x, s₁.mem x = if x = y then .make d (above ctx) .black (some p) b.top
      else if x = p then .make d (some y) .red t.top a.top
      else if a.top = some x then (s.mem x).setParent (some p) else s.mem x := by
    intro x
    by_cases hxy : x = y
    · subst hxy
      simp [s₁, rbCopyParentColor, hyp, hyp.symm, hzy.symm, hzp.symm, hp, hy, rbParent, rbColor]
    · by_cases hxp : x = p
      · subst hxp
        simp [s₁, rbCopyParentColor, hyp.symm, hzp.symm, hp, hz]
      · simp only [s₁, rbSetParentColor_mem, rbCopyParentColor, Store.setChild_mem, hxy, hxp,
          if_false]
        rw [hz]
        by_cases hxz : x = z
        · subst hxz
          rw [if_pos rfl, if_pos rfl, if_neg hxy, if_neg hxp, setParentColor_black hla ha hz]
        · rw [if_neg hxz, if_neg (by simpa using Ne.symm hxz)]
  have hpar : rbParent p (rbSetParentColor z (some p) .black ((s.setChild d.other p (some z)).setChild
      d y (some p))) = above ctx := by
    simp [rbParent, hzp.symm, hyp.symm, hp]
  refine ⟨s₁.replaceChild (above ctx) p (some y), ?_, ?_, Focus.rotated_same hmem⟩
  · rw [← hpar, rbEraseRedSibling, hy, Cell.make_child, hz]
    rfl
  · exact h.rotated (by simp [s₁, rbCopyParentColor]) hmem

/-- What case 4 writes, before `y` comes into the place of `p`. -/
theorem rbEraseOuter_mem {v : ι} {tmp2 par q near far out : Option ι} {ty : RbColor} (hyp : y ≠ p)
    (hvy : v ≠ y) (hvp : v ≠ p) (hv : tmp2 ≠ some v) (hty : tmp2 ≠ some y) (htp : tmp2 ≠ some p)
    (hp : s.mem p = .make d par c near far) (hy : s.mem y = .make d q ty tmp2 out) :
    ∃ s₁ : RbRoot ι, rbEraseOuter d p y v s = s₁.replaceChild par p (some y) ∧ s₁.root = s.root ∧
      ∀ x, s₁.mem x = if x = y then .make d par c (some p) out
        else if x = p then .make d (some y) .black near tmp2
        else if x = v then ((s.mem x).setParent (some y)).setTag .black
        else if tmp2 = some x then (s.mem x).setParent (some p) else s.mem x := by
  let s₀ := (rbSetParentColor v (some y) .black ((s.setChild d.other p tmp2).setChild d y
    (some p))).setParentOf tmp2 (some p)
  have hpar : rbParent p s₀ = par := by simp [s₀, rbParent, htp, hvp.symm, hyp.symm, hp]
  refine ⟨rbSetParentColor p (some y) .black (rbCopyParentColor p y s₀), ?_,
    by simp [s₀, rbCopyParentColor], ?_⟩
  · rw [← hpar, rbEraseOuter, hy, Cell.make_child]
    rfl
  · intro x
    by_cases hxy : x = y
    · subst hxy
      simp [s₀, rbCopyParentColor, hyp, hyp.symm, hvy.symm, hvp.symm, hty, htp, hp, hy, rbParent,
        rbColor]
    · by_cases hxp : x = p
      · subst hxp
        simp [s₀, rbCopyParentColor, hyp.symm, hvp.symm, htp, hp]
      · simp only [s₀, rbSetParentColor_mem, rbCopyParentColor, Store.setParentOf_mem,
          Store.setChild_mem, hxy, hxp, if_false]
        by_cases hxv : x = v
        · subst hxv
          simp only [hxy, hxp, hv, if_false, if_true]
        · rw [if_neg hxv, if_neg hxv]

/-- Case 4: a rotation that lifts `y` over `p`, while the outer child of `y` becomes black. -/
theorem rbEraseOuter_focus {b₁ b₂ : LTree ι RbColor} {v : ι}
    (h : Focus s ctx (.make d t p c (.make d a y .black (.make d b₁ v .red b₂)))) :
    Focus (rbEraseOuter d p y v s) ctx
        (.make d (.make d t p .black a) y c (.make d b₁ v .black b₂)) ∧
      SameOutside (fill ctx (.make d t p c (.make d a y .black (.make d b₁ v .red b₂)))).toList s
        (rbEraseOuter d p y v s) := by
  have hp := h.mem_top
  have hy : s.mem y = .make d (some p) .black a.top (some v) := by
    simpa using (Focus.far_iff.mp h).mem_top
  have hfar := Focus.far_iff.mp (Focus.far_iff.mp h)
  have hvpar : (s.mem v).parent = some y := hfar.parent_top (LTree.top_make ..)
  have hnd := h.nodup
  simp only [LTree.nodup_make, LTree.mem_make, not_or] at hnd
  have hyp : y ≠ p := by grind
  have hvy : v ≠ y := by grind
  have hvp : v ≠ p := by grind
  have hav : ∀ x, a.top = some x → x ≠ v ∧ x ≠ y ∧ x ≠ p := fun x hx => by
    grind [LTree.top_mem hx]
  obtain ⟨s₁, heq, hroot, hmem⟩ := rbEraseOuter_mem hyp hvy hvp (fun e => (hav v e).1 rfl)
    (fun e => (hav y e).2.1 rfl) (fun e => (hav p e).2.2 rfl) hp hy
  have h' := Focus.far_iff.mpr (Focus.far_iff.mpr (hfar.setTag .black))
  have hmem' : ∀ x, s₁.mem x =
      if x = y then .make d (above ctx) c (some p) (LTree.make d b₁ v .black b₂).top
      else if x = p then .make d (some y) .black t.top a.top
      else if a.top = some x then ((s.setTag v .black).mem x).setParent (some p)
      else (s.setTag v .black).mem x := by
    intro x
    rw [hmem, LTree.top_make]
    by_cases hxv : x = v
    · subst hxv
      have hax : a.top ≠ some x := fun e => (hav x e).1 rfl
      simp only [hvy, hvp, hax, if_false, if_true, Store.setTag_mem]
      rw [← hvpar]
      rfl
    · simp only [hxv, if_false, Store.setTag_mem]
  rw [heq]
  have hv : SameOutside (fill ctx (.make d t p c (.make d a y .black (.make d b₁ v .red b₂)))).toList
      s (s.setTag v .black) := SameOutside.write (by simp) _
  refine ⟨h'.rotated hroot hmem', hv.trans ?_⟩
  have hsame : SameOutside (fill ctx (.make d t p c (.make d a y .black (.make d b₁ v .black
      b₂)))).toList (s.setTag v .black) _ := Focus.rotated_same hmem'
  exact hsame.mono fun x hx => by simpa using hx

/-- What case 3 writes. -/
theorem rbEraseInner_mem {q q' near far in₁ in₂ in₃ out par : Option ι} {ty tz : RbColor}
    (hyz : y ≠ z) (hyp : y ≠ p) (hzp : z ≠ p) (hy₂ : in₂ ≠ some y) (hz₂ : in₂ ≠ some z)
    (hp₂ : in₂ ≠ some p) (hp : s.mem p = .make d par c near far)
    (hy : s.mem y = .make d q ty in₃ out) (hz : s.mem z = .make d q' tz in₁ in₂) :
    ∃ s₁ : RbRoot ι, rbEraseInner d p y z s = (y, z, s₁) ∧ s₁.root = s.root ∧
      ∀ x, s₁.mem x = if x = y then .make d q ty in₂ out
        else if x = z then .make d q' tz in₁ (some y)
        else if x = p then .make d par c near (some z)
        else if in₂ = some x then ((s.mem x).setParent (some y)).setTag .black else s.mem x := by
  refine ⟨rbSetParentColorOf in₂ (some y) .black (((s.setChild d y in₂).setChild d.other z
    (some y)).setChild d.other p (some z)), ?_, by simp, ?_⟩
  · rw [rbEraseInner, hz, Cell.make_child_other]
  · intro x
    by_cases hxy : x = y
    · subst hxy
      simp [hy₂, hyz, hyp, hy]
    · by_cases hxz : x = z
      · subst hxz
        simp [hz₂, hyz.symm, hzp, hz]
      · by_cases hxp : x = p
        · subst hxp
          simp [hp₂, hyp.symm, hzp.symm, hp]
        · simp [hxy, hxz, hxp]

/-- Cases 3 and 4: the inner child `z` of the sibling is lifted over the sibling and the parent. -/
theorem rbEraseInner_focus
    (h : Focus s ctx (.make d t p c (.make d (.make d a₁ z .red a₂) y .black b)))
    (ha₂ : color a₂ = .black) :
    ∃ s₁, rbEraseInner d p y z s = (y, z, s₁) ∧
      Focus (rbEraseOuter d p z y s₁) ctx
        (.make d (.make d t p .black a₁) z c (.make d a₂ y .black b)) ∧
      SameOutside (fill ctx (.make d t p c (.make d (.make d a₁ z .red a₂) y .black b))).toList s
        (rbEraseOuter d p z y s₁) := by
  have hp := h.mem_top
  have hy : s.mem y = .make d (some p) .black (some z) b.top := by
    simpa using (Focus.far_iff.mp h).mem_top
  have hz : s.mem z = .make d (some y) .red a₁.top a₂.top :=
    (Focus.near_iff.mp (Focus.far_iff.mp h)).mem_top
  have hl₂ : Linked s.mem (some z) a₂ :=
    (linked_make.mp (Focus.near_iff.mp (Focus.far_iff.mp h)).linked).2.2
  have hnd := h.nodup
  simp only [LTree.nodup_make, LTree.mem_make, not_or] at hnd
  have hyz : y ≠ z := by grind
  have hyp : y ≠ p := by grind
  have hzp : z ≠ p := by grind
  have h₁ : ∀ x, a₁.top = some x → x ≠ y ∧ x ≠ z ∧ x ≠ p ∧ a₂.top ≠ some x := fun x hx => by
    grind [LTree.top_mem hx, LTree.top_mem]
  have h₂ : ∀ x, a₂.top = some x → x ≠ y ∧ x ≠ z ∧ x ≠ p := fun x hx => by
    grind [LTree.top_mem hx]
  obtain ⟨s₁, hinner, hroot₁, hmem₁⟩ := rbEraseInner_mem hyz hyp hzp (fun e => (h₂ y e).1 rfl)
    (fun e => (h₂ z e).2.1 rfl) (fun e => (h₂ p e).2.2 rfl) hp hy hz
  have hp₁ : s₁.mem p = .make d (above ctx) c t.top (some z) := by
    rw [hmem₁, if_neg hyp.symm, if_neg hzp.symm, if_pos rfl]
  have hz₁ : s₁.mem z = .make d (some y) .red a₁.top (some y) := by
    rw [hmem₁, if_neg hyz.symm, if_pos rfl]
  have hy₁ : s₁.mem y = .make d (some p) .black a₂.top b.top := by rw [hmem₁, if_pos rfl]
  obtain ⟨s₂, houter, hroot₂, hmem₂⟩ := rbEraseOuter_mem hzp hyz hyp (fun e => (h₁ y e).1 rfl)
    (fun e => (h₁ z e).2.1 rfl) (fun e => (h₁ p e).2.2.1 rfl) hp₁ hz₁
  refine ⟨s₁, hinner, ?_⟩
  rw [houter]
  have h' : Focus s ctx (.make d.other (.make d.other b y .black (.make d.other a₂ z .red a₁)) p c
      t) := by
    simpa only [LTree.make_other] using h
  have hmem : ∀ x, s₂.mem x = if x = z then .make d.other (above ctx) c (some y) (some p)
      else if x = y then .make d.other (some z) .black b.top a₂.top
      else if x = p then .make d.other (some z) .black a₁.top t.top
      else if a₂.top = some x then (s.mem x).setParent (some y)
      else if a₁.top = some x then (s.mem x).setParent (some p) else s.mem x := by
    intro x
    rw [hmem₂]
    by_cases hxz : x = z
    · rw [if_pos hxz, if_pos hxz, Cell.make_other]
    · rw [if_neg hxz, if_neg hxz]
      by_cases hxy : x = y
      · rw [if_neg (hxy ▸ hyp), if_pos hxy, if_pos hxy, hxy, hy₁, Cell.make_other]
        simp
      · rw [if_neg hxy, if_neg hxy]
        by_cases hxp : x = p
        · rw [if_pos hxp, if_pos hxp, Cell.make_other]
        · rw [if_neg hxp, if_neg hxp, hmem₁, if_neg hxy, if_neg hxz, if_neg hxp]
          by_cases hx₂ : a₂.top = some x
          · have hx₁ : a₁.top ≠ some x := fun e => (h₁ x e).2.2.2 hx₂
            rw [if_neg hx₁, if_pos hx₂, if_pos hx₂, setParentColor_black hl₂ ha₂ hx₂]
          · rw [if_neg hx₂, if_neg hx₂]
  simpa only [LTree.make_other] using h'.doubleRotated (hroot₂.trans hroot₁) hmem

/-! ### The loop -/

/-- The hole below `parent`, at depth `k + 1`, holds a tree that is one black node too low for its
surroundings. -/
def Lacking (S : List ι) (k : ℕ) (q : RbEraseLoop ι) : Prop :=
  ∃ f ctx t n, ctx.length = k ∧ Focus q.root (f :: ctx) t ∧ q.node = t.top ∧ q.parent = f.x ∧
    RbOk t n ∧ CtxOk (f :: ctx) (n + 1) ∧ (fill (f :: ctx) t).toList = S

/-- A pass that does what `____rb_erase_color` has to do, with the store `s` before it. -/
def Mends (S : List ι) (k : ℕ) (s : RbRoot ι) (i : Iter (RbEraseLoop ι) (RbRoot ι)) : Prop :=
  (∃ s', i = .done s' ∧ Holds s' S ∧ SameOutside S s s') ∨
    ∃ q j, i = .next q ∧ j < k ∧ Lacking S j q ∧ SameOutside S s q.root

omit [DecidableEq ι] in
theorem Mends.trans {S : List ι} {k : ℕ} {s s' : RbRoot ι} {i : Iter (RbEraseLoop ι) (RbRoot ι)}
    (h : Mends S k s' i) (hs : SameOutside S s s') : Mends S k s i := by
  obtain ⟨s'', hi, hH, hsame⟩ | ⟨q, j, hi, hj, hl, hsame⟩ := h
  · exact .inl ⟨s'', hi, hH, hs.trans hsame⟩
  · exact .inr ⟨q, j, hi, hj, hl, hs.trans hsame⟩

/-- Case 2: the sibling and its children are black. -/
theorem rbEraseFlip_mends (h : Focus s (⟨d, p, c, .make d a y .black b⟩ :: ctx) t)
    (ha : color a = .black) (hb : color b = .black) (htn : RbOk t n)
    (hctx : CtxOk (⟨d, p, c, .make d a y .black b⟩ :: ctx) (n + 1)) {k : ℕ}
    (hk : c = .black → ctx.length ≤ k) :
    Mends (fill (⟨d, p, c, .make d a y .black b⟩ :: ctx) t).toList k s
      (rbEraseFlip p y s) := by
  obtain ⟨hw, hctx⟩ := hctx
  obtain ⟨han, hbn⟩ := rbOk_black_succ.mp hw
  have hfar := Focus.far_iff.mp (Focus.near_iff.mpr h)
  have heq : rbSetParentColor y (some p) .red s = s.setTag y .red :=
    rbSetParentColor_eq (hfar.parent_top (LTree.top_make ..))
  have h' := Focus.far_iff.mpr (hfar.setTag .red)
  have hpc : rbColor p (s.setTag y .red) = c := by rw [rbColor, h'.mem_top, Cell.make_tag]
  have hpp : rbParent p (s.setTag y .red) = above ctx := h'.parent_top (LTree.top_make ..)
  have hin : ∀ x, x = y ∨ x = p → x ∈ (fill (⟨d, p, c, .make d a y .black b⟩ :: ctx) t).toList := by
    intro x hx
    simp only [mem_fill, ctxNodes_cons, List.mem_cons, List.mem_append, LTree.mem_make]
    tauto
  have hsame : SameOutside (fill (⟨d, p, c, .make d a y .black b⟩ :: ctx) t).toList s
      (s.setTag y .red) := SameOutside.write (hin y (.inl rfl)) _
  have hL : ∀ c', (fill ctx (.make d t p c' (.make d a y .red b))).toList =
      (fill (⟨d, p, c, .make d a y .black b⟩ :: ctx) t).toList := by
    intro c'
    rw [fill, toList_fill, toList_fill, Frame.fill]
    cases d <;> simp [LTree.make]
  have hred : RbOk (.make d a y .red b) n := rbOk_red.mpr ⟨ha, hb, han, hbn⟩
  have hblack : RbOk (.make d t p .black (.make d a y .red b)) (n + 1) :=
    rbOk_black_succ.mpr ⟨htn, hred⟩
  rw [Mends, rbEraseFlip]
  simp only [heq, hpc, hpp]
  cases c with
  | red =>
      left
      refine ⟨_, rfl, ?_, hsame.trans (SameOutside.write (hin p (.inr rfl)) _)⟩
      rw [← hL .black]
      exact Holds.of_focus (h'.setTag .black) hctx.2.2 hblack (by simp)
  | black =>
      cases ctx with
      | nil =>
          left
          refine ⟨s.setTag y .red, rfl, ?_, hsame⟩
          rw [← hL .black]
          exact ⟨_, h', ⟨by simp, n + 1, hblack⟩, rfl⟩
      | cons f ctx =>
          right
          refine ⟨⟨some p, f.x, s.setTag y .red⟩, ctx.length, rfl, hk rfl, ?_, hsame⟩
          exact ⟨f, ctx, _, n + 1, rfl, h', by simp, rfl, hblack, hctx, hL .black⟩

/-- Cases 2 to 4. -/
theorem rbEraseBlackSibling_mends (h : Focus s (⟨d, p, c, .make d a y .black b⟩ :: ctx) t)
    (htn : RbOk t n)
    (hctx : CtxOk (⟨d, p, c, .make d a y .black b⟩ :: ctx) (n + 1)) {k : ℕ}
    (hk : c = .black → ctx.length ≤ k) :
    Mends (fill (⟨d, p, c, .make d a y .black b⟩ :: ctx) t).toList k s
      (rbEraseBlackSibling d p y s) := by
  have h' := Focus.near_iff.mpr h
  have hfar := Focus.far_iff.mp h'
  have hy := hfar.mem_top
  obtain ⟨-, hla, hlb⟩ := linked_make.mp hfar.linked
  have hra := rbIsRed_top hla
  have hrb := rbIsRed_top hlb
  rw [rbEraseBlackSibling, hy, Cell.make_child, Cell.make_child_other]
  obtain ⟨hw, hctx'⟩ := id hctx
  obtain ⟨han, hbn⟩ := rbOk_black_succ.mp hw
  -- the subtree at `p` after cases 3 and 4
  have hend : ∀ {l r : LTree ι RbColor} {x : ι} {s' : RbRoot ι},
      Focus s' ctx (.make d l x c r) → color l = .black → color r = .black → RbOk l (n + 1) →
      RbOk r (n + 1) → Holds s' (fill ctx (.make d l x c r)).toList := by
    intro l r x s' hf hl hr hln hrn
    cases c with
    | black => exact Holds.of_focus hf hctx' (rbOk_black_succ.mpr ⟨hln, hrn⟩) (by simp)
    | red =>
        exact Holds.of_focus hf hctx'.2.2 (rbOk_red.mpr ⟨hl, hr, hln, hrn⟩) fun _ => hctx'.2.1
  cases hcb : color b with
  | red =>
      obtain ⟨b₁, v, b₂, rfl⟩ := exists_make_of_red d hcb
      obtain ⟨-, -, hb₁, hb₂⟩ := rbOk_red.mp hbn
      rw [LTree.top_make] at hrb ⊢
      rw [hrb.mpr hcb]
      obtain ⟨hf, hs⟩ := rbEraseOuter_focus h'
      refine .inl ⟨_, rfl, ?_, hs⟩
      have := hend hf (by simp) (by simp) (rbOk_black_succ.mpr ⟨htn, han⟩)
        (rbOk_black_succ.mpr ⟨hb₁, hb₂⟩)
      rw [fill, Frame.fill, toList_fill]
      rw [toList_fill] at this
      convert this using 3
      cases d <;> simp [LTree.make]
  | black =>
      rw [rbIsRed_top_black hlb hcb]
      cases hca : color a with
      | red =>
          obtain ⟨a₁, z, a₂, rfl⟩ := exists_make_of_red d hca
          obtain ⟨ha₁, ha₂, ha₁n, ha₂n⟩ := rbOk_red.mp han
          rw [LTree.top_make] at hra ⊢
          rw [hra.mpr hca]
          obtain ⟨s₁, hinner, hf, hs⟩ := rbEraseInner_focus h' ha₂
          simp only [hinner]
          refine .inl ⟨_, by cases b.top <;> rfl, ?_, hs⟩
          have := hend hf (by simp) (by simp) (rbOk_black_succ.mpr ⟨htn, ha₁n⟩)
            (rbOk_black_succ.mpr ⟨ha₂n, hbn⟩)
          rw [fill, Frame.fill, toList_fill]
          rw [toList_fill] at this
          convert this using 3
          cases d <;> simp [LTree.make]
      | black =>
          rw [rbIsRed_top_black hla hca]
          have := rbEraseFlip_mends h hca hcb htn hctx hk
          cases a.top <;> cases b.top <;> exact this

/-- Case 1 and what follows it. -/
theorem rbEraseArm_mends (h : Focus s (⟨d, p, c, w⟩ :: ctx) t) (ht : RbOk t n)
    (hctx : CtxOk (⟨d, p, c, w⟩ :: ctx) (n + 1)) :
    ∃ i, rbEraseArm d p s = some i ∧ Mends (fill (⟨d, p, c, w⟩ :: ctx) t).toList ctx.length s i := by
  obtain ⟨a, y, cw, b, rfl⟩ := exists_make_of_succ d hctx.1
  have h' := Focus.near_iff.mpr h
  have hfar := Focus.far_iff.mp h'
  have hsib : (s.mem p).child d.other = some y := by simp [h'.mem_top]
  have hcol : rbColor y s = cw := by rw [rbColor, hfar.mem_top, Cell.make_tag]
  cases cw with
  | black =>
      refine ⟨rbEraseBlackSibling d p y s, ?_, rbEraseBlackSibling_mends h ht hctx fun _ => le_rfl⟩
      simp [rbEraseArm, hsib, hcol]
  | red =>
      obtain ⟨hw, hctx'⟩ := hctx
      cases c with
      | red => cases (color_make (d := d)).symm.trans hctx'.1
      | black =>
          obtain ⟨ha, hb, han, hbn⟩ := rbOk_red.mp hw
          obtain ⟨a₁, z, ca, a₂, rfl⟩ := exists_make_of_succ d han
          obtain rfl : ca = .black := by simpa using ha
          obtain ⟨s', hs', hf, hsame⟩ := rbEraseRedSibling_focus h' ha (LTree.top_make ..)
          have hf' := Focus.near_iff.mp (Focus.near_iff.mp hf)
          have hL : (fill (⟨d, p, .red, .make d a₁ z .black a₂⟩ :: ⟨d, y, .black, b⟩ :: ctx) t).toList =
              (fill (⟨d, p, .black, .make d (.make d a₁ z .black a₂) y .red b⟩ :: ctx) t).toList := by
            simp only [fill, Frame.fill, toList_fill]
            cases d <;> simp [LTree.make]
          have hctx₂ : CtxOk (⟨d, p, .red, .make d a₁ z .black a₂⟩ :: ⟨d, y, .black, b⟩ :: ctx)
              (n + 1) := ⟨han, ha, rfl, hbn, hctx'⟩
          have hm := rbEraseBlackSibling_mends hf' ht hctx₂ (k := ctx.length) (by simp)
          rw [hL] at hm
          exact ⟨rbEraseBlackSibling d p z s', by simp [rbEraseArm, hsib, hcol, hs'],
            hm.trans hsame⟩

/-- One pass of the loop of `____rb_erase_color`. -/
theorem Lacking.step {S : List ι} {k : ℕ} {q : RbEraseLoop ι} (h : Lacking S k q) :
    ∃ i, rbEraseStep q = some i ∧ Mends S k q.root i := by
  obtain ⟨f, ctx, t, n, hk, hf, hnode, hpar, ht, hctx, hS⟩ := h
  obtain ⟨node, parent, s⟩ := q
  simp only at hf hnode hpar
  subst hnode hpar hk hS
  obtain ⟨d, p, c, w⟩ := f
  obtain ⟨i, hi, hm⟩ := rbEraseArm_mends hf ht hctx
  refine ⟨i, ?_, hm⟩
  have hne : w.top ≠ t.top := by
    cases ht : t.top with
    | none =>
        obtain ⟨l, x, c', r, rfl⟩ := exists_make_of_succ d hctx.1
        simp
    | some x =>
        rw [← ht]
        exact hf.sib_ne ht
  have hr := hf.right_eq_iff hne
  cases d with
  | left =>
      have hneq : t.top ≠ (s.mem p).right := fun e => by cases hr.mp e.symm
      rw [rbEraseStep, if_pos hneq]
      exact hi
  | right =>
      rw [rbEraseStep, if_neg (not_not.mpr (hr.mpr rfl).symm)]
      exact hi

/-- `____rb_erase_color` mends the tree. -/
theorem rbEraseColor_holds {S : List ι} {k : ℕ} (h : Lacking S k ⟨none, p, s⟩) :
    ∃ s', Prog.Returns (rbEraseColor p s) s' ∧ Holds s' S ∧ SameOutside S s s' := by
  refine Prog.Returns.iterate (Q := fun s' => Holds s' S ∧ SameOutside S s s')
    (fun k q => Lacking S k q ∧ SameOutside S s q.root) ?_ k ⟨none, p, s⟩ ⟨h, SameOutside.refl⟩
  rintro k q ⟨hq, hs⟩
  obtain ⟨i, hi, hm⟩ := hq.step
  simp only [Prog.returns_lift, hi, Option.some.injEq]
  obtain ⟨s', rfl, hH, hsame⟩ | ⟨q', j, rfl, hj, hl, hsame⟩ := hm
  · exact .inl ⟨s', rfl, hH, hs.trans hsame⟩
  · exact .inr ⟨q', j, rfl, hj, hl, hs.trans hsame⟩

end Libls.Rb
