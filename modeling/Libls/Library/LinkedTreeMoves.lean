import Mathlib.Tactic
import Libls.Library.LinkedTreeOps

/-! # Larger moves on linked trees

What a red-black tree needs beyond single rotations: a double rotation whose links are written in
one go (`Focus.doubleRotated`), and the successor of a node that comes into the place of the node
(`Focus.succeeded`).

`SameOutside L s s'` says that two stores agree on all nodes that are not in `L`; the moves come
with the fact that they write nodes of the tree only. -/

namespace Libls.LinkedTree

variable {ι τ : Type}

/-! ### Frames -/

theorem ctxNodes_append (ctx₁ ctx₂ : List (Frame ι τ)) :
    ctxNodes (ctx₁ ++ ctx₂) = ctxNodes ctx₁ ++ ctxNodes ctx₂ := by
  induction ctx₁ with
  | nil => rfl
  | cons f ctx₁ ih => simp [ih]

/-- Whatever is in the hole, the top node of a tree is one of its context. -/
theorem exists_top_fill (f : Frame ι τ) (ctx : List (Frame ι τ)) :
    ∃ x ∈ ctxNodes (f :: ctx), ∀ t, (fill (f :: ctx) t).top = some x := by
  induction ctx generalizing f with
  | nil => exact ⟨f.x, by simp, fun t => LTree.top_make ..⟩
  | cons g ctx ih =>
      obtain ⟨x, hx, ht⟩ := ih g
      exact ⟨x, by simp_all, fun t => ht (f.fill t)⟩

/-- The stores agree outside the nodes `L`. -/
def SameOutside (L : List ι) (s s' : Store ι τ) : Prop := ∀ y ∉ L, s'.mem y = s.mem y

namespace SameOutside

variable {L L' : List ι} {s s' s'' : Store ι τ}

theorem refl : SameOutside L s s := fun _ _ => rfl

theorem trans (h : SameOutside L s s') (h' : SameOutside L s' s'') : SameOutside L s s'' :=
  fun y hy => (h' y hy).trans (h y hy)

theorem mono (h : SameOutside L s s') (hL : ∀ y ∈ L, y ∈ L') : SameOutside L' s s' :=
  fun y hy => h y fun hm => hy (hL y hm)

theorem write [DecidableEq ι] {x : ι} (hx : x ∈ L) (c : Cell ι τ) : SameOutside L s (s.write x c) := by
  intro y hy
  rw [Store.write_mem, if_neg]
  rintro rfl
  exact hy hx

theorem replaceChild [DecidableEq ι] {ctx : List (Frame ι τ)} (hL : ∀ y ∈ ctxNodes ctx, y ∈ L)
    (old : ι) (new : Option ι) : SameOutside L s (s.replaceChild (above ctx) old new) :=
  fun y hy => s.replaceChild_mem_of_ne y (fun e => hy (hL y (above_mem e))) old new

end SameOutside

namespace Focus

variable [DecidableEq ι] {s s₁ : Store ι τ} {ctx : List (Frame ι τ)} {d : Dir}
  {a b c e l r : LTree ι τ} {n p g x y : ι} {tn tn' tp tp' tg tg' tag ty : τ}

omit [DecidableEq ι] in
theorem ctx_mem_fill {t : LTree ι τ} : ∀ y ∈ ctxNodes ctx, y ∈ (fill ctx t).toList :=
  fun _ hy => mem_fill.mpr (.inr hy)

/-- A rotation writes nodes of the tree only. -/
theorem rotated_same
    (hmem : ∀ y, s₁.mem y = if y = n then .make d (above ctx) tn' (some p) a.top
      else if y = p then .make d (some n) tp' c.top b.top
      else if b.top = some y then (s.mem y).setParent (some p) else s.mem y) :
    SameOutside (fill ctx (.make d c p tp (.make d b n tn a))).toList s
      (s₁.replaceChild (above ctx) p (some n)) := by
  refine SameOutside.trans ?_ (SameOutside.replaceChild ctx_mem_fill p (some n))
  intro y hy
  simp only [mem_fill, LTree.mem_make, not_or] at hy
  have hb : b.top ≠ some y := fun e => hy.1.2.2.2.1 (LTree.top_mem e)
  rw [hmem, if_neg hy.1.2.2.1, if_neg hy.1.1, if_neg hb]

omit [DecidableEq ι] in
/-- Which side of the node above the focus is on, by its right pointer. -/
theorem right_eq_iff {f : Frame ι τ} {t : LTree ι τ} (h : Focus s (f :: ctx) t)
    (hne : f.sib.top ≠ t.top) : (s.mem f.x).right = t.top ↔ f.dir = .right := by
  rw [h.mem_above]
  cases hd : f.dir <;> simp [Cell.make, hne]

omit [DecidableEq ι] in
/-- The top of the sibling is another node. -/
theorem sib_ne {f : Frame ι τ} {t : LTree ι τ} (h : Focus s (f :: ctx) t) (hx : t.top = some x) :
    f.sib.top ≠ t.top := by
  intro e
  rw [hx] at e
  exact h.apart x (LTree.top_mem hx) (by simp [LTree.top_mem e])

/-! ### Double rotations -/

/-- A double rotation that lifts `n` over its parent `p` and its grandparent `g`: all links but the
one from above are written in `s₁`, and then `n` takes the place of `g`. -/
theorem doubleRotated
    (h : Focus s ctx (.make d (.make d a p tp (.make d b n tn c)) g tg e)) (hroot : s₁.root = s.root)
    (hmem : ∀ y, s₁.mem y = if y = n then .make d (above ctx) tn' (some p) (some g)
      else if y = p then .make d (some n) tp' a.top b.top
      else if y = g then .make d (some n) tg' c.top e.top
      else if b.top = some y then (s.mem y).setParent (some p)
      else if c.top = some y then (s.mem y).setParent (some g) else s.mem y) :
    Focus (s₁.replaceChild (above ctx) g (some n)) ctx
        (.make d (.make d a p tp' b) n tn' (.make d c g tg' e)) ∧
      SameOutside (fill ctx (.make d (.make d a p tp (.make d b n tn c)) g tg e)).toList s
        (s₁.replaceChild (above ctx) g (some n)) := by
  -- the first rotation lifts `n` over `p`, below `g`
  let s₂ : Store ι τ := ⟨fun y => if y = n then Cell.make d (some g) tn (some p) c.top
    else if y = p then Cell.make d (some n) tp' a.top b.top
    else if b.top = some y then (s.mem y).setParent (some p) else s.mem y, s.root⟩
  have h₁ : Focus (s₂.replaceChild (some g) p (some n)) (⟨d, g, tg, e⟩ :: ctx)
      (.make d (.make d a p tp' b) n tn c) := (near_iff.mp h).rotated rfl fun _ => rfl
  have hmid : ∀ y, y ≠ g → (s₂.replaceChild (some g) p (some n)).mem y = s₂.mem y := fun y hy =>
    s₂.replaceChild_mem_of_ne y (fun e => hy (Option.some.inj e).symm) p (some n)
  have hroot₁ : s₁.root = (s₂.replaceChild (some g) p (some n)).root := by
    rw [hroot, Store.replaceChild]
    split <;> rfl
  -- the second one lifts it over `g`
  rw [near_iff.symm, ← LTree.make_other d e, ← LTree.make_other d c] at h₁
  have hnd := h.nodup
  simp only [LTree.nodup_make, LTree.mem_make, not_or] at hnd
  have hgc : c.top ≠ some g := fun he => by grind [LTree.top_mem he]
  have hgb : b.top ≠ some g := fun he => by grind [LTree.top_mem he]
  have hcp : c.top ≠ some p := fun he => by grind [LTree.top_mem he]
  have hcb : ∀ y, c.top = some y → b.top ≠ some y := fun y he he' => by
    grind [LTree.top_mem he, LTree.top_mem he']
  have hgp : g ≠ p := by grind
  have hmem₁ : ∀ y, s₁.mem y = if y = n then .make d.other (above ctx) tn' (some g)
        (LTree.make d a p tp' b).top
      else if y = g then .make d.other (some n) tg' e.top c.top
      else if c.top = some y then ((s₂.replaceChild (some g) p (some n)).mem y).setParent (some g)
      else (s₂.replaceChild (some g) p (some n)).mem y := by
    intro y
    rw [hmem, LTree.top_make]
    by_cases hyn : y = n
    · rw [if_pos hyn, if_pos hyn, Cell.make_other]
    · rw [if_neg hyn, if_neg hyn]
      by_cases hyg : y = g
      · rw [if_pos hyg, hyg, if_neg hgp, if_pos rfl, Cell.make_other]
      · rw [if_neg hyg, hmid y hyg, if_neg hyg]
        simp only [s₂, if_neg hyn]
        by_cases hyp : y = p
        · rw [if_pos hyp, if_pos hyp, hyp, if_neg hcp]
        · rw [if_neg hyp, if_neg hyp]
          by_cases hyc : c.top = some y
          · rw [if_neg (hcb y hyc), if_neg (hcb y hyc), if_pos hyc]
          · rw [if_neg hyc]
            split <;> simp [*]
  refine ⟨?_, ?_⟩
  · have := h₁.rotated hroot₁ hmem₁
    simpa only [LTree.make_other, LTree.top_make] using this
  · refine SameOutside.trans ?_ (SameOutside.replaceChild ctx_mem_fill g (some n))
    intro y hy
    simp only [mem_fill, LTree.mem_make, not_or] at hy
    have hb : b.top ≠ some y := fun he => by grind [LTree.top_mem he]
    have hc : c.top ≠ some y := fun he => by grind [LTree.top_mem he]
    rw [hmem, if_neg (by grind), if_neg (by grind), if_neg (by grind), if_neg hb, if_neg hc]

/-! ### The successor comes into the place of a node -/

omit [DecidableEq ι] in
/-- What `replaceChild` makes of a node depends on that node only. -/
theorem replaceChild_congr [DecidableEq ι] {s s' : Store ι τ} {par : Option ι} {z : ι}
    (h : s'.mem z = s.mem z) (hpar : ∀ q, par = some q → s'.mem q = s.mem q) (old : ι)
    (new : Option ι) : (s'.replaceChild par old new).mem z = (s.replaceChild par old new).mem z := by
  cases par with
  | none => exact h
  | some q =>
      have hq := hpar q rfl
      simp only [Store.replaceChild, hq]
      split
      · simp only [Store.setChild_mem, h, hq]
      · simp only [Store.setChild_mem, h, hq]

theorem replaceChild_root_congr {s s' : Store ι τ} (h : s'.root = s.root)
    (par : Option ι) (old : ι) (new : Option ι) :
    (s'.replaceChild par old new).root = (s.replaceChild par old new).root := by
  cases par with
  | none => rfl
  | some q =>
      simp only [Store.replaceChild]
      split <;> split <;> exact h

/-- The store without the node `y`, whose only child `c` comes into its place. -/
def spliced (s : Store ι τ) (ctx : List (Frame ι τ)) (y : ι) (c : Option ι) : Store ι τ :=
  (s.replaceChild (above ctx) y c).setParentOf c (above ctx)

theorem spliced_same : SameOutside (fill ctx (.make d l x tag .nil)).toList s
    (spliced s ctx x l.top) := by
  intro y hy
  simp only [mem_fill, LTree.mem_make, not_or] at hy
  have hl : l.top ≠ some y := fun e => hy.1.2.1 (LTree.top_mem e)
  rw [spliced, Store.setParentOf_mem, if_neg hl,
    Store.replaceChild_mem_of_ne _ _ fun e => hy.2 (above_mem e)]

/-- The leftmost node `y` of the right subtree of `x` comes into the place of `x`, and its child
`c` into its own.  The links are given as `s'` has them in the end. -/
theorem succeeded {s' : Store ι τ} {ctx' : List (Frame ι τ)}
    (h : Focus s ctx (.node l x tag (fill ctx' (.node .nil y ty c))))
    (hroot : s'.root = (s.replaceChild (above ctx) x (some y)).root)
    (hctx : ∀ z ∈ ctxNodes ctx, s'.mem z = (s.replaceChild (above ctx) x (some y)).mem z)
    (hmem : ∀ z ∉ ctxNodes ctx, z ≠ x → s'.mem z =
      if z = y then ⟨above ctx, tag, l.top, (fill ctx' c).top⟩
      else if l.top = some z ∨ (fill ctx' c).top = some z then
        ((spliced s (ctx' ++ ⟨.right, x, tag, l⟩ :: ctx) y c.top).mem z).setParent (some y)
      else (spliced s (ctx' ++ ⟨.right, x, tag, l⟩ :: ctx) y c.top).mem z) :
    Focus s' ctx (.node l y tag (fill ctx' c)) := by
  have hfar : Focus s (ctx' ++ ⟨.right, x, tag, l⟩ :: ctx) (.node .nil y ty c) :=
    append_iff.mpr (far_iff (d := .left) |>.mp h)
  have hA : Focus (spliced s (ctx' ++ ⟨.right, x, tag, l⟩ :: ctx) y c.top) ctx
      (.node l x tag (fill ctx' c)) :=
    far_iff (d := .left) |>.mpr (append_iff.mp (splice (d := .right) hfar))
  have hnd := h.nodup
  have hap := h.apart
  simp only [LTree.toList_node, toList_fill, LTree.toList_nil, List.nil_append, List.nodup_append',
    List.nodup_cons, List.disjoint_left, List.mem_append, List.mem_cons, not_or] at hnd hap
  have hyl : y ∉ l.toList := fun hm => by grind
  have hyr : y ∉ (fill ctx' c).toList := fun hm => by
    simp only [toList_fill, List.mem_append] at hm
    grind
  have hyc : y ∉ ctxNodes ctx := hap y (by simp)
  have hB := hA.substitute (d := .left) ⟨hyl, hyr, hyc⟩
  have hcell := hA.linked.1
  have hold : ∀ z ∈ ctxNodes ctx, (spliced s (ctx' ++ ⟨.right, x, tag, l⟩ :: ctx) y c.top).mem z =
      s.mem z := by
    intro z hz
    have hcz : c.top ≠ some z := fun e => hap z (by simp [LTree.top_mem e]) hz
    have haz : above (ctx' ++ ⟨.right, x, tag, l⟩ :: ctx) ≠ some z := by
      intro e
      cases ctx' with
      | nil =>
          have hxz : x = z := Option.some.inj e
          exact h.apart z (by simp [hxz]) hz
      | cons f fs =>
          have hfz : f.x = z := Option.some.inj e
          exact h.apart z (by simp [← hfz]) hz
    rw [spliced, Store.setParentOf_mem, if_neg hcz, Store.replaceChild_mem_of_ne _ _ haz]
  refine hB.congr ?_ fun z hz => ?_
  · rw [hroot, Store.setParentOf_root, Store.setParentOf_root]
    cases ctx with
    | nil => rfl
    | cons f fs =>
        have hkeep : ∀ (t : Store ι τ) (q old : ι) (new : Option ι),
            (t.replaceChild (some q) old new).root = t.root := by
          intro t q old new
          rw [Store.replaceChild]
          split <;> rfl
        rw [above_cons, hkeep, hkeep, Store.write_root, spliced, Store.setParentOf_root]
        cases ctx' with
        | nil => exact (hkeep ..).symm
        | cons => exact (hkeep ..).symm
  · by_cases hzc : z ∈ ctxNodes ctx
    · have hne : z ≠ y := fun e => hyc (e ▸ hzc)
      have hl : l.top ≠ some z := fun e => hap z (by simp [LTree.top_mem e]) hzc
      have hr : (fill ctx' c).top ≠ some z := fun e => by
        have hm := LTree.top_mem e
        simp only [toList_fill, List.mem_append] at hm
        exact hap z (by tauto) hzc
      have hw : ∀ q ∈ ctxNodes ctx, ((spliced s (ctx' ++ ⟨.right, x, tag, l⟩ :: ctx) y c.top).write y
          ((spliced s (ctx' ++ ⟨.right, x, tag, l⟩ :: ctx) y c.top).mem x)).mem q = s.mem q := by
        intro q hq
        rw [Store.write_mem, if_neg (fun e : q = y => hyc (e ▸ hq)), hold q hq]
      rw [hctx z hzc, Store.setParentOf_mem, if_neg hr, Store.setParentOf_mem, if_neg hl]
      exact (replaceChild_congr (hw z hzc) (fun q hq => hw q (above_mem hq)) x (some y)).symm
    · have hmz := hz.resolve_right hzc
      simp only [LTree.mem_make] at hmz
      have hzx : z ≠ x := by
        rintro rfl
        simp only [toList_fill, List.mem_append] at hmz
        grind
      have haz : above ctx ≠ some z := fun e => hzc (above_mem e)
      rw [hmem z hzc hzx, Store.setParentOf_mem, Store.setParentOf_mem,
        Store.replaceChild_mem_of_ne _ _ haz, Store.write_mem, hcell]
      by_cases hzy : z = y
      · have hl : l.top ≠ some z := fun e => hyl (hzy ▸ LTree.top_mem e)
        have hr : (fill ctx' c).top ≠ some z := fun e => hyr (hzy ▸ LTree.top_mem e)
        rw [if_pos hzy, if_neg hr, if_neg hl, if_pos hzy]
      · rw [if_neg hzy, if_neg hzy]
        by_cases hl : l.top = some z
        · have hr : (fill ctx' c).top ≠ some z := fun e => by
            have hm := LTree.top_mem e
            have := LTree.top_mem hl
            simp only [toList_fill, List.mem_append] at hm
            grind
          rw [if_pos (.inl hl), if_neg hr, if_pos hl]
        · by_cases hr : (fill ctx' c).top = some z
          · rw [if_pos (.inr hr), if_pos hr, if_neg hl]
          · rw [if_neg (by tauto), if_neg hr, if_neg hl]

/-- The successor's move writes nodes of the tree only. -/
theorem succeeded_same {s' : Store ι τ} {ctx' : List (Frame ι τ)}
    (hmem : ∀ z ∉ ctxNodes ctx, z ≠ x → s'.mem z =
      if z = y then ⟨above ctx, tag, l.top, (fill ctx' c).top⟩
      else if l.top = some z ∨ (fill ctx' c).top = some z then
        ((spliced s (ctx' ++ ⟨.right, x, tag, l⟩ :: ctx) y c.top).mem z).setParent (some y)
      else (spliced s (ctx' ++ ⟨.right, x, tag, l⟩ :: ctx) y c.top).mem z) :
    SameOutside (fill ctx (.node l x tag (fill ctx' (.node .nil y ty c)))).toList s s' := by
  intro z hz
  simp only [mem_fill, LTree.toList_node, LTree.toList_nil, List.nil_append, List.mem_append,
    List.mem_cons, not_or] at hz
  obtain ⟨⟨hzl, hzx, ⟨hzy, hzc⟩, hzc'⟩, hzctx⟩ := hz
  have hl : l.top ≠ some z := fun e => hzl (LTree.top_mem e)
  have hc : c.top ≠ some z := fun e => hzc (LTree.top_mem e)
  have hr : (fill ctx' c).top ≠ some z := fun e => by
    have := LTree.top_mem e
    rw [mem_fill] at this
    exact this.elim hzc hzc'
  have habove : above (ctx' ++ ⟨.right, x, tag, l⟩ :: ctx) ≠ some z := by
    intro e
    cases ctx' with
    | nil => exact hzx (Option.some.inj e).symm
    | cons f fs => exact hzc' (by simp [← (Option.some.inj e : f.x = z)])
  rw [hmem z hzctx hzx, if_neg hzy, if_neg (by tauto), spliced, Store.setParentOf_mem, if_neg hc,
    Store.replaceChild_mem_of_ne _ _ habove]

end Focus

end Libls.LinkedTree
