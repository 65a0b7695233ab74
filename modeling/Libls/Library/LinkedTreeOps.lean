import Mathlib.Data.Finset.Basic
import Libls.Library.LinkedTree
import Libls.Library.Prog

/-! # Pointer surgery on linked trees

The steps from which insertion, removal and rebalancing are made, each as a theorem about
`Focus`: writing the pointer a hole hangs from (`slot_ctx`, `replaceChild_ctx`), changing a tag
(`Focus.setTag`), a rotation (`Focus.rotated`), hanging a leaf into an empty slot
(`Focus.link`), taking out a node with at most one child (`Focus.splice`) and putting another
object in the place of a node (`Focus.substitute`).

The last part says which nodes and which empty slots a program can reach by following child
pointers from the root: exactly those of the tree (`reach_iff`, `emptySlot_iff`). -/

namespace Libls.LinkedTree

variable {ι τ : Type}

/-! ### The pointer above a hole -/

/-- The place a pointer to a subtree is kept: a side of a node, or the root. -/
def slot : List (Frame ι τ) → Option (ι × Dir)
  | [] => none
  | f :: _ => some (f.x, f.dir)

@[simp] theorem slot_nil : slot ([] : List (Frame ι τ)) = none := rfl
@[simp] theorem slot_cons (f : Frame ι τ) (ctx : List (Frame ι τ)) :
    slot (f :: ctx) = some (f.x, f.dir) := rfl

theorem slot_fst (ctx : List (Frame ι τ)) : (slot ctx).map Prod.fst = above ctx := by
  cases ctx <;> rfl

section slots

variable [DecidableEq ι]

/-- Write a pointer into a slot. -/
def Store.setSlot (s : Store ι τ) (pos : Option (ι × Dir)) (v : Option ι) : Store ι τ :=
  match pos with
  | none => { s with root := v }
  | some (p, d) => s.setChild d p v

theorem setSlot_mem_of_notMem (s : Store ι τ) {ctx : List (Frame ι τ)} {y : ι}
    (h : y ∉ ctxNodes ctx) (v : Option ι) : (s.setSlot (slot ctx) v).mem y = s.mem y := by
  cases ctx with
  | nil => rfl
  | cons f ctx =>
      have hy : y ≠ f.x := fun e => h (by simp [e])
      simp [Store.setSlot, hy]

/-- Writing the slot of a hole fills the hole. -/
theorem slot_ctx {s : Store ι τ} {hole : Option ι} {ctx : List (Frame ι τ)}
    (h : LinkedCtx s.mem s.root hole ctx) (hn : (ctxNodes ctx).Nodup) (v : Option ι) :
    LinkedCtx (s.setSlot (slot ctx) v).mem (s.setSlot (slot ctx) v).root v ctx := by
  cases ctx with
  | nil => rfl
  | cons f ctx =>
      obtain ⟨hx, hs, hc⟩ := h
      simp only [ctxNodes_cons, List.nodup_cons, List.mem_append, not_or] at hn
      refine ⟨by simp [Store.setSlot, hx], hs.congr fun y hy => ?_, hc.congr fun y hy => ?_⟩
      · have : y ≠ f.x := fun e => hn.1.1 (e ▸ hy)
        simp [Store.setSlot, this]
      · have : y ≠ f.x := fun e => hn.1.2 (e ▸ hy)
        simp [Store.setSlot, this]

/-- `replaceChild` finds the slot of the node it replaces by comparing pointers. -/
theorem replaceChild_eq_setSlot {s : Store ι τ} {old : ι} {ctx : List (Frame ι τ)}
    (h : LinkedCtx s.mem s.root (some old) ctx) (hold : old ∉ ctxNodes ctx) (v : Option ι) :
    s.replaceChild (above ctx) old v = s.setSlot (slot ctx) v := by
  cases ctx with
  | nil => rfl
  | cons f ctx =>
      have hsib : f.sib.top ≠ some old := fun e => hold (by simp [LTree.top_mem e])
      have hx := h.1
      cases hd : f.dir <;>
        simp [Store.replaceChild, Store.setSlot, hx, hd, Cell.make, hsib]

theorem replaceChild_ctx {s : Store ι τ} {old : ι} {ctx : List (Frame ι τ)}
    (h : LinkedCtx s.mem s.root (some old) ctx) (hold : old ∉ ctxNodes ctx)
    (hn : (ctxNodes ctx).Nodup) (v : Option ι) :
    LinkedCtx (s.replaceChild (above ctx) old v).mem (s.replaceChild (above ctx) old v).root v
      ctx := by
  rw [replaceChild_eq_setSlot h hold]
  exact slot_ctx h hn v

end slots

/-! ### Steps that keep the focus -/

namespace Focus

variable {s s' : Store ι τ} {ctx : List (Frame ι τ)} {d : Dir} {a b c l r : LTree ι τ} {n p x : ι}
  {tn tn' tp tp' tag : τ}

theorem setTag [DecidableEq ι] (h : Focus s ctx (.make d l x tag r)) (u : τ) :
    Focus (s.setTag x u) ctx (.make d l x u r) := by
  obtain ⟨hc, hl, hcn, hn, ha⟩ := h
  simp only [linked_make, LTree.nodup_make, LTree.mem_make, LTree.top_make] at hl hn ha hc
  refine ⟨?_, ?_, hcn, by simpa using hn, by simpa using ha⟩
  · rw [LTree.top_make]
    refine hc.congr fun y hy => ?_
    rw [Store.setTag_mem, if_neg]
    rintro rfl
    exact ha y (.inl rfl) hy
  · rw [linked_make]
    refine ⟨by simp [hl.1], hl.2.1.congr fun y hy => ?_, hl.2.2.congr fun y hy => ?_⟩
    · rw [Store.setTag_mem, if_neg]
      rintro rfl
      exact hn.1 hy
    · rw [Store.setTag_mem, if_neg]
      rintro rfl
      exact hn.2.1 hy

/-- The nodes a rotation writes are different ones. -/
theorem rotate_apart (h : Focus s ctx (.make d c p tp (.make d b n tn a))) :
    n ≠ p ∧ b.top ≠ some n ∧ b.top ≠ some p := by
  have hnd := h.nodup
  simp only [LTree.nodup_make, LTree.mem_make, not_or] at hnd
  refine ⟨fun e => hnd.2.1.1 e.symm, fun e => ?_, fun e => ?_⟩
  · exact hnd.2.2.2.1.1 (LTree.top_mem e)
  · exact hnd.2.1.2.1 (LTree.top_mem e)

/-- A rotation that lifts `n` over its parent `p`: all links but the one from above are written
in `s₁`, and then `n` takes the place of `p`.  The tags of the two nodes may change at the same
time. -/
theorem rotated [DecidableEq ι] {s₁ : Store ι τ}
    (h : Focus s ctx (.make d c p tp (.make d b n tn a))) (hroot : s₁.root = s.root)
    (hmem : ∀ y, s₁.mem y = if y = n then .make d (above ctx) tn' (some p) a.top
      else if y = p then .make d (some n) tp' c.top b.top
      else if b.top = some y then (s.mem y).setParent (some p) else s.mem y) :
    Focus (s₁.replaceChild (above ctx) p (some n)) ctx (.make d (.make d c p tp' b) n tn' a) := by
  obtain ⟨hnp, hbn, hbp⟩ := h.rotate_apart
  obtain ⟨hc, hl, hcn, hnd, hap⟩ := h
  simp only [linked_make, LTree.nodup_make, LTree.mem_make, LTree.top_make] at hl hnd hap hc
  have hctx : LinkedCtx s₁.mem s₁.root (some p) ctx := by
    rw [hroot]
    refine hc.congr fun y hy => ?_
    have h1 : y ≠ n := fun e => hap n (by simp) (e ▸ hy)
    have h2 : y ≠ p := fun e => hap p (by simp) (e ▸ hy)
    have h3 : b.top ≠ some y := fun e => hap y (by simp [LTree.top_mem e]) hy
    rw [hmem, if_neg h1, if_neg h2, if_neg h3]
  have hout : ∀ y, (y = n ∨ y = p ∨ y ∈ a.toList ∨ y ∈ b.toList ∨ y ∈ c.toList) →
      (s₁.replaceChild (above ctx) p (some n)).mem y = s₁.mem y := by
    intro y hy
    refine Store.replaceChild_mem_of_ne _ _ (fun e => ?_) _ _
    exact hap y (by tauto) (above_mem e)
  refine ⟨by simpa using replaceChild_ctx hctx (hap p (.inl rfl)) hcn (some n), ?_, hcn, ?_, ?_⟩
  · simp only [linked_make, LTree.top_make]
    refine ⟨?_, ⟨?_, hl.2.1.congr fun y hy => ?_, ?_⟩, hl.2.2.2.2.congr fun y hy => ?_⟩
    · rw [hout n (by simp), hmem, if_pos rfl]
    · rw [hout p (by simp), hmem, if_neg hnp.symm, if_pos rfl]
    · have h1 : b.top ≠ some y := fun e => by grind [LTree.top_mem e]
      rw [hout y (by simp [hy]), hmem, if_neg (by grind), if_neg (by grind), if_neg h1]
    · refine hl.2.2.2.1.reparent hnd.2.2.2.1.2.2.1 fun y hy => ?_
      rw [hout y (by simp [hy]), hmem, if_neg (by grind), if_neg (by grind)]
    · have h1 : b.top ≠ some y := fun e => by grind [LTree.top_mem e]
      rw [hout y (by simp [hy]), hmem, if_neg (by grind), if_neg (by grind), if_neg h1]
  · simp only [LTree.nodup_make, LTree.mem_make]
    grind
  · simp only [LTree.mem_make]
    grind

/-- Exchanging a node `n` with its parent `p`: `n` has taken the place of `p` in a store `s₁` that
agrees with `s` above the two, and every link below has been written afterwards. -/
theorem exchanged [DecidableEq ι] (s₁ : Store ι τ)
    (h : Focus s ctx (.make d (.make d a n tn b) p tp c))
    (hs₁ : s₁.root = s.root ∧ ∀ y ∈ ctxNodes ctx, s₁.mem y = s.mem y)
    (hroot : s'.root = (s₁.replaceChild (above ctx) p (some n)).root)
    (hctx : ∀ y ∈ ctxNodes ctx, s'.mem y = (s₁.replaceChild (above ctx) p (some n)).mem y)
    (hmem : ∀ y ∉ ctxNodes ctx, s'.mem y = if y = n then .make d (above ctx) tn' (some p) c.top
      else if y = p then .make d (some n) tp' a.top b.top
      else if a.top = some y ∨ b.top = some y then (s.mem y).setParent (some p)
      else if c.top = some y then (s.mem y).setParent (some n) else s.mem y) :
    Focus s' ctx (.make d (.make d a p tp' b) n tn' c) := by
  obtain ⟨hc, hl, hcn, hnd, hap⟩ := h
  simp only [linked_make, LTree.nodup_make, LTree.mem_make, LTree.top_make] at hl hnd hap hc
  have hc₁ : LinkedCtx s₁.mem s₁.root (some p) ctx := by
    rw [hs₁.1]
    exact hc.congr hs₁.2
  refine ⟨?_, ?_, hcn, ?_, ?_⟩
  · rw [hroot, LTree.top_make]
    exact (replaceChild_ctx hc₁ (hap p (.inl rfl)) hcn (some n)).congr hctx
  · simp only [linked_make, LTree.top_make]
    refine ⟨?_, ⟨?_, hl.2.1.2.1.reparent hnd.2.2.1.2.2.1 fun y hy => ?_,
      hl.2.1.2.2.reparent hnd.2.2.1.2.2.2.1 fun y hy => ?_⟩,
      hl.2.2.reparent hnd.2.2.2.1 fun y hy => ?_⟩
    · rw [hmem n (hap n (by simp)), if_pos rfl]
    · have : p ≠ n := fun e => hnd.1 (.inl e)
      rw [hmem p (hap p (by simp)), if_neg this, if_pos rfl]
    · have h1 : y ≠ n := fun e => hnd.2.2.1.1 (e ▸ hy)
      have h2 : y ≠ p := fun e => hnd.1 (.inr (.inl (e ▸ hy)))
      have h3 : b.top ≠ some y := fun e => hnd.2.2.1.2.2.2.2 y hy (LTree.top_mem e)
      have h4 : c.top ≠ some y := fun e => hnd.2.2.2.2 y (.inr (.inl hy)) (LTree.top_mem e)
      simp [hmem y (hap y (by simp [hy])), h1, h2, h3, h4]
    · have h1 : y ≠ n := fun e => hnd.2.2.1.2.1 (e ▸ hy)
      have h2 : y ≠ p := fun e => hnd.1 (.inr (.inr (e ▸ hy)))
      have h3 : a.top ≠ some y := fun e => hnd.2.2.1.2.2.2.2 y (LTree.top_mem e) hy
      have h4 : c.top ≠ some y := fun e => hnd.2.2.2.2 y (.inr (.inr hy)) (LTree.top_mem e)
      simp [hmem y (hap y (by simp [hy])), h1, h2, h3, h4]
    · have h1 : y ≠ n := fun e => hnd.2.2.2.2 n (.inl rfl) (e ▸ hy)
      have h2 : y ≠ p := fun e => hnd.2.1 (e ▸ hy)
      have h3 : a.top ≠ some y := fun e => hnd.2.2.2.2 y (.inr (.inl (LTree.top_mem e))) hy
      have h4 : b.top ≠ some y := fun e => hnd.2.2.2.2 y (.inr (.inr (LTree.top_mem e))) hy
      simp [hmem y (hap y (by simp [hy])), h1, h2, h3, h4]
  · simp only [LTree.nodup_make, LTree.mem_make]
    grind
  · simp only [LTree.mem_make]
    grind

/-- A new leaf in an empty slot. -/
theorem link [DecidableEq ι] (h : Focus s ctx .nil) (hx : x ∉ ctxNodes ctx) :
    Focus ((s.write x ⟨above ctx, tag, none, none⟩).setSlot (slot ctx) (some x)) ctx
      (.node .nil x tag .nil) := by
  have hc : LinkedCtx (s.write x ⟨above ctx, tag, none, none⟩).mem
      (s.write x ⟨above ctx, tag, none, none⟩).root none ctx := by
    refine h.ctx_linked.congr fun y hy => ?_
    rw [Store.write_mem, if_neg]
    rintro rfl
    exact hx hy
  refine ⟨slot_ctx hc h.ctx_nodup _, ⟨?_, trivial, trivial⟩, h.ctx_nodup, by simp, by simpa using hx⟩
  rw [setSlot_mem_of_notMem _ hx]
  simp

/-- Taking out a node with at most one child: the child comes into its place. -/
theorem splice [DecidableEq ι] (h : Focus s ctx (.make d l x tag .nil)) :
    Focus ((s.replaceChild (above ctx) x l.top).setParentOf l.top (above ctx)) ctx l := by
  obtain ⟨hc, hl, hcn, hn, ha⟩ := h
  simp only [linked_make, LTree.nodup_make, LTree.mem_make, LTree.top_make] at hl hn ha hc
  have hout : ∀ y ∈ l.toList, (s.replaceChild (above ctx) x l.top).mem y = s.mem y := by
    intro y hy
    refine Store.replaceChild_mem_of_ne _ _ (fun e => ?_) _ _
    exact ha y (.inr (.inl hy)) (above_mem e)
  refine ⟨?_, ?_, hcn, hn.2.2.1, fun y hy => ha y (.inr (.inl hy))⟩
  · rw [Store.setParentOf_root]
    refine (replaceChild_ctx hc (ha x (.inl rfl)) hcn l.top).congr fun y hy => ?_
    rw [Store.setParentOf_mem, if_neg]
    exact fun e => ha y (.inr (.inl (LTree.top_mem e))) hy
  · refine hl.2.1.reparent hn.2.2.1 fun y hy => ?_
    rw [Store.setParentOf_mem, hout y hy]

/-- Another object `n` in the place of the node `x`: its cell is a copy of the cell of `x`, and
the three neighbours point at it. -/
theorem substitute [DecidableEq ι] (h : Focus s ctx (.make d l x tag r))
    (hn : n ∉ l.toList ∧ n ∉ r.toList ∧ n ∉ ctxNodes ctx) :
    Focus ((((s.write n (s.mem x)).replaceChild (above ctx) x (some n)).setParentOf l.top
      (some n)).setParentOf r.top (some n)) ctx (.make d l n tag r) := by
  obtain ⟨hc, hl, hcn, hnd, ha⟩ := h
  simp only [linked_make, LTree.nodup_make, LTree.mem_make, LTree.top_make] at hl hnd ha hc
  obtain ⟨hnl, hnr, hnc⟩ := hn
  have hc' : LinkedCtx (s.write n (s.mem x)).mem (s.write n (s.mem x)).root (some x) ctx := by
    refine hc.congr fun y hy => ?_
    rw [Store.write_mem, if_neg]
    rintro rfl
    exact hnc hy
  have hout : ∀ y ∉ ctxNodes ctx, ((s.write n (s.mem x)).replaceChild (above ctx) x (some n)).mem y =
      if y = n then s.mem x else s.mem y := by
    intro y hy
    rw [Store.replaceChild_mem_of_ne _ _ (fun e => hy (above_mem e)), Store.write_mem]
  refine ⟨?_, ?_, hcn, ?_, ?_⟩
  · rw [Store.setParentOf_root, Store.setParentOf_root, LTree.top_make]
    refine (replaceChild_ctx hc' (ha x (.inl rfl)) hcn (some n)).congr fun y hy => ?_
    have h1 : l.top ≠ some y := fun e => ha y (.inr (.inl (LTree.top_mem e))) hy
    have h2 : r.top ≠ some y := fun e => ha y (.inr (.inr (LTree.top_mem e))) hy
    rw [Store.setParentOf_mem, if_neg h2, Store.setParentOf_mem, if_neg h1]
  · rw [linked_make]
    refine ⟨?_, hl.2.1.reparent hnd.2.2.1 fun y hy => ?_, hl.2.2.reparent hnd.2.2.2.1 fun y hy => ?_⟩
    · have h1 : l.top ≠ some n := fun e => hnl (LTree.top_mem e)
      have h2 : r.top ≠ some n := fun e => hnr (LTree.top_mem e)
      rw [Store.setParentOf_mem, if_neg h2, Store.setParentOf_mem, if_neg h1, hout n hnc, if_pos rfl,
        hl.1]
    · have h1 : y ≠ n := fun e => hnl (e ▸ hy)
      have h2 : r.top ≠ some y := fun e => hnd.2.2.2.2 y hy (LTree.top_mem e)
      rw [Store.setParentOf_mem, if_neg h2, Store.setParentOf_mem,
        hout y (ha y (.inr (.inl hy))), if_neg h1]
    · have h1 : y ≠ n := fun e => hnr (e ▸ hy)
      have h2 : l.top ≠ some y := fun e => hnd.2.2.2.2 y (LTree.top_mem e) hy
      rw [Store.setParentOf_mem, Store.setParentOf_mem, if_neg h2,
        hout y (ha y (.inr (.inr hy))), if_neg h1]
  · simp only [LTree.nodup_make]
    exact ⟨hnl, hnr, hnd.2.2⟩
  · simp only [LTree.mem_make]
    rintro y (rfl | hy)
    · exact hnc
    · exact ha y (.inr hy)

end Focus

/-! ### Nodes and slots a program can reach -/

/-- The nodes reached from the root pointer along child pointers. -/
inductive Reach (s : Store ι τ) : ι → Prop
  | root {x : ι} : s.root = some x → Reach s x
  | child {p x : ι} (d : Dir) : Reach s p → (s.mem p).child d = some x → Reach s x

/-- A slot that holds the null pointer. -/
def EmptySlot (s : Store ι τ) : Option (ι × Dir) → Prop
  | none => s.root = none
  | some (p, d) => Reach s p ∧ (s.mem p).child d = none

/-- The same, in a tree whose nodes are known. -/
def EmptySlotIn (s : Store ι τ) (S : Finset ι) : Option (ι × Dir) → Prop
  | none => s.root = none
  | some (p, d) => p ∈ S ∧ (s.mem p).child d = none

instance decidableEmptySlotIn [DecidableEq ι] (s : Store ι τ) (S : Finset ι) :
    (pos : Option (ι × Dir)) → Decidable (EmptySlotIn s S pos)
  | none => inferInstanceAs (Decidable (s.root = none))
  | some (p, d) => inferInstanceAs (Decidable (p ∈ S ∧ (s.mem p).child d = none))

theorem EmptySlotIn.emptySlot {s : Store ι τ} {S : Finset ι} {pos : Option (ι × Dir)} (h : EmptySlotIn s S pos)
    (hS : ∀ x, Reach s x ↔ x ∈ S) : EmptySlot s pos := by
  cases pos with
  | none => exact h
  | some slot => exact ⟨(hS slot.1).mpr h.1, h.2⟩

/-- Every node of a tree can be brought into focus. -/
theorem exists_ctx_of_mem {t : LTree ι τ} {x : ι} (h : x ∈ t.toList) :
    ∃ ctx l tag r, t = fill ctx (.node l x tag r) := by
  induction t with
  | nil => cases h
  | node l y tag r ihl ihr =>
      simp only [LTree.toList_node, List.mem_append, List.mem_cons] at h
      rcases h with h | rfl | h
      · obtain ⟨ctx, l', u, r', e⟩ := ihl h
        exact ⟨ctx ++ [⟨.left, y, tag, r⟩], l', u, r', by rw [fill_append, ← e]; rfl⟩
      · exact ⟨[], l, tag, r, rfl⟩
      · obtain ⟨ctx, l', u, r', e⟩ := ihr h
        exact ⟨ctx ++ [⟨.right, y, tag, l⟩], l', u, r', by rw [fill_append, ← e]; rfl⟩

namespace Focus

variable {s : Store ι τ} {t : LTree ι τ} {x : ι}

/-- The node `x` of the tree, with its surroundings. -/
theorem exists_of_mem (h : Focus s [] t) (hx : x ∈ t.toList) :
    ∃ ctx l tag r, t = fill ctx (.node l x tag r) ∧ Focus s ctx (.node l x tag r) := by
  obtain ⟨ctx, l, tag, r, rfl⟩ := exists_ctx_of_mem hx
  exact ⟨ctx, l, tag, r, rfl, fill_iff.mpr h⟩

theorem reach_top {ctx : List (Frame ι τ)} {u : LTree ι τ} (h : Focus s ctx u) (hx : u.top = some x) :
    Reach s x := by
  induction ctx generalizing u x with
  | nil => exact .root (h.ctx_linked.trans hx)
  | cons f ctx ih =>
      have hp := ih (cons_iff.mp h) (x := f.x) (by simp [Frame.fill])
      exact .child f.dir hp (by rw [h.mem_above, hx, Cell.make_child])

/-- The nodes a program can reach are the nodes of the tree. -/
theorem reach_iff (h : Focus s [] t) : Reach s x ↔ x ∈ t.toList := by
  constructor
  · intro hr
    induction hr with
    | root hr =>
        exact LTree.top_mem (h.ctx_linked.symm.trans hr)
    | @child p y d _ hc ih =>
        obtain ⟨ctx, l, tag, r, e, hf⟩ := h.exists_of_mem ih
        have hcell : s.mem p = ⟨above ctx, tag, l.top, r.top⟩ := hf.linked.1
        rw [hcell] at hc
        rw [e, toList_fill]
        cases d with
        | left => simp [LTree.top_mem (show l.top = some y from hc)]
        | right => simp [LTree.top_mem (show r.top = some y from hc)]
  · intro hx
    obtain ⟨ctx, l, tag, r, rfl, hf⟩ := h.exists_of_mem hx
    exact hf.reach_top rfl

/-- The empty slots of a store are the holes that the tree fills with nothing. -/
theorem emptySlot_iff (h : Focus s [] t) {pos : Option (ι × Dir)} :
    EmptySlot s pos ↔ ∃ ctx, slot ctx = pos ∧ t = fill ctx .nil := by
  have htop : ∀ u : LTree ι τ, u.top = none → u = .nil := by
    intro u hu
    cases u with
    | nil => rfl
    | node => cases hu
  constructor
  · intro hs
    cases pos with
    | none => exact ⟨[], rfl, htop t (h.ctx_linked.symm.trans hs)⟩
    | some pd =>
        obtain ⟨p, d⟩ := pd
        obtain ⟨hr, hc⟩ := hs
        obtain ⟨ctx, l, tag, r, e, hf⟩ := h.exists_of_mem (h.reach_iff.mp hr)
        have hcell : s.mem p = ⟨above ctx, tag, l.top, r.top⟩ := hf.linked.1
        rw [hcell] at hc
        cases d with
        | left => exact ⟨⟨.left, p, tag, r⟩ :: ctx, rfl, by rw [e, htop l hc]; rfl⟩
        | right => exact ⟨⟨.right, p, tag, l⟩ :: ctx, rfl, by rw [e, htop r hc]; rfl⟩
  · rintro ⟨ctx, rfl, rfl⟩
    have hf := fill_iff.mpr h
    cases ctx with
    | nil => exact hf.ctx_linked
    | cons f ctx =>
        refine ⟨(cons_iff.mp hf).reach_top (by simp [Frame.fill]), ?_⟩
        rw [hf.mem_above, Cell.make_child]
        rfl

/-- Which child pointer of the node above holds the focus. -/
theorem left_eq_iff {f : Frame ι τ} {ctx : List (Frame ι τ)} (h : Focus s (f :: ctx) t)
    (hx : t.top = some x) : (s.mem f.x).left = some x ↔ f.dir = .left := by
  have hsib : f.sib.top ≠ some x := fun e => h.apart x (LTree.top_mem hx) (by simp [LTree.top_mem e])
  rw [h.mem_above, hx]
  cases hd : f.dir <;> simp [Cell.make, hsib]

end Focus

/-! ### Walking to the end of a side -/

/-- `while (x->child) x = x->child`, for the children on side `d`. -/
def extreme (d : Dir) (x : ι) (s : Store ι τ) : Prog ι :=
  Prog.iterate (fun x => .ofOption <| some <|
    match (s.mem x).child d with
    | some y => .next y
    | none => .done x) x

/-- The walk ends at a node without a child on side `d`, and everything else is on the other
side of it. -/
theorem Linked.extreme {s : Store ι τ} {d : Dir} {par : Option ι} {l r : LTree ι τ} {x : ι} {t : τ}
    (h : Linked s.mem par (.make d.other l x t r)) :
    ∃ ctx c y u, LTree.make d.other l x t r = fill ctx (.make d.other c y u .nil) ∧
      (∀ f ∈ ctx, f.dir = d) ∧ Prog.Returns (extreme d x s) y := by
  induction hr : r.toList.length using Nat.strongRecOn generalizing par l x t r with
  | _ n ih =>
      simp only [linked_make] at h
      obtain ⟨hx, hl, hlr⟩ := h
      cases r with
      | nil =>
          refine ⟨[], l, x, t, rfl, by simp, Prog.Returns.iterate_done ?_⟩
          rw [Prog.returns_ofOption, hx]
          cases d <;> rfl
      | node r₁ z u r₂ =>
          obtain ⟨l', r', e, hlt⟩ : ∃ l' r', LTree.node r₁ z u r₂ = .make d.other l' z u r' ∧
              r'.toList.length < n := by
            cases d
            · exact ⟨r₂, r₁, rfl, by simp at hr; omega⟩
            · exact ⟨r₁, r₂, rfl, by simp at hr; omega⟩
          rw [e] at hlr hx
          obtain ⟨ctx, c, y, v, e', hd, hret⟩ := ih _ hlt hlr rfl
          refine ⟨ctx ++ [⟨d, x, t, l⟩], c, y, v, ?_, ?_, Prog.Returns.iterate_next ?_ hret⟩
          · rw [fill_append, ← e', e, fill, fill, Frame.fill]
            cases d <;> rfl
          · intro f hf
            rcases List.mem_append.mp hf with hf | hf
            · exact hd f hf
            · rw [List.mem_singleton.mp hf]
          · rw [Prog.returns_ofOption, hx]
            cases d <;> rfl

/-- A context all of whose holes are on the right has nothing to the right of it. -/
theorem after_eq_nil {ctx : List (Frame ι τ)} (h : ∀ f ∈ ctx, f.dir = .right) : after ctx = [] := by
  induction ctx with
  | nil => rfl
  | cons f ctx ih =>
      obtain ⟨d, x, t, sib⟩ := f
      obtain rfl : d = .right := h _ List.mem_cons_self
      exact ih fun f hf => h f (by simp [hf])

/-- A context all of whose holes are on the left has nothing to the left of it. -/
theorem before_eq_nil {ctx : List (Frame ι τ)} (h : ∀ f ∈ ctx, f.dir = .left) : before ctx = [] := by
  induction ctx with
  | nil => rfl
  | cons f ctx ih =>
      obtain ⟨d, x, t, sib⟩ := f
      obtain rfl : d = .left := h _ List.mem_cons_self
      exact ih fun f hf => h f (by simp [hf])

end Libls.LinkedTree
