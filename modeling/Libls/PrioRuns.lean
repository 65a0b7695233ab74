import Libls.Library.Runs
import Libls.PrioMoves

/-! # Runs of priority tree operations

`prioInsert_spec`, `prioErase_spec` and `prioAdjust_spec` say what the three operations do to the
set of members.  `Run` is any program that uses one tree: it may change memory and keys of
objects outside the tree at any time, and the key of a member right before `prio_adjust`. -/

namespace Libls.Prio

open LinkedTree

variable {ι : Type} [DecidableEq ι] {S : Finset ι} {x : ι} {s : PrioRoot ι} {cmp : ι → ι → ℤ}

/-! ### Insertion -/

/-- Hanging the fresh node into the slot that the first loop has found. -/
theorem prioLink_store {f : Frame ι PrioBalance} {ctx : List (Frame ι PrioBalance)}
    (h : Focus s (f :: ctx) .nil) (hx : x ∉ ctxNodes (f :: ctx))
    (hcell : (s.mem x).left = none ∧ (s.mem x).right = none) :
    Focus (prioInitParent x (some f.x) (s.setChild f.dir f.x (some x))) (f :: ctx)
      (.node .nil x .equalWeight .nil) := by
  have hxf : x ≠ f.x := fun e => hx (by simp [e])
  refine (h.link hx).congr rfl fun y _ => ?_
  by_cases hy : y = x
  · subst hy
    obtain ⟨hl, hr⟩ := hcell
    ext1 <;> simp [prioInitParent, Store.setSlot, Cell.setParent, Cell.setTag, hxf, hl, hr]
  · by_cases hf : y = f.x
    · subst hf
      simp [prioInitParent, Store.setSlot, hy]
    · simp [prioInitParent, Store.setSlot, hy, hf]

/-- `prio_insert` adds one member. -/
theorem prioInsert_spec (hc : Comparison cmp) (h : PrioQueue (Le cmp) s S) (hx : x ∉ S) :
    ∃ s', Prog.Returns (prioInsert cmp x s) s' ∧ PrioQueue (Le cmp) s' (insert x S) := by
  obtain ⟨t, hf, hb, ho, hm⟩ := h
  have hxt : x ∉ t.toList := fun e => hx ((hm x).mp e)
  have hf₀ : Focus ((s.setChild .left x none).setChild .right x none) [] t := by
    refine hf.congr rfl fun y hy => ?_
    have hne : y ≠ x := by
      rintro rfl
      exact hxt (by simpa using hy)
    simp [hne]
  have hcell : ((((s.setChild .left x none).setChild .right x none).mem x).left = none ∧
      (((s.setChild .left x none).setChild .right x none).mem x).right = none) := by
    simp [Cell.setChild]
  unfold prioInsert
  generalize (s.setChild .left x none).setChild .right x none = s₀ at hf₀ hcell ⊢
  cases t with
  | nil =>
      have hroot : s₀.root = none := hf₀.ctx_linked
      refine ⟨{ prioInitParent x none s₀ with root := some x }, by simp [hroot],
        .node .nil x .equalWeight .nil, ?_, ?_, ?_, fun y => ?_⟩
      · refine ⟨rfl, ⟨?_, trivial, trivial⟩, by simp, by simp, by simp⟩
        obtain ⟨hl, hr⟩ := hcell
        ext1 <;> simp [prioInitParent, Cell.setParent, Cell.setTag, hl, hr]
      · simp [Balanced, Weighed]
      · simp [HeapOk]
      · have := hm y
        simp only [LTree.toList_nil, List.not_mem_nil, false_iff] at this
        simp [this]
  | node l top b r =>
      have hroot : s₀.root = some top := hf₀.ctx_linked
      obtain ⟨f, ctx, e, hcb, hlink⟩ := prioLink_focus x hf₀ rfl hb trivial
      rw [fill] at e
      rw [← e] at hf₀ ho hm hxt
      have hmem : ∀ y, y ∈ ctxNodes (f :: ctx) ↔ y ∈ S := fun y => by
        rw [← hm]
        simp
      have hmov : Moving (Le cmp) (insert x S)
          x (prioInitParent x (some f.x) (s₀.setChild f.dir f.x (some x))) (f :: ctx) .nil
          .equalWeight .nil := by
        refine ⟨prioLink_store (Focus.fill_iff.mpr hf₀) (fun hy => hx ((hmem x).mp hy)) hcell,
          ⟨(heapOk_fill.mp ho).1, trivial, trivial⟩, fun y => ?_⟩
        rw [Finset.mem_insert, ← hmem]
        simp
      have hb' : Balanced (fill ((f :: ctx).map changed) (.node .nil x .equalWeight .nil)) := by
        rw [balanced_fill]
        exact ⟨hcb, by simp [Balanced, Weighed]⟩
      obtain ⟨p, s₁, s', hs₁, hs', hq⟩ := prioInsertSift_spec hc hmov trivial trivial hb'
      refine ⟨s', ?_, hq⟩
      simpa [hroot] using ⟨_, _, hlink, p, s₁, hs₁, hs'⟩

/-! ### Adjustment -/

/-- `prio_adjust` restores the order after the key of one member has changed: `le₀` is the order
before the change. -/
theorem prioAdjust_spec {le₀ : ι → ι → Prop} (hc : Comparison cmp)
    (htrans : ∀ a b c, le₀ a b → le₀ b c → le₀ a c) (h : PrioQueue le₀ s S)
    (heq : ∀ a b, a ≠ x → b ≠ x → le₀ a b → Le cmp a b) (hx : x ∈ S) :
    ∃ s', Prog.Returns (prioAdjust cmp x s) s' ∧ PrioQueue (Le cmp) s' S := by
  obtain ⟨t, hf, hb, ho, hm⟩ := h
  obtain ⟨ctx, l, b, r, rfl, hf'⟩ := hf.exists_of_mem ((hm x).mpr hx)
  have hp : prioParent x s = above ctx := hf'.parent_top rfl
  have hxc : x ∉ ctxNodes ctx := hf'.apart x (by simp)
  have hnd := hf'.nodup
  simp only [LTree.toList_node, List.nodup_append', List.nodup_cons, List.disjoint_left] at hnd
  have hxl : x ∉ l.toList := fun hx => hnd.2.2 hx (by simp)
  obtain ⟨hctx, hxb, hl, hr⟩ := heapOk_fill.mp ho
  have hctx' : HeapCtx (Le cmp) ctx := hctx.congr fun y hy z hz =>
    heq y z (fun e => hxc (e ▸ hy)) (fun e => hxc (e ▸ hz))
  have hside : ∀ u : LTree ι PrioBalance, HeapOk le₀ (some x) u → x ∉ u.toList →
      HeapOk (Le cmp) (above ctx) u := by
    intro u hu hxu
    refine (hu.mono htrans hxb).congr fun y z hy hz => heq y z (fun e => hxu (e ▸ hy)) ?_
    rintro rfl
    rcases hz with hz | hz
    · exact hxu hz
    · exact hxc (above_mem hz)
  have hmov : Moving (Le cmp) S x s ctx l b r :=
    ⟨hf', ⟨hctx', hside l hl hxl, hside r hr hnd.2.1.1⟩, hm⟩
  unfold prioAdjust
  rw [hp]
  cases ctx with
  | nil => exact prioAdjustDown_spec hc hmov below_none hb
  | cons f ctx =>
      by_cases hlt : 0 < cmp x f.x
      · simp only [above_cons, if_pos hlt]
        exact prioAdjustUp_spec hc hmov hlt hb
      · simp only [above_cons, if_neg hlt]
        exact prioAdjustDown_spec hc hmov (below_some.mpr (by omega)) hb

/-! ### Removal -/

/-- The order of a tree whose leaf `x` has no definite key. -/
def ButLeaf (le : ι → ι → Prop) (x : ι) : ι → ι → Prop := fun a b => b ≠ x ∧ (a = x ∨ le a b)

omit [DecidableEq ι] in
/-- Once `x` is a leaf, its key does not matter. -/
theorem heapOk_butLeaf {le : ι → ι → Prop} {ctx : List (Frame ι PrioBalance)} {b : PrioBalance}
    (h : HeapCtx le ctx) (hx : x ∉ ctxNodes ctx) :
    HeapOk (ButLeaf le x) none (fill ctx (.node .nil x b .nil)) := by
  refine heapOk_fill.mpr ⟨h.congr fun y hy z hz hyz => ⟨fun e => hx (e ▸ hz), .inr hyz⟩, ?_,
    trivial, trivial⟩
  exact fun y hy => ⟨fun e => hx (e ▸ above_mem hy), .inl rfl⟩

omit [DecidableEq ι] in
/-- A leaf without a definite key is a leaf, and everything else is in order. -/
theorem ButLeaf.hole {le : ι → ι → Prop} {ctx : List (Frame ι PrioBalance)}
    {l r : LTree ι PrioBalance} {b : PrioBalance}
    (h : HeapOk (ButLeaf le x) none (fill ctx (.node l x b r))) (hx : x ∉ ctxNodes ctx) :
    l = .nil ∧ r = .nil ∧ HeapCtx le ctx := by
  obtain ⟨hctx, -, hl, hr⟩ := heapOk_fill.mp h
  have hnil : ∀ u : LTree ι PrioBalance, HeapOk (ButLeaf le x) (some x) u → u = .nil := by
    intro u hu
    cases u with
    | nil => rfl
    | node u₁ y by' u₂ => exact absurd rfl (below_some.mp hu.1).1
  refine ⟨hnil l hl, hnil r hr, hctx.congr fun y hy z _ hyz => ?_⟩
  rcases hyz.2 with rfl | hyz
  · exact absurd hy hx
  · exact hyz

/-- `prio_erase`, after it has taken the victim out: the victim takes the place of the node. -/
theorem prioReplace_focus {ctx : List (Frame ι PrioBalance)} {b : PrioBalance} {v : ι}
    (h : Focus s ctx (.node .nil x b .nil)) (hv : v ∉ ctxNodes ctx) (hvx : v ≠ x)
    (hcell : (s.mem v).left = none ∧ (s.mem v).right = none) :
    Focus (((s.replaceChild (prioParent x s) x (some v)).setParent v
      ((s.replaceChild (prioParent x s) x (some v)).mem x).parent).setTag v
        ((s.replaceChild (prioParent x s) x (some v)).mem x).tag) ctx (.node .nil v b .nil) := by
  have hp : prioParent x s = above ctx := h.parent_top rfl
  have hx : s.mem x = ⟨above ctx, b, none, none⟩ := h.linked.1
  have hxc : x ∉ ctxNodes ctx := h.apart x (by simp)
  have hsub := Focus.substitute (d := .left) (n := v) h ⟨by simp, by simp, hv⟩
  have hout : ∀ y ∉ ctxNodes ctx, (s.replaceChild (above ctx) x (some v)).mem y = s.mem y :=
    fun y hy => Store.replaceChild_mem_of_ne _ _ (fun e => hy (above_mem e)) _ _
  rw [Store.write_replaceChild _ _ _ (fun e => hv (above_mem e)), hx] at hsub
  refine hsub.congr (by simp [hp]) fun y _ => ?_
  obtain ⟨hl, hr⟩ := hcell
  rw [hp, hout x hxc, hx]
  by_cases hy : y = v
  · subst hy
    ext1 <;> simp [Store.setParentOf, hout _ hv, Cell.setParent, Cell.setTag, hl, hr]
  · simp [Store.setParentOf, hy]

/-- The second half of `prio_erase`: a victim leaf is taken out, and comes to the place of the
leaf `x` if it is another node. -/
theorem prioErase_leaf (hc : Comparison cmp) {ctx : List (Frame ι PrioBalance)} {b : PrioBalance}
    (h : Moving (Le cmp) S x s ctx .nil b .nil) (hb : Balanced (fill ctx (.node .nil x b .nil))) :
    ∃ v p s₁, Prog.Returns (prioFindVictim s) (v, p) ∧
      Prog.Returns (prioChangeUp p (s.replaceChild p v none)) s₁ ∧
      (v = x → PrioQueue (Le cmp) s₁ (S.erase x)) ∧
      (v ≠ x → ∃ s', Prog.Returns (prioEraseUp cmp v
        (((s₁.replaceChild (prioParent x s₁) x (some v)).setParent v
          ((s₁.replaceChild (prioParent x s₁) x (some v)).mem x).parent).setTag v
            ((s₁.replaceChild (prioParent x s₁) x (some v)).mem x).tag)) s' ∧
        PrioQueue (Le cmp) s' (S.erase x)) := by
  have hf := Focus.fill_iff.mp h.focus
  have ho := heapOk_butLeaf (b := b) h.hole.1 (h.focus.apart x (by simp))
  obtain ⟨vctx, v, e, hcb, hret⟩ := prioVictim_focus hf (by
    intro e
    have := (h.members x).mp (by simp)
    rw [← h.members, e] at this
    cases this) hb trivial
  rw [above_nil, ← hf.ctx_linked] at hret
  rw [fill] at e
  rw [← e] at hf ho
  have hfv := Focus.fill_iff.mpr hf
  have hmem : ∀ y, y = v ∨ y ∈ ctxNodes vctx ↔ y ∈ S := by
    intro y
    rw [← h.members, ← e]
    simp
  have hvc : v ∉ ctxNodes vctx := hfv.apart v (by simp)
  have hf₁ : Focus (s.replaceChild (above vctx) v none) vctx .nil :=
    Focus.splice (d := .left) (l := .nil) hfv
  obtain ⟨s₁, hs₁, hf₂, hout⟩ := prioChangeUp_focus hf₁
  have hctx₁ : HeapCtx (ButLeaf (Le cmp) x) (vctx.map changed) :=
    heapCtx_map_changed.mpr (heapOk_fill.mp ho).1
  have hbal : Balanced (fill (vctx.map changed) (.nil : LTree ι PrioBalance)) :=
    balanced_fill.mpr ⟨hcb, trivial⟩
  refine ⟨v, above vctx, s₁, hret, hs₁, ?_, ?_⟩
  · rintro rfl
    have hheap : HeapCtx (Le cmp) (vctx.map changed) := by
      refine hctx₁.congr fun y hy z _ hyz => ?_
      rcases hyz.2 with rfl | hyz
      · rw [ctxNodes_map_changed] at hy
        exact absurd hy hvc
      · exact hyz
    refine ⟨_, Focus.fill_iff.mp hf₂, hbal, heapOk_fill.mpr ⟨hheap, trivial⟩, fun y => ?_⟩
    rw [Finset.mem_erase, ← hmem]
    simp only [mem_fill, LTree.toList_nil, List.not_mem_nil, false_or, ctxNodes_map_changed]
    constructor
    · exact fun hy => ⟨fun e => hvc (e ▸ hy), .inr hy⟩
    · exact fun hy => hy.2.resolve_left hy.1
  · intro hvx
    -- `x` is still in the tree, as a leaf
    have hfT := Focus.fill_iff.mp hf₂
    have hxT : x ∈ (fill (vctx.map changed) (.nil : LTree ι PrioBalance)).toList := by
      have hxS := (hmem x).mpr ((h.members x).mp (by simp))
      simpa using hxS.resolve_left hvx.symm
    obtain ⟨ctx₂, l₂, b₂, r₂, e₂, hf₃⟩ := hfT.exists_of_mem hxT
    have ho₂ : HeapOk (ButLeaf (Le cmp) x) none (fill ctx₂ (.node l₂ x b₂ r₂)) := by
      rw [← e₂]
      exact heapOk_fill.mpr ⟨hctx₁, trivial⟩
    have hxc₂ := hf₃.apart x (by simp)
    obtain ⟨rfl, rfl, hctx₂⟩ := ButLeaf.hole ho₂ hxc₂
    have hmem₂ : ∀ y, y ∈ ctxNodes vctx ↔ y = x ∨ y ∈ ctxNodes ctx₂ := by
      intro y
      have := congrArg (fun t => y ∈ t.toList) e₂
      simpa using this
    have hvc₂ : v ∉ ctxNodes ctx₂ := fun hv => hvc ((hmem₂ v).mpr (.inr hv))
    have hcell : (s₁.mem v).left = none ∧ (s₁.mem v).right = none := by
      rw [hout v hvc, Store.replaceChild_mem_of_ne _ _ (fun e => hvc (above_mem e)),
        hfv.mem_top (d := .left)]
      exact ⟨rfl, rfl⟩
    have hmov : Moving (Le cmp) (S.erase x) v _ ctx₂ .nil b₂ .nil :=
      { focus := prioReplace_focus hf₃ hvc₂ hvx hcell
        hole := ⟨hctx₂, trivial, trivial⟩
        members := by
          intro y
          rw [Finset.mem_erase, ← hmem, hmem₂]
          simp only [mem_fill, LTree.toList_node, LTree.toList_nil, List.nil_append,
            List.mem_singleton]
          constructor
          · rintro (rfl | hy)
            · exact ⟨hvx, .inl rfl⟩
            · exact ⟨fun e => hxc₂ (e ▸ hy), .inr (.inr hy)⟩
          · rintro ⟨hne, hy | hy | hy⟩
            · exact .inl hy
            · exact absurd hy hne
            · exact .inr hy }
    refine prioEraseUp_spec hc hmov trivial trivial ?_
    rw [e₂, balanced_fill] at hbal
    exact balanced_fill.mpr hbal

/-- `prio_erase` removes exactly the node it is given. -/
theorem prioErase_spec (hc : Comparison cmp) (h : PrioQueue (Le cmp) s S) (hx : x ∈ S) :
    ∃ s', Prog.Returns (prioErase cmp x s) s' ∧ PrioQueue (Le cmp) s' (S.erase x) := by
  obtain ⟨t, hf, hb, ho, hm⟩ := h
  obtain ⟨ctx, l, b, r, rfl, hf'⟩ := hf.exists_of_mem ((hm x).mpr hx)
  obtain ⟨hctx, hxb, hl, hr⟩ := heapOk_fill.mp ho
  have hmov : Moving (Le cmp) S x s ctx l b r :=
    ⟨hf', ⟨hctx, hl.mono hc.trans hxb, hr.mono hc.trans hxb⟩, hm⟩
  obtain ⟨s₀, hs₀, ctx₀, b₀, hmov₀, hb₀⟩ := prioEraseSift_spec hc hmov hb
  obtain ⟨v, p, s₁, hv, hs₁, heq, hne⟩ := prioErase_leaf hc hmov₀ hb₀
  unfold prioErase
  by_cases hvx : v = x
  · refine ⟨s₁, ?_, heq hvx⟩
    simpa using ⟨s₀, hs₀, v, p, hv, s₁, hs₁, by simp [hvx]⟩
  · obtain ⟨s', hs', hq⟩ := hne hvx
    refine ⟨s', ?_, hq⟩
    simpa using ⟨s₀, hs₀, v, p, hv, s₁, hs₁, by simpa [hvx] using hs'⟩

/-! ### Runs -/

/-- The memory of a program that uses one priority tree, with the keys its comparison function
reads. -/
structure PrioState (ι κ : Type) where
  root : PrioRoot ι
  key : ι → κ

section runs

variable {κ : Type}

/-- The operations of a program on one tree. -/
inductive Op (ι κ : Type) where
  | insert (node : ι)
  | erase (node : ι)
  /-- Give the node a new key, and call `prio_adjust`. -/
  | adjust (node : ι) (key : κ)

variable (cmp : κ → κ → ℤ)

def Op.exec : Op ι κ → PrioState ι κ → Prog (PrioState ι κ)
  | .insert node, s => do
      let root ← prioInsert (nodeCmp cmp s.key) node s.root
      return ⟨root, s.key⟩
  | .erase node, s => do
      let root ← prioErase (nodeCmp cmp s.key) node s.root
      return ⟨root, s.key⟩
  | .adjust node key, s => do
      let key := Function.update s.key node key
      let root ← prioAdjust (nodeCmp cmp key) node s.root
      return ⟨root, key⟩

/-- Only a node that is not a member is inserted, and only members are erased or adjusted. -/
def Op.Legal (S : Finset ι) : Op ι κ → Prop
  | .insert node => node ∉ S
  | .erase node => node ∈ S
  | .adjust node _ => node ∈ S

instance Op.decidableLegal (S : Finset ι) : (o : Op ι κ) → Decidable (o.Legal S)
  | .insert node => inferInstanceAs (Decidable (node ∉ S))
  | .erase node => inferInstanceAs (Decidable (node ∈ S))
  | .adjust node _ => inferInstanceAs (Decidable (node ∈ S))

/-- The members after an operation. -/
def Op.members (S : Finset ι) : Op ι κ → Finset ι
  | .insert node => Insert.insert node S
  | .erase node => S.erase node
  | .adjust _ _ => S

/-- The states a program can produce from an empty root, with the nodes that it has inserted and
not yet erased. -/
inductive Run : PrioState ι κ → Finset ι → Prop
  | init (mem : ι → Cell ι PrioBalance) (key : ι → κ) : Run ⟨prioRoot mem, key⟩ ∅
  | op {s s' : PrioState ι κ} {S : Finset ι} {o : Op ι κ} :
      Run s S → o.Legal S → Prog.Returns (o.exec cmp s) s' → Run s' (o.members S)
  /-- Memory and keys outside the tree belong to the program. -/
  | other {s : PrioState ι κ} {S : Finset ι} {mem : ι → Cell ι PrioBalance} {key : ι → κ} :
      Run s S → (∀ x ∈ S, mem x = s.root.mem x ∧ key x = s.key x) → Run ⟨⟨mem, s.root.root⟩, key⟩ S

variable {cmp} {s s' : PrioState ι κ}

theorem Op.exec_spec (hc : Comparison cmp) (h : PrioQueue (Le (nodeCmp cmp s.key)) s.root S)
    {o : Op ι κ} (ho : o.Legal S) : ∃ s', Prog.Returns (o.exec cmp s) s' ∧
      PrioQueue (Le (nodeCmp cmp s'.key)) s'.root (o.members S) := by
  cases o with
  | insert node =>
      obtain ⟨root, hr, hq⟩ := prioInsert_spec (hc.comap s.key) h ho
      exact ⟨⟨root, s.key⟩, Prog.returns_bind.mpr ⟨root, hr, Prog.returns_pure.mpr rfl⟩, hq⟩
  | erase node =>
      obtain ⟨root, hr, hq⟩ := prioErase_spec (hc.comap s.key) h ho
      exact ⟨⟨root, s.key⟩, Prog.returns_bind.mpr ⟨root, hr, Prog.returns_pure.mpr rfl⟩, hq⟩
  | adjust node key =>
      obtain ⟨root, hr, hq⟩ := prioAdjust_spec (x := node) (hc.comap (Function.update s.key node key))
        (hc.comap s.key).trans h (by
          intro a b ha hb hab
          simpa [Le, ha, hb] using hab) ho
      exact ⟨⟨root, _⟩, Prog.returns_bind.mpr ⟨root, hr, Prog.returns_pure.mpr rfl⟩, hq⟩

/-- The invariant of all runs. -/
theorem Run.prioQueue (hc : Comparison cmp) (h : Run cmp s S) :
    PrioQueue (Le (nodeCmp cmp s.key)) s.root S := by
  induction h with
  | init mem key => exact ⟨.nil, Focus.empty rfl, trivial, trivial, by simp⟩
  | op _ ho hr ih =>
      obtain ⟨s', hs', hq⟩ := Op.exec_spec hc ih ho
      rwa [hr.unique hs']
  | @other s S mem key _ hm ih =>
      obtain ⟨t, hf, hb, ho, hmem⟩ := ih
      refine ⟨t, hf.congr rfl ?_, hb, ho.congr fun x y hx hy hxy => ?_, hmem⟩
      · rintro x (hx | hx)
        · exact (hm x ((hmem x).mp hx)).1
        · cases hx
      · rcases hy with hy | hy
        · have h1 := (hm x ((hmem x).mp hx)).2
          have h2 := (hm y ((hmem y).mp hy)).2
          simpa [Le, nodeCmp, h1, h2] using hxy
        · cases hy

/-- The next operation ends. -/
theorem Run.progress (hc : Comparison cmp) (h : Run cmp s S) {o : Op ι κ} (ho : o.Legal S) :
    ∃ s', Prog.Returns (o.exec cmp s) s' := by
  obtain ⟨s', hs', -⟩ := Op.exec_spec hc (h.prioQueue hc) ho
  exact ⟨s', hs'⟩

/-- A legal operation with the fuel `n`, and the members after it. -/
def Op.attempt (cmp : κ → κ → ℤ) (n : ℕ) (s : PrioState ι κ × Finset ι) (o : Op ι κ) :
    Option (PrioState ι κ × Finset ι) :=
  (Prog.attempt (o.Legal s.2) (o.exec cmp s.1) n).map (·, o.members s.2)

theorem Run.attempt {n : ℕ} {s s' : PrioState ι κ × Finset ι} {o : Op ι κ}
    (hs : o.attempt cmp n s = some s') (h : Run cmp s.1 s.2) : Run cmp s'.1 s'.2 := by
  obtain ⟨ho, s₁, hr, rfl⟩ := Prog.attempt_map_eq_some hs
  exact .op h ho hr

/-- A run with nodes of equal keys, in which a leaf rises to the root, the root sinks, and a root with
two children and another node are erased. -/
theorem run_sample : ∃ s : PrioState ℕ ℤ, prioTop s.root = some 2 ∧ Run (fun a b => a - b) s {1, 2, 3} := by
  let mem : ℕ → Cell ℕ PrioBalance := fun _ => ⟨none, .equalWeight, none, none⟩
  let key : ℕ → ℤ := fun x => if x = 1 then 5 else 3
  have hrun : (([.insert 1, .insert 2, .insert 3, .insert 4, .insert 5, .adjust 4 9, .adjust 1 2, .erase 4,
      .erase 5].foldlM (Op.attempt (fun a b => a - b) 9) (⟨prioRoot mem, key⟩, ∅)).map
        fun s => (prioTop s.1.root, s.2)) = some (some 2, {1, 2, 3}) := by
    decide +kernel
  obtain ⟨⟨s, S⟩, hsee, h⟩ := Libls.Run.exec_keeps (fun _ _ _ => Run.attempt) _ hrun (.init mem key)
  obtain ⟨htop, rfl⟩ := Prod.mk.inj hsee
  exact ⟨s, htop, h⟩

/-- **The shape invariant of whole runs.**  After every operation the nodes reachable from the
root are linked as a finite binary tree with the right parent pointers, every left subtree holds
as many nodes as the right one or one more, as the balance bit says, no path is longer than the
left spine, the length `h` of the left spine of a nonempty tree of `n` nodes satisfies
`2 ^ (h - 1) ≤ n < 2 ^ h`, and the next operation will end without dereferencing a null
pointer. -/
theorem prio_run_shape (hc : Comparison cmp) (h : Run cmp s S) :
    (∃ t, s.root.root = t.top ∧ Linked s.root.mem none t ∧ t.toList.Nodup ∧
      (∀ x, Reach s.root x ↔ x ∈ t.toList) ∧ Balanced t ∧
      (∀ ctx u, t = fill ctx u → ctx.length + height u ≤ leftSpine t) ∧
      (1 ≤ size t → 2 ^ (leftSpine t - 1) ≤ size t ∧ size t < 2 ^ leftSpine t)) ∧
    ∀ o : Op ι κ, o.Legal S → ∃ s', Prog.Returns (o.exec cmp s) s' := by
  obtain ⟨t, hf, hb, -, -⟩ := h.prioQueue hc
  refine ⟨⟨t, hf.ctx_linked, hf.linked, hf.nodup, fun x => hf.reach_iff, hb, ?_, fun hn => ?_⟩, fun o => h.progress hc⟩
  · rintro ctx u rfl
    rw [← hb.height_eq]
    exact length_add_height_le ctx u
  · obtain ⟨h1, h2⟩ := hb.leftSpine_bounds
    rw [if_neg (by omega)] at h1
    refine ⟨?_, h2⟩
    cases hs : leftSpine t with
    | zero => exact hn
    | succ k =>
        rw [hs, pow_succ] at h1
        rw [Nat.add_sub_cancel]
        omega

/-- The shape of a tree after several operations. -/
theorem prio_run_shape_sample : ∃ s : PrioState ℕ ℤ, s.root.root = some 2 ∧
    (∃ t, s.root.root = t.top ∧ Linked s.root.mem none t ∧ t.toList.Nodup ∧
      (∀ x, Reach s.root x ↔ x ∈ t.toList) ∧ Balanced t ∧
      (∀ ctx u, t = fill ctx u → ctx.length + height u ≤ leftSpine t) ∧
      (1 ≤ size t → 2 ^ (leftSpine t - 1) ≤ size t ∧ size t < 2 ^ leftSpine t)) ∧
    ∀ o : Op ℕ ℤ, o.Legal {1, 2, 3} → ∃ s', Prog.Returns (o.exec (fun a b => a - b) s) s' := by
  obtain ⟨s, hs, h⟩ := run_sample
  exact ⟨s, hs, prio_run_shape Comparison.sub h⟩

/-- **The heap invariant of whole runs.**  After every operation the nodes of the tree are
exactly the members, each once, no child compares greater than its parent, and `prio_top` is
null if and only if there are no members and otherwise a member that none compares greater
than, and the next operation will end. -/
theorem prio_run_heap (hc : Comparison cmp) (h : Run cmp s S) :
    (∃ t, s.root.root = t.top ∧ Linked s.root.mem none t ∧ t.toList.Nodup ∧
      ∀ x, x ∈ t.toList ↔ x ∈ S) ∧
    (∀ x, Reach s.root x ↔ x ∈ S) ∧
    (∀ p d x, Reach s.root p → (s.root.mem p).child d = some x → cmp (s.key x) (s.key p) ≤ 0) ∧
    (prioTop s.root = none ↔ S = ∅) ∧
    (∀ m, prioTop s.root = some m → m ∈ S ∧ ∀ x ∈ S, 0 ≤ cmp (s.key m) (s.key x)) ∧
    ∀ o : Op ι κ, o.Legal S → ∃ s', Prog.Returns (o.exec cmp s) s' := by
  obtain ⟨t, hf, -, ho, hm⟩ := h.prioQueue hc
  have htop : prioTop s.root = t.top := hf.ctx_linked
  refine ⟨⟨t, htop, hf.linked, hf.nodup, hm⟩, fun x => hf.reach_iff.trans (hm x), ?_, ?_, ?_, fun o => h.progress hc⟩
  · intro p d x hp hx
    obtain ⟨ctx, l, b, r, rfl, hf'⟩ := hf.exists_of_mem (hf.reach_iff.mp hp)
    obtain ⟨-, -, hl, hr⟩ := heapOk_fill.mp ho
    have hcell : s.root.mem p = ⟨above ctx, b, l.top, r.top⟩ := hf'.linked.1
    rw [hcell] at hx
    cases d with
    | left => exact hl.top_le hx
    | right => exact hr.top_le hx
  · rw [htop, top_eq_none]
    constructor
    · rintro rfl
      exact Finset.eq_empty_of_forall_notMem fun x hx => by simpa using (hm x).mpr hx
    · rintro rfl
      cases t with
      | nil => rfl
      | node l x b r => simpa using (hm x).mp
  · intro m htm
    rw [htop] at htm
    have hle := ho.le_top (hc.comap s.key).refl (hc.comap s.key).trans htm
    refine ⟨(hm m).mp (LTree.top_mem htm), fun x hx => ?_⟩
    rw [← hc.swap]
    exact hle x ((hm x).mpr hx)

/-- The top of a tree after several operations. -/
theorem prio_run_heap_sample : ∃ s : PrioState ℕ ℤ, prioTop s.root = some 2 ∧
    (∀ x, Reach s.root x ↔ x ∈ ({1, 2, 3} : Finset ℕ)) ∧
    (∀ m, prioTop s.root = some m → m ∈ ({1, 2, 3} : Finset ℕ) ∧
      ∀ x ∈ ({1, 2, 3} : Finset ℕ), 0 ≤ s.key m - s.key x) ∧
    ∀ o : Op ℕ ℤ, o.Legal {1, 2, 3} → ∃ s', Prog.Returns (o.exec (fun a b => a - b) s) s' := by
  obtain ⟨s, hs, h⟩ := run_sample
  obtain ⟨-, hreach, -, -, htop, hnext⟩ := prio_run_heap Comparison.sub h
  exact ⟨s, hs, hreach, htop, hnext⟩

end runs

end Libls.Prio
