import Libls.PrioShape

/-! # Moving nodes through a priority tree

Insertion, removal and adjustment all move one node, whose place in the order is not yet known,
up or down the tree.  `Moving le S x s ctx l b r` is what holds meanwhile: the node `x` is in
focus, the nodes are those of `S`, and all the others are in heap order.  `Moving.up` and
`Moving.down` are the two directions of `prio_swap`; each of the loops is one of them,
repeated. -/

namespace Libls.Prio

open LinkedTree

variable {ι : Type}

/-- The store is a balanced tree of the nodes `S` in heap order. -/
def PrioQueue (le : ι → ι → Prop) (s : PrioRoot ι) (S : Finset ι) : Prop :=
  ∃ t, Focus s [] t ∧ Balanced t ∧ HeapOk le none t ∧ ∀ y, y ∈ t.toList ↔ y ∈ S

/-- The node `x` is on the move. -/
structure Moving (le : ι → ι → Prop) (S : Finset ι) (x : ι) (s : PrioRoot ι)
    (ctx : List (Frame ι PrioBalance)) (l : LTree ι PrioBalance) (b : PrioBalance)
    (r : LTree ι PrioBalance) : Prop where
  focus : Focus s ctx (.node l x b r)
  hole : HoleOk le ctx l r
  members : ∀ y, y ∈ (fill ctx (.node l x b r)).toList ↔ y ∈ S

variable [DecidableEq ι] {le : ι → ι → Prop} {S : Finset ι} {x m : ι} {s : PrioRoot ι} {d : Dir}
  {ctx : List (Frame ι PrioBalance)} {f : Frame ι PrioBalance} {l r a c : LTree ι PrioBalance}
  {b bm : PrioBalance}

omit [DecidableEq ι] in
/-- A node is a top with two subtrees, on whichever side they are. -/
theorem exists_node (d : Dir) (l r : LTree ι PrioBalance) (b : PrioBalance) :
    ∃ a c, (∀ y : ι, LTree.make d l y b r = .node a y b c) ∧ (a = l ∧ c = r ∨ a = r ∧ c = l) := by
  cases d
  · exact ⟨l, r, fun _ => rfl, .inl ⟨rfl, rfl⟩⟩
  · exact ⟨r, l, fun _ => rfl, .inr ⟨rfl, rfl⟩⟩

omit [DecidableEq ι] in
/-- Exchanging two objects keeps the shape. -/
theorem balanced_exchange {n p : ι} {bn bp : PrioBalance} :
    Balanced (fill ctx (.make d (.node l n bn r) p bp c)) ↔
      Balanced (fill ctx (.make d (.node l p bn r) n bp c)) := by
  simp [balanced_fill, Balanced]

namespace Moving

/-- The node moves up, over a smaller one. -/
theorem up (htrans : ∀ a b c, le a b → le b c → le a c) (h : Moving le S x s (f :: ctx) l b r)
    (hx : le f.x x) : ∃ l' r', Moving le S x (prioSwap x f.x s) ctx l' f.tag r' ∧
      HeapOk le (some x) l' ∧ HeapOk le (some x) r' ∧
      LTree.node l' x f.tag r' = .make f.dir (.node l f.x b r) x f.tag f.sib := by
  obtain ⟨hf, hh, hm⟩ := h
  have hup : HoleOk le ctx (.node l f.x b r) f.sib := hh.up (d := .left) htrans
  have hxl : HeapOk le (some x) (.node l f.x b r) := ⟨below_some.mpr hx, hh.2.1, hh.2.2⟩
  have hxs : HeapOk le (some x) f.sib := hh.1.2.1.mono htrans (below_some.mpr hx)
  obtain ⟨a, c, e, hac⟩ := exists_node f.dir (.node l f.x b r) f.sib f.tag
  refine ⟨a, c, ⟨?_, ?_, fun y => ?_⟩, ?_, ?_, (e x).symm⟩
  · rw [← e x]
    exact prioSwap_focus hf
  · rcases hac with ⟨rfl, rfl⟩ | ⟨rfl, rfl⟩
    · exact hup
    · exact hup.symm
  · rw [← hm, ← e x]
    simp only [mem_fill, LTree.mem_make, LTree.toList_node, ctxNodes_cons, List.mem_append,
      List.mem_cons]
    tauto
  · rcases hac with ⟨rfl, -⟩ | ⟨rfl, -⟩ <;> assumption
  · rcases hac with ⟨-, rfl⟩ | ⟨-, rfl⟩ <;> assumption

theorem down_side {sib : LTree ι PrioBalance} (h : Moving le S x s ctx l b r)
    (e : LTree.node l x b r = .make d (.node a m bm c) x b sib)
    (hb : Balanced (fill ctx (.node l x b r))) (hsib : HeapOk le (some m) sib) :
    Moving le S x (prioSwap m x s) (⟨d, m, b, sib⟩ :: ctx) a bm c ∧
      Balanced (fill (⟨d, m, b, sib⟩ :: ctx) (.node a x bm c)) := by
  obtain ⟨hf, hh, hm⟩ := h
  have hh' : HoleOk le ctx (.node a m bm c) sib := by
    cases d
    · cases e
      exact hh
    · cases e
      exact hh.symm
  rw [e] at hf hm hb
  refine ⟨⟨Focus.near_iff.mp (prioSwap_focus (Focus.near_iff.mp hf)), hh'.down (d := .left) hsib,
    fun y => ?_⟩, balanced_exchange.mp hb⟩
  rw [← hm]
  simp only [mem_fill, LTree.mem_make, LTree.toList_node, ctxNodes_cons, List.mem_append,
    List.mem_cons]
  tauto

/-- The node moves down, below its child `m` that is not smaller than the other one. -/
theorem down (h : Moving le S x s ctx l b r) (hb : Balanced (fill ctx (.node l x b r)))
    (hm : (l.top = some m ∧ ∀ y, r.top = some y → le y m) ∨
      r.top = some m ∧ ∀ y, l.top = some y → le y m) :
    ∃ f a bm c, f.x = m ∧ Moving le S x (prioSwap m x s) (f :: ctx) a bm c ∧
      Balanced (fill (f :: ctx) (.node a x bm c)) ∧ size a + size c < size l + size r := by
  rcases hm with ⟨hl, hr⟩ | ⟨hr, hl⟩
  · cases l with
    | nil => cases hl
    | node l₁ y bl l₂ =>
        cases hl
        obtain ⟨h1, h2⟩ := h.down_side (d := .left) rfl hb (h.hole.2.2.bound hr)
        refine ⟨_, _, _, _, rfl, h1, h2, ?_⟩
        rw [size_node]
        omega
  · cases r with
    | nil => cases hr
    | node r₁ y br r₂ =>
        cases hr
        obtain ⟨h1, h2⟩ := h.down_side (d := .right) rfl hb (h.hole.2.1.bound hl)
        refine ⟨_, _, _, _, rfl, h1, h2, ?_⟩
        rw [size_node]
        omega

omit [DecidableEq ι] in
/-- The node has found its place. -/
theorem stop (h : Moving le S x s ctx l b r) (hb : Balanced (fill ctx (.node l x b r)))
    (hx : Below le x (above ctx)) (hl : HeapOk le (some x) l) (hr : HeapOk le (some x) r) :
    PrioQueue le s S :=
  ⟨_, Focus.fill_iff.mp h.focus, hb, h.hole.fill_node (d := .left) hx hl hr, h.members⟩

end Moving

/-! ### The loops that move up -/

variable {cmp : ι → ι → ℤ}

/-- The `for` loop of `prio_erase`. -/
theorem prioEraseUp_spec (hc : Comparison cmp) (h : Moving (Le cmp) S x s ctx l b r)
    (hl : HeapOk (Le cmp) (some x) l) (hr : HeapOk (Le cmp) (some x) r)
    (hb : Balanced (fill ctx (.node l x b r))) :
    ∃ s', Prog.Returns (prioEraseUp cmp x s) s' ∧ PrioQueue (Le cmp) s' S := by
  induction ctx generalizing s l b r with
  | nil =>
      have hp : prioParent x s = none := h.focus.parent_top rfl
      refine ⟨s, Prog.Returns.iterate_done ?_, h.stop hb below_none hl hr⟩
      simp [prioEraseUpPass, hp]
  | cons f ctx ih =>
      have hp : prioParent x s = some f.x := h.focus.parent_top rfl
      by_cases hx : cmp x f.x ≤ 0
      · refine ⟨s, Prog.Returns.iterate_done ?_, h.stop hb (below_some.mpr hx) hl hr⟩
        simp [prioEraseUpPass, hp, hx]
      · obtain ⟨l', r', h', hl', hr', e⟩ := h.up hc.trans (hc.le_of_pos (by omega))
        obtain ⟨s', hs', hq⟩ := ih h' hl' hr' (by rw [e]; exact balanced_exchange.mp hb)
        refine ⟨s', Prog.Returns.iterate_next ?_ hs', hq⟩
        simp [prioEraseUpPass, hp, hx]

/-- The `do ... while` loop of `prio_adjust`. -/
theorem prioAdjustUp_spec (hc : Comparison cmp) (h : Moving (Le cmp) S x s (f :: ctx) l b r)
    (hx : 0 < cmp x f.x) (hb : Balanced (fill (f :: ctx) (.node l x b r))) :
    ∃ s', Prog.Returns (prioAdjustUp cmp x f.x s) s' ∧ PrioQueue (Le cmp) s' S := by
  induction ctx generalizing s f l b r with
  | nil =>
      obtain ⟨l', r', h', hl', hr', e⟩ := h.up hc.trans (hc.le_of_pos hx)
      have hp : prioParent x (prioSwap x f.x s) = none := h'.focus.parent_top rfl
      have hb' : Balanced (fill [] (.node l' x f.tag r')) := by
        rw [e]
        exact balanced_exchange.mp hb
      refine ⟨_, Prog.Returns.iterate_done ?_, h'.stop hb' below_none hl' hr'⟩
      simp [prioAdjustUpPass, hp]
  | cons g ctx ih =>
      obtain ⟨l', r', h', hl', hr', e⟩ := h.up hc.trans (hc.le_of_pos hx)
      have hp : prioParent x (prioSwap x f.x s) = some g.x := h'.focus.parent_top rfl
      have hb' : Balanced (fill (g :: ctx) (.node l' x f.tag r')) := by
        rw [e]
        exact balanced_exchange.mp hb
      by_cases hg : 0 < cmp x g.x
      · obtain ⟨s', hs', hq⟩ := ih h' hg hb'
        refine ⟨s', Prog.Returns.iterate_next ?_ hs', hq⟩
        simp [prioAdjustUpPass, hp, hg]
      · refine ⟨_, Prog.Returns.iterate_done ?_, h'.stop hb' (below_some.mpr (by omega)) hl' hr'⟩
        simp [prioAdjustUpPass, hp, hg]

/-- Changing a balance above the moving node. -/
theorem Moving.changeBalance (h : Moving le S x s (f :: ctx) l b r) :
    Moving le S x (prioChangeBalance f.x s) (changed f :: ctx) l b r := by
  refine ⟨Focus.cons_iff.mpr (prioChangeBalance_focus (Focus.cons_iff.mp h.focus)), ?_, fun y => ?_⟩
  · exact h.hole
  · rw [← h.members]
    simp

/-- The rest of the walk to the root of `prio_insert`. -/
theorem Moving.changeUp (h : Moving le S x s ctx l b r)
    (hb : Balanced (fill (ctx.map changed) (.node l x b r))) (hx : Below le x (above ctx))
    (hl : HeapOk le (some x) l) (hr : HeapOk le (some x) r) :
    ∃ s', Prog.Returns (prioChangeUp (above ctx) s) s' ∧ PrioQueue le s' S := by
  obtain ⟨s', hs', hf, -⟩ := prioChangeUp_focus h.focus
  refine ⟨s', hs', _, Focus.fill_iff.mp hf, hb, heapOk_fill.mpr ⟨heapCtx_map_changed.mpr h.hole.1, ?_⟩,
    fun y => ?_⟩
  · rw [above_map_changed]
    exact ⟨hx, hl, hr⟩
  · rw [← h.members]
    simp

/-- The two loops of `prio_insert` that go up: the first one changes the balances of the nodes
that `x` passes, the second one those of the nodes above it. -/
theorem prioInsertSift_spec (hc : Comparison cmp) (h : Moving (Le cmp) S x s (f :: ctx) l b r)
    (hl : HeapOk (Le cmp) (some x) l) (hr : HeapOk (Le cmp) (some x) r)
    (hb : Balanced (fill ((f :: ctx).map changed) (.node l x b r))) :
    ∃ p s₁ s', Prog.Returns (prioInsertSift cmp x f.x s) (p, s₁) ∧
      Prog.Returns (prioChangeUp p s₁) s' ∧ PrioQueue (Le cmp) s' S := by
  induction ctx generalizing s f l b r with
  | nil =>
      by_cases hx : cmp x f.x ≤ 0
      · obtain ⟨s', hs', hq⟩ := h.changeUp hb (below_some.mpr hx) hl hr
        refine ⟨_, s, s', Prog.Returns.iterate_done ?_, hs', hq⟩
        simp [prioInsertPass, hx]
      · obtain ⟨l', r', h', hl', hr', e⟩ := h.changeBalance.up hc.trans (hc.le_of_pos (by simpa using hx))
        have hp := h'.focus.parent_top (x := x) rfl
        have hb' : Balanced (fill ([].map changed) (.node l' x (changed f).tag r')) := by
          rw [e]
          exact balanced_exchange.mp hb
        obtain ⟨s', hs', hq⟩ := h'.changeUp hb' below_none hl' hr'
        refine ⟨_, _, s', Prog.Returns.iterate_done ?_, hs', hq⟩
        simp only [changed_x] at hp ⊢
        simp [prioInsertPass, hx, prioParent, hp]
  | cons g ctx ih =>
      by_cases hx : cmp x f.x ≤ 0
      · obtain ⟨s', hs', hq⟩ := h.changeUp hb (below_some.mpr hx) hl hr
        refine ⟨_, s, s', Prog.Returns.iterate_done ?_, hs', hq⟩
        simp [prioInsertPass, hx]
      · obtain ⟨l', r', h', hl', hr', e⟩ := h.changeBalance.up hc.trans (hc.le_of_pos (by simpa using hx))
        have hp := h'.focus.parent_top (x := x) rfl
        have hb' : Balanced (fill ((g :: ctx).map changed) (.node l' x (changed f).tag r')) := by
          rw [e]
          exact balanced_exchange.mp hb
        obtain ⟨p, s₁, s', hs₁, hs', hq⟩ := ih h' hl' hr' hb'
        refine ⟨p, s₁, s', Prog.Returns.iterate_next ?_ hs₁, hs', hq⟩
        simp only [changed_x] at hp ⊢
        simp [prioInsertPass, hx, prioParent, hp]

/-! ### The loops that move down -/

omit [DecidableEq ι] in
/-- The larger of `max` and a child, `max` if they are equal. -/
theorem prioMax_spec (cmp : ι → ι → ℤ) (child : Option ι) (max : ι) :
    (prioMax cmp child max = max ∧ ∀ y, child = some y → cmp y max ≤ 0) ∨
      ∃ y, child = some y ∧ prioMax cmp child max = y ∧ 0 < cmp y max := by
  cases child with
  | none => exact .inl ⟨rfl, nofun⟩
  | some y =>
      by_cases h : 0 < cmp y max
      · exact .inr ⟨y, rfl, if_pos h, h⟩
      · refine .inl ⟨if_neg h, fun z hz => ?_⟩
        cases hz
        omega

/-- The `while (1)` loop of `prio_adjust`. -/
theorem prioAdjustDown_spec (hc : Comparison cmp) (h : Moving (Le cmp) S x s ctx l b r)
    (hx : Below (Le cmp) x (above ctx)) (hb : Balanced (fill ctx (.node l x b r))) :
    ∃ s', Prog.Returns (prioAdjustDown cmp x s) s' ∧ PrioQueue (Le cmp) s' S := by
  refine Prog.Returns.iterate (fun n s => ∃ ctx l b r, size l + size r = n ∧
    Moving (Le cmp) S x s ctx l b r ∧ Below (Le cmp) x (above ctx) ∧
    Balanced (fill ctx (.node l x b r))) ?_ (size l + size r) s ⟨ctx, l, b, r, rfl, h, hx, hb⟩
  rintro n s ⟨ctx, l, b, r, rfl, h, hx, hb⟩
  have hcell : s.mem x = ⟨above ctx, b, l.top, r.top⟩ := h.focus.linked.1
  have hxl : l.top ≠ some x := fun e => by
    have := h.focus.nodup
    simp [LTree.top_mem e, List.nodup_append'] at this
  have hxr : r.top ≠ some x := fun e => by
    have := h.focus.nodup
    simp [LTree.top_mem e, List.nodup_append'] at this
  -- the node passes its larger child `m`
  have hdown : ∀ m, prioMax cmp r.top (prioMax cmp l.top x) = m → m ≠ x → cmp x m ≤ 0 →
      ((l.top = some m ∧ ∀ y, r.top = some y → cmp y m ≤ 0) ∨
        r.top = some m ∧ ∀ y, l.top = some y → cmp y m ≤ 0) →
      ∃ s' n', Prog.Returns (.ofOption (some (prioAdjustDownPass cmp x s))) (.next s') ∧
        n' < size l + size r ∧ ∃ ctx l b r, size l + size r = n' ∧
          Moving (Le cmp) S x s' ctx l b r ∧ Below (Le cmp) x (above ctx) ∧
          Balanced (fill ctx (.node l x b r)) := by
    intro m hm hne hxm hside
    obtain ⟨f, a, bm, c, hfx, h', hb', hlt⟩ := h.down hb hside
    refine ⟨prioSwap m x s, _, ?_, hlt, f :: ctx, a, bm, c, rfl, h', ?_, hb'⟩
    · simp [prioAdjustDownPass, hcell, hm, hne]
    · rw [above_cons, hfx]
      exact below_some.mpr hxm
  rcases prioMax_spec cmp l.top x with ⟨e1, hl⟩ | ⟨z, hz, e1, hlt⟩
  · rcases prioMax_spec cmp r.top (prioMax cmp l.top x) with ⟨e2, hr⟩ | ⟨y, hy, e2, hlt'⟩
    · rw [e1] at hr e2
      refine .inl ⟨s, by simp [prioAdjustDownPass, hcell, e1, e2], h.stop hb hx ?_ ?_⟩
      · exact h.hole.2.1.bound hl
      · exact h.hole.2.2.bound hr
    · rw [e1] at hlt'
      have hxy : cmp x y ≤ 0 := hc.le_of_pos hlt'
      refine .inr (hdown y e2 (fun e => hxr (e ▸ hy)) hxy (.inr ⟨hy, fun w hw => ?_⟩))
      exact hc.trans w x y (hl w hw) hxy
  · rcases prioMax_spec cmp r.top (prioMax cmp l.top x) with ⟨e2, hr⟩ | ⟨y, hy, e2, hlt'⟩
    · rw [e1] at hr e2
      have hxz : cmp x z ≤ 0 := hc.le_of_pos hlt
      exact .inr (hdown z (by rw [e1, e2]) (fun e => hxl (e ▸ hz)) hxz (.inl ⟨hz, hr⟩))
    · rw [e1] at hlt'
      have hzy : cmp z y ≤ 0 := hc.le_of_pos hlt'
      have hxy : cmp x y ≤ 0 := hc.trans x z y (hc.le_of_pos hlt) hzy
      refine .inr (hdown y e2 (fun e => hxr (e ▸ hy)) hxy (.inr ⟨hy, fun w hw => ?_⟩))
      rw [hz] at hw
      cases hw
      exact hzy

/-- The first loop of `prio_erase` ends with the node at a leaf. -/
theorem prioEraseSift_spec (hc : Comparison cmp) (h : Moving (Le cmp) S x s ctx l b r)
    (hb : Balanced (fill ctx (.node l x b r))) :
    ∃ s', Prog.Returns (prioEraseSift cmp x s) s' ∧ ∃ ctx b, Moving (Le cmp) S x s' ctx .nil b .nil ∧
      Balanced (fill ctx (.node .nil x b .nil)) := by
  refine Prog.Returns.iterate (fun n s => ∃ ctx l b r, size l + size r = n ∧
    Moving (Le cmp) S x s ctx l b r ∧ Balanced (fill ctx (.node l x b r))) ?_ (size l + size r) s
    ⟨ctx, l, b, r, rfl, h, hb⟩
  rintro n s ⟨ctx, l, b, r, rfl, h, hb⟩
  have hcell : s.mem x = ⟨above ctx, b, l.top, r.top⟩ := h.focus.linked.1
  cases l with
  | nil =>
      obtain rfl : r = .nil := by
        rcases (balanced_fill.mp hb).2.1 with ⟨-, hw⟩ | ⟨-, hw⟩
        · exact size_eq_zero.mp hw.symm
        · simp at hw
      exact .inl ⟨s, by simp [prioErasePass, hcell], ctx, b, h, hb⟩
  | node l₁ z bz l₂ =>
      have hdown : ∀ m, prioMax cmp r.top z = m →
          (((LTree.node l₁ z bz l₂).top = some m ∧ ∀ y, r.top = some y → cmp y m ≤ 0) ∨
            r.top = some m ∧ ∀ y, (LTree.node l₁ z bz l₂).top = some y → cmp y m ≤ 0) →
          ∃ s' n', Prog.Returns (.ofOption (some (prioErasePass cmp x s))) (.next s') ∧
            n' < size (.node l₁ z bz l₂) + size r ∧ ∃ ctx l b r, size l + size r = n' ∧
              Moving (Le cmp) S x s' ctx l b r ∧ Balanced (fill ctx (.node l x b r)) := by
        intro m hm hside
        obtain ⟨f, a, bm, c, -, h', hb', hlt⟩ := h.down hb hside
        refine ⟨prioSwap m x s, _, ?_, hlt, f :: ctx, a, bm, c, rfl, h', hb'⟩
        simp [prioErasePass, hcell, hm]
      rcases prioMax_spec cmp r.top z with ⟨e, hr⟩ | ⟨y, hy, e, hlt⟩
      · exact .inr (hdown z e (.inl ⟨rfl, hr⟩))
      · refine .inr (hdown y e (.inr ⟨hy, fun w hw => ?_⟩))
        cases hw
        exact hc.le_of_pos hlt

end Libls.Prio
