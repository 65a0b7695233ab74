import Libls.AvlBalance

/-! # Rebalancing after insertion and before removal

The two loops of `src/avltree.c` that walk from a leaf to the root.

* `Grown` is the invariant of `avl_insert_balance`: the subtree at `node` is one higher than
  the balances above it say.
* `Shrinking` is the invariant of `avl_erase_balance`.  The doomed node `x` with its only child
  `c` is still linked, so the tree in memory is `fill (inner ++ outer) (make dx c x bx nil)`;
  what is balanced is the tree with `c` alone in the hole, whose part below `outer` is one
  lower than the balances in `outer` say. -/

namespace Libls.Avl

open LinkedTree

variable {ι : Type} [DecidableEq ι] {s : AvlRoot ι}

/-- The store is a balanced tree that holds the objects `S` from left to right. -/
def Holds (s : AvlRoot ι) (S : List ι) : Prop := ∃ t, Focus s [] t ∧ AvlOk t ∧ t.toList = S

omit [DecidableEq ι] in
theorem Holds.of_focus {ctx : List (Frame ι AvlBalance)} {t : LTree ι AvlBalance}
    (h : Focus s ctx t) (ht : AvlOk t) (hc : CtxOk ctx (height t)) :
    Holds s (fill ctx t).toList :=
  ⟨fill ctx t, Focus.fill_iff.mp h, avlOk_fill.mpr ⟨hc, ht⟩, rfl⟩

/-! ### Insertion -/

/-- The subtree at `node` is balanced, and one higher than the tree around it, whose depth is
`n`, has been told. -/
def Grown (S : List ι) (n : ℕ) (p : ι × AvlRoot ι) : Prop :=
  ∃ ctx l b r, ctx.length = n ∧ Focus p.2 ctx (.node l p.1 b r) ∧ AvlOk (.node l p.1 b r) ∧
    CtxOk ctx (height (.node l p.1 b r) - 1) ∧ (b = .equalHeight → height (.node l p.1 b r) = 1) ∧
    (fill ctx (.node l p.1 b r)).toList = S

theorem avlInsertStep_root {t : LTree ι AvlBalance} {node : ι} (h : Focus s [] t)
    (ht : t.top = some node) : avlInsertStep node s = some (.done s) := by
  rw [avlInsertStep, show avlParent node s = none from h.parent_top ht]

theorem avlInsertStep_cons {f : Frame ι AvlBalance} {ctx : List (Frame ι AvlBalance)}
    {t : LTree ι AvlBalance} {node : ι} (h : Focus s (f :: ctx) t) (ht : t.top = some node) :
    avlInsertStep node s = avlInsertArm f.dir node f.x s := by
  have hl := h.left_eq_iff ht
  rw [avlInsertStep, show avlParent node s = some f.x from h.parent_top ht]
  cases hd : f.dir <;> simp [hd] at hl <;> simp [hl]

/-- One pass of the loop of `avl_insert_balance`. -/
theorem Grown.step {S : List ι} {n : ℕ} {p : ι × AvlRoot ι} (h : Grown S n p) :
    (∃ s', avlInsertStep p.1 p.2 = some (.done s') ∧ Holds s' S) ∨
      ∃ q m, avlInsertStep p.1 p.2 = some (.next q) ∧ m < n ∧ Grown S m q := by
  obtain ⟨ctx, l, b, r, hn, hf, hok, hctx, hb, hS⟩ := h
  obtain ⟨node, s⟩ := p
  simp only at hf hok hctx hb hS ⊢
  have hpos : 0 < height (.node l node b r) := by
    rw [height]
    omega
  generalize ht : LTree.node l node b r = t at *
  have htop : t.top = some node := by rw [← ht]; rfl
  cases ctx with
  | nil =>
      refine .inl ⟨s, avlInsertStep_root hf htop, ?_⟩
      rw [← hS]
      exact Holds.of_focus hf hok trivial
  | cons f ctx =>
      obtain ⟨d, x, tag, sib⟩ := f
      rw [avlInsertStep_cons hf htop]
      simp only [CtxOk] at hctx
      obtain ⟨htag, hsib, hctx⟩ := hctx
      have hbal : avlBalance x s = tag := by rw [avlBalance, hf.mem_above, Cell.make_tag]
      rw [fill] at hS
      have hf' := Focus.near_iff.mpr hf
      rcases balance_cases d tag with rfl | rfl | rfl
      · -- the subtree at the parent has grown, too
        rw [tagged_equal] at htag
        right
        refine ⟨(x, avlSetBalance x (.higher d) s), ctx.length, by simp [avlInsertArm, hbal],
          by simp [← hn], ?_⟩
        have h1 := hf'.setTag (.higher d)
        have h2 : AvlOk (.make d t x (.higher d) sib) :=
          avlOk_make.mpr ⟨tagged_higher.mpr (by omega), hok, hsib⟩
        have h3 : height (.make d t x (AvlBalance.higher d) sib) - 1 =
            1 + max (height t - 1) (height sib) := by
          rw [height_make]
          omega
        have h4 : (fill ctx (.make d t x (.higher d) sib)).toList = S := by
          rw [← hS, toList_fill, toList_fill, Frame.fill]
          cases d <;> rfl
        rw [← h3] at hctx
        cases d
        · exact ⟨ctx, t, _, sib, rfl, h1, h2, hctx, by simp [AvlBalance.higher], h4⟩
        · exact ⟨ctx, sib, _, t, rfl, h1, h2, hctx, by simp [AvlBalance.higher], h4⟩
      · -- the subtree at the parent is now two higher on this side
        rw [tagged_higher] at htag
        left
        obtain ⟨a, c, e⟩ : ∃ a c, t = .make d a node b c := by
          cases d
          · exact ⟨l, r, ht.symm⟩
          · exact ⟨r, l, ht.symm⟩
        rw [e] at hf' hok
        obtain ⟨s', t', hs', hf'', hok', hh, hlist⟩ := avlSideBalance_focus hf'
          (fun hbe => by have := hb hbe; omega) hok hsib (by rw [← e]; omega)
        refine ⟨s', by simp [avlInsertArm, hbal, hs'], ?_⟩
        have h1 : S = (fill ctx t').toList := by
          rw [← hS, toList_fill, toList_fill, hlist, ← e]
          rfl
        rw [h1]
        refine Holds.of_focus hf'' hok' ?_
        rw [hh]
        exact (show 1 + max (height t - 1) (height sib) = height sib + 2 by omega) ▸ hctx
      · -- the other side was higher: the height at the parent does not change
        rw [tagged_higher_other] at htag
        left
        refine ⟨avlSetBalance x .equalHeight s, by simp [avlInsertArm, hbal], ?_⟩
        have h1 := hf'.setTag .equalHeight
        have h2 : S = (fill ctx (.make d t x .equalHeight sib)).toList := by
          rw [← hS, toList_fill, toList_fill, Frame.fill]
          cases d <;> rfl
        rw [h2]
        refine Holds.of_focus h1 (avlOk_make.mpr ⟨tagged_equal.mpr (by omega), hok, hsib⟩) ?_
        rw [height_make]
        exact (show max (height t - 1) (height sib) = max (height t) (height sib) by omega) ▸ hctx

/-- `avl_insert_balance` ends in a balanced tree with the same objects in the same order. -/
theorem avlInsertBalance_holds {S : List ι} {n : ℕ} {node : ι} (h : Grown S n (node, s)) :
    ∃ s', Prog.Returns (avlInsertBalance node s) s' ∧ Holds s' S := by
  refine Prog.Returns.iterate (Grown S) (fun n p hp => ?_) n (node, s) h
  simpa only [Prog.returns_ofOption] using hp.step

/-! ### Removal -/

/-- What an arm of the loop of `avl_erase_balance` does: the hole tree `t` on side `d` of `x`, of
which the part `t₀` will stay, gets the frames `extra` around it. -/
structure Erased (s' : AvlRoot ι) (ctx extra : List (Frame ι AvlBalance)) (f : Frame ι AvlBalance)
    (t t₀ : LTree ι AvlBalance) (h : ℕ) : Prop where
  focus : Focus s' ctx (fill extra t)
  ok : AvlOk (fill extra t₀)
  height_eq : height (fill extra t₀) = h
  list_eq : (fill extra t).toList = (f.fill t).toList

/-- The other side of `x` is too high: rotations bring it down. -/
theorem avlEraseArm_sibling {ctx : List (Frame ι AvlBalance)} {d : Dir} {x : ι}
    {sib t t₀ : LTree ι AvlBalance} (h : Focus s (⟨d, x, .higher d.other, sib⟩ :: ctx) t)
    (hok : AvlOk t₀) (hsib : AvlOk sib) (hh : height sib = height t₀ + 2) :
    (∃ s' extra, avlEraseArm d x s = some (.done s') ∧
      Erased s' ctx extra ⟨d, x, .higher d.other, sib⟩ t t₀ (height t₀ + 3)) ∨
    ∃ s' extra q, avlEraseArm d x s = some (.next (q, s')) ∧ (fill extra t).top = some q ∧
      Erased s' ctx extra ⟨d, x, .higher d.other, sib⟩ t t₀ (height t₀ + 2) := by
  obtain ⟨e, n, bn, g, rfl⟩ := exists_make d (b := sib) (by omega)
  have hf := Focus.near_iff.mpr h
  have hbal : avlBalance x s = .higher d.other := by rw [avlBalance, h.mem_above, Cell.make_tag]
  have hn : (s.mem x).child d.other = some n := by
    rw [h.mem_above, Cell.make_child_other, LTree.top_make]
  have hnb : avlBalance n s = bn := by
    rw [avlBalance, (Focus.far_iff.mp hf).mem_top, Cell.make_tag]
  obtain ⟨htag, he, hg⟩ := avlOk_make.mp hsib
  rw [height_make] at hh
  rcases balance_cases d bn with rfl | rfl | rfl
  · -- case 3a
    rw [tagged_equal] at htag
    left
    have h1 := avlRotate_focus (Focus.far_iff.mpr ((Focus.far_iff.mp hf).setTag (.higher d)))
    refine ⟨_, [⟨d, x, .higher d.other, e⟩, ⟨d, n, .higher d, g⟩], ?_, h1, ?_, ?_, ?_⟩
    · simp [avlEraseArm, hbal, hn, hnb, avlSetBalance]
    · simp only [fill, Frame.fill, avlOk_make, tagged_higher_other, tagged_higher, height_make]
      exact ⟨by omega, ⟨by omega, hok, he⟩, hg⟩
    · simp only [fill, Frame.fill, height_make]
      omega
    · cases d <;> simp [fill, Frame.fill, LTree.make]
  · -- case 3c
    rw [tagged_higher] at htag
    right
    obtain ⟨e₂, y, b, e₁, rfl⟩ := exists_make d (b := e) (by omega)
    rw [height_make] at htag hh
    rw [← LTree.make_other d _ t, ← LTree.make_other d g, ← LTree.make_other d e₁] at hf
    have hy : avlBalance y s = b := by
      rw [avlBalance, (Focus.far_iff.mp (Focus.near_iff.mp hf)).mem_top, Cell.make_tag]
    have hyc : (s.mem n).child d = some y := by
      rw [(Focus.near_iff.mp hf).mem_top, LTree.make_other, LTree.top_make, Cell.make_other,
        Cell.make_child]
    have hdbl : avlEraseDouble d n x s = some (doubleRotation d.other y n x s) := by
      simp only [avlEraseDouble, hyc, hy, doubleRotation, Option.bind_eq_bind, Option.bind_some]
      rcases balance_cases d b with rfl | rfl | rfl <;> simp
    have h1 := doubleRotation_focus hf
    have hN : AvlOk (.make d.other g n (.higher d.other.other) (.make d.other e₁ y b e₂)) := by
      simpa only [Dir.other_other, LTree.make_other] using hsib
    obtain ⟨hok', hh'⟩ := doubleTags_balance x hN hok (by rw [height_make]; omega)
    have hpar : avlParent n (doubleRotation d.other y n x s) = some y := by
      rw [avlParent, (Focus.near_iff.mp h1).mem_top, Cell.make_parent, above_cons]
    simp only [LTree.make_other] at h1 hok' hh'
    refine ⟨doubleRotation d.other y n x s, [⟨d, x, (doubleTags d.other b).2, e₂⟩,
      ⟨d, y, .equalHeight, .make d e₁ n (doubleTags d.other b).1 g⟩], y, ?_, ?_, h1, hok', hh', ?_⟩
    · simp [avlEraseArm, hbal, hn, hnb, hdbl, hpar]
    · simp [fill, Frame.fill]
    · cases d <;> simp [fill, Frame.fill, LTree.make]
  · -- case 3b
    rw [tagged_higher_other] at htag
    right
    have h0 := (Focus.far_iff.mpr ((Focus.far_iff.mp hf).setTag .equalHeight)).setTag .equalHeight
    have h1 := avlRotate_focus h0
    refine ⟨_, [⟨d, x, .equalHeight, e⟩, ⟨d, n, .equalHeight, g⟩], n, ?_, ?_, h1, ?_, ?_, ?_⟩
    · simp [avlEraseArm, hbal, hn, hnb, avlSetBalance]
    · simp [fill, Frame.fill]
    · simp only [fill, Frame.fill, avlOk_make, tagged_equal, height_make]
      exact ⟨by omega, ⟨by omega, hok, he⟩, hg⟩
    · simp only [fill, Frame.fill, height_make]
      omega
    · cases d <;> simp [fill, Frame.fill, LTree.make]

/-- One arm of the loop of `avl_erase_balance`: either the height below `ctx` is the old one and
the loop ends, or it is one lower and the loop goes on with the top of the subtree. -/
theorem avlEraseArm_spec {ctx : List (Frame ι AvlBalance)} {f : Frame ι AvlBalance}
    {t t₀ : LTree ι AvlBalance} (h : Focus s (f :: ctx) t) (hok : AvlOk t₀)
    (hctx : CtxOk (f :: ctx) (height t₀ + 1)) :
    (∃ s' extra, avlEraseArm f.dir f.x s = some (.done s') ∧
      Erased s' ctx extra f t t₀ (1 + max (height t₀ + 1) (height f.sib))) ∨
    ∃ s' extra q, avlEraseArm f.dir f.x s = some (.next (q, s')) ∧ (fill extra t).top = some q ∧
      Erased s' ctx extra f t t₀ (max (height t₀ + 1) (height f.sib)) := by
  obtain ⟨d, x, tag, sib⟩ := f
  obtain ⟨htag, hsib, -⟩ := hctx
  have hbal : avlBalance x s = tag := by rw [avlBalance, h.mem_above, Cell.make_tag]
  have hf := Focus.near_iff.mpr h
  simp only at htag hsib ⊢
  rcases balance_cases d tag with rfl | rfl | rfl
  · rw [tagged_equal] at htag
    left
    refine ⟨_, [⟨d, x, .higher d.other, sib⟩], ?_, hf.setTag (.higher d.other), ?_, ?_, ?_⟩
    · simp [avlEraseArm, hbal, avlSetBalance]
    · simp only [fill, Frame.fill, avlOk_make, tagged_higher_other]
      exact ⟨by omega, hok, hsib⟩
    · simp only [fill, Frame.fill, height_make]
      omega
    · cases d <;> simp [fill, Frame.fill, LTree.make]
  · rw [tagged_higher] at htag
    right
    refine ⟨_, [⟨d, x, .equalHeight, sib⟩], x, ?_, ?_, hf.setTag .equalHeight, ?_, ?_, ?_⟩
    · simp [avlEraseArm, hbal, avlSetBalance]
    · simp [fill, Frame.fill]
    · simp only [fill, Frame.fill, avlOk_make, tagged_equal]
      exact ⟨by omega, hok, hsib⟩
    · simp only [fill, Frame.fill, height_make]
      omega
    · cases d <;> simp [fill, Frame.fill, LTree.make]
  · rw [tagged_higher_other] at htag
    have h1 := avlEraseArm_sibling h hok hsib (by omega)
    rw [show 1 + max (height t₀ + 1) (height sib) = height t₀ + 3 by omega,
      show max (height t₀ + 1) (height sib) = height t₀ + 2 by omega]
    exact h1

/-- The subtree at `node` holds the doomed tree `t`, of which `t₀` will stay, and is one lower
than the tree around it, whose depth is `n`, has been told. -/
def Shrinking (t t₀ : LTree ι AvlBalance) (S : List ι) (n : ℕ) (p : ι × AvlRoot ι) : Prop :=
  ∃ inner outer, outer.length = n ∧ Focus p.2 (inner ++ outer) t ∧
    (fill inner t).top = some p.1 ∧ AvlOk (fill inner t₀) ∧
    CtxOk outer (height (fill inner t₀) + 1) ∧ (fill (inner ++ outer) t).toList = S

/-- The end of `avl_erase_balance`: without the doomed node the tree is balanced. -/
def Shrunk (t t₀ : LTree ι AvlBalance) (S : List ι) (s : AvlRoot ι) : Prop :=
  ∃ ctx, Focus s ctx t ∧ AvlOk (fill ctx t₀) ∧ (fill ctx t).toList = S

theorem avlEraseStep_root {t : LTree ι AvlBalance} {node : ι} (h : Focus s [] t)
    (ht : t.top = some node) : avlEraseStep node s = some (.done s) := by
  rw [avlEraseStep, show avlParent node s = none from h.parent_top ht]

theorem avlEraseStep_cons {f : Frame ι AvlBalance} {ctx : List (Frame ι AvlBalance)}
    {t : LTree ι AvlBalance} {node : ι} (h : Focus s (f :: ctx) t) (ht : t.top = some node) :
    avlEraseStep node s = avlEraseArm f.dir f.x s := by
  have hl := h.left_eq_iff ht
  rw [avlEraseStep, show avlParent node s = some f.x from h.parent_top ht]
  cases hd : f.dir <;> simp [hd] at hl <;> simp [hl]

/-- One pass of the loop of `avl_erase_balance`. -/
theorem Shrinking.step {t t₀ : LTree ι AvlBalance} {S : List ι} {n : ℕ} {p : ι × AvlRoot ι}
    (h : Shrinking t t₀ S n p) :
    (∃ s', avlEraseStep p.1 p.2 = some (.done s') ∧ Shrunk t t₀ S s') ∨
      ∃ q m, avlEraseStep p.1 p.2 = some (.next q) ∧ m < n ∧ Shrinking t t₀ S m q := by
  obtain ⟨inner, outer, hn, hf, htop, hok, hctx, hS⟩ := h
  obtain ⟨node, s⟩ := p
  simp only at hf htop ⊢
  rw [Focus.append_iff] at hf
  rw [fill_append] at hS
  cases outer with
  | nil => exact .inl ⟨s, avlEraseStep_root hf htop, inner, Focus.fill_iff.mpr hf, hok, hS⟩
  | cons f ctx =>
      rw [avlEraseStep_cons hf htop]
      rw [fill] at hS
      rcases avlEraseArm_spec hf hok hctx with ⟨s', extra, hs', he⟩ | ⟨s', extra, q, hs', hq, he⟩
      · left
        refine ⟨s', hs', inner ++ (extra ++ ctx), ?_, ?_, ?_⟩
        · rw [Focus.append_iff, Focus.append_iff]
          exact he.focus
        · rw [fill_append, fill_append, avlOk_fill, he.height_eq]
          exact ⟨hctx.2.2, he.ok⟩
        · rw [← hS, fill_append, fill_append, toList_fill ctx, he.list_eq, ← toList_fill]
      · right
        refine ⟨(q, s'), ctx.length, hs', by simp [← hn], inner ++ extra, ctx, rfl, ?_, ?_, ?_, ?_, ?_⟩
        · rw [List.append_assoc, Focus.append_iff, Focus.append_iff]
          exact he.focus
        · rw [fill_append, hq]
        · rw [fill_append]
          exact he.ok
        · rw [fill_append, he.height_eq, Nat.add_comm]
          exact hctx.2.2
        · rw [← hS, fill_append, fill_append, toList_fill ctx, he.list_eq, ← toList_fill]

/-- `avl_erase_balance`, started at a node with at most one child. -/
theorem avlEraseBalance_shrunk {t t₀ : LTree ι AvlBalance} {S : List ι} {n : ℕ} {node : ι}
    (h : Shrinking t t₀ S n (node, s)) :
    ∃ s', Prog.Returns (avlEraseBalance node s) s' ∧ Shrunk t t₀ S s' := by
  refine Prog.Returns.iterate (Shrinking t t₀ S) (fun n p hp => ?_) n (node, s) h
  simpa only [Prog.returns_ofOption] using hp.step

end Libls.Avl
