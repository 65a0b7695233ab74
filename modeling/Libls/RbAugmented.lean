import Libls.RbErase

/-! # The augmented red-black tree of `include/ls/rbtree_augmented.h`

The functions of `src/rbtree.c` with the calls of `struct rb_augment_callbacks` at the places where the
source makes them.  The callbacks own memory of type `δ` (what the nodes are embedded in) and read the
tree; they do not write to it.

`rbAugmented_tree` says that the tree comes out as it does of `rb_insert_color` and `rb_erase`, whose
callbacks are dummies. -/

namespace Libls.Rb

open LinkedTree

variable {ι δ : Type} [DecidableEq ι]

/-- `struct rb_augment_callbacks` -/
structure RbAugmentCallbacks (ι δ : Type) where
  propagate : Option ι → Option ι → RbRoot ι → δ → Prog δ
  copy : ι → ι → RbRoot ι → δ → δ
  rotate : ι → ι → RbRoot ι → δ → δ

/-- `dummy_callbacks` -/
def dummyCallbacks : RbAugmentCallbacks ι δ :=
  ⟨fun _ _ _ a => return a, fun _ _ _ a => a, fun _ _ _ a => a⟩

namespace RbAugmentCallbacks

variable (augment : RbAugmentCallbacks ι δ)

/-! ### Insertion -/

/-- One arm of the loop of `__rb_insert`. -/
def insertArm (d : Dir) (node parent gparent : ι) (s : RbRoot ι) (a : δ) :
    Iter (RbInsertLoop ι × δ) (RbRoot ι × δ) :=
  match (s.mem gparent).child d.other, rbIsRed ((s.mem gparent).child d.other) s with
  | some tmp, true =>
      -- case 1
      let s := rbSetParentColor tmp (some gparent) .black s
      let s := rbSetParentColor parent (some gparent) .black s
      let node := gparent
      let parent := rbParent node s
      .next (⟨node, parent, rbSetParentColor node parent .red s⟩, a)
  | _, _ =>
      let (top, tmp, s') := rbInsertInner d node parent s
      -- case 2 was taken
      let a := if (s.mem parent).child d.other = some node then augment.rotate parent node s' a else a
      let s' := rbInsertOuter d top gparent tmp s'
      .done (s', augment.rotate gparent top s' a)

def insertStep (p : RbInsertLoop ι × δ) : Option (Iter (RbInsertLoop ι × δ) (RbRoot ι × δ)) :=
  let (⟨node, parent, s⟩, a) := p
  match parent with
  | none => some (.done (rbSetParentColor node none .black s, a))
  | some parent =>
      if rbIsBlack parent s then some (.done (s, a))
      else do
        let gparent ← (← rbRedParent parent s)
        if (s.mem gparent).right ≠ some parent then
          return augment.insertArm .left node parent gparent s a
        else return augment.insertArm .right node parent gparent s a

/-- `__rb_insert` with the callback `rotate`, which `__rb_insert_augmented` and `rb_insert_augmented`
are. -/
def rbInsert (node : ι) (s : RbRoot ι) (a : δ) : Prog (RbRoot ι × δ) := do
  let parent ← rbRedParent node s
  Prog.iterate (fun p => liftM (augment.insertStep p)) ((⟨node, parent, s⟩ : RbInsertLoop ι), a)

/-! ### Removal -/

/-- Case 4 of `____rb_erase_color`. -/
def eraseOuter (d : Dir) (parent sibling tmp1 : ι) (s : RbRoot ι) (a : δ) : RbRoot ι × δ :=
  let s := rbEraseOuter d parent sibling tmp1 s
  (s, augment.rotate parent sibling s a)

/-- Cases 2 to 4, with a black sibling. -/
def eraseBlackSibling (d : Dir) (parent sibling : ι) (s : RbRoot ι) (a : δ) :
    Iter (RbEraseLoop ι × δ) (RbRoot ι × δ) :=
  match (s.mem sibling).child d.other, rbIsRed ((s.mem sibling).child d.other) s with
  | some tmp1, true => .done (augment.eraseOuter d parent sibling tmp1 s a)
  | _, _ =>
      match (s.mem sibling).child d, rbIsRed ((s.mem sibling).child d) s with
      | some tmp2, true =>
          let (tmp1, top, s) := rbEraseInner d parent sibling tmp2 s
          .done (augment.eraseOuter d parent top tmp1 s (augment.rotate sibling tmp2 s a))
      | _, _ => (rbEraseFlip parent sibling s).map (·, a) (·, a)

/-- One arm of the loop of `____rb_erase_color`. -/
def eraseArm (d : Dir) (parent : ι) (s : RbRoot ι) (a : δ) :
    Option (Iter (RbEraseLoop ι × δ) (RbRoot ι × δ)) := do
  let sibling ← (s.mem parent).child d.other
  if rbColor sibling s = .red then
    let (tmp1, s) ← rbEraseRedSibling d parent sibling s
    return augment.eraseBlackSibling d parent tmp1 s (augment.rotate parent sibling s a)
  else return augment.eraseBlackSibling d parent sibling s a

def eraseStep (p : RbEraseLoop ι × δ) : Option (Iter (RbEraseLoop ι × δ) (RbRoot ι × δ)) :=
  let (⟨node, parent, s⟩, a) := p
  if node ≠ (s.mem parent).right then augment.eraseArm .left parent s a
  else augment.eraseArm .right parent s a

/-- `____rb_erase_color` with the callback `rotate`, which `__rb_erase_color` is. -/
def rbEraseColor (parent : ι) (s : RbRoot ι) (a : δ) : Prog (RbRoot ι × δ) :=
  Prog.iterate (fun p => liftM (augment.eraseStep p)) ((⟨none, parent, s⟩ : RbEraseLoop ι), a)

/-- `__rb_erase_augmented` -/
def rbEraseAugmented (node : ι) (s : RbRoot ι) (a : δ) : Prog (Option ι × RbRoot ι × δ) :=
  match (s.mem node).left, (s.mem node).right with
  | none, _ => do
      let (rebalance, s') := rbEraseNoLeft node s
      return (rebalance, s', ← augment.propagate (rbParent node s) none s' a)
  | some tmp, none => do
      let (rebalance, s') := rbEraseNoRight node tmp s
      return (rebalance, s', ← augment.propagate (rbParent node s) none s' a)
  | some _, some child =>
      match (s.mem child).left with
      | none => do
          let a := augment.copy node child s a
          let (rebalance, s) ← rbEraseReplace node child child (s.mem child).right s
          return (rebalance, s, ← augment.propagate (some child) none s a)
      | some tmp => do
          let (parent, successor) ← rbLeftmost child tmp s
          let (child2, s) := rbEraseLeftmost child successor parent s
          let a := augment.copy node successor s a
          let a ← augment.propagate (some parent) (some successor) s a
          let (rebalance, s) ← rbEraseReplace node successor parent child2 s
          return (rebalance, s, ← augment.propagate (some successor) none s a)

/-- `rb_erase_augmented` -/
def rbErase (node : ι) (s : RbRoot ι) (a : δ) : Prog (RbRoot ι × δ) := do
  let (rebalance, s, a) ← augment.rbEraseAugmented node s a
  match rebalance with
  | some parent => augment.rbEraseColor parent s a
  | none => return (s, a)

/-! ### The tree -/

variable {augment} {node : ι} {s s' : RbRoot ι} {a : δ}

/-- One pass of the loop of `__rb_insert`, without the callbacks. -/
theorem insertStep_tree (p : RbInsertLoop ι × δ) :
    (augment.insertStep p).map (Iter.map Prod.fst Prod.fst) = rbInsertStep p.1 := by
  obtain ⟨⟨node, parent, s⟩, a⟩ := p
  have harm : ∀ d parent gparent, (augment.insertArm d node parent gparent s a).map Prod.fst Prod.fst =
      rbInsertArm d node parent gparent s := by
    intro d parent gparent
    unfold insertArm rbInsertArm
    cases (s.mem gparent).child d.other with
    | none => rfl
    | some tmp => cases rbIsRed (some tmp) s <;> rfl
  cases parent with
  | none => rfl
  | some parent =>
      unfold insertStep rbInsertStep
      by_cases hb : rbIsBlack parent s
      · simp only [if_pos hb]
        rfl
      · simp only [if_neg hb]
        cases rbRedParent parent s with
        | none => rfl
        | some gparent =>
            cases gparent with
            | none => rfl
            | some gparent =>
                by_cases hr : (s.mem gparent).right = some parent
                · simp [hr, ← harm]
                · simp [hr, ← harm]

/-- The augmented insertion builds the tree of `rb_insert_color`. -/
theorem rbInsert_tree : Prog.Returns (rbInsertColor node s) s' ↔
    ∃ a', Prog.Returns (augment.rbInsert node s a) (s', a') := by
  unfold rbInsertColor rbInsert
  simp only [Prog.returns_bind]
  constructor
  · rintro ⟨parent, hp, hs⟩
    obtain ⟨⟨s₁, a'⟩, hs', rfl⟩ := (Prog.returns_iterate_map (augment.insertStep_tree ·)
      (p := ((⟨node, parent, s⟩ : RbInsertLoop ι), a))).mp hs
    exact ⟨a', parent, hp, hs'⟩
  · rintro ⟨a', parent, hp, hs⟩
    exact ⟨parent, hp, (Prog.returns_iterate_map (augment.insertStep_tree ·)).mpr ⟨_, hs, rfl⟩⟩

/-- One pass of the loop of `____rb_erase_color`, without the callbacks. -/
theorem eraseStep_tree (p : RbEraseLoop ι × δ) :
    (augment.eraseStep p).map (Iter.map Prod.fst Prod.fst) = rbEraseStep p.1 := by
  obtain ⟨⟨node, parent, s⟩, a⟩ := p
  have hblack : ∀ d sibling (s : RbRoot ι) (a : δ),
      (augment.eraseBlackSibling d parent sibling s a).map Prod.fst Prod.fst =
        rbEraseBlackSibling d parent sibling s := by
    intro d sibling s a
    have hflip : ((rbEraseFlip parent sibling s).map (·, a) (·, a)).map Prod.fst Prod.fst =
        rbEraseFlip parent sibling s := by
      cases rbEraseFlip parent sibling s <;> rfl
    have hinner : ∀ o : Option ι, (match o, rbIsRed o s with
        | some tmp2, true =>
            let (tmp1, top, s) := rbEraseInner d parent sibling tmp2 s
            Iter.done (augment.eraseOuter d parent top tmp1 s (augment.rotate sibling tmp2 s a))
        | _, _ => (rbEraseFlip parent sibling s).map (·, a) (·, a)).map Prod.fst Prod.fst =
        match o, rbIsRed o s with
        | some tmp2, true =>
            let (tmp1, sibling, s) := rbEraseInner d parent sibling tmp2 s
            Iter.done (rbEraseOuter d parent sibling tmp1 s)
        | _, _ => rbEraseFlip parent sibling s := by
      intro o
      cases o with
      | none => exact hflip
      | some tmp2 =>
          cases rbIsRed (some tmp2) s
          · exact hflip
          · rfl
    unfold eraseBlackSibling rbEraseBlackSibling
    cases (s.mem sibling).child d.other with
    | none => exact hinner _
    | some tmp1 =>
        cases rbIsRed (some tmp1) s
        · exact hinner _
        · rfl
  have harm : ∀ d, (augment.eraseArm d parent s a).map (Iter.map Prod.fst Prod.fst) = rbEraseArm d parent s := by
    intro d
    unfold eraseArm rbEraseArm
    cases (s.mem parent).child d.other with
    | none => rfl
    | some sibling =>
        by_cases hr : rbColor sibling s = .red
        · simp only [Option.bind_eq_bind, Option.bind_some, hr, if_true]
          cases rbEraseRedSibling d parent sibling s with
          | none => rfl
          | some r => exact congrArg some (hblack ..)
        · simp only [Option.bind_eq_bind, Option.bind_some, hr, if_false]
          exact congrArg some (hblack ..)
  unfold eraseStep rbEraseStep
  by_cases hr : node = (s.mem parent).right
  · simp only [ne_eq, hr, not_true_eq_false, if_false]
    exact harm .right
  · simp only [ne_eq, hr, not_false_eq_true, if_true]
    exact harm .left

theorem rbEraseColor_tree {parent : ι} : Prog.Returns (Rb.rbEraseColor parent s) s' ↔
    ∃ a', Prog.Returns (augment.rbEraseColor parent s a) (s', a') := by
  refine (Prog.returns_iterate_map (augment.eraseStep_tree ·)
    (p := ((⟨none, parent, s⟩ : RbEraseLoop ι), a))).trans ?_
  constructor
  · rintro ⟨⟨s₁, a'⟩, hs, rfl⟩
    exact ⟨a', hs⟩
  · rintro ⟨a', hs⟩
    exact ⟨_, hs, rfl⟩

/-- `__rb_erase_augmented` without the callbacks, whatever they return. -/
theorem rbEraseAugmented_tree {r : Option ι × RbRoot ι × δ}
    (h : Prog.Returns (augment.rbEraseAugmented node s a) r) :
    Prog.Returns (Rb.rbEraseAugmented node s) (r.1, r.2.1) := by
  revert h
  unfold rbEraseAugmented Rb.rbEraseAugmented
  cases (s.mem node).left with
  | none =>
      intro h
      obtain ⟨a', -, h⟩ := Prog.returns_bind.mp h
      rw [← Prog.returns_pure.mp h]
      exact Prog.returns_pure.mpr rfl
  | some tmp =>
      cases (s.mem node).right with
      | none =>
          intro h
          obtain ⟨a', -, h⟩ := Prog.returns_bind.mp h
          rw [← Prog.returns_pure.mp h]
          exact Prog.returns_pure.mpr rfl
      | some child =>
          dsimp only
          cases (s.mem child).left with
          | none =>
              intro h
              obtain ⟨⟨rebalance, s₁⟩, hs, h⟩ := Prog.returns_bind.mp h
              obtain ⟨a', -, h⟩ := Prog.returns_bind.mp h
              rw [← Prog.returns_pure.mp h]
              exact hs
          | some tmp =>
              intro h
              obtain ⟨q, hq, h⟩ := Prog.returns_bind.mp h
              obtain ⟨a₁, -, h⟩ := Prog.returns_bind.mp h
              obtain ⟨⟨rebalance, s₁⟩, hs, h⟩ := Prog.returns_bind.mp h
              obtain ⟨a', -, h⟩ := Prog.returns_bind.mp h
              rw [← Prog.returns_pure.mp h]
              exact Prog.returns_bind.mpr ⟨q, hq, hs⟩

/-- With callbacks that return, `__rb_erase_augmented` returns whenever it does so with the dummies. -/
theorem rbEraseAugmented_returns (hprop : ∀ x stop s a, ∃ a', Prog.Returns (augment.propagate x stop s a) a')
    {r : Option ι × RbRoot ι} (h : Prog.Returns (Rb.rbEraseAugmented node s) r) :
    ∃ a', Prog.Returns (augment.rbEraseAugmented node s a) (r.1, r.2, a') := by
  revert h
  unfold rbEraseAugmented Rb.rbEraseAugmented
  cases (s.mem node).left with
  | none =>
      intro h
      obtain ⟨a', ha'⟩ := hprop (rbParent node s) none (rbEraseNoLeft node s).2 a
      rw [← Prog.returns_pure.mp h]
      exact ⟨a', Prog.returns_bind.mpr ⟨a', ha', Prog.returns_pure.mpr rfl⟩⟩
  | some tmp =>
      cases (s.mem node).right with
      | none =>
          intro h
          obtain ⟨a', ha'⟩ := hprop (rbParent node s) none (rbEraseNoRight node tmp s).2 a
          rw [← Prog.returns_pure.mp h]
          exact ⟨a', Prog.returns_bind.mpr ⟨a', ha', Prog.returns_pure.mpr rfl⟩⟩
      | some child =>
          dsimp only
          cases (s.mem child).left with
          | none =>
              intro h
              obtain ⟨a', ha'⟩ := hprop (some child) none r.2 (augment.copy node child s a)
              exact ⟨a', Prog.returns_bind.mpr ⟨_, h, Prog.returns_bind.mpr ⟨a', ha', Prog.returns_pure.mpr rfl⟩⟩⟩
          | some tmp =>
              intro h
              obtain ⟨q, hq, h⟩ := Prog.returns_bind.mp h
              obtain ⟨a₁, ha₁⟩ := hprop (some q.1) (some q.2) (rbEraseLeftmost child q.2 q.1 s).2
                (augment.copy node q.2 (rbEraseLeftmost child q.2 q.1 s).2 a)
              obtain ⟨a', ha'⟩ := hprop (some q.2) none r.2 a₁
              exact ⟨a', Prog.returns_bind.mpr ⟨q, hq, Prog.returns_bind.mpr ⟨a₁, ha₁,
                Prog.returns_bind.mpr ⟨_, h, Prog.returns_bind.mpr ⟨a', ha', Prog.returns_pure.mpr rfl⟩⟩⟩⟩⟩

/-- The augmented removal leaves the tree of `rb_erase`. -/
theorem rbErase_tree {a' : δ} (h : Prog.Returns (augment.rbErase node s a) (s', a')) :
    Prog.Returns (Rb.rbErase node s) s' := by
  obtain ⟨⟨rebalance, s₁, a₁⟩, h₁, h⟩ := Prog.returns_bind.mp h
  refine Prog.returns_bind.mpr ⟨_, rbEraseAugmented_tree h₁, ?_⟩
  cases rebalance with
  | none =>
      cases Prog.returns_pure.mp h
      exact Prog.returns_pure.mpr rfl
  | some parent => exact rbEraseColor_tree.mpr ⟨a', h⟩

theorem rbErase_returns (hprop : ∀ x stop s a, ∃ a', Prog.Returns (augment.propagate x stop s a) a')
    (h : Prog.Returns (Rb.rbErase node s) s') : ∃ a', Prog.Returns (augment.rbErase node s a) (s', a') := by
  obtain ⟨⟨rebalance, s₁⟩, h₁, h⟩ := Prog.returns_bind.mp h
  obtain ⟨a₁, ha₁⟩ := rbEraseAugmented_returns (a := a) hprop h₁
  cases rebalance with
  | none =>
      cases Prog.returns_pure.mp h
      exact ⟨a₁, Prog.returns_bind.mpr ⟨_, ha₁, Prog.returns_pure.mpr rfl⟩⟩
  | some parent =>
      obtain ⟨a', ha'⟩ := (rbEraseColor_tree (a := a₁)).mp h
      exact ⟨a', Prog.returns_bind.mpr ⟨_, ha₁, ha'⟩⟩

end RbAugmentCallbacks

/-- **The callbacks do not change the tree.**  With any callbacks, `rb_insert_augmented` returns if and only
if `rb_insert_color` does, and with the same tree; where `rb_erase_augmented` returns, it leaves the tree of
`rb_erase`, and with the dummies it returns whenever `rb_erase` does. -/
theorem rbAugmented_tree (augment : RbAugmentCallbacks ι δ) (node : ι) (s s' : RbRoot ι) (a : δ) :
    (Prog.Returns (rbInsertColor node s) s' ↔ ∃ a', Prog.Returns (augment.rbInsert node s a) (s', a')) ∧
      (∀ a', Prog.Returns (augment.rbErase node s a) (s', a') → Prog.Returns (rbErase node s) s') ∧
      (Prog.Returns (rbErase node s) s' ↔ ∃ a', Prog.Returns (dummyCallbacks.rbErase node s a) (s', a')) := by
  refine ⟨RbAugmentCallbacks.rbInsert_tree, fun a' h => RbAugmentCallbacks.rbErase_tree h, fun h => ?_, ?_⟩
  · apply RbAugmentCallbacks.rbErase_returns _ h
    exact fun _ _ _ a => ⟨a, Prog.returns_pure.mpr rfl⟩
  · rintro ⟨a', h⟩
    exact RbAugmentCallbacks.rbErase_tree h

end Libls.Rb
