import Mathlib.Tactic
import Libls.AvlRuns
import Libls.Library.LinkedTreeWalk

/-! # Post-order destruction: `avl_postorder_for_each_entry_safe`

The body of the loop may free the node that it visits, as `check_postorder` in `examples/avltree.c` does
with every node.  Each read of a node names the memory freed so far, and reading freed memory fails; what
a freed node holds is not looked at, and a pointer to it may still be compared.

The cursor is no node but an entry, a structure with the node as one of its members, and the loop goes on
as long as the address of this member is not null.  `avl_postorder_safe_iff` says that this test ends the
loop behind the last node if the node is the first member, and never otherwise. -/

namespace Libls

/-- A `type *` as `container_of` makes it of a pointer to a member: `offset` bytes below the node, or
below the null pointer. -/
structure Entry (ι : Type) where
  node : Option ι
  offset : ℕ
deriving DecidableEq, Repr

/-- `container_of` -/
def containerOf (offset : ℕ) (node : Option ι) : Entry ι := ⟨node, offset⟩

/-- `&pos->field` as a value: the pointer that `container_of` was given. -/
def Entry.field (pos : Entry ι) : Option ι := pos.node

/-- `&pos->field` as a condition.  A member behind the first byte of a structure has no null address, and
the compiler takes the test as true whatever the value is. -/
def Entry.fieldTest (pos : Entry ι) : Bool := pos.offset ≠ 0 || pos.field.isSome

end Libls

namespace Libls.Avl

open LinkedTree

variable {ι : Type} [DecidableEq ι]

/-! ### The functions -/

/-- `*node` -/
def deref (freed : List ι) (node : ι) (root : AvlRoot ι) : Option (Cell ι AvlBalance) :=
  if node ∈ freed then none else some (root.mem node)

/-- One pass of the loop of `avl_left_deepest`. -/
def avlLeftDeepestStep (freed : List ι) (root : AvlRoot ι) (node : ι) : Option (Iter ι ι) := do
  let cell ← deref freed node root
  match cell.left with
  | some left => return .next left
  | none =>
      match cell.right with
      | some right => return .next right
      | none => return .done node

def avlLeftDeepest (freed : List ι) (node : ι) (root : AvlRoot ι) : Prog ι :=
  Prog.iterate (fun node => .ofOption (avlLeftDeepestStep freed root node)) node

def avlFirstPostorder (freed : List ι) (root : AvlRoot ι) : Prog (Option ι) :=
  match root.root with
  | none => return none
  | some node => do return some (← avlLeftDeepest freed node root)

def avlNextPostorder (freed : List ι) (node : Option ι) (root : AvlRoot ι) : Prog (Option ι) :=
  match node with
  | none => return none
  | some node => do
      let cell ← deref freed node root
      match cell.parent with
      | none => return none
      | some parent =>
          let cell ← deref freed parent root
          if cell.left = some node then
            match cell.right with
            | none => return some parent
            | some right => return some (← avlLeftDeepest freed right root)
          else return some parent

/-- `avl_entry`, for a `field` at `offset` in the entry. -/
def avlEntry (offset : ℕ) (node : Option ι) : Entry ι := containerOf offset node

/-- The variables of the loop, with the entries that its body has visited and the nodes in those freed. -/
structure PostorderLoop (ι : Type) where
  pos : Entry ι
  n : Entry ι
  visited : List (Entry ι)
  freed : List ι

/-- One pass: the body frees the entry `pos` if `free` says so of its node, then
`pos = n, n = avl_entry(avl_next_postorder(&pos->field))`.  Where `pos` is no entry, the body leaves it
alone. -/
def postorderStep (offset : ℕ) (free : ι → Bool) (root : AvlRoot ι) (p : PostorderLoop ι) :
    Prog (Iter (PostorderLoop ι) (List (Entry ι) × List ι)) :=
  if p.pos.fieldTest then do
    let freed := p.freed ++ p.pos.node.toList.filter free
    let n ← avlNextPostorder freed p.n.field root
    return .next ⟨p.n, avlEntry offset n, p.visited ++ [p.pos], freed⟩
  else return .done (p.visited, p.freed)

/-- `avl_postorder_for_each_entry_safe`, for a `field` at `offset`: what the body has visited, and the nodes
freed. -/
def avlPostorderForEachEntrySafe (offset : ℕ) (free : ι → Bool) (root : AvlRoot ι) :
    Prog (List (Entry ι) × List ι) := do
  let pos := avlEntry offset (← avlFirstPostorder [] root)
  let n := avlEntry offset (← avlNextPostorder [] pos.field root)
  Prog.iterate (postorderStep offset free root) ⟨pos, n, [], []⟩

/-! ### Where they go -/

variable {s : AvlRoot ι} {t : LTree ι AvlBalance} {freed A B : List ι} {x : ι}

theorem deref_live (h : x ∉ freed) : deref freed x s = some (s.mem x) := if_neg h

/-- `avl_left_deepest` goes to the first node of the subtree. -/
theorem avlLeftDeepest_returns {par : Option ι} (h : Linked s.mem par t) (hx : t.top = some x)
    (hfree : ∀ y ∈ t.toList, y ∉ freed) :
    ∃ y, Prog.Returns (avlLeftDeepest freed x s) y ∧ t.postorder.head? = some y := by
  induction t generalizing par x with
  | nil => cases hx
  | node l z b r ihl ihr =>
      obtain rfl : z = x := Option.some.inj hx
      obtain ⟨hcell, hl, hr⟩ := h
      have hz : deref freed z s = some ⟨par, b, l.top, r.top⟩ := by
        rw [deref_live (hfree z (by simp)), hcell]
      cases l with
      | node l₁ y c l₂ =>
          obtain ⟨w, hw, hhead⟩ := ihl hl rfl fun u hu => hfree u (List.mem_append_left _ hu)
          refine ⟨w, ?_, ?_⟩
          · refine Prog.Returns.iterate_next (Prog.returns_ofOption.mpr ?_) hw
            simp [avlLeftDeepestStep, hz]
          · rw [LTree.postorder, List.head?_append, hhead]
            rfl
      | nil =>
          cases r with
          | node r₁ y c r₂ =>
              obtain ⟨w, hw, hhead⟩ := ihr hr rfl fun u hu => hfree u (List.mem_cons_of_mem _ hu)
              refine ⟨w, ?_, ?_⟩
              · refine Prog.Returns.iterate_next (Prog.returns_ofOption.mpr ?_) hw
                simp [avlLeftDeepestStep, hz]
              · rw [LTree.postorder, LTree.postorder, List.nil_append, List.head?_append, hhead]
                rfl
          | nil =>
              refine ⟨z, ?_, rfl⟩
              apply Prog.Returns.iterate_done
              simp [avlLeftDeepestStep, hz]

omit [DecidableEq ι] in
/-- The top of a tree, if it has one. -/
theorem top_cases (t : LTree ι AvlBalance) : (t.top = none ∧ t.postorder = []) ∨ ∃ x, t.top = some x := by
  cases t with
  | nil => exact .inl ⟨rfl, rfl⟩
  | node l x b r => exact .inr ⟨x, rfl⟩

theorem avlFirstPostorder_returns (h : Focus s [] t) (hfree : ∀ y ∈ t.toList, y ∉ freed) :
    Prog.Returns (avlFirstPostorder freed s) t.postorder.head? := by
  have hroot : s.root = t.top := h.ctx_linked
  unfold avlFirstPostorder
  rw [hroot]
  obtain ⟨htop, hpost⟩ | ⟨x, hx⟩ := top_cases t
  · rw [htop, hpost]
    exact Prog.returns_pure.mpr rfl
  · obtain ⟨y, hy, hhead⟩ := avlLeftDeepest_returns h.linked hx hfree
    rw [hx, hhead]
    exact Prog.returns_bind.mpr ⟨y, hy, Prog.returns_pure.mpr rfl⟩

/-- `avl_next_postorder` goes to the next node, and reads the node, those after it, and no other. -/
theorem avlNextPostorder_focus {ctx : List (Frame ι AvlBalance)} (h : Focus s ctx t) (hx : t.top = some x)
    (hfreex : x ∉ freed) (hfree : ∀ y ∈ later ctx, y ∉ freed) :
    Prog.Returns (avlNextPostorder freed (some x) s) (later ctx).head? := by
  have hpar : (s.mem x).parent = above ctx := h.parent_top hx
  unfold avlNextPostorder
  simp only [deref_live hfreex, Prog.lift_bind, hpar]
  cases ctx with
  | nil => exact Prog.returns_pure.mpr rfl
  | cons f ctx =>
      obtain ⟨d, p, b, sib⟩ := f
      have hcell : s.mem p = .make d (above ctx) b (some x) sib.top := by rw [h.mem_above, hx]
      have hp : p ∉ freed := hfree p (by cases d <;> simp [later])
      simp only [above_cons, deref_live hp, Prog.lift_bind, hcell]
      cases d with
      | right =>
          -- the other child comes first in the order, and may be freed by now
          have hne : sib.top ≠ some x := fun e => h.apart x (LTree.top_mem hx) (by simp [LTree.top_mem e])
          show Prog.Returns (if sib.top = some x then _ else _) (some p)
          rw [if_neg hne]
          exact Prog.returns_pure.mpr rfl
      | left =>
          show Prog.Returns (if some x = some x then _ else _) (sib.postorder ++ p :: later ctx).head?
          rw [if_pos rfl]
          obtain ⟨htop, hpost⟩ | ⟨y, hy⟩ := top_cases sib
          · rw [hpost]
            simp only [Cell.make, htop]
            exact Prog.returns_pure.mpr rfl
          · have hsib : Linked s.mem (some p) sib := h.ctx_linked.2.1
            obtain ⟨z, hz, hhead⟩ := avlLeftDeepest_returns hsib hy fun w hw =>
              hfree w (List.mem_append_left _ (mem_postorder.mpr hw))
            rw [List.head?_append, hhead]
            simp only [Cell.make, hy]
            exact Prog.returns_bind.mpr ⟨z, hz, Prog.returns_pure.mpr rfl⟩

theorem avlNextPostorder_split (h : Focus s [] t) (hL : t.postorder = A ++ x :: B) (hfree : ∀ y ∈ freed, y ∈ A) :
    Prog.Returns (avlNextPostorder freed (some x) s) B.head? := by
  have hmem : x ∈ t.toList := by
    rw [← mem_postorder, hL]
    simp
  obtain ⟨ctx, l, b, r, rfl, hf⟩ := h.exists_of_mem hmem
  have hnd : (A ++ x :: B).Nodup := hL ▸ (postorder_perm _).nodup_iff.mpr h.nodup
  rw [List.nodup_append', List.nodup_cons] at hnd
  obtain ⟨-, ⟨hxB, -⟩, hAB⟩ := hnd
  have hxA : x ∉ A := fun hx => hAB hx (by simp)
  rw [postorder_fill_node] at hL
  obtain ⟨-, -, hB⟩ := (List.append_cons_inj_of_notMem hxA hxB).mp hL.symm
  rw [hB] at hAB ⊢
  exact avlNextPostorder_focus hf rfl (fun hx => hxA (hfree x hx)) fun y hy hyf => hAB (hfree y hyf) (by simp [hy])

/-! ### The loop -/

variable {offset : ℕ} {free : ι → Bool}

/-- The loop when its body has visited the nodes `A`, and `B` are left: `n` is one node ahead of `pos`, and
everything freed has been visited. -/
def postorderAt (offset : ℕ) (free : ι → Bool) (A B : List ι) : PostorderLoop ι :=
  ⟨avlEntry offset B.head?, avlEntry offset B.tail.head?, A.map fun x => avlEntry offset (some x), A.filter free⟩

theorem postorderStep_next (h : Focus s [] t) (hL : t.postorder = A ++ x :: B) :
    Prog.Returns (postorderStep offset free s (postorderAt offset free A (x :: B)))
      (.next (postorderAt offset free (A ++ [x]) B)) := by
  have htest : (postorderAt offset free A (x :: B)).pos.fieldTest = true := Bool.or_true _
  have hfreed : A.filter free ++ (some x).toList.filter free = (A ++ [x]).filter free :=
    (List.filter_append ..).symm
  have hnext : Prog.Returns (avlNextPostorder ((A ++ [x]).filter free) B.head? s) B.tail.head? := by
    cases B with
    | nil => exact Prog.returns_pure.mpr rfl
    | cons y B =>
        apply avlNextPostorder_split h (A := A ++ [x]) (by rw [hL]; simp)
        exact fun z hz => (List.mem_filter.mp hz).1
  unfold postorderStep
  rw [if_pos htest]
  refine Prog.returns_bind.mpr ⟨B.tail.head?, ?_, Prog.returns_pure.mpr ?_⟩
  · show Prog.Returns (avlNextPostorder (A.filter free ++ (some x).toList.filter free) B.head? s) _
    rw [hfreed]
    exact hnext
  · rw [postorderAt, postorderAt, List.map_append]
    exact congrArg (fun l => Iter.next (PostorderLoop.mk _ _ _ l)) hfreed

/-- Wherever the node lies in the entry, the loop visits all nodes, and reads no freed one on the way. -/
theorem postorderLoop_reached (h : Focus s [] t) : ∀ B A : List ι, t.postorder = A ++ B →
    Prog.Reached (postorderStep offset free s) (postorderAt offset free A B)
      (postorderAt offset free t.postorder []) := by
  intro B
  induction B with
  | nil =>
      intro A hL
      rw [List.append_nil] at hL
      rw [hL]
      exact .start
  | cons x B ih =>
      intro A hL
      exact (ih (A ++ [x]) (by rw [hL]; simp)).head (postorderStep_next h hL)

/-- Behind the last node `pos` is what `avl_entry` makes of a null pointer.  The test on it ends the loop if
the node is the first member of the entry; otherwise the body runs on no entry, and so for ever. -/
theorem postorderEnd_returns {r : List (Entry ι) × List ι} (A : List ι) :
    Prog.Returns (Prog.iterate (postorderStep offset free s) (postorderAt offset free A [])) r ↔
      offset = 0 ∧ r = (A.map fun x => avlEntry offset (some x), A.filter free) := by
  by_cases hoff : offset = 0
  · subst hoff
    have hdone : Prog.Returns (postorderStep 0 free s (postorderAt 0 free A []))
        (.done (A.map fun x => avlEntry 0 (some x), A.filter free)) := Prog.returns_pure.mpr rfl
    rw [Prog.returns_iterate_done hdone]
    exact ⟨fun e => ⟨rfl, e.symm⟩, fun e => e.2.symm⟩
  · refine iff_of_false ?_ fun e => hoff e.1
    apply Prog.not_returns_iterate fun p => p.pos = avlEntry offset none ∧ p.n = avlEntry offset none
    · rintro ⟨pos, n, visited, freed⟩ ⟨rfl, rfl⟩
      have htest : (avlEntry (ι := ι) offset none).fieldTest = true := by
        simp [Entry.fieldTest, avlEntry, containerOf, hoff]
      refine ⟨⟨avlEntry offset none, avlEntry offset none, visited ++ [avlEntry offset none],
        freed ++ (none : Option ι).toList.filter free⟩, ?_, rfl, rfl⟩
      unfold postorderStep
      rw [if_pos htest]
      exact Prog.returns_bind.mpr ⟨none, Prog.returns_pure.mpr rfl, Prog.returns_pure.mpr rfl⟩
    · exact ⟨rfl, rfl⟩

theorem avlPostorder_returns (h : Focus s [] t) {r : List (Entry ι) × List ι} :
    Prog.Returns (avlPostorderForEachEntrySafe offset free s) r ↔
      offset = 0 ∧ r = (t.postorder.map fun x => avlEntry offset (some x), t.postorder.filter free) := by
  have hfirst : Prog.Returns (avlFirstPostorder [] s) t.postorder.head? := avlFirstPostorder_returns h (by simp)
  have hnext : Prog.Returns (avlNextPostorder [] t.postorder.head? s) t.postorder.tail.head? := by
    cases hL : t.postorder with
    | nil => exact Prog.returns_pure.mpr rfl
    | cons x B => exact avlNextPostorder_split h (A := []) hL (by simp)
  rw [← postorderEnd_returns (s := s), ← (postorderLoop_reached h t.postorder [] rfl).returns_iff]
  unfold avlPostorderForEachEntrySafe
  rw [Prog.returns_bind]
  constructor
  · rintro ⟨first, hf, hr⟩
    cases hf.unique hfirst
    obtain ⟨next, hn, hr⟩ := Prog.returns_bind.mp hr
    cases hn.unique hnext
    exact hr
  · exact fun hr => ⟨_, hfirst, Prog.returns_bind.mpr ⟨_, hnext, hr⟩⟩

/-- The loop with the node at `offset` in the entry ends, has run its body once on every entry of the tree and
on nothing else, on each after the entries of its two subtrees, and has read no node in an entry freed
before. -/
def PostorderSafe (offset : ℕ) (free : ι → Bool) (s : AvlRoot ι) (t : LTree ι AvlBalance) : Prop :=
  ∃ visited, Prog.Returns (avlPostorderForEachEntrySafe offset free s)
      (visited.map fun x => avlEntry offset (some x), visited.filter free) ∧
    visited.Nodup ∧ (∀ x, x ∈ visited ↔ x ∈ t.toList) ∧
    ∀ ctx l x b r, t = fill ctx (.node l x b r) → ∃ A B, visited = A ++ x :: B ∧
      ∀ y, y ∈ l.toList ∨ y ∈ r.toList → y ∈ A

/-- **Post-order destruction.**  Whichever entries the body frees, the loop is right if and only if the node is
the first member of the entry. -/
theorem avl_postorder_safe_iff (h : WellFormed s t) (offset : ℕ) (free : ι → Bool) :
    PostorderSafe offset free s t ↔ offset = 0 := by
  constructor
  · rintro ⟨visited, hret, -⟩
    exact ((avlPostorder_returns h.1).mp hret).1
  · intro hoff
    refine ⟨t.postorder, (avlPostorder_returns h.1).mpr ⟨hoff, rfl⟩, (postorder_perm t).nodup_iff.mpr h.1.nodup,
      fun x => mem_postorder, ?_⟩
    rintro ctx l x b r rfl
    refine ⟨earlier ctx ++ (l.postorder ++ r.postorder), later ctx, postorder_fill_node .., fun y hy => ?_⟩
    rw [List.mem_append, List.mem_append, mem_postorder, mem_postorder]
    exact .inr hy

/-- In a tree of two nodes that are the first members of their entries, both of them freed. -/
theorem avl_postorder_safe_iff_two : PostorderSafe 0 (fun _ => true)
    (⟨fun x => if x = 1 then ⟨none, .rightHigher, none, some 2⟩ else ⟨some 1, .equalHeight, none, none⟩,
      some 1⟩ : AvlRoot ℕ) (.node .nil 1 .rightHigher (.node .nil 2 .equalHeight .nil)) :=
  (avl_postorder_safe_iff wellFormed_two 0 fun _ => true).mpr rfl

/-- The same tree with eight bytes before the node in each entry. -/
theorem avl_postorder_endless : ∃ (s : AvlRoot ℕ) (t : LTree ℕ AvlBalance), WellFormed s t ∧ t.toList = [1, 2] ∧
    ¬ PostorderSafe 8 (fun _ => true) s t ∧
    ∀ r, ¬ Prog.Returns (avlPostorderForEachEntrySafe 8 (fun _ => true) s) r := by
  refine ⟨_, _, wellFormed_two, rfl, ?_, fun r hr => ?_⟩
  · rintro ⟨visited, hret, -⟩
    exact absurd ((avlPostorder_returns wellFormed_two.1).mp hret).1 (by decide)
  · exact absurd ((avlPostorder_returns wellFormed_two.1).mp hr).1 (by decide)

end Libls.Avl
