import Mathlib.Tactic
import Libls.AvlRuns
import Libls.Library.LinkedTreeWalk

/-! # Iterating over an AVL tree: `avl_next`, `avl_prev`, `avl_first` and `avl_last`

The loops are those of `check_inorder` and `check_revorder` in `examples/avltree.c`, and the one in
`benchmark/prio_queue/avltree.c` that erases each node after it has fetched the next one.  Here the
loop may also leave nodes in the tree, and freed memory may hold anything. -/

namespace Libls.Avl

open LinkedTree

variable {ι : Type} [DecidableEq ι]

/-! ### The functions -/

/-- `AVL_EMTPY_NODE` -/
def avlEmptyNode (node : ι) (s : AvlRoot ι) : Bool :=
  avlParent node s = some node ∧ avlBalance node s = .equalHeight

/-- `avl_next` and `avl_prev`: the neighbour on side `d`, which is `avlLeftMost` of the right child or
`avlRightMost` of the left one.  A node that has been cleared fails an assertion. -/
def avlNeighbour (d : Dir) (node : ι) (s : AvlRoot ι) : Prog (Option ι) :=
  if avlEmptyNode node s then Prog.abort else neighbour d node s

def avlNext : ι → AvlRoot ι → Prog (Option ι) := avlNeighbour .right
def avlPrev : ι → AvlRoot ι → Prog (Option ι) := avlNeighbour .left

omit [DecidableEq ι] in
/-- `avl_first` and `avl_last`: the end of the tree on side `d`, `avlLeftMost` or `avlRightMost` of
the root. -/
def avlEnd (d : Dir) (root : AvlRoot ι) : Prog (Option ι) :=
  match root.root with
  | none => return none
  | some node => do return some (← extreme d node root)

omit [DecidableEq ι] in
def avlFirst : AvlRoot ι → Prog (Option ι) := avlEnd .left

omit [DecidableEq ι] in
def avlLast : AvlRoot ι → Prog (Option ι) := avlEnd .right

/-- One pass of the loops of `check_inorder` and `check_revorder`, with the nodes that they have
visited. -/
def checkOrderStep (d : Dir) (root : AvlRoot ι) (p : Option ι × List ι) :
    Prog (Iter (Option ι × List ι) (List ι)) :=
  match p.1 with
  | none => return .done p.2
  | some node => do return .next (← avlNeighbour d node root, p.2 ++ [node])

def checkOrder (d : Dir) (root : AvlRoot ι) : Prog (List ι) := do
  let node ← avlEnd d.other root
  Prog.iterate (checkOrderStep d root) (node, [])

def checkInorder : AvlRoot ι → Prog (List ι) := checkOrder .right
def checkRevorder : AvlRoot ι → Prog (List ι) := checkOrder .left

/-- One pass of the loop that erases while it iterates: the nodes `del` are erased and freed, and their
memory holds `junk` then. -/
def eraseLoopStep (del : ι → Bool) (junk : ι → Cell ι AvlBalance) (p : Option ι × AvlRoot ι × List ι) :
    Prog (Iter (Option ι × AvlRoot ι × List ι) (AvlRoot ι × List ι)) :=
  match p with
  | (none, root, visited) => return .done (root, visited)
  | (some node, root, visited) => do
      let next ← avlNext node root
      if del node then
        let root ← avlErase node root
        return .next (next, root.write node (junk node), visited ++ [node])
      else return .next (next, root, visited ++ [node])

def eraseLoop (del : ι → Bool) (junk : ι → Cell ι AvlBalance) (root : AvlRoot ι) : Prog (AvlRoot ι × List ι) := do
  let node ← avlFirst root
  Prog.iterate (eraseLoopStep del junk) (node, root, [])

/-! ### Where they go -/

variable {s : AvlRoot ι} {t : LTree ι AvlBalance} {A B : List ι} {x y : ι} {d : Dir}

theorem avlNeighbour_split (h : WellFormed s t) (hL : t.toward d = A ++ x :: B) :
    Prog.Returns (avlNeighbour d x s) B.head? := by
  have hmem : x ∈ t.toList := by
    rw [← mem_toward (d := d), hL]
    simp
  have hempty : avlEmptyNode x s = false := by
    obtain ⟨ctx, l, b, r, -, hf⟩ := h.1.exists_of_mem hmem
    have hx : s.mem x = ⟨above ctx, b, l.top, r.top⟩ := hf.linked.1
    have hne : above ctx ≠ some x := fun e => hf.apart x (by simp) (above_mem e)
    simp [avlEmptyNode, avlParent, hx, hne]
  unfold avlNeighbour
  rw [hempty]
  exact h.1.neighbour_split hL

omit [DecidableEq ι] in
theorem avlEnd_returns (h : WellFormed s t) (d : Dir) : Prog.Returns (avlEnd d.other s) (t.toward d).head? := by
  have hroot : s.root = t.top := h.1.ctx_linked
  unfold avlEnd
  rw [hroot]
  cases t with
  | nil =>
      rw [toward_nil]
      exact Prog.returns_pure.mpr rfl
  | node l x b r =>
      obtain ⟨u, v, e⟩ : ∃ u v, LTree.node l x b r = .make d u x b v := by
        cases d
        · exact ⟨l, r, rfl⟩
        · exact ⟨r, l, rfl⟩
      have hlinked : Linked s.mem none (.node l x b r) := h.1.linked
      rw [e] at hlinked ⊢
      obtain ⟨y, hy, hhead⟩ := hlinked.toward_head
      rw [hhead, LTree.top_make]
      exact Prog.returns_bind.mpr ⟨y, hy, Prog.returns_pure.mpr rfl⟩

theorem checkOrder_returns (h : WellFormed s t) (d : Dir) : Prog.Returns (checkOrder d s) (t.toward d) := by
  refine Prog.returns_bind.mpr ⟨_, avlEnd_returns h d, ?_⟩
  refine Prog.Returns.iterate_walk (Prog.returns_pure.mpr rfl) fun A x B hL => ?_
  exact Prog.returns_bind.mpr ⟨_, avlNeighbour_split h hL, Prog.returns_pure.mpr rfl⟩

/-- `avl_next` and `avl_prev` undo each other. -/
theorem avlNeighbour_back (h : WellFormed s t) (hx : x ∈ t.toList)
    (hy : Prog.Returns (avlNeighbour d x s) (some y)) : Prog.Returns (avlNeighbour d.other y s) (some x) := by
  obtain ⟨A, B, hL⟩ := List.append_of_mem (mem_toward (d := d).mpr hx)
  have hB : B.head? = some y := (avlNeighbour_split h hL).unique hy
  obtain ⟨B, rfl⟩ : ∃ B', B = y :: B' := by
    cases B with
    | nil => cases hB
    | cons z B => exact ⟨B, by rw [Option.some.inj hB]⟩
  have hback : t.toward d.other = B.reverse ++ y :: (x :: A.reverse) := by
    rw [toward_other, hL]
    simp
  exact avlNeighbour_split h hback

/-! ### Erasing on the way -/

theorem avlErase_split (h : WellFormed s t) (hL : t.toList = A ++ x :: B) :
    ∃ s' t', Prog.Returns (avlErase x s) s' ∧ WellFormed s' t' ∧ t'.toList = A ++ B := by
  obtain ⟨s', hs', t', hf', hok', hS⟩ := avlErase_spec h.1 h.2 (by rw [hL]; simp : x ∈ t.toList)
  have hnd := h.1.nodup
  rw [hL, List.nodup_middle, List.nodup_cons, List.mem_append, not_or] at hnd
  refine ⟨s', t', hs', ⟨hf', hok'⟩, ?_⟩
  rw [hS, hL, List.erase_append_right _ hnd.1.1, List.erase_cons_head]

/-- Memory outside the tree may change. -/
theorem WellFormed.write (h : WellFormed s t) (hx : x ∉ t.toList) (c : Cell ι AvlBalance) :
    WellFormed (s.write x c) t := by
  refine ⟨h.1.congr rfl ?_, h.2⟩
  rintro y (hy | hy)
  · have hne : y ≠ x := fun e => hx (e ▸ hy)
    simp [hne]
  · simp at hy

theorem eraseLoop_returns (h : WellFormed s t) (del : ι → Bool) (junk : ι → Cell ι AvlBalance) :
    ∃ s' t', Prog.Returns (eraseLoop del junk s) (s', t.toList) ∧ WellFormed s' t' ∧
      t'.toList = t.toList.filter fun x => !del x := by
  -- the nodes in the tree are those left behind and those to come
  have hrest : ∀ (B A : List ι) (s : AvlRoot ι) (t : LTree ι AvlBalance), WellFormed s t →
      t.toList = (A.filter fun x => !del x) ++ B → ∃ s' t',
        Prog.Returns (Prog.iterate (eraseLoopStep del junk) (B.head?, s, A)) (s', A ++ B) ∧ WellFormed s' t' ∧
        t'.toList = (A ++ B).filter fun x => !del x := by
    intro B
    induction B with
    | nil =>
        intro A s t h hL
        rw [List.append_nil] at hL ⊢
        exact ⟨s, t, Prog.Returns.iterate_done (Prog.returns_pure.mpr rfl), h, hL⟩
    | cons x B ih =>
        intro A s t h hL
        have hnext : Prog.Returns (avlNext x s) B.head? := avlNeighbour_split (d := .right) h hL
        have hA : A ++ x :: B = A ++ [x] ++ B := by simp
        by_cases hdel : del x = true
        · obtain ⟨s₁, t₁, hs₁, h₁, hL₁⟩ := avlErase_split h hL
          have hx : x ∉ t₁.toList := by
            have hnd := h.1.nodup
            rw [hL, List.nodup_middle, List.nodup_cons] at hnd
            rw [hL₁]
            exact hnd.1
          obtain ⟨s', t', hs', hw', hL'⟩ := ih (A ++ [x]) (s₁.write x (junk x)) t₁ (h₁.write hx _) (by
            simp [hL₁, hdel])
          refine ⟨s', t', ?_, hw', by rw [hA]; exact hL'⟩
          rw [hA]
          refine Prog.Returns.iterate_next ?_ hs'
          refine Prog.returns_bind.mpr ⟨_, hnext, ?_⟩
          rw [if_pos hdel]
          exact Prog.returns_bind.mpr ⟨s₁, hs₁, Prog.returns_pure.mpr rfl⟩
        · obtain ⟨s', t', hs', hw', hL'⟩ := ih (A ++ [x]) s t h (by simp [hL, hdel])
          refine ⟨s', t', ?_, hw', by rw [hA]; exact hL'⟩
          rw [hA]
          refine Prog.Returns.iterate_next ?_ hs'
          refine Prog.returns_bind.mpr ⟨_, hnext, ?_⟩
          rw [if_neg hdel]
          exact Prog.returns_pure.mpr rfl
  obtain ⟨s', t', hs', hw', hL'⟩ := hrest t.toList [] s t h rfl
  exact ⟨s', t', Prog.returns_bind.mpr ⟨_, avlEnd_returns h .right, hs'⟩, hw', hL'⟩

/-- **Iteration.**  Both loops visit the nodes in their order and in the reverse one, the neighbours
are those in the sequence and lead back, and a loop that fetches the next node before it erases one
visits every node and leaves the others. -/
theorem avl_iteration (h : WellFormed s t) :
    Prog.Returns (checkInorder s) t.toList ∧ Prog.Returns (checkRevorder s) t.toList.reverse ∧
    Prog.Returns (avlFirst s) t.toList.head? ∧ Prog.Returns (avlLast s) t.toList.getLast? ∧
    (∀ A x B, t.toList = A ++ x :: B → Prog.Returns (avlNext x s) B.head? ∧
      Prog.Returns (avlPrev x s) A.getLast? ∧
      ∃ s' t', Prog.Returns (avlErase x s) s' ∧ WellFormed s' t' ∧ t'.toList = A ++ B) ∧
    (∀ x ∈ t.toList, ∀ y, (Prog.Returns (avlPrev x s) (some y) → Prog.Returns (avlNext y s) (some x)) ∧
      (Prog.Returns (avlNext x s) (some y) → Prog.Returns (avlPrev y s) (some x))) ∧
    ∀ del junk, ∃ s' t', Prog.Returns (eraseLoop del junk s) (s', t.toList) ∧ WellFormed s' t' ∧
      t'.toList = t.toList.filter fun x => !del x := by
  refine ⟨checkOrder_returns h .right, checkOrder_returns h .left, avlEnd_returns h .right, ?_,
    fun A x B hL => ⟨avlNeighbour_split (d := .right) h hL, ?_, avlErase_split h hL⟩,
    fun x hx y => ⟨fun hy => avlNeighbour_back (d := .left) h hx hy,
      fun hy => avlNeighbour_back (d := .right) h hx hy⟩, eraseLoop_returns h⟩
  · rw [← List.head?_reverse]
    exact avlEnd_returns h .left
  · have hback : t.toward .left = B.reverse ++ x :: A.reverse := by
      show t.toList.reverse = _
      rw [hL]
      simp
    rw [← List.head?_reverse]
    exact avlNeighbour_split (d := .left) h hback

/-- In a tree of two nodes. -/
theorem avl_iteration_two : Prog.Returns (checkRevorder
    (⟨fun x => if x = 1 then ⟨none, .rightHigher, none, some 2⟩ else ⟨some 1, .equalHeight, none, none⟩,
      some 1⟩ : AvlRoot ℕ)) [2, 1] := by
  exact (avl_iteration wellFormed_two).2.1

end Libls.Avl
