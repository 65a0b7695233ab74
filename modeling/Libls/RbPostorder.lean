import Mathlib.Tactic
import Libls.RbMap
import Libls.AvlPostorder

/-! # Post-order destruction: `rbtree_postorder_for_each_entry_safe`

The functions are those of `src/avltree.c` on other nodes: they look at the pointers of a node, not at its
colour or its balance.  `retag` forgets the colours, and each function below is its counterpart on the store
without them.  Here too the loop ends only if the node is the first member of the entry. -/

namespace Libls.Rb

open LinkedTree

variable {ι τ τ' : Type} [DecidableEq ι]

/-! ### The functions -/

/-- `*node`, where the memory of the nodes `freed` may not be read. -/
def deref (freed : List ι) (node : ι) (root : RbRoot ι) : Option (Cell ι RbColor) :=
  if node ∈ freed then none else some (root.mem node)

/-- One pass of the loop of `rb_left_deepest_node`. -/
def rbLeftDeepestStep (freed : List ι) (root : RbRoot ι) (node : ι) : Option (Iter ι ι) := do
  let cell ← deref freed node root
  match cell.left with
  | some left => return .next left
  | none =>
      match cell.right with
      | some right => return .next right
      | none => return .done node

def rbLeftDeepestNode (freed : List ι) (node : ι) (root : RbRoot ι) : Prog ι :=
  Prog.iterate (fun node => .ofOption (rbLeftDeepestStep freed root node)) node

def rbNextPostorder (freed : List ι) (node : Option ι) (root : RbRoot ι) : Prog (Option ι) :=
  match node with
  | none => return none
  | some node => do
      let cell ← deref freed node root
      match cell.parent with
      | none => return none
      | some parent =>
          let cell ← deref freed parent root
          if cell.left = some node then
            match cell.right with
            | none => return some parent
            | some right => return some (← rbLeftDeepestNode freed right root)
          else return some parent

def rbFirstPostorder (freed : List ι) (root : RbRoot ι) : Prog (Option ι) :=
  match root.root with
  | none => return none
  | some node => do return some (← rbLeftDeepestNode freed node root)

/-- `rb_entry`, for a `field` at `offset` in the entry. -/
def rbEntry (offset : ℕ) (node : Option ι) : Entry ι := containerOf offset node

/-- One pass of the loop: the body frees the entry `pos` if `free` says so of its node, then
`pos = n, n = rb_entry(rb_next_postorder(&pos->field))`. -/
def rbPostorderStep (offset : ℕ) (free : ι → Bool) (root : RbRoot ι) (p : Avl.PostorderLoop ι) :
    Prog (Iter (Avl.PostorderLoop ι) (List (Entry ι) × List ι)) :=
  if p.pos.fieldTest then do
    let freed := p.freed ++ p.pos.node.toList.filter free
    let n ← rbNextPostorder freed p.n.field root
    return .next ⟨p.n, rbEntry offset n, p.visited ++ [p.pos], freed⟩
  else return .done (p.visited, p.freed)

/-- `rbtree_postorder_for_each_entry_safe`, for a `field` at `offset`: what the body has visited, and the nodes
freed. -/
def rbtreePostorderForEachEntrySafe (offset : ℕ) (free : ι → Bool) (root : RbRoot ι) :
    Prog (List (Entry ι) × List ι) := do
  let pos := rbEntry offset (← rbFirstPostorder [] root)
  let n := rbEntry offset (← rbNextPostorder [] pos.field root)
  Prog.iterate (rbPostorderStep offset free root) ⟨pos, n, [], []⟩

/-! ### The store without colours -/

/-- Another tag in each node. -/
def retag (tag : τ') (s : Store ι τ) : Store ι τ' :=
  ⟨fun x => ⟨(s.mem x).parent, tag, (s.mem x).left, (s.mem x).right⟩, s.root⟩

def retagTree (tag : τ') : LTree ι τ → LTree ι τ'
  | .nil => .nil
  | .node l x _ r => .node (retagTree tag l) x tag (retagTree tag r)

variable {tag : τ'} {s : RbRoot ι} {t : LTree ι RbColor} {freed : List ι} {node : ι}

omit [DecidableEq ι] in
@[simp] theorem top_retagTree {t : LTree ι τ} : (retagTree tag t).top = t.top := by cases t <;> rfl

omit [DecidableEq ι] in
@[simp] theorem toList_retagTree {t : LTree ι τ} : (retagTree tag t).toList = t.toList := by
  induction t with
  | nil => rfl
  | node l x c r ihl ihr => rw [retagTree, LTree.toList_node, LTree.toList_node, ihl, ihr]

omit [DecidableEq ι] in
@[simp] theorem postorder_retagTree {t : LTree ι τ} : (retagTree tag t).postorder = t.postorder := by
  induction t with
  | nil => rfl
  | node l x c r ihl ihr => rw [retagTree, LTree.postorder, LTree.postorder, ihl, ihr]

omit [DecidableEq ι] in
theorem linked_retag {s : Store ι τ} {par : Option ι} {t : LTree ι τ} (h : Linked s.mem par t) :
    Linked (retag tag s).mem par (retagTree tag t) := by
  induction t generalizing par with
  | nil => trivial
  | node l x c r ihl ihr =>
      obtain ⟨hx, hl, hr⟩ := h
      refine ⟨?_, ihl hl, ihr hr⟩
      show (⟨(s.mem x).parent, tag, (s.mem x).left, (s.mem x).right⟩ : Cell ι τ') = _
      rw [top_retagTree, top_retagTree, hx]

omit [DecidableEq ι] in
theorem focus_retag {s : Store ι τ} {t : LTree ι τ} (h : Focus s [] t) :
    Focus (retag tag s) [] (retagTree tag t) := by
  refine ⟨?_, linked_retag h.linked, .nil, ?_, by simp⟩
  · rw [top_retagTree]
    exact h.ctx_linked
  · rw [toList_retagTree]
    exact h.nodup

omit [DecidableEq ι] in
/-- The nodes below a pointer are what the memory makes them. -/
theorem linked_unique {m : ι → Cell ι τ} {par par' : Option ι} {t t' : LTree ι τ} (h : Linked m par t)
    (h' : Linked m par' t') (htop : t.top = t'.top) : t.toList = t'.toList := by
  induction t generalizing par par' t' with
  | nil =>
      cases t' with
      | nil => rfl
      | node => cases htop
  | node l x c r ihl ihr =>
      cases t' with
      | nil => cases htop
      | node l' x' c' r' =>
          obtain rfl : x = x' := Option.some.inj htop
          have hc := h.1
          rw [h'.1] at hc
          rw [LTree.toList_node, LTree.toList_node, ihl h.2.1 h'.2.1 (congrArg Cell.left hc).symm,
            ihr h.2.2 h'.2.2 (congrArg Cell.right hc).symm]

/-! ### The functions on it -/

theorem deref_retag : Avl.deref freed node (retag .equalHeight s) =
    (deref freed node s).map fun c => ⟨c.parent, .equalHeight, c.left, c.right⟩ := by
  unfold deref Avl.deref
  by_cases h : node ∈ freed
  · simp [h]
  · simp [h, retag]

theorem rbLeftDeepest_retag : rbLeftDeepestNode freed node s =
    Avl.avlLeftDeepest freed node (retag .equalHeight s) := by
  have hstep : (fun node => Prog.ofOption (rbLeftDeepestStep freed s node)) =
      fun node => Prog.ofOption (Avl.avlLeftDeepestStep freed (retag .equalHeight s) node) := by
    funext node
    congr 1
    unfold rbLeftDeepestStep Avl.avlLeftDeepestStep
    rw [deref_retag]
    cases deref freed node s with
    | none => rfl
    | some cell => rfl
  unfold rbLeftDeepestNode Avl.avlLeftDeepest
  rw [hstep]

theorem rbFirstPostorder_retag : rbFirstPostorder freed s =
    Avl.avlFirstPostorder freed (retag .equalHeight s) := by
  unfold rbFirstPostorder Avl.avlFirstPostorder
  rw [show (retag Avl.AvlBalance.equalHeight s).root = s.root from rfl]
  cases s.root with
  | none => rfl
  | some node => simp only [rbLeftDeepest_retag]

theorem rbNextPostorder_retag {o : Option ι} : rbNextPostorder freed o s =
    Avl.avlNextPostorder freed o (retag .equalHeight s) := by
  cases o with
  | none => rfl
  | some node =>
      unfold rbNextPostorder Avl.avlNextPostorder
      simp only [deref_retag, rbLeftDeepest_retag]
      cases deref freed node s with
      | none => rfl
      | some cell =>
          simp only [Option.map_some, Prog.lift_bind]
          cases cell.parent with
          | none => rfl
          | some parent =>
              dsimp only
              cases deref freed parent s with
              | none => rfl
              | some cell =>
                  -- Both sides are the same choice, by matches that are only definitionally equal.
                  change (if cell.left = some node then _ else _) = (if cell.left = some node then _ else _)
                  by_cases hl : cell.left = some node
                  · refine (if_pos hl).trans (Eq.trans ?_ (if_pos hl).symm)
                    cases cell.right with
                    | none => rfl
                    | some right => rfl
                  · exact (if_neg hl).trans (if_neg hl).symm

theorem rbtreePostorder_retag {offset : ℕ} {free : ι → Bool} : rbtreePostorderForEachEntrySafe offset free s =
    Avl.avlPostorderForEachEntrySafe offset free (retag .equalHeight s) := by
  have hstep : rbPostorderStep offset free s = Avl.postorderStep offset free (retag .equalHeight s) := by
    funext p
    unfold rbPostorderStep Avl.postorderStep
    simp only [rbNextPostorder_retag]
    rfl
  unfold rbtreePostorderForEachEntrySafe Avl.avlPostorderForEachEntrySafe
  rw [hstep]
  simp only [rbFirstPostorder_retag, rbNextPostorder_retag]
  rfl

theorem rbtreePostorder_returns {offset : ℕ} {free : ι → Bool} (h : Focus s [] t) {r : List (Entry ι) × List ι} :
    Prog.Returns (rbtreePostorderForEachEntrySafe offset free s) r ↔
      offset = 0 ∧ r = (t.postorder.map fun x => rbEntry offset (some x), t.postorder.filter free) := by
  rw [rbtreePostorder_retag, Avl.avlPostorder_returns (focus_retag h), postorder_retagTree]
  exact Iff.rfl

/-- The loop with the node at `offset` in the entry ends, has run its body once on every entry of the tree and
on nothing else, on each after the entries of its two subtrees, and has read no node in an entry freed
before. -/
def PostorderSafe (offset : ℕ) (free : ι → Bool) (s : RbRoot ι) : Prop :=
  ∃ visited, Prog.Returns (rbtreePostorderForEachEntrySafe offset free s)
      (visited.map fun x => rbEntry offset (some x), visited.filter free) ∧
    visited.Nodup ∧ (∀ x, x ∈ visited ↔ Reach s x) ∧
    ∀ ctx l x c r, Focus s ctx (.node l x c r) → ∃ A B, visited = A ++ x :: B ∧
      ∀ y, y ∈ l.toList ∨ y ∈ r.toList → y ∈ A

/-- **Post-order destruction.**  For every linked tree, and whichever entries the body frees, the loop is right
if and only if the node is the first member of the entry. -/
theorem rb_postorder_safe_iff (h : Focus s [] t) (offset : ℕ) (free : ι → Bool) :
    PostorderSafe offset free s ↔ offset = 0 := by
  constructor
  · rintro ⟨visited, hret, -⟩
    exact ((rbtreePostorder_returns h).mp hret).1
  · intro hoff
    refine ⟨t.postorder, (rbtreePostorder_returns h).mpr ⟨hoff, rfl⟩, (postorder_perm t).nodup_iff.mpr h.nodup,
      fun x => ?_, ?_⟩
    · rw [mem_postorder, h.reach_iff]
    · intro ctx l x c r hf
      have hx := h.reach_iff.mp (hf.reach_top rfl)
      obtain ⟨ctx', l', c', r', rfl, hf'⟩ := h.exists_of_mem hx
      refine ⟨earlier ctx' ++ (l'.postorder ++ r'.postorder), later ctx', postorder_fill_node .., fun y hy => ?_⟩
      -- the subtrees are those of the tree, since a node has one place
      have hl : l'.toList = l.toList ∧ r'.toList = r.toList := by
        have hc := hf.linked.1
        rw [hf'.linked.1] at hc
        have htl : l'.top = l.top := congrArg Cell.left hc
        have htr : r'.top = r.top := congrArg Cell.right hc
        exact ⟨linked_unique hf'.linked.2.1 hf.linked.2.1 htl, linked_unique hf'.linked.2.2 hf.linked.2.2 htr⟩
      rw [List.mem_append, List.mem_append, mem_postorder, mem_postorder, hl.1, hl.2]
      exact .inr hy

/-- In a tree of two nodes, both of them freed: right with the node in front, and not behind eight bytes. -/
theorem rb_postorder_safe_iff_two : ∃ s : RbRoot ℕ, (∀ x, Reach s x ↔ x ∈ [1, 2]) ∧
    PostorderSafe 0 (fun _ => true) s ∧ ¬ PostorderSafe 8 (fun _ => true) s := by
  have h : Focus (⟨fun x => if x = 1 then ⟨none, .black, none, some 2⟩ else ⟨some 1, .red, none, none⟩,
      some 1⟩ : RbRoot ℕ) [] (.node .nil 1 .black (.node .nil 2 .red .nil)) :=
    ⟨rfl, ⟨rfl, trivial, rfl, trivial, trivial⟩, .nil, by decide, by simp⟩
  exact ⟨_, fun x => h.reach_iff, (rb_postorder_safe_iff h 0 fun _ => true).mpr rfl,
    fun hsafe => absurd ((rb_postorder_safe_iff h 8 fun _ => true).mp hsafe) (by decide)⟩

end Libls.Rb
