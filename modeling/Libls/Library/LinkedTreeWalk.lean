import Libls.Library.LinkedTreeMoves

/-! # Walks on linked trees

`extreme` goes down to the last node on a side and `climb` goes up as long as it comes from that side;
`neighbour` puts the two together.  The sides are mirror images: `LTree.toward d` lists the nodes of a
tree towards side `d`, and `beyond d ctx` lists those of a context behind its hole.
`Focus.neighbour_split` says what the neighbour is by the place in the sequence. -/

namespace Libls.LinkedTree

variable {ι τ : Type}

/-- The nodes of a tree, towards side `d`. -/
def LTree.toward (d : Dir) (t : LTree ι τ) : List ι :=
  match d with
  | .left => t.toList.reverse
  | .right => t.toList

/-- The nodes of a context on side `d` of its hole, beginning at the hole. -/
def beyond (d : Dir) (ctx : List (Frame ι τ)) : List ι :=
  match d with
  | .left => (before ctx).reverse
  | .right => after ctx

@[simp] theorem toward_nil (d : Dir) : (LTree.nil : LTree ι τ).toward d = [] := by cases d <;> rfl

theorem toward_make (d : Dir) (l r : LTree ι τ) (x : ι) (t : τ) :
    (LTree.make d r x t l).toward d = l.toward d ++ x :: r.toward d := by
  cases d <;> simp [LTree.toward, LTree.make]

@[simp] theorem beyond_nil (d : Dir) : beyond d ([] : List (Frame ι τ)) = [] := by cases d <;> rfl

theorem beyond_cons (d : Dir) (x : ι) (t : τ) (sib : LTree ι τ) (ctx : List (Frame ι τ)) :
    beyond d (⟨d, x, t, sib⟩ :: ctx) = beyond d ctx := by
  cases d <;> rfl

theorem beyond_cons_other (d : Dir) (x : ι) (t : τ) (sib : LTree ι τ) (ctx : List (Frame ι τ)) :
    beyond d (⟨d.other, x, t, sib⟩ :: ctx) = x :: (sib.toward d ++ beyond d ctx) := by
  cases d <;> simp [beyond, LTree.toward, before, after, Dir.other]

theorem toward_fill (d : Dir) (ctx : List (Frame ι τ)) (t : LTree ι τ) :
    (fill ctx t).toward d = (beyond d.other ctx).reverse ++ t.toward d ++ beyond d ctx := by
  cases d <;> simp [LTree.toward, beyond, toList_fill, Dir.other]

theorem mem_toward {d : Dir} {t : LTree ι τ} {x : ι} : x ∈ t.toward d ↔ x ∈ t.toList := by
  cases d <;> simp [LTree.toward]

theorem nodup_toward {d : Dir} {t : LTree ι τ} (h : t.toList.Nodup) : (t.toward d).Nodup := by
  cases d
  · exact List.nodup_reverse.mpr h
  · exact h

theorem toward_other (d : Dir) (t : LTree ι τ) : t.toward d.other = (t.toward d).reverse := by
  cases d <;> simp [LTree.toward, Dir.other]

/-! ### Neighbours -/

/-- `while ((parent = parent of node) && node == parent->child) node = parent`, for the children
on side `d`; the result is `parent`. -/
def climb (d : Dir) (node : ι) [DecidableEq ι] (s : Store ι τ) : Prog (Option ι) :=
  Prog.iterate (fun node => .ofOption <| some <|
    match (s.mem node).parent with
    | none => .done none
    | some parent =>
        if (s.mem parent).child d = some node then .next parent else .done (some parent)) node

/-- Climbing from side `d` ends at the first node on that side of the hole. -/
theorem Focus.climb [DecidableEq ι] {d : Dir} {s : Store ι τ} {ctx : List (Frame ι τ)} {t : LTree ι τ}
    {x : ι} (h : Focus s ctx t) (hx : t.top = some x) :
    Prog.Returns (climb d x s) (beyond d ctx).head? := by
  induction ctx generalizing t x with
  | nil =>
      refine Prog.Returns.iterate_done (Prog.returns_ofOption.mpr ?_)
      rw [h.parent_top hx, beyond_nil]
      rfl
  | cons f ctx ih =>
      obtain ⟨e, p, tag, sib⟩ := f
      have hpar : (s.mem x).parent = some p := h.parent_top hx
      have hcell := h.mem_above
      by_cases hed : e = d
      · subst hed
        have hup := ih (Focus.cons_iff.mp h) (x := p) (by simp [Frame.fill])
        rw [beyond_cons]
        refine Prog.Returns.iterate_next (Prog.returns_ofOption.mpr ?_) hup
        have heq : (s.mem p).child e = some x := by
          rw [hcell, ← hx, Cell.make_child]
        simp only [hpar, if_pos heq]
      · obtain rfl : e = d.other := by
          cases e <;> cases d <;> first | rfl | exact absurd rfl hed
        have hsib : sib.top ≠ some x := fun e =>
          h.apart x (LTree.top_mem hx) (by simp [LTree.top_mem e])
        rw [beyond_cons_other]
        refine Prog.Returns.iterate_done (Prog.returns_ofOption.mpr ?_)
        have hne : (s.mem p).child d ≠ some x := by
          rw [hcell]
          cases d <;> exact hsib
        simp only [hpar, if_neg hne]
        rfl

/-- A context all of whose holes are on one side has nothing beyond that side. -/
theorem beyond_eq_nil {d : Dir} {ctx : List (Frame ι τ)} (h : ∀ f ∈ ctx, f.dir = d) : beyond d ctx = [] := by
  cases d with
  | left => exact List.reverse_eq_nil_iff.mpr (before_eq_nil h)
  | right => exact after_eq_nil h

/-- Walking down on one side ends at the first node towards the other side. -/
theorem Linked.toward_head {s : Store ι τ} {d : Dir} {par : Option ι} {l r : LTree ι τ} {x : ι} {t : τ}
    (h : Linked s.mem par (.make d l x t r)) :
    ∃ y, Prog.Returns (LinkedTree.extreme d.other x s) y ∧ ((LTree.make d l x t r).toward d).head? = some y := by
  have h' : Linked s.mem par (.make d.other.other l x t r) := by rwa [Dir.other_other]
  obtain ⟨ctx, c, y, u, e, hd, hy⟩ := Linked.extreme h'
  refine ⟨y, hy, ?_⟩
  rw [Dir.other_other] at e
  rw [e, toward_fill, beyond_eq_nil hd, toward_make, toward_nil]
  rfl

/-- `x->child ? the last one of it on the other side : climb`, on side `d`. -/
def neighbour (d : Dir) (x : ι) [DecidableEq ι] (s : Store ι τ) : Prog (Option ι) :=
  match (s.mem x).child d with
  | some y => do return some (← extreme d.other y s)
  | none => climb d x s

/-- The neighbour is the node that follows towards side `d`. -/
theorem Focus.neighbour [DecidableEq ι] {d : Dir} {s : Store ι τ} {ctx : List (Frame ι τ)} {l r : LTree ι τ}
    {x : ι} {t : τ} (h : Focus s ctx (.make d r x t l)) :
    Prog.Returns (neighbour d x s) (r.toward d ++ beyond d ctx).head? := by
  obtain ⟨hx, hr, -⟩ := linked_make.mp h.linked
  have hchild : (s.mem x).child d = r.top := by rw [hx, Cell.make_child]
  unfold LinkedTree.neighbour
  rw [hchild]
  cases r with
  | nil =>
      rw [toward_nil]
      exact h.climb (LTree.top_make ..)
  | node r₁ y u r₂ =>
      obtain ⟨a, b, e⟩ : ∃ a b, LTree.node r₁ y u r₂ = .make d a y u b := by
        cases d
        · exact ⟨r₁, r₂, rfl⟩
        · exact ⟨r₂, r₁, rfl⟩
      rw [e] at hr ⊢
      obtain ⟨z, hz, hhead⟩ := hr.toward_head
      rw [List.head?_append, hhead, LTree.top_make]
      exact Prog.returns_bind.mpr ⟨z, hz, Prog.returns_pure.mpr rfl⟩

/-- The neighbour of a node, by its place in the sequence. -/
theorem Focus.neighbour_split [DecidableEq ι] {d : Dir} {s : Store ι τ} {t : LTree ι τ} (h : Focus s [] t)
    {A B : List ι} {x : ι} (hL : t.toward d = A ++ x :: B) : Prog.Returns (LinkedTree.neighbour d x s) B.head? := by
  have hmem : x ∈ t.toList := by
    rw [← mem_toward (d := d), hL]
    simp
  obtain ⟨ctx, l, u, r, rfl, hf⟩ := h.exists_of_mem hmem
  obtain ⟨near, far, e⟩ : ∃ near far, LTree.node l x u r = .make d near x u far := by
    cases d
    · exact ⟨l, r, rfl⟩
    · exact ⟨r, l, rfl⟩
  have hnd := nodup_toward (d := d) h.nodup
  rw [e] at hf hL hnd
  have hsplit : ((beyond d.other ctx).reverse ++ far.toward d) ++ x :: (near.toward d ++ beyond d ctx) =
      A ++ x :: B := by
    rw [← hL, toward_fill, toward_make]
    simp
  rw [hL, ← hsplit, List.nodup_middle, List.nodup_cons, List.mem_append, not_or] at hnd
  obtain ⟨-, -, rfl⟩ := (List.append_cons_inj_of_notMem hnd.1.1 hnd.1.2).mp hsplit
  exact hf.neighbour

/-! ### Post-order -/

/-- The nodes of a tree, each one after those of its subtrees. -/
def LTree.postorder : LTree ι τ → List ι
  | .nil => []
  | .node l x _ r => l.postorder ++ (r.postorder ++ [x])

/-- The nodes of a context that come before its hole in post-order. -/
def earlier : List (Frame ι τ) → List ι
  | [] => []
  | ⟨.left, _, _, _⟩ :: ctx => earlier ctx
  | ⟨.right, _, _, sib⟩ :: ctx => earlier ctx ++ sib.postorder

/-- The nodes of a context that come after its hole in post-order. -/
def later : List (Frame ι τ) → List ι
  | [] => []
  | ⟨.left, x, _, sib⟩ :: ctx => sib.postorder ++ x :: later ctx
  | ⟨.right, x, _, _⟩ :: ctx => x :: later ctx

theorem postorder_perm (t : LTree ι τ) : t.postorder.Perm t.toList := by
  induction t with
  | nil => exact .nil
  | node l x u r ihl ihr =>
      apply ihl.append
      exact (List.perm_append_singleton x _).trans (ihr.cons x)

theorem mem_postorder {t : LTree ι τ} {x : ι} : x ∈ t.postorder ↔ x ∈ t.toList := (postorder_perm t).mem_iff

theorem postorder_fill : ∀ (ctx : List (Frame ι τ)) (t : LTree ι τ),
    (fill ctx t).postorder = earlier ctx ++ t.postorder ++ later ctx
  | [], t => by simp [fill, earlier, later]
  | ⟨.left, x, u, sib⟩ :: ctx, t => by
      rw [fill, postorder_fill ctx]
      simp [Frame.fill, LTree.make, LTree.postorder, earlier, later]
  | ⟨.right, x, u, sib⟩ :: ctx, t => by
      rw [fill, postorder_fill ctx]
      simp [Frame.fill, LTree.make, LTree.postorder, earlier, later]

/-- Around a node. -/
theorem postorder_fill_node (ctx : List (Frame ι τ)) (l r : LTree ι τ) (x : ι) (u : τ) :
    (fill ctx (.node l x u r)).postorder = earlier ctx ++ (l.postorder ++ r.postorder) ++ x :: later ctx := by
  rw [postorder_fill, LTree.postorder]
  simp

end Libls.LinkedTree
