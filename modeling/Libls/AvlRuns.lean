import Libls.AvlRebalance
import Libls.Library.Runs

/-! # Runs of AVL tree operations

`avlInsert` is what users of the library write (`avl_link_node` at an empty slot, then
`avl_insert_balance`) and `avlErase` is `avl_erase`.  `avlInsert_spec` and `avlErase_spec` say
what they do to the sequence of objects; `Run` is any program that uses one tree, with any
other writes to memory that keep away from the nodes of the tree. -/

namespace Libls.Avl

open LinkedTree

variable {ι : Type} [DecidableEq ι] {s : AvlRoot ι}

/-- `avl_link_node(node, parent, pos); avl_insert_balance(node, root)`. -/
def avlInsert (node : ι) (pos : Option (ι × Dir)) (s : AvlRoot ι) : Prog (AvlRoot ι) :=
  avlInsertBalance node (avlLinkNode node (pos.map Prod.fst) pos s)

/-! ### The two operations -/

/-- The store is the AVL tree `t`. -/
def WellFormed (s : AvlRoot ι) (t : LTree ι AvlBalance) : Prop := Focus s [] t ∧ AvlOk t

theorem avlInsert_spec {ctx : List (Frame ι AvlBalance)} {n : ι} (h : Focus s [] (fill ctx .nil))
    (hok : AvlOk (fill ctx .nil)) (hn : n ∉ (fill ctx .nil).toList) :
    ∃ s', Prog.Returns (avlInsert n (slot ctx) s) s' ∧ Holds s' (before ctx ++ n :: after ctx) := by
  have hf := Focus.fill_iff.mpr h
  have hn' : n ∉ ctxNodes ctx := by
    intro hm
    have := (ctxNodes_perm ctx).mem_iff.mp hm
    simp only [toList_fill, LTree.toList_nil, List.append_nil] at hn
    exact hn this
  refine avlInsertBalance_holds (n := ctx.length) ⟨ctx, .nil, .equalHeight, .nil, rfl, ?_, ?_, ?_, ?_, ?_⟩
  · rw [avlLinkNode, slot_fst]
    exact hf.link hn'
  · simp [AvlOk, balanceOf]
  · exact (avlOk_fill.mp hok).1
  · intro _
    rfl
  · rw [toList_fill]
    simp

/-- "Unlink the real node" takes out a node with at most one child. -/
theorem avlUnlink_focus {ctx : List (Frame ι AvlBalance)} {d : Dir} {c : LTree ι AvlBalance} {x : ι}
    {b : AvlBalance} (h : Focus s ctx (.make d c x b .nil)) : Focus (avlUnlink x s) ctx c := by
  have hx := h.mem_top
  have hne : above ctx ≠ some x := fun e => h.apart x (by simp) (above_mem e)
  have hchild : avlOnlyChild x s = c.top := by
    rw [avlOnlyChild, hx]
    cases d
    · simp only [Cell.make, LTree.top_nil]
      cases c.top <;> rfl
    · rfl
  have e : avlUnlink x s = (s.replaceChild (above ctx) x c.top).setParentOf c.top (above ctx) := by
    have hm : (s.replaceChild (above ctx) x c.top).mem x = s.mem x :=
      s.replaceChild_mem_of_ne x hne x c.top
    simp only [avlUnlink, avlChangeChild, hchild, avlParent, hx, Cell.make_parent, hm]
    cases d
    · simp only [Cell.make, LTree.top_nil]
      cases c.top <;> rfl
    · rfl
  rw [e]
  exact h.splice

omit [DecidableEq ι] in
theorem toList_splice [DecidableEq ι] {ctx : List (Frame ι AvlBalance)} {d : Dir}
    {c : LTree ι AvlBalance} {x : ι} {b : AvlBalance} (h : Focus s ctx (.make d c x b .nil)) :
    (fill ctx (.make d c x b .nil)).toList.erase x = (fill ctx c).toList := by
  have hx : x ∉ before ctx := fun hm => by
    have := (ctxNodes_perm ctx).mem_iff.mpr (List.mem_append_left _ hm)
    exact h.apart x (by simp) this
  have hc : x ∉ c.toList := (LTree.nodup_make .. |>.mp h.nodup).1
  rw [toList_fill, toList_fill, List.append_assoc, List.erase_append_right _ hx]
  cases d
  · simp [LTree.make, List.erase_append_right _ hc]
  · simp [LTree.make]

/-- Removal of a node with at most one child, up to and including its unlinking. -/
theorem avlErase_one {ctx : List (Frame ι AvlBalance)} {d : Dir} {c : LTree ι AvlBalance} {x : ι}
    {b : AvlBalance} (h : Focus s ctx (.make d c x b .nil))
    (hok : AvlOk (fill ctx (.make d c x b .nil))) :
    ∃ s₁, Prog.Returns (avlEraseBalance x s) s₁ ∧
      Holds (avlUnlink x s₁) ((fill ctx (.make d c x b .nil)).toList.erase x) := by
  obtain ⟨hctx, hx⟩ := avlOk_fill.mp hok
  rw [height_make, height_nil, Nat.max_zero, Nat.add_comm] at hctx
  have hshrink : Shrinking (.make d c x b .nil) c (fill ctx (.make d c x b .nil)).toList ctx.length
      (x, s) := ⟨[], ctx, rfl, h, by simp [fill], (avlOk_make.mp hx).2.1, hctx, rfl⟩
  obtain ⟨s₁, hs₁, ctx', hf, hok', hS⟩ := avlEraseBalance_shrunk hshrink
  refine ⟨s₁, hs₁, fill ctx' c, Focus.fill_iff.mp (avlUnlink_focus hf), hok', ?_⟩
  rw [← hS, toList_splice hf]

/-- Another object `y` takes the place of `x`. -/
theorem avlReplaceNode_holds {A B : List ι} {x y : ι} (h : Holds s (A ++ x :: B))
    (hy : y ∉ A ++ x :: B) : Holds (avlReplaceNode x y s) (A ++ y :: B) := by
  obtain ⟨t, hf, hok, hS⟩ := h
  have hnd := hf.nodup
  obtain ⟨ctx, l, b, r, rfl, hfx⟩ := hf.exists_of_mem (x := x) (by simp [hS])
  rw [hS] at hnd
  rw [← hS, toList_fill] at hy
  simp only [LTree.toList_node, List.mem_append, List.mem_cons, not_or] at hy
  obtain ⟨⟨hyb, hyl, hyx, hyr⟩, hya⟩ := hy
  have hyc : y ∉ ctxNodes ctx := fun hm => by
    rcases List.mem_append.mp ((ctxNodes_perm ctx).mem_iff.mp hm) with hm | hm
    · exact hyb hm
    · exact hya hm
  have hpar : (s.mem x).parent = above ctx := hfx.parent_top rfl
  have hx := hfx.mem_top (d := .left)
  have hout : ((s.write y (s.mem x)).replaceChild (above ctx) x (some y)).mem y = s.mem x := by
    rw [Store.replaceChild_mem_of_ne _ _ (fun e => hyc (above_mem e)), Store.write_mem, if_pos rfl]
  have e : avlReplaceNode x y s = (((s.write y (s.mem x)).replaceChild (above ctx) x
      (some y)).setParentOf l.top (some y)).setParentOf r.top (some y) := by
    have hly : l.top ≠ some y := fun e => hyl (LTree.top_mem e)
    have hleft : (s.mem x).left = l.top := by rw [hx]; rfl
    have hright : (s.mem x).right = r.top := by rw [hx]; rfl
    simp only [avlReplaceNode, avlChangeChild, avlParent, Store.write_mem, if_true, hpar, hout,
      hleft, Store.setParentOf_mem, hly, if_false, hright]
  have h1 := hfx.substitute (d := .left) ⟨hyl, hyr, hyc⟩
  rw [← e] at h1
  -- the position of `x` in the sequence is unique
  have hsplit : A = before ctx ++ l.toList ∧ B = r.toList ++ after ctx := by
    rw [List.nodup_middle, List.nodup_cons, List.mem_append, not_or] at hnd
    have hS' : before ctx ++ l.toList ++ x :: (r.toList ++ after ctx) = A ++ x :: B := by
      simpa [toList_fill] using hS
    have h2 := (List.append_cons_inj_of_notMem hnd.1.1 hnd.1.2).mp hS'.symm
    exact ⟨h2.1, h2.2.2⟩
  obtain ⟨rfl, rfl⟩ := hsplit
  refine ⟨fill ctx (.make .left l y b r), Focus.fill_iff.mp h1, ?_, ?_⟩
  · rw [avlOk_fill] at hok ⊢
    exact hok
  · rw [toList_fill]
    simp [LTree.make]

omit [DecidableEq ι] in
/-- Erasing one of two neighbours. -/
theorem erase_neighbours [DecidableEq ι] {A B : List ι} {x y : ι} (h : (A ++ y :: x :: B).Nodup) :
    (A ++ y :: x :: B).erase y = A ++ x :: B ∧ (A ++ y :: x :: B).erase x = A ++ y :: B := by
  rw [List.nodup_append'] at h
  obtain ⟨-, hyx, hA⟩ := h
  have hy : y ∉ A := fun hm => hA hm (by simp)
  have hx : x ∉ A := fun hm => hA hm (by simp)
  have hne : y ≠ x := fun e => by simp [e] at hyx
  rw [List.erase_append_right _ hy, List.erase_append_right _ hx]
  simp [hne]

/-- Removal of a node with two children: its predecessor `y` is unlinked and takes its place. -/
theorem avlErase_two {ctx : List (Frame ι AvlBalance)} {l₁ l₂ r : LTree ι AvlBalance} {x z : ι}
    {b bz : AvlBalance} (h : Focus s ctx (.node (.node l₁ z bz l₂) x b r))
    (hok : AvlOk (fill ctx (.node (.node l₁ z bz l₂) x b r))) :
    ∃ y s₁, Prog.Returns (avlRightMost z s) y ∧ y ≠ x ∧ Prog.Returns (avlEraseBalance y s) s₁ ∧
      Holds (avlReplaceNode x y (avlUnlink y s₁))
        ((fill ctx (.node (.node l₁ z bz l₂) x b r)).toList.erase x) := by
  have hnd := (Focus.fill_iff.mp h).nodup
  obtain ⟨ctx', c, y, u, e, hd, hy⟩ := Linked.extreme (d := .right) h.linked.2.1
  change LTree.node l₁ z bz l₂ = fill ctx' (.make .left c y u .nil) at e
  rw [e] at h hok hnd ⊢
  have hf : Focus s (ctx' ++ ⟨.left, x, b, r⟩ :: ctx) (.make .left c y u .nil) := by
    rw [Focus.append_iff]
    exact Focus.near_iff.mp h
  have hfill : fill (ctx' ++ ⟨.left, x, b, r⟩ :: ctx) (.make .left c y u .nil) =
      fill ctx (.node (fill ctx' (.make .left c y u .nil)) x b r) := by
    rw [fill_append]
    rfl
  obtain ⟨s₁, hs₁, hH⟩ := avlErase_one hf (by rw [hfill]; exact hok)
  have hS : (fill ctx (.node (fill ctx' (.make .left c y u .nil)) x b r)).toList =
      (before ctx ++ before ctx' ++ c.toList) ++ y :: x :: (r.toList ++ after ctx) := by
    simp [toList_fill, after_eq_nil hd, LTree.make]
  rw [hfill, hS] at hH
  rw [hS] at hnd ⊢
  obtain ⟨hey, hex⟩ := erase_neighbours hnd
  rw [hey] at hH
  rw [hex]
  have hynot : y ∉ (before ctx ++ before ctx' ++ c.toList) ++ x :: (r.toList ++ after ctx) := by
    rw [List.nodup_middle, List.nodup_cons] at hnd
    exact hnd.1
  refine ⟨y, s₁, hy, fun e => hynot (by simp [e]), hs₁, avlReplaceNode_holds hH hynot⟩

/-- `avl_erase` removes exactly the node it is given. -/
theorem avlErase_spec {t : LTree ι AvlBalance} {x : ι} (h : Focus s [] t) (hok : AvlOk t)
    (hx : x ∈ t.toList) :
    ∃ s', Prog.Returns (avlErase x s) s' ∧ Holds s' (t.toList.erase x) := by
  obtain ⟨ctx, l, b, r, rfl, hf⟩ := h.exists_of_mem hx
  have hcell := hf.linked.1
  cases l with
  | nil =>
      obtain ⟨s₁, hs₁, hH⟩ := avlErase_one (d := .right) hf hok
      refine ⟨_, ?_, hH⟩
      simpa [avlErase, hcell] using ⟨s₁, hs₁, rfl⟩
  | node l₁ z bz l₂ =>
      cases r with
      | nil =>
          obtain ⟨s₁, hs₁, hH⟩ := avlErase_one (d := .left) hf hok
          refine ⟨_, ?_, hH⟩
          simpa [avlErase, hcell] using ⟨s₁, hs₁, rfl⟩
      | node r₁ w bw r₂ =>
          obtain ⟨y, s₁, hy, hyx, hs₁, hH⟩ := avlErase_two hf hok
          refine ⟨_, ?_, hH⟩
          simpa [avlErase, hcell] using ⟨y, hy, s₁, hs₁, by simp [hyx.symm]⟩

/-! ### Runs -/

/-- The operations of a program on one tree. -/
inductive Op (ι : Type) where
  | insert (node : ι) (pos : Option (ι × Dir))
  | erase (node : ι)

def Op.exec : Op ι → AvlRoot ι → Prog (AvlRoot ι)
  | .insert node pos, s => avlInsert node pos s
  | .erase node, s => avlErase node s

omit [DecidableEq ι] in
/-- A node to insert is not in the tree and goes to an empty slot; a node to erase is in it. -/
def Op.Legal (s : AvlRoot ι) : Op ι → Prop
  | .insert node pos => ¬ Reach s node ∧ EmptySlot s pos
  | .erase node => Reach s node

/-- The stores a program can produce from `AVL_ROOT`. -/
inductive Run : AvlRoot ι → Prop
  | init (mem : ι → Cell ι AvlBalance) : Run (avlRoot mem)
  | op {s s' : AvlRoot ι} {o : Op ι} :
      Run s → o.Legal s → Prog.Returns (o.exec s) s' → Run s'
  /-- Memory outside the tree belongs to the program. -/
  | other {s : AvlRoot ι} {mem : ι → Cell ι AvlBalance} :
      Run s → (∀ x, Reach s x → mem x = s.mem x) → Run ⟨mem, s.root⟩

theorem Op.exec_spec {t : LTree ι AvlBalance} {o : Op ι} (h : WellFormed s t) (ho : o.Legal s) :
    ∃ s' t', Prog.Returns (o.exec s) s' ∧ WellFormed s' t' := by
  obtain ⟨hf, hok⟩ := h
  cases o with
  | insert node pos =>
      obtain ⟨hn, hpos⟩ := ho
      obtain ⟨ctx, rfl, rfl⟩ := hf.emptySlot_iff.mp hpos
      obtain ⟨s', hs', t', hf', hok', -⟩ := avlInsert_spec hf hok (fun hm => hn (hf.reach_iff.mpr hm))
      exact ⟨s', t', hs', hf', hok'⟩
  | erase node =>
      obtain ⟨s', hs', t', hf', hok', -⟩ := avlErase_spec hf hok (hf.reach_iff.mp ho)
      exact ⟨s', t', hs', hf', hok'⟩

/-- The invariant of all runs. -/
theorem Run.wellFormed (h : Run s) : ∃ t, WellFormed s t := by
  induction h with
  | init mem => exact ⟨.nil, Focus.empty rfl, trivial⟩
  | op _ ho hr ih =>
      obtain ⟨t, ht⟩ := ih
      obtain ⟨s', t', hs', ht'⟩ := Op.exec_spec ht ho
      rw [← hr.unique hs'] at ht'
      exact ⟨t', ht'⟩
  | @other s mem _ hm ih =>
      obtain ⟨t, hf, hok⟩ := ih
      refine ⟨t, hf.congr rfl ?_, hok⟩
      rintro x (hx | hx)
      · exact hm x (hf.reach_iff.mpr hx)
      · simp at hx

/-- **The balance invariant of whole runs.**  After every operation the nodes reachable from the
root are linked as a finite binary tree with the right parent pointers, every node has the
balance of its subtrees, whose heights differ by at most one, a tree of height `h` has at least
`Fib (h + 2) - 1` nodes, and the next operation will end without `abort()` and without
dereferencing a null pointer. -/
theorem avl_run_balanced (h : Run s) :
    (∃ t, s.root = t.top ∧ Linked s.mem none t ∧ t.toList.Nodup ∧ (∀ x, Reach s x ↔ x ∈ t.toList) ∧
      AvlOk t ∧ Nat.fib (height t + 2) - 1 ≤ size t) ∧
    ∀ o : Op ι, o.Legal s → ∃ s', Prog.Returns (o.exec s) s' := by
  obtain ⟨t, ht⟩ := h.wellFormed
  obtain ⟨hf, hok⟩ := ht
  refine ⟨⟨t, hf.ctx_linked, hf.linked, hf.nodup, fun x => hf.reach_iff, hok, ?_⟩, fun o ho => ?_⟩
  · have := fib_le_size hok
    omega
  · obtain ⟨s', -, hs', -⟩ := Op.exec_spec ⟨hf, hok⟩ ho
    exact ⟨s', hs'⟩

/-- The members after an operation. -/
def Op.members (S : Finset ι) : Op ι → Finset ι
  | .insert node _ => Insert.insert node S
  | .erase node => S.erase node

theorem Op.exec_members {S : Finset ι} {o : Op ι} (h : Run s) (hS : ∀ x, Reach s x ↔ x ∈ S) (ho : o.Legal s)
    (hr : Prog.Returns (o.exec s) s') : ∀ x, Reach s' x ↔ x ∈ o.members S := by
  obtain ⟨t, hf, hok⟩ := h.wellFormed
  have hmem : ∀ x, x ∈ t.toList ↔ x ∈ S := fun x => hf.reach_iff.symm.trans (hS x)
  intro x
  cases o with
  | insert node pos =>
      obtain ⟨ctx, rfl, rfl⟩ := hf.emptySlot_iff.mp ho.2
      obtain ⟨s₁, hs₁, t', hf', -, hlist⟩ := avlInsert_spec hf hok fun hm => ho.1 (hf.reach_iff.mpr hm)
      cases hr.unique hs₁
      rw [hf'.reach_iff, hlist, Op.members, Finset.mem_insert, ← hmem]
      simp only [toList_fill, LTree.toList_nil, List.append_nil, List.mem_append, List.mem_cons]
      tauto
  | erase node =>
      obtain ⟨s₁, hs₁, t', hf', -, hlist⟩ := avlErase_spec hf hok (hf.reach_iff.mp ho)
      cases hr.unique hs₁
      rw [hf'.reach_iff, hlist, Op.members, Finset.mem_erase, hf.nodup.mem_erase_iff, hmem]

/-- `Op.Legal`, in terms of the members. -/
def Op.LegalIn (s : AvlRoot ι) (S : Finset ι) : Op ι → Prop
  | .insert node pos => node ∉ S ∧ EmptySlotIn s S pos
  | .erase node => node ∈ S

instance Op.decidableLegalIn (s : AvlRoot ι) (S : Finset ι) : (o : Op ι) → Decidable (o.LegalIn s S)
  | .insert node pos => inferInstanceAs (Decidable (node ∉ S ∧ EmptySlotIn s S pos))
  | .erase node => inferInstanceAs (Decidable (node ∈ S))

omit [DecidableEq ι] in
theorem Op.LegalIn.legal {S : Finset ι} {o : Op ι} (ho : o.LegalIn s S) (hS : ∀ x, Reach s x ↔ x ∈ S) : o.Legal s := by
  cases o with
  | insert node pos => exact ⟨fun hr => ho.1 ((hS node).mp hr), ho.2.emptySlot hS⟩
  | erase node => exact (hS node).mpr ho

/-- An operation with the fuel `n`, and the members after it. -/
def Op.attempt (n : ℕ) (s : AvlRoot ι × Finset ι) (o : Op ι) : Option (AvlRoot ι × Finset ι) :=
  (Prog.attempt (o.LegalIn s.1 s.2) (o.exec s.1) n).map (·, o.members s.2)

theorem Run.attempt {n : ℕ} {s s' : AvlRoot ι × Finset ι} {o : Op ι} (hs : o.attempt n s = some s')
    (h : Run s.1 ∧ ∀ x, Reach s.1 x ↔ x ∈ s.2) : Run s'.1 ∧ ∀ x, Reach s'.1 x ↔ x ∈ s'.2 := by
  obtain ⟨hrun, hS⟩ := h
  obtain ⟨ho, s₁, hr, rfl⟩ := Prog.attempt_map_eq_some hs
  exact ⟨.op hrun (ho.legal hS) hr, Op.exec_members hrun hS (ho.legal hS) hr⟩

/-- A run with a single and a double rotation in insertions, and one in an erasure. -/
theorem run_sample : ∃ s : AvlRoot ℕ, s.root = some 4 ∧ Run s := by
  let mem : ℕ → Cell ℕ AvlBalance := fun _ => ⟨none, .equalHeight, none, none⟩
  have hrun : (([.insert 1 none, .insert 2 (some (1, .right)), .insert 3 (some (2, .right)),
      .insert 5 (some (3, .right)), .insert 4 (some (5, .left)), .erase 1, .erase 2].foldlM (Op.attempt 9)
        (avlRoot mem, ∅)).map fun s => s.1.root) = some (some 4) := by
    decide +kernel
  have hempty : ∀ x, Reach (avlRoot mem) x ↔ x ∈ (∅ : Finset ℕ) := by
    intro x
    rw [(Focus.empty rfl : Focus (avlRoot mem) [] .nil).reach_iff]
    simp
  obtain ⟨s, hsee, h, -⟩ := Libls.Run.exec_keeps (fun _ _ _ => Run.attempt) _ hrun ⟨.init mem, hempty⟩
  exact ⟨s.1, hsee, h⟩

/-- The balance after several operations. -/
theorem avl_run_balanced_sample : ∃ s : AvlRoot ℕ, s.root = some 4 ∧
    (∃ t, s.root = t.top ∧ Linked s.mem none t ∧ t.toList.Nodup ∧ (∀ x, Reach s x ↔ x ∈ t.toList) ∧
      AvlOk t ∧ Nat.fib (height t + 2) - 1 ≤ size t) ∧
    ∀ o : Op ℕ, o.Legal s → ∃ s', Prog.Returns (o.exec s) s' := by
  obtain ⟨s, hs, h⟩ := run_sample
  exact ⟨s, hs, avl_run_balanced h⟩

/-- **The order invariant.**  Inserting at an empty slot puts the new object exactly at the place
of the slot in the sequence of objects, and erasing removes exactly one object; no other object
moves, disappears or is doubled. -/
theorem avl_sequence {t : LTree ι AvlBalance} (h : WellFormed s t) :
    (∀ (node : ι) (pos : Option (ι × Dir)), ¬ Reach s node → EmptySlot s pos →
      ∃ ctx s' t', slot ctx = pos ∧ t = fill ctx .nil ∧ t.toList = before ctx ++ after ctx ∧
        Prog.Returns (avlInsert node pos s) s' ∧ WellFormed s' t' ∧
        t'.toList = before ctx ++ node :: after ctx) ∧
    ∀ x, Reach s x → ∃ s' t', Prog.Returns (avlErase x s) s' ∧ WellFormed s' t' ∧
      t'.toList = t.toList.erase x := by
  obtain ⟨hf, hok⟩ := h
  constructor
  · intro node pos hn hpos
    obtain ⟨ctx, rfl, rfl⟩ := hf.emptySlot_iff.mp hpos
    obtain ⟨s', hs', t', hf', hok', hS⟩ :=
      avlInsert_spec hf hok (fun hm => hn (hf.reach_iff.mpr hm))
    exact ⟨ctx, s', t', rfl, rfl, by simp [toList_fill], hs', ⟨hf', hok'⟩, hS⟩
  · intro x hx
    obtain ⟨s', hs', t', hf', hok', hS⟩ := avlErase_spec hf hok (hf.reach_iff.mp hx)
    exact ⟨s', t', hs', ⟨hf', hok'⟩, hS⟩

/-- A tree of two nodes. -/
theorem wellFormed_two : WellFormed (⟨fun x => if x = 1 then ⟨none, .rightHigher, none, some 2⟩
      else ⟨some 1, .equalHeight, none, none⟩, some 1⟩ : AvlRoot ℕ)
    (.node .nil 1 .rightHigher (.node .nil 2 .equalHeight .nil)) := by
  refine ⟨⟨rfl, by simp [Linked], .nil, by simp, by simp⟩, ?_⟩
  simp [AvlOk, height, balanceOf]

/-- Erasing the root of a tree of two nodes leaves the other one. -/
theorem avl_sequence_two : ∃ s' t', Prog.Returns (avlErase 1
      (⟨fun x => if x = 1 then ⟨none, .rightHigher, none, some 2⟩ else ⟨some 1, .equalHeight, none, none⟩,
        some 1⟩ : AvlRoot ℕ)) s' ∧ WellFormed s' t' ∧ t'.toList = [2] := by
  exact (avl_sequence wellFormed_two).2 1 (.root rfl)

end Libls.Avl
