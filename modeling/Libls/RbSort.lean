import Mathlib.Tactic
import Mathlib.Data.List.Sort
import Libls.RbMap

/-! # Sorting with a red-black tree: `benchmark/prio_queue/rbtree.c`

The program inserts nodes with random numbers and then walks through the tree, erasing each node after
it has fetched the next one, and freeing it; it prints `fault` if a number is greater than the one before,
or if it has not met all nodes.  The memory of a freed node may hold anything.

The tree is in descending order, and nodes with equal numbers stay in the order in which they came. -/

namespace Libls.Rb

open LinkedTree

variable {ι : Type} [DecidableEq ι]

/-! ### The program -/

omit [DecidableEq ι] in
def numCmp (num : ι → ℤ) (node node2 : ι) : ℤ :=
  if num node < num node2 then -1 else if num node > num node2 then 1 else 0

omit [DecidableEq ι] in
/-- One pass of the loop of `my_rb_insert` over `parent` and `new`. -/
def myRbInsertStep (num : ι → ℤ) (node : ι) (root : RbRoot ι) (p : Option ι × Option (ι × Dir)) :
    Iter (Option ι × Option (ι × Dir)) (Option ι × Option (ι × Dir)) :=
  match getLink p.2 root with
  | none => .done p
  | some parent =>
      let rc := numCmp num node parent
      if rc ≤ 0 then .next (some parent, some (parent, .right))
      else .next (some parent, some (parent, .left))

def myRbInsert (num : ι → ℤ) (node : ι) (root : RbRoot ι) : Prog (RbRoot ι) := do
  let (parent, new) ← Prog.iterate (fun p => return myRbInsertStep num node root p) (none, none)
  rbInsertColor node (rbLinkNode node parent new root)

/-- The variables of the second loop of `main`, with the nodes that it has erased and whether it has
printed `fault`. -/
structure SortLoop (ι : Type) where
  node : Option ι
  last : ℤ
  visited : List ι
  fault : Bool
  root : RbRoot ι

/-- One pass; the memory of the freed node holds `junk` then. -/
def sortStep (num : ι → ℤ) (junk : ι → Cell ι RbColor) (p : SortLoop ι) : Prog (Iter (SortLoop ι) (SortLoop ι)) :=
  match p.node with
  | none => return .done p
  | some node => do
      let next ← rbNext node p.root
      let fault := p.fault || decide (p.last < num node)
      let root ← rbErase node p.root
      return .next ⟨next, num node, p.visited ++ [node], fault, root.write node (junk node)⟩

/-- `main` of the benchmark for `n`, where the calls of `malloc` have given `nodes`. -/
def sortMain (n : ℤ) (nodes : List ι) (num : ι → ℤ) (junk mem : ι → Cell ι RbColor) : Prog (SortLoop ι) := do
  let root ← nodes.foldlM (fun root node => myRbInsert num node root) (rbRoot mem)
  let node ← rbFirst root
  let first ← node
  let p ← Prog.iterate (sortStep num junk) ⟨node, num first, [], false, root⟩
  return { p with fault := p.fault || decide ((p.visited.length : ℤ) ≠ n - 1) }

/-! ### Insertion -/

/-- Behind all nodes with the same number or a greater one. -/
def insertNum (num : ι → ℤ) (L : List ι) (node : ι) : List ι :=
  L.orderedInsert (fun a b => num b < num a) node

variable {num : ι → ℤ} {junk mem : ι → Cell ι RbColor} {s : RbRoot ι} {t : LTree ι RbColor}
  {ctx : List (Frame ι RbColor)} {node x : ι} {A B L : List ι}

omit [DecidableEq ι] in
theorem numCmp_le_iff : numCmp num node x ≤ 0 ↔ num node ≤ num x := by
  unfold numCmp
  split
  · constructor <;> intro <;> omega
  · split
    · constructor <;> intro <;> omega
    · constructor <;> intro <;> omega

omit [DecidableEq ι] in
theorem insertNum_eq (hA : ∀ a ∈ A, num node ≤ num a) (hB : ∀ b ∈ B, num b < num node) :
    insertNum num (A ++ B) node = A ++ node :: B := by
  induction A with
  | nil =>
      cases B with
      | nil => rfl
      | cons b B => exact List.orderedInsert_cons_of_le _ _ (hB b (by simp))
  | cons a A ih =>
      have ha : ¬ num a < num node := not_lt.mpr (hA a (by simp))
      have hA' : ∀ a ∈ A, num node ≤ num a := fun b hb => hA b (by simp [hb])
      rw [insertNum, List.cons_append, List.orderedInsert_cons, if_neg ha]
      exact congrArg (a :: ·) (ih hA')

omit [DecidableEq ι] in
theorem insertNum_perm : (insertNum num L node).Perm (node :: L) := List.perm_orderedInsert _ _ _

omit [DecidableEq ι] in
theorem insertNum_sorted (h : L.Pairwise fun a b => num b ≤ num a) :
    (insertNum num L node).Pairwise fun a b => num b ≤ num a := by
  induction L with
  | nil => exact List.pairwise_singleton _ _
  | cons a L ih =>
      obtain ⟨ha, hL⟩ := List.pairwise_cons.mp h
      unfold insertNum
      rw [List.orderedInsert_cons]
      split
      · rename_i hlt
        apply List.pairwise_cons.mpr ⟨fun b hb => ?_, h⟩
        obtain rfl | hb := List.mem_cons.mp hb
        · exact hlt.le
        · exact (ha b hb).trans hlt.le
      · rename_i hge
        apply List.pairwise_cons.mpr ⟨fun b hb => ?_, ih hL⟩
        obtain rfl | hb := (List.mem_orderedInsert _).mp hb
        · exact not_lt.mp hge
        · exact ha b hb

omit [DecidableEq ι] in
/-- The loop of `my_rb_insert` ends at the place behind the nodes with numbers that are not smaller. -/
theorem myRbInsert_place (h : Focus s ctx t) (hs : t.toList.Pairwise fun a b => num b ≤ num a)
    (hb : ∀ a ∈ before ctx, num node ≤ num a) (ha : ∀ a ∈ after ctx, num a < num node) :
    ∃ ctx', fill ctx' .nil = fill ctx t ∧
      Prog.Returns (Prog.iterate (fun p => return myRbInsertStep num node s p) (above ctx, slot ctx))
        (above ctx', slot ctx') ∧
      (∀ a ∈ before ctx', num node ≤ num a) ∧ ∀ a ∈ after ctx', num a < num node := by
  induction t generalizing ctx with
  | nil =>
      refine ⟨ctx, rfl, Prog.Returns.iterate_done (Prog.returns_pure.mpr ?_), hb, ha⟩
      rw [myRbInsertStep, getLink_slot h]
      rfl
  | node l x c r ihl ihr =>
      rw [LTree.toList_node, List.pairwise_append, List.pairwise_cons] at hs
      obtain ⟨hsl, ⟨hxr, hsr⟩, hlx⟩ := hs
      have hstep : myRbInsertStep num node s (above ctx, slot ctx) = if numCmp num node x ≤ 0
          then .next (some x, some (x, .right)) else .next (some x, some (x, .left)) := by
        rw [myRbInsertStep, getLink_slot h]
        rfl
      by_cases hle : num node ≤ num x
      · rw [if_pos (numCmp_le_iff.mpr hle)] at hstep
        have hf : Focus s (⟨.right, x, c, l⟩ :: ctx) r := Focus.cons_iff.mpr h
        obtain ⟨ctx', hfill, hret, hends⟩ := ihr hf hsr (fun a ha' => by
            simp only [before, List.mem_append, List.mem_singleton] at ha'
            obtain ha' | ha' | rfl := ha'
            · exact hb a ha'
            · exact hle.trans (hlx a ha' x (by simp))
            · exact hle) ha
        exact ⟨ctx', hfill, Prog.Returns.iterate_next (Prog.returns_pure.mpr hstep) hret, hends⟩
      · rw [if_neg fun e => hle (numCmp_le_iff.mp e)] at hstep
        have hf : Focus s (⟨.left, x, c, r⟩ :: ctx) l := Focus.cons_iff.mpr h
        obtain ⟨ctx', hfill, hret, hends⟩ := ihl hf hsl hb fun a ha' => by
            simp only [after, List.cons_append, List.mem_cons, List.mem_append] at ha'
            obtain rfl | ha' | ha' := ha'
            · exact not_le.mp hle
            · exact (hxr a ha').trans_lt (not_le.mp hle)
            · exact ha a ha'
        exact ⟨ctx', hfill, Prog.Returns.iterate_next (Prog.returns_pure.mpr hstep) hret, hends⟩

/-- `my_rb_insert` -/
theorem myRbInsert_returns (h : Holds s L) (hs : L.Pairwise fun a b => num b ≤ num a) (hnode : node ∉ L) :
    ∃ s', Prog.Returns (myRbInsert num node s) s' ∧ Holds s' (insertNum num L node) := by
  obtain ⟨t, hf, hrb, rfl⟩ := h
  obtain ⟨ctx, hfill, hret, hb, ha⟩ := @myRbInsert_place _ num _ _ _ node hf hs (by simp [before]) (by simp [after])
  change fill ctx .nil = t at hfill
  subst hfill
  have hctx : node ∉ ctxNodes ctx := fun hm => hnode (mem_fill.mpr (.inr hm))
  obtain ⟨s', hs', hH, -⟩ := rbInsertColor_holds (Focus.fill_iff.mpr hf) hrb hctx
  refine ⟨s', Prog.returns_bind.mpr ⟨_, hret, hs'⟩, ?_⟩
  rw [toList_fill, LTree.toList_nil, List.append_nil, insertNum_eq hb ha]
  exact hH

/-- The first loop of `main`. -/
theorem sortInsert_returns (nodes : List ι) (h : Holds s L) (hs : L.Pairwise fun a b => num b ≤ num a)
    (hnd : (nodes ++ L).Nodup) :
    ∃ s', Prog.Returns (nodes.foldlM (fun root node => myRbInsert num node root) s) s' ∧
      Holds s' (nodes.foldl (insertNum num) L) := by
  induction nodes generalizing s L with
  | nil => exact ⟨s, Prog.returns_pure.mpr rfl, h⟩
  | cons node nodes ih =>
      rw [List.cons_append, List.nodup_cons] at hnd
      have hnode : node ∉ L := fun hm => hnd.1 (List.mem_append_right _ hm)
      obtain ⟨s₁, hs₁, h₁⟩ := myRbInsert_returns h hs hnode
      have hnd' : (nodes ++ insertNum num L node).Nodup := by
        have hperm : (insertNum num L node).Perm (node :: L) := insertNum_perm
        rw [(hperm.append_left nodes).nodup_iff, List.nodup_middle, List.nodup_cons]
        exact hnd
      obtain ⟨s', hs', h'⟩ := ih h₁ (insertNum_sorted hs) hnd'
      refine ⟨s', ?_, h'⟩
      rw [List.foldlM_cons]
      exact Prog.returns_bind.mpr ⟨s₁, hs₁, hs'⟩

/-! ### The walk -/

/-- `rb_erase` of the first node. -/
theorem rbErase_first (h : Holds s (x :: B)) : ∃ s', Prog.Returns (rbNext x s) B.head? ∧
    Prog.Returns (rbErase x s) s' ∧ Holds s' B := by
  obtain ⟨t, hf, hrb, hL⟩ := h
  have hnext := rbNext_split hf (A := []) hL
  have hmem : x ∈ t.toList := by
    rw [hL]
    simp
  obtain ⟨ctx, l, c, r, rfl, hfx⟩ := hf.exists_of_mem hmem
  have hnd := hf.nodup
  obtain ⟨s', hs', hH, -⟩ := rbErase_holds hfx hrb
  refine ⟨s', hnext, hs', ?_⟩
  have hsplit : (before ctx ++ l.toList) ++ x :: (r.toList ++ after ctx) = [] ++ x :: B := by
    rw [List.nil_append, ← hL, toList_fill]
    simp
  rw [hL, ← List.nil_append (x :: B), ← hsplit, List.nodup_middle, List.nodup_cons, List.mem_append,
    not_or] at hnd
  obtain ⟨hA, -, hB⟩ := (List.append_cons_inj_of_notMem hnd.1.1 hnd.1.2).mp hsplit
  have hrest : before ctx ++ (l.toList ++ r.toList) ++ after ctx = B := by
    rw [← hB, ← List.nil_append (r.toList ++ after ctx), ← hA]
    simp
  rwa [hrest] at hH

omit [DecidableEq ι] in
theorem Holds.congr {s' : RbRoot ι} (h : Holds s L) (hroot : s'.root = s.root)
    (hm : ∀ x ∈ L, s'.mem x = s.mem x) : Holds s' L := by
  obtain ⟨t, hf, hrb, rfl⟩ := h
  exact ⟨t, hf.congr hroot fun x hx => hm x (by simpa using hx), hrb, rfl⟩

omit [DecidableEq ι] in
theorem Holds.nodup (h : Holds s L) : L.Nodup := by
  obtain ⟨t, hf, -, rfl⟩ := h
  exact hf.nodup

/-- The second loop of `main`. -/
theorem sortLoop_returns {last : ℤ} {fault : Bool} (h : Holds s B) (hs : B.Pairwise fun a b => num b ≤ num a)
    (hlast : ∀ b ∈ B, num b ≤ last) :
    ∃ p, Prog.Returns (Prog.iterate (sortStep num junk) ⟨B.head?, last, A, fault, s⟩) p ∧ p.visited = A ++ B ∧
      p.fault = fault ∧ p.root.root = none := by
  induction B generalizing s A last with
  | nil =>
      refine ⟨_, Prog.Returns.iterate_done (Prog.returns_pure.mpr rfl), (List.append_nil _).symm, rfl, ?_⟩
      obtain ⟨t, hf, -, hL⟩ := h
      cases t with
      | nil => exact hf.ctx_linked
      | node l x c r => simp at hL
  | cons x B ih =>
      obtain ⟨hx, hB⟩ := List.pairwise_cons.mp hs
      obtain ⟨s', hnext, herase, h'⟩ := rbErase_first h
      have hxB : x ∉ B := (List.nodup_cons.mp h.nodup).1
      have hfree : Holds (s'.write x (junk x)) B := h'.congr rfl fun y hy => by
        rw [Store.write_mem, if_neg fun e : y = x => hxB (e ▸ hy)]
      obtain ⟨p, hp, hvisited, hfault, hroot⟩ := @ih (s'.write x (junk x)) (A ++ [x]) (num x) hfree hB hx
      have hnot : decide (last < num x) = false := decide_eq_false (not_lt.mpr (hlast x (by simp)))
      refine ⟨p, Prog.Returns.iterate_next ?_ hp, ?_, hfault, hroot⟩
      · refine Prog.returns_bind.mpr ⟨B.head?, hnext, Prog.returns_bind.mpr ⟨s', herase, ?_⟩⟩
        rw [Prog.returns_pure, hnot, Bool.or_false]
      · rw [hvisited, List.append_assoc]
        rfl

/-- **The benchmark sorts.**  If at least one node has been allocated, the program ends; it erases all nodes,
from the greatest number to the smallest and nodes with equal numbers in the order of their insertion; and it
prints `fault` only if fewer nodes have been allocated than it was asked for. -/
theorem rbSort_main (n : ℤ) (nodes : List ι) (num : ι → ℤ) (junk mem : ι → Cell ι RbColor) (hnd : nodes.Nodup)
    (hne : nodes ≠ []) :
    ∃ p, Prog.Returns (sortMain n nodes num junk mem) p ∧ p.visited = nodes.foldl (insertNum num) [] ∧
      p.visited.Perm nodes ∧ p.visited.Pairwise (fun a b => num b ≤ num a) ∧ p.root.root = none ∧
      (p.fault = true ↔ (nodes.length : ℤ) ≠ n - 1) := by
  have hsorted : ∀ (nodes L : List ι), L.Pairwise (fun a b => num b ≤ num a) →
      (nodes.foldl (insertNum num) L).Pairwise (fun a b => num b ≤ num a) ∧
        (nodes.foldl (insertNum num) L).Perm (nodes ++ L) := by
    intro nodes
    induction nodes with
    | nil => exact fun L hL => ⟨hL, .refl _⟩
    | cons x nodes ih =>
        intro L hL
        obtain ⟨hs, hp⟩ := ih _ (insertNum_sorted hL)
        exact ⟨hs, hp.trans ((insertNum_perm.append_left nodes).trans List.perm_middle)⟩
  obtain ⟨hs, hp⟩ := hsorted nodes [] .nil
  rw [List.append_nil] at hp
  have hempty : Holds (rbRoot mem) ([] : List ι) := ⟨.nil, Focus.empty rfl, ⟨rfl, 0, rfl⟩, rfl⟩
  obtain ⟨s, hins, hH⟩ := @sortInsert_returns _ _ num _ _ nodes hempty .nil (by rwa [List.append_nil])
  obtain ⟨x, B, hL⟩ : ∃ x B, nodes.foldl (insertNum num) [] = x :: B := by
    cases hL : nodes.foldl (insertNum num) [] with
    | nil =>
        rw [hL] at hp
        exact absurd hp.nil_eq.symm hne
    | cons x B => exact ⟨x, B, rfl⟩
  have hfirst : Prog.Returns (rbFirst s) (some x) := by
    obtain ⟨t, hf, -, ht⟩ := id hH
    have := rbFirst_returns hf
    rwa [ht, hL] at this
  rw [hL] at hH hs hp ⊢
  have hlast : ∀ b ∈ x :: B, num b ≤ num x := fun b hb => by
    obtain rfl | hb := List.mem_cons.mp hb
    · exact le_rfl
    · exact (List.pairwise_cons.mp hs).1 b hb
  obtain ⟨p, hloop, hvisited, hfault, hroot⟩ := @sortLoop_returns ι _ num junk s [] (x :: B) (num x) false hH hs hlast
  rw [List.nil_append] at hvisited
  refine ⟨{ p with fault := p.fault || decide ((p.visited.length : ℤ) ≠ n - 1) }, ?_, hvisited, ?_, ?_, hroot, ?_⟩
  · exact Prog.returns_bind.mpr ⟨s, hins, Prog.returns_bind.mpr ⟨some x, hfirst,
      Prog.returns_bind.mpr ⟨x, Prog.returns_lift.mpr rfl,
        Prog.returns_bind.mpr ⟨p, hloop, Prog.returns_pure.mpr rfl⟩⟩⟩⟩
  · rw [hvisited]
    exact hp
  · rw [hvisited]
    exact hs
  · simp [hfault, hvisited, ← hp.length_eq]

/-- Three nodes, two of them with the number 5. -/
theorem rbSort_main_three : ∃ p, Prog.Returns (sortMain 4 [1, 2, 3] (fun x : ℕ => if x = 2 then 8 else 5)
    (fun _ => ⟨none, .red, none, none⟩) fun _ => ⟨none, .red, none, none⟩) p ∧ p.visited = [2, 1, 3] ∧
      ¬ p.fault = true := by
  obtain ⟨p, hp, hvisited, -, -, -, hfault⟩ := rbSort_main 4 [1, 2, 3] (fun x : ℕ => if x = 2 then 8 else 5)
    (fun _ => ⟨none, .red, none, none⟩) (fun _ => ⟨none, .red, none, none⟩) (by decide) (by decide)
  refine ⟨p, hp, hvisited, fun h => ?_⟩
  exact (hfault.mp h) rfl

end Libls.Rb
