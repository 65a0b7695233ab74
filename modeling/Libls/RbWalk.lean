import Mathlib.Tactic
import Libls.RbMap

/-! # Replacing nodes, and walking backwards: `rb_replace_node`, `rb_last` and `rb_prev`

`RbReplacing` are the states of a program with one keyed tree that also replaces nodes by others with the
same key.  In all of them the tree is the map that the calls amount to (`rb_replacing_map`), and the walks
in both directions meet the same nodes. -/

namespace Libls.Rb

open LinkedTree

variable {ι κ : Type} [DecidableEq ι]

/-! ### The functions -/

omit [DecidableEq ι] in
/-- `rb_last` -/
def rbLast (root : RbRoot ι) : Prog (Option ι) :=
  match root.root with
  | none => return none
  | some n => do return some (← extreme .right n root)

/-- `rb_prev` -/
def rbPrev (node : ι) (s : RbRoot ι) : Prog (Option ι) :=
  if rbEmptyNode node s then return none
  else
    match (s.mem node).left with
    | some left => do return some (← extreme .right left s)
    | none => climb .left node s

/-- One pass of `for (pos = rb_last(root); pos; pos = rb_prev(pos))`, with the nodes visited. -/
def rbForEachBackStep (root : RbRoot ι) (p : Option ι × List ι) :
    Prog (Iter (Option ι × List ι) (List ι)) :=
  match p.1 with
  | none => return .done p.2
  | some pos => do return .next (← rbPrev pos root, p.2 ++ [pos])

def rbForEachBack (root : RbRoot ι) : Prog (List ι) := do
  let pos ← rbLast root
  Prog.iterate (rbForEachBackStep root) (pos, [])

/-- `rb_replace_node` -/
def rbReplaceNode (victim new : ι) (s : RbRoot ι) : RbRoot ι :=
  let parent := rbParent victim s
  let s := rbChangeChild victim (some new) parent s
  let s := s.setParentOf (s.mem victim).left (some new)
  let s := s.setParentOf (s.mem victim).right (some new)
  s.write new (s.mem victim)

/-! ### Backwards -/

variable {s s' : RbRoot ι} {t l r : LTree ι RbColor} {ctx : List (Frame ι RbColor)} {x n : ι} {c : RbColor}
  {A B : List ι}

omit [DecidableEq ι] in
theorem rbLast_returns (h : Focus s [] t) : Prog.Returns (rbLast s) t.toList.reverse.head? := by
  have hroot : s.root = t.top := h.ctx_linked
  unfold rbLast
  rw [hroot]
  cases t with
  | nil => exact Prog.returns_pure.mpr rfl
  | node l x c r =>
      have hl : Linked s.mem none (.make .right r x c l) := h.linked
      obtain ⟨y, hy, hhead⟩ : ∃ y, Prog.Returns (extreme .right x s) y ∧
          (LTree.node l x c r).toList.reverse.head? = some y := by
        have hl' : Linked s.mem none (.make .left l x c r) := h.linked
        obtain ⟨ctx, u, y, c', e, hd, hy⟩ := Linked.extreme (d := .right) hl'
        refine ⟨y, hy, ?_⟩
        have hL : (LTree.node l x c r).toList = before ctx ++ (u.toList ++ [y]) := by
          change LTree.node l x c r = _ at e
          rw [e, toList_fill, after_eq_nil hd]
          simp [LTree.make, Dir.other]
        simp [hL]
      rw [hhead]
      exact Prog.returns_bind.mpr ⟨y, hy, Prog.returns_pure.mpr rfl⟩

theorem rbPrev_split (h : Focus s [] t) (hL : t.toList.reverse = A ++ x :: B) :
    Prog.Returns (rbPrev x s) B.head? := by
  have hmem : x ∈ t.toList := by
    rw [← List.mem_reverse, hL]
    simp
  obtain ⟨ctx, l, c, r, -, hf⟩ := h.exists_of_mem hmem
  have hx : s.mem x = ⟨above ctx, c, l.top, r.top⟩ := hf.linked.1
  have hempty : rbEmptyNode x s = false := by
    have hne : above ctx ≠ some x := fun e => hf.apart x (by simp) (above_mem e)
    simp [rbEmptyNode, rbParent, hx, hne]
  have hprev : rbPrev x s = neighbour .left x s := by
    unfold rbPrev
    rw [hempty]
    rfl
  rw [hprev]
  exact h.neighbour_split (d := .left) hL

/-- The loop over `rb_last` and `rb_prev` meets the nodes in reverse order. -/
theorem rbForEachBack_returns (h : Focus s [] t) : Prog.Returns (rbForEachBack s) t.toList.reverse := by
  refine Prog.returns_bind.mpr ⟨_, rbLast_returns h, ?_⟩
  refine Prog.Returns.iterate_walk (Prog.returns_pure.mpr rfl) fun A x B hL => ?_
  exact Prog.returns_bind.mpr ⟨_, rbPrev_split h hL, Prog.returns_pure.mpr rfl⟩

/-! ### Replacement -/

/-- The new node takes the place and the colour of the victim. -/
theorem rbReplaceNode_focus (h : Focus s ctx (.node l x c r)) (hn : n ∉ (fill ctx (.node l x c r)).toList) :
    Focus (rbReplaceNode x n s) ctx (.node l n c r) := by
  simp only [mem_fill, LTree.toList_node, List.mem_append, List.mem_cons, not_or] at hn
  obtain ⟨⟨hnl, hnx, hnr⟩, hnc⟩ := hn
  have hx : s.mem x = ⟨above ctx, c, l.top, r.top⟩ := h.linked.1
  have hnd := h.nodup
  simp only [LTree.toList_node, List.nodup_append', List.nodup_cons, List.disjoint_left, List.mem_cons,
    not_or] at hnd
  have hpx : above ctx ≠ some x := fun e => h.apart x (by simp) (above_mem e)
  have hpn : above ctx ≠ some n := fun e => hnc (above_mem e)
  have hlx : l.top ≠ some x := fun e => (hnd.2.2 (LTree.top_mem e)).1 rfl
  have hrx : r.top ≠ some x := fun e => hnd.2.1.1 (LTree.top_mem e)
  have hln : l.top ≠ some n := fun e => hnl (LTree.top_mem e)
  have hrn : r.top ≠ some n := fun e => hnr (LTree.top_mem e)
  let s₁ := s.replaceChild (above ctx) x (some n)
  have h₁ : s₁.mem x = s.mem x := s.replaceChild_mem_of_ne x hpx x (some n)
  have h₂ : (s₁.setParentOf l.top (some n)).mem x = s.mem x := by
    rw [Store.setParentOf_mem, if_neg hlx, h₁]
  have h₃ : ((s₁.setParentOf l.top (some n)).setParentOf r.top (some n)).mem x = s.mem x := by
    rw [Store.setParentOf_mem, if_neg hrx, h₂]
  have heq : rbReplaceNode x n s =
      ((s₁.setParentOf l.top (some n)).setParentOf r.top (some n)).write n (s.mem x) := by
    rw [← h₃]
    have e₁ : rbChangeChild x (some n) (rbParent x s) s = s₁ := by rw [rbParent, hx]; rfl
    have e₂ : (s₁.mem x).left = l.top := by rw [h₁, hx]
    have e₃ : ((s₁.setParentOf l.top (some n)).mem x).right = r.top := by rw [h₂, hx]
    rw [rbReplaceNode]
    simp only [e₁, e₂, e₃]
  have hsub := h.substitute (d := .left) ⟨hnl, hnr, hnc⟩
  rw [Store.write_replaceChild _ _ _ hpn] at hsub
  refine Focus.congr hsub ?_ fun z _ => ?_
  · rw [heq]
    simp [s₁]
  · rw [heq, Store.write_mem]
    by_cases hz : z = n
    · subst hz
      simp [hln, hrn]
    · simp [hz, s₁]

/-! ### Runs -/

variable [LinearOrder κ] {keyOf : ι → κ} {residents : κ → Option ι} {cmp : κ → κ → ℤ} {L : List ι} {victim new : ι}

omit [DecidableEq ι] [LinearOrder κ] in
theorem mem_without_or_middle : n ∈ A ++ B ∨ n = x ↔ n ∈ A ++ x :: B := by
  rw [List.mem_append, List.mem_append, List.mem_cons]
  tauto

/-- `rb_replace_node` of a resident by a node with the same key. -/
theorem KeyedTree.replace (h : KeyedTree s keyOf residents L) (hvictim : victim ∈ L) (hnew : new ∉ L)
    (hkey : keyOf new = keyOf victim) :
    ∃ A B, L = A ++ victim :: B ∧ KeyedTree (rbReplaceNode victim new s) keyOf
      (Function.update residents (keyOf victim) (some new)) (A ++ new :: B) := by
  obtain ⟨t, hf, hrb, rfl⟩ := h.holds
  obtain ⟨ctx, l, c, r, rfl, hfx⟩ := hf.exists_of_mem hvictim
  have hL : ∀ z, (fill ctx (.node l z c r)).toList = (before ctx ++ l.toList) ++ z :: (r.toList ++ after ctx) := by
    intro z
    rw [toList_fill]
    simp
  have hf' := rbReplaceNode_focus hfx hnew
  have hnd := hf.nodup
  have hs := h.sorted
  rw [hL, List.nodup_middle, List.nodup_cons] at hnd
  rw [hL, List.pairwise_append, List.pairwise_cons] at hs
  obtain ⟨hA, ⟨hxB, hB⟩, hAB⟩ := hs
  refine ⟨_, _, hL victim, ?_, fun k m => ?_, ?_⟩
  · apply List.pairwise_append.mpr ⟨hA, List.pairwise_cons.mpr ⟨?_, hB⟩, fun a ha b hb => ?_⟩
    · rw [hkey]
      exact hxB
    · obtain rfl | hb := List.mem_cons.mp hb
      · rw [hkey]
        exact hAB a ha victim (by simp)
      · exact hAB a ha b (by simp [hb])
  · -- the only node with the key of the victim is the new one
    have hres := h.resident k m
    rw [hL, ← mem_without_or_middle] at hres
    by_cases hk : k = keyOf victim
    · subst hk
      rw [Function.update_self]
      constructor
      · rintro ⟨⟩
        exact ⟨by simp, hkey⟩
      · rintro ⟨hm, hkm⟩
        obtain hm | rfl := mem_without_or_middle.mpr hm
        · have hboth : some m = some victim := ((h.resident_iff m).mpr (by
            rw [hL]
            exact mem_without_or_middle.mp (.inl hm))).symm.trans (by
              rw [hkm]
              exact (h.resident_iff victim).mpr hvictim)
          exact absurd hm (Option.some.inj hboth ▸ hnd.1)
        · rfl
    · rw [Function.update_of_ne hk, hres, ← mem_without_or_middle]
      constructor
      · rintro ⟨hm | rfl, hkm⟩
        · exact ⟨.inl hm, hkm⟩
        · exact absurd hkm.symm hk
      · rintro ⟨hm | rfl, hkm⟩
        · exact ⟨.inl hm, hkm⟩
        · exact absurd (hkm.symm.trans hkey) hk
  · obtain ⟨m, hctx, hok, hred⟩ := of_isRb_fill hrb
    have hok' : RbOk (.node l new c r) m := by cases c <;> exact hok
    rw [← hL]
    exact Holds.of_focus hf' hctx hok' hred

/-- The states of a program with one keyed tree in which it also replaces nodes. -/
inductive RbReplacing (cmp : κ → κ → ℤ) : RbRoot ι → (ι → κ) → (κ → Option ι) → Prop
  | root (mem : ι → Cell ι RbColor) (keyOf : ι → κ) : RbReplacing cmp (rbRoot mem) keyOf fun _ => none
  /-- The program writes to nodes that are not in the tree. -/
  | write {s s' : RbRoot ι} {keyOf keyOf' : ι → κ} {residents : κ → Option ι}
      (h : RbReplacing cmp s keyOf residents) (hroot : s'.root = s.root)
      (hsame : ∀ k n, residents k = some n → s'.mem n = s.mem n ∧ keyOf' n = keyOf n) :
      RbReplacing cmp s' keyOf' residents
  | insert {s s' : RbRoot ι} {keyOf : ι → κ} {residents : κ → Option ι} {node : ι} {r : Option ι}
      (h : RbReplacing cmp s keyOf residents) (hnode : ∀ k, residents k ≠ some node)
      (hrun : Prog.Returns (rbInsert (fun k x => cmp k (keyOf x)) (keyOf node) node s) (r, s')) :
      RbReplacing cmp s' keyOf (insertResident residents (keyOf node) node)
  | erase {s s' : RbRoot ι} {keyOf : ι → κ} {residents : κ → Option ι} {node : ι}
      (h : RbReplacing cmp s keyOf residents) (hnode : residents (keyOf node) = some node)
      (hrun : Prog.Returns (rbErase node s) s') :
      RbReplacing cmp s' keyOf (Function.update residents (keyOf node) none)
  | replace {s : RbRoot ι} {keyOf : ι → κ} {residents : κ → Option ι} {victim new : ι}
      (h : RbReplacing cmp s keyOf residents) (hvictim : residents (keyOf victim) = some victim)
      (hnew : ∀ k, residents k ≠ some new) (hkey : keyOf new = keyOf victim) :
      RbReplacing cmp (rbReplaceNode victim new s) keyOf (Function.update residents (keyOf victim) (some new))

theorem RbReplacing.keyed (hcmp : KeyCmp cmp) (h : RbReplacing cmp s keyOf residents) :
    ∃ L, KeyedTree s keyOf residents L := by
  induction h with
  | root mem keyOf => exact ⟨[], .nil, by simp, .nil, Focus.empty rfl, ⟨rfl, 0, rfl⟩, rfl⟩
  | write _ hroot hsame ih =>
      obtain ⟨L, hL⟩ := ih
      exact ⟨L, hL.write hroot hsame⟩
  | @insert s s' keyOf residents node r _ hnode hrun ih =>
      obtain ⟨L, hL⟩ := ih
      have hnot : node ∉ L := fun hm => hnode _ ((hL.resident_iff node).mpr hm)
      obtain ⟨s₁, L', hret, -, hL'⟩ := hL.insert hcmp hnot
      obtain ⟨-, rfl⟩ := Prod.mk.inj (hrun.unique hret)
      exact ⟨L', hL'⟩
  | @erase s s' keyOf residents node _ hnode hrun ih =>
      obtain ⟨L, hL⟩ := ih
      obtain ⟨s₁, L', hret, hL'⟩ := hL.erase ((hL.resident_iff node).mp hnode)
      obtain rfl := hrun.unique hret
      exact ⟨L', hL'⟩
  | @replace s keyOf residents victim new _ hvictim hnew hkey ih =>
      obtain ⟨L, hL⟩ := ih
      have hnot : new ∉ L := fun hm => hnew _ ((hL.resident_iff new).mpr hm)
      obtain ⟨A, B, -, hL'⟩ := hL.replace ((hL.resident_iff victim).mp hvictim) hnot hkey
      exact ⟨_, hL'⟩

/-- A node that is not a resident can be inserted. -/
theorem RbReplacing.exists_insert (hcmp : KeyCmp cmp) (h : RbReplacing cmp s keyOf residents) (node : ι)
    (hnode : ∀ k, residents k ≠ some node) : ∃ s',
      Prog.Returns (rbInsert (fun k x => cmp k (keyOf x)) (keyOf node) node s) (residents (keyOf node), s') ∧
      RbReplacing cmp s' keyOf (insertResident residents (keyOf node) node) := by
  obtain ⟨L, hL⟩ := h.keyed hcmp
  obtain ⟨s', -, hret, -⟩ := hL.insert hcmp fun hm => hnode _ ((hL.resident_iff node).mpr hm)
  exact ⟨s', hret, h.insert hnode hret⟩

/-- **A keyed tree with replacements is still a finite map.**  In every state that a program reaches, each
`rb_replace_node` of a resident by a node with the same key puts the new node into the place of the old one
in the sequence and touches nothing else there; `rb_find` returns what the map has for the key; and the
walks with `rb_next` and with `rb_prev` meet exactly the residents, in ascending and in descending order. -/
theorem rb_replacing_map (hcmp : KeyCmp cmp) (h : RbReplacing cmp s keyOf residents) :
    (∀ key, Prog.Returns (rbFind (fun k x => cmp k (keyOf x)) key s) (residents key)) ∧
      (∃ L, Prog.Returns (rbForEach s) L ∧ Prog.Returns (rbForEachBack s) L.reverse ∧
        L.Pairwise (fun a b => keyOf a < keyOf b) ∧ ∀ k n, residents k = some n ↔ n ∈ L ∧ keyOf n = k) ∧
      ∀ victim new, residents (keyOf victim) = some victim → (∀ k, residents k ≠ some new) →
        keyOf new = keyOf victim →
        RbReplacing cmp (rbReplaceNode victim new s) keyOf
            (Function.update residents (keyOf victim) (some new)) ∧
          ∃ A B, Prog.Returns (rbForEach s) (A ++ victim :: B) ∧
            Prog.Returns (rbForEach (rbReplaceNode victim new s)) (A ++ new :: B) := by
  obtain ⟨L, hL⟩ := h.keyed hcmp
  obtain ⟨t, hf, -, rfl⟩ := id hL.holds
  refine ⟨fun key => ?_, ⟨t.toList, rbForEach_returns hf, rbForEachBack_returns hf, hL.sorted, hL.resident⟩,
    fun victim new hvictim hnew hkey => ⟨h.replace hvictim hnew hkey, ?_⟩⟩
  · obtain ⟨r, hret, hr⟩ := @rbFind_returns _ _ _ _ _ key _ _ _ (hcmp.orders keyOf) hf.linked hL.sorted
    have hroot : s.root = t.top := hf.ctx_linked
    have heq : r = residents key := by
      apply Option.ext fun n => ?_
      rw [hr, hL.resident]
    unfold rbFind
    rw [hroot, ← heq]
    exact hret
  · have hnot : new ∉ t.toList := fun hm => hnew _ ((hL.resident_iff new).mpr hm)
    obtain ⟨A, B, hAB, hL'⟩ := hL.replace ((hL.resident_iff victim).mp hvictim) hnot hkey
    obtain ⟨t', hf', -, ht'⟩ := hL'.holds
    refine ⟨A, B, ?_, ?_⟩
    · rw [← hAB]
      exact rbForEach_returns hf
    · rw [← ht']
      exact rbForEach_returns hf'

/-- The nodes 5, 7 and 9 are inserted, and 7 is replaced by the node 17, which has the same key. -/
theorem rb_replacing_map_three : ∃ s : RbRoot ℕ,
    Prog.Returns (rbFind (fun (k x : ℕ) => (k : ℤ) - ((x % 10 : ℕ) : ℤ)) 7 s) (some 17) ∧
      ∃ L, Prog.Returns (rbForEach s) L ∧ Prog.Returns (rbForEachBack s) L.reverse ∧
        L.Pairwise (fun a b => a % 10 < b % 10) ∧ ∀ n, n ∈ L ↔ n = 5 ∨ n = 17 ∨ n = 9 := by
  have h₀ : RbReplacing (fun a b : ℕ => (a : ℤ) - b) (rbRoot fun _ : ℕ => ⟨none, .red, none, none⟩)
    (fun x : ℕ => x % 10) fun _ => none := .root _ _
  obtain ⟨s₁, -, h₁⟩ := h₀.exists_insert keyCmp_sub 5 (by simp)
  rw [insertResident_of_none rfl] at h₁
  obtain ⟨s₂, -, h₂⟩ := h₁.exists_insert keyCmp_sub 7 (by intro k; split_ifs <;> simp)
  rw [insertResident_of_none rfl] at h₂
  obtain ⟨s₃, -, h₃⟩ := h₂.exists_insert keyCmp_sub 9 (by intro k; split_ifs <;> simp)
  rw [insertResident_of_none rfl] at h₃
  obtain ⟨h₄, -⟩ := (rb_replacing_map keyCmp_sub h₃).2.2 7 17 rfl (by intro k; split_ifs <;> simp) rfl
  obtain ⟨hfind, ⟨L, hL, hback, hsorted, hmem⟩, -⟩ := rb_replacing_map keyCmp_sub h₄
  refine ⟨_, hfind 7, L, hL, hback, hsorted, fun n => ⟨fun hn => ?_, ?_⟩⟩
  · have hres := (hmem (n % 10) n).mpr ⟨hn, rfl⟩
    rw [Function.update_apply] at hres
    split_ifs at hres <;> grind
  · rintro (rfl | rfl | rfl)
    · exact ((hmem 5 5).mp rfl).1
    · exact ((hmem 7 17).mp rfl).1
    · exact ((hmem 9 9).mp rfl).1

end Libls.Rb
