import Mathlib.Tactic
import Libls.RbMap
import Libls.RbAugmentedErase
import Libls.Library.Runs

/-! # Programs with an augmented tree

`RbAugmentedReachable` are the states of a program that keeps one tree with the callbacks of
`RB_DECLARE_CALLBACKS`: it inserts nodes at places it has found, having set the values on the way, erases
nodes, and changes the data of nodes in the tree.  `rbAugmented_values` says that the values are right in
all these states, and that none of the functions fails. -/

namespace Libls.Rb

open LinkedTree

variable {ι α β : Type} [DecidableEq ι] [DecidableEq β] {comb : α → Option β → Option β → β}
  {rbcompute : ι → RbRoot ι → RbStructs ι α β → β} {s s' : RbRoot ι} {a a' a₁ : RbStructs ι α β}
  {t : LTree ι RbColor} {ctx : List (Frame ι RbColor)} {node x : ι} {link : Option (ι × Dir)}

/-- `rb_link_node` at `link`, which is a child pointer of a node or the root pointer. -/
def linkAt (node : ι) (link : Option (ι × Dir)) (s : RbRoot ι) : RbRoot ι :=
  rbLinkNode node (link.map Prod.fst) link s

/-- The states of a program with one augmented tree. -/
inductive RbAugmentedReachable (rbcompute : ι → RbRoot ι → RbStructs ι α β → β) :
    RbRoot ι → RbStructs ι α β → Prop
  | root (mem : ι → Cell ι RbColor) (a : RbStructs ι α β) : RbAugmentedReachable rbcompute (rbRoot mem) a
  /-- The program writes to nodes that are not in the tree. -/
  | write {s s' : RbRoot ι} {a a' : RbStructs ι α β} (h : RbAugmentedReachable rbcompute s a)
      (hroot : s'.root = s.root) (hsame : ∀ x, Reach s x → s'.mem x = s.mem x ∧ a' x = a x) :
      RbAugmentedReachable rbcompute s' a'
  /-- The program links a node, sets the values for it, and calls `rb_insert_augmented`. -/
  | insert {s s' : RbRoot ι} {a a₁ a' : RbStructs ι α β} {node : ι} {link : Option (ι × Dir)}
      (h : RbAugmentedReachable rbcompute s a) (hnode : ¬ Reach s node) (hlink : EmptySlot s link)
      (hvalues : ∀ x, Reach (linkAt node link s) x → a₁.values x = rbcompute x (linkAt node link s) a₁)
      (hrun : Prog.Returns ((rbDeclareCallbacks rbcompute).rbInsert node (linkAt node link s) a₁) (s', a')) :
      RbAugmentedReachable rbcompute s' a'
  /-- The program changes the data of a node of the tree, and calls `propagate`. -/
  | update {s : RbRoot ι} {a a₁ a' : RbStructs ι α β} {node : ι} (h : RbAugmentedReachable rbcompute s a)
      (hnode : Reach s node) (hvalue : a₁.values node = a.values node)
      (hsame : ∀ x, Reach s x → x ≠ node → a₁ x = a x)
      (hrun : Prog.Returns (rbPropagate rbcompute (some node) none s a₁) a') :
      RbAugmentedReachable rbcompute s a'
  | erase {s s' : RbRoot ι} {a a' : RbStructs ι α β} {node : ι} (h : RbAugmentedReachable rbcompute s a)
      (hnode : Reach s node) (hrun : Prog.Returns ((rbDeclareCallbacks rbcompute).rbErase node s a) (s', a')) :
      RbAugmentedReachable rbcompute s' a'

/-- A red-black tree with right values. -/
def AugmentedTree (comb : α → Option β → Option β → β) (s : RbRoot ι) (a : RbStructs ι α β) : Prop :=
  ∃ t, Focus s [] t ∧ IsRb t ∧ Cached comb a.datas a.values t

omit [DecidableEq ι] [DecidableEq β] in
theorem AugmentedTree.of_holds {S : List ι} (h : Holds s S) (hr : RightValues comb s a) :
    AugmentedTree comb s a ∧ ∀ x, Reach s x ↔ x ∈ S := by
  obtain ⟨t, hf, hrb, rfl⟩ := h
  exact ⟨⟨t, hf, hrb, hr t hf⟩, fun x => hf.reach_iff⟩

omit [DecidableEq ι] [DecidableEq β] in
/-- Right values, by what `rbcompute` says of each node of the tree. -/
theorem rightValues_iff (hcomp : ComputesFrom rbcompute comb) (hf : Focus s [] t) :
    Cached comb a.datas a.values t ↔ ∀ x, Reach s x → a.values x = rbcompute x s a := by
  simp only [cached_iff hf.linked, hf.reach_iff]
  exact forall₂_congr fun x _ => by rw [hcomp x s a]

omit [DecidableEq ι] [DecidableEq β] in
theorem AugmentedTree.write (h : AugmentedTree comb s a) (hroot : s'.root = s.root)
    (hsame : ∀ x, Reach s x → s'.mem x = s.mem x ∧ a' x = a x) : AugmentedTree comb s' a' := by
  obtain ⟨t, hf, hrb, hc⟩ := h
  have hin : ∀ x ∈ t.toList, s'.mem x = s.mem x ∧ a' x = a x := fun x hx => hsame x (hf.reach_iff.mpr hx)
  have hf' : Focus s' [] t := hf.congr hroot fun x hx => (hin x (by simpa using hx)).1
  refine ⟨t, hf', hrb, (cached_iff hf'.linked).mpr fun x hx => ?_⟩
  have hchild : ∀ o : Option ι, (∀ y, o = some y → y ∈ t.toList) → o.map a'.values = o.map a.values := by
    rintro (_ | y) hy
    · rfl
    · exact congrArg some (congrArg RbStruct.rbaugmented (hin y (hy y rfl)).2)
  have hreach := hf.reach_iff.mpr hx
  have hleft : ∀ y, (s.mem x).left = some y → y ∈ t.toList := fun y hy =>
    hf.reach_iff.mp (.child .left hreach hy)
  have hright : ∀ y, (s.mem x).right = some y → y ∈ t.toList := fun y hy =>
    hf.reach_iff.mp (.child .right hreach hy)
  have hx' := (cached_iff hf.linked).mp hc x hx
  rw [(hin x hx).1, hchild _ hleft, hchild _ hright]
  simp only [RbStructs.values, RbStructs.datas, (hin x hx).2] at hx' ⊢
  exact hx'

theorem AugmentedTree.insert (hcomp : ComputesFrom rbcompute comb) (hrot : RotationLaw comb)
    (h : AugmentedTree comb s a) (hnode : ¬ Reach s node) (hlink : EmptySlot s link)
    (hvalues : ∀ x, Reach (linkAt node link s) x → a₁.values x = rbcompute x (linkAt node link s) a₁) :
    ∃ s' a', Prog.Returns ((rbDeclareCallbacks rbcompute).rbInsert node (linkAt node link s) a₁) (s', a') ∧
      AugmentedTree comb s' a' ∧ a'.datas = a₁.datas ∧ ∀ x, Reach s' x ↔ x = node ∨ Reach s x := by
  obtain ⟨t, hf, hrb, -⟩ := h
  obtain ⟨ctx, rfl, rfl⟩ := hf.emptySlot_iff.mp hlink
  have hnot : node ∉ ctxNodes ctx := fun hm => hnode (hf.reach_iff.mpr (mem_fill.mpr (.inr hm)))
  have hlinked : linkAt node (slot ctx) s = rbLinkNode node (above ctx) (slot ctx) s := by
    rw [linkAt, slot_fst]
  rw [hlinked] at hvalues ⊢
  have hempty := Focus.fill_iff.mpr hf
  have hfocus : Focus (rbLinkNode node (above ctx) (slot ctx) s) ctx (.node .nil node .red .nil) :=
    hempty.link hnot
  have hr : RightValues comb (rbLinkNode node (above ctx) (slot ctx) s) a₁ :=
    .of_focus hfocus ((rightValues_iff hcomp (Focus.fill_iff.mp hfocus)).mpr hvalues)
  obtain ⟨s', a', hret, hH, hr', hd⟩ := rbInsert_right hcomp hrot hempty hrb hnot hr
  obtain ⟨haug, hreach⟩ := AugmentedTree.of_holds hH hr'
  refine ⟨s', a', hret, haug, hd, fun x => ?_⟩
  rw [hreach, hf.reach_iff, toList_fill]
  simp only [LTree.toList_nil, List.append_nil, List.mem_append, List.mem_cons]
  tauto

theorem AugmentedTree.update (hcomp : ComputesFrom rbcompute comb) (h : AugmentedTree comb s a)
    (hnode : Reach s node) (hvalue : a₁.values node = a.values node)
    (hsame : ∀ x, Reach s x → x ≠ node → a₁ x = a x) :
    ∃ a', Prog.Returns (rbPropagate rbcompute (some node) none s a₁) a' ∧ AugmentedTree comb s a' ∧
      a'.datas = a₁.datas := by
  obtain ⟨t, hf, hrb, hc⟩ := h
  obtain ⟨ctx, l, c, r, rfl, hfx⟩ := hf.exists_of_mem (hf.reach_iff.mp hnode)
  obtain ⟨⟨-, hl, hr⟩, hctx⟩ := cached_fill.mp hc
  have hin : ∀ x, x ≠ node → x ∈ (LTree.node l node c r).toList ∨ x ∈ ctxNodes ctx →
      a₁.values x = a.values x ∧ a₁.datas x = a.datas x := fun x hne hx => by
    have hx' := hsame x (hf.reach_iff.mpr (mem_fill.mpr hx)) hne
    exact ⟨congrArg RbStruct.rbaugmented hx', congrArg RbStruct.data hx'⟩
  have hnd := hfx.nodup
  have hap := hfx.apart node (by simp)
  simp only [LTree.toList_node, List.nodup_append', List.nodup_cons, List.disjoint_left, List.mem_cons,
    not_or] at hnd
  -- the data of the node itself are those of the first frame, and may be any
  have hcongr : ∀ u : LTree ι RbColor, (∀ x ∈ u.toList, x ≠ node ∧ x ∈ (LTree.node l node c r).toList) →
      Cached comb a.datas a.values u → Cached comb a₁.datas a₁.values u := by
    intro u hu hcu
    exact hcu.congr_all fun x hx => hin x (hu x hx).1 (.inl (hu x hx).2)
  have hctx₁ : CachedCtx comb a₁.datas a₁.values (some (a₁.values node)) ctx := by
    rw [hvalue]
    exact hctx.congr_all fun x hx => hin x (fun e => hap (e ▸ hx)) (.inr hx)
  have hnear := Focus.near_iff (d := .left) |>.mp hfx
  obtain ⟨a', hret, hr', hd⟩ := rbPropagate_right hcomp hnear
    (hcongr l (fun x hx => ⟨fun e => (hnd.2.2 hx).1 e, by simp [hx]⟩) hl)
    ⟨hcongr r (fun x hx => ⟨fun e => hnd.2.1.1 (e ▸ hx), by simp [hx]⟩) hr, hctx₁⟩
  exact ⟨a', hret, ⟨_, hf, hrb, hr' _ hf⟩, hd⟩

theorem AugmentedTree.erase (hcomp : ComputesFrom rbcompute comb) (hrot : RotationLaw comb)
    (h : AugmentedTree comb s a) (hnode : Reach s node) :
    ∃ s' a', Prog.Returns ((rbDeclareCallbacks rbcompute).rbErase node s a) (s', a') ∧
      AugmentedTree comb s' a' ∧ a'.datas = a.datas ∧ ∀ x, Reach s' x ↔ x ≠ node ∧ Reach s x := by
  obtain ⟨t, hf, hrb, hc⟩ := h
  obtain ⟨ctx, l, c, r, rfl, hfx⟩ := hf.exists_of_mem (hf.reach_iff.mp hnode)
  obtain ⟨s', a', hret, hH, hr', hd⟩ := rbErase_right hcomp hrot hfx hrb (.of_focus hf hc)
  obtain ⟨haug, hreach⟩ := AugmentedTree.of_holds hH hr'
  refine ⟨s', a', hret, haug, hd, fun x => ?_⟩
  have hL : (fill ctx (.node l node c r)).toList =
      (before ctx ++ l.toList) ++ node :: (r.toList ++ after ctx) := by
    rw [toList_fill]
    simp
  have hL' : before ctx ++ (l.toList ++ r.toList) ++ after ctx =
      (before ctx ++ l.toList) ++ (r.toList ++ after ctx) := by simp
  have hnd := hf.nodup
  rw [hL, List.nodup_middle, List.nodup_cons] at hnd
  rw [hreach, hf.reach_iff, hL, hL']
  exact mem_without_middle hnd.1 x

theorem RbAugmentedReachable.augmented (hcomp : ComputesFrom rbcompute comb) (hrot : RotationLaw comb)
    (h : RbAugmentedReachable rbcompute s a) : AugmentedTree comb s a := by
  induction h with
  | root mem a => exact ⟨.nil, Focus.empty rfl, ⟨rfl, 0, rfl⟩, trivial⟩
  | write _ hroot hsame ih => exact ih.write hroot hsame
  | insert _ hnode hlink hvalues hrun ih =>
      obtain ⟨s₁, a₁, hret, h', -⟩ := ih.insert hcomp hrot hnode hlink hvalues
      cases hrun.unique hret
      exact h'
  | update _ hnode hvalue hsame hrun ih =>
      obtain ⟨a₁, hret, h', -⟩ := ih.update hcomp hnode hvalue hsame
      cases hrun.unique hret
      exact h'
  | erase _ hnode hrun ih =>
      obtain ⟨s₁, a₁, hret, h', -⟩ := ih.erase hcomp hrot hnode
      cases hrun.unique hret
      exact h'

/-- **An augmented tree has right values after every run.**  In every state that a program reaches, each
node of the tree has the value that `rbcompute` gives it, and this value is the aggregate of the data of the
nodes below it, from left to right.  Each function returns in every such state: `rb_insert_augmented` adds
the node, if the caller has made the values right for it, `rb_erase_augmented` takes the node out, and
`propagate` mends the values after a change of the data of one node. -/
theorem rbAugmented_values (hcomp : ComputesFrom rbcompute comb) (hrot : RotationLaw comb)
    (h : RbAugmentedReachable rbcompute s a) :
    (∀ x, Reach s x → a.values x = rbcompute x s a) ∧
      (∀ ctx t, Focus s ctx t → t.top.map a.values = aggregate comb (t.toList.map a.datas)) ∧
      (∃ t, Focus s [] t ∧ IsRb t ∧ Prog.Returns (rbForEach s) t.toList) ∧
      (∀ node link a₁, ¬ Reach s node → EmptySlot s link →
        (∀ x, Reach (linkAt node link s) x → a₁.values x = rbcompute x (linkAt node link s) a₁) →
        ∃ s' a', Prog.Returns ((rbDeclareCallbacks rbcompute).rbInsert node (linkAt node link s) a₁) (s', a') ∧
          RbAugmentedReachable rbcompute s' a' ∧ a'.datas = a₁.datas ∧
          ∀ x, Reach s' x ↔ x = node ∨ Reach s x) ∧
      (∀ node, Reach s node →
        ∃ s' a', Prog.Returns ((rbDeclareCallbacks rbcompute).rbErase node s a) (s', a') ∧
          RbAugmentedReachable rbcompute s' a' ∧ a'.datas = a.datas ∧
          ∀ x, Reach s' x ↔ x ≠ node ∧ Reach s x) ∧
      ∀ node a₁, Reach s node → a₁.values node = a.values node →
        (∀ x, Reach s x → x ≠ node → a₁ x = a x) →
        ∃ a', Prog.Returns (rbPropagate rbcompute (some node) none s a₁) a' ∧
          RbAugmentedReachable rbcompute s a' ∧ a'.datas = a₁.datas := by
  have haug := h.augmented hcomp hrot
  obtain ⟨t, hf, hrb, hc⟩ := id haug
  refine ⟨(rightValues_iff hcomp hf).mp hc, fun ctx u hu => ?_, ⟨t, hf, hrb, rbForEach_returns hf⟩,
    fun node link a₁ hnode hlink hvalues => ?_, fun node hnode => ?_, fun node a₁ hnode hvalue hsame => ?_⟩
  · have hr : RightValues comb s a := .of_focus hf hc
    exact (cached_fill.mp (hr.cached hu)).1.top_eq_aggregate hrot
  · obtain ⟨s', a', hret, -, hd, hreach⟩ := haug.insert hcomp hrot hnode hlink hvalues
    exact ⟨s', a', hret, h.insert hnode hlink hvalues hret, hd, hreach⟩
  · obtain ⟨s', a', hret, -, hd, hreach⟩ := haug.erase hcomp hrot hnode
    exact ⟨s', a', hret, h.erase hnode hret, hd, hreach⟩
  · obtain ⟨a', hret, -, hd⟩ := haug.update hcomp hnode hvalue hsame
    exact ⟨a', hret, h.update hnode hvalue hsame hret, hd⟩

/-! ### A computed run -/

omit [DecidableEq β] in
theorem reach_linkAt (hf : Focus s [] t) (hnode : ¬ Reach s node) (hlink : EmptySlot s link) (x : ι) :
    Reach (linkAt node link s) x ↔ x = node ∨ Reach s x := by
  obtain ⟨ctx, rfl, rfl⟩ := hf.emptySlot_iff.mp hlink
  have hnot : node ∉ ctxNodes ctx := fun hm => hnode (hf.reach_iff.mpr (mem_fill.mpr (.inr hm)))
  have hfocus : Focus (linkAt node (slot ctx) s) ctx (.node .nil node .red .nil) := by
    rw [linkAt, slot_fst]
    exact (Focus.fill_iff.mpr hf).link hnot
  rw [(Focus.fill_iff.mp hfocus).reach_iff, hf.reach_iff, mem_fill, mem_fill]
  simp

/-- The calls of a program with one augmented tree. -/
inductive RbAugmentedCall (ι α β : Type) where
  /-- The values that the caller has set for the linked node. -/
  | insert (node : ι) (link : Option (ι × Dir)) (a : RbStructs ι α β)
  /-- New data, and `propagate`. -/
  | update (node : ι) (data : α)
  | erase (node : ι)

/-- An allowed call with the fuel `n`, and the members after it. -/
def RbAugmentedCall.attempt (rbcompute : ι → RbRoot ι → RbStructs ι α β → β) (n : ℕ)
    (p : RbRoot ι × RbStructs ι α β × Finset ι) :
    RbAugmentedCall ι α β → Option (RbRoot ι × RbStructs ι α β × Finset ι)
  | .insert node link a =>
      (Prog.attempt (node ∉ p.2.2 ∧ EmptySlotIn p.1 p.2.2 link ∧
          ∀ x ∈ Insert.insert node p.2.2, a.values x = rbcompute x (linkAt node link p.1) a)
        ((rbDeclareCallbacks rbcompute).rbInsert node (linkAt node link p.1) a) n).map fun r =>
          (r.1, r.2, Insert.insert node p.2.2)
  | .update node data =>
      (Prog.attempt (node ∈ p.2.2) (rbPropagate rbcompute (some node) none p.1
        (Function.update p.2.1 node ⟨data, p.2.1.values node⟩)) n).map fun a => (p.1, a, p.2.2)
  | .erase node =>
      (Prog.attempt (node ∈ p.2.2) ((rbDeclareCallbacks rbcompute).rbErase node p.1 p.2.1) n).map fun r =>
        (r.1, r.2, p.2.2.erase node)

theorem RbAugmentedCall.attempt_reachable (hcomp : ComputesFrom rbcompute comb) (hrot : RotationLaw comb) {n : ℕ}
    {p p' : RbRoot ι × RbStructs ι α β × Finset ι} {call : RbAugmentedCall ι α β}
    (hcall : call.attempt rbcompute n p = some p')
    (h : RbAugmentedReachable rbcompute p.1 p.2.1 ∧ ∀ x, Reach p.1 x ↔ x ∈ p.2.2) :
    RbAugmentedReachable rbcompute p'.1 p'.2.1 ∧ ∀ x, Reach p'.1 x ↔ x ∈ p'.2.2 := by
  obtain ⟨s, a, S⟩ := p
  obtain ⟨h, hS⟩ := h
  change RbAugmentedReachable rbcompute s a at h
  change ∀ x, Reach s x ↔ x ∈ S at hS
  have haug := h.augmented hcomp hrot
  cases call with
  | insert node link a₁ =>
      obtain ⟨⟨hnode, hlink, hvalues⟩, r, hret, rfl⟩ := Prog.attempt_map_eq_some hcall
      have hnot : ¬ Reach s node := fun hr => hnode ((hS node).mp hr)
      obtain ⟨t, hf, -⟩ := id haug
      have hall : ∀ x, Reach (linkAt node link s) x → a₁.values x = rbcompute x (linkAt node link s) a₁ := by
        intro x hx
        rw [reach_linkAt hf hnot (hlink.emptySlot hS), hS] at hx
        exact hvalues x (Finset.mem_insert.mpr hx)
      obtain ⟨s', a', hret', -, -, hreach⟩ := haug.insert hcomp hrot hnot (hlink.emptySlot hS) hall
      cases hret.unique hret'
      refine ⟨h.insert hnot (hlink.emptySlot hS) hall hret, fun x => ?_⟩
      rw [hreach, hS, Finset.mem_insert]
  | update node data =>
      obtain ⟨hnode, a', hret, rfl⟩ := Prog.attempt_map_eq_some hcall
      refine ⟨h.update ((hS node).mpr hnode) ?_ ?_ hret, hS⟩
      · unfold RbStructs.values
        rw [Function.update_self]
      · intro x _ hx
        exact Function.update_of_ne hx _ _
  | erase node =>
      obtain ⟨hnode, r, hret, rfl⟩ := Prog.attempt_map_eq_some hcall
      obtain ⟨s', a', hret', -, -, hreach⟩ := haug.erase hcomp hrot ((hS node).mpr hnode)
      cases hret.unique hret'
      refine ⟨h.erase ((hS node).mpr hnode) hret, fun x => ?_⟩
      rw [hreach, hS, Finset.mem_erase]

/-- The sum of the data of a subtree. -/
def sumNodes (x : ι) (s : RbRoot ι) (a : RbStructs ι ℕ ℕ) : ℕ :=
  a.datas x + ((s.mem x).left.map a.values).getD 0 + ((s.mem x).right.map a.values).getD 0

/-- Sums in a tree: three nodes are inserted in the order of their keys, the data of the last one change, and the
first one is erased. -/
theorem rbAugmented_values_sum : ∃ (s : RbRoot ℕ) (a : RbStructs ℕ ℕ ℕ),
    s.root = some 2 ∧ a.values 2 = 55 ∧ (∀ x, Reach s x ↔ x ∈ ({2, 3} : Finset ℕ)) ∧
      (∀ x, Reach s x → a.values x = sumNodes x s a) ∧
      ∃ s' a', Prog.Returns ((rbDeclareCallbacks sumNodes).rbErase 2 s a) (s', a') ∧
        ∀ x, Reach s' x ↔ x ≠ 2 ∧ Reach s x := by
  have hcomp : @ComputesFrom ℕ _ _ sumNodes fun d l r => d + l.getD 0 + r.getD 0 := fun _ _ _ => rfl
  have hrot : RotationLaw fun (d : ℕ) (l r : Option ℕ) => d + l.getD 0 + r.getD 0 := by
    intro _ _ a b c
    simp only [Option.getD_some]
    omega
  let mem : ℕ → Cell ℕ RbColor := fun _ => ⟨none, .red, none, none⟩
  let one : RbStructs ℕ ℕ ℕ := fun _ => ⟨10, 10⟩
  let two : RbStructs ℕ ℕ ℕ := fun x => if x = 1 then ⟨10, 30⟩ else ⟨20, 20⟩
  let three : RbStructs ℕ ℕ ℕ := fun x => if x = 1 then ⟨10, 60⟩ else if x = 2 then ⟨20, 50⟩ else ⟨30, 30⟩
  have hrun : (([.insert 1 none one, .insert 2 (some (1, .right)) two, .insert 3 (some (2, .right)) three,
      .update 3 35, .erase 1].foldlM (RbAugmentedCall.attempt sumNodes 9) (rbRoot mem, one, ∅)).map fun p =>
        (p.1.root, p.2.1.values 2, p.2.2)) = some (some 2, 55, {2, 3}) := by
    decide +kernel
  have hempty : ∀ x, Reach (rbRoot mem) x ↔ x ∈ (∅ : Finset ℕ) := by
    intro x
    rw [(Focus.empty rfl : Focus (rbRoot mem) [] .nil).reach_iff]
    simp
  obtain ⟨⟨s, a, S⟩, hsee, h, hS⟩ := Libls.Run.exec_keeps
    (fun _ _ _ => RbAugmentedCall.attempt_reachable hcomp hrot) _ hrun ⟨.root mem one, hempty⟩
  obtain ⟨hroot, hrest⟩ := Prod.mk.inj hsee
  obtain ⟨hvalue, rfl⟩ := Prod.mk.inj hrest
  obtain ⟨hright, -, -, -, herase, -⟩ := rbAugmented_values hcomp hrot h
  obtain ⟨s', a', hret, -, -, hgone⟩ := herase 2 ((hS 2).mpr (Finset.mem_insert_self 2 {3}))
  exact ⟨s, a, hroot, hvalue, hS, hright, s', a', hret, hgone⟩

end Libls.Rb
