import Mathlib.Tactic
import Libls.RbInsert
import Libls.RbErase

/-! # Keyed trees: `rb_find`, `rb_insert` and `rb_for_each` of `include/ls/rbtree.h`

`RbReachable` are the states of a program that inserts and erases nodes, each with the finite map from
keys to nodes that the history of calls amounts to.  `rb_map` says that the tree behaves as that
map.  Nodes outside the tree belong to the program, which may write to them between calls. -/

namespace Libls.Rb

open LinkedTree

variable {ι κ : Type} [DecidableEq ι]

/-! ### The functions -/

omit [DecidableEq ι] in
/-- One pass of the loop of `rb_find`. -/
def rbFindStep (cmp : κ → ι → ℤ) (key : κ) (root : RbRoot ι) (node : Option ι) :
    Iter (Option ι) (Option ι) :=
  match node with
  | none => .done none
  | some node =>
      let rc := cmp key node
      if rc < 0 then .next (root.mem node).left
      else if rc > 0 then .next (root.mem node).right
      else .done (some node)

omit [DecidableEq ι] in
/-- `rb_find` -/
def rbFind (cmp : κ → ι → ℤ) (key : κ) (root : RbRoot ι) : Prog (Option ι) :=
  Prog.iterate (fun node => return rbFindStep cmp key root node) root.root

omit [DecidableEq ι] in
/-- One pass of the loop of `rb_insert` over `parent` and `pc`; it ends with the node that has the
key, or with the place for the new one. -/
def rbInsertStepDown (cmp : κ → ι → ℤ) (key : κ) (root : RbRoot ι) (p : Option ι × Option (ι × Dir)) :
    Iter (Option ι × Option (ι × Dir)) (ι ⊕ Option ι × Option (ι × Dir)) :=
  match getLink p.2 root with
  | none => .done (.inr p)
  | some parent =>
      let rc := cmp key parent
      if rc < 0 then .next (some parent, some (parent, .left))
      else if rc > 0 then .next (some parent, some (parent, .right))
      else .done (.inl parent)

omit [DecidableEq ι] in
def rbInsertDown (cmp : κ → ι → ℤ) (key : κ) (root : RbRoot ι) :
    Prog (ι ⊕ Option ι × Option (ι × Dir)) :=
  Prog.iterate (fun p => return rbInsertStepDown cmp key root p) (none, none)

/-- `rb_insert` -/
def rbInsert (cmp : κ → ι → ℤ) (key : κ) (node : ι) (root : RbRoot ι) : Prog (Option ι × RbRoot ι) := do
  match ← rbInsertDown cmp key root with
  | .inl parent => return (some parent, root)
  | .inr (parent, pc) => return (none, ← rbInsertColor node (rbLinkNode node parent pc root))

omit [DecidableEq ι] in
/-- `rb_first` -/
def rbFirst (root : RbRoot ι) : Prog (Option ι) :=
  match root.root with
  | none => return none
  | some n => do return some (← extreme .left n root)

/-- One pass of `rb_for_each`, with the nodes that it has visited. -/
def rbForEachStep (root : RbRoot ι) (p : Option ι × List ι) : Prog (Iter (Option ι × List ι) (List ι)) :=
  match p.1 with
  | none => return .done p.2
  | some pos => do return .next (← rbNext pos root, p.2 ++ [pos])

/-- `rb_for_each`: the nodes in the order of the visits. -/
def rbForEach (root : RbRoot ι) : Prog (List ι) := do
  let pos ← rbFirst root
  Prog.iterate (rbForEachStep root) (pos, [])

/-! ### Descents -/

section
variable [LinearOrder κ] {cmp : κ → ι → ℤ} {keyOf : ι → κ} {key : κ} {s : RbRoot ι}

/-- `cmp` is induced by the order of the keys. -/
structure CmpOrders (cmp : κ → ι → ℤ) (keyOf : ι → κ) : Prop where
  neg : ∀ k x, cmp k x < 0 ↔ k < keyOf x
  pos : ∀ k x, cmp k x > 0 ↔ keyOf x < k

omit [DecidableEq ι] in
theorem CmpOrders.eq {x : ι} (hc : CmpOrders cmp keyOf) (h : key = keyOf x) :
    ¬ cmp key x < 0 ∧ ¬ cmp key x > 0 := by
  rw [hc.neg, hc.pos, h]
  exact ⟨lt_irrefl _, lt_irrefl _⟩

omit [DecidableEq ι] in
theorem CmpOrders.gt {x : ι} (hc : CmpOrders cmp keyOf) (h : keyOf x < key) :
    ¬ cmp key x < 0 ∧ cmp key x > 0 := by
  rw [hc.neg, hc.pos]
  exact ⟨h.asymm, h⟩

omit [DecidableEq ι] in
/-- `rb_find` in a subtree returns its node with the key, if there is one. -/
theorem rbFind_returns {p : Option ι} {t : LTree ι RbColor} (hc : CmpOrders cmp keyOf)
    (h : Linked s.mem p t) (hs : t.toList.Pairwise fun a b => keyOf a < keyOf b) :
    ∃ r, Prog.Returns (Prog.iterate (fun node => return rbFindStep cmp key s node) t.top) r ∧
      ∀ n, r = some n ↔ n ∈ t.toList ∧ keyOf n = key := by
  induction t generalizing p with
  | nil => exact ⟨none, Prog.Returns.iterate_done (Prog.returns_pure.mpr rfl), by simp⟩
  | node l x c r ihl ihr =>
      obtain ⟨hx, hl, hr⟩ := h
      rw [LTree.toList_node, List.pairwise_append, List.pairwise_cons] at hs
      obtain ⟨hsl, ⟨hxr, hsr⟩, hlx⟩ := hs
      have hlx' : ∀ a ∈ l.toList, keyOf a < keyOf x := fun a ha => hlx a ha x (by simp)
      have hstep : rbFindStep cmp key s (some x) =
          if cmp key x < 0 then .next l.top else if cmp key x > 0 then .next r.top
          else .done (some x) := by
        show (if cmp key x < 0 then Iter.next (s.mem x).left
          else if cmp key x > 0 then .next (s.mem x).right else .done (some x)) = _
        rw [hx]
      rcases lt_trichotomy key (keyOf x) with hlt | heq | hgt
      · rw [if_pos ((hc.neg key x).mpr hlt)] at hstep
        obtain ⟨res, hret, hres⟩ := ihl hl hsl
        refine ⟨res, Prog.Returns.iterate_next (Prog.returns_pure.mpr hstep) hret, fun n => ?_⟩
        rw [hres, LTree.toList_node, List.mem_append, List.mem_cons]
        constructor
        · exact fun hn => ⟨.inl hn.1, hn.2⟩
        · rintro ⟨hn | rfl | hn, rfl⟩
          · exact ⟨hn, rfl⟩
          · exact absurd hlt (lt_irrefl _)
          · exact absurd (hxr n hn) hlt.asymm
      · rw [if_neg (hc.eq heq).1, if_neg (hc.eq heq).2] at hstep
        refine ⟨some x, Prog.Returns.iterate_done (Prog.returns_pure.mpr hstep), fun n => ?_⟩
        rw [LTree.toList_node, List.mem_append, List.mem_cons]
        constructor
        · rintro ⟨⟩
          exact ⟨.inr (.inl rfl), heq.symm⟩
        · rintro ⟨hn | rfl | hn, hk⟩
          · exact absurd (hlx' n hn) (by rw [hk, heq]; exact lt_irrefl _)
          · rfl
          · exact absurd (hxr n hn) (by rw [hk, heq]; exact lt_irrefl _)
      · rw [if_neg (hc.gt hgt).1, if_pos (hc.gt hgt).2] at hstep
        obtain ⟨res, hret, hres⟩ := ihr hr hsr
        refine ⟨res, Prog.Returns.iterate_next (Prog.returns_pure.mpr hstep) hret, fun n => ?_⟩
        rw [hres, LTree.toList_node, List.mem_append, List.mem_cons]
        constructor
        · exact fun hn => ⟨.inr (.inr hn.1), hn.2⟩
        · rintro ⟨hn | rfl | hn, rfl⟩
          · exact absurd (hlx' n hn) hgt.asymm
          · exact absurd hgt (lt_irrefl _)
          · exact ⟨hn, rfl⟩

/-- What the descent of `rb_insert` finds. -/
inductive Descends (keyOf : ι → κ) (key : κ) (t : LTree ι RbColor) :
    ι ⊕ Option ι × Option (ι × Dir) → Prop
  | resident {x : ι} (hx : x ∈ t.toList) (hk : keyOf x = key) : Descends keyOf key t (.inl x)
  | place {ctx : List (Frame ι RbColor)} (h : fill ctx .nil = t)
      (hb : ∀ a ∈ before ctx, keyOf a < key) (ha : ∀ a ∈ after ctx, key < keyOf a) :
      Descends keyOf key t (.inr (above ctx, slot ctx))

omit [DecidableEq ι] in
theorem rbInsertDown_returns {t : LTree ι RbColor} {ctx : List (Frame ι RbColor)}
    (hc : CmpOrders cmp keyOf) (h : Focus s ctx t)
    (hs : (fill ctx t).toList.Pairwise fun a b => keyOf a < keyOf b)
    (hb : ∀ a ∈ before ctx, keyOf a < key) (ha : ∀ a ∈ after ctx, key < keyOf a) :
    ∃ r, Prog.Returns (Prog.iterate (fun p => return rbInsertStepDown cmp key s p) (above ctx, slot ctx)) r ∧
      Descends keyOf key (fill ctx t) r := by
  induction t generalizing ctx with
  | nil =>
      refine ⟨_, Prog.Returns.iterate_done (Prog.returns_pure.mpr ?_), .place rfl hb ha⟩
      unfold rbInsertStepDown
      rw [getLink_slot h]
      rfl
  | node l x c r ihl ihr =>
      have hs' := hs
      rw [toList_fill, LTree.toList_node, List.pairwise_append, List.pairwise_append,
        List.pairwise_append, List.pairwise_cons] at hs'
      obtain ⟨⟨-, ⟨-, ⟨hxr, -⟩, hlx⟩, -⟩, -⟩ := hs'
      have hstep : rbInsertStepDown cmp key s (above ctx, slot ctx) =
          if cmp key x < 0 then .next (some x, some (x, .left))
          else if cmp key x > 0 then .next (some x, some (x, .right)) else .done (.inl x) := by
        unfold rbInsertStepDown
        rw [getLink_slot h]
        rfl
      rcases lt_trichotomy key (keyOf x) with hlt | heq | hgt
      · rw [if_pos ((hc.neg key x).mpr hlt)] at hstep
        have hf : Focus s (⟨.left, x, c, r⟩ :: ctx) l := Focus.cons_iff.mpr h
        obtain ⟨res, hret, hres⟩ := ihl hf hs hb fun a ha' => by
            simp only [after, List.cons_append, List.mem_cons, List.mem_append] at ha'
            rcases ha' with rfl | ha' | ha'
            · exact hlt
            · exact hlt.trans (hxr a ha')
            · exact ha a ha'
        exact ⟨res, Prog.Returns.iterate_next (Prog.returns_pure.mpr hstep) hret, hres⟩
      · rw [if_neg (hc.eq heq).1, if_neg (hc.eq heq).2] at hstep
        refine ⟨_, Prog.Returns.iterate_done (Prog.returns_pure.mpr hstep), .resident ?_ heq.symm⟩
        exact mem_fill.mpr (.inl (by simp))
      · rw [if_neg (hc.gt hgt).1, if_pos (hc.gt hgt).2] at hstep
        have hf : Focus s (⟨.right, x, c, l⟩ :: ctx) r := Focus.cons_iff.mpr h
        obtain ⟨res, hret, hres⟩ := ihr hf hs (fun a ha' => by
            simp only [before, List.mem_append, List.mem_singleton] at ha'
            rcases ha' with ha' | ha' | rfl
            · exact hb a ha'
            · exact (hlx a ha' x (by simp)).trans hgt
            · exact hgt) ha
        exact ⟨res, Prog.Returns.iterate_next (Prog.returns_pure.mpr hstep) hret, hres⟩

end

/-! ### The walk -/

section
variable {s : RbRoot ι} {t : LTree ι RbColor}

omit [DecidableEq ι] in
theorem rbFirst_returns (h : Focus s [] t) : Prog.Returns (rbFirst s) t.toList.head? := by
  have hroot : s.root = t.top := h.ctx_linked
  unfold rbFirst
  rw [hroot]
  cases t with
  | nil => exact Prog.returns_pure.mpr rfl
  | node l x c r =>
      obtain ⟨y, hy, hhead⟩ := h.linked.toward_head (d := .right)
      have hfirst : (LTree.node l x c r).toList.head? = some y := hhead
      rw [hfirst]
      exact Prog.returns_bind.mpr ⟨y, hy, Prog.returns_pure.mpr rfl⟩

/-- `rb_next` of a node, by its place in the sequence. -/
theorem rbNext_split (h : Focus s [] t) {A B : List ι} {x : ι} (hL : t.toList = A ++ x :: B) :
    Prog.Returns (rbNext x s) B.head? := by
  have hmem : x ∈ t.toList := by
    rw [hL]
    simp
  obtain ⟨ctx, l, c, r, -, hf⟩ := h.exists_of_mem hmem
  rw [rbNext_eq hf]
  exact h.neighbour_split (d := .right) hL

theorem rbForEach_returns (h : Focus s [] t) : Prog.Returns (rbForEach s) t.toList := by
  refine Prog.returns_bind.mpr ⟨_, rbFirst_returns h, ?_⟩
  refine Prog.Returns.iterate_walk (Prog.returns_pure.mpr rfl) fun A x B hL => ?_
  exact Prog.returns_bind.mpr ⟨_, rbNext_split h hL, Prog.returns_pure.mpr rfl⟩

end

/-! ### Runs -/

section
variable [LinearOrder κ] {s s' : RbRoot ι} {keyOf keyOf' : ι → κ} {residents : κ → Option ι}

/-- The tree holds the nodes of the map, in the order of their keys. -/
structure KeyedTree (s : RbRoot ι) (keyOf : ι → κ) (residents : κ → Option ι) (L : List ι) : Prop where
  sorted : L.Pairwise fun a b => keyOf a < keyOf b
  resident : ∀ k n, residents k = some n ↔ n ∈ L ∧ keyOf n = k
  holds : Holds s L

/-- The map after `rb_insert`. -/
def insertResident (residents : κ → Option ι) (key : κ) (node : ι) : κ → Option ι :=
  match residents key with
  | some _ => residents
  | none => Function.update residents key (some node)

/-- The states of a program with one keyed tree: the tree, the keys in the nodes, and the map of the
nodes inserted and not since erased.  `cmp` compares keys. -/
inductive RbReachable (cmp : κ → κ → ℤ) : RbRoot ι → (ι → κ) → (κ → Option ι) → Prop
  | root (mem : ι → Cell ι RbColor) (keyOf : ι → κ) :
      RbReachable cmp (rbRoot mem) keyOf fun _ => none
  /-- The program writes to nodes that are not in the tree. -/
  | write {s s' : RbRoot ι} {keyOf keyOf' : ι → κ} {residents : κ → Option ι}
      (h : RbReachable cmp s keyOf residents) (hroot : s'.root = s.root)
      (hsame : ∀ k n, residents k = some n → s'.mem n = s.mem n ∧ keyOf' n = keyOf n) :
      RbReachable cmp s' keyOf' residents
  | insert {s s' : RbRoot ι} {keyOf : ι → κ} {residents : κ → Option ι} {node : ι} {r : Option ι}
      (h : RbReachable cmp s keyOf residents) (hnode : ∀ k, residents k ≠ some node)
      (hrun : Prog.Returns (rbInsert (fun k x => cmp k (keyOf x)) (keyOf node) node s) (r, s')) :
      RbReachable cmp s' keyOf (insertResident residents (keyOf node) node)
  | erase {s s' : RbRoot ι} {keyOf : ι → κ} {residents : κ → Option ι} {node : ι}
      (h : RbReachable cmp s keyOf residents) (hnode : residents (keyOf node) = some node)
      (hrun : Prog.Returns (rbErase node s) s') :
      RbReachable cmp s' keyOf (Function.update residents (keyOf node) none)

variable {L : List ι} {node : ι} {cmp : κ → κ → ℤ}

/-- `cmp` is the order of the keys. -/
def KeyCmp (cmp : κ → κ → ℤ) : Prop := ∀ a b, (cmp a b < 0 ↔ a < b) ∧ (cmp a b > 0 ↔ b < a)

omit [DecidableEq ι] in
theorem KeyCmp.orders (h : KeyCmp cmp) (keyOf : ι → κ) :
    CmpOrders (fun k x => cmp k (keyOf x)) keyOf :=
  ⟨fun k x => (h k (keyOf x)).1, fun k x => (h k (keyOf x)).2⟩

omit [DecidableEq ι] in
/-- The residents, if the sequence holds one node more. -/
theorem resident_insert {L' : List ι} (h : ∀ k n, residents k = some n ↔ n ∈ L ∧ keyOf n = k)
    (hnone : residents (keyOf node) = none) (hL : ∀ n, n ∈ L' ↔ n = node ∨ n ∈ L) (k : κ) (n : ι) :
    insertResident residents (keyOf node) node k = some n ↔ n ∈ L' ∧ keyOf n = k := by
  unfold insertResident
  rw [hnone, hL]
  show Function.update residents (keyOf node) (some node) k = some n ↔ _
  by_cases hk : k = keyOf node
  · subst hk
    rw [Function.update_self]
    constructor
    · rintro ⟨⟩
      exact ⟨.inl rfl, rfl⟩
    · rintro ⟨rfl | hn, hkey⟩
      · rfl
      · have := (h _ _).mpr ⟨hn, hkey⟩
        rw [hnone] at this
        cases this
  · rw [Function.update_of_ne hk, h]
    constructor
    · exact fun hn => ⟨.inr hn.1, hn.2⟩
    · rintro ⟨rfl | hn, hkey⟩
      · exact absurd hkey.symm hk
      · exact ⟨hn, hkey⟩

omit [DecidableEq ι] in
/-- The residents, if the sequence has lost a node. -/
theorem resident_erase {L' : List ι} (h : ∀ k n, residents k = some n ↔ n ∈ L ∧ keyOf n = k)
    (hnode : node ∈ L) (hL : ∀ n, n ∈ L' ↔ n ≠ node ∧ n ∈ L) (k : κ) (n : ι) :
    Function.update residents (keyOf node) none k = some n ↔ n ∈ L' ∧ keyOf n = k := by
  rw [hL]
  by_cases hk : k = keyOf node
  · subst hk
    rw [Function.update_self]
    constructor
    · rintro ⟨⟩
    · rintro ⟨⟨hne, hn⟩, hkey⟩
      have hboth : some n = some node :=
        ((h _ _).mpr ⟨hn, hkey⟩).symm.trans ((h _ _).mpr ⟨hnode, rfl⟩)
      exact absurd (Option.some.inj hboth) hne
  · rw [Function.update_of_ne hk, h]
    constructor
    · rintro ⟨hn, rfl⟩
      refine ⟨⟨?_, hn⟩, rfl⟩
      rintro rfl
      exact hk rfl
    · exact fun hn => ⟨hn.1.2, hn.2⟩

omit [DecidableEq ι] in
theorem KeyedTree.resident_iff (h : KeyedTree s keyOf residents L) (n : ι) :
    residents (keyOf n) = some n ↔ n ∈ L := by
  rw [h.resident]
  exact and_iff_left rfl

omit [DecidableEq ι] in
theorem KeyedTree.write (h : KeyedTree s keyOf residents L) (hroot : s'.root = s.root)
    (hsame : ∀ k n, residents k = some n → s'.mem n = s.mem n ∧ keyOf' n = keyOf n) :
    KeyedTree s' keyOf' residents L := by
  have hL : ∀ n ∈ L, s'.mem n = s.mem n ∧ keyOf' n = keyOf n := fun n hn =>
    hsame _ n ((h.resident_iff n).mpr hn)
  refine ⟨h.sorted.imp_of_mem fun {a b} ha hb hab => ?_, fun k n => ?_, ?_⟩
  · rw [(hL a ha).2, (hL b hb).2]
    exact hab
  · rw [h.resident]
    refine and_congr_right fun hn => ?_
    rw [(hL n hn).2]
  · obtain ⟨t, hf, hrb, rfl⟩ := h.holds
    refine ⟨t, hf.congr hroot fun x hx => ?_, hrb, rfl⟩
    simp only [ctxNodes, List.not_mem_nil, or_false] at hx
    exact (hL x hx).1

/-- `rb_insert` returns the resident, or it adds the node. -/
theorem KeyedTree.insert (h : KeyedTree s keyOf residents L) (hcmp : KeyCmp cmp) (hnode : node ∉ L) :
    ∃ s' L', Prog.Returns (rbInsert (fun k x => cmp k (keyOf x)) (keyOf node) node s)
        (residents (keyOf node), s') ∧
      (residents (keyOf node) ≠ none → s' = s) ∧
      KeyedTree s' keyOf (insertResident residents (keyOf node) node) L' := by
  obtain ⟨t, hf, hrb, rfl⟩ := h.holds
  have hb₀ : ∀ a ∈ before ([] : List (Frame ι RbColor)), keyOf a < keyOf node := by simp [before]
  obtain ⟨r, hret, hr⟩ := rbInsertDown_returns (hcmp.orders keyOf) hf h.sorted hb₀ (by simp [after])
  cases hr with
  | @resident x hx hk =>
      have hres : residents (keyOf node) = some x := (h.resident _ _).mpr ⟨hx, hk⟩
      refine ⟨s, t.toList, ?_, fun _ => rfl, ?_⟩
      · rw [hres]
        exact Prog.returns_bind.mpr ⟨_, hret, Prog.returns_pure.mpr rfl⟩
      · unfold insertResident
        rw [hres]
        exact h
  | @place ctx hfill hb ha =>
      change fill ctx .nil = t at hfill
      subst hfill
      have hsplit : (fill ctx (.nil : LTree ι RbColor)).toList = before ctx ++ after ctx := by
        rw [toList_fill, LTree.toList_nil, List.append_nil]
      have hctx : node ∉ ctxNodes ctx := fun hm => hnode (mem_fill.mpr (.inr hm))
      obtain ⟨s', hs', hH, -⟩ := rbInsertColor_holds (Focus.fill_iff.mpr hf) hrb hctx
      have hres : residents (keyOf node) = none := by
        cases hx : residents (keyOf node) with
        | none => rfl
        | some x =>
            obtain ⟨hmem, hk⟩ := (h.resident _ _).mp hx
            rw [hsplit, List.mem_append] at hmem
            rcases hmem with hm | hm
            · exact absurd (hb x hm) (by rw [hk]; exact lt_irrefl _)
            · exact absurd (ha x hm) (by rw [hk]; exact lt_irrefl _)
      refine ⟨s', before ctx ++ node :: after ctx, ?_, fun hne => absurd hres hne, ?_, fun k n => ?_, hH⟩
      · rw [hres]
        exact Prog.returns_bind.mpr ⟨_, hret, Prog.returns_bind.mpr ⟨_, hs', Prog.returns_pure.mpr rfl⟩⟩
      · have hs := h.sorted
        rw [hsplit, List.pairwise_append] at hs
        obtain ⟨hA, hB, hAB⟩ := hs
        refine List.pairwise_append.mpr ⟨hA, List.pairwise_cons.mpr ⟨ha, hB⟩, fun a ha' b hb' => ?_⟩
        rcases List.mem_cons.mp hb' with rfl | hb'
        · exact hb a ha'
        · exact hAB a ha' b hb'
      · refine resident_insert h.resident hres (fun n => ?_) k n
        rw [hsplit, List.mem_append, List.mem_append, List.mem_cons]
        tauto

omit [DecidableEq ι] in
theorem mem_without_middle {A B : List ι} (h : node ∉ A ++ B) (n : ι) :
    n ∈ A ++ B ↔ n ≠ node ∧ n ∈ A ++ node :: B := by
  rw [List.mem_append, List.mem_append, List.mem_cons]
  constructor
  · intro hn
    refine ⟨?_, by tauto⟩
    rintro rfl
    exact h (List.mem_append.mpr hn)
  · tauto

/-- `rb_erase` takes the node out. -/
theorem KeyedTree.erase (h : KeyedTree s keyOf residents L) (hnode : node ∈ L) :
    ∃ s' L', Prog.Returns (rbErase node s) s' ∧
      KeyedTree s' keyOf (Function.update residents (keyOf node) none) L' := by
  obtain ⟨t, hf, hrb, rfl⟩ := h.holds
  have hnd := hf.nodup
  obtain ⟨ctx, l, c, r, rfl, hfx⟩ := hf.exists_of_mem hnode
  obtain ⟨s', hs', hH, -⟩ := rbErase_holds hfx hrb
  have hL : (fill ctx (.node l node c r)).toList =
      (before ctx ++ l.toList) ++ node :: (r.toList ++ after ctx) := by
    rw [toList_fill]
    simp
  have hL' : before ctx ++ (l.toList ++ r.toList) ++ after ctx =
      (before ctx ++ l.toList) ++ (r.toList ++ after ctx) := by simp
  rw [hL'] at hH
  refine ⟨s', _, hs', ?_, fun k n => ?_, hH⟩
  · have hs := h.sorted
    rw [hL] at hs
    exact hs.sublist (List.Sublist.append (List.Sublist.refl _) (List.sublist_cons_self _ _))
  · refine resident_erase h.resident hnode (fun n => ?_) k n
    rw [hL, List.nodup_middle, List.nodup_cons] at hnd
    rw [hL]
    exact mem_without_middle hnd.1 n

theorem RbReachable.keyed (hcmp : KeyCmp cmp) (h : RbReachable cmp s keyOf residents) :
    ∃ L, KeyedTree s keyOf residents L := by
  induction h with
  | root mem keyOf => exact ⟨[], .nil, by simp, .nil, Focus.empty rfl, ⟨rfl, 0, rfl⟩, rfl⟩
  | write _ hroot hsame ih =>
      obtain ⟨L, hL⟩ := ih
      exact ⟨L, hL.write hroot hsame⟩
  | @insert s s' keyOf residents node r _ hnode hrun ih =>
      obtain ⟨L, hL⟩ := ih
      have hnot : node ∉ L := fun hm => hnode _ ((hL.resident_iff node).mpr hm)
      obtain ⟨s₁, L', hret, -, hL'⟩ := hL.insert hcmp hnot
      obtain ⟨-, rfl⟩ := Prod.mk.inj (hrun.unique hret)
      exact ⟨L', hL'⟩
  | @erase s s' keyOf residents node _ hnode hrun ih =>
      obtain ⟨L, hL⟩ := ih
      obtain ⟨s₁, L', hret, hL'⟩ := hL.erase ((hL.resident_iff node).mp hnode)
      obtain rfl := hrun.unique hret
      exact ⟨L', hL'⟩

/-- **A keyed tree is a finite map.**  In every state that a program reaches, `rb_find` returns what
the map has for the key; `rb_insert` of a node that is not resident returns the resident node with its
key and changes nothing, or it returns no node and adds the new one to the map; `rb_erase` of a
resident returns; and `rb_for_each` visits exactly the residents, in the order of their keys. -/
theorem rb_map (hcmp : KeyCmp cmp) (h : RbReachable cmp s keyOf residents) :
    (∀ key, Prog.Returns (rbFind (fun k x => cmp k (keyOf x)) key s) (residents key)) ∧
      (∀ node, (∀ k, residents k ≠ some node) → ∃ s',
        Prog.Returns (rbInsert (fun k x => cmp k (keyOf x)) (keyOf node) node s)
          (residents (keyOf node), s') ∧
        (residents (keyOf node) ≠ none → s' = s) ∧
        RbReachable cmp s' keyOf (insertResident residents (keyOf node) node)) ∧
      (∀ node, residents (keyOf node) = some node → ∃ s', Prog.Returns (rbErase node s) s' ∧
        RbReachable cmp s' keyOf (Function.update residents (keyOf node) none)) ∧
      ∃ L, Prog.Returns (rbForEach s) L ∧ L.Pairwise (fun a b => keyOf a < keyOf b) ∧
        ∀ k n, residents k = some n ↔ n ∈ L ∧ keyOf n = k := by
  obtain ⟨L, hL⟩ := h.keyed hcmp
  obtain ⟨t, hf, -, rfl⟩ := id hL.holds
  refine ⟨fun key => ?_, fun node hnode => ?_, fun node hnode => ?_,
    t.toList, rbForEach_returns hf, hL.sorted, hL.resident⟩
  · obtain ⟨r, hret, hr⟩ := @rbFind_returns _ _ _ _ _ key _ _ _ (hcmp.orders keyOf) hf.linked hL.sorted
    have hroot : s.root = t.top := hf.ctx_linked
    have heq : r = residents key := by
      refine Option.ext fun n => ?_
      rw [hr, hL.resident]
    unfold rbFind
    rw [hroot, ← heq]
    exact hret
  · have hnot : node ∉ t.toList := fun hm => hnode _ ((hL.resident_iff node).mpr hm)
    obtain ⟨s', -, hret, hsame, -⟩ := hL.insert hcmp hnot
    exact ⟨s', hret, hsame, h.insert hnode hret⟩
  · obtain ⟨s', -, hret, -⟩ := hL.erase ((hL.resident_iff node).mp hnode)
    exact ⟨s', hret, h.erase hnode hret⟩

omit [DecidableEq ι] in
theorem insertResident_of_none {key : κ} (h : residents key = none) :
    insertResident residents key node = fun k => if k = key then some node else residents k := by
  funext k
  unfold insertResident
  rw [h]
  exact Function.update_apply residents key (some node) k

/-- The order of the natural numbers. -/
theorem keyCmp_sub : KeyCmp fun a b : ℕ => (a : ℤ) - b := by
  intro a b
  change ((a : ℤ) - b < 0 ↔ a < b) ∧ ((a : ℤ) - b > 0 ↔ b < a)
  omega

/-- Three nodes with falling keys are inserted, a fourth one has a key that is there, and the first one is
erased.  The key of a node is its remainder by 6. -/
theorem rb_map_calls : ∃ s₁ s₂ s₃ s₄ : RbRoot ℕ, ∃ L,
    Prog.Returns (rbInsert (fun k x : ℕ => (k : ℤ) - (x % 6 : ℕ)) 5 5 (rbRoot fun _ => ⟨none, .red, none, none⟩)) (none, s₁) ∧
      Prog.Returns (rbInsert (fun k x : ℕ => (k : ℤ) - (x % 6 : ℕ)) 4 4 s₁) (none, s₂) ∧
      Prog.Returns (rbInsert (fun k x : ℕ => (k : ℤ) - (x % 6 : ℕ)) 3 3 s₂) (none, s₃) ∧
      Prog.Returns (rbInsert (fun k x : ℕ => (k : ℤ) - (x % 6 : ℕ)) 3 9 s₃) (some 3, s₃) ∧
      Prog.Returns (rbErase 5 s₃) s₄ ∧ Prog.Returns (rbForEach s₄) L ∧
      L.Pairwise (fun a b => a % 6 < b % 6) ∧ ∀ n, n ∈ L ↔ n = 3 ∨ n = 4 := by
  have h₀ : RbReachable (fun a b : ℕ => (a : ℤ) - b) (rbRoot fun _ : ℕ => ⟨none, .red, none, none⟩) (fun n => n % 6)
    fun _ => none := .root _ _
  obtain ⟨s₁, hs₁, -, h₁⟩ := (rb_map keyCmp_sub h₀).2.1 5 (by simp)
  rw [insertResident_of_none rfl] at h₁
  obtain ⟨s₂, hs₂, -, h₂⟩ := (rb_map keyCmp_sub h₁).2.1 4 (by intro k; split_ifs <;> simp)
  rw [insertResident_of_none rfl] at h₂
  obtain ⟨s₃, hs₃, -, h₃⟩ := (rb_map keyCmp_sub h₂).2.1 3 (by intro k; split_ifs <;> simp)
  rw [insertResident_of_none rfl] at h₃
  obtain ⟨s₃', hs₃', hsame, -⟩ := (rb_map keyCmp_sub h₃).2.1 9 (by intro k; split_ifs <;> simp)
  obtain rfl := hsame (by simp)
  obtain ⟨s₄, hs₄, h₄⟩ := (rb_map keyCmp_sub h₃).2.2.1 5 (by simp)
  obtain ⟨-, -, -, L, hwalk, hsorted, hL⟩ := rb_map keyCmp_sub h₄
  refine ⟨s₁, s₂, _, s₄, L, hs₁, hs₂, hs₃, hs₃', hs₄, hwalk, hsorted, fun n => ⟨fun hn => ?_, ?_⟩⟩
  · have hres := (hL (n % 6) n).mpr ⟨hn, rfl⟩
    rw [Function.update_apply] at hres
    split_ifs at hres <;> grind
  · rintro (rfl | rfl)
    · exact ((hL 3 3).mp (by simp)).1
    · exact ((hL 4 4).mp (by simp)).1

end
end Libls.Rb
