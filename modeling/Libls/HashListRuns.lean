import Libls.HashListOps
import Libls.Library.Prog

/-! # Runs of `hlist` functions, and loops over their lists

`HlistStep` says what each function is for and when it may be called; `hlistOps_keeps` carries whole runs over to
the memory.  The loops are `hlist_for_each` and `hlist_for_each_safe`. -/

namespace Libls.HashLists

open Slot

/-- A call of one of the functions. -/
inductive HlistOp (κ ι : Type) where
  | initHlistHead (h : κ)
  | initHlistNode (h : ι)
  | hlistDel (n : ι)
  | hlistDelInit (n : ι)
  | hlistAddHead (n : ι) (h : κ)
  | hlistAddBefore (n next : ι)
  | hlistAddAfter (n next : ι)
  | hlistAddFake (n : ι)
  | hlistMoveList (old new : κ)
deriving DecidableEq, Repr

variable {κ ι : Type} [DecidableEq κ] [DecidableEq ι]

def HlistOp.run : HlistOp κ ι → HlistMem κ ι → Option (HlistMem κ ι)
  | .initHlistHead h, s => some (HashLists.initHlistHead h s)
  | .initHlistNode h, s => some (HashLists.initHlistNode h s)
  | .hlistDel n, s => HashLists.hlistDel n s
  | .hlistDelInit n, s => HashLists.hlistDelInit n s
  | .hlistAddHead n h, s => HashLists.hlistAddHead n h s
  | .hlistAddBefore n m, s => HashLists.hlistAddBefore n m s
  | .hlistAddAfter n m, s => HashLists.hlistAddAfter n m s
  | .hlistAddFake n, s => some (HashLists.hlistAddFake n s)
  | .hlistMoveList old new, s => HashLists.hlistMoveList old new s

/-- A sequence of calls. -/
def hlistOps (ops : List (HlistOp κ ι)) (s : HlistMem κ ι) : Option (HlistMem κ ι) :=
  ops.foldlM (fun s op => op.run s) s

/-- What the functions are for.  Nodes that are added or initialised are on no list. -/
inductive HlistStep : HlistState κ ι → HlistOp κ ι → HlistState κ ι → Prop
  | initHead {A : HlistState κ ι} {h : κ} : HlistStep A (.initHlistHead h) (A.setList h [])
  | initNode {A : HlistState κ ι} {n : ι} (hfree : A.lists.Free n) :
      HlistStep A (.initHlistNode n) (A.setIdle n (some .unhashed))
  | del {A : HlistState κ ι} {h : κ} {n : ι} {as bs : List ι} (hL : A.lists h = some (as ++ n :: bs)) :
      HlistStep A (.hlistDel n) (A.setList h (as ++ bs))
  | delFake {A : HlistState κ ι} {n : ι} (hn : A.idle n = some .fake) : HlistStep A (.hlistDel n) (A.setIdle n none)
  | delInit {A : HlistState κ ι} {h : κ} {n : ι} {as bs : List ι} (hL : A.lists h = some (as ++ n :: bs)) :
      HlistStep A (.hlistDelInit n) ((A.setList h (as ++ bs)).setIdle n (some .unhashed))
  | delInitUnhashed {A : HlistState κ ι} {n : ι} (hn : A.idle n = some .unhashed) : HlistStep A (.hlistDelInit n) A
  | delInitFake {A : HlistState κ ι} {n : ι} (hn : A.idle n = some .fake) :
      HlistStep A (.hlistDelInit n) (A.setIdle n (some .unhashed))
  | addHead {A : HlistState κ ι} {h : κ} {n : ι} {xs : List ι} (hL : A.lists h = some xs) (hfree : A.lists.Free n) :
      HlistStep A (.hlistAddHead n h) ((A.setList h (n :: xs)).setIdle n none)
  | addBefore {A : HlistState κ ι} {h : κ} {n next : ι} {as bs : List ι} (hL : A.lists h = some (as ++ next :: bs))
      (hfree : A.lists.Free n) :
      HlistStep A (.hlistAddBefore n next) ((A.setList h (as ++ n :: next :: bs)).setIdle n none)
  | addAfter {A : HlistState κ ι} {h : κ} {n next : ι} {as bs : List ι} (hL : A.lists h = some (as ++ n :: bs))
      (hfree : A.lists.Free next) :
      HlistStep A (.hlistAddAfter n next) ((A.setList h (as ++ n :: next :: bs)).setIdle next none)
  | addFake {A : HlistState κ ι} {n : ι} (hn : A.idle n = some .unhashed) :
      HlistStep A (.hlistAddFake n) (A.setIdle n (some .fake))
  | moveList {A : HlistState κ ι} {old new : κ} {xs : List ι} (hL : A.lists old = some xs) (hne : new ≠ old) :
      HlistStep A (.hlistMoveList old new) ((A.setList new xs).setList old [])

variable {s : HlistMem κ ι} {A A' : HlistState κ ι} {op : HlistOp κ ι} {ops : List (HlistOp κ ι)} {h : κ} {n : ι}
  {xs : List ι}

/-- One call does to the memory what it is for. -/
theorem hlistOp_keeps (hstep : HlistStep A op A') (hs : Represents s A) :
    ∃ s', op.run s = some s' ∧ Represents s' A' := by
  cases hstep with
  | initHead => exact ⟨_, rfl, initHlistHead_keeps hs⟩
  | initNode hfree => exact ⟨_, rfl, initHlistNode_keeps hs hfree⟩
  | del hL => exact hlistDel_keeps hs hL
  | delFake hn => exact hlistDel_fake hs hn
  | delInit hL => exact hlistDelInit_keeps hs hL
  | delInitUnhashed hn => exact ⟨s, hlistDelInit_unhashed hs hn, hs⟩
  | delInitFake hn => exact hlistDelInit_fake hs hn
  | addHead hL hfree => exact hlistAddHead_keeps hs hL hfree
  | addBefore hL hfree => exact hlistAddBefore_keeps hs hL hfree
  | addAfter hL hfree => exact hlistAddAfter_keeps hs hL hfree
  | addFake hn => exact ⟨_, rfl, hlistAddFake_keeps hs hn⟩
  | moveList hL hne => exact hlistMoveList_keeps hs hL hne

/-- **Runs.**  The memory follows the lists and the idle nodes through every run. -/
theorem hlistOps_keeps (hrun : Run HlistStep A ops A') (hs : Represents s A) :
    ∃ s', hlistOps ops s = some s' ∧ Represents s' A' :=
  hrun.execs (fun _ _ _ _ hstep hs => hlistOp_keeps hstep hs) hs

/-! ### Tests -/

omit [DecidableEq κ] in
/-- **`hlist_empty`** -/
theorem hlistEmpty_eq (hs : Represents s A) (hL : A.lists h = some xs) : hlistEmpty h s = decide (xs = []) := by
  have hl := hs.lists.leads h xs hL
  cases xs with
  | nil =>
      have hfirst : s.first h = .null := hl
      simp [hlistEmpty, hfirst]
  | cons x xs =>
      have hfirst : s.first h = .node x := hl.1.1
      simp [hlistEmpty, hfirst]

/-- **`hlist_unhashed`** of a node on a list. -/
theorem hlistUnhashed_mem (hs : Represents s A) (hL : A.lists h = some xs) (hn : n ∈ xs) :
    hlistUnhashed n s = false := by
  obtain ⟨as, bs, rfl⟩ := List.append_of_mem hn
  simp [hlistUnhashed, (Represents.node_of hs.lists hL).1.2]

/-- **`hlist_unhashed`** of an idle node. -/
theorem hlistUnhashed_idle {i : Idle} (hs : Represents s A) (hn : A.idle n = some i) :
    hlistUnhashed n s = decide (i = .unhashed) := by
  rw [hlistUnhashed, hs.idle n i hn]
  cases i with
  | unhashed => rfl
  | fake => rfl

/-! ### Loops -/

variable {α : Type}

/-- `for (pos = start; pos; pos = pos->next)` -/
def hlistForEachFrom (body : ι → HlistMem κ ι × α → Prog (HlistMem κ ι × α)) (start : HlistPtr ι)
    (t : HlistMem κ ι × α) : Prog (HlistMem κ ι × α) :=
  Prog.iterate (fun p : HlistPtr ι × (HlistMem κ ι × α) =>
    match p.1 with
    | .null => return .done p.2
    | .node pos => do
        let t ← body pos p.2
        return .next ((t.1.node pos).next, t)
    | .poison1 => Prog.abort) (start, t)

def hlistForEach (h : κ) (body : ι → HlistMem κ ι × α → Prog (HlistMem κ ι × α)) (t : HlistMem κ ι × α) :
    Prog (HlistMem κ ι × α) := hlistForEachFrom body (t.1.first h) t

/-- `for (pos = start; pos && ({ n = pos->next; 1; }); pos = n)` -/
def hlistForEachSafeFrom (body : ι → HlistMem κ ι × α → Prog (HlistMem κ ι × α)) (start : HlistPtr ι)
    (t : HlistMem κ ι × α) : Prog (HlistMem κ ι × α) :=
  Prog.iterate (fun p : HlistPtr ι × (HlistMem κ ι × α) =>
    match p.1 with
    | .null => return .done p.2
    | .node pos => do
        let n := (p.2.1.node pos).next
        let t ← body pos p.2
        return .next (n, t)
    | .poison1 => Prog.abort) (start, t)

def hlistForEachSafe (h : κ) (body : ι → HlistMem κ ι × α → Prog (HlistMem κ ι × α)) (t : HlistMem κ ι × α) :
    Prog (HlistMem κ ι × α) := hlistForEachSafeFrom body (t.1.first h) t

variable {body : ι → HlistMem κ ι × α → Prog (HlistMem κ ι × α)} {t t' r : HlistMem κ ι × α}

omit [DecidableEq κ] [DecidableEq ι] in
theorem hlistForEachFrom_null : Prog.Returns (hlistForEachFrom body .null t) t :=
  Prog.Returns.iterate_done (by simp)

omit [DecidableEq κ] [DecidableEq ι] in
theorem hlistForEachFrom_node (hret : Prog.Returns (body n t) t') :
    Prog.Returns (hlistForEachFrom body (.node n) t) r ↔
      Prog.Returns (hlistForEachFrom body (t'.1.node n).next t') r := by
  apply Prog.returns_iterate_next
  simp only [Prog.returns_bind]
  exact ⟨t', hret, by simp⟩

omit [DecidableEq κ] [DecidableEq ι] in
theorem hlistForEachSafeFrom_null : Prog.Returns (hlistForEachSafeFrom body .null t) t :=
  Prog.Returns.iterate_done (by simp)

omit [DecidableEq κ] [DecidableEq ι] in
theorem hlistForEachSafeFrom_node (hret : Prog.Returns (body n t) t') :
    Prog.Returns (hlistForEachSafeFrom body (.node n) t) r ↔
      Prog.Returns (hlistForEachSafeFrom body (t.1.node n).next t') r := by
  apply Prog.returns_iterate_next
  simp only [Prog.returns_bind]
  exact ⟨t', hret, by simp⟩

/-- What a pointer to the first of `xs` is. -/
def ptrTo : List ι → HlistPtr ι
  | [] => .null
  | x :: _ => .node x

omit [DecidableEq κ] [DecidableEq ι] in
theorem load_of_leads {p : Slot κ ι} (hl : Leads (Points s) (Empty s) p xs) : load p s = ptrTo xs := by
  cases xs with
  | nil => exact hl
  | cons x xs => exact hl.1.1

omit [DecidableEq κ] [DecidableEq ι] in
/-- What comes behind a node of a list. -/
theorem Represents.load_next (hs : Represents s A) {as bs : List ι} (hL : A.lists h = some (as ++ n :: bs)) :
    (s.node n).next = ptrTo bs :=
  load_of_leads (leads_append.mp (hs.lists.leads h _ hL)).2.2

omit [DecidableEq κ] [DecidableEq ι] in
/-- **`hlist_for_each`** visits the list. -/
theorem hlistForEach_visits (hs : Represents s A) (hL : A.lists h = some xs) (f : α → ι → α) (a : α) :
    Prog.Returns (hlistForEach h (fun x t => return (t.1, f t.2 x)) (s, a)) (s, xs.foldl f a) := by
  have hloop : ∀ rest done, done ++ rest = xs →
      Prog.Returns (hlistForEachFrom (fun x t => return (t.1, f t.2 x)) (ptrTo rest) (s, done.foldl f a))
        (s, xs.foldl f a) := by
    intro rest
    induction rest with
    | nil =>
        intro done hxs
        rw [List.append_nil] at hxs
        exact hxs ▸ hlistForEachFrom_null
    | cons x rest ih =>
        intro done hxs
        have hrest := ih (done ++ [x]) (by rwa [List.append_assoc])
        rw [List.foldl_concat] at hrest
        rw [ptrTo, hlistForEachFrom_node (Prog.returns_pure.mpr rfl), hs.load_next (hxs ▸ hL)]
        exact hrest
  have hfirst : s.first h = ptrTo xs := load_of_leads (hs.lists.leads h xs hL)
  rw [hlistForEach, hfirst]
  exact hloop xs [] rfl

omit [DecidableEq κ] [DecidableEq ι] in
theorem represents_empty : Represents s ⟨fun _ => none, fun _ => none⟩ := by
  refine ⟨⟨?_, ?_, ?_⟩, ?_, ?_⟩
  · intro h xs hL
    cases hL
  · intro h xs hL
    cases hL
  · intro h h' xs xs' x hL
    cases hL
  · intro n i hn
    cases hn
  · intro n i hn
    cases hn

/-- **Runs and walks.**  From memory in which nothing was initialised yet, every run of calls goes through without
a fault.  Then each list has its nodes on it, no node is on two lists, and the tests tell empty lists from others
and nodes on lists from unhashed ones. -/
theorem hlistOps_walk {ops : List (HlistOp κ ι)} (hrun : Run HlistStep ⟨fun _ => none, fun _ => none⟩ ops A)
    (s : HlistMem κ ι) :
    ∃ s', hlistOps ops s = some s' ∧
      (∀ h xs, A.lists h = some xs → xs.Nodup ∧
        Prog.Returns (hlistForEach h (fun x t => return (t.1, t.2 ++ [x])) (s', [])) (s', xs) ∧
        hlistEmpty h s' = decide (xs = []) ∧ ∀ n ∈ xs, hlistUnhashed n s' = false) ∧
      (∀ n i, A.idle n = some i → hlistUnhashed n s' = decide (i = .unhashed) ∧ A.lists.Free n) ∧
      ∀ h h' xs xs' n, A.lists h = some xs → A.lists h' = some xs' → n ∈ xs → n ∈ xs' → h = h' := by
  have hsnoc : ∀ xs : List ι, xs.foldl (fun acc x => acc ++ [x]) [] = xs := by
    intro xs
    rw [List.foldl_append_eq_append, List.nil_append, ← List.flatMap_def, List.flatMap_singleton']
  obtain ⟨s', hs', hr⟩ := hlistOps_keeps hrun represents_empty
  refine ⟨s', hs', ?_, ?_, hr.lists.apart⟩
  · intro h xs hL
    have hvisit := hlistForEach_visits hr hL (fun acc x => acc ++ [x]) []
    rw [hsnoc] at hvisit
    exact ⟨hr.lists.nodup h xs hL, hvisit, hlistEmpty_eq hr hL, fun n hn => hlistUnhashed_mem hr hL hn⟩
  · intro n i hn
    exact ⟨hlistUnhashed_idle hr hn, hr.free n i hn⟩

/-- A run with one head: node 1 comes in, node 2 behind it, and 1 leaves again. -/
theorem nodes_run : ∃ A : HlistState ℕ ℕ, A.lists 0 = some [2, 3] ∧ A.idle 1 = some .unhashed ∧
    Run HlistStep ⟨fun _ => none, fun _ => none⟩
      [.initHlistHead 0, .hlistAddHead 1 0, .hlistAddAfter 1 2, .hlistDelInit 1, .hlistAddAfter 2 3] A := by
  let A₁ : HlistState ℕ ℕ := (⟨fun _ => none, fun _ => none⟩ : HlistState ℕ ℕ).setList 0 []
  let A₂ := (A₁.setList 0 [1]).setIdle 1 none
  let A₃ := (A₂.setList 0 [1, 2]).setIdle 2 none
  let A₄ := (A₃.setList 0 [2]).setIdle 1 (some .unhashed)
  have hfree : ∀ (A : HlistState ℕ ℕ) (n : ℕ) (xs : List ℕ), (∀ h, h ≠ 0 → A.lists h = none) → A.lists 0 = some xs →
      n ∉ xs → A.lists.Free n := by
    intro A n xs hother hzero hn h ys hys
    rcases eq_or_ne h 0 with rfl | hh
    · rw [hzero, Option.some.injEq] at hys
      exact hys ▸ hn
    · rw [hother h hh] at hys
      cases hys
  have hother : ∀ (A : HlistState ℕ ℕ) (xs : List ℕ), (∀ h, h ≠ 0 → A.lists h = none) →
      ∀ h, h ≠ 0 → (A.setList 0 xs).lists h = none := by
    intro A xs hA h hh
    exact (HeadLists.set_ne hh).trans (hA h hh)
  have h₁ : ∀ h, h ≠ 0 → A₁.lists h = none := hother _ _ fun _ _ => rfl
  have h₂ : ∀ h, h ≠ 0 → A₂.lists h = none := hother A₁ [1] h₁
  have h₃ : ∀ h, h ≠ 0 → A₃.lists h = none := hother A₂ [1, 2] h₂
  have h₄ : ∀ h, h ≠ 0 → A₄.lists h = none := hother A₃ [2] h₃
  have r₂ : HlistStep A₁ (.hlistAddHead 1 0) A₂ := .addHead rfl (hfree A₁ 1 [] h₁ rfl (by decide))
  have e₂ : A₂.lists 0 = some ([] ++ 1 :: []) := rfl
  have e₃ : A₃.lists 0 = some ([] ++ 1 :: [2]) := rfl
  have e₄ : A₄.lists 0 = some ([] ++ 2 :: []) := rfl
  have r₃ : HlistStep A₂ (.hlistAddAfter 1 2) A₃ := .addAfter e₂ (hfree A₂ 2 [1] h₂ rfl (by decide))
  have r₄ : HlistStep A₃ (.hlistDelInit 1) A₄ := .delInit e₃
  have r₅ : HlistStep A₄ (.hlistAddAfter 2 3) ((A₄.setList 0 [2, 3]).setIdle 3 none) :=
    .addAfter e₄ (hfree A₄ 3 [2] h₄ rfl (by decide))
  exact ⟨_, rfl, rfl, .cons .initHead <| .cons r₂ <| .cons r₃ <| .cons r₄ <| .single r₅⟩

theorem hlistOps_walk_nodes : ∃ s' : HlistMem ℕ ℕ,
    hlistOps [.initHlistHead 0, .hlistAddHead 1 0, .hlistAddAfter 1 2, .hlistDelInit 1, .hlistAddAfter 2 3]
        ⟨fun _ => .poison1, fun _ => ⟨.null, .poison2⟩⟩ = some s' ∧
      Prog.Returns (hlistForEach 0 (fun x t => return (t.1, t.2 ++ [x])) (s', [])) (s', [2, 3]) ∧
      hlistUnhashed 1 s' = true := by
  obtain ⟨A, hL, hidle, hrun⟩ := nodes_run
  obtain ⟨s', hs', hlists, hnodes, -⟩ := hlistOps_walk hrun ⟨fun _ => .poison1, fun _ => ⟨.null, .poison2⟩⟩
  exact ⟨s', hs', (hlists 0 _ hL).2.1, (hnodes 1 _ hidle).1⟩

/-! ### Removing nodes in a loop -/

/-- A body that takes the nodes in `p` off the list and frees them, and notes which nodes it was run on. -/
def delBody (p : ι → Bool) (junk : ι → HlistNode κ ι) (x : ι) (t : HlistMem κ ι × List ι) :
    Prog (HlistMem κ ι × List ι) :=
  if p x then do
    let s ← hlistDel x t.1
    return ({ s with node := fun y => if y = x then junk x else s.node y }, t.2 ++ [x])
  else return (t.1, t.2 ++ [x])

/-- What the body does to a node of the list. -/
theorem delBody_returns (p : ι → Bool) (junk : ι → HlistNode κ ι) {as bs : List ι} (hs : Represents s A)
    (hL : A.lists h = some (as ++ n :: bs)) (seen : List ι) :
    ∃ s', Prog.Returns (delBody p junk n (s, seen)) (s', seen ++ [n]) ∧
      Represents s' (A.setList h (as ++ ([n].filter (fun y => !p y) ++ bs))) := by
  cases hp : p n with
  | false =>
      refine ⟨s, by simp [delBody, hp], ?_⟩
      have hsame : as ++ ([n].filter (fun y => !p y) ++ bs) = as ++ n :: bs := by simp [hp]
      rwa [hsame, HlistState.setList_eq_self hL]
  | true =>
      obtain ⟨s₁, hs₁, hr₁⟩ := hlistDel_keeps hs hL
      obtain ⟨hfree, hidle⟩ := hs.removed hL
      refine ⟨{ s₁ with node := fun y => if y = n then junk n else s₁.node y }, by simp [delBody, hp, hs₁], ?_⟩
      have hless : as ++ ([n].filter (fun y => !p y) ++ bs) = as ++ bs := by simp [hp]
      rw [hless]
      refine hr₁.of_eq_off hfree hidle rfl ?_
      intro y hy
      simp [hy]

/-- **`hlist_for_each_safe`** may remove and free nodes: it is run on every node of the list, in order, and what
it did not remove is the list in the end. -/
theorem hlistForEachSafe_removes (hs : Represents s A) (hL : A.lists h = some xs) (p : ι → Bool)
    (junk : ι → HlistNode κ ι) :
    ∃ s', Prog.Returns (hlistForEachSafe h (delBody p junk) (s, [])) (s', xs) ∧
      Represents s' (A.setList h (xs.filter (fun y => !p y))) := by
  have hloop : ∀ (rest done : List ι) (s : HlistMem κ ι),
      Represents s (A.setList h (done.filter (fun y => !p y) ++ rest)) →
      ∃ s', Prog.Returns (hlistForEachSafeFrom (delBody p junk) (ptrTo rest) (s, done)) (s', done ++ rest) ∧
        Represents s' (A.setList h ((done ++ rest).filter (fun y => !p y))) := by
    intro rest
    induction rest with
    | nil =>
        intro done s hs
        rw [List.append_nil] at hs ⊢
        exact ⟨s, hlistForEachSafeFrom_null, hs⟩
    | cons x rest ih =>
        intro done s hs
        obtain ⟨s₁, hret₁, hr₁⟩ := delBody_returns p junk hs HlistState.setList_lists done
        rw [HlistState.setList_setList, ← List.append_assoc, ← List.filter_append] at hr₁
        obtain ⟨s₂, hret₂, hr₂⟩ := ih (done ++ [x]) s₁ hr₁
        rw [List.append_assoc] at hret₂ hr₂
        refine ⟨s₂, ?_, hr₂⟩
        rw [ptrTo, hlistForEachSafeFrom_node hret₁, hs.load_next HlistState.setList_lists]
        exact hret₂
  have hfirst : s.first h = ptrTo xs := load_of_leads (hs.lists.leads h xs hL)
  have hstart : Represents s (A.setList h (([] : List ι).filter (fun y => !p y) ++ xs)) := by
    rwa [List.filter_nil, List.nil_append, HlistState.setList_eq_self hL]
  rw [hlistForEachSafe, hfirst]
  exact hloop xs [] s hstart

theorem hlistForEachSafe_removes_nodes : ∃ s s' : HlistMem ℕ ℕ,
    Prog.Returns (hlistForEachSafe 0 (delBody (fun x => x == 2) fun _ => ⟨.poison1, .null⟩) (s, [])) (s', [2, 3]) ∧
      hlistUnhashed 3 s' = false := by
  obtain ⟨A, hL, -, hrun⟩ := nodes_run
  obtain ⟨s, -, hs⟩ := hlistOps_keeps (s := ⟨fun _ => .null, fun _ => ⟨.null, .null⟩⟩) hrun represents_empty
  obtain ⟨s', hret, hs'⟩ := hlistForEachSafe_removes hs hL (fun x => x == 2) fun _ => ⟨.poison1, .null⟩
  exact ⟨s, s', hret, hlistUnhashed_mem hs' HlistState.setList_lists (by decide)⟩

end Libls.HashLists
