import Libls.HashLists

/-! # What the `hlist` functions do to the lists

Adding is one step, at whatever slot it happens: the new node takes over what the slot held, and the slot
holds the node (`insertAt`).  Removal and moving are the way back (`handOver`).  Besides the lists, a program knows nodes that
are on none but were initialised, or look as if they were on a list (`Idle`). -/

namespace Libls.HashLists

open Slot

variable {κ ι : Type}

/-! ### Lists and idle nodes -/

/-- The slot `p` holds `x`, and `x` knows it. -/
def Points (s : HlistMem κ ι) (p : Slot κ ι) (x : ι) : Prop := load p s = .node x ∧ (s.node x).pprev = .slot p

/-- The slot `p` holds nothing. -/
def Empty (s : HlistMem κ ι) (p : Slot κ ι) : Prop := load p s = .null

/-- What a node may be that is on no list. -/
inductive Idle where
  /-- after `INIT_HLIST_NODE` or `hlist_del_init` -/
  | unhashed
  /-- after `hlist_add_fake` -/
  | fake
deriving DecidableEq, Repr

/-- What is in an idle node. -/
def Idle.node (n : ι) : Idle → HlistNode κ ι
  | .unhashed => ⟨.null, .null⟩
  | .fake => ⟨.null, .slot (.next n)⟩

/-- The lists of a program and its idle nodes. -/
structure HlistState (κ ι : Type) where
  lists : HeadLists κ ι
  idle : ι → Option Idle

/-- The memory holds the lists and the idle nodes. -/
structure Represents (s : HlistMem κ ι) (A : HlistState κ ι) : Prop where
  lists : SlotLists (Points s) (Empty s) A.lists
  free : ∀ n i, A.idle n = some i → A.lists.Free n
  idle : ∀ n i, A.idle n = some i → s.node n = i.node n

variable [DecidableEq κ] [DecidableEq ι] {s : HlistMem κ ι} {A : HlistState κ ι} {h : κ} {n x : ι} {as bs xs : List ι}
  {p : Slot κ ι}

namespace HlistState

/-- The list of `h` becomes `xs`. -/
def setList (A : HlistState κ ι) (h : κ) (xs : List ι) : HlistState κ ι := { A with lists := A.lists.set h (some xs) }

def setIdle (A : HlistState κ ι) (n : ι) (i : Option Idle) : HlistState κ ι :=
  { A with idle := fun m => if m = n then i else A.idle m }

omit [DecidableEq ι] in
@[simp] theorem setList_setList {xs ys : List ι} : (A.setList h xs).setList h ys = A.setList h ys := by
  simp only [setList, HlistState.mk.injEq, and_true]
  funext k
  rcases eq_or_ne k h with rfl | hk
  · rw [HeadLists.set_self, HeadLists.set_self]
  · rw [HeadLists.set_ne hk, HeadLists.set_ne hk, HeadLists.set_ne hk]

omit [DecidableEq ι] in
theorem setList_eq_self (hL : A.lists h = some xs) : A.setList h xs = A := by
  have hset : A.lists.set h (some xs) = A.lists := by
    funext k
    rcases eq_or_ne k h with rfl | hk
    · rw [HeadLists.set_self, hL]
    · rw [HeadLists.set_ne hk]
  rw [setList, hset]

omit [DecidableEq ι] in
@[simp] theorem setList_lists : (A.setList h xs).lists h = some xs := HeadLists.set_self

end HlistState

/-! ### Insertion and removal at a slot -/

/-- `if (n) n->pprev = v`, where `n` is no poison. -/
def fixPprev (c : HlistPtr ι) (v : HlistPprev κ ι) (s : HlistMem κ ι) : HlistMem κ ι :=
  match c with
  | .node y => setPprev y v s
  | _ => s

def insertAt (p : Slot κ ι) (n : ι) (s : HlistMem κ ι) : HlistMem κ ι :=
  setPprev n (.slot p) (store p (.node n) (fixPprev (load p s) (.slot (.next n)) (store (.next n) (load p s) s)))

/-- The slot `p` gets what `q` holds. -/
def handOver (q p : Slot κ ι) (s : HlistMem κ ι) : HlistMem κ ι :=
  fixPprev (load q s) (.slot p) (store p (load q s) s)

omit [DecidableEq κ] in
@[simp] theorem load_fixPprev {q : Slot κ ι} {c : HlistPtr ι} {v : HlistPprev κ ι} :
    load q (fixPprev c v s) = load q s := by
  cases c <;> simp [fixPprev]

omit [DecidableEq κ] in
@[simp] theorem pprev_fixPprev {c : HlistPtr ι} {v : HlistPprev κ ι} :
    ((fixPprev c v s).node x).pprev = if c = .node x then v else (s.node x).pprev := by
  cases c with
  | node y =>
      rcases eq_or_ne y x with rfl | hne
      · simp [fixPprev]
      · simp [fixPprev, hne, hne.symm]
  | null => simp [fixPprev]
  | poison1 => simp [fixPprev]

omit [DecidableEq κ] [DecidableEq ι] in
/-- A slot on the way of a list holds nothing or the node that knows it. -/
theorem holds_of_leads {xs : List ι} (hl : Leads (Points s) (Empty s) p xs) :
    Empty s p ∨ ∃ y ∈ xs, Points s p y := by
  cases xs with
  | nil => exact .inl hl
  | cons y ys => exact .inr ⟨y, List.mem_cons_self, hl.1⟩

theorem takesOver_insertAt (hp : p ≠ .next n) (hnull : (s.node n).pprev = .null)
    (hhold : ∀ y, load p s = .node y → (s.node y).pprev = .slot p) :
    TakesOver (Points s) (Empty s) (Points (insertAt p n s)) (Empty (insertAt p n s)) p (.next n) := by
  have hne : ∀ r y, Points s r y → y ≠ n := by
    rintro r y hr rfl
    rw [hr.2] at hnull
    cases hnull
  constructor
  · intro x hx
    have hxn := hne p x hx
    simp [Points, insertAt, hx.1, hp.symm, hxn]
  · intro he
    have he' : load p s = .null := he
    simp [Empty, insertAt, he', hp.symm]
  · intro r x hr hrp hrn
    have hxn := hne r x hr
    have hload : load p s ≠ .node x := by
      intro hl
      have hpx := hhold x hl
      rw [hr.2] at hpx
      cases hpx
      exact hrp rfl
    simp [Points, insertAt, hr.1, hr.2, hrp, hrn, hxn, hload]
  · intro r hr hrp hrn
    have hr' : load r s = .null := hr
    simp [Empty, insertAt, hr', hrp, hrn]

theorem points_insertAt : Points (insertAt p n s) p n := by simp [Points, insertAt]

theorem takesOver_handOver {q : Slot κ ι} (hhold : ∀ y, load q s = .node y → (s.node y).pprev = .slot q) :
    TakesOver (Points s) (Empty s) (Points (handOver q p s)) (Empty (handOver q p s)) q p := by
  constructor
  · intro x hx
    simp [Points, handOver, hx.1]
  · intro he
    have he' : load q s = .null := he
    simp [Empty, handOver, he']
  · intro r x hr hrq hrp
    have hload : load q s ≠ .node x := by
      intro hl
      have hpx := hhold x hl
      rw [hr.2] at hpx
      cases hpx
      exact hrq rfl
    simp [Points, handOver, hr.1, hr.2, hrp, hload]
  · intro r hr hrq hrp
    have hr' : load r s = .null := hr
    simp [Empty, handOver, hr', hrp]

/-! ### What is kept -/

variable {i : Idle}

theorem load_initHlistNode : load p (initHlistNode n s) = if p = .next n then .null else load p s := by
  simp [initHlistNode]

theorem pprev_initHlistNode : ((initHlistNode n s).node x).pprev = if x = n then .null else (s.node x).pprev := by
  simp [initHlistNode]

omit [DecidableEq κ] [DecidableEq ι] in
theorem slot_ne_next (hfree : n ∉ as) : behind (.first h) as ≠ .next n := by
  intro hb
  rcases behind_mem (.first h) as with hb' | ⟨a, ha, hb'⟩
  · rw [hb] at hb'
    cases hb'
  · rw [hb] at hb'
    cases hb'
    exact hfree ha

omit [DecidableEq κ] [DecidableEq ι] in
/-- The memory of a node on no list does not matter to the lists. -/
theorem lists_of_eq_off {s' : HlistMem κ ι} {H : HeadLists κ ι} (hs : SlotLists (Points s) (Empty s) H)
    (hfree : H.Free n) (hfirst : s'.first = s.first) (hnode : ∀ x, x ≠ n → s'.node x = s.node x) :
    SlotLists (Points s') (Empty s') H := by
  have hkeep : ∀ h xs (p : Slot κ ι), H h = some xs → p ≠ .next n →
      (∀ x ∈ xs, Points s p x → Points s' p x) ∧ (Empty s p → Empty s' p) := by
    intro h xs p hL hp
    have hload : load p s' = load p s := by
      cases p with
      | first k => exact congrFun hfirst k
      | next y =>
          have hyn : y ≠ n := fun heq => hp (congrArg Slot.next heq)
          simp [load, hnode y hyn]
    constructor
    · rintro x hx ⟨hl, hpprev⟩
      have hxn : x ≠ n := by
        rintro rfl
        exact hfree h xs hL hx
      exact ⟨hload.trans hl, by rw [hnode x hxn, hpprev]⟩
    · exact fun he => hload.trans he
  apply hs.congr
  · intro h xs hL
    exact hkeep h xs (.first h) hL (by simp)
  · intro h xs y hL hy
    apply hkeep h xs (.next y) hL
    intro heq
    cases heq
    exact hfree h xs hL hy

/-- Nodes on no list may be initialised. -/
theorem Represents.lists_initHlistNode (hs : Represents s A) (hfree : A.lists.Free n) :
    SlotLists (Points (initHlistNode n s)) (Empty (initHlistNode n s)) A.lists := by
  refine lists_of_eq_off hs.lists hfree rfl ?_
  intro x hx
  simp [initHlistNode, store, setPprev, hx]

omit [DecidableEq κ] [DecidableEq ι] in
/-- The slots of lists are sound. -/
theorem Represents.hold_behind (hs : SlotLists (Points s) (Empty s) A.lists) (hL : A.lists h = some (as ++ bs)) :
    Empty s (behind (.first h) as) ∨ ∃ y ∈ bs, Points s (behind (.first h) as) y :=
  holds_of_leads (leads_append.mp (hs.leads h _ hL)).2

/-- **Insertion** behind `as`. -/
theorem Represents.insert (hs : Represents s A) (hL : A.lists h = some (as ++ bs)) (hfree : A.lists.Free n) :
    Represents (insertAt (behind (.first h) as) n (initHlistNode n s))
      ((A.setList h (as ++ n :: bs)).setIdle n none) := by
  have hnot : n ∉ as ++ bs := hfree h _ hL
  have hne : behind (.first h) as ≠ .next n := slot_ne_next fun hmem => hnot (List.mem_append_left bs hmem)
  have hinit := hs.lists_initHlistNode hfree
  have hhold := Represents.hold_behind hinit hL
  have hsound : ∀ y, load (behind (.first h) as) (initHlistNode n s) = .node y →
      ((initHlistNode n s).node y).pprev = .slot (behind (.first h) as) := by
    intro y hy
    rcases hhold with he | ⟨z, -, hz⟩
    · have he' : load (behind (.first h) as) (initHlistNode n s) = .null := he
      rw [he'] at hy
      cases hy
    · rw [hz.1] at hy
      cases hy
      exact hz.2
  constructor
  · exact hinit.insert hL hfree (takesOver_insertAt hne (by simp [pprev_initHlistNode]) hsound) points_insertAt
  · intro m i hm
    have hmn : m ≠ n := by
      rintro rfl
      simp [HlistState.setIdle] at hm
    have hm' : A.idle m = some i := by simpa [HlistState.setIdle, HlistState.setList, hmn] using hm
    have hmfree := hs.free m i hm'
    apply hmfree.set
    intro xs hxs hmem
    cases hxs
    rcases List.mem_append.mp hmem with hmem | hmem
    · exact hmfree h _ hL (List.mem_append_left bs hmem)
    · rcases List.mem_cons.mp hmem with rfl | hmem
      · exact hmn rfl
      · exact hmfree h _ hL (List.mem_append_right as hmem)
  · intro m i hm
    have hmn : m ≠ n := by
      rintro rfl
      simp [HlistState.setIdle] at hm
    have hm' : A.idle m = some i := by simpa [HlistState.setIdle, HlistState.setList, hmn] using hm
    have hmfree := hs.free m i hm' h _ hL
    rw [← hs.idle m i hm']
    have hslot : Slot.next m ≠ behind (.first h) as :=
      (slot_ne_next fun hmem => hmfree (List.mem_append_left bs hmem)).symm
    have hload : load (behind (.first h) as) (initHlistNode n s) ≠ .node m := by
      intro hl
      rcases hhold with he | ⟨z, hz, hp⟩
      · have he' : load (behind (.first h) as) (initHlistNode n s) = .null := he
        rw [he'] at hl
        cases hl
      · rw [hp.1] at hl
        cases hl
        exact hmfree (List.mem_append_right as hz)
    ext
    · show load (.next m) _ = load (.next m) s
      simp [insertAt, load_initHlistNode, hslot, hmn]
    · simp [insertAt, hmn, hload, pprev_initHlistNode]

/-! ### Adding -/

theorem load_insertAt_init {q : Slot κ ι} (hp : p ≠ .next n) :
    load q (insertAt p n (initHlistNode n s)) =
      if q = p then .node n else if q = .next n then load p s else load q s := by
  simp only [insertAt, load_setPprev, load_store, load_fixPprev, load_initHlistNode, hp, if_false]
  split
  · rfl
  · split
    · rfl
    · rfl

theorem pprev_insertAt_init (hp : p ≠ .next n) :
    ((insertAt p n (initHlistNode n s)).node x).pprev =
      if x = n then .slot p else if load p s = .node x then .slot (.next n) else (s.node x).pprev := by
  simp only [insertAt, pprev_setPprev, pprev_store, pprev_fixPprev, pprev_initHlistNode, load_initHlistNode, hp,
    if_false]
  split
  · rfl
  · rfl

omit [DecidableEq κ] in
theorem storePprev_eq {c : HlistPtr ι} {v : HlistPprev κ ι} (hc : c ≠ .poison1) :
    storePprev c v s = some (fixPprev c v s) := by
  cases c with
  | null => rfl
  | node y => rfl
  | poison1 => exact absurd rfl hc

omit [DecidableEq κ] [DecidableEq ι] in
theorem ne_poison {xs : List ι} (hp : Empty s p ∨ ∃ y ∈ xs, Points s p y) : load p s ≠ .poison1 := by
  intro heq
  rcases hp with he | ⟨y, -, hy⟩
  · cases heq.symm.trans he
  · cases heq.symm.trans hy.1

/-- **`hlist_add_head`** -/
theorem hlistAddHead_keeps (hs : Represents s A) (hL : A.lists h = some xs) (hfree : A.lists.Free n) :
    ∃ s', hlistAddHead n h s = some s' ∧ Represents s' ((A.setList h (n :: xs)).setIdle n none) := by
  have hL' : A.lists h = some ([] ++ xs) := hL
  refine ⟨_, ?_, hs.insert hL' hfree⟩
  have hne : (Slot.first h : Slot κ ι) ≠ .next n := by simp
  have hpoison : load (.first h) s ≠ .poison1 := ne_poison (Represents.hold_behind hs.lists hL')
  rw [hlistAddHead, show s.first h = load (.first h) s from rfl, storePprev_eq hpoison]
  simp only [Option.bind_eq_bind, Option.bind_some, Option.pure_def, Option.some.injEq, behind]
  apply mem_ext
  · intro q
    rw [load_setPprev, load_store, load_fixPprev, load_store, load_insertAt_init hne]
  · intro x
    rw [pprev_setPprev, pprev_store, pprev_fixPprev, pprev_store, pprev_insertAt_init hne]

/-- **`hlist_add_before`** -/
theorem hlistAddBefore_keeps {next : ι} (hs : Represents s A) (hL : A.lists h = some (as ++ next :: bs))
    (hfree : A.lists.Free n) :
    ∃ s', hlistAddBefore n next s = some s' ∧
      Represents s' ((A.setList h (as ++ n :: next :: bs)).setIdle n none) := by
  refine ⟨_, ?_, hs.insert hL hfree⟩
  have hnot := hfree h _ hL
  have hne : behind (.first h) as ≠ .next n := slot_ne_next fun hmem => hnot (List.mem_append_left _ hmem)
  have hnext : n ≠ next := by
    rintro rfl
    exact hnot (List.mem_append_right as List.mem_cons_self)
  have hpoints : Points s (behind (.first h) as) next := (leads_append.mp (hs.lists.leads h _ hL)).2.1
  simp only [hlistAddBefore, pprev_setPprev, pprev_store, hnext, if_false, if_true, hpoints.2, storeAt,
    Option.some.injEq]
  apply mem_ext
  · intro q
    rw [load_store, load_setPprev, load_store, load_setPprev, load_insertAt_init hne, hpoints.1]
  · intro x
    rw [pprev_store, pprev_setPprev, pprev_store, pprev_setPprev, pprev_insertAt_init hne, hpoints.1]
    grind

/-- **`hlist_add_after`** -/
theorem hlistAddAfter_keeps {next : ι} (hs : Represents s A) (hL : A.lists h = some (as ++ n :: bs))
    (hfree : A.lists.Free next) :
    ∃ s', hlistAddAfter n next s = some s' ∧
      Represents s' ((A.setList h (as ++ n :: next :: bs)).setIdle next none) := by
  have hL' : A.lists h = some ((as ++ [n]) ++ bs) := by rwa [List.append_assoc]
  have hins := hs.insert hL' hfree
  rw [behind_concat, List.append_assoc] at hins
  refine ⟨_, ?_, hins⟩
  have hnot := hfree h _ hL
  have hne : (Slot.next n : Slot κ ι) ≠ .next next := by
    intro heq
    cases heq
    exact hnot (List.mem_append_right as List.mem_cons_self)
  have hhold := Represents.hold_behind hs.lists hL'
  rw [behind_concat] at hhold
  have hpoison : load (.next n) s ≠ .poison1 := ne_poison hhold
  have hother : load (.next n) s ≠ .node next := by
    intro heq
    rcases hhold with he | ⟨y, hy, hp⟩
    · cases heq.symm.trans he
    · cases heq.symm.trans hp.1
      exact hnot (List.mem_append_right as (List.mem_cons_of_mem n hy))
  have hload : ∀ s : HlistMem κ ι, (s.node next).next = load (.next next) s := fun _ => rfl
  simp only [hlistAddAfter, hload, load_setPprev, load_store, hne.symm, if_false, if_true]
  rw [show (s.node n).next = load (.next n) s from rfl, storePprev_eq hpoison, Option.some.injEq]
  apply mem_ext
  · intro q
    rw [load_fixPprev, load_setPprev, load_store, load_store, load_insertAt_init hne]
  · intro x
    rw [pprev_fixPprev, pprev_setPprev, pprev_store, pprev_store, pprev_insertAt_init hne]
    grind

/-! ### Removing -/

omit [DecidableEq κ] [DecidableEq ι] in
/-- What the list functions find at a node of a list. -/
theorem Represents.node_of (hs : SlotLists (Points s) (Empty s) A.lists) (hL : A.lists h = some (as ++ n :: bs)) :
    Points s (behind (.first h) as) n ∧ (Empty s (.next n) ∨ ∃ y ∈ bs, Points s (.next n) y) := by
  have hl := (leads_append.mp (hs.leads h _ hL)).2
  exact ⟨hl.1, holds_of_leads hl.2⟩

/-- **`__hlist_del`** of a node on a list. -/
theorem hlistUnlink_eq (hs : Represents s A) (hL : A.lists h = some (as ++ n :: bs)) :
    hlistUnlink n s = some (handOver (.next n) (behind (.first h) as) s) := by
  obtain ⟨hpoints, hhold⟩ := Represents.node_of hs.lists hL
  have hpoison : load (.next n) s ≠ .poison1 := ne_poison hhold
  rw [hlistUnlink, show (s.node n).next = load (.next n) s from rfl, hpoints.2]
  simp [storeAt, storePprev_eq hpoison, handOver]

theorem Represents.remove (hs : Represents s A) (hL : A.lists h = some (as ++ n :: bs)) :
    Represents (handOver (.next n) (behind (.first h) as) s) (A.setList h (as ++ bs)) := by
  obtain ⟨-, hhold⟩ := Represents.node_of hs.lists hL
  have hnd := hs.lists.nodup h _ hL
  have hnot : n ∉ as ++ bs := (List.nodup_cons.mp (List.nodup_middle.mp hnd)).1
  have hsound : ∀ y, load (.next n) s = .node y → (s.node y).pprev = .slot (.next n) := by
    intro y hy
    rcases hhold with he | ⟨z, -, hz⟩
    · cases hy.symm.trans he
    · cases hy.symm.trans hz.1
      exact hz.2
  have hsub : ∀ y, y ∈ as ++ bs → y ∈ as ++ n :: bs := by
    intro y hy
    simp only [List.mem_append, List.mem_cons] at hy ⊢
    tauto
  constructor
  · exact hs.lists.remove hL (takesOver_handOver hsound)
  · intro m i hm
    have hmfree := hs.free m i hm
    apply hmfree.set
    intro xs hxs hmem
    cases hxs
    exact hmfree h _ hL (hsub m hmem)
  · intro m i hm
    have hmfree := hs.free m i hm h _ hL
    rw [← hs.idle m i hm]
    have hslot : Slot.next m ≠ behind (.first h) as :=
      (slot_ne_next fun hmem => hmfree (List.mem_append_left _ hmem)).symm
    have hload : load (.next n) s ≠ .node m := by
      intro hl
      rcases hhold with he | ⟨z, hz, hp⟩
      · cases hl.symm.trans he
      · cases hl.symm.trans hp.1
        exact hmfree (List.mem_append_right as (List.mem_cons_of_mem n hz))
    ext
    · show load (.next m) _ = load (.next m) s
      simp [handOver, hslot]
    · simp [handOver, hload]

omit [DecidableEq κ] [DecidableEq ι] in
/-- The memory of a node on no list may be anything, if the node is not idle. -/
theorem Represents.of_eq_off {s' : HlistMem κ ι} (hs : Represents s A) (hfree : A.lists.Free n) (hidle : A.idle n = none)
    (hfirst : s'.first = s.first) (hnode : ∀ x, x ≠ n → s'.node x = s.node x) : Represents s' A := by
  refine ⟨lists_of_eq_off hs.lists hfree hfirst hnode, hs.free, ?_⟩
  intro m i hm
  have hmn : m ≠ n := by
    rintro rfl
    rw [hidle] at hm
    cases hm
  rw [hnode m hmn, hs.idle m i hm]

omit [DecidableEq κ] in
/-- A node that is on no list becomes idle. -/
theorem Represents.setIdle {s' : HlistMem κ ι} (hs : Represents s A) (hfree : A.lists.Free n)
    (hfirst : s'.first = s.first) (hnode : ∀ x, x ≠ n → s'.node x = s.node x) (hn : s'.node n = i.node n) :
    Represents s' (A.setIdle n (some i)) := by
  refine ⟨lists_of_eq_off hs.lists hfree hfirst hnode, ?_, ?_⟩
  · intro m j hm
    rcases eq_or_ne m n with rfl | hmn
    · exact hfree
    · have hm' : A.idle m = some j := by simpa [HlistState.setIdle, hmn] using hm
      exact hs.free m j hm'
  · intro m j hm
    rcases eq_or_ne m n with rfl | hmn
    · have hij : i = j := by simpa [HlistState.setIdle] using hm
      rw [hn, hij]
    · have hm' : A.idle m = some j := by simpa [HlistState.setIdle, hmn] using hm
      rw [hnode m hmn, hs.idle m j hm']

omit [DecidableEq κ] in
/-- A node on no list is idle no more. -/
theorem Represents.unidle {s' : HlistMem κ ι} (hs : Represents s A) (hfree : A.lists.Free n)
    (hfirst : s'.first = s.first) (hnode : ∀ x, x ≠ n → s'.node x = s.node x) :
    Represents s' (A.setIdle n none) := by
  refine ⟨lists_of_eq_off hs.lists hfree hfirst hnode, ?_, ?_⟩
  · intro m j hm
    have hm' : m ≠ n ∧ A.idle m = some j := by simpa [HlistState.setIdle] using hm
    exact hs.free m j hm'.2
  · intro m j hm
    have hm' : m ≠ n ∧ A.idle m = some j := by simpa [HlistState.setIdle] using hm
    rw [hnode m hm'.1, hs.idle m j hm'.2]

omit [DecidableEq ι] in
/-- The node that leaves a list is on none, and not idle. -/
theorem Represents.removed (hs : Represents s A) (hL : A.lists h = some (as ++ n :: bs)) :
    (A.setList h (as ++ bs)).lists.Free n ∧ A.idle n = none := by
  have hmem : n ∈ as ++ n :: bs := List.mem_append_right as List.mem_cons_self
  constructor
  · intro k xs hxs hx
    rcases eq_or_ne k h with rfl | hk
    · have hxs' : as ++ bs = xs := by simpa [HlistState.setList] using hxs
      subst hxs'
      exact (List.nodup_cons.mp (List.nodup_middle.mp (hs.lists.nodup k _ hL))).1 hx
    · have hxs' : A.lists k = some xs := (HeadLists.set_ne hk).symm.trans hxs
      exact hk (hs.lists.apart k h xs _ n hxs' hL hx hmem)
  · cases hi : A.idle n with
    | none => rfl
    | some i => exact absurd hmem (hs.free n i hi h _ hL)

/-- **`hlist_del`** -/
theorem hlistDel_keeps (hs : Represents s A) (hL : A.lists h = some (as ++ n :: bs)) :
    ∃ s', hlistDel n s = some s' ∧ Represents s' (A.setList h (as ++ bs)) := by
  obtain ⟨hfree, hidle⟩ := hs.removed hL
  refine ⟨_, by rw [hlistDel, hlistUnlink_eq hs hL]; rfl, ?_⟩
  refine (hs.remove hL).of_eq_off hfree hidle rfl ?_
  intro x hx
  simp [store, setPprev, hx]

/-- **`hlist_del_init`** of a node on a list. -/
theorem hlistDelInit_keeps (hs : Represents s A) (hL : A.lists h = some (as ++ n :: bs)) :
    ∃ s', hlistDelInit n s = some s' ∧ Represents s' ((A.setList h (as ++ bs)).setIdle n (some .unhashed)) := by
  obtain ⟨hfree, -⟩ := hs.removed hL
  have hhashed : hlistUnhashed n s = false := by
    simp [hlistUnhashed, (Represents.node_of hs.lists hL).1.2]
  refine ⟨initHlistNode n (handOver (.next n) (behind (.first h) as) s), ?_, ?_⟩
  · rw [hlistDelInit, hhashed, hlistUnlink_eq hs hL]
    rfl
  · refine (hs.remove hL).setIdle hfree rfl ?_ ?_
    · intro x hx
      simp [initHlistNode, store, setPprev, hx]
    · simp [initHlistNode, store, setPprev, Idle.node]

/-! ### Idle nodes -/

/-- **`INIT_HLIST_NODE`** -/
theorem initHlistNode_keeps (hs : Represents s A) (hfree : A.lists.Free n) :
    Represents (initHlistNode n s) (A.setIdle n (some .unhashed)) := by
  refine hs.setIdle hfree rfl ?_ ?_
  · intro x hx
    simp [initHlistNode, store, setPprev, hx]
  · simp [initHlistNode, store, setPprev, Idle.node]

omit [DecidableEq κ] in
/-- **`hlist_add_fake`** -/
theorem hlistAddFake_keeps (hs : Represents s A) (hn : A.idle n = some .unhashed) :
    Represents (hlistAddFake n s) (A.setIdle n (some .fake)) := by
  have hnode := hs.idle n _ hn
  refine hs.setIdle (hs.free n _ hn) rfl ?_ ?_
  · intro x hx
    simp [hlistAddFake, setPprev, hx]
  · simp [hlistAddFake, setPprev, hnode, Idle.node]

/-- **`hlist_del_init`** of an unhashed node. -/
theorem hlistDelInit_unhashed (hs : Represents s A) (hn : A.idle n = some .unhashed) : hlistDelInit n s = some s := by
  simp [hlistDelInit, hlistUnhashed, hs.idle n _ hn, Idle.node]

theorem hlistUnlink_fake (hs : Represents s A) (hn : A.idle n = some .fake) : hlistUnlink n s = some s := by
  have hnode := hs.idle n _ hn
  have hload : load (.next n) s = .null := by rw [load, hnode, Idle.node]
  rw [hlistUnlink, hnode]
  simp only [Idle.node, storeAt, storePprev, Option.bind_eq_bind, Option.bind_some, Option.some.injEq]
  apply mem_ext
  · intro q
    rw [load_store]
    split
    · next heq => rw [heq, hload]
    · rfl
  · intro x
    rw [pprev_store]

/-- **`hlist_del`** of a node that was added to no list. -/
theorem hlistDel_fake (hs : Represents s A) (hn : A.idle n = some .fake) :
    ∃ s', hlistDel n s = some s' ∧ Represents s' (A.setIdle n none) := by
  refine ⟨_, by rw [hlistDel, hlistUnlink_fake hs hn]; rfl, ?_⟩
  refine hs.unidle (hs.free n _ hn) rfl ?_
  intro x hx
  simp [store, setPprev, hx]

/-- **`hlist_del_init`** of a node that was added to no list. -/
theorem hlistDelInit_fake (hs : Represents s A) (hn : A.idle n = some .fake) :
    ∃ s', hlistDelInit n s = some s' ∧ Represents s' (A.setIdle n (some .unhashed)) := by
  refine ⟨initHlistNode n s, ?_, initHlistNode_keeps hs (hs.free n _ hn)⟩
  have hhashed : hlistUnhashed n s = false := by simp [hlistUnhashed, hs.idle n _ hn, Idle.node]
  rw [hlistDelInit, hhashed, hlistUnlink_fake hs hn]
  rfl

/-! ### Heads -/

/-- **`INIT_HLIST_HEAD`** -/
theorem initHlistHead_keeps (hs : Represents s A) : Represents (initHlistHead h s) (A.setList h []) := by
  constructor
  · apply hs.lists.put
    · intro k xs hk hL
      have hload : ∀ p : Slot κ ι, p ≠ .first h → load p (initHlistHead h s) = load p s := by
        intro p hp
        simp [initHlistHead, hp]
      have hpprev : ∀ x, ((initHlistHead h s).node x).pprev = (s.node x).pprev := fun x => by simp [initHlistHead]
      apply (hs.lists.leads k xs hL).congr
      · refine ⟨fun x _ hx => ⟨(hload _ (by simp [hk])).trans hx.1, (hpprev x).trans hx.2⟩, fun he => ?_⟩
        exact (hload _ (by simp [hk])).trans he
      · intro y _
        refine ⟨fun x _ hx => ⟨(hload _ (by simp)).trans hx.1, (hpprev x).trans hx.2⟩, fun he => ?_⟩
        exact (hload _ (by simp)).trans he
    · show load (.first h) (initHlistHead h s) = .null
      simp [initHlistHead]
    · exact List.nodup_nil
    · intro _ _ _ _ _ _
      exact List.not_mem_nil
  · intro m i hm
    apply (hs.free m i hm).set
    intro xs hxs
    cases hxs
    exact List.not_mem_nil
  · exact hs.idle

/-- **`hlist_move_list`** -/
theorem hlistMoveList_keeps {new : κ} (hs : Represents s A) (hL : A.lists h = some xs) (hne : new ≠ h) :
    ∃ s', hlistMoveList h new s = some s' ∧ Represents s' ((A.setList new xs).setList h []) := by
  have hhold : Empty s (.first h) ∨ ∃ y ∈ xs, Points s (.first h) y := holds_of_leads (hs.lists.leads h xs hL)
  have hsound : ∀ y, load (.first h) s = .node y → (s.node y).pprev = .slot (.first h) := by
    intro y hy
    rcases hhold with he | ⟨z, -, hz⟩
    · cases hy.symm.trans he
    · cases hy.symm.trans hz.1
      exact hz.2
  have htakes := takesOver_handOver (p := .first new) hsound
  refine ⟨store (.first h) .null (handOver (.first h) (.first new) s), ?_, ?_, ?_, ?_⟩
  · have hload : ∀ (k : κ) (s : HlistMem κ ι), s.first k = load (.first k) s := fun _ _ => rfl
    simp [hlistMoveList, hload, storePprev_eq (ne_poison hhold), handOver]
  · apply hs.lists.move hL hne
    · constructor
      · intro x hx
        obtain ⟨hl, hp⟩ := htakes.held x hx
        exact ⟨by simp [hne, hl], by simp [hp]⟩
      · intro he
        have hl := htakes.empty he
        exact (load_store.trans (if_neg (by simp [hne]))).trans hl
      · intro r x hr hrh hrn
        obtain ⟨hl, hp⟩ := htakes.keep r x hr hrh hrn
        exact ⟨by simp [hrh, hl], by simp [hp]⟩
      · intro r hr hrh hrn
        exact (load_store.trans (if_neg hrh)).trans (htakes.keepEmpty r hr hrh hrn)
    · show load (.first h) (store (.first h) .null _) = .null
      simp
  · intro m i hm
    have hmfree := hs.free m i hm
    refine (hmfree.set ?_).set ?_
    · intro ys hys
      cases hys
      exact hmfree h xs hL
    · intro ys hys
      cases hys
      exact List.not_mem_nil
  · intro m i hm
    have hmfree := hs.free m i hm h xs hL
    rw [← hs.idle m i hm]
    have hload : load (.first h) s ≠ .node m := by
      intro hl
      rcases hhold with he | ⟨y, hy, hp⟩
      · cases hl.symm.trans he
      · cases hl.symm.trans hp.1
        exact hmfree hy
    ext
    · show load (.next m) _ = load (.next m) s
      simp [handOver]
    · simp [handOver, hload]

end Libls.HashLists
