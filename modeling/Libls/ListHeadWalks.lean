import Libls.ListHeadRuns
import Libls.Library.Prog

/-! # Loops over lists

`list_for_each` and its relatives in `include/ls/list.h`.  The body of a loop may change the memory and a
value of its own.  The macros that stop at `list_entry`s are these loops for entries that begin with their
`list_head`; `_reverse` and `_prev` follow `prev`, and `_continue` and `_from` start elsewhere.

A plain loop reads the link of an entry after the body has run, a safe one before: `forEachSafe_returns` lets
the body do to the entry whatever it likes. -/

namespace Libls.ListHeads

variable {ι α : Type} [DecidableEq ι]

/-- `for (pos = start; pos != (head); pos = pos->next)`, or with `prev` -/
def forEachFrom (dir : ListHead ι → ListPtr ι) (head : ι) (body : ι → ListMem ι × α → Prog (ListMem ι × α))
    (start : ListPtr ι) (t : ListMem ι × α) : Prog (ListMem ι × α) :=
  Prog.iterate (fun p : ListPtr ι × (ListMem ι × α) =>
    match p.1 with
    | .node pos =>
        if pos = head then return .done p.2
        else do
          let t ← body pos p.2
          return .next (dir (t.1 pos), t)
    | _ => Prog.abort) (start, t)

def listForEach (head : ι) (body : ι → ListMem ι × α → Prog (ListMem ι × α)) (t : ListMem ι × α) :
    Prog (ListMem ι × α) := forEachFrom ListHead.next head body (t.1 head).next t

def listForEachPrev (head : ι) (body : ι → ListMem ι × α → Prog (ListMem ι × α)) (t : ListMem ι × α) :
    Prog (ListMem ι × α) := forEachFrom ListHead.prev head body (t.1 head).prev t

/-- `for (pos = start, n = pos->next; pos != (head); pos = n, n = pos->next)`, or with `prev` -/
def forEachSafeFrom (dir : ListHead ι → ListPtr ι) (head : ι) (body : ι → ListMem ι × α → Prog (ListMem ι × α))
    (start : ListPtr ι) (t : ListMem ι × α) : Prog (ListMem ι × α) :=
  match start with
  | .node pos =>
      Prog.iterate (fun p : (ι × ListPtr ι) × (ListMem ι × α) =>
        if p.1.1 = head then return .done p.2
        else do
          let t ← body p.1.1 p.2
          match p.1.2 with
          | .node n => return .next ((n, dir (t.1 n)), t)
          | _ => Prog.abort) ((pos, dir (t.1 pos)), t)
  | _ => Prog.abort

def listForEachSafe (head : ι) (body : ι → ListMem ι × α → Prog (ListMem ι × α)) (t : ListMem ι × α) :
    Prog (ListMem ι × α) := forEachSafeFrom ListHead.next head body (t.1 head).next t

def listForEachPrevSafe (head : ι) (body : ι → ListMem ι × α → Prog (ListMem ι × α)) (t : ListMem ι × α) :
    Prog (ListMem ι × α) := forEachSafeFrom ListHead.prev head body (t.1 head).prev t

/-! ### Rules -/

/-- From `x`, the links in one direction lead through `xs` to `head`. -/
def Leads (dir : ListHead ι → ListPtr ι) (s : ListMem ι) (x : ι) (xs : List ι) (head : ι) : Prop :=
  List.IsChain (fun a b => dir (s a) = .node b) (x :: (xs ++ [head]))

variable {dir : ListHead ι → ListPtr ι} {head x : ι} {body : ι → ListMem ι × α → Prog (ListMem ι × α)}
  {t : ListMem ι × α} {xs : List ι}

omit [DecidableEq ι] in
/-- The first step on the way. -/
theorem Leads.first {s : ListMem ι} {n : ι} (h : Leads dir s x xs head) (hn : (xs ++ [head]).head? = some n) :
    dir (s x) = .node n := by
  obtain ⟨ys, hys⟩ := List.head?_eq_some_iff.mp hn
  rw [Leads, hys, List.isChain_cons_cons] at h
  exact h.1

omit [DecidableEq ι] in
theorem exists_first (xs : List ι) (head : ι) : ∃ n, (xs ++ [head]).head? = some n :=
  ⟨_, List.head?_eq_some_head (List.append_ne_nil_of_right_ne_nil xs (List.cons_ne_nil head []))⟩

/-- One pass of the plain loop. -/
theorem forEachFrom_next {t' r : ListMem ι × α} (hne : x ≠ head) (hret : Prog.Returns (body x t) t') :
    Prog.Returns (forEachFrom dir head body (.node x) t) r ↔
      Prog.Returns (forEachFrom dir head body (dir (t'.1 x)) t') r := by
  apply Prog.returns_iterate_next
  simp only [hne, if_false, Prog.returns_bind]
  exact ⟨t', hret, by simp⟩

/-- The loop faults when it comes to `LIST_POISON1`. -/
theorem forEachFrom_poison {r : ListMem ι × α} : ¬ Prog.Returns (forEachFrom dir head body .poison1 t) r := by
  intro h
  rcases Prog.returns_iterate.mp h with h | ⟨_, h, -⟩
  · exact Prog.returns_abort h
  · exact Prog.returns_abort h

/-- **The rule of the plain loop.**  `I done rest t` is what holds before the entries `rest` are visited.  The
body must leave the entry that it visited linked to the rest. -/
theorem forEachFrom_returns (I : List ι → List ι → ListMem ι × α → Prop)
    (hbody : ∀ done x rest t, I done (x :: rest) t →
      x ≠ head ∧ ∃ t', Prog.Returns (body x t) t' ∧ Leads dir t'.1 x rest head ∧ I (done ++ [x]) rest t')
    {done rest : List ι} {p : ι} (hI : I done rest t) (hp : (rest ++ [head]).head? = some p) :
    ∃ t', Prog.Returns (forEachFrom dir head body (.node p) t) t' ∧ I (done ++ rest) [] t' := by
  induction rest generalizing done t p with
  | nil =>
      cases hp
      refine ⟨t, Prog.Returns.iterate_done ?_, by rwa [List.append_nil]⟩
      simp
  | cons x rest ih =>
      cases hp
      obtain ⟨hne, t₁, hret, hlead, hI₁⟩ := hbody done x rest t hI
      obtain ⟨n, hn⟩ := exists_first rest head
      obtain ⟨t₂, hret₂, hI₂⟩ := ih hI₁ hn
      refine ⟨t₂, ?_, by simpa using hI₂⟩
      rwa [forEachFrom_next hne hret, hlead.first hn]

/-- **The rule of the safe loop.**  The entries `rest` must be linked when they are still to be visited; what
the body does to the entry it visits does not matter. -/
theorem forEachSafeFrom_returns (I : List ι → List ι → ListMem ι × α → Prop)
    (hlead : ∀ done x rest t, I done (x :: rest) t → Leads dir t.1 x rest head)
    (hbody : ∀ done x rest t, I done (x :: rest) t →
      x ≠ head ∧ ∃ t', Prog.Returns (body x t) t' ∧ I (done ++ [x]) rest t')
    {done rest : List ι} {p : ι} (hI : I done rest t) (hp : (rest ++ [head]).head? = some p) :
    ∃ t', Prog.Returns (forEachSafeFrom dir head body (.node p) t) t' ∧ I (done ++ rest) [] t' := by
  induction rest generalizing done t p with
  | nil =>
      cases hp
      refine ⟨t, Prog.Returns.iterate_done ?_, by rwa [List.append_nil]⟩
      simp
  | cons x rest ih =>
      cases hp
      obtain ⟨hne, t₁, hret, hI₁⟩ := hbody done x rest t hI
      obtain ⟨n, hn⟩ := exists_first rest head
      have hnext : dir (t.1 x) = .node n := (hlead done x rest t hI).first hn
      obtain ⟨t₂, hret₂, hI₂⟩ := ih hI₁ hn
      refine ⟨t₂, Prog.Returns.iterate_next ?_ hret₂, by simpa using hI₂⟩
      simp only [hne, if_false, Prog.returns_bind, hnext]
      exact ⟨t₁, hret, by simp⟩

/-! ### Walking a list -/

variable {s : ListMem ι} {L : Lists ι} {h : ι}

omit [DecidableEq ι] in
theorem Leads.suffix {as bs : List ι} (hl : Leads dir s h (as ++ x :: bs) head) : Leads dir s x bs head := by
  rw [Leads, List.append_assoc, List.cons_append, List.isChain_cons_split] at hl
  exact hl.2

omit [DecidableEq ι] in
/-- `next` leads through a list in its order. -/
theorem Represents.leads_next (hs : Represents s L) (hL : L h = some xs) : Leads ListHead.next s h xs h :=
  (LinkRing.iff_cons.mp (hs.ring h _ hL)).2.imp fun _ _ hab => hab.1

omit [DecidableEq ι] in
/-- `prev` leads through it backwards. -/
theorem Represents.leads_prev (hs : Represents s L) (hL : L h = some xs) :
    Leads ListHead.prev s h xs.reverse h := by
  have hrev : h :: (xs.reverse ++ [h]) = (h :: (xs ++ [h])).reverse := by simp
  rw [Leads, hrev, List.isChain_reverse]
  exact (LinkRing.iff_cons.mp (hs.ring h _ hL)).2.imp fun _ _ hab => hab.2

/-- A loop whose body leaves the memory alone visits the entries in order. -/
theorem forEachFrom_visits (f : α → ι → α) (a : α) (hl : Leads dir s h xs h) (hnot : h ∉ xs) :
    Prog.Returns (forEachFrom dir h (fun x t => return (t.1, f t.2 x)) (dir (s h)) (s, a)) (s, xs.foldl f a) := by
  obtain ⟨n, hn⟩ := exists_first xs h
  let I : List ι → List ι → ListMem ι × α → Prop :=
    fun done rest t => t = (s, done.foldl f a) ∧ done ++ rest = xs
  have hstart : I [] xs (s, a) := ⟨rfl, rfl⟩
  have hbody : ∀ done x rest t, I done (x :: rest) t → x ≠ h ∧ ∃ t',
      Prog.Returns ((fun x t => return (t.1, f t.2 x) : ι → ListMem ι × α → Prog (ListMem ι × α)) x t) t' ∧
        Leads dir t'.1 x rest h ∧ I (done ++ [x]) rest t' := by
    rintro done x rest t ⟨rfl, hxs⟩
    refine ⟨?_, _, Prog.returns_pure.mpr rfl, ?_, ?_, ?_⟩
    · rintro rfl
      exact hnot (hxs ▸ List.mem_append_right done List.mem_cons_self)
    · rw [← hxs] at hl
      exact hl.suffix
    · rw [List.foldl_concat]
    · rw [List.append_assoc]
      exact hxs
  obtain ⟨t', hret, ht', -⟩ := forEachFrom_returns I hbody hstart hn
  rw [hl.first hn]
  rwa [ht'] at hret

/-- **`list_for_each`** visits the list. -/
theorem listForEach_visits (hs : Represents s L) (hL : L h = some xs) (f : α → ι → α) (a : α) :
    Prog.Returns (listForEach h (fun x t => return (t.1, f t.2 x)) (s, a)) (s, xs.foldl f a) :=
  forEachFrom_visits f a (hs.leads_next hL) (hs.free_of_head hL h xs hL)

/-- **`list_for_each_prev`** visits it backwards. -/
theorem listForEachPrev_visits (hs : Represents s L) (hL : L h = some xs) (f : α → ι → α) (a : α) :
    Prog.Returns (listForEachPrev h (fun x t => return (t.1, f t.2 x)) (s, a)) (s, xs.reverse.foldl f a) := by
  apply forEachFrom_visits f a (hs.leads_prev hL)
  rw [List.mem_reverse]
  exact hs.free_of_head hL h xs hL

/-- **Runs and walks.**  From any memory, on which no head was initialised yet, every run of calls goes through
without a fault.  Then each list has its entries on it, forwards and backwards, the tests answer accordingly,
and no entry is on two lists. -/
theorem listOps_walk {ops : List (ListOp ι)} (hrun : Run ListStep Lists.empty ops L) (s : ListMem ι) :
    ∃ s', listOps ops s = some s' ∧
      (∀ h xs, L h = some xs → xs.Nodup ∧
        Prog.Returns (listForEach h (fun x t => return (t.1, t.2 ++ [x])) (s', [])) (s', xs) ∧
        Prog.Returns (listForEachPrev h (fun x t => return (t.1, t.2 ++ [x])) (s', [])) (s', xs.reverse) ∧
        listEmpty h s' = decide (xs = []) ∧ listIsSingular h s' = decide (xs.length = 1) ∧
        listFirstEntryOrNull h s' = xs.head?.elim .null .node ∧
        ∀ x ∈ xs, listIsLast x h s' = decide (xs.getLast? = some x)) ∧
      ∀ h h' xs xs' x, L h = some xs → L h' = some xs' → x ∈ xs → x ∈ xs' → h = h' := by
  have hsnoc : ∀ xs : List ι, xs.foldl (fun acc x => acc ++ [x]) [] = xs := by
    intro xs
    rw [List.foldl_append_eq_append, List.nil_append, ← List.flatMap_def, List.flatMap_singleton']
  obtain ⟨s', hs', hr⟩ := listOps_keeps hrun Rings.empty
  refine ⟨s', hs', ?_, fun h h' xs xs' x hL hL' hx hx' => hr.eq_of_mem hL hL' hx hx'⟩
  intro h xs hL
  have hforth := listForEach_visits hr hL (fun acc x => acc ++ [x]) []
  have hback := listForEachPrev_visits hr hL (fun acc x => acc ++ [x]) []
  rw [hsnoc] at hforth hback
  refine ⟨(List.nodup_cons.mp (hr.nodup hL)).2, hforth, hback, listEmpty_eq hr hL, listIsSingular_eq hr hL,
    listFirstEntryOrNull_eq hr hL, ?_⟩
  intro x hx
  rw [listIsLast_eq hr hL (List.mem_cons_of_mem h hx)]
  cases xs with
  | nil => cases hx
  | cons y ys => rw [List.getLast?_cons_cons]

/-- The run of `src/examples/list.c`, with the head 0: the list becomes 1, 2, 3. -/
theorem numbers_run : ∃ L : Lists ℕ, L 0 = some [1, 2, 3] ∧
    Run ListStep Lists.empty [.initListHead 0, .listAdd 2 0, .listAdd 1 0, .listAddTail 3 0] L := by
  have h₁ : ((Lists.empty : Lists ℕ).set 0 (some [])).Free 2 := Lists.empty_free.alone
  have h₂ : ((((Lists.empty : Lists ℕ).set 0 (some [])).set 2 none).set 0 (some [2])).Free 1 := by
    apply Lists.empty_free.alone.drop.set
    intro xs hxs
    cases hxs
    decide
  refine ⟨_, ?_, .cons (.init Lists.empty_free) <| .cons (.add h₁ (by decide) Lists.set_self) <|
    .cons (.add h₂ (by decide) Lists.set_self) <| .single (.addTail ?_ (by decide) Lists.set_self)⟩
  · exact Lists.set_self
  · apply Lists.Free.set (Lists.empty_free.alone.drop.set _).drop
    · intro xs hxs
      cases hxs
      decide
    · intro xs hxs
      cases hxs
      decide

theorem listOps_walk_numbers : ∃ s' : ListMem ℕ,
    listOps [.initListHead 0, .listAdd 2 0, .listAdd 1 0, .listAddTail 3 0] (fun _ => ⟨.null, .null⟩) = some s' ∧
      Prog.Returns (listForEach 0 (fun x t => return (t.1, t.2 ++ [x])) (s', [])) (s', [1, 2, 3]) := by
  obtain ⟨L, hL, hrun⟩ := numbers_run
  obtain ⟨s', hs', hlists, -⟩ := listOps_walk hrun (fun _ => ⟨.null, .null⟩)
  exact ⟨s', hs', (hlists 0 _ hL).2.1⟩

/-! ### Removing entries in a loop -/

/-- The object of the entry `x` is freed; what is then in its memory is anything. -/
def scribble (x : ι) (c : ListHead ι) (s : ListMem ι) : ListMem ι := fun y => if y = x then c else s y

/-- A body that takes the entries in `p` off the list and frees them, and notes which entries it was run on. -/
def delBody (p : ι → Bool) (junk : ι → ListHead ι) (x : ι) (t : ListMem ι × List ι) :
    Prog (ListMem ι × List ι) :=
  if p x then do
    let s ← listDel x t.1
    return (scribble x (junk x) s, t.2 ++ [x])
  else return (t.1, t.2 ++ [x])

variable {as bs : List ι}

/-- What the body does to an entry of the list. -/
theorem delBody_returns (p : ι → Bool) (junk : ι → ListHead ι) (hs : Represents s L) (hL : L h = some (as ++ x :: bs)) 
    (seen : List ι) :
    ∃ s', Prog.Returns (delBody p junk x (s, seen)) (s', seen ++ [x]) ∧
      Represents s' (L.set h (some (as ++ ([x].filter (fun y => !p y) ++ bs)))) := by
  cases hp : p x with
  | false =>
      refine ⟨s, by simp [delBody, hp], ?_⟩
      have hsame : as ++ ([x].filter (fun y => !p y) ++ bs) = as ++ x :: bs := by simp [hp]
      rw [hsame, Lists.set_eq_self hL]
      exact hs
  | true =>
      obtain ⟨s₁, hs₁, hr₁⟩ := listDel_keeps hs hL
      refine ⟨scribble x (junk x) s₁, by simp [delBody, hp, hs₁], ?_⟩
      have hless : as ++ ([x].filter (fun y => !p y) ++ bs) = as ++ bs := by simp [hp]
      rw [hless]
      apply Represents.of_eq_off hr₁ (hs.free_of_removed hL) (hs.none_of_removed hL)
      intro y hy
      simp [scribble, hy]

/-- **`list_for_each_safe`** may remove and free entries: it is run on every entry of the list, in order, and
what it did not remove is the list in the end. -/
theorem listForEachSafe_removes (hs : Represents s L) (hL : L h = some xs) (p : ι → Bool)
    (junk : ι → ListHead ι) :
    ∃ s', Prog.Returns (listForEachSafe h (delBody p junk) (s, [])) (s', xs) ∧
      Represents s' (L.set h (some (xs.filter (fun y => !p y)))) := by
  let I : List ι → List ι → ListMem ι × List ι → Prop := fun done rest t =>
    t.2 = done ∧ Represents t.1 (L.set h (some (done.filter (fun y => !p y) ++ rest)))
  have hstart : I [] xs (s, []) := by
    refine ⟨rfl, ?_⟩
    rwa [List.filter_nil, List.nil_append, Lists.set_eq_self hL]
  have hlead : ∀ done x rest t, I done (x :: rest) t → Leads ListHead.next t.1 x rest h := by
    rintro done x rest t ⟨-, hr⟩
    exact (hr.leads_next Lists.set_self).suffix
  have hbody : ∀ done x rest t, I done (x :: rest) t →
      x ≠ h ∧ ∃ t', Prog.Returns (delBody p junk x t) t' ∧ I (done ++ [x]) rest t' := by
    rintro done x rest ⟨s, seen⟩ ⟨rfl, hr⟩
    have hne : x ≠ h := by
      rintro rfl
      exact hr.free_of_head Lists.set_self x _ Lists.set_self (List.mem_append_right _ List.mem_cons_self)
    obtain ⟨s₁, hret, hr₁⟩ := delBody_returns p junk hr Lists.set_self seen
    refine ⟨hne, (s₁, seen ++ [x]), hret, rfl, ?_⟩
    rw [Lists.set_set] at hr₁
    rwa [List.filter_append, List.append_assoc]
  obtain ⟨n, hn⟩ := exists_first xs h
  obtain ⟨⟨s', seen⟩, hret, hseen, hr⟩ := forEachSafeFrom_returns I hlead hbody hstart hn
  refine ⟨s', ?_, by simpa using hr⟩
  rw [listForEachSafe, hs.next_head hL hn]
  rwa [show seen = xs from hseen] at hret

theorem listForEachSafe_removes_numbers : ∃ s s' : ListMem ℕ,
    Prog.Returns (listForEachSafe 0 (delBody (fun x => x == 2) fun _ => ⟨.null, .null⟩) (s, [])) (s', [1, 2, 3]) ∧
      Prog.Returns (listForEach 0 (fun x t => return (t.1, t.2 + x)) (s', 0)) (s', 4) := by
  obtain ⟨L, hL, hrun⟩ := numbers_run
  obtain ⟨s, -, hs⟩ := listOps_keeps hrun (Rings.empty : Represents (fun _ => ⟨.null, .null⟩) Lists.empty)
  obtain ⟨s', hret, hs'⟩ := listForEachSafe_removes hs hL (fun x => x == 2) fun _ => ⟨.null, .null⟩
  exact ⟨s, s', hret, listForEach_visits hs' Lists.set_self (fun n x => n + x) 0⟩

/-- **`list_for_each_prev_safe`**, with the entries from the last to the first. -/
theorem listForEachPrevSafe_removes (hs : Represents s L) (hL : L h = some xs) (p : ι → Bool)
    (junk : ι → ListHead ι) :
    ∃ s', Prog.Returns (listForEachPrevSafe h (delBody p junk) (s, [])) (s', xs.reverse) ∧
      Represents s' (L.set h (some (xs.filter (fun y => !p y)))) := by
  let I : List ι → List ι → ListMem ι × List ι → Prop := fun done rest t =>
    t.2 = done ∧ Represents t.1 (L.set h (some (rest.reverse ++ done.reverse.filter (fun y => !p y))))
  have hstart : I [] xs.reverse (s, []) := by
    refine ⟨rfl, ?_⟩
    rwa [List.reverse_nil, List.filter_nil, List.append_nil, List.reverse_reverse, Lists.set_eq_self hL]
  have hlead : ∀ done x rest t, I done (x :: rest) t → Leads ListHead.prev t.1 x rest h := by
    rintro done x rest t ⟨-, hr⟩
    have hl := hr.leads_prev Lists.set_self
    rw [List.reverse_append, List.reverse_reverse] at hl
    exact hl.suffix
  have hbody : ∀ done x rest t, I done (x :: rest) t →
      x ≠ h ∧ ∃ t', Prog.Returns (delBody p junk x t) t' ∧ I (done ++ [x]) rest t' := by
    rintro done x rest ⟨s, seen⟩ ⟨rfl, hr⟩
    rw [List.reverse_cons, List.append_assoc] at hr
    have hne : x ≠ h := by
      rintro rfl
      exact hr.free_of_head Lists.set_self x _ Lists.set_self (List.mem_append_right _ List.mem_cons_self)
    obtain ⟨s₁, hret, hr₁⟩ := delBody_returns p junk hr Lists.set_self seen
    refine ⟨hne, (s₁, seen ++ [x]), hret, rfl, ?_⟩
    rw [Lists.set_set] at hr₁
    rwa [List.reverse_append, List.reverse_singleton, List.filter_append]
  obtain ⟨n, hn⟩ := exists_first xs.reverse h
  obtain ⟨⟨s', seen⟩, hret, hseen, hr⟩ := forEachSafeFrom_returns I hlead hbody hstart hn
  refine ⟨s', ?_, by simpa using hr⟩
  rw [listForEachPrevSafe, (hs.leads_prev hL).first hn]
  rwa [show seen = xs.reverse from hseen] at hret

/-- What `list_del` leaves in an entry. -/
def poisoned : ListHead ι := ⟨.poison1, .poison2⟩

/-- A plain loop over the rest of a list gets to its end only if the body removes none of it. -/
theorem forEachFrom_keeps (p : ι → Bool) {r : ListMem ι × List ι} {rest : List ι} {seen : List ι} {n : ι}
    (hs : Represents s L) (hL : L h = some (as ++ rest)) (hn : (rest ++ [h]).head? = some n)
    (hret : Prog.Returns
      (forEachFrom ListHead.next h (delBody p fun _ => poisoned) (.node n) (s, seen)) r) :
    ∀ x ∈ rest, p x = false := by
  induction rest generalizing as seen n with
  | nil => simp
  | cons x rest ih =>
      cases hn
      have hne : x ≠ h := by
        rintro rfl
        exact hs.free_of_head hL x _ hL (List.mem_append_right as List.mem_cons_self)
      obtain ⟨n, hn⟩ := exists_first rest h
      have hnext : (s x).next = .node n := (hs.leads_next hL).suffix.first hn
      cases hp : p x with
      | false =>
          have hpass : Prog.Returns (delBody p (fun _ => poisoned) x (s, seen)) (s, seen ++ [x]) := by
            simp [delBody, hp]
          rw [forEachFrom_next hne hpass, hnext] at hret
          have hL' : L h = some ((as ++ [x]) ++ rest) := by rwa [List.append_assoc]
          intro y hy
          rcases List.mem_cons.mp hy with rfl | hy
          · exact hp
          · exact ih hL' hn hret y hy
      | true =>
          obtain ⟨s₁, hs₁, -⟩ := listDel_keeps hs hL
          have hpass : Prog.Returns (delBody p (fun _ => poisoned) x (s, seen))
              (scribble x poisoned s₁, seen ++ [x]) := by
            simp [delBody, hp, hs₁]
          have hpoison : (scribble x poisoned s₁ x).next = .poison1 := by simp [scribble, poisoned]
          rw [forEachFrom_next hne hpass, hpoison] at hret
          exact absurd hret forEachFrom_poison

/-- **`list_for_each`** must not remove entries: it gets to its end just when none is removed. -/
theorem listForEach_removes_iff (hs : Represents s L) (hL : L h = some xs) (p : ι → Bool) :
    (∃ r, Prog.Returns (listForEach h (delBody p fun _ => poisoned) (s, [])) r) ↔ ∀ x ∈ xs, p x = false := by
  obtain ⟨n, hn⟩ := exists_first xs h
  rw [listForEach, hs.next_head hL hn]
  constructor
  · rintro ⟨r, hret⟩
    have hL' : L h = some ([] ++ xs) := hL
    exact forEachFrom_keeps p hs hL' hn hret
  · intro hall
    let I : List ι → List ι → ListMem ι × List ι → Prop := fun done rest t => t.1 = s ∧ done ++ rest = xs
    have hstart : I [] xs (s, []) := ⟨rfl, rfl⟩
    have hbody : ∀ done x rest t, I done (x :: rest) t → x ≠ h ∧ ∃ t',
        Prog.Returns (delBody p (fun _ => poisoned) x t) t' ∧ Leads ListHead.next t'.1 x rest h ∧
          I (done ++ [x]) rest t' := by
      rintro done x rest ⟨_, seen⟩ ⟨rfl, hxs⟩
      have hmem : x ∈ xs := hxs ▸ List.mem_append_right done List.mem_cons_self
      refine ⟨?_, (_, seen ++ [x]), ?_, ?_, rfl, by rwa [List.append_assoc]⟩
      · rintro rfl
        exact hs.free_of_head hL x _ hL hmem
      · simp only [delBody, hall x hmem]
        exact Prog.returns_pure.mpr rfl
      · rw [← hxs] at hL
        exact (hs.leads_next hL).suffix
    obtain ⟨r, hret, -⟩ := forEachFrom_returns I hbody hstart hn
    exact ⟨r, hret⟩

theorem listForEach_removes_iff_numbers : ∃ s : ListMem ℕ,
    ¬ ∃ r, Prog.Returns (listForEach 0 (delBody (fun x => x == 2) fun _ => poisoned) (s, [])) r := by
  obtain ⟨L, hL, hrun⟩ := numbers_run
  obtain ⟨s, -, hs⟩ := listOps_keeps hrun (Rings.empty : Represents (fun _ => ⟨.null, .null⟩) Lists.empty)
  refine ⟨s, fun hr => ?_⟩
  have hall := (listForEach_removes_iff hs hL fun x => x == 2).mp hr 2 (by decide)
  exact absurd hall (by decide)

end Libls.ListHeads
