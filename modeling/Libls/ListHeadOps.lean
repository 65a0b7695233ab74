import Libls.ListHeads

/-! # What the list functions do to the rings

Insertion joins the list with the ring of the new entry alone, and removal takes the entry out into such a
ring; moving, splicing, cutting and replacing are made of the two.  Each theorem says that a function does
not fault on the memory of a family of lists, and which family the memory then holds. -/

namespace Libls.ListHeads

variable {ι : Type} [DecidableEq ι] {s : ListMem ι} {L : Lists ι} {h p n x new : ι} {as bs xs : List ι}

/-! ### Neighbours -/

omit [DecidableEq ι] in
theorem Represents.linked (hs : Represents s L) (hL : L h = some (as ++ bs))
    (hp : (h :: as).getLast? = some p) (hn : (bs ++ [h]).head? = some n) : Linked s p n :=
  (hs.ring h _ hL).linked hp hn

omit [DecidableEq ι] in
/-- `head->next` -/
theorem Represents.next_head (hs : Represents s L) (hL : L h = some xs) (hn : (xs ++ [h]).head? = some n) :
    (s h).next = .node n := by
  have hL' : L h = some ([] ++ xs) := hL
  exact (hs.linked hL' rfl hn).1

omit [DecidableEq ι] in
/-- `head->prev` -/
theorem Represents.prev_head (hs : Represents s L) (hL : L h = some xs) (hp : (h :: xs).getLast? = some p) :
    (s h).prev = .node p := by
  have hL' : L h = some (xs ++ []) := by rwa [List.append_nil]
  exact (hs.linked hL' hp rfl).2

omit [DecidableEq ι] in
/-- There is a cell before every place of a list, and one behind it. -/
theorem exists_neighbours (h : ι) (as bs : List ι) :
    ∃ p n, (h :: as).getLast? = some p ∧ (bs ++ [h]).head? = some n :=
  ⟨_, _, List.getLast?_eq_some_getLast (List.cons_ne_nil h as),
    List.head?_eq_some_head (List.append_ne_nil_of_right_ne_nil bs (List.cons_ne_nil h []))⟩

omit [DecidableEq ι] in
/-- What a cell holds that is in no ring does not matter. -/
theorem Represents.of_eq_off {s' : ListMem ι} {e : ι} (hs : Represents s L) (hfree : L.Free e) (hnone : L e = none)
    (heq : ∀ x, x ≠ e → s' x = s x) : Represents s' L := by
  apply Represents.of_eq hs
  rintro h x ⟨zs, hzs, hx⟩
  apply heq
  rintro rfl
  rcases List.mem_cons.mp hx with rfl | hx
  · rw [hnone] at hzs
    cases hzs
  · exact hfree h zs hzs hx

omit [DecidableEq ι] in
theorem Represents.ne_of_free (hfree : L.Free new) (hne : new ≠ h) (hL : L h = some xs) (hx : x ∈ h :: xs) :
    x ≠ new := by
  rintro rfl
  rcases List.mem_cons.mp hx with rfl | hx
  · exact hne rfl
  · exact hfree h xs hL hx

/-! ### Insertion -/

theorem Represents.initListHead (hs : Represents s L) (hfree : L.Free new) :
    Represents (initListHead new s) (L.set new (some [])) := by
  apply Rings.alone hs hfree
  · simp [Linked, ListHeads.initListHead, setNext, setPrev]
  · intro a b hab ha hb
    simpa [Linked, ListHeads.initListHead, setNext, setPrev, ha, hb] using hab

theorem listAddAt_eq :
    listAddAt new (.node p) (.node n) s = some (exchange p new n new (initListHead new s)) := by
  simp only [listAddAt, storePrev, storeNext, Option.bind_eq_bind, Option.bind_some, Option.some.injEq]
  funext x
  ext
  · simp only [exchange, setNext_next, setPrev_next, initListHead_next]
    grind
  · simp only [exchange, setNext_prev, setPrev_prev, initListHead_prev]
    grind

/-- **`__list_add`** between neighbours. -/
theorem listAddAt_keeps (hs : Represents s L) (hfree : L.Free new) (hne : new ≠ h) (hL : L h = some (as ++ bs))
    (hp : (h :: as).getLast? = some p) (hn : (bs ++ [h]).head? = some n) :
    ∃ s', listAddAt new (.node p) (.node n) s = some s' ∧
      Represents s' ((L.set new none).set h (some (as ++ new :: bs))) := by
  have hpmem : p ∈ h :: (as ++ bs) := List.mem_append_left bs (List.mem_of_getLast? hp)
  have hnmem : n ∈ h :: (as ++ bs) := by
    have hmem := List.mem_of_head? hn
    simp only [List.mem_append, List.mem_cons, List.not_mem_nil, or_false] at hmem ⊢
    tauto
  have hpnew : p ≠ new := Represents.ne_of_free hfree hne hL hpmem
  have hnnew : n ≠ new := Represents.ne_of_free hfree hne hL hnmem
  have hlink : Linked (ListHeads.initListHead new s) p n := by
    have hpn := hs.linked hL hp hn
    simpa [Linked, hpnew, hnnew] using hpn
  have hself : Linked (ListHeads.initListHead new s) new new := by simp [Linked]
  refine ⟨_, listAddAt_eq, ?_⟩
  have hmerged := (hs.initListHead hfree).merge (crossed_exchange hlink hself hpnew)
    ((Lists.set_ne hne.symm).trans hL) Lists.set_self hne hp rfl
  simpa using hmerged

/-! ### Removal -/

variable {e : ι}

theorem listDelAt_eq (s : ListMem ι) (p n : ι) :
    listDelAt (.node p) (.node n) s = some (setNext p (.node n) (setPrev n (.node p) s)) := rfl

/-- **`__list_del`** around an entry of a list. -/
theorem listDelEntry_keeps (hs : Represents s L) (hL : L h = some (as ++ e :: bs)) :
    ∃ s', listDelEntry e s = some s' ∧ Represents s' (L.set h (some (as ++ bs))) := by
  obtain ⟨p, n, hp, hn⟩ := exists_neighbours h as bs
  have hpe : Linked s p e := hs.linked hL hp rfl
  have hen : Linked s e n := by
    have hL' : L h = some ((as ++ [e]) ++ bs) := by rwa [List.append_assoc]
    have he : (h :: (as ++ [e])).getLast? = some e := by rw [← List.cons_append, List.getLast?_concat]
    exact hs.linked hL' he hn
  have hne : p ≠ e := by
    rintro rfl
    have hnd := hs.nodup hL
    rw [← List.cons_append] at hnd
    exact List.disjoint_of_nodup_append hnd (List.mem_of_getLast? hp) List.mem_cons_self
  have hL' : L h = some (as ++ e :: ([] ++ bs)) := hL
  have hsplit := (hs.split (crossed_exchange hpe hen hne) hL' hp rfl).drop e
  rw [Lists.set_set, Lists.set_eq_self (hs.none_of_removed hL)] at hsplit
  refine ⟨_, by rw [listDelEntry, hpe.2, hen.1, listDelAt_eq], ?_⟩
  apply Represents.of_eq_off hsplit (hs.free_of_removed hL) (hs.none_of_removed hL)
  intro x hxe
  ext
  · simp [exchange, hxe]
  · simp [exchange, hxe]

/-- Removing an entry that is on no list changes nothing. -/
theorem listDelEntry_alone (he : Linked s e e) : listDelEntry e s = some s := by
  rw [listDelEntry, he.1, he.2, listDelAt_eq, Option.some.injEq]
  funext x
  ext
  · rw [setNext_next, setPrev_next]
    split
    · next heq => rw [heq, he.1]
    · rfl
  · rw [setNext_prev, setPrev_prev]
    split
    · next heq => rw [heq, he.2]
    · rfl

omit [DecidableEq ι] in
theorem Represents.alone (hs : Represents s L) (hL : L e = some []) : Linked s e e := by
  have hL' : L e = some ([] ++ []) := hL
  exact hs.linked hL' rfl rfl

/-- **`list_del`** -/
theorem listDel_keeps (hs : Represents s L) (hL : L h = some (as ++ e :: bs)) :
    ∃ s', listDel e s = some s' ∧ Represents s' (L.set h (some (as ++ bs))) := by
  obtain ⟨s₁, hs₁, hr₁⟩ := listDelEntry_keeps hs hL
  have hdel : listDel e s = (listDelEntry e s).bind fun s => some (setPrev e .poison2 (setNext e .poison1 s)) := rfl
  refine ⟨_, by rw [hdel, hs₁, Option.bind_some], ?_⟩
  apply Represents.of_eq_off hr₁ (hs.free_of_removed hL) (hs.none_of_removed hL)
  intro x hxe
  ext
  · simp [hxe]
  · simp [hxe]

/-- **`list_del_init`** -/
theorem listDelInit_keeps (hs : Represents s L) (hL : L h = some (as ++ e :: bs)) :
    ∃ s', listDelInit e s = some s' ∧ Represents s' ((L.set h (some (as ++ bs))).set e (some [])) := by
  obtain ⟨s₁, hs₁, hr₁⟩ := listDelEntry_keeps hs hL
  refine ⟨ListHeads.initListHead e s₁, ?_, hr₁.initListHead (hs.free_of_removed hL)⟩
  rw [listDelInit, hs₁]
  rfl

/-- **`list_del_init`** of an entry that is on no list. -/
theorem listDelInit_alone (hs : Represents s L) (hL : L e = some []) :
    ∃ s', listDelInit e s = some s' ∧ Represents s' L := by
  refine ⟨ListHeads.initListHead e s, ?_, ?_⟩
  · rw [listDelInit, listDelEntry_alone (Represents.alone hs hL)]
    rfl
  · have hinit := Represents.initListHead hs (hs.free_of_head hL)
    rwa [Lists.set_eq_self hL] at hinit

/-! ### Insertion at the ends, and moving -/

/-- **`list_add`** -/
theorem listAdd_keeps (hs : Represents s L) (hfree : L.Free new) (hne : new ≠ h) (hL : L h = some xs) :
    ∃ s', listAdd new h s = some s' ∧ Represents s' ((L.set new none).set h (some (new :: xs))) := by
  obtain ⟨_, n, -, hn⟩ := exists_neighbours h [] xs
  have hL' : L h = some ([] ++ xs) := hL
  rw [listAdd, Represents.next_head hs hL hn]
  exact listAddAt_keeps hs hfree hne hL' rfl hn

/-- **`list_add_tail`** -/
theorem listAddTail_keeps (hs : Represents s L) (hfree : L.Free new) (hne : new ≠ h) (hL : L h = some xs) :
    ∃ s', listAddTail new h s = some s' ∧ Represents s' ((L.set new none).set h (some (xs ++ [new]))) := by
  obtain ⟨p, _, hp, -⟩ := exists_neighbours h xs []
  have hL' : L h = some (xs ++ []) := by rwa [List.append_nil]
  rw [listAddTail, Represents.prev_head hs hL hp]
  exact listAddAt_keeps hs hfree hne hL' hp rfl

/-- **`list_move`**: `list` goes from the list of `h` to the front of the list of `head`, which may be the
same one. -/
theorem listMove_keeps {head : ι} (hs : Represents s L) (hL : L h = some (as ++ e :: bs)) (hne : e ≠ head)
    (hxs : (L.set h (some (as ++ bs))) head = some xs) :
    ∃ s', listMove e head s = some s' ∧
      Represents s' ((L.set h (some (as ++ bs))).set head (some (e :: xs))) := by
  obtain ⟨s₁, hs₁, hr₁⟩ := listDelEntry_keeps hs hL
  obtain ⟨s₂, hs₂, hr₂⟩ := listAdd_keeps hr₁ (hs.free_of_removed hL) hne hxs
  rw [Lists.set_eq_self (hs.none_of_removed hL)] at hr₂
  exact ⟨s₂, by rw [listMove, hs₁]; exact hs₂, hr₂⟩

/-- **`list_move_tail`** -/
theorem listMoveTail_keeps {head : ι} (hs : Represents s L) (hL : L h = some (as ++ e :: bs)) (hne : e ≠ head)
    (hxs : (L.set h (some (as ++ bs))) head = some xs) :
    ∃ s', listMoveTail e head s = some s' ∧
      Represents s' ((L.set h (some (as ++ bs))).set head (some (xs ++ [e]))) := by
  obtain ⟨s₁, hs₁, hr₁⟩ := listDelEntry_keeps hs hL
  obtain ⟨s₂, hs₂, hr₂⟩ := listAddTail_keeps hr₁ (hs.free_of_removed hL) hne hxs
  rw [Lists.set_eq_self (hs.none_of_removed hL)] at hr₂
  exact ⟨s₂, by rw [listMoveTail, hs₁]; exact hs₂, hr₂⟩

/-! ### Replacing -/

variable {old : ι}

/-- `list_replace` between neighbours, as a removal and an insertion. -/
theorem listReplace_eq (hpo : Linked s p old) (hon : Linked s old n) (hne : p ≠ old) (hnew : new ≠ old) :
    listReplace old new s = (listDelEntry old s).bind (listAddAt new (.node p) (.node n)) := by
  have hno : n ≠ old := by
    rintro rfl
    exact hne (hpo.left_unique hon)
  rw [listDelEntry, hpo.2, hon.1, listDelAt_eq, Option.bind_some, listAddAt_eq]
  simp only [listReplace, storePrev, storeNext, setNext_next, if_true, hon.1, Option.bind_eq_bind, Option.bind_some,
    setPrev_prev, setNext_prev, hno.symm, if_false, hpo.2, Option.some.injEq]
  funext x
  ext
  · simp only [exchange, setNext_next, setPrev_next, initListHead_next]
    grind
  · simp only [exchange, setNext_prev, setPrev_prev, initListHead_prev]
    grind

/-- **`list_replace`** of an entry. -/
theorem listReplace_keeps (hs : Represents s L) (hL : L h = some (as ++ old :: bs)) (hfree : L.Free new)
    (hne : new ≠ h) :
    ∃ s', listReplace old new s = some s' ∧ Represents s' ((L.set new none).set h (some (as ++ new :: bs))) := by
  obtain ⟨p, n, hp, hn⟩ := exists_neighbours h as bs
  have hpo : Linked s p old := hs.linked hL hp rfl
  have hon : Linked s old n := by
    have hL' : L h = some ((as ++ [old]) ++ bs) := by rwa [List.append_assoc]
    have ho : (h :: (as ++ [old])).getLast? = some old := by rw [← List.cons_append, List.getLast?_concat]
    exact hs.linked hL' ho hn
  have hpne : p ≠ old := by
    rintro rfl
    have hnd := hs.nodup hL
    rw [← List.cons_append] at hnd
    exact List.disjoint_of_nodup_append hnd (List.mem_of_getLast? hp) List.mem_cons_self
  have hnew : new ≠ old := by
    rintro rfl
    exact hfree h _ hL (List.mem_append_right as List.mem_cons_self)
  obtain ⟨s₁, hs₁, hr₁⟩ := listDelEntry_keeps hs hL
  have hfree₁ : (L.set h (some (as ++ bs))).Free new := by
    apply hfree.set
    intro xs hxs hmem
    cases hxs
    apply hfree h _ hL
    simp only [List.mem_append, List.mem_cons] at hmem ⊢
    tauto
  obtain ⟨s₂, hs₂, hr₂⟩ := listAddAt_keeps hr₁ hfree₁ hne Lists.set_self hp hn
  rw [Lists.set_comm hne.symm, Lists.set_set] at hr₂
  refine ⟨s₂, ?_, hr₂⟩
  rw [listReplace_eq hpo hon hpne hnew, hs₁, Option.bind_some, hs₂]

/-- **`list_replace`** of a head. -/
theorem listReplace_head (hs : Represents s L) (hL : L old = some xs) (hfree : L.Free new) (hne : new ≠ old) :
    ∃ s', listReplace old new s = some s' ∧ Represents s' ((L.set old none).set new (some xs)) := by
  cases xs with
  | nil =>
      have hself := Represents.alone hs hL
      refine ⟨setPrev old (.node new) (ListHeads.initListHead new s), ?_, ?_⟩
      · simp only [listReplace, storePrev, storeNext, setNext_next, if_true, hself.1, Option.bind_eq_bind,
          Option.bind_some, setPrev_prev, Option.some.injEq]
        funext x
        ext
        · simp only [setNext_next, setPrev_next, initListHead_next]
          grind
        · simp only [setNext_prev, setPrev_prev, initListHead_prev]
          grind
      · have hinit := Represents.initListHead (hs.drop old) hfree.drop
        apply Represents.of_eq_off hinit
        · exact (hs.free_of_head hL).drop.alone
        · rw [Lists.set_ne hne.symm, Lists.set_self]
        · intro x hx
          ext
          · simp
          · simp [hx]
  | cons x xs =>
      have hxold : x ≠ old := by
        rintro rfl
        exact (List.nodup_cons.mp (hs.nodup hL)).1 List.mem_cons_self
      have hxnew : x ≠ new := by
        rintro rfl
        exact hfree old _ hL List.mem_cons_self
      -- the ring as the list of its first entry, in which the head is the last one
      have hL' : L old = some ([] ++ x :: xs) := hL
      have hr₁ : Represents s ((L.set old none).set x (some (xs ++ [old]))) := hs.rehead hL'
      have hfree₁ : ((L.set old none).set x (some (xs ++ [old]))).Free new := by
        refine hfree.drop.set ?_
        intro zs hzs hmem
        cases hzs
        rcases List.mem_append.mp hmem with hmem | hmem
        · exact hfree old _ hL (List.mem_cons_of_mem x hmem)
        · exact hne (List.mem_singleton.mp hmem)
      obtain ⟨s₂, hs₂, hr₂⟩ := listReplace_keeps hr₁ Lists.set_self hfree₁ hxnew.symm
      refine ⟨s₂, hs₂, (hr₂.rehead Lists.set_self).mono ?_⟩
      have hxnone : L x = none := hs.entry_none hL List.mem_cons_self
      intro h zs hzs
      rcases eq_or_ne h new with rfl | hnew
      · rw [Lists.set_self] at hzs ⊢
        exact hzs
      · rw [Lists.set_ne hnew] at hzs
        rcases eq_or_ne h x with rfl | hx
        · rw [Lists.set_ne hxold, hxnone] at hzs
          cases hzs
        · rwa [Lists.set_ne hnew, Lists.set_ne hx, Lists.set_ne hx, Lists.set_ne hnew, Lists.set_ne hx]

/-- **`list_replace_init`** of an entry. -/
theorem listReplaceInit_keeps (hs : Represents s L) (hL : L h = some (as ++ old :: bs)) (hfree : L.Free new)
    (hne : new ≠ h) :
    ∃ s', listReplaceInit old new s = some s' ∧
      Represents s' (((L.set new none).set h (some (as ++ new :: bs))).set old (some [])) := by
  obtain ⟨s₁, hs₁, hr₁⟩ := listReplace_keeps hs hL hfree hne
  refine ⟨ListHeads.initListHead old s₁, by rw [listReplaceInit, hs₁]; rfl, hr₁.initListHead ?_⟩
  have hold : old ∈ as ++ old :: bs := List.mem_append_right as List.mem_cons_self
  intro h' zs hzs hmem
  rcases eq_or_ne h' h with rfl | hh
  · rw [Lists.set_self, Option.some.injEq] at hzs
    subst hzs
    have hnot := hs.free_of_removed hL h' _ Lists.set_self
    simp only [List.mem_append, List.mem_cons, not_or] at hmem hnot
    rcases hmem with hmem | rfl | hmem
    · exact hnot.1 hmem
    · exact hfree h' _ hL hold
    · exact hnot.2 hmem
  · rw [Lists.set_ne hh] at hzs
    rcases eq_or_ne h' new with rfl | hnew
    · rw [Lists.set_self] at hzs
      cases hzs
    · rw [Lists.set_ne hnew] at hzs
      exact hh (hs.eq_of_mem hzs hL hmem hold)

/-- **`list_replace_init`** of a head. -/
theorem listReplaceInit_head (hs : Represents s L) (hL : L old = some xs) (hfree : L.Free new) (hne : new ≠ old) :
    ∃ s', listReplaceInit old new s = some s' ∧
      Represents s' (((L.set old none).set new (some xs)).set old (some [])) := by
  obtain ⟨s₁, hs₁, hr₁⟩ := listReplace_head hs hL hfree hne
  refine ⟨ListHeads.initListHead old s₁, by rw [listReplaceInit, hs₁]; rfl, hr₁.initListHead ?_⟩
  apply (hs.free_of_head hL).drop.set
  intro zs hzs hmem
  cases hzs
  exact hs.free_of_head hL old _ hL hmem

end Libls.ListHeads
