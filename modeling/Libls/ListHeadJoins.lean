import Libls.ListHeadOps

/-! # Tests of lists, and functions on whole lists

What the tests of `include/ls/list.h` answer, and what rotating, splicing and cutting do to the lists of a
memory. -/

namespace Libls.ListHeads

variable {ι : Type} [DecidableEq ι] {s : ListMem ι} {L : Lists ι} {h e p n x : ι} {as bs xs ys : List ι}

/-! ### Tests -/

/-- **`list_empty`** -/
theorem listEmpty_eq (hs : Represents s L) (hL : L h = some xs) : listEmpty h s = decide (xs = []) := by
  cases xs with
  | nil => simp [listEmpty, (Represents.alone hs hL).1]
  | cons x xs =>
      have hne : x ≠ h := by
        rintro rfl
        exact (List.nodup_cons.mp (hs.nodup hL)).1 List.mem_cons_self
      simp [listEmpty, Represents.next_head hs hL rfl, hne]

/-- **`list_empty_careful`** -/
theorem listEmptyCareful_eq (hs : Represents s L) (hL : L h = some xs) :
    listEmptyCareful h s = decide (xs = []) := by
  have hempty := listEmpty_eq hs hL
  cases xs with
  | nil =>
      have hself := Represents.alone hs hL
      simp [listEmptyCareful, hself.1, hself.2]
  | cons x xs =>
      simp only [listEmpty, decide_eq_decide] at hempty
      simp [listEmptyCareful, hempty]

omit [DecidableEq ι] in
/-- Every cell of a ring is linked to a next one. -/
theorem Represents.exists_next (hs : Represents s L) (hL : L h = some xs) (hx : x ∈ h :: xs) :
    ∃ n, Linked s x n := by
  obtain ⟨as, bs, rfl, hlast⟩ : ∃ as bs, xs = as ++ bs ∧ (h :: as).getLast? = some x := by
    rcases List.mem_cons.mp hx with rfl | hx
    · exact ⟨[], xs, rfl, rfl⟩
    · obtain ⟨as, bs, rfl⟩ := List.append_of_mem hx
      exact ⟨as ++ [x], bs, by rw [List.append_assoc]; rfl, by rw [← List.cons_append, List.getLast?_concat]⟩
  obtain ⟨_, n, -, hn⟩ := exists_neighbours h as bs
  exact ⟨n, hs.linked hL hlast hn⟩

/-- **`list_is_last`** -/
theorem listIsLast_eq (hs : Represents s L) (hL : L h = some xs) (hx : x ∈ h :: xs) :
    listIsLast x h s = decide ((h :: xs).getLast? = some x) := by
  obtain ⟨p, _, hp, -⟩ := exists_neighbours h xs []
  have hL' : L h = some (xs ++ []) := by rwa [List.append_nil]
  have hph : Linked s p h := hs.linked hL' hp rfl
  rw [listIsLast, decide_eq_decide, hp, Option.some.injEq]
  constructor
  · intro hnext
    obtain ⟨n, hn⟩ := hs.exists_next hL hx
    have hnh : n = h := ListPtr.node.inj (hn.1.symm.trans hnext)
    exact hph.left_unique (hnh ▸ hn)
  · rintro rfl
    exact hph.1

/-- **`list_is_singular`** -/
theorem listIsSingular_eq (hs : Represents s L) (hL : L h = some xs) :
    listIsSingular h s = decide (xs.length = 1) := by
  rw [listIsSingular, listEmpty_eq hs hL]
  cases xs with
  | nil => simp
  | cons x xs =>
      have hnd := (List.nodup_cons.mp (hs.nodup hL)).2
      obtain ⟨p, _, hp, -⟩ := exists_neighbours x xs []
      have hp' : (h :: x :: xs).getLast? = some p := by rwa [List.getLast?_cons_cons]
      rw [Represents.next_head hs hL rfl, Represents.prev_head hs hL hp']
      cases xs with
      | nil =>
          cases hp
          simp
      | cons y xs =>
          have hne : x ≠ p := by
            rintro rfl
            rw [List.getLast?_cons_cons] at hp
            exact (List.nodup_cons.mp hnd).1 (List.mem_of_getLast? hp)
          simp [hne]

/-- **`list_first_entry_or_null`** -/
theorem listFirstEntryOrNull_eq (hs : Represents s L) (hL : L h = some xs) :
    listFirstEntryOrNull h s = xs.head?.elim .null .node := by
  rw [listFirstEntryOrNull, listEmpty_eq hs hL]
  cases xs with
  | nil => rfl
  | cons x xs => simp [Represents.next_head hs hL rfl]

/-! ### Rotating -/

/-- **`list_rotate_left`** -/
theorem listRotateLeft_keeps (hs : Represents s L) (hL : L h = some (x :: xs)) :
    ∃ s', listRotateLeft h s = some s' ∧ Represents s' (L.set h (some (xs ++ [x]))) := by
  have hL' : L h = some ([] ++ x :: xs) := hL
  have hne : x ≠ h := by
    rintro rfl
    exact (List.nodup_cons.mp (hs.nodup hL)).1 List.mem_cons_self
  obtain ⟨s₁, hs₁, hr₁⟩ := listMoveTail_keeps hs hL' hne Lists.set_self
  rw [Lists.set_set] at hr₁
  refine ⟨s₁, ?_, hr₁⟩
  have hempty := listEmpty_eq hs hL
  simp [listRotateLeft, hempty, Represents.next_head hs hL rfl, hs₁]

theorem listRotateLeft_empty (hs : Represents s L) (hL : L h = some []) : listRotateLeft h s = some s := by
  simp [listRotateLeft, listEmpty_eq hs hL]

/-! ### Splicing -/

variable {list head : ι}

/-- **`__list_splice`** of a list with entries, between neighbours. -/
theorem listSpliceAt_keeps {y : ι} (hs : Represents s L) (hlist : L list = some (y :: ys))
    (hL : L h = some (as ++ bs)) (hne : list ≠ h) (hp : (h :: as).getLast? = some p)
    (hn : (bs ++ [h]).head? = some n) :
    ∃ s', listSpliceAt list (.node p) (.node n) s = some s' ∧
      Represents s' ((L.set list none).set h (some (as ++ (y :: ys ++ bs)))) := by
  obtain ⟨z, _, hz, -⟩ := exists_neighbours list (y :: ys) []
  have hpn : Linked s p n := hs.linked hL hp hn
  have hlist' : L list = some ((y :: ys) ++ []) := by rwa [List.append_nil]
  have hzl : Linked s z list := hs.linked hlist' hz rfl
  have hpz : p ≠ z := by
    rintro rfl
    exact hne (hs.apart list h p ⟨_, hlist, List.mem_of_getLast? hz⟩
      ⟨_, hL, List.mem_append_left bs (List.mem_of_getLast? hp)⟩)
  have hlp : list ≠ p := by
    rintro rfl
    exact hne (hs.apart list h list ⟨_, hlist, List.mem_cons_self⟩
      ⟨_, hL, List.mem_append_left bs (List.mem_of_getLast? hp)⟩)
  have hlz : list ≠ z := by
    rintro rfl
    rw [List.getLast?_cons_cons] at hz
    exact (List.nodup_cons.mp (hs.nodup hlist)).1 (List.mem_of_getLast? hz)
  have hly : Linked s list y := by
    have hnil : L list = some ([] ++ y :: ys) := hlist
    exact hs.linked hnil rfl rfl
  have hyn : y ≠ n := by
    rintro rfl
    exact hlp (hly.left_unique hpn)
  have hr₁ := hs.merge (crossed_exchange hpn hzl hpz) hL hlist hne hp hz
  obtain ⟨s₂, hs₂, hr₂⟩ := listDelEntry_keeps hr₁ Lists.set_self
  have hnext : (exchange p z n list s list).next = .node y := by simp [exchange, hlp, hlz, hly.1]
  have hprev : (exchange p z n list s list).prev = .node p := by simp [exchange]
  rw [listDelEntry, hnext, hprev, listDelAt_eq, Option.some.injEq] at hs₂
  subst hs₂
  refine ⟨setPrev n (.node z) (setNext z (.node n) (setNext p (.node y) (setPrev y (.node p) s))), ?_, ?_⟩
  · simp [listSpliceAt, hly.1, hzl.2, storePrev, storeNext]
  · have hfree := hr₁.free_of_removed Lists.set_self
    have hnone := hr₁.none_of_removed Lists.set_self
    rw [Lists.set_set] at hr₂ hfree hnone
    apply Represents.of_eq_off hr₂ hfree hnone
    intro x hx
    ext
    · simp only [exchange, setNext_next, setPrev_next]
      grind
    · simp only [exchange, setNext_prev, setPrev_prev]
      grind

/-- **`list_splice`** -/
theorem listSplice_keeps {y : ι} (hs : Represents s L) (hlist : L list = some (y :: ys)) (hL : L head = some xs)
    (hne : list ≠ head) :
    ∃ s', listSplice list head s = some s' ∧ Represents s' ((L.set list none).set head (some (y :: ys ++ xs))) := by
  obtain ⟨_, n, -, hn⟩ := exists_neighbours head [] xs
  have hL' : L head = some ([] ++ xs) := hL
  have hp : [head].getLast? = some head := rfl
  obtain ⟨s₁, hs₁, hr₁⟩ := listSpliceAt_keeps hs hlist hL' hne hp hn
  refine ⟨s₁, ?_, hr₁⟩
  simp [listSplice, listEmpty_eq hs hlist, Represents.next_head hs hL hn, hs₁]

/-- **`list_splice_tail`** -/
theorem listSpliceTail_keeps {y : ι} (hs : Represents s L) (hlist : L list = some (y :: ys))
    (hL : L head = some xs) (hne : list ≠ head) :
    ∃ s', listSpliceTail list head s = some s' ∧
      Represents s' ((L.set list none).set head (some (xs ++ y :: ys))) := by
  obtain ⟨p, _, hp, -⟩ := exists_neighbours head xs []
  have hL' : L head = some (xs ++ []) := by rwa [List.append_nil]
  obtain ⟨s₁, hs₁, hr₁⟩ := listSpliceAt_keeps hs hlist hL' hne hp rfl
  rw [List.append_nil] at hr₁
  refine ⟨s₁, ?_, hr₁⟩
  simp [listSpliceTail, listEmpty_eq hs hlist, Represents.prev_head hs hL hp, hs₁]

omit [DecidableEq ι] in
/-- The head of the spliced list is in no list. -/
theorem Represents.not_mem_spliced (hs : Represents s L) (hlist : L list = some ys) (hL : L head = some xs) :
    list ∉ ys ++ xs ∧ list ∉ xs ++ ys := by
  have hfree := hs.free_of_head hlist
  have hys := hfree list _ hlist
  have hxs := hfree head _ hL
  constructor
  · exact fun hmem => (List.mem_append.mp hmem).elim hys hxs
  · exact fun hmem => (List.mem_append.mp hmem).elim hxs hys

/-- **`list_splice_init`** -/
theorem listSpliceInit_keeps {y : ι} (hs : Represents s L) (hlist : L list = some (y :: ys))
    (hL : L head = some xs) (hne : list ≠ head) :
    ∃ s', listSpliceInit list head s = some s' ∧
      Represents s' (((L.set list none).set head (some (y :: ys ++ xs))).set list (some [])) := by
  obtain ⟨s₁, hs₁, hr₁⟩ := listSplice_keeps hs hlist hL hne
  refine ⟨initListHead list s₁, ?_, hr₁.initListHead ?_⟩
  · simp only [listSplice, listEmpty_eq hs hlist, reduceCtorEq, decide_false, Bool.not_false, if_true] at hs₁
    simp [listSpliceInit, listEmpty_eq hs hlist, hs₁]
  · apply (hs.free_of_head hlist).drop.set
    intro zs hzs
    cases hzs
    exact (hs.not_mem_spliced hlist hL).1

/-- **`list_splice_tail_init`** -/
theorem listSpliceTailInit_keeps {y : ι} (hs : Represents s L) (hlist : L list = some (y :: ys))
    (hL : L head = some xs) (hne : list ≠ head) :
    ∃ s', listSpliceTailInit list head s = some s' ∧
      Represents s' (((L.set list none).set head (some (xs ++ y :: ys))).set list (some [])) := by
  obtain ⟨s₁, hs₁, hr₁⟩ := listSpliceTail_keeps hs hlist hL hne
  refine ⟨initListHead list s₁, ?_, hr₁.initListHead ?_⟩
  · simp only [listSpliceTail, listEmpty_eq hs hlist, reduceCtorEq, decide_false, Bool.not_false, if_true] at hs₁
    simp [listSpliceTailInit, listEmpty_eq hs hlist, hs₁]
  · apply (hs.free_of_head hlist).drop.set
    intro zs hzs
    cases hzs
    exact (hs.not_mem_spliced hlist hL).2

/-- Splicing an empty list does nothing. -/
theorem listSplice_empty (hs : Represents s L) (hlist : L list = some []) :
    listSplice list head s = some s ∧ listSpliceTail list head s = some s ∧
      listSpliceInit list head s = some s ∧ listSpliceTailInit list head s = some s := by
  simp [listSplice, listSpliceTail, listSpliceInit, listSpliceTailInit, listEmpty_eq hs hlist]

/-! ### Cutting -/

/-- **`__list_cut_position`** behind an entry. -/
theorem listCutPositionAt_keeps (hs : Represents s L) (hL : L h = some (as ++ e :: bs)) (hfree : L.Free list)
    (hne : list ≠ h) :
    ∃ s', listCutPositionAt list h e s = some s' ∧
      Represents s' ((L.set h (some bs)).set list (some (as ++ [e]))) := by
  obtain ⟨f, _, hf⟩ : ∃ f fs, as ++ [e] = f :: fs := by
    cases as with
    | nil => exact ⟨e, [], rfl⟩
    | cons f fs => exact ⟨f, fs ++ [e], rfl⟩
  obtain ⟨p, n, hp, hn⟩ := exists_neighbours h (as ++ [e]) bs
  have hL' : L h = some ((as ++ [e]) ++ bs) := by rwa [List.append_assoc]
  have hpe : p = e := by
    rw [← List.cons_append, List.getLast?_concat] at hp
    exact (Option.some.inj hp).symm
  subst hpe
  have hen : Linked s p n := hs.linked hL' hp hn
  have hhf : Linked s h f := by
    have hnil : L h = some ([] ++ ((as ++ [p]) ++ bs)) := hL'
    apply hs.linked hnil rfl
    rw [hf]
    rfl
  have hhp : h ≠ p := by
    rintro rfl
    exact (List.nodup_cons.mp (hs.nodup hL)).1 (List.mem_append_right as List.mem_cons_self)
  have hlp : p ≠ list := by
    rintro rfl
    exact hfree h _ hL (List.mem_append_right as List.mem_cons_self)
  -- the head of the new list comes in behind `head`, and leaves with the entries up to `entry`
  obtain ⟨s₁, hs₁, hr₁⟩ := listAdd_keeps hs hfree hne hL
  rw [listAdd, hhf.1, listAddAt_eq, Option.some.injEq] at hs₁
  subst hs₁
  have hhl : Linked (exchange h list f list (initListHead list s)) h list := by simp [Linked, exchange]
  have hpn : Linked (exchange h list f list (initListHead list s)) p n := by
    have hnl : n ≠ list := by
      rintro rfl
      rcases List.mem_append.mp (List.mem_of_head? hn) with hmem | hmem
      · apply hfree h _ hL
        simp [hmem]
      · exact hne (List.mem_singleton.mp hmem)
    have hnf : n ≠ f := by
      rintro rfl
      exact hhp (hhf.left_unique hen)
    simp [Linked, exchange, hhp.symm, hlp, hnl, hnf, hen.1, hen.2]
  have hL₁ : ((L.set list none).set h (some (list :: (as ++ p :: bs)))) h
      = some ([] ++ list :: ((as ++ [p]) ++ bs)) := by
    rw [Lists.set_self, List.append_assoc]
    rfl
  have hlast : (list :: (as ++ [p])).getLast? = some p := by rw [← List.cons_append, List.getLast?_concat]
  have hr₂ := hr₁.split (crossed_exchange hhl hpn hhp) hL₁ rfl hlast
  rw [Lists.set_set, Lists.set_comm hne, Lists.set_set] at hr₂
  refine ⟨_, ?_, hr₂⟩
  simp only [listCutPositionAt, hen.1, hhf.1, storePrev, setNext_next, if_true, Option.bind_eq_bind, Option.bind_some,
    Option.some.injEq]
  funext x
  ext
  · simp only [exchange, setNext_next, setPrev_next, initListHead_next]
    grind
  · simp only [exchange, setNext_prev, setPrev_prev, initListHead_prev]
    grind

/-- **`list_cut_position`** behind an entry of the list. -/
theorem listCutPosition_keeps (hs : Represents s L) (hL : L h = some (as ++ e :: bs)) (hfree : L.Free list)
    (hne : list ≠ h) :
    ∃ s', listCutPosition list h e s = some s' ∧
      Represents s' ((L.set h (some bs)).set list (some (as ++ [e]))) := by
  obtain ⟨s₁, hs₁, hr₁⟩ := listCutPositionAt_keeps hs hL hfree hne
  refine ⟨s₁, ?_, hr₁⟩
  have heh : e ≠ h := by
    rintro rfl
    exact (List.nodup_cons.mp (hs.nodup hL)).1 (List.mem_append_right as List.mem_cons_self)
  have hsingle : listIsSingular h s = true → (s h).next = .node e := by
    rw [listIsSingular_eq hs hL, decide_eq_true_eq]
    intro hlen
    have has : as = [] := by
      apply List.eq_nil_of_length_eq_zero
      simp only [List.length_append, List.length_cons] at hlen
      omega
    subst has
    exact hs.next_head hL rfl
  have hguard : ¬ (listIsSingular h s = true ∧ (s h).next ≠ .node e ∧ h ≠ e) := by
    rintro ⟨hone, hnext, -⟩
    exact hnext (hsingle hone)
  rw [listCutPosition, listEmpty_eq hs hL, if_neg (by simp), if_neg hguard, if_neg heh]
  exact hs₁

/-- **`list_cut_position`** at the head leaves everything in the list. -/
theorem listCutPosition_head (hs : Represents s L) (hL : L h = some (x :: xs)) (hfree : L.Free list) :
    ∃ s', listCutPosition list h h s = some s' ∧ Represents s' (L.set list (some [])) := by
  refine ⟨_, ?_, hs.initListHead hfree⟩
  rw [listCutPosition, listEmpty_eq hs hL]
  simp

/-- **`list_cut_position`** of an empty list does not write the new head. -/
theorem listCutPosition_empty (hs : Represents s L) (hL : L h = some []) :
    listCutPosition list h e s = some s := by
  simp [listCutPosition, listEmpty_eq hs hL]

end Libls.ListHeads
