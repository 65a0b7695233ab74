import Libls.ArrayHeapMoves
import Libls.Library.Runs

/-! # Runs of array heap operations

`heapInsert_spec`, `heapDelete_spec` and `heapAdjust_spec` say what the three operations do to
the set of members.  The loop of `heap_delete` walks a hole from the deleted node down to a
leaf, over one slot more than the heap will have (`Walking`); only then the last node comes into
the hole and moves up.  `Run` is any program that uses one heap of fewer than `2 ^ 31` nodes. -/

namespace Libls.ArrayHeap

variable {ι : Type} {le : ι → ι → Prop} {h h' : Heap ι} {a a' : ℕ → ι} {n i j p : ℕ} {x last : ι}
  {S : Finset ι}

/-- The heap holds the nodes `S` in heap order, in slots they know. -/
structure HeapInv (le : ι → ι → Prop) (h : Heap ι) (S : Finset ι) (a : ℕ → ι) : Prop where
  slots : Slots h a h.len
  order : HeapOrdered le a h.len
  members : ∀ x, x ∈ S ↔ ∃ i, i < h.len ∧ a i = x
  fits : h.len ≤ h.size
  block : h.node.size = h.size

/-- The end of an operation on a heap whose length and size are settled. -/
theorem Moved.heapInv (hm : Moved h h' n a a') (ho : HeapOrdered le a' n) (hn : h.len = n)
    (hmem : ∀ x, x ∈ S ↔ ∃ i, i < n ∧ a i = x) (hfits : h.len ≤ h.size)
    (hblock : h.node.size = h.size) : HeapInv le h' S a' := by
  subst hn
  have hlen := hm.len
  refine ⟨by rw [hlen]; exact hm.slots, by rw [hlen]; exact ho, fun x => ?_, ?_, ?_⟩
  · rw [hlen, hm.members]
    exact hmem x
  · rw [hlen, hm.size]
    exact hfits
  · rw [hm.block, hm.size]
    exact hblock

variable [DecidableEq ι] {cmp : ι → ι → ℤ}

/-! ### Insertion -/

omit [DecidableEq ι] in
/-- Growing keeps the members, and makes room for one more node. -/
theorem heapGrow_inv {ok : Bool} (hv : HeapInv le h S a) (hlt : h.len < 2 ^ 31)
    (hg : heapGrow ok h = some h') : HeapInv le h' S a ∧ h'.len = h.len ∧ h'.idx = h.idx ∧
      h'.len < h'.size := by
  unfold heapGrow at hg
  by_cases hfull : h.size ≤ h.len
  · have heq : h.size = h.len := le_antisymm hfull hv.fits
    rw [if_pos hfull] at hg
    cases ok with
    | false => simp at hg
    | true =>
        have hsz : ∃ k, h.len < k ∧ (if u32 (h.size * 2) = 0 then 1 else u32 (h.size * 2)) = k := by
          refine ⟨_, ?_, rfl⟩
          rw [u32_of_lt (by omega)]
          split <;> omega
        obtain ⟨k, hk, ek⟩ := hsz
        simp only [ek, if_true, Option.some.injEq] at hg
        subst hg
        refine ⟨⟨fun i hi => ?_, hv.order, hv.members, hk.le, Block.size_realloc⟩, rfl, rfl, hk⟩
        have := hv.slots i hi
        rwa [Block.read_realloc (lt_trans hi hk)]
  · rw [if_neg hfull] at hg
    cases hg
    exact ⟨hv, rfl, rfl, by omega⟩

/-- The part of `heap_insert` behind the growth adds one member. -/
theorem heapInsert_grown {ok : Bool} {h₁ : Heap ι} (hc : Agrees cmp le) (hv : HeapInv le h S a)
    (hlt : h.len < 2 ^ 31) (hx : x ∉ S) (hg : heapGrow ok h = some h₁) :
    ∃ h' a', Prog.Returns (heapInsert cmp ok x h) (h', 0) ∧ HeapInv le h' (insert x S) a' ∧
      h'.len = h.len + 1 ∧ h'.size = h₁.size := by
  obtain ⟨hv₁, hlen, hidx, hroom⟩ := heapGrow_inv hv hlt hg
  obtain ⟨b, hb, hsz, hrd⟩ := Block.write_of_lt (by rw [hv₁.block]; exact hroom) x
  have hu : u32 (h₁.len + 1) = h₁.len + 1 := u32_of_lt (by omega)
  have hold : ∀ k, k < h₁.len → a k ≠ x := fun k hk e => hx ((hv₁.members x).mpr ⟨k, hk, e⟩)
  -- the node stands in the first free slot
  have hs : Slots { h₁ with node := b, len := u32 (h₁.len + 1), idx := Function.update h₁.idx x h₁.len }
      (Function.update a h₁.len x) (h₁.len + 1) := by
    intro k hk
    simp only [hrd]
    by_cases hkl : k = h₁.len
    · subst hkl
      simp
    · have hk' : k < h₁.len := by omega
      simpa [hkl, hold k hk'] using hv₁.slots k hk'
  have ho : HoleOrder le (Function.update a h₁.len x) (h₁.len + 1) h₁.len := by
    refine ⟨fun k hk0 hk hkl hpk => ?_, fun k hk0 hk hkl _ => ?_⟩
    · rw [Function.update_of_ne hkl, Function.update_of_ne hpk]
      exact hv₁.order k hk0 (by omega)
    · have := par_lt hk0
      omega
  obtain ⟨h', a', hret, hm, hord⟩ := heapPullUp_spec hc hs (by omega : h₁.len < h₁.len + 1) ho (by
    intro k hk0 hk hkl
    have := par_lt hk0
    omega)
  rw [Function.update_self] at hret
  refine ⟨h', a', ?_, hm.heapInv hord hu (fun y => ?_) (by simp only [hu]; omega) ?_, ?_, hm.size⟩
  · unfold heapInsert
    rw [hg]
    simpa [hb] using hret
  · rw [Finset.mem_insert, hv₁.members]
    constructor
    · rintro (rfl | ⟨k, hk, rfl⟩)
      · exact ⟨h₁.len, by omega, by simp⟩
      · exact ⟨k, by omega, by simp [hk.ne]⟩
    · rintro ⟨k, hk, rfl⟩
      by_cases hkl : k = h₁.len
      · exact .inl (by simp [hkl])
      · exact .inr ⟨k, by omega, by simp [hkl]⟩
  · exact hsz.trans hv₁.block
  · rw [hm.len]
    exact hu.trans (by rw [hlen])

/-- `heap_insert` returns 0 and adds one member, or returns -1 and changes nothing. -/
theorem heapInsert_spec (hc : Agrees cmp le) (ok : Bool) (hv : HeapInv le h S a)
    (hlt : h.len < 2 ^ 31) (hx : x ∉ S) :
    Prog.Returns (heapInsert cmp ok x h) (h, -1) ∨
      ∃ h' a', Prog.Returns (heapInsert cmp ok x h) (h', 0) ∧ HeapInv le h' (insert x S) a' ∧
        h'.len = h.len + 1 := by
  cases hg : heapGrow ok h with
  | none =>
      left
      unfold heapInsert
      rw [hg]
      exact Prog.returns_pure.mpr rfl
  | some h₁ =>
      obtain ⟨h', a', hret, hv', hlen, -⟩ := heapInsert_grown hc hv hlt hx hg
      exact .inr ⟨h', a', hret, hv', hlen⟩

/-! ### Adjustment -/

/-- `heap_adjust` restores the order after the key of one member has changed: `le₀` is the order
before the change. -/
theorem heapAdjust_spec {le₀ : ι → ι → Prop} (hc : Agrees cmp le)
    (htrans : ∀ a b c, le₀ a b → le₀ b c → le₀ a c) (hv : HeapInv le₀ h S a)
    (heq : ∀ a b, a ≠ x → b ≠ x → le₀ a b → le a b) (hx : x ∈ S) (hlt : h.len ≤ 2 ^ 31) :
    ∃ h' a', Prog.Returns (heapAdjust cmp x h) h' ∧ HeapInv le h' S a' ∧ h'.len = h.len ∧
      h'.size = h.size := by
  obtain ⟨i, hi, rfl⟩ := (hv.members x).mp hx
  have hxi := (hv.slots i hi).2
  have hne : ∀ k, k < h.len → k ≠ i → a k ≠ a i := fun k hk hki e => hki (hv.slots.injOn hk hi e)
  have ho : HoleOrder le a h.len i := by
    obtain ⟨h1, h2⟩ := hv.order.hole htrans hi
    refine ⟨fun k hk0 hk hki hpk => ?_, fun k hk0 hk hpk hi0 => ?_⟩
    · have := par_lt hk0
      exact heq _ _ (hne k hk hki) (hne _ (by omega) hpk) (h1 k hk0 hk hki hpk)
    · have := par_lt hi0
      have := par_lt hk0
      exact heq _ _ (hne k hk (by omega)) (hne _ (by omega) (by omega)) (h2 k hk0 hk hpk hi0)
  have hfinish : ∀ {h' a'}, Moved h h' h.len a a' → HeapOrdered le a' h.len →
      HeapInv le h' S a' ∧ h'.len = h.len ∧ h'.size = h.size :=
    fun hm hord => ⟨hm.heapInv hord rfl hv.members hv.fits hv.block, hm.len, hm.size⟩
  have hdown : (0 < i → le (a i) (a (par i))) → ∃ h' a', Prog.Returns (heapPushDown cmp (a i) h) h' ∧
      HeapInv le h' S a' ∧ h'.len = h.len ∧ h'.size = h.size := by
    intro hup
    obtain ⟨h', a', hret, hm, hord⟩ := heapPushDown_spec hc hv.slots rfl hlt hi ho hup
    exact ⟨h', a', hret, hfinish hm hord⟩
  unfold heapAdjust
  rw [hxi]
  by_cases hi0 : 0 < i
  · have hp := par_lt hi0
    have hr : h.node.read ((i - 1) / 2) = some (a (par i)) := (hv.slots (par i) (by omega)).1
    simp only [if_pos hi0, hr]
    by_cases hge : 0 ≤ cmp (a i) (a (par i))
    · have hle : le (a (par i)) (a i) := hc.of_ge hge
      obtain ⟨h', a', hret, hm, hord⟩ := heapPullUp_spec hc hv.slots hi ho
        (fun k hk0 hk hki => hc.trans _ _ _ (ho.2 k hk0 hk hki hi0) hle)
      refine ⟨h', a', ?_, hfinish hm hord⟩
      simpa [hge] using hret
    · obtain ⟨h', a', hret, hfin⟩ := hdown fun _ => hc.of_le (by omega)
      refine ⟨h', a', ?_, hfin⟩
      simpa [hge] using hret
  · rw [if_neg hi0]
    exact hdown fun h0 => absurd h0 hi0

/-! ### Removal -/

omit [DecidableEq ι] in
/-- The children that `heap_delete` compares, one of which may stand behind the heap. -/
theorem heapLarger_spec (hc : Agrees cmp le) (hs : SlotsBut h a (n + 1) p) (hn : h.len = n)
    (hlt : n < 2 ^ 31) (hp : 2 * p + 1 ≤ n) :
    ∃ c, 0 < c ∧ c < n + 1 ∧ par c = p ∧ heapLarger cmp (2 * p + 1) h = some (a c) ∧
      ∀ j, 0 < j → j < n + 1 → par j = p → le (a j) (a c) := by
  have hr1 := (hs (2 * p + 1) (by omega) (by omega)).1
  have hu : u32 (2 * p + 1 + 1) = 2 * p + 2 := u32_of_lt (by omega)
  have hp1 : par (2 * p + 1) = p := (par_eq_iff (by omega)).mpr (.inl rfl)
  have hp2 : par (2 * p + 2) = p := (par_eq_iff (by omega)).mpr (.inr rfl)
  by_cases h2 : 2 * p + 2 ≤ n
  · have hr2 := (hs (2 * p + 2) (by omega) (by omega)).1
    by_cases h3 : 0 < cmp (a (2 * p + 2)) (a (2 * p + 1))
    · refine ⟨2 * p + 2, by omega, by omega, hp2, ?_, fun j hj _ hji => ?_⟩
      · simp [heapLarger, hr1, hu, hn, h2, hr2, h3]
      · rcases (par_eq_iff hj).mp hji with rfl | rfl
        · exact hc.of_ge h3.le
        · exact hc.refl _
    · refine ⟨2 * p + 1, by omega, by omega, hp1, ?_, fun j hj _ hji => ?_⟩
      · simp [heapLarger, hr1, hu, hn, h2, hr2, h3]
      · rcases (par_eq_iff hj).mp hji with rfl | rfl
        · exact hc.refl _
        · exact hc.of_le (by omega)
  · refine ⟨2 * p + 1, by omega, by omega, hp1, ?_, fun j hj hjn hji => ?_⟩
    · simp [heapLarger, hr1, hu, hn, h2]
    · rcases (par_eq_iff hj).mp hji with rfl | rfl
      · exact hc.refl _
      · omega

/-- The state of the loop of `heap_delete`: `p` is a hole in the first `n + 1` slots, and `node`
came out of it; `last` is the node in slot `n`, until it has moved. -/
structure Walking (le : ι → ι → Prop) (last : ι) (S : Finset ι) (n : ℕ) (a : ℕ → ι)
    (node : ι) (p : ℕ) (h : Heap ι) : Prop where
  slots : SlotsBut h a (n + 1) p
  hole : p ≤ n
  order : HoleOrder le a (n + 1) p
  members : ∀ x, x ∈ S ↔ ∃ i, i < n + 1 ∧ i ≠ p ∧ a i = x
  last : (p = n ∧ node = last) ∨ (p < n ∧ node ≠ last ∧ a n = last)
  len : h.len = n
  fits : n ≤ h.size
  block : h.node.size = h.size
  room : n < h.node.size

/-- One pass of the loop of `heap_delete`. -/
theorem Walking.step (hc : Agrees cmp le) {node : ι} (hw : Walking le last S n a node p h)
    (hlt : n < 2 ^ 31) (hp : 2 * p + 1 ≤ n) :
    ∃ node' c h', heapDeletePass cmp (node, p, h) = some (.next (node', c, h')) ∧ p < c ∧
      Walking le last S n (Function.update a p (a c)) node' c h' := by
  obtain ⟨c, hc0, hcn, hcp, hlarger, hmax⟩ := heapLarger_spec hc hw.slots hw.len hlt hp
  have hpc : p < c := hcp ▸ par_lt hc0
  have hu : u32 (p * 2 + 1) = 2 * p + 1 := by
    rw [u32_of_lt (by omega)]
    omega
  have hxc := (hw.slots c hcn hpc.ne').2
  obtain ⟨b, hb, hsz, hrd⟩ := Block.write_of_lt (lt_of_le_of_lt hw.hole hw.room) (a c)
  refine ⟨a c, c, { h with node := b, idx := Function.update h.idx (a c) p }, ?_, hpc, ?_⟩
  · have : ¬ h.len < 2 * p + 1 := by
      rw [hw.len]
      omega
    simp [heapDeletePass, hu, this, hlarger, hb, hxc]
  · have hpn : p ≠ n := by omega
    obtain ⟨hpn', hnode, hlast⟩ := hw.last.resolve_left fun e => hpn e.1
    refine
      { slots := fun k hk hkc => ?_
        hole := by omega
        order := hw.order.down hc0 hcp hcn hmax
        members := fun y => ?_
        last := ?_
        len := hw.len
        fits := hw.fits
        block := hsz.trans hw.block
        room := by rw [hsz]; exact hw.room }
    · simp only [hrd]
      by_cases hkp : k = p
      · subst hkp
        simp
      · have hne : a k ≠ a c := fun e => hkc (hw.slots.injOn hk hcn hkp hpc.ne' e)
        simpa [hkp, hne] using hw.slots k hk hkp
    · rw [hw.members]
      constructor
      · rintro ⟨k, hk, hkp, rfl⟩
        by_cases hkc : k = c
        · exact ⟨p, by omega, hpc.ne, by simp [hkc]⟩
        · exact ⟨k, hk, hkc, by simp [hkp]⟩
      · rintro ⟨k, hk, hkc, rfl⟩
        by_cases hkp : k = p
        · exact ⟨c, hcn, hpc.ne', by simp [hkp]⟩
        · exact ⟨k, hk, hkp, by simp [hkp]⟩
    · by_cases hcn' : c = n
      · exact .inl ⟨hcn', by rw [hcn', hlast]⟩
      · refine .inr ⟨by omega, fun e => hcn' ?_, by rw [Function.update_of_ne hpn.symm, hlast]⟩
        exact hw.slots.injOn hcn (by omega) hpc.ne' hpn.symm (e.trans hlast.symm)

/-- The last pass, with the hole at a leaf. -/
theorem Walking.leaves {node : ι} (hw : Walking le last S n a node p h) (hlt : n < 2 ^ 31)
    (hp : n < 2 * p + 1) : heapDeletePass cmp (node, p, h) = some (.done (node, p, h)) := by
  have hu : u32 (p * 2 + 1) = 2 * p + 1 := by
    have := hw.hole
    rw [u32_of_lt (by omega)]
    omega
  have hc : h.len < 2 * p + 1 := by
    rw [hw.len]
    exact hp
  simp [heapDeletePass, hu, hc]

/-- The loop of `heap_delete` ends with the hole at a leaf. -/
theorem Walking.run (hc : Agrees cmp le) {node : ι} (hw : Walking le last S n a node p h)
    (hlt : n < 2 ^ 31) :
    ∃ node' p' h' a', Prog.Returns (Prog.iterate (fun s => .ofOption (heapDeletePass cmp s)) (node, p, h))
        (node', p', h') ∧ Walking le last S n a' node' p' h' ∧ n < 2 * p' + 1 := by
  induction hd : n - p using Nat.strongRecOn generalizing node p h a with
  | _ d ih =>
      by_cases hp : 2 * p + 1 ≤ n
      · obtain ⟨node₁, c, h₁, hstep, hpc, hw₁⟩ := hw.step hc hlt hp
        obtain ⟨node', p', h', a', hret, hw', hend⟩ := ih (n - c) (by have := hw₁.hole; omega) hw₁ rfl
        exact ⟨node', p', h', a', Prog.Returns.iterate_next (Prog.returns_ofOption.mpr hstep) hret, hw', hend⟩
      · have hdone : heapDeletePass cmp (node, p, h) = some (.done (node, p, h)) := hw.leaves hlt (by omega)
        exact ⟨node, p, h, a, Prog.Returns.iterate_done (Prog.returns_ofOption.mpr hdone), hw, by omega⟩

/-- The rest of `heap_delete` after its loop. -/
theorem Walking.finish (hc : Agrees cmp le) {node : ι} (hw : Walking le last S n a node p h)
    (hend : n < 2 * p + 1) :
    (last = node → HeapInv le h S a) ∧
      (last ≠ node → ∃ b h' a', h.node.write p last = some b ∧
        Prog.Returns (heapPullUp cmp last { h with node := b, idx := Function.update h.idx last p }) h' ∧
        HeapInv le h' S a' ∧ h'.len = n) := by
  constructor
  · rintro rfl
    obtain ⟨rfl, -⟩ := hw.last.resolve_right fun e => e.2.1 rfl
    refine ⟨fun k hk => ?_, fun k hk0 hk => ?_, fun y => ?_, ?_, hw.block⟩
    · rw [hw.len] at hk
      exact hw.slots k (by omega) (by omega)
    · rw [hw.len] at hk
      have := par_lt hk0
      exact hw.order.1 k hk0 (by omega) (by omega) (by omega)
    · rw [hw.members, hw.len]
      constructor
      · rintro ⟨k, hk, hkp, rfl⟩
        exact ⟨k, by omega, rfl⟩
      · rintro ⟨k, hk, rfl⟩
        exact ⟨k, by omega, hk.ne, rfl⟩
    · rw [hw.len]
      exact hw.fits
  · intro hne
    obtain ⟨hpn, -, hlast⟩ := hw.last.resolve_left fun e => hne e.2.symm
    obtain ⟨b, hb, hsz, hrd⟩ := Block.write_of_lt (lt_of_le_of_lt hw.hole hw.room) last
    have hs : Slots { h with node := b, idx := Function.update h.idx last p } (Function.update a p last) n := by
      intro k hk
      simp only [hrd]
      by_cases hkp : k = p
      · subst hkp
        simp
      · have hkl : a k ≠ last := by
          rw [← hlast]
          exact fun e => hk.ne (hw.slots.injOn (by omega) (by omega) hkp hpn.ne' e)
        simpa [hkp, hkl] using hw.slots k (by omega) hkp
    have ho := (hw.order.mono (Nat.le_succ n)).set last
    obtain ⟨h', a', hret, hm, hord⟩ := heapPullUp_spec hc hs hpn ho (by
      intro k hk0 hk hkp
      rcases (par_eq_iff hk0).mp hkp with rfl | rfl <;> omega)
    rw [Function.update_self] at hret
    refine ⟨b, h', a', hb, hret, hm.heapInv hord hw.len (fun y => ?_) ?_ (hsz.trans hw.block),
      hm.len.trans hw.len⟩
    · rw [hw.members]
      constructor
      · rintro ⟨k, hk, hkp, rfl⟩
        by_cases hkn : k = n
        · exact ⟨p, hpn, by simp [hkn, hlast]⟩
        · exact ⟨k, by omega, by simp [hkp]⟩
      · rintro ⟨k, hk, rfl⟩
        by_cases hkp : k = p
        · exact ⟨n, by omega, hpn.ne', by simp [hkp, hlast]⟩
        · exact ⟨k, by omega, hkp, by simp [hkp]⟩
    · show h.len ≤ h.size
      rw [hw.len]
      exact hw.fits

omit [DecidableEq ι] in
theorem u32_pred (hn : h.len = n + 1) (hle : h.len ≤ 2 ^ 31) : u32 (h.len + 2 ^ 32 - 1) = n := by
  rw [hn, u32]
  omega

/-- `heap_delete` starts with a hole in the slot of the deleted node. -/
theorem HeapInv.walking (hc : Agrees cmp le) (hv : HeapInv le h S a) (hn : h.len = n + 1) (hp : p < n + 1) :
    Walking le (a n) (S.erase (a p)) n a (a p) p { h with len := n } := by
  have hs := hv.slots
  have hord := hv.order
  have hfits := hv.fits
  rw [hn] at hs hord hfits
  refine
    { slots := hs.but p
      hole := Nat.le_of_lt_succ hp
      order := hord.hole hc.trans hp
      members := fun y => ?_
      last := ?_
      len := rfl
      fits := Nat.le_of_succ_le hfits
      block := hv.block
      room := by
        show n < h.node.size
        rw [hv.block]
        omega }
  · rw [Finset.mem_erase, hv.members, hn]
    constructor
    · rintro ⟨hne, k, hk, rfl⟩
      exact ⟨k, hk, fun e => hne (e ▸ rfl), rfl⟩
    · rintro ⟨k, hk, hkp, rfl⟩
      exact ⟨fun e => hkp (hs.injOn hk hp e), k, hk, rfl⟩
  · by_cases hpn : p = n
    · exact .inl ⟨hpn, by rw [hpn]⟩
    · exact .inr ⟨by omega, fun e => hpn (hs.injOn hp (Nat.lt_succ_self n) e), rfl⟩

/-- `heap_delete` removes exactly the node it is given. -/
theorem heapDelete_spec (hc : Agrees cmp le) (hv : HeapInv le h S a) (hlt : h.len ≤ 2 ^ 31)
    (hx : x ∈ S) : ∃ h' a', Prog.Returns (heapDelete cmp x h) h' ∧
      HeapInv le h' (S.erase x) a' ∧ h'.len + 1 = h.len := by
  obtain ⟨p, hp, rfl⟩ := (hv.members x).mp hx
  have hxp := (hv.slots p hp).2
  obtain ⟨n, hn⟩ : ∃ n, h.len = n + 1 := ⟨h.len - 1, by omega⟩
  have hu := u32_pred hn hlt
  have hs := hv.slots
  rw [hn] at hs hp
  have hr := (hs n (by omega)).1
  have hw := hv.walking hc hn hp
  -- the last node is deleted
  have hcut : p = n → HeapInv le { h with len := n } (S.erase (a p)) a := by
    intro hpn
    apply (hw.finish hc (by omega)).1
    rw [hpn]
  unfold heapDelete
  simp only [hxp, hu]
  by_cases hn0 : n = 0
  · refine ⟨_, a, ?_, hcut (by omega), hn.symm⟩
    simp [hn0]
  · simp only [if_neg hn0, hr]
    by_cases hpn : a n = a p
    · refine ⟨_, a, ?_, hcut (hs.injOn hp (by omega) hpn.symm), hn.symm⟩
      simp [hpn]
    · obtain ⟨node', p', h₁, a₁, hret, hw₁, hend⟩ := hw.run hc (by omega)
      obtain ⟨heq, hne⟩ := hw₁.finish hc hend
      by_cases hlast : a n = node'
      · refine ⟨h₁, a₁, ?_, heq hlast, by rw [hw₁.len, hn]⟩
        simpa [hpn] using ⟨_, _, _, hret, by simp [hlast]⟩
      · obtain ⟨b, h', a', hb, hpull, hinv, hlen⟩ := hne hlast
        refine ⟨h', a', ?_, hinv, by rw [hlen, hn]⟩
        simpa [hpn] using ⟨_, _, _, hret, by simpa [hlast, hb] using hpull⟩

/-! ### Runs -/

/-- The memory of a program that uses one heap, with the keys its comparison function reads. -/
structure HeapState (ι κ : Type) where
  heap : Heap ι
  key : ι → κ

section runs

variable {κ : Type}

/-- The operations of a program on one heap. -/
inductive Op (ι κ : Type) where
  | insert (node : ι) (ok : Bool)
  | delete (node : ι)
  /-- Give the node a new key, and call `heap_adjust`. -/
  | adjust (node : ι) (key : κ)

variable (cmp : κ → κ → ℤ)

/-- An operation, with the return value of `heap_insert`. -/
def Op.exec : Op ι κ → HeapState ι κ → Prog (HeapState ι κ × ℤ)
  | .insert node ok, s => do
      let (heap, ret) ← heapInsert (nodeCmp cmp s.key) ok node s.heap
      return (⟨heap, s.key⟩, ret)
  | .delete node, s => do
      let heap ← heapDelete (nodeCmp cmp s.key) node s.heap
      return (⟨heap, s.key⟩, 0)
  | .adjust node key, s => do
      let key := Function.update s.key node key
      let heap ← heapAdjust (nodeCmp cmp key) node s.heap
      return (⟨heap, key⟩, 0)

/-- Only a node that is not a member is inserted, while the heap stays below `2 ^ 31` nodes, and
only members are deleted or adjusted. -/
def Op.Legal (h : Heap ι) (S : Finset ι) : Op ι κ → Prop
  | .insert node _ => node ∉ S ∧ h.len + 1 < 2 ^ 31
  | .delete node => node ∈ S
  | .adjust node _ => node ∈ S

/-- The members after an operation that has returned `ret`. -/
def Op.members (S : Finset ι) (ret : ℤ) : Op ι κ → Finset ι
  | .insert node _ => if ret = 0 then Insert.insert node S else S
  | .delete node => S.erase node
  | .adjust _ _ => S

/-- The states a program can produce from `heap_init`, with the nodes that it has inserted and
not yet deleted. -/
inductive Run : HeapState ι κ → Finset ι → Prop
  | init (idx : ι → ℕ) (key : ι → κ) : Run ⟨heapInit idx, key⟩ ∅
  | op {s s' : HeapState ι κ} {S : Finset ι} {o : Op ι κ} {ret : ℤ} :
      Run s S → o.Legal s.heap S → Prog.Returns (o.exec cmp s) (s', ret) → Run s' (o.members S ret)
  /-- Nodes and keys outside the heap belong to the program. -/
  | other {s : HeapState ι κ} {S : Finset ι} {idx : ι → ℕ} {key : ι → κ} :
      Run s S → (∀ x ∈ S, idx x = s.heap.idx x ∧ key x = s.key x) →
        Run ⟨{ s.heap with idx := idx }, key⟩ S

variable {cmp} {s s' : HeapState ι κ}

theorem Op.exec_spec (hc : Comparison cmp) (hv : HeapInv (Le (nodeCmp cmp s.key)) s.heap S a)
    (hlt : s.heap.len < 2 ^ 31) {o : Op ι κ} (ho : o.Legal s.heap S) :
    ∃ s' ret a', Prog.Returns (o.exec cmp s) (s', ret) ∧
      HeapInv (Le (nodeCmp cmp s'.key)) s'.heap (o.members S ret) a' ∧ s'.heap.len < 2 ^ 31 := by
  cases o with
  | insert node ok =>
      rcases heapInsert_spec (hc.comap s.key).agrees ok hv hlt ho.1 with hret | ⟨h', a', hret, hv', hlen⟩
      · exact ⟨s, -1, a, Prog.returns_bind.mpr ⟨_, hret, Prog.returns_pure.mpr rfl⟩, hv, hlt⟩
      · exact ⟨⟨h', s.key⟩, 0, a', Prog.returns_bind.mpr ⟨_, hret, Prog.returns_pure.mpr rfl⟩, hv',
          by rw [hlen]; exact ho.2⟩
  | delete node =>
      obtain ⟨h', a', hret, hv', hlen⟩ := heapDelete_spec (hc.comap s.key).agrees hv hlt.le ho
      exact ⟨⟨h', s.key⟩, 0, a', Prog.returns_bind.mpr ⟨_, hret, Prog.returns_pure.mpr rfl⟩, hv',
        show h'.len < 2 ^ 31 by omega⟩
  | adjust node key =>
      obtain ⟨h', a', hret, hv', hlen, -⟩ := heapAdjust_spec (x := node)
        (hc.comap (Function.update s.key node key)).agrees (hc.comap s.key).trans hv (by
          intro a b ha hb hab
          simpa [Le, ha, hb] using hab) ho hlt.le
      exact ⟨⟨h', _⟩, 0, a', Prog.returns_bind.mpr ⟨_, hret, Prog.returns_pure.mpr rfl⟩, hv',
        by rw [hlen]; exact hlt⟩

/-- A heap without members, or one whose slots are known. -/
def HeapOf (le : ι → ι → Prop) (h : Heap ι) (S : Finset ι) : Prop :=
  h.len = 0 ∧ h.node.size = h.size ∧ S = ∅ ∨ ∃ a, HeapInv le h S a

omit [DecidableEq ι] in
theorem HeapOf.inv (hv : HeapOf le h S) (x : ι) : ∃ a, HeapInv le h S a := by
  rcases hv with ⟨hlen, hsz, rfl⟩ | hv
  · refine ⟨fun _ => x, fun i hi => ?_, fun i _ hi => ?_, fun y => ?_, ?_, hsz⟩
    · omega
    · omega
    · simp [hlen]
    · omega
  · exact hv

/-- Each operation is about some node. -/
def Op.node : Op ι κ → ι
  | .insert node _ => node
  | .delete node => node
  | .adjust node _ => node

/-- The invariant of all runs. -/
theorem Run.heapOf (hc : Comparison cmp) (h : Run cmp s S) :
    HeapOf (Le (nodeCmp cmp s.key)) s.heap S ∧ s.heap.len < 2 ^ 31 := by
  induction h with
  | init idx key => exact ⟨.inl ⟨rfl, rfl, rfl⟩, by simp [heapInit]⟩
  | @op s s' S o ret _ ho hr ih =>
      obtain ⟨a, hv⟩ := ih.1.inv o.node
      obtain ⟨s', ret, a', hs', hv', hlt'⟩ := Op.exec_spec hc hv ih.2 ho
      cases hr.unique hs'
      exact ⟨.inr ⟨a', hv'⟩, hlt'⟩
  | @other s S idx key _ hm ih =>
      refine ⟨ih.1.imp_right ?_, ih.2⟩
      rintro ⟨a, hv⟩
      have hmem : ∀ i, i < s.heap.len → a i ∈ S := fun i hi => (hv.members _).mpr ⟨i, hi, rfl⟩
      refine ⟨a, fun i hi => ?_, fun i hi0 hi => ?_, hv.members, hv.fits, hv.block⟩
      · obtain ⟨hr, hx⟩ := hv.slots i hi
        exact ⟨hr, (hm _ (hmem i hi)).1.trans hx⟩
      · have h1 := (hm _ (hmem i hi)).2
        have h2 := (hm _ (hmem (par i) (lt_trans (par_lt hi0) hi))).2
        simpa [Le, nodeCmp, h1, h2] using hv.order i hi0 hi

omit [DecidableEq ι] in
/-- What a heap with known slots looks like from outside. -/
theorem HeapInv.outside (hc : Comparison cmp) (hv : HeapInv (Le (nodeCmp cmp s.key)) s.heap S a) :
    (∀ i < s.heap.len, ∃ x ∈ S, s.heap.node.read i = some x ∧ s.heap.idx x = i) ∧
    (∀ x ∈ S, ∃! i, i < s.heap.len ∧ s.heap.node.read i = some x) ∧
    (∀ i x y, 0 < i → i < s.heap.len → s.heap.node.read i = some x →
      s.heap.node.read ((i - 1) / 2) = some y → cmp (s.key x) (s.key y) ≤ 0) ∧
    ∃ m, heapTop s.heap = some m ∧ (m = none ↔ S = ∅) ∧
      ∀ x, m = some x → x ∈ S ∧ ∀ y ∈ S, 0 ≤ cmp (s.key x) (s.key y) := by
  have hread : ∀ i, i < s.heap.len → ∀ x, s.heap.node.read i = some x → a i = x := by
    intro i hi x hx
    rw [(hv.slots i hi).1] at hx
    exact Option.some.inj hx
  refine ⟨fun i hi => ⟨a i, (hv.members _).mpr ⟨i, hi, rfl⟩, hv.slots i hi⟩, fun x hx => ?_, ?_, ?_⟩
  · obtain ⟨i, hi, rfl⟩ := (hv.members x).mp hx
    refine ⟨i, ⟨hi, (hv.slots i hi).1⟩, fun j hj => ?_⟩
    exact hv.slots.injOn hj.1 hi (hread j hj.1 _ hj.2)
  · intro i x y hi0 hi hx hy
    have := hv.order i hi0 hi
    rwa [hread i hi x hx, hread (par i) (lt_trans (par_lt hi0) hi) y hy] at this
  · by_cases h0 : 0 < s.heap.len
    · have htop : heapTop s.heap = some (some (a 0)) := by
        simp [heapTop, h0, (hv.slots 0 h0).1]
      have hmem : a 0 ∈ S := (hv.members _).mpr ⟨0, h0, rfl⟩
      refine ⟨_, htop, by simp [Finset.ne_empty_of_mem hmem], fun x hx => ?_⟩
      cases hx
      refine ⟨hmem, fun y hy => ?_⟩
      obtain ⟨i, hi, rfl⟩ := (hv.members y).mp hy
      rw [← hc.swap]
      exact hv.order.le_top (hc.comap s.key).refl (hc.comap s.key).trans i hi
    · have hS : S = ∅ := by
        refine Finset.eq_empty_of_forall_notMem fun x hx => ?_
        obtain ⟨i, hi, -⟩ := (hv.members x).mp hx
        omega
      exact ⟨none, by simp [heapTop, h0], by simp [hS], nofun⟩

/-- **The invariant of whole runs.**  After every operation the slots below `len` hold exactly the
members, each once and in a slot that it knows, no node compares greater than the node in its
parent's slot, `heap_top` is null if and only if there are no members and otherwise a member
that none compares greater than; every operation ends, and a `heap_insert` that does not return
0 returns -1 and leaves the heap and all `idx` fields as they were. -/
theorem heap_run_invariant (hc : Comparison cmp) (h : Run cmp s S) :
    (∀ i < s.heap.len, ∃ x ∈ S, s.heap.node.read i = some x ∧ s.heap.idx x = i) ∧
    (∀ x ∈ S, ∃! i, i < s.heap.len ∧ s.heap.node.read i = some x) ∧
    (∀ i x y, 0 < i → i < s.heap.len → s.heap.node.read i = some x →
      s.heap.node.read ((i - 1) / 2) = some y → cmp (s.key x) (s.key y) ≤ 0) ∧
    (∃ m, heapTop s.heap = some m ∧ (m = none ↔ S = ∅) ∧
      ∀ x, m = some x → x ∈ S ∧ ∀ y ∈ S, 0 ≤ cmp (s.key x) (s.key y)) ∧
    (∀ o : Op ι κ, o.Legal s.heap S → ∃ r, Prog.Returns (o.exec cmp s) r) ∧
    ∀ x ok h' ret, x ∉ S → s.heap.len + 1 < 2 ^ 31 →
      Prog.Returns (heapInsert (nodeCmp cmp s.key) ok x s.heap) (h', ret) →
      ret = 0 ∨ ret = -1 ∧ h' = s.heap := by
  obtain ⟨hv, hlt⟩ := h.heapOf hc
  have hops : ∀ o : Op ι κ, o.Legal s.heap S → ∃ r, Prog.Returns (o.exec cmp s) r := by
    intro o ho
    obtain ⟨a, hv⟩ := hv.inv o.node
    obtain ⟨s', ret, a', hs', -⟩ := Op.exec_spec hc hv hlt ho
    exact ⟨_, hs'⟩
  have hfail : ∀ x ok h' ret, x ∉ S → s.heap.len + 1 < 2 ^ 31 →
      Prog.Returns (heapInsert (nodeCmp cmp s.key) ok x s.heap) (h', ret) →
      ret = 0 ∨ ret = -1 ∧ h' = s.heap := by
    intro x ok h' ret hx hroom hret
    obtain ⟨a, hv⟩ := hv.inv x
    rcases heapInsert_spec (hc.comap s.key).agrees ok hv hlt hx with hret' | ⟨h'', a', hret', -⟩
    · cases hret.unique hret'
      exact .inr ⟨rfl, rfl⟩
    · cases hret.unique hret'
      exact .inl rfl
  rcases hv with ⟨hlen, hsz, rfl⟩ | ⟨a, hv⟩
  · refine ⟨fun i hi => by omega, nofun, fun i x y _ hi => by omega, ⟨none, ?_, by simp, nofun⟩, hops,
      hfail⟩
    simp [heapTop, hlen]
  · obtain ⟨h1, h2, h3, h4⟩ := hv.outside hc
    exact ⟨h1, h2, h3, h4, hops, hfail⟩

instance Op.decidableLegal (h : Heap ι) (S : Finset ι) : (o : Op ι κ) → Decidable (o.Legal h S)
  | .insert node _ => inferInstanceAs (Decidable (node ∉ S ∧ h.len + 1 < 2 ^ 31))
  | .delete node => inferInstanceAs (Decidable (node ∈ S))
  | .adjust node _ => inferInstanceAs (Decidable (node ∈ S))

/-- A legal operation with the fuel `n`, and the members after it. -/
def Op.attempt (cmp : κ → κ → ℤ) (n : ℕ) (s : HeapState ι κ × Finset ι) (o : Op ι κ) :
    Option (HeapState ι κ × Finset ι) :=
  (Prog.attempt (o.Legal s.1.heap s.2) (o.exec cmp s.1) n).map fun r => (r.1, o.members s.2 r.2)

theorem Run.attempt {n : ℕ} {s s' : HeapState ι κ × Finset ι} {o : Op ι κ}
    (hs : o.attempt cmp n s = some s') (h : Run cmp s.1 s.2) : Run cmp s'.1 s'.2 := by
  obtain ⟨ho, r, hr, rfl⟩ := Prog.attempt_map_eq_some hs
  exact .op h ho hr

/-- A run with nodes of equal keys, in which a `realloc` fails, the last node rises to the top, the top sinks,
and the top and another node are deleted. -/
theorem run_sample : ∃ s : HeapState ℕ ℤ, s.heap.len = 3 ∧ heapTop s.heap = some (some 5) ∧
    Run (fun a b => a - b) s {1, 3, 5} := by
  let key : ℕ → ℤ := fun x => if x = 1 then 5 else 3
  have hrun : (([.insert 1 true, .insert 2 true, .insert 3 true, .insert 4 true, .insert 5 false, .insert 5 true,
      .adjust 4 9, .adjust 1 2, .delete 4, .delete 2].foldlM (Op.attempt (fun a b => a - b) 9)
        (⟨heapInit fun _ => 0, key⟩, ∅)).map fun s => (s.1.heap.len, heapTop s.1.heap, s.2)) =
      some (3, some (some 5), {1, 3, 5}) := by
    decide +kernel
  obtain ⟨⟨s, S⟩, hsee, h⟩ := Libls.Run.exec_keeps (fun _ _ _ => Run.attempt) _ hrun (.init (fun _ => 0) key)
  obtain ⟨hlen, hrest⟩ := Prod.mk.inj hsee
  obtain ⟨htop, rfl⟩ := Prod.mk.inj hrest
  exact ⟨s, hlen, htop, h⟩

/-- A heap after several operations. -/
theorem heap_run_invariant_sample : ∃ s : HeapState ℕ ℤ, s.heap.len = 3 ∧ heapTop s.heap = some (some 5) ∧
    (∀ i < s.heap.len, ∃ x ∈ ({1, 3, 5} : Finset ℕ), s.heap.node.read i = some x ∧ s.heap.idx x = i) ∧
    (∀ x ∈ ({1, 3, 5} : Finset ℕ), ∃! i, i < s.heap.len ∧ s.heap.node.read i = some x) ∧
    (∃ m, heapTop s.heap = some m ∧ (m = none ↔ ({1, 3, 5} : Finset ℕ) = ∅) ∧
      ∀ x, m = some x → x ∈ ({1, 3, 5} : Finset ℕ) ∧
        ∀ y ∈ ({1, 3, 5} : Finset ℕ), 0 ≤ s.key x - s.key y) ∧
    ∀ o : Op ℕ ℤ, o.Legal s.heap {1, 3, 5} → ∃ r, Prog.Returns (o.exec (fun a b => a - b) s) r := by
  obtain ⟨s, hlen, htop, h⟩ := run_sample
  obtain ⟨hslots, hmembers, -, hmax, hnext, -⟩ := heap_run_invariant Comparison.sub h
  exact ⟨s, hlen, htop, hslots, hmembers, hmax, hnext⟩

end runs

end Libls.ArrayHeap
