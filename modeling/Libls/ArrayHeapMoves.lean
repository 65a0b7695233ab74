import Mathlib.Data.Finset.Basic
import Mathlib.Tactic.Tauto
import Libls.ArrayHeap

/-! # Moving nodes through an array heap

`Slots h a n` says that the first `n` slots of the array hold the nodes `a 0, a 1, ...` and that
each of them knows its slot.  `Moved` is what every loop of the heap keeps: the same nodes, in
slots that they know.  The order is the business of `HoleOrder`. -/

namespace Libls.ArrayHeap

variable {ι : Type} {le : ι → ι → Prop} {h h' : Heap ι} {a a' : ℕ → ι} {n i j p : ℕ} {x : ι}

/-- The first `n` slots hold `a`, except for a hole at `p`. -/
def SlotsBut (h : Heap ι) (a : ℕ → ι) (n p : ℕ) : Prop :=
  ∀ i, i < n → i ≠ p → h.node.read i = some (a i) ∧ h.idx (a i) = i

/-- The first `n` slots hold `a`, and every node knows its slot. -/
def Slots (h : Heap ι) (a : ℕ → ι) (n : ℕ) : Prop :=
  ∀ i, i < n → h.node.read i = some (a i) ∧ h.idx (a i) = i

/-- From `h` to `h'` nodes have only changed their slots. -/
structure Moved (h h' : Heap ι) (n : ℕ) (a a' : ℕ → ι) : Prop where
  slots : Slots h' a' n
  len : h'.len = h.len
  size : h'.size = h.size
  block : h'.node.size = h.node.size
  members : ∀ x, (∃ i, i < n ∧ a' i = x) ↔ ∃ i, i < n ∧ a i = x

theorem Moved.refl (hs : Slots h a n) : Moved h h n a a := ⟨hs, rfl, rfl, rfl, fun _ => Iff.rfl⟩

theorem Moved.trans {h'' : Heap ι} {a'' : ℕ → ι} (h1 : Moved h h' n a a')
    (h2 : Moved h' h'' n a' a'') : Moved h h'' n a a'' :=
  ⟨h2.slots, h2.len.trans h1.len, h2.size.trans h1.size, h2.block.trans h1.block,
    fun x => (h2.members x).trans (h1.members x)⟩

theorem Slots.injOn (hs : Slots h a n) (hi : i < n) (hj : j < n) (e : a i = a j) : i = j := by
  rw [← (hs i hi).2, ← (hs j hj).2, e]

theorem SlotsBut.injOn (hs : SlotsBut h a n p) (hi : i < n) (hj : j < n) (hip : i ≠ p) (hjp : j ≠ p)
    (e : a i = a j) : i = j := by
  rw [← (hs i hi hip).2, ← (hs j hj hjp).2, e]

theorem Slots.but (hs : Slots h a n) (p : ℕ) : SlotsBut h a n p := fun i hi _ => hs i hi

variable [DecidableEq ι]

/-- `heap_swap` exchanges the nodes of two slots. -/
theorem heapSwap_moved (hs : Slots h a n) (hi : i < n) (hj : j < n) (hij : i ≠ j) :
    ∃ h', heapSwap (a i) (a j) h = some h' ∧
      Moved h h' n a (Function.update (Function.update a i (a j)) j (a i)) := by
  obtain ⟨hri, hxi⟩ := hs i hi
  obtain ⟨hrj, hxj⟩ := hs j hj
  have hne : a i ≠ a j := fun e => hij (hs.injOn hi hj e)
  obtain ⟨b₁, hb₁, hsz₁, hrd₁⟩ := Block.write_of_lt (Block.lt_of_read hri) (a j)
  have hlt : j < b₁.size := by
    rw [hsz₁]
    exact Block.lt_of_read hrj
  obtain ⟨b₂, hb₂, hsz₂, hrd₂⟩ := Block.write_of_lt hlt (a i)
  refine ⟨{ h with node := b₂, idx := Function.update (Function.update h.idx (a i) j) (a j) i }, ?_,
    ?_, rfl, rfl, hsz₂.trans hsz₁, fun y => ?_⟩
  · simp [heapSwap, hxi, hxj, hb₁, hb₂]
  · intro k hk
    simp only [hrd₂, hrd₁]
    by_cases hkj : k = j
    · subst hkj
      simp [hne]
    · by_cases hki : k = i
      · subst hki
        simp [hkj]
      · obtain ⟨hr, hx⟩ := hs k hk
        have h1 : a k ≠ a i := fun e => hki (hs.injOn hk hi e)
        have h2 : a k ≠ a j := fun e => hkj (hs.injOn hk hj e)
        simp [hkj, hki, hr, hx, h1, h2]
  · constructor
    · rintro ⟨k, hk, rfl⟩
      by_cases hkj : k = j
      · exact ⟨i, hi, by simp [hkj]⟩
      · by_cases hki : k = i
        · subst hki
          exact ⟨j, hj, by simp [hkj]⟩
        · exact ⟨k, hk, by simp [hkj, hki]⟩
    · rintro ⟨k, hk, rfl⟩
      by_cases hkj : k = j
      · exact ⟨i, hi, by simp [hkj, hij]⟩
      · by_cases hki : k = i
        · exact ⟨j, hj, by simp [hki]⟩
        · exact ⟨k, hk, by simp [hkj, hki]⟩

/-! ### The loops of `heap_adjust` -/

variable {cmp : ι → ι → ℤ}

/-- One pass of `heap_pull_up` leaves the node below its parent, or takes it there. -/
theorem heapPullUpPass_spec (hc : Agrees cmp le) (hs : Slots h a n) (hi : i < n) :
    (heapPullUpPass cmp (a i) h = some (.done h) ∧ (0 < i → le (a i) (a (par i)))) ∨
      ∃ h', 0 < i ∧ heapPullUpPass cmp (a i) h = some (.next h') ∧ le (a (par i)) (a i) ∧
        Moved h h' n a (Function.update (Function.update a i (a (par i))) (par i) (a i)) := by
  have hx := (hs i hi).2
  by_cases h0 : 0 < i
  · have hp : par i < i := par_lt h0
    have hr : h.node.read ((i - 1) / 2) = some (a (par i)) := (hs (par i) (by omega)).1
    by_cases hle : cmp (a i) (a (par i)) ≤ 0
    · left
      exact ⟨by simp [heapPullUpPass, hx, h0, hr, hle], fun _ => hc.of_le hle⟩
    · obtain ⟨h₁, hh₁, hm₁⟩ := heapSwap_moved hs hi (by omega : par i < n) hp.ne'
      right
      exact ⟨h₁, h0, by simp [heapPullUpPass, hx, h0, hr, hle, hh₁], hc.of_ge (by omega), hm₁⟩
  · left
    exact ⟨by simp [heapPullUpPass, hx, h0], fun h => absurd h h0⟩

/-- `heap_pull_up` restores the order when the node is not below its children. -/
theorem heapPullUp_spec (hc : Agrees cmp le) (hs : Slots h a n) (hi : i < n)
    (ho : HoleOrder le a n i) (hdown : ∀ j, 0 < j → j < n → par j = i → le (a j) (a i)) :
    ∃ h' a', Prog.Returns (heapPullUp cmp (a i) h) h' ∧ Moved h h' n a a' ∧ HeapOrdered le a' n := by
  induction i using Nat.strongRecOn generalizing h a with
  | _ i ih =>
      rcases heapPullUpPass_spec hc hs hi with ⟨hpass, hup⟩ | ⟨h₁, h0, hpass, hpx, hm₁⟩
      · refine ⟨h, a, Prog.Returns.iterate_done (Prog.returns_ofOption.mpr hpass), Moved.refl hs, ?_⟩
        have := ho.fill hup hdown
        rwa [Function.update_eq_self] at this
      · have hp : par i < i := par_lt h0
        have ho₁ := (ho.up hc.trans h0 hi).set (a i)
        obtain ⟨h', a', hret, hm, hord⟩ := ih (par i) hp hm₁.slots (by omega) ho₁ (by
          intro j hj hjn hjp
          have hj' : j ≠ par i := by
            rintro rfl
            exact absurd (par_lt hj) (by omega)
          rw [Function.update_self, Function.update_of_ne hj']
          by_cases hji : j = i
          · rw [hji, Function.update_self]
            exact hpx
          · rw [Function.update_of_ne hji]
            have h1 := ho.1 j hj hjn hji (by omega)
            rw [hjp] at h1
            exact hc.trans _ _ _ h1 hpx)
        rw [Function.update_self] at hret
        exact ⟨h', a', Prog.Returns.iterate_next (Prog.returns_ofOption.mpr hpass) hret, hm₁.trans hm, hord⟩

omit [DecidableEq ι] in
/-- `heap_push_down` compares the node with its children. -/
theorem heapMax_spec (hc : Agrees cmp le) (hs : Slots h a n) (hn : h.len = n) (hlt : n ≤ 2 ^ 31)
    (hi : 2 * i + 1 < n) : ∃ m, heapMax cmp (a i) (2 * i + 1) h = some m ∧
      (∀ j, 0 < j → j < n → par j = i → le (a j) m) ∧
      (m = a i ∨ ∃ c, 0 < c ∧ c < n ∧ par c = i ∧ m = a c ∧ le (a i) m) := by
  have hr1 := (hs _ hi).1
  have hu : u32 (2 * i + 1 + 1) = 2 * i + 2 := u32_of_lt (by omega)
  -- the first child
  obtain ⟨m₁, hm₁, hle1, hle2, hcase₁⟩ : ∃ m₁, (if 0 < cmp (a (2 * i + 1)) (a i) then a (2 * i + 1)
      else a i) = m₁ ∧ le (a (2 * i + 1)) m₁ ∧ le (a i) m₁ ∧ (m₁ = a i ∨ m₁ = a (2 * i + 1)) := by
    by_cases h1 : 0 < cmp (a (2 * i + 1)) (a i)
    · exact ⟨_, if_pos h1, hc.refl _, hc.of_ge h1.le, .inr rfl⟩
    · exact ⟨_, if_neg h1, hc.of_le (by omega), hc.refl _, .inl rfl⟩
  have hchild : m₁ = a i ∨ ∃ c, 0 < c ∧ c < n ∧ par c = i ∧ m₁ = a c ∧ le (a i) m₁ := by
    refine hcase₁.imp_right fun e => ⟨2 * i + 1, by omega, hi, ?_, e, hle2⟩
    exact (par_eq_iff (by omega)).mpr (.inl rfl)
  by_cases h2 : 2 * i + 2 < n
  · have hr2 := (hs _ h2).1
    by_cases h3 : 0 < cmp (a (2 * i + 2)) m₁
    · refine ⟨a (2 * i + 2), ?_, ?_, .inr ⟨2 * i + 2, by omega, h2, ?_, rfl, ?_⟩⟩
      · simp [heapMax, hr1, hu, hn, h2, hr2, hm₁, h3]
      · intro j hj hjn hji
        rcases (par_eq_iff hj).mp hji with rfl | rfl
        · exact hc.trans _ _ _ hle1 (hc.of_ge h3.le)
        · exact hc.refl _
      · exact (par_eq_iff (by omega)).mpr (.inr rfl)
      · exact hc.trans _ _ _ hle2 (hc.of_ge h3.le)
    · refine ⟨m₁, ?_, ?_, hchild⟩
      · simp [heapMax, hr1, hu, hn, h2, hr2, hm₁, h3]
      · intro j hj hjn hji
        rcases (par_eq_iff hj).mp hji with rfl | rfl
        · exact hle1
        · exact hc.of_le (by omega)
  · refine ⟨m₁, ?_, ?_, hchild⟩
    · simp [heapMax, hr1, hu, hn, h2, hm₁]
    · intro j hj hjn hji
      rcases (par_eq_iff hj).mp hji with rfl | rfl
      · exact hle1
      · omega

/-- One pass of `heap_push_down` leaves the node above its children, or takes it to one of them. -/
theorem heapPushDownPass_spec (hc : Agrees cmp le) (hs : Slots h a n) (hn : h.len = n)
    (hlt : n ≤ 2 ^ 31) (hi : i < n) :
    (heapPushDownPass cmp (a i) h = some (.done h) ∧ ∀ j, 0 < j → j < n → par j = i → le (a j) (a i)) ∨
      ∃ c h', 0 < c ∧ c < n ∧ par c = i ∧ heapPushDownPass cmp (a i) h = some (.next h') ∧
        (∀ j, 0 < j → j < n → par j = i → le (a j) (a c)) ∧ le (a i) (a c) ∧
        Moved h h' n a (Function.update (Function.update a i (a c)) c (a i)) := by
  have hx := (hs i hi).2
  have hu : u32 (i * 2 + 1) = 2 * i + 1 := by
    rw [u32_of_lt (by omega)]
    omega
  by_cases h1 : n ≤ 2 * i + 1
  · refine .inl ⟨by simp [heapPushDownPass, hx, hu, hn, h1], fun j hj hjn hji => ?_⟩
    have := (par_eq_iff hj).mp hji
    omega
  · obtain ⟨m, hm, hmax, hcase⟩ := heapMax_spec hc hs hn hlt (i := i) (by omega)
    by_cases hmx : m = a i
    · exact .inl ⟨by simp [heapPushDownPass, hx, hu, hn, h1, hm, hmx], hmx ▸ hmax⟩
    · obtain ⟨c, hc0, hcn, hci, rfl, hle⟩ := hcase.resolve_left hmx
      have hic : i < c := hci ▸ par_lt hc0
      obtain ⟨h₁, hh₁, hm₁⟩ := heapSwap_moved hs hi hcn hic.ne
      refine .inr ⟨c, h₁, hc0, hcn, hci, ?_, hmax, hle, hm₁⟩
      simp [heapPushDownPass, hx, hu, hn, h1, hm, hmx, hh₁]

/-- `heap_push_down` restores the order when the node is below its parent. -/
theorem heapPushDown_spec (hc : Agrees cmp le) (hs : Slots h a n) (hn : h.len = n)
    (hlt : n ≤ 2 ^ 31) (hi : i < n) (ho : HoleOrder le a n i) (hup : 0 < i → le (a i) (a (par i))) :
    ∃ h' a', Prog.Returns (heapPushDown cmp (a i) h) h' ∧ Moved h h' n a a' ∧ HeapOrdered le a' n := by
  induction hd : n - i using Nat.strongRecOn generalizing h a i with
  | _ d ih =>
      rcases heapPushDownPass_spec hc hs hn hlt hi with
        ⟨hpass, hdown⟩ | ⟨c, h₁, hc0, hcn, hci, hpass, hmax, hle, hm₁⟩
      · refine ⟨h, a, Prog.Returns.iterate_done (Prog.returns_ofOption.mpr hpass), Moved.refl hs, ?_⟩
        have := ho.fill hup hdown
        rwa [Function.update_eq_self] at this
      · have hic : i < c := hci ▸ par_lt hc0
        have ho₁ := (ho.down hc0 hci hcn hmax).set (a i)
        obtain ⟨h', a', hret, hmv, hord⟩ := ih (n - c) (by omega) hm₁.slots (hm₁.len.trans hn) hcn ho₁ (by
          intro _
          rw [Function.update_self, hci, Function.update_of_ne hic.ne, Function.update_self]
          exact hle) rfl
        rw [Function.update_self] at hret
        exact ⟨h', a', Prog.Returns.iterate_next (Prog.returns_ofOption.mpr hpass) hret, hm₁.trans hmv, hord⟩

end Libls.ArrayHeap
