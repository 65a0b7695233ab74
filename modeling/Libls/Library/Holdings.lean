import Mathlib.Tactic

/-! # Sets that are taken and given back

A store says of every element whether it is in use.  Sets without an element in use are taken, and sets that have been
taken are given back.  In use is then what was in use at first, and what is held; the sets that are held are disjoint.
-/

namespace Libls.Holdings

variable {α : Type} {base now now' : α → Bool} {held held' : List (Finset α)} {S : Finset α}

/-- From `base`, the sets `held` have been taken. -/
structure Holding (base now : α → Bool) (held : List (Finset α)) : Prop where
  disjoint : held.Pairwise Disjoint
  clear : ∀ S ∈ held, ∀ i ∈ S, base i = false
  used : ∀ i, now i = true ↔ base i = true ∨ ∃ S ∈ held, i ∈ S

namespace Holding

theorem start (base : α → Bool) : Holding base base [] := ⟨.nil, by simp, by simp⟩

/-- If nothing is held, the store is as it was. -/
theorem now_eq (h : Holding base now []) : now = base := by
  funext i
  rw [Bool.eq_iff_iff, h.used i]
  simp

theorem perm (h : Holding base now held) (hp : held.Perm held') : Holding base now held' := by
  have hmem : ∀ S, S ∈ held' ↔ S ∈ held := fun S => hp.mem_iff.symm
  refine ⟨(hp.pairwise_iff fun hd => hd.symm).mp h.disjoint, fun S hS => h.clear S ((hmem S).mp hS), fun i => ?_⟩
  rw [h.used i]
  simp only [hmem]

/-- What is not in use is not held. -/
theorem disjoint_of_clear (h : Holding base now held) (hclear : ∀ i ∈ S, now i = false) : ∀ T ∈ held, Disjoint S T := by
  intro T hT
  rw [Finset.disjoint_left]
  intro i hS hi
  have hused := (h.used i).mpr (.inr ⟨T, hT, hi⟩)
  rw [hclear i hS] at hused
  exact Bool.false_ne_true hused

variable [DecidableEq α]

theorem take (h : Holding base now held) (hclear : ∀ i ∈ S, now i = false)
    (hnow : ∀ i, now' i = (now i || decide (i ∈ S))) : Holding base now' (S :: held) := by
  refine ⟨List.pairwise_cons.mpr ⟨h.disjoint_of_clear hclear, h.disjoint⟩, ?_, fun i => ?_⟩
  · intro T hT i hi
    rcases List.mem_cons.mp hT with rfl | hT
    · by_contra hbase
      have hused := (h.used i).mpr (.inl (Bool.eq_true_of_not_eq_false hbase))
      rw [hclear i hi] at hused
      exact Bool.false_ne_true hused
    · exact h.clear T hT i hi
  · rw [hnow, Bool.or_eq_true, h.used i, decide_eq_true_iff, or_assoc, List.exists_mem_cons_iff]
    exact or_congr_right or_comm

theorem give (h : Holding base now (S :: held)) (hnow : ∀ i, now' i = (now i && !decide (i ∈ S))) :
    Holding base now' held := by
  obtain ⟨hdisjoint, hpairwise⟩ := List.pairwise_cons.mp h.disjoint
  refine ⟨hpairwise, fun T hT => h.clear T (List.mem_cons_of_mem _ hT), fun i => ?_⟩
  rw [hnow, Bool.and_eq_true, h.used i, Bool.not_eq_true', decide_eq_false_iff_not, List.exists_mem_cons_iff]
  constructor
  · rintro ⟨hbase | hS | hT, hnot⟩
    · exact .inl hbase
    · exact absurd hS hnot
    · exact .inr hT
  · rintro (hbase | ⟨T, hT, hi⟩)
    · refine ⟨.inl hbase, fun hS => ?_⟩
      rw [h.clear S List.mem_cons_self i hS] at hbase
      exact Bool.false_ne_true hbase
    · exact ⟨.inr (.inr ⟨T, hT, hi⟩), fun hS => Finset.disjoint_left.mp (hdisjoint T hT) hS hi⟩

end Holding
end Libls.Holdings
