import Mathlib.Data.Nat.Init
import Mathlib.Order.Basic

/-! # Ranges of positions

The maximal ranges of the positions that are set among `n` positions from `i` on.  `ranges` goes through
the positions with the start of the range that reaches up to `i`, if there is one. -/

namespace Libls.Ranges

/-- The ranges from the lowest one on, each with its first and last position. -/
def ranges (bit : ℕ → Bool) : ℕ → ℕ → Option ℕ → List (ℕ × ℕ)
  | 0, _, none => []
  | 0, i, some lo => [(lo, i - 1)]
  | n + 1, i, none => if bit i then ranges bit n (i + 1) (some i) else ranges bit n (i + 1) none
  | n + 1, i, some lo =>
      if bit i then ranges bit n (i + 1) (some lo) else (lo, i - 1) :: ranges bit n (i + 1) none

/-- The position `k` is in one of the ranges. -/
def Covers (rs : List (ℕ × ℕ)) (k : ℕ) : Prop := ∃ r ∈ rs, r.1 ≤ k ∧ k ≤ r.2

variable {bit : ℕ → Bool} {n m i k lo : ℕ} {r : ℕ × ℕ} {rs : List (ℕ × ℕ)}

theorem not_covers_nil : ¬ Covers [] k := by
  rintro ⟨r, hr, -⟩
  cases hr

theorem covers_cons : Covers (r :: rs) k ↔ (r.1 ≤ k ∧ k ≤ r.2) ∨ Covers rs k := by
  simp [Covers]

/-- Positions that are not set end a range. -/
theorem ranges_clear (hclear : ∀ j, i ≤ j → j < i + m → bit j = false) :
    ranges bit (m + n) i none = ranges bit n (i + m) none := by
  induction m generalizing i with
  | zero => rw [Nat.zero_add, Nat.add_zero]
  | succ m ih =>
      rw [Nat.succ_add, ranges, hclear i (Nat.le_refl i) (by omega), if_neg Bool.false_ne_true,
        ih (fun j hj hlt => hclear j (by omega) (by omega))]
      congr 1
      omega

/-- A range that ends in front of `i`. -/
theorem ranges_end (hclear : bit i = false ∨ n = 0) :
    ranges bit n i (some lo) = (lo, i - 1) :: ranges bit n i none := by
  cases n with
  | zero => rfl
  | succ n =>
      have hi : bit i = false := hclear.resolve_right (Nat.succ_ne_zero n)
      rw [ranges, ranges, hi, if_neg Bool.false_ne_true, if_neg Bool.false_ne_true]

/-- A range that starts at `i`. -/
theorem ranges_start (hset : bit i = true) :
    ranges bit (n + 1) i none = ranges bit n (i + 1) (some i) := by
  rw [ranges, if_pos hset]

/-- A range that goes on at `i`. -/
theorem ranges_go (hset : bit i = true) :
    ranges bit (n + 1) i (some lo) = ranges bit n (i + 1) (some lo) := by
  rw [ranges, if_pos hset]

/-- One more position. -/
theorem set_succ : (i ≤ k ∧ k < i + (n + 1) ∧ bit k = true) ↔
    (k = i ∧ bit i = true) ∨ (i + 1 ≤ k ∧ k < i + 1 + n ∧ bit k = true) := by
  constructor
  · rintro ⟨hge, hlt, hk⟩
    rcases Nat.eq_or_lt_of_le hge with rfl | h
    · exact .inl ⟨rfl, hk⟩
    · exact .inr ⟨h, by omega, hk⟩
  · rintro (⟨rfl, hk⟩ | ⟨hge, hlt, hk⟩)
    · exact ⟨Nat.le_refl k, by omega, hk⟩
    · exact ⟨by omega, by omega, hk⟩

/-- The ranges cover the positions that are set, and those of the range that reaches up to `i`. -/
theorem covers_ranges : (Covers (ranges bit n i none) k ↔ i ≤ k ∧ k < i + n ∧ bit k = true) ∧
    ∀ lo, lo < i → (Covers (ranges bit n i (some lo)) k ↔
      (lo ≤ k ∧ k < i) ∨ (i ≤ k ∧ k < i + n ∧ bit k = true)) := by
  induction n generalizing i with
  | zero =>
      have hno : ¬ (i ≤ k ∧ k < i + 0 ∧ bit k = true) := fun h => by omega
      refine ⟨iff_of_false not_covers_nil hno, fun lo hlo => ?_⟩
      rw [ranges, covers_cons, or_iff_left not_covers_nil, or_iff_left hno]
      simp only
      omega
  | succ n ih =>
      obtain ⟨ihnone, ihsome⟩ := @ih (i + 1)
      rw [set_succ]
      cases hi : bit i with
      | true =>
          refine ⟨?_, fun lo hlo => ?_⟩
          · rw [ranges_start hi, ihsome _ (Nat.lt_succ_self _)]
            refine or_congr_left ?_
            simp only [and_true]
            omega
          · rw [ranges_go hi, ihsome _ (Nat.lt_succ_of_lt hlo), ← or_assoc]
            refine or_congr_left ?_
            simp only [and_true]
            omega
      | false =>
          have hnone : Covers (ranges bit (n + 1) i none) k ↔ i + 1 ≤ k ∧ k < i + 1 + n ∧ bit k = true := by
            rw [ranges, hi, if_neg Bool.false_ne_true]
            exact ihnone
          have hfalse : ¬ (k = i ∧ false = true) := fun h => Bool.false_ne_true h.2
          rw [or_iff_right hfalse]
          refine ⟨hnone, fun lo hlo => ?_⟩
          rw [ranges_end (.inl hi), covers_cons, hnone]
          refine or_congr_left ?_
          simp only
          omega

/-- A range is not empty and lies in front of the end. -/
theorem le_of_mem_ranges : (∀ r ∈ ranges bit n i none, r.1 ≤ r.2 ∧ r.2 < i + n) ∧
    ∀ lo, lo < i → ∀ r ∈ ranges bit n i (some lo), r.1 ≤ r.2 ∧ r.2 < i + n := by
  induction n generalizing i with
  | zero =>
      refine ⟨fun r hr => absurd hr List.not_mem_nil, fun lo hlo r hr => ?_⟩
      rw [ranges, List.mem_singleton] at hr
      rw [hr]
      simp only
      omega
  | succ n ih =>
      obtain ⟨ihnone, ihsome⟩ := @ih (i + 1)
      have hsum : i + (n + 1) = i + 1 + n := by omega
      rw [hsum]
      cases hi : bit i with
      | true =>
          refine ⟨?_, fun lo hlo => ?_⟩
          · rw [ranges_start hi]
            exact ihsome _ (Nat.lt_succ_self _)
          · rw [ranges_go hi]
            exact ihsome _ (Nat.lt_succ_of_lt hlo)
      | false =>
          have hnone : ∀ r ∈ ranges bit (n + 1) i none, r.1 ≤ r.2 ∧ r.2 < i + 1 + n := by
            rw [ranges, hi, if_neg Bool.false_ne_true]
            exact ihnone
          refine ⟨hnone, fun lo hlo r hr => ?_⟩
          rw [ranges_end (.inl hi), List.mem_cons] at hr
          rcases hr with rfl | hr
          · simp only
            omega
          · exact hnone r hr

/-- Between two ranges there is a position. -/
theorem length_ranges : 2 * (ranges bit n i none).length ≤ n + 1 ∧
    ∀ lo, 2 * (ranges bit n i (some lo)).length ≤ n + 2 := by
  induction n generalizing i with
  | zero => exact ⟨Nat.zero_le _, fun _ => Nat.le_refl 2⟩
  | succ n ih =>
      obtain ⟨ihnone, ihsome⟩ := @ih (i + 1)
      cases hi : bit i with
      | true =>
          refine ⟨?_, fun lo => ?_⟩
          · rw [ranges_start hi]
            exact ihsome i
          · rw [ranges_go hi]
            exact Nat.le_succ_of_le (ihsome lo)
      | false =>
          have hnone : 2 * (ranges bit (n + 1) i none).length ≤ n + 1 := by
            rw [ranges, hi, if_neg Bool.false_ne_true]
            exact ihnone
          refine ⟨Nat.le_succ_of_le hnone, fun lo => ?_⟩
          rw [ranges_end (.inl hi), List.length_cons]
          omega

end Libls.Ranges
