import Mathlib.Data.Nat.Nth
import Mathlib.Tactic

/-! # Ranks in a finite set of numbers

`rank S n` is the number of members below `n`, and `select S m` is the member with rank `m`.  Sets are mapped with
them: `onto S X` are the members of `S` whose rank is in `X`, `fold w X` is `X` modulo `w`, and `transfer S T` takes a
member of `S` to the member of `T` that has the same rank modulo the size of `T`. -/

namespace Libls.Ranks

/-- The number of members below `n`. -/
def rank (S : Finset ℕ) (n : ℕ) : ℕ := Nat.count (· ∈ S) n

/-- The member with rank `m`. -/
noncomputable def select (S : Finset ℕ) (m : ℕ) : ℕ := Nat.nth (· ∈ S) m

/-- The members of `S` whose rank is in `X`. -/
def onto (S X : Finset ℕ) : Finset ℕ := S.filter fun n => rank S n ∈ X

/-- The members modulo `w`. -/
def fold (w : ℕ) (X : Finset ℕ) : Finset ℕ := X.image (· % w)

/-- A member of `S` goes to the member of `T` with the same rank, modulo the size of `T`. -/
noncomputable def transfer (S T : Finset ℕ) (x : ℕ) : ℕ :=
  if x ∈ S ∧ T.Nonempty then select T (rank S x % T.card) else x

variable {S T X : Finset ℕ} {a b m n w x : ℕ}

/-! ### Ranks -/

theorem rank_zero : rank S 0 = 0 := Nat.count_zero _

theorem rank_succ (h : n ∈ S) : rank S (n + 1) = rank S n + 1 := Nat.count_succ_eq_succ_count_iff.mpr h

/-- Only members count. -/
theorem rank_skip (hle : a ≤ b) (h : ∀ i, a ≤ i → i < b → i ∉ S) : rank S b = rank S a := by
  induction b, hle using Nat.le_induction with
  | base => rfl
  | succ b hab ih =>
      have hstep : rank S (b + 1) = rank S b := Nat.count_succ_eq_count_iff.mpr (h b hab (Nat.lt_succ_self b))
      rw [hstep]
      exact ih fun i hi hlt => h i hi (Nat.lt_succ_of_lt hlt)

theorem rank_eq_card (h : ∀ i ∈ S, i < n) : rank S n = S.card := by
  unfold rank
  rw [Nat.count_eq_card_filter_range]
  congr 1
  ext i
  rw [Finset.mem_filter, Finset.mem_range]
  exact and_iff_right_of_imp (h i)

theorem rank_lt_card (h : n ∈ S) : rank S n < S.card := by
  have hlt := @Nat.count_lt_card (· ∈ S) _ n S.finite_toSet h
  have hcard : (S.finite_toSet.toFinset).card = S.card := by rw [Finset.finite_toSet_toFinset]
  exact hlt.trans_eq hcard

/-! ### Members -/

theorem lt_card (h : m < S.card) : ∀ hf : (Set.ofPred (· ∈ S)).Finite, m < hf.toFinset.card := by
  intro hf
  have hset : hf.toFinset = S := by
    ext i
    exact hf.mem_toFinset
  rwa [hset]

theorem select_mem (h : m < S.card) : select S m ∈ S := Nat.nth_mem m (lt_card h)

theorem rank_select (h : m < S.card) : rank S (select S m) = m := Nat.count_nth (lt_card h)

theorem select_rank (h : n ∈ S) : select S (rank S n) = n := Nat.nth_count h

/-! ### Maps -/

theorem mem_onto : n ∈ onto S X ↔ n ∈ S ∧ rank S n ∈ X := Finset.mem_filter

theorem onto_empty : onto ∅ X = ∅ := rfl

/-- **Fold, then onto.** -/
theorem onto_fold (hS : S.Nonempty) : onto S (fold S.card X) = X.image fun x => select S (x % S.card) := by
  have hpos : 0 < S.card := Finset.card_pos.mpr hS
  ext n
  rw [mem_onto, Finset.mem_image, fold, Finset.mem_image]
  constructor
  · rintro ⟨hn, x, hx, hrank⟩
    refine ⟨x, hx, ?_⟩
    rw [hrank]
    exact select_rank hn
  · rintro ⟨x, hx, rfl⟩
    have hlt : x % S.card < S.card := Nat.mod_lt x hpos
    exact ⟨select_mem hlt, x, hx, (rank_select hlt).symm⟩

theorem transfer_of_mem (hx : x ∈ S) (hT : T.Nonempty) : transfer S T x = select T (rank S x % T.card) :=
  if_pos ⟨hx, hT⟩

theorem transfer_of_not (h : x ∉ S ∨ T = ∅) : transfer S T x = x := by
  apply if_neg
  rintro ⟨hx, hT⟩
  obtain h | h := h
  · exact h hx
  · exact hT.ne_empty h

/-- Ranks are kept. -/
theorem transfer_select (hm : m < S.card) (hT : T.Nonempty) : transfer S T (select S m) = select T (m % T.card) := by
  rw [transfer_of_mem (select_mem hm) hT, rank_select hm]

/-- Between sets of the same size, the way back undoes the way there. -/
theorem transfer_transfer (hcard : S.card = T.card) (hx : x ∈ S) : transfer T S (transfer S T x) = x := by
  have hlt := rank_lt_card hx
  have hS : S.Nonempty := ⟨x, hx⟩
  have hT : T.Nonempty := by
    rw [← Finset.card_pos, ← hcard]
    exact Finset.card_pos.mpr hS
  rw [transfer_of_mem hx hT, ← hcard, Nat.mod_eq_of_lt hlt, transfer_select (hcard ▸ hlt) hS, Nat.mod_eq_of_lt hlt,
    select_rank hx]

end Libls.Ranks
