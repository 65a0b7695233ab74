import Mathlib.Data.Nat.Digits.Lemmas

/-! # Numerals

The digits of a number in a base, the most significant one first, with zeros in front up to a width; and
the value of such a list of digits, read from left to right. -/

namespace Libls.Numerals

variable {b v w n d : ℕ} {ds es : List ℕ}

/-- The numeral of `n` with at least `w` digits; 0 is written as one digit. -/
def numeral (b w n : ℕ) : List ℕ :=
  let digits := if n = 0 then [0] else (Nat.digits b n).reverse
  List.replicate (w - digits.length) 0 ++ digits

/-- The value of `ds` behind digits with the value `v`. -/
def value (b v : ℕ) (ds : List ℕ) : ℕ := ds.foldl (fun v d => v * b + d) v

theorem value_cons : value b v (d :: ds) = value b (v * b + d) ds := rfl

theorem value_append : value b v (ds ++ es) = value b (value b v ds) es := List.foldl_append

theorem value_zeros (n : ℕ) : value b 0 (List.replicate n 0) = 0 := by
  induction n with
  | zero => rfl
  | succ n ih =>
      rw [List.replicate_succ, value_cons, Nat.zero_mul]
      exact ih

theorem value_reverse (ds : List ℕ) : value b 0 ds.reverse = Nat.ofDigits b ds := by
  induction ds with
  | nil => rfl
  | cons d ds ih =>
      rw [List.reverse_cons, value_append, ih, Nat.ofDigits_cons, value_cons, Nat.mul_comm, Nat.add_comm]
      rfl

/-- A numeral is read back. -/
theorem value_numeral (b w n : ℕ) : value b 0 (numeral b w n) = n := by
  unfold numeral
  rw [value_append, value_zeros]
  by_cases hn : n = 0
  · rw [if_pos hn, hn, value_cons, Nat.zero_mul]
    rfl
  · rw [if_neg hn, value_reverse, Nat.ofDigits_digits]

theorem le_value (hb : 0 < b) : v ≤ value b v ds := by
  induction ds generalizing v with
  | nil => exact Nat.le_refl v
  | cons d ds ih =>
      have hstep : v ≤ v * b + d := Nat.le_trans (Nat.le_mul_of_pos_right v hb) (Nat.le_add_right _ _)
      exact Nat.le_trans hstep ih

theorem lt_of_mem_numeral (hb : 1 < b) (hd : d ∈ numeral b w n) : d < b := by
  unfold numeral at hd
  rcases List.mem_append.mp hd with hd | hd
  · rw [List.eq_of_mem_replicate hd]
    omega
  · by_cases hn : n = 0
    · rw [if_pos hn, List.mem_singleton] at hd
      omega
    · rw [if_neg hn, List.mem_reverse] at hd
      exact Nat.digits_lt_base hb hd

theorem numeral_ne_nil : numeral b w n ≠ [] := by
  intro h
  rw [numeral, List.append_eq_nil_iff] at h
  by_cases hn : n = 0
  · rw [if_pos hn] at h
    cases h.2
  · rw [if_neg hn, List.reverse_eq_nil_iff] at h
    exact Nat.digits_ne_nil_iff_ne_zero.mpr hn h.2

theorem length_digits_le (hb : 1 < b) (hw : 0 < w) (hn : n < b ^ w) :
    (if n = 0 then [0] else (Nat.digits b n).reverse).length ≤ w := by
  by_cases h0 : n = 0
  · rw [if_pos h0]
    exact hw
  · rw [if_neg h0, List.length_reverse]
    exact (Nat.digits_length_le_iff hb n).mpr hn

/-- A number that is small enough has exactly `w` digits. -/
theorem length_numeral (hb : 1 < b) (hw : 0 < w) (hn : n < b ^ w) : (numeral b w n).length = w := by
  rw [numeral, List.length_append, List.length_replicate, Nat.sub_add_cancel (length_digits_le hb hw hn)]

/-- Without leading zeros it has at most as many. -/
theorem length_numeral_one_le (hb : 1 < b) (hw : 0 < w) (hn : n < b ^ w) : (numeral b 1 n).length ≤ w := by
  have hle := length_digits_le hb hw hn
  rw [numeral, List.length_append, List.length_replicate]
  omega

/-- Digits are the numeral of their value, with as many digits. -/
theorem numeral_value (hb : 1 < b) (hds : ∀ d ∈ ds, d < b) (hne : ds ≠ []) :
    numeral b ds.length (value b 0 ds) = ds := by
  have hvalue (es : List ℕ) : value b 0 es = Nat.ofDigits b es.reverse := by
    rw [← value_reverse, List.reverse_reverse]
  have hlt : value b 0 ds < b ^ ds.length := by
    rw [hvalue, ← List.length_reverse]
    exact Nat.ofDigits_lt_base_pow_length hb fun d hd => hds d (List.mem_reverse.mp hd)
  have hlen : (numeral b ds.length (value b 0 ds)).length = ds.length :=
    length_numeral hb (List.length_pos_iff.mpr hne) hlt
  have hsame := value_numeral b ds.length (value b 0 ds)
  rw [hvalue, hvalue ds] at hsame
  apply List.reverse_injective
  apply Nat.ofDigits_inj_of_len_eq hb
  · rw [List.length_reverse, List.length_reverse, hlen]
  · exact fun d hd => lt_of_mem_numeral hb (List.mem_reverse.mp hd)
  · exact fun d hd => hds d (List.mem_reverse.mp hd)
  · rw [hvalue ds]
    exact hsame

end Libls.Numerals
