import Mathlib.Tactic

/-! # Adding the fields of a word

A word is made of fields of `m` bits, the lowest one first.  A mask selects every second field, which leaves
room for the sum of two neighbours (`pack_low`, `pack_high`, `pack_both`); a product adds all of them
(`pack_product`).  This is how the bits of a word are counted without a loop. -/

namespace Libls.Fields

/-- The word with the fields `f 0`, ..., `f (n - 1)`. -/
def pack (m : ℕ) (f : ℕ → ℕ) : ℕ → ℕ
  | 0 => 0
  | n + 1 => f 0 + 2 ^ m * pack m (fun k => f (k + 1)) n

/-- The lower `m` bits of `n` fields of `2 * m` bits. -/
def lowFields (m n : ℕ) : ℕ := pack (2 * m) (fun _ => 2 ^ m - 1) n

variable {m n a b c x y B : ℕ} {f g : ℕ → ℕ}

/-! ### Fields -/

theorem pack_lt (h : ∀ k < n, f k < 2 ^ m) : pack m f n < 2 ^ (m * n) := by
  induction n generalizing f with
  | zero => exact Nat.two_pow_pos _
  | succ n ih =>
      have h0 := h 0 (Nat.succ_pos n)
      have hrest := @ih (fun k => f (k + 1)) fun k hk => h (k + 1) (Nat.succ_lt_succ hk)
      rw [pack, Nat.mul_succ, Nat.add_comm, Nat.add_comm (m * n), Nat.pow_add]
      calc 2 ^ m * pack m (fun k => f (k + 1)) n + f 0
          < 2 ^ m * pack m (fun k => f (k + 1)) n + 2 ^ m := Nat.add_lt_add_left h0 _
        _ = 2 ^ m * (pack m (fun k => f (k + 1)) n + 1) := by ring
        _ ≤ 2 ^ m * 2 ^ (m * n) := Nat.mul_le_mul_left _ hrest

theorem pack_add : pack m f n + pack m g n = pack m (fun k => f k + g k) n := by
  induction n generalizing f g with
  | zero => rfl
  | succ n ih =>
      rw [pack, pack, pack, ← ih]
      ring

/-- The highest field. -/
theorem pack_succ : pack m f (n + 1) = pack m f n + 2 ^ (m * n) * f n := by
  induction n generalizing f with
  | zero => simp [pack]
  | succ n ih =>
      rw [pack, ih, pack, Nat.mul_succ, Nat.pow_add]
      ring

theorem pack_pairs : pack m f (2 * n) = pack (2 * m) (fun k => f (2 * k) + 2 ^ m * f (2 * k + 1)) n := by
  induction n generalizing f with
  | zero => rfl
  | succ n ih =>
      have hpow : 2 ^ (2 * m) = 2 ^ m * 2 ^ m := by rw [Nat.two_mul, Nat.pow_add]
      rw [Nat.mul_succ, pack, pack, pack, ih, hpow]
      ring_nf

/-- The bits of a number are fields of one bit. -/
theorem pack_testBit (x : ℕ) : pack 1 (fun k => (x.testBit k).toNat) n = x % 2 ^ n := by
  induction n generalizing x with
  | zero => rw [pack, Nat.pow_zero, Nat.mod_one]
  | succ n ih =>
      have hrest := ih (x / 2)
      simp only [← Nat.testBit_succ] at hrest
      rw [pack, hrest, Nat.toNat_testBit, Nat.pow_zero, Nat.div_one, Nat.pow_one, Nat.pow_succ', Nat.mod_mul]

/-! ### Neighbours -/

theorem and_cons (ha : a < 2 ^ m) (hb : b < 2 ^ m) : (a + 2 ^ m * x) &&& (b + 2 ^ m * y) = (a &&& b) + 2 ^ m * (x &&& y) := by
  have hab : a &&& b < 2 ^ m := Nat.and_lt_two_pow a hb
  have hlow : ((a + 2 ^ m * x) &&& (b + 2 ^ m * y)) % 2 ^ m = a &&& b := by
    rw [Nat.and_mod_two_pow, Nat.add_mul_mod_self_left, Nat.add_mul_mod_self_left, Nat.mod_eq_of_lt ha, Nat.mod_eq_of_lt hb]
  have hhigh : ((a + 2 ^ m * x) &&& (b + 2 ^ m * y)) / 2 ^ m = x &&& y := by
    rw [Nat.and_div_two_pow, Nat.add_mul_div_left _ _ (Nat.two_pow_pos m), Nat.add_mul_div_left _ _ (Nat.two_pow_pos m),
      Nat.div_eq_of_lt ha, Nat.div_eq_of_lt hb, Nat.zero_add, Nat.zero_add]
  rw [← Nat.mod_add_div ((a + 2 ^ m * x) &&& (b + 2 ^ m * y)) (2 ^ m), hlow, hhigh]

/-- The lowest field is selected, and the next one is not. -/
theorem and_lowFields (ha : a < 2 ^ m) :
    (a + 2 ^ m * x) &&& lowFields m (n + 1) = a + 2 ^ (2 * m) * (x / 2 ^ m &&& lowFields m n) := by
  have hpow : 2 ^ (2 * m) = 2 ^ m * 2 ^ m := by rw [Nat.two_mul, Nat.pow_add]
  have hx := Nat.mod_add_div x (2 ^ m)
  have hlt := Nat.mod_lt x (Nat.two_pow_pos m)
  have hpair : a + 2 ^ m * (x % 2 ^ m) < 2 ^ (2 * m) := by
    rw [hpow]
    nlinarith
  have hmask : 2 ^ m - 1 < 2 ^ (2 * m) := by
    have hle : 2 ^ m ≤ 2 ^ (2 * m) := Nat.pow_le_pow_right (by decide) (Nat.le_mul_of_pos_left m (by decide))
    have := Nat.two_pow_pos m
    omega
  have hlow : (a + 2 ^ m * (x % 2 ^ m)) &&& (2 ^ m - 1) = a := by
    rw [Nat.and_two_pow_sub_one_eq_mod, Nat.add_mul_mod_self_left, Nat.mod_eq_of_lt ha]
  calc (a + 2 ^ m * x) &&& lowFields m (n + 1)
      = (a + 2 ^ m * (x % 2 ^ m) + 2 ^ (2 * m) * (x / 2 ^ m)) &&& lowFields m (n + 1) := by
        congr 1
        calc a + 2 ^ m * x = a + 2 ^ m * (x % 2 ^ m + 2 ^ m * (x / 2 ^ m)) := by rw [hx]
          _ = a + 2 ^ m * (x % 2 ^ m) + 2 ^ (2 * m) * (x / 2 ^ m) := by
            rw [hpow]
            ring
    _ = a + 2 ^ (2 * m) * (x / 2 ^ m &&& lowFields m n) := by
        rw [lowFields, pack, and_cons hpair hmask, hlow]
        rfl

theorem pack_two : pack m f (2 * (n + 1)) = f 0 + 2 ^ m * (f 1 + 2 ^ m * pack m (fun k => f (k + 2)) (2 * n)) := rfl

theorem div_cons (ha : a < 2 ^ m) : (a + 2 ^ m * x) / 2 ^ m = x := by
  rw [Nat.add_mul_div_left _ _ (Nat.two_pow_pos m), Nat.div_eq_of_lt ha, Nat.zero_add]

theorem pack_low (h : ∀ k, f k < 2 ^ m) : pack m f (2 * n) &&& lowFields m n = pack (2 * m) (fun k => f (2 * k)) n := by
  induction n generalizing f with
  | zero => exact Nat.and_zero _
  | succ n ih =>
      rw [pack_two, and_lowFields (h 0), div_cons (h 1), pack]
      exact congrArg (f 0 + 2 ^ (2 * m) * ·) (@ih (fun k => f (k + 2)) fun k => h (k + 2))

theorem pack_high (h : ∀ k, f k < 2 ^ m) :
    pack m f (2 * n) / 2 ^ m &&& lowFields m n = pack (2 * m) (fun k => f (2 * k + 1)) n := by
  induction n generalizing f with
  | zero => exact Nat.and_zero _
  | succ n ih =>
      rw [pack_two, div_cons (h 0), and_lowFields (h 1), pack]
      exact congrArg (f 1 + 2 ^ (2 * m) * ·) (@ih (fun k => f (k + 2)) fun k => h (k + 2))

/-- Both neighbours, if there is room for their sum. -/
theorem pack_both (h : ∀ k, f k ≤ B) (hB : 2 * B < 2 ^ m) :
    (pack m f (2 * n) + pack m f (2 * n) / 2 ^ m) &&& lowFields m n =
      pack (2 * m) (fun k => f (2 * k) + f (2 * k + 1)) n := by
  induction n generalizing f with
  | zero => exact Nat.and_zero _
  | succ n ih =>
      have h0 := h 0
      have h1 := h 1
      obtain ⟨rest, hrest⟩ : ∃ rest, pack m (fun k => f (k + 2)) (2 * n) = rest := ⟨_, rfl⟩
      have hmod : rest % 2 ^ m ≤ B := by
        subst hrest
        cases n with
        | zero => exact Nat.zero_le B
        | succ n =>
            have h2 := h 2
            rw [pack_two, Nat.add_mul_mod_self_left]
            exact (Nat.mod_le _ _).trans h2
      have hsum : (f 1 + rest + 2 ^ m * rest) / 2 ^ m = rest + rest / 2 ^ m := by
        have hcarry : f 1 + rest % 2 ^ m < 2 ^ m := by omega
        have hsplit : f 1 + rest + 2 ^ m * rest = f 1 + rest % 2 ^ m + 2 ^ m * (rest + rest / 2 ^ m) := by
          have := Nat.mod_add_div rest (2 ^ m)
          rw [Nat.mul_add]
          omega
        rw [hsplit, div_cons hcarry]
      have hboth : f 0 + 2 ^ m * (f 1 + 2 ^ m * rest) + (f 1 + 2 ^ m * rest) =
          f 0 + f 1 + 2 ^ m * (f 1 + rest + 2 ^ m * rest) := by ring
      have hih := @ih (fun k => f (k + 2)) fun k => h (k + 2)
      rw [hrest] at hih
      rw [pack_two, hrest, div_cons (by omega), hboth, and_lowFields (by omega), hsum, hih, pack]
      rfl

/-! ### All fields -/

theorem pack_one : 1 + 2 ^ m * pack m (fun _ => 1) n = pack m (fun _ => 1) n + 2 ^ (m * n) := by
  have h := @pack_succ m n fun _ => 1
  rw [pack, Nat.mul_one] at h
  exact h

/-- The fields of the product are the sums of the fields up to there. -/
theorem pack_mul_mod (c : ℕ) : (c + pack m f n) * pack m (fun _ => 1) n ≡
    pack m (fun k => c + ∑ j ∈ Finset.range (k + 1), f j) n [MOD 2 ^ (m * n)] := by
  induction n generalizing f c with
  | zero => rfl
  | succ n ih =>
      obtain ⟨rest, hrest⟩ : ∃ rest, pack m (fun k => f (k + 1)) n = rest := ⟨_, rfl⟩
      have hih := @ih (fun k => f (k + 1)) (c + f 0)
      have hsum : (fun k => c + f 0 + ∑ j ∈ Finset.range (k + 1), f (j + 1)) =
          fun k => c + ∑ j ∈ Finset.range (k + 1 + 1), f j := by
        funext k
        rw [Finset.sum_range_succ' f (k + 1)]
        omega
      rw [hrest, hsum] at hih
      have hprod : (c + pack m f (n + 1)) * pack m (fun _ => 1) (n + 1) =
          c + f 0 + 2 ^ m * ((c + f 0 + rest) * pack m (fun _ => 1) n) + 2 ^ (m * (n + 1)) * rest := by
        rw [pack, hrest, pack]
        calc (c + (f 0 + 2 ^ m * rest)) * (1 + 2 ^ m * pack m (fun _ => 1) n)
            = c + f 0 + 2 ^ m * ((c + f 0) * pack m (fun _ => 1) n +
                rest * (1 + 2 ^ m * pack m (fun _ => 1) n)) := by ring
          _ = c + f 0 + 2 ^ m * ((c + f 0) * pack m (fun _ => 1) n +
                rest * (pack m (fun _ => 1) n + 2 ^ (m * n))) := by rw [pack_one]
          _ = c + f 0 + 2 ^ m * ((c + f 0 + rest) * pack m (fun _ => 1) n) + 2 ^ (m * (n + 1)) * rest := by
            rw [Nat.mul_succ, Nat.pow_add]
            ring
      have hmul := hih.mul_left' (2 ^ m)
      rw [← Nat.pow_add, Nat.add_comm m, ← Nat.mul_succ] at hmul
      have hdrop : 2 ^ (m * (n + 1)) * rest ≡ 0 [MOD 2 ^ (m * (n + 1))] := Nat.modEq_zero_iff_dvd.mpr (Nat.dvd_mul_right _ _)
      rw [hprod, pack, Finset.sum_range_one]
      exact (hmul.add_left (c + f 0)).add hdrop

/-- **The product adds all fields**, and the shift brings their sum down. -/
theorem pack_product (h : ∑ j ∈ Finset.range (n + 1), f j < 2 ^ m) :
    pack m f (n + 1) * pack m (fun _ => 1) (n + 1) % 2 ^ (m * (n + 1)) / 2 ^ (m * n) = ∑ j ∈ Finset.range (n + 1), f j := by
  have hle : ∀ k < n + 1, 0 + ∑ j ∈ Finset.range (k + 1), f j < 2 ^ m := by
    intro k hk
    rw [Nat.zero_add]
    exact (Finset.sum_le_sum_of_subset (Finset.range_subset_range.mpr hk)).trans_lt h
  have hmod := @pack_mul_mod m (n + 1) f 0
  rw [Nat.zero_add] at hmod
  rw [hmod, Nat.mod_eq_of_lt (pack_lt hle), pack_succ, Nat.add_mul_div_left _ _ (Nat.two_pow_pos _),
    Nat.div_eq_of_lt (pack_lt fun k hk => hle k (Nat.lt_succ_of_lt hk)), Nat.zero_add, Nat.zero_add]

theorem sum_pairs : ∑ k ∈ Finset.range n, (f (2 * k) + f (2 * k + 1)) = ∑ k ∈ Finset.range (2 * n), f k := by
  induction n with
  | zero => rfl
  | succ n ih =>
      rw [Finset.sum_range_succ, ih, Nat.mul_succ, Finset.sum_range_succ, Finset.sum_range_succ, Nat.add_assoc]

end Libls.Fields
