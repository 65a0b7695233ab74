import Mathlib.Tactic
import Libls.Base64RoundTrip

/-! # The block that `base64_encode` allocates

The size `(len + 2) / 3 * 4 + 1` is a 32-bit number.  From `len = 3 * 2 ^ 30 - 2` on it is not the
length of the text and its terminator, and the passes leave the block: the loop has a first group
behind its end (`encode_outside`).  A write outside the block has no result. -/

namespace Libls.Base64

/-- The size given to `malloc` in `base64_encode`. -/
def encodedSize (len : ℕ) : ℕ := u32 (u32 (len + 2) / 3 * 4 + 1)

/-- `base64_encode` returns, so that no write is outside the block, with the length of the text in
`*res_len`. -/
def EncodesInside (data : Block Byte) (len : ℕ) : Prop :=
  ∃ encoded, Prog.Returns (base64Encode true data len) (some (encoded, 4 * ((len + 2) / 3))) ∧
    encoded.size = encodedSize len

/-- Where the length of the text does not fit, the block ends before the last group. -/
theorem encodedSize_wrapped {len : ℕ} (hlen : 3 * 2 ^ 30 - 3 < len) (h : len < 2 ^ 32) :
    encodedSize len / 4 < len / 3 ∧ encodedSize len / 4 * 4 + 4 < 2 ^ 32 := by
  have hle : encodedSize len ≤ 4 * 357913941 + 1 := by
    rcases Nat.lt_or_ge (len + 2) (2 ^ 32) with hlt | hge
    · have hq : 2 ^ 30 ≤ (len + 2) / 3 := by omega
      have hq' : (len + 2) / 3 ≤ 1431655765 := by omega
      unfold encodedSize
      rw [u32_of_lt hlt]
      unfold u32
      omega
    · have hq : u32 (len + 2) / 3 = 0 := by
        unfold u32
        omega
      unfold encodedSize
      rw [hq]
      decide
  omega

section outside
variable {data encoded : Block Byte} {x : List Byte} {i n : ℕ}

/-- A pass writes the text of a group, if the block has room for it. -/
theorem encodePass_eq (encoded : Block Byte) (h : data.Has 0 x) (hi : i < x.length / 3) (hfit : i * 4 + 4 < 2 ^ 32) :
    ∃ text, text.length = 4 ∧ encodePass data (x.length / 3) (i, encoded) =
      (encoded.writeList (i * 4) text).map fun b => .next (i + 1, b) := by
  obtain ⟨a, b, c, l, hdrop, -⟩ := exists_group hi
  have hgroup := has_group h hi.le
  rw [hdrop] at hgroup
  refine ⟨(groupCodes a b c).map alphabet, rfl, ?_⟩
  unfold encodePass
  rw [if_pos hi, encodeRound_eq hfit hgroup, u32_of_lt (by omega)]
  cases encoded.writeList (i * 4) ((groupCodes a b c).map alphabet) with
  | none => rfl
  | some b => rfl

/-- The loop has no result when it gets to a group that the block has no room for. -/
theorem encode_outside (h : data.Has 0 x) (hn : n < x.length / 3) (hfit : n * 4 + 4 < 2 ^ 32)
    (hsize : encoded.size < n * 4 + 4) (hi : i ≤ n) {r : ℕ × Block Byte} :
    ¬ Prog.Returns (Prog.iterate (fun p => liftM (encodePass data (x.length / 3) p)) (i, encoded)) r := by
  intro hret
  obtain ⟨k, hk⟩ := Nat.exists_eq_add_of_le hi
  induction k generalizing i encoded with
  | zero =>
      obtain ⟨text, hfour, hpass⟩ :=
        encodePass_eq encoded h (by omega : i < x.length / 3) (by omega)
      have hne : text ≠ [] := by
        rintro rfl
        cases hfour
      rw [Block.writeList_none (by omega) hne] at hpass
      rcases Prog.returns_iterate.mp hret with hdone | ⟨s, hnext, -⟩
      · rw [Prog.returns_lift, hpass] at hdone
        cases hdone
      · rw [Prog.returns_lift, hpass] at hnext
        cases hnext
  | succ k ih =>
      obtain ⟨text, hfour, hpass⟩ :=
        encodePass_eq encoded h (by omega : i < x.length / 3) (by omega)
      rcases Prog.returns_iterate.mp hret with hdone | ⟨s, hnext, hrest⟩
      · rw [Prog.returns_lift, hpass, Option.map_eq_some_iff] at hdone
        obtain ⟨b, -, hb⟩ := hdone
        cases hb
      · rw [Prog.returns_lift, hpass, Option.map_eq_some_iff] at hnext
        obtain ⟨b, hw, hb⟩ := hnext
        cases hb
        refine ih ?_ (by omega) hrest (by omega)
        rwa [Block.writeList_size hw]

/-- The length of a text that does not fit. -/
theorem EncodesInside.length_le (h : data.Has 0 x) (hx : x.length < 2 ^ 32)
    (hin : EncodesInside data x.length) : x.length ≤ 3 * 2 ^ 30 - 3 := by
  obtain ⟨encoded, hret, -⟩ := hin
  refine Nat.le_of_not_lt fun hlen => ?_
  obtain ⟨hn, hfit⟩ := encodedSize_wrapped hlen hx
  unfold base64Encode at hret
  rw [if_pos rfl] at hret
  obtain ⟨r, hloop, -⟩ := Prog.returns_bind.mp hret
  refine encode_outside h hn hfit ?_ (Nat.zero_le _) hloop
  rw [Block.size_realloc]
  show encodedSize x.length < _
  omega

end outside

/-- **When `base64_encode` stays in its block.**  It does, and gives the length `4 * ceil (len / 3)`, if
and only if that length and one more fit in 32 bits. -/
theorem base64Encode_inside_iff {data : Block Byte} {x : List Byte} (hx : x.length < 2 ^ 32)
    (h : data.Has 0 x) : EncodesInside data x.length ↔ x.length ≤ 3 * 2 ^ 30 - 3 := by
  constructor
  · exact EncodesInside.length_le h hx
  · intro hlen
    obtain ⟨encoded, hret, -, hsize⟩ := base64Encode_returns hlen h
    rw [base64Text_length] at hret hsize
    refine ⟨encoded, hret, hsize.trans ?_⟩
    unfold encodedSize
    rw [u32_of_lt (by omega : x.length + 2 < 2 ^ 32), u32_of_lt (by omega), Nat.mul_comm]

/-- One byte. -/
theorem base64Encode_inside_one : EncodesInside ⟨[some 77]⟩ 1 ↔ 1 ≤ 3 * 2 ^ 30 - 3 := by
  have h : (⟨[some 77]⟩ : Block Byte).Has 0 [77] := by simp [Block.has_cons, Block.has_nil, Block.read]
  exact base64Encode_inside_iff (by decide) h

/-- `n` bytes of zeros. -/
def zeros (n : ℕ) : Block Byte := ⟨List.replicate n (some 0)⟩

theorem zeros_has (n : ℕ) : (zeros n).Has 0 (List.replicate n 0) := by
  intro k hk
  rw [List.length_replicate] at hk
  rw [zeros, Block.read, Nat.zero_add, List.getElem?_replicate, List.getElem?_replicate, if_pos hk,
    if_pos hk]
  rfl

theorem zeros_inside {n : ℕ} (hn : n < 2 ^ 32) (h : EncodesInside (zeros n) n) : n ≤ 3 * 2 ^ 30 - 3 := by
  have hlen : (List.replicate n (0 : Byte)).length = n := List.length_replicate
  have := EncodesInside.length_le (zeros_has n) (by rwa [hlen]) (by rwa [hlen])
  rwa [hlen] at this

/-- A block of one cell has no room for the first group. -/
theorem encodeRound_zeros {n : ℕ} (hn : 3 ≤ n) :
    encodeRound (zeros n) 0 (Block.null.realloc 1) = none := by
  obtain ⟨k, rfl⟩ := Nat.exists_eq_add_of_le' hn
  have h : (zeros (k + 3)).Has (0 * 3) (0 :: 0 :: 0 :: List.replicate k 0) := zeros_has (k + 3)
  have hsize : (Block.null.realloc 1 : Block Byte).size < 0 * 4 + ((groupCodes 0 0 0).map alphabet).length := by
    decide
  rw [encodeRound_eq (by decide) h, Block.writeList_none hsize]
  decide

/-- For `3 * 2 ^ 30 - 2` bytes the block has one cell, and the first pass leaves it. -/
theorem base64Encode_outside : encodedSize (3 * 2 ^ 30 - 2) = 1 ∧
    encodeRound (zeros (3 * 2 ^ 30 - 2)) 0 (Block.null.realloc 1) = none ∧
    ¬ EncodesInside (zeros (3 * 2 ^ 30 - 2)) (3 * 2 ^ 30 - 2) := by
  refine ⟨by decide, encodeRound_zeros (by omega), fun hin => ?_⟩
  have hle := zeros_inside (by omega) hin
  omega

end Libls.Base64
