import Mathlib.Tactic
import Libls.Base64

/-! # The base 64 round trip

`base64Text` is the text of a sequence of bytes, group by group.  `base64_encode` writes it, whatever
the length modulo 3, and `base64_decode` takes it back to the bytes. -/

namespace Libls.Base64

/-! ### The alphabet -/

/-- The character for a code. -/
def alphabet (n : ℕ) : Byte := base64EncodeTable.getD n 0

/-- The characters by their numbers. -/
theorem encodeTable_eq : base64EncodeTable =
    (List.range' 65 26 ++ List.range' 97 26 ++ List.range' 48 10 ++ [43, 47]).map UInt8.ofNat := by
  rfl

theorem encodeTable_length : base64EncodeTable.length = 64 := by
  rw [encodeTable_eq]
  rfl

theorem encodeTable_get {n : ℕ} (h : n < 64) : base64EncodeTable[n]? = some (alphabet n) := by
  unfold alphabet
  rw [List.getD_eq_getElem?_getD, List.getElem?_eq_getElem (by rwa [encodeTable_length]), Option.getD_some]

theorem table_codes : base64EncodeTable.map (fun c => base64DecodeTable[c.toNat]?) =
    (List.range 64).map fun (n : ℕ) => some (n : ℤ) := by
  rw [encodeTable_eq]
  rfl

theorem decodeTable_alphabet : ∀ n < 64, base64DecodeTable[(alphabet n).toNat]? = some (n : ℤ) := by
  intro n hn
  have hcode := congrArg (·[n]?) table_codes
  simp only [List.getElem?_map, encodeTable_get hn, Option.map_some, List.getElem?_range hn] at hcode
  exact Option.some.inj hcode

theorem decodeTable_pad : base64DecodeTable[pad.toNat]? = some (-1) := by decide

theorem alphabet_mem {n : ℕ} (h : n < 64) : alphabet n ∈ base64EncodeTable :=
  List.mem_of_getElem? (encodeTable_get h)

theorem zero_notMem_table : (0 : Byte) ∉ base64EncodeTable := by
  rw [encodeTable_eq]
  decide

/-! ### Bits

The codes of a group of three bytes, in the operations of the source and as numbers. -/

/-- The four codes of a group. -/
def groupCodes (a b c : Byte) : List ℕ :=
  [a.toNat / 4, a.toNat % 4 * 16 + b.toNat / 16, b.toNat % 16 * 4 + c.toNat / 64, c.toNat % 64]

theorem shift_or {n m k : ℕ} (h : m < 2 ^ k) : n <<< k ||| m = n * 2 ^ k + m := by
  rw [← Nat.shiftLeft_add_eq_or_of_lt h, Nat.shiftLeft_eq]

theorem code_first (a : Byte) : a.toNat >>> 2 = a.toNat / 4 := Nat.shiftRight_eq_div_pow _ 2

theorem code_second (a b : Byte) :
    (a.toNat &&& 0x03) <<< 4 ||| b.toNat >>> 4 = a.toNat % 4 * 16 + b.toNat / 16 := by
  have hb := b.toNat_lt
  have hshift : b.toNat >>> 4 = b.toNat / 16 := Nat.shiftRight_eq_div_pow _ 4
  have hmask : a.toNat &&& 0x03 = a.toNat % 4 := Nat.and_two_pow_sub_one_eq_mod _ 2
  rw [hshift, hmask]
  exact shift_or (by omega)

theorem code_third (b c : Byte) :
    (b.toNat &&& 0x0f) <<< 2 ||| c.toNat >>> 6 = b.toNat % 16 * 4 + c.toNat / 64 := by
  have hc := c.toNat_lt
  have hshift : c.toNat >>> 6 = c.toNat / 64 := Nat.shiftRight_eq_div_pow _ 6
  have hmask : b.toNat &&& 0x0f = b.toNat % 16 := Nat.and_two_pow_sub_one_eq_mod _ 4
  rw [hshift, hmask]
  exact shift_or (by omega)

theorem code_fourth (c : Byte) : c.toNat &&& 0x3f = c.toNat % 64 := Nat.and_two_pow_sub_one_eq_mod _ 6

/-- What two overlapping writes leave in a byte: the bits of `n` above those of `m`. -/
theorem ofNat_shift_or {n m k : ℕ} (h : m < 2 ^ k) :
    UInt8.ofNat (n <<< k) ||| UInt8.ofNat m = UInt8.ofNat (n * 2 ^ k + m) := by
  rw [← UInt8.ofNat_or, shift_or h]

theorem ofNat_eq {n : ℕ} {a : Byte} (h : n % 256 = a.toNat) : UInt8.ofNat n = a := by
  rw [← UInt8.toNat_inj, UInt8.toNat_ofNat']
  exact h

/-- The first byte of a group is assembled from two codes. -/
theorem decode_first (a b : Byte) :
    UInt8.ofNat ((a.toNat / 4) <<< 2) ||| UInt8.ofNat ((a.toNat % 4 * 16 + b.toNat / 16) >>> 4) = a := by
  have ha := a.toNat_lt
  have hb := b.toNat_lt
  rw [Nat.shiftRight_eq_div_pow, ofNat_shift_or (by omega)]
  exact ofNat_eq (by omega)

theorem decode_second (a b c : Byte) :
    UInt8.ofNat ((a.toNat % 4 * 16 + b.toNat / 16) <<< 4) |||
      UInt8.ofNat ((b.toNat % 16 * 4 + c.toNat / 64) >>> 2) = b := by
  have hb := b.toNat_lt
  have hc := c.toNat_lt
  rw [Nat.shiftRight_eq_div_pow, ofNat_shift_or (by omega)]
  exact ofNat_eq (by omega)

theorem decode_third (b c : Byte) :
    UInt8.ofNat ((b.toNat % 16 * 4 + c.toNat / 64) <<< 6) ||| UInt8.ofNat (c.toNat % 64) = c := by
  have hc := c.toNat_lt
  rw [ofNat_shift_or (by omega)]
  exact ofNat_eq (by omega)

/-! ### The text -/

/-- The text of a sequence of bytes. -/
def base64Text : List Byte → List Byte
  | a :: b :: c :: x => (groupCodes a b c).map alphabet ++ base64Text x
  | [a, b] => ((groupCodes a b 0).take 3).map alphabet ++ [pad]
  | [a] => ((groupCodes a 0 0).take 2).map alphabet ++ [pad, pad]
  | [] => []

theorem base64Text_append {x y : List Byte} (h : 3 ∣ x.length) :
    base64Text (x ++ y) = base64Text x ++ base64Text y := by
  induction x using base64Text.induct with
  | case1 a b c x ih =>
      have hx : 3 ∣ x.length := by
        simp only [List.length_cons] at h
        omega
      simp only [List.cons_append, base64Text]
      rw [ih hx, List.append_assoc]
  | case2 a b => exact absurd h (by norm_num : ¬ 3 ∣ 2)
  | case3 a => exact absurd h (by norm_num : ¬ 3 ∣ 1)
  | case4 => rfl

theorem base64Text_length (x : List Byte) : (base64Text x).length = 4 * ((x.length + 2) / 3) := by
  induction x using base64Text.induct with
  | case1 a b c x ih =>
      simp only [base64Text, List.length_append, List.length_map, groupCodes, List.length_cons,
        List.length_nil, ih]
      omega
  | case2 a b => simp [base64Text, groupCodes]
  | case3 a => simp [base64Text, groupCodes]
  | case4 => rfl

theorem groupCodes_lt {a b c : Byte} : ∀ n ∈ groupCodes a b c, n < 64 := by
  have ha := a.toNat_lt
  have hb := b.toNat_lt
  have hc := c.toNat_lt
  simp only [groupCodes, List.forall_mem_cons, List.not_mem_nil, false_imp_iff, implies_true, and_true]
  omega

theorem mem_map_alphabet {l : List ℕ} (h : ∀ n ∈ l, n < 64) {c : Byte} (hc : c ∈ l.map alphabet) :
    c ∈ base64EncodeTable := by
  obtain ⟨n, hn, rfl⟩ := List.mem_map.mp hc
  exact alphabet_mem (h n hn)

/-- The text is over the alphabet and the character for padding. -/
theorem base64Text_mem {x : List Byte} {c : Byte} (h : c ∈ base64Text x) :
    c ∈ base64EncodeTable ∨ c = pad := by
  induction x using base64Text.induct with
  | case1 a b d x ih =>
      rcases List.mem_append.mp h with hc | hc
      · exact .inl (mem_map_alphabet groupCodes_lt hc)
      · exact ih hc
  | case2 a b =>
      rcases List.mem_append.mp h with hc | hc
      · exact .inl (mem_map_alphabet (fun n hn => groupCodes_lt n (List.mem_of_mem_take hn)) hc)
      · exact .inr (List.mem_singleton.mp hc)
  | case3 a =>
      rcases List.mem_append.mp h with hc | hc
      · exact .inl (mem_map_alphabet (fun n hn => groupCodes_lt n (List.mem_of_mem_take hn)) hc)
      · simp only [List.mem_cons, List.not_mem_nil, or_false, or_self] at hc
        exact .inr hc
  | case4 => cases h

/-! ### `base64_encode` -/

/-- Reading three cells. -/
theorem has_three {b : Block Byte} {i : ℕ} {x y z : Byte} {l : List Byte} (h : b.Has i (x :: y :: z :: l)) :
    b.read i = some x ∧ b.read (i + 1) = some y ∧ b.read (i + 2) = some z := by
  obtain ⟨h₀, h⟩ := Block.has_cons.mp h
  obtain ⟨h₁, h⟩ := Block.has_cons.mp h
  exact ⟨h₀, h₁, (Block.has_cons.mp h).1⟩

section table
variable (a b c : Byte)

theorem table_first : base64EncodeTable[a.toNat >>> 2]? = some (alphabet (a.toNat / 4)) := by
  have ha := a.toNat_lt
  rw [code_first, encodeTable_get (by omega)]

theorem table_second : base64EncodeTable[(a.toNat &&& 0x03) <<< 4 ||| b.toNat >>> 4]? =
    some (alphabet (a.toNat % 4 * 16 + b.toNat / 16)) := by
  have hb := b.toNat_lt
  rw [code_second, encodeTable_get (by omega)]

theorem table_third : base64EncodeTable[(b.toNat &&& 0x0f) <<< 2 ||| c.toNat >>> 6]? =
    some (alphabet (b.toNat % 16 * 4 + c.toNat / 64)) := by
  have hc := c.toNat_lt
  rw [code_third, encodeTable_get (by omega)]

theorem table_fourth : base64EncodeTable[c.toNat &&& 0x3f]? = some (alphabet (c.toNat % 64)) := by
  rw [code_fourth, encodeTable_get (by omega)]

theorem table_second_last : base64EncodeTable[(a.toNat &&& 0x03) <<< 4]? =
    some (alphabet (a.toNat % 4 * 16 + (0 : Byte).toNat / 16)) := by
  have h := table_second a 0
  have hz : (0 : Byte).toNat >>> 4 = 0 := rfl
  rwa [hz, Nat.or_zero] at h

theorem table_third_last : base64EncodeTable[(b.toNat &&& 0x0f) <<< 2]? =
    some (alphabet (b.toNat % 16 * 4 + (0 : Byte).toNat / 64)) := by
  have h := table_third b 0
  have hz : (0 : Byte).toNat >>> 6 = 0 := rfl
  rwa [hz, Nat.or_zero] at h

end table

section encode
variable {data encoded : Block Byte} {i : ℕ} {a b c : Byte}

/-- A pass writes the text of a group. -/
theorem encodeRound_eq {l : List Byte} (hi : i * 4 + 4 < 2 ^ 32) (h : data.Has (i * 3) (a :: b :: c :: l)) :
    encodeRound data i encoded = encoded.writeList (i * 4) ((groupCodes a b c).map alphabet) := by
  obtain ⟨h₀, h₁, h₂⟩ := has_three h
  unfold encodeRound
  simp (disch := omega) only [u32_of_lt, h₀, h₁, h₂, table_first, table_second, table_third,
    table_fourth, Option.bind_eq_bind, Option.bind_some, groupCodes, List.map_cons, List.map_nil,
    Block.writeList, Option.bind_fun_some]

/-- The last lines write the text of what is left, and the terminator. -/
theorem encodeTail_eq {l : List Byte} {len : ℕ} (hi : i * 4 + 4 * ((l.length + 2) / 3) < 2 ^ 32)
    (h : data.Has (i * 3) l) (hl : l.length < 3) (hlen : len - i * 3 = l.length) :
    encodeTail data len i i encoded = do
      let encoded ← encoded.writeList (i * 4) (base64Text l ++ [0])
      return (encoded, i * 4 + (base64Text l).length) := by
  unfold encodeTail
  rw [hlen]
  match l, hl with
  | [], _ =>
      have hi' : i * 4 < 2 ^ 32 := hi
      simp (disch := omega) only [u32_of_lt, List.length_nil, base64Text, List.nil_append,
        Block.writeList, Option.bind_eq_bind, Option.bind_fun_some, Nat.add_zero]
  | [a], _ =>
      have hi' : i * 4 + 4 < 2 ^ 32 := by
        simp only [List.length_cons, List.length_nil] at hi
        omega
      have h₀ : data.read (i * 3) = some a := (Block.has_cons.mp h).1
      simp (disch := omega) only [u32_of_lt, List.length_cons, List.length_nil, Nat.zero_add, h₀,
        table_first, table_second_last, Option.bind_eq_bind, Option.bind_some, base64Text, groupCodes,
        List.take, List.map_cons, List.map_nil, List.cons_append, List.nil_append, Block.writeList,
        Option.bind_fun_some, Option.bind_assoc, Nat.add_assoc, Nat.reduceAdd]
  | [a, b], _ =>
      have hi' : i * 4 + 4 < 2 ^ 32 := by
        simp only [List.length_cons, List.length_nil] at hi
        omega
      have h₀ : data.read (i * 3) = some a := (Block.has_cons.mp h).1
      have h₁ : data.read (i * 3 + 1) = some b := (Block.has_cons.mp (Block.has_cons.mp h).2).1
      simp (disch := omega) only [u32_of_lt, List.length_cons, List.length_nil, Nat.zero_add, h₀, h₁,
        table_first, table_second, table_third_last, Option.bind_eq_bind, Option.bind_some, base64Text,
        groupCodes, List.take, List.map_cons, List.map_nil, List.cons_append, List.nil_append,
        Block.writeList, Option.bind_fun_some, Option.bind_assoc, Nat.add_assoc, Nat.reduceAdd]

variable {x : List Byte}

/-- Where the groups are full there are three bytes. -/
theorem exists_group (h : i < x.length / 3) :
    ∃ a b c l, x.drop (3 * i) = a :: b :: c :: l ∧ x.take (3 * (i + 1)) = x.take (3 * i) ++ [a, b, c] := by
  have hlen : (x.drop (3 * i)).length = x.length - 3 * i := List.length_drop
  match hd : x.drop (3 * i) with
  | [] | [a] | [a, b] =>
      rw [hd] at hlen
      simp only [List.length_cons, List.length_nil] at hlen
      omega
  | a :: b :: c :: l =>
      have hmul : 3 * (i + 1) = 3 * i + 3 := by ring
      refine ⟨a, b, c, l, rfl, ?_⟩
      rw [hmul, List.take_add, hd]
      rfl

/-- What the data holds from a group on. -/
theorem has_group (h : data.Has 0 x) (hi : i ≤ x.length / 3) : data.Has (i * 3) (x.drop (3 * i)) := by
  rw [← List.take_append_drop (3 * i) x, Block.has_append] at h
  have hlen : (x.take (3 * i)).length = i * 3 := by
    rw [List.length_take]
    omega
  rw [hlen, Nat.zero_add] at h
  exact h.2

theorem text_take_length (hi : i ≤ x.length / 3) : (base64Text (x.take (3 * i))).length = i * 4 := by
  rw [base64Text_length, List.length_take]
  omega

/-- The block holds the text of the first `i` groups. -/
structure Encoding (x : List Byte) (i : ℕ) (encoded : Block Byte) : Prop where
  has : encoded.Has 0 (base64Text (x.take (3 * i)))
  size : encoded.size = (x.length + 2) / 3 * 4 + 1

theorem Encoding.step (hx : x.length ≤ 3 * 2 ^ 30 - 3) (h : data.Has 0 x) (he : Encoding x i encoded)
    (hi : i < x.length / 3) :
    ∃ encoded', encodeRound data i encoded = some encoded' ∧ Encoding x (i + 1) encoded' := by
  obtain ⟨a, b, c, l, hdrop, htake⟩ := exists_group hi
  have hgroup := has_group h hi.le
  rw [hdrop] at hgroup
  have hlen := text_take_length hi.le
  have hfour : ((groupCodes a b c).map alphabet).length = 4 := rfl
  have hfit : i * 4 + ((groupCodes a b c).map alphabet).length ≤ encoded.size := by
    rw [hfour, he.size]
    omega
  obtain ⟨encoded', hw, hsize, hhas, hold⟩ := Block.writeList_of_le hfit
  refine ⟨encoded', ?_, ?_, hsize.trans he.size⟩
  · rw [encodeRound_eq (by omega) hgroup, hw]
  · have hthree : 3 ∣ (x.take (3 * i)).length := by
      rw [List.length_take]
      omega
    have hone : base64Text [a, b, c] = (groupCodes a b c).map alphabet := by simp [base64Text]
    rw [htake, base64Text_append hthree, hone, Block.has_append, hlen, Nat.zero_add]
    refine ⟨he.has.congr fun j _ hj => hold j (.inl ?_), hhas⟩
    omega

/-- The loop writes the text of all full groups. -/
theorem encode_loop (hx : x.length ≤ 3 * 2 ^ 30 - 3) (h : data.Has 0 x) (he : Encoding x i encoded)
    (hi : i ≤ x.length / 3) :
    ∃ encoded', Prog.Returns (Prog.iterate (fun p => liftM (encodePass data (x.length / 3) p)) (i, encoded))
        (x.length / 3, encoded') ∧ Encoding x (x.length / 3) encoded' := by
  obtain ⟨n, hn⟩ := Nat.exists_eq_add_of_le hi
  induction n generalizing i encoded with
  | zero =>
      refine ⟨encoded, Prog.Returns.iterate_done ?_, ?_⟩
      · rw [Prog.returns_lift]
        unfold encodePass
        rw [hn, Nat.add_zero, if_neg (lt_irrefl _)]
        rfl
      · rw [hn]
        exact he
  | succ n ih =>
      have hlt : i < x.length / 3 := by omega
      obtain ⟨encoded₁, hround, he₁⟩ := he.step hx h hlt
      obtain ⟨encoded', hret, he'⟩ := ih he₁ hlt (by omega)
      refine ⟨encoded', Prog.Returns.iterate_next ?_ hret, he'⟩
      rw [Prog.returns_lift]
      unfold encodePass
      rw [if_pos hlt, hround, u32_of_lt (by omega)]
      rfl

/-- What `base64_encode` returns. -/
theorem base64Encode_returns (hx : x.length ≤ 3 * 2 ^ 30 - 3) (h : data.Has 0 x) :
    ∃ encoded, Prog.Returns (base64Encode true data x.length) (some (encoded, (base64Text x).length)) ∧
      encoded.Has 0 (base64Text x ++ [0]) ∧ encoded.size = (base64Text x).length + 1 := by
  have hstart : Encoding x 0 (Block.null.realloc ((x.length + 2) / 3 * 4 + 1)) :=
    ⟨Block.has_nil, Block.size_realloc⟩
  obtain ⟨encoded, hloop, he⟩ := encode_loop hx h hstart (Nat.zero_le _)
  have hgroup := has_group h le_rfl
  have hdrop : (x.drop (3 * (x.length / 3))).length = x.length % 3 := by
    rw [List.length_drop]
    omega
  have htext : base64Text x =
      base64Text (x.take (3 * (x.length / 3))) ++ base64Text (x.drop (3 * (x.length / 3))) := by
    rw [← base64Text_append, List.take_append_drop]
    rw [List.length_take]
    omega
  have hpre : (base64Text (x.take (3 * (x.length / 3)))).length = x.length / 3 * 4 :=
    text_take_length le_rfl
  have hfit : x.length / 3 * 4 + (base64Text (x.drop (3 * (x.length / 3))) ++ [0]).length ≤
      encoded.size := by
    rw [List.length_append, base64Text_length, hdrop, he.size, List.length_singleton]
    omega
  obtain ⟨encoded', hw, hsize, hhas, hold⟩ := Block.writeList_of_le hfit
  refine ⟨encoded', ?_, ?_, ?_⟩
  · unfold base64Encode
    rw [if_pos rfl, u32_of_lt (by omega : x.length + 2 < 2 ^ 32), u32_of_lt (by omega)]
    refine Prog.returns_bind.mpr ⟨_, hloop, Prog.returns_bind.mpr ⟨_, ?_, Prog.returns_pure.mpr rfl⟩⟩
    rw [Prog.returns_lift, encodeTail_eq (by omega) hgroup (by omega) (by omega), hw, htext,
      List.length_append, hpre]
    rfl
  · rw [htext, List.append_assoc, Block.has_append, hpre, Nat.zero_add]
    exact ⟨he.has.congr fun j _ hj => hold j (.inl (by omega)), hhas⟩
  · rw [hsize, he.size, base64Text_length, Nat.mul_comm]

end encode

/-! ### `base64_decode` -/

section decode
variable {encoded decoded : Block Byte} {i k n round : ℕ} {o : Option ℕ}

theorem codeAt_alphabet (hn : n < 64) (h : encoded.read k = some (alphabet n)) :
    codeAt encoded k = some (n : ℤ) := by
  unfold codeAt
  rw [h, Option.bind_eq_bind, Option.bind_some]
  exact decodeTable_alphabet n hn

theorem codeAt_pad (h : encoded.read k = some pad) : codeAt encoded k = some (-1) := by
  unfold codeAt
  rw [h, Option.bind_eq_bind, Option.bind_some]
  exact decodeTable_pad

variable {x : List Byte} {a b c : Byte}

/-- A code that is taken from the table is not an error. -/
theorem code_ok (n : ℕ) : ¬ (n : ℤ) < -1 ∧ ¬ (n : ℤ) = -1 := by omega

/-- The first two codes of a group make its first byte, and the high bits of the second one. -/
theorem decodePass_two {n₀ n₁ : ℕ} (hi : i < round) (hround : round * 4 < 2 ^ 32)
    (hsize : i * 3 + 2 < decoded.size) (h₀ : codeAt encoded (i * 4) = some (n₀ : ℤ))
    (h₁ : codeAt encoded (i * 4 + 1) = some (n₁ : ℤ)) :
    ∃ d, decodePass encoded round ⟨i, decoded, o⟩ = decodeThird encoded round ⟨i, d, o⟩ ∧
      d.size = decoded.size ∧ d.read (i * 3) = some (UInt8.ofNat (n₀ <<< 2) ||| UInt8.ofNat (n₁ >>> 4)) ∧
      d.read (i * 3 + 1) = some (UInt8.ofNat (n₁ <<< 4)) ∧ ∀ j < i * 3, d.read j = decoded.read j := by
  obtain ⟨d₁, hd₁, hs₁, hr₁⟩ := Block.write_of_lt (by omega : i * 3 < decoded.size)
    (UInt8.ofNat (n₀ <<< 2))
  have hv : d₁.read (i * 3) = some (UInt8.ofNat (n₀ <<< 2)) := by rw [hr₁, if_pos rfl]
  obtain ⟨d₂, hd₂, hs₂, hr₂⟩ := Block.modify_of_read hv fun v => v ||| UInt8.ofNat (n₁ >>> 4)
  obtain ⟨d₃, hd₃, hs₃, hr₃⟩ := Block.write_of_lt (by omega : i * 3 + 1 < d₂.size)
    (UInt8.ofNat (n₁ <<< 4))
  refine ⟨d₃, ?_, by omega, ?_, ?_, fun j hj => ?_⟩
  · unfold decodePass decodeSecond setCode orCode
    rw [if_pos hi]
    simp (disch := omega) only [u32_of_lt, h₀, h₁, hd₁, hd₂, hd₃, Int.toNat_natCast,
      Option.bind_eq_bind, Option.bind_some, if_neg (Int.not_lt.mpr (Int.natCast_nonneg _))]
  · rw [hr₃, if_neg (by omega), hr₂, if_pos rfl]
  · rw [hr₃, if_pos rfl]
  · rw [hr₃, if_neg (by omega), hr₂, if_neg (by omega), hr₁, if_neg (by omega)]

/-- The third code completes the second byte. -/
theorem decodeThird_code {v : Byte} {n : ℕ} (hi : i < round) (hround : round * 4 < 2 ^ 32)
    (hsize : i * 3 + 2 < decoded.size) (hv : decoded.read (i * 3 + 1) = some v)
    (hn : codeAt encoded (i * 4 + 2) = some (n : ℤ)) :
    ∃ d, decodeThird encoded round ⟨i, decoded, o⟩ = decodeFourth encoded round ⟨i, d, o⟩ ∧
      d.size = decoded.size ∧ d.read (i * 3 + 1) = some (v ||| UInt8.ofNat (n >>> 2)) ∧
      d.read (i * 3 + 2) = some (UInt8.ofNat (n <<< 6)) ∧ ∀ j < i * 3 + 1, d.read j = decoded.read j := by
  obtain ⟨d₁, hd₁, hs₁, hr₁⟩ := Block.modify_of_read hv fun v => v ||| UInt8.ofNat (n >>> 2)
  obtain ⟨d₂, hd₂, hs₂, hr₂⟩ := Block.write_of_lt (by omega : i * 3 + 2 < d₁.size) (UInt8.ofNat (n <<< 6))
  refine ⟨d₂, ?_, by omega, ?_, ?_, fun j hj => ?_⟩
  · unfold decodeThird setCode orCode
    simp (disch := omega) only [u32_of_lt, hn, hd₁, hd₂, Int.toNat_natCast, Option.bind_eq_bind,
      Option.bind_some, if_neg (code_ok _).1, if_neg (code_ok _).2]
  · rw [hr₂, if_neg (by omega), hr₁, if_pos rfl]
  · rw [hr₂, if_pos rfl]
  · rw [hr₂, if_neg (by omega), hr₁, if_neg (by omega)]

/-- The fourth code completes the third byte. -/
theorem decodeFourth_code {v : Byte} {n : ℕ} (hi : i < round) (hround : round * 4 < 2 ^ 32)
    (hv : decoded.read (i * 3 + 2) = some v) (hn : codeAt encoded (i * 4 + 3) = some (n : ℤ)) :
    ∃ d, decodeFourth encoded round ⟨i, decoded, o⟩ = some (.next ⟨i + 1, d, o⟩) ∧
      d.size = decoded.size ∧ d.read (i * 3 + 2) = some (v ||| UInt8.ofNat n) ∧
      ∀ j < i * 3 + 2, d.read j = decoded.read j := by
  obtain ⟨d₁, hd₁, hs₁, hr₁⟩ := Block.modify_of_read hv fun v => v ||| UInt8.ofNat n
  refine ⟨d₁, ?_, hs₁, ?_, fun j hj => ?_⟩
  · unfold decodeFourth orCode
    simp (disch := omega) only [u32_of_lt, hn, hd₁, Int.toNat_natCast, Option.bind_eq_bind,
      Option.bind_some, if_neg (code_ok _).1, if_neg (code_ok _).2]
    rfl
  · rw [hr₁, if_pos rfl]
  · rw [hr₁, if_neg (by omega)]

theorem decodeThird_pad (hi : i < round) (hround : round * 4 < 2 ^ 32)
    (hn : codeAt encoded (i * 4 + 2) = some (-1)) :
    decodeThird encoded round ⟨i, decoded, o⟩ = some (.done (some ⟨i, decoded, some (round * 3 - 2)⟩)) := by
  unfold decodeThird
  simp (disch := omega) only [u32_of_lt, hn, Option.bind_eq_bind, Option.bind_some]
  rfl

theorem decodeFourth_pad (hi : i < round) (hround : round * 4 < 2 ^ 32)
    (hn : codeAt encoded (i * 4 + 3) = some (-1)) :
    decodeFourth encoded round ⟨i, decoded, o⟩ = some (.done (some ⟨i, decoded, some (round * 3 - 1)⟩)) := by
  unfold decodeFourth
  simp (disch := omega) only [u32_of_lt, hn, Option.bind_eq_bind, Option.bind_some]
  rfl

/-- The characters of a group. -/
theorem has_four {l : List Byte} {w x y z : Byte} (h : encoded.Has k (w :: x :: y :: z :: l)) :
    encoded.read k = some w ∧ encoded.read (k + 1) = some x ∧ encoded.read (k + 2) = some y ∧
      encoded.read (k + 3) = some z := by
  obtain ⟨h₀, h⟩ := Block.has_cons.mp h
  exact ⟨h₀, has_three h⟩

/-- A full group is decoded to its bytes. -/
theorem decodePass_group {l : List Byte} (hi : i < round) (hround : round * 4 < 2 ^ 32)
    (hsize : i * 3 + 2 < decoded.size)
    (h : encoded.Has (i * 4) ((groupCodes a b c).map alphabet ++ l)) :
    ∃ decoded', decodePass encoded round ⟨i, decoded, o⟩ = some (.next ⟨i + 1, decoded', o⟩) ∧
      decoded'.size = decoded.size ∧ decoded'.Has (i * 3) [a, b, c] ∧
      ∀ j < i * 3, decoded'.read j = decoded.read j := by
  have hlt := @groupCodes_lt a b c
  simp only [groupCodes, List.forall_mem_cons] at hlt
  obtain ⟨hc₀, hc₁, hc₂, hc₃, -⟩ := hlt
  obtain ⟨h₀, h₁, h₂, h₃⟩ := has_four h
  obtain ⟨d₁, he₁, hs₁, ha, hb₁, hr₁⟩ := decodePass_two (o := o) hi hround hsize (codeAt_alphabet hc₀ h₀)
    (codeAt_alphabet hc₁ h₁)
  obtain ⟨d₂, he₂, hs₂, hb, hb₂, hr₂⟩ := decodeThird_code (o := o) hi hround (by omega) hb₁
    (codeAt_alphabet hc₂ h₂)
  obtain ⟨d₃, he₃, hs₃, hc, hr₃⟩ := decodeFourth_code (o := o) hi hround hb₂ (codeAt_alphabet hc₃ h₃)
  rw [decode_first] at ha
  rw [decode_second] at hb
  rw [decode_third] at hc
  refine ⟨d₃, by rw [he₁, he₂, he₃], by omega, ?_, fun j hj => ?_⟩
  · refine Block.has_cons.mpr ⟨?_, Block.has_cons.mpr ⟨?_, Block.has_cons.mpr ⟨hc, Block.has_nil⟩⟩⟩
    · rw [hr₃ _ (by omega), hr₂ _ (by omega), ha]
    · rw [hr₃ _ (by omega), hb]
  · rw [hr₃ j (by omega), hr₂ j (by omega), hr₁ j hj]

/-- A last group of two bytes. -/
theorem decodePass_two_left {l : List Byte} (hi : i < round) (hround : round * 4 < 2 ^ 32)
    (hsize : i * 3 + 2 < decoded.size) (h : encoded.Has (i * 4) (base64Text [a, b] ++ l)) :
    ∃ decoded', decodePass encoded round ⟨i, decoded, o⟩ =
        some (.done (some ⟨i, decoded', some (round * 3 - 1)⟩)) ∧
      decoded'.size = decoded.size ∧ decoded'.Has (i * 3) [a, b] ∧
      ∀ j < i * 3, decoded'.read j = decoded.read j := by
  have hlt := @groupCodes_lt a b 0
  simp only [groupCodes, List.forall_mem_cons] at hlt
  obtain ⟨hc₀, hc₁, hc₂, -, -⟩ := hlt
  obtain ⟨h₀, h₁, h₂, h₃⟩ := has_four h
  obtain ⟨d₁, he₁, hs₁, ha, hb₁, hr₁⟩ := decodePass_two (o := o) hi hround hsize (codeAt_alphabet hc₀ h₀)
    (codeAt_alphabet hc₁ h₁)
  obtain ⟨d₂, he₂, hs₂, hb, -, hr₂⟩ := decodeThird_code (o := o) hi hround (by omega) hb₁
    (codeAt_alphabet hc₂ h₂)
  rw [decode_first] at ha
  rw [decode_second] at hb
  refine ⟨d₂, by rw [he₁, he₂, decodeFourth_pad hi hround (codeAt_pad h₃)], by omega, ?_, fun j hj => ?_⟩
  · refine Block.has_cons.mpr ⟨?_, Block.has_cons.mpr ⟨hb, Block.has_nil⟩⟩
    rw [hr₂ _ (by omega), ha]
  · rw [hr₂ j (by omega), hr₁ j hj]

/-- A last group of one byte. -/
theorem decodePass_one_left {l : List Byte} (hi : i < round) (hround : round * 4 < 2 ^ 32)
    (hsize : i * 3 + 2 < decoded.size) (h : encoded.Has (i * 4) (base64Text [a] ++ l)) :
    ∃ decoded', decodePass encoded round ⟨i, decoded, o⟩ =
        some (.done (some ⟨i, decoded', some (round * 3 - 2)⟩)) ∧
      decoded'.size = decoded.size ∧ decoded'.Has (i * 3) [a] ∧
      ∀ j < i * 3, decoded'.read j = decoded.read j := by
  have hlt := @groupCodes_lt a 0 0
  simp only [groupCodes, List.forall_mem_cons] at hlt
  obtain ⟨hc₀, hc₁, -⟩ := hlt
  obtain ⟨h₀, h₁, h₂, h₃⟩ := has_four h
  obtain ⟨d₁, he₁, hs₁, ha, -, hr₁⟩ := decodePass_two (o := o) hi hround hsize (codeAt_alphabet hc₀ h₀)
    (codeAt_alphabet hc₁ h₁)
  rw [decode_first] at ha
  exact ⟨d₁, by rw [he₁, decodeThird_pad hi hround (codeAt_pad h₂)], hs₁,
    Block.has_cons.mpr ⟨ha, Block.has_nil⟩, hr₁⟩

/-- The block holds the bytes of the first `i` groups. -/
structure Decoding (x : List Byte) (i : ℕ) (decoded : Block Byte) : Prop where
  has : decoded.Has 0 (x.take (3 * i))
  size : decoded.size = (x.length + 2) / 3 * 3 + 1

/-- The bytes of a group behind those of the groups before. -/
theorem Decoding.has_snoc {l : List Byte} {decoded' : Block Byte} (hd : Decoding x i decoded)
    (hi : i ≤ x.length / 3) (hl : decoded'.Has (i * 3) l)
    (hold : ∀ j < i * 3, decoded'.read j = decoded.read j) : decoded'.Has 0 (x.take (3 * i) ++ l) := by
  have hlen : (x.take (3 * i)).length = i * 3 := by
    rw [List.length_take]
    omega
  rw [Block.has_append, hlen, Nat.zero_add]
  exact ⟨hd.has.congr fun j _ hj => hold j (by omega), hl⟩

/-- The text from a group on. -/
theorem has_text {t : List Byte} (h : encoded.Has 0 (base64Text x ++ t)) (hi : i ≤ x.length / 3) :
    encoded.Has (i * 4) (base64Text (x.drop (3 * i)) ++ t) := by
  have hthree : 3 ∣ (x.take (3 * i)).length := by
    rw [List.length_take]
    omega
  rw [← List.take_append_drop (3 * i) x, base64Text_append hthree, List.append_assoc, Block.has_append,
    text_take_length hi, Nat.zero_add] at h
  exact h.2

/-- The terminator behind the bytes. -/
theorem decodeEnd_returns {s : DecodeLoop} (hi : s.i = round ∨ s.i = round - 1)
    (hlen : lenAfter round s = some x.length) (hx : s.decoded.Has 0 x)
    (hsize : x.length < s.decoded.size) :
    ∃ decoded', decodeEnd round s = some (some (decoded', x.length)) ∧ decoded'.Has 0 (x ++ [0]) := by
  obtain ⟨d, hd, -, hr⟩ := Block.write_of_lt hsize 0
  refine ⟨d, ?_, ?_⟩
  · unfold decodeEnd
    rw [if_pos hi, hlen]
    show (s.decoded.write x.length 0 >>= fun d => some (some (d, x.length))) = _
    rw [hd]
    rfl
  · rw [Block.has_append, Block.has_cons, Nat.zero_add]
    refine ⟨hx.congr fun j _ hj => ?_, ?_, Block.has_nil⟩
    · rw [hr, if_neg (by omega)]
    · rw [hr, if_pos rfl]

/-- What the passes and the lines after them make of a loop state. -/
def Decodes (encoded : Block Byte) (x : List Byte) (s : DecodeLoop) : Prop :=
  ∃ s' decoded', Prog.Returns
      (Prog.iterate (fun s => liftM (decodePass encoded ((x.length + 2) / 3) s)) s) (some s') ∧
    decodeEnd ((x.length + 2) / 3) s' = some (some (decoded', x.length)) ∧ decoded'.Has 0 (x ++ [0])

theorem Decodes.of_done {s s' : DecodeLoop}
    (h : decodePass encoded ((x.length + 2) / 3) s = some (.done (some s')))
    (hi : s'.i = (x.length + 2) / 3 ∨ s'.i = (x.length + 2) / 3 - 1)
    (hlen : lenAfter ((x.length + 2) / 3) s' = some x.length) (hx : s'.decoded.Has 0 x)
    (hsize : x.length < s'.decoded.size) : Decodes encoded x s := by
  obtain ⟨decoded', hend, hhas⟩ := decodeEnd_returns hi hlen hx hsize
  exact ⟨s', decoded', Prog.Returns.iterate_done (Prog.returns_lift.mpr h), hend, hhas⟩

theorem Decodes.of_next {s s' : DecodeLoop}
    (h : decodePass encoded ((x.length + 2) / 3) s = some (.next s')) (h' : Decodes encoded x s') :
    Decodes encoded x s := by
  obtain ⟨s'', decoded', hret, hend, hhas⟩ := h'
  exact ⟨s'', decoded', Prog.Returns.iterate_next (Prog.returns_lift.mpr h) hret, hend, hhas⟩

/-- A last group that is not full. -/
theorem Decodes.of_last {l : List Byte} {len : ℕ} (hd : Decoding x i decoded) (hi : i = x.length / 3)
    (hl : x.take (3 * i) ++ l = x) (hlast : i + 1 = (x.length + 2) / 3) (hlen : len = x.length)
    (h : ∃ decoded', decodePass encoded ((x.length + 2) / 3) ⟨i, decoded, none⟩ =
        some (.done (some ⟨i, decoded', some len⟩)) ∧
      decoded'.size = decoded.size ∧ decoded'.Has (i * 3) l ∧ ∀ j < i * 3, decoded'.read j = decoded.read j) :
    Decodes encoded x ⟨i, decoded, none⟩ := by
  obtain ⟨decoded', hpass, hs, hhas, hold⟩ := h
  have hsize := hd.size
  refine .of_done hpass (.inr (Nat.eq_sub_of_add_eq hlast)) ?_ ?_ ?_
  · unfold lenAfter
    rw [if_neg (by omega : ¬ i = (x.length + 2) / 3), hlen]
  · rw [← hl]
    exact hd.has_snoc hi.le hhas hold
  · show x.length < decoded'.size
    omega

/-- What is left after the full groups. -/
theorem decode_last {t l : List Byte} (hround : (x.length + 2) / 3 * 4 < 2 ^ 32)
    (h : encoded.Has (i * 4) (base64Text l ++ t)) (hd : Decoding x i decoded) (hi : i = x.length / 3)
    (hl : x.drop (3 * i) = l) : Decodes encoded x ⟨i, decoded, none⟩ := by
  have hlen : l.length = x.length - 3 * i := by rw [← hl, List.length_drop]
  have hsize := hd.size
  have hsplit : x.take (3 * i) ++ l = x := by rw [← hl, List.take_append_drop]
  match l with
  | [] =>
      simp only [List.length_nil] at hlen
      have hend : i = (x.length + 2) / 3 := by omega
      rw [List.append_nil] at hsplit
      have hpass : decodePass encoded ((x.length + 2) / 3) ⟨i, decoded, none⟩ =
          some (.done (some ⟨i, decoded, none⟩)) := if_neg (by omega : ¬ i < (x.length + 2) / 3)
      refine .of_done hpass (.inl hend) ?_ ?_ ?_
      · unfold lenAfter
        rw [if_pos hend, u32_of_lt (by omega)]
        congr 1
        omega
      · rw [← hsplit]
        exact hd.has
      · show x.length < decoded.size
        omega
  | [a] =>
      simp only [List.length_cons, List.length_nil] at hlen
      exact .of_last hd hi hsplit (by omega) (by omega)
        (decodePass_one_left (by omega : i < (x.length + 2) / 3) hround (by omega) h)
  | [a, b] =>
      simp only [List.length_cons, List.length_nil] at hlen
      exact .of_last hd hi hsplit (by omega) (by omega)
        (decodePass_two_left (by omega : i < (x.length + 2) / 3) hround (by omega) h)
  | a :: b :: c :: l =>
      simp only [List.length_cons] at hlen
      omega

/-- The loop and the lines after it take the text to the bytes. -/
theorem decode_loop {t : List Byte} (hround : (x.length + 2) / 3 * 4 < 2 ^ 32)
    (h : encoded.Has 0 (base64Text x ++ t)) (hd : Decoding x i decoded) (hi : i ≤ x.length / 3) :
    Decodes encoded x ⟨i, decoded, none⟩ := by
  obtain ⟨n, hn⟩ := Nat.exists_eq_add_of_le hi
  induction n generalizing i decoded with
  | zero => exact decode_last hround (has_text h hi) hd hn.symm rfl
  | succ n ih =>
      have hlt : i < x.length / 3 := by omega
      obtain ⟨a, b, c, l, hdrop, htake⟩ := exists_group hlt
      have htext := has_text h hi
      rw [hdrop, base64Text, List.append_assoc] at htext
      have hsize := hd.size
      have hroom : i * 3 + 2 < decoded.size := by omega
      obtain ⟨decoded', hpass, hs, hhas, hold⟩ :=
        decodePass_group (o := none) (by omega : i < (x.length + 2) / 3) hround hroom htext
      refine .of_next hpass (ih ⟨?_, hs.trans hsize⟩ hlt (by omega))
      rw [htake]
      exact hd.has_snoc hi hhas hold

end decode

/-! ### The round trip -/

/-- **Round trip.**  `base64_encode` writes a string over the alphabet and the padding character, with
its terminator, of four characters for three bytes or less; `base64_decode` of that string returns
the bytes, with a terminator behind them. -/
theorem base64_roundTrip {data : Block Byte} {x : List Byte} (hx : x.length ≤ 3 * 2 ^ 30 - 3)
    (h : data.Has 0 x) :
    ∃ encoded text, Prog.Returns (base64Encode true data x.length) (some (encoded, text.length)) ∧
      encoded.Has 0 (text ++ [0]) ∧ (∀ c ∈ text, c ∈ base64EncodeTable ∨ c = pad) ∧ 0 ∉ text ∧
      text.length = 4 * ((x.length + 2) / 3) ∧
      ∃ decoded, Prog.Returns (base64Decode true encoded text.length) (some (decoded, x.length)) ∧
        decoded.Has 0 (x ++ [0]) := by
  obtain ⟨encoded, hret, hhas, -⟩ := base64Encode_returns hx h
  have hlen := base64Text_length x
  refine ⟨encoded, base64Text x, hret, hhas, fun c hc => base64Text_mem hc, ?_, hlen, ?_⟩
  · intro hzero
    rcases base64Text_mem hzero with hmem | hpad
    · exact zero_notMem_table hmem
    · exact absurd hpad (by decide)
  · have hround : (x.length + 2) / 3 * 4 < 2 ^ 32 := by omega
    obtain ⟨s, decoded, hloop, hend, hdec⟩ :=
      decode_loop hround hhas ⟨Block.has_nil, Block.size_realloc⟩ (Nat.zero_le _)
    refine ⟨decoded, ?_, hdec⟩
    unfold base64Decode
    have hfour : ¬ ((base64Text x).length % 4 ≠ 0 ∨ true = false) := by
      rw [hlen]
      simp
    have hdiv : (base64Text x).length / 4 = (x.length + 2) / 3 := by omega
    have hfit : u32 ((x.length + 2) / 3 * 3 + 1) = (x.length + 2) / 3 * 3 + 1 := u32_of_lt (by omega)
    rw [if_neg hfour, hdiv]
    simp only [hfit]
    exact Prog.returns_bind.mpr ⟨_, hloop, Prog.returns_lift.mpr hend⟩

theorem base64_roundTrip_four : ∃ encoded text,
    Prog.Returns (base64Encode true ⟨[some 20, some 251, some 156, some 3]⟩ 4)
        (some (encoded, text.length)) ∧
      encoded.Has 0 (text ++ [0]) ∧ (∀ c ∈ text, c ∈ base64EncodeTable ∨ c = pad) ∧ 0 ∉ text ∧
      text.length = 8 ∧
      ∃ decoded, Prog.Returns (base64Decode true encoded text.length) (some (decoded, 4)) ∧
        decoded.Has 0 [20, 251, 156, 3, 0] := by
  have h : (⟨[some 20, some 251, some 156, some 3]⟩ : Block Byte).Has 0 [20, 251, 156, 3] := by
    simp [Block.has_cons, Block.has_nil, Block.read]
  exact base64_roundTrip (by decide) h

/-- The example of `examples/base64.c`. -/
example : base64Text [0x14, 0xfb, 0x9c, 0x03] = "FPucAw==".toList.map fun c => UInt8.ofNat c.toNat := by
  decide

end Libls.Base64
