import Mathlib.Tactic
import Libls.PercentInPlace

/-! # The URL and percent codecs round-trip

`chunk` is the text of one byte.  An encoder writes the chunks of its bytes one after the other, and
decoding takes one chunk after the other.  With `plus` in the encoder and
not in the decoder a space comes back as `'+'` (`afterTrip`). -/

namespace Libls.Percent

/-! ### Bytes -/

/-- The digits of a byte. -/
def hexPair (c : Byte) : List Byte :=
  [hexAscUpper.getD (c.toNat / 16) 0, hexAscUpper.getD (c.toNat % 16) 0]

theorem hexAscUpperHi_eq : ∀ c : Byte, hexAscUpperHi c = some (hexAscUpper.getD (c.toNat / 16) 0) :=
  forall_byte (by decide +kernel)

theorem hexAscUpperLo_eq : ∀ c : Byte, hexAscUpperLo c = some (hexAscUpper.getD (c.toNat % 16) 0) :=
  forall_byte (by decide +kernel)

/-- The digits are upper-case hexadecimal digits, and they are read back. -/
theorem hexDigit_spec : ∀ n < 16, isxdigit (hexAscUpper.getD n 0) = true ∧
    hexToBin (hexAscUpper.getD n 0) = n ∧ hexAscUpper.getD n 0 ∈ hexAscUpper := by
  decide +kernel

theorem zero_notMem_hexAscUpper : (0 : Byte) ∉ hexAscUpper := by decide

theorem ofNat_digits (c : Byte) : UInt8.ofNat ((c.toNat / 16) <<< 4 ||| c.toNat % 16) = c := by
  have h : (c.toNat / 16) <<< 4 ||| c.toNat % 16 = c.toNat := by
    rw [← Nat.shiftLeft_add_eq_or_of_lt (Nat.mod_lt _ (by decide)), Nat.shiftLeft_eq]
    exact Nat.div_add_mod' _ 16
  rw [h]
  exact UInt8.ofNat_toNat

/-- What the codecs need of a set of unreserved characters. -/
def Plain (unreserved : Byte → Bool) : Prop :=
  ∀ c, unreserved c = true → c ≠ percentSign ∧ c ≠ plusSign ∧ c ≠ space ∧ c ≠ 0

theorem isUrlUnreserved_plain : Plain isUrlUnreserved := forall_byte (by decide +kernel)

theorem isRfc3986Unreserved_plain : Plain isRfc3986Unreserved := forall_byte (by decide +kernel)

/-! ### The text -/

/-- Texts over the unreserved characters, escapes, and `'+'` if `plus`. -/
inductive Escaped (unreserved : Byte → Bool) (plus : Bool) : List Byte → Prop
  | nil : Escaped unreserved plus []
  | char {c : Byte} {t : List Byte} (h : unreserved c = true) (ht : Escaped unreserved plus t) :
      Escaped unreserved plus (c :: t)
  | plus {t : List Byte} (h : plus = true) (ht : Escaped unreserved plus t) :
      Escaped unreserved plus (plusSign :: t)
  | escape {hi lo : Byte} {t : List Byte} (hhi : hi ∈ hexAscUpper) (hlo : lo ∈ hexAscUpper)
      (ht : Escaped unreserved plus t) : Escaped unreserved plus (percentSign :: hi :: lo :: t)

section
variable {unreserved : Byte → Bool} {plus : Bool}

variable (unreserved plus) in
/-- The text of a byte. -/
def chunk (c : Byte) : List Byte :=
  if unreserved c then [c] else if plus ∧ c = space then [plusSign] else percentSign :: hexPair c

variable (unreserved plus) in
/-- The text of some bytes. -/
def escapedText (x : List Byte) : List Byte := x.flatMap (chunk unreserved plus)

theorem escapedText_cons (c : Byte) (x : List Byte) :
    escapedText unreserved plus (c :: x) = chunk unreserved plus c ++ escapedText unreserved plus x :=
  List.flatMap_cons

theorem escapedText_escaped (x : List Byte) : Escaped unreserved plus (escapedText unreserved plus x) := by
  induction x with
  | nil => exact .nil
  | cons c x ih =>
      rw [escapedText_cons]
      unfold chunk
      split
      · next h => exact .char h ih
      · split
        · next h => exact .plus h.1 ih
        · have hc := c.toNat_lt
          exact .escape (hexDigit_spec _ (by omega)).2.2 (hexDigit_spec _ (by omega)).2.2 ih

/-- A text has no NUL. -/
theorem Escaped.zero_notMem (hp : Plain unreserved) {t : List Byte} (h : Escaped unreserved plus t) :
    0 ∉ t := by
  induction h with
  | nil => exact List.not_mem_nil
  | char hc _ ih =>
      rw [List.mem_cons, not_or]
      exact ⟨fun e => (hp _ hc).2.2.2 e.symm, ih⟩
  | plus _ _ ih =>
      rw [List.mem_cons, not_or]
      exact ⟨by decide, ih⟩
  | escape hhi hlo _ ih =>
      rw [List.mem_cons, List.mem_cons, List.mem_cons, not_or, not_or, not_or]
      refine ⟨by decide, ?_, ?_, ih⟩
      · rintro rfl
        exact zero_notMem_hexAscUpper hhi
      · rintro rfl
        exact zero_notMem_hexAscUpper hlo

/-! ### Encoding -/

variable {raw enc : Block Byte} {x : List Byte} {c : Byte} {i len size : ℕ}

/-- The first loop counts the characters of the text. -/
theorem count_returns (h : raw.Has i x) (hsize : i + x.length = size) :
    Prog.Returns (Prog.iterate (fun p => liftM (countPass unreserved plus raw size p)) (i, len))
      (len + (escapedText unreserved plus x).length) := by
  induction x generalizing i len with
  | nil =>
      refine Prog.Returns.iterate_done (Prog.returns_lift.mpr ?_)
      exact if_neg (by simpa using hsize.ge)
  | cons c x ih =>
      obtain ⟨hc, h⟩ := Block.has_cons.mp h
      rw [List.length_cons] at hsize
      have hpass : countPass unreserved plus raw size (i, len) =
          some (.next (i + 1, len + (chunk unreserved plus c).length)) := by
        unfold countPass chunk
        simp only
        rw [if_pos (by omega), hc]
        simp only [Option.bind_eq_bind, Option.bind_some]
        split
        · rfl
        · split <;> rfl
      rw [escapedText_cons, List.length_append, ← Nat.add_assoc]
      exact Prog.Returns.iterate_next (Prog.returns_lift.mpr hpass) (ih h (by omega))

/-- The second loop writes the text of a byte. -/
theorem putByte_eq : putByte unreserved plus c len enc = do
    let enc ← enc.writeList len (chunk unreserved plus c)
    return (len + (chunk unreserved plus c).length, enc) := by
  unfold putByte chunk hexPair
  split
  · simp only [Block.writeList, Option.bind_eq_bind, Option.bind_assoc, Option.bind_some,
      List.length_singleton]
  · split
    · simp only [Block.writeList, Option.bind_eq_bind, Option.bind_assoc, Option.bind_some,
        List.length_singleton]
    · simp only [Block.writeList, Option.bind_eq_bind, Option.bind_assoc, Option.bind_some,
        hexAscUpperHi_eq, hexAscUpperLo_eq, List.length_cons, List.length_nil, Nat.add_assoc,
        Nat.reduceAdd]

theorem encode_returns (h : raw.Has i x) (hsize : i + x.length = size)
    (hroom : len + (escapedText unreserved plus x).length ≤ enc.size) :
    ∃ enc', Prog.Returns
        (Prog.iterate (fun p => liftM (encodePass unreserved plus raw size p)) (i, len, enc))
        (len + (escapedText unreserved plus x).length, enc') ∧
      enc'.size = enc.size ∧ enc'.Has len (escapedText unreserved plus x) ∧
      ∀ j < len, enc'.read j = enc.read j := by
  induction x generalizing i len enc with
  | nil =>
      refine ⟨enc, Prog.Returns.iterate_done (Prog.returns_lift.mpr ?_), rfl, Block.has_nil,
        fun _ _ => rfl⟩
      exact if_neg (by simpa using hsize.ge)
  | cons c x ih =>
      obtain ⟨hc, h⟩ := Block.has_cons.mp h
      rw [List.length_cons] at hsize
      rw [escapedText_cons, List.length_append] at hroom
      have hfit : len + (chunk unreserved plus c).length ≤ enc.size := by omega
      obtain ⟨enc₁, hw, hs₁, hhas₁, hold₁⟩ := Block.writeList_of_le hfit
      have hroom₁ : len + (chunk unreserved plus c).length + (escapedText unreserved plus x).length ≤
          enc₁.size := by omega
      obtain ⟨enc', hret, hs, hhas, hold⟩ := ih h (by omega) hroom₁
      have hpass : encodePass unreserved plus raw size (i, len, enc) =
          some (.next (i + 1, len + (chunk unreserved plus c).length, enc₁)) := by
        unfold encodePass
        simp only
        rw [if_pos (by omega), hc]
        simp only [Option.bind_eq_bind, Option.bind_some]
        rw [putByte_eq, hw]
        rfl
      refine ⟨enc', ?_, hs.trans hs₁, ?_, fun j hj => ?_⟩
      · rw [escapedText_cons, List.length_append, ← Nat.add_assoc]
        exact Prog.Returns.iterate_next (Prog.returns_lift.mpr hpass) hret
      · rw [escapedText_cons, Block.has_append]
        exact ⟨hhas₁.congr fun j _ hj => hold j hj, hhas⟩
      · rw [hold j (by omega), hold₁ j (.inl hj)]

theorem encodedLen_returns (h : raw.Has 0 x) :
    Prog.Returns (encodedLen unreserved plus raw x.length) (escapedText unreserved plus x).length := by
  have hcount : Prog.Returns (encodedLen unreserved plus raw x.length)
      (0 + (escapedText unreserved plus x).length) := count_returns h (Nat.zero_add _)
  rwa [Nat.zero_add] at hcount

/-- What `url_encode` and `percent_encode` return. -/
theorem encodeWith_returns (h : raw.Has 0 x) :
    ∃ enc, Prog.Returns (encodeWith unreserved plus true raw x.length) (some enc) ∧
      enc.size = (escapedText unreserved plus x).length + 1 ∧
      enc.Has 0 (escapedText unreserved plus x ++ [0]) := by
  have hroom : 0 + (escapedText unreserved plus x).length ≤
      (Block.null.realloc ((escapedText unreserved plus x).length + 1) : Block Byte).size := by
    rw [Block.size_realloc]
    omega
  obtain ⟨enc, hloop, hs, hhas, -⟩ := encode_returns h (Nat.zero_add _) hroom
  rw [Block.size_realloc] at hs
  rw [Nat.zero_add] at hloop
  obtain ⟨enc', hw, hs', hr⟩ := Block.write_of_lt
    (by omega : (escapedText unreserved plus x).length < enc.size) 0
  refine ⟨enc', ?_, hs'.trans hs, ?_⟩
  · refine Prog.returns_bind.mpr ⟨_, encodedLen_returns h, ?_⟩
    refine Prog.returns_bind.mpr ⟨_, hloop, Prog.returns_bind.mpr ⟨enc', ?_, Prog.returns_pure.mpr rfl⟩⟩
    exact Prog.returns_lift.mpr hw
  · rw [Block.has_append, Block.has_cons, Nat.zero_add]
    refine ⟨hhas.congr fun j _ hj => ?_, ?_, Block.has_nil⟩
    · rw [hr, if_neg (by omega)]
    · rw [hr, if_pos rfl]

/-! ### Decoding -/

/-- What a byte is after encoding with `plus` and decoding with `plus'`. -/
def afterTrip (plus plus' : Bool) (c : Byte) : Byte :=
  if plus = true ∧ plus' = false ∧ c = space then plusSign else c

variable {plus' : Bool} {t : List Byte}

/-- The text of a byte is decoded. -/
theorem decodeCopy_chunk (hp : Plain unreserved) : decodeCopy plus' (chunk unreserved plus c ++ t) =
    (decodeCopy plus' t).map fun y => afterTrip plus plus' c :: y := by
  unfold chunk afterTrip
  by_cases hu : unreserved c = true
  · obtain ⟨hpercent, hplus, hspace, -⟩ := hp c hu
    have hchar : charByte plus' c = c := if_neg fun e => hplus e.2
    rw [if_pos hu, if_neg (fun e => hspace e.2.2), List.singleton_append, decodeCopy_char hpercent, hchar]
  · rw [if_neg hu]
    by_cases hsp : plus = true ∧ c = space
    · obtain ⟨rfl, rfl⟩ := hsp
      rw [if_pos ⟨rfl, rfl⟩, List.singleton_append, decodeCopy_char (by decide)]
      cases plus' with
      | true => rfl
      | false => rfl
    · have hc := c.toNat_lt
      obtain ⟨hx₁, hv₁, -⟩ := hexDigit_spec (c.toNat / 16) (by omega)
      obtain ⟨hx₂, hv₂, -⟩ := hexDigit_spec (c.toNat % 16) (by omega)
      have hbyte : escapeByte (hexAscUpper.getD (c.toNat / 16) 0) (hexAscUpper.getD (c.toNat % 16) 0) = c := by
        rw [escapeByte, hv₁, hv₂, Int.toNat_natCast, Int.toNat_natCast, ofNat_digits]
      rw [if_neg hsp, if_neg (fun e => hsp ⟨e.1, e.2.2⟩)]
      unfold hexPair
      rw [List.cons_append, List.cons_append, List.cons_append, List.nil_append, decodeCopy_escape hx₁ hx₂, hbyte]

/-- What decoding makes of an encoded text. -/
theorem decodeCopy_escapedText (hp : Plain unreserved) :
    decodeCopy plus' (escapedText unreserved plus x) = some (x.map (afterTrip plus plus')) := by
  induction x with
  | nil => rfl
  | cons c x ih =>
      rw [escapedText_cons, decodeCopy_chunk hp, ih]
      rfl

/-! ### Round trips -/

/-- A decoder returns the number of bytes of `x` and leaves them in the block. -/
def Recovers (decode : Block Byte → ℕ → Prog (Block Byte × ℤ)) (enc : Block Byte) (len : ℕ)
    (x : List Byte) : Prop :=
  ∃ enc', Prog.Returns (decode enc len) (enc', (x.length : ℤ)) ∧ enc'.Has 0 x

/-- Bytes that change are not recovered. -/
theorem decodeInPlace_recovers_iff (hp : Plain unreserved) {z : List Byte}
    (h : enc.Has 0 (escapedText unreserved plus x ++ z)) :
    Recovers (decodeInPlace plus') enc (escapedText unreserved plus x).length x ↔
      ∀ c ∈ x, afterTrip plus plus' c = c := by
  have htext : enc.Has 0 (escapedText unreserved plus x) := (Block.has_append.mp h).1
  obtain ⟨enc', ret, hret, hdec⟩ := @decodeInPlace_copy plus' enc _ htext
  obtain ⟨hlen, hhas⟩ := hdec.holds _ (decodeCopy_escapedText hp)
  rw [List.length_map] at hlen
  subst hlen
  constructor
  · rintro ⟨enc'', hret', hhas'⟩
    obtain ⟨rfl, -⟩ := Prod.mk.inj (hret'.unique hret)
    have hmap : x.map (afterTrip plus plus') = x := by
      have h₁ := hhas.readList
      rw [List.length_map, hhas'.readList] at h₁
      exact (Option.some.inj h₁).symm
    rw [← List.map_id x, List.map_map] at hmap
    exact List.map_inj_left.mp hmap
  · intro hsame
    rw [List.map_congr_left hsame, List.map_id'] at hhas
    exact ⟨enc', hret, hhas⟩

/-- Only a space that was encoded as `'+'` and is decoded without is lost. -/
theorem afterTrip_eq_self {c : Byte} :
    afterTrip plus plus' c = c ↔ ¬ (plus = true ∧ plus' = false ∧ c = space) := by
  unfold afterTrip
  split
  · next h =>
      obtain ⟨-, -, rfl⟩ := id h
      exact iff_of_false (by decide) (not_not.mpr h)
  · next h => exact iff_of_true rfl h

end

/-- **The codecs round-trip.**  Both encoders write as many bytes as they have counted, and a NUL;
before it there is no other, and only unreserved characters, escapes and, from `url_encode`, `'+'`.
`url_decode_in_place` recovers the bytes from both texts, and `percent_decode_in_place` from the text
of `percent_encode`, but from that of `url_encode` only if there is no space. -/
theorem codecs_roundTrip {raw : Block Byte} {x : List Byte} (h : raw.Has 0 x) :
    (∃ enc text, Prog.Returns (urlEncode true raw x.length) (some enc) ∧
      Prog.Returns (encodedLen isUrlUnreserved true raw x.length) text.length ∧
      enc.size = text.length + 1 ∧ enc.Has 0 (text ++ [0]) ∧ 0 ∉ text ∧
      Escaped isUrlUnreserved true text ∧ Recovers urlDecodeInPlace enc text.length x ∧
      (Recovers percentDecodeInPlace enc text.length x ↔ space ∉ x)) ∧
    ∃ enc text, Prog.Returns (percentEncode true raw x.length) (some enc) ∧
      Prog.Returns (encodedLen isRfc3986Unreserved false raw x.length) text.length ∧
      enc.size = text.length + 1 ∧ enc.Has 0 (text ++ [0]) ∧ 0 ∉ text ∧
      Escaped isRfc3986Unreserved false text ∧ Recovers percentDecodeInPlace enc text.length x ∧
      Recovers urlDecodeInPlace enc text.length x := by
  constructor
  · obtain ⟨enc, hret, hsize, hhas⟩ := @encodeWith_returns isUrlUnreserved true raw x h
    have hesc : Escaped isUrlUnreserved true (escapedText isUrlUnreserved true x) := escapedText_escaped x
    refine ⟨enc, _, hret, encodedLen_returns h, hsize, hhas, hesc.zero_notMem isUrlUnreserved_plain,
      hesc, ?_, ?_⟩
    · refine (decodeInPlace_recovers_iff isUrlUnreserved_plain hhas).mpr fun c _ => ?_
      exact afterTrip_eq_self.mpr fun e => nomatch e.2.1
    · refine (decodeInPlace_recovers_iff isUrlUnreserved_plain hhas).trans ?_
      simp only [afterTrip_eq_self, true_and]
      constructor
      · exact fun hall hmem => hall _ hmem rfl
      · rintro hno c hc rfl
        exact hno hc
  · obtain ⟨enc, hret, hsize, hhas⟩ := @encodeWith_returns isRfc3986Unreserved false raw x h
    have hesc : Escaped isRfc3986Unreserved false (escapedText isRfc3986Unreserved false x) :=
      escapedText_escaped x
    have hback : ∀ plus', Recovers (decodeInPlace plus') enc
        (escapedText isRfc3986Unreserved false x).length x := by
      refine fun plus' => (decodeInPlace_recovers_iff isRfc3986Unreserved_plain hhas).mpr fun c _ => ?_
      exact afterTrip_eq_self.mpr fun e => nomatch e.1
    exact ⟨enc, _, hret, encodedLen_returns h, hsize, hhas, hesc.zero_notMem isRfc3986Unreserved_plain,
      hesc, hback false, hback true⟩

/-- The text `"a b"`. -/
theorem codecs_roundTrip_three :
    (∃ enc text, Prog.Returns (urlEncode true ⟨[some 97, some 32, some 98]⟩ 3) (some enc) ∧
      Prog.Returns (encodedLen isUrlUnreserved true ⟨[some 97, some 32, some 98]⟩ 3) text.length ∧
      enc.size = text.length + 1 ∧ enc.Has 0 (text ++ [0]) ∧ 0 ∉ text ∧
      Escaped isUrlUnreserved true text ∧ Recovers urlDecodeInPlace enc text.length [97, 32, 98] ∧
      (Recovers percentDecodeInPlace enc text.length [97, 32, 98] ↔ space ∉ [97, 32, 98])) ∧
    ∃ enc text, Prog.Returns (percentEncode true ⟨[some 97, some 32, some 98]⟩ 3) (some enc) ∧
      Prog.Returns (encodedLen isRfc3986Unreserved false ⟨[some 97, some 32, some 98]⟩ 3) text.length ∧
      enc.size = text.length + 1 ∧ enc.Has 0 (text ++ [0]) ∧ 0 ∉ text ∧
      Escaped isRfc3986Unreserved false text ∧
      Recovers percentDecodeInPlace enc text.length [97, 32, 98] ∧
      Recovers urlDecodeInPlace enc text.length [97, 32, 98] := by
  have h : (⟨[some 97, some 32, some 98]⟩ : Block Byte).Has 0 [97, 32, 98] := by
    simp [Block.has_cons, Block.has_nil, Block.read]
  exact codecs_roundTrip h

/-- The example of `url_encode_test`. -/
example : escapedText isUrlUnreserved true ("I love you!".toList.map fun c => UInt8.ofNat c.toNat) =
    "I+love+you%21".toList.map fun c => UInt8.ofNat c.toNat := by
  decide

end Libls.Percent
