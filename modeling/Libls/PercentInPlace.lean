import Mathlib.Tactic
import Libls.Percent

/-! # Decoding in place

The decoders read and write the same block.  `decodeCopy` decodes a text that does not change, and
`decodeInPlace_copy` says that a decoder leaves just that in the block: it never writes behind the
place that it reads next.  A block may end where the text does, so that an access behind the text
would have no result. -/

namespace Libls.Percent

/-! ### Decoding from a copy -/

/-- The byte of an escape. -/
def escapeByte (hi lo : Byte) : Byte := UInt8.ofNat ((hexToBin hi).toNat <<< 4 ||| (hexToBin lo).toNat)

/-- The byte of a character that is no percent sign. -/
def charByte (plus : Bool) (c : Byte) : Byte := if plus ∧ c = plusSign then space else c

/-- Decoding a text; nothing if a percent sign is not followed by two digits. -/
def decodeCopy (plus : Bool) : List Byte → Option (List Byte)
  | [] => some []
  | c :: t =>
      if c = percentSign then
        match t with
        | hi :: lo :: t =>
            if isxdigit hi ∧ isxdigit lo then (decodeCopy plus t).map fun y => escapeByte hi lo :: y
            else none
        | _ => none
      else (decodeCopy plus t).map fun y => charByte plus c :: y

/-- The text begins with two digits. -/
def DigitsFollow (t : List Byte) : Prop :=
  ∃ hi lo u, t = hi :: lo :: u ∧ isxdigit hi = true ∧ isxdigit lo = true

/-- Scanning a text from left to right, an escape at a time, one gets to the rest `u`. -/
inductive Reaches : List Byte → List Byte → Prop where
  | here (u : List Byte) : Reaches u u
  | char {c : Byte} {t u : List Byte} (hc : c ≠ percentSign) (h : Reaches t u) : Reaches (c :: t) u
  | escape {hi lo : Byte} {t u : List Byte} (hhi : isxdigit hi = true) (hlo : isxdigit lo = true)
      (h : Reaches t u) : Reaches (percentSign :: hi :: lo :: t) u

/-- The scan gets to a percent sign without two digits. -/
def Malformed (t : List Byte) : Prop := ∃ u, Reaches t (percentSign :: u) ∧ ¬ DigitsFollow u

variable {plus : Bool} {c hi lo : Byte} {t y : List Byte}

theorem decodeCopy_char (hc : c ≠ percentSign) :
    decodeCopy plus (c :: t) = (decodeCopy plus t).map fun y => charByte plus c :: y := by
  match t with
  | [] => exact if_neg hc
  | [_] => exact if_neg hc
  | _ :: _ :: _ => exact if_neg hc

theorem decodeCopy_escape (hhi : isxdigit hi = true) (hlo : isxdigit lo = true) :
    decodeCopy plus (percentSign :: hi :: lo :: t) =
      (decodeCopy plus t).map fun y => escapeByte hi lo :: y :=
  (if_pos rfl).trans (if_pos ⟨hhi, hlo⟩)

theorem decodeCopy_malformed (h : ¬ DigitsFollow t) : decodeCopy plus (percentSign :: t) = none := by
  match t with
  | [] => rfl
  | [_] => rfl
  | hi :: lo :: t => exact (if_pos rfl).trans (if_neg fun hd => h ⟨hi, lo, t, rfl, hd.1, hd.2⟩)

/-- How a text begins. -/
theorem text_cases (t : List Byte) : t = [] ∨ (∃ c u, t = c :: u ∧ c ≠ percentSign) ∨
    (∃ hi lo u, t = percentSign :: hi :: lo :: u ∧ isxdigit hi = true ∧ isxdigit lo = true) ∨
    ∃ u, t = percentSign :: u ∧ ¬ DigitsFollow u := by
  cases t with
  | nil => exact .inl rfl
  | cons c u =>
      by_cases hc : c = percentSign
      · subst hc
        by_cases hd : DigitsFollow u
        · obtain ⟨hi, lo, u, rfl, hhi, hlo⟩ := hd
          exact .inr (.inr (.inl ⟨hi, lo, u, rfl, hhi, hlo⟩))
        · exact .inr (.inr (.inr ⟨u, rfl, hd⟩))
      · exact .inr (.inl ⟨c, u, rfl, hc⟩)

theorem malformed_char (hc : c ≠ percentSign) : Malformed (c :: t) ↔ Malformed t := by
  constructor
  · rintro ⟨u, h, hd⟩
    cases h with
    | here => exact absurd rfl hc
    | char _ h => exact ⟨u, h, hd⟩
    | escape => exact absurd rfl hc
  · rintro ⟨u, h, hd⟩
    exact ⟨u, .char hc h, hd⟩

theorem malformed_escape (hhi : isxdigit hi = true) (hlo : isxdigit lo = true) :
    Malformed (percentSign :: hi :: lo :: t) ↔ Malformed t := by
  constructor
  · rintro ⟨u, h, hd⟩
    cases h with
    | here => exact absurd ⟨hi, lo, t, rfl, hhi, hlo⟩ hd
    | char hc => exact absurd rfl hc
    | escape _ _ h => exact ⟨u, h, hd⟩
  · rintro ⟨u, h, hd⟩
    exact ⟨u, .escape hhi hlo h, hd⟩

/-- The texts that cannot be decoded. -/
theorem decodeCopy_eq_none : decodeCopy plus t = none ↔ Malformed t := by
  induction hlen : t.length using Nat.strongRecOn generalizing t with
  | _ n ih =>
      subst hlen
      obtain rfl | ⟨c, u, rfl, hc⟩ | ⟨hi, lo, u, rfl, hhi, hlo⟩ | ⟨u, rfl, hd⟩ := text_cases t
      · refine iff_of_false (Option.some_ne_none _) ?_
        rintro ⟨u, h, -⟩
        cases h
      · rw [decodeCopy_char hc, Option.map_eq_none_iff, malformed_char hc]
        apply ih u.length _ rfl
        simp
      · rw [decodeCopy_escape hhi hlo, Option.map_eq_none_iff, malformed_escape hhi hlo]
        apply ih u.length _ rfl
        simp only [List.length_cons]
        omega
      · exact iff_of_true (decodeCopy_malformed hd) ⟨u, .here _, hd⟩

/-! ### A pass -/

variable {fin : ℕ} {s : DecodeLoop} {enc enc' : Block Byte}

/-- Only the byte `c` at `i` has been written. -/
structure Wrote (enc enc' : Block Byte) (i : ℕ) (c : Byte) : Prop where
  size : enc'.size = enc.size
  read : ∀ j, enc'.read j = if j = i then some c else enc.read j

theorem wrote_of_lt {i : ℕ} (h : i < enc.size) (c : Byte) :
    ∃ enc', enc.write i c = some enc' ∧ Wrote enc enc' i c := by
  obtain ⟨enc', hw, hs, hr⟩ := Block.write_of_lt h c
  exact ⟨enc', hw, hs, hr⟩

theorem copyChar_spec (h : s.enc.read s.src = some c) (hle : s.dst ≤ s.src) :
    ∃ enc', copyChar s c = some enc' ∧ Wrote s.enc enc' s.dst c := by
  unfold copyChar
  split
  · exact wrote_of_lt (lt_of_le_of_lt hle (Block.lt_of_read h)) c
  · next heq =>
      refine ⟨s.enc, rfl, rfl, fun j => ?_⟩
      split
      · next hj =>
          rw [hj, not_not.mp heq]
          exact h
      · rfl

/-- A pass over a character. -/
theorem decodePass_char (hc : s.enc.read s.src = some c) (hle : s.dst ≤ s.src) (hfin : s.src < fin)
    (hpercent : c ≠ percentSign) :
    ∃ enc', decodePass plus fin s = some (.next ⟨s.dst + 1, s.src + 1, enc'⟩) ∧
      Wrote s.enc enc' s.dst (charByte plus c) := by
  unfold decodePass charByte
  rw [if_pos hfin, hc]
  simp only [Option.bind_eq_bind, Option.bind_some]
  rw [if_neg hpercent]
  split
  · obtain ⟨enc', hw, hwrote⟩ := wrote_of_lt (lt_of_le_of_lt hle (Block.lt_of_read hc)) space
    refine ⟨enc', ?_, hwrote⟩
    rw [hw]
    rfl
  · obtain ⟨enc', hcopy, hwrote⟩ := copyChar_spec hc hle
    refine ⟨enc', ?_, hwrote⟩
    rw [hcopy]
    rfl

/-- A pass over an escape. -/
theorem decodePass_escape (h : s.enc.Has s.src (percentSign :: hi :: lo :: t)) (hle : s.dst ≤ s.src)
    (hfin : s.src + 3 ≤ fin) (hhi : isxdigit hi = true) (hlo : isxdigit lo = true) :
    ∃ enc', decodePass plus fin s = some (.next ⟨s.dst + 1, s.src + 3, enc'⟩) ∧
      Wrote s.enc enc' s.dst (escapeByte hi lo) := by
  obtain ⟨hc, h⟩ := Block.has_cons.mp h
  obtain ⟨hrhi, h⟩ := Block.has_cons.mp h
  obtain ⟨hrlo, -⟩ := Block.has_cons.mp h
  obtain ⟨enc', hw, hwrote⟩ := wrote_of_lt (lt_of_le_of_lt hle (Block.lt_of_read hc)) (escapeByte hi lo)
  have hescape : decodeEscape fin s = some (some { s with src := s.src + 2, enc := enc' }) := by
    unfold decodeEscape
    rw [if_neg (by omega), hrhi]
    simp only [Option.bind_eq_bind, Option.bind_some]
    rw [if_pos hhi, hrlo]
    simp only [Option.bind_some]
    rw [if_pos hlo]
    show ((s.enc.write s.dst (escapeByte hi lo)).bind fun e => some (some _)) = _
    rw [hw]
    rfl
  refine ⟨enc', ?_, hwrote⟩
  unfold decodePass
  rw [if_pos (by omega), hc]
  simp only [Option.bind_eq_bind, Option.bind_some]
  rw [if_pos trivial, hescape]
  rfl

/-- A pass over a percent sign without two digits in the text. -/
theorem decodePass_malformed (h : s.enc.Has s.src (percentSign :: t)) (hfin : s.src + 1 + t.length = fin)
    (hd : ¬ DigitsFollow t) : decodePass plus fin s = some (.done (s.enc, -1)) := by
  obtain ⟨hc, h⟩ := Block.has_cons.mp h
  have hescape : decodeEscape fin s = some none := by
    unfold decodeEscape
    match t with
    | [] => exact if_pos (by simp at hfin; omega)
    | [_] => exact if_pos (by simp at hfin; omega)
    | hi :: lo :: t =>
        rw [List.length_cons, List.length_cons] at hfin
        obtain ⟨hrhi, h⟩ := Block.has_cons.mp h
        obtain ⟨hrlo, -⟩ := Block.has_cons.mp h
        rw [if_neg (by omega), hrhi]
        simp only [Option.bind_eq_bind, Option.bind_some]
        by_cases hhi : isxdigit hi = true
        · have hlo : ¬ isxdigit lo = true := fun hlo => hd ⟨hi, lo, t, rfl, hhi, hlo⟩
          rw [if_pos hhi, hrlo]
          exact if_neg hlo
        · exact if_neg hhi
  unfold decodePass
  rw [if_pos (by omega), hc]
  simp only [Option.bind_eq_bind, Option.bind_some]
  rw [if_pos trivial, hescape]
  rfl

/-! ### The loop -/

/-- What a decoder leaves of a text that ends at `fin`. -/
structure Decoded (fin : ℕ) (enc enc' : Block Byte) (ret : ℤ) (text : Option (List Byte)) : Prop where
  size : enc'.size = enc.size
  behind : ∀ j, fin ≤ j → enc'.read j = enc.read j
  fails : text = none → ret = -1
  holds : ∀ y, text = some y → ret = y.length ∧ enc'.Has 0 y

theorem Wrote.unread {i j : ℕ} (h : Wrote enc enc' i c) (hi : i < j) (ht : enc.Has j t) : enc'.Has j t := by
  apply ht.congr
  intro k hk _
  rw [h.read, if_neg (by omega)]

theorem Wrote.done {i : ℕ} (h : Wrote enc enc' i c) (hi : i = y.length) (hy : enc.Has 0 y) :
    enc'.Has 0 (y ++ [c]) := by
  rw [Block.has_append, Block.has_cons, Nat.zero_add]
  refine ⟨?_, ?_, Block.has_nil⟩
  · apply hy.congr
    intro k _ hk
    rw [h.read, if_neg (by omega)]
  · rw [h.read, if_pos hi.symm]

theorem Wrote.decoded {enc'' : Block Byte} {i : ℕ} {ret : ℤ} {text : Option (List Byte)}
    (h : Wrote enc enc' i c) (hi : i < fin) (h' : Decoded fin enc' enc'' ret text) :
    Decoded fin enc enc'' ret text := by
  refine ⟨h'.size.trans h.size, ?_, h'.fails, h'.holds⟩
  intro j hj
  rw [h'.behind j hj, h.read, if_neg (by omega)]

/-- The passes of a decoder over the rest `t` of a text, with `y` decoded before. -/
theorem decode_copy (h : s.enc.Has s.src t) (hle : s.dst ≤ s.src) (hfin : s.src + t.length = fin)
    (hy : s.enc.Has 0 y) (hdst : s.dst = y.length) :
    ∃ enc' ret, Prog.Returns (Prog.iterate (fun s => liftM (decodePass plus fin s)) s) (enc', ret) ∧
      Decoded fin s.enc enc' ret ((decodeCopy plus t).map fun z => y ++ z) := by
  induction hlen : t.length using Nat.strongRecOn generalizing s t y with
  | _ n ih =>
      subst hlen
      -- a pass that decodes the byte `c` and leaves the rest `u`
      have hnext : ∀ c u src enc', u.length < t.length → s.src < src → src + u.length = fin →
          s.enc.Has src u → Wrote s.enc enc' s.dst c →
          decodePass plus fin s = some (.next ⟨s.dst + 1, src, enc'⟩) →
          decodeCopy plus t = (decodeCopy plus u).map (fun z => c :: z) →
          ∃ enc' ret, Prog.Returns (Prog.iterate (fun s => liftM (decodePass plus fin s)) s) (enc', ret) ∧
            Decoded fin s.enc enc' ret ((decodeCopy plus t).map fun z => y ++ z) := by
        intro c u src enc' hlt hsrc hend hu hwrote hpass hcopy
        have hbehind : s.dst < src := by omega
        have hlen : s.dst + 1 = (y ++ [c]).length := by rw [hdst, List.length_append, List.length_singleton]
        obtain ⟨enc'', ret, hret, hdec⟩ := @ih u.length hlt u (y ++ [c]) ⟨s.dst + 1, src, enc'⟩
          (hwrote.unread hbehind hu) hbehind hend (hwrote.done hdst hy) hlen rfl
        refine ⟨enc'', ret, Prog.Returns.iterate_next (Prog.returns_lift.mpr hpass) hret, ?_⟩
        rw [hcopy, Option.map_map]
        have hsame : (fun z => y ++ z) ∘ (fun z => c :: z) = fun z => (y ++ [c]) ++ z := by
          funext z
          simp
        rw [hsame]
        exact hwrote.decoded (by omega : s.dst < fin) hdec
      obtain rfl | ⟨c, u, rfl, hc⟩ | ⟨hi, lo, u, rfl, hhi, hlo⟩ | ⟨u, rfl, hd⟩ := text_cases t
      · rw [List.length_nil] at hfin
        refine ⟨s.enc, s.dst, Prog.Returns.iterate_done (Prog.returns_lift.mpr ?_), rfl, fun _ _ => rfl, nofun, ?_⟩
        · unfold decodePass
          rw [if_neg (by omega)]
          rfl
        · intro z hz
          obtain rfl : y ++ [] = z := Option.some.inj hz
          rw [List.append_nil]
          exact ⟨congrArg Nat.cast hdst, hy⟩
      · rw [List.length_cons] at hfin
        obtain ⟨hread, hu⟩ := Block.has_cons.mp h
        obtain ⟨enc', hpass, hwrote⟩ := decodePass_char hread hle (by omega : s.src < fin) hc
        exact hnext _ u (s.src + 1) enc' (by simp) (by omega) (by omega) hu hwrote hpass (decodeCopy_char hc)
      · simp only [List.length_cons] at hfin
        obtain ⟨enc', hpass, hwrote⟩ := decodePass_escape h hle (by omega : s.src + 3 ≤ fin) hhi hlo
        have hsplit : s.enc.Has s.src ([percentSign, hi, lo] ++ u) := h
        have hu := (Block.has_append.mp hsplit).2
        have hlt : u.length < (percentSign :: hi :: lo :: u).length := by
          simp only [List.length_cons]
          omega
        exact hnext _ u (s.src + 3) enc' hlt (by omega) (by omega) hu hwrote hpass (decodeCopy_escape hhi hlo)
      · rw [List.length_cons] at hfin
        have hpass : decodePass plus fin s = some (.done (s.enc, -1)) :=
          decodePass_malformed h (by omega) hd
        refine ⟨s.enc, -1, Prog.Returns.iterate_done (Prog.returns_lift.mpr hpass), rfl, fun _ _ => rfl,
          fun _ => rfl, ?_⟩
        intro z hz
        rw [decodeCopy_malformed hd] at hz
        cases hz

/-- A decoder that is given a block leaves in it what decoding a copy gives, and returns its length; it
returns -1 for the texts that are malformed. -/
theorem decodeInPlace_copy {x : List Byte} (h : enc.Has 0 x) :
    ∃ enc' ret, Prog.Returns (decodeInPlace plus enc x.length) (enc', ret) ∧
      Decoded x.length enc enc' ret (decodeCopy plus x) := by
  have hloop := @decode_copy plus x [] x.length ⟨0, 0, enc⟩ h le_rfl (Nat.zero_add _) Block.has_nil rfl
  have hid : (fun z : List Byte => [] ++ z) = id := rfl
  rwa [hid, Option.map_id] at hloop

/-- In a block that begins with `x` the decoder returns -1 if and only if `x` is malformed, and otherwise
leaves the text of `decodeCopy` and returns its length; nothing behind `x` is read or changed. -/
def InPlace (decode : Block Byte → ℕ → Prog (Block Byte × ℤ)) (plus : Bool) : Prop :=
  ∀ (enc : Block Byte) (x : List Byte), enc.Has 0 x → ∃ enc' ret,
    Prog.Returns (decode enc x.length) (enc', ret) ∧ enc'.size = enc.size ∧
      (∀ j, x.length ≤ j → enc'.read j = enc.read j) ∧ (ret = -1 ↔ Malformed x) ∧
      (¬ Malformed x → ∃ y, decodeCopy plus x = some y ∧ ret = y.length ∧ enc'.Has 0 y)

theorem decodeInPlace_inPlace (plus : Bool) : InPlace (decodeInPlace plus) plus := by
  intro enc x h
  obtain ⟨enc', ret, hret, hdec⟩ := @decodeInPlace_copy plus enc x h
  refine ⟨enc', ret, hret, hdec.size, hdec.behind, ?_⟩
  rw [← @decodeCopy_eq_none plus]
  cases hcopy : decodeCopy plus x with
  | none => exact ⟨iff_of_true (hdec.fails hcopy) rfl, fun hne => absurd rfl hne⟩
  | some y =>
      obtain ⟨hlen, hy⟩ := hdec.holds y hcopy
      refine ⟨iff_of_false ?_ (Option.some_ne_none y), fun _ => ⟨y, rfl, hlen, hy⟩⟩
      omega

/-- **Decoding in place is decoding from a copy.** -/
theorem decoders_inPlace : InPlace urlDecodeInPlace true ∧ InPlace percentDecodeInPlace false :=
  ⟨decodeInPlace_inPlace true, decodeInPlace_inPlace false⟩

end Libls.Percent
