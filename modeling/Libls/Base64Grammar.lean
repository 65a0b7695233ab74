import Mathlib.Tactic
import Libls.Base64RoundTrip

/-! # What `base64_decode` accepts

`IsBase64` is the grammar.  A pass of the loop sorts a group of four characters into one of three
kinds (`groupKind`), and it does not look at the fourth one where the third one is padding: the texts
that `base64_decode` accepts are those of the grammar and those that end in such a group
(`UnreadLast`). -/

namespace Libls.Base64

/-! ### The grammar -/

/-- Groups of four characters of the alphabet, the last one possibly with padding. -/
inductive IsBase64 : List Byte → Prop
  | nil : IsBase64 []
  | two {a b : Byte} (ha : a ∈ base64EncodeTable) (hb : b ∈ base64EncodeTable) : IsBase64 [a, b, pad, pad]
  | three {a b c : Byte} (ha : a ∈ base64EncodeTable) (hb : b ∈ base64EncodeTable)
      (hc : c ∈ base64EncodeTable) : IsBase64 [a, b, c, pad]
  | group {a b c d : Byte} {x : List Byte} (ha : a ∈ base64EncodeTable) (hb : b ∈ base64EncodeTable)
      (hc : c ∈ base64EncodeTable) (hd : d ∈ base64EncodeTable) (hx : IsBase64 x) :
      IsBase64 (a :: b :: c :: d :: x)

/-- Full groups and a last group of two characters of the alphabet, padding, and a character that is
not padding. -/
inductive UnreadLast : List Byte → Prop
  | last {a b c : Byte} (ha : a ∈ base64EncodeTable) (hb : b ∈ base64EncodeTable) (hc : c ≠ pad) :
      UnreadLast [a, b, pad, c]
  | group {a b c d : Byte} {x : List Byte} (ha : a ∈ base64EncodeTable) (hb : b ∈ base64EncodeTable)
      (hc : c ∈ base64EncodeTable) (hd : d ∈ base64EncodeTable) (hx : UnreadLast x) :
      UnreadLast (a :: b :: c :: d :: x)

/-! ### Groups -/

inductive GroupKind where
  | full
  | padded
  | refused
deriving DecidableEq, Repr

/-- What the fourth character of a group makes of it. -/
def fourthKind (d : Byte) : GroupKind :=
  if d ∈ base64EncodeTable then .full else if d = pad then .padded else .refused

/-- What the third and the fourth character make of a group; behind padding nothing is looked at. -/
def thirdKind (c d : Byte) : GroupKind :=
  if c ∈ base64EncodeTable then fourthKind d else if c = pad then .padded else .refused

/-- What a pass makes of a group. -/
def groupKind (a b c d : Byte) : GroupKind :=
  if a ∈ base64EncodeTable ∧ b ∈ base64EncodeTable then thirdKind c d else .refused

/-- The texts that the passes accept. -/
def Accepted : List Byte → Prop
  | [] => True
  | a :: b :: c :: d :: x =>
      match groupKind a b c d with
      | .full => Accepted x
      | .padded => x = []
      | .refused => False
  | _ => False

theorem pad_notMem_table : pad ∉ base64EncodeTable := by
  rw [encodeTable_eq]
  decide

variable {a b c d : Byte} {x : List Byte}

theorem groupKind_full : groupKind a b c d = .full ↔ a ∈ base64EncodeTable ∧ b ∈ base64EncodeTable ∧
    c ∈ base64EncodeTable ∧ d ∈ base64EncodeTable := by
  unfold groupKind thirdKind fourthKind
  split_ifs <;> simp_all

theorem groupKind_padded : groupKind a b c d = .padded ↔ a ∈ base64EncodeTable ∧ b ∈ base64EncodeTable ∧
    (c ∈ base64EncodeTable ∧ d = pad ∨ c = pad) := by
  have hpad : ∀ c ∈ base64EncodeTable, c ≠ pad := fun c hc he => pad_notMem_table (he ▸ hc)
  unfold groupKind thirdKind fourthKind
  split_ifs <;> simp_all

theorem accepted_group (ha : a ∈ base64EncodeTable) (hb : b ∈ base64EncodeTable)
    (hc : c ∈ base64EncodeTable) (hd : d ∈ base64EncodeTable) :
    Accepted (a :: b :: c :: d :: x) ↔ Accepted x := by
  rw [Accepted, groupKind_full.mpr ⟨ha, hb, hc, hd⟩]

theorem accepted_last (ha : a ∈ base64EncodeTable) (hb : b ∈ base64EncodeTable)
    (hcd : c ∈ base64EncodeTable ∧ d = pad ∨ c = pad) : Accepted [a, b, c, d] := by
  rw [Accepted, groupKind_padded.mpr ⟨ha, hb, hcd⟩]

/-- The accepted texts are those of the grammar and those with a character that is not read. -/
theorem accepted_iff : Accepted x ↔ IsBase64 x ∨ UnreadLast x := by
  constructor
  · intro h
    induction x using Accepted.induct with
    | case1 => exact .inl .nil
    | case2 a b c d x hkind ih =>
        obtain ⟨ha, hb, hc, hd⟩ := groupKind_full.mp hkind
        rcases ih ((accepted_group ha hb hc hd).mp h) with hx | hx
        · exact .inl (.group ha hb hc hd hx)
        · exact .inr (.group ha hb hc hd hx)
    | case3 a b c d x hkind =>
        rw [Accepted, hkind] at h
        obtain ⟨ha, hb, ⟨hc, rfl⟩ | rfl⟩ := groupKind_padded.mp hkind
        · rw [h]
          exact .inl (.three ha hb hc)
        · rw [h]
          rcases eq_or_ne d pad with rfl | hd
          · exact .inl (.two ha hb)
          · exact .inr (.last ha hb hd)
    | case4 a b c d x hkind =>
        rw [Accepted, hkind] at h
        exact h.elim
    | case5 x hnil hfour =>
        rw [Accepted] at h
        · exact h.elim
        · exact hnil
        · exact hfour
  · rintro (h | h)
    · induction h with
      | nil => trivial
      | two ha hb => exact accepted_last ha hb (.inr rfl)
      | three ha hb hc => exact accepted_last ha hb (.inl ⟨hc, rfl⟩)
      | group ha hb hc hd _ ih => exact (accepted_group ha hb hc hd).mpr ih
    · induction h with
      | last ha hb => exact accepted_last ha hb (.inr rfl)
      | group ha hb hc hd _ ih => exact (accepted_group ha hb hc hd).mpr ih

/-- A text with a character that is not read is not of the grammar. -/
theorem UnreadLast.not_isBase64 (h : UnreadLast x) : ¬ IsBase64 x := by
  induction h with
  | last ha hb hc =>
      intro hx
      cases hx with
      | two => exact hc rfl
      | three _ _ hpad => exact pad_notMem_table hpad
      | group _ _ hpad => exact pad_notMem_table hpad
  | group ha hb hc hd hlast ih =>
      intro hx
      cases hx with
      | two => exact pad_notMem_table hc
      | three => exact pad_notMem_table hd
      | group _ _ _ _ hx => exact ih hx

theorem UnreadLast.length (h : UnreadLast x) : 4 ∣ x.length := by
  induction h with
  | last => exact ⟨1, rfl⟩
  | @group a b c d x _ _ _ _ _ ih =>
      simp only [List.length_cons]
      omega

theorem IsBase64.length (h : IsBase64 x) : 4 ∣ x.length := by
  induction h with
  | nil => exact ⟨0, rfl⟩
  | two | three => exact ⟨1, rfl⟩
  | @group a b c d x _ _ _ _ _ ih =>
      simp only [List.length_cons]
      omega

/-! ### Codes -/

/-- `base64_decode_table[c]` -/
def code (c : Byte) : ℤ := base64DecodeTable.getD c.toNat (-2)

theorem code_table (h : c ∈ base64EncodeTable) : 0 ≤ code c ∧ code c < 64 := by
  obtain ⟨n, hn⟩ := List.mem_iff_getElem?.mp h
  have hlt : n < 64 := by
    rw [← encodeTable_length]
    exact (List.getElem?_eq_some_iff.mp hn).1
  have hc : alphabet n = c := Option.some.inj ((encodeTable_get hlt).symm.trans hn)
  have hcode : code c = n := by
    unfold code
    rw [List.getD_eq_getElem?_getD, ← hc, decodeTable_alphabet n hlt]
    rfl
  omega

theorem getElem_code (c : Byte) : base64DecodeTable[c.toNat]? = some (code c) := by
  have hlen : base64DecodeTable.length = 256 := by decide +kernel
  have hc := c.toNat_lt
  unfold code
  rw [List.getD_eq_getElem?_getD, List.getElem?_eq_getElem (by omega)]
  rfl

/-- The tables are inverse to each other. -/
theorem table_zipIdx : ∀ p ∈ base64DecodeTable.zipIdx, (0 ≤ p.1 ∧ base64EncodeTable[p.1.toNat]? = some (UInt8.ofNat p.2)) ∨
    (UInt8.ofNat p.2 = pad ∧ p.1 = -1) ∨ (UInt8.ofNat p.2 ≠ pad ∧ p.1 < -1) := by
  rw [encodeTable_eq]
  decide +kernel

theorem table_code (c : Byte) : (0 ≤ code c ∧ base64EncodeTable[(code c).toNat]? = some c) ∨ (c = pad ∧ code c = -1) ∨
    (c ≠ pad ∧ code c < -1) := by
  have h := table_zipIdx (code c, c.toNat) (List.mk_mem_zipIdx_iff_getElem?.mpr (getElem_code c))
  rwa [UInt8.ofNat_toNat] at h

/-- A byte is a character of the alphabet, padding, or neither. -/
theorem code_cases (c : Byte) : (c ∈ base64EncodeTable ∧ 0 ≤ code c ∧ code c < 64) ∨
    (c = pad ∧ code c = -1) ∨ (c ∉ base64EncodeTable ∧ c ≠ pad ∧ code c < -1) := by
  obtain ⟨-, hread⟩ | hpad | ⟨hc, hcode⟩ := table_code c
  · have hmem := List.mem_of_getElem? hread
    exact .inl ⟨hmem, code_table hmem⟩
  · exact .inr (.inl hpad)
  · refine .inr (.inr ⟨fun hmem => ?_, hc, hcode⟩)
    have := (code_table hmem).1
    omega

/-- The code of a character of the alphabet. -/
theorem code_mem (h : c ∈ base64EncodeTable) : ∃ n < 64, code c = (n : ℕ) := by
  obtain ⟨-, h0, hlt⟩ | ⟨rfl, -⟩ | ⟨hc, -⟩ := code_cases c
  · exact ⟨(code c).toNat, by omega, by omega⟩
  · exact absurd h pad_notMem_table
  · exact absurd h hc

/-- The code of another byte. -/
theorem code_notMem (h : c ∉ base64EncodeTable) : code c = -1 ∧ c = pad ∨ code c < -1 ∧ c ≠ pad := by
  obtain ⟨hc, -⟩ | ⟨hc, hcode⟩ | ⟨-, hc, hcode⟩ := code_cases c
  · exact absurd hc h
  · exact .inl ⟨hcode, hc⟩
  · exact .inr ⟨hcode, hc⟩

section pass
variable {encoded decoded : Block Byte} {i k round : ℕ} {o : Option ℕ}

theorem codeAt_of_read (h : encoded.read k = some a) : codeAt encoded k = some (code a) := by
  unfold codeAt
  rw [h]
  exact getElem_code a

theorem decodePass_refused {v : ℤ} (hi : i < round) (hround : round * 4 < 2 ^ 32)
    (hv : codeAt encoded (i * 4) = some v) (hneg : v < 0) :
    decodePass encoded round ⟨i, decoded, o⟩ = some (.done none) := by
  unfold decodePass
  rw [if_pos hi]
  simp (disch := omega) only [u32_of_lt, hv, Option.bind_eq_bind, Option.bind_some, if_pos hneg]
  rfl

theorem decodeSecond_refused {v : ℤ} (hi : i < round) (hround : round * 4 < 2 ^ 32)
    (hsize : i * 3 + 2 < decoded.size) {n : ℕ} (hn : codeAt encoded (i * 4) = some (n : ℤ))
    (hv : codeAt encoded (i * 4 + 1) = some v) (hneg : v < 0) :
    decodePass encoded round ⟨i, decoded, o⟩ = some (.done none) := by
  obtain ⟨d, hd, -⟩ := Block.write_of_lt (by omega : i * 3 < decoded.size) (UInt8.ofNat (n <<< 2))
  unfold decodePass decodeSecond setCode
  rw [if_pos hi]
  simp (disch := omega) only [u32_of_lt, hn, hd, hv, Int.toNat_natCast, Option.bind_eq_bind,
    Option.bind_some, if_pos hneg, if_neg (Int.not_lt.mpr (Int.natCast_nonneg _))]
  rfl

theorem decodeThird_refused {v : ℤ} (hi : i < round) (hround : round * 4 < 2 ^ 32)
    (hv : codeAt encoded (i * 4 + 2) = some v) (hneg : v < -1) :
    decodeThird encoded round ⟨i, decoded, o⟩ = some (.done none) := by
  unfold decodeThird
  simp (disch := omega) only [u32_of_lt, hv, Option.bind_eq_bind, Option.bind_some, if_pos hneg]
  rfl

theorem decodeFourth_refused {v : ℤ} (hi : i < round) (hround : round * 4 < 2 ^ 32)
    (hv : codeAt encoded (i * 4 + 3) = some v) (hneg : v < -1) :
    decodeFourth encoded round ⟨i, decoded, o⟩ = some (.done none) := by
  unfold decodeFourth
  simp (disch := omega) only [u32_of_lt, hv, Option.bind_eq_bind, Option.bind_some, if_pos hneg]
  rfl

/-- What a pass does, by the kind of its group. -/
inductive PassEffect (i size round : ℕ) (o : Option ℕ) :
    GroupKind → Iter DecodeLoop (Option DecodeLoop) → Prop
  | full {decoded : Block Byte} (h : decoded.size = size) :
      PassEffect i size round o .full (.next ⟨i + 1, decoded, o⟩)
  | padded {decoded : Block Byte} {n : ℕ} (h : decoded.size = size) (hn : n ≤ round * 3) :
      PassEffect i size round o .padded (.done (some ⟨i, decoded, some n⟩))
  | refused : PassEffect i size round o .refused (.done none)

theorem decodeFourth_effect {v : Byte} (hi : i < round) (hround : round * 4 < 2 ^ 32)
    (hv : decoded.read (i * 3 + 2) = some v) (hd : codeAt encoded (i * 4 + 3) = some (code d)) :
    ∃ r, decodeFourth encoded round ⟨i, decoded, o⟩ = some r ∧
      PassEffect i decoded.size round o (fourthKind d) r := by
  unfold fourthKind
  split
  · next hmem =>
      obtain ⟨n, -, hn⟩ := code_mem hmem
      rw [hn] at hd
      obtain ⟨decoded', hpass, hsize, -⟩ := decodeFourth_code (o := o) hi hround hv hd
      exact ⟨_, hpass, .full hsize⟩
  · next hmem =>
      obtain ⟨hcode, rfl⟩ | ⟨hcode, hne⟩ := code_notMem hmem
      · rw [hcode] at hd
        rw [if_pos rfl]
        exact ⟨_, decodeFourth_pad hi hround hd, .padded rfl (by omega)⟩
      · rw [if_neg hne]
        exact ⟨_, decodeFourth_refused hi hround hd hcode, .refused⟩

theorem decodeThird_effect {v : Byte} (hi : i < round) (hround : round * 4 < 2 ^ 32)
    (hsize : i * 3 + 2 < decoded.size) (hv : decoded.read (i * 3 + 1) = some v)
    (hc : codeAt encoded (i * 4 + 2) = some (code c)) (hd : codeAt encoded (i * 4 + 3) = some (code d)) :
    ∃ r, decodeThird encoded round ⟨i, decoded, o⟩ = some r ∧
      PassEffect i decoded.size round o (thirdKind c d) r := by
  unfold thirdKind
  split
  · next hmem =>
      obtain ⟨n, -, hn⟩ := code_mem hmem
      rw [hn] at hc
      obtain ⟨decoded', hpass, hs, -, hv', -⟩ := decodeThird_code (o := o) hi hround hsize hv hc
      rw [hpass, ← hs]
      exact decodeFourth_effect hi hround hv' hd
  · next hmem =>
      obtain ⟨hcode, rfl⟩ | ⟨hcode, hne⟩ := code_notMem hmem
      · rw [hcode] at hc
        rw [if_pos rfl]
        exact ⟨_, decodeThird_pad hi hround hc, .padded rfl (by omega)⟩
      · rw [if_neg hne]
        exact ⟨_, decodeThird_refused hi hround hc hcode, .refused⟩

theorem code_neg (h : c ∉ base64EncodeTable) : code c < 0 := by
  rcases code_notMem h with ⟨hcode, -⟩ | ⟨hcode, -⟩
  · omega
  · omega

/-- A pass does with a group what its kind says. -/
theorem decodePass_effect {l : List Byte} (hi : i < round) (hround : round * 4 < 2 ^ 32)
    (hsize : i * 3 + 2 < decoded.size) (h : encoded.Has (i * 4) (a :: b :: c :: d :: l)) :
    ∃ r, decodePass encoded round ⟨i, decoded, o⟩ = some r ∧
      PassEffect i decoded.size round o (groupKind a b c d) r := by
  obtain ⟨hr₀, hr₁, hr₂, hr₃⟩ := has_four h
  have h₀ := codeAt_of_read hr₀
  have h₁ := codeAt_of_read hr₁
  unfold groupKind
  by_cases ha : a ∈ base64EncodeTable
  · obtain ⟨n₀, -, hn₀⟩ := code_mem ha
    rw [hn₀] at h₀
    by_cases hb : b ∈ base64EncodeTable
    · obtain ⟨n₁, -, hn₁⟩ := code_mem hb
      rw [hn₁] at h₁
      obtain ⟨decoded', hpass, hs, -, hv, -⟩ := decodePass_two (o := o) hi hround hsize h₀ h₁
      rw [if_pos ⟨ha, hb⟩, hpass, ← hs]
      exact decodeThird_effect hi hround (by omega) hv (codeAt_of_read hr₂) (codeAt_of_read hr₃)
    · rw [if_neg fun hab => hb hab.2]
      exact ⟨_, decodeSecond_refused hi hround hsize h₀ h₁ (code_neg hb), .refused⟩
  · rw [if_neg fun hab => ha hab.1]
    exact ⟨_, decodePass_refused hi hround h₀ (code_neg ha), .refused⟩

end pass

/-! ### The loop -/

section loop
variable {encoded decoded : Block Byte} {i round : ℕ}

/-- The passes from a loop state on, and the lines after them. -/
def decodeRest (encoded : Block Byte) (round : ℕ) (s : DecodeLoop) : Prog (Option (Block Byte × ℕ)) := do
  match ← Prog.iterate (fun s => liftM (decodePass encoded round s)) s with
  | none => return none
  | some s => (decodeEnd round s : Option _)

/-- The result is a block if and only if `P`. -/
def Decides (p : Prog (Option (Block Byte × ℕ))) (P : Prop) : Prop :=
  ∃ r, Prog.Returns p r ∧ (r.isSome = true ↔ P)

theorem loop_done {s : DecodeLoop} {r : Option DecodeLoop}
    (h : decodePass encoded round s = some (.done r)) :
    Prog.Returns (Prog.iterate (fun s => liftM (decodePass encoded round s)) s) r :=
  .iterate_done (Prog.returns_lift.mpr h)

theorem Decides.of_next {s s' : DecodeLoop} {P : Prop} (h : decodePass encoded round s = some (.next s'))
    (h' : Decides (decodeRest encoded round s') P) : Decides (decodeRest encoded round s) P := by
  obtain ⟨r, hret, hr⟩ := h'
  obtain ⟨o, ho, hrest⟩ := Prog.returns_bind.mp hret
  have hloop : Prog.Returns (Prog.iterate (fun s => liftM (decodePass encoded round s)) s) o :=
    .iterate_next (Prog.returns_lift.mpr h) ho
  exact ⟨r, Prog.returns_bind.mpr ⟨o, hloop, hrest⟩, hr⟩

theorem Decides.of_refused {s : DecodeLoop} (h : decodePass encoded round s = some (.done none)) :
    Decides (decodeRest encoded round s) False :=
  ⟨none, Prog.returns_bind.mpr ⟨none, loop_done h, Prog.returns_pure.mpr rfl⟩, by simp⟩

/-- The lines after the loop refuse a text whose padding is not in the last group. -/
theorem Decides.of_done {s s' : DecodeLoop} {n : ℕ} (h : decodePass encoded round s = some (.done (some s')))
    (hlen : lenAfter round s' = some n) (hn : n < s'.decoded.size) :
    Decides (decodeRest encoded round s) (s'.i = round ∨ s'.i = round - 1) := by
  obtain ⟨d, hd, -⟩ := Block.write_of_lt hn 0
  by_cases hi : s'.i = round ∨ s'.i = round - 1
  · refine ⟨some (d, n), Prog.returns_bind.mpr ⟨some s', loop_done h, Prog.returns_lift.mpr ?_⟩, by simp [hi]⟩
    unfold decodeEnd
    rw [if_pos hi, hlen]
    show (s'.decoded.write n 0 >>= fun d => some (some (d, n))) = _
    rw [hd]
    rfl
  · refine ⟨none, Prog.returns_bind.mpr ⟨some s', loop_done h, Prog.returns_lift.mpr ?_⟩, by simp [hi]⟩
    unfold decodeEnd
    rw [if_neg hi]
    rfl

theorem Decides.congr {p : Prog (Option (Block Byte × ℕ))} {P Q : Prop} (h : Decides p P) (hPQ : P ↔ Q) :
    Decides p Q := by
  obtain ⟨r, hret, hr⟩ := h
  exact ⟨r, hret, hr.trans hPQ⟩

/-- The passes over the rest of a text. -/
theorem decodeRest_decides (hround : round * 4 < 2 ^ 32) (hi : i ≤ round) (hlen : x.length = (round - i) * 4)
    (hsize : decoded.size = round * 3 + 1) (h : encoded.Has (i * 4) x) :
    Decides (decodeRest encoded round ⟨i, decoded, none⟩) (Accepted x) := by
  induction x using Accepted.induct generalizing i decoded with
  | case1 =>
      simp only [List.length_nil] at hlen
      have hend : i = round := by omega
      have hpass : decodePass encoded round ⟨i, decoded, none⟩ = some (.done (some ⟨i, decoded, none⟩)) :=
        if_neg (by omega : ¬ i < round)
      have hafter : lenAfter round ⟨i, decoded, none⟩ = some (round * 3) := by
        unfold lenAfter
        rw [if_pos hend, u32_of_lt (by omega)]
      have hin : round * 3 < decoded.size := by omega
      refine (Decides.of_done hpass hafter hin).congr ?_
      exact iff_of_true (.inl hend) trivial
  | case2 a b c d x hkind ih =>
      simp only [List.length_cons] at hlen
      have hroom : i * 3 + 2 < decoded.size := by omega
      obtain ⟨r, hpass, heff⟩ := decodePass_effect (o := none) (by omega) hround hroom h
      rw [hkind] at heff
      cases heff with
      | @full decoded' hs =>
          have hrest : encoded.Has (i * 4 + 4) x := by
            have hgroup : encoded.Has (i * 4) ([a, b, c, d] ++ x) := h
            exact (Block.has_append.mp hgroup).2
          have hx := ih (by omega : i + 1 ≤ round) (by omega) (hs.trans hsize) (by rwa [Nat.succ_mul])
          refine (Decides.of_next hpass hx).congr ?_
          rw [Accepted, hkind]
  | case3 a b c d x hkind =>
      simp only [List.length_cons] at hlen
      have hroom : i * 3 + 2 < decoded.size := by omega
      obtain ⟨r, hpass, heff⟩ := decodePass_effect (o := none) (by omega) hround hroom h
      rw [hkind] at heff
      cases heff with
      | @padded decoded' n hs hn =>
          have hafter : lenAfter round ⟨i, decoded', some n⟩ = some n := if_neg (by omega : ¬ i = round)
          refine (Decides.of_done hpass hafter (by omega : n < decoded'.size)).congr ?_
          rw [Accepted, hkind, ← List.length_eq_zero_iff]
          show i = round ∨ i = round - 1 ↔ x.length = 0
          omega
  | case4 a b c d x hkind =>
      simp only [List.length_cons] at hlen
      have hroom : i * 3 + 2 < decoded.size := by omega
      obtain ⟨r, hpass, heff⟩ := decodePass_effect (o := none) (by omega) hround hroom h
      rw [hkind] at heff
      cases heff with
      | refused =>
          refine (Decides.of_refused hpass).congr ?_
          rw [Accepted, hkind]
  | case5 x hnil hfour =>
      match x with
      | [] => exact absurd rfl hnil
      | [_] | [_, _] | [_, _, _] =>
          simp only [List.length_cons, List.length_nil] at hlen
          omega
      | a :: b :: c :: d :: x => exact absurd rfl (hfour a b c d x)

end loop

theorem Accepted.length (h : Accepted x) : 4 ∣ x.length := by
  rcases accepted_iff.mp h with hx | hx
  · exact hx.length
  · exact hx.length

/-- `base64_decode` decides `Accepted`. -/
theorem base64Decode_decides {data : Block Byte} (hx : x.length < 2 ^ 32) (h : data.Has 0 x) :
    Decides (base64Decode true data x.length) (Accepted x) := by
  unfold base64Decode
  split
  · next hfour =>
      refine ⟨none, Prog.returns_pure.mpr rfl, iff_of_false nofun fun hacc => ?_⟩
      have := hacc.length
      simp only [Bool.true_eq_false, or_false] at hfour
      omega
  · next hfour =>
      simp only [Bool.true_eq_false, or_false, not_not] at hfour
      have hfit : u32 (x.length / 4 * 3 + 1) = x.length / 4 * 3 + 1 := u32_of_lt (by omega)
      rw [← Nat.zero_mul 4] at h
      exact decodeRest_decides (by omega) (Nat.zero_le _) (by omega) (by rw [hfit]; exact Block.size_realloc) h

/-! ### The texts that are accepted -/

/-- `base64_decode` returns a block for the texts of the grammar, and `NULL` for all others. -/
def DecodesGrammar (data : Block Byte) (x : List Byte) : Prop :=
  (IsBase64 x → ∃ r, Prog.Returns (base64Decode true data x.length) (some r)) ∧
    (¬ IsBase64 x → Prog.Returns (base64Decode true data x.length) none)

/-- **Which texts `base64_decode` accepts.**  It decides the grammar for every text, of any length and
of any bytes, but those in which padding comes third in the last group and something else behind
it: these it accepts. -/
theorem base64Decode_grammar_iff {data : Block Byte} {x : List Byte} (hx : x.length < 2 ^ 32)
    (h : data.Has 0 x) : DecodesGrammar data x ↔ ¬ UnreadLast x := by
  obtain ⟨r, hret, hr⟩ := base64Decode_decides hx h
  rw [accepted_iff] at hr
  constructor
  · rintro ⟨-, hrefuse⟩ hlast
    obtain rfl := hret.unique (hrefuse hlast.not_isBase64)
    exact absurd (hr.mpr (.inr hlast)) nofun
  · intro hlast
    cases r with
    | none =>
        refine ⟨fun hgram => absurd (hr.mpr (.inl hgram)) nofun, fun _ => hret⟩
    | some r =>
        refine ⟨fun _ => ⟨r, hret⟩, fun hgram => ?_⟩
        rcases hr.mp rfl with hx | hx
        · exact absurd hx hgram
        · exact absurd hx hlast

/-- `QUI=` -/
theorem base64Decode_grammar_iff_four :
    DecodesGrammar ⟨[some 81, some 85, some 73, some 61]⟩ [81, 85, 73, 61] ↔ ¬ UnreadLast [81, 85, 73, 61] := by
  have h : (⟨[some 81, some 85, some 73, some 61]⟩ : Block Byte).Has 0 [81, 85, 73, 61] := by
    simp [Block.has_cons, Block.has_nil, Block.read]
  exact base64Decode_grammar_iff (by decide) h

/-- `QQ=A` is decoded to one byte. -/
theorem base64Decode_unread :
    Prog.Returns (base64Decode true ⟨[some 81, some 81, some 61, some 65]⟩ 4)
        (some (⟨[some 65, some 0, none, none]⟩, 1)) ∧ ¬ IsBase64 [81, 81, 61, 65] := by
  refine ⟨⟨2, by decide +kernel⟩, UnreadLast.not_isBase64 (.last ?_ ?_ (by decide))⟩
  · decide
  · decide

end Libls.Base64
