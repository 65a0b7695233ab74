import Mathlib.Tactic
import Libls.CsvReaderRuns

/-! # The end of a CSV file

At the end of a file without a last line end the passes of `parse_csv` are left in several places,
and not all of them do what they would do at a line end: behind a comma the empty field is missing,
and behind an opening or a doubled quote the record is handed over although the field is open.
`csvParse_newline_iff` and `csvParse_malformed_iff` say that these are, apart from a last line that
`file_each_line` loses, the only differences. -/

namespace Libls.Csv
open FileLines Strings

variable {r : Reader} {text content : List Byte} {c : Byte}

namespace Reader

theorem read_concat (r : Reader) (text : List Byte) (c : Byte) :
    r.read (text ++ [c]) = (r.read text).step c := List.foldl_append

theorem step_bad (h : r.mode = .bad) (c : Byte) : r.step c = r := read_bad h [c]

/-! ### The last byte -/

/-- What reading the byte `c` can do. -/
inductive Moves (r : Reader) (c : Byte) : Reader → Prop where
  | record (v : List Byte) : c = newline → Moves r c (r.endRecord v)
  | field : c = comma → Moves r c r.endField
  | opened (g : List Byte) : c = quote → Moves r c { r with mode := .quoted true, field := g }
  | inside (g : List Byte) (n : ℕ) : c ≠ quote →
      Moves r c { r with mode := .quoted false, field := g, lines := n }
  | on (mode : Mode) (g : List Byte) : mode = .plain ∨ mode = .closed ∨ mode = .closedCr → c ≠ comma →
      c ≠ newline → Moves r c { r with mode := mode, field := g }
  | bad : Moves r c { r with mode := .bad }

theorem plainStep_moves (r : Reader) (c : Byte) : r.Moves c (r.plainStep c) := by
  unfold plainStep
  split
  · next hc => exact .field hc
  · next hc =>
      split
      · next hn => exact .record _ hn
      · next hn => exact .on .plain _ (.inl rfl) hc hn

theorem quotedStep_moves (r : Reader) (c : Byte) : r.Moves c (r.quotedStep c) := by
  unfold quotedStep
  split
  · next hq =>
      subst hq
      exact .on .closed r.field (.inr (.inl rfl)) (by decide) (by decide)
  · next hq => exact .inside _ _ hq

theorem closedStep_moves (r : Reader) (c : Byte) : r.Moves c (r.closedStep c) := by
  unfold closedStep
  split
  · next hq => exact .opened _ hq
  · split
    · next hc => exact .field hc
    · next hc =>
        split
        · next hn => exact .record _ hn
        · next hn =>
            split
            · exact .on .closedCr r.field (.inr (.inr rfl)) hc hn
            · exact .bad

theorem step_moves (r : Reader) (c : Byte) : r.Moves c (r.step c) := by
  unfold step
  split
  · split
    · next hq => exact .opened r.field hq
    · exact r.plainStep_moves c
  · exact r.plainStep_moves c
  · exact r.quotedStep_moves c
  · exact r.closedStep_moves c
  · split
    · next hn => exact .record _ hn
    · exact .bad
  · next hbad =>
      have hsame : { r with mode := .bad } = r := by rw [← hbad]
      rw [← hsame]
      exact .bad

variable {r' : Reader}

/-- A byte that is no line end ends no record. -/
theorem Moves.records (h : r.Moves c r') (hc : c ≠ newline) : r'.records = r.records := by
  cases h with
  | record v hn => exact absurd hn hc
  | _ => rfl

/-- Where no line has ended, a field begins only behind a comma. -/
theorem Moves.start (h : r.Moves c r') (hc : c ≠ newline) (hstart : r'.mode = .start) :
    c = comma ∧ r'.fields ≠ [] ∧ r'.field = [] := by
  cases h with
  | record v hn => exact absurd hn hc
  | field he => exact ⟨he, by simp [endField], rfl⟩
  | opened g => cases hstart
  | inside g n => cases hstart
  | on mode g hmode =>
      have hm : mode = .start := hstart
      subst hm
      rcases hmode with h | h | h <;> cases h
  | bad => cases hstart

/-- Behind a comma that is not in a quoted field a field begins. -/
theorem Moves.comma (h : r.Moves comma r') (hopen : r'.isOpen = false) (hbad : r'.mode ≠ .bad) :
    r'.mode = .start := by
  cases h with
  | record v => rfl
  | field => rfl
  | opened g => cases hopen
  | inside g n => cases hopen
  | on mode g _ hc => exact absurd rfl hc
  | bad => exact absurd rfl hbad

/-- An open field is fresh behind a quote. -/
theorem Moves.fresh {fresh : Bool} (h : r.Moves c r') (hquoted : r'.mode = .quoted fresh) :
    fresh = true ↔ c = quote := by
  cases h with
  | record v => cases hquoted
  | field => cases hquoted
  | opened g hq =>
      cases hquoted
      exact iff_of_true rfl hq
  | inside g n hq =>
      cases hquoted
      exact iff_of_false Bool.false_ne_true hq
  | on mode g hmode =>
      have hm : mode = .quoted fresh := hquoted
      subst hm
      rcases hmode with h | h | h <;> cases h
  | bad => cases hquoted

/-- A record is left of a text that is not well formed if a quoted field is open behind a quote. -/
theorem Moves.malformed (h : r.Moves c r') (hmal : r'.malformed = true) :
    r'.last = none ↔ ¬ (r'.isOpen = true ∧ c = quote) := by
  rcases (Bool.or_eq_true _ _).mp hmal with hopen | hbad
  · obtain ⟨fresh, hmode⟩ : ∃ fresh, r'.mode = .quoted fresh := by
      unfold isOpen at hopen
      split at hopen
      · next fresh hmode => exact ⟨fresh, hmode⟩
      · cases hopen
    rw [and_iff_right hopen, ← h.fresh hmode, Reader.last, hmode]
    cases fresh with
    | false => exact iff_of_true rfl Bool.false_ne_true
    | true => exact iff_of_false (Option.some_ne_none _) (fun h => h rfl)
  · have hmode : r'.mode = .bad := beq_iff_eq.mp hbad
    have hopen : r'.isOpen = false := by rw [isOpen, hmode]
    have hlast : r'.last = none := by rw [Reader.last, hmode]
    refine iff_of_true hlast (fun h => ?_)
    rw [hopen] at h
    exact Bool.false_ne_true h.1

/-- Behind a line end no record is left. -/
theorem Moves.last (h : r.Moves newline r') : r'.last = none := by
  cases h with
  | record v => rfl
  | field he => cases he
  | opened g he => cases he
  | inside g n => rfl
  | on mode g _ _ hn => exact absurd rfl hn
  | bad => rfl

/-- A text without a line end ends no record. -/
theorem read_records (hn : newline ∉ text) : (r.read text).records = r.records := by
  induction text generalizing r with
  | nil => rfl
  | cons c text ih =>
      rw [List.mem_cons, not_or] at hn
      rw [read_cons, ih hn.2, (r.step_moves c).records (Ne.symm hn.1)]

/-- At the beginning of a line no record is left. -/
theorem read_last (h : text = [] ∨ ∃ t, text = t ++ [newline]) : (init.read text).last = none := by
  rcases h with rfl | ⟨t, rfl⟩
  · rfl
  · rw [read_concat]
    exact (step_moves _ _).last

/-! ### A last line end -/

/-- The record that a line end ends. -/
theorem step_newline (hopen : r.isOpen = false) (hbad : r.mode ≠ .bad) :
    ∃ v, r.step newline = r.endRecord v ∧ (r.mode ≠ .start → r.last = some (r.fields ++ [v])) := by
  unfold step last
  cases hmode : r.mode with
  | start => exact ⟨_, rfl, fun h => absurd rfl h⟩
  | plain => exact ⟨_, rfl, fun _ => rfl⟩
  | quoted fresh =>
      rw [isOpen, hmode] at hopen
      cases hopen
  | closed => exact ⟨_, rfl, fun _ => rfl⟩
  | closedCr => exact ⟨_, rfl, fun _ => rfl⟩
  | bad => exact absurd hmode hbad

/-- With the line end there is one record more. -/
theorem delivered_endRecord (r : Reader) (v : List Byte) :
    (r.endRecord v).delivered = r.records ++ [(r.lines + 1, r.fields ++ [v])] := List.append_nil _

theorem delivered_none (h : r.last = none) : r.delivered = r.records := by
  rw [delivered, h]
  exact List.append_nil _

theorem delivered_some {fields : List (List Byte)} (h : r.last = some fields) :
    r.delivered = r.records ++ [(r.lines + 1, fields)] := by
  rw [delivered, h]
  rfl

end Reader

/-! ### Two files -/

/-- `csv_parse` returns `ret`, having called the callback with `calls`. -/
def Parses (lineMax : ℕ) (content : List Byte) (calls : List Call) (ret : ℤ) : Prop :=
  Prog.Returns (csvParse noFailure noFailure (callback keep) lineMax (some { rest := content }) [])
    (calls, ret)

/-- The fields of a call and their number. -/
def Call.record (c : Call) : List (Option (List Byte)) × ℕ := (c.fields, c.n)

/-- For two files the same records are handed over. -/
def SameRecords (lineMax : ℕ) (content content' : List Byte) : Prop :=
  ∃ calls calls' ret ret', Parses lineMax content calls ret ∧ Parses lineMax content' calls' ret' ∧
    calls.map Call.record = calls'.map Call.record

variable {lineMax : ℕ}

theorem parses (hmax : 2 ≤ lineMax) (hfit : Fits lineMax (splitLines newline content))
    (htext : HandsOver lineMax content text) (h0 : (0 : Byte) ∉ content) (hs : Reader.init.Sized text) :
    Parses lineMax content ((Reader.init.read text).delivered.map callOf)
      (if (Reader.init.read text).malformed then -1 else 0) := by
  have h := csvParse_reads hmax hfit htext h0 hs keep []
  rwa [foldl_keep, List.nil_append] at h

theorem Parses.unique {calls calls' : List Call} {ret ret' : ℤ} (h : Parses lineMax content calls ret)
    (h' : Parses lineMax content calls' ret') : calls = calls' ∧ ret = ret' :=
  Prod.mk.inj (Prog.Returns.unique h h')

/-- Something of every file is handed over. -/
theorem exists_handsOver (hmax : lineMax < 2 ^ 31 - 1) (content : List Byte) :
    ∃ text, HandsOver lineMax content text := by
  by_cases he : Exact lineMax (splitLines newline content)
  · exact ⟨_, .inr ⟨he, Nat.ne_of_lt hmax, rfl⟩⟩
  · exact ⟨content, .inl ⟨he, rfl⟩⟩

theorem Reader.Sized.left {rest : List Byte} (h : r.Sized (text ++ rest)) : r.Sized text := by
  intro k
  have hk := h (min k text.length)
  rwa [List.take_append_of_le_length (Nat.min_le_right _ _), ← List.take_eq_take_min] at hk

/-- When the last line is lost, or no record is left, the records that have ended are handed over. -/
theorem delivered_records (htext : HandsOver lineMax content text)
    (h : Exact lineMax (splitLines newline content) ∨ (Reader.init.read content).last = none) :
    (Reader.init.read text).delivered = (Reader.init.read content).records := by
  obtain ⟨rest, hrest, hn⟩ := htext.append
  have hrecords : (Reader.init.read content).records = (Reader.init.read text).records := by
    rw [hrest, Reader.read_append, Reader.read_records hn]
  have hlast : (Reader.init.read text).last = none := by
    rcases htext with ⟨he, rfl⟩ | ⟨-, -, rfl⟩
    · exact h.resolve_left he
    · exact Reader.read_last (flatten_dropLast_splitLines content)
  rw [hrecords, Reader.delivered_none hlast]

/-! ### A last line end -/

theorem fits_concat (hne : content ≠ []) (hlast : content.getLast? ≠ some newline)
    (h : Fits lineMax (splitLines newline (content ++ [newline]))) :
    Fits lineMax (splitLines newline content) ∧
      ¬ Exact lineMax (splitLines newline (content ++ [newline])) := by
  obtain ⟨earlier, last, e, e'⟩ := splitLines_concat hne hlast
  rw [e'] at h ⊢
  rw [e]
  constructor
  · obtain ⟨j, hj, hall⟩ := h
    refine ⟨j, hj, fun l hl => ?_⟩
    rcases List.mem_append.mp hl with hl | hl
    · exact hall l (List.mem_append_left _ hl)
    · rw [List.mem_singleton.mp hl]
      have := hall (last ++ [newline]) (by simp)
      rw [List.length_append] at this
      omega
  · rintro ⟨i, earlier', last', he, hn, -⟩
    obtain rfl := List.singleton_inj.mp (List.append_inj' he rfl).2
    exact hn (by simp)

theorem sized_concat (hs : Reader.init.Sized content) (hopen : (Reader.init.read content).isOpen = false) :
    Reader.init.Sized (content ++ [newline]) := by
  intro k
  by_cases hk : k ≤ content.length
  · rw [List.take_append_of_le_length hk]
    exact hs k
  · rw [List.take_of_length_le (by simp; omega), Reader.read_concat]
    by_cases hbad : (Reader.init.read content).mode = .bad
    · rw [Reader.step_bad hbad]
      have := hs content.length
      rwa [List.take_length] at this
    · obtain ⟨v, hv, -⟩ := Reader.step_newline hopen hbad
      rw [hv]
      exact ⟨Nat.two_pow_pos 31, Nat.two_pow_pos 31⟩

/-- **The line end at the end of a file.**  Without it the records are the same if and only if the text
does not end with a comma, and in a line that `file_each_line` does not lose; behind a closing quote
that is followed by something else nothing matters any more. -/
theorem csvParse_newline_iff (hmax : 2 ≤ lineMax) (hbound : lineMax < 2 ^ 31 - 1) (hne : content ≠ [])
    (hlast : content.getLast? ≠ some newline) (h0 : (0 : Byte) ∉ content)
    (hopen : (Reader.init.read content).isOpen = false)
    (hfit : Fits lineMax (splitLines newline (content ++ [newline]))) (hs : Reader.init.Sized content) :
    SameRecords lineMax content (content ++ [newline]) ↔ (Reader.init.read content).mode = .bad ∨
      (content.getLast? ≠ some comma ∧ ¬ Exact lineMax (splitLines newline content)) := by
  obtain ⟨hfit₁, hexact⟩ := fits_concat hne hlast hfit
  obtain ⟨text, htext⟩ := exists_handsOver hbound content
  obtain ⟨rest, hrest, -⟩ := htext.append
  have hparse := parses hmax hfit₁ htext h0 (hrest ▸ hs).left
  have h0' : (0 : Byte) ∉ content ++ [newline] := fun h => (List.mem_append.mp h).elim h0 (by decide)
  have hparse' := parses hmax hfit (.inl ⟨hexact, rfl⟩) h0' (sized_concat hs hopen)
  have hsame : SameRecords lineMax content (content ++ [newline]) ↔
      ((Reader.init.read text).delivered.map callOf).map Call.record =
        ((Reader.init.read (content ++ [newline])).delivered.map callOf).map Call.record := by
    constructor
    · rintro ⟨calls, calls', ret, ret', hcalls, hcalls', e⟩
      rwa [(hcalls.unique hparse).1, (hcalls'.unique hparse').1] at e
    · exact fun e => ⟨_, _, _, _, hparse, hparse', e⟩
  rw [hsame, Reader.read_concat]
  by_cases hbad : (Reader.init.read content).mode = .bad
  · have hnone : (Reader.init.read content).last = none := by rw [Reader.last, hbad]
    refine iff_of_true ?_ (.inl hbad)
    rw [Reader.step_bad hbad, delivered_records htext (.inr hnone), Reader.delivered_none hnone]
  · obtain ⟨v, hv, hother⟩ := Reader.step_newline hopen hbad
    rw [hv, Reader.delivered_endRecord, or_iff_right hbad]
    by_cases he : Exact lineMax (splitLines newline content)
    · refine iff_of_false (fun e => ?_) (fun h => h.2 he)
      rw [delivered_records htext (.inl he)] at e
      have := congrArg List.length e
      simp at this
    · have htc : text = content := (htext.resolve_right fun h => he h.1).2
      subst htc
      rw [and_iff_left he]
      obtain ⟨before, c, rfl⟩ := (List.eq_nil_or_concat' text).resolve_left hne
      rw [List.getLast?_concat] at hlast ⊢
      have hc : c ≠ newline := fun h => hlast (congrArg some h)
      have hmoves := (Reader.init.read before).step_moves c
      rw [← Reader.read_concat] at hmoves
      by_cases hcomma : c = comma
      · -- the empty field behind the comma is missing
        subst hcomma
        have hmode := hmoves.comma hopen hbad
        obtain ⟨-, hfields, -⟩ := hmoves.start hc hmode
        refine iff_of_false (fun e => ?_) (fun h => h rfl)
        have hleft : (Reader.init.read (before ++ [comma])).last =
            some (Reader.init.read (before ++ [comma])).fields := by
          rw [Reader.last, hmode]
          exact if_neg hfields
        rw [Reader.delivered_some hleft, List.map_append, List.map_append, List.map_append,
          List.map_append] at e
        have hrecord := List.singleton_inj.mp (List.append_cancel_left e)
        have hn := congrArg Prod.snd hrecord
        simp [Call.record, callOf] at hn
      · have hmode : (Reader.init.read (before ++ [c])).mode ≠ .start :=
          fun h => hcomma (hmoves.start hc h).1
        refine iff_of_true ?_ (fun h => hcomma (Option.some.inj h))
        rw [Reader.delivered_some (hother hmode)]

/-- Two records, the last one without a line end. -/
theorem csvParse_newline_iff_sample : SameRecords 2048 [97, 10, 98, 44, 99] [97, 10, 98, 44, 99, 10] := by
  have hlines : splitLines newline ([97, 10, 98, 44, 99] : List Byte) = [[97, 10], [98, 44, 99]] := by decide
  have hlines' : splitLines newline ([97, 10, 98, 44, 99, 10] : List Byte) = [[97, 10], [98, 44, 99, 10]] := by
    decide
  refine (csvParse_newline_iff (by decide) (by decide) (by decide) (by decide) (by decide) (by decide) ?_
    (Reader.sized_of_length (by decide))).mpr (.inr ⟨by decide, ?_⟩)
  · show Fits 2048 (splitLines newline ([97, 10, 98, 44, 99, 10] : List Byte))
    rw [hlines']
    exact ⟨0, by decide, by decide⟩
  · rw [hlines]
    have h : Delivers 2048 [[97, 10], [98, 44, 99]] :=
      (delivers_cons (by decide) (by decide)).mpr ((delivers_last (by decide)).mpr (by decide))
    exact h.2

/-- The text `a,` has one field, and two with a line end. -/
theorem csvParse_newline_lost :
    Parses 2048 [97, 44] [⟨1, [some [97]], 1⟩] 0 ∧ Parses 2048 [97, 44, 10] [⟨1, [some [97], some []], 2⟩] 0 ∧
      ¬ SameRecords 2048 [97, 44] [97, 44, 10] := by
  have hlines : splitLines newline ([97, 44] : List Byte) = [[97, 44]] := by decide
  have hlines' : splitLines newline ([97, 44, 10] : List Byte) = [[97, 44, 10]] := by decide
  have hd : Delivers 2048 (splitLines newline ([97, 44] : List Byte)) := by
    rw [hlines]
    exact (delivers_last (by decide)).mpr (by decide)
  have hd' : Delivers 2048 (splitLines newline ([97, 44, 10] : List Byte)) := by
    rw [hlines']
    exact (delivers_cons (by decide) (by decide)).mpr (delivers_nil.mpr (by decide))
  have h := parses (by decide) hd.1 (.inl ⟨hd.2, rfl⟩) (by decide) (Reader.sized_of_length (by decide))
  have h' := parses (by decide) hd'.1 (.inl ⟨hd'.2, rfl⟩) (by decide) (Reader.sized_of_length (by decide))
  refine ⟨h, h', ?_⟩
  rintro ⟨calls, calls', ret, ret', hcalls, hcalls', e⟩
  rw [(hcalls.unique h).1, (hcalls'.unique h').1] at e
  exact absurd e (by decide)

/-! ### Texts that are not well formed -/

/-- **Texts that are not well formed.**  Just the records that have ended before are handed over, and
`csv_parse` returns -1, if and only if the text does not end with a quote that leaves a quoted field
open, or, when `file_each_line` loses the last line, the text before that line is not well formed. -/
theorem csvParse_malformed_iff (hmax : 2 ≤ lineMax) (hbound : lineMax < 2 ^ 31 - 1)
    (h0 : (0 : Byte) ∉ content) (hmal : (Reader.init.read content).malformed = true)
    (hfit : Fits lineMax (splitLines newline content)) (hs : Reader.init.Sized content) :
    Parses lineMax content ((Reader.init.read content).records.map callOf) (-1) ↔
      (¬ Exact lineMax (splitLines newline content) ∧
        ¬ ((Reader.init.read content).isOpen = true ∧ content.getLast? = some quote)) ∨
      (Exact lineMax (splitLines newline content) ∧
        (Reader.init.read (splitLines newline content).dropLast.flatten).malformed = true) := by
  obtain ⟨text, htext⟩ := exists_handsOver hbound content
  obtain ⟨rest, hrest, -⟩ := htext.append
  have hparse := parses hmax hfit htext h0 (hrest ▸ hs).left
  by_cases he : Exact lineMax (splitLines newline content)
  · rw [delivered_records htext (.inl he)] at hparse
    obtain ⟨-, -, rfl⟩ := htext.resolve_left fun h => h.1 he
    simp only [he, not_true_eq_false, false_and, true_and, false_or]
    constructor
    · intro h
      by_contra hwell
      rw [if_neg hwell] at hparse
      exact absurd (h.unique hparse).2 (by decide)
    · intro hwell
      rwa [if_pos hwell] at hparse
  · have htc : text = content := (htext.resolve_right fun h => he h.1).2
    subst htc
    rw [if_pos hmal] at hparse
    simp only [he, not_false_eq_true, true_and, false_and, or_false]
    have hne : text ≠ [] := by
      rintro rfl
      exact absurd hmal (by decide)
    obtain ⟨before, c, rfl⟩ := (List.eq_nil_or_concat' text).resolve_left hne
    have hmoves := (Reader.init.read before).step_moves c
    rw [← Reader.read_concat] at hmoves
    have hlast := hmoves.malformed hmal
    rw [List.getLast?_concat, Option.some_inj, ← hlast]
    constructor
    · intro h
      by_contra hsome
      obtain ⟨fields, hfields⟩ := Option.ne_none_iff_exists'.mp hsome
      rw [Reader.delivered_some hfields] at hparse
      have hlength := congrArg List.length (h.unique hparse).1
      simp at hlength
    · intro hnone
      rwa [Reader.delivered_none hnone] at hparse

/-- A quoted field that is open. -/
theorem csvParse_malformed_iff_sample : Parses 2048 [97, 10, 34, 98] [⟨1, [some [97]], 1⟩] (-1) := by
  have hlines : splitLines newline ([97, 10, 34, 98] : List Byte) = [[97, 10], [34, 98]] := by decide
  have hd : Delivers 2048 (splitLines newline ([97, 10, 34, 98] : List Byte)) := by
    rw [hlines]
    exact (delivers_cons (by decide) (by decide)).mpr ((delivers_last (by decide)).mpr (by decide))
  exact (csvParse_malformed_iff (by decide) (by decide) (by decide) (by decide) hd.1
    (Reader.sized_of_length (by decide))).mpr (.inl ⟨hd.2, by decide⟩)

/-- In the text `a,"` the record with the open field is handed over. -/
theorem csvParse_malformed_open :
    Parses 2048 [97, 44, 34] [⟨1, [some [97], some []], 2⟩] (-1) ∧
      ¬ Parses 2048 [97, 44, 34] ((Reader.init.read [97, 44, 34]).records.map callOf) (-1) := by
  have hlines : splitLines newline ([97, 44, 34] : List Byte) = [[97, 44, 34]] := by decide
  have hd : Delivers 2048 (splitLines newline ([97, 44, 34] : List Byte)) := by
    rw [hlines]
    exact (delivers_last (by decide)).mpr (by decide)
  have h := parses (by decide) hd.1 (.inl ⟨hd.2, rfl⟩) (by decide) (Reader.sized_of_length (by decide))
  refine ⟨h, fun h' => ?_⟩
  exact absurd (h'.unique h).1 (by decide)

end Libls.Csv
