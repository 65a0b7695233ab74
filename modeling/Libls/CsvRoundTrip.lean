import Mathlib.Tactic
import Libls.CsvPasses

/-! # What `csv_parse` reads from a CSV document

A document is written as in RFC 4180: each field is quoted or plain, and each record ends with LF
or CRLF.

`line_number` is passed on as an `int`: `csvParse_document` has the number that the callback gets,
and `csvParse_roundTrip` is the statement for documents with fewer than `2 ^ 31` lines. -/

namespace Libls.Csv
open FileLines Strings

/-! ### Documents -/

/-- A field, and how it is written. -/
structure Field where
  value : List Byte
  quoted : Bool
  noNul : (0 : Byte) ∉ value
  plain : quoted = false →
    comma ∉ value ∧ quote ∉ value ∧ carriage ∉ value ∧ newline ∉ value

/-- The quotes of a text, doubled. -/
def doubled (value : List Byte) : List Byte :=
  value.flatMap fun c => if c = quote then [quote, quote] else [c]

def Field.text (f : Field) : List Byte :=
  if f.quoted = true then quote :: (doubled f.value ++ [quote]) else f.value

/-- A record has at least one field, and ends with CRLF or LF. -/
structure Record where
  first : Field
  rest : List Field
  crlf : Bool

def Record.values (r : Record) : List (List Byte) := (r.first :: r.rest).map Field.value

def Record.eol (r : Record) : List Byte := if r.crlf = true then [carriage, newline] else [newline]

/-- The fields of a record, with commas between them. -/
def fieldsText (first : Field) (rest : List Field) : List Byte :=
  first.text ++ rest.flatMap fun f => comma :: f.text

def Record.text (r : Record) : List Byte := fieldsText r.first r.rest ++ r.eol

def document (rs : List Record) : List Byte := rs.flatMap Record.text

/-- One call for each record, with the line number at which it ends; `before` is the text before
the records, and `line` says how a line number is passed on. -/
def calls (line : ℕ → ℤ) (before : List Byte) : List Record → List Call
  | [] => []
  | r :: rs =>
      let before := before ++ r.text
      ⟨line (before.count newline), r.values.map some, r.values.length⟩ :: calls line before rs

theorem eol_ne_nil (r : Record) : r.eol ≠ [] := by
  unfold Record.eol
  split <;> simp

theorem text_ne_nil (r : Record) : r.text ≠ [] := by simp [Record.text, eol_ne_nil]

theorem count_eol (r : Record) : r.eol.count newline = 1 := by
  unfold Record.eol
  split <;> decide

theorem count_doubled (value : List Byte) : (doubled value).count newline = value.count newline := by
  induction value with
  | nil => rfl
  | cons c value ih =>
      rw [doubled, List.flatMap_cons, List.count_append, List.count_cons, Nat.add_comm]
      refine congrArg₂ (· + ·) ih ?_
      by_cases hc : c = quote
      · subst hc
        decide
      · rw [if_neg hc, List.count_singleton]

/-! ### Reading a field -/

variable {σ : Type} {cb : ℤ → List (Option (List Byte)) → ℕ → σ → Prog (σ × ℤ)}
  {f : σ → Call → σ} {s : State σ} {fs : List (List Byte)} {n : ℕ} {u : σ} {t : List Byte}

theorem doubled_cons (c : Byte) (value : List Byte) :
    doubled (c :: value) = (if c = quote then [quote, quote] else [c]) ++ doubled value := rfl

/-- The inside of a quoted field: the run comes to the closing quote, and `p` is what the last
pass has not read yet. -/
theorem quoted_inside (cb : ℤ → List (Option (List Byte)) → ℕ → σ → Prog (σ × ℤ))
    (v : List Byte) (h0 : (0 : Byte) ∉ v) (hfs : fs.length < 2 ^ 31)
    {g p : List Byte} (hq : quote ∉ p) (hn : newline ∉ p) (hp0 : (0 : Byte) ∉ p)
    (hlt : (g ++ p ++ v).length < 2 ^ 31) :
    ∃ g' p', g' ++ p' = g ++ p ++ v ∧ quote ∉ p' ∧ newline ∉ p' ∧ (0 : Byte) ∉ p' ∧
      Reaches cb (p ++ (doubled v ++ quote :: t)) ⟨fs ++ [g], true, n, u⟩
        (p' ++ quote :: t) ⟨fs ++ [g'], true, n + v.count newline, u⟩ := by
  induction v generalizing g p n with
  | nil => exact ⟨g, p, (List.append_nil _).symm, hq, hn, hp0, Reaches.refl⟩
  | cons c v ih =>
      rw [List.mem_cons, not_or] at h0
      have hne : doubled v ++ quote :: t ≠ [] := by simp
      have hlen : (g ++ p ++ c :: v).length = g.length + p.length + 1 + v.length := by
        simp only [List.length_append, List.length_cons]
        omega
      rw [hlen] at hlt
      by_cases hcq : c = quote
      · -- the piece and the quote become part of the field
        subst hcq
        have hlt' : (g ++ (p ++ [quote])).length < 2 ^ 31 := by
          simp only [List.length_append, List.length_singleton]
          omega
        obtain ⟨g', p', he, hq', hn', h0', hr⟩ := ih h0.2 (g := g ++ (p ++ [quote])) (p := [])
          (n := n) (by simp) (by simp) (by simp) (by
            simp only [List.length_append, List.length_singleton, List.length_nil]
            omega)
        refine ⟨g', p', by simpa using he, hq', hn', h0', ?_⟩
        have hcount : (quote :: v).count newline = v.count newline := by
          rw [List.count_cons, if_neg (by decide), Nat.add_zero]
        rw [hcount, doubled_cons, if_pos rfl]
        have hp : newline ∉ p ++ [quote, quote] := fun h => (List.mem_append.mp h).elim hn (by decide)
        have hpass := (doubled_quote (n := n) (u := u) hq hp0 hlt' hfs).reaches cb hp hne
        rw [List.append_assoc] at hpass
        exact hpass.trans hr
      · rw [doubled_cons, if_neg hcq]
        by_cases hcn : c = newline
        · -- the line ends here
          subst hcn
          have hlt' : (g ++ (p ++ [newline])).length < 2 ^ 31 := by
            simp only [List.length_append, List.length_singleton]
            omega
          obtain ⟨g', p', he, hq', hn', h0', hr⟩ := ih h0.2 (g := g ++ (p ++ [newline])) (p := [])
            (n := n + 1) (by simp) (by simp) (by simp) (by
              simp only [List.length_append, List.length_singleton, List.length_nil]
              omega)
          refine ⟨g', p', by simpa using he, hq', hn', h0', ?_⟩
          have hcount : n + (newline :: v).count newline = n + 1 + v.count newline := by
            rw [List.count_cons, if_pos (by decide)]
            omega
          rw [hcount]
          exact ((quoted_newline hq hn hp0 hlt' hfs).reaches hne).trans hr
        · -- the piece becomes longer
          obtain ⟨g', p', he, hq', hn', h0', hr⟩ := ih h0.2 (g := g) (p := p ++ [c]) (n := n)
            (by simp [hq, Ne.symm hcq]) (by simp [hn, Ne.symm hcn]) (by simp [hp0, h0.1]) (by
              simp only [List.length_append, List.length_singleton]
              omega)
          refine ⟨g', p', by simpa using he, hq', hn', h0', ?_⟩
          have hcount : (c :: v).count newline = v.count newline := by
            rw [List.count_cons, if_neg (by simpa using hcn), Nat.add_zero]
          rw [hcount]
          simpa using hr

theorem count_text (f : Field) : f.text.count newline = f.value.count newline := by
  unfold Field.text
  split
  · rw [List.count_cons, if_neg (by decide), List.count_append, count_doubled]
    rfl
  · rfl

/-- A quoted field, up to its closing quote. -/
theorem field_open (cb : ℤ → List (Option (List Byte)) → ℕ → σ → Prog (σ × ℤ))
    (v : List Byte) (h0 : (0 : Byte) ∉ v) (hv : v.length < 2 ^ 31)
    (hfs : fs.length < 2 ^ 31) :
    ∃ g p, g ++ p = v ∧ quote ∉ p ∧ newline ∉ p ∧ (0 : Byte) ∉ p ∧
      Reaches cb (quote :: (doubled v ++ quote :: t)) ⟨fs, false, n, u⟩
        (p ++ quote :: t) ⟨fs ++ [g], true, n + v.count newline, u⟩ := by
  obtain ⟨g, p, he, hq, hn, hp0, hr⟩ := quoted_inside (t := t) (u := u) (n := n) (g := []) (p := []) cb
    v h0 hfs (by simp) (by simp) (by simp) hv
  exact ⟨g, p, he, hq, hn, hp0, ((open_quote hfs).reaches cb (by decide) (by simp)).trans hr⟩

/-- A field and the comma after it. -/
theorem field_comma (cb : ℤ → List (Option (List Byte)) → ℕ → σ → Prog (σ × ℤ))
    (x : Field) (hx : x.value.length < 2 ^ 31) (hfs : fs.length < 2 ^ 31)
    (ht : t ≠ []) : Reaches cb (x.text ++ comma :: t) ⟨fs, false, n, u⟩
      t ⟨fs ++ [x.value], false, n + x.text.count newline, u⟩ := by
  rw [count_text, Field.text]
  cases hquoted : x.quoted with
  | false =>
      obtain ⟨hc, hq, -, hn⟩ := x.plain hquoted
      rw [if_neg (by simp), List.count_eq_zero_of_not_mem hn]
      have hp : newline ∉ x.value ++ [comma] := fun h => (List.mem_append.mp h).elim hn (by decide)
      have hpass := (plain_comma (n := n) (u := u) hc (head_ne_quote hq) x.noNul hx hfs).reaches cb
        hp ht
      rwa [List.append_assoc] at hpass
  | true =>
      obtain ⟨g, p, he, hq, hn, hp0, hr⟩ := field_open (t := comma :: t) (u := u) (n := n) cb
        x.value x.noNul hx hfs
      rw [← he] at hx
      rw [if_pos rfl, List.cons_append, List.append_assoc, List.singleton_append]
      refine hr.trans ?_
      rw [← he]
      have hp' : newline ∉ p ++ [quote, comma] := fun h => (List.mem_append.mp h).elim hn (by decide)
      have hpass := (close_comma (n := n + (g ++ p).count newline) (u := u) hq hp0 hx hfs).reaches cb
        hp' ht
      rwa [List.append_assoc] at hpass

/-- The last field of a record. -/
theorem field_eol (x : Field) {eol : List Byte} (heol : IsEol eol) (hx : x.value.length < 2 ^ 31)
    (hfs : fs.length < 2 ^ 31) : Ends (callback f) (x.text ++ (eol ++ t)) ⟨fs, false, n, u⟩
      t (State.handOver ⟨fs ++ [x.value], false, n + x.text.count newline, u⟩ f) := by
  rw [count_text, Field.text]
  cases hquoted : x.quoted with
  | false =>
      obtain ⟨hc, hq, hr, hn⟩ := x.plain hquoted
      rw [if_neg (by simp), List.count_eq_zero_of_not_mem hn]
      exact plain_eol heol hc hq hr hn x.noNul hx hfs
  | true =>
      obtain ⟨g, p, he, hq, hn, hp0, hr⟩ := field_open (t := eol ++ t) (u := u) (n := n)
        (callback f) x.value x.noNul hx hfs
      rw [← he] at hx
      rw [if_pos rfl, List.cons_append, List.append_assoc, List.singleton_append]
      refine hr.ends ?_
      rw [← he]
      exact close_eol heol hq hn hp0 hx hfs

/-- The fields of a record, up to its end. -/
theorem fields_eol (first : Field) (rest : List Field) {eol : List Byte} (heol : IsEol eol)
    (hx : ∀ x ∈ first :: rest, x.value.length < 2 ^ 31) (hfs : fs.length + rest.length < 2 ^ 31) :
    Ends (callback f) (fieldsText first rest ++ (eol ++ t)) ⟨fs, false, n, u⟩ t
      (State.handOver ⟨fs ++ (first :: rest).map Field.value, false,
        n + (fieldsText first rest).count newline, u⟩ f) := by
  induction rest generalizing first fs n with
  | nil =>
      have := field_eol (f := f) (t := t) (u := u) (n := n) first heol (hx first (by simp)) hfs
      simpa [fieldsText] using this
  | cons y rest ih =>
      rw [List.length_cons] at hfs
      have hne : fieldsText y rest ++ (eol ++ t) ≠ [] := by
        rcases heol with rfl | rfl <;> simp
      have h1 := field_comma (u := u) (n := n) (callback f) first (hx first (by simp))
        (by omega : fs.length < 2 ^ 31) hne
      have h2 := ih y (fun x hm => hx x (List.mem_cons_of_mem _ hm))
        (by rw [List.length_append, List.length_singleton]; omega : (fs ++ [first.value]).length +
          rest.length < 2 ^ 31) (n := n + first.text.count newline)
      have htext : fieldsText first (y :: rest) = first.text ++ comma :: fieldsText y rest := by
        simp [fieldsText]
      have hcount : n + first.text.count newline + (fieldsText y rest).count newline =
          n + (fieldsText first (y :: rest)).count newline := by
        rw [htext, List.count_append, List.count_cons, if_neg (by decide)]
        omega
      rw [hcount, List.append_assoc, List.singleton_append] at h2
      rw [htext, List.append_assoc, List.cons_append]
      exact h1.ends h2

/-! ### Reading a document -/

theorem isEol (r : Record) : IsEol r.eol := by
  unfold Record.eol IsEol
  split <;> simp

/-- What one record does between two lines. -/
theorem eachLine_record {r : Record} {before : List Byte} {ctx : CsvParseContext σ}
    (hctx : Reading ⟨[], false, before.count newline, u⟩ ctx)
    (hx : ∀ x ∈ r.first :: r.rest, x.value.length < 2 ^ 31) (hlen : r.rest.length < 2 ^ 31) :
    ∃ ctx', Reading ⟨[], false, (before ++ r.text).count newline,
        f u ⟨toInt (u32 ((before ++ r.text).count newline)), r.values.map some, r.values.length⟩⟩ ctx' ∧
      ∀ x, Prog.Returns (eachLine (parseCsv noFailure (callback f)) (splitLines newline t) ctx') x →
        Prog.Returns (eachLine (parseCsv noFailure (callback f)) (splitLines newline (r.text ++ t)) ctx)
          x := by
  have hcount : before.count newline + 1 + (fieldsText r.first r.rest).count newline =
      (before ++ r.text).count newline := by
    rw [Record.text, List.count_append, List.count_append, count_eol]
    omega
  have hends := fields_eol (f := f) (t := t) (u := u) (n := before.count newline + 1)
    r.first r.rest (isEol r) hx (by simpa using hlen : ([] : List (List Byte)).length + _ < 2 ^ 31)
  rw [hcount] at hends
  obtain ⟨ctx', hctx', hrun⟩ := hends (nextLine ctx) (nextLine_reading hctx)
  refine ⟨ctx', hctx', fun x hr => ?_⟩
  rw [eachLine_midLine (by simp [text_ne_nil]), Record.text, List.append_assoc]
  exact hrun x hr

/-- The records are small enough for the lengths, which are `int`s. -/
def Small (rs : List Record) : Prop :=
  ∀ r ∈ rs, r.rest.length < 2 ^ 31 ∧ ∀ x ∈ r.first :: r.rest, x.value.length < 2 ^ 31

instance (rs : List Record) : Decidable (Small rs) := inferInstanceAs (Decidable (∀ r ∈ rs, _ ∧ _))

theorem eachLine_document {rs : List Record} (hsmall : Small rs) {before : List Byte}
    {ctx : CsvParseContext σ} (hctx : Reading ⟨[], false, before.count newline, u⟩ ctx) :
    ∃ ctx', Reading ⟨[], false, (before ++ document rs).count newline,
        (calls (fun n => toInt (u32 n)) before rs).foldl f u⟩ ctx' ∧
      Prog.Returns (eachLine (parseCsv noFailure (callback f)) (splitLines newline (document rs)) ctx)
        (ctx', 0) := by
  induction rs generalizing before ctx u with
  | nil => exact ⟨ctx, by simpa [document, calls] using hctx, Prog.returns_pure.mpr rfl⟩
  | cons r rs ih =>
      obtain ⟨hlen, hx⟩ := hsmall r List.mem_cons_self
      obtain ⟨ctx₁, hctx₁, hrun₁⟩ := eachLine_record (f := f) (t := document rs) hctx hx hlen
      obtain ⟨ctx₂, hctx₂, hrun₂⟩ := ih (fun r' hr' => hsmall r' (List.mem_cons_of_mem _ hr')) hctx₁
      refine ⟨ctx₂, ?_, hrun₁ _ hrun₂⟩
      rw [List.append_assoc] at hctx₂
      exact hctx₂

theorem zero_notMem_doubled {value : List Byte} (h : (0 : Byte) ∉ value) : (0 : Byte) ∉ doubled value := by
  intro hm
  obtain ⟨c, hc, hm⟩ := List.mem_flatMap.mp hm
  split at hm
  · exact absurd hm (by decide)
  · exact h (List.mem_singleton.mp hm ▸ hc)

theorem zero_notMem_text (x : Field) : (0 : Byte) ∉ x.text := by
  unfold Field.text
  split
  · intro hm
    rw [List.mem_cons, List.mem_append] at hm
    rcases hm with h | h | h
    · exact absurd h (by decide)
    · exact zero_notMem_doubled x.noNul h
    · exact absurd h (by decide)
  · exact x.noNul

theorem zero_notMem_document (rs : List Record) : (0 : Byte) ∉ document rs := by
  intro hm
  obtain ⟨r, -, hm⟩ := List.mem_flatMap.mp hm
  rw [Record.text, fieldsText, List.mem_append, List.mem_append] at hm
  rcases hm with (h | h) | h
  · exact zero_notMem_text r.first h
  · obtain ⟨x, -, h⟩ := List.mem_flatMap.mp h
    rcases List.mem_cons.mp h with h | h
    · exact absurd h (by decide)
    · exact zero_notMem_text x h
  · rcases isEol r with e | e
    · rw [e] at h
      exact absurd h (by decide)
    · rw [e] at h
      exact absurd h (by decide)

/-- **What `csv_parse` reads.**  The callback gets each record of a document, in order and with
the fields as they were before they were written; its line number is an `int`. -/
theorem csvParse_document {rs : List Record} {lineMax : ℕ} (hmax : 2 ≤ lineMax)
    (hlines : Delivers lineMax (splitLines newline (document rs))) (hsmall : Small rs)
    (f : σ → Call → σ) (u : σ) :
    Prog.Returns (csvParse noFailure noFailure (callback f) lineMax (some { rest := document rs }) u)
      ((calls (fun n => toInt (u32 n)) [] rs).foldl f u, 0) := by
  have hctx : Reading ⟨[], false, ([] : List Byte).count newline, u⟩ ⟨0, strvInit, u, false, 1⟩ :=
    ⟨strvInit_holds, rfl, rfl, rfl⟩
  obtain ⟨ctx', hctx', hrun⟩ := eachLine_document (f := f) hsmall hctx
  have hquoted : ctx'.quoted = false := hctx'.quoted
  have huser : ctx'.user = _ := hctx'.user
  rw [csvParse, if_pos rfl]
  refine Prog.returns_bind.mpr ⟨(ctx', 0), ?_, ?_⟩
  · exact (fileEachLine_eachLine hmax (zero_notMem_document rs) hlines).mpr hrun
  · simp [hquoted, huser]

/-! ### Line numbers -/

theorem calls_congr {line line' : ℕ → ℤ} {rs : List Record} {before : List Byte}
    (h : ∀ k ≤ (before ++ document rs).count newline, line k = line' k) :
    calls line before rs = calls line' before rs := by
  induction rs generalizing before with
  | nil => rfl
  | cons r rs ih =>
      have htext : before ++ document (r :: rs) = before ++ r.text ++ document rs := by
        rw [List.append_assoc]
        rfl
      rw [htext] at h
      have hr : line ((before ++ r.text).count newline) = line' ((before ++ r.text).count newline) :=
        h _ ((List.sublist_append_left _ _).count_le _)
      simp only [calls, hr, ih h]

/-- **The round trip.**  A document of fewer than `2 ^ 31` lines, with fields and records that are
small enough for the lengths, which are `int`s, is read back: the callback gets each record once
and in order, with its fields and the line on which it ends. -/
theorem csvParse_roundTrip {rs : List Record} {lineMax : ℕ} (hmax : 2 ≤ lineMax)
    (hlines : Delivers lineMax (splitLines newline (document rs))) (hsmall : Small rs)
    (hcount : (document rs).count newline < 2 ^ 31) (f : σ → Call → σ) (u : σ) :
    Prog.Returns (csvParse noFailure noFailure (callback f) lineMax (some { rest := document rs }) u)
      ((calls Nat.cast [] rs).foldl f u, 0) := by
  have hint : ∀ k ≤ ([] ++ document rs).count newline, toInt (u32 k) = (k : ℤ) := by
    intro k hk
    rw [List.nil_append] at hk
    rw [u32_of_lt (by omega), toInt_of_lt (by omega)]
  have := csvParse_document hmax hlines hsmall f u
  rwa [calls_congr hint] at this

theorem calls_concat (line : ℕ → ℤ) (before : List Byte) (rs : List Record) (r : Record) :
    calls line before (rs ++ [r]) = calls line before rs ++
      [⟨line ((before ++ document (rs ++ [r])).count newline), r.values.map some, r.values.length⟩] := by
  induction rs generalizing before with
  | nil => simp [calls, document]
  | cons r' rs ih => simp [calls, ih, document]

/-- A record of one empty field. -/
def blank : Record := ⟨⟨[], false, by simp, by simp⟩, [], false⟩

theorem document_blank (n : ℕ) : document (List.replicate n blank) = List.replicate n newline := by
  induction n with
  | zero => rfl
  | succ n ih =>
      rw [List.replicate_succ, List.replicate_succ, ← ih]
      rfl

theorem delivers_blank (n : ℕ) :
    Delivers 4096 (splitLines newline (document (List.replicate n blank))) := by
  rw [document_blank]
  induction n with
  | zero => exact delivers_nil.mpr (by decide)
  | succ n ih =>
      rw [List.replicate_succ, ← List.nil_append (newline :: _), splitLines_line (by simp)]
      exact (delivers_cons (by simp) (by decide)).mpr ih

/-- With `2 ^ 31` lines the last line number is negative. -/
theorem csvParse_overflow :
    Delivers 4096 (splitLines newline (document (List.replicate (2 ^ 31) blank))) ∧
      ¬ Prog.Returns (csvParse noFailure noFailure (callback keep) 4096
        (some { rest := document (List.replicate (2 ^ 31) blank) }) [])
        (calls Nat.cast [] (List.replicate (2 ^ 31) blank), 0) := by
  refine ⟨delivers_blank _, fun h => ?_⟩
  have hsmall : Small (List.replicate (2 ^ 31) blank) := by
    intro r hr
    rw [List.eq_of_mem_replicate hr]
    exact ⟨by decide, by decide⟩
  have h' := csvParse_document (by decide) (delivers_blank _) hsmall keep []
  rw [foldl_keep, List.nil_append] at h'
  have e := congrArg Prod.fst (h'.unique h)
  obtain ⟨m, hm⟩ : ∃ m, 2 ^ 31 = m + 1 := ⟨2 ^ 31 - 1, by decide⟩
  rw [hm, List.replicate_succ', calls_concat, calls_concat, ← List.replicate_succ', List.nil_append,
    document_blank, List.count_replicate_self] at e
  have hlast := (List.append_inj' e rfl).2
  rw [List.singleton_inj, Call.mk.injEq, ← hm] at hlast
  exact absurd hlast.1 (by decide)

/-- A record with a quoted field that spans two lines, and a plain field. -/
def sample : Record :=
  ⟨⟨[97, 10], true, by decide, by simp⟩, [⟨[98], false, by decide, by decide⟩], true⟩

theorem csvParse_roundTrip_sample :
    Prog.Returns (csvParse noFailure noFailure (callback keep) 2048
      (some { rest := [34, 97, 10, 34, 44, 98, 13, 10] }) [])
      ([⟨2, [some [97, 10], some [98]], 2⟩], 0) := by
  refine @csvParse_roundTrip _ [sample] 2048 (by decide) ?_ (by decide) (by decide) keep []
  have h : splitLines newline (document [sample]) = [[34, 97, 10], [34, 44, 98, 13, 10]] := by decide
  rw [h, delivers_cons (by decide) (by decide), delivers_cons (by decide) (by decide), delivers_nil]
  decide

end Libls.Csv
