import Mathlib.Tactic
import Libls.FileLinesRuns
import Libls.Ini

/-! # What `ini_parse` reads from an INI document

A document is a list of lines: blank ones, comments, section headers and entries, with blanks and tabs
around every part.  Each kind of line has a lemma that says what `parse_ini` makes of it.

`line_number` is passed on as an `int`: `iniParse_document` has the number that the callback gets, and
`iniParse_roundTrip` is the statement for documents with fewer than `2 ^ 31` lines. -/

namespace Libls.Ini
open FileLines Strings

/-! ### Documents -/

/-- Blanks and tabs. -/
structure Blanks where
  text : List Byte
  blank : ∀ c ∈ text, c = 32 ∨ c = 9

/-- A text that is not broken by a newline or a NUL. -/
structure Plain (text : List Byte) : Prop where
  noNul : (0 : Byte) ∉ text
  noNewline : newline ∉ text

/-- The name of a section. -/
structure SectionName where
  text : List Byte
  plain : Plain text
  ne_nil : text ≠ []

/-- The first character is not white space. -/
def StartsSolid (s : List Byte) : Prop := ∀ c, s.head? = some c → isspace c = false

/-- The name of an entry. -/
structure Name where
  text : List Byte
  plain : Plain text
  ne_nil : text ≠ []
  noEquals : equals ∉ text
  starts : StartsSolid text
  ends : EndsSolid text
  first : ∀ c, text.head? = some c → c ≠ openBracket ∧ c ≠ semicolon ∧ c ≠ hash

/-- The value of an entry, and how it is written. -/
structure Value where
  text : List Byte
  quoted : Bool
  plain : Plain text
  bare : quoted = false → StartsSolid text ∧ EndsSolid text ∧
    ¬ (2 ≤ text.length ∧ text.head? = some quote ∧ text.getLast? = some quote)

def Value.written (v : Value) : List Byte := if v.quoted = true then quote :: (v.text ++ [quote]) else v.text

inductive Line where
  | blank (b : Blanks)
  | comment (mark : Byte) (hmark : mark = semicolon ∨ mark = hash) (text : List Byte) (h : Plain text)
  | header (b₀ : Blanks) (name : SectionName) (b₁ : Blanks)
  | entry (b₀ : Blanks) (name : Name) (b₁ b₂ : Blanks) (value : Value) (b₃ : Blanks)

/-- A line without its newline. -/
def Line.text : Line → List Byte
  | blank b => b.text
  | comment mark _ text _ => mark :: text
  | header b₀ name b₁ => b₀.text ++ (openBracket :: (name.text ++ [closeBracket]) ++ b₁.text)
  | entry b₀ name b₁ b₂ value b₃ =>
      b₀.text ++ (name.text ++ (b₁.text ++ (equals :: (b₂.text ++ (value.written ++ b₃.text)))))

def document (ls : List Line) : List Byte := ls.flatMap fun l => l.text ++ [newline]

/-- The arguments of the user's callback. -/
structure Call where
  lineNumber : ℤ
  «section» : Option (List Byte)
  name : List Byte
  value : List Byte
deriving DecidableEq, Repr

/-- The section after a line. -/
def Line.sectionAfter (sec : Option (List Byte)) : Line → Option (List Byte)
  | header _ name _ => some name.text
  | _ => sec

/-- The call for a line, if it is an entry. -/
def Line.calls (number : ℤ) (sec : Option (List Byte)) : Line → List Call
  | entry _ name _ _ value _ => [⟨number, sec, name.text, value.text⟩]
  | _ => []

/-- One call for each entry: `n` is the number of lines before, and `number` says how a line number
is passed on. -/
def calls (number : ℕ → ℤ) : ℕ → Option (List Byte) → List Line → List Call
  | _, _, [] => []
  | n, sec, l :: ls => l.calls (number (n + 1)) sec ++ calls number (n + 1) (l.sectionAfter sec) ls

/-- A callback that returns 0. -/
def callback {σ : Type} (f : σ → Call → σ) : Callback σ :=
  fun lineNumber sec name value user => pure (f user ⟨lineNumber, sec, name, value⟩, 0)

/-! ### Characters -/

theorem Blanks.isspace (b : Blanks) : ∀ c ∈ b.text, Strings.isspace c = true := by
  intro c hc
  rcases b.blank c hc with rfl | rfl
  · rfl
  · rfl

theorem Blanks.notMem (b : Blanks) {c : Byte} (h : Strings.isspace c = false) : c ∉ b.text := by
  intro hc
  rw [b.isspace c hc] at h
  cases h

theorem Blanks.first (b : Blanks) {s : List Byte} {c : Byte}
    (hs : ∀ d, s.head? = some d → d ≠ semicolon ∧ d ≠ hash) (hc : (b.text ++ s).head? = some c) :
    ¬ (c = semicolon ∨ c = hash) := by
  cases hb : b.text with
  | nil =>
      rw [hb] at hc
      rw [not_or]
      exact hs c hc
  | cons d t =>
      rw [hb, List.cons_append, List.head?_cons] at hc
      cases hc
      rcases b.blank c (by rw [hb]; simp) with rfl | rfl
      · decide
      · decide

theorem plain_append {s t : List Byte} : Plain (s ++ t) ↔ Plain s ∧ Plain t := by
  constructor
  · rintro ⟨h0, hn⟩
    rw [List.mem_append, not_or] at h0 hn
    exact ⟨⟨h0.1, hn.1⟩, h0.2, hn.2⟩
  · rintro ⟨⟨h0, hn⟩, h0', hn'⟩
    refine ⟨?_, ?_⟩
    · rw [List.mem_append, not_or]
      exact ⟨h0, h0'⟩
    · rw [List.mem_append, not_or]
      exact ⟨hn, hn'⟩

theorem plain_cons {c : Byte} {s : List Byte} (hc : c ≠ 0 ∧ c ≠ newline) : Plain (c :: s) ↔ Plain s := by
  have hsingle : Plain [c] := ⟨by simpa using hc.1.symm, by simpa using hc.2.symm⟩
  rw [← List.singleton_append, plain_append]
  exact and_iff_right hsingle

theorem plain_nil : Plain [] := ⟨by simp, by simp⟩

theorem Blanks.plain (b : Blanks) : Plain b.text := by
  refine ⟨b.notMem rfl, fun h => ?_⟩
  rcases b.blank _ h with hc | hc
  · exact absurd hc (by decide)
  · exact absurd hc (by decide)

theorem Value.plain_written (v : Value) : Plain v.written := by
  unfold Value.written
  split
  · rw [plain_cons (by decide), plain_append, plain_cons (by decide)]
    exact ⟨v.plain, plain_nil⟩
  · exact v.plain

/-- No line is broken. -/
theorem Line.plain (l : Line) : Plain l.text := by
  cases l with
  | blank b => exact b.plain
  | comment mark hmark text h =>
      have hc : mark ≠ 0 ∧ mark ≠ newline := by
        rcases hmark with rfl | rfl
        · decide
        · decide
      exact (plain_cons hc).mpr h
  | header b₀ name b₁ =>
      simp only [Line.text, plain_append, plain_cons (show openBracket ≠ 0 ∧ openBracket ≠ newline by decide),
        List.cons_append, plain_cons (show closeBracket ≠ 0 ∧ closeBracket ≠ newline by decide)]
      exact ⟨b₀.plain, ⟨name.plain, plain_nil⟩, b₁.plain⟩
  | entry b₀ name b₁ b₂ v b₃ =>
      simp only [Line.text, plain_append, plain_cons (show equals ≠ 0 ∧ equals ≠ newline by decide)]
      exact ⟨b₀.plain, name.plain, b₁.plain, b₂.plain, v.plain_written, b₃.plain⟩

/-! ### `parse_ini` -/

section
variable {σ : Type} {f : σ → Call → σ} {ctx : IniParseContext σ} {A P R s w : List Byte} {c : Byte}

/-- What a line does to the context. -/
def Parses (f : σ → Call → σ) (l : Line) (line : List Byte) (ctx : IniParseContext σ) : Prop :=
  ∃ ctx', Prog.Returns (parseText noFailure (callback f) line ctx) (ctx', 0) ∧
    ctx'.section = l.sectionAfter ctx.section ∧ ctx'.lineNumber = ctx.lineNumber ∧
    ctx'.user = (l.calls (toInt ctx.lineNumber) ctx.section).foldl f ctx.user

theorem charAt_zero (h : s.head? = some c) : charAt s 0 = some c := by
  unfold charAt
  rwa [← List.head?_eq_getElem?]

theorem parses_comment {mark : Byte} {hmark : mark = semicolon ∨ mark = hash} {text : List Byte}
    {h : Plain text} : Parses f (.comment mark hmark text h) ((mark :: text) ++ R) ctx := by
  refine ⟨ctx, ?_, rfl, rfl, rfl⟩
  unfold parseText
  rw [charAt_zero rfl, Prog.lift_bind, if_pos hmark]
  exact Prog.returns_pure.mpr rfl

/-- What `parse_ini` does with a line after it has been stripped. -/
theorem parseText_strip {b : Blanks} (hA : ∀ c ∈ A, isspace c = true)
    (hfirst : ∀ c, (A ++ (s ++ (b.text ++ 0 :: R))).head? = some c → ¬ (c = semicolon ∨ c = hash))
    (h0 : (0 : Byte) ∉ s) (hs : EndsSolid s)
    (hhead : ∀ c, (s ++ (b.text ++ 0 :: R)).head? = some c → isspace c = false)
    (hlen : s.length < 2 ^ 32) :
    parseText noFailure (callback f) (A ++ (s ++ (b.text ++ 0 :: R))) ctx =
      if s.length = 0 then return (ctx, 0)
      else (do
        let line := A ++ (s ++ (List.replicate b.text.length 0 ++ 0 :: R))
        let c ← charAt line A.length
        if c = openBracket then (parseSection noFailure line A.length s.length ctx : Option _)
        else parseEntry (callback f) line A.length ctx) := by
  obtain ⟨c, hc⟩ : ∃ c, (A ++ (s ++ (b.text ++ 0 :: R))).head? = some c := by
    rw [← Option.isSome_iff_exists, List.isSome_head?]
    simp
  have hstring : strlenAt (A ++ (s ++ (List.replicate b.text.length 0 ++ 0 :: R))) A.length = s.length := by
    unfold strlenAt
    rw [stringAt_nuls h0]
  unfold parseText
  rw [charAt_zero hc, Prog.lift_bind, if_neg (hfirst c hc), strstrip_line hA h0 hs hhead b.isspace]
  simp only [hstring, u32_of_lt hlen]

/-- The size of a line fits in `unsigned int`. -/
def Line.Short (l : Line) : Prop := l.text.length < 2 ^ 32

theorem parses_blank {b : Blanks} : Parses f (.blank b) (b.text ++ 0 :: R) ctx := by
  have hfirst : ∀ c, (b.text ++ ([] ++ ([] ++ 0 :: R))).head? = some c → ¬ (c = semicolon ∨ c = hash) := by
    intro c hc
    refine b.first ?_ hc
    rintro d ⟨rfl⟩
    decide
  have h := @parseText_strip σ f ctx b.text R [] ⟨[], by simp⟩ b.isspace hfirst (by simp) (by simp [EndsSolid])
    (by simp [isspace]) (by simp)
  refine ⟨ctx, ?_, rfl, rfl, rfl⟩
  simp only [List.nil_append, List.length_nil, if_true] at h
  rw [h]
  exact Prog.returns_pure.mpr rfl

theorem parseSection_header (name : SectionName) :
    parseSection noFailure (A ++ ((openBracket :: (name.text ++ [closeBracket])) ++ R)) A.length
      (name.text.length + 2) ctx =
        some ({ ctx with «section» := some name.text, allocations := ctx.allocations + 1 }, 0) := by
  have hpos : 0 < name.text.length := List.length_pos_iff.mpr name.ne_nil
  have hlast : charAt (A ++ ((openBracket :: (name.text ++ [closeBracket])) ++ R))
      (A.length + (name.text.length + 2 - 1)) = some closeBracket := by
    have h := charAt_append (A ++ openBracket :: name.text) R closeBracket
    rw [List.length_append, List.length_cons] at h
    simpa using h
  have hname : (A ++ ((openBracket :: (name.text ++ [closeBracket])) ++ R)).drop (A.length + 1) =
      name.text ++ closeBracket :: R := by
    rw [← List.drop_drop, List.drop_left]
    simp
  unfold parseSection
  simp only [hlast, hname, Option.bind_eq_bind, Option.bind_some, Nat.add_sub_cancel,
    strndup_append name.plain.noNul]
  rw [if_neg (by simpa using name.ne_nil)]
  rfl

theorem parses_header {b₀ b₁ : Blanks} {name : SectionName} (hs : (Line.header b₀ name b₁).Short) :
    Parses f (.header b₀ name b₁) ((Line.header b₀ name b₁).text ++ 0 :: R) ctx := by
  have hlen : (openBracket :: (name.text ++ [closeBracket])).length = name.text.length + 2 := by
    simp
  have hpos : 0 < name.text.length := List.length_pos_iff.mpr name.ne_nil
  have hshort : (openBracket :: (name.text ++ [closeBracket])).length < 2 ^ 32 := by
    unfold Line.Short Line.text at hs
    simp only [List.length_append] at hs ⊢
    omega
  have hfirst : ∀ c, (b₀.text ++ ((openBracket :: (name.text ++ [closeBracket])) ++ (b₁.text ++ 0 :: R))).head? =
      some c → ¬ (c = semicolon ∨ c = hash) := by
    intro c hc
    refine b₀.first ?_ hc
    rintro d ⟨rfl⟩
    decide
  have hzero : (0 : Byte) ∉ openBracket :: (name.text ++ [closeBracket]) := by
    rw [List.mem_cons, List.mem_append, List.mem_singleton, not_or, not_or]
    exact ⟨by decide, name.plain.noNul, by decide⟩
  have hends : EndsSolid (openBracket :: (name.text ++ [closeBracket])) := by
    intro c hc
    rw [← List.cons_append, List.getLast?_concat] at hc
    cases hc
    rfl
  have h := @parseText_strip σ f ctx b₀.text R _ b₁ b₀.isspace hfirst hzero hends
    (by rintro c ⟨rfl⟩; rfl) hshort
  have htext : (Line.header b₀ name b₁).text ++ 0 :: R =
      b₀.text ++ ((openBracket :: (name.text ++ [closeBracket])) ++ (b₁.text ++ 0 :: R)) := by
    simp [Line.text]
  rw [hlen, if_neg (by omega)] at h
  refine ⟨{ ctx with «section» := some name.text, allocations := ctx.allocations + 1 }, ?_, rfl, rfl, rfl⟩
  rw [htext, h]
  refine Prog.returns_bind.mpr ⟨openBracket, Prog.returns_lift.mpr (charAt_append _ _ _), ?_⟩
  rw [if_pos rfl]
  exact Prog.returns_lift.mpr (parseSection_header name)

/-! ### Entries -/

/-- A value in quotes is what stands between them. -/
theorem unquote_quoted {text : List Byte} (h0 : (0 : Byte) ∉ text) (hlen : text.length + 2 < 2 ^ 32) (n : ℕ) :
    unquote (A ++ ((quote :: (text ++ [quote])) ++ (List.replicate n 0 ++ 0 :: R))) A.length =
      some (A ++ (quote :: (text ++ 0 :: (List.replicate n 0 ++ 0 :: R))), A.length + 1) := by
  have hzero : (0 : Byte) ∉ quote :: (text ++ [quote]) := by
    rw [List.mem_cons, List.mem_append, List.mem_singleton, not_or, not_or]
    exact ⟨by decide, h0, by decide⟩
  have hstring : u32 (strlenAt (A ++ ((quote :: (text ++ [quote])) ++ (List.replicate n 0 ++ 0 :: R)))
      A.length) = text.length + 2 := by
    unfold strlenAt
    rw [stringAt_nuls hzero, List.length_cons, List.length_append, List.length_singleton, u32_of_lt hlen]
  have hsplit : ∀ c, A ++ ((quote :: (text ++ [c])) ++ (List.replicate n 0 ++ 0 :: R)) =
      (A ++ quote :: text) ++ c :: (List.replicate n 0 ++ 0 :: R) := by
    intro c
    simp
  have hidx : A.length + (text.length + 2 - 1) = (A ++ quote :: text).length := by
    simp
  have hidx' : A.length + 1 + (text.length + 2 - 2) = (A ++ quote :: text).length := by
    simp
    omega
  have hfirst : charAt (A ++ ((quote :: (text ++ [quote])) ++ (List.replicate n 0 ++ 0 :: R))) A.length =
      some quote := charAt_append _ _ _
  unfold unquote
  simp only [hfirst, hstring, Option.bind_eq_bind, Option.bind_some, if_true]
  rw [if_pos (by omega), hidx, hidx', hsplit, charAt_append, set_append, Option.bind_some, if_pos rfl]
  simp

/-- A bare value is taken as it stands. -/
theorem unquote_bare {text : List Byte} (h0 : (0 : Byte) ∉ text) (hlen : text.length < 2 ^ 32)
    (hq : ¬ (2 ≤ text.length ∧ text.head? = some quote ∧ text.getLast? = some quote)) (n : ℕ) :
    unquote (A ++ (text ++ (List.replicate n 0 ++ 0 :: R))) A.length =
      some (A ++ (text ++ (List.replicate n 0 ++ 0 :: R)), A.length) := by
  have hstring : u32 (strlenAt (A ++ (text ++ (List.replicate n 0 ++ 0 :: R))) A.length) = text.length := by
    unfold strlenAt
    rw [stringAt_nuls h0, u32_of_lt hlen]
  obtain ⟨c, t, hc⟩ : ∃ c t, text ++ (List.replicate n 0 ++ 0 :: R) = c :: t :=
    List.exists_cons_of_ne_nil (by simp)
  have hfirst : charAt (A ++ (text ++ (List.replicate n 0 ++ 0 :: R))) A.length = some c := by
    rw [hc]
    exact charAt_append _ _ _
  unfold unquote
  simp only [hfirst, hstring, Option.bind_eq_bind, Option.bind_some]
  by_cases hquote : c = quote
  · rw [if_pos hquote]
    by_cases htwo : 2 ≤ text.length
    · obtain ⟨u, d, rfl⟩ := (List.eq_nil_or_concat' text).resolve_left (by rintro rfl; simp at htwo)
      have hd : d ≠ quote := by
        rintro rfl
        have hhead := congrArg List.head? hc
        rw [List.head?_append_of_ne_nil _ (by simp), List.head?_cons, hquote] at hhead
        exact hq ⟨htwo, hhead, by simp⟩
      have hlast : charAt (A ++ (u ++ [d] ++ (List.replicate n 0 ++ 0 :: R)))
          (A.length + ((u ++ [d]).length - 1)) = some d := by
        have h := charAt_append (A ++ u) (List.replicate n 0 ++ 0 :: R) d
        rw [List.length_append] at h
        simpa using h
      rw [if_pos htwo, hlast, Option.bind_some, if_neg hd]
      rfl
    · rw [if_neg htwo]
      rfl
  · rw [if_neg hquote]
    rfl

/-- What the callback gets for a value. -/
theorem unquote_written {v : Value} (hlen : v.written.length < 2 ^ 32) (n : ℕ) :
    ∃ T p, unquote (A ++ (v.written ++ (List.replicate n 0 ++ 0 :: R))) A.length = some (A ++ T, p) ∧
      stringAt (A ++ T) p = v.text := by
  unfold Value.written at hlen ⊢
  cases hq : v.quoted with
  | true =>
      rw [hq, if_pos rfl, List.length_cons, List.length_append, List.length_singleton] at hlen
      refine ⟨_, _, unquote_quoted v.plain.noNul hlen n, ?_⟩
      have h := @stringAt_append (A ++ [quote]) v.text (List.replicate n 0 ++ 0 :: R) v.plain.noNul
      rw [List.length_append] at h
      simpa using h
  | false =>
      rw [hq, if_neg (by decide)] at hlen
      exact ⟨_, _, unquote_bare v.plain.noNul hlen (v.bare hq).2.2 n, stringAt_nuls v.plain.noNul n⟩

/-- What follows the white space behind the equals sign. -/
theorem Value.written_head {v : Value} {n : ℕ}
    (hc : (v.written ++ (List.replicate n 0 ++ 0 :: R)).head? = some c) : isspace c = false := by
  unfold Value.written at hc
  cases hq : v.quoted with
  | true =>
      rw [hq, if_pos rfl, List.cons_append, List.head?_cons] at hc
      cases hc
      rfl
  | false =>
      rw [hq, if_neg (by decide)] at hc
      cases ht : v.text with
      | nil =>
          rw [ht, List.nil_append] at hc
          have h0 : c = 0 := by
            cases n with
            | zero => exact (Option.some.inj hc).symm
            | succ n => exact (Option.some.inj hc).symm
          rw [h0]
          rfl
      | cons d t =>
          rw [ht, List.cons_append, List.head?_cons] at hc
          exact (v.bare hq).1 c (by rw [ht]; exact hc)

/-- A line with an entry, where the white space at the end has been cut off. -/
theorem parseEntry_spec {name : Name} {b₁ w : Blanks} {v : Value} (hA : (0 : Byte) ∉ A) (heq : equals ∉ A)
    (hshort : v.written.length < 2 ^ 32) (n : ℕ) :
    Prog.Returns (parseEntry (callback f)
      (A ++ ((name.text ++ (b₁.text ++ equals :: (w.text ++ v.written))) ++ (List.replicate n 0 ++ 0 :: R)))
      A.length ctx)
      ({ ctx with user := f ctx.user ⟨toInt ctx.lineNumber, ctx.section, name.text, v.text⟩ }, 0) := by
  obtain ⟨c, Z, hZ⟩ : ∃ c Z, v.written ++ (List.replicate n 0 ++ 0 :: R) = c :: Z :=
    List.exists_cons_of_ne_nil (by simp)
  obtain ⟨d, t, hd⟩ := List.exists_cons_of_ne_nil name.ne_nil
  have hsplit : A ++ ((name.text ++ (b₁.text ++ equals :: (w.text ++ v.written))) ++
      (List.replicate n 0 ++ 0 :: R)) = (A ++ (name.text ++ b₁.text)) ++
        equals :: (w.text ++ (v.written ++ (List.replicate n 0 ++ 0 :: R))) := by
    simp
  have hfind : strchrAt ((A ++ (name.text ++ b₁.text)) ++
      equals :: (w.text ++ (v.written ++ (List.replicate n 0 ++ 0 :: R)))) 0 equals =
        some (A ++ (name.text ++ b₁.text)).length := by
    refine strchrAt_append ?_ ?_ (by decide)
    · simp only [List.mem_append, not_or]
      exact ⟨hA, name.plain.noNul, b₁.notMem (by decide)⟩
    · simp only [List.mem_append, not_or]
      exact ⟨heq, name.noEquals, b₁.notMem (by decide)⟩
  have hname : strrstrip ((A ++ (name.text ++ b₁.text)) ++
      0 :: (w.text ++ (v.written ++ (List.replicate n 0 ++ 0 :: R)))) A.length =
        (A ++ (name.text ++ (List.replicate b₁.text.length 0 ++ [0]))) ++
          (w.text ++ (v.written ++ (List.replicate n 0 ++ 0 :: R))) := by
    rw [List.append_assoc, List.append_assoc, strrstrip_append name.plain.noNul name.ends b₁.isspace]
    simp
  have hlen : (A ++ (name.text ++ b₁.text)).length + 1 =
      (A ++ (name.text ++ (List.replicate b₁.text.length 0 ++ [0]))).length := by
    simp [Nat.add_assoc]
  obtain ⟨T, p, hunquote, hvalue⟩ := @unquote_written
    (A ++ (name.text ++ (List.replicate b₁.text.length 0 ++ [0])) ++ w.text) R v hshort n
  rw [List.append_assoc _ w.text, List.length_append] at hunquote
  have hstart : strlstrip ((A ++ (name.text ++ (List.replicate b₁.text.length 0 ++ [0]))) ++
      (w.text ++ (v.written ++ (List.replicate n 0 ++ 0 :: R))))
      (A ++ (name.text ++ (List.replicate b₁.text.length 0 ++ [0]))).length =
        (A ++ (name.text ++ (List.replicate b₁.text.length 0 ++ [0]))).length + w.text.length := by
    rw [hZ]
    exact strlstrip_append w.isspace (Value.written_head (by rw [hZ]; rfl))
  have hfirst : charAt ((A ++ (name.text ++ (List.replicate b₁.text.length 0 ++ [0]))) ++
      (w.text ++ (v.written ++ (List.replicate n 0 ++ 0 :: R)))) A.length = some d := by
    rw [hd, List.cons_append, List.append_assoc]
    exact charAt_append _ _ _
  have hd0 : d ≠ 0 := by
    rintro rfl
    exact name.plain.noNul (by rw [hd]; simp)
  have hstring : stringAt (A ++ (name.text ++ (List.replicate b₁.text.length 0 ++ [0])) ++ w.text ++ T)
      A.length = name.text := by
    have h := @stringAt_nuls A name.text (w.text ++ T) name.plain.noNul b₁.text.length
    simpa using h
  unfold parseEntry
  rw [hsplit, hfind]
  simp only [set_append, hname, hlen, hstart, hfirst, Prog.lift_bind, if_neg hd0, hunquote]
  refine Prog.returns_bind.mpr ⟨_, Prog.returns_pure.mpr rfl, ?_⟩
  rw [hstring, hvalue]
  exact Prog.returns_pure.mpr rfl

/-- Blanks and tabs around a value: those at the end of the line are cut off, all of them when nothing
is written. -/
theorem Value.exists_trailing (v : Value) (b₂ b₃ : Blanks) : ∃ w b : Blanks,
    b₂.text ++ (v.written ++ b₃.text) = w.text ++ (v.written ++ b.text) ∧
      EndsSolid (equals :: (w.text ++ v.written)) := by
  rcases List.eq_nil_or_concat' v.written with hw | ⟨t, c, hw⟩
  · refine ⟨⟨[], by simp⟩, ⟨b₂.text ++ b₃.text, ?_⟩, by simp [hw], ?_⟩
    · intro c hc
      rcases List.mem_append.mp hc with hm | hm
      · exact b₂.blank c hm
      · exact b₃.blank c hm
    · rw [hw]
      rintro c ⟨rfl⟩
      rfl
  · refine ⟨b₂, b₃, rfl, ?_⟩
    intro d hd
    rw [hw, ← List.append_assoc, ← List.cons_append, List.getLast?_concat] at hd
    cases hd
    unfold Value.written at hw
    cases hq : v.quoted with
    | true =>
        rw [hq, if_pos rfl, ← List.cons_append] at hw
        rw [← (List.append_singleton_inj.mp hw).2]
        rfl
    | false =>
        rw [hq, if_neg (by decide)] at hw
        exact (v.bare hq).2.1 c (by rw [hw, List.getLast?_concat])

theorem parses_entry {b₀ b₁ b₂ b₃ : Blanks} {name : Name} {v : Value}
    (hs : (Line.entry b₀ name b₁ b₂ v b₃).Short) :
    Parses f (.entry b₀ name b₁ b₂ v b₃) ((Line.entry b₀ name b₁ b₂ v b₃).text ++ 0 :: R) ctx := by
  obtain ⟨w, b, hwb, hends⟩ := v.exists_trailing b₂ b₃
  obtain ⟨d, t, hd⟩ := List.exists_cons_of_ne_nil name.ne_nil
  have htext : (Line.entry b₀ name b₁ b₂ v b₃).text =
      b₀.text ++ ((name.text ++ (b₁.text ++ equals :: (w.text ++ v.written))) ++ b.text) := by
    simp [Line.text, hwb]
  unfold Line.Short at hs
  rw [htext] at hs
  simp only [List.length_append, List.length_cons] at hs
  have hdtext : name.text.head? = some d := by
    rw [hd]
    rfl
  have hfirst : ∀ c, (b₀.text ++ ((name.text ++ (b₁.text ++ equals :: (w.text ++ v.written))) ++
      (b.text ++ 0 :: R))).head? = some c → ¬ (c = semicolon ∨ c = hash) := by
    intro c hc
    refine b₀.first ?_ hc
    intro e he
    rw [hd] at he
    cases he
    exact (name.first d hdtext).2
  have hzero : (0 : Byte) ∉ name.text ++ (b₁.text ++ equals :: (w.text ++ v.written)) := by
    have hplain : Plain (name.text ++ (b₁.text ++ equals :: (w.text ++ v.written))) := by
      simp only [plain_append, plain_cons (show equals ≠ 0 ∧ equals ≠ newline by decide)]
      exact ⟨name.plain, b₁.plain, w.plain, v.plain_written⟩
    exact hplain.noNul
  have hlast : EndsSolid (name.text ++ (b₁.text ++ equals :: (w.text ++ v.written))) := by
    intro c hc
    rw [← List.append_assoc, List.getLast?_append_of_ne_nil _ (by simp)] at hc
    exact hends c hc
  have hhead : ∀ c, ((name.text ++ (b₁.text ++ equals :: (w.text ++ v.written))) ++
      (b.text ++ 0 :: R)).head? = some c → isspace c = false := by
    intro c hc
    rw [hd] at hc
    cases hc
    exact name.starts d hdtext
  have h := @parseText_strip σ f ctx b₀.text R _ b b₀.isspace hfirst hzero hlast hhead
    (by simp only [List.length_append, List.length_cons]; omega)
  rw [if_neg (by rw [hd]; simp)] at h
  refine ⟨{ ctx with user := f ctx.user ⟨toInt ctx.lineNumber, ctx.section, name.text, v.text⟩ }, ?_, rfl, rfl, rfl⟩
  rw [htext, List.append_assoc, List.append_assoc, h]
  refine Prog.returns_bind.mpr ⟨d, Prog.returns_lift.mpr ?_, ?_⟩
  · rw [hd]
    exact charAt_append _ _ _
  · rw [if_neg (name.first d hdtext).1]
    exact parseEntry_spec (b₀.notMem (by decide)) (b₀.notMem (by decide)) (by omega) b.text.length

/-- **What `parse_ini` does with one line.** -/
theorem Line.parses {l : Line} (hs : l.Short) : Parses f l (l.text ++ 0 :: R) ctx := by
  cases l with
  | blank b => exact parses_blank
  | comment mark hmark text h => exact parses_comment
  | header b₀ name b₁ => exact parses_header hs
  | entry b₀ name b₁ b₂ v b₃ => exact parses_entry hs

/-! ### Whole documents -/

theorem cutNewline_line (line : List Byte) :
    cutNewline (line ++ [newline] ++ [0]) (line ++ [newline]).length = some (line ++ 0 :: [0]) := by
  have hlen : pred32 (line ++ [newline]).length = line.length := by
    unfold pred32
    rw [List.length_append, if_neg (by simp)]
    rfl
  unfold cutNewline
  rw [hlen, List.append_assoc, List.singleton_append, charAt_append, set_append]
  rfl

/-- The step: one line of a document. -/
theorem parseIni_line {l : Line} {n : ℕ} (hs : l.Short) (hctx : ctx.lineNumber = u32 n) :
    ∃ ctx', Prog.Returns (parseIni noFailure (callback f) (l.text ++ [newline]) (l.text ++ [newline]).length ctx)
        (ctx', 0) ∧
      ctx'.section = l.sectionAfter ctx.section ∧ ctx'.lineNumber = u32 (n + 1) ∧
      ctx'.user = (l.calls (toInt (u32 (n + 1))) ctx.section).foldl f ctx.user := by
  have hnumber : u32 (ctx.lineNumber + 1) = u32 (n + 1) := by
    rw [hctx]
    unfold u32
    rw [Nat.mod_add_mod]
  obtain ⟨ctx', hrun, hsection, hline, huser⟩ := @Line.parses σ f { ctx with lineNumber := u32 (n + 1) } [0] l hs
  refine ⟨ctx', ?_, hsection, hline, huser⟩
  unfold parseIni
  rw [cutNewline_line, Prog.lift_bind, hnumber]
  exact hrun

/-- The lines of a document. -/
theorem splitLines_document (ls : List Line) :
    splitLines newline (document ls) = ls.map fun l => l.text ++ [newline] := by
  induction ls with
  | nil => rfl
  | cons l ls ih =>
      have htext : document (l :: ls) = l.text ++ newline :: document ls := by
        simp [document]
      rw [htext, splitLines_line l.plain.noNewline, ih]
      rfl

/-- The run: `parse_ini` is called with each line. -/
theorem eachLine_document {ls : List Line} {n : ℕ} (hs : ∀ l ∈ ls, l.Short) (hctx : ctx.lineNumber = u32 n) :
    ∃ ctx', Prog.Returns (eachLine (parseIni noFailure (callback f)) (splitLines newline (document ls)) ctx)
        (ctx', 0) ∧
      ctx'.user = (calls (fun k => toInt (u32 k)) n ctx.section ls).foldl f ctx.user := by
  induction ls generalizing n ctx with
  | nil => exact ⟨ctx, Prog.returns_pure.mpr rfl, rfl⟩
  | cons l ls ih =>
      obtain ⟨ctx₁, hrun, hsection, hline, huser⟩ := parseIni_line (f := f) (hs l (by simp)) hctx
      obtain ⟨ctx', hrun', huser'⟩ := ih (fun l hl => hs l (by simp [hl])) hline
      refine ⟨ctx', ?_, ?_⟩
      · rw [splitLines_document, List.map_cons, ← splitLines_document, eachLine]
        refine Prog.returns_bind.mpr ⟨(ctx₁, 0), hrun, ?_⟩
        simpa using hrun'
      · rw [huser', huser, hsection]
        simp [calls]

theorem zero_notMem_document (ls : List Line) : (0 : Byte) ∉ document ls := by
  intro hm
  obtain ⟨l, -, hm⟩ := List.mem_flatMap.mp hm
  rcases List.mem_append.mp hm with h | h
  · exact l.plain.noNul h
  · exact absurd (List.mem_singleton.mp h) (by decide)

/-- The lines that are delivered are short. -/
theorem short_of_delivers {ls : List Line} {lineMax : ℕ}
    (h : Delivers lineMax (splitLines newline (document ls))) : ∀ l ∈ ls, l.Short := by
  intro l hl
  obtain ⟨⟨j, hj, hall⟩, -⟩ := h
  have hlen : (l.text ++ [newline]).length < lineMax * 2 ^ j := by
    refine hall _ ?_
    rw [splitLines_document]
    exact List.mem_map_of_mem hl
  unfold Line.Short
  rw [List.length_append] at hlen
  omega

/-- **What `ini_parse` reads.**  The callback gets each entry of a document, in order; the line number is
an `int`. -/
theorem iniParse_document {ls : List Line} {lineMax : ℕ} (hmax : 2 ≤ lineMax)
    (hlines : Delivers lineMax (splitLines newline (document ls))) (f : σ → Call → σ) (u : σ) :
    Prog.Returns (iniParse noFailure noFailure (callback f) lineMax (some { rest := document ls }) u)
      ((calls (fun n => toInt (u32 n)) 0 none ls).foldl f u, 0) := by
  obtain ⟨ctx', hrun, huser⟩ := @eachLine_document σ f ⟨none, 0, u, 1⟩ ls 0 (short_of_delivers hlines) rfl
  unfold iniParse
  rw [if_pos rfl]
  refine Prog.returns_bind.mpr ⟨(ctx', 0), ?_, ?_⟩
  · exact (fileEachLine_eachLine hmax (zero_notMem_document ls) hlines).mpr hrun
  · simpa using huser

/-! ### Line numbers -/

theorem calls_congr {number number' : ℕ → ℤ} {ls : List Line} {n : ℕ} {sec : Option (List Byte)}
    (h : ∀ k ≤ n + ls.length, number k = number' k) : calls number n sec ls = calls number' n sec ls := by
  induction ls generalizing n sec with
  | nil => rfl
  | cons l ls ih =>
      rw [List.length_cons] at h
      have hl : number (n + 1) = number' (n + 1) := h _ (by omega)
      have hls : calls number (n + 1) (l.sectionAfter sec) ls = calls number' (n + 1) (l.sectionAfter sec) ls :=
        ih fun k hk => h k (by omega)
      simp only [calls, hl, hls]

/-- **The round trip.**  A document of fewer than `2 ^ 31` lines is read back: the callback gets each
entry once and in order, with its name, its value, the section it is in and its line. -/
theorem iniParse_roundTrip {ls : List Line} {lineMax : ℕ} (hmax : 2 ≤ lineMax)
    (hlines : Delivers lineMax (splitLines newline (document ls))) (hcount : ls.length < 2 ^ 31)
    (f : σ → Call → σ) (u : σ) :
    Prog.Returns (iniParse noFailure noFailure (callback f) lineMax (some { rest := document ls }) u)
      ((calls Nat.cast 0 none ls).foldl f u, 0) := by
  have hint : ∀ k ≤ 0 + ls.length, toInt (u32 k) = (k : ℤ) := by
    intro k hk
    rw [u32_of_lt (by omega), toInt_of_lt (by omega)]
  have h := iniParse_document hmax hlines f u
  rwa [calls_congr hint] at h

end

/-- The callback that keeps its arguments. -/
def keep (cs : List Call) (c : Call) : List Call := cs ++ [c]

theorem foldl_keep (cs cs' : List Call) : cs.foldl keep cs' = cs' ++ cs := by
  induction cs generalizing cs' with
  | nil => simp
  | cons c cs ih => simp [ih, keep]

/-- No blanks. -/
def noBlanks : Blanks := ⟨[], by simp⟩

/-- The name `a`. -/
def nameA : Name :=
  { text := [97], plain := ⟨by decide, by decide⟩, ne_nil := by decide, noEquals := by decide
    starts := by rintro c ⟨rfl⟩; rfl, ends := by rintro c ⟨rfl⟩; rfl
    first := by rintro c ⟨rfl⟩; decide }

/-- The value `b`, in quotes. -/
def valueB : Value := ⟨[98], true, ⟨by decide, by decide⟩, by simp⟩

/-- `n` empty lines and an entry. -/
def blankDocument (n : ℕ) : List Line :=
  List.replicate n (.blank noBlanks) ++ [.entry noBlanks nameA noBlanks noBlanks valueB noBlanks]

theorem calls_blankDocument (number : ℕ → ℤ) (k n : ℕ) (sec : Option (List Byte)) :
    calls number k sec (blankDocument n) = [⟨number (k + n + 1), sec, [97], [98]⟩] := by
  induction n generalizing k with
  | zero => rfl
  | succ n ih =>
      have h : calls number k sec (blankDocument (n + 1)) = calls number (k + 1) sec (blankDocument n) := rfl
      rw [h, ih, Nat.add_assoc k 1 n, Nat.add_comm 1 n]

theorem delivers_blankDocument (n : ℕ) :
    Delivers 4096 (splitLines newline (document (blankDocument n))) := by
  rw [splitLines_document]
  induction n with
  | zero =>
      have h : (blankDocument 0).map (fun l => l.text ++ [newline]) = [[97, 61, 34, 98, 34, 10]] := rfl
      rw [h, delivers_cons (by decide) (by decide), delivers_nil]
      decide
  | succ n ih => exact (delivers_cons (by simp [Line.text]) (by decide)).mpr ih

/-- After `2 ^ 31 - 1` empty lines the line number is negative. -/
theorem iniParse_overflow :
    Delivers 4096 (splitLines newline (document (blankDocument (2 ^ 31 - 1)))) ∧
      ¬ Prog.Returns (iniParse noFailure noFailure (callback keep) 4096
        (some { rest := document (blankDocument (2 ^ 31 - 1)) }) [])
        (calls Nat.cast 0 none (blankDocument (2 ^ 31 - 1)), 0) := by
  refine ⟨delivers_blankDocument _, fun h => ?_⟩
  have h' := iniParse_document (by decide) (delivers_blankDocument (2 ^ 31 - 1)) keep []
  rw [foldl_keep, List.nil_append] at h'
  have e := congrArg Prod.fst (h'.unique h)
  rw [calls_blankDocument, calls_blankDocument, List.singleton_inj, Call.mk.injEq] at e
  exact absurd e.1 (by decide)

/-- A comment, a section header and an entry with a quoted value and blanks around the parts. -/
def sample : List Line :=
  [.comment hash (.inr rfl) [120] ⟨by decide, by decide⟩,
    .header noBlanks ⟨[115], ⟨by decide, by decide⟩, by decide⟩ noBlanks,
    .entry ⟨[32], by simp⟩ nameA ⟨[9], by simp⟩ ⟨[32], by simp⟩ valueB noBlanks]

theorem iniParse_roundTrip_sample :
    Prog.Returns (iniParse noFailure noFailure (callback keep) 2048
      (some { rest := [35, 120, 10, 91, 115, 93, 10, 32, 97, 9, 61, 32, 34, 98, 34, 10] }) [])
      ([⟨3, some [115], [97], [98]⟩], 0) := by
  refine @iniParse_roundTrip _ sample 2048 (by decide) ?_ (by decide) keep []
  have h : splitLines newline (document sample) =
      [[35, 120, 10], [91, 115, 93, 10], [32, 97, 9, 61, 32, 34, 98, 34, 10]] := by decide
  rw [h, delivers_cons (by decide) (by decide), delivers_cons (by decide) (by decide),
    delivers_cons (by decide) (by decide), delivers_nil]
  decide

end Libls.Ini
