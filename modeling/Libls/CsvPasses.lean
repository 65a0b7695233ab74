import Mathlib.Tactic
import Libls.Csv
import Libls.FileLinesRuns

/-! # What one pass of `parse_csv` reads

A quoted field may contain line ends, so the parser carries its last field from one line to the
next.  `midLine` is the rest of a run that has come to the middle of a line.  Each kind of text
that is read in one pass (a plain field, an opening quote, a piece of a quoted field, ..) has a
lemma that moves `midLine` over that text: `Reaches` stays in a quoted field or in its line, and
`Ends` leaves the line. -/

namespace Libls.Csv
open FileLines Strings

/-- The arguments of the user's callback. -/
structure Call where
  lineNumber : ℤ
  fields : List (Option (List Byte))
  n : ℕ
deriving DecidableEq, Repr

/-- A callback that returns 0. -/
def callback {σ : Type} (f : σ → Call → σ) (lineNumber : ℤ) (fields : List (Option (List Byte)))
    (n : ℕ) (user : σ) : Prog (σ × ℤ) := pure (f user ⟨lineNumber, fields, n⟩, 0)

/-- The callback that keeps its arguments. -/
def keep (cs : List Call) (c : Call) : List Call := cs ++ [c]

theorem foldl_keep (cs cs' : List Call) : cs.foldl keep cs' = cs' ++ cs := by
  induction cs generalizing cs' with
  | nil => simp
  | cons c cs ih => simp [ih, keep]

/-! ### The state of a run -/

variable {σ : Type}

/-- What matters of the context: the fields read so far, whether the last one is open, the number
of lines, and the user's state. -/
structure State (σ : Type) where
  fields : List (List Byte)
  quoted : Bool
  lines : ℕ
  user : σ

structure Reading (s : State σ) (ctx : CsvParseContext σ) : Prop where
  field : ctx.field.Holds s.fields
  quoted : ctx.quoted = s.quoted
  lineNumber : ctx.lineNumber = u32 s.lines
  user : ctx.user = s.user

variable {s s' s'' : State σ} {fs : List (List Byte)} {q : Bool} {n : ℕ} {u : σ}
  {ctx : CsvParseContext σ}

theorem appendField_reading (h : Reading ⟨fs, q, n, u⟩ ctx) (hfs : fs.length < 2 ^ 31)
    {str : List Byte} (hstr : str.length < 2 ^ 31) (hnul : (0 : Byte) ∉ str) (rest : List Byte) :
    ∃ ctx', appendField noFailure ctx (str ++ rest) str.length = some (ctx', 0) ∧
      Reading ⟨fs ++ [str], q, n, u⟩ ctx' := by
  obtain ⟨sv, hsv, hholds⟩ := strvAppend3_holds h.field hfs (str ++ rest) (toInt str.length)
  rw [toInt_of_lt hstr, toSize_natCast (by omega), strndup_append hnul] at hholds
  refine ⟨{ ctx with field := sv, allocations := ctx.allocations + 2 }, ?_, hholds, h.quoted,
    h.lineNumber, h.user⟩
  simp [appendField, hsv]

theorem appendToLastField_reading {f : List Byte} (h : Reading ⟨fs ++ [f], q, n, u⟩ ctx)
    {str : List Byte} (hlt : (f ++ str).length < 2 ^ 31) (hnul : (0 : Byte) ∉ str)
    (hfs : fs.length < 2 ^ 31) (rest : List Byte) :
    ∃ ctx', appendToLastField noFailure ctx (str ++ rest) str.length = some (ctx', 0) ∧
      Reading ⟨fs ++ [f ++ str], q, n, u⟩ ctx' := by
  rw [List.length_append] at hlt
  have hlen : u32 (ctx.field.len + 2 ^ 32 - 1) = ctx.field.len - 1 := by
    have := h.field.len
    rw [List.length_append, List.length_singleton] at this
    rw [u32]
    omega
  obtain ⟨hread, hwrite⟩ := h.field.last
  obtain ⟨b, hb, hholds⟩ := hwrite (f ++ str)
  have hcat : astrncat true (some f) (str ++ rest) str.length = some (some (f ++ str)) := by
    rw [astrncat_append (by omega) (by simp) (by omega), strndup_append hnul]
  refine ⟨{ ctx with
    field := { ctx.field with strv := b }
    allocations := ctx.allocations + 1 }, ?_, hholds, h.quoted, h.lineNumber, h.user⟩
  unfold appendToLastField
  rw [hlen]
  simp [hread, hcat, hb]

/-! ### The rest of a run -/

variable {cb : ℤ → List (Option (List Byte)) → ℕ → σ → Prog (σ × ℤ)} {x : CsvParseContext σ × ℤ}

/-- The rest of a run from the middle of a line on, with what is left of the file. -/
def midLine (cb : ℤ → List (Option (List Byte)) → ℕ → σ → Prog (σ × ℤ)) (text : List Byte)
    (ctx : CsvParseContext σ) : Prog (CsvParseContext σ × ℤ) :=
  match splitLines newline text with
  | [] => return (ctx, 0)
  | line :: lines => do
      let exit ← Prog.iterate (fun s => liftM (parseCsvPass noFailure s))
        ⟨line ++ [0], line.length, ctx⟩
      let (ctx, ret) ← parseCsvEnd cb exit
      if ret ≠ 0 then return (ctx, -1)
      else eachLine (parseCsv noFailure cb) lines ctx

/-- The context at the beginning of a line. -/
def nextLine (ctx : CsvParseContext σ) : CsvParseContext σ :=
  { ctx with lineNumber := u32 (ctx.lineNumber + 1) }

theorem nextLine_reading (h : Reading s ctx) :
    Reading { s with lines := s.lines + 1 } (nextLine ctx) := by
  refine ⟨h.field, h.quoted, ?_, h.user⟩
  have := h.lineNumber
  simp only [nextLine, this, u32]
  omega

theorem splitLines_cons {text : List Byte} (h : text ≠ []) :
    ∃ l ls, splitLines newline text = l :: ls ∧ l ≠ [] := by
  cases e : splitLines newline text with
  | nil => exact absurd (splitLines_eq_nil.mp e) h
  | cons l ls =>
      refine ⟨l, ls, rfl, ?_⟩
      rintro rfl
      exact nil_notMem_splitLines (e ▸ List.mem_cons_self)

/-- The run at the beginning of a line. -/
theorem eachLine_midLine {text : List Byte} (h : text ≠ []) :
    Prog.Returns (eachLine (parseCsv noFailure cb) (splitLines newline text) ctx) x ↔
      Prog.Returns (midLine cb text (nextLine ctx)) x := by
  obtain ⟨l, ls, e, -⟩ := splitLines_cons h
  rw [midLine, e, eachLine, parseCsv, Prog.returns_bind, Prog.returns_bind]
  simp only [Prog.returns_bind]
  constructor
  · rintro ⟨y, ⟨z, hz, hy⟩, hx⟩
    exact ⟨z, hz, y, hy, hx⟩
  · rintro ⟨z, hz, y, hy, hx⟩
    exact ⟨y, ⟨z, hz, hy⟩, hx⟩

/-- From the text `t` and the state `s` the run comes to the text `t'` and the state `s'`. -/
def Reaches (cb : ℤ → List (Option (List Byte)) → ℕ → σ → Prog (σ × ℤ)) (t : List Byte) (s : State σ)
    (t' : List Byte) (s' : State σ) : Prop :=
  ∀ ctx, Reading s ctx → ∃ ctx', Reading s' ctx' ∧
    ∀ x, Prog.Returns (midLine cb t' ctx') x → Prog.Returns (midLine cb t ctx) x

/-- From the text `t` and the state `s` the run comes to the end of a line, and to the state
`s'` between two lines with the text `t'` left. -/
def Ends (cb : ℤ → List (Option (List Byte)) → ℕ → σ → Prog (σ × ℤ)) (t : List Byte) (s : State σ)
    (t' : List Byte) (s' : State σ) : Prop :=
  ∀ ctx, Reading s ctx → ∃ ctx', Reading s' ctx' ∧
    ∀ x, Prog.Returns (eachLine (parseCsv noFailure cb) (splitLines newline t') ctx') x →
      Prog.Returns (midLine cb t ctx) x

variable {t t' t'' : List Byte}

theorem Reaches.refl : Reaches cb t s t s := fun ctx h => ⟨ctx, h, fun _ hx => hx⟩

theorem Reaches.trans (h : Reaches cb t s t' s') (h' : Reaches cb t' s' t'' s'') :
    Reaches cb t s t'' s'' := by
  intro ctx hctx
  obtain ⟨ctx₁, hctx₁, hx₁⟩ := h ctx hctx
  obtain ⟨ctx₂, hctx₂, hx₂⟩ := h' ctx₁ hctx₁
  exact ⟨ctx₂, hctx₂, fun x hx => hx₁ x (hx₂ x hx)⟩

theorem Reaches.ends (h : Reaches cb t s t' s') (h' : Ends cb t' s' t'' s'') : Ends cb t s t'' s'' := by
  intro ctx hctx
  obtain ⟨ctx₁, hctx₁, hx₁⟩ := h ctx hctx
  obtain ⟨ctx₂, hctx₂, hx₂⟩ := h' ctx₁ hctx₁
  exact ⟨ctx₂, hctx₂, fun x hx => hx₁ x (hx₂ x hx)⟩

/-- A line that ends inside a quoted field. -/
theorem Ends.reaches (h : Ends cb t s t' s') (ht' : t' ≠ []) :
    Reaches cb t s t' { s' with lines := s'.lines + 1 } := by
  intro ctx hctx
  obtain ⟨ctx', hctx', hx⟩ := h ctx hctx
  exact ⟨_, nextLine_reading hctx', fun x hr => hx x ((eachLine_midLine ht').mpr hr)⟩

/-- A pass over a piece of a line, after which the loop goes on if there is more of the line. -/
def PassOver (piece : List Byte) (s s' : State σ) : Prop :=
  ∀ l ctx, Reading s ctx → ∃ ctx', Reading s' ctx' ∧
    parseCsvPass noFailure ⟨piece ++ (l ++ [0]), piece.length + l.length, ctx⟩ =
      some (whileLen (l ++ [0]) l.length ctx')

/-- A pass that stays in its line. -/
theorem PassOver.reaches {piece : List Byte} (h : PassOver piece s s')
    (cb : ℤ → List (Option (List Byte)) → ℕ → σ → Prog (σ × ℤ)) (hp : newline ∉ piece) (ht : t ≠ []) :
    Reaches cb (piece ++ t) s t s' := by
  intro ctx hctx
  obtain ⟨l, ls, e, hl⟩ := splitLines_cons ht
  obtain ⟨ctx', hctx', hpass⟩ := h l ctx hctx
  refine ⟨ctx', hctx', fun x hx => ?_⟩
  rw [midLine, e] at hx
  rw [midLine, splitLines_append hp e]
  rw [whileLen, if_pos (List.length_pos_iff.mpr hl)] at hpass
  obtain ⟨exit, hexit, hx⟩ := Prog.returns_bind.mp hx
  refine Prog.returns_bind.mpr ⟨exit, ?_, hx⟩
  refine Prog.Returns.iterate_next (Prog.returns_lift.mpr ?_) hexit
  rw [List.append_assoc, List.length_append]
  exact hpass

/-- A pass that leaves its line. -/
theorem ends_of_pass {piece : List Byte} (exit : CsvExit) (hp : newline ∉ piece)
    (hpass : ∀ ctx, Reading s ctx → ∃ ctx' ctx'', Reading s' ctx'' ∧
      parseCsvPass noFailure ⟨piece ++ [newline, 0], piece.length + 1, ctx⟩ = some (.done (ctx', exit)) ∧
      Prog.Returns (parseCsvEnd cb (ctx', exit)) (ctx'', 0)) :
    Ends cb (piece ++ newline :: t) s t s' := by
  intro ctx hctx
  obtain ⟨ctx', ctx'', hctx'', hpass, hend⟩ := hpass ctx hctx
  refine ⟨ctx'', hctx'', fun x hx => ?_⟩
  rw [midLine, splitLines_line hp]
  refine Prog.returns_bind.mpr ⟨(ctx', exit), ?_, Prog.returns_bind.mpr ⟨(ctx'', 0), hend, hx⟩⟩
  refine Prog.Returns.iterate_done (Prog.returns_lift.mpr ?_)
  rw [List.append_assoc, List.length_append]
  exact hpass

/-! ### What a pass reads -/

theorem charAt_append (str rest : List Byte) (k : ℕ) :
    charAt (str ++ rest) (str.length + k) = charAt rest k := by
  rw [charAt, List.getElem?_append_right (Nat.le_add_right _ _), Nat.add_sub_cancel_left]
  rfl

theorem parseCsvPass_quoted {line : List Byte} {len : ℕ} (h : ctx.quoted = true) :
    parseCsvPass noFailure ⟨line, len, ctx⟩ = quotedPass noFailure line len ctx := if_pos h

theorem parseCsvPass_plain {v rest : List Byte} {d : Byte} {len : ℕ} (h : ctx.quoted = false)
    (hv : v.head? ≠ some quote) (hd : d ≠ quote) : parseCsvPass noFailure ⟨v ++ d :: rest, len, ctx⟩ =
      plainPass noFailure (v ++ d :: rest) len ctx := by
  obtain ⟨c, hline, hc⟩ : ∃ c, (v ++ d :: rest).head? = some c ∧ c ≠ quote := by
    cases v with
    | nil => exact ⟨d, rfl, hd⟩
    | cons c v => exact ⟨c, rfl, fun hc => hv (congrArg some hc)⟩
  unfold parseCsvPass
  rw [if_neg (by simp [h]), hline]
  exact if_neg hc

theorem head_ne_quote {v : List Byte} (h : quote ∉ v) : v.head? ≠ some quote :=
  fun he => h (List.mem_of_head? he)

/-- A plain field and the comma after it. -/
theorem plain_comma {v : List Byte} (hc : comma ∉ v) (hq : v.head? ≠ some quote) (h0 : (0 : Byte) ∉ v)
    (hv : v.length < 2 ^ 31) (hfs : fs.length < 2 ^ 31) :
    PassOver (v ++ [comma]) ⟨fs, false, n, u⟩ ⟨fs ++ [v], false, n, u⟩ := by
  intro l ctx hctx
  obtain ⟨ctx', happ, hctx'⟩ := appendField_reading hctx hfs hv h0 (comma :: (l ++ [0]))
  refine ⟨ctx', hctx', ?_⟩
  have hline : v ++ [comma] ++ (l ++ [0]) = v ++ comma :: (l ++ [0]) := by simp
  have hlen : (v ++ [comma]).length + l.length = v.length + 1 + l.length := by simp
  have hmem : memchr (v ++ comma :: (l ++ [0])) comma (v.length + 1 + l.length) = some (some v.length) :=
    memchr_some hc (by omega) (by simp; omega)
  have hdrop : (v ++ comma :: (l ++ [0])).drop (v.length + 1) = l ++ [0] := by simp
  have hsub : v.length + 1 + l.length - (v.length + 1) = l.length := by omega
  rw [hline, hlen, parseCsvPass_plain hctx.quoted hq (by decide), plainPass, hmem]
  simp only [Option.bind_eq_bind, Option.bind_some, happ, hdrop, hsub]
  rfl

/-- An opening quote. -/
theorem open_quote (hfs : fs.length < 2 ^ 31) :
    PassOver [quote] ⟨fs, false, n, u⟩ ⟨fs ++ [[]], true, n, u⟩ := by
  intro l ctx hctx
  have hopen : Reading ⟨fs, true, n, u⟩ { ctx with quoted := true } :=
    ⟨hctx.field, rfl, hctx.lineNumber, hctx.user⟩
  obtain ⟨ctx', happ, hctx'⟩ := appendField_reading hopen hfs
    (by decide : ([] : List Byte).length < 2 ^ 31) (by simp) [0]
  refine ⟨ctx', hctx', ?_⟩
  have hlen : pred32 ([quote].length + l.length) = l.length := by
    rw [pred32, if_neg (by simp), List.length_singleton, Nat.add_sub_cancel_left]
  have hquoted : ctx.quoted = false := hctx.quoted
  rw [List.nil_append, List.length_nil] at happ
  unfold parseCsvPass
  rw [hlen, if_neg (by simp [hquoted])]
  simp [happ]

/-- A doubled quote, with what precedes it. -/
theorem doubled_quote {g p : List Byte} (hq : quote ∉ p) (h0 : (0 : Byte) ∉ p)
    (hlt : (g ++ (p ++ [quote])).length < 2 ^ 31) (hfs : fs.length < 2 ^ 31) :
    PassOver (p ++ [quote, quote]) ⟨fs ++ [g], true, n, u⟩ ⟨fs ++ [g ++ (p ++ [quote])], true, n, u⟩ := by
  intro l ctx hctx
  have hnul : (0 : Byte) ∉ p ++ [quote] := fun h => (List.mem_append.mp h).elim h0 (by decide)
  obtain ⟨ctx', happ, hctx'⟩ := appendToLastField_reading hctx hlt hnul hfs (quote :: (l ++ [0]))
  refine ⟨ctx', hctx', ?_⟩
  have hline : p ++ [quote, quote] ++ (l ++ [0]) = p ++ quote :: quote :: (l ++ [0]) := by simp
  have hlen : (p ++ [quote, quote]).length + l.length = p.length + 2 + l.length := by simp
  have hmem : memchr (p ++ quote :: quote :: (l ++ [0])) quote (p.length + 2 + l.length) =
      some (some p.length) := memchr_some hq (by omega) (by simp; omega)
  have hnext : p.length + 1 < p.length + 2 + l.length ∧
      charAt (p ++ quote :: quote :: (l ++ [0])) (p.length + 1) = some quote :=
    ⟨by omega, charAt_append p _ 1⟩
  have hdrop : (p ++ quote :: quote :: (l ++ [0])).drop (p.length + 2) = l ++ [0] := by simp
  have hsub : p.length + 2 + l.length - (p.length + 2) = l.length := by omega
  rw [List.append_assoc, List.length_append, List.length_singleton] at happ
  rw [hline, hlen, parseCsvPass_quoted hctx.quoted, quotedPass, hmem]
  simp only [Option.bind_eq_bind, Option.bind_some, if_pos hnext]
  rw [show p ++ quote :: quote :: (l ++ [0]) = p ++ ([quote] ++ quote :: (l ++ [0])) by rfl, happ]
  simp [hdrop, hsub]

/-- A line end inside a quoted field, with what precedes it. -/
theorem quoted_newline {g p : List Byte} (hq : quote ∉ p) (hn : newline ∉ p) (h0 : (0 : Byte) ∉ p)
    (hlt : (g ++ (p ++ [newline])).length < 2 ^ 31) (hfs : fs.length < 2 ^ 31) :
    Ends cb (p ++ newline :: t) ⟨fs ++ [g], true, n, u⟩
      t ⟨fs ++ [g ++ (p ++ [newline])], true, n, u⟩ := by
  refine ends_of_pass .out hn fun ctx hctx => ?_
  have hnul : (0 : Byte) ∉ p ++ [newline] := fun h => (List.mem_append.mp h).elim h0 (by decide)
  have hquote : quote ∉ p ++ [newline] := fun h => (List.mem_append.mp h).elim hq (by decide)
  obtain ⟨ctx', happ, hctx'⟩ := appendToLastField_reading hctx hlt hnul hfs [0]
  refine ⟨ctx', ctx', hctx', ?_, Prog.returns_pure.mpr rfl⟩
  have hmem := memchr_none [0] hquote
  rw [List.append_assoc, List.singleton_append, List.length_append, List.length_singleton] at happ hmem
  rw [parseCsvPass_quoted hctx.quoted, quotedPass, hmem]
  simp [happ]

/-- A closing quote, with what precedes it. -/
theorem quotedPass_close {g p : List Byte} (rest : List Byte) (len : ℕ) (hctx : Reading ⟨fs ++ [g], true, n, u⟩ ctx)
    (hq : quote ∉ p) (h0 : (0 : Byte) ∉ p) (hlt : (g ++ p).length < 2 ^ 31) (hfs : fs.length < 2 ^ 31)
    (hlen : p.length < len) (hle : len ≤ (p ++ quote :: rest).length) (hrest : charAt rest 0 ≠ some quote) :
    ∃ ctx', Reading ⟨fs ++ [g ++ p], false, n, u⟩ ctx' ∧
      parseCsvPass noFailure ⟨p ++ quote :: rest, len, ctx⟩ = afterQuote rest (len - (p.length + 1)) ctx' := by
  obtain ⟨ctx', happ, hctx'⟩ := appendToLastField_reading hctx hlt h0 hfs (quote :: rest)
  refine ⟨{ ctx' with quoted := false }, ⟨hctx'.field, rfl, hctx'.lineNumber, hctx'.user⟩, ?_⟩
  have hnext : ¬ (p.length + 1 < len ∧ charAt (p ++ quote :: rest) (p.length + 1) = some quote) := by
    rintro ⟨-, h⟩
    rw [charAt_append] at h
    exact hrest h
  have hdrop : (p ++ quote :: rest).drop (p.length + 1) = rest := by simp
  rw [parseCsvPass_quoted hctx.quoted, quotedPass, memchr_some hq hlen hle]
  simp only [Option.bind_eq_bind, Option.bind_some, if_neg hnext, happ, hdrop]
  rfl

/-- The end of a quoted field and the comma after it. -/
theorem close_comma {g p : List Byte} (hq : quote ∉ p) (h0 : (0 : Byte) ∉ p)
    (hlt : (g ++ p).length < 2 ^ 31) (hfs : fs.length < 2 ^ 31) :
    PassOver (p ++ [quote, comma]) ⟨fs ++ [g], true, n, u⟩ ⟨fs ++ [g ++ p], false, n, u⟩ := by
  intro l ctx hctx
  have hline : p ++ [quote, comma] ++ (l ++ [0]) = p ++ quote :: (comma :: (l ++ [0])) := by simp
  have hlen : (p ++ [quote, comma]).length + l.length = p.length + 2 + l.length := by simp
  obtain ⟨ctx', hctx', hpass⟩ := quotedPass_close (comma :: (l ++ [0]))
    (p.length + 2 + l.length) hctx hq h0 hlt hfs (by omega) (by simp; omega)
    (by simp [charAt, comma, quote])
  refine ⟨ctx', hctx', ?_⟩
  have hsub : p.length + 2 + l.length - (p.length + 1) = l.length + 1 := by omega
  rw [hline, hlen, hpass, hsub]
  simp [afterQuote]

/-! ### The end of a record -/

/-- How a record ends. -/
def IsEol (eol : List Byte) : Prop := eol = [newline] ∨ eol = [carriage, newline]

variable {f : σ → Call → σ} {eol : List Byte}

/-- A complete record is handed over. -/
theorem parseCsvEnd_record (h : Reading ⟨fs, q, n, u⟩ ctx) :
    ∃ ctx', Reading ⟨[], q, n, f u ⟨toInt (u32 n), fs.map some, fs.length⟩⟩ ctx' ∧
      Prog.Returns (parseCsvEnd (callback f) (ctx, .record)) (ctx', 0) := by
  have hread : ctx.field.strv.readList 0 ctx.field.len = some (fs.map some) := by
    have := h.field.has.readList
    rwa [List.length_map, ← h.field.len] at this
  have hlen : ctx.field.len = fs.length := h.field.len
  refine ⟨{ ctx with
    user := f u ⟨toInt (u32 n), fs.map some, fs.length⟩
    field := strvInit }, ⟨strvInit_holds, h.quoted, h.lineNumber, rfl⟩, ?_⟩
  rw [parseCsvEnd, hread, Prog.lift_bind, callback, h.user, h.lineNumber, hlen]
  exact Prog.returns_bind.mpr ⟨_, Prog.returns_pure.mpr rfl, Prog.returns_pure.mpr rfl⟩

/-- A field without the carriage return at its end. -/
def cutCarriage (v : List Byte) : List Byte := if v.getLast? = some carriage then v.dropLast else v

theorem cutCarriage_length (v : List Byte) : (cutCarriage v).length ≤ v.length := by
  unfold cutCarriage
  split
  · rw [List.length_dropLast]
    omega
  · exact le_rfl

theorem cutCarriage_mem {v : List Byte} {c : Byte} (h : c ∈ cutCarriage v) : c ∈ v := by
  unfold cutCarriage at h
  split at h
  · exact List.mem_of_mem_dropLast h
  · exact h

theorem cutCarriage_eq {v : List Byte} (h : carriage ∉ v) : cutCarriage v = v :=
  if_neg fun he => h (List.mem_of_getLast? he)

theorem cutCarriage_concat (v : List Byte) : cutCarriage (v ++ [carriage]) = v := by
  rw [cutCarriage, List.getLast?_concat, if_pos rfl, List.dropLast_concat]

theorem charAt_last (v rest : List Byte) (c : Byte) :
    charAt (v ++ [c] ++ rest) ((v ++ [c]).length - 1) = some c := by
  rw [List.append_assoc, List.length_append, List.length_singleton]
  exact charAt_append v _ 0

theorem cutLast_concat (v rest : List Byte) (c : Byte) :
    cutLast (v ++ [c] ++ rest) (v ++ [c]).length = (v ++ 0 :: rest, v.length) := by
  simp [cutLast]

/-- The end of a line without a newline. -/
theorem cutEol_end {v : List Byte} (hn : newline ∉ v) (rest : List Byte) :
    ∃ rest', cutEol (v ++ rest) v.length = some (cutCarriage v ++ rest', (cutCarriage v).length) := by
  rcases List.eq_nil_or_concat' v with rfl | ⟨w, c, rfl⟩
  · exact ⟨rest, rfl⟩
  · have hc : c ≠ newline := by
      rintro rfl
      simp at hn
    have hlen : (w ++ [c]).length ≠ 0 := by simp
    unfold cutEol
    rw [if_neg hlen, charAt_last, Option.bind_eq_bind, Option.bind_some, if_neg hc, cutLast_concat]
    by_cases hr : c = carriage
    · subst hr
      rw [cutCarriage_concat, if_pos rfl]
      exact ⟨_, rfl⟩
    · have hlast : cutCarriage (w ++ [c]) = w ++ [c] := by
        rw [cutCarriage, List.getLast?_concat, if_neg fun he => hr (Option.some.inj he)]
      rw [hlast, if_neg hr]
      exact ⟨_, rfl⟩

/-- The end of a line with its newline. -/
theorem cutEol_newline {v : List Byte} (hn : newline ∉ v) (rest : List Byte) :
    ∃ rest', cutEol (v ++ newline :: rest) (v.length + 1) =
      some (cutCarriage v ++ rest', (cutCarriage v).length) := by
  have hlen : v.length + 1 = (v ++ [newline]).length := by simp
  have hline : v ++ newline :: rest = v ++ [newline] ++ rest := by simp
  obtain ⟨rest', hcut⟩ := cutEol_end hn (0 :: rest)
  refine ⟨rest', ?_⟩
  rw [← hcut]
  unfold cutEol
  rw [if_neg (Nat.succ_ne_zero _), hlen, hline, charAt_last, Option.bind_eq_bind, Option.bind_some,
    if_pos rfl, cutLast_concat]
  dsimp only
  split
  · rfl
  · rcases List.eq_nil_or_concat' v with rfl | ⟨w, c, rfl⟩
    · contradiction
    · have hc : c ≠ newline := by
        rintro rfl
        simp at hn
      rw [charAt_last, Option.bind_some, Option.bind_some, if_neg hc]

/-- A record, handed over after its last field. -/
abbrev State.handOver (s : State σ) (f : σ → Call → σ) : State σ :=
  ⟨[], s.quoted, s.lines, f s.user ⟨toInt (u32 s.lines), s.fields.map some, s.fields.length⟩⟩

/-- A pass that completes a record. -/
theorem ends_record {piece : List Byte} (hp : newline ∉ piece)
    (hpass : ∀ ctx, Reading s ctx → ∃ ctx', Reading s' ctx' ∧
      parseCsvPass noFailure ⟨piece ++ [newline, 0], piece.length + 1, ctx⟩ =
        some (.done (ctx', .record))) :
    Ends (callback f) (piece ++ newline :: t) s t (s'.handOver f) := by
  refine ends_of_pass .record hp fun ctx hctx => ?_
  obtain ⟨ctx', hctx', hpass⟩ := hpass ctx hctx
  obtain ⟨ctx'', hctx'', hend⟩ := parseCsvEnd_record (f := f) hctx'
  exact ⟨ctx', ctx'', hctx'', hpass, hend⟩

theorem plainPass_eol {v line rest : List Byte} {len : ℕ} (hctx : Reading ⟨fs, q, n, u⟩ ctx)
    (hmem : memchr line comma len = some none) (hcut : cutEol line len = some (v ++ rest, v.length))
    (h0 : (0 : Byte) ∉ v) (hv : v.length < 2 ^ 31) (hfs : fs.length < 2 ^ 31) :
    ∃ ctx', Reading ⟨fs ++ [v], q, n, u⟩ ctx' ∧
      plainPass noFailure line len ctx = some (.done (ctx', .record)) := by
  obtain ⟨ctx', happ, hctx'⟩ := appendField_reading hctx hfs hv h0 rest
  refine ⟨ctx', hctx', ?_⟩
  rw [plainPass, hmem]
  simp [hcut, happ]

/-- A plain field at the end of a line. -/
theorem plain_newline {v : List Byte} (hc : comma ∉ v) (hq : v.head? ≠ some quote) (hn : newline ∉ v)
    (h0 : (0 : Byte) ∉ v) (hv : (cutCarriage v).length < 2 ^ 31) (hfs : fs.length < 2 ^ 31) :
    Ends (callback f) (v ++ newline :: t) ⟨fs, false, n, u⟩ t
      (State.handOver ⟨fs ++ [cutCarriage v], false, n, u⟩ f) := by
  refine ends_record hn fun ctx hctx => ?_
  have hmem := memchr_none [0] (show comma ∉ v ++ [newline] from
    fun h => (List.mem_append.mp h).elim hc (by decide))
  rw [List.append_assoc, List.length_append, List.length_singleton] at hmem
  obtain ⟨rest, hcut⟩ := cutEol_newline hn [0]
  obtain ⟨ctx', hctx', hpass⟩ := plainPass_eol hctx hmem hcut (fun h => h0 (cutCarriage_mem h)) hv hfs
  refine ⟨ctx', hctx', ?_⟩
  rw [parseCsvPass_plain hctx.quoted hq (by decide)]
  exact hpass

/-- A plain field at the end of a record. -/
theorem plain_eol {v : List Byte} (heol : IsEol eol) (hc : comma ∉ v) (hq : quote ∉ v)
    (hr : carriage ∉ v) (hn : newline ∉ v) (h0 : (0 : Byte) ∉ v) (hv : v.length < 2 ^ 31)
    (hfs : fs.length < 2 ^ 31) :
    Ends (callback f) (v ++ (eol ++ t)) ⟨fs, false, n, u⟩ t
      (State.handOver ⟨fs ++ [v], false, n, u⟩ f) := by
  rcases heol with rfl | rfl
  · have h := plain_newline (f := f) (t := t) (n := n) (u := u) hc (head_ne_quote hq) hn h0
      (by rwa [cutCarriage_eq hr]) hfs
    rwa [cutCarriage_eq hr] at h
  · have hcat : ∀ {c : Byte}, c ≠ carriage → c ∉ v → c ∉ v ++ [carriage] := by
      intro c hne hmem hcat
      rcases List.mem_append.mp hcat with h | h
      · exact hmem h
      · exact hne (List.mem_singleton.mp h)
    have h := plain_newline (f := f) (t := t) (n := n) (u := u) (hcat (by decide) hc)
      (head_ne_quote (hcat (by decide) hq)) (hcat (by decide) hn) (hcat (by decide) h0)
      (by rwa [cutCarriage_concat]) hfs
    rwa [cutCarriage_concat, List.append_assoc, List.singleton_append] at h

/-- The end of a quoted field at the end of a record. -/
theorem close_eol {g p : List Byte} (heol : IsEol eol) (hq : quote ∉ p) (hn : newline ∉ p)
    (h0 : (0 : Byte) ∉ p) (hlt : (g ++ p).length < 2 ^ 31) (hfs : fs.length < 2 ^ 31) :
    Ends (callback f) (p ++ quote :: (eol ++ t)) ⟨fs ++ [g], true, n, u⟩ t
      (State.handOver ⟨fs ++ [g ++ p], false, n, u⟩ f) := by
  rcases heol with rfl | rfl
  · have hp : newline ∉ p ++ [quote] := fun h => (List.mem_append.mp h).elim hn (by decide)
    rw [show p ++ quote :: ([newline] ++ t) = (p ++ [quote]) ++ newline :: t by simp]
    refine ends_record hp fun ctx hctx => ?_
    have hlen : (p ++ [quote]).length + 1 = p.length + 2 := by simp
    obtain ⟨ctx', hctx', hpass⟩ := quotedPass_close [newline, 0] (p.length + 2) hctx hq h0 hlt hfs
      (by omega) (by simp) (by decide)
    refine ⟨ctx', hctx', ?_⟩
    rw [List.append_assoc, hlen, List.singleton_append, hpass, Nat.add_sub_add_left]
    rfl
  · have hp : newline ∉ p ++ [quote, carriage] := fun h => (List.mem_append.mp h).elim hn (by decide)
    rw [show p ++ quote :: ([carriage, newline] ++ t) = (p ++ [quote, carriage]) ++ newline :: t by simp]
    refine ends_record hp fun ctx hctx => ?_
    have hlen : (p ++ [quote, carriage]).length + 1 = p.length + 3 := by simp
    obtain ⟨ctx', hctx', hpass⟩ := quotedPass_close [carriage, newline, 0] (p.length + 3) hctx hq h0
      hlt hfs (by omega) (by simp) (by decide)
    refine ⟨ctx', hctx', ?_⟩
    rw [List.append_assoc, hlen]
    show parseCsvPass noFailure ⟨p ++ quote :: [carriage, newline, 0], p.length + 3, ctx⟩ = _
    rw [hpass, Nat.add_sub_add_left]
    rfl

end Libls.Csv
