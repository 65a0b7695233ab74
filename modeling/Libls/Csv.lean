import Libls.FileLines
import Libls.Strings

/-! # Reading CSV files: `src/csv.c`

`parseCsv` is the callback that `file_each_line` calls with each line.  Between two lines the
context keeps the fields read so far and whether a quoted field is still open.  The line is the
list of its bytes with the terminating NUL, and the pointer into it is the list of the bytes from
there on; what the code writes to the line is not seen again by its caller.

`alloc n` says whether the `n`-th allocation made here succeeds, `file_each_line` having its own;
`alloc 0` is the one that makes the context.  The user's callback gets the line number, the
entries of the vector below its length, that length, and its own state. -/

namespace Libls.Csv
open FileLines Strings

/-- `'"'` -/
def quote : Byte := 34

/-- `','` -/
def comma : Byte := 44

/-- `'\\r'` -/
def carriage : Byte := 13

variable {σ : Type}

/-- `struct csv_parse_context`, with the state of the user's callback and the number of the
allocations so far. -/
structure CsvParseContext (σ : Type) where
  lineNumber : ℕ
  field : Strv
  user : σ
  quoted : Bool
  allocations : ℕ

/-- `append_to_last_field` -/
def appendToLastField (alloc : ℕ → Bool) (ctx : CsvParseContext σ) (str : List Byte) (len : ℕ) :
    Option (CsvParseContext σ × ℤ) := do
  let last := u32 (ctx.field.len + 2 ^ 32 - 1)
  let field ← ctx.field.strv.read last
  let ok := alloc ctx.allocations
  let ctx := { ctx with allocations := ctx.allocations + 1 }
  match ← astrncat ok field str len with
  | none => return (ctx, -1)
  | some newStr =>
      let strv ← ctx.field.strv.write last (some newStr)
      return ({ ctx with field := { ctx.field with strv := strv } }, 0)

/-- `strv_append3(&ctx->field, str, len)` -/
def appendField (alloc : ℕ → Bool) (ctx : CsvParseContext σ) (str : List Byte) (len : ℕ) :
    Option (CsvParseContext σ × ℤ) := do
  let n := ctx.allocations
  let (field, ret) ← strvAppend3 (alloc n) (alloc (n + 1)) ctx.field str (toInt len)
  return ({ ctx with field := field, allocations := n + 2 }, ret)

/-! ### `parse_csv` -/

/-- How a line is left: with the quoted field still open, with an error, or with a record. -/
inductive CsvExit where
  | out
  | err
  | record
deriving DecidableEq, Repr

/-- The variables of the loop. -/
structure CsvLoop (σ : Type) where
  line : List Byte
  len : ℕ
  ctx : CsvParseContext σ

/-- What a pass decides. -/
abbrev CsvPass (σ : Type) := Iter (CsvLoop σ) (CsvParseContext σ × CsvExit)

/-- `while (len > 0)` -/
def whileLen (line : List Byte) (len : ℕ) (ctx : CsvParseContext σ) : CsvPass σ :=
  if 0 < len then .next ⟨line, len, ctx⟩ else .done (ctx, .record)

/-- What follows a closing quote. -/
def afterQuote (line : List Byte) (len : ℕ) (ctx : CsvParseContext σ) : Option (CsvPass σ) :=
  if len = 0 then return .done (ctx, .record)
  else do
    let c ← line.head?
    if c = comma then return whileLen line.tail (len - 1) ctx
    else if 2 < len then return .done (ctx, .err)
    else if len = 2 then
      return .done (ctx, if strcmpEq line [carriage, newline, 0] then .record else .err)
    else return .done (ctx, if c ≠ carriage ∧ c ≠ newline then .err else .record)

/-- A pass inside a quoted field. -/
def quotedPass (alloc : ℕ → Bool) (line : List Byte) (len : ℕ) (ctx : CsvParseContext σ) :
    Option (CsvPass σ) := do
  match ← memchr line quote len with
  | none =>
      let (ctx, ret) ← appendToLastField alloc ctx line len
      return .done (ctx, if ret ≠ 0 then .err else .out)
  | some ptr =>
      if ptr + 1 < len ∧ charAt line (ptr + 1) = some quote then
        let (ctx, ret) ← appendToLastField alloc ctx line (ptr + 1)
        if ret ≠ 0 then return .done (ctx, .err)
        else return whileLen (line.drop (ptr + 2)) (len - (ptr + 2)) ctx
      else
        let (ctx, ret) ← appendToLastField alloc ctx line ptr
        if ret ≠ 0 then return .done (ctx, .err)
        else afterQuote (line.drop (ptr + 1)) (len - (ptr + 1)) { ctx with quoted := false }

/-- `line[--len] = '\\0'` -/
def cutLast (line : List Byte) (len : ℕ) : List Byte × ℕ := (line.set (len - 1) 0, len - 1)

/-- Cut the end of the line off. -/
def cutEol (line : List Byte) (len : ℕ) : Option (List Byte × ℕ) :=
  if len = 0 then return (line, len)
  else do
    let c ← charAt line (len - 1)
    if c = newline then
      let (line, len) := cutLast line len
      if len = 0 then return (line, len)
      else
        let c ← charAt line (len - 1)
        return if c = carriage then cutLast line len else (line, len)
    else return if c = carriage then cutLast line len else (line, len)

/-- A pass at the beginning of a field without a quote. -/
def plainPass (alloc : ℕ → Bool) (line : List Byte) (len : ℕ) (ctx : CsvParseContext σ) :
    Option (CsvPass σ) := do
  match ← memchr line comma len with
  | none =>
      let (line, len) ← cutEol line len
      let (ctx, ret) ← appendField alloc ctx line len
      return .done (ctx, if ret ≠ 0 then .err else .record)
  | some ptr =>
      let (ctx, ret) ← appendField alloc ctx line ptr
      if ret ≠ 0 then return .done (ctx, .err)
      else return whileLen (line.drop (ptr + 1)) (len - (ptr + 1)) ctx

/-- One pass of the loop. -/
def parseCsvPass (alloc : ℕ → Bool) (s : CsvLoop σ) : Option (CsvPass σ) :=
  if s.ctx.quoted = true then quotedPass alloc s.line s.len s.ctx
  else do
    let c ← s.line.head?
    if c = quote then
      let (ctx, ret) ← appendField alloc { s.ctx with quoted := true } [0] 0
      if ret ≠ 0 then return .done (ctx, .err)
      else return whileLen s.line.tail (pred32 s.len) ctx
    else plainPass alloc s.line s.len s.ctx

/-- The end of `parse_csv`: a record is handed over, with fresh fields for the next one. -/
def parseCsvEnd (cb : ℤ → List (Option (List Byte)) → ℕ → σ → Prog (σ × ℤ)) :
    CsvParseContext σ × CsvExit → Prog (CsvParseContext σ × ℤ)
  | (ctx, .out) => return (ctx, 0)
  | (ctx, .err) => return (ctx, -1)
  | (ctx, .record) => do
      let fields ← ctx.field.strv.readList 0 ctx.field.len
      let (user, ret) ← cb (toInt ctx.lineNumber) fields ctx.field.len ctx.user
      if ret ≠ 0 then return ({ ctx with user := user }, -1)
      else return ({ ctx with user := user, field := strvInit }, 0)

/-- `parse_csv` -/
def parseCsv (alloc : ℕ → Bool) (cb : ℤ → List (Option (List Byte)) → ℕ → σ → Prog (σ × ℤ))
    (line : List Byte) (len : ℕ) (ctx : CsvParseContext σ) : Prog (CsvParseContext σ × ℤ) := do
  let ctx := { ctx with lineNumber := u32 (ctx.lineNumber + 1) }
  let exit ← Prog.iterate (fun s => liftM (parseCsvPass alloc s)) ⟨line ++ [0], len, ctx⟩
  parseCsvEnd cb exit

/-- `csv_parse`, with `LINE_MAX = lineMax`; `file` is what `fopen` returns. -/
def csvParse (alloc lineAlloc : ℕ → Bool)
    (cb : ℤ → List (Option (List Byte)) → ℕ → σ → Prog (σ × ℤ)) (lineMax : ℕ)
    (file : Option Stream) (user : σ) : Prog (σ × ℤ) :=
  if alloc 0 then do
    let (ctx, ret) ← fileEachLine lineAlloc (parseCsv alloc cb) lineMax file
      ⟨0, strvInit, user, false, 1⟩
    if ret ≠ 0 then return (ctx.user, -1)
    else if ctx.quoted then return (ctx.user, -1)
    else return (ctx.user, 0)
  else return (user, -1)

end Libls.Csv
