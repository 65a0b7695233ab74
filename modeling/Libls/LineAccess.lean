import Libls.Csv
import Libls.FileLinesNul
import Libls.Ini

/-! # The accesses of `parse_ini` and `parse_csv` to their line

`parseIni` and `parseCsv` once more, over the bytes of a buffer: here every byte that the two callbacks
and the string functions they call read or write is a cell of a `Block`, so that an access outside the
buffer, or to a byte that has never been written, has no result.  The buffer holds the line with its
terminating NUL and nothing else; what `file_each_line` passes is longer.

`parse_csv` gives pieces of its line to the functions that append to the fields.  What those do with the
fields is a parameter here (`Fields`). -/

namespace Libls.LineAccess
open FileLines Strings

/-- A buffer with the line and its NUL. -/
def lineBlock (line : List Byte) : Block Byte := ⟨(line ++ [0]).map some⟩

/-! ### String functions -/

/-- The loop of `strlstrip`, where at most `n` cells are left. -/
def strlstripFrom (buf : Block Byte) (str : ℕ) : ℕ → Option ℕ
  | 0 => none
  | n + 1 => do
      let c ← buf.read str
      if isspace c then strlstripFrom buf (str + 1) n else return str

/-- `strlstrip` -/
def strlstrip (buf : Block Byte) (str : ℕ) : Option ℕ := strlstripFrom buf str (buf.size - str)

/-- The loop of `strrstrip`, where `end` is `str + n - 1`. -/
def strrstripLoop (buf : Block Byte) (str : ℕ) : ℕ → Option (Block Byte)
  | 0 => return buf
  | n + 1 => do
      let c ← buf.read (str + n)
      if isspace c then
        let buf ← buf.write (str + n) 0
        strrstripLoop buf str n
      else return buf

/-- `strrstrip`, which returns `str`. -/
def strrstrip (buf : Block Byte) (str : ℕ) : Option (Block Byte) := do
  let n ← strlen buf str
  strrstripLoop buf str n

/-- `strstrip` -/
def strstrip (buf : Block Byte) (str : ℕ) : Option (Block Byte × ℕ) := do
  let str ← strlstrip buf str
  let buf ← strrstrip buf str
  return (buf, str)

/-- `strchr(str, c)`, where at most `n` cells are left. -/
def strchrFrom (buf : Block Byte) (c : Byte) (str : ℕ) : ℕ → Option (Option ℕ)
  | 0 => none
  | n + 1 => do
      let d ← buf.read str
      if d = c then return some str
      else if d = 0 then return none
      else strchrFrom buf c (str + 1) n

/-- `strchr` -/
def strchr (buf : Block Byte) (str : ℕ) (c : Byte) : Option (Option ℕ) := strchrFrom buf c str (buf.size - str)

/-- `strndup`: it reads at most `n` bytes, up to the terminator. -/
def strndup (buf : Block Byte) (str : ℕ) : ℕ → Option (List Byte)
  | 0 => return []
  | n + 1 => do
      let c ← buf.read str
      if c = 0 then return []
      else return c :: (← strndup buf (str + 1) n)

/-- The string at `str`. -/
def stringAt (buf : Block Byte) (str : ℕ) : Option (List Byte) := strndup buf str (buf.size - str)

/-- `memchr` -/
def memchr (buf : Block Byte) (c : Byte) (str : ℕ) : ℕ → Option (Option ℕ)
  | 0 => return none
  | n + 1 => do
      let d ← buf.read str
      if d = c then return some str else memchr buf c (str + 1) n

/-- Whether `strcmp(str, str2) == 0`; `str2` comes with its NUL. -/
def strcmpEq (buf : Block Byte) (str : ℕ) : List Byte → Option Bool
  | [] => return true
  | d :: str2 => do
      let c ← buf.read str
      if c ≠ d then return false
      else if c = 0 then return true
      else strcmpEq buf (str + 1) str2

/-! ### `parse_ini` -/

section ini

open Ini

variable {σ : Type}

/-- `if (line[len - 1] == '\\n') line[--len] = '\\0'` -/
def cutNewline (buf : Block Byte) (len : ℕ) : Option (Block Byte) := do
  let last ← buf.read (pred32 len)
  if last = newline then buf.write (pred32 len) 0 else return buf

/-- The lines of `parse_ini` for a section. -/
def parseSection (alloc : ℕ → Bool) (buf : Block Byte) (name len : ℕ) (ctx : IniParseContext σ) :
    Option (IniParseContext σ × ℤ) := do
  let last ← buf.read (name + (len - 1))
  if last ≠ closeBracket ∨ len ≤ 2 then return (ctx, -1)
  else
    let copy ← strndup buf (name + 1) (len - 2)
    let ok := alloc ctx.allocations
    let sec := if ok then some copy else none
    return ({ ctx with «section» := sec, allocations := ctx.allocations + 1 }, if ok then 0 else -1)

/-- The lines of `parse_ini` that take the quotes off. -/
def unquote (buf : Block Byte) (value : ℕ) : Option (Block Byte × ℕ) := do
  let first ← buf.read value
  if first = quote then
    let len := u32 (← strlen buf value)
    if 2 ≤ len then
      let last ← buf.read (value + (len - 1))
      if last = quote then
        let buf ← buf.write (value + 1 + (len - 2)) 0
        return (buf, value + 1)
      else return (buf, value)
    else return (buf, value)
  else return (buf, value)

/-- The lines of `parse_ini` for a name and a value. -/
def parseEntry (cb : Callback σ) (buf : Block Byte) (name : ℕ) (ctx : IniParseContext σ) :
    Prog (IniParseContext σ × ℤ) := do
  match ← strchr buf 0 equals with
  | none => return (ctx, -1)
  | some value =>
      let buf ← buf.write value 0
      let buf ← strrstrip buf name
      let value ← strlstrip buf (value + 1)
      let c ← buf.read name
      if c = 0 then return (ctx, -1)
      else
        let (buf, value) ← unquote buf value
        let nameString ← stringAt buf name
        let valueString ← stringAt buf value
        let (user, ret) ← cb (toInt ctx.lineNumber) ctx.section nameString valueString ctx.user
        return ({ ctx with user := user }, if ret ≠ 0 then -1 else 0)

/-- The lines of `parse_ini` after the newline has been cut off. -/
def parseText (alloc : ℕ → Bool) (cb : Callback σ) (buf : Block Byte) (ctx : IniParseContext σ) :
    Prog (IniParseContext σ × ℤ) := do
  let first ← buf.read 0
  if first = semicolon ∨ first = hash then return (ctx, 0)
  else
    let (buf, name) ← strstrip buf 0
    let len := u32 (← strlen buf name)
    if len = 0 then return (ctx, 0)
    else
      let c ← buf.read name
      if c = openBracket then (parseSection alloc buf name len ctx : Option _)
      else parseEntry cb buf name ctx

/-- `parse_ini` -/
def parseIni (alloc : ℕ → Bool) (cb : Callback σ) (line : List Byte) (len : ℕ) (ctx : IniParseContext σ) :
    Prog (IniParseContext σ × ℤ) := do
  let buf ← cutNewline (lineBlock line) len
  parseText alloc cb buf { ctx with lineNumber := u32 (ctx.lineNumber + 1) }

end ini

/-! ### `parse_csv` -/

section csv

open Csv

variable {γ : Type}

/-- What `parse_csv` does with the pieces of its line. -/
structure Fields (γ : Type) where
  /-- `strv_append3(&ctx->field, str, len)` -/
  append : γ → List Byte → γ × ℤ
  /-- `append_to_last_field(ctx, str, len)` -/
  appendToLast : γ → List Byte → γ × ℤ
  /-- the callback, and new fields for the next record -/
  finish : γ → γ × ℤ

/-- The variables of the loop: the buffer, the pointer and the length, and what is in the context. -/
structure CsvLine (γ : Type) where
  buf : Block Byte
  line : ℕ
  len : ℕ
  quoted : Bool
  fields : γ

/-- What a pass decides. -/
abbrev CsvStep (γ : Type) := Iter (CsvLine γ) (Bool × γ × CsvExit)

/-- `while (len > 0)` -/
def whileLen (s : CsvLine γ) : CsvStep γ := if 0 < s.len then .next s else .done (s.quoted, s.fields, .record)

/-- What follows a closing quote. -/
def afterQuote (s : CsvLine γ) : Option (CsvStep γ) :=
  if s.len = 0 then return .done (s.quoted, s.fields, .record)
  else do
    let c ← s.buf.read s.line
    if c = comma then return whileLen { s with line := s.line + 1, len := s.len - 1 }
    else if 2 < s.len then return .done (s.quoted, s.fields, .err)
    else if s.len = 2 then
      let same ← strcmpEq s.buf s.line [carriage, newline, 0]
      return .done (s.quoted, s.fields, if same then .record else .err)
    else return .done (s.quoted, s.fields, if c ≠ carriage ∧ c ≠ newline then .err else .record)

/-- `ptr + 1 < line + len && *(ptr + 1) == '"'` -/
def doubled (s : CsvLine γ) (ptr : ℕ) : Option Bool :=
  if ptr + 1 < s.line + s.len then do
    let c ← s.buf.read (ptr + 1)
    return c = quote
  else return false

/-- A pass inside a quoted field. -/
def quotedPass (f : Fields γ) (s : CsvLine γ) : Option (CsvStep γ) := do
  match ← memchr s.buf quote s.line s.len with
  | none =>
      let str ← s.buf.readList s.line s.len
      let (fields, ret) := f.appendToLast s.fields str
      return .done (s.quoted, fields, if ret ≠ 0 then .err else .out)
  | some ptr =>
      if ← doubled s ptr then
        let str ← s.buf.readList s.line (ptr + 1 - s.line)
        let (fields, ret) := f.appendToLast s.fields str
        if ret ≠ 0 then return .done (s.quoted, fields, .err)
        else return whileLen ⟨s.buf, ptr + 2, s.len - (ptr + 2 - s.line), s.quoted, fields⟩
      else
        let str ← s.buf.readList s.line (ptr - s.line)
        let (fields, ret) := f.appendToLast s.fields str
        if ret ≠ 0 then return .done (s.quoted, fields, .err)
        else afterQuote ⟨s.buf, ptr + 1, s.len - (ptr + 1 - s.line), false, fields⟩

/-- `line[--len] = '\\0'` -/
def cutLast (buf : Block Byte) (line len : ℕ) : Option (Block Byte × ℕ) := do
  let buf ← buf.write (line + (len - 1)) 0
  return (buf, len - 1)

/-- Cut the end of the line off. -/
def cutEol (buf : Block Byte) (line len : ℕ) : Option (Block Byte × ℕ) :=
  if len = 0 then return (buf, len)
  else do
    let c ← buf.read (line + (len - 1))
    if c = newline then
      let (buf, len) ← cutLast buf line len
      if len = 0 then return (buf, len)
      else
        let c ← buf.read (line + (len - 1))
        if c = carriage then cutLast buf line len else return (buf, len)
    else if c = carriage then cutLast buf line len
    else return (buf, len)

/-- A pass at the beginning of a field without a quote. -/
def plainPass (f : Fields γ) (s : CsvLine γ) : Option (CsvStep γ) := do
  match ← memchr s.buf comma s.line s.len with
  | none =>
      let (buf, len) ← cutEol s.buf s.line s.len
      let str ← strndup buf s.line (toSize (toInt len))
      let (fields, ret) := f.append s.fields str
      return .done (s.quoted, fields, if ret ≠ 0 then .err else .record)
  | some ptr =>
      let str ← strndup s.buf s.line (toSize (toInt (ptr - s.line)))
      let (fields, ret) := f.append s.fields str
      if ret ≠ 0 then return .done (s.quoted, fields, .err)
      else return whileLen ⟨s.buf, ptr + 1, s.len - (ptr + 1 - s.line), s.quoted, fields⟩

/-- One pass of the loop. -/
def parseCsvPass (f : Fields γ) (s : CsvLine γ) : Option (CsvStep γ) :=
  if s.quoted = true then quotedPass f s
  else do
    let c ← s.buf.read s.line
    if c = quote then
      let (fields, ret) := f.append s.fields []
      if ret ≠ 0 then return .done (true, fields, .err)
      else return whileLen ⟨s.buf, s.line + 1, pred32 s.len, true, fields⟩
    else plainPass f s

/-- `parse_csv`, between two lines of which the context keeps `quoted` and the fields. -/
def parseCsv (f : Fields γ) (line : List Byte) (len : ℕ) (ctx : Bool × γ) : Prog ((Bool × γ) × ℤ) := do
  let (quoted, fields, exit) ← Prog.iterate (fun s => liftM (parseCsvPass f s))
    ⟨lineBlock line, 0, len, ctx.1, ctx.2⟩
  match exit with
  | .out => return ((quoted, fields), 0)
  | .err => return ((quoted, fields), -1)
  | .record =>
      let (fields, ret) := f.finish fields
      return ((quoted, fields), if ret ≠ 0 then -1 else 0)

end csv

end Libls.LineAccess
