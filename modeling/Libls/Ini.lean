import Libls.FileLines
import Libls.Strings

/-! # Reading INI files: `src/ini.c`

`parseIni` is the callback that `file_each_line` calls with each line.  `name` and `value` point into
the line, which the code cuts into strings by writing NULs; the line is the list of its bytes with the
terminating NUL, and pointers are offsets into it.

`alloc n` says whether the `n`-th allocation made here succeeds, `file_each_line` having its own;
`alloc 0` is the one that makes the context.  The user's callback gets the line number, the section,
the name, the value and its own state. -/

namespace Libls.Ini
open FileLines Strings

/-- `'"'` -/
def quote : Byte := 34

/-- `'['` -/
def openBracket : Byte := 91

/-- `']'` -/
def closeBracket : Byte := 93

/-- `'='` -/
def equals : Byte := 61

/-- `';'` -/
def semicolon : Byte := 59

/-- `'#'` -/
def hash : Byte := 35

variable {σ : Type}

/-- The type of the user's callback. -/
abbrev Callback (σ : Type) :=
  ℤ → Option (List Byte) → List Byte → List Byte → σ → Prog (σ × ℤ)

/-- `struct ini_parse_context`, with the state of the user's callback and the number of the
allocations so far. -/
structure IniParseContext (σ : Type) where
  «section» : Option (List Byte)
  lineNumber : ℕ
  user : σ
  allocations : ℕ

/-- The lines of `parse_ini` for a section. -/
def parseSection (alloc : ℕ → Bool) (line : List Byte) (name len : ℕ) (ctx : IniParseContext σ) :
    Option (IniParseContext σ × ℤ) := do
  let last ← charAt line (name + (len - 1))
  if last ≠ closeBracket ∨ len ≤ 2 then return (ctx, -1)
  else
    let ok := alloc ctx.allocations
    let sec := if ok then some (strndup (line.drop (name + 1)) (len - 2)) else none
    return ({ ctx with «section» := sec, allocations := ctx.allocations + 1 }, if ok then 0 else -1)

/-- The lines of `parse_ini` that take the quotes off. -/
def unquote (line : List Byte) (value : ℕ) : Option (List Byte × ℕ) := do
  let first ← charAt line value
  if first = quote then
    let len := u32 (strlenAt line value)
    if 2 ≤ len then
      let last ← charAt line (value + (len - 1))
      if last = quote then return (line.set (value + 1 + (len - 2)) 0, value + 1)
      else return (line, value)
    else return (line, value)
  else return (line, value)

/-- The lines of `parse_ini` for a name and a value. -/
def parseEntry (cb : Callback σ) (line : List Byte) (name : ℕ) (ctx : IniParseContext σ) :
    Prog (IniParseContext σ × ℤ) :=
  match strchrAt line 0 equals with
  | none => return (ctx, -1)
  | some value => do
      let line := line.set value 0
      let line := strrstrip line name
      let value := strlstrip line (value + 1)
      let c ← charAt line name
      if c = 0 then return (ctx, -1)
      else
        let (line, value) ← unquote line value
        let (user, ret) ← cb (toInt ctx.lineNumber) ctx.section (stringAt line name) (stringAt line value)
          ctx.user
        return ({ ctx with user := user }, if ret ≠ 0 then -1 else 0)

/-- The lines of `parse_ini` after the newline has been cut off. -/
def parseText (alloc : ℕ → Bool) (cb : Callback σ) (line : List Byte) (ctx : IniParseContext σ) :
    Prog (IniParseContext σ × ℤ) := do
  let first ← charAt line 0
  if first = semicolon ∨ first = hash then return (ctx, 0)
  else
    let (line, name) := strstrip line 0
    let len := u32 (strlenAt line name)
    if len = 0 then return (ctx, 0)
    else
      let c ← charAt line name
      if c = openBracket then (parseSection alloc line name len ctx : Option _)
      else parseEntry cb line name ctx

/-- `if (line[len - 1] == '\\n') line[--len] = '\\0'` -/
def cutNewline (line : List Byte) (len : ℕ) : Option (List Byte) := do
  let last ← charAt line (pred32 len)
  return if last = newline then line.set (pred32 len) 0 else line

/-- `parse_ini` -/
def parseIni (alloc : ℕ → Bool) (cb : Callback σ) (line : List Byte) (len : ℕ)
    (ctx : IniParseContext σ) : Prog (IniParseContext σ × ℤ) := do
  let line ← cutNewline (line ++ [0]) len
  parseText alloc cb line { ctx with lineNumber := u32 (ctx.lineNumber + 1) }

/-- `ini_parse`, with `LINE_MAX = lineMax`; `file` is what `fopen` returns. -/
def iniParse (alloc lineAlloc : ℕ → Bool) (cb : Callback σ) (lineMax : ℕ) (file : Option Stream)
    (user : σ) : Prog (σ × ℤ) :=
  if alloc 0 then do
    let (ctx, ret) ← fileEachLine lineAlloc (parseIni alloc cb) lineMax file ⟨none, 0, user, 1⟩
    return (ctx.user, if ret ≠ 0 then -1 else 0)
  else return (user, -1)

end Libls.Ini
