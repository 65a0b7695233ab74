import Libls.Library.Lines
import Libls.Library.Memory
import Libls.Library.Prog

/-! # Reading a file line by line: `src/file.c`

`fileEachLine` is `file_each_line`, with the two functions of the C library it rests on.  `fgets`
behaves as in ISO C: it stops after a newline, when the buffer is full, or at the end of the
file, and sets the end-of-file flag only when it tried to read past the last byte; what it does
with a size that is not positive as an `int` is not defined.  A stream may also break, which
`ferror` reports.  Lengths and sizes are `unsigned int`s.

`alloc n` says whether an allocation of `n` bytes succeeds; `realloc` to size 0 is not defined. -/

namespace Libls.FileLines

/-- `'\\n'` -/
def newline : Byte := 10

/-! ### The C library -/

/-- An open file: the bytes not read yet, whether reading past them fails, and the two flags. -/
structure Stream where
  rest : List Byte
  broken : Bool := false
  eof : Bool := false
  error : Bool := false
deriving DecidableEq, Repr

/-- Read at most `k` bytes and stop after a newline: the bytes, what is left, and whether there
was an attempt to read past the last byte. -/
def fgetsBytes : ℕ → List Byte → List Byte × List Byte × Bool
  | 0, rest => ([], rest, false)
  | _ + 1, [] => ([], [], true)
  | k + 1, c :: rest =>
      if c = newline then ([c], rest, false)
      else
        let (s, rest, past) := fgetsBytes k rest
        (c :: s, rest, past)

/-- `fgets(buf + len, n, stream)`; no buffer is the null pointer. -/
def fgets (buf : Block Byte) (len n : ℕ) (stream : Stream) : Option (Option (Block Byte) × Stream) :=
  if n = 0 ∨ 2 ^ 31 ≤ n then none
  else
    match fgetsBytes (n - 1) stream.rest with
    | (s, rest, past) =>
        if past = true ∧ stream.broken = true then
          some (none, { stream with rest := rest, error := true })
        else
          let stream := { stream with rest := rest, eof := stream.eof || past }
          if past = true ∧ s = [] then some (none, stream)
          else do
            let buf ← buf.writeList len (s ++ [0])
            return (some buf, stream)

/-- `strlen(buf + i)`, where at most `n` cells are left. -/
def strlenFrom (buf : Block Byte) (i : ℕ) : ℕ → Option ℕ
  | 0 => none
  | n + 1 => do
      let c ← buf.read i
      if c = 0 then return 0
      else return (← strlenFrom buf (i + 1) n) + 1

def strlen (buf : Block Byte) (i : ℕ) : Option ℕ := strlenFrom buf i (buf.size - i)

/-! ### `file_each_line` -/

variable {σ : Type}

/-- The variables of the loop, and the state of the callback. -/
structure LineLoop (σ : Type) where
  buf : Block Byte
  bufSize : ℕ
  len : ℕ
  stream : Stream
  user : σ

/-- `buf[len - 1] != '\\n' && len == buf_size - 1 && !feof(fh)` -/
def bufferFull (buf : Block Byte) (bufSize len : ℕ) (stream : Stream) : Option Bool := do
  let last ← buf.read (u32 (len + 2 ^ 32 - 1))
  return last != newline && len == u32 (bufSize + 2 ^ 32 - 1) && !stream.eof

/-- One pass of the loop; it leaves with the state of the callback and the return value. -/
def fileEachLinePass (alloc : ℕ → Bool) (cb : List Byte → ℕ → σ → Prog (σ × ℤ)) (s : LineLoop σ) :
    Prog (Iter (LineLoop σ) (σ × ℤ)) := do
  let (buf, stream) ← fgets s.buf s.len (u32 (s.bufSize + 2 ^ 32 - s.len)) s.stream
  match buf with
  | none => return .done (s.user, if stream.error then -1 else 0)
  | some buf =>
      let len := u32 (s.len + (← strlen buf s.len))
      if ← bufferFull buf s.bufSize len stream then
        let newBufSize := u32 (s.bufSize * 2)
        if newBufSize = 0 then Prog.abort
        else if alloc newBufSize then
          return .next ⟨buf.realloc newBufSize, newBufSize, len, stream, s.user⟩
        else return .done (s.user, -1)
      else
        let line ← buf.readList 0 len
        let (user, ret) ← cb line len s.user
        if ret ≠ 0 then return .done (user, -1)
        else return .next ⟨buf, s.bufSize, 0, stream, user⟩

/-- `file_each_line` with `LINE_MAX = lineMax`; `file` is what `fopen` returns.  The callback
gets the bytes of the line up to its terminator, and its length. -/
def fileEachLine (alloc : ℕ → Bool) (cb : List Byte → ℕ → σ → Prog (σ × ℤ)) (lineMax : ℕ)
    (file : Option Stream) (user : σ) : Prog (σ × ℤ) :=
  match file with
  | none => return (user, -1)
  | some stream =>
      if alloc lineMax then
        Prog.iterate (fileEachLinePass alloc cb)
          ⟨Block.null.realloc lineMax, u32 lineMax, 0, stream, user⟩
      else return (user, -1)

end Libls.FileLines
