import Libls.BitmapHex
import Libls.FindBit
import Libls.Strings

/-! # Bitmaps as lists of ranges: `bitmap_scnlistprintf` and `bitmap_parselist`

`bscnl_emit` keeps the length of the text so far in an `int`, on which arithmetic wraps around; a negative
one points in front of the buffer.  A string that is parsed comes with its NUL. -/

namespace Libls.Bitmaps
open Printf Strings

/-- `'-'` -/
def dash : Byte := 45

/-- `-ERANGE` -/
def erange : ℤ := -34

/-- `isdigit` -/
def isdigit (c : Byte) : Bool := 48 ≤ c && c ≤ 57

/-- The value that an `int` keeps of a number. -/
def int32 (n : ℤ) : ℤ := toInt (n % 2 ^ 32).toNat

/-! ### Printing -/

/-- `len += scnprintf(buf + len, buflen - len, ..)` -/
def put (buf : Block Byte) (buflen len : ℤ) (text : List Byte) : Option (Block Byte × ℤ) :=
  if len < 0 then none
  else do
    let (buf, n) ← scnprintf buf len.toNat (toSize (int32 (buflen - len))) text
    return (buf, int32 (len + n))

/-- `bscnl_emit` -/
def bscnlEmit (buf : Block Byte) (buflen : ℤ) (rbot rtop : ℕ) (len : ℤ) : Option (Block Byte × ℤ) := do
  let (buf, len) ← if 0 < len then put buf buflen len [comma] else some (buf, len)
  if rbot = rtop then put buf buflen len (decText rbot)
  else put buf buflen len (decText rbot ++ dash :: decText rtop)

/-- The variables of the loop of `bitmap_scnlistprintf`. -/
structure ListPrint where
  buf : Block Byte
  len : ℤ
  cur : ℕ
  rbot : ℕ

/-- One pass of the loop. -/
def printPass (buflen : ℤ) (maskp : Block Word) (nmaskbits : ℕ) (s : ListPrint) :
    Option (Iter ListPrint (Block Byte × ℤ)) :=
  if s.cur < nmaskbits then do
    let rtop := s.cur
    let cur ← findNextBit maskp nmaskbits (s.cur + 1)
    if nmaskbits ≤ cur ∨ rtop + 1 < cur then
      let (buf, len) ← bscnlEmit s.buf buflen s.rbot rtop s.len
      return .next ⟨buf, len, cur, cur⟩
    else return .next { s with cur := cur }
  else return .done (s.buf, s.len)

/-- `bitmap_scnlistprintf` -/
def bitmapScnlistprintf (buf : Block Byte) (buflen : ℕ) (maskp : Block Word) (nmaskbits : ℕ) :
    Prog (Block Byte × ℤ) :=
  if buflen = 0 then return (buf, 0)
  else do
    let buf ← buf.write 0 0
    let cur ← findFirstBit maskp nmaskbits
    Prog.iterate (fun s => (printPass (toInt buflen) maskp nmaskbits s : Option _)) ⟨buf, 0, cur, cur⟩

/-! ### Parsing -/

/-- The variables of the loop over the characters of a number or a range. -/
structure ListScan where
  buf : List Byte
  buflen : ℕ
  c : Byte
  a : ℕ
  b : ℕ
  expDigit : Bool
  inRange : Bool
  totaldigits : ℕ

/-- `while (buflen)` in `__bitmap_parselist`, with the number of passes left; an error is returned. -/
def listScan : ℕ → ListScan → Option (Except ℤ ListScan)
  | 0, s => some (.ok s)
  | n + 1, s =>
      match s.buf with
      | [] => none
      | c :: buf =>
          let oldC := s.c
          let s := { s with buf := buf, buflen := n, c := c }
          if isspace c then listScan n s
          -- embedded white space
          else if s.totaldigits ≠ 0 ∧ c ≠ 0 ∧ isspace oldC = true then some (.error einval)
          else if c = 0 ∨ c = comma then some (.ok s)
          else if c = dash then
            if s.expDigit ∨ s.inRange then some (.error einval)
            else listScan n { s with b := 0, inRange := true, expDigit := true }
          else if isdigit c = false then some (.error einval)
          else
            let b := u32 (s.b * 10 + (c.toNat - 48))
            listScan n { s with
              b := b
              a := if s.inRange then s.a else b
              expDigit := false
              totaldigits := s.totaldigits + 1 }

/-- `while (a <= b)`, with the number of passes left. -/
def setBits : ℕ → ℕ → Block Word → Option (Block Word)
  | 0, _, maskp => some maskp
  | n + 1, a, maskp => do setBits n (a + 1) (← setBit a maskp)

/-- The variables of the loop over the ranges. -/
structure ListParse where
  buf : List Byte
  buflen : ℕ
  c : Byte
  totaldigits : ℕ
  maskp : Block Word

/-- One pass of the loop over the ranges. -/
def parsePass (nmaskbits : ℕ) (p : ListParse) : Option (Iter ListParse (Block Word × ℤ)) := do
  let scanned ← listScan p.buflen ⟨p.buf, p.buflen, p.c, 0, 0, true, false, p.totaldigits⟩
  match scanned with
  | .error e => return .done (p.maskp, e)
  | .ok s =>
      if s.b < s.a then return .done (p.maskp, einval)
      else if nmaskbits ≤ s.b then return .done (p.maskp, erange)
      else
        let maskp ← setBits (s.b + 1 - s.a) s.a p.maskp
        if s.buflen ≠ 0 ∧ s.c = comma then return .next ⟨s.buf, s.buflen, s.c, s.totaldigits, maskp⟩
        else return .done (maskp, 0)

/-- `__bitmap_parselist` -/
def parselist (buf : List Byte) (buflen : ℕ) (maskp : Block Word) (nmaskbits : ℕ) : Prog (Block Word × ℤ) := do
  let maskp ← Inline.bitmapZero false maskp nmaskbits
  Prog.iterate (fun p => (parsePass nmaskbits p : Option _)) ⟨buf, buflen, 0, 0, maskp⟩

/-- `bitmap_parselist` -/
def bitmapParselist (bp : List Byte) (maskp : Block Word) (nmaskbits : ℕ) : Prog (Block Word × ℤ) :=
  let len := match strchrAt bp 0 10 with
    | some nl => nl
    | none => strlenAt bp 0
  parselist bp (u32 len) maskp nmaskbits

end Libls.Bitmaps
