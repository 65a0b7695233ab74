import Libls.Bitmaps
import Libls.Library.Prog
import Libls.Percent
import Libls.Printf

/-! # Bitmaps as hexadecimal text: `bitmap_scnprintf` and `bitmap_parse`

Both work on chunks of 32 bits (`CHUNKSZ`).  The loop of `bitmap_scnprintf` counts bits down in steps of a
chunk, here it counts chunks: `i` is `CHUNKSZ * m`.  `bitmap_parse` gets the characters from `buf` on; a
character behind them has no value. -/

namespace Libls.Bitmaps
open Percent Printf Strings

/-- `','` -/
def comma : Byte := 44

/-- `-EINVAL` -/
def einval : ℤ := -22

/-- `-EOVERFLOW` -/
def eoverflow : ℤ := -75

/-! ### Printing -/

/-- The loop of `bitmap_scnprintf`: `m` chunks are still to be written, the first one of `chunksz` bits. -/
def hexLoop (buflen : ℕ) (maskp : Block Word) : ℕ → ℕ → List Byte → ℕ → Block Byte → Option (Block Byte × ℕ)
  | 0, _, _, len, buf => some (buf, len)
  | m + 1, chunksz, sep, len, buf => do
      let i := 32 * m
      let chunkmask := u32 (2 ^ chunksz - 1)
      let val := ((← maskp.read (i / 64)) >>> (i % 64)).toNat &&& chunkmask
      let (buf, n) ← scnprintf buf len (u32 (buflen + 2 ^ 32 - len)) (sep ++ hexText ((chunksz + 3) / 4) val)
      hexLoop buflen maskp m 32 [comma] (len + n) buf

/-- `bitmap_scnprintf` -/
def bitmapScnprintf (buf : Block Byte) (buflen : ℕ) (maskp : Block Word) (nmaskbits : ℕ) :
    Option (Block Byte × ℕ) :=
  let chunksz := if nmaskbits &&& 31 = 0 then 32 else nmaskbits &&& 31
  hexLoop buflen maskp ((nmaskbits + 31) / 32) chunksz [] 0 buf

/-! ### Parsing -/

/-- `fls` -/
def fls (x : ℕ) : ℕ := Nat.size x

/-- `nbits_to_hold_value` -/
abbrev nbitsToHoldValue (val : ℕ) : ℕ := fls val

/-- The variables of the loop over the characters of a chunk. -/
structure HexScan where
  buf : List Byte
  buflen : ℕ
  c : Byte
  chunk : ℕ
  ndigits : ℕ
  totaldigits : ℕ

/-- `while (buflen)` in `bitmap_parse`, with the number of passes left; an error is returned. -/
def hexScan : ℕ → HexScan → Option (Except ℤ HexScan)
  | 0, s => some (.ok s)
  | n + 1, s =>
      match s.buf with
      | [] => none
      | c :: buf =>
          let oldC := s.c
          let s := { s with buf := buf, buflen := n, c := c }
          if isspace c then hexScan n s
          -- embedded white space
          else if s.totaldigits ≠ 0 ∧ c ≠ 0 ∧ isspace oldC = true then some (.error einval)
          else if c = 0 ∨ c = comma then some (.ok s)
          else if isxdigit c = false then some (.error einval)
          -- the digit would overflow the chunk
          else if 2 ^ 28 ≤ s.chunk then some (.error eoverflow)
          else
            hexScan n { s with
              chunk := u32 (s.chunk <<< 4) ||| (hexToBin c).toNat
              ndigits := s.ndigits + 1
              totaldigits := s.totaldigits + 1 }

/-- The variables of the loop over the chunks.  The source keeps `nbits` in an `int`.  A chunk adds at most 32
to an `nbits` of at most `nmaskbits`, so nothing wraps for an `nmaskbits` of at most `2 ^ 31 - 33`; with a
larger one only a text of `2 ^ 26` chunks gets there.  `nchunks` and `totaldigits` are at most the length of
the text. -/
structure HexParse where
  buf : List Byte
  buflen : ℕ
  c : Byte
  totaldigits : ℕ
  maskp : Block Word
  nchunks : ℕ
  nbits : ℕ

/-- The end of the loop over the chunks. -/
def hexNext (p : HexParse) : Iter HexParse (Block Word × ℤ) :=
  if p.buflen ≠ 0 ∧ p.c = comma then .next p else .done (p.maskp, 0)

/-- The lines of `bitmap_parse` that add a chunk. -/
def addChunk (nmaskbits chunk : ℕ) (p : HexParse) : Option (Iter HexParse (Block Word × ℤ)) := do
  let maskp ← bitmapShiftLeft p.maskp none 32 nmaskbits
  let maskp ← maskp.modify 0 (· ||| BitVec.ofNat 64 chunk)
  let nchunks := p.nchunks + 1
  let nbits := p.nbits + if nchunks = 1 then nbitsToHoldValue chunk else 32
  if nmaskbits < nbits then return .done (maskp, eoverflow)
  else return hexNext { p with maskp := maskp, nchunks := nchunks, nbits := nbits }

/-- One pass of the loop over the chunks. -/
def hexPass (nmaskbits : ℕ) (p : HexParse) : Option (Iter HexParse (Block Word × ℤ)) := do
  let scanned ← hexScan p.buflen ⟨p.buf, p.buflen, p.c, 0, 0, p.totaldigits⟩
  match scanned with
  | .error e => return .done (p.maskp, e)
  | .ok s =>
      let p := { p with buf := s.buf, buflen := s.buflen, c := s.c, totaldigits := s.totaldigits }
      if s.ndigits = 0 then return .done (p.maskp, einval)
      else if p.nchunks = 0 ∧ s.chunk = 0 then return hexNext p
      else addChunk nmaskbits s.chunk p

/-- `bitmap_parse` -/
def bitmapParse (buf : List Byte) (buflen : ℕ) (maskp : Block Word) (nmaskbits : ℕ) : Prog (Block Word × ℤ) := do
  let maskp ← Inline.bitmapZero false maskp nmaskbits
  Prog.iterate (fun p => (hexPass nmaskbits p : Option _)) ⟨buf, buflen, 0, 0, maskp, 0, 0⟩

end Libls.Bitmaps
