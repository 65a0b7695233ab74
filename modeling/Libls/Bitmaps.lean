import Libls.Library.WordBits
import Libls.Strings

/-! # Bitmaps: `src/bitmap.c` and `include/ls/bitmap.h`

A bitmap is an array of `unsigned long`s of 64 bits (`BITS_PER_LONG`).  Where a function has a
destination, `none` as a source is the destination itself, the way `bitmap_parse` shifts in place.  Truth
values are `Bool`s.  A shift by 64 occurs only with the word 0, when a bitmap is shifted by whole words;
it gives 0.

`bitmapAnd` is `__bitmap_and` of the source file, and `Inline.bitmapAnd` is `bitmap_and` of the header;
likewise for the others.  The inline functions test `small_const_nbits(nbits)`, where `isConst` is what
`__builtin_constant_p(nbits)` says. -/

namespace Libls.Bitmaps
open Strings

/-- `unsigned long` -/
abbrev Word := BitVec 64

/-- `BITS_TO_LONGS` -/
def bitsToLongs (bits : ℕ) : ℕ := (bits + 63) / 64

/-- `BITMAP_LAST_WORD_MASK` -/
def lastWordMask (nbits : ℕ) : Word := if nbits % 64 ≠ 0 then (1 <<< (nbits % 64)) - 1 else ~~~0

/-- `memset(&dst[i], 0, n * sizeof(unsigned long))` -/
def memsetZero (dst : Block Word) (i n : ℕ) : Option (Block Word) := dst.writeList i (List.replicate n 0)

/-- `test_bit` -/
def testBit (nr : ℕ) (addr : Block Word) : Option Bool := do return 1 &&& (← addr.read (nr / 64)) >>> (nr % 64) != 0

/-- `set_bit` -/
def setBit (nr : ℕ) (addr : Block Word) : Option (Block Word) :=
  addr.modify (nr / 64) (· ||| (1 : Word) <<< (nr % 64))

/-- `__sw_hweight64`, with a fast multiplier. -/
def swHweight64 (w : Word) : Word :=
  let w := w - (w >>> 1 &&& 0x5555555555555555)
  let w := (w &&& 0x3333333333333333) + (w >>> 2 &&& 0x3333333333333333)
  let w := (w + w >>> 4) &&& 0x0f0f0f0f0f0f0f0f
  (w * 0x0101010101010101) >>> 56

/-- `hweight_long` -/
def hweightLong (w : Word) : Word := swHweight64 w

/-! ### Tests -/

/-- A loop over the words from `k` on that stops at the first one with `test k`. -/
def scanLoop (test : ℕ → Option Bool) : ℕ → ℕ → Option Bool
  | _, 0 => some false
  | k, n + 1 => do
      if ← test k then return true
      else scanLoop test (k + 1) n

/-- The tests of whole bitmaps: `test` is made for the full words, then `last` is masked. -/
def scan (test : ℕ → Option Bool) (last : ℕ → Option Word) (bits : ℕ) : Option Bool := do
  if ← scanLoop test 0 (bits / 64) then return true
  else if bits % 64 ≠ 0 then return (← last (bits / 64)) &&& lastWordMask bits != 0
  else return false

/-- `__bitmap_empty` -/
def bitmapEmpty (bitmap : Block Word) (bits : ℕ) : Option Bool :=
  (! ·) <$> scan (fun k => do return (← bitmap.read k) != 0) bitmap.read bits

/-- `__bitmap_full` -/
def bitmapFull (bitmap : Block Word) (bits : ℕ) : Option Bool :=
  (! ·) <$> scan (fun k => do return ~~~(← bitmap.read k) != 0) (fun k => do return ~~~(← bitmap.read k)) bits

/-- `__bitmap_equal` -/
def bitmapEqual (bitmap1 bitmap2 : Block Word) (bits : ℕ) : Option Bool :=
  (! ·) <$> scan (fun k => do return (← bitmap1.read k) != (← bitmap2.read k))
    (fun k => do return (← bitmap1.read k) ^^^ (← bitmap2.read k)) bits

/-- `__bitmap_intersects` -/
def bitmapIntersects (bitmap1 bitmap2 : Block Word) (bits : ℕ) : Option Bool :=
  scan (fun k => do return (← bitmap1.read k) &&& (← bitmap2.read k) != 0)
    (fun k => do return (← bitmap1.read k) &&& (← bitmap2.read k)) bits

/-- `__bitmap_subset` -/
def bitmapSubset (bitmap1 bitmap2 : Block Word) (bits : ℕ) : Option Bool :=
  (! ·) <$> scan (fun k => do return (← bitmap1.read k) &&& ~~~(← bitmap2.read k) != 0)
    (fun k => do return (← bitmap1.read k) &&& ~~~(← bitmap2.read k)) bits

/-- The loop of `__bitmap_weight`. -/
def weightLoop (bitmap : Block Word) : ℕ → ℕ → ℕ → Option ℕ
  | _, 0, w => some w
  | k, n + 1, w => do weightLoop bitmap (k + 1) n (u32 (w + (hweightLong (← bitmap.read k)).toNat))

/-- `__bitmap_weight` -/
def bitmapWeight (bitmap : Block Word) (bits : ℕ) : Option ℤ := do
  let w ← weightLoop bitmap 0 (bits / 64) 0
  if bits % 64 ≠ 0 then
    return toInt (u32 (w + (hweightLong ((← bitmap.read (bits / 64)) &&& lastWordMask bits)).toNat))
  else return toInt w

/-! ### Operations -/

/-- The loops of the operations: the words of the destination, and the `|=` of all of them. -/
def zipLoop (f : Word → Word → Word) (bitmap1 bitmap2 : Option (Block Word)) :
    ℕ → ℕ → Block Word → Word → Option (Block Word × Word)
  | _, 0, dst, result => some (dst, result)
  | k, n + 1, dst, result => do
      let v := f (← (bitmap1.getD dst).read k) (← (bitmap2.getD dst).read k)
      let dst ← dst.write k v
      zipLoop f bitmap1 bitmap2 (k + 1) n dst (result ||| v)

/-- `__bitmap_and` -/
def bitmapAnd (dst : Block Word) (bitmap1 bitmap2 : Option (Block Word)) (bits : ℕ) :
    Option (Block Word × Bool) := do
  let (dst, result) ← zipLoop (fun x y => x &&& y) bitmap1 bitmap2 0 (bitsToLongs bits) dst 0
  return (dst, result != 0)

/-- `__bitmap_or` -/
def bitmapOr (dst : Block Word) (bitmap1 bitmap2 : Option (Block Word)) (bits : ℕ) : Option (Block Word) := do
  let (dst, _) ← zipLoop (fun x y => x ||| y) bitmap1 bitmap2 0 (bitsToLongs bits) dst 0
  return dst

/-- `__bitmap_xor` -/
def bitmapXor (dst : Block Word) (bitmap1 bitmap2 : Option (Block Word)) (bits : ℕ) : Option (Block Word) := do
  let (dst, _) ← zipLoop (fun x y => x ^^^ y) bitmap1 bitmap2 0 (bitsToLongs bits) dst 0
  return dst

/-- `__bitmap_andnot` -/
def bitmapAndnot (dst : Block Word) (bitmap1 bitmap2 : Option (Block Word)) (bits : ℕ) :
    Option (Block Word × Bool) := do
  let (dst, result) ← zipLoop (fun x y => x &&& ~~~y) bitmap1 bitmap2 0 (bitsToLongs bits) dst 0
  return (dst, result != 0)

/-- The loop of `__bitmap_complement`. -/
def complementLoop (src : Option (Block Word)) : ℕ → ℕ → Block Word → Option (Block Word)
  | _, 0, dst => some dst
  | k, n + 1, dst => do
      let dst ← dst.write k (~~~(← (src.getD dst).read k))
      complementLoop src (k + 1) n dst

/-- `__bitmap_complement` -/
def bitmapComplement (dst : Block Word) (src : Option (Block Word)) (bits : ℕ) : Option (Block Word) := do
  let dst ← complementLoop src 0 (bits / 64) dst
  if bits % 64 ≠ 0 then dst.write (bits / 64) (~~~(← (src.getD dst).read (bits / 64)) &&& lastWordMask bits)
  else return dst

/-! ### Shifts -/

section shifts
variable (src : Option (Block Word)) (lim left off r : ℕ)

/-- `upper` in `__bitmap_shift_right`. -/
def shiftRightUpper (src : Block Word) (k : ℕ) : Option Word :=
  if r = 0 ∨ lim ≤ off + k + 1 then return 0
  else do
    let upper ← src.read (off + k + 1)
    return if off + k + 1 = lim - 1 ∧ left ≠ 0 then upper &&& ((1 <<< left) - 1) else upper

/-- `lower` in `__bitmap_shift_right`. -/
def shiftRightLower (src : Block Word) (k : ℕ) : Option Word := do
  let lower ← src.read (off + k)
  return if left ≠ 0 ∧ off + k = lim - 1 then lower &&& ((1 <<< left) - 1) else lower

/-- `if (left && k == lim - 1) dst[k] &= mask` -/
def maskLast (k : ℕ) (dst : Block Word) : Option (Block Word) :=
  if left ≠ 0 ∧ k = lim - 1 then dst.modify k (· &&& ((1 <<< left) - 1)) else return dst

/-- The loop of `__bitmap_shift_right`, with the number of passes left; `r` is `rem`. -/
def shiftRightLoop : ℕ → ℕ → Block Word → Option (Block Word)
  | _, 0, dst => some dst
  | k, n + 1, dst => do
      let upper ← shiftRightUpper lim left off r (src.getD dst) k
      let lower ← shiftRightLower lim left off (src.getD dst) k
      let dst ← dst.write k (upper <<< (64 - r) ||| lower >>> r)
      shiftRightLoop (k + 1) n (← maskLast lim left k dst)

/-- `lower` in `__bitmap_shift_left`. -/
def shiftLeftLower (src : Block Word) (k : ℕ) : Option Word :=
  if r ≠ 0 ∧ 0 < k then src.read (k - 1) else return 0

/-- `upper` in `__bitmap_shift_left`. -/
def shiftLeftUpper (src : Block Word) (k : ℕ) : Option Word := do
  let upper ← src.read k
  return if left ≠ 0 ∧ k = lim - 1 then upper &&& ((1 <<< left) - 1) else upper

/-- The loop of `__bitmap_shift_left`, from `k - 1` down to 0. -/
def shiftLeftLoop : ℕ → Block Word → Option (Block Word)
  | 0, dst => some dst
  | k + 1, dst => do
      let lower ← shiftLeftLower r (src.getD dst) k
      let upper ← shiftLeftUpper lim left (src.getD dst) k
      let dst ← dst.write (k + off) (lower >>> (64 - r) ||| upper <<< r)
      shiftLeftLoop k (← maskLast lim left (k + off) dst)

end shifts

/-- `__bitmap_shift_right` -/
def bitmapShiftRight (dst : Block Word) (src : Option (Block Word)) (shift bits : ℕ) : Option (Block Word) := do
  let lim := bitsToLongs bits
  let off := shift / 64
  let dst ← shiftRightLoop src lim (bits % 64) off (shift % 64) 0 (lim - off) dst
  if off = 0 then return dst
  else if off ≤ lim then memsetZero dst (lim - off) off
  else none

/-- `__bitmap_shift_left` -/
def bitmapShiftLeft (dst : Block Word) (src : Option (Block Word)) (shift bits : ℕ) : Option (Block Word) := do
  let lim := bitsToLongs bits
  let off := shift / 64
  let dst ← shiftLeftLoop src lim (bits % 64) off (shift % 64) (lim - off) dst
  if off = 0 then return dst
  else memsetZero dst 0 off

/-! ### The inline functions -/

namespace Inline
variable (isConst : Bool) (dst : Block Word)

/-- `small_const_nbits` -/
def smallConstNbits (nbits : ℕ) : Bool := isConst && decide (nbits ≤ 64)

def bitmapZero (nbits : ℕ) : Option (Block Word) :=
  if smallConstNbits isConst nbits then dst.write 0 0 else memsetZero dst 0 (bitsToLongs nbits)

def bitmapAnd (src1 src2 : Option (Block Word)) (nbits : ℕ) : Option (Block Word × Bool) :=
  if smallConstNbits isConst nbits then do
    let v := (← (src1.getD dst).read 0) &&& (← (src2.getD dst).read 0)
    let dst ← dst.write 0 v
    return (dst, v != 0)
  else Bitmaps.bitmapAnd dst src1 src2 nbits

def bitmapOr (src1 src2 : Option (Block Word)) (nbits : ℕ) : Option (Block Word) :=
  if smallConstNbits isConst nbits then do
    dst.write 0 ((← (src1.getD dst).read 0) ||| (← (src2.getD dst).read 0))
  else Bitmaps.bitmapOr dst src1 src2 nbits

def bitmapXor (src1 src2 : Option (Block Word)) (nbits : ℕ) : Option (Block Word) :=
  if smallConstNbits isConst nbits then do
    dst.write 0 ((← (src1.getD dst).read 0) ^^^ (← (src2.getD dst).read 0))
  else Bitmaps.bitmapXor dst src1 src2 nbits

def bitmapAndnot (src1 src2 : Option (Block Word)) (nbits : ℕ) : Option (Block Word × Bool) :=
  if smallConstNbits isConst nbits then do
    let v := (← (src1.getD dst).read 0) &&& ~~~(← (src2.getD dst).read 0)
    let dst ← dst.write 0 v
    return (dst, v != 0)
  else Bitmaps.bitmapAndnot dst src1 src2 nbits

def bitmapComplement (src : Option (Block Word)) (nbits : ℕ) : Option (Block Word) :=
  if smallConstNbits isConst nbits then do
    dst.write 0 (~~~(← (src.getD dst).read 0) &&& lastWordMask nbits)
  else Bitmaps.bitmapComplement dst src nbits

def bitmapEqual (src1 src2 : Block Word) (nbits : ℕ) : Option Bool :=
  if smallConstNbits isConst nbits then do
    return ((← src1.read 0) ^^^ (← src2.read 0)) &&& lastWordMask nbits == 0
  else Bitmaps.bitmapEqual src1 src2 nbits

def bitmapIntersects (src1 src2 : Block Word) (nbits : ℕ) : Option Bool :=
  if smallConstNbits isConst nbits then do
    return ((← src1.read 0) &&& (← src2.read 0)) &&& lastWordMask nbits != 0
  else Bitmaps.bitmapIntersects src1 src2 nbits

def bitmapSubset (src1 src2 : Block Word) (nbits : ℕ) : Option Bool :=
  if smallConstNbits isConst nbits then do
    return ((← src1.read 0) &&& ~~~(← src2.read 0)) &&& lastWordMask nbits == 0
  else Bitmaps.bitmapSubset src1 src2 nbits

def bitmapEmpty (src : Block Word) (nbits : ℕ) : Option Bool :=
  if smallConstNbits isConst nbits then do return (← src.read 0) &&& lastWordMask nbits == 0
  else Bitmaps.bitmapEmpty src nbits

def bitmapFull (src : Block Word) (nbits : ℕ) : Option Bool :=
  if smallConstNbits isConst nbits then do return ~~~(← src.read 0) &&& lastWordMask nbits == 0
  else Bitmaps.bitmapFull src nbits

def bitmapWeight (src : Block Word) (nbits : ℕ) : Option ℤ :=
  if smallConstNbits isConst nbits then do
    return toInt (u32 (hweightLong ((← src.read 0) &&& lastWordMask nbits)).toNat)
  else Bitmaps.bitmapWeight src nbits

def bitmapShiftRight (src : Option (Block Word)) (n nbits : ℕ) : Option (Block Word) :=
  if smallConstNbits isConst nbits then do dst.write 0 ((← (src.getD dst).read 0) >>> n)
  else Bitmaps.bitmapShiftRight dst src n nbits

def bitmapShiftLeft (src : Option (Block Word)) (n nbits : ℕ) : Option (Block Word) :=
  if smallConstNbits isConst nbits then do
    dst.write 0 ((← (src.getD dst).read 0) <<< n &&& lastWordMask nbits)
  else Bitmaps.bitmapShiftLeft dst src n nbits

end Inline

/-! ### Bitmaps -/

/-- A bitmap of `bits` bits, as `DECLARE_BITMAP` declares it: every word has a value, and the unused bits
of the last word are arbitrary. -/
structure Bitmap (bits : ℕ) where
  block : Block Word
  size : block.size = bitsToLongs bits
  written : ∀ k < bitsToLongs bits, (block.read k).isSome

namespace Bitmap
variable {bits : ℕ}

/-- The words of a bitmap. -/
def word (a : Bitmap bits) (k : ℕ) : Word := (a.block.read k).getD 0

/-- The bit at a position. -/
def bit (a : Bitmap bits) (i : ℕ) : Bool := WordBits.bitAt a.word i

theorem read (a : Bitmap bits) {k : ℕ} (hk : k < bitsToLongs bits) : a.block.read k = some (a.word k) := by
  obtain ⟨v, hv⟩ := Option.isSome_iff_exists.mp (a.written k hk)
  unfold word
  rw [hv]
  rfl

/-- The positions that are set. -/
def positions (a : Bitmap bits) : Finset ℕ := (Finset.range bits).filter fun i => a.bit i = true

/-- The bits behind the last position are 0. -/
def Clean (a : Bitmap bits) : Prop := ∀ i, bits ≤ i → a.bit i = false

end Bitmap

end Libls.Bitmaps
