import Mathlib.Tactic
import Libls.Library.Memory
import Libls.Library.Prog

/-! # URL and percent encoding: `src/url_encode.c` and `src/percent_encode.c`

The two encoders differ in their unreserved characters and in `plus`, which says whether a space
becomes `'+'`; the two decoders differ in whether `'+'` becomes a space.  `raw` and `enc` are blocks,
`ok` says whether `malloc` succeeds, and a decoder returns what it leaves in the block with its
return value.  A `size_t` is a number here. -/

namespace Libls.Percent

/-! ### Characters -/

/-- `'%'` -/
def percentSign : Byte := 37

/-- `'+'` -/
def plusSign : Byte := 43

/-- `' '` -/
def space : Byte := 32

/-- `is_url_unreserved` -/
def isUrlUnreserved (c : Byte) : Bool :=
  97 ≤ c && c ≤ 122 || 65 ≤ c && c ≤ 90 || 48 ≤ c && c ≤ 57 || c == 45 || c == 95 || c == 46

/-- `is_rfc3986_unreserved` -/
def isRfc3986Unreserved (c : Byte) : Bool :=
  97 ≤ c && c ≤ 122 || 65 ≤ c && c ≤ 90 || 48 ≤ c && c ≤ 57 || c == 45 || c == 95 || c == 46 ||
    c == 126

/-- `hex_asc_upper` -/
def hexAscUpper : List Byte := "0123456789ABCDEF".toList.map fun c => UInt8.ofNat c.toNat

/-- `hex_asc_upper_hi` -/
def hexAscUpperHi (c : Byte) : Option Byte := hexAscUpper[(c.toNat &&& 0xf0) >>> 4]?

/-- `hex_asc_upper_lo` -/
def hexAscUpperLo (c : Byte) : Option Byte := hexAscUpper[c.toNat &&& 0x0f]?

/-- `isxdigit` -/
def isxdigit (c : Byte) : Bool :=
  48 ≤ c && c ≤ 57 || 97 ≤ c && c ≤ 102 || 65 ≤ c && c ≤ 70

/-- `tolower` -/
def tolower (c : Byte) : Byte := if 65 ≤ c ∧ c ≤ 90 then c + 32 else c

/-- `hex_to_bin` -/
def hexToBin (ch : Byte) : ℤ :=
  if 48 ≤ ch ∧ ch ≤ 57 then ch.toNat - 48
  else
    let ch := tolower ch
    if 97 ≤ ch ∧ ch ≤ 102 then ch.toNat - 97 + 10 else -1

/-! ### Encoding -/

section encode
variable (unreserved : Byte → Bool) (plus : Bool)

/-- A pass of the first loop over `i` and `len`. -/
def countPass (uc : Block Byte) (size : ℕ) (p : ℕ × ℕ) : Option (Iter (ℕ × ℕ) ℕ) :=
  let (i, len) := p
  if i < size then do
    let c ← uc.read i
    if unreserved c then return .next (i + 1, len + 1)
    else if plus ∧ c = space then return .next (i + 1, len + 1)
    else return .next (i + 1, len + 3)
  else return .done len

/-- The first loop.  `len` is at most `3 * size`, and a block has fewer than `2 ^ 57` bytes, since addresses
have at most 57 bits: the `size_t`s `len` and `len + 1` do not wrap. -/
def encodedLen (uc : Block Byte) (size : ℕ) : Prog ℕ :=
  Prog.iterate (fun p => liftM (countPass unreserved plus uc size p)) (0, 0)

/-- What the second loop writes for a byte, from `len` on. -/
def putByte (c : Byte) (len : ℕ) (enc : Block Byte) : Option (ℕ × Block Byte) :=
  if unreserved c then do return (len + 1, ← enc.write len c)
  else if plus ∧ c = space then do return (len + 1, ← enc.write len plusSign)
  else do
    let enc ← enc.write len percentSign
    let enc ← enc.write (len + 1) (← hexAscUpperHi c)
    let enc ← enc.write (len + 2) (← hexAscUpperLo c)
    return (len + 3, enc)

/-- A pass of the second loop over `i`, `len` and `enc`. -/
def encodePass (uc : Block Byte) (size : ℕ) (p : ℕ × ℕ × Block Byte) :
    Option (Iter (ℕ × ℕ × Block Byte) (ℕ × Block Byte)) :=
  let (i, len, enc) := p
  if i < size then do
    let c ← uc.read i
    let (len, enc) ← putByte unreserved plus c len enc
    return .next (i + 1, len, enc)
  else return .done (len, enc)

def encodeWith (ok : Bool) (raw : Block Byte) (size : ℕ) : Prog (Option (Block Byte)) := do
  let len ← encodedLen unreserved plus raw size
  if ok then do
    let (len, enc) ← Prog.iterate (fun p => liftM (encodePass unreserved plus raw size p))
      (0, 0, Block.null.realloc (len + 1))
    let enc ← enc.write len 0
    return some enc
  else return none

end encode

/-- `url_encode` -/
def urlEncode : Bool → Block Byte → ℕ → Prog (Option (Block Byte)) := encodeWith isUrlUnreserved true

/-- `percent_encode` -/
def percentEncode : Bool → Block Byte → ℕ → Prog (Option (Block Byte)) :=
  encodeWith isRfc3986Unreserved false

/-! ### Decoding -/

/-- The variables of the loop: `to` and `from` as offsets, and the block. -/
structure DecodeLoop where
  dst : ℕ
  src : ℕ
  enc : Block Byte

/-- The lines of a pass for an escape; nothing if it is malformed. -/
def decodeEscape (fin : ℕ) (s : DecodeLoop) : Option (Option DecodeLoop) :=
  if s.src + 2 ≥ fin then return none
  else do
    let hi ← s.enc.read (s.src + 1)
    if isxdigit hi then do
      let lo ← s.enc.read (s.src + 2)
      if isxdigit lo then do
        let enc ← s.enc.write s.dst (UInt8.ofNat ((hexToBin hi).toNat <<< 4 ||| (hexToBin lo).toNat))
        return some { s with src := s.src + 2, enc := enc }
      else return none
    else return none

/-- `if (to != from) *to = *from` -/
def copyChar (s : DecodeLoop) (c : Byte) : Option (Block Byte) :=
  if s.dst ≠ s.src then s.enc.write s.dst c else some s.enc

/-- A pass of a decoder; it leaves with the return value. -/
def decodePass (plus : Bool) (fin : ℕ) (s : DecodeLoop) : Option (Iter DecodeLoop (Block Byte × ℤ)) :=
  if s.src < fin then do
    let c ← s.enc.read s.src
    if c = percentSign then
      match ← decodeEscape fin s with
      | none => return .done (s.enc, -1)
      | some s => return .next ⟨s.dst + 1, s.src + 1, s.enc⟩
    else if plus ∧ c = plusSign then
      return .next ⟨s.dst + 1, s.src + 1, ← s.enc.write s.dst space⟩
    else return .next ⟨s.dst + 1, s.src + 1, ← copyChar s c⟩
  else return .done (s.enc, s.dst)

def decodeInPlace (plus : Bool) (enc : Block Byte) (len : ℕ) : Prog (Block Byte × ℤ) :=
  Prog.iterate (fun s => liftM (decodePass plus len s)) ⟨0, 0, enc⟩

/-- `url_decode_in_place` -/
def urlDecodeInPlace : Block Byte → ℕ → Prog (Block Byte × ℤ) := decodeInPlace true

/-- `percent_decode_in_place` -/
def percentDecodeInPlace : Block Byte → ℕ → Prog (Block Byte × ℤ) := decodeInPlace false

end Libls.Percent
