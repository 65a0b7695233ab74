import Mathlib.Tactic
import Libls.Library.Memory
import Libls.Library.Prog

/-! # Base 64: `src/base64.c`

Pointers into memory are blocks: `data` is what the argument of that name points to, and the result
is the block that `malloc` has returned, with `*res_len`.  `ok` says whether `malloc` succeeds.

Codes are numbers; a number that is stored in a `char` loses all but its low eight bits. -/

namespace Libls.Base64

/-- `base64_encode_table` -/
def base64EncodeTable : List Byte :=
  "ABCDEFGHIJKLMNOPQRSTUVWXYZabcdefghijklmnopqrstuvwxyz0123456789+/".toList.map
    fun c => UInt8.ofNat c.toNat

/-- `base64_decode_table` -/
def base64DecodeTable : List ℤ :=
  [-2, -2, -2, -2, -2, -2, -2, -2, -2, -2, -2, -2, -2, -2, -2, -2,
   -2, -2, -2, -2, -2, -2, -2, -2, -2, -2, -2, -2, -2, -2, -2, -2,
   -2, -2, -2, -2, -2, -2, -2, -2, -2, -2, -2, 62, -2, -2, -2, 63,
   52, 53, 54, 55, 56, 57, 58, 59, 60, 61, -2, -2, -2, -1, -2, -2,
   -2,  0,  1,  2,  3,  4,  5,  6,  7,  8,  9, 10, 11, 12, 13, 14,
   15, 16, 17, 18, 19, 20, 21, 22, 23, 24, 25, -2, -2, -2, -2, -2,
   -2, 26, 27, 28, 29, 30, 31, 32, 33, 34, 35, 36, 37, 38, 39, 40,
   41, 42, 43, 44, 45, 46, 47, 48, 49, 50, 51, -2, -2, -2, -2, -2,
   -2, -2, -2, -2, -2, -2, -2, -2, -2, -2, -2, -2, -2, -2, -2, -2,
   -2, -2, -2, -2, -2, -2, -2, -2, -2, -2, -2, -2, -2, -2, -2, -2,
   -2, -2, -2, -2, -2, -2, -2, -2, -2, -2, -2, -2, -2, -2, -2, -2,
   -2, -2, -2, -2, -2, -2, -2, -2, -2, -2, -2, -2, -2, -2, -2, -2,
   -2, -2, -2, -2, -2, -2, -2, -2, -2, -2, -2, -2, -2, -2, -2, -2,
   -2, -2, -2, -2, -2, -2, -2, -2, -2, -2, -2, -2, -2, -2, -2, -2,
   -2, -2, -2, -2, -2, -2, -2, -2, -2, -2, -2, -2, -2, -2, -2, -2,
   -2, -2, -2, -2, -2, -2, -2, -2, -2, -2, -2, -2, -2, -2, -2, -2]

/-- `'='` -/
def pad : Byte := 61

/-! ### Encoding -/

/-- One pass of the loop of `base64_encode`. -/
def encodeRound (decoded : Block Byte) (i : ℕ) (encoded : Block Byte) : Option (Block Byte) := do
  let a ← decoded.read (u32 (i * 3))
  let b ← decoded.read (u32 (i * 3 + 1))
  let c ← decoded.read (u32 (i * 3 + 2))
  let encoded ← encoded.write (u32 (i * 4)) (← base64EncodeTable[a.toNat >>> 2]?)
  let encoded ← encoded.write (u32 (i * 4 + 1))
    (← base64EncodeTable[(a.toNat &&& 0x03) <<< 4 ||| b.toNat >>> 4]?)
  let encoded ← encoded.write (u32 (i * 4 + 2))
    (← base64EncodeTable[(b.toNat &&& 0x0f) <<< 2 ||| c.toNat >>> 6]?)
  encoded.write (u32 (i * 4 + 3)) (← base64EncodeTable[c.toNat &&& 0x3f]?)

/-- `for (i = 0; i < round; i++)` in `base64_encode`. -/
def encodePass (decoded : Block Byte) (round : ℕ) (p : ℕ × Block Byte) :
    Option (Iter (ℕ × Block Byte) (ℕ × Block Byte)) :=
  if p.1 < round then do
    let encoded ← encodeRound decoded p.1 p.2
    return .next (u32 (p.1 + 1), encoded)
  else return .done p

/-- The `switch` of `base64_encode`. -/
def encodeTail (decoded : Block Byte) (len round i : ℕ) (encoded : Block Byte) :
    Option (Block Byte × ℕ) :=
  match len - round * 3 with
  | 0 => do
      let encoded ← encoded.write (u32 (i * 4)) 0
      return (encoded, u32 (i * 4))
  | 1 => do
      let a ← decoded.read (u32 (i * 3))
      let encoded ← encoded.write (u32 (i * 4)) (← base64EncodeTable[a.toNat >>> 2]?)
      let encoded ← encoded.write (u32 (i * 4 + 1)) (← base64EncodeTable[(a.toNat &&& 0x03) <<< 4]?)
      let encoded ← encoded.write (u32 (i * 4 + 2)) pad
      let encoded ← encoded.write (u32 (i * 4 + 3)) pad
      let encoded ← encoded.write (u32 (i * 4 + 4)) 0
      return (encoded, u32 (i * 4 + 4))
  | 2 => do
      let a ← decoded.read (u32 (i * 3))
      let b ← decoded.read (u32 (i * 3 + 1))
      let encoded ← encoded.write (u32 (i * 4)) (← base64EncodeTable[a.toNat >>> 2]?)
      let encoded ← encoded.write (u32 (i * 4 + 1))
        (← base64EncodeTable[(a.toNat &&& 0x03) <<< 4 ||| b.toNat >>> 4]?)
      let encoded ← encoded.write (u32 (i * 4 + 2)) (← base64EncodeTable[(b.toNat &&& 0x0f) <<< 2]?)
      let encoded ← encoded.write (u32 (i * 4 + 3)) pad
      let encoded ← encoded.write (u32 (i * 4 + 4)) 0
      return (encoded, u32 (i * 4 + 4))
  | _ => none

/-- `base64_encode` -/
def base64Encode (ok : Bool) (data : Block Byte) (len : ℕ) : Prog (Option (Block Byte × ℕ)) :=
  if ok then do
    let round := len / 3
    let encoded := Block.null.realloc (u32 (u32 (len + 2) / 3 * 4 + 1))
    let (i, encoded) ← Prog.iterate (fun p => liftM (encodePass data round p)) (0, encoded)
    let res ← (encodeTail data len round i encoded : Option _)
    return some res
  else return none

/-! ### Decoding -/

/-- The variables of the loop of `base64_decode`; `decoded_len` has no value before it is set. -/
structure DecodeLoop where
  i : ℕ
  decoded : Block Byte
  decodedLen : Option ℕ

/-- `base64_decode_table[encoded[k]]` -/
def codeAt (encoded : Block Byte) (k : ℕ) : Option ℤ := do
  let c ← encoded.read k
  base64DecodeTable[c.toNat]?

/-- `decoded[k] = code`, which keeps the low eight bits. -/
def setCode (decoded : Block Byte) (k code : ℕ) : Option (Block Byte) :=
  decoded.write k (UInt8.ofNat code)

/-- `decoded[k] |= code` -/
def orCode (decoded : Block Byte) (k code : ℕ) : Option (Block Byte) :=
  decoded.modify k fun v => v ||| UInt8.ofNat code

/-- The lines of a pass for the fourth code. -/
def decodeFourth (encoded : Block Byte) (round : ℕ) (s : DecodeLoop) :
    Option (Iter DecodeLoop (Option DecodeLoop)) := do
  let code ← codeAt encoded (u32 (s.i * 4 + 3))
  if code < -1 then return .done none
  else if code = -1 then return .done (some { s with decodedLen := some (round * 3 - 1) })
  else
    let decoded ← orCode s.decoded (u32 (s.i * 3 + 2)) code.toNat
    return .next { s with i := u32 (s.i + 1), decoded := decoded }

/-- The lines of a pass for the third code. -/
def decodeThird (encoded : Block Byte) (round : ℕ) (s : DecodeLoop) :
    Option (Iter DecodeLoop (Option DecodeLoop)) := do
  let code ← codeAt encoded (u32 (s.i * 4 + 2))
  if code < -1 then return .done none
  else if code = -1 then return .done (some { s with decodedLen := some (round * 3 - 2) })
  else
    let decoded ← orCode s.decoded (u32 (s.i * 3 + 1)) (code.toNat >>> 2)
    let decoded ← setCode decoded (u32 (s.i * 3 + 2)) (code.toNat <<< 6)
    decodeFourth encoded round { s with decoded := decoded }

/-- The lines of a pass for the second code. -/
def decodeSecond (encoded : Block Byte) (round : ℕ) (s : DecodeLoop) :
    Option (Iter DecodeLoop (Option DecodeLoop)) := do
  let code ← codeAt encoded (u32 (s.i * 4 + 1))
  if code < 0 then return .done none
  else
    let decoded ← orCode s.decoded (u32 (s.i * 3)) (code.toNat >>> 4)
    let decoded ← setCode decoded (u32 (s.i * 3 + 1)) (code.toNat <<< 4)
    decodeThird encoded round { s with decoded := decoded }

/-- One pass of the loop of `base64_decode`; it leaves for `err2` with nothing. -/
def decodePass (encoded : Block Byte) (round : ℕ) (s : DecodeLoop) :
    Option (Iter DecodeLoop (Option DecodeLoop)) :=
  if s.i < round then do
    let code ← codeAt encoded (u32 (s.i * 4))
    if code < 0 then return .done none
    else
      let decoded ← setCode s.decoded (u32 (s.i * 3)) (code.toNat <<< 2)
      decodeSecond encoded round { s with decoded := decoded }
  else return .done (some s)

/-- `decoded_len` after the loop. -/
def lenAfter (round : ℕ) (s : DecodeLoop) : Option ℕ :=
  if s.i = round then some (u32 (round * 3)) else s.decodedLen

/-- The lines after the loop. -/
def decodeEnd (round : ℕ) (s : DecodeLoop) : Option (Option (Block Byte × ℕ)) :=
  if s.i = round ∨ s.i = round - 1 then do
    let decodedLen ← lenAfter round s
    let decoded ← s.decoded.write decodedLen 0
    return some (decoded, decodedLen)
  else return none

/-- `base64_decode` -/
def base64Decode (ok : Bool) (data : Block Byte) (len : ℕ) : Prog (Option (Block Byte × ℕ)) :=
  if len % 4 ≠ 0 ∨ ok = false then return none
  else do
    let round := len / 4
    let decoded := Block.null.realloc (u32 (round * 3 + 1))
    match ← Prog.iterate (fun s => liftM (decodePass data round s)) ⟨0, decoded, none⟩ with
    | none => return none
    | some s => (decodeEnd round s : Option _)

end Libls.Base64
