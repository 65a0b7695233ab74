import Mathlib.Tactic
import Libls.Percent
import Libls.Printf
import Libls.Strings

/-! # Hexadecimal texts and dumps: `src/hexdump.c`

`hex_to_bin` is with the percent encoding, which uses it too.  A pointer into a buffer is the buffer with an
offset; `linebuf` is the block that a line is written to, of which `linebuflen` bytes are used.

`dumpText` is the line that `hex_dump_to_buffer` writes, for every `linebuflen`. -/

namespace Libls.Hexdump
open Percent Printf Strings Numerals

/-- `hex_asc` -/
def hexAsc : List Byte := "0123456789abcdef".toList.map fun c => UInt8.ofNat c.toNat

/-- `hex_asc_hi` -/
def hexAscHi (c : Byte) : Option Byte := hexAsc[(c.toNat &&& 0xf0) >>> 4]?

/-- `hex_asc_lo` -/
def hexAscLo (c : Byte) : Option Byte := hexAsc[c.toNat &&& 0x0f]?

/-- `hex_byte_pack`, which returns what is behind the two digits. -/
def hexBytePack (buf : Block Byte) (i : ℕ) (byte : Byte) : Option (Block Byte × ℕ) := do
  let buf ← buf.write i (← hexAscHi byte)
  let buf ← buf.write (i + 1) (← hexAscLo byte)
  return (buf, i + 2)

/-- `hex2bin`, from the offsets `d` in `dst` and `s` in `src` on. -/
def hex2bin (src dst : Block Byte) (d s : ℕ) : ℕ → Option (Block Byte × ℤ)
  | 0 => some (dst, 0)
  | count + 1 => do
      let hi := hexToBin (← src.read s)
      let lo := hexToBin (← src.read (s + 1))
      if hi < 0 ∨ lo < 0 then return (dst, -1)
      else
        let dst ← dst.write d (UInt8.ofNat (hi.toNat <<< 4 ||| lo.toNat))
        hex2bin src dst (d + 1) (s + 2) count

/-! ### A line of a dump -/

/-- `*(ptr + j)`, for numbers of `n` bytes of which the first is the lowest. -/
def readNumber (buf : Block Byte) (i n : ℕ) : Option ℕ := do
  let bytes ← buf.readList i n
  return Nat.ofDigits 256 (bytes.map UInt8.toNat)

/-- The loop for groups of more than one byte: `%16.16llx`, `%8.8x` and `%4.4x` write two digits for each byte. -/
def putGroups (buf : Block Byte) (ptr size linebuflen : ℕ) (linebuf : Block Byte) (j lx : ℕ) :
    ℕ → Option (Block Byte × ℕ)
  | 0 => some (linebuf, lx)
  | n + 1 => do
      let v ← readNumber buf (ptr + j * size) size
      let (linebuf, len) ← scnprintf linebuf lx (linebuflen - lx)
        ((if j ≠ 0 then [space] else []) ++ hexText (2 * size) v)
      putGroups buf ptr size linebuflen linebuf (j + 1) (lx + len) n

/-- The loop for single bytes, with `len - j` bytes left; the last of the results is `j`. -/
def putBytes (buf : Block Byte) (ptr linebuflen : ℕ) (linebuf : Block Byte) (j lx : ℕ) :
    ℕ → Option (Block Byte × ℕ × ℕ)
  | 0 => some (linebuf, lx, j)
  | n + 1 =>
      if lx + 3 ≤ linebuflen then do
        let ch ← buf.read (ptr + j)
        let linebuf ← linebuf.write lx (← hexAscHi ch)
        let linebuf ← linebuf.write (lx + 1) (← hexAscLo ch)
        let linebuf ← linebuf.write (lx + 2) space
        putBytes buf ptr linebuflen linebuf (j + 1) (lx + 3) n
      else some (linebuf, lx, j)

/-- A `case` for groups of `size` bytes, where each takes `width` columns; the second result is `lx`, the third
is `ascii_column`. -/
def dumpGroups (size width : ℕ) (buf : Block Byte) (ptr len : ℕ) (linebuf : Block Byte) (linebuflen : ℕ) :
    Option (Block Byte × ℕ × ℕ) := do
  let ngroups := len / size
  let (linebuf, lx) ← putGroups buf ptr size linebuflen linebuf 0 0 ngroups
  return (linebuf, lx, width * ngroups + 2)

/-- The `default` of the `switch`. -/
def dumpBytes (rowsize : ℕ) (buf : Block Byte) (ptr len : ℕ) (linebuf : Block Byte) (linebuflen : ℕ) :
    Option (Block Byte × ℕ × ℕ) := do
  let (linebuf, lx, j) ← putBytes buf ptr linebuflen linebuf 0 0 len
  return (linebuf, if j ≠ 0 then lx - 1 else lx, 3 * rowsize + 2)

/-- `switch (groupsize)` -/
def dumpSwitch (rowsize : ℕ) (groupsize : ℤ) (buf : Block Byte) (ptr len : ℕ) (linebuf : Block Byte)
    (linebuflen : ℕ) : Option (Block Byte × ℕ × ℕ) :=
  if groupsize = 8 then dumpGroups 8 17 buf ptr len linebuf linebuflen
  else if groupsize = 4 then dumpGroups 4 9 buf ptr len linebuf linebuflen
  else if groupsize = 2 then dumpGroups 2 5 buf ptr len linebuf linebuflen
  else dumpBytes rowsize buf ptr len linebuf linebuflen

/-- `while (lx < (linebuflen - 1) && lx < (ascii_column - 1))`, with `n` columns left. -/
def putSpaces (linebuflen : ℕ) (linebuf : Block Byte) (lx : ℕ) : ℕ → Option (Block Byte × ℕ)
  | 0 => some (linebuf, lx)
  | n + 1 =>
      if lx < pred64 linebuflen then do
        let linebuf ← linebuf.write lx space
        putSpaces linebuflen linebuf (lx + 1) n
      else some (linebuf, lx)

/-- `isascii(ch) && isprint(ch)` -/
def isPrintable (ch : Byte) : Bool := 32 ≤ ch && ch ≤ 126

/-- The character that stands for a byte. -/
def asciiChar (ch : Byte) : Byte := if isPrintable ch then ch else 46

/-- The loop for the characters, with `len - j` bytes left. -/
def putAscii (buf : Block Byte) (ptr linebuflen : ℕ) (linebuf : Block Byte) (j lx : ℕ) :
    ℕ → Option (Block Byte × ℕ)
  | 0 => some (linebuf, lx)
  | n + 1 =>
      if lx + 2 < linebuflen then do
        let ch ← buf.read (ptr + j)
        let linebuf ← linebuf.write lx (asciiChar ch)
        putAscii buf ptr linebuflen linebuf (j + 1) (lx + 1) n
      else some (linebuf, lx)

/-- A row has 16 bytes or 32. -/
def rowBytes (rowsize : ℤ) : ℕ := if rowsize ≠ 16 ∧ rowsize ≠ 32 then 16 else rowsize.toNat

/-- `hex_dump_to_buffer`, from the offset `ptr` of `buf` on. -/
def hexDumpToBuffer (buf : Block Byte) (ptr len : ℕ) (rowsize groupsize : ℤ) (linebuf : Block Byte)
    (linebuflen : ℕ) (ascii : Bool) : Option (Block Byte) := do
  let rowsize := rowBytes rowsize
  if len = 0 then linebuf.write 0 0
  else if toSize groupsize = 0 then none -- a division by zero
  else
    let len := if rowsize < len then rowsize else len
    let groupsize := if len % toSize groupsize ≠ 0 then 1 else groupsize
    let (linebuf, lx, asciiColumn) ← dumpSwitch rowsize groupsize buf ptr len linebuf linebuflen
    if ascii then do
      let (linebuf, lx) ← putSpaces linebuflen linebuf lx (asciiColumn - 1 - lx)
      let (linebuf, lx) ← putAscii buf ptr linebuflen linebuf 0 lx len
      linebuf.write lx 0
    else linebuf.write lx 0

/-! ### The text of a line -/

/-- The digits of a group of bytes, which is a number with its lowest byte first. -/
def groupText (bytes : List Byte) : List Byte :=
  hexText (2 * bytes.length) (Nat.ofDigits 256 (bytes.map UInt8.toNat))

/-- The first `n` groups of `size` bytes. -/
def groupsText (size : ℕ) (bytes : List Byte) : ℕ → List Byte
  | 0 => []
  | n + 1 => groupsText size bytes n ++ (if n ≠ 0 then [space] else []) ++
      groupText ((bytes.drop (n * size)).take size)

/-- How many bytes are printed at a time. -/
def groupBytes (len : ℕ) (groupsize : ℤ) : ℕ :=
  if len % toSize groupsize ≠ 0 then 1
  else if groupsize = 8 then 8 else if groupsize = 4 then 4 else if groupsize = 2 then 2 else 1

/-- The digits that fit into `linebuflen` bytes: single bytes are left out as a whole, groups are cut off. -/
def digitsText (bytes : List Byte) (size linebuflen : ℕ) : List Byte :=
  if size = 1 then groupsText 1 bytes (min bytes.length (linebuflen / 3))
  else (groupsText size bytes (bytes.length / size)).take (linebuflen - 1)

/-- `ascii_column` -/
def asciiColumnOf (rowsize size len : ℕ) : ℕ :=
  if size = 1 then 3 * rowsize + 2 else (2 * size + 1) * (len / size) + 2

/-- What stands before the characters. -/
def paddedText (text : List Byte) (column linebuflen : ℕ) : List Byte :=
  text ++ List.replicate (min (linebuflen - 1) (column - 1) - text.length) space

/-- The line for `bytes`, with room for `linebuflen` bytes. -/
def dumpText (bytes : List Byte) (rowsize size linebuflen : ℕ) (ascii : Bool) : List Byte :=
  let digits := digitsText bytes size linebuflen
  if ascii ∧ bytes ≠ [] then
    let padded := paddedText digits (asciiColumnOf rowsize size bytes.length) linebuflen
    padded ++ (bytes.map asciiChar).take (linebuflen - 2 - padded.length)
  else digits

/-! ### Digits -/

/-- The two digits of a byte. -/
def hexPair (b : Byte) : List Byte := [digitChar (b.toNat / 16), digitChar (b.toNat % 16)]

theorem hexToBin_neg (c : Byte) : hexToBin c < 0 ↔ isxdigit c = false := by
  revert c
  apply forall_byte
  decide +kernel

theorem hexToBin_lt (c : Byte) : hexToBin c < 16 := by
  revert c
  apply forall_byte
  decide +kernel

/-- The digit of a value is the digit that was read, but for its case. -/
theorem digitChar_hexToBin (c : Byte) : isxdigit c = true → digitChar (hexToBin c).toNat = tolower c := by
  revert c
  apply forall_byte
  decide +kernel

theorem hexAscHi_eq (c : Byte) : hexAscHi c = some (digitChar (c.toNat / 16)) := by
  revert c
  apply forall_byte
  decide +kernel

theorem hexAscLo_eq (c : Byte) : hexAscLo c = some (digitChar (c.toNat % 16)) := by
  revert c
  apply forall_byte
  decide +kernel

/-- The digits of bytes, the last byte first, as the number that has the first byte lowest. -/
theorem value_halves (bytes : List Byte) :
    value 16 0 (bytes.reverse.flatMap fun b => [b.toNat / 16, b.toNat % 16]) =
      Nat.ofDigits 256 (bytes.map UInt8.toNat) := by
  induction bytes with
  | nil => rfl
  | cons b bytes ih =>
      rw [List.reverse_cons, List.flatMap_append, value_append, ih, List.map_cons, Nat.ofDigits_cons]
      simp only [List.flatMap_singleton, value_cons]
      show (Nat.ofDigits 256 (bytes.map UInt8.toNat) * 16 + b.toNat / 16) * 16 + b.toNat % 16 = _
      omega

theorem groupText_eq {bytes : List Byte} (hne : bytes ≠ []) : groupText bytes = bytes.reverse.flatMap hexPair := by
  let halves := bytes.reverse.flatMap fun b => [b.toNat / 16, b.toNat % 16]
  have hlen : halves.length = 2 * bytes.length := by
    simp [halves, List.length_flatMap, Nat.mul_comm]
  have hlt : ∀ d ∈ halves, d < 16 := by
    intro d hd
    obtain ⟨b, -, hd⟩ := List.mem_flatMap.mp hd
    have := b.toNat_lt
    simp only [List.mem_cons, List.not_mem_nil, or_false] at hd
    omega
  have hhalves : halves ≠ [] := by
    rw [← List.length_pos_iff, hlen]
    have := List.length_pos_iff.mpr hne
    omega
  have hnumeral := numeral_value (by decide : 1 < 16) hlt hhalves
  rw [value_halves, hlen] at hnumeral
  rw [groupText, hexText, hnumeral, List.map_flatMap]
  rfl

theorem length_groupText {bytes : List Byte} (hne : bytes ≠ []) : (groupText bytes).length = 2 * bytes.length := by
  rw [groupText_eq hne, List.length_flatMap]
  simp [hexPair, Nat.mul_comm]

section
variable {bytes : List Byte} {size : ℕ}

theorem length_group {n : ℕ} (hn : (n + 1) * size ≤ bytes.length) :
    ((bytes.drop (n * size)).take size).length = size := by
  rw [List.length_take, List.length_drop]
  rw [Nat.succ_mul] at hn
  omega

theorem length_groupsText_succ (hsize : 0 < size) {n : ℕ} (hn : (n + 1) * size ≤ bytes.length) :
    (groupsText size bytes (n + 1)).length + 1 = (2 * size + 1) * (n + 1) := by
  have hgroup (m : ℕ) (hm : (m + 1) * size ≤ bytes.length) :
      (groupText ((bytes.drop (m * size)).take size)).length = 2 * size := by
    have hlen := length_group hm
    rw [length_groupText, hlen]
    intro hnil
    rw [hnil, List.length_nil] at hlen
    omega
  induction n with
  | zero =>
      rw [groupsText, List.length_append, hgroup 0 hn]
      simp [groupsText]
  | succ n ih =>
      have hle : (n + 1) * size ≤ bytes.length := by
        rw [Nat.succ_mul] at hn
        omega
      have hlen := ih hle
      rw [groupsText, List.length_append, List.length_append, hgroup (n + 1) hn, if_pos (Nat.succ_ne_zero n),
        List.length_singleton]
      rw [Nat.mul_succ]
      omega

end

/-! ### The buffer of a line -/

/-- `linebuf` begins with `text`, in its first `linebuflen` bytes; behind these it is what it was. -/
structure Filled (orig : Block Byte) (linebuflen : ℕ) (linebuf : Block Byte) (text : List Byte) : Prop where
  size : linebuf.size = orig.size
  has : linebuf.Has 0 text
  rest : ∀ j, linebuflen ≤ j → linebuf.read j = orig.read j
  room : text.length ≤ linebuflen

section
variable {orig linebuf buf : Block Byte} {linebuflen ptr size : ℕ} {text t bytes : List Byte}

theorem Filled.start (orig : Block Byte) (linebuflen : ℕ) : Filled orig linebuflen orig [] :=
  ⟨rfl, Block.has_nil, fun _ _ => rfl, Nat.zero_le _⟩

/-- What is written last can be taken back. -/
theorem Filled.left (h : Filled orig linebuflen linebuf (text ++ t)) : Filled orig linebuflen linebuf text := by
  have hroom := h.room
  rw [List.length_append] at hroom
  exact ⟨h.size, (Block.has_append.mp h.has).1, h.rest, by omega⟩

theorem Filled.put (hbuf : linebuflen ≤ orig.size) (h : Filled orig linebuflen linebuf text) {lx : ℕ}
    (hlx : lx = text.length) (hlt : lx < linebuflen) (c : Byte) :
    ∃ linebuf', linebuf.write lx c = some linebuf' ∧ Filled orig linebuflen linebuf' (text ++ [c]) := by
  subst hlx
  obtain ⟨linebuf', hwrite, hsize, hread⟩ := @Block.write_of_lt _ linebuf text.length (by rw [h.size]; omega) c
  refine ⟨linebuf', hwrite, hsize.trans h.size, ?_, fun j hj => ?_, ?_⟩
  · rw [Block.has_append, Block.has_cons, Nat.zero_add]
    refine ⟨h.has.congr fun j _ hj => ?_, ?_, Block.has_nil⟩
    · rw [hread, if_neg (by omega)]
    · rw [hread, if_pos rfl]
  · rw [hread, if_neg (by omega), h.rest j hj]
  · rw [List.length_append, List.length_singleton]
    omega

/-- `scnprintf` writes what fits before the terminator, and says how much this is. -/
theorem Filled.scnprintf (hbuf : linebuflen ≤ orig.size) (h : Filled orig linebuflen linebuf text)
    (hlt : text.length < linebuflen) (t : List Byte) :
    ∃ linebuf', scnprintf linebuf text.length (linebuflen - text.length) t =
        some (linebuf', (t.take (linebuflen - 1 - text.length)).length) ∧
      Filled orig linebuflen linebuf' (text ++ t.take (linebuflen - 1 - text.length)) := by
  have hsize : linebuflen - text.length - 1 = linebuflen - 1 - text.length := by omega
  obtain ⟨linebuf', hwrite, hsame, hhas, hread⟩ := @Block.writeList_of_le _ linebuf text.length
    (t.take (linebuflen - 1 - text.length) ++ [0])
    (by rw [h.size, List.length_append, List.length_take, List.length_singleton]; omega)
  refine ⟨linebuf', ?_, hsame.trans h.size, ?_, fun j hj => ?_, ?_⟩
  · unfold Printf.scnprintf vsnprintf
    rw [if_neg (by omega), hsize, hwrite, List.length_take]
    simp only [Option.bind_eq_bind, Option.bind_some, Option.pure_def]
    split <;> simp only [Option.some.injEq, Prod.mk.injEq, true_and]
    · omega
    · rw [if_pos (by omega)]
      omega
  · rw [Block.has_append, Nat.zero_add]
    refine ⟨h.has.congr fun j _ hj => hread j (.inl (by omega)), (Block.has_append.mp hhas).1⟩
  · rw [hread j (.inr (by rw [List.length_append, List.length_take, List.length_singleton]; omega)), h.rest j hj]
  · rw [List.length_append, List.length_take]
    omega

theorem readNumber_group (hbytes : buf.Has ptr bytes) {j : ℕ} (hj : (j + 1) * size ≤ bytes.length) :
    readNumber buf (ptr + j * size) size =
      some (Nat.ofDigits 256 (((bytes.drop (j * size)).take size).map UInt8.toNat)) := by
  have hle : j * size ≤ bytes.length := by
    rw [Nat.succ_mul] at hj
    omega
  have hdrop : buf.Has (ptr + j * size) (bytes.drop (j * size)) := by
    rw [← List.take_append_drop (j * size) bytes, Block.has_append, List.length_take, Nat.min_eq_left hle] at hbytes
    exact hbytes.2
  have hgroup : buf.Has (ptr + j * size) ((bytes.drop (j * size)).take size) := by
    rw [← List.take_append_drop size (bytes.drop (j * size)), Block.has_append] at hdrop
    exact hdrop.1
  have hread := hgroup.readList
  rw [length_group hj] at hread
  rw [readNumber, hread]
  rfl

/-- The groups from number `j` on, cut off where the buffer ends. -/
theorem putGroups_returns (hbuf : linebuflen ≤ orig.size) (hpos : 0 < linebuflen) (hbytes : buf.Has ptr bytes)
    {j n : ℕ} (hn : (j + n) * size ≤ bytes.length)
    (h : Filled orig linebuflen linebuf ((groupsText size bytes j).take (linebuflen - 1))) :
    ∃ linebuf', putGroups buf ptr size linebuflen linebuf j
        ((groupsText size bytes j).take (linebuflen - 1)).length n =
        some (linebuf', ((groupsText size bytes (j + n)).take (linebuflen - 1)).length) ∧
      Filled orig linebuflen linebuf' ((groupsText size bytes (j + n)).take (linebuflen - 1)) := by
  induction n generalizing j linebuf with
  | zero => exact ⟨linebuf, rfl, h⟩
  | succ n ih =>
      have hj : (j + 1) * size ≤ bytes.length := Nat.le_trans (Nat.mul_le_mul_right size (by omega)) hn
      have hlt : ((groupsText size bytes j).take (linebuflen - 1)).length < linebuflen := by
        rw [List.length_take]
        omega
      obtain ⟨linebuf₁, hprint, h₁⟩ := h.scnprintf hbuf hlt
        ((if j ≠ 0 then [space] else []) ++ groupText ((bytes.drop (j * size)).take size))
      have hroom : linebuflen - 1 - ((groupsText size bytes j).take (linebuflen - 1)).length =
          linebuflen - 1 - (groupsText size bytes j).length := by
        rw [List.length_take]
        omega
      have hnext : (groupsText size bytes j).take (linebuflen - 1) ++
          ((if j ≠ 0 then [space] else []) ++ groupText ((bytes.drop (j * size)).take size)).take
            (linebuflen - 1 - (groupsText size bytes j).length) =
          (groupsText size bytes (j + 1)).take (linebuflen - 1) := by
        rw [← List.take_append, groupsText, List.append_assoc]
      rw [hroom] at hprint h₁
      rw [hnext] at h₁
      obtain ⟨linebuf', hrest, h'⟩ := @ih linebuf₁ (j + 1) (by rwa [Nat.add_right_comm]) h₁
      refine ⟨linebuf', ?_, by rwa [Nat.add_right_comm] at h'⟩
      have hsum := congrArg List.length hnext
      rw [List.length_append] at hsum
      have hwidth : 2 * size = 2 * ((bytes.drop (j * size)).take size).length := by rw [length_group hj]
      rw [putGroups, readNumber_group hbytes hj, Option.bind_eq_bind, Option.bind_some]
      rw [groupText, ← hwidth] at hprint hsum
      simp only [hprint, Option.bind_some, Option.bind_eq_bind, hsum, hrest]
      rw [Nat.add_right_comm]
      rfl

/-- The text of `j` single bytes, each with a space behind it. -/
def bytesText (bytes : List Byte) (j : ℕ) : List Byte :=
  if j = 0 then [] else groupsText 1 bytes j ++ [space]

theorem length_bytesText {j : ℕ} (hj : j ≤ bytes.length) : (bytesText bytes j).length = 3 * j := by
  unfold bytesText
  cases j with
  | zero => rfl
  | succ j =>
      have h := @length_groupsText_succ bytes 1 (by decide) j (by omega)
      rw [if_neg (Nat.succ_ne_zero j), List.length_append, List.length_singleton, h]

theorem bytesText_succ {j : ℕ} (hj : j < bytes.length) :
    bytesText bytes (j + 1) = bytesText bytes j ++ hexPair bytes[j] ++ [space] := by
  have hone : (bytes.drop (j * 1)).take 1 = [bytes[j]] := by
    rw [Nat.mul_one, List.drop_eq_getElem_cons hj, List.take_succ_cons, List.take_zero]
  have htext : groupText [bytes[j]] = hexPair bytes[j] := by
    rw [groupText_eq (List.cons_ne_nil _ _)]
    simp
  rw [bytesText, if_neg (Nat.succ_ne_zero j), groupsText, hone, htext, bytesText]
  by_cases hj : j = 0
  · subst hj
    rfl
  · rw [if_neg hj, if_pos hj]

/-- The single bytes from number `j` on, as long as there is room for three characters. -/
theorem putBytes_returns (hbuf : linebuflen ≤ orig.size) (hbytes : buf.Has ptr bytes) {j n : ℕ}
    (hn : j + n = bytes.length) (hj : j ≤ linebuflen / 3)
    (h : Filled orig linebuflen linebuf (bytesText bytes j)) :
    ∃ linebuf', putBytes buf ptr linebuflen linebuf j (3 * j) n =
        some (linebuf', 3 * min bytes.length (linebuflen / 3), min bytes.length (linebuflen / 3)) ∧
      Filled orig linebuflen linebuf' (bytesText bytes (min bytes.length (linebuflen / 3))) := by
  induction n generalizing j linebuf with
  | zero =>
      have hmin : min bytes.length (linebuflen / 3) = j := by omega
      rw [hmin]
      exact ⟨linebuf, rfl, h⟩
  | succ n ih =>
      have hlt : j < bytes.length := by omega
      by_cases hroom : 3 * j + 3 ≤ linebuflen
      · have hread : buf.read (ptr + j) = some bytes[j] := by
          rw [hbytes j hlt, List.getElem?_eq_getElem hlt]
        have hlen := length_bytesText (Nat.le_of_lt hlt)
        obtain ⟨b₁, hb₁, h₁⟩ := h.put hbuf hlen.symm (by omega) (digitChar (bytes[j].toNat / 16))
        have hlen₁ : 3 * j + 1 = (bytesText bytes j ++ [digitChar (bytes[j].toNat / 16)]).length := by simp [hlen]
        obtain ⟨b₂, hb₂, h₂⟩ := h₁.put hbuf hlen₁ (by omega) (digitChar (bytes[j].toNat % 16))
        have hlen₂ : 3 * j + 2 = (bytesText bytes j ++ [digitChar (bytes[j].toNat / 16)] ++
            [digitChar (bytes[j].toNat % 16)]).length := by simp [hlen]
        obtain ⟨b₃, hb₃, h₃⟩ := h₂.put hbuf hlen₂ (by omega) space
        have hnext : bytesText bytes j ++ [digitChar (bytes[j].toNat / 16)] ++ [digitChar (bytes[j].toNat % 16)] ++
            [space] = bytesText bytes (j + 1) := by
          rw [bytesText_succ hlt, hexPair]
          simp
        rw [hnext] at h₃
        obtain ⟨linebuf', hrest, h'⟩ := @ih b₃ (j + 1) (by omega) (by omega) h₃
        refine ⟨linebuf', ?_, h'⟩
        rw [putBytes, if_pos hroom, hread]
        simp only [Option.bind_eq_bind, Option.bind_some, hexAscHi_eq, hexAscLo_eq, hb₁, hb₂, hb₃]
        exact hrest
      · have hmin : min bytes.length (linebuflen / 3) = j := by omega
        rw [putBytes, if_neg hroom, hmin]
        exact ⟨linebuf, rfl, h⟩

theorem dumpGroups_returns (hbuf : linebuflen ≤ linebuf.size) (hpos : 0 < linebuflen) (hbytes : buf.Has ptr bytes)
    (hsize : size ≠ 1) (rowsize : ℕ) :
    ∃ linebuf', dumpGroups size (2 * size + 1) buf ptr bytes.length linebuf linebuflen =
        some (linebuf', (digitsText bytes size linebuflen).length, asciiColumnOf rowsize size bytes.length) ∧
      Filled linebuf linebuflen linebuf' (digitsText bytes size linebuflen) := by
  have hstart : Filled linebuf linebuflen linebuf ((groupsText size bytes 0).take (linebuflen - 1)) := by
    rw [groupsText, List.take_nil]
    exact Filled.start linebuf linebuflen
  obtain ⟨linebuf', hput, h'⟩ := @putGroups_returns linebuf linebuf buf linebuflen ptr size bytes hbuf hpos hbytes 0
    (bytes.length / size) (by rw [Nat.zero_add]; exact Nat.div_mul_le_self _ _) hstart
  rw [Nat.zero_add] at hput h'
  rw [digitsText, if_neg hsize]
  refine ⟨linebuf', ?_, h'⟩
  rw [groupsText, List.take_nil, List.length_nil] at hput
  rw [dumpGroups, asciiColumnOf, if_neg hsize]
  simp only [hput, Option.bind_eq_bind, Option.bind_some, Option.pure_def]

theorem dumpBytes_returns (hbuf : linebuflen ≤ linebuf.size) (hbytes : buf.Has ptr bytes) (rowsize : ℕ) :
    ∃ linebuf', dumpBytes rowsize buf ptr bytes.length linebuf linebuflen =
        some (linebuf', (digitsText bytes 1 linebuflen).length, asciiColumnOf rowsize 1 bytes.length) ∧
      Filled linebuf linebuflen linebuf' (digitsText bytes 1 linebuflen) := by
  obtain ⟨linebuf', hput, h'⟩ := @putBytes_returns linebuf linebuf buf linebuflen ptr bytes hbuf hbytes 0
    bytes.length (Nat.zero_add _) (Nat.zero_le _) (Filled.start linebuf linebuflen)
  have hlen := @length_bytesText bytes (min bytes.length (linebuflen / 3)) (Nat.min_le_left _ _)
  rw [digitsText, if_pos rfl]
  rw [dumpBytes, asciiColumnOf, if_pos rfl]
  rw [Nat.mul_zero] at hput
  simp only [hput, Option.bind_eq_bind, Option.bind_some, Option.pure_def]
  generalize min bytes.length (linebuflen / 3) = j at hlen h' ⊢
  by_cases hj : j = 0
  · subst hj
    exact ⟨linebuf', rfl, h'⟩
  · rw [bytesText, if_neg hj] at h' hlen
    rw [List.length_append, List.length_singleton] at hlen
    refine ⟨linebuf', ?_, h'.left⟩
    rw [if_pos hj, ← hlen, Nat.add_sub_cancel]

theorem putSpaces_returns (hbuf : linebuflen ≤ orig.size) (hpos : 0 < linebuflen)
    (h : Filled orig linebuflen linebuf text) (n : ℕ) :
    ∃ linebuf', putSpaces linebuflen linebuf text.length n =
        some (linebuf', text.length + min (linebuflen - 1 - text.length) n) ∧
      Filled orig linebuflen linebuf' (text ++ List.replicate (min (linebuflen - 1 - text.length) n) space) := by
  have hpred : pred64 linebuflen = linebuflen - 1 := if_neg (by omega)
  induction n generalizing linebuf text with
  | zero =>
      refine ⟨linebuf, ?_, ?_⟩
      · rw [Nat.min_zero]
        rfl
      · rw [Nat.min_zero, List.replicate_zero, List.append_nil]
        exact h
  | succ n ih =>
      by_cases hlt : text.length < linebuflen - 1
      · obtain ⟨linebuf₁, hwrite, h₁⟩ := h.put hbuf rfl (by omega) space
        obtain ⟨linebuf', hrest, h'⟩ := ih h₁
        rw [List.length_append, List.length_singleton] at hrest h'
        have hmin : min (linebuflen - 1 - text.length) (n + 1) = min (linebuflen - 1 - (text.length + 1)) n + 1 := by omega
        refine ⟨linebuf', ?_, ?_⟩
        · rw [putSpaces, hpred, if_pos hlt, hwrite, Option.bind_eq_bind, Option.bind_some, hrest, hmin]
          congr 2
          omega
        · rw [hmin, List.replicate_succ, List.append_cons]
          exact h'
      · have hmin : min (linebuflen - 1 - text.length) (n + 1) = 0 := by omega
        rw [putSpaces, hpred, if_neg hlt, hmin, List.replicate_zero, List.append_nil]
        exact ⟨linebuf, rfl, h⟩

theorem putAscii_returns (hbuf : linebuflen ≤ orig.size) (hbytes : buf.Has ptr bytes) {j n : ℕ}
    (hn : j + n = bytes.length) (h : Filled orig linebuflen linebuf text) :
    ∃ linebuf', putAscii buf ptr linebuflen linebuf j text.length n =
        some (linebuf', (text ++ ((bytes.drop j).map asciiChar).take (linebuflen - 2 - text.length)).length) ∧
      Filled orig linebuflen linebuf'
        (text ++ ((bytes.drop j).map asciiChar).take (linebuflen - 2 - text.length)) := by
  induction n generalizing j linebuf text with
  | zero =>
      rw [List.drop_eq_nil_of_le (by omega), List.map_nil, List.take_nil, List.append_nil]
      exact ⟨linebuf, rfl, h⟩
  | succ n ih =>
      have hlt : j < bytes.length := by omega
      by_cases hroom : text.length + 2 < linebuflen
      · have hread : buf.read (ptr + j) = some bytes[j] := by
          rw [hbytes j hlt, List.getElem?_eq_getElem hlt]
        obtain ⟨linebuf₁, hwrite, h₁⟩ := h.put hbuf rfl (by omega) (asciiChar bytes[j])
        obtain ⟨linebuf', hrest, h'⟩ := @ih linebuf₁ _ (j + 1) (by omega) h₁
        have hroom' : linebuflen - 2 - text.length =
            linebuflen - 2 - (text ++ [asciiChar bytes[j]]).length + 1 := by
          rw [List.length_append, List.length_singleton]
          omega
        have hnext : text ++ ((bytes.drop j).map asciiChar).take (linebuflen - 2 - text.length) =
            text ++ [asciiChar bytes[j]] ++ ((bytes.drop (j + 1)).map asciiChar).take
              (linebuflen - 2 - (text ++ [asciiChar bytes[j]]).length) := by
          rw [List.drop_eq_getElem_cons hlt, List.map_cons, hroom', List.take_succ_cons, List.append_assoc,
            List.singleton_append]
        rw [hnext]
        refine ⟨linebuf', ?_, h'⟩
        rw [putAscii, if_pos hroom, hread, Option.bind_eq_bind, Option.bind_some, hwrite, Option.bind_eq_bind,
          Option.bind_some, ← hrest, List.length_append, List.length_singleton]
      · have hzero : linebuflen - 2 - text.length = 0 := by omega
        rw [putAscii, if_neg hroom, hzero, List.take_zero, List.append_nil]
        exact ⟨linebuf, rfl, h⟩

theorem Filled.finish (hbuf : linebuflen ≤ orig.size) (h : Filled orig linebuflen linebuf text)
    (hlt : text.length < linebuflen) :
    ∃ linebuf', linebuf.write text.length 0 = some linebuf' ∧ linebuf'.size = orig.size ∧
      linebuf'.Has 0 (text ++ [0]) ∧ ∀ j, linebuflen ≤ j → linebuf'.read j = orig.read j := by
  obtain ⟨linebuf', hwrite, h'⟩ := h.put hbuf rfl hlt 0
  exact ⟨linebuf', hwrite, h'.size, h'.has, h'.rest⟩

theorem length_digitsText_lt (hpos : 0 < linebuflen) (size : ℕ) : (digitsText bytes size linebuflen).length < linebuflen := by
  unfold digitsText
  split
  · cases hj : min bytes.length (linebuflen / 3) with
    | zero => exact hpos
    | succ j =>
        have hlen := @length_groupsText_succ bytes 1 (by decide) j (by omega)
        omega
  · rw [List.length_take]
    omega

theorem length_paddedText (hlt : text.length < linebuflen) (column : ℕ) :
    (paddedText text column linebuflen).length < linebuflen := by
  rw [paddedText, List.length_append, List.length_replicate]
  omega

/-- The `switch`, for any size of the groups. -/
theorem dumpSwitch_returns (hbuf : linebuflen ≤ linebuf.size) (hpos : 0 < linebuflen) (hbytes : buf.Has ptr bytes)
    (rowsize : ℕ) (groupsize : ℤ) :
    ∃ linebuf', dumpSwitch rowsize (if bytes.length % toSize groupsize ≠ 0 then 1 else groupsize) buf ptr
        bytes.length linebuf linebuflen =
        some (linebuf', (digitsText bytes (groupBytes bytes.length groupsize) linebuflen).length,
          asciiColumnOf rowsize (groupBytes bytes.length groupsize) bytes.length) ∧
      Filled linebuf linebuflen linebuf' (digitsText bytes (groupBytes bytes.length groupsize) linebuflen) := by
  unfold groupBytes dumpSwitch
  by_cases hmixed : bytes.length % toSize groupsize ≠ 0
  · simp only [if_pos hmixed]
    exact dumpBytes_returns hbuf hbytes rowsize
  · simp only [if_neg hmixed]
    split
    · exact dumpGroups_returns hbuf hpos hbytes (by decide) rowsize
    · split
      · exact dumpGroups_returns hbuf hpos hbytes (by decide) rowsize
      · split
        · exact dumpGroups_returns hbuf hpos hbytes (by decide) rowsize
        · exact dumpBytes_returns hbuf hbytes rowsize

/-- A line with its terminator stays in the first `linebuflen` bytes, however few these are. -/
theorem hexDumpToBuffer_returns (hbuf : linebuflen ≤ linebuf.size) (hpos : 0 < linebuflen)
    (hbytes : buf.Has ptr bytes) {len : ℕ} {rowsize groupsize : ℤ} (hlen : bytes.length = min len (rowBytes rowsize))
    (hgroup : toSize groupsize ≠ 0) (ascii : Bool) :
    ∃ linebuf', hexDumpToBuffer buf ptr len rowsize groupsize linebuf linebuflen ascii = some linebuf' ∧
      linebuf'.size = linebuf.size ∧
      linebuf'.Has 0 (dumpText bytes (rowBytes rowsize) (groupBytes bytes.length groupsize) linebuflen ascii ++ [0]) ∧
      ∀ j, linebuflen ≤ j → linebuf'.read j = linebuf.read j := by
  have hrow : 0 < rowBytes rowsize := by
    unfold rowBytes
    split <;> omega
  unfold hexDumpToBuffer
  by_cases hzero : len = 0
  · have hnil : bytes = [] := List.length_eq_zero_iff.mp (by omega)
    have htext : dumpText bytes (rowBytes rowsize) (groupBytes bytes.length groupsize) linebuflen ascii = [] := by
      subst hnil
      simp [dumpText, digitsText, groupsText]
    simp only [if_pos hzero, htext]
    exact (Filled.start linebuf linebuflen).finish hbuf hpos
  · have hne : bytes ≠ [] := by
      rintro rfl
      rw [List.length_nil] at hlen
      omega
    have hcut : (if rowBytes rowsize < len then rowBytes rowsize else len) = bytes.length := by
      split <;> omega
    obtain ⟨b₁, hdump, h₁⟩ := dumpSwitch_returns hbuf hpos hbytes (rowBytes rowsize) groupsize
    have hdigits := @length_digitsText_lt linebuflen bytes hpos (groupBytes bytes.length groupsize)
    simp only [if_neg hzero, if_neg hgroup, hcut, hdump, Option.bind_eq_bind, Option.bind_some]
    generalize groupBytes bytes.length groupsize = size at h₁ hdigits ⊢
    unfold dumpText
    cases ascii with
    | false =>
        simp only [Bool.false_eq_true, false_and, if_false]
        exact h₁.finish hbuf hdigits
    | true =>
        generalize asciiColumnOf (rowBytes rowsize) size bytes.length = column
        obtain ⟨b₂, hspaces, h₂⟩ := putSpaces_returns hbuf hpos h₁ (column - 1 - (digitsText bytes size linebuflen).length)
        have hpad : min (linebuflen - 1 - (digitsText bytes size linebuflen).length)
            (column - 1 - (digitsText bytes size linebuflen).length) =
            min (linebuflen - 1) (column - 1) - (digitsText bytes size linebuflen).length := by omega
        rw [hpad] at hspaces h₂
        have hpadded : (digitsText bytes size linebuflen).length +
            (min (linebuflen - 1) (column - 1) - (digitsText bytes size linebuflen).length) =
            (paddedText (digitsText bytes size linebuflen) column linebuflen).length := by
          rw [paddedText, List.length_append, List.length_replicate]
        obtain ⟨b₃, hascii, h₃⟩ := @putAscii_returns linebuf b₂ buf linebuflen ptr
          (paddedText (digitsText bytes size linebuflen) column linebuflen) bytes hbuf hbytes 0 bytes.length
          (Nat.zero_add _) h₂
        rw [List.drop_zero] at hascii h₃
        simp only [if_true, hspaces, hpadded, Option.bind_some, hascii, ne_eq, hne, not_false_eq_true, and_self]
        apply h₃.finish hbuf
        have hlt := length_paddedText hdigits column
        rw [List.length_append, List.length_take]
        omega

end

end Libls.Hexdump
