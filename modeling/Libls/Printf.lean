import Libls.Library.Memory
import Libls.Library.Numerals

/-! # Formatted output: `scnprintf` of `src/string.c`

`vsnprintf` of the C library is given the text that the format and the arguments make: it stores at most
`size - 1` bytes of it and a NUL, and returns how long the text is.  The texts are those of the formats
that the library uses for bitmaps. -/

namespace Libls.Printf
open Numerals

/-- The character of a digit. -/
def digitChar (d : ℕ) : Byte := UInt8.ofNat (if d < 10 then 48 + d else 87 + d)

/-- `%0*lx` -/
def hexText (width n : ℕ) : List Byte := (numeral 16 width n).map digitChar

/-- `%d`, for a number that is not negative. -/
def decText (n : ℕ) : List Byte := (numeral 10 1 n).map digitChar

/-- `vsnprintf(buf + i, size, ..)` -/
def vsnprintf (buf : Block Byte) (i size : ℕ) (text : List Byte) : Option (Block Byte × ℕ) :=
  if size = 0 then some (buf, text.length)
  else do
    let buf ← buf.writeList i (text.take (size - 1) ++ [0])
    return (buf, text.length)

/-- `vscnprintf`, and `scnprintf`, which calls it. -/
def scnprintf (buf : Block Byte) (i size : ℕ) (text : List Byte) : Option (Block Byte × ℕ) := do
  let (buf, n) ← vsnprintf buf i size text
  return (buf, if n < size then n else if size ≠ 0 then size - 1 else 0)

/-- A text that fits is appended to the one before. -/
theorem scnprintf_append {buf : Block Byte} {before text : List Byte} {size : ℕ} (hlt : text.length < size)
    (hroom : before.length + text.length < buf.size) (hbefore : buf.Has 0 before) :
    ∃ buf', scnprintf buf before.length size text = some (buf', text.length) ∧ buf'.size = buf.size ∧
      buf'.Has 0 (before ++ text ++ [0]) := by
  obtain ⟨buf', hwrite, hsize, hhas, hread⟩ := @Block.writeList_of_le _ buf before.length (text ++ [0])
    (by rw [List.length_append, List.length_singleton]; omega)
  have htake : text.take (size - 1) = text := List.take_of_length_le (by omega)
  refine ⟨buf', ?_, hsize, ?_⟩
  · unfold scnprintf vsnprintf
    rw [if_neg (by omega), htake, hwrite]
    simp [hlt]
  · rw [List.append_assoc, Block.has_append, Nat.zero_add]
    exact ⟨hbefore.congr fun j _ hj => hread j (.inl (by omega)), hhas⟩

end Libls.Printf
