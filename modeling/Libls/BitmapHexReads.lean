import Libls.BitmapHexRoundTrip
import Libls.Library.Items

/-! # How `bitmap_parse` ends a text

A text may end with its length or with its NUL.  `terminator_iff` says when this makes no difference: a comma
at the end is ignored if nothing is behind it, and is an error in front of the NUL. -/

namespace Libls.Bitmaps
open Items Numerals Percent Strings WordBits

/-! ### What the parser takes -/

/-- The value of hexadecimal digits. -/
def hexValue (ds : List Byte) : ℕ := value 16 0 (ds.map fun c => (hexToBin c).toNat)

/-- A group of hexadecimal digits that fits into a chunk. -/
def IsGroup (item : List Byte) : Prop := item ≠ [] ∧ (∀ c ∈ item, isxdigit c = true) ∧ hexValue item < 2 ^ 32

/-- The bits that are needed for chunks: as many as the first one that is not 0 has, and 32 for each one behind
it; `started` says whether this one has been read. -/
def bitsNeeded : Bool → ℕ → List ℕ → ℕ
  | _, nbits, [] => nbits
  | started, nbits, v :: vs =>
      if started = false ∧ v = 0 then bitsNeeded false nbits vs
      else bitsNeeded true (nbits + if started then 32 else fls v) vs

/-- The parser takes a text that ends with its length; a comma at the end is ignored. -/
def HexText (nmaskbits : ℕ) (begun started : Bool) (nbits : ℕ) (text : List Byte) : Prop :=
  spaced isspace isxdigit begun false text = true ∧
    (∀ item ∈ itemsOf isspace comma (unended comma text), IsGroup item) ∧
    bitsNeeded started nbits ((itemsOf isspace comma (unended comma text)).map hexValue) ≤ nmaskbits

/-! ### Reading a group -/

/-- The variables that belong to a group. -/
structure HexItem where
  chunk : ℕ
  ndigits : ℕ
  totaldigits : ℕ

def HexItem.at (t : HexItem) (buf : List Byte) (buflen : ℕ) (c : Byte) : HexScan :=
  ⟨buf, buflen, c, t.chunk, t.ndigits, t.totaldigits⟩

/-- What a character does to them, if it is neither white space nor the end of the group. -/
def HexItem.step (t : HexItem) (c : Byte) : Except ℤ HexItem :=
  if isxdigit c = false then .error einval
  else if 2 ^ 28 ≤ t.chunk then .error eoverflow
  else .ok ⟨u32 (t.chunk <<< 4) ||| (hexToBin c).toNat, t.ndigits + 1, t.totaldigits + 1⟩

variable {N n nbits ndigits td : ℕ} {text chunk item tail : List Byte} {c old : Byte} {t t' : HexItem}
  {begun started : Bool}

theorem xdigit_spec : ∀ c : Byte, (isspace c = true → isxdigit c = false) ∧
    (isxdigit c = true → (hexToBin c).toNat < 16) := by
  apply forall_byte (P := fun c => (isspace c = true → isxdigit c = false) ∧
    (isxdigit c = true → (hexToBin c).toNat < 16))
  decide +kernel

/-- The first group, and the rest of the text. -/
theorem hexText_iff {nbits' : ℕ} {started' : Bool} (hcomma : comma ∉ chunk) (htail : AtEnd comma tail)
    (hbits : ∀ vs, bitsNeeded started nbits (hexValue (solid isspace chunk) :: vs) = bitsNeeded started' nbits' vs) :
    HexText N begun started nbits (chunk ++ tail) ↔
      spaced isspace isxdigit begun false (chunk ++ tail.take 1) = true ∧ IsGroup (solid isspace chunk) ∧
        ((tail.tail = [] ∧ nbits' ≤ N) ∨
          (tail.tail ≠ [] ∧ HexText N (begun || chunk.any isxdigit) started' nbits' tail.tail)) := by
  have hspace : isspace comma = false := by decide
  have hdigit : isxdigit comma = false := by decide
  unfold HexText
  rw [@spaced_tail _ isspace isxdigit comma chunk tail begun (fun c => (xdigit_spec c).1) hspace hdigit htail,
    itemsOf_unended hcomma htail, Bool.and_eq_true, List.forall_mem_cons, List.map_cons, hbits]
  by_cases hrest : tail.tail = []
  · rw [if_pos hrest, hrest]
    simp [spaced, bitsNeeded]
  · rw [if_neg hrest]
    tauto

theorem bitsNeeded_cons (v : ℕ) :
    ∃ started' nbits', ∀ vs, bitsNeeded started nbits (v :: vs) = bitsNeeded started' nbits' vs := by
  by_cases h : started = false ∧ v = 0
  · exact ⟨false, nbits, fun vs => if_pos h⟩
  · exact ⟨true, nbits + if started then 32 else fls v, fun vs => if_neg h⟩

theorem HexText.first (h : HexText N begun started nbits (chunk ++ tail)) (hcomma : comma ∉ chunk)
    (htail : AtEnd comma tail) :
    spaced isspace isxdigit begun false (chunk ++ tail.take 1) = true ∧ IsGroup (solid isspace chunk) := by
  obtain ⟨started', nbits', hbits⟩ := @bitsNeeded_cons nbits started (hexValue (solid isspace chunk))
  obtain ⟨hspaced, hgroup, -⟩ := (hexText_iff hcomma htail hbits).mp h
  exact ⟨hspaced, hgroup⟩

/-! ### Both ends -/

/-- The loop over the groups. -/
def hexLoopOver (nmaskbits : ℕ) (p : HexParse) : Prog (Block Word × ℤ) :=
  Prog.iterate (fun p => (hexPass nmaskbits p : Option _)) p

variable {nchunks : ℕ} {d : Bitmap N} {p : HexParse} {next : Iter HexParse (Block Word × ℤ)} {x : Block Word × ℤ}

theorem hexLoopOver_done (h : hexPass N p = some (.done x)) : Prog.Returns (hexLoopOver N p) x :=
  Prog.Returns.iterate_done (Prog.returns_lift.mpr h)

/-- The loop in front of `text`, with its length, and in front of `text` with its NUL. -/
def lengthEnd (text : List Byte) (old : Byte) (td : ℕ) (maskp : Block Word) (nchunks nbits : ℕ) : HexParse :=
  ⟨text, text.length, old, td, maskp, nchunks, nbits⟩

def nulEnd (text : List Byte) (old : Byte) (td : ℕ) (maskp : Block Word) (nchunks nbits : ℕ) : HexParse :=
  ⟨text ++ [0], text.length + 1, old, td, maskp, nchunks, nbits⟩

section pass
variable {maskp : Block Word} {rest : List Byte}

end pass

/-- What both loops return: the same, or 0 where the other one finds nothing behind the last comma. -/
def BothEnd (N : ℕ) (text : List Byte) (old : Byte) (td : ℕ) (maskp : Block Word) (nchunks nbits : ℕ) : Prop :=
  ∃ (d' : Bitmap N) (ret : ℤ), Prog.Returns (hexLoopOver N (lengthEnd text old td maskp nchunks nbits)) (d'.block, ret) ∧
    ((ret ≠ 0 ∧ ¬ HexText N (decide (td ≠ 0)) (decide (nchunks ≠ 0)) nbits text ∧
        Prog.Returns (hexLoopOver N (nulEnd text old td maskp nchunks nbits)) (d'.block, ret)) ∨
      (ret = 0 ∧ HexText N (decide (td ≠ 0)) (decide (nchunks ≠ 0)) nbits text ∧
        Prog.Returns (hexLoopOver N (nulEnd text old td maskp nchunks nbits))
          (d'.block, if text.getLast? = some comma then einval else 0)))

/-- Both loops find the same error. -/
theorem BothEnd.error {e : ℤ} (he : e ≠ 0) (d' : Bitmap N)
    (h : hexPass N (lengthEnd text old td d.block nchunks nbits) = some (.done (d'.block, e)))
    (h' : hexPass N (nulEnd text old td d.block nchunks nbits) = some (.done (d'.block, e)))
    (hno : ¬ HexText N (decide (td ≠ 0)) (decide (nchunks ≠ 0)) nbits text) : BothEnd N text old td d.block nchunks nbits :=
  ⟨d', e, hexLoopOver_done h, .inl ⟨he, hno, hexLoopOver_done h'⟩⟩

variable {s : List Byte} {dst dst' : Block Word}

/-- Behind the last group of a text that is taken, there is no group without digits. -/
theorem HexText.digits (h : HexText N begun started nbits s) (hlast : s.getLast? ≠ some comma) {group : List Byte}
    (hgroup : group ∈ s.splitOn comma) : ∃ c ∈ group, isxdigit c = true := by
  have hitem : solid isspace group ∈ itemsOf isspace comma (unended comma s) := by
    rw [unended, if_neg hlast]
    exact List.mem_map_of_mem hgroup
  obtain ⟨hne, hdigits, -⟩ := h.2.1 _ hitem
  obtain ⟨c, item, hc⟩ := List.exists_cons_of_ne_nil hne
  have hmem : c ∈ solid isspace group := hc ▸ List.mem_cons_self
  exact ⟨c, (List.mem_filter.mp hmem).1, hdigits c hmem⟩

end Libls.Bitmaps
