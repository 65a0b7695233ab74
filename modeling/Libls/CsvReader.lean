import Mathlib.Tactic
import Libls.CsvPasses

/-! # Reading a CSV text byte by byte

What a text means, without lines and passes: a reader takes one byte after the other and keeps the
records that have ended.  The texts that are not well formed are those that take it to `bad`, and
those in which a quoted field is open at the end.

`Reader.last` is the record that `csv_parse` hands over at the end of a file without a line end. -/

namespace Libls.Csv
open FileLines Strings

/-- Where a reader is in a record. -/
inductive Mode where
  /-- at the beginning of a field -/
  | start
  | plain
  /-- in a quoted field; `fresh` is right behind its opening quote or behind a doubled one -/
  | quoted (fresh : Bool)
  /-- behind a quote in a quoted field -/
  | closed
  /-- behind the carriage return that follows a closing quote -/
  | closedCr
  /-- behind something else that follows a closing quote -/
  | bad
deriving DecidableEq, Repr

structure Reader where
  mode : Mode
  /-- the fields of the record before the one that is being read -/
  fields : List (List Byte)
  field : List Byte
  /-- the number of line ends -/
  lines : ℕ
  /-- the records that have ended, each with the line of its end -/
  records : List (ℕ × List (List Byte))
deriving DecidableEq, Repr

namespace Reader

def init : Reader := ⟨.start, [], [], 0, []⟩

/-- A byte of the field. -/
def add (r : Reader) (mode : Mode) (c : Byte) : Reader := { r with mode := mode, field := r.field ++ [c] }

/-- The field ends. -/
def endField (r : Reader) : Reader := { r with mode := .start, fields := r.fields ++ [r.field], field := [] }

/-- The record ends with its last field `v`. -/
def endRecord (r : Reader) (v : List Byte) : Reader :=
  ⟨.start, [], [], r.lines + 1, r.records ++ [(r.lines + 1, r.fields ++ [v])]⟩

def plainStep (r : Reader) (c : Byte) : Reader :=
  if c = comma then r.endField
  else if c = newline then r.endRecord (cutCarriage r.field)
  else r.add .plain c

def quotedStep (r : Reader) (c : Byte) : Reader :=
  if c = quote then { r with mode := .closed }
  else { r.add (.quoted false) c with lines := if c = newline then r.lines + 1 else r.lines }

def closedStep (r : Reader) (c : Byte) : Reader :=
  if c = quote then r.add (.quoted true) quote
  else if c = comma then r.endField
  else if c = newline then r.endRecord r.field
  else { r with mode := if c = carriage then .closedCr else .bad }

def step (r : Reader) (c : Byte) : Reader :=
  match r.mode with
  | .start => if c = quote then { r with mode := .quoted true } else r.plainStep c
  | .plain => r.plainStep c
  | .quoted _ => r.quotedStep c
  | .closed => r.closedStep c
  | .closedCr => if c = newline then r.endRecord r.field else { r with mode := .bad }
  | .bad => r

/-- Reading a text. -/
def read (r : Reader) (text : List Byte) : Reader := text.foldl step r

@[simp] theorem read_nil (r : Reader) : r.read [] = r := rfl

@[simp] theorem read_cons (r : Reader) (c : Byte) (text : List Byte) :
    r.read (c :: text) = (r.step c).read text := rfl

theorem read_append (r : Reader) (text text' : List Byte) :
    r.read (text ++ text') = (r.read text).read text' := List.foldl_append

/-- A text that is not well formed stays so. -/
theorem read_bad {r : Reader} (h : r.mode = .bad) (text : List Byte) : r.read text = r := by
  induction text with
  | nil => rfl
  | cons c text ih =>
      have hstep : r.step c = r := by
        unfold step
        rw [h]
      rw [read_cons, hstep, ih]

/-! ### The end of a text -/

/-- A quoted field is open. -/
def isOpen (r : Reader) : Bool :=
  match r.mode with
  | .quoted _ => true
  | _ => false

/-- A quoted field is open, or a closing quote is followed by something that does not belong there. -/
def malformed (r : Reader) : Bool := r.isOpen || r.mode == .bad

/-- The record that is handed over at the end of the file.  Behind a comma there is no empty field;
behind an opening or a doubled quote the record is handed over although the field is open. -/
def last (r : Reader) : Option (List (List Byte)) :=
  match r.mode with
  | .start => if r.fields = [] then none else some r.fields
  | .plain => some (r.fields ++ [cutCarriage r.field])
  | .quoted fresh => if fresh then some (r.fields ++ [r.field]) else none
  | .closed | .closedCr => some (r.fields ++ [r.field])
  | .bad => none

/-- What is handed over. -/
def delivered (r : Reader) : List (ℕ × List (List Byte)) :=
  r.records ++ (r.last.map fun fields => (r.lines + 1, fields)).toList

end Reader

/-- A call of the user's callback; a line number is passed on as an `int`. -/
def callOf (record : ℕ × List (List Byte)) : Call :=
  ⟨toInt (u32 record.1), record.2.map some, record.2.length⟩

/-! ### Chunks of a text -/

namespace Reader

variable {r : Reader} {v p text : List Byte} {c : Byte}

theorem read_plain_from (h : r.mode = .plain) (hc : comma ∉ v) (hn : newline ∉ v) :
    r.read v = { r with field := r.field ++ v } := by
  induction v generalizing r with
  | nil =>
      rw [List.append_nil]
      rfl
  | cons c v ih =>
      rw [List.mem_cons, not_or] at hc hn
      have hstep : r.step c = r.add .plain c := by
        unfold step
        rw [h]
        simp only [plainStep, if_neg (Ne.symm hc.1), if_neg (Ne.symm hn.1)]
      rw [read_cons, hstep, ih rfl hc.2 hn.2]
      simp [add, h]

/-- A plain field. -/
theorem read_plain (h : r.mode = .start) (hfield : r.field = []) (hv : v ≠ []) (hq : v.head? ≠ some quote)
    (hc : comma ∉ v) (hn : newline ∉ v) : r.read v = { r with mode := .plain, field := v } := by
  obtain ⟨c, v, rfl⟩ := List.exists_cons_of_ne_nil hv
  have hcq : c ≠ quote := fun he => hq (congrArg some he)
  rw [List.mem_cons, not_or] at hc hn
  have hstep : r.step c = { r with mode := .plain, field := [c] } := by
    unfold step
    rw [h]
    simp only [if_neg hcq, plainStep, if_neg (Ne.symm hc.1), if_neg (Ne.symm hn.1), add, hfield,
      List.nil_append]
  rw [read_cons, hstep, read_plain_from rfl hc.2 hn.2]
  rfl

/-- A plain field, and the byte that ends it. -/
theorem read_plain_end (h : r.mode = .start) (hfield : r.field = []) (hq : v.head? ≠ some quote)
    (hcv : comma ∉ v) (hn : newline ∉ v) (hc : c = comma ∨ c = newline) :
    r.read (v ++ c :: text) = ({ r with field := v }.plainStep c).read text := by
  have hne : c ≠ quote := by
    rcases hc with rfl | rfl <;> decide
  rw [read_append, read_cons]
  refine congrArg (fun r : Reader => r.read text) ?_
  by_cases hv : v = []
  · subst hv
    have hsame : { r with field := [] } = r := by rw [← hfield]
    rw [hsame, read_nil]
    unfold step
    rw [h]
    exact if_neg hne
  · rw [read_plain h hfield hv hq hcv hn]
    show plainStep { r with mode := .plain, field := v } c = _
    unfold plainStep
    rcases hc with rfl | rfl
    · rfl
    · rfl

/-- A piece of a quoted field. -/
theorem read_quoted {fresh : Bool} (h : r.mode = .quoted fresh) (hp : p ≠ []) (hq : quote ∉ p)
    (hn : newline ∉ p) : r.read p = { r with mode := .quoted false, field := r.field ++ p } := by
  induction p generalizing r fresh with
  | nil => exact absurd rfl hp
  | cons c p ih =>
      rw [List.mem_cons, not_or] at hq hn
      have hstep : r.step c = r.add (.quoted false) c := by
        unfold step
        rw [h]
        simp only [quotedStep, if_neg (Ne.symm hq.1), if_neg (Ne.symm hn.1)]
        rfl
      rw [read_cons, hstep]
      by_cases hnil : p = []
      · rw [hnil]
        rfl
      · rw [ih rfl hnil hq.2 hn.2]
        simp [add]

/-- A piece of a quoted field, and the byte behind it. -/
theorem read_quoted_end {fresh : Bool} (h : r.mode = .quoted fresh) (hq : quote ∉ p) (hn : newline ∉ p) :
    r.read (p ++ c :: text) = ({ r with field := r.field ++ p }.quotedStep c).read text := by
  rw [read_append, read_cons]
  refine congrArg (fun r : Reader => r.read text) ?_
  by_cases hp : p = []
  · subst hp
    have hsame : { r with field := r.field ++ [] } = r := by rw [List.append_nil]
    rw [hsame, read_nil]
    unfold step
    rw [h]
  · rw [read_quoted h hp hq hn]
    show quotedStep { r with mode := .quoted false, field := r.field ++ p } c = _
    unfold quotedStep
    split
    · rfl
    · rfl

/-! ### Sizes -/

/-- While the text is read, no record has `2 ^ 31` fields and no field has `2 ^ 31` bytes. -/
def Sized (r : Reader) (text : List Byte) : Prop :=
  ∀ k, (r.read (text.take k)).fields.length < 2 ^ 31 ∧ (r.read (text.take k)).field.length < 2 ^ 31

theorem Sized.append (h : r.Sized (v ++ text)) : (r.read v).Sized text := by
  intro k
  have hk := h (v.length + k)
  rwa [List.take_length_add_append, read_append] at hk

/-- The sizes behind a piece of the text. -/
theorem Sized.read (h : r.Sized (v ++ text)) :
    (r.read v).fields.length < 2 ^ 31 ∧ (r.read v).field.length < 2 ^ 31 := h.append 0

theorem step_length (r : Reader) (c : Byte) :
    (r.step c).fields.length ≤ r.fields.length + 1 ∧ (r.step c).field.length ≤ r.field.length + 1 := by
  unfold step plainStep quotedStep closedStep
  split <;> (repeat' split) <;> simp [add, endField, endRecord]

theorem read_length (r : Reader) (text : List Byte) :
    (r.read text).fields.length ≤ r.fields.length + text.length ∧
      (r.read text).field.length ≤ r.field.length + text.length := by
  induction text generalizing r with
  | nil => exact ⟨le_rfl, le_rfl⟩
  | cons c text ih =>
      obtain ⟨h₁, h₂⟩ := step_length r c
      obtain ⟨h₃, h₄⟩ := ih (r.step c)
      rw [read_cons, List.length_cons]
      omega

/-- A text of fewer than `2 ^ 31` bytes. -/
theorem sized_of_length (h : text.length < 2 ^ 31) : init.Sized text := by
  intro k
  obtain ⟨h₁, h₂⟩ := read_length init (text.take k)
  have hk : (text.take k).length ≤ text.length := List.length_take_le' _ _
  have h₃ : init.fields.length = 0 := rfl
  have h₄ : init.field.length = 0 := rfl
  omega

end Reader
end Libls.Csv
