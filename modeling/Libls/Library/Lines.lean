import Mathlib.Data.List.Basic

/-! # Cutting a text into lines

`splitLines nl text` cuts a list after each `nl`; a last piece without `nl` is a line of its own.
The two equations `splitLines_line` and `splitLines_append` are all that a proof about a program
that reads lines needs. -/

namespace Libls

variable {α : Type} [DecidableEq α] {nl : α}

/-- The text, cut after each `nl`. -/
def splitLines (nl : α) : List α → List (List α)
  | [] => []
  | c :: cs =>
      if c = nl then [c] :: splitLines nl cs
      else
        match splitLines nl cs with
        | [] => [[c]]
        | l :: ls => (c :: l) :: ls

@[simp] theorem splitLines_nil : splitLines nl ([] : List α) = [] := rfl

@[simp] theorem splitLines_eq_nil {text : List α} : splitLines nl text = [] ↔ text = [] := by
  cases text with
  | nil => simp
  | cons c cs =>
      rw [splitLines]
      split
      · simp
      · split <;> simp

/-- A line that is ended by `nl`. -/
theorem splitLines_line {line rest : List α} (h : nl ∉ line) :
    splitLines nl (line ++ nl :: rest) = (line ++ [nl]) :: splitLines nl rest := by
  induction line with
  | nil => simp [splitLines]
  | cons c line ih =>
      rw [List.mem_cons, not_or] at h
      rw [List.cons_append, splitLines, if_neg (Ne.symm h.1), ih h.2]
      rfl

/-- A piece without `nl` belongs to the line that follows. -/
theorem splitLines_append {piece rest l : List α} {ls : List (List α)} (h : nl ∉ piece)
    (hrest : splitLines nl rest = l :: ls) : splitLines nl (piece ++ rest) = (piece ++ l) :: ls := by
  induction piece with
  | nil => exact hrest
  | cons c piece ih =>
      rw [List.mem_cons, not_or] at h
      rw [List.cons_append, splitLines, if_neg (Ne.symm h.1), ih h.2]
      rfl

/-- A last line without `nl`. -/
theorem splitLines_last {line : List α} (h : nl ∉ line) (hne : line ≠ []) :
    splitLines nl line = [line] := by
  induction line with
  | nil => exact absurd rfl hne
  | cons c line ih =>
      rw [List.mem_cons, not_or] at h
      rw [splitLines, if_neg (Ne.symm h.1)]
      cases line with
      | nil => rfl
      | cons d line => rw [ih h.2 (List.cons_ne_nil d line)]

/-- The lines make up the text. -/
theorem flatten_splitLines (text : List α) : (splitLines nl text).flatten = text := by
  induction text with
  | nil => rfl
  | cons c cs ih =>
      rw [splitLines]
      split
      · rw [List.flatten_cons, ih]
        rfl
      · split
        · next h =>
            rw [h] at ih
            rw [← ih]
            rfl
        · next h =>
            rw [h, List.flatten_cons] at ih
            rw [List.flatten_cons, ← ih]
            rfl

/-- A line before another one. -/
theorem splitLines_two {text l l' : List α} {ls : List (List α)} (h : splitLines nl text = l :: l' :: ls) :
    ∃ line rest, nl ∉ line ∧ text = line ++ nl :: rest ∧ l = line ++ [nl] ∧
      splitLines nl rest = l' :: ls := by
  by_cases hmem : nl ∈ text
  · obtain ⟨line, rest, rfl, hline⟩ := List.eq_append_cons_of_mem hmem
    rw [splitLines_line hline] at h
    obtain ⟨rfl, hrest⟩ := List.cons.inj h
    exact ⟨line, rest, hline, rfl, rfl, hrest⟩
  · rcases eq_or_ne text [] with rfl | hne
    · cases h
    · rw [splitLines_last hmem hne] at h
      cases h

/-- A text without its last line. -/
theorem splitLines_dropLast (text : List α) :
    splitLines nl (splitLines nl text).dropLast.flatten = (splitLines nl text).dropLast := by
  induction h : splitLines nl text generalizing text with
  | nil => rfl
  | cons l ls ih =>
      cases ls with
      | nil => rfl
      | cons l' ls =>
          obtain ⟨line, rest, hline, rfl, rfl, hrest⟩ := splitLines_two h
          have := ih rest hrest
          rw [List.dropLast_cons_of_ne_nil (List.cons_ne_nil l' ls), List.flatten_cons, List.append_assoc,
            List.singleton_append, splitLines_line hline, this]

/-- A text without its last line is empty or ends with `nl`. -/
theorem flatten_dropLast_splitLines (text : List α) :
    (splitLines nl text).dropLast.flatten = [] ∨ ∃ t, (splitLines nl text).dropLast.flatten = t ++ [nl] := by
  induction h : splitLines nl text generalizing text with
  | nil => exact .inl rfl
  | cons l ls ih =>
      cases ls with
      | nil => exact .inl rfl
      | cons l' ls =>
          obtain ⟨line, rest, -, -, rfl, hrest⟩ := splitLines_two h
          rw [List.dropLast_cons_of_ne_nil (List.cons_ne_nil l' ls), List.flatten_cons]
          rcases ih rest hrest with he | ⟨t, he⟩
          · rw [he, List.append_nil]
            exact .inr ⟨line, rfl⟩
          · rw [he, ← List.append_assoc]
            exact .inr ⟨line ++ [nl] ++ t, rfl⟩

/-- The last line is ended. -/
theorem splitLines_concat {text : List α} (hne : text ≠ []) (hlast : text.getLast? ≠ some nl) :
    ∃ earlier last, splitLines nl text = earlier ++ [last] ∧
      splitLines nl (text ++ [nl]) = earlier ++ [last ++ [nl]] := by
  induction h : splitLines nl text generalizing text with
  | nil => exact absurd (splitLines_eq_nil.mp h) hne
  | cons l ls ih =>
      cases ls with
      | nil =>
          have hl : l = text := by
            have hflat : (splitLines nl text).flatten = text := flatten_splitLines text
            rwa [h, List.flatten_cons, List.flatten_nil, List.append_nil] at hflat
          have hmem : nl ∉ text := by
            intro hmem
            obtain ⟨line, rest, rfl, hline⟩ := List.eq_append_cons_of_mem hmem
            rw [splitLines_line hline] at h
            have hrest : rest = [] := splitLines_eq_nil.mp (List.cons.inj h).2
            rw [hrest, List.getLast?_concat] at hlast
            exact hlast rfl
          refine ⟨[], l, rfl, ?_⟩
          rw [hl]
          exact splitLines_line hmem
      | cons l' ls =>
          obtain ⟨line, rest, hline, rfl, rfl, hrest⟩ := splitLines_two h
          have hrne : rest ≠ [] := by
            rintro rfl
            cases hrest
          have hrlast : rest.getLast? ≠ some nl := by
            intro he
            refine hlast ?_
            rw [List.getLast?_append, List.getLast?_cons, he]
            rfl
          obtain ⟨earlier, last, e, e'⟩ := ih hrne hrlast hrest
          refine ⟨(line ++ [nl]) :: earlier, last, by rw [e]; rfl, ?_⟩
          rw [List.append_assoc, List.cons_append, splitLines_line hline, e']
          rfl

/-- No line is empty. -/
theorem nil_notMem_splitLines {text : List α} : [] ∉ splitLines nl text := by
  induction text with
  | nil => simp
  | cons c cs ih =>
      rw [splitLines]
      split
      · simp [ih]
      · split
        · simp
        · rename_i h
          rw [h] at ih
          simp only [List.mem_cons, not_or] at ih
          simp [ih.2]

end Libls
