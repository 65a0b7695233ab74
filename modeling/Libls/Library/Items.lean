import Mathlib.Data.List.Basic

/-! # Scanning the items of a text

A text is cut into items at a separator.  White space is skipped, but behind a digit it must not be followed
by another character (`spaced`); what is left of an item (`solid`) is read one character after the other.

`Scanner` is such a reader, and `Scans` says that a function with a buffer and a counter works like it.
`scan_item` is the induction: the function reads an item as `Scanner.readItem` does. -/

namespace Libls.Items

/-! ### Texts -/

section text
variable {α : Type} [DecidableEq α] (space digit : α → Bool) (sep : α)

omit [DecidableEq α] in
/-- Behind a digit, white space is followed by white space only; the flags say whether a digit has been read,
and whether white space was read last. -/
def spaced : Bool → Bool → List α → Bool
  | _, _, [] => true
  | begun, sp, c :: text =>
      if space c then spaced begun true text else !(begun && sp) && spaced (begun || digit c) false text

omit [DecidableEq α] in
/-- A text without its white space. -/
def solid (text : List α) : List α := text.filter fun c => !space c

/-- The items of a text. -/
def itemsOf (text : List α) : List (List α) := (text.splitOn sep).map (solid space)

/-- A text without a separator at its end. -/
def unended (text : List α) : List α := if text.getLast? = some sep then text.dropLast else text

omit [DecidableEq α] in
/-- The end of the text, or a separator. -/
def AtEnd (tail : List α) : Prop := tail = [] ∨ ∃ rest, tail = sep :: rest

variable {space digit sep} {text chunk tail rest : List α} {c old : α} {begun sp : Bool}

theorem text_cases (sep : α) (text : List α) : ∃ chunk tail, text = chunk ++ tail ∧ sep ∉ chunk ∧ AtEnd sep tail := by
  by_cases h : sep ∈ text
  · obtain ⟨chunk, rest, rfl, hchunk⟩ := List.eq_append_cons_of_mem h
    exact ⟨chunk, sep :: rest, rfl, hchunk, .inr ⟨rest, rfl⟩⟩
  · exact ⟨text, [], (List.append_nil text).symm, h, .inl rfl⟩

omit [DecidableEq α] in
theorem AtEnd.tail_lt (h : AtEnd sep tail) (hrest : tail.tail ≠ []) : tail.tail.length < (chunk ++ tail).length := by
  obtain rfl | ⟨rest, rfl⟩ := h
  · exact absurd rfl hrest
  · rw [List.length_append, List.length_cons, List.tail_cons]
    omega

section
omit [DecidableEq α]

theorem spaced_space (hc : space c = true) : spaced space digit begun sp (c :: text) = spaced space digit begun true text := by
  rw [spaced, if_pos hc]

theorem spaced_char (hc : space c = false) : spaced space digit begun sp (c :: text) =
    (!(begun && sp) && spaced space digit (begun || digit c) false text) := by
  rw [spaced, if_neg (by simp [hc])]

theorem solid_space (hc : space c = true) : solid space (c :: text) = solid space text :=
  List.filter_cons_of_neg (by simp [hc])

theorem solid_char (hc : space c = false) : solid space (c :: text) = c :: solid space text :=
  List.filter_cons_of_pos (by simp [hc])

theorem solid_append (s t : List α) : solid space (s ++ t) = solid space s ++ solid space t := List.filter_append ..

theorem solid_white (h : ∀ c ∈ text, space c = true) : solid space text = [] := by
  unfold solid
  rw [List.filter_eq_nil_iff]
  intro c hc
  simp [h c hc]

theorem solid_eq (h : ∀ c ∈ text, space c = false) : solid space text = text := by
  unfold solid
  rw [List.filter_eq_self]
  intro c hc
  simp [h c hc]

/-- White space is no digit. -/
theorem any_solid (h : ∀ c, space c = true → digit c = false) : (solid space text).any digit = text.any digit := by
  induction text with
  | nil => rfl
  | cons c text ih =>
      cases hc : space c with
      | true => rw [solid_space hc, ih, List.any_cons, h c hc, Bool.false_or]
      | false => rw [solid_char hc, List.any_cons, List.any_cons, ih]

theorem spaced_append (h : ∀ c, space c = true → digit c = false) :
    spaced space digit begun (space old) (chunk ++ tail) = (spaced space digit begun (space old) chunk &&
      spaced space digit (begun || chunk.any digit) (space (chunk.getLast?.getD old)) tail) := by
  induction chunk generalizing begun old with
  | nil => simp [spaced]
  | cons c chunk ih =>
      rw [List.cons_append, List.getLast?_cons, Option.getD_some, List.any_cons]
      cases hc : space c with
      | true =>
          have hih := @ih c begun
          rw [hc] at hih
          rw [spaced_space hc, spaced_space hc, hih, h c hc, Bool.false_or]
      | false =>
          have hih := @ih c (begun || digit c)
          rw [hc] at hih
          rw [spaced_char hc, spaced_char hc, hih, Bool.and_assoc, Bool.or_assoc]

/-- Behind a digit, white space ends the text. -/
theorem spaced_digit (h : spaced space digit true sp text = true) : ∃ core w, text = core ++ w ∧
    (∀ c ∈ core, space c = false) ∧ (∀ c ∈ w, space c = true) ∧ (sp = true → core = []) := by
  induction text generalizing sp with
  | nil => exact ⟨[], [], rfl, by simp, by simp, fun _ => rfl⟩
  | cons c text ih =>
      cases hc : space c with
      | true =>
          rw [spaced_space hc] at h
          obtain ⟨core, w, rfl, -, hw, hcore⟩ := ih h
          rw [hcore rfl]
          refine ⟨[], c :: w, rfl, by simp, ?_, fun _ => rfl⟩
          rw [List.forall_mem_cons]
          exact ⟨hc, hw⟩
      | false =>
          rw [spaced_char hc, Bool.true_and, Bool.true_or, Bool.and_eq_true, Bool.not_eq_true'] at h
          obtain ⟨core, w, rfl, hcore, hw, -⟩ := ih h.2
          refine ⟨c :: core, w, rfl, ?_, hw, fun hs => ?_⟩
          · rw [List.forall_mem_cons]
            exact ⟨hc, hcore⟩
          · cases hs.symm.trans h.1

/-- A text of which the first solid character is a digit has white space at its ends only. -/
theorem trim (h : spaced space digit false sp text = true) (hhead : ∀ c, (solid space text).head? = some c → digit c = true) :
    ∃ w w', text = w ++ solid space text ++ w' ∧ ∀ c ∈ w ++ w', space c = true := by
  induction text generalizing sp with
  | nil => exact ⟨[], [], rfl, by simp⟩
  | cons c text ih =>
      cases hc : space c with
      | true =>
          rw [spaced_space hc] at h
          rw [solid_space hc] at hhead ⊢
          obtain ⟨w, w', htext, hw⟩ := ih h hhead
          refine ⟨c :: w, w', congrArg (c :: ·) htext, ?_⟩
          rw [List.cons_append, List.forall_mem_cons]
          exact ⟨hc, hw⟩
      | false =>
          rw [solid_char hc] at hhead ⊢
          rw [spaced_char hc, hhead c rfl, Bool.and_eq_true] at h
          obtain ⟨core, w', rfl, hcore, hw', -⟩ := spaced_digit h.2
          refine ⟨[], w', ?_, hw'⟩
          rw [solid_append, solid_eq hcore, solid_white hw', List.append_nil]
          rfl

theorem spaced_white (h : ∀ c ∈ text, space c = true) : spaced space digit begun sp text = true := by
  induction text generalizing sp with
  | nil => rfl
  | cons c text ih =>
      rw [List.forall_mem_cons] at h
      rw [spaced_space h.1]
      exact ih h.2

theorem spaced_solid {core w : List α} (hcore : ∀ c ∈ core, space c = false) (hw : ∀ c ∈ w, space c = true)
    (hsp : (begun && sp) = false) : spaced space digit begun sp (core ++ w) = true := by
  induction core generalizing begun sp with
  | nil => exact spaced_white hw
  | cons c core ih =>
      rw [List.forall_mem_cons] at hcore
      rw [List.cons_append, spaced_char hcore.1, hsp, Bool.not_false, Bool.true_and]
      exact ih hcore.2 (Bool.and_false _)

/-- Such a text is spaced. -/
theorem spaced_trimmed {w core w' : List α} (hw : ∀ c ∈ w ++ w', space c = true) (hcore : ∀ c ∈ core, space c = false) :
    spaced space digit false sp (w ++ core ++ w') = true := by
  rw [List.forall_mem_append] at hw
  obtain ⟨hwhite, hwhite'⟩ := hw
  rw [List.append_assoc]
  induction w generalizing sp with
  | nil =>
      rw [List.nil_append]
      exact spaced_solid hcore hwhite' (Bool.false_and sp)
  | cons c w ih =>
      rw [List.forall_mem_cons] at hwhite
      rw [List.cons_append, spaced_space hwhite.1]
      exact ih hwhite.2

end

/-! ### The items -/

theorem itemsOf_single (h : sep ∉ chunk) : itemsOf space sep chunk = [solid space chunk] := by
  unfold itemsOf
  rw [List.splitOn_eq_singleton h]
  rfl

theorem itemsOf_cons (h : sep ∉ chunk) (rest : List α) :
    itemsOf space sep (chunk ++ sep :: rest) = solid space chunk :: itemsOf space sep rest := by
  unfold itemsOf
  rw [List.splitOn_append_cons_self_of_not_mem h]
  rfl

/-- A separator at the end has an empty item behind it. -/
theorem nil_mem_itemsOf (h : text.getLast? = some sep) : [] ∈ itemsOf space sep text := by
  obtain ⟨chunk, rfl⟩ := List.getLast?_eq_some_iff.mp h
  unfold itemsOf
  rw [List.splitOn_append_cons_self]
  simp [solid]

/-- The items of a text are those between the separators that are left without white space. -/
theorem splitOn_solid (hsep : space sep = false) (text : List α) :
    (solid space text).splitOn sep = itemsOf space sep text := by
  induction hn : text.length using Nat.strongRecOn generalizing text with
  | _ n ih =>
      subst hn
      obtain ⟨chunk, tail, rfl, hchunk, htail⟩ := text_cases sep text
      have hsolid : sep ∉ solid space chunk := fun h => hchunk (List.mem_filter.mp h).1
      obtain rfl | ⟨rest, rfl⟩ := htail
      · rw [List.append_nil, itemsOf_single hchunk, List.splitOn_eq_singleton hsolid]
      · have hlen : rest.length < (chunk ++ sep :: rest).length := by
          rw [List.length_append, List.length_cons]
          omega
        rw [itemsOf_cons hchunk, solid_append, solid_char hsep, List.splitOn_append_cons_self_of_not_mem hsolid,
          ih _ hlen rest rfl]

theorem unended_of_notMem (h : sep ∉ chunk) : unended sep chunk = chunk :=
  if_neg fun hl => h (List.mem_of_getLast? hl)

theorem unended_sep (chunk : List α) : unended sep (chunk ++ [sep]) = chunk := by
  unfold unended
  rw [List.getLast?_concat, if_pos rfl, List.dropLast_concat]

theorem unended_append (hrest : rest ≠ []) : unended sep (chunk ++ rest) = chunk ++ unended sep rest := by
  unfold unended
  rw [List.getLast?_append_of_ne_nil _ hrest, List.dropLast_append_of_ne_nil hrest]
  split <;> rfl

/-- The first item, and those of the rest. -/
theorem itemsOf_unended (h : sep ∉ chunk) (htail : AtEnd sep tail) : itemsOf space sep (unended sep (chunk ++ tail)) =
    solid space chunk :: if tail.tail = [] then [] else itemsOf space sep (unended sep tail.tail) := by
  obtain rfl | ⟨rest, rfl⟩ := htail
  · rw [List.append_nil, unended_of_notMem h, itemsOf_single h]
    rfl
  · cases rest with
    | nil =>
        rw [unended_sep, itemsOf_single h]
        rfl
    | cons c rest =>
        have happ := @unended_append _ _ sep (chunk ++ [sep]) (c :: rest) (List.cons_ne_nil c rest)
        rw [List.append_assoc, List.singleton_append, List.append_assoc, List.singleton_append] at happ
        rw [happ, itemsOf_cons h, List.tail_cons, if_neg (List.cons_ne_nil c rest)]

omit [DecidableEq α] in
/-- The white space up to the end of the first item, and that of the rest. -/
theorem spaced_tail (h : ∀ c, space c = true → digit c = false) (hsep : space sep = false)
    (hdigit : digit sep = false) (htail : AtEnd sep tail) : spaced space digit begun false (chunk ++ tail) =
      (spaced space digit begun false (chunk ++ tail.take 1) &&
        spaced space digit (begun || chunk.any digit) false tail.tail) := by
  obtain rfl | ⟨rest, rfl⟩ := htail
  · simp [spaced]
  · have happ := @spaced_append _ space digit (chunk ++ [sep]) rest sep begun h
    rw [hsep, List.append_assoc, List.singleton_append, List.getLast?_concat, Option.getD_some, hsep, List.any_append,
      List.any_cons, hdigit, List.any_nil, Bool.or_false, Bool.or_false] at happ
    exact happ

end text

/-! ### Scanners -/

/-- What a scanner does with the characters of an item: white space is skipped, and each other one is a step;
`begun` says whether a digit has been read, and `bad` is the error for white space in between. -/
structure Scanner (α σ ε : Type) where
  space : α → Bool
  digit : α → Bool
  begun : σ → Bool
  step : σ → α → Except ε σ
  bad : ε
  space_digit : ∀ c, space c = true → digit c = false
  begun_step : ∀ {t c t'}, step t c = .ok t' → begun t' = (begun t || digit c)

namespace Scanner
variable {α σ ε R : Type} (S : Scanner α σ ε)

def steps (t : σ) : List α → Except ε σ
  | [] => .ok t
  | c :: item =>
      match S.step t c with
      | .error e => .error e
      | .ok t => steps t item

/-- The characters in front of the end of an item; the flag says whether white space was read last. -/
def scanChunk (t : σ) (sp : Bool) : List α → Except ε σ
  | [] => .ok t
  | c :: chunk =>
      if S.space c then scanChunk t true chunk
      else if S.begun t && sp then .error S.bad
      else
        match S.step t c with
        | .error e => .error e
        | .ok t => scanChunk t false chunk

/-- The item in front of `tail`: white space in front of a separator is checked, too. -/
def scanItem (t : σ) (old : α) (chunk tail : List α) : Except ε σ :=
  match S.scanChunk t (S.space old) chunk with
  | .error e => .error e
  | .ok t =>
      if tail ≠ [] ∧ S.begun t = true ∧ S.space (chunk.getLast?.getD old) = true then .error S.bad else .ok t

variable {S} {t t' : σ} {chunk item : List α} {sp : Bool}

theorem begun_steps (h : S.steps t item = .ok t') : S.begun t' = (S.begun t || item.any S.digit) := by
  induction item generalizing t with
  | nil =>
      cases h
      rw [List.any_nil, Bool.or_false]
  | cons c item ih =>
      rw [steps] at h
      cases hc : S.step t c with
      | error e =>
          rw [hc] at h
          cases h
      | ok t₁ =>
          rw [hc] at h
          rw [ih h, S.begun_step hc, List.any_cons, Bool.or_assoc]

/-- What is read from the characters of an item. -/
theorem scanChunk_ok : S.scanChunk t sp chunk = .ok t' ↔
    spaced S.space S.digit (S.begun t) sp chunk = true ∧ S.steps t (solid S.space chunk) = .ok t' := by
  induction chunk generalizing t sp with
  | nil =>
      rw [scanChunk, spaced]
      exact (and_iff_right rfl).symm
  | cons c chunk ih =>
      rw [scanChunk]
      cases hc : S.space c with
      | true => rw [if_pos rfl, ih, spaced_space hc, solid_space hc]
      | false =>
          rw [if_neg Bool.false_ne_true, spaced_char hc, solid_char hc, steps]
          cases hsp : S.begun t && sp with
          | true =>
              rw [if_pos rfl]
              refine iff_of_false (fun h => ?_) (fun h => ?_)
              · cases h
              · cases h.1
          | false =>
              rw [if_neg Bool.false_ne_true, Bool.not_false, Bool.true_and]
              cases hstep : S.step t c with
              | error e =>
                  refine iff_of_false (fun h => ?_) (fun h => ?_)
                  · cases h
                  · cases h.2
              | ok t₁ =>
                  rw [← S.begun_step hstep]
                  exact ih

variable {sep old : α} {tail : List α} {n : ℕ}

/-- What is read from an item. -/
theorem scanItem_ok (hold : S.space old = false) (hsep : S.space sep = false) (htail : AtEnd sep tail) :
    S.scanItem t old chunk tail = .ok t' ↔
      spaced S.space S.digit (S.begun t) false (chunk ++ tail.take 1) = true ∧ S.steps t (solid S.space chunk) = .ok t' := by
  have happ := @spaced_append _ S.space S.digit chunk (tail.take 1) old (S.begun t) S.space_digit
  rw [hold] at happ
  rw [happ, Bool.and_eq_true]
  unfold scanItem
  rw [hold]
  cases hchunk : S.scanChunk t false chunk with
  | error e =>
      refine iff_of_false (fun h => ?_) (fun h => ?_)
      · cases h
      · cases hchunk.symm.trans (scanChunk_ok.mpr ⟨h.1.1, h.2⟩)
  | ok t₁ =>
      obtain ⟨hspaced, hsteps⟩ := scanChunk_ok.mp hchunk
      have hbegun := begun_steps hsteps
      rw [any_solid S.space_digit] at hbegun
      rw [hspaced, hsteps, ← hbegun]
      obtain rfl | ⟨rest, rfl⟩ := htail
      · simp [spaced]
      · rw [List.take_succ_cons, List.take_zero, spaced_char hsep]
        by_cases hbad : S.begun t₁ = true ∧ S.space (chunk.getLast?.getD old) = true
        · simp [hbad]
        · have hgood : (S.begun t₁ && S.space (chunk.getLast?.getD old)) = false := by
            rw [Bool.eq_false_iff, ne_eq, Bool.and_eq_true]
            exact hbad
          have hcond : ¬ (sep :: rest ≠ [] ∧ S.begun t₁ = true ∧ S.space (chunk.getLast?.getD old) = true) :=
            fun h => hbad h.2
          dsimp only
          rw [if_neg hcond, hgood]
          simp [spaced]

/-- The errors of a scanner. -/
theorem scanItem_error {P : ε → Prop} {e : ε} (hbad : P S.bad) (hstep : ∀ t c e, S.step t c = .error e → P e)
    (h : S.scanItem t old chunk tail = .error e) : P e := by
  have hchunk : ∀ t sp, S.scanChunk t sp chunk = .error e → P e := by
    clear h
    induction chunk with
    | nil =>
        intro t sp h
        cases h
    | cons c chunk ih =>
        intro t sp h
        rw [scanChunk] at h
        split_ifs at h
        · exact ih t true h
        · cases h
          exact hbad
        · cases hc : S.step t c with
          | error e' =>
              rw [hc] at h
              cases h
              exact hstep t c _ hc
          | ok t₁ =>
              rw [hc] at h
              exact ih t₁ false h
  unfold scanItem at h
  cases hc : S.scanChunk t (S.space old) chunk with
  | error e' =>
      rw [hc] at h
      cases h
      exact hchunk t _ hc
  | ok t₁ =>
      rw [hc] at h
      dsimp only at h
      split_ifs at h
      cases h
      exact hbad

/-- What `scan n buf old t` returns when there are `n` characters to be read from `buf`, behind the character
`old`: it works like the scanner on characters that are `plain`, up to the end (`last`) or a separator
(`stop`). -/
structure Scans (S : Scanner α σ ε) (plain : α → Prop) (sep : α) (scan : ℕ → List α → α → σ → R) (fail : ε → R)
    (last : List α → α → σ → R) (stop : ℕ → List α → σ → R) : Prop where
  at_zero : ∀ buf old t, scan 0 buf old t = last buf old t
  at_space : ∀ n c buf old t, S.space c = true → scan (n + 1) (c :: buf) old t = scan n buf c t
  at_sep : ∀ n buf old t, scan (n + 1) (sep :: buf) old t =
    if S.begun t = true ∧ S.space old = true then fail S.bad else stop n buf t
  at_char : ∀ n c buf old t, S.space c = false → c ≠ sep → plain c → scan (n + 1) (c :: buf) old t =
    if S.begun t = true ∧ S.space old = true then fail S.bad
    else match S.step t c with
      | .error e => fail e
      | .ok t => scan n buf c t

variable {plain : α → Prop} {scan : ℕ → List α → α → σ → R} {fail : ε → R} {last : List α → α → σ → R}
  {stop : ℕ → List α → σ → R}

/-- The run: the characters in front of the end of an item. -/
theorem Scans.scan_chunk (h : S.Scans plain sep scan fail last stop) (hsep : sep ∉ chunk) (hplain : ∀ c ∈ chunk, plain c) :
    scan (chunk.length + n) (chunk ++ tail) old t =
      match S.scanChunk t (S.space old) chunk with
      | .error e => fail e
      | .ok t => scan n tail (chunk.getLast?.getD old) t := by
  induction chunk generalizing t old with
  | nil =>
      rw [List.length_nil, Nat.zero_add]
      rfl
  | cons c chunk ih =>
      rw [List.mem_cons, not_or] at hsep
      rw [List.forall_mem_cons] at hplain
      rw [List.length_cons, Nat.add_right_comm, List.cons_append, List.getLast?_cons, Option.getD_some, scanChunk]
      cases hc : S.space c with
      | true => rw [h.at_space _ _ _ _ _ hc, ih hsep.2 hplain.2, hc, if_pos rfl]
      | false =>
          rw [h.at_char _ _ _ _ _ hc (Ne.symm hsep.1) hplain.1, if_neg Bool.false_ne_true]
          by_cases hbad : S.begun t = true ∧ S.space old = true
          · rw [if_pos hbad, if_pos (Bool.and_eq_true_iff.mpr hbad)]
          · rw [if_neg hbad, if_neg fun hb => hbad (Bool.and_eq_true_iff.mp hb)]
            cases S.step t c with
            | error e => rfl
            | ok t₁ =>
                have hih := @ih t₁ c hsep.2 hplain.2
                rw [hc] at hih
                exact hih

/-- **An item** is read as the scanner reads it; the characters `behind` the text are not read. -/
theorem Scans.scan_item (h : S.Scans plain sep scan fail last stop) (hsep : sep ∉ chunk) (hplain : ∀ c ∈ chunk, plain c)
    (htail : AtEnd sep tail) (behind : List α) (old : α) (t : σ) : scan (chunk ++ tail).length (chunk ++ tail ++ behind) old t =
      match S.scanItem t old chunk tail with
      | .error e => fail e
      | .ok t =>
          if tail = [] then last behind (chunk.getLast?.getD old) t else stop tail.tail.length (tail.tail ++ behind) t := by
  rw [List.length_append, List.append_assoc, h.scan_chunk hsep hplain]
  unfold scanItem
  cases S.scanChunk t (S.space old) chunk with
  | error e => rfl
  | ok t₁ =>
      obtain rfl | ⟨rest, rfl⟩ := htail
      · exact h.at_zero _ _ _
      · simp only [List.length_cons, List.cons_append, h.at_sep, List.tail_cons, ne_eq, reduceCtorEq, not_false_eq_true,
          true_and, if_false]
        split <;> rfl

end Scanner

end Libls.Items
