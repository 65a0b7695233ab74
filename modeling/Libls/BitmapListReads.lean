import Libls.BitmapListRoundTrip
import Libls.Library.Items

/-! # Which texts `bitmap_parselist` takes, and what they denote

`Denotes` says what a list of numbers and ranges stands for.  `Passes` says what the parser takes: an item
may be empty, the second number of a range may be missing, and numbers count modulo `2 ^ 32`.
`parsed_exactly_iff` compares the two. -/

namespace Libls.Bitmaps
open Items Numerals Ranges Strings

/-! ### What a text denotes -/

/-- The value of decimal digits. -/
def decValue (ds : List Byte) : ℕ := value 10 0 (ds.map fun c => c.toNat - 48)

/-- A decimal number. -/
def IsNumber (ds : List Byte) : Prop := ds ≠ [] ∧ ∀ c ∈ ds, isdigit c = true

/-- A number or a range, with its first and last position. -/
inductive ItemRange : List Byte → ℕ × ℕ → Prop
  | number {ds : List Byte} : IsNumber ds → ItemRange ds (decValue ds, decValue ds)
  | range {ds es : List Byte} : IsNumber ds → IsNumber es → ItemRange (ds ++ dash :: es) (decValue ds, decValue es)

/-- Between white space the text is empty, or a list of numbers and ranges below `nmaskbits` that together
are the set `S`. -/
def Denotes (nmaskbits : ℕ) (text : List Byte) (S : Set ℕ) : Prop :=
  ∃ w core w', text = w ++ core ++ w' ∧ (∀ c ∈ w ++ w', isspace c = true) ∧
    ((core = [] ∧ S = ∅) ∨ ∃ rs, List.Forall₂ ItemRange (core.splitOn comma) rs ∧
      (∀ r ∈ rs, r.1 ≤ r.2 ∧ r.2 < nmaskbits) ∧ S = {i | Covers rs i})

/-! ### What the parser takes -/

/-- An item as it is read: digits, or digits on both sides of one dash, with a first one in front of it. -/
def readItem (item : List Byte) : Option (ℕ × ℕ) :=
  match item.splitOn dash with
  | [ds] => if ds.all isdigit then some (decValue ds, decValue ds) else none
  | [ds, es] => if ds ≠ [] ∧ ds.all isdigit ∧ es.all isdigit then some (decValue ds, decValue es) else none
  | _ => none

/-- An item whose numbers, modulo `2 ^ 32`, are a range below `nmaskbits`. -/
def passItem (nmaskbits : ℕ) (item : List Byte) : Option (ℕ × ℕ) :=
  match readItem item with
  | none => none
  | some q => if u32 q.1 ≤ u32 q.2 ∧ u32 q.2 < nmaskbits then some (u32 q.1, u32 q.2) else none

/-- The parser takes the text, and sets the ranges `rs`; a comma at the end is ignored, and `begun` says
whether a digit has been read before. -/
def Passes (nmaskbits : ℕ) (begun : Bool) (text : List Byte) (rs : List (ℕ × ℕ)) : Prop :=
  spaced isspace isdigit begun false text = true ∧
    List.Forall₂ (fun item r => passItem nmaskbits item = some r) (itemsOf isspace comma (unended comma text)) rs

/-- An item is missing, or the end of a range, or a number is `2 ^ 32` or more. -/
def Faulty (text : List Byte) : Prop :=
  ∃ item ∈ itemsOf isspace comma text, item = [] ∨ item.getLast? = some dash ∨
    ∃ q, readItem item = some q ∧ (2 ^ 32 ≤ q.1 ∨ 2 ^ 32 ≤ q.2)

/-! ### Reading an item -/

/-- The variables that belong to an item. -/
structure ItemScan where
  a : ℕ
  b : ℕ
  expDigit : Bool
  inRange : Bool
  totaldigits : ℕ

def ItemScan.at (t : ItemScan) (buf : List Byte) (buflen : ℕ) (c : Byte) : ListScan :=
  ⟨buf, buflen, c, t.a, t.b, t.expDigit, t.inRange, t.totaldigits⟩

/-- What a character does to them, if it is neither white space nor the end of the item. -/
def ItemScan.step (t : ItemScan) (c : Byte) : Option ItemScan :=
  if c = dash then
    if t.expDigit ∨ t.inRange then none else some { t with b := 0, inRange := true, expDigit := true }
  else if isdigit c = false then none
  else
    let b := u32 (t.b * 10 + (c.toNat - 48))
    some ⟨if t.inRange then t.a else b, b, false, t.inRange, t.totaldigits + 1⟩

def ItemScan.steps (t : ItemScan) (item : List Byte) : Option ItemScan := item.foldlM ItemScan.step t

variable {N n m : ℕ} {text chunk item tail ds es : List Byte} {c old : Byte} {t t' : ItemScan}

@[simp] theorem steps_nil : t.steps [] = some t := rfl

theorem steps_cons : t.steps (c :: item) = (t.step c).bind fun t => t.steps item := rfl

theorem steps_append : t.steps (ds ++ es) = (t.steps ds).bind fun t => t.steps es := by
  unfold ItemScan.steps
  rw [List.foldlM_append]
  rfl

theorem digit_not_space : isspace c = true → isdigit c = false := by
  apply forall_byte (P := fun c => isspace c = true → isdigit c = false)
  decide +kernel

theorem step_dash (he : t.expDigit = false) (hi : t.inRange = false) :
    t.step dash = some { t with b := 0, inRange := true, expDigit := true } := by
  unfold ItemScan.step
  rw [if_pos rfl, if_neg (by simp [he, hi])]

theorem step_dash_none (h : t.expDigit = true ∨ t.inRange = true) : t.step dash = none := by
  unfold ItemScan.step
  rw [if_pos rfl, if_pos h]

theorem step_digit (h : isdigit c = true) : t.step c =
    some ⟨if t.inRange then t.a else u32 (t.b * 10 + (c.toNat - 48)), u32 (t.b * 10 + (c.toNat - 48)), false,
      t.inRange, t.totaldigits + 1⟩ := by
  have hne : c ≠ dash := by
    rintro rfl
    exact absurd h (by decide)
  unfold ItemScan.step
  rw [if_neg hne, if_neg (by simp [h])]

theorem step_other (hd : c ≠ dash) (h : isdigit c = false) : t.step c = none := by
  unfold ItemScan.step
  rw [if_neg hd, if_pos h]

/-- A step counts digits, and keeps a range one. -/
theorem step_some (h : t.step c = some t') :
    t'.totaldigits = t.totaldigits + (if isdigit c then 1 else 0) ∧ (t.inRange = true → t'.inRange = true) := by
  by_cases hd : c = dash
  · subst hd
    unfold ItemScan.step at h
    rw [if_pos rfl] at h
    split_ifs at h
    cases h
    exact ⟨rfl, fun _ => rfl⟩
  · cases hdigit : isdigit c with
    | false => cases h.symm.trans (step_other hd hdigit)
    | true =>
        cases h.symm.trans (step_digit hdigit)
        exact ⟨rfl, id⟩

theorem u32_value (v : ℕ) (ds : List ℕ) : u32 (value 10 (u32 v) ds) = u32 (value 10 v ds) := by
  induction ds generalizing v with
  | nil => exact Nat.mod_mod _ _
  | cons d ds ih =>
      rw [value_cons, value_cons, ← ih (u32 v * 10 + d), ← ih (v * 10 + d)]
      congr 2
      unfold u32
      omega

/-- The run: digits. -/
theorem steps_digits (h : ∀ c ∈ ds, isdigit c = true) (hb : t.b < 2 ^ 32) (hab : t.inRange = false → t.a = t.b) :
    t.steps ds = some ⟨if t.inRange then t.a else u32 (value 10 t.b (ds.map fun c => c.toNat - 48)),
      u32 (value 10 t.b (ds.map fun c => c.toNat - 48)), t.expDigit && ds.isEmpty, t.inRange,
      t.totaldigits + ds.length⟩ := by
  induction ds generalizing t with
  | nil =>
      obtain ⟨a, b, e, i, n⟩ := t
      simp only [List.map_nil, value, List.foldl_nil, List.isEmpty_nil, Bool.and_true, List.length_nil,
        Nat.add_zero, steps_nil, u32_of_lt hb]
      cases i with
      | true => rfl
      | false => simpa using hab rfl
  | cons c ds ih =>
      have hlt : u32 (t.b * 10 + (c.toNat - 48)) < 2 ^ 32 := Nat.mod_lt _ (by decide)
      rw [steps_cons, step_digit (h c (by simp)), Option.bind_some, ih (fun d hd => h d (by simp [hd])) hlt]
      · simp only [List.map_cons, value_cons, u32_value, Bool.false_and, List.isEmpty_cons, Bool.and_false,
          List.length_cons]
        rw [Nat.add_right_comm t.totaldigits 1]
        cases t.inRange <;> rfl
      · intro (hi : t.inRange = false)
        show (if t.inRange then t.a else _) = _
        rw [hi]
        exact if_neg Bool.false_ne_true

theorem steps_other (hds : dash ∉ ds) (hc : c ∈ ds) (h : isdigit c = false) : t.steps ds = none := by
  induction ds generalizing t with
  | nil => cases hc
  | cons d ds ih =>
      rw [List.mem_cons, not_or] at hds
      rw [steps_cons]
      cases hd : t.step d with
      | none => rfl
      | some t' =>
          apply ih hds.2
          obtain rfl | hc := List.mem_cons.mp hc
          · cases hd.symm.trans (step_other (Ne.symm hds.1) h)
          · exact hc

/-- A range has one dash. -/
theorem steps_dashes (hds : dash ∈ ds) (hi : t.inRange = true) : t.steps ds = none := by
  induction ds generalizing t with
  | nil => cases hds
  | cons d ds ih =>
      rw [steps_cons]
      cases hd : t.step d with
      | none => rfl
      | some t' =>
          apply ih _ ((step_some hd).2 hi)
          obtain rfl | hds := List.mem_cons.mp hds
          · cases hd.symm.trans (step_dash_none (.inr hi))
          · exact hds

/-- A number, or what is left of one. -/
theorem steps_plain (hds : dash ∉ ds) (hb : t.b < 2 ^ 32) (hab : t.inRange = false → t.a = t.b) :
    t.steps ds = if ds.all isdigit then
      some ⟨if t.inRange then t.a else u32 (value 10 t.b (ds.map fun c => c.toNat - 48)),
        u32 (value 10 t.b (ds.map fun c => c.toNat - 48)), t.expDigit && ds.isEmpty, t.inRange,
        t.totaldigits + ds.length⟩ else none := by
  by_cases h : ∀ c ∈ ds, isdigit c = true
  · rw [if_pos (List.all_eq_true.mpr h)]
    exact steps_digits h hb hab
  · rw [if_neg (fun hall => h (List.all_eq_true.mp hall))]
    push Not at h
    obtain ⟨c, hc, hd⟩ := h
    exact steps_other hds hc (by simpa using hd)

/-- The variables when an item begins. -/
def itemStart (totaldigits : ℕ) : ItemScan := ⟨0, 0, true, false, totaldigits⟩

theorem readItem_plain (h : dash ∉ item) :
    readItem item = if item.all isdigit then some (decValue item, decValue item) else none := by
  unfold readItem
  rw [List.splitOn_eq_singleton h]

theorem readItem_range (hds : dash ∉ ds) (hes : dash ∉ es) : readItem (ds ++ dash :: es) =
    if ds ≠ [] ∧ ds.all isdigit ∧ es.all isdigit then some (decValue ds, decValue es) else none := by
  unfold readItem
  rw [List.splitOn_append_cons_self_of_not_mem hds, List.splitOn_eq_singleton hes]

theorem readItem_dashes (hds : dash ∉ ds) (hes : dash ∈ es) : readItem (ds ++ dash :: es) = none := by
  obtain ⟨fs, gs, rfl, hfs⟩ := List.eq_append_cons_of_mem hes
  obtain ⟨g, gs', hgs⟩ := List.exists_cons_of_ne_nil (List.splitOn_ne_nil dash gs)
  unfold readItem
  rw [List.splitOn_append_cons_self_of_not_mem hds, List.splitOn_append_cons_self_of_not_mem hfs, hgs]

/-- The parts of an item. -/
theorem item_cases (item : List Byte) : dash ∉ item ∨ ∃ ds es, item = ds ++ dash :: es ∧ dash ∉ ds := by
  by_cases h : dash ∈ item
  · exact .inr (List.eq_append_cons_of_mem h)
  · exact .inl h

/-- The scanner reads the numbers of an item modulo `2 ^ 32`. -/
theorem steps_item (totaldigits : ℕ) (item : List Byte) :
    ((itemStart totaldigits).steps item).map (fun t => (t.a, t.b)) =
      (readItem item).map fun q => (u32 q.1, u32 q.2) := by
  obtain h | ⟨ds, es, rfl, hds⟩ := item_cases item
  · rw [steps_plain h (Nat.two_pow_pos 32) fun _ => rfl, readItem_plain h]
    split <;> rfl
  · rw [steps_append, steps_plain hds (Nat.two_pow_pos 32) fun _ => rfl]
    by_cases hdigits : ds.all isdigit = true
    · rw [if_pos hdigits, Option.bind_some, steps_cons]
      cases ds with
      | nil =>
          -- no digit in front of the dash
          rw [step_dash_none (.inl rfl)]
          by_cases hes : dash ∈ es
          · rw [readItem_dashes hds hes]
            rfl
          · rw [readItem_range hds hes, if_neg (by simp)]
            rfl
      | cons d ds =>
          rw [step_dash (by simp) rfl, Option.bind_some]
          by_cases hes : dash ∈ es
          · rw [steps_dashes hes rfl, readItem_dashes hds hes]
            rfl
          · rw [steps_plain hes (Nat.two_pow_pos 32) (by simp), readItem_range hds hes]
            simp only [hdigits, ne_eq, reduceCtorEq, not_false_eq_true, true_and]
            split <;> rfl
    · have hnone : readItem (ds ++ dash :: es) = none := by
        by_cases hes : dash ∈ es
        · exact readItem_dashes hds hes
        · rw [readItem_range hds hes, if_neg fun h => hdigits h.2.1]
      rw [if_neg hdigits, hnone]
      rfl

/-! ### Scanning an item in its text -/

/-- The scanner of `__bitmap_parselist`. -/
def listScanner : Scanner Byte ItemScan ℤ where
  space := isspace
  digit := isdigit
  begun t := decide (t.totaldigits ≠ 0)
  step t c := (t.step c).elim (.error einval) .ok
  bad := einval
  space_digit _ := digit_not_space
  begun_step := by
    intro t c t' h
    cases hstep : t.step c with
    | none =>
        rw [hstep] at h
        cases h
    | some t₁ =>
        rw [hstep] at h
        cases h
        rw [(step_some hstep).1]
        cases isdigit c <;> simp

theorem listScanner_steps : listScanner.steps t item = (t.steps item).elim (.error einval) .ok := by
  induction item generalizing t with
  | nil => rfl
  | cons c item ih =>
      have hstep : listScanner.step t c = (t.step c).elim (.error einval) .ok := rfl
      rw [Scanner.steps, hstep, steps_cons]
      cases t.step c with
      | none => rfl
      | some t' => exact ih

/-- `listScan` works like this scanner. -/
theorem listScan_scans : listScanner.Scans (· ≠ 0) comma (fun n buf old t => listScan n (t.at buf n old))
    (fun e => some (.error e)) (fun buf old t => some (.ok (t.at buf 0 old)))
    fun n buf t => some (.ok (t.at buf n comma)) where
  at_zero _ _ _ := rfl
  at_space n c buf old t hc := by
    rw [listScan]
    exact if_pos hc
  at_sep n buf old t := by
    have hspace : isspace comma = false := by decide
    have h0 : comma ≠ 0 := by decide
    rw [listScan]
    simp [ItemScan.at, listScanner, hspace, h0]
  at_char n c buf old t hc hcomma h0 := by
    have hspace : isspace c = false := hc
    rw [listScan]
    simp only [ItemScan.at, hspace, Bool.false_eq_true, if_false, h0, hcomma, or_self, ne_eq, not_false_eq_true,
      true_and, listScanner, decide_eq_true_eq]
    split
    · rfl
    · unfold ItemScan.step
      by_cases hd : c = dash
      · by_cases hrange : t.expDigit = true ∨ t.inRange = true
        · simp only [if_pos hd, if_pos hrange]
          exact if_pos hrange
        · simp only [if_pos hd, if_neg hrange]
          exact if_neg hrange
      · cases hdigit : isdigit c with
        | false => simp only [if_neg hd, if_true, Option.elim]
        | true =>
            simp only [if_neg hd, Bool.true_eq_false, if_false]
            rfl

/-! ### One item -/

variable {behind : List Byte} {q r : ℕ × ℕ} {td : ℕ}

/-- What the scanner reads from an item. -/
theorem scanItem_iff (hold : isspace old = false) (htail : AtEnd comma tail) :
    listScanner.scanItem (itemStart td) old chunk tail = .ok t' ↔
      spaced isspace isdigit (decide (td ≠ 0)) false (chunk ++ tail.take 1) = true ∧
        (itemStart td).steps (solid isspace chunk) = some t' := by
  have hsep : listScanner.space comma = false := by decide
  rw [Scanner.scanItem_ok hold hsep htail, listScanner_steps]
  refine and_congr Iff.rfl ?_
  show ((itemStart td).steps (solid isspace chunk)).elim (.error einval) Except.ok = .ok t' ↔ _
  cases (itemStart td).steps (solid isspace chunk) <;> simp

theorem passItem_iff : passItem N item = some r ↔
    ∃ q, readItem item = some q ∧ r = (u32 q.1, u32 q.2) ∧ r.1 ≤ r.2 ∧ r.2 < N := by
  unfold passItem
  cases readItem item with
  | none => simp
  | some q =>
      simp only [Option.ite_none_right_eq_some, Option.some.injEq]
      constructor
      · rintro ⟨hr, rfl⟩
        exact ⟨q, rfl, rfl, hr⟩
      · rintro ⟨q', rfl, rfl, hr⟩
        exact ⟨hr, rfl⟩

/-- The loop in front of `text`; the bytes `behind` it are not read. -/
structure AtText (behind : List Byte) (d : Bitmap N) (td : ℕ) (text : List Byte) (p : ListParse) : Prop where
  buf : p.buf = text ++ behind
  buflen : p.buflen = text.length
  space : isspace p.c = false
  total : p.totaldigits = td
  maskp : p.maskp = d.block

variable {d : Bitmap N} {p : ListParse}

/-- The next item is scanned. -/
theorem AtText.scan (h : AtText behind d td (chunk ++ tail) p) (hcomma : comma ∉ chunk) (h0 : (0 : Byte) ∉ chunk)
    (htail : AtEnd comma tail) : listScan p.buflen ⟨p.buf, p.buflen, p.c, 0, 0, true, false, p.totaldigits⟩ =
      match listScanner.scanItem (itemStart td) p.c chunk tail with
      | .error e => some (.error e)
      | .ok t => some (.ok (t.at (tail.tail ++ behind) tail.tail.length
          (tail.head?.getD (chunk.getLast?.getD p.c)))) := by
  have hplain : ∀ c ∈ chunk, c ≠ 0 := fun c hc e => h0 (e ▸ hc)
  rw [h.buf, h.buflen, h.total]
  refine (listScan_scans.scan_item hcomma hplain htail behind p.c (itemStart td)).trans ?_
  cases listScanner.scanItem (itemStart td) p.c chunk tail with
  | error e => rfl
  | ok t => obtain rfl | ⟨rest, rfl⟩ := htail <;> rfl

/-- An item that does not pass ends the loop with an error. -/
theorem parsePass_error (h : AtText behind d td (chunk ++ tail) p) (hcomma : comma ∉ chunk) (h0 : (0 : Byte) ∉ chunk)
    (htail : AtEnd comma tail) (herr : ¬ (spaced isspace isdigit (decide (td ≠ 0)) false (chunk ++ tail.take 1) = true ∧
      passItem N (solid isspace chunk) ≠ none)) : ∃ e, e ≠ 0 ∧ parsePass N p = some (.done (d.block, e)) := by
  have hscan := h.scan hcomma h0 htail
  have hitem := steps_item td (solid isspace chunk)
  cases hread : listScanner.scanItem (itemStart td) p.c chunk tail with
  | error e =>
      rw [hread] at hscan
      refine ⟨e, ?_, ?_⟩
      · apply Scanner.scanItem_error (P := (· ≠ 0)) (by decide) _ hread
        intro t c e hstep
        change (t.step c).elim (Except.error einval) Except.ok = Except.error e at hstep
        cases hs : t.step c with
        | none =>
            rw [hs] at hstep
            cases hstep
            decide
        | some t' =>
            rw [hs] at hstep
            cases hstep
      · unfold parsePass
        rw [hscan, ← h.maskp]
        rfl
  | ok t =>
      rw [hread] at hscan
      obtain ⟨hspaced, hsteps⟩ := (scanItem_iff h.space htail).mp hread
      rw [hsteps] at hitem
      obtain ⟨q, hq, hab⟩ := Option.map_eq_some_iff.mp hitem.symm
      obtain ⟨ha, hb⟩ : u32 q.1 = t.a ∧ u32 q.2 = t.b := Prod.ext_iff.mp hab
      have hrange : ¬ (t.a ≤ t.b ∧ t.b < N) := by
        intro hr
        rw [← ha, ← hb] at hr
        apply herr ⟨hspaced, _⟩
        rw [passItem, hq]
        simp [hr]
      unfold parsePass
      rw [hscan, ← h.maskp]
      simp only [Option.bind_eq_bind, Option.bind_some]
      by_cases hlt : t.b < t.a
      · exact ⟨einval, by decide, if_pos hlt⟩
      · refine ⟨erange, by decide, ?_⟩
        rw [ItemScan.at, if_neg hlt, if_pos (by show N ≤ t.b; omega)]
        rfl

/-- The step: an item that passes. -/
theorem parsePass_item (h : AtText behind d td (chunk ++ tail) p) (hcomma : comma ∉ chunk) (h0 : (0 : Byte) ∉ chunk)
    (htail : AtEnd comma tail) (hspaced : spaced isspace isdigit (decide (td ≠ 0)) false (chunk ++ tail.take 1) = true)
    (hpass : passItem N (solid isspace chunk) = some r) :
    ∃ (d' : Bitmap N) (td' : ℕ), (∀ i, d'.bit i = true ↔ d.bit i = true ∨ (r.1 ≤ i ∧ i ≤ r.2)) ∧
      decide (td' ≠ 0) = (decide (td ≠ 0) || chunk.any isdigit) ∧
      ((tail.tail = [] ∧ parsePass N p = some (.done (d'.block, 0))) ∨
        ∃ p', tail.tail ≠ [] ∧ parsePass N p = some (.next p') ∧ AtText behind d' td' tail.tail p') := by
  have hscan := h.scan hcomma h0 htail
  obtain ⟨q, hq, rfl, hle, hlt⟩ := passItem_iff.mp hpass
  have hitem := steps_item td (solid isspace chunk)
  rw [hq] at hitem
  obtain ⟨t, hsteps, hab⟩ := Option.map_eq_some_iff.mp hitem
  obtain ⟨ha, hb⟩ : t.a = u32 q.1 ∧ t.b = u32 q.2 := Prod.ext_iff.mp hab
  have hread := (scanItem_iff h.space htail).mpr ⟨hspaced, hsteps⟩
  have htotal := Scanner.begun_steps (((Scanner.scanItem_ok h.space (by decide) htail).mp hread).2)
  rw [any_solid listScanner.space_digit] at htotal
  rw [hread] at hscan
  rw [← ha, ← hb] at hle
  rw [← hb] at hlt
  obtain ⟨d', hset, hd'⟩ := setBits_spec d (by omega : t.a + (t.b + 1 - t.a) ≤ N)
  have hparse : parsePass N p =
      if tail.tail.length ≠ 0 ∧ tail.head?.getD (chunk.getLast?.getD p.c) = comma then
        some (.next ⟨tail.tail ++ behind, tail.tail.length, tail.head?.getD (chunk.getLast?.getD p.c), t.totaldigits,
          d'.block⟩) else some (.done (d'.block, 0)) := by
    unfold parsePass
    rw [hscan]
    simp only [Option.bind_eq_bind, Option.bind_some, ItemScan.at]
    rw [if_neg (by omega), if_neg (by omega), h.maskp, hset]
    rfl
  refine ⟨d', t.totaldigits, fun j => ?_, htotal, ?_⟩
  · rw [hd', ha, hb] at *
    refine or_congr_right ?_
    omega
  · rw [hparse]
    cases hrest : tail.tail with
    | nil => exact .inl ⟨rfl, if_neg fun h => h.1 rfl⟩
    | cons c' rest =>
        have hhead : tail.head?.getD (chunk.getLast?.getD p.c) = comma := by
          obtain rfl | ⟨rest, rfl⟩ := htail
          · cases hrest
          · rfl
        rw [hhead]
        have hspace : isspace comma = false := by decide
        exact .inr ⟨_, List.cons_ne_nil _ _, if_pos ⟨Nat.succ_ne_zero _, rfl⟩, rfl, rfl, hspace, rfl, rfl⟩

/-! ### All items -/

/-- The first item, and the rest of the text. -/
theorem passes_iff {begun : Bool} {rs : List (ℕ × ℕ)} (hcomma : comma ∉ chunk) (htail : AtEnd comma tail) :
    Passes N begun (chunk ++ tail) rs ↔ spaced isspace isdigit begun false (chunk ++ tail.take 1) = true ∧
      ∃ r rs', passItem N (solid isspace chunk) = some r ∧ rs = r :: rs' ∧
        ((tail.tail = [] ∧ rs' = []) ∨ (tail.tail ≠ [] ∧ Passes N (begun || chunk.any isdigit) tail.tail rs')) := by
  have hspace : isspace comma = false := by decide
  have hdigit : isdigit comma = false := by decide
  unfold Passes
  rw [@spaced_tail _ isspace isdigit comma chunk tail begun (fun _ => digit_not_space) hspace hdigit htail,
    itemsOf_unended hcomma htail, Bool.and_eq_true, List.forall₂_cons_left_iff]
  by_cases hrest : tail.tail = []
  · rw [if_pos hrest, hrest]
    simp [spaced]
  · rw [if_neg hrest]
    constructor
    · rintro ⟨⟨hs, hs'⟩, r, rs', hr, hrs, rfl⟩
      exact ⟨hs, r, rs', hr, rfl, .inr ⟨hrest, hs', hrs⟩⟩
    · rintro ⟨hs, r, rs', hr, rfl, ⟨hnil, -⟩ | ⟨-, hs', hrs⟩⟩
      · exact absurd hnil hrest
      · exact ⟨⟨hs, hs'⟩, r, rs', hr, hrs, rfl⟩

/-- **The run**: the text is taken with its ranges, or there is an error. -/
theorem returns_text (h : AtText behind d td text p) (h0 : (0 : Byte) ∉ text) : ∃ (d' : Bitmap N) (ret : ℤ),
    Prog.Returns (Prog.iterate (fun p => (parsePass N p : Option _)) p) (d'.block, ret) ∧
      ((ret = 0 ∧ ∃ rs, rs ≠ [] ∧ Passes N (decide (td ≠ 0)) text rs ∧
          ∀ i, d'.bit i = true ↔ d.bit i = true ∨ Covers rs i) ∨
        (ret ≠ 0 ∧ ∀ rs, ¬ Passes N (decide (td ≠ 0)) text rs)) := by
  induction hn : text.length using Nat.strong_induction_on generalizing text d td p with
  | _ n ih =>
      subst hn
      obtain ⟨chunk, tail, rfl, hcomma, htail⟩ := text_cases comma text
      rw [List.mem_append, not_or] at h0
      by_cases hgood : spaced isspace isdigit (decide (td ≠ 0)) false (chunk ++ tail.take 1) = true ∧
          passItem N (solid isspace chunk) ≠ none
      · obtain ⟨hspaced, hne⟩ := hgood
        obtain ⟨r, hr⟩ := Option.ne_none_iff_exists'.mp hne
        obtain ⟨d₁, td₁, hd₁, hdigit, hstep⟩ := parsePass_item h hcomma h0.1 htail hspaced hr
        obtain ⟨hnil, hpass⟩ | ⟨p', hrest, hpass, h'⟩ := hstep
        · refine ⟨d₁, 0, Prog.Returns.iterate_done (Prog.returns_lift.mpr hpass), .inl ⟨rfl, [r], by simp, ?_, ?_⟩⟩
          · exact (passes_iff hcomma htail).mpr ⟨hspaced, r, [], hr, rfl, .inl ⟨hnil, rfl⟩⟩
          · intro i
            rw [hd₁, covers_cons, or_iff_left not_covers_nil]
        · obtain ⟨d₂, ret, hret, hout⟩ := ih _ (htail.tail_lt hrest) h' (fun hm => h0.2 (List.mem_of_mem_tail hm)) rfl
          refine ⟨d₂, ret, Prog.Returns.iterate_next (Prog.returns_lift.mpr hpass) hret, ?_⟩
          rw [hdigit] at hout
          obtain ⟨hzero, rs, -, hrs, hd₂⟩ | ⟨hne', hno⟩ := hout
          · refine .inl ⟨hzero, r :: rs, List.cons_ne_nil r rs, ?_, fun i => ?_⟩
            · exact (passes_iff hcomma htail).mpr ⟨hspaced, r, rs, hr, rfl, .inr ⟨hrest, hrs⟩⟩
            · rw [hd₂, hd₁, covers_cons, or_assoc]
          · refine .inr ⟨hne', fun rs hrs => ?_⟩
            obtain ⟨-, r', rs', -, -, ⟨hnil, -⟩ | ⟨-, hrs'⟩⟩ := (passes_iff hcomma htail).mp hrs
            · exact hrest hnil
            · exact hno rs' hrs'
      · obtain ⟨e, he, hpass⟩ := parsePass_error h hcomma h0.1 htail hgood
        refine ⟨d, e, Prog.Returns.iterate_done (Prog.returns_lift.mpr hpass), .inr ⟨he, fun rs hrs => ?_⟩⟩
        obtain ⟨hspaced, r, rs', hr, -, -⟩ := (passes_iff hcomma htail).mp hrs
        exact hgood ⟨hspaced, by rw [hr]; exact Option.some_ne_none r⟩

/-! ### What is taken, and what is denoted -/

theorem IsNumber.notMem (h : IsNumber ds) : dash ∉ ds := by
  intro hd
  exact absurd (h.2 dash hd) (by decide)

theorem IsNumber.last (h : IsNumber ds) : ds.getLast? ≠ some dash := fun hl => h.notMem (List.mem_of_getLast? hl)

/-- An item denotes what is read from it, if it is not empty and does not end with the dash. -/
theorem itemRange_iff : ItemRange item q ↔ readItem item = some q ∧ item ≠ [] ∧ item.getLast? ≠ some dash := by
  constructor
  · intro h
    cases h with
    | number hds =>
        refine ⟨?_, hds.1, hds.last⟩
        rw [readItem_plain hds.notMem, if_pos (List.all_eq_true.mpr hds.2)]
    | @range ds es hds hes =>
        refine ⟨?_, List.append_ne_nil_of_right_ne_nil _ (List.cons_ne_nil _ _), ?_⟩
        · rw [readItem_range hds.notMem hes.notMem,
            if_pos ⟨hds.1, List.all_eq_true.mpr hds.2, List.all_eq_true.mpr hes.2⟩]
        · rw [List.getLast?_append_of_ne_nil _ (List.cons_ne_nil _ _), List.getLast?_cons_of_ne_nil hes.1]
          exact hes.last
  · rintro ⟨hread, hne, hlast⟩
    obtain h | ⟨ds, es, rfl, hds⟩ := item_cases item
    · rw [readItem_plain h, Option.ite_none_right_eq_some] at hread
      obtain ⟨hall, hq⟩ := hread
      cases hq
      exact .number ⟨hne, List.all_eq_true.mp hall⟩
    · by_cases hes : dash ∈ es
      · cases (readItem_dashes hds hes).symm.trans hread
      · rw [readItem_range hds hes, Option.ite_none_right_eq_some] at hread
        obtain ⟨⟨hne', hall, hall'⟩, hq⟩ := hread
        cases hq
        have hes' : es ≠ [] := by
          rintro rfl
          exact hlast (by rw [List.getLast?_concat])
        exact .range ⟨hne', List.all_eq_true.mp hall⟩ ⟨hes', List.all_eq_true.mp hall'⟩

theorem ItemRange.head (h : ItemRange item q) : item ≠ [] ∧ ∀ c, item.head? = some c → isdigit c = true := by
  refine ⟨(itemRange_iff.mp h).2.1, fun c hc => ?_⟩
  cases h with
  | number hds => exact hds.2 c (List.mem_of_head? hc)
  | range hds hes =>
      rw [List.head?_append_of_ne_nil _ hds.1] at hc
      exact hds.2 c (List.mem_of_head? hc)

theorem IsNumber.solid (h : IsNumber ds) : ∀ c ∈ ds, isspace c = false := by
  intro c hc
  cases hs : isspace c with
  | false => rfl
  | true => cases (h.2 c hc).symm.trans (digit_not_space hs)

theorem ItemRange.solid (h : ItemRange item q) : ∀ c ∈ item, isspace c = false := by
  cases h with
  | number hds => exact hds.solid
  | range hds hes =>
      rw [List.forall_mem_append, List.forall_mem_cons]
      exact ⟨hds.solid, by decide, hes.solid⟩

/-- Each item of a list has its partner. -/
theorem forall₂_mem {α β : Type} {R : α → β → Prop} {as : List α} {bs : List β} (h : List.Forall₂ R as bs) :
    (∀ a ∈ as, ∃ b ∈ bs, R a b) ∧ ∀ b ∈ bs, ∃ a ∈ as, R a b := by
  induction h with
  | nil => exact ⟨by simp, by simp⟩
  | @cons a b as bs hab _ ih =>
      obtain ⟨hleft, hright⟩ := ih
      constructor
      · rw [List.forall_mem_cons]
        refine ⟨⟨b, by simp, hab⟩, fun x hx => ?_⟩
        obtain ⟨y, hy, hxy⟩ := hleft x hx
        exact ⟨y, List.mem_cons_of_mem _ hy, hxy⟩
      · rw [List.forall_mem_cons]
        refine ⟨⟨a, by simp, hab⟩, fun y hy => ?_⟩
        obtain ⟨x, hx, hxy⟩ := hright y hy
        exact ⟨x, List.mem_cons_of_mem _ hx, hxy⟩

/-- Without an empty item there is no comma at the end. -/
theorem unended_of_not_faulty (h : ¬ Faulty text) : unended comma text = text :=
  if_neg fun hl => h ⟨[], nil_mem_itemsOf hl, .inl rfl⟩

/-- A text that passes and is not faulty denotes what the parser sets. -/
theorem Passes.denotes {rs : List (ℕ × ℕ)} (h : Passes N false text rs) (hf : ¬ Faulty text) :
    Denotes N text {i | Covers rs i} := by
  obtain ⟨hspaced, hall⟩ := h
  rw [unended_of_not_faulty hf] at hall
  have hitem : ∀ item ∈ itemsOf isspace comma text, ∀ r, passItem N item = some r → ItemRange item r ∧ r.1 ≤ r.2 ∧ r.2 < N := by
    intro item hitem r hr
    obtain ⟨q, hq, rfl, hle, hlt⟩ := passItem_iff.mp hr
    have hgood : item ≠ [] ∧ item.getLast? ≠ some dash ∧ q.1 < 2 ^ 32 ∧ q.2 < 2 ^ 32 := by
      refine ⟨fun e => hf ⟨item, hitem, .inl e⟩, fun e => hf ⟨item, hitem, .inr (.inl e)⟩, ?_, ?_⟩
      · exact Nat.lt_of_not_le fun e => hf ⟨item, hitem, .inr (.inr ⟨q, hq, .inl e⟩)⟩
      · exact Nat.lt_of_not_le fun e => hf ⟨item, hitem, .inr (.inr ⟨q, hq, .inr e⟩)⟩
    obtain ⟨hne, hlast, h1, h2⟩ := hgood
    rw [u32_of_lt h1, u32_of_lt h2] at hle hlt ⊢
    exact ⟨itemRange_iff.mpr ⟨hq, hne, hlast⟩, hle, hlt⟩
  have hranges : List.Forall₂ (fun item r => ItemRange item r ∧ r.1 ≤ r.2 ∧ r.2 < N) (itemsOf isspace comma text) rs :=
    ((List.forall₂_and_left (itemsOf isspace comma text) rs).mpr ⟨hitem, hall⟩).imp fun item r hr => hr.1 r hr.2
  have hhead : ∀ c, (solid isspace text).head? = some c → isdigit c = true := by
    intro c hc
    obtain ⟨item, items, hitems⟩ := List.exists_cons_of_ne_nil (List.splitOn_ne_nil comma (solid isspace text))
    rw [splitOn_solid (by decide)] at hitems
    obtain ⟨r, -, hr, -⟩ := (forall₂_mem hranges).1 item (by rw [hitems]; simp)
    obtain ⟨hne, hdigit⟩ := hr.head
    refine hdigit c ?_
    have hjoin : [comma].intercalate ((solid isspace text).splitOn comma) = solid isspace text :=
      List.intercalate_splitOn comma
    rw [splitOn_solid (by decide), hitems] at hjoin
    rw [← hjoin] at hc
    cases items with
    | nil => rwa [List.intercalate_singleton] at hc
    | cons item' items =>
        rw [List.intercalate_cons_cons, List.append_assoc, List.head?_append_of_ne_nil _ hne] at hc
        exact hc
  obtain ⟨w, w', htext, hwhite⟩ := trim hspaced hhead
  refine ⟨w, solid isspace text, w', htext, hwhite, .inr ⟨rs, ?_, fun r hr => ?_, rfl⟩⟩
  · rw [splitOn_solid (by decide)]
    exact hranges.imp fun item r hr => hr.1
  · obtain ⟨item, -, hr⟩ := (forall₂_mem hranges).2 r hr
    exact hr.2

/-- A list of numbers and ranges has no other characters, and its items are those of the text. -/
theorem list_items {w core w' : List Byte} {rs : List (ℕ × ℕ)} (hwhite : ∀ c ∈ w ++ w', isspace c = true)
    (hall : List.Forall₂ ItemRange (core.splitOn comma) rs) :
    (∀ c ∈ core, isspace c = false) ∧ itemsOf isspace comma (w ++ core ++ w') = core.splitOn comma := by
  rw [List.forall_mem_append] at hwhite
  have hid : ∀ item ∈ core.splitOn comma, solid isspace item = item := by
    intro item hitem
    obtain ⟨r, -, hr⟩ := (forall₂_mem hall).1 item hitem
    exact solid_eq hr.solid
  have hitems : (solid isspace core).splitOn comma = core.splitOn comma := by
    rw [splitOn_solid (by decide), itemsOf, List.map_congr_left hid, List.map_id']
  constructor
  · intro c hc
    have hcore : [comma].intercalate ((solid isspace core).splitOn comma) = solid isspace core :=
      List.intercalate_splitOn comma
    rw [hitems, List.intercalate_splitOn] at hcore
    rw [hcore] at hc
    simpa using (List.mem_filter.mp hc).2
  · rw [← splitOn_solid (by decide), solid_append, solid_append, solid_white hwhite.1, solid_white hwhite.2, List.nil_append,
      List.append_nil, hitems]

/-- A list that denotes something is not faulty, and passes with its ranges. -/
theorem Denotes.passes (hN : N < 2 ^ 31) {S : Set ℕ} (h : Denotes N text S) (hS : S.Nonempty) :
    ¬ Faulty text ∧ ∃ rs, Passes N false text rs ∧ S = {i | Covers rs i} := by
  obtain ⟨w, core, w', rfl, hwhite, ⟨-, rfl⟩ | ⟨rs, hall, hrs, rfl⟩⟩ := h
  · exact absurd hS Set.not_nonempty_empty
  · obtain ⟨hsolid, hitems⟩ := list_items hwhite hall
    have hf : ¬ Faulty (w ++ core ++ w') := by
      rintro ⟨item, hitem, hfault⟩
      rw [hitems] at hitem
      obtain ⟨r, hr, hrange⟩ := (forall₂_mem hall).1 item hitem
      obtain ⟨hread, hne, hlast⟩ := itemRange_iff.mp hrange
      obtain ⟨hle, hlt⟩ := hrs r hr
      obtain h | h | ⟨q, hq, hbig⟩ := hfault
      · exact hne h
      · exact hlast h
      · cases hread.symm.trans hq
        omega
    refine ⟨hf, rs, ⟨spaced_trimmed hwhite hsolid, ?_⟩, rfl⟩
    rw [unended_of_not_faulty hf, hitems]
    refine List.forall₂_iff_zip.mpr ⟨hall.length_eq, fun {item r} hzip => ?_⟩
    obtain ⟨hread, -, -⟩ := itemRange_iff.mp (List.forall₂_zip hall hzip)
    obtain ⟨hle, hlt⟩ := hrs r (List.of_mem_zip hzip).2
    have hu1 : u32 r.1 = r.1 := u32_of_lt (by omega)
    have hu2 : u32 r.2 = r.2 := u32_of_lt (by omega)
    refine passItem_iff.mpr ⟨r, hread, ?_, hle, hlt⟩
    rw [hu1, hu2]

/-- A text denotes a set of positions if it is taken with them, and not faulty. -/
theorem denotes_iff (hN : N < 2 ^ 31) {S : Set ℕ} (hS : S.Nonempty) :
    Denotes N text S ↔ ¬ Faulty text ∧ ∃ rs, Passes N false text rs ∧ S = {i | Covers rs i} := by
  constructor
  · exact fun h => h.passes hN hS
  · rintro ⟨hf, rs, hrs, rfl⟩
    exact hrs.denotes hf

/-! ### The result of the parser -/

/-- The ranges that are set are determined by the text. -/
theorem Passes.unique {digit : Bool} {rs rs' : List (ℕ × ℕ)} (h : Passes N digit text rs) (h' : Passes N digit text rs') :
    rs = rs' := by
  obtain ⟨-, hall⟩ := h
  obtain ⟨-, hall'⟩ := h'
  generalize itemsOf isspace comma (unended comma text) = items at hall hall'
  induction hall generalizing rs' with
  | nil =>
      cases hall'
      rfl
  | cons hr _ ih =>
      cases hall' with
      | cons hr' hrest' =>
          cases hr.symm.trans hr'
          rw [ih hrest']

/-- The parser sets at least one position. -/
theorem Passes.nonempty {digit : Bool} {rs : List (ℕ × ℕ)} (h : Passes N digit text rs) : {i | Covers rs i}.Nonempty := by
  obtain ⟨item, items, hitems⟩ := List.exists_cons_of_ne_nil (List.splitOn_ne_nil comma (unended comma text))
  obtain ⟨r, hr, hpass⟩ := (forall₂_mem h.2).1 (solid isspace item) (by
    rw [itemsOf, hitems]
    exact List.mem_cons_self)
  obtain ⟨-, -, -, hle, -⟩ := passItem_iff.mp hpass
  exact ⟨r.1, r, hr, le_rfl, hle⟩

/-- The parser returns, and if it returns 0 then the text denotes what has been set. -/
def ParsedExactly (N : ℕ) (text : List Byte) (dst : Block Word) : Prop :=
  ∃ (d : Bitmap N) (ret : ℤ), Prog.Returns (bitmapParselist (text ++ [0]) dst N) (d.block, ret) ∧
    (ret = 0 → Denotes N text {i | d.bit i = true})

/-- A text that passes is not faulty.  Of a text of `2 ^ 32` characters or more the parser reads the first
ones only, as many as the length modulo `2 ^ 32`: if they pass, then the whole text is not faulty and passes
with ranges that cover the same positions. -/
def ReadRight (N : ℕ) (text : List Byte) : Prop :=
  if text.length < 2 ^ 32 then ∀ rs, Passes N false text rs → ¬ Faulty text
  else ∀ rs, Passes N false (text.take (u32 text.length)) rs →
    ¬ Faulty text ∧ ∃ rs', Passes N false text rs' ∧ ∀ i, Covers rs i ↔ Covers rs' i

/-- What the parser does with any text. -/
theorem returns_bitmapParselist (htext : ∀ c ∈ text, c ≠ 0 ∧ c ≠ 10) {dst : Block Word} (hdst : dst.size = bitsToLongs N) :
    ∃ (d : Bitmap N) (ret : ℤ), Prog.Returns (bitmapParselist (text ++ [0]) dst N) (d.block, ret) ∧
      ((ret = 0 ∧ ∃ rs, rs ≠ [] ∧ Passes N false (text.take (u32 text.length)) rs ∧
          ∀ i, d.bit i = true ↔ Covers rs i) ∨
        (ret ≠ 0 ∧ ∀ rs, ¬ Passes N false (text.take (u32 text.length)) rs)) := by
  have hlen : (text.take (u32 text.length)).length = u32 text.length := by
    rw [List.length_take]
    exact Nat.min_eq_left (Nat.mod_le _ _)
  have htake : text ++ [0] = text.take (u32 text.length) ++ (text.drop (u32 text.length) ++ [0]) := by
    rw [← List.append_assoc, List.take_append_drop]
  obtain ⟨z, hzero, hz⟩ := bitmapZero_spec hdst
  have hat : AtText (text.drop (u32 text.length) ++ [0]) z 0 (text.take (u32 text.length))
      ⟨text ++ [0], u32 text.length, 0, 0, z.block⟩ := ⟨htake, hlen.symm, rfl, rfl, rfl⟩
  obtain ⟨d, ret, hret, hout⟩ := returns_text hat fun h => (htext 0 (List.mem_of_mem_take h)).1 rfl
  refine ⟨d, ret, ?_, ?_⟩
  · rw [bitmapParselist_take htext]
    unfold parselist
    rw [hzero]
    exact hret
  · obtain ⟨hzero, rs, hne, hrs, hd⟩ | hno := hout
    · refine .inl ⟨hzero, rs, hne, hrs, fun i => ?_⟩
      rw [hd, hz, or_iff_right Bool.false_ne_true]
    · exact .inr hno

/-- **What is parsed.**  The parser returns 0 only for texts that denote what it sets, exactly if the text is
read right. -/
theorem parsed_exactly_iff (hNint : N < 2 ^ 31) (htext : ∀ c ∈ text, c ≠ 0 ∧ c ≠ 10) {dst : Block Word}
    (hdst : dst.size = bitsToLongs N) : ParsedExactly N text dst ↔ ReadRight N text := by
  obtain ⟨d, ret, hret, hout⟩ := returns_bitmapParselist htext hdst
  have hparsed : ParsedExactly N text dst ↔ (ret = 0 → Denotes N text {i | d.bit i = true}) := by
    constructor
    · rintro ⟨d', ret', hret', hden⟩
      obtain ⟨hblock, rfl⟩ : d'.block = d.block ∧ ret' = ret := Prod.ext_iff.mp (hret'.unique hret)
      have hbits : {i | d'.bit i = true} = {i | d.bit i = true} := by
        unfold Bitmap.bit Bitmap.word
        rw [hblock]
      rwa [hbits] at hden
    · exact fun h => ⟨d, ret, hret, h⟩
  have hreads : ParsedExactly N text dst ↔
      ∀ rs, Passes N false (text.take (u32 text.length)) rs → Denotes N text {i | Covers rs i} := by
    rw [hparsed]
    obtain ⟨hzero, rs, -, hrs, hd⟩ | ⟨hne, hno⟩ := hout
    · have hset : {i | d.bit i = true} = {i | Covers rs i} := Set.ext hd
      rw [hset]
      refine ⟨fun h rs' hrs' => ?_, fun h _ => h rs hrs⟩
      rw [hrs'.unique hrs]
      exact h hzero
    · exact iff_of_true (fun h => absurd h hne) fun rs hrs => absurd hrs (hno rs)
  rw [hreads]
  unfold ReadRight
  by_cases hlt : text.length < 2 ^ 32
  · rw [if_pos hlt, u32_of_lt hlt, List.take_length]
    exact forall₂_congr fun rs hrs => ⟨fun h => (h.passes hNint hrs.nonempty).1, hrs.denotes⟩
  · rw [if_neg hlt]
    refine forall₂_congr fun rs hrs => (denotes_iff hNint hrs.nonempty).trans (and_congr_right fun _ => ?_)
    exact exists_congr fun rs' => and_congr_right fun _ => Set.ext_iff

/-- The text `"1-2"`. -/
theorem parsed_exactly_range : ParsedExactly 4 [49, 45, 50] (Block.null.realloc 1) := by
  have htext : ∀ c ∈ ([49, 45, 50] : List Byte), c ≠ 0 ∧ c ≠ 10 := by simp
  refine (parsed_exactly_iff (by decide) htext (by decide)).mpr ?_
  unfold ReadRight
  rw [if_pos (by decide)]
  rintro rs - ⟨item, hitem, hfault⟩
  have hitems : itemsOf isspace comma [49, 45, 50] = [[49] ++ dash :: [50]] := itemsOf_single (by decide)
  rw [hitems, List.mem_singleton] at hitem
  subst hitem
  rw [readItem_range (by decide) (by decide)] at hfault
  revert hfault
  decide

/-- `"4294967296"` -/
def text32 : List Byte := [52, 50, 57, 52, 57, 54, 55, 50, 57, 54]

/-- This number sets position 0. -/
theorem parses_beyond_int : Prog.Returns (bitmapParselist (text32 ++ [0]) (Block.null.realloc 1) 8) (⟨[some 1]⟩, 0) ∧
    ¬ ParsedExactly 8 text32 (Block.null.realloc 1) := by
  have hret : Prog.Returns (bitmapParselist (text32 ++ [0]) (Block.null.realloc 1) 8) (⟨[some 1]⟩, 0) :=
    .of_run (n := 1) (by decide +kernel)
  refine ⟨hret, ?_⟩
  rintro ⟨d, ret, hret', hden⟩
  obtain ⟨hblock, hzero⟩ : d.block = ⟨[some 1]⟩ ∧ ret = 0 := Prod.ext_iff.mp (hret'.unique hret)
  have hset : {i | d.bit i = true}.Nonempty := by
    refine ⟨0, ?_⟩
    show d.bit 0 = true
    unfold Bitmap.bit Bitmap.word
    rw [hblock]
    decide
  have hread : readItem (solid isspace text32) = some (2 ^ 32, 2 ^ 32) := by
    rw [readItem_plain (by decide)]
    decide
  apply ((hden hzero).passes (by decide) hset).1
  refine ⟨solid isspace text32, ?_, .inr (.inr ⟨_, hread, .inl le_rfl⟩)⟩
  rw [itemsOf_single (by decide)]
  exact List.mem_singleton_self _

end Libls.Bitmaps
