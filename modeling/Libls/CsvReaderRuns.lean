import Mathlib.Tactic
import Libls.CsvReader

/-! # `parse_csv` reads what the reader reads

The passes of the loop take a text in pieces.  Where a piece ends the parser is at the beginning of a
field or in a quoted field, and its state is that of a reader that has read the text so far
(`Reader.state`).  `Follows` is the claim for the rest of a text; each kind of piece moves it, and
`csvParse_reads` puts the pieces together. -/

namespace Libls.Csv
open FileLines Strings

variable {σ : Type} {cb : ℤ → List (Option (List Byte)) → ℕ → σ → Prog (σ × ℤ)} {f : σ → Call → σ}
  {s s' : State σ} {fs : List (List Byte)} {n : ℕ} {u : σ} {t p : List Byte}

/-! ### The end of the file -/

/-- From the text `t` without a line end and the state `s` the run comes to the end of the file in
the state `s'`, and returns `ret`. -/
def Stops (cb : ℤ → List (Option (List Byte)) → ℕ → σ → Prog (σ × ℤ)) (t : List Byte) (s s' : State σ)
    (ret : ℤ) : Prop :=
  ∀ ctx, Reading s ctx → ∃ ctx', Reading s' ctx' ∧ Prog.Returns (midLine cb t ctx) (ctx', ret)

/-- A last pass that completes a record, or leaves a quoted field open. -/
theorem stops_of_pass (exit : CsvExit) (hne : p ≠ []) (hp : newline ∉ p)
    (hpass : ∀ ctx, Reading s ctx → ∃ ctx' ctx'', Reading s' ctx'' ∧
      parseCsvPass noFailure ⟨p ++ [0], p.length, ctx⟩ = some (.done (ctx', exit)) ∧
      Prog.Returns (parseCsvEnd cb (ctx', exit)) (ctx'', 0)) : Stops cb p s s' 0 := by
  intro ctx hctx
  obtain ⟨ctx', ctx'', hctx'', hpass, hend⟩ := hpass ctx hctx
  refine ⟨ctx'', hctx'', ?_⟩
  rw [midLine, splitLines_last hp hne]
  have hloop : Prog.Returns (Prog.iterate (fun s => liftM (parseCsvPass noFailure s))
      ⟨p ++ [0], p.length, ctx⟩) (ctx', exit) := .iterate_done (Prog.returns_lift.mpr hpass)
  exact Prog.returns_bind.mpr ⟨_, hloop, Prog.returns_bind.mpr ⟨_, hend, Prog.returns_pure.mpr rfl⟩⟩

theorem stops_record (hne : p ≠ []) (hp : newline ∉ p)
    (hpass : ∀ ctx, Reading s ctx → ∃ ctx', Reading s' ctx' ∧
      parseCsvPass noFailure ⟨p ++ [0], p.length, ctx⟩ = some (.done (ctx', .record))) :
    Stops (callback f) p s (s'.handOver f) 0 := by
  refine stops_of_pass .record hne hp fun ctx hctx => ?_
  obtain ⟨ctx', hctx', hpass⟩ := hpass ctx hctx
  obtain ⟨ctx'', hctx'', hend⟩ := parseCsvEnd_record (f := f) hctx'
  exact ⟨ctx', ctx'', hctx'', hpass, hend⟩

/-- A piece at the end of the file after which the loop would go on. -/
theorem PassOver.stops (h : PassOver p s s') (hne : p ≠ []) (hp : newline ∉ p) :
    Stops (callback f) p s (s'.handOver f) 0 := by
  refine stops_record hne hp fun ctx hctx => ?_
  obtain ⟨ctx', hctx', hpass⟩ := h [] ctx hctx
  exact ⟨ctx', hctx', hpass⟩

/-- A plain field at the end of the file. -/
theorem plain_stops (hne : p ≠ []) (hc : comma ∉ p) (hq : p.head? ≠ some quote) (hn : newline ∉ p)
    (h0 : (0 : Byte) ∉ p) (hv : (cutCarriage p).length < 2 ^ 31) (hfs : fs.length < 2 ^ 31) :
    Stops (callback f) p ⟨fs, false, n, u⟩ (State.handOver ⟨fs ++ [cutCarriage p], false, n, u⟩ f) 0 := by
  refine stops_record hne hn fun ctx hctx => ?_
  obtain ⟨rest, hcut⟩ := cutEol_end hn [0]
  obtain ⟨ctx', hctx', hpass⟩ :=
    plainPass_eol hctx (memchr_none [0] hc) hcut (fun h => h0 (cutCarriage_mem h)) hv hfs
  refine ⟨ctx', hctx', ?_⟩
  have hquoted : ctx.quoted = false := hctx.quoted
  obtain ⟨c, v, rfl⟩ := List.exists_cons_of_ne_nil hne
  unfold parseCsvPass
  rw [if_neg (by simp [hquoted])]
  show (if c = quote then _ else _) = _
  rw [if_neg fun he => hq (congrArg some he)]
  exact hpass

/-- A quoted field that is open at the end of the file. -/
theorem quoted_stops {g : List Byte} (hne : p ≠ []) (hq : quote ∉ p) (hn : newline ∉ p) (h0 : (0 : Byte) ∉ p)
    (hlt : (g ++ p).length < 2 ^ 31) (hfs : fs.length < 2 ^ 31) :
    Stops cb p ⟨fs ++ [g], true, n, u⟩ ⟨fs ++ [g ++ p], true, n, u⟩ 0 := by
  refine stops_of_pass .out hne hn fun ctx hctx => ?_
  obtain ⟨ctx', happ, hctx'⟩ := appendToLastField_reading hctx hlt h0 hfs [0]
  refine ⟨ctx', ctx', hctx', ?_, Prog.returns_pure.mpr rfl⟩
  rw [parseCsvPass_quoted hctx.quoted, quotedPass, memchr_none [0] hq]
  simp [happ]

/-- A closing quote at the end of the file, possibly with a carriage return. -/
theorem close_stops {g cr : List Byte} (hcr : cr = [] ∨ cr = [carriage]) (hq : quote ∉ p) (hn : newline ∉ p)
    (h0 : (0 : Byte) ∉ p) (hlt : (g ++ p).length < 2 ^ 31) (hfs : fs.length < 2 ^ 31) :
    Stops (callback f) (p ++ quote :: cr) ⟨fs ++ [g], true, n, u⟩
      (State.handOver ⟨fs ++ [g ++ p], false, n, u⟩ f) 0 := by
  have hp : newline ∉ p ++ quote :: cr := by
    intro h
    rcases List.mem_append.mp h with h | h
    · exact hn h
    · rcases hcr with rfl | rfl
      · exact absurd h (by decide)
      · exact absurd h (by decide)
  refine stops_record (by simp) hp fun ctx hctx => ?_
  have hlen : (p ++ quote :: cr).length = p.length + 1 + cr.length := by
    rw [List.length_append, List.length_cons]
    omega
  have hrest : charAt (cr ++ [0]) 0 ≠ some quote := by
    rcases hcr with rfl | rfl <;> decide
  obtain ⟨ctx', hctx', hpass⟩ := quotedPass_close (cr ++ [0]) (p.length + 1 + cr.length) hctx hq h0 hlt hfs
    (by omega) (by simp; omega) hrest
  refine ⟨ctx', hctx', ?_⟩
  rw [List.append_assoc, hlen]
  show parseCsvPass noFailure ⟨p ++ quote :: (cr ++ [0]), _, ctx⟩ = _
  rw [hpass, Nat.add_sub_cancel_left]
  rcases hcr with rfl | rfl
  · rfl
  · rfl

/-- What may not follow a closing quote: anything but a comma, a line end, and a carriage return before
a line end or at the end of the file. -/
def BadAfter (t : List Byte) : Prop :=
  ∃ c t', t = c :: t' ∧ c ≠ quote ∧ c ≠ comma ∧ c ≠ newline ∧
    (c = carriage → ∃ d t'', t' = d :: t'' ∧ d ≠ newline)

/-- The test of what follows a closing quote, on the rest `l` of the line. -/
theorem afterQuote_bad {l : List Byte} {ctx : CsvParseContext σ} (h : BadAfter l) (h0 : (0 : Byte) ∉ l) :
    afterQuote (l ++ [0]) l.length ctx = some (.done (ctx, .err)) := by
  obtain ⟨c, l', rfl, -, hc, hn, hcr⟩ := h
  unfold afterQuote
  rw [if_neg (by simp)]
  show (if c = comma then _ else _) = _
  rw [if_neg hc]
  match l' with
  | [] =>
      have hne : c ≠ carriage := by
        intro he
        obtain ⟨d, t'', ht, -⟩ := hcr he
        cases ht
      show some (Iter.done (ctx, if c ≠ carriage ∧ c ≠ newline then CsvExit.err else .record)) = _
      rw [if_pos ⟨hne, hn⟩]
  | [d] =>
      have hd : d ≠ 0 := by
        rintro rfl
        simp at h0
      have hc0 : c ≠ 0 := by
        rintro rfl
        simp at h0
      have hcmp : strcmpEq [c, d, 0] [carriage, newline, 0] = false := by
        unfold strcmpEq
        rw [decide_eq_false_iff_not]
        intro he
        have hl : [c, d, 0].takeWhile (fun b : Byte => decide (b ≠ 0)) = [c, d] := by simp [hc0, hd]
        have hr : [carriage, newline, 0].takeWhile (fun b : Byte => decide (b ≠ 0)) = [carriage, newline] := by
          decide
        rw [hl, hr] at he
        cases he
        obtain ⟨d, t'', ht, hdn⟩ := hcr rfl
        cases ht
        exact hdn rfl
      show some (Iter.done (ctx, if strcmpEq [c, d, 0] [carriage, newline, 0] then CsvExit.record else .err)) = _
      rw [hcmp]
      rfl
  | d :: e :: l'' =>
      rw [if_pos (by simp)]
      rfl

/-- The rest of a line begins as the text does. -/
theorem BadAfter.line (h : BadAfter t) (h0 : (0 : Byte) ∉ t) :
    ∃ l ls, splitLines newline t = l :: ls ∧ BadAfter l ∧ (0 : Byte) ∉ l := by
  obtain ⟨c, t', rfl, hcq, hcc, hcn, hcr⟩ := h
  have hc : newline ∉ [c] := fun hm => hcn (List.mem_singleton.mp hm).symm
  cases t' with
  | nil => exact ⟨[c], [], splitLines_last hc (by simp), ⟨c, [], rfl, hcq, hcc, hcn, hcr⟩, h0⟩
  | cons d t' =>
      obtain ⟨l, ls, e, hl⟩ := splitLines_cons (List.cons_ne_nil d t')
      obtain ⟨d', l, rfl⟩ := List.exists_cons_of_ne_nil hl
      have hflat : d' :: l ++ ls.flatten = d :: t' := by
        rw [← List.flatten_cons, ← e]
        exact flatten_splitLines (d :: t')
      obtain ⟨rfl, hrest⟩ := List.cons.inj hflat
      refine ⟨c :: d' :: l, ls, splitLines_append hc e, ⟨c, d' :: l, rfl, hcq, hcc, hcn, fun he => ?_⟩, ?_⟩
      · obtain ⟨d, t'', ht, hd⟩ := hcr he
        cases ht
        exact ⟨d', l, rfl, hd⟩
      · intro hm
        refine h0 ?_
        rw [← hflat]
        show 0 ∈ (c :: d' :: l) ++ ls.flatten
        exact List.mem_append_left _ hm

/-- Something after a closing quote that does not belong there. -/
theorem bad_stops {g : List Byte} (ht : BadAfter t) (hq : quote ∉ p) (hn : newline ∉ p)
    (h0 : (0 : Byte) ∉ p ++ quote :: t) (hlt : (g ++ p).length < 2 ^ 31) (hfs : fs.length < 2 ^ 31) :
    Stops cb (p ++ quote :: t) ⟨fs ++ [g], true, n, u⟩ ⟨fs ++ [g ++ p], false, n, u⟩ (-1) := by
  intro ctx hctx
  have hp0 : (0 : Byte) ∉ p := fun h => h0 (List.mem_append_left _ h)
  have ht0 : (0 : Byte) ∉ t := fun h => h0 (List.mem_append_right _ (List.mem_cons_of_mem _ h))
  obtain ⟨l, ls, e, hl, h0l⟩ := ht.line ht0
  have hline : splitLines newline (p ++ quote :: t) = (p ++ quote :: l) :: ls := by
    have hpq : newline ∉ p ++ [quote] := fun h => (List.mem_append.mp h).elim hn (by decide)
    have h := splitLines_append hpq e
    rwa [List.append_assoc, List.append_assoc] at h
  have hrest : charAt (l ++ [0]) 0 ≠ some quote := by
    obtain ⟨c, l', rfl, hcq, -⟩ := hl
    exact fun he => hcq (Option.some.inj he)
  have hlen : (p ++ quote :: l).length = p.length + 1 + l.length := by
    rw [List.length_append, List.length_cons]
    omega
  obtain ⟨ctx', hctx', hpass⟩ := quotedPass_close (l ++ [0]) (p.length + 1 + l.length) hctx hq hp0 hlt hfs
    (by omega) (by simp; omega) hrest
  rw [Nat.add_sub_cancel_left, afterQuote_bad hl h0l] at hpass
  refine ⟨ctx', hctx', ?_⟩
  rw [midLine, hline]
  have hloop : Prog.Returns (Prog.iterate (fun s => liftM (parseCsvPass noFailure s))
      ⟨p ++ quote :: l ++ [0], (p ++ quote :: l).length, ctx⟩) (ctx', .err) := by
    refine .iterate_done (Prog.returns_lift.mpr ?_)
    rw [List.append_assoc, hlen]
    exact hpass
  have hend : Prog.Returns (parseCsvEnd cb (ctx', .err)) (ctx', -1) := Prog.returns_pure.mpr rfl
  exact Prog.returns_bind.mpr ⟨_, hloop, Prog.returns_bind.mpr ⟨_, hend, Prog.returns_pure.mpr rfl⟩⟩

/-! ### The parser and the reader -/

/-- The state of the parser behind a piece of the text. -/
def Reader.state (r : Reader) (f : σ → Call → σ) (u : σ) : State σ where
  fields := if r.isOpen then r.fields ++ [r.field] else r.fields
  quoted := r.isOpen
  lines := r.lines
  user := (r.records.map callOf).foldl f u

/-- The state in a line. -/
def State.inLine (s : State σ) : State σ := { s with lines := s.lines + 1 }

/-- What a run has done when the reader is in `r` at the end of the file. -/
structure Outcome (f : σ → Call → σ) (u : σ) (r : Reader) (user : σ) (quoted : Bool) (ret : ℤ) : Prop where
  user : user = (r.delivered.map callOf).foldl f u
  fails : ret ≠ 0 ∨ quoted = true ↔ r.malformed = true

/-- The rest of a run, from the middle of a line on, does what the reader says. -/
def Follows (f : σ → Call → σ) (u : σ) (r : Reader) (t : List Byte) : Prop :=
  ∀ ctx, Reading (r.state f u).inLine ctx → ∃ ctx' ret,
    Prog.Returns (midLine (callback f) t ctx) (ctx', ret) ∧ Outcome f u (r.read t) ctx'.user ctx'.quoted ret

variable {r r' : Reader} {ret : ℤ}

theorem state_start (h : r.mode = .start) :
    r.state f u = ⟨r.fields, false, r.lines, (r.records.map callOf).foldl f u⟩ := by
  have hopen : r.isOpen = false := by
    unfold Reader.isOpen
    rw [h]
  unfold Reader.state
  rw [hopen]
  rfl

theorem state_quoted {fresh : Bool} (h : r.mode = .quoted fresh) :
    r.state f u = ⟨r.fields ++ [r.field], true, r.lines, (r.records.map callOf).foldl f u⟩ := by
  have hopen : r.isOpen = true := by
    unfold Reader.isOpen
    rw [h]
  unfold Reader.state
  rw [hopen]
  rfl

/-- A record is handed over. -/
theorem Outcome.of_last {fields : List (List Byte)} {q : Bool} (hlast : r.last = some fields)
    (hq : q = r.malformed) :
    Outcome f u r (f ((r.records.map callOf).foldl f u) (callOf (r.lines + 1, fields))) q 0 := by
  refine ⟨?_, by simp [hq]⟩
  rw [Reader.delivered, hlast, List.map_append, List.foldl_append]
  rfl

/-- No record is handed over. -/
theorem Outcome.of_none {q : Bool} (hlast : r.last = none) (hq : ret ≠ 0 ∨ q = true ↔ r.malformed = true) :
    Outcome f u r ((r.records.map callOf).foldl f u) q ret := by
  refine ⟨?_, hq⟩
  rw [Reader.delivered, hlast, Option.map_none, Option.toList_none, List.append_nil]

theorem Follows.of_stops {s' : State σ} (h : Stops (callback f) t (r.state f u).inLine s' ret)
    (hout : Outcome f u (r.read t) s'.user s'.quoted ret) : Follows f u r t := by
  intro ctx hctx
  obtain ⟨ctx', hctx', hret⟩ := h ctx hctx
  refine ⟨ctx', ret, hret, ?_⟩
  rw [hctx'.user, hctx'.quoted]
  exact hout

/-- A pass over a piece; if nothing follows, the record ends with it. -/
theorem Follows.of_pass {piece : List Byte} (h : PassOver piece (r.state f u).inLine (r'.state f u).inLine)
    (hne : piece ≠ []) (hp : newline ∉ piece) (hread : r.read piece = r')
    (hlast : r'.last = some (r'.state f u).fields) (hopen : r'.malformed = r'.isOpen)
    (h' : t ≠ [] → Follows f u r' t) : Follows f u r (piece ++ t) := by
  by_cases ht : t = []
  · subst ht
    rw [List.append_nil]
    refine .of_stops (h.stops hne hp) ?_
    rw [hread]
    exact .of_last hlast hopen.symm
  · intro ctx hctx
    obtain ⟨ctx₁, hctx₁, hrun⟩ := h.reaches (callback f) hp ht ctx hctx
    obtain ⟨ctx', ret, hret, hout⟩ := h' ht ctx₁ hctx₁
    refine ⟨ctx', ret, hrun _ hret, ?_⟩
    rw [Reader.read_append, hread]
    exact hout

/-- A line ends. -/
theorem Follows.of_ends {piece : List Byte} (h : Ends (callback f) (piece ++ t) (r.state f u).inLine t (r'.state f u))
    (hread : r.read piece = r') (hlast : r'.last = none) (hopen : r'.malformed = r'.isOpen)
    (h' : t ≠ [] → Follows f u r' t) : Follows f u r (piece ++ t) := by
  intro ctx hctx
  obtain ⟨ctx₁, hctx₁, hrun⟩ := h ctx hctx
  rw [Reader.read_append, hread]
  by_cases ht : t = []
  · subst ht
    refine ⟨ctx₁, 0, hrun _ (Prog.returns_pure.mpr rfl), ?_⟩
    rw [hctx₁.user, hctx₁.quoted]
    refine .of_none hlast ?_
    rw [Reader.read_nil, hopen]
    simp [Reader.state]
  · obtain ⟨ctx', ret, hret, hout⟩ := h' ht _ (nextLine_reading hctx₁)
    exact ⟨ctx', ret, hrun _ ((eachLine_midLine ht).mpr hret), hout⟩

/-- The first byte of two in a text. -/
theorem exists_chunk (a b : Byte) (t : List Byte) : ∃ v rest, t = v ++ rest ∧ a ∉ v ∧ b ∉ v ∧
    (rest = [] ∨ ∃ c rest', rest = c :: rest' ∧ (c = a ∨ c = b)) := by
  induction t with
  | nil => exact ⟨[], [], rfl, by simp, by simp, .inl rfl⟩
  | cons c t ih =>
      by_cases hc : c = a ∨ c = b
      · exact ⟨[], c :: t, rfl, by simp, by simp, .inr ⟨c, t, rfl, hc⟩⟩
      · rw [not_or] at hc
        obtain ⟨v, rest, rfl, ha, hb, hrest⟩ := ih
        exact ⟨c :: v, rest, rfl, by simp [ha, Ne.symm hc.1], by simp [hb, Ne.symm hc.2], hrest⟩

/-- The parser is between two passes. -/
def Reader.Boundary (r : Reader) : Prop := (r.mode = .start ∧ r.field = []) ∨ ∃ fresh, r.mode = .quoted fresh

/-- The claim for all texts that are shorter than `t`. -/
def Shorter (f : σ → Call → σ) (u : σ) (t : List Byte) : Prop :=
  ∀ r t', t'.length < t.length → Reader.Boundary r → t' ≠ [] → (0 : Byte) ∉ t' → r.Sized t' → Follows f u r t'

/-- What is left of a text behind a piece. -/
theorem Shorter.rest {piece rest : List Byte} (ih : Shorter f u (piece ++ rest)) (hne : piece ≠ [])
    (h0 : (0 : Byte) ∉ piece ++ rest) (hs : r.Sized (piece ++ rest)) (hread : r.read piece = r')
    (hb : r'.Boundary) (hrest : rest ≠ []) : Follows f u r' rest := by
  have hlen := List.length_pos_iff.mpr hne
  refine ih r' rest ?_ hb hrest (fun h => h0 (List.mem_append_right _ h)) ?_
  · rw [List.length_append]
    omega
  · rw [← hread]
    exact hs.append

theorem state_endRecord (r : Reader) (v : List Byte) : (r.endRecord v).state f u =
    State.handOver ⟨r.fields ++ [v], false, r.lines + 1, (r.records.map callOf).foldl f u⟩ f := by
  unfold Reader.state Reader.endRecord
  rw [List.map_append, List.foldl_append]
  rfl

theorem state_endField (r : Reader) : r.endField.state f u =
    ⟨r.fields ++ [r.field], false, r.lines, (r.records.map callOf).foldl f u⟩ := rfl

theorem last_endField (r : Reader) : r.endField.last = some (r.fields ++ [r.field]) :=
  if_neg (List.append_ne_nil_of_right_ne_nil _ (List.cons_ne_nil _ _))

theorem boundary_start (r : Reader) : r.endField.Boundary := .inl ⟨rfl, rfl⟩

/-- The beginning of a field. -/
theorem follows_start (hmode : r.mode = .start) (hfield : r.field = []) (ht : t ≠ []) (h0 : (0 : Byte) ∉ t)
    (hs : r.Sized t) (ih : Shorter f u t) : Follows f u r t := by
  have hfs : r.fields.length < 2 ^ 31 := (hs 0).1
  by_cases hq : t.head? = some quote
  · obtain ⟨c, rest, rfl⟩ := List.exists_cons_of_ne_nil ht
    obtain rfl : c = quote := Option.some.inj hq
    have hread : r.read [quote] = { r with mode := .quoted true } := by
      rw [Reader.read_cons, Reader.read_nil, Reader.step, hmode]
      exact if_pos rfl
    have hsplit : quote :: rest = [quote] ++ rest := rfl
    rw [hsplit] at ih h0 hs ⊢
    refine .of_pass ?_ (by simp) (by decide) hread ?_ rfl
      (ih.rest (by simp) h0 hs hread (.inr ⟨true, rfl⟩))
    · rw [state_start hmode, state_quoted (r := { r with mode := .quoted true }) rfl]
      show PassOver [quote] ⟨r.fields, false, r.lines + 1, _⟩ ⟨r.fields ++ [r.field], true, r.lines + 1, _⟩
      rw [hfield]
      exact open_quote hfs
    · rw [state_quoted (r := { r with mode := .quoted true }) rfl]
      rfl
  · obtain ⟨v, rest, rfl, hc, hn, hrest⟩ := exists_chunk comma newline t
    have hqv : v.head? ≠ some quote := by
      intro he
      obtain ⟨c, v, rfl⟩ := List.exists_cons_of_ne_nil (List.ne_nil_of_mem (List.mem_of_head? he))
      exact hq he
    have h0v : (0 : Byte) ∉ v := fun h => h0 (List.mem_append_left _ h)
    have hv : v.length < 2 ^ 31 := by
      rcases eq_or_ne v [] with rfl | hne
      · decide
      · have := hs.read.2
        rwa [Reader.read_plain hmode hfield hne hqv hc hn] at this
    have hcut : (cutCarriage v).length < 2 ^ 31 := (cutCarriage_length v).trans_lt hv
    rcases hrest with rfl | ⟨c, rest, rfl, rfl | rfl⟩
    · -- the end of the file
      rw [List.append_nil] at ht ⊢
      have hstop : Stops (callback f) v (r.state f u).inLine (State.handOver ⟨r.fields ++ [cutCarriage v],
          false, r.lines + 1, (r.records.map callOf).foldl f u⟩ f) 0 := by
        rw [state_start hmode]
        exact plain_stops ht hc hqv hn h0v hcut hfs
      refine .of_stops hstop ?_
      rw [Reader.read_plain hmode hfield ht hqv hc hn]
      exact Outcome.of_last (r := { r with mode := .plain, field := v }) rfl rfl
    · -- a comma
      have hsplit : v ++ comma :: rest = (v ++ [comma]) ++ rest := by simp
      have hread : r.read (v ++ [comma]) = { r with field := v }.endField :=
        Reader.read_plain_end hmode hfield hqv hc hn (.inl rfl)
      have hp : newline ∉ v ++ [comma] := fun h => (List.mem_append.mp h).elim hn (by decide)
      rw [hsplit] at ih h0 hs ⊢
      refine .of_pass ?_ (by simp) hp hread ?_ rfl (ih.rest (by simp) h0 hs hread (boundary_start _))
      · rw [state_start hmode, state_endField]
        exact plain_comma hc hqv h0v hv hfs
      · exact last_endField _
    · -- the end of the line
      have hsplit : v ++ newline :: rest = (v ++ [newline]) ++ rest := by simp
      have hread : r.read (v ++ [newline]) = r.endRecord (cutCarriage v) :=
        Reader.read_plain_end hmode hfield hqv hc hn (.inr rfl)
      have hends : Ends (callback f) (v ++ newline :: rest) (r.state f u).inLine rest
          ((r.endRecord (cutCarriage v)).state f u) := by
        rw [state_start hmode, state_endRecord]
        exact plain_newline hc hqv hn h0v hcut hfs
      rw [hsplit] at ih h0 hs hends ⊢
      exact .of_ends hends hread rfl rfl (ih.rest (by simp) h0 hs hread (.inl ⟨rfl, rfl⟩))

/-- What may follow a quote in a quoted field. -/
theorem after_quote_cases (t : List Byte) : t = [] ∨ t = [carriage] ∨ (∃ t', t = quote :: t') ∨
    (∃ t', t = comma :: t') ∨ (∃ eol t', IsEol eol ∧ t = eol ++ t') ∨ BadAfter t := by
  cases t with
  | nil => exact .inl rfl
  | cons c t =>
      by_cases hq : c = quote
      · exact .inr (.inr (.inl ⟨t, by rw [hq]⟩))
      by_cases hc : c = comma
      · exact .inr (.inr (.inr (.inl ⟨t, by rw [hc]⟩)))
      by_cases hn : c = newline
      · exact .inr (.inr (.inr (.inr (.inl ⟨[newline], t, .inl rfl, by rw [hn]; rfl⟩))))
      by_cases hr : c = carriage
      · subst hr
        cases t with
        | nil => exact .inr (.inl rfl)
        | cons d t =>
            by_cases hd : d = newline
            · exact .inr (.inr (.inr (.inr (.inl ⟨[carriage, newline], t, .inr rfl, by rw [hd]; rfl⟩))))
            · exact .inr (.inr (.inr (.inr (.inr ⟨_, _, rfl, hq, hc, hn, fun _ => ⟨d, t, rfl, hd⟩⟩))))
      · exact .inr (.inr (.inr (.inr (.inr ⟨c, t, rfl, hq, hc, hn, fun he => absurd he hr⟩))))

/-- The reader behind the quote. -/
theorem read_close {fresh : Bool} (hmode : r.mode = .quoted fresh) (hq : quote ∉ p) (hn : newline ∉ p) :
    r.read (p ++ quote :: t) = Reader.read { r with mode := .closed, field := r.field ++ p } t := by
  rw [Reader.read_quoted_end hmode hq hn]
  rfl

theorem read_badAfter (hmode : r.mode = .closed) (h : BadAfter t) : r.read t = { r with mode := .bad } := by
  obtain ⟨c, t', rfl, hq, hc, hn, hcr⟩ := h
  have hstep : r.step c = { r with mode := if c = carriage then .closedCr else .bad } := by
    rw [Reader.step, hmode]
    show r.closedStep c = _
    unfold Reader.closedStep
    rw [if_neg hq, if_neg hc, if_neg hn]
  rw [Reader.read_cons, hstep]
  by_cases hr : c = carriage
  · obtain ⟨d, t'', rfl, hd⟩ := hcr hr
    have hbad : Reader.step { r with mode := .closedCr } d = { r with mode := .bad } := if_neg hd
    rw [if_pos hr, Reader.read_cons, hbad, Reader.read_bad rfl]
  · rw [if_neg hr, Reader.read_bad rfl]

/-- The reader behind a closing quote and a line end. -/
theorem read_eol {eol : List Byte} (hmode : r.mode = .closed) (heol : IsEol eol) :
    r.read eol = r.endRecord r.field := by
  rcases heol with rfl | rfl
  · rw [Reader.read_cons, Reader.read_nil, Reader.step, hmode]
    rfl
  · have hstep : r.step carriage = { r with mode := .closedCr } := by
      rw [Reader.step, hmode]
      rfl
    rw [Reader.read_cons, hstep]
    rfl

/-- A quote in a quoted field, and what follows it. -/
theorem follows_quote {fresh : Bool} {rest : List Byte} (hmode : r.mode = .quoted fresh)
    (h0 : (0 : Byte) ∉ p ++ quote :: rest) (hs : r.Sized (p ++ quote :: rest)) (ih : Shorter f u (p ++ quote :: rest))
    (hq : quote ∉ p) (hn : newline ∉ p) (hp : (r.field ++ p).length < 2 ^ 31) :
    Follows f u r (p ++ quote :: rest) := by
  have hfs : r.fields.length < 2 ^ 31 := (hs 0).1
  have h0p : (0 : Byte) ∉ p := fun h => h0 (List.mem_append_left _ h)
  have hclose : ∀ t, r.read (p ++ quote :: t) =
      Reader.read { r with mode := .closed, field := r.field ++ p } t := fun t => read_close hmode hq hn
  have hstop : ∀ cr, cr = [] ∨ cr = [carriage] → Stops (callback f) (p ++ quote :: cr)
      (r.state f u).inLine (State.handOver ⟨r.fields ++ [r.field ++ p], false, r.lines + 1,
        (r.records.map callOf).foldl f u⟩ f) 0 := by
    intro cr hcr
    rw [state_quoted hmode]
    exact close_stops hcr hq hn h0p hp hfs
  rcases after_quote_cases rest with rfl | rfl | ⟨t, rfl⟩ | ⟨t, rfl⟩ | ⟨eol, t, heol, rfl⟩ | hbad
  · refine .of_stops (hstop [] (.inl rfl)) ?_
    rw [hclose]
    exact Outcome.of_last (r := { r with mode := .closed, field := r.field ++ p }) rfl rfl
  · refine .of_stops (hstop [carriage] (.inr rfl)) ?_
    rw [hclose]
    exact Outcome.of_last (r := { r with mode := .closedCr, field := r.field ++ p }) rfl rfl
  · -- a doubled quote
    have hsplit : p ++ quote :: quote :: t = (p ++ [quote, quote]) ++ t := by simp
    have hread : r.read (p ++ [quote, quote]) =
        { r with mode := .quoted true, field := r.field ++ (p ++ [quote]) } := by
      rw [hclose, ← List.append_assoc]
      rfl
    have hnl : newline ∉ p ++ [quote, quote] := fun h => (List.mem_append.mp h).elim hn (by decide)
    rw [hsplit] at ih h0 hs ⊢
    have hlt := hs.read.2
    rw [hread] at hlt
    refine .of_pass ?_ (by simp) hnl hread ?_ rfl (ih.rest (by simp) h0 hs hread (.inr ⟨true, rfl⟩))
    · rw [state_quoted hmode]
      exact doubled_quote hq h0p hlt hfs
    · rfl
  · -- a comma
    have hsplit : p ++ quote :: comma :: t = (p ++ [quote, comma]) ++ t := by simp
    have hread : r.read (p ++ [quote, comma]) =
        Reader.endField { r with mode := .closed, field := r.field ++ p } := hclose [comma]
    have hnl : newline ∉ p ++ [quote, comma] := fun h => (List.mem_append.mp h).elim hn (by decide)
    rw [hsplit] at ih h0 hs ⊢
    refine .of_pass ?_ (by simp) hnl hread (last_endField _) rfl (ih.rest (by simp) h0 hs hread (boundary_start _))
    rw [state_quoted hmode, state_endField]
    exact close_comma hq h0p hp hfs
  · -- the end of the line
    have hsplit : p ++ quote :: (eol ++ t) = (p ++ quote :: eol) ++ t := by simp
    have hread : r.read (p ++ quote :: eol) = r.endRecord (r.field ++ p) := by
      rw [hclose, read_eol rfl heol]
      rfl
    have hends : Ends (callback f) (p ++ quote :: (eol ++ t)) (r.state f u).inLine t
        ((r.endRecord (r.field ++ p)).state f u) := by
      rw [state_quoted hmode, state_endRecord]
      exact close_eol heol hq hn h0p hp hfs
    rw [hsplit] at ih h0 hs hends ⊢
    exact .of_ends hends hread rfl rfl (ih.rest (by simp) h0 hs hread (.inl ⟨rfl, rfl⟩))
  · -- something else
    have hbadStop : Stops (callback f) (p ++ quote :: rest) (r.state f u).inLine
        ⟨r.fields ++ [r.field ++ p], false, r.lines + 1, (r.records.map callOf).foldl f u⟩ (-1) := by
      rw [state_quoted hmode]
      exact bad_stops hbad hq hn h0 hp hfs
    refine .of_stops hbadStop ?_
    rw [hclose, read_badAfter rfl hbad]
    exact Outcome.of_none (r := { r with mode := .bad, field := r.field ++ p }) rfl (by simp; rfl)

/-- The inside of a quoted field. -/
theorem follows_quoted {fresh : Bool} (hmode : r.mode = .quoted fresh) (ht : t ≠ []) (h0 : (0 : Byte) ∉ t)
    (hs : r.Sized t) (ih : Shorter f u t) : Follows f u r t := by
  have hfs : r.fields.length < 2 ^ 31 := (hs 0).1
  obtain ⟨p, rest, rfl, hq, hn, hrest⟩ := exists_chunk quote newline t
  have h0p : (0 : Byte) ∉ p := fun h => h0 (List.mem_append_left _ h)
  have hp : (r.field ++ p).length < 2 ^ 31 := by
    rcases eq_or_ne p [] with rfl | hne
    · rw [List.append_nil]
      exact (hs 0).2
    · have := hs.read.2
      rwa [Reader.read_quoted hmode hne hq hn] at this
  rcases hrest with rfl | ⟨c, rest, rfl, rfl | rfl⟩
  · -- the end of the file
    rw [List.append_nil] at ht ⊢
    have hstop : Stops (callback f) p (r.state f u).inLine
        ⟨r.fields ++ [r.field ++ p], true, r.lines + 1, (r.records.map callOf).foldl f u⟩ 0 := by
      rw [state_quoted hmode]
      exact quoted_stops ht hq hn h0p hp hfs
    refine .of_stops hstop ?_
    rw [Reader.read_quoted hmode ht hq hn]
    exact Outcome.of_none (r := { r with mode := .quoted false, field := r.field ++ p }) rfl (by simp; rfl)
  · exact follows_quote hmode h0 hs ih hq hn hp
  · -- a line end in the field
    have hsplit : p ++ newline :: rest = (p ++ [newline]) ++ rest := by simp
    have hread : r.read (p ++ [newline]) =
        { r with mode := .quoted false, field := r.field ++ (p ++ [newline]), lines := r.lines + 1 } := by
      rw [Reader.read_quoted_end hmode hq hn, ← List.append_assoc]
      rfl
    have hlt : (r.field ++ (p ++ [newline])).length < 2 ^ 31 := by
      rw [hsplit] at hs
      have := hs.read.2
      rwa [hread] at this
    have hends : Ends (callback f) (p ++ newline :: rest) (r.state f u).inLine rest
        ((r.read (p ++ [newline])).state f u) := by
      rw [hread, state_quoted hmode]
      exact quoted_newline hq hn h0p hlt hfs
    rw [hread] at hends
    rw [hsplit] at ih h0 hs hends ⊢
    exact .of_ends hends hread rfl rfl (ih.rest (by simp) h0 hs hread (.inr ⟨false, rfl⟩))

/-- The parser follows the reader over every text. -/
theorem follows (hb : r.Boundary) (ht : t ≠ []) (h0 : (0 : Byte) ∉ t) (hs : r.Sized t) : Follows f u r t := by
  induction hlen : t.length using Nat.strongRecOn generalizing r t with
  | _ n ih =>
      subst hlen
      have hshort : Shorter f u t := fun r t' hlt hb ht h0 hs => ih t'.length hlt hb ht h0 hs rfl
      obtain ⟨hmode, hfield⟩ | ⟨fresh, hmode⟩ := hb
      · exact follows_start hmode hfield ht h0 hs hshort
      · exact follows_quoted hmode ht h0 hs hshort

/-- **What `csv_parse` reads from any file.**  It hands over the records that a reader has read at the
end of the text that `file_each_line` hands over, and the last one as `Reader.last` has it; it returns
-1 if and only if that text is not well formed. -/
theorem csvParse_reads {content text : List Byte} {lineMax : ℕ} (hmax : 2 ≤ lineMax)
    (hfit : Fits lineMax (splitLines newline content)) (htext : HandsOver lineMax content text)
    (h0 : (0 : Byte) ∉ content) (hs : Reader.init.Sized text) (f : σ → Call → σ) (u : σ) :
    Prog.Returns (csvParse noFailure noFailure (callback f) lineMax (some { rest := content }) u)
      (((Reader.init.read text).delivered.map callOf).foldl f u,
        if (Reader.init.read text).malformed then -1 else 0) := by
  have h0t : (0 : Byte) ∉ text := by
    obtain ⟨rest, hrest, -⟩ := htext.append
    exact fun h => h0 (hrest ▸ List.mem_append_left rest h)
  have hctx : Reading (Reader.init.state f u) ⟨0, strvInit, u, false, 1⟩ := ⟨strvInit_holds, rfl, rfl, rfl⟩
  obtain ⟨ctx', ret, hret, hout⟩ : ∃ ctx' ret, Prog.Returns
      (eachLine (parseCsv noFailure (callback f)) (splitLines newline text) ⟨0, strvInit, u, false, 1⟩)
        (ctx', ret) ∧ Outcome f u (Reader.init.read text) ctx'.user ctx'.quoted ret := by
    rcases eq_or_ne text [] with rfl | hne
    · exact ⟨_, 0, Prog.returns_pure.mpr rfl, .of_none rfl (by simp; rfl)⟩
    · obtain ⟨ctx', ret, hret, hout⟩ := follows (f := f) (u := u) (.inl ⟨rfl, rfl⟩) hne h0t hs _ (nextLine_reading hctx)
      exact ⟨ctx', ret, (eachLine_midLine hne).mpr hret, hout⟩
  rw [csvParse, if_pos rfl]
  refine Prog.returns_bind.mpr ⟨(ctx', ret), (fileEachLine_handsOver hmax h0 hfit htext).mpr hret, ?_⟩
  rw [← hout.user]
  have hfails := hout.fails
  show Prog.Returns (if ret ≠ 0 then _ else _) _
  by_cases hr : ret ≠ 0
  · rw [if_pos hr, if_pos (hfails.mp (.inl hr))]
    exact Prog.returns_pure.mpr rfl
  · rw [if_neg hr]
    cases hquoted : ctx'.quoted with
    | true =>
        rw [if_pos rfl, if_pos (hfails.mp (.inr hquoted))]
        exact Prog.returns_pure.mpr rfl
    | false =>
        rw [if_neg (by simp), if_neg]
        · exact Prog.returns_pure.mpr rfl
        · intro hmal
          rcases hfails.mpr hmal with h | h
          · exact hr h
          · rw [hquoted] at h
            cases h

end Libls.Csv
