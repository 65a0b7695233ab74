import Libls.LineAccess

/-! # Reading lines stays inside the buffer

A line that `file_each_line` hands over is not empty and contains no NUL, so the buffer the callbacks get
ends with its first NUL.  They write NULs only, and none of them moves a pointer past the last one:
`Terminated` is all that the string functions need.

`line_reading_safe_iff` puts this together with `Readable`. -/

namespace Libls.LineAccess
open FileLines

/-- `L + 1` bytes, the last of them a NUL. -/
structure Terminated (buf : Block Byte) (L : ℕ) : Prop where
  size : buf.size = L + 1
  written : ∀ i, i ≤ L → ∃ c, buf.read i = some c
  last : buf.read L = some 0

variable {buf : Block Byte} {L i n str : ℕ}

theorem terminated_lineBlock (line : List Byte) : Terminated (lineBlock line) line.length := by
  have hread : ∀ i, (lineBlock line).read i = (line ++ [0])[i]? := by
    intro i
    simp only [lineBlock, Block.read, List.getElem?_map]
    cases (line ++ [0])[i]? with
    | none => rfl
    | some c => rfl
  refine ⟨by simp [lineBlock, Block.size], fun i hi => ?_, ?_⟩
  · rw [hread]
    have hlt : i < (line ++ [0]).length := by
      rw [List.length_append, List.length_singleton]
      omega
    exact ⟨_, List.getElem?_eq_getElem hlt⟩
  · rw [hread, List.getElem?_concat_length]

namespace Terminated

/-- Writing a NUL. -/
theorem write (h : Terminated buf L) (hi : i ≤ L) : ∃ buf', buf.write i 0 = some buf' ∧ Terminated buf' L := by
  obtain ⟨buf', hb, hsize, hread⟩ := Block.write_of_lt (by rw [h.size]; omega : i < buf.size) (0 : Byte)
  refine ⟨buf', hb, hsize.trans h.size, fun j hj => ?_, ?_⟩
  · rw [hread]
    split_ifs
    · exact ⟨0, rfl⟩
    · exact h.written j hj
  · rw [hread]
    split_ifs
    · rfl
    · exact h.last

theorem strlen (h : Terminated buf L) (hi : i ≤ L) : ∃ n, strlen buf i = some n ∧ i + n ≤ L := by
  have hfrom : ∀ k i, i + k = L + 1 → 0 < k → ∃ n, strlenFrom buf i k = some n ∧ i + n ≤ L := by
    intro k
    induction k with
    | zero =>
        intro i _ hk
        exact absurd hk (Nat.lt_irrefl 0)
    | succ k ih =>
        intro i hik _
        obtain ⟨c, hc⟩ := h.written i (by omega)
        by_cases h0 : c = 0
        · exact ⟨0, by simp [strlenFrom, hc, h0], by omega⟩
        · have hlt : i ≠ L := by
            rintro rfl
            exact h0 (Option.some.inj (hc.symm.trans h.last))
          obtain ⟨n, hn, hle⟩ := ih (i + 1) (by omega) (by omega)
          exact ⟨n + 1, by simp [strlenFrom, hc, h0, hn], by omega⟩
  exact hfrom (buf.size - i) i (by rw [h.size]; omega) (by rw [h.size]; omega)

theorem strlstrip (h : Terminated buf L) (hi : i ≤ L) : ∃ j, strlstrip buf i = some j ∧ j ≤ L := by
  have hfrom : ∀ k i, i + k = L + 1 → 0 < k → ∃ j, strlstripFrom buf i k = some j ∧ j ≤ L := by
    intro k
    induction k with
    | zero =>
        intro i _ hk
        exact absurd hk (Nat.lt_irrefl 0)
    | succ k ih =>
        intro i hik _
        obtain ⟨c, hc⟩ := h.written i (by omega)
        by_cases hs : Strings.isspace c = true
        · have hlt : i ≠ L := by
            rintro rfl
            rw [Option.some.inj (hc.symm.trans h.last)] at hs
            revert hs
            decide
          obtain ⟨j, hj, hle⟩ := ih (i + 1) (by omega) (by omega)
          exact ⟨j, by simp [strlstripFrom, hc, hs, hj], hle⟩
        · exact ⟨i, by simp [strlstripFrom, hc, hs], by omega⟩
  exact hfrom (buf.size - i) i (by rw [h.size]; omega) (by rw [h.size]; omega)

theorem strrstripLoop (h : Terminated buf L) (hn : str + n ≤ L) :
    ∃ buf', strrstripLoop buf str n = some buf' ∧ Terminated buf' L := by
  induction n generalizing buf with
  | zero => exact ⟨buf, rfl, h⟩
  | succ n ih =>
      obtain ⟨c, hc⟩ := h.written (str + n) (by omega)
      by_cases hs : Strings.isspace c = true
      · obtain ⟨buf₁, hb₁, h₁⟩ := h.write (by omega : str + n ≤ L)
        obtain ⟨buf', hb', h'⟩ := ih h₁ (by omega)
        exact ⟨buf', by simp [LineAccess.strrstripLoop, hc, hs, hb₁, hb'], h'⟩
      · exact ⟨buf, by simp [LineAccess.strrstripLoop, hc, hs], h⟩

theorem strrstrip (h : Terminated buf L) (hi : i ≤ L) : ∃ buf', strrstrip buf i = some buf' ∧ Terminated buf' L := by
  obtain ⟨n, hn, hle⟩ := h.strlen hi
  obtain ⟨buf', hb, h'⟩ := h.strrstripLoop hle
  exact ⟨buf', by simp [LineAccess.strrstrip, hn, hb], h'⟩

theorem strstrip (h : Terminated buf L) (hi : i ≤ L) :
    ∃ buf' j, strstrip buf i = some (buf', j) ∧ Terminated buf' L ∧ j ≤ L := by
  obtain ⟨j, hj, hle⟩ := h.strlstrip hi
  obtain ⟨buf', hb, h'⟩ := h.strrstrip hle
  exact ⟨buf', j, by simp [LineAccess.strstrip, hj, hb], h', hle⟩

/-- `strchr` finds the character in front of the last NUL. -/
theorem strchr (h : Terminated buf L) (hi : i ≤ L) {c : Byte} (hc0 : c ≠ 0) :
    ∃ r, strchr buf i c = some r ∧ ∀ j, r = some j → j < L := by
  have hfrom : ∀ k i, i + k = L + 1 → 0 < k → ∃ r, strchrFrom buf c i k = some r ∧ ∀ j, r = some j → j < L := by
    intro k
    induction k with
    | zero =>
        intro i _ hk
        exact absurd hk (Nat.lt_irrefl 0)
    | succ k ih =>
        intro i hik _
        obtain ⟨d, hd⟩ := h.written i (by omega)
        by_cases hdc : d = c
        · refine ⟨some i, by simp [strchrFrom, hd, hdc], fun j hj => ?_⟩
          cases hj
          have hlt : i ≠ L := by
            rintro rfl
            exact hc0 (hdc ▸ Option.some.inj (hd.symm.trans h.last))
          omega
        · by_cases h0 : d = 0
          · refine ⟨none, ?_, nofun⟩
            rw [h0] at hd hdc
            simp [strchrFrom, hd, hdc]
          · have hlt : i ≠ L := by
              rintro rfl
              exact h0 (Option.some.inj (hd.symm.trans h.last))
            obtain ⟨r, hr, hj⟩ := ih (i + 1) (by omega) (by omega)
            exact ⟨r, by simp [strchrFrom, hd, hdc, h0, hr], hj⟩
  exact hfrom (buf.size - i) i (by rw [h.size]; omega) (by rw [h.size]; omega)

/-- `strndup` ends at the last NUL, whatever its length is. -/
theorem strndup (h : Terminated buf L) (hi : i ≤ L) (n : ℕ) : ∃ s, strndup buf i n = some s := by
  induction n generalizing i with
  | zero => exact ⟨[], rfl⟩
  | succ n ih =>
      obtain ⟨c, hc⟩ := h.written i hi
      by_cases h0 : c = 0
      · exact ⟨[], by simp [LineAccess.strndup, hc, h0]⟩
      · have hlt : i ≠ L := by
          rintro rfl
          exact h0 (Option.some.inj (hc.symm.trans h.last))
        obtain ⟨s, hs⟩ := ih (by omega : i + 1 ≤ L)
        exact ⟨c :: s, by simp [LineAccess.strndup, hc, h0, hs]⟩

theorem readList (h : Terminated buf L) (hi : i + n ≤ L) : ∃ s, buf.readList i n = some s := by
  induction n generalizing i with
  | zero => exact ⟨[], rfl⟩
  | succ n ih =>
      obtain ⟨c, hc⟩ := h.written i (by omega)
      obtain ⟨s, hs⟩ := ih (by omega : i + 1 + n ≤ L)
      exact ⟨c :: s, by simp [Block.readList, hc, hs]⟩

theorem memchr (h : Terminated buf L) (c : Byte) (hi : i + n ≤ L) :
    ∃ r, memchr buf c i n = some r ∧ ∀ j, r = some j → i ≤ j ∧ j < i + n := by
  induction n generalizing i with
  | zero => exact ⟨none, rfl, nofun⟩
  | succ n ih =>
      obtain ⟨d, hd⟩ := h.written i (by omega)
      by_cases hdc : d = c
      · refine ⟨some i, by simp [LineAccess.memchr, hd, hdc], fun j hj => ?_⟩
        cases hj
        omega
      · obtain ⟨r, hr, hj⟩ := ih (by omega : i + 1 + n ≤ L)
        refine ⟨r, by simp [LineAccess.memchr, hd, hdc, hr], fun j e => ?_⟩
        have := hj j e
        omega

theorem strcmpEq (h : Terminated buf L) (str2 : List Byte) (hi : i + str2.length ≤ L + 1) :
    ∃ b, strcmpEq buf i str2 = some b := by
  induction str2 generalizing i with
  | nil => exact ⟨true, rfl⟩
  | cons d str2 ih =>
      rw [List.length_cons] at hi
      obtain ⟨c, hc⟩ := h.written i (by omega)
      by_cases hd : c = d
      · by_cases h0 : c = 0
        · exact ⟨true, by simp [LineAccess.strcmpEq, hc, ← hd, h0]⟩
        · obtain ⟨b, hb⟩ := ih (by omega : i + 1 + str2.length ≤ L + 1)
          exact ⟨b, by simp [LineAccess.strcmpEq, hc, ← hd, h0, hb]⟩
      · exact ⟨false, by simp [LineAccess.strcmpEq, hc, hd]⟩

end Terminated

/-! ### `parse_ini` -/

section ini

open Ini

variable {σ : Type} {cb : Ini.Callback σ}

theorem cutNewline_spec (h : Terminated buf L) (hn : 0 < n) (hle : n ≤ L) :
    ∃ buf', cutNewline buf n = some buf' ∧ Terminated buf' L := by
  have hpred : pred32 n ≤ L := by
    rw [pred32, if_neg (by omega)]
    omega
  obtain ⟨c, hc⟩ := h.written _ hpred
  by_cases hnl : c = newline
  · obtain ⟨buf', hb, h'⟩ := h.write hpred
    exact ⟨buf', by simp [cutNewline, hc, hnl, hb], h'⟩
  · exact ⟨buf, by simp [cutNewline, hc, hnl], h⟩

theorem parseSection_spec (alloc : ℕ → Bool) (ctx : IniParseContext σ) (h : Terminated buf L) (hn : 0 < n) (hle : str + n ≤ L) :
    ∃ x, parseSection alloc buf str n ctx = some x := by
  obtain ⟨c, hc⟩ := h.written (str + (n - 1)) (by omega)
  obtain ⟨s, hs⟩ := h.strndup (by omega : str + 1 ≤ L) (n - 2)
  by_cases hend : c ≠ closeBracket ∨ n ≤ 2
  · exact ⟨(ctx, -1), by simp [parseSection, hc, hend]⟩
  · refine ⟨({ ctx with
      «section» := if alloc ctx.allocations then some s else none
      allocations := ctx.allocations + 1 }, if alloc ctx.allocations then 0 else -1), ?_⟩
    simp [parseSection, hc, hs, hend]

theorem u32_le (n : ℕ) : u32 n ≤ n := Nat.mod_le n _

theorem unquote_spec (h : Terminated buf L) (hle : str ≤ L) :
    ∃ buf' j, unquote buf str = some (buf', j) ∧ Terminated buf' L ∧ j ≤ L := by
  obtain ⟨c, hc⟩ := h.written str hle
  by_cases hq : c = quote
  · obtain ⟨n, hn, hend⟩ := h.strlen hle
    have hu := u32_le n
    by_cases h2 : 2 ≤ u32 n
    · obtain ⟨d, hd⟩ := h.written (str + (u32 n - 1)) (by omega)
      by_cases hdq : d = quote
      · obtain ⟨buf', hb, h'⟩ := h.write (by omega : str + 1 + (u32 n - 2) ≤ L)
        exact ⟨buf', str + 1, by simp [unquote, hc, hq, hn, h2, hd, hdq, hb], h', by omega⟩
      · exact ⟨buf, str, by simp [unquote, hc, hq, hn, h2, hd, hdq], h, hle⟩
    · exact ⟨buf, str, by simp [unquote, hc, hq, hn, h2], h, hle⟩
  · exact ⟨buf, str, by simp [unquote, hc, hq], h, hle⟩

theorem parseEntry_spec (ctx : IniParseContext σ) (hcb : ∀ l sec name value u, ∃ x, Prog.Returns (cb l sec name value u) x)
    (h : Terminated buf L) (hle : str ≤ L) : ∃ x, Prog.Returns (parseEntry cb buf str ctx) x := by
  obtain ⟨r, hr, hlt⟩ := h.strchr (Nat.zero_le L) (by decide : equals ≠ 0)
  cases r with
  | none => exact ⟨(ctx, -1), by simp [parseEntry, hr]⟩
  | some v =>
      have hv := hlt v rfl
      obtain ⟨buf₁, hb₁, h₁⟩ := h.write (by omega : v ≤ L)
      obtain ⟨buf₂, hb₂, h₂⟩ := h₁.strrstrip hle
      obtain ⟨j, hj, hjle⟩ := h₂.strlstrip (by omega : v + 1 ≤ L)
      obtain ⟨c, hc⟩ := h₂.written str hle
      by_cases h0 : c = 0
      · exact ⟨(ctx, -1), by simp [parseEntry, hr, hb₁, hb₂, hj, hc, h0]⟩
      · obtain ⟨buf₃, k, hb₃, h₃, hk⟩ := unquote_spec h₂ hjle
        obtain ⟨name, hname⟩ := h₃.strndup hle (buf₃.size - str)
        obtain ⟨value, hvalue⟩ := h₃.strndup hk (buf₃.size - k)
        obtain ⟨⟨u, ret⟩, hcall⟩ := hcb (Strings.toInt ctx.lineNumber) ctx.section name value ctx.user
        refine ⟨({ ctx with user := u }, if ret ≠ 0 then -1 else 0), ?_⟩
        simpa [parseEntry, hr, hb₁, hb₂, hj, hc, h0, hb₃, stringAt, hname, hvalue] using ⟨ret, hcall, rfl⟩

theorem parseText_spec (alloc : ℕ → Bool) (ctx : IniParseContext σ)
    (hcb : ∀ l sec name value u, ∃ x, Prog.Returns (cb l sec name value u) x)
    (h : Terminated buf L) : ∃ x, Prog.Returns (parseText alloc cb buf ctx) x := by
  obtain ⟨c, hc⟩ := h.written 0 (Nat.zero_le L)
  by_cases hcomment : c = semicolon ∨ c = hash
  · exact ⟨(ctx, 0), by simp [parseText, hc, hcomment]⟩
  · obtain ⟨buf₁, name, hb₁, h₁, hname⟩ := h.strstrip (Nat.zero_le L)
    obtain ⟨n, hn, hend⟩ := h₁.strlen hname
    have hu := u32_le n
    by_cases h0 : u32 n = 0
    · exact ⟨(ctx, 0), by simp [parseText, hc, hb₁, hn, h0]⟩
    · obtain ⟨d, hd⟩ := h₁.written name hname
      by_cases hopen : d = openBracket
      · obtain ⟨x, hx⟩ := parseSection_spec alloc ctx h₁ (by omega : 0 < u32 n)
          (by omega : name + u32 n ≤ L)
        exact ⟨x, by simp [parseText, hc, hcomment, hb₁, hn, h0, hd, hopen, hx]⟩
      · obtain ⟨x, hx⟩ := parseEntry_spec ctx hcb h₁ hname
        exact ⟨x, by simpa [parseText, hc, hcomment, hb₁, hn, h0, hd, hopen] using hx⟩

/-- `parse_ini` stays inside a line that is not empty. -/
theorem serves_parseIni (alloc : ℕ → Bool)
    (hcb : ∀ l sec name value u, ∃ x, Prog.Returns (cb l sec name value u) x) : Serves (parseIni alloc cb) := by
  intro line ctx hne _
  obtain ⟨buf, hb, h⟩ := cutNewline_spec (terminated_lineBlock line) (List.length_pos_of_ne_nil hne) le_rfl
  obtain ⟨x, hx⟩ := parseText_spec alloc { ctx with lineNumber := u32 (ctx.lineNumber + 1) } hcb h
  exact ⟨x, by simpa [parseIni, hb] using hx⟩

end ini

/-! ### `parse_csv` -/

section csv

open Csv

variable {γ : Type} {f : Fields γ} {s : CsvLine γ}

/-- The bytes that the loop has before it lie in the buffer. -/
structure Before (s : CsvLine γ) (L : ℕ) : Prop where
  buf : Terminated s.buf L
  fits : s.line + s.len ≤ L

/-- What a pass does: it leaves, or goes on with fewer bytes. -/
def Steps (s : CsvLine γ) (L : ℕ) (r : Option (CsvStep γ)) : Prop :=
  (∃ x, r = some (.done x)) ∨ ∃ s', r = some (.next s') ∧ Before s' L ∧ 0 < s'.len ∧ s'.len < s.len

theorem whileLen_steps {s' : CsvLine γ} (h : Before s' L) (hlt : s'.len < s.len) :
    Steps s L (some (whileLen s')) := by
  unfold whileLen
  by_cases h0 : 0 < s'.len
  · rw [if_pos h0]
    exact .inr ⟨s', rfl, h, h0, hlt⟩
  · rw [if_neg h0]
    exact .inl ⟨_, rfl⟩

theorem afterQuote_steps {s' : CsvLine γ} (h : Before s' L) (hlt : s'.len < s.len) :
    Steps s L (afterQuote s') := by
  have hfits := h.fits
  unfold afterQuote
  by_cases h0 : s'.len = 0
  · rw [if_pos h0]
    exact .inl ⟨_, rfl⟩
  · obtain ⟨c, hc⟩ := h.buf.written s'.line (by omega)
    rw [if_neg h0, hc]
    by_cases hcomma : c = comma
    · simp only [hcomma, if_true, Option.bind_eq_bind, Option.bind_some]
      apply whileLen_steps
      · exact ⟨h.buf, show s'.line + 1 + (s'.len - 1) ≤ L by omega⟩
      · show s'.len - 1 < s.len
        omega
    · left
      by_cases h2 : s'.len = 2
      · obtain ⟨b, hb⟩ := h.buf.strcmpEq (i := s'.line) [carriage, newline, 0] (by
          simp only [List.length_cons, List.length_nil]
          omega)
        simp [hcomma, h2, hb]
      · by_cases h3 : 2 < s'.len
        · simp [hcomma, h3]
        · simp [hcomma, h2, h3]

theorem doubled_spec (h : Before s L) (ptr : ℕ) :
    ∃ b, doubled s ptr = some b ∧ (b = true → ptr + 1 < s.line + s.len) := by
  have hfits := h.fits
  unfold doubled
  by_cases hlt : ptr + 1 < s.line + s.len
  · obtain ⟨c, hc⟩ := h.buf.written (ptr + 1) (by omega)
    rw [if_pos hlt, hc]
    exact ⟨_, rfl, fun _ => hlt⟩
  · rw [if_neg hlt]
    exact ⟨false, rfl, nofun⟩

theorem quotedPass_steps (h : Before s L) : Steps s L (quotedPass f s) := by
  have hfits := h.fits
  obtain ⟨r, hr, hptr⟩ := h.buf.memchr quote hfits
  unfold quotedPass
  rw [hr]
  cases r with
  | none =>
      obtain ⟨str, hstr⟩ := h.buf.readList hfits
      exact .inl ⟨_, by simp only [hstr, Option.bind_eq_bind, Option.bind_some]; rfl⟩
  | some ptr =>
      obtain ⟨hle, hlt⟩ := hptr ptr rfl
      obtain ⟨b, hb, hbound⟩ := doubled_spec h ptr
      simp only [hb, Option.bind_eq_bind, Option.bind_some]
      cases b with
      | true =>
          have hbound' := hbound rfl
          obtain ⟨str, hstr⟩ := h.buf.readList (by omega : s.line + (ptr + 1 - s.line) ≤ L)
          simp only [hstr, if_true, Option.bind_some]
          split_ifs
          · exact .inl ⟨_, rfl⟩
          · apply whileLen_steps
            · exact ⟨h.buf, show ptr + 2 + (s.len - (ptr + 2 - s.line)) ≤ L by omega⟩
            · show s.len - (ptr + 2 - s.line) < s.len
              omega
      | false =>
          obtain ⟨str, hstr⟩ := h.buf.readList (by omega : s.line + (ptr - s.line) ≤ L)
          simp only [hstr, Bool.false_eq_true, if_false, Option.bind_some]
          split_ifs
          · exact .inl ⟨_, rfl⟩
          · apply afterQuote_steps
            · exact ⟨h.buf, show ptr + 1 + (s.len - (ptr + 1 - s.line)) ≤ L by omega⟩
            · show s.len - (ptr + 1 - s.line) < s.len
              omega

theorem cutLast_spec (h : Terminated buf L) (hle : i + n ≤ L) (hn : 0 < n) :
    ∃ buf', cutLast buf i n = some (buf', n - 1) ∧ Terminated buf' L := by
  obtain ⟨buf', hb, h'⟩ := h.write (by omega : i + (n - 1) ≤ L)
  exact ⟨buf', by simp [cutLast, hb], h'⟩

theorem cutEol_spec (h : Terminated buf L) (hle : i + n ≤ L) :
    ∃ buf' m, cutEol buf i n = some (buf', m) ∧ Terminated buf' L := by
  unfold cutEol
  by_cases h0 : n = 0
  · exact ⟨buf, n, if_pos h0, h⟩
  · obtain ⟨c, hc⟩ := h.written (i + (n - 1)) (by omega)
    obtain ⟨buf₁, hb₁, h₁⟩ := cutLast_spec h hle (by omega)
    rw [if_neg h0, hc]
    by_cases hnl : c = newline
    · by_cases h1 : n - 1 = 0
      · exact ⟨buf₁, n - 1, by simp [hnl, hb₁, h1], h₁⟩
      · obtain ⟨d, hd⟩ := h₁.written (i + (n - 1 - 1)) (by omega)
        obtain ⟨buf₂, hb₂, h₂⟩ := cutLast_spec h₁ (by omega : i + (n - 1) ≤ L) (by omega)
        by_cases hcr : d = carriage
        · exact ⟨buf₂, n - 1 - 1, by simp [hnl, hb₁, h1, hd, hcr, hb₂], h₂⟩
        · exact ⟨buf₁, n - 1, by simp [hnl, hb₁, h1, hd, hcr], h₁⟩
    · by_cases hcr : c = carriage
      · refine ⟨buf₁, n - 1, ?_, h₁⟩
        simp only [hcr, hb₁, Option.bind_eq_bind, Option.bind_some, if_true]
        rfl
      · exact ⟨buf, n, by simp [hnl, hcr], h⟩

theorem plainPass_steps (h : Before s L) : Steps s L (plainPass f s) := by
  have hfits := h.fits
  obtain ⟨r, hr, hptr⟩ := h.buf.memchr comma hfits
  unfold plainPass
  rw [hr]
  cases r with
  | none =>
      obtain ⟨buf', m, hb, h'⟩ := cutEol_spec h.buf hfits
      obtain ⟨str, hstr⟩ := h'.strndup (by omega : s.line ≤ L) (Strings.toSize (Strings.toInt m))
      exact .inl ⟨_, by simp only [hb, hstr, Option.bind_eq_bind, Option.bind_some]; rfl⟩
  | some ptr =>
      obtain ⟨hle, hlt⟩ := hptr ptr rfl
      obtain ⟨str, hstr⟩ := h.buf.strndup (by omega : s.line ≤ L) (Strings.toSize (Strings.toInt (ptr - s.line)))
      simp only [hstr, Option.bind_eq_bind, Option.bind_some]
      split_ifs
      · exact .inl ⟨_, rfl⟩
      · apply whileLen_steps
        · exact ⟨h.buf, show ptr + 1 + (s.len - (ptr + 1 - s.line)) ≤ L by omega⟩
        · show s.len - (ptr + 1 - s.line) < s.len
          omega

theorem parseCsvPass_steps (h : Before s L) (hpos : 0 < s.len) : Steps s L (parseCsvPass f s) := by
  have hfits := h.fits
  unfold parseCsvPass
  by_cases hq : s.quoted = true
  · rw [if_pos hq]
    exact quotedPass_steps h
  · obtain ⟨c, hc⟩ := h.buf.written s.line (by omega)
    rw [if_neg hq, hc]
    by_cases hquote : c = quote
    · simp only [hquote, if_true, Option.bind_eq_bind, Option.bind_some]
      have hpred : pred32 s.len = s.len - 1 := if_neg (by omega)
      split_ifs
      · exact .inl ⟨_, rfl⟩
      · apply whileLen_steps
        · exact ⟨h.buf, show s.line + 1 + pred32 s.len ≤ L by omega⟩
        · show pred32 s.len < s.len
          omega
    · simp only [hquote, if_false, Option.bind_eq_bind, Option.bind_some]
      exact plainPass_steps h

/-- `parse_csv` stays inside a line that is not empty, whatever the fields are. -/
theorem serves_parseCsv (f : Fields γ) : Serves (parseCsv f) := by
  intro line ctx hne _
  have hbefore : Before ⟨lineBlock line, 0, line.length, ctx.1, ctx.2⟩ line.length :=
    ⟨terminated_lineBlock line, show 0 + line.length ≤ line.length by omega⟩
  have hloop : ∃ x, Prog.Returns (Prog.iterate (fun s => liftM (parseCsvPass f s))
      ⟨lineBlock line, 0, line.length, ctx.1, ctx.2⟩) x ∧ True := by
    apply Prog.Returns.iterate fun n s => s.len = n ∧ 0 < s.len ∧ Before s line.length
    · rintro n s ⟨rfl, hpos, hs⟩
      rcases parseCsvPass_steps (f := f) hs hpos with ⟨x, hx⟩ | ⟨s', hx, hs', hpos', hlt⟩
      · exact .inl ⟨x, Prog.returns_lift.mpr hx, trivial⟩
      · exact .inr ⟨s', s'.len, Prog.returns_lift.mpr hx, hlt, rfl, hpos', hs'⟩
    · exact ⟨rfl, List.length_pos_of_ne_nil hne, hbefore⟩
  obtain ⟨⟨quoted, fields, exit⟩, hloop, -⟩ := hloop
  unfold parseCsv
  cases exit with
  | out => exact ⟨_, Prog.returns_bind.mpr ⟨_, hloop, Prog.returns_pure.mpr rfl⟩⟩
  | err => exact ⟨_, Prog.returns_bind.mpr ⟨_, hloop, Prog.returns_pure.mpr rfl⟩⟩
  | record => exact ⟨_, Prog.returns_bind.mpr ⟨_, hloop, Prog.returns_pure.mpr rfl⟩⟩

end csv

/-! ### Reading a file -/

/-- No access outside the buffer, whatever the allocations, the user's callbacks and the fields do. -/
structure LineReadingSafe (lineMax : ℕ) (content : List Byte) : Prop where
  fileEachLine : ∀ (σ : Type) (cb : List Byte → ℕ → σ → Prog (σ × ℤ)) (alloc : ℕ → Bool) (user : σ),
    Serves cb → ∃ x, Prog.Returns (fileEachLine alloc cb lineMax (some { rest := content }) user) x
  parseIni : ∀ (σ : Type) (cb : Ini.Callback σ) (alloc lineAlloc : ℕ → Bool) (ctx : Ini.IniParseContext σ),
    (∀ l sec name value u, ∃ x, Prog.Returns (cb l sec name value u) x) →
    ∃ x, Prog.Returns (FileLines.fileEachLine lineAlloc (parseIni alloc cb) lineMax (some { rest := content }) ctx) x
  parseCsv : ∀ (γ : Type) (f : Fields γ) (alloc : ℕ → Bool) (ctx : Bool × γ),
    ∃ x, Prog.Returns (FileLines.fileEachLine alloc (parseCsv f) lineMax (some { rest := content }) ctx) x

/-- **Which files are read safely.**  Exactly those in which no reading begins with a NUL byte and no
line is too long. -/
theorem line_reading_safe_iff {content : List Byte} {lineMax : ℕ} (hmax : 2 ≤ lineMax)
    (hint : lineMax < 2 ^ 31) : LineReadingSafe lineMax content ↔ Readable lineMax 0 false content := by
  constructor
  · intro h
    obtain ⟨x, hx⟩ := h.fileEachLine Unit ignore noFailure () serves_ignore
    exact readable_of_returns hmax hint hx
  · intro hread
    refine ⟨fun σ cb alloc user hcb => ?_, fun σ cb alloc lineAlloc ctx hcb => ?_, fun γ f alloc ctx => ?_⟩
    · exact fileEachLine_returns hmax hint hread hcb alloc user
    · exact fileEachLine_returns hmax hint hread (serves_parseIni alloc hcb) lineAlloc ctx
    · exact fileEachLine_returns hmax hint hread (serves_parseCsv f) alloc ctx

/-- A NUL byte inside a line does no harm. -/
theorem line_reading_safe_inside : LineReadingSafe 2048 [97, 0, 98, 10, 99] :=
  (line_reading_safe_iff (by decide) (by decide)).mpr (by simp [Readable, newline])

/-- A line that begins with a NUL byte does. -/
theorem line_reading_unsafe : ¬ LineReadingSafe 2048 [0, 10] := by
  intro h
  obtain ⟨x, hx⟩ := h.fileEachLine Unit ignore noFailure () serves_ignore
  have hread := readable_of_returns (by decide) (by decide) hx
  exact hread.1 rfl rfl

end Libls.LineAccess
