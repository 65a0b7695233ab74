import Mathlib.Data.List.TakeWhile
import Libls.FileLinesRuns

/-! # Files with NUL bytes

`file_each_line` finds the end of what `fgets` has read with `strlen`.  A NUL byte hides the rest of
what was read; if it is the very first byte, then the length is 0, and the code looks at the byte in
front of its buffer.

`Readable` goes through a file byte by byte and excludes this: no reading may begin with a NUL byte.
A reading begins after a newline, and after a full buffer with a NUL byte in it.  It also keeps the
size of the buffer an `int`.  `fileEachLine_returns_iff` says that these are the files on which
`file_each_line` has a result, whatever the allocations and the callback do. -/

namespace Libls.FileLines

/-- The buffer of `B` bytes, filled with a line of which `rest` is left, can be doubled. -/
def GrowsOver (B : ℕ) (rest : List Byte) : Prop :=
  if rest = [] then B ≠ 2 ^ 31 - 1 else 2 * B < 2 ^ 31

/-- The rest of a file can be read: `filled` bytes are in the buffer of `B` bytes, and `nul` is whether
there is a NUL among them. -/
def Readable (B filled : ℕ) (nul : Bool) : List Byte → Prop
  | [] => True
  | c :: rest =>
      (filled = 0 → c ≠ 0) ∧
      if c = newline then Readable B 0 false rest
      else if filled + 2 = B then
        if nul = true ∨ c = 0 then Readable B 0 false rest
        else GrowsOver B rest ∧ Readable (2 * B) (filled + 1) false rest
      else Readable B (filled + 1) (nul || c == 0) rest

variable {B filled : ℕ} {nul past : Bool} {t r rest acc : List Byte}

/-- What is left after `fgets` has read `t`. -/
def ReadableAfter (B : ℕ) (nul : Bool) (t r : List Byte) (past : Bool) : Prop :=
  if newline ∈ t then Readable B 0 false r
  else if past = true then True
  else if nul = true ∨ (0 : Byte) ∈ t then Readable B 0 false r
  else GrowsOver B r ∧ Readable (2 * B) (B - 1) false r

/-- Going on byte by byte is going on in the steps of `fgets`. -/
theorem readable_fgets {k : ℕ} (h : fgetsBytes (k + 1) rest = (t, r, past)) (hne : rest ≠ [])
    (hk : filled + k + 2 = B) :
    Readable B filled nul rest ↔ (filled = 0 → t.head? ≠ some 0) ∧ ReadableAfter B nul t r past := by
  induction k generalizing rest filled nul t r past with
  | zero =>
      obtain ⟨c, rest, rfl⟩ := List.exists_cons_of_ne_nil hne
      by_cases hc : c = newline
      · rw [fgetsBytes, if_pos hc] at h
        cases h
        simp [Readable, ReadableAfter, hc]
      · rw [fgetsBytes, if_neg hc] at h
        cases h
        have hB : B - 1 = filled + 1 := by omega
        have hf : filled + 2 = B := by omega
        simp [Readable, ReadableAfter, hc, hf, hB, Ne.symm hc, eq_comm]
  | succ k ih =>
      obtain ⟨c, rest, rfl⟩ := List.exists_cons_of_ne_nil hne
      by_cases hc : c = newline
      · rw [fgetsBytes, if_pos hc] at h
        cases h
        simp [Readable, ReadableAfter, hc]
      · obtain ⟨⟨t', r', past'⟩, ht⟩ : ∃ x, fgetsBytes (k + 1) rest = x := ⟨_, rfl⟩
        rw [fgetsBytes, if_neg hc, ht] at h
        cases h
        have hf : ¬ filled + 2 = B := by omega
        rcases eq_or_ne rest [] with rfl | hrest
        · cases ht
          simp [Readable, ReadableAfter, hc, hf, Ne.symm hc]
        · have hk' : filled + 1 + k + 2 = B := by omega
          have hnext : Readable B (filled + 1) (nul || c == 0) rest ↔ _ := ih ht hrest hk'
          have hnul : (nul || c == 0) = true ∨ (0 : Byte) ∈ t' ↔ nul = true ∨ (0 : Byte) ∈ c :: t' := by
            rw [Bool.or_eq_true, beq_iff_eq, List.mem_cons, or_assoc, @eq_comm _ c]
          have hnl : newline ∈ c :: t' ↔ newline ∈ t' := by simp [Ne.symm hc]
          rw [Readable, if_neg hc, if_neg hf, hnext]
          simp only [ReadableAfter, hnul, hnl, Nat.succ_ne_zero, false_imp_iff, true_and, List.head?_cons,
            ne_eq, Option.some.injEq]

/-! ### One pass of the loop -/

variable {σ : Type} {s : LineLoop σ} {buf : Block Byte} {alloc : ℕ → Bool} {cb : List Byte → ℕ → σ → Prog (σ × ℤ)}

/-- The loop has read `acc`, the beginning of a line, into a buffer of `B` bytes, and `rest`, which
may contain anything, is still in the file. -/
structure Held (acc : List Byte) (B : ℕ) (rest : List Byte) (s : LineLoop σ) : Prop where
  size : s.buf.size = B
  bufSize : s.bufSize = B
  len : s.len = acc.length
  has : s.buf.Has 0 acc
  unread : s.stream.rest = rest
  broken : s.stream.broken = false
  eof : rest ≠ [] → s.stream.eof = false
  room : acc.length + 2 ≤ B
  bound : B < 2 ^ 32
  plain : newline ∉ acc
  noNul : (0 : Byte) ∉ acc

theorem Held.size_arg (h : Held acc B rest s) : u32 (s.bufSize + 2 ^ 32 - s.len) = B - acc.length := by
  have := h.room
  have := h.bound
  rw [h.bufSize, h.len, u32]
  omega

/-- `fgets` is called with the number of bytes that are free. -/
abbrev LineLoop.fgets (s : LineLoop σ) : Option (Option (Block Byte) × Stream) :=
  FileLines.fgets s.buf s.len (u32 (s.bufSize + 2 ^ 32 - s.len)) s.stream

theorem Held.fgets_undefined (h : Held acc B rest s) (hn : 2 ^ 31 ≤ B - acc.length) : s.fgets = none := by
  rw [LineLoop.fgets, h.size_arg, FileLines.fgets, if_pos (.inr hn)]

theorem Held.fgets_end (h : Held acc B [] s) (hn : B - acc.length < 2 ^ 31) :
    ∃ stream, s.fgets = some (none, stream) := by
  have hroom := h.room
  obtain ⟨k, hk⟩ : ∃ k, B - acc.length - 1 = k + 1 := ⟨B - acc.length - 2, by omega⟩
  have hpos : ¬ (B - acc.length = 0 ∨ 2 ^ 31 ≤ B - acc.length) := by omega
  refine ⟨{ s.stream with eof := true }, ?_⟩
  rw [LineLoop.fgets, h.size_arg, FileLines.fgets, if_neg hpos, hk, h.unread]
  simp [fgetsBytes, h.broken, h.unread]

/-- What one call of `fgets` reads: at least one byte, a line end only at the end of it. -/
structure Read (acc : List Byte) (B : ℕ) (rest : List Byte) (s : LineLoop σ) (t r : List Byte) (past : Bool)
    (buf : Block Byte) : Prop where
  append : t ++ r = rest
  ne_nil : t ≠ []
  fits : acc.length + t.length < B
  fgets : s.fgets = some (some buf, { s.stream with rest := r, eof := past })
  size : buf.size = B
  has : buf.Has 0 (acc ++ (t ++ [0]))
  ends : (past = false ∧ ∃ x, t = x ++ [newline] ∧ newline ∉ x) ∨
    (past = false ∧ acc.length + t.length + 1 = B ∧ newline ∉ t) ∨
    (past = true ∧ r = [] ∧ newline ∉ t)
  readable : Readable B acc.length false rest ↔
    (acc.length = 0 → t.head? ≠ some 0) ∧ ReadableAfter B false t r past

theorem Held.read (h : Held acc B rest s) (hn : B - acc.length < 2 ^ 31) (hne : rest ≠ []) :
    ∃ t r past buf, Read acc B rest s t r past buf := by
  have hroom := h.room
  have hpos : ¬ (B - acc.length = 0 ∨ 2 ^ 31 ≤ B - acc.length) := by omega
  obtain ⟨k, hk⟩ : ∃ k, B - acc.length - 1 = k + 1 := ⟨B - acc.length - 2, by omega⟩
  obtain ⟨t, r, past, e, htr, hlen, hcase⟩ := fgetsBytes_spec (k + 1) rest
  have ht : t ≠ [] := by
    rintro rfl
    rcases hcase with ⟨-, x, hx, -⟩ | ⟨-, hk, -⟩ | ⟨-, -, rfl, -⟩
    · simp at hx
    · simp at hk
    · exact hne htr.symm
  have hfit : acc.length + (t ++ [0]).length ≤ s.buf.size := by
    rw [List.length_append, h.size, List.length_singleton]
    omega
  obtain ⟨buf, hbuf, hsz, hhas, hrd⟩ := Block.writeList_of_le hfit
  refine ⟨t, r, past, buf, htr, ht, by omega, ?_, hsz.trans h.size, ?_, ?_, ?_⟩
  · rw [LineLoop.fgets, h.size_arg, FileLines.fgets, if_neg hpos, h.unread, hk, e]
    simp [h.broken, ht, h.len, hbuf, h.eof hne]
  · rw [Block.has_append, Nat.zero_add]
    exact ⟨h.has.congr fun j _ hj => hrd j (.inl (by omega)), hhas⟩
  · rcases hcase with hc | ⟨hp, hlen, hx⟩ | ⟨hp, -, hr, hx⟩
    · exact .inl hc
    · exact .inr (.inl ⟨hp, by omega, hx⟩)
    · exact .inr (.inr ⟨hp, hr, hx⟩)
  · exact readable_fgets e hne (by omega)

/-- The bytes in front of the first NUL. -/
def untilNul (t : List Byte) : List Byte := t.takeWhile (· ≠ 0)

theorem nul_notMem_untilNul : (0 : Byte) ∉ untilNul t := fun hm => by simpa using List.mem_takeWhile_imp hm

theorem untilNul_cases (t : List Byte) : (untilNul t = t ∧ (0 : Byte) ∉ t) ∨
    ∃ u, t = untilNul t ++ 0 :: u := by
  induction t with
  | nil => exact .inl ⟨rfl, by simp⟩
  | cons c t ih =>
      by_cases hc : c = 0
      · exact .inr ⟨t, by simp [untilNul, hc]⟩
      · have hcons : untilNul (c :: t) = c :: untilNul t := List.takeWhile_cons_of_pos (by simpa using hc)
        rw [hcons]
        rcases ih with ⟨e, hn⟩ | ⟨u, e⟩
        · exact .inl ⟨by rw [e], by simp [Ne.symm hc, hn]⟩
        · exact .inr ⟨u, by rw [List.cons_append, ← e]⟩

theorem Read.strlen (hr : Read acc B rest s t r past buf) : strlen buf acc.length = some (untilNul t).length := by
  have hfits := hr.fits
  have hhas := (Block.has_append.mp hr.has).2
  rw [Nat.zero_add] at hhas
  rcases untilNul_cases t with ⟨e, hn⟩ | ⟨u, e⟩
  · rw [e]
    exact strlenFrom_spec hhas hn (by rw [hr.size]; omega)
  · have hlen := congrArg List.length e
    rw [List.length_append, List.length_cons] at hlen
    rw [e, List.append_assoc, List.cons_append, ← List.singleton_append, ← List.append_assoc] at hhas
    refine strlenFrom_spec (Block.has_append.mp hhas).1 nul_notMem_untilNul ?_
    rw [hr.size]
    omega

theorem lift_none_bind {α β : Type} (f : α → Prog β) : ((liftM (none : Option α) : Prog α) >>= f) = Prog.abort := rfl

/-- A call of `fgets` that is not defined. -/
theorem pass_abort (hget : s.fgets = none) : fileEachLinePass alloc cb s = Prog.abort := by
  unfold fileEachLinePass
  rw [← LineLoop.fgets, hget, lift_none_bind]

theorem pass_done {stream : Stream} (hget : s.fgets = some (none, stream)) :
    fileEachLinePass alloc cb s = pure (.done (s.user, if stream.error then -1 else 0)) := by
  unfold fileEachLinePass
  rw [← LineLoop.fgets, hget, Prog.lift_bind]

/-- The length after `fgets`. -/
theorem Read.len (hr : Read acc B rest s t r past buf) (h : Held acc B rest s) :
    u32 (s.len + (untilNul t).length) = (acc ++ untilNul t).length := by
  have hle : (untilNul t).length ≤ t.length := List.Sublist.length_le (List.takeWhile_sublist _)
  have hfits := hr.fits
  have hbound := h.bound
  rw [h.len, List.length_append, u32_of_lt (by omega)]

/-- The test looks at the byte in front of the buffer when the line is empty. -/
theorem Read.pass_nul (hr : Read acc B rest s t r past buf) (h : Held acc B rest s) (hacc : acc = [])
    (ht : t.head? = some 0) : fileEachLinePass alloc cb s = Prog.abort := by
  obtain ⟨u, rfl⟩ : ∃ u, t = 0 :: u := by
    cases t with
    | nil => simp at ht
    | cons c u => exact ⟨u, by rw [Option.some.inj ht]⟩
  have hlen := hr.len h
  have hbefore : buf.read (u32 (0 + 2 ^ 32 - 1)) = none := by
    have hbound := h.bound
    have hu : u32 (0 + 2 ^ 32 - 1) = 2 ^ 32 - 1 := by decide
    cases hread : buf.read (u32 (0 + 2 ^ 32 - 1)) with
    | none => rfl
    | some c =>
        have hlt := Block.lt_of_read hread
        rw [hu, hr.size] at hlt
        omega
  have hfull : ∀ stream, bufferFull buf B 0 stream = none := by
    intro stream
    rw [bufferFull, hbefore]
    rfl
  have hzero : (acc ++ untilNul (0 :: u)).length = 0 := by
    rw [hacc]
    rfl
  unfold fileEachLinePass
  rw [← LineLoop.fgets, hr.fgets, Prog.lift_bind]
  dsimp only
  rw [h.len, hr.strlen, Prog.lift_bind, ← h.len, hlen, hzero, h.bufSize, hfull, lift_none_bind]

/-- Otherwise the line is not empty. -/
theorem Read.line_ne_nil (hr : Read acc B rest s t r past buf) (h : acc = [] → t.head? ≠ some 0) :
    acc ++ untilNul t ≠ [] := by
  rcases eq_or_ne acc [] with rfl | hacc
  · obtain ⟨c, u, rfl⟩ := List.exists_cons_of_ne_nil hr.ne_nil
    have hc : c ≠ 0 := fun e => h rfl (by rw [e]; rfl)
    rw [List.nil_append, untilNul, List.takeWhile_cons_of_pos (by simpa using hc)]
    exact List.cons_ne_nil _ _
  · simp [hacc]

/-- The buffer is full, and the line goes on. -/
def GoesOn (B : ℕ) (acc t : List Byte) (past : Bool) : Prop :=
  past = false ∧ newline ∉ t ∧ (0 : Byte) ∉ t ∧ acc.length + t.length + 1 = B

theorem Read.has_line (hr : Read acc B rest s t r past buf) : buf.Has 0 (acc ++ untilNul t) := by
  have hhas := hr.has
  rcases untilNul_cases t with ⟨e, -⟩ | ⟨u, e⟩
  · rw [e]
    rw [← List.append_assoc] at hhas
    exact (Block.has_append.mp hhas).1
  · rw [e, List.append_assoc, ← List.append_assoc] at hhas
    exact (Block.has_append.mp hhas).1

theorem Read.bufferFull_iff (hr : Read acc B rest s t r past buf) (h : Held acc B rest s)
    (hne : acc ++ untilNul t ≠ []) : ∃ b, bufferFull buf B (acc ++ untilNul t).length
      { s.stream with rest := r, eof := past } = some b ∧ (b = true ↔ GoesOn B acc t past) := by
  obtain ⟨x, c, hxc⟩ : ∃ x c, acc ++ untilNul t = x ++ [c] := ⟨_, _, (List.dropLast_append_getLast hne).symm⟩
  have hhas := hr.has_line
  have hfits := hr.fits
  have hle : (untilNul t).length ≤ t.length := List.Sublist.length_le (List.takeWhile_sublist _)
  have hlen := congrArg List.length hxc
  rw [List.length_append, List.length_append, List.length_singleton] at hlen
  rw [hxc] at hhas ⊢
  refine ⟨_, bufferFull_spec hhas (by omega) h.bound, ?_⟩
  simp only [Bool.and_eq_true, bne_iff_ne, beq_iff_eq, Bool.not_eq_true', GoesOn]
  rcases untilNul_cases t with ⟨e, hnul⟩ | ⟨u, e⟩
  · -- the last byte is that of what was read
    rw [e] at hxc hlen
    obtain ⟨y, d, rfl⟩ : ∃ y d, t = y ++ [d] := ⟨_, _, (List.dropLast_append_getLast hr.ne_nil).symm⟩
    rw [← List.append_assoc] at hxc
    obtain ⟨-, hcd⟩ := List.append_inj' hxc rfl
    cases hcd
    constructor
    · rintro ⟨⟨hc, hfull⟩, hpast⟩
      refine ⟨hpast, ?_, hnul, by omega⟩
      rcases hr.ends with ⟨-, z, hz, -⟩ | ⟨-, -, hn⟩ | ⟨-, -, hn⟩
      · obtain ⟨-, hd⟩ := List.append_inj' hz rfl
        exact absurd (List.singleton_inj.mp hd) hc
      · exact hn
      · exact hn
    · rintro ⟨hpast, hn, -, hfull⟩
      refine ⟨⟨?_, by omega⟩, hpast⟩
      rintro rfl
      simp at hn
  · -- a NUL makes the line shorter than the buffer
    have hshort := congrArg List.length e
    rw [List.length_append, List.length_cons] at hshort
    constructor
    · rintro ⟨⟨-, hfull⟩, -⟩
      omega
    · rintro ⟨-, -, hnul, -⟩
      rw [e] at hnul
      simp at hnul

/-- A pass that finds the buffer full. -/
theorem Read.pass_full (alloc : ℕ → Bool) (cb : List Byte → ℕ → σ → Prog (σ × ℤ))
    (hr : Read acc B rest s t r past buf) (h : Held acc B rest s)
    (hg : GoesOn B acc t past) : fileEachLinePass alloc cb s =
      if u32 (B * 2) = 0 then Prog.abort
      else if alloc (u32 (B * 2)) = true then
        pure (.next ⟨buf.realloc (u32 (B * 2)), u32 (B * 2), (acc ++ t).length,
          { s.stream with rest := r, eof := past }, s.user⟩)
      else pure (.done (s.user, -1)) := by
  have ht : untilNul t = t := (untilNul_cases t).resolve_right (by
    rintro ⟨u, e⟩
    have hnul := hg.2.2.1
    rw [e] at hnul
    simp at hnul) |>.1
  have hlen := hr.len h
  have hstrlen := hr.strlen
  have hne : acc ++ untilNul t ≠ [] := by
    rw [ht]
    simp [hr.ne_nil]
  obtain ⟨b, hfull, hb⟩ := hr.bufferFull_iff h hne
  rw [ht] at hlen hstrlen hfull
  unfold fileEachLinePass
  rw [← LineLoop.fgets, hr.fgets, Prog.lift_bind]
  dsimp only
  rw [h.len, hstrlen, Prog.lift_bind, ← h.len, hlen, h.bufSize, hfull, Prog.lift_bind, hb.mpr hg]
  rfl

/-- A pass that hands a line over. -/
theorem Read.pass_line (alloc : ℕ → Bool) (cb : List Byte → ℕ → σ → Prog (σ × ℤ))
    (hr : Read acc B rest s t r past buf) (h : Held acc B rest s) (hne : acc ++ untilNul t ≠ []) (hg : ¬ GoesOn B acc t past) :
    fileEachLinePass alloc cb s = (do
      let (user, ret) ← cb (acc ++ untilNul t) (acc ++ untilNul t).length s.user
      if ret ≠ 0 then return .done (user, -1)
      else return .next ⟨buf, B, 0, { s.stream with rest := r, eof := past }, user⟩) := by
  obtain ⟨b, hfull, hb⟩ := hr.bufferFull_iff h hne
  have hfalse : b = false := Bool.eq_false_iff.mpr fun e => hg (hb.mp e)
  have hread : buf.readList 0 (acc ++ untilNul t).length = some (acc ++ untilNul t) := hr.has_line.readList
  unfold fileEachLinePass
  rw [← LineLoop.fgets, hr.fgets, Prog.lift_bind]
  dsimp only
  rw [h.len, hr.strlen, Prog.lift_bind, ← h.len, hr.len h, h.bufSize, hfull, Prog.lift_bind, hfalse, hread]
  rfl

/-- The state after a line has been handed over. -/
theorem Read.next_line (hr : Read acc B rest s t r past buf) (h : Held acc B rest s) (u : σ) :
    Held [] B r ⟨buf, B, 0, { s.stream with rest := r, eof := past }, u⟩ := by
  have hroom := h.room
  refine
    { size := hr.size, bufSize := rfl, len := rfl, has := Block.has_nil, unread := rfl, broken := h.broken
      eof := fun hne => ?_
      room := by rw [List.length_nil]; omega
      bound := h.bound, plain := by simp, noNul := by simp }
  rcases hr.ends with ⟨hp, -⟩ | ⟨hp, -⟩ | ⟨-, hnil, -⟩
  · exact hp
  · exact hp
  · exact absurd hnil hne

/-- The state after the buffer has been doubled. -/
theorem Read.next_full (hr : Read acc B rest s t r past buf) (h : Held acc B rest s) (hg : GoesOn B acc t past)
    (hB : 2 * B < 2 ^ 32) : Held (acc ++ t) (2 * B) r
      ⟨buf.realloc (2 * B), 2 * B, (acc ++ t).length, { s.stream with rest := r, eof := past }, s.user⟩ := by
  obtain ⟨hpast, hnl, hnul, hlen⟩ := hg
  have hroom := h.room
  have hlen' : (acc ++ t).length = acc.length + t.length := List.length_append
  have hhas := hr.has
  rw [← List.append_assoc] at hhas
  refine
    { size := Block.size_realloc, bufSize := rfl, len := rfl, unread := rfl, broken := h.broken
      has := (Block.has_append.mp hhas).1.congr fun j _ hj => Block.read_realloc (by omega)
      eof := fun _ => hpast
      room := by omega
      bound := hB, plain := ?_, noNul := ?_ }
  · rw [List.mem_append, not_or]
    exact ⟨h.plain, hnl⟩
  · rw [List.mem_append, not_or]
    exact ⟨h.noNul, hnul⟩

theorem Read.after_line (hr : Read acc B rest s t r past buf) (hg : ¬ GoesOn B acc t past) :
    ReadableAfter B false t r past ↔ Readable B 0 false r := by
  unfold ReadableAfter
  rcases hr.ends with ⟨-, x, rfl, -⟩ | ⟨hp, hlen, hn⟩ | ⟨hp, rfl, hn⟩
  · rw [if_pos (by simp)]
  · have hnul : (0 : Byte) ∈ t := by
      by_contra hnul
      exact hg ⟨hp, hn, hnul, hlen⟩
    rw [if_neg hn, if_neg (by simp [hp]), if_pos (.inr hnul)]
  · rw [if_neg hn, if_pos hp]
    rfl

theorem Read.after_full (hg : GoesOn B acc t past) : ReadableAfter B false t r past ↔
    GrowsOver B r ∧ Readable (2 * B) (acc ++ t).length false r := by
  obtain ⟨hpast, hnl, hnul, hlen⟩ := hg
  have hB : (acc ++ t).length = B - 1 := by
    rw [List.length_append]
    omega
  unfold ReadableAfter
  rw [if_neg hnl, if_neg (by simp [hpast]), if_neg (by simp [hnul]), hB]

/-! ### The whole loop -/

/-- A callback that has a result for each string that is not empty. -/
def Serves (cb : List Byte → ℕ → σ → Prog (σ × ℤ)) : Prop :=
  ∀ line user, line ≠ [] → (0 : Byte) ∉ line → ∃ x, Prog.Returns (cb line line.length user) x

/-- On a readable file the loop ends, whatever fails. -/
theorem loop_returns (hcb : Serves cb) (h : Held acc B rest s) (hn : B - acc.length < 2 ^ 31)
    (hB : rest ≠ [] → B < 2 ^ 31) (hread : Readable B acc.length false rest) :
    ∃ x, Prog.Returns (Prog.iterate (fileEachLinePass alloc cb) s) x := by
  induction hr : rest.length using Nat.strongRecOn generalizing acc B rest s with
  | _ n ih =>
      subst hr
      rcases eq_or_ne rest [] with rfl | hne
      · obtain ⟨stream, hget⟩ := h.fgets_end hn
        exact ⟨_, Prog.Returns.iterate_done (by rw [pass_done hget]; exact Prog.returns_pure.mpr rfl)⟩
      · obtain ⟨t, r, past, buf, hr⟩ := h.read hn hne
        have hshort : r.length < rest.length := by
          rw [← hr.append, List.length_append]
          have := List.length_pos_of_ne_nil hr.ne_nil
          omega
        have hrest : r ≠ [] → B < 2 ^ 31 := fun _ => hB hne
        obtain ⟨hfirst, hafter⟩ := hr.readable.mp hread
        have hline := hr.line_ne_nil fun e => hfirst (by rw [e]; rfl)
        by_cases hg : GoesOn B acc t past
        · obtain ⟨hgrow, hread'⟩ := (Read.after_full hg).mp hafter
          have hB' : 2 * B < 2 ^ 32 := by
            have := hB hne
            omega
          have hroom := h.room
          have hu : u32 (B * 2) = 2 * B := by
            rw [u32_of_lt (by omega)]
            omega
          have hpass := hr.pass_full alloc cb h hg
          rw [hu, if_neg (by omega)] at hpass
          by_cases ha : alloc (2 * B) = true
          · rw [if_pos ha] at hpass
            have hlen := hg.2.2.2
            have hgrow' : B + 1 < 2 ^ 31 ∧ (r ≠ [] → 2 * B < 2 ^ 31) := by
              unfold GrowsOver at hgrow
              rcases eq_or_ne r [] with rfl | hrne
              · rw [if_pos rfl] at hgrow
                have := hB hne
                exact ⟨by omega, fun e => absurd rfl e⟩
              · rw [if_neg hrne] at hgrow
                exact ⟨by omega, fun _ => hgrow⟩
            obtain ⟨x, hx⟩ := ih r.length hshort (hr.next_full h hg hB') (by
              rw [List.length_append]
              omega) hgrow'.2 hread' rfl
            exact ⟨x, Prog.Returns.iterate_next (by rw [hpass]; exact Prog.returns_pure.mpr rfl) hx⟩
          · rw [if_neg ha] at hpass
            exact ⟨_, Prog.Returns.iterate_done (by rw [hpass]; exact Prog.returns_pure.mpr rfl)⟩
        · have hpass := hr.pass_line alloc cb h hline hg
          have hnul : (0 : Byte) ∉ acc ++ untilNul t := by
            rw [List.mem_append, not_or]
            exact ⟨h.noNul, nul_notMem_untilNul⟩
          obtain ⟨⟨u, ret⟩, hcall⟩ := hcb _ s.user hline hnul
          by_cases hret : ret ≠ 0
          · refine ⟨(u, -1), Prog.Returns.iterate_done ?_⟩
            rw [hpass, Prog.returns_bind]
            exact ⟨_, hcall, by simp [hret]⟩
          · obtain ⟨x, hx⟩ := ih r.length hshort (hr.next_line h u) (by simpa using hB hne) hrest
              ((hr.after_line hg).mp hafter) rfl
            refine ⟨x, Prog.Returns.iterate_next ?_ hx⟩
            rw [hpass, Prog.returns_bind]
            exact ⟨_, hcall, by simp [hret]⟩

/-- A call with a size that is not an `int` ends the run without a result. -/
theorem Held.no_result {x : σ × ℤ} (h : Held acc B rest s) (hn : 2 ^ 31 ≤ B - acc.length) :
    ¬ Prog.Returns (Prog.iterate (fileEachLinePass alloc cb) s) x := by
  intro hr
  have habort : fileEachLinePass alloc cb s = Prog.abort := pass_abort (h.fgets_undefined hn)
  rcases Prog.returns_iterate.mp hr with hd | ⟨s', hnext, -⟩
  · rw [habort] at hd
    exact Prog.returns_abort hd
  · rw [habort] at hnext
    exact Prog.returns_abort hnext

/-- The callback that does nothing. -/
def ignore (_ : List Byte) (_ : ℕ) (user : σ) : Prog (σ × ℤ) := pure (user, 0)

theorem serves_ignore : Serves (σ := σ) ignore := fun _ user _ _ => ⟨(user, 0), Prog.returns_pure.mpr rfl⟩

/-- When nothing fails, the loop goes from a line to the next one. -/
theorem Read.loop_line {x : σ × ℤ} (hr : Read acc B rest s t r past buf) (h : Held acc B rest s)
    (hne : acc ++ untilNul t ≠ []) (hg : ¬ GoesOn B acc t past)
    (hx : Prog.Returns (Prog.iterate (fileEachLinePass noFailure ignore) s) x) :
    Prog.Returns (Prog.iterate (fileEachLinePass noFailure ignore)
      ⟨buf, B, 0, { s.stream with rest := r, eof := past }, s.user⟩) x := by
  have hpass := hr.pass_line noFailure ignore h hne hg
  refine (Prog.returns_iterate_next ?_).mp hx
  rw [hpass, Prog.returns_bind]
  exact ⟨(s.user, 0), Prog.returns_pure.mpr rfl, by simp⟩

theorem Read.loop_full {x : σ × ℤ} (hr : Read acc B rest s t r past buf) (h : Held acc B rest s)
    (hg : GoesOn B acc t past) (hB : 2 * B < 2 ^ 32)
    (hx : Prog.Returns (Prog.iterate (fileEachLinePass noFailure ignore) s) x) :
    Prog.Returns (Prog.iterate (fileEachLinePass noFailure ignore)
      ⟨buf.realloc (2 * B), 2 * B, (acc ++ t).length, { s.stream with rest := r, eof := past }, s.user⟩) x := by
  have hroom := h.room
  have hu : u32 (B * 2) = 2 * B := by
    rw [u32_of_lt (by omega)]
    omega
  have hpass := hr.pass_full noFailure ignore h hg
  rw [hu, if_neg (by omega), if_pos rfl] at hpass
  refine (Prog.returns_iterate_next ?_).mp hx
  rw [hpass]
  exact Prog.returns_pure.mpr rfl

/-- In a buffer of `2 ^ 31` bytes or more nothing more can be read without a call that is not defined. -/
theorem loop_too_large {x : σ × ℤ} (h : Held acc B rest s) (hB : 2 ^ 31 ≤ B) (hne : rest ≠ []) :
    ¬ Prog.Returns (Prog.iterate (fileEachLinePass noFailure ignore) s) x := by
  intro hx
  by_cases hn : B - acc.length < 2 ^ 31
  · obtain ⟨t, r, past, buf, hr⟩ := h.read hn hne
    by_cases hg : GoesOn B acc t past
    · have hlen := hg.2.2.2
      have hroom := h.room
      have hbound := h.bound
      have hpass := hr.pass_full noFailure ignore h hg
      by_cases h0 : u32 (B * 2) = 0
      · rw [if_pos h0] at hpass
        have hno : ∀ q, ¬ Prog.Returns (fileEachLinePass noFailure ignore s) q := by
          intro q hq
          rw [hpass] at hq
          exact Prog.returns_abort hq
        exact loop_undefined hno hx
      · rw [if_neg h0, if_pos rfl] at hpass
        rw [Prog.returns_iterate_next (by rw [hpass]; exact Prog.returns_pure.mpr rfl)] at hx
        -- the buffer has become smaller than the line it holds
        refine loop_undefined (pass_undefined ?_) hx
        have harg : u32 (u32 (B * 2) + 2 ^ 32 - (acc ++ t).length) = u32 (B + 1) := by
          rw [List.length_append]
          simp only [u32]
          omega
        rw [fgets, if_pos]
        rw [harg, u32]
        omega
    · by_cases hline : acc ++ untilNul t = []
      · obtain ⟨rfl, -⟩ := List.append_eq_nil_iff.mp hline
        rw [List.length_nil] at hn
        omega
      · exact (hr.next_line h s.user).no_result (by simpa using hB) (hr.loop_line h hline hg hx)
  · exact h.no_result (by omega) hx

/-- A file on which the loop ends when nothing fails is readable. -/
theorem loop_readable {x : σ × ℤ} (h : Held acc B rest s) (hB : B < 2 ^ 31)
    (hx : Prog.Returns (Prog.iterate (fileEachLinePass noFailure ignore) s) x) :
    Readable B acc.length false rest := by
  induction hr : rest.length using Nat.strongRecOn generalizing acc B rest s with
  | _ n ih =>
      subst hr
      rcases eq_or_ne rest [] with rfl | hne
      · trivial
      · obtain ⟨t, r, past, buf, hr⟩ := h.read (by omega) hne
        have hshort : r.length < rest.length := by
          rw [← hr.append, List.length_append]
          have := List.length_pos_of_ne_nil hr.ne_nil
          omega
        have hfirst : acc.length = 0 → t.head? ≠ some 0 := by
          intro hacc ht
          have hno : ∀ q, ¬ Prog.Returns (fileEachLinePass noFailure ignore s) q := by
            intro q hq
            rw [hr.pass_nul h (List.eq_nil_of_length_eq_zero hacc) ht] at hq
            exact Prog.returns_abort hq
          exact loop_undefined hno hx
        refine hr.readable.mpr ⟨hfirst, ?_⟩
        by_cases hg : GoesOn B acc t past
        · have hB' : 2 * B < 2 ^ 32 := by omega
          have hnext := hr.next_full h hg hB'
          have hx' := hr.loop_full h hg hB' hx
          have hlen := hg.2.2.2
          have hsum : (acc ++ t).length = acc.length + t.length := List.length_append
          rw [Read.after_full hg, GrowsOver]
          rcases eq_or_ne r [] with rfl | hrne
          · rw [if_pos rfl]
            refine ⟨fun e => ?_, trivial⟩
            exact hnext.no_result (by omega) hx'
          · rw [if_neg hrne]
            have hsmall : 2 * B < 2 ^ 31 := by
              by_contra hlarge
              exact loop_too_large hnext (by omega) hrne hx'
            exact ⟨hsmall, ih r.length hshort hnext hsmall hx' rfl⟩
        · rw [hr.after_line hg]
          have hline := hr.line_ne_nil fun e => hfirst (by rw [e]; rfl)
          exact ih r.length hshort (hr.next_line h s.user) hB (hr.loop_line h hline hg hx) rfl

/-- The loop at the beginning of any file. -/
theorem held_start {content : List Byte} {lineMax : ℕ} (hmax : 2 ≤ lineMax) (hint : lineMax < 2 ^ 31) (user : σ) :
    Held [] lineMax content
      ⟨Block.null.realloc lineMax, u32 lineMax, 0, { rest := content }, user⟩ :=
  { size := Block.size_realloc, bufSize := u32_of_lt (by omega), len := rfl, has := Block.has_nil
    unread := rfl, broken := rfl, eof := fun _ => rfl, room := by simpa using hmax
    bound := by omega, plain := by simp, noNul := by simp }

theorem fileEachLine_returns {content : List Byte} {lineMax : ℕ} (hmax : 2 ≤ lineMax) (hint : lineMax < 2 ^ 31)
    (hread : Readable lineMax 0 false content) (hcb : Serves cb) (alloc : ℕ → Bool) (user : σ) :
    ∃ x, Prog.Returns (fileEachLine alloc cb lineMax (some { rest := content }) user) x := by
  unfold fileEachLine
  by_cases ha : alloc lineMax = true
  · simp only [ha, if_true]
    exact loop_returns hcb (held_start hmax hint user) (by simpa using hint) (fun _ => hint) hread
  · simp only [ha]
    exact ⟨_, Prog.returns_pure.mpr rfl⟩

theorem readable_of_returns {content : List Byte} {lineMax : ℕ} {user : σ} {x : σ × ℤ} (hmax : 2 ≤ lineMax)
    (hint : lineMax < 2 ^ 31)
    (hx : Prog.Returns (fileEachLine noFailure ignore lineMax (some { rest := content }) user) x) :
    Readable lineMax 0 false content := by
  simp only [fileEachLine, if_true] at hx
  exact loop_readable (held_start hmax hint user) hint hx

end Libls.FileLines
