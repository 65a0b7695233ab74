import Mathlib.Tactic
import Libls.FileLines

/-! # Which files `file_each_line` reads line by line

The buffer starts with `LINE_MAX` bytes and is doubled while a line does not fit.  Two things can
go wrong: a line can be so long that the sizes leave the range of `int`, and a last line without
newline can fill the buffer exactly.  In the second case `fgets` has not yet tried to read past
the end of the file, so the code asks for the rest of a line that has no rest, and drops it.

`Delivers lineMax lines` excludes the two.  `fileEachLine_eachLine` says that the callback then
gets the lines one by one, and `fileEachLine_iff` that it gets them in no other case. -/

namespace Libls.FileLines

/-! ### The C library -/

theorem fgetsBytes_spec : ∀ (k : ℕ) (rest : List Byte), ∃ s r past,
    fgetsBytes k rest = (s, r, past) ∧ s ++ r = rest ∧ s.length ≤ k ∧
      ((past = false ∧ ∃ t, s = t ++ [newline] ∧ newline ∉ t) ∨
        (past = false ∧ s.length = k ∧ newline ∉ s) ∨
        (past = true ∧ s.length < k ∧ r = [] ∧ newline ∉ s))
  | 0, rest => ⟨[], rest, false, rfl, rfl, Nat.le_refl _, .inr (.inl ⟨rfl, rfl, by simp⟩)⟩
  | k + 1, [] => ⟨[], [], true, rfl, rfl, Nat.zero_le _, .inr (.inr ⟨rfl, Nat.succ_pos k, rfl, by simp⟩)⟩
  | k + 1, c :: rest => by
      by_cases hc : c = newline
      · refine ⟨[c], rest, false, by simp [fgetsBytes, hc], rfl, by simp, .inl ⟨rfl, [], ?_, by simp⟩⟩
        rw [hc]
        rfl
      · obtain ⟨s, r, past, e, hs, hlen, hcase⟩ := fgetsBytes_spec k rest
        refine ⟨c :: s, r, past, by simp [fgetsBytes, hc, e], by simp [hs], by simpa using hlen, ?_⟩
        rcases hcase with ⟨hp, t, rfl, ht⟩ | ⟨hp, hk, hn⟩ | ⟨hp, hk, hr, hn⟩
        · exact .inl ⟨hp, c :: t, rfl, by simp [Ne.symm hc, ht]⟩
        · exact .inr (.inl ⟨hp, by simp [hk], by simp [Ne.symm hc, hn]⟩)
        · exact .inr (.inr ⟨hp, by simpa using hk, hr, by simp [Ne.symm hc, hn]⟩)

theorem strlenFrom_spec {buf : Block Byte} {s : List Byte} {i n : ℕ} (h : buf.Has i (s ++ [0]))
    (hs : (0 : Byte) ∉ s) (hn : s.length < n) : strlenFrom buf i n = some s.length := by
  induction s generalizing i n with
  | nil =>
      obtain ⟨m, rfl⟩ := Nat.exists_eq_succ_of_ne_zero (Nat.ne_of_gt hn)
      have := (Block.has_cons.mp h).1
      simp [strlenFrom, this]
  | cons c s ih =>
      obtain ⟨m, rfl⟩ := Nat.exists_eq_succ_of_ne_zero (Nat.ne_of_gt (Nat.zero_lt_of_lt hn))
      rw [List.mem_cons, not_or] at hs
      obtain ⟨hc, h⟩ := Block.has_cons.mp h
      have := ih h hs.2 (Nat.lt_of_succ_lt_succ hn)
      simp [strlenFrom, hc, Ne.symm hs.1, this]

/-! ### Which texts are delivered -/

/-- Some doubling of the buffer holds every line, and its size is an `int`. -/
def Fits (bufSize : ℕ) (lines : List (List Byte)) : Prop :=
  ∃ j, bufSize * 2 ^ j < 2 ^ 31 ∧ ∀ l ∈ lines, l.length < bufSize * 2 ^ j

/-- The last line has no newline and fills the buffer that it is read into. -/
def Exact (bufSize : ℕ) (lines : List (List Byte)) : Prop :=
  ∃ i earlier last, lines = earlier ++ [last] ∧ newline ∉ last ∧
    last.length + 1 = bufSize * 2 ^ i ∧ ∀ l ∈ earlier, l.length < bufSize * 2 ^ i

/-- The texts that are delivered line by line, starting with a buffer of `bufSize` bytes. -/
def Delivers (bufSize : ℕ) (lines : List (List Byte)) : Prop :=
  Fits bufSize lines ∧ ¬ Exact bufSize lines

variable {B : ℕ} {l : List Byte} {ls : List (List Byte)}

theorem le_doubled (B j : ℕ) : B ≤ B * 2 ^ j := Nat.le_mul_of_pos_right B (Nat.two_pow_pos j)

theorem Fits.lt (h : Fits B ls) : B < 2 ^ 31 := by
  obtain ⟨j, hj, -⟩ := h
  exact lt_of_le_of_lt (le_doubled B j) hj

theorem Fits.tail (h : Fits B (l :: ls)) : Fits B ls := by
  obtain ⟨j, hj, hall⟩ := h
  exact ⟨j, hj, fun l' hl' => hall l' (List.mem_cons_of_mem l hl')⟩

theorem Delivers.lt (h : Delivers B ls) : B < 2 ^ 31 := h.1.lt

theorem delivers_nil : Delivers B [] ↔ B < 2 ^ 31 := by
  refine ⟨Delivers.lt, fun h => ⟨⟨0, by simpa using h, nofun⟩, ?_⟩⟩
  rintro ⟨i, earlier, last, e, -⟩
  simp at e

/-- A line with a newline that fits into the buffer changes nothing. -/
theorem delivers_cons (hl : newline ∈ l) (hlt : l.length < B) :
    Delivers B (l :: ls) ↔ Delivers B ls := by
  have hB : ∀ j, l.length < B * 2 ^ j := fun j => lt_of_lt_of_le hlt (le_doubled B j)
  refine and_congr (exists_congr fun j => and_congr_right fun _ => ?_) (not_congr ?_)
  · simp [hB]
  · constructor
    · rintro ⟨i, earlier, last, e, hlast, hlen, hall⟩
      cases earlier with
      | nil =>
          cases e
          exact absurd hl hlast
      | cons a earlier =>
          cases e
          exact ⟨i, earlier, last, rfl, hlast, hlen, fun k hk => hall k (by simp [hk])⟩
    · rintro ⟨i, earlier, last, rfl, hlast, hlen, hall⟩
      refine ⟨i, l :: earlier, last, rfl, hlast, hlen, fun k hk => ?_⟩
      rcases List.mem_cons.mp hk with rfl | hk
      · exact hB i
      · exact hall k hk

/-- A last line without a newline that leaves room in the buffer. -/
theorem delivers_last (hlt : l.length + 1 < B) : Delivers B [l] ↔ B < 2 ^ 31 := by
  refine ⟨Delivers.lt, fun h => ⟨⟨0, by simpa using h, ?_⟩, ?_⟩⟩
  · simp
    omega
  · rintro ⟨i, earlier, last, e, -, hlen, -⟩
    cases earlier with
    | nil =>
        cases e
        have := le_doubled B i
        omega
    | cons a earlier => simp at e

/-- A last line without a newline that fills the buffer. -/
theorem not_delivers_exact (hl : newline ∉ l) (hlen : l.length + 1 = B) : ¬ Delivers B [l] :=
  fun h => h.2 ⟨0, [], l, rfl, hl, by simpa using hlen, nofun⟩

/-- A line that does not fit needs a larger buffer. -/
theorem fits_double (hlt : B ≤ l.length) : Fits B (l :: ls) ↔ Fits (2 * B) (l :: ls) := by
  have hd : ∀ j, 2 * B * 2 ^ j = B * 2 ^ (j + 1) := fun j => by ring
  constructor
  · rintro ⟨j, hj, hall⟩
    cases j with
    | zero =>
        have := hall l (by simp)
        omega
    | succ j => exact ⟨j, by rwa [hd], by simpa only [hd] using hall⟩
  · rintro ⟨j, hj, hall⟩
    exact ⟨j + 1, by rwa [← hd], by simpa only [← hd] using hall⟩

/-- A line that does not fit makes the buffer grow. -/
theorem delivers_double (hlt : B ≤ l.length) :
    Delivers B (l :: ls) ↔ Delivers (2 * B) (l :: ls) := by
  have hd : ∀ j, 2 * B * 2 ^ j = B * 2 ^ (j + 1) := fun j => by ring
  refine and_congr (fits_double hlt) (not_congr ?_)
  constructor
  · rintro ⟨i, earlier, last, e, hlast, hlen, hall⟩
    cases i with
    | zero =>
        cases earlier with
        | nil =>
            cases e
            omega
        | cons a earlier =>
            cases e
            have := hall l (by simp)
            omega
    | succ i => exact ⟨i, earlier, last, e, hlast, by rwa [hd], by simpa only [hd] using hall⟩
  · rintro ⟨i, earlier, last, e, hlast, hlen, hall⟩
    exact ⟨i + 1, earlier, last, e, hlast, by rwa [← hd], by simpa only [← hd] using hall⟩

/-! ### One pass of the loop -/

variable {σ : Type} {acc rest line : List Byte} {user : σ} {s : LineLoop σ}

/-- The loop has read `acc`, the beginning of a line, into a buffer of `B` bytes, and `rest` is
still in the file. -/
structure At (acc : List Byte) (B : ℕ) (rest : List Byte) (user : σ) (s : LineLoop σ) : Prop where
  size : s.buf.size = B
  bufSize : s.bufSize = B
  len : s.len = acc.length
  has : s.buf.Has 0 acc
  unread : s.stream.rest = rest
  broken : s.stream.broken = false
  error : s.stream.error = false
  eof : rest ≠ [] → s.stream.eof = false
  cbState : s.user = user
  room : acc.length + 2 ≤ B
  bound : B < 2 ^ 32
  doubled : acc = [] ∨ B = 2 * (acc.length + 1)
  plain : newline ∉ acc
  noNul : (0 : Byte) ∉ rest

theorem At.size_arg (h : At acc B rest user s) : u32 (s.bufSize + 2 ^ 32 - s.len) = B - acc.length := by
  have := h.room
  have := h.bound
  rw [h.bufSize, h.len, u32]
  omega

/-- At the end of the file `fgets` returns the null pointer. -/
theorem At.fgets_end (h : At acc B [] user s) (hn : B - acc.length < 2 ^ 31) :
    ∃ stream, stream.error = false ∧
      fgets s.buf s.len (u32 (s.bufSize + 2 ^ 32 - s.len)) s.stream = some (none, stream) := by
  have hroom := h.room
  obtain ⟨k, hk⟩ : ∃ k, B - acc.length - 1 = k + 1 := ⟨B - acc.length - 2, by omega⟩
  have hpos : ¬ (B - acc.length = 0 ∨ 2 ^ 31 ≤ B - acc.length) := by omega
  refine ⟨{ s.stream with eof := true }, h.error, ?_⟩
  rw [h.size_arg, fgets, if_neg hpos, hk, h.unread]
  simp [fgetsBytes, h.broken, h.unread]

/-- A size that is not an `int`. -/
theorem At.fgets_undefined (h : At acc B rest user s) (hn : 2 ^ 31 ≤ B - acc.length) :
    fgets s.buf s.len (u32 (s.bufSize + 2 ^ 32 - s.len)) s.stream = none := by
  rw [h.size_arg, fgets, if_pos (.inr hn)]

/-- What `fgets` and `strlen` do in the middle of the file. -/
theorem At.fgets_more (h : At acc B rest user s) (hn : B - acc.length < 2 ^ 31) (hne : rest ≠ []) :
    ∃ t r past buf, t ++ r = rest ∧ t ≠ [] ∧ acc.length + t.length < B ∧
      fgets s.buf s.len (u32 (s.bufSize + 2 ^ 32 - s.len)) s.stream =
        some (some buf, { s.stream with rest := r, eof := past }) ∧
      buf.size = B ∧ buf.Has 0 (acc ++ t) ∧ strlen buf s.len = some t.length ∧
      ((past = false ∧ ∃ x, t = x ++ [newline] ∧ newline ∉ x) ∨
        (past = false ∧ acc.length + t.length + 1 = B ∧ newline ∉ t) ∨
        (past = true ∧ acc.length + t.length + 1 < B ∧ r = [] ∧ newline ∉ t)) := by
  have hroom := h.room
  have hpos : ¬ (B - acc.length = 0 ∨ 2 ^ 31 ≤ B - acc.length) := by omega
  obtain ⟨t, r, past, e, htr, hlen, hcase⟩ := fgetsBytes_spec (B - acc.length - 1) rest
  have ht : t ≠ [] := by
    rintro rfl
    rcases hcase with ⟨-, x, hx, -⟩ | ⟨-, hk, -⟩ | ⟨-, -, rfl, -⟩
    · simp at hx
    · simp at hk
      omega
    · exact hne htr.symm
  have hnul : (0 : Byte) ∉ t := fun hm => h.noNul (htr ▸ List.mem_append_left r hm)
  have hfit : acc.length + (t ++ [0]).length ≤ s.buf.size := by
    rw [List.length_append, h.size, List.length_singleton]
    omega
  obtain ⟨buf, hbuf, hsz, hhas, hrd⟩ := Block.writeList_of_le hfit
  refine ⟨t, r, past, buf, htr, ht, by omega, ?_, hsz.trans h.size, ?_, ?_, ?_⟩
  · rw [h.size_arg, fgets, if_neg hpos, h.unread, e]
    simp [h.broken, ht, h.len, hbuf, h.eof hne]
  · rw [Block.has_append]
    refine ⟨h.has.congr fun j _ hj => hrd j (.inl (by omega)), ?_⟩
    rw [Nat.zero_add]
    exact (Block.has_append.mp hhas).1
  · rw [h.len]
    exact strlenFrom_spec hhas hnul (by rw [hsz, h.size]; omega)
  · rcases hcase with hc | ⟨hp, hk, hx⟩ | ⟨hp, hk, hr, hx⟩
    · exact .inl hc
    · exact .inr (.inl ⟨hp, by omega, hx⟩)
    · exact .inr (.inr ⟨hp, by omega, hr, hx⟩)

/-- The test for a line that does not fit. -/
theorem bufferFull_spec {buf : Block Byte} {stream : Stream} {x : List Byte} {c : Byte}
    (hhas : buf.Has 0 (x ++ [c])) (hlt : x.length + 1 < B) (hB : B < 2 ^ 32) :
    bufferFull buf B (x ++ [c]).length stream =
      some (c != newline && x.length + 2 == B && !stream.eof) := by
  have h1 : u32 ((x ++ [c]).length + 2 ^ 32 - 1) = 0 + x.length := by
    rw [List.length_append, List.length_singleton, u32]
    omega
  have h2 : u32 (B + 2 ^ 32 - 1) = B - 1 := by
    rw [u32]
    omega
  have hc : buf.read (0 + x.length) = some c := (Block.has_cons.mp (Block.has_append.mp hhas).2).1
  have h3 : ((x ++ [c]).length == B - 1) = (x.length + 2 == B) := by
    rw [List.length_append, List.length_singleton, Bool.eq_iff_iff, beq_iff_eq, beq_iff_eq]
    omega
  simp only [bufferFull, h1, h2, hc, Option.bind_eq_bind, Option.bind_some]
  rw [h3]
  rfl

/-- The test after `t` has been read, and the length then. -/
theorem At.fullTest (h : At acc B rest user s) {t : List Byte} {buf : Block Byte} (stream : Stream) (ht : t ≠ [])
    (hlt : acc.length + t.length < B) (hhas : buf.Has 0 (acc ++ t)) :
    u32 (s.len + t.length) = (acc ++ t).length ∧ ∃ x c, t = x ++ [c] ∧
      bufferFull buf B (acc ++ t).length stream =
        some (c != newline && acc.length + t.length + 1 == B && !stream.eof) := by
  have hbound := h.bound
  refine ⟨?_, ?_⟩
  · rw [h.len, List.length_append, u32_of_lt (by omega)]
  · obtain ⟨x, c, rfl⟩ : ∃ x c, t = x ++ [c] := ⟨_, _, (List.dropLast_append_getLast ht).symm⟩
    refine ⟨x, c, rfl, ?_⟩
    rw [List.length_append, List.length_singleton] at hlt
    rw [← List.append_assoc] at hhas ⊢
    rw [bufferFull_spec hhas (by rw [List.length_append]; omega) hbound]
    simp only [List.length_append, List.length_singleton, Nat.add_assoc, Nat.reduceAdd]

variable {cb : List Byte → ℕ → σ → Prog (σ × ℤ)}

/-- No allocation fails. -/
abbrev noFailure : ℕ → Bool := fun _ => true

/-- A pass that hands a line over. -/
theorem At.pass_line (cb : List Byte → ℕ → σ → Prog (σ × ℤ)) (h : At acc B rest user s)
    {t r : List Byte} {past : Bool} {buf : Block Byte}
    (htr : t ++ r = rest) (ht : t ≠ []) (hlt : acc.length + t.length < B)
    (hget : fgets s.buf s.len (u32 (s.bufSize + 2 ^ 32 - s.len)) s.stream =
      some (some buf, { s.stream with rest := r, eof := past }))
    (hsz : buf.size = B) (hhas : buf.Has 0 (acc ++ t)) (hlen : strlen buf s.len = some t.length)
    (hend : (past = false ∧ ∃ x, t = x ++ [newline] ∧ newline ∉ x) ∨
      (past = true ∧ acc.length + t.length + 1 < B ∧ r = [] ∧ newline ∉ t)) :
    (∀ u : σ, At [] B r u ⟨buf, B, 0, { s.stream with rest := r, eof := past }, u⟩) ∧
      ∀ q, Prog.Returns (fileEachLinePass noFailure cb s) q ↔
        ∃ u ret, Prog.Returns (cb (acc ++ t) (acc ++ t).length user) (u, ret) ∧
          q = if ret ≠ 0 then .done (u, -1)
            else .next ⟨buf, B, 0, { s.stream with rest := r, eof := past }, u⟩ := by
  have hroom := h.room
  have hbound := h.bound
  obtain ⟨hu, x, c, hxc, htest⟩ := h.fullTest { s.stream with rest := r, eof := past } ht hlt hhas
  have hfull : bufferFull buf B (acc ++ t).length { s.stream with rest := r, eof := past } =
      some false := by
    rw [htest]
    rcases hend with ⟨-, y, hy, -⟩ | ⟨hp, -⟩
    · obtain ⟨-, rfl⟩ := List.append_inj' (hxc.symm.trans hy) rfl |>.imp_right List.singleton_inj.mp
      simp
    · simp [hp]
  refine ⟨fun u => ?_, fun q => ?_⟩
  · refine
      { size := hsz, bufSize := rfl, len := rfl, has := Block.has_nil, unread := rfl
        broken := h.broken, error := h.error, cbState := rfl, bound := hbound, doubled := .inl rfl
        eof := fun hr => ?_
        room := by rw [List.length_nil]; omega
        plain := by simp
        noNul := fun hm => h.noNul (htr ▸ List.mem_append_right t hm) }
    rcases hend with ⟨hp, -⟩ | ⟨-, -, hr', -⟩
    · exact hp
    · exact absurd hr' hr
  · have hread : buf.readList 0 (acc ++ t).length = some (acc ++ t) := hhas.readList
    have hbs : s.bufSize = B := h.bufSize
    unfold fileEachLinePass
    rw [hget, Prog.lift_bind]
    simp only [hlen, Prog.lift_bind, hu, hbs, hfull, hread, h.cbState, Prog.returns_bind,
      Bool.false_eq_true, if_false]
    constructor
    · rintro ⟨⟨u, ret⟩, hcb, hq⟩
      refine ⟨u, ret, hcb, ?_⟩
      split at hq
      · rw [if_pos ‹_›]
        exact (Prog.returns_pure.mp hq).symm
      · rw [if_neg ‹_›]
        exact (Prog.returns_pure.mp hq).symm
    · rintro ⟨u, ret, hcb, rfl⟩
      refine ⟨(u, ret), hcb, ?_⟩
      dsimp only
      split
      · exact Prog.returns_pure.mpr rfl
      · exact Prog.returns_pure.mpr rfl

/-- The end of the file ends the loop. -/
theorem At.pass_end (h : At acc B [] user s) (hn : B - acc.length < 2 ^ 31) :
    Prog.Returns (fileEachLinePass noFailure cb s) (.done (user, 0)) := by
  obtain ⟨stream, herr, hget⟩ := h.fgets_end hn
  unfold fileEachLinePass
  rw [hget, Prog.lift_bind]
  simp [herr, h.cbState]

/-- A pass without a valid call of `fgets` has no result. -/
theorem pass_undefined
    (hget : fgets s.buf s.len (u32 (s.bufSize + 2 ^ 32 - s.len)) s.stream = none)
    (q : Iter (LineLoop σ) (σ × ℤ)) : ¬ Prog.Returns (fileEachLinePass noFailure cb s) q := by
  intro hr
  unfold fileEachLinePass at hr
  rw [hget, Prog.returns_bind] at hr
  obtain ⟨a, ha, -⟩ := hr
  rw [Prog.returns_lift] at ha
  cases ha

theorem loop_undefined {x : σ × ℤ} (h : ∀ q, ¬ Prog.Returns (fileEachLinePass noFailure cb s) q) :
    ¬ Prog.Returns (Prog.iterate (fileEachLinePass noFailure cb) s) x := by
  intro hr
  rcases Prog.returns_iterate.mp hr with hd | ⟨s', hn, -⟩
  · exact h _ hd
  · exact h _ hn

/-- A pass that finds the buffer full. -/
theorem At.pass_full (cb : List Byte → ℕ → σ → Prog (σ × ℤ)) (h : At acc B rest user s)
    {t r : List Byte} {buf : Block Byte}
    (htr : t ++ r = rest) (ht : t ≠ []) (hlt : acc.length + t.length + 1 = B) (hnl : newline ∉ t)
    (hget : fgets s.buf s.len (u32 (s.bufSize + 2 ^ 32 - s.len)) s.stream =
      some (some buf, { s.stream with rest := r, eof := false }))
    (hsz : buf.size = B) (hhas : buf.Has 0 (acc ++ t)) (hlen : strlen buf s.len = some t.length) :
    (B < 2 ^ 31 → ∃ s', Prog.Returns (fileEachLinePass noFailure cb s) (.next s') ∧
      At (acc ++ t) (2 * B) r user s') ∧
    (2 ^ 31 ≤ B → ∀ x, ¬ Prog.Returns (Prog.iterate (fileEachLinePass noFailure cb) s) x) := by
  have hbound := h.bound
  have hroom := h.room
  obtain ⟨hu, x, c, hxc, htest⟩ := h.fullTest { s.stream with rest := r, eof := false } ht (by omega) hhas
  have hfull : bufferFull buf B (acc ++ t).length { s.stream with rest := r, eof := false } =
      some true := by
    have hc : c ≠ newline := by
      rintro rfl
      rw [hxc] at hnl
      simp at hnl
    rw [htest]
    simp [hc, hlt]
  have hpass : fileEachLinePass noFailure cb s =
      if u32 (B * 2) = 0 then Prog.abort
      else pure (.next ⟨buf.realloc (u32 (B * 2)), u32 (B * 2), (acc ++ t).length,
        { s.stream with rest := r, eof := false }, user⟩) := by
    unfold fileEachLinePass
    rw [hget, Prog.lift_bind]
    simp only [hlen, Prog.lift_bind, hu, h.bufSize, hfull, h.cbState, if_true]
  constructor
  · intro hB
    have hu2 : u32 (B * 2) = 2 * B := by
      rw [u32_of_lt (by omega)]
      omega
    rw [hu2, if_neg (by omega)] at hpass
    refine ⟨_, by rw [hpass]; exact Prog.returns_pure.mpr rfl, ?_⟩
    have hlen' : (acc ++ t).length = acc.length + t.length := List.length_append
    refine
      { size := Block.size_realloc, bufSize := rfl, len := rfl, unread := rfl
        broken := h.broken, error := h.error, cbState := rfl
        has := hhas.congr fun j _ hj => Block.read_realloc (by omega)
        eof := fun _ => rfl
        room := by omega
        bound := by omega
        doubled := .inr (by omega)
        plain := fun hm => ?_
        noNul := fun hm => h.noNul (htr ▸ List.mem_append_right t hm) }
    rcases List.mem_append.mp hm with hm | hm
    · exact h.plain hm
    · exact hnl hm
  · intro hB x
    by_cases h0 : u32 (B * 2) = 0
    · rw [if_pos h0] at hpass
      refine loop_undefined fun q hr => ?_
      rw [hpass] at hr
      exact Prog.returns_abort hr
    · rw [if_neg h0] at hpass
      rw [Prog.returns_iterate_next (by rw [hpass]; exact Prog.returns_pure.mpr rfl)]
      -- the buffer has become smaller than the line it holds
      refine loop_undefined (pass_undefined ?_)
      have hlen' : (acc ++ t).length = B - 1 := by
        rw [List.length_append]
        omega
      have harg : u32 (u32 (B * 2) + 2 ^ 32 - (acc ++ t).length) = u32 (B + 1) := by
        rw [hlen']
        simp only [u32]
        omega
      rw [fgets, if_pos]
      rw [harg, u32]
      omega

/-! ### The whole loop -/

/-- The texts that are delivered when `acc` has been read already: a piece that has no rest is
lost. -/
def Continues (acc : List Byte) (B : ℕ) (rest : List Byte) : Prop :=
  (rest = [] → acc = []) ∧ Delivers B (splitLines newline (acc ++ rest))

/-- A line that fits into the buffer. -/
theorem continues_line {r : List Byte} (hlt : line.length < B)
    (hline : (∃ x, line = x ++ [newline] ∧ newline ∉ x) ∨
      newline ∉ line ∧ line ≠ [] ∧ r = [] ∧ line.length + 1 < B) :
    splitLines newline (line ++ r) = line :: splitLines newline r ∧
      (Delivers B (splitLines newline (line ++ r)) ↔ Continues [] B r) := by
  have hc : Continues [] B r ↔ Delivers B (splitLines newline r) := by simp [Continues]
  rw [hc]
  rcases hline with ⟨x, rfl, hx⟩ | ⟨hx, hne, rfl, hlt'⟩
  · have e : splitLines newline (x ++ [newline] ++ r) = (x ++ [newline]) :: splitLines newline r := by
      rw [List.append_assoc]
      exact splitLines_line hx
    rw [e]
    exact ⟨rfl, delivers_cons (by simp) hlt⟩
  · rw [List.append_nil, splitLines_last hx hne]
    exact ⟨rfl, (delivers_last hlt').trans delivers_nil.symm⟩

/-- A piece at the beginning of a line that goes on. -/
theorem splitLines_longer {r : List Byte} (hx : newline ∉ line) (hr : r ≠ []) :
    ∃ l ls, splitLines newline (line ++ r) = l :: ls ∧ line.length < l.length := by
  obtain ⟨l, ls, e⟩ : ∃ l ls, splitLines newline r = l :: ls := by
    cases e : splitLines newline r with
    | nil => exact absurd (splitLines_eq_nil.mp e) hr
    | cons l ls => exact ⟨l, ls, rfl⟩
  have hl : l ≠ [] := by
    rintro rfl
    exact nil_notMem_splitLines (e ▸ List.mem_cons_self)
  have hlen : 0 < l.length := List.length_pos_iff.mpr hl
  refine ⟨line ++ l, ls, splitLines_append hx e, ?_⟩
  rw [List.length_append]
  omega

/-- A piece that fills the buffer. -/
theorem continues_full {r : List Byte} (hlt : line.length + 1 = B) (hx : newline ∉ line)
    (hne : line ≠ []) : Delivers B (splitLines newline (line ++ r)) ↔ Continues line (2 * B) r := by
  by_cases hr : r = []
  · subst hr
    rw [List.append_nil, splitLines_last hx hne]
    constructor
    · exact fun h => absurd h (not_delivers_exact hx hlt)
    · exact fun h => absurd (h.1 rfl) hne
  · obtain ⟨l, ls, e, hl⟩ := splitLines_longer hx hr
    have hc : Continues line (2 * B) r ↔ Delivers (2 * B) (splitLines newline (line ++ r)) :=
      and_iff_right fun e => absurd e hr
    rw [hc, e]
    exact delivers_double (by omega)

/-- A pass in the middle of the file hands a line over or makes the buffer grow. -/
theorem At.pass_cases (cb : List Byte → ℕ → σ → Prog (σ × ℤ)) (h : At acc B rest user s)
    (hn : B - acc.length < 2 ^ 31) (hne : rest ≠ []) :
    ∃ line r, line ++ r = acc ++ rest ∧ r.length < rest.length ∧
      ((∃ s' : σ → LineLoop σ, splitLines newline (acc ++ rest) = line :: splitLines newline r ∧
          (Delivers B (splitLines newline (acc ++ rest)) ↔ Continues [] B r) ∧
          (∀ u, At [] B r u (s' u)) ∧
          ∀ q, Prog.Returns (fileEachLinePass noFailure cb s) q ↔
            ∃ u ret, Prog.Returns (cb line line.length user) (u, ret) ∧
              q = if ret ≠ 0 then .done (u, -1) else .next (s' u)) ∨
        (line.length + 1 = B ∧ newline ∉ line ∧
          (Delivers B (splitLines newline (acc ++ rest)) ↔ Continues line (2 * B) r) ∧
          (B < 2 ^ 31 → ∃ s', Prog.Returns (fileEachLinePass noFailure cb s) (.next s') ∧
            At line (2 * B) r user s') ∧
          (2 ^ 31 ≤ B → ∀ x, ¬ Prog.Returns (Prog.iterate (fileEachLinePass noFailure cb) s) x))) := by
  obtain ⟨t, r, past, buf, htr, ht, hlt, hget, hsz, hhas, hlen, hcase⟩ := h.fgets_more hn hne
  have hall : acc ++ rest = (acc ++ t) ++ r := by rw [← htr, List.append_assoc]
  have hshort : r.length < rest.length := by
    have := List.length_pos_iff.mpr ht
    rw [← htr, List.length_append]
    omega
  have happ : (acc ++ t).length = acc.length + t.length := List.length_append
  have hlt' : (acc ++ t).length < B := by omega
  have hplain : newline ∉ t → newline ∉ acc ++ t := fun hx hm =>
    (List.mem_append.mp hm).elim h.plain hx
  -- what is common to the two ways of ending a line
  have hgive : ((past = false ∧ ∃ x, t = x ++ [newline] ∧ newline ∉ x) ∨
      (past = true ∧ acc.length + t.length + 1 < B ∧ r = [] ∧ newline ∉ t)) → _ := fun hend =>
    h.pass_line cb htr ht hlt hget hsz hhas hlen hend
  refine ⟨acc ++ t, r, hall.symm, hshort, ?_⟩
  rw [hall]
  rcases hcase with hend | ⟨rfl, hfl, hx⟩ | hend
  · obtain ⟨hat, hpass⟩ := hgive (.inl hend)
    obtain ⟨-, x, rfl, hx⟩ := hend
    obtain ⟨hsplit, hiff⟩ := continues_line hlt' (.inl ⟨acc ++ x, (List.append_assoc _ _ _).symm,
      fun hm => (List.mem_append.mp hm).elim h.plain hx⟩)
    exact .inl ⟨_, hsplit, hiff, hat, hpass⟩
  · refine .inr ⟨by omega, hplain hx, continues_full (by omega) (hplain hx) (by simp [ht]), ?_⟩
    exact h.pass_full cb htr ht hfl hx hget hsz hhas hlen
  · obtain ⟨hat, hpass⟩ := hgive (.inr hend)
    obtain ⟨-, hl, hr, hx⟩ := hend
    obtain ⟨hsplit, hiff⟩ := continues_line hlt'
      (.inr ⟨hplain hx, by simp [ht], hr, by omega⟩)
    exact .inl ⟨_, hsplit, hiff, hat, hpass⟩

/-- One line after the other, until the callback returns something else than 0. -/
def eachLine (cb : List Byte → ℕ → σ → Prog (σ × ℤ)) : List (List Byte) → σ → Prog (σ × ℤ)
  | [], user => pure (user, 0)
  | line :: lines, user => do
      let (user, ret) ← cb line line.length user
      if ret ≠ 0 then return (user, -1)
      else eachLine cb lines user

/-- The lines that are handed over when `acc` has been read already: a last line that is lost is not
among them. -/
def HandedOver (acc : List Byte) (B : ℕ) (rest : List Byte) (lines : List (List Byte)) : Prop :=
  (Continues acc B rest ∧ lines = splitLines newline (acc ++ rest)) ∨
    (¬ Continues acc B rest ∧ lines = (splitLines newline (acc ++ rest)).dropLast)

/-- A text whose lines fit is handed over line by line.  A buffer of `2 ^ 31 - 1` bytes cannot grow even
to read the end of the file. -/
theorem loop_eachLine {lines : List (List Byte)} (h : At acc B rest user s) (hn : B - acc.length < 2 ^ 31)
    (hfit : rest ≠ [] → Fits B (splitLines newline (acc ++ rest))) (hl : HandedOver acc B rest lines)
    (hmax : Continues acc B rest ∨ B ≠ 2 ^ 31 - 1) {x : σ × ℤ} : Prog.Returns (Prog.iterate (fileEachLinePass noFailure cb) s) x ↔
      Prog.Returns (eachLine cb lines user) x := by
  induction hr : rest.length using Nat.strongRecOn generalizing acc B rest user s lines with
  | _ n ih =>
      subst hr
      by_cases hne : rest = []
      · subst hne
        have hlines : lines = [] := by
          rcases hl with ⟨hc, rfl⟩ | ⟨hc, rfl⟩
          · rw [hc.1 rfl]
            rfl
          · by_cases hacc : acc = []
            · subst hacc
              rfl
            · rw [List.append_nil, splitLines_last h.plain hacc]
              rfl
        rw [hlines, Prog.returns_iterate_done (h.pass_end hn)]
        exact Prog.returns_pure.symm
      · have hB := (hfit hne).lt
        have hcont : Continues acc B rest ↔ Delivers B (splitLines newline (acc ++ rest)) :=
          and_iff_right fun e => absurd e hne
        rw [HandedOver, hcont] at hl
        rw [hcont] at hmax
        obtain ⟨line, r, hall, hshort, hcase⟩ := h.pass_cases cb hn hne
        rcases hcase with ⟨s', hsplit, hiff, hat, hpass⟩ | ⟨hlen, hplain, hiff, hgrow, -⟩
        · obtain ⟨lines', rfl, hl'⟩ : ∃ lines', lines = line :: lines' ∧ HandedOver [] B r lines' := by
            rw [hiff] at hl
            rcases hl with ⟨hc, rfl⟩ | ⟨hc, rfl⟩
            · exact ⟨_, hsplit, .inl ⟨hc, rfl⟩⟩
            · have hrne : splitLines newline r ≠ [] := by
                intro e
                refine hc ⟨fun _ => rfl, ?_⟩
                rw [List.nil_append, e]
                exact delivers_nil.mpr hB
              refine ⟨(splitLines newline r).dropLast, ?_, .inr ⟨hc, rfl⟩⟩
              rw [hsplit, List.dropLast_cons_of_ne_nil hrne]
          have hfit' : Fits B (splitLines newline ([] ++ r)) := by
            have := hfit hne
            rw [hsplit] at this
            exact this.tail
          have ih' : ∀ u, _ := fun u => ih r.length hshort (hat u) (by simpa using hB) (fun _ => hfit') hl'
            (hmax.imp_left hiff.mp) rfl
          rw [eachLine, Prog.returns_iterate, Prog.returns_bind]
          simp only [hpass]
          constructor
          · rintro (⟨u, ret, hcb, hq⟩ | ⟨s'', ⟨u, ret, hcb, hq⟩, hret⟩)
            · refine ⟨(u, ret), hcb, ?_⟩
              split at hq
              · cases hq
                simp [*]
              · cases hq
            · refine ⟨(u, ret), hcb, ?_⟩
              split at hq
              · cases hq
              · cases hq
                simpa [*] using (ih' u).mp hret
          · rintro ⟨⟨u, ret⟩, hcb, hx⟩
            by_cases h0 : ret ≠ 0
            · refine .inl ⟨u, ret, hcb, ?_⟩
              rw [if_pos h0] at hx ⊢
              rw [Prog.returns_pure.mp hx]
            · rw [if_neg h0] at hx
              refine .inr ⟨_, ⟨u, ret, hcb, by rw [if_neg h0]⟩, ?_⟩
              exact (ih' u).mpr hx
        · obtain ⟨s', hs', hat⟩ := hgrow hB
          have hn' : 2 * B - line.length < 2 ^ 31 := by
            rcases hmax with hd | hB1
            · have := (hiff.mp hd).2.lt
              omega
            · omega
          rw [hiff, ← hall] at hl
          rw [Prog.returns_iterate_next hs']
          refine ih r.length hshort hat hn' (fun hrne => ?_) hl (.inr (by omega)) rfl
          obtain ⟨l, ls, e, hl⟩ := splitLines_longer hplain hrne
          have := hfit hne
          rw [← hall, e] at this
          rw [e]
          exact (fits_double (by omega)).mp this

/-- The callback that keeps its arguments. -/
def record (line : List Byte) (len : ℕ) (calls : List (List Byte × ℕ)) :
    Prog (List (List Byte × ℕ) × ℤ) := pure (calls ++ [(line, len)], 0)

/-- The calls that hand over all lines. -/
def callsOf (lines : List (List Byte)) : List (List Byte × ℕ) := lines.map fun l => (l, l.length)

theorem eachLine_record (lines : List (List Byte)) (calls : List (List Byte × ℕ)) :
    Prog.Returns (eachLine record lines calls) (calls ++ callsOf lines, 0) := by
  induction lines generalizing calls with
  | nil => exact Prog.returns_pure.mpr (by simp [callsOf])
  | cons l ls ih =>
      refine Prog.returns_bind.mpr ⟨_, Prog.returns_pure.mpr rfl, ?_⟩
      simpa [callsOf] using ih (calls ++ [(l, l.length)])

/-- A text that is not delivered is not handed over line by line. -/
theorem loop_not_delivers {calls : List (List Byte × ℕ)} {s : LineLoop (List (List Byte × ℕ))}
    (h : At acc B rest calls s) (hc : ¬ Continues acc B rest) :
    ¬ Prog.Returns (Prog.iterate (fileEachLinePass noFailure record) s)
      (calls ++ callsOf (splitLines newline (acc ++ rest)), 0) := by
  induction hr : rest.length using Nat.strongRecOn generalizing acc B rest calls s with
  | _ n ih =>
      subst hr
      by_cases hn : B - acc.length < 2 ^ 31
      · by_cases hne : rest = []
        · subst hne
          rw [Prog.returns_iterate_done (h.pass_end hn), Prod.mk.injEq, List.append_nil]
          rintro ⟨e, -⟩
          have hnil : acc = [] := by
            have := List.append_cancel_left ((List.append_nil calls).trans e)
            simpa [callsOf] using this.symm
          subst hnil
          refine hc ⟨fun _ => rfl, ?_⟩
          exact delivers_nil.mpr (by simpa using hn)
        · obtain ⟨line, r, hall, hshort, hcase⟩ := h.pass_cases record hn hne
          have hd : ¬ Delivers B (splitLines newline (acc ++ rest)) :=
            fun hd => hc ⟨fun e => absurd e hne, hd⟩
          rcases hcase with ⟨s', hsplit, hiff, hat, hpass⟩ | ⟨-, -, hiff, hgrow, hover⟩
          · have hnext := (hpass _).mpr ⟨_, 0, Prog.returns_pure.mpr rfl, rfl⟩
            rw [if_neg (by simp)] at hnext
            rw [Prog.returns_iterate_next hnext, hsplit]
            have := ih r.length hshort (hat (calls ++ [(line, line.length)])) (mt hiff.mpr hd) rfl
            simpa [callsOf] using this
          · by_cases hB : B < 2 ^ 31
            · obtain ⟨s', hs', hat⟩ := hgrow hB
              rw [Prog.returns_iterate_next hs', ← hall]
              exact ih r.length hshort hat (mt hiff.mpr hd) rfl
            · exact hover (by omega) _
      · exact loop_undefined (pass_undefined (h.fgets_undefined (by omega)))

/-- The loop at the beginning of a file. -/
theorem at_start {content : List Byte} {lineMax : ℕ} (hmax : 2 ≤ lineMax) (hbound : lineMax < 2 ^ 32)
    (hnul : (0 : Byte) ∉ content) (user : σ) :
    At [] lineMax content user
      ⟨Block.null.realloc lineMax, u32 lineMax, 0, { rest := content }, user⟩ :=
  { size := Block.size_realloc, bufSize := u32_of_lt hbound, len := rfl, has := Block.has_nil
    unread := rfl, broken := rfl, error := rfl, eof := fun _ => rfl, cbState := rfl
    room := by simpa using hmax, bound := hbound, doubled := .inl rfl, plain := by simp
    noNul := hnul }

/-- What `file_each_line` hands over of a text: a last line without a newline that fills the buffer it
is read into is lost. -/
def HandsOver (B : ℕ) (content text : List Byte) : Prop :=
  (¬ Exact B (splitLines newline content) ∧ text = content) ∨
    (Exact B (splitLines newline content) ∧ B ≠ 2 ^ 31 - 1 ∧
      text = (splitLines newline content).dropLast.flatten)

/-- The text that is handed over is the beginning of the file. -/
theorem HandsOver.append {content text : List Byte} (h : HandsOver B content text) :
    ∃ rest, content = text ++ rest ∧ newline ∉ rest := by
  rcases h with ⟨-, rfl⟩ | ⟨⟨i, earlier, last, hlines, hlast, -⟩, -, rfl⟩
  · exact ⟨[], (List.append_nil _).symm, by simp⟩
  · refine ⟨last, ?_, hlast⟩
    rw [hlines, List.dropLast_concat, ← List.flatten_concat, ← hlines, flatten_splitLines]

/-- `file_each_line` on a text whose lines fit. -/
theorem fileEachLine_handsOver {content text : List Byte} {lineMax : ℕ} (hmax : 2 ≤ lineMax)
    (hnul : (0 : Byte) ∉ content) (hfit : Fits lineMax (splitLines newline content))
    (ht : HandsOver lineMax content text) {x : σ × ℤ} :
    Prog.Returns (fileEachLine noFailure cb lineMax (some { rest := content }) user) x ↔
      Prog.Returns (eachLine cb (splitLines newline text) user) x := by
  have hbound := hfit.lt
  have hcont : Continues [] lineMax content ↔ ¬ Exact lineMax (splitLines newline content) :=
    (and_iff_right fun _ => rfl).trans (and_iff_right hfit)
  obtain ⟨hl, hodd⟩ : HandedOver [] lineMax content (splitLines newline text) ∧
      (Continues [] lineMax content ∨ lineMax ≠ 2 ^ 31 - 1) := by
    rw [HandedOver, hcont, not_not]
    rcases ht with ⟨he, rfl⟩ | ⟨he, hodd, rfl⟩
    · exact ⟨.inl ⟨he, rfl⟩, .inl he⟩
    · exact ⟨.inr ⟨he, splitLines_dropLast content⟩, .inr hodd⟩
  simpa [fileEachLine] using loop_eachLine (at_start hmax (by omega) hnul user) (by simpa using hbound)
    (fun _ => hfit) hl hodd

/-- `file_each_line` on a text that is delivered. -/
theorem fileEachLine_eachLine {content : List Byte} {lineMax : ℕ} (hmax : 2 ≤ lineMax)
    (hnul : (0 : Byte) ∉ content) (hd : Delivers lineMax (splitLines newline content)) {x : σ × ℤ} :
    Prog.Returns (fileEachLine noFailure cb lineMax (some { rest := content }) user) x ↔
      Prog.Returns (eachLine cb (splitLines newline content) user) x :=
  fileEachLine_handsOver hmax hnul hd.1 (.inl ⟨hd.2, rfl⟩)

/-- **Which files are read line by line.**  When nothing fails, the callback gets exactly the
lines of the file, each once and in order, and `file_each_line` returns 0, if and only if some
doubling of the buffer is an `int` and holds every line, and the file does not end, without a
newline, in a line that exactly fills the buffer it is read into. -/
theorem fileEachLine_iff {content : List Byte} {lineMax : ℕ} (hmax : 2 ≤ lineMax)
    (hbound : lineMax < 2 ^ 32) (hnul : (0 : Byte) ∉ content) :
    Prog.Returns (fileEachLine noFailure record lineMax (some { rest := content }) [])
      (callsOf (splitLines newline content), 0) ↔ Delivers lineMax (splitLines newline content) := by
  constructor
  · intro hret
    by_contra hd
    have := loop_not_delivers (at_start hmax hbound hnul []) (fun hc => hd hc.2)
    rw [List.nil_append, List.nil_append] at this
    exact this (by simpa [fileEachLine] using hret)
  · intro hd
    rw [fileEachLine_eachLine hmax hnul hd]
    exact eachLine_record _ []

/-- A text of two lines, the last one without a newline. -/
theorem fileEachLine_iff_two : Prog.Returns
    (fileEachLine noFailure record 2048 (some { rest := [97, 10, 98] }) [])
      ([([97, 10], 2), ([98], 1)], 0) := by
  refine (fileEachLine_iff (by decide) (by decide) (by decide)).mpr ⟨⟨0, by decide, by decide⟩, ?_⟩
  rintro ⟨i, earlier, last, e, -, hlen, -⟩
  have hlast : last = [98] := by
    have := congrArg List.getLast? e
    rw [List.getLast?_concat] at this
    exact (Option.some.inj this).symm
  have := le_doubled 2048 i
  rw [hlast, List.length_singleton] at hlen
  omega

/-- A file of one byte is lost when `LINE_MAX` is 2. -/
theorem fileEachLine_lost :
    Prog.Returns (fileEachLine noFailure record 2 (some { rest := [97] }) []) ([], 0) ∧
      ¬ Prog.Returns (fileEachLine noFailure record 2 (some { rest := [97] }) [])
        (callsOf (splitLines newline [97]), 0) := by
  have h : Prog.Returns (fileEachLine noFailure record 2 (some { rest := [97] }) []) ([], 0) :=
    Prog.Returns.of_run (n := 2) (by decide +kernel)
  exact ⟨h, fun h' => absurd (h.unique h') (by decide)⟩

end Libls.FileLines
