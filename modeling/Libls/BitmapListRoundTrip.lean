import Libls.Library.Ranges
import Libls.BitmapList
import Libls.BitmapShifts

/-! # The list text of a bitmap, and what is parsed back

The printer emits the maximal ranges of the positions that are set, one after the other; the parser adds the
positions of one range after the other. -/

namespace Libls.Bitmaps
open Numerals Printf Ranges Strings WordBits

variable {N buflen n : ℕ} {buf : Block Byte} {before text rest behind : List Byte} {r : ℕ × ℕ} {rs : List (ℕ × ℕ)}

/-- The ranges of a bitmap. -/
def rangesOf (a : Bitmap N) : List (ℕ × ℕ) := ranges a.bit N 0 none

/-- How a range is written. -/
def itemText (r : ℕ × ℕ) : List Byte := if r.1 = r.2 then decText r.1 else decText r.1 ++ dash :: decText r.2

/-- How ranges are written, with `sep` in front of the first one. -/
def listText : List (ℕ × ℕ) → List Byte → List Byte
  | [], _ => []
  | r :: rs, sep => sep ++ itemText r ++ listText rs [comma]

/-- What `bscnl_emit` writes between ranges. -/
def sepAfter (before : List Byte) : List Byte := if before = [] then [] else [comma]

theorem decText_ne_nil : decText n ≠ [] := by
  unfold decText
  rw [ne_eq, List.map_eq_nil_iff]
  exact numeral_ne_nil

theorem itemText_ne_nil : itemText r ≠ [] := by
  unfold itemText
  split
  · exact decText_ne_nil
  · exact List.append_ne_nil_of_left_ne_nil decText_ne_nil _

/-! ### Writing -/

theorem int32_of_lt (h : n < 2 ^ 31) : int32 n = n := by
  unfold int32
  have hmod : ((n : ℤ) % 2 ^ 32).toNat = n := by omega
  rw [hmod, toInt_of_lt h]

theorem int32_neg (h : 2 ^ 31 ≤ n) (hlt : n < 2 ^ 32) : int32 n < 0 := by
  unfold int32 toInt
  have hmod : ((n : ℤ) % 2 ^ 32).toNat = n := by omega
  rw [hmod, if_neg (by omega)]
  omega

/-- What is left of the buffer, as a `size_t`. -/
theorem lt_toSize {len k : ℕ} (hk : len + k < buflen) (hint : buflen < 2 ^ 32) :
    k < toSize (int32 (toInt buflen - len)) := by
  have hmod : ((toInt buflen - len) % 2 ^ 32).toNat = buflen - len := by
    unfold toInt
    split <;> omega
  unfold int32
  rw [hmod]
  unfold toInt toSize
  split <;> omega

/-- The step: one text is put behind those before. -/
theorem put_spec (hlen : before.length < 2 ^ 31) (hroom : (before ++ text).length < buflen)
    (hsize : buflen ≤ buf.size) (hint : buflen < 2 ^ 32) (hbuf : buf.Has 0 before) :
    ∃ buf', put buf (toInt buflen) (int32 before.length) text = some (buf', int32 (before ++ text).length) ∧
      buf'.size = buf.size ∧ buf'.Has 0 (before ++ text ++ [0]) := by
  rw [List.length_append] at hroom
  obtain ⟨buf', hprint, hsize', hbuf'⟩ := scnprintf_append (lt_toSize hroom hint) (by omega) hbuf
  refine ⟨buf', ?_, hsize', hbuf'⟩
  unfold put
  rw [int32_of_lt hlen, if_neg (by omega), Int.toNat_natCast, hprint, List.length_append, Nat.cast_add]
  rfl

/-- The two steps of `bscnl_emit`. -/
theorem bscnlEmit_eq {len : ℤ} : bscnlEmit buf (toInt buflen) r.1 r.2 len =
    (if 0 < len then put buf (toInt buflen) len [comma] else some (buf, len)).bind
      fun p => put p.1 (toInt buflen) p.2 (itemText r) := by
  unfold bscnlEmit itemText
  by_cases hlen : 0 < len
  · rw [if_pos hlen, if_pos hlen]
    split <;> rfl
  · rw [if_neg hlen, if_neg hlen]
    split <;> rfl

/-- The separator is put behind the ranges before. -/
theorem put_sep (hlen : before.length < 2 ^ 31) (hroom : (before ++ sepAfter before).length < buflen)
    (hsize : buflen ≤ buf.size) (hint : buflen < 2 ^ 32) (hbuf : buf.Has 0 before) :
    ∃ buf', (if 0 < int32 before.length then put buf (toInt buflen) (int32 before.length) [comma]
        else some (buf, int32 before.length)) = some (buf', int32 (before ++ sepAfter before).length) ∧
      buf'.size = buf.size ∧ buf'.Has 0 (before ++ sepAfter before) := by
  rw [int32_of_lt hlen]
  unfold sepAfter at hroom ⊢
  cases before with
  | nil => exact ⟨buf, rfl, rfl, hbuf⟩
  | cons c cs =>
      rw [if_neg (List.cons_ne_nil c cs)] at hroom ⊢
      obtain ⟨buf', hput, hsize', hbuf'⟩ := put_spec hlen hroom hsize hint hbuf
      rw [int32_of_lt hlen] at hput
      refine ⟨buf', ?_, hsize', (Block.has_append.mp hbuf').1⟩
      rw [if_pos (by rw [List.length_cons]; omega)]
      exact hput

/-- The step: one range. -/
theorem bscnlEmit_spec (hlen : (before ++ sepAfter before).length < 2 ^ 31)
    (hroom : (before ++ sepAfter before ++ itemText r).length < buflen)
    (hsize : buflen ≤ buf.size) (hint : buflen < 2 ^ 32) (hbuf : buf.Has 0 before) :
    ∃ buf', bscnlEmit buf (toInt buflen) r.1 r.2 (int32 before.length) =
        some (buf', int32 (before ++ sepAfter before ++ itemText r).length) ∧
      buf'.size = buf.size ∧ buf'.Has 0 (before ++ sepAfter before ++ itemText r ++ [0]) := by
  have hlt : before.length < 2 ^ 31 := by
    rw [List.length_append] at hlen
    omega
  have hsep : (before ++ sepAfter before).length < buflen := by
    rw [List.length_append] at hroom
    omega
  obtain ⟨buf₁, hput₁, hsize₁, hbuf₁⟩ := put_sep hlt hsep hsize hint hbuf
  obtain ⟨buf₂, hput₂, hsize₂, hbuf₂⟩ := put_spec hlen hroom (by omega) hint hbuf₁
  refine ⟨buf₂, ?_, hsize₂.trans hsize₁, hbuf₂⟩
  rw [bscnlEmit_eq, hput₁]
  exact hput₂

/-- A range that would start behind the numbers of an `int`. -/
theorem bscnlEmit_none (hlen : 2 ^ 31 ≤ (before ++ sepAfter before).length)
    (hroom : (before ++ sepAfter before).length < buflen)
    (hsize : buflen ≤ buf.size) (hint : buflen < 2 ^ 32) (hbuf : buf.Has 0 before) :
    bscnlEmit buf (toInt buflen) r.1 r.2 (int32 before.length) = none := by
  rw [bscnlEmit_eq]
  rcases Nat.lt_or_ge before.length (2 ^ 31) with hlt | hge
  · obtain ⟨buf₁, hput₁, -, -⟩ := put_sep hlt hroom hsize hint hbuf
    rw [hput₁]
    exact if_pos (int32_neg hlen (by omega))
  · have hneg := int32_neg hge (by rw [List.length_append] at hroom; omega)
    rw [if_neg (by omega)]
    exact if_pos hneg

/-- The ranges that the printer emits. -/
def emitAll (buflen : ℤ) : List (ℕ × ℕ) → Block Byte × ℤ → Option (Block Byte × ℤ)
  | [], p => some p
  | r :: rs, p => do emitAll buflen rs (← bscnlEmit p.1 buflen r.1 r.2 p.2)

/-- Every range starts at an offset that an `int` holds. -/
def Fits : List Byte → List (ℕ × ℕ) → Prop
  | _, [] => True
  | before, r :: rs =>
      (before ++ sepAfter before).length < 2 ^ 31 ∧ Fits (before ++ sepAfter before ++ itemText r) rs

theorem sepAfter_item : sepAfter (before ++ itemText r) = [comma] :=
  if_neg (List.append_ne_nil_of_right_ne_nil _ itemText_ne_nil)

theorem append_listText : before ++ listText (r :: rs) (sepAfter before) =
    before ++ sepAfter before ++ itemText r ++ listText rs (sepAfter (before ++ sepAfter before ++ itemText r)) := by
  rw [sepAfter_item, listText, List.append_assoc, List.append_assoc, List.append_assoc]

/-- **The run**: the ranges one after the other. -/
theorem emitAll_spec (hfits : Fits before rs) (hroom : (before ++ listText rs (sepAfter before)).length < buflen)
    (hsize : buflen ≤ buf.size) (hint : buflen < 2 ^ 32) (hbuf : buf.Has 0 (before ++ [0])) :
    ∃ p, emitAll (toInt buflen) rs (buf, int32 before.length) = some p ∧
      p.1.Has 0 (before ++ listText rs (sepAfter before) ++ [0]) := by
  induction rs generalizing before buf with
  | nil =>
      rw [listText, List.append_nil]
      exact ⟨_, rfl, hbuf⟩
  | cons r rs ih =>
      rw [append_listText] at hroom ⊢
      have hroom₁ : (before ++ sepAfter before ++ itemText r).length < buflen := by
        rw [List.length_append] at hroom
        omega
      obtain ⟨buf₁, hemit, hsize₁, hbuf₁⟩ := bscnlEmit_spec hfits.1 hroom₁ hsize hint (Block.has_append.mp hbuf).1
      obtain ⟨p, hall, hp⟩ := ih hfits.2 hroom (by omega) hbuf₁
      refine ⟨p, ?_, hp⟩
      rw [emitAll, hemit]
      exact hall

theorem emitAll_none (hfits : ¬ Fits before rs)
    (hroom : (before ++ listText rs (sepAfter before)).length < buflen)
    (hsize : buflen ≤ buf.size) (hint : buflen < 2 ^ 32) (hbuf : buf.Has 0 (before ++ [0])) :
    emitAll (toInt buflen) rs (buf, int32 before.length) = none := by
  induction rs generalizing before buf with
  | nil => exact absurd trivial hfits
  | cons r rs ih =>
      have hbefore := (Block.has_append.mp hbuf).1
      rw [append_listText] at hroom
      have hroom₁ : (before ++ sepAfter before ++ itemText r).length < buflen := by
        rw [List.length_append] at hroom
        omega
      rw [emitAll]
      rcases Nat.lt_or_ge (before ++ sepAfter before).length (2 ^ 31) with hlt | hge
      · obtain ⟨buf₁, hemit, hsize₁, hbuf₁⟩ := bscnlEmit_spec hlt hroom₁ hsize hint hbefore
        rw [hemit]
        exact ih (fun h => hfits ⟨hlt, h⟩) hroom (by omega) hbuf₁
      · rw [bscnlEmit_none hge (by rw [List.length_append] at hroom₁; omega) hsize hint hbefore]
        rfl

/-! ### The loop of `bitmap_scnlistprintf` -/

/-- The ranges still to be emitted when the loop is at `cur`, in a range from `rbot` on. -/
def pending (a : Bitmap N) (cur rbot : ℕ) : List (ℕ × ℕ) :=
  if cur < N then ranges a.bit (N - (cur + 1)) (cur + 1) (some rbot) else []

/-- A range that starts at the next position that is set. -/
theorem pending_next {a : Bitmap N} {i c : ℕ} (hi : i ≤ N) (hnext : IsNext a.bit N i c) :
    pending a c c = ranges a.bit (N - i) i none := by
  have hge := hnext.ge hi
  have hle := hnext.le
  have hsplit : N - i = (c - i) + (N - c) := by omega
  have hsum : i + (c - i) = c := by omega
  rw [hsplit, ranges_clear (fun j hj hlt => hnext.clear j hj (by omega)), hsum]
  unfold pending
  rcases Nat.lt_or_ge c N with hlt | hge
  · have hpred : N - c = N - (c + 1) + 1 := by omega
    rw [if_pos hlt, hpred, ranges_start (hnext.set hlt)]
  · have hzero : N - c = 0 := by omega
    rw [if_neg (by omega), hzero]
    rfl

section pass
variable {a : Bitmap N} {bl len : ℤ} {cur rbot c : ℕ}

theorem pending_emit (hlt : cur < N) (hnext : IsNext a.bit N (cur + 1) c) (hemit : N ≤ c ∨ cur + 1 < c) :
    pending a cur rbot = (rbot, cur) :: pending a c c := by
  rw [pending_next (Nat.succ_le_of_lt hlt) hnext]
  unfold pending
  rw [if_pos hlt, ranges_end, Nat.add_sub_cancel]
  have hle := hnext.le
  rcases Nat.lt_or_ge (cur + 1) c with h | h
  · exact .inl (hnext.clear _ le_rfl h)
  · exact .inr (by omega)

theorem pending_go (hlt : cur + 1 < N) (hset : a.bit (cur + 1) = true) :
    pending a cur rbot = pending a (cur + 1) rbot := by
  have hpred : N - (cur + 1) = N - (cur + 1 + 1) + 1 := by omega
  unfold pending
  rw [if_pos (by omega), if_pos hlt, hpred, ranges_go hset]

theorem printPass_emit (hlt : cur < N) (hfind : findNextBit a.block N (cur + 1) = some c)
    (hemit : N ≤ c ∨ cur + 1 < c) : printPass bl a.block N ⟨buf, len, cur, rbot⟩ =
      (bscnlEmit buf bl rbot cur len).map fun p => .next ⟨p.1, p.2, c, c⟩ := by
  unfold printPass
  simp only [if_pos hlt, hfind, Option.bind_eq_bind, Option.bind_some, if_pos hemit]
  rw [Option.map_eq_bind]
  rfl

theorem printPass_go (hlt : cur < N) (hfind : findNextBit a.block N (cur + 1) = some c)
    (hemit : ¬ (N ≤ c ∨ cur + 1 < c)) :
    printPass bl a.block N ⟨buf, len, cur, rbot⟩ = some (.next ⟨buf, len, c, rbot⟩) := by
  unfold printPass
  simp only [if_pos hlt, hfind, Option.bind_eq_bind, Option.bind_some, if_neg hemit]
  rfl

theorem printPass_done (hge : N ≤ cur) :
    printPass bl a.block N ⟨buf, len, cur, rbot⟩ = some (.done (buf, len)) := by
  unfold printPass
  rw [if_neg (Nat.not_lt.mpr hge)]
  rfl

/-- The run: what the loop returns is what emitting the ranges gives. -/
theorem returns_print {x : Block Byte × ℤ} :
    Prog.Returns (Prog.iterate (fun s => (printPass bl a.block N s : Option _)) ⟨buf, len, cur, rbot⟩) x ↔
      emitAll bl (pending a cur rbot) (buf, len) = some x := by
  induction hm : N - cur using Nat.strong_induction_on generalizing buf len cur rbot with
  | _ m ih =>
      subst hm
      rcases Nat.lt_or_ge cur N with hlt | hge
      · obtain ⟨c, hfind, hnext⟩ := findNextBit_spec a le_rfl (Nat.succ_le_of_lt hlt)
        have hc := hnext.ge (Nat.succ_le_of_lt hlt)
        by_cases hemit : N ≤ c ∨ cur + 1 < c
        · have hpass := @printPass_emit N buf a bl len cur rbot c hlt hfind hemit
          rw [pending_emit hlt hnext hemit, emitAll]
          cases hstep : bscnlEmit buf bl rbot cur len with
          | none =>
              rw [hstep] at hpass
              refine iff_of_false ?_ (by simp)
              rw [Prog.returns_iterate]
              simp [hpass]
          | some p =>
              rw [hstep] at hpass
              rw [Prog.returns_iterate_next (Prog.returns_lift.mpr hpass)]
              exact ih _ (by omega) rfl
        · have hpass := @printPass_go N buf a bl len cur rbot c hlt hfind hemit
          obtain rfl : c = cur + 1 := by omega
          rw [Prog.returns_iterate_next (Prog.returns_lift.mpr hpass), ih _ (by omega) rfl,
            pending_go (by omega) (hnext.set (by omega))]
      · rw [Prog.returns_iterate_done (Prog.returns_lift.mpr (printPass_done hge)), pending,
          if_neg (Nat.not_lt.mpr hge), emitAll, Option.some.injEq]

end pass

theorem returns_scnlistprintf {a : Bitmap N} (hpos : 0 < buflen) (hsize : buflen ≤ buf.size) :
    ∃ buf₀ : Block Byte, buf₀.size = buf.size ∧ buf₀.Has 0 [0] ∧ ∀ x,
      Prog.Returns (bitmapScnlistprintf buf buflen a.block N) x ↔
        emitAll (toInt buflen) (rangesOf a) (buf₀, 0) = some x := by
  obtain ⟨buf₀, hwrite, hsize₀, hread⟩ := @Block.write_of_lt _ buf 0 (by omega) 0
  obtain ⟨c, hfind, hnext⟩ := findFirstBit_spec a le_rfl
  refine ⟨buf₀, hsize₀, ?_, fun x => ?_⟩
  · rw [Block.has_cons]
    exact ⟨by rw [hread, if_pos rfl], Block.has_nil⟩
  · unfold bitmapScnlistprintf rangesOf
    rw [if_neg (by omega), hwrite, hfind, Prog.lift_bind, Prog.lift_bind, returns_print,
      pending_next (Nat.zero_le N) hnext]
    rfl

/-! ### Reading -/

theorem decimal_spec : ∀ d < 10, isspace (digitChar d) = false ∧ digitChar d ≠ 0 ∧ digitChar d ≠ comma ∧
    digitChar d ≠ dash ∧ isdigit (digitChar d) = true ∧ (digitChar d).toNat - 48 = d := by
  decide +kernel

/-- The step: one digit. -/
theorem listScan_digit {s : ListScan} {d : ℕ} (hd : d < 10) (hbuf : s.buf = digitChar d :: rest)
    (hc : isspace s.c = false) (hlt : s.b * 10 + d < 2 ^ 32) :
    listScan (n + 1) s = listScan n ⟨rest, n, digitChar d, if s.inRange then s.a else s.b * 10 + d, s.b * 10 + d,
      false, s.inRange, s.totaldigits + 1⟩ := by
  obtain ⟨hspace, hnul, hcomma, hdash, hdigit, hval⟩ := decimal_spec d hd
  rw [listScan, hbuf]
  simp only [hspace, hc, hnul, hcomma, hdash, hdigit, hval, u32_of_lt hlt]
  rw [if_neg (by decide), if_neg (by simp), if_neg (by simp), if_neg (by simp), if_neg (by decide)]

/-- The run: the digits of a number. -/
theorem listScan_digits {s : ListScan} {ds : List ℕ} (hds : ∀ d ∈ ds, d < 10) (hne : ds ≠ [])
    (hbuf : s.buf = ds.map digitChar ++ rest) (hc : isspace s.c = false) (hvalue : value 10 s.b ds < 2 ^ 32) :
    ∃ c t, isspace c = false ∧ listScan (ds.length + n) s =
      listScan n ⟨rest, n, c, if s.inRange then s.a else value 10 s.b ds, value 10 s.b ds, false, s.inRange, t⟩ := by
  induction ds generalizing s with
  | nil => exact absurd rfl hne
  | cons d ds ih =>
      have hd : d < 10 := hds d (by simp)
      have hle : s.b * 10 + d ≤ value 10 s.b (d :: ds) := le_value (by decide)
      have hstep := @listScan_digit (ds.length + n) (ds.map digitChar ++ rest) s d hd hbuf hc (by omega)
      rw [List.length_cons, Nat.add_right_comm, hstep]
      cases ds with
      | nil =>
          rw [List.length_nil, Nat.zero_add]
          exact ⟨_, _, (decimal_spec d hd).1, rfl⟩
      | cons e ds =>
          rw [value_cons] at hvalue
          obtain ⟨c, t, hcspace, hrun⟩ := @ih ⟨(e :: ds).map digitChar ++ rest, (e :: ds).length + n, digitChar d,
            if s.inRange then s.a else s.b * 10 + d, s.b * 10 + d, false, s.inRange, s.totaldigits + 1⟩
            (fun f hf => hds f (List.mem_cons_of_mem d hf)) (List.cons_ne_nil e ds) rfl (decimal_spec d hd).1 hvalue
          refine ⟨c, t, hcspace, ?_⟩
          rw [hrun, value_cons]
          cases s.inRange <;> rfl

/-- A number. -/
theorem listScan_number {s : ListScan} {k : ℕ} (hk : k < 2 ^ 32) (hbuf : s.buf = decText k ++ rest)
    (hb : s.b = 0) (hc : isspace s.c = false) : ∃ c t, isspace c = false ∧
      listScan ((decText k).length + n) s =
        listScan n ⟨rest, n, c, if s.inRange then s.a else k, k, false, s.inRange, t⟩ := by
  have hvalue : value 10 s.b (numeral 10 1 k) = k := by
    rw [hb, value_numeral]
  have h := @listScan_digits n rest s (numeral 10 1 k) (fun d hd => lt_of_mem_numeral (by decide) hd)
    numeral_ne_nil hbuf hc (by omega)
  rw [hvalue] at h
  unfold decText
  rw [List.length_map]
  exact h

/-- What ends a range: the end of the text, in front of bytes that are not read, or a comma. -/
theorem listScan_end {c : Byte} {a b t : ℕ} {e i : Bool} (hc : isspace c = false)
    (hrest : rest = [] ∨ ∃ t, rest = comma :: t) : ∃ c', isspace c' = false ∧ (rest ≠ [] → c' = comma) ∧
      listScan rest.length ⟨rest ++ behind, rest.length, c, a, b, e, i, t⟩ =
        some (.ok ⟨rest.tail ++ behind, rest.tail.length, c', a, b, e, i, t⟩) := by
  rcases hrest with rfl | ⟨t, rfl⟩
  · exact ⟨c, hc, fun h => absurd rfl h, rfl⟩
  · refine ⟨comma, rfl, fun _ => rfl, ?_⟩
    rw [List.length_cons, List.cons_append, listScan]
    simp only [hc]
    rw [if_neg (by decide), if_neg (by simp), if_pos (by simp)]
    rfl

/-- The dash between two numbers. -/
theorem listScan_dash {c : Byte} {a b t m : ℕ} (hc : isspace c = false) :
    listScan (n + 1) ⟨dash :: rest, m, c, a, b, false, false, t⟩ =
      listScan n ⟨rest, n, dash, a, 0, true, true, t⟩ := by
  rw [listScan]
  simp only [hc]
  rw [if_neg (by decide), if_neg (by simp), if_neg (by decide), if_pos trivial, if_neg (by simp)]

/-- A range is read. -/
theorem listScan_item (hr : r.1 ≤ r.2) (hlt : r.2 < 2 ^ 32) {c : Byte} {t m : ℕ} (hc : isspace c = false) :
    ∃ c' i t', isspace c' = false ∧
      listScan ((itemText r).length + n) ⟨itemText r ++ rest, m, c, 0, 0, true, false, t⟩ =
        listScan n ⟨rest, n, c', r.1, r.2, false, i, t'⟩ := by
  unfold itemText
  by_cases heq : r.1 = r.2
  · rw [if_pos heq]
    obtain ⟨c', t', hc', hrun⟩ := @listScan_number n rest ⟨decText r.1 ++ rest, m, c, 0, 0, true, false, t⟩ r.1
      (by omega) rfl rfl hc
    refine ⟨c', false, t', hc', ?_⟩
    rw [hrun, ← heq]
    rfl
  · rw [if_neg heq, List.append_assoc, List.cons_append, List.length_append, List.length_cons, Nat.add_assoc,
      Nat.add_right_comm]
    obtain ⟨c₁, t₁, hc₁, hrun₁⟩ := @listScan_number ((decText r.2).length + n + 1) (dash :: (decText r.2 ++ rest))
      ⟨decText r.1 ++ dash :: (decText r.2 ++ rest), m, c, 0, 0, true, false, t⟩ r.1 (by omega) rfl rfl hc
    obtain ⟨c₂, t₂, hc₂, hrun₂⟩ := @listScan_number n rest
      ⟨decText r.2 ++ rest, (decText r.2).length + n, dash, r.1, 0, true, true, t₁⟩ r.2 hlt rfl rfl rfl
    refine ⟨c₂, true, t₂, hc₂, ?_⟩
    rw [hrun₁]
    exact (listScan_dash hc₁).trans hrun₂

/-! ### Setting the positions of a range -/

/-- The run: `n` positions from `a` on. -/
theorem setBits_spec {a : ℕ} (d : Bitmap N) (ha : a + n ≤ N) :
    ∃ d' : Bitmap N, setBits n a d.block = some d'.block ∧
      ∀ i, d'.bit i = true ↔ d.bit i = true ∨ (a ≤ i ∧ i < a + n) := by
  induction n generalizing a d with
  | zero => exact ⟨d, rfl, fun i => (or_iff_left (by omega)).symm⟩
  | succ n ih =>
      obtain ⟨d₁, hset, hd₁⟩ := setBit_spec d (by omega : a < N)
      obtain ⟨d₂, hrun, hd₂⟩ := ih (a := a + 1) d₁ (by omega)
      refine ⟨d₂, ?_, fun i => ?_⟩
      · rw [setBits, hset]
        exact hrun
      · rw [hd₂, hd₁, or_assoc]
        refine or_congr_right ?_
        omega

/-! ### The loop of `bitmap_parselist` -/

theorem listText_comma (rs : List (ℕ × ℕ)) :
    listText rs [comma] = [] ∨ ∃ t, listText rs [comma] = comma :: t := by
  cases rs with
  | nil => exact .inl rfl
  | cons r rs => exact .inr ⟨_, rfl⟩

theorem tail_listText (rs : List (ℕ × ℕ)) : (listText rs [comma]).tail = listText rs [] := by
  cases rs with
  | nil => rfl
  | cons r rs => rfl

/-- The loop in front of the text of `rs`; the bytes `behind` it are not read. -/
structure AtRanges (behind : List Byte) (d : Bitmap N) (rs : List (ℕ × ℕ)) (p : ListParse) : Prop where
  buf : p.buf = listText rs [] ++ behind
  buflen : p.buflen = (listText rs []).length
  space : isspace p.c = false
  maskp : p.maskp = d.block

/-- The step: one range. -/
theorem parsePass_spec {d : Bitmap N} {p : ListParse} (hr : r.1 ≤ r.2) (hlt : r.2 < N) (hN : N < 2 ^ 31)
    (h : AtRanges behind d (r :: rs) p) :
    ∃ d' : Bitmap N, (∀ i, d'.bit i = true ↔ d.bit i = true ∨ (r.1 ≤ i ∧ i ≤ r.2)) ∧
      ((rs = [] ∧ parsePass N p = some (.done (d'.block, 0))) ∨
        ∃ p', rs ≠ [] ∧ parsePass N p = some (.next p') ∧ AtRanges behind d' rs p') := by
  obtain ⟨d', hset, hd'⟩ := setBits_spec d (by omega : r.1 + (r.2 + 1 - r.1) ≤ N)
  have hbuf : p.buf = itemText r ++ (listText rs [comma] ++ behind) := by
    rw [h.buf, listText, List.nil_append, List.append_assoc]
  have hbuflen : p.buflen = (itemText r).length + (listText rs [comma]).length := by
    rw [h.buflen, listText, List.nil_append, List.length_append]
  obtain ⟨c₁, i, t, hc₁, hitem⟩ := @listScan_item (listText rs [comma]).length (listText rs [comma] ++ behind) r hr
    (by omega) p.c p.totaldigits p.buflen h.space
  obtain ⟨c₂, hc₂, hcomma, hend⟩ := @listScan_end (listText rs [comma]) behind c₁ r.1 r.2 t false i hc₁
    (listText_comma rs)
  rw [tail_listText] at hend
  refine ⟨d', fun i => ?_, ?_⟩
  · rw [hd']
    refine or_congr_right ?_
    omega
  · have hpass : parsePass N p = if (listText rs []).length ≠ 0 ∧ c₂ = comma then
        some (.next ⟨listText rs [] ++ behind, (listText rs []).length, c₂, t, d'.block⟩)
        else some (.done (d'.block, 0)) := by
      rw [← hbuf, ← hbuflen] at hitem
      unfold parsePass
      rw [hitem, hend]
      simp only [Option.bind_eq_bind, Option.bind_some]
      rw [if_neg (by omega), if_neg (by omega), h.maskp, hset]
      rfl
    rw [hpass]
    cases rs with
    | nil => exact .inl ⟨rfl, if_neg fun h => h.1 rfl⟩
    | cons r' rs =>
        refine .inr ⟨_, List.cons_ne_nil _ _, if_pos ⟨?_, hcomma (List.cons_ne_nil _ _)⟩, rfl, rfl, hc₂, rfl⟩
        simp [listText, itemText_ne_nil]

/-- **The run**: the ranges one after the other. -/
theorem returns_parse {d : Bitmap N} {p : ListParse} (hne : rs ≠ []) (hrs : ∀ r ∈ rs, r.1 ≤ r.2 ∧ r.2 < N)
    (hN : N < 2 ^ 31) (h : AtRanges behind d rs p) :
    ∃ d' : Bitmap N, Prog.Returns (Prog.iterate (fun p => (parsePass N p : Option _)) p) (d'.block, 0) ∧
      ∀ i, d'.bit i = true ↔ d.bit i = true ∨ Covers rs i := by
  induction rs generalizing d p with
  | nil => exact absurd rfl hne
  | cons r rs ih =>
      obtain ⟨hr, hlt⟩ := hrs r List.mem_cons_self
      obtain ⟨d₁, hd₁, ⟨rfl, hpass⟩ | ⟨p', hrest, hpass, h'⟩⟩ := parsePass_spec hr hlt hN h
      · refine ⟨d₁, Prog.Returns.iterate_done (Prog.returns_lift.mpr hpass), fun i => ?_⟩
        rw [hd₁, covers_cons, or_iff_left not_covers_nil]
      · obtain ⟨d₂, hrun, hd₂⟩ := ih hrest (fun r hr => hrs r (List.mem_cons_of_mem _ hr)) h'
        refine ⟨d₂, Prog.Returns.iterate_next (Prog.returns_lift.mpr hpass) hrun, fun i => ?_⟩
        rw [hd₂, hd₁, covers_cons, or_assoc]

/-! ### The text as a string -/

/-- The characters of a text are digits, dashes and commas. -/
theorem plain_decText {c : Byte} (hc : c ∈ decText n) : c ≠ 0 ∧ c ≠ 10 := by
  obtain ⟨d, hd, rfl⟩ := List.mem_map.mp hc
  obtain ⟨hspace, hnul, -⟩ := decimal_spec d (lt_of_mem_numeral (by decide) hd)
  refine ⟨hnul, fun h => ?_⟩
  rw [h] at hspace
  exact absurd hspace (by decide)

theorem plain_itemText {c : Byte} (hc : c ∈ itemText r) : c ≠ 0 ∧ c ≠ 10 := by
  unfold itemText at hc
  split at hc
  · exact plain_decText hc
  · rcases List.mem_append.mp hc with hc | hc
    · exact plain_decText hc
    · rcases List.mem_cons.mp hc with rfl | hc
      · decide
      · exact plain_decText hc

theorem plain_listText {sep : List Byte} (hsep : ∀ c ∈ sep, c ≠ 0 ∧ c ≠ 10) :
    ∀ c ∈ listText rs sep, c ≠ 0 ∧ c ≠ 10 := by
  induction rs generalizing sep with
  | nil => exact fun c hc => absurd hc List.not_mem_nil
  | cons r rs ih =>
      intro c hc
      rw [listText, List.mem_append, List.mem_append] at hc
      rcases hc with (hc | hc) | hc
      · exact hsep c hc
      · exact plain_itemText hc
      · refine ih (fun c hc => ?_) c hc
        rw [List.mem_singleton.mp hc]
        decide

/-- A string of one line is parsed up to its NUL, if its length is an `unsigned int`. -/
theorem bitmapParselist_take (htext : ∀ c ∈ text, c ≠ 0 ∧ c ≠ 10) (dst : Block Word) :
    bitmapParselist (text ++ [0]) dst N = parselist (text ++ [0]) (u32 text.length) dst N := by
  have hstring : stringAt (text ++ [0]) 0 = text := @stringAt_append [] text [] fun h => (htext 0 h).1 rfl
  have hnl : strchrAt (text ++ [0]) 0 10 = none := by
    unfold strchrAt
    rw [hstring, Option.map_eq_none_iff, List.findIdx?_eq_none_iff]
    exact fun c hc => decide_eq_false (htext c hc).2
  unfold bitmapParselist strlenAt
  rw [hnl, hstring]

theorem bitmapParselist_eq (htext : ∀ c ∈ text, c ≠ 0 ∧ c ≠ 10) (hlt : text.length < 2 ^ 32) (dst : Block Word) :
    bitmapParselist (text ++ [0]) dst N = parselist (text ++ [0]) text.length dst N := by
  rw [bitmapParselist_take htext, u32_of_lt hlt]

/-- What the text of a bitmap with at least one range is parsed to. -/
theorem returns_parselist (hne : rs ≠ []) (hrs : ∀ r ∈ rs, r.1 ≤ r.2 ∧ r.2 < N) (hN : N < 2 ^ 31)
    (hlt : (listText rs []).length < 2 ^ 32) {dst : Block Word} (hdst : dst.size = bitsToLongs N) :
    ∃ d : Bitmap N, Prog.Returns (bitmapParselist (listText rs [] ++ [0]) dst N) (d.block, 0) ∧
      ∀ i, d.bit i = true ↔ Covers rs i := by
  obtain ⟨z, hzero, hz⟩ := bitmapZero_spec hdst
  obtain ⟨d, hrun, hd⟩ := @returns_parse N [0] rs z ⟨listText rs [] ++ [0], (listText rs []).length, 0, 0, z.block⟩
    hne hrs hN ⟨rfl, rfl, rfl, rfl⟩
  refine ⟨d, ?_, fun i => ?_⟩
  · rw [bitmapParselist_eq (plain_listText fun c hc => absurd hc List.not_mem_nil) hlt]
    unfold parselist
    rw [hzero]
    exact hrun
  · rw [hd, hz, or_iff_right Bool.false_ne_true]

/-! ### The round trip -/

/-- The text of the ranges of a bitmap. -/
def listOf (a : Bitmap N) : List Byte := listText (rangesOf a) []

theorem length_itemText_le {sep : List Byte} (hr : r ∈ rs) : (itemText r).length ≤ (listText rs sep).length := by
  induction rs generalizing sep with
  | nil => cases hr
  | cons s rs ih =>
      rw [listText, List.length_append, List.length_append]
      rcases List.mem_cons.mp hr with rfl | hr
      · omega
      · have := @ih [comma] hr
        omega

/-- It is the last range that decides whether every range starts at an offset that an `int` holds. -/
theorem fits_iff : Fits before rs ↔ ∀ last, rs.getLast? = some last →
    (before ++ listText rs (sepAfter before)).length < 2 ^ 31 + (itemText last).length := by
  induction rs generalizing before with
  | nil => exact iff_of_true trivial fun last h => by cases h
  | cons r rs ih =>
      rw [Fits, append_listText, ih]
      cases rs with
      | nil =>
          simp only [List.getLast?_nil, List.getLast?_singleton, Option.some.injEq, forall_eq', listText,
            List.append_nil]
          rw [@List.length_append _ (before ++ sepAfter before) (itemText r)]
          refine ⟨fun h => by omega, fun h => ⟨by omega, fun last hlast => by cases hlast⟩⟩
      | cons s rs =>
          rw [List.getLast?_cons_cons]
          refine ⟨fun h => h.2, fun h => ⟨?_, h⟩⟩
          obtain ⟨last, hlast⟩ : ∃ last, (s :: rs).getLast? = some last :=
            ⟨_, List.getLast?_eq_getLast_of_ne_nil (List.cons_ne_nil s rs)⟩
          have hle := @length_itemText_le last (s :: rs) (sepAfter (before ++ sepAfter before ++ itemText r))
            (List.mem_of_getLast? hlast)
          have hlt := h last hlast
          rw [List.length_append, List.length_append] at hlt
          omega

/-- The last range of a bitmap starts at an offset of the text that an `int` holds. -/
def LastFits (a : Bitmap N) : Prop :=
  ∀ last, (rangesOf a).getLast? = some last → (listOf a).length < 2 ^ 31 + (itemText last).length

theorem covers_rangesOf (a : Bitmap N) (i : ℕ) : Covers (rangesOf a) i ↔ i < N ∧ a.bit i = true := by
  have h := (@covers_ranges a.bit N 0 i).1
  rw [Nat.zero_add] at h
  exact h.trans ⟨And.right, fun h => ⟨Nat.zero_le i, h⟩⟩

theorem rangesOf_ne_nil (a : Bitmap N) : rangesOf a ≠ [] ↔ ∃ i < N, a.bit i = true := by
  constructor
  · intro h
    obtain ⟨r, rs, hrs⟩ := List.exists_cons_of_ne_nil h
    have hr : r ∈ rangesOf a := by
      rw [hrs]
      exact List.mem_cons_self
    exact ⟨r.1, (covers_rangesOf a r.1).mp ⟨r, hr, le_rfl, (le_of_mem_ranges.1 r hr).1⟩⟩
  · rintro ⟨i, hi⟩ h
    have hcovers := (covers_rangesOf a i).mpr hi
    rw [h] at hcovers
    exact not_covers_nil hcovers

theorem length_itemText (hr : r.1 ≤ r.2) (hlt : r.2 < 10 ^ 10) : (itemText r).length ≤ 21 := by
  have hdec : ∀ n < 10 ^ 10, (decText n).length ≤ 10 := by
    intro n hn
    unfold decText
    rw [List.length_map]
    exact length_numeral_one_le (by decide) (by decide) hn
  have h₁ := hdec r.1 (by omega)
  have h₂ := hdec r.2 hlt
  unfold itemText
  split
  · omega
  · rw [List.length_append, List.length_cons]
    omega

theorem length_listText {sep : List Byte} (hsep : sep.length ≤ 1) (hrs : ∀ r ∈ rs, r.1 ≤ r.2 ∧ r.2 < 10 ^ 10) :
    (listText rs sep).length ≤ 22 * rs.length := by
  induction rs generalizing sep with
  | nil => exact Nat.le_refl 0
  | cons r rs ih =>
      obtain ⟨hr, hlt⟩ := hrs r List.mem_cons_self
      have hitem := length_itemText hr hlt
      have hrest := @ih [comma] (Nat.le_refl 1) fun r hr => hrs r (List.mem_cons_of_mem _ hr)
      rw [listText, List.length_append, List.length_append, List.length_cons]
      omega

/-- The text of up to `2 ^ 27` positions is shorter than `2 ^ 31`. -/
theorem lastFits_of_le (a : Bitmap N) (hN : N ≤ 2 ^ 27) : LastFits a := by
  intro last _
  have hrs : ∀ r ∈ rangesOf a, r.1 ≤ r.2 ∧ r.2 < 10 ^ 10 := by
    intro r hr
    have hmem := le_of_mem_ranges.1 r hr
    omega
  have hlen : (listOf a).length ≤ 22 * (rangesOf a).length := length_listText (Nat.zero_le 1) hrs
  have hcount : 2 * (rangesOf a).length ≤ N + 1 := length_ranges.1
  omega

/-- The text that is printed into `buf` is parsed to the same positions. -/
def RoundTrips (a : Bitmap N) (buf : Block Byte) (buflen : ℕ) (dst : Block Word) : Prop :=
  ∃ buf' len text, ∃ d : Bitmap N, Prog.Returns (bitmapScnlistprintf buf buflen a.block N) (buf', len) ∧
    0 ∉ text ∧ buf'.Has 0 (text ++ [0]) ∧
    Prog.Returns (bitmapParselist (text ++ [0]) dst N) (d.block, 0) ∧ Agree a d

/-- Two strings at the same place are the same. -/
theorem string_unique {b : Block Byte} {s t : List Byte} {i : ℕ} (hs : 0 ∉ s) (ht : 0 ∉ t) (hbs : b.Has i (s ++ [0]))
    (hbt : b.Has i (t ++ [0])) : s = t := by
  induction s generalizing t i with
  | nil =>
      cases t with
      | nil => rfl
      | cons c t =>
          have hc := (Block.has_cons.mp hbs).1.symm.trans (Block.has_cons.mp hbt).1
          exact absurd (Option.some.inj hc ▸ List.mem_cons_self) ht
  | cons c s ih =>
      cases t with
      | nil =>
          have hc := (Block.has_cons.mp hbt).1.symm.trans (Block.has_cons.mp hbs).1
          exact absurd (Option.some.inj hc ▸ List.mem_cons_self) hs
      | cons d t =>
          obtain ⟨hc, hbs⟩ := Block.has_cons.mp hbs
          obtain ⟨hd, hbt⟩ := Block.has_cons.mp hbt
          rw [Option.some.inj (hc.symm.trans hd),
            ih (fun h => hs (List.mem_cons_of_mem _ h)) (fun h => ht (List.mem_cons_of_mem _ h)) hbs hbt]

/-- The empty string is parsed to the position 0. -/
theorem bitmapParselist_nil (hN : 0 < N) {dst : Block Word} (hdst : dst.size = bitsToLongs N) :
    ∃ d : Bitmap N, Prog.Returns (bitmapParselist [0] dst N) (d.block, 0) ∧ ∀ i, d.bit i = true ↔ i = 0 := by
  obtain ⟨z, hzero, hz⟩ := bitmapZero_spec hdst
  obtain ⟨d, hset, hd⟩ := setBits_spec z (by omega : 0 + 1 ≤ N)
  refine ⟨d, ?_, fun i => ?_⟩
  · have hpass : parsePass N ⟨[0], 0, 0, 0, z.block⟩ = some (.done (d.block, 0)) := by
      unfold parsePass
      rw [listScan]
      simp only [Option.bind_eq_bind, Option.bind_some]
      rw [if_neg (by decide), if_neg (by omega), hset]
      rfl
    have heq := @bitmapParselist_eq N [] (fun c hc => absurd hc List.not_mem_nil) (by decide) dst
    rw [List.nil_append] at heq
    rw [heq]
    unfold parselist
    rw [hzero]
    exact Prog.Returns.iterate_done (Prog.returns_lift.mpr hpass)
  · rw [hd, hz, or_iff_right Bool.false_ne_true]
    omega

/-- The text of `a` is parsed to the same positions. -/
def Parsed (a : Bitmap N) (dst : Block Word) : Prop :=
  ∃ d : Bitmap N, Prog.Returns (bitmapParselist (listOf a ++ [0]) dst N) (d.block, 0) ∧ Agree a d

theorem parsed_iff (hN : 0 < N) (hNint : N < 2 ^ 31) {a : Bitmap N} (hlt : (listOf a).length < 2 ^ 32)
    {dst : Block Word} (hdst : dst.size = bitsToLongs N) : Parsed a dst ↔ ∃ i < N, a.bit i = true := by
  rw [← rangesOf_ne_nil]
  constructor
  · rintro ⟨d, hparse, hagree⟩ hnil
    obtain ⟨d₀, hparse₀, hd₀⟩ := bitmapParselist_nil hN hdst
    unfold listOf at hparse
    rw [hnil] at hparse
    have hblock : d.block = d₀.block := congrArg Prod.fst (hparse.unique hparse₀)
    have hbit : a.bit 0 = d₀.bit 0 := by
      rw [hagree 0 hN]
      unfold Bitmap.bit Bitmap.word
      rw [hblock]
    have hcovers := (covers_rangesOf a 0).mpr ⟨hN, hbit.trans ((hd₀ 0).mpr rfl)⟩
    rw [hnil] at hcovers
    exact not_covers_nil hcovers
  · intro hne
    obtain ⟨d, hparse, hd⟩ := returns_parselist hne
      (fun r hr => by have := le_of_mem_ranges.1 r hr; omega) hNint hlt hdst
    refine ⟨d, hparse, fun i hi => ?_⟩
    rw [Bool.eq_iff_iff, hd, covers_rangesOf]
    exact ⟨fun h => ⟨hi, h⟩, And.right⟩

theorem roundTrips_iff_parsed {a : Bitmap N} (hlen : (listOf a).length < buflen) (hsize : buflen ≤ buf.size)
    (hint : buflen < 2 ^ 32) {dst : Block Word} : RoundTrips a buf buflen dst ↔ LastFits a ∧ Parsed a dst := by
  obtain ⟨buf₀, hsize₀, hbuf₀, hprint⟩ := returns_scnlistprintf (a := a) (by omega : 0 < buflen) hsize
  have hfits : Fits [] (rangesOf a) ↔ LastFits a := fits_iff
  have hnul : (0 : Byte) ∉ listOf a := fun h => (plain_listText (fun c hc => absurd hc List.not_mem_nil) 0 h).1 rfl
  constructor
  · rintro ⟨buf', len, text, d, hret, htext, hbuf', hparse, hagree⟩
    rw [hprint] at hret
    have hlast : LastFits a := by
      by_contra h
      have hnone := @emitAll_none buflen buf₀ [] (rangesOf a) (fun hf => h (hfits.mp hf)) hlen (by omega) hint hbuf₀
      cases hnone.symm.trans hret
    obtain ⟨p, hall, hp⟩ := @emitAll_spec buflen buf₀ [] (rangesOf a) (hfits.mpr hlast) hlen (by omega) hint hbuf₀
    obtain rfl : p = (buf', len) := Option.some.inj (hall.symm.trans hret)
    obtain rfl : text = listOf a := string_unique htext hnul hbuf' hp
    exact ⟨hlast, d, hparse, hagree⟩
  · rintro ⟨hlast, d, hparse, hagree⟩
    obtain ⟨p, hall, hp⟩ := @emitAll_spec buflen buf₀ [] (rangesOf a) (hfits.mpr hlast) hlen (by omega) hint hbuf₀
    exact ⟨p.1, p.2, listOf a, d, (hprint p).mpr hall, hnul, hp, hparse, hagree⟩

/-- **The round trip.**  The printed text is parsed to the same positions exactly if a position is set and
the last range starts at an offset that an `int` holds. -/
theorem roundTrips_iff (hN : 0 < N) (hNint : N < 2 ^ 31) (a : Bitmap N) (hlen : (listOf a).length < buflen)
    (hsize : buflen ≤ buf.size) (hint : buflen < 2 ^ 32) {dst : Block Word} (hdst : dst.size = bitsToLongs N) :
    RoundTrips a buf buflen dst ↔ (∃ i < N, a.bit i = true) ∧ LastFits a := by
  rw [roundTrips_iff_parsed hlen hsize hint, parsed_iff hN hNint (by omega) hdst]
  exact And.comm

/-- A bitmap of five positions with the first, the third and the fourth one set. -/
def sample5 : Bitmap 5 := .ofWords 5 fun _ => 13

theorem roundTrips_sample : RoundTrips sample5 (Block.null.realloc 8) 8 (Block.null.realloc 1) := by
  have hlist : rangesOf sample5 = [(0, 0), (2, 3)] ∧ (listOf sample5).length = 5 := by
    decide +kernel
  refine (roundTrips_iff (by decide) (by decide) sample5 (by rw [hlist.2]; decide) (by decide) (by decide)
    (by decide)).mpr ⟨⟨0, by decide, by decide +kernel⟩, fun last _ => ?_⟩
  rw [hlist.2]
  omega

/-- A bitmap of one position, which is not set. -/
def empty1 : Bitmap 1 := .ofWords 1 fun _ => 0

/-- Its text is empty, and from the empty string the parser sets position 0. -/
theorem empty_not_roundTrips : listOf empty1 = [] ∧
    Prog.Returns (bitmapParselist [0] (Block.null.realloc 1) 1) (⟨[some 1]⟩, 0) ∧
    ¬ RoundTrips empty1 (Block.null.realloc 8) 8 (Block.null.realloc 1) := by
  have hlist : listOf empty1 = [] := by
    decide +kernel
  refine ⟨hlist, .of_run (n := 1) (by decide +kernel), ?_⟩
  rw [roundTrips_iff_parsed (by rw [hlist]; decide) (by decide) (by decide),
    parsed_iff (by decide) (by decide) (by rw [hlist]; decide) (by decide)]
  rintro ⟨-, i, hi, hset⟩
  obtain rfl : i = 0 := by omega
  exact absurd hset (by decide +kernel)

end Libls.Bitmaps
