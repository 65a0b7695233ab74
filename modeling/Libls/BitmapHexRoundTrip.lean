import Mathlib.Data.Nat.Size
import Libls.BitmapShifts
import Libls.BitmapHex

/-! # The hexadecimal text of a bitmap is parsed back

The loop over the chunks holds, after the chunks from number `m` on, the bitmap shifted right by `32 * m`. -/

namespace Libls.Bitmaps
open Numerals Percent Printf Strings WordBits

variable {N : ℕ}

/-! ### Digits -/

theorem digit_spec : ∀ d < 16, isspace (digitChar d) = false ∧ digitChar d ≠ 0 ∧ digitChar d ≠ comma ∧
    isxdigit (digitChar d) = true ∧ (hexToBin (digitChar d)).toNat = d := by
  decide +kernel

/-- The step: one digit. -/
theorem hexScan_digit {s : HexScan} {d n : ℕ} {rest : List Byte} (hd : d < 16) (hbuf : s.buf = digitChar d :: rest)
    (hc : isspace s.c = false) (hchunk : s.chunk < 2 ^ 28) :
    hexScan (n + 1) s = hexScan n ⟨rest, n, digitChar d, s.chunk * 16 + d, s.ndigits + 1, s.totaldigits + 1⟩ := by
  obtain ⟨hspace, hnul, hcomma, hxdigit, hbin⟩ := digit_spec d hd
  have hshift : u32 (s.chunk <<< 4) ||| d = s.chunk * 16 + d := by
    have hmul : s.chunk <<< 4 = s.chunk * 16 := Nat.shiftLeft_eq _ _
    rw [u32_of_lt (by omega), ← Nat.shiftLeft_add_eq_or_of_lt (by omega), hmul]
  rw [hexScan, hbuf]
  simp only [hspace, hc, hnul, hcomma, hxdigit, hbin, hshift]
  rw [if_neg (by decide), if_neg (by simp), if_neg (by simp), if_neg (by decide), if_neg (by omega)]

/-- The run: the digits of a chunk. -/
theorem hexScan_digits {s : HexScan} {ds : List ℕ} {n : ℕ} {rest : List Byte} (hds : ∀ d ∈ ds, d < 16)
    (hbuf : s.buf = ds.map digitChar ++ rest) (hlen : s.buflen = ds.length + n) (hc : isspace s.c = false)
    (hvalue : value 16 s.chunk ds < 2 ^ 32) : ∃ c, isspace c = false ∧
      hexScan (ds.length + n) s =
        hexScan n ⟨rest, n, c, value 16 s.chunk ds, s.ndigits + ds.length, s.totaldigits + ds.length⟩ := by
  induction ds generalizing s with
  | nil =>
      refine ⟨s.c, hc, ?_⟩
      obtain ⟨buf, buflen, c, chunk, ndigits, totaldigits⟩ := s
      simp only [List.length_nil, Nat.zero_add] at hlen hbuf ⊢
      rw [hlen, hbuf]
      rfl
  | cons d ds ih =>
      have hd : d < 16 := hds d (by simp)
      have hle : s.chunk * 16 + d ≤ value 16 s.chunk (d :: ds) := le_value (by decide)
      have hstep := @hexScan_digit s d (ds.length + n) (ds.map digitChar ++ rest) hd hbuf hc (by omega)
      obtain ⟨c, hcspace, hrun⟩ := @ih ⟨ds.map digitChar ++ rest, ds.length + n, digitChar d, s.chunk * 16 + d,
        s.ndigits + 1, s.totaldigits + 1⟩ (fun e he => hds e (by simp [he])) rfl rfl (digit_spec d hd).1 hvalue
      refine ⟨c, hcspace, ?_⟩
      rw [List.length_cons, Nat.add_right_comm, hstep, hrun, Nat.add_right_comm s.ndigits,
        Nat.add_right_comm s.totaldigits]
      rfl

/-! ### Chunks -/

/-- The bits of chunk `m`. -/
def chunk (a : Bitmap N) (m : ℕ) : ℕ :=
  (a.word (32 * m / 64) >>> (32 * m % 64)).toNat &&& u32 (2 ^ min 32 (N - 32 * m) - 1)

theorem testBit_chunk (a : Bitmap N) (m j : ℕ) :
    (chunk a m).testBit j = (decide (j < 32) && (decide (j + 32 * m < N) && a.bit (j + 32 * m))) := by
  have hmask : 2 ^ min 32 (N - 32 * m) ≤ 2 ^ 32 := Nat.pow_le_pow_right (by decide) (Nat.min_le_left _ _)
  have hpos := Nat.two_pow_pos (min 32 (N - 32 * m))
  have hand : (chunk a m).testBit j =
      ((a.word (32 * m / 64)).getLsbD (32 * m % 64 + j) && decide (j < min 32 (N - 32 * m))) := by
    unfold chunk
    rw [u32_of_lt (by omega), Nat.testBit_and, BitVec.testBit_toNat, BitVec.getLsbD_ushiftRight,
      Nat.testBit_two_pow_sub_one]
  rw [hand]
  by_cases hj : j < 32
  · have hbit : a.bit (j + 32 * m) = (a.word (32 * m / 64)).getLsbD (32 * m % 64 + j) := by
      have hdiv : (j + 32 * m) / 64 = 32 * m / 64 := by omega
      have hmod : (j + 32 * m) % 64 = 32 * m % 64 + j := by omega
      unfold Bitmap.bit bitAt
      rw [hdiv, hmod]
    have hiff : j < min 32 (N - 32 * m) ↔ j + 32 * m < N := by omega
    rw [hbit, decide_eq_true hj, Bool.true_and, Bool.and_comm]
    simp only [hiff]
  · rw [decide_eq_false hj, decide_eq_false (by omega), Bool.and_false, Bool.false_and]

theorem chunk_lt (a : Bitmap N) (m : ℕ) : chunk a m < 2 ^ min 32 (N - 32 * m) := by
  refine Nat.lt_pow_two_of_testBit _ fun j hj => ?_
  rw [testBit_chunk]
  by_cases h : j < 32
  · rw [decide_eq_false (by omega : ¬ j + 32 * m < N), Bool.false_and, Bool.and_false]
  · rw [decide_eq_false h, Bool.false_and]

/-- How chunk `m` is written. -/
def chunkText (a : Bitmap N) (m : ℕ) : List Byte := hexText ((min 32 (N - 32 * m) + 3) / 4) (chunk a m)

theorem chunkText_ne_nil (a : Bitmap N) (m : ℕ) : chunkText a m ≠ [] := by
  unfold chunkText hexText
  rw [ne_eq, List.map_eq_nil_iff]
  exact numeral_ne_nil

/-- The text of the `m` lowest chunks. -/
def chunksText (a : Bitmap N) : ℕ → List Byte → List Byte
  | 0, _ => []
  | m + 1, sep => sep ++ chunkText a m ++ chunksText a m [comma]

/-- What `bitmap_scnprintf` prints. -/
def hexOf (a : Bitmap N) : List Byte := chunksText a ((N + 31) / 32) []

/-! ### Printing -/

theorem hexLoop_spec {a : Bitmap N} {buflen m chunksz : ℕ} {sep before : List Byte} {buf : Block Byte}
    (hm : ∀ k, m = k + 1 → 32 * k < N ∧ chunksz = min 32 (N - 32 * k)) (hint : buflen < 2 ^ 32)
    (hlen : (before ++ chunksText a m sep).length < buflen) (hsize : buflen ≤ buf.size) (hbuf : buf.Has 0 before) :
    ∃ buf', hexLoop buflen a.block m chunksz sep before.length buf =
        some (buf', (before ++ chunksText a m sep).length) ∧ buf'.Has 0 (before ++ chunksText a m sep) := by
  induction m generalizing chunksz sep before buf with
  | zero =>
      rw [chunksText, List.append_nil]
      exact ⟨buf, rfl, hbuf⟩
  | succ m ih =>
      obtain ⟨hlt, rfl⟩ := hm m rfl
      have htext : before ++ chunksText a (m + 1) sep = before ++ (sep ++ chunkText a m) ++ chunksText a m [comma] := by
        rw [chunksText, List.append_assoc, List.append_assoc, List.append_assoc]
      rw [htext] at hlen ⊢
      have hroom : before.length + (sep ++ chunkText a m).length < buflen := by
        rw [List.length_append, List.length_append] at hlen
        omega
      have hread : a.block.read (32 * m / 64) = some (a.word (32 * m / 64)) := by
        refine a.read ?_
        unfold bitsToLongs
        omega
      have hu32 : u32 (buflen + 2 ^ 32 - before.length) = buflen - before.length := by
        unfold u32
        omega
      obtain ⟨buf₁, hprint, hsize₁, hbuf₁⟩ := @scnprintf_append buf before (sep ++ chunkText a m)
        (buflen - before.length) (by omega) (by omega) hbuf
      rw [Block.has_append] at hbuf₁
      have hsum : before.length + (sep ++ chunkText a m).length = (before ++ (sep ++ chunkText a m)).length :=
        List.length_append.symm
      obtain ⟨buf', hloop, hbuf'⟩ := @ih 32 [comma] (before ++ (sep ++ chunkText a m)) buf₁
        (fun k hk => by omega) hlen (by omega) hbuf₁.1
      refine ⟨buf', ?_, hbuf'⟩
      unfold chunkText chunk at hprint hsum
      rw [hexLoop, hread]
      simp only [Option.bind_eq_bind, Option.bind_some, hu32, hprint]
      rw [hsum]
      exact hloop

theorem bitmapScnprintf_spec {a : Bitmap N} {buflen : ℕ} {buf : Block Byte} (hint : buflen < 2 ^ 32)
    (hlen : (hexOf a).length < buflen) (hsize : buflen ≤ buf.size) :
    ∃ buf', bitmapScnprintf buf buflen a.block N = some (buf', (hexOf a).length) ∧ buf'.Has 0 (hexOf a) := by
  have hand : N &&& 31 = N % 32 := Nat.and_two_pow_sub_one_eq_mod N 5
  have h := @hexLoop_spec N a buflen ((N + 31) / 32) (if N &&& 31 = 0 then 32 else N &&& 31) [] [] buf
    (fun k hk => by
      rw [hand]
      split <;> omega)
    hint hlen hsize Block.has_nil
  exact h

/-! ### Parsing -/

/-- A chunk is read up to the next comma or up to the end. -/
theorem hexScan_chunk {a : Bitmap N} {m : ℕ} (hm : 32 * m < N) {c : Byte} {totaldigits : ℕ} {rest : List Byte}
    (hc : isspace c = false) (hrest : rest = [] ∨ ∃ t, rest = comma :: t) :
    ∃ s, hexScan (chunkText a m ++ rest).length
        ⟨chunkText a m ++ rest, (chunkText a m ++ rest).length, c, 0, 0, totaldigits⟩ = some (.ok s) ∧
      s.chunk = chunk a m ∧ s.ndigits ≠ 0 ∧ s.buf = rest.tail ∧ s.buflen = rest.tail.length ∧
      isspace s.c = false ∧ (rest ≠ [] → s.c = comma) := by
  have hlt : chunk a m < 16 ^ ((min 32 (N - 32 * m) + 3) / 4) := by
    have hpow : (16 : ℕ) ^ ((min 32 (N - 32 * m) + 3) / 4) = 2 ^ (4 * ((min 32 (N - 32 * m) + 3) / 4)) := by
      rw [Nat.pow_mul]
    rw [hpow]
    exact Nat.lt_of_lt_of_le (chunk_lt a m) (Nat.pow_le_pow_right (by decide) (by omega))
  have hlt32 : chunk a m < 2 ^ 32 :=
    Nat.lt_of_lt_of_le (chunk_lt a m) (Nat.pow_le_pow_right (by decide) (Nat.min_le_left _ _))
  have hdigits : (numeral 16 ((min 32 (N - 32 * m) + 3) / 4) (chunk a m)).length ≠ 0 := by
    rw [length_numeral (by decide) (by omega) hlt]
    omega
  unfold chunkText hexText
  generalize hds : numeral 16 ((min 32 (N - 32 * m) + 3) / 4) (chunk a m) = ds at hdigits ⊢
  have hvalue : value 16 0 ds = chunk a m := by
    rw [← hds, value_numeral]
  obtain ⟨c', hc', hrun⟩ := @hexScan_digits
    ⟨ds.map digitChar ++ rest, (ds.map digitChar ++ rest).length, c, 0, 0, totaldigits⟩ ds rest.length rest
    (fun d hd => lt_of_mem_numeral (by decide) (hds ▸ hd)) rfl
    (by rw [List.length_append, List.length_map]) hc (by rw [hvalue]; exact hlt32)
  rw [List.length_append, List.length_map] at hrun ⊢
  rw [hrun, hvalue, Nat.zero_add]
  rcases hrest with rfl | ⟨t, rfl⟩
  · exact ⟨_, rfl, rfl, hdigits, rfl, rfl, hc', fun h => absurd rfl h⟩
  · refine ⟨⟨t, t.length, comma, chunk a m, ds.length, totaldigits + ds.length⟩, ?_, rfl, hdigits, rfl, rfl, rfl,
      fun _ => rfl⟩
    rw [List.length_cons, hexScan]
    simp only [hc']
    rw [if_neg (by decide), if_neg (by simp), if_pos (by simp)]

theorem chunksText_comma (a : Bitmap N) (m : ℕ) : chunksText a m [comma] = [] ∨
    chunksText a m [comma] = comma :: chunksText a m [] := by
  cases m with
  | zero => exact .inl rfl
  | succ m => exact .inr rfl

/-- The loop before chunk `m` is read. -/
structure AtChunk (a : Bitmap N) (m : ℕ) (p : HexParse) : Prop where
  buf : p.buf = chunksText a (m + 1) []
  buflen : p.buflen = p.buf.length
  space : isspace p.c = false
  maskp : ∃ d : Bitmap N, p.maskp = d.block ∧
    ∀ i, d.bit i = (decide (i + 32 * (m + 1) < N) && a.bit (i + 32 * (m + 1)))
  nbits : (p.nchunks = 0 ∧ p.nbits = 0 ∧ ∀ i, 32 * (m + 1) ≤ i → i < N → a.bit i = false) ∨
    (p.nchunks ≠ 0 ∧ p.nbits + 32 * (m + 1) ≤ N)

/-- The bitmap after chunk `m`, and whether the loop goes on. -/
def AfterChunk (a : Bitmap N) (m : ℕ) (next : Option (Iter HexParse (Block Word × ℤ))) : Prop :=
  match m with
  | 0 => ∃ d : Bitmap N, next = some (.done (d.block, 0)) ∧ ∀ i, d.bit i = (decide (i < N) && a.bit i)
  | m + 1 => ∃ p, next = some (.next p) ∧ AtChunk a m p

/-- The end of a pass. -/
theorem afterChunk_next {a : Bitmap N} {m : ℕ} {p : HexParse} {d : Bitmap N} (hmaskp : p.maskp = d.block)
    (hd : ∀ i, d.bit i = (decide (i + 32 * m < N) && a.bit (i + 32 * m)))
    (hbuf : p.buf = (chunksText a m [comma]).tail) (hbuflen : p.buflen = p.buf.length) (hc : isspace p.c = false)
    (hcomma : chunksText a m [comma] ≠ [] → p.c = comma)
    (hnbits : (p.nchunks = 0 ∧ p.nbits = 0 ∧ ∀ i, 32 * m ≤ i → i < N → a.bit i = false) ∨
      (p.nchunks ≠ 0 ∧ p.nbits + 32 * m ≤ N)) : AfterChunk a m (some (hexNext p)) := by
  cases m with
  | zero =>
      refine ⟨d, ?_, hd⟩
      unfold hexNext
      rw [if_neg (fun h => h.1 (by rw [hbuflen, hbuf]; rfl)), hmaskp]
  | succ m =>
      have hne : p.buflen ≠ 0 := by
        rw [hbuflen, hbuf, chunksText]
        simp [chunkText_ne_nil]
      refine ⟨p, ?_, hbuf, hbuflen, hc, ⟨d, hmaskp, hd⟩, hnbits⟩
      unfold hexNext
      rw [if_pos ⟨hne, hcomma (by simp [chunksText])⟩]

/-- The bitmap shifted by a chunk, with chunk `m` in the lowest bits. -/
theorem shift_chunk {a d : Bitmap N} {m : ℕ} (hm : 32 * m < N)
    (hd : ∀ i, d.bit i = (decide (i + 32 * (m + 1) < N) && a.bit (i + 32 * (m + 1)))) :
    ∃ d₁ d₂ : Bitmap N, bitmapShiftLeft d.block none 32 N = some d₁.block ∧
      d₁.block.modify 0 (· ||| BitVec.ofNat 64 (chunk a m)) = some d₂.block ∧
      ∀ i, d₂.bit i = (decide (i + 32 * m < N) && a.bit (i + 32 * m)) := by
  obtain ⟨d₁, hshift, hd₁⟩ := @bitmapShiftLeft_spec N 32 d ⟨d.block, none, d.size, rfl⟩ (Nat.zero_le _)
  obtain ⟨d₂, hmodify, hd₂⟩ := modify_or_spec d₁ (by unfold bitsToLongs; omega : 0 < bitsToLongs N)
    (BitVec.ofNat 64 (chunk a m))
  refine ⟨d₁, d₂, hshift, hmodify, fun i => ?_⟩
  have hchunk : (decide (i / 64 = 0) && (BitVec.ofNat 64 (chunk a m)).getLsbD (i % 64)) = (chunk a m).testBit i := by
    by_cases hi : i < 64
    · have hmod : i % 64 = i := Nat.mod_eq_of_lt hi
      rw [decide_eq_true (by omega : i / 64 = 0), Bool.true_and, hmod, BitVec.getLsbD_ofNat, decide_eq_true hi,
        Bool.true_and]
    · rw [decide_eq_false (by omega), Bool.false_and, testBit_chunk, decide_eq_false (by omega), Bool.false_and]
  rw [hd₂, hchunk, hd₁, testBit_chunk, hd]
  by_cases hi : i < 32
  · rw [decide_eq_false (by omega : ¬ 32 ≤ i), Bool.false_and, Bool.and_false, Bool.false_or, decide_eq_true hi,
      Bool.true_and]
  · have hsum : i - 32 + 32 * (m + 1) = i + 32 * m := by omega
    rw [hsum, decide_eq_false hi, Bool.false_and, Bool.or_false, decide_eq_true (by omega : 32 ≤ i), Bool.true_and]
    by_cases hlt : i + 32 * m < N
    · rw [decide_eq_true (by omega : i < N), Bool.true_and]
    · rw [decide_eq_false hlt, Bool.false_and, Bool.and_false]

/-- How many bits the chunks need so far. -/
theorem nbits_chunk {a : Bitmap N} {m nchunks nbits : ℕ} (hm : 32 * m < N)
    (h : (nchunks = 0 ∧ nbits = 0 ∧ ∀ i, 32 * (m + 1) ≤ i → i < N → a.bit i = false) ∨
      (nchunks ≠ 0 ∧ nbits + 32 * (m + 1) ≤ N)) :
    nbits + (if nchunks + 1 = 1 then nbitsToHoldValue (chunk a m) else 32) + 32 * m ≤ N := by
  rcases h with ⟨h0, hbits, -⟩ | ⟨hne, hle⟩
  · have hsize : nbitsToHoldValue (chunk a m) ≤ min 32 (N - 32 * m) := Nat.size_le.mpr (chunk_lt a m)
    rw [if_pos (by omega)]
    omega
  · rw [if_neg (by omega)]
    omega

/-- The step: one chunk. -/
theorem hexPass_spec {a : Bitmap N} {m : ℕ} {p : HexParse} (hm : 32 * m < N) (h : AtChunk a m p) :
    AfterChunk a m (hexPass N p) := by
  obtain ⟨d, hmaskp, hd⟩ := h.maskp
  have htext : p.buf = chunkText a m ++ chunksText a m [comma] := by
    rw [h.buf, chunksText, List.nil_append]
  have hrest : chunksText a m [comma] = [] ∨ ∃ t, chunksText a m [comma] = comma :: t :=
    (chunksText_comma a m).imp_right fun h => ⟨_, h⟩
  obtain ⟨s, hscan, hchunk, hdigits, hbuf, hbuflen, hspace, hcomma⟩ := @hexScan_chunk N a m hm p.c p.totaldigits _
    h.space hrest
  have hlen := h.buflen
  rw [htext] at hlen
  unfold hexPass
  rw [htext, hlen, hscan]
  simp only [Option.bind_eq_bind, Option.bind_some, if_neg hdigits, hchunk]
  by_cases hskip : p.nchunks = 0 ∧ chunk a m = 0
  · have hzeros : ∀ i, 32 * m ≤ i → i < N → a.bit i = false := by
      intro i hi hlt
      rcases h.nbits with ⟨-, -, hhigh⟩ | ⟨hne, -⟩
      · by_cases hin : 32 * (m + 1) ≤ i
        · exact hhigh i hin hlt
        · have hbit := testBit_chunk a m (i - 32 * m)
          rw [hskip.2, Nat.zero_testBit, Nat.sub_add_cancel hi, decide_eq_true (by omega : i - 32 * m < 32),
            decide_eq_true hlt, Bool.true_and, Bool.true_and] at hbit
          exact hbit.symm
      · exact absurd hskip.1 hne
    rw [if_pos hskip]
    refine afterChunk_next hmaskp (fun i => ?_) hbuf (by rw [hbuf]; exact hbuflen) hspace hcomma ?_
    · rw [hd]
      by_cases hlt : i + 32 * m < N
      · rw [hzeros _ (by omega) hlt, Bool.and_false]
        by_cases hlt' : i + 32 * (m + 1) < N
        · rw [hzeros _ (by omega) hlt', Bool.and_false]
        · rw [decide_eq_false hlt', Bool.false_and]
      · rw [decide_eq_false hlt, decide_eq_false (by omega : ¬ i + 32 * (m + 1) < N), Bool.false_and, Bool.false_and]
    · rcases h.nbits with ⟨h0, hbits, -⟩ | ⟨hne, -⟩
      · exact .inl ⟨h0, hbits, hzeros⟩
      · exact absurd hskip.1 hne
  · obtain ⟨d₁, d₂, hshift, hmodify, hd₂⟩ := shift_chunk hm hd
    have hnbits := nbits_chunk hm h.nbits
    rw [if_neg hskip]
    unfold addChunk
    simp only [hmaskp, hshift, hmodify, Option.bind_eq_bind, Option.bind_some]
    rw [if_neg (by omega)]
    exact afterChunk_next rfl hd₂ hbuf (by rw [hbuf]; exact hbuflen) hspace hcomma
      (.inr ⟨Nat.succ_ne_zero _, hnbits⟩)

/-- **The run**: the chunks from the highest one on. -/
theorem hexLoop_returns {a : Bitmap N} {m : ℕ} {p : HexParse} (hm : 32 * m < N) (h : AtChunk a m p) :
    ∃ d : Bitmap N, Prog.Returns (Prog.iterate (fun p => (hexPass N p : Option _)) p) (d.block, 0) ∧
      ∀ i, d.bit i = (decide (i < N) && a.bit i) := by
  induction m generalizing p with
  | zero =>
      obtain ⟨d, hpass, hd⟩ := hexPass_spec hm h
      exact ⟨d, Prog.Returns.iterate_done (Prog.returns_lift.mpr hpass), hd⟩
  | succ m ih =>
      obtain ⟨p', hpass, h'⟩ := hexPass_spec hm h
      obtain ⟨d, hrun, hd⟩ := ih (by omega) h'
      exact ⟨d, Prog.Returns.iterate_next (Prog.returns_lift.mpr hpass) hrun, hd⟩

theorem bitmapParse_hexOf (hN : 0 < N) (a : Bitmap N) {dst : Block Word} (hdst : dst.size = bitsToLongs N) :
    ∃ d : Bitmap N, Prog.Returns (bitmapParse (hexOf a) (hexOf a).length dst N) (d.block, 0) ∧
      ∀ i, d.bit i = (decide (i < N) && a.bit i) := by
  obtain ⟨z, hzero, hz⟩ := bitmapZero_spec hdst
  obtain ⟨m, hm⟩ : ∃ m, (N + 31) / 32 = m + 1 := ⟨(N + 31) / 32 - 1, by omega⟩
  have hstart : AtChunk a m ⟨hexOf a, (hexOf a).length, 0, 0, z.block, 0, 0⟩ := by
    refine ⟨?_, rfl, rfl, ⟨z, rfl, fun i => ?_⟩, .inl ⟨rfl, rfl, fun i hi hlt => ?_⟩⟩
    · unfold hexOf
      rw [hm]
    · rw [hz, decide_eq_false (by omega), Bool.false_and]
    · omega
  obtain ⟨d, hrun, hd⟩ := hexLoop_returns (by omega) hstart
  refine ⟨d, ?_, hd⟩
  unfold bitmapParse
  rw [hzero]
  exact hrun

/-- **The round trip.**  What `bitmap_scnprintf` prints into a buffer with room for the text and a NUL is
parsed back: `bitmap_parse` returns 0 and leaves the same positions, with zeros in the unused bits. -/
theorem bitmapParse_bitmapScnprintf (hN : 0 < N) (a : Bitmap N) {buf : Block Byte} {buflen : ℕ}
    (hlen : (hexOf a).length < buflen) (hsize : buflen ≤ buf.size) (hint : buflen < 2 ^ 32) {dst : Block Word}
    (hdst : dst.size = bitsToLongs N) : ∃ buf' len chars, ∃ d : Bitmap N,
      bitmapScnprintf buf buflen a.block N = some (buf', len) ∧ buf'.readList 0 len = some chars ∧
      Prog.Returns (bitmapParse chars len dst N) (d.block, 0) ∧ Agree a d ∧ d.Clean := by
  obtain ⟨buf', hprint, hhas⟩ := bitmapScnprintf_spec hint hlen hsize
  obtain ⟨d, hparse, hd⟩ := bitmapParse_hexOf hN a hdst
  refine ⟨buf', _, hexOf a, d, hprint, hhas.readList, hparse, fun i hi => ?_, fun i hi => ?_⟩
  · rw [hd, decide_eq_true hi, Bool.true_and]
  · rw [hd, decide_eq_false (by omega), Bool.false_and]

/-- A bitmap of 33 positions with the first, the fourth and the last one set. -/
def sample33 : Bitmap 33 := .ofWords 33 fun _ => 0x100000009

theorem bitmapParse_bitmapScnprintf_sample : ∃ buf' len chars, ∃ d : Bitmap 33,
    bitmapScnprintf (Block.null.realloc 16) 16 sample33.block 33 = some (buf', len) ∧
      buf'.readList 0 len = some chars ∧
      Prog.Returns (bitmapParse chars len (Block.null.realloc 1) 33) (d.block, 0) ∧ Agree sample33 d ∧ d.Clean := by
  have htext : (hexOf sample33).length = 10 := by
    decide +kernel
  exact bitmapParse_bitmapScnprintf (by decide) sample33 (by rw [htext]; decide) (by decide) (by decide) (by decide)

end Libls.Bitmaps
