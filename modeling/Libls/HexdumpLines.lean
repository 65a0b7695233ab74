import Libls.FileLinesRuns
import Libls.Hexdump

/-! # Dumps of whole buffers, and reading digits back

A line of a dump that has room holds the digits of all its bytes, and `hex2bin` reads them back;
`print_hex_dump` prints such a line for every row of the buffer. -/

namespace Libls.Hexdump
open Percent Printf Strings Numerals

section
variable {src dst : Block Byte} {text bytes : List Byte} {d s : ℕ}

theorem hexPair_of_digits {hi lo : Byte} (hhi : isxdigit hi = true) (hlo : isxdigit lo = true) :
    hexPair (UInt8.ofNat ((hexToBin hi).toNat <<< 4 ||| (hexToBin lo).toNat)) = [tolower hi, tolower lo] := by
  have h₁ := hexToBin_lt hi
  have h₂ := hexToBin_lt lo
  have hor : (hexToBin hi).toNat <<< 4 ||| (hexToBin lo).toNat = 16 * (hexToBin hi).toNat + (hexToBin lo).toNat := by
    rw [← Nat.shiftLeft_add_eq_or_of_lt (by omega), Nat.shiftLeft_eq, Nat.mul_comm]
  have hval : (UInt8.ofNat (16 * (hexToBin hi).toNat + (hexToBin lo).toNat)).toNat =
      16 * (hexToBin hi).toNat + (hexToBin lo).toNat := by
    rw [UInt8.toNat_ofNat', Nat.mod_eq_of_lt (by omega)]
  rw [hor, hexPair, hval, ← digitChar_hexToBin hi hhi, ← digitChar_hexToBin lo hlo]
  congr 2
  · omega
  · congr 1
    omega

/-- `hex2bin` accepts `2 * count` digits of either case and nothing else; the bytes that it stores are those
with these digits, and it stores at most `count`. -/
theorem hex2bin_returns (htext : src.Has s text) {count : ℕ} (hlen : text.length = 2 * count)
    (hdst : d + count ≤ dst.size) :
    ∃ dst' r, hex2bin src dst d s count = some (dst', r) ∧ (r = 0 ∨ r = -1) ∧
      (r = 0 ↔ ∀ c ∈ text, isxdigit c = true) ∧
      (r = 0 → ∃ bytes, dst'.Has d bytes ∧ bytes.flatMap hexPair = text.map tolower) ∧
      dst'.size = dst.size ∧ ∀ j, j < d ∨ d + count ≤ j → dst'.read j = dst.read j := by
  induction count generalizing dst d s text with
  | zero =>
      have hnil : text = [] := List.length_eq_zero_iff.mp hlen
      subst hnil
      exact ⟨dst, 0, rfl, .inl rfl, by simp, fun _ => ⟨[], Block.has_nil, rfl⟩, rfl, fun _ _ => rfl⟩
  | succ count ih =>
      obtain ⟨hi, lo, text, rfl⟩ : ∃ hi lo text', text = hi :: lo :: text' := by
        match text, hlen with
        | hi :: lo :: text', _ => exact ⟨hi, lo, text', rfl⟩
      obtain ⟨hreadhi, htext⟩ := Block.has_cons.mp htext
      obtain ⟨hreadlo, htext⟩ := Block.has_cons.mp htext
      rw [hex2bin]
      simp only [hreadhi, hreadlo, Option.bind_eq_bind, Option.bind_some]
      by_cases hbad : hexToBin hi < 0 ∨ hexToBin lo < 0
      · refine ⟨dst, -1, if_pos hbad, .inr rfl, ?_, fun h => absurd h (by decide), rfl, fun _ _ => rfl⟩
        rw [hexToBin_neg, hexToBin_neg] at hbad
        constructor
        · exact fun h => absurd h (by decide)
        · intro hall
          have hhi := hall hi (by simp)
          have hlo := hall lo (by simp)
          rw [hhi, hlo] at hbad
          simp at hbad
      · rw [if_neg hbad]
        rw [hexToBin_neg, hexToBin_neg, not_or, Bool.not_eq_false, Bool.not_eq_false] at hbad
        let byte := UInt8.ofNat ((hexToBin hi).toNat <<< 4 ||| (hexToBin lo).toNat)
        obtain ⟨dst₁, hwrite, hsize₁, hread₁⟩ := @Block.write_of_lt _ dst d (by omega) byte
        have hrest : text.length = 2 * count := by
          simp only [List.length_cons] at hlen
          omega
        obtain ⟨dst', r, hcall, hr, hiff, hbytes, hsize, hframe⟩ := @ih dst₁ text (d + 1) (s + 1 + 1) htext hrest
          (by omega)
        refine ⟨dst', r, ?_, hr, ?_, fun hzero => ?_, hsize.trans hsize₁, fun j hj => ?_⟩
        · rw [hwrite, Option.bind_some]
          exact hcall
        · rw [hiff, List.forall_mem_cons, List.forall_mem_cons]
          exact ⟨fun h => ⟨hbad.1, hbad.2, h⟩, fun h => h.2.2⟩
        · obtain ⟨bytes, hhas, hpairs⟩ := hbytes hzero
          refine ⟨byte :: bytes, Block.has_cons.mpr ⟨?_, hhas⟩, ?_⟩
          · rw [hframe d (.inl (Nat.lt_succ_self d)), hread₁, if_pos rfl]
          · rw [List.flatMap_cons, hpairs, hexPair_of_digits hbad.1 hbad.2]
            rfl
        · rw [hframe j (by omega), hread₁, if_neg (by omega)]

theorem hexPair_injective : Function.Injective hexPair := by
  intro b c h
  have hdigit : ∀ m < 16, ∀ n < 16, digitChar m = digitChar n → m = n := by decide
  have hb := b.toNat_lt
  have hc := c.toNat_lt
  simp only [hexPair, List.cons.injEq, and_true] at h
  have hhi := hdigit _ (by omega) _ (by omega) h.1
  have hlo := hdigit _ (by omega) _ (by omega) h.2
  apply UInt8.toNat_inj.mp
  omega

theorem hexPairs_injective {us vs : List Byte} (h : us.flatMap hexPair = vs.flatMap hexPair) : us = vs := by
  induction us generalizing vs with
  | nil =>
      cases vs with
      | nil => rfl
      | cons v vs => simp [hexPair] at h
  | cons u us ih =>
      cases vs with
      | nil => simp [hexPair] at h
      | cons v vs =>
          rw [List.flatMap_cons, List.flatMap_cons] at h
          obtain ⟨hpair, hrest⟩ := List.append_inj h rfl
          rw [hexPair_injective hpair, ih hrest]

theorem mem_hexPairs {c : Byte} (h : c ∈ bytes.flatMap hexPair) : isxdigit c = true ∧ tolower c = c := by
  have hdigit : ∀ n < 16, isxdigit (digitChar n) = true ∧ tolower (digitChar n) = digitChar n := by decide
  obtain ⟨b, -, hc⟩ := List.mem_flatMap.mp h
  have hb := b.toNat_lt
  simp only [hexPair, List.mem_cons, List.not_mem_nil, or_false] at hc
  obtain rfl | rfl := hc
  · exact hdigit _ (by omega)
  · exact hdigit _ (by omega)

/-- The digits of bytes are read back. -/
theorem hex2bin_hexPairs (htext : src.Has s (bytes.flatMap hexPair)) (hdst : d + bytes.length ≤ dst.size) :
    ∃ dst', hex2bin src dst d s bytes.length = some (dst', 0) ∧ dst'.Has d bytes := by
  have hlen : (bytes.flatMap hexPair).length = 2 * bytes.length := by
    simp [List.length_flatMap, hexPair, Nat.mul_comm]
  obtain ⟨dst', r, hcall, -, hiff, hbytes, -⟩ := hex2bin_returns htext hlen hdst
  have hzero : r = 0 := hiff.mpr fun c hc => (mem_hexPairs hc).1
  obtain ⟨bytes', hhas, hpairs⟩ := hbytes hzero
  have hlower : (bytes.flatMap hexPair).map tolower = bytes.flatMap hexPair :=
    (List.map_congr_left fun c hc => (mem_hexPairs hc).2).trans (List.map_id _)
  rw [hlower] at hpairs
  rw [hexPairs_injective hpairs] at hhas
  exact ⟨dst', by rw [hcall, hzero], hhas⟩

end

/-- `hex_byte_pack` for one byte after the other. -/
def packAll (buf : Block Byte) (i : ℕ) (bytes : List Byte) : Option (Block Byte × ℕ) :=
  bytes.foldlM (fun p b => hexBytePack p.1 p.2 b) (buf, i)

theorem packAll_returns {out : Block Byte} {i : ℕ} {bytes : List Byte} (hroom : i + 2 * bytes.length ≤ out.size) :
    ∃ out', packAll out i bytes = some (out', i + 2 * bytes.length) ∧ out'.Has i (bytes.flatMap hexPair) ∧
      ∀ j < i, out'.read j = out.read j := by
  induction bytes generalizing out i with
  | nil => exact ⟨out, rfl, Block.has_nil, fun _ _ => rfl⟩
  | cons b bytes ih =>
      rw [List.length_cons] at hroom
      obtain ⟨out₁, hhi, hsize₁, hread₁⟩ := @Block.write_of_lt _ out i (by omega) (digitChar (b.toNat / 16))
      obtain ⟨out₂, hlo, hsize₂, hread₂⟩ := @Block.write_of_lt _ out₁ (i + 1) (by omega) (digitChar (b.toNat % 16))
      obtain ⟨out', hpack, hhas, hframe⟩ := @ih out₂ (i + 2) (by omega)
      refine ⟨out', ?_, ?_, fun j hj => ?_⟩
      · have hbyte : hexBytePack out i b = some (out₂, i + 2) := by
          simp only [hexBytePack, hexAscHi_eq, hexAscLo_eq, Option.bind_eq_bind, Option.bind_some, hhi, hlo,
            Option.pure_def]
        have hlen : i + 2 + 2 * bytes.length = i + 2 * (b :: bytes).length := by
          rw [List.length_cons]
          omega
        rw [packAll, List.foldlM_cons, hbyte, ← hlen]
        exact hpack
      · rw [List.flatMap_cons, Block.has_append]
        refine ⟨Block.has_cons.mpr ⟨?_, Block.has_cons.mpr ⟨?_, Block.has_nil⟩⟩, hhas⟩
        · rw [hframe i (by omega), hread₂, if_neg (by omega), hread₁, if_pos rfl]
        · rw [hframe (i + 1) (by omega), hread₂, if_pos rfl]
      · rw [hframe j (by omega), hread₂, if_neg (by omega), hread₁, if_neg (by omega)]

/-- `hex2bin` accepts digits of either case and nothing else; from what it stores, `hex_byte_pack` makes the same
digits again, in lower case. -/
theorem hex2bin_packAll {src dst out : Block Byte} {text : List Byte} {d s count : ℕ} (htext : src.Has s text)
    (hlen : text.length = 2 * count) (hdst : d + count ≤ dst.size) (hout : 2 * count ≤ out.size) :
    ∃ dst' r, hex2bin src dst d s count = some (dst', r) ∧ (r = 0 ∨ r = -1) ∧
      (r = 0 ↔ ∀ c ∈ text, isxdigit c = true) ∧
      (r = 0 → ∃ bytes out', dst'.Has d bytes ∧ packAll out 0 bytes = some (out', 2 * count) ∧
        out'.Has 0 (text.map tolower)) ∧
      ∀ j, j < d ∨ d + count ≤ j → dst'.read j = dst.read j := by
  obtain ⟨dst', r, hcall, hr, hiff, hbytes, -, hframe⟩ := hex2bin_returns htext hlen hdst
  refine ⟨dst', r, hcall, hr, hiff, fun hzero => ?_, hframe⟩
  obtain ⟨bytes, hhas, hpairs⟩ := hbytes hzero
  have hcount : bytes.length = count := by
    have h := congrArg List.length hpairs
    simp only [List.length_flatMap, hexPair, List.length_cons, List.length_nil, List.map_const', List.sum_replicate,
      smul_eq_mul, List.length_map, hlen] at h
    omega
  obtain ⟨out', hpack, hdigits, -⟩ := @packAll_returns out 0 bytes (by omega)
  rw [hpairs] at hdigits
  rw [Nat.zero_add, hcount] at hpack
  exact ⟨bytes, out', hhas, hpack, hdigits⟩

/-- The digits 4Af0. -/
theorem hex2bin_packAll_two : ∃ dst' bytes out',
    hex2bin (Block.ofList [52, 65, 102, 48]) (Block.null.realloc 2) 0 0 2 = some (dst', 0) ∧ dst'.Has 0 bytes ∧
      packAll (Block.null.realloc 4) 0 bytes = some (out', 4) ∧ out'.Has 0 [52, 97, 102, 48] := by
  obtain ⟨dst', r, hcall, -, hiff, hpack, -⟩ := @hex2bin_packAll (Block.ofList [52, 65, 102, 48]) (Block.null.realloc 2)
    (Block.null.realloc 4) [52, 65, 102, 48] 0 0 2 (Block.ofList_has _) rfl (by decide) (by decide)
  obtain rfl : r = 0 := hiff.mpr (List.all_eq_true.mp (by decide))
  obtain ⟨bytes, out', hbytes, hout, hdigits⟩ := hpack rfl
  exact ⟨dst', bytes, out', hcall, hbytes, hout, hdigits⟩

/-! ### Complete lines -/

/-- The line for `bytes`, with all of their digits and characters. -/
def fullLine (bytes : List Byte) (rowsize size : ℕ) (ascii : Bool) : List Byte :=
  let digits := groupsText size bytes (bytes.length / size)
  if ascii then
    digits ++ List.replicate (asciiColumnOf rowsize size bytes.length - 1 - digits.length) space ++ bytes.map asciiChar
  else digits

section
variable {bytes : List Byte} {rowsize size linebuflen : ℕ}

/-- The digits end two columns before the characters, or earlier. -/
theorem length_groupsText (hne : bytes ≠ []) (hsize : 0 < size) (hdvd : size ∣ bytes.length) :
    (groupsText size bytes (bytes.length / size)).length + 1 = (2 * size + 1) * (bytes.length / size) := by
  have hpos : 0 < bytes.length / size :=
    Nat.div_pos (Nat.le_of_dvd (List.length_pos_iff.mpr hne) hdvd) hsize
  obtain ⟨n, hn⟩ := Nat.exists_eq_succ_of_ne_zero (Nat.ne_of_gt hpos)
  rw [hn]
  apply length_groupsText_succ hsize
  rw [← Nat.succ_eq_add_one, ← hn]
  exact Nat.div_mul_le_self _ _

theorem length_groupsText_le (hne : bytes ≠ []) (hsize : 0 < size) (hdvd : size ∣ bytes.length)
    (hle : bytes.length ≤ rowsize) :
    (groupsText size bytes (bytes.length / size)).length + 3 ≤ asciiColumnOf rowsize size bytes.length := by
  have hlen := length_groupsText hne hsize hdvd
  unfold asciiColumnOf
  split
  · rename_i hone
    rw [hone, Nat.div_one] at hlen ⊢
    omega
  · omega

theorem length_fullLine (hne : bytes ≠ []) (hsize : 0 < size) (hdvd : size ∣ bytes.length)
    (hle : bytes.length ≤ rowsize) : (fullLine bytes rowsize size true).length =
      asciiColumnOf rowsize size bytes.length - 1 + bytes.length := by
  have hcolumn := length_groupsText_le hne hsize hdvd hle
  simp only [fullLine, if_true, List.length_append, List.length_replicate, List.length_map]
  omega

theorem digitsText_eq (hne : bytes ≠ []) (hsize : 0 < size) (hdvd : size ∣ bytes.length)
    (hroom : (groupsText size bytes (bytes.length / size)).length < linebuflen) :
    digitsText bytes size linebuflen = groupsText size bytes (bytes.length / size) := by
  unfold digitsText
  split
  · rename_i hone
    have hlen := length_groupsText hne hsize hdvd
    rw [hone, Nat.div_one] at hlen hroom ⊢
    rw [Nat.min_eq_left (by omega)]
  · exact List.take_of_length_le (by omega)

/-- Where there is room, nothing is left out: with characters a line needs one byte more than it uses. -/
theorem dumpText_eq (hne : bytes ≠ []) (hsize : 0 < size) (hdvd : size ∣ bytes.length)
    (hle : bytes.length ≤ rowsize) {ascii : Bool}
    (hroom : (fullLine bytes rowsize size ascii).length + (if ascii then 1 else 0) < linebuflen) :
    dumpText bytes rowsize size linebuflen ascii = fullLine bytes rowsize size ascii := by
  have hcolumn := length_groupsText_le hne hsize hdvd hle
  cases ascii with
  | false =>
      simp only [fullLine, Bool.false_eq_true, if_false, Nat.add_zero] at hroom
      simp only [dumpText, fullLine, Bool.false_eq_true, false_and, if_false]
      exact digitsText_eq hne hsize hdvd hroom
  | true =>
      rw [length_fullLine hne hsize hdvd hle, if_pos rfl] at hroom
      have hdigits := digitsText_eq hne hsize hdvd (by omega : _ < linebuflen)
      have hmin : min (linebuflen - 1) (asciiColumnOf rowsize size bytes.length - 1) =
          asciiColumnOf rowsize size bytes.length - 1 := by omega
      simp only [dumpText, fullLine, hdigits, paddedText, hmin, hne, if_true, ne_eq, not_false_eq_true, and_self]
      rw [List.take_of_length_le]
      simp only [List.length_map, List.length_append, List.length_replicate]
      omega

/-- The group number `j` of a line is where its number says. -/
theorem groupsText_group (hsize : 0 < size) {n j : ℕ} (hn : n * size ≤ bytes.length) (hj : j < n) :
    ∃ A B, groupsText size bytes n = A ++ groupText ((bytes.drop (j * size)).take size) ++ B ∧
      A.length = j * (2 * size + 1) := by
  induction n with
  | zero => omega
  | succ n ih =>
      have hle : n * size ≤ bytes.length := Nat.le_trans (Nat.mul_le_mul_right size (Nat.le_succ n)) hn
      by_cases hlast : j = n
      · subst hlast
        refine ⟨groupsText size bytes j ++ (if j ≠ 0 then [space] else []), [], ?_, ?_⟩
        · rw [groupsText, List.append_nil]
        · cases j with
          | zero => simp [groupsText]
          | succ j =>
              have hlen := length_groupsText_succ hsize hle
              rw [List.length_append, if_pos (Nat.succ_ne_zero j), List.length_singleton, hlen, Nat.mul_comm]
      · obtain ⟨A, B, heq, hA⟩ := ih hle (by omega)
        refine ⟨A, B ++ ((if n ≠ 0 then [space] else []) ++ groupText ((bytes.drop (n * size)).take size)), ?_, hA⟩
        rw [groupsText, heq]
        simp only [List.append_assoc]

/-- `hex2bin` reads every group of a complete line back, the bytes of a group in the order of their digits. -/
theorem hex2bin_fullLine (hsize : 0 < size) {ascii : Bool} {linebuf dst : Block Byte}
    {s d j : ℕ} (hline : linebuf.Has s (fullLine bytes rowsize size ascii)) (hj : (j + 1) * size ≤ bytes.length)
    (hdst : d + size ≤ dst.size) :
    ∃ dst', hex2bin linebuf dst d (s + j * (2 * size + 1)) size = some (dst', 0) ∧
      dst'.Has d ((bytes.drop (j * size)).take size).reverse := by
  have hlen := length_group hj
  have hne : (bytes.drop (j * size)).take size ≠ [] := by
    rintro hnil
    rw [hnil, List.length_nil] at hlen
    omega
  have hcount : j < bytes.length / size := (Nat.le_div_iff_mul_le hsize).mpr hj
  have hdigits : linebuf.Has s (groupsText size bytes (bytes.length / size)) := by
    unfold fullLine at hline
    cases ascii with
    | false => exact hline
    | true =>
        rw [if_pos rfl, List.append_assoc, Block.has_append] at hline
        exact hline.1
  obtain ⟨A, B, heq, hA⟩ := groupsText_group hsize (Nat.div_mul_le_self bytes.length size) hcount
  rw [heq, List.append_assoc, Block.has_append, Block.has_append, hA, groupText_eq hne] at hdigits
  have hrevlen : ((bytes.drop (j * size)).take size).reverse.length = size := by rw [List.length_reverse, hlen]
  have hread := @hex2bin_hexPairs linebuf dst ((bytes.drop (j * size)).take size).reverse d (s + j * (2 * size + 1))
    hdigits.2.1 (by rwa [hrevlen])
  rwa [hrevlen] at hread

end

/-! ### Printable characters -/

section
variable {bytes : List Byte} {size : ℕ} {c : Byte}

theorem isPrintable_groupsText (n : ℕ) (hc : c ∈ groupsText size bytes n) : isPrintable c = true := by
  have hdigit : ∀ m < 16, isPrintable (digitChar m) = true := by decide
  induction n with
  | zero => cases hc
  | succ n ih =>
      rw [groupsText, List.mem_append, List.mem_append] at hc
      obtain (hc | hc) | hc := hc
      · exact ih hc
      · split at hc
        · rw [List.mem_singleton.mp hc]
          decide
        · cases hc
      · obtain ⟨m, hm, rfl⟩ := List.mem_map.mp hc
        exact hdigit m (lt_of_mem_numeral (by decide) hm)

theorem isPrintable_asciiChar (c : Byte) : isPrintable (asciiChar c) = true := by
  revert c
  apply forall_byte
  decide +kernel

/-- A line has no control characters in it, nor a NUL. -/
theorem isPrintable_dumpText {rowsize linebuflen : ℕ} {ascii : Bool}
    (hc : c ∈ dumpText bytes rowsize size linebuflen ascii) : isPrintable c = true := by
  have hdigits (hc : c ∈ digitsText bytes size linebuflen) : isPrintable c = true := by
    unfold digitsText at hc
    split at hc
    · exact isPrintable_groupsText _ hc
    · exact isPrintable_groupsText _ (List.mem_of_mem_take hc)
  unfold dumpText at hc
  split at hc
  · obtain hc | hc := List.mem_append.mp hc
    · obtain hc | hc := List.mem_append.mp hc
      · exact hdigits hc
      · rw [List.eq_of_mem_replicate hc]
        decide
    · obtain ⟨b, -, rfl⟩ := List.mem_map.mp (List.mem_of_mem_take hc)
      exact isPrintable_asciiChar b
  · exact hdigits hc

theorem nul_notMem_dumpText {rowsize linebuflen : ℕ} {ascii : Bool} :
    (0 : Byte) ∉ dumpText bytes rowsize size linebuflen ascii := fun hc => absurd (isPrintable_dumpText hc) (by decide)

end

theorem groupBytes_dvd (len : ℕ) (groupsize : ℤ) : groupBytes len groupsize ∣ len := by
  unfold groupBytes
  split
  · exact Nat.one_dvd len
  · rename_i hmod
    rw [not_not] at hmod
    split
    · rename_i h
      subst h
      exact Nat.dvd_of_mod_eq_zero hmod
    · split
      · rename_i h
        subst h
        exact Nat.dvd_of_mod_eq_zero hmod
      · split
        · rename_i h
          subst h
          exact Nat.dvd_of_mod_eq_zero hmod
        · exact Nat.one_dvd len

theorem groupBytes_cases (len : ℕ) (groupsize : ℤ) :
    groupBytes len groupsize = 1 ∨ groupBytes len groupsize = 2 ∨ groupBytes len groupsize = 4 ∨
      groupBytes len groupsize = 8 := by
  unfold groupBytes
  split
  · exact .inl rfl
  · split
    · exact .inr (.inr (.inr rfl))
    · split
      · exact .inr (.inr (.inl rfl))
      · split
        · exact .inr (.inl rfl)
        · exact .inl rfl

/-- The buffer of `print_hex_dump` has room for every line. -/
theorem fullLine_room {bytes : List Byte} {rowsize : ℕ} (hne : bytes ≠ []) (hle : bytes.length ≤ rowsize)
    (hrow : rowsize ≤ 32) (groupsize : ℤ) (ascii : Bool) :
    (fullLine bytes rowsize (groupBytes bytes.length groupsize) ascii).length + (if ascii then 1 else 0) < 131 := by
  have hdvd := groupBytes_dvd bytes.length groupsize
  have hcases := groupBytes_cases bytes.length groupsize
  generalize groupBytes bytes.length groupsize = size at hdvd hcases
  have hsize : 0 < size := by omega
  have hcolumn := length_groupsText_le hne hsize hdvd hle
  have hbound : asciiColumnOf rowsize size bytes.length ≤ 98 := by
    unfold asciiColumnOf
    obtain rfl | rfl | rfl | rfl := hcases <;> simp <;> omega
  cases ascii with
  | false =>
      simp only [fullLine, Bool.false_eq_true, if_false]
      omega
  | true =>
      rw [length_fullLine hne hsize hdvd hle, if_pos rfl]
      omega

theorem length_dumpText_lt {bytes : List Byte} {rowsize size linebuflen : ℕ} (hpos : 0 < linebuflen) (ascii : Bool) :
    (dumpText bytes rowsize size linebuflen ascii).length < linebuflen := by
  have hdigits := @length_digitsText_lt linebuflen bytes hpos size
  unfold dumpText
  split
  · have hpadded := length_paddedText hdigits (asciiColumnOf rowsize size bytes.length)
    rw [List.length_append, List.length_take]
    omega
  · exact hdigits

/-- With room for one byte, a line is a string of printable characters that stays in its buffer; with room for all
of it, it is the complete line. -/
theorem hexDumpToBuffer_line {buf linebuf : Block Byte} {linebuflen ptr len : ℕ} {bytes : List Byte}
    {rowsize groupsize : ℤ} (hbuf : linebuflen ≤ linebuf.size) (hpos : 0 < linebuflen) (hbytes : buf.Has ptr bytes)
    (hlen : bytes.length = min len (rowBytes rowsize)) (hgroup : toSize groupsize ≠ 0) (ascii : Bool) :
    ∃ linebuf' text, hexDumpToBuffer buf ptr len rowsize groupsize linebuf linebuflen ascii = some linebuf' ∧
      linebuf'.size = linebuf.size ∧ linebuf'.Has 0 (text ++ [0]) ∧ text.length < linebuflen ∧
      (∀ c ∈ text, isPrintable c = true) ∧ (∀ j, linebuflen ≤ j → linebuf'.read j = linebuf.read j) ∧
      ((fullLine bytes (rowBytes rowsize) (groupBytes bytes.length groupsize) ascii).length +
        (if ascii then 1 else 0) < linebuflen → bytes ≠ [] →
        text = fullLine bytes (rowBytes rowsize) (groupBytes bytes.length groupsize) ascii) := by
  obtain ⟨linebuf', hcall, hsize, hhas, hrest⟩ := hexDumpToBuffer_returns hbuf hpos hbytes hlen hgroup ascii
  refine ⟨linebuf', _, hcall, hsize, hhas, ?_, fun c hc => isPrintable_dumpText hc, hrest, fun hroom hne => ?_⟩
  · exact length_dumpText_lt hpos ascii
  · have hcases := groupBytes_cases bytes.length groupsize
    exact dumpText_eq hne (by omega) (groupBytes_dvd _ _) (by omega) hroom

theorem hexDumpToBuffer_line_two : ∃ linebuf',
    hexDumpToBuffer (Block.ofList [65, 10]) 0 2 16 1 (Block.null.realloc 80) 80 true = some linebuf' ∧
      linebuf'.Has 0 (fullLine [65, 10] 16 1 true ++ [0]) ∧ (∀ c ∈ fullLine [65, 10] 16 1 true, isPrintable c = true) := by
  obtain ⟨linebuf', text, hcall, -, hhas, -, hprintable, -, hfull⟩ := @hexDumpToBuffer_line (Block.ofList [65, 10])
    (Block.null.realloc 80) 80 0 2 [65, 10] 16 1 (by decide) (by decide) (Block.ofList_has _) (by decide) (by decide) true
  obtain rfl : text = fullLine [65, 10] 16 1 true := hfull (by decide) (by decide)
  exact ⟨linebuf', hcall, hhas, hprintable⟩

/-- What a line shows can be read back with `hex2bin`, group by group: the bytes of a group come last first. -/
theorem hexDumpToBuffer_hex2bin {buf linebuf : Block Byte} {linebuflen ptr len : ℕ} {bytes : List Byte}
    {rowsize groupsize : ℤ} (hbuf : linebuflen ≤ linebuf.size) (hbytes : buf.Has ptr bytes) (hne : bytes ≠ [])
    (hlen : bytes.length = min len (rowBytes rowsize)) (hgroup : toSize groupsize ≠ 0) {ascii : Bool}
    (hroom : (fullLine bytes (rowBytes rowsize) (groupBytes bytes.length groupsize) ascii).length +
      (if ascii then 1 else 0) < linebuflen) :
    ∃ linebuf', hexDumpToBuffer buf ptr len rowsize groupsize linebuf linebuflen ascii = some linebuf' ∧
      ∀ dst d j, (j + 1) * groupBytes bytes.length groupsize ≤ bytes.length →
        d + groupBytes bytes.length groupsize ≤ dst.size →
        ∃ dst', hex2bin linebuf' dst d (j * (2 * groupBytes bytes.length groupsize + 1))
            (groupBytes bytes.length groupsize) = some (dst', 0) ∧
          dst'.Has d ((bytes.drop (j * groupBytes bytes.length groupsize)).take
            (groupBytes bytes.length groupsize)).reverse := by
  have hcases := groupBytes_cases bytes.length groupsize
  obtain ⟨linebuf', hcall, -, hhas, -⟩ := hexDumpToBuffer_returns hbuf (by omega) hbytes hlen hgroup ascii
  refine ⟨linebuf', hcall, fun dst d j hj hdst => ?_⟩
  rw [dumpText_eq hne (by omega) (groupBytes_dvd _ _) (by omega) hroom] at hhas
  have hread := hex2bin_fullLine (by omega) (Block.has_append.mp hhas).1 hj hdst
  rwa [Nat.zero_add] at hread

theorem hexDumpToBuffer_hex2bin_four : ∃ linebuf',
    hexDumpToBuffer (Block.ofList [1, 2, 3, 4]) 0 4 16 2 (Block.null.realloc 10) 10 false = some linebuf' ∧
      ∃ dst', hex2bin linebuf' (Block.null.realloc 2) 0 5 2 = some (dst', 0) ∧ dst'.Has 0 [4, 3] := by
  obtain ⟨linebuf', hcall, hread⟩ := @hexDumpToBuffer_hex2bin (Block.ofList [1, 2, 3, 4]) (Block.null.realloc 10) 10 0
    4 [1, 2, 3, 4] 16 2 (by decide) (Block.ofList_has _) (by decide) (by decide) (by decide) false (by decide)
  exact ⟨linebuf', hcall, hread (Block.null.realloc 2) 0 1 (by decide) (by decide)⟩

/-! ### Dumps of buffers -/

/-- `prefix_type` -/
inductive PrefixType where
  | none
  | address
  | offset
deriving DecidableEq, Repr

/-- `%s` -/
def readString (buf : Block Byte) : Option (List Byte) := do
  let n ← FileLines.strlen buf 0
  buf.readList 0 n

/-- The variables of the loop of `print_hex_dump`, with the lines that have been printed. -/
structure DumpLoop where
  i : ℕ
  remaining : ℤ
  linebuf : Block Byte
  printed : List (List Byte)

section
variable (pointer : ℕ → List Byte) (level prefixStr : List Byte) (prefixType : PrefixType)

/-- What `pr` prints for the line at the offset `i`; `pointer` is what `%p` prints for an offset in the buffer. -/
def printedLine (i : ℕ) (line : List Byte) : List Byte :=
  match prefixType with
  | .address => level ++ prefixStr ++ pointer i ++ [58, 32] ++ line ++ [10]
  | .offset => level ++ prefixStr ++ hexText 8 i ++ [58, 32] ++ line ++ [10]
  | .none => level ++ prefixStr ++ line ++ [10]

/-- One pass of the loop; an `int` that overflows has no result. -/
def dumpPass (rowsize groupsize : ℤ) (buf : Block Byte) (len : ℕ) (ascii : Bool) (p : DumpLoop) :
    Option (Iter DumpLoop (List (List Byte))) :=
  if p.i < len then do
    let linelen := min p.remaining rowsize
    let linebuf ← hexDumpToBuffer buf p.i (toSize linelen) rowsize groupsize p.linebuf 131 ascii
    let text := printedLine pointer level prefixStr prefixType p.i (← readString linebuf)
    if p.i + rowsize < 2 ^ 31 then
      return .next ⟨(p.i + rowsize).toNat, p.remaining - rowsize, linebuf, p.printed ++ [text]⟩
    else none
  else return .done p.printed

/-- `print_hex_dump`, with `char linebuf[32 * 3 + 2 + 32 + 1]`. -/
def printHexDump (rowsize groupsize : ℤ) (buf : Block Byte) (len : ℕ) (ascii : Bool) : Prog (List (List Byte)) :=
  Prog.iterate (fun p => liftM (dumpPass pointer level prefixStr prefixType (rowBytes rowsize) groupsize buf len ascii p))
    ⟨0, toInt (u32 len), Block.null.realloc 131, []⟩

end

/-- `print_hex_dump_bytes` -/
def printHexDumpBytes (pointer : ℕ → List Byte) (prefixStr : List Byte) (prefixType : PrefixType)
    (buf : Block Byte) (len : ℕ) : Prog (List (List Byte)) :=
  printHexDump pointer [60, 55, 62] prefixStr prefixType 16 1 buf len true

/-- A string in a buffer is what `%s` prints. -/
theorem readString_eq {buf : Block Byte} {text : List Byte} (h : buf.Has 0 (text ++ [0])) (hnul : (0 : Byte) ∉ text) :
    readString buf = some text := by
  have hsize : text.length < buf.size := by
    have hlast := (Block.has_cons.mp (Block.has_append.mp h).2).1
    rw [Nat.zero_add] at hlast
    exact Block.lt_of_read hlast
  rw [readString, FileLines.strlen, FileLines.strlenFrom_spec h hnul (by omega), Option.bind_eq_bind, Option.bind_some,
    (Block.has_append.mp h).1.readList]

theorem rowBytes_cases (rowsize : ℤ) : rowBytes rowsize = 16 ∨ rowBytes rowsize = 32 := by
  unfold rowBytes
  split <;> omega

theorem rowBytes_rowBytes (rowsize : ℤ) : rowBytes (rowBytes rowsize) = rowBytes rowsize := by
  obtain h | h := rowBytes_cases rowsize
  · rw [h]
    rfl
  · rw [h]
    rfl

/-- The row number `k` of a buffer. -/
def row (bytes : List Byte) (r k : ℕ) : List Byte := (bytes.drop (k * r)).take r

section
variable {pointer : ℕ → List Byte} {level prefixStr : List Byte} {prefixType : PrefixType} {buf : Block Byte}
  {bytes : List Byte} {rowsize groupsize : ℤ} {ascii : Bool}

/-- What is printed for the row number `k`. -/
def rowLine (pointer : ℕ → List Byte) (level prefixStr : List Byte) (prefixType : PrefixType) (bytes : List Byte)
    (r : ℕ) (groupsize : ℤ) (ascii : Bool) (k : ℕ) : List Byte :=
  printedLine pointer level prefixStr prefixType (k * r)
    (fullLine (row bytes r k) r (groupBytes (row bytes r k).length groupsize) ascii)

theorem length_row {r k : ℕ} : (row bytes r k).length = min r (bytes.length - k * r) := by
  rw [row, List.length_take, List.length_drop]

theorem has_row (hbytes : buf.Has 0 bytes) {r k : ℕ} (hk : k * r ≤ bytes.length) : buf.Has (k * r) (row bytes r k) := by
  rw [← List.take_append_drop (k * r) bytes, Block.has_append, List.length_take, Nat.min_eq_left hk,
    Nat.zero_add] at hbytes
  have hdrop := hbytes.2
  rw [← List.take_append_drop r (bytes.drop (k * r)), Block.has_append] at hdrop
  exact hdrop.1

/-- A pass prints the line for one row. -/
theorem dumpPass_row (hbytes : buf.Has 0 bytes) (hgroup : toSize groupsize ≠ 0) (hlen : bytes.length + 32 ≤ 2 ^ 31)
    {k : ℕ} (hk : k * rowBytes rowsize < bytes.length) {linebuf : Block Byte} (hsize : linebuf.size = 131)
    (printed : List (List Byte)) :
    ∃ linebuf', dumpPass pointer level prefixStr prefixType (rowBytes rowsize) groupsize buf bytes.length ascii
        ⟨k * rowBytes rowsize, (bytes.length : ℤ) - (k * rowBytes rowsize : ℕ), linebuf, printed⟩ =
        some (.next ⟨(k + 1) * rowBytes rowsize, (bytes.length : ℤ) - ((k + 1) * rowBytes rowsize : ℕ), linebuf',
          printed ++ [rowLine pointer level prefixStr prefixType bytes (rowBytes rowsize) groupsize ascii k]⟩) ∧
      linebuf'.size = 131 := by
  have hrow := rowBytes_cases rowsize
  have hsame := rowBytes_rowBytes rowsize
  generalize rowBytes rowsize = r at hk hrow hsame ⊢
  have hlenrow := @length_row bytes r k
  have hne : row bytes r k ≠ [] := by
    rintro hnil
    rw [hnil, List.length_nil] at hlenrow
    omega
  have hcount : toSize (min ((bytes.length : ℤ) - (k * r : ℕ)) r) = min (bytes.length - k * r) r := by
    unfold toSize
    omega
  obtain ⟨linebuf', hcall, hsize', hhas, -⟩ := @hexDumpToBuffer_returns linebuf buf 131 (k * r) (row bytes r k)
    (by omega) (by decide) (has_row hbytes (Nat.le_of_lt hk)) (min (bytes.length - k * r) r) r groupsize
    (by rw [hsame]; omega) hgroup ascii
  have hcases := groupBytes_cases (row bytes r k).length groupsize
  have hle : (row bytes r k).length ≤ r := by omega
  have htext := dumpText_eq hne (by omega) (groupBytes_dvd (row bytes r k).length groupsize) hle
    (fullLine_room hne hle (by omega) groupsize ascii)
  have hstring := readString_eq hhas nul_notMem_dumpText
  rw [hsame, htext] at hstring
  have hnext : ((k * r : ℕ) : ℤ) + r < 2 ^ 31 := by omega
  have hi : (((k * r : ℕ) : ℤ) + r).toNat = (k + 1) * r := by
    rw [Nat.succ_mul]
    omega
  have hremaining : (bytes.length : ℤ) - (k * r : ℕ) - r = (bytes.length : ℤ) - ((k + 1) * r : ℕ) := by
    rw [Nat.succ_mul]
    omega
  refine ⟨linebuf', ?_, hsize'.trans hsize⟩
  unfold dumpPass
  simp only [if_pos hk, hcount, hcall, hstring, Option.bind_eq_bind, Option.bind_some, if_pos hnext, hi, hremaining,
    rowLine, Option.pure_def]

theorem rows_take (bytes : List Byte) (r n : ℕ) : (List.range n).flatMap (row bytes r) = bytes.take (n * r) := by
  induction n with
  | zero => simp
  | succ n ih =>
      rw [List.range_succ, List.flatMap_append, ih, List.flatMap_singleton, Nat.succ_mul, List.take_add]
      rfl

/-- `print_hex_dump` prints a complete line for each row of a buffer, in order, and the rows are the whole buffer. -/
theorem printHexDump_rows (hbytes : buf.Has 0 bytes) (hgroup : toSize groupsize ≠ 0)
    (hlen : bytes.length + 32 ≤ 2 ^ 31) :
    Prog.Returns (printHexDump pointer level prefixStr prefixType rowsize groupsize buf bytes.length ascii)
      ((List.range ((bytes.length + rowBytes rowsize - 1) / rowBytes rowsize)).map
        (rowLine pointer level prefixStr prefixType bytes (rowBytes rowsize) groupsize ascii)) ∧
      (List.range ((bytes.length + rowBytes rowsize - 1) / rowBytes rowsize)).flatMap
        (row bytes (rowBytes rowsize)) = bytes := by
  have hrow := rowBytes_cases rowsize
  have hcount (k : ℕ) : k < (bytes.length + rowBytes rowsize - 1) / rowBytes rowsize ↔
      k * rowBytes rowsize < bytes.length := by
    rw [Nat.lt_iff_add_one_le, Nat.le_div_iff_mul_le (by omega), Nat.succ_mul]
    omega
  refine ⟨?_, ?_⟩
  · let lines (k : ℕ) := (List.range k).map
      (rowLine pointer level prefixStr prefixType bytes (rowBytes rowsize) groupsize ascii)
    let start : DumpLoop := ⟨0, toInt (u32 bytes.length), Block.null.realloc 131, []⟩
    have hstart : toInt (u32 bytes.length) = bytes.length := by
      rw [u32_of_lt (by omega), toInt_of_lt (by omega)]
    apply @Prog.Returns.iterate_to _ _ _ _ (fun n p => ∃ k linebuf,
      p = ⟨k * rowBytes rowsize, (bytes.length : ℤ) - (k * rowBytes rowsize : ℕ), linebuf, lines k⟩ ∧
      linebuf.size = 131 ∧ k + n = (bytes.length + rowBytes rowsize - 1) / rowBytes rowsize) _
      ((bytes.length + rowBytes rowsize - 1) / rowBytes rowsize) start
    · refine ⟨0, Block.null.realloc 131, ?_, Block.size_realloc, Nat.zero_add _⟩
      simp [start, lines, hstart]
    · rintro n p ⟨k, linebuf, rfl, hsize, hn⟩
      cases n with
      | zero =>
          have hdone : ¬ k * rowBytes rowsize < bytes.length := fun h => absurd ((hcount k).mpr h) (by omega)
          left
          rw [Prog.returns_lift, dumpPass, if_neg hdone, ← hn]
          rfl
      | succ n =>
          have hk : k * rowBytes rowsize < bytes.length := (hcount k).mp (by omega)
          obtain ⟨linebuf', hpass, hsize'⟩ := @dumpPass_row pointer level prefixStr prefixType buf bytes rowsize
            groupsize ascii hbytes hgroup hlen k hk linebuf hsize (lines k)
          right
          refine ⟨_, n, Prog.returns_lift.mpr hpass, Nat.lt_succ_self n, k + 1, linebuf', ?_, hsize', by omega⟩
          simp [lines, List.range_succ]
  · have hge : ¬ (bytes.length + rowBytes rowsize - 1) / rowBytes rowsize * rowBytes rowsize < bytes.length := by
      rw [← hcount]
      exact Nat.lt_irrefl _
    rw [rows_take]
    exact List.take_of_length_le (Nat.not_lt.mp hge)

end

theorem printHexDump_rows_three :
    Prog.Returns (printHexDump (fun _ => []) [] [62] .offset 16 1 (Block.ofList [65, 66, 67]) 3 true)
      [rowLine (fun _ => []) [] [62] .offset [65, 66, 67] 16 1 true 0] :=
  (printHexDump_rows (Block.ofList_has _) (by decide) (by decide)).1

end Libls.Hexdump
