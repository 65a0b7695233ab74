import Mathlib.Data.List.TakeWhile
import Mathlib.Tactic
import Libls.Library.Memory

/-! # Strings and vectors of strings: `src/string.c`

A C string is the list of its bytes before the terminating NUL; a pointer into a string is the
list of the bytes from there on, with the NUL.  A vector of strings keeps pointers to strings,
which may be null, in an allocated array.  Each allocation comes with a flag that says whether
it succeeds.

Lengths are `unsigned int`s, except where the source keeps them in an `int`. -/

namespace Libls.Strings

/-- The value of an `unsigned int` that is stored in an `int`. -/
def toInt (n : ℕ) : ℤ := if n < 2 ^ 31 then n else (n : ℤ) - 2 ^ 32

/-- The value of an `int` that is stored in a `size_t`. -/
def toSize (n : ℤ) : ℕ := (n % 2 ^ 64).toNat

theorem toInt_of_lt {n : ℕ} (h : n < 2 ^ 31) : toInt n = n := if_pos h

theorem toSize_natCast {n : ℕ} (h : n < 2 ^ 64) : toSize n = n := by
  unfold toSize
  omega

/-- `str[i]` -/
def charAt (str : List Byte) (i : ℕ) : Option Byte := str[i]?

/-- The string at `str`. -/
def stringAt (line : List Byte) (str : ℕ) : List Byte := (line.drop str).takeWhile (· ≠ 0)

/-- `strlen(line + str)` -/
def strlenAt (line : List Byte) (str : ℕ) : ℕ := (stringAt line str).length

/-- `strndup(str, len)`: at most `len` bytes, up to the terminator. -/
def strndup (str : List Byte) (len : ℕ) : List Byte := (str.take len).takeWhile (· ≠ 0)

/-- `memchr(str, c, len)`, as an offset; the `len` bytes must be there. -/
def memchr (str : List Byte) (c : Byte) (len : ℕ) : Option (Option ℕ) :=
  if len ≤ str.length then some ((str.take len).findIdx? (· = c)) else none

/-- Whether `strcmp(str, str2) == 0`. -/
def strcmpEq (str str2 : List Byte) : Bool := str.takeWhile (· ≠ 0) = str2.takeWhile (· ≠ 0)

/-- `astrncat(dest, src, src_len)`: the new string, or no string if `realloc` has failed.  The
length of `dest` is kept in an `int`; a negative one has no result. -/
def astrncat (ok : Bool) (dest : Option (List Byte)) (src : List Byte) (srcLen : ℕ) :
    Option (Option (List Byte)) :=
  let dest := dest.getD []
  let destLen := toInt (u32 dest.length)
  if destLen < 0 then none
  else if ok then
    let size := u32 (destLen.toNat + srcLen + 1)
    if destLen.toNat + srcLen < size ∧ srcLen ≤ src.length then
      some (some (dest.take destLen.toNat ++ strndup src srcLen))
    else none
  else some none

/-- `astrcat`; the length becomes an `unsigned int`. -/
def astrcat (ok : Bool) (dest : Option (List Byte)) (src : List Byte) : Option (Option (List Byte)) :=
  astrncat ok dest src (u32 (strlenAt src 0))

/-! ### Stripping

These functions write to a string that other pointers point into, so a pointer is an offset into
`line`, the bytes of the whole buffer. -/

/-- `strchr(line + str, c)`, for a `c` that is not NUL. -/
def strchrAt (line : List Byte) (str : ℕ) (c : Byte) : Option ℕ :=
  ((stringAt line str).findIdx? (· = c)).map (str + ·)

/-- `isspace` -/
def isspace (c : Byte) : Bool := c == 32 || (9 ≤ c && c ≤ 13)

/-- `strlstrip` -/
def strlstrip (line : List Byte) (str : ℕ) : ℕ := str + ((line.drop str).takeWhile isspace).length

/-- The loop of `strrstrip`, where `end` is `str + n - 1`. -/
def strrstripLoop (line : List Byte) (str : ℕ) : ℕ → List Byte
  | 0 => line
  | n + 1 => if (charAt line (str + n)).any isspace then strrstripLoop (line.set (str + n) 0) str n else line

/-- `strrstrip`, which returns `str`. -/
def strrstrip (line : List Byte) (str : ℕ) : List Byte := strrstripLoop line str (strlenAt line str)

/-- `strstrip` -/
def strstrip (line : List Byte) (str : ℕ) : List Byte × ℕ :=
  let str := strlstrip line str
  (strrstrip line str, str)

/-- `struct strv` -/
structure Strv where
  strv : Block (Option (List Byte))
  len : ℕ
  size : ℕ

def strvInit : Strv := ⟨.null, 0, 0⟩

/-- The lines of `strv_append3` that enlarge the array. -/
def strvGrow (ok : Bool) (sv : Strv) : Option Strv :=
  if sv.size ≤ sv.len then
    let newSize := u32 (sv.size * 2)
    let newSize := if newSize = 0 then 1 else newSize
    if ok then some { sv with strv := sv.strv.realloc newSize, size := newSize } else none
  else some sv

/-- `strv_append3`, with its return value. -/
def strvAppend3 (reallocOk strndupOk : Bool) (sv : Strv) (str : List Byte) (len : ℤ) :
    Option (Strv × ℤ) :=
  match strvGrow reallocOk sv with
  | none => some (sv, -1)
  | some sv => do
      let entry := if strndupOk then some (strndup str (toSize len)) else none
      let strv ← sv.strv.write sv.len entry
      return ({ sv with strv := strv, len := u32 (sv.len + 1) }, if strndupOk then 0 else -1)

/-- `strv_append`; the length becomes an `int`. -/
def strvAppend (reallocOk strndupOk : Bool) (sv : Strv) (str : List Byte) : Option (Strv × ℤ) :=
  strvAppend3 reallocOk strndupOk sv str (toInt (u32 (strlenAt str 0)))

/-! ### What stripping does -/

section
variable {A s b R : List Byte} {c x : Byte}

theorem charAt_append (A R : List Byte) (c : Byte) : charAt (A ++ c :: R) A.length = some c := by
  unfold charAt
  rw [List.getElem?_append_right le_rfl, Nat.sub_self]
  rfl

theorem set_append (A R : List Byte) (c x : Byte) : (A ++ c :: R).set A.length x = A ++ x :: R := by
  rw [List.set_append_right _ _ le_rfl, Nat.sub_self]
  rfl

/-- The string in front of a NUL. -/
theorem stringAt_append (hs : (0 : Byte) ∉ s) : stringAt (A ++ (s ++ 0 :: R)) A.length = s := by
  unfold stringAt
  have hp : ∀ c ∈ s, (fun c : Byte => decide (c ≠ 0)) c = true := by
    intro c hc
    refine decide_eq_true ?_
    rintro rfl
    exact hs hc
  rw [List.drop_left, List.takeWhile_append_of_pos hp, List.takeWhile_cons_of_neg (by decide),
    List.append_nil]

/-- The string in front of several NULs. -/
theorem stringAt_nuls (hs : (0 : Byte) ∉ s) (n : ℕ) :
    stringAt (A ++ (s ++ (List.replicate n 0 ++ 0 :: R))) A.length = s := by
  cases n with
  | zero => exact stringAt_append hs
  | succ n =>
      rw [List.replicate_succ, List.cons_append]
      exact stringAt_append hs

/-- `strchr` finds the first one. -/
theorem strchrAt_append (hA : (0 : Byte) ∉ A) (hc : c ∉ A) (h0 : c ≠ 0) :
    strchrAt (A ++ c :: R) 0 c = some A.length := by
  have hp : ∀ d ∈ A ++ [c], (fun d : Byte => decide (d ≠ 0)) d = true := by
    intro d hd
    refine decide_eq_true ?_
    rintro rfl
    rcases List.mem_append.mp hd with hm | hm
    · exact hA hm
    · exact h0 (List.mem_singleton.mp hm).symm
  have hnone : A.findIdx? (fun d => decide (d = c)) = none := by
    rw [List.findIdx?_eq_none_iff]
    intro d hd
    refine decide_eq_false ?_
    rintro rfl
    exact hc hd
  unfold strchrAt stringAt
  rw [List.drop_zero, ← List.singleton_append, ← List.append_assoc, List.takeWhile_append_of_pos hp,
    List.append_assoc, List.findIdx?_append, hnone, List.singleton_append, List.findIdx?_cons]
  simp

theorem strlstrip_append (hb : ∀ c ∈ b, isspace c = true) (hc : isspace c = false) :
    strlstrip (A ++ (b ++ c :: R)) A.length = A.length + b.length := by
  unfold strlstrip
  rw [List.drop_left, List.takeWhile_append_of_pos hb, List.takeWhile_cons_of_neg (by simp [hc]),
    List.append_nil]

/-- A string of which the last character is not white space, if there is one. -/
def EndsSolid (s : List Byte) : Prop := ∀ c, s.getLast? = some c → isspace c = false

theorem strrstripLoop_solid (hs : EndsSolid s) :
    strrstripLoop (A ++ (s ++ R)) A.length s.length = A ++ (s ++ R) := by
  rcases List.eq_nil_or_concat' s with rfl | ⟨t, c, rfl⟩
  · rfl
  · have hc : isspace c = false := hs c (by simp)
    have hat : charAt (A ++ (t ++ [c] ++ R)) (A.length + t.length) = some c := by
      have h := charAt_append (A ++ t) R c
      rwa [List.length_append, List.append_assoc, ← List.singleton_append, ← List.append_assoc t] at h
    rw [List.length_append, List.length_singleton, strrstripLoop, hat, if_neg]
    simp [hc]

theorem strrstripLoop_space (hs : EndsSolid s) (hb : ∀ c ∈ b, isspace c = true) :
    strrstripLoop (A ++ (s ++ (b ++ R))) A.length (s.length + b.length) =
      A ++ (s ++ (List.replicate b.length 0 ++ R)) := by
  induction b using List.reverseRecOn generalizing R with
  | nil => exact strrstripLoop_solid hs
  | append_singleton b c ih =>
      have hc : isspace c = true := hb c (by simp)
      have hsplit : ∀ x, A ++ (s ++ (b ++ [x] ++ R)) = A ++ s ++ b ++ x :: R := by simp
      have hlen : A.length + (s.length + b.length) = (A ++ s ++ b).length := by
        rw [List.length_append, List.length_append, Nat.add_assoc]
      have hstep : strrstripLoop (A ++ (s ++ (b ++ [c] ++ R))) A.length (s.length + (b ++ [c]).length) =
          strrstripLoop (A ++ (s ++ (b ++ [0] ++ R))) A.length (s.length + b.length) := by
        rw [List.length_append, List.length_singleton, ← Nat.add_assoc, strrstripLoop, hlen, hsplit,
          charAt_append, set_append, hsplit, if_pos]
        simp [hc]
      rw [hstep, List.append_assoc, ih (fun d hd => hb d (by simp [hd])), List.length_append,
        List.length_singleton, List.replicate_succ', List.append_assoc]

/-- `strrstrip` writes NULs over the white space at the end. -/
theorem strrstrip_append (h0 : (0 : Byte) ∉ s) (hs : EndsSolid s) (hb : ∀ c ∈ b, isspace c = true) :
    strrstrip (A ++ (s ++ (b ++ 0 :: R))) A.length =
      A ++ (s ++ (List.replicate b.length 0 ++ 0 :: R)) := by
  have hzero : (0 : Byte) ∉ s ++ b := by
    rw [List.mem_append, not_or]
    exact ⟨h0, fun hm => absurd (hb 0 hm) (by decide)⟩
  have hlen : strlenAt (A ++ (s ++ (b ++ 0 :: R))) A.length = s.length + b.length := by
    unfold strlenAt
    rw [← List.append_assoc s, stringAt_append hzero, List.length_append]
  unfold strrstrip
  rw [hlen, strrstripLoop_space hs hb]

/-- `strstrip` on a line with white space before and behind `s`. -/
theorem strstrip_line (hA : ∀ c ∈ A, isspace c = true) (h0 : (0 : Byte) ∉ s) (hs : EndsSolid s)
    (hhead : ∀ c, (s ++ (b ++ 0 :: R)).head? = some c → isspace c = false)
    (hb : ∀ c ∈ b, isspace c = true) :
    strstrip (A ++ (s ++ (b ++ 0 :: R))) 0 =
      (A ++ (s ++ (List.replicate b.length 0 ++ 0 :: R)), A.length) := by
  obtain ⟨c, t, hc⟩ : ∃ c t, s ++ (b ++ 0 :: R) = c :: t :=
    List.exists_cons_of_ne_nil (by simp)
  have hstart : strlstrip (A ++ (s ++ (b ++ 0 :: R))) 0 = A.length := by
    have h := @strlstrip_append [] A t c hA (hhead c (by rw [hc]; rfl))
    rw [hc]
    simpa using h
  unfold strstrip
  rw [hstart]
  simp only [strrstrip_append h0 hs hb]

end

/-! ### Vectors that hold strings -/

/-- The vector holds the strings `fs`. -/
structure Strv.Holds (sv : Strv) (fs : List (List Byte)) : Prop where
  len : sv.len = fs.length
  fits : sv.len ≤ sv.size
  block : sv.strv.size = sv.size
  has : sv.strv.Has 0 (fs.map some)

theorem strvInit_holds : strvInit.Holds [] := ⟨rfl, Nat.le_refl _, rfl, Block.has_nil⟩

theorem strvGrow_holds {sv : Strv} {fs : List (List Byte)} (h : sv.Holds fs) (hlt : fs.length < 2 ^ 31) :
    ∃ sv', strvGrow true sv = some sv' ∧ sv'.Holds fs ∧ sv'.len < sv'.size := by
  have hlen := h.len
  have hfits := h.fits
  unfold strvGrow
  by_cases hfull : sv.size ≤ sv.len
  · rw [if_pos hfull]
    have hu : u32 (sv.size * 2) = sv.size * 2 := u32_of_lt (by omega)
    refine ⟨_, rfl, ?_⟩
    simp only [hu]
    have hk : sv.len < if sv.size * 2 = 0 then 1 else sv.size * 2 := by
      split <;> omega
    refine ⟨⟨hlen, Nat.le_of_lt hk, Block.size_realloc, h.has.congr fun j _ hj => ?_⟩, hk⟩
    rw [List.length_map] at hj
    exact Block.read_realloc (by omega)
  · rw [if_neg hfull]
    exact ⟨sv, rfl, h, by omega⟩

/-- What `strv_append3` does with an array that has room. -/
theorem strvAppend3_room {reallocOk : Bool} {sv sv₁ : Strv} {fs : List (List Byte)} (hg : strvGrow reallocOk sv = some sv₁)
    (h : sv₁.Holds fs) (hroom : sv₁.len < sv₁.size) (hlt : sv₁.len < 2 ^ 32 - 1) (strndupOk : Bool) (str : List Byte)
    (len : ℤ) : ∃ sv', strvAppend3 reallocOk strndupOk sv str len = some (sv', if strndupOk then 0 else -1) ∧
      sv'.len = sv₁.len + 1 ∧ sv'.size = sv₁.size ∧
      (strndupOk = true → sv'.Holds (fs ++ [strndup str (toSize len)])) := by
  have hlen := h.len
  obtain ⟨b, hb, hsz, hrd⟩ := Block.write_of_lt (by rw [h.block]; exact hroom)
    (if strndupOk then some (strndup str (toSize len)) else none)
  have hu : u32 (sv₁.len + 1) = sv₁.len + 1 := u32_of_lt (by omega)
  refine ⟨{ sv₁ with strv := b, len := sv₁.len + 1 }, ?_, rfl, rfl, fun hdup => ⟨?_, hroom, hsz.trans h.block, ?_⟩⟩
  · simp [strvAppend3, hg, hb, hu]
  · rw [List.length_append, List.length_singleton]
    exact congrArg (· + 1) hlen
  · rw [if_pos hdup] at hrd
    rw [List.map_append, Block.has_append]
    refine ⟨h.has.congr fun j _ hj => ?_, Block.has_cons.mpr ⟨?_, Block.has_nil⟩⟩
    · rw [List.length_map] at hj
      rw [hrd, if_neg (by omega)]
    · rw [hrd, List.length_map, if_pos (by omega)]

/-- `strv_append3` adds one string. -/
theorem strvAppend3_holds {sv : Strv} {fs : List (List Byte)} (h : sv.Holds fs)
    (hlt : fs.length < 2 ^ 31) (str : List Byte) (len : ℤ) :
    ∃ sv', strvAppend3 true true sv str len = some (sv', 0) ∧
      sv'.Holds (fs ++ [strndup str (toSize len)]) := by
  obtain ⟨sv₁, hg, h₁, hroom⟩ := strvGrow_holds h hlt
  have hlen := h₁.len
  obtain ⟨sv', hsv', -, -, hh⟩ := strvAppend3_room hg h₁ hroom (by omega) true str len
  exact ⟨sv', hsv', hh rfl⟩

theorem strndup_strlen (str : List Byte) : strndup str (strlenAt str 0) = stringAt str 0 := by
  have htake : str.take (strlenAt str 0) = stringAt str 0 :=
    (List.prefix_iff_eq_take.mp (List.takeWhile_prefix _)).symm
  rw [strndup, htake]
  exact List.takeWhile_idem

/-- `strv_append` adds the whole string, if its length is an `int`. -/
theorem strvAppend_holds {sv : Strv} {fs : List (List Byte)} (h : sv.Holds fs) (hlt : fs.length < 2 ^ 31)
    {str : List Byte} (hlen : strlenAt str 0 < 2 ^ 31) :
    ∃ sv', strvAppend true true sv str = some (sv', 0) ∧ sv'.Holds (fs ++ [stringAt str 0]) := by
  obtain ⟨sv', hsv', hh⟩ := strvAppend3_holds h hlt str (toInt (u32 (strlenAt str 0)))
  have hsize : toSize (toInt (u32 (strlenAt str 0))) = strlenAt str 0 := by
    rw [u32_of_lt (by omega), toInt_of_lt hlen, toSize_natCast (by omega)]
  rw [hsize, strndup_strlen] at hh
  exact ⟨sv', hsv', hh⟩

/-- The last string of a vector, and what a write to it does. -/
theorem Strv.Holds.last {sv : Strv} {fs : List (List Byte)} {f : List Byte} (h : sv.Holds (fs ++ [f])) :
    sv.strv.read (sv.len - 1) = some (some f) ∧ ∀ g, ∃ b, sv.strv.write (sv.len - 1) (some g) = some b ∧
      Strv.Holds { sv with strv := b } (fs ++ [g]) := by
  have hlen := h.len
  rw [List.length_append, List.length_singleton] at hlen
  have hhas := h.has
  rw [List.map_append, Block.has_append, List.length_map, Nat.zero_add] at hhas
  obtain ⟨hfs, hf⟩ := hhas
  have hidx : sv.len - 1 = fs.length := by omega
  rw [hidx]
  refine ⟨(Block.has_cons.mp hf).1, fun g => ?_⟩
  obtain ⟨b, hb, hsz, hrd⟩ := Block.write_of_lt (b := sv.strv) (i := fs.length)
    (by rw [h.block]; have := h.fits; omega) (some g)
  refine ⟨b, hb, ?_, h.fits, hsz.trans h.block, ?_⟩
  · rw [List.length_append, List.length_singleton]
    exact hlen
  · rw [List.map_append, Block.has_append, List.length_map, Nat.zero_add]
    refine ⟨hfs.congr fun j _ hj => ?_, Block.has_cons.mpr ⟨?_, Block.has_nil⟩⟩
    · rw [List.length_map] at hj
      rw [hrd, if_neg (by omega)]
    · rw [hrd, if_pos rfl]

/-- A prefix without NUL is copied whole. -/
theorem strndup_append {str rest : List Byte} (h : (0 : Byte) ∉ str) :
    strndup (str ++ rest) str.length = str := by
  have hp : ∀ c ∈ str, (fun c : Byte => decide (c ≠ 0)) c = true := by
    intro c hc
    refine decide_eq_true ?_
    rintro rfl
    exact h hc
  have := @List.takeWhile_append_of_pos _ _ _ [] hp
  rw [strndup, List.take_left]
  simpa using this

theorem memchr_none {str : List Byte} (rest : List Byte) {c : Byte} (h : c ∉ str) :
    memchr (str ++ rest) c str.length = some none := by
  have hle : str.length ≤ (str ++ rest).length := by
    rw [List.length_append]
    omega
  rw [memchr, if_pos hle, List.take_left, List.findIdx?_eq_none_iff.mpr]
  intro d hd
  refine decide_eq_false ?_
  rintro rfl
  exact h hd

theorem memchr_some {str rest : List Byte} {c : Byte} {len : ℕ} (h : c ∉ str) (hlt : str.length < len)
    (hle : len ≤ (str ++ c :: rest).length) :
    memchr (str ++ c :: rest) c len = some (some str.length) := by
  obtain ⟨k, rfl⟩ : ∃ k, len = str.length + (k + 1) := ⟨len - str.length - 1, by omega⟩
  have hnone : str.findIdx? (fun d => decide (d = c)) = none := by
    rw [List.findIdx?_eq_none_iff]
    intro d hd
    refine decide_eq_false ?_
    rintro rfl
    exact h hd
  rw [memchr, if_pos hle, List.take_length_add_append, List.take_succ_cons, List.findIdx?_append,
    hnone, List.findIdx?_cons]
  simp

/-- `astrncat` appends, as long as the lengths are `int`s. -/
theorem astrncat_append {dest src : List Byte} {srcLen : ℕ} (hd : dest.length < 2 ^ 31)
    (hs : srcLen ≤ src.length) (hlt : dest.length + srcLen + 1 < 2 ^ 32) :
    astrncat true (some dest) src srcLen = some (some (dest ++ strndup src srcLen)) := by
  have hu : u32 dest.length = dest.length := u32_of_lt (by omega)
  have hu2 : u32 (dest.length + srcLen + 1) = dest.length + srcLen + 1 := u32_of_lt hlt
  have ht : toInt dest.length = dest.length := toInt_of_lt hd
  simp [astrncat, hu, ht, hu2, hs]

/-- `astrcat` appends the whole string. -/
theorem astrcat_append {dest src : List Byte} (hd : dest.length < 2 ^ 31)
    (hlt : dest.length + strlenAt src 0 + 1 < 2 ^ 32) :
    astrcat true (some dest) src = some (some (dest ++ stringAt src 0)) := by
  have hle : strlenAt src 0 ≤ src.length := (List.takeWhile_prefix _).length_le
  rw [astrcat, u32_of_lt (by omega), astrncat_append hd hle hlt, strndup_strlen]

end Libls.Strings
