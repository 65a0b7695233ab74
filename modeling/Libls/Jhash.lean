import Mathlib.Data.BitVec
import Mathlib.Tactic
import Libls.Library.Memory
import Libls.Library.Prog

/-! # Hashing of keys: `include/ls/jhash.h`

A word is a `u32`, the key of `jhash` is a block of bytes and the key of `jhash2` a block of words.
`*(u32 *)k` reads four bytes of which the first is the lowest, as on the machines the library is built for.

`absorb` is what either loop and its `switch` make of the words of a key. -/

namespace Libls.Jhash

/-- `u32` -/
abbrev Word := BitVec 32

/-- The variables `a`, `b` and `c`. -/
abbrev Abc := Word × Word × Word

/-- `rol32` of `include/ls/bitops.h`, for a `shift` between 1 and 31. -/
def rol32 (word : Word) (shift : ℕ) : Word := word <<< shift ||| word >>> (32 - shift)

/-- `__jhash_mix` -/
def jhashMix : Abc → Abc
  | (a, b, c) =>
      let a := a - c; let a := a ^^^ rol32 c 4; let c := c + b
      let b := b - a; let b := b ^^^ rol32 a 6; let a := a + c
      let c := c - b; let c := c ^^^ rol32 b 8; let b := b + a
      let a := a - c; let a := a ^^^ rol32 c 16; let c := c + b
      let b := b - a; let b := b ^^^ rol32 a 19; let a := a + c
      let c := c - b; let c := c ^^^ rol32 b 4; let b := b + a
      (a, b, c)

/-- `__jhash_final` -/
def jhashFinal : Abc → Abc
  | (a, b, c) =>
      let c := c ^^^ b; let c := c - rol32 b 14
      let a := a ^^^ c; let a := a - rol32 c 11
      let b := b ^^^ a; let b := b - rol32 a 25
      let c := c ^^^ b; let c := c - rol32 b 16
      let a := a ^^^ c; let a := a - rol32 c 4
      let b := b ^^^ a; let b := b - rol32 a 14
      let c := c ^^^ b; let c := c - rol32 b 24
      (a, b, c)

/-- `JHASH_INITVAL` -/
def jhashInitval : Word := 0xdeadbeef

/-- `jhash_size(n)` -/
def jhashSize (n : ℕ) : Word := (1 : Word) <<< n

/-- `jhash_mask(n)` -/
def jhashMask (n : ℕ) : Word := jhashSize n - 1

/-- `a = b = c = v` -/
def allThree (v : Word) : Abc := (v, v, v)

/-- What a `+=` of the word `w` to the variable with the number `i` adds to all three. -/
def toVariable (i : ℕ) (w : Word) : Abc :=
  match i with
  | 0 => (w, 0, 0)
  | 1 => (0, w, 0)
  | _ => (0, 0, w)

/-- The cases `n`, `n - 1`, .., `1` of a `switch`, each of which falls through to the next one; `part i` is
what `case i + 1` adds. -/
def fallThrough (part : ℕ → Option Abc) : ℕ → Abc → Option Abc
  | 0, s => some s
  | n + 1, s => do
      let p ← part n
      fallThrough part n (s + p)

/-- `*(u32 *)k` -/
def readU32 (key : Block Byte) (k : ℕ) : Option Word := do
  let b₀ ← key.read k
  let b₁ ← key.read (k + 1)
  let b₂ ← key.read (k + 2)
  let b₃ ← key.read (k + 3)
  return b₃.toBitVec ++ b₂.toBitVec ++ b₁.toBitVec ++ b₀.toBitVec

/-- `(u32)k[i] << 8 * (i % 4)`, added to `a`, `b` or `c`. -/
def bytePart (i : ℕ) (byte : Byte) : Abc := toVariable (i / 4) (byte.toBitVec.setWidth 32 <<< (8 * (i % 4)))

/-- One pass of the loop of `jhash`; the variables are `k`, `length` and the three words. -/
def jhashPass (key : Block Byte) : ℕ × ℕ × Abc → Option (Iter (ℕ × ℕ × Abc) (ℕ × ℕ × Abc))
  | (k, length, s) =>
      if 12 < length then do
        let a ← readU32 key k
        let b ← readU32 key (k + 4)
        let c ← readU32 key (k + 8)
        return .next (k + 12, length - 12, jhashMix (s + (a, b, c)))
      else some (.done (k, length, s))

/-- The `switch` of `jhash`, which is reached with a `length` of at most 12. -/
def jhashLast (key : Block Byte) (k length : ℕ) (s : Abc) : Option Abc :=
  if length = 0 then some s
  else do
    let s ← fallThrough (fun i => do return bytePart i (← key.read (k + i))) length s
    return jhashFinal s

/-- `jhash` -/
def jhash (key : Block Byte) (length initval : Word) : Prog Word := do
  let (k, len, s) ← Prog.iterate (fun p => liftM (jhashPass key p))
    (0, length.toNat, allThree (jhashInitval + length + initval))
  let (_, _, c) ← (jhashLast key k len s : Option Abc)
  return c

/-- One pass of the loop of `jhash2`. -/
def jhash2Pass (key : Block Word) : ℕ × ℕ × Abc → Option (Iter (ℕ × ℕ × Abc) (ℕ × ℕ × Abc))
  | (k, length, s) =>
      if 3 < length then do
        let a ← key.read k
        let b ← key.read (k + 1)
        let c ← key.read (k + 2)
        return .next (k + 3, length - 3, jhashMix (s + (a, b, c)))
      else some (.done (k, length, s))

/-- The `switch` of `jhash2`, which is reached with a `length` of at most 3. -/
def jhash2Last (key : Block Word) (k length : ℕ) (s : Abc) : Option Abc :=
  if length = 0 then some s
  else do
    let s ← fallThrough (fun i => do return toVariable i (← key.read (k + i))) length s
    return jhashFinal s

/-- `jhash2` -/
def jhash2 (key : Block Word) (length initval : Word) : Prog Word := do
  let (k, len, s) ← Prog.iterate (fun p => liftM (jhash2Pass key p))
    (0, length.toNat, allThree (jhashInitval + length <<< 2 + initval))
  let (_, _, c) ← (jhash2Last key k len s : Option Abc)
  return c

/-- `jhash_3words` -/
def jhash3words (a b c initval : Word) : Word :=
  (jhashFinal (a + jhashInitval, b + jhashInitval, c + initval)).2.2

/-- `jhash_2words` -/
def jhash2words (a b initval : Word) : Word := jhash3words a b 0 initval

/-- `jhash_1word` -/
def jhash1word (a initval : Word) : Word := jhash3words a 0 0 initval

/-! ### What the loops compute -/

/-- What the values from number `i` on add to the three variables. -/
def total {α : Type} (part : ℕ → α → Abc) : ℕ → List α → Abc
  | _, [] => 0
  | i, v :: vs => part i v + total part (i + 1) vs

/-- What the words of a key make of the three variables. -/
def absorb (s : Abc) : List Word → Abc
  | a :: b :: c :: d :: ws => absorb (jhashMix (s + (a, b, c))) (d :: ws)
  | [] => s
  | ws => jhashFinal (s + total toVariable 0 ws)

theorem absorb_block {s : Abc} {a b c : Word} {ws : List Word} (h : ws ≠ []) :
    absorb s (a :: b :: c :: ws) = absorb (jhashMix (s + (a, b, c))) ws := by
  cases ws with
  | nil => exact absurd rfl h
  | cons d ws => rw [absorb]

theorem absorb_last {s : Abc} {ws : List Word} (h : ws ≠ []) (hlen : ws.length ≤ 3) :
    absorb s ws = jhashFinal (s + total toVariable 0 ws) := by
  match ws, h, hlen with
  | [_], _, _ => rfl
  | [_, _], _, _ => rfl
  | [_, _, _], _, _ => rfl

section
variable {α : Type} {part : ℕ → α → Abc} {key : Block α}

theorem total_append (i : ℕ) (us vs : List α) :
    total part i (us ++ vs) = total part i us + total part (i + us.length) vs := by
  induction us generalizing i with
  | nil => simp [total]
  | cons u us ih =>
      rw [List.cons_append, total, total, ih, List.length_cons, Nat.add_comm us.length, ← Nat.add_assoc]
      exact (add_assoc _ _ _).symm

/-- The cases of a `switch` add up what is left of a key. -/
theorem fallThrough_eq {k : ℕ} {vs : List α} (h : key.Has k vs) (s : Abc) :
    fallThrough (fun i => do return part i (← key.read (k + i))) vs.length s = some (s + total part 0 vs) := by
  induction vs using List.reverseRecOn generalizing s with
  | nil => simp [fallThrough, total]
  | append_singleton vs v ih =>
      obtain ⟨hvs, hv⟩ := Block.has_append.mp h
      rw [List.length_append, List.length_singleton, fallThrough, (Block.has_cons.mp hv).1]
      simp only [Option.bind_eq_bind, Option.bind_some, Option.pure_def] at ih ⊢
      rw [ih hvs, total_append, total, total, add_zero, Nat.zero_add, add_assoc, add_comm (part _ _)]

/-- A loop that makes blocks of `m` values part of `s` leaves at most `m` values of the key. -/
theorem loop_returns {pass : ℕ × ℕ × Abc → Option (Iter (ℕ × ℕ × Abc) (ℕ × ℕ × Abc))} {words : List α → List Word}
    {m : ℕ} (hm : 0 < m)
    (hnext : ∀ k vs s, key.Has k vs → m < vs.length → ∃ s',
      pass (k, vs.length, s) = some (.next (k + m, vs.length - m, s')) ∧
      absorb s' (words (vs.drop m)) = absorb s (words vs))
    (hdone : ∀ k n s, n ≤ m → pass (k, n, s) = some (.done (k, n, s))) {k : ℕ} {vs : List α} {s : Abc}
    (h : key.Has k vs) :
    ∃ k' vs' s', Prog.Returns (Prog.iterate (fun p => liftM (pass p)) (k, vs.length, s)) (k', vs'.length, s') ∧
      key.Has k' vs' ∧ vs'.length ≤ m ∧ absorb s' (words vs') = absorb s (words vs) := by
  obtain ⟨n, hn⟩ : ∃ n, vs.length = n := ⟨_, rfl⟩
  induction n using Nat.strongRecOn generalizing k vs s with
  | _ n ih =>
      by_cases hlt : m < vs.length
      · obtain ⟨s₁, hpass, hs₁⟩ := hnext k vs s h hlt
        have hdrop : key.Has (k + m) (vs.drop m) := by
          rw [← List.take_append_drop m vs, Block.has_append, List.length_take,
            Nat.min_eq_left (Nat.le_of_lt hlt)] at h
          exact h.2
        obtain ⟨k', vs', s', hreturns, hrest⟩ := @ih (vs.length - m) (by omega) (k + m) (vs.drop m) s₁ hdrop
          (by rw [List.length_drop])
        refine ⟨k', vs', s', ?_, hrest.1, hrest.2.1, hrest.2.2.trans hs₁⟩
        apply Prog.Returns.iterate_next _ hreturns
        rw [List.length_drop, Prog.returns_lift]
        exact hpass
      · refine ⟨k, vs, s, ?_, h, by omega, rfl⟩
        apply Prog.Returns.iterate_done
        exact Prog.returns_lift.mpr (hdone k _ s (by omega))

end

/-! ### Keys of words -/

theorem jhash2Pass_next {key : Block Word} {k : ℕ} {ws : List Word} {s : Abc} (h : key.Has k ws)
    (hlt : 3 < ws.length) : ∃ s', jhash2Pass key (k, ws.length, s) = some (.next (k + 3, ws.length - 3, s')) ∧
      absorb s' (ws.drop 3) = absorb s ws := by
  match ws, hlt with
  | a :: b :: c :: d :: ws, _ =>
      obtain ⟨ha, h⟩ := Block.has_cons.mp h
      obtain ⟨hb, h⟩ := Block.has_cons.mp h
      obtain ⟨hc, -⟩ := Block.has_cons.mp h
      refine ⟨jhashMix (s + (a, b, c)), ?_, rfl⟩
      simp [jhash2Pass, ha, hb, hc]

theorem jhash2Last_eq {key : Block Word} {k : ℕ} {ws : List Word} {s : Abc} (h : key.Has k ws)
    (hle : ws.length ≤ 3) : jhash2Last key k ws.length s = some (absorb s ws) := by
  unfold jhash2Last
  by_cases hnil : ws = []
  · subst hnil
    rfl
  · rw [if_neg (fun hzero => hnil (List.length_eq_zero_iff.mp hzero)), fallThrough_eq h, absorb_last hnil hle]
    rfl

/-- `jhash2` reads the words of its key, no others, and returns a hash. -/
theorem jhash2_returns {key : Block Word} {ws : List Word} (h : key.Has 0 ws) (hlen : ws.length < 2 ^ 32)
    (initval : Word) :
    Prog.Returns (jhash2 key (BitVec.ofNat 32 ws.length) initval)
      (absorb (allThree (jhashInitval + BitVec.ofNat 32 ws.length <<< 2 + initval)) ws).2.2 := by
  obtain ⟨k, vs, s, hloop, hvs, hle, habsorb⟩ := @loop_returns _ key (jhash2Pass key) id 3 (by decide)
    (fun _ _ _ hvs hlt => jhash2Pass_next hvs hlt) (fun k n s hn => if_neg (Nat.not_lt.mpr hn)) 0 ws
    (allThree (jhashInitval + BitVec.ofNat 32 ws.length <<< 2 + initval)) h
  unfold jhash2
  rw [BitVec.toNat_ofNat, Nat.mod_eq_of_lt hlen, Prog.returns_bind]
  refine ⟨_, hloop, ?_⟩
  simp only [id] at habsorb
  simp only [jhash2Last_eq hvs hle, habsorb, Prog.lift_bind, Prog.returns_pure]

/-! ### Keys of bytes -/

/-- The number that at most four bytes are, the byte with the number `r` first; the lowest is number 0. -/
def wordFrom : ℕ → List Byte → Word
  | _, [] => 0
  | r, b :: bs => b.toBitVec.setWidth 32 <<< (8 * r) + wordFrom (r + 1) bs

/-- Bytes as words, the last of which is filled up with zeros. -/
def wordsOf : List Byte → List Word
  | b₀ :: b₁ :: b₂ :: b₃ :: bs => wordFrom 0 [b₀, b₁, b₂, b₃] :: wordsOf bs
  | [] => []
  | bs => [wordFrom 0 bs]

theorem toVariable_add (i : ℕ) (u v : Word) : toVariable i (u + v) = toVariable i u + toVariable i v := by
  unfold toVariable
  split <;> simp

theorem toVariable_zero (i : ℕ) : toVariable i 0 = 0 := by
  unfold toVariable
  split <;> rfl

theorem total_bytePart {r : ℕ} {bs : List Byte} (h : r + bs.length ≤ 4) (j : ℕ) :
    total bytePart (4 * j + r) bs = toVariable j (wordFrom r bs) := by
  induction bs generalizing r with
  | nil => exact (toVariable_zero j).symm
  | cons b bs ih =>
      rw [List.length_cons] at h
      rw [total, wordFrom, toVariable_add, Nat.add_assoc, ih (by omega), bytePart,
        (by omega : (4 * j + r) / 4 = j), (by omega : (4 * j + r) % 4 = r)]

theorem total_wordsOf (bs : List Byte) (j : ℕ) :
    total bytePart (4 * j) bs = total toVariable j (wordsOf bs) := by
  fun_induction wordsOf generalizing j with
  | case1 b₀ b₁ b₂ b₃ bs ih =>
      calc total bytePart (4 * j) ([b₀, b₁, b₂, b₃] ++ bs)
          = total bytePart (4 * j) [b₀, b₁, b₂, b₃] + total bytePart (4 * (j + 1)) bs := total_append _ _ bs
        _ = toVariable j (wordFrom 0 [b₀, b₁, b₂, b₃]) + total toVariable (j + 1) (wordsOf bs) := by
          rw [ih (j + 1)]
          exact congrArg (· + _) (@total_bytePart 0 [b₀, b₁, b₂, b₃] (Nat.le_refl 4) j)
  | case2 => rfl
  | case3 bs hfour hnil =>
      have hle : 0 + bs.length ≤ 4 := by
        match bs with
        | [] | [_] | [_, _] | [_, _, _] => simp
        | b₀ :: b₁ :: b₂ :: b₃ :: bs => exact absurd rfl (hfour b₀ b₁ b₂ b₃ bs)
      rw [total, total, add_zero]
      exact total_bytePart hle j

theorem toNat_append {m n : ℕ} (x : BitVec m) (y : BitVec n) : (x ++ y).toNat = x.toNat * 2 ^ n + y.toNat := by
  rw [BitVec.toNat_append, ← Nat.shiftLeft_add_eq_or_of_lt y.isLt, Nat.shiftLeft_eq]

theorem readU32_eq {key : Block Byte} {k : ℕ} {b₀ b₁ b₂ b₃ : Byte} (h : key.Has k [b₀, b₁, b₂, b₃]) :
    readU32 key k = some (wordFrom 0 [b₀, b₁, b₂, b₃]) := by
  obtain ⟨h₀, h⟩ := Block.has_cons.mp h
  obtain ⟨h₁, h⟩ := Block.has_cons.mp h
  obtain ⟨h₂, h⟩ := Block.has_cons.mp h
  obtain ⟨h₃, -⟩ := Block.has_cons.mp h
  have hvalue : (b₃.toBitVec ++ b₂.toBitVec ++ b₁.toBitVec ++ b₀.toBitVec).toNat =
      ((b₃.toNat * 2 ^ 8 + b₂.toNat) * 2 ^ 8 + b₁.toNat) * 2 ^ 8 + b₀.toNat := by
    rw [toNat_append, toNat_append, toNat_append]
    rfl
  have heq : b₃.toBitVec ++ b₂.toBitVec ++ b₁.toBitVec ++ b₀.toBitVec = wordFrom 0 [b₀, b₁, b₂, b₃] := by
    apply BitVec.eq_of_toNat_eq
    refine hvalue.trans ?_
    have := b₀.toNat_lt
    have := b₁.toNat_lt
    have := b₂.toNat_lt
    have := b₃.toNat_lt
    simp [wordFrom, Nat.shiftLeft_eq]
    omega
  simp [readU32, h₀, h₁, h₂, h₃, heq]

theorem wordsOf_length (bs : List Byte) : (wordsOf bs).length = (bs.length + 3) / 4 := by
  fun_induction wordsOf bs with
  | case1 b₀ b₁ b₂ b₃ bs ih =>
      simp only [List.length_cons, ih]
      omega
  | case2 => rfl
  | case3 bs hfour hnil =>
      match bs with
      | [_] | [_, _] | [_, _, _] => simp
      | [] => exact absurd rfl hnil
      | b₀ :: b₁ :: b₂ :: b₃ :: bs => exact absurd rfl (hfour b₀ b₁ b₂ b₃ bs)

theorem wordsOf_ne_nil {bs : List Byte} (h : bs ≠ []) : wordsOf bs ≠ [] := by
  intro hnil
  have hlen := wordsOf_length bs
  have hpos := List.length_pos_iff.mpr h
  rw [hnil, List.length_nil] at hlen
  omega

theorem jhashPass_next {key : Block Byte} {k : ℕ} {bs : List Byte} {s : Abc} (h : key.Has k bs)
    (hlt : 12 < bs.length) : ∃ s', jhashPass key (k, bs.length, s) = some (.next (k + 12, bs.length - 12, s')) ∧
      absorb s' (wordsOf (bs.drop 12)) = absorb s (wordsOf bs) := by
  match bs, hlt with
  | b₀ :: b₁ :: b₂ :: b₃ :: b₄ :: b₅ :: b₆ :: b₇ :: b₈ :: b₉ :: b₁₀ :: b₁₁ :: b₁₂ :: bs, _ =>
      have hblocks : key.Has k ([b₀, b₁, b₂, b₃] ++ ([b₄, b₅, b₆, b₇] ++ ([b₈, b₉, b₁₀, b₁₁] ++ b₁₂ :: bs))) := h
      obtain ⟨ha, h⟩ := Block.has_append.mp hblocks
      obtain ⟨hb, h⟩ := Block.has_append.mp h
      obtain ⟨hc, -⟩ := Block.has_append.mp h
      have hfirst := readU32_eq ha
      have hsecond : readU32 key (k + 4) = _ := readU32_eq hb
      have hthird : readU32 key (k + 8) = _ := readU32_eq hc
      have hrest : wordsOf (b₁₂ :: bs) ≠ [] := wordsOf_ne_nil (List.cons_ne_nil _ _)
      refine ⟨_, ?_, (absorb_block hrest).symm⟩
      simp [jhashPass, hfirst, hsecond, hthird]

theorem jhashLast_eq {key : Block Byte} {k : ℕ} {bs : List Byte} {s : Abc} (h : key.Has k bs)
    (hle : bs.length ≤ 12) : jhashLast key k bs.length s = some (absorb s (wordsOf bs)) := by
  unfold jhashLast
  by_cases hnil : bs = []
  · subst hnil
    rfl
  · have hwords : (wordsOf bs).length ≤ 3 := by
      rw [wordsOf_length]
      omega
    rw [if_neg (fun hzero => hnil (List.length_eq_zero_iff.mp hzero)), fallThrough_eq h,
      absorb_last (wordsOf_ne_nil hnil) hwords, ← total_wordsOf bs 0]
    rfl

/-- `jhash` reads the bytes of its key, no others, and returns a hash. -/
theorem jhash_returns {key : Block Byte} {bs : List Byte} (h : key.Has 0 bs) (hlen : bs.length < 2 ^ 32)
    (initval : Word) :
    Prog.Returns (jhash key (BitVec.ofNat 32 bs.length) initval)
      (absorb (allThree (jhashInitval + BitVec.ofNat 32 bs.length + initval)) (wordsOf bs)).2.2 := by
  obtain ⟨k, vs, s, hloop, hvs, hle, habsorb⟩ := @loop_returns _ key (jhashPass key) wordsOf 12 (by decide)
    (fun _ _ _ hvs hlt => jhashPass_next hvs hlt) (fun k n s hn => if_neg (Nat.not_lt.mpr hn)) 0 bs
    (allThree (jhashInitval + BitVec.ofNat 32 bs.length + initval)) h
  unfold jhash
  rw [BitVec.toNat_ofNat, Nat.mod_eq_of_lt hlen, Prog.returns_bind]
  refine ⟨_, hloop, ?_⟩
  simp only [jhashLast_eq hvs hle, habsorb, Prog.lift_bind, Prog.returns_pure]

/-- The bytes that fill up the last word of a key of `n` bytes. -/
def padding (n : ℕ) : ℕ := (n + 3) / 4 * 4 - n

/-- The hash of a key of bytes is the hash of its words, with the last one filled up with zeros and the number
of zeros taken from the initial value: for keys of any length, and the same hash for keys made of words. -/
theorem jhash_words {key : Block Byte} {bs : List Byte} {wkey : Block Word} (hkey : key.Has 0 bs)
    (hwkey : wkey.Has 0 (wordsOf bs)) (hlen : bs.length < 2 ^ 32) (initval : Word) :
    ∃ h, Prog.Returns (jhash key (BitVec.ofNat 32 bs.length) initval) h ∧
      Prog.Returns (jhash2 wkey (BitVec.ofNat 32 (wordsOf bs).length)
        (initval - BitVec.ofNat 32 (padding bs.length))) h := by
  have hshift : BitVec.ofNat 32 (wordsOf bs).length <<< 2 =
      BitVec.ofNat 32 bs.length + BitVec.ofNat 32 (padding bs.length) := by
    apply BitVec.eq_of_toNat_eq
    rw [wordsOf_length]
    simp only [BitVec.toNat_shiftLeft, BitVec.toNat_add, BitVec.toNat_ofNat, Nat.shiftLeft_eq, padding]
    omega
  have hinit : jhashInitval + BitVec.ofNat 32 bs.length + initval =
      jhashInitval + BitVec.ofNat 32 (wordsOf bs).length <<< 2 +
        (initval - BitVec.ofNat 32 (padding bs.length)) := by
    rw [hshift]
    ring
  refine ⟨_, jhash_returns hkey hlen initval, ?_⟩
  rw [hinit]
  apply jhash2_returns hwkey
  rw [wordsOf_length]
  omega

theorem jhash_words_five :
    ∃ h, Prog.Returns (jhash (Block.ofList [1, 2, 3, 4, 5]) 5 7) h ∧
      Prog.Returns (jhash2 (Block.ofList [0x04030201, 5]) 2 4) h := by
  have hwords : wordsOf [1, 2, 3, 4, 5] = [0x04030201, 5] := by decide
  have hkey : (Block.ofList [0x04030201, 5]).Has 0 (wordsOf [1, 2, 3, 4, 5]) := by
    rw [hwords]
    exact Block.ofList_has _
  have h := jhash_words (Block.ofList_has [1, 2, 3, 4, 5]) hkey (by decide) 7
  rw [hwords] at h
  exact h

/-! ### What the mixing keeps

Every line of the mixing can be undone, so three words of a key decide the three variables one to one,
whatever stands before and behind them. -/

/-- A line of `__jhash_mix`: `x -= z; x ^= rol32(z, shift); z += y`. -/
def mixLine (shift : ℕ) : Abc → Abc
  | (x, y, z) => ((x - z) ^^^ rol32 z shift, y, z + y)

/-- A line of `__jhash_final`: `x ^= y; x -= rol32(y, shift)`. -/
def finalLine (shift : ℕ) : Abc → Abc
  | (x, y, z) => ((x ^^^ y) - rol32 y shift, y, z)

/-- The next line of `__jhash_mix` is about the next variable. -/
def turn : Abc → Abc
  | (x, y, z) => (y, z, x)

/-- The next line of `__jhash_final` is about the variable before. -/
def turnBack : Abc → Abc
  | (x, y, z) => (z, x, y)

/-- `__jhash_final` begins with `c`. -/
def swap : Abc → Abc
  | (x, y, z) => (z, y, x)

theorem turn_bijective : Function.Bijective turn :=
  Function.bijective_iff_has_inverse.mpr ⟨turnBack, fun _ => rfl, fun _ => rfl⟩

theorem turnBack_bijective : Function.Bijective turnBack :=
  Function.bijective_iff_has_inverse.mpr ⟨turn, fun _ => rfl, fun _ => rfl⟩

theorem swap_bijective : Function.Bijective swap :=
  Function.bijective_iff_has_inverse.mpr ⟨swap, fun _ => rfl, fun _ => rfl⟩

theorem xor_twice (x y : Word) : x ^^^ y ^^^ y = x := by
  rw [BitVec.xor_assoc, BitVec.xor_self, BitVec.xor_zero]

theorem mixLine_bijective (shift : ℕ) : Function.Bijective (mixLine shift) := by
  apply Function.bijective_iff_has_inverse.mpr
  refine ⟨fun (x, y, z) => ((x ^^^ rol32 (z - y) shift) + (z - y), y, z - y), ?_, ?_⟩
  · rintro ⟨x, y, z⟩
    simp only [mixLine, add_sub_cancel_right, xor_twice, sub_add_cancel]
  · rintro ⟨x, y, z⟩
    simp only [mixLine, add_sub_cancel_right, xor_twice, sub_add_cancel]

theorem finalLine_bijective (shift : ℕ) : Function.Bijective (finalLine shift) := by
  apply Function.bijective_iff_has_inverse.mpr
  refine ⟨fun (x, y, z) => ((x + rol32 y shift) ^^^ y, y, z), ?_, ?_⟩
  · rintro ⟨x, y, z⟩
    simp only [finalLine, sub_add_cancel, xor_twice]
  · rintro ⟨x, y, z⟩
    simp only [finalLine, add_sub_cancel_right, xor_twice]

theorem jhashMix_bijective : Function.Bijective jhashMix := by
  have hlines : jhashMix = turn ∘ mixLine 4 ∘ turn ∘ mixLine 19 ∘ turn ∘ mixLine 16 ∘ turn ∘ mixLine 8 ∘
      turn ∘ mixLine 6 ∘ turn ∘ mixLine 4 := rfl
  have hline (shift : ℕ) : Function.Bijective (turn ∘ mixLine shift) := turn_bijective.comp (mixLine_bijective shift)
  rw [hlines]
  exact (hline 4).comp ((hline 19).comp ((hline 16).comp ((hline 8).comp ((hline 6).comp (hline 4)))))

theorem jhashFinal_bijective : Function.Bijective jhashFinal := by
  have hlines : jhashFinal = swap ∘ finalLine 24 ∘ turnBack ∘ finalLine 14 ∘ turnBack ∘ finalLine 4 ∘ turnBack ∘
      finalLine 16 ∘ turnBack ∘ finalLine 25 ∘ turnBack ∘ finalLine 11 ∘ turnBack ∘ finalLine 14 ∘ swap := rfl
  have hline (shift : ℕ) : Function.Bijective (turnBack ∘ finalLine shift) :=
    turnBack_bijective.comp (finalLine_bijective shift)
  rw [hlines]
  exact swap_bijective.comp ((finalLine_bijective 24).comp ((hline 14).comp ((hline 4).comp ((hline 16).comp
    ((hline 25).comp ((hline 11).comp ((hline 14).comp swap_bijective)))))))

theorem absorb_bijective (ws : List Word) : Function.Bijective fun s => absorb s ws := by
  obtain ⟨n, hn⟩ : ∃ n, ws.length = n := ⟨_, rfl⟩
  induction n using Nat.strongRecOn generalizing ws with
  | _ n ih =>
      by_cases hnil : ws = []
      · subst hnil
        exact Function.bijective_id
      · by_cases hle : ws.length ≤ 3
        · have heq : (fun s => absorb s ws) = jhashFinal ∘ (· + total toVariable 0 ws) :=
            funext fun s => absorb_last hnil hle
          rw [heq]
          exact jhashFinal_bijective.comp (AddGroup.addRight_bijective _)
        · obtain ⟨a, b, c, d, ws, rfl⟩ : ∃ a b c d vs, ws = a :: b :: c :: d :: vs := by
            match ws, Nat.not_le.mp hle with
            | a :: b :: c :: d :: vs, _ => exact ⟨a, b, c, d, vs, rfl⟩
          have heq : (fun s => absorb s (a :: b :: c :: d :: ws)) =
              (fun s => absorb s (d :: ws)) ∘ jhashMix ∘ (· + (a, b, c)) := rfl
          have hlt : (d :: ws).length < n := by
            simp only [List.length_cons] at hn ⊢
            omega
          rw [heq]
          exact (ih _ hlt _ rfl).comp (jhashMix_bijective.comp (AddGroup.addRight_bijective _))

/-- Three words in a key, as what they make of the variables. -/
theorem absorb_three_bijective (s : Abc) (ws : List Word) :
    Function.Bijective fun w : Abc => absorb s (w.1 :: w.2.1 :: w.2.2 :: ws) := by
  by_cases hnil : ws = []
  · subst hnil
    have heq : (fun w : Abc => absorb s [w.1, w.2.1, w.2.2]) = jhashFinal ∘ (s + ·) := by
      funext w
      have hsum : total toVariable 0 [w.1, w.2.1, w.2.2] = w := by
        simp [total, toVariable, Prod.ext_iff]
      have hlast : absorb s [w.1, w.2.1, w.2.2] = jhashFinal (s + total toVariable 0 [w.1, w.2.1, w.2.2]) := rfl
      rw [hlast, hsum]
      rfl
    rw [heq]
    exact jhashFinal_bijective.comp (AddGroup.addLeft_bijective s)
  · have heq : (fun w : Abc => absorb s (w.1 :: w.2.1 :: w.2.2 :: ws)) =
        (fun s => absorb s ws) ∘ jhashMix ∘ (s + ·) := funext fun w => absorb_block hnil
    rw [heq]
    exact (absorb_bijective ws).comp (jhashMix_bijective.comp (AddGroup.addLeft_bijective s))

/-- Blocks of three words are absorbed before the rest of a key. -/
theorem absorb_append (s : Abc) {us : List Word} (h : 3 ∣ us.length) :
    ∃ s', ∀ vs, vs ≠ [] → absorb s (us ++ vs) = absorb s' vs := by
  obtain ⟨m, hm⟩ := h
  induction m generalizing s us with
  | zero =>
      rw [List.length_eq_zero_iff.mp hm]
      exact ⟨s, fun _ _ => rfl⟩
  | succ m ih =>
      match us, hm with
      | a :: b :: c :: us, hm =>
          obtain ⟨s', hs'⟩ := @ih (jhashMix (s + (a, b, c))) us (by simp at hm; omega)
          refine ⟨s', fun vs hvs => ?_⟩
          rw [← hs' vs hvs]
          exact absorb_block (List.append_ne_nil_of_right_ne_nil us hvs)

/-! ### The buckets of a hash table -/

theorem toNat_jhashSize {n : ℕ} (hn : n < 32) : (jhashSize n).toNat = 2 ^ n := by
  have hlt : 2 ^ n < 2 ^ 32 := Nat.pow_lt_pow_right (by decide) hn
  have hone : (1 : Word).toNat = 1 := rfl
  rw [jhashSize, BitVec.toNat_shiftLeft, Nat.shiftLeft_eq, hone, Nat.one_mul, Nat.mod_eq_of_lt hlt]

theorem toNat_jhashMask {n : ℕ} (hn : n < 32) : (jhashMask n).toNat = 2 ^ n - 1 := by
  have hpos : 0 < 2 ^ n := Nat.two_pow_pos n
  rw [jhashMask, BitVec.toNat_sub_of_le, toNat_jhashSize hn]
  · rfl
  · rw [BitVec.le_def, toNat_jhashSize hn]
    exact hpos

/-- The mask is the remainder that it stands for. -/
theorem and_jhashMask {n : ℕ} (hn : n < 32) (h : Word) : (h &&& jhashMask n).toNat = h.toNat % 2 ^ n := by
  rw [BitVec.toNat_and, toNat_jhashMask hn, Nat.and_two_pow_sub_one_eq_mod]

/-- Every bucket has as many hashes as every other. -/
theorem card_bucket {n : ℕ} (hn : n < 32) {i : Word} (hi : i < jhashSize n) :
    Nat.card {h : Word // h &&& jhashMask n = i} = 2 ^ (32 - n) := by
  have hlt : i.toNat < 2 ^ n := by
    rw [← toNat_jhashSize hn]
    exact hi
  have hpow : 2 ^ n * 2 ^ (32 - n) = 2 ^ 32 := by
    rw [← pow_add]
    congr 1
    omega
  have hbound (q : Fin (2 ^ (32 - n))) : i.toNat + 2 ^ n * q < 2 ^ 32 := by
    have := Nat.mul_le_mul_left (2 ^ n) q.isLt
    rw [hpow, Nat.mul_succ] at this
    omega
  have hval (q : Fin (2 ^ (32 - n))) : (BitVec.ofNat 32 (i.toNat + 2 ^ n * q)).toNat = i.toNat + 2 ^ n * q := by
    rw [BitVec.toNat_ofNat, Nat.mod_eq_of_lt (hbound q)]
  let e : {h : Word // h &&& jhashMask n = i} ≃ Fin (2 ^ (32 - n)) :=
    { toFun := fun h => ⟨h.1.toNat / 2 ^ n, by
        rw [Nat.div_lt_iff_lt_mul (Nat.two_pow_pos n), Nat.mul_comm, hpow]
        exact h.1.isLt⟩
      invFun := fun q => ⟨BitVec.ofNat 32 (i.toNat + 2 ^ n * q), by
        apply BitVec.eq_of_toNat_eq
        rw [and_jhashMask hn, hval, Nat.add_mul_mod_self_left, Nat.mod_eq_of_lt hlt]⟩
      left_inv := by
        rintro ⟨h, hbucket⟩
        apply Subtype.ext
        apply BitVec.eq_of_toNat_eq
        have hmod : i.toNat = h.toNat % 2 ^ n := by rw [← hbucket, and_jhashMask hn]
        rw [hval, hmod]
        exact Nat.mod_add_div h.toNat (2 ^ n)
      right_inv := by
        intro q
        apply Fin.ext
        show (BitVec.ofNat 32 (i.toNat + 2 ^ n * q)).toNat / 2 ^ n = q
        rw [hval, Nat.add_mul_div_left _ _ (Nat.two_pow_pos n), Nat.div_eq_of_lt hlt, Nat.zero_add] }
  rw [Nat.card_congr e, Nat.card_fin]

theorem card_word : Nat.card Word = 2 ^ 32 := by
  have e : Word ≃ Fin (2 ^ 32) := ⟨BitVec.toFin, BitVec.ofFin, fun _ => rfl, fun _ => rfl⟩
  rw [Nat.card_congr e, Nat.card_fin]

/-- A condition on `c` leaves `a` and `b` free. -/
theorem card_last (P : Word → Prop) : Nat.card {s : Abc // P s.2.2} = 2 ^ 64 * Nat.card {c : Word // P c} := by
  let e : {s : Abc // P s.2.2} ≃ Word × Word × {c : Word // P c} :=
    { toFun := fun s => (s.1.1, s.1.2.1, ⟨s.1.2.2, s.2⟩)
      invFun := fun s => ⟨(s.1, s.2.1, s.2.2.1), s.2.2.2⟩
      left_inv := fun _ => rfl
      right_inv := fun _ => rfl }
  rw [Nat.card_congr e, Nat.card_prod, Nat.card_prod, card_word, ← Nat.mul_assoc, ← pow_add]

/-- Where the variables depend on three words one to one, so many of these lead to every bucket. -/
theorem card_three {f : Abc → Abc} (hf : Function.Bijective f) {n : ℕ} (hn : n < 32) {i : Word}
    (hi : i < jhashSize n) : Nat.card {w : Abc // (f w).2.2 &&& jhashMask n = i} = 2 ^ (96 - n) := by
  have e : {w : Abc // (f w).2.2 &&& jhashMask n = i} ≃ {s : Abc // s.2.2 &&& jhashMask n = i} :=
    (Equiv.ofBijective f hf).subtypeEquiv fun _ => Iff.rfl
  rw [Nat.card_congr e, card_last fun c => c &&& jhashMask n = i, card_bucket hn hi, ← pow_add]
  congr 1
  omega

/-- The triples of words that `jhash_3words` hashes to a bucket are as many for every bucket. -/
theorem jhash3words_buckets {n : ℕ} (hn : n < 32) {i : Word} (hi : i < jhashSize n) (initval : Word) :
    Nat.card {w : Abc // jhash3words w.1 w.2.1 w.2.2 initval &&& jhashMask n = i} = 2 ^ (96 - n) :=
  card_three (f := fun w => jhashFinal (w + (jhashInitval, jhashInitval, initval)))
    (jhashFinal_bijective.comp (AddGroup.addRight_bijective _)) hn hi

/-- Three words at a block boundary of a key hash to all buckets equally often, whatever the other words are. -/
theorem jhash2_buckets {before after : List Word} (hbefore : 3 ∣ before.length)
    (hlen : before.length + 3 + after.length < 2 ^ 32) {n : ℕ} (hn : n < 32) {i : Word} (hi : i < jhashSize n)
    (initval : Word) :
    Nat.card {w : Abc // ∃ h, Prog.Returns (jhash2 (Block.ofList (before ++ [w.1, w.2.1, w.2.2] ++ after))
      (BitVec.ofNat 32 (before.length + 3 + after.length)) initval) h ∧ h &&& jhashMask n = i} = 2 ^ (96 - n) := by
  let start := allThree (jhashInitval + BitVec.ofNat 32 (before.length + 3 + after.length) <<< 2 + initval)
  obtain ⟨s, hs⟩ := absorb_append start hbefore
  have hreturns (w : Abc) : Prog.Returns (jhash2 (Block.ofList (before ++ [w.1, w.2.1, w.2.2] ++ after))
      (BitVec.ofNat 32 (before.length + 3 + after.length)) initval)
      (absorb s (w.1 :: w.2.1 :: w.2.2 :: after)).2.2 := by
    have hcount : (before ++ [w.1, w.2.1, w.2.2] ++ after).length = before.length + 3 + after.length := by
      simp only [List.length_append, List.length_cons, List.length_nil]
    have h := jhash2_returns (Block.ofList_has (before ++ [w.1, w.2.1, w.2.2] ++ after)) (by rwa [hcount]) initval
    rw [hcount, List.append_assoc, hs _ (List.append_ne_nil_of_left_ne_nil (List.cons_ne_nil _ _) _)] at h
    rwa [List.append_assoc]
  have hiff (w : Abc) : (∃ h, Prog.Returns (jhash2 (Block.ofList (before ++ [w.1, w.2.1, w.2.2] ++ after))
      (BitVec.ofNat 32 (before.length + 3 + after.length)) initval) h ∧ h &&& jhashMask n = i) ↔
      (absorb s (w.1 :: w.2.1 :: w.2.2 :: after)).2.2 &&& jhashMask n = i := by
    constructor
    · rintro ⟨h, hh, hbucket⟩
      rwa [(hreturns w).unique hh]
    · exact fun hbucket => ⟨_, hreturns w, hbucket⟩
  rw [Nat.card_congr (Equiv.subtypeEquivRight hiff)]
  exact card_three (absorb_three_bijective s after) hn hi

theorem jhash2_buckets_one :
    Nat.card {w : Abc // ∃ h, Prog.Returns (jhash2 (Block.ofList ([1, 2, 3] ++ [w.1, w.2.1, w.2.2] ++ [4]))
      (BitVec.ofNat 32 7) 0) h ∧ h &&& jhashMask 4 = 15} = 2 ^ 92 :=
  @jhash2_buckets [1, 2, 3] [4] (Nat.dvd_refl 3) (by decide) 4 (by decide) 15 (by decide) 0

end Libls.Jhash
