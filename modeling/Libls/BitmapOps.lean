import Libls.Bitmaps

/-! # What the bitmap functions compute

Each function has one lemma, in terms of the positions of its operands.  `WordBits.clip bits` is what the
masks of the last word come to. -/

namespace Libls.Bitmaps
open Strings WordBits

variable {bits k n i : ℕ} {u v u₁ u₂ : ℕ → Word} {a b : Bitmap bits} {dst : Block Word}
  {src src1 src2 : Option (Block Word)}

/-! ### Words and positions -/

theorem lastWordMask_of_ne (h : bits % 64 ≠ 0) : lastWordMask bits = lowMask 64 (bits % 64) := if_pos h

theorem bitsToLongs_of_eq (h : bits % 64 = 0) : bitsToLongs bits = bits / 64 := by
  unfold bitsToLongs
  omega

theorem bitsToLongs_of_ne (h : bits % 64 ≠ 0) : bitsToLongs bits = bits / 64 + 1 := by
  unfold bitsToLongs
  omega

theorem div_le_bitsToLongs : bits / 64 ≤ bitsToLongs bits := by
  unfold bitsToLongs
  omega

theorem clip_of_ge (hk : bitsToLongs bits ≤ k) : clip bits u k = 0 := by
  by_cases h : bits % 64 = 0
  · rw [bitsToLongs_of_eq h] at hk
    rcases Nat.lt_or_eq_of_le hk with hk | rfl
    · exact clip_of_gt hk
    · rw [clip_last, h]
      simp [lowMask]
  · rw [bitsToLongs_of_ne h] at hk
    exact clip_of_gt hk

theorem word_of_ge (a : Bitmap bits) (hk : bitsToLongs bits ≤ k) : a.word k = 0 := by
  unfold Bitmap.word
  have hnone : a.block.read k = none := by
    rw [← Option.not_isSome_iff_eq_none]
    intro h
    obtain ⟨v, hv⟩ := Option.isSome_iff_exists.mp h
    have := Block.lt_of_read hv
    rw [a.size] at this
    omega
  rw [hnone]
  rfl

theorem bit_of_ge (a : Bitmap bits) (hi : bitsToLongs bits * 64 ≤ i) : a.bit i = false := by
  have hk : bitsToLongs bits ≤ i / 64 := by omega
  unfold Bitmap.bit bitAt
  rw [word_of_ge a hk]
  exact BitVec.getLsbD_zero

/-- The words that a function has written make a bitmap. -/
theorem exists_bitmap (hsize : dst.size = bitsToLongs bits)
    (hread : ∀ k < bitsToLongs bits, dst.read k = some (v k)) (hzero : ∀ k, bitsToLongs bits ≤ k → v k = 0) :
    ∃ d : Bitmap bits, d.block = dst ∧ d.word = v := by
  refine ⟨⟨dst, hsize, fun k hk => ?_⟩, rfl, ?_⟩
  · rw [hread k hk]
    rfl
  · funext k
    rcases Nat.lt_or_ge k (bitsToLongs bits) with hk | hk
    · unfold Bitmap.word
      rw [hread k hk]
      rfl
    · rw [word_of_ge _ hk, hzero k hk]

/-- The same, by the positions. -/
theorem exists_bits {p : ℕ → Bool} (hp : ∀ i, bitAt v i = p i) (hsize : dst.size = bitsToLongs bits)
    (hread : ∀ k < bitsToLongs bits, dst.read k = some (v k)) (hzero : ∀ k, bitsToLongs bits ≤ k → v k = 0) :
    ∃ d : Bitmap bits, d.block = dst ∧ ∀ i, d.bit i = p i := by
  obtain ⟨d, hblock, hd⟩ := exists_bitmap hsize hread hzero
  refine ⟨d, hblock, fun i => ?_⟩
  rw [← hp, ← hd]
  rfl

/-- The bitmap with the given words. -/
def Bitmap.ofWords (bits : ℕ) (u : ℕ → Word) : Bitmap bits where
  block := ⟨(List.range (bitsToLongs bits)).map fun k => some (u k)⟩
  size := by
    unfold Block.size
    rw [List.length_map, List.length_range]
  written := by
    intro k hk
    simp [Block.read, hk]

theorem bit_ofWords {u : ℕ → Word} {i : ℕ} (hi : i < bitsToLongs bits * 64) :
    (Bitmap.ofWords bits u).bit i = bitAt u i := by
  have hk : i / 64 < bitsToLongs bits := by omega
  have hword : (Bitmap.ofWords bits u).word (i / 64) = u (i / 64) := by
    unfold Bitmap.word Bitmap.ofWords Block.read
    simp [hk]
  unfold Bitmap.bit bitAt
  rw [hword]

/-- Setting bits in one word. -/
theorem modify_or_spec (a : Bitmap bits) (hk : k < bitsToLongs bits) (v : Word) : ∃ d : Bitmap bits,
    a.block.modify k (· ||| v) = some d.block ∧
      ∀ i, d.bit i = (a.bit i || (decide (i / 64 = k) && v.getLsbD (i % 64))) := by
  obtain ⟨dst, hmodify, hsize, hread⟩ := Block.modify_of_read (a.read hk) (· ||| v)
  obtain ⟨d, rfl, hd⟩ := @exists_bitmap bits (fun j => if j = k then a.word k ||| v else a.word j) dst
    (hsize.trans a.size)
    (fun j hj => by
      rw [hread]
      by_cases h : j = k
      · rw [if_pos h, if_pos h]
      · rw [if_neg h, if_neg h, a.read hj])
    (fun j hj => by
      rw [if_neg (by omega), word_of_ge a hj])
  refine ⟨d, hmodify, fun i => ?_⟩
  unfold Bitmap.bit bitAt
  rw [hd]
  by_cases h : i / 64 = k
  · simp only [h, if_true, BitVec.getLsbD_or, decide_true, Bool.true_and]
  · simp only [h, if_false, decide_false, Bool.false_and, Bool.or_false]

theorem setBit_spec {nr : ℕ} (d : Bitmap bits) (hnr : nr < bits) : ∃ d' : Bitmap bits, setBit nr d.block = some d'.block ∧
    ∀ i, d'.bit i = true ↔ d.bit i = true ∨ i = nr := by
  obtain ⟨d', hmodify, hd'⟩ := modify_or_spec d (by unfold bitsToLongs; omega : nr / 64 < bitsToLongs bits)
    ((1 : Word) <<< (nr % 64))
  refine ⟨d', hmodify, fun i => ?_⟩
  have hone : ((1 : Word) <<< (nr % 64)).getLsbD (i % 64) = decide (i % 64 = nr % 64) := by
    have hlt : i % 64 < 64 := Nat.mod_lt _ (by decide)
    have hbit : (1 : Word).getLsbD (i % 64 - nr % 64) = decide (i % 64 - nr % 64 = 0) := BitVec.getLsbD_one
    have hiff : (¬ i % 64 < nr % 64 ∧ i % 64 - nr % 64 = 0) ↔ i % 64 = nr % 64 := by omega
    rw [BitVec.getLsbD_shiftLeft, hbit, decide_eq_true hlt, Bool.true_and, ← decide_not, ← Bool.decide_and]
    simp only [hiff]
  have hiff : (i / 64 = nr / 64 ∧ i % 64 = nr % 64) ↔ i = nr := by omega
  rw [hd', hone, Bool.or_eq_true, Bool.and_eq_true, decide_eq_true_iff, decide_eq_true_iff, hiff]

/-! ### Tests -/

theorem scanLoop_spec {test : ℕ → Option Bool} {p : ℕ → Bool}
    (htest : ∀ j, k ≤ j → j < k + n → test j = some (p j)) :
    ∃ found, scanLoop test k n = some found ∧ (found = true ↔ ∃ j, k ≤ j ∧ j < k + n ∧ p j = true) := by
  induction n generalizing k with
  | zero =>
      refine ⟨false, rfl, ?_⟩
      constructor
      · intro h
        cases h
      · rintro ⟨j, hj, hlt, -⟩
        omega
  | succ n ih =>
      rw [scanLoop, htest k le_rfl (by omega), Option.bind_eq_bind, Option.bind_some]
      cases hp : p k with
      | true => exact ⟨true, rfl, fun _ => ⟨k, le_rfl, by omega, hp⟩, fun _ => rfl⟩
      | false =>
          obtain ⟨found, hfound, hiff⟩ := @ih (k + 1) fun j hj hlt => htest j (by omega) (by omega)
          refine ⟨found, hfound, hiff.trans ⟨?_, ?_⟩⟩
          · rintro ⟨j, hj, hlt, hpj⟩
            exact ⟨j, by omega, by omega, hpj⟩
          · rintro ⟨j, hj, hlt, hpj⟩
            have hne : j ≠ k := by
              rintro rfl
              rw [hp] at hpj
              cases hpj
            exact ⟨j, by omega, by omega, hpj⟩

/-- A loop that comes to its end has made every test. -/
theorem scanLoop_false {test : ℕ → Option Bool} (h : scanLoop test k n = some false) :
    ∀ j, k ≤ j → j < k + n → test j = some false := by
  induction n generalizing k with
  | zero =>
      intro j hj hlt
      omega
  | succ n ih =>
      obtain ⟨found, htest, hrest⟩ := Option.bind_eq_some_iff.mp h
      cases found with
      | true => cases hrest
      | false =>
          intro j hj hlt
          rcases Nat.eq_or_lt_of_le hj with rfl | hj
          · exact htest
          · exact ih hrest j hj (by omega)

/-- **The tests.**  The tested word is not 0 for some word of the bitmap, the last one masked. -/
theorem scan_spec {test : ℕ → Option Bool} {last : ℕ → Option Word}
    (htest : ∀ k < bits / 64, test k = some (u k != 0))
    (hlast : bits % 64 ≠ 0 → last (bits / 64) = some (u (bits / 64))) :
    scan test last bits = some (decide (∃ i < bits, bitAt u i = true)) := by
  obtain ⟨found, hfound, hiff⟩ := @scanLoop_spec 0 (bits / 64) test (fun k => u k != 0) fun j _ hlt =>
    htest j (by omega)
  have hclip : (∃ i < bits, bitAt u i = true) ↔ found = true ∨ clip bits u (bits / 64) ≠ 0 := by
    rw [← exists_clip_ne_zero (by decide), hiff]
    constructor
    · rintro ⟨k, hk⟩
      rcases Nat.lt_trichotomy k (bits / 64) with hlt | rfl | hgt
      · rw [clip_of_lt hlt] at hk
        exact .inl ⟨k, Nat.zero_le k, by omega, bne_iff_ne.mpr hk⟩
      · exact .inr hk
      · exact absurd (clip_of_gt hgt) hk
    · rintro (⟨k, -, hlt, hk⟩ | hk)
      · refine ⟨k, ?_⟩
        rw [clip_of_lt (by omega)]
        exact bne_iff_ne.mp hk
      · exact ⟨_, hk⟩
  unfold scan
  rw [hfound, Option.bind_eq_bind, Option.bind_some]
  cases found with
  | true =>
      rw [if_pos rfl, decide_eq_true (hclip.mpr (.inl rfl))]
      rfl
  | false =>
      rw [if_neg (by decide)]
      by_cases hbits : bits % 64 = 0
      · have hzero : clip bits u (bits / 64) = 0 := clip_of_ge (Nat.le_of_eq (bitsToLongs_of_eq hbits))
        rw [if_neg (not_not_intro hbits), decide_eq_false]
        · rfl
        · rw [hclip, hzero]
          simp
      · rw [if_pos hbits, hlast hbits, Option.bind_eq_bind, Option.bind_some, lastWordMask_of_ne hbits, ← clip_last]
        refine congrArg some ?_
        rw [Bool.eq_iff_iff, bne_iff_ne, decide_eq_true_iff, hclip]
        simp

theorem word_of_test (a : Bitmap bits) (hk : k < bits / 64) : a.block.read k = some (a.word k) :=
  a.read (Nat.lt_of_lt_of_le hk div_le_bitsToLongs)

theorem word_of_last (a : Bitmap bits) (h : bits % 64 ≠ 0) :
    a.block.read (bits / 64) = some (a.word (bits / 64)) := by
  refine a.read ?_
  rw [bitsToLongs_of_ne h]
  exact Nat.lt_succ_self _

/-- The negated tests: no tested word has a bit where `P` holds everywhere. -/
theorem notScan_spec {test : ℕ → Option Bool} {last : ℕ → Option Word} {P : ℕ → Prop} [DecidablePred P]
    (htest : ∀ k < bits / 64, test k = some (u k != 0))
    (hlast : bits % 64 ≠ 0 → last (bits / 64) = some (u (bits / 64))) (hP : ∀ i, bitAt u i = true ↔ ¬ P i) :
    (! ·) <$> scan test last bits = some (decide (∀ i < bits, P i)) := by
  rw [scan_spec htest hlast]
  refine congrArg some ?_
  rw [Bool.eq_iff_iff, Bool.not_eq_true', decide_eq_false_iff_not, decide_eq_true_iff]
  simp only [hP]
  push Not
  rfl

theorem bitmapEmpty_spec (a : Bitmap bits) :
    bitmapEmpty a.block bits = some (decide (∀ i < bits, a.bit i = false)) := by
  refine @notScan_spec bits a.word (fun k => do return (← a.block.read k) != 0) a.block.read
    (fun i => a.bit i = false) _ (fun k hk => by rw [word_of_test a hk]; rfl) (word_of_last a) fun i => ?_
  rw [Bool.not_eq_false]
  rfl

theorem bitmapFull_spec (a : Bitmap bits) :
    bitmapFull a.block bits = some (decide (∀ i < bits, a.bit i = true)) := by
  refine @notScan_spec bits (fun k => ~~~a.word k) (fun k => do return ~~~(← a.block.read k) != 0)
    (fun k => do return ~~~(← a.block.read k)) (fun i => a.bit i = true) _
    (fun k hk => by rw [word_of_test a hk]; rfl)
    (fun h => by rw [word_of_last a h]; rfl) fun i => ?_
  unfold Bitmap.bit bitAt
  rw [BitVec.getLsbD_not, decide_eq_true (Nat.mod_lt i (by decide)), Bool.true_and]
  simp

theorem bitmapEqual_spec (a b : Bitmap bits) :
    bitmapEqual a.block b.block bits = some (decide (∀ i < bits, a.bit i = b.bit i)) := by
  have hne : ∀ x y : Word, (x != y) = (x ^^^ y != 0) := by
    intro x y
    rw [Bool.eq_iff_iff, bne_iff_ne, bne_iff_ne, not_iff_not]
    exact BitVec.xor_eq_zero_iff.symm
  refine @notScan_spec bits (fun k => a.word k ^^^ b.word k)
    (fun k => do return (← a.block.read k) != (← b.block.read k))
    (fun k => do return (← a.block.read k) ^^^ (← b.block.read k)) (fun i => a.bit i = b.bit i) _
    (fun k hk => by rw [word_of_test a hk, word_of_test b hk, ← hne]; rfl)
    (fun h => by rw [word_of_last a h, word_of_last b h]; rfl) fun i => ?_
  unfold Bitmap.bit bitAt
  rw [BitVec.getLsbD_xor]
  simp

theorem bitmapIntersects_spec (a b : Bitmap bits) :
    bitmapIntersects a.block b.block bits = some (decide (∃ i < bits, a.bit i = true ∧ b.bit i = true)) := by
  have h := @scan_spec bits (fun k => a.word k &&& b.word k)
    (fun k => do return (← a.block.read k) &&& (← b.block.read k) != 0)
    (fun k => do return (← a.block.read k) &&& (← b.block.read k))
    (fun k hk => by rw [word_of_test a hk, word_of_test b hk]; rfl)
    (fun h => by rw [word_of_last a h, word_of_last b h]; rfl)
  unfold bitmapIntersects
  rw [h]
  refine congrArg some (decide_eq_decide.mpr ?_)
  refine exists_congr fun i => and_congr_right fun _ => ?_
  unfold Bitmap.bit bitAt
  rw [BitVec.getLsbD_and, Bool.and_eq_true]

theorem bitmapSubset_spec (a b : Bitmap bits) :
    bitmapSubset a.block b.block bits = some (decide (∀ i < bits, a.bit i = true → b.bit i = true)) := by
  refine @notScan_spec bits (fun k => a.word k &&& ~~~b.word k)
    (fun k => do return (← a.block.read k) &&& ~~~(← b.block.read k) != 0)
    (fun k => do return (← a.block.read k) &&& ~~~(← b.block.read k)) (fun i => a.bit i = true → b.bit i = true) _
    (fun k hk => by rw [word_of_test a hk, word_of_test b hk]; rfl)
    (fun h => by rw [word_of_last a h, word_of_last b h]; rfl) fun i => ?_
  unfold Bitmap.bit bitAt
  rw [BitVec.getLsbD_and, BitVec.getLsbD_not, decide_eq_true (Nat.mod_lt i (by decide))]
  simp

/-! ### Agreement -/

/-- The two bitmaps have the same positions. -/
def Agree (a b : Bitmap bits) : Prop := ∀ i < bits, a.bit i = b.bit i

theorem Agree.clip {a b : Bitmap bits} (h : Agree a b) : clip bits a.word = clip bits b.word :=
  (clip_eq_clip (by decide)).mpr h

theorem Agree.word {a b : Bitmap bits} (h : Agree a b) (hk : k < bits / 64) : a.word k = b.word k := by
  rw [← @clip_of_lt _ a.word _ _ hk, ← @clip_of_lt _ b.word _ _ hk, h.clip]

theorem Agree.last {a b : Bitmap bits} (h : Agree a b) (hbits : bits % 64 ≠ 0) :
    a.word (bits / 64) &&& lastWordMask bits = b.word (bits / 64) &&& lastWordMask bits := by
  rw [lastWordMask_of_ne hbits, ← clip_last, ← clip_last, h.clip]

/-! ### Weight -/

theorem weightLoop_congr {block block' : Block Word} {w : ℕ}
    (hread : ∀ j, k ≤ j → j < k + n → block.read j = block'.read j) :
    weightLoop block k n w = weightLoop block' k n w := by
  induction n generalizing k w with
  | zero => rfl
  | succ n ih =>
      have hih : ∀ w, weightLoop block (k + 1) n w = weightLoop block' (k + 1) n w := by
        intro w
        exact ih fun j hj hlt => hread j (by omega) (by omega)
      simp only [weightLoop, hread k le_rfl (by omega), hih]

/-- The weight is that of the positions. -/
theorem bitmapWeight_congr (h : Agree a b) : bitmapWeight a.block bits = bitmapWeight b.block bits := by
  have hloop : weightLoop a.block 0 (bits / 64) 0 = weightLoop b.block 0 (bits / 64) 0 := by
    refine weightLoop_congr fun j _ hj => ?_
    rw [word_of_test a (by omega), word_of_test b (by omega), h.word (by omega)]
  unfold bitmapWeight
  rw [hloop]
  by_cases hbits : bits % 64 = 0
  · simp only [hbits, ne_eq, not_true, if_false]
  · simp only [ne_eq, hbits, not_false_iff, if_true, word_of_last a hbits, word_of_last b hbits,
      Option.bind_eq_bind, Option.bind_some, h.last hbits]

/-! ### Operations -/

/-- What is written to the destination does not touch the words of a source that are still to be read. -/
theorem read_source {dst dst' : Block Word} {j : ℕ} (h : dst'.read j = dst.read j) :
    (src.getD dst').read j = (src.getD dst).read j := by
  cases src with
  | none => exact h
  | some b => rfl

theorem zipLoop_spec {f : Word → Word → Word} {result : Word} (hroom : k + n ≤ dst.size)
    (h₁ : ∀ j, k ≤ j → j < k + n → (src1.getD dst).read j = some (u₁ j))
    (h₂ : ∀ j, k ≤ j → j < k + n → (src2.getD dst).read j = some (u₂ j)) :
    ∃ dst' result', zipLoop f src1 src2 k n dst result = some (dst', result') ∧ dst'.size = dst.size ∧
      (∀ j, dst'.read j = if k ≤ j ∧ j < k + n then some (f (u₁ j) (u₂ j)) else dst.read j) ∧
      (result' = 0 ↔ result = 0 ∧ ∀ j, k ≤ j → j < k + n → f (u₁ j) (u₂ j) = 0) := by
  induction n generalizing k dst result with
  | zero =>
      refine ⟨dst, result, rfl, rfl, fun j => ?_, ?_⟩
      · rw [if_neg (by omega)]
      · refine ⟨fun h => ⟨h, fun j hj hlt => ?_⟩, And.left⟩
        omega
  | succ n ih =>
      obtain ⟨dst₁, hwrite, hsize₁, hread₁⟩ := Block.write_of_lt (by omega : k < dst.size) (f (u₁ k) (u₂ k))
      have hkeep : ∀ j, k + 1 ≤ j → dst₁.read j = dst.read j := by
        intro j hj
        rw [hread₁, if_neg (by omega)]
      obtain ⟨dst', result', hloop, hsize, hread, hzero⟩ := @ih (k + 1) dst₁ (result ||| f (u₁ k) (u₂ k))
        (by omega) (fun j hj hlt => (read_source (hkeep j hj)).trans (h₁ j (by omega) (by omega)))
        (fun j hj hlt => (read_source (hkeep j hj)).trans (h₂ j (by omega) (by omega)))
      refine ⟨dst', result', ?_, hsize.trans hsize₁, fun j => ?_, hzero.trans ?_⟩
      · simp [zipLoop, h₁ k le_rfl (by omega), h₂ k le_rfl (by omega), hwrite, hloop]
      · rw [hread, hread₁]
        exact Block.read_cons (f := fun j => some (f (u₁ j) (u₂ j)))
      · have hor : result ||| f (u₁ k) (u₂ k) = 0 ↔ result = 0 ∧ f (u₁ k) (u₂ k) = 0 := BitVec.or_eq_zero_iff
        rw [hor, and_assoc]
        refine and_congr_right fun _ => ⟨?_, ?_⟩
        · rintro ⟨hk, h⟩ j hj hlt
          rcases Nat.eq_or_lt_of_le hj with rfl | hj
          · exact hk
          · exact h j hj (by omega)
        · intro h
          exact ⟨h k le_rfl (by omega), fun j hj hlt => h j (by omega) (by omega)⟩

/-- The arguments of a call: the sources hold `a` and `b`, and each of them may be the destination. -/
structure Args (a b : Bitmap bits) where
  dst : Block Word
  src1 : Option (Block Word)
  src2 : Option (Block Word)
  size : dst.size = bitsToLongs bits
  holds1 : src1.getD dst = a.block
  holds2 : src2.getD dst = b.block

/-- **The operations** on two bitmaps work on every position, the unused ones included. -/
theorem Args.zipLoop_spec (x : Args a b) {f : Word → Word → Word} {g : Bool → Bool → Bool}
    (hf : ∀ x y j, j < 64 → (f x y).getLsbD j = g (x.getLsbD j) (y.getLsbD j)) (hg : g false false = false) :
    ∃ d : Bitmap bits, ∃ result, zipLoop f x.src1 x.src2 0 (bitsToLongs bits) x.dst 0 = some (d.block, result) ∧
      (∀ i, d.bit i = g (a.bit i) (b.bit i)) ∧ (result = 0 ↔ ∀ i, d.bit i = false) := by
  obtain ⟨dst', result, hloop, hsize, hread, hzero⟩ := @Bitmaps.zipLoop_spec 0 (bitsToLongs bits) a.word b.word x.dst
    x.src1 x.src2 f 0 (by rw [x.size]; omega)
    (fun j _ hlt => by rw [x.holds1]; exact a.read (by omega))
    (fun j _ hlt => by rw [x.holds2]; exact b.read (by omega))
  have hf0 : f 0 0 = 0 := by
    refine BitVec.eq_of_getLsbD_eq fun j hj => ?_
    rw [hf _ _ j hj]
    simpa using hg
  obtain ⟨d, rfl, hd⟩ := @exists_bitmap bits (fun k => f (a.word k) (b.word k)) dst' (hsize.trans x.size)
    (fun k hk => by rw [hread, if_pos (by omega)])
    (fun k hk => by rw [word_of_ge a hk, word_of_ge b hk, hf0])
  have hbit : ∀ i, d.bit i = g (a.bit i) (b.bit i) := by
    intro i
    unfold Bitmap.bit bitAt
    rw [hd]
    exact hf _ _ _ (Nat.mod_lt i (by decide))
  refine ⟨d, result, hloop, hbit, hzero.trans ?_⟩
  constructor
  · rintro ⟨-, h⟩ i
    rcases Nat.lt_or_ge (i / 64) (bitsToLongs bits) with hk | hk
    · have hword : d.word (i / 64) = 0 := by
        rw [hd]
        exact h _ (Nat.zero_le _) (by omega)
      unfold Bitmap.bit bitAt
      rw [hword]
      exact BitVec.getLsbD_zero
    · exact bit_of_ge d (by omega)
  · intro h
    refine ⟨rfl, fun j _ _ => ?_⟩
    have hword : d.word = fun _ => 0 := by
      refine ext_bits fun i => ?_
      unfold Bitmap.bit at h
      rw [h i]
      exact BitVec.getLsbD_zero.symm
    have hj := congrFun hword j
    rwa [hd] at hj

/-- `__bitmap_and`: the result says whether any bit of the words is set. -/
theorem bitmapAnd_spec (x : Args a b) : ∃ d : Bitmap bits, ∃ result,
    bitmapAnd x.dst x.src1 x.src2 bits = some (d.block, result) ∧ (∀ i, d.bit i = (a.bit i && b.bit i)) ∧
      (result = true ↔ ∃ i, d.bit i = true) := by
  obtain ⟨d, result, hloop, hbit, hzero⟩ := @x.zipLoop_spec _ _ _ (fun x y => x &&& y) and
    (fun x y j _ => BitVec.getLsbD_and) rfl
  refine ⟨d, result != 0, ?_, hbit, ?_⟩
  · unfold bitmapAnd
    rw [hloop]
    rfl
  · rw [bne_iff_ne, ne_eq, hzero]
    push Not
    simp

theorem bitmapAndnot_spec (x : Args a b) : ∃ d : Bitmap bits, ∃ result,
    bitmapAndnot x.dst x.src1 x.src2 bits = some (d.block, result) ∧ (∀ i, d.bit i = (a.bit i && !b.bit i)) ∧
      (result = true ↔ ∃ i, d.bit i = true) := by
  obtain ⟨d, result, hloop, hbit, hzero⟩ := @x.zipLoop_spec _ _ _ (fun x y => x &&& ~~~y) (fun p q => p && !q)
    (fun x y j hj => by simp [hj]) rfl
  refine ⟨d, result != 0, ?_, hbit, ?_⟩
  · unfold bitmapAndnot
    rw [hloop]
    rfl
  · rw [bne_iff_ne, ne_eq, hzero]
    push Not
    simp

theorem bitmapOr_spec (x : Args a b) : ∃ d : Bitmap bits,
    bitmapOr x.dst x.src1 x.src2 bits = some d.block ∧ ∀ i, d.bit i = (a.bit i || b.bit i) := by
  obtain ⟨d, result, hloop, hbit, -⟩ := @x.zipLoop_spec _ _ _ (fun x y => x ||| y) or
    (fun x y j _ => BitVec.getLsbD_or) rfl
  refine ⟨d, ?_, hbit⟩
  unfold bitmapOr
  rw [hloop]
  rfl

theorem bitmapXor_spec (x : Args a b) : ∃ d : Bitmap bits,
    bitmapXor x.dst x.src1 x.src2 bits = some d.block ∧ ∀ i, d.bit i = (a.bit i ^^ b.bit i) := by
  obtain ⟨d, result, hloop, hbit, -⟩ := @x.zipLoop_spec _ _ _ (fun x y => x ^^^ y) xor
    (fun x y j _ => BitVec.getLsbD_xor) rfl
  refine ⟨d, ?_, hbit⟩
  unfold bitmapXor
  rw [hloop]
  rfl

/-! ### Operations on one bitmap -/

/-- A bitmap in its own place. -/
theorem getD_none (a : Bitmap bits) : (none : Option (Block Word)).getD a.block = a.block := rfl

/-- The arguments of a call: the source holds `a`, and it may be the destination. -/
structure Arg (a : Bitmap bits) where
  dst : Block Word
  src : Option (Block Word)
  size : dst.size = bitsToLongs bits
  holds : src.getD dst = a.block

theorem complementLoop_spec (hroom : k + n ≤ dst.size)
    (hsrc : ∀ j, k ≤ j → (src.getD dst).read j = a.block.read j) (hn : k + n ≤ bitsToLongs bits) :
    ∃ dst', complementLoop src k n dst = some dst' ∧ dst'.size = dst.size ∧
      (∀ j, k + n ≤ j → (src.getD dst').read j = a.block.read j) ∧
      ∀ j, dst'.read j = if k ≤ j ∧ j < k + n then some (~~~a.word j) else dst.read j := by
  induction n generalizing k dst with
  | zero =>
      refine ⟨dst, rfl, rfl, hsrc, fun j => ?_⟩
      rw [if_neg (by omega)]
  | succ n ih =>
      obtain ⟨dst₁, hwrite, hsize₁, hread₁⟩ := Block.write_of_lt (by omega : k < dst.size) (~~~a.word k)
      obtain ⟨dst', hloop, hsize, hrest, hread⟩ := @ih (k + 1) dst₁ (by omega)
        (fun j hj => (read_source (by rw [hread₁, if_neg (by omega)])).trans (hsrc j (by omega))) (by omega)
      have hk : (src.getD dst).read k = some (a.word k) := (hsrc k le_rfl).trans (a.read (by omega))
      refine ⟨dst', ?_, hsize.trans hsize₁, fun j hj => hrest j (by omega), fun j => ?_⟩
      · simp [complementLoop, hk, hwrite, hloop]
      · rw [hread, hread₁]
        exact Block.read_cons (f := fun j => some (~~~a.word j))

theorem bitmapComplement_spec (x : Arg a) : ∃ d : Bitmap bits,
    bitmapComplement x.dst x.src bits = some d.block ∧ ∀ i, d.bit i = (decide (i < bits) && !a.bit i) := by
  have hbit : ∀ i, bitAt (clip bits fun k => ~~~a.word k) i = (decide (i < bits) && !a.bit i) := by
    intro i
    rw [bitAt_clip (by decide)]
    unfold Bitmap.bit bitAt
    rw [BitVec.getLsbD_not, decide_eq_true (Nat.mod_lt i (by decide)), Bool.true_and]
  obtain ⟨dst₁, hloop, hsize, hrest, hread⟩ := @complementLoop_spec bits 0 (bits / 64) a x.dst x.src
    (by rw [x.size, Nat.zero_add]; exact div_le_bitsToLongs) (fun j _ => by rw [x.holds])
    (by rw [Nat.zero_add]; exact div_le_bitsToLongs)
  unfold bitmapComplement
  rw [hloop, Option.bind_eq_bind, Option.bind_some]
  by_cases hbits : bits % 64 = 0
  · rw [if_neg (not_not_intro hbits)]
    obtain ⟨d, rfl, hd⟩ := @exists_bits bits (clip bits fun k => ~~~a.word k) dst₁ _ hbit (hsize.trans x.size)
      (fun k hk => by
        rw [bitsToLongs_of_eq hbits] at hk
        rw [hread, if_pos (by omega), clip_of_lt hk])
      (fun k hk => clip_of_ge hk)
    exact ⟨d, rfl, hd⟩
  · have hlong := bitsToLongs_of_ne hbits
    have hlast := (hrest (bits / 64) (by omega)).trans (word_of_last a hbits)
    obtain ⟨dst₂, hwrite, hsize₂, hread₂⟩ := Block.write_of_lt
      (by rw [hsize, x.size]; omega : bits / 64 < dst₁.size) (~~~a.word (bits / 64) &&& lastWordMask bits)
    obtain ⟨d, rfl, hd⟩ := @exists_bits bits (clip bits fun k => ~~~a.word k) dst₂ _ hbit
      (hsize₂.trans (hsize.trans x.size))
      (fun k hk => by
        rw [hread₂, hread]
        by_cases hlastk : k = bits / 64
        · rw [if_pos hlastk, hlastk, clip_last, lastWordMask_of_ne hbits]
        · rw [if_neg hlastk, if_pos (by omega), clip_of_lt (by omega)])
      (fun k hk => clip_of_ge hk)
    refine ⟨d, ?_, hd⟩
    rw [if_pos hbits, hlast, Option.bind_eq_bind, Option.bind_some, hwrite]

end Libls.Bitmaps
