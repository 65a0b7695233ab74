import Libls.BitmapMaps

/-! # Fold, then onto

The comment on `bitmap_onto` says how to map a bitmap whose positions are beyond the weight of `relmap`: fold it
first, modulo that weight.  `placed_iff` says when this works: the weight must not be 0, unless nothing is folded. -/

namespace Libls.Bitmaps
open Ranks

variable {bits n w : ℕ} {orig relmap d : Bitmap bits} {dst tmp : Block Word}

/-! ### `bitmap_onto` -/

/-- What has been set below `n`. -/
def OntoDone (orig relmap : Bitmap bits) (n : ℕ) (s : Block Word × ℕ) : Prop :=
  s.2 = rank relmap.positions n ∧ ∃ d : Bitmap bits, d.block = s.1 ∧
    ∀ i, d.bit i = true ↔ i < n ∧ i ∈ onto relmap.positions orig.positions

/-- The step: one position of `relmap`. -/
theorem OntoDone.step {s : Block Word × ℕ} (h : OntoDone orig relmap n s) (hn : n ∈ relmap.positions) :
    ∃ s', ontoBit orig.block n s = some s' ∧ OntoDone orig relmap (n + 1) s' := by
  obtain ⟨dst, m⟩ := s
  obtain ⟨hm, d, hd, hbits⟩ := h
  dsimp only at hm hd
  subst hm hd
  have hm : rank relmap.positions n < bits := (rank_lt_card hn).trans_le (card_positions_le relmap)
  unfold ontoBit
  dsimp only
  rw [testBit_spec orig hm, Option.bind_eq_bind, Option.bind_some]
  cases hbit : orig.bit (rank relmap.positions n) with
  | true =>
      have hmem : n ∈ onto relmap.positions orig.positions := mem_onto.mpr ⟨hn, mem_positions.mpr ⟨hm, hbit⟩⟩
      obtain ⟨d', hset, hd'⟩ := setBit_spec d (mem_positions.mp hn).1
      refine ⟨(d'.block, rank relmap.positions n + 1), ?_, (rank_succ hn).symm, d', rfl, fun i => ?_⟩
      · rw [if_pos rfl, hset]
        rfl
      · rw [hd', hbits, Nat.lt_succ_iff_lt_or_eq, or_and_right]
        apply or_congr_right
        exact (and_iff_left_of_imp fun h => h ▸ hmem).symm
  | false =>
      have hmem : n ∉ onto relmap.positions orig.positions := by
        intro hmem
        have hset := (mem_positions.mp (mem_onto.mp hmem).2).2
        exact Bool.false_ne_true (hbit.symm.trans hset)
      refine ⟨(d.block, rank relmap.positions n + 1), ?_, (rank_succ hn).symm, d, rfl, fun i => ?_⟩
      · rw [if_neg Bool.false_ne_true]
        rfl
      · rw [hbits, Nat.lt_succ_iff_lt_or_eq, or_and_right]
        refine (or_iff_left ?_).symm
        rintro ⟨rfl, h⟩
        exact hmem h

/-- **`bitmap_onto`** -/
theorem bitmapOnto_spec (orig relmap : Bitmap bits) (hdst : dst.size = bitsToLongs bits) :
    ∃ d : Bitmap bits, Prog.Returns (bitmapOnto dst (some orig.block) relmap.block bits) d.block ∧
      d.positions = onto relmap.positions orig.positions := by
  obtain ⟨z, hzero, hz⟩ := bitmapZero_spec hdst
  have hskip : ∀ n s, n ∉ relmap.positions → OntoDone orig relmap n s → OntoDone orig relmap (n + 1) s := by
    rintro n s hn ⟨hm, d, hd, hbits⟩
    refine ⟨hm.trans (rank_skip (Nat.le_succ n) fun i hi hlt => ?_).symm, d, hd, fun i => ?_⟩
    · obtain rfl : i = n := by omega
      exact hn
    · rw [hbits, Nat.lt_succ_iff_lt_or_eq, or_and_right]
      exact (or_iff_left fun h => hn (mem_onto.mp (h.1 ▸ h.2)).1).symm
  have hstart : OntoDone orig relmap 0 (z.block, 0) := by
    refine ⟨rank_zero.symm, z, rfl, fun i => ?_⟩
    rw [hz]
    exact iff_of_false Bool.false_ne_true fun h => Nat.not_lt_zero i h.1
  obtain ⟨⟨dst', m⟩, hret, -, d, rfl, hd⟩ := forEachSetBit_returns relmap hskip
    (fun n s hn h => (h.step hn).imp fun s' hs' => ⟨Prog.returns_lift.mpr hs'.1, hs'.2⟩) hstart
  have hlt : ∀ i ∈ onto relmap.positions orig.positions, i < bits := fun i hi => (mem_positions.mp (mem_onto.mp hi).1).1
  refine ⟨d, ?_, positions_eq (fun i => ?_) hlt⟩
  · unfold bitmapOnto
    dsimp only
    rw [hzero, Prog.lift_bind, Prog.returns_bind]
    exact ⟨_, hret, Prog.returns_pure.mpr rfl⟩
  · rw [hd]
    exact and_iff_right_of_imp (hlt i)

/-! ### `bitmap_fold` -/

theorem foldBit_eq (hw : w ≠ 0) (x : ℕ) (dst : Block Word) : foldBit w x dst = setBit (x % w) dst := by
  have hne : (w : ℤ) ≠ 0 := Nat.cast_ne_zero.mpr hw
  have hmod : ((x : ℤ).tmod w).toNat = x % w := by
    rw [← Int.ofNat_tmod, Int.toNat_natCast]
  unfold foldBit
  rw [if_neg hne, hmod]

/-- **`bitmap_fold`**; nothing is divided if nothing is folded. -/
theorem bitmapFold_spec (orig : Bitmap bits) (hdst : dst.size = bitsToLongs bits) (hw : orig.positions = ∅ ∨ w ≠ 0) :
    ∃ d : Bitmap bits, Prog.Returns (bitmapFold dst (some orig.block) w bits) d.block ∧
      d.positions = fold w orig.positions := by
  obtain ⟨z, hzero, hz⟩ := bitmapZero_spec hdst
  unfold bitmapFold
  dsimp only
  rw [hzero, Prog.lift_bind]
  apply forEachSetBit_image _ _ hz
  · intro x hx
    exact (Nat.mod_le x w).trans_lt (mem_positions.mp hx).1
  · intro n hn d _ x hset
    have hne : w ≠ 0 := hw.resolve_left fun hempty => Finset.notMem_empty n (hempty ▸ hn)
    rw [Prog.returns_lift, foldBit_eq hne]
    exact hset

/-- Folding modulo 0 divides by 0 at the first position. -/
theorem not_returns_bitmapFold (hdst : dst.size = bitsToLongs bits) (h : orig.positions.Nonempty) (dst' : Block Word) :
    ¬ Prog.Returns (bitmapFold dst (some orig.block) 0 bits) dst' := by
  intro hret
  obtain ⟨z, hzero, -⟩ := bitmapZero_spec hdst
  unfold bitmapFold at hret
  dsimp only at hret
  rw [hzero, Prog.lift_bind] at hret
  obtain ⟨n, -, dst'', hfold⟩ := forEachSetBit_first h hret
  rw [Prog.returns_lift] at hfold
  cases hfold

/-! ### The recipe -/

/-- The calls of Example [2] for `bitmap_onto`. -/
def foldOnto (dst tmp orig relmap : Block Word) (bits : ℕ) : Prog (Block Word) := do
  let w ← Inline.bitmapWeight false relmap bits
  let tmp ← bitmapFold tmp (some orig) w bits
  bitmapOnto dst (some tmp) relmap bits

/-- The recipe leaves the positions of `relmap` that have the ranks of `orig` modulo its weight, and nothing if a
bitmap is empty; without the fold, the position `n` is set if its rank is in `orig`. -/
def Placed (orig relmap : Bitmap bits) (dst tmp : Block Word) : Prop :=
  (∃ d : Bitmap bits, Prog.Returns (foldOnto dst tmp orig.block relmap.block bits) d.block ∧
    d.positions = if relmap.positions = ∅ then ∅
      else orig.positions.image fun x => select relmap.positions (x % relmap.positions.card)) ∧
  ∃ d : Bitmap bits, Prog.Returns (bitmapOnto dst (some orig.block) relmap.block bits) d.block ∧
    ∀ n, n ∈ d.positions ↔ ∃ m ∈ orig.positions, n ∈ relmap.positions ∧ rank relmap.positions n = m

theorem returns_foldOnto {x : Block Word} (hbits : bits < 2 ^ 31) :
    Prog.Returns (foldOnto dst tmp orig.block relmap.block bits) x ↔
    ∃ t, Prog.Returns (bitmapFold tmp (some orig.block) (relmap.positions.card : ℤ) bits) t ∧
      Prog.Returns (bitmapOnto dst (some t) relmap.block bits) x := by
  unfold foldOnto
  rw [inlineWeight_spec relmap hbits, Prog.lift_bind, Prog.returns_bind]

/-- If the weight is 0, the recipe divides by it. -/
theorem not_returns_foldOnto {x : Block Word} (hbits : bits < 2 ^ 31) (htmp : tmp.size = bitsToLongs bits)
    (horig : orig.positions.Nonempty) (hrel : relmap.positions = ∅) :
    ¬ Prog.Returns (foldOnto dst tmp orig.block relmap.block bits) x := by
  rw [returns_foldOnto hbits, hrel, Finset.card_empty]
  rintro ⟨t, hfold, -⟩
  exact not_returns_bitmapFold htmp horig t hfold

/-- **Fold, then onto.**  Every position is placed, exactly if nothing is folded or `relmap` is not empty. -/
theorem placed_iff (hbits : bits < 2 ^ 31) (hdst : dst.size = bitsToLongs bits) (htmp : tmp.size = bitsToLongs bits) :
    Placed orig relmap dst tmp ↔ orig.positions = ∅ ∨ relmap.positions ≠ ∅ := by
  constructor
  · rintro ⟨⟨d, hret, -⟩, -⟩
    by_contra hno
    rw [not_or, not_not] at hno
    exact not_returns_foldOnto hbits htmp (Finset.nonempty_iff_ne_empty.mpr hno.1) hno.2 hret
  · intro h
    have hw : orig.positions = ∅ ∨ relmap.positions.card ≠ 0 := h.imp_right fun hne => by
      rwa [Finset.card_ne_zero, Finset.nonempty_iff_ne_empty]
    obtain ⟨t, hfold, ht⟩ := bitmapFold_spec orig htmp hw
    obtain ⟨d, hret, hd⟩ := bitmapOnto_spec t relmap hdst
    obtain ⟨d₁, hret₁, hd₁⟩ := bitmapOnto_spec orig relmap hdst
    refine ⟨⟨d, (returns_foldOnto hbits).mpr ⟨t.block, hfold, hret⟩, ?_⟩, d₁, hret₁, fun n => ?_⟩
    · rw [hd, ht]
      by_cases hempty : relmap.positions = ∅
      · rw [if_pos hempty, hempty]
        exact onto_empty
      · rw [if_neg hempty]
        exact onto_fold (Finset.nonempty_iff_ne_empty.mpr hempty)
    · rw [hd₁, mem_onto]
      constructor
      · rintro ⟨hn, hrank⟩
        exact ⟨_, hrank, hn, rfl⟩
      · rintro ⟨m, hm, hn, rfl⟩
        exact ⟨hn, hm⟩

/-- The positions 0, 2 and 5, of which two lie behind the weight of the positions 3 and 5. -/
def orig8 : Bitmap 8 := ⟨⟨[some 37]⟩, by decide, by decide⟩

def relmap8 : Bitmap 8 := ⟨⟨[some 40]⟩, by decide, by decide⟩

theorem placed_eight : Placed orig8 relmap8 (Block.null.realloc 1) (Block.null.realloc 1) :=
  (placed_iff (by decide) (by decide) (by decide)).mpr (.inr (by decide +kernel))

/-- One bit that is set, and one that is not. -/
def one1 : Bitmap 1 := ⟨⟨[some 1]⟩, by decide, by decide⟩

def zero1 : Bitmap 1 := ⟨⟨[some 0]⟩, by decide, by decide⟩

/-- The recipe for a `relmap` without positions. -/
theorem fold_onto_empty :
    (∀ x, ¬ Prog.Returns (foldOnto (Block.null.realloc 1) (Block.null.realloc 1) one1.block zero1.block 1) x) ∧
      ¬ Placed one1 zero1 (Block.null.realloc 1) (Block.null.realloc 1) := by
  have hno : ∀ x, ¬ Prog.Returns (foldOnto (Block.null.realloc 1) (Block.null.realloc 1) one1.block zero1.block 1) x := fun x =>
    not_returns_foldOnto (by decide) (by decide) (by decide) (by decide)
  refine ⟨hno, ?_⟩
  rintro ⟨⟨d, hret, -⟩, -⟩
  exact hno d.block hret

end Libls.Bitmaps
