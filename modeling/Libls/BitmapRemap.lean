import Libls.BitmapMaps

/-! # Remapping

`bitmap_remap` and `bitmap_bitremap` both take the n-th position of `old` to the m-th position of `new`, where m is n
modulo the weight of `new`; this is `Ranks.transfer`.  `bitmap_remap` clears `dst` before it reads the maps, so
that a map that is `dst` is lost. -/

namespace Libls.Bitmaps
open Ranks

variable {bits n x : ℕ} {src old new d : Bitmap bits} {dst : Block Word}

/-! ### One position -/

theorem transfer_lt (hx : x < bits) : transfer old.positions new.positions x < bits := by
  by_cases h : x ∈ old.positions ∧ new.positions.Nonempty
  · rw [transfer_of_mem h.1 h.2]
    have hlt := Nat.mod_lt (rank old.positions x) (Finset.card_pos.mpr h.2)
    exact (mem_positions.mp (select_mem hlt)).1
  · rw [transfer, if_neg h]
    exact hx

/-- The rank decides: the position stays, or it is looked up in `new`. -/
theorem ord_cases (old new : Bitmap bits) (x : ℕ) : ∃ k : ℤ, Prog.Returns (bitmapPosToOrd old.block x bits) k ∧
    ((k < 0 ∨ (new.positions.card : ℤ) = 0) ∧ transfer old.positions new.positions x = x ∨
      ¬ (k < 0 ∨ (new.positions.card : ℤ) = 0) ∧
        Prog.Returns (bitmapOrdToPos new.block (k.tmod new.positions.card) bits) (transfer old.positions new.positions x)) := by
  by_cases hx : x ∈ old.positions
  · refine ⟨_, bitmapPosToOrd_spec hx, ?_⟩
    by_cases hnew : new.positions = ∅
    · refine .inl ⟨.inr ?_, transfer_of_not (.inr hnew)⟩
      rw [hnew]
      rfl
    · have hne : new.positions.Nonempty := Finset.nonempty_iff_ne_empty.mpr hnew
      have hpos := Finset.card_pos.mpr hne
      refine .inr ⟨by omega, ?_⟩
      rw [transfer_of_mem hx hne, ← Int.ofNat_tmod]
      exact bitmapOrdToPos_spec (Nat.mod_lt _ hpos)
  · have hnone : ∀ n ∈ old.positions, (x : ℤ) ≠ n := by
      intro n hn h
      rw [Int.natCast_inj] at h
      exact hx (h ▸ hn)
    exact ⟨-1, bitmapPosToOrd_none hnone, .inl ⟨.inl (by decide), transfer_of_not (.inl hx)⟩⟩

/-- **`bitmap_bitremap`** -/
theorem bitmapBitremap_spec (old new : Bitmap bits) (hbits : bits < 2 ^ 31) (x : ℕ) :
    Prog.Returns (bitmapBitremap x old.block new.block bits) (transfer old.positions new.positions x : ℤ) := by
  obtain ⟨k, hk, ⟨hstay, htransfer⟩ | ⟨hgo, hpos⟩⟩ := ord_cases old new x
  · unfold bitmapBitremap
    rw [inlineWeight_spec new hbits, Prog.lift_bind, Prog.returns_bind]
    refine ⟨k, hk, ?_⟩
    rw [if_pos hstay, htransfer, Prog.returns_pure]
  · unfold bitmapBitremap
    rw [inlineWeight_spec new hbits, Prog.lift_bind, Prog.returns_bind]
    refine ⟨k, hk, ?_⟩
    rw [if_neg hgo, Prog.returns_bind]
    exact ⟨_, hpos, Prog.returns_pure.mpr rfl⟩

/-- A number that is no position of `old` stays. -/
theorem bitmapBitremap_other {x : ℤ} (hbits : bits < 2 ^ 31) (h : ∀ n ∈ old.positions, x ≠ n) :
    Prog.Returns (bitmapBitremap x old.block new.block bits) x := by
  unfold bitmapBitremap
  rw [inlineWeight_spec new hbits, Prog.lift_bind, Prog.returns_bind]
  refine ⟨-1, bitmapPosToOrd_none h, ?_⟩
  rw [if_pos (.inl (by decide)), Prog.returns_pure]

/-! ### All positions -/

/-- **`bitmap_remap`**, where `dst` is none of the maps. -/
theorem bitmapRemap_spec (src old new : Bitmap bits) (hbits : bits < 2 ^ 31) (hdst : dst.size = bitsToLongs bits) :
    ∃ d : Bitmap bits, Prog.Returns (bitmapRemap dst (some src.block) (some old.block) (some new.block) bits) d.block ∧
      d.positions = src.positions.image (transfer old.positions new.positions) := by
  obtain ⟨z, hzero, hz⟩ := bitmapZero_spec hdst
  unfold bitmapRemap
  dsimp only
  rw [hzero, Prog.lift_bind, Option.getD_some, inlineWeight_spec new hbits, Prog.lift_bind]
  apply forEachSetBit_image _ _ hz
  · intro x hx
    exact transfer_lt (mem_positions.mp hx).1
  · intro n _ d _ x hset
    unfold remapBit
    rw [Option.getD_some, Prog.returns_bind]
    obtain ⟨k, hk, ⟨hstay, htransfer⟩ | ⟨hgo, hpos⟩⟩ := ord_cases old new n
    · refine ⟨k, hk, ?_⟩
      rw [htransfer] at hset
      rw [if_pos hstay, Prog.returns_lift]
      exact hset
    · refine ⟨k, hk, ?_⟩
      rw [if_neg hgo, Prog.returns_bind]
      exact ⟨_, hpos, Prog.returns_lift.mpr hset⟩

/-- **`bitmap_remap`**, where `dst` is a map: it is empty when it is read. -/
theorem bitmapRemap_self {old new : Option (Bitmap bits)} (src : Bitmap bits) (hbits : bits < 2 ^ 31)
    (hdst : dst.size = bitsToLongs bits) (hself : old = none ∨ new = none) :
    ∃ d : Bitmap bits, Prog.Returns (bitmapRemap dst (some src.block) (old.map Bitmap.block) (new.map Bitmap.block) bits)
      d.block ∧ d.positions = src.positions := by
  obtain ⟨z, hzero, hz⟩ := bitmapZero_spec hdst
  have hweight : Inline.bitmapWeight false ((new.map Bitmap.block).getD z.block) bits =
      some (((new.getD z).positions.card : ℕ) : ℤ) := by
    cases new with
    | none => exact inlineWeight_spec z hbits
    | some new => exact inlineWeight_spec new hbits
  have hempty : z.positions = ∅ := positions_eq (fun i => by simp [hz]) (by simp)
  unfold bitmapRemap
  dsimp only
  rw [hzero, Prog.lift_bind, hweight, Prog.lift_bind]
  have himage := @forEachSetBit_image bits src id
    (remapBit (old.map Bitmap.block) (new.map Bitmap.block) ((new.getD z).positions.card : ℕ) bits) z
    (fun x hx => (mem_positions.mp hx).1) ?_ hz
  · rwa [Finset.image_id] at himage
  · intro n hn d hdone x hset
    have hord : ∃ k : ℤ, Prog.Returns (bitmapPosToOrd ((old.map Bitmap.block).getD d.block) n bits) k ∧
        (k < 0 ∨ (((new.getD z).positions.card : ℕ) : ℤ) = 0) := by
      obtain rfl | rfl := hself
      · -- only positions below `n` have been set
        refine ⟨-1, bitmapPosToOrd_none fun m hm h => ?_, .inl (by decide)⟩
        obtain ⟨x, -, hx, hxm⟩ := (hdone m).mp (mem_positions.mp hm).2
        change x = m at hxm
        omega
      · have hk : ∃ k : ℤ, Prog.Returns (bitmapPosToOrd ((old.map Bitmap.block).getD d.block) n bits) k := by
          cases old with
          | none => exact (ord_cases d d n).imp fun k hk => hk.1
          | some old => exact (ord_cases old old n).imp fun k hk => hk.1
        obtain ⟨k, hk⟩ := hk
        refine ⟨k, hk, .inr ?_⟩
        rw [Option.getD_none, hempty]
        rfl
    obtain ⟨k, hk, hstay⟩ := hord
    unfold remapBit
    rw [Prog.returns_bind]
    refine ⟨k, hk, ?_⟩
    rw [if_pos hstay, Prog.returns_lift]
    exact hset

/-! ### Both functions -/

/-- What the two functions do with `src`, `old` and `new`. -/
structure Remapped (src old new : Bitmap bits) (dst : Block Word) : Prop where
  /-- `bitmap_remap` leaves what `bitmap_bitremap` returns. -/
  image : ∃ d : Bitmap bits, Prog.Returns (bitmapRemap dst (some src.block) (some old.block) (some new.block) bits) d.block ∧
    ∀ y, y ∈ d.positions ↔ ∃ x ∈ src.positions, Prog.Returns (bitmapBitremap x old.block new.block bits) y
  total : ∀ x : ℤ, ∃ y, Prog.Returns (bitmapBitremap x old.block new.block bits) y
  fixed : ∀ x : ℤ, (∀ n ∈ old.positions, x ≠ n) ∨ new.positions = ∅ →
    Prog.Returns (bitmapBitremap x old.block new.block bits) x
  /-- The n-th position goes to the one with n modulo the weight. -/
  ordered : ∀ n < old.positions.card, new.positions ≠ ∅ → Prog.Returns
    (bitmapBitremap (select old.positions n) old.block new.block bits) (select new.positions (n % new.positions.card) : ℤ)
  inverse : old.positions.card = new.positions.card → ∀ x ∈ old.positions, ∃ y,
    Prog.Returns (bitmapBitremap x old.block new.block bits) y ∧ Prog.Returns (bitmapBitremap y new.block old.block bits) x
  /-- A map that is `dst` is cleared, and `src` is copied. -/
  self : ∀ old' new' : Option (Bitmap bits), old' = none ∨ new' = none →
    ∃ d : Bitmap bits, Prog.Returns
      (bitmapRemap dst (some src.block) (old'.map Bitmap.block) (new'.map Bitmap.block) bits) d.block ∧ d.positions = src.positions

/-- **Remapping.** -/
theorem remapped (src old new : Bitmap bits) (hbits : bits < 2 ^ 31) (hdst : dst.size = bitsToLongs bits) :
    Remapped src old new dst := by
  have hspec := bitmapBitremap_spec old new hbits
  constructor
  · obtain ⟨d, hret, hd⟩ := bitmapRemap_spec src old new hbits hdst
    refine ⟨d, hret, fun y => ?_⟩
    rw [hd, Finset.mem_image]
    refine exists_congr fun x => and_congr_right fun _ => ?_
    constructor
    · rintro rfl
      exact hspec x
    · intro h
      exact Int.natCast_inj.mp ((hspec x).unique h)
  · intro x
    by_cases hx : ∃ n ∈ old.positions, x = n
    · obtain ⟨n, -, rfl⟩ := hx
      exact ⟨_, hspec n⟩
    · exact ⟨x, bitmapBitremap_other hbits fun n hn e => hx ⟨n, hn, e⟩⟩
  · intro x hx
    by_cases hold : ∃ n ∈ old.positions, x = n
    · obtain ⟨n, hn, rfl⟩ := hold
      have hnew := hx.resolve_left fun h => h n hn rfl
      have h := hspec n
      rwa [transfer_of_not (.inr hnew)] at h
    · exact bitmapBitremap_other hbits fun n hn e => hold ⟨n, hn, e⟩
  · intro n hn hnew
    have h := hspec (select old.positions n)
    rwa [transfer_select hn (Finset.nonempty_iff_ne_empty.mpr hnew)] at h
  · intro hcard x hx
    have h := bitmapBitremap_spec new old hbits (transfer old.positions new.positions x)
    rw [transfer_transfer hcard hx] at h
    exact ⟨_, hspec x, h⟩
  · intro old' new' hself
    exact bitmapRemap_self src hbits hdst hself

/-- The lower and the higher one of two bits. -/
def low2 : Bitmap 2 := ⟨⟨[some 1]⟩, by decide, by decide⟩

def high2 : Bitmap 2 := ⟨⟨[some 2]⟩, by decide, by decide⟩

theorem remapped_two : Remapped low2 low2 high2 (Block.null.realloc 1) := remapped low2 low2 high2 (by decide) (by decide)

/-- The map `new` is `dst`. -/
theorem remap_onto_new : Prog.Returns (bitmapBitremap 0 low2.block high2.block 2) 1 ∧
    Prog.Returns (bitmapRemap high2.block (some low2.block) (some low2.block) none 2) low2.block ∧
    ¬ ∃ d : Bitmap 2, Prog.Returns (bitmapRemap high2.block (some low2.block) (some low2.block) none 2) d.block ∧
      ∀ y, y ∈ d.positions ↔ ∃ x ∈ low2.positions, Prog.Returns (bitmapBitremap x low2.block high2.block 2) y := by
  have hone : Prog.Returns (bitmapBitremap 0 low2.block high2.block 2) 1 := .of_run (n := 2) (by decide +kernel)
  have hremap : Prog.Returns (bitmapRemap high2.block (some low2.block) (some low2.block) none 2) low2.block :=
    .of_run (n := 3) (by decide +kernel)
  refine ⟨hone, hremap, ?_⟩
  rintro ⟨d, hret, himage⟩
  have hmem : 1 ∈ d.positions := (himage 1).mpr ⟨0, by decide, hone⟩
  have hbit := (mem_positions.mp hmem).2
  unfold Bitmap.bit Bitmap.word at hbit
  rw [hret.unique hremap] at hbit
  revert hbit
  decide

end Libls.Bitmaps
