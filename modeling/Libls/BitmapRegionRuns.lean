import Libls.Library.Holdings
import Libls.Library.Runs
import Libls.BitmapRegions

/-! # Regions over a run

A client takes regions of a bitmap with `bitmap_find_free_region` and `bitmap_allocate_region`, and gives back the
regions that it holds with `bitmap_release_region`.  In every run the regions that are held are disjoint, and the bitmap
is the one of the start with these regions set; so no bit is given out twice, and none is lost. -/

namespace Libls.Bitmaps
open Holdings

/-- The bitmap and the regions that are held, each with its order and its position. -/
structure Client where
  bitmap : Block Word
  held : List (ℕ × ℕ)

/-- The calls of a client. -/
inductive RegionCall where
  | findFree (order : ℕ)
  | allocate (pos order : ℕ)
  | release (pos order : ℕ)

namespace RegionCall

/-- What a call does, and what the client makes of the result. -/
def exec (bits : ℕ) (s : Client) : RegionCall → Prog Client
  | .findFree order => do
      let (bitmap, ret) ← bitmapFindFreeRegion s.bitmap bits order
      return ⟨bitmap, if 0 ≤ ret then (order, ret.toNat) :: s.held else s.held⟩
  | .allocate pos order => do
      let (bitmap, ret) ← bitmapAllocateRegion s.bitmap pos order
      return ⟨bitmap, if ret = 0 then (order, pos) :: s.held else s.held⟩
  | .release pos order => do
      let bitmap ← bitmapReleaseRegion s.bitmap pos order
      return ⟨bitmap, s.held.erase (order, pos)⟩

/-- The regions are those of a bitmap of `bits` bits, and what is released is held. -/
def Legal (bits : ℕ) (s : Client) : RegionCall → Prop
  | .findFree order => bits + 2 ^ order ≤ 2 ^ 31 - 1
  | .allocate pos order => bits + 2 ^ order ≤ 2 ^ 31 - 1 ∧ 2 ^ order ∣ pos ∧ pos + 2 ^ order ≤ bits
  | .release pos order => (order, pos) ∈ s.held

/-- A call that is legal, with its outcome. -/
def Step (bits : ℕ) (s : Client) (c : RegionCall) (s' : Client) : Prop :=
  c.Legal bits s ∧ Prog.Returns (c.exec bits s) s'

end RegionCall

variable {bits order pos : ℕ} {a d : Bitmap bits} {s s' : Client} {c : RegionCall} {cs : List RegionCall}

/-- The client holds disjoint regions, and these are what has been set since `a`. -/
structure Owned (a d : Bitmap bits) (s : Client) : Prop where
  block : s.bitmap = d.block
  holding : Holding a.bit d.bit (s.held.map fun r => region r.1 r.2)
  aligned : ∀ r ∈ s.held, r.1 < 31 ∧ 2 ^ r.1 ∣ r.2 ∧ r.2 + 2 ^ r.1 ≤ bits

theorem Owned.take (h : Owned a d s) (horder : order < 31) (haligned : 2 ^ order ∣ pos) (hroom : pos + 2 ^ order ≤ bits)
    (hfree : Free d order pos) {d' : Bitmap bits} (hbit : ∀ i, d'.bit i = (d.bit i || decide (i ∈ region order pos))) :
    Owned a d' ⟨d'.block, (order, pos) :: s.held⟩ := by
  refine ⟨rfl, h.holding.take hfree hbit, ?_⟩
  intro r hr
  rcases List.mem_cons.mp hr with rfl | hr
  · exact ⟨horder, haligned, hroom⟩
  · exact h.aligned r hr

theorem Owned.give (h : Owned a d s) (hmem : (order, pos) ∈ s.held) {d' : Bitmap bits}
    (hbit : ∀ i, d'.bit i = (d.bit i && !decide (i ∈ region order pos))) :
    Owned a d' ⟨d'.block, s.held.erase (order, pos)⟩ := by
  have hperm := (List.perm_cons_erase hmem).map fun r => region r.1 r.2
  exact ⟨rfl, (h.holding.perm hperm).give hbit, fun r hr => h.aligned r (List.mem_of_mem_erase hr)⟩

/-- Every legal call has an outcome. -/
theorem Owned.exec (h : Owned a d s) (hlegal : c.Legal bits s) :
    ∃ (s' : Client) (d' : Bitmap bits), Prog.Returns (c.exec bits s) s' ∧ Owned a d' s' := by
  obtain ⟨bitmap, held⟩ := s
  obtain rfl : bitmap = d.block := h.block
  cases c with
  | findFree order =>
      obtain ⟨pos, d', hret, -, hleast, hbit⟩ | ⟨-, hret⟩ := bitmapFindFreeRegion_spec d hlegal
      · refine ⟨_, d', ?_, h.take (order_lt hlegal) hleast.1.aligned hleast.1.room hleast.1.free hbit⟩
        refine Prog.returns_bind.mpr ⟨_, hret, ?_⟩
        dsimp only
        rw [if_pos (Int.natCast_nonneg pos), Int.toNat_natCast, Prog.returns_pure]
      · refine ⟨_, d, Prog.returns_bind.mpr ⟨_, hret, ?_⟩, h⟩
        dsimp only
        rw [if_neg (by decide), Prog.returns_pure]
  | allocate pos order =>
      obtain ⟨hint, haligned, hroom⟩ := hlegal
      have horder := order_lt hint
      by_cases hfree : Free d order pos
      · obtain ⟨d', hd', hbit⟩ := bitmapAllocateRegion_of_free horder haligned (hroom.trans le_longs) hfree
        refine ⟨_, d', ?_, h.take horder haligned hroom hfree hbit⟩
        unfold RegionCall.exec
        dsimp only
        rw [hd', Prog.lift_bind]
        exact Prog.returns_pure.mpr rfl
      · refine ⟨_, d, ?_, h⟩
        unfold RegionCall.exec
        dsimp only
        rw [bitmapAllocateRegion_of_not_free horder haligned (hroom.trans le_longs) hfree, Prog.lift_bind]
        exact Prog.returns_pure.mpr rfl
  | release pos order =>
      obtain ⟨horder, haligned, hroom⟩ := h.aligned _ hlegal
      obtain ⟨d', hd', hbit⟩ := bitmapReleaseRegion_spec d horder haligned (hroom.trans le_longs)
      refine ⟨_, d', ?_, h.give hlegal hbit⟩
      unfold RegionCall.exec
      dsimp only
      rw [hd', Prog.lift_bind]
      exact Prog.returns_pure.mpr rfl

theorem Owned.step (h : Owned a d s) (hs : c.Step bits s s') : ∃ d' : Bitmap bits, Owned a d' s' := by
  obtain ⟨s'', d', hret, hd'⟩ := h.exec hs.1
  cases hret.unique hs.2
  exact ⟨d', hd'⟩

/-- **Runs.**  The regions that are held are disjoint, and they are what is set. -/
theorem region_run_owned (h : Run (RegionCall.Step bits) ⟨a.block, []⟩ cs s) : ∃ d : Bitmap bits, Owned a d s := by
  refine Run.invariant (P := fun _ => True) (I := fun s => ∃ d : Bitmap bits, Owned a d s) ?_ h (fun _ _ => trivial)
    ⟨a, rfl, Holding.start a.bit, by simp⟩
  rintro s c s' hs - ⟨d, hd⟩
  exact hd.step hs

/-- If everything is given back, the bitmap is as it was. -/
theorem region_run_restores {bitmap : Block Word} (h : Run (RegionCall.Step bits) ⟨a.block, []⟩ cs ⟨bitmap, []⟩) :
    bitmap = a.block := by
  obtain ⟨d, hd⟩ := region_run_owned h
  have hword : d.word = a.word := by
    apply WordBits.ext_bits
    intro i
    exact congrFun hd.holding.now_eq i
  have hblock : bitmap = d.block := hd.block
  rw [hblock]
  apply Block.eq_of_read (d.size.trans a.size.symm)
  intro k hk
  rw [d.size] at hk
  rw [d.read hk, a.read hk, hword]

/-- **Clients are served.**  After every run the regions that are held are disjoint and are what has been set since
the start, so that a bitmap is as it was when they have all been given back; and every legal call has an outcome. -/
theorem region_runs (h : Run (RegionCall.Step bits) ⟨a.block, []⟩ cs s) : (∃ d : Bitmap bits, Owned a d s) ∧
    (s.held = [] → s.bitmap = a.block) ∧ ∀ c : RegionCall, c.Legal bits s → ∃ s', c.Step bits s s' := by
  obtain ⟨d, hd⟩ := region_run_owned h
  refine ⟨⟨d, hd⟩, ?_, ?_⟩
  · intro hheld
    obtain ⟨bitmap, held⟩ := s
    obtain rfl : held = [] := hheld
    exact region_run_restores h
  · intro c hlegal
    obtain ⟨s', -, hret, -⟩ := hd.exec hlegal
    exact ⟨s', hlegal, hret⟩

instance RegionCall.decidableLegal (bits : ℕ) (s : Client) : (c : RegionCall) → Decidable (c.Legal bits s)
  | .findFree order => inferInstanceAs (Decidable (bits + 2 ^ order ≤ 2 ^ 31 - 1))
  | .allocate pos order =>
      inferInstanceAs (Decidable (bits + 2 ^ order ≤ 2 ^ 31 - 1 ∧ 2 ^ order ∣ pos ∧ pos + 2 ^ order ≤ bits))
  | .release pos order => inferInstanceAs (Decidable ((order, pos) ∈ s.held))

/-- A legal call with the fuel `n`. -/
def RegionCall.attempt (bits n : ℕ) (s : Client) (c : RegionCall) : Option Client :=
  Prog.attempt (c.Legal bits s) (c.exec bits s) n

theorem RegionCall.step_of_attempt {n : ℕ} (hs : c.attempt bits n s = some s') : c.Step bits s s' :=
  Prog.attempt_eq_some hs

/-- Two regions are taken, a third one is refused since it lies in the second one, which is given back. -/
theorem region_runs_calls : ∃ s, Run (RegionCall.Step 130) ⟨taken130.block, []⟩
      [.findFree 3, .allocate 64 6, .allocate 96 5, .release 64 6] s ∧ s.held = [(3, 8)] ∧
    (∃ d : Bitmap 130, Owned taken130 d s) ∧ (s.held = [] → s.bitmap = taken130.block) ∧
    ∀ c : RegionCall, c.Legal 130 s → ∃ s', c.Step 130 s s' := by
  have hrun : (([.findFree 3, .allocate 64 6, .allocate 96 5, .release 64 6].foldlM (RegionCall.attempt 130 20)
      ⟨taken130.block, []⟩).map Client.held) = some [(3, 8)] := by
    decide +kernel
  obtain ⟨s, hheld, h⟩ := Run.of_exec (fun _ _ _ => RegionCall.step_of_attempt) _ hrun
  exact ⟨s, h, hheld, region_runs h⟩

end Libls.Bitmaps
