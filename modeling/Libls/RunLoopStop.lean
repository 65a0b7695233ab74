import Mathlib.Tactic
import Libls.RunLoopIlc

/-! # Stopping a loop

`Stopping` are the places at which the loop can have been stopped, up to the next test of
`loop->stopped`, and `Ending` those from `out` on.  A stopped loop is at one of them (`Stopped`), and
from there every step of `run_loop` brings it nearer to its end (`fuel`). -/

namespace Libls.Loop

variable {ι : Type}

/-! ### Where a stopped loop is -/

/-- The places at which `stop_loop` can have been called, up to the test of `loop->stopped`. -/
def Pc.Stopping : Pc ι → Prop
  | idle | test | timerCallback _ _ | ioCallback _ _ _ => True
  | ilcFire (.entry _ _) _ _ _ | ilcCallback (.entry _ _) _ _ _ | ilcGrow (.entry _ _) _ => True
  | _ => False

/-- The places from `out` on. -/
def Pc.Ending : Pc ι → Prop
  | out | ilcRead .run | ilcFire .run _ _ _ | ilcCallback .run _ _ _ | ilcGrow .run _ | finished => True
  | _ => False

/-- The places that are in no callback of a timer or an event. -/
def Pc.Plain : Pc ι → Prop
  | timerCallback _ _ | ioCallback _ _ _ => False
  | _ => True

/-- The loop is stopped and on its way to the end. -/
def Machine.Stopped (m : Machine ι) : Prop :=
  m.loop.stopped = true ∧ (m.pc.Stopping ∨ m.pc.Ending)

/-- The steps of the program; all others are steps of `run_loop`. -/
def LoopAction.Api : LoopAction ι → Prop
  | timer _ | io _ _ | stopLoop | addIlc _ _ => True
  | _ => False

instance (a : LoopAction ι) : Decidable a.Api :=
  match a with
  | .timer _ | .io _ _ | .stopLoop | .addIlc _ _ => .isTrue trivial
  | .runLoop | .step | .gettimeofday _ | .realloc _ | .epollWait _ | .ret => .isFalse id

namespace Machine

variable {m : Machine ι}

theorem afterTimers_stopped (h : m.loop.stopped = true) {second : Bool} {ms : ℤ} :
    m.afterTimers second ms = .out := if_pos h

theorem afterIo_stopped (h : m.loop.stopped = true) {i : ℕ} {event : IoEvent} :
    m.afterIo i event = .out := if_pos h

/-- How many steps of `run_loop` are left, at most. -/
def fuel (m : Machine ι) : ℕ :=
  let atOut := 2 * (m.loop.ilcSize / ptrSize) + 4
  let atGrow := 2 * (m.loop.ilcSize * 2 / ptrSize) + 5
  match m.pc with
  | .idle => atOut + 2
  | .test | .timerCallback _ _ | .ioCallback _ _ _ => atOut + 1
  | .ilcFire (.entry _ _) i n _ => atGrow + 2 * (n - i) + 2
  | .ilcCallback (.entry _ _) i n _ => atGrow + 2 * (n - (i + 1)) + 3
  | .ilcGrow (.entry _ _) _ => atGrow
  | .out => atOut
  | .ilcRead _ => atOut - 1
  | .ilcFire .run i n _ => 2 * (n - i) + 2
  | .ilcCallback .run i n _ => 2 * (n - (i + 1)) + 3
  | .ilcGrow .run _ => 1
  | _ => 0

end Machine

/-- What may not happen in a step of a stopped loop: no `epoll_wait`, no timer callback, and no io
callback but the final one. -/
structure Honours (m : Machine ι) (a : LoopAction ι) (m' : Machine ι) : Prop where
  epollWait : ∀ events, a ≠ .epollWait events
  timer : ∀ second timer, m'.pc = .timerCallback second timer → m.pc = m'.pc
  io : ∀ i event io, m'.pc = .ioCallback i event io → m.pc = m'.pc
  ilc : ∀ r, m'.pc = .ilcRead r → r = .run

/-- What a step does to a stopped loop. -/
structure StopStep (m : Machine ι) (a : LoopAction ι) (m' : Machine ι) : Prop where
  stopped : m'.Stopped
  out : m.pc.Stopping → m'.pc.Stopping ∨ m'.pc = .out
  honours : Honours m a m'
  api : a.Api → m'.fuel = m.fuel
  loop : ¬ a.Api → m'.fuel < m.fuel

/-- A step of the program leaves the place and the buffer as they are. -/
theorem StopStep.of_api {m m' : Machine ι} {a : LoopAction ι} (h : m.Stopped) (ha : a.Api)
    (hpc : m'.pc = m.pc) (hstop : m'.loop.stopped = true) (hsize : m'.loop.ilcSize = m.loop.ilcSize) :
    StopStep m a m' := by
  refine ⟨⟨hstop, hpc ▸ h.2⟩, fun hs => .inl (hpc ▸ hs), ⟨?_, fun _ _ _ => hpc.symm,
    fun _ _ _ _ => hpc.symm, fun r hr => ?_⟩, fun _ => ?_, fun hn => absurd ha hn⟩
  · rintro events rfl
    exact ha
  · rw [hpc] at hr
    have := h.2
    cases r with
    | entry => simp [hr, Pc.Stopping, Pc.Ending] at this
    | run => rfl
  · rw [Machine.fuel, Machine.fuel, hpc, hsize]

/-- A step of `run_loop` to a place that is not a callback. -/
theorem StopStep.of_loop {m m' : Machine ι} {a : LoopAction ι} (h : m'.Stopped)
    (ha : ¬ a.Api) (hwait : ∀ events, a ≠ .epollWait events)
    (hout : m.pc.Stopping → m'.pc.Stopping ∨ m'.pc = .out) (hplain : m'.pc.Plain) (hfuel : m'.fuel < m.fuel) :
    StopStep m a m' := by
  refine ⟨h, hout, ⟨hwait, fun second timer e => ?_, fun i event io e => ?_, fun r hr => ?_⟩,
    fun hn => absurd hn ha, fun _ => hfuel⟩
  · rw [e] at hplain
    exact hplain.elim
  · rw [e] at hplain
    exact hplain.elim
  · have hpc := h.2
    cases r with
    | entry => simp [hr, Pc.Stopping, Pc.Ending] at hpc
    | run => rfl

theorem u64_le (n : ℕ) : u64 n ≤ n := Nat.mod_le _ _

/-- A stopped loop stays on its way to the end. -/
theorem LoopStep.stopStep [DecidableEq ι] {m m' : Machine ι} {a : LoopAction ι}
    (hs : LoopStep m a m') (h : m.Stopped) : StopStep m a m' := by
  obtain ⟨hstop, hpc⟩ := id h
  have hne : ∀ {pc : Pc ι}, m.pc = pc → pc.Stopping ∨ pc.Ending := fun e => e ▸ hpc
  cases hs with
  | timer => exact .of_api h trivial rfl hstop rfl
  | io => exact .of_api h trivial rfl hstop rfl
  | stopLoop => exact .of_api h trivial rfl rfl rfl
  | @addIlc ilc _ ok =>
      cases ok with
      | true => exact .of_api h trivial rfl hstop rfl
      | false => exact .of_api h trivial rfl hstop rfl
  | runLoop hm =>
      exact .of_loop ⟨hstop, .inl trivial⟩ id (by simp) (fun _ => .inl trivial) trivial
        (by simp [Machine.fuel, hm])
  | test hm =>
      rw [if_pos hstop]
      exact .of_loop ⟨hstop, .inr trivial⟩ id (by simp) (fun _ => .inr rfl) trivial
        (by simp [Machine.fuel, Machine.goto, hm])
  | timerRet hm =>
      rw [if_pos hstop, Machine.afterTimers_stopped hstop]
      exact .of_loop ⟨hstop, .inr trivial⟩ id (by simp) (fun _ => .inr rfl) trivial
        (by simp [Machine.fuel, Machine.goto, hm])
  | ioRet hm =>
      rw [Machine.afterIo_stopped hstop]
      exact .of_loop ⟨hstop, .inr trivial⟩ id (by simp) (fun _ => .inr rfl) trivial
        (by simp [Machine.fuel, Machine.goto, hm])
  | out hm =>
      exact .of_loop ⟨hstop, .inr trivial⟩ id (by simp) (by simp [hm, Pc.Stopping]) trivial
        (by simp [Machine.fuel, Machine.goto, hm])
  | @ilcRead r hm hlen =>
      obtain rfl : r = .run := by
        cases r with
        | entry => simpa [Pc.Stopping, Pc.Ending] using hne hm
        | run => rfl
      have hnot : m.pc.Stopping → False := by simp [hm, Pc.Stopping]
      unfold Machine.readIlc
      split
      · exact .of_loop ⟨hstop, .inr trivial⟩ id (by simp) (fun hs => (hnot hs).elim) trivial
          (by simp [Machine.fuel, Machine.goto, Machine.ilcReturn, hm])
      · refine .of_loop ⟨hstop, .inr trivial⟩ id (by simp) (fun hs => (hnot hs).elim) trivial ?_
        have hle : m.readLen / ptrSize ≤ m.loop.ilcSize / ptrSize :=
          Nat.div_le_div_right (Nat.min_le_right ..)
        simp only [Machine.fuel, hm]
        omega
  | @ilcFire r i n len ilc hm hi hilc =>
      cases r with
      | entry =>
          exact .of_loop ⟨hstop, .inl trivial⟩ id (by simp) (fun _ => .inl trivial) trivial
            (by simp only [Machine.fuel, hm]; omega)
      | run =>
          exact .of_loop ⟨hstop, .inr trivial⟩ id (by simp) (by simp [hm, Pc.Stopping]) trivial
            (by simp only [Machine.fuel, hm]; omega)
  | @ilcRet r i n len hm =>
      cases r with
      | entry =>
          exact .of_loop ⟨hstop, .inl trivial⟩ id (by simp) (fun _ => .inl trivial) trivial
            (by simp [Machine.fuel, Machine.goto, hm])
      | run =>
          exact .of_loop ⟨hstop, .inr trivial⟩ id (by simp) (by simp [hm, Pc.Stopping]) trivial
            (by simp [Machine.fuel, Machine.goto, hm])
  | @ilcFired r i n len hm hi =>
      cases r with
      | entry =>
          exact .of_loop ⟨hstop, .inl trivial⟩ id (by simp) (fun _ => .inl trivial) trivial
            (by simp only [Machine.fuel, Machine.goto, hm]; omega)
      | run =>
          exact .of_loop ⟨hstop, .inr trivial⟩ id (by simp) (by simp [hm, Pc.Stopping]) trivial
            (by simp [Machine.fuel, Machine.goto, hm])
  | @ilcGrow r len hm hfull ok =>
      cases r with
      | entry i event =>
          have hout : m.ilcReturn (.entry i event) = .out := Machine.afterIo_stopped hstop
          rw [hout]
          refine .of_loop ⟨hstop, .inr trivial⟩ id (by simp) (fun _ => .inr rfl) trivial ?_
          have hle := u64_le (m.loop.ilcSize * 2)
          simp only [Machine.fuel, hm, ptrSize]
          split <;> omega
      | run =>
          exact .of_loop ⟨hstop, .inr trivial⟩ id (by simp) (by simp [hm, Pc.Stopping]) trivial
            (by simp [Machine.fuel, Machine.ilcReturn, hm])
  | @ilcKeep r len hm hfull =>
      cases r with
      | entry i event =>
          have hout : m.ilcReturn (.entry i event) = .out := Machine.afterIo_stopped hstop
          rw [hout]
          refine .of_loop ⟨hstop, .inr trivial⟩ id (by simp) (fun _ => .inr rfl) trivial ?_
          simp only [Machine.fuel, Machine.goto, hm, ptrSize]
          omega
      | run =>
          exact .of_loop ⟨hstop, .inr trivial⟩ id (by simp) (by simp [hm, Pc.Stopping]) trivial
            (by simp [Machine.fuel, Machine.goto, Machine.ilcReturn, hm])
  | clock hm | fire hm | timersReturn hm | dispatch hm | noEvent hm | noIo hm | callIo hm | eevGrow hm
  | eevKeep hm | epollWait hm | epollFail hm => simpa [Pc.Stopping, Pc.Ending] using hne hm

/-- A step of `run_loop` is always possible, up to its end; a callback is taken to return. -/
theorem Machine.Stopped.progress [DecidableEq ι] {m : Machine ι} (h : m.Stopped)
    (hread : m.BatchRead) (haligned : m.Aligned)
    (hpc : m.pc ≠ .finished) : ∃ a m', LoopStep m a m' ∧ ¬ a.Api := by
  obtain ⟨-, hs⟩ := h
  cases hm : m.pc with
  | idle => exact ⟨_, _, .runLoop hm, id⟩
  | test => exact ⟨_, _, .test hm, id⟩
  | timerCallback => exact ⟨_, _, .timerRet hm, id⟩
  | ioCallback => exact ⟨_, _, .ioRet hm, id⟩
  | out => exact ⟨_, _, .out hm, id⟩
  | ilcRead => exact ⟨_, _, .ilcRead hm haligned.readLen, id⟩
  | ilcCallback => exact ⟨_, _, .ilcRet hm, id⟩
  | ilcFire r i n len =>
      by_cases hi : i < n
      · obtain ⟨ilc, hilc⟩ : ∃ ilc, m.loop.ilc[i]? = some ilc :=
          ⟨_, List.getElem?_eq_getElem (lt_of_lt_of_le hi (hread i n (by rw [hm]; rfl)))⟩
        exact ⟨_, _, .ilcFire hm hi hilc, id⟩
      · exact ⟨_, _, .ilcFired hm hi, id⟩
  | ilcGrow r len =>
      by_cases hfull : len = m.loop.ilcSize
      · exact ⟨_, _, .ilcGrow hm hfull false, id⟩
      · exact ⟨_, _, .ilcKeep hm hfull, id⟩
  | finished => exact absurd hm hpc
  | clock | timers | dispatch | event | eevGrow | epollWait =>
      simp [hm, Pc.Stopping, Pc.Ending] at hs

/-! ### Runs of a stopped loop -/

/-- A place in a callback is one at which a stopped loop can be. -/
theorem Pc.InCallback.stopping {pc : Pc ι} (h : pc.InCallback) : pc.Stopping ∨ pc.Ending := by
  cases pc with
  | idle | timerCallback | ioCallback => exact .inl trivial
  | ilcCallback r i n len =>
      cases r with
      | entry => exact .inl trivial
      | run => exact .inr trivial
  | finished => exact .inr trivial
  | _ => exact h.elim

theorem LoopStep.stopLoop_stopped [DecidableEq ι] {m m' : Machine ι} (hs : LoopStep m .stopLoop m') :
    m'.Stopped := by
  cases hs with
  | stopLoop h => exact ⟨rfl, h.stopping⟩

/-- A stopped loop stays stopped, and each step of `run_loop` costs it one of `fuel`. -/
theorem Machine.Stopped.run [DecidableEq ι] {m m' : Machine ι} {as : List (LoopAction ι)}
    (h : m.Stopped) (hrun : Run LoopStep m as m') :
    m'.Stopped ∧ as.countP (¬ ·.Api) + m'.fuel ≤ m.fuel := by
  induction hrun with
  | nil m => exact ⟨h, by simp⟩
  | @cons m₁ m₂ m₃ a as hs _ ih =>
      have hstep := hs.stopStep h
      obtain ⟨hstopped, hcount⟩ := ih hstep.stopped
      refine ⟨hstopped, ?_⟩
      by_cases ha : a.Api
      · rw [List.countP_cons_of_neg (by simpa using ha), ← hstep.api ha]
        exact hcount
      · have := hstep.loop ha
        rw [List.countP_cons_of_pos (by simpa using ha)]
        omega

/-- A stopped loop can be run to its end, if its callbacks return. -/
theorem Machine.Stopped.finishes [DecidableEq ι] {m : Machine ι} (h : m.Stopped) (hread : m.BatchRead)
    (haligned : m.Aligned) :
    ∃ as m', Run LoopStep m as m' ∧ (∀ a ∈ as, ¬ a.Api) ∧ m'.pc = .finished := by
  induction hn : m.fuel using Nat.strong_induction_on generalizing m with
  | _ n ih =>
      subst hn
      by_cases hpc : m.pc = .finished
      · exact ⟨[], m, .nil m, by simp, hpc⟩
      · obtain ⟨a, m₁, hs, ha⟩ := h.progress hread haligned hpc
        have hstep := hs.stopStep h
        obtain ⟨as, m', hrun, has, hfin⟩ :=
          ih _ (hstep.loop ha) hstep.stopped (hs.batchRead hread) (hs.aligned haligned) rfl
        exact ⟨a :: as, m', .cons hs hrun, List.forall_mem_cons.mpr ⟨ha, has⟩, hfin⟩

/-- **Stop is honoured immediately.**  After a callback has stopped the loop, whatever the callbacks
do, no step of it is an `epoll_wait`, enters a timer callback, or enters an io callback other than
the one of `ilc_io` at the end.  And `run_loop` returns: it makes at most `fuel` steps more, and there
is a next one until its end. -/
theorem run_loop_stops [DecidableEq ι] {m₀ m₁ m₂ m : Machine ι} {as bs : List (LoopAction ι)}
    (hstart : LoopStart m₀) (hrun : Run LoopStep m₀ as m₁) (hstop : LoopStep m₁ .stopLoop m₂)
    (hrun' : Run LoopStep m₂ bs m) :
    (∀ a m', LoopStep m a m' → Honours m a m') ∧
      bs.countP (¬ ·.Api) ≤ m₂.fuel ∧
      (m.pc ≠ .finished → ∃ a m', LoopStep m a m' ∧ ¬ a.Api) := by
  obtain ⟨hstopped, hcount⟩ := hstop.stopLoop_stopped.run hrun'
  have hfresh := hstart.fresh
  have hall : Run LoopStep m₀ (as ++ [.stopLoop] ++ bs) m := (hrun.snoc hstop).append hrun'
  exact ⟨fun a m' hs => (hs.stopStep hstopped).honours, by omega,
    hstopped.progress (run_batchRead hall hfresh.batchRead) (run_aligned hall hfresh.aligned)⟩

/-- `newLoop` stopped in the callback of a message. -/
def stoppedMachine : Machine ℕ :=
  { calledMachine with loop := { calledMachine.loop with stopped := true } }

/-- The loop of `stoppedMachine` at `out`, with a message that was posted before the callback returned. -/
def leftMachine : Machine ℕ :=
  ⟨{ stoppedMachine.loop with pipe := [⟨2, true⟩] }, .out, 1, [⟨1, true⟩]⟩

theorem stoppedMachine_left : Run LoopStep stoppedMachine [.addIlc ⟨2, true⟩ true, .ret, .step, .step] leftMachine := by
  let loop : RunLoop ℕ := { stoppedMachine.loop with pipe := [⟨2, true⟩] }
  have hpost : LoopStep stoppedMachine (.addIlc ⟨2, true⟩ true)
      ⟨loop, .ilcCallback (.entry 0 .ioRead) 0 1 8, 1, [⟨1, true⟩]⟩ := .addIlc rfl fun _ => by decide
  have hret : LoopStep ⟨loop, .ilcCallback (.entry 0 .ioRead) 0 1 8, 1, [⟨1, true⟩]⟩ .ret
      ⟨loop, .ilcFire (.entry 0 .ioRead) 1 1 8, 1, [⟨1, true⟩]⟩ := .ilcRet rfl
  have hfired : LoopStep ⟨loop, .ilcFire (.entry 0 .ioRead) 1 1 8, 1, [⟨1, true⟩]⟩ .step
      ⟨loop, .ilcGrow (.entry 0 .ioRead) 8, 1, [⟨1, true⟩]⟩ := .ilcFired rfl (by decide)
  have hkeep : LoopStep ⟨loop, .ilcGrow (.entry 0 .ioRead) 8, 1, [⟨1, true⟩]⟩ .step leftMachine :=
    @LoopStep.ilcKeep ℕ _ _ (.entry 0 .ioRead) 8 rfl (by decide)
  exact .cons hpost (.cons hret (.cons hfired (.single hkeep)))

theorem run_loop_stops_left :
    (∀ a m', LoopStep leftMachine a m' → Honours leftMachine a m') ∧
      [.addIlc ⟨2, true⟩ true, .ret, .step, (.step : LoopAction ℕ)].countP (¬ ·.Api) ≤ stoppedMachine.fuel ∧
      (leftMachine.pc ≠ .finished → ∃ a m', LoopStep leftMachine a m' ∧ ¬ a.Api) := by
  obtain ⟨as, hcalled⟩ := newMachine_called
  have hstop : LoopStep calledMachine .stopLoop stoppedMachine := .stopLoop trivial
  exact run_loop_stops newMachine_start hcalled hstop stoppedMachine_left

end Libls.Loop
