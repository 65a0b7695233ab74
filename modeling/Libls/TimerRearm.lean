import Mathlib.Tactic
import Libls.TimerPass

/-! # Timers that re-arm themselves

A call of `__run_timers` whose callbacks do nothing but re-arm their own timer.  `gettimeofday` is called
once, at the beginning, and a timer is due when it does not expire later: one that is re-armed by 0 ms is
due again at once.  `pass_ends_iff` says when the call comes to its end. -/

namespace Libls.Loop

open LinkedTree Rb

variable {ι : Type}

/-- What a callback does: it re-arms its timer by `ms` milliseconds, with `update_timeout` or
`add_timeout`. -/
structure Rearm where
  update : Bool
  ms : Msec

def Rearm.call (r : Rearm) (timer : ι) : TimerCall ι :=
  if r.update then .updateTimeout timer r.ms else .addTimeout timer r.ms

/-- A timer that is re-armed by 0 ms is due. -/
theorem timeoutAt_le_iff {loop : TimerLoop ι} {ms : Msec} (h : loop.realtime.usec < 1000000) :
    timeoutAt loop ms ≤ loop.realtime ↔ ms = 0 := by
  constructor
  · intro hle
    by_contra hms
    exact absurd (lt_timeoutAt loop hms) (not_lt.mpr hle)
  · rintro rfl
    apply le_of_eq
    have hless : ¬ loop.realtime.usec ≥ 1000000 := not_le.mpr h
    simp [timeoutAt, timeradd, hless]

section
variable [DecidableEq ι]

/-- How often `timer` has been called back. -/
def TimerPass.calls (s : TimerPass ι) (timer : ι) : ℕ := s.book.fired.countP (·.timer = timer)

/-- A pass of the loop that calls `timer` back; `rearms timer n` is what its callback does after `n`
earlier ones in the same call of `__run_timers`. -/
inductive CallbackPass (rearms : ι → ℕ → Rearm) : TimerPass ι → ι → TimerPass ι → Prop
  | mk {s s₁ s₂ s' : TimerPass ι} {timer : ι} (hfire : PassStep s .fire s₁) (htimer : s₁.running = some timer)
      (hcall : PassStep s₁ (.call ((rearms timer (s.calls timer)).call timer)) s₂)
      (hret : PassStep s₂ .ret s') : CallbackPass rearms s timer s'

/-- The call of `__run_timers` returns after finitely many callbacks. -/
def TimerPass.Ends (rearms : ι → ℕ → Rearm) (s : TimerPass ι) : Prop :=
  ∃ timers s' ms, Run (CallbackPass rearms) s timers s' ∧ s'.Returns ms

/-! ### A pass -/

variable {rearms : ι → ℕ → Rearm} {r : Rearm} {s s' : TimerPass ι} {loop loop' : TimerLoop ι} {timer : ι}
  {inited added : List ι} {entry : Multiset (Arming ι)} {now : Timeval}

theorem Rearm.run_fields (h : Prog.Returns ((r.call timer).run loop) loop') :
    loop'.realtime = loop.realtime ∧ loop'.expires = Function.update loop.expires timer (timeoutAt loop r.ms) ∧
      loop'.callback = loop.callback := by
  unfold Rearm.call at h
  split at h
  · obtain ⟨loop₁, hdel, hadd⟩ := Prog.returns_bind.mp h
    obtain ⟨hreal, hexp, hcb⟩ := TimerCall.delTimer_fields hdel
    obtain ⟨hreal', hexp', hcb'⟩ := TimerCall.addTimeout_fields hadd
    refine ⟨hreal'.trans hreal, ?_, hcb'.trans hcb⟩
    rw [hexp', hexp, timeoutAt, timeoutAt, hreal]
  · exact TimerCall.addTimeout_fields h

theorem Rearm.addedAfter_eq (h : added.Nodup) :
    (r.call timer).addedAfter (added.erase timer) = added.erase timer ++ [timer] := by
  unfold Rearm.call
  split
  · show (added.erase timer).erase timer ++ [timer] = added.erase timer ++ [timer]
    rw [List.erase_of_not_mem h.not_mem_erase]
  · rfl

omit [DecidableEq ι] in
/-- A timer that has a callback and is not pending can be re-armed. -/
theorem Rearm.call_ready (r : Rearm) (hin : timer ∈ inited) (hout : timer ∉ added)
    (hcb : loop.callback timer = true) : (r.call timer).Api ∧ (r.call timer).Allowed inited added ∧
      (r.call timer).Asserts loop added := by
  unfold Rearm.call
  split
  · exact ⟨trivial, hin, hcb⟩
  · exact ⟨trivial, hin, hout, hcb⟩

namespace TimerPass

theorem calls_call (s : TimerPass ι) (c : TimerCall ι) (loop : TimerLoop ι) (a : ι) :
    (s.call c loop).calls a = s.calls a := by
  cases c <;> rfl

theorem calls_fire (s : TimerPass ι) (timer : ι) (loop : TimerLoop ι) (a : ι) :
    (s.fire timer loop).calls a = s.calls a + if a = timer then 1 else 0 := by
  show (s.book.fired ++ [(⟨timer, s.added, loop⟩ : Firing ι)]).countP _ = _
  rw [List.countP_append, calls]
  simp [List.countP_singleton, eq_comm]

end TimerPass

/-- What a pass leaves. -/
structure Rearmed (r : Rearm) (timer : ι) (s s' : TimerPass ι) : Prop where
  next : s.loop.next = some timer
  due : s.loop.expires timer ≤ s.loop.realtime
  running : s'.running = none
  stopped : s'.stopped = s.stopped
  callback : s'.loop.callback = s.loop.callback
  expires : s'.loop.expires = Function.update s.loop.expires timer (timeoutAt s.loop r.ms)
  added : s'.added = s.added.erase timer ++ [timer]
  calls : ∀ a, s'.calls a = s.calls a + if a = timer then 1 else 0

theorem CallbackPass.rearmed (h : CallbackPass rearms s timer s') (hk : s.Kept entry now) :
    Rearmed (rearms timer (s.calls timer)) timer s s' := by
  obtain ⟨L, -, hq⟩ := hk.queue
  cases h with
  | mk hfire htimer hcall hret =>
      cases hfire with
      | @fire first loop₁ _ hpass =>
          obtain rfl : first = timer := Option.some.inj htimer
          obtain ⟨hnext, hdue, hdel⟩ := runTimersPass_next.mp hpass
          obtain ⟨hreal, hexp, hcb⟩ := TimerCall.delTimer_fields hdel
          cases hcall with
          | @call _ _ _ _ _ loop₂ hrun =>
              obtain ⟨-, hexp', hcb'⟩ := Rearm.run_fields hrun
              cases hret with
              | ret =>
                  refine ⟨hnext, not_lt.mp hdue, rfl, rfl, hcb'.trans hcb, ?_, ?_, ?_⟩
                  · show loop₂.expires = _
                    rw [hexp']
                    show Function.update loop₁.expires first (timeoutAt loop₁ _) = _
                    rw [hexp, timeoutAt, timeoutAt, hreal]
                  · exact Rearm.addedAfter_eq hq.nodup
                  · intro a
                    rw [← s.calls_fire first loop₁]
                    exact TimerPass.calls_call (s.fire first loop₁) _ loop₂ a

/-- A timer that is due and has a callback is called back, and the callback gets through. -/
theorem exists_callbackPass (hk : s.Kept entry now) (hidle : s.running = none) (hgoing : s.stopped = false)
    (hnext : s.loop.next = some timer) (hdue : s.loop.expires timer ≤ s.loop.realtime)
    (hcb : s.loop.callback timer = true) : ∃ s', CallbackPass rearms s timer s' := by
  obtain ⟨L, hH, hq⟩ := hk.queue
  have hin := hq.inited timer (hq.mem_of_next hnext)
  obtain ⟨loop₁, -, hdel, -⟩ := delTimer_queue hq hH hin
  have hfire : PassStep s .fire (s.fire timer loop₁) :=
    .fire hidle (runTimersPass_next.mpr ⟨hnext, not_lt.mpr hdue, hdel⟩)
  obtain ⟨L₁, hH₁, hq₁⟩ := (hfire.kept hk).queue
  have hcb₁ : loop₁.callback timer = true := by
    rw [(TimerCall.delTimer_fields hdel).2.2]
    exact hcb
  obtain ⟨hapi, hallowed, hasserts⟩ :=
    Rearm.call_ready (rearms timer (s.calls timer)) hin hq.nodup.not_mem_erase hcb₁
  obtain ⟨loop₂, -, hrun, -⟩ := TimerCall.run_spec hq₁ hH₁ hallowed hasserts
  exact ⟨_, .mk hfire rfl (.call rfl hapi hallowed hrun) (.ret rfl hgoing)⟩

/-! ### A call -/

/-- What holds between two passes.  A timer is due if it was so at the beginning and has been re-armed by
0 ms each time. -/
structure Rearming (rearms : ι → ℕ → Rearm) (loop : TimerLoop ι) (added : List ι) (now : Timeval)
    (s : TimerPass ι) : Prop where
  kept : s.Kept (armings loop.expires added) now
  running : s.running = none
  going : s.stopped = false
  callback : s.loop.callback = loop.callback
  added : ∀ a, a ∈ s.added ↔ a ∈ added
  due : ∀ a, s.loop.expires a ≤ now ↔ loop.expires a ≤ now ∧ ∀ n < s.calls a, (rearms a n).ms = 0

theorem Rearming.enter (h : TimerReachable loop inited added) (now : Timeval) :
    Rearming rearms loop added now (TimerPass.enter loop inited added now) := by
  refine ⟨TimerPass.enter_kept h now, rfl, rfl, rfl, fun a => Iff.rfl, ?_⟩
  intro a
  constructor
  · intro hdue
    exact ⟨hdue, fun n hn => absurd hn (Nat.not_lt_zero n)⟩
  · rintro ⟨hdue, -⟩
    exact hdue

theorem Rearming.mem (h : Rearming rearms loop added now s) (hnext : s.loop.next = some timer) :
    timer ∈ s.added := by
  obtain ⟨L, -, hq⟩ := h.kept.queue
  exact (mem_iff_of_ties hq.ties timer).mp (hq.mem_of_next hnext)

/-- A pass. -/
theorem CallbackPass.rearming (hs : CallbackPass rearms s timer s') (h : Rearming rearms loop added now s)
    (hnow : now.usec < 1000000) : Rearming rearms loop added now s' := by
  have hr := hs.rearmed h.kept
  have hreal : s.loop.realtime = now := h.kept.realtime
  refine ⟨?_, hr.running, hr.stopped.trans h.going, hr.callback.trans h.callback, ?_, ?_⟩
  · cases hs with
    | mk hfire _ hcall hret => exact hret.kept (hcall.kept (hfire.kept h.kept))
  · intro a
    rw [hr.added, ← h.added]
    by_cases ha : a = timer
    · rw [ha]
      exact iff_of_true (by simp) (h.mem hr.next)
    · simp [List.mem_erase_of_ne ha, ha]
  · intro a
    rw [hr.expires, hr.calls]
    by_cases ha : a = timer
    · subst ha
      -- it was due before this callback
      have hdue := hr.due
      rw [hreal, h.due] at hdue
      have hle : timeoutAt s.loop (rearms a (s.calls a)).ms ≤ now ↔ (rearms a (s.calls a)).ms = 0 := by
        rw [← hreal] at hnow ⊢
        exact timeoutAt_le_iff hnow
      rw [Function.update_self, hle, if_pos rfl, Nat.forall_lt_succ_right]
      constructor
      · intro hzero
        exact ⟨hdue.1, hdue.2, hzero⟩
      · rintro ⟨-, -, hzero⟩
        exact hzero
    · rw [Function.update_of_ne ha, if_neg ha]
      exact h.due a

/-- Between two passes the call returns, or it has a timer to call back. -/
theorem Rearming.returns_or_pass (h : Rearming rearms loop added now s)
    (hcb : ∀ a ∈ added, loop.callback a = true) :
    (∃ ms, s.Returns ms) ∨ ∃ timer s', CallbackPass rearms s timer s' := by
  cases hnext : s.loop.next with
  | none => exact .inl ⟨-1, .done h.running (runTimersPass_done.mpr (.inl ⟨hnext, rfl⟩))⟩
  | some timer =>
      by_cases hlater : s.loop.realtime < s.loop.expires timer
      · exact .inl ⟨_, .done h.running (runTimersPass_done.mpr (.inr ⟨timer, hnext, hlater, rfl⟩))⟩
      · right
        refine ⟨timer, exists_callbackPass h.kept h.running h.going hnext (not_lt.mp hlater) ?_⟩
        rw [h.callback]
        exact hcb timer ((h.added timer).mp (h.mem hnext))

/-- When the call returns, a timer that was due has been re-armed by 1 ms or more. -/
theorem Rearming.delayed (h : Rearming rearms loop added now s) {ms : ℤ} (hret : s.Returns ms) :
    ∀ a ∈ added, loop.expires a ≤ now → ∃ n, (rearms a n).ms ≠ 0 := by
  intro a ha hdue
  cases hret with
  | stopped hrunning =>
      rw [h.running] at hrunning
      cases hrunning
  | done _ hpass =>
      obtain ⟨L, -, hq⟩ := h.kept.queue
      have hlater := hq.later hpass a ((h.added a).mpr ha)
      rw [h.kept.realtime] at hlater
      by_contra hzero
      push Not at hzero
      exact absurd ((h.due a).mpr ⟨hdue, fun n _ => hzero n⟩) (not_le.mpr hlater)

/-- In a pass the number of callbacks that are left gets smaller: the timers are re-armed by 1 ms or more
after `last` callbacks. -/
theorem CallbackPass.sum_lt (hs : CallbackPass rearms s timer s') (h : Rearming rearms loop added now s)
    {last : ι → ℕ} (hlast : ∀ a ∈ added, loop.expires a ≤ now → (rearms a (last a)).ms ≠ 0) :
    ∑ a ∈ added.toFinset, (last a + 1 - s'.calls a) < ∑ a ∈ added.toFinset, (last a + 1 - s.calls a) := by
  have hr := hs.rearmed h.kept
  have hmem : timer ∈ added := (h.added timer).mp (h.mem hr.next)
  have hdue := hr.due
  rw [h.kept.realtime, h.due] at hdue
  have hcalls : s.calls timer ≤ last timer := by
    by_contra hless
    exact hlast timer hmem hdue.1 (hdue.2 _ (not_le.mp hless))
  apply Finset.sum_lt_sum
  · intro a ha
    rw [hr.calls]
    omega
  · refine ⟨timer, List.mem_toFinset.mpr hmem, ?_⟩
    rw [hr.calls, if_pos rfl]
    omega

theorem Rearming.ends (h : Rearming rearms loop added now s) (hnow : now.usec < 1000000)
    (hcb : ∀ a ∈ added, loop.callback a = true)
    (hdelay : ∀ a ∈ added, loop.expires a ≤ now → ∃ n, (rearms a n).ms ≠ 0) : s.Ends rearms := by
  choose! last hlast using hdelay
  have hstep : ∀ s : TimerPass ι, Rearming rearms loop added now s → (∃ ms, s.Returns ms) ∨
      ∃ timer s', CallbackPass rearms s timer s' ∧ Rearming rearms loop added now s' ∧
        ∑ a ∈ added.toFinset, (last a + 1 - s'.calls a) < ∑ a ∈ added.toFinset, (last a + 1 - s.calls a) := by
    intro s h
    rcases h.returns_or_pass hcb with hret | ⟨timer, s', hs⟩
    · exact .inl hret
    · exact .inr ⟨timer, s', hs, hs.rearming h hnow, hs.sum_lt h hlast⟩
  obtain ⟨timers, s', hrun, -, ms, hret⟩ := Run.exists_of_measure _ hstep h
  exact ⟨timers, s', ms, hrun, hret⟩

/-- The passes are steps of the call. -/
theorem run_passes {timers : List ι} (hrun : Run (CallbackPass rearms) s timers s') :
    ∃ as, Run PassStep s as s' := by
  induction hrun with
  | nil s => exact ⟨[], .nil s⟩
  | cons hs _ ih =>
      obtain ⟨as, hrest⟩ := ih
      cases hs with
      | mk hfire _ hcall hret => exact ⟨_, .cons hfire (.cons hcall (.cons hret hrest))⟩

theorem run_rearming {timers : List ι} (h : TimerReachable loop inited added) (hnow : now.usec < 1000000)
    (hrun : Run (CallbackPass rearms) (TimerPass.enter loop inited added now) timers s) :
    Rearming rearms loop added now s :=
  hrun.invariant (P := fun _ => True) (fun _ _ _ hs _ h => hs.rearming h hnow) (fun _ _ => trivial)
    (Rearming.enter h now)

/-- A machine that has read the clock gets through the call, to the events of the batch or to
`epoll_wait`. -/
def Machine.PassesTimers (m : Machine ι) (second : Bool) : Prop :=
  ∃ as m' ms, Run LoopStep m as m' ∧ m'.pc = (if second then .epollWait ms else .dispatch 0) ∧
    m'.loop.eev = m.loop.eev ∧ m'.eevNum = m.eevNum

theorem ends_machine (h : TimerReachable loop inited added) (hnow : now.usec < 1000000)
    (hends : (TimerPass.enter loop inited added now).Ends rearms) {m : Machine ι} {second : Bool}
    (hpc : m.pc = .timers second) (hloop : m.loop.timers = { loop with realtime := now })
    (hgoing : m.loop.stopped = false) : m.PassesTimers second := by
  obtain ⟨timers, s, ms, hrun, hret⟩ := hends
  obtain ⟨as, hpasses⟩ := run_passes hrun
  obtain ⟨bs, m', hmachine, hat, heev, hnum⟩ := run_machine hpasses
    (⟨hloop.symm, hgoing.symm, hpc⟩ : (TimerPass.enter loop inited added now).At second m)
  obtain ⟨b, hlast⟩ := hret.machine hat
  refine ⟨_, _, ms, hmachine.snoc hlast, ?_, heev, hnum⟩
  have hgoing' : m'.loop.stopped = false := by
    rw [← hat.stopped]
    exact (run_rearming h hnow hrun).going
  show m'.afterTimers second ms = _
  rw [Machine.afterTimers, hgoing']
  rfl

/-- **One call ends.**  Callbacks re-arm their own timer by any number of milliseconds.  Then
`__run_timers` returns after finitely many of them if and only if each timer that was due at the beginning
is re-armed by 1 ms or more at least once; and `run_loop` goes on from there to the events. -/
theorem pass_ends_iff (h : TimerReachable loop inited added) (hcb : ∀ a ∈ added, loop.callback a = true)
    (hnow : now.usec < 1000000) (rearms : ι → ℕ → Rearm) :
    ((TimerPass.enter loop inited added now).Ends rearms ↔
      ∀ a ∈ added, loop.expires a ≤ now → ∃ n, (rearms a n).ms ≠ 0) ∧
    ((TimerPass.enter loop inited added now).Ends rearms → ∀ (m : Machine ι) (second : Bool),
      m.pc = .timers second → m.loop.timers = { loop with realtime := now } → m.loop.stopped = false →
        m.PassesTimers second) := by
  refine ⟨⟨?_, ?_⟩, ?_⟩
  · rintro ⟨timers, s, ms, hrun, hret⟩
    exact (run_rearming h hnow hrun).delayed hret
  · exact (Rearming.enter h now).ends hnow hcb
  · intro hends m second hpc hloop hgoing
    exact ends_machine h hnow hends hpc hloop hgoing

/-- The timer 7 is re-armed by 0 ms twice and then by 5 ms. -/
theorem pass_ends_one : ∃ loop : TimerLoop ℕ, TimerReachable loop [7] [7] ∧
    (TimerPass.enter loop [7] [7] ⟨0, 0⟩).Ends fun _ n => ⟨n = 0, if n < 2 then 0 else 5⟩ := by
  obtain ⟨loop, h, -, -, -, hcb⟩ := exists_one 0
  refine ⟨loop, h, ((pass_ends_iff h ?_ (by decide) _).1).mpr ?_⟩
  · intro a ha
    rw [List.mem_singleton.mp ha]
    exact hcb
  · intro a _ _
    exact ⟨2, by decide⟩

/-- A timer that is always re-armed by 0 ms is called back for ever. -/
theorem pass_ends_never : ∃ loop : TimerLoop ℕ, TimerReachable loop [7] [7] ∧
    (¬ (TimerPass.enter loop [7] [7] ⟨0, 0⟩).Ends fun _ _ => ⟨true, 0⟩) ∧
    ∀ n, ∃ timers s, Run (CallbackPass fun _ _ => ⟨true, 0⟩) (TimerPass.enter loop [7] [7] ⟨0, 0⟩) timers s ∧
      timers.length = n := by
  obtain ⟨loop, h, -, -, hexp, hcb⟩ := exists_one 0
  have hdue : loop.expires 7 ≤ ⟨0, 0⟩ := by
    rw [hexp]
    decide
  have hno : ∀ s ms, Rearming (fun _ _ => ⟨true, 0⟩) loop [7] ⟨0, 0⟩ s → ¬ s.Returns ms := by
    intro s ms hs hret
    obtain ⟨n, hn⟩ := hs.delayed hret 7 (by simp) hdue
    exact hn rfl
  refine ⟨loop, h, ?_, ?_⟩
  · rintro ⟨timers, s, ms, hrun, hret⟩
    exact hno s ms (run_rearming h (by decide) hrun) hret
  · have hstart : Rearming (fun _ _ => ⟨true, 0⟩) loop [7] ⟨0, 0⟩ (TimerPass.enter loop [7] [7] ⟨0, 0⟩) :=
      Rearming.enter h ⟨0, 0⟩
    refine Run.exists_of_length ?_ hstart
    intro s hs
    rcases hs.returns_or_pass (by simp [hcb]) with ⟨ms, hret⟩ | ⟨timer, s', hpass⟩
    · exact absurd hret (hno s ms hs)
    · exact ⟨timer, s', hpass, hpass.rearming hs (by decide)⟩

end

end Libls.Loop
