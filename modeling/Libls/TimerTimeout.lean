import Mathlib.Tactic
import Libls.TimerPass

/-! # The timeout of `__run_timers`

What `__run_timers` returns is passed on to `epoll_wait`.  The milliseconds until the first timer are
computed in a wide type and then stored in an `int`: they are cut to 32 bits, of which the highest is a
sign.  `pass_waits_iff` says for which times this does no harm. -/

namespace Libls.Loop

open LinkedTree Rb

variable {ι : Type}

/-- The time from `realtime` to `expires` in whole milliseconds. -/
def remaining (realtime expires : Timeval) : ℤ :=
  ((expires.sec - realtime.sec) * 1000000 + (expires.usec - realtime.usec)) / 1000

variable {realtime expires : Timeval}

theorem remaining_nonneg (h : realtime < expires) (hreal : realtime.usec < 1000000) (hexp : 0 ≤ expires.usec) :
    0 ≤ remaining realtime expires := by
  rw [Timeval.lt_iff] at h
  unfold remaining
  omega

/-- With microseconds below a second `timersub` borrows at most once, and rounding down is exact. -/
theorem waitTime_eq (hreal : realtime.usec < 1000000) (hexp : 0 ≤ expires.usec) :
    waitTime realtime expires =
      if Int.bmod (remaining realtime expires) (2 ^ 32) = 0 then 1
      else Int.bmod (remaining realtime expires) (2 ^ 32) := by
  have hms : (timersub expires realtime).sec * 1000 + (timersub expires realtime).usec.tdiv 1000 =
      remaining realtime expires := by
    unfold timersub remaining
    dsimp only
    split
    · next hborrow =>
        have hnonneg : 0 ≤ expires.usec - realtime.usec + 1000000 := by omega
        dsimp only
        rw [Int.tdiv_eq_ediv_of_nonneg hnonneg]
        omega
    · next hborrow =>
        have hnonneg : 0 ≤ expires.usec - realtime.usec := by omega
        dsimp only
        rw [Int.tdiv_eq_ediv_of_nonneg hnonneg]
        omega
  unfold waitTime
  simp only [hms]

/-- The `int` is neither negative nor too large if and only if its sign bit is not set. -/
theorem waitTime_le_iff (h : realtime < expires) (hreal : realtime.usec < 1000000) (hexp : 0 ≤ expires.usec) :
    1 ≤ waitTime realtime expires ∧ waitTime realtime expires ≤ max 1 (remaining realtime expires) ↔
      remaining realtime expires % 2 ^ 32 < 2 ^ 31 := by
  have hpos := remaining_nonneg h hreal hexp
  rw [waitTime_eq hreal hexp]
  generalize remaining realtime expires = m at hpos
  have hbmod : Int.bmod m (2 ^ 32) = if m % 2 ^ 32 < 2 ^ 31 then m % 2 ^ 32 else m % 2 ^ 32 - 2 ^ 32 := rfl
  rw [hbmod, le_max_iff]
  constructor
  · rintro ⟨hone, -⟩
    by_contra hsign
    rw [if_neg hsign] at hone
    split at hone
    · omega
    · omega
  · intro hsign
    rw [if_pos hsign]
    split
    · omega
    · omega

variable [DecidableEq ι] {s : TimerPass ι} {inited added : List ι} {loop : TimerLoop ι} {now : Timeval} {ms : ℤ}

/-- The value of `__run_timers`: -1 if no timer is pending, and otherwise a time at which the first timer
is not yet overdue. -/
def TimerPass.Waits (s : TimerPass ι) (ms : ℤ) : Prop :=
  (ms = -1 ↔ s.added = []) ∧ ∀ timer, s.loop.next = some timer →
    1 ≤ ms ∧ ms ≤ max 1 (remaining s.loop.realtime (s.loop.expires timer))

/-- **The timeout.**  Whatever the callbacks have done, the value that `__run_timers` returns is right if
and only if the milliseconds until the first timer, modulo `2 ^ 32`, are less than `2 ^ 31`. -/
theorem pass_waits_iff (h : TimerReachable loop inited added) {as : List (PassAction ι)}
    (hrun : Run PassStep (TimerPass.enter loop inited added now) as s) (hidle : s.running = none)
    (hret : s.Returns ms) (hnow : now.usec < 1000000)
    (hexp : ∀ timer, s.loop.next = some timer → 0 ≤ (s.loop.expires timer).usec) :
    s.Waits ms ↔ ∀ timer, s.loop.next = some timer →
      remaining s.loop.realtime (s.loop.expires timer) % 2 ^ 32 < 2 ^ 31 := by
  have hkept := run_kept h hrun
  obtain ⟨L, -, hq⟩ := hkept.queue
  have hreal : s.loop.realtime.usec < 1000000 := by
    rw [hkept.realtime]
    exact hnow
  have hempty : s.added = [] ↔ s.loop.next = none := by
    rw [hq.next, List.head?_eq_none_iff, List.eq_nil_iff_forall_not_mem, List.eq_nil_iff_forall_not_mem]
    exact forall_congr' fun a => not_congr (mem_iff_of_ties hq.ties a).symm
  cases hret with
  | stopped hrunning =>
      rw [hidle] at hrunning
      cases hrunning
  | done _ hpass =>
      rcases runTimersPass_done.mp hpass with ⟨hnone, rfl⟩ | ⟨first, hfirst, hlater, rfl⟩
      · refine iff_of_true ⟨iff_of_true rfl (hempty.mpr hnone), ?_⟩ ?_
        · intro timer htimer
          rw [hnone] at htimer
          cases htimer
        · intro timer htimer
          rw [hnone] at htimer
          cases htimer
      · have hiff := waitTime_le_iff hlater hreal (hexp first hfirst)
        have hne : s.added ≠ [] := by
          rw [Ne, hempty, hfirst]
          exact Option.some_ne_none first
        constructor
        · rintro ⟨-, hwait⟩ timer htimer
          obtain rfl := Option.some.inj (hfirst.symm.trans htimer)
          exact hiff.mp (hwait first hfirst)
        · intro hsign
          obtain ⟨hone, hle⟩ := hiff.mpr (hsign first hfirst)
          refine ⟨iff_of_false (by omega) hne, ?_⟩
          intro timer htimer
          obtain rfl := Option.some.inj (hfirst.symm.trans htimer)
          exact ⟨hone, hle⟩

/-- A timeout of 1500 ms. -/
theorem pass_waits_one : ∃ s : TimerPass ℕ, s.loop.next = some 7 ∧ s.Returns 1500 ∧ s.Waits 1500 := by
  obtain ⟨loop, h, hnext, hreal, hexp, -⟩ := exists_one 1500
  have hret : (TimerPass.enter loop [7] [7] ⟨0, 0⟩).Returns 1500 := by
    refine .done rfl (runTimersPass_done.mpr (.inr ⟨7, hnext, ?_, ?_⟩))
    · show (⟨0, 0⟩ : Timeval) < loop.expires 7
      rw [hexp]
      decide
    · show 1500 = waitTime ⟨0, 0⟩ (loop.expires 7)
      rw [hexp]
      decide
  have hfirst : ∀ timer, loop.next = some timer → timer = 7 := fun timer ht =>
    Option.some.inj (ht.symm.trans hnext)
  refine ⟨_, hnext, hret, (pass_waits_iff h (.nil _) rfl hret (by decide) ?_).mpr ?_⟩
  · intro timer ht
    show 0 ≤ (loop.expires timer).usec
    rw [hfirst timer ht, hexp]
    decide
  · intro timer ht
    show remaining ⟨0, 0⟩ (loop.expires timer) % 2 ^ 32 < 2 ^ 31
    rw [hfirst timer ht, hexp]
    decide

/-- With a timeout of `2 ^ 31` ms the value is negative. -/
theorem pass_waits_negative : ∃ s : TimerPass ℕ, s.loop.next = some 7 ∧ s.Returns (-2147483648) ∧
    ¬ s.Waits (-2147483648) := by
  obtain ⟨loop, h, hnext, hreal, hexp, -⟩ := exists_one 2147483648
  refine ⟨TimerPass.enter loop [7] [7] ⟨0, 0⟩, hnext, ?_, ?_⟩
  · refine .done rfl (runTimersPass_done.mpr (.inr ⟨7, hnext, ?_, ?_⟩))
    · show (⟨0, 0⟩ : Timeval) < loop.expires 7
      rw [hexp]
      decide
    · show -2147483648 = waitTime ⟨0, 0⟩ (loop.expires 7)
      rw [hexp]
      decide
  · rintro ⟨-, hwait⟩
    exact absurd (hwait 7 hnext).1 (by decide)

end Libls.Loop
