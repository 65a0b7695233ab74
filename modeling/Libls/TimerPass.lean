import Mathlib.Tactic
import Libls.RunLoop

/-! # A call of `__run_timers`

`PassStep` makes one call of `__run_timers`: the passes of its loop, and between two passes whatever a
callback does to the timers.  A ledger is kept on the side: which timers were added, taken out before
they were due or fired.  `pass_fires` draws the balance.

`LoopStep.pass` connects the steps of the machine that runs `run_loop` with these steps. -/

namespace Libls.Loop

open LinkedTree Rb

variable {ι : Type}

/-! ### Times -/

theorem Timeval.lt_iff {a b : Timeval} : a < b ↔ a.sec < b.sec ∨ a.sec = b.sec ∧ a.usec < b.usec :=
  Prod.Lex.toLex_lt_toLex

/-- The `expires` that `add_timeout` sets. -/
def timeoutAt (loop : TimerLoop ι) (ms : Msec) : Timeval :=
  timeradd loop.realtime ⟨(ms.val / 1000 : ℕ), (ms.val % 1000 * 1000 : ℕ)⟩

/-- A timeout of 1 ms or more is later than `loop->realtime`. -/
theorem lt_timeoutAt (loop : TimerLoop ι) {ms : Msec} (h : ms ≠ 0) : loop.realtime < timeoutAt loop ms := by
  have hms : ms.val ≠ 0 := fun e => h (Fin.ext e)
  have hsplit := Nat.div_add_mod ms.val 1000
  rw [Timeval.lt_iff, timeoutAt, timeradd]
  simp only [ge_iff_le]
  split
  · left
    show loop.realtime.sec < loop.realtime.sec + (ms.val / 1000 : ℕ) + 1
    omega
  · by_cases hsec : ms.val / 1000 = 0
    · right
      constructor
      · show loop.realtime.sec = loop.realtime.sec + (ms.val / 1000 : ℕ)
        omega
      · show loop.realtime.usec < loop.realtime.usec + (ms.val % 1000 * 1000 : ℕ)
        omega
    · left
      show loop.realtime.sec < loop.realtime.sec + (ms.val / 1000 : ℕ)
      omega

/-! ### What a call of the program leaves -/

namespace TimerCall

variable [DecidableEq ι] {loop loop' : TimerLoop ι} {timer : ι}

/-- `expires` after a call. -/
def expiresAfter (loop : TimerLoop ι) : TimerCall ι → ι → Timeval
  | addTimer timer expires => Function.update loop.expires timer expires
  | addTimeout timer ms | updateTimeout timer ms =>
      Function.update loop.expires timer (timeoutAt loop ms)
  | _ => loop.expires

theorem addTimer_fields (h : Prog.Returns (Loop.addTimer timer loop) loop') :
    loop'.realtime = loop.realtime ∧ loop'.expires = loop.expires ∧ loop'.callback = loop.callback := by
  rw [Loop.addTimer] at h
  split at h
  · obtain ⟨q, -, h⟩ := Prog.returns_bind.mp h
    obtain ⟨root, -, h⟩ := Prog.returns_bind.mp h
    rw [← Prog.returns_pure.mp h]
    exact ⟨rfl, rfl, rfl⟩
  · exact (Prog.returns_abort h).elim

theorem addTimeout_fields {ms : Msec} (h : Prog.Returns (Loop.addTimeout timer ms loop) loop') :
    loop'.realtime = loop.realtime ∧ loop'.expires = Function.update loop.expires timer (timeoutAt loop ms) ∧
      loop'.callback = loop.callback := addTimer_fields h

theorem delTimer_fields (h : Prog.Returns (Loop.delTimer timer loop) loop') :
    loop'.realtime = loop.realtime ∧ loop'.expires = loop.expires ∧ loop'.callback = loop.callback := by
  rw [Loop.delTimer] at h
  split at h
  · rw [← Prog.returns_pure.mp h]
    exact ⟨rfl, rfl, rfl⟩
  · obtain ⟨next, -, h⟩ := Prog.returns_bind.mp h
    obtain ⟨root, -, h⟩ := Prog.returns_bind.mp h
    rw [← Prog.returns_pure.mp h]
    exact ⟨rfl, rfl, rfl⟩

/-- A call leaves `loop->realtime` as it is. -/
theorem run_fields {c : TimerCall ι} (hc : c.Api) (h : Prog.Returns (c.run loop) loop') :
    loop'.realtime = loop.realtime ∧ loop'.expires = c.expiresAfter loop := by
  cases c with
  | gettimeofday now => exact hc.elim
  | setCallback timer set =>
      rw [← Prog.returns_pure.mp h]
      exact ⟨rfl, rfl⟩
  | initTimer timer =>
      rw [← Prog.returns_pure.mp h]
      exact ⟨rfl, rfl⟩
  | addTimer timer expires =>
      obtain ⟨hreal, hexp, -⟩ := addTimer_fields h
      exact ⟨hreal, hexp⟩
  | addTimeout timer ms =>
      obtain ⟨hreal, hexp, -⟩ := addTimeout_fields h
      exact ⟨hreal, hexp⟩
  | updateTimeout timer ms =>
      obtain ⟨loop₁, hdel, hadd⟩ := Prog.returns_bind.mp h
      obtain ⟨hreal, hexp, -⟩ := delTimer_fields hdel
      obtain ⟨hreal', hexp', -⟩ := addTimeout_fields hadd
      refine ⟨hreal'.trans hreal, hexp'.trans ?_⟩
      rw [expiresAfter, hexp, timeoutAt, timeoutAt, hreal]
  | delTimer timer =>
      obtain ⟨hreal, hexp, -⟩ := delTimer_fields h
      exact ⟨hreal, hexp⟩
  | fire timer => exact hc.elim

end TimerCall

/-! ### The ledger -/

/-- A timer with the `expires` with which it is pending. -/
abbrev Arming (ι : Type) := ι × Timeval

/-- A callback: its timer, the timers that were pending before the pass in the order in which they were
added, and the loop as the callback finds it. -/
structure Firing (ι : Type) where
  timer : ι
  pending : List ι
  loop : TimerLoop ι

def Firing.arming (x : Firing ι) : Arming ι := (x.timer, x.loop.expires x.timer)

structure Ledger (ι : Type) where
  /-- added by `add_timer` -/
  timers : Multiset (Arming ι)
  /-- added by `add_timeout` and `update_timeout` -/
  timeouts : Multiset (Arming ι)
  /-- taken out by `del_timer` and `update_timeout` -/
  cancelled : Multiset (Arming ι)
  fired : List (Firing ι)

namespace Ledger

def empty : Ledger ι := ⟨0, 0, 0, []⟩

def firedArmings (b : Ledger ι) : Multiset (Arming ι) := (b.fired.map Firing.arming : List (Arming ι))

end Ledger

section
variable [DecidableEq ι]

/-- What is taken out with `timer`. -/
def taken (expires : ι → Timeval) (added : List ι) (timer : ι) : Multiset (Arming ι) :=
  if timer ∈ added then {(timer, expires timer)} else 0

/-- The ledger after a call. -/
def Ledger.call (b : Ledger ι) (loop : TimerLoop ι) (added : List ι) : TimerCall ι → Ledger ι
  | .addTimer timer expires => { b with timers := b.timers + {(timer, expires)} }
  | .addTimeout timer ms => { b with timeouts := b.timeouts + {(timer, timeoutAt loop ms)} }
  | .updateTimeout timer ms =>
      { b with
        timeouts := b.timeouts + {(timer, timeoutAt loop ms)}
        cancelled := b.cancelled + taken loop.expires added timer }
  | .delTimer timer => { b with cancelled := b.cancelled + taken loop.expires added timer }
  | _ => b

end

/-- The timers that are pending. -/
def armings (expires : ι → Timeval) (added : List ι) : Multiset (Arming ι) :=
  (added : Multiset ι).map fun a => (a, expires a)

/-! ### The steps -/

/-- A call of `__run_timers`: the loop, the timer whose callback runs, and for the record the
initialised timers, the pending ones in the order in which they were added, and the ledger. -/
structure TimerPass (ι : Type) where
  loop : TimerLoop ι
  stopped : Bool
  running : Option ι
  inited : List ι
  added : List ι
  book : Ledger ι

inductive PassAction (ι : Type) where
  | fire
  | call (c : TimerCall ι)
  | stopLoop
  | ret

namespace TimerPass
variable [DecidableEq ι]

/-- The call begins: `gettimeofday`. -/
def enter (loop : TimerLoop ι) (inited added : List ι) (now : Timeval) : TimerPass ι :=
  ⟨{ loop with realtime := now }, false, none, inited, added, .empty⟩

def pending (s : TimerPass ι) : Multiset (Arming ι) := armings s.loop.expires s.added

/-- A pass takes `timer` out and calls it back. -/
def fire (s : TimerPass ι) (timer : ι) (loop : TimerLoop ι) : TimerPass ι :=
  { s with
    loop := loop
    running := some timer
    added := s.added.erase timer
    book := { s.book with fired := s.book.fired ++ [⟨timer, s.added, loop⟩] } }

/-- The program calls a function of the library. -/
def call (s : TimerPass ι) (c : TimerCall ι) (loop : TimerLoop ι) : TimerPass ι :=
  { s with
    loop := loop
    inited := c.initedAfter s.inited
    added := c.addedAfter s.added
    book := s.book.call s.loop s.added c }

end TimerPass

/-- The steps of a call of `__run_timers`. -/
inductive PassStep [DecidableEq ι] : TimerPass ι → PassAction ι → TimerPass ι → Prop
  | fire {s : TimerPass ι} {timer : ι} {loop : TimerLoop ι} (h : s.running = none)
      (hpass : Prog.Returns (runTimersPass s.loop) (.next (timer, loop))) :
      PassStep s .fire (s.fire timer loop)
  | call {s : TimerPass ι} {timer : ι} (h : s.running = some timer) {c : TimerCall ι} (hc : c.Api)
      (hallowed : c.Allowed s.inited s.added) {loop : TimerLoop ι}
      (hrun : Prog.Returns (c.run s.loop) loop) : PassStep s (.call c) (s.call c loop)
  | stopLoop {s : TimerPass ι} {timer : ι} (h : s.running = some timer) :
      PassStep s .stopLoop { s with stopped := true }
  | ret {s : TimerPass ι} {timer : ι} (h : s.running = some timer) (hs : s.stopped = false) :
      PassStep s .ret { s with running := none }

/-! ### The balance -/

section
variable [DecidableEq ι] {expires : ι → Timeval} {inited added L : List ι} {timer : ι} {loop loop' : TimerLoop ι}

theorem armings_update (h : timer ∉ added) (e : Timeval) :
    armings (Function.update expires timer e) added = armings expires added := by
  apply Multiset.map_congr rfl
  intro a ha
  rw [Function.update_of_ne]
  rintro rfl
  exact h ha

theorem armings_add (h : timer ∉ added) (e : Timeval) :
    armings (Function.update expires timer e) (added ++ [timer]) = armings expires added + {(timer, e)} := by
  rw [← armings_update h e]
  unfold armings
  rw [← Multiset.coe_add, Multiset.map_add, Multiset.coe_singleton, Multiset.map_singleton, Function.update_self]

theorem armings_erase (expires : ι → Timeval) (added : List ι) (timer : ι) :
    armings expires (added.erase timer) + taken expires added timer = armings expires added := by
  unfold armings taken
  by_cases h : timer ∈ added
  · have hcons : (added : Multiset ι) = timer ::ₘ (added.erase timer : List ι) := by
      rw [← Multiset.coe_erase, Multiset.cons_erase (Multiset.mem_coe.mpr h)]
    rw [if_pos h, hcons, Multiset.map_cons, add_comm, Multiset.singleton_add]
  · rw [if_neg h, List.erase_of_not_mem h, add_zero]

/-- What has been added is what has been taken out, and what is pending. -/
def TimerPass.Balanced (entry : Multiset (Arming ι)) (s : TimerPass ι) : Prop :=
  entry + (s.book.timers + s.book.timeouts) = s.book.firedArmings + s.book.cancelled + s.pending

/-- What a call adds to the ledger on both sides. -/
theorem call_balance {c : TimerCall ι} (b : Ledger ι) (hnodup : added.Nodup) (hc : c.Api)
    (ha : c.Asserts loop added) : ∃ x y : Multiset (Arming ι),
    (b.call loop added c).timers + (b.call loop added c).timeouts = b.timers + b.timeouts + x ∧
      (b.call loop added c).firedArmings + (b.call loop added c).cancelled =
        b.firedArmings + b.cancelled + y ∧
      armings (c.expiresAfter loop) (c.addedAfter added) + y = armings loop.expires added + x := by
  cases c with
  | gettimeofday now => exact hc.elim
  | setCallback timer set => exact ⟨0, 0, (add_zero _).symm, (add_zero _).symm, rfl⟩
  | initTimer timer => exact ⟨0, 0, (add_zero _).symm, (add_zero _).symm, rfl⟩
  | addTimer timer expires =>
      refine ⟨{(timer, expires)}, 0, ?_, (add_zero _).symm, ?_⟩
      · show b.timers + {(timer, expires)} + b.timeouts = _
        abel
      · show armings (Function.update loop.expires timer expires) (added ++ [timer]) + 0 = _
        rw [armings_add ha.1, add_zero]
  | addTimeout timer ms =>
      refine ⟨{(timer, timeoutAt loop ms)}, 0, ?_, (add_zero _).symm, ?_⟩
      · show b.timers + (b.timeouts + {(timer, timeoutAt loop ms)}) = _
        abel
      · show armings (Function.update loop.expires timer _) (added ++ [timer]) + 0 = _
        rw [armings_add ha.1, add_zero]
  | updateTimeout timer ms =>
      refine ⟨{(timer, timeoutAt loop ms)}, taken loop.expires added timer, ?_, ?_, ?_⟩
      · show b.timers + (b.timeouts + {(timer, timeoutAt loop ms)}) = _
        abel
      · exact (add_assoc _ _ _).symm
      · show armings (Function.update loop.expires timer _) (added.erase timer ++ [timer]) + _ = _
        rw [armings_add hnodup.not_mem_erase, ← armings_erase loop.expires added timer]
        abel
  | delTimer timer =>
      refine ⟨0, taken loop.expires added timer, (add_zero _).symm, (add_assoc _ _ _).symm, ?_⟩
      exact (armings_erase loop.expires added timer).trans (add_zero _).symm
  | fire timer => exact hc.elim

/-- What a firing looks like: the timer is due, and it is out of the queue when its callback starts.
Among those that were pending it was the first that was added of those with the least `expires`. -/
def Firing.Due (x : Firing ι) (now : Timeval) : Prop :=
  rbEmptyNode x.timer x.loop.root = true ∧ x.loop.expires x.timer ≤ now ∧
    ∃ A B, x.pending = A ++ x.timer :: B ∧ (∀ a ∈ A, x.loop.expires x.timer < x.loop.expires a) ∧
      ∀ b ∈ B, x.loop.expires x.timer ≤ x.loop.expires b

omit [DecidableEq ι] in
/-- The first of the queue, in the order in which the timers were added. -/
theorem queue_first {f : ι → Timeval} (hs : (timer :: L).Pairwise fun a b => f a ≤ f b)
    (hties : ∀ e, (timer :: L).filter (f · = e) = added.filter (f · = e)) :
    ∃ A B, added = A ++ timer :: B ∧ (∀ a ∈ A, f timer < f a) ∧ ∀ b ∈ B, f timer ≤ f b := by
  have hle : ∀ a ∈ added, f timer ≤ f a := by
    intro a ha
    rcases List.mem_cons.mp ((mem_iff_of_ties hties a).mpr ha) with rfl | hL
    · exact le_rfl
    · exact (List.pairwise_cons.mp hs).1 a hL
  obtain ⟨A, B, rfl, hA⟩ := List.eq_append_cons_of_mem ((mem_iff_of_ties hties timer).mp List.mem_cons_self)
  refine ⟨A, B, rfl, ?_, fun b hb => hle b (by simp [hb])⟩
  intro a ha
  apply lt_of_le_of_ne (hle a (by simp [ha]))
  intro he
  -- a timer of `A` with the same `expires` would be the first of the queue
  have hhead := hties (f timer)
  rw [List.filter_cons_of_pos (by simp), List.filter_append] at hhead
  cases hfil : A.filter (f · = f timer) with
  | nil =>
      rw [List.filter_eq_nil_iff] at hfil
      exact hfil a ha (by simp [he])
  | cons a' A' =>
      rw [hfil, List.cons_append] at hhead
      have hmem : a' ∈ A.filter (f · = f timer) := by simp [hfil]
      exact hA ((List.cons.inj hhead).1 ▸ (List.mem_filter.mp hmem).1)

/-! ### Runs -/

/-- What holds in a call of `__run_timers` that began with the timers `entry`. -/
structure TimerPass.Kept (entry : Multiset (Arming ι)) (now : Timeval) (s : TimerPass ι) : Prop where
  queue : ∃ L, Holds s.loop.root L ∧ TimerQueue s.loop s.inited s.added L
  realtime : s.loop.realtime = now
  balanced : s.Balanced entry
  due : ∀ x ∈ s.book.fired, x.Due now

/-- Timers are re-armed by 1 ms at least. -/
def PassAction.Delays : PassAction ι → Prop
  | .call (.addTimeout _ ms) | .call (.updateTimeout _ ms) => ms ≠ 0
  | _ => True

variable {entry : Multiset (Arming ι)} {now : Timeval} {s s' : TimerPass ι}

theorem TimerPass.Kept.call (h : s.Kept entry now) {c : TimerCall ι} (hc : c.Api)
    (hallowed : c.Allowed s.inited s.added) (hrun : Prog.Returns (c.run s.loop) loop) :
    (s.call c loop).Kept entry now := by
  obtain ⟨L, hH, hq⟩ := h.queue
  have ha := c.asserts_of_run hq hH hallowed hrun
  obtain ⟨loop', L', hret, hH', hq'⟩ := c.run_spec hq hH hallowed ha
  rw [← hrun.unique hret] at hH' hq'
  obtain ⟨hreal, hexp⟩ := c.run_fields hc hrun
  refine ⟨⟨L', hH', hq'⟩, hreal.trans h.realtime, ?_, ?_⟩
  · obtain ⟨x, y, harmed, hgone, hpending⟩ := call_balance s.book hq.nodup hc ha
    show entry + _ = _ + armings loop.expires (c.addedAfter s.added)
    have hold : entry + (s.book.timers + s.book.timeouts) = _ := h.balanced
    calc entry + ((s.book.call s.loop s.added c).timers + (s.book.call s.loop s.added c).timeouts)
        = entry + (s.book.timers + s.book.timeouts) + x := by rw [harmed, ← add_assoc]
      _ = s.book.firedArmings + s.book.cancelled + (armings s.loop.expires s.added + x) := by
          rw [hold, add_assoc]
          rfl
      _ = (s.book.call s.loop s.added c).firedArmings + (s.book.call s.loop s.added c).cancelled +
            armings loop.expires (c.addedAfter s.added) := by
          rw [← hpending, hgone, hexp]
          abel
  · have hfired : (s.book.call s.loop s.added c).fired = s.book.fired := by
      cases c <;> rfl
    show ∀ x ∈ (s.book.call s.loop s.added c).fired, x.Due now
    rw [hfired]
    exact h.due

theorem TimerPass.Kept.fire (h : s.Kept entry now)
    (hpass : Prog.Returns (runTimersPass s.loop) (.next (timer, loop))) :
    (s.fire timer loop).Kept entry now := by
  obtain ⟨L, hH, hq⟩ := h.queue
  obtain ⟨hnext, hdue, hdel⟩ := runTimersPass_next.mp hpass
  obtain ⟨L₁, rfl⟩ := List.head?_eq_some_iff.mp (hq.next.symm.trans hnext)
  have hin : timer ∈ s.inited := hq.inited timer List.mem_cons_self
  have hadded : timer ∈ s.added := (mem_iff_of_ties hq.ties timer).mp List.mem_cons_self
  obtain ⟨loop', L', hret, hH', hq', -⟩ := delTimer_queue hq hH hin
  rw [← hdel.unique hret] at hH' hq'
  obtain ⟨hreal, hexp, -⟩ := TimerCall.delTimer_fields hdel
  refine ⟨⟨L', hH', hq'⟩, hreal.trans h.realtime, ?_, ?_⟩
  · have hold : entry + (s.book.timers + s.book.timeouts) = _ := h.balanced
    have hfired : (s.fire timer loop).book.firedArmings =
        s.book.firedArmings + {(timer, s.loop.expires timer)} := by
      show (((s.book.fired ++ [(⟨timer, s.added, loop⟩ : Firing ι)]).map Firing.arming : List (Arming ι)) :
        Multiset (Arming ι)) = _
      rw [List.map_append, ← Multiset.coe_add, ← hexp]
      rfl
    have hout := armings_erase s.loop.expires s.added timer
    rw [taken, if_pos hadded] at hout
    show entry + (s.book.timers + s.book.timeouts) = (s.fire timer loop).book.firedArmings + s.book.cancelled +
      armings loop.expires (s.added.erase timer)
    rw [hold, hfired, hexp, TimerPass.pending, ← hout]
    abel
  · intro x hx
    rcases List.mem_append.mp hx with hx | hx
    · exact h.due x hx
    · rw [List.mem_singleton.mp hx]
      refine ⟨?_, ?_, ?_⟩
      · show rbEmptyNode timer loop.root = true
        rw [hq'.emptyNode timer hin, mem_iff_of_ties hq'.ties]
        exact hq.nodup.not_mem_erase
      · show loop.expires timer ≤ now
        rw [hexp, ← h.realtime]
        exact not_lt.mp hdue
      · show ∃ A B, s.added = A ++ timer :: B ∧ (∀ a ∈ A, loop.expires timer < loop.expires a) ∧
          ∀ b ∈ B, loop.expires timer ≤ loop.expires b
        rw [hexp]
        exact queue_first hq.sorted hq.ties

/-- A step of the call. -/
theorem PassStep.kept {a : PassAction ι} (hs : PassStep s a s') (h : s.Kept entry now) :
    s'.Kept entry now := by
  cases hs with
  | fire _ hpass => exact h.fire hpass
  | call _ hc hallowed hrun => exact h.call hc hallowed hrun
  | stopLoop => exact ⟨h.queue, h.realtime, h.balanced, h.due⟩
  | ret => exact ⟨h.queue, h.realtime, h.balanced, h.due⟩

theorem PassStep.realtime {a : PassAction ι} (hs : PassStep s a s') : s'.loop.realtime = s.loop.realtime := by
  cases hs with
  | fire _ hpass => exact (TimerCall.delTimer_fields (runTimersPass_next.mp hpass).2.2).1
  | call _ hc _ hrun => exact (TimerCall.run_fields hc hrun).1
  | stopLoop => rfl
  | ret => rfl

/-- The timeouts are later than `loop->realtime`. -/
theorem PassStep.later {a : PassAction ι} (hs : PassStep s a s') (hd : a.Delays)
    (h : ∀ x ∈ s.book.timeouts, s.loop.realtime < x.2) : ∀ x ∈ s'.book.timeouts, s.loop.realtime < x.2 := by
  cases hs with
  | @call timer _ c =>
      intro x hx
      cases c with
      | addTimeout timer ms | updateTimeout timer ms =>
          rcases Multiset.mem_add.mp hx with hx | hx
          · exact h x hx
          · rw [Multiset.mem_singleton.mp hx]
            exact lt_timeoutAt s.loop hd
      | _ => exact h x hx
  | _ => exact h

/-- The beginning of a call. -/
theorem TimerPass.enter_kept (h : TimerReachable loop inited added) (now : Timeval) :
    (TimerPass.enter loop inited added now).Kept (armings loop.expires added) now := by
  obtain ⟨L, hH, hq⟩ := h.queue
  refine ⟨⟨L, hH, ⟨hq.sorted, hq.ties, hq.nodup, hq.next, hq.emptyNode, hq.inited⟩⟩, rfl, ?_, ?_⟩
  · show armings loop.expires added + (0 + 0) = 0 + 0 + armings loop.expires added
    abel
  · intro x hx
    cases hx

/-- What holds in every state of a call. -/
theorem run_kept (h : TimerReachable loop inited added) {as : List (PassAction ι)}
    (hrun : Run PassStep (TimerPass.enter loop inited added now) as s) :
    s.Kept (armings loop.expires added) now :=
  hrun.invariant (P := fun _ => True) (fun _ _ _ hs _ h => hs.kept h) (fun _ _ => trivial)
    (TimerPass.enter_kept h now)

/-- The armings that are due. -/
def dueOf (now : Timeval) (x : Multiset (Arming ι)) : Multiset (Arming ι) := x.filter fun x => x.2 ≤ now

/-- What a call of `__run_timers` that began with the timers `entry` has done. -/
structure TimerPass.Fires (entry : Multiset (Arming ι)) (now : Timeval) (s : TimerPass ι) : Prop where
  realtime : s.loop.realtime = now
  /-- at each pass -/
  due : ∀ x ∈ s.book.fired, x.Due now
  /-- at each moment -/
  balance : dueOf now entry + dueOf now s.book.timers =
    s.book.firedArmings + dueOf now s.book.cancelled + dueOf now s.pending
  /-- when the call returns and the loop is not stopped -/
  returned : ∀ ms, s.running = none → Prog.Returns (runTimersPass s.loop) (.done ms) →
    (∀ a ∈ s.added, now < s.loop.expires a) ∧
      dueOf now entry + dueOf now s.book.timers = s.book.firedArmings + dueOf now s.book.cancelled

/-- When the loop returns no timer is due. -/
theorem TimerQueue.later (h : TimerQueue loop inited added L) {ms : ℤ}
    (hret : Prog.Returns (runTimersPass loop) (.done ms)) : ∀ a ∈ added, loop.realtime < loop.expires a := by
  intro a ha
  have hL := (mem_iff_of_ties h.ties a).mpr ha
  rcases runTimersPass_done.mp hret with ⟨hnone, -⟩ | ⟨first, hfirst, hlater, -⟩
  · rw [h.next, List.head?_eq_none_iff] at hnone
    rw [hnone] at hL
    cases hL
  · rw [h.next] at hfirst
    obtain ⟨L', rfl⟩ := List.head?_eq_some_iff.mp hfirst
    rcases List.mem_cons.mp hL with rfl | hL
    · exact hlater
    · exact hlater.trans_le ((List.pairwise_cons.mp h.sorted).1 a hL)

omit [DecidableEq ι] in
theorem dueOf_eq_zero {x : Multiset (Arming ι)} (h : ∀ y ∈ x, now < y.2) : dueOf now x = 0 :=
  Multiset.filter_eq_nil.mpr fun y hy => not_le.mpr (h y hy)

theorem TimerPass.Kept.fires (h : s.Kept entry now) (hafter : ∀ x ∈ s.book.timeouts, now < x.2) :
    s.Fires entry now := by
  have hbalance : dueOf now entry + dueOf now s.book.timers =
      s.book.firedArmings + dueOf now s.book.cancelled + dueOf now s.pending := by
    have hall := congrArg (dueOf now) h.balanced
    unfold dueOf at hall
    rw [Multiset.filter_add, Multiset.filter_add, Multiset.filter_add, Multiset.filter_add] at hall
    have hout : s.book.timeouts.filter (fun x => x.2 ≤ now) = 0 := dueOf_eq_zero hafter
    have hfired : s.book.firedArmings.filter (fun x => x.2 ≤ now) = s.book.firedArmings := by
      apply Multiset.filter_eq_self.mpr
      intro y hy
      obtain ⟨x, hx, rfl⟩ := List.mem_map.mp (Multiset.mem_coe.mp hy)
      exact (h.due x hx).2.1
    rwa [hout, add_zero, hfired] at hall
  refine ⟨h.realtime, h.due, hbalance, ?_⟩
  intro ms _ hret
  obtain ⟨L, -, hq⟩ := h.queue
  have hlater := hq.later hret
  rw [h.realtime] at hlater
  refine ⟨hlater, ?_⟩
  have hnone : dueOf now s.pending = 0 := by
    apply dueOf_eq_zero
    intro y hy
    have hmem : y ∈ (s.added : Multiset ι).map fun a => (a, s.loop.expires a) := hy
    obtain ⟨a, ha, rfl⟩ := Multiset.mem_map.mp hmem
    exact hlater a ha
  rw [hbalance, hnone, add_zero]

/-- A loop with the timer 7, which `add_timeout` has added at time 0. -/
theorem exists_one (ms : Msec) : ∃ loop : TimerLoop ℕ, TimerReachable loop [7] [7] ∧ loop.next = some 7 ∧
    loop.realtime = ⟨0, 0⟩ ∧ loop.expires 7 = timeradd ⟨0, 0⟩ ⟨(ms.val / 1000 : ℕ), (ms.val % 1000 * 1000 : ℕ)⟩ ∧
      loop.callback 7 = true := by
  have h₀ : TimerReachable (allocTimers ⟨0, 0⟩ (fun _ : ℕ => ⟨none, .red, none, none⟩)
    (fun _ => ⟨0, 0⟩) fun _ => true) [] [] := .alloc ..
  have h₁ := h₀.call (.initTimer 7) (by simp [TimerCall.Allowed]) (Prog.returns_pure.mpr rfl)
  obtain ⟨L₁, hH₁, hq₁⟩ := h₁.queue
  obtain ⟨loop, L, hret, hH, hq⟩ := (TimerCall.addTimeout 7 ms).run_spec hq₁ hH₁
    (by simp [TimerCall.Allowed, TimerCall.initedAfter]) ⟨by simp [TimerCall.addedAfter], rfl⟩
  have h₂ := h₁.call (.addTimeout 7 ms) (by simp [TimerCall.Allowed, TimerCall.initedAfter]) hret
  obtain ⟨hreal, hexp, hcallback⟩ := TimerCall.addTimeout_fields hret
  refine ⟨loop, h₂, ?_, hreal, ?_, ?_⟩
  · have hnodup : L.Nodup := by
      obtain ⟨t, hf, -, rfl⟩ := hH
      exact hf.nodup
    have hL : L = [7] := by
      apply List.perm_singleton.mp
      exact (List.perm_ext_iff_of_nodup hnodup (by simp)).mpr (mem_iff_of_ties hq.ties)
    rw [hq.next, hL]
    rfl
  · rw [hexp, Function.update_self]
    rfl
  · rw [hcallback]
    rfl

/-- **Due timers fire once and in order.**  Whatever the callbacks do, each pass takes out the first
timer, which is due, before its callback starts; the timers that were due when `__run_timers` was called
or were added as such by `add_timer`, each as often as it was added, have been fired, deleted or re-armed
or are still pending, and when the call returns without a stop none is. -/
theorem pass_fires (h : TimerReachable loop inited added) {as : List (PassAction ι)}
    (hrun : Run PassStep (TimerPass.enter loop inited added now) as s) (hd : ∀ a ∈ as, a.Delays) :
    s.Fires (armings loop.expires added) now := by
  apply (run_kept h hrun).fires
  have hlater := hrun.invariant
    (I := fun s => s.loop.realtime = now ∧ ∀ x ∈ s.book.timeouts, now < x.2) ?_ hd
    ⟨rfl, fun x hx => absurd hx (Multiset.notMem_zero x)⟩
  · exact hlater.2
  · rintro s a s' hs hd ⟨hreal, h⟩
    have hstep := hs.later hd
    rw [hreal] at hstep
    exact ⟨hs.realtime.trans hreal, hstep h⟩

instance TimerCall.decidableApi : (c : TimerCall ι) → Decidable c.Api
  | .gettimeofday _ => inferInstanceAs (Decidable False)
  | .fire _ => inferInstanceAs (Decidable False)
  | .setCallback _ _ => inferInstanceAs (Decidable True)
  | .initTimer _ => inferInstanceAs (Decidable True)
  | .addTimer _ _ => inferInstanceAs (Decidable True)
  | .addTimeout _ _ => inferInstanceAs (Decidable True)
  | .updateTimeout _ _ => inferInstanceAs (Decidable True)
  | .delTimer _ => inferInstanceAs (Decidable True)

/-- A step of the call with the fuel `n`. -/
def PassAction.attempt (n : ℕ) (s : TimerPass ι) : PassAction ι → Option (TimerPass ι)
  | .fire => do
      let i ← Prog.attempt (s.running = none) (runTimersPass s.loop) n
      match i with
      | .next (timer, loop) => some (s.fire timer loop)
      | .done _ => none
  | .call c => (Prog.attempt (s.running.isSome ∧ c.Api ∧ c.Allowed s.inited s.added) (c.run s.loop) n).map (s.call c)
  | .stopLoop => Prog.attempt s.running.isSome (return { s with stopped := true }) n
  | .ret => Prog.attempt (s.running.isSome ∧ s.stopped = false) (return { s with running := none }) n

theorem PassAction.step_of_attempt {n : ℕ} {s s' : TimerPass ι} {a : PassAction ι} (hs : a.attempt n s = some s') :
    PassStep s a s' := by
  cases a with
  | fire =>
      obtain ⟨i, hi, hs⟩ := Option.bind_eq_some_iff.mp hs
      obtain ⟨hnone, hpass⟩ := Prog.attempt_eq_some hi
      cases i with
      | done ms => cases hs
      | next q =>
          cases hs
          exact .fire hnone hpass
  | call c =>
      obtain ⟨⟨hsome, hc, hallowed⟩, loop, hrun, rfl⟩ := Prog.attempt_map_eq_some hs
      obtain ⟨timer, htimer⟩ := Option.isSome_iff_exists.mp hsome
      exact .call htimer hc hallowed hrun
  | stopLoop =>
      obtain ⟨hsome, hret⟩ := Prog.attempt_eq_some hs
      obtain ⟨timer, htimer⟩ := Option.isSome_iff_exists.mp hsome
      obtain rfl := Prog.returns_pure.mp hret
      exact .stopLoop htimer
  | ret =>
      obtain ⟨⟨hsome, hgoing⟩, hret⟩ := Prog.attempt_eq_some hs
      obtain ⟨timer, htimer⟩ := Option.isSome_iff_exists.mp hsome
      obtain rfl := Prog.returns_pure.mp hret
      exact .ret htimer hgoing

/-- A call at which four timers are due, two of them at the same time: the callback of the first one deletes
another and adds itself again, that of the last one puts itself off. -/
theorem pass_fires_ties : ∃ (loop : TimerLoop ℕ) (s : TimerPass ℕ), s.book.fired.map Firing.timer = [3, 1, 2] ∧
    s.added = [3, 2] ∧ s.Fires (armings loop.expires [1, 2, 3, 4]) ⟨2, 0⟩ := by
  let start : TimerLoop ℕ := allocTimers ⟨0, 0⟩ (fun _ => ⟨none, .red, none, none⟩) (fun _ => ⟨0, 0⟩) fun _ => true
  let calls : List (TimerCall ℕ) := [.initTimer 1, .initTimer 2, .initTimer 3, .initTimer 4, .addTimeout 1 1500,
    .addTimeout 2 1500, .addTimeout 3 1200, .addTimeout 4 1700]
  let actions : List (PassAction ℕ) := [.fire, .call (.delTimer 4), .call (.addTimeout 3 1000), .ret, .fire, .ret,
    .fire, .call (.updateTimeout 2 500), .ret]
  -- both are computed, the calls for the loop and then the call of `__run_timers`
  have hall : ((calls.foldlM (TimerCall.attempt 9) (start, [], [])).bind fun p =>
      (actions.foldlM (PassAction.attempt 9) (TimerPass.enter p.1 p.2.1 p.2.2 ⟨2, 0⟩)).map fun s =>
        (s.book.fired.map Firing.timer, s.added, p.2.2)) = some ([3, 1, 2], [3, 2], [1, 2, 3, 4]) := by
    decide +kernel
  obtain ⟨p, hcalls, hpass⟩ := Option.bind_eq_some_iff.mp hall
  have hmap : (calls.foldlM (TimerCall.attempt 9) (start, [], [])).map id = some p := by
    rw [hcalls]
    rfl
  obtain ⟨q, rfl, h⟩ := Run.exec_keeps
    (I := fun p : TimerLoop ℕ × List ℕ × List ℕ => TimerReachable p.1 p.2.1 p.2.2)
    (fun _ _ _ => TimerCall.attempt_reachable) id hmap (.alloc ..)
  obtain ⟨s, hsee, hrun⟩ := Run.of_exec (fun _ _ _ => PassAction.step_of_attempt) _ hpass
  simp only [Prod.mk.injEq] at hsee
  obtain ⟨hfired, hadded, hpending⟩ := hsee
  rw [← hpending]
  exact ⟨_, s, hfired, hadded, pass_fires h hrun (by simp [actions, PassAction.Delays])⟩

/-! ### The machine -/

/-- The machine of `run_loop` is in the call `s`, its first or second one in a pass. -/
structure TimerPass.At (s : TimerPass ι) (second : Bool) (m : Machine ι) : Prop where
  loop : s.loop = m.loop.timers
  stopped : s.stopped = m.loop.stopped
  pc : m.pc = s.running.elim (.timers second) (.timerCallback second)

/-- The call returns `ms`. -/
inductive TimerPass.Returns (s : TimerPass ι) : ℤ → Prop
  | done {ms : ℤ} (h : s.running = none) (hpass : Prog.Returns (runTimersPass s.loop) (.done ms)) : Returns s ms
  | stopped {timer : ι} (h : s.running = some timer) (hs : s.stopped = true) : Returns s (-1)

/-- A step of the machine in a call of `__run_timers` is a step of the call, does nothing to it or
returns from it. -/
theorem LoopStep.pass {m m' : Machine ι} {a : LoopAction ι} {second : Bool} (hs : LoopStep m a m')
    (h : s.At second m) (hallowed : ∀ c, a = .timer c → c.Allowed s.inited s.added) :
    s.At second m' ∨ (∃ b s', PassStep s b s' ∧ s'.At second m') ∨
      ∃ ms, s.Returns ms ∧ m'.pc = m.afterTimers second ms := by
  obtain ⟨hloop, hstopped, hpc⟩ := h
  cases hrun : s.running with
  | none =>
      rw [hrun] at hpc
      change m.pc = .timers second at hpc
      cases hs with
      | fire hm hpass =>
          cases hpc.symm.trans hm
          rw [← hloop] at hpass
          exact .inr (.inl ⟨.fire, _, .fire hrun hpass, rfl, hstopped, rfl⟩)
      | timersReturn hm hpass =>
          cases hpc.symm.trans hm
          rw [← hloop] at hpass
          exact .inr (.inr ⟨_, .done hrun hpass, rfl⟩)
      | timer hm | io hm | stopLoop hm =>
          rw [hpc] at hm
          exact hm.elim
      | @addIlc ilc _ ok =>
          cases ok with
          | true => exact .inl ⟨hloop, hstopped, by rw [hrun]; exact hpc⟩
          | false => exact .inl ⟨hloop, hstopped, by rw [hrun]; exact hpc⟩
      | _ => simp_all
  | some timer =>
      rw [hrun] at hpc
      change m.pc = .timerCallback second timer at hpc
      have hstay : m.pc = s.running.elim (.timers second) (.timerCallback second) := by
        rw [hrun]
        exact hpc
      cases hs with
      | timerRet hm =>
          cases hpc.symm.trans hm
          by_cases hstop : s.stopped = true
          · refine .inr (.inr ⟨-1, .stopped hrun hstop, ?_⟩)
            rw [hstopped] at hstop
            simp [Machine.goto, hstop]
          · rw [Bool.not_eq_true] at hstop
            refine .inr (.inl ⟨.ret, _, .ret hrun hstop, hloop, hstopped, ?_⟩)
            rw [hstopped] at hstop
            simp [Machine.goto, hstop]
      | timer hm hc hcall =>
          rw [← hloop] at hcall
          exact .inr (.inl ⟨_, _, .call hrun hc (hallowed _ rfl) hcall, rfl, hstopped, hstay⟩)
      | io => exact .inl ⟨hloop, hstopped, hstay⟩
      | stopLoop => exact .inr (.inl ⟨_, _, .stopLoop hrun, hloop, rfl, hstay⟩)
      | @addIlc ilc _ ok =>
          cases ok with
          | true => exact .inl ⟨hloop, hstopped, hstay⟩
          | false => exact .inl ⟨hloop, hstopped, hstay⟩
      | _ => simp_all

/-- The machine can make a step of the call; the events of the batch stay. -/
theorem PassStep.machine {m : Machine ι} {a : PassAction ι} {second : Bool} (hs : PassStep s a s')
    (h : s.At second m) : ∃ b m', LoopStep m b m' ∧ s'.At second m' ∧ m'.loop.eev = m.loop.eev ∧
      m'.eevNum = m.eevNum := by
  obtain ⟨hloop, hstopped, hpc⟩ := h
  cases hs with
  | fire hrun hpass =>
      rw [hrun] at hpc
      rw [hloop] at hpass
      exact ⟨_, _, .fire hpc hpass, ⟨rfl, hstopped, rfl⟩, rfl, rfl⟩
  | call hrun hc _ hcall =>
      rw [hloop] at hcall
      have hcallback : m.pc.InCallback := by
        rw [hpc, hrun]
        trivial
      exact ⟨_, _, .timer hcallback hc hcall, ⟨rfl, hstopped, hpc⟩, rfl, rfl⟩
  | stopLoop hrun =>
      have hcallback : m.pc.InCallback := by
        rw [hpc, hrun]
        trivial
      exact ⟨_, _, .stopLoop hcallback, ⟨hloop, rfl, hpc⟩, rfl, rfl⟩
  | ret hrun hgoing =>
      rw [hrun] at hpc
      rw [hstopped] at hgoing
      refine ⟨_, _, .timerRet hpc, ⟨hloop, hstopped, ?_⟩, rfl, rfl⟩
      rw [hgoing]
      rfl

theorem run_machine {m : Machine ι} {as : List (PassAction ι)} {second : Bool} (hrun : Run PassStep s as s')
    (h : s.At second m) : ∃ bs m', Run LoopStep m bs m' ∧ s'.At second m' ∧ m'.loop.eev = m.loop.eev ∧
      m'.eevNum = m.eevNum := by
  induction hrun generalizing m with
  | nil s => exact ⟨[], m, .nil m, h, rfl, rfl⟩
  | cons hs _ ih =>
      obtain ⟨b, m₁, hstep, h₁, heev, hnum⟩ := hs.machine h
      obtain ⟨bs, m', hrest, h', heev', hnum'⟩ := ih h₁
      exact ⟨b :: bs, m', .cons hstep hrest, h', heev'.trans heev, hnum'.trans hnum⟩

theorem TimerPass.Returns.machine {m : Machine ι} {second : Bool} {ms : ℤ} (hret : s.Returns ms)
    (h : s.At second m) : ∃ b, LoopStep m b (m.goto (m.afterTimers second ms)) := by
  obtain ⟨hloop, hstopped, hpc⟩ := h
  cases hret with
  | done hrun hpass =>
      rw [hrun] at hpc
      rw [hloop] at hpass
      exact ⟨_, .timersReturn hpc hpass⟩
  | stopped hrun hstop =>
      rw [hrun] at hpc
      rw [hstopped] at hstop
      have hstep := LoopStep.timerRet hpc
      rw [if_pos hstop] at hstep
      exact ⟨_, hstep⟩

end

end Libls.Loop
