import Mathlib.Tactic
import Libls.RunLoopStop
import Libls.FdTableAccess

/-! # Events and registrations

`epoll_wait` writes a batch of entries, and `run_loop` looks for the `struct io` of each when its turn
comes.  The slot is empty if the registration has been taken out in the meantime; but it can also hold a
later registration of the same descriptor number.  `Watch` keeps on record which registrations have stood
since the last `epoll_wait`, and `run_delivers` says when no others are called. -/

namespace Libls.Loop

variable {ι : Type}

/-! ### The slots after a call -/

theorem IoFd.io_setIo_eq (slots : IoFd) (event event' : IoEvent) (v : Option Io) :
    (slots.setIo event v).io event' = if event' = event then v else slots.io event' := by
  cases event <;> cases event' <;> rfl

theorem io_update (slots : Fd → IoFd) (fd fd' : Fd) (v : IoFd) (event : IoEvent) :
    (Function.update slots fd' v fd).io event = if fd = fd' then v.io event else (slots fd).io event := by
  rw [Function.update_apply]
  split
  · rfl
  · rfl

/-- A slot is as it was, or it has been emptied, or `add_io` has set it. -/
theorem IoCall.slotsAfter_cases (slots : Fd → IoFd) (c : IoCall) (ret : ℤ) (fd : Fd) (event : IoEvent) :
    (c.slotsAfter slots ret fd).io event = (slots fd).io event ∨ (c.slotsAfter slots ret fd).io event = none ∨
      ∃ io reallocOk ctlOk, c = .addIo fd event io reallocOk ctlOk ∧ ret = 0 := by
  cases c with
  | addIo fd' event' io reallocOk ctlOk =>
      simp only [slotsAfter]
      split
      · next hret =>
          rw [io_update, IoFd.io_setIo_eq]
          split
          · next hfd =>
              subst hfd
              split
              · next hev =>
                  subst hev
                  exact .inr (.inr ⟨io, reallocOk, ctlOk, rfl, hret⟩)
              · exact .inl rfl
          · exact .inl rfl
      · exact .inl rfl
  | delIo fd' event' =>
      simp only [slotsAfter]
      rw [io_update, IoFd.io_setIo_eq]
      split
      · next hfd =>
          subst hfd
          split
          · exact .inr (.inl rfl)
          · exact .inl rfl
      · exact .inl rfl
  | closeIo fd' =>
      simp only [slotsAfter]
      rw [io_update]
      split
      · right
        left
        cases event with
        | ioRead => rfl
        | ioWrite => rfl
      · exact .inl rfl

/-! ### The tests of a batch -/

/-- The test for `EPOLLOUT` comes first. -/
def IoEvent.order : IoEvent → ℕ
  | ioWrite => 0
  | ioRead => 1

/-- A place in the batch: the number of tests that have been made, two for each entry, and the entry whose
turn it is. -/
structure Place where
  tests : ℕ
  entry : Option ℕ

def Place.after (i : ℕ) (event : IoEvent) : Place := ⟨2 * i + event.order + 1, some i⟩

def IlcReturn.place : IlcReturn → Option Place
  | entry i event => some (.after i event)
  | run => none

/-- Where `run_loop` is in the batch; nowhere when it has been through, until the next `epoll_wait`. -/
def Pc.place : Pc ι → Option Place
  | test | clock false | timers false | timerCallback false _ => some ⟨0, none⟩
  | dispatch i => some ⟨2 * i, none⟩
  | event i ev => some ⟨2 * i + ev.order, some i⟩
  | ioCallback i ev _ => some (.after i ev)
  | ilcRead r | ilcFire r _ _ _ | ilcCallback r _ _ _ | ilcGrow r _ => r.place
  | _ => none

/-- A later place in a batch of `num` entries. -/
structure Place.Later (num : ℤ) (p p' : Place) : Prop where
  tests : p.tests ≤ p'.tests
  entry : ∀ i, p'.entry = some i → p.entry = some i ∨ (i : ℤ) < num

theorem Place.Later.refl (num : ℤ) (p : Place) : Place.Later num p p := ⟨le_rfl, fun _ h => .inl h⟩

namespace Machine

variable {m : Machine ι} {num : ℤ} {i : ℕ} {event : IoEvent} {p : Place}

theorem place_afterTimers {second : Bool} {ms : ℤ} (h : (m.afterTimers second ms).place = some p) :
    second = false ∧ p = ⟨0, none⟩ := by
  unfold afterTimers at h
  split at h
  · cases h
  · cases second with
    | false =>
        cases h
        exact ⟨rfl, rfl⟩
    | true => cases h

theorem later_nextEvent (h : (nextEvent i event : Pc ι).place = some p) :
    Place.Later num (.after i event) p := by
  cases event with
  | ioWrite =>
      cases h
      exact .refl num _
  | ioRead =>
      cases h
      exact ⟨le_rfl, nofun⟩

theorem later_afterIo (h : (m.afterIo i event).place = some p) : Place.Later num (.after i event) p := by
  unfold afterIo at h
  split at h
  · cases h
  · exact later_nextEvent h

theorem later_ilcReturn {r : IlcReturn} (h : (m.ilcReturn r).place = some p) :
    ∃ p₀, r.place = some p₀ ∧ Place.Later num p₀ p := by
  cases r with
  | entry i event => exact ⟨_, rfl, later_afterIo h⟩
  | run => cases h

theorem place_callIo (io : Io) : (m.callIo i event io).place = some (.after i event) := by
  unfold callIo
  split
  · rfl
  · rfl

end Machine

/-- The place of the test itself, and the one behind it. -/
theorem Place.Later.of_test {num : ℤ} {i : ℕ} {event : IoEvent} {p : Place}
    (h : Place.Later num (.after i event) p) : Place.Later num ⟨2 * i + event.order, some i⟩ p :=
  ⟨(Nat.le_succ _).trans h.tests, h.entry⟩

/-- The batch is the same and has been looked at as far or farther, or it has no entries. -/
structure Machine.Follows (m m' : Machine ι) : Prop where
  eev : m'.loop.eev = m.loop.eev
  place : ∀ p', m'.pc.place = some p' → (m'.eevNum ≤ 0 ∧ p'.entry = none) ∨
    ∃ p, m.pc.place = some p ∧ m'.eevNum = m.eevNum ∧ Place.Later m.eevNum p p'

theorem Machine.Follows.of_later {m m' : Machine ι} (heev : m'.loop.eev = m.loop.eev)
    (hnum : m'.eevNum = m.eevNum)
    (h : ∀ p', m'.pc.place = some p' → ∃ p, m.pc.place = some p ∧ Place.Later m.eevNum p p') : m.Follows m' := by
  refine ⟨heev, ?_⟩
  intro p' hp
  obtain ⟨p, hp, hlater⟩ := h p' hp
  exact .inr ⟨p, hp, hnum, hlater⟩

theorem Machine.Follows.of_pc {m m' : Machine ι} (heev : m'.loop.eev = m.loop.eev)
    (hnum : m'.eevNum = m.eevNum) (hpc : m'.pc.place = m.pc.place) : m.Follows m' := by
  apply Machine.Follows.of_later heev hnum
  intro p' hp
  exact ⟨p', hpc ▸ hp, .refl _ _⟩

theorem LoopStep.follows [DecidableEq ι] {m m' : Machine ι} {a : LoopAction ι} (hs : LoopStep m a m')
    (ha : ∀ events, a ≠ .epollWait (some events)) : m.Follows m' := by
  cases hs with
  | epollWait => exact absurd rfl (ha _)
  | runLoop =>
      refine ⟨rfl, ?_⟩
      rintro _ ⟨⟩
      exact .inl ⟨le_rfl, rfl⟩
  | epollFail =>
      refine ⟨rfl, ?_⟩
      rintro _ ⟨⟩
      exact .inl ⟨(by omega : (-1 : ℤ) ≤ 0), rfl⟩
  | test h =>
      refine Machine.Follows.of_later rfl rfl ?_
      intro p' hp
      rw [h]
      change (if m.loop.stopped then Pc.out else Pc.clock false).place = some p' at hp
      split at hp
      · cases hp
      · cases hp
        exact ⟨_, rfl, .refl _ _⟩
  | @clock second h | @fire second _ _ h =>
      refine Machine.Follows.of_pc rfl rfl ?_
      rw [h]
      cases second with
      | false => rfl
      | true => rfl
  | @timersReturn second _ h =>
      refine Machine.Follows.of_later rfl rfl ?_
      intro p' hp
      obtain ⟨rfl, rfl⟩ := Machine.place_afterTimers hp
      rw [h]
      exact ⟨_, rfl, .refl _ _⟩
  | @timerRet second _ h =>
      refine Machine.Follows.of_later rfl rfl ?_
      intro p' hp
      rw [h]
      change (if m.loop.stopped then m.afterTimers second (-1) else .timers second).place = some p' at hp
      split at hp
      · obtain ⟨rfl, rfl⟩ := Machine.place_afterTimers hp
        exact ⟨_, rfl, .refl _ _⟩
      · cases second with
        | false => exact ⟨_, hp, .refl _ _⟩
        | true => cases hp
  | @dispatch i h =>
      refine Machine.Follows.of_later rfl rfl ?_
      intro p' hp
      rw [h]
      change (if (i : ℤ) < m.eevNum then Pc.event i .ioWrite else Pc.eevGrow).place = some p' at hp
      split at hp
      · next hlt =>
          cases hp
          refine ⟨_, rfl, le_rfl, ?_⟩
          rintro _ ⟨⟩
          exact .inr hlt
      · cases hp
  | noEvent h | noIo h =>
      refine Machine.Follows.of_later rfl rfl ?_
      intro p' hp
      rw [h]
      exact ⟨_, rfl, (Machine.later_nextEvent hp).of_test⟩
  | @callIo _ _ _ _ io h =>
      refine Machine.Follows.of_later rfl rfl ?_
      intro p' hp
      rw [h]
      rw [Machine.goto, Machine.place_callIo io] at hp
      cases hp
      exact ⟨_, rfl, (Place.Later.refl _ _).of_test⟩
  | ioRet h =>
      refine Machine.Follows.of_later rfl rfl ?_
      intro p' hp
      rw [h]
      exact ⟨_, rfl, Machine.later_afterIo hp⟩
  | eevGrow | eevKeep =>
      refine Machine.Follows.of_later rfl rfl ?_
      rintro _ ⟨⟩
  | out =>
      refine Machine.Follows.of_later rfl rfl ?_
      rintro _ ⟨⟩
  | @ilcRead r h =>
      unfold Machine.readIlc
      split
      · refine Machine.Follows.of_later rfl rfl ?_
        intro p' hp
        rw [h]
        exact Machine.later_ilcReturn hp
      · refine Machine.Follows.of_pc rfl rfl ?_
        rw [h]
        rfl
  | ilcFire h | ilcRet h | ilcFired h =>
      refine Machine.Follows.of_pc rfl rfl ?_
      rw [h]
      rfl
  | ilcGrow h | ilcKeep h =>
      refine Machine.Follows.of_later rfl rfl ?_
      intro p' hp
      rw [h]
      exact Machine.later_ilcReturn hp
  | timer | io | stopLoop => exact .of_pc rfl rfl rfl
  | @addIlc ilc _ ok =>
      cases ok with
      | true => exact .of_pc rfl rfl rfl
      | false => exact .of_pc rfl rfl rfl

/-! ### Registrations that have stood -/

/-- `loop->fd[fd].io[event]` -/
def Machine.slot (m : Machine ι) (fd : Fd) (event : IoEvent) : Option Io := (m.loop.fds.slots fd).io event

/-- The machine, and for the record the registrations that have stood since the last call of
`epoll_wait`. -/
structure Watch (ι : Type) where
  machine : Machine ι
  standing : Fd → IoEvent → Option Io

/-- The registrations that have stood, after a step to `m'`. -/
def Watch.standingAfter (w : Watch ι) (a : LoopAction ι) (m' : Machine ι) (fd : Fd) (event : IoEvent) : Option Io :=
  match a with
  | .epollWait _ => w.machine.slot fd event
  | _ => if m'.slot fd event = w.standing fd event then w.standing fd event else none

/-- The steps of the machine, with the record. -/
def WatchStep [DecidableEq ι] (w : Watch ι) (a : LoopAction ι) (w' : Watch ι) : Prop :=
  LoopStep w.machine a w'.machine ∧ w'.standing = w.standingAfter a w'.machine

/-- The machine is at the test of an entry for `event`, which calls `io`. -/
structure Machine.Invokes (m : Machine ι) (e : EpollEvent) (event : IoEvent) (io : Io) : Prop where
  pc : ∃ i, m.pc = .event i event ∧ m.loop.eev[i]? = some e
  has : e.has event = true
  io : m.slot e.fd event = some io

/-- What is called has been registered since before the `epoll_wait` that has reported the event. -/
def Watch.Delivers (w : Watch ι) : Prop :=
  ∀ e event io, w.machine.Invokes e event io → w.standing e.fd event = some io

/-- An entry of the batch with a test for `event` that is still to come. -/
def Machine.Pending (m : Machine ι) (e : EpollEvent) (event : IoEvent) : Prop :=
  m.loop.stopped = false ∧ e.has event = true ∧ ∃ p i, m.pc.place = some p ∧ p.tests ≤ 2 * i + event.order ∧
    (i : ℤ) < m.eevNum ∧ m.loop.eev[i]? = some e

/-- An `add_io` that returns 0. -/
def LoopAction.Registers (fd : Fd) (event : IoEvent) (a : LoopAction ι) : Prop :=
  ∃ io reallocOk ctlOk, a = .io (.addIo fd event io reallocOk ctlOk) 0

/-- No `add_io` registers the descriptor of a pending entry for the event of the pending test. -/
def LoopAction.Spares (m : Machine ι) (a : LoopAction ι) : Prop :=
  ∀ e event, m.Pending e event → ¬ a.Registers e.fd event

/-- What holds in a run in which no step interferes with pending entries. -/
structure Watch.Kept (w : Watch ι) : Prop where
  covered : w.machine.Covered
  stopped : w.machine.loop.stopped = true → w.machine.Stopped
  inBatch : ∀ p i, w.machine.pc.place = some p → p.entry = some i → (i : ℤ) < w.machine.eevNum
  standing : ∀ e event io, w.machine.Pending e event → w.machine.slot e.fd event = some io →
    w.standing e.fd event = some io

section
variable [DecidableEq ι] {m m' : Machine ι} {w w' : Watch ι} {a : LoopAction ι}

theorem LoopStep.stopped_or (hs : LoopStep m a m') : m'.loop.stopped = m.loop.stopped ∨ a = .stopLoop := by
  cases hs with
  | stopLoop => exact .inr rfl
  | ilcRead =>
      left
      unfold Machine.readIlc
      split
      · rfl
      · rfl
  | @addIlc ilc _ ok =>
      left
      cases ok with
      | true => rfl
      | false => rfl
  | _ => exact .inl rfl

/-- A loop is stopped in a callback. -/
theorem LoopStep.stopped_of (hs : LoopStep m a m') (h : m.loop.stopped = true → m.Stopped)
    (hstop : m'.loop.stopped = true) : m'.Stopped := by
  cases hstopped : m.loop.stopped with
  | true => exact (hs.stopStep (h hstopped)).stopped
  | false =>
      rcases hs.stopped_or with hsame | rfl
      · rw [hsame, hstopped] at hstop
        cases hstop
      · exact hs.stopLoop_stopped

/-- No test comes back. -/
theorem LoopStep.pending (hs : LoopStep m a m') (ha : ∀ events, a ≠ .epollWait (some events))
    (hstopped : m.loop.stopped = true → m.Stopped) {e : EpollEvent} {event : IoEvent} (h : m'.Pending e event) :
    m.Pending e event := by
  obtain ⟨hgoing, hhas, p', i, hp', htest, hnum, he⟩ := h
  have hf := hs.follows ha
  refine ⟨?_, hhas, ?_⟩
  · by_contra hstop
    rw [Bool.not_eq_false] at hstop
    have hstop' := (hs.stopStep (hstopped hstop)).stopped.1
    rw [hgoing] at hstop'
    cases hstop'
  · rcases hf.place p' hp' with ⟨hnone, -⟩ | ⟨p, hp, hsame, hlater⟩
    · omega
    · rw [hsame] at hnum
      rw [hf.eev] at he
      exact ⟨p, i, hp, hlater.tests.trans htest, hnum, he⟩

omit [DecidableEq ι] in
theorem Watch.standingAfter_eq {fd : Fd} {event : IoEvent} {io : Io} (hold : w.machine.slot fd event = some io)
    (hstanding : w.standing fd event = some io) (hnew : m'.slot fd event = some io) :
    w.standingAfter a m' fd event = some io := by
  cases a with
  | epollWait => exact hold
  | _ =>
      unfold standingAfter
      simp only [hstanding, hnew, if_true]

/-- What a step does to a slot; only an empty one is set. -/
theorem LoopStep.slot_cases (hs : LoopStep m a m') (hcov : m.Covered) (fd : Fd) (event : IoEvent) :
    m'.slot fd event = m.slot fd event ∨ m'.slot fd event = none ∨
      (a.Registers fd event ∧ m.slot fd event = none) := by
  obtain ⟨hfds, -⟩ | ⟨c, ret, rfl, hrun, -⟩ | ⟨events, -, -, hfds, -⟩ := hs.fds_cases
  · left
    rw [Machine.slot, hfds]
    rfl
  · have hleaves := IoCall.leaves_of_run hcov.inStep hrun
    rw [Machine.slot, hleaves.slots]
    obtain hsame | hnone | ⟨io, _, _, rfl, rfl⟩ := c.slotsAfter_cases m.loop.fds.slots ret fd event
    · exact .inl hsame
    · exact .inr (.inl hnone)
    · exact .inr (.inr ⟨⟨io, _, _, rfl⟩, hleaves.free _ _ _ _ _ rfl rfl⟩)
  · left
    rw [Machine.slot, hfds]
    rfl

/-- A slot that nothing registers is not set. -/
theorem LoopStep.slot_of_not_registers (hs : LoopStep m a m') (hcov : m.Covered) {fd : Fd} {event : IoEvent}
    {io : Io} (hno : ¬ a.Registers fd event) (h : m'.slot fd event = some io) : m.slot fd event = some io := by
  obtain hsame | hnone | ⟨hyes, -⟩ := hs.slot_cases hcov fd event
  · rwa [hsame] at h
  · rw [hnone] at h
    cases h
  · exact absurd hyes hno

/-- A new batch, of which every test is still to come. -/
theorem WatchStep.kept_epollWait {events : List EpollEvent} (hs : WatchStep w (.epollWait (some events)) w')
    (h : w.Kept) : w'.Kept := by
  obtain ⟨hstep, hrecord⟩ := hs
  have hnew : w'.machine.pc = .test ∧ w'.machine.loop.fds = w.machine.loop.fds := by
    generalize w'.machine = m' at hstep
    cases hstep with
    | epollWait => exact ⟨rfl, rfl⟩
  refine ⟨hstep.covered h.covered, hstep.stopped_of h.stopped, ?_, ?_⟩
  · intro p i hp hentry
    rw [hnew.1] at hp
    cases hp
    cases hentry
  · intro e event io _ hslot
    rw [Machine.slot, hnew.2] at hslot
    rw [hrecord]
    exact hslot

theorem WatchStep.kept (hs : WatchStep w a w') (hspares : a.Spares w.machine) (h : w.Kept) : w'.Kept := by
  by_cases ha : ∃ events, a = .epollWait (some events)
  · obtain ⟨events, rfl⟩ := ha
    exact hs.kept_epollWait h
  · rw [not_exists] at ha
    obtain ⟨hstep, hrecord⟩ := hs
    refine ⟨hstep.covered h.covered, hstep.stopped_of h.stopped, ?_, ?_⟩
    · intro p' i hp' hentry
      rcases (hstep.follows ha).place p' hp' with ⟨-, hnone⟩ | ⟨p, hp, hsame, hlater⟩
      · rw [hnone] at hentry
        cases hentry
      · rw [hsame]
        rcases hlater.entry i hentry with hold | hlt
        · exact h.inBatch p i hp hold
        · exact hlt
    · intro e event io hpending hslot
      have hpending' := hstep.pending ha h.stopped hpending
      have hslot' := hstep.slot_of_not_registers h.covered (hspares e event hpending') hslot
      rw [hrecord]
      exact Watch.standingAfter_eq hslot' (h.standing e event io hpending' hslot') hslot

omit [DecidableEq ι] in
theorem LoopStart.kept (h : LoopStart m) : Watch.Kept ⟨m, fun _ _ => none⟩ := by
  have hcov := h.covered
  cases h with
  | alloc => exact ⟨hcov, fun hstop => ⟨hstop, .inl trivial⟩, nofun, fun _ _ _ ⟨_, _, _, _, hp, _⟩ => nomatch hp⟩

omit [DecidableEq ι] in
theorem Watch.Kept.delivers (h : w.Kept) : w.Delivers := by
  rintro e event io ⟨⟨i, hpc, he⟩, hhas, hslot⟩
  have hplace : w.machine.pc.place = some ⟨2 * i + event.order, some i⟩ := by
    rw [hpc]
    rfl
  apply h.standing e event io ⟨?_, hhas, _, i, hplace, le_rfl, h.inBatch _ i hplace rfl, he⟩ hslot
  by_contra hstop
  rw [Bool.not_eq_false] at hstop
  have hwhere := (h.stopped hstop).2
  rw [hpc] at hwhere
  rcases hwhere with hstopping | hending
  · exact hstopping
  · exact hending

/-- A step that does not interfere with pending entries. -/
def SparingStep (w : Watch ι) (a : LoopAction ι) (w' : Watch ι) : Prop := WatchStep w a w' ∧ a.Spares w.machine

theorem run_sparing_delivers {as : List (LoopAction ι)} (hstart : LoopStart m)
    (hrun : Run SparingStep ⟨m, fun _ _ => none⟩ as w) : w.Delivers := by
  apply Watch.Kept.delivers
  exact hrun.invariant (P := fun _ => True) (fun _ _ _ hs _ h => hs.1.kept hs.2 h) (fun _ _ => trivial) hstart.kept

/-! ### What stands -/

variable {fd : Fd} {event : IoEvent} {io : Io}

omit [DecidableEq ι] in
theorem Watch.standingAfter_of_ne (ha : ∀ events, a ≠ .epollWait events) : w.standingAfter a m' fd event =
    if m'.slot fd event = w.standing fd event then w.standing fd event else none := by
  cases a with
  | epollWait events => exact absurd rfl (ha events)
  | _ => rfl

/-- What is gone does not come back before the next `epoll_wait`. -/
theorem WatchStep.standing_none (hs : WatchStep w a w') (ha : ∀ events, a ≠ .epollWait events)
    (h : w.standing fd event = none) : w'.standing fd event = none := by
  rw [hs.2, Watch.standingAfter_of_ne ha, h]
  split
  · rfl
  · rfl

theorem LoopStep.slot_epollWait {events : Option (List EpollEvent)} (hs : LoopStep m (.epollWait events) m') :
    m'.slot = m.slot := by
  cases hs with
  | epollWait => rfl
  | epollFail => rfl

/-- What stands is registered. -/
def Watch.Sound (w : Watch ι) : Prop :=
  ∀ fd event io, w.standing fd event = some io → w.machine.slot fd event = some io

theorem WatchStep.sound (hs : WatchStep w a w') : w'.Sound := by
  intro fd event io h
  rw [hs.2] at h
  by_cases ha : ∃ events, a = .epollWait events
  · obtain ⟨events, rfl⟩ := ha
    rw [hs.1.slot_epollWait]
    exact h
  · rw [not_exists] at ha
    rw [Watch.standingAfter_of_ne ha] at h
    split at h
    · next hsame => rwa [hsame]
    · cases h

theorem run_sound {as : List (LoopAction ι)} (hrun : Run WatchStep w as w') (h : w.Sound) : w'.Sound :=
  hrun.invariant (P := fun _ => True) (fun _ _ _ hs _ _ => hs.sound) (fun _ _ => trivial) h

theorem run_standing_none {as : List (LoopAction ι)} (hrun : Run WatchStep w as w')
    (has : ∀ a ∈ as, ∀ events, a ≠ .epollWait events) (h : w.standing fd event = none) :
    w'.standing fd event = none :=
  hrun.invariant (I := fun w => w.standing fd event = none) (fun _ _ _ hs ha h => hs.standing_none ha h) has h

theorem run_watch_covered {as : List (LoopAction ι)} (hrun : Run WatchStep w as w') (h : w.machine.Covered) :
    w'.machine.Covered :=
  hrun.invariant (I := fun w => w.machine.Covered) (P := fun _ => True) (fun _ _ _ hs _ h => hs.1.covered h)
    (fun _ _ => trivial) h

/-- What is registered stands as long as nothing registers it anew. -/
theorem WatchStep.standing_eq (hs : WatchStep w a w') (hcov : w.machine.Covered)
    (ha : ∀ events, a ≠ .epollWait events) (hno : ¬ a.Registers fd event)
    (h : w.standing fd event = w.machine.slot fd event) : w'.standing fd event = w'.machine.slot fd event := by
  rw [hs.2, Watch.standingAfter_of_ne ha]
  obtain hsame | hnone | ⟨hyes, -⟩ := hs.1.slot_cases hcov fd event
  · rw [if_pos (hsame.trans h.symm), hsame, h]
  · rw [hnone]
    split
    · next hstanding => exact hstanding.symm
    · rfl
  · exact absurd hyes hno

theorem LoopStep.slot_of_registers (hs : LoopStep m a m') (hcov : m.Covered) (h : a.Registers fd event) :
    m.slot fd event = none := by
  obtain ⟨io, reallocOk, ctlOk, rfl⟩ := h
  cases hs with
  | io _ hrun => exact (IoCall.leaves_of_run hcov.inStep hrun).free _ _ _ _ _ rfl rfl

/-- A `struct io` in a slot has stood there since `epoll_wait` if and only if no `add_io` has registered it
since then. -/
theorem standing_iff {events : Option (List EpollEvent)} {bs : List (LoopAction ι)} {w₁ w₂ : Watch ι}
    (hcov : w₁.machine.Covered) (hwait : WatchStep w₁ (.epollWait events) w₂) (hrun : Run WatchStep w₂ bs w)
    (hno : ∀ events, .epollWait events ∉ bs) (hslot : w.machine.slot fd event = some io) :
    w.standing fd event = some io ↔ ∀ a ∈ bs, ¬ a.Registers fd event := by
  have hcov₂ := hwait.1.covered hcov
  have hne : ∀ a ∈ bs, ∀ events, a ≠ .epollWait events := by
    rintro a ha events rfl
    exact hno events ha
  constructor
  · intro hstanding a ha hreg
    obtain ⟨bs₁, bs₂, rfl⟩ := List.append_of_mem ha
    obtain ⟨w₃, h₁, h₂⟩ := hrun.of_append
    cases h₂ with
    | @cons _ w₄ _ _ _ hs h₃ =>
        have hgone : w₃.standing fd event = none := by
          rw [Option.eq_none_iff_forall_ne_some]
          intro io hio
          have hfree := hs.1.slot_of_registers (run_watch_covered h₁ hcov₂) hreg
          rw [run_sound h₁ hwait.sound fd event io hio] at hfree
          cases hfree
        have hgone := run_standing_none (.cons hs h₃) (fun b hb => hne b (List.mem_append_right bs₁ hb)) hgone
        rw [hgone] at hstanding
        cases hstanding
  · intro hfree
    have hstart : w₂.standing fd event = w₂.machine.slot fd event := by
      rw [hwait.2, hwait.1.slot_epollWait]
      rfl
    have hend := hrun.invariant (I := fun w => w.machine.Covered ∧ w.standing fd event = w.machine.slot fd event)
      (P := fun a => (∀ events, a ≠ .epollWait events) ∧ ¬ a.Registers fd event)
      (fun _ _ _ hs ha h => ⟨hs.1.covered h.1, hs.standing_eq h.1 ha.1 ha.2 h.2⟩)
      (fun a ha => ⟨hne a ha, hfree a ha⟩) ⟨hcov₂, hstart⟩
    rw [hend.2]
    exact hslot

/-- **Delivery.**  If no call of `add_io` registers the descriptor of an entry for an event that is still to
be tested for it, then every `struct io` that `run_loop` calls for an entry has been registered since before
the `epoll_wait` that has reported it.  Whatever the calls are, a `struct io` that is called has been so if
and only if `add_io` has not registered its descriptor for the event since that `epoll_wait`. -/
theorem run_delivers (hstart : LoopStart m) :
    (∀ as w, Run SparingStep ⟨m, fun _ _ => none⟩ as w → w.Delivers) ∧
    ∀ as w₁ events w₂ bs w e event io, Run WatchStep ⟨m, fun _ _ => none⟩ as w₁ →
      WatchStep w₁ (.epollWait events) w₂ → Run WatchStep w₂ bs w → (∀ events, .epollWait events ∉ bs) →
        w.machine.Invokes e event io →
          (w.standing e.fd event = some io ↔ ∀ a ∈ bs, ¬ a.Registers e.fd event) := by
  constructor
  · intro as w hrun
    exact run_sparing_delivers hstart hrun
  · intro as w₁ events w₂ bs w e event io hrun hwait hrest hno hinvokes
    exact standing_iff (run_watch_covered hrun hstart.covered) hwait hrest hno hinvokes.io

/-! ### A run in which a descriptor is used again -/

/-- Every run of the machine has a record. -/
theorem run_record {as : List (LoopAction ι)} (hrun : Run LoopStep m as m') (standing : Fd → IoEvent → Option Io) :
    ∃ standing', Run WatchStep ⟨m, standing⟩ as ⟨m', standing'⟩ := by
  induction hrun generalizing standing with
  | nil m => exact ⟨standing, .nil _⟩
  | @cons m m₁ m' a as hs _ ih =>
      obtain ⟨standing', hrest⟩ := ih (Watch.standingAfter ⟨m, standing⟩ a m₁)
      exact ⟨standing', .cons ⟨hs, rfl⟩ hrest⟩

/-- A run without calls of `add_io`, `del_io` and `close_io`. -/
theorem run_sparing {as : List (LoopAction ι)} (hrun : Run WatchStep w as w') (hio : ∀ c value, .io c value ∉ as) :
    Run SparingStep w as w' := by
  induction hrun with
  | nil w => exact .nil w
  | @cons w w₁ w' a as hs _ ih =>
      refine .cons ⟨hs, ?_⟩ (ih fun c value hc => hio c value (List.mem_cons_of_mem a hc))
      rintro e event - ⟨io, reallocOk, ctlOk, rfl⟩
      exact hio _ _ List.mem_cons_self

theorem exists_sparing_cons {as : List (LoopAction ι)} {m₁ : Machine ι} (hs : LoopStep m a m₁)
    (hspares : a.Spares m) (hrest : ∀ standing, ∃ standing', Run SparingStep ⟨m₁, standing⟩ as ⟨m', standing'⟩)
    (standing : Fd → IoEvent → Option Io) :
    ∃ standing', Run SparingStep ⟨m, standing⟩ (a :: as) ⟨m', standing'⟩ := by
  obtain ⟨standing', hrest⟩ := hrest (Watch.standingAfter ⟨m, standing⟩ a m₁)
  exact ⟨standing', .cons ⟨⟨hs, rfl⟩, hspares⟩ hrest⟩

omit [DecidableEq ι] in
theorem spares_of_place (h : m.pc.place = none) (a : LoopAction ι) : a.Spares m := by
  rintro e event ⟨-, -, p, i, hp, -⟩
  rw [h] at hp
  cases hp

end

/-- A descriptor that can be read from. -/
def readable (fd : Fd) : EpollEvent := ⟨true, false, false, fd⟩

/-- `newLoop` with a `struct io` for reading on the descriptors 1 and 2. -/
def servedLoop : RunLoop ℕ :=
  { newLoop with
    fds := ⟨⟨[some .empty, some ⟨some ⟨1, true⟩, none⟩, some ⟨some ⟨2, true⟩, none⟩,
      some ⟨some ⟨0, true⟩, none⟩]⟩, 4, 3,
      (newLoop.fds.epoll.set 1 (some ⟨true, false⟩)).set 2 (some ⟨true, false⟩)⟩ }

/-- `servedLoop` at the test of the first of two entries. -/
def servedMachine : Machine ℕ :=
  ⟨{ servedLoop with eev := [readable 1, readable 2] }, .event 0 .ioRead, 2, []⟩

theorem newMachine_served : ∃ as standing,
    Run SparingStep ⟨newMachine, fun _ _ => none⟩ as ⟨servedMachine, standing⟩ := by
  let loop : RunLoop ℕ :=
    { newLoop with
      fds := ⟨⟨[some .empty, some ⟨some ⟨1, true⟩, none⟩, some .empty, some ⟨some ⟨0, true⟩, none⟩]⟩, 4, 2,
        newLoop.fds.epoll.set 1 (some ⟨true, false⟩)⟩ }
  have hone : LoopStep newMachine (.io (.addIo 1 .ioRead ⟨1, true⟩ true true) 0) ⟨loop, .idle, 0, []⟩ :=
    @LoopStep.io ℕ _ newMachine trivial _ _ _ rfl
  have htwo : LoopStep ⟨loop, .idle, 0, []⟩ (.io (.addIo 2 .ioRead ⟨2, true⟩ true true) 0)
      ⟨servedLoop, .idle, 0, []⟩ := @LoopStep.io ℕ _ ⟨loop, .idle, 0, []⟩ trivial _ _ _ rfl
  have hreports : Reports servedLoop [readable 1, readable 2] := by
    refine ⟨by decide, ?_⟩
    simp only [List.forall_mem_cons, List.not_mem_nil, false_implies, implies_true, and_true]
    exact ⟨⟨⟨true, false⟩, rfl, fun _ => rfl, nofun⟩, ⟨⟨true, false⟩, rfl, fun _ => rfl, nofun⟩⟩
  obtain ⟨as, hturn, hio⟩ := run_firstBatch rfl rfl (by decide) hreports []
  let batch : RunLoop ℕ := { servedLoop with eev := [readable 1, readable 2] }
  have hevent : LoopStep ⟨batch, .dispatch 0, 2, []⟩ .step ⟨batch, .event 0 .ioWrite, 2, []⟩ :=
    .dispatch (i := 0) rfl
  have hwrite : LoopStep ⟨batch, .event 0 .ioWrite, 2, []⟩ .step servedMachine :=
    @LoopStep.noEvent ℕ _ _ 0 .ioWrite (readable 1) rfl rfl rfl
  have hserve : ∀ standing, ∃ standing', Run SparingStep ⟨⟨servedLoop, .idle, 0, []⟩, standing⟩
      (as ++ [.step, .step]) ⟨servedMachine, standing'⟩ := by
    intro standing
    obtain ⟨standing', hrecord⟩ := run_record (hturn.append (.cons hevent (.single hwrite))) standing
    exact ⟨standing', run_sparing hrecord (by simp [hio])⟩
  exact ⟨_, exists_sparing_cons hone (spares_of_place rfl _)
    (exists_sparing_cons htwo (spares_of_place rfl _) hserve) _⟩

theorem run_delivers_served : ∃ as standing,
    Run SparingStep ⟨newMachine, fun _ _ => none⟩ as ⟨servedMachine, standing⟩ ∧
      servedMachine.Invokes (readable 1) .ioRead ⟨1, true⟩ ∧ standing 1 .ioRead = some ⟨1, true⟩ := by
  obtain ⟨as, standing, hrun⟩ := newMachine_served
  have hinvokes : servedMachine.Invokes (readable 1) .ioRead ⟨1, true⟩ := ⟨⟨0, rfl, rfl⟩, rfl, rfl⟩
  exact ⟨as, standing, hrun, hinvokes, (run_delivers newMachine_start).1 as _ hrun _ _ _ hinvokes⟩

/-- The callback of the descriptor 1 closes the descriptor 2, whose event is in the same batch, and registers
another `struct io` for a new descriptor with the number 2: this one is called. -/
theorem run_delivers_reused : ∃ as w, Run WatchStep ⟨newMachine, fun _ _ => none⟩ as w ∧
    w.machine.Invokes (readable 2) .ioRead ⟨9, true⟩ ∧ w.standing 2 .ioRead = none ∧ ¬ w.Delivers := by
  obtain ⟨as, standing, hserved⟩ := newMachine_served
  have hserved : Run WatchStep ⟨newMachine, fun _ _ => none⟩ as ⟨servedMachine, standing⟩ :=
    hserved.mono fun _ _ _ hs => hs.1
  let batch : RunLoop ℕ := { servedLoop with eev := [readable 1, readable 2] }
  let closed : RunLoop ℕ :=
    { batch with
      fds := ⟨⟨[some .empty, some ⟨some ⟨1, true⟩, none⟩, some .empty, some ⟨some ⟨0, true⟩, none⟩]⟩, 4, 2,
        batch.fds.epoll.set 2 none⟩ }
  let reused : RunLoop ℕ :=
    { batch with
      fds := ⟨⟨[some .empty, some ⟨some ⟨1, true⟩, none⟩, some ⟨some ⟨9, true⟩, none⟩,
        some ⟨some ⟨0, true⟩, none⟩]⟩, 4, 3, closed.fds.epoll.set 2 (some ⟨true, false⟩)⟩ }
  have hcall : LoopStep servedMachine .step ⟨batch, .ioCallback 0 .ioRead ⟨1, true⟩, 2, []⟩ :=
    @LoopStep.callIo ℕ _ servedMachine 0 .ioRead (readable 1) ⟨some ⟨1, true⟩, none⟩ ⟨1, true⟩ rfl rfl rfl rfl rfl
      nofun
  have hclose : LoopStep ⟨batch, .ioCallback 0 .ioRead ⟨1, true⟩, 2, []⟩ (.io (.closeIo 2) 0)
      ⟨closed, .ioCallback 0 .ioRead ⟨1, true⟩, 2, []⟩ :=
    @LoopStep.io ℕ _ ⟨batch, .ioCallback 0 .ioRead ⟨1, true⟩, 2, []⟩ trivial _ _ _ rfl
  have hadd : LoopStep ⟨closed, .ioCallback 0 .ioRead ⟨1, true⟩, 2, []⟩
      (.io (.addIo 2 .ioRead ⟨9, true⟩ true true) 0) ⟨reused, .ioCallback 0 .ioRead ⟨1, true⟩, 2, []⟩ :=
    @LoopStep.io ℕ _ ⟨closed, .ioCallback 0 .ioRead ⟨1, true⟩, 2, []⟩ trivial _ _ _ rfl
  have hret : LoopStep ⟨reused, .ioCallback 0 .ioRead ⟨1, true⟩, 2, []⟩ .ret ⟨reused, .dispatch 1, 2, []⟩ :=
    @LoopStep.ioRet ℕ _ ⟨reused, .ioCallback 0 .ioRead ⟨1, true⟩, 2, []⟩ _ _ _ rfl
  have hevent : LoopStep ⟨reused, .dispatch 1, 2, []⟩ .step ⟨reused, .event 1 .ioWrite, 2, []⟩ :=
    .dispatch (i := 1) rfl
  have hwrite : LoopStep ⟨reused, .event 1 .ioWrite, 2, []⟩ .step ⟨reused, .event 1 .ioRead, 2, []⟩ :=
    @LoopStep.noEvent ℕ _ _ 1 .ioWrite (readable 2) rfl rfl rfl
  obtain ⟨standing₁, hbefore⟩ := run_record (.cons hcall (.single hclose)) standing
  obtain ⟨standing₂, hreused⟩ := run_record (.cons hadd (.cons hret (.cons hevent (.single hwrite)))) standing₁
  have hclosed := hserved.append hbefore
  have hgone : standing₁ 2 .ioRead = none := by
    rw [Option.eq_none_iff_forall_ne_some]
    intro io hio
    have hslot := run_sound hclosed nofun 2 .ioRead io hio
    cases hslot
  have hend : standing₂ 2 .ioRead = none := run_standing_none hreused (by simp) hgone
  have hinvokes : (⟨reused, .event 1 .ioRead, 2, []⟩ : Machine ℕ).Invokes (readable 2) .ioRead ⟨9, true⟩ :=
    ⟨⟨1, rfl, rfl⟩, rfl, rfl⟩
  refine ⟨_, _, hclosed.append hreused, hinvokes, hend, ?_⟩
  intro hdelivers
  have hstanding : standing₂ 2 .ioRead = some ⟨9, true⟩ := hdelivers _ _ _ hinvokes
  rw [hend] at hstanding
  cases hstanding

end Libls.Loop
