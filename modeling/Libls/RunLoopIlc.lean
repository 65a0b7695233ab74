import Mathlib.Tactic
import Libls.RunLoop

/-! # Messages between loops

`Machine.sent` are the messages fired, those of the batch being fired and those in the pipe.  They are
in every state, in order, the messages that `add_ilc` has accepted (`accepted`). -/

namespace Libls.Loop

variable {ι : Type}

/-! ### Batches -/

/-- The batch being fired: the index of the next message, and the number of messages. -/
def Pc.inBatch : Pc ι → Option (ℕ × ℕ)
  | ilcFire _ i n _ => some (i, n)
  | ilcCallback _ i n _ => some (i + 1, n)
  | _ => none

/-- The messages that have been read and not fired. -/
def Machine.batch (m : Machine ι) : List Ilc :=
  match m.pc.inBatch with
  | some (i, n) => (m.loop.ilc.take n).drop i
  | none => []

/-- The batch is in the buffer. -/
def Machine.BatchRead (m : Machine ι) : Prop := ∀ i n, m.pc.inBatch = some (i, n) → n ≤ m.loop.ilc.length

namespace Machine

variable {m : Machine ι} {pc : Pc ι}

@[simp] theorem inBatch_afterTimers {second : Bool} {ms : ℤ} :
    (m.afterTimers second ms).inBatch = none := by
  unfold afterTimers
  split
  · rfl
  · split <;> rfl

@[simp] theorem inBatch_nextEvent {i : ℕ} {event : IoEvent} :
    (nextEvent i event : Pc ι).inBatch = none := by
  cases event <;> rfl

@[simp] theorem inBatch_afterIo {i : ℕ} {event : IoEvent} : (m.afterIo i event).inBatch = none := by
  unfold afterIo
  split
  · rfl
  · exact inBatch_nextEvent

@[simp] theorem inBatch_callIo {i : ℕ} {event : IoEvent} {io : Io} :
    (m.callIo i event io).inBatch = none := by
  unfold callIo
  split <;> rfl

@[simp] theorem inBatch_ilcReturn {r : IlcReturn} : (m.ilcReturn r).inBatch = none := by
  cases r with
  | entry i event => exact inBatch_afterIo
  | run => rfl

theorem batch_eq_nil (h : m.pc.inBatch = none) : m.batch = [] := by
  unfold batch
  rw [h]

theorem batchRead_of_none (h : m.pc.inBatch = none) : m.BatchRead := by
  intro i n hin
  rw [h] at hin
  cases hin

end Machine

/-- Nothing happens to messages. -/
structure SameIlc (m m' : Machine ι) : Prop where
  fired : m'.fired = m.fired
  batch : m'.batch = m.batch
  pipe : m'.loop.pipe = m.loop.pipe
  read : m.BatchRead → m'.BatchRead

theorem SameIlc.of_none {m m' : Machine ι} (h : m.pc.inBatch = none) (h' : m'.pc.inBatch = none)
    (hfired : m'.fired = m.fired) (hpipe : m'.loop.pipe = m.loop.pipe) : SameIlc m m' :=
  ⟨hfired, (Machine.batch_eq_nil h').trans (Machine.batch_eq_nil h).symm, hpipe,
    fun _ => Machine.batchRead_of_none h'⟩

theorem SameIlc.goto {m : Machine ι} {pc : Pc ι} (h : m.pc.inBatch = none) (hpc : pc.inBatch = none) :
    SameIlc m (m.goto pc) := .of_none h hpc rfl rfl

/-- What a step can do to messages. -/
theorem LoopStep.ilc_cases [DecidableEq ι] {m m' : Machine ι} {a : LoopAction ι}
    (hs : LoopStep m a m') :
    (SameIlc m m' ∧ ∀ ilc, a ≠ .addIlc ilc true) ∨
      (∃ r, m.pc = .ilcRead r ∧ a = .step ∧ m' = m.readIlc r) ∨
      (∃ ilc, m.batch = ilc :: m'.batch ∧ m'.fired = m.fired ++ [ilc] ∧
        a = .step ∧ m'.loop.pipe = m.loop.pipe ∧ (m.BatchRead → m'.BatchRead)) ∨
      ∃ ilc, a = .addIlc ilc true ∧ m' = m.addIlc ilc true := by
  have hnil : ∀ {pc : Pc ι}, m.pc = pc → pc.inBatch = none → m.pc.inBatch = none := by
    rintro pc rfl h
    exact h
  cases hs with
  | ilcRead h => exact .inr (.inl ⟨_, h, rfl, rfl⟩)
  | @ilcFire r i n len ilc h hi hilc =>
      have hget : (m.loop.ilc.take n)[i]? = some ilc := by
        rw [List.getElem?_take_of_lt hi, hilc]
      refine .inr (.inr (.inl ⟨ilc, ?_, rfl, rfl, rfl, fun hread j k hin => ?_⟩))
      · unfold Machine.batch
        rw [h]
        simp only [Pc.inBatch]
        rw [List.drop_eq_getElem?_toList_append, hget]
        rfl
      · cases hin
        exact hread i n (by rw [h]; rfl)
  | @addIlc ilc _ ok =>
      cases ok with
      | true => exact .inr (.inr (.inr ⟨ilc, rfl, rfl⟩))
      | false => exact .inl ⟨⟨rfl, rfl, rfl, id⟩, by simp⟩
  | @ilcRet r i n len h =>
      refine .inl ⟨⟨rfl, ?_, rfl, fun hread j k hin => ?_⟩, by simp⟩
      · unfold Machine.batch
        rw [h]
        rfl
      · cases hin
        exact hread (i + 1) n (by rw [h]; rfl)
  | @ilcFired r i n len h hi =>
      refine .inl ⟨⟨rfl, ?_, rfl, fun _ => Machine.batchRead_of_none rfl⟩, by simp⟩
      have hdrop : (m.loop.ilc.take n).drop i = [] := by
        rw [List.drop_eq_nil_iff, List.length_take]
        omega
      unfold Machine.batch
      rw [h]
      exact hdrop.symm
  | test h => exact .inl ⟨.goto (hnil h rfl) (by split <;> rfl), by simp⟩
  | dispatch h => exact .inl ⟨.goto (hnil h rfl) (by split <;> rfl), by simp⟩
  | timerRet h =>
      refine .inl ⟨.goto (hnil h rfl) ?_, by simp⟩
      split
      · exact Machine.inBatch_afterTimers
      · rfl
  | timersReturn h | noEvent h | noIo h | callIo h | ioRet h | ilcKeep h =>
      exact .inl ⟨.goto (hnil h rfl) (by simp), by simp⟩
  | out h | eevKeep h => exact .inl ⟨.goto (hnil h rfl) rfl, by simp⟩
  | runLoop h | clock h | fire h | eevGrow h | epollWait h | epollFail h =>
      exact .inl ⟨.of_none (hnil h rfl) rfl rfl rfl, by simp⟩
  | ilcGrow h => exact .inl ⟨.of_none (hnil h rfl) Machine.inBatch_ilcReturn rfl rfl, by simp⟩
  | timer | io | stopLoop => exact .inl ⟨⟨rfl, rfl, rfl, id⟩, by simp⟩

/-- `read` moves messages from the pipe to the batch. -/
theorem readIlc_batch {m : Machine ι} {r : IlcReturn} (h : m.pc = .ilcRead r) :
    m.batch = [] ∧ (m.readIlc r).batch ++ (m.readIlc r).loop.pipe = m.loop.pipe ∧
      (m.readIlc r).fired = m.fired ∧ (m.readIlc r).BatchRead := by
  refine ⟨Machine.batch_eq_nil (by rw [h]; rfl), ?_⟩
  unfold Machine.readIlc
  split
  · have hnone : (m.goto (m.ilcReturn r)).pc.inBatch = none := Machine.inBatch_ilcReturn
    refine ⟨?_, rfl, Machine.batchRead_of_none hnone⟩
    rw [Machine.batch_eq_nil hnone]
    rfl
  · refine ⟨?_, rfl, fun i n hin => ?_⟩
    · show ((m.loop.pipe.take _).take _).drop 0 ++ m.loop.pipe.drop _ = m.loop.pipe
      rw [List.take_take, Nat.min_self, List.drop_zero, List.take_append_drop]
    · cases hin
      have := Nat.min_le_left (ptrSize * m.loop.pipe.length) m.loop.ilcSize
      simp only [List.length_take, Machine.readLen, ptrSize] at *
      omega

/-! ### Nothing is lost -/

/-- The messages fired, being fired, and in the pipe. -/
def Machine.sent (m : Machine ι) : List Ilc := m.fired ++ m.batch ++ m.loop.pipe

/-- The messages for which `add_ilc` has returned 0. -/
def accepted (as : List (LoopAction ι)) : List Ilc :=
  as.filterMap fun a => match a with
    | .addIlc ilc true => some ilc
    | _ => none

theorem accepted_cons {a : LoopAction ι} {as : List (LoopAction ι)} :
    accepted (a :: as) = accepted [a] ++ accepted as := by
  rw [accepted, accepted, accepted, ← List.filterMap_append]
  rfl

theorem accepted_eq_nil {a : LoopAction ι} (h : ∀ ilc, a ≠ .addIlc ilc true) : accepted [a] = [] := by
  unfold accepted
  rw [List.filterMap_cons]
  split
  · rfl
  · next hx =>
      split at hx
      · exact absurd rfl (h _)
      · cases hx

/-- A step loses no message. -/
theorem LoopStep.sent [DecidableEq ι] {m m' : Machine ι} {a : LoopAction ι} (hs : LoopStep m a m') :
    m'.sent = m.sent ++ accepted [a] := by
  unfold Machine.sent
  obtain ⟨hq, ha⟩ | ⟨r, hpc, rfl, rfl⟩ | ⟨ilc, hb, hf, rfl, hp, -⟩ | ⟨ilc, rfl, rfl⟩ := hs.ilc_cases
  · rw [hq.fired, hq.batch, hq.pipe, accepted_eq_nil ha, List.append_nil]
  · obtain ⟨hb, hsplit, hf, -⟩ := readIlc_batch hpc
    rw [hb, hf, List.append_assoc, hsplit, accepted_eq_nil (by simp), List.append_nil, List.append_nil]
  · rw [hf, hp, hb, accepted_eq_nil (by simp)]
    simp
  · show m.fired ++ m.batch ++ (m.loop.pipe ++ [ilc]) = _
    rw [← List.append_assoc]
    rfl

theorem LoopStep.batchRead [DecidableEq ι] {m m' : Machine ι} {a : LoopAction ι}
    (hs : LoopStep m a m') (h : m.BatchRead) : m'.BatchRead := by
  obtain ⟨hq, -⟩ | ⟨r, hpc, -, rfl⟩ | ⟨ilc, -, -, -, -, hread⟩ | ⟨ilc, -, rfl⟩ := hs.ilc_cases
  · exact hq.read h
  · exact (readIlc_batch hpc).2.2.2
  · exact hread h
  · exact h

theorem run_sent [DecidableEq ι] {m m' : Machine ι} {as : List (LoopAction ι)}
    (h : Run LoopStep m as m') : m'.sent = m.sent ++ accepted as := by
  induction h with
  | nil m => exact (List.append_nil _).symm
  | cons hs _ ih => rw [ih, hs.sent, List.append_assoc, ← accepted_cons]

/-! ### No pointer is split -/

/-- The buffer holds a number of pointers. -/
def Machine.Aligned (m : Machine ι) : Prop := ptrSize ∣ m.loop.ilcSize

theorem Machine.Aligned.readLen {m : Machine ι} (h : m.Aligned) : ptrSize ∣ m.readLen := by
  unfold Machine.readLen
  obtain hmin | hmin := min_choice (ptrSize * m.loop.pipe.length) m.loop.ilcSize
  · rw [hmin]
    exact ⟨_, rfl⟩
  · rw [hmin]
    exact h

theorem LoopStep.aligned [DecidableEq ι] {m m' : Machine ι} {a : LoopAction ι} (hs : LoopStep m a m')
    (h : m.Aligned) : m'.Aligned := by
  unfold Machine.Aligned at *
  cases hs with
  | ilcGrow hm hfull ok =>
      cases ok with
      | false => exact h
      | true => exact (Nat.dvd_mod_iff ⟨2 ^ 61, rfl⟩).mpr (Dvd.dvd.mul_right h 2)
  | ilcRead =>
      unfold Machine.readIlc
      split
      · exact h
      · exact h
  | @addIlc ilc _ ok =>
      cases ok with
      | true => exact h
      | false => exact h
  | _ => exact h

/-! ### Runs from `alloc_loop` -/

/-- What `alloc_loop` makes. -/
structure Machine.Fresh (m : Machine ι) : Prop where
  stopped : m.loop.stopped = false
  sent : m.sent = []
  aligned : m.Aligned
  batchRead : m.BatchRead

theorem LoopStart.fresh {m : Machine ι} (h : LoopStart m) : m.Fresh := by
  cases h with
  | @alloc size ilcFd ilcIo pageSize capacity reallocOk ctlOk now mem expires callback loop hpage h =>
      unfold allocLoop at h
      split at h
      · simp only [Option.bind_eq_bind, Option.bind_eq_some_iff] at h
        obtain ⟨fds, -, ⟨fds', ret⟩, -, h⟩ := h
        split at h
        · cases h
        · cases h
          exact ⟨rfl, rfl, hpage, Machine.batchRead_of_none rfl⟩
      · cases h

theorem run_aligned [DecidableEq ι] {m m' : Machine ι} {as : List (LoopAction ι)}
    (hrun : Run LoopStep m as m') (h : m.Aligned) : m'.Aligned :=
  hrun.invariant (P := fun _ => True) (fun _ _ _ hs _ => hs.aligned) (fun _ _ => trivial) h

theorem run_batchRead [DecidableEq ι] {m m' : Machine ι} {as : List (LoopAction ι)}
    (hrun : Run LoopStep m as m') (h : m.BatchRead) : m'.BatchRead :=
  hrun.invariant (P := fun _ => True) (fun _ _ _ hs _ => hs.batchRead) (fun _ _ => trivial) h

theorem mem_accepted {as : List (LoopAction ι)} {ilc : Ilc} :
    ilc ∈ accepted as ↔ .addIlc ilc true ∈ as := by
  unfold accepted
  rw [List.mem_filterMap]
  constructor
  · rintro ⟨a, ha, hilc⟩
    split at hilc
    · cases hilc
      exact ha
    · cases hilc
  · exact fun h => ⟨_, h, rfl⟩

/-! ### Sample runs -/

/-- A loop with room for four descriptors, on a machine with pages of 4096 bytes. -/
def newLoop : RunLoop ℕ where
  stopped := false
  fds := ⟨⟨[some .empty, some .empty, some .empty, some ⟨some ⟨0, true⟩, none⟩]⟩, 4, 1,
    Epoll.set (fun _ => none) 3 (some ⟨true, false⟩)⟩
  eev := []
  eevSize := 4
  timers := allocTimers ⟨0, 0⟩ (fun _ => ⟨none, .red, none, none⟩) (fun _ => ⟨0, 0⟩) fun _ => true
  ilcFd := 3
  ilcIo := ⟨0, true⟩
  ilc := []
  ilcSize := 4096
  pipe := []
  capacity := 65536

/-- `newLoop` before `run_loop`. -/
def newMachine : Machine ℕ := ⟨newLoop, .idle, 0, []⟩

theorem newMachine_start : LoopStart newMachine :=
  by
  have h : allocLoop 4 3 ⟨0, true⟩ 4096 65536 true true newLoop.timers = some newLoop := rfl
  exact .alloc ⟨512, rfl⟩ h

/-- A `__run_timers` without timers. -/
theorem run_noTimers [DecidableEq ι] {loop : RunLoop ι} (hgoing : loop.stopped = false)
    (hnext : loop.timers.next = none) (second : Bool) (n : ℤ) (fired : List Ilc) :
    Run LoopStep ⟨loop, .clock second, n, fired⟩ [.gettimeofday loop.timers.realtime, .step]
      ⟨loop, if second then .epollWait (-1) else .dispatch 0, n, fired⟩ := by
  have hpass : Prog.Returns (runTimersPass loop.timers) (.done (-1)) := by
    unfold runTimersPass
    rw [hnext]
    exact Prog.returns_pure.mpr rfl
  have hclock : LoopStep ⟨loop, .clock second, n, fired⟩ (.gettimeofday loop.timers.realtime)
      ⟨loop, .timers second, n, fired⟩ := .clock rfl _
  have hret : LoopStep ⟨loop, .timers second, n, fired⟩ .step
      ⟨loop, (⟨loop, .timers second, n, fired⟩ : Machine ι).afterTimers second (-1), n, fired⟩ :=
    .timersReturn rfl hpass
  rw [Machine.afterTimers, hgoing] at hret
  exact .cons hclock (.single hret)

/-- One turn without timers and events up to `epoll_wait`, and the next one to its batch. -/
theorem run_firstBatch [DecidableEq ι] {loop : RunLoop ι} {events : List EpollEvent}
    (hgoing : loop.stopped = false) (hnext : loop.timers.next = none) (hsize : loop.eevSize ≠ 0)
    (he : Reports loop events) (fired : List Ilc) : ∃ as, Run LoopStep ⟨loop, .idle, 0, fired⟩ as
      ⟨{ loop with eev := events }, .dispatch 0, events.length, fired⟩ ∧ ∀ c ret, .io c ret ∉ as := by
  let batch : RunLoop ι := { loop with eev := events }
  have hrun : LoopStep ⟨loop, .idle, 0, fired⟩ .runLoop ⟨loop, .test, 0, fired⟩ := .runLoop rfl
  have htest : ∀ (l : RunLoop ι) n, l.stopped = false → LoopStep ⟨l, .test, n, fired⟩ .step
      ⟨l, .clock false, n, fired⟩ := by
    intro l n hl
    have hstep := @LoopStep.test ι _ ⟨l, .test, n, fired⟩ rfl
    rw [hl] at hstep
    exact hstep
  have hnone : LoopStep ⟨loop, .dispatch 0, 0, fired⟩ .step ⟨loop, .eevGrow, 0, fired⟩ := .dispatch rfl
  have hkeep : LoopStep ⟨loop, .eevGrow, 0, fired⟩ .step ⟨loop, .clock true, 0, fired⟩ := by
    apply LoopStep.eevKeep rfl
    show (0 : ℤ) ≠ loop.eevSize
    omega
  have hwait : LoopStep ⟨loop, .epollWait (-1), 0, fired⟩ (.epollWait (some events))
      ⟨batch, .test, events.length, fired⟩ := .epollWait rfl he
  have hturn := (Run.cons hrun (.single (htest loop 0 hgoing))).append (run_noTimers hgoing hnext false 0 fired)
  have hturn := (hturn.append (.cons hnone (.single hkeep))).append (run_noTimers hgoing hnext true 0 fired)
  have hturn := hturn.append (.cons hwait (.single (htest batch _ hgoing)))
  exact ⟨_, hturn.append (@run_noTimers ι _ batch hgoing hnext false _ fired), by simp⟩

/-- The event of a message. -/
def ilcEvent : EpollEvent := ⟨true, false, false, 3⟩

/-- After `add_ilc` for each of some messages. -/
def Machine.post (m : Machine ι) (msgs : List Ilc) : Machine ι :=
  { m with loop := { m.loop with pipe := m.loop.pipe ++ msgs } }

theorem Machine.post_cons (m : Machine ι) (ilc : Ilc) (msgs : List Ilc) :
    m.post (ilc :: msgs) = (m.addIlc ilc true).post msgs := by
  unfold post addIlc
  rw [if_pos rfl]
  simp only [List.append_assoc, List.singleton_append]

theorem run_post [DecidableEq ι] (m : Machine ι) (msgs : List Ilc) (hcb : ∀ ilc ∈ msgs, ilc.callback = true)
    (hroom : ptrSize * (m.loop.pipe.length + msgs.length) ≤ m.loop.capacity) :
    ∃ as, Run LoopStep m as (m.post msgs) := by
  induction msgs generalizing m with
  | nil =>
      refine ⟨[], ?_⟩
      unfold Machine.post
      rw [List.append_nil]
      exact .nil m
  | cons ilc msgs ih =>
      rw [List.forall_mem_cons] at hcb
      simp only [List.length_cons, ptrSize] at hroom
      have hstep : LoopStep m (.addIlc ilc true) (m.addIlc ilc true) := by
        refine .addIlc hcb.1 fun _ => ?_
        simp only [ptrSize]
        omega
      have hroom' : ptrSize * ((m.loop.pipe ++ [ilc]).length + msgs.length) ≤ m.loop.capacity := by
        rw [List.length_append, List.length_singleton]
        simp only [ptrSize]
        omega
      obtain ⟨as, hrun⟩ := ih (m.addIlc ilc true) hcb.2 hroom'
      rw [Machine.post_cons]
      exact ⟨_, .cons hstep hrun⟩

/-- A new loop with messages in the pipe comes to the `read` for them. -/
theorem newMachine_reads {msgs : List Ilc} (hcb : ∀ ilc ∈ msgs, ilc.callback = true)
    (hroom : ptrSize * msgs.length ≤ 65536) : ∃ as, Run LoopStep newMachine as
      ⟨{ newLoop with eev := [ilcEvent], pipe := msgs }, .ilcRead (.entry 0 .ioRead), 1, []⟩ := by
  obtain ⟨posts, hpost⟩ := run_post newMachine msgs hcb (by
    show ptrSize * (0 + msgs.length) ≤ 65536
    rwa [Nat.zero_add])
  have hreports : Reports { newLoop with pipe := msgs } [ilcEvent] := by
    have hlen : [ilcEvent].length ≤ newLoop.eevSize := by decide
    refine ⟨hlen, ?_⟩
    simp only [List.forall_mem_singleton]
    exact ⟨⟨true, false⟩, rfl, fun _ => rfl, fun h => Bool.noConfusion h⟩
  have hsize : newLoop.eevSize ≠ 0 := by decide
  obtain ⟨as, hturn, -⟩ := @run_firstBatch ℕ _ { newLoop with pipe := msgs } _ rfl rfl hsize hreports []
  let loop : RunLoop ℕ := { newLoop with eev := [ilcEvent], pipe := msgs }
  have hevent : LoopStep ⟨loop, .dispatch 0, 1, []⟩ .step ⟨loop, .event 0 .ioWrite, 1, []⟩ :=
    .dispatch (i := 0) rfl
  have hwrite : LoopStep ⟨loop, .event 0 .ioWrite, 1, []⟩ .step ⟨loop, .event 0 .ioRead, 1, []⟩ :=
    @LoopStep.noEvent ℕ _ _ 0 .ioWrite ilcEvent rfl rfl rfl
  have hcall : LoopStep ⟨loop, .event 0 .ioRead, 1, []⟩ .step ⟨loop, .ilcRead (.entry 0 .ioRead), 1, []⟩ :=
    @LoopStep.callIo ℕ _ _ 0 .ioRead ilcEvent ⟨some ⟨0, true⟩, none⟩ ⟨0, true⟩ rfl rfl rfl rfl rfl
      fun _ => rfl
  exact ⟨_, (hpost.append hturn).append (.cons hevent (.cons hwrite (.single hcall)))⟩

/-- The rest of a batch, if its callbacks return. -/
theorem run_fires [DecidableEq ι] {loop : RunLoop ι} {r : IlcReturn} {len : ℕ} {e : ℤ} {done todo fired : List Ilc}
    (hilc : loop.ilc = done ++ todo) : ∃ as,
      Run LoopStep ⟨loop, .ilcFire r done.length loop.ilc.length len, e, fired⟩ as
        ⟨loop, .ilcFire r loop.ilc.length loop.ilc.length len, e, fired ++ todo⟩ := by
  induction todo generalizing done fired with
  | nil =>
      rw [List.append_nil] at hilc
      rw [hilc, List.append_nil]
      exact ⟨[], .nil _⟩
  | cons ilc todo ih =>
      have hget : loop.ilc[done.length]? = some ilc := by
        rw [hilc, List.getElem?_append_right (Nat.le_refl _), Nat.sub_self]
        rfl
      have hlt : done.length < loop.ilc.length := by
        rw [hilc, List.length_append, List.length_cons]
        omega
      have hfire : LoopStep ⟨loop, .ilcFire r done.length loop.ilc.length len, e, fired⟩ .step
          ⟨loop, .ilcCallback r done.length loop.ilc.length len, e, fired ++ [ilc]⟩ := .ilcFire rfl hlt hget
      have hret : LoopStep ⟨loop, .ilcCallback r done.length loop.ilc.length len, e, fired ++ [ilc]⟩ .ret
          ⟨loop, .ilcFire r (done ++ [ilc]).length loop.ilc.length len, e, fired ++ [ilc]⟩ := by
        rw [List.length_append]
        exact .ilcRet rfl
      obtain ⟨as, hrun⟩ := @ih (done ++ [ilc]) (fired ++ [ilc]) (by rw [hilc, List.append_cons])
      rw [List.append_assoc] at hrun
      exact ⟨_, .cons hfire (.cons hret hrun)⟩

/-- `newLoop` in the callback of a message. -/
def calledMachine : Machine ℕ where
  loop := { newLoop with eev := [ilcEvent], ilc := [⟨1, true⟩] }
  pc := .ilcCallback (.entry 0 .ioRead) 0 1 8
  eevNum := 1
  fired := [⟨1, true⟩]

/-- A run to the message. -/
theorem newMachine_called : ∃ as, Run LoopStep newMachine as calledMachine := by
  have hcb : ∀ ilc ∈ [(⟨1, true⟩ : Ilc)], ilc.callback = true := by decide
  obtain ⟨as, hrun⟩ := newMachine_reads hcb (by decide)
  let loop : RunLoop ℕ := { newLoop with eev := [ilcEvent], pipe := [⟨1, true⟩] }
  let loop' : RunLoop ℕ := { newLoop with eev := [ilcEvent], ilc := [⟨1, true⟩] }
  have hread : LoopStep ⟨loop, .ilcRead (.entry 0 .ioRead), 1, []⟩ .step
      ⟨loop', .ilcFire (.entry 0 .ioRead) 0 1 8, 1, []⟩ := by
    have hlen : (⟨loop, .ilcRead (.entry 0 .ioRead), 1, []⟩ : Machine ℕ).readLen = 8 := rfl
    have h := @LoopStep.ilcRead ℕ _ ⟨loop, .ilcRead (.entry 0 .ioRead), 1, []⟩ _ rfl ⟨1, hlen⟩
    unfold Machine.readIlc at h
    rw [hlen] at h
    exact h
  have hfire : LoopStep ⟨loop', .ilcFire (.entry 0 .ioRead) 0 1 8, 1, []⟩ .step calledMachine :=
    .ilcFire rfl (by decide) rfl
  exact ⟨_, hrun.append (.cons hread (.single hfire))⟩

/-- One message more than a buffer of 4096 bytes takes. -/
def manyMessages : List Ilc := List.replicate 512 ⟨2, true⟩ ++ [⟨3, true⟩]

theorem manyMessages_length : manyMessages.length = 513 := by
  unfold manyMessages
  rw [List.length_append, List.length_replicate, List.length_singleton]

theorem manyMessages_callback : ∀ ilc ∈ manyMessages, ilc.callback = true := by
  unfold manyMessages
  intro ilc hilc
  rw [List.mem_append, List.mem_replicate, List.mem_singleton] at hilc
  obtain ⟨-, rfl⟩ | rfl := hilc
  · rfl
  · rfl

/-! ### All runs -/

/-- **Messages are delivered at most once, in order and without loss.**  In every state that a loop
reaches, with `add_ilc` called by any thread at any time, what has been fired, the rest of the batch
and the pipe are together what `add_ilc` has accepted, in that order.  A message that it has never
accepted is not fired, and a `read` takes a whole number of pointers. -/
theorem ilc_run_conserved [DecidableEq ι] {m₀ m : Machine ι} {as : List (LoopAction ι)}
    (hstart : LoopStart m₀) (hrun : Run LoopStep m₀ as m) :
    m.fired ++ m.batch ++ m.loop.pipe = accepted as ∧
      (∀ ilc, .addIlc ilc true ∉ as → ilc ∉ m.fired) ∧ ptrSize ∣ m.readLen := by
  have hfresh := hstart.fresh
  have hsent : m.sent = accepted as := by rw [run_sent hrun, hfresh.sent, List.nil_append]
  refine ⟨hsent, fun ilc hno hfired => hno ?_, (run_aligned hrun hfresh.aligned).readLen⟩
  rw [← mem_accepted, ← hsent]
  exact List.mem_append_left _ (List.mem_append_left _ hfired)

/-- The first read of `manyMessages` takes all but the last one, their callbacks return, and the buffer grows. -/
theorem ilc_run_conserved_grown : ∃ (as : List (LoopAction ℕ)) (m : Machine ℕ), Run LoopStep newMachine as m ∧
    m.loop.ilcSize = 8192 ∧ m.fired = List.replicate 512 ⟨2, true⟩ ∧ m.loop.pipe = [⟨3, true⟩] ∧
      m.fired ++ m.batch ++ m.loop.pipe = accepted as ∧
      (∀ ilc, .addIlc ilc true ∉ as → ilc ∉ m.fired) ∧ ptrSize ∣ m.readLen := by
  obtain ⟨as, hrun⟩ := newMachine_reads manyMessages_callback (by rw [manyMessages_length]; decide)
  let loop : RunLoop ℕ := { newLoop with eev := [ilcEvent], pipe := manyMessages }
  let read : List Ilc := List.replicate 512 ⟨2, true⟩
  let loop' : RunLoop ℕ := { newLoop with eev := [ilcEvent], ilc := read, pipe := [⟨3, true⟩] }
  have hread : LoopStep ⟨loop, .ilcRead (.entry 0 .ioRead), 1, []⟩ .step
      ⟨loop', .ilcFire (.entry 0 .ioRead) 0 loop'.ilc.length 4096, 1, []⟩ := by
    have hlen : (⟨loop, .ilcRead (.entry 0 .ioRead), 1, []⟩ : Machine ℕ).readLen = 4096 := by
      show min (ptrSize * manyMessages.length) 4096 = 4096
      rw [manyMessages_length]
      rfl
    have h := @LoopStep.ilcRead ℕ _ ⟨loop, .ilcRead (.entry 0 .ioRead), 1, []⟩ _ rfl ⟨512, hlen⟩
    have htake : manyMessages.take 512 = read := List.take_left' List.length_replicate
    have hdrop : manyMessages.drop 512 = [⟨3, true⟩] := List.drop_left' List.length_replicate
    have hn : loop'.ilc.length = 512 := List.length_replicate
    have hloop : loop' = { loop with ilc := loop.pipe.take (4096 / ptrSize), pipe := loop.pipe.drop (4096 / ptrSize) } := by
      show _ = { loop with ilc := manyMessages.take 512, pipe := manyMessages.drop 512 }
      rw [htake, hdrop]
    unfold Machine.readIlc at h
    rw [hlen] at h
    rw [hn, hloop]
    exact h
  obtain ⟨bs, hfires⟩ := @run_fires ℕ _ loop' (.entry 0 .ioRead) 4096 1 [] read [] rfl
  have hfired : LoopStep ⟨loop', .ilcFire (.entry 0 .ioRead) loop'.ilc.length loop'.ilc.length 4096, 1, [] ++ read⟩ .step
      ⟨loop', .ilcGrow (.entry 0 .ioRead) 4096, 1, [] ++ read⟩ := .ilcFired rfl (Nat.lt_irrefl _)
  have hgrow : LoopStep ⟨loop', .ilcGrow (.entry 0 .ioRead) 4096, 1, [] ++ read⟩ (.realloc true)
      ⟨{ loop' with ilcSize := u64 (4096 * 2) }, .dispatch 1, 1, [] ++ read⟩ :=
    @LoopStep.ilcGrow ℕ _ ⟨loop', .ilcGrow (.entry 0 .ioRead) 4096, 1, [] ++ read⟩ _ 4096 rfl rfl true
  have hsize : u64 (4096 * 2) = 8192 := by decide
  have hall := (hrun.append (.single hread)).append (hfires.append (.cons hfired (.single hgrow)))
  exact ⟨_, _, hall, hsize, rfl, rfl, ilc_run_conserved newMachine_start hall⟩

end Libls.Loop
