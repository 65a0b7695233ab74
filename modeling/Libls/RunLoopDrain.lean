import Mathlib.Tactic
import Libls.RunLoopStop

/-! # The last read of a loop

When `run_loop` gets to `out` it calls `__ilc_callback` once, and that reads at most `loop->ilc_size`
bytes.  `run_loop_drains` says when this takes all that was in the pipe when the loop was stopped.  The
buffer has the size of a page and the pipe holds more, so there are runs that leave messages in the
pipe (`run_loop_leaves`), against the comment at `out` and the assertion in `free_loop`. -/

namespace Libls.Loop

variable {ι : Type}

/-! ### From the stop to the end -/

/-- No message is accepted. -/
def LoopAction.Quiet (a : LoopAction ι) : Prop := ∀ ilc, a ≠ .addIlc ilc true

theorem quiet_of_accepted {as : List (LoopAction ι)} (h : accepted as = []) : ∀ a ∈ as, a.Quiet := by
  rintro a ha ilc rfl
  have hmem : ilc ∈ accepted as := mem_accepted.mpr ha
  rw [h] at hmem
  cases hmem

/-- A quiet step takes nothing out of the pipe unless it is a `read`. -/
theorem LoopStep.pipe_eq [DecidableEq ι] {m m' : Machine ι} {a : LoopAction ι} (hs : LoopStep m a m')
    (ha : a.Quiet) (hpc : ∀ r, m.pc ≠ .ilcRead r) : m'.loop.pipe = m.loop.pipe := by
  obtain ⟨hq, -⟩ | ⟨r, hr, -⟩ | ⟨-, -, -, -, hp, -⟩ | ⟨ilc, rfl, -⟩ := hs.ilc_cases
  · exact hq.pipe
  · exact absurd hr (hpc r)
  · exact hp
  · exact absurd rfl (ha ilc)

/-- A loop that is stopped before `out`. -/
structure Machine.Leaving (P : List Ilc) (m : Machine ι) : Prop where
  stopped : m.Stopped
  stopping : m.pc.Stopping
  pipe : m.loop.pipe = P

/-- A stopped loop leaves for `out` with the pipe as it is. -/
theorem LoopStep.leaving [DecidableEq ι] {m m' : Machine ι} {a : LoopAction ι} {P : List Ilc}
    (hs : LoopStep m a m') (ha : a.Quiet) (h : m.Leaving P) :
    m'.Leaving P ∨ m'.pc = .out ∧ m'.loop.pipe = P := by
  have hstep := hs.stopStep h.stopped
  have hpipe : m'.loop.pipe = P := by
    rw [hs.pipe_eq ha, h.pipe]
    intro r hr
    have := h.stopping
    rw [hr] at this
    exact this
  rcases hstep.out h.stopping with hstop | hout
  · exact .inl ⟨hstep.stopped, hstop, hpipe⟩
  · exact .inr ⟨hout, hpipe⟩

/-- The places after the last `read`. -/
def Pc.Drained : Pc ι → Prop
  | ilcFire .run _ _ _ | ilcCallback .run _ _ _ | ilcGrow .run _ | finished => True
  | _ => False

/-- A loop from `out` on, where the pipe was `P` and the buffer had `size` bytes. -/
def Machine.Draining (P : List Ilc) (size : ℕ) (m : Machine ι) : Prop :=
  (m.pc = .out ∨ m.pc = .ilcRead .run) ∧ m.loop.pipe = P ∧ m.loop.ilcSize = size ∨
    m.pc.Drained ∧ m.loop.pipe = P.drop (min (ptrSize * P.length) size / ptrSize)

/-- A call of the program leaves the place and the size of the buffer as they are. -/
theorem LoopStep.of_api [DecidableEq ι] {m m' : Machine ι} {a : LoopAction ι} (hs : LoopStep m a m')
    (ha : a.Api) : m'.pc = m.pc ∧ m'.loop.ilcSize = m.loop.ilcSize := by
  cases hs with
  | timer | io | stopLoop => exact ⟨rfl, rfl⟩
  | @addIlc ilc _ ok =>
      cases ok with
      | true => exact ⟨rfl, rfl⟩
      | false => exact ⟨rfl, rfl⟩
  | _ => exact ha.elim

/-- After the last `read` there is no other. -/
theorem LoopStep.drained [DecidableEq ι] {m m' : Machine ι} {a : LoopAction ι} (hs : LoopStep m a m')
    (h : m.pc.Drained) : m'.pc.Drained := by
  by_cases ha : a.Api
  · rw [(hs.of_api ha).1]
    exact h
  · cases hs with
    | @ilcFire r i n len ilc hm | @ilcRet r i n len hm | @ilcFired r i n len hm | @ilcGrow r len hm
    | @ilcKeep r len hm =>
        rw [hm] at h
        cases r with
        | entry => exact h.elim
        | run => exact trivial
    | timer | io | stopLoop | addIlc => exact absurd trivial ha
    | runLoop hm | test hm | clock hm | fire hm | timersReturn hm | timerRet hm | dispatch hm
    | noEvent hm | noIo hm | callIo hm | ioRet hm | eevGrow hm | eevKeep hm | epollWait hm
    | epollFail hm | out hm | ilcRead hm =>
        rw [hm] at h
        exact h.elim

theorem LoopStep.draining [DecidableEq ι] {m m' : Machine ι} {a : LoopAction ι} {P : List Ilc} {size : ℕ}
    (hs : LoopStep m a m') (ha : a.Quiet) (h : m.Draining P size) : m'.Draining P size := by
  obtain ⟨hpc, rfl, rfl⟩ | ⟨hpc, hpipe⟩ := h
  · by_cases hapi : a.Api
    · obtain ⟨hsame, hsize⟩ := hs.of_api hapi
      refine .inl ⟨by rwa [hsame], ?_, hsize⟩
      obtain ⟨hq, -⟩ | ⟨r, -, rfl, -⟩ | ⟨-, -, -, -, hp, -⟩ | ⟨ilc, rfl, -⟩ := hs.ilc_cases
      · exact hq.pipe
      · exact hapi.elim
      · exact hp
      · exact absurd rfl (ha ilc)
    · cases hs with
      | out => exact .inl ⟨.inr rfl, rfl, rfl⟩
      | @ilcRead r hm =>
          obtain rfl : r = .run := by
            rw [hm] at hpc
            simpa using hpc
          refine .inr ?_
          unfold Machine.readIlc Machine.readLen
          split
          · next hlen => exact ⟨trivial, by rw [hlen]; rfl⟩
          · exact ⟨trivial, rfl⟩
      | timer | io | stopLoop | addIlc => exact absurd trivial hapi
      | runLoop hm | test hm | clock hm | fire hm | timersReturn hm | timerRet hm | dispatch hm
      | noEvent hm | noIo hm | callIo hm | ioRet hm | eevGrow hm | eevKeep hm | epollWait hm
      | epollFail hm | ilcFire hm | ilcRet hm | ilcFired hm | ilcGrow hm | ilcKeep hm =>
          simp [hm] at hpc
  · refine .inr ⟨hs.drained hpc, ?_⟩
    rw [hs.pipe_eq ha, hpipe]
    intro r hr
    rw [hr] at hpc
    exact hpc

/-- What the last read leaves. -/
theorem drained_of_out [DecidableEq ι] {m m' : Machine ι} {as : List (LoopAction ι)}
    (hpc : m.pc = .out) (hrun : Run LoopStep m as m') (has : accepted as = [])
    (hfin : m'.pc = .finished) : m'.loop.pipe = m.loop.pipe.drop (m.readLen / ptrSize) := by
  have h : m'.Draining m.loop.pipe m.loop.ilcSize :=
    hrun.invariant (fun _ _ _ hs => hs.draining) (quiet_of_accepted has) (.inl ⟨.inl hpc, rfl, rfl⟩)
  obtain ⟨hpc', -⟩ | ⟨-, hpipe⟩ := h
  · simp [hfin] at hpc'
  · exact hpipe

/-! ### A running loop is not at its end -/

namespace Machine

variable {m : Machine ι}

theorem stopped_of_afterTimers {second : Bool} {ms : ℤ} (h : (m.afterTimers second ms).Ending) :
    m.loop.stopped = true := by
  unfold afterTimers at h
  split at h
  · assumption
  · split at h
    · exact h.elim
    · exact h.elim

theorem stopped_of_afterIo {i : ℕ} {event : IoEvent} (h : (m.afterIo i event).Ending) :
    m.loop.stopped = true := by
  unfold afterIo at h
  split at h
  · assumption
  · cases event with
    | ioRead => exact h.elim
    | ioWrite => exact h.elim

/-- The loop is at its end only if it is stopped. -/
def EndsStopped (m : Machine ι) : Prop := m.pc.Ending → m.loop.stopped = true

end Machine

theorem LoopStep.endsStopped [DecidableEq ι] {m m' : Machine ι} {a : LoopAction ι}
    (hs : LoopStep m a m') (h : m.EndsStopped) : m'.EndsStopped := by
  intro hend
  cases hs with
  | test hm =>
      by_cases hstop : m.loop.stopped = true
      · exact hstop
      · rw [if_neg hstop] at hend
        exact hend.elim
  | timersReturn hm => exact Machine.stopped_of_afterTimers hend
  | timerRet hm =>
      by_cases hstop : m.loop.stopped = true
      · exact hstop
      · rw [if_neg hstop] at hend
        exact hend.elim
  | dispatch hm =>
      split at hend
      · exact hend.elim
      · exact hend.elim
  | @noEvent i event | @noIo i event =>
      cases event with
      | ioRead => exact hend.elim
      | ioWrite => exact hend.elim
  | callIo hm =>
      unfold Machine.callIo at hend
      split at hend
      · exact hend.elim
      · exact hend.elim
  | ioRet hm => exact Machine.stopped_of_afterIo hend
  | out hm => exact h (by rw [hm]; trivial)
  | @ilcRead r hm =>
      cases r with
      | run =>
          have hstop := h (by rw [hm]; trivial)
          unfold Machine.readIlc
          split
          · exact hstop
          · exact hstop
      | entry i event =>
          unfold Machine.readIlc at *
          split at hend
          · next hlen =>
              rw [if_pos hlen]
              exact Machine.stopped_of_afterIo hend
          · exact hend.elim
  | @ilcFire r i n len ilc hm | @ilcRet r i n len hm | @ilcFired r i n len hm =>
      cases r with
      | entry => exact hend.elim
      | run => exact h (by rw [hm]; trivial)
  | @ilcGrow r len hm | @ilcKeep r len hm =>
      cases r with
      | entry => exact Machine.stopped_of_afterIo hend
      | run => exact h (by rw [hm]; trivial)
  | timer | io => exact h hend
  | stopLoop => rfl
  | @addIlc ilc _ ok =>
      cases ok with
      | true => exact h hend
      | false => exact h hend
  | runLoop | clock | fire | eevGrow | eevKeep | epollWait | epollFail => exact hend.elim

theorem LoopStart.endsStopped {m : Machine ι} (h : LoopStart m) : m.EndsStopped := by
  intro hend
  cases h with
  | alloc => exact hend.elim

/-- Where a running loop can be stopped. -/
theorem Machine.EndsStopped.stopping [DecidableEq ι] {m m' : Machine ι} (h : m.EndsStopped)
    (hrunning : m.loop.stopped = false) (hs : LoopStep m .stopLoop m') :
    m'.Leaving m.loop.pipe := by
  have hstopped := hs.stopLoop_stopped
  cases hs with
  | stopLoop hpc =>
      rcases hpc.stopping with hstop | hend
      · exact ⟨hstopped, hstop, rfl⟩
      · rw [h hend] at hrunning
        cases hrunning

/-! ### All messages are fired if they fit into the buffer -/

/-- From the stop to the end, with the messages that are left in the pipe. -/
theorem Machine.Leaving.left [DecidableEq ι] {m m' : Machine ι} {as : List (LoopAction ι)} {P : List Ilc}
    (h : m.Leaving P) (hrun : Run LoopStep m as m') (has : accepted as = []) (hfin : m'.pc = .finished) :
    ∃ as₁ as₂ m₂, as = as₁ ++ as₂ ∧ Run LoopStep m as₁ m₂ ∧ m₂.pc = .out ∧ Run LoopStep m₂ as₂ m' ∧
      m'.loop.pipe = P.drop (min (ptrSize * P.length) m₂.loop.ilcSize / ptrSize) := by
  have hn : ¬ m'.Leaving P := by
    intro hl
    have := hl.stopping
    rw [hfin] at this
    exact this
  obtain ⟨m₂, as₁, as₂, rfl, h₁, ⟨hout, rfl⟩, h₂⟩ :=
    hrun.first (fun _ _ _ hs => hs.leaving) (quiet_of_accepted has) h hn
  have has₂ : accepted as₂ = [] := by
    unfold accepted at *
    rw [List.filterMap_append] at has
    exact (List.append_eq_nil_iff.mp has).2
  exact ⟨as₁, as₂, m₂, rfl, h₁, hout, h₂, drained_of_out hout h₂ has₂ hfin⟩

theorem drop_min_eq_nil {P : List Ilc} {size : ℕ} :
    P.drop (min (ptrSize * P.length) size / ptrSize) = [] ↔ ptrSize * P.length ≤ size := by
  rw [List.drop_eq_nil_iff]
  simp only [ptrSize]
  omega

/-- **When the last read takes all messages.**  A loop is stopped, and from then on nothing is posted.
When `run_loop` has returned, all messages that were in the pipe have been fired, once and in order,
and the pipe is empty, if and only if they fit into the buffer that the loop has at `out`. -/
theorem run_loop_drains [DecidableEq ι] {m m₀ m₁ m₃ : Machine ι} {as bs : List (LoopAction ι)}
    (hstart : LoopStart m) (hrun : Run LoopStep m as m₀) (hrunning : m₀.loop.stopped = false)
    (hstop : LoopStep m₀ .stopLoop m₁) (hrun' : Run LoopStep m₁ bs m₃) (hquiet : accepted bs = [])
    (hfin : m₃.pc = .finished) :
    ∃ bs₁ bs₂ m₂, bs = bs₁ ++ bs₂ ∧ Run LoopStep m₁ bs₁ m₂ ∧ m₂.pc = .out ∧ Run LoopStep m₂ bs₂ m₃ ∧
      (m₃.fired = m₁.fired ++ m₁.batch ++ m₁.loop.pipe ∧ m₃.loop.pipe = [] ↔
        ptrSize * m₁.loop.pipe.length ≤ m₂.loop.ilcSize) := by
  have hends : m₀.EndsStopped :=
    hrun.invariant (P := fun _ => True) (fun _ _ _ hs _ => hs.endsStopped) (fun _ _ => trivial)
      hstart.endsStopped
  have hleaving : m₁.Leaving m₁.loop.pipe := by
    have hl := hends.stopping hrunning hstop
    rwa [← hl.pipe] at hl
  obtain ⟨bs₁, bs₂, m₂, hbs, h₁, hout, h₂, hpipe⟩ := hleaving.left hrun' hquiet hfin
  refine ⟨bs₁, bs₂, m₂, hbs, h₁, hout, h₂, ?_⟩
  rw [← drop_min_eq_nil, ← hpipe]
  have hsent : m₃.fired ++ m₃.loop.pipe = m₁.fired ++ m₁.batch ++ m₁.loop.pipe := by
    have hnone : m₃.batch = [] := Machine.batch_eq_nil (by rw [hfin]; rfl)
    have := run_sent hrun'
    unfold Machine.sent at this
    rwa [hquiet, hnone, List.append_nil, List.append_nil] at this
  constructor
  · exact fun h => h.2
  · intro hnil
    rw [hnil, List.append_nil] at hsent
    exact ⟨hsent, hnil⟩

/-- Two messages are in the pipe when the callback stops the loop. -/
theorem run_loop_drains_two : ∃ (m₁ : Machine ℕ) (bs : List (LoopAction ℕ)) (m₃ : Machine ℕ),
    m₁.loop.pipe = [⟨2, true⟩, ⟨3, true⟩] ∧ Run LoopStep m₁ bs m₃ ∧ m₃.pc = .finished ∧
      ∃ bs₁ bs₂ m₂, bs = bs₁ ++ bs₂ ∧ Run LoopStep m₁ bs₁ m₂ ∧ m₂.pc = .out ∧ Run LoopStep m₂ bs₂ m₃ ∧
      (m₃.fired = m₁.fired ++ m₁.batch ++ m₁.loop.pipe ∧ m₃.loop.pipe = [] ↔
        ptrSize * m₁.loop.pipe.length ≤ m₂.loop.ilcSize) := by
  let msgs : List Ilc := [⟨2, true⟩, ⟨3, true⟩]
  obtain ⟨as, hcalled⟩ := newMachine_called
  have hcb : ∀ ilc ∈ msgs, ilc.callback = true := by decide
  obtain ⟨posts, hpost⟩ := run_post calledMachine msgs hcb (by decide)
  let m₁ : Machine ℕ := { stoppedMachine with loop := { stoppedMachine.loop with pipe := msgs } }
  have hstop : LoopStep (calledMachine.post msgs) .stopLoop m₁ := .stopLoop trivial
  have hread : m₁.BatchRead := by
    intro i n hin
    cases hin
    decide
  obtain ⟨bs, m₃, hrun, hquiet, hfin⟩ := hstop.stopLoop_stopped.finishes hread ⟨512, rfl⟩
  have hbs : accepted bs = [] :=
    List.eq_nil_iff_forall_not_mem.mpr fun ilc hilc => hquiet _ (mem_accepted.mp hilc) trivial
  exact ⟨m₁, bs, m₃, rfl, hrun, hfin,
    run_loop_drains newMachine_start (hcalled.append hpost) rfl hstop hrun hbs hfin⟩

/-! ### A run that leaves a message -/

/-- **A run that leaves a message in the pipe.**  513 messages are posted and the loop is stopped in a
callback, on a machine with pages of 4096 bytes; the last message is not fired. -/
theorem run_loop_leaves : ∃ (as bs : List (LoopAction ℕ)) (m₀ m₁ m₃ : Machine ℕ),
    LoopStart newMachine ∧ Run LoopStep newMachine as m₀ ∧ m₀.loop.stopped = false ∧
      LoopStep m₀ .stopLoop m₁ ∧ m₁.loop.pipe = manyMessages ∧ Run LoopStep m₁ bs m₃ ∧
      accepted bs = [] ∧ m₃.pc = .finished ∧ m₃.loop.pipe = [⟨3, true⟩] ∧ ⟨3, true⟩ ∉ m₃.fired := by
  obtain ⟨as₀, hcalled⟩ := newMachine_called
  obtain ⟨as₁, hpost⟩ := run_post calledMachine manyMessages manyMessages_callback (by rw [manyMessages_length]; decide)
  let loop : RunLoop ℕ := { calledMachine.loop with stopped := true, pipe := manyMessages }
  have hstop : LoopStep (calledMachine.post manyMessages) .stopLoop
      ⟨loop, .ilcCallback (.entry 0 .ioRead) 0 1 8, 1, [⟨1, true⟩]⟩ := .stopLoop trivial
  have hret : LoopStep ⟨loop, .ilcCallback (.entry 0 .ioRead) 0 1 8, 1, [⟨1, true⟩]⟩ .ret
      ⟨loop, .ilcFire (.entry 0 .ioRead) 1 1 8, 1, [⟨1, true⟩]⟩ := .ilcRet rfl
  have hfired : LoopStep ⟨loop, .ilcFire (.entry 0 .ioRead) 1 1 8, 1, [⟨1, true⟩]⟩ .step
      ⟨loop, .ilcGrow (.entry 0 .ioRead) 8, 1, [⟨1, true⟩]⟩ := .ilcFired rfl (by decide)
  have hkeep : LoopStep ⟨loop, .ilcGrow (.entry 0 .ioRead) 8, 1, [⟨1, true⟩]⟩ .step
      ⟨loop, .out, 1, [⟨1, true⟩]⟩ :=
    @LoopStep.ilcKeep ℕ _ _ (.entry 0 .ioRead) 8 rfl (by decide)
  let atOut : Machine ℕ := ⟨loop, .out, 1, [⟨1, true⟩]⟩
  have hstopped : atOut.Stopped := ⟨rfl, .inr trivial⟩
  obtain ⟨bs, m₃, hrun, hquiet, hfin⟩ :=
    hstopped.finishes (Machine.batchRead_of_none rfl) ⟨512, rfl⟩
  have hbs : accepted bs = [] := by
    refine List.eq_nil_iff_forall_not_mem.mpr fun ilc hilc => ?_
    exact hquiet _ (mem_accepted.mp hilc) trivial
  have hpipe : m₃.loop.pipe = [⟨3, true⟩] := by
    have hread : atOut.readLen / ptrSize = 512 := by
      show min (ptrSize * manyMessages.length) 4096 / ptrSize = 512
      rw [manyMessages_length]
      rfl
    rw [drained_of_out rfl hrun hbs hfin, hread]
    exact List.drop_left' List.length_replicate
  refine ⟨_, _, _, _, m₃, newMachine_start, hcalled.append hpost, rfl, hstop, rfl,
    .cons hret (.cons hfired (.cons hkeep hrun)), hbs, hfin, hpipe, ?_⟩
  have hfired : m₃.fired = ⟨1, true⟩ :: List.replicate 512 ⟨2, true⟩ := by
    have hsent := run_sent hrun
    have hnone : m₃.batch = [] := Machine.batch_eq_nil (by rw [hfin]; rfl)
    unfold Machine.sent at hsent
    rw [hbs, hpipe, hnone, List.append_nil, List.append_nil] at hsent
    exact List.append_cancel_right hsent
  rw [hfired, List.mem_cons, List.mem_replicate]
  decide

end Libls.Loop
