import Mathlib.Tactic
import Libls.RunLoopIlc

/-! # Accesses to the descriptor table

`add_io` enlarges the table once, to twice its size, before its first access to a slot.  This covers
the descriptor if and only if it is below twice the size (`IoCall.inRange_iff`), and nothing sees to
that: `alloc_loop` itself registers the descriptor that the kernel gives it, whatever its `size` is.
The other accesses, those of `run_loop` among them, are in range in every run (`fd_run_inRange`). -/

namespace Libls.Loop

/-! ### The accesses of a call -/

/-- The table at the first access of `add_io` to a slot; no table if `realloc` has failed before. -/
def FdTable.enlarged (reallocOk : Bool) (s : FdTable) (fd : Fd) : Option (Option FdTable) :=
  if s.fdSize ≤ fd then growFds reallocOk s else some (some s)

theorem addIo_eq (reallocOk ctlOk : Bool) (s : FdTable) (fd : Fd) (event : IoEvent) (io : Io) :
    addIo reallocOk ctlOk s fd event io =
      if io.callback then (s.enlarged reallocOk fd).bind fun t =>
        match t with
        | none => some (s, -1)
        | some s => registerIo ctlOk s fd event io
      else none := by
  unfold addIo FdTable.enlarged
  split
  · split <;> rfl
  · rfl

/-- No access of a call to `loop->fd` is out of range: in `add_io` the table covers the descriptor when
its slots are accessed, and has only empty slots behind the old ones. -/
def IoCall.InRange (s : FdTable) : IoCall → Prop
  | addIo fd _ _ reallocOk _ =>
      ∃ t, s.enlarged reallocOk fd = some t ∧ ∀ s' ∈ t, fd < s'.fdSize ∧ s.Grown s'
  | delIo fd _ | closeIo fd => fd < s.fdSize → fd < s.fd.size

/-- The descriptor is below twice the size of the table, unless `realloc` fails. -/
def IoCall.Fits (s : FdTable) : IoCall → Prop
  | addIo fd _ _ reallocOk _ => reallocOk = true → fd < 2 * s.fdSize
  | delIo _ _ | closeIo _ => True

variable {ι : Type} {s s' : FdTable} {fd : Fd}

theorem FdTable.Valid.grown_self (h : s.Valid) : s.Grown s :=
  ⟨h.size, le_rfl, fun _ _ => rfl, fun i hi hlt => absurd hlt (by omega)⟩

/-- The table covers the descriptor if and only if the descriptor fits. -/
theorem IoCall.inRange_iff (h : s.Valid) (c : IoCall) : c.InRange s ↔ c.Fits s := by
  cases c with
  | addIo fd event io reallocOk ctlOk =>
      show (∃ t, s.enlarged reallocOk fd = some t ∧ ∀ s' ∈ t, fd < s'.fdSize ∧ s.Grown s') ↔
        (reallocOk = true → fd < 2 * s.fdSize)
      rw [FdTable.enlarged]
      rcases Nat.lt_or_ge fd s.fdSize with hlt | hge
      · rw [if_neg (by omega)]
        have hin : ∃ t, some (some s) = some t ∧ ∀ s' ∈ t, fd < s'.fdSize ∧ s.Grown s' := by
          refine ⟨some s, rfl, ?_⟩
          rintro _ ⟨⟩
          exact ⟨hlt, h.grown_self⟩
        exact iff_of_true hin fun _ => by omega
      · rw [if_pos hge]
        cases reallocOk with
        | false =>
            refine iff_of_true ⟨none, rfl, ?_⟩ nofun
            rintro _ ⟨⟩
        | true =>
            obtain ⟨s', hs', hg, hsize, -⟩ := FdTable.growFds_grown hge
            rw [hs', ← hsize]
            constructor
            · rintro ⟨t, ht, hin⟩ -
              exact (hin s' (Option.some.inj ht ▸ rfl)).1
            · intro hfit
              refine ⟨some s', rfl, ?_⟩
              rintro _ ⟨⟩
              exact ⟨hfit rfl, hg⟩
  | delIo fd event | closeIo fd =>
      have hin : fd < s.fdSize → fd < s.fd.size := fun hlt => by rwa [h.size]
      exact iff_of_true hin trivial

/-! ### Runs -/

/-- What `add_io` has checked when it returns. -/
theorem registerIo_result {ctlOk : Bool} {event : IoEvent} {io : Io} {ret : ℤ}
    (h : registerIo ctlOk s fd event io = some (s', ret)) :
    fd < s.fd.size ∧ (s.slots fd).io event = none ∧ s'.fdSize = s.fdSize := by
  unfold registerIo at h
  obtain ⟨slots, hread, h⟩ := Option.bind_eq_some_iff.mp h
  have hslots : s.slots fd = slots := by rw [FdTable.slots, hread, Option.getD_some]
  rw [hslots]
  split at h
  · cases h
  · next hfree =>
      refine ⟨Block.lt_of_read hread, Option.not_isSome_iff_eq_none.mp hfree, ?_⟩
      dsimp only at h
      generalize epollCtl ctlOk s.epoll _ fd _ = p at h
      split at h
      · cases h
        rfl
      · obtain ⟨newFd, -, h⟩ := Option.bind_eq_some_iff.mp h
        cases h
        rfl

theorem delIo_fdSize {event : IoEvent} (h : delIo s fd event = some s') : s'.fdSize = s.fdSize := by
  unfold delIo at h
  split at h
  · obtain ⟨slots, -, h⟩ := Option.bind_eq_some_iff.mp h
    split at h
    · dsimp only at h
      generalize epollCtl true s.epoll _ fd _ = p at h
      split at h
      · cases h
      · obtain ⟨newFd, -, h⟩ := Option.bind_eq_some_iff.mp h
        cases h
        rfl
    · cases h
      rfl
  · cases h
    rfl

theorem closeIo_fdSize (h : closeIo s fd = some s') : s'.fdSize = s.fdSize := by
  unfold closeIo at h
  split at h
  · obtain ⟨slots, -, h⟩ := Option.bind_eq_some_iff.mp h
    split at h
    · obtain ⟨newFd, -, h⟩ := Option.bind_eq_some_iff.mp h
      cases h
      rfl
    · cases h
      rfl
  · cases h
    rfl

theorem FdTable.InStep.enlarged (h : s.InStep) {reallocOk : Bool}
    (he : s.enlarged reallocOk fd = some (some s')) : s'.InStep ∧ s.fdSize ≤ s'.fdSize ∧ s'.slots = s.slots := by
  unfold FdTable.enlarged at he
  split at he
  · next hge =>
      cases reallocOk with
      | false => cases he
      | true =>
          obtain ⟨s₁, hs₁, hg, -, hstep, hslots, -⟩ := h.grow hge
          rw [hs₁] at he
          cases he
          exact ⟨hstep, hg.le, hslots⟩
  · cases he
    exact ⟨h, le_rfl, rfl⟩

/-- The slots after a call that has returned `ret`. -/
def IoCall.slotsAfter (slots : Fd → IoFd) : IoCall → ℤ → Fd → IoFd
  | addIo fd event io _ _, ret =>
      if ret = 0 then Function.update slots fd ((slots fd).setIo event (some io)) else slots
  | delIo fd event, _ => Function.update slots fd ((slots fd).setIo event none)
  | closeIo fd, _ => Function.update slots fd .empty

/-- What a call that has a result leaves: the table and the kernel are in step, and the table does not
shrink.  `add_io` has found the slot empty. -/
structure IoCall.Leaves (c : IoCall) (ret : ℤ) (s s' : FdTable) : Prop where
  inStep : s'.InStep
  le : s.fdSize ≤ s'.fdSize
  slots : s'.slots = c.slotsAfter s.slots ret
  free : ∀ fd event io reallocOk ctlOk, c = .addIo fd event io reallocOk ctlOk → ret = 0 →
    (s.slots fd).io event = none

theorem IoCall.leaves_of_run (h : s.InStep) {c : IoCall} {ret : ℤ} (hrun : c.run s = some (s', ret)) :
    c.Leaves ret s s' := by
  cases c with
  | addIo fd event io reallocOk ctlOk =>
      rw [run, addIo_eq] at hrun
      split at hrun
      · obtain ⟨t, ht, hrest⟩ := Option.bind_eq_some_iff.mp hrun
        cases t with
        | none =>
            cases hrest
            refine ⟨h, le_rfl, rfl, ?_⟩
            rintro _ _ _ _ _ - ⟨⟩
        | some s₁ =>
            obtain ⟨h₁, hle, hslots⟩ := h.enlarged ht
            obtain ⟨hfd, hfree, hsize⟩ := registerIo_result hrest
            rw [h₁.valid.size] at hfd
            obtain ⟨s₂, ret₂, hret, hstep, hcase⟩ := FdTable.registerIo_spec h₁ hfd hfree ctlOk io
            cases hret.symm.trans hrest
            rw [hslots] at hfree
            refine ⟨hstep, by omega, ?_, ?_⟩
            · rw [← hslots]
              obtain ⟨-, rfl, rfl⟩ | ⟨-, rfl, hset⟩ := hcase
              · rfl
              · exact hset
            · rintro _ _ _ _ _ ⟨⟩ -
              exact hfree
      · cases hrun
  | delIo fd event =>
      obtain ⟨s₁, hs₁, hstep, hslots⟩ := FdTable.delIo_spec h fd event
      rw [run, hs₁] at hrun
      cases hrun
      refine ⟨hstep, (delIo_fdSize hs₁).ge, hslots, ?_⟩
      rintro _ _ _ _ _ ⟨⟩
  | closeIo fd =>
      obtain ⟨s₁, hs₁, hstep, hslots⟩ := FdTable.closeIo_spec h fd
      rw [run, hs₁] at hrun
      cases hrun
      refine ⟨hstep, (closeIo_fdSize hs₁).ge, hslots, ?_⟩
      rintro _ _ _ _ _ ⟨⟩

/-! ### The entries of a batch -/

/-- What a step does to the table and the entries that `epoll_wait` has written. -/
theorem LoopStep.fds_cases [DecidableEq ι] {m m' : Machine ι} {a : LoopAction ι} (hs : LoopStep m a m') :
    (m'.loop.fds = m.loop.fds ∧ m'.loop.eev = m.loop.eev) ∨
      (∃ c ret, a = .io c ret ∧ c.run m.loop.fds = some (m'.loop.fds, ret) ∧ m'.loop.eev = m.loop.eev) ∨
      ∃ events, a = .epollWait (some events) ∧ Reports m.loop events ∧ m'.loop.fds = m.loop.fds ∧
        m'.loop.eev = events := by
  cases hs with
  | @io h c fds ret hrun => exact .inr (.inl ⟨c, ret, rfl, hrun, rfl⟩)
  | epollWait h he => exact .inr (.inr ⟨_, rfl, he, rfl, rfl⟩)
  | ilcRead h =>
      unfold Machine.readIlc
      split
      · exact .inl ⟨rfl, rfl⟩
      · exact .inl ⟨rfl, rfl⟩
  | @addIlc ilc _ ok =>
      cases ok with
      | true => exact .inl ⟨rfl, rfl⟩
      | false => exact .inl ⟨rfl, rfl⟩
  | _ => exact .inl ⟨rfl, rfl⟩

/-- The table is in step with the kernel and covers the entries of the batch. -/
structure Machine.Covered (m : Machine ι) : Prop where
  inStep : m.loop.fds.InStep
  entry : ∀ e ∈ m.loop.eev, e.fd < m.loop.fds.fdSize

/-- A descriptor of the interest set is in the table. -/
theorem FdTable.InStep.lt_of_epoll (h : s.InStep) {ev : Events} (he : s.epoll fd = some ev) :
    fd < s.fdSize := by
  refine h.valid.lt_of_ne fun hempty => ?_
  rw [h.epoll, IoFd.events_eq_none.mpr hempty] at he
  cases he

theorem LoopStep.covered [DecidableEq ι] {m m' : Machine ι} {a : LoopAction ι} (hs : LoopStep m a m')
    (h : m.Covered) : m'.Covered := by
  obtain ⟨hfds, heev⟩ | ⟨c, ret, -, hrun, heev⟩ | ⟨events, -, hrep, hfds, heev⟩ := hs.fds_cases
  · exact ⟨by rw [hfds]; exact h.inStep, by rw [hfds, heev]; exact h.entry⟩
  · have hleaves := IoCall.leaves_of_run h.inStep hrun
    exact ⟨hleaves.inStep, fun e he => (h.entry e (heev ▸ he)).trans_le hleaves.le⟩
  · refine ⟨by rw [hfds]; exact h.inStep, fun e he => ?_⟩
    rw [heev] at he
    obtain ⟨ev, hev, -⟩ := hrep.2 e he
    rw [hfds]
    exact h.inStep.lt_of_epoll hev

theorem LoopStart.covered {m : Machine ι} (h : LoopStart m) : m.Covered := by
  cases h with
  | @alloc size ilcFd ilcIo pageSize capacity reallocOk ctlOk now mem expires callback loop hpage h =>
      unfold allocLoop at h
      split at h
      · simp only [Option.bind_eq_bind, Option.bind_eq_some_iff] at h
        obtain ⟨fds, hfds, ⟨fds', ret⟩, hadd, h⟩ := h
        split at h
        · cases h
        · cases h
          have hrun : (IoCall.addIo ilcFd .ioRead ilcIo reallocOk ctlOk).run fds = some (fds', ret) := hadd
          exact ⟨(IoCall.leaves_of_run (allocFds_inStep hfds) hrun).inStep, nofun⟩
      · cases h

theorem run_covered [DecidableEq ι] {m m' : Machine ι} {as : List (LoopAction ι)}
    (hrun : Run LoopStep m as m') (h : m.Covered) : m'.Covered :=
  hrun.invariant (P := fun _ => True) (fun _ _ _ hs _ => hs.covered) (fun _ _ => trivial) h

/-! ### Which accesses are in range -/

/-- **When the table covers the descriptor.**  In the table that `alloc_loop` makes and in every state
that a loop reaches, before and while it runs, the accesses of the next call are in range if and only
if the descriptor fits: the calls of `del_io` and `close_io` always are, one of `add_io` when its
descriptor is below twice the size of the table.  And `run_loop` looks only at slots of the table. -/
theorem fd_run_inRange [DecidableEq ι] :
    (∀ size > 0, ∀ s, allocFds size = some s → ∀ c : IoCall, c.InRange s ↔ c.Fits s) ∧
      ∀ (m₀ m : Machine ι) (as : List (LoopAction ι)), LoopStart m₀ → Run LoopStep m₀ as m →
        (∀ c : IoCall, c.InRange m.loop.fds ↔ c.Fits m.loop.fds) ∧
          ∀ (i : ℕ) (e : EpollEvent), m.loop.eev[i]? = some e →
            e.fd < m.loop.fds.fdSize ∧ e.fd < m.loop.fds.fd.size := by
  constructor
  · intro size _ s hs c
    exact IoCall.inRange_iff (allocFds_inStep hs).valid c
  · intro m₀ m as hstart hrun
    have hcov := run_covered hrun hstart.covered
    refine ⟨fun c => IoCall.inRange_iff hcov.inStep.valid c, fun i e he => ?_⟩
    have hlt := hcov.entry e (List.mem_of_getElem? he)
    exact ⟨hlt, by rwa [hcov.inStep.valid.size]⟩

theorem fd_run_inRange_four :
    (IoCall.addIo 7 .ioRead ⟨1, true⟩ true true).InRange newMachine.loop.fds ∧
      ¬ (IoCall.addIo 8 .ioRead ⟨1, true⟩ true true).InRange newMachine.loop.fds := by
  obtain ⟨hcall, -⟩ := (@fd_run_inRange ℕ _).2 newMachine newMachine [] newMachine_start (.nil _)
  rw [hcall, hcall]
  refine ⟨fun _ => ?_, fun h => absurd (h rfl) ?_⟩
  · show 7 < 2 * 4
    omega
  · show ¬ 8 < 2 * 4
    omega

/-- The registration of `ilc_fd` in `alloc_loop(1)`: the table has two slots when slot 4 is accessed. -/
theorem fd_access_outside : ∃ s, allocFds 1 = some s ∧
    ¬ (IoCall.addIo 4 .ioRead ⟨0, true⟩ true true).InRange s ∧
    (∃ s', s.enlarged true 4 = some (some s') ∧ s'.fdSize = 2 ∧ s'.fd.read (4 : Fd) = none) ∧
    ∀ timers : TimerLoop ℕ, allocLoop 1 4 ⟨0, true⟩ 4096 65536 true true timers = none := by
  refine ⟨⟨⟨[some .empty]⟩, 1, 0, fun _ => none⟩, rfl, ?_,
    ⟨⟨⟨[some .empty, some .empty]⟩, 2, 0, fun _ => none⟩, rfl, rfl, rfl⟩, fun _ => rfl⟩
  rintro ⟨t, ht, hin⟩
  cases ht
  have hlt := (hin _ rfl).1
  exact absurd hlt (by decide)

end Libls.Loop
