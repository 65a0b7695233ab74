import Mathlib.Tactic
import Libls.FdTable
import Libls.Library.Runs

/-! # The descriptor table and the kernel stay in step

`FdTable.slots` is the table without its bound: outside the table nothing is registered, so that
enlarging it changes nothing.  Each operation either leaves the slots, the counter and the
interest set as they are, or changes the slots of one descriptor, and then the entry of the kernel
and the counter follow (`InStep.update`). -/

namespace Libls.Loop

/-! ### Slots -/

/-- The entry that the kernel should have. -/
def IoFd.events (slots : IoFd) : Option Events :=
  if slots = .empty then none else some ⟨slots.ioRead.isSome, slots.ioWrite.isSome⟩

namespace IoFd

variable {slots : IoFd} {event : IoEvent} {io : Option Io}

theorem eq_empty (event : IoEvent) :
    slots = .empty ↔ slots.io event = none ∧ slots.io event.other = none := by
  obtain ⟨r, w⟩ := slots
  cases event <;> simp [empty, IoFd.io, IoEvent.other, and_comm]

@[simp] theorem io_setIo : (slots.setIo event io).io event = io := by cases event <;> rfl

@[simp] theorem io_setIo_other : (slots.setIo event io).io event.other = slots.io event.other := by
  cases event <;> rfl

theorem events_eq_none : slots.events = none ↔ slots = .empty := by
  unfold events
  split <;> simp [*]

/-- The bits that `add_io` asks for. -/
theorem events_setIo (h : slots.io event = none) (io : Io) :
    (slots.setIo event (some io)).events =
      some (if (slots.io event.other).isSome then ⟨true, true⟩
        else if event = .ioRead then ⟨true, false⟩ else ⟨false, true⟩) := by
  obtain ⟨r, w⟩ := slots
  have hne : IoFd.setIo ⟨r, w⟩ event (some io) ≠ .empty := by
    cases event <;> simp [setIo, empty]
  rw [events, if_neg hne]
  cases event with
  | ioRead => cases w <;> rfl
  | ioWrite => cases r <;> rfl

/-- The bits that `del_io` leaves. -/
theorem events_clearIo (h : (slots.io event.other).isSome) :
    (slots.setIo event none).events =
      some (if event = .ioRead then ⟨false, true⟩ else ⟨true, false⟩) := by
  obtain ⟨r, w⟩ := slots
  have hne : IoFd.setIo ⟨r, w⟩ event none ≠ .empty := by
    rw [Ne, eq_empty event, io_setIo_other]
    simp [Option.isSome_iff_ne_none.mp h]
  rw [events, if_neg hne]
  cases event with
  | ioRead =>
      cases w with
      | none => cases h
      | some io => rfl
  | ioWrite =>
      cases r with
      | none => cases h
      | some io => rfl

end IoFd

namespace FdTable

/-- The slots of a descriptor; outside the table they are empty. -/
def slots (s : FdTable) (fd : Fd) : IoFd := (s.fd.read fd).getD .empty

/-- The number of descriptors with a slot that is set. -/
def active (slots : Fd → IoFd) : ℕ := (Finset.univ.filter fun fd => slots fd ≠ .empty).card

/-- The table is a block of initialised slots. -/
structure Valid (s : FdTable) : Prop where
  size : s.fd.size = s.fdSize
  bound : s.fdSize < 2 ^ 60
  filled : ∀ i < s.fdSize, ∃ v, s.fd.read i = some v

/-- The kernel and the counter agree with the slots. -/
structure InStep (s : FdTable) : Prop where
  valid : s.Valid
  epoll : ∀ fd, s.epoll fd = (s.slots fd).events
  activated : s.activated = active s.slots

variable {s : FdTable} {fd : Fd} {v : IoFd}

theorem Valid.read (h : s.Valid) (hfd : fd < s.fdSize) : s.fd.read fd = some (s.slots fd) := by
  obtain ⟨v, hv⟩ := h.filled fd hfd
  rw [slots, hv, Option.getD_some]

theorem Valid.slots_outside (h : s.Valid) (hfd : s.fdSize ≤ fd) : s.slots fd = .empty := by
  cases hv : s.fd.read fd with
  | none => rw [slots, hv, Option.getD_none]
  | some v =>
      have := Block.lt_of_read hv
      rw [h.size] at this
      omega

/-- Changing the slots of one descriptor. -/
theorem Valid.write (h : s.Valid) (hfd : fd < s.fdSize) (v : IoFd) (epoll : Epoll) (activated : ℕ) :
    ∃ newFd, s.fd.write fd v = some newFd ∧
      Valid { s with fd := newFd, epoll := epoll, activated := activated } ∧
      slots { s with fd := newFd, epoll := epoll, activated := activated } =
        Function.update s.slots fd v := by
  obtain ⟨b, hb, hsize, hread⟩ := Block.write_of_lt (by rw [h.size]; exact hfd : fd < s.fd.size) v
  refine ⟨b, hb, ⟨hsize.trans h.size, h.bound, fun i hi => ?_⟩, ?_⟩
  · show ∃ v, b.read i = some v
    rw [hread]
    split
    · exact ⟨v, rfl⟩
    · exact h.filled i hi
  · funext fd'
    show (b.read fd').getD .empty = _
    rw [hread]
    by_cases he : fd' = fd
    · rw [if_pos (congrArg _ he), he, Function.update_self]
      rfl
    · rw [if_neg (fun hv => he (Fin.ext hv)), Function.update_of_ne he]
      rfl

/-- A table that has the slots of `s`, and empty ones behind them. -/
structure Grown (s s' : FdTable) : Prop where
  size : s'.fd.size = s'.fdSize
  le : s.fdSize ≤ s'.fdSize
  old : ∀ i < s.fdSize, s'.fd.read i = s.fd.read i
  new : ∀ i, s.fdSize ≤ i → i < s'.fdSize → s'.fd.read i = some .empty

/-- Enlarging the table. -/
theorem growFds_grown (hfd : s.fdSize ≤ fd) :
    ∃ s', growFds true s = some (some s') ∧ s.Grown s' ∧ s'.fdSize = 2 * s.fdSize ∧
      s'.activated = s.activated ∧ s'.epoll = s.epoll := by
  have hfd' := fd.isLt
  have hu : u64 (s.fdSize * 2) = 2 * s.fdSize := by
    rw [u64_of_lt (by omega)]
    omega
  have hu' : u64 (2 * s.fdSize * 16) / 16 = 2 * s.fdSize := by
    rw [u64_of_lt (by omega)]
    omega
  have hroom : s.fdSize + (List.replicate s.fdSize IoFd.empty).length ≤
      (s.fd.realloc (2 * s.fdSize)).size := by
    rw [List.length_replicate, Block.size_realloc]
    omega
  obtain ⟨b, hb, hsize, hhas, hread⟩ := Block.writeList_of_le hroom
  rw [Block.size_realloc] at hsize
  refine ⟨{ s with fd := b, fdSize := 2 * s.fdSize }, ?_, ⟨hsize, ?_, fun i hi => ?_, fun i hi hlt => ?_⟩,
    rfl, rfl, rfl⟩
  · simp [growFds, hu, hu', hb]
  · show s.fdSize ≤ 2 * s.fdSize
    omega
  · show b.read i = s.fd.read i
    rw [hread i (.inl hi), Block.read_realloc (by omega)]
  · have hlt' : i < 2 * s.fdSize := hlt
    have hk : i - s.fdSize < (List.replicate s.fdSize IoFd.empty).length := by
      rw [List.length_replicate]
      omega
    have := hhas (i - s.fdSize) hk
    rwa [Nat.add_sub_cancel' hi, List.getElem?_eq_getElem hk, List.getElem_replicate] at this

variable {s' : FdTable}

theorem Valid.grown (h : s.Valid) (hg : s.Grown s') (hbound : s'.fdSize < 2 ^ 60) : s'.Valid := by
  refine ⟨hg.size, hbound, fun i hi => ?_⟩
  rcases Nat.lt_or_ge i s.fdSize with hlt | hge
  · rw [hg.old i hlt]
    exact h.filled i hlt
  · exact ⟨_, hg.new i hge hi⟩

/-- The slots are those of before. -/
theorem Valid.slots_grown (h : s.Valid) (hg : s.Grown s') : s'.slots = s.slots := by
  funext fd
  rcases Nat.lt_or_ge fd s.fdSize with hlt | hge
  · unfold slots
    rw [hg.old fd hlt]
  · rw [h.slots_outside hge]
    rcases Nat.lt_or_ge fd s'.fdSize with hlt' | hge'
    · rw [slots, hg.new fd hge hlt', Option.getD_some]
    · cases hv : s'.fd.read fd with
      | none => rw [slots, hv, Option.getD_none]
      | some v =>
          have := Block.lt_of_read hv
          rw [hg.size] at this
          omega

theorem InStep.grow (h : s.InStep) (hfd : s.fdSize ≤ fd) :
    ∃ s', growFds true s = some (some s') ∧ s.Grown s' ∧ s'.fdSize = 2 * s.fdSize ∧ s'.InStep ∧
      s'.slots = s.slots ∧ s'.activated = s.activated ∧ s'.epoll = s.epoll := by
  obtain ⟨s', hs', hg, hsize, hact, hepoll⟩ := growFds_grown hfd
  have hslots := h.valid.slots_grown hg
  have hfd' := fd.isLt
  refine ⟨s', hs', hg, hsize, ⟨h.valid.grown hg (by omega), ?_, ?_⟩, hslots, hact, hepoll⟩
  · rw [hepoll, hslots]
    exact h.epoll
  · rw [hact, hslots]
    exact h.activated

/-! ### The counter -/

theorem active_le (f : Fd → IoFd) : active f ≤ 2 ^ 31 := by
  refine (Finset.card_filter_le _ _).trans ?_
  rw [Finset.card_univ, Fintype.card_fin]

/-- A descriptor whose last slot is cleared. -/
theorem active_clear {f : Fd → IoFd} (h : f fd ≠ .empty) :
    active f = active (Function.update f fd .empty) + 1 := by
  have hset : (Finset.univ.filter fun fd' => f fd' ≠ .empty) =
      insert fd (Finset.univ.filter fun fd' => Function.update f fd .empty fd' ≠ .empty) := by
    ext fd'
    by_cases he : fd' = fd
    · simp [he, h]
    · simp [he]
  rw [active, hset, Finset.card_insert_of_notMem (by simp), active]

/-- A descriptor whose first slot is set. -/
theorem active_set {f : Fd → IoFd} (h : f fd = .empty) (hv : v ≠ .empty) :
    active (Function.update f fd v) = active f + 1 := by
  have := @active_clear fd (Function.update f fd v) (by rwa [Function.update_self])
  rwa [Function.update_idem, ← h, Function.update_eq_self] at this

/-- A descriptor that stays active. -/
theorem active_keep {f : Fd → IoFd} (h : f fd ≠ .empty) (hv : v ≠ .empty) :
    active (Function.update f fd v) = active f := by
  have h1 := active_clear h
  have h2 := @active_clear fd (Function.update f fd v) (by rwa [Function.update_self])
  rw [Function.update_idem] at h2
  omega

/-! ### The operations -/

/-- A change of the slots of one descriptor that the kernel and the counter follow. -/
theorem InStep.update (h : s.InStep) (hfd : fd < s.fdSize) (v : IoFd) {epoll : Epoll} {activated : ℕ}
    (hepoll : epoll = s.epoll.set fd v.events)
    (hactive : activated = active (Function.update s.slots fd v)) :
    ∃ newFd, s.fd.write fd v = some newFd ∧
      InStep { s with fd := newFd, epoll := epoll, activated := activated } ∧
      slots { s with fd := newFd, epoll := epoll, activated := activated } =
        Function.update s.slots fd v := by
  obtain ⟨newFd, hw, hvalid, hslots⟩ := h.valid.write hfd v epoll activated
  refine ⟨newFd, hw, ⟨hvalid, fun fd' => ?_, ?_⟩, hslots⟩
  · rw [hslots, hepoll]
    by_cases he : fd' = fd
    · rw [he, Function.update_self]
      exact if_pos rfl
    · rw [Function.update_of_ne he]
      exact (if_neg he).trans (h.epoll fd')
  · rw [hslots]
    exact hactive

theorem registerIo_spec (h : s.InStep) (hfd : fd < s.fdSize) {event : IoEvent}
    (hfree : (s.slots fd).io event = none) (ctlOk : Bool) (io : Io) :
    ∃ s' ret, registerIo ctlOk s fd event io = some (s', ret) ∧ s'.InStep ∧
      ((ctlOk = false ∧ ret = -1 ∧ s' = s) ∨ (ctlOk = true ∧ ret = 0 ∧
        s'.slots = Function.update s.slots fd ((s.slots fd).setIo event (some io)))) := by
  have hread := h.valid.read hfd
  have hepoll := h.epoll fd
  have hev := IoFd.events_setIo hfree io
  have hv : (s.slots fd).setIo event (some io) ≠ .empty := by
    rw [Ne, IoFd.eq_empty event, IoFd.io_setIo]
    simp
  cases ctlOk with
  | false =>
      refine ⟨s, -1, ?_, h, .inl ⟨rfl, rfl, rfl⟩⟩
      simp [registerIo, hread, hfree, epollCtl]
  | true =>
      cases hother : (s.slots fd).io event.other with
      | none =>
          have hempty : s.slots fd = .empty := (IoFd.eq_empty event).mpr ⟨hfree, hother⟩
          rw [IoFd.events_eq_none.mpr hempty] at hepoll
          rw [hother] at hev
          have hactive : u64 (s.activated + 1) = active
              (Function.update s.slots fd ((s.slots fd).setIo event (some io))) := by
            have := active_le s.slots
            rw [active_set hempty hv, h.activated, u64_of_lt (by omega)]
          obtain ⟨newFd, hw, hstep, hslots⟩ :=
            h.update hfd ((s.slots fd).setIo event (some io)) rfl hactive
          refine ⟨_, 0, ?_, hstep, .inr ⟨rfl, rfl, hslots⟩⟩
          rw [hev]
          simp [registerIo, hread, hfree, hother, epollCtl, hepoll, hw]
      | some io' =>
          have hne : s.slots fd ≠ .empty := by
            rw [Ne, IoFd.eq_empty event, hother]
            simp
          have hsome : (s.epoll fd).isNone = false := by
            rw [hepoll, Option.isNone_eq_false_iff, Option.isSome_iff_ne_none, Ne, IoFd.events_eq_none]
            exact hne
          rw [hother] at hev
          have hactive : s.activated = active
              (Function.update s.slots fd ((s.slots fd).setIo event (some io))) := by
            rw [active_keep hne hv, h.activated]
          obtain ⟨newFd, hw, hstep, hslots⟩ :=
            h.update hfd ((s.slots fd).setIo event (some io)) rfl hactive
          refine ⟨_, 0, ?_, hstep, .inr ⟨rfl, rfl, hslots⟩⟩
          rw [hev]
          simp [registerIo, hread, hfree, hother, epollCtl, hsome, hw]

/-- `add_io` registers the descriptor, or changes nothing but the size of the table. -/
theorem addIo_spec (h : s.InStep) (hfd : fd < 2 * s.fdSize) {event : IoEvent} {io : Io}
    (hio : io.callback = true) (hfree : (s.slots fd).io event = none) (reallocOk ctlOk : Bool) :
    ∃ s' ret, addIo reallocOk ctlOk s fd event io = some (s', ret) ∧ s'.InStep ∧
      ((ret = -1 ∧ s'.slots = s.slots ∧ s'.activated = s.activated ∧ s'.epoll = s.epoll) ∨
        (ret = 0 ∧ s'.slots = Function.update s.slots fd ((s.slots fd).setIo event (some io)))) := by
  rw [addIo, if_pos hio]
  by_cases hgrow : s.fdSize ≤ fd
  · rw [if_pos hgrow]
    cases reallocOk with
    | false => exact ⟨s, -1, rfl, h, .inl ⟨rfl, rfl, rfl, rfl⟩⟩
    | true =>
        obtain ⟨s₁, hs₁, -, hsize, h₁, hslots, hact, hep⟩ := h.grow hgrow
        obtain ⟨s', ret, hret, hstep, hcase⟩ := registerIo_spec h₁
          (by omega : (fd : ℕ) < s₁.fdSize) (by rw [hslots]; exact hfree) ctlOk io
        refine ⟨s', ret, by rw [hs₁]; exact hret, hstep, ?_⟩
        rcases hcase with ⟨-, hr, rfl⟩ | ⟨-, hr, hs'⟩
        · exact .inl ⟨hr, hslots, hact, hep⟩
        · rw [hslots] at hs'
          exact .inr ⟨hr, hs'⟩
  · rw [if_neg hgrow]
    obtain ⟨s', ret, hret, hstep, hcase⟩ := registerIo_spec h (by omega) hfree ctlOk io
    refine ⟨s', ret, hret, hstep, ?_⟩
    rcases hcase with ⟨-, hr, rfl⟩ | ⟨-, hr, hs'⟩
    · exact .inl ⟨hr, rfl, rfl, rfl⟩
    · exact .inr ⟨hr, hs'⟩

/-- The descriptor of a slot that is set is in the table. -/
theorem Valid.lt_of_ne (h : s.Valid) (hne : s.slots fd ≠ .empty) : fd < s.fdSize := by
  by_contra hfd
  exact hne (h.slots_outside (by omega))

theorem InStep.pred_active (h : s.InStep) (hne : s.slots fd ≠ .empty) :
    pred64 s.activated = active (Function.update s.slots fd .empty) := by
  have := active_clear hne
  rw [pred64, if_neg (by rw [h.activated]; omega), h.activated]
  omega

/-- `del_io` clears a slot, and never calls `abort()`. -/
theorem delIo_spec (h : s.InStep) (fd : Fd) (event : IoEvent) :
    ∃ s', delIo s fd event = some s' ∧ s'.InStep ∧
      s'.slots = Function.update s.slots fd ((s.slots fd).setIo event none) := by
  cases hio : (s.slots fd).io event with
  | none =>
      have hsame : (s.slots fd).setIo event none = s.slots fd := by
        cases event <;> exact congrArg₂ IoFd.mk (by first | exact hio.symm | rfl)
          (by first | exact hio.symm | rfl)
      refine ⟨s, ?_, h, by rw [hsame, Function.update_eq_self]⟩
      unfold delIo
      split
      · rw [h.valid.read ‹_›]
        simp [hio]
      · rfl
  | some io =>
      have hne : s.slots fd ≠ .empty := by
        rw [Ne, IoFd.eq_empty event, hio]
        simp
      have hfd := h.valid.lt_of_ne hne
      have hread := h.valid.read hfd
      have hepoll := h.epoll fd
      have hsome : (s.epoll fd).isNone = false := by
        rw [hepoll, Option.isNone_eq_false_iff, Option.isSome_iff_ne_none, Ne, IoFd.events_eq_none]
        exact hne
      cases hother : (s.slots fd).io event.other with
      | none =>
          have hempty : (s.slots fd).setIo event none = .empty :=
            (IoFd.eq_empty event).mpr ⟨IoFd.io_setIo, by rw [IoFd.io_setIo_other, hother]⟩
          obtain ⟨newFd, hw, hstep, hslots⟩ := h.update hfd .empty rfl (h.pred_active hne)
          refine ⟨_, ?_, hstep, by rw [hempty]; exact hslots⟩
          simp [delIo, hfd, hread, hio, hother, epollCtl, hsome, hempty, hw,
            IoFd.events_eq_none.mpr rfl]
      | some io' =>
          have hev := @IoFd.events_clearIo (s.slots fd) event (by rw [hother]; rfl)
          have hne' : (s.slots fd).setIo event none ≠ .empty := by
            rw [Ne, IoFd.eq_empty event, IoFd.io_setIo_other, hother]
            simp
          have hactive : s.activated = active
              (Function.update s.slots fd ((s.slots fd).setIo event none)) := by
            rw [active_keep hne hne', h.activated]
          obtain ⟨newFd, hw, hstep, hslots⟩ :=
            h.update hfd ((s.slots fd).setIo event none) rfl hactive
          refine ⟨_, ?_, hstep, hslots⟩
          rw [hev]
          simp [delIo, hfd, hread, hio, hother, epollCtl, hsome, hw]

/-- `close_io` with the `close(2)` after it. -/
theorem closeIo_spec (h : s.InStep) (fd : Fd) :
    ∃ s', closeIo s fd = some s' ∧ (closeFd s' fd).InStep ∧
      (closeFd s' fd).slots = Function.update s.slots fd .empty := by
  by_cases hne : s.slots fd = .empty
  · have hclose : closeFd s fd = s := by
      have : s.epoll.set fd none = s.epoll := by
        funext fd'
        unfold Epoll.set
        split
        · rename_i he
          rw [he, h.epoll, IoFd.events_eq_none.mpr hne]
        · rfl
      rw [closeFd, this]
    refine ⟨s, ?_, by rw [hclose]; exact h, by rw [hclose, ← hne, Function.update_eq_self]⟩
    unfold closeIo
    split
    · rw [h.valid.read ‹_›, hne]
      rfl
    · rfl
  · have hfd := h.valid.lt_of_ne hne
    obtain ⟨newFd, hw, hstep, hslots⟩ := h.update hfd .empty rfl (h.pred_active hne)
    have hset : (s.slots fd).ioRead.isSome ∨ (s.slots fd).ioWrite.isSome := by
      by_contra hcon
      rw [not_or, Option.not_isSome_iff_eq_none, Option.not_isSome_iff_eq_none] at hcon
      exact hne (congrArg₂ IoFd.mk hcon.1 hcon.2)
    refine ⟨{ s with fd := newFd, activated := pred64 s.activated }, ?_, hstep, hslots⟩
    rw [closeIo, if_pos hfd, h.valid.read hfd, Option.bind_eq_bind, Option.bind_some, if_pos hset, hw]
    rfl

/-! ### Runs -/

end FdTable

/-- The calls, with the outcome of what the system does for them; `close_io` stands for the pair
of `close_io` and `close(2)`. -/
inductive IoCall where
  | addIo (fd : Fd) (event : IoEvent) (io : Io) (reallocOk ctlOk : Bool)
  | delIo (fd : Fd) (event : IoEvent)
  | closeIo (fd : Fd)

/-- A call, with its return value; 0 where there is none. -/
def IoCall.run (s : FdTable) : IoCall → Option (FdTable × ℤ)
  | addIo fd event io reallocOk ctlOk => Loop.addIo reallocOk ctlOk s fd event io
  | delIo fd event => (Loop.delIo s fd event).map fun s => (s, 0)
  | closeIo fd => (Loop.closeIo s fd).map fun s => (closeFd s fd, 0)

/-- What a caller of `add_io` must see to: the callback is set, the event is not registered yet,
and the table covers the descriptor, if need be after it has been enlarged. -/
def IoCall.Allowed (s : FdTable) : IoCall → Prop
  | addIo fd event io _ _ => io.callback = true ∧ (s.slots fd).io event = none ∧ fd < 2 * s.fdSize
  | delIo _ _ | closeIo _ => True

/-- The states that a loop reaches. -/
inductive IoReachable : FdTable → Prop
  | alloc {size : ℕ} {s : FdTable} (h : allocFds size = some s) : IoReachable s
  | call {s s' : FdTable} {ret : ℤ} (c : IoCall) (h : IoReachable s) (hc : c.Allowed s)
      (hrun : c.run s = some (s', ret)) : IoReachable s'

theorem allocFds_inStep {size : ℕ} {s : FdTable} (h : allocFds size = some s) : s.InStep := by
  unfold allocFds at h
  split at h
  · cases h
    have hread : ∀ i, (Block.mk (List.replicate size (some IoFd.empty))).read i =
        if i < size then some .empty else none := by
      intro i
      rw [Block.read, List.getElem?_replicate]
      split <;> rfl
    have hslots : FdTable.slots ⟨⟨List.replicate size (some .empty)⟩, size, 0, fun _ => none⟩ =
        fun _ => .empty := by
      funext fd
      rw [FdTable.slots, hread]
      split <;> rfl
    refine ⟨⟨List.length_replicate, ?_, fun i hi => ⟨.empty, ?_⟩⟩, fun fd => ?_, ?_⟩
    · show size < 2 ^ 60
      omega
    · rw [hread, if_pos hi]
    · rw [hslots]
      exact (IoFd.events_eq_none.mpr rfl).symm
    · rw [hslots]
      simp [FdTable.active]
  · cases h

/-- Every call has a result and keeps the table and the kernel in step. -/
theorem IoCall.run_spec {s : FdTable} (h : s.InStep) {c : IoCall} (hc : c.Allowed s) :
    ∃ s' ret, c.run s = some (s', ret) ∧ s'.InStep ∧
      (ret = -1 → s'.slots = s.slots ∧ s'.activated = s.activated ∧ s'.epoll = s.epoll) := by
  cases c with
  | addIo fd event io reallocOk ctlOk =>
      obtain ⟨hio, hfree, hfd⟩ := hc
      obtain ⟨s', ret, hret, hstep, hcase⟩ := FdTable.addIo_spec h hfd hio hfree reallocOk ctlOk
      refine ⟨s', ret, hret, hstep, fun hr => ?_⟩
      rcases hcase with ⟨-, hsame⟩ | ⟨hr', -⟩
      · exact hsame
      · omega
  | delIo fd event =>
      obtain ⟨s', hs', hstep, -⟩ := FdTable.delIo_spec h fd event
      exact ⟨s', 0, by rw [IoCall.run, hs']; rfl, hstep, by simp⟩
  | closeIo fd =>
      obtain ⟨s', hs', hstep, -⟩ := FdTable.closeIo_spec h fd
      exact ⟨_, 0, by rw [IoCall.run, hs']; rfl, hstep, by simp⟩

theorem IoReachable.inStep {s : FdTable} (h : IoReachable s) : s.InStep := by
  induction h with
  | alloc h => exact allocFds_inStep h
  | call c _ hc hrun ih =>
      obtain ⟨s', ret, hret, hstep, -⟩ := IoCall.run_spec ih hc
      rw [hrun] at hret
      cases hret
      exact hstep

/-- The claims about a state, in terms of the table and the kernel alone. -/
structure Mirrors (s : FdTable) : Prop where
  absent : ∀ fd, s.epoll fd = none ↔ (s.slots fd).ioRead = none ∧ (s.slots fd).ioWrite = none
  epollin : ∀ fd ev, s.epoll fd = some ev → (ev.epollin = true ↔ (s.slots fd).ioRead ≠ none)
  epollout : ∀ fd ev, s.epoll fd = some ev → (ev.epollout = true ↔ (s.slots fd).ioWrite ≠ none)
  activated : s.activated = (Finset.univ.filter fun fd =>
    (s.slots fd).ioRead ≠ none ∨ (s.slots fd).ioWrite ≠ none).card

theorem IoFd.ne_empty {slots : IoFd} : slots ≠ .empty ↔ slots.ioRead ≠ none ∨ slots.ioWrite ≠ none := by
  rw [Ne, IoFd.eq_empty .ioRead, not_and_or]
  rfl

theorem FdTable.InStep.mirrors {s : FdTable} (h : s.InStep) : Mirrors s := by
  have hev : ∀ fd ev, s.epoll fd = some ev →
      ev = ⟨(s.slots fd).ioRead.isSome, (s.slots fd).ioWrite.isSome⟩ := by
    intro fd ev he
    rw [h.epoll, IoFd.events] at he
    split at he
    · cases he
    · exact (Option.some.inj he).symm
  refine ⟨fun fd => ?_, fun fd ev he => ?_, fun fd ev he => ?_, ?_⟩
  · rw [h.epoll, IoFd.events_eq_none, IoFd.eq_empty .ioRead]
    rfl
  · rw [hev fd ev he, Option.isSome_iff_ne_none]
  · rw [hev fd ev he, Option.isSome_iff_ne_none]
  · rw [h.activated, FdTable.active]
    simp only [IoFd.ne_empty]

/-- **The descriptor table and the kernel stay in step.**  In every state that a loop reaches the
interest set mirrors the slots and `loop->activated` counts the descriptors with a slot that is
set; the next call, whichever it is, has a result (so that `del_io` does not abort), keeps it so,
and when it is an `add_io` that returns -1 it has changed neither slots, counter nor kernel. -/
theorem io_run_mirrors {s : FdTable} (h : IoReachable s) :
    Mirrors s ∧ ∀ c : IoCall, c.Allowed s → ∃ s' ret, c.run s = some (s', ret) ∧ Mirrors s' ∧
      (ret = -1 → s'.slots = s.slots ∧ s'.activated = s.activated ∧ s'.epoll = s.epoll) := by
  refine ⟨h.inStep.mirrors, fun c hc => ?_⟩
  obtain ⟨s', ret, hret, hstep, hfail⟩ := IoCall.run_spec h.inStep hc
  exact ⟨s', ret, hret, hstep.mirrors, hfail⟩

instance IoCall.decidableAllowed (s : FdTable) : (c : IoCall) → Decidable (c.Allowed s)
  | .addIo fd event io _ _ =>
      inferInstanceAs (Decidable (io.callback = true ∧ (s.slots fd).io event = none ∧ fd < 2 * s.fdSize))
  | .delIo _ _ => inferInstanceAs (Decidable True)
  | .closeIo _ => inferInstanceAs (Decidable True)

/-- An allowed call. -/
def IoCall.attempt (s : FdTable) (c : IoCall) : Option FdTable :=
  if c.Allowed s then (c.run s).map Prod.fst else none

theorem IoCall.attempt_reachable {s s' : FdTable} {c : IoCall} (hc : c.attempt s = some s') (h : IoReachable s) :
    IoReachable s' := by
  unfold attempt at hc
  by_cases hallowed : c.Allowed s
  · rw [if_pos hallowed] at hc
    obtain ⟨⟨s', ret⟩, hrun, rfl⟩ := Option.map_eq_some_iff.mp hc
    exact .call c h hallowed hrun
  · rw [if_neg hallowed] at hc
    cases hc

/-- A loop with two descriptors at first: both directions of 0, with an `epoll_ctl` that fails, a table that cannot
be enlarged for 3 and then can, a direction that is deleted, and a descriptor that is closed. -/
theorem io_run_mirrors_calls : ∃ s : FdTable, s.fdSize = 4 ∧ s.activated = 2 ∧ s.epoll 0 = some ⟨false, true⟩ ∧
    s.epoll 1 = none ∧ s.epoll 3 = some ⟨true, true⟩ ∧ Mirrors s ∧
    ∀ c : IoCall, c.Allowed s → ∃ s' ret, c.run s = some (s', ret) ∧ Mirrors s' ∧
      (ret = -1 → s'.slots = s.slots ∧ s'.activated = s.activated ∧ s'.epoll = s.epoll) := by
  let io : Io := ⟨100, true⟩
  obtain ⟨start, halloc⟩ : ∃ s, allocFds 2 = some s := ⟨_, rfl⟩
  have hrun : (([.addIo 0 .ioRead io true true, .addIo 0 .ioWrite io true false, .addIo 0 .ioWrite io true true,
      .addIo 1 .ioRead io true true, .addIo 3 .ioWrite io false true, .addIo 3 .ioWrite io true true,
      .addIo 3 .ioRead io true true, .delIo 0 .ioRead, .closeIo 1].foldlM IoCall.attempt start).map fun s =>
        (s.fdSize, s.activated, s.epoll 0, s.epoll 1, s.epoll 3)) =
      some (4, 2, some ⟨false, true⟩, none, some ⟨true, true⟩) := by
    cases halloc
    decide +kernel
  obtain ⟨s, hsee, h⟩ := Libls.Run.exec_keeps (fun _ _ _ => IoCall.attempt_reachable) _ hrun (.alloc halloc)
  simp only [Prod.mk.injEq] at hsee
  obtain ⟨hsize, hactivated, h0, h1, h3⟩ := hsee
  exact ⟨s, hsize, hactivated, h0, h1, h3, io_run_mirrors h⟩

end Libls.Loop
