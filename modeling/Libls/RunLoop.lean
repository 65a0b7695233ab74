import Libls.Library.Runs
import Libls.FdTableRuns
import Libls.TimerRuns

/-! # The event loop: `run_loop` and `__ilc_callback` of `src/loop.c`

A machine that runs `run_loop`: the state is the loop, the pipe of its messages and the place in the
program, and every step is one statement or one call.  A callback is a place at which the program may
call the functions of the loop, in any order and number, until it returns.

Messages come from any thread at any time: `add_ilc` is a write of one pointer to the pipe, which
keeps the writes in order and accepts one as long as there is room.  `read` takes the first bytes of
the pipe, as many as there are and as the buffer has; there is no step for a read that ends in the
middle of a pointer. -/

namespace Libls.Loop

open LinkedTree Rb

/-! ### The state -/

/-- A `struct epoll_event` as `epoll_wait` reports it. -/
structure EpollEvent where
  epollin : Bool
  epollout : Bool
  /-- `EPOLLHUP | EPOLLERR` -/
  failed : Bool
  fd : Fd
deriving DecidableEq, Repr

/-- The bits that `run_loop` looks at, after `EPOLLHUP` and `EPOLLERR` have been added to both. -/
def EpollEvent.has (e : EpollEvent) : IoEvent → Bool
  | .ioRead => e.epollin || e.failed
  | .ioWrite => e.epollout || e.failed

/-- A pointer to a `struct ilc`: the address, and whether the callback is set. -/
structure Ilc where
  addr : ℕ
  callback : Bool
deriving DecidableEq, Repr

/-- `sizeof(struct ilc *)` -/
abbrev ptrSize : ℕ := 8

/-- A `struct loop` with the pipe behind `ilc_fd`.  `eev` and `ilc` are the entries that the last
`epoll_wait` and the last `read` have written. -/
structure RunLoop (ι : Type) where
  stopped : Bool
  fds : FdTable
  eev : List EpollEvent
  eevSize : ℕ
  timers : TimerLoop ι
  ilcFd : Fd
  ilcIo : Io
  ilc : List Ilc
  ilcSize : ℕ
  pipe : List Ilc
  capacity : ℕ

def stopLoop {ι : Type} (loop : RunLoop ι) : RunLoop ι := { loop with stopped := true }

/-- Where `__ilc_callback` returns to: the entry of a batch for which it was called, or the end of
`run_loop`. -/
inductive IlcReturn where
  | entry (i : ℕ) (event : IoEvent)
  | run
deriving DecidableEq, Repr

/-- A place in the program. -/
inductive Pc (ι : Type) where
  /-- before `run_loop` -/
  | idle
  /-- `while (!loop->stopped)` -/
  | test
  /-- `gettimeofday` in the first or second call of `__run_timers` -/
  | clock (second : Bool)
  /-- `while (loop->next)` -/
  | timers (second : Bool)
  | timerCallback (second : Bool) (timer : ι)
  /-- `i < eev_num` -/
  | dispatch (i : ℕ)
  /-- the test of one bit of the entry `i` -/
  | event (i : ℕ) (event : IoEvent)
  | ioCallback (i : ℕ) (event : IoEvent) (io : Io)
  /-- `eev_num == loop->eev_size` -/
  | eevGrow
  | epollWait (timeout : ℤ)
  /-- `out:` -/
  | out
  /-- `read` in `__ilc_callback` -/
  | ilcRead (r : IlcReturn)
  /-- `i < n` in `__ilc_callback` -/
  | ilcFire (r : IlcReturn) (i n len : ℕ)
  | ilcCallback (r : IlcReturn) (i n len : ℕ)
  /-- `len == loop->ilc_size` -/
  | ilcGrow (r : IlcReturn) (len : ℕ)
  /-- after `run_loop` -/
  | finished
deriving DecidableEq, Repr

/-- The loop, the place in the program with the local variable `eev_num`, and the messages whose
callbacks have been invoked, of which the program keeps no record. -/
structure Machine (ι : Type) where
  loop : RunLoop ι
  pc : Pc ι
  eevNum : ℤ
  fired : List Ilc

/-- The labels of steps: what the system or the program has done. -/
inductive LoopAction (ι : Type) where
  | runLoop
  | step
  | gettimeofday (now : Timeval)
  | realloc (ok : Bool)
  | epollWait (events : Option (List EpollEvent))
  /-- a callback returns -/
  | ret
  | timer (c : TimerCall ι)
  | io (c : IoCall) (ret : ℤ)
  | stopLoop
  /-- `add_ilc`, by any thread -/
  | addIlc (ilc : Ilc) (ok : Bool)

variable {ι : Type}

/-! ### Places -/

/-- The program calls the functions of the loop before `run_loop`, after it and in callbacks. -/
def Pc.InCallback : Pc ι → Prop
  | idle | timerCallback _ _ | ioCallback _ _ _ | ilcCallback _ _ _ _ | finished => True
  | _ => False

namespace Machine

def goto (m : Machine ι) (pc : Pc ι) : Machine ι := { m with pc := pc }

/-- After a call of `__run_timers`, with its value. -/
def afterTimers (m : Machine ι) (second : Bool) (timeout : ℤ) : Pc ι :=
  if m.loop.stopped then .out else if second then .epollWait timeout else .dispatch 0

/-- After one of the two tests for the entry `i`. -/
def nextEvent (i : ℕ) : IoEvent → Pc ι
  | .ioWrite => .event i .ioRead
  | .ioRead => .dispatch (i + 1)

/-- After `io->callback`. -/
def afterIo (m : Machine ι) (i : ℕ) (event : IoEvent) : Pc ι :=
  if m.loop.stopped then .out else nextEvent i event

/-- `io->callback(loop, fd, io)`, which is `__ilc_callback` for `loop->ilc_io`. -/
def callIo (m : Machine ι) (i : ℕ) (event : IoEvent) (io : Io) : Pc ι :=
  if io.addr = m.loop.ilcIo.addr then .ilcRead (.entry i event) else .ioCallback i event io

/-- After `__ilc_callback`. -/
def ilcReturn (m : Machine ι) : IlcReturn → Pc ι
  | .entry i event => m.afterIo i event
  | .run => .finished

/-- The number of bytes that `read(fd, loop->ilc, loop->ilc_size)` takes from the pipe. -/
def readLen (m : Machine ι) : ℕ := min (ptrSize * m.loop.pipe.length) m.loop.ilcSize

/-- The `read` in `__ilc_callback` and the test of its value.  This is what happens if no pointer is
split: the bytes read are the first `n` pointers. -/
def readIlc (m : Machine ι) (r : IlcReturn) : Machine ι :=
  if m.readLen = 0 then m.goto (m.ilcReturn r)
  else
    let n := m.readLen / ptrSize
    { m with
      loop := { m.loop with ilc := m.loop.pipe.take n, pipe := m.loop.pipe.drop n }
      pc := .ilcFire r 0 n m.readLen }

/-- `add_ilc`; it returns 0 if the write is accepted. -/
def addIlc (m : Machine ι) (ilc : Ilc) (ok : Bool) : Machine ι :=
  if ok then { m with loop := { m.loop with pipe := m.loop.pipe ++ [ilc] } } else m

end Machine

/-- The calls of `TimerCall` that are functions of the library. -/
def TimerCall.Api : TimerCall ι → Prop
  | gettimeofday _ | fire _ => False
  | _ => True

/-! ### Steps -/

/-- What `epoll_wait` may report: at most `loop->eev_size` descriptors that are in the interest set,
with events that were asked for or that are always reported. -/
def Reports (loop : RunLoop ι) (events : List EpollEvent) : Prop :=
  events.length ≤ loop.eevSize ∧ ∀ e ∈ events, ∃ ev, loop.fds.epoll e.fd = some ev ∧
    (e.epollin = true → ev.epollin = true) ∧ (e.epollout = true → ev.epollout = true)

/-- The steps of the machine. -/
inductive LoopStep [DecidableEq ι] : Machine ι → LoopAction ι → Machine ι → Prop
  | runLoop {m : Machine ι} (h : m.pc = .idle) :
      LoopStep m .runLoop { m with pc := .test, eevNum := 0 }
  | test {m : Machine ι} (h : m.pc = .test) :
      LoopStep m .step (m.goto (if m.loop.stopped then .out else .clock false))
  -- `__run_timers`
  | clock {m : Machine ι} {second : Bool} (h : m.pc = .clock second) (now : Timeval) :
      LoopStep m (.gettimeofday now) { m with
        loop := { m.loop with timers := { m.loop.timers with realtime := now } }
        pc := .timers second }
  | fire {m : Machine ι} {second : Bool} {timer : ι} {timers : TimerLoop ι}
      (h : m.pc = .timers second)
      (hpass : Prog.Returns (runTimersPass m.loop.timers) (.next (timer, timers))) :
      LoopStep m .step { m with
        loop := { m.loop with timers := timers }, pc := .timerCallback second timer }
  | timersReturn {m : Machine ι} {second : Bool} {ms : ℤ} (h : m.pc = .timers second)
      (hpass : Prog.Returns (runTimersPass m.loop.timers) (.done ms)) :
      LoopStep m .step (m.goto (m.afterTimers second ms))
  | timerRet {m : Machine ι} {second : Bool} {timer : ι} (h : m.pc = .timerCallback second timer) :
      LoopStep m .ret
        (m.goto (if m.loop.stopped then m.afterTimers second (-1) else .timers second))
  -- the events of a batch
  | dispatch {m : Machine ι} {i : ℕ} (h : m.pc = .dispatch i) :
      LoopStep m .step (m.goto (if (i : ℤ) < m.eevNum then .event i .ioWrite else .eevGrow))
  | noEvent {m : Machine ι} {i : ℕ} {event : IoEvent} {e : EpollEvent} (h : m.pc = .event i event)
      (he : m.loop.eev[i]? = some e) (hev : e.has event = false) :
      LoopStep m .step (m.goto (Machine.nextEvent i event))
  | noIo {m : Machine ι} {i : ℕ} {event : IoEvent} {e : EpollEvent} {slots : IoFd}
      (h : m.pc = .event i event) (he : m.loop.eev[i]? = some e) (hev : e.has event = true)
      (hs : m.loop.fds.fd.read e.fd = some slots) (hio : slots.io event = none) :
      LoopStep m .step (m.goto (Machine.nextEvent i event))
  /-- `loop->ilc_io` is private to `src/loop.c`, which registers it for `ilc_fd` only. -/
  | callIo {m : Machine ι} {i : ℕ} {event : IoEvent} {e : EpollEvent} {slots : IoFd} {io : Io}
      (h : m.pc = .event i event) (he : m.loop.eev[i]? = some e) (hev : e.has event = true)
      (hs : m.loop.fds.fd.read e.fd = some slots) (hio : slots.io event = some io)
      (hilc : io.addr = m.loop.ilcIo.addr → e.fd = m.loop.ilcFd) :
      LoopStep m .step (m.goto (m.callIo i event io))
  | ioRet {m : Machine ι} {i : ℕ} {event : IoEvent} {io : Io} (h : m.pc = .ioCallback i event io) :
      LoopStep m .ret (m.goto (m.afterIo i event))
  -- the end of a pass
  | eevGrow {m : Machine ι} (h : m.pc = .eevGrow) (hfull : m.eevNum = m.loop.eevSize) (ok : Bool) :
      LoopStep m (.realloc ok) { m with
        loop := { m.loop with
          eevSize := if ok then u64 (m.loop.eevSize * 2) else m.loop.eevSize }
        pc := .clock true }
  | eevKeep {m : Machine ι} (h : m.pc = .eevGrow) (hfull : m.eevNum ≠ m.loop.eevSize) :
      LoopStep m .step (m.goto (.clock true))
  | epollWait {m : Machine ι} {timeout : ℤ} (h : m.pc = .epollWait timeout)
      {events : List EpollEvent} (he : Reports m.loop events) :
      LoopStep m (.epollWait (some events)) { m with
        loop := { m.loop with eev := events }, eevNum := events.length, pc := .test }
  | epollFail {m : Machine ι} {timeout : ℤ} (h : m.pc = .epollWait timeout) :
      LoopStep m (.epollWait none) { m with eevNum := -1, pc := .test }
  | out {m : Machine ι} (h : m.pc = .out) : LoopStep m .step (m.goto (.ilcRead .run))
  -- `__ilc_callback`
  | ilcRead {m : Machine ι} {r : IlcReturn} (h : m.pc = .ilcRead r) (hlen : ptrSize ∣ m.readLen) :
      LoopStep m .step (m.readIlc r)
  | ilcFire {m : Machine ι} {r : IlcReturn} {i n len : ℕ} {ilc : Ilc} (h : m.pc = .ilcFire r i n len)
      (hi : i < n) (hilc : m.loop.ilc[i]? = some ilc) :
      LoopStep m .step { m with pc := .ilcCallback r i n len, fired := m.fired ++ [ilc] }
  | ilcRet {m : Machine ι} {r : IlcReturn} {i n len : ℕ} (h : m.pc = .ilcCallback r i n len) :
      LoopStep m .ret (m.goto (.ilcFire r (i + 1) n len))
  | ilcFired {m : Machine ι} {r : IlcReturn} {i n len : ℕ} (h : m.pc = .ilcFire r i n len)
      (hi : ¬ i < n) : LoopStep m .step (m.goto (.ilcGrow r len))
  | ilcGrow {m : Machine ι} {r : IlcReturn} {len : ℕ} (h : m.pc = .ilcGrow r len)
      (hfull : len = m.loop.ilcSize) (ok : Bool) :
      LoopStep m (.realloc ok) { m with
        loop := { m.loop with ilcSize := if ok then u64 (m.loop.ilcSize * 2) else m.loop.ilcSize }
        pc := m.ilcReturn r }
  | ilcKeep {m : Machine ι} {r : IlcReturn} {len : ℕ} (h : m.pc = .ilcGrow r len)
      (hfull : len ≠ m.loop.ilcSize) : LoopStep m .step (m.goto (m.ilcReturn r))
  -- calls of the program
  | timer {m : Machine ι} (h : m.pc.InCallback) {c : TimerCall ι} (hc : c.Api) {timers : TimerLoop ι}
      (hrun : Prog.Returns (c.run m.loop.timers) timers) :
      LoopStep m (.timer c) { m with loop := { m.loop with timers := timers } }
  | io {m : Machine ι} (h : m.pc.InCallback) {c : IoCall} {fds : FdTable} {ret : ℤ}
      (hrun : c.run m.loop.fds = some (fds, ret)) :
      LoopStep m (.io c ret) { m with loop := { m.loop with fds := fds } }
  | stopLoop {m : Machine ι} (h : m.pc.InCallback) :
      LoopStep m .stopLoop { m with loop := stopLoop m.loop }
  | addIlc {m : Machine ι} {ilc : Ilc} (hilc : ilc.callback = true) {ok : Bool}
      (hok : ok = true → ptrSize * (m.loop.pipe.length + 1) ≤ m.loop.capacity) :
      LoopStep m (.addIlc ilc ok) (m.addIlc ilc ok)

/-- `alloc_loop`: the loop, if no step of it fails.  The kernel gives `ilc_fd`, the size of a page and
the capacity of the pipe. -/
def allocLoop (size : ℕ) (ilcFd : Fd) (ilcIo : Io) (pageSize capacity : ℕ) (reallocOk ctlOk : Bool)
    (timers : TimerLoop ι) : Option (RunLoop ι) :=
  if size > 0 then do
    let fds ← allocFds size
    let (fds, ret) ← addIo reallocOk ctlOk fds ilcFd .ioRead ilcIo
    if ret ≠ 0 then none
    else return ⟨false, fds, [], size, timers, ilcFd, ilcIo, [], pageSize, [], capacity⟩
  else none

/-- The machine after `alloc_loop`; a page is as large as a number of pointers. -/
inductive LoopStart : Machine ι → Prop
  | alloc {size : ℕ} {ilcFd : Fd} {ilcIo : Io} {pageSize capacity : ℕ} {reallocOk ctlOk : Bool}
      {now : Timeval} {mem : ι → Cell ι RbColor} {expires : ι → Timeval} {callback : ι → Bool}
      {loop : RunLoop ι} (hpage : ptrSize ∣ pageSize)
      (h : allocLoop size ilcFd ilcIo pageSize capacity reallocOk ctlOk
        (allocTimers now mem expires callback) = some loop) : LoopStart ⟨loop, .idle, 0, []⟩

end Libls.Loop
