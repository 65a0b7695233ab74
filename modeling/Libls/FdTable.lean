import Mathlib.Data.Fintype.Card
import Libls.Library.Memory

/-! # The descriptors of an event loop: `add_io`, `del_io` and `close_io` of `src/loop.c`

The loop keeps a table with two slots for each descriptor, and the kernel keeps the interest set
of the epoll instance.  `epoll_ctl` behaves as documented: `EPOLL_CTL_ADD` fails on a descriptor
that is in the set, `EPOLL_CTL_MOD` and `EPOLL_CTL_DEL` on one that is not; in `add_io` it may
also fail for lack of resources, which `ctlOk` says.  `reallocOk` says whether `realloc` succeeds.

A failing `assert`, an `abort()` and an access outside the table have no result. -/

namespace Libls.Loop

/-- The descriptors that pass `assert(fd >= 0)`. -/
abbrev Fd := Fin (2 ^ 31)

instance neZero_fd : NeZero (2 ^ 31) := ⟨by decide⟩

/-- `enum IO` -/
inductive IoEvent where
  | ioRead
  | ioWrite
deriving DecidableEq, Repr

/-- `!event` -/
def IoEvent.other : IoEvent → IoEvent
  | ioRead => ioWrite
  | ioWrite => ioRead

/-- A pointer to a `struct io`: the address, and whether the callback is set. -/
structure Io where
  addr : ℕ
  callback : Bool
deriving DecidableEq, Repr

/-- `struct io_fd` -/
structure IoFd where
  ioRead : Option Io
  ioWrite : Option Io
deriving DecidableEq, Repr

namespace IoFd

def empty : IoFd := ⟨none, none⟩

def io (slots : IoFd) : IoEvent → Option Io
  | .ioRead => slots.ioRead
  | .ioWrite => slots.ioWrite

def setIo (slots : IoFd) (event : IoEvent) (v : Option Io) : IoFd :=
  match event with
  | .ioRead => { slots with ioRead := v }
  | .ioWrite => { slots with ioWrite := v }

end IoFd

/-! ### The kernel -/

/-- The bits of `eev.events` that are asked for. -/
structure Events where
  epollin : Bool
  epollout : Bool
deriving DecidableEq, Repr

inductive EpollOp where
  | add
  | mod
  | del
deriving DecidableEq, Repr

/-- The interest set of an epoll instance. -/
abbrev Epoll := Fd → Option Events

def Epoll.set (epoll : Epoll) (fd : Fd) (ev : Option Events) : Epoll :=
  fun fd' => if fd' = fd then ev else epoll fd'

/-- `epoll_ctl` -/
def epollCtl (ok : Bool) (epoll : Epoll) (op : EpollOp) (fd : Fd) (eev : Events) : Epoll × ℤ :=
  let fails := !ok || (match op with
    | .add => (epoll fd).isSome
    | .mod | .del => (epoll fd).isNone)
  if fails then (epoll, -1)
  else (epoll.set fd (if op = .del then none else some eev), 0)

/-! ### The table -/

/-- The table of `struct loop`, and the interest set of `loop->ep_fd`. -/
structure FdTable where
  fd : Block IoFd
  fdSize : ℕ
  activated : ℕ
  epoll : Epoll

/-- The lines of `alloc_loop` that make the table; `calloc` fails on a size that overflows. -/
def allocFds (size : ℕ) : Option FdTable :=
  if size * 16 < 2 ^ 64 then
    some ⟨⟨List.replicate size (some .empty)⟩, size, 0, fun _ => none⟩
  else none

/-- The lines of `add_io` that enlarge the table; no table if `realloc` has failed. -/
def growFds (reallocOk : Bool) (s : FdTable) : Option (Option FdTable) :=
  let newSize := u64 (s.fdSize * 2)
  if reallocOk then do
    let newFd := s.fd.realloc (u64 (newSize * 16) / 16)
    let newFd ← newFd.writeList s.fdSize (List.replicate s.fdSize .empty)
    return some { s with fd := newFd, fdSize := newSize }
  else return none

/-- The lines of `add_io` that register the descriptor. -/
def registerIo (ctlOk : Bool) (s : FdTable) (fd : Fd) (event : IoEvent) (io : Io) :
    Option (FdTable × ℤ) := do
  let slots ← s.fd.read fd
  if (slots.io event).isSome then none
  else
    let op := if (slots.io event.other).isSome then .mod else .add
    let eev : Events :=
      if (slots.io event.other).isSome then ⟨true, true⟩
      else if event = .ioRead then ⟨true, false⟩ else ⟨false, true⟩
    let (epoll, ret) := epollCtl ctlOk s.epoll op fd eev
    if ret < 0 then return ({ s with epoll := epoll }, -1)
    else
      let newFd ← s.fd.write fd (slots.setIo event (some io))
      let activated := if op = .add then u64 (s.activated + 1) else s.activated
      return ({ s with fd := newFd, epoll := epoll, activated := activated }, 0)

/-- `add_io`, with its return value. -/
def addIo (reallocOk ctlOk : Bool) (s : FdTable) (fd : Fd) (event : IoEvent) (io : Io) :
    Option (FdTable × ℤ) :=
  if io.callback then do
    match ← if s.fdSize ≤ fd then growFds reallocOk s else some (some s) with
    | none => return (s, -1)
    | some s => registerIo ctlOk s fd event io
  else none

def addI (reallocOk ctlOk : Bool) (s : FdTable) (fd : Fd) (io : Io) : Option (FdTable × ℤ) :=
  addIo reallocOk ctlOk s fd .ioRead io

def addO (reallocOk ctlOk : Bool) (s : FdTable) (fd : Fd) (io : Io) : Option (FdTable × ℤ) :=
  addIo reallocOk ctlOk s fd .ioWrite io

/-- `del_io` -/
def delIo (s : FdTable) (fd : Fd) (event : IoEvent) : Option FdTable :=
  if fd < s.fdSize then do
    let slots ← s.fd.read fd
    if (slots.io event).isSome then
      let op := if (slots.io event.other).isSome then .mod else .del
      let eev : Events := if event = .ioRead then ⟨false, true⟩ else ⟨true, false⟩
      let (epoll, ret) := epollCtl true s.epoll op fd eev
      if ret ≠ 0 then none
      else
        let newFd ← s.fd.write fd (slots.setIo event none)
        let activated := if op = .del then pred64 s.activated else s.activated
        return { s with fd := newFd, epoll := epoll, activated := activated }
    else return s
  else return s

def delI (s : FdTable) (fd : Fd) : Option FdTable := delIo s fd .ioRead
def delO (s : FdTable) (fd : Fd) : Option FdTable := delIo s fd .ioWrite

/-- `close_io` -/
def closeIo (s : FdTable) (fd : Fd) : Option FdTable :=
  if fd < s.fdSize then do
    let slots ← s.fd.read fd
    if slots.ioRead.isSome ∨ slots.ioWrite.isSome then
      let newFd ← s.fd.write fd .empty
      return { s with fd := newFd, activated := pred64 s.activated }
    else return s
  else return s

/-- `close(2)` takes the descriptor out of the interest set. -/
def closeFd (s : FdTable) (fd : Fd) : FdTable := { s with epoll := s.epoll.set fd none }

end Libls.Loop
