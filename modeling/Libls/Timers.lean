import Mathlib.Data.Prod.Lex
import Libls.RbTree

/-! # The timers of an event loop: `src/loop.c`

The functions on the timer queue of a `struct loop`: a red-black tree of all pending timers, sorted
by `expires`, and `loop->next`, which points at the first of them.  A timer is named by its address,
which is also the address of its `node`.  `time_t` and `suseconds_t` are wide enough for every sum
here and are modelled by integers.

A failing `assert` has no result. -/

namespace Libls.Loop

open LinkedTree Rb

/-! ### Times -/

/-- `struct timeval` -/
@[ext] structure Timeval where
  sec : ℤ
  usec : ℤ
deriving DecidableEq, Repr

/-- `timercmp(a, b, <)` -/
def timercmpLt (a b : Timeval) : Bool := if a.sec = b.sec then a.usec < b.usec else a.sec < b.sec

def timeradd (a b : Timeval) : Timeval :=
  let sec := a.sec + b.sec
  let usec := a.usec + b.usec
  if usec ≥ 1000000 then ⟨sec + 1, usec - 1000000⟩ else ⟨sec, usec⟩

def timersub (a b : Timeval) : Timeval :=
  let sec := a.sec - b.sec
  let usec := a.usec - b.usec
  if usec < 0 then ⟨sec - 1, usec + 1000000⟩ else ⟨sec, usec⟩

/-- `timercmp` compares the seconds first. -/
instance : LinearOrder Timeval :=
  LinearOrder.lift' (fun t => toLex (t.sec, t.usec)) fun a b h => by
    have := congrArg ofLex h
    exact Timeval.ext (congrArg Prod.fst this) (congrArg Prod.snd this)

@[simp] theorem timercmpLt_iff {a b : Timeval} : timercmpLt a b = true ↔ a < b := by
  have h : a < b ↔ toLex (a.sec, a.usec) < toLex (b.sec, b.usec) := Iff.rfl
  rw [h, Prod.Lex.toLex_lt_toLex, timercmpLt]
  split
  · next he => simp [he]
  · next he => simp [he]

/-! ### The loop -/

/-- `unsigned int` -/
abbrev Msec := Fin (2 ^ 32)

/-- The fields of a `struct loop` for timers, with those of all `struct timer`s: the nodes are the
cells of `root`, and `callback` says whether the pointer is set. -/
structure TimerLoop (ι : Type) where
  realtime : Timeval
  root : RbRoot ι
  next : Option ι
  expires : ι → Timeval
  callback : ι → Bool

variable {ι : Type} [DecidableEq ι]

/-- The loop of `add_timer` on `parent` and `p`. -/
def addTimerStep (timer : ι) (loop : TimerLoop ι) (q : Option ι × Option (ι × Dir)) :
    Iter (Option ι × Option (ι × Dir)) (Option ι × Option (ι × Dir)) :=
  match getLink q.2 loop.root with
  | none => .done q
  | some ptr =>
      if timercmpLt (loop.expires timer) (loop.expires ptr) then .next (some ptr, some (ptr, .left))
      else .next (some ptr, some (ptr, .right))

def addTimerWalk (timer : ι) (loop : TimerLoop ι) : Prog (Option ι × Option (ι × Dir)) :=
  Prog.iterate (fun q => return addTimerStep timer loop q) (none, none)

/-- The last lines of `add_timer`. -/
def addTimerNext (timer : ι) (loop : TimerLoop ι) : Option ι :=
  match loop.next with
  | none => some timer
  | some next =>
      if timercmpLt (loop.expires timer) (loop.expires next) then some timer else some next

def addTimer (timer : ι) (loop : TimerLoop ι) : Prog (TimerLoop ι) :=
  if rbEmptyNode timer loop.root ∧ loop.callback timer then do
    let (parent, p) ← addTimerWalk timer loop
    let root ← rbInsertColor timer (rbLinkNode timer parent p loop.root)
    return { loop with root := root, next := addTimerNext timer loop }
  else Prog.abort

def addTimeout (timer : ι) (ms : Msec) (loop : TimerLoop ι) : Prog (TimerLoop ι) :=
  let delta : Timeval := ⟨(ms.val / 1000 : ℕ), (ms.val % 1000 * 1000 : ℕ)⟩
  addTimer timer { loop with
    expires := Function.update loop.expires timer (timeradd loop.realtime delta) }

/-- `loop->next` after the removal of `timer`, found before it. -/
def delTimerNext (timer : ι) (loop : TimerLoop ι) : Prog (Option ι) :=
  if loop.next = some timer then rbNext timer loop.root else return loop.next

def delTimer (timer : ι) (loop : TimerLoop ι) : Prog (TimerLoop ι) :=
  if rbEmptyNode timer loop.root then return loop
  else do
    let next ← delTimerNext timer loop
    let root ← rbErase timer loop.root
    return { loop with root := rbClearNode timer root, next := next }

def initTimer (timer : ι) (loop : TimerLoop ι) : TimerLoop ι :=
  { loop with root := rbClearNode timer loop.root }

def updateTimeout (timer : ι) (ms : Msec) (loop : TimerLoop ι) : Prog (TimerLoop ι) := do
  let loop ← delTimer timer loop
  addTimeout timer ms loop

/-- One pass of the loop of `__run_timers`: it returns the time to wait, or it removes the timer
whose callback is to be called next. -/
def runTimersPass (loop : TimerLoop ι) : Prog (Iter (ι × TimerLoop ι) ℤ) :=
  match loop.next with
  | none => return .done (-1)
  | some timer =>
      if timercmpLt loop.realtime (loop.expires timer) then
        let delta := timersub (loop.expires timer) loop.realtime
        -- the product and the quotient are a `long`, `ms` is an `int`
        let ms := Int.bmod (delta.sec * 1000 + delta.usec.tdiv 1000) (2 ^ 32)
        return .done (if ms = 0 then 1 else ms)
      else do
        let loop ← delTimer timer loop
        return .next (timer, loop)

/-- The timers of `alloc_loop`, over any contents of memory. -/
def allocTimers (now : Timeval) (mem : ι → Cell ι RbColor) (expires : ι → Timeval)
    (callback : ι → Bool) : TimerLoop ι :=
  ⟨now, rbRoot mem, none, expires, callback⟩

end Libls.Loop
