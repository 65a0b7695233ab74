import Libls.BitmapEdits
import Libls.Library.Runs

/-! # Bits that threads share

The functions of `include/ls/bitops/atomic.h`, called by any number of threads on one bitmap.  Each of them loads a
word, and swaps the changed word in if the word in memory is still the one that it has loaded; else it starts again.

A step of a run is a load, a compare-and-swap, or a thread that calls a function or returns from one.  The other
machine (`Whole.Step`) applies the function of `non-atomic.h` as a whole, in one step between the call and the return.
From outside, the first machine does nothing that the second one does not (`atomic_bits`). -/

namespace Libls.Bitmaps.Atomic

/-! ### The functions -/

/-- What is done with the bits of the mask. -/
inductive Op where
  | set
  | clear
  | change
deriving DecidableEq

/-- The right-hand side of `val = ..`. -/
def Op.val (old mask : Word) : Op → Word
  | set => old ||| mask
  | clear => old &&& ~~~mask
  | change => old ^^^ mask

/-- A call: the function is given by what it does and by whether it returns `(old & mask) != 0`. -/
structure Call where
  nr : ℕ
  op : Op
  tests : Bool
deriving DecidableEq

/-- `set_bit` -/
def setBit (nr : ℕ) : Call := ⟨nr, .set, false⟩

/-- `clear_bit` -/
def clearBit (nr : ℕ) : Call := ⟨nr, .clear, false⟩

/-- `change_bit` -/
def changeBit (nr : ℕ) : Call := ⟨nr, .change, false⟩

/-- `test_and_set_bit` -/
def testAndSetBit (nr : ℕ) : Call := ⟨nr, .set, true⟩

/-- `test_and_clear_bit` -/
def testAndClearBit (nr : ℕ) : Call := ⟨nr, .clear, true⟩

/-- `test_and_change_bit` -/
def testAndChangeBit (nr : ℕ) : Call := ⟨nr, .change, true⟩

namespace Call
variable (c : Call)

/-- `p - addr` -/
def p : ℕ := c.nr / 64

/-- `val` -/
def val (old : Word) : Word := c.op.val old (bitMask c.nr)

/-- What the call returns. -/
def result (old : Word) : Option Bool := if c.tests = true then some (old &&& bitMask c.nr != 0) else none

/-- The call as the function of `non-atomic.h` with the same name. -/
def whole (mem : Block Word) : Option (Block Word × Option Bool) :=
  if c.tests = true then (testAndUpdateBit (fun old mask => c.op.val old mask) c.nr mem).map fun r => (r.1, some r.2)
  else (updateBit (fun old mask => c.op.val old mask) c.nr mem).map fun mem => (mem, none)

end Call

/-- `__sync_val_compare_and_swap`: the memory after it, and the word that was there. -/
def syncValCompareAndSwap (mem : Block Word) (p : ℕ) (old val : Word) : Option (Block Word × Word) := do
  let was ← mem.read p
  if was = old then return (← mem.write p val, was) else return (mem, was)

/-! ### Threads -/

/-- Where a thread is. -/
inductive Pc where
  | idle
  /-- before `old = *p` -/
  | top (c : Call)
  /-- before the condition of `while` -/
  | swap (c : Call) (old : Word)
  /-- before `return` -/
  | leave (c : Call) (result : Option Bool)
deriving DecidableEq

/-- A memory that the threads `T` share. -/
structure State (T : Type) where
  mem : Block Word
  pc : T → Pc

/-- The steps of a thread. -/
inductive Label (T : Type) where
  | call (t : T) (c : Call)
  | load (t : T)
  | swap (t : T) (c : Call) (old : Word)
  | retry (t : T) (c : Call)
  | ret (t : T) (c : Call) (result : Option Bool)
deriving DecidableEq

variable {T : Type} [DecidableEq T] {bits : ℕ}

/-- The thread goes on to `pc`. -/
def State.goto (s : State T) (t : T) (pc : Pc) : State T := ⟨s.mem, Function.update s.pc t pc⟩

/-- The next step of a thread that is in a call. -/
def State.next (s : State T) (t : T) : Option (Label T × State T) :=
  match s.pc t with
  | .idle => none
  | .top c => do
      let old ← s.mem.read c.p
      return (.load t, s.goto t (.swap c old))
  | .swap c old => do
      let (mem, was) ← syncValCompareAndSwap s.mem c.p old (c.val old)
      if was ≠ old then return (.retry t c, State.goto ⟨mem, s.pc⟩ t (.top c))
      else return (.swap t c old, State.goto ⟨mem, s.pc⟩ t (.leave c (c.result old)))
  | .leave c result => some (.ret t c result, s.goto t .idle)

/-- A thread calls a function with a bit of the bitmap, or goes on with its call. -/
inductive Step (bits : ℕ) : State T → Label T → State T → Prop where
  | call {s : State T} {t : T} {c : Call} (h : s.pc t = .idle) (hnr : c.nr < bits) :
      Step bits s (.call t c) (s.goto t (.top c))
  | go {s s' : State T} {t : T} {l : Label T} (h : s.next t = some (l, s')) : Step bits s l s'

/-! ### The functions as a whole -/

namespace Whole

/-- Where a thread is. -/
inductive Pc where
  | idle
  | called (c : Call)
  | done (c : Call) (result : Option Bool)
deriving DecidableEq

structure State (T : Type) where
  mem : Block Word
  pc : T → Pc

inductive Label (T : Type) where
  | call (t : T) (c : Call)
  | apply (t : T) (c : Call) (result : Option Bool)
  | ret (t : T) (c : Call) (result : Option Bool)
deriving DecidableEq

def State.goto (s : State T) (t : T) (pc : Pc) : State T := ⟨s.mem, Function.update s.pc t pc⟩

/-- The call takes effect in one step. -/
inductive Step (bits : ℕ) : State T → Label T → State T → Prop where
  | call {s : State T} {t : T} {c : Call} (h : s.pc t = .idle) (hnr : c.nr < bits) :
      Step bits s (.call t c) (s.goto t (.called c))
  | apply {s : State T} {t : T} {c : Call} {mem : Block Word} {result : Option Bool} (h : s.pc t = .called c)
      (hwhole : c.whole s.mem = some (mem, result)) :
      Step bits s (.apply t c result) (State.goto ⟨mem, s.pc⟩ t (.done c result))
  | ret {s : State T} {t : T} {c : Call} {result : Option Bool} (h : s.pc t = .done c result) :
      Step bits s (.ret t c result) (s.goto t .idle)

end Whole

/-! ### What is seen from outside -/

/-- A call, or a return with what it returns. -/
inductive Event (T : Type) where
  | call (t : T) (c : Call)
  | ret (t : T) (c : Call) (result : Option Bool)

def Label.event : Label T → Option (Event T)
  | call t c => some (.call t c)
  | load _ => none
  | swap _ _ _ => none
  | retry _ _ => none
  | ret t c result => some (.ret t c result)

def Whole.Label.event : Whole.Label T → Option (Event T)
  | call t c => some (.call t c)
  | apply _ _ _ => none
  | ret t c result => some (.ret t c result)

/-- Where a thread is, as seen from outside: a call has taken effect when its word has been swapped in. -/
def Pc.whole : Pc → Whole.Pc
  | idle => .idle
  | top c => .called c
  | swap c _ => .called c
  | leave c result => .done c result

def State.whole (s : State T) : Whole.State T := ⟨s.mem, fun t => (s.pc t).whole⟩

/-! ### One step -/

/-- What a step can be, with all that it depends on. -/
inductive Moves (bits : ℕ) (s : State T) : Label T → State T → Prop where
  | call {t : T} {c : Call} (h : s.pc t = .idle) (hnr : c.nr < bits) : Moves bits s (.call t c) (s.goto t (.top c))
  | load {t : T} {c : Call} {old : Word} (h : s.pc t = .top c) (hread : s.mem.read c.p = some old) :
      Moves bits s (.load t) (s.goto t (.swap c old))
  | swap {t : T} {c : Call} {old : Word} {mem : Block Word} (h : s.pc t = .swap c old)
      (hread : s.mem.read c.p = some old) (hwrite : s.mem.write c.p (c.val old) = some mem) :
      Moves bits s (.swap t c old) (State.goto ⟨mem, s.pc⟩ t (.leave c (c.result old)))
  | retry {t : T} {c : Call} {old was : Word} (h : s.pc t = .swap c old) (hread : s.mem.read c.p = some was)
      (hne : was ≠ old) : Moves bits s (.retry t c) (s.goto t (.top c))
  | ret {t : T} {c : Call} {result : Option Bool} (h : s.pc t = .leave c result) :
      Moves bits s (.ret t c result) (s.goto t .idle)

variable {s s' : State T} {l : Label T} {t : T}

theorem next_moves (h : s.next t = some (l, s')) : Moves bits s l s' := by
  unfold State.next at h
  cases hpc : s.pc t with
  | idle =>
      rw [hpc] at h
      cases h
  | top c =>
      simp only [hpc, Option.bind_eq_bind, Option.bind_eq_some_iff] at h
      obtain ⟨old, hread, heq⟩ := h
      cases heq
      exact .load hpc hread
  | swap c old =>
      simp only [hpc, Option.bind_eq_bind, Option.bind_eq_some_iff] at h
      obtain ⟨⟨mem, was⟩, hcas, heq⟩ := h
      simp only [syncValCompareAndSwap, Option.bind_eq_bind, Option.bind_eq_some_iff] at hcas
      obtain ⟨was', hread, hcas⟩ := hcas
      by_cases hwas : was' = old
      · rw [if_pos hwas, Option.bind_eq_some_iff] at hcas
        obtain ⟨mem', hwrite, hcas⟩ := hcas
        cases hcas
        dsimp only at heq
        rw [if_neg (not_not_intro hwas)] at heq
        cases heq
        exact .swap hpc (hwas ▸ hread) hwrite
      · rw [if_neg hwas] at hcas
        cases hcas
        dsimp only at heq
        rw [if_pos hwas] at heq
        cases heq
        exact .retry hpc hread hwas
  | leave c result =>
      rw [hpc] at h
      cases h
      exact .ret hpc

theorem Step.moves (h : Step bits s l s') : Moves bits s l s' := by
  cases h with
  | call h hnr => exact .call h hnr
  | go h => exact next_moves h

/-- A compare-and-swap that succeeds does what the whole function does. -/
theorem whole_of_swap {c : Call} {mem mem' : Block Word} {old : Word} (hread : mem.read c.p = some old)
    (hwrite : mem.write c.p (c.val old) = some mem') : c.whole mem = some (mem', c.result old) := by
  have hread' : mem.read (c.nr / 64) = some old := hread
  have hwrite' : mem.write (c.nr / 64) (c.op.val old (bitMask c.nr)) = some mem' := hwrite
  unfold Call.whole Call.result
  by_cases htests : c.tests = true
  · rw [if_pos htests, if_pos htests, testAndUpdateBit, hread', Option.bind_eq_bind, Option.bind_some, hwrite']
    rfl
  · rw [if_neg htests, if_neg htests, updateBit, Block.modify, hread', Option.bind_eq_bind, Option.bind_some, hwrite']
    rfl

theorem whole_goto (s : State T) (t : T) (pc : Pc) : (s.goto t pc).whole = s.whole.goto t pc.whole := by
  unfold State.goto State.whole Whole.State.goto
  congr 1
  funext u
  by_cases hu : u = t
  · subst hu
    dsimp only
    rw [Function.update_self, Function.update_self]
  · dsimp only
    rw [Function.update_of_ne hu, Function.update_of_ne hu]

theorem goto_of_eq {w : Whole.State T} {pc : Whole.Pc} (h : w.pc t = pc) : w.goto t pc = w := by
  unfold Whole.State.goto
  rw [← h, Function.update_eq_self]

/-- A step is at most one step of the other machine, with the same event. -/
theorem step_whole (h : Step bits s l s') : ∃ ls, Run (Whole.Step bits) s.whole ls s'.whole ∧
    ls.filterMap Whole.Label.event = l.event.toList := by
  cases h.moves with
  | @call t c hpc hnr =>
      refine ⟨[.call t c], .single ?_, rfl⟩
      rw [whole_goto]
      exact .call (congrArg Pc.whole hpc) hnr
  | @load t c old hpc hread =>
      refine ⟨[], ?_, rfl⟩
      rw [whole_goto, goto_of_eq (congrArg Pc.whole hpc)]
      exact .nil _
  | @swap t c old mem hpc hread hwrite =>
      refine ⟨[.apply t c (c.result old)], .single ?_, rfl⟩
      rw [whole_goto]
      exact .apply (congrArg Pc.whole hpc) (whole_of_swap hread hwrite)
  | @retry t c old was hpc hread hne =>
      refine ⟨[], ?_, rfl⟩
      rw [whole_goto, goto_of_eq (congrArg Pc.whole hpc)]
      exact .nil _
  | @ret t c result hpc =>
      refine ⟨[.ret t c result], .single ?_, rfl⟩
      rw [whole_goto]
      exact .ret (congrArg Pc.whole hpc)

/-! ### Runs -/

theorem run_whole {ls : List (Label T)} (h : Run (Step bits) s ls s') : ∃ ws, Run (Whole.Step bits) s.whole ws s'.whole ∧
    ws.filterMap Whole.Label.event = ls.filterMap Label.event := by
  obtain ⟨ws, w, hrun, hevents, rfl⟩ := h.simulates (R := fun s w => w = s.whole)
    (fun s l s' w hstep hw => by
      subst hw
      obtain ⟨ls, hrun, hevents⟩ := step_whole hstep
      exact ⟨ls, _, hrun, hevents, rfl⟩)
    rfl
  exact ⟨ws, hrun, hevents⟩

/-! ### Memory -/

/-- What becomes of the bit. -/
def Op.bit : Op → Bool → Bool
  | set, _ => true
  | clear, _ => false
  | change, b => !b

theorem acts_val (op : Op) : Acts (fun old mask => op.val old mask) op.bit := by
  cases op with
  | set => exact acts_or
  | clear => exact acts_andnot
  | change => exact acts_xor

/-- A call as a whole changes its bit, and returns what it was. -/
theorem whole_spec (c : Call) (a : Bitmap bits) (hnr : c.nr < bits) : ∃ d : Bitmap bits,
    c.whole a.block = some (d.block, if c.tests = true then some (a.bit c.nr) else none) ∧
      ∀ i, d.bit i = if i = c.nr then c.op.bit (a.bit i) else a.bit i := by
  unfold Call.whole
  by_cases htests : c.tests = true
  · obtain ⟨d, hupdate, hd⟩ := testAndUpdateBit_spec (acts_val c.op) a hnr
    refine ⟨d, ?_, hd⟩
    rw [if_pos htests, if_pos htests, hupdate]
    rfl
  · obtain ⟨d, hupdate, hd⟩ := updateBit_spec (acts_val c.op) a hnr
    refine ⟨d, ?_, hd⟩
    rw [if_neg htests, if_neg htests, hupdate]
    rfl

/-- The call that a thread is in. -/
def Pc.inCall : Pc → Option Call
  | idle => none
  | top c => some c
  | swap c _ => some c
  | leave c _ => some c

/-- The memory is a bitmap, and the calls are about its bits. -/
structure Sound (bits : ℕ) (s : State T) : Prop where
  mem : ∃ a : Bitmap bits, s.mem = a.block
  nr : ∀ t c, (s.pc t).inCall = some c → c.nr < bits

omit [DecidableEq T] in
theorem Sound.read (h : Sound bits s) {c : Call} (hc : (s.pc t).inCall = some c) : ∃ old, s.mem.read c.p = some old := by
  obtain ⟨a, ha⟩ := h.mem
  have hnr := h.nr t c hc
  rw [ha]
  exact ⟨_, a.read (by unfold Call.p bitsToLongs; omega)⟩

theorem Sound.goto (h : Sound bits s) {pc : Pc} (hpc : ∀ c, pc.inCall = some c → c.nr < bits) :
    Sound bits (s.goto t pc) := by
  refine ⟨h.mem, fun u c hc => ?_⟩
  unfold State.goto at hc
  by_cases hu : u = t
  · subst hu
    dsimp only at hc
    rw [Function.update_self] at hc
    exact hpc c hc
  · dsimp only at hc
    rw [Function.update_of_ne hu] at hc
    exact h.nr u c hc

omit [DecidableEq T] in
/-- A word that is swapped in leaves a bitmap. -/
theorem Sound.write (h : Sound bits s) {p : ℕ} {old val : Word} {mem : Block Word} (hread : s.mem.read p = some old)
    (hwrite : s.mem.write p val = some mem) : Sound bits ⟨mem, s.pc⟩ := by
  obtain ⟨a, ha⟩ := h.mem
  rw [ha] at hread hwrite
  have hlt : p < bitsToLongs bits := a.size ▸ Block.lt_of_read hread
  obtain ⟨d, hmodify, -⟩ := modify_spec a hlt fun _ => val
  rw [Block.modify, hread, Option.bind_eq_bind, Option.bind_some, hwrite] at hmodify
  exact ⟨⟨d, Option.some.inj hmodify⟩, h.nr⟩

theorem Sound.step (h : Sound bits s) (hstep : Step bits s l s') : Sound bits s' := by
  cases hstep.moves with
  | call hpc hnr =>
      apply h.goto
      intro c hc
      cases hc
      exact hnr
  | @load t c old hpc hread =>
      apply h.goto
      intro c' hc
      cases hc
      exact h.nr t c (congrArg Pc.inCall hpc)
  | @swap t c old mem hpc hread hwrite =>
      apply (h.write hread hwrite).goto
      intro c' hc
      cases hc
      exact h.nr t c (congrArg Pc.inCall hpc)
  | @retry t c old was hpc hread hne =>
      apply h.goto
      intro c' hc
      cases hc
      exact h.nr t c (congrArg Pc.inCall hpc)
  | ret hpc =>
      apply h.goto
      intro c hc
      cases hc

/-- A thread in a call can go on. -/
theorem Sound.next (h : Sound bits s) (hpc : s.pc t ≠ .idle) : ∃ l s', s.next t = some (l, s') := by
  unfold State.next
  cases hcase : s.pc t with
  | idle => exact absurd hcase hpc
  | top c =>
      obtain ⟨old, hread⟩ := h.read (congrArg Pc.inCall hcase)
      refine ⟨.load t, s.goto t (.swap c old), ?_⟩
      simp only [hread, Option.bind_eq_bind, Option.bind_some]
      rfl
  | swap c old =>
      obtain ⟨was, hread⟩ := h.read (congrArg Pc.inCall hcase)
      by_cases hwas : was = old
      · obtain ⟨mem, hwrite, -⟩ := Block.write_of_lt (Block.lt_of_read hread) (c.val old)
        refine ⟨.swap t c old, State.goto ⟨mem, s.pc⟩ t (.leave c (c.result old)), ?_⟩
        have hcas : syncValCompareAndSwap s.mem c.p old (c.val old) = some (mem, was) := by
          rw [syncValCompareAndSwap, hread, Option.bind_eq_bind, Option.bind_some, if_pos hwas, hwrite]
          rfl
        simp only [hcas, Option.bind_eq_bind, Option.bind_some]
        rw [if_neg (not_not_intro hwas)]
        rfl
      · refine ⟨.retry t c, s.goto t (.top c), ?_⟩
        have hcas : syncValCompareAndSwap s.mem c.p old (c.val old) = some (s.mem, was) := by
          rw [syncValCompareAndSwap, hread, Option.bind_eq_bind, Option.bind_some, if_neg hwas]
          rfl
        simp only [hcas, Option.bind_eq_bind, Option.bind_some]
        rw [if_pos hwas]
        rfl
  | leave c result => exact ⟨_, _, rfl⟩

/-- The bitmap `a`, with no thread in a call. -/
def start (a : Bitmap bits) : State T := ⟨a.block, fun _ => .idle⟩

omit [DecidableEq T] in
theorem sound_start (a : Bitmap bits) : Sound bits (start a : State T) := by
  refine ⟨⟨a, rfl⟩, fun t c hc => ?_⟩
  cases hc

theorem sound_run {a : Bitmap bits} {ls : List (Label T)} (h : Run (Step bits) (start a) ls s) : Sound bits s :=
  h.invariant (P := fun _ => True) (fun _ _ _ hstep _ hI => hI.step hstep) (fun _ _ => trivial) (sound_start a)

/-- **Atomic bits.**  In every run, whatever the order of the steps, the calls and returns are those of a run in which
each call takes effect as a whole between its call and its return, and the memory is that of the other run.  No thread
gets stuck, and none accesses memory outside of the bitmap. -/
theorem atomic_bits {a : Bitmap bits} {ls : List (Label T)} (h : Run (Step bits) (start a) ls s) :
    (∃ ws, Run (Whole.Step bits) (start a : State T).whole ws s.whole ∧
      ws.filterMap Whole.Label.event = ls.filterMap Label.event) ∧
    ∀ t, s.pc t ≠ .idle → ∃ l s', s.next t = some (l, s') :=
  ⟨run_whole h, fun _ hpc => (sound_run h).next hpc⟩

/-! ### Schedules -/

/-- A thread calls a function, or goes on. -/
def State.act (s : State T) : T × Option Call → Option (Label T × State T)
  | (t, some c) =>
      match s.pc t with
      | .idle => some (.call t c, s.goto t (.top c))
      | _ => none
  | (t, none) => s.next t

/-- A run by a schedule. -/
def State.schedule (s : State T) : List (T × Option Call) → Option (List (Label T) × State T)
  | [] => some ([], s)
  | act :: acts => do
      let (l, s) ← s.act act
      let (ls, s) ← s.schedule acts
      return (l :: ls, s)

theorem run_schedule {acts : List (T × Option Call)} {ls : List (Label T)} (hnr : ∀ t c, (t, some c) ∈ acts → c.nr < bits)
    (h : s.schedule acts = some (ls, s')) : Run (Step bits) s ls s' := by
  induction acts generalizing s ls with
  | nil =>
      cases h
      exact .nil _
  | cons act acts ih =>
      simp only [State.schedule, Option.bind_eq_bind, Option.bind_eq_some_iff, Option.pure_def] at h
      obtain ⟨⟨l, s₁⟩, hact, ⟨ls', s₂⟩, hrest, heq⟩ := h
      cases heq
      apply Run.cons _ (ih (fun t c hmem => hnr t c (List.mem_cons_of_mem _ hmem)) hrest)
      obtain ⟨t, _ | c⟩ := act
      · exact .go hact
      · have hlt := hnr t c List.mem_cons_self
        cases hpc : s.pc t with
        | idle =>
            simp only [State.act, hpc] at hact
            cases hact
            exact .call hpc hlt
        | top c => simp [State.act, hpc] at hact
        | swap c old => simp [State.act, hpc] at hact
        | leave c result => simp [State.act, hpc] at hact

/-- A bitmap without members. -/
def zero64 : Bitmap 64 := .ofWords 64 fun _ => 0

/-- Two threads that set the same bit, the second one in two passes. -/
def race : List (Label Bool) :=
  [.call true (testAndSetBit 3), .call false (testAndSetBit 3), .load true, .load false, .swap true (testAndSetBit 3) 0,
    .retry false (testAndSetBit 3), .load false, .swap false (testAndSetBit 3) 8, .ret true (testAndSetBit 3) (some false),
    .ret false (testAndSetBit 3) (some true)]

theorem run_race : ∃ s, Run (Step 64) (start zero64) race s ∧ ∀ t, s.pc t = .idle := by
  have hrun : ((start zero64).schedule [(true, some (testAndSetBit 3)), (false, some (testAndSetBit 3)), (true, none),
      (false, none), (true, none), (false, none), (false, none), (false, none), (true, none), (false, none)]).map
      (fun r => (r.1, r.2.pc true, r.2.pc false)) = some (race, .idle, .idle) := by decide
  obtain ⟨⟨ls, s⟩, hschedule, heq⟩ := Option.map_eq_some_iff.mp hrun
  obtain ⟨hls, htrue, hfalse⟩ : ls = race ∧ s.pc true = .idle ∧ s.pc false = .idle := by simpa using heq
  rw [← hls]
  refine ⟨s, run_schedule ?_ hschedule, Bool.forall_bool.mpr ⟨hfalse, htrue⟩⟩
  intro t c hmem
  simp only [List.mem_cons, Prod.mk.injEq, reduceCtorEq, and_false, or_false, List.not_mem_nil] at hmem
  rcases hmem with ⟨-, h⟩ | ⟨-, h⟩ <;> cases h <;> decide

theorem atomic_bits_race : ∃ s, Run (Step 64) (start zero64) race s ∧
    (∃ ws, Run (Whole.Step 64) (start zero64 : State Bool).whole ws s.whole ∧
      ws.filterMap Whole.Label.event = race.filterMap Label.event) ∧
    ∀ t, s.pc t ≠ .idle → ∃ l s', s.next t = some (l, s') := by
  obtain ⟨s, h, -⟩ := run_race
  exact ⟨s, h, atomic_bits h⟩

end Libls.Bitmaps.Atomic
