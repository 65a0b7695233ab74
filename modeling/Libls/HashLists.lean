import Libls.Library.SlotLists
import Libls.Library.Runs

/-! # The lists with a single pointer head of `include/ls/list.h`

The `hlist` functions on a memory of `struct hlist_head`s and `struct hlist_node`s.  A node keeps the next
one and, in `pprev`, the address of the pointer that points at it: that of a head or of the node before.  Such
an address is a `Slot`.  Following a null pointer or one of the two values that `hlist_del` leaves behind is a
fault, which has no result. -/

namespace Libls.HashLists

/-- A value of type `struct hlist_node *`. -/
inductive HlistPtr (ι : Type) where
  | null
  | poison1
  | node (x : ι)
deriving DecidableEq, Repr

/-- A value of type `struct hlist_node **`. -/
inductive HlistPprev (κ ι : Type) where
  | null
  | poison2
  | slot (p : Slot κ ι)
deriving DecidableEq, Repr

/-- `struct hlist_node` -/
@[ext] structure HlistNode (κ ι : Type) where
  next : HlistPtr ι
  pprev : HlistPprev κ ι
deriving DecidableEq, Repr

/-- The memory of all `struct hlist_head`s and `struct hlist_node`s. -/
@[ext] structure HlistMem (κ ι : Type) where
  first : κ → HlistPtr ι
  node : ι → HlistNode κ ι

variable {κ ι : Type}

/-! ### Loads and stores -/

/-- What a pointer to a pointer refers to. -/
def load (p : Slot κ ι) (s : HlistMem κ ι) : HlistPtr ι :=
  match p with
  | .first h => s.first h
  | .next x => (s.node x).next

variable [DecidableEq κ] [DecidableEq ι]

def store (p : Slot κ ι) (v : HlistPtr ι) (s : HlistMem κ ι) : HlistMem κ ι :=
  match p with
  | .first h => { s with first := fun k => if k = h then v else s.first k }
  | .next x => { s with node := fun y => if y = x then { s.node y with next := v } else s.node y }

def setPprev (x : ι) (v : HlistPprev κ ι) (s : HlistMem κ ι) : HlistMem κ ι :=
  { s with node := fun y => if y = x then { s.node y with pprev := v } else s.node y }

/-- `*pprev = v` -/
def storeAt (pprev : HlistPprev κ ι) (v : HlistPtr ι) (s : HlistMem κ ι) : Option (HlistMem κ ι) :=
  match pprev with
  | .slot p => some (store p v s)
  | _ => none

/-- `if (n) n->pprev = v` -/
def storePprev (n : HlistPtr ι) (v : HlistPprev κ ι) (s : HlistMem κ ι) : Option (HlistMem κ ι) :=
  match n with
  | .null => some s
  | .node x => some (setPprev x v s)
  | .poison1 => none

@[simp] theorem load_store {p q : Slot κ ι} {v : HlistPtr ι} {s : HlistMem κ ι} :
    load q (store p v s) = if q = p then v else load q s := by
  cases p <;> cases q <;> simp [load, store, apply_ite HlistNode.next]

omit [DecidableEq κ] in
@[simp] theorem load_setPprev {p : Slot κ ι} {x : ι} {v : HlistPprev κ ι} {s : HlistMem κ ι} :
    load p (setPprev x v s) = load p s := by
  cases p <;> simp [load, setPprev, apply_ite HlistNode.next]

@[simp] theorem pprev_store {p : Slot κ ι} {x : ι} {v : HlistPtr ι} {s : HlistMem κ ι} :
    ((store p v s).node x).pprev = (s.node x).pprev := by
  cases p <;> simp [store, apply_ite HlistNode.pprev]

omit [DecidableEq κ] in
@[simp] theorem pprev_setPprev {x y : ι} {v : HlistPprev κ ι} {s : HlistMem κ ι} :
    ((setPprev x v s).node y).pprev = if y = x then v else (s.node y).pprev := by
  simp [setPprev, apply_ite HlistNode.pprev]

omit [DecidableEq κ] [DecidableEq ι] in
/-- Two memories are equal when their pointers are. -/
theorem mem_ext {s s' : HlistMem κ ι} (hl : ∀ p, load p s = load p s')
    (hp : ∀ x, (s.node x).pprev = (s'.node x).pprev) : s = s' := by
  ext x
  · exact hl (.first x)
  · exact hl (.next x)
  · exact hp x

/-! ### The functions -/

/-- `INIT_HLIST_HEAD` -/
def initHlistHead (h : κ) (s : HlistMem κ ι) : HlistMem κ ι := store (.first h) .null s

/-- `INIT_HLIST_NODE` -/
def initHlistNode (h : ι) (s : HlistMem κ ι) : HlistMem κ ι := setPprev h .null (store (.next h) .null s)

def hlistUnhashed (h : ι) (s : HlistMem κ ι) : Bool := (s.node h).pprev = .null

def hlistEmpty (h : κ) (s : HlistMem κ ι) : Bool := s.first h = .null

/-- `__hlist_del` -/
def hlistUnlink (n : ι) (s : HlistMem κ ι) : Option (HlistMem κ ι) := do
  let next := (s.node n).next
  let pprev := (s.node n).pprev
  let s ← storeAt pprev next s
  storePprev next pprev s

def hlistDel (n : ι) (s : HlistMem κ ι) : Option (HlistMem κ ι) := do
  let s ← hlistUnlink n s
  return setPprev n .poison2 (store (.next n) .poison1 s)

def hlistDelInit (n : ι) (s : HlistMem κ ι) : Option (HlistMem κ ι) :=
  if !hlistUnhashed n s then do
    let s ← hlistUnlink n s
    return initHlistNode n s
  else some s

def hlistAddHead (n : ι) (h : κ) (s : HlistMem κ ι) : Option (HlistMem κ ι) := do
  let first := s.first h
  let s := store (.next n) first s
  let s ← storePprev first (.slot (.next n)) s
  let s := store (.first h) (.node n) s
  return setPprev n (.slot (.first h)) s

def hlistAddBefore (n next : ι) (s : HlistMem κ ι) : Option (HlistMem κ ι) := do
  let s := setPprev n (s.node next).pprev s
  let s := store (.next n) (.node next) s
  let s := setPprev next (.slot (.next n)) s
  storeAt (s.node n).pprev (.node n) s

/-- `hlist_add_after`, which puts `next` behind `n`. -/
def hlistAddAfter (n next : ι) (s : HlistMem κ ι) : Option (HlistMem κ ι) := do
  let s := store (.next next) (s.node n).next s
  let s := store (.next n) (.node next) s
  let s := setPprev next (.slot (.next n)) s
  storePprev (s.node next).next (.slot (.next next)) s

def hlistAddFake (n : ι) (s : HlistMem κ ι) : HlistMem κ ι := setPprev n (.slot (.next n)) s

def hlistMoveList (old new : κ) (s : HlistMem κ ι) : Option (HlistMem κ ι) := do
  let s := store (.first new) (s.first old) s
  let s ← storePprev (s.first new) (.slot (.first new)) s
  return store (.first old) .null s

end Libls.HashLists
