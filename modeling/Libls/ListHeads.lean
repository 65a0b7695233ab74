import Libls.Library.LinkedRings

/-! # The doubly linked lists of `include/ls/list.h`

The functions of the header on a memory of `struct list_head`s.  A list is a ring of them, one of which is
the head; the others sit in the objects that are on the list.  The functions do not tell one from the other.

A pointer is the address of a `list_head` or one of the values that must not be followed: the null pointer
and the two values that `list_del` leaves behind.  Following one of them is a fault, which has no result.
What a `list_head` holds that was never initialised is any value. -/

namespace Libls.ListHeads

/-- A value of type `struct list_head *`. -/
inductive ListPtr (ι : Type) where
  | null
  | poison1
  | poison2
  | node (x : ι)
deriving DecidableEq, Repr

/-- `struct list_head` -/
@[ext] structure ListHead (ι : Type) where
  next : ListPtr ι
  prev : ListPtr ι
deriving DecidableEq, Repr

/-- The memory of all `struct list_head`s. -/
abbrev ListMem (ι : Type) := ι → ListHead ι

variable {ι : Type} [DecidableEq ι]

/-! ### Stores -/

def setNext (x : ι) (v : ListPtr ι) (s : ListMem ι) : ListMem ι :=
  fun y => if y = x then { s y with next := v } else s y

def setPrev (x : ι) (v : ListPtr ι) (s : ListMem ι) : ListMem ι :=
  fun y => if y = x then { s y with prev := v } else s y

@[simp] theorem setNext_next {x y : ι} {v : ListPtr ι} {s : ListMem ι} :
    (setNext x v s y).next = if y = x then v else (s y).next := by
  unfold setNext
  split <;> rfl

@[simp] theorem setNext_prev {x y : ι} {v : ListPtr ι} {s : ListMem ι} : (setNext x v s y).prev = (s y).prev := by
  unfold setNext
  split <;> rfl

@[simp] theorem setPrev_next {x y : ι} {v : ListPtr ι} {s : ListMem ι} : (setPrev x v s y).next = (s y).next := by
  unfold setPrev
  split <;> rfl

@[simp] theorem setPrev_prev {x y : ι} {v : ListPtr ι} {s : ListMem ι} :
    (setPrev x v s y).prev = if y = x then v else (s y).prev := by
  unfold setPrev
  split <;> rfl

/-- `p->next = v` -/
def storeNext (p v : ListPtr ι) (s : ListMem ι) : Option (ListMem ι) :=
  match p with
  | .node x => some (setNext x v s)
  | _ => none

/-- `p->prev = v` -/
def storePrev (p v : ListPtr ι) (s : ListMem ι) : Option (ListMem ι) :=
  match p with
  | .node x => some (setPrev x v s)
  | _ => none

/-! ### Insertion and removal -/

/-- `INIT_LIST_HEAD` -/
def initListHead (list : ι) (s : ListMem ι) : ListMem ι :=
  setPrev list (.node list) (setNext list (.node list) s)

@[simp] theorem initListHead_next {x y : ι} {s : ListMem ι} :
    (initListHead x s y).next = if y = x then .node x else (s y).next := by simp [initListHead]

@[simp] theorem initListHead_prev {x y : ι} {s : ListMem ι} :
    (initListHead x s y).prev = if y = x then .node x else (s y).prev := by simp [initListHead]

/-- `__list_add` -/
def listAddAt (new : ι) (prev next : ListPtr ι) (s : ListMem ι) : Option (ListMem ι) := do
  let s ← storePrev next (.node new) s
  let s := setNext new next s
  let s := setPrev new prev s
  storeNext prev (.node new) s

def listAdd (new head : ι) (s : ListMem ι) : Option (ListMem ι) :=
  listAddAt new (.node head) (s head).next s

def listAddTail (new head : ι) (s : ListMem ι) : Option (ListMem ι) :=
  listAddAt new (s head).prev (.node head) s

/-- `__list_del` -/
def listDelAt (prev next : ListPtr ι) (s : ListMem ι) : Option (ListMem ι) := do
  let s ← storePrev next prev s
  storeNext prev next s

/-- `__list_del_entry` -/
def listDelEntry (entry : ι) (s : ListMem ι) : Option (ListMem ι) :=
  listDelAt (s entry).prev (s entry).next s

def listDel (entry : ι) (s : ListMem ι) : Option (ListMem ι) := do
  let s ← listDelAt (s entry).prev (s entry).next s
  let s := setNext entry .poison1 s
  return setPrev entry .poison2 s

def listReplace (old new : ι) (s : ListMem ι) : Option (ListMem ι) := do
  let s := setNext new (s old).next s
  let s ← storePrev (s new).next (.node new) s
  let s := setPrev new (s old).prev s
  storeNext (s new).prev (.node new) s

def listReplaceInit (old new : ι) (s : ListMem ι) : Option (ListMem ι) := do
  let s ← listReplace old new s
  return initListHead old s

def listDelInit (entry : ι) (s : ListMem ι) : Option (ListMem ι) := do
  let s ← listDelEntry entry s
  return initListHead entry s

def listMove (list head : ι) (s : ListMem ι) : Option (ListMem ι) := do
  let s ← listDelEntry list s
  listAdd list head s

def listMoveTail (list head : ι) (s : ListMem ι) : Option (ListMem ι) := do
  let s ← listDelEntry list s
  listAddTail list head s

/-! ### Tests -/

def listIsLast (list head : ι) (s : ListMem ι) : Bool := (s list).next = .node head

def listEmpty (head : ι) (s : ListMem ι) : Bool := (s head).next = .node head

def listEmptyCareful (head : ι) (s : ListMem ι) : Bool :=
  let next := (s head).next
  next = .node head ∧ next = (s head).prev

def listIsSingular (head : ι) (s : ListMem ι) : Bool :=
  !listEmpty head s && (s head).next = (s head).prev

/-- `list_first_entry_or_null`, for entries that are their `list_head`s. -/
def listFirstEntryOrNull (head : ι) (s : ListMem ι) : ListPtr ι :=
  if !listEmpty head s then (s head).next else .null

/-! ### Whole lists -/

def listRotateLeft (head : ι) (s : ListMem ι) : Option (ListMem ι) :=
  if !listEmpty head s then
    match (s head).next with
    | .node first => listMoveTail first head s
    | _ => none
  else some s

/-- `__list_cut_position` -/
def listCutPositionAt (list head entry : ι) (s : ListMem ι) : Option (ListMem ι) := do
  let newFirst := (s entry).next
  let s := setNext list (s head).next s
  let s ← storePrev (s list).next (.node list) s
  let s := setPrev list (.node entry) s
  let s := setNext entry (.node list) s
  let s := setNext head newFirst s
  storePrev newFirst (.node head) s

def listCutPosition (list head entry : ι) (s : ListMem ι) : Option (ListMem ι) :=
  if listEmpty head s then some s
  else if listIsSingular head s ∧ ((s head).next ≠ .node entry ∧ head ≠ entry) then some s
  else if entry = head then some (initListHead list s)
  else listCutPositionAt list head entry s

/-- `__list_splice` -/
def listSpliceAt (list : ι) (prev next : ListPtr ι) (s : ListMem ι) : Option (ListMem ι) := do
  let first := (s list).next
  let last := (s list).prev
  let s ← storePrev first prev s
  let s ← storeNext prev first s
  let s ← storeNext last next s
  storePrev next last s

def listSplice (list head : ι) (s : ListMem ι) : Option (ListMem ι) :=
  if !listEmpty list s then listSpliceAt list (.node head) (s head).next s else some s

def listSpliceTail (list head : ι) (s : ListMem ι) : Option (ListMem ι) :=
  if !listEmpty list s then listSpliceAt list (s head).prev (.node head) s else some s

def listSpliceInit (list head : ι) (s : ListMem ι) : Option (ListMem ι) :=
  if !listEmpty list s then do
    let s ← listSpliceAt list (.node head) (s head).next s
    return initListHead list s
  else some s

def listSpliceTailInit (list head : ι) (s : ListMem ι) : Option (ListMem ι) :=
  if !listEmpty list s then do
    let s ← listSpliceAt list (s head).prev (.node head) s
    return initListHead list s
  else some s

/-! ### Links -/

/-- `a` and `b` point at each other, as neighbours in this order. -/
def Linked (s : ListMem ι) (a b : ι) : Prop := (s a).next = .node b ∧ (s b).prev = .node a

omit [DecidableEq ι] in
theorem Linked.left_unique {s : ListMem ι} {a a' b : ι} (h : Linked s a b) (h' : Linked s a' b) : a = a' :=
  ListPtr.node.inj (h.2.symm.trans h'.2)

omit [DecidableEq ι] in
theorem Linked.right_unique {s : ListMem ι} {a b b' : ι} (h : Linked s a b) (h' : Linked s a b') : b = b' :=
  ListPtr.node.inj (h.1.symm.trans h'.1)

/-- The lists of the memory: rings of `list_head`s that point at each other. -/
abbrev Represents (s : ListMem ι) (L : Lists ι) : Prop := Rings (Linked s) L

/-- `p`, which pointed at `a`, now points at `b`, and `q` the other way round. -/
def exchange (p q a b : ι) (s : ListMem ι) : ListMem ι := fun x =>
  { next := if x = p then .node b else if x = q then .node a else (s x).next
    prev := if x = b then .node p else if x = a then .node q else (s x).prev }

theorem crossed_exchange {s : ListMem ι} {p q a b : ι} (hp : Linked s p a) (hq : Linked s q b) (hne : p ≠ q) :
    Crossed (Linked s) (Linked (exchange p q a b s)) p q := by
  have hab : a ≠ b := by
    rintro rfl
    exact hne (hp.left_unique hq)
  constructor
  · intro z hz
    obtain rfl := hq.right_unique hz
    simp [Linked, exchange]
  · intro z hz
    obtain rfl := hp.right_unique hz
    simp [Linked, exchange, hne.symm, hab]
  · intro x y hxy hxp hxq
    have hya : y ≠ a := by
      rintro rfl
      exact hxp (hxy.left_unique hp)
    have hyb : y ≠ b := by
      rintro rfl
      exact hxq (hxy.left_unique hq)
    simpa [Linked, exchange, hxp, hxq, hya, hyb] using hxy

omit [DecidableEq ι] in
/-- Memory outside the rings does not matter. -/
theorem Represents.of_eq {s s' : ListMem ι} {L : Lists ι} (hs : Represents s L)
    (heq : ∀ h x, L.Mem h x → s' x = s x) : Represents s' L := by
  apply Rings.congr hs
  intro h a b ha hb hab
  exact ⟨by rw [heq h a ha, hab.1], by rw [heq h b hb, hab.2]⟩

end Libls.ListHeads
