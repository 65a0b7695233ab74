import Libls.Library.HeapTree
import Libls.Library.LinkedTreeOps

/-! # The priority tree of `src/prio_tree.c`

The functions of `src/prio_tree.c` on a store of `struct prio_node` cells.  The word
`__parent_balance` packs a parent pointer and one balance bit; a cell keeps the two as the
fields `parent` and `tag`.  `cmp` is the comparison function the caller passes, at the keys the
nodes have during the call.  Null dereferences have no result.

`prio_swap` is written twice in the source, once for each side; here it is `prioSwapSide d`. -/

namespace Libls.Prio

open LinkedTree

/-- The enumeration of `prio_tree.c`. -/
inductive PrioBalance where
  | equalWeight
  | leftHeavier
deriving DecidableEq, Repr

/-- `balance ^ 1`. -/
def PrioBalance.change : PrioBalance → PrioBalance
  | .equalWeight => .leftHeavier
  | .leftHeavier => .equalWeight

/-- The memory of all `struct prio_node`s together with one `struct prio_root`. -/
abbrev PrioRoot (ι : Type) := Store ι PrioBalance

variable {ι : Type} [DecidableEq ι]

/-! ### Accessors -/

omit [DecidableEq ι] in
def prioParent (node : ι) (s : PrioRoot ι) : Option ι := (s.mem node).parent

omit [DecidableEq ι] in
def prioBalance (node : ι) (s : PrioRoot ι) : PrioBalance := (s.mem node).tag

def prioSetParent (node : ι) (parent : Option ι) (s : PrioRoot ι) : PrioRoot ι :=
  s.setParent node parent

def prioSetBalance (node : ι) (balance : PrioBalance) (s : PrioRoot ι) : PrioRoot ι :=
  s.setTag node balance

/-- `prio_init_parent` also clears the balance. -/
def prioInitParent (node : ι) (parent : Option ι) (s : PrioRoot ι) : PrioRoot ι :=
  (s.setParent node parent).setTag node .equalWeight

def prioChangeBalance (node : ι) (s : PrioRoot ι) : PrioRoot ι :=
  prioSetBalance node (prioBalance node s).change s

def prioUpdateDownlink (node old : ι) (s : PrioRoot ι) : PrioRoot ι :=
  s.replaceChild (prioParent node s) old (some node)

omit [DecidableEq ι] in
def prioTop (s : PrioRoot ι) : Option ι := s.root

/-- An empty `struct prio_root`, over any contents of memory. -/
def prioRoot (mem : ι → Cell ι PrioBalance) : PrioRoot ι := ⟨mem, none⟩

/-! ### Exchanging a node with its parent -/

/-- The links of `prio_swap`, when `node` is the child of `parent` on side `d`. -/
def prioSwapSide (d : Dir) (node parent : ι) (s : PrioRoot ι) : PrioRoot ι :=
  let far := (s.mem node).child d.other
  let s := s.setChild d.other node ((s.mem parent).child d.other)
  let s := s.setChild d.other parent far
  let s := s.setParentOf ((s.mem node).child d.other) (some node)
  let s := s.setParentOf ((s.mem parent).child d.other) (some parent)
  let s := s.setChild d parent ((s.mem node).child d)
  let s := s.setParentOf ((s.mem parent).child d) (some parent)
  let s := prioSetParent node (prioParent parent s) s
  let s := prioUpdateDownlink node parent s
  let s := s.setChild d node (some parent)
  prioSetParent parent (some node) s

/-- The links change places, and then the balances do. -/
def prioSwap (node parent : ι) (s : PrioRoot ι) : PrioRoot ι :=
  let s :=
    if (s.mem parent).left = some node then prioSwapSide .left node parent s
    else prioSwapSide .right node parent s
  let balance := prioBalance node s
  let s := prioSetBalance node (prioBalance parent s) s
  prioSetBalance parent balance s

/-! ### Insertion -/

/-- One pass of the first loop of `prio_insert`: hang `node` into the slot on the lighter side
of `parent`, or go on below it.  The result holds the parent of `node`. -/
def prioLinkPass (node : ι) (s : PrioRoot ι) (parent : ι) : Iter ι (ι × PrioRoot ι) :=
  match prioBalance parent s with
  | .equalWeight =>
      match (s.mem parent).left with
      | none => .done (parent, s.setChild .left parent (some node))
      | some left => .next left
  | .leftHeavier =>
      match (s.mem parent).right with
      | none => .done (parent, s.setChild .right parent (some node))
      | some right => .next right

def prioLink (node parent : ι) (s : PrioRoot ι) : Prog (ι × PrioRoot ι) :=
  Prog.iterate (fun parent => .ofOption (some (prioLinkPass node s parent))) parent

/-- One pass of the `do ... while (parent)` loop of `prio_insert`. -/
def prioInsertPass (cmp : ι → ι → ℤ) (node parent : ι) (s : PrioRoot ι) :
    Iter (ι × PrioRoot ι) (Option ι × PrioRoot ι) :=
  if cmp node parent ≤ 0 then .done (some parent, s)
  else
    let s := prioChangeBalance parent s
    let s := prioSwap node parent s
    match prioParent node s with
    | none => .done (none, s)
    | some parent => .next (parent, s)

def prioInsertSift (cmp : ι → ι → ℤ) (node parent : ι) (s : PrioRoot ι) :
    Prog (Option ι × PrioRoot ι) :=
  Prog.iterate (fun p : ι × PrioRoot ι => .ofOption (some (prioInsertPass cmp node p.1 p.2)))
    (parent, s)

/-- `while (parent)` change the balance and go up. -/
def prioChangeUp (parent : Option ι) (s : PrioRoot ι) : Prog (PrioRoot ι) :=
  Prog.iterate (fun p : Option ι × PrioRoot ι => .ofOption <| some <|
    match p.1 with
    | none => .done p.2
    | some parent =>
        let s := prioChangeBalance parent p.2
        .next (prioParent parent s, s)) (parent, s)

def prioInsert (cmp : ι → ι → ℤ) (node : ι) (s : PrioRoot ι) : Prog (PrioRoot ι) :=
  let s := (s.setChild .left node none).setChild .right node none
  match s.root with
  | none => pure { prioInitParent node none s with root := some node }
  | some top => do
      let (parent, s) ← prioLink node top s
      let s := prioInitParent node (some parent) s
      let (parent, s) ← prioInsertSift cmp node parent s
      prioChangeUp parent s

/-! ### Adjustment -/

/-- One pass of the `do ... while` loop of `prio_adjust` that moves `node` up. -/
def prioAdjustUpPass (cmp : ι → ι → ℤ) (node parent : ι) (s : PrioRoot ι) :
    Iter (ι × PrioRoot ι) (PrioRoot ι) :=
  let s := prioSwap node parent s
  match prioParent node s with
  | none => .done s
  | some parent => if 0 < cmp node parent then .next (parent, s) else .done s

def prioAdjustUp (cmp : ι → ι → ℤ) (node parent : ι) (s : PrioRoot ι) : Prog (PrioRoot ι) :=
  Prog.iterate (fun p : ι × PrioRoot ι => .ofOption (some (prioAdjustUpPass cmp node p.1 p.2)))
    (parent, s)

/-- `if (child && cmp(child, max) > 0) max = child;`. -/
def prioMax (cmp : ι → ι → ℤ) (child : Option ι) (max : ι) : ι :=
  match child with
  | none => max
  | some child => if 0 < cmp child max then child else max

/-- One pass of the `while (1)` loop of `prio_adjust` that moves `node` down. -/
def prioAdjustDownPass (cmp : ι → ι → ℤ) (node : ι) (s : PrioRoot ι) :
    Iter (PrioRoot ι) (PrioRoot ι) :=
  let max := prioMax cmp (s.mem node).left node
  let max := prioMax cmp (s.mem node).right max
  if max = node then .done s else .next (prioSwap max node s)

def prioAdjustDown (cmp : ι → ι → ℤ) (node : ι) (s : PrioRoot ι) : Prog (PrioRoot ι) :=
  Prog.iterate (fun s => .ofOption (some (prioAdjustDownPass cmp node s))) s

def prioAdjust (cmp : ι → ι → ℤ) (node : ι) (s : PrioRoot ι) : Prog (PrioRoot ι) :=
  match prioParent node s with
  | some parent =>
      if 0 < cmp node parent then prioAdjustUp cmp node parent s else prioAdjustDown cmp node s
  | none => prioAdjustDown cmp node s

/-! ### Removal -/

/-- One pass of the first loop of `prio_erase`: `node` changes places with its larger child, the
left one if they are equal. -/
def prioErasePass (cmp : ι → ι → ℤ) (node : ι) (s : PrioRoot ι) : Iter (PrioRoot ι) (PrioRoot ι) :=
  match (s.mem node).left with
  | none => .done s
  | some child => .next (prioSwap (prioMax cmp (s.mem node).right child) node s)

def prioEraseSift (cmp : ι → ι → ℤ) (node : ι) (s : PrioRoot ι) : Prog (PrioRoot ι) :=
  Prog.iterate (fun s => .ofOption (some (prioErasePass cmp node s))) s

/-- One pass of the second loop of `prio_erase`, which looks for the last leaf on the heavier
side; the loop keeps `victim` and `parent`. -/
def prioVictimPass (s : PrioRoot ι) (p : Option ι × Option ι) :
    Option (Iter (Option ι × Option ι) (ι × Option ι)) := do
  let victim ← p.1
  match prioBalance victim s with
  | .equalWeight =>
      match (s.mem victim).right with
      | none => return .done (victim, p.2)
      | some right => return .next (some right, some victim)
  | .leftHeavier => return .next ((s.mem victim).left, some victim)

def prioFindVictim (s : PrioRoot ι) : Prog (ι × Option ι) :=
  Prog.iterate (fun p => .ofOption (prioVictimPass s p)) (s.root, none)

/-- One pass of the `for` loop of `prio_erase`, which moves the victim up. -/
def prioEraseUpPass (cmp : ι → ι → ℤ) (victim : ι) (s : PrioRoot ι) : Iter (PrioRoot ι) (PrioRoot ι) :=
  match prioParent victim s with
  | none => .done s
  | some parent => if cmp victim parent ≤ 0 then .done s else .next (prioSwap victim parent s)

def prioEraseUp (cmp : ι → ι → ℤ) (victim : ι) (s : PrioRoot ι) : Prog (PrioRoot ι) :=
  Prog.iterate (fun s => .ofOption (some (prioEraseUpPass cmp victim s))) s

def prioErase (cmp : ι → ι → ℤ) (node : ι) (s : PrioRoot ι) : Prog (PrioRoot ι) := do
  let s ← prioEraseSift cmp node s
  let (victim, parent) ← prioFindVictim s
  let s := s.replaceChild parent victim none
  let s ← prioChangeUp parent s
  if victim = node then return s
  else
    let s := s.replaceChild (prioParent node s) node (some victim)
    -- `victim->__parent_balance = node->__parent_balance`
    let s := (s.setParent victim (s.mem node).parent).setTag victim (s.mem node).tag
    prioEraseUp cmp victim s

end Libls.Prio
