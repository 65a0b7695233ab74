import Libls.Library.Prog
import Libls.Library.LinkedTreeOps

/-! # The AVL tree of `src/avltree.c`

The functions of `src/avltree.c` and `include/ls/avltree.h` on a store of `struct avl_node`
cells.  The word `__parent_balance` packs a parent pointer and a two-bit balance (nodes are
aligned to `sizeof(long)`, so the low bits of the pointer are free); a cell keeps the two as the
fields `parent` and `tag`.  Null dereferences, `abort()` and failing assertions have no result.

The source writes every rebalancing function twice, once for each side.  Here each pair is one
definition with a parameter `d`, and the two names of the source are its two instances. -/

namespace Libls.Avl

open LinkedTree

/-- The enumeration of `avltree.h`. -/
inductive AvlBalance where
  | equalHeight
  | leftHigher
  | rightHigher
deriving DecidableEq, Repr

/-- `AVL_LEFT_HIGHER` or `AVL_RIGHT_HIGHER`. -/
def AvlBalance.higher : Dir → AvlBalance
  | .left => .leftHigher
  | .right => .rightHigher

/-- The memory of all `struct avl_node`s together with one `struct avl_root`. -/
abbrev AvlRoot (ι : Type) := Store ι AvlBalance

variable {ι : Type} [DecidableEq ι]

/-! ### Accessors -/

def avlSetParent (node : ι) (parent : Option ι) (s : AvlRoot ι) : AvlRoot ι := s.setParent node parent

def avlSetBalance (node : ι) (balance : AvlBalance) (s : AvlRoot ι) : AvlRoot ι :=
  s.setTag node balance

omit [DecidableEq ι] in
def avlParent (node : ι) (s : AvlRoot ι) : Option ι := (s.mem node).parent

omit [DecidableEq ι] in
def avlBalance (node : ι) (s : AvlRoot ι) : AvlBalance := (s.mem node).tag

/-- `AVL_ROOT`, over any contents of memory. -/
def avlRoot (mem : ι → Cell ι AvlBalance) : AvlRoot ι := ⟨mem, none⟩

/-- `avl_link_node`; `pos` is the address of a child pointer or of the root pointer. -/
def avlLinkNode (node : ι) (parent : Option ι) (pos : Option (ι × Dir)) (s : AvlRoot ι) : AvlRoot ι :=
  (s.write node ⟨parent, .equalHeight, none, none⟩).setSlot pos (some node)

/-! ### Rotations -/

def avlChangeChild (node : Option ι) (child : ι) (parent : Option ι) (s : AvlRoot ι) : AvlRoot ι :=
  s.replaceChild parent child node

/-- `avl_rotate_left` and `avl_rotate_right`: `node` is the child of `parent` on the side
opposite to `d` and comes into its place. -/
def avlRotate (d : Dir) (node parent : ι) (s : AvlRoot ι) : AvlRoot ι :=
  let s := s.setChild d.other parent ((s.mem node).child d)
  let s := s.setParentOf ((s.mem parent).child d.other) (some parent)
  let s := s.setChild d node (some parent)
  let s := avlSetParent node (avlParent parent s) s
  let s := avlSetParent parent (some node) s
  avlChangeChild (some node) parent (avlParent node s) s

def avlRotateLeft (node parent : ι) : AvlRoot ι → AvlRoot ι := avlRotate .left node parent
def avlRotateRight (node parent : ι) : AvlRoot ι → AvlRoot ι := avlRotate .right node parent

/-! ### Insertion -/

/-- `avl_left_balance` and `avl_right_balance`: the subtree `node` on side `d` of `parent` has
grown and is two higher than the other one. -/
def avlSideBalance (d : Dir) (node parent : ι) (s : AvlRoot ι) : Option (AvlRoot ι) :=
  if avlBalance node s = .equalHeight then none
  else if avlBalance node s = .higher d then
    let s := avlSetBalance node .equalHeight s
    let s := avlSetBalance parent .equalHeight s
    some (avlRotate d.other node parent s)
  else do
    let inner ← (s.mem node).child d.other
    let s :=
      if avlBalance inner s = .equalHeight then
        avlSetBalance parent .equalHeight (avlSetBalance node .equalHeight s)
      else if avlBalance inner s = .higher d then
        avlSetBalance parent (.higher d.other) (avlSetBalance node .equalHeight s)
      else
        avlSetBalance parent .equalHeight (avlSetBalance node (.higher d) s)
    let s := avlSetBalance inner .equalHeight s
    -- from the left-right case to the left-left case
    let s := avlRotate d inner node s
    let node ← (s.mem parent).child d
    some (avlRotate d.other node parent s)

def avlLeftBalance (node parent : ι) : AvlRoot ι → Option (AvlRoot ι) := avlSideBalance .left node parent
def avlRightBalance (node parent : ι) : AvlRoot ι → Option (AvlRoot ι) := avlSideBalance .right node parent

/-- One arm of the loop of `avl_insert_balance`: `node` hangs on side `d` of `parent`. -/
def avlInsertArm (d : Dir) (node parent : ι) (s : AvlRoot ι) :
    Option (Iter (ι × AvlRoot ι) (AvlRoot ι)) :=
  if avlBalance parent s = .equalHeight then
    some (.next (parent, avlSetBalance parent (.higher d) s))
  else if avlBalance parent s = .higher d then do
    return .done (← avlSideBalance d node parent s)
  else
    some (.done (avlSetBalance parent .equalHeight s))

def avlInsertStep (node : ι) (s : AvlRoot ι) : Option (Iter (ι × AvlRoot ι) (AvlRoot ι)) :=
  match avlParent node s with
  | none => some (.done s)
  | some parent =>
      if (s.mem parent).left = some node then avlInsertArm .left node parent s
      else avlInsertArm .right node parent s

def avlInsertBalance (node : ι) (s : AvlRoot ι) : Prog (AvlRoot ι) :=
  Prog.iterate (fun p : ι × AvlRoot ι => .ofOption (avlInsertStep p.1 p.2)) (node, s)

/-! ### Removal -/

/-- `avl_erase_right_left` and `avl_erase_left_right`: the double rotation towards side `d`;
`node` is the child of `parent` on the other side. -/
def avlEraseDouble (d : Dir) (node parent : ι) (s : AvlRoot ι) : Option (AvlRoot ι) := do
  let inner ← (s.mem node).child d
  let s :=
    if avlBalance inner s = .equalHeight then
      avlSetBalance parent .equalHeight (avlSetBalance node .equalHeight s)
    else if avlBalance inner s = .higher d then
      avlSetBalance parent .equalHeight (avlSetBalance node (.higher d.other) s)
    else
      avlSetBalance parent (.higher d) (avlSetBalance node .equalHeight s)
  let s := avlSetBalance inner .equalHeight s
  let s := avlRotate d.other inner node s
  some (avlRotate d inner parent s)

def avlEraseRightLeft (node parent : ι) : AvlRoot ι → Option (AvlRoot ι) := avlEraseDouble .left node parent
def avlEraseLeftRight (node parent : ι) : AvlRoot ι → Option (AvlRoot ι) := avlEraseDouble .right node parent

/-- One arm of the loop of `avl_erase_balance`: the subtree on side `d` of `parent` shrinks. -/
def avlEraseArm (d : Dir) (parent : ι) (s : AvlRoot ι) :
    Option (Iter (ι × AvlRoot ι) (AvlRoot ι)) :=
  if avlBalance parent s = .equalHeight then
    some (.done (avlSetBalance parent (.higher d.other) s))
  else if avlBalance parent s = .higher d then
    some (.next (parent, avlSetBalance parent .equalHeight s))
  else do
    let node ← (s.mem parent).child d.other
    if avlBalance node s = .equalHeight then
      -- case 3a
      return .done (avlRotate d node parent (avlSetBalance node (.higher d) s))
    else if avlBalance node s = .higher d then
      -- case 3c
      let s ← avlEraseDouble d node parent s
      let node ← avlParent node s
      return .next (node, s)
    else
      -- case 3b
      let s := avlSetBalance node .equalHeight s
      let s := avlSetBalance parent .equalHeight s
      return .next (node, avlRotate d node parent s)

def avlEraseStep (node : ι) (s : AvlRoot ι) : Option (Iter (ι × AvlRoot ι) (AvlRoot ι)) :=
  match avlParent node s with
  | none => some (.done s)
  | some parent =>
      if (s.mem parent).left = some node then avlEraseArm .left parent s
      else avlEraseArm .right parent s

def avlEraseBalance (node : ι) (s : AvlRoot ι) : Prog (AvlRoot ι) :=
  Prog.iterate (fun p : ι × AvlRoot ι => .ofOption (avlEraseStep p.1 p.2)) (node, s)

omit [DecidableEq ι] in
def avlLeftMost (node : ι) (s : AvlRoot ι) : Prog ι := extreme .left node s

omit [DecidableEq ι] in
def avlRightMost (node : ι) (s : AvlRoot ι) : Prog ι := extreme .right node s

/-- `avl_replace_node`: the whole cell is copied first. -/
def avlReplaceNode (victim node : ι) (s : AvlRoot ι) : AvlRoot ι :=
  let s := s.write node (s.mem victim)
  let s := avlChangeChild (some node) victim (avlParent node s) s
  let s := s.setParentOf (s.mem node).left (some node)
  s.setParentOf (s.mem node).right (some node)

/-- `real->left ? real->left : real->right`. -/
def avlOnlyChild (real : ι) (s : AvlRoot ι) : Option ι :=
  match (s.mem real).left with
  | some left => some left
  | none => (s.mem real).right

/-- The lines of `avl_erase` under "Unlink the real node". -/
def avlUnlink (real : ι) (s : AvlRoot ι) : AvlRoot ι :=
  let parent := avlParent real s
  let s := avlChangeChild (avlOnlyChild real s) real parent s
  match (s.mem real).left with
  | some left => avlSetParent left parent s
  | none => s.setParentOf (s.mem real).right parent

def avlErase (node : ι) (s : AvlRoot ι) : Prog (AvlRoot ι) := do
  let real ← match (s.mem node).left, (s.mem node).right with
    | some left, some _ => avlRightMost left s
    | _, _ => pure node
  let s ← avlEraseBalance real s
  let s := avlUnlink real s
  return if node ≠ real then avlReplaceNode node real s else s

end Libls.Avl
