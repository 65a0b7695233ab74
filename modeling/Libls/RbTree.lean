import Libls.Library.Prog
import Libls.Library.LinkedTreeWalk

/-! # The red-black tree of `src/rbtree.c`

The functions of `src/rbtree.c` and `include/ls/rbtree_augmented.h` on a store of `struct rb_node`
cells, without the augmented callbacks, which do nothing in `rb_insert_color` and `rb_erase`.  The
word `__rb_parent_color` packs a parent pointer and a colour; a cell keeps the two as the fields
`parent` and `tag`.  Null dereferences have no result, and neither has taking a black node's word
for a pointer (`rb_red_parent`).

The two arms of each loop are mirror images; here each pair is one definition with a parameter `d`,
the side on which the parent (in `__rb_insert`) or the node (in `____rb_erase_color`) hangs. -/

namespace Libls.Rb

open LinkedTree

/-- `RB_RED` and `RB_BLACK` -/
inductive RbColor where
  | red
  | black
deriving DecidableEq, Repr

/-- The memory of all `struct rb_node`s together with one `struct rb_root`. -/
abbrev RbRoot (ι : Type) := Store ι RbColor

variable {ι : Type} [DecidableEq ι]

/-! ### Accessors -/

omit [DecidableEq ι] in
def rbParent (rb : ι) (s : RbRoot ι) : Option ι := (s.mem rb).parent

omit [DecidableEq ι] in
def rbColor (rb : ι) (s : RbRoot ι) : RbColor := (s.mem rb).tag

omit [DecidableEq ι] in
abbrev rbIsBlack (rb : ι) (s : RbRoot ι) : Prop := rbColor rb s = .black

/-- `rb && rb_is_red(rb)`, or else `!rb || rb_is_black(rb)`. -/
def rbIsRed (rb : Option ι) (s : RbRoot ι) : Bool :=
  match rb with
  | none => false
  | some rb => rbColor rb s = .red

/-- `rb_red_parent`, which is only good for a red node. -/
def rbRedParent (red : ι) (s : RbRoot ι) : Option (Option ι) :=
  if rbColor red s = .red then some (rbParent red s) else none

def rbSetParent (rb : ι) (p : Option ι) (s : RbRoot ι) : RbRoot ι := s.setParent rb p

def rbSetBlack (rb : ι) (s : RbRoot ι) : RbRoot ι := s.setTag rb .black

def rbSetParentColor (rb : ι) (p : Option ι) (color : RbColor) (s : RbRoot ι) : RbRoot ι :=
  s.write rb { s.mem rb with parent := p, tag := color }

/-- `if (tmp) rb_set_parent_color(tmp, p, color)` -/
def rbSetParentColorOf (tmp : Option ι) (p : Option ι) (color : RbColor) (s : RbRoot ι) : RbRoot ι :=
  match tmp with
  | none => s
  | some tmp => rbSetParentColor tmp p color s

/-- `new->__rb_parent_color = old->__rb_parent_color` -/
def rbCopyParentColor (old new : ι) (s : RbRoot ι) : RbRoot ι :=
  rbSetParentColor new (rbParent old s) (rbColor old s) s

/-- `RB_EMPTY_NODE`: the word holds the address of the node, and no colour bit. -/
def rbEmptyNode (node : ι) (s : RbRoot ι) : Bool :=
  rbParent node s = some node ∧ rbColor node s = .red

/-- `RB_CLEAR_NODE` -/
def rbClearNode (node : ι) (s : RbRoot ι) : RbRoot ι := rbSetParentColor node (some node) .red s

/-- `RB_ROOT`, over any contents of memory. -/
def rbRoot (mem : ι → Cell ι RbColor) : RbRoot ι := ⟨mem, none⟩

/-- `rb_link_node`; `link` is the address of a child pointer or of the root pointer. -/
def rbLinkNode (node : ι) (parent : Option ι) (link : Option (ι × Dir)) (s : RbRoot ι) : RbRoot ι :=
  (s.write node ⟨parent, .red, none, none⟩).setSlot link (some node)

omit [DecidableEq ι] in
/-- What the address `p` of a child pointer or of the root pointer refers to. -/
def getLink (p : Option (ι × Dir)) (root : RbRoot ι) : Option ι :=
  match p with
  | none => root.root
  | some (x, d) => (root.mem x).child d

def rbChangeChild (old : ι) (new parent : Option ι) (s : RbRoot ι) : RbRoot ι :=
  s.replaceChild parent old new

/-- `__rb_rotate_set_parents` -/
def rbRotateSetParents (old new : ι) (color : RbColor) (s : RbRoot ι) : RbRoot ι :=
  let parent := rbParent old s
  let s := rbCopyParentColor old new s
  let s := rbSetParentColor old (some new) color s
  rbChangeChild old (some new) parent s

/-! ### Insertion -/

/-- The variables of the loop of `__rb_insert`. -/
structure RbInsertLoop (ι : Type) where
  node : ι
  parent : Option ι
  root : RbRoot ι

/-- Case 2 of `__rb_insert`, with the new values of `parent` and `tmp`. -/
def rbInsertInner (d : Dir) (node parent : ι) (s : RbRoot ι) : ι × Option ι × RbRoot ι :=
  if (s.mem parent).child d.other = some node then
    let tmp := (s.mem node).child d
    let s := s.setChild d.other parent tmp
    let s := s.setChild d node (some parent)
    let s := rbSetParentColorOf tmp (some parent) .black s
    let s := rbSetParentColor parent (some node) .red s
    (node, (s.mem node).child d.other, s)
  else (parent, (s.mem parent).child d.other, s)

/-- Case 3 of `__rb_insert`. -/
def rbInsertOuter (d : Dir) (parent gparent : ι) (tmp : Option ι) (s : RbRoot ι) : RbRoot ι :=
  let s := s.setChild d gparent tmp
  let s := s.setChild d.other parent (some gparent)
  let s := rbSetParentColorOf tmp (some gparent) .black s
  rbRotateSetParents gparent parent .red s

/-- One arm of the loop of `__rb_insert`: `parent` hangs on side `d` of `gparent`. -/
def rbInsertArm (d : Dir) (node parent gparent : ι) (s : RbRoot ι) :
    Iter (RbInsertLoop ι) (RbRoot ι) :=
  match (s.mem gparent).child d.other, rbIsRed ((s.mem gparent).child d.other) s with
  | some tmp, true =>
      -- case 1
      let s := rbSetParentColor tmp (some gparent) .black s
      let s := rbSetParentColor parent (some gparent) .black s
      let node := gparent
      let parent := rbParent node s
      .next ⟨node, parent, rbSetParentColor node parent .red s⟩
  | _, _ =>
      let (parent, tmp, s) := rbInsertInner d node parent s
      .done (rbInsertOuter d parent gparent tmp s)

def rbInsertStep (p : RbInsertLoop ι) : Option (Iter (RbInsertLoop ι) (RbRoot ι)) :=
  let s := p.root
  match p.parent with
  | none => some (.done (rbSetParentColor p.node none .black s))
  | some parent =>
      if rbIsBlack parent s then some (.done s)
      else do
        let gparent ← (← rbRedParent parent s)
        if (s.mem gparent).right ≠ some parent then return rbInsertArm .left p.node parent gparent s
        else return rbInsertArm .right p.node parent gparent s

/-- `__rb_insert`, which `rb_insert_color` is. -/
def rbInsertColor (node : ι) (s : RbRoot ι) : Prog (RbRoot ι) := do
  let parent ← rbRedParent node s
  Prog.iterate (fun p => liftM (rbInsertStep p)) (⟨node, parent, s⟩ : RbInsertLoop ι)

/-! ### Removal -/

/-- The variables of the loop of `____rb_erase_color`. -/
structure RbEraseLoop (ι : Type) where
  node : Option ι
  parent : ι
  root : RbRoot ι

/-- Case 1 of `____rb_erase_color`: the sibling is red. -/
def rbEraseRedSibling (d : Dir) (parent sibling : ι) (s : RbRoot ι) : Option (ι × RbRoot ι) := do
  let tmp1 ← (s.mem sibling).child d
  let s := s.setChild d.other parent (some tmp1)
  let s := s.setChild d sibling (some parent)
  let s := rbSetParentColor tmp1 (some parent) .black s
  return (tmp1, rbRotateSetParents parent sibling .red s)

/-- Case 2: the sibling and its children are black. -/
def rbEraseFlip (parent sibling : ι) (s : RbRoot ι) : Iter (RbEraseLoop ι) (RbRoot ι) :=
  let s := rbSetParentColor sibling (some parent) .red s
  if rbColor parent s = .red then .done (rbSetBlack parent s)
  else
    match rbParent parent s with
    | some p => .next ⟨some parent, p, s⟩
    | none => .done s

/-- Case 3: the inner child `tmp2` of the sibling is red and the outer one is not.  The result is
the new `tmp1`, the new `sibling` and the store. -/
def rbEraseInner (d : Dir) (parent sibling tmp2 : ι) (s : RbRoot ι) : ι × ι × RbRoot ι :=
  let tmp1 := (s.mem tmp2).child d.other
  let s := s.setChild d sibling tmp1
  let s := s.setChild d.other tmp2 (some sibling)
  let s := s.setChild d.other parent (some tmp2)
  let s := rbSetParentColorOf tmp1 (some sibling) .black s
  (sibling, tmp2, s)

/-- Case 4: the outer child `tmp1` of the sibling is red. -/
def rbEraseOuter (d : Dir) (parent sibling tmp1 : ι) (s : RbRoot ι) : RbRoot ι :=
  let tmp2 := (s.mem sibling).child d
  let s := s.setChild d.other parent tmp2
  let s := s.setChild d sibling (some parent)
  let s := rbSetParentColor tmp1 (some sibling) .black s
  let s := s.setParentOf tmp2 (some parent)
  rbRotateSetParents parent sibling .black s

/-- Cases 2 to 4, with a black sibling. -/
def rbEraseBlackSibling (d : Dir) (parent sibling : ι) (s : RbRoot ι) :
    Iter (RbEraseLoop ι) (RbRoot ι) :=
  match (s.mem sibling).child d.other, rbIsRed ((s.mem sibling).child d.other) s with
  | some tmp1, true => .done (rbEraseOuter d parent sibling tmp1 s)
  | _, _ =>
      match (s.mem sibling).child d, rbIsRed ((s.mem sibling).child d) s with
      | some tmp2, true =>
          let (tmp1, sibling, s) := rbEraseInner d parent sibling tmp2 s
          .done (rbEraseOuter d parent sibling tmp1 s)
      | _, _ => rbEraseFlip parent sibling s

/-- One arm of the loop of `____rb_erase_color`: the node hangs on side `d` of `parent`. -/
def rbEraseArm (d : Dir) (parent : ι) (s : RbRoot ι) : Option (Iter (RbEraseLoop ι) (RbRoot ι)) := do
  let sibling ← (s.mem parent).child d.other
  if rbColor sibling s = .red then
    let (sibling, s) ← rbEraseRedSibling d parent sibling s
    return rbEraseBlackSibling d parent sibling s
  else return rbEraseBlackSibling d parent sibling s

def rbEraseStep (p : RbEraseLoop ι) : Option (Iter (RbEraseLoop ι) (RbRoot ι)) :=
  if p.node ≠ (p.root.mem p.parent).right then rbEraseArm .left p.parent p.root
  else rbEraseArm .right p.parent p.root

/-- `____rb_erase_color` -/
def rbEraseColor (parent : ι) (s : RbRoot ι) : Prog (RbRoot ι) :=
  Prog.iterate (fun p => liftM (rbEraseStep p)) (⟨none, parent, s⟩ : RbEraseLoop ι)

/-- Case 1 of `__rb_erase_augmented`: no left child. -/
def rbEraseNoLeft (node : ι) (s : RbRoot ι) : Option ι × RbRoot ι :=
  let child := (s.mem node).right
  let parent := rbParent node s
  let color := rbColor node s
  let s := rbChangeChild node child parent s
  match child with
  | some child => (none, rbSetParentColor child parent color s)
  | none => (if color = .black then parent else none, s)

/-- Case 1 with a left child only. -/
def rbEraseNoRight (node tmp : ι) (s : RbRoot ι) : Option ι × RbRoot ι :=
  let parent := rbParent node s
  let s := rbCopyParentColor node tmp s
  (none, rbChangeChild node (some tmp) parent s)

/-- The lines after cases 2 and 3: `successor` comes into the place of `node`; `child2` was its
right child and `parent` is now above `child2`. -/
def rbEraseReplace (node successor parent : ι) (child2 : Option ι) (s : RbRoot ι) :
    Option (Option ι × RbRoot ι) := do
  let tmp ← (s.mem node).left
  let s := s.setChild .left successor (some tmp)
  let s := rbSetParent tmp (some successor) s
  let s := rbChangeChild node (some successor) (rbParent node s) s
  match child2 with
  | some child2 =>
      let s := rbCopyParentColor node successor s
      return (none, rbSetParentColor child2 (some parent) .black s)
  | none =>
      let color := rbColor successor s
      let s := rbCopyParentColor node successor s
      return (if color = .black then some parent else none, s)

/-- The lines of case 3 after the loop; `parent` is the node above `successor`. -/
def rbEraseLeftmost (child successor parent : ι) (s : RbRoot ι) : Option ι × RbRoot ι :=
  let child2 := (s.mem successor).right
  let s := s.setChild .left parent child2
  let s := s.setChild .right successor (some child)
  (child2, rbSetParent child (some successor) s)

/-- `__rb_erase_augmented`: the node at which to rebalance, and the store. -/
def rbEraseAugmented (node : ι) (s : RbRoot ι) : Prog (Option ι × RbRoot ι) :=
  match (s.mem node).left, (s.mem node).right with
  | none, _ => return rbEraseNoLeft node s
  | some tmp, none => return rbEraseNoRight node tmp s
  | some _, some child =>
      match (s.mem child).left with
      | none => liftM (rbEraseReplace node child child (s.mem child).right s)
      | some tmp => do
          -- the loop keeps `parent` and `successor`
          let (parent, successor) ← Prog.iterate (fun p : ι × ι => .ofOption <| some <|
            match (s.mem p.2).left with
            | some tmp => .next (p.2, tmp)
            | none => .done p) (child, tmp)
          let (child2, s) := rbEraseLeftmost child successor parent s
          liftM (rbEraseReplace node successor parent child2 s)

/-- `rb_erase` -/
def rbErase (node : ι) (s : RbRoot ι) : Prog (RbRoot ι) := do
  let (rebalance, s) ← rbEraseAugmented node s
  match rebalance with
  | some parent => rbEraseColor parent s
  | none => return s

/-! ### Walking -/

/-- `rb_next` -/
def rbNext (node : ι) (s : RbRoot ι) : Prog (Option ι) :=
  if rbEmptyNode node s then return none
  else
    match (s.mem node).right with
    | some right => do return some (← extreme .left right s)
    | none => climb .right node s

end Libls.Rb
