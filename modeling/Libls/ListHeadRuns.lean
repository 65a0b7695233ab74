import Libls.ListHeadJoins

/-! # Runs of list functions

`ListStep` says what each function of `include/ls/list.h` is for, as a step on the lists of a program, with the
conditions under which its callers may use it.  `listOps_keeps` carries a whole run of such steps over to the
memory: no pointer is followed that must not be, and the memory holds the lists that the run ends with. -/

namespace Libls.ListHeads

/-- A call of one of the functions. -/
inductive ListOp (ι : Type) where
  | initListHead (list : ι)
  | listAdd (new head : ι)
  | listAddTail (new head : ι)
  | listDel (entry : ι)
  | listDelInit (entry : ι)
  | listReplace (old new : ι)
  | listReplaceInit (old new : ι)
  | listMove (list head : ι)
  | listMoveTail (list head : ι)
  | listRotateLeft (head : ι)
  | listCutPosition (list head entry : ι)
  | listSplice (list head : ι)
  | listSpliceTail (list head : ι)
  | listSpliceInit (list head : ι)
  | listSpliceTailInit (list head : ι)
deriving DecidableEq, Repr

variable {ι : Type} [DecidableEq ι]

def ListOp.run : ListOp ι → ListMem ι → Option (ListMem ι)
  | .initListHead list, s => some (ListHeads.initListHead list s)
  | .listAdd new head, s => ListHeads.listAdd new head s
  | .listAddTail new head, s => ListHeads.listAddTail new head s
  | .listDel entry, s => ListHeads.listDel entry s
  | .listDelInit entry, s => ListHeads.listDelInit entry s
  | .listReplace old new, s => ListHeads.listReplace old new s
  | .listReplaceInit old new, s => ListHeads.listReplaceInit old new s
  | .listMove list head, s => ListHeads.listMove list head s
  | .listMoveTail list head, s => ListHeads.listMoveTail list head s
  | .listRotateLeft head, s => ListHeads.listRotateLeft head s
  | .listCutPosition list head entry, s => ListHeads.listCutPosition list head entry s
  | .listSplice list head, s => ListHeads.listSplice list head s
  | .listSpliceTail list head, s => ListHeads.listSpliceTail list head s
  | .listSpliceInit list head, s => ListHeads.listSpliceInit list head s
  | .listSpliceTailInit list head, s => ListHeads.listSpliceTailInit list head s

/-- A sequence of calls. -/
def listOps (ops : List (ListOp ι)) (s : ListMem ι) : Option (ListMem ι) := ops.foldlM (fun s op => op.run s) s

/-- What the functions are for.  New entries and new heads are in no list; an entry that is removed is in the
list it is removed from. -/
inductive ListStep : Lists ι → ListOp ι → Lists ι → Prop
  | init {L : Lists ι} {h : ι} (hfree : L.Free h) : ListStep L (.initListHead h) (L.set h (some []))
  | add {L : Lists ι} {new h : ι} {xs : List ι} (hfree : L.Free new) (hne : new ≠ h) (hL : L h = some xs) :
      ListStep L (.listAdd new h) ((L.set new none).set h (some (new :: xs)))
  | addTail {L : Lists ι} {new h : ι} {xs : List ι} (hfree : L.Free new) (hne : new ≠ h) (hL : L h = some xs) :
      ListStep L (.listAddTail new h) ((L.set new none).set h (some (xs ++ [new])))
  | del {L : Lists ι} {h e : ι} {as bs : List ι} (hL : L h = some (as ++ e :: bs)) :
      ListStep L (.listDel e) (L.set h (some (as ++ bs)))
  | delInit {L : Lists ι} {h e : ι} {as bs : List ι} (hL : L h = some (as ++ e :: bs)) :
      ListStep L (.listDelInit e) ((L.set h (some (as ++ bs))).set e (some []))
  | delInitAlone {L : Lists ι} {e : ι} (hL : L e = some []) : ListStep L (.listDelInit e) L
  | replace {L : Lists ι} {h old new : ι} {as bs : List ι} (hL : L h = some (as ++ old :: bs))
      (hfree : L.Free new) (hne : new ≠ h) :
      ListStep L (.listReplace old new) ((L.set new none).set h (some (as ++ new :: bs)))
  | replaceHead {L : Lists ι} {old new : ι} {xs : List ι} (hL : L old = some xs) (hfree : L.Free new)
      (hne : new ≠ old) : ListStep L (.listReplace old new) ((L.set old none).set new (some xs))
  | replaceInit {L : Lists ι} {h old new : ι} {as bs : List ι} (hL : L h = some (as ++ old :: bs))
      (hfree : L.Free new) (hne : new ≠ h) :
      ListStep L (.listReplaceInit old new)
        (((L.set new none).set h (some (as ++ new :: bs))).set old (some []))
  | replaceInitHead {L : Lists ι} {old new : ι} {xs : List ι} (hL : L old = some xs) (hfree : L.Free new)
      (hne : new ≠ old) :
      ListStep L (.listReplaceInit old new) (((L.set old none).set new (some xs)).set old (some []))
  | move {L : Lists ι} {h e head : ι} {as bs xs : List ι} (hL : L h = some (as ++ e :: bs)) (hne : e ≠ head)
      (hxs : (L.set h (some (as ++ bs))) head = some xs) :
      ListStep L (.listMove e head) ((L.set h (some (as ++ bs))).set head (some (e :: xs)))
  | moveTail {L : Lists ι} {h e head : ι} {as bs xs : List ι} (hL : L h = some (as ++ e :: bs)) (hne : e ≠ head)
      (hxs : (L.set h (some (as ++ bs))) head = some xs) :
      ListStep L (.listMoveTail e head) ((L.set h (some (as ++ bs))).set head (some (xs ++ [e])))
  | rotateLeft {L : Lists ι} {h x : ι} {xs : List ι} (hL : L h = some (x :: xs)) :
      ListStep L (.listRotateLeft h) (L.set h (some (xs ++ [x])))
  | rotateLeftEmpty {L : Lists ι} {h : ι} (hL : L h = some []) : ListStep L (.listRotateLeft h) L
  | cutPosition {L : Lists ι} {list h e : ι} {as bs : List ι} (hL : L h = some (as ++ e :: bs))
      (hfree : L.Free list) (hne : list ≠ h) :
      ListStep L (.listCutPosition list h e) ((L.set h (some bs)).set list (some (as ++ [e])))
  | cutPositionHead {L : Lists ι} {list h x : ι} {xs : List ι} (hL : L h = some (x :: xs)) (hfree : L.Free list) :
      ListStep L (.listCutPosition list h h) (L.set list (some []))
  | cutPositionEmpty {L : Lists ι} {list h e : ι} (hL : L h = some []) : ListStep L (.listCutPosition list h e) L
  | splice {L : Lists ι} {list head y : ι} {xs ys : List ι} (hlist : L list = some (y :: ys))
      (hL : L head = some xs) (hne : list ≠ head) :
      ListStep L (.listSplice list head) ((L.set list none).set head (some (y :: ys ++ xs)))
  | spliceTail {L : Lists ι} {list head y : ι} {xs ys : List ι} (hlist : L list = some (y :: ys))
      (hL : L head = some xs) (hne : list ≠ head) :
      ListStep L (.listSpliceTail list head) ((L.set list none).set head (some (xs ++ y :: ys)))
  | spliceInit {L : Lists ι} {list head y : ι} {xs ys : List ι} (hlist : L list = some (y :: ys))
      (hL : L head = some xs) (hne : list ≠ head) :
      ListStep L (.listSpliceInit list head)
        (((L.set list none).set head (some (y :: ys ++ xs))).set list (some []))
  | spliceTailInit {L : Lists ι} {list head y : ι} {xs ys : List ι} (hlist : L list = some (y :: ys))
      (hL : L head = some xs) (hne : list ≠ head) :
      ListStep L (.listSpliceTailInit list head)
        (((L.set list none).set head (some (xs ++ y :: ys))).set list (some []))
  | spliceEmpty {L : Lists ι} {list head : ι} {op : ListOp ι} (hlist : L list = some [])
      (hop : op ∈ [.listSplice list head, .listSpliceTail list head, .listSpliceInit list head,
        .listSpliceTailInit list head]) : ListStep L op L

variable {s : ListMem ι} {L L' : Lists ι} {op : ListOp ι} {ops : List (ListOp ι)}

/-- One call does to the memory what it is for. -/
theorem listOp_keeps (hstep : ListStep L op L') (hs : Represents s L) : ∃ s', op.run s = some s' ∧ Represents s' L' := by
  cases hstep with
  | init hfree => exact ⟨_, rfl, hs.initListHead hfree⟩
  | add hfree hne hL => exact listAdd_keeps hs hfree hne hL
  | addTail hfree hne hL => exact listAddTail_keeps hs hfree hne hL
  | del hL => exact listDel_keeps hs hL
  | delInit hL => exact listDelInit_keeps hs hL
  | delInitAlone hL => exact listDelInit_alone hs hL
  | replace hL hfree hne => exact listReplace_keeps hs hL hfree hne
  | replaceHead hL hfree hne => exact listReplace_head hs hL hfree hne
  | replaceInit hL hfree hne => exact listReplaceInit_keeps hs hL hfree hne
  | replaceInitHead hL hfree hne => exact listReplaceInit_head hs hL hfree hne
  | move hL hne hxs => exact listMove_keeps hs hL hne hxs
  | moveTail hL hne hxs => exact listMoveTail_keeps hs hL hne hxs
  | rotateLeft hL => exact listRotateLeft_keeps hs hL
  | rotateLeftEmpty hL => exact ⟨s, listRotateLeft_empty hs hL, hs⟩
  | cutPosition hL hfree hne => exact listCutPosition_keeps hs hL hfree hne
  | cutPositionHead hL hfree => exact listCutPosition_head hs hL hfree
  | cutPositionEmpty hL => exact ⟨s, listCutPosition_empty hs hL, hs⟩
  | splice hlist hL hne => exact listSplice_keeps hs hlist hL hne
  | spliceTail hlist hL hne => exact listSpliceTail_keeps hs hlist hL hne
  | spliceInit hlist hL hne => exact listSpliceInit_keeps hs hlist hL hne
  | spliceTailInit hlist hL hne => exact listSpliceTailInit_keeps hs hlist hL hne
  | spliceEmpty hlist hop =>
      rename_i list head
      obtain ⟨h₁, h₂, h₃, h₄⟩ : listSplice list head s = some s ∧ listSpliceTail list head s = some s ∧
          listSpliceInit list head s = some s ∧ listSpliceTailInit list head s = some s :=
        listSplice_empty hs hlist
      simp only [List.mem_cons, List.not_mem_nil, or_false] at hop
      rcases hop with rfl | rfl | rfl | rfl
      · exact ⟨s, h₁, hs⟩
      · exact ⟨s, h₂, hs⟩
      · exact ⟨s, h₃, hs⟩
      · exact ⟨s, h₄, hs⟩

/-- **Runs.**  The memory follows the lists through every run. -/
theorem listOps_keeps (hrun : Run ListStep L ops L') (hs : Represents s L) :
    ∃ s', listOps ops s = some s' ∧ Represents s' L' :=
  hrun.execs (fun _ _ _ _ hstep hs => listOp_keeps hstep hs) hs

end Libls.ListHeads
