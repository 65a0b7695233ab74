import Libls.Library.HeapOrder
import Libls.Library.Memory
import Libls.Library.Prog

/-! # The array heap of `include/ls/heap.h`

The functions of `include/ls/heap.h`.  A heap is an allocated array of node pointers with its
length and its size; the `idx` fields of all nodes are kept beside it as a function.  Lengths,
sizes and indices are `unsigned int`s: every operation on them that can leave their range is
reduced by `u32`.  `cmp` is the comparison function the caller passes, at the keys the nodes
have during the call.  Reading outside the array has no result. -/

namespace Libls.ArrayHeap

/-- `struct heap`, and the field `idx` of every node. -/
structure Heap (ι : Type) where
  node : Block ι
  len : ℕ
  size : ℕ
  idx : ι → ℕ

variable {ι : Type} [DecidableEq ι]

omit [DecidableEq ι] in
/-- `heap_init`, over any contents of the nodes. -/
def heapInit (idx : ι → ℕ) : Heap ι := ⟨.null, 0, 0, idx⟩

def heapSwap (node node2 : ι) (h : Heap ι) : Option (Heap ι) := do
  let block ← h.node.write (h.idx node) node2
  let block ← block.write (h.idx node2) node
  let idx := Function.update (Function.update h.idx node (h.idx node2)) node2 (h.idx node)
  return { h with node := block, idx := idx }

/-- One pass of the loop of `heap_pull_up`. -/
def heapPullUpPass (cmp : ι → ι → ℤ) (node : ι) (h : Heap ι) : Option (Iter (Heap ι) (Heap ι)) :=
  if 0 < h.idx node then do
    let parent ← h.node.read ((h.idx node - 1) / 2)
    if cmp node parent ≤ 0 then return .done h
    else return .next (← heapSwap node parent h)
  else some (.done h)

def heapPullUp (cmp : ι → ι → ℤ) (node : ι) (h : Heap ι) : Prog (Heap ι) :=
  Prog.iterate (fun h => .ofOption (heapPullUpPass cmp node h)) h

omit [DecidableEq ι] in
/-- The largest of `node` and its children, the first of them that is as large. -/
def heapMax (cmp : ι → ι → ℤ) (node : ι) (idx : ℕ) (h : Heap ι) : Option ι := do
  let child ← h.node.read idx
  let max := if 0 < cmp child node then child else node
  let idx := u32 (idx + 1)
  if idx < h.len then
    let child ← h.node.read idx
    return if 0 < cmp child max then child else max
  else return max

/-- One pass of the loop of `heap_push_down`. -/
def heapPushDownPass (cmp : ι → ι → ℤ) (node : ι) (h : Heap ι) : Option (Iter (Heap ι) (Heap ι)) :=
  let idx := u32 (h.idx node * 2 + 1)
  if h.len ≤ idx then some (.done h)
  else do
    let max ← heapMax cmp node idx h
    if max = node then return .done h
    else return .next (← heapSwap node max h)

def heapPushDown (cmp : ι → ι → ℤ) (node : ι) (h : Heap ι) : Prog (Heap ι) :=
  Prog.iterate (fun h => .ofOption (heapPushDownPass cmp node h)) h

def heapAdjust (cmp : ι → ι → ℤ) (node : ι) (h : Heap ι) : Prog (Heap ι) :=
  if 0 < h.idx node then do
    let parent ← h.node.read ((h.idx node - 1) / 2)
    if 0 ≤ cmp node parent then heapPullUp cmp node h else heapPushDown cmp node h
  else heapPushDown cmp node h

omit [DecidableEq ι] in
/-- The lines of `heap_insert` that enlarge the array; `ok` is whether `realloc` succeeds. -/
def heapGrow (ok : Bool) (h : Heap ι) : Option (Heap ι) :=
  if h.size ≤ h.len then
    let newSize := u32 (h.size * 2)
    let newSize := if newSize = 0 then 1 else newSize
    if ok then some { h with node := h.node.realloc newSize, size := newSize } else none
  else some h

/-- `heap_insert`, with its return value. -/
def heapInsert (cmp : ι → ι → ℤ) (ok : Bool) (node : ι) (h : Heap ι) : Prog (Heap ι × ℤ) :=
  match heapGrow ok h with
  | none => return (h, -1)
  | some h => do
      let block ← h.node.write h.len node
      let idx := Function.update h.idx node h.len
      let h ← heapPullUp cmp node { h with node := block, len := u32 (h.len + 1), idx := idx }
      return (h, 0)

omit [DecidableEq ι] in
def heapTop (h : Heap ι) : Option (Option ι) :=
  if 0 < h.len then (h.node.read 0).map some else some none

omit [DecidableEq ι] in
/-- The larger of the children in the slots `c` and `c + 1`, the first one if they are equal.
The slot `len`, which holds the last node, still counts. -/
def heapLarger (cmp : ι → ι → ℤ) (c : ℕ) (h : Heap ι) : Option ι := do
  let node ← h.node.read c
  let c := u32 (c + 1)
  if c ≤ h.len then
    let other ← h.node.read c
    return if 0 < cmp other node then other else node
  else return node

/-- One pass of the loop of `heap_delete`, which keeps `node`, the hole `p` and the heap. -/
def heapDeletePass (cmp : ι → ι → ℤ) : ι × ℕ × Heap ι → Option (Iter (ι × ℕ × Heap ι) (ι × ℕ × Heap ι))
  | (node, p, h) =>
    let c := u32 (p * 2 + 1)
    if h.len < c then some (.done (node, p, h))
    else do
      let node ← heapLarger cmp c h
      let block ← h.node.write p node
      -- `swap(node->idx, p)`
      let idx := Function.update h.idx node p
      return .next (node, h.idx node, { h with node := block, idx := idx })

def heapDelete (cmp : ι → ι → ℤ) (node : ι) (h : Heap ι) : Prog (Heap ι) :=
  let p := h.idx node
  let h := { h with len := u32 (h.len + 2 ^ 32 - 1) }
  if h.len = 0 then return h
  else do
    let last ← h.node.read h.len
    if last = node then return h
    else
      let (node, p, h) ← Prog.iterate (fun s => .ofOption (heapDeletePass cmp s)) (node, p, h)
      if last = node then return h
      else
        let block ← h.node.write p last
        heapPullUp cmp last { h with node := block, idx := Function.update h.idx last p }

end Libls.ArrayHeap
