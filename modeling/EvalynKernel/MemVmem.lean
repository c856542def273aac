import EvalynKernel.DstructLlist
import EvalynKernel.DstructRbtree

/-! # The virtual address allocator (`mem/vmem.c`)

A segment is named by the address of its tree node. Segments come from a slab allocator,
given here by its two operations on some state. The free-list node of a segment shares
its memory with the tree node: the lists are kept as sequences, and what `llist.c` writes
into a node's links is written over the words of the tree node. -/
namespace MemVmem

open MachineWords DstructLlist DstructRbtree

structure Segment where
  allocated : Bool
  base : ℕ
  size : ℕ
  deriving DecidableEq, Repr

/-- `spalloc_malloc` and `spalloc_free` of the allocator's `segment_allocator`. -/
structure SegmentAllocator (σ : Type) where
  malloc : σ → Exec (ℕ × σ)
  free : σ → ℕ → Exec σ

structure Allocator where
  base : ℕ
  size : ℕ
  quantum : ℕ
  bitmap : ℕ
  freelists : ℕ → List ℕ
  segmentsList : List ℕ
  root : ℕ
  nodes : ℕ → Node
  segments : ℕ → Segment

/-- `segments_tree`, with `vmem_segment_get_value` as `value_of_node`. -/
def Allocator.tree (a : Allocator) : Tree := ⟨a.root, a.nodes, fun x => (a.segments x).base⟩

def Allocator.setTree (a : Allocator) (t : Tree) : Allocator :=
  { a with root := t.root, nodes := t.nodes }

def Allocator.setSegment (a : Allocator) (x : ℕ) (seg : Segment) : Allocator :=
  { a with segments := Function.update a.segments x seg }

def Allocator.setNode (a : Allocator) (x : ℕ) (n : Node) : Allocator :=
  { a with nodes := Function.update a.nodes x n }

/-- What `llist_push` writes into `freelist_node`: `next` lies over `parent` and `prev` over
`left`. -/
def pushLinks (nodes : ℕ → Node) (head seg : ℕ) : ℕ → Node :=
  let nodes := Function.update nodes seg { nodes seg with parent := head, left := 0 }
  if head ≠ 0 then Function.update nodes head { nodes head with left := seg } else nodes

/-- What `llist_node_delete` writes. -/
def deleteLinks (nodes : ℕ → Node) (prev next seg : ℕ) : ℕ → Node :=
  let nodes := if prev ≠ 0 then Function.update nodes prev { nodes prev with parent := next }
    else nodes
  let nodes := if next ≠ 0 then Function.update nodes next { nodes next with left := prev }
    else nodes
  Function.update nodes seg { nodes seg with parent := seg, left := seg }

def vmemFlistAdd (a : Allocator) (seg index : ℕ) : Allocator :=
  { a with
    nodes := pushLinks a.nodes ((a.freelists index).headD 0) seg
    freelists := Function.update a.freelists index (seg :: a.freelists index)
    bitmap := a.bitmap ||| 1 <<< index }

def vmemFlistDel (a : Allocator) (seg index : ℕ) : Allocator :=
  let l := a.freelists index
  { a with
    nodes := deleteLinks a.nodes (llistPrev seg l) (llistNext seg l) seg
    freelists := Function.update a.freelists index (l.erase seg)
    bitmap := if l.erase seg = [] then a.bitmap &&& (word - 1 - 1 <<< index) else a.bitmap }

/-- The place of a new segment in the list: before the first one with a greater base. -/
def insertByBase (a : Allocator) (seg base : ℕ) : List ℕ → List ℕ
  | [] => [seg]
  | x :: xs =>
    if base < (a.segments x).base then seg :: x :: xs else x :: insertByBase a seg base xs

variable {σ : Type} (pool : SegmentAllocator σ)

/-- `spalloc_malloc` and `memset`, then the fields of the new segment. -/
def newSegment (s : σ) (a : Allocator) (seg : Segment) : Exec (ℕ × Allocator × σ) := do
  let (x, s) ← pool.malloc s
  return (x, (a.setNode x ⟨0, 0, 0⟩).setSegment x seg, s)

def vmemAddSegment (s : σ) (a : Allocator) (base size : ℕ) : Exec (Allocator × σ) := do
  let (x, a, s) ← newSegment pool s a ⟨false, base, size⟩
  let a := { a with segmentsList := insertByBase a x base a.segmentsList }
  return (vmemFlistAdd a x (log2ull size), s)

def vmemAllocatorInit (s : σ) (memory : ℕ → Segment × Node) (base size quantum : ℕ) :
    Exec (Allocator × σ) :=
  vmemAddSegment pool s
    { base, size, quantum
      bitmap := 0
      freelists := fun _ => []
      segmentsList := []
      root := 0
      nodes := fun x => (memory x).2
      segments := fun x => (memory x).1 } base size

/-- The tests of `fit_alloc` on one free segment: the start of the allocation in it. -/
def fitSegment (a : Allocator) (size min max seg : ℕ) : Option ℕ :=
  let cseg := a.segments seg
  let allocStart := alignUp (Nat.max min cseg.base) a.quantum
  if cseg.size < size then none
  else if wsub allocStart cseg.base > cseg.size - size then none
  else if max ≠ word - 1 ∧ wadd allocStart size > max then none
  else some allocStart

/-- The first segment of `freelists[i]` that fits: start, `flist_idx` and segment. -/
def fitList (a : Allocator) (size min max i : ℕ) : Option (ℕ × ℕ × ℕ) :=
  (a.freelists i).findSome? fun seg =>
    (fitSegment a size min max seg).map fun allocStart => (allocStart, i, seg)

def fitAlloc (a : Allocator) (size addr : ℕ) : Option (ℕ × ℕ × ℕ) :=
  let min := alignUp addr a.quantum
  let max := if addr ≠ 0 then alignUp (wadd addr size) a.quantum else word - 1
  let index := Nat.min (log2ullceil size) 63
  let first := countTrailingZeros (a.bitmap &&& ((word - 1) <<< index % word))
  match (List.range' first (64 - first)).findSome? (fitList a size min max) with
  | some ret => some ret
  | none => if index = 0 then none else fitList a size min max (index - 1)

/-- The left split of `vmem_alloc`. -/
def allocSplitLeft (s : σ) (a : Allocator) (seg addr : ℕ) : Exec (Allocator × σ) := do
  let old := a.segments seg
  if old.base ≠ addr ∧ a.quantum ≤ wsub addr old.base then
    let (x, a, s) ← newSegment pool s a ⟨false, old.base, wsub addr old.base⟩
    let a := { a with segmentsList := llistNodePrepend seg x a.segmentsList }
    let a := vmemFlistAdd a x (log2ull (a.segments x).size)
    return (a.setSegment seg ⟨old.allocated, addr, wsub old.size (a.segments x).size⟩, s)
  return (a, s)

/-- The end of `vmem_alloc`: the right split, or the segment as it is. -/
def allocTake (s : σ) (a : Allocator) (seg size : ℕ) : Exec (ℕ × Allocator × σ) := do
  let old := a.segments seg
  if old.size ≠ size ∧ a.quantum ≤ wsub old.size size then
    let (x, a, s) ← newSegment pool s a ⟨true, old.base, size⟩
    let a := a.setSegment seg ⟨false, wadd old.base size, wsub old.size size⟩
    let a := a.setNode seg ⟨0, 0, (a.nodes seg).right⟩
    let a := { a with segmentsList := llistNodePrepend seg x a.segmentsList }
    let a := vmemFlistAdd a seg (log2ull (a.segments seg).size)
    let t ← rbtreeInsert a.segmentsList.length a.tree x
    return ((a.segments x).base, a.setTree t, s)
  let a := a.setSegment seg { old with allocated := true }
  let t ← rbtreeInsert a.segmentsList.length (a.setNode seg ⟨0, 0, 0⟩).tree seg
  return ((a.segments seg).base, a.setTree t, s)

def vmemAlloc (s : σ) (a : Allocator) (size addr : ℕ) : Exec (ℕ × Allocator × σ) := do
  let size := alignUp size a.quantum
  if !isAligned addr a.quantum then return (0, a, s)
  match fitAlloc a size addr with
  | none => return (0, a, s)
  | some (retAddr, flistIdx, seg) =>
    if addr ≠ 0 then kassert "ret.addr == addr" (retAddr == addr)
    kassert "ret.seg->size >= size" (decide (size ≤ (a.segments seg).size))
    let a := vmemFlistDel a seg flistIdx
    let (a, s) ← allocSplitLeft pool s a seg retAddr
    allocTake pool s a seg size

def vmemFindSegment (a : Allocator) (addr : ℕ) : Exec (Option ℕ) := do
  let bnode ← rbtreeSearchLesser a.segmentsList.length a.tree addr true
  if bnode = 0 then return none
  let seg := a.segments bnode
  if addr < seg.base ∨ seg.size ≤ wsub addr seg.base then return none
  return some bnode

/-- The splits of `vmem_free`: the parts of the segment outside the range stay allocated. -/
def freeSplitLeft (s : σ) (a : Allocator) (seg cur : ℕ) : Exec (Allocator × σ) := do
  let old := a.segments seg
  if old.base < cur then
    let (x, a, s) ← newSegment pool s a ⟨true, old.base, wsub cur old.base⟩
    let a := a.setSegment seg ⟨old.allocated, cur, wsub old.size (a.segments x).size⟩
    let a := { a with segmentsList := llistNodePrepend seg x a.segmentsList }
    let t ← rbtreeInsert a.segmentsList.length a.tree x
    return (a.setTree t, s)
  return (a, s)

def freeSplitRight (s : σ) (a : Allocator) (seg segEnd endAddr : ℕ) : Exec (Allocator × σ) := do
  if endAddr < segEnd then
    let (x, a, s) ← newSegment pool s a ⟨true, endAddr, wsub segEnd endAddr⟩
    let old := a.segments seg
    let a := a.setSegment seg { old with size := wsub endAddr old.base }
    let a := { a with segmentsList := llistNodeAppend seg x a.segmentsList }
    let t ← rbtreeInsert a.segmentsList.length a.tree x
    return (a.setTree t, s)
  return (a, s)

def coalesceLeft (s : σ) (a : Allocator) (seg : ℕ) : Exec (Allocator × σ) := do
  let prev := llistPrev seg a.segmentsList
  let p := a.segments prev
  let old := a.segments seg
  if prev ≠ 0 ∧ p.allocated = false ∧ wadd p.base p.size = old.base then
    let a := vmemFlistDel a prev (log2ull p.size)
    let a := { a with segmentsList := a.segmentsList.erase prev }
    let a := a.setSegment seg { old with base := p.base, size := wadd old.size p.size }
    return (a, ← pool.free s prev)
  return (a, s)

def coalesceRight (s : σ) (a : Allocator) (seg : ℕ) : Exec (Allocator × σ) := do
  let next := llistNext seg a.segmentsList
  let n := a.segments next
  let old := a.segments seg
  if next ≠ 0 ∧ n.allocated = false ∧ wadd old.base old.size = n.base then
    let a := vmemFlistDel a next (log2ull n.size)
    let a := { a with segmentsList := a.segmentsList.erase next }
    let a := a.setSegment seg { old with size := wadd old.size n.size }
    return (a, ← pool.free s next)
  return (a, s)

/-- The end of a round of `vmem_free`: the held segment joins its free neighbours and goes
to a free list. -/
def freeJoin (s : σ) (a : Allocator) (seg : ℕ) : Exec (Allocator × σ) := do
  let a := a.setSegment seg { a.segments seg with allocated := false }
  let (a, s) ← coalesceLeft pool s a seg
  let (a, s) ← coalesceRight pool s a seg
  kassert "seg->size != 0" ((a.segments seg).size != 0)
  return (vmemFlistAdd (a.setNode seg ⟨0, 0, (a.nodes seg).right⟩) seg
    (log2ull (a.segments seg).size), s)

/-- One round of the loop of `vmem_free` on an allocated segment. -/
def freeSegment (s : σ) (a : Allocator) (seg cur endAddr : ℕ) : Exec (Allocator × σ) := do
  let segEnd := wadd (a.segments seg).base (a.segments seg).size
  let (_, t) ← rbtreeRemove a.segmentsList.length a.tree seg
  let (a, s) ← freeSplitLeft pool s (a.setTree t) seg cur
  let (a, s) ← freeSplitRight pool s a seg segEnd endAddr
  freeJoin pool s a seg

def freeLoop (endAddr : ℕ) : ℕ → σ → Allocator → ℕ → Exec (Allocator × σ)
  | fuel, s, a, cur =>
    if endAddr ≤ cur then .ok (a, s) else do
      match ← vmemFindSegment a cur with
      | none => return (a, s)
      | some seg =>
        match fuel with
        | 0 => throw .fuel
        | fuel + 1 =>
          let segEnd := wadd (a.segments seg).base (a.segments seg).size
          if (a.segments seg).allocated = false then freeLoop endAddr fuel s a segEnd
          else
            let (a, s) ← freeSegment pool s a seg cur endAddr
            freeLoop endAddr fuel s a (Nat.min segEnd endAddr)

def vmemFree (s : σ) (a : Allocator) (addr size : ℕ) : Exec (Allocator × σ) :=
  let size := alignUp size a.quantum
  let addr := alignUp addr a.quantum
  if size = 0 then .ok (a, s)
  else freeLoop pool (wadd addr size) a.segmentsList.length s a addr

end MemVmem
