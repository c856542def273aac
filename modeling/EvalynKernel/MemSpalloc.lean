import EvalynKernel.DstructStack
import EvalynKernel.MachineWords

/-! # The slab allocator (`mem/spalloc.c`)

Page headers are known by their addresses, which are multiples of the page size. The words
of the objects are in `next`, where the free ones keep the links of their page's stack. The
functions hold the allocator's lock throughout and run one after another. The address that
`buddy_allocate` would return is an input of `spalloc_malloc`; `pages` are the pages obtained
and not given back, `out` the objects handed out and not freed. -/
namespace MemSpalloc

open MachineWords DstructStack

def spallocMagic : ℕ := 0x2d59fe75

/-- `sizeof(spalloc_page_header_t)`: `magic` at 0, `freecount` at 4, `free_objs` at 8 and
`linkage` at 16. -/
def headerSize : ℕ := 32

def linkage (hdr : ℕ) : ℕ := hdr + 16

structure PageHeader where
  magic : ℕ
  freecount : ℕ
  freeObjs : ℕ
  deriving DecidableEq, Repr

structure Allocator where
  partialList : List ℕ
  objStride : ℕ
  objOffset : ℕ
  objsPerPage : ℕ
  deriving DecidableEq, Repr

structure State where
  alloc : Allocator
  headers : ℕ → PageHeader
  next : ℕ → ℕ
  pages : List ℕ
  out : List ℕ

def isPow2ull (val : ℕ) : Bool := val ≠ 0 ∧ val &&& (val - 1) = 0

def spallocInit (pageSize objSize objAlign : ℕ) : Exec Allocator := do
  kassert "obj_size >= 8" (8 ≤ objSize)
  kassert "obj_size <= (PAGE_SIZE / 2)" (objSize ≤ pageSize / 2)
  kassert "obj_align <= (PAGE_SIZE / 2)" (objAlign ≤ pageSize / 2)
  kassert "isPow2ull(obj_align)" (isPow2ull objAlign)
  let stride := alignUp objSize objAlign
  kassert "stride % 8 == 0" (stride % 8 = 0)
  let objStride := stride % 2 ^ 16
  let objOffset := alignUp headerSize objAlign % 2 ^ 16
  return ⟨[], objStride, objOffset, (pageSize - objOffset) / objStride % 2 ^ 16⟩

def State.setHeader (s : State) (hdr : ℕ) (h : PageHeader) : State :=
  { s with headers := Function.update s.headers hdr h }

def State.setPartial (s : State) (l : List ℕ) : State :=
  { s with alloc := { s.alloc with partialList := l } }

/-- `stack_push(&hdr->free_objs, obj)`. -/
def pushObj (s : State) (hdr obj : ℕ) : State :=
  let (next, head) := stackPush s.next (s.headers hdr).freeObjs obj
  { s with next := next }.setHeader hdr { s.headers hdr with freeObjs := head }

/-- The loop over the objects of a new page, after `i` rounds. -/
def fillPage (s : State) (hdr : ℕ) : ℕ → State
  | 0 => s
  | i + 1 =>
    let s := fillPage s hdr i
    pushObj s hdr (hdr + s.alloc.objOffset + i * s.alloc.objStride)

/-- The page that the object is taken from: the first of the list, or a new one. -/
def takePage (pageSize : ℕ) (s : State) (page : ℕ) : Exec (ℕ × State) :=
  match s.alloc.partialList with
  | node :: rest => do
    let hdr := alignDown node pageSize
    kassert "hdr->magic == SPALLOC_MAGIC" ((s.headers hdr).magic = spallocMagic)
    return (hdr, s.setPartial rest)
  | [] =>
    let s := { s with pages := page :: s.pages }
    let s := s.setHeader page ⟨spallocMagic, s.alloc.objsPerPage, 0⟩
    return (page, fillPage s page s.alloc.objsPerPage)

/-- The pop, the decrement of `freecount` and the return of the page to the list. -/
def takeObj (s : State) (hdr : ℕ) : ℕ × State :=
  let h := s.headers hdr
  let (obj, head) := stackPop s.next h.freeObjs
  let freecount : ℕ := (h.freecount + (2 ^ 16 - 1)) % 2 ^ 16
  let s := { s with out := obj :: s.out }.setHeader hdr ⟨h.magic, freecount, head⟩
  (obj, if 0 < freecount then s.setPartial (linkage hdr :: s.alloc.partialList) else s)

def spallocMalloc (pageSize : ℕ) (s : State) (page : ℕ) : Exec (ℕ × State) := do
  let (hdr, s) ← takePage pageSize s page
  return takeObj s hdr

def spallocFree (pageSize : ℕ) (s : State) (obj : ℕ) : Exec State := do
  let hdr := alignDown obj pageSize
  kassert "hdr->magic == SPALLOC_MAGIC" ((s.headers hdr).magic = spallocMagic)
  let s := { pushObj s hdr obj with out := s.out.erase obj }
  let h := s.headers hdr
  let freecount : ℕ := (h.freecount + 1) % 2 ^ 16
  let s := s.setHeader hdr { h with freecount := freecount }
  if freecount = 1 then
    return s.setPartial (linkage hdr :: s.alloc.partialList)
  else if freecount = s.alloc.objsPerPage then
    return { s.setPartial (s.alloc.partialList.erase (linkage hdr)) with
      pages := s.pages.erase hdr }
  else
    return s

end MemSpalloc
