import EvalynKernel.DstructLlist
import EvalynKernel.MachineWords
import EvalynKernel.DyadicBlocks
import Mathlib.Logic.Function.Basic

/-! # The buddy page allocator (`mem/buddy.c`, `mem/pfndb.h`)

The free lists hold the physical addresses of free blocks: a list node lives in the
first bytes of its block and is reached through the direct map, so its address names
the block. The page-frame database is the array `pfndb`, one `page_t` per frame. -/
namespace MemBuddyAllocator

open MachineWords DstructLlist

inductive PageType where
  | invalid | free | allocated | ptable
  deriving DecidableEq, Repr

structure Page where
  type : PageType
  order : ℕ
  refCount : ℕ
  deriving DecidableEq, Repr

structure State where
  orders : ℕ → List ℕ
  pfndb : ℕ → Page

def maxOrder : ℕ := 14
def allocFlagNofail : ℕ := 1

def getOrderSize (shift order : ℕ) : ℕ := 2 ^ (shift + order)
def getOrder (shift addr : ℕ) : ℕ := countTrailingZeros addr - shift
def setMaxOrder (order val : ℕ) : ℕ := ((order &&& 0x0f) ||| (val <<< 4)) % 256
def setCurOrder (order val : ℕ) : ℕ := ((order &&& 0xf0) ||| (val <<< 0)) % 256
def getMaxOrder (order : ℕ) : ℕ := (order >>> 4) &&& 0xf
def getCurOrder (order : ℕ) : ℕ := (order >>> 0) &&& 0xf

def pfndbGetEntry (shift : ℕ) (s : State) (paddr : ℕ) : Page := s.pfndb (paddr >>> shift)

def setEntry (shift : ℕ) (s : State) (paddr : ℕ) (p : Page) : State :=
  { s with pfndb := Function.update s.pfndb (paddr >>> shift) p }

def pushOrder (s : State) (order paddr : ℕ) : State :=
  { s with orders := Function.update s.orders order (llistPushFront paddr (s.orders order)) }

def deleteOrder (s : State) (order paddr : ℕ) : State :=
  { s with orders := Function.update s.orders order (llistNodeDelete paddr (s.orders order)) }

def popOrder (s : State) (order : ℕ) : Option (ℕ × State) :=
  match s.orders order with
  | [] => none
  | paddr :: _ => some (paddr, deleteOrder s order paddr)

@[simp] theorem orders_setEntry (shift : ℕ) (s : State) (paddr : ℕ) (p : Page) :
    (setEntry shift s paddr p).orders = s.orders := rfl
@[simp] theorem pfndb_pushOrder (s : State) (order paddr : ℕ) :
    (pushOrder s order paddr).pfndb = s.pfndb := rfl
@[simp] theorem pfndb_deleteOrder (s : State) (order paddr : ℕ) :
    (deleteOrder s order paddr).pfndb = s.pfndb := rfl

def initial : State := ⟨fun _ => [], fun _ => ⟨.invalid, 0, 0⟩⟩

def buddyAddBlock (shift : ℕ) (s : State) (paddr order : ℕ) : State :=
  let entry := pfndbGetEntry shift s paddr
  let s := setEntry shift s paddr
    { entry with type := .free, order := setCurOrder (setMaxOrder entry.order order) order }
  pushOrder s order paddr

def rangeOrder (shift addr last : ℕ) : ℕ :=
  min maxOrder (min (log2ull ((last - addr) >>> shift)) (getOrder shift addr))

/-- The loop of `buddy_add_range_nlock`; every turn adds at least one page, so the
number of pages between the bounds is enough turns. -/
def addRangeLoop (shift : ℕ) : ℕ → State → ℕ → ℕ → Exec State
  | fuel, s, addr, last =>
    if addr < last then
      match fuel with
      | 0 => .error .fuel
      | fuel + 1 => do
        kassert "addr != 0" (addr != 0)
        let order := rangeOrder shift addr last
        addRangeLoop shift fuel (buddyAddBlock shift s addr order)
          (addr + getOrderSize shift order) last
    else .ok s

def buddyAddRange (shift : ℕ) (s : State) (start length : ℕ) : Exec State :=
  let last := alignDown (wadd start length) (2 ^ shift)
  let start := alignUp start (2 ^ shift)
  if last ≤ start then .ok s
  else addRangeLoop shift ((last - start) >>> shift) s start last

/-- The search for the next larger order that can be split, with the popped node. -/
def popLarger (s : State) : ℕ → ℕ → Option (ℕ × ℕ × State)
  | 0, _ => none
  | fuel + 1, corder =>
    match popOrder s corder with
    | some (paddr, s) => some (paddr, corder, s)
    | none => popLarger s fuel (corder + 1)

/-- Splitting down from order `order + n` to `order`, giving back the upper halves. -/
def splitDown (shift : ℕ) (addr maxOrd order : ℕ) : ℕ → State → State
  | 0, s => s
  | n + 1, s =>
    let corder := order + n
    let buddy := addr + getOrderSize shift corder
    let entry := pfndbGetEntry shift s buddy
    let s := setEntry shift s buddy
      { entry with type := .free, order := setCurOrder (setMaxOrder entry.order maxOrd) corder }
    splitDown shift addr maxOrd order n (pushOrder s corder buddy)

def outOfMemory : Fault := .panic "Buddy: Failed to allocate nofail allocation"

def buddyAllocate (shift : ℕ) (s : State) (order flags : ℕ) : Exec (ℕ × State) :=
  match popOrder s order with
  | some (paddr, s) =>
    let entry := pfndbGetEntry shift s paddr
    .ok (paddr, setEntry shift s paddr { entry with type := .allocated })
  | none =>
    match popLarger s (maxOrder - order) (order + 1) with
    | none =>
      if flags &&& allocFlagNofail != 0 then .error outOfMemory
      else .ok (0, s)
    | some (addr, corder, s) => do
      let maxOrd := getMaxOrder (pfndbGetEntry shift s addr).order
      let s := splitDown shift addr maxOrd order (corder - order) s
      let entry := pfndbGetEntry shift s addr
      kassert "main_entry->type == PFNDB_PAGE_FREE" (entry.type == .free)
      .ok (addr, setEntry shift s addr
        { entry with type := .allocated, order := setCurOrder entry.order order })

/-- The coalescing loop of `buddy_free`. The order nibble never exceeds fifteen, so
`15 - corder` turns suffice and the loop always leaves through one of its own exits. -/
def mergeUp (shift : ℕ) : ℕ → State → ℕ → ℕ → State × ℕ × ℕ
  | 0, s, paddr, corder => (s, paddr, corder)
  | fuel + 1, s, paddr, corder =>
    if corder < getMaxOrder (pfndbGetEntry shift s paddr).order then
      let buddy := paddr ^^^ getOrderSize shift corder
      let entry := pfndbGetEntry shift s buddy
      if entry.type ≠ .free then (s, paddr, corder)
      else if getCurOrder entry.order ≠ corder then (s, paddr, corder)
      else
        let s := deleteOrder s corder buddy
        let s := setEntry shift s buddy { entry with type := .allocated }
        mergeUp shift fuel s (if buddy < paddr then buddy else paddr) (corder + 1)
    else (s, paddr, corder)

def buddyFree (shift : ℕ) (s : State) (paddr order : ℕ) : State :=
  let (s, paddr, corder) := mergeUp shift (15 - order) s paddr order
  let entry := pfndbGetEntry shift s paddr
  let s := setEntry shift s paddr
    { entry with type := .free, order := setCurOrder entry.order corder }
  pushOrder s corder paddr

end MemBuddyAllocator
