import EvalynKernel.ArchPagingFormats
import EvalynKernel.MemPmm

/-! # Mapping ranges (`arch/generic/paging/*.c`)

The loop of `paging_map_range` over a cursor: the level, the index in the table of that
level, the address and length still to do and the array `tables`. The flush of the
translation buffer at the end does not change the tables and is left out. -/
namespace ArchPaging

open MachineWords MemPmm ArchPagingFormats

def pagingIndex (mmu : Mmu) (vaddr level : ℕ) : ℕ :=
  (vaddr >>> mmu.entryShift level) &&& mmu.pageIndexMask

def parentPagingIndex (mmu : Mmu) (vaddr level : ℕ) : ℕ :=
  pagingIndex mmu (wsub vaddr (mmu.entrySize level)) level + 1

def pagingGetPte (mmu : Mmu) (table vaddr level : ℕ) : ℕ := table + pagingIndex mmu vaddr level * 8

def updateRefcnt (mmu : Mmu) (m : Machine) (paddr : ℕ) (amount : ℤ) : Exec Machine :=
  let page := m.page mmu.pageSizeShift paddr
  if page.type = .invalid then .ok m
  else do
    kassert "page->type == PFNDB_PAGE_PTABLE" (page.type == .ptable)
    kassert "page->ref_count >= (uint32_t)-amount" (decide (amount < 0 → -amount ≤ page.refCount))
    .ok (m.setPage mmu.pageSizeShift paddr
      { page with refCount := ((page.refCount + amount) % 2 ^ 32).toNat })

def initTable (mmu : Mmu) (m : Machine) (child : ℕ) : Machine :=
  m.setPage mmu.pageSizeShift child
    { m.page mmu.pageSizeShift child with type := .ptable, refCount := 0 }

/-- The loop that fills the table replacing a leaf, up to its entry `n`. -/
def fillTable (mmu : Mmu) (child base entrySize flags : ℕ) : ℕ → (ℕ → ℕ) → ℕ → ℕ
  | 0, mem => mem
  | n + 1, mem => Function.update (fillTable mmu child base entrySize flags n mem) (child + n * 8)
      (mmu.encodePte (wadd base (n * entrySize)) flags)

def writeLeaf (mmu : Mmu) (m : Machine) (pte paddr level attr : ℕ) : Machine :=
  m.write pte (mmu.leafPte level paddr attr)

def pagingSplitLeaf (mmu : Mmu) (m : Machine) (pte level : ℕ) : Exec (ℕ × Machine) := do
  let entry := m.mem pte
  let base := mmu.decodeLargePte entry
  let prot := mmu.mmuFlagsToProt entry level
  let (child, m) ← pmmAllocPage mmu.pageSizeShift m
  let m := initTable mmu m child
  let flags := if 2 < level then mmu.largePageFixup (mmu.protToMmuFlags prot)
    else mmu.protToMmuFlags prot
  let m := { m with
    mem := fillTable mmu child base (mmu.entrySize (level - 1)) flags mmu.tableEntries m.mem }
  let m ← updateRefcnt mmu m child mmu.tableEntries
  .ok (child, m.write pte (mmu.tablePte child prot))

structure Cursor where
  level : ℕ
  index : ℕ
  vaddr : ℕ
  len : ℕ
  tables : ℕ → ℕ

namespace Cursor

def start (mmu : Mmu) (root vaddr len : ℕ) : Cursor :=
  ⟨mmu.topLevel, pagingIndex mmu vaddr mmu.topLevel, vaddr, len,
    Function.update (fun _ => 0) mmu.topLevel root⟩

def up (mmu : Mmu) (c : Cursor) : Cursor :=
  { c with level := c.level + 1, index := parentPagingIndex mmu c.vaddr (c.level + 1) }

def down (mmu : Mmu) (c : Cursor) (child : ℕ) : Cursor :=
  { c with
    level := c.level - 1
    index := pagingIndex mmu c.vaddr (c.level - 1)
    tables := Function.update c.tables (c.level - 1) child }

def advance (c : Cursor) (bytes entries : ℕ) : Cursor :=
  { c with vaddr := wadd c.vaddr bytes, len := c.len - bytes, index := c.index + entries }

def table (c : Cursor) : ℕ := c.tables c.level
def pte (mmu : Mmu) (c : Cursor) : ℕ := pagingGetPte mmu c.table c.vaddr c.level
def run (mmu : Mmu) (c : Cursor) : ℕ :=
  min (mmu.tableEntries - c.index) (c.len >>> mmu.pageSizeShift)

end Cursor

/-- The bulk loop at level one: the memory after entry `n` and how many were absent. -/
def mapRun (mmu : Mmu) (pte paddr flags : ℕ) : ℕ → (ℕ → ℕ) → (ℕ → ℕ) × ℕ
  | 0, mem => (mem, 0)
  | n + 1, mem =>
    let (mem, added) := mapRun mmu pte paddr flags n mem
    (Function.update mem (pte + n * 8) (mmu.encodePte (wadd paddr (n * mmu.pageSize)) flags),
      if mmu.ptePresent (mem (pte + n * 8)) then added else added + 1)

/-- The table below a present entry, after splitting a leaf. -/
def nextTable (mmu : Mmu) (m : Machine) (pte level : ℕ) : Exec (ℕ × Machine) :=
  if mmu.pteIsLeaf (m.mem pte) level then pagingSplitLeaf mmu m pte level
  else .ok (mmu.decodePte (m.mem pte), m)

def mapChild (mmu : Mmu) (attr : ℕ) (m : Machine) (c : Cursor) : Exec (ℕ × Machine) :=
  let pte := c.pte mmu
  if !mmu.ptePresent (m.mem pte) then do
    let (child, m) ← pmmAllocPage mmu.pageSizeShift m
    let m := (initTable mmu m child).write pte (mmu.tablePte child attr)
    let m ← updateRefcnt mmu m c.table 1
    .ok (child, m)
  else nextTable mmu m pte c.level

def mapLeafFits (mmu : Mmu) (m : Machine) (c : Cursor) (paddr : ℕ) : Bool :=
  let entry := m.mem (c.pte mmu)
  mmu.supportsLeaf c.level && (!mmu.ptePresent entry || mmu.pteIsLeaf entry c.level) &&
    (isAligned c.vaddr (mmu.entrySize c.level) && isAligned paddr (mmu.entrySize c.level)) &&
    decide (mmu.entrySize c.level ≤ c.len)

/-- One turn of the loop of `paging_map_range` that looks at an entry. -/
def mapEntry (mmu : Mmu) (attr : ℕ) (m : Machine) (c : Cursor) (paddr : ℕ) :
    Exec (Machine × Cursor × ℕ) :=
  let pte := c.pte mmu
  if c.level = 1 then do
    let run := c.run mmu
    let (mem, added) := mapRun mmu pte paddr (mmu.protToMmuFlags attr) run m.mem
    let m ← updateRefcnt mmu { m with mem := mem } c.table added
    .ok (m, c.advance (run <<< mmu.pageSizeShift) run, wadd paddr (run <<< mmu.pageSizeShift))
  else if mapLeafFits mmu m c paddr then do
    let size := mmu.entrySize c.level
    let absent := !mmu.ptePresent (m.mem pte)
    let m ← if absent then updateRefcnt mmu m c.table 1 else .ok m
    .ok (m.write pte (mmu.leafPte c.level paddr attr), c.advance size 1, wadd paddr size)
  else do
    let (child, m) ← mapChild mmu attr m c
    .ok (m, c.down mmu child, paddr)

def mapLoop (mmu : Mmu) (attr : ℕ) : ℕ → Machine → Cursor → ℕ → Exec Machine
  | fuel, m, c, paddr =>
    if c.len = 0 then .ok m
    else
      match fuel with
      | 0 => .error .fuel
      | fuel + 1 =>
        if c.index = mmu.tableEntries then
          if c.level = mmu.topLevel then .ok m
          else mapLoop mmu attr fuel m (c.up mmu) paddr
        else do
          let (m, c, paddr) ← mapEntry mmu attr m c paddr
          mapLoop mmu attr fuel m c paddr

/-- Turns enough for a range: between two entries that are done the cursor goes up and
down at most once through the levels. -/
def rangeTurns (mmu : Mmu) (len : ℕ) : ℕ :=
  (len >>> mmu.pageSizeShift) * (2 * mmu.topLevel + 1) + mmu.topLevel + 1

def pagingMapRange (mmu : Mmu) (m : Machine) (root vaddr paddr len attr : ℕ) : Exec Machine := do
  kassert "IS_ALIGNED(vaddr, PAGE_SIZE)" (isAligned vaddr mmu.pageSize)
  kassert "IS_ALIGNED(paddr, PAGE_SIZE)" (isAligned paddr mmu.pageSize)
  kassert "IS_ALIGNED(len, PAGE_SIZE)" (isAligned len mmu.pageSize)
  mapLoop mmu attr (rangeTurns mmu len) m (Cursor.start mmu root vaddr len) paddr

def pageLeafLevel (attr : ℕ) : ℕ := (attr &&& 3) + 1

def pagingMapPage (mmu : Mmu) (m : Machine) (root vaddr paddr attr : ℕ) : Exec Machine := do
  let size := mmu.entrySize (pageLeafLevel attr)
  kassert "IS_ALIGNED(vaddr, PAGING_ENTRY_SIZE(leaf_level))" (isAligned vaddr size)
  pagingMapRange mmu m root vaddr paddr size attr

/-- `paging_walk` from a table of the given level: the leaf, its level and its address. -/
def pagingWalk (mmu : Mmu) (mem : ℕ → ℕ) (vaddr : ℕ) : ℕ → ℕ → Option (ℕ × ℕ × ℕ)
  | 0, _ => none
  | level + 1, table =>
    let pte := pagingGetPte mmu table vaddr (level + 1)
    let entry := mem pte
    if !mmu.ptePresent entry then none
    else if mmu.pteIsLeaf entry (level + 1) then some (entry, level + 1, pte)
    else pagingWalk mmu mem vaddr level (mmu.decodePte entry)

def pagingGetPaddr (mmu : Mmu) (mem : ℕ → ℕ) (root vaddr : ℕ) : ℕ :=
  match pagingWalk mmu mem vaddr mmu.topLevel root with
  | none => 0
  | some (leaf, level, _) => mmu.decodeLeaf level leaf

def pagingGetProt (mmu : Mmu) (mem : ℕ → ℕ) (root vaddr : ℕ) : ℕ :=
  match pagingWalk mmu mem vaddr mmu.topLevel root with
  | none => 0
  | some (leaf, level, _) => mmu.mmuFlagsToProt leaf level

/-- What an address is mapped to: leaf base plus offset in the leaf, and protection. -/
def translate (mmu : Mmu) (mem : ℕ → ℕ) (root vaddr : ℕ) : Option (ℕ × ℕ) :=
  (pagingWalk mmu mem vaddr mmu.topLevel root).map fun r =>
    (mmu.decodeLeaf r.2.1 r.1 + vaddr % mmu.entrySize r.2.1, mmu.mmuFlagsToProt r.1 r.2.1)

end ArchPaging
