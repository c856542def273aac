import EvalynKernel.LoaderElf
import EvalynKernel.MemAddressSpace

/-! # Loading a program (`loader/elf_loader.c`) -/
namespace LoaderElfLoader

open MachineWords MemPmm ArchPagingFormats ArchPaging LoaderElf MemVmem MemAddressSpace

def pageUrx : ℕ := pageU ||| pageR ||| pageX

def pteFlags (ph : ElfProgramHeader) : ℕ :=
  let flags := if hasFlag ph.flags elfProgWrite then pageUrx ||| pageW else pageUrx
  if hasFlag ph.flags elfProgExecFlag then flags else flags &&& (word - 1 - pageX)

/-- `memset(addr, 0, n)`. -/
def clearBytes (mem : ℕ → ℕ) (addr n : ℕ) : ℕ → ℕ :=
  fun a => if addr ≤ a ∧ a < addr + n then 0 else mem a

/-- `memcpy(addr, src, n)` from the bytes of a file. -/
def copyBytes (mem : ℕ → ℕ) (addr n : ℕ) (bytes : ℕ → ℕ) (src : ℕ) : ℕ → ℕ :=
  fun a => if addr ≤ a ∧ a < addr + n then bytes (src + (a - addr)) else mem a

structure Progress where
  machine : Machine
  alignedStart : ℕ
  src : ℕ
  fileRemaining : ℕ

/-- The contents of a page: the gap before the data, the data and the rest. -/
def fillPage (pageSize : ℕ) (file : ElfFile) (mem : ℕ → ℕ) (ppage offset src toCopy : ℕ) : ℕ → ℕ :=
  let space := pageSize - offset
  let mem := if offset ≠ 0 then clearBytes mem ppage offset else mem
  let mem := if toCopy ≠ 0 then copyBytes mem (ppage + offset) toCopy file.bytes src else mem
  if toCopy < space then clearBytes mem (ppage + offset + toCopy) (space - toCopy) else mem

def loadPage (mmu : Mmu) (file : ElfFile) (root flags vaddrOffset : ℕ) (s : Progress) (p : ℕ) :
    Exec Progress := do
  let (ppage, m) ← pmmAllocPage mmu.pageSizeShift s.machine
  let m ← pagingMapPage mmu m root s.alignedStart ppage flags
  let offset := if p = 0 then vaddrOffset else 0
  let space := mmu.pageSize - offset
  let toCopy := if s.fileRemaining < space then s.fileRemaining else space
  return {
    machine := { m with mem := fillPage mmu.pageSize file m.mem ppage offset s.src toCopy }
    alignedStart := wadd s.alignedStart mmu.pageSize
    src := s.src + toCopy
    fileRemaining := s.fileRemaining - toCopy }

variable {τ : Type} (pool : SegmentAllocator (Machine × τ)) (g : Globals) (file : ElfFile)

/-- One `PT_LOAD` segment; `false` where the function returns 0. -/
def loadSegment (m : Machine) (x : AddressSpace τ) (ph : ElfProgramHeader) :
    Exec (Bool × Machine × AddressSpace τ) :=
  let alignedStart := alignDown ph.virtAddr g.mmu.pageSize
  let alignedEnd := alignUp (wadd ph.virtAddr ph.memSize) g.mmu.pageSize
  let pagesToMap := wsub alignedEnd alignedStart / g.mmu.pageSize
  if alignedStart = 0 then .ok (false, m, x)
  else do
    let (r, m, x) ← x.alloc pool m (wsub alignedEnd alignedStart) alignedStart
    if r = 0 then return (false, m, x)
    let s ← (List.range pagesToMap).foldlM
      (loadPage g.mmu file x.pagetable (pteFlags ph) (wsub ph.virtAddr alignedStart))
      ⟨m, alignedStart, ph.offset, ph.fileSize⟩
    return (true, s.machine, x)

def loadSegments (m : Machine) (x : AddressSpace τ) :
    List ElfProgramHeader → Exec (Bool × Machine × AddressSpace τ)
  | [] => .ok (true, m, x)
  | ph :: rest =>
    if ph.type ≠ elfProgPtLoadType then loadSegments m x rest
    else do
      let (loaded, m, x) ← loadSegment pool g file m x ph
      if loaded then loadSegments m x rest else return (false, m, x)

def loadElf (currentArch : ℕ) (m : Machine) (x : AddressSpace τ) :
    Exec (ℕ × Machine × AddressSpace τ) :=
  if !verifyElf currentArch file.header then .ok (0, m, x)
  else do
    let (loaded, m, x) ← loadSegments pool g file m x file.progHeaders
    return (if loaded then file.header.entryPoint else 0, m, x)

end LoaderElfLoader
