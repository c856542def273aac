import EvalynKernel.ArchPaging
import EvalynKernel.LibcStdlib
import EvalynKernel.MemVmem

/-! # Address spaces (`mem/address_space.c`)

The machine and the kernel heap share the buddy allocator. The slab allocator of an address
space's segments takes its pages from the machine too: it is given by its operations on the
machine and on its own state, which holds the words of its pages. In a page of user data a
cell of the machine's memory is a byte. -/
namespace MemAddressSpace

open MachineWords MemPmm ArchPagingFormats ArchPaging LibcStdlib MemVmem

/-- What the boot code leaves in global variables and compile-time choices. -/
structure Globals where
  mmu : Mmu
  separatePagingRoots : Bool
  vaddrLowerHalfTop : ℕ
  kernelPageTable : ℕ
  hhdmOffset : ℕ

structure Kernel where
  machine : Machine
  heap : Heap

def Kernel.onHeap {α : Type} (k : Kernel) (call : Heap → Exec (α × Heap)) : Exec (α × Kernel) := do
  let (r, heap) ← call { k.heap with buddy := k.machine.buddy }
  return (r, ⟨{ k.machine with buddy := heap.buddy }, heap⟩)

def Kernel.malloc (g : Globals) (k : Kernel) (size : ℕ) : Exec (ℕ × Kernel) :=
  k.onHeap fun h => LibcStdlib.malloc g.mmu.pageSizeShift g.hhdmOffset h size

/-- `sizeof(address_space_t)`: two words. -/
def addressSpaceSize : ℕ := 16

/-- `sizeof(vmem_allocator_t)`: four words, sixty-five lists of three words, the tree's two
words, the slab allocator's five and the lock. -/
def vmemAllocatorSize : ℕ := 1656

/-- An address space, the state of its slab allocator and the addresses of the two objects
in the heap that hold it. -/
structure AddressSpace (τ : Type) where
  pagetable : ℕ
  valloc : Allocator
  slab : τ
  object : ℕ
  vallocObject : ℕ

variable {τ : Type} (pool : SegmentAllocator (Machine × τ)) (g : Globals)

/-- `vmem_alloc(addrspace->valloc, size, addr)`. -/
def AddressSpace.alloc (m : Machine) (x : AddressSpace τ) (size addr : ℕ) :
    Exec (ℕ × Machine × AddressSpace τ) := do
  let (r, valloc, m, slab) ← vmemAlloc pool (m, x.slab) x.valloc size addr
  return (r, m, { x with valloc, slab })

/-- The object and the allocator, whose slab allocator starts in the state `slab`; `memory`
is what the pages of the slab hold before. -/
def newVmemAllocator (k : Kernel) (slab : τ) (memory : ℕ → Segment × DstructRbtree.Node)
    (base size quantum : ℕ) : Exec (ℕ × Allocator × τ × Kernel) := do
  let (object, k) ← k.malloc g vmemAllocatorSize
  let (valloc, m, slab) ← vmemAllocatorInit pool (k.machine, slab) memory base size quantum
  return (object, valloc, slab, { k with machine := m })

/-- The upper half of the kernel's root table copied into a new one. -/
def copyKernelHalf (m : Machine) (newpt : ℕ) : Machine :=
  let half := g.mmu.pageSize >>> 1
  { m with mem := fun a =>
      if newpt + half ≤ a ∧ a < newpt + half + half then m.mem (g.kernelPageTable + (a - newpt))
      else m.mem a }

def newAddressSpace (k : Kernel) (slab : τ) (memory : ℕ → Segment × DstructRbtree.Node) :
    Exec (AddressSpace τ × Kernel) := do
  let (object, k) ← k.malloc g addressSpaceSize
  let (vallocObject, valloc, slab, k) ← newVmemAllocator pool g k slab memory g.mmu.pageSize
    (wsub g.vaddrLowerHalfTop g.mmu.pageSize) g.mmu.pageSize
  let (newpt, m) ← pmmAllocPage g.mmu.pageSizeShift k.machine
  let m := initTable g.mmu m newpt
  let m := if g.separatePagingRoots then m else copyKernelHalf g m newpt
  return (⟨newpt, valloc, slab, object, vallocObject⟩, { k with machine := m })

end MemAddressSpace
