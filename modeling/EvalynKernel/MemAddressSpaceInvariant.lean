import EvalynKernel.ArchPagingMap
import EvalynKernel.MemAddressSpaceSlab

/-! # The invariant of an address space

The segments partition the lower half, they lie in the slab's pages, and the page table is
well formed beside them. A call of `vmem_alloc` or `vmem_free` changes the segments and the
slab's pages and nothing else. -/
namespace MemAddressSpaceInvariant

open MachineWords DyadicBlocks DyadicBlocks.Block MemBuddyAllocator
open MemBuddyInvariant MemPmm ArchPagingFormats
open ArchPagingTables MemAddressSpace MemVmem MemVmemOperations MemVmemPartition MemVmemReach
open MemVmemSearch MemAddressSpaceSlab

def userRange (g : Globals) : ℕ × ℕ × ℕ :=
  (g.mmu.pageSize, wsub g.vaddrLowerHalfTop g.mmu.pageSize, g.mmu.pageSize)

/-- The address space `x` in the machine `m`; its segments are `gs`, and `Rest` are the blocks
that neither its slab nor its page table owns. -/
def Space (g : Globals) (R Rest : Set Block) (boot : Set ℕ) (m : Machine)
    (x : AddressSpace MemSpalloc.State) (gs : List Segment) : Prop :=
  Kept (SlabLive g x.pagetable R Rest boot m) (userRange g) (fun _ => True) (m, x.slab) x.valloc gs

variable {g : Globals} {R Rest Rest' : Set Block} {boot : Set ℕ} {m m' : Machine}
  {x x' : AddressSpace MemSpalloc.State} {gs : List Segment}

theorem userRange_eq (hlay : Layout g R) :
    userRange g = (2 ^ g.mmu.pageSizeShift, g.vaddrLowerHalfTop - 2 ^ g.mmu.pageSizeShift,
      2 ^ g.mmu.pageSizeShift) := by
  rw [userRange, pageSize_eq, wsub_of_le hlay.lower_page hlay.lower_lt]

theorem user_region (hlay : Layout g R) : Region (userRange g) := by
  have hle := hlay.lower_page
  have hlt := hlay.lower_lt
  have hshift := hlay.shift_le
  have hpos := Nat.two_pow_pos g.mmu.pageSizeShift
  rw [userRange_eq hlay]
  refine ⟨⟨g.mmu.pageSizeShift, by omega, rfl⟩, dvd_refl _, ?_, ?_, ?_⟩
  all_goals
    dsimp only
    omega

theorem Space.live (h : Space g R Rest boot m x gs) :
    SlabLive g x.pagetable R Rest boot m (m, x.slab) {y | y ∈ x.valloc.segmentsList} :=
  h.ready.whole.live

theorem Space.inv (h : Space g R Rest boot m x gs) :
    ArchPagingInvariant.Inv g.mmu m x.pagetable R (Rest ∪ slabBlocks g x.slab) boot :=
  h.live.machine

theorem space_init (hlay : Layout g R) (h : ArchPagingInvariant.Inv g.mmu m root R Rest boot)
    (object vallocObject : ℕ)
    (hok : vmemAllocatorInit (slabPool g) (m,
      unusedSlab g.mmu.pageSizeShift headers next) memory (userRange g).1 (userRange g).2.1
      (userRange g).2.2 = .ok (valloc, m', slab)) :
    ∃ gs, Space g R Rest boot m' ⟨root, valloc, slab, object, vallocObject⟩ gs := by
  have hinit : Ensures _ _ fun r : Allocator × Machine × MemSpalloc.State => ∃ gs,
      Kept (SlabLive g root R Rest boot m) (userRange g) (fun _ => True) r.2 r.1 gs :=
    kept_init (slab_lawful hlay root Rest boot m) (unused_live hlay h headers next)
      (user_region hlay) memory
  obtain ⟨gs, hkept⟩ := hinit.value hok
  refine ⟨gs, Kept.move hkept fun L hl => ?_⟩
  exact ⟨hl.slab, hl.out, hl.direct, hl.machine, hl.apart, Untouched.refl _ _ _⟩

/-- The effect of a call of `vmem_alloc` that returns `r`. -/
structure Reserved (g : Globals) (R Rest : Set Block) (boot : Set ℕ) (gs : List Segment)
    (m : Machine) (x : AddressSpace MemSpalloc.State) (size addr r : ℕ) (m' : Machine)
    (x' : AddressSpace MemSpalloc.State) (gs' : List Segment) : Prop where
  space : Space g R Rest boot m' x' gs'
  table : x'.pagetable = x.pagetable
  same : Untouched g.mmu x.pagetable m m'
  asked : addr ≠ 0 → r = addr
  aligned : 2 ^ g.mmu.pageSizeShift ∣ r
  inside : 2 ^ g.mmu.pageSizeShift ≤ r ∧
    r + alignUp size (2 ^ g.mmu.pageSizeShift) ≤ g.vaddrLowerHalfTop
  free : ∀ v, r ≤ v → v < r + alignUp size (2 ^ g.mmu.pageSizeShift) → ¬ AllocatedAt gs v
  taken : ∀ v, r ≤ v → v < r + alignUp size (2 ^ g.mmu.pageSizeShift) → AllocatedAt gs' v
  kept : ∀ v, AllocatedAt gs v → AllocatedAt gs' v

theorem Space.alloc (hlay : Layout g R) (h : Space g R Rest boot m x gs) {size addr r : ℕ}
    (haddr : addr < word) (hok : x.alloc (slabPool g) m size addr = .ok (r, m', x')) :
    (r, m', x') = (0, m, x) ∨ ∃ gs', Reserved g R Rest boot gs m x size addr r m' x' gs' := by
  obtain ⟨⟨r₁, valloc, m₁, slab⟩, hcall, hret⟩ := bind_ok hok
  obtain ⟨rfl, rfl, rfl⟩ : r₁ = r ∧ m₁ = m' ∧ { x with valloc, slab } = x' := by
    simpa using Except.ok.inj hret
  have hpool := slab_lawful hlay x.pagetable Rest boot m
  rcases Kept.vmemAlloc hpool h haddr hcall with heq | ⟨A, s, B, rfl, hp, hrange, hwhole⟩
  · obtain ⟨rfl, rfl, rfl, rfl⟩ : r₁ = 0 ∧ valloc = x.valloc ∧ m₁ = m ∧ slab = x.slab := by
      simpa using heq
    exact .inl rfl
  · right
    have hq : (userRange g).2.2 = 2 ^ g.mmu.pageSizeShift := pageSize_eq g.mmu
    have hshift := hlay.shift_le
    have hkept := Kept.allocate h hp
      (by rw [hq]; exact dvd_alignUp (by omega)) trivial hrange hwhole
    have hs : s ∈ A ++ s :: B := by simp
    have hbounds := h.ready.tiles.bounds hs
    have hrange' : (x.valloc.base, x.valloc.size, x.valloc.quantum) = _ :=
      h.extent.trans (userRange_eq hlay)
    simp only [Prod.mk.injEq] at hrange'
    obtain ⟨tail, -, hat⟩ := allocatedAt_allocate (A := A) (B := B) hp (user_region hlay).pos
    rw [hq] at hp hat hkept
    have hle := hp.le
    have hfits := hp.fits
    have hpage := hlay.lower_page
    refine ⟨_, Kept.move hkept fun L hl => ⟨hl.slab, hl.out, hl.direct, hl.machine, hl.apart,
      Untouched.refl _ _ _⟩, rfl, hkept.ready.whole.live.same, hp.asked, hq ▸ hp.dvd, by omega,
      fun v hlo hhi => ?_, fun v hlo hhi => ?_, fun v hv => (hat v).mpr (.inl hv)⟩
    · rintro ⟨k, hk, halloc, hcov⟩
      obtain rfl : k = s := h.ready.tiles.eq_of_covers hk hs hcov ⟨by omega, by omega⟩
      rw [hp.free] at halloc
      cases halloc
    · exact (hat v).mpr (.inr ⟨hlo, by omega⟩)

def smallGlobals : Globals :=
  { mmu := x86_64 (4 ||| mmuConfigNx)
    separatePagingRoots := true
    vaddrLowerHalfTop := 2 ^ 47 - 1
    kernelPageTable := 0x1000
    hhdmOffset := 0xffff800000000000 }

def smallMachine : Machine := ⟨buddyAddBlock 12 initial 0x10000 4, fun _ => 0, []⟩

def smallMemory : Set Block := {blk 12 0x10000 4}

theorem small_region (a : ℕ) : a ∈ region smallMemory ↔ 0x10000 ≤ a ∧ a < 0x20000 := by
  simp [smallMemory, region, Mem, blk, Block.size]

theorem small_layout : Layout smallGlobals smallMemory := by
  refine ⟨x86_64_lawful (by decide) (by decide), by decide, by decide, ?_, by decide, by decide⟩
  intro a ha
  have := (small_region a).mp ha
  simp only [smallGlobals, word]
  omega

theorem small_inv : ArchPagingInvariant.Inv smallGlobals.mmu smallMachine 0x1000 smallMemory ∅
    {0x1000} :=
  ArchPagingMap.block_inv small_layout.law ⟨by decide, by decide, by decide⟩
    (show 4 ≤ maxOrder by decide) (show 2 ^ 16 ∣ 0x10000 by decide) (by decide) (by decide) rfl rfl

def smallSpace : Exec (Machine × AddressSpace MemSpalloc.State) := do
  let slab := unusedSlab 12 (fun _ => ⟨0, 0, 0⟩) (fun _ => 0)
  let (valloc, m, slab) ← vmemAllocatorInit (slabPool smallGlobals) (smallMachine, slab)
    (fun _ => (⟨false, 0, 0⟩, ⟨0, 0, 0⟩)) 0x1000 (2 ^ 47 - 1 - 0x1000) 0x1000
  return (m, ⟨0x1000, valloc, slab, 0, 0⟩)

theorem small_space (hok : smallSpace = .ok (m, x)) :
    ∃ gs, Space smallGlobals smallMemory ∅ {0x1000} m x gs := by
  obtain ⟨⟨valloc, m₁, slab⟩, hinit, hret⟩ := bind_ok hok
  cases hret
  exact space_init small_layout small_inv 0 0 hinit

end MemAddressSpaceInvariant
