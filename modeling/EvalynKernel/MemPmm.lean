import EvalynKernel.MemBuddyRuns

/-! # Single pages (`mem/pmm.h`)

The machine is the buddy allocator's state and the words of physical memory, which the
kernel reads and writes through the direct map. The list `freed` is a ghost: it records
every call of `pmm_free_page` with the memory and the frame's database entry at that
time. -/
namespace MemPmm

open MachineWords DyadicBlocks DyadicBlocks.Block MemBuddyAllocator MemBuddyInvariant
open MemBuddyOperations

structure FreeCall where
  paddr : ℕ
  page : Page
  mem : ℕ → ℕ

structure Machine where
  buddy : State
  mem : ℕ → ℕ
  freed : List FreeCall

def Machine.write (m : Machine) (paddr w : ℕ) : Machine :=
  { m with mem := Function.update m.mem paddr w }

def Machine.page (m : Machine) (shift paddr : ℕ) : Page := pfndbGetEntry shift m.buddy paddr

def Machine.setPage (m : Machine) (shift paddr : ℕ) (page : Page) : Machine :=
  { m with buddy := setEntry shift m.buddy paddr page }

def zeroPage (shift : ℕ) (mem : ℕ → ℕ) (paddr : ℕ) : ℕ → ℕ :=
  fun a => if paddr ≤ a ∧ a < paddr + 2 ^ shift then 0 else mem a

def pmmAllocPage (shift : ℕ) (m : Machine) : Exec (ℕ × Machine) := do
  let (paddr, buddy) ← buddyAllocate shift m.buddy 0 allocFlagNofail
  .ok (paddr, { m with buddy := buddy, mem := zeroPage shift m.mem paddr })

def pmmFreePage (shift : ℕ) (m : Machine) (paddr : ℕ) : Machine :=
  { m with
    buddy := buddyFree shift m.buddy paddr 0
    freed := ⟨paddr, m.page shift paddr, m.mem⟩ :: m.freed }

@[simp] theorem write_mem (m : Machine) (paddr w : ℕ) :
    (m.write paddr w).mem = Function.update m.mem paddr w := rfl
@[simp] theorem write_page (m : Machine) (shift paddr w p : ℕ) :
    (m.write paddr w).page shift p = m.page shift p := rfl

variable {shift : ℕ} {m : Machine} {R H G : Set Block}

@[simp] theorem page_setPage_self (m : Machine) (shift paddr : ℕ) (page : Page) :
    (m.setPage shift paddr page).page shift paddr = page := entry_set_self _ _ _

theorem page_setPage_ne (m : Machine) (page : Page) (hp : 2 ^ shift ∣ p) (hq : 2 ^ shift ∣ q)
    (h : q ≠ p) : (m.setPage shift p page).page shift q = m.page shift q :=
  entry_set_ne _ _ fun he => h (frame_injective hq hp he)

def Kept (R H : Set Block) (f : ℕ) : Prop := (∃ b ∈ H, Mem f b) ∨ f ∉ region R

theorem Kept.not_free (h : BuddyInv shift m.buddy R H) (hf : Kept R H f) :
    ∀ b ∈ freeBlocks shift m.buddy, ¬ Mem f b := by
  rintro b hb hm
  rcases hf with ⟨c, hc, hmc⟩ | hf
  · have he := h.blocks.tiling.eq_of_mem (Or.inl hb) (Or.inr hc) hm hmc
    exact h.blocks.handed_not_free c hc (he ▸ hb)
  · exact hf ((h.blocks.tiling.cover f).mpr ⟨b, Or.inl hb, hm⟩)

structure PageTaken (shift : ℕ) (m : Machine) (R H : Set Block) (p : ℕ) (m' : Machine) : Prop where
  inv : BuddyInv shift m'.buddy R (insert (blk shift p 0) H)
  not_kept : ¬ Kept R H p
  aligned : 2 ^ shift ∣ p
  pages : ∀ f, 2 ^ shift ∣ f → Kept R H f → m'.page shift f = m.page shift f
  mem : m'.mem = zeroPage shift m.mem p
  freed : m'.freed = m.freed
  available : availableFrames m'.buddy + 1 = availableFrames m.buddy

theorem buddyAllocate_page (h : BuddyInv shift m.buddy R H) :
    (∃ p t, buddyAllocate shift m.buddy 0 allocFlagNofail = .ok (p, t) ∧
        PageTaken shift m R H p ⟨t, zeroPage shift m.mem p, m.freed⟩) ∨
      (availableFrames m.buddy = 0 ∧
        buddyAllocate shift m.buddy 0 allocFlagNofail = .error outOfMemory) := by
  rcases buddyAllocate_spec h (Nat.zero_le maxOrder) allocFlagNofail with ⟨p, t, hok, ha⟩ |
    ⟨hnone, hf⟩
  · refine Or.inl ⟨p, t, hok, ?_⟩
    have haligned : 2 ^ shift ∣ p :=
      ha.inv.blocks.page_dvd (b := blk shift p 0) (Or.inr (Set.mem_insert _ _))
    refine ⟨ha.inv, ?_, haligned, ?_, rfl, rfl, by simpa using ha.available⟩
    · intro hk
      obtain ⟨b, hb, hin⟩ := ha.was_free
      exact hk.not_free h b hb (inside_iff.mp hin p (base_mem (blk shift p 0)))
    · intro f hf hk
      refine ha.frame (f >>> shift) ?_
      rw [frame_address hf]
      exact hk.not_free h
  · refine Or.inr ⟨?_, hf⟩
    exact Finset.sum_eq_zero fun k _ => by simp [hnone k (Nat.zero_le k)]

theorem pmmAllocPage_spec (h : BuddyInv shift m.buddy R H) :
    (∃ p m', pmmAllocPage shift m = .ok (p, m') ∧ PageTaken shift m R H p m') ∨
      (availableFrames m.buddy = 0 ∧ pmmAllocPage shift m = .error outOfMemory) := by
  rcases buddyAllocate_page h with ⟨p, t, hok, ht⟩ | ⟨hnone, hf⟩
  · exact Or.inl ⟨p, _, by rw [pmmAllocPage, hok]; rfl, ht⟩
  · exact Or.inr ⟨hnone, by rw [pmmAllocPage, hf]; rfl⟩

theorem PageTaken.apart (h : PageTaken shift m R H p m') (hb : b ∈ H) (ha : Mem a b) :
    ¬ Mem a (blk shift p 0) := by
  intro hm
  have he := h.inv.blocks.tiling.eq_of_mem (Or.inr (Set.mem_insert_of_mem _ hb))
    (Or.inr (Set.mem_insert _ _)) ha hm
  exact h.not_kept (Or.inl ⟨b, hb, he ▸ base_mem (blk shift p 0)⟩)

structure PageGiven (shift : ℕ) (m : Machine) (R G : Set Block) (p : ℕ) (m' : Machine) : Prop where
  inv : BuddyInv shift m'.buddy R G
  pages : ∀ f, 2 ^ shift ∣ f → Kept R G f → m'.page shift f = m.page shift f
  mem : m'.mem = m.mem
  freed : m'.freed = ⟨p, m.page shift p, m.mem⟩ :: m.freed
  available : availableFrames m'.buddy = availableFrames m.buddy + 1

theorem pmmFreePage_spec (h : BuddyInv shift m.buddy R (insert (blk shift p 0) G))
    (hp : blk shift p 0 ∉ G) : PageGiven shift m R G p (pmmFreePage shift m p) := by
  have hr := buddyFree_spec h hp
  refine ⟨hr.inv, ?_, rfl, rfl, hr.available⟩
  intro f hf hk
  have hkept : Kept R (insert (blk shift p 0) G) f :=
    hk.imp_left fun ⟨b, hb, hm⟩ => ⟨b, Set.mem_insert_of_mem _ hb, hm⟩
  refine hr.frame (f >>> shift) ?_ ?_
  · rw [frame_address hf]
    intro hm
    rcases hk with ⟨b, hb, hmb⟩ | hk
    · exact hp (h.blocks.tiling.eq_of_mem (Or.inr (Set.mem_insert _ _))
        (Or.inr (Set.mem_insert_of_mem _ hb)) hm hmb ▸ hb)
    · exact hk (h.blocks.inside_region (Set.mem_insert _ _) hm)
  · rw [frame_address hf]
    exact hkept.not_free h

theorem setPage_owned (h : BuddyInv shift m.buddy R H) (hp : blk shift p 0 ∈ H)
    (hty : page.type ≠ .free) (ho : page.order = (m.page shift p).order) :
    BuddyInv shift (m.setPage shift p page).buddy R H := by
  have haligned : 2 ^ shift ∣ p := h.blocks.page_dvd (b := blk shift p 0) (Or.inr hp)
  refine MemBuddyRuns.retype_owned h hp (f := p >>> shift) ?_ hty ho
  rw [frame_address haligned]
  exact base_mem (blk shift p 0)

end MemPmm
