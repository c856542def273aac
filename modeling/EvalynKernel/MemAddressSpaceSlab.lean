import EvalynKernel.ArchPagingInvariant
import EvalynKernel.MemAddressSpace
import EvalynKernel.MemSpallocPages
import EvalynKernel.MemVmemSearch

/-! # The slab allocator of an address space

The segments of an address space lie in pages that its slab allocator takes from the buddy
allocator. The calls of `spalloc.c` are put on the machine here, and they are a lawful source
of segments that leaves the page table, the memory and the frames of all others alone. -/
namespace MemAddressSpaceSlab

open MachineWords DyadicBlocks DyadicBlocks.Block MemBuddyAllocator MemBuddyInvariant
open MemBuddyOperations MemPmm ArchPagingFormats ArchPagingTables ArchPagingInvariant
open MemAddressSpace MemVmem MemVmemOperations MemSpallocInvariant MemSpallocRuns MemSpallocPages

/-- `sizeof(vmem_segment_t)`: three words, the list node's two and the tree node's three. -/
def segmentSize : ℕ := 64

def segmentAlign : ℕ := 8

/-- `offsetof(vmem_segment_t, segment_tree_node)`. -/
def treeNodeOffset : ℕ := 40

/-- What `spalloc_init` makes of the segment allocator. -/
def segmentSlab (shift : ℕ) : MemSpalloc.Allocator := ⟨[], 64, 32, (2 ^ shift - 32) / 64⟩

/-- `spalloc_malloc(&alloc->segment_allocator)`, with the page from `buddy_allocate`. -/
def slabMalloc (g : Globals) (s : Machine × MemSpalloc.State) :
    Exec (ℕ × Machine × MemSpalloc.State) :=
  match s.2.alloc.partialList with
  | [] => do
    let (paddr, buddy) ← buddyAllocate g.mmu.pageSizeShift s.1.buddy 0 allocFlagNofail
    let (obj, t) ← MemSpalloc.spallocMalloc g.mmu.pageSize s.2 (wadd paddr g.hhdmOffset)
    return (obj + treeNodeOffset, { s.1 with buddy := buddy }, t)
  | _ :: _ => do
    let (obj, t) ← MemSpalloc.spallocMalloc g.mmu.pageSize s.2 0
    return (obj + treeNodeOffset, s.1, t)

/-- `spalloc_free(&alloc->segment_allocator, seg)`, with the page for `buddy_free`. -/
def slabFree (g : Globals) (s : Machine × MemSpalloc.State) (x : ℕ) :
    Exec (Machine × MemSpalloc.State) := do
  let obj := x - treeNodeOffset
  let hdr := alignDown obj g.mmu.pageSize
  let t ← MemSpalloc.spallocFree g.mmu.pageSize s.2 obj
  let freecount := (t.headers hdr).freecount
  if freecount ≠ 1 ∧ freecount = t.alloc.objsPerPage then
    let buddy := buddyFree g.mmu.pageSizeShift s.1.buddy (wsub hdr g.hhdmOffset) 0
    return ({ s.1 with buddy := buddy }, t)
  else return (s.1, t)

def slabPool (g : Globals) : SegmentAllocator (Machine × MemSpalloc.State) :=
  ⟨slabMalloc g, slabFree g⟩

/-- What the boot code guarantees: the direct map covers the allocator's memory, and the
lower half lies within the reach of a top-level table. -/
structure Layout (g : Globals) (R : Set Block) : Prop where
  law : g.mmu.Lawful
  shift_le : g.mmu.pageSizeShift ≤ 16
  hhdm_aligned : 2 ^ g.mmu.pageSizeShift ∣ g.hhdmOffset
  hhdm_top : ∀ a ∈ region R, a + g.hhdmOffset < word
  lower_page : 2 ^ g.mmu.pageSizeShift ≤ g.vaddrLowerHalfTop
  lower_top : g.vaddrLowerHalfTop ≤ span g.mmu * 2 ^ g.mmu.pageSizeShift

theorem Layout.lower_lt (hlay : Layout g R) : g.vaddrLowerHalfTop < word := by
  have hspan : span g.mmu * 2 ^ g.mmu.pageSizeShift < word := by
    have hs := hlay.law.span
    rw [span, tableEntries_eq, ← Nat.pow_mul, ← Nat.pow_add]
    exact Nat.pow_lt_pow_right (by decide) (by rw [Nat.mul_comm]; omega)
  exact Nat.lt_of_le_of_lt hlay.lower_top hspan

def slabBlocks (g : Globals) (t : MemSpalloc.State) : Set Block :=
  {b | ∃ p, p + g.hhdmOffset ∈ t.pages ∧ b = blk g.mmu.pageSizeShift p 0}

/-- Nothing of a page table and of the memory has changed. -/
structure Untouched (mmu : Mmu) (root : ℕ) (m m' : Machine) : Prop where
  mem : m'.mem = m.mem
  freed : m'.freed = m.freed
  pages : ∀ f, IsTable mmu m.mem root f →
    m'.page mmu.pageSizeShift f = m.page mmu.pageSizeShift f

theorem Untouched.refl (mmu : Mmu) (root : ℕ) (m : Machine) : Untouched mmu root m m :=
  ⟨rfl, rfl, fun _ _ => rfl⟩

variable {m m₁ : Machine}

theorem Untouched.trans (h : Untouched mmu root m m₁) (h' : Untouched mmu root m₁ m₂) :
    Untouched mmu root m m₂ := by
  refine ⟨h'.mem.trans h.mem, h'.freed.trans h.freed, fun f hf => ?_⟩
  have hf₁ : IsTable mmu m₁.mem root f := by rwa [h.mem]
  exact (h'.pages f hf₁).trans (h.pages f hf)

/-- The slab beside the page table `root`: the objects `L` are handed out, and since the
machine was `m₀` only the buddy allocator has changed. -/
structure SlabLive (g : Globals) (root : ℕ) (R Rest : Set Block) (boot : Set ℕ) (m₀ : Machine)
    (s : Machine × MemSpalloc.State) (L : Set ℕ) : Prop where
  slab : MemSpallocRuns.Inv g.mmu.pageSizeShift (segmentSlab g.mmu.pageSizeShift) s.2
  out : L = {x | ∃ obj ∈ s.2.out, x = obj + treeNodeOffset}
  direct : ∀ p ∈ s.2.pages, g.hhdmOffset ≤ p
  machine : ArchPagingInvariant.Inv g.mmu s.1 root R (Rest ∪ slabBlocks g s.2) boot
  apart : ∀ b ∈ slabBlocks g s.2, b ∉ Rest
  same : Untouched g.mmu root m₀ s.1

variable {g : Globals} {root : ℕ} {R Rest : Set Block} {boot : Set ℕ} {m₀ : Machine}
  {s : Machine × MemSpalloc.State} {L : Set ℕ} {shift : ℕ}

theorem spallocInit_segment (hlo : 12 ≤ shift) (hhi : shift ≤ 16) :
    MemSpalloc.spallocInit (2 ^ shift) segmentSize segmentAlign = .ok (segmentSlab shift) := by
  have hcases : shift = 12 ∨ shift = 13 ∨ shift = 14 ∨ shift = 15 ∨ shift = 16 := by omega
  rcases hcases with rfl | rfl | rfl | rfl | rfl <;> decide +kernel

theorem slab_fits (hlay : Layout g R) : Fits g.mmu.pageSizeShift segmentSize segmentAlign
    (segmentSlab g.mmu.pageSizeShift) :=
  (spallocInit_fits hlay.law.shift hlay.shift_le
    (spallocInit_segment hlay.law.shift hlay.shift_le)).1

variable {t : MemSpalloc.State} {obj : ℕ}

theorem object_node (hlay : Layout g R)
    (h : MemSpallocRuns.Inv g.mmu.pageSizeShift (segmentSlab g.mmu.pageSizeShift) t)
    (hobj : obj ∈ t.out) : (obj + treeNodeOffset) % 2 = 0 := by
  have hdvd := (h.separate (slab_fits hlay)).aligned obj hobj
  simp only [segmentAlign] at hdvd
  simp only [treeNodeOffset]
  omega

variable {t' : MemSpalloc.State} {p : ℕ}

theorem slabBlocks_cons (g : Globals) (hp : t'.pages = (p + g.hhdmOffset) :: t.pages) :
    slabBlocks g t' = insert (blk g.mmu.pageSizeShift p 0) (slabBlocks g t) := by
  ext b
  simp only [slabBlocks, hp, List.mem_cons, Set.mem_insert_iff, Set.mem_ofPred_eq]
  constructor
  · rintro ⟨q, he | hq, rfl⟩
    · exact Or.inl (congrArg (fun a => blk g.mmu.pageSizeShift a 0) (Nat.add_right_cancel he))
    · exact Or.inr ⟨q, hq, rfl⟩
  · rintro (rfl | ⟨q, hq, rfl⟩)
    · exact ⟨p, Or.inl rfl, rfl⟩
    · exact ⟨q, Or.inr hq, rfl⟩

theorem slabBlocks_erase (g : Globals) (hnd : t.pages.Nodup) (hp : p + g.hhdmOffset ∈ t.pages)
    (hp' : t'.pages = t.pages.erase (p + g.hhdmOffset)) :
    slabBlocks g t = insert (blk g.mmu.pageSizeShift p 0) (slabBlocks g t') ∧
      blk g.mmu.pageSizeShift p 0 ∉ slabBlocks g t' := by
  simp only [slabBlocks, hp', hnd.mem_erase_iff]
  constructor
  · ext b
    simp only [Set.mem_insert_iff, Set.mem_ofPred_eq]
    constructor
    · rintro ⟨q, hq, rfl⟩
      by_cases he : q = p
      · exact Or.inl (congrArg (fun a => blk g.mmu.pageSizeShift a 0) he)
      · exact Or.inr ⟨q, ⟨fun h => he (Nat.add_right_cancel h), hq⟩, rfl⟩
    · rintro (rfl | ⟨q, ⟨_, hq⟩, rfl⟩)
      · exact ⟨p, hp, rfl⟩
      · exact ⟨q, hq, rfl⟩
  · rintro ⟨q, ⟨hne, _⟩, he⟩
    exact hne (congrArg (· + g.hhdmOffset) (blk_injective he).1.symm)

theorem slabBlocks_congr (g : Globals) (hp : t'.pages = t.pages) :
    slabBlocks g t' = slabBlocks g t := by
  simp only [slabBlocks, hp]

theorem fresh_page (hlay : Layout g R) (hram : ∀ a ∈ region R, a ≠ 0 ∧ a < 2 ^ 52)
    (hsub : slabBlocks g t ⊆ H) (ht : PageTaken g.mmu.pageSizeShift m R H p m₁) :
    wadd p g.hhdmOffset = p + g.hhdmOffset ∧
      Fresh g.mmu.pageSizeShift t.pages (p + g.hhdmOffset) := by
  have hpos := Nat.two_pow_pos g.mmu.pageSizeShift
  have hin : ∀ a, Mem a (blk g.mmu.pageSizeShift p 0) → a ∈ region R :=
    fun a ha => ht.inv.blocks.inside_region (Set.mem_insert _ _) ha
  have hbase := hin p (base_mem (blk _ p 0))
  have hlast := hlay.hhdm_top _ (hin (p + 2 ^ g.mmu.pageSizeShift - 1)
    ⟨by simp only [blk]; omega, by simp only [blk, size, Nat.add_zero]; omega⟩)
  have hfirst := hlay.hhdm_top p hbase
  refine ⟨wadd_of_lt hfirst, ?_, ?_, ?_, by omega⟩
  · intro hmem
    exact ht.not_kept (Or.inl ⟨_, hsub ⟨p, hmem, rfl⟩, base_mem (blk _ p 0)⟩)
  · exact Nat.dvd_add ht.aligned hlay.hhdm_aligned
  · have := (hram p hbase).1
    omega

section Calls

variable (hlay : Layout g R) (h : SlabLive g root R Rest boot m₀ s L)

include hlay h

theorem SlabLive.handed (hobj : obj ≠ 0) (hnew : obj ∉ s.2.out) (hout : t.out = obj :: s.2.out)
    (hlive : SlabLive g root R Rest boot m₀ (m, t) {x | ∃ obj ∈ t.out, x = obj + treeNodeOffset}) :
    obj + treeNodeOffset ∉ L ∧ obj + treeNodeOffset ≠ 0 ∧ (obj + treeNodeOffset) % 2 = 0 ∧
      SlabLive g root R Rest boot m₀ (m, t) (insert (obj + treeNodeOffset) L) := by
  refine ⟨?_, by omega, object_node hlay hlive.slab (hout ▸ List.mem_cons_self), ?_⟩
  · rw [h.out]
    rintro ⟨obj', hobj', he⟩
    exact hnew (Nat.add_right_cancel he ▸ hobj')
  · have hset : insert (obj + treeNodeOffset) L =
        {x | ∃ obj ∈ t.out, x = obj + treeNodeOffset} := by
      rw [h.out, hout]
      ext x
      simp
    rw [hset]
    exact hlive

theorem slabMalloc_spec : Ensures (fun e => e = outOfMemory ∧ availableFrames s.1.buddy = 0)
    (slabMalloc g s) fun r => r.1 ∉ L ∧ r.1 ≠ 0 ∧ r.1 % 2 = 0 ∧
      SlabLive g root R Rest boot m₀ r.2 (insert r.1 L) ∧
      availableFrames s.1.buddy ≤ availableFrames r.2.1.buddy + 1 := by
  obtain ⟨m, t⟩ := s
  have hf := slab_fits hlay
  have hsize := pageSize_eq g.mmu
  cases hlist : t.alloc.partialList with
  | cons node rest =>
    have hsome : t.alloc.partialList ≠ [] := by simp [hlist]
    have hno : t.alloc.partialList = [] → Fresh g.mmu.pageSizeShift t.pages 0 :=
      fun hnil => absurd hnil hsome
    obtain ⟨obj, t', hcall, hobj, hnew, hout, hslab⟩ := spallocMalloc_spec hf h.slab hno
    have hpages := (spallocMalloc_local hf h.slab hno hcall).2
    rw [if_neg hsome] at hpages
    have hblocks := slabBlocks_congr g hpages
    refine Ensures.of_eq (r := (obj + treeNodeOffset, m, t')) ?_ ?_
    · simp only [slabMalloc, hlist, hsize, hcall]
      rfl
    · obtain ⟨h1, h2, h3, h4⟩ := h.handed hlay hobj hnew hout
        ⟨hslab, rfl, hpages ▸ h.direct, hblocks ▸ h.machine, hblocks ▸ h.apart, h.same⟩
      exact ⟨h1, h2, h3, h4, Nat.le_succ _⟩
  | nil =>
    rcases buddyAllocate_page h.machine.buddy with ⟨p, b, hok, ht⟩ | ⟨hnone, hfail⟩
    · have hsub : slabBlocks g t ⊆ Rest ∪ slabBlocks g t ∪ tableBlocks g.mmu m.mem root boot :=
        fun b hb => Or.inl (Or.inr hb)
      obtain ⟨hadd, hfresh⟩ := fresh_page hlay h.machine.ram hsub ht
      obtain ⟨obj, t', hcall, hobj, hnew, hout, hslab⟩ :=
        spallocMalloc_spec hf h.slab fun _ => hfresh
      have hpages := (spallocMalloc_local hf h.slab (fun _ => hfresh) hcall).2
      rw [if_pos hlist] at hpages
      have hblocks := slabBlocks_cons g hpages
      have hav := ht.available
      refine Ensures.of_eq (r := (obj + treeNodeOffset, { m with buddy := b }, t')) ?_ ?_
      · simp only [slabMalloc, hlist, hok, ok_bind, hadd, hsize, hcall]
        rfl
      · have hlive : SlabLive g root R Rest boot m₀ ({ m with buddy := b }, t')
            {x | ∃ obj ∈ t'.out, x = obj + treeNodeOffset} := by
          refine ⟨hslab, rfl, ?_, ?_, ?_, h.same.trans ⟨rfl, rfl, fun f hf => ?_⟩⟩
          · rw [hpages]
            exact List.forall_mem_cons.mpr ⟨Nat.le_add_left _ _, h.direct⟩
          · rw [hblocks, Set.union_insert]
            exact h.machine.hold ht
          · rw [hblocks]
            rintro c (rfl | hc) hrest
            · exact ht.not_kept (Or.inl ⟨_, Or.inl (Or.inl hrest), base_mem (blk _ p 0)⟩)
            · exact h.apart c hc hrest
          · exact ht.pages f (h.machine.aligned hf) (h.machine.kept hf)
        obtain ⟨h1, h2, h3, h4⟩ := h.handed hlay hobj hnew hout hlive
        exact ⟨h1, h2, h3, h4, by dsimp only at hav ⊢; omega⟩
    · refine Ensures.of_error ?_ ⟨rfl, hnone⟩
      simp only [slabMalloc, hlist, hfail]
      rfl

theorem slabFree_spec (hx : x ∈ L) :
    ∃ s', slabFree g s x = .ok s' ∧ SlabLive g root R Rest boot m₀ s' (L \ {x}) := by
  obtain ⟨m, t⟩ := s
  have hf := slab_fits hlay
  have hsize := pageSize_eq g.mmu
  have hx' := hx
  rw [h.out] at hx'
  obtain ⟨obj, hobj, rfl⟩ := hx'
  obtain ⟨t', hcall, hout, hslab⟩ := spallocFree_spec hf h.slab hobj
  obtain ⟨n, hn, hpages⟩ := spallocFree_page hf h.slab hobj hcall
  obtain ⟨hpage, -⟩ := page_of_out hf h.slab hobj
  have hper : t'.alloc.objsPerPage = (segmentSlab g.mmu.pageSizeShift).objsPerPage := by
    rw [hslab.layout]
  have hset : L \ {obj + treeNodeOffset} = {x | ∃ obj ∈ t'.out, x = obj + treeNodeOffset} := by
    ext x
    simp only [h.out, hout, h.slab.slab.out_nodup.mem_erase_iff, Set.mem_sdiff, Set.mem_ofPred_eq,
      Set.mem_singleton_iff]
    constructor
    · rintro ⟨⟨o, ho, rfl⟩, hne⟩
      exact ⟨o, ⟨fun he => hne (he ▸ rfl), ho⟩, rfl⟩
    · rintro ⟨o, ⟨hne, ho⟩, rfl⟩
      exact ⟨⟨o, ho, rfl⟩, fun he => hne (Nat.add_right_cancel he)⟩
  rw [hset]
  have hsub : obj + treeNodeOffset - treeNodeOffset = obj := Nat.add_sub_cancel _ _
  obtain ⟨p, hp⟩ := Nat.exists_eq_add_of_le' (h.direct _ hpage)
  by_cases hgive : n ≠ 1 ∧ n = (segmentSlab g.mmu.pageSizeShift).objsPerPage
  · rw [if_pos hgive] at hpages
    rw [hp] at hpages hpage hn
    obtain ⟨hblocks, hnot⟩ := slabBlocks_erase g h.slab.slab.nodup hpage hpages
    have hword : wsub (p + g.hhdmOffset) g.hhdmOffset = p := by
      have hb := h.slab.slab.bounded _ hpage
      have := Nat.two_pow_pos g.mmu.pageSizeShift
      rw [wsub_of_le (Nat.le_add_left _ _) (by omega), Nat.add_sub_cancel]
    have hinv := h.machine
    have hown : blk g.mmu.pageSizeShift p 0 ∉ Rest :=
      h.apart _ (hblocks ▸ Set.mem_insert _ _)
    rw [hblocks, Set.union_insert] at hinv
    obtain ⟨hdrop, hgiven⟩ := hinv.drop (by rintro (hr | hr); exacts [hown hr, hnot hr])
    refine ⟨({ m with buddy := buddyFree g.mmu.pageSizeShift m.buddy p 0 }, t'), ?_,
      hslab, rfl, ?_, hdrop.congr rfl rfl, ?_, h.same.trans ⟨rfl, rfl, fun f hf => ?_⟩⟩
    · simp only [slabFree, hsub, hsize, hcall, ok_bind, hn, hper, if_pos hgive, hp, hword]
      rfl
    · rw [hpages]
      exact fun q hq => h.direct q (List.mem_of_mem_erase hq)
    · exact fun b hb => h.apart b (hblocks ▸ Set.mem_insert_of_mem _ hb)
    · exact hgiven.pages f (h.machine.aligned hf) (kept_table h.machine.outside _ hf)
  · rw [if_neg hgive] at hpages
    have hblocks := slabBlocks_congr g hpages
    refine ⟨(m, t'), ?_, hslab, rfl, hpages ▸ h.direct, hblocks ▸ h.machine, hblocks ▸ h.apart,
      h.same⟩
    simp only [slabFree, hsub, hsize, hcall, ok_bind, hn, hper, if_neg hgive]
    rfl

end Calls

def unusedSlab (shift : ℕ) (headers : ℕ → MemSpalloc.PageHeader) (next : ℕ → ℕ) :
    MemSpalloc.State :=
  ⟨segmentSlab shift, headers, next, [], []⟩

theorem unused_live (hlay : Layout g R) (h : ArchPagingInvariant.Inv g.mmu m root R Rest boot)
    (headers : ℕ → MemSpalloc.PageHeader) (next : ℕ → ℕ) :
    SlabLive g root R Rest boot m (m, unusedSlab g.mmu.pageSizeShift headers next) ∅ := by
  have hblocks : slabBlocks g (unusedSlab g.mmu.pageSizeShift headers next) = ∅ := by
    simp [slabBlocks, unusedSlab]
  refine ⟨reachable_inv (slab_fits hlay) rfl (.init headers next), ?_, ?_, ?_, ?_, .refl _ _ _⟩
  · simp [unusedSlab]
  · simp [unusedSlab]
  · rw [hblocks, Set.union_empty]
    exact h
  · simp [hblocks]

theorem slab_lawful (hlay : Layout g R) (root : ℕ) (Rest : Set Block) (boot : Set ℕ)
    (m₀ : Machine) : Lawful (slabPool g) (· = outOfMemory) (SlabLive g root R Rest boot m₀) := by
  constructor
  · intro s L h
    refine ((slabMalloc_spec hlay h).fault fun e he => he.1).imp fun r hr => ?_
    exact ⟨hr.1, hr.2.1, hr.2.2.1, hr.2.2.2.1⟩
  · intro s L x h hx
    exact slabFree_spec hlay h hx

end MemAddressSpaceSlab
