import EvalynKernel.ArchPagingEncoding
import EvalynKernel.LoaderElfLoader
import EvalynKernel.MemAddressSpaceInvariant
import EvalynKernel.MemAddressSpacePages

/-! # The image of a program in memory

The loop over the pages of a segment keeps three numbers: the next address, the place in the
file and what is left of the file part. After `p` turns they are functions of `p`, and the
pages so far hold the bytes of the image. -/
namespace LoaderElfImage

open MachineWords DyadicBlocks DyadicBlocks.Block MemBuddyInvariant MemPmm ArchPagingFormats
open ArchPaging ArchPagingTables MemAddressSpace MemVmemPartition LoaderElf
open LoaderElfLoader MemAddressSpaceSlab MemAddressSpaceInvariant MemAddressSpacePages
open MemBuddyAllocator (outOfMemory)

variable {mmu : Mmu} {file : ElfFile} {ph : ElfProgramHeader} {m m' : Machine} {root : ℕ}
  {R Rest : Set Block} {boot : Set ℕ} {ps : List UserPage}

def imageByte (file : ElfFile) (ph : ElfProgramHeader) (a : ℕ) : ℕ :=
  if a < ph.virtAddr then 0
  else if a - ph.virtAddr < ph.fileSize then file.bytes (ph.offset + (a - ph.virtAddr)) else 0

def pagesStart (mmu : Mmu) (ph : ElfProgramHeader) : ℕ := alignDown ph.virtAddr mmu.pageSize

def pagesEnd (mmu : Mmu) (ph : ElfProgramHeader) : ℕ :=
  alignUp (wadd ph.virtAddr ph.memSize) mmu.pageSize

def InPages (mmu : Mmu) (ph : ElfProgramHeader) (a : ℕ) : Prop :=
  pagesStart mmu ph ≤ a ∧ a < pagesEnd mmu ph

/-- The segment ends a page before the end of the word. -/
def Unwrapped (mmu : Mmu) (ph : ElfProgramHeader) : Prop :=
  ph.virtAddr + ph.memSize < word - mmu.pageSize

instance : Decidable (Unwrapped mmu ph) :=
  inferInstanceAs (Decidable (ph.virtAddr + ph.memSize < word - mmu.pageSize))

/-- How much of the file part the first `p` pages hold. -/
def copied (mmu : Mmu) (ph : ElfProgramHeader) (p : ℕ) : ℕ :=
  min ph.fileSize (p * 2 ^ mmu.pageSizeShift - (ph.virtAddr - pagesStart mmu ph))

structure Bounds (mmu : Mmu) (ph : ElfProgramHeader) : Prop where
  start_dvd : 2 ^ mmu.pageSizeShift ∣ pagesStart mmu ph
  end_dvd : 2 ^ mmu.pageSizeShift ∣ pagesEnd mmu ph
  start_le : pagesStart mmu ph ≤ ph.virtAddr
  lt_start : ph.virtAddr < pagesStart mmu ph + 2 ^ mmu.pageSizeShift
  le_end : ph.virtAddr + ph.memSize ≤ pagesEnd mmu ph
  end_lt : pagesEnd mmu ph < word

theorem bounds (hshift : mmu.pageSizeShift ≤ 16) (h : Unwrapped mmu ph) : Bounds mmu ph := by
  have hpos := Nat.two_pow_pos mmu.pageSizeShift
  unfold Unwrapped at h
  rw [pageSize_eq] at h
  have hstart : pagesStart mmu ph =
      ph.virtAddr / 2 ^ mmu.pageSizeShift * 2 ^ mmu.pageSizeShift := by
    rw [pagesStart, pageSize_eq, alignDown_two_pow (by omega) (by omega)]
  have hsum : wadd ph.virtAddr ph.memSize = ph.virtAddr + ph.memSize := wadd_of_lt (by omega)
  have hup := alignUp_bounds (show mmu.pageSizeShift ≤ 64 by omega)
    (show ph.virtAddr + ph.memSize + 2 ^ mmu.pageSizeShift ≤ word by omega)
  have hdiv := Nat.div_add_mod' ph.virtAddr (2 ^ mmu.pageSizeShift)
  refine ⟨hstart ▸ Nat.dvd_mul_left _ _, ?_, by omega, by omega, ?_, ?_⟩
  · rw [pagesEnd, pageSize_eq]
    exact dvd_alignUp (by omega)
  · rw [pagesEnd, pageSize_eq, hsum]
    exact hup.1
  · rw [pagesEnd, pageSize_eq]
    exact alignUp_lt (by omega)

variable {a v : ℕ}

theorem inPages_page (hb : Bounds mmu ph) (hv : 2 ^ mmu.pageSizeShift ∣ v)
    (ha : v ≤ a ∧ a < v + 2 ^ mmu.pageSizeShift) (hin : InPages mmu ph a)
    (hb' : v ≤ b ∧ b < v + 2 ^ mmu.pageSizeShift) : InPages mmu ph b := by
  obtain ⟨hlo, hhi⟩ := hin
  obtain ⟨k, rfl⟩ := hv
  obtain ⟨s, hs⟩ := hb.start_dvd
  obtain ⟨e, he⟩ := hb.end_dvd
  unfold InPages
  have hsk : s < k + 1 := by
    apply Nat.lt_of_mul_lt_mul_left (a := 2 ^ mmu.pageSizeShift)
    rw [Nat.mul_succ]
    omega
  have hke : k < e := Nat.lt_of_mul_lt_mul_left (a := 2 ^ mmu.pageSizeShift) (by omega)
  have h1 := Nat.mul_le_mul_left (2 ^ mmu.pageSizeShift) (Nat.lt_succ_iff.mp hsk)
  have h2 := Nat.mul_le_mul_left (2 ^ mmu.pageSizeShift) (Nat.succ_le_of_lt hke)
  rw [Nat.mul_succ] at h2
  omega

/-- A segment is a number of pages, which the loader and the allocator count alike. -/
theorem Bounds.whole (hb : Bounds mmu ph) (hshift : mmu.pageSizeShift ≤ 16) :
    ∃ n, n = wsub (pagesEnd mmu ph) (pagesStart mmu ph) / mmu.pageSize ∧
      pagesStart mmu ph + n * 2 ^ mmu.pageSizeShift = pagesEnd mmu ph ∧
      pagesStart mmu ph + alignUp (wsub (pagesEnd mmu ph) (pagesStart mmu ph))
        (2 ^ mmu.pageSizeShift) = pagesEnd mmu ph := by
  have hstart := hb.start_le
  have hend := hb.le_end
  have hlt := hb.end_lt
  have hdvd : 2 ^ mmu.pageSizeShift ∣ pagesEnd mmu ph - pagesStart mmu ph :=
    Nat.dvd_sub hb.end_dvd hb.start_dvd
  have hsize : wsub (pagesEnd mmu ph) (pagesStart mmu ph) = pagesEnd mmu ph - pagesStart mmu ph :=
    wsub_of_le (by omega) hlt
  refine ⟨_, rfl, ?_, ?_⟩
  · rw [hsize, pageSize_eq, Nat.div_mul_cancel hdvd]
    omega
  · rw [hsize, alignUp_of_dvd (by omega) (by omega) hdvd]
    omega

variable {n : ℕ}

theorem page_of_inPages (hn : pagesStart mmu ph + n * 2 ^ mmu.pageSizeShift = pagesEnd mmu ph)
    (ha : InPages mmu ph a) :
    ∃ i < n, pagesStart mmu ph + i * 2 ^ mmu.pageSizeShift ≤ a ∧
      a < pagesStart mmu ph + i * 2 ^ mmu.pageSizeShift + 2 ^ mmu.pageSizeShift := by
  obtain ⟨hlo, hhi⟩ := ha
  have hpos := Nat.two_pow_pos mmu.pageSizeShift
  have hdiv := Nat.div_add_mod' (a - pagesStart mmu ph) (2 ^ mmu.pageSizeShift)
  refine ⟨(a - pagesStart mmu ph) / 2 ^ mmu.pageSizeShift, ?_, by omega, by omega⟩
  rw [Nat.div_lt_iff_lt_mul hpos]
  omega

section Fill

variable {size ppage offset src toCopy : ℕ} {mem : ℕ → ℕ}

theorem fillPage_eq : fillPage size file mem ppage offset src toCopy =
    clearBytes (copyBytes (clearBytes mem ppage offset) (ppage + offset) toCopy file.bytes src)
      (ppage + offset + toCopy) (size - offset - toCopy) := by
  have hclear : ∀ (c : Prop) [Decidable c] (mem : ℕ → ℕ) (addr n : ℕ), (¬ c → n = 0) →
      (if c then clearBytes mem addr n else mem) = clearBytes mem addr n := by
    intro c _ mem addr n hn
    split
    · rfl
    · rename_i hc
      funext a
      exact (if_neg (by have := hn hc; omega)).symm
  have hcopy : ∀ mem : ℕ → ℕ,
      (if toCopy ≠ 0 then copyBytes mem (ppage + offset) toCopy file.bytes src else mem) =
        copyBytes mem (ppage + offset) toCopy file.bytes src := by
    intro mem
    split
    · rfl
    · funext a
      exact (if_neg (by omega)).symm
  simp only [fillPage, hcopy]
  rw [hclear _ mem _ _ (by omega), hclear _ _ _ _ (by omega)]

variable (hfit : offset + toCopy ≤ size)

include hfit

theorem fillPage_inside (ho : o < size) :
    fillPage size file mem ppage offset src toCopy (ppage + o) =
      if o < offset then 0
      else if o < offset + toCopy then file.bytes (src + (o - offset)) else 0 := by
  simp only [fillPage_eq, clearBytes, copyBytes]
  by_cases h1 : o < offset
  · rw [if_pos h1, if_neg (by omega), if_neg (by omega), if_pos (by omega)]
  · by_cases h2 : o < offset + toCopy
    · rw [if_neg h1, if_pos h2, if_neg (by omega), if_pos (by omega)]
      congr 1
      omega
    · rw [if_neg h1, if_neg h2, if_pos (by omega)]

theorem fillPage_outside (ha : ¬ (ppage ≤ a ∧ a < ppage + size)) :
    fillPage size file mem ppage offset src toCopy a = mem a := by
  simp only [fillPage_eq, clearBytes, copyBytes]
  rw [if_neg (by omega), if_neg (by omega), if_neg (by omega)]

end Fill

/-- One turn in numbers: `K` bytes of pages are done, `c` of the `F` bytes are copied, and
the page at `start + K` gets its part of the bytes `f`. -/
theorem turn_copies (f : ℕ → ℕ) (hK : K = 0 ∧ offset = virt - start ∨ P ≤ K ∧ offset = 0)
    (hlo : start ≤ virt) (hhi : virt < start + P) (hc : c = min F (K - (virt - start)))
    (hcopy : toCopy = min (F - c) (P - offset)) :
    offset + toCopy ≤ P ∧ min F (K + P - (virt - start)) = c + toCopy ∧
      ∀ o < P, (if o < offset then 0 else if o < offset + toCopy then f (c + (o - offset)) else 0) =
        if start + K + o < virt then 0
        else if start + K + o - virt < F then f (start + K + o - virt) else 0 := by
  refine ⟨by omega, by omega, fun o ho => ?_⟩
  by_cases hgap : o < offset
  · rw [if_pos hgap, if_pos (by omega)]
  · have hvirt : ¬ start + K + o < virt := by omega
    rw [if_neg hgap, if_neg hvirt]
    by_cases hfile : o < offset + toCopy
    · rw [if_pos hfile, if_pos (by omega)]
      congr 1
      omega
    · rw [if_neg hfile, if_neg (by omega)]

structure IsPage (mmu : Mmu) (file : ElfFile) (ph : ElfProgramHeader) (i : ℕ) (r : UserPage) :
    Prop where
  vaddr : r.vaddr = pagesStart mmu ph + i * 2 ^ mmu.pageSizeShift
  prot : r.prot = mmu.protection (pteFlags ph)
  bytes : r.bytes = imageByte file ph

/-- The variables of the loop after `p` turns, when the pages `ps` were there before. -/
structure Filled (mmu : Mmu) (file : ElfFile) (root : ℕ) (R Rest : Set Block) (boot : Set ℕ)
    (ps : List UserPage) (ph : ElfProgramHeader) (p : ℕ) (s : Progress) : Prop where
  start : s.alignedStart = pagesStart mmu ph + p * 2 ^ mmu.pageSizeShift
  src : s.src = ph.offset + copied mmu ph p
  remaining : s.fileRemaining = ph.fileSize - copied mmu ph p
  pages : ∃ new, Pages mmu s.machine root R Rest boot (new ++ ps) ∧
    (∀ r ∈ new, ∃ i < p, IsPage mmu file ph i r) ∧ ∀ i < p, ∃ r ∈ new, IsPage mmu file ph i r

theorem pteFlags_level (ph : ElfProgramHeader) : pteFlags ph &&& 3 = 0 := by
  unfold pteFlags
  generalize hasFlag ph.flags elfProgWrite = w
  generalize hasFlag ph.flags elfProgExecFlag = e
  revert w e
  decide

variable {s : Progress}

theorem loadPage_spec (law : mmu.Lawful) (hb : Bounds mmu ph)
    (hp : pagesStart mmu ph + (p + 1) * 2 ^ mmu.pageSizeShift ≤ pagesEnd mmu ph)
    (hspan : pagesStart mmu ph + p * 2 ^ mmu.pageSizeShift < span mmu * 2 ^ mmu.pageSizeShift)
    (hnew : ∀ r ∈ ps, r.vaddr ≠ pagesStart mmu ph + p * 2 ^ mmu.pageSizeShift)
    (h : Filled mmu file root R Rest boot ps ph p s) :
    Ensures (· = outOfMemory)
      (loadPage mmu file root (pteFlags ph) (wsub ph.virtAddr (pagesStart mmu ph)) s p)
      (Filled mmu file root R Rest boot ps ph (p + 1)) := by
  obtain ⟨hstart, hsrc, hremaining, new, hpages, hall, hevery⟩ := h
  have hpos := Nat.two_pow_pos mmu.pageSizeShift
  have hend := hb.end_lt
  have haligned : 2 ^ mmu.pageSizeShift ∣ s.alignedStart := by
    rw [hstart]
    exact Nat.dvd_add hb.start_dvd (Nat.dvd_mul_left _ _)
  have hfresh : ∀ r ∈ new ++ ps, r.vaddr ≠ s.alignedStart := by
    intro r hr
    rw [hstart]
    rcases List.mem_append.mp hr with hr | hr
    · obtain ⟨i, hi, hpage⟩ := hall r hr
      have hlt := Nat.mul_lt_mul_of_pos_right hi hpos
      rw [hpage.vaddr]
      omega
    · exact hnew r hr
  have hwsub : wsub ph.virtAddr (pagesStart mmu ph) = ph.virtAddr - pagesStart mmu ph :=
    wsub_of_le hb.start_le (by have := hb.le_end; omega)
  unfold loadPage
  refine Ensures.bind ((pmmAllocPage_ensures hpages.inv.buddy).fault fun e he => he.1) ?_
  rintro ⟨ppage, m₁⟩ ht
  refine Ensures.bind ((pagingMapPage_taken law hpages.inv ht haligned (pteFlags_level ph)).fault
    fun e he => he.1) ?_
  intro m₂ hadd
  rw [hwsub, pageSize_eq, hremaining]
  obtain ⟨offset, hoffset⟩ : ∃ o, o = if p = 0 then ph.virtAddr - pagesStart mmu ph else 0 :=
    ⟨_, rfl⟩
  obtain ⟨toCopy, hcopy⟩ : ∃ n, n =
      if ph.fileSize - copied mmu ph p < 2 ^ mmu.pageSizeShift - offset
      then ph.fileSize - copied mmu ph p else 2 ^ mmu.pageSizeShift - offset := ⟨_, rfl⟩
  simp only [← hoffset, ← hcopy]
  have hmin : toCopy = min (ph.fileSize - copied mmu ph p) (2 ^ mmu.pageSizeShift - offset) := by
    rw [hcopy]
    split <;> omega
  have hK : p * 2 ^ mmu.pageSizeShift = 0 ∧ offset = ph.virtAddr - pagesStart mmu ph ∨
      2 ^ mmu.pageSizeShift ≤ p * 2 ^ mmu.pageSizeShift ∧ offset = 0 := by
    by_cases h0 : p = 0
    · exact Or.inl ⟨by rw [h0, Nat.zero_mul], by rw [hoffset, if_pos h0]⟩
    · exact Or.inr ⟨Nat.le_mul_of_pos_left _ (Nat.pos_of_ne_zero h0), by rw [hoffset, if_neg h0]⟩
  obtain ⟨hfit, hnext, hbytes⟩ := turn_copies (fun i => file.bytes (ph.offset + i)) hK hb.start_le
    hb.lt_start rfl hmin
  have hsucc : copied mmu ph (p + 1) = copied mmu ph p + toCopy := by
    rw [copied, Nat.add_mul, Nat.one_mul]
    exact hnext
  obtain ⟨mem', hmem⟩ : ∃ mem', mem' =
      fillPage (2 ^ mmu.pageSizeShift) file m₂.mem ppage offset s.src toCopy := ⟨_, rfl⟩
  have houtside : ∀ a, ¬ Mem a (blk mmu.pageSizeShift ppage 0) → mem' a = m₂.mem a := by
    intro a ha
    rw [hmem]
    exact fillPage_outside hfit ha
  have hinside : ∀ o < 2 ^ mmu.pageSizeShift,
      mem' (ppage + o) = imageByte file ph (s.alignedStart + o) := by
    intro o ho
    rw [hmem, fillPage_inside hfit ho, hsrc, hstart]
    simp only [Nat.add_assoc] at hbytes ⊢
    exact hbytes o ho
  have hadded := hpages.add law hadd haligned (hstart ▸ hspan) hfresh houtside hinside
  rw [hmem] at hadded
  refine ⟨?_, ?_, ?_, _ :: new, hadded, ?_, ?_⟩
  · rw [Nat.add_mul, Nat.one_mul, ← Nat.add_assoc] at hp ⊢
    rw [hstart, wadd_of_lt (by omega)]
  · rw [hsrc, hsucc, Nat.add_assoc]
  · rw [hsucc, Nat.sub_add_eq]
  · have hpage : IsPage mmu file ph p ⟨s.alignedStart, ppage, mmu.protection (pteFlags ph),
        imageByte file ph⟩ := ⟨hstart, rfl, rfl⟩
    refine List.forall_mem_cons.mpr ⟨⟨p, Nat.lt_succ_self p, hpage⟩, fun r hr => ?_⟩
    obtain ⟨i, hi, hr⟩ := hall r hr
    exact ⟨i, Nat.lt_succ_of_lt hi, hr⟩
  · intro i hi
    rcases Nat.lt_succ_iff_lt_or_eq.mp hi with hi | rfl
    · obtain ⟨r, hr, hpage⟩ := hevery i hi
      exact ⟨r, List.mem_cons_of_mem _ hr, hpage⟩
    · exact ⟨_, List.mem_cons_self, hstart, rfl, rfl⟩

theorem loadPages_spec (law : mmu.Lawful) (hb : Bounds mmu ph)
    (hn : pagesStart mmu ph + n * 2 ^ mmu.pageSizeShift = pagesEnd mmu ph)
    (hspan : pagesEnd mmu ph ≤ span mmu * 2 ^ mmu.pageSizeShift)
    (hnew : ∀ r ∈ ps, ∀ i < n, r.vaddr ≠ pagesStart mmu ph + i * 2 ^ mmu.pageSizeShift)
    (h : Pages mmu m root R Rest boot ps) :
    Ensures (· = outOfMemory)
      ((List.range n).foldlM
        (loadPage mmu file root (pteFlags ph) (wsub ph.virtAddr (pagesStart mmu ph)))
        ⟨m, pagesStart mmu ph, ph.offset, ph.fileSize⟩)
      (Filled mmu file root R Rest boot ps ph n) := by
  have hzero : copied mmu ph 0 = 0 := by simp [copied]
  apply Ensures.foldlM_range (Filled mmu file root R Rest boot ps ph)
  · refine ⟨by simp, by simp [hzero], by simp [hzero], [], h, by simp, by simp⟩
  · intro i hi s hs
    have hle := Nat.mul_le_mul_right (2 ^ mmu.pageSizeShift) (show i + 1 ≤ n from hi)
    have hpos := Nat.two_pow_pos mmu.pageSizeShift
    have hlt := Nat.mul_lt_mul_of_pos_right hi hpos
    exact loadPage_spec law hb (by omega) (by omega) (fun r hr => hnew r hr i hi) hs

section Segments

variable {g : Globals} {x x' : AddressSpace MemSpalloc.State} {done : List ElfProgramHeader}

/-- The segments `done` are loaded: the address space holds the pages `ps`, which lie in its
allocated segments. -/
structure Image (g : Globals) (file : ElfFile) (R Rest : Set Block) (boot : Set ℕ)
    (done : List ElfProgramHeader) (m : Machine) (x : AddressSpace MemSpalloc.State)
    (gs : List MemVmem.Segment) (ps : List UserPage) : Prop where
  space : Space g R (Rest ∪ frames g.mmu ps) boot m x gs
  pages : Pages g.mmu m x.pagetable R (Rest ∪ slabBlocks g x.slab) boot ps
  covered : ∀ r ∈ ps, ∀ a, r.vaddr ≤ a → a < r.vaddr + 2 ^ g.mmu.pageSizeShift → AllocatedAt gs a
  image : ∀ ph ∈ done, ∀ a, InPages g.mmu ph a → ∃ r ∈ ps, r.vaddr ≤ a ∧
    a < r.vaddr + 2 ^ g.mmu.pageSizeShift ∧ r.prot = g.mmu.protection (pteFlags ph) ∧
    r.bytes = imageByte file ph
  apart : done.Pairwise fun ph ph' => ∀ a, InPages g.mmu ph a → ¬ InPages g.mmu ph' a

variable {gs gs' : List MemVmem.Segment} {size r : ℕ}

theorem Image.reserve (h : Image g file R Rest boot done m x gs ps)
    (hr : Reserved g R (Rest ∪ frames g.mmu ps) boot gs m x size addr r m' x' gs') :
    Pages g.mmu m' x'.pagetable R (Rest ∪ slabBlocks g x'.slab) boot ps := by
  obtain ⟨-, hholds, hplaced, hdistinct, happart⟩ := h.pages
  refine ⟨?_, fun p hp => ?_, hplaced, hdistinct, ?_⟩
  · rw [Set.union_right_comm]
    exact hr.space.inv
  · rw [hr.table]
    obtain ⟨hmapped, hbytes⟩ := hholds p hp
    constructor
    · rw [hr.same.mem]
      exact hmapped
    · rw [hr.same.mem]
      exact hbytes
  · rintro p hp (hrest | hslab)
    · exact happart p hp (Or.inl hrest)
    · exact hr.space.live.apart _ hslab (Or.inr ⟨p, hp, rfl⟩)

theorem loadSegment_ok (hok : loadSegment (slabPool g) g file m x ph = .ok (true, m', x')) :
    pagesStart g.mmu ph ≠ 0 ∧ ∃ r m₁ s, r ≠ 0 ∧
      x.alloc (slabPool g) m (wsub (pagesEnd g.mmu ph) (pagesStart g.mmu ph))
        (pagesStart g.mmu ph) = .ok (r, m₁, x') ∧
      (List.range (wsub (pagesEnd g.mmu ph) (pagesStart g.mmu ph) / g.mmu.pageSize)).foldlM
        (loadPage g.mmu file x'.pagetable (pteFlags ph) (wsub ph.virtAddr (pagesStart g.mmu ph)))
        ⟨m₁, pagesStart g.mmu ph, ph.offset, ph.fileSize⟩ = .ok s ∧ s.machine = m' := by
  simp only [loadSegment] at hok
  split at hok
  · cases hok
  rename_i hstart
  obtain ⟨⟨r, m₁, x₁⟩, halloc, hok⟩ := bind_ok hok
  split at hok
  · cases hok
  rename_i hr
  obtain ⟨s, hloop, hret⟩ := bind_ok hok
  obtain ⟨rfl, rfl⟩ : s.machine = m' ∧ x₁ = x' := by simpa using Except.ok.inj hret
  exact ⟨hstart, r, m₁, s, hr, halloc, hloop, rfl⟩

theorem Image.extend (h : Image g file R Rest boot done m x gs ps)
    (hn : pagesStart g.mmu ph + n * 2 ^ g.mmu.pageSizeShift = pagesEnd g.mmu ph)
    (hres : Reserved g R (Rest ∪ frames g.mmu ps) boot gs m x size r (pagesStart g.mmu ph) m₁ x'
      gs')
    (hsize : pagesStart g.mmu ph + alignUp size (2 ^ g.mmu.pageSizeShift) = pagesEnd g.mmu ph)
    (hfilled : Filled g.mmu file x'.pagetable R (Rest ∪ slabBlocks g x'.slab) boot ps ph n s) :
    ∃ ps', Image g file R Rest boot (done ++ [ph]) s.machine x' gs' ps' := by
  have hfree := hres.free
  have htaken := hres.taken
  rw [hsize] at hfree htaken
  obtain ⟨new, hall, hpage, hevery⟩ := hfilled.pages
  refine ⟨new ++ ps, ?_, hall, ?_, ?_, ?_⟩
  · refine MemVmemReach.Kept.move hres.space fun _ hl =>
      ⟨hl.slab, hl.out, hl.direct, ?_, fun b hb' => ?_, Untouched.refl _ _ _⟩
    · rw [Set.union_right_comm]
      exact hall.inv
    · rintro (hrest | ⟨r, hr, rfl⟩)
      · exact hres.space.live.apart b hb' (Or.inl hrest)
      · exact hall.apart r hr (Or.inr hb')
  · intro r hr a hlo hhi
    rcases List.mem_append.mp hr with hr | hr
    · obtain ⟨i, hi, hpage⟩ := hpage r hr
      have hle := Nat.mul_le_mul_right (2 ^ g.mmu.pageSizeShift) (show i + 1 ≤ n from hi)
      rw [hpage.vaddr] at hlo hhi
      rw [Nat.add_mul] at hle
      exact htaken a (by omega) (by omega)
    · exact hres.kept a (h.covered r hr a hlo hhi)
  · intro ph' hph' a ha
    rcases List.mem_append.mp hph' with hph' | hph'
    · obtain ⟨r, hr, hrest⟩ := h.image ph' hph' a ha
      exact ⟨r, List.mem_append_right new hr, hrest⟩
    · obtain rfl := List.mem_singleton.mp hph'
      obtain ⟨i, hi, hlo, hhi⟩ := page_of_inPages hn ha
      obtain ⟨r, hr, hpage⟩ := hevery i hi
      rw [← hpage.vaddr] at hlo hhi
      exact ⟨r, List.mem_append_left ps hr, hlo, hhi, hpage.prot, hpage.bytes⟩
  · refine List.pairwise_append.mpr ⟨h.apart, List.pairwise_singleton _ _, fun ph' hph' b hb' => ?_⟩
    obtain rfl := List.mem_singleton.mp hb'
    intro a ha hin
    obtain ⟨r, hr, hlo, hhi, -⟩ := h.image ph' hph' a ha
    exact hfree a hin.1 hin.2 (h.covered r hr a hlo hhi)

theorem loadSegment_image (hlay : Layout g R) (hu : Unwrapped g.mmu ph)
    (h : Image g file R Rest boot done m x gs ps)
    (hok : loadSegment (slabPool g) g file m x ph = .ok (true, m', x')) :
    ∃ gs' ps', Image g file R Rest boot (done ++ [ph]) m' x' gs' ps' := by
  have hb := bounds hlay.shift_le hu
  have hpos := Nat.two_pow_pos g.mmu.pageSizeShift
  have hend := hb.end_lt
  have htop := hlay.lower_top
  obtain ⟨n, hn, hpages, hround⟩ := hb.whole hlay.shift_le
  obtain ⟨hstart, r, m₁, s, hr, halloc, hloop, rfl⟩ := loadSegment_ok hok
  rw [← hn] at hloop
  rcases h.space.alloc hlay (by omega) halloc with heq | ⟨gs', hres⟩
  · exact absurd (congrArg Prod.fst heq) hr
  obtain rfl : r = pagesStart g.mmu ph := hres.asked hstart
  have hfree := hres.free
  have hinside := hres.inside
  have hnew : ∀ r ∈ ps, ∀ i < n,
      r.vaddr ≠ pagesStart g.mmu ph + i * 2 ^ g.mmu.pageSizeShift := by
    intro r hr i hi he
    have hlt := Nat.mul_lt_mul_of_pos_right hi hpos
    exact hfree r.vaddr (by omega) (by omega) (h.covered r hr _ (Nat.le_refl _) (by omega))
  have hfilled := (loadPages_spec hlay.law hb hpages (by omega) hnew (h.reserve hres)).value hloop
  exact ⟨gs', h.extend hpages hres hround hfilled⟩

theorem loadSegments_image (hlay : Layout g R)
    (hu : ∀ ph ∈ headers, ph.type = elfProgPtLoadType → Unwrapped g.mmu ph)
    (h : Image g file R Rest boot done m x gs ps)
    (hok : loadSegments (slabPool g) g file m x headers = .ok (true, m', x')) :
    ∃ gs' ps', Image g file R Rest boot
      (done ++ headers.filter fun ph => ph.type = elfProgPtLoadType) m' x' gs' ps' := by
  induction headers generalizing done m x gs ps with
  | nil =>
    obtain ⟨rfl, rfl⟩ : m = m' ∧ x = x' := by simpa [loadSegments] using hok
    exact ⟨gs, ps, by simpa using h⟩
  | cons ph rest ih =>
    have hrest := fun q (hq : q ∈ rest) => hu q (List.mem_cons_of_mem _ hq)
    rw [loadSegments] at hok
    by_cases hload : ph.type = elfProgPtLoadType
    · rw [if_neg (not_not_intro hload)] at hok
      obtain ⟨⟨loaded, m₁, x₁⟩, hseg, hok⟩ := bind_ok hok
      cases loaded with
      | false => cases hok
      | true =>
        obtain ⟨gs₁, ps₁, h₁⟩ := loadSegment_image hlay (hu ph List.mem_cons_self hload) h hseg
        obtain ⟨gs₂, ps₂, h₂⟩ := ih hrest h₁ hok
        exact ⟨gs₂, ps₂, by simpa [hload] using h₂⟩
    · rw [if_pos hload] at hok
      obtain ⟨gs₁, ps₁, h₁⟩ := ih hrest h hok
      exact ⟨gs₁, ps₁, by simpa [hload] using h₁⟩

end Segments

section Program

def byteAt (mmu : Mmu) (m : Machine) (root a : ℕ) : Option ℕ :=
  (translate mmu m.mem root a).map fun r => m.mem r.1

/-- A segment is in memory as the file describes it. -/
structure Loads (mmu : Mmu) (file : ElfFile) (m : Machine) (root : ℕ) (ph : ElfProgramHeader) :
    Prop where
  data : ∀ a, ph.virtAddr ≤ a → a < ph.virtAddr + ph.memSize → byteAt mmu m root a =
    some (if a - ph.virtAddr < ph.fileSize then file.bytes (ph.offset + (a - ph.virtAddr)) else 0)
  gap : ∀ a, pagesStart mmu ph ≤ a → a < ph.virtAddr → byteAt mmu m root a = some 0
  access : ∀ a, InPages mmu ph a → ∃ paddr prot, translate mmu m.mem root a = some (paddr, prot) ∧
    hasFlag prot pageU = true ∧ hasFlag prot pageR = true ∧
    hasFlag prot pageW = hasFlag ph.flags elfProgWrite ∧
    hasFlag prot pageX = hasFlag ph.flags elfProgExecFlag

/-- Two segments share no page and no frame. -/
def Separate (mmu : Mmu) (m : Machine) (root : ℕ) (ph ph' : ElfProgramHeader) : Prop :=
  ∀ a a', InPages mmu ph a → InPages mmu ph' a' → a / mmu.pageSize ≠ a' / mmu.pageSize ∧
    ∀ r r', translate mmu m.mem root a = some r → translate mmu m.mem root a' = some r' →
      r.1 / mmu.pageSize ≠ r'.1 / mmu.pageSize

variable {config : ℕ}

theorem protection_flags (arch : ArchPagingEncoding.Arch) (hnx : hasFlag config mmuConfigNx = true)
    (ph : ElfProgramHeader) : let prot := (arch.mmu config).protection (pteFlags ph)
    hasFlag prot pageU = true ∧ hasFlag prot pageR = true ∧
      hasFlag prot pageW = hasFlag ph.flags elfProgWrite ∧
      hasFlag prot pageX = hasFlag ph.flags elfProgExecFlag := by
  unfold pteFlags
  generalize hasFlag ph.flags elfProgWrite = w
  generalize hasFlag ph.flags elfProgExecFlag = e
  cases arch with
  | x86_64 =>
    simp only [ArchPagingEncoding.Arch.mmu, x86_64, Mmu.protection, X86.protToMmuFlags, hnx]
    revert w e
    decide +kernel
  | riscv64 =>
    simp only [ArchPagingEncoding.Arch.mmu, riscv64, Mmu.protection]
    revert w e
    decide +kernel
  | loongarch64 size =>
    simp only [ArchPagingEncoding.Arch.mmu, loongarch64, Mmu.protection]
    revert w e
    decide +kernel

variable {g : Globals} {x x' : AddressSpace MemSpalloc.State} {gs : List MemVmem.Segment}
  {done : List ElfProgramHeader}

theorem Image.page (h : Image g file R Rest boot done m x gs ps) (hph : ph ∈ done)
    (ha : InPages g.mmu ph a) : ∃ r ∈ ps, (r.vaddr ≤ a ∧ a < r.vaddr + 2 ^ g.mmu.pageSizeShift) ∧
      translate g.mmu m.mem x.pagetable a =
        some (r.frame + (a - r.vaddr), g.mmu.protection (pteFlags ph)) ∧
      m.mem (r.frame + (a - r.vaddr)) = imageByte file ph a := by
  obtain ⟨r, hr, hlo, hhi, hprot, hbytes⟩ := h.image ph hph a ha
  have ho : a - r.vaddr < 2 ^ g.mmu.pageSizeShift := by omega
  have hsum : r.vaddr + (a - r.vaddr) = a := by omega
  have hmapped := (h.pages.holds r hr).mapped _ ho
  have hbyte := (h.pages.holds r hr).bytes _ ho
  rw [hsum] at hmapped hbyte
  exact ⟨r, hr, ⟨hlo, hhi⟩, by rw [hmapped, hprot], by rw [hbyte, hbytes]⟩

theorem Image.loads {arch : ArchPagingEncoding.Arch} (hg : g.mmu = arch.mmu config)
    (hnx : hasFlag config mmuConfigNx = true) (h : Image g file R Rest boot done m x gs ps)
    (hph : ph ∈ done) (hb : Bounds g.mmu ph) : Loads g.mmu file m x.pagetable ph := by
  have hstart := hb.start_le
  have hend := hb.le_end
  have hbyte : ∀ a, InPages g.mmu ph a → byteAt g.mmu m x.pagetable a =
      some (imageByte file ph a) := by
    intro a ha
    obtain ⟨r, -, -, htrans, hmem⟩ := h.page hph ha
    rw [byteAt, htrans, Option.map_some, hmem]
  constructor
  · intro a hlo hhi
    rw [hbyte a ⟨by omega, by omega⟩, imageByte, if_neg (by omega)]
  · intro a hlo hhi
    rw [hbyte a ⟨hlo, by omega⟩, imageByte, if_pos hhi]
  · intro a ha
    obtain ⟨r, -, -, htrans, -⟩ := h.page hph ha
    have hflags := protection_flags arch hnx ph
    rw [← hg] at hflags
    exact ⟨_, _, htrans, hflags⟩

theorem quotient_eq (hv : 2 ^ mmu.pageSizeShift ∣ v) (hw : v ≤ w ∧ w < v + 2 ^ mmu.pageSizeShift) :
    w / 2 ^ mmu.pageSizeShift = v / 2 ^ mmu.pageSizeShift := by
  obtain ⟨o, rfl⟩ := Nat.exists_eq_add_of_le hw.1
  exact div_of_aligned hv (by omega)

theorem Image.separate (h : Image g file R Rest boot done m x gs ps)
    (hb : ∀ ph ∈ done, Bounds g.mmu ph) : done.Pairwise (Separate g.mmu m x.pagetable) := by
  have hframe : ∀ r ∈ ps, 2 ^ g.mmu.pageSizeShift ∣ r.frame := by
    intro r hr
    have hmem : blk g.mmu.pageSizeShift r.frame 0 ∈ frames g.mmu ps := ⟨r, hr, rfl⟩
    exact h.pages.inv.buddy.blocks.page_dvd (Or.inr (Or.inl (Or.inr hmem)))
  refine h.apart.imp_of_mem ?_
  intro ph ph' hph hph' hdisj a a' ha ha'
  obtain ⟨r, hr, hin, htrans, -⟩ := h.page hph ha
  obtain ⟨r', hr', hin', htrans', -⟩ := h.page hph' ha'
  have hv := (h.pages.placed r hr).1
  have hv' := (h.pages.placed r' hr').1
  -- the page of `a` belongs to the first segment, so `a'` is not in it
  have hpage : r.vaddr ≠ r'.vaddr := by
    intro he
    rw [← he] at hin'
    exact hdisj a' (inPages_page (hb ph hph) hv hin ha hin') ha'
  rw [pageSize_eq]
  constructor
  · intro he
    rw [quotient_eq hv hin, quotient_eq hv' hin'] at he
    exact hpage ((Nat.div_left_inj hv hv').mp he)
  · intro s s' hs hs' he
    obtain rfl := Option.some.inj (htrans.symm.trans hs)
    obtain rfl := Option.some.inj (htrans'.symm.trans hs')
    rw [div_of_aligned (hframe r hr) (by omega), div_of_aligned (hframe r' hr') (by omega)] at he
    have hsymm : Std.Symm fun p q : UserPage => p.frame ≠ q.frame := ⟨fun _ _ => Ne.symm⟩
    exact h.pages.distinct.forall hr hr' (fun e => hpage (congrArg _ e))
      ((Nat.div_left_inj (hframe r hr) (hframe r' hr')).mp he)

theorem image_start (h : Space g R Rest boot m x gs) : Image g file R Rest boot [] m x gs [] := by
  have hnone : frames g.mmu [] = ∅ := by simp [frames]
  refine ⟨?_, pages_nil h.inv, by simp, by simp, List.Pairwise.nil⟩
  rw [hnone, Set.union_empty]
  exact h

/-- A program that `load_elf` accepts is in memory as its file describes it, and its segments
have no page and no frame in common. -/
theorem loadElf_builds_image {arch : ArchPagingEncoding.Arch} {config : ℕ}
    (hg : g.mmu = arch.mmu config) (hnx : hasFlag config mmuConfigNx = true) (hlay : Layout g R)
    (h : Space g R Rest boot m x gs)
    (hu : ∀ ph ∈ file.progHeaders, ph.type = elfProgPtLoadType → Unwrapped g.mmu ph)
    {currentArch entry : ℕ}
    (hok : loadElf (slabPool g) g file currentArch m x = .ok (entry, m', x')) (hentry : entry ≠ 0) :
    (∀ ph ∈ file.progHeaders, ph.type = elfProgPtLoadType →
      Loads g.mmu file m' x'.pagetable ph) ∧
    (file.progHeaders.filter fun ph => ph.type = elfProgPtLoadType).Pairwise
      (Separate g.mmu m' x'.pagetable) := by
  unfold loadElf at hok
  split at hok
  · cases hok
    exact absurd rfl hentry
  · obtain ⟨⟨loaded, m₁, x₁⟩, hload, hret⟩ := bind_ok hok
    cases loaded with
    | false =>
      cases hret
      exact absurd rfl hentry
    | true =>
      cases hret
      obtain ⟨gs', ps', himage⟩ := loadSegments_image hlay hu (image_start h) hload
      have hmem : ∀ ph, ph ∈ file.progHeaders.filter (fun ph => ph.type = elfProgPtLoadType) ↔
          ph ∈ file.progHeaders ∧ ph.type = elfProgPtLoadType := by simp
      constructor
      · intro ph hph htype
        exact himage.loads hg hnx ((hmem ph).mpr ⟨hph, htype⟩)
          (bounds hlay.shift_le (hu ph hph htype))
      · apply himage.separate
        intro ph hph
        obtain ⟨hin, htype⟩ := (hmem ph).mp hph
        exact bounds hlay.shift_le (hu ph hin htype)

def smallProgram : ElfFile :=
  { header := ⟨elfMagic, elf64Bit, elfLittleEndian, elfHeaderVer, elfEvalynosAbi, elfExecutableType,
      elfX8664Arch, elfVer, 0x400ffe⟩
    progHeaders := [⟨elfProgPtLoadType, elfProgExecFlag, 0, 0x400ffe, 2, 2⟩,
      ⟨elfProgPtLoadType, elfProgWrite, 2, 0x401fff, 2, 4⟩]
    bytes := fun i => 0xa0 + i }

def smallLoad : Exec (ℕ × Machine × AddressSpace MemSpalloc.State) := do
  let (m, x) ← smallSpace
  loadElf (slabPool smallGlobals) smallGlobals smallProgram elfX8664Arch m x

theorem small_program_loaded : ∃ m x m' x', smallSpace = .ok (m, x) ∧
    loadElf (slabPool smallGlobals) smallGlobals smallProgram elfX8664Arch m x =
      .ok (0x400ffe, m', x') ∧
    (∀ ph ∈ smallProgram.progHeaders, ph.type = elfProgPtLoadType →
      Loads smallGlobals.mmu smallProgram m' x'.pagetable ph) ∧
    (smallProgram.progHeaders.filter fun ph => ph.type = elfProgPtLoadType).Pairwise
      (Separate smallGlobals.mmu m' x'.pagetable) := by
  obtain ⟨⟨entry, m', x'⟩, hrun, he⟩ := returns_of_eval
    (show smallLoad.toOption.any (fun r => r.1 = 0x400ffe) = true by decide +kernel)
  obtain rfl : entry = 0x400ffe := of_decide_eq_true he
  obtain ⟨⟨m, x⟩, hspace, hload⟩ := bind_ok hrun
  obtain ⟨gs, hs⟩ := small_space hspace
  exact ⟨m, x, m', x', hspace, hload, loadElf_builds_image (show smallGlobals.mmu =
    ArchPagingEncoding.Arch.mmu (4 ||| mmuConfigNx) .x86_64 from rfl) (by decide) small_layout hs
    (by decide) hload (by decide)⟩

end Program

end LoaderElfImage
