import EvalynKernel.LoaderElfImage
import EvalynKernel.SyscallsFutex

/-! # Anonymous memory (`syscalls/anon_mem.c`)

The call works on the address space of the thread that makes it. What it gives a program
reads like a segment of its file that has no file part. -/
namespace SyscallsAnonMem

open MachineWords MemPmm ArchPagingFormats ArchPaging MemVmem MemAddressSpace
open SyscallsFutex (Sysret)
open MemBuddyAllocator (outOfMemory)

def sysretEnomem : Sysret := ⟨0, -2⟩

/-- One turn of the loop of `syscall_anon_alloc`. -/
def mapAnonPage (mmu : Mmu) (root mem : ℕ) (m : Machine) (i : ℕ) : Exec Machine := do
  let (paddr, m) ← pmmAllocPage mmu.pageSizeShift m
  pagingMapPage mmu m root (wadd mem (i * mmu.pageSize)) paddr pageUrw

section Calls

variable {τ : Type} (pool : SegmentAllocator (Machine × τ)) (g : Globals)

def syscallAnonAlloc (m : Machine) (x : AddressSpace τ) (size : ℕ) :
    Exec (Sysret × Machine × AddressSpace τ) := do
  let size := alignUp size g.mmu.pageSize
  let (mem, m, x) ← x.alloc pool m size 0
  if mem = 0 then return (sysretEnomem, m, x)
  let m ← (List.range (size >>> g.mmu.pageSizeShift)).foldlM (mapAnonPage g.mmu x.pagetable mem) m
  return (⟨mem, 0⟩, m, x)

end Calls

open DyadicBlocks ArchPagingTables MemAddressSpaceSlab MemAddressSpaceInvariant
open MemAddressSpacePages LoaderElf LoaderElfLoader LoaderElfImage

variable {mmu : Mmu} {g : Globals} {file : ElfFile} {m m' : Machine} {root mem len size : ℕ}
  {x x' : AddressSpace MemSpalloc.State} {R Rest : Set Block} {boot : Set ℕ}
  {gs : List Segment} {ps : List UserPage} {done given : List ElfProgramHeader}

/-- Anonymous memory as a writable segment that the file has no bytes for. -/
def anonSegment (mem len : ℕ) : ElfProgramHeader :=
  ⟨elfProgPtLoadType, elfProgWrite, 0, mem, 0, len⟩

theorem pteFlags_anonSegment (mem len : ℕ) : pteFlags (anonSegment mem len) = pageUrw :=
  (show _ = pteFlags (anonSegment 0 0) from rfl).trans (by decide)

theorem anonSegment_bounds (hshift : mmu.pageSizeShift ≤ 16) (hmem : 2 ^ mmu.pageSizeShift ∣ mem)
    (hlen : 2 ^ mmu.pageSizeShift ∣ len) (hlt : mem + len < word) :
    pagesStart mmu (anonSegment mem len) = mem ∧
      pagesEnd mmu (anonSegment mem len) = mem + len ∧ Bounds mmu (anonSegment mem len) := by
  have hsum := Nat.dvd_add hmem hlen
  have hstart : pagesStart mmu (anonSegment mem len) = mem := by
    rw [pagesStart, pageSize_eq]
    exact (alignDown_two_pow (show mem < word by omega) (by omega)).trans (Nat.div_mul_cancel hmem)
  have hend : pagesEnd mmu (anonSegment mem len) = mem + len := by
    have hadd : wadd (anonSegment mem len).virtAddr (anonSegment mem len).memSize = mem + len :=
      wadd_of_lt hlt
    rw [pagesEnd, pageSize_eq, hadd, alignUp_of_dvd (by omega) hlt hsum]
  refine ⟨hstart, hend, by rwa [hstart], by rwa [hend], hstart.le, ?_, hend.ge, hend.trans_lt hlt⟩
  rw [hstart]
  exact Nat.lt_add_of_pos_right (Nat.two_pow_pos _)

/-- The segment after `p` turns of the loop, as `load_elf` would have it. -/
def Mapped (mmu : Mmu) (file : ElfFile) (root : ℕ) (R Rest : Set Block) (boot : Set ℕ)
    (ps : List UserPage) (mem len p : ℕ) (m : Machine) : Prop :=
  Filled mmu file root R Rest boot ps (anonSegment mem len) p
    ⟨m, pagesStart mmu (anonSegment mem len) + p * 2 ^ mmu.pageSizeShift, 0, 0⟩

theorem mapAnonPage_spec (law : mmu.Lawful) (hmem : 2 ^ mmu.pageSizeShift ∣ mem)
    (hstart : pagesStart mmu (anonSegment mem len) = mem)
    (hp : mem + p * 2 ^ mmu.pageSizeShift < span mmu * 2 ^ mmu.pageSizeShift)
    (hlt : mem + p * 2 ^ mmu.pageSizeShift < word)
    (hnew : ∀ r ∈ ps, r.vaddr ≠ mem + p * 2 ^ mmu.pageSizeShift)
    (h : Mapped mmu file root R Rest boot ps mem len p m) :
    Ensures (· = outOfMemory) (mapAnonPage mmu root mem m p)
      (Mapped mmu file root R Rest boot ps mem len (p + 1)) := by
  obtain ⟨-, -, -, new, hpages, hall, hevery⟩ := h
  have haligned := Nat.dvd_add hmem (Nat.dvd_mul_left (2 ^ mmu.pageSizeShift) p)
  have hfresh : ∀ r ∈ new ++ ps, r.vaddr ≠ mem + p * 2 ^ mmu.pageSizeShift := by
    intro r hr
    rcases List.mem_append.mp hr with hr | hr
    · obtain ⟨i, hi, hpage⟩ := hall r hr
      have hlt := Nat.mul_lt_mul_of_pos_right hi (Nat.two_pow_pos mmu.pageSizeShift)
      rw [hpage.vaddr, hstart]
      omega
    · exact hnew r hr
  unfold mapAnonPage
  rw [pageSize_eq, wadd_of_lt hlt]
  apply Ensures.bind ((pmmAllocPage_ensures hpages.inv.buddy).fault fun e he => he.1)
  rintro ⟨frame, m₁⟩ ht
  apply ((pagingMapPage_taken law hpages.inv ht haligned (by decide)).fault fun e he => he.1).imp
  intro m₂ hadd
  -- nothing is written to the page, which the allocator has zeroed
  have hzero : ∀ o < 2 ^ mmu.pageSizeShift, m₂.mem (frame + o) =
      imageByte file (anonSegment mem len) (mem + p * 2 ^ mmu.pageSizeShift + o) := by
    intro o ho
    apply (hadd.zero (frame + o) ⟨Nat.le_add_right _ _, Nat.add_lt_add_left ho _⟩).trans
    simp [imageByte, anonSegment]
  have hadded := hpages.add law hadd haligned hp hfresh (fun _ _ => rfl) hzero
  have hpage : IsPage mmu file (anonSegment mem len) p ⟨mem + p * 2 ^ mmu.pageSizeShift, frame,
      mmu.protection pageUrw, imageByte file (anonSegment mem len)⟩ :=
    ⟨by rw [hstart], by rw [pteFlags_anonSegment], rfl⟩
  refine ⟨rfl, by simp [copied, anonSegment], by simp [anonSegment], _ :: new, hadded, ?_, ?_⟩
  · refine List.forall_mem_cons.mpr ⟨⟨p, Nat.lt_succ_self p, hpage⟩, fun r hr => ?_⟩
    obtain ⟨i, hi, hr⟩ := hall r hr
    exact ⟨i, Nat.lt_succ_of_lt hi, hr⟩
  · intro i hi
    rcases Nat.lt_succ_iff_lt_or_eq.mp hi with hi | rfl
    · obtain ⟨r, hr, hpage⟩ := hevery i hi
      exact ⟨r, List.mem_cons_of_mem _ hr, hpage⟩
    · exact ⟨_, List.mem_cons_self, hpage⟩

/-- A call changes nothing, or the program has a segment more. -/
theorem syscallAnonAlloc_image (hlay : Layout g R) (h : Image g file R Rest boot done m x gs ps)
    (hok : syscallAnonAlloc (slabPool g) g m x size = .ok (ret, m', x')) :
    (ret = sysretEnomem ∧ m' = m ∧ x' = x) ∨ ∃ (mem : ℕ) (ph : ElfProgramHeader),
      ret = ⟨mem, 0⟩ ∧ ph = anonSegment mem (alignUp size g.mmu.pageSize) ∧ Bounds g.mmu ph ∧
      ∃ gs' ps', Image g file R Rest boot (done ++ [ph]) m' x' gs' ps' := by
  have hpos := Nat.two_pow_pos g.mmu.pageSizeShift
  have hshift := hlay.shift_le
  have hlower := hlay.lower_lt
  have htop := hlay.lower_top
  simp only [syscallAnonAlloc, pageSize_eq] at hok ⊢
  obtain ⟨len, hlen⟩ : ∃ len, len = alignUp size (2 ^ g.mmu.pageSizeShift) := ⟨_, rfl⟩
  have hdvd : 2 ^ g.mmu.pageSizeShift ∣ len := hlen ▸ dvd_alignUp (by omega)
  have hround : alignUp len (2 ^ g.mmu.pageSizeShift) = len :=
    alignUp_of_dvd (by omega) (hlen ▸ alignUp_lt (by omega)) hdvd
  rw [← hlen] at hok ⊢
  obtain ⟨⟨mem, m₁, x₁⟩, halloc, hok⟩ := bind_ok hok
  rcases h.space.alloc hlay (by decide) halloc with heq | ⟨gs', hres⟩
  · cases heq
    cases hok
    exact .inl ⟨rfl, rfl, rfl⟩
  have hinside := hres.inside
  have hfree := hres.free
  dsimp only at hok
  rw [if_neg (by omega)] at hok
  obtain ⟨m₂, hloop, hret⟩ := bind_ok hok
  cases hret
  obtain ⟨hstart, hend, hb⟩ := anonSegment_bounds hshift hres.aligned hdvd (by omega)
  obtain ⟨n, hn⟩ : ∃ n, n = len >>> g.mmu.pageSizeShift := ⟨_, rfl⟩
  have hpages : n * 2 ^ g.mmu.pageSizeShift = len := by
    rw [hn, Nat.shiftRight_eq_div_pow, Nat.div_mul_cancel hdvd]
  rw [← hn] at hloop
  have hmapped : Ensures (· = outOfMemory)
      ((List.range n).foldlM (mapAnonPage g.mmu x'.pagetable mem) m₁)
      (Mapped g.mmu file x'.pagetable R (Rest ∪ slabBlocks g x'.slab) boot ps mem len n) := by
    apply Ensures.foldlM_range (Mapped _ file _ _ _ _ ps mem len)
    · exact ⟨rfl, by simp [copied, anonSegment], by simp [anonSegment], [], h.reserve hres, by simp,
        by simp⟩
    · intro i hi s hs
      have hlt := Nat.mul_lt_mul_of_pos_right hi hpos
      apply mapAnonPage_spec hlay.law hres.aligned hstart (by omega) (by omega) _ hs
      intro r hr he
      exact hfree r.vaddr (by omega) (by omega) (h.covered r hr _ (Nat.le_refl _) (by omega))
  obtain ⟨ps', himage⟩ := h.extend (by rw [hstart, hend, hpages]) (hstart.symm ▸ hres)
    (by rw [hround, hstart, hend]) (hmapped.value hloop)
  exact .inr ⟨mem, _, rfl, rfl, hb, gs', ps', himage⟩

/-- What a program has got after any number of calls. -/
def anonAllocs (g : Globals) (m : Machine) (x : AddressSpace MemSpalloc.State) :
    List ℕ → Exec (List ElfProgramHeader × Machine × AddressSpace MemSpalloc.State)
  | [] => .ok ([], m, x)
  | size :: sizes => do
    let (ret, m, x) ← syscallAnonAlloc (slabPool g) g m x size
    let (given, m, x) ← anonAllocs g m x sizes
    let new := anonSegment ret.retval.toNat (alignUp size g.mmu.pageSize)
    return (if ret.error = 0 then new :: given else given, m, x)

theorem anonAllocs_image (hlay : Layout g R) (hb : ∀ ph ∈ done, Bounds g.mmu ph)
    (h : Image g file R Rest boot done m x gs ps)
    (hok : anonAllocs g m x sizes = .ok (given, m', x')) :
    (∀ ph ∈ done ++ given, Bounds g.mmu ph) ∧
      ∃ gs' ps', Image g file R Rest boot (done ++ given) m' x' gs' ps' := by
  induction sizes generalizing done given m x gs ps with
  | nil =>
    cases hok
    rw [List.append_nil]
    exact ⟨hb, gs, ps, h⟩
  | cons size sizes ih =>
    obtain ⟨⟨ret, m₁, x₁⟩, hcall, hok⟩ := bind_ok hok
    obtain ⟨⟨given₁, m₂, x₂⟩, hrest, hret⟩ := bind_ok hok
    cases hret
    rcases syscallAnonAlloc_image hlay h hcall with
      ⟨rfl, rfl, rfl⟩ | ⟨mem, ph, rfl, rfl, hnew, gs₁, ps₁, h₁⟩
    · exact ih hb h hrest
    · have hall := ih (List.forall_mem_append.mpr ⟨hb, List.forall_mem_singleton.mpr hnew⟩) h₁ hrest
      rw [List.append_assoc] at hall
      exact hall

/-- However often a loaded program asks for memory, its segments and all that it got have no page
and no frame in common. The segments keep their contents, and what it got is zeroed, writable and
not executable. -/
theorem anonymous_memory_separate {arch : ArchPagingEncoding.Arch} {config : ℕ}
    (hg : g.mmu = arch.mmu config) (hnx : hasFlag config mmuConfigNx = true) (hlay : Layout g R)
    (h : Space g R Rest boot m x gs)
    (hu : ∀ ph ∈ file.progHeaders, ph.type = elfProgPtLoadType → Unwrapped g.mmu ph)
    {m₁ : Machine} {x₁ : AddressSpace MemSpalloc.State} {sizes : List ℕ}
    (hload : loadSegments (slabPool g) g file m x file.progHeaders = .ok (true, m₁, x₁))
    (hok : anonAllocs g m₁ x₁ sizes = .ok (given, m', x')) :
    (∀ ph ∈ (file.progHeaders.filter fun ph => ph.type = elfProgPtLoadType) ++ given,
      Loads g.mmu file m' x'.pagetable ph) ∧
    ((file.progHeaders.filter fun ph => ph.type = elfProgPtLoadType) ++ given).Pairwise
      (Separate g.mmu m' x'.pagetable) := by
  obtain ⟨gs₁, ps₁, himage⟩ := loadSegments_image hlay hu (image_start h) hload
  have hb : ∀ ph ∈ file.progHeaders.filter fun ph => ph.type = elfProgPtLoadType,
      Bounds g.mmu ph := by
    intro ph hph
    obtain ⟨hin, htype⟩ := List.mem_filter.mp hph
    exact bounds hlay.shift_le (hu ph hin (of_decide_eq_true htype))
  obtain ⟨hall, gs', ps', hfinal⟩ := anonAllocs_image hlay hb himage hok
  exact ⟨fun ph hph => hfinal.loads hg hnx hph (hall ph hph), hfinal.separate hall⟩

/-- The small program asks for two pages and for one. -/
def smallRun : Exec (Bool × List ElfProgramHeader) := do
  let (m, x) ← smallSpace
  let (loaded, m, x) ← loadSegments (slabPool smallGlobals) smallGlobals smallProgram m x
    smallProgram.progHeaders
  let (given, _) ← anonAllocs smallGlobals m x [5000, 1]
  return (loaded, given)

theorem three_pages_separate : ∃ m x m₁ x₁ m' x' given, smallSpace = .ok (m, x) ∧
    loadSegments (slabPool smallGlobals) smallGlobals smallProgram m x smallProgram.progHeaders =
      .ok (true, m₁, x₁) ∧ anonAllocs smallGlobals m₁ x₁ [5000, 1] = .ok (given, m', x') ∧
    given = [anonSegment 0x1000 0x2000, anonSegment 0x3000 0x1000] ∧
    ((smallProgram.progHeaders.filter fun ph => ph.type = elfProgPtLoadType) ++ given).Pairwise
      (Separate smallGlobals.mmu m' x'.pagetable) := by
  obtain ⟨⟨loaded, given⟩, hrun, he⟩ := returns_of_eval (show smallRun.toOption.any (fun r => r.1 ∧
    r.2 = [anonSegment 0x1000 0x2000, anonSegment 0x3000 0x1000]) = true by decide +kernel)
  obtain ⟨⟨m, x⟩, hspace, hrun⟩ := bind_ok hrun
  obtain ⟨⟨loaded₁, m₁, x₁⟩, hload, hrun⟩ := bind_ok hrun
  obtain ⟨⟨given₁, m', x'⟩, hallocs, hret⟩ := bind_ok hrun
  cases hret
  obtain ⟨rfl, hgiven⟩ := of_decide_eq_true he
  obtain ⟨gs, hs⟩ := small_space hspace
  exact ⟨m, x, m₁, x₁, m', x', given, hspace, hload, hallocs, hgiven,
    (anonymous_memory_separate (show smallGlobals.mmu = ArchPagingEncoding.Arch.mmu
      (4 ||| mmuConfigNx) .x86_64 from rfl) (by decide) small_layout hs
      (by decide) hload hallocs).2⟩

end SyscallsAnonMem
