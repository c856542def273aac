import EvalynKernel.ArchPagingMap

/-! # Pages of user memory

`load_elf` and `syscall_anon_alloc` give a program memory page by page: a page is taken from
the allocator, mapped and filled. What is already there stays as it is. -/
namespace MemAddressSpacePages

open MachineWords DyadicBlocks DyadicBlocks.Block MemBuddyInvariant
open MemBuddyOperations MemPmm ArchPagingFormats ArchPaging ArchPagingTables
open ArchPagingInvariant ArchPagingSteps ArchPagingMap

variable {mmu : Mmu} {m m₁ m' : Machine} {root : ℕ} {R Rest : Set Block} {boot : Set ℕ}
  {vaddr attr p : ℕ}

theorem pageNumber_of_lt (hv : v < span mmu * 2 ^ mmu.pageSizeShift) :
    pageNumber mmu v = v / 2 ^ mmu.pageSizeShift :=
  Nat.mod_eq_of_lt ((Nat.div_lt_iff_lt_mul (Nat.two_pow_pos _)).mpr hv)

theorem div_of_aligned (hv : 2 ^ k ∣ v) (ho : o < 2 ^ k) : (v + o) / 2 ^ k = v / 2 ^ k := by
  obtain ⟨q, rfl⟩ := hv
  rw [Nat.mul_add_div (Nat.two_pow_pos k), Nat.div_eq_of_lt ho, Nat.add_zero,
    Nat.mul_div_cancel_left q (Nat.two_pow_pos k)]

def pageCost (mmu : Mmu) : ℕ := rangeTurns mmu (2 ^ mmu.pageSizeShift)

/-- The machine `m'` has one page more than `m`: its frame `p` is mapped at `vaddr`. -/
structure Added (mmu : Mmu) (m : Machine) (root : ℕ) (R Rest : Set Block) (boot : Set ℕ)
    (vaddr attr p : ℕ) (m' : Machine) : Prop where
  inv : Inv mmu m' root R (insert (blk mmu.pageSizeShift p 0) Rest) boot
  fresh : ∀ b ∈ Rest, ∀ a, Mem a b → ¬ Mem a (blk mmu.pageSizeShift p 0)
  mapped : ∀ o < 2 ^ mmu.pageSizeShift,
    translate mmu m'.mem root (vaddr + o) = some (p + o, mmu.protection attr)
  others : ∀ v, pageNumber mmu v ≠ pageNumber mmu vaddr →
    translate mmu m'.mem root v = translate mmu m.mem root v
  zero : ∀ a, Mem a (blk mmu.pageSizeShift p 0) → m'.mem a = 0
  data : ∀ b ∈ Rest, ∀ a, Mem a b → m'.mem a = m.mem a
  counts : ∀ K, Counts mmu m root boot K → Counts mmu m' root boot K
  freed : m'.freed = m.freed
  available : availableFrames m.buddy ≤ availableFrames m'.buddy + (pageCost mmu + 1)

theorem pmmAllocPage_ensures (h : BuddyInv shift m.buddy R H) :
    Ensures (NoPage m) (pmmAllocPage shift m) fun r => PageTaken shift m R H r.1 r.2 := by
  rcases pmmAllocPage_spec h with ⟨p, m', hok, ht⟩ | ⟨hnone, hfail⟩
  · exact Ensures.of_eq hok ht
  · exact Ensures.of_error hfail ⟨rfl, hnone⟩

section Taken

variable (law : mmu.Lawful) (h : Inv mmu m root R Rest boot)
  (ht : PageTaken mmu.pageSizeShift m R (Rest ∪ tableBlocks mmu m.mem root boot) p m₁)

include law h ht

omit law h in
theorem taken_same (a : ℕ) (ha : ∀ b ∈ insert (blk mmu.pageSizeShift p 0) Rest, ¬ Mem a b) :
    m₁.mem a = m.mem a := by
  have hout := ha _ (Set.mem_insert _ _)
  simp only [Mem, blk, size, Nat.add_zero] at hout
  rw [ht.mem, zeroPage, if_neg hout]

theorem taken_inv : Inv mmu m₁ root R (insert (blk mmu.pageSizeShift p 0) Rest) boot ∧
    (∀ v, translate mmu m₁.mem root v = translate mmu m.mem root v) ∧
    ∀ K, Counts mmu m root boot K → Counts mmu m₁ root boot K := by
  have hhold := h.hold ht
  have hsame := taken_same ht
  obtain ⟨hinv, htrans⟩ := hhold.fill law hsame
  have hword := hhold.word_kept law hsame
  refine ⟨hinv.congr rfl rfl, htrans, fun K hK => ?_⟩
  apply hK.congr hword
  intro f hf
  exact ht.pages f (h.aligned hf) (h.kept hf)

omit law in
theorem taken_le : p + 2 ^ mmu.pageSizeShift ≤ 2 ^ 52 := by
  have hpos := Nat.two_pow_pos mmu.pageSizeShift
  have hlast : p + 2 ^ mmu.pageSizeShift - 1 ∈ region R := by
    apply ht.inv.blocks.inside_region (Set.mem_insert _ _)
    exact ⟨by simp only [blk]; omega, by simp only [blk, size, Nat.add_zero]; omega⟩
  have := (h.ram _ hlast).2
  omega

theorem pagingMapPage_taken (hv : 2 ^ mmu.pageSizeShift ∣ vaddr) (hattr : attr &&& 3 = 0) :
    Ensures (Short m₁ (pageCost mmu)) (pagingMapPage mmu m₁ root vaddr p attr)
      (Added mmu m root R Rest boot vaddr attr p) := by
  obtain ⟨hinv, htrans, hcounts⟩ := taken_inv law h ht
  have hle := taken_le h ht
  have hsize : mmu.entrySize (pageLeafLevel attr) = 2 ^ mmu.pageSizeShift := by
    rw [pageLeafLevel, hattr, entrySize_one]
  have hone : 2 ^ mmu.pageSizeShift / 2 ^ mmu.pageSizeShift = 1 := Nat.div_self (Nat.two_pow_pos _)
  have hcross : pageNumber mmu vaddr + 2 ^ mmu.pageSizeShift / 2 ^ mmu.pageSizeShift ≤
      span mmu := by
    rw [hone]
    exact pageNumber_lt mmu vaddr
  have hcall : pagingMapPage mmu m₁ root vaddr p attr =
      pagingMapRange mmu m₁ root vaddr p (2 ^ mmu.pageSizeShift) attr := by
    simp only [pagingMapPage, hsize, (isAligned_two_pow vaddr _).mpr hv, kassert_true, ok_bind]
  rw [hcall]
  refine (pagingMapRange_spec law hinv hv ht.aligned (dvd_refl _) (by
    have : (2 : ℕ) ^ 52 < word := by decide
    omega)).imp fun m' ⟨hd, hav⟩ => ?_
  have htaken := ht.available
  refine ⟨hd.inv, fun b hb a ha => ht.apart (Or.inl hb) ha, fun o ho => ?_, fun v hne => ?_,
    fun a ha => ?_, fun b hb a ha => ?_, fun K hK => hd.counts K (hcounts K hK),
    hd.freed.trans ht.freed, by rw [pageCost]; omega⟩
  · exact translate_range hd hv (dvd_refl _) hle hcross ho
  · have hend := min_eq_left hcross
    rw [rangeEnd, hend, hone] at hd
    rw [← htrans v, translate_eq_pageMap, translate_eq_pageMap, hd.mapped _ (pageNumber_lt mmu v),
      if_neg (by omega)]
  · rw [hd.data _ (Set.mem_insert _ _) a ha, ht.mem, zeroPage, if_pos]
    simpa only [Mem, blk, size, Nat.add_zero] using ha
  · rw [hd.data b (Set.mem_insert_of_mem _ hb) a ha]
    have hout := ht.apart (Or.inl hb) ha
    simp only [Mem, blk, size, Nat.add_zero] at hout
    rw [ht.mem, zeroPage, if_neg hout]

end Taken

structure UserPage where
  vaddr : ℕ
  frame : ℕ
  prot : ℕ
  bytes : ℕ → ℕ

structure Holds (mmu : Mmu) (mem : ℕ → ℕ) (root : ℕ) (r : UserPage) : Prop where
  mapped : ∀ o < 2 ^ mmu.pageSizeShift,
    translate mmu mem root (r.vaddr + o) = some (r.frame + o, r.prot)
  bytes : ∀ o < 2 ^ mmu.pageSizeShift, mem (r.frame + o) = r.bytes (r.vaddr + o)

def frames (mmu : Mmu) (ps : List UserPage) : Set Block :=
  {b | ∃ r ∈ ps, b = blk mmu.pageSizeShift r.frame 0}

/-- The pages `ps` are in place, each with a frame of its own beside the blocks of `Rest`. -/
structure Pages (mmu : Mmu) (m : Machine) (root : ℕ) (R Rest : Set Block) (boot : Set ℕ)
    (ps : List UserPage) : Prop where
  inv : Inv mmu m root R (Rest ∪ frames mmu ps) boot
  holds : ∀ r ∈ ps, Holds mmu m.mem root r
  placed : ∀ r ∈ ps, 2 ^ mmu.pageSizeShift ∣ r.vaddr ∧ r.vaddr < span mmu * 2 ^ mmu.pageSizeShift
  distinct : ps.Pairwise fun r s => r.frame ≠ s.frame
  apart : ∀ r ∈ ps, blk mmu.pageSizeShift r.frame 0 ∉ Rest

theorem frames_cons (mmu : Mmu) (r : UserPage) (ps : List UserPage) :
    frames mmu (r :: ps) = insert (blk mmu.pageSizeShift r.frame 0) (frames mmu ps) := by
  ext b
  simp [frames]

theorem pages_nil (h : Inv mmu m root R Rest boot) : Pages mmu m root R Rest boot [] := by
  have hnone : frames mmu [] = ∅ := by simp [frames]
  refine ⟨?_, by simp, by simp, List.Pairwise.nil, by simp⟩
  rw [hnone, Set.union_empty]
  exact h

theorem Pages.add (law : mmu.Lawful) (h : Pages mmu m root R Rest boot ps)
    (ha : Added mmu m root R (Rest ∪ frames mmu ps) boot vaddr attr p m')
    (hv : 2 ^ mmu.pageSizeShift ∣ vaddr) (hspan : vaddr < span mmu * 2 ^ mmu.pageSizeShift)
    (hnew : ∀ r ∈ ps, r.vaddr ≠ vaddr)
    (hsame : ∀ a, ¬ Mem a (blk mmu.pageSizeShift p 0) → mem' a = m'.mem a)
    (hbytes : ∀ o < 2 ^ mmu.pageSizeShift, mem' (p + o) = bytes (vaddr + o)) :
    Pages mmu { m' with mem := mem' } root R Rest boot
      (⟨vaddr, p, mmu.protection attr, bytes⟩ :: ps) := by
  obtain ⟨hinv, htrans⟩ := ha.inv.fill law fun a hout => hsame a (hout _ (Set.mem_insert _ _))
  have hpage : ∀ r ∈ ps, ∀ o < 2 ^ mmu.pageSizeShift,
      pageNumber mmu (r.vaddr + o) ≠ pageNumber mmu vaddr := by
    intro r hr o ho he
    obtain ⟨hal, hlt⟩ := h.placed r hr
    rw [pageNumber, div_of_aligned hal ho, ← pageNumber, pageNumber_of_lt hlt,
      pageNumber_of_lt hspan] at he
    apply hnew r hr
    rw [← Nat.div_mul_cancel hal, he, Nat.div_mul_cancel hv]
  have hmem : ∀ r ∈ ps, ∀ o < 2 ^ mmu.pageSizeShift,
      Mem (r.frame + o) (blk mmu.pageSizeShift r.frame 0) := by
    intro r _ o ho
    exact ⟨Nat.le_add_right _ _, Nat.add_lt_add_left ho _⟩
  have hblock : ∀ r ∈ ps, blk mmu.pageSizeShift r.frame 0 ∈ Rest ∪ frames mmu ps :=
    fun r hr => Or.inr ⟨r, hr, rfl⟩
  refine ⟨?_, ?_, ?_, ?_, ?_⟩
  · rw [frames_cons, Set.union_insert]
    exact hinv
  · refine List.forall_mem_cons.mpr ⟨⟨fun o ho => ?_, hbytes⟩,
      fun r hr => ⟨fun o ho => ?_, fun o ho => ?_⟩⟩
    · exact (htrans _).trans (ha.mapped o ho)
    · exact ((htrans _).trans (ha.others _ (hpage r hr o ho))).trans ((h.holds r hr).mapped o ho)
    · have hin := hmem r hr o ho
      have hkept := (hsame _ (ha.fresh _ (hblock r hr) _ hin)).trans
        (ha.data _ (hblock r hr) _ hin)
      exact hkept.trans ((h.holds r hr).bytes o ho)
  · exact List.forall_mem_cons.mpr ⟨⟨hv, hspan⟩, h.placed⟩
  · refine List.pairwise_cons.mpr ⟨fun r hr he => ?_, h.distinct⟩
    have hbase := base_mem (blk mmu.pageSizeShift r.frame 0)
    refine ha.fresh _ (hblock r hr) _ hbase ?_
    rw [show p = r.frame from he]
    exact hbase
  · refine List.forall_mem_cons.mpr ⟨fun hrest => ?_, h.apart⟩
    have hbase := base_mem (blk mmu.pageSizeShift p 0)
    exact ha.fresh _ (Or.inl hrest) _ hbase hbase

end MemAddressSpacePages
