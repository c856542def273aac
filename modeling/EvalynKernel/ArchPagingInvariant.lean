import EvalynKernel.ArchPagingWrites

/-! # The invariant of a page table

Besides being well formed, every table below the root owns its frame: it is a block that
the buddy allocator has handed out and whose database entry says page table, or a boot
table in memory the allocator never saw. Reference counts and the absence of empty tables
are stated separately, since mapping does not depend on them. -/
namespace ArchPagingInvariant

open Function MachineWords DyadicBlocks DyadicBlocks.Block MemBuddyAllocator MemBuddyInvariant
open MemBuddyOperations MemPmm ArchPagingFormats ArchPaging ArchPagingTables
open ArchPagingWrites

variable {mmu : Mmu} {m m' : Machine} {root : ℕ} {R Rest H : Set Block} {boot : Set ℕ}
  {K : Finset ℕ}

def tableBlocks (mmu : Mmu) (mem : ℕ → ℕ) (root : ℕ) (boot : Set ℕ) : Set Block :=
  {b | ∃ f, IsTable mmu mem root f ∧ f ∉ boot ∧ b = blk mmu.pageSizeShift f 0}

structure Inv (mmu : Mmu) (m : Machine) (root : ℕ) (R Rest : Set Block) (boot : Set ℕ) : Prop where
  wf : WellFormed mmu m.mem root
  buddy : BuddyInv mmu.pageSizeShift m.buddy R (Rest ∪ tableBlocks mmu m.mem root boot)
  apart : ∀ f, IsTable mmu m.mem root f → f ∉ boot → blk mmu.pageSizeShift f 0 ∉ Rest
  ram : ∀ a ∈ region R, a ≠ 0 ∧ a < 2 ^ 52
  outside : ∀ f ∈ boot, f ∉ region R
  ptable : ∀ f, IsTable mmu m.mem root f → f ∉ boot → (m.page mmu.pageSizeShift f).type = .ptable
  invalid : ∀ f, IsTable mmu m.mem root f → f ∈ boot → (m.page mmu.pageSizeShift f).type = .invalid

variable {mem : ℕ → ℕ} {f : ℕ}

theorem kept_table (hout : ∀ f ∈ boot, f ∉ region R) (Rest : Set Block)
    (hf : IsTable mmu mem root f) : Kept R (Rest ∪ tableBlocks mmu mem root boot) f := by
  by_cases hb : f ∈ boot
  · exact Or.inr (hout f hb)
  · exact Or.inl ⟨blk mmu.pageSizeShift f 0, Or.inr ⟨f, hf, hb, rfl⟩, base_mem (blk _ f 0)⟩

theorem Inv.kept (h : Inv mmu m root R Rest boot) (hf : IsTable mmu m.mem root f) :
    Kept R (Rest ∪ tableBlocks mmu m.mem root boot) f :=
  kept_table h.outside Rest hf

theorem Inv.aligned (h : Inv mmu m root R Rest boot) (hf : IsTable mmu m.mem root f) :
    2 ^ mmu.pageSizeShift ∣ f := by
  obtain ⟨d, q, hq⟩ := hf
  exact (h.wf.frame d q f hq).aligned

variable {i : ℕ}

theorem Inv.rest_word (law : mmu.Lawful) (h : Inv mmu m root R Rest boot) (hb : b ∈ Rest)
    (ha : Mem a b) (hf : IsTable mmu m.mem root f) (hi : i < mmu.tableEntries) : a ≠ f + i * 8 := by
  rintro rfl
  have hsize := pageSize_words law
  have hpage : Mem (f + i * 8) (blk mmu.pageSizeShift f 0) :=
    ⟨Nat.le_add_right _ _, by simp only [blk, size, Nat.add_zero]; omega⟩
  have hH : b ∈ Rest ∪ tableBlocks mmu m.mem root boot := Or.inl hb
  by_cases hboot : f ∈ boot
  · have haligned : (blk mmu.pageSizeShift f 0).Aligned := h.aligned hf
    have hin := inside_of_meet haligned (h.buddy.blocks.aligned b (Or.inr hH))
      (h.buddy.blocks.handed_exp b hH) hpage ha
    exact h.outside f hboot (h.buddy.blocks.inside_region hH
      (inside_iff.mp hin f (base_mem (blk mmu.pageSizeShift f 0))))
  · have he := h.buddy.blocks.tiling.eq_of_mem (Or.inr (Or.inr ⟨f, hf, hboot, rfl⟩)) (Or.inr hH)
      hpage ha
    exact h.apart f hf hboot (he ▸ hb)

/-- The root's slots in `K` hold entries that are not counted. -/
def reserved (root : ℕ) (K : Finset ℕ) (f : ℕ) : Finset ℕ := if f = root then K else ∅

def presentCount (mmu : Mmu) (mem : ℕ → ℕ) (f : ℕ) (K : Finset ℕ) : ℕ :=
  ((Finset.range mmu.tableEntries).filter fun i =>
    mmu.ptePresent (mem (f + i * 8)) = true ∧ i ∉ K).card

structure Counts (mmu : Mmu) (m : Machine) (root : ℕ) (boot : Set ℕ) (K : Finset ℕ) : Prop where
  count : ∀ f, IsTable mmu m.mem root f → f ∉ boot →
    (m.page mmu.pageSizeShift f).refCount = presentCount mmu m.mem f (reserved root K f)
  kept : ∀ i ∈ K, i < mmu.tableEntries ∧ mmu.ptePresent (m.mem (root + i * 8)) = true

variable {mem' : ℕ → ℕ}

theorem presentCount_congr (h : ∀ i < mmu.tableEntries, mem' (f + i * 8) = mem (f + i * 8)) :
    presentCount mmu mem' f K = presentCount mmu mem f K := by
  refine congrArg Finset.card (Finset.filter_congr fun i hi => ?_)
  rw [h i (Finset.mem_range.mp hi)]

theorem Counts.congr (hK : Counts mmu m root boot K)
    (hkept : ∀ f i, IsTable mmu m.mem root f → i < mmu.tableEntries →
      m'.mem (f + i * 8) = m.mem (f + i * 8))
    (hpages : ∀ f, IsTable mmu m.mem root f →
      m'.page mmu.pageSizeShift f = m.page mmu.pageSizeShift f) : Counts mmu m' root boot K := by
  constructor
  · intro f hf hb
    rw [isTable_kept hkept] at hf
    rw [hpages f hf, hK.count f hf hb]
    exact (presentCount_congr fun i hi => hkept f i hf hi).symm
  · intro i hi
    obtain ⟨hlt, hp⟩ := hK.kept i hi
    refine ⟨hlt, ?_⟩
    rwa [hkept root i ⟨0, 0, rfl⟩ hlt]

theorem presentCount_le (mmu : Mmu) (mem : ℕ → ℕ) (f : ℕ) (K : Finset ℕ) :
    presentCount mmu mem f K ≤ mmu.tableEntries :=
  (Finset.card_filter_le _ _).trans (Finset.card_range _).le

theorem presentCount_write (w : ℕ) (hi : i < mmu.tableEntries) :
    presentCount mmu (update mem (f + i * 8) w) f K +
        (if mmu.ptePresent (mem (f + i * 8)) = true ∧ i ∉ K then 1 else 0) =
      presentCount mmu mem f K + (if mmu.ptePresent w = true ∧ i ∉ K then 1 else 0) := by
  have hmem : i ∈ Finset.range mmu.tableEntries := Finset.mem_range.mpr hi
  have hrest : ∀ j ∈ (Finset.range mmu.tableEntries).erase i,
      update mem (f + i * 8) w (f + j * 8) = mem (f + j * 8) := by
    intro j hj
    have hne := Finset.ne_of_mem_erase hj
    exact update_of_ne (by omega) _ _
  simp only [presentCount, Finset.card_filter]
  rw [← Finset.add_sum_erase _ _ hmem, ← Finset.add_sum_erase _ _ hmem, update_self,
    Finset.sum_congr rfl fun j hj => by rw [hrest j hj]]
  omega

structure Recounted (mmu : Mmu) (boot : Set ℕ) (m : Machine) (f : ℕ) (amount : ℤ) (m' : Machine) :
    Prop where
  mem : m'.mem = m.mem
  freed : m'.freed = m.freed
  available : availableFrames m'.buddy = availableFrames m.buddy
  buddy : ∀ R H, BuddyInv mmu.pageSizeShift m.buddy R H →
    (f ∉ boot → blk mmu.pageSizeShift f 0 ∈ H) → BuddyInv mmu.pageSizeShift m'.buddy R H
  type : ∀ t, 2 ^ mmu.pageSizeShift ∣ t →
    (m'.page mmu.pageSizeShift t).type = (m.page mmu.pageSizeShift t).type
  other : ∀ t, 2 ^ mmu.pageSizeShift ∣ t → t ≠ f →
    m'.page mmu.pageSizeShift t = m.page mmu.pageSizeShift t
  count : f ∉ boot → (m'.page mmu.pageSizeShift f).refCount =
    (((m.page mmu.pageSizeShift f).refCount + amount) % 2 ^ 32).toNat

variable {amount : ℤ}

theorem updateRefcnt_spec (hf : 2 ^ mmu.pageSizeShift ∣ f)
    (hty : f ∉ boot → (m.page mmu.pageSizeShift f).type = .ptable)
    (hboot : f ∈ boot → (m.page mmu.pageSizeShift f).type = .invalid)
    (hle : f ∉ boot → amount < 0 → -amount ≤ (m.page mmu.pageSizeShift f).refCount) :
    ∃ m', updateRefcnt mmu m f amount = .ok m' ∧ Recounted mmu boot m f amount m' := by
  by_cases hb : f ∈ boot
  · refine ⟨m, by simp [updateRefcnt, hboot hb], rfl, rfl, rfl, fun _ _ h _ => h, fun _ _ => rfl,
      fun _ _ _ => rfl, fun h => absurd hb h⟩
  · have hp := hty hb
    have hl : decide (amount < 0 → -amount ≤ ((m.page mmu.pageSizeShift f).refCount : ℤ)) = true :=
      decide_eq_true (hle hb)
    refine ⟨m.setPage mmu.pageSizeShift f { m.page mmu.pageSizeShift f with
      refCount := (((m.page mmu.pageSizeShift f).refCount + amount) % 2 ^ 32).toNat },
      by simp only [updateRefcnt, hp, hl, reduceCtorEq, if_false, beq_self_eq_true, kassert_true,
        ok_bind], rfl, rfl, rfl, ?_, ?_, ?_, ?_⟩
    · intro R H h hH
      refine setPage_owned h (hH hb) ?_ rfl
      simp [hp]
    · intro t ht
      by_cases he : t = f
      · rw [he, page_setPage_self]
      · rw [page_setPage_ne _ _ hf ht he]
    · intro t ht he
      exact page_setPage_ne _ _ hf ht he
    · intro _
      rw [page_setPage_self]

theorem tableEntries_lt (law : mmu.Lawful) : mmu.tableEntries < 2 ^ 32 := by
  have hs := law.span
  have hm := Nat.mul_le_mul_right mmu.pageIndexBits law.three_le_top
  rw [tableEntries_eq]
  exact Nat.pow_lt_pow_right (by norm_num) (by omega)

theorem Recounted.exact (law : mmu.Lawful) {n : ℕ} (hr : Recounted mmu boot m f amount m')
    (hf : f ∉ boot) (hn : ((m.page mmu.pageSizeShift f).refCount : ℤ) + amount = n)
    (hle : n ≤ mmu.tableEntries) : (m'.page mmu.pageSizeShift f).refCount = n := by
  have hlt := tableEntries_lt law
  rw [hr.count hf, hn, Int.emod_eq_of_lt (by omega) (by omega), Int.toNat_natCast]

theorem isTable_congr (ht : ∀ d q, table mmu mem' root d q = table mmu mem root d q) (t : ℕ) :
    IsTable mmu mem' root t ↔ IsTable mmu mem root t := by
  simp only [IsTable, ht]

theorem Inv.rewrite (h : Inv mmu m root R Rest boot)
    (ht : ∀ d q, table mmu mem' root d q = table mmu m.mem root d q)
    (wf' : WellFormed mmu mem' root) : Inv mmu { m with mem := mem' } root R Rest boot := by
  have hi := isTable_congr ht
  have hb : tableBlocks mmu mem' root boot = tableBlocks mmu m.mem root boot := by
    simp only [tableBlocks, hi]
  refine ⟨wf', ?_, ?_, h.ram, h.outside, ?_, ?_⟩
  · show BuddyInv _ m.buddy R (Rest ∪ tableBlocks mmu mem' root boot)
    rw [hb]
    exact h.buddy
  · exact fun f hf => h.apart f ((hi f).mp hf)
  · exact fun f hf => h.ptable f ((hi f).mp hf)
  · exact fun f hf => h.invalid f ((hi f).mp hf)

theorem Inv.recount (h : Inv mmu m root R Rest boot) (hf : IsTable mmu m.mem root f)
    (hr : Recounted mmu boot m f amount m') : Inv mmu m' root R Rest boot := by
  obtain ⟨hm, _, _, hb, hty, _, _⟩ := hr
  refine ⟨hm ▸ h.wf, ?_, ?_, h.ram, h.outside, ?_, ?_⟩
  · rw [hm]
    exact hb R _ h.buddy fun hboot => Or.inr ⟨f, hf, hboot, rfl⟩
  · rw [hm]
    exact h.apart
  · intro t ht hb
    rw [hm] at ht
    rw [hty t (h.aligned ht)]
    exact h.ptable t ht hb
  · intro t ht hb
    rw [hm] at ht
    rw [hty t (h.aligned ht)]
    exact h.invalid t ht hb

variable {m₁ : Machine} {c : ℕ}

theorem Inv.taken (h : Inv mmu m root R Rest boot)
    (ht : PageTaken mmu.pageSizeShift m R (Rest ∪ tableBlocks mmu m.mem root boot) c m₁) :
    mmu.IsFrame c ∧ ¬ IsTable mmu m.mem root c ∧ c ∉ boot := by
  have hreg : c ∈ region R := by
    by_contra hn
    exact ht.not_kept (Or.inr hn)
  exact ⟨⟨ht.aligned, (h.ram c hreg).1, (h.ram c hreg).2⟩, fun hc => ht.not_kept (h.kept hc),
    fun hc => h.outside c hc hreg⟩

theorem Inv.congr (h : Inv mmu m root R Rest boot) (hb : m'.buddy = m.buddy)
    (hm : m'.mem = m.mem) : Inv mmu m' root R Rest boot := by
  obtain ⟨buddy', mem', freed'⟩ := m'
  obtain rfl := hb
  obtain rfl := hm
  exact ⟨h.wf, h.buddy, h.apart, h.ram, h.outside, h.ptable, h.invalid⟩

theorem Inv.word_kept (law : mmu.Lawful) (h : Inv mmu m root R Rest boot)
    (hsame : ∀ a, (∀ b ∈ Rest, ¬ Mem a b) → mem' a = m.mem a) (f i : ℕ)
    (hf : IsTable mmu m.mem root f) (hi : i < mmu.tableEntries) :
    mem' (f + i * 8) = m.mem (f + i * 8) := by
  apply hsame
  intro b hb ha
  exact h.rest_word law hb ha hf hi rfl

theorem Inv.fill (law : mmu.Lawful) (h : Inv mmu m root R Rest boot)
    (hsame : ∀ a, (∀ b ∈ Rest, ¬ Mem a b) → mem' a = m.mem a) :
    Inv mmu { m with mem := mem' } root R Rest boot ∧
      ∀ v, translate mmu mem' root v = translate mmu m.mem root v := by
  have hkept := h.word_kept law hsame
  exact ⟨h.rewrite (table_kept hkept) (wellFormed_kept hkept h.wf), translate_kept hkept⟩

variable {p : ℕ}

theorem Inv.hold (h : Inv mmu m root R Rest boot)
    (ht : PageTaken mmu.pageSizeShift m R (Rest ∪ tableBlocks mmu m.mem root boot) p m₁) :
    Inv mmu { m with buddy := m₁.buddy } root R (insert (blk mmu.pageSizeShift p 0) Rest) boot := by
  have hpages : ∀ f, IsTable mmu m.mem root f →
      m₁.page mmu.pageSizeShift f = m.page mmu.pageSizeShift f :=
    fun f hf => ht.pages f (h.aligned hf) (h.kept hf)
  refine ⟨h.wf, ?_, ?_, h.ram, h.outside, ?_, ?_⟩
  · rw [Set.insert_union]
    exact ht.inv
  · rintro f hf hb (he | hrest)
    · exact (h.taken ht).2.1 ((blk_injective he).1 ▸ hf)
    · exact h.apart f hf hb hrest
  · intro f hf hb
    exact (congrArg Page.type (hpages f hf)).trans (h.ptable f hf hb)
  · intro f hf hb
    exact (congrArg Page.type (hpages f hf)).trans (h.invalid f hf hb)

theorem Inv.drop (h : Inv mmu m root R (insert (blk mmu.pageSizeShift p 0) Rest) boot)
    (hp : blk mmu.pageSizeShift p 0 ∉ Rest) :
    Inv mmu (pmmFreePage mmu.pageSizeShift m p) root R Rest boot ∧
      PageGiven mmu.pageSizeShift m R (Rest ∪ tableBlocks mmu m.mem root boot) p
        (pmmFreePage mmu.pageSizeShift m p) := by
  have hbuddy := h.buddy
  rw [Set.insert_union] at hbuddy
  have hnot : blk mmu.pageSizeShift p 0 ∉ Rest ∪ tableBlocks mmu m.mem root boot := by
    rintro (hb | ⟨f, hf, hnb, he⟩)
    · exact hp hb
    · exact h.apart f hf hnb (he ▸ Set.mem_insert _ _)
  have hg := pmmFreePage_spec hbuddy hnot
  have hpages := fun f (hf : IsTable mmu m.mem root f) =>
    hg.pages f (h.aligned hf) (kept_table h.outside Rest hf)
  refine ⟨⟨h.wf, hg.inv, ?_, h.ram, h.outside, ?_, ?_⟩, hg⟩
  · exact fun f hf hb hrest => h.apart f hf hb (Set.mem_insert_of_mem _ hrest)
  · intro f hf hb
    exact (congrArg Page.type (hpages f hf)).trans (h.ptable f hf hb)
  · intro f hf hb
    exact (congrArg Page.type (hpages f hf)).trans (h.invalid f hf hb)

theorem Inv.link (law : mmu.Lawful) (h : Inv mmu m root R Rest boot)
    (ht : PageTaken mmu.pageSizeShift m R (Rest ∪ tableBlocks mmu m.mem root boot) c m₁)
    (hl : Links mmu m.mem m'.mem root d g f c)
    (hb : BuddyInv mmu.pageSizeShift m'.buddy R (insert (blk mmu.pageSizeShift c 0) (Rest ∪
      tableBlocks mmu m.mem root boot))) (hc : (m'.page mmu.pageSizeShift c).type = .ptable)
    (hty : ∀ t, IsTable mmu m.mem root t → (m'.page mmu.pageSizeShift t).type =
      (m.page mmu.pageSizeShift t).type) : Inv mmu m' root R Rest boot := by
  obtain ⟨hframe, hfresh, hboot⟩ := h.taken ht
  have hi := hl.isTable_iff law h.wf
  have hblocks : Rest ∪ tableBlocks mmu m'.mem root boot =
      insert (blk mmu.pageSizeShift c 0) (Rest ∪ tableBlocks mmu m.mem root boot) := by
    ext b
    simp only [tableBlocks, Set.mem_union, Set.mem_ofPred_eq, Set.mem_insert_iff, hi]
    constructor
    · rintro (hb | ⟨t, ht | rfl, hnb, rfl⟩)
      · exact Or.inr (Or.inl hb)
      · exact Or.inr (Or.inr ⟨t, ht, hnb, rfl⟩)
      · exact Or.inl rfl
    · rintro (rfl | hb | ⟨t, ht, hnb, rfl⟩)
      · exact Or.inr ⟨c, Or.inr rfl, hboot, rfl⟩
      · exact Or.inl hb
      · exact Or.inr ⟨t, Or.inl ht, hnb, rfl⟩
  refine ⟨hl.wellFormed law h.wf, hblocks ▸ hb, ?_, h.ram, h.outside, ?_, ?_⟩
  · intro t hit hnb hrest
    rcases (hi t).mp hit with hold | rfl
    · exact h.apart t hold hnb hrest
    · exact ht.not_kept (Or.inl ⟨_, Or.inl hrest, base_mem (blk _ t 0)⟩)
  · intro t hit hnb
    rcases (hi t).mp hit with hold | rfl
    · rw [hty t hold]
      exact h.ptable t hold hnb
    · exact hc
  · intro t hit hbt
    rcases (hi t).mp hit with hold | rfl
    · rw [hty t hold]
      exact h.invalid t hold hbt
    · exact absurd hbt hboot

end ArchPagingInvariant
