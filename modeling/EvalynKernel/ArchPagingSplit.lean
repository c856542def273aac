import EvalynKernel.ArchPagingEncoding
import EvalynKernel.ArchPagingMap

/-! # Splitting a large leaf (`arch/generic/paging/split.c`)

A leaf of level two or three is replaced by a table of leaves one level down. The flags
go through the generic protection word and are encoded again for the new level, so the
result depends on the entry format of each architecture. -/
namespace ArchPagingSplit

open MachineWords DyadicBlocks DyadicBlocks.Block MemBuddyAllocator MemBuddyInvariant MemPmm
open ArchPagingFormats ArchPagingEncoding ArchPaging ArchPagingTables ArchPagingWrites
open ArchPagingInvariant ArchPagingSteps ArchPagingMap

variable {mmu : Mmu} {m m' : Machine} {root : ℕ} {R Rest : Set Block} {boot : Set ℕ}
  {f g level paddr attr : ℕ}

theorem pagingGetProt_eq (mmu : Mmu) (mem : ℕ → ℕ) (root vaddr : ℕ) :
    pagingGetProt mmu mem root vaddr = ((translate mmu mem root vaddr).map Prod.snd).getD 0 := by
  unfold pagingGetProt ArchPaging.translate
  cases pagingWalk mmu mem vaddr mmu.topLevel root <;> rfl

/-- Replacing the leaf in a slot by a table of leaves changes nothing a walk can see. -/
structure Invisible (mmu : Mmu) (root slot level : ℕ) (m : Machine) (child : ℕ) (m' : Machine) :
    Prop where
  translated : ∀ v, translate mmu m'.mem root v = translate mmu m.mem root v
  prot : ∀ v, pagingGetProt mmu m'.mem root v = pagingGetProt mmu m.mem root v
  leaves : ∀ i < mmu.tableEntries, mmu.ptePresent (m'.mem (child + i * 8)) = true ∧
    mmu.pteIsLeaf (m'.mem (child + i * 8)) (level - 1) = true
  present : mmu.ptePresent (m'.mem slot) = true
  pointer : mmu.pteIsLeaf (m'.mem slot) level = false ∧ mmu.decodePte (m'.mem slot) = child

theorem translate_congr (h : ∀ x < span mmu, pageMap mmu mem' root x = pageMap mmu mem root x)
    (v : ℕ) : translate mmu mem' root v = translate mmu mem root v := by
  rw [translate_eq_pageMap, translate_eq_pageMap, h _ (pageNumber_lt mmu v)]

theorem descended_slot {d child : ℕ}
    (hf : table mmu m.mem root d (g / mmu.tableEntries) = some f)
    (h : Descended mmu m root R Rest boot d g f child m') :
    mmu.ptePresent (m'.mem (pteAt mmu f g)) = true ∧
      mmu.pteIsLeaf (m'.mem (pteAt mmu f g)) (mmu.topLevel - d) = false ∧
      mmu.decodePte (m'.mem (pteAt mmu f g)) = child := by
  have hparent : table mmu m'.mem root d (g / mmu.tableEntries) = some f := by
    rw [h.tables_eq, if_neg (by omega), hf]
  have hchild : table mmu m'.mem root (d + 1) g = some child := by
    rw [h.tables_eq, if_pos ⟨rfl, rfl⟩]
  exact child_eq_some.mp ((table_next hparent).symm.trans hchild)

theorem pagingSplitLeaf_invisible (law : mmu.Lawful) (h : Inv mmu m root R Rest boot)
    (hf : table mmu m.mem root d (g / mmu.tableEntries) = some f) (hd : d + 1 < mmu.topLevel)
    (hlow : mmu.topLevel ≤ d + 3) (hp : mmu.ptePresent (m.mem (pteAt mmu f g)) = true)
    (hleaf : mmu.pteIsLeaf (m.mem (pteAt mmu f g)) (mmu.topLevel - d) = true) :
    Ensures (NoPage m) (pagingSplitLeaf mmu m (pteAt mmu f g) (mmu.topLevel - d))
      fun r => Invisible mmu root (pteAt mmu f g) (mmu.topLevel - d) m r.1 r.2 := by
  refine (pagingSplitLeaf_spec law h hf hd hp hleaf).imp ?_
  rintro ⟨child, m'⟩ ⟨hdown, hwords⟩
  have hsame : ∀ v, translate mmu m'.mem root v = translate mmu m.mem root v := by
    refine translate_congr fun x hx => ?_
    rw [(hdown.grown 0 fun _ => none).mapped x hx, if_neg (by omega)]
  obtain ⟨hpresent, hpointer⟩ := descended_slot hf hdown
  constructor
  · exact hsame
  · intro v
    rw [pagingGetProt_eq, pagingGetProt_eq, hsame]
  · intro i hi
    rw [hwords i hi]
    exact law.leaf _ _ _ (by omega) (by omega)
  · exact hpresent
  · exact hpointer

theorem writeLeaf_word (mmu : Mmu) (m : Machine) (slot paddr level attr : ℕ) :
    (writeLeaf mmu m slot paddr level attr).mem slot = mmu.leafPte level paddr attr :=
  Function.update_self _ _ _

theorem translate_leaf (law : mmu.Lawful) (hlevel : 1 ≤ level ∧ level ≤ 3)
    (hp : mmu.entrySize level ∣ paddr) (hlt : paddr < 2 ^ 52)
    (hf : table mmu m.mem root (mmu.topLevel - level) (g / mmu.tableEntries) = some f)
    (hword : m.mem (pteAt mmu f g) = mmu.leafPte level paddr attr)
    (hv : pageNumber mmu v / mmu.tableEntries ^ (level - 1) = g) :
    translate mmu m.mem root v = some (paddr + v % mmu.entrySize level, mmu.protection attr) := by
  have htop := law.three_le_top
  obtain ⟨hpresent, hleaf⟩ := law.leaf level paddr attr hlevel.1 hlevel.2
  have he := entry_of_table hf
  rw [hword, ← hv] at he
  exact Resolves.translate_leaf law hlevel.2 hp hlt ⟨hlevel.1, by omega, he, hpresent, hleaf⟩

theorem writeLeaf_inv (law : mmu.Lawful) (h : Inv mmu m root R Rest boot) (level paddr attr g : ℕ)
    (hlevel : 1 ≤ level ∧ level ≤ 3) (hp : mmu.entrySize level ∣ paddr)
    (hf : table mmu m.mem root (mmu.topLevel - level) (g / mmu.tableEntries) = some f)
    (hold : child mmu (mmu.topLevel - level) (m.mem (pteAt mmu f g)) = none) :
    Inv mmu (writeLeaf mmu m (pteAt mmu f g) paddr level attr) root R Rest boot ∧
      table mmu (writeLeaf mmu m (pteAt mmu f g) paddr level attr).mem root
        (mmu.topLevel - level) (g / mmu.tableEntries) = some f := by
  have hplain := plain_leafPte law attr hlevel.1 hlevel.2 hp
  have htable := table_put law h.wf hf hplain hold
  exact ⟨h.rewrite htable (wellFormed_put law h.wf hf hplain), (htable _ _).trans hf⟩

def onePage : Machine := ⟨buddyAddBlock 12 initial 0x2000 0, fun _ => 0, []⟩

theorem onePage_inv : Inv sv39 onePage 0x1000 {blk 12 0x2000 0} ∅ {0x1000} :=
  block_inv sv39_lawful ⟨by decide, by decide, by decide⟩ (Nat.zero_le _)
    (show 2 ^ 12 ∣ 0x2000 by decide) (by decide) (by decide) rfl rfl

/-- `paging_split_leaf` after `write_leaf` is invisible on every architecture, whatever
the attributes and the features in `mmu_config`. It can only fail for want of a page. -/
theorem split_leaf_invisible {arch : Arch} {config : ℕ} (hc : arch.Levels config)
    (hmmu : mmu = arch.mmu config) (hlevel : level = 2 ∨ level = 3)
    (hp : mmu.entrySize level ∣ paddr) (hlt : paddr < 2 ^ 50) {m₁ : Machine}
    (hwrite : m₁ = writeLeaf mmu m (f + g % mmu.tableEntries * 8) paddr level attr)
    (h : Inv mmu m₁ root R Rest boot)
    (hf : table mmu m₁.mem root (mmu.topLevel - level) (g / mmu.tableEntries) = some f) :
    (∀ v, pageNumber mmu v / mmu.tableEntries ^ (level - 1) = g →
      translate mmu m₁.mem root v = some (paddr + v % mmu.entrySize level, mmu.protection attr)) ∧
    Ensures (NoPage m₁) (pagingSplitLeaf mmu m₁ (f + g % mmu.tableEntries * 8) level) fun r =>
      Invisible mmu root (f + g % mmu.tableEntries * 8) level m₁ r.1 r.2 := by
  have law : mmu.Lawful := hmmu ▸ Arch.lawful hc
  have htop := law.three_le_top
  have hrange : 1 ≤ level ∧ level ≤ 3 := by omega
  have hword : m₁.mem (f + g % mmu.tableEntries * 8) = mmu.leafPte level paddr attr := by
    rw [hwrite, writeLeaf_word]
  constructor
  · intro v hv
    exact translate_leaf law hrange hp (by omega) hf hword hv
  · have hdepth : mmu.topLevel - (mmu.topLevel - level) = level := by omega
    obtain ⟨hpresent, hleaf⟩ := law.leaf level paddr attr hrange.1 hrange.2
    have hsplit := pagingSplitLeaf_invisible law h hf (by omega) (by omega)
      (by rw [hword]; exact hpresent) (by rw [hword, hdepth]; exact hleaf)
    rw [hdepth] at hsplit
    exact hsplit

theorem giant_leaf_splits : ∃ child m', pagingSplitLeaf sv39
    (writeLeaf sv39 onePage 0x1008 0x40000000 3 pageW) 0x1008 3 = .ok (child, m') ∧
    Invisible sv39 0x1000 0x1008 3 (writeLeaf sv39 onePage 0x1008 0x40000000 3 pageW) child m' := by
  obtain ⟨hinv, htable⟩ := writeLeaf_inv sv39_lawful onePage_inv 3 0x40000000 pageW 1
    (by decide) (by decide) (show _ = some 0x1000 from rfl) rfl
  have hsplit : Ensures (NoPage onePage) _ _ := (split_leaf_invisible
    (show Arch.riscv64.Levels sv39.config from ⟨by decide, by decide⟩) rfl (Or.inr rfl) (by decide)
    (by decide) rfl hinv htable).2
  obtain ⟨⟨child, m'⟩, hok, hsame⟩ := hsplit.returns fun e he => absurd he.2 (by decide)
  exact ⟨child, m', hok, hsame⟩

end ArchPagingSplit
