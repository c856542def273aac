import EvalynKernel.ArchPagingMap
import EvalynKernel.SyscallsFutex

/-! # Looking up physical addresses (`arch/generic/paging/get.c`)

`paging_get_paddr` returns the base of the leaf that covers an address. Callers that pass
no `level_out` take it for the page of the address, and the futex calls add the offset in
the page to it. Both are right only in the first page of a leaf. -/
namespace ArchPagingLookup

open MachineWords DyadicBlocks MemPmm ArchPagingFormats ArchPaging ArchPagingTables
open ArchPagingInvariant ArchPagingMap SyscallsFutex

variable {mmu : Mmu} {m m' : Machine} {root : ℕ} {R Rest : Set Block} {boot : Set ℕ}
  {mem : ℕ → ℕ} {v p prot : ℕ}

/-- The address lies in the first page of the leaf that maps it. -/
def FirstPage (mmu : Mmu) (mem : ℕ → ℕ) (root v : ℕ) : Prop :=
  ∃ leaf level pte, pagingWalk mmu mem v mmu.topLevel root = some (leaf, level, pte) ∧
    v % mmu.entrySize level < mmu.pageSize

theorem pageSize_dvd_entrySize (mmu : Mmu) (level : ℕ) : mmu.pageSize ∣ mmu.entrySize level := by
  rw [entrySize_eq, pageSize_eq]
  exact Nat.dvd_mul_left _ _

theorem firstPage_of_level_one (h : pagingWalk mmu mem v mmu.topLevel root = some (leaf, 1, pte)) :
    FirstPage mmu mem root v := by
  refine ⟨leaf, 1, pte, h, ?_⟩
  have hsize : mmu.entrySize 1 = mmu.pageSize := by
    rw [entrySize_eq, pageSize_eq, Nat.sub_self, Nat.pow_zero, Nat.one_mul]
  exact hsize ▸ Nat.mod_lt _ (entrySize_pos mmu 1)

theorem getPaddr_add_offset (h : translate mmu mem root v = some (p, prot)) :
    pagingGetPaddr mmu mem root v + v % mmu.pageSize ≤ p ∧
      (pagingGetPaddr mmu mem root v + v % mmu.pageSize = p ↔ FirstPage mmu mem root v) := by
  obtain ⟨⟨leaf, level, pte⟩, hwalk, htrans⟩ := Option.map_eq_some_iff.mp h
  obtain ⟨rfl, -⟩ := Prod.mk.inj htrans
  have hbase : pagingGetPaddr mmu mem root v = mmu.decodeLeaf level leaf := by
    rw [pagingGetPaddr, hwalk]
  have hfirst : FirstPage mmu mem root v ↔ v % mmu.entrySize level < mmu.pageSize := by
    constructor
    · rintro ⟨leaf', level', pte', hwalk', hlt⟩
      obtain ⟨-, rfl, -⟩ := Prod.mk.inj (Option.some.inj (hwalk.symm.trans hwalk'))
      exact hlt
    · exact fun hlt => ⟨leaf, level, pte, hwalk, hlt⟩
  have hmod : v % mmu.entrySize level % mmu.pageSize = v % mmu.pageSize :=
    Nat.mod_mod_of_dvd _ (pageSize_dvd_entrySize mmu level)
  have hle := Nat.mod_le (v % mmu.entrySize level) mmu.pageSize
  rw [hmod] at hle
  rw [hbase, hfirst]
  constructor
  · exact Nat.add_le_add_left hle _
  · constructor
    · intro he
      rw [Nat.add_left_cancel he.symm]
      exact Nat.mod_lt _ (by rw [pageSize_eq]; exact Nat.two_pow_pos _)
    · intro hlt
      rw [← hmod, Nat.mod_eq_of_lt hlt]

theorem translate_lt_word (law : mmu.Lawful) (wf : WellFormed mmu mem root)
    (h : translate mmu mem root v = some (p, prot)) : p < word := by
  obtain ⟨⟨leaf, level, pte⟩, hwalk, htrans⟩ := Option.map_eq_some_iff.mp h
  obtain ⟨rfl, -⟩ := Prod.mk.inj htrans
  have hr := (pagingWalk_root mmu mem root v level leaf).mp ⟨pte, hwalk⟩
  have hl := hr.level_le
  obtain ⟨-, good⟩ := wf.leaf _ _ _ hr.entry hr.child hr.present
  rw [Nat.sub_sub_self hl] at good
  have hsize : v % mmu.entrySize level < 2 ^ 52 := by
    exact lt_of_lt_of_le (Nat.mod_lt _ (entrySize_pos mmu level))
      (Nat.le_of_dvd (by norm_num) (ArchPagingSteps.entrySize_dvd law good.level_le))
  have hbase := good.bounded
  have hword := word_eq
  show mmu.decodeLeaf level leaf + v % mmu.entrySize level < word
  omega

/-- After `paging_map_range` the lookup of a mapped page is its physical address, and the
futex key of a mapped word is the word's, iff they lie in the first page of their leaf. -/
theorem paging_get_paddr_iff (law : mmu.Lawful) (h : Inv mmu m root R Rest boot)
    {vaddr paddr len attr : ℕ} (hv : 2 ^ mmu.pageSizeShift ∣ vaddr)
    (hp : 2 ^ mmu.pageSizeShift ∣ paddr) (hl : 2 ^ mmu.pageSizeShift ∣ len)
    (hphys : paddr + len ≤ 2 ^ 52)
    (hcross : pageNumber mmu vaddr + len / 2 ^ mmu.pageSizeShift ≤ span mmu)
    (hok : pagingMapRange mmu m root vaddr paddr len attr = .ok m') :
    (∀ o < len, translate mmu m'.mem root (vaddr + o) = some (paddr + o, mmu.protection attr)) ∧
    (∀ v p prot, translate mmu m'.mem root v = some (p, prot) →
      (mmu.pageSize ∣ v → (pagingGetPaddr mmu m'.mem root v = p ↔ FirstPage mmu m'.mem root v)) ∧
      (futexKey mmu.pageSize v (pagingGetPaddr mmu m'.mem root v) = p ↔
        FirstPage mmu m'.mem root v)) ∧
    (∀ v w p q prot prot', translate mmu m'.mem root v = some (p, prot) →
      translate mmu m'.mem root w = some (q, prot') → FirstPage mmu m'.mem root v →
      FirstPage mmu m'.mem root w → p ≠ q →
      futexKey mmu.pageSize v (pagingGetPaddr mmu m'.mem root v) ≠
        futexKey mmu.pageSize w (pagingGetPaddr mmu m'.mem root w)) ∧
    ∀ v leaf pte, pagingWalk mmu m'.mem v mmu.topLevel root = some (leaf, 1, pte) →
      FirstPage mmu m'.mem root v := by
  have hword : paddr < word := lt_of_le_of_lt (by omega) (show 2 ^ 52 < word by decide)
  obtain ⟨hd, -⟩ := (pagingMapRange_spec law h hv hp hl hword).value hok
  have hkey : ∀ v p prot, translate mmu m'.mem root v = some (p, prot) →
      (futexKey mmu.pageSize v (pagingGetPaddr mmu m'.mem root v) = p ↔
        FirstPage mmu m'.mem root v) := by
    intro v p prot ht
    obtain ⟨hle, hiff⟩ := getPaddr_add_offset ht
    rw [futexKey, Nat.mod_eq_of_lt (lt_of_le_of_lt hle (translate_lt_word law hd.inv.wf ht))]
    exact hiff
  refine ⟨fun o ho => translate_range hd hv hl hphys hcross ho, ?_, ?_, ?_⟩
  · intro v p prot ht
    refine ⟨fun hv => ?_, hkey v p prot ht⟩
    have hiff := (getPaddr_add_offset ht).2
    rw [Nat.mod_eq_zero_of_dvd hv, Nat.add_zero] at hiff
    exact hiff
  · intro v w p q prot prot' hv hw hfv hfw hne
    rw [(hkey v p prot hv).mpr hfv, (hkey w q prot' hw).mpr hfw]
    exact hne
  · exact fun v leaf pte hwalk => firstPage_of_level_one hwalk

theorem giant_page_base : ∃ m', pagingMapRange sv39 bareMachine 0x1000 0x40000000 0x80000000
      0x40000000 pageUrw = .ok m' ∧ pagingGetPaddr sv39 m'.mem 0x1000 0x40000000 = 0x80000000 ∧
    futexKey sv39.pageSize 0x40000ffc (pagingGetPaddr sv39 m'.mem 0x1000 0x40000ffc) =
      0x80000ffc := by
  obtain ⟨m', hm, hstart, hlast⟩ : ∃ m', pagingMapRange sv39 bareMachine 0x1000 0x40000000
      0x80000000 0x40000000 pageUrw = .ok m' ∧ FirstPage sv39 m'.mem 0x1000 0x40000000 ∧
      FirstPage sv39 m'.mem 0x1000 0x40000ffc :=
    ⟨_, rfl, ⟨_, _, _, rfl, by decide⟩, ⟨_, _, _, rfl, by decide⟩⟩
  obtain ⟨hmap, hiff, -⟩ := paging_get_paddr_iff sv39_lawful bare_sv39
    (show 2 ^ 12 ∣ 0x40000000 by decide) (show 2 ^ 12 ∣ 0x80000000 by decide)
    (show 2 ^ 12 ∣ 0x40000000 by decide) (by decide) (by decide) hm
  exact ⟨m', hm, ((hiff _ _ _ (hmap 0 (by decide))).1 (by decide)).mpr hstart,
    (hiff _ _ _ (hmap 0xffc (by decide))).2.mpr hlast⟩

/-- In a giant page the words of all pages share the keys of the first. -/
theorem giant_page_keys_collide : ∃ m', pagingMapRange sv39 bareMachine 0x1000 0x40000000 0x80000000
      0x40000000 pageUrw = .ok m' ∧
    translate sv39 m'.mem 0x1000 0x40001000 = some (0x80001000, sv39.protection pageUrw) ∧
    pagingGetPaddr sv39 m'.mem 0x1000 0x40001000 = 0x80000000 ∧
    hasFlag (pagingGetProt sv39 m'.mem 0x1000 0x40001000) pageU = true ∧
    futexKey sv39.pageSize 0x40001000 (pagingGetPaddr sv39 m'.mem 0x1000 0x40001000) =
      futexKey sv39.pageSize 0x40000000 (pagingGetPaddr sv39 m'.mem 0x1000 0x40000000) :=
  ⟨_, rfl, by decide, by decide, by decide, by decide⟩

end ArchPagingLookup
