import EvalynKernel.ArchPagingEarly
import EvalynKernel.ArchPagingEncoding
import Mathlib.Data.Nat.ModEq

/-! # The direct map of physical memory (`paging_init`)

Every entry of the memory map that is neither reserved nor bad is rounded outward to pages
and mapped at `hhdm_offset` with the largest leaves that fit. Entries that share a page are
mapped one after the other, and the later one walks through the entries the earlier one
left. -/
namespace ArchPagingInit

open MachineWords MemPmm MemBalloc ArchPagingFormats ArchPagingEncoding ArchPaging
open ArchPagingTables ArchPagingWrites ArchPagingSteps ArchPagingEarly

/-- The page size flag that the loop picks at an address. -/
def hhdmLeaf (mmu : Mmu) (last addr : ℕ) : ℕ :=
  if hasFlag mmu.config mmuConfigL3Leaf && decide (wadd addr (mmu.entrySize 3) ≤ last) &&
      isAligned addr (mmu.entrySize 3) then pageGiant
  else if hasFlag mmu.config mmuConfigL2Leaf && decide (wadd addr (mmu.entrySize 2) ≤ last) &&
      isAligned addr (mmu.entrySize 2) then pageLarge
  else pageNorm

def hhdmLoop (mmu : Mmu) (map : List MemmapEntry) (root hhdm flags last : ℕ) :
    ℕ → Early → ℕ → Exec Early
  | fuel, m, addr =>
    if addr < last then
      match fuel with
      | 0 => .error .fuel
      | fuel + 1 => do
        let size := hhdmLeaf mmu last addr
        let m ← pagingEarlyMapPage mmu map m root (toHhdm hhdm addr) addr (flags ||| size)
        hhdmLoop mmu map root hhdm flags last fuel m (wadd addr (mmu.entrySize (size + 1)))
    else .ok m

def hhdmFlags (e : MemmapEntry) : ℕ := if e.type = .framebuffer then pageKrwWc else pageKrw

def hhdmEntry (mmu : Mmu) (map : List MemmapEntry) (root hhdm : ℕ) (m : Early) (e : MemmapEntry) :
    Exec Early :=
  if e.type = .reserved then .ok m
  else if e.type = .badMemory then .ok m
  else
    let base := alignDown e.base mmu.pageSize
    let last := alignUp (wadd e.base e.length) mmu.pageSize
    hhdmLoop mmu map root hhdm (hhdmFlags e) last ((last - base) / mmu.pageSize) m base

/-- One turn of the loop that allocates the tables of the upper half. -/
def preallocate (mmu : Mmu) (map : List MemmapEntry) (root : ℕ) (m : Early) (i : ℕ) :
    Exec Early := do
  let (_, m) ← getNextLevelAndBumpAllocate mmu map m (root + i * 8) pageKrwx
  .ok m

/-- `paging_init` up to the end of the loop over the memory map: the kernel's page table and
the machine. -/
def pagingInitHhdm (mmu : Mmu) (map : List MemmapEntry) (hhdm : ℕ) (mem : ℕ → ℕ) :
    Exec (ℕ × Early) := do
  let (root, m) ← ballocPage mmu map ⟨ballocStart, mem, [], []⟩
  let m ← (List.range' 256 256).foldlM (preallocate mmu map root) m
  let m ← map.foldlM (hhdmEntry mmu map root hhdm) m
  .ok (root, m)

/-- Both `ARCH_UNPAGED_HHDM` and `ARCH_SEPARATE_PAGING_ROOTS`, which only loongarch64 sets. -/
def unpagedHhdm : Arch → Bool
  | .x86_64 | .riscv64 => false
  | .loongarch64 _ => true

def frames (mmu : Mmu) (e : MemmapEntry) : Set ℕ :=
  {a | e.base / 2 ^ mmu.pageSizeShift ≤ a ∧ a * 2 ^ mmu.pageSizeShift < e.base + e.length}

def mappedFrames (mmu : Mmu) (map : List MemmapEntry) : Set ℕ :=
  {a | ∃ e ∈ map, e.Mapped ∧ a ∈ frames mmu e}

/-- The frame lies in a large or giant block of the range, and so is mapped by a leaf of that
size when the range is. -/
def InLarge (mmu : Mmu) (S : Set ℕ) (a : ℕ) : Prop :=
  ∃ l, 2 ≤ l ∧ mmu.supportsLeaf l = true ∧
    ∀ b, b / mmu.tableEntries ^ (l - 1) = a / mmu.tableEntries ^ (l - 1) → b ∈ S

/-- No entry is rounded into a large or giant leaf of an earlier one. -/
def Compatible (mmu : Mmu) (map : List MemmapEntry) : Prop :=
  map.Pairwise fun e f =>
    e.Mapped → f.Mapped → ∀ a ∈ frames mmu f, ¬ InLarge mmu (frames mmu e) a

/-- Memory lies where entries can point. -/
def Physical (map : List MemmapEntry) : Prop :=
  ∀ e ∈ map, e.Mapped → e.base + e.length ≤ 2 ^ 52

/-- Memory lies where entries can point and fits the range of a top-level table. -/
def Fits (mmu : Mmu) (map : List MemmapEntry) : Prop :=
  ∀ e ∈ map, e.Mapped → e.base + e.length ≤ 2 ^ 52 ∧
    e.base + e.length ≤ span mmu * 2 ^ mmu.pageSizeShift

def hhdmPage (mmu : Mmu) (hhdm a : ℕ) : ℕ :=
  pageNumber mmu (toHhdm hhdm (a * 2 ^ mmu.pageSizeShift))

/-- What the direct map is for, and how it came about: every frame is mapped to itself, and
every walk went down pointers to pages of the boot allocator. -/
structure Direct (mmu : Mmu) (map : List MemmapEntry) (hhdm root : ℕ) (m : Early) : Prop where
  mapped : ∀ a ∈ mappedFrames mmu map, ∃ prot, translate mmu m.mem root
    (toHhdm hhdm (a * 2 ^ mmu.pageSizeShift)) = some (a * 2 ^ mmu.pageSizeShift, prot)
  boot : Boot mmu.pageSizeShift map m.pages m.balloc
  followed : ∀ x ∈ m.descents, Followed mmu m.pages x

variable {mmu : Mmu} {map : List MemmapEntry} {e : MemmapEntry} {m m' : Early}
  {root hhdm a b c l : ℕ}

theorem mem_block (hdvd : mmu.tableEntries ^ (l - 1) ∣ c) :
    b / mmu.tableEntries ^ (l - 1) = c / mmu.tableEntries ^ (l - 1) ↔
      c ≤ b ∧ b < c + mmu.tableEntries ^ (l - 1) := by
  have hpos := entries_pow_pos mmu (l - 1)
  generalize mmu.tableEntries ^ (l - 1) = n at *
  obtain ⟨k, rfl⟩ := hdvd
  rw [Nat.mul_div_cancel_left _ hpos, Nat.div_eq_iff hpos, Nat.mul_comm]
  constructor <;> rintro ⟨h1, h2⟩ <;> constructor <;> omega

section Geometry

variable (law : mmu.Lawful) (hh : mmu.entrySize 3 ∣ hhdm)

include law hh

theorem hhdmPage_eq (a : ℕ) :
    hhdmPage mmu hhdm a = (a + hhdm / 2 ^ mmu.pageSizeShift) % span mmu ∧
      mmu.tableEntries ^ 2 ∣ hhdm / 2 ^ mmu.pageSizeShift := by
  have hpos := Nat.two_pow_pos mmu.pageSizeShift
  obtain ⟨k, rfl⟩ := hh
  rw [entrySize_eq, Nat.mul_right_comm, Nat.mul_div_cancel _ hpos]
  refine ⟨?_, Nat.dvd_mul_right _ _⟩
  rw [hhdmPage, toHhdm, wadd_pages law, pageNumber, Nat.mul_div_cancel _ hpos,
    Nat.mod_mod_of_dvd _ (span_dvd law)]

theorem hhdmPage_eq_iff : hhdmPage mmu hhdm a = hhdmPage mmu hhdm b ↔
    a % span mmu = b % span mmu := by
  rw [(hhdmPage_eq law hh a).1, (hhdmPage_eq law hh b).1]
  exact ⟨Nat.ModEq.add_right_cancel' _, Nat.ModEq.add_right _⟩

theorem hhdmPage_add (hl : l ≤ 3) (hdvd : mmu.tableEntries ^ (l - 1) ∣ c)
    (ho : o < mmu.tableEntries ^ (l - 1)) :
    hhdmPage mmu hhdm (c + o) = hhdmPage mmu hhdm c + o ∧
      mmu.tableEntries ^ (l - 1) ∣ hhdmPage mmu hhdm c := by
  have htop := law.three_le_top
  have hspan : span mmu =
      mmu.tableEntries ^ (l - 1) * mmu.tableEntries ^ (mmu.topLevel - (l - 1)) :=
    span_split (by omega)
  have hblock : mmu.tableEntries ^ (l - 1) ∣ hhdm / 2 ^ mmu.pageSizeShift :=
    (Nat.pow_dvd_pow _ (by omega)).trans (hhdmPage_eq law hh 0).2
  rw [(hhdmPage_eq law hh _).1, (hhdmPage_eq law hh _).1, hspan, Nat.add_right_comm]
  obtain ⟨k, hk⟩ := Nat.dvd_add hdvd hblock
  rw [hk, Nat.mod_mul, Nat.mul_add_mod, Nat.mul_add_div (entries_pow_pos mmu _),
    Nat.mod_eq_of_lt ho, Nat.div_eq_of_lt ho, Nat.add_zero, Nat.mul_mod_mul_left, Nat.add_comm]
  exact ⟨rfl, Nat.dvd_mul_right _ _⟩

/-- The pages of a block are those of its frames. -/
theorem hhdmPage_block (hl : l ≤ 3) (hdvd : mmu.tableEntries ^ (l - 1) ∣ c) :
    y / mmu.tableEntries ^ (l - 1) = hhdmPage mmu hhdm c / mmu.tableEntries ^ (l - 1) ↔
      ∃ b ∈ Set.Ico c (c + mmu.tableEntries ^ (l - 1)), y = hhdmPage mmu hhdm b := by
  have hadd := fun o => hhdmPage_add law hh hl hdvd (o := o)
  rw [mem_block (hadd 0 (entries_pow_pos mmu _)).2]
  constructor
  · rintro ⟨h1, h2⟩
    refine ⟨c + (y - hhdmPage mmu hhdm c), ⟨by omega, by omega⟩, ?_⟩
    rw [(hadd _ (by omega)).1]
    omega
  · rintro ⟨b, ⟨h1, h2⟩, rfl⟩
    obtain ⟨o, rfl⟩ := Nat.exists_eq_add_of_le h1
    rw [(hadd o (by omega)).1]
    omega

end Geometry

section Picks

variable {last : ℕ} (law : mmu.Lawful) (hc : c < last)
  (hlast : last * 2 ^ mmu.pageSizeShift ≤ 2 ^ 52)

include law hc hlast

/-- A level passes the test at the start of a block that ends in the range. -/
theorem leaf_test (hl : l ≤ 3) :
    (decide (wadd (c * 2 ^ mmu.pageSizeShift) (mmu.entrySize l) ≤ last * 2 ^ mmu.pageSizeShift) &&
        isAligned (c * 2 ^ mmu.pageSizeShift) (mmu.entrySize l)) = true ↔
      mmu.tableEntries ^ (l - 1) ∣ c ∧ c + mmu.tableEntries ^ (l - 1) ≤ last := by
  have hpos := Nat.two_pow_pos mmu.pageSizeShift
  have hword := word_eq
  have hle := Nat.le_of_dvd (by norm_num) (entrySize_dvd law hl)
  have hlt := Nat.mul_lt_mul_of_pos_right hc hpos
  rw [Bool.and_eq_true, decide_eq_true_iff, wadd_of_lt (by omega), aligned_entrySize, entrySize_eq,
    ← Nat.add_mul, Nat.mul_le_mul_right_iff hpos, Nat.mul_dvd_mul_iff_right hpos, and_comm]

/-- A leaf of the greatest level whose block starts here and ends in the range. -/
structure Picked (mmu : Mmu) (last c l : ℕ) : Prop where
  supported : mmu.supportsLeaf l = true
  dvd : mmu.tableEntries ^ (l - 1) ∣ c
  fits : c + mmu.tableEntries ^ (l - 1) ≤ last
  greatest : ∀ k, mmu.supportsLeaf k = true → mmu.tableEntries ^ (k - 1) ∣ c →
    c + mmu.tableEntries ^ (k - 1) ≤ last → k ≤ l

theorem hhdmLeaf_spec : Picked mmu last c
    (hhdmLeaf mmu (last * 2 ^ mmu.pageSizeShift) (c * 2 ^ mmu.pageSizeShift) + 1) := by
  have hlevel : ∀ k, mmu.supportsLeaf k = true → k = 1 ∨
      k = 2 ∧ hasFlag mmu.config mmuConfigL2Leaf = true ∨
      k = 3 ∧ hasFlag mmu.config mmuConfigL3Leaf = true := by
    intro k hk
    simpa [Mmu.supportsLeaf, or_assoc] using hk
  have htest := fun l hl => leaf_test law hc hlast (l := l) hl
  unfold hhdmLeaf
  simp only [Bool.and_assoc, Bool.and_eq_true (hasFlag _ _), htest 3 le_rfl, htest 2 (by decide)]
  split
  · rename_i h3
    refine ⟨by simp [pageGiant, Mmu.supportsLeaf, h3.1], h3.2.1, h3.2.2, fun k hk _ _ => ?_⟩
    exact Mmu.supportsLeaf_le hk
  · rename_i h3
    split
    · rename_i h2
      refine ⟨by simp [pageLarge, Mmu.supportsLeaf, h2.1], h2.2.1, h2.2.2, fun k hk hd hf => ?_⟩
      rcases hlevel k hk with rfl | ⟨rfl, -⟩ | ⟨rfl, hflag⟩
      · decide
      · exact le_rfl
      · exact absurd ⟨hflag, hd, hf⟩ h3
    · rename_i h2
      refine ⟨by simp [pageNorm, Mmu.supportsLeaf], by simp [pageNorm], by simpa [pageNorm],
        fun k hk hd hf => ?_⟩
      rcases hlevel k hk with rfl | ⟨rfl, hflag⟩ | ⟨rfl, hflag⟩
      · exact le_rfl
      · exact absurd ⟨hflag, hd, hf⟩ h2
      · exact absurd ⟨hflag, hd, hf⟩ h3

end Picks

theorem entries_ge (law : mmu.Lawful) : 2 ^ 9 ≤ mmu.tableEntries := by
  rw [tableEntries_eq]
  exact Nat.pow_le_pow_right (by omega) (by have := law.bits; have := law.shift; omega)

theorem InLarge.mem (h : InLarge mmu S a) : a ∈ S := by
  obtain ⟨l, -, -, hblock⟩ := h
  exact hblock a rfl

theorem two_le_tableEntries (law : mmu.Lawful) : 2 ≤ mmu.tableEntries := by
  have := entries_ge law
  omega

/-- A block does not end at a multiple of the table's length. -/
theorem InLarge.next (law : mmu.Lawful) (h : InLarge mmu S a) (hdvd : mmu.tableEntries ∣ a) :
    a + 1 ∈ S := by
  obtain ⟨l, hl, -, hblock⟩ := h
  have htwo := two_le_tableEntries law
  refine hblock _ (Nat.succ_div_of_not_dvd fun hd => ?_)
  have hn : mmu.tableEntries ∣ a + 1 := (dvd_pow_self _ (by omega)).trans hd
  have := Nat.le_of_dvd Nat.one_pos ((Nat.dvd_add_right hdvd).mp hn)
  omega

/-- The blocks that start at `c` or later are those of the leaf picked there and those that
start after it. -/
theorem Picked.inLarge (h : Picked mmu last c l) :
    InLarge mmu (Set.Ico c last) a ↔
      (2 ≤ l ∧ a ∈ Set.Ico c (c + mmu.tableEntries ^ (l - 1))) ∨
        InLarge mmu (Set.Ico (c + mmu.tableEntries ^ (l - 1)) last) a := by
  have hfits := h.fits
  constructor
  · rintro ⟨k, hk, hsupp, hblock⟩
    have hpos := entries_pow_pos mmu (k - 1)
    generalize hs : a / mmu.tableEntries ^ (k - 1) * mmu.tableEntries ^ (k - 1) = s
    have hdvd : mmu.tableEntries ^ (k - 1) ∣ s := hs ▸ Nat.dvd_mul_left _ _
    have has : a / mmu.tableEntries ^ (k - 1) = s / mmu.tableEntries ^ (k - 1) := by
      rw [← hs, Nat.mul_div_cancel _ hpos]
    have hmem : ∀ b, s ≤ b → b < s + mmu.tableEntries ^ (k - 1) → c ≤ b ∧ b < last :=
      fun b h1 h2 => hblock b (((mem_block hdvd).mpr ⟨h1, h2⟩).trans has.symm)
    have hin := (mem_block hdvd).mp has
    have hfirst := hmem s le_rfl (by omega)
    have hend := hmem (s + mmu.tableEntries ^ (k - 1) - 1) (by omega) (by omega)
    by_cases hnear : s < c + mmu.tableEntries ^ (l - 1)
    · left
      rcases Nat.lt_or_ge l k with hlk | hkl
      · -- a greater level would have been picked at the start of its block
        have hsc : s / mmu.tableEntries ^ (l - 1) = c / mmu.tableEntries ^ (l - 1) :=
          (mem_block h.dvd).mpr ⟨hfirst.1, hnear⟩
        have hsl : mmu.tableEntries ^ (l - 1) ∣ s := (Nat.pow_dvd_pow _ (by omega)).trans hdvd
        have hcs : s = c := by
          rw [← Nat.div_mul_cancel hsl, hsc, Nat.div_mul_cancel h.dvd]
        subst hcs
        have := h.greatest k hsupp hdvd (by omega)
        omega
      · have hpow : mmu.tableEntries ^ (k - 1) ∣ mmu.tableEntries ^ (l - 1) :=
          Nat.pow_dvd_pow _ (by omega)
        have hle : s + mmu.tableEntries ^ (k - 1) ≤ c + mmu.tableEntries ^ (l - 1) := by
          have hdiff := Nat.dvd_sub (Nat.dvd_add (hpow.trans h.dvd) hpow) hdvd
          have := Nat.le_of_dvd (by omega) hdiff
          omega
        exact ⟨by omega, by omega, by omega⟩
    · refine Or.inr ⟨k, hk, hsupp, fun b hb => ?_⟩
      have hbs := (mem_block hdvd).mp (hb.trans has)
      exact ⟨by omega, (hblock b hb).2⟩
  · rintro (⟨hl, ha⟩ | ⟨k, hk, hsupp, hblock⟩)
    · refine ⟨l, hl, h.supported, fun b hb => ?_⟩
      have hbc := (mem_block h.dvd).mp (hb.trans ((mem_block h.dvd).mpr ha))
      exact ⟨hbc.1, by omega⟩
    · refine ⟨k, hk, hsupp, fun b hb => ?_⟩
      have := hblock b hb
      exact ⟨by have := this.1; omega, this.2⟩

/-- The frames of `D`, and no others, are mapped, each to itself; large leaves cover those of
`L`. -/
structure Mirrors (mmu : Mmu) (map : List MemmapEntry) (root hhdm : ℕ) (D L : Set ℕ) (m : Early) :
    Prop where
  inv : EarlyInv mmu map root m
  mapped : ∀ a ∈ D, ∃ l w, Resolves mmu m.mem root (hhdmPage mmu hhdm a) l w ∧ (2 ≤ l ↔ a ∈ L) ∧
    ∃ prot, entryMap mmu l w (hhdmPage mmu hhdm a) = some (a * 2 ^ mmu.pageSizeShift, prot)
  within : ∀ x l w, Resolves mmu m.mem root x l w → ∃ a ∈ D, x = hhdmPage mmu hhdm a

variable {D L : Set ℕ} {attr flags last : ℕ}

section Loop

variable (law : mmu.Lawful) (hmap : BootMap mmu map) (hh : mmu.entrySize 3 ∣ hhdm)

include law hh

theorem Picked.aligned (h : Picked mmu last c l) :
    mmu.entrySize l ∣ c * 2 ^ mmu.pageSizeShift ∧
      mmu.entrySize l ∣ toHhdm hhdm (c * 2 ^ mmu.pageSizeShift) := by
  have hl3 := Mmu.supportsLeaf_le h.supported
  have hsize : mmu.entrySize l ∣ c * 2 ^ mmu.pageSizeShift := by
    rw [entrySize_eq]
    exact Nat.mul_dvd_mul_right h.dvd _
  have hthree : mmu.entrySize l ∣ mmu.entrySize 3 := by
    rw [entrySize_eq, entrySize_eq]
    exact Nat.mul_dvd_mul_right (Nat.pow_dvd_pow _ (by omega)) _
  refine ⟨hsize, (Nat.dvd_mod_iff ?_).mpr (Nat.dvd_add hsize (hthree.trans hh))⟩
  exact (entrySize_dvd law hl3).trans (Nat.pow_dvd_pow 2 (by omega))

theorem entryMap_block (attr : ℕ) (hl1 : 1 ≤ l) (hl3 : l ≤ 3)
    (hdvd : mmu.tableEntries ^ (l - 1) ∣ c) (hc : c * 2 ^ mmu.pageSizeShift < 2 ^ 52)
    (hb : b ∈ Set.Ico c (c + mmu.tableEntries ^ (l - 1))) :
    entryMap mmu l (mmu.leafPte l (c * 2 ^ mmu.pageSizeShift) attr) (hhdmPage mmu hhdm b) =
      some (b * 2 ^ mmu.pageSizeShift, mmu.protection attr) := by
  have hsize : mmu.entrySize l ∣ c * 2 ^ mmu.pageSizeShift := by
    rw [entrySize_eq]
    exact Nat.mul_dvd_mul_right hdvd _
  obtain ⟨o, rfl⟩ := Nat.exists_eq_add_of_le hb.1
  have ho : o < mmu.tableEntries ^ (l - 1) := by have := hb.2; omega
  obtain ⟨hpage, q, hq⟩ := hhdmPage_add law hh hl3 hdvd ho
  rw [entryMap, if_pos (law.leaf l _ attr hl1 hl3).1, law.decode_leaf _ _ _ hl1 hl3 hsize,
    law.leaf_prot _ _ _ hl1 hl3 hsize, Nat.mod_eq_of_lt hc, hpage, hq, Nat.mul_add_mod,
    Nat.mod_eq_of_lt ho, ← Nat.add_mul]

include hmap

/-- One turn: the frames of the block join `D`. -/
theorem Mirrors.step (h : Mirrors mmu map root hhdm D L m)
    (hp : Picked mmu last c (pageLeafLevel attr)) (hlast : last * 2 ^ mmu.pageSizeShift ≤ 2 ^ 52)
    (hinj : Set.InjOn (hhdmPage mmu hhdm)
      (D ∪ Set.Ico c (c + mmu.tableEntries ^ (pageLeafLevel attr - 1))))
    (hclear : ∀ b ∈ Set.Ico c (c + mmu.tableEntries ^ (pageLeafLevel attr - 1)), b ∉ L) :
    Ensures NoBootMemory (pagingEarlyMapPage mmu map m root
      (toHhdm hhdm (c * 2 ^ mmu.pageSizeShift)) (c * 2 ^ mmu.pageSizeShift) attr) fun m' =>
        Mirrors mmu map root hhdm
          (D ∪ Set.Ico c (c + mmu.tableEntries ^ (pageLeafLevel attr - 1)))
          (L ∪ {b | 2 ≤ pageLeafLevel attr ∧
            b ∈ Set.Ico c (c + mmu.tableEntries ^ (pageLeafLevel attr - 1))}) m' := by
  have hl1 : 1 ≤ pageLeafLevel attr := Nat.le_add_left _ _
  have hl3 := Mmu.supportsLeaf_le hp.supported
  obtain ⟨hsize, hvirt⟩ := hp.aligned law hh
  have hblock := fun y => hhdmPage_block law hh hl3 hp.dvd (y := y)
  have hpos := entries_pow_pos mmu (pageLeafLevel attr - 1)
  have hc52 : c * 2 ^ mmu.pageSizeShift < 2 ^ 52 :=
    lt_of_lt_of_le (Nat.mul_lt_mul_of_pos_right (by have := hp.fits; omega) (Nat.two_pow_pos _))
      hlast
  have hcov := fun b hb => entryMap_block law hh attr (b := b) hl1 hl3 hp.dvd hc52 hb
  generalize hl : pageLeafLevel attr = leaf at *
  have hcin : c ∈ Set.Ico c (c + mmu.tableEntries ^ (leaf - 1)) := ⟨le_rfl, by omega⟩
  subst hl
  refine (pagingEarlyMapPage_spec law hmap h.inv hl3 hvirt hsize ?_).imp ?_
  · intro l w hl hr
    obtain ⟨a, ha, hpage⟩ := h.within _ l w hr
    obtain rfl : c = a := hinj (Or.inr hcin) (Or.inl ha) hpage
    obtain ⟨l', w', hr', hiff, -⟩ := h.mapped c ha
    have := hr'.level_eq hr
    exact hclear c hcin (hiff.mp (by omega))
  · rintro m' ⟨hgrown, hleaves⟩
    refine ⟨hgrown.inv, ?_, ?_⟩
    · intro b hb
      by_cases hbc : b ∈ Set.Ico c (c + mmu.tableEntries ^ (pageLeafLevel attr - 1))
      · refine ⟨_, _, (hleaves _ _ _).mpr ((if_pos ((hblock _).mpr ⟨b, hbc, rfl⟩)).mpr ⟨rfl, rfl⟩),
          ?_, _, hcov b hbc⟩
        exact ⟨fun h2 => Or.inr ⟨h2, hbc⟩, fun hL => (hL.resolve_left (hclear b hbc)).1⟩
      · have hbD := hb.resolve_right hbc
        obtain ⟨l, w, hr, hiff, hprot⟩ := h.mapped b hbD
        refine ⟨l, w, ?_, hiff.trans ⟨Or.inl, fun hL => hL.resolve_right fun hx => hbc hx.2⟩, hprot⟩
        rw [hleaves, if_neg]
        · exact hr
        · intro he
          obtain ⟨b', hb', heq⟩ := (hblock _).mp he
          exact hbc (hinj (Or.inl hbD) (Or.inr hb') heq ▸ hb')
    · intro x l w hr
      rw [hleaves] at hr
      split at hr
      · rename_i he
        obtain ⟨b, hb, heq⟩ := (hblock _).mp he
        exact ⟨b, Or.inr hb, heq⟩
      · obtain ⟨a, ha, heq⟩ := h.within x l w hr
        exact ⟨a, Or.inl ha, heq⟩

omit hmap hh in
/-- What every turn keeps, the loop keeps. -/
theorem hhdmLoop_rule {fuel : ℕ} (hflags : flags = pageKrw ∨ flags = pageKrwWc)
    (hlast : last * 2 ^ mmu.pageSizeShift ≤ 2 ^ 52) (P : ℕ → Early → Prop)
    (turn : ∀ c m attr, Picked mmu last c (pageLeafLevel attr) → P c m →
      Ensures NoBootMemory (pagingEarlyMapPage mmu map m root
        (toHhdm hhdm (c * 2 ^ mmu.pageSizeShift)) (c * 2 ^ mmu.pageSizeShift) attr)
          (P (c + mmu.tableEntries ^ (pageLeafLevel attr - 1))))
    (h : P c m) (hc : c ≤ last) (hfuel : last ≤ c + fuel) :
    Ensures NoBootMemory (hhdmLoop mmu map root hhdm flags (last * 2 ^ mmu.pageSizeShift) fuel m
      (c * 2 ^ mmu.pageSizeShift)) (P last) := by
  have hpos := Nat.two_pow_pos mmu.pageSizeShift
  induction fuel generalizing c m with
  | zero =>
    obtain rfl : c = last := by omega
    unfold hhdmLoop
    rw [if_neg (lt_irrefl _)]
    exact h
  | succ fuel ih =>
    unfold hhdmLoop
    rcases Nat.eq_or_lt_of_le hc with rfl | hlt
    · rw [if_neg (lt_irrefl _)]
      exact h
    · rw [if_pos (Nat.mul_lt_mul_of_pos_right hlt hpos)]
      have hp := hhdmLeaf_spec law hlt hlast
      generalize hhdmLeaf mmu (last * 2 ^ mmu.pageSizeShift) (c * 2 ^ mmu.pageSizeShift) = size at *
      have hattr : pageLeafLevel (flags ||| size) = size + 1 := by
        have := Mmu.supportsLeaf_le hp.supported
        obtain hs | hs | hs : size = 0 ∨ size = 1 ∨ size = 2 := by omega
        all_goals rcases hflags with hf | hf <;> rw [hs, hf] <;> rfl
      have hn := entries_pow_pos mmu (size + 1 - 1)
      have hfits := hp.fits
      have hbytes := Nat.mul_le_mul_right (2 ^ mmu.pageSizeShift) hfits
      rw [← hattr] at hp
      refine (turn c m _ hp h).bind fun m₁ h₁ => ?_
      rw [hattr] at h₁
      have hnext : wadd (c * 2 ^ mmu.pageSizeShift) (mmu.entrySize (size + 1)) =
          (c + mmu.tableEntries ^ (size + 1 - 1)) * 2 ^ mmu.pageSizeShift := by
        rw [entrySize_eq, wadd, ← Nat.add_mul]
        exact Nat.mod_eq_of_lt (lt_of_le_of_lt (hbytes.trans hlast) (by decide))
      rw [hnext]
      exact ih h₁ hfits (by omega)

omit law hmap hh in
theorem hhdmEntry_eq (he : e.Mapped) (hend : e.base + e.length ≤ 2 ^ 52)
    (hs : mmu.pageSizeShift ≤ 20) (m : Early) : ∃ first last,
      frames mmu e = Set.Ico first last ∧ first = e.base / 2 ^ mmu.pageSizeShift ∧ first ≤ last ∧
      last * 2 ^ mmu.pageSizeShift ≤ 2 ^ 52 ∧ hhdmEntry mmu map root hhdm m e =
        hhdmLoop mmu map root hhdm (hhdmFlags e) (last * 2 ^ mmu.pageSizeShift) (last - first) m
          (first * 2 ^ mmu.pageSizeShift) := by
  have hpos := Nat.two_pow_pos mmu.pageSizeShift
  have hpage : 2 ^ mmu.pageSizeShift ≤ 2 ^ 20 := Nat.pow_le_pow_right (by omega) hs
  have hword := word_eq
  have hiff : ∀ a, a * 2 ^ mmu.pageSizeShift < e.base + e.length ↔
      a < (e.base + e.length + (2 ^ mmu.pageSizeShift - 1)) / 2 ^ mmu.pageSizeShift := by
    intro a
    rw [Nat.lt_div_iff_mul_lt hpos]
    omega
  have hpow : 2 ^ 52 = 2 ^ (52 - mmu.pageSizeShift) * 2 ^ mmu.pageSizeShift := by
    rw [← Nat.pow_add, Nat.sub_add_cancel (by omega)]
  refine ⟨_, _, ?_, rfl, Nat.div_le_div_right (show e.base ≤ e.base + e.length +
    (2 ^ mmu.pageSizeShift - 1) by omega), ?_, ?_⟩
  · ext a
    simp only [frames, Set.mem_ofPred_eq, hiff, Set.mem_Ico]
  · rw [hpow] at hend ⊢
    exact Nat.mul_le_mul_right _ (not_lt.mp fun hlt => absurd ((hiff _).mpr hlt) (by omega))
  · unfold hhdmEntry
    rw [if_neg he.1, if_neg he.2]
    dsimp only
    rw [pageSize_eq, wadd_of_lt (by omega), alignDown_two_pow (by omega) (by omega),
      alignUp_two_pow (by omega), wadd_of_lt (by omega), ← Nat.sub_mul, Nat.mul_div_cancel _ hpos]

omit law hmap hh in
theorem hhdmEntry_skip (he : ¬ e.Mapped) (m : Early) : hhdmEntry mmu map root hhdm m e = .ok m := by
  unfold hhdmEntry
  by_cases hr : e.type = .reserved
  · rw [if_pos hr]
  · rw [if_neg hr, if_pos (not_not.mp fun hb => he ⟨hr, hb⟩)]

omit law hmap hh in
theorem hhdmFlags_eq (e : MemmapEntry) : hhdmFlags e = pageKrw ∨ hhdmFlags e = pageKrwWc := by
  unfold hhdmFlags
  split
  · exact Or.inr rfl
  · exact Or.inl rfl

omit hmap in
theorem hhdmEntry_logs (hend : e.Mapped → e.base + e.length ≤ 2 ^ 52) (hs : mmu.pageSizeShift ≤ 20)
    (m : Early) : Ensures NoBootMemory (hhdmEntry mmu map root hhdm m e) fun m' =>
      m.descents ⊆ m'.descents := by
  by_cases he : e.Mapped
  · obtain ⟨first, last, -, -, hle, h52, heq⟩ := hhdmEntry_eq he (hend he) hs m
    rw [heq]
    refine hhdmLoop_rule law (hhdmFlags_eq e) h52 (fun _ m' => m.descents ⊆ m'.descents) ?_
      (List.Subset.refl _) hle (by omega)
    intro c m₁ attr hp hm
    obtain ⟨hsize, hvirt⟩ := hp.aligned law hh
    exact (pagingEarlyMapPage_logs hvirt hsize m₁ root).imp fun _ hlogs =>
      List.Subset.trans hm hlogs
  · rw [hhdmEntry_skip he]
    exact List.Subset.refl _

theorem hhdmEntry_mirrors (h : Mirrors mmu map root hhdm D L m) (he : e.Mapped)
    (hend : e.base + e.length ≤ 2 ^ 52)
    (hinj : Set.InjOn (hhdmPage mmu hhdm) (D ∪ frames mmu e))
    (hclear : ∀ a ∈ frames mmu e, a ∉ L) :
    Ensures NoBootMemory (hhdmEntry mmu map root hhdm m e)
      (Mirrors mmu map root hhdm (D ∪ frames mmu e) (L ∪ {a | InLarge mmu (frames mmu e) a})) := by
  obtain ⟨first, last, hframes, -, hle, h52, heq⟩ := hhdmEntry_eq he hend hmap.shift m
  rw [hframes] at hinj hclear ⊢
  rw [heq]
  -- what is mapped and what is to come make up the whole
  refine (hhdmLoop_rule law (hhdmFlags_eq e) h52 (fun c m' => ∃ D' L',
    Mirrors mmu map root hhdm D' L' m' ∧ D' ∪ Set.Ico c last = D ∪ Set.Ico first last ∧
    L' ∪ {a | InLarge mmu (Set.Ico c last) a} = L ∪ {a | InLarge mmu (Set.Ico first last) a} ∧
    ∀ a ∈ Set.Ico c last, a ∉ L') ?_ ⟨D, L, h, rfl, rfl, hclear⟩ hle (by omega)).imp ?_
  · rintro c m₁ attr hp ⟨D', L', h', hD, hL, hc⟩
    have hfits := hp.fits
    have hunion : D' ∪ Set.Ico c (c + mmu.tableEntries ^ (pageLeafLevel attr - 1)) ∪
        Set.Ico (c + mmu.tableEntries ^ (pageLeafLevel attr - 1)) last =
          D ∪ Set.Ico first last := by
      rw [Set.union_assoc, Set.Ico_union_Ico_eq_Ico (Nat.le_add_right _ _) hfits, hD]
    refine (h'.step law hmap hh hp h52 (hinj.mono (hunion ▸ Set.subset_union_left))
      fun b hb => hc b ⟨hb.1, lt_of_lt_of_le hb.2 hfits⟩).imp fun m' h'' => ?_
    refine ⟨_, _, h'', hunion, ?_, ?_⟩
    · rw [← hL, Set.union_assoc]
      congr 1
      ext a
      exact hp.inLarge.symm
    · rintro a ⟨h1, h2⟩ (hin | ⟨-, hin⟩)
      · exact hc a ⟨by omega, h2⟩ hin
      · have := hin.2
        omega
  · rintro m' ⟨D', L', h', hD, hL, -⟩
    have hnone : {a | InLarge mmu (Set.Ico last last) a} = ∅ := by
      ext a
      simp only [Set.mem_ofPred_eq, Set.mem_empty_iff_false, iff_false]
      rintro ⟨l, -, -, hblock⟩
      have := hblock a rfl
      simp at this
    rw [Set.Ico_self, Set.union_empty] at hD
    rw [hnone, Set.union_empty] at hL
    rwa [← hD, ← hL]

/-- The first frame lies in a large leaf, and the entry maps it by a small one. -/
theorem hhdmEntry_follows (h : Mirrors mmu map root hhdm D L m) (he : e.Mapped)
    (hend : e.base + e.length ≤ 2 ^ 52) (ha : a ∈ frames mmu e)
    (hfirst : a = e.base / 2 ^ mmu.pageSizeShift) (hD : a ∈ D) (hL : a ∈ L)
    (hsmall : mmu.tableEntries ∣ a → a + 1 ∉ frames mmu e) :
    Ensures NoBootMemory (hhdmEntry mmu map root hhdm m e) (FollowedLeaf mmu) := by
  obtain ⟨first, last, hframes, hbase, hle, h52, heq⟩ := hhdmEntry_eq he hend hmap.shift m
  obtain rfl := hfirst.trans hbase.symm
  rw [hframes] at ha hsmall
  rw [heq]
  have hlast := ha.2
  refine (hhdmLoop_rule law (hhdmFlags_eq e) h52
    (fun c m' => c = a ∧ m' = m ∨ FollowedLeaf mmu m') ?_ (Or.inl ⟨rfl, rfl⟩) hle (by omega)).imp
    fun m' hm' => hm'.resolve_left fun hstart => by omega
  rintro c m₁ attr hp hm
  obtain ⟨hsize, hvirt⟩ := hp.aligned law hh
  rcases hm with ⟨rfl, rfl⟩ | hm
  · obtain ⟨l, w, hr, hiff, -⟩ := h.mapped c hD
    have h2 := hiff.mpr hL
    have hone : pageLeafLevel attr < 2 := by
      by_contra hlarge
      have hn : mmu.tableEntries ^ 1 ∣ mmu.tableEntries ^ (pageLeafLevel attr - 1) :=
        Nat.pow_dvd_pow _ (by omega)
      rw [Nat.pow_one] at hn
      have hpow := Nat.le_of_dvd (entries_pow_pos mmu _) hn
      have hfits := hp.fits
      have htwo := two_le_tableEntries law
      exact hsmall (hn.trans hp.dvd) ⟨by omega, by omega⟩
    refine (pagingEarlyMapPage_cases law hmap h.inv (Mmu.supportsLeaf_le hp.supported) hvirt
      hsize).imp fun m' hm' => Or.inr (hm'.2 fun hclear => ?_)
    exact hclear l w (by omega) hr.level_le hr
  · exact (pagingEarlyMapPage_logs hvirt hsize m₁ root).imp fun m' hlogs => Or.inr (hm.logs hlogs)

/-- The loop over the memory map up to some entry. -/
structure Progress (mmu : Mmu) (map : List MemmapEntry) (root hhdm : ℕ) (done : List MemmapEntry)
    (m : Early) : Prop where
  direct : Compatible mmu done → Mirrors mmu map root hhdm (mappedFrames mmu done)
    {a | ∃ e ∈ done, e.Mapped ∧ InLarge mmu (frames mmu e) a} m
  followed : Ordered done → ¬ Compatible mmu done → FollowedLeaf mmu m

omit law hmap hh in
theorem compatible_concat {done : List MemmapEntry} : Compatible mmu (done ++ [e]) ↔
    Compatible mmu done ∧ (e.Mapped → ∀ a ∈ frames mmu e,
      ¬ ∃ d ∈ done, d.Mapped ∧ InLarge mmu (frames mmu d) a) := by
  simp only [Compatible, List.pairwise_append, List.pairwise_singleton, true_and,
    List.mem_singleton, forall_eq, not_exists, not_and]
  exact and_congr_right fun _ =>
    ⟨fun h he a ha d hd hdm => h d hd hdm he a ha, fun h d hd hdm he a ha => h he a ha d hd hdm⟩

omit law hmap hh in
/-- Entries in order have at most the later one's first frame in common. -/
theorem shared_frame {d : MemmapEntry} (hbase : d.base ≤ e.base)
    (hdisjoint : ∀ a, ¬ (d.Holds a ∧ e.Holds a)) (hd : a ∈ frames mmu d) (he : a ∈ frames mmu e) :
    a = e.base / 2 ^ mmu.pageSizeShift := by
  refine le_antisymm ((Nat.le_div_iff_mul_le (Nat.two_pow_pos _)).mpr ?_) he.1
  have hd2 := hd.2
  have he2 := he.2
  have := hdisjoint e.base
  simp only [MemmapEntry.Holds, not_and, not_lt] at this
  omega

theorem hhdmEntry_spec (hend : e.Mapped → e.base + e.length ≤ 2 ^ 52)
    (h : Progress mmu map root hhdm done m)
    (hinj : Set.InjOn (hhdmPage mmu hhdm) (mappedFrames mmu (done ++ [e]))) :
    Ensures NoBootMemory (hhdmEntry mmu map root hhdm m e)
      (Progress mmu map root hhdm (done ++ [e])) := by
  by_cases he : e.Mapped
  · have hframes : mappedFrames mmu (done ++ [e]) = mappedFrames mmu done ∪ frames mmu e := by
      ext a
      simp [mappedFrames, or_and_right, exists_or, he]
    have hlarge : {a | ∃ d ∈ done ++ [e], d.Mapped ∧ InLarge mmu (frames mmu d) a} =
        {a | ∃ d ∈ done, d.Mapped ∧ InLarge mmu (frames mmu d) a} ∪
          {a | InLarge mmu (frames mmu e) a} := by
      ext a
      simp [or_and_right, exists_or, he]
    rw [hframes] at hinj
    by_cases hcompat : Compatible mmu (done ++ [e])
    · obtain ⟨hdone, hclear⟩ := compatible_concat.mp hcompat
      refine (hhdmEntry_mirrors law hmap hh (h.direct hdone) he (hend he) hinj (hclear he)).imp
        fun m' h' => ⟨fun _ => ?_, fun _ hn => absurd hcompat hn⟩
      rw [hframes, hlarge]
      exact h'
    · have hbad : Ensures NoBootMemory (hhdmEntry mmu map root hhdm m e) fun m' =>
          Ordered (done ++ [e]) → FollowedLeaf mmu m' := by
        by_cases ho : Ordered (done ++ [e])
        · obtain ⟨hold, -, hnew⟩ := List.pairwise_append.mp ho
          by_cases hdone : Compatible mmu done
          · obtain ⟨a, ha, d, hd, hdm, hin⟩ : ∃ a ∈ frames mmu e, ∃ d ∈ done, d.Mapped ∧
                InLarge mmu (frames mmu d) a := by
              by_contra hnone
              exact hcompat (compatible_concat.mpr ⟨hdone, fun _ a ha hx => hnone ⟨a, ha, hx⟩⟩)
            obtain ⟨hbase, hdisjoint⟩ := hnew d hd e List.mem_cons_self
            have hfirst := shared_frame hbase hdisjoint hin.mem ha
            refine (hhdmEntry_follows law hmap hh (h.direct hdone) he (hend he) ha hfirst
              ⟨d, hd, hdm, hin.mem⟩ ⟨d, hd, hdm, hin⟩ ?_).imp fun m' hm' _ => hm'
            -- the next frame would be shared as well
            intro hdvd hnext
            have := shared_frame hbase hdisjoint (hin.next law hdvd) hnext
            omega
          · exact (hhdmEntry_logs law hh hend hmap.shift m).imp fun m' hlogs _ =>
              (h.followed hold hdone).logs hlogs
        · exact (hhdmEntry_logs law hh hend hmap.shift m).imp fun m' _ hn => absurd hn ho
      exact hbad.imp fun m' hm' => ⟨fun hc => absurd hc hcompat, fun ho _ => hm' ho⟩
  · have hcompat : Compatible mmu (done ++ [e]) ↔ Compatible mmu done := by
      simp [compatible_concat, he]
    rw [hhdmEntry_skip he]
    constructor
    · intro hc
      have hm := h.direct (hcompat.mp hc)
      simpa [mappedFrames, or_and_right, exists_or, he] using hm
    · exact fun ho hc => h.followed (List.pairwise_append.mp ho).1 (mt hcompat.mpr hc)

end Loop

theorem preallocate_spec (law : mmu.Lawful) (hmap : BootMap mmu map) (slots : List ℕ)
    (hslots : ∀ i ∈ slots, i < mmu.tableEntries) (h : EarlyInv mmu map root m)
    (hnone : ∀ x l w, ¬ Resolves mmu m.mem root x l w) :
    Ensures NoBootMemory (slots.foldlM (preallocate mmu map root) m) fun m' =>
      EarlyInv mmu map root m' ∧ ∀ x l w, ¬ Resolves mmu m'.mem root x l w := by
  induction slots generalizing m with
  | nil => exact ⟨h, hnone⟩
  | cons i slots ih =>
    have htop := law.three_le_top
    have hi := hslots i List.mem_cons_self
    have hf : table mmu m.mem root 0 (i / mmu.tableEntries) = some root := by
      rw [Nat.div_eq_of_lt hi]
      rfl
    have hpointer : mmu.ptePresent (m.mem (root + i % mmu.tableEntries * 8)) = true →
        mmu.pteIsLeaf (m.mem (root + i % mmu.tableEntries * 8)) (mmu.topLevel - 0) = false := by
      intro hp
      rw [← Bool.not_eq_true]
      intro hl
      refine hnone (i * mmu.tableEntries ^ (mmu.topLevel - 1)) mmu.topLevel _
        ⟨by omega, le_rfl, ?_, hp, hl⟩
      rw [Nat.sub_self, Nat.mul_div_cancel _ (entries_pow_pos mmu _)]
      exact entry_of_table hf
    have hstep : Ensures NoBootMemory (preallocate mmu map root m i) fun m' =>
        EarlyInv mmu map root m' ∧ SameLeaves mmu root m.mem m'.mem := by
      have hnext := nextLevel_spec law hmap h hf (by omega) hpointer pageKrwx
      rw [pteAt, Nat.mod_eq_of_lt hi] at hnext
      exact hnext.bind fun r hr => ⟨hr.grown.inv, hr.leaves⟩
    rw [List.foldlM_cons]
    refine hstep.bind fun m₁ hm => ?_
    exact ih (fun j hj => hslots j (List.mem_cons_of_mem _ hj)) hm.1
      fun x l w hx => hnone x l w ((hm.2 x l w).mp hx)

theorem Fits.physical (hfits : Fits mmu map) : Physical map := fun e he hem => (hfits e he hem).1

theorem Physical.bootMap (hphys : Physical map) (hs : mmu.pageSizeShift ≤ 20) (ho : Separate map) :
    BootMap mmu map := by
  refine ⟨hs, ho, fun e he hu => hphys e he ?_⟩
  constructor <;> rw [hu] <;> decide

theorem Fits.below (hfits : Fits mmu map) (hs : mmu.pageSizeShift ≤ 20) (he : e ∈ map)
    (hem : e.Mapped) : e.base + e.length + 2 ^ mmu.pageSizeShift ≤ word := by
  have hend := (hfits e he hem).1
  have hpage : 2 ^ mmu.pageSizeShift ≤ 2 ^ 20 := Nat.pow_le_pow_right (by omega) hs
  have hword := word_eq
  omega

theorem root_spec (law : mmu.Lawful) (hmap : BootMap mmu map) (mem : ℕ → ℕ) :
    Ensures NoBootMemory (ballocPage mmu map ⟨ballocStart, mem, [], []⟩) fun r =>
      EarlyInv mmu map r.1 r.2 ∧ ∀ x l w, ¬ Resolves mmu r.2.mem r.1 x l w := by
  refine (ballocPage_spec hmap Boot.start).imp ?_
  rintro _ ⟨p, b, rfl, hboot, hframe, -⟩
  have hsize := pageSize_words law
  have hempty : ∀ i < mmu.tableEntries,
      mmu.ptePresent (zeroPage mmu.pageSizeShift mem p (p + i * 8)) = false := by
    intro i hi
    rw [zeroPage, if_pos (by omega), law.absent]
  refine ⟨⟨wellFormed_of_empty hempty hframe, hboot, ?_, by simp⟩, not_resolves_of_empty hempty⟩
  rintro f ⟨d, q, hf⟩
  rw [(table_of_empty hempty hf).2.2]
  exact List.mem_cons_self

theorem paged_shape (h : unpagedHhdm arch = false) (config : ℕ) :
    (arch.mmu config).pageSizeShift = 12 ∧ (arch.mmu config).entrySize 3 = 2 ^ 30 := by
  cases arch with
  | x86_64 | riscv64 => exact ⟨rfl, rfl⟩
  | loongarch64 size => cases h

theorem translate_toHhdm (law : mmu.Lawful) (hh : mmu.entrySize 3 ∣ hhdm) (mem : ℕ → ℕ) (a : ℕ) :
    translate mmu mem root (toHhdm hhdm (a * 2 ^ mmu.pageSizeShift)) =
      pageMap mmu mem root (hhdmPage mmu hhdm a) := by
  have hpage : 2 ^ mmu.pageSizeShift ∣ toHhdm hhdm (a * 2 ^ mmu.pageSizeShift) := by
    have hhpage : 2 ^ mmu.pageSizeShift ∣ hhdm := by
      rw [entrySize_eq] at hh
      exact (Nat.dvd_mul_left _ _).trans hh
    refine (Nat.dvd_mod_iff (Nat.pow_dvd_pow 2 ?_)).mpr (Nat.dvd_add (Nat.dvd_mul_left _ _) hhpage)
    have := law.span
    omega
  rw [translate_eq_pageMap, Nat.mod_eq_zero_of_dvd hpage]
  exact Option.map_id_apply

theorem Mirrors.direct (h : Mirrors mmu map root hhdm (mappedFrames mmu map) L m)
    (law : mmu.Lawful) (hh : mmu.entrySize 3 ∣ hhdm) : Direct mmu map hhdm root m := by
  refine ⟨fun a ha => ?_, h.inv.boot, h.inv.followed⟩
  obtain ⟨l, w, hr, -, hprot⟩ := h.mapped a ha
  rwa [translate_toHhdm law hh, hhdmPage, pageMap_of_resolves (pageNumber_lt _ _) hr]

theorem Direct.injOn (h : Direct mmu map hhdm root m) (law : mmu.Lawful)
    (hh : mmu.entrySize 3 ∣ hhdm) : Set.InjOn (hhdmPage mmu hhdm) (mappedFrames mmu map) := by
  intro a ha b hb hab
  obtain ⟨prot, hpa⟩ := h.mapped a ha
  obtain ⟨prot', hpb⟩ := h.mapped b hb
  rw [translate_toHhdm law hh] at hpa hpb
  rw [hab, hpb, Option.some.injEq, Prod.mk.injEq] at hpa
  exact (Nat.mul_right_cancel (Nat.two_pow_pos _) hpa.1).symm

theorem Direct.not_followed (h : Direct mmu map hhdm root m) : ¬ FollowedLeaf mmu m := by
  rintro ⟨x, hx, hleaf⟩
  rw [(h.followed x hx).pointer] at hleaf
  cases hleaf

theorem pagingInitHhdm_spec (hpaged : unpagedHhdm arch = false) (hc : arch.Levels config)
    (hmmu : mmu = arch.mmu config) (ho : Separate map) (hh : mmu.entrySize 3 ∣ hhdm)
    (hphys : Physical map) (mem : ℕ → ℕ) :
    Ensures NoBootMemory (pagingInitHhdm mmu map hhdm mem) fun r =>
      Set.InjOn (hhdmPage mmu hhdm) (mappedFrames mmu map) → Progress mmu map r.1 hhdm map r.2 := by
  have law : mmu.Lawful := hmmu ▸ Arch.lawful hc
  have hs : mmu.pageSizeShift = 12 := hmmu ▸ (paged_shape hpaged config).1
  have hmap : BootMap mmu map := hphys.bootMap (by omega) ho
  have hslots : ∀ i ∈ List.range' 256 256, i < mmu.tableEntries := by
    intro i hi
    have := entries_ge law
    rw [List.mem_range'] at hi
    omega
  unfold pagingInitHhdm
  refine (root_spec law hmap mem).bind ?_
  rintro ⟨root, m⟩ ⟨hinv, hnone⟩
  refine (preallocate_spec law hmap _ hslots hinv hnone).bind ?_
  rintro m₁ ⟨hinv₁, hnone₁⟩
  have hstart : Progress mmu map root hhdm [] m₁ := by
    refine ⟨fun _ => ⟨hinv₁, ?_, fun x l w hr => absurd hr (hnone₁ x l w)⟩, fun _ hn => ?_⟩
    · rintro a ⟨e, he, -⟩
      cases he
    · exact absurd List.Pairwise.nil hn
  refine (Ensures.foldlM_list (fun done m =>
    Set.InjOn (hhdmPage mmu hhdm) (mappedFrames mmu done) → Progress mmu map root hhdm done m)
    (fun _ => hstart) ?_).bind fun _ hm => hm
  intro done e rest heq m₂ hm
  have hend : e.Mapped → e.base + e.length ≤ 2 ^ 52 :=
    hphys e (by rw [List.nil_append] at heq; simp [heq])
  by_cases hinj : Set.InjOn (hhdmPage mmu hhdm) (mappedFrames mmu (done ++ [e]))
  · have hdone : Set.InjOn (hhdmPage mmu hhdm) (mappedFrames mmu done) := by
      refine hinj.mono ?_
      rintro a ⟨d, hd, hin⟩
      exact ⟨d, List.mem_append_left _ hd, hin⟩
    exact (hhdmEntry_spec law hmap hh hend (hm hdone) hinj).imp fun _ hnext _ => hnext
  · exact (hhdmEntry_logs law hh hend hmap.shift m₂).imp fun _ _ hn => absurd hn hinj

/-- After the loop over the memory map every frame that an entry touches is mapped to itself,
and every walk went down pointers to pages of the boot allocator, exactly if no two frames
share their page in the range of a top-level table and no entry is rounded into a large leaf
of an earlier one. -/
theorem hhdm_maps_memory {arch : Arch} {config : ℕ} (hpaged : unpagedHhdm arch = false)
    (hc : arch.Levels config) (hmmu : mmu = arch.mmu config) (ho : Ordered map)
    (hh : 2 ^ 30 ∣ hhdm) (hphys : Physical map) (mem : ℕ → ℕ) :
    Ensures NoBootMemory (pagingInitHhdm mmu map hhdm mem) fun r =>
      (Direct mmu map hhdm r.1 r.2 ↔
        Set.InjOn (· % span mmu) (mappedFrames mmu map) ∧ Compatible mmu map) := by
  have law : mmu.Lawful := hmmu ▸ Arch.lawful hc
  have hsize : mmu.entrySize 3 = 2 ^ 30 := hmmu ▸ (paged_shape hpaged config).2
  rw [← hsize] at hh
  have hpages : Set.InjOn (· % span mmu) (mappedFrames mmu map) ↔
      Set.InjOn (hhdmPage mmu hhdm) (mappedFrames mmu map) := by
    simp only [Set.InjOn, hhdmPage_eq_iff law hh]
  rw [hpages]
  refine (pagingInitHhdm_spec hpaged hc hmmu ho.separate hh hphys mem).imp fun r hr => ?_
  constructor
  · intro h
    have hinj := h.injOn law hh
    refine ⟨hinj, by_contra fun hn => ?_⟩
    exact h.not_followed ((hr hinj).followed ho hn)
  · rintro ⟨hinj, hcompat⟩
    exact ((hr hinj).direct hcompat).direct law hh

theorem Fits.injOn (hfits : Fits mmu map) (law : mmu.Lawful) (hh : mmu.entrySize 3 ∣ hhdm) :
    Set.InjOn (hhdmPage mmu hhdm) (mappedFrames mmu map) := by
  have hlt : ∀ a ∈ mappedFrames mmu map, a % span mmu = a := by
    rintro a ⟨e, he, hem, -, ha⟩
    exact Nat.mod_eq_of_lt (Nat.lt_of_mul_lt_mul_right (lt_of_lt_of_le ha (hfits e he hem).2))
  intro a ha b hb hab
  rwa [hhdmPage_eq_iff law hh, hlt a ha, hlt b hb] at hab

/-- The framebuffer lies beyond the range of a top-level table. -/
def aligned : List MemmapEntry :=
  [⟨0x200000, 0x200000, .usable⟩, ⟨0x400000, 100, .bootloaderReclaimable⟩,
    ⟨0x8000800000, 0x1000, .framebuffer⟩]

def shared : List MemmapEntry :=
  [⟨0x200000, 0x1fff9c, .usable⟩, ⟨0x3fff9c, 100, .bootloaderReclaimable⟩]

theorem aligned_mapped : ∃ r, pagingInitHhdm sv39 aligned 0xffffffc000000000 (fun _ => 0) = .ok r ∧
    ∀ a ∈ [0x400, 0x8000800], ∃ prot, translate sv39 r.2.mem r.1
      (toHhdm 0xffffffc000000000 (a * 2 ^ 12)) = some (a * 2 ^ 12, prot) := by
  obtain ⟨r, hr, -⟩ := returns_of_eval
    (show (pagingInitHhdm sv39 aligned 0xffffffc000000000 (fun _ => 0)).toOption.any
      (fun _ => true) = true by decide +kernel)
  have hframes : ∀ e a, a ∈ frames sv39 e ↔
      e.base / 2 ^ 12 ≤ a ∧ a * 2 ^ 12 < e.base + e.length := fun _ _ => Iff.rfl
  have hspan : span sv39 = 2 ^ 27 := rfl
  have ho : Ordered aligned := by
    simp only [Ordered, aligned, List.pairwise_cons, List.forall_mem_cons, MemmapEntry.Holds]
    refine ⟨⟨⟨?_, ?_⟩, ⟨?_, ?_⟩, ?_⟩, ⟨⟨?_, ?_⟩, ?_⟩, ?_⟩ <;> simp <;> omega
  have hphys : Physical aligned := by
    simp [Physical, aligned]
  have hcompat : Compatible sv39 aligned := by
    simp only [Compatible, aligned, List.pairwise_cons, List.forall_mem_cons]
    refine ⟨⟨?_, ?_, by simp⟩, ⟨?_, by simp⟩, by simp⟩
    all_goals
      intro _ _ a ha hlarge
      have hmem := hlarge.mem
      rw [hframes] at ha hmem
      dsimp only at ha hmem
      omega
  have hinj : Set.InjOn (· % span sv39) (mappedFrames sv39 aligned) := by
    have hcases : ∀ a ∈ mappedFrames sv39 aligned, 512 ≤ a ∧ a ≤ 1024 ∨ a = 0x8000800 := by
      rintro a ⟨e, he, -, ha⟩
      rw [hframes] at ha
      simp only [aligned, List.mem_cons, List.not_mem_nil, or_false] at he
      rcases he with rfl | rfl | rfl
      all_goals
        dsimp only at ha
        omega
    intro a ha b hb hab
    have := hcases a ha
    have := hcases b hb
    simp only [hspan] at hab
    omega
  have hoffset : 2 ^ 30 ∣ 0xffffffc000000000 := by decide
  have hlevels : Arch.riscv64.Levels sv39Config := ⟨by decide, by decide⟩
  have htouched : ∀ a ∈ [0x400, 0x8000800], a ∈ mappedFrames sv39 aligned := by
    simp [mappedFrames, aligned, hframes, MemmapEntry.Mapped]
  -- a named map keeps the run from being evaluated
  generalize aligned = map at *
  have hdirect := ((hhdm_maps_memory (show unpagedHhdm .riscv64 = false from rfl) hlevels
    (show sv39 = _ from rfl) ho hoffset hphys fun _ => 0).value hr).mpr ⟨hinj, hcompat⟩
  exact ⟨r, hr, fun a ha => hdirect.mapped a (htouched a ha)⟩

/-- The walk for the shared page takes the large leaf at `0x200000` for a table. The frame
is the root itself, whose last entry is overwritten by a leaf. -/
theorem large_leaf_followed : Ordered shared ∧ ∃ r,
    pagingInitHhdm sv39 shared 0xffffffc000000000 (fun _ => 0) = .ok r ∧
    (∃ x ∈ r.2.descents, sv39.pteIsLeaf x.entry x.level = true ∧ x.table = r.1) ∧
    translate sv39 r.2.mem r.1 0xffffffffc0000000 = some (0x3ff000, pageKrw) := by
  constructor
  · simp only [Ordered, shared, List.pairwise_cons, List.mem_singleton, forall_eq,
      MemmapEntry.Holds]
    exact ⟨⟨by omega, fun a => by omega⟩, by simp⟩
  · obtain ⟨r, hr, heval⟩ := returns_of_eval
      (show (pagingInitHhdm sv39 shared 0xffffffc000000000 (fun _ => 0)).toOption.any (fun r =>
        (r.2.descents.any fun x => sv39.pteIsLeaf x.entry x.level && x.table == r.1) &&
        translate sv39 r.2.mem r.1 0xffffffffc0000000 == some (0x3ff000, pageKrw)) = true
        by decide +kernel)
    simp only [Bool.and_eq_true, List.any_eq_true, beq_iff_eq] at heval
    exact ⟨r, hr, heval⟩

end ArchPagingInit
