import EvalynKernel.ArchPagingInit
import EvalynKernel.LoaderElf

/-! # The kernel's address space at boot (`paging_init`)

The higher half holds the direct map and, above it, the kernel. On loongarch64 the direct
map is not in the page tables. -/
namespace ArchPagingKernel

open MachineWords MemBalloc ArchPagingFormats ArchPagingEncoding ArchPaging
open ArchPagingTables ArchPagingEarly ArchPagingInit LoaderElf

/-- One turn of the loop of `limine_save_requests`. -/
def memmapEndStep (last : ℕ) (e : MemmapEntry) : ℕ :=
  if e.type = .reserved then last
  else if e.type = .badMemory then last
  else if last < wadd e.base e.length then wadd e.base e.length
  else last

def memmapLastPaddr (mmu : Mmu) (map : List MemmapEntry) : ℕ :=
  alignUp (map.foldl memmapEndStep 0) mmu.pageSize

def la64VaBits : Loongarch.PageSizeConfig → ℕ
  | .kb4 => 48
  | .kb16 => 47
  | .kb64 => 55

/-- `vaddr_split_bit`; `valen` is the width that `cpucfg` reports on loongarch64. -/
def vaddrSplitBit (config valen : ℕ) : Arch → Exec ℕ
  | .x86_64 | .riscv64 => .ok ((config &&& 7) * 9 + 12 - 1)
  | .loongarch64 size => do
    kassert "valen >= 39" (decide (39 ≤ valen))
    .ok (min (valen - 1) (la64VaBits size - 1))

def vaddrLowerHalfTop (split : ℕ) : ℕ := 2 ^ split - 1
def vaddrHigherHalfBase (split : ℕ) : ℕ := wsub 0 (2 ^ split)

structure KernelImage where
  virtualBase : ℕ
  physicalBase : ℕ
  progHeaders : List ElfProgramHeader
  deriving DecidableEq, Repr

def kernelFlags (ph : ElfProgramHeader) : ℕ :=
  pageR ||| pageG ||| (if hasFlag ph.flags elfProgWrite then pageW else 0) |||
    (if hasFlag ph.flags elfProgExecFlag then pageX else 0)

def kernelPage (mmu : Mmu) (map : List MemmapEntry) (root vbase pbase flags : ℕ) (m : Early)
    (p : ℕ) : Exec Early :=
  pagingEarlyMapPage mmu map m root (wadd vbase (p * mmu.pageSize)) (wadd pbase (p * mmu.pageSize))
    flags

def kernelSegment (mmu : Mmu) (map : List MemmapEntry) (root : ℕ) (k : KernelImage) (elfBase : ℕ)
    (m : Early) (ph : ElfProgramHeader) : Exec Early :=
  if ph.type ≠ elfProgPtLoadType then .ok m
  else
    let pages := alignUp ph.memSize mmu.pageSize / mmu.pageSize
    let vbase := wsub (wadd ph.virtAddr k.virtualBase) elfBase
    let pbase := wsub (wadd k.physicalBase ph.virtAddr) elfBase
    (List.range pages).foldlM (kernelPage mmu map root vbase pbase (kernelFlags ph)) m

/-- The root table, and the direct map where the architecture pages it. -/
def bootTables (arch : Arch) (config : ℕ) (map : List MemmapEntry) (hhdm : ℕ) (mem : ℕ → ℕ) :
    Exec (ℕ × Early) :=
  if unpagedHhdm arch then ballocPage (arch.mmu config) map ⟨ballocStart, mem, [], []⟩
  else pagingInitHhdm (arch.mmu config) map hhdm mem

/-- The kernel's page table, the top of the lower half, the base of the higher one, and the
machine. -/
def pagingInit (arch : Arch) (config valen : ℕ) (map : List MemmapEntry) (hhdm : ℕ)
    (k : KernelImage) (mem : ℕ → ℕ) : Exec (ℕ × ℕ × ℕ × Early) := do
  let mmu := arch.mmu config
  let split ← vaddrSplitBit config valen arch
  let (root, m) ← bootTables arch config map hhdm mem
  let elfBase ← elfIntrospectBase k.progHeaders
  let m ← k.progHeaders.foldlM (kernelSegment mmu map root k elfBase) m
  .ok (root, vaddrLowerHalfTop split, vaddrHigherHalfBase split, m)

variable {mmu : Mmu} {map : List MemmapEntry} {m m' : Early} {root base hhdm last vbase u v : ℕ}

structure Upper (mmu : Mmu) (base : ℕ) : Prop where
  aligned : 2 ^ mmu.pageSizeShift ∣ base
  window : word ≤ base + span mmu * 2 ^ mmu.pageSizeShift

theorem Upper.page_inj (h : Upper mmu base) (hu : base ≤ u) (hu' : u < word) (hv : base ≤ v)
    (hv' : v < word) (he : pageNumber mmu u = pageNumber mmu v) :
    u / 2 ^ mmu.pageSizeShift = v / 2 ^ mmu.pageSizeShift := by
  have hpos := Nat.two_pow_pos mmu.pageSizeShift
  have hwindow := h.window
  obtain ⟨b, hb⟩ := h.aligned
  have hpage : ∀ u, base ≤ u → u < word → ∃ i < span mmu, u / 2 ^ mmu.pageSizeShift = b + i := by
    intro u hu hu'
    refine ⟨(u - base) / 2 ^ mmu.pageSizeShift, Nat.div_lt_of_lt_mul ?_, ?_⟩
    · rw [Nat.mul_comm]
      omega
    · rw [hb] at hu ⊢
      obtain ⟨o, rfl⟩ := Nat.exists_eq_add_of_le hu
      rw [Nat.mul_add_div hpos, Nat.add_sub_cancel_left]
  obtain ⟨i, hi, hui⟩ := hpage u hu hu'
  obtain ⟨j, hj, hvj⟩ := hpage v hv hv'
  rw [pageNumber, pageNumber, hui, hvj] at he
  have hcancel : Nat.ModEq (span mmu) i j := Nat.ModEq.add_left_cancel' b he
  rw [Nat.ModEq, Nat.mod_eq_of_lt hi, Nat.mod_eq_of_lt hj] at hcancel
  rw [hui, hvj, hcancel]

theorem Upper.mono (h : Upper mmu base) (hle : base ≤ u) (hu : 2 ^ mmu.pageSizeShift ∣ u) :
    Upper mmu u := ⟨hu, h.window.trans (Nat.add_le_add_right hle _)⟩

variable {arch : Arch} {config valen split : ℕ}

theorem split_bounds (hc : arch.Levels config) (h : vaddrSplitBit config valen arch = .ok split) :
    (arch.mmu config).pageSizeShift < split ∧ split < 64 ∧
      2 ^ split ≤ span (arch.mmu config) * 2 ^ (arch.mmu config).pageSizeShift := by
  rw [span, tableEntries_eq, ← Nat.pow_mul, ← Nat.pow_add]
  suffices hb : (arch.mmu config).pageSizeShift < split ∧ split < 64 ∧ split ≤
      (arch.mmu config).pageIndexBits * (arch.mmu config).topLevel +
        (arch.mmu config).pageSizeShift from
    ⟨hb.1, hb.2.1, Nat.pow_le_pow_right (by omega) hb.2.2⟩
  cases arch with
  | x86_64 | riscv64 =>
    cases h
    obtain ⟨h3, h5⟩ := hc
    show 12 < _ ∧ _ ∧ _ ≤ 9 * (config &&& 7) + 12
    omega
  | loongarch64 size =>
    obtain ⟨_, hvalen, hsplit⟩ := bind_ok h
    have hvalen := of_decide_eq_true (kassert_eq_ok hvalen)
    cases hsplit
    show size.shift < _ ∧ _ ∧ _ ≤ (size.shift - 3) * (config &&& 7) + size.shift
    rw [hc]
    cases size <;> simp only [Loongarch.PageSizeConfig.shift, Loongarch.PageSizeConfig.pagingLevels,
      la64VaBits] <;> omega

theorem upper_of_split (hc : arch.Levels config) (h : vaddrSplitBit config valen arch = .ok split) :
    Upper (arch.mmu config) (vaddrHigherHalfBase split) ∧
      vaddrHigherHalfBase split = word - 2 ^ split := by
  obtain ⟨hshift, h64, hspan⟩ := split_bounds hc h
  have hlt : 2 ^ split < word := Nat.pow_lt_pow_right (by omega) h64
  have hhalf : vaddrHigherHalfBase split = word - 2 ^ split := by
    have := Nat.two_pow_pos split
    rw [vaddrHigherHalfBase, wsub, Nat.zero_add, Nat.mod_eq_of_lt (by omega)]
  refine ⟨⟨?_, by omega⟩, hhalf⟩
  rw [hhalf]
  exact Nat.dvd_sub (Nat.pow_dvd_pow 2 (by omega)) (Nat.pow_dvd_pow 2 hshift.le)

theorem foldl_memmapEnd (hb : bound < word) (rest : List MemmapEntry)
    (hend : ∀ e ∈ rest, e.Mapped → e.base + e.length ≤ bound) (hlast : last ≤ bound) :
    last ≤ rest.foldl memmapEndStep last ∧ rest.foldl memmapEndStep last ≤ bound ∧
      ∀ e ∈ rest, e.Mapped → e.base + e.length ≤ rest.foldl memmapEndStep last := by
  induction rest generalizing last with
  | nil => exact ⟨le_rfl, hlast, by simp⟩
  | cons e rest ih =>
    rw [List.foldl_cons]
    have hstep : last ≤ memmapEndStep last e ∧ memmapEndStep last e ≤ bound ∧
        (e.Mapped → e.base + e.length ≤ memmapEndStep last e) := by
      unfold memmapEndStep
      by_cases hr : e.type = .reserved
      · rw [if_pos hr]
        exact ⟨le_rfl, hlast, fun h => absurd hr h.1⟩
      by_cases hbad : e.type = .badMemory
      · rw [if_neg hr, if_pos hbad]
        exact ⟨le_rfl, hlast, fun h => absurd hbad h.2⟩
      have he := hend e List.mem_cons_self ⟨hr, hbad⟩
      rw [if_neg hr, if_neg hbad, wadd_of_lt (by omega)]
      split
      · exact ⟨by omega, he, fun _ => le_rfl⟩
      · exact ⟨le_rfl, hlast, fun _ => by omega⟩
    obtain ⟨h1, h2, h3⟩ := ih (fun f hf => hend f (List.mem_cons_of_mem _ hf)) hstep.2.1
    refine ⟨hstep.1.trans h1, h2, fun f hf hfm => ?_⟩
    rcases List.mem_cons.mp hf with rfl | hf
    · exact (hstep.2.2 hfm).trans h1
    · exact h3 f hf hfm

theorem memmapLastPaddr_spec (hs : mmu.pageSizeShift ≤ 64)
    (hend : ∀ e ∈ map, e.Mapped → e.base + e.length + 2 ^ mmu.pageSizeShift ≤ word) :
    2 ^ mmu.pageSizeShift ∣ memmapLastPaddr mmu map ∧
      ∀ e ∈ map, e.Mapped → e.base + e.length ≤ memmapLastPaddr mmu map := by
  have hpos := Nat.two_pow_pos mmu.pageSizeShift
  have hpage : 2 ^ mmu.pageSizeShift ≤ word := Nat.pow_le_pow_right (by omega) hs
  have hbound : ∀ e ∈ map, e.Mapped → e.base + e.length ≤ word - 2 ^ mmu.pageSizeShift := by
    intro e he hem
    have := hend e he hem
    omega
  obtain ⟨-, hmax, hends⟩ := foldl_memmapEnd (by omega) map hbound (Nat.zero_le _)
  have hup := alignUp_bounds hs
    (show map.foldl memmapEndStep 0 + 2 ^ mmu.pageSizeShift ≤ word by omega)
  rw [memmapLastPaddr, pageSize_eq]
  exact ⟨dvd_alignUp hs, fun e he hem => (hends e he hem).trans hup.1⟩

/-- The mapped addresses of the higher half are those of the direct map, which ends at
`hhdm + last`, and pages from the kernel's base on. -/
structure Booted (mmu : Mmu) (unpaged : Bool) (map : List MemmapEntry)
    (higherHalf hhdm last vbase root : ℕ) (m : Early) : Prop where
  inv : EarlyInv mmu map root m
  only : ∀ v l w, higherHalf ≤ v → v < word → Resolves mmu m.mem root (pageNumber mmu v) l w →
    (unpaged = false ∧ hhdm ≤ v ∧ v < hhdm + last) ∨ (vbase ≤ v ∧ l = 1)

structure Above (mmu : Mmu) (unpaged : Bool) (higherHalf hhdm last vbase : ℕ) : Prop where
  upper : Upper mmu higherHalf
  half : higherHalf ≤ vbase
  direct : unpaged = false → hhdm + last ≤ vbase

/-- The file's segments are made of pages, and their image ends in the address space. -/
structure Loadable (mmu : Mmu) (k : KernelImage) : Prop where
  virtualBase_lt : k.virtualBase < word
  virt : 2 ^ mmu.pageSizeShift ∣ k.virtualBase
  phys : 2 ^ mmu.pageSizeShift ∣ k.physicalBase
  pages : ∀ ph ∈ k.progHeaders, ph.type = elfProgPtLoadType → 2 ^ mmu.pageSizeShift ∣ ph.virtAddr
  ends : ∀ ph ∈ k.progHeaders, ph.type = elfProgPtLoadType → ph.virtAddr < word ∧
    ∀ elfBase, elfIntrospectBase k.progHeaders = .ok elfBase →
      k.virtualBase + (ph.virtAddr - elfBase) + ph.memSize + 2 ^ mmu.pageSizeShift ≤ word

theorem wsub_wadd (ha : a < word) (hc : c ≤ a) (hlt : b + (a - c) < word) :
    wsub (wadd a b) c = b + (a - c) := by
  by_cases hwrap : a + b < word
  · rw [wadd_of_lt hwrap, wsub_of_le (by omega) hwrap]
    omega
  · have hmod : wadd a b = a + b - word := by
      rw [wadd, Nat.mod_eq_sub_mod (by omega), Nat.mod_eq_of_lt (by omega)]
    rw [hmod, wsub, Nat.sub_add_cancel (by omega), Nat.mod_eq_of_lt (by omega)]
    omega

theorem dvd_wadd (hs : mmu.pageSizeShift ≤ 64) (hu : 2 ^ mmu.pageSizeShift ∣ u)
    (hv : 2 ^ mmu.pageSizeShift ∣ v) : 2 ^ mmu.pageSizeShift ∣ wadd u v :=
  (Nat.dvd_mod_iff (Nat.pow_dvd_pow 2 hs)).mpr (Nat.dvd_add hu hv)

theorem dvd_wsub (hs : mmu.pageSizeShift ≤ 64) (hu : 2 ^ mmu.pageSizeShift ∣ u)
    (hv : 2 ^ mmu.pageSizeShift ∣ v) : 2 ^ mmu.pageSizeShift ∣ wsub u v :=
  (Nat.dvd_mod_iff (Nat.pow_dvd_pow 2 hs)).mpr
    (Nat.dvd_sub (Nat.dvd_add hu (Nat.pow_dvd_pow 2 hs)) hv)

variable {k : KernelImage} {elfBase : ℕ}

section Kernel

variable {unpaged : Bool} {higherHalf : ℕ} (law : mmu.Lawful) (hmap : BootMap mmu map)
  (ha : Above mmu unpaged higherHalf hhdm last vbase)

include law hmap ha

theorem Booted.map_page (h : Booted mmu unpaged map higherHalf hhdm last vbase root m)
    (hu : vbase ≤ u) (hlt : u < word) (hdvd : 2 ^ mmu.pageSizeShift ∣ u)
    (hp : 2 ^ mmu.pageSizeShift ∣ paddr) (hattr : pageLeafLevel attr = 1) :
    Ensures NoBootMemory (pagingEarlyMapPage mmu map m root u paddr attr)
      (Booted mmu unpaged map higherHalf hhdm last vbase root) := by
  have hhalf := ha.half
  have hsize : mmu.entrySize (pageLeafLevel attr) = 2 ^ mmu.pageSizeShift := by
    rw [hattr, entrySize_one]
  refine (pagingEarlyMapPage_spec law hmap h.inv (by omega) (hsize ▸ hdvd) (hsize ▸ hp) ?_).imp ?_
  · intro l w hl hr
    rcases h.only u l w (by omega) hlt hr with ⟨hpaged, -, hbelow⟩ | ⟨-, hone⟩
    · have := ha.direct hpaged
      omega
    · omega
  · rintro m' ⟨hgrown, hleaves⟩
    refine ⟨hgrown.inv, fun v l w hv hv' hr => ?_⟩
    rw [hleaves, hattr, Nat.sub_self, Nat.pow_zero, Nat.div_one, Nat.div_one] at hr
    split at hr
    · rename_i he
      have hpage := ha.upper.page_inj hv hv' (hhalf.trans hu) hlt he
      refine Or.inr ⟨hu.trans ?_, hr.1⟩
      rw [← Nat.div_mul_cancel hdvd, ← hpage]
      exact Nat.div_mul_le_self _ _
    · exact h.only v l w hv hv' hr

theorem kernelSegment_spec (hk : Loadable mmu k) (hv : k.virtualBase = vbase)
    (helf : elfIntrospectBase k.progHeaders = .ok elfBase) (hph : ph ∈ k.progHeaders)
    (h : Booted mmu unpaged map higherHalf hhdm last vbase root m) :
    Ensures NoBootMemory (kernelSegment mmu map root k elfBase m ph)
      (Booted mmu unpaged map higherHalf hhdm last vbase root) := by
  have hpos := Nat.two_pow_pos mmu.pageSizeShift
  have hs : mmu.pageSizeShift ≤ 64 := hmap.shift.trans (by omega)
  unfold kernelSegment
  by_cases hload : ph.type = elfProgPtLoadType
  · rw [if_neg (not_not.mpr hload)]
    obtain ⟨⟨q, hq, hqload, hbase⟩, hle⟩ := elfIntrospectBase_spec helf
    obtain ⟨hword, hend⟩ := hk.ends ph hph hload
    have hend := hend elfBase helf
    have haligned : 2 ^ mmu.pageSizeShift ∣ elfBase := hbase ▸ hk.pages q hq hqload
    have hvirt := dvd_wsub hs (dvd_wadd hs (hk.pages ph hph hload) hk.virt) haligned
    have hphys := dvd_wsub hs (dvd_wadd hs hk.phys (hk.pages ph hph hload)) haligned
    rw [wsub_wadd hword (hle ph hph hload) (by omega)] at hvirt ⊢
    have hup := (alignUp_bounds hs (show ph.memSize + 2 ^ mmu.pageSizeShift ≤ word by omega)).2
    refine Ensures.foldlM h fun m p hp hm => ?_
    rw [List.mem_range, pageSize_eq, Nat.lt_div_iff_mul_lt hpos] at hp
    have hu : k.virtualBase + (ph.virtAddr - elfBase) + p * 2 ^ mmu.pageSizeShift < word := by
      omega
    unfold kernelPage
    rw [pageSize_eq, wadd_of_lt hu]
    refine hm.map_page law hmap ha (by omega) hu (Nat.dvd_add hvirt (Nat.dvd_mul_left _ _))
      (dvd_wadd hs hphys (Nat.dvd_mul_left _ _)) ?_
    unfold kernelFlags
    split <;> split <;> rfl
  · rw [if_pos hload]
    exact h

end Kernel

theorem booted_of_mirrors (hupper : Upper mmu higherHalf) (hh : mmu.entrySize 3 ∣ hhdm)
    (hhalf : higherHalf ≤ hhdm) (hlast : 2 ^ mmu.pageSizeShift ∣ last) (hroom : hhdm + last ≤ word)
    (hend : ∀ e ∈ map, e.Mapped → e.base + e.length ≤ last)
    (h : Mirrors mmu map root hhdm (mappedFrames mmu map) L m) :
    Booted mmu false map higherHalf hhdm last vbase root m := by
  refine ⟨h.inv, fun v l w hv hv' hr => Or.inl ⟨rfl, ?_⟩⟩
  have hpos := Nat.two_pow_pos mmu.pageSizeShift
  obtain ⟨a, ⟨e, he, hem, -, haend⟩, hav⟩ := h.within _ l w hr
  have halast : a * 2 ^ mmu.pageSizeShift < last := lt_of_lt_of_le haend (hend e he hem)
  rw [hhdmPage, toHhdm, wadd_of_lt (by omega)] at hav
  have hpage := hupper.page_inj (by omega) (by omega) hv hv' hav.symm
  have hdvd : 2 ^ mmu.pageSizeShift ∣ hhdm := by
    rw [entrySize_eq] at hh
    exact (Nat.dvd_mul_left _ _).trans hh
  obtain ⟨b, rfl⟩ := hdvd
  obtain ⟨c, rfl⟩ := hlast
  have hac : a + 1 ≤ c := by
    rw [Nat.mul_comm] at halast
    exact Nat.lt_of_mul_lt_mul_left halast
  have hac := Nat.mul_le_mul_left (2 ^ mmu.pageSizeShift) hac
  have hv := Nat.div_add_mod v (2 ^ mmu.pageSizeShift)
  rw [← hpage, Nat.mul_comm a, ← Nat.mul_add, Nat.mul_div_cancel_left _ hpos, Nat.mul_add] at hv
  rw [Nat.mul_add, Nat.mul_one] at hac
  omega

theorem pagingInit_spec (hc : arch.Levels config) (hmmu : mmu = arch.mmu config)
    (hsplit : vaddrSplitBit config valen arch = .ok split) (ho : Separate map)
    (hfits : Fits mmu map)
    (hdirect : unpagedHhdm arch = false → Compatible mmu map ∧ 2 ^ 30 ∣ hhdm ∧
      vaddrHigherHalfBase split ≤ hhdm ∧ hhdm + memmapLastPaddr mmu map ≤ k.virtualBase)
    (hk : Loadable mmu k) (helf : elfIntrospectBase k.progHeaders = .ok elfBase)
    (hhalf : vaddrHigherHalfBase split ≤ k.virtualBase) (mem : ℕ → ℕ) :
    Ensures NoBootMemory (pagingInit arch config valen map hhdm k mem) fun r =>
      r.2.1 = vaddrLowerHalfTop split ∧ r.2.2.1 = vaddrHigherHalfBase split ∧
      Booted mmu (unpagedHhdm arch) map (vaddrHigherHalfBase split) hhdm (memmapLastPaddr mmu map)
        k.virtualBase r.1 r.2.2.2 := by
  have law : mmu.Lawful := hmmu ▸ Arch.lawful hc
  obtain ⟨hupper, -⟩ := upper_of_split hc hsplit
  rw [← hmmu] at hupper
  have hs : mmu.pageSizeShift ≤ 16 := hmmu ▸ Arch.shift_le config arch
  have hmap : BootMap mmu map := hfits.physical.bootMap (by omega) ho
  have habove : Above mmu (unpagedHhdm arch) (vaddrHigherHalfBase split) hhdm
      (memmapLastPaddr mmu map) k.virtualBase :=
    ⟨hupper, hhalf, fun hp => (hdirect hp).2.2.2⟩
  have htables : Ensures NoBootMemory (bootTables arch config map hhdm mem) fun r =>
      Booted mmu (unpagedHhdm arch) map (vaddrHigherHalfBase split) hhdm (memmapLastPaddr mmu map)
        k.virtualBase r.1 r.2 := by
    unfold bootTables
    rw [← hmmu]
    cases hu : unpagedHhdm arch with
    | true =>
      refine (root_spec law hmap mem).imp ?_
      rintro ⟨root, m⟩ ⟨hinv, hnone⟩
      exact ⟨hinv, fun v l w _ _ hr => absurd hr (hnone _ l w)⟩
    | false =>
      obtain ⟨hcompat, hh, hlow, hroom⟩ := hdirect hu
      have hsize : mmu.entrySize 3 = 2 ^ 30 := hmmu ▸ (paged_shape hu config).2
      rw [← hsize] at hh
      obtain ⟨hlast, hends⟩ := memmapLastPaddr_spec (by omega) fun e he =>
        hfits.below (by omega) he
      refine (pagingInitHhdm_spec hu hc hmmu ho hh hfits.physical mem).imp fun r hr => ?_
      exact booted_of_mirrors hupper hh hlow hlast (by have := hk.virtualBase_lt; omega) hends
        ((hr (hfits.injOn law hh)).direct hcompat)
  unfold pagingInit
  rw [hsplit, ok_bind]
  rw [← hmmu]
  refine htables.bind ?_
  rintro ⟨root, m⟩ hm
  dsimp only
  rw [helf, ok_bind]
  refine (Ensures.foldlM hm fun m ph hph hm =>
    kernelSegment_spec law hmap habove hk rfl helf hph hm).bind ?_
  intro m' hm'
  exact ⟨rfl, rfl, hm'⟩

end ArchPagingKernel
