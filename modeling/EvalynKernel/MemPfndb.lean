import EvalynKernel.ArchPagingKernel

/-! # The frame database (`pfndb_init`)

The database is an array of `page_t` in virtual memory, one for each frame up to the end of
memory. Only the pages that describe frames of mapped entries are backed by memory. The
entries are sorted by base but may nest and overlap; one high-water mark keeps a page from
being mapped twice. -/
namespace MemPfndb

open MachineWords MemPmm MemBalloc ArchPagingFormats ArchPagingEncoding ArchPaging
open ArchPagingTables ArchPagingEarly ArchPagingInit
open ArchPagingKernel LoaderElf

def pageTSize : ℕ := 8

def pfndbSize (mmu : Mmu) (lastPaddr : ℕ) : ℕ :=
  alignUp (pageTSize * (lastPaddr >>> mmu.pageSizeShift) % word) mmu.pageSize

def pfndbBase (unpaged : Bool) (hhdm vbase higherHalf lastPaddr size : ℕ) : Exec ℕ :=
  if unpaged then do
    kassert "VADDR_HIGHER_HALF_BASE + pfndb_size <= vbase" (decide (wadd higherHalf size ≤ vbase))
    .ok higherHalf
  else do
    let hhdmTop := wadd lastPaddr hhdm
    kassert "hhdm_base >= VADDR_HIGHER_HALF_BASE && vbase > hhdm_top"
      (decide (higherHalf ≤ hhdm) && decide (hhdmTop < vbase))
    let candidateA := wsub hhdm higherHalf
    let candidateB := wsub vbase hhdmTop
    if candidateB < candidateA then do
      kassert "candidateA >= pfndb_size" (decide (size ≤ candidateA))
      .ok higherHalf
    else do
      kassert "candidateB >= pfndb_size" (decide (size ≤ candidateB))
      .ok hhdmTop

/-- The machine and the variable `last_mapped`. The list is a ghost: the pages mapped with
their frames, newest first. -/
structure Filling where
  machine : Early
  lastMapped : ℕ
  mapped : List (ℕ × ℕ)

/-- `memset((void*)vaddr, 0, PAGE_SIZE)` through the kernel's page table. -/
def memsetPage (mmu : Mmu) (root : ℕ) (m : Early) (vaddr : ℕ) : Exec Early :=
  match translate mmu m.mem root vaddr with
  | none => .error (.panic "Page Fault")
  | some (paddr, _) => .ok { m with mem := zeroPage mmu.pageSizeShift m.mem paddr }

def mapMeta (mmu : Mmu) (map : List MemmapEntry) (root : ℕ) (s : Filling) (vaddr : ℕ) :
    Exec Filling := do
  let (paddr, m) ← ballocPage mmu map s.machine
  let m ← pagingEarlyMapPage mmu map m root vaddr paddr pageKrw
  let m ← memsetPage mmu root m vaddr
  .ok ⟨m, wadd vaddr mmu.pageSize, (vaddr, paddr) :: s.mapped⟩

def metaTurn (mmu : Mmu) (map : List MemmapEntry) (root length : ℕ) (s : Filling) (vaddr : ℕ) :
    Exec Filling :=
  if length = 0 then .ok s
  else if vaddr < s.lastMapped then .ok s
  else mapMeta mmu map root s vaddr

/-- The inner loop of `pfndb_init`. -/
def metaLoop (mmu : Mmu) (map : List MemmapEntry) (root length metaLast : ℕ) :
    ℕ → Filling → ℕ → Exec Filling
  | fuel, s, vaddr =>
    if vaddr ≤ metaLast then
      match fuel with
      | 0 => .error .fuel
      | fuel + 1 => do
        let s ← metaTurn mmu map root length s vaddr
        metaLoop mmu map root length metaLast fuel s (wadd vaddr mmu.pageSize)
    else .ok s

def pfndbEntry (mmu : Mmu) (map : List MemmapEntry) (root pfndb : ℕ) (s : Filling)
    (e : MemmapEntry) : Exec Filling :=
  if e.type = .reserved then .ok s
  else if e.type = .badMemory then .ok s
  else
    let startFrame := e.base >>> mmu.pageSizeShift
    let endFrame := wsub (wadd (wadd e.base e.length) mmu.pageSize) 1 >>> mmu.pageSizeShift
    let metaFirst := wadd pfndb (alignDown (startFrame * pageTSize % word) mmu.pageSize)
    let metaLast := wadd pfndb (alignDown (wsub (endFrame * pageTSize % word) 1) mmu.pageSize)
    metaLoop mmu map root e.length metaLast ((metaLast - metaFirst) / mmu.pageSize + 1) s metaFirst

/-- The address of the database, and what filling it leaves. -/
def pfndbInit (mmu : Mmu) (unpaged : Bool) (map : List MemmapEntry) (hhdm vbase higherHalf root : ℕ)
    (m : Early) : Exec (ℕ × Filling) := do
  let lastPaddr := memmapLastPaddr mmu map
  let pfndb ← pfndbBase unpaged hhdm vbase higherHalf lastPaddr (pfndbSize mmu lastPaddr)
  let s ← map.foldlM (pfndbEntry mmu map root pfndb) ⟨m, 0, []⟩
  .ok (pfndb, s)

def pfndbGetEntry (mmu : Mmu) (pfndb paddr : ℕ) : ℕ :=
  wadd pfndb ((paddr >>> mmu.pageSizeShift) * pageTSize % word)

variable {mmu : Mmu} {map : List MemmapEntry} {e : MemmapEntry} {s s' : Filling} {m m' : Early}
  {root base n first mark i j k : ℕ}

def metaPage (mmu : Mmu) (base k : ℕ) : ℕ := base + k * 2 ^ mmu.pageSizeShift

def firstPage (mmu : Mmu) (e : MemmapEntry) : ℕ :=
  e.base / 2 ^ mmu.pageSizeShift * pageTSize / 2 ^ mmu.pageSizeShift
def lastPage (mmu : Mmu) (e : MemmapEntry) : ℕ :=
  ((e.base + e.length - 1) / 2 ^ mmu.pageSizeShift * pageTSize + 7) / 2 ^ mmu.pageSizeShift

/-- The page is mapped to a frame of the boot allocator that holds zeros. -/
structure Record (mmu : Mmu) (root : ℕ) (m : Early) (x : ℕ × ℕ) : Prop where
  page : x.2 ∈ m.pages
  data : ¬ IsTable mmu m.mem root x.2
  leaf : Resolves mmu m.mem root (pageNumber mmu x.1) 1 (mmu.leafPte 1 x.2 pageKrw)
  zero : ∀ a, x.2 ≤ a → a < x.2 + 2 ^ mmu.pageSizeShift → m.mem a = 0

/-- The database has `n` pages. All pages from `first` below the mark are mapped, and none
above. -/
structure Filled (mmu : Mmu) (map : List MemmapEntry) (root base n first mark : ℕ) (s : Filling) :
    Prop where
  inv : EarlyInv mmu map root s.machine
  lastMapped : ∀ k, metaPage mmu base k < s.lastMapped ↔ k < mark
  below : ∀ x ∈ s.mapped, ∃ k < mark, k < n ∧ x.1 = metaPage mmu base k
  sorted : s.mapped.Pairwise fun x y => y.1 < x.1 ∧ x.2 ≠ y.2
  records : ∀ x ∈ s.mapped, Record mmu root s.machine x
  dense : ∀ k, first ≤ k → k < mark → ∃ x ∈ s.mapped, x.1 = metaPage mmu base k
  clear : ∀ k, mark ≤ k → k < n →
    ∀ l w, ¬ Resolves mmu s.machine.mem root (pageNumber mmu (metaPage mmu base k)) l w

theorem Record.mono (h : Record mmu root m x) (hgrown : Extends mmu map root m m')
    (hleaf : ∀ l w, Resolves mmu m.mem root (pageNumber mmu x.1) l w →
      Resolves mmu m'.mem root (pageNumber mmu x.1) l w) : Record mmu root m' x := by
  obtain ⟨hdata, hsame⟩ := hgrown.data _ h.page h.data
  exact ⟨hgrown.pages _ h.page, hdata, hleaf _ _ h.leaf,
    fun a h1 h2 => (hsame a h1 h2).trans (h.zero a h1 h2)⟩

theorem Filled.raise (h : Filled mmu map root base n first mark s) (hle : first ≤ j) :
    Filled mmu map root base n j mark s :=
  ⟨h.inv, h.lastMapped, h.below, h.sorted, h.records, fun k hk => h.dense k (hle.trans hk), h.clear⟩

theorem frame_lt (hs : 12 ≤ mmu.pageSizeShift) (ha : a < word) :
    a / 2 ^ mmu.pageSizeShift < 2 ^ 52 := by
  have hpage : 2 ^ 12 ≤ 2 ^ mmu.pageSizeShift := Nat.pow_le_pow_right (by omega) hs
  refine lt_of_le_of_lt (Nat.div_le_div_left hpage (by norm_num)) ?_
  exact Nat.div_lt_of_lt_mul (lt_of_lt_of_le ha (by norm_num))

section Region

/-- The pages of the database lie in the address space and have page numbers of their own. -/
structure Region (mmu : Mmu) (base n : ℕ) : Prop extends Upper mmu base where
  room : base + n * 2 ^ mmu.pageSizeShift < word

variable (hr : Region mmu base n)

include hr

theorem Region.metaPage_lt (hk : k < n) : metaPage mmu base k + 2 ^ mmu.pageSizeShift < word := by
  have hroom := hr.room
  have := Nat.mul_le_mul_right (2 ^ mmu.pageSizeShift) (show k + 1 ≤ n from hk)
  rw [Nat.add_mul, Nat.one_mul] at this
  unfold metaPage
  omega

theorem Region.next (hk : k < n) :
    wadd (metaPage mmu base k) mmu.pageSize = metaPage mmu base (k + 1) := by
  rw [pageSize_eq, wadd_of_lt (hr.metaPage_lt hk), metaPage, metaPage, Nat.add_mul, Nat.one_mul,
    Nat.add_assoc]

theorem Region.metaPage_dvd (k : ℕ) : 2 ^ mmu.pageSizeShift ∣ metaPage mmu base k :=
  Nat.dvd_add hr.aligned (Nat.dvd_mul_left _ _)

theorem Region.page_of (hs : mmu.pageSizeShift ≤ 64) (hx : x < word)
    (hn : x / 2 ^ mmu.pageSizeShift < n) :
    wadd base (alignDown x mmu.pageSize) = metaPage mmu base (x / 2 ^ mmu.pageSizeShift) := by
  have hlt := hr.metaPage_lt hn
  have hpos := Nat.two_pow_pos mmu.pageSizeShift
  unfold metaPage at hlt
  rw [pageSize_eq, alignDown_two_pow hx hs, wadd_of_lt (by omega)]
  rfl

theorem Region.getEntry_eq (hs : 12 ≤ mmu.pageSizeShift) (ha : a < word)
    (hn : a / 2 ^ mmu.pageSizeShift * pageTSize / 2 ^ mmu.pageSizeShift < n) :
    pfndbGetEntry mmu base a =
      metaPage mmu base (a / 2 ^ mmu.pageSizeShift * pageTSize / 2 ^ mmu.pageSizeShift) +
        a / 2 ^ mmu.pageSizeShift * pageTSize % 2 ^ mmu.pageSizeShift := by
  have hlt := hr.metaPage_lt hn
  have hword := word_eq
  have hframe := frame_lt hs ha
  rw [pfndbGetEntry, Nat.shiftRight_eq_div_pow,
    Nat.mod_eq_of_lt (show _ < word by unfold pageTSize; omega)]
  generalize a / 2 ^ mmu.pageSizeShift * pageTSize = x at *
  have hmod := Nat.div_add_mod x (2 ^ mmu.pageSizeShift)
  rw [Nat.mul_comm] at hmod
  unfold metaPage at hlt ⊢
  rw [wadd_of_lt (by omega)]
  omega

theorem Region.pageNumber_inj (hi : i < n) (hj : j < n)
    (h : pageNumber mmu (metaPage mmu base i) = pageNumber mmu (metaPage mmu base j)) : i = j := by
  have hpos := Nat.two_pow_pos mmu.pageSizeShift
  have hin : ∀ k < n, base ≤ metaPage mmu base k ∧ metaPage mmu base k < word := by
    intro k hk
    have := hr.metaPage_lt hk
    exact ⟨Nat.le_add_right _ _, by omega⟩
  have hpage := hr.page_inj (hin i hi).1 (hin i hi).2 (hin j hj).1 (hin j hj).2 h
  obtain ⟨b, hb⟩ := hr.aligned
  rw [metaPage, metaPage, hb, Nat.mul_comm _ b, ← Nat.add_mul, ← Nat.add_mul,
    Nat.mul_div_cancel _ hpos, Nat.mul_div_cancel _ hpos] at hpage
  omega

end Region

section Steps

variable (law : mmu.Lawful) (hmap : BootMap mmu map) (hr : Region mmu base n)

include law hmap hr

theorem mapMeta_spec (h : Filled mmu map root base n first mark s) (hk : mark ≤ k) (hkn : k < n)
    (hnear : k ≤ first ∨ k ≤ mark) :
    Ensures NoBootMemory (mapMeta mmu map root s (metaPage mmu base k)) fun s' =>
      Filled mmu map root base n first (k + 1) s' ∧ s.mapped ⊆ s'.mapped := by
  have hpos := Nat.two_pow_pos mmu.pageSizeShift
  have hsize := entrySize_one mmu
  unfold mapMeta
  refine (ballocPage_spec hmap h.inv.boot).bind ?_
  rintro _ ⟨p, b, rfl, hboot, hframe, hfresh⟩
  obtain ⟨hgrown₁, hleaves₁, hdata₁⟩ := extends_page law hmap h.inv hboot
  have hv : mmu.entrySize 1 ∣ metaPage mmu base k := hsize ▸ hr.metaPage_dvd k
  have hp : mmu.entrySize 1 ∣ p := hsize ▸ hframe.aligned
  refine (pagingEarlyMapPage_spec law hmap hgrown₁.inv (by decide) hv hp ?_).bind ?_
  · exact fun l w _ hres => h.clear k hk hkn l w ((hleaves₁ _ l w).mp hres)
  rintro m₂ ⟨hgrown₂, hleaves₂⟩
  obtain ⟨hdata₂, hsame₂⟩ := hgrown₂.data p List.mem_cons_self hdata₁
  have hzero : ∀ a, p ≤ a → a < p + 2 ^ mmu.pageSizeShift → m₂.mem a = 0 := by
    intro a h1 h2
    rw [hsame₂ a h1 h2]
    exact if_pos ⟨h1, h2⟩
  have hleaves : ∀ y l w, Resolves mmu m₂.mem root y l w ↔
      if y = pageNumber mmu (metaPage mmu base k) then l = 1 ∧ w = mmu.leafPte 1 p pageKrw
      else Resolves mmu s.machine.mem root y l w := by
    intro y l w
    have hlevel : pageLeafLevel pageKrw = 1 := by decide
    rw [hleaves₂, hlevel, Nat.sub_self, Nat.pow_zero, Nat.div_one, Nat.div_one]
    split
    · rfl
    · exact hleaves₁ y l w
  have hleaf := (hleaves _ 1 _).mpr ((if_pos rfl).mpr ⟨rfl, rfl⟩)
  -- the page is zeroed twice: the allocator has done it before `memset` does
  have hmemset : memsetPage mmu root m₂ (metaPage mmu base k) = .ok m₂ := by
    rw [memsetPage, hleaf.translate_leaf law (by decide) hp hframe.bounded,
      Nat.mod_eq_zero_of_dvd hv, Nat.add_zero]
    show Except.ok { m₂ with mem := zeroPage mmu.pageSizeShift m₂.mem p } = _
    have hsame : zeroPage mmu.pageSizeShift m₂.mem p = m₂.mem := by
      funext a
      rw [zeroPage]
      split
      · rename_i ha
        exact (hzero a ha.1 ha.2).symm
      · rfl
    rw [hsame]
  have hother : ∀ j, j < n → j ≠ k →
      pageNumber mmu (metaPage mmu base j) ≠ pageNumber mmu (metaPage mmu base k) :=
    fun j hj hne he => hne (hr.pageNumber_inj hj hkn he)
  rw [hmemset, ok_bind, hr.next hkn]
  refine ⟨⟨hgrown₂.inv, ?_, ?_, ?_, ?_, ?_, ?_⟩, fun x hx => List.mem_cons_of_mem _ hx⟩
  · intro j
    show base + j * _ < base + (k + 1) * _ ↔ j < k + 1
    rw [Nat.add_lt_add_iff_left, Nat.mul_lt_mul_right hpos]
  · intro x hx
    rcases List.mem_cons.mp hx with rfl | hx
    · exact ⟨k, by omega, hkn, rfl⟩
    · obtain ⟨j, hj, hjn, hxj⟩ := h.below x hx
      exact ⟨j, by omega, hjn, hxj⟩
  · refine List.pairwise_cons.mpr ⟨fun x hx => ?_, h.sorted⟩
    obtain ⟨j, hj, -, hxj⟩ := h.below x hx
    constructor
    · rw [hxj]
      show base + j * _ < base + k * _
      rw [Nat.add_lt_add_iff_left, Nat.mul_lt_mul_right hpos]
      omega
    · rintro rfl
      exact hfresh (h.records x hx).page
  · intro x hx
    rcases List.mem_cons.mp hx with rfl | hx
    · exact ⟨hgrown₂.pages p List.mem_cons_self, hdata₂, hleaf, hzero⟩
    · obtain ⟨j, hj, hjn, hxj⟩ := h.below x hx
      refine (h.records x hx).mono (hgrown₁.trans hgrown₂) fun l w hres => ?_
      rwa [hleaves, if_neg]
      rw [hxj]
      exact hother j hjn (by omega)
  · intro j h1 h2
    by_cases hjk : j = k
    · exact ⟨_, List.mem_cons_self, hjk ▸ rfl⟩
    · obtain ⟨x, hx, hxj⟩ := h.dense j h1 (by omega)
      exact ⟨x, List.mem_cons_of_mem _ hx, hxj⟩
  · intro j h1 h2 l w
    rw [hleaves, if_neg (hother j h2 (by omega))]
    exact h.clear j (by omega) h2 l w

theorem metaTurn_spec (hlength : length ≠ 0) (h : Filled mmu map root base n first mark s)
    (hkn : k < n) (hnear : k ≤ first ∨ k ≤ mark) :
    Ensures NoBootMemory (metaTurn mmu map root length s (metaPage mmu base k)) fun s' =>
      ∃ mark', Filled mmu map root base n first mark' s' ∧ s.mapped ⊆ s'.mapped ∧ mark ≤ mark' ∧
        k < mark' := by
  unfold metaTurn
  rw [if_neg hlength]
  by_cases hlt : k < mark
  · rw [if_pos ((h.lastMapped k).mpr hlt)]
    exact ⟨mark, h, List.Subset.refl _, le_rfl, hlt⟩
  · rw [if_neg (by rwa [h.lastMapped])]
    refine (mapMeta_spec law hmap hr h (by omega) hkn hnear).imp fun s' h' => ?_
    exact ⟨k + 1, h'.1, h'.2, by omega, by omega⟩

theorem metaLoop_spec (hlength : length ≠ 0) (h : Filled mmu map root base n first mark s)
    (hj : j < n) (hnear : k ≤ first ∨ k ≤ mark) (hfuel : j + 1 ≤ k + fuel) :
    Ensures NoBootMemory (metaLoop mmu map root length (metaPage mmu base j) fuel s
      (metaPage mmu base k)) fun s' => ∃ mark',
        Filled mmu map root base n first mark' s' ∧ s.mapped ⊆ s'.mapped ∧ mark ≤ mark' ∧
        (k ≤ j → j < mark') := by
  have hpos := Nat.two_pow_pos mmu.pageSizeShift
  have hle : ∀ k, metaPage mmu base k ≤ metaPage mmu base j ↔ k ≤ j := by
    intro k
    rw [metaPage, metaPage, Nat.add_le_add_iff_left, Nat.mul_le_mul_right_iff hpos]
  induction fuel generalizing k s mark with
  | zero =>
    unfold metaLoop
    rw [if_neg (by rw [hle]; omega)]
    exact ⟨mark, h, List.Subset.refl _, le_rfl, by omega⟩
  | succ fuel ih =>
    unfold metaLoop
    by_cases hkj : k ≤ j
    · rw [if_pos ((hle k).mpr hkj)]
      refine (metaTurn_spec law hmap hr hlength h (by omega) hnear).bind ?_
      rintro s₁ ⟨mark₁, h₁, hsub₁, hmark₁, hk₁⟩
      rw [hr.next (by omega)]
      refine (ih h₁ (Or.inr hk₁) (by omega)).imp ?_
      rintro s₂ ⟨mark₂, h₂, hsub₂, hmark₂, hj₂⟩
      exact ⟨mark₂, h₂, List.Subset.trans hsub₁ hsub₂, by omega, fun _ => by omega⟩
    · rw [if_neg (by rwa [hle])]
      exact ⟨mark, h, List.Subset.refl _, le_rfl, fun hle => absurd hle hkj⟩

omit law hmap in
theorem entry_pages (hs : 12 ≤ mmu.pageSizeShift) (hs20 : mmu.pageSizeShift ≤ 20)
    (hlen : 0 < e.length) (hend : e.base + e.length + 2 ^ mmu.pageSizeShift ≤ word)
    (hlast : lastPage mmu e < n) :
    firstPage mmu e ≤ lastPage mmu e ∧
      wadd base (alignDown ((e.base >>> mmu.pageSizeShift) * pageTSize % word) mmu.pageSize) =
        metaPage mmu base (firstPage mmu e) ∧
      wadd base (alignDown (wsub ((wsub (wadd (wadd e.base e.length) mmu.pageSize) 1 >>>
        mmu.pageSizeShift) * pageTSize % word) 1) mmu.pageSize) =
        metaPage mmu base (lastPage mmu e) := by
  have hpos := Nat.two_pow_pos mmu.pageSizeShift
  have hword := word_eq
  have hfirst := frame_lt hs (show e.base < word by omega)
  have hfinal := frame_lt hs (show e.base + e.length - 1 < word by omega)
  have hle : firstPage mmu e ≤ lastPage mmu e := by
    refine Nat.div_le_div_right ((Nat.mul_le_mul_right _ ?_).trans (Nat.le_add_right _ 7))
    exact Nat.div_le_div_right (by omega)
  have hround : e.base + e.length + 2 ^ mmu.pageSizeShift - 1 =
      e.base + e.length - 1 + 2 ^ mmu.pageSizeShift := by omega
  refine ⟨hle, ?_, ?_⟩
  · rw [Nat.shiftRight_eq_div_pow, Nat.mod_eq_of_lt (by unfold pageTSize; omega)]
    exact hr.page_of (by omega) (by unfold pageTSize; omega) (lt_of_le_of_lt hle hlast)
  · have hendframe : wsub (wadd (wadd e.base e.length) mmu.pageSize) 1 >>> mmu.pageSizeShift =
        (e.base + e.length - 1) / 2 ^ mmu.pageSizeShift + 1 := by
      rw [pageSize_eq, wadd_of_lt (show e.base + e.length < word by omega),
        wadd_wsub_one (by omega) hend,
        Nat.shiftRight_eq_div_pow, hround, Nat.add_div_right _ hpos]
    have hbyte : ∀ f < 2 ^ 52, wsub ((f + 1) * pageTSize % word) 1 = f * pageTSize + 7 := by
      intro f hf
      unfold pageTSize
      rw [Nat.mod_eq_of_lt (by omega), wsub_of_le (by omega) (by omega)]
      omega
    rw [hendframe, hbyte _ hfinal]
    exact hr.page_of (by omega) (by unfold pageTSize; omega) hlast

theorem pfndbEntry_spec (h : Filled mmu map root base n first mark s) (he : e.Mapped)
    (hlen : 0 < e.length) (hend : e.base + e.length + 2 ^ mmu.pageSizeShift ≤ word)
    (hlast : lastPage mmu e < n) (hsorted : first ≤ firstPage mmu e) :
    Ensures NoBootMemory (pfndbEntry mmu map root base s e) fun s' => ∃ mark',
      Filled mmu map root base n (firstPage mmu e) mark' s' ∧ s.mapped ⊆ s'.mapped ∧
      lastPage mmu e < mark' := by
  have hpos := Nat.two_pow_pos mmu.pageSizeShift
  obtain ⟨hle, hfirst, hfinal⟩ := entry_pages hr law.shift hmap.shift hlen hend hlast
  unfold pfndbEntry
  rw [if_neg he.1, if_neg he.2]
  dsimp only
  rw [hfirst, hfinal]
  have hfuel : lastPage mmu e + 1 ≤ firstPage mmu e +
      ((metaPage mmu base (lastPage mmu e) - metaPage mmu base (firstPage mmu e)) /
        mmu.pageSize + 1) := by
    rw [metaPage, metaPage, Nat.add_sub_add_left, ← Nat.sub_mul, pageSize_eq,
      Nat.mul_div_cancel _ hpos]
    omega
  refine (metaLoop_spec law hmap hr (by omega) (h.raise hsorted) hlast (Or.inl le_rfl) hfuel).imp ?_
  rintro s' ⟨mark', h', hsub, -, hmark⟩
  exact ⟨mark', h', hsub, hmark hle⟩

omit law hmap hr in
theorem pfndbEntry_skip (he : ¬ e.Mapped) (s : Filling) :
    pfndbEntry mmu map root base s e = .ok s := by
  unfold pfndbEntry
  by_cases hres : e.type = .reserved
  · rw [if_pos hres]
  · rw [if_neg hres, if_pos (not_not.mp fun hb => he ⟨hres, hb⟩)]

theorem pfndbEntries_spec (h : Filled mmu map root base n 0 0 s) (hlen : ∀ e ∈ map, 0 < e.length)
    (hend : ∀ e ∈ map, e.Mapped → e.base + e.length + 2 ^ mmu.pageSizeShift ≤ word)
    (hlast : ∀ e ∈ map, e.Mapped → lastPage mmu e < n)
    (hsorted : map.Pairwise fun e f => e.base ≤ f.base) :
    Ensures NoBootMemory (map.foldlM (pfndbEntry mmu map root base) s) fun s' => ∃ first mark,
      Filled mmu map root base n first mark s' ∧
      ∀ e ∈ map, e.Mapped → ∀ k, firstPage mmu e ≤ k → k ≤ lastPage mmu e →
        ∃ x ∈ s'.mapped, x.1 = metaPage mmu base k := by
  -- pages may still be missing below the first page of the entry that comes next
  refine (Ensures.foldlM_list (fun (done : List MemmapEntry) s' => ∃ first mark,
    Filled mmu map root base n first mark s' ∧
    (∀ f : MemmapEntry, (∀ d ∈ done, d.base ≤ f.base) → first ≤ firstPage mmu f) ∧
    ∀ e ∈ done, e.Mapped → ∀ k, firstPage mmu e ≤ k → k ≤ lastPage mmu e →
      ∃ x ∈ s'.mapped, x.1 = metaPage mmu base k)
    ⟨0, 0, h, fun _ _ => Nat.zero_le _, fun _ hd => absurd hd List.not_mem_nil⟩ ?_).imp
    fun s' ⟨first, mark, h', _, hcover⟩ => ⟨first, mark, h', hcover⟩
  rintro done e rest heq s₁ ⟨first₁, mark₁, h₁, hfirst, hcover⟩
  rw [List.nil_append] at heq
  have he : e ∈ map := by simp [heq]
  rw [heq, List.pairwise_append] at hsorted
  have hdone := fun d hd => hsorted.2.2 d hd e List.mem_cons_self
  by_cases hem : e.Mapped
  · refine (pfndbEntry_spec law hmap hr h₁ hem (hlen e he) (hend e he hem) (hlast e he hem)
      (hfirst e hdone)).imp ?_
    rintro s₂ ⟨mark₂, h₂, hsub, hmark⟩
    refine ⟨firstPage mmu e, mark₂, h₂, fun f hf => ?_, fun d hd hdm k h1 h2 => ?_⟩
    · exact Nat.div_le_div_right (Nat.mul_le_mul_right _ (Nat.div_le_div_right (hf e (by simp))))
    · rcases List.mem_append.mp hd with hd | hd
      · obtain ⟨x, hx, hxk⟩ := hcover d hd hdm k h1 h2
        exact ⟨x, hsub hx, hxk⟩
      · obtain rfl := List.mem_singleton.mp hd
        exact h₂.dense k h1 (by omega)
  · rw [pfndbEntry_skip hem]
    refine ⟨first₁, mark₁, h₁, fun f hf => hfirst f fun d hd => hf d (List.mem_append_left _ hd),
      fun d hd hdm => ?_⟩
    rcases List.mem_append.mp hd with hd | hd
    · exact hcover d hd hdm
    · exact absurd (List.mem_singleton.mp hd ▸ hdm) hem

theorem Record.reads (h : Record mmu root m x) (hinv : EarlyInv mmu map root m)
    (hx : x.1 = metaPage mmu base k) (hoffset : offset < 2 ^ mmu.pageSizeShift) : ∃ p,
      translate mmu m.mem root (metaPage mmu base k + offset) = some (p, mmu.protection pageKrw) ∧
      m.mem p = 0 := by
  have hpos := Nat.two_pow_pos mmu.pageSizeShift
  have hframe := (boot_frames hmap hinv.boot).2 x.2 h.page
  obtain ⟨b, hb⟩ := hr.metaPage_dvd k
  have hpage : pageNumber mmu (metaPage mmu base k + offset) = pageNumber mmu x.1 := by
    rw [hx, pageNumber, pageNumber, hb, Nat.mul_add_div hpos, Nat.div_eq_of_lt hoffset,
      Nat.add_zero, Nat.mul_div_cancel_left _ hpos]
  have hleaf := h.leaf
  rw [← hpage] at hleaf
  have hdvd : mmu.entrySize 1 ∣ x.2 := entrySize_one mmu ▸ hframe.aligned
  refine ⟨_, hleaf.translate_leaf law (by decide) hdvd hframe.bounded,
    h.zero _ (Nat.le_add_right _ _) ?_⟩
  rw [entrySize_one]
  exact Nat.add_lt_add_left (Nat.mod_lt _ hpos) _

end Steps

section Size

theorem pfndbSize_spec (hs : 12 ≤ mmu.pageSizeShift) (hs20 : mmu.pageSizeShift ≤ 20)
    (hend : ∀ e ∈ map, e.Mapped → e.base + e.length + 2 ^ mmu.pageSizeShift ≤ word) :
    2 ^ mmu.pageSizeShift ∣ memmapLastPaddr mmu map ∧ ∃ n,
      pfndbSize mmu (memmapLastPaddr mmu map) = n * 2 ^ mmu.pageSizeShift ∧
      ∀ e ∈ map, e.Mapped → 0 < e.length → lastPage mmu e < n := by
  have hpage' : 2 ^ mmu.pageSizeShift ≤ 2 ^ 20 := Nat.pow_le_pow_right (by omega) hs20
  have hword := word_eq
  obtain ⟨hdvd, hends⟩ := memmapLastPaddr_spec (by omega) hend
  have hlast : memmapLastPaddr mmu map < word := by
    rw [memmapLastPaddr, pageSize_eq]
    exact alignUp_lt (by omega)
  refine ⟨hdvd, ?_⟩
  generalize memmapLastPaddr mmu map = last at *
  have hframes := frame_lt hs hlast
  have hbytes : pageTSize * (last >>> mmu.pageSizeShift) % word =
      last / 2 ^ mmu.pageSizeShift * pageTSize := by
    rw [Nat.shiftRight_eq_div_pow, Nat.mul_comm, Nat.mod_eq_of_lt (by unfold pageTSize; omega)]
  obtain ⟨n, hn⟩ := dvd_alignUp (show mmu.pageSizeShift ≤ 64 by omega)
    (x := last / 2 ^ mmu.pageSizeShift * pageTSize)
  have hroom := (alignUp_bounds (show mmu.pageSizeShift ≤ 64 by omega)
    (show last / 2 ^ mmu.pageSizeShift * pageTSize + 2 ^ mmu.pageSizeShift ≤ word by
      unfold pageTSize; omega)).1
  rw [hn] at hroom
  refine ⟨n, by rw [pfndbSize, hbytes, pageSize_eq, hn, Nat.mul_comm], ?_⟩
  intro e he hem hlen
  have hlt : (e.base + e.length - 1) / 2 ^ mmu.pageSizeShift < last / 2 ^ mmu.pageSizeShift := by
    have := hends e he hem
    exact Nat.div_lt_div_of_lt_of_dvd hdvd (by omega)
  refine Nat.div_lt_of_lt_mul ?_
  unfold pageTSize at hroom ⊢
  omega

end Size

/-- The asserts that guard the choice of the base. -/
def NoRoom (e : Fault) : Prop :=
  e = .assertion "VADDR_HIGHER_HALF_BASE + pfndb_size <= vbase" ∨
  e = .assertion "hhdm_base >= VADDR_HIGHER_HALF_BASE && vbase > hhdm_top" ∨
  e = .assertion "candidateA >= pfndb_size" ∨ e = .assertion "candidateB >= pfndb_size"

/-- The database lies in the higher half below the kernel and outside the direct map. -/
theorem pfndbBase_spec (hv : vbase < word) (hunpaged : unpaged = true → higherHalf + size < word)
    (hpaged : unpaged = false → hhdm + last < word) :
    Ensures NoRoom (pfndbBase unpaged hhdm vbase higherHalf last size) fun base =>
      (base = higherHalf ∨ base = last + hhdm) ∧ higherHalf ≤ base ∧ base + size ≤ vbase ∧
      (unpaged = false → base + size ≤ hhdm ∨ hhdm + last ≤ base) := by
  unfold pfndbBase
  cases unpaged with
  | true =>
    have hfit := hunpaged rfl
    rw [if_pos rfl, wadd_of_lt hfit]
    refine (kassert_ensures (Or.inl rfl)).bind fun _ h => ?_
    have hle := of_decide_eq_true h
    exact ⟨Or.inl rfl, le_rfl, hle, by simp⟩
  | false =>
    have hfit := hpaged rfl
    rw [if_neg (by simp), wadd_of_lt (by omega)]
    refine (kassert_ensures (Or.inr (Or.inl rfl))).bind fun _ h => ?_
    obtain ⟨h1, h2⟩ := Bool.and_eq_true_iff.mp h
    have h1 := of_decide_eq_true h1
    have h2 := of_decide_eq_true h2
    dsimp only
    rw [wsub_of_le h1 (by omega), wsub_of_le (by omega) hv]
    split
    · refine (kassert_ensures (Or.inr (Or.inr (Or.inl rfl)))).bind fun _ h => ?_
      have hle := of_decide_eq_true h
      exact ⟨Or.inl rfl, le_rfl, by omega, fun _ => Or.inl (by omega)⟩
    · refine (kassert_ensures (Or.inr (Or.inr (Or.inr rfl)))).bind fun _ h => ?_
      have hle := of_decide_eq_true h
      exact ⟨Or.inr rfl, by omega, by omega, fun _ => Or.inr (by omega)⟩

/-- What `pfndb_init` starts from: below the kernel, only the direct map is in the higher half. -/
structure Ready (mmu : Mmu) (unpaged : Bool) (map : List MemmapEntry)
    (hhdm vbase higherHalf root : ℕ) (m : Early) : Prop where
  inv : EarlyInv mmu map root m
  clear : ∀ v, higherHalf ≤ v → v < vbase →
    (unpaged = false → v < hhdm ∨ hhdm + memmapLastPaddr mmu map ≤ v) →
    translate mmu m.mem root v = none

theorem ready_of_booted
    (h : Booted mmu unpaged map higherHalf hhdm (memmapLastPaddr mmu map) vbase root m)
    (hv : vbase < word) : Ready mmu unpaged map hhdm vbase higherHalf root m := by
  refine ⟨h.inv, fun v h1 h2 hout => translate_eq_none fun l w hr => ?_⟩
  rcases h.only v l w h1 (by omega) hr with ⟨hpaged, h3, h4⟩ | ⟨h3, -⟩
  · have := hout hpaged
    omega
  · omega

/-- Every frame of a mapped entry has its zeroed `page_t`, and no page of the database is
mapped twice, whatever way entries other than the usable ones overlap. -/
theorem pfndb_covers_frames {arch : Arch} {config valen split hhdm vbase : ℕ}
    (hc : arch.Levels config) (hmmu : mmu = arch.mmu config)
    (hsplit : vaddrSplitBit config valen arch = .ok split)
    (hsorted : map.Pairwise fun e f => e.base ≤ f.base) (hlen : ∀ e ∈ map, 0 < e.length)
    (hend : ∀ e ∈ map, e.Mapped → e.base + e.length + 2 ^ mmu.pageSizeShift ≤ word)
    (hmap : BootMap mmu map) (hh : 2 ^ mmu.pageSizeShift ∣ hhdm) (hv : vbase < word)
    (hunpaged : unpagedHhdm arch = true →
      vaddrHigherHalfBase split + pfndbSize mmu (memmapLastPaddr mmu map) < word)
    (hpaged : unpagedHhdm arch = false → hhdm + memmapLastPaddr mmu map < word)
    (h : Ready mmu (unpagedHhdm arch) map hhdm vbase (vaddrHigherHalfBase split) root m) :
    Ensures (fun e => NoBootMemory e ∨ NoRoom e)
      (pfndbInit mmu (unpagedHhdm arch) map hhdm vbase (vaddrHigherHalfBase split) root m) fun r =>
        (∀ e ∈ map, e.Mapped → ∀ a, e.Holds a → ∃ p,
          translate mmu r.2.machine.mem root (pfndbGetEntry mmu r.1 a) =
            some (p, mmu.protection pageKrw) ∧ r.2.machine.mem p = 0) ∧
        (r.2.mapped.map Prod.fst).Nodup ∧ (r.2.mapped.map Prod.snd).Nodup := by
  have law : mmu.Lawful := hmmu ▸ Arch.lawful hc
  obtain ⟨hupper, -⟩ := upper_of_split hc hsplit
  rw [← hmmu] at hupper
  have hpos := Nat.two_pow_pos mmu.pageSizeShift
  obtain ⟨hlast, n, hsize, hfit⟩ := pfndbSize_spec law.shift hmap.shift hend
  unfold pfndbInit
  refine ((pfndbBase_spec hv hunpaged hpaged).fault fun _ => Or.inr).bind ?_
  rintro base ⟨hbase, hlow, htop, houtside⟩
  have haligned : 2 ^ mmu.pageSizeShift ∣ base := by
    rcases hbase with rfl | rfl
    · exact hupper.aligned
    · exact Nat.dvd_add hlast hh
  have hr : Region mmu base n := ⟨hupper.mono hlow haligned, by omega⟩
  have hstart : Filled mmu map root base n 0 0 ⟨m, 0, []⟩ := by
    refine ⟨h.inv, by simp, by simp, List.Pairwise.nil, by simp, by omega, ?_⟩
    intro k _ hk l w hres
    have hin : metaPage mmu base k + 2 ^ mmu.pageSizeShift ≤ base + n * 2 ^ mmu.pageSizeShift := by
      have := Nat.mul_le_mul_right (2 ^ mmu.pageSizeShift) (show k + 1 ≤ n from hk)
      rw [Nat.add_mul, Nat.one_mul] at this
      unfold metaPage
      omega
    have hge : base ≤ metaPage mmu base k := Nat.le_add_right _ _
    have hnone := h.clear (metaPage mmu base k) (by omega) (by omega) fun hp => by
      have := houtside hp
      omega
    rw [translate_of_resolves hres] at hnone
    cases hnone
  refine ((pfndbEntries_spec law hmap hr hstart hlen hend
    (fun e he hem => hfit e he hem (hlen e he)) hsorted).fault fun _ => Or.inl).bind ?_
  rintro s ⟨first, mark, hs, hcover⟩
  refine ⟨?_, ?_, ?_⟩
  · rintro e he hem a ⟨h1, h2⟩
    have hframe : a / 2 ^ mmu.pageSizeShift ≤ (e.base + e.length - 1) / 2 ^ mmu.pageSizeShift :=
      Nat.div_le_div_right (by omega)
    have hlow : firstPage mmu e ≤
        a / 2 ^ mmu.pageSizeShift * pageTSize / 2 ^ mmu.pageSizeShift :=
      Nat.div_le_div_right (Nat.mul_le_mul_right _ (Nat.div_le_div_right h1))
    have hhigh : a / 2 ^ mmu.pageSizeShift * pageTSize / 2 ^ mmu.pageSizeShift ≤ lastPage mmu e :=
      Nat.div_le_div_right ((Nat.mul_le_mul_right _ hframe).trans (Nat.le_add_right _ 7))
    obtain ⟨x, hx, hxk⟩ := hcover e he hem _ hlow hhigh
    have haddr := hend e he hem
    rw [hr.getEntry_eq law.shift (by omega) (lt_of_le_of_lt hhigh (hfit e he hem (hlen e he)))]
    exact (hs.records x hx).reads law hmap hr hs.inv hxk (Nat.mod_lt _ hpos)
  · refine List.pairwise_map.mpr (hs.sorted.imp fun hxy => ?_)
    exact Nat.ne_of_gt hxy.1
  · exact List.pairwise_map.mpr (hs.sorted.imp fun hxy => hxy.2)

def la64 : Arch := .loongarch64 .kb4

def image : KernelImage :=
  ⟨0xffffffff80000000, 0x400000,
    [⟨elfProgPtLoadType, elfProgExecFlag, 0, 0xffffffff80000000, 0x1000, 0x1000⟩]⟩

def nested : List MemmapEntry :=
  [⟨0x100000, 0x40000, .usable⟩, ⟨0x108000, 0x1000, .acpiReclaimable⟩,
    ⟨0x400000, 0x1000, .executableAndModules⟩, ⟨0x10000000, 0x1000, .framebuffer⟩]

def doubled : List MemmapEntry :=
  [⟨0x100000, 0x4000, .usable⟩, ⟨0x100000, 0x10000, .usable⟩,
    ⟨0x400000, 0x1000, .executableAndModules⟩]

theorem nested_covered : ∃ root m base s,
    pagingInit la64 4 48 nested 0 image (fun _ => 0) =
      .ok (root, vaddrLowerHalfTop 47, vaddrHigherHalfBase 47, m) ∧
    pfndbInit (la64.mmu 4) true nested 0 image.virtualBase (vaddrHigherHalfBase 47) root m =
      .ok (base, s) ∧
    (∃ p, translate (la64.mmu 4) s.machine.mem root (pfndbGetEntry (la64.mmu 4) base 0x10000000) =
      some (p, (la64.mmu 4).protection pageKrw) ∧ s.machine.mem p = 0) ∧
    (s.mapped.map Prod.fst).Nodup := by
  obtain ⟨⟨root, top, half, m⟩, hinit, hrest⟩ := returns_of_eval
    (show (pagingInit la64 4 48 nested 0 image (fun _ => 0)).toOption.any (fun r =>
      (pfndbInit (la64.mmu 4) true nested 0 image.virtualBase (vaddrHigherHalfBase 47) r.1
        r.2.2.2).toOption.any fun _ => true) = true by decide +kernel)
  obtain ⟨⟨base, s⟩, hpfndb, -⟩ := returns_of_eval hrest
  have hsep : Separate nested := by simp [Separate, nested]
  have hsorted : nested.Pairwise fun e f => e.base ≤ f.base := by decide
  have hlen : ∀ e ∈ nested, 0 < e.length := by decide
  have hfits : Fits (la64.mmu 4) nested := by
    have hall : ∀ e ∈ nested, e.base + e.length ≤ 2 ^ 48 := by decide
    intro e he _
    have hspan : span (la64.mmu 4) * 2 ^ (la64.mmu 4).pageSizeShift = 2 ^ 48 := by decide
    have hend := hall e he
    exact ⟨by omega, by omega⟩
  have hlast : ⟨0x10000000, 0x1000, .framebuffer⟩ ∈ nested := by decide
  have hsize : vaddrHigherHalfBase 47 + pfndbSize (la64.mmu 4)
      (memmapLastPaddr (la64.mmu 4) nested) <
      word := by decide
  have hk : Loadable (la64.mmu 4) image := by
    refine ⟨by decide, by decide, by decide, by decide, ?_⟩
    simp only [image, List.mem_singleton, forall_eq]
    intro _
    refine ⟨by decide, ?_⟩
    rintro elfBase helf
    cases helf
    decide
  have hlevels : la64.Levels 4 := rfl
  have hsplit : vaddrSplitBit 4 48 la64 = .ok 47 := rfl
  have helf : elfIntrospectBase image.progHeaders = .ok 0xffffffff80000000 := rfl
  have hdirect : unpagedHhdm la64 = false → False := by decide
  -- a named map keeps the runs from being evaluated
  generalize nested = map at *
  obtain ⟨rfl, rfl, hbooted⟩ := (pagingInit_spec hlevels (show la64.mmu 4 = _ from rfl) hsplit hsep
    hfits (fun h => (hdirect h).elim) hk helf (by decide) fun _ => 0).value hinit
  have hready := ready_of_booted hbooted (by decide)
  have hshift : (la64.mmu 4).pageSizeShift ≤ 20 := by decide
  obtain ⟨hcover, hnodup, -⟩ := (pfndb_covers_frames hlevels (show la64.mmu 4 = _ from rfl) hsplit
    hsorted hlen (fun e he => hfits.below hshift he) (hfits.physical.bootMap hshift hsep)
      (Nat.dvd_zero _)
    (by decide) (fun _ => hsize) (fun h => (hdirect h).elim) hready).value hpfndb
  exact ⟨root, m, base, s, hinit, hpfndb,
    hcover _ hlast ⟨by decide, by decide⟩ 0x10000000 ⟨by decide, by decide⟩, hnodup⟩

/-- The boot allocator gives out the root table a second time, as the first page of the
database. Clearing the page clears the root. -/
theorem doubled_not_covered :
    (doubled.Pairwise fun e f => e.base ≤ f.base) ∧ (∀ e ∈ doubled, 0 < e.length) ∧
    ∃ root m base s, pagingInit la64 4 48 doubled 0 image (fun _ => 0) =
        .ok (root, vaddrLowerHalfTop 47, vaddrHigherHalfBase 47, m) ∧
      pfndbInit (la64.mmu 4) true doubled 0 image.virtualBase (vaddrHigherHalfBase 47) root m =
        .ok (base, s) ∧
      translate (la64.mmu 4) s.machine.mem root (pfndbGetEntry (la64.mmu 4) base 0x100000) =
        none := by
  refine ⟨by decide, by decide, ?_⟩
  obtain ⟨⟨root, top, half, m⟩, hinit, hrest⟩ := returns_of_eval
    (show (pagingInit la64 4 48 doubled 0 image (fun _ => 0)).toOption.any (fun r =>
      r.2.1 == vaddrLowerHalfTop 47 && r.2.2.1 == vaddrHigherHalfBase 47 &&
      (pfndbInit (la64.mmu 4) true doubled 0 image.virtualBase (vaddrHigherHalfBase 47) r.1
        r.2.2.2).toOption.any fun q => (translate (la64.mmu 4) q.2.machine.mem r.1
          (pfndbGetEntry (la64.mmu 4) q.1 0x100000)).isNone) = true by decide +kernel)
  simp only [Bool.and_eq_true, beq_iff_eq] at hrest
  obtain ⟨⟨rfl, rfl⟩, hrest⟩ := hrest
  obtain ⟨⟨base, s⟩, hpfndb, hnone⟩ := returns_of_eval hrest
  exact ⟨root, m, base, s, hinit, hpfndb, Option.isNone_iff_eq_none.mp hnone⟩

end MemPfndb
