import EvalynKernel.ArchPagingSteps
import EvalynKernel.MemBalloc

/-! # Mapping pages during boot (`paging_early_map_page`)

Until the buddy allocator exists page tables come from the boot allocator and are never
freed. The walk down does not test for leaves: an entry that is present is taken for a
pointer, whatever its level. -/
namespace ArchPagingEarly

open Function MachineWords MemPmm MemBalloc ArchPagingFormats ArchPaging ArchPagingTables
open ArchPagingWrites ArchPagingSteps

def pageKrw : ℕ := pageR ||| pageW
def pageKrwx : ℕ := pageR ||| pageW ||| pageX
def pageKrwWc : ℕ := pageR ||| pageW ||| pageWc
def pageLarge : ℕ := 1
def pageGiant : ℕ := 2

/-- An entry that a walk followed, with its level and the table it was taken to point to. -/
structure Descent where
  level : ℕ
  entry : ℕ
  table : ℕ
  deriving DecidableEq, Repr

/-- The boot allocator and the words of physical memory. The lists are ghosts: the pages
given out and the entries followed, newest first. -/
structure Early where
  balloc : Balloc
  mem : ℕ → ℕ
  pages : List ℕ
  descents : List Descent

def Early.write (m : Early) (paddr w : ℕ) : Early :=
  { m with mem := Function.update m.mem paddr w }

def ballocPage (mmu : Mmu) (map : List MemmapEntry) (m : Early) : Exec (ℕ × Early) := do
  let (paddr, balloc) ← ballocAllocPage mmu.pageSizeShift map m.balloc
  .ok (paddr, { m with
    balloc := balloc
    mem := zeroPage mmu.pageSizeShift m.mem paddr
    pages := paddr :: m.pages })

def getNextLevelAndBumpAllocate (mmu : Mmu) (map : List MemmapEntry) (m : Early) (pte attr : ℕ) :
    Exec (ℕ × Early) :=
  if !mmu.ptePresent (m.mem pte) then do
    let (newTable, m) ← ballocPage mmu map m
    let entry := mmu.tablePte newTable attr
    .ok (mmu.decodePte entry, m.write pte entry)
  else .ok (mmu.decodePte (m.mem pte), m)

/-- The loop of `paging_early_map_page` from a table of the given level down to `leaf`. -/
def earlyDescend (mmu : Mmu) (map : List MemmapEntry) (vaddr leaf : ℕ) :
    ℕ → ℕ → Early → Exec (ℕ × Early)
  | 0, table, m => .ok (table, m)
  | level + 1, table, m =>
    if leaf < level + 1 then do
      let pte := pagingGetPte mmu table vaddr (level + 1)
      let (next, m) ← getNextLevelAndBumpAllocate mmu map m pte pageKrwx
      earlyDescend mmu map vaddr leaf level next
        { m with descents := ⟨level + 1, m.mem pte, next⟩ :: m.descents }
    else .ok (table, m)

def pagingEarlyMapPage (mmu : Mmu) (map : List MemmapEntry) (m : Early)
    (root vaddr paddr attr : ℕ) : Exec Early := do
  let leaf := pageLeafLevel attr
  kassert "IS_ALIGNED(vaddr, psz)" (isAligned vaddr (mmu.entrySize leaf))
  kassert "IS_ALIGNED(paddr, psz)" (isAligned paddr (mmu.entrySize leaf))
  let (table, m) ← earlyDescend mmu map vaddr leaf mmu.topLevel root m
  .ok (m.write (pagingGetPte mmu table vaddr leaf) (mmu.leafPte leaf paddr attr))

/-- What the boot code relies on: usable entries do not overlap and lie where page table
entries can point. -/
structure BootMap (mmu : Mmu) (map : List MemmapEntry) : Prop where
  shift : mmu.pageSizeShift ≤ 20
  separate : Separate map
  bounded : ∀ e ∈ map, e.type = .usable → e.base + e.length ≤ 2 ^ 52

structure Followed (mmu : Mmu) (pages : List ℕ) (x : Descent) : Prop where
  present : mmu.ptePresent x.entry = true
  pointer : mmu.pteIsLeaf x.entry x.level = false
  table : mmu.decodePte x.entry = x.table
  page : x.table ∈ pages

structure EarlyInv (mmu : Mmu) (map : List MemmapEntry) (root : ℕ) (m : Early) : Prop where
  wf : WellFormed mmu m.mem root
  boot : Boot mmu.pageSizeShift map m.pages m.balloc
  tables : ∀ f, IsTable mmu m.mem root f → f ∈ m.pages
  followed : ∀ x ∈ m.descents, Followed mmu m.pages x

variable {mmu : Mmu} {map : List MemmapEntry} {m m' m'' : Early} {root d g f vaddr leaf : ℕ}

theorem BootMap.belowTop (h : BootMap mmu map) : BelowTop mmu.pageSizeShift map := by
  have hpage : 2 ^ mmu.pageSizeShift ≤ 2 ^ 20 := Nat.pow_le_pow_right (by norm_num) h.shift
  have hword := word_eq
  intro e he hu
  have := h.bounded e he hu
  omega

/-- The pages of a list hold at least the tables of another memory and keep their words. -/
structure Extends (mmu : Mmu) (map : List MemmapEntry) (root : ℕ) (m m' : Early) : Prop where
  inv : EarlyInv mmu map root m'
  pages : ∀ p ∈ m.pages, p ∈ m'.pages
  data : ∀ p ∈ m.pages, ¬ IsTable mmu m.mem root p → ¬ IsTable mmu m'.mem root p ∧
    ∀ a, p ≤ a → a < p + 2 ^ mmu.pageSizeShift → m'.mem a = m.mem a

theorem Extends.refl (h : EarlyInv mmu map root m) : Extends mmu map root m m :=
  ⟨h, fun _ hp => hp, fun _ _ hn => ⟨hn, fun _ _ _ => rfl⟩⟩

theorem Extends.trans (h : Extends mmu map root m m') (h' : Extends mmu map root m' m'') :
    Extends mmu map root m m'' := by
  refine ⟨h'.inv, fun p hp => h'.pages p (h.pages p hp), fun p hp hn => ?_⟩
  obtain ⟨hn', hsame⟩ := h.data p hp hn
  obtain ⟨hn'', hsame'⟩ := h'.data p (h.pages p hp) hn'
  exact ⟨hn'', fun a h1 h2 => (hsame' a h1 h2).trans (hsame a h1 h2)⟩

def SameLeaves (mmu : Mmu) (root : ℕ) (mem mem' : ℕ → ℕ) : Prop :=
  ∀ x l w, Resolves mmu mem' root x l w ↔ Resolves mmu mem root x l w

theorem boot_frames (hmap : BootMap mmu map) (h : Boot mmu.pageSizeShift map pages b) :
    pages.Nodup ∧ ∀ p ∈ pages, mmu.IsFrame p := by
  rcases boot_given hmap.shift hmap.separate hmap.belowTop h with ⟨rfl, -⟩ | hg
  · simp
  refine ⟨hg.nodup, fun p hp => ?_⟩
  obtain ⟨e, he, hwhole⟩ := hg.whole p hp
  have hlow := hg.low p hp
  have hbound := hmap.bounded e he hwhole.usable
  have hbelow := hwhole.below
  have hpos := Nat.two_pow_pos mmu.pageSizeShift
  unfold lowMemory at hlow
  exact ⟨hwhole.aligned, by omega, by omega⟩

theorem ballocPage_spec (hmap : BootMap mmu map) (h : Boot mmu.pageSizeShift map m.pages m.balloc) :
    Ensures NoBootMemory (ballocPage mmu map m) fun r => ∃ p b,
      r = (p, ⟨b, zeroPage mmu.pageSizeShift m.mem p, p :: m.pages, m.descents⟩) ∧
      Boot mmu.pageSizeShift map (p :: m.pages) b ∧ mmu.IsFrame p ∧ p ∉ m.pages := by
  unfold ballocPage
  refine (ballocLoop_fault (Nat.le_add_left _ _)).bind_ok ?_
  rintro ⟨p, b⟩ hok -
  have hboot : Boot mmu.pageSizeShift map (p :: m.pages) b := h.alloc hok
  obtain ⟨hnodup, hframe⟩ := boot_frames hmap hboot
  exact ⟨p, b, rfl, hboot, hframe p List.mem_cons_self, (List.nodup_cons.mp hnodup).1⟩

theorem page_unique (hp : 2 ^ s ∣ p) (hq : 2 ^ s ∣ q) (h1 : p ≤ a ∧ a < p + 2 ^ s)
    (h2 : q ≤ a ∧ a < q + 2 ^ s) : p = q := by
  have hbase : ∀ p, 2 ^ s ∣ p → p ≤ a ∧ a < p + 2 ^ s → a / 2 ^ s * 2 ^ s = p := by
    rintro p ⟨k, rfl⟩ ⟨h1, h2⟩
    rw [Nat.mul_comm (2 ^ s) k] at h1 h2 ⊢
    rw [Nat.div_eq_of_lt_le h1 (by rw [Nat.add_mul]; omega)]
  rw [← hbase p hp h1, hbase q hq h2]

section

variable (law : mmu.Lawful) (hmap : BootMap mmu map) (h : EarlyInv mmu map root m)

include law hmap h

theorem extends_link (hl : Links mmu m.mem mem' root d g f p)
    (hboot : Boot mmu.pageSizeShift map (p :: m.pages) b) :
    Extends mmu map root m ⟨b, mem', p :: m.pages, m.descents⟩ := by
  obtain ⟨hnodup, hframes⟩ := boot_frames hmap hboot
  have hfresh := (List.nodup_cons.mp hnodup).1
  have hi := hl.isTable_iff law h.wf
  refine ⟨⟨hl.wellFormed law h.wf, hboot, ?_, ?_⟩, fun q hq => List.mem_cons_of_mem _ hq, ?_⟩
  · intro t ht
    rcases (hi t).mp ht with hold | rfl
    · exact List.mem_cons_of_mem _ (h.tables t hold)
    · exact List.mem_cons_self
  · intro x hx
    have hx := h.followed x hx
    exact ⟨hx.present, hx.pointer, hx.table, List.mem_cons_of_mem _ hx.page⟩
  · intro q hq hnq
    have hqframe := hframes q (List.mem_cons_of_mem _ hq)
    refine ⟨fun ht => ?_, fun a h1 h2 => hl.same a ?_ fun hpage => hfresh ?_⟩
    · rcases (hi q).mp ht with hold | rfl
      · exact hnq hold
      · exact hfresh hq
    · intro he
      have hfq := word_in_page law (h.wf.frame _ _ _ hl.parent) hqframe
        (Nat.mod_lt g (tableEntries_pos mmu)) he ⟨h1, h2⟩
      exact hnq (hfq ▸ ⟨d, _, hl.parent⟩)
    · exact page_unique hqframe.aligned hl.frame.aligned ⟨h1, h2⟩ hpage ▸ hq

/-- A page just given out is no table; its old words are lost. -/
theorem extends_page (hboot : Boot mmu.pageSizeShift map (p :: m.pages) b) :
    Extends mmu map root m ⟨b, zeroPage mmu.pageSizeShift m.mem p, p :: m.pages, m.descents⟩ ∧
      SameLeaves mmu root m.mem (zeroPage mmu.pageSizeShift m.mem p) ∧
      ¬ IsTable mmu (zeroPage mmu.pageSizeShift m.mem p) root p := by
  obtain ⟨hnodup, hframes⟩ := boot_frames hmap hboot
  have hfresh := (List.nodup_cons.mp hnodup).1
  have hsame : ∀ a, ¬ (p ≤ a ∧ a < p + 2 ^ mmu.pageSizeShift) →
      zeroPage mmu.pageSizeShift m.mem p a = m.mem a := fun a ha => if_neg ha
  have hkept := fun f i => kept_of_page law h.wf (hframes p List.mem_cons_self)
    (fun ht => hfresh (h.tables p ht)) hsame (f := f) (i := i)
  have htable := isTable_kept hkept
  refine ⟨⟨⟨wellFormed_kept hkept h.wf, hboot, ?_, ?_⟩, fun q hq => List.mem_cons_of_mem _ hq, ?_⟩,
    resolves_kept hkept, fun ht => hfresh (h.tables p ((htable p).mp ht))⟩
  · exact fun f hf => List.mem_cons_of_mem _ (h.tables f ((htable f).mp hf))
  · intro x hx
    have hx := h.followed x hx
    exact ⟨hx.present, hx.pointer, hx.table, List.mem_cons_of_mem _ hx.page⟩
  · intro q hq hnq
    refine ⟨fun ht => hnq ((htable q).mp ht), fun a h1 h2 => hsame a fun hp => hfresh ?_⟩
    have hqp := page_unique (hframes q (List.mem_cons_of_mem _ hq)).aligned
      (hframes p List.mem_cons_self).aligned ⟨h1, h2⟩ hp
    exact hqp ▸ hq

/-- Overwriting an entry by a leaf; the tables it cuts off are kept by nobody. -/
theorem extends_put (hf : table mmu m.mem root d (g / mmu.tableEntries) = some f)
    (hw : Plain mmu d w) : Extends mmu map root m (m.write (pteAt mmu f g) w) := by
  have htable : ∀ t, IsTable mmu (m.write (pteAt mmu f g) w).mem root t →
      IsTable mmu m.mem root t := fun t ⟨d', q', ht⟩ => ⟨d', q', table_of_cut law h.wf hf hw ht⟩
  refine ⟨⟨wellFormed_put law h.wf hf hw, h.boot, fun t ht => h.tables t (htable t ht), h.followed⟩,
    fun _ hp => hp, ?_⟩
  intro q hq hnq
  refine ⟨fun ht => hnq (htable q ht), fun a h1 h2 => update_of_ne ?_ _ _⟩
  intro he
  have hfq := word_in_page law (h.wf.frame _ _ _ hf) ((boot_frames hmap h.boot).2 q hq)
    (Nat.mod_lt g (tableEntries_pos mmu)) he ⟨h1, h2⟩
  exact hnq (hfq ▸ ⟨d, _, hf⟩)

end

structure Stepped (mmu : Mmu) (map : List MemmapEntry) (root : ℕ) (m : Early) (d g slot child : ℕ)
    (m' : Early) : Prop where
  grown : Extends mmu map root m m'
  leaves : SameLeaves mmu root m.mem m'.mem
  table : table mmu m'.mem root (d + 1) g = some child
  followed : Followed mmu m'.pages ⟨mmu.topLevel - d, m'.mem slot, child⟩

section Step

variable (law : mmu.Lawful) (hmap : BootMap mmu map) (h : EarlyInv mmu map root m)
  (hf : table mmu m.mem root d (g / mmu.tableEntries) = some f) (hd : d + 1 < mmu.topLevel)

include law hmap h hf hd

theorem nextLevel_absent (habsent : mmu.ptePresent (m.mem (pteAt mmu f g)) = false)
    (attr : ℕ) : Ensures NoBootMemory
      (getNextLevelAndBumpAllocate mmu map m (pteAt mmu f g) attr) fun r =>
        Stepped mmu map root m d g (pteAt mmu f g) r.1 r.2 := by
  unfold getNextLevelAndBumpAllocate
  rw [habsent, Bool.not_false, if_pos rfl]
  refine (ballocPage_spec hmap h.boot).bind ?_
  rintro _ ⟨p, b, rfl, hboot, hframe, hfresh⟩
  obtain ⟨hpres, hleaf, hdec⟩ := law.table (mmu.topLevel - d) p attr (by omega) hframe
  show Stepped mmu map root m d g _ (mmu.decodePte (mmu.tablePte p attr)) ⟨b, update
    (zeroPage mmu.pageSizeShift m.mem p) _ (mmu.tablePte p attr), p :: m.pages, m.descents⟩
  generalize hmem : update (zeroPage mmu.pageSizeShift m.mem p)
    (pteAt mmu f g) (mmu.tablePte p attr) = mem'
  obtain ⟨hlinks, hwords⟩ := links_new law h.wf attr hframe (fun ht => hfresh (h.tables p ht)) hf hd
    (child_eq_none.mpr (by simp [habsent])) (Nat.zero_le _) (w := fun _ => 0)
    (fun i hi => absurd hi (Nat.not_lt_zero i)) hmem.symm
  rw [hdec]
  constructor
  · exact extends_link law hmap h hlinks hboot
  · refine hlinks.resolves_iff law h.wf hd habsent fun i hi => ?_
    show mmu.ptePresent (mem' (p + i * 8)) = false
    rw [hwords i hi, if_neg (Nat.not_lt_zero i), law.absent]
  · show table mmu mem' root (d + 1) g = some p
    rw [hlinks.table_eq law h.wf, if_pos ⟨rfl, rfl⟩]
  · show Followed mmu (p :: m.pages) ⟨_, mem' _, p⟩
    rw [← hmem, update_self]
    exact ⟨hpres, hleaf, hdec, List.mem_cons_self⟩

theorem nextLevel_spec (hpointer : mmu.ptePresent (m.mem (pteAt mmu f g)) = true →
      mmu.pteIsLeaf (m.mem (pteAt mmu f g)) (mmu.topLevel - d) = false) (attr : ℕ) :
    Ensures NoBootMemory
      (getNextLevelAndBumpAllocate mmu map m (pteAt mmu f g) attr) fun r =>
        Stepped mmu map root m d g (pteAt mmu f g) r.1 r.2 := by
  cases hp : mmu.ptePresent (m.mem (pteAt mmu f g)) with
  | false => exact nextLevel_absent law hmap h hf hd hp attr
  | true =>
    unfold getNextLevelAndBumpAllocate
    rw [hp, Bool.not_true, if_neg Bool.false_ne_true]
    have hnext := (table_next hf).trans (child_eq_some.mpr ⟨hp, hpointer hp, rfl⟩)
    exact ⟨Extends.refl h, fun _ _ _ => Iff.rfl, hnext,
      ⟨hp, hpointer hp, rfl, h.tables _ ⟨_, _, hnext⟩⟩⟩

end Step

theorem EarlyInv.log (h : EarlyInv mmu map root m) (hx : Followed mmu m.pages x) :
    EarlyInv mmu map root { m with descents := x :: m.descents } := by
  refine ⟨h.wf, h.boot, h.tables, fun y hy => ?_⟩
  rcases List.mem_cons.mp hy with rfl | hy
  · exact hx
  · exact h.followed y hy

structure Descended (mmu : Mmu) (map : List MemmapEntry) (root : ℕ) (m : Early) (x leaf table : ℕ)
    (m' : Early) : Prop where
  grown : Extends mmu map root m m'
  leaves : SameLeaves mmu root m.mem m'.mem
  table : ArchPagingTables.table mmu m'.mem root (mmu.topLevel - leaf)
    (x / mmu.tableEntries ^ leaf) = some table

theorem nextLevel_logs (m : Early) (pte attr : ℕ) :
    Ensures NoBootMemory (getNextLevelAndBumpAllocate mmu map m pte attr) fun r =>
      r.2.descents = m.descents := by
  unfold getNextLevelAndBumpAllocate
  split
  · have hpage : Ensures NoBootMemory (ballocPage mmu map m) fun r => r.2.descents = m.descents :=
      (ballocLoop_fault (Nat.le_add_left _ _)).bind fun _ _ => rfl
    exact hpage.bind fun _ hr => hr
  · rfl

/-- Whatever the memory holds, a walk ends, and what was followed stays on record. -/
theorem earlyDescend_logs (k f : ℕ) (m : Early) :
    Ensures NoBootMemory (earlyDescend mmu map vaddr leaf k f m) fun r =>
      m.descents ⊆ r.2.descents := by
  induction k generalizing f m with
  | zero => exact List.Subset.refl _
  | succ k ih =>
    unfold earlyDescend
    split
    · refine (nextLevel_logs m _ _).bind ?_
      rintro ⟨next, m₁⟩ hlog
      refine (ih next _).imp fun r hr => ?_
      rw [← hlog]
      exact fun x hx => hr (List.mem_cons_of_mem _ hx)
    · exact List.Subset.refl _

/-- Some walk has taken a leaf for a pointer. -/
def FollowedLeaf (mmu : Mmu) (m : Early) : Prop :=
  ∃ x ∈ m.descents, mmu.pteIsLeaf x.entry x.level = true

theorem FollowedLeaf.logs (h : FollowedLeaf mmu m) (hsub : m.descents ⊆ m'.descents) :
    FollowedLeaf mmu m' := by
  obtain ⟨x, hx, hleaf⟩ := h
  exact ⟨x, hsub hx, hleaf⟩

/-- No leaf of a level above `leaf` up to `k` covers the page. -/
def Clear (mmu : Mmu) (mem : ℕ → ℕ) (root x leaf k : ℕ) : Prop :=
  ∀ l w, leaf < l → l ≤ k → ¬ Resolves mmu mem root x l w

/-- A walk builds the tables it lacks, or goes through the leaf that covers the page. -/
theorem earlyDescend_spec (law : mmu.Lawful) (hmap : BootMap mmu map) (hleaf : 1 ≤ leaf)
    (hlk : leaf ≤ k) (hk : k ≤ mmu.topLevel) (h : EarlyInv mmu map root m)
    (hf : table mmu m.mem root (mmu.topLevel - k) (pageNumber mmu vaddr / mmu.tableEntries ^ k) =
      some f) :
    Ensures NoBootMemory (earlyDescend mmu map vaddr leaf k f m) fun r =>
      (Clear mmu m.mem root (pageNumber mmu vaddr) leaf k →
        Descended mmu map root m (pageNumber mmu vaddr) leaf r.1 r.2) ∧
      (¬ Clear mmu m.mem root (pageNumber mmu vaddr) leaf k → FollowedLeaf mmu r.2) := by
  induction k generalizing f m with
  | zero => omega
  | succ k ih =>
    unfold earlyDescend
    by_cases hlt : leaf < k + 1
    · rw [if_pos hlt]
      have hlevel : mmu.topLevel - (mmu.topLevel - (k + 1)) = k + 1 := by omega
      have hdepth : mmu.topLevel - (k + 1) + 1 = mmu.topLevel - k := by omega
      rw [Nat.pow_succ, ← Nat.div_div_eq_div_mul] at hf
      have hentry := entry_of_table hf
      dsimp only
      rw [pagingGetPte_eq f _ (by omega) hk, Nat.add_sub_cancel]
      generalize hslot : pteAt mmu f (pageNumber mmu vaddr / mmu.tableEntries ^ k) = slot at *
      by_cases hhit : mmu.ptePresent (m.mem slot) = true ∧ mmu.pteIsLeaf (m.mem slot) (k + 1) = true
      · -- the entry is a leaf, and the walk goes on in the frame it maps
        have hr : Resolves mmu m.mem root (pageNumber mmu vaddr) (k + 1) (m.mem slot) :=
          ⟨by omega, hk, hentry, hhit.1, hhit.2⟩
        unfold getNextLevelAndBumpAllocate
        rw [hhit.1, Bool.not_true, if_neg Bool.false_ne_true, ok_bind]
        refine (earlyDescend_logs k _ _).imp fun r hlogs => ?_
        refine ⟨fun hclear => absurd hr (hclear _ _ hlt le_rfl), fun _ => ?_⟩
        exact ⟨_, hlogs List.mem_cons_self, hhit.2⟩
      · have hpointer : mmu.ptePresent (m.mem slot) = true →
            mmu.pteIsLeaf (m.mem slot) (mmu.topLevel - (mmu.topLevel - (k + 1))) = false := by
          intro hp
          rw [hlevel, ← Bool.not_eq_true]
          exact fun hl => hhit ⟨hp, hl⟩
        rw [← hslot] at hpointer hentry hhit ⊢
        refine (nextLevel_spec law hmap h hf (by omega) hpointer pageKrwx).bind ?_
        rintro ⟨next, m₁⟩ ⟨hgrown, hleaves, htable, hfollowed⟩
        rw [hlevel] at hfollowed
        rw [hdepth] at htable
        have hsame : Clear mmu m.mem root (pageNumber mmu vaddr) leaf (k + 1) ↔
            Clear mmu m₁.mem root (pageNumber mmu vaddr) leaf k := by
          refine ⟨fun hc l w hl hlk hr => hc l w hl (by omega) ((hleaves _ l w).mp hr), ?_⟩
          intro hc l w hl hlk hr
          rcases Nat.lt_or_eq_of_le hlk with hlk | rfl
          · exact hc l w hl (by omega) ((hleaves _ l w).mpr hr)
          · obtain rfl : _ = w := Option.some.inj (hentry.symm.trans hr.entry)
            exact hhit ⟨hr.present, hr.leaf⟩
        rw [hsame]
        refine (ih (by omega) (by omega) (hgrown.inv.log hfollowed) htable).imp ?_
        rintro r ⟨hdown, hbad⟩
        refine ⟨fun hc => ?_, hbad⟩
        obtain ⟨hgrown', hleaves', htable'⟩ := hdown hc
        refine ⟨hgrown.trans ⟨hgrown'.inv, hgrown'.pages, hgrown'.data⟩, fun x l w => ?_, htable'⟩
        exact (hleaves' x l w).trans (hleaves x l w)
    · rw [if_neg hlt]
      obtain rfl : leaf = k + 1 := by omega
      refine ⟨fun _ => ⟨Extends.refl h, fun _ _ _ => Iff.rfl, hf⟩, fun hc => absurd ?_ hc⟩
      intro l w h1 h2
      omega

/-- What a call leaves: the new leaf for the pages of its entry, the old ones for the rest. -/
structure EarlyMapped (mmu : Mmu) (map : List MemmapEntry) (root : ℕ) (m : Early)
    (x leaf pte : ℕ) (m' : Early) : Prop where
  grown : Extends mmu map root m m'
  leaves : ∀ y l w, Resolves mmu m'.mem root y l w ↔
    if y / mmu.tableEntries ^ (leaf - 1) = x / mmu.tableEntries ^ (leaf - 1) then l = leaf ∧ w = pte
    else Resolves mmu m.mem root y l w

theorem pagingEarlyMapPage_eq (hv : mmu.entrySize (pageLeafLevel attr) ∣ vaddr)
    (hp : mmu.entrySize (pageLeafLevel attr) ∣ paddr) (m : Early) (root : ℕ) :
    pagingEarlyMapPage mmu map m root vaddr paddr attr =
      (earlyDescend mmu map vaddr (pageLeafLevel attr) mmu.topLevel root m).bind fun r =>
        .ok (r.2.write (pagingGetPte mmu r.1 vaddr (pageLeafLevel attr))
          (mmu.leafPte (pageLeafLevel attr) paddr attr)) := by
  simp only [pagingEarlyMapPage, (aligned_entrySize _ _).mpr hv, (aligned_entrySize _ _).mpr hp,
    kassert_true, ok_bind]
  rfl

theorem pagingEarlyMapPage_logs (hv : mmu.entrySize (pageLeafLevel attr) ∣ vaddr)
    (hp : mmu.entrySize (pageLeafLevel attr) ∣ paddr) (m : Early) (root : ℕ) :
    Ensures NoBootMemory (pagingEarlyMapPage mmu map m root vaddr paddr attr) fun m' =>
      m.descents ⊆ m'.descents := by
  rw [pagingEarlyMapPage_eq hv hp]
  exact (earlyDescend_logs _ _ _).bind fun r hr => hr

theorem pagingEarlyMapPage_cases (law : mmu.Lawful) (hmap : BootMap mmu map)
    (h : EarlyInv mmu map root m) (hattr : pageLeafLevel attr ≤ 3)
    (hv : mmu.entrySize (pageLeafLevel attr) ∣ vaddr)
    (hp : mmu.entrySize (pageLeafLevel attr) ∣ paddr) :
    Ensures NoBootMemory (pagingEarlyMapPage mmu map m root vaddr paddr attr) fun m' =>
      (Clear mmu m.mem root (pageNumber mmu vaddr) (pageLeafLevel attr) mmu.topLevel →
        EarlyMapped mmu map root m (pageNumber mmu vaddr) (pageLeafLevel attr)
          (mmu.leafPte (pageLeafLevel attr) paddr attr) m') ∧
      (¬ Clear mmu m.mem root (pageNumber mmu vaddr) (pageLeafLevel attr) mmu.topLevel →
        FollowedLeaf mmu m') := by
  have h1 : 1 ≤ pageLeafLevel attr := Nat.le_add_left _ _
  have htop := law.three_le_top
  rw [pagingEarlyMapPage_eq hv hp]
  generalize pageLeafLevel attr = leaf at *
  have hroot : table mmu m.mem root (mmu.topLevel - mmu.topLevel)
      (pageNumber mmu vaddr / mmu.tableEntries ^ mmu.topLevel) = some root := by
    rw [Nat.sub_self]
    exact table_root m.mem root (pageNumber_lt mmu vaddr)
  refine (earlyDescend_spec law hmap h1 (by omega) le_rfl h hroot).bind ?_
  rintro ⟨f, m₁⟩ ⟨hdown, hbad⟩
  refine ⟨fun hclear => ?_, fun hc => (hbad hc).logs (List.Subset.refl _)⟩
  obtain ⟨hgrown, hleaves, hf⟩ := hdown hclear
  have hpow : pageNumber mmu vaddr / mmu.tableEntries ^ leaf =
      pageNumber mmu vaddr / mmu.tableEntries ^ (leaf - 1) / mmu.tableEntries := by
    rw [Nat.div_div_eq_div_mul, ← Nat.pow_succ, Nat.succ_eq_add_one, Nat.sub_add_cancel h1]
  have hlevel : mmu.topLevel - (mmu.topLevel - leaf) = leaf := by omega
  have hplain := plain_leafPte law attr h1 hattr hp
  rw [hpow] at hf
  rw [pagingGetPte_eq f _ h1 (by omega)]
  have hput := hgrown.trans (extends_put law hmap hgrown.inv hf hplain)
  refine ⟨hput, fun y l w => ?_⟩
  show Resolves mmu (update _ _ _) root y l w ↔ _
  rw [resolves_put law hgrown.inv.wf hf hplain (by omega), hlevel, hleaves]
  simp only [(law.leaf leaf paddr attr h1 hattr).1, and_true]

theorem pagingEarlyMapPage_spec (law : mmu.Lawful) (hmap : BootMap mmu map)
    (h : EarlyInv mmu map root m) {paddr attr : ℕ} (hattr : pageLeafLevel attr ≤ 3)
    (hv : mmu.entrySize (pageLeafLevel attr) ∣ vaddr)
    (hp : mmu.entrySize (pageLeafLevel attr) ∣ paddr)
    (hclear : ∀ l w, pageLeafLevel attr < l →
      ¬ Resolves mmu m.mem root (pageNumber mmu vaddr) l w) :
    Ensures NoBootMemory (pagingEarlyMapPage mmu map m root vaddr paddr attr) fun m' =>
      EarlyMapped mmu map root m (pageNumber mmu vaddr) (pageLeafLevel attr)
        (mmu.leafPte (pageLeafLevel attr) paddr attr) m' :=
  (pagingEarlyMapPage_cases law hmap h hattr hv hp).imp fun _ hm =>
    hm.1 fun l w hl _ => hclear l w hl

end ArchPagingEarly
