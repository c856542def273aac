import EvalynKernel.ArchPagingInvariant

/-! # Steps of the range loops

Each turn of the two loops is one of a few steps on the tables: a run of entries or one
large entry is overwritten, a table is created, or a leaf is split. -/
namespace ArchPagingSteps

open Function MachineWords DyadicBlocks DyadicBlocks.Block MemBuddyAllocator MemBuddyInvariant
open MemBuddyOperations MemPmm ArchPagingFormats ArchPaging ArchPagingTables
open ArchPagingWrites ArchPagingInvariant

variable {mmu : Mmu} {m m' : Machine} {root : ℕ} {R Rest H : Set Block} {boot : Set ℕ}
  {K : Finset ℕ} {mem : ℕ → ℕ}

variable {i j a : ℕ}

section Overwrite

def overwrite (pte : ℕ) (w : ℕ → ℕ) : ℕ → (ℕ → ℕ) → ℕ → ℕ
  | 0, mem => mem
  | n + 1, mem => Function.update (overwrite pte w n mem) (pte + n * 8) (w n)

variable {pte n : ℕ} {w : ℕ → ℕ}

theorem overwrite_other (h : ∀ j < n, a ≠ pte + j * 8) : overwrite pte w n mem a = mem a := by
  induction n with
  | zero => rfl
  | succ n ih =>
    rw [overwrite, update_of_ne (h n (Nat.lt_succ_self n))]
    exact ih fun j hj => h j (Nat.lt_succ_of_lt hj)

theorem overwrite_at (hj : j < n) : overwrite pte w n mem (pte + j * 8) = w j := by
  induction n with
  | zero => omega
  | succ n ih =>
    rw [overwrite]
    by_cases he : j = n
    · rw [he, update_self]
    · rw [update_of_ne (by omega)]
      exact ih (by omega)

theorem mapRun_eq (mmu : Mmu) (pte paddr flags n : ℕ) (mem : ℕ → ℕ) :
    (mapRun mmu pte paddr flags n mem).1 =
        overwrite pte (fun j => mmu.encodePte (wadd paddr (j * mmu.pageSize)) flags) n mem ∧
      (mapRun mmu pte paddr flags n mem).2 =
        ∑ j ∈ Finset.range n, if mmu.ptePresent (mem (pte + j * 8)) then 0 else 1 := by
  induction n with
  | zero => exact ⟨rfl, rfl⟩
  | succ n ih =>
    cases hr : mapRun mmu pte paddr flags n mem with
    | mk mem₁ k =>
      rw [hr] at ih
      obtain ⟨rfl, h2⟩ := ih
      simp only [mapRun, hr]
      rw [Finset.sum_range_succ, ← h2, overwrite_other fun j hj => by omega]
      refine ⟨rfl, ?_⟩
      split <;> rfl

theorem fillTable_eq (mmu : Mmu) (child base size flags n : ℕ) (mem : ℕ → ℕ) :
    fillTable mmu child base size flags n mem =
      overwrite child (fun j => mmu.encodePte (wadd base (j * size)) flags) n mem := by
  induction n with
  | zero => rfl
  | succ n ih => rw [fillTable, ih]; rfl

theorem presentCount_overwrite (hn : i + n ≤ mmu.tableEntries) :
    presentCount mmu (overwrite (f + i * 8) w n mem) f ∅ +
        ∑ j ∈ Finset.range n, (if mmu.ptePresent (mem (f + i * 8 + j * 8)) then 1 else 0) =
      presentCount mmu mem f ∅ + ∑ j ∈ Finset.range n, if mmu.ptePresent (w j) then 1 else 0 := by
  induction n with
  | zero => rfl
  | succ n ih =>
    have hword : overwrite (f + i * 8) w n mem (f + i * 8 + n * 8) = mem (f + i * 8 + n * 8) :=
      overwrite_other fun j hj => by omega
    have hstep : presentCount mmu (update (overwrite (f + i * 8) w n mem) (f + (i + n) * 8) (w n))
        f ∅ + _ = presentCount mmu (overwrite (f + i * 8) w n mem) f ∅ + _ :=
      presentCount_write (w n) (by omega)
    rw [Nat.add_mul, ← Nat.add_assoc, hword] at hstep
    simp only [Finset.notMem_empty, not_false_eq_true, and_true] at hstep
    rw [Finset.sum_range_succ, Finset.sum_range_succ, overwrite]
    omega

end Overwrite

/-- Pages `a` to `b` get the mapping `target`; all others keep theirs. -/
def Remapped (mmu : Mmu) (root : ℕ) (mem mem' : ℕ → ℕ) (a b : ℕ)
    (target : ℕ → Option (ℕ × ℕ)) : Prop :=
  ∀ x < span mmu, pageMap mmu mem' root x =
    if a ≤ x ∧ x < b then target x else pageMap mmu mem root x

theorem Remapped.refl (mmu : Mmu) (root : ℕ) (mem : ℕ → ℕ) (a : ℕ)
    (target : ℕ → Option (ℕ × ℕ)) : Remapped mmu root mem mem a a target := by
  intro x _
  rw [if_neg (by omega)]

theorem child_level_one (law : mmu.Lawful) (hd : d + 1 = mmu.topLevel) (pte : ℕ) :
    child mmu d pte = none := by
  rw [child_eq_none, show mmu.topLevel - d = 1 by omega]
  exact fun _ => law.leaf_one pte

variable {w : ℕ → ℕ} {n : ℕ}

theorem overwrite_spec (law : mmu.Lawful) (wf : WellFormed mmu mem root) (hd : d + 1 = mmu.topLevel)
    (hf : table mmu mem root d (g / mmu.tableEntries) = some f)
    (hn : g % mmu.tableEntries + n ≤ mmu.tableEntries) (hw : ∀ j < n, Plain mmu d (w j)) :
    (∀ d' q', table mmu (overwrite (pteAt mmu f g) w n mem) root d' q' =
        table mmu mem root d' q') ∧
      WellFormed mmu (overwrite (pteAt mmu f g) w n mem) root ∧
      Remapped mmu root mem (overwrite (pteAt mmu f g) w n mem) g (g + n)
        fun x => entryMap mmu 1 (w (x - g)) x := by
  induction n with
  | zero => exact ⟨fun _ _ => rfl, wf, Remapped.refl mmu root mem g _⟩
  | succ n ih =>
    obtain ⟨ht, wf', hmap⟩ := ih (by omega) fun j hj => hw j (by omega)
    have hN := tableEntries_pos mmu
    have hdiv : (g + n) / mmu.tableEntries = g / mmu.tableEntries := by
      rw [← Nat.div_add_mod g mmu.tableEntries, Nat.add_assoc, Nat.mul_add_div hN,
        Nat.mul_add_div hN, Nat.div_eq_of_lt (show g % mmu.tableEntries + n < _ by omega),
        Nat.div_eq_of_lt (Nat.mod_lt g hN)]
    have hmod : (g + n) % mmu.tableEntries = g % mmu.tableEntries + n := by
      rw [← Nat.div_add_mod g mmu.tableEntries, Nat.add_assoc, Nat.mul_add_mod,
        Nat.mul_add_mod, Nat.mod_mod, Nat.mod_eq_of_lt (by omega)]
    have hf' : table mmu (overwrite (pteAt mmu f g) w n mem) root d
        ((g + n) / mmu.tableEntries) = some f := by rw [hdiv, ht, hf]
    have hp := hw n (Nat.lt_succ_self n)
    have hpte : pteAt mmu f g + n * 8 = f + (g + n) % mmu.tableEntries * 8 := by
      rw [hmod]; ring
    have hold := child_level_one law hd (overwrite (pteAt mmu f g) w n mem
      (f + (g + n) % mmu.tableEntries * 8))
    rw [overwrite, hpte]
    refine ⟨fun d' q' => (table_put law wf' hf' hp hold d' q').trans (ht d' q'),
      wellFormed_put law wf' hf' hp, fun x hx => ?_⟩
    have hlevel : mmu.topLevel - d - 1 = 0 ∧ mmu.topLevel - d = 1 := by omega
    rw [pageMap_put law wf' hf' hp (by omega) hx, hlevel.1, hlevel.2, Nat.pow_zero,
      Nat.div_one, hmap x hx]
    by_cases hx' : x = g + n
    · subst hx'
      rw [if_pos rfl, if_pos (by omega)]
      simp only [Nat.add_sub_cancel_left]
    · rw [if_neg hx']
      split_ifs <;> first | rfl | omega

variable {level : ℕ}

theorem entrySize_dvd (law : mmu.Lawful) (h : level ≤ 3) : mmu.entrySize level ∣ 2 ^ 52 := by
  have hs := law.span
  have hb := law.bits
  have hm := Nat.mul_le_mul_right mmu.pageIndexBits law.three_le_top
  have hm' := Nat.mul_le_mul_right mmu.pageIndexBits (show level - 1 ≤ 2 by omega)
  rw [Mmu.entrySize, Nat.one_shiftLeft, Mmu.entryShift]
  exact Nat.pow_dvd_pow 2 (by omega)

theorem plain_leafPte (law : mmu.Lawful) (attr : ℕ) (h1 : 1 ≤ level) (h3 : level ≤ 3)
    (hp : mmu.entrySize level ∣ paddr) :
    Plain mmu (mmu.topLevel - level) (mmu.leafPte level paddr attr) := by
  have htop := law.three_le_top
  have hdecode := law.decode_leaf level paddr attr h1 h3 hp
  have hprot := law.leaf_prot level paddr attr h1 h3 hp
  intro _
  rw [Nat.sub_sub_self (h3.trans htop)]
  refine ⟨(law.leaf level paddr attr h1 h3).2, h3, ?_, ?_, ?_⟩
  · rw [hdecode]
    exact (Nat.dvd_mod_iff (entrySize_dvd law h3)).mpr hp
  · rw [hdecode]
    exact Nat.mod_lt _ (by norm_num)
  · rw [hprot, law.protection_idem]

variable {c : ℕ}

theorem links_new (law : mmu.Lawful) (wf : WellFormed mmu mem root) (attr : ℕ)
    (hframe : mmu.IsFrame c) (hfresh : ¬ IsTable mmu mem root c)
    (hf : table mmu mem root d (g / mmu.tableEntries) = some f) (hd : d + 1 < mmu.topLevel)
    (hold : child mmu d (mem (pteAt mmu f g)) = none) (hn : n ≤ mmu.tableEntries)
    (hw : ∀ i < n, Plain mmu (d + 1) (w i))
    (hm : mem' =
      update (overwrite c w n (zeroPage mmu.pageSizeShift mem c)) (pteAt mmu f g) (mmu.tablePte c
      attr)) :
    Links mmu mem mem' root d g f c ∧
      ∀ i < mmu.tableEntries, mem' (c + i * 8) = if i < n then w i else 0 := by
  have hsize := pageSize_words law
  have hne : ∀ i < mmu.tableEntries, c + i * 8 ≠ pteAt mmu f g := by
    intro i hi he
    have hcf := (word_injective law hframe (wf.frame _ _ _ hf) hi
      (Nat.mod_lt _ (tableEntries_pos mmu)) he).1
    exact hfresh (hcf ▸ ⟨d, _, hf⟩)
  have hwords : ∀ i < mmu.tableEntries, mem' (c + i * 8) = if i < n then w i else 0 := by
    intro i hi
    rw [hm, update_of_ne (hne i hi)]
    by_cases hin : i < n
    · rw [if_pos hin, overwrite_at hin]
    · rw [if_neg hin, overwrite_other fun j hj => by omega, zeroPage, if_pos (by omega)]
  obtain ⟨hpres, hleaf, hdec⟩ := law.table (mmu.topLevel - d) c attr (by omega) hframe
  refine ⟨⟨hf, hold, hframe, hfresh, ?_, ?_, ?_⟩, hwords⟩
  · intro a ha hpage
    rw [hm, update_of_ne ha, overwrite_other, zeroPage, if_neg hpage]
    intro j hj he
    exact hpage (by omega)
  · rw [hm, update_self]
    exact child_eq_some.mpr ⟨hpres, hleaf, hdec⟩
  · intro i hi
    rw [hwords i hi]
    split
    · exact hw i ‹_›
    · exact plain_zero law _

variable {m₁ : Machine}

theorem links_taken (law : mmu.Lawful) (h : Inv mmu m root R Rest boot) (attr : ℕ)
    (ht : PageTaken mmu.pageSizeShift m R (Rest ∪ tableBlocks mmu m.mem root boot) c m₁)
    (hf : table mmu m.mem root d (g / mmu.tableEntries) = some f) (hd : d + 1 < mmu.topLevel)
    (hold : child mmu d (m.mem (pteAt mmu f g)) = none) (hn : n ≤ mmu.tableEntries)
    (hw : ∀ i < n, Plain mmu (d + 1) (w i))
    (hm : m'.mem = update (overwrite c w n m₁.mem) (pteAt mmu f g) (mmu.tablePte c attr)) :
    Links mmu m.mem m'.mem root d g f c ∧
      ∀ i < mmu.tableEntries, m'.mem (c + i * 8) = if i < n then w i else 0 := by
  obtain ⟨hframe, hfresh, _⟩ := h.taken ht
  rw [ht.mem] at hm
  exact links_new law h.wf attr hframe hfresh hf hd hold hn hw hm

theorem reserved_absent (hc : Counts mmu m root boot K)
    (hi : mmu.ptePresent (m.mem (f + i * 8)) = false) : i ∉ reserved root K f := by
  unfold reserved
  split
  · intro hK
    have hp := (hc.kept i hK).2
    simp_all
  · exact Finset.notMem_empty i

theorem presentCount_present {f w : ℕ} (hc : Counts mmu m root boot K) (hi : i < mmu.tableEntries)
    (hw : mmu.ptePresent w = true) :
    presentCount mmu (update m.mem (f + i * 8) w) f (reserved root K f) =
      presentCount mmu m.mem f (reserved root K f) +
        if mmu.ptePresent (m.mem (f + i * 8)) then 0 else 1 := by
  have hstep : presentCount mmu (update m.mem (f + i * 8) w) f (reserved root K f) + _ = _ :=
    presentCount_write w hi
  cases hp : mmu.ptePresent (m.mem (f + i * 8)) with
  | true => simpa [hp, hw] using hstep
  | false => simpa [hp, hw, reserved_absent hc hp] using hstep

theorem counts_link (law : mmu.Lawful) (h : Inv mmu m root R Rest boot)
    (hl : Links mmu m.mem m'.mem root d g f c)
    (hf : f ∉ boot → (m'.page mmu.pageSizeShift f).refCount =
      (m.page mmu.pageSizeShift f).refCount + if mmu.ptePresent (m.mem (pteAt mmu f g)) then 0 else
      1)
    (hother : ∀ t, IsTable mmu m.mem root t → t ≠ f → (m'.page mmu.pageSizeShift t).refCount =
      (m.page mmu.pageSizeShift t).refCount)
    (hc : (m'.page mmu.pageSizeShift c).refCount = presentCount mmu m'.mem c ∅)
    (hcounts : Counts mmu m root boot K) : Counts mmu m' root boot K := by
  have hi := hl.isTable_iff law h.wf
  have hmod : g % mmu.tableEntries < mmu.tableEntries := Nat.mod_lt _ (tableEntries_pos mmu)
  have hnew : mmu.ptePresent (m'.mem (pteAt mmu f g)) = true :=
    (child_eq_some.mp hl.new).1
  have hroot : IsTable mmu m.mem root root := ⟨0, 0, rfl⟩
  -- the words of a table that was there before
  have hword : ∀ t, IsTable mmu m.mem root t → ∀ i < mmu.tableEntries, m'.mem (t + i * 8) =
      if t = f then update m.mem (pteAt mmu f g)
        (m'.mem (pteAt mmu f g)) (f + i * 8) else m.mem (t + i * 8) := by
    rintro t ⟨d', q', ht⟩ i hlt
    by_cases he : d' = d ∧ q' * mmu.tableEntries + i = g
    · obtain ⟨rfl, rfl⟩ := he
      obtain ⟨hdiv, hslot⟩ := slot_div_mod (q := q') hlt
      have hp := hl.parent
      rw [hdiv, ht] at hp
      cases hp
      rw [if_pos rfl, pteAt, hslot, update_self]
    · rw [hl.word_same law h.wf ht hlt he]
      split
      · rename_i htf
        subst htf
        rw [update_of_ne (word_other law h.wf hl.parent ht hlt he)]
      · rfl
  constructor
  · intro t hit hnb
    rcases (hi t).mp hit with hold | rfl
    · by_cases htf : t = f
      · subst htf
        rw [hf hnb, hcounts.count t hold hnb, ← presentCount_present hcounts hmod hnew]
        exact (presentCount_congr fun i hlt => by rw [hword t hold i hlt, if_pos rfl]).symm
      · rw [hother t hold htf, hcounts.count t hold hnb]
        exact (presentCount_congr fun i hlt => by rw [hword t hold i hlt, if_neg htf]).symm
    · rw [hc, reserved, if_neg]
      rintro rfl
      exact hl.fresh hroot
  · intro i hK
    obtain ⟨hlt, hp⟩ := hcounts.kept i hK
    refine ⟨hlt, ?_⟩
    rw [hword root hroot i hlt]
    split
    · by_cases he : f + i * 8 = pteAt mmu f g
      · rw [he, update_self, hnew]
      · rename_i hrf
        rw [update_of_ne he, ← hrf]
        exact hp
    · exact hp

def NonEmpty (mmu : Mmu) (mem : ℕ → ℕ) (f : ℕ) : Prop :=
  ∃ i < mmu.tableEntries, mmu.ptePresent (mem (f + i * 8)) = true

/-- What a call of `paging_map_range` does to the tables. -/
structure MapDone (mmu : Mmu) (m : Machine) (root : ℕ) (R Rest : Set Block) (boot : Set ℕ)
    (a b : ℕ) (target : ℕ → Option (ℕ × ℕ)) (m' : Machine) : Prop where
  inv : Inv mmu m' root R Rest boot
  mapped : Remapped mmu root m.mem m'.mem a b target
  tables : ∀ d q f, table mmu m.mem root d q = some f → table mmu m'.mem root d q = some f
  counts : ∀ K, Counts mmu m root boot K → Counts mmu m' root boot K
  data : ∀ b ∈ Rest, ∀ a, Mem a b → m'.mem a = m.mem a
  freed : m'.freed = m.freed

/-- One turn of the loop, which takes at most one page. -/
structure Grown (mmu : Mmu) (m : Machine) (root : ℕ) (R Rest : Set Block) (boot : Set ℕ)
    (a b : ℕ) (target : ℕ → Option (ℕ × ℕ)) (m' : Machine) : Prop
    extends MapDone mmu m root R Rest boot a b target m' where
  nonEmpty : ∀ t, IsTable mmu m.mem root t → NonEmpty mmu m.mem t → NonEmpty mmu m'.mem t
  available : availableFrames m.buddy ≤ availableFrames m'.buddy + 1

structure Descended (mmu : Mmu) (m : Machine) (root : ℕ) (R Rest : Set Block) (boot : Set ℕ)
    (d g f child : ℕ) (m' : Machine) : Prop where
  grown : ∀ a target, Grown mmu m root R Rest boot a a target m'
  tables_eq : ∀ d' q', table mmu m'.mem root d' q' =
    if d' = d + 1 ∧ q' = g then some child else table mmu m.mem root d' q'
  parent : NonEmpty mmu m'.mem f

/-- The only fault: the allocator has no page left. -/
def NoPage (m : Machine) (e : Fault) : Prop := e = outOfMemory ∧ availableFrames m.buddy = 0

def splitFlags (mmu : Mmu) (level prot : ℕ) : ℕ :=
  if 2 < level then mmu.largePageFixup (mmu.protToMmuFlags prot) else mmu.protToMmuFlags prot

def splitWord (mmu : Mmu) (level pte i : ℕ) : ℕ :=
  mmu.encodePte (wadd (mmu.decodeLargePte pte) (i * mmu.entrySize (level - 1)))
    (splitFlags mmu level (mmu.mmuFlagsToProt pte level))

variable {pte : ℕ}

theorem split_words (law : mmu.Lawful) (hl : 2 ≤ level) (good : GoodLeaf mmu level pte)
    (hi : i < mmu.tableEntries) :
    splitWord mmu level pte i =
      mmu.leafPte (level - 1) (mmu.decodeLargePte pte + i * mmu.entrySize (level - 1))
        (mmu.mmuFlagsToProt pte level) ∧
      mmu.decodeLargePte pte + i * mmu.entrySize (level - 1) < 2 ^ 52 ∧
      mmu.entrySize (level - 1) ∣ mmu.decodeLargePte pte + i * mmu.entrySize (level - 1) := by
  obtain ⟨h3, hal, hbd, _⟩ := good
  have hbase : mmu.decodeLeaf level pte = mmu.decodeLargePte pte := if_neg (by omega)
  rw [hbase] at hal hbd
  have hsize : mmu.entrySize level = mmu.tableEntries * mmu.entrySize (level - 1) := by
    rw [entrySize_eq, entrySize_eq, ← Nat.mul_assoc, ← Nat.pow_succ']
    congr 2
    omega
  have hbound : mmu.decodeLargePte pte + mmu.entrySize level ≤ 2 ^ 52 := by
    obtain ⟨a, ha⟩ := hal
    obtain ⟨b, hb⟩ := entrySize_dvd law h3
    rw [ha, hb] at hbd
    have hlt := Nat.lt_of_mul_lt_mul_left hbd
    rw [ha, hb, ← Nat.mul_succ]
    exact Nat.mul_le_mul_left _ hlt
  have hpart : (i + 1) * mmu.entrySize (level - 1) ≤ mmu.entrySize level := by
    rw [hsize]
    exact Nat.mul_le_mul_right _ hi
  have hpos := entrySize_pos mmu (level - 1)
  rw [Nat.add_mul, Nat.one_mul] at hpart
  have hflags : splitFlags mmu level (mmu.mmuFlagsToProt pte level) =
      mmu.leafFlags (level - 1) (mmu.mmuFlagsToProt pte level) := by
    unfold splitFlags Mmu.leafFlags
    by_cases h2 : 2 < level
    · rw [if_pos h2, if_pos (by omega)]
    · rw [if_neg h2, if_neg (by omega)]
  have hlt : mmu.decodeLargePte pte + i * mmu.entrySize (level - 1) < 2 ^ 52 := by omega
  refine ⟨?_, hlt, ?_⟩
  · rw [splitWord, hflags, wadd_of_lt (hlt.trans (by decide))]
    rfl
  · have hd : mmu.entrySize (level - 1) ∣ mmu.entrySize level := Dvd.intro_left _ hsize.symm
    exact (Nat.dvd_add_iff_right (hd.trans hal)).mp (Dvd.intro_left _ rfl)

theorem split_entryMap (law : mmu.Lawful) (hl : 2 ≤ level) (good : GoodLeaf mmu level pte)
    (hp : mmu.ptePresent pte = true) (x : ℕ) :
    entryMap mmu (level - 1) (mmu.leafPte (level - 1) (mmu.decodeLargePte pte +
        x / mmu.tableEntries ^ (level - 1 - 1) % mmu.tableEntries * mmu.entrySize (level - 1))
        (mmu.mmuFlagsToProt pte level)) x = entryMap mmu level pte x := by
  have hN := tableEntries_pos mmu
  obtain ⟨_, hlt, hdvd⟩ := split_words law hl good
    (Nat.mod_lt (x / mmu.tableEntries ^ (level - 1 - 1)) hN)
  have h3 := good.level_le
  have hbase : mmu.decodeLeaf level pte = mmu.decodeLargePte pte := if_neg (by omega)
  have hpow : mmu.tableEntries ^ (level - 1) =
      mmu.tableEntries ^ (level - 1 - 1) * mmu.tableEntries := by
    rw [← Nat.pow_succ]
    congr 1
    omega
  rw [entryMap, if_pos (law.leaf _ _ _ (by omega) (by omega)).1, entryMap, if_pos hp,
    law.decode_leaf _ _ _ (by omega) (by omega) hdvd, law.leaf_prot _ _ _ (by omega)
    (by omega) hdvd, Nat.mod_eq_of_lt hlt, good.prot, hbase, hpow, Nat.mod_mul, entrySize_eq]
  congr 2
  ring

theorem taken_pages (h : Inv mmu m root R Rest boot)
    (ht : PageTaken mmu.pageSizeShift m R (Rest ∪ tableBlocks mmu m.mem root boot) c m₁) :
    BuddyInv mmu.pageSizeShift (initTable mmu m₁ c).buddy R
        (insert (blk mmu.pageSizeShift c 0) (Rest ∪ tableBlocks mmu m.mem root boot)) ∧
      (initTable mmu m₁ c).page mmu.pageSizeShift c =
        ⟨.ptable, (m₁.page mmu.pageSizeShift c).order, 0⟩ ∧
      ∀ t, IsTable mmu m.mem root t →
        (initTable mmu m₁ c).page mmu.pageSizeShift t = m.page mmu.pageSizeShift t ∧ t ≠ c := by
  obtain ⟨_, hfresh, _⟩ := h.taken ht
  refine ⟨setPage_owned ht.inv (Set.mem_insert _ _) (by simp) rfl, page_setPage_self _ _ _ _, ?_⟩
  intro t hit
  have hne : t ≠ c := by
    rintro rfl
    exact hfresh hit
  refine ⟨?_, hne⟩
  rw [initTable, page_setPage_ne _ _ ht.aligned (h.aligned hit) hne]
  exact ht.pages t (h.aligned hit) (h.kept hit)

section Descend

variable {d g f : ℕ} (law : mmu.Lawful) (h : Inv mmu m root R Rest boot)
  (hf : table mmu m.mem root d (g / mmu.tableEntries) = some f) (hd : d + 1 < mmu.topLevel)

include law h hf hd

variable {attr : ℕ}

theorem descended_link
    (ht : PageTaken mmu.pageSizeShift m R (Rest ∪ tableBlocks mmu m.mem root boot) c m₁)
    (hold : child mmu d (m.mem (pteAt mmu f g)) = none)
    (hn : n = 0 ∨ n = mmu.tableEntries)
    (hw : ∀ i < n, Plain mmu (d + 1) (w i) ∧ mmu.ptePresent (w i) = true)
    (hm : m'.mem = update (overwrite c w n m₁.mem) (pteAt mmu f g)
      (mmu.tablePte c attr)) (hb : BuddyInv mmu.pageSizeShift m'.buddy R
      (insert (blk mmu.pageSizeShift c 0) (Rest ∪ tableBlocks mmu m.mem root boot)))
    (hc : (m'.page mmu.pageSizeShift c).type = .ptable)
    (hrc : (m'.page mmu.pageSizeShift c).refCount = n) (hty : ∀ t, IsTable mmu m.mem root t →
      (m'.page mmu.pageSizeShift t).type = (m.page mmu.pageSizeShift t).type)
    (hrf : ∀ K, Counts mmu m root boot K → f ∉ boot →
      (m'.page mmu.pageSizeShift f).refCount = (m.page mmu.pageSizeShift f).refCount +
        if mmu.ptePresent (m.mem (pteAt mmu f g)) then 0 else 1)
    (hrt : ∀ t, IsTable mmu m.mem root t → t ≠ f →
      (m'.page mmu.pageSizeShift t).refCount = (m.page mmu.pageSizeShift t).refCount)
    (hfreed : m'.freed = m.freed) (hav : availableFrames m'.buddy = availableFrames m₁.buddy)
    (hmap : ∀ x < span mmu, x / mmu.tableEntries ^ (mmu.topLevel - d - 1) = g →
      entryMap mmu (mmu.topLevel - (d + 1))
          (if n = 0 then 0 else
            w (x / mmu.tableEntries ^ (mmu.topLevel - (d + 1) - 1) % mmu.tableEntries)) x =
        entryMap mmu (mmu.topLevel - d) (m.mem (pteAt mmu f g)) x) :
    Descended mmu m root R Rest boot d g f c m' := by
  have hN := tableEntries_pos mmu
  have hmod : g % mmu.tableEntries < mmu.tableEntries := Nat.mod_lt _ hN
  obtain ⟨hl, hwords⟩ := links_taken law h attr ht hf hd hold (by omega)
    (fun i hi => (hw i hi).1) hm
  have hcount : presentCount mmu m'.mem c ∅ = n := by
    rcases hn with rfl | rfl
    · rw [presentCount, Finset.card_eq_zero, Finset.filter_eq_empty_iff]
      intro i hi
      rw [hwords i (Finset.mem_range.mp hi), if_neg (by omega), law.absent]
      simp
    · rw [presentCount, Finset.filter_true_of_mem, Finset.card_range]
      intro i hi
      rw [hwords i (Finset.mem_range.mp hi), if_pos (Finset.mem_range.mp hi)]
      exact ⟨(hw i (Finset.mem_range.mp hi)).2, Finset.notMem_empty i⟩
  have hnew : mmu.ptePresent (m'.mem (pteAt mmu f g)) = true :=
    (child_eq_some.mp hl.new).1
  have htables := hl.table_eq law h.wf
  refine ⟨fun a target => ⟨⟨h.link law ht hl hb hc hty, ?_, ?_, ?_, ?_, hfreed⟩, ?_, ?_⟩, htables,
    ⟨_, hmod, hnew⟩⟩
  · intro x hx
    rw [if_neg (by omega), hl.pageMap_eq law h.wf hd hx]
    split
    · rename_i hg
      have hslot := Nat.mod_lt (x / mmu.tableEntries ^ (mmu.topLevel - (d + 1) - 1)) hN
      have he : m'.mem (pteAt mmu c (x / mmu.tableEntries ^ (mmu.topLevel - (d + 1) - 1))) =
          if n = 0 then 0 else
            w (x / mmu.tableEntries ^ (mmu.topLevel - (d + 1) - 1) % mmu.tableEntries) := by
        rw [hwords _ hslot]
        rcases hn with rfl | rfl
        · rw [if_neg (by omega), if_pos rfl]
        · rw [if_pos hslot, if_neg hN.ne']
      rw [he, hmap x hx hg]
      refine (pageMap_of_entry hx (by omega) ?_ hold).symm
      rw [hg]
      exact entry_of_table hf
    · rfl
  · intro d' q' t hq
    rw [htables, if_neg, hq]
    rintro ⟨rfl, rfl⟩
    rw [table_next hf, hold] at hq
    cases hq
  · intro K hK
    exact counts_link law h hl (hrf K hK) hrt (hrc.trans hcount.symm) hK
  · intro b hb a ha
    have hpage := ht.apart (Or.inl hb) ha
    have hsize := pageSize_words law
    simp only [Mem, blk, size, Nat.add_zero] at hpage
    rw [hm, update_of_ne (h.rest_word law hb ha ⟨d, _, hf⟩ hmod),
      overwrite_other fun k hk => by omega, ht.mem, zeroPage, if_neg hpage]
  · rintro t ⟨d', q', hq⟩ ⟨i, hi, hp⟩
    by_cases he : d' = d ∧ q' * mmu.tableEntries + i = g
    · obtain ⟨rfl, rfl⟩ := he
      obtain ⟨hdiv, hslot⟩ := slot_div_mod (q := q') hi
      rw [hdiv, hq] at hf
      cases hf
      exact ⟨_, hmod, hnew⟩
    · exact ⟨i, hi, by rw [hl.word_same law h.wf hq hi he, hp]⟩
  · have := ht.available
    omega

variable {cur : Cursor}

theorem mapChild_absent (hpte : cur.pte mmu = pteAt mmu f g) (htab : cur.table = f)
    (hp : mmu.ptePresent (m.mem (pteAt mmu f g)) = false) :
    Ensures (NoPage m) (mapChild mmu attr m cur) fun r =>
      Descended mmu m root R Rest boot d g f r.1 r.2 := by
  have hit : IsTable mmu m.mem root f := ⟨d, _, hf⟩
  have hold : child mmu d (m.mem (pteAt mmu f g)) = none :=
    child_eq_none.mpr (by simp [hp])
  rcases pmmAllocPage_spec h.buddy with ⟨c, m₁, hok, ht⟩ | ⟨hav, hfail⟩
  · obtain ⟨hb, hpc, hpt⟩ := taken_pages h ht
    obtain ⟨hpf, hfc⟩ := hpt f hit
    obtain ⟨m₂, hu, hr⟩ : ∃ m₂, updateRefcnt mmu ((initTable mmu m₁ c).write
        (pteAt mmu f g) (mmu.tablePte c attr)) f 1 = .ok m₂ ∧
        Recounted mmu boot _ f 1 m₂ :=
      updateRefcnt_spec (h.aligned hit) (fun hnb => by rw [write_page, hpf, h.ptable f hit hnb])
        (fun hbt => by rw [write_page, hpf, h.invalid f hit hbt]) (fun _ hneg => by omega)
    have hother := fun t (hti : IsTable mmu m.mem root t) (hne : t ≠ f) =>
      (hr.other t (h.aligned hti) hne).trans (hpt t hti).1
    have hmc := (hr.other c ht.aligned (Ne.symm hfc)).trans hpc
    refine Ensures.of_eq (r := (c, m₂)) ?_ ?_
    · simp only [mapChild, hpte, hp, Bool.not_false, if_true, hok, ok_bind, htab, hu]
    · refine descended_link law h hf hd (n := 0) (w := fun _ => 0) ht hold (Or.inl rfl)
        (by simp) hr.mem
        ?_ (by rw [hmc]) (by rw [hmc]) ?_ ?_ (fun t hti hne => by rw [hother t hti hne])
        (hr.freed.trans ht.freed) hr.available ?_
      · exact hr.buddy R _ hb fun hnb => Set.mem_insert_of_mem _ (Or.inr ⟨f, hit, hnb, rfl⟩)
      · intro t hti
        exact (hr.type t (h.aligned hti)).trans (congrArg Page.type (hpt t hti).1)
      · intro K hK hnb
        have hlt := presentCount_present hK (Nat.mod_lt g (tableEntries_pos mmu))
          (law.leaf 1 0 0 le_rfl (by norm_num)).1 (f := f)
        have hle := presentCount_le mmu (update m.mem (pteAt mmu f g)
          (mmu.leafPte 1 0 0)) f (reserved root K f)
        rw [hp, if_neg (by simp)] at hlt ⊢
        rw [hlt, ← hK.count f hit hnb] at hle
        refine hr.exact law hnb ?_ hle
        rw [write_page, hpf]
        rfl
      · intro x hx hg
        rw [if_pos rfl, entryMap, entryMap, law.absent, hp]
        rfl
  · refine Ensures.of_error ?_ ⟨rfl, hav⟩
    simp only [mapChild, hpte, hp, Bool.not_false, if_true, hfail]
    rfl

/-- Splitting a leaf keeps every page's mapping. The new table holds leaves for the parts. -/
theorem pagingSplitLeaf_spec (hp : mmu.ptePresent (m.mem (pteAt mmu f g)) = true)
    (hleaf : mmu.pteIsLeaf (m.mem (pteAt mmu f g)) (mmu.topLevel - d) = true) :
    Ensures (NoPage m) (pagingSplitLeaf mmu m (pteAt mmu f g) (mmu.topLevel - d))
      fun r => Descended mmu m root R Rest boot d g f r.1 r.2 ∧
        ∀ i < mmu.tableEntries, r.2.mem (r.1 + i * 8) = mmu.leafPte (mmu.topLevel - d - 1)
          (mmu.decodeLargePte (m.mem (pteAt mmu f g)) +
            i * mmu.entrySize (mmu.topLevel - d - 1))
          (mmu.mmuFlagsToProt (m.mem (pteAt mmu f g)) (mmu.topLevel - d)) := by
  have hit : IsTable mmu m.mem root f := ⟨d, _, hf⟩
  have hold : child mmu d (m.mem (pteAt mmu f g)) = none :=
    child_eq_none.mpr fun _ => hleaf
  have good := (h.wf.leaf d g _ (entry_of_table hf) hold hp).2
  have hlevel : 2 ≤ mmu.topLevel - d := by omega
  rcases pmmAllocPage_spec h.buddy with ⟨c, m₁, hok, ht⟩ | ⟨hav, hfail⟩
  · obtain ⟨hb, hpc, hpt⟩ := taken_pages h ht
    obtain ⟨_, _, hcb⟩ := h.taken ht
    have hadd := fun i (hi : i < mmu.tableEntries) => split_words law hlevel good hi
    obtain ⟨m₂, hu, hr⟩ : ∃ m₂, updateRefcnt mmu { initTable mmu m₁ c with
        mem := fillTable mmu c (mmu.decodeLargePte (m.mem (pteAt mmu f g)))
          (mmu.entrySize (mmu.topLevel - d - 1)) (splitFlags mmu (mmu.topLevel - d)
            (mmu.mmuFlagsToProt (m.mem (pteAt mmu f g)) (mmu.topLevel - d)))
          mmu.tableEntries (initTable mmu m₁ c).mem } c mmu.tableEntries = .ok m₂ ∧
        Recounted mmu boot _ c mmu.tableEntries m₂ :=
      updateRefcnt_spec ht.aligned (fun _ => congrArg Page.type hpc) (fun hbt => absurd hbt hcb)
        (fun _ hneg => by omega)
    have hother := fun t (hti : IsTable mmu m.mem root t) =>
      (hr.other t (h.aligned hti) (hpt t hti).2).trans (hpt t hti).1
    have hcount : (m₂.page mmu.pageSizeShift c).refCount = mmu.tableEntries :=
      hr.exact law hcb ((congrArg (fun p : Page => (p.refCount : ℤ) + mmu.tableEntries) hpc).trans
        (by simp)) le_rfl
    refine Ensures.of_eq (r := (c, m₂.write (pteAt mmu f g) (mmu.tablePte c
      (mmu.mmuFlagsToProt (m.mem (pteAt mmu f g)) (mmu.topLevel - d))))) ?_ ?_
    · simp only [pagingSplitLeaf, hok, ok_bind]
      rw [splitFlags] at hu
      rw [hu]
      rfl
    · have hmem : (m₂.write (pteAt mmu f g) (mmu.tablePte c (mmu.mmuFlagsToProt
          (m.mem (pteAt mmu f g)) (mmu.topLevel - d)))).mem =
          update (overwrite c
            (splitWord mmu (mmu.topLevel - d) (m.mem (pteAt mmu f g)))
            mmu.tableEntries m₁.mem) (pteAt mmu f g) (mmu.tablePte c
            (mmu.mmuFlagsToProt (m.mem (pteAt mmu f g)) (mmu.topLevel - d))) := by
        rw [write_mem, hr.mem, fillTable_eq]
        rfl
      have hwords : ∀ i < mmu.tableEntries,
          Plain mmu (d + 1)
            (splitWord mmu (mmu.topLevel - d) (m.mem (pteAt mmu f g)) i) ∧
          mmu.ptePresent (splitWord mmu (mmu.topLevel - d)
            (m.mem (pteAt mmu f g)) i) = true := by
        intro i hi
        rw [(hadd i hi).1]
        have hplain := plain_leafPte law (mmu.mmuFlagsToProt (m.mem (pteAt mmu f g))
          (mmu.topLevel - d)) (by omega) (by have := good.level_le; omega) (hadd i hi).2.2
        rw [show mmu.topLevel - (mmu.topLevel - d - 1) = d + 1 by omega] at hplain
        exact ⟨hplain, (law.leaf _ _ _ (by omega) (by have := good.level_le; omega)).1⟩
      have hplain := links_taken law h _ ht hf hd hold le_rfl (fun i hi => (hwords i hi).1) hmem
      refine ⟨?_, fun i hi => by rw [hplain.2 i hi, if_pos hi, (hadd i hi).1]⟩
      refine descended_link law h hf hd (n := mmu.tableEntries) ht hold (Or.inr rfl) hwords hmem
        ?_ ?_ hcount ?_ ?_ ?_ (hr.freed.trans ht.freed) hr.available ?_
      · exact hr.buddy R _ hb fun _ => Set.mem_insert _ _
      · exact (hr.type c ht.aligned).trans (congrArg Page.type hpc)
      · intro t hti
        exact congrArg Page.type (hother t hti)
      · intro K _ _
        rw [hp, if_pos rfl]
        exact congrArg Page.refCount (hother f hit)
      · intro t hti _
        exact congrArg Page.refCount (hother t hti)
      · intro x hx hg
        have hslot := Nat.mod_lt (x / mmu.tableEntries ^ (mmu.topLevel - d - 1 - 1))
          (tableEntries_pos mmu)
        rw [if_neg (tableEntries_pos mmu).ne', Nat.sub_add_eq, (hadd _ hslot).1]
        exact split_entryMap law hlevel good hp x
  · refine Ensures.of_error ?_ ⟨rfl, hav⟩
    simp only [pagingSplitLeaf, hfail]
    rfl

theorem nextTable_spec (hp : mmu.ptePresent (m.mem (pteAt mmu f g)) = true) :
    Ensures (NoPage m) (nextTable mmu m (pteAt mmu f g) (mmu.topLevel - d))
      fun r => Descended mmu m root R Rest boot d g f r.1 r.2 := by
  cases hleaf : mmu.pteIsLeaf (m.mem (pteAt mmu f g)) (mmu.topLevel - d) with
  | true =>
    rw [nextTable, if_pos hleaf]
    exact (pagingSplitLeaf_spec law h hf hd hp hleaf).imp fun r hr => hr.1
  | false =>
    rw [nextTable, if_neg (by simp [hleaf])]
    have hnext := (table_next hf).trans (child_eq_some.mpr ⟨hp, hleaf, rfl⟩)
    refine ⟨fun a target => ⟨⟨h, Remapped.refl _ _ _ _ _, fun _ _ _ ht => ht, fun _ hK => hK,
      fun _ _ _ _ => rfl, rfl⟩, fun _ _ hne => hne, Nat.le_succ _⟩, ?_,
      ⟨_, Nat.mod_lt _ (tableEntries_pos mmu), hp⟩⟩
    intro d' q'
    split
    · rename_i he
      rw [he.1, he.2, hnext]
    · rfl

theorem mapChild_spec (hpte : cur.pte mmu = pteAt mmu f g) (htab : cur.table = f)
    (hlevel : cur.level = mmu.topLevel - d) :
    Ensures (NoPage m) (mapChild mmu attr m cur) fun r =>
      Descended mmu m root R Rest boot d g f r.1 r.2 := by
  cases hp : mmu.ptePresent (m.mem (pteAt mmu f g)) with
  | false => exact mapChild_absent law h hf hd hpte htab hp
  | true =>
    simp only [mapChild, hpte, hp, Bool.not_true, Bool.false_eq_true, if_false, hlevel]
    exact nextTable_spec law h hf hd hp

end Descend

theorem counts_change (ht : ∀ d q, table mmu m'.mem root d q = table mmu m.mem root d q)
    (hwords : ∀ t, IsTable mmu m.mem root t → t ≠ f → ∀ i < mmu.tableEntries, m'.mem (t + i * 8) =
      m.mem (t + i * 8))
    (hpages : ∀ t, IsTable mmu m.mem root t → t ≠ f → m'.page mmu.pageSizeShift t =
      m.page mmu.pageSizeShift t) (hcounts : Counts mmu m root boot K)
    (hcount : f ∉ boot → (m'.page mmu.pageSizeShift f).refCount =
      presentCount mmu m'.mem f (reserved root K f))
    (hkept : ∀ i ∈ reserved root K f, mmu.ptePresent (m'.mem (f + i * 8)) = true) :
    Counts mmu m' root boot K := by
  have hroot : IsTable mmu m.mem root root := ⟨0, 0, rfl⟩
  constructor
  · intro t hit hnb
    rw [isTable_congr ht] at hit
    by_cases he : t = f
    · rw [he]
      exact hcount (he ▸ hnb)
    · rw [hpages t hit he, hcounts.count t hit hnb]
      exact (presentCount_congr (hwords t hit he)).symm
  · intro i hK
    obtain ⟨hlt, hpres⟩ := hcounts.kept i hK
    refine ⟨hlt, ?_⟩
    by_cases he : root = f
    · subst he
      exact hkept i (by rwa [reserved, if_pos rfl])
    · rw [hwords root hroot he i hlt]
      exact hpres

theorem grown_put (inv : Inv mmu m' root R Rest boot)
    (mapped : Remapped mmu root m.mem m'.mem a b target)
    (ht : ∀ d q, table mmu m'.mem root d q = table mmu m.mem root d q)
    (hwords : ∀ t, IsTable mmu m.mem root t → t ≠ f → ∀ i < mmu.tableEntries, m'.mem (t + i * 8) =
      m.mem (t + i * 8))
    (hpages : ∀ t, IsTable mmu m.mem root t → t ≠ f → m'.page mmu.pageSizeShift t =
      m.page mmu.pageSizeShift t)
    (hcount : ∀ K, Counts mmu m root boot K → f ∉ boot → (m'.page mmu.pageSizeShift f).refCount =
      presentCount mmu m'.mem f (reserved root K f))
    (hkeep : ∀ i < mmu.tableEntries, mmu.ptePresent (m.mem (f + i * 8)) = true →
      mmu.ptePresent (m'.mem (f + i * 8)) = true)
    (hdata : ∀ b ∈ Rest, ∀ a, Mem a b → m'.mem a = m.mem a) (hfreed : m'.freed = m.freed)
    (hav : availableFrames m'.buddy = availableFrames m.buddy) :
    Grown mmu m root R Rest boot a b target m' := by
  refine ⟨⟨inv, mapped, fun d q t hq => by rw [ht, hq], ?_, hdata, hfreed⟩, ?_, by omega⟩
  · intro K hK
    refine counts_change ht hwords hpages hK (hcount K hK) fun i hi => ?_
    unfold reserved at hi
    split at hi
    · rename_i he
      obtain ⟨hlt, hpres⟩ := hK.kept i hi
      exact hkeep i hlt (he ▸ hpres)
    · exact absurd hi (Finset.notMem_empty i)
  · rintro t hit ⟨i, hlt, hpres⟩
    refine ⟨i, hlt, ?_⟩
    by_cases he : t = f
    · rw [he] at hpres ⊢
      exact hkeep i hlt hpres
    · rw [hwords t hit he i hlt]
      exact hpres

theorem overwrite_words (law : mmu.Lawful) (wf : WellFormed mmu mem root)
    (hf : IsTable mmu mem root f) (hn : i + n ≤ mmu.tableEntries) (ht : IsTable mmu mem root t)
    (hne : t ≠ f) (hj : j < mmu.tableEntries) :
    overwrite (f + i * 8) w n mem (t + j * 8) = mem (t + j * 8) := by
  obtain ⟨d, q, hq⟩ := hf
  obtain ⟨d', q', hq'⟩ := ht
  refine overwrite_other fun k hk he => hne ?_
  refine (word_injective law (wf.frame _ _ _ hq') (wf.frame _ _ _ hq) hj
    (show i + k < mmu.tableEntries by omega) ?_).1
  rw [he]
  ring

theorem overwrite_present (hw : ∀ k < n, mmu.ptePresent (w k) = true)
    (hj : mmu.ptePresent (mem (f + j * 8)) = true ∨ i ≤ j ∧ j < i + n) :
    mmu.ptePresent (overwrite (f + i * 8) w n mem (f + j * 8)) = true := by
  by_cases hin : i ≤ j ∧ j < i + n
  · rw [show f + j * 8 = f + i * 8 + (j - i) * 8 by omega, overwrite_at (by omega)]
    exact hw _ (by omega)
  · rw [overwrite_other fun k hk => by omega]
    exact hj.resolve_right hin

end ArchPagingSteps
