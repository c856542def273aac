import EvalynKernel.ArchPagingCursor

/-! # Correctness of `paging_map_range` -/
namespace ArchPagingMap

open Function MachineWords DyadicBlocks DyadicBlocks.Block MemBuddyAllocator MemBuddyInvariant
open MemBuddyOperations MemPmm ArchPagingFormats ArchPaging ArchPagingTables
open ArchPagingWrites ArchPagingInvariant ArchPagingSteps ArchPagingCursor

variable {mmu : Mmu} {m m' : Machine} {root : ℕ} {R Rest : Set Block} {boot : Set ℕ}
  {c c' : Cursor} {x y n attr p : ℕ}

def mapTarget (mmu : Mmu) (attr p x x' : ℕ) : Option (ℕ × ℕ) :=
  some (wadd p ((x' - x) * 2 ^ mmu.pageSizeShift) % 2 ^ 52, mmu.protection attr)

/-- No table below the root is empty, save the one the cursor has just entered. -/
def Settled (mmu : Mmu) (mem : ℕ → ℕ) (root : ℕ) (boot : Set ℕ) (c : Cursor) (n : ℕ) : Prop :=
  ∀ d q f, table mmu mem root d q = some f → 0 < d → f ∉ boot →
    NonEmpty mmu mem f ∨ f = c.table ∧ c.index ≠ mmu.tableEntries ∧ n ≠ 0

structure MapTurn (mmu : Mmu) (m : Machine) (root : ℕ) (R Rest : Set Block) (boot : Set ℕ)
    (c : Cursor) (x n attr p : ℕ) (m' : Machine) (c' : Cursor) (p' j y' : ℕ) : Prop where
  cur : Cur mmu m'.mem root c' (x + j) y' (n - j)
  le : j ≤ n
  grown : Grown mmu m root R Rest boot x (x + j) (mapTarget mmu attr p x) m'
  paddr : p' = wadd p (j * 2 ^ mmu.pageSizeShift)
  turns : turns mmu c' (n - j) < turns mmu c n
  settled : Settled mmu m.mem root boot c n → Settled mmu m'.mem root boot c' (n - j)

def MapTurns (mmu : Mmu) (m : Machine) (root : ℕ) (R Rest : Set Block) (boot : Set ℕ)
    (c : Cursor) (x n attr p : ℕ) (r : Machine × Cursor × ℕ) : Prop :=
  ∃ j y', MapTurn mmu m root R Rest boot c x n attr p r.1 r.2.1 r.2.2 j y'

theorem page_dvd_wadd (law : mmu.Lawful) (hp : 2 ^ mmu.pageSizeShift ∣ p) (j : ℕ) :
    2 ^ mmu.pageSizeShift ∣ wadd p (j * 2 ^ mmu.pageSizeShift) := by
  obtain ⟨a, rfl⟩ := hp
  rw [Nat.mul_comm, wadd_pages law]
  exact Nat.dvd_mul_left _ _

theorem settled_of_filled (g : Grown mmu m root R Rest boot x y (mapTarget mmu attr p x) m')
    (ht : ∀ d q, table mmu m'.mem root d q = table mmu m.mem root d q)
    (hf : NonEmpty mmu m'.mem c.table) (h : Settled mmu m.mem root boot c n) :
    Settled mmu m'.mem root boot c' n' := by
  intro d q f hq hd hb
  rw [ht] at hq
  rcases h d q f hq hd hb with hne | ⟨rfl, _⟩
  · exact Or.inl (g.nonEmpty f ⟨d, q, hq⟩ hne)
  · exact Or.inl hf

section Turn

variable (law : mmu.Lawful) (h : Inv mmu m root R Rest boot) (hc : Cur mmu m.mem root c x y n)
  (hi : c.index ≠ mmu.tableEntries) (hn : 0 < n) (hp : 2 ^ mmu.pageSizeShift ∣ p)

include law h hc hi hn hp

theorem mapEntry_run (hl : c.level = 1) :
    Ensures (NoPage m) (mapEntry mmu attr m c p)
      (MapTurns mmu m root R Rest boot c x n attr p) := by
  have hpar := hc.parent_table hi
  have hpte := hc.pte_eq
  have hlt := hc.index_lt hi
  have hslot := hc.slot
  have hmodx := (hc.slot_parts hi).2
  have hdepth : mmu.topLevel - c.level + 1 = mmu.topLevel := by
    have := hc.level_le
    omega
  rw [hl, Nat.sub_self, Nat.pow_zero, Nat.div_one] at hpar hpte hslot hmodx
  rw [← hl] at hpar
  obtain ⟨hrun, hmoved⟩ := hc.run law hi hl
  obtain ⟨j, hj⟩ : ∃ j, j = c.run mmu := ⟨_, rfl⟩
  rw [← hj] at hrun hmoved
  have hjn : 0 < j ∧ j ≤ n ∧ x % mmu.tableEntries + j ≤ mmu.tableEntries := by
    rw [hrun, hmodx]
    omega
  clear hrun
  obtain ⟨w, hw⟩ : ∃ w : ℕ → ℕ, w = fun i =>
    mmu.leafPte 1 (wadd p (i * 2 ^ mmu.pageSizeShift)) attr := ⟨_, rfl⟩
  have hdvd : ∀ i, mmu.entrySize 1 ∣ wadd p (i * 2 ^ mmu.pageSizeShift) := by
    intro i
    rw [entrySize_one]
    exact page_dvd_wadd law hp i
  have hplain : ∀ i < j, Plain mmu (mmu.topLevel - c.level) (w i) := by
    intro i _
    rw [hw, hl]
    exact plain_leafPte law attr le_rfl (by norm_num) (hdvd i)
  have hpres : ∀ i, mmu.ptePresent (w i) = true := fun i => by
    rw [hw]
    exact (law.leaf 1 _ _ le_rfl (by norm_num)).1
  have hit : IsTable mmu m.mem root c.table := ⟨_, _, hpar⟩
  obtain ⟨ht, wf', hmap⟩ := overwrite_spec law h.wf hdepth hpar hjn.2.2 hplain
  obtain ⟨mem₁, added, hmr⟩ : ∃ mem₁ added,
    mapRun mmu (c.pte mmu) p (mmu.protToMmuFlags attr) j m.mem = (mem₁, added) := ⟨_, _, rfl⟩
  obtain ⟨hrun, hadd⟩ := mapRun_eq mmu (c.pte mmu) p (mmu.protToMmuFlags attr) j m.mem
  have hfun : (fun i => mmu.encodePte (wadd p (i * mmu.pageSize)) (mmu.protToMmuFlags attr)) =
      w := by
    rw [hw, pageSize_eq]
    rfl
  rw [hmr, hfun, hpte] at hrun
  rw [hmr, hpte] at hadd
  dsimp only at hrun hadd
  rw [← hrun] at ht wf' hmap
  obtain ⟨m₂, hu, hr⟩ : ∃ m₂, updateRefcnt mmu { m with mem := mem₁ } c.table added = .ok m₂ ∧
      Recounted mmu boot _ c.table added m₂ :=
    updateRefcnt_spec (h.aligned hit) (fun hb => h.ptable _ hit hb) (fun hb => h.invalid _ hit hb)
      (fun _ hneg => by omega)
  have hmem : m₂.mem = mem₁ := hr.mem
  have hwords : ∀ t, IsTable mmu m.mem root t → t ≠ c.table → ∀ i < mmu.tableEntries,
      m₂.mem (t + i * 8) = m.mem (t + i * 8) := by
    intro t hti hne i hlt
    rw [hmem, hrun]
    exact overwrite_words law h.wf hit hjn.2.2 hti hne hlt
  have hinv : Inv mmu m₂ root R Rest boot :=
    (h.rewrite ht wf').recount ((isTable_congr ht _).mpr hit) hr
  have hgrown : Grown mmu m root R Rest boot x (x + j) (mapTarget mmu attr p x) m₂ := by
    refine grown_put hinv ?_ (fun d q => by rw [hmem, ht]) hwords ?_ ?_ ?_ ?_ hr.freed hr.available
    · intro x' hx'
      rw [hmem, hmap x' hx']
      split
      · show entryMap mmu 1 (w (x' - x)) x' = mapTarget mmu attr p x x'
        rw [entryMap, hpres, if_pos rfl, hw, law.decode_leaf _ _ _ le_rfl (by norm_num) (hdvd _),
          law.leaf_prot _ _ _ le_rfl (by norm_num) (hdvd _), Nat.sub_self, Nat.pow_zero,
          Nat.mod_one, Nat.zero_mul, Nat.add_zero]
        rfl
      · rfl
    · intro t hti hne
      exact hr.other t (h.aligned hti) hne
    · intro K hK hnb
      have htop := law.three_le_top
      have hne := h.wf.ne_root hpar (by omega)
      have hcount : presentCount mmu (overwrite (pteAt mmu c.table x) w j m.mem)
        c.table ∅ + _ = _ + _ := presentCount_overwrite hjn.2.2
      have hold := hK.count _ hit hnb
      have hones : ∑ _i ∈ Finset.range j, 1 = j :=
        (Finset.card_eq_sum_ones _).symm.trans (Finset.card_range j)
      have hsplit : (∑ i ∈ Finset.range j, if mmu.ptePresent
          (m.mem (c.table + x % mmu.tableEntries * 8 + i * 8)) then 1 else 0) + added = j := by
        rw [hadd, ← Finset.sum_add_distrib]
        refine (Finset.sum_congr rfl fun i _ => ?_).trans hones
        split <;> rfl
      simp only [hpres, if_true, hones] at hcount
      rw [reserved, if_neg hne] at hold ⊢
      rw [hmem, hrun]
      refine hr.exact law hnb ?_ (presentCount_le _ _ _ _)
      exact (congrArg (fun k : ℕ => (k : ℤ) + added) hold).trans (by omega)
    · intro i _ hpi
      rw [hmem, hrun]
      exact overwrite_present (fun k _ => hpres k) (Or.inl hpi)
    · intro b hb a ha
      rw [hmem, hrun]
      refine overwrite_other fun k hk => ?_
      have hword := h.rest_word law hb ha hit (show x % mmu.tableEntries + k < _ by omega)
      rw [pteAt]
      omega
  refine Ensures.of_eq (r := (m₂, c.advance (j <<< mmu.pageSizeShift) j,
    wadd p (j <<< mmu.pageSizeShift))) ?_ ⟨j, y, ?_⟩
  · simp only [mapEntry, hl, if_true, ← hj, hmr, hu, ok_bind]
  · refine ⟨?_, hjn.2.1, hgrown, by rw [Nat.shiftLeft_eq], turns_advance hi hjn.1 hjn.2.1,
      ?_⟩
    · exact (hc.congr fun d q f hq => by rw [hmem, ht, hq]).moved hmoved rfl rfl
    · refine settled_of_filled hgrown (fun d q => by rw [hmem, ht])
        ⟨x % mmu.tableEntries, by omega, ?_⟩
      rw [hmem, hrun]
      exact overwrite_present (fun k _ => hpres k) (Or.inr (by omega))

omit hn hp in
theorem count_entry (w : ℕ) (hw : mmu.ptePresent w = true) :
    ∃ m₁, (if !mmu.ptePresent (m.mem (c.pte mmu)) then updateRefcnt mmu m c.table 1 else .ok m) =
        .ok m₁ ∧ Inv mmu m₁ root R Rest boot ∧ m₁.mem = m.mem ∧ m₁.freed = m.freed ∧
      availableFrames m₁.buddy = availableFrames m.buddy ∧
      (∀ t, IsTable mmu m.mem root t → t ≠ c.table →
        m₁.page mmu.pageSizeShift t = m.page mmu.pageSizeShift t) ∧
      ∀ K, Counts mmu m root boot K → c.table ∉ boot →
        (m₁.page mmu.pageSizeShift c.table).refCount =
          presentCount mmu (update m.mem (c.pte mmu) w) c.table (reserved root K c.table) := by
  have hit : IsTable mmu m.mem root c.table := ⟨_, _, hc.table_eq⟩
  have hlt := hc.index_lt hi
  have hpte : c.pte mmu = c.table + c.index * 8 := by rw [hc.pte_eq, pteAt, (hc.slot_parts hi).2]
  have hcount : ∀ K, Counts mmu m root boot K → c.table ∉ boot →
      (m.page mmu.pageSizeShift c.table).refCount +
          (if mmu.ptePresent (m.mem (c.pte mmu)) then 0 else 1) =
        presentCount mmu (update m.mem (c.pte mmu) w) c.table (reserved root K c.table) := by
    intro K hK hnb
    rw [hpte, presentCount_present hK hlt hw, hK.count _ hit hnb]
  cases hpr : mmu.ptePresent (m.mem (c.pte mmu)) with
  | true =>
    refine ⟨m, rfl, h, rfl, rfl, rfl, fun _ _ _ => rfl, fun K hK hnb => ?_⟩
    have := hcount K hK hnb
    rwa [hpr] at this
  | false =>
    obtain ⟨m₁, hu, hr⟩ : ∃ m₁, updateRefcnt mmu m c.table 1 = .ok m₁ ∧
        Recounted mmu boot m c.table 1 m₁ :=
      updateRefcnt_spec (h.aligned hit) (fun hb => h.ptable _ hit hb)
        (fun hb => h.invalid _ hit hb) (fun _ hneg => by omega)
    refine ⟨m₁, hu, h.recount hit hr, hr.mem, hr.freed, hr.available,
      fun t hti hne => hr.other t (h.aligned hti) hne, fun K hK hnb => ?_⟩
    have hk := hcount K hK hnb
    rw [hpr] at hk
    refine hr.exact law hnb ?_ (presentCount_le _ _ _ _)
    rw [← hk]
    rfl

omit h hi hn hp in
theorem entryMap_leaf (hl : c.level ≤ 3) (hx : mmu.tableEntries ^ (c.level - 1) ∣ x)
    (hp : mmu.entrySize c.level ∣ p) {x' : ℕ}
    (hx' : x ≤ x' ∧ x' < x + mmu.tableEntries ^ (c.level - 1)) :
    entryMap mmu c.level (mmu.leafPte c.level p attr) x' = mapTarget mmu attr p x x' := by
  have h1 := hc.level_pos
  obtain ⟨o, rfl⟩ : ∃ o, x' = x + o := ⟨x' - x, by omega⟩
  obtain ⟨q, rfl⟩ := hx
  have ho : o < mmu.tableEntries ^ (c.level - 1) := by omega
  have hmod : (mmu.tableEntries ^ (c.level - 1) * q + o) % mmu.tableEntries ^ (c.level - 1) =
      o := by
    rw [Nat.mul_add_mod, Nat.mod_eq_of_lt ho]
  have hdvd := entrySize_dvd law hl
  have hsmall : o * 2 ^ mmu.pageSizeShift < mmu.entrySize c.level := by
    rw [entrySize_eq]
    exact Nat.mul_lt_mul_of_pos_right ho (Nat.two_pow_pos _)
  have hsum : wadd p (o * 2 ^ mmu.pageSizeShift) % 2 ^ 52 =
      p % 2 ^ 52 + o * 2 ^ mmu.pageSizeShift := by
    rw [wadd, Nat.mod_mod_of_dvd _ (show 2 ^ 52 ∣ word from Nat.pow_dvd_pow 2 (by decide))]
    obtain ⟨a, rfl⟩ := hp
    obtain ⟨b, hb⟩ := hdvd
    have hpos : 0 < mmu.entrySize c.level := by omega
    rw [hb, Nat.mul_mod_mul_left, Nat.mod_mul, Nat.mul_add_div hpos, Nat.div_eq_of_lt hsmall,
      Nat.add_zero, Nat.mul_add_mod, Nat.mod_eq_of_lt hsmall, Nat.add_comm]
  rw [entryMap, if_pos (law.leaf _ _ _ h1 hl).1, law.decode_leaf _ _ _ h1 hl hp,
    law.leaf_prot _ _ _ h1 hl hp, hmod, mapTarget, Nat.add_sub_cancel_left, hsum]

omit hn hp in
theorem mapEntry_leaf (hl : c.level ≠ 1) (hfit : mapLeafFits mmu m c p = true) :
    Ensures (NoPage m) (mapEntry mmu attr m c p)
      (MapTurns mmu m root R Rest boot c x n attr p) := by
  have h1 := hc.level_pos
  have h2 := hc.level_le
  have hpar := hc.parent_table hi
  have hit : IsTable mmu m.mem root c.table := ⟨_, _, hpar⟩
  have hpte := hc.pte_eq
  have hlt := hc.index_lt hi
  have hfit' := hfit
  simp only [mapLeafFits, Bool.and_eq_true, Bool.or_eq_true, Bool.not_eq_true',
    decide_eq_true_eq] at hfit
  obtain ⟨⟨⟨hsup, hvalid⟩, hxa, hpa⟩, hsize⟩ := hfit
  have h3 := Mmu.supportsLeaf_le hsup
  rw [hc.pos.aligned_iff (by omega)] at hxa
  rw [aligned_entrySize] at hpa
  have hold : child mmu (mmu.topLevel - c.level) (m.mem (c.pte mmu)) = none := by
    rw [child_eq_none, Nat.sub_sub_self h2]
    intro hpr
    exact hvalid.resolve_left (by simp [hpr])
  rw [hpte] at hold
  have hplain := plain_leafPte law attr h1 h3 hpa
  have hpres := (law.leaf c.level p attr h1 h3).1
  obtain ⟨m₁, hu, hinv, hmem, hfreed, hav, hpages, hcount⟩ := count_entry law h hc hi _ hpres
  have ht := table_put law h.wf hpar hplain hold
  have hmap := fun x' (hx' : x' < span mmu) =>
    pageMap_put law h.wf hpar hplain (show mmu.topLevel - c.level < mmu.topLevel by omega) hx'
  have wf' := wellFormed_put law h.wf hpar hplain
  rw [← hpte] at ht wf'
  simp only [← hpte] at hmap
  have hmem₂ : (m₁.write (c.pte mmu) (mmu.leafPte c.level p attr)).mem =
      update m.mem (c.pte mmu) (mmu.leafPte c.level p attr) := by rw [write_mem, hmem]
  have hpow := entries_pow_pos mmu (c.level - 1)
  have hfirst : x / mmu.tableEntries ^ (c.level - 1) * mmu.tableEntries ^ (c.level - 1) = x :=
    Nat.div_mul_cancel hxa
  have hslot : ∀ x', x' / mmu.tableEntries ^ (c.level - 1) = x / mmu.tableEntries ^ (c.level - 1) ↔
      x ≤ x' ∧ x' < x + mmu.tableEntries ^ (c.level - 1) := by
    intro x'
    rw [Nat.div_eq_iff hpow, hfirst]
    omega
  have hwords : ∀ t, IsTable mmu m.mem root t → t ≠ c.table → ∀ i < mmu.tableEntries,
      update m.mem (c.pte mmu) (mmu.leafPte c.level p attr) (t + i * 8) = m.mem (t + i * 8) := by
    rintro t ⟨d, q, hq⟩ hne i hlt'
    rw [update_of_ne]
    rw [hpte]
    intro he
    exact hne (word_injective law (h.wf.frame _ _ _ hq) (h.wf.frame _ _ _ hpar) hlt'
      (Nat.mod_lt _ (tableEntries_pos mmu)) he).1
  have hgrown : Grown mmu m root R Rest boot x (x + mmu.tableEntries ^ (c.level - 1))
      (mapTarget mmu attr p x) (m₁.write (c.pte mmu) (mmu.leafPte c.level p attr)) := by
    refine grown_put ?_ ?_ (fun d q => by rw [hmem₂, ht]) (by rw [hmem₂]; exact hwords) hpages
      (by rw [hmem₂]; exact hcount) ?_ ?_ hfreed hav
    · have hre : Inv mmu { m₁ with
          mem := update m.mem (c.pte mmu) (mmu.leafPte c.level p attr) } root R Rest boot :=
        hinv.rewrite (fun d q => by rw [ht, hmem]) wf'
      rw [← hmem₂] at hre
      exact hre
    · intro x' hx'
      rw [hmem₂, hmap x' hx', Nat.sub_sub_self h2]
      by_cases hin : x ≤ x' ∧ x' < x + mmu.tableEntries ^ (c.level - 1)
      · rw [if_pos ((hslot x').mpr hin), if_pos hin]
        exact entryMap_leaf law hc h3 hxa hpa hin
      · rw [if_neg (mt (hslot x').mp hin), if_neg hin]
    · intro i _ hpi
      rw [hmem₂]
      by_cases he : c.table + i * 8 = c.pte mmu
      · rw [he, update_self, hpres]
      · rw [update_of_ne he, hpi]
    · intro b hb a ha
      rw [hmem₂, hpte]
      exact update_of_ne
        (h.rest_word law hb ha hit (Nat.mod_lt _ (tableEntries_pos mmu))) _ _
  have hjn : mmu.tableEntries ^ (c.level - 1) ≤ n := by
    rw [entrySize_eq, hc.len] at hsize
    exact Nat.le_of_mul_le_mul_right hsize (Nat.two_pow_pos _)
  refine Ensures.of_eq (r := (m₁.write (c.pte mmu) (mmu.leafPte c.level p attr),
    c.advance (mmu.entrySize c.level) 1, wadd p (mmu.entrySize c.level))) ?_
    ⟨mmu.tableEntries ^ (c.level - 1), y, ?_⟩
  · simp only [mapEntry, if_neg hl, if_pos hfit', ok_bind]
    by_cases habs : (!mmu.ptePresent (m.mem (c.pte mmu))) = true
    · rw [if_pos habs] at hu ⊢
      rw [hu]
      rfl
    · rw [if_neg habs] at hu ⊢
      cases hu
      rfl
  · rw [entrySize_eq]
    refine ⟨?_, hjn, hgrown, rfl, turns_advance hi hpow hjn, ?_⟩
    · refine (hc.congr fun d q f hq => ?_).moved (hc.next law hi ?_) rfl rfl
      · rw [hmem₂, ht, hq]
      · rw [Nat.add_mul, hfirst, Nat.one_mul]
    · refine settled_of_filled hgrown (fun d q => by rw [hmem₂, ht]) ⟨c.index, hlt, ?_⟩
      rw [hmem₂, hpte, pteAt, (hc.slot_parts hi).2, update_self, hpres]

omit hp in
theorem mapEntry_child (hw : p < word) (hl : c.level ≠ 1) (hfit : mapLeafFits mmu m c p = false) :
    Ensures (NoPage m) (mapEntry mmu attr m c p)
      (MapTurns mmu m root R Rest boot c x n attr p) := by
  have h1 := hc.level_pos
  have h2 := hc.level_le
  have hpar := hc.parent_table hi
  simp only [mapEntry, if_neg hl, hfit, Bool.false_eq_true, if_false]
  refine Ensures.bind (mapChild_spec law h hpar (by omega) hc.pte_eq rfl (by omega)) ?_
  rintro ⟨child, m'⟩ hdes
  have hgrown := hdes.grown x (mapTarget mmu attr p x)
  have htab := hdes.tables_eq (mmu.topLevel - c.level + 1) (x / mmu.tableEntries ^ (c.level - 1))
  rw [if_pos ⟨rfl, rfl⟩] at htab
  have hcur := hc.down hi hl hgrown.tables htab
  have hidx := (hc.down_index_lt hl child).ne
  have hpaddr : p = wadd p (0 * 2 ^ mmu.pageSizeShift) := by
    rw [Nat.zero_mul, wadd, Nat.add_zero, Nat.mod_eq_of_lt hw]
  refine ⟨0, _, hcur, Nat.zero_le n, hgrown, hpaddr, turns_down hc.toPosition hi hl child, ?_⟩
  intro hset d q f hq hd hb
  rw [hdes.tables_eq] at hq
  split at hq
  · cases hq
    refine Or.inr ⟨?_, hidx, by omega⟩
    show child = update c.tables (c.level - 1) child (c.level - 1)
    rw [update_self]
  · rcases hset d q f hq hd hb with hne | ⟨rfl, _⟩
    · exact Or.inl (hgrown.nonEmpty f ⟨d, q, hq⟩ hne)
    · exact Or.inl hdes.parent

theorem mapEntry_spec (hw : p < word) :
    Ensures (NoPage m) (mapEntry mmu attr m c p)
      (MapTurns mmu m root R Rest boot c x n attr p) := by
  by_cases hl : c.level = 1
  · exact mapEntry_run law h hc hi hn hp hl
  · cases hfit : mapLeafFits mmu m c p with
    | true => exact mapEntry_leaf law h hc hi hl hfit
    | false => exact mapEntry_child law h hc hi hn hw hl hfit

end Turn

/-- The last page a call reaches: ranges are cut at the end of the top-level table. -/
def rangeEnd (mmu : Mmu) (x n : ℕ) : ℕ := min (x + n) (span mmu)

/-- A fault that only a shortage of pages explains: fewer than `k` were available. -/
def Short (m : Machine) (k : ℕ) (e : Fault) : Prop := e = outOfMemory ∧ availableFrames m.buddy < k

theorem mapTarget_step (hx : x + j ≤ x') :
    mapTarget mmu attr (wadd p (j * 2 ^ mmu.pageSizeShift)) (x + j) x' =
      mapTarget mmu attr p x x' := by
  have hsplit : (x' - x) * 2 ^ mmu.pageSizeShift =
      j * 2 ^ mmu.pageSizeShift + (x' - (x + j)) * 2 ^ mmu.pageSizeShift := by
    rw [← Nat.add_mul]
    congr 1
    omega
  rw [mapTarget, mapTarget, hsplit, wadd, wadd, wadd, Nat.mod_add_mod, Nat.add_assoc]

theorem mapDone_refl (h : Inv mmu m root R Rest boot) (hab : b ≤ a) (target : ℕ → Option (ℕ × ℕ)) :
    MapDone mmu m root R Rest boot a b target m := by
  refine ⟨h, fun x' _ => ?_, fun _ _ _ ht => ht, fun _ hK => hK, fun _ _ _ _ => rfl, rfl⟩
  rw [if_neg (by omega)]

theorem mapDone_after (hg : Grown mmu m root R Rest boot a b target m₁)
    (hd : MapDone mmu m₁ root R Rest boot b e target' m') (hab : a ≤ b) (hbe : b ≤ e)
    (ht : ∀ x', b ≤ x' → target' x' = target x') :
    MapDone mmu m root R Rest boot a e target m' := by
  refine ⟨hd.inv, fun x' hx' => ?_, fun d q f hq => hd.tables d q f (hg.tables d q f hq),
    fun K hK => hd.counts K (hg.counts K hK),
    fun b hb v hv => (hd.data b hb v hv).trans (hg.data b hb v hv), hd.freed.trans hg.freed⟩
  rw [hd.mapped x' hx', hg.mapped x' hx']
  by_cases hb : b ≤ x' ∧ x' < e
  · rw [if_pos hb, if_pos (by omega), ht x' hb.1]
  · rw [if_neg hb]
    split_ifs <;> first | rfl | omega

theorem mapLoop_spec (law : mmu.Lawful) (hfuel : turns mmu c n ≤ fuel)
    (h : Inv mmu m root R Rest boot) (hc : Cur mmu m.mem root c x y n)
    (hp : 2 ^ mmu.pageSizeShift ∣ p) (hw : p < word) :
    Ensures (Short m (turns mmu c n)) (mapLoop mmu attr fuel m c p) fun m' =>
      MapDone mmu m root R Rest boot x (rangeEnd mmu x n) (mapTarget mmu attr p x) m' ∧
        availableFrames m.buddy ≤ availableFrames m'.buddy + turns mmu c n ∧
        (Settled mmu m.mem root boot c n → ∀ d q f, table mmu m'.mem root d q = some f → 0 < d →
          f ∉ boot → NonEmpty mmu m'.mem f) := by
  induction fuel generalizing m c x y n p with
  | zero =>
    have hpos := turns_pos hc.toPosition
    omega
  | succ fuel ih =>
    have hpos := turns_pos hc.toPosition
    have hlen : c.len = 0 ↔ n = 0 := by
      rw [hc.len, Nat.mul_eq_zero]
      exact or_iff_left (Nat.two_pow_pos _).ne'
    unfold mapLoop
    by_cases hn : n = 0
    · rw [if_pos (hlen.mpr hn)]
      refine ⟨mapDone_refl h (by rw [rangeEnd]; omega) _, Nat.le_add_right _ _,
        fun hset d q f hq hd hb => ?_⟩
      exact (hset d q f hq hd hb).resolve_right fun hr => hr.2.2 hn
    rw [if_neg (mt hlen.mp hn)]
    dsimp only
    by_cases hi : c.index = mmu.tableEntries
    · rw [if_pos hi]
      have hsettled : Settled mmu m.mem root boot c n → ∀ d q f, table mmu m.mem root d q = some f →
          0 < d → f ∉ boot → NonEmpty mmu m.mem f := fun hset d q f hq hd hb =>
        (hset d q f hq hd hb).resolve_right fun hr => hr.2.1 hi
      by_cases hl : c.level = mmu.topLevel
      · rw [if_pos hl]
        have hx := hc.at_top hi hl
        exact ⟨mapDone_refl h (by rw [rangeEnd]; omega) _, Nat.le_add_right _ _, hsettled⟩
      · rw [if_neg hl]
        have hlt := lt_of_le_of_ne hc.level_le hl
        have hturn := turns_up n hi hlt
        refine ((ih (by omega) h (hc.up law hi hlt) hp hw).fault ?_).imp ?_
        · rintro e ⟨he, hav⟩
          exact ⟨he, by omega⟩
        · rintro m' ⟨hd, hav, hset⟩
          exact ⟨hd, by omega,
            fun hs => hset fun d q f hq hd hb => Or.inl (hsettled hs d q f hq hd hb)⟩
    · rw [if_neg hi]
      refine Ensures.bind ((mapEntry_spec law h hc hi (by omega) hp hw).fault ?_) ?_
      · rintro e ⟨he, hav⟩
        exact ⟨he, by omega⟩
      rintro ⟨m₁, c₁, p₁⟩ ⟨j, y₁, ht⟩
      obtain ⟨hcur, hj, hg, hp₁, hturn, hset⟩ := ht
      dsimp only at hcur hg hp₁ hturn hset ⊢
      have hav := hg.available
      have hdvd : 2 ^ mmu.pageSizeShift ∣ p₁ := hp₁ ▸ page_dvd_wadd law hp j
      have hlt : p₁ < word := hp₁ ▸ wadd_lt _ _
      have hspan : x + j ≤ span mmu := hcur.le_span
      have hend : rangeEnd mmu (x + j) (n - j) = rangeEnd mmu x n := by
        unfold rangeEnd
        omega
      refine ((ih (by omega) hg.inv hcur hdvd hlt).fault ?_).imp ?_
      · rintro e ⟨he, hlow⟩
        exact ⟨he, by omega⟩
      · rintro m' ⟨hd, hleft, hne⟩
        rw [hend] at hd
        have hle : x + j ≤ rangeEnd mmu x n := by
          unfold rangeEnd
          omega
        refine ⟨mapDone_after hg hd (by omega) hle ?_, by omega, fun hs => hne (hset hs)⟩
        intro x' hx'
        rw [hp₁]
        exact mapTarget_step hx'

theorem pageNumber_add (hv : 2 ^ mmu.pageSizeShift ∣ vaddr)
    (hcross : pageNumber mmu vaddr + len / 2 ^ mmu.pageSizeShift ≤ span mmu) (ho : o < len)
    (hl : 2 ^ mmu.pageSizeShift ∣ len) :
    pageNumber mmu (vaddr + o) = pageNumber mmu vaddr + o / 2 ^ mmu.pageSizeShift ∧
      o / 2 ^ mmu.pageSizeShift < len / 2 ^ mmu.pageSizeShift := by
  have hpos := Nat.two_pow_pos mmu.pageSizeShift
  have hlt : o / 2 ^ mmu.pageSizeShift < len / 2 ^ mmu.pageSizeShift := by
    rwa [Nat.div_lt_iff_lt_mul hpos, Nat.div_mul_cancel hl]
  refine ⟨?_, hlt⟩
  obtain ⟨a, rfl⟩ := hv
  unfold pageNumber at hcross ⊢
  rw [Nat.mul_div_cancel_left _ hpos] at hcross ⊢
  rw [Nat.mul_add_div hpos, Nat.add_mod, Nat.mod_eq_of_lt (show o / _ < span mmu by omega),
    Nat.mod_eq_of_lt]
  omega

/-- A call does its range up to the end of the top-level table, unless it runs out of pages. -/
theorem pagingMapRange_spec (law : mmu.Lawful) (h : Inv mmu m root R Rest boot)
    (hv : 2 ^ mmu.pageSizeShift ∣ vaddr) (hp : 2 ^ mmu.pageSizeShift ∣ paddr)
    (hl : 2 ^ mmu.pageSizeShift ∣ len) (hword : paddr < word) :
    Ensures (Short m (rangeTurns mmu len)) (pagingMapRange mmu m root vaddr paddr len attr)
      fun m' =>
      MapDone mmu m root R Rest boot (pageNumber mmu vaddr)
        (rangeEnd mmu (pageNumber mmu vaddr) (len / 2 ^ mmu.pageSizeShift))
        (mapTarget mmu attr paddr (pageNumber mmu vaddr)) m' ∧
      availableFrames m.buddy ≤ availableFrames m'.buddy + rangeTurns mmu len := by
  have hc : Cur mmu m.mem root (Cursor.start mmu root vaddr len) (pageNumber mmu vaddr) 0
      (len / 2 ^ mmu.pageSizeShift) :=
    Cur.start hv (by have := law.three_le_top; omega) (Nat.div_mul_cancel hl).symm
  have hfuel : turns mmu (Cursor.start mmu root vaddr len) (len / 2 ^ mmu.pageSizeShift) ≤
      rangeTurns mmu len := turns_start.le
  have haligned : ∀ a, 2 ^ mmu.pageSizeShift ∣ a → isAligned a mmu.pageSize = true := by
    intro a ha
    rw [Mmu.pageSize, Nat.one_shiftLeft]
    exact (isAligned_two_pow a _).mpr ha
  have hcall : pagingMapRange mmu m root vaddr paddr len attr =
      mapLoop mmu attr (rangeTurns mmu len)
      m (Cursor.start mmu root vaddr len) paddr := by
    simp only [pagingMapRange, haligned _ hv, haligned _ hp, haligned _ hl, kassert_true, ok_bind]
  rw [hcall]
  refine ((mapLoop_spec law hfuel h hc hp hword).fault ?_).imp ?_
  · rintro e ⟨he, hav⟩
    exact ⟨he, by omega⟩
  · rintro m' ⟨hd, hav, -⟩
    exact ⟨hd, by omega⟩

theorem translate_range
    (hd : MapDone mmu m root R Rest boot (pageNumber mmu vaddr) (rangeEnd mmu (pageNumber mmu
      vaddr) (len / 2 ^ mmu.pageSizeShift)) (mapTarget mmu attr paddr (pageNumber mmu vaddr)) m')
    (hv : 2 ^ mmu.pageSizeShift ∣ vaddr) (hl : 2 ^ mmu.pageSizeShift ∣ len)
    (hphys : paddr + len ≤ 2 ^ 52)
    (hcross : pageNumber mmu vaddr + len / 2 ^ mmu.pageSizeShift ≤ span mmu) (ho : o < len) :
    translate mmu m'.mem root (vaddr + o) = some (paddr + o, mmu.protection attr) := by
  obtain ⟨hpage, hlt⟩ := pageNumber_add hv hcross ho hl
  have hoff : (vaddr + o) % 2 ^ mmu.pageSizeShift = o % 2 ^ mmu.pageSizeShift := by
    obtain ⟨a, rfl⟩ := hv
    exact Nat.mul_add_mod _ _ _
  have hdiv := Nat.div_add_mod' o (2 ^ mmu.pageSizeShift)
  have hsum : paddr + o / 2 ^ mmu.pageSizeShift * 2 ^ mmu.pageSizeShift < 2 ^ 52 := by omega
  have hin : pageNumber mmu vaddr ≤ pageNumber mmu vaddr + o / 2 ^ mmu.pageSizeShift ∧
      pageNumber mmu vaddr + o / 2 ^ mmu.pageSizeShift <
        rangeEnd mmu (pageNumber mmu vaddr) (len / 2 ^ mmu.pageSizeShift) := by
    rw [rangeEnd, min_eq_left hcross]
    exact ⟨Nat.le_add_right _ _, Nat.add_lt_add_left hlt _⟩
  rw [translate_eq_pageMap, hpage, hd.mapped _ (by omega), if_pos hin, mapTarget,
    Nat.add_sub_cancel_left, wadd, Nat.mod_eq_of_lt (lt_trans hsum (by decide)),
    Nat.mod_eq_of_lt hsum, Option.map_some, hoff, Nat.add_assoc, hdiv]

/-- A call maps exactly its range, unless it runs out of pages. The walk drops the
address bits above the top-level index, so an address outside the range keeps its
translation when its page number in the top-level table lies outside. -/
theorem paging_map_range_correct (law : mmu.Lawful) (h : Inv mmu m root R Rest boot)
    {vaddr paddr len attr : ℕ} (hv : 2 ^ mmu.pageSizeShift ∣ vaddr)
    (hp : 2 ^ mmu.pageSizeShift ∣ paddr) (hl : 2 ^ mmu.pageSizeShift ∣ len)
    (hphys : paddr + len ≤ 2 ^ 52)
    (hcross : pageNumber mmu vaddr + len / 2 ^ mmu.pageSizeShift ≤ span mmu) :
    Ensures (Short m (rangeTurns mmu len)) (pagingMapRange mmu m root vaddr paddr len attr)
      fun m' =>
      WellFormed mmu m'.mem root ∧
      (∀ o < len, translate mmu m'.mem root (vaddr + o) = some (paddr + o, mmu.protection attr)) ∧
      ∀ v, ¬ (pageNumber mmu vaddr ≤ pageNumber mmu v ∧
          pageNumber mmu v < pageNumber mmu vaddr + len / 2 ^ mmu.pageSizeShift) →
        translate mmu m'.mem root v = translate mmu m.mem root v := by
  have hword : paddr < word := lt_of_le_of_lt (by omega) (show 2 ^ 52 < word by decide)
  refine (pagingMapRange_spec law h hv hp hl hword).imp fun m' ⟨hd, _⟩ => ?_
  refine ⟨hd.inv.wf, fun o ho => translate_range hd hv hl hphys hcross ho, fun v hout => ?_⟩
  have hend : rangeEnd mmu (pageNumber mmu vaddr) (len / 2 ^ mmu.pageSizeShift) =
      pageNumber mmu vaddr + len / 2 ^ mmu.pageSizeShift := min_eq_left hcross
  rw [hend] at hd
  rw [translate_eq_pageMap, translate_eq_pageMap, hd.mapped _ (pageNumber_lt mmu v), if_neg hout]

def bareMachine : Machine := ⟨initial, fun _ => 0, []⟩

theorem blank_inv (law : mmu.Lawful) (hroot : mmu.IsFrame root)
    (hb : BuddyInv mmu.pageSizeShift s R ∅) (hram : ∀ a ∈ region R, a ≠ 0 ∧ a < 2 ^ 52)
    (hout : root ∉ region R) (hinv : (pfndbGetEntry mmu.pageSizeShift s root).type = .invalid) :
    Inv mmu ⟨s, fun _ => 0, []⟩ root R ∅ {root} := by
  have hempty : ∀ i < mmu.tableEntries, mmu.ptePresent 0 = false := fun _ _ => law.absent
  have hboot : ∀ f, IsTable mmu (fun _ => 0) root f → f ∈ ({root} : Set ℕ) := by
    rintro f ⟨d, q, ht⟩
    exact (table_of_empty hempty ht).2.2
  refine ⟨wellFormed_of_empty hempty hroot, ?_, ?_, hram, ?_, ?_, ?_⟩
  · have hnone : tableBlocks mmu (fun _ => 0) root {root} = ∅ := by
      refine Set.eq_empty_iff_forall_notMem.mpr ?_
      rintro b ⟨f, hf, hb, -⟩
      exact hb (hboot f hf)
    rw [hnone, Set.empty_union]
    exact hb
  · exact fun f hf hb => (hb (hboot f hf)).elim
  · intro f hf
    rw [Set.mem_singleton_iff.mp hf]
    exact hout
  · exact fun f hf hb => (hb (hboot f hf)).elim
  · intro f _ hf
    rw [Set.mem_singleton_iff.mp hf]
    exact hinv

/-- A machine whose memory is one block behind the root table. -/
theorem block_inv (law : mmu.Lawful) (hroot : mmu.IsFrame root) (hk : k ≤ maxOrder)
    (hp : 2 ^ (mmu.pageSizeShift + k) ∣ p) (hlt : root < p)
    (htop : p + 2 ^ (mmu.pageSizeShift + k) ≤ 2 ^ 52)
    (hs : s = buddyAddBlock mmu.pageSizeShift initial p k)
    (hinv : (pfndbGetEntry mmu.pageSizeShift s root).type = .invalid) :
    Inv mmu ⟨s, fun _ => 0, []⟩ root {blk mmu.pageSizeShift p k} ∅ {root} := by
  have hregion : ∀ a ∈ region {blk mmu.pageSizeShift p k}, p ≤ a ∧ a < 2 ^ 52 := by
    rintro a ⟨b, rfl, ha⟩
    exact ⟨ha.1, lt_of_lt_of_le ha.2 htop⟩
  have hadd := MemBuddyRuns.addBlock_inv MemBuddyRuns.initial_inv hk hp fun r hr => hr.elim
  rw [insert_empty_eq, ← hs] at hadd
  refine blank_inv law hroot hadd (fun a ha => ?_) (fun ha => ?_) hinv
  · have := hregion a ha
    omega
  · have := hregion _ ha
    omega

theorem bare_inv (law : mmu.Lawful) (hroot : mmu.IsFrame root) :
    Inv mmu bareMachine root ∅ ∅ {root} :=
  blank_inv law hroot MemBuddyRuns.initial_inv (fun _ ⟨_, hb, _⟩ => hb.elim)
    (fun ⟨_, hb, _⟩ => hb.elim) rfl

theorem sv39_lawful : sv39.Lawful := riscv64_lawful (by decide) (by decide)

theorem bare_sv39 : Inv sv39 bareMachine 0x1000 ∅ ∅ {0x1000} :=
  bare_inv sv39_lawful ⟨by decide, by decide, by decide⟩

theorem giant_page_mapped : ∃ m', pagingMapRange sv39 bareMachine 0x1000 0x40000000 0x80000000
    0x40000000 pageW = .ok m' ∧ ∀ o < 0x40000000,
      translate sv39 m'.mem 0x1000 (0x40000000 + o) =
        some (0x80000000 + o, sv39.protection pageW) := by
  obtain ⟨m', hm⟩ : ∃ m', pagingMapRange sv39 bareMachine 0x1000 0x40000000 0x80000000 0x40000000
    pageW = .ok m' := ⟨_, rfl⟩
  have h : Ensures _ (pagingMapRange sv39 bareMachine 0x1000 0x40000000 0x80000000 0x40000000
      pageW) _ := paging_map_range_correct sv39_lawful bare_sv39
    (show 2 ^ 12 ∣ 0x40000000 by decide) (show 2 ^ 12 ∣ 0x80000000 by decide)
    (show 2 ^ 12 ∣ 0x40000000 by decide) (by decide) (by decide)
  rw [hm] at h
  exact ⟨m', hm, h.2.1⟩

/-- Mapping above the reach of the top-level table changes an address far outside. -/
theorem aliased_address_changed : ∃ m',
    pagingMapRange sv39 bareMachine 0x1000 0x4000000000 0x80000000
      0x40000000 pageW = .ok m' ∧ WellFormed sv39 bareMachine.mem 0x1000 ∧
    ¬ (0x4000000000 ≤ 0xffffffc000000000 ∧ 0xffffffc000000000 < 0x4000000000 + 0x40000000) ∧
    translate sv39 bareMachine.mem 0x1000 0xffffffc000000000 = none ∧
    translate sv39 m'.mem 0x1000 0xffffffc000000000 = some (0x80000000, sv39.protection pageW) :=
  ⟨_, rfl, bare_sv39.wf, by decide, by decide, by decide⟩

end ArchPagingMap
