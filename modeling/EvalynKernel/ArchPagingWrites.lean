import EvalynKernel.ArchPagingTables

/-! # Writes to page tables

The loops change the tables in two ways: an entry without a pointer is overwritten by
another one, or a new table without pointers is linked below such an entry. Both keep the
tables well formed and change the mapping of the pages below the entry only. -/
namespace ArchPagingWrites

open Function ArchPagingFormats ArchPaging RadixTables
open ArchPagingTables

variable {mmu : Mmu} {mem mem' : ℕ → ℕ} {root d g f c w : ℕ}

theorem frame_words (law : mmu.Lawful) (hf : mmu.IsFrame f) :
    ∃ k, f = k * (mmu.tableEntries * 8) := by
  obtain ⟨k, hk⟩ := hf.aligned
  refine ⟨k, ?_⟩
  rw [hk, tableEntries_eq, ← law.bits, Nat.pow_add, Nat.mul_comm]

theorem pageSize_words (law : mmu.Lawful) : 2 ^ mmu.pageSizeShift = mmu.tableEntries * 8 := by
  rw [tableEntries_eq, ← law.bits, Nat.pow_add]

variable {i f' : ℕ}

theorem word_injective (law : mmu.Lawful) (hf : mmu.IsFrame f) (hf' : mmu.IsFrame f')
    (hi : i < mmu.tableEntries) (hi' : i' < mmu.tableEntries) (h : f + i * 8 = f' + i' * 8) :
    f = f' ∧ i = i' := by
  obtain ⟨k, rfl⟩ := frame_words law hf
  obtain ⟨k', rfl⟩ := frame_words law hf'
  have hdiv : ∀ k i, i < mmu.tableEntries →
      (k * (mmu.tableEntries * 8) + i * 8) / (mmu.tableEntries * 8) = k := by
    intro k i hi
    rw [Nat.mul_comm k, Nat.mul_add_div (by omega), Nat.div_eq_of_lt (by omega), Nat.add_zero]
  have hk : k = k' := by rw [← hdiv k i hi, h, hdiv k' i' hi']
  subst hk
  exact ⟨rfl, by omega⟩

theorem word_in_page (law : mmu.Lawful) (hf : mmu.IsFrame f) (hc : mmu.IsFrame c)
    (hi : i < mmu.tableEntries) (ha : a = f + i * 8) (hp : c ≤ a ∧ a < c + 2 ^ mmu.pageSizeShift) :
    f = c := by
  have hsize := pageSize_words law
  obtain ⟨k, hk⟩ := frame_words law hc
  obtain ⟨j, hj⟩ := frame_words law hf
  have h1 : k * (mmu.tableEntries * 8) < (j + 1) * (mmu.tableEntries * 8) := by
    rw [Nat.add_mul]; omega
  have h2 : j * (mmu.tableEntries * 8) < (k + 1) * (mmu.tableEntries * 8) := by
    rw [Nat.add_mul]; omega
  have h3 := Nat.lt_of_mul_lt_mul_right h1
  have h4 := Nat.lt_of_mul_lt_mul_right h2
  rw [hk, hj, show j = k by omega]

variable {d' g' : ℕ}

theorem entry_congr (ht : table mmu mem' root d' (g' / mmu.tableEntries) =
      table mmu mem root d' (g' / mmu.tableEntries))
    (hw : ∀ f', table mmu mem root d' (g' / mmu.tableEntries) = some f' →
      mem' (f' + g' % mmu.tableEntries * 8) = mem (f' + g' % mmu.tableEntries * 8)) :
    entry mmu mem' root d' g' = entry mmu mem root d' g' := by
  cases hm : table mmu mem root d' (g' / mmu.tableEntries) with
  | none =>
    rw [hm] at ht
    rw [table] at ht hm
    rw [entry, entryAt, entry, entryAt, ht, hm]
    rfl
  | some f' => rw [entry_of_table (ht.trans hm), entry_of_table hm, hw f' hm]

section Data

variable (hkept : ∀ f i, IsTable mmu mem root f → i < mmu.tableEntries →
  mem' (f + i * 8) = mem (f + i * 8))

include hkept

theorem table_kept (d q : ℕ) : table mmu mem' root d q = table mmu mem root d q := by
  refine tableAt_congr (tableEntries_pos mmu) (fun d q f i ht hi => ?_) d q
  exact congrArg (child mmu d) (hkept f i ⟨d, q, ht⟩ hi)

theorem entry_kept (d g : ℕ) : entry mmu mem' root d g = entry mmu mem root d g :=
  entry_congr (table_kept hkept d _) fun f ht =>
    hkept f _ ⟨d, _, ht⟩ (Nat.mod_lt g (tableEntries_pos mmu))

theorem isTable_kept (f : ℕ) : IsTable mmu mem' root f ↔ IsTable mmu mem root f := by
  simp only [IsTable, table_kept hkept]

theorem wellFormed_kept (wf : WellFormed mmu mem root) : WellFormed mmu mem' root := by
  constructor
  · intro d q f
    rw [table_kept hkept]
    exact wf.frame d q f
  · intro d q d' q' f
    rw [table_kept hkept, table_kept hkept]
    exact wf.distinct d q d' q' f
  · intro d g pte
    rw [entry_kept hkept]
    exact wf.leaf d g pte

theorem resolves_kept (x l w : ℕ) : Resolves mmu mem' root x l w ↔ Resolves mmu mem root x l w :=
  resolves_congr (fun d _ => entry_kept hkept d _) l w

theorem translate_kept (vaddr : ℕ) :
    translate mmu mem' root vaddr = translate mmu mem root vaddr := by
  rw [translate_eq_pageMap, translate_eq_pageMap,
    pageMap_of_iff (pageNumber_lt mmu vaddr) (resolves_kept hkept _)]

end Data

theorem kept_of_page (law : mmu.Lawful) (wf : WellFormed mmu mem root) (hc : mmu.IsFrame c)
    (hn : ¬ IsTable mmu mem root c)
    (hsame : ∀ a, ¬ (c ≤ a ∧ a < c + 2 ^ mmu.pageSizeShift) → mem' a = mem a)
    (hf : IsTable mmu mem root f) (hi : i < mmu.tableEntries) :
    mem' (f + i * 8) = mem (f + i * 8) := by
  obtain ⟨d, q, ht⟩ := hf
  refine hsame _ fun hpage => hn ?_
  rw [← word_in_page law (wf.frame d q f ht) hc hi rfl hpage]
  exact ⟨d, q, ht⟩

theorem slot_ne (h : ¬ (d' = d ∧ g' = g)) :
    ¬ (d' = d ∧ g' / mmu.tableEntries * mmu.tableEntries + g' % mmu.tableEntries = g) := by
  rwa [Nat.mul_comm, Nat.div_add_mod]

theorem plain_zero (law : mmu.Lawful) (d : ℕ) : Plain mmu d 0 := by
  intro h
  rw [law.absent] at h
  cases h

variable {q' x : ℕ}

section Put

/-! ## Overwriting an entry by one that has no pointer -/

variable (law : mmu.Lawful) (wf : WellFormed mmu mem root)
  (hf : table mmu mem root d (g / mmu.tableEntries) = some f)

include law wf hf

theorem word_other (ht : table mmu mem root d' q' = some f') (hi : i < mmu.tableEntries)
    (hne : ¬ (d' = d ∧ q' * mmu.tableEntries + i = g)) :
    f' + i * 8 ≠ pteAt mmu f g := by
  intro he
  obtain ⟨rfl, rfl⟩ := word_injective law (wf.frame _ _ _ ht) (wf.frame _ _ _ hf) hi
    (Nat.mod_lt _ (tableEntries_pos mmu)) he
  obtain ⟨rfl, rfl⟩ := wf.distinct _ _ _ _ _ ht hf
  exact hne ⟨rfl, by rw [Nat.mul_comm, Nat.div_add_mod]⟩

theorem agreeOff_update (w : ℕ) : AgreeOff mmu.tableEntries (child mmu) (readWord mem)
    (readWord (update mem (pteAt mmu f g) w)) root d g :=
  fun _ _ _ _ ht hi hne => update_of_ne (word_other law wf hf ht hi hne) _ _

variable (hw : Plain mmu d w)

include hw

theorem table_cut (d' q' : ℕ) : (Below mmu.tableEntries d g d' q' →
      table mmu (update mem (pteAt mmu f g) w) root d' q' = none) ∧
    (¬ Below mmu.tableEntries d g d' q' →
      table mmu (update mem (pteAt mmu f g) w) root d' q' =
        table mmu mem root d' q') := by
  have hagree := agreeOff_update law wf hf w
  refine ⟨hagree.cut (tableEntries_pos mmu) hf ?_, hagree.tableAt_eq (tableEntries_pos mmu)⟩
  rw [readWord, update_self]
  exact hw.child

theorem table_of_cut (h : table mmu (update mem (pteAt mmu f g) w) root d' q' = some t) :
    table mmu mem root d' q' = some t := by
  obtain ⟨hcut, hsame⟩ := table_cut law wf hf hw d' q'
  by_cases hb : Below mmu.tableEntries d g d' q'
  · rw [hcut hb] at h
    cases h
  · rwa [← hsame hb]

theorem entry_cut (d' g' : ℕ) (hb : ¬ Below mmu.tableEntries d g d' (g' / mmu.tableEntries)) :
    entry mmu (update mem (pteAt mmu f g) w) root d' g' =
      if d' = d ∧ g' = g then some w else entry mmu mem root d' g' := by
  have ht := (table_cut law wf hf hw _ _).2 hb
  by_cases he : d' = d ∧ g' = g
  · obtain ⟨rfl, rfl⟩ := he
    rw [if_pos ⟨rfl, rfl⟩, entry_of_table (ht.trans hf), update_self]
  · rw [if_neg he]
    refine entry_congr ht fun f' hm => update_of_ne ?_ _ _
    exact word_other law wf hf hm (Nat.mod_lt _ (tableEntries_pos mmu)) (slot_ne he)

theorem wellFormed_put :
    WellFormed mmu (update mem (pteAt mmu f g) w) root := by
  refine ⟨fun d q f h => wf.frame d q f (table_of_cut law wf hf hw h), ?_, ?_⟩
  · intro d₁ q₁ d₂ q₂ f' h1 h2
    exact wf.distinct d₁ q₁ d₂ q₂ f' (table_of_cut law wf hf hw h1) (table_of_cut law wf hf hw h2)
  · intro d' g' pte h hc
    by_cases hb : Below mmu.tableEntries d g d' (g' / mmu.tableEntries)
    · obtain ⟨f', hf', -⟩ := entryAt_some h
      rw [← table, (table_cut law wf hf hw _ _).1 hb] at hf'
      cases hf'
    · rw [entry_cut law wf hf hw d' g' hb] at h
      split at h
      · rename_i heq
        cases h
        rw [heq.1]
        exact hw
      · exact wf.leaf d' g' pte h hc

theorem resolves_put (hd : d < mmu.topLevel) :
    Resolves mmu (update mem (pteAt mmu f g) w) root x l w' ↔
      if x / mmu.tableEntries ^ (mmu.topLevel - d - 1) = g then
        l = mmu.topLevel - d ∧ w' = w ∧ mmu.ptePresent w = true
      else Resolves mmu mem root x l w' := by
  by_cases hg : x / mmu.tableEntries ^ (mmu.topLevel - d - 1) = g
  · rw [if_pos hg]
    refine resolves_of_entry hd ?_ hw.child
    rw [entry_cut law wf hf hw, if_pos ⟨rfl, hg⟩]
    rintro ⟨k, hk, -⟩
    omega
  · rw [if_neg hg]
    refine resolves_congr (fun d' hd' => ?_) l w'
    rw [entry_cut law wf hf hw, if_neg]
    · rintro ⟨rfl, h⟩
      exact hg h
    · rintro ⟨k, rfl, h⟩
      refine hg ?_
      rw [← h, Nat.div_div_eq_div_mul, Nat.div_div_eq_div_mul, ← Nat.pow_succ', ← Nat.pow_add]
      congr 2
      omega

theorem pageMap_put (hd : d < mmu.topLevel) (hx : x < span mmu) :
    pageMap mmu (update mem (pteAt mmu f g) w) root x =
      if x / mmu.tableEntries ^ (mmu.topLevel - d - 1) = g then entryMap mmu (mmu.topLevel - d) w x
      else pageMap mmu mem root x := by
  by_cases hg : x / mmu.tableEntries ^ (mmu.topLevel - d - 1) = g
  · rw [if_pos hg]
    refine pageMap_of_entry hx hd ?_ hw.child
    rw [entry_cut law wf hf hw, if_pos ⟨rfl, hg⟩]
    rintro ⟨k, hk, -⟩
    omega
  · rw [if_neg hg]
    refine pageMap_of_iff hx fun l w' => ?_
    rw [resolves_put law wf hf hw hd, if_neg hg]

theorem table_put (hold : child mmu d (mem (pteAt mmu f g)) = none) (d' q' : ℕ) :
    table mmu (update mem (pteAt mmu f g) w) root d' q' =
      table mmu mem root d' q' := by
  obtain ⟨hcut, hsame⟩ := table_cut law wf hf hw d' q'
  by_cases hb : Below mmu.tableEntries d g d' q'
  · rw [hcut hb]
    exact (below_none ((table_next hf).trans hold) hb).symm
  · exact hsame hb

end Put

theorem div_level (hd : d + 1 < mmu.topLevel) (x : ℕ) :
    x / mmu.tableEntries ^ (mmu.topLevel - (d + 1) - 1) / mmu.tableEntries =
      x / mmu.tableEntries ^ (mmu.topLevel - d - 1) := by
  rw [Nat.div_div_eq_div_mul, ← Nat.pow_succ]
  congr 2
  omega

section Link

/-! ## Linking a new table without pointers -/

/-- Memory `mem'` differs from `mem` by the word for entry `g` at depth `d`, which now
points to the table in the fresh page `c`, and by the contents of that page. -/
structure Links (mmu : Mmu) (mem mem' : ℕ → ℕ) (root d g f c : ℕ) : Prop where
  parent : table mmu mem root d (g / mmu.tableEntries) = some f
  old : child mmu d (mem (pteAt mmu f g)) = none
  frame : mmu.IsFrame c
  fresh : ¬ IsTable mmu mem root c
  same : ∀ a, a ≠ pteAt mmu f g → ¬ (c ≤ a ∧ a < c + 2 ^ mmu.pageSizeShift) →
    mem' a = mem a
  new : child mmu d (mem' (pteAt mmu f g)) = some c
  plain : ∀ i < mmu.tableEntries, Plain mmu (d + 1) (mem' (c + i * 8))

variable (law : mmu.Lawful) (wf : WellFormed mmu mem root) (h : Links mmu mem mem' root d g f c)

include law wf h

theorem Links.word_same (ht : table mmu mem root d' q' = some f') (hi : i < mmu.tableEntries)
    (hne : ¬ (d' = d ∧ q' * mmu.tableEntries + i = g)) : mem' (f' + i * 8) = mem (f' + i * 8) := by
  refine h.same _ (word_other law wf h.parent ht hi hne) fun hp => h.fresh ?_
  exact word_in_page law (wf.frame _ _ _ ht) h.frame hi rfl hp ▸ ⟨d', q', ht⟩

theorem Links.table_eq (d' q' : ℕ) : table mmu mem' root d' q' =
    if d' = d + 1 ∧ q' = g then some c else table mmu mem root d' q' :=
  tableAt_link (tableEntries_pos mmu)
    (fun _ _ _ _ ht hi hne => h.word_same law wf ht hi hne) h.parent h.old h.new
    (fun i hi => (h.plain i hi).child) d' q'

theorem Links.isTable_iff (t : ℕ) :
    IsTable mmu mem' root t ↔ IsTable mmu mem root t ∨ t = c := by
  have ht := h.table_eq law wf
  constructor
  · rintro ⟨d', q', hq⟩
    rw [ht] at hq
    split at hq
    · exact Or.inr (Option.some.inj hq).symm
    · exact Or.inl ⟨d', q', hq⟩
  · rintro (⟨d', q', hq⟩ | rfl)
    · refine ⟨d', q', ?_⟩
      rw [ht, if_neg, hq]
      rintro ⟨rfl, rfl⟩
      rw [table_next h.parent, h.old] at hq
      cases hq
    · exact ⟨d + 1, g, by rw [ht, if_pos ⟨rfl, rfl⟩]⟩

theorem Links.entry_eq (d' g' : ℕ) : entry mmu mem' root d' g' =
    if d' = d ∧ g' = g then some (mem' (pteAt mmu f g))
    else if d' = d + 1 ∧ g' / mmu.tableEntries = g then some (mem' (c + g' % mmu.tableEntries * 8))
    else entry mmu mem root d' g' := by
  have ht := h.table_eq law wf d' (g' / mmu.tableEntries)
  by_cases hc : d' = d + 1 ∧ g' / mmu.tableEntries = g
  · rw [if_pos hc] at ht
    rw [if_neg (by omega), if_pos hc, entry_of_table ht]
  rw [if_neg hc] at ht ⊢
  by_cases he : d' = d ∧ g' = g
  · obtain ⟨rfl, rfl⟩ := he
    rw [if_pos ⟨rfl, rfl⟩, entry_of_table (ht.trans h.parent)]
  · rw [if_neg he]
    refine entry_congr ht fun f' hm => ?_
    exact h.word_same law wf hm (Nat.mod_lt _ (tableEntries_pos mmu)) (slot_ne he)

theorem Links.wellFormed : WellFormed mmu mem' root := by
  have ht := h.table_eq law wf
  have he := h.entry_eq law wf
  refine ⟨?_, ?_, ?_⟩
  · intro d' q' f' hq
    rw [ht] at hq
    split at hq
    · exact Option.some.inj hq ▸ h.frame
    · exact wf.frame _ _ _ hq
  · intro d₁ q₁ d₂ q₂ f' h1 h2
    rw [ht] at h1 h2
    by_cases hc1 : d₁ = d + 1 ∧ q₁ = g <;> by_cases hc2 : d₂ = d + 1 ∧ q₂ = g
    · exact ⟨hc1.1.trans hc2.1.symm, hc1.2.trans hc2.2.symm⟩
    · rw [if_pos hc1] at h1
      rw [if_neg hc2] at h2
      exact (h.fresh (Option.some.inj h1 ▸ ⟨d₂, q₂, h2⟩)).elim
    · rw [if_neg hc1] at h1
      rw [if_pos hc2] at h2
      exact (h.fresh (Option.some.inj h2 ▸ ⟨d₁, q₁, h1⟩)).elim
    · rw [if_neg hc1] at h1
      rw [if_neg hc2] at h2
      exact wf.distinct _ _ _ _ _ h1 h2
  · intro d' g' pte hp hc
    rw [he] at hp
    split at hp
    · rename_i heq
      obtain ⟨rfl, rfl⟩ := heq
      rw [← Option.some.inj hp, h.new] at hc
      cases hc
    · split at hp
      · rename_i heq
        rw [heq.1, ← Option.some.inj hp]
        exact h.plain _ (Nat.mod_lt _ (tableEntries_pos mmu))
      · exact wf.leaf _ _ _ hp hc

section

variable (hd : d + 1 < mmu.topLevel)
include hd

/-- The entry of the new table that covers a page below it. -/
theorem Links.entry_new (hg : x / mmu.tableEntries ^ (mmu.topLevel - d - 1) = g) :
    entry mmu mem' root (d + 1) (x / mmu.tableEntries ^ (mmu.topLevel - (d + 1) - 1)) = some (mem'
      (c + x / mmu.tableEntries ^ (mmu.topLevel - (d + 1) - 1) % mmu.tableEntries * 8)) := by
  rw [h.entry_eq law wf, if_neg (by omega), if_pos ⟨rfl, (div_level hd x).trans hg⟩]

theorem Links.entry_off (hg : x / mmu.tableEntries ^ (mmu.topLevel - d - 1) ≠ g) (d' : ℕ) :
    entry mmu mem' root d' (x / mmu.tableEntries ^ (mmu.topLevel - d' - 1)) =
      entry mmu mem root d' (x / mmu.tableEntries ^ (mmu.topLevel - d' - 1)) := by
  rw [h.entry_eq law wf, if_neg, if_neg]
  · rintro ⟨rfl, h'⟩
    exact hg ((div_level hd x).symm.trans h')
  · rintro ⟨rfl, h'⟩
    exact hg h'

theorem Links.resolves_iff (habsent : mmu.ptePresent (mem (pteAt mmu f g)) = false)
    (hempty : ∀ i < mmu.tableEntries, mmu.ptePresent (mem' (c + i * 8)) = false) (x l w : ℕ) :
    Resolves mmu mem' root x l w ↔ Resolves mmu mem root x l w := by
  by_cases hg : x / mmu.tableEntries ^ (mmu.topLevel - d - 1) = g
  · have hslot := Nat.mod_lt (x / mmu.tableEntries ^ (mmu.topLevel - (d + 1) - 1))
      (tableEntries_pos mmu)
    have hnew := h.entry_new law wf hd hg
    have hparent := h.parent
    rw [← hg] at hparent habsent
    rw [resolves_of_entry hd hnew (h.plain _ hslot).child, hempty _ hslot,
      resolves_of_entry (by omega) (entry_of_table hparent) (hg ▸ h.old), habsent]
    simp
  · exact resolves_congr (fun d' _ => h.entry_off law wf hd hg d') l w

theorem Links.pageMap_eq (hx : x < span mmu) :
    pageMap mmu mem' root x =
      if x / mmu.tableEntries ^ (mmu.topLevel - d - 1) = g then
        entryMap mmu (mmu.topLevel - (d + 1))
          (mem' (c + x / mmu.tableEntries ^ (mmu.topLevel - (d + 1) - 1) % mmu.tableEntries * 8)) x
      else pageMap mmu mem root x := by
  by_cases hg : x / mmu.tableEntries ^ (mmu.topLevel - d - 1) = g
  · rw [if_pos hg]
    exact pageMap_of_entry hx hd (h.entry_new law wf hd hg)
      (h.plain _ (Nat.mod_lt _ (tableEntries_pos mmu))).child
  · rw [if_neg hg]
    exact pageMap_of_iff hx (resolves_congr fun d' _ => h.entry_off law wf hd hg d')

end

end Link

end ArchPagingWrites
