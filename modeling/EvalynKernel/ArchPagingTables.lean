import EvalynKernel.ArchPaging
import EvalynKernel.RadixTables

/-! # Page tables as radix trees

Positions are counted in pages from the start of the address range of the top-level
table. The entry of level `l` that covers page `x` is entry `x / N ^ (l - 1)` of that
level, where `N` is the number of entries of a table; so the tables in memory are a
radix tree, and a walk is determined by the entries that cover its page. -/
namespace ArchPagingTables

open MachineWords ArchPagingFormats ArchPaging RadixTables

variable {mmu : Mmu}

variable {vaddr x level k q : ℕ}

section Geometry

theorem tableEntries_eq (mmu : Mmu) : mmu.tableEntries = 2 ^ mmu.pageIndexBits := by
  rw [Mmu.tableEntries, Mmu.pageIndexMask, Nat.one_shiftLeft]
  exact Nat.sub_add_cancel (Nat.two_pow_pos _)

theorem tableEntries_pos (mmu : Mmu) : 0 < mmu.tableEntries := Nat.succ_pos _

theorem pageSize_eq (mmu : Mmu) : mmu.pageSize = 2 ^ mmu.pageSizeShift := Nat.one_shiftLeft _

theorem entries_pow_pos (mmu : Mmu) (k : ℕ) : 0 < mmu.tableEntries ^ k :=
  Nat.pow_pos (tableEntries_pos mmu)

theorem slot_div_mod (hi : i < mmu.tableEntries) :
    (q * mmu.tableEntries + i) / mmu.tableEntries = q ∧
      (q * mmu.tableEntries + i) % mmu.tableEntries = i := by
  rw [Nat.mul_comm, Nat.mul_add_div (tableEntries_pos mmu), Nat.mul_add_mod, Nat.div_eq_of_lt hi,
    Nat.mod_eq_of_lt hi]
  exact ⟨rfl, rfl⟩

theorem entrySize_eq (mmu : Mmu) (level : ℕ) :
    mmu.entrySize level = mmu.tableEntries ^ (level - 1) * 2 ^ mmu.pageSizeShift := by
  rw [Mmu.entrySize, Nat.one_shiftLeft, Mmu.entryShift, tableEntries_eq, ← Nat.pow_mul,
    ← Nat.pow_add, Nat.mul_comm, Nat.add_comm]

theorem entrySize_one (mmu : Mmu) : mmu.entrySize 1 = 2 ^ mmu.pageSizeShift := by
  rw [entrySize_eq, Nat.sub_self, Nat.pow_zero, Nat.one_mul]

theorem entrySize_pos (mmu : Mmu) (level : ℕ) : 0 < mmu.entrySize level := by
  rw [entrySize_eq]
  exact Nat.mul_pos (entries_pow_pos mmu _) (Nat.two_pow_pos _)

theorem aligned_entrySize (a level : ℕ) :
    isAligned a (mmu.entrySize level) = true ↔ mmu.entrySize level ∣ a := by
  rw [Mmu.entrySize, Nat.one_shiftLeft]
  exact isAligned_two_pow a _

/-- The pages one top-level table covers. -/
def span (mmu : Mmu) : ℕ := mmu.tableEntries ^ mmu.topLevel

def pageNumber (mmu : Mmu) (vaddr : ℕ) : ℕ := vaddr / 2 ^ mmu.pageSizeShift % span mmu

theorem pageNumber_lt (mmu : Mmu) (vaddr : ℕ) : pageNumber mmu vaddr < span mmu :=
  Nat.mod_lt _ (entries_pow_pos mmu _)

theorem span_split (hk : k ≤ mmu.topLevel) :
    span mmu = mmu.tableEntries ^ k * mmu.tableEntries ^ (mmu.topLevel - k) := by
  rw [span, ← Nat.pow_add, Nat.add_sub_cancel' hk]

theorem div_mod_span (hk : k < mmu.topLevel) :
    x % span mmu / mmu.tableEntries ^ k % mmu.tableEntries =
      x / mmu.tableEntries ^ k % mmu.tableEntries := by
  have hs : span mmu =
      mmu.tableEntries ^ k * (mmu.tableEntries * mmu.tableEntries ^ (mmu.topLevel - (k + 1))) := by
    rw [span_split (k := k + 1) hk, Nat.pow_succ, Nat.mul_assoc]
  rw [hs, Nat.mod_mul_right_div_self, Nat.mod_mul_right_mod]

theorem pagingIndex_eq (h1 : 1 ≤ level) (hl : level ≤ mmu.topLevel) :
    pagingIndex mmu vaddr level =
      pageNumber mmu vaddr / mmu.tableEntries ^ (level - 1) % mmu.tableEntries := by
  have hmask : ∀ a, a &&& mmu.pageIndexMask = a % mmu.tableEntries := by
    intro a
    rw [Mmu.pageIndexMask, Nat.one_shiftLeft, Nat.and_two_pow_sub_one_eq_mod, tableEntries_eq]
  have hshift : vaddr >>> mmu.entryShift level =
      vaddr / 2 ^ mmu.pageSizeShift / mmu.tableEntries ^ (level - 1) := by
    rw [Nat.shiftRight_eq_div_pow, Mmu.entryShift, Nat.pow_add, ← Nat.div_div_eq_div_mul,
      tableEntries_eq, ← Nat.pow_mul, Nat.mul_comm]
  rw [pagingIndex, hmask, hshift, pageNumber, div_mod_span (by omega)]

/-- The address of entry `g` of a level in its table `f`. -/
abbrev pteAt (mmu : Mmu) (f g : ℕ) : ℕ := f + g % mmu.tableEntries * 8

theorem pagingGetPte_eq (f vaddr : ℕ) (h1 : 1 ≤ level) (hl : level ≤ mmu.topLevel) :
    pagingGetPte mmu f vaddr level =
      pteAt mmu f (pageNumber mmu vaddr / mmu.tableEntries ^ (level - 1)) := by
  rw [pagingGetPte, pagingIndex_eq h1 hl]

theorem span_dvd (law : mmu.Lawful) : span mmu ∣ 2 ^ (64 - mmu.pageSizeShift) := by
  have hs := law.span
  rw [span, tableEntries_eq, ← Nat.pow_mul]
  exact Nat.pow_dvd_pow 2 (by rw [Nat.mul_comm]; omega)

theorem word_pages (law : mmu.Lawful) :
    word = 2 ^ (64 - mmu.pageSizeShift) * 2 ^ mmu.pageSizeShift := by
  have hs := law.span
  rw [← Nat.pow_add, Nat.sub_add_cancel (by omega)]

/-- A page-aligned address at position `x`; the end of the top-level table is the
position `span`, where the address may have wrapped around. -/
structure At (mmu : Mmu) (vaddr x : ℕ) : Prop where
  aligned : 2 ^ mmu.pageSizeShift ∣ vaddr
  position : vaddr / 2 ^ mmu.pageSizeShift % span mmu = x % span mmu

theorem At.start (h : 2 ^ mmu.pageSizeShift ∣ vaddr) : At mmu vaddr (pageNumber mmu vaddr) :=
  ⟨h, by rw [pageNumber, Nat.mod_mod]⟩

theorem At.exists_page (h : At mmu vaddr x) :
    ∃ a, vaddr = a * 2 ^ mmu.pageSizeShift ∧ a % span mmu = x % span mmu :=
  ⟨_, (Nat.div_mul_cancel h.aligned).symm, h.position⟩

theorem wadd_pages (law : mmu.Lawful) (a k : ℕ) :
    wadd (a * 2 ^ mmu.pageSizeShift) (k * 2 ^ mmu.pageSizeShift) =
      (a + k) % 2 ^ (64 - mmu.pageSizeShift) * 2 ^ mmu.pageSizeShift := by
  rw [wadd, word_pages law, ← Nat.add_mul, Nat.mul_mod_mul_right]

theorem At.advance (law : mmu.Lawful) (h : At mmu vaddr x) (k : ℕ) :
    At mmu (wadd vaddr (k * 2 ^ mmu.pageSizeShift)) (x + k) := by
  obtain ⟨a, rfl, hp⟩ := h.exists_page
  rw [wadd_pages law]
  refine ⟨Nat.dvd_mul_left _ _, ?_⟩
  rw [Nat.mul_div_cancel _ (Nat.two_pow_pos _), Nat.mod_mod_of_dvd _ (span_dvd law), Nat.add_mod,
    hp, ← Nat.add_mod]

theorem At.retreat (law : mmu.Lawful) (h : At mmu vaddr (x + k))
    (hk : k * 2 ^ mmu.pageSizeShift ≤ word) :
    At mmu (wsub vaddr (k * 2 ^ mmu.pageSizeShift)) x := by
  obtain ⟨a, rfl, hp⟩ := h.exists_page
  have hpos : 0 < 2 ^ mmu.pageSizeShift := Nat.two_pow_pos _
  rw [word_pages law] at hk
  have hkw : k ≤ 2 ^ (64 - mmu.pageSizeShift) := Nat.le_of_mul_le_mul_right hk hpos
  have hsub : wsub (a * 2 ^ mmu.pageSizeShift) (k * 2 ^ mmu.pageSizeShift) =
      (a + (2 ^ (64 - mmu.pageSizeShift) - k)) % 2 ^ (64 - mmu.pageSizeShift) *
        2 ^ mmu.pageSizeShift := by
    rw [wsub, word_pages law, ← Nat.add_mul, ← Nat.sub_mul, Nat.mul_mod_mul_right,
      Nat.add_sub_assoc hkw]
  rw [hsub]
  refine ⟨Nat.dvd_mul_left _ _, ?_⟩
  rw [Nat.mul_div_cancel _ hpos, Nat.mod_mod_of_dvd _ (span_dvd law)]
  have h1 : (a + (2 ^ (64 - mmu.pageSizeShift) - k)) % span mmu =
      (x + k + (2 ^ (64 - mmu.pageSizeShift) - k)) % span mmu := by
    rw [Nat.add_mod, hp, ← Nat.add_mod]
  obtain ⟨t, ht⟩ := span_dvd law
  rw [h1, Nat.add_assoc, Nat.add_sub_cancel' hkw, ht, Nat.add_mul_mod_self_left]

theorem At.index (h : At mmu vaddr x) (h1 : 1 ≤ level) (hl : level ≤ mmu.topLevel) :
    pagingIndex mmu vaddr level = x / mmu.tableEntries ^ (level - 1) % mmu.tableEntries := by
  rw [pagingIndex_eq h1 hl, pageNumber, h.position, div_mod_span (by omega)]

theorem At.misaligned (h : At mmu vaddr x) (hl : level ≤ mmu.topLevel + 1) :
    vaddr % mmu.entrySize level =
      x % mmu.tableEntries ^ (level - 1) * 2 ^ mmu.pageSizeShift := by
  obtain ⟨a, rfl, hp⟩ := h.exists_page
  have hd : mmu.tableEntries ^ (level - 1) ∣ span mmu := Nat.pow_dvd_pow _ (by omega)
  rw [entrySize_eq, Nat.mul_mod_mul_right, ← Nat.mod_mod_of_dvd a hd, hp, Nat.mod_mod_of_dvd _ hd]

theorem At.aligned_iff (h : At mmu vaddr x) (hl : level ≤ mmu.topLevel + 1) :
    isAligned vaddr (mmu.entrySize level) = true ↔ mmu.tableEntries ^ (level - 1) ∣ x := by
  have hm := h.misaligned hl
  have hpos : 0 < 2 ^ mmu.pageSizeShift := Nat.two_pow_pos _
  rw [aligned_entrySize, Nat.dvd_iff_mod_eq_zero, Nat.dvd_iff_mod_eq_zero, hm, Nat.mul_eq_zero]
  exact or_iff_left hpos.ne'

end Geometry

def readWord (mem : ℕ → ℕ) (table i : ℕ) : ℕ := mem (table + i * 8)

def child (mmu : Mmu) (d pte : ℕ) : Option ℕ :=
  if mmu.ptePresent pte && !mmu.pteIsLeaf pte (mmu.topLevel - d) then some (mmu.decodePte pte)
  else none

def table (mmu : Mmu) (mem : ℕ → ℕ) (root d q : ℕ) : Option ℕ :=
  tableAt mmu.tableEntries (child mmu) (readWord mem) root d q

def entry (mmu : Mmu) (mem : ℕ → ℕ) (root d g : ℕ) : Option ℕ :=
  entryAt mmu.tableEntries (child mmu) (readWord mem) root d g

def IsTable (mmu : Mmu) (mem : ℕ → ℕ) (root f : ℕ) : Prop := ∃ d q, table mmu mem root d q = some f

structure GoodLeaf (mmu : Mmu) (level pte : ℕ) : Prop where
  level_le : level ≤ 3
  aligned : mmu.entrySize level ∣ mmu.decodeLeaf level pte
  bounded : mmu.decodeLeaf level pte < 2 ^ 52
  prot : mmu.protection (mmu.mmuFlagsToProt pte level) = mmu.mmuFlagsToProt pte level

/-- A word without a pointer: absent, or a good leaf. -/
def Plain (mmu : Mmu) (d pte : ℕ) : Prop :=
  mmu.ptePresent pte = true →
    mmu.pteIsLeaf pte (mmu.topLevel - d) = true ∧ GoodLeaf mmu (mmu.topLevel - d) pte

structure WellFormed (mmu : Mmu) (mem : ℕ → ℕ) (root : ℕ) : Prop where
  frame : ∀ d q f, table mmu mem root d q = some f → mmu.IsFrame f
  distinct : ∀ d q d' q' f, table mmu mem root d q = some f → table mmu mem root d' q' = some f →
    d = d' ∧ q = q'
  leaf : ∀ d g pte, entry mmu mem root d g = some pte → child mmu d pte = none → Plain mmu d pte

variable {mem mem' : ℕ → ℕ} {root : ℕ}

variable {d pte : ℕ}

theorem child_eq_none : child mmu d pte = none ↔
    (mmu.ptePresent pte = true → mmu.pteIsLeaf pte (mmu.topLevel - d) = true) := by
  unfold child
  cases mmu.ptePresent pte <;> cases mmu.pteIsLeaf pte (mmu.topLevel - d) <;> simp

theorem child_eq_some : child mmu d pte = some c ↔
    mmu.ptePresent pte = true ∧ mmu.pteIsLeaf pte (mmu.topLevel - d) = false ∧
      mmu.decodePte pte = c := by
  unfold child
  cases mmu.ptePresent pte <;> cases mmu.pteIsLeaf pte (mmu.topLevel - d) <;> simp

theorem Plain.child (h : Plain mmu d pte) : child mmu d pte = none :=
  child_eq_none.mpr fun hp => (h hp).1

variable {f g : ℕ}

theorem entry_of_table (h : table mmu mem root d (g / mmu.tableEntries) = some f) :
    entry mmu mem root d g = some (mem (pteAt mmu f g)) := entryAt_of_table h

theorem table_succ (mmu : Mmu) (mem : ℕ → ℕ) (root d g : ℕ) :
    table mmu mem root (d + 1) g = (entry mmu mem root d g).bind (child mmu d) := tableAt_succ d g

theorem table_next (h : table mmu mem root d (g / mmu.tableEntries) = some f) :
    table mmu mem root (d + 1) g = child mmu d (mem (pteAt mmu f g)) := by
  rw [table_succ, entry_of_table h, Option.bind_some]

/-- The leaf of the given level that covers page `x`. -/
structure Resolves (mmu : Mmu) (mem : ℕ → ℕ) (root x level pte : ℕ) : Prop where
  level_pos : 1 ≤ level
  level_le : level ≤ mmu.topLevel
  entry : entry mmu mem root (mmu.topLevel - level) (x / mmu.tableEntries ^ (level - 1)) = some pte
  present : mmu.ptePresent pte = true
  leaf : mmu.pteIsLeaf pte level = true

theorem Resolves.child (h : Resolves mmu mem root x level pte) :
    child mmu (mmu.topLevel - level) pte = none := by
  have hl := h.level_le
  rw [child_eq_none, Nat.sub_sub_self hl]
  exact fun _ => h.leaf

theorem entry_below_none (he : entry mmu mem root d (x / mmu.tableEntries ^ k) = some pte)
    (hc : child mmu d pte = none) (d' k' : ℕ) (hd : d < d') (hk : d' + k' = d + k) :
    entry mmu mem root d' (x / mmu.tableEntries ^ k') = none := by
  cases ht : entry mmu mem root d' (x / mmu.tableEntries ^ k') with
  | none => rfl
  | some w =>
    obtain ⟨f, hf, _⟩ := entryAt_some ht
    obtain ⟨j, rfl⟩ : ∃ j, d' = d + 1 + j := ⟨d' - (d + 1), by omega⟩
    obtain ⟨c, hc'⟩ := tableAt_above hf
    rw [Nat.div_div_eq_div_mul, Nat.div_div_eq_div_mul, ← Nat.pow_succ', ← Nat.pow_add,
      show k' + (j + 1) = k by omega] at hc'
    have hnone : table mmu mem root (d + 1) (x / mmu.tableEntries ^ k) = none := by
      rw [table_succ, he, Option.bind_some, hc]
    rw [table] at hnone
    rw [hnone] at hc'
    cases hc'

variable {w l : ℕ}

/-- An entry without a pointer is the only place where its pages can be mapped. -/
theorem resolves_of_entry (hd : d < mmu.topLevel)
    (he : entry mmu mem root d (x / mmu.tableEntries ^ (mmu.topLevel - d - 1)) = some w)
    (hc : child mmu d w = none) :
    Resolves mmu mem root x l w' ↔ l = mmu.topLevel - d ∧ w' = w ∧ mmu.ptePresent w = true := by
  constructor
  · intro hr
    have h1 := hr.level_pos
    have h2 := hr.level_le
    rcases lt_trichotomy d (mmu.topLevel - l) with hlt | heq | hgt
    · have hb := entry_below_none he hc (mmu.topLevel - l) (l - 1) hlt (by omega)
      rw [hr.entry] at hb
      cases hb
    · have hw := hr.entry
      rw [← heq, show l - 1 = mmu.topLevel - d - 1 by omega, he] at hw
      cases hw
      exact ⟨by omega, rfl, hr.present⟩
    · have hb := entry_below_none hr.entry hr.child d (mmu.topLevel - d - 1) hgt (by omega)
      rw [he] at hb
      cases hb
  · rintro ⟨rfl, rfl, hp⟩
    refine ⟨by omega, by omega, ?_, hp, child_eq_none.mp hc hp⟩
    rw [Nat.sub_sub_self hd.le]
    exact he

theorem Resolves.level_eq (h : Resolves mmu mem root x l w) (h' : Resolves mmu mem root x l' w') :
    l' = l := by
  have hl := h.level_le
  have hpos := h.level_pos
  have he := h.entry
  rw [show l - 1 = mmu.topLevel - (mmu.topLevel - l) - 1 by omega] at he
  have := ((resolves_of_entry (by omega) he h.child).mp h').1
  omega

theorem resolves_congr
    (h : ∀ d < mmu.topLevel, entry mmu mem' root d (x / mmu.tableEntries ^ (mmu.topLevel - d - 1)) =
      entry mmu mem root d (x / mmu.tableEntries ^ (mmu.topLevel - d - 1))) (l w : ℕ) :
    Resolves mmu mem' root x l w ↔ Resolves mmu mem root x l w := by
  have he : ∀ l, 1 ≤ l → l ≤ mmu.topLevel →
      entry mmu mem' root (mmu.topLevel - l) (x / mmu.tableEntries ^ (l - 1)) =
        entry mmu mem root (mmu.topLevel - l) (x / mmu.tableEntries ^ (l - 1)) := by
    intro l h1 h2
    have := h (mmu.topLevel - l) (by omega)
    rwa [show mmu.topLevel - (mmu.topLevel - l) - 1 = l - 1 by omega] at this
  constructor <;> rintro ⟨h1, h2, h3, h4, h5⟩
  · exact ⟨h1, h2, he l h1 h2 ▸ h3, h4, h5⟩
  · exact ⟨h1, h2, (he l h1 h2).symm ▸ h3, h4, h5⟩

theorem table_root (mem : ℕ → ℕ) (root : ℕ) (hx : x < span mmu) :
    table mmu mem root 0 (x / mmu.tableEntries ^ mmu.topLevel) = some root := by
  rw [show x / mmu.tableEntries ^ mmu.topLevel = 0 from Nat.div_eq_of_lt hx]
  rfl

theorem pagingWalk_iff (hk : k ≤ mmu.topLevel)
    (hf : table mmu mem root (mmu.topLevel - k) (pageNumber mmu vaddr / mmu.tableEntries ^ k) =
      some f) : (∃ pte, pagingWalk mmu mem vaddr k f = some (w, l, pte)) ↔
      l ≤ k ∧ Resolves mmu mem root (pageNumber mmu vaddr) l w := by
  induction k generalizing f with
  | zero =>
    refine ⟨fun ⟨pte, h⟩ => by simp [pagingWalk] at h, fun ⟨hl, h⟩ => ?_⟩
    have := h.level_pos
    omega
  | succ k ih =>
    have hdepth : mmu.topLevel - (k + 1) + 1 = mmu.topLevel - k := by omega
    have hlevel : mmu.topLevel - (mmu.topLevel - (k + 1)) = k + 1 := by omega
    rw [Nat.pow_succ, ← Nat.div_div_eq_div_mul] at hf
    have he := entry_of_table hf
    have hpte := pagingGetPte_eq f vaddr (by omega) hk
    rw [Nat.add_sub_cancel] at hpte
    rw [← hpte] at he
    rw [pagingWalk]
    generalize pagingGetPte mmu f vaddr (k + 1) = a at he
    -- a leaf below this level would need a table below this entry
    have hbelow : child mmu (mmu.topLevel - (k + 1)) (mem a) = none →
        l ≤ k + 1 → Resolves mmu mem root (pageNumber mmu vaddr) l w → l = k + 1 ∧ w = mem a := by
      intro hc hl hr
      have h1 := hr.level_pos
      have hl' : l = k + 1 := by
        by_contra hne
        have hb := entry_below_none he hc (mmu.topLevel - l) (l - 1) (by omega) (by omega)
        rw [hr.entry] at hb
        cases hb
      subst hl'
      have hw := hr.entry
      rw [Nat.add_sub_cancel, he] at hw
      exact ⟨rfl, (Option.some.inj hw).symm⟩
    cases hp : mmu.ptePresent (mem a) with
    | false =>
      simp only [Bool.not_false, if_true, reduceCtorEq, exists_false, false_iff]
      rintro ⟨hl, hr⟩
      obtain ⟨_, rfl⟩ := hbelow (child_eq_none.mpr (by simp [hp])) hl hr
      rw [hr.present] at hp
      cases hp
    | true =>
      cases hleaf : mmu.pteIsLeaf (mem a) (k + 1) with
      | true =>
        simp only [Bool.not_true, Bool.false_eq_true, if_false, if_true, Option.some.injEq,
          Prod.mk.injEq]
        constructor
        · rintro ⟨_, rfl, rfl, _⟩
          exact ⟨le_rfl, by omega, hk, he, hp, hleaf⟩
        · rintro ⟨hl, hr⟩
          obtain ⟨rfl, rfl⟩ := hbelow (child_eq_none.mpr (by simp [hlevel, hleaf])) hl hr
          exact ⟨a, rfl, rfl, rfl⟩
      | false =>
        simp only [Bool.not_true, Bool.false_eq_true, if_false]
        have hnext : table mmu mem root (mmu.topLevel - k)
            (pageNumber mmu vaddr / mmu.tableEntries ^ k) = some (mmu.decodePte (mem a)) := by
          rw [← hdepth, table_succ, he, Option.bind_some]
          exact child_eq_some.mpr ⟨hp, by rw [hlevel, hleaf], rfl⟩
        rw [ih (by omega) hnext]
        refine and_congr_left fun hr => ⟨fun hl => by omega, fun hl => ?_⟩
        by_contra hne
        have hl' : l = k + 1 := by omega
        subst hl'
        have hw := hr.entry
        rw [Nat.add_sub_cancel, he] at hw
        cases hw
        rw [hr.leaf] at hleaf
        cases hleaf

theorem pagingWalk_root (mmu : Mmu) (mem : ℕ → ℕ) (root vaddr l w : ℕ) :
    (∃ pte, pagingWalk mmu mem vaddr mmu.topLevel root = some (w, l, pte)) ↔
      Resolves mmu mem root (pageNumber mmu vaddr) l w := by
  have hroot := table_root mem root (pageNumber_lt mmu vaddr)
  rw [pagingWalk_iff le_rfl (by rw [Nat.sub_self]; exact hroot)]
  exact and_iff_right_of_imp fun h => h.level_le

theorem translate_of_resolves (h : Resolves mmu mem root (pageNumber mmu vaddr) l w) :
    translate mmu mem root vaddr =
      some (mmu.decodeLeaf l w + vaddr % mmu.entrySize l, mmu.mmuFlagsToProt w l) := by
  obtain ⟨pte, hw⟩ := (pagingWalk_root mmu mem root vaddr l w).mpr h
  rw [ArchPaging.translate, hw]
  rfl

theorem Resolves.translate_leaf (law : mmu.Lawful) (hl : l ≤ 3) (hp : mmu.entrySize l ∣ paddr)
    (hlt : paddr < 2 ^ 52)
    (h : Resolves mmu mem root (pageNumber mmu vaddr) l (mmu.leafPte l paddr attr)) :
    translate mmu mem root vaddr = some (paddr + vaddr % mmu.entrySize l, mmu.protection attr) := by
  rw [translate_of_resolves h, law.decode_leaf _ _ _ h.level_pos hl hp,
    law.leaf_prot _ _ _ h.level_pos hl hp, Nat.mod_eq_of_lt hlt]

theorem translate_eq_none (h : ∀ l w, ¬ Resolves mmu mem root (pageNumber mmu vaddr) l w) :
    translate mmu mem root vaddr = none := by
  rw [ArchPaging.translate]
  cases hw : pagingWalk mmu mem vaddr mmu.topLevel root with
  | none => rfl
  | some r =>
    obtain ⟨w, l, pte⟩ := r
    exact absurd ((pagingWalk_root mmu mem root vaddr l w).mp ⟨pte, hw⟩) (h l w)

def pageMap (mmu : Mmu) (mem : ℕ → ℕ) (root x : ℕ) : Option (ℕ × ℕ) :=
  translate mmu mem root (x * 2 ^ mmu.pageSizeShift)

/-- What an entry without a pointer says about a page it covers. -/
def entryMap (mmu : Mmu) (level pte x : ℕ) : Option (ℕ × ℕ) :=
  if mmu.ptePresent pte then
    some (mmu.decodeLeaf level pte + x % mmu.tableEntries ^ (level - 1) * 2 ^ mmu.pageSizeShift,
      mmu.mmuFlagsToProt pte level)
  else none

section

variable (hx : x < span mmu)
include hx

theorem pageNumber_page : pageNumber mmu (x * 2 ^ mmu.pageSizeShift) = x := by
  rw [pageNumber, Nat.mul_div_cancel _ (Nat.two_pow_pos _), Nat.mod_eq_of_lt hx]

theorem pageMap_of_resolves (h : Resolves mmu mem root x l w) :
    pageMap mmu mem root x = entryMap mmu l w x := by
  have hr := h
  rw [← pageNumber_page hx] at hr
  rw [pageMap, translate_of_resolves hr, entryMap, if_pos h.present, entrySize_eq,
    Nat.mul_mod_mul_right]

theorem pageMap_of_entry (hd : d < mmu.topLevel)
    (he : entry mmu mem root d (x / mmu.tableEntries ^ (mmu.topLevel - d - 1)) = some w)
    (hc : child mmu d w = none) : pageMap mmu mem root x = entryMap mmu (mmu.topLevel - d) w x := by
  cases hp : mmu.ptePresent w with
  | true => exact pageMap_of_resolves hx ((resolves_of_entry hd he hc).mpr ⟨rfl, rfl, hp⟩)
  | false =>
    rw [entryMap, hp, if_neg (by simp), pageMap, translate_eq_none]
    intro l w' hr
    rw [pageNumber_page hx, resolves_of_entry hd he hc, hp] at hr
    cases hr.2.2

theorem pageMap_of_iff (hiff : ∀ l w, Resolves mmu mem' root x l w ↔ Resolves mmu mem root x l w) :
    pageMap mmu mem' root x = pageMap mmu mem root x := by
  by_cases hr : ∃ l w, Resolves mmu mem root x l w
  · obtain ⟨l, w, hr⟩ := hr
    rw [pageMap_of_resolves hx hr, pageMap_of_resolves hx ((hiff l w).mpr hr)]
  · rw [← pageNumber_page hx] at hr hiff
    simp only [not_exists] at hr
    rw [pageMap, pageMap, translate_eq_none hr,
      translate_eq_none fun l w => mt (hiff l w).mp (hr l w)]

end

theorem translate_eq_pageMap (mmu : Mmu) (mem : ℕ → ℕ) (root vaddr : ℕ) :
    translate mmu mem root vaddr = (pageMap mmu mem root (pageNumber mmu vaddr)).map fun r =>
      (r.1 + vaddr % 2 ^ mmu.pageSizeShift, r.2) := by
  by_cases hr : ∃ l w, Resolves mmu mem root (pageNumber mmu vaddr) l w
  · obtain ⟨l, w, hr⟩ := hr
    have hl := hr.level_le
    have hd : mmu.tableEntries ^ (l - 1) ∣ span mmu := Nat.pow_dvd_pow _ (by omega)
    rw [translate_of_resolves hr, pageMap_of_resolves (pageNumber_lt mmu vaddr) hr, entryMap,
      if_pos hr.present, Option.map_some, pageNumber, Nat.mod_mod_of_dvd _ hd, entrySize_eq,
      Nat.mul_comm (mmu.tableEntries ^ (l - 1)), Nat.mod_mul, Nat.add_assoc]
    simp only [Option.some.injEq, Prod.mk.injEq, and_true]
    rw [Nat.mul_comm, Nat.add_comm (_ % _)]
  · simp only [not_exists] at hr
    rw [translate_eq_none hr, pageMap, translate_eq_none, Option.map_none]
    rwa [pageNumber_page (pageNumber_lt mmu vaddr)]

theorem WellFormed.ne_root (h : WellFormed mmu mem root) (ht : table mmu mem root d q = some f)
    (hd : 0 < d) : f ≠ root := by
  rintro rfl
  have := (h.distinct d q 0 0 f ht rfl).1
  omega

section Empty

/-! ## A root without present entries -/

variable (hz : ∀ i < mmu.tableEntries, mmu.ptePresent (mem (root + i * 8)) = false)

include hz

theorem table_of_empty (h : table mmu mem root d q = some f) : d = 0 ∧ q = 0 ∧ f = root := by
  induction d generalizing q f with
  | zero => exact ⟨rfl, tableAt_zero h⟩
  | succ d ih =>
    rw [table_succ] at h
    obtain ⟨w, hw, hc⟩ := Option.bind_eq_some_iff.mp h
    obtain ⟨f', hf', rfl⟩ := entryAt_some hw
    obtain ⟨-, -, rfl⟩ := ih hf'
    rw [child_eq_some, readWord, hz _ (Nat.mod_lt _ (tableEntries_pos mmu))] at hc
    cases hc.1

theorem entry_of_empty (h : entry mmu mem root d g = some w) : mmu.ptePresent w = false := by
  obtain ⟨f, hf, rfl⟩ := entryAt_some h
  obtain ⟨-, -, rfl⟩ := table_of_empty hz hf
  exact hz _ (Nat.mod_lt _ (tableEntries_pos mmu))

theorem wellFormed_of_empty (hroot : mmu.IsFrame root) : WellFormed mmu mem root := by
  refine ⟨?_, ?_, ?_⟩
  · intro d q f ht
    rw [(table_of_empty hz ht).2.2]
    exact hroot
  · intro d q d' q' f ht ht'
    obtain ⟨rfl, rfl, -⟩ := table_of_empty hz ht
    obtain ⟨rfl, rfl, -⟩ := table_of_empty hz ht'
    exact ⟨rfl, rfl⟩
  · intro d g pte he _ hpres
    rw [entry_of_empty hz he] at hpres
    cases hpres

theorem not_resolves_of_empty (x l w : ℕ) : ¬ Resolves mmu mem root x l w := by
  intro h
  have hp := h.present
  rw [entry_of_empty hz h.entry] at hp
  cases hp

end Empty

end ArchPagingTables
