import EvalynKernel.ArchPagingSteps

/-! # The cursor of the range loops

The cursor at page `x` stands in the table number `y` of its level, at the entry that
covers `x`, or just past the last entry when `x` is the first page after the table. Its
moves keep that position whatever the memory holds. The array `tables` holds the tables on
the path from the root. -/
namespace ArchPagingCursor

open Function MachineWords ArchPagingFormats ArchPaging RadixTables
open ArchPagingTables

variable {mmu : Mmu} {mem mem' : ℕ → ℕ} {root : ℕ} {c : Cursor} {x y n : ℕ}

structure Position (mmu : Mmu) (c : Cursor) (x y n : ℕ) : Prop where
  level_pos : 1 ≤ c.level
  level_le : c.level ≤ mmu.topLevel
  pos : At mmu c.vaddr x
  len : c.len = n * 2 ^ mmu.pageSizeShift
  slot : x / mmu.tableEntries ^ (c.level - 1) = y * mmu.tableEntries + c.index
  index_le : c.index ≤ mmu.tableEntries
  edge : c.index = mmu.tableEntries → mmu.tableEntries ^ (c.level - 1) ∣ x
  inside : y < mmu.tableEntries ^ (mmu.topLevel - c.level)

variable {vaddr len j e : ℕ}

namespace Position

theorem pow_level (h : Position mmu c x y n) :
    mmu.tableEntries ^ c.level = mmu.tableEntries ^ (c.level - 1) * mmu.tableEntries := by
  rw [← Nat.pow_succ, Nat.succ_eq_add_one, Nat.sub_add_cancel h.level_pos]

theorem table_end (h : Position mmu c x y n) :
    (y + 1) * mmu.tableEntries ^ c.level ≤ span mmu := by
  rw [span_split h.level_le, Nat.mul_comm]
  exact Nat.mul_le_mul_left _ h.inside

section Inside

variable (h : Position mmu c x y n) (hi : c.index ≠ mmu.tableEntries)

include h hi

theorem index_lt : c.index < mmu.tableEntries := lt_of_le_of_ne h.index_le hi

theorem slot_parts : (x / mmu.tableEntries ^ (c.level - 1)) / mmu.tableEntries = y ∧
    (x / mmu.tableEntries ^ (c.level - 1)) % mmu.tableEntries = c.index := by
  rw [h.slot]
  exact slot_div_mod (h.index_lt hi)

theorem entry_end : (x / mmu.tableEntries ^ (c.level - 1) + 1) * mmu.tableEntries ^ (c.level - 1) ≤
    span mmu := by
  have hlt := h.index_lt hi
  have hend := h.table_end
  rw [h.pow_level, Nat.mul_comm (mmu.tableEntries ^ (c.level - 1)), ← Nat.mul_assoc] at hend
  refine le_trans (Nat.mul_le_mul_right _ ?_) hend
  rw [h.slot, Nat.add_mul]
  omega

theorem lt_span : x < span mmu := by
  refine lt_of_lt_of_le ?_ (h.entry_end hi)
  rw [Nat.mul_comm]
  exact Nat.lt_mul_div_succ x (entries_pow_pos mmu _)

end Inside

theorem past_end (h : Position mmu c x y n) (hi : c.index = mmu.tableEntries) :
    x = (y + 1) * mmu.tableEntries ^ c.level := by
  obtain ⟨q, hq⟩ := h.edge hi
  have hs := h.slot
  rw [hq, Nat.mul_div_cancel_left _ (entries_pow_pos mmu _), hi] at hs
  rw [hq, hs, h.pow_level]
  ring

theorem le_span (h : Position mmu c x y n) : x ≤ span mmu := by
  by_cases hi : c.index = mmu.tableEntries
  · rw [h.past_end hi]
    exact h.table_end
  · exact (h.lt_span hi).le

theorem at_top (h : Position mmu c x y n) (hi : c.index = mmu.tableEntries)
    (hl : c.level = mmu.topLevel) : x = span mmu := by
  have hz := h.inside
  rw [hl, Nat.sub_self, Nat.pow_zero, Nat.lt_one_iff] at hz
  rw [h.past_end hi, hz, hl, span, Nat.zero_add, Nat.one_mul]

theorem start (hv : 2 ^ mmu.pageSizeShift ∣ vaddr) (htop : 1 ≤ mmu.topLevel)
    (hlen : len = n * 2 ^ mmu.pageSizeShift) :
    Position mmu (Cursor.start mmu root vaddr len) (pageNumber mmu vaddr) 0 n := by
  have hx := pageNumber_lt mmu vaddr
  have hi : pagingIndex mmu vaddr mmu.topLevel =
      pageNumber mmu vaddr / mmu.tableEntries ^ (mmu.topLevel - 1) := by
    rw [pagingIndex_eq htop le_rfl, Nat.mod_eq_of_lt]
    rw [Nat.div_lt_iff_lt_mul (entries_pow_pos mmu _), ← Nat.pow_succ', Nat.succ_eq_add_one,
      Nat.sub_add_cancel htop]
    exact hx
  have hlt := Nat.mod_lt (pageNumber mmu vaddr / mmu.tableEntries ^ (mmu.topLevel - 1))
    (tableEntries_pos mmu)
  rw [← pagingIndex_eq htop le_rfl] at hlt
  refine ⟨htop, le_rfl, At.start hv, hlen, ?_, hlt.le, fun he => absurd he hlt.ne,
    entries_pow_pos mmu _⟩
  rw [Nat.zero_mul, Nat.zero_add]
  exact hi.symm

theorem up (law : mmu.Lawful) (h : Position mmu c x y n) (hi : c.index = mmu.tableEntries)
    (hl : c.level < mmu.topLevel) : Position mmu (c.up mmu) x (y / mmu.tableEntries) n := by
  have hx := h.past_end hi
  have hpos := h.pos
  have hpow := entries_pow_pos mmu c.level
  have hsize : mmu.entrySize (c.level + 1) =
      mmu.tableEntries ^ c.level * 2 ^ mmu.pageSizeShift := by
    rw [entrySize_eq, Nat.add_sub_cancel]
  have hfit : mmu.tableEntries ^ c.level * 2 ^ mmu.pageSizeShift ≤ word := by
    rw [word_pages law]
    refine Nat.mul_le_mul_right _ (Nat.le_of_dvd (Nat.two_pow_pos _) ?_)
    exact dvd_trans (Nat.pow_dvd_pow _ hl.le) (span_dvd law)
  rw [hx, Nat.add_mul, Nat.one_mul] at hpos
  have hidx : (c.up mmu).index = y % mmu.tableEntries + 1 := by
    show parentPagingIndex mmu c.vaddr (c.level + 1) = _
    rw [parentPagingIndex, hsize, (hpos.retreat law hfit).index (by omega) hl, Nat.succ_sub_one,
      Nat.mul_div_cancel _ hpow]
  have hmod := Nat.mod_lt y (tableEntries_pos mmu)
  refine ⟨by simp [Cursor.up], hl, h.pos, h.len, ?_, ?_, ?_, ?_⟩
  · rw [hidx, hx, show (c.up mmu).level - 1 = c.level from rfl, Nat.mul_div_cancel _ hpow,
      ← Nat.add_assoc, Nat.mul_comm, Nat.div_add_mod]
  · rw [hidx]
    exact hmod
  · intro _
    rw [hx]
    exact Nat.dvd_mul_left _ _
  · rw [Nat.div_lt_iff_lt_mul (tableEntries_pos mmu), ← Nat.pow_succ,
      show (mmu.topLevel - (c.up mmu).level).succ = mmu.topLevel - c.level by
        show mmu.topLevel - (c.level + 1) + 1 = _; omega]
    exact h.inside

theorem down_index (h : Position mmu c x y n) (hl : c.level ≠ 1) (child : ℕ) :
    (c.down mmu child).index = x / mmu.tableEntries ^ (c.level - 1 - 1) % mmu.tableEntries := by
  have h1 := h.level_pos
  have h2 := h.level_le
  exact h.pos.index (by omega) (by omega)

theorem down_index_lt (h : Position mmu c x y n) (hl : c.level ≠ 1) (child : ℕ) :
    (c.down mmu child).index < mmu.tableEntries := by
  rw [h.down_index hl]
  exact Nat.mod_lt _ (tableEntries_pos mmu)

theorem down (h : Position mmu c x y n) (hi : c.index ≠ mmu.tableEntries) (hl : c.level ≠ 1)
    (child : ℕ) :
    Position mmu (c.down mmu child) x (x / mmu.tableEntries ^ (c.level - 1)) n := by
  have h1 := h.level_pos
  have h2 := h.level_le
  have hdiv : x / mmu.tableEntries ^ (c.level - 1) =
      x / mmu.tableEntries ^ (c.level - 1 - 1) / mmu.tableEntries := by
    rw [Nat.div_div_eq_div_mul, ← Nat.pow_succ, Nat.succ_eq_add_one, Nat.sub_add_cancel (by omega)]
  have hlt := h.down_index_lt hl child
  refine ⟨by show 1 ≤ c.level - 1; omega, by show c.level - 1 ≤ _; omega, h.pos, h.len, ?_, hlt.le,
    fun he => absurd he hlt.ne, ?_⟩
  · rw [h.down_index hl, hdiv, show (c.down mmu child).level - 1 = c.level - 1 - 1 from rfl,
      Nat.mul_comm, Nat.div_add_mod]
  · have hend := h.entry_end hi
    rw [span_split (show c.level - 1 ≤ mmu.topLevel by omega), Nat.mul_comm] at hend
    exact Nat.le_of_mul_le_mul_left hend (entries_pow_pos mmu _)

section

variable (law : mmu.Lawful) (h : Position mmu c x y n)

include law h

/-- Moving on by `j` pages and `e` entries in the same table. -/
theorem advance
    (hslot : (x + j) / mmu.tableEntries ^ (c.level - 1) = y * mmu.tableEntries + (c.index + e))
    (hle : c.index + e ≤ mmu.tableEntries)
    (hedge : c.index + e = mmu.tableEntries → mmu.tableEntries ^ (c.level - 1) ∣ x + j) :
    Position mmu (c.advance (j * 2 ^ mmu.pageSizeShift) e) (x + j) y (n - j) := by
  refine ⟨h.level_pos, h.level_le, h.pos.advance law j, ?_, hslot, hle, hedge, h.inside⟩
  show c.len - j * 2 ^ mmu.pageSizeShift = (n - j) * 2 ^ mmu.pageSizeShift
  rw [h.len, Nat.sub_mul]

theorem next (hi : c.index ≠ mmu.tableEntries)
    (hx : x + j = (x / mmu.tableEntries ^ (c.level - 1) + 1) *
      mmu.tableEntries ^ (c.level - 1)) :
    Position mmu (c.advance (j * 2 ^ mmu.pageSizeShift) 1) (x + j) y (n - j) := by
  refine h.advance law ?_ (h.index_lt hi) fun _ => ?_
  · rw [hx, Nat.mul_div_cancel _ (entries_pow_pos mmu _), h.slot, Nat.add_assoc]
  · rw [hx]
    exact Nat.dvd_mul_left _ _

theorem run (hi : c.index ≠ mmu.tableEntries)
    (hl : c.level = 1) :
    c.run mmu = min (mmu.tableEntries - c.index) n ∧
      Position mmu (c.advance (c.run mmu <<< mmu.pageSizeShift) (c.run mmu)) (x + c.run mmu) y
        (n - c.run mmu) := by
  have hslot := h.slot
  have hlt := h.index_lt hi
  rw [hl, Nat.sub_self, Nat.pow_zero, Nat.div_one] at hslot
  have hlen : c.len >>> mmu.pageSizeShift = n := by
    rw [h.len, Nat.shiftRight_eq_div_pow, Nat.mul_div_cancel _ (Nat.two_pow_pos _)]
  have hrun : c.run mmu = min (mmu.tableEntries - c.index) n := by
    rw [Cursor.run, hlen]
  refine ⟨hrun, ?_⟩
  rw [Nat.shiftLeft_eq]
  refine h.advance law ?_ (by omega) fun _ => ?_
  · rw [hl, Nat.sub_self, Nat.pow_zero, Nat.div_one, hslot, Nat.add_assoc]
  · rw [hl, Nat.sub_self, Nat.pow_zero]
    exact one_dvd _

end

end Position

structure Cur (mmu : Mmu) (mem : ℕ → ℕ) (root : ℕ) (c : Cursor) (x y n : ℕ) : Prop
    extends Position mmu c x y n where
  tables : ∀ k, c.level ≤ k → k ≤ mmu.topLevel →
    table mmu mem root (mmu.topLevel - k) (y / mmu.tableEntries ^ (k - c.level)) = some (c.tables k)

namespace Cur

section

variable (h : Cur mmu mem root c x y n)

include h

theorem congr
    (ht : ∀ d q f, table mmu mem root d q = some f → table mmu mem' root d q = some f) :
    Cur mmu mem' root c x y n :=
  { h with tables := fun k h1 h2 => ht _ _ _ (h.tables k h1 h2) }

theorem table_eq :
    table mmu mem root (mmu.topLevel - c.level) y = some c.table := by
  have ht := h.tables c.level le_rfl h.level_le
  rwa [Nat.sub_self, Nat.pow_zero, Nat.div_one] at ht

theorem parent_table (hi : c.index ≠ mmu.tableEntries) :
    table mmu mem root (mmu.topLevel - c.level)
      (x / mmu.tableEntries ^ (c.level - 1) / mmu.tableEntries) = some c.table := by
  rw [(h.slot_parts hi).1]
  exact h.table_eq

theorem pte_eq : c.pte mmu = pteAt mmu c.table (x / mmu.tableEntries ^ (c.level - 1)) := by
  rw [Cursor.pte, pagingGetPte, h.pos.index h.level_pos h.level_le]

end

theorem start (hv : 2 ^ mmu.pageSizeShift ∣ vaddr) (htop : 1 ≤ mmu.topLevel)
    (hlen : len = n * 2 ^ mmu.pageSizeShift) :
    Cur mmu mem root (Cursor.start mmu root vaddr len) (pageNumber mmu vaddr) 0 n := by
  refine ⟨Position.start hv htop hlen, ?_⟩
  intro k h1 h2
  have hk : k = mmu.topLevel := le_antisymm h2 h1
  subst hk
  rw [Nat.sub_self, Nat.zero_div]
  show table mmu mem root 0 0 = some (update (fun _ => 0) mmu.topLevel root mmu.topLevel)
  rw [update_self]
  rfl

theorem up (law : mmu.Lawful) (h : Cur mmu mem root c x y n) (hi : c.index = mmu.tableEntries)
    (hl : c.level < mmu.topLevel) :
    Cur mmu mem root (c.up mmu) x (y / mmu.tableEntries) n := by
  refine ⟨h.toPosition.up law hi hl, ?_⟩
  intro k h1 h2
  have hk : c.level + 1 ≤ k := h1
  have ht := h.tables k (by omega) h2
  rw [Nat.div_div_eq_div_mul, ← Nat.pow_succ',
    show (k - (c.up mmu).level).succ = k - c.level by show k - (c.level + 1) + 1 = _; omega]
  exact ht

theorem down (h : Cur mmu mem root c x y n) (hi : c.index ≠ mmu.tableEntries) (hl : c.level ≠ 1)
    {child : ℕ} (ht : ∀ d q f, table mmu mem root d q = some f → table mmu mem' root d q = some f)
    (hc : table mmu mem' root (mmu.topLevel - c.level + 1) (x / mmu.tableEntries ^ (c.level - 1)) =
      some child) :
    Cur mmu mem' root (c.down mmu child) x (x / mmu.tableEntries ^ (c.level - 1)) n := by
  have h1 := h.level_pos
  have h2 := h.level_le
  refine ⟨h.toPosition.down hi hl child, ?_⟩
  intro k hk1 hk2
  have hk : c.level - 1 ≤ k := hk1
  show table mmu mem' root (mmu.topLevel - k) (_ / mmu.tableEntries ^ (k - (c.level - 1))) =
    some (update c.tables (c.level - 1) child k)
  by_cases he : k = c.level - 1
  · subst he
    rw [update_self, Nat.sub_self, Nat.pow_zero, Nat.div_one,
      show mmu.topLevel - (c.level - 1) = mmu.topLevel - c.level + 1 by omega]
    exact hc
  · rw [update_of_ne he]
    have hold := ht _ _ _ (h.tables k (by omega) hk2)
    rw [← (h.slot_parts hi).1, Nat.div_div_eq_div_mul, ← Nat.pow_succ',
      show (k - c.level).succ = k - (c.level - 1) by omega] at hold
    exact hold

theorem moved (h : Cur mmu mem root c x y n) (hp : Position mmu c' x' y n')
    (hl : c'.level = c.level) (ht : c'.tables = c.tables) : Cur mmu mem root c' x' y n' := by
  refine ⟨hp, ?_⟩
  rw [hl, ht]
  exact h.tables

end Cur

/-- The turns a loop still needs: going down takes one, going up and down again at most
twice the height. -/
def turns (mmu : Mmu) (c : Cursor) (n : ℕ) : ℕ :=
  n * (2 * mmu.topLevel + 1) +
    if c.index = mmu.tableEntries then 2 * mmu.topLevel - c.level else c.level

theorem turns_up (n : ℕ) (hi : c.index = mmu.tableEntries) (hl : c.level < mmu.topLevel) :
    turns mmu (c.up mmu) n < turns mmu c n := by
  have hlevel : (c.up mmu).level = c.level + 1 := rfl
  unfold turns
  rw [if_pos hi, hlevel]
  split <;> omega

theorem turns_advance (hi : c.index ≠ mmu.tableEntries) (hj : 0 < j) (hn : j ≤ n) :
    turns mmu (c.advance bytes e) (n - j) < turns mmu c n := by
  have hlevel : (c.advance bytes e).level = c.level := rfl
  have hm : (n - j) * (2 * mmu.topLevel + 1) + (2 * mmu.topLevel + 1) ≤
      n * (2 * mmu.topLevel + 1) := by
    rw [← Nat.succ_mul]
    exact Nat.mul_le_mul_right _ (by omega)
  unfold turns
  rw [if_neg hi, hlevel]
  split <;> omega

section Turns

variable (h : Position mmu c x y n)

include h

theorem turns_pos : 0 < turns mmu c n := by
  have h1 := h.level_pos
  have h2 := h.level_le
  unfold turns
  split <;> omega

theorem turns_down (hi : c.index ≠ mmu.tableEntries) (hl : c.level ≠ 1) (child : ℕ) :
    turns mmu (c.down mmu child) n < turns mmu c n := by
  have hlevel : (c.down mmu child).level = c.level - 1 := rfl
  have h1 := h.level_pos
  unfold turns
  rw [if_neg hi, if_neg (h.down_index_lt hl child).ne, hlevel]
  omega

end Turns

theorem turns_start :
    turns mmu (Cursor.start mmu root vaddr len) (len / 2 ^ mmu.pageSizeShift) <
      rangeTurns mmu len := by
  have hlevel : (Cursor.start mmu root vaddr len).level = mmu.topLevel := rfl
  unfold turns rangeTurns
  rw [Nat.shiftRight_eq_div_pow, hlevel]
  split <;> omega

end ArchPagingCursor
