import EvalynKernel.DstructRbtreeRuns
import EvalynKernel.DstructRbtreeSearch
import EvalynKernel.IntervalTilings
import EvalynKernel.MemVmem
import Mathlib.Data.List.Perm.Subperm

/-! # The views of the virtual address allocator

The tree, the free lists and the bitmap describe the same segments as the list. While an
operation works on a segment, the segment is held: it is in the list, but neither in the
tree nor in a free list. -/
namespace MemVmemInvariant

open Function MachineWords DstructLlist DstructRbtree DstructRbtreeInsert DstructRbtreeRuns MemVmem
open DstructRbtreeSearch (holds_nodup)

structure Views (a : Allocator) (held : List ℕ) : Prop where
  nodup : a.segmentsList.Nodup
  real : ∀ x ∈ a.segmentsList, x ≠ 0 ∧ x % 2 = 0
  bounded : ∀ x ∈ a.segmentsList, (a.segments x).size < word
  tree : ∃ xs, Holds a.tree xs ∧ Sorted (fun x => (a.segments x).base) xs ∧
    ∀ x, x ∈ xs ↔ x ∈ a.segmentsList ∧ x ∉ held ∧ (a.segments x).allocated = true
  free : ∀ i x, x ∈ a.freelists i ↔ x ∈ a.segmentsList ∧ x ∉ held ∧
    (a.segments x).allocated = false ∧ log2ull (a.segments x).size = i
  distinct : ∀ i, (a.freelists i).Nodup
  bitmap : ∀ i, a.bitmap.testBit i = true ↔ a.freelists i ≠ []

theorem holds_congr (h : Holds t xs) (hroot : t'.root = t.root)
    (hnodes : ∀ x ∈ xs, t'.nodes x = t.nodes x) : Holds t' xs := by
  obtain ⟨s, hlink, hvalid, rfl⟩ := h
  exact ⟨s, ⟨hroot.trans hlink.root, hlink.rep.congr hnodes, hlink.nodup, hlink.even⟩, hvalid, rfl⟩

section Lists

variable {a a' : Allocator} {held held' : List ℕ} {x i : ℕ}

theorem log2ull_lt (h : v < word) : log2ull v < 64 := by
  by_cases h0 : v = 0
  · simp [h0, log2ull]
  · exact (Nat.log2_lt h0).2 h

theorem testBit_clear (hi : i < 64) :
    (b &&& (word - 1 - 1 <<< i)).testBit j =
      (b.testBit j && (decide (j < 64) && !decide (i = j))) := by
  have hpow : 2 ^ i < 2 ^ 64 := Nat.pow_lt_pow_right (by norm_num) hi
  rw [Nat.testBit_and, Nat.one_shiftLeft, Nat.sub_sub, Nat.add_comm 1,
    Nat.testBit_two_pow_sub_succ hpow, Nat.testBit_two_pow]

theorem testBit_set : (b ||| 1 <<< i).testBit j = (b.testBit j || decide (i = j)) := by
  rw [Nat.testBit_or, Nat.one_shiftLeft, Nat.testBit_two_pow]

theorem pushLinks_outside (m : ℕ → Node) (hy : y ≠ seg) (hh : head ≠ 0 → y ≠ head) :
    pushLinks m head seg y = m y := by
  unfold pushLinks
  split
  · next h0 => rw [update_of_ne (hh h0), update_of_ne hy]
  · rw [update_of_ne hy]

theorem deleteLinks_outside (m : ℕ → Node) (hy : y ≠ seg) (hp : prev ≠ 0 → y ≠ prev)
    (hn : next ≠ 0 → y ≠ next) : deleteLinks m prev next seg y = m y := by
  have hnext : ∀ m : ℕ → Node, (if next ≠ 0 then
      update m next { m next with left := prev } else m) y = m y := by
    intro m
    split
    · next h0 => exact update_of_ne (hn h0) _ _
    · rfl
  unfold deleteLinks
  rw [update_of_ne hy, hnext]
  split
  · next h0 => exact update_of_ne (hp h0) _ _
  · rfl

theorem Views.not_tree (h : Views a held) (hx : x ∈ a.freelists i) :
    ¬(x ∈ a.segmentsList ∧ x ∉ held ∧ (a.segments x).allocated = true) := by
  rintro ⟨-, -, halloc⟩
  rw [((h.free i x).1 hx).2.2.1] at halloc
  cases halloc

theorem Views.detachFree (h : Views a held) (hx : x ∈ a.freelists i) :
    Views (vmemFlistDel a x i) (x :: held) := by
  obtain ⟨hxl, hxh, hxf, hxi⟩ := (h.free i x).1 hx
  have hi : i < 64 := hxi ▸ log2ull_lt (h.bounded x hxl)
  obtain ⟨xs, hholds, hsorted, hmem⟩ := h.tree
  have hout : ∀ y ∈ xs, y ∉ a.freelists i := fun y hy hyi => h.not_tree hyi ((hmem y).1 hy)
  have hne : ∀ y ∈ xs, y ≠ x := fun y hy heq => hout y hy (heq ▸ hx)
  refine ⟨h.nodup, h.real, h.bounded, ⟨xs, holds_congr hholds rfl fun y hy => ?_, hsorted,
    fun y => ?_⟩, fun j y => ?_, fun j => ?_, fun j => ?_⟩
  · refine deleteLinks_outside a.nodes (hne y hy) (fun h0 heq => hout y hy ?_)
      fun h0 heq => hout y hy ?_
    · exact heq ▸ (llistPrev_mem _ x).resolve_left h0
    · exact heq ▸ (llistNext_mem _ x).resolve_left h0
  · have hy := hmem y
    simp only [List.mem_cons, not_or]
    tauto
  · change y ∈ update a.freelists i ((a.freelists i).erase x) j ↔ _
    have hy := h.free j y
    by_cases hji : j = i
    · subst hji
      rw [update_self, (h.distinct j).mem_erase_iff, hy]
      simp only [List.mem_cons, not_or]
      tauto
    · rw [update_of_ne hji, hy]
      have hyx : y = x → log2ull (a.segments y).size ≠ j := fun heq hl => by
        subst heq
        exact hji (hl.symm.trans hxi)
      simp only [List.mem_cons, not_or]
      tauto
  · change (update a.freelists i ((a.freelists i).erase x) j).Nodup
    by_cases hji : j = i
    · subst hji
      rw [update_self]
      exact (h.distinct j).erase x
    · rw [update_of_ne hji]
      exact h.distinct j
  · change (if (a.freelists i).erase x = [] then a.bitmap &&& (word - 1 - 1 <<< i)
      else a.bitmap).testBit j = true ↔ update a.freelists i ((a.freelists i).erase x) j ≠ []
    have hj := h.bitmap j
    by_cases hji : j = i
    · subst hji
      rw [update_self]
      split
      · next hempty => simp [testBit_clear hi, hempty]
      · next hempty => simp [hj, hempty, List.ne_nil_of_mem hx]
    · rw [update_of_ne hji, ← hj]
      split
      · rw [testBit_clear hi]
        have hj64 : a.bitmap.testBit j = true → j < 64 := by
          intro hbit
          obtain ⟨y, hy⟩ := List.exists_mem_of_ne_nil _ (hj.1 hbit)
          obtain ⟨hyl, -, -, rfl⟩ := (h.free j y).1 hy
          exact log2ull_lt (h.bounded y hyl)
        simp only [Bool.and_eq_true, Bool.not_eq_true', decide_eq_true_eq, decide_eq_false_iff_not]
        exact ⟨fun hb => hb.1, fun hb => ⟨hb, hj64 hb, Ne.symm hji⟩⟩
      · rfl

theorem Views.attachFree (h : Views a (x :: held)) (hx : x ∈ a.segmentsList) (hxh : x ∉ held)
    (hfree : (a.segments x).allocated = false) (hi : log2ull (a.segments x).size = i) :
    Views (vmemFlistAdd a x i) held := by
  obtain ⟨xs, hholds, hsorted, hmem⟩ := h.tree
  have hxi : ∀ j, x ∉ a.freelists j := fun j hj => ((h.free j x).1 hj).2.1 List.mem_cons_self
  have hxs : ∀ y ∈ xs, y ≠ x := fun y hy heq => ((hmem y).1 hy).2.1 (heq ▸ List.mem_cons_self)
  refine ⟨h.nodup, h.real, h.bounded, ⟨xs, holds_congr hholds rfl fun y hy => ?_, hsorted,
    fun y => ?_⟩, fun j y => ?_, fun j => ?_, fun j => ?_⟩
  · refine pushLinks_outside a.nodes (hxs y hy) fun h0 heq => ?_
    have hhead : (a.freelists i).headD 0 ∈ a.freelists i := by
      cases hl : a.freelists i with
      | nil => simp [hl] at h0
      | cons z zs => simp
    exact h.not_tree (heq ▸ hhead) ((hmem y).1 hy)
  · have hy := hmem y
    have hflag : y = x → (a.segments y).allocated = false := fun heq => heq ▸ hfree
    change y ∈ xs ↔ y ∈ a.segmentsList ∧ y ∉ held ∧ (a.segments y).allocated = true
    rw [hy]
    simp only [List.mem_cons, not_or]
    constructor
    · tauto
    · rintro ⟨hl, hh, hal⟩
      refine ⟨hl, ⟨fun heq => ?_, hh⟩, hal⟩
      rw [hflag heq] at hal
      cases hal
  · change y ∈ update a.freelists i (x :: a.freelists i) j ↔
      y ∈ a.segmentsList ∧ y ∉ held ∧ (a.segments y).allocated = false ∧
        log2ull (a.segments y).size = j
    have hy := h.free j y
    simp only [List.mem_cons, not_or] at hy
    by_cases hyx : y = x
    · subst hyx
      by_cases hji : j = i
      · subst hji
        simp [hx, hxh, hfree, hi]
      · rw [update_of_ne hji]
        have : log2ull (a.segments y).size ≠ j := fun hl => hji (hl.symm.trans hi)
        simp [hxi j, this]
    · by_cases hji : j = i
      · subst hji
        rw [update_self, List.mem_cons, hy]
        tauto
      · rw [update_of_ne hji, hy]
        tauto
  · change (update a.freelists i (x :: a.freelists i) j).Nodup
    by_cases hji : j = i
    · subst hji
      rw [update_self]
      exact List.nodup_cons.2 ⟨hxi j, h.distinct j⟩
    · rw [update_of_ne hji]
      exact h.distinct j
  · change (a.bitmap ||| 1 <<< i).testBit j = true ↔
      update a.freelists i (x :: a.freelists i) j ≠ []
    by_cases hji : j = i
    · subst hji
      simp
    · rw [update_of_ne hji, ← h.bitmap j, testBit_set]
      simp [Ne.symm hji]

end Lists

section Trees

variable {a a' : Allocator} {held held' : List ℕ} {x : ℕ}

theorem mem_insertSeq : y ∈ insertSeq v x xs ↔ y = x ∨ y ∈ xs := by
  have happ := List.takeWhile_append_dropWhile (p := fun z => decide (v z ≤ v x)) (l := xs)
  conv_rhs => rw [← happ]
  simp only [insertSeq, List.mem_append, List.mem_cons]
  tauto

theorem Views.attachTree (h : Views a (x :: held)) (hx : x ∈ a.segmentsList) (hxh : x ∉ held)
    (halloc : (a.segments x).allocated = true) :
    ∃ t, rbtreeInsert a.segmentsList.length a.tree x = .ok t ∧ Views (a.setTree t) held := by
  obtain ⟨xs, hholds, hsorted, hmem⟩ := h.tree
  have hsub := List.subperm_of_subset (holds_nodup hholds) fun y hy => ((hmem y).1 hy).1
  have hlen := hsub.length_le
  have hxs : x ∉ xs := fun hmem' => ((hmem x).1 hmem').2.1 List.mem_cons_self
  obtain ⟨t, hok, hholds', -⟩ :=
    rbtreeInsert_spec hholds hsorted hxs (h.real x hx).1 (h.real x hx).2 hlen
  refine ⟨t, hok, h.nodup, h.real, h.bounded, ⟨_, holds_congr hholds' rfl fun _ _ => rfl,
    sorted_insertSeq hsorted x, fun y => ?_⟩, fun i y => ?_, h.distinct, h.bitmap⟩
  · rw [mem_insertSeq, hmem y]
    simp only [List.mem_cons, not_or]
    constructor
    · rintro (rfl | hy)
      · exact ⟨hx, hxh, halloc⟩
      · exact ⟨hy.1, hy.2.1.2, hy.2.2⟩
    · rintro ⟨hyl, hyh, hya⟩
      by_cases hyx : y = x
      · exact .inl hyx
      · exact .inr ⟨hyl, ⟨hyx, hyh⟩, hya⟩
  · have hy := h.free i y
    have hflag : y = x → (a.segments y).allocated ≠ false := by
      rintro rfl hf
      rw [halloc] at hf
      cases hf
    simp only [List.mem_cons, not_or] at hy
    tauto

theorem Views.detachTree (h : Views a held) (hx : x ∈ a.segmentsList) (hxh : x ∉ held)
    (halloc : (a.segments x).allocated = true) :
    ∃ r t, rbtreeRemove a.segmentsList.length a.tree x = .ok (r, t) ∧
      Views (a.setTree t) (x :: held) := by
  obtain ⟨xs, hholds, hsorted, hmem⟩ := h.tree
  have hnd := holds_nodup hholds
  have hsub := List.subperm_of_subset hnd fun y hy => ((hmem y).1 hy).1
  have hlen := hsub.length_le
  obtain ⟨r, t, hok, hholds', -⟩ := rbtreeRemove_spec hholds ((hmem x).2 ⟨hx, hxh, halloc⟩) hlen
  refine ⟨r, t, hok, h.nodup, h.real, h.bounded, ⟨_, holds_congr hholds' rfl fun _ _ => rfl,
    hsorted.sublist List.erase_sublist, fun y => ?_⟩, fun i y => ?_, h.distinct, h.bitmap⟩
  · rw [hnd.mem_erase_iff, hmem y]
    simp only [List.mem_cons, not_or]
    tauto
  · have hy := h.free i y
    have hflag : y = x → (a.segments y).allocated ≠ false := by
      rintro rfl hf
      rw [halloc] at hf
      cases hf
    simp only [List.mem_cons, not_or]
    tauto

theorem Views.relist (h : Views a held) (hroot : a'.root = a.root)
    (hfree : a'.freelists = a.freelists) (hbitmap : a'.bitmap = a.bitmap)
    (hsame : ∀ x ∈ a.segmentsList, x ∉ held →
      a'.segments x = a.segments x ∧ a'.nodes x = a.nodes x)
    (hmem : ∀ x, x ∈ a'.segmentsList ∧ x ∉ held' ↔ x ∈ a.segmentsList ∧ x ∉ held)
    (hnodup : a'.segmentsList.Nodup) (hreal : ∀ x ∈ a'.segmentsList, x ≠ 0 ∧ x % 2 = 0)
    (hbounded : ∀ x ∈ a'.segmentsList, (a'.segments x).size < word) : Views a' held' := by
  obtain ⟨xs, hholds, hsorted, hxs⟩ := h.tree
  have hin : ∀ y ∈ xs, a'.segments y = a.segments y ∧ a'.nodes y = a.nodes y := fun y hy =>
    hsame y ((hxs y).1 hy).1 ((hxs y).1 hy).2.1
  have hmove : ∀ y (P : Segment → Prop), (y ∈ a.segmentsList ∧ y ∉ held ∧ P (a.segments y)) ↔
      (y ∈ a'.segmentsList ∧ y ∉ held' ∧ P (a'.segments y)) := by
    intro y P
    constructor
    · rintro ⟨hl, hh, hP⟩
      obtain ⟨hl', hh'⟩ := (hmem y).2 ⟨hl, hh⟩
      exact ⟨hl', hh', (hsame y hl hh).1 ▸ hP⟩
    · rintro ⟨hl', hh', hP⟩
      obtain ⟨hl, hh⟩ := (hmem y).1 ⟨hl', hh'⟩
      exact ⟨hl, hh, (hsame y hl hh).1 ▸ hP⟩
  refine ⟨hnodup, hreal, hbounded, ⟨xs, holds_congr hholds hroot fun y hy => (hin y hy).2,
    ?_, fun y => ?_⟩, fun i y => ?_, fun i => hfree ▸ h.distinct i, fun i => ?_⟩
  · refine List.Pairwise.imp_of_mem (fun {y z} hy hz hle => ?_) hsorted
    simp only [(hin y hy).1, (hin z hz).1]
    exact hle
  · exact (hxs y).trans (hmove y fun seg => seg.allocated = true)
  · rw [hfree]
    exact (h.free i y).trans (hmove y fun seg => seg.allocated = false ∧ log2ull seg.size = i)
  · rw [hbitmap, hfree]
    exact h.bitmap i

end Trees

end MemVmemInvariant
