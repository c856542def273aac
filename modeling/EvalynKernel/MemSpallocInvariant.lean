import EvalynKernel.MemSpalloc
import Mathlib.Data.List.Perm.Subperm

/-! # The invariant of the slab allocator

The arithmetic of `spalloc_init` first: where the objects of a page lie. Then what holds of
the pages, of the objects handed out and of the list between two calls. -/
namespace MemSpallocInvariant

open Function MachineWords DstructStack MemSpalloc

section Layout

variable {shift objSize objAlign : ℕ} {a : Allocator}

/-- What `spalloc_init` computes, for a page of `2 ^ shift` bytes. -/
structure Fits (shift objSize objAlign : ℕ) (a : Allocator) : Prop where
  shift_le : shift ≤ 16
  size : 8 ≤ objSize
  stride : a.objStride = alignUp objSize objAlign
  offset : a.objOffset = alignUp headerSize objAlign
  count : a.objsPerPage = (2 ^ shift - a.objOffset) / a.objStride
  le_stride : objSize ≤ a.objStride
  align_stride : objAlign ∣ a.objStride
  align_offset : objAlign ∣ a.objOffset
  align_page : objAlign ∣ 2 ^ shift
  le_offset : headerSize ≤ a.objOffset
  room : a.objOffset + a.objStride ≤ 2 ^ shift
  count_lt : a.objsPerPage < 2 ^ 16

theorem isPow2ull_iff : isPow2ull n = true ↔ ∃ k, n = 2 ^ k := by
  simp only [isPow2ull, decide_eq_true_eq]
  constructor
  · rintro ⟨hn, hand⟩
    exact (Nat.and_sub_one_eq_zero_iff_isPowerOfTwo hn).mp hand
  · rintro ⟨k, rfl⟩
    have hne : 2 ^ k ≠ 0 := (Nat.two_pow_pos k).ne'
    exact ⟨hne, (Nat.and_sub_one_eq_zero_iff_isPowerOfTwo hne).mpr ⟨k, rfl⟩⟩

theorem spallocInit_fits (hlo : 12 ≤ shift) (hhi : shift ≤ 16)
    (h : spallocInit (2 ^ shift) objSize objAlign = .ok a) :
    Fits shift objSize objAlign a ∧ a.partialList = [] := by
  obtain ⟨_, hmin, h⟩ := bind_ok h
  obtain ⟨_, hmax, h⟩ := bind_ok h
  obtain ⟨_, halign, h⟩ := bind_ok h
  obtain ⟨_, hpow, h⟩ := bind_ok h
  obtain ⟨_, -, h⟩ := bind_ok h
  obtain ⟨k, rfl⟩ := isPow2ull_iff.mp (kassert_eq_ok hpow)
  have hsize := of_decide_eq_true (kassert_eq_ok hmin)
  have hhalf : 2 ^ shift / 2 = 2 ^ (shift - 1) := by
    obtain ⟨m, rfl⟩ : ∃ m, shift = m + 1 := ⟨shift - 1, by omega⟩
    rw [Nat.pow_succ, Nat.mul_div_cancel _ (by norm_num), Nat.add_sub_cancel]
  have hsize' := of_decide_eq_true (kassert_eq_ok hmax)
  have halign' := of_decide_eq_true (kassert_eq_ok halign)
  rw [hhalf] at hsize' halign'
  have hk : k ≤ shift - 1 := (Nat.pow_le_pow_iff_right (by norm_num)).mp halign'
  have hsmall : 2 ^ (shift - 1) ≤ 2 ^ 15 := Nat.pow_le_pow_right (by norm_num) (by omega)
  have hbig : 2 ^ 11 ≤ 2 ^ (shift - 1) := Nat.pow_le_pow_right (by norm_num) (by omega)
  have hdvd : 2 ^ k ∣ 2 ^ (shift - 1) := Nat.pow_dvd_pow 2 hk
  have hword : word = 2 ^ 64 := rfl
  have hstride := alignUp_le (by omega) hsize' hdvd (by omega)
  have hoffset := alignUp_le (x := headerSize) (by omega) (by simp only [headerSize]; omega) hdvd
    (by omega)
  have hle := (alignUp_bounds (x := objSize) (n := k) (by omega) (by omega)).1
  have hle' := (alignUp_bounds (x := headerSize) (n := k) (by omega)
    (by simp only [headerSize]; omega)).1
  obtain rfl := (Except.ok.inj h).symm
  have hm : alignUp objSize (2 ^ k) % 2 ^ 16 = alignUp objSize (2 ^ k) :=
    Nat.mod_eq_of_lt (by omega)
  have hm' : alignUp headerSize (2 ^ k) % 2 ^ 16 = alignUp headerSize (2 ^ k) :=
    Nat.mod_eq_of_lt (by omega)
  have hcount : (2 ^ shift - alignUp headerSize (2 ^ k)) / alignUp objSize (2 ^ k) < 2 ^ 16 := by
    refine (Nat.div_le_div_left (c := 8) (by omega) (by norm_num)).trans_lt ?_
    omega
  refine ⟨⟨hhi, hsize, ?_, ?_, ?_, ?_, ?_, ?_, ?_, ?_, ?_, ?_⟩, rfl⟩
  · exact hm
  · exact hm'
  · simp only [hm, hm']
    exact Nat.mod_eq_of_lt hcount
  · simp only [hm]
    exact hle
  · simp only [hm]
    exact dvd_alignUp (by omega)
  · simp only [hm']
    exact dvd_alignUp (by omega)
  · exact Nat.pow_dvd_pow 2 (by omega)
  · simp only [hm']
    exact hle'
  · simp only [hm, hm']
    omega
  · simp only [hm, hm']
    exact Nat.mod_lt _ (by norm_num)

def objectAt (a : Allocator) (p i : ℕ) : ℕ := p + a.objOffset + i * a.objStride

def objects (a : Allocator) (p : ℕ) : List ℕ := (List.range a.objsPerPage).map (objectAt a p)

variable {p q x y i j : ℕ}

theorem mem_objects : x ∈ objects a p ↔ ∃ i < a.objsPerPage, objectAt a p i = x := by
  simp [objects]

namespace Fits

section

variable (h : Fits shift objSize objAlign a)
include h

theorem stride_pos : 0 < a.objStride := by
  have := h.size
  have := h.le_stride
  omega

theorem count_pos : 0 < a.objsPerPage := by
  have := h.room
  rw [h.count]
  exact Nat.div_pos (by omega) h.stride_pos

theorem total :
    a.objOffset + a.objsPerPage * a.objStride ≤ 2 ^ shift := by
  have hmul := Nat.div_mul_le_self (2 ^ shift - a.objOffset) a.objStride
  have := h.room
  rw [← h.count] at hmul
  omega

theorem objectAt_bounds (hi : i < a.objsPerPage) (p : ℕ) :
    p + headerSize ≤ objectAt a p i ∧ objectAt a p i + a.objStride ≤ p + 2 ^ shift := by
  have hle := Nat.mul_le_mul_right a.objStride (Nat.succ_le_of_lt hi)
  have := h.total
  have := h.le_offset
  rw [Nat.succ_mul] at hle
  simp only [objectAt]
  omega

theorem object_bounds (hx : x ∈ objects a p) :
    p + headerSize ≤ x ∧ x + a.objStride ≤ p + 2 ^ shift := by
  obtain ⟨i, hi, rfl⟩ := mem_objects.mp hx
  exact h.objectAt_bounds hi p

end

theorem objectAt_apart (a : Allocator) (hij : i < j) (p : ℕ) :
    objectAt a p i + a.objStride ≤ objectAt a p j := by
  have hle := Nat.mul_le_mul_right a.objStride (Nat.succ_le_of_lt hij)
  rw [Nat.succ_mul] at hle
  simp only [objectAt]
  omega

section

variable (h : Fits shift objSize objAlign a)
include h

theorem objectAt_inj (he : objectAt a p i = objectAt a p j) :
    i = j := by
  have hpos := h.stride_pos
  rcases Nat.lt_trichotomy i j with hij | hij | hij
  · have := objectAt_apart a hij p
    omega
  · exact hij
  · have := objectAt_apart a hij p
    omega

theorem objects_nodup (p : ℕ) : (objects a p).Nodup :=
  List.nodup_range.map fun _ _ he => h.objectAt_inj he

theorem object_aligned (hp : 2 ^ shift ∣ p) (hx : x ∈ objects a p) : objAlign ∣ x := by
  obtain ⟨i, -, rfl⟩ := mem_objects.mp hx
  exact Nat.dvd_add (Nat.dvd_add (h.align_page.trans hp) h.align_offset)
    (h.align_stride.mul_left i)

section

variable (hp : 2 ^ shift ∣ p) (hfit : p + 2 ^ shift ≤ word)

include hp hfit

theorem page_of (hlo : p ≤ x)
    (hhi : x < p + 2 ^ shift) :
    alignDown x (2 ^ shift) = p := by
  have hshift := h.shift_le
  obtain ⟨m, rfl⟩ := hp
  rw [alignDown_two_pow (by omega) (by omega)]
  obtain ⟨d, rfl⟩ := Nat.exists_eq_add_of_le hlo
  rw [Nat.mul_add_div (Nat.two_pow_pos shift), Nat.div_eq_of_lt (by omega), Nat.add_zero,
    Nat.mul_comm]

theorem page_of_object (hx : x ∈ objects a p) :
    alignDown x (2 ^ shift) = p := by
  have := h.object_bounds hx
  have := h.stride_pos
  exact h.page_of hp hfit (by omega) (by omega)

theorem page_of_linkage :
    alignDown (linkage p) (2 ^ shift) = p := by
  have := h.room
  have := h.le_offset
  simp only [headerSize] at this
  simp only [linkage]
  exact h.page_of hp hfit (by omega) (by omega)

end

end

theorem pages_apart (hp : 2 ^ shift ∣ p) (hq : 2 ^ shift ∣ q) (hpq : p < q) :
    p + 2 ^ shift ≤ q := by
  obtain ⟨m, rfl⟩ := hp
  obtain ⟨l, rfl⟩ := hq
  have hml : m < l := Nat.lt_of_mul_lt_mul_left hpq
  have := Nat.mul_le_mul_left (2 ^ shift) (Nat.succ_le_of_lt hml)
  rwa [Nat.mul_succ] at this

section

variable (h : Fits shift objSize objAlign a) (hp : 2 ^ shift ∣ p) (hq : 2 ^ shift ∣ q)
    (hx : x ∈ objects a p)

include h hp hq hx

theorem objects_apart (hy : y ∈ objects a q) (hne : x ≠ y) :
    x + a.objStride ≤ y ∨ y + a.objStride ≤ x := by
  have hxb := h.object_bounds hx
  have hyb := h.object_bounds hy
  rcases Nat.lt_trichotomy p q with hpq | rfl | hpq
  · have := pages_apart hp hq hpq
    omega
  · obtain ⟨i, -, rfl⟩ := mem_objects.mp hx
    obtain ⟨j, -, rfl⟩ := mem_objects.mp hy
    rcases Nat.lt_trichotomy i j with hij | rfl | hij
    · exact .inl (objectAt_apart a hij p)
    · exact absurd rfl hne
    · exact .inr (objectAt_apart a hij p)
  · have := pages_apart hq hp hpq
    omega

theorem page_unique (hx' : x ∈ objects a q) : p = q := by
  have hpb := h.object_bounds hx
  have hqb := h.object_bounds hx'
  have := h.stride_pos
  rcases Nat.lt_trichotomy p q with hpq | rfl | hpq
  · have := pages_apart hp hq hpq
    omega
  · rfl
  · have := pages_apart hq hp hpq
    omega

end

end Fits

end Layout

section Slab

variable {shift objSize objAlign : ℕ} {a : Allocator} {headers headers' : ℕ → PageHeader}
  {next next' : ℕ → ℕ} {pages pages' out out' : List ℕ} {p x : ℕ}

/-- The stack of a page: exactly its objects that are not handed out, `freecount` of them. -/
structure Stacked (a : Allocator) (next : ℕ → ℕ) (out : List ℕ) (p : ℕ) (h : PageHeader)
    (free : List ℕ) : Prop where
  magic : h.magic = spallocMagic
  chain : Chain next h.freeObjs free
  nodup : free.Nodup
  mem : ∀ x, x ∈ free ↔ x ∈ objects a p ∧ x ∉ out
  count : h.freecount = free.length

/-- The pages and the objects handed out. -/
structure Slab (shift : ℕ) (a : Allocator) (headers : ℕ → PageHeader) (next : ℕ → ℕ)
    (pages out : List ℕ) : Prop where
  nodup : pages.Nodup
  aligned : ∀ p ∈ pages, 2 ^ shift ∣ p
  nonzero : ∀ p ∈ pages, p ≠ 0
  bounded : ∀ p ∈ pages, p + 2 ^ shift ≤ word
  stacked : ∀ p ∈ pages, ∃ free, Stacked a next out p (headers p) free
  out_nodup : out.Nodup
  owned : ∀ x ∈ out, ∃ p ∈ pages, x ∈ objects a p

/-- The list has the pages with free objects, each once; `skip` is a page taken off it. -/
structure Listed (headers : ℕ → PageHeader) (pages list : List ℕ) (skip : Option ℕ) : Prop where
  nodup : list.Nodup
  mem : ∀ node, node ∈ list ↔
    ∃ p ∈ pages, some p ≠ skip ∧ linkage p = node ∧ 0 < (headers p).freecount

variable {h h' : PageHeader} {free list rest : List ℕ} {q : ℕ}

theorem Stacked.congr (hs : Stacked a next out p h free) (hnext : ∀ x ∈ free, next' x = next x)
    (hout : ∀ x ∈ objects a p, x ∈ out' ↔ x ∈ out) : Stacked a next' out' p h free := by
  refine ⟨hs.magic, hs.chain.congr hnext, hs.nodup, fun x => (hs.mem x).trans ?_, hs.count⟩
  exact and_congr_right fun hx => not_congr (hout x hx).symm

theorem Stacked.pop (hs : Stacked a next out p h (x :: free)) :
    Stacked a next (x :: out) p ⟨h.magic, free.length, next x⟩ free := by
  obtain ⟨hx, hfree⟩ := List.nodup_cons.mp hs.nodup
  refine ⟨hs.magic, hs.chain.pop.2, hfree, fun y => ?_, rfl⟩
  have hy := hs.mem y
  rw [List.mem_cons] at hy ⊢
  constructor
  · intro hin
    have hy' := hy.mp (.inr hin)
    refine ⟨hy'.1, not_or.mpr ⟨?_, hy'.2⟩⟩
    rintro rfl
    exact hx hin
  · rintro ⟨hobj, hnot⟩
    rw [not_or] at hnot
    exact (hy.mpr ⟨hobj, hnot.2⟩).resolve_left hnot.1

theorem Stacked.push (hs : Stacked a next out p h free) (hx : x ∈ objects a p) (hout : x ∈ out)
    (hnd : out.Nodup) (hx0 : x ≠ 0) : Stacked a (update next x h.freeObjs) (out.erase x) p
      ⟨h.magic, free.length + 1, x⟩ (x :: free) := by
  have hfresh : x ∉ free := fun hin => ((hs.mem x).mp hin).2 hout
  refine ⟨hs.magic, hs.chain.push hx0 hfresh, List.nodup_cons.mpr ⟨hfresh, hs.nodup⟩, fun y => ?_,
    rfl⟩
  rw [List.mem_cons, hs.mem y, hnd.mem_erase_iff]
  by_cases hyx : y = x
  · subst hyx
    simp [hx]
  · simp [hyx]

theorem not_mem_objects (hf : Fits shift objSize objAlign a) (hp : 2 ^ shift ∣ p)
    (hq : 2 ^ shift ∣ q) (hpq : p ≠ q) (hx : x ∈ objects a p) : x ∉ objects a q :=
  fun hx' => hpq (hf.page_unique hp hq hx hx')

theorem Slab.update (hs : Slab shift a headers next pages out) (hf : Fits shift objSize objAlign a)
    (hp : p ∈ pages) (hnext : ∀ y, y ∉ objects a p → next' y = next y)
    (hout : ∀ y, y ∉ objects a p → (y ∈ out' ↔ y ∈ out)) (hnd : out'.Nodup)
    (hst : Stacked a next' out' p h' free) :
    Slab shift a (update headers p h') next' pages out' := by
  refine ⟨hs.nodup, hs.aligned, hs.nonzero, hs.bounded, fun q hq => ?_, hnd, fun x hx => ?_⟩
  · by_cases hqp : q = p
    · subst hqp
      rw [update_self]
      exact ⟨free, hst⟩
    · rw [update_of_ne hqp]
      obtain ⟨free', hst'⟩ := hs.stacked q hq
      have hother : ∀ y ∈ objects a q, y ∉ objects a p := fun y hy =>
        not_mem_objects hf (hs.aligned q hq) (hs.aligned p hp) hqp hy
      exact ⟨free', hst'.congr (fun y hy => hnext y (hother y ((hst'.mem y).mp hy).1))
        fun y hy => hout y (hother y hy)⟩
  · by_cases hxp : x ∈ objects a p
    · exact ⟨p, hp, hxp⟩
    · exact hs.owned x ((hout x hxp).mp hx)

theorem objects_length (a : Allocator) (p : ℕ) : (objects a p).length = a.objsPerPage := by
  simp [objects]

theorem Stacked.length_le (hs : Stacked a next out p h free) : free.length ≤ a.objsPerPage := by
  rw [← objects_length a p]
  exact (hs.nodup.subperm fun x hx => ((hs.mem x).mp hx).1).length_le

theorem Stacked.none_out (hs : Stacked a next out p h free)
    (hall : free.length = a.objsPerPage) (hx : x ∈ objects a p) : x ∉ out := by
  have hsub := hs.nodup.subperm fun y hy => ((hs.mem y).mp hy).1
  have hperm := hsub.perm_of_length_le (by rw [objects_length, hall])
  exact ((hs.mem x).mp (hperm.mem_iff.mpr hx)).2

theorem linkage_inj (hpq : linkage p = linkage q) : p = q := Nat.add_right_cancel hpq

namespace Listed

theorem erase (hl : Listed headers pages list none) (p : ℕ) :
    Listed headers pages (list.erase (linkage p)) (some p) := by
  refine ⟨hl.nodup.erase _, fun node => ?_⟩
  rw [hl.nodup.mem_erase_iff, hl.mem node]
  constructor
  · rintro ⟨hne, q, hq, -, rfl, hpos⟩
    refine ⟨q, hq, fun he => hne ?_, rfl, hpos⟩
    rw [Option.some.inj he]
  · rintro ⟨q, hq, hqp, rfl, hpos⟩
    exact ⟨fun he => hqp (congrArg some (linkage_inj he)), q, hq, by simp, rfl, hpos⟩

theorem skip_full (hl : Listed headers pages list none) (hp : (headers p).freecount = 0) :
    Listed headers pages list (some p) := by
  refine ⟨hl.nodup, fun node => (hl.mem node).trans (exists_congr fun q => ?_)⟩
  refine and_congr_right fun _ => and_congr_left fun hq => ⟨fun _ he => ?_, fun _ => by simp⟩
  rw [Option.some.inj he, hp] at hq
  omega

theorem put (hl : Listed headers pages list (some p)) (hp : p ∈ pages) (hpos : 0 < h'.freecount) :
    Listed (update headers p h') pages (linkage p :: list) none := by
  refine ⟨List.nodup_cons.mpr ⟨fun hin => ?_, hl.nodup⟩, fun node => ?_⟩
  · obtain ⟨q, -, hqp, hlink, -⟩ := (hl.mem _).mp hin
    exact hqp (congrArg some (linkage_inj hlink))
  · rw [List.mem_cons, hl.mem node]
    constructor
    · rintro (rfl | ⟨q, hq, hqp, rfl, hq0⟩)
      · exact ⟨p, hp, by simp, rfl, by rwa [update_self]⟩
      · have hne : q ≠ p := fun he => hqp (congrArg some he)
        exact ⟨q, hq, by simp, rfl, by rwa [update_of_ne hne]⟩
    · rintro ⟨q, hq, -, rfl, hq0⟩
      by_cases hqp : q = p
      · exact .inl (congrArg linkage hqp)
      · rw [update_of_ne hqp] at hq0
        exact .inr ⟨q, hq, fun he => hqp (Option.some.inj he), rfl, hq0⟩

theorem leave (hl : Listed headers pages list (some p)) (hz : h'.freecount = 0) :
    Listed (update headers p h') pages list none := by
  refine ⟨hl.nodup, fun node => (hl.mem node).trans (exists_congr fun q => ?_)⟩
  refine and_congr_right fun _ => ?_
  by_cases hqp : q = p
  · subst hqp
    simp [hz]
  · simp [hqp]

theorem keep (hl : Listed headers pages list none) (hp : 0 < (headers p).freecount)
    (hpos : 0 < h'.freecount) : Listed (update headers p h') pages list none := by
  refine ⟨hl.nodup, fun node => (hl.mem node).trans (exists_congr fun q => ?_)⟩
  refine and_congr_right fun _ => and_congr_right fun _ => and_congr_right fun _ => ?_
  by_cases hqp : q = p
  · subst hqp
    simp [hp, hpos]
  · rw [update_of_ne hqp]

theorem drop (hl : Listed headers pages list (some p)) (hnd : pages.Nodup) :
    Listed (update headers p h') (pages.erase p) list none := by
  refine ⟨hl.nodup, fun node => (hl.mem node).trans (exists_congr fun q => ?_)⟩
  rw [hnd.mem_erase_iff]
  by_cases hqp : q = p
  · subst hqp
    simp
  · simp [hqp]

theorem fresh (hl : Listed headers pages list none) (hp : p ∉ pages)
    (hother : ∀ q, q ≠ p → headers' q = headers q) :
    Listed headers' (p :: pages) list (some p) := by
  refine ⟨hl.nodup, fun node => (hl.mem node).trans (exists_congr fun q => ?_)⟩
  by_cases hqp : q = p
  · subst hqp
    simp [hp]
  · simp [hqp, hother q hqp]

end Listed

end Slab

end MemSpallocInvariant
