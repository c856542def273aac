import EvalynKernel.MemVmemPartition

/-! # The calls of the virtual address allocator

What `vmem_alloc` and `vmem_free` do to the segments of an allocator whose range may end
with the word, where the ends of segments wrap around to zero. -/
namespace MemVmemCalls

open MachineWords DstructRbtree DstructRbtreeSearch IntervalTilings MemVmem
open MemVmemInvariant MemVmemOperations MemVmemPartition

variable {σ : Type} {pool : SegmentAllocator σ} {oom : Fault → Prop} {Live : σ → Set ℕ → Prop}
  {s : σ} {a : Allocator} {gs : List Segment}

structure Ready (Live : σ → Set ℕ → Prop) (s : σ) (a : Allocator) (gs : List Segment) : Prop where
  whole : Whole Live s a gs
  region : Region (range a)
  tiles : Tiles Segment.base Segment.size a.base (a.base + a.size) gs
  aligned : ∀ g ∈ gs, a.quantum ∣ g.base

theorem Ready.segment (h : Ready Live s a gs) (hx : x ∈ a.segmentsList) : a.segments x ∈ gs := by
  rw [← h.whole.segs]
  exact List.mem_map_of_mem hx

theorem Ready.bounds (h : Ready Live s a gs) (hx : x ∈ a.segmentsList) :
    a.base ≤ (a.segments x).base ∧
      (a.segments x).base + (a.segments x).size ≤ a.base + a.size :=
  h.tiles.bounds (h.segment hx)

theorem Ready.alignUp_facts (h : Ready Live s a gs) (v : ℕ) :
    a.quantum ∣ alignUp v a.quantum ∧ alignUp v a.quantum < word := by
  obtain ⟨k, hk, hq⟩ := h.region.quantum
  have hq : a.quantum = 2 ^ k := hq
  rw [hq]
  exact ⟨dvd_alignUp (by omega), alignUp_lt (by omega)⟩

variable {v : ℕ}

theorem Ready.alignUp_eq (h : Ready Live s a gs) (hv : v < word) (hd : a.quantum ∣ v) :
    alignUp v a.quantum = v := by
  obtain ⟨k, hk, hq⟩ := h.region.quantum
  have hq : a.quantum = 2 ^ k := hq
  rw [hq] at hd ⊢
  exact alignUp_of_dvd (by omega) hv hd

theorem Ready.isAligned_iff (h : Ready Live s a gs) (v : ℕ) :
    isAligned v a.quantum = true ↔ a.quantum ∣ v := by
  obtain ⟨k, -, hq⟩ := h.region.quantum
  have hq : a.quantum = 2 ^ k := hq
  rw [hq]
  exact isAligned_two_pow v k

section Fit

variable {size addr x i r max : ℕ}

theorem fitList_some {min : ℕ} {ret : ℕ × ℕ × ℕ} (h : fitList a size min max i = some ret) :
    ret.2.1 = i ∧ ret.2.2 ∈ a.freelists i ∧ fitSegment a size min max ret.2.2 = some ret.1 := by
  obtain ⟨x, hx, hfit⟩ := List.exists_of_findSome?_eq_some h
  obtain ⟨r, hr, rfl⟩ := Option.map_eq_some_iff.1 hfit
  exact ⟨rfl, hx, hr⟩

def limit (a : Allocator) (size addr : ℕ) : ℕ :=
  if addr ≠ 0 then alignUp (wadd addr size) a.quantum else word - 1

theorem fitAlloc_some (h : fitAlloc a size addr = some (r, i, x)) :
    x ∈ a.freelists i ∧
      fitSegment a size (alignUp addr a.quantum) (limit a size addr) x = some r := by
  suffices hlist : ∃ j, fitList a size (alignUp addr a.quantum) (limit a size addr) j =
      some (r, i, x) by
    obtain ⟨j, hj⟩ := hlist
    obtain ⟨hij, hx, hfit⟩ := fitList_some hj
    dsimp only at hij hx hfit
    exact ⟨hij ▸ hx, hfit⟩
  simp only [fitAlloc] at h
  split at h
  · next ret hfind =>
    cases h
    obtain ⟨j, -, hj⟩ := List.exists_of_findSome?_eq_some hfind
    exact ⟨j, hj⟩
  · split at h
    · cases h
    · exact ⟨_, h⟩

theorem fitSegment_iff (h : Ready Live s a gs) (hx : x ∈ a.segmentsList)
    (hlt : (a.segments x).base < word) (haddr : a.quantum ∣ addr) (haw : addr < word) :
    fitSegment a size (alignUp addr a.quantum) max x = some r ↔
      r = Nat.max addr (a.segments x).base ∧
        r - (a.segments x).base + size ≤ (a.segments x).size ∧
        ¬ (max ≠ word - 1 ∧ wadd r size > max) := by
  have hdvd : a.quantum ∣ (a.segments x).base := h.aligned _ (h.segment hx)
  have hmaxdvd : a.quantum ∣ Nat.max addr (a.segments x).base :=
    max_rec' (a.quantum ∣ ·) haddr hdvd
  have hmaxlt : Nat.max addr (a.segments x).base < word := max_lt haw hlt
  have hge : (a.segments x).base ≤ Nat.max addr (a.segments x).base := Nat.le_max_right _ _
  simp only [fitSegment, h.alignUp_eq haw haddr, h.alignUp_eq hmaxlt hmaxdvd,
    wsub_of_le hge hmaxlt]
  generalize Nat.max addr (a.segments x).base = start at *
  by_cases h1 : (a.segments x).size < size
  · rw [if_pos h1]
    constructor
    · intro hr
      cases hr
    · rintro ⟨rfl, hle, -⟩
      omega
  by_cases h2 : start - (a.segments x).base > (a.segments x).size - size
  · rw [if_neg h1, if_pos h2]
    constructor
    · intro hr
      cases hr
    · rintro ⟨rfl, hle, -⟩
      omega
  rw [if_neg h1, if_neg h2, Option.ite_none_left_eq_some]
  constructor
  · rintro ⟨h3, hr⟩
    cases hr
    exact ⟨rfl, by omega, h3⟩
  · rintro ⟨rfl, -, h3⟩
    exact ⟨h3, rfl⟩

theorem fitSegment_open (h : Ready Live s a gs) (hx : x ∈ a.segmentsList)
    (hlt : (a.segments x).base < word) :
    fitSegment a size (alignUp 0 a.quantum) (limit a size 0) x = some r ↔
      r = (a.segments x).base ∧ size ≤ (a.segments x).size := by
  rw [fitSegment_iff h hx hlt (dvd_zero _) (by decide)]
  have hmax : Nat.max 0 (a.segments x).base = (a.segments x).base := Nat.zero_max _
  rw [hmax]
  constructor
  · rintro ⟨rfl, hle, -⟩
    exact ⟨rfl, by omega⟩
  · rintro ⟨rfl, hle⟩
    exact ⟨rfl, by omega, by simp [limit]⟩

/-- The segment is above the address asked for, has exactly the size asked for and ends with
the word: the sum of its base and that size wraps around to zero. -/
def Overshoots (size addr : ℕ) (g : Segment) : Prop :=
  addr < g.base ∧ g.size = size ∧ g.base + g.size = word

theorem fitSegment_fixed (h : Ready Live s a gs) (hx : x ∈ a.segmentsList)
    (hlt : (a.segments x).base < word) (hsize : a.quantum ∣ size) (haddr : a.quantum ∣ addr)
    (haw : addr < word) (h0 : addr ≠ 0) :
    fitSegment a size (alignUp addr a.quantum) (limit a size addr) x = some r ↔
      (a.segments x).base ≤ addr ∧ addr + size ≤ (a.segments x).base + (a.segments x).size ∧
        r = addr ∨
      Overshoots size addr (a.segments x) ∧ r = (a.segments x).base := by
  have hb := h.bounds hx
  have htop : a.base + a.size ≤ word := h.region.top
  have hlimit : limit a size addr = wadd addr size := by
    rw [limit, if_pos h0]
    exact h.alignUp_eq (wadd_lt _ _) ((Nat.dvd_mod_iff h.region.dvd_word).2
      (Nat.dvd_add haddr hsize))
  rw [fitSegment_iff h hx hlt haddr haw, hlimit]
  rcases Nat.lt_or_ge addr (a.segments x).base with hlow | hhigh
  · rw [show Nat.max addr (a.segments x).base = (a.segments x).base from
      Nat.max_eq_right hlow.le]
    unfold Overshoots
    constructor
    · rintro ⟨rfl, hle, hlim⟩
      have hsum : wadd addr size = addr + size := wadd_of_lt (by omega)
      by_cases hw : (a.segments x).base + size < word
      · rw [wadd_of_lt hw] at hlim
        omega
      · exact .inr ⟨⟨hlow, by omega, by omega⟩, rfl⟩
    · rintro (⟨hle, -⟩ | ⟨⟨-, hs, hw⟩, rfl⟩)
      · omega
      · have hzero : wadd (a.segments x).base size = 0 := by rw [← hs, wadd, hw, Nat.mod_self]
        refine ⟨rfl, by omega, ?_⟩
        rw [hzero]
        omega
  · rw [show Nat.max addr (a.segments x).base = addr from Nat.max_eq_left hhigh]
    constructor
    · rintro ⟨rfl, hle, -⟩
      exact .inl ⟨hhigh, by omega, rfl⟩
    · rintro (⟨-, hle, rfl⟩ | ⟨⟨hlow, -⟩, -⟩)
      · refine ⟨rfl, by omega, ?_⟩
        rintro ⟨-, hgt⟩
        exact lt_irrefl _ hgt
      · omega

end Fit

variable {A B : List Segment} {g : Segment}

section Alloc

variable {size addr r i x : ℕ}

theorem vmemAlloc_misaligned (h : Ready Live s a gs) (size : ℕ) (haddr : ¬ a.quantum ∣ addr) :
    vmemAlloc pool s a size addr = .ok (0, a, s) := by
  have hfalse : isAligned addr a.quantum = false := by
    rw [← Bool.not_eq_true, h.isAligned_iff]
    exact haddr
  simp only [vmemAlloc, hfalse]
  rfl

theorem vmemAlloc_none (h : Ready Live s a gs) (haddr : a.quantum ∣ addr)
    (hfit : fitAlloc a (alignUp size a.quantum) addr = none) :
    vmemAlloc pool s a size addr = .ok (0, a, s) := by
  simp only [vmemAlloc, (h.isAligned_iff addr).2 haddr, hfit]
  rfl

theorem vmemAlloc_asserts (h : Ready Live s a gs) (haddr : a.quantum ∣ addr) (h0 : addr ≠ 0)
    (hfit : fitAlloc a (alignUp size a.quantum) addr = some (r, i, x)) (hr : r ≠ addr) :
    vmemAlloc pool s a size addr = .error (.assertion "ret.addr == addr") := by
  simp only [vmemAlloc, (h.isAligned_iff addr).2 haddr, hfit]
  simp [h0, hr, kassert]
  rfl

theorem vmemAlloc_taken (hpool : Lawful pool oom Live) (h : Ready Live s a gs)
    (haddr : a.quantum ∣ addr) (haw : addr < word)
    (hfit : fitAlloc a (alignUp size a.quantum) addr = some (r, i, x))
    (hlt : (a.segments x).base < word) (hr : addr ≠ 0 → r = addr) :
    Ensures oom (vmemAlloc pool s a size addr) fun ret =>
      ∃ A B, gs = A ++ a.segments x :: B ∧
        Placed (range a) (alignUp size a.quantum) addr (a.segments x) r ∧ ret.1 = r ∧
        range ret.2.1 = range a ∧ Whole Live ret.2.2 ret.2.1
          (A ++ allocate a.quantum (alignUp size a.quantum) (a.segments x) r ++ B) := by
  simp only [vmemAlloc, (h.isAligned_iff addr).2 haddr, hfit]
  generalize alignUp size a.quantum = size at hfit ⊢
  obtain ⟨hx, hseg⟩ := fitAlloc_some hfit
  obtain ⟨hxl, -, hfree, -⟩ := (h.whole.views.free i x).1 hx
  obtain ⟨hstart, hfits, -⟩ := (fitSegment_iff h hxl hlt haddr haw).1 hseg
  have hdvd : a.quantum ∣ (a.segments x).base := h.aligned _ (h.segment hxl)
  have hle : (a.segments x).base ≤ r := hstart ▸ Nat.le_max_right _ _
  have hrd : a.quantum ∣ r := hstart ▸ max_rec' (a.quantum ∣ ·) haddr hdvd
  have hrw : r < word := hstart ▸ max_lt haw hlt
  have hplaced : Placed (range a) size addr (a.segments x) r := ⟨hfree, hle, hfits, hrd, hr⟩
  obtain ⟨as, bs, hf, -, hgs⟩ := h.whole.detachFree hx
  have hb := h.bounds hxl
  have htop : a.base + a.size ≤ word := h.region.top
  have hheld : Held Live s (vmemFlistDel a x i) x (range a) (as.map a.segments) (a.segments x)
    (bs.map a.segments) := ⟨as, bs, hf, rfl, rfl, rfl, rfl⟩
  have hgap : (a.segments x).base ≠ r → (range a).2.2 ≤ r - (a.segments x).base := by
    intro hne
    exact Nat.le_of_dvd (by omega) (Nat.dvd_sub hrd hdvd)
  have hrest : Ensures oom (do
      let y ← allocSplitLeft pool s (vmemFlistDel a x i) x r
      allocTake pool y.2 y.1 x size)
      fun ret => ∃ A B, gs = A ++ a.segments x :: B ∧
        Placed (range a) size addr (a.segments x) r ∧ ret.1 = r ∧ range ret.2.1 = range a ∧
        Whole Live ret.2.2 ret.2.1 (A ++ allocate a.quantum size (a.segments x) r ++ B) := by
    refine (allocSplitLeft_spec hpool hheld hle (by omega) hrw hgap).bind fun y hy => ?_
    refine (allocTake_spec hpool hy (by dsimp only; omega) (by dsimp only; omega)).imp
      fun ret ⟨hret, hrange, hwhole⟩ => ⟨_, _, hgs, hplaced, hret, hrange, ?_⟩
    rw [allocate, ← List.append_assoc]
    exact hwhole
  have hsize : size ≤ (a.segments x).size := by omega
  by_cases h0 : addr = 0
  · simpa [h0, hsize] using hrest
  · simpa [h0, hsize, hr h0] using hrest

theorem Ready.allocate (h : Ready Live s a (A ++ g :: B)) (hp : Placed (range a) size addr g r)
    (hsize : a.quantum ∣ size) (hrange : range a' = range a)
    (hwhole : Whole Live s' a' (A ++ MemVmemPartition.allocate a.quantum size g r ++ B)) :
    Ready Live s' a' (A ++ MemVmemPartition.allocate a.quantum size g r ++ B) := by
  obtain ⟨hb, hs, hq⟩ : a'.base = a.base ∧ a'.size = a.size ∧ a'.quantum = a.quantum := by
    simpa [range] using hrange
  refine ⟨hwhole, hrange ▸ h.region, ?_, fun k hk => ?_⟩
  · rw [hb, hs]
    exact h.tiles.replace (allocate_tiles hp)
  · rw [hq]
    rcases mem_replaced (g := g) hk with hk | hk
    · exact h.aligned k hk
    · exact allocate_aligned hp (h.aligned g (by simp)) hsize hk

end Alloc

structure Sound (Live : σ → Set ℕ → Prop) (s : σ) (a : Allocator) (gs : List Segment) : Prop where
  whole : Whole Live s a gs
  region : Region (range a)
  partition : Partition (range a) gs

theorem Sound.ready (h : Sound Live s a gs) : Ready Live s a gs :=
  ⟨h.whole, h.region, h.partition.tiles, h.partition.aligned⟩

theorem Sound.free_lt (h : Sound Live s a gs) (hg : g ∈ gs) (hf : g.allocated = false) :
    g.base < word := by
  have hb := h.partition.tiles.bounds hg
  have hp := h.partition.positive g hg hf
  have htop := h.region.top
  omega

section Free

variable {x cur e : ℕ}

theorem vmemFindSegment_spec (h : Ready Live s a gs) (hcur : cur < word) :
    ∃ o, vmemFindSegment a cur = .ok o ∧
      (∀ x, o = some x → x ∈ a.segmentsList ∧ (a.segments x).allocated = true ∧
        Covers Segment.base Segment.size (a.segments x) cur) ∧
      (o = none → AllPositive gs → ¬ AllocatedAt gs cur) := by
  obtain ⟨xs, hholds, hsorted, hmem⟩ := h.whole.views.tree
  have hsub := List.subperm_of_subset (holds_nodup hholds) fun y hy => ((hmem y).1 hy).1
  have hlen := hsub.length_le
  obtain ⟨y, hok, hy⟩ := rbtreeSearchLesser_spec hholds hsorted cur hlen
  -- an allocated segment of the sequence is a node of the tree
  have hnode : ∀ g ∈ gs, g.allocated = true → ∃ z ∈ xs, a.segments z = g := by
    intro g hg halloc
    rw [← h.whole.segs] at hg
    obtain ⟨z, hz, rfl⟩ := List.mem_map.1 hg
    exact ⟨z, (hmem z).2 ⟨hz, by simp, halloc⟩, rfl⟩
  simp only [vmemFindSegment, hok, ok_bind]
  rcases hy with ⟨rfl, hnone⟩ | ⟨hyx, hle, hmax⟩
  · refine ⟨none, rfl, by simp, ?_⟩
    rintro - - ⟨g, hg, halloc, hcov⟩
    obtain ⟨z, hz, rfl⟩ := hnode g hg halloc
    exact absurd hcov.1 (not_le.2 (hnone z hz))
  · obtain ⟨hyl, -, hya⟩ := (hmem y).1 hyx
    have hle : (a.segments y).base ≤ cur := hle
    rw [if_neg (h.whole.views.real y hyl).1, wsub_of_le hle hcur]
    by_cases hout : cur < (a.segments y).base ∨ (a.segments y).size ≤ cur - (a.segments y).base
    · refine ⟨none, by rw [if_pos hout]; rfl, by simp, ?_⟩
      rintro - hpos ⟨g, hg, halloc, hcov⟩
      obtain ⟨z, hz, rfl⟩ := hnode g hg halloc
      -- the segment found starts where the covering one does, or inside it
      have hzy : (a.segments z).base ≤ (a.segments y).base := hmax z hz hcov.1
      have hzl := ((hmem z).1 hz).1
      have hypos := hpos _ (h.segment hyl)
      have hcovz : Covers Segment.base Segment.size (a.segments z) (a.segments y).base :=
        ⟨hzy, lt_of_le_of_lt hle hcov.2⟩
      have heq := h.tiles.eq_of_covers (h.segment hzl) (h.segment hyl) hcovz
        ⟨le_rfl, Nat.lt_add_of_pos_right hypos⟩
      rw [heq] at hcov
      obtain ⟨-, hhi⟩ := hcov
      omega
    · refine ⟨some y, by rw [if_neg hout]; rfl, ?_, by simp⟩
      rintro _ ⟨⟩
      exact ⟨hyl, hya, hle, by omega⟩

variable {R : ℕ × ℕ × ℕ}

theorem freeJoin_spec (hpool : Lawful pool oom Live)
    (hh : Held Live s a x R A ⟨b, g.base, g.size⟩ B) (hg : g.allocated = false) (hreg : Region R)
    (htiles : Tiles Segment.base Segment.size R.1 (R.1 + R.2.1) (A ++ g :: B)) (hpos : 0 < g.size)
    (hB : ∀ n ∈ B, n.allocated = false → 0 < n.size) :
    ∃ s' a' A' h B' k, freeJoin pool s a x = .ok (a', s') ∧ range a' = R ∧
      LeftJoin A g A' h ∧ RightJoin h B k B' ∧ Whole Live s' a' (A' ++ k :: B') := by
  obtain ⟨flag, gbase, gsize⟩ := g
  dsimp only at hg hpos
  subst hg
  have hspan := hreg.span
  have hword : gsize < word := by
    obtain ⟨hA, hB'⟩ := tiles_middle.1 htiles
    have h1 := hA.le
    have h2 := hB'.le
    dsimp only at h1 h2
    omega
  have hseg : a.segments x = ⟨b, gbase, gsize⟩ := by
    obtain ⟨-, -, -, -, hseg, -⟩ := hh
    exact hseg
  have h₁ := hh.setSegment (k := ⟨false, gbase, gsize⟩) hword
  obtain ⟨s₂, a₂, A', g', hok₂, h₂, hleft⟩ := coalesceLeft_spec hpool h₁ htiles hreg.top
    (by omega) hpos
  obtain ⟨s₃, a₃, g'', B', hok₃, h₃, hright⟩ :=
    coalesceRight_spec hpool h₂ (leftJoin_tiles hleft htiles) hreg.top (by omega) hB
  obtain ⟨-, -, hsize, hflag⟩ := leftJoin_mem hleft
  obtain ⟨-, -, hsize', hflag'⟩ := rightJoin_mem hright
  have hseg₃ : a₃.segments x = g'' := h₃.choose_spec.choose_spec.2.2.1
  have hne : (g''.size != 0) = true := by
    have : g''.size ≠ 0 := by
      dsimp only at hsize
      omega
    simpa using this
  obtain ⟨hwhole, hrange⟩ := h₃.release (hflag'.trans hflag) ⟨0, 0, (a₃.nodes x).right⟩
  refine ⟨s₃, _, A', g', B', g'', ?_, hrange, hleft, hright, hwhole⟩
  simp only [freeJoin, hseg, hok₂, ok_bind, hok₃, hseg₃, hne, kassert_true]
  rfl

/-- Where a round on the segment `g` stops: at `e`, or at the end of the word when the end of
the segment wraps around to zero. -/
def goal (g : Segment) (e : ℕ) : ℕ := if g.base + g.size < word then e else word

theorem freeSplits_spec (hpool : Lawful pool oom Live) (hh : Held Live s a x R A g B)
    (hcov : Covers Segment.base Segment.size g cur) (htop : g.base + g.size ≤ word) (he : cur < e) :
    Ensures oom (do
        let y ← freeSplitLeft pool s a x cur
        freeSplitRight pool y.2 y.1 x (wadd g.base g.size) e) fun r =>
      Held Live r.2 r.1 x R (A ++ below g cur) ⟨g.allocated, cur, (freed g cur (goal g e)).size⟩
        (above g (goal g e) ++ B) := by
  obtain ⟨hlo, hhi⟩ := hcov
  refine (freeSplitLeft_spec hpool hh hlo (by omega) (by omega)).bind fun r₁ h₁ => ?_
  refine (freeSplitRight_spec hpool h₁ (wadd_lt _ _) he.le).imp fun r₂ h₂ => ?_
  by_cases hw : g.base + g.size < word
  · have hsum : wadd g.base g.size = g.base + g.size := wadd_of_lt hw
    have hgoal : goal g e = e := if_pos hw
    have hsize : (if e < g.base + g.size then e - cur else g.size - (cur - g.base)) =
        Nat.min (g.base + g.size) e - cur := by
      split
      · next hlt => rw [show Nat.min (g.base + g.size) e = e from Nat.min_eq_right hlt.le]
      · next hge =>
        rw [show Nat.min (g.base + g.size) e = g.base + g.size from Nat.min_eq_left (not_lt.1 hge)]
        omega
    rw [hsum] at h₂
    simp only [hsize] at h₂
    rw [hgoal]
    exact h₂
  · have heq : g.base + g.size = word := by omega
    have hzero : wadd g.base g.size = 0 := by rw [wadd, heq, Nat.mod_self]
    have hgoal : goal g e = word := if_neg hw
    have habove : above g word = [] := if_neg (by omega)
    have hsize : (freed g cur word).size = g.size - (cur - g.base) := by
      have hmin : Nat.min word word = word := Nat.min_self _
      dsimp only [freed]
      rw [heq, hmin]
      omega
    rw [hzero] at h₂
    rw [hgoal, habove, hsize]
    exact h₂

theorem freeSegment_spec (hpool : Lawful pool oom Live) (h : Sound Live s a gs)
    (hx : x ∈ a.segmentsList) (halloc : (a.segments x).allocated = true)
    (hcov : Covers Segment.base Segment.size (a.segments x) cur) (he : cur < e) (hew : e < word)
    (hcur : a.quantum ∣ cur) (hend : a.quantum ∣ e) :
    Ensures oom (freeSegment pool s a x cur e) fun r =>
      range r.1 = range a ∧ ∃ gs', Released cur (goal (a.segments x) e)
        (Nat.min ((a.segments x).base + (a.segments x).size) (goal (a.segments x) e)) gs gs' ∧
        Sound Live r.2 r.1 gs' := by
  obtain ⟨y, t, as, bs, hok, hf, hgs⟩ := h.whole.detachTree hx halloc
  have hb := h.ready.bounds hx
  have htop : a.base + a.size ≤ word := h.region.top
  have hheld : Held Live s (a.setTree t) x (range a) (as.map a.segments) (a.segments x)
    (bs.map a.segments) := ⟨as, bs, hf, rfl, rfl, rfl, rfl⟩
  have hgoal : cur < goal (a.segments x) e ∧ a.quantum ∣ goal (a.segments x) e := by
    unfold goal
    split
    · exact ⟨he, hend⟩
    · exact ⟨by omega, h.region.dvd_word⟩
  rw [freeSegment, hok]
  simp only [ok_bind]
  rw [← bind_assoc]
  refine (freeSplits_spec hpool hheld hcov (by omega) he).bind fun r₁ h₁ => ?_
  have hcut := h.partition.tiles
  rw [hgs] at hcut
  have hcut := hcut.replace (cut_tiles hcov hgoal.1)
  rw [← List.append_assoc, List.append_assoc _ _ (bs.map a.segments), List.cons_append] at hcut
  have hpos : 0 < (freed (a.segments x) cur (goal (a.segments x) e)).size := by
    have hmin : cur < Nat.min ((a.segments x).base + (a.segments x).size)
      (goal (a.segments x) e) := lt_min hcov.2 hgoal.1
    dsimp only [freed]
    omega
  have hB : ∀ n ∈ above (a.segments x) (goal (a.segments x) e) ++ bs.map a.segments,
      n.allocated = false → 0 < n.size := by
    intro n hn hfree
    rcases List.mem_append.1 hn with hn | hn
    · rw [(mem_above hn).1] at hfree
      cases hfree
    · exact h.partition.positive n (by rw [hgs]; simp [hn]) hfree
  obtain ⟨s₂, a₂, A', k, B', k', hok₂, hrange, hleft, hright, hwhole⟩ :=
    freeJoin_spec hpool h₁ rfl h.region hcut hpos hB
  have hreleased : Released cur (goal (a.segments x) e)
      (Nat.min ((a.segments x).base + (a.segments x).size) (goal (a.segments x) e)) gs
      (A' ++ k' :: B') :=
    ⟨_, _, _, _, _, _, _, hgs, halloc, hcov, rfl, hleft, hright, rfl⟩
  refine Ensures.of_eq hok₂ ⟨hrange, _, hreleased, hwhole, hrange ▸ h.region, ?_⟩
  exact hrange ▸ h.partition.release hreleased hgoal.1 hcur hgoal.2

variable {fuel : ℕ}

theorem freeLoop_done (hdone : e ≤ cur) : freeLoop pool e fuel s a cur = .ok (a, s) := by
  rw [freeLoop, if_pos hdone]

theorem freeLoop_miss (hfind : vmemFindSegment a cur = .ok none) :
    freeLoop pool e fuel s a cur = .ok (a, s) := by
  rw [freeLoop, hfind]
  split <;> rfl

theorem freeLoop_found (he : cur < e) (hfind : vmemFindSegment a cur = .ok (some x))
    (halloc : (a.segments x).allocated = true) :
    freeLoop pool e (fuel + 1) s a cur = (do
      let r ← freeSegment pool s a x cur e
      freeLoop pool e fuel r.2 r.1
        (Nat.min (wadd (a.segments x).base (a.segments x).size) e)) := by
  rw [freeLoop, if_neg (not_le.2 he), hfind, ok_bind]
  dsimp only
  rw [if_neg (by simp [halloc])]

theorem freeLoop_zero (h : Ready Live s a gs) (htop : a.base + a.size = word) :
    freeLoop pool e fuel s a 0 = .ok (a, s) := by
  have hspan : a.size < word := h.region.span
  obtain ⟨o, hok, hsome, -⟩ := vmemFindSegment_spec h (show 0 < word by decide)
  cases o with
  | none => exact freeLoop_miss hok
  | some x =>
    obtain ⟨hx, -, hcov⟩ := hsome x rfl
    have hb := (h.bounds hx).1
    have := hcov.1
    omega

theorem freeLoop_spec (hpool : Lawful pool oom Live) (h : Sound Live s a gs) (hew : e < word)
    (hend : a.quantum ∣ e) (hcw : cur < word) (hcur : a.quantum ∣ cur ∨ a.base + a.size ≤ cur)
    (hfuel : cur < e → pending cur gs ≤ fuel) :
    Ensures oom (freeLoop pool e fuel s a cur) fun r =>
      range r.1 = range a ∧ ∃ gs', Rounds (a.base + a.size) e cur gs gs' ∧
        Sound Live r.2 r.1 gs' := by
  induction fuel generalizing s a gs cur with
  | zero =>
    by_cases hdone : e ≤ cur
    · exact Ensures.of_eq (freeLoop_done hdone) ⟨rfl, gs, .done hdone, h⟩
    obtain ⟨o, hok, hsome, hnone⟩ := vmemFindSegment_spec h.ready hcw
    cases o with
    | none =>
      exact Ensures.of_eq (freeLoop_miss hok) ⟨rfl, gs, .miss (not_le.1 hdone) (hnone rfl), h⟩
    | some x =>
      obtain ⟨hx, halloc, hcov⟩ := hsome x rfl
      have hpend := pending_pos (h.ready.segment hx) halloc hcov
      omega
  | succ fuel ih =>
    by_cases hdone : e ≤ cur
    · exact Ensures.of_eq (freeLoop_done hdone) ⟨rfl, gs, .done hdone, h⟩
    obtain ⟨o, hok, hsome, hnone⟩ := vmemFindSegment_spec h.ready hcw
    cases o with
    | none =>
      exact Ensures.of_eq (freeLoop_miss hok) ⟨rfl, gs, .miss (not_le.1 hdone) (hnone rfl), h⟩
    | some x =>
      obtain ⟨hx, halloc, hcov⟩ := hsome x rfl
      have he := not_le.1 hdone
      have hb := h.ready.bounds hx
      have htop : a.base + a.size ≤ word := h.region.top
      have hdvd : a.quantum ∣ cur := hcur.resolve_right fun hle => by
        have := hcov.2
        omega
      rw [freeLoop_found he hok halloc]
      refine (freeSegment_spec hpool h hx halloc hcov he hew hdvd hend).bind fun r hr => ?_
      obtain ⟨hrange, gs₁, hreleased, hsound⟩ := hr
      have hq : r.1.quantum = a.quantum := congrArg (fun R => R.2.2) hrange
      have hbase : r.1.base + r.1.size = a.base + a.size := congrArg (fun R => R.1 + R.2.1) hrange
      by_cases hw : (a.segments x).base + (a.segments x).size < word
      · rw [show goal (a.segments x) e = e from if_pos hw] at hreleased
        rw [wadd_of_lt hw]
        obtain ⟨hle, -, hnext⟩ := hreleased.next_aligned h.partition he.le hend
        refine (ih hsound (hq ▸ hend) (by omega) (hq ▸ hbase ▸ hnext) fun hlt => ?_).imp
          fun r' hr' => ?_
        · have hdec := hreleased.pending_lt h.partition
          omega
        · obtain ⟨hrange', gs', hrounds, hsound'⟩ := hr'
          exact ⟨hrange'.trans hrange, gs', .round he hreleased (hbase ▸ hrounds), hsound'⟩
      · have heq : (a.segments x).base + (a.segments x).size = word := by omega
        have hall : a.base + a.size = word := by omega
        have hmin : Nat.min word word = word := Nat.min_self _
        rw [show goal (a.segments x) e = word from if_neg hw, heq, hmin] at hreleased
        have hzero : Nat.min (wadd (a.segments x).base (a.segments x).size) e = 0 := by
          rw [wadd, heq, Nat.mod_self]
          exact Nat.zero_min e
        rw [hzero]
        exact Ensures.of_eq (freeLoop_zero hsound.ready (hbase.trans hall))
          ⟨hrange, gs₁, .last he hew hall hreleased, hsound⟩

theorem Ready.wadd_dvd (h : Ready Live s a gs) (hu : a.quantum ∣ u) (hv : a.quantum ∣ v) :
    a.quantum ∣ wadd u v :=
  (Nat.dvd_mod_iff h.region.dvd_word).2 (Nat.dvd_add hu hv)

theorem vmemFree_spec (hpool : Lawful pool oom Live) (h : Sound Live s a gs) (addr size : ℕ) :
    Ensures oom (vmemFree pool s a addr size) fun r =>
      range r.1 = range a ∧ ∃ gs', (alignUp size a.quantum = 0 ∧ gs' = gs ∨
        Rounds (a.base + a.size) (wadd (alignUp addr a.quantum) (alignUp size a.quantum))
          (alignUp addr a.quantum) gs gs') ∧ Sound Live r.2 r.1 gs' := by
  obtain ⟨hdvd, haw⟩ := h.ready.alignUp_facts addr
  obtain ⟨hsize, -⟩ := h.ready.alignUp_facts size
  simp only [vmemFree]
  split
  · next h0 => exact ⟨rfl, gs, .inl ⟨h0, rfl⟩, h⟩
  · refine (freeLoop_spec hpool h (wadd_lt _ _) (h.ready.wadd_dvd hdvd hsize) haw (.inl hdvd)
      fun _ => ?_).imp fun r hr => ?_
    · have hlen : gs.length = a.segmentsList.length := by
        rw [← h.whole.segs, segs, List.length_map]
      exact hlen ▸ List.countP_le_length
    · obtain ⟨hrange, gs', hrounds, hsound⟩ := hr
      exact ⟨hrange, gs', .inr hrounds, hsound⟩

end Free

section Init

variable {base size quantum : ℕ}

theorem vmemAllocatorInit_spec (hpool : Lawful pool oom Live) (hlive : Live s ∅)
    (hreg : Region (base, size, quantum)) (memory : ℕ → Segment × Node) :
    Ensures oom (vmemAllocatorInit pool s memory base size quantum) fun r =>
      range r.1 = (base, size, quantum) ∧ Ready Live r.2 r.1 [⟨false, base, size⟩] := by
  have hword : size < word := hreg.span
  let a₀ : Allocator :=
    { base, size, quantum
      bitmap := 0
      freelists := fun _ => []
      segmentsList := []
      root := 0
      nodes := fun x => (memory x).2
      segments := fun x => (memory x).1 }
  have hempty : Views a₀ [] := by
    refine ⟨List.nodup_nil, by simp [a₀], by simp [a₀],
      ⟨[], DstructRbtreeRuns.holds_empty _ _, List.Pairwise.nil, by simp [a₀]⟩, by simp [a₀],
      fun _ => List.nodup_nil, by simp [a₀]⟩
  simp only [vmemAllocatorInit, vmemAddSegment]
  refine (newSegment_spec hpool hlive a₀ _).bind ?_
  rintro _ ⟨x, s₁, rfl, -, hreal, hlive₁⟩
  let a' : Allocator :=
    { a₀ with
      segmentsList := [x]
      nodes := Function.update a₀.nodes x ⟨0, 0, 0⟩
      segments := Function.update a₀.segments x ⟨false, base, size⟩ }
  have hself : a'.segments x = ⟨false, base, size⟩ := Function.update_self ..
  have hviews : Views a' [x] := by
    refine hempty.relist rfl rfl rfl (by simp [a₀]) (by simp [a', a₀])
      (List.nodup_singleton x) ?_ ?_
    · simpa [a'] using hreal
    · intro y hy
      rw [List.mem_singleton.1 hy, hself]
      exact hword
  have hheld : Held Live s₁ a' x (base, size, quantum) [] ⟨false, base, size⟩ [] := by
    refine ⟨[], [], ⟨hviews, rfl, ?_⟩, rfl, hself, rfl, rfl⟩
    convert hlive₁ using 1
    ext y
    simp [a']
  obtain ⟨hwhole, hrange⟩ := hheld.release rfl (a'.nodes x)
  have hsame : a'.setNode x (a'.nodes x) = a' := by
    simp [Allocator.setNode]
  rw [hsame] at hwhole hrange
  refine ⟨hrange, hwhole, hrange ▸ hreg, ⟨rfl, rfl⟩, ?_⟩
  intro g hg
  rw [List.mem_singleton.1 hg]
  exact hreg.dvd

end Init

end MemVmemCalls
