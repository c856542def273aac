import EvalynKernel.MemVmemRelease
import EvalynKernel.MemVmemSearch

/-! # An allocation and its free

The sequence of the segments is determined by the allocated ones: the free segments are the
gaps between them. So a free that takes out the segment of an allocation restores the
sequence, and two such frees commute. It does not take it out in two cases: an allocation
that ends with the word, and one with a tail of less than a quantum after it. -/
namespace MemVmemIdentity

open MachineWords IntervalTilings MemVmem MemVmemOperations MemVmemPartition MemVmemCalls
open MemVmemReach MemVmemSearch MemVmemRelease MemVmemRuns

variable {σ : Type} {pool : SegmentAllocator σ} {oom : Fault → Prop} {Live : σ → Set ℕ → Prop}
  {s s' : σ} {a a' : Allocator} {gs gs' A B : List Segment} {g h : Segment} {R : ℕ × ℕ × ℕ}
  {lo hi : ℕ}

section Canonical

def gap (lo hi : ℕ) : List Segment := if lo < hi then [⟨false, lo, hi - lo⟩] else []

def fill (hi : ℕ) : ℕ → List Segment → List Segment
  | lo, [] => gap lo hi
  | lo, g :: gs => gap lo g.base ++ g :: fill hi (g.base + g.size) gs

theorem gap_self : gap lo lo = [] := if_neg (lt_irrefl lo)

theorem gap_segment (hg : g.allocated = false) (hpos : 0 < g.size) :
    gap g.base (g.base + g.size) = [g] := by
  obtain ⟨b, base, size⟩ := g
  dsimp only at hg hpos ⊢
  rw [gap, if_pos (by omega), hg, Nat.add_sub_cancel_left]

theorem tiles_eq_fill (ht : Tiles Segment.base Segment.size lo hi gs) (hs : Separated gs)
    (hpos : ∀ g ∈ gs, g.allocated = false → 0 < g.size) : gs = fill hi lo (used gs) := by
  induction gs generalizing lo with
  | nil =>
    obtain rfl : lo = hi := ht
    exact gap_self.symm
  | cons g t ih =>
    obtain ⟨rfl, ht⟩ := ht
    have hrest := ih ht hs.tail fun k hk => hpos k (List.mem_cons_of_mem g hk)
    cases hg : g.allocated with
    | true => rw [used_cons_alloc hg, fill, gap_self, List.nil_append, ← hrest]
    | false =>
      rw [used_cons_free hg]
      have hgap := gap_segment hg (hpos g List.mem_cons_self hg)
      cases t with
      | nil =>
        obtain rfl : g.base + g.size = hi := ht
        exact hgap.symm
      | cons u t =>
        obtain ⟨hbase, ht⟩ := ht
        have hu : u.allocated = true := by
          have := (List.isChain_cons_cons.1 hs).1
          simpa [hg] using this
        rw [used_cons_alloc hu, fill] at hrest ⊢
        rw [hbase, gap_self, List.nil_append] at hrest
        rw [hbase, hgap, List.singleton_append, ← hrest]

theorem Partition.eq_of_used (h : Partition R gs) (h' : Partition R gs')
    (hused : used gs = used gs') : gs = gs' := by
  rw [tiles_eq_fill h.tiles h.separated h.positive, hused,
    ← tiles_eq_fill h'.tiles h'.separated h'.positive]

end Canonical

section Exact

variable {x n : ℕ}

theorem freeSegment_whole (hpool : Lawful pool oom Live) (h : Sound Live s a gs)
    (hx : x ∈ a.segmentsList) (halloc : (a.segments x).allocated = true)
    (hpos : 0 < (a.segments x).size) (hw : (a.segments x).base + (a.segments x).size < word) :
    ∃ r, freeSegment pool s a x (a.segments x).base
      ((a.segments x).base + (a.segments x).size) = .ok r := by
  obtain ⟨y, t, as, bs, hok, hf, hgs⟩ := h.whole.detachTree hx halloc
  have hheld : Held Live s (a.setTree t) x (range a) (as.map a.segments)
    ⟨(a.segments x).allocated, (a.segments x).base, (a.segments x).size⟩
    (bs.map a.segments) := ⟨as, bs, hf, rfl, rfl, rfl, rfl⟩
  have htiles := h.partition.tiles
  rw [hgs] at htiles
  have hone : Tiles Segment.base Segment.size (a.segments x).base
      ((a.segments x).base + (a.segments x).size)
      [⟨false, (a.segments x).base, (a.segments x).size⟩] := ⟨rfl, rfl⟩
  have htiles := htiles.replace hone
  rw [List.append_assoc, List.singleton_append] at htiles
  obtain ⟨s₂, a₂, A', k, B', k', hok₂, -⟩ := freeJoin_spec
    (g := ⟨false, (a.segments x).base, (a.segments x).size⟩) hpool hheld rfl h.region htiles hpos
    fun m hm hfree => h.partition.positive m (by rw [hgs]; simp [hm]) hfree
  have hleft : freeSplitLeft pool s (a.setTree t) x (a.segments x).base = .ok (a.setTree t, s) :=
    if_neg (lt_irrefl _)
  have hright : freeSplitRight pool s (a.setTree t) x
      (wadd (a.segments x).base (a.segments x).size) ((a.segments x).base + (a.segments x).size) =
      .ok (a.setTree t, s) := by
    rw [wadd_of_lt hw]
    exact if_neg (lt_irrefl _)
  refine ⟨(a₂, s₂), ?_⟩
  simp only [freeSegment, hok, ok_bind, hleft, hright, hok₂]

theorem vmemFree_segment (hpool : Lawful pool oom Live) (h : Sound Live s a gs)
    (hpos : AllPositive gs) (hg : g ∈ gs) (halloc : g.allocated = true)
    (hw : g.base + g.size < word) (hn : alignUp n a.quantum = g.size) :
    ∃ a' s' gs', vmemFree pool s a g.base n = .ok (a', s') ∧ range a' = range a ∧
      Sound Live s' a' gs' ∧ AllPositive gs' ∧ used gs' = (used gs).erase g := by
  have hgpos := hpos g hg
  have hdvd : a.quantum ∣ g.base := h.partition.aligned g hg
  have hsize : a.quantum ∣ g.size := hn ▸ (h.ready.alignUp_facts n).1
  have hbase : alignUp g.base a.quantum = g.base := h.ready.alignUp_eq (by omega) hdvd
  have hcovg : Covers Segment.base Segment.size g g.base := ⟨le_rfl, by omega⟩
  obtain ⟨o, hfind, hsome, hnone⟩ := vmemFindSegment_spec h.ready (show g.base < word by omega)
  cases o with
  | none => exact (hnone rfl hpos ⟨g, hg, halloc, hcovg⟩).elim
  | some x =>
    obtain ⟨hx, -, hcov⟩ := hsome x rfl
    obtain rfl : a.segments x = g :=
      h.partition.tiles.eq_of_covers (h.ready.segment hx) hg hcov hcovg
    obtain ⟨r, hok⟩ := freeSegment_whole hpool h hx halloc hgpos hw
    obtain ⟨hrange, gs', hreleased, hsound⟩ :=
      (freeSegment_spec hpool h hx halloc hcov (by omega) hw
      hdvd (Nat.dvd_add hdvd hsize)).value hok
    rw [show goal (a.segments x) _ = _ from if_pos hw] at hreleased
    refine ⟨r.1, r.2, gs', ?_, hrange, hsound, hpos.release hreleased (by omega), ?_⟩
    · obtain ⟨k, hk⟩ : ∃ k, a.segmentsList.length = k + 1 :=
        Nat.exists_eq_succ_of_ne_zero (List.length_pos_of_mem hx).ne'
      rw [vmemFree, hn, hbase, if_neg hgpos.ne', wadd_of_lt hw, hk,
        freeLoop_found (by omega) hfind halloc, hok, ok_bind, wadd_of_lt hw]
      exact freeLoop_done (Nat.min_self _).ge
    · obtain ⟨A, k, B, rfl, hka, hkc, -, hused⟩ := released_used hreleased
      obtain rfl : k = a.segments x := h.partition.tiles.eq_of_covers (by simp) hg hkc hcovg
      have hnot : a.segments x ∉ used A := fun hmem => by
        have hA := (tiles_middle.1 h.partition.tiles).1
        have := (hA.bounds (List.mem_of_mem_filter hmem)).2
        omega
      have hbelow : below (a.segments x) (a.segments x).base = [] := if_neg (lt_irrefl _)
      have habove : above (a.segments x) ((a.segments x).base + (a.segments x).size) = [] :=
        if_neg (lt_irrefl _)
      rw [hused, hbelow, habove, used_append, used_cons_alloc halloc,
        List.erase_append_right _ hnot, List.erase_cons_head, List.append_nil, List.append_nil]

end Exact

section Allocation

variable {n r w addr size : ℕ}

/-- The segment of an allocation of `n` bytes at `r`, which has `w` bytes. -/
structure Taken (R : ℕ × ℕ × ℕ) (n r w : ℕ) (gs gs' : List Segment) : Prop where
  mem : ⟨true, r, w⟩ ∈ gs'
  used_eq : used gs = (used gs').erase ⟨true, r, w⟩
  dvd : R.2.2 ∣ r
  le : n ≤ w
  exact_iff : w = n ↔ AllocatedAt gs (r + n) ∨ R.1 + R.2.1 ≤ r + n ∨ r + n + R.2.2 ≤ R.1 + R.2.1
  tail : w ≠ n → r + w = R.1 + R.2.1 ∧ w < n + R.2.2

def grant (q n : ℕ) (g : Segment) (r : ℕ) : ℕ :=
  if g.size - (r - g.base) ≠ n ∧ q ≤ g.size - (r - g.base) - n then n else g.size - (r - g.base)

theorem used_allocate (q n : ℕ) (g : Segment) (r : ℕ) :
    used (allocate q n g r) = [⟨true, r, grant q n g r⟩] := by
  have hlead : used (lead g r) = [] := by
    unfold lead
    split <;> rfl
  rw [allocate, used_append, hlead, List.nil_append, taken, grant]
  split <;> rfl

theorem free_end (h : Partition R (A ++ g :: B)) (hg : g.allocated = false) :
    g.base + g.size = R.1 + R.2.1 ∨
      ∃ k ∈ B, k.allocated = true ∧ k.base = g.base + g.size := by
  have hB := (tiles_middle.1 h.tiles).2
  cases B with
  | nil => exact .inl hB
  | cons k B =>
    have hk := (separated_around h.separated hg).2.2.2 k rfl
    exact .inr ⟨k, List.mem_cons_self, hk, hB.1⟩

theorem taken_of_placed (h : Partition R (A ++ g :: B)) (hpos : AllPositive (A ++ g :: B))
    (hp : Placed R n addr g r) (hq : 0 < R.2.2) (hn : R.2.2 ∣ n) (hn0 : 0 < n) :
    Taken R n r (grant R.2.2 n g r) (A ++ g :: B) (A ++ allocate R.2.2 n g r ++ B) := by
  have hle := hp.le
  have hfits := hp.fits
  have hbounds := h.tiles.bounds (show g ∈ A ++ g :: B by simp)
  have hused := used_allocate R.2.2 n g r
  have hmem : ⟨true, r, grant R.2.2 n g r⟩ ∈ allocate R.2.2 n g r :=
    List.mem_of_mem_filter (hused ▸ List.mem_singleton_self _)
  have hend := free_end h hp.free
  -- what lies after the allocation in its segment
  have hfree : r + n < g.base + g.size → ¬ AllocatedAt (A ++ g :: B) (r + n) := by
    rintro hlt ⟨k, hk, ha, hcov⟩
    obtain rfl := h.tiles.eq_of_covers hk (show g ∈ A ++ g :: B by simp) hcov ⟨by omega, hlt⟩
    rw [hp.free] at ha
    cases ha
  have haligned : r + n < g.base + g.size → g.base + g.size < r + n + R.2.2 →
      g.base + g.size = R.1 + R.2.1 := by
    intro h1 h2
    refine hend.resolve_right ?_
    rintro ⟨k, hk, -, hbase⟩
    have hdk : R.2.2 ∣ g.base + g.size := hbase ▸ h.aligned k (by simp [hk])
    have := Nat.le_of_dvd (by omega) (Nat.dvd_sub hdk (Nat.dvd_add hp.dvd hn))
    omega
  have htight : g.base + g.size = r + n →
      AllocatedAt (A ++ g :: B) (r + n) ∨ R.1 + R.2.1 ≤ r + n := by
    intro heq
    rcases hend with hend | ⟨k, hk, ha, hbase⟩
    · exact .inr (by omega)
    · have hkpos := hpos k (by simp [hk])
      exact .inl ⟨k, by simp [hk], ha, by omega, by omega⟩
  clear hend
  have hnot : (⟨true, r, grant R.2.2 n g r⟩ : Segment) ∉ used A := fun hmemA => by
    have hb := ((tiles_middle.1 h.tiles).1.bounds (List.mem_of_mem_filter hmemA)).2
    have hp' := hpos _ (List.mem_append_left _ (List.mem_of_mem_filter hmemA))
    dsimp only at hb hp'
    omega
  refine ⟨by simp [hmem], ?_, hp.dvd, ?_, ?_, ?_⟩
  · rw [used_append, used_append, used_append, used_cons_free hp.free, hused, List.append_assoc,
      List.erase_append_right _ hnot, List.singleton_append, List.erase_cons_head]
  · unfold grant
    split <;> omega
  · unfold grant
    split
    · next hsplit =>
      refine ⟨fun _ => .inr (.inr ?_), fun _ => rfl⟩
      omega
    · next hwhole =>
      constructor
      · intro heq
        rcases htight (by omega) with ha | hle
        · exact .inl ha
        · exact .inr (.inl hle)
      · intro hcond
        by_contra hne
        have h1 : r + n < g.base + g.size := by omega
        rcases hcond with hcond | hcond | hcond
        · exact hfree h1 hcond
        · omega
        · omega
  · unfold grant
    split
    · exact fun hne => (hne rfl).elim
    · next hwhole =>
      intro hne
      exact ⟨by omega, by omega⟩

theorem alloc_taken (hpool : Lawful pool oom Live) (h : Reach pool Live R (· ≠ 0) s a)
    (haw : addr < word) (hn : alignUp size R.2.2 ≠ 0)
    (hok : vmemAlloc pool s a size addr = .ok (r, a', s')) (hr : r ≠ 0) :
    range a' = R ∧ Sound Live s' a' (segs a') ∧ AllPositive (segs a') ∧
      Partition R (segs a) ∧ ∃ w, Taken R (alignUp size R.2.2) r w (segs a) (segs a') := by
  obtain ⟨gs, hk⟩ := reach_kept hpool h
  rcases hk.vmemAlloc hpool haw hok with heq | ⟨A, g, B, rfl, hplaced, hrange, hwhole⟩
  · exact (hr (congrArg Prod.fst heq)).elim
  have hdvd : R.2.2 ∣ alignUp size R.2.2 := by
    obtain rfl := hk.extent
    exact (hk.ready.alignUp_facts size).1
  have hq : 0 < R.2.2 := by
    obtain rfl := hk.extent
    exact hk.ready.region.pos
  have hpos : 0 < R.2.1 := by
    rw [Nat.pos_iff_ne_zero]
    intro h0
    obtain ⟨b, hgs⟩ := hk.empty h0
    have hg : g ∈ A ++ g :: B := by simp
    rw [hgs, List.mem_singleton] at hg
    have := hplaced.fits
    rw [hg] at this
    dsimp only at this
    omega
  have hk' := hk.allocate hplaced hdvd hn hrange hwhole
  rw [hk.ready.whole.segs, hwhole.segs]
  exact ⟨hrange, hk'.sound hpos, hk'.positive (fun _ h0 => h0) hpos, hk.partition hpos, _,
    taken_of_placed (hk.partition hpos) (hk.positive (fun _ h0 => h0) hpos) hplaced hq hdvd
      (Nat.pos_of_ne_zero hn)⟩

theorem Taken.eq_of_dvd (ht : Taken R n r w gs gs') (htop : R.2.2 ∣ R.1 + R.2.1)
    (hn : R.2.2 ∣ n) : w = n := by
  by_contra hne
  obtain ⟨hend, hlt⟩ := ht.tail hne
  have hle := ht.le
  have hd : R.2.2 ∣ r + w - (r + n) := Nat.dvd_sub (hend ▸ htop) (Nat.dvd_add ht.dvd hn)
  have := Nat.le_of_dvd (by omega) hd
  omega

theorem Taken.ne (ht : Taken R n r w gs gs') : gs' ≠ gs := by
  rintro rfl
  have hmem : ⟨true, r, w⟩ ∈ used gs' := List.mem_filter.2 ⟨ht.mem, rfl⟩
  have hlen := congrArg List.length ht.used_eq
  rw [List.length_erase_of_mem hmem] at hlen
  have := List.length_pos_of_mem hmem
  omega

theorem Taken.restore (hpool : Lawful pool oom Live) (ht : Taken R n r n (segs a) (segs a'))
    (hrange : range a' = R) (h : Sound Live s' a' (segs a')) (hpos : AllPositive (segs a'))
    (hold : Partition R (segs a)) (hw : r + n < word) (hn : alignUp size R.2.2 = n) :
    ∃ a'' s'', vmemFree pool s' a' r size = .ok (a'', s'') ∧ segs a'' = segs a := by
  obtain rfl := hrange
  obtain ⟨a'', s'', gs'', hok, hrange, hsound, -, hused⟩ :=
    vmemFree_segment hpool h hpos ht.mem rfl hw hn
  refine ⟨a'', s'', hok, ?_⟩
  rw [hsound.whole.segs]
  have hpart : Partition (range a') gs'' := hrange ▸ hsound.partition
  exact Partition.eq_of_used hpart hold (hused.trans ht.used_eq.symm)

end Allocation

section Theorems

variable {n r w addr size : ℕ} {g₁ g₂ : Segment} {n₁ n₂ : ℕ}

theorem free_two (hpool : Lawful pool oom Live) (h : Sound Live s a gs) (hpos : AllPositive gs)
    (htop : a.base + a.size < word) (h₁ : g₁ ∈ used gs) (h₂ : g₂ ∈ used gs) (hne : g₁ ≠ g₂)
    (hn₁ : alignUp n₁ a.quantum = g₁.size) (hn₂ : alignUp n₂ a.quantum = g₂.size) :
    ∃ a₁ s₁ a₂ s₂, vmemFree pool s a g₁.base n₁ = .ok (a₁, s₁) ∧
      vmemFree pool s₁ a₁ g₂.base n₂ = .ok (a₂, s₂) ∧ Partition (range a) (segs a₂) ∧
      used (segs a₂) = ((used gs).erase g₁).erase g₂ := by
  obtain ⟨hm₁, ha₁⟩ := List.mem_filter.1 h₁
  have hb₁ := (h.partition.tiles.bounds hm₁).2
  obtain ⟨a₁, s₁, gs₁, hok₁, hrange₁, hsound₁, hpos₁, hused₁⟩ :=
    vmemFree_segment hpool h hpos hm₁ ha₁ (lt_of_le_of_lt hb₁ htop) hn₁
  have hstill : g₂ ∈ used gs₁ := hused₁ ▸ (List.mem_erase_of_ne hne.symm).2 h₂
  obtain ⟨hm₂, ha₂⟩ := List.mem_filter.1 hstill
  have hb₂ := (h.partition.tiles.bounds (List.mem_of_mem_filter h₂)).2
  have hq : a₁.quantum = a.quantum := congrArg (fun R => R.2.2) hrange₁
  obtain ⟨a₂, s₂, gs₂, hok₂, hrange₂, hsound₂, -, hused₂⟩ :=
    vmemFree_segment hpool hsound₁ hpos₁ hm₂ ha₂ (lt_of_le_of_lt hb₂ htop) (hq ▸ hn₂)
  refine ⟨a₁, s₁, a₂, s₂, hok₁, hok₂, ?_, ?_⟩
  · rw [hsound₂.whole.segs]
    exact (hrange₂.trans hrange₁) ▸ hsound₂.partition
  · rw [hsound₂.whole.segs, hused₂, hused₁]

/-- When the sizes of the allocations are not zero and the range consists of whole quanta
below the end of the word, a free undoes the allocation, and frees of allocated segments
commute. -/
theorem vmem_alloc_free_identity (hpool : Lawful pool oom Live)
    (h : Reach pool Live R (· ≠ 0) s a) (hsize : R.2.2 ∣ R.2.1) (htop : R.1 + R.2.1 < word) :
    (∀ size addr r a' s', addr < word → alignUp size R.2.2 ≠ 0 →
      vmemAlloc pool s a size addr = .ok (r, a', s') → r ≠ 0 →
      ∃ a'' s'', vmemFree pool s' a' r size = .ok (a'', s'') ∧ segs a'' = segs a) ∧
    ∀ g₁ ∈ segs a, ∀ g₂ ∈ segs a, g₁.allocated = true → g₂.allocated = true → g₁ ≠ g₂ →
      ∀ n₁ n₂, alignUp n₁ R.2.2 = g₁.size → alignUp n₂ R.2.2 = g₂.size →
      ∃ a₁ s₁ a₂ s₂ b₁ t₁ b₂ t₂,
        vmemFree pool s a g₁.base n₁ = .ok (a₁, s₁) ∧
        vmemFree pool s₁ a₁ g₂.base n₂ = .ok (a₂, s₂) ∧
        vmemFree pool s a g₂.base n₂ = .ok (b₁, t₁) ∧
        vmemFree pool t₁ b₁ g₁.base n₁ = .ok (b₂, t₂) ∧ segs a₂ = segs b₂ := by
  obtain ⟨gs, hk⟩ := reach_kept hpool h
  obtain rfl := hk.extent
  constructor
  · intro size addr r a' s' haw hn hok hr
    obtain ⟨hrange, hsound, hpos, hold, w, ht⟩ := alloc_taken hpool h haw hn hok hr
    have hn' : a.quantum ∣ alignUp size a.quantum := (hk.ready.alignUp_facts size).1
    obtain rfl := ht.eq_of_dvd (Nat.dvd_add hk.ready.region.dvd hsize) hn'
    have hb := (hsound.partition.tiles.bounds ht.mem).2
    rw [hrange] at hb
    exact ht.restore hpool hrange hsound hpos hold (lt_of_le_of_lt hb htop) rfl
  · intro g₁ hm₁ g₂ hm₂ ha₁ ha₂ hne n₁ n₂ hn₁ hn₂
    have hsegs : segs a = gs := hk.ready.whole.segs
    have hpos : 0 < a.size := by
      rw [Nat.pos_iff_ne_zero]
      intro h0
      obtain ⟨b, hgs⟩ := hk.empty h0
      rw [hsegs, hgs, List.mem_singleton] at hm₁ hm₂
      exact hne (hm₁.trans hm₂.symm)
    have hsound := hk.sound hpos
    have hpositive := hk.positive (fun _ h0 => h0) hpos
    rw [hsegs] at hm₁ hm₂
    have hu₁ : g₁ ∈ used gs := List.mem_filter.2 ⟨hm₁, ha₁⟩
    have hu₂ : g₂ ∈ used gs := List.mem_filter.2 ⟨hm₂, ha₂⟩
    obtain ⟨a₁, s₁, a₂, s₂, hok₁, hok₂, hpart, hused⟩ :=
      free_two hpool hsound hpositive htop hu₁ hu₂ hne hn₁ hn₂
    obtain ⟨b₁, t₁, b₂, t₂, hok₃, hok₄, hpart', hused'⟩ :=
      free_two hpool hsound hpositive htop hu₂ hu₁ hne.symm hn₂ hn₁
    refine ⟨a₁, s₁, a₂, s₂, b₁, t₁, b₂, t₂, hok₁, hok₂, hok₃, hok₄, ?_⟩
    refine Partition.eq_of_used hpart hpart' ?_
    rw [hused, hused', List.erase_comm]

/-- An allocation after some calls, and a free of its first `part` bytes: where it was, and
the segments before and after. -/
def trial (R : ℕ × ℕ × ℕ) (calls : List Call) (size addr part : ℕ) :
    Exec (ℕ × List Segment × List Segment) := do
  let x ← session R calls
  let y ← vmemAlloc evenAddresses x.2 x.1 size addr
  let z ← vmemFree evenAddresses y.2.2 y.2.1 y.1 part
  return (y.1, segs x.1, segs z.1)

theorem trial_reach (calls : List Call) (legal : ℕ → Prop) (size addr part r : ℕ)
    (gs gs' : List Segment) (hreg : Region R)
    (hlegal : ∀ c ∈ calls, c.Legal R.2.2 legal)
    (heval : (trial R calls size addr part).toOption = some (r, gs, gs')) :
    ∃ a s a' s' a'' s'', Reach evenAddresses EvenLive R legal s a ∧ segs a = gs ∧
      vmemAlloc evenAddresses s a size addr = .ok (r, a', s') ∧
      vmemFree evenAddresses s' a' r part = .ok (a'', s'') ∧ segs a'' = gs' := by
  cases hrun : trial R calls size addr part with
  | error f => simp [hrun, Except.toOption] at heval
  | ok out =>
    obtain ⟨x, hsession, hrest⟩ := bind_ok hrun
    obtain ⟨y, halloc, hrest⟩ := bind_ok hrest
    obtain ⟨z, hfree, hrest⟩ := bind_ok hrest
    obtain rfl := Except.ok.inj hrest
    rw [hrun] at heval
    obtain ⟨rfl, rfl, rfl⟩ : y.1 = r ∧ segs x.1 = gs ∧ segs z.1 = gs' := by
      simpa [Except.toOption] using heval
    obtain ⟨a, s, hrun', hreach, -⟩ := session_reach calls legal (segs x.1) hreg hlegal (by
      rw [hsession]
      rfl)
    obtain rfl : (a, s) = x := Except.ok.inj (hrun'.symm.trans hsession)
    exact ⟨a, s, y.2.1, y.2.2, z.1, z.2, hreach, rfl, halloc, hfree, rfl⟩

theorem identity_second_page : ∃ a s a' s',
    segs a = [⟨false, 4096, 4096⟩, ⟨true, 8192, 4096⟩, ⟨false, 12288, 8192⟩] ∧
    vmemAlloc evenAddresses s a 8192 0 = .ok (12288, a', s') ∧
    ∃ a'' s'', vmemFree evenAddresses s' a' 12288 8192 = .ok (a'', s'') ∧ segs a'' = segs a := by
  obtain ⟨a, s, a', s', -, -, hreach, hsegs, halloc, -⟩ := trial_reach
    [.alloc 4096 8192] (· ≠ 0) 8192 0 8192 12288
    [⟨false, 4096, 4096⟩, ⟨true, 8192, 4096⟩, ⟨false, 12288, 8192⟩]
    [⟨false, 4096, 4096⟩, ⟨true, 8192, 4096⟩, ⟨false, 12288, 8192⟩]
    fourPages (by decide) (by decide +kernel)
  exact ⟨a, s, a', s', hsegs, halloc,
    (vmem_alloc_free_identity evenAddresses_lawful hreach (by decide)
    (by decide)).1 8192 0 12288 a' s' (by decide) (by decide) halloc (by decide)⟩

/-- An allocation of size zero hides the next one at its address from a free. -/
theorem zero_size_hides : ∃ a s a' s' a'' s'',
    Reach evenAddresses EvenLive (4096, 16384, 4096) (fun _ => True) s a ∧
    vmemAlloc evenAddresses s a 4096 0 = .ok (4096, a', s') ∧
    vmemFree evenAddresses s' a' 4096 4096 = .ok (a'', s'') ∧ segs a'' ≠ segs a := by
  obtain ⟨a, s, a', s', a'', s'', hreach, hsegs, halloc, hfree, hsegs'⟩ :=
    trial_reach [.alloc 0 0] (fun _ => True) 4096 0 4096 4096
      [⟨true, 4096, 0⟩, ⟨false, 4096, 16384⟩]
      [⟨true, 4096, 0⟩, ⟨true, 4096, 4096⟩, ⟨false, 8192, 12288⟩]
      fourPages (by decide) (by decide +kernel)
  refine ⟨a, s, a', s', a'', s'', hreach, halloc, hfree, ?_⟩
  rw [hsegs, hsegs']
  decide

/-- What a free of an allocation of `size` bytes at `r` is to do: restore the segments of
`a`, or leave the rest when only a first part is freed. -/
def Undone (pool : SegmentAllocator σ) (oom : Fault → Prop) (q size r : ℕ) (a a' : Allocator)
    (s' : σ) : Prop :=
  (∃ a'' s'', vmemFree pool s' a' r size = .ok (a'', s'') ∧ segs a'' = segs a) ∧
  ∀ part, 0 < alignUp part q → alignUp part q < alignUp size q →
    Ensures oom (vmemFree pool s' a' r part) fun x =>
      ∀ v, r + alignUp part q ≤ v → v < r + alignUp size q → AllocatedAt (segs x.1) v

theorem endsBefore_of_mem (ht : Tiles Segment.base Segment.size lo hi gs) (hg : g ∈ gs)
    (hpos : 0 < g.size) (hw : g.base + g.size < word) (he : e ≤ g.base + g.size) :
    EndsBefore e gs := by
  intro k hk _ hend
  by_contra hlt
  have hcovk : Covers Segment.base Segment.size k (max k.base g.base) :=
    ⟨le_max_left _ _, max_lt (by omega) (by omega)⟩
  have hcovg : Covers Segment.base Segment.size g (max k.base g.base) :=
    ⟨le_max_right _ _, max_lt (by omega) (by omega)⟩
  rw [ht.eq_of_covers hk hg hcovk hcovg] at hend
  omega

theorem free_front (hpool : Lawful pool oom Live) (h : Sound Live s a gs) (hpos : AllPositive gs)
    (hg : g ∈ gs) (ha : g.allocated = true) (hw : g.base + g.size < word)
    (hpart : 0 < alignUp part a.quantum) (hle : alignUp part a.quantum ≤ g.size) :
    Ensures oom (vmemFree pool s a g.base part) fun x =>
      ∀ v, g.base + alignUp part a.quantum ≤ v → v < g.base + g.size →
        AllocatedAt (segs x.1) v := by
  have hdvd : a.quantum ∣ g.base := h.partition.aligned g hg
  have hua : alignUp g.base a.quantum = g.base := h.ready.alignUp_eq (by omega) hdvd
  have hdp : a.quantum ∣ alignUp part a.quantum := (h.ready.alignUp_facts part).1
  refine (vmemFree_spec hpool h g.base part).imp fun x hx v h1 h2 => ?_
  obtain ⟨-, gs', hrounds, hsound⟩ := hx
  rw [hua, wadd_of_lt (by omega)] at hrounds
  obtain ⟨stop, -, hstop, -, hafter⟩ := rounds_allocatedAt
    (hrounds.resolve_left fun hz => hpart.ne' hz.1) h.partition hpos h.region.top
    (endsBefore_of_mem h.partition.tiles hg (hpos g hg) hw (by omega)) (by omega)
    (Nat.dvd_add hdvd hdp) (.inl hdvd) (Nat.le_add_right _ _)
  rw [hsound.whole.segs]
  exact (hafter v).2 ⟨⟨g, hg, ha, by omega, h2⟩, by omega⟩

/-- In a range that may reach the end of the word and may end in the middle of a quantum, a
free undoes an allocation just when the allocation ends below the end of the word and has not
swallowed the end of the range. -/
theorem vmem_identity_iff (hpool : Lawful pool oom Live) (h : Reach pool Live R (· ≠ 0) s a)
    (haw : addr < word) (hn : alignUp size R.2.2 ≠ 0)
    (hok : vmemAlloc pool s a size addr = .ok (r, a', s')) (hr : r ≠ 0) :
    Undone pool oom R.2.2 size r a a' s' ↔ r + alignUp size R.2.2 < word ∧
      (AllocatedAt (segs a) (r + alignUp size R.2.2) ∨ R.1 + R.2.1 ≤ r + alignUp size R.2.2 ∨
        r + alignUp size R.2.2 + R.2.2 ≤ R.1 + R.2.1) := by
  obtain ⟨rfl, hsound, hpos, hold, w, ht⟩ := alloc_taken hpool h haw hn hok hr
  have hdn : a'.quantum ∣ alignUp size a'.quantum := (hsound.ready.alignUp_facts size).1
  have hle : alignUp size a'.quantum ≤ w := ht.le
  have htop : a'.base + a'.size ≤ word := hsound.region.top
  have hb : r + w ≤ a'.base + a'.size := (hsound.partition.tiles.bounds ht.mem).2
  have hpositive : 0 < alignUp size a'.quantum := Nat.pos_of_ne_zero hn
  rw [← ht.exact_iff]
  constructor
  · rintro ⟨⟨a'', s'', hfree, hsegs⟩, -⟩
    have hw : r + alignUp size a'.quantum < word := by
      by_contra hge
      have hua : alignUp r a'.quantum = r := hsound.ready.alignUp_eq (by omega) ht.dvd
      have hend : r + alignUp size a'.quantum = word := by omega
      have hsame : vmemFree pool s' a' r size = .ok (a', s') := by
        rw [vmemFree, if_neg hpositive.ne', hua, wadd, hend, Nat.mod_self]
        exact freeLoop_done (Nat.zero_le r)
      obtain rfl : a' = a'' := congrArg Prod.fst (Except.ok.inj (hsame.symm.trans hfree))
      exact ht.ne hsegs
    refine ⟨hw, ?_⟩
    by_contra hne
    have hbelow : r + w < word := by
      refine lt_of_le_of_ne (hb.trans htop) fun heq => hne (ht.eq_of_dvd ?_ hdn)
      rw [← (ht.tail hne).1, heq]
      exact hsound.region.dvd_word
    have hrest := (free_front hpool hsound hpos ht.mem rfl hbelow hpositive hle).value hfree
      (r + alignUp size a'.quantum) le_rfl
      (Nat.add_lt_add_left (lt_of_le_of_ne hle (Ne.symm hne)) r)
    rw [hsegs] at hrest
    exact hne (ht.exact_iff.2 (.inl hrest))
  · rintro ⟨hw, rfl⟩
    refine ⟨ht.restore hpool rfl hsound hpos hold hw rfl, fun part h0 hlt => ?_⟩
    exact free_front (g := ⟨true, r, alignUp size a'.quantum⟩) hpool hsound hpos ht.mem rfl hw h0
      hlt.le

/-- A page in the middle of the kernel's range. -/
theorem kernel_page_undone : ∃ a s a' s',
    Reach evenAddresses EvenLive kernelRange (· ≠ 0) s a ∧
    vmemAlloc evenAddresses s a 8192 0xffff900000000000 = .ok (0xffff900000000000, a', s') ∧
    Undone evenAddresses (fun _ => False) 4096 8192 0xffff900000000000 a a' s' := by
  obtain ⟨a, s, a', s', -, -, hreach, -, halloc, -⟩ := trial_reach
    [] (· ≠ 0) 8192 0xffff900000000000 8192 0xffff900000000000
    [⟨false, 0xffff800000000000, 0x800000000000⟩] [⟨false, 0xffff800000000000, 0x800000000000⟩]
    kernel_region (by decide) (by decide +kernel)
  exact ⟨a, s, a', s', hreach, halloc, (vmem_identity_iff evenAddresses_lawful hreach (by decide)
    (by decide) halloc (by decide)).2 ⟨by decide, .inr (.inr (by decide))⟩⟩

def processRange : ℕ × ℕ × ℕ := (4096, 2 ^ 47 - 1 - 4096, 4096)

theorem process_region : Region processRange :=
  ⟨⟨12, by decide, by decide⟩, by decide, by decide, by decide, by decide⟩

/-- The last page of the kernel stays allocated, a free of the first of its last two pages
takes both, and the last page of a process leaves a tail allocated. -/
theorem last_page_not_undone :
    (∃ a s a' s' a'' s'', Reach evenAddresses EvenLive kernelRange (· ≠ 0) s a ∧
      vmemAlloc evenAddresses s a 4096 0xfffffffffffff000 = .ok (0xfffffffffffff000, a', s') ∧
      vmemFree evenAddresses s' a' 0xfffffffffffff000 4096 = .ok (a'', s'') ∧ segs a'' ≠ segs a) ∧
    (∃ a s a' s' a'' s'', Reach evenAddresses EvenLive kernelRange (· ≠ 0) s a ∧
      vmemAlloc evenAddresses s a 8192 0xffffffffffffe000 = .ok (0xffffffffffffe000, a', s') ∧
      vmemFree evenAddresses s' a' 0xffffffffffffe000 4096 = .ok (a'', s'') ∧
      ¬ AllocatedAt (segs a'') 0xfffffffffffff000) ∧
    ∃ a s a' s' a'' s'', Reach evenAddresses EvenLive processRange (· ≠ 0) s a ∧
      vmemAlloc evenAddresses s a 4096 0x7fffffffe000 = .ok (0x7fffffffe000, a', s') ∧
      vmemFree evenAddresses s' a' 0x7fffffffe000 4096 = .ok (a'', s'') ∧ segs a'' ≠ segs a := by
  refine ⟨?_, ?_, ?_⟩
  · obtain ⟨a, s, a', s', a'', s'', hreach, hsegs, halloc, hfree, hsegs'⟩ := trial_reach
      [] (· ≠ 0) 4096 0xfffffffffffff000 4096 0xfffffffffffff000
      [⟨false, 0xffff800000000000, 0x800000000000⟩]
      [⟨false, 0xffff800000000000, 0x7ffffffff000⟩, ⟨true, 0xfffffffffffff000, 4096⟩]
      kernel_region (by decide) (by decide +kernel)
    exact ⟨a, s, a', s', a'', s'', hreach, halloc, hfree, by rw [hsegs, hsegs']; decide⟩
  · obtain ⟨a, s, a', s', a'', s'', hreach, hsegs, halloc, hfree, hsegs'⟩ := trial_reach
      [] (· ≠ 0) 8192 0xffffffffffffe000 4096 0xffffffffffffe000
      [⟨false, 0xffff800000000000, 0x800000000000⟩] [⟨false, 0xffff800000000000, 0x800000000000⟩]
      kernel_region (by decide) (by decide +kernel)
    exact ⟨a, s, a', s', a'', s'', hreach, halloc, hfree, by rw [hsegs']; simp [AllocatedAt]⟩
  · obtain ⟨a, s, a', s', a'', s'', hreach, hsegs, halloc, hfree, hsegs'⟩ := trial_reach
      [] (· ≠ 0) 4096 0x7fffffffe000 4096 0x7fffffffe000 [⟨false, 4096, 0x7fffffffefff⟩]
      [⟨false, 4096, 0x7fffffffe000⟩, ⟨true, 0x7ffffffff000, 4095⟩]
      process_region (by decide) (by decide +kernel)
    exact ⟨a, s, a', s', a'', s'', hreach, halloc, hfree, by rw [hsegs, hsegs']; decide⟩

end Theorems

end MemVmemIdentity
