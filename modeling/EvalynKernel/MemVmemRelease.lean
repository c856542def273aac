import EvalynKernel.MemVmemReach

/-! # What `vmem_free` frees

The loop starts at the first address of the range and stops at the first one that no
allocated segment covers: `vmem_find_segment_nolock` finds nothing there and the function
returns. So it frees the allocated addresses up to the first gap, and no others. -/
namespace MemVmemRelease

open MachineWords IntervalTilings MemVmem MemVmemOperations MemVmemPartition MemVmemCalls
open MemVmemReach MemVmemRuns

variable {σ : Type} {pool : SegmentAllocator σ} {oom : Fault → Prop} {Live : σ → Set ℕ → Prop}
  {s s' : σ} {a a' : Allocator} {gs gs' A B A' B' : List Segment} {g h k : Segment}
  {R : ℕ × ℕ × ℕ} {top e cur next v : ℕ}

def used (gs : List Segment) : List Segment := gs.filter (·.allocated)

theorem used_append : used (A ++ B) = used A ++ used B := List.filter_append ..

theorem used_cons_free (hg : g.allocated = false) : used (g :: A) = used A :=
  List.filter_cons_of_neg (by simp [hg])

theorem used_cons_alloc (hg : g.allocated = true) : used (g :: A) = g :: used A :=
  List.filter_cons_of_pos hg

theorem allocatedAt_iff : AllocatedAt gs v ↔ ∃ g ∈ used gs,
    Covers Segment.base Segment.size g v := by
  simp only [AllocatedAt, used, List.mem_filter, and_assoc]

theorem leftJoin_used (hj : LeftJoin A g A' h) : used A' = used A := by
  cases hj with
  | stay => rfl
  | join heq hp =>
    rw [heq, used_append, used_cons_free hp, show used [] = [] from rfl, List.append_nil]

theorem rightJoin_used (hj : RightJoin g B h B') : used B' = used B := by
  cases hj with
  | stay => rfl
  | join heq hn => rw [heq, used_cons_free hn]

theorem used_below : used (below g cur) = below g cur :=
  List.filter_eq_self.2 fun _ hp => (mem_below hp).1

theorem used_above : used (above g e) = above g e :=
  List.filter_eq_self.2 fun _ hp => (mem_above hp).1

theorem released_used (hr : Released cur e next gs gs') :
    ∃ A g B, gs = A ++ g :: B ∧ g.allocated = true ∧ Covers Segment.base Segment.size g cur ∧
      next = Nat.min (g.base + g.size) e ∧
      used gs' = used A ++ below g cur ++ above g e ++ used B := by
  obtain ⟨A, g, B, A', h, B', k, rfl, halloc, hcov, hnext, hleft, hright, rfl⟩ := hr
  have hflag : k.allocated = false := (rightJoin_mem hright).2.2.2.trans (leftJoin_mem hleft).2.2.2
  refine ⟨A, g, B, rfl, halloc, hcov, hnext, ?_⟩
  rw [used_append, used_cons_free hflag, leftJoin_used hleft, rightJoin_used hright, used_append,
    used_append, used_below, used_above, List.append_assoc (used A ++ below g cur)]

theorem allocatedAt_used_append (hC : used gs = C ++ D) :
    AllocatedAt gs v ↔ (∃ g ∈ C, Covers Segment.base Segment.size g v) ∨
      ∃ g ∈ D, Covers Segment.base Segment.size g v := by
  rw [allocatedAt_iff, hC]
  simp only [List.mem_append, or_and_right, exists_or]

theorem covers_below : (∃ p ∈ below g cur, Covers Segment.base Segment.size p v) ↔
    g.base ≤ v ∧ v < cur := by
  unfold below
  split
  · simp only [List.mem_singleton, exists_eq_left, Covers]
    omega
  · simp only [List.not_mem_nil, false_and, exists_false, false_iff]
    omega

theorem covers_above : (∃ p ∈ above g e, Covers Segment.base Segment.size p v) ↔
    e ≤ v ∧ v < g.base + g.size := by
  unfold above
  split
  · simp only [List.mem_singleton, exists_eq_left, Covers]
    omega
  · simp only [List.not_mem_nil, false_and, exists_false, false_iff]
    omega

theorem released_allocatedAt (hr : Released cur e next gs gs') (h : Partition R gs)
    (he : cur < e) :
    cur < next ∧ (∀ v, cur ≤ v → v < next → AllocatedAt gs v) ∧
      ∀ v, AllocatedAt gs' v ↔ AllocatedAt gs v ∧ ¬ (cur ≤ v ∧ v < next) := by
  obtain ⟨A, g, B, rfl, halloc, ⟨hlo, hhi⟩, hnext, hused⟩ := released_used hr
  have hmin1 : next ≤ g.base + g.size := hnext ▸ Nat.min_le_left _ _
  have hmin2 : next ≤ e := hnext ▸ Nat.min_le_right _ _
  have hcn : cur < next := hnext ▸ lt_min hhi he
  have hor : next = g.base + g.size ∨ next = e := by
    rcases Nat.le_total (g.base + g.size) e with hle | hle
    · exact .inl (hnext.trans (Nat.min_eq_left hle))
    · exact .inr (hnext.trans (Nat.min_eq_right hle))
  obtain ⟨hA, hB⟩ := tiles_middle.1 h.tiles
  have hold : ∀ v, AllocatedAt (A ++ g :: B) v ↔
      (∃ p ∈ used A, Covers Segment.base Segment.size p v) ∨
      Covers Segment.base Segment.size g v ∨
        ∃ p ∈ used B, Covers Segment.base Segment.size p v := by
    intro v
    rw [allocatedAt_used_append (C := used A) (D := g :: used B)
      (by rw [used_append, used_cons_alloc halloc])]
    simp only [List.mem_cons, exists_eq_or_imp]
  refine ⟨hcn, fun v h1 h2 => (hold v).2 (.inr (.inl ⟨by omega, by omega⟩)), fun v => ?_⟩
  have hleft : (∃ p ∈ used A, Covers Segment.base Segment.size p v) → v < g.base := by
    rintro ⟨p, hp, -, hpv⟩
    have := (hA.bounds (List.mem_of_mem_filter hp)).2
    omega
  have hright : (∃ p ∈ used B, Covers Segment.base Segment.size p v) → g.base + g.size ≤ v := by
    rintro ⟨p, hp, hpv, -⟩
    have := (hB.bounds (List.mem_of_mem_filter hp)).1
    omega
  have hnew : AllocatedAt gs' v ↔
      (((∃ p ∈ used A, Covers Segment.base Segment.size p v) ∨ g.base ≤ v ∧ v < cur) ∨
        e ≤ v ∧ v < g.base + g.size) ∨ ∃ p ∈ used B, Covers Segment.base Segment.size p v := by
    rw [← covers_below, ← covers_above, allocatedAt_iff, hused]
    simp only [List.mem_append, or_and_right, exists_or]
  rw [hold, hnew]
  constructor
  · rintro (((hp | hb) | hab) | hp)
    · exact ⟨.inl hp, by have := hleft hp; omega⟩
    · exact ⟨.inr (.inl ⟨by omega, by omega⟩), by omega⟩
    · exact ⟨.inr (.inl ⟨by omega, by omega⟩), by omega⟩
    · exact ⟨.inr (.inr hp), by have := hright hp; omega⟩
  · rintro ⟨hp | ⟨hg1, hg2⟩ | hp, hout⟩
    · exact .inl (.inl (.inl hp))
    · by_cases hv : v < cur
      · exact .inl (.inl (.inr ⟨hg1, hv⟩))
      · exact .inl (.inr ⟨by omega, hg2⟩)
    · exact .inr hp

/-- No allocated segment that starts below `e` ends with the word. -/
def EndsBefore (e : ℕ) (gs : List Segment) : Prop :=
  ∀ g ∈ gs, g.allocated = true → g.base + g.size = word → e ≤ g.base

theorem EndsBefore.release (h : EndsBefore e gs) (hr : Released cur e next gs gs')
    (he : cur < word) : EndsBefore e gs' := by
  obtain ⟨A, g, B, rfl, -, -, -, hused⟩ := released_used hr
  intro k hk halloc hend
  have hmem : k ∈ used gs' := List.mem_filter.2 ⟨hk, halloc⟩
  rw [hused] at hmem
  simp only [List.mem_append] at hmem
  rcases hmem with ((hmem | hmem) | hmem) | hmem
  · exact h k (by simp [List.mem_of_mem_filter hmem]) halloc hend
  · have hle : k.base + k.size ≤ cur := by
      unfold below at hmem
      split at hmem
      · rw [List.mem_singleton.1 hmem]
        dsimp only
        omega
      · simp at hmem
    omega
  · exact (mem_above hmem).2.ge
  · exact h k (by simp [List.mem_of_mem_filter hmem]) halloc hend

theorem rounds_allocatedAt (hr : Rounds top e cur gs gs') (h : Partition R gs)
    (hpos : AllPositive gs) (htop : R.1 + R.2.1 ≤ word) (hends : EndsBefore e gs) (hew : e < word)
    (hq : R.2.2 ∣ e) (hcur : R.2.2 ∣ cur ∨ R.1 + R.2.1 ≤ cur) (hce : cur ≤ e) :
    ∃ stop, cur ≤ stop ∧ (stop = e ∨ stop < e ∧ ¬ AllocatedAt gs stop) ∧
      (∀ v, cur ≤ v → v < stop → AllocatedAt gs v) ∧
      ∀ v, AllocatedAt gs' v ↔ AllocatedAt gs v ∧ ¬ (cur ≤ v ∧ v < stop) := by
  have hstay : ∀ (l : List Segment) (c v : ℕ), AllocatedAt l v ↔
      AllocatedAt l v ∧ ¬ (c ≤ v ∧ v < c) := fun l c v =>
    ⟨fun hv => ⟨hv, by omega⟩, fun hv => hv.1⟩
  induction hr with
  | @done c l hle =>
    exact ⟨c, le_rfl, .inl (le_antisymm hce hle), fun v h1 h2 => absurd h2 (not_lt.2 h1), hstay l c⟩
  | @miss c l hlt hno =>
    exact ⟨c, le_rfl, .inr ⟨hlt, hno hpos⟩, fun v h1 h2 => absurd h2 (not_lt.2 h1), hstay l c⟩
  | @round c n l l₁ l' hlt hrel _ ih =>
    obtain ⟨hcn, hall, hafter⟩ := released_allocatedAt hrel h hlt
    obtain ⟨hne, -, hnext⟩ := hrel.next_aligned h hlt.le hq
    have hdvd : R.2.2 ∣ c := hcur.resolve_right fun hge => by
      obtain ⟨g, hg, -, hcov⟩ := hall c le_rfl hcn
      have h1 := (h.tiles.bounds hg).2
      have h2 := hcov.2
      omega
    obtain ⟨stop, hstop, hwhy, hbetween, hthen⟩ := ih (h.release hrel hlt hdvd hq)
      (hpos.release hrel hlt) (hends.release hrel (hlt.trans hew)) hnext hne
    refine ⟨stop, by omega, ?_, fun v h1 h2 => ?_, fun v => ?_⟩
    · refine hwhy.imp id fun ⟨h1, h2⟩ => ⟨h1, fun h3 => h2 ((hafter stop).2 ⟨h3, by omega⟩)⟩
    · by_cases hv : v < n
      · exact hall v h1 hv
      · exact ((hafter v).1 (hbetween v (by omega) h2)).1
    · rw [hthen, hafter, and_assoc]
      refine and_congr_right fun _ => ?_
      omega
  | last hlt _ _ hrel =>
    obtain ⟨A, g, B, rfl, halloc, hcov, hnext, -⟩ := released_used hrel
    have h1 : word ≤ g.base + g.size := hnext.trans_le (Nat.min_le_left _ _)
    have h2 := (h.tiles.bounds (show g ∈ A ++ g :: B by simp)).2
    have h3 := hends g (by simp) halloc
    have h4 := hcov.1
    omega

/-- `vmem_free` frees exactly its range iff no allocated address in it follows one that is not:
the loop ends at the first address it finds free. -/
theorem vmem_free_exact (hpool : Lawful pool oom Live) {addr size : ℕ}
    (h : Reach pool Live R (· ≠ 0) s a) (htop : R.1 + R.2.1 < word) (haddr : R.2.2 ∣ addr)
    (hsize : R.2.2 ∣ size) (hend : addr + size < word) :
    Ensures oom (vmemFree pool s a addr size) fun r =>
      (∀ v, AllocatedAt (segs r.1) v ↔ AllocatedAt (segs a) v ∧ ¬ (addr ≤ v ∧ v < addr + size)) ↔
        ∀ v w, addr ≤ v → v ≤ w → w < addr + size → AllocatedAt (segs a) w →
          AllocatedAt (segs a) v := by
  obtain ⟨gs, hk⟩ := reach_kept hpool h
  rcases Nat.eq_zero_or_pos R.2.1 with h0 | hpos
  · have hnone : ∀ v, ¬ AllocatedAt (segs a) v := by
      obtain ⟨b, hgs⟩ := hk.empty h0
      rw [show segs a = gs from hk.ready.whole.segs, hgs]
      rintro v ⟨g, hg, -, h1, h2⟩
      rw [List.mem_singleton.1 hg] at h1 h2
      dsimp only at h1 h2
      omega
    refine Ensures.of_eq (vmemFree_empty hk h0 addr size) ?_
    refine ⟨fun _ v w _ _ _ hw => (hnone w hw).elim, fun _ v => ?_⟩
    exact ⟨fun hv => (hnone v hv).elim, fun hv => hv.1⟩
  · have hsound := hk.sound hpos
    have hpositive := hk.positive (fun _ hn => hn) hpos
    have hsegs : segs a = gs := hk.ready.whole.segs
    obtain rfl := hk.extent
    have hua : alignUp addr a.quantum = addr := hk.ready.alignUp_eq (by omega) haddr
    have hus : alignUp size a.quantum = size := hk.ready.alignUp_eq (by omega) hsize
    refine (vmemFree_spec hpool hsound addr size).imp fun r hr => ?_
    obtain ⟨hrange, gs', hrounds, hsound'⟩ := hr
    rw [hua, hus, wadd_of_lt hend] at hrounds
    rw [show segs r.1 = gs' from hsound'.whole.segs, hsegs]
    rcases hrounds with ⟨hz, rfl⟩ | hrounds
    · refine ⟨fun _ v w _ _ _ _ => by omega, fun _ v => ⟨fun hv => ⟨hv, by omega⟩, fun hv => hv.1⟩⟩
    have hends : EndsBefore (addr + size) gs := fun g hg _ heq => by
      have := (hsound.partition.tiles.bounds hg).2
      omega
    obtain ⟨stop, hstop, hwhy, hbetween, hafter⟩ := rounds_allocatedAt hrounds
      hsound.partition hpositive htop.le hends hend (Nat.dvd_add haddr hsize) (.inl haddr)
      (Nat.le_add_right _ _)
    rcases hwhy with rfl | ⟨hlt, hgap⟩
    · exact ⟨fun _ v w h1 h2 h3 _ => hbetween v h1 (by omega), fun _ => hafter⟩
    · constructor
      · intro hexact v w h1 h2 h3 hw
        by_cases hwstop : w < stop
        · exact hbetween v h1 (by omega)
        · have := (hexact w).1 ((hafter w).2 ⟨hw, by omega⟩)
          omega
      · intro hcond v
        rw [hafter]
        refine and_congr_right fun hv => ?_
        constructor
        · intro hout hin
          by_cases hvs : v < stop
          · exact hout ⟨hin.1, hvs⟩
          · exact hgap (hcond stop v hstop (by omega) hin.2 hv)
        · omega

theorem free_second_page : ∃ a s, session (4096, 16384, 4096) [.alloc 4096 8192] = .ok (a, s) ∧
    Ensures (fun _ => False) (vmemFree evenAddresses s a 8192 4096) fun r => ∀ v,
      AllocatedAt (segs r.1) v ↔ AllocatedAt (segs a) v ∧ ¬ (8192 ≤ v ∧ v < 8192 + 4096) := by
  obtain ⟨a, s, hrun, hreach, hsegs⟩ := session_reach [.alloc 4096 8192] (· ≠ 0)
    [⟨false, 4096, 4096⟩, ⟨true, 8192, 4096⟩, ⟨false, 12288, 8192⟩] fourPages
    (by decide) (by decide +kernel)
  refine ⟨a, s, hrun, (vmem_free_exact evenAddresses_lawful hreach (by decide) (by decide)
    (by decide) (by decide)).imp fun r hr => hr.2 fun v w h1 h2 h3 _ => ?_⟩
  rw [hsegs]
  exact ⟨⟨true, 8192, 4096⟩, by simp, rfl, h1, by dsimp only; omega⟩

/-- Nothing is freed of a range that begins with a free page. -/
theorem free_stops_at_gap : ∃ a s a' s',
    Reach evenAddresses EvenLive (4096, 16384, 4096) (· ≠ 0) s a ∧
    vmemFree evenAddresses s a 4096 8192 = .ok (a', s') ∧ AllocatedAt (segs a') 8192 := by
  obtain ⟨a, s, hrun, hreach, -⟩ := session_reach [.alloc 4096 8192] (· ≠ 0)
    [⟨false, 4096, 4096⟩, ⟨true, 8192, 4096⟩, ⟨false, 12288, 8192⟩] fourPages
    (by decide) (by decide +kernel)
  obtain ⟨a', s', hfree, -, hsegs⟩ := session_reach [.alloc 4096 8192, .free 4096 8192]
    (fun _ => True)
    [⟨false, 4096, 4096⟩, ⟨true, 8192, 4096⟩, ⟨false, 12288, 8192⟩] fourPages
    (by decide) (by decide +kernel)
  refine ⟨a, s, a', s', hreach, (session_snoc hrun (.free 4096 8192)).symm.trans hfree, ?_⟩
  rw [hsegs]
  exact ⟨⟨true, 8192, 4096⟩, by simp, rfl, by decide, by decide⟩

end MemVmemRelease
