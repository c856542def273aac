import EvalynKernel.MemVmemRuns

/-! # Reachable states of the virtual address allocator

The range may be empty and may end with the word; any call may be made, with the aligned
sizes of allocations restricted by a predicate. -/
namespace MemVmemReach

open MachineWords DstructRbtree MemVmem MemVmemOperations MemVmemPartition MemVmemCalls

variable {σ : Type} {pool : SegmentAllocator σ} {oom : Fault → Prop} {Live : σ → Set ℕ → Prop}
  {s : σ} {a : Allocator} {gs gs' : List Segment} {R : ℕ × ℕ × ℕ} {legal : ℕ → Prop}

/-- The states after calls that returned, in which every allocation had a legal size. -/
inductive Reach (pool : SegmentAllocator σ) (Live : σ → Set ℕ → Prop) (R : ℕ × ℕ × ℕ)
    (legal : ℕ → Prop) : σ → Allocator → Prop
  | init {s s' a} (memory : ℕ → Segment × Node) : Live s ∅ → Region R →
      vmemAllocatorInit pool s memory R.1 R.2.1 R.2.2 = .ok (a, s') → Reach pool Live R legal s' a
  | alloc {s a size addr r a' s'} : Reach pool Live R legal s a → addr < word →
      legal (alignUp size R.2.2) → vmemAlloc pool s a size addr = .ok (r, a', s') →
      Reach pool Live R legal s' a'
  | free {s a addr size a' s'} : Reach pool Live R legal s a →
      vmemFree pool s a addr size = .ok (a', s') → Reach pool Live R legal s' a'

structure Kept (Live : σ → Set ℕ → Prop) (R : ℕ × ℕ × ℕ) (legal : ℕ → Prop) (s : σ)
    (a : Allocator) (gs : List Segment) : Prop where
  extent : range a = R
  ready : Ready Live s a gs
  partition : 0 < R.2.1 → Partition R gs
  empty : R.2.1 = 0 → ∃ b, gs = [⟨b, R.1, 0⟩]
  positive : (∀ n, legal n → n ≠ 0) → 0 < R.2.1 → AllPositive gs

theorem Kept.sound (h : Kept Live R legal s a gs) (hpos : 0 < R.2.1) : Sound Live s a gs :=
  ⟨h.ready.whole, h.ready.region, h.extent ▸ h.partition hpos⟩

theorem Kept.move {τ : Type} {Live' : τ → Set ℕ → Prop} {s' : τ} (h : Kept Live R legal s a gs)
    (hl : ∀ L, Live s L → Live' s' L) : Kept Live' R legal s' a gs :=
  ⟨h.extent, ⟨⟨h.ready.whole.views, h.ready.whole.segs, hl _ h.ready.whole.live⟩, h.ready.region,
    h.ready.tiles, h.ready.aligned⟩, h.partition, h.empty, h.positive⟩

variable {g : Segment}

theorem Kept.free_lt (h : Kept Live R legal s a gs) (hg : g ∈ gs) (hf : g.allocated = false) :
    g.base < word := by
  rcases Nat.eq_zero_or_pos R.2.1 with h0 | hpos
  · obtain ⟨b, rfl⟩ := h.empty h0
    rw [List.mem_singleton.1 hg]
    exact h.extent ▸ h.ready.region.start
  · exact (h.sound hpos).free_lt hg hf

variable {a' : Allocator} {size addr r : ℕ} {s' : σ}

theorem Kept.allocate (h : Kept Live R legal s a (A ++ g :: B)) (hp : Placed R size addr g r)
    (hsize : R.2.2 ∣ size) (hlegal : legal size) (hrange : range a' = R)
    (hwhole : Whole Live s' a' (A ++ MemVmemPartition.allocate R.2.2 size g r ++ B)) :
    Kept Live R legal s' a' (A ++ MemVmemPartition.allocate R.2.2 size g r ++ B) := by
  obtain rfl := h.extent
  have hq : 0 < a.quantum := h.ready.region.pos
  refine ⟨hrange, h.ready.allocate hp hsize hrange hwhole,
    fun hpos => (h.partition hpos).allocate hp hq hsize, fun h0 => ?_, fun hl hpos => ?_⟩
  · obtain ⟨b, hgs⟩ := h.empty h0
    have hone : A.length + (B.length + 1) = 1 := by
      have := congrArg List.length hgs
      simpa using this
    obtain rfl : A = [] := List.length_eq_zero_iff.1 (by omega)
    obtain rfl : B = [] := List.length_eq_zero_iff.1 (by omega)
    obtain rfl : g = ⟨b, a.base, 0⟩ := by simpa [range] using hgs
    have hfits := hp.fits
    have hle := hp.le
    dsimp only at hfits hle
    obtain rfl : r = a.base := by omega
    obtain rfl : size = 0 := by omega
    refine ⟨true, ?_⟩
    simp [MemVmemPartition.allocate, lead, taken, range]
  · exact AllPositive.allocate (h.positive hl hpos) hp hq (Nat.pos_of_ne_zero (hl _ hlegal))

theorem Kept.vmemAlloc (hpool : Lawful pool oom Live) (h : Kept Live R legal s a gs)
    (haw : addr < word) (hok : vmemAlloc pool s a size addr = .ok (r, a', s')) :
    (r, a', s') = (0, a, s) ∨
      ∃ A g B, gs = A ++ g :: B ∧ Placed R (alignUp size R.2.2) addr g r ∧ range a' = R ∧
        Whole Live s' a'
          (A ++ MemVmemPartition.allocate R.2.2 (alignUp size R.2.2) g r ++ B) := by
  obtain rfl := h.extent
  by_cases haddr : a.quantum ∣ addr
  · cases hfit : fitAlloc a (alignUp size a.quantum) addr with
    | none => exact .inl (Except.ok.inj (hok.symm.trans (vmemAlloc_none h.ready haddr hfit)))
    | some ret =>
      obtain ⟨v, i, x⟩ := ret
      obtain ⟨hx, -⟩ := fitAlloc_some hfit
      obtain ⟨hxl, -, hfree, -⟩ := (h.ready.whole.views.free i x).1 hx
      have hlt := h.free_lt (h.ready.segment hxl) hfree
      by_cases hr : addr ≠ 0 → v = addr
      · obtain ⟨A, B, hgs, hplaced, rfl, hrange, hwhole⟩ :=
          (vmemAlloc_taken hpool h.ready haddr haw hfit hlt hr).value hok
        exact .inr ⟨A, _, B, hgs, hplaced, hrange, hwhole⟩
      · obtain ⟨h0, hne⟩ := not_forall.1 hr
        rw [vmemAlloc_asserts h.ready haddr h0 hfit hne] at hok
        cases hok
  · exact .inl (Except.ok.inj (hok.symm.trans (vmemAlloc_misaligned h.ready size haddr)))

theorem vmemFree_empty (h : Kept Live R legal s a gs) (h0 : R.2.1 = 0) (addr size : ℕ) :
    vmemFree pool s a addr size = .ok (a, s) := by
  simp only [vmemFree]
  split
  · rfl
  · obtain ⟨o, hok, hsome, -⟩ := vmemFindSegment_spec h.ready (h.ready.alignUp_facts addr).2
    cases o with
    | none => exact freeLoop_miss hok
    | some x =>
      obtain ⟨hx, -, hlo, hhi⟩ := hsome x rfl
      have hb := h.ready.bounds hx
      have hsize : a.size = 0 := by
        have hr := congrArg (fun R => R.2.1) h.extent
        exact hr.trans h0
      omega

section

variable (hpool : Lawful pool oom Live)
include hpool

theorem Kept.after_alloc (h : Kept Live R legal s a gs) (haw : addr < word)
    (hlegal : legal (alignUp size R.2.2))
    (hok : MemVmem.vmemAlloc pool s a size addr = .ok (r, a', s')) :
    ∃ gs', Kept Live R legal s' a' gs' := by
  rcases h.vmemAlloc hpool haw hok with heq | ⟨A, g, B, rfl, hplaced, hrange, hwhole⟩
  · obtain ⟨-, rfl, rfl⟩ : r = 0 ∧ a' = a ∧ s' = s := by simpa using heq
    exact ⟨gs, h⟩
  · obtain rfl := h.extent
    exact ⟨_, h.allocate hplaced (h.ready.alignUp_facts size).1 hlegal hrange hwhole⟩

theorem Kept.after_free (h : Kept Live R legal s a gs)
    (hok : vmemFree pool s a addr size = .ok (a', s')) : ∃ gs', Kept Live R legal s' a' gs' := by
  rcases Nat.eq_zero_or_pos R.2.1 with h0 | hpos
  · rw [vmemFree_empty h h0] at hok
    obtain ⟨rfl, rfl⟩ : a = a' ∧ s = s' := by simpa using hok
    exact ⟨gs, h⟩
  · obtain ⟨hrange, gs', hrounds, hsound⟩ :=
      (vmemFree_spec hpool (h.sound hpos) addr size).value hok
    have hr := hrange.trans h.extent
    refine ⟨gs', hr, hsound.ready, fun _ => hr ▸ hsound.partition, fun h0 => by omega,
      fun hl _ => ?_⟩
    have hold := h.positive hl hpos
    rcases hrounds with ⟨-, rfl⟩ | hrounds
    · exact hold
    · exact hold.rounds hrounds

theorem kept_init (hlive : Live s ∅) (hreg : Region R) (memory : ℕ → Segment × Node) :
    Ensures oom (vmemAllocatorInit pool s memory R.1 R.2.1 R.2.2) fun r =>
      ∃ gs, Kept Live R legal r.2 r.1 gs := by
  refine (vmemAllocatorInit_spec hpool hlive hreg memory).imp fun r hr => ?_
  refine ⟨_, hr.1, hr.2, fun hpos => ?_, fun h0 => ⟨false, by rw [h0]⟩, fun _ hpos => ?_⟩
  · exact ⟨⟨rfl, rfl⟩, by simpa using hreg.dvd, by simpa using hpos, List.isChain_singleton _⟩
  · simpa [AllPositive] using hpos

theorem reach_kept (h : Reach pool Live R legal s a) : ∃ gs, Kept Live R legal s a gs := by
  induction h with
  | init memory hlive hreg hok => exact (kept_init hpool hlive hreg memory).value hok
  | alloc _ haw hlegal hok ih =>
    obtain ⟨gs, hk⟩ := ih
    exact hk.after_alloc hpool haw hlegal hok
  | free _ hok ih =>
    obtain ⟨gs, hk⟩ := ih
    exact hk.after_free hpool hok

end

section Sessions

open MemVmemRuns

inductive Call
  | alloc (size addr : ℕ)
  | free (addr size : ℕ)

def Call.run (x : Allocator × ℕ) : Call → Exec (Allocator × ℕ)
  | .alloc size addr => do return (← vmemAlloc evenAddresses x.2 x.1 size addr).2
  | .free addr size => vmemFree evenAddresses x.2 x.1 addr size

def Call.Legal (q : ℕ) (legal : ℕ → Prop) : Call → Prop
  | .alloc size addr => addr < word ∧ legal (alignUp size q)
  | .free _ _ => True

instance {q : ℕ} {legal : ℕ → Prop} [DecidablePred legal] :
    DecidablePred (Call.Legal q legal)
  | .alloc size addr => inferInstanceAs (Decidable (addr < word ∧ legal (alignUp size q)))
  | .free _ _ => isTrue trivial

def session (R : ℕ × ℕ × ℕ) (calls : List Call) : Exec (Allocator × ℕ) := do
  let x ← vmemAllocatorInit evenAddresses 0 (fun _ => (⟨true, 7, 7⟩, ⟨7, 7, 7⟩)) R.1 R.2.1 R.2.2
  calls.foldlM Call.run x

abbrev EvenLive (n : ℕ) (L : Set ℕ) : Prop := ∀ x ∈ L, x ≤ 2 * n

variable {calls : List Call} {x : Allocator × ℕ}

theorem calls_reach (h : Reach evenAddresses EvenLive R legal x.2 x.1)
    (hlegal : ∀ c ∈ calls, c.Legal R.2.2 legal) (hok : calls.foldlM Call.run x = .ok y) :
    Reach evenAddresses EvenLive R legal y.2 y.1 := by
  induction calls generalizing x with
  | nil =>
    obtain rfl : x = y := Except.ok.inj hok
    exact h
  | cons c calls ih =>
    obtain ⟨z, hc, hrest⟩ := bind_ok hok
    refine ih ?_ (fun d hd => hlegal d (List.mem_cons_of_mem c hd)) hrest
    have hl := hlegal c List.mem_cons_self
    cases c with
    | alloc size addr =>
      obtain ⟨⟨r, a', s'⟩, halloc, hret⟩ := bind_ok hc
      obtain rfl : (a', s') = z := Except.ok.inj hret
      exact h.alloc hl.1 hl.2 halloc
    | free addr size => exact h.free hc

theorem session_reach (calls : List Call) (legal : ℕ → Prop) (gs : List Segment) (hreg : Region R)
    (hlegal : ∀ c ∈ calls, c.Legal R.2.2 legal)
    (heval : ((session R calls).map fun x => segs x.1).toOption = some gs) :
    ∃ a s, session R calls = .ok (a, s) ∧ Reach evenAddresses EvenLive R legal s a ∧
      segs a = gs := by
  cases hrun : session R calls with
  | error f => simp [hrun, Except.map, Except.toOption] at heval
  | ok x =>
    obtain ⟨⟨a₁, s₁⟩, hinit, hrest⟩ := bind_ok hrun
    have h₁ : Reach evenAddresses EvenLive R legal s₁ a₁ :=
      .init _ (by simp [EvenLive]) hreg hinit
    refine ⟨x.1, x.2, rfl, calls_reach h₁ hlegal hrest, ?_⟩
    simpa [hrun, Except.map, Except.toOption] using heval

theorem fourPages : Region (4096, 16384, 4096) :=
  ⟨⟨12, by decide, by decide⟩, ⟨1, rfl⟩, by decide, by decide, by decide⟩

theorem session_snoc (hrun : session R calls = .ok x) (c : Call) :
    session R (calls ++ [c]) = c.run x := by
  obtain ⟨y, hinit, hrest⟩ := bind_ok hrun
  simp only [session, hinit, ok_bind, List.foldlM_append, hrest, List.foldlM_cons, List.foldlM_nil,
    bind_pure]

end Sessions

end MemVmemReach
