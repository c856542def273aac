import EvalynKernel.MemVmemCalls

/-! # Runs of the virtual address allocator

Whatever is allocated and freed, the segments partition the range and all views of them
agree; a call stops early only where the slab allocator does. -/
namespace MemVmemRuns

open MachineWords DstructRbtree DstructRbtreeInsert DstructRbtreeSearch IntervalTilings MemVmem
open MemVmemOperations MemVmemPartition MemVmemCalls

variable {σ : Type} {pool : SegmentAllocator σ} {oom : Fault → Prop} {Live : σ → Set ℕ → Prop}
  {s : σ} {a : Allocator} {gs : List Segment}

structure Inv (Live : σ → Set ℕ → Prop) (s : σ) (a : Allocator) (gs : List Segment) : Prop where
  whole : Whole Live s a gs
  geometry : Geometry (range a)
  partition : Partition (range a) gs

theorem Inv.sound (h : Inv Live s a gs) : Sound Live s a gs :=
  ⟨h.whole, h.geometry.region, h.partition⟩

theorem Inv.segment (h : Inv Live s a gs) (hx : x ∈ a.segmentsList) : a.segments x ∈ gs :=
  h.sound.ready.segment hx

section Alloc

variable {size addr : ℕ}

structure Alloc (Live : σ → Set ℕ → Prop) (a : Allocator) (gs : List Segment) (size addr : ℕ)
    (r : ℕ × Allocator × σ) (A : List Segment) (g : Segment) (B : List Segment) : Prop where
  before : gs = A ++ g :: B
  placed : Placed (range a) size addr g r.1
  range : range r.2.1 = range a
  after : Inv Live r.2.2 r.2.1 (A ++ allocate a.quantum size g r.1 ++ B)

theorem vmemAlloc_spec (hpool : Lawful pool oom Live) (h : Inv Live s a gs) (size : ℕ)
    (haw : addr < word) :
    Ensures oom (vmemAlloc pool s a size addr) fun r =>
      r = (0, a, s) ∨ ∃ A g B, Alloc Live a gs (alignUp size a.quantum) addr r A g B := by
  have hready := h.sound.ready
  obtain ⟨hsize, -⟩ := hready.alignUp_facts size
  by_cases haddr : a.quantum ∣ addr
  · cases hfit : fitAlloc a (alignUp size a.quantum) addr with
    | none => exact Ensures.of_eq (vmemAlloc_none hready haddr hfit) (.inl rfl)
    | some ret =>
      obtain ⟨r, i, x⟩ := ret
      obtain ⟨hx, hseg⟩ := fitAlloc_some hfit
      obtain ⟨hxl, -, hfree, -⟩ := (h.whole.views.free i x).1 hx
      have hlt := h.sound.free_lt (h.segment hxl) hfree
      have hr : addr ≠ 0 → r = addr := by
        intro h0
        rcases (fitSegment_fixed hready hxl hlt hsize haddr haw h0).1 hseg with
          ⟨-, -, hr⟩ | ⟨⟨-, -, hw⟩, -⟩
        · exact hr
        · have hb := (hready.bounds hxl).2
          have htop : a.base + a.size < word := h.geometry.top
          omega
      refine (vmemAlloc_taken hpool hready haddr haw hfit hlt hr).imp fun ret hret => .inr ?_
      obtain ⟨A, B, rfl, hplaced, hret, hrange, hwhole⟩ := hret
      refine ⟨A, _, B, rfl, hret ▸ hplaced, hrange, ?_⟩
      rw [hret]
      exact ⟨hwhole, hrange ▸ h.geometry,
        hrange ▸ h.partition.allocate hplaced h.geometry.pos hsize⟩
  · exact Ensures.of_eq (vmemAlloc_misaligned hready size haddr) (.inl rfl)

end Alloc

theorem vmemFree_spec (hpool : Lawful pool oom Live) (h : Inv Live s a gs) (addr size : ℕ) :
    Ensures oom (vmemFree pool s a addr size) fun r =>
      range r.1 = range a ∧ ∃ gs', Freed
        (wadd (alignUp addr a.quantum) (alignUp size a.quantum)) (alignUp addr a.quantum) gs gs' ∧
        Inv Live r.2 r.1 gs' := by
  refine (MemVmemCalls.vmemFree_spec hpool h.sound addr size).imp fun r hr => ?_
  obtain ⟨hrange, gs', hrounds, hsound⟩ := hr
  refine ⟨hrange, gs', ?_, hsound.whole, hrange ▸ h.geometry, hsound.partition⟩
  rcases hrounds with ⟨-, rfl⟩ | hrounds
  · exact .stop _ _
  · exact hrounds.freed h.geometry.top

section Runs

variable {base size quantum : ℕ}

theorem vmemAllocatorInit_spec (hpool : Lawful pool oom Live) (hlive : Live s ∅)
    (hgeom : Geometry (base, size, quantum)) (hpos : 0 < size) (memory : ℕ → Segment × Node) :
    Ensures oom (vmemAllocatorInit pool s memory base size quantum) fun r =>
      range r.1 = (base, size, quantum) ∧ Inv Live r.2 r.1 [⟨false, base, size⟩] := by
  refine (MemVmemCalls.vmemAllocatorInit_spec hpool hlive hgeom.region memory).imp fun r hr => ?_
  obtain ⟨hrange, hready⟩ := hr
  refine ⟨hrange, hready.whole, hrange ▸ hgeom, hrange ▸ ?_⟩
  exact ⟨⟨rfl, rfl⟩, by simpa using hgeom.dvd, by simpa using hpos, List.isChain_singleton _⟩

/-- The states of an allocator of range `R` after calls that returned. -/
inductive Run (pool : SegmentAllocator σ) (Live : σ → Set ℕ → Prop) (R : ℕ × ℕ × ℕ) :
    σ → Allocator → Prop
  | init {s s' a} (memory : ℕ → Segment × Node) : Live s ∅ → Geometry R → 0 < R.2.1 →
      vmemAllocatorInit pool s memory R.1 R.2.1 R.2.2 = .ok (a, s') → Run pool Live R s' a
  | alloc {s a size addr r a' s'} : Run pool Live R s a → addr < word →
      alignUp size R.2.2 ≠ 0 → vmemAlloc pool s a size addr = .ok (r, a', s') →
      Run pool Live R s' a'
  | free {s a addr size a' s'} : Run pool Live R s a →
      vmemFree pool s a addr size = .ok (a', s') → Run pool Live R s' a'

theorem run_inv (hpool : Lawful pool oom Live) (h : Run pool Live R s a) :
    range a = R ∧ ∃ gs, Inv Live s a gs ∧ AllPositive gs := by
  induction h with
  | init memory hlive hgeom hpos hok =>
    obtain ⟨hrange, hinv⟩ := (vmemAllocatorInit_spec hpool hlive hgeom hpos memory).value hok
    exact ⟨hrange, _, hinv, by simpa [AllPositive] using hpos⟩
  | @alloc s a size addr r a' s' _ haddr hsize hok ih =>
    obtain ⟨rfl, gs, hinv, hpos⟩ := ih
    rcases (vmemAlloc_spec hpool hinv size haddr).value hok with heq | ⟨A, g, B, halloc⟩
    · obtain ⟨-, rfl, rfl⟩ : r = 0 ∧ a' = a ∧ s' = s := by simpa using heq
      exact ⟨rfl, gs, hinv, hpos⟩
    · obtain ⟨rfl, hplaced, hrange, hinv'⟩ := halloc
      exact ⟨hrange, _, hinv', hpos.allocate hplaced hinv.geometry.pos (Nat.pos_of_ne_zero hsize)⟩
  | free _ hok ih =>
    obtain ⟨rfl, gs, hinv, hpos⟩ := ih
    obtain ⟨hrange, gs', hfreed, hinv'⟩ := (vmemFree_spec hpool hinv _ _).value hok
    exact ⟨hrange, gs', hinv', hpos.free hfreed⟩

theorem tiles_increasing {start len : ℕ → ℕ} {lo hi : ℕ} {xs : List ℕ}
    (h : Tiles start len lo hi xs) (hpos : ∀ x ∈ xs, 0 < len x) :
    xs.Pairwise fun x y => start x < start y := by
  refine List.Pairwise.imp_of_mem (fun {x y} hx _ hle => ?_) h.pairwise
  have := hpos x hx
  omega

/-- In every state of every run the segments tile the range in order, the tree holds the
allocated ones, the free lists and the bitmap the free ones by size, no two neighbours are
free, and every further call returns unless the slab allocator fails. -/
theorem vmem_run_invariant (hpool : Lawful pool oom Live)
    (h : Run pool Live (base, size, quantum) s a) :
    a.segmentsList.Pairwise (fun x y => (a.segments x).base < (a.segments y).base) ∧
      (∀ x ∈ a.segmentsList, 0 < (a.segments x).size) ∧
      Tiles (fun x => (a.segments x).base) (fun x => (a.segments x).size) base (base + size)
        a.segmentsList ∧
      (∃ xs, Holds a.tree xs ∧
        (∀ x, x ∈ xs ↔ x ∈ a.segmentsList ∧ (a.segments x).allocated = true) ∧
        xs.Pairwise fun x y => (a.segments x).base < (a.segments y).base) ∧
      (∀ i x, x ∈ a.freelists i ↔
        x ∈ a.segmentsList ∧ (a.segments x).allocated = false ∧ log2ull (a.segments x).size = i) ∧
      (∀ i, a.bitmap.testBit i = true ↔ a.freelists i ≠ []) ∧
      a.segmentsList.IsChain (fun x y =>
        (a.segments x).allocated = true ∨ (a.segments y).allocated = true) ∧
      (∀ n addr, addr < word → Ensures oom (vmemAlloc pool s a n addr) fun _ => True) ∧
      ∀ addr n, Ensures oom (vmemFree pool s a addr n) fun _ => True := by
  obtain ⟨hrange, gs, hinv, hpos⟩ := run_inv hpool h
  obtain ⟨rfl, rfl, rfl⟩ : a.base = base ∧ a.size = size ∧ a.quantum = quantum := by
    simpa [range] using hrange
  have htiles := hinv.partition.tiles
  rw [← hinv.whole.segs] at htiles
  have htiles := tiles_map.1 htiles
  have hsize : ∀ x ∈ a.segmentsList, 0 < (a.segments x).size := fun x hx => hpos _ (hinv.segment hx)
  have hinc := tiles_increasing htiles hsize
  obtain ⟨xs, hholds, hsorted, hmem⟩ := hinv.whole.views.tree
  have hlist : ∀ x ∈ xs, x ∈ a.segmentsList := fun x hx => ((hmem x).1 hx).1
  have hchain : Separated (segs a) := hinv.whole.segs ▸ hinv.partition.separated
  refine ⟨hinc, hsize, htiles, ⟨xs, hholds, by simpa using hmem, ?_⟩,
    by simpa using hinv.whole.views.free, hinv.whole.views.bitmap,
    (List.isChain_map a.segments).1 hchain, fun n addr haddr => ?_, fun addr n => ?_⟩
  · refine List.Pairwise.imp_of_mem (fun {x y} hx hy hxy => ?_) (hsorted.and (holds_nodup hholds))
    refine lt_of_le_of_ne hxy.1 fun heq => hxy.2 ?_
    have hcov : ∀ z ∈ a.segmentsList, Covers (fun z => (a.segments z).base)
        (fun z => (a.segments z).size) z (a.segments z).base := fun z hz =>
      ⟨Nat.le_refl _, Nat.lt_add_of_pos_right (hsize z hz)⟩
    have hcovy := hcov y (hlist y hy)
    rw [← heq] at hcovy
    exact htiles.eq_of_covers (hlist x hx) (hlist y hy) (hcov x (hlist x hx)) hcovy
  · exact (vmemAlloc_spec hpool hinv n haddr).imp fun _ _ => trivial
  · exact (vmemFree_spec hpool hinv addr n).imp fun _ _ => trivial

def evenAddresses : SegmentAllocator ℕ where
  malloc n := .ok (2 * n + 2, n + 1)
  free n _ := .ok n

theorem evenAddresses_lawful :
    Lawful evenAddresses (fun _ => False) fun n L => ∀ x ∈ L, x ≤ 2 * n where
  malloc {n L} hL := by
    refine ⟨fun hmem => ?_, by dsimp only; omega, by dsimp only; omega, fun x hx => ?_⟩
    · have := hL _ hmem
      omega
    · rcases hx with rfl | hx
      · dsimp only
        omega
      · have := hL x hx
        omega
  free {n L x} hL _ := ⟨n, rfl, fun y hy => hL y hy.1⟩

def secondPage : Exec (Allocator × ℕ) := do
  let (a, s) ← vmemAllocatorInit evenAddresses 0
    (fun _ => (⟨true, 7, 7⟩, ⟨7, 7, 7⟩)) 4096 16384 4096
  let (_, a, s) ← vmemAlloc evenAddresses s a 4096 8192
  return (a, s)

theorem second_page_allocated :
    ∃ a s, secondPage = .ok (a, s) ∧
      segs a = [⟨false, 4096, 4096⟩, ⟨true, 8192, 4096⟩, ⟨false, 12288, 8192⟩] ∧
      ∀ x ∈ a.segmentsList, 0 < (a.segments x).size := by
  have heval : (secondPage.map fun r => segs r.1).toOption =
      some [⟨false, 4096, 4096⟩, ⟨true, 8192, 4096⟩, ⟨false, 12288, 8192⟩] := by decide +kernel
  have hgeom : Geometry (4096, 16384, 4096) := ⟨⟨12, by decide, by decide⟩, ⟨1, rfl⟩, by decide⟩
  cases hrun : secondPage with
  | error f => simp [hrun, Except.map, Except.toOption] at heval
  | ok r =>
    obtain ⟨⟨a₁, s₁⟩, hinit, hrest⟩ := bind_ok hrun
    obtain ⟨⟨v, a₂, s₂⟩, halloc, hret⟩ := bind_ok hrest
    obtain rfl : (a₂, s₂) = r := Except.ok.inj hret
    have h₁ : Run evenAddresses (fun n L => ∀ x ∈ L, x ≤ 2 * n) (4096, 16384, 4096) s₁ a₁ :=
      .init _ (by simp) hgeom (by decide) hinit
    have h₂ : Run evenAddresses (fun n L => ∀ x ∈ L, x ≤ 2 * n) (4096, 16384, 4096) s₂ a₂ :=
      .alloc h₁ (by decide) (by decide) halloc
    refine ⟨a₂, s₂, rfl, ?_, (vmem_run_invariant evenAddresses_lawful h₂).2.1⟩
    simpa [hrun, Except.map, Except.toOption] using heval

/-- An allocator of size zero holds a segment of size zero. -/
theorem empty_range_segment :
    ∃ a s, vmemAllocatorInit evenAddresses 0 (fun _ => (⟨true, 7, 7⟩, ⟨7, 7, 7⟩)) 4096 0 4096 =
      .ok (a, s) ∧ ∃ x ∈ a.segmentsList, (a.segments x).size = 0 :=
  ⟨_, _, rfl, 2, by decide, by decide⟩

end Runs

end MemVmemRuns
