import EvalynKernel.MemVmemReach

/-! # `vmem_alloc` succeeds exactly when it can

The search looks at the size classes from the rounded-up logarithm on, as the bitmap lists
them, and then at the class below. No segment that is large enough lies in another class.
What the tests accept is right except for one segment: the last one of a range that ends
with the word, when it has exactly the size asked for. -/
namespace MemVmemSearch

open MachineWords IntervalTilings MemVmem MemVmemInvariant MemVmemOperations MemVmemPartition
open MemVmemCalls MemVmemReach MemVmemRuns

variable {σ : Type} {pool : SegmentAllocator σ} {oom : Fault → Prop} {Live : σ → Set ℕ → Prop}
  {s : σ} {a : Allocator} {gs gs' : List Segment} {R : ℕ × ℕ × ℕ} {legal : ℕ → Prop}
  {size addr x i r : ℕ}

def scan (a : Allocator) (size : ℕ) : List ℕ :=
  let index := Nat.min (log2ullceil size) 63
  let first := countTrailingZeros (a.bitmap &&& ((word - 1) <<< index % word))
  List.range' first (64 - first) ++ if index = 0 then [] else [index - 1]

def order (a : Allocator) (size : ℕ) : List ℕ := (scan a size).flatMap a.freelists

theorem fitAlloc_eq (a : Allocator) (size addr : ℕ) :
    fitAlloc a size addr = (scan a size).findSome?
      (fitList a size (alignUp addr a.quantum) (limit a size addr)) := by
  unfold fitAlloc scan
  rw [List.findSome?_append]
  dsimp only
  rw [show (if addr ≠ 0 then alignUp (wadd addr size) a.quantum else word - 1) =
    limit a size addr from rfl]
  split
  · next ret hret => rw [hret, Option.some_or]
  · next hret =>
    rw [hret, Option.none_or]
    split
    · rfl
    · simp

theorem findSome_lists (a : Allocator) (size min max : ℕ) (l : List ℕ) :
    (l.findSome? (fitList a size min max)).map (fun ret => (ret.1, ret.2.2)) =
      (l.flatMap a.freelists).findSome? fun x => (fitSegment a size min max x).map (·, x) := by
  induction l with
  | nil => rfl
  | cons i l ih =>
    have hhead : (fitList a size min max i).map (fun ret => (ret.1, ret.2.2)) =
        (a.freelists i).findSome? fun x => (fitSegment a size min max x).map (·, x) := by
      unfold fitList
      induction a.freelists i with
      | nil => rfl
      | cons y ys ihy =>
        cases hy : fitSegment a size min max y with
        | none => simpa [hy] using ihy
        | some v => simp [hy]
    rw [List.flatMap_cons, List.findSome?_append, ← ih, ← hhead, List.findSome?_cons]
    cases fitList a size min max i <;> rfl

theorem fitAlloc_first (h : fitAlloc a size addr = some (r, i, x)) :
    ∃ pre post, order a size = pre ++ x :: post ∧
      fitSegment a size (alignUp addr a.quantum) (limit a size addr) x = some r ∧
      ∀ y ∈ pre, fitSegment a size (alignUp addr a.quantum) (limit a size addr) y = none := by
  have hmap := findSome_lists a size (alignUp addr a.quantum) (limit a size addr) (scan a size)
  rw [← fitAlloc_eq, h] at hmap
  obtain ⟨pre, y, post, hsplit, hy, hpre⟩ := List.findSome?_eq_some_iff.1 hmap.symm
  obtain ⟨v, hv, hvx⟩ := Option.map_eq_some_iff.1 hy
  obtain ⟨rfl, rfl⟩ : v = r ∧ y = x := by simpa using hvx
  exact ⟨pre, post, hsplit, hv, fun z hz => by simpa using hpre z hz⟩

theorem fitAlloc_none (h : fitAlloc a size addr = none) (hx : x ∈ order a size) :
    fitSegment a size (alignUp addr a.quantum) (limit a size addr) x = none := by
  have hmap := findSome_lists a size (alignUp addr a.quantum) (limit a size addr) (scan a size)
  rw [← fitAlloc_eq, h] at hmap
  simpa using List.findSome?_eq_none_iff.1 hmap.symm x hx

theorem mem_order (hx : x ∈ order a size) : ∃ i, x ∈ a.freelists i := by
  obtain ⟨i, -, hi⟩ := List.mem_flatMap.1 hx
  exact ⟨i, hi⟩

variable {n : ℕ}

theorem mem_scan (hbit : a.bitmap.testBit (log2ull n) = true) (hn : n < word) (hle : size ≤ n) :
    log2ull n ∈ scan a size := by
  have hlog : log2ull size ≤ log2ull n := log2ull_mono hle
  have hlt : log2ull n < 64 := log2ull_lt hn
  have hceil := log2ullceil_le size
  unfold scan
  generalize hidx : Nat.min (log2ullceil size) 63 = index
  have hidx1 : index ≤ log2ullceil size := hidx ▸ Nat.min_le_left _ _
  rw [List.mem_append]
  by_cases hi : index ≤ log2ull n
  · left
    have hmask : ((word - 1) <<< index % word).testBit (log2ull n) = true := by
      rw [show word = 2 ^ 64 from rfl, Nat.testBit_mod_two_pow, Nat.testBit_shiftLeft,
        Nat.testBit_two_pow_sub_one]
      simp only [Bool.and_eq_true, decide_eq_true_eq]
      exact ⟨hlt, hi, by omega⟩
    have hfirst := ctz_le_of_testBit (v := a.bitmap &&& ((word - 1) <<< index % word))
      (j := log2ull n) (by rw [Nat.testBit_and, hbit, hmask]; rfl)
    rw [List.mem_range']
    exact ⟨log2ull n - countTrailingZeros (a.bitmap &&& ((word - 1) <<< index % word)), by omega,
      by omega⟩
  · right
    have h0 : index ≠ 0 := by omega
    rw [if_neg h0, List.mem_singleton]
    omega

theorem mem_order_of_free (h : Ready Live s a gs) (hx : x ∈ a.segmentsList)
    (hfree : (a.segments x).allocated = false) (hle : size ≤ (a.segments x).size) :
    x ∈ order a size := by
  have hlist : x ∈ a.freelists (log2ull (a.segments x).size) :=
    (h.whole.views.free _ x).2 ⟨hx, by simp, hfree, rfl⟩
  have hbit : a.bitmap.testBit (log2ull (a.segments x).size) = true :=
    (h.whole.views.bitmap _).2 (List.ne_nil_of_mem hlist)
  exact List.mem_flatMap.2 ⟨_, mem_scan hbit (h.whole.views.bounded x hx) hle, hlist⟩

def Contains (g : Segment) (addr size : ℕ) : Prop :=
  g.base ≤ addr ∧ addr + size ≤ g.base + g.size

/-- The search meets the segment that the request overshoots before any that contains it. -/
def Misled (a : Allocator) (size addr : ℕ) : Prop :=
  ∃ pre x post, order a size = pre ++ x :: post ∧ Overshoots size addr (a.segments x) ∧
    ∀ y ∈ pre, ¬ Contains (a.segments y) addr size

theorem fitSegment_contains (hk : Kept Live R legal s a gs) (hx : x ∈ order a size)
    (hsize : a.quantum ∣ size) (haddr : a.quantum ∣ addr) (haw : addr < word) (h0 : addr ≠ 0) :
    fitSegment a size (alignUp addr a.quantum) (limit a size addr) x = some r ↔
      Contains (a.segments x) addr size ∧ r = addr ∨
      Overshoots size addr (a.segments x) ∧ r = (a.segments x).base := by
  obtain ⟨i, hi⟩ := mem_order hx
  obtain ⟨hxl, -, hfree, -⟩ := (hk.ready.whole.views.free i x).1 hi
  have hlt := hk.free_lt (hk.ready.segment hxl) hfree
  rw [fitSegment_fixed hk.ready hxl hlt hsize haddr haw h0, Contains, and_assoc]

/-- A fixed request that fits somewhere gets its address unless the search is misled. -/
theorem fitAlloc_asked (hk : Kept Live R legal s a gs) (hsize : a.quantum ∣ size)
    (haddr : a.quantum ∣ addr) (haw : addr < word) (h0 : addr ≠ 0)
    (hfit : fitAlloc a size addr = some (r, i, x)) : r ≠ addr ↔ Misled a size addr := by
  obtain ⟨pre, post, hord, hx, hpre⟩ := fitAlloc_first hfit
  have hmem : ∀ y ∈ pre, y ∈ order a size := fun y hy => by
    rw [hord]
    exact List.mem_append_left _ hy
  have hxmem : x ∈ order a size := by simp [hord]
  have hnone : ∀ y ∈ pre, ¬ Contains (a.segments y) addr size ∧
      ¬ Overshoots size addr (a.segments y) := by
    intro y hy
    have hfalse : ∀ v, ¬ fitSegment a size (alignUp addr a.quantum) (limit a size addr) y =
        some v := fun v hv => by
      rw [hpre y hy] at hv
      cases hv
    constructor
    · intro hc
      exact hfalse addr ((fitSegment_contains hk (hmem y hy) hsize haddr haw h0).2 (.inl ⟨hc, rfl⟩))
    · intro ho
      exact hfalse _ ((fitSegment_contains hk (hmem y hy) hsize haddr haw h0).2 (.inr ⟨ho, rfl⟩))
  constructor
  · intro hne
    rcases (fitSegment_contains hk hxmem hsize haddr haw h0).1 hx with ⟨-, hr⟩ | ⟨ho, -⟩
    · exact (hne hr).elim
    · exact ⟨pre, x, post, hord, ho, fun y hy => (hnone y hy).1⟩
  · rintro ⟨pre', x', post', hord', ho, hpre'⟩ rfl
    -- the segment returned contains the request, so it comes before the overshot one
    have hcx : Contains (a.segments x) r size := by
      rcases (fitSegment_contains hk hxmem hsize haddr haw h0).1 hx with ⟨hc, -⟩ | ⟨⟨hlt, -⟩, hr⟩
      · exact hc
      · omega
    have hnotpre : x' ∉ pre := fun hm => (hnone x' hm).2 ho
    have hnotpre' : x ∉ pre' := fun hm => hpre' x hm hcx
    have hne : x ≠ x' := by
      rintro rfl
      have h1 := hcx.1
      have h2 := ho.1
      omega
    rw [hord] at hord'
    rcases List.append_eq_append_iff.1 hord' with ⟨c, hc, hc'⟩ | ⟨c, hc, hc'⟩
    · cases c with
      | nil => exact hne (List.cons.inj hc').1
      | cons z c =>
        obtain ⟨rfl, -⟩ : x = z ∧ _ := by simpa using hc'
        exact hnotpre' (by simp [hc])
    · cases c with
      | nil => exact hne (List.cons.inj hc').1.symm
      | cons z c =>
        obtain ⟨rfl, -⟩ : x' = z ∧ _ := by simpa using hc'
        exact hnotpre (by simp [hc])

variable {A B : List Segment}

theorem allocatedAt_append : AllocatedAt (A ++ B) v ↔ AllocatedAt A v ∨ AllocatedAt B v := by
  simp only [AllocatedAt, List.mem_append, or_and_right, exists_or]

variable {g : Segment} {q : ℕ}

theorem allocatedAt_allocate (hp : Placed R n addr g r) (hq : 0 < q) :
    ∃ tail < q, ∀ v, AllocatedAt (A ++ allocate q n g r ++ B) v ↔
      AllocatedAt (A ++ g :: B) v ∨ r ≤ v ∧ v < r + n + tail := by
  obtain ⟨hfree, hle, hfits, -, -⟩ := hp
  have hlead : ∀ v, ¬ AllocatedAt (lead g r) v := by
    rintro v ⟨k, hk, ha, -⟩
    unfold lead at hk
    split at hk
    · simp at hk
    · rw [List.mem_singleton.1 hk] at ha
      cases ha
  have hg : ∀ v, ¬ AllocatedAt [g] v := by
    rintro v ⟨k, hk, ha, -⟩
    rw [List.mem_singleton.1 hk, hfree] at ha
    cases ha
  have htaken : ∃ tail < q, ∀ v, AllocatedAt (taken q n ⟨false, r, g.size - (r - g.base)⟩) v ↔
      r ≤ v ∧ v < r + n + tail := by
    unfold taken
    split
    · refine ⟨0, hq, fun v => ?_⟩
      simp [AllocatedAt, Covers]
    · next hno =>
      refine ⟨g.size - (r - g.base) - n, ?_, fun v => ?_⟩
      · dsimp only at hno
        omega
      · simp only [AllocatedAt, List.mem_singleton, exists_eq_left, Covers, true_and]
        omega
  obtain ⟨tail, htail, hv⟩ := htaken
  refine ⟨tail, htail, fun v => ?_⟩
  rw [← List.singleton_append (x := g), ← List.append_assoc]
  simp only [allocatedAt_append, allocate, hlead v, hg v, hv v]
  tauto

/-- What `vmem_alloc` is to return for `n` bytes and what it may change. -/
structure Served (q n addr : ℕ) (gs gs' : List Segment) (r : ℕ) : Prop where
  open_none : addr = 0 → (r = 0 ↔ ∀ g ∈ gs, g.allocated = false → g.size < n)
  open_range : addr = 0 → r ≠ 0 → q ∣ r ∧ ∃ g ∈ gs, g.allocated = false ∧ Contains g r n
  fixed : addr ≠ 0 → (r = addr ↔ q ∣ addr ∧ ∃ g ∈ gs, g.allocated = false ∧ Contains g addr n)
  fixed_none : addr ≠ 0 → r ≠ addr → r = 0
  change : r ≠ 0 → ∃ tail < q, ∀ v, AllocatedAt gs' v ↔ AllocatedAt gs v ∨ r ≤ v ∧ v < r + n + tail

theorem served_taken (hp : Placed R n addr g r) (hq : 0 < q) (hqR : q = R.2.2) (hr : r ≠ 0) :
    Served q n addr (A ++ g :: B) (A ++ allocate q n g r ++ B) r := by
  have hfits := hp.fits
  have hle := hp.le
  have hcont : Contains g r n := ⟨hle, by omega⟩
  have hg : g ∈ A ++ g :: B := by simp
  refine ⟨fun _ => ⟨fun h0 => (hr h0).elim, fun hno => ?_⟩, fun _ _ => ?_, fun h0 => ?_,
    fun h0 hne => (hne (hp.asked h0)).elim, fun _ => allocatedAt_allocate hp hq⟩
  · have := hno g hg hp.free
    omega
  · exact ⟨hqR ▸ hp.dvd, g, hg, hp.free, hcont⟩
  · have hra := hp.asked h0
    refine ⟨fun _ => ?_, fun _ => hra⟩
    rw [← hra]
    exact ⟨hqR ▸ hp.dvd, g, hg, hp.free, hcont⟩

theorem served_misaligned (haddr : ¬ q ∣ addr) : Served q n addr gs gs 0 := by
  have h0 : addr ≠ 0 := fun h0 => haddr (h0 ▸ dvd_zero _)
  constructor
  · exact fun hz => (h0 hz).elim
  · exact fun hz => (h0 hz).elim
  · exact fun _ => ⟨fun hz => (h0 hz.symm).elim, fun hc => (haddr hc.1).elim⟩
  · exact fun _ _ => rfl
  · exact fun hne => (hne rfl).elim

theorem served_none (hk : Kept Live R legal s a gs) (hsize : a.quantum ∣ n)
    (haddr : a.quantum ∣ addr) (haw : addr < word) (hfit : fitAlloc a n addr = none) :
    Served a.quantum n addr gs gs 0 ∧ (addr ≠ 0 → ¬ Misled a n addr) := by
  have hfree : ∀ g ∈ gs, g.allocated = false → n ≤ g.size →
      ∃ x ∈ order a n, x ∈ a.segmentsList ∧ a.segments x = g := by
    intro g hg hf hle
    rw [← hk.ready.whole.segs] at hg
    obtain ⟨x, hx, rfl⟩ := List.mem_map.1 hg
    exact ⟨x, mem_order_of_free hk.ready hx hf hle, hx, rfl⟩
  have hnone : ∀ x ∈ order a n, addr ≠ 0 → ¬ Contains (a.segments x) addr n ∧
      ¬ Overshoots n addr (a.segments x) := by
    intro x hx h0
    have hiff := fun v => fitSegment_contains (r := v) hk hx hsize haddr haw h0
    rw [fitAlloc_none hfit hx] at hiff
    constructor
    · intro hc
      cases (hiff addr).2 (.inl ⟨hc, rfl⟩)
    · intro ho
      cases (hiff _).2 (.inr ⟨ho, rfl⟩)
  refine ⟨⟨fun h0 => ⟨fun _ g hg hf => ?_, fun _ => rfl⟩, fun _ hne => (hne rfl).elim,
    fun h0 => ⟨fun heq => (h0 heq.symm).elim, fun hc => ?_⟩, fun _ _ => rfl,
    fun hne => (hne rfl).elim⟩, fun h0 hm => ?_⟩
  · by_contra hle
    obtain ⟨x, hx, hxl, rfl⟩ := hfree g hg hf (not_lt.1 hle)
    have hsome : fitSegment a n (alignUp 0 a.quantum) (limit a n 0) x = some _ :=
      (fitSegment_open hk.ready hxl (hk.free_lt hg hf)).2 ⟨rfl, not_lt.1 hle⟩
    subst h0
    rw [fitAlloc_none hfit hx] at hsome
    cases hsome
  · obtain ⟨-, g, hg, hf, hlo, hhi⟩ := hc
    obtain ⟨x, hx, -, rfl⟩ := hfree g hg hf (by omega)
    exact ((hnone x hx h0).1 ⟨hlo, hhi⟩).elim
  · obtain ⟨pre, x, post, hord, ho, -⟩ := hm
    exact (hnone x (by simp [hord]) h0).2 ho

theorem not_misled_below (h : Ready Live s a gs) (htop : a.base + a.size < word) :
    ¬ Misled a n addr := by
  rintro ⟨pre, x, post, hord, ⟨-, -, hw⟩, -⟩
  have hx : x ∈ order a n := by simp [hord]
  obtain ⟨i, hi⟩ := mem_order hx
  have hbx := h.bounds ((h.whole.views.free i x).1 hi).1
  omega

/-- In every reachable state a call of `vmem_alloc` does exactly what it can unless the
search is misled; then its assertion fails. A range that ends below the word never misleads. -/
theorem vmem_alloc_exact (hpool : Lawful pool oom Live) (hoom : ∀ e, ¬ oom (.assertion e))
    (h : Reach pool Live R (fun _ => True) s a) (hbase : R.1 ≠ 0)
    (hsize : alignUp size R.2.2 ≠ 0) (haw : addr < word) :
    (Ensures oom (vmemAlloc pool s a size addr) (fun ret =>
        Served R.2.2 (alignUp size R.2.2) addr (segs a) (segs ret.2.1) ret.1 ∧
          (ret.1 = 0 → ret.2 = (a, s))) ↔
      (addr ≠ 0 → R.2.2 ∣ addr → ¬ Misled a (alignUp size R.2.2) addr)) ∧
    (R.1 + R.2.1 < word → ¬ Misled a (alignUp size R.2.2) addr) := by
  obtain ⟨gs, hk⟩ := reach_kept hpool h
  obtain rfl := hk.extent
  have hready := hk.ready
  obtain ⟨hdvd, -⟩ := hready.alignUp_facts size
  have hb : a.base ≠ 0 := hbase
  refine ⟨?_, not_misled_below hready⟩
  rw [show segs a = gs from hready.whole.segs]
  by_cases haddr : a.quantum ∣ addr
  · cases hfit : fitAlloc a (alignUp size a.quantum) addr with
    | none =>
      obtain ⟨hserved, hnot⟩ := served_none hk hdvd haddr haw hfit
      refine ⟨fun _ h0 _ => hnot h0, fun _ => ?_⟩
      exact Ensures.of_eq (vmemAlloc_none hready haddr hfit)
        ⟨hready.whole.segs.symm ▸ hserved, fun _ => rfl⟩
    | some ret =>
      obtain ⟨v, i, x⟩ := ret
      obtain ⟨hx, -⟩ := fitAlloc_some hfit
      obtain ⟨hxl, -, hf, -⟩ := (hready.whole.views.free i x).1 hx
      have hlt := hk.free_lt (hready.segment hxl) hf
      by_cases hr : addr ≠ 0 → v = addr
      · refine ⟨fun _ h0 _ hm => (fitAlloc_asked hk hdvd haddr haw h0 hfit).2 hm (hr h0),
          fun _ => ?_⟩
        refine (vmemAlloc_taken hpool hready haddr haw hfit hlt hr).imp fun ret hret => ?_
        obtain ⟨A, B, rfl, hplaced, hret, -, hwhole⟩ := hret
        have hv : v ≠ 0 := by
          have h1 := hplaced.le
          have h2 := (hready.bounds hxl).1
          omega
        rw [hwhole.segs, hret]
        exact ⟨served_taken hplaced hready.region.pos rfl hv, fun h0 => (hv h0).elim⟩
      · obtain ⟨h0, hne⟩ := not_forall.1 hr
        have hm := (fitAlloc_asked hk hdvd haddr haw h0 hfit).1 hne
        rw [vmemAlloc_asserts hready haddr h0 hfit hne]
        exact ⟨fun he => (hoom _ he).elim, fun hno => (hno h0 haddr hm).elim⟩
  · refine ⟨fun _ _ hd => (haddr hd).elim, fun _ => ?_⟩
    exact Ensures.of_eq (vmemAlloc_misaligned hready size haddr)
      ⟨hready.whole.segs.symm ▸ served_misaligned haddr, fun _ => rfl⟩

theorem exact_two_pages : ∃ a s, session (4096, 16384, 4096) [.alloc 4096 8192] = .ok (a, s) ∧
    Ensures (fun _ => False) (vmemAlloc evenAddresses s a 8192 0) fun ret =>
      Served 4096 8192 0 (segs a) (segs ret.2.1) ret.1 ∧ (ret.1 = 0 → ret.2 = (a, s)) := by
  obtain ⟨a, s, hrun, hreach, -⟩ := session_reach [.alloc 4096 8192] (fun _ => True)
    [⟨false, 4096, 4096⟩, ⟨true, 8192, 4096⟩, ⟨false, 12288, 8192⟩] fourPages
    (by decide) (by decide +kernel)
  exact ⟨a, s, hrun, (vmem_alloc_exact evenAddresses_lawful (fun _ he => he) hreach (by decide)
    (by decide) (by decide)).1.2 fun h0 => (h0 rfl).elim⟩

def kernelRange : ℕ × ℕ × ℕ := (0xffff800000000000, 0x800000000000, 4096)

theorem kernel_region : Region kernelRange :=
  ⟨⟨12, by decide, by decide⟩, by decide, by decide, by decide, by decide⟩

/-- A request for one page at the start of the range, which is taken, stops the kernel. -/
theorem fixed_request_asserts : ∃ a s,
    Reach evenAddresses EvenLive kernelRange (fun _ => True) s a ∧
    segs a = [⟨true, 0xffff800000000000, 0x7ffffffff000⟩, ⟨false, 0xfffffffffffff000, 4096⟩] ∧
    vmemAlloc evenAddresses s a 4096 0xffff800000000000 =
      .error (.assertion "ret.addr == addr") := by
  let calls : List Call := [.alloc 0x7ffffffff000 0xffff800000000000]
  obtain ⟨a, s, hrun, hreach, hsegs⟩ := session_reach calls (fun _ => True)
    [⟨true, 0xffff800000000000, 0x7ffffffff000⟩, ⟨false, 0xfffffffffffff000, 4096⟩]
    kernel_region (by decide) (by decide +kernel)
  have heval : ((session kernelRange calls).bind fun x =>
      (vmemAlloc evenAddresses x.2 x.1 4096 0xffff800000000000).map Prod.fst) =
      .error (.assertion "ret.addr == addr") := by decide +kernel
  rw [hrun] at heval
  refine ⟨a, s, hreach, hsegs, ?_⟩
  cases hres : vmemAlloc evenAddresses s a 4096 0xffff800000000000 with
  | error f =>
    simp only [Except.bind, hres, Except.map] at heval
    rw [Except.error.inj heval]
  | ok r => simp only [Except.bind, hres, Except.map, reduceCtorEq] at heval

end MemVmemSearch
