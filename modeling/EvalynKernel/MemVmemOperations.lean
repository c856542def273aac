import EvalynKernel.MemVmemInvariant

/-! # Splitting and joining segments

What the operations do, on the sequence of the segments: a held segment is cut in two, it
grows over a free neighbour, or it returns to the tree or to a free list. -/
namespace MemVmemOperations

open Function MachineWords DstructLlist DstructRbtree DstructRbtreeRuns IntervalTilings MemVmem
open MemVmemInvariant

variable {σ : Type}

/-- The slab allocator hands out nodes that are not in use, or stops with a fault that
`oom` allows; `Live` tells which nodes are in use. -/
structure Lawful (pool : SegmentAllocator σ) (oom : Fault → Prop) (Live : σ → Set ℕ → Prop) :
    Prop where
  malloc : ∀ {s L}, Live s L → Ensures oom (pool.malloc s) fun r =>
    r.1 ∉ L ∧ r.1 ≠ 0 ∧ r.1 % 2 = 0 ∧ Live r.2 (insert r.1 L)
  free : ∀ {s L x}, Live s L → x ∈ L → ∃ s', pool.free s x = .ok s' ∧ Live s' (L \ {x})

def segs (a : Allocator) : List Segment := a.segmentsList.map a.segments

def range (a : Allocator) : ℕ × ℕ × ℕ := (a.base, a.size, a.quantum)

structure Whole (Live : σ → Set ℕ → Prop) (s : σ) (a : Allocator) (gs : List Segment) : Prop where
  views : Views a []
  segs : segs a = gs
  live : Live s {y | y ∈ a.segmentsList}

structure Focus (Live : σ → Set ℕ → Prop) (s : σ) (a : Allocator) (as : List ℕ) (x : ℕ)
    (bs : List ℕ) : Prop where
  views : Views a [x]
  list : a.segmentsList = as ++ x :: bs
  live : Live s {y | y ∈ a.segmentsList}

variable {pool : SegmentAllocator σ} {oom : Fault → Prop} {Live : σ → Set ℕ → Prop}
  {s : σ} {a a' : Allocator} {as bs : List ℕ} {x y i : ℕ} {gs : List Segment}

section

variable (h : Focus Live s a as x bs)
include h

theorem Focus.nodup : x ∉ as ∧ x ∉ bs := by
  have hnd := h.views.nodup
  rw [h.list, List.nodup_append] at hnd
  exact ⟨fun hx => hnd.2.2 x hx x List.mem_cons_self rfl, (List.nodup_cons.1 hnd.2.1).1⟩

theorem Focus.mem : x ∈ a.segmentsList := by simp [h.list]

theorem Focus.prepend : llistNodePrepend x y a.segmentsList = as ++ y :: x :: bs := by
  rw [h.list, llistNodePrepend_middle h.nodup.1]

theorem Focus.segs : segs a = as.map a.segments ++ a.segments x :: bs.map a.segments := by
  simp [MemVmemOperations.segs, h.list]

end

theorem Whole.detachFree (h : Whole Live s a gs) (hx : x ∈ a.freelists i) :
    ∃ as bs, Focus Live s (vmemFlistDel a x i) as x bs ∧ (a.segments x).allocated = false ∧
      gs = as.map a.segments ++ a.segments x :: bs.map a.segments := by
  obtain ⟨hxl, -, hxf, -⟩ := (h.views.free i x).1 hx
  obtain ⟨as, bs, hlist⟩ := List.append_of_mem hxl
  refine ⟨as, bs, ⟨h.views.detachFree hx, hlist, h.live⟩, hxf, ?_⟩
  rw [← h.segs, MemVmemOperations.segs, hlist]
  simp

theorem Whole.detachTree (h : Whole Live s a gs) (hx : x ∈ a.segmentsList)
    (halloc : (a.segments x).allocated = true) :
    ∃ r t as bs, rbtreeRemove a.segmentsList.length a.tree x = .ok (r, t) ∧
      Focus Live s (a.setTree t) as x bs ∧
      gs = as.map a.segments ++ a.segments x :: bs.map a.segments := by
  obtain ⟨r, t, hok, hviews⟩ := h.views.detachTree hx (by simp) halloc
  obtain ⟨as, bs, hlist⟩ := List.append_of_mem hx
  refine ⟨r, t, as, bs, hok, ⟨hviews, hlist, h.live⟩, ?_⟩
  rw [← h.segs, MemVmemOperations.segs, hlist]
  simp

section

variable (h : Focus Live s a as x bs)
include h

theorem Focus.attachFree (hfree : (a.segments x).allocated = false) :
    Whole Live s (vmemFlistAdd a x (log2ull (a.segments x).size))
      (as.map a.segments ++ a.segments x :: bs.map a.segments) :=
  ⟨h.views.attachFree h.mem (by simp) hfree rfl, h.segs, h.live⟩

theorem Focus.attachTree (halloc : (a.segments x).allocated = true) :
    ∃ t, rbtreeInsert a.segmentsList.length a.tree x = .ok t ∧
      Whole Live s (a.setTree t) (as.map a.segments ++ a.segments x :: bs.map a.segments) := by
  obtain ⟨t, hok, hviews⟩ := h.views.attachTree h.mem (by simp) halloc
  exact ⟨t, hok, hviews, h.segs, h.live⟩

theorem Focus.write (hroot : a'.root = a.root) (hlist : a'.segmentsList = a.segmentsList)
    (hfree : a'.freelists = a.freelists) (hbitmap : a'.bitmap = a.bitmap)
    (hsame : ∀ y, y ≠ x → a'.segments y = a.segments y ∧ a'.nodes y = a.nodes y)
    (hsize : (a'.segments x).size < word) : Focus Live s a' as x bs := by
  refine ⟨h.views.relist hroot hfree hbitmap (fun y _ hy => hsame y (by simpa using hy))
    (fun y => by rw [hlist]) (hlist ▸ h.views.nodup) (hlist ▸ h.views.real) fun y hy => ?_,
    hlist.trans h.list, hlist ▸ h.live⟩
  by_cases hyx : y = x
  · rwa [hyx]
  · rw [(hsame y hyx).1]
    exact h.views.bounded y (hlist ▸ hy)

end

structure Carved (Live : σ → Set ℕ → Prop) (s : σ) (a a' : Allocator) (as : List ℕ) (x y : ℕ)
    (bs : List ℕ) (g k : Segment) : Prop where
  views : Views a' [y, x]
  live : Live s {z | z ∈ a'.segmentsList}
  new : a'.segments y = g
  rest : a'.segments x = k
  before : as.map a'.segments = as.map a.segments
  after : bs.map a'.segments = bs.map a.segments
  ne : y ≠ x

theorem Carved.segs (h : Carved Live s a a' as x y bs g k)
    (hlist : a'.segmentsList = as ++ y :: x :: bs) :
    segs a' = as.map a.segments ++ g :: k :: bs.map a.segments := by
  simp [MemVmemOperations.segs, hlist, h.before, h.new, h.rest, h.after]

def cutOff (a : Allocator) (l : List ℕ) (nodes : ℕ → Node) (x y : ℕ) (g k : Segment) : Allocator :=
  { a with
    segmentsList := l
    nodes
    segments := Function.update (Function.update a.segments y g) x k }

theorem Focus.carve (h : Focus Live s a as x bs) (hy : y ∉ a.segmentsList)
    (hreal : y ≠ 0 ∧ y % 2 = 0) (hlive : Live s' (insert y {z | z ∈ a.segmentsList}))
    (hperm : l.Perm (y :: (as ++ x :: bs))) (hnodes : ∀ z, z ≠ x → z ≠ y → nodes z = a.nodes z)
    (hg : g.size < word) (hk : k.size < word) :
    Carved Live s' a (cutOff a l nodes x y g k) as x y bs g k := by
  rw [← h.list] at hperm
  let a' := cutOff a l nodes x y g k
  have hmem : ∀ z, z ∈ a'.segmentsList ↔ z = y ∨ z ∈ a.segmentsList := fun z =>
    hperm.mem_iff.trans List.mem_cons
  have hyx : y ≠ x := fun heq => hy (heq ▸ h.mem)
  have hx : a'.segments x = k := update_self ..
  have hnew : a'.segments y = g :=
    (update_of_ne hyx ..).trans (update_self ..)
  have hsame : ∀ z, z ≠ x → z ≠ y → a'.segments z = a.segments z := fun z hzx hzy =>
    (update_of_ne hzx ..).trans (update_of_ne hzy ..)
  have hlist : ∀ z, z ∈ as ++ bs → a'.segments z = a.segments z := by
    intro z hz
    have hzl : z ∈ a.segmentsList := by
      rw [h.list]
      simp only [List.mem_append, List.mem_cons] at hz ⊢
      tauto
    refine hsame z (fun heq => ?_) (ne_of_mem_of_not_mem hzl hy)
    rcases List.mem_append.1 hz with hz | hz
    · exact h.nodup.1 (heq ▸ hz)
    · exact h.nodup.2 (heq ▸ hz)
  refine ⟨h.views.relist rfl rfl rfl (fun z hz hzx => ?_) (fun z => ?_) ?_ ?_ fun z hz => ?_,
    ?_, hnew, hx, List.map_congr_left fun z hz => hlist z (List.mem_append_left _ hz),
    List.map_congr_left fun z hz => hlist z (List.mem_append_right _ hz), hyx⟩
  · have hzx' : z ≠ x := by simpa using hzx
    have hzy := ne_of_mem_of_not_mem hz hy
    exact ⟨hsame z hzx' hzy, hnodes z hzx' hzy⟩
  · rw [show z ∈ a'.segmentsList ↔ _ from hmem z]
    simp only [List.mem_cons, List.not_mem_nil, or_false, not_or]
    constructor
    · tauto
    · rintro ⟨hz, hzx⟩
      exact ⟨.inr hz, ne_of_mem_of_not_mem hz hy, hzx⟩
  · exact hperm.nodup_iff.2 (List.nodup_cons.2 ⟨hy, h.views.nodup⟩)
  · intro z hz
    rcases (hmem z).1 hz with rfl | hz
    · exact hreal
    · exact h.views.real z hz
  · by_cases hzx : z = x
    · rwa [hzx, hx]
    by_cases hzy : z = y
    · rwa [hzy, hnew]
    · rw [hsame z hzx hzy]
      exact h.views.bounded z (((hmem z).1 hz).resolve_left hzy)
  · convert hlive using 1
    ext z
    exact hmem z

/-- The allocator of range `R` holds segment `x`, which is `g` between the segments `A` and
the segments `B`. -/
def Held (Live : σ → Set ℕ → Prop) (s : σ) (a : Allocator) (x : ℕ) (R : ℕ × ℕ × ℕ)
    (A : List Segment) (g : Segment) (B : List Segment) : Prop :=
  ∃ as bs, Focus Live s a as x bs ∧ as.map a.segments = A ∧ a.segments x = g ∧
    bs.map a.segments = B ∧ range a = R

section Splits

variable {R : ℕ × ℕ × ℕ} {A B : List Segment} {g h k : Segment} {addr : ℕ}

theorem Held.setSegment (hh : Held Live s a x R A g B) (hk : k.size < word) :
    Held Live s (a.setSegment x k) x R A k B := by
  obtain ⟨as, bs, hf, rfl, -, rfl, rfl⟩ := hh
  have hother : ∀ y, y ≠ x → (a.setSegment x k).segments y = a.segments y :=
    fun y hy => update_of_ne hy ..
  have hself : (a.setSegment x k).segments x = k := update_self ..
  refine ⟨as, bs, hf.write rfl rfl rfl rfl (fun y hy => ⟨hother y hy, rfl⟩) ?_, ?_, hself, ?_, rfl⟩
  · rwa [hself]
  · exact List.map_congr_left fun y hy => hother y (ne_of_mem_of_not_mem hy hf.nodup.1)
  · exact List.map_congr_left fun y hy => hother y (ne_of_mem_of_not_mem hy hf.nodup.2)

theorem Held.release (hh : Held Live s a x R A g B) (hg : g.allocated = false) (n : Node) :
    Whole Live s (vmemFlistAdd (a.setNode x n) x (log2ull g.size)) (A ++ g :: B) ∧
      range (vmemFlistAdd (a.setNode x n) x (log2ull g.size)) = R := by
  obtain ⟨as, bs, hf, rfl, rfl, rfl, rfl⟩ := hh
  have hf' : Focus Live s (a.setNode x n) as x bs :=
    hf.write rfl rfl rfl rfl (fun y hy => ⟨rfl, update_of_ne hy ..⟩)
      (hf.views.bounded x hf.mem)
  exact ⟨hf'.attachFree hg, rfl⟩

theorem newSegment_spec (hpool : Lawful pool oom Live) (hlive : Live s L) (a : Allocator)
    (g : Segment) :
    Ensures oom (newSegment pool s a g) fun r =>
      ∃ y s', r = (y, (a.setNode y ⟨0, 0, 0⟩).setSegment y g, s') ∧ y ∉ L ∧
        (y ≠ 0 ∧ y % 2 = 0) ∧ Live s' (insert y L) :=
  (hpool.malloc hlive).bind fun r hr => ⟨r.1, r.2, rfl, hr.1, ⟨hr.2.1, hr.2.2.1⟩, hr.2.2.2⟩

theorem perm_before (as bs : List ℕ) (x y : ℕ) :
    (as ++ y :: x :: bs).Perm (y :: (as ++ x :: bs)) := List.perm_middle

theorem Focus.carveBefore (hf : Focus Live s a as x bs) (hy : y ∉ a.segmentsList)
    (hreal : y ≠ 0 ∧ y % 2 = 0) (hlive : Live s' (insert y {z | z ∈ a.segmentsList}))
    (g k : Segment) (hg : g.size < word) (hk : k.size < word) :
    Carved Live s' a (cutOff a (as ++ y :: x :: bs) (update a.nodes y ⟨0, 0, 0⟩) x y g k)
      as x y bs g k :=
  hf.carve hy hreal hlive (perm_before as bs x y) (fun _ _ hzy => update_of_ne hzy ..) hg hk

theorem allocSplitLeft_spec (hpool : Lawful pool oom Live) (hh : Held Live s a x R A g B)
    (hlo : g.base ≤ addr) (hhi : addr - g.base ≤ g.size) (haddr : addr < word)
    (hgap : g.base ≠ addr → R.2.2 ≤ addr - g.base) :
    Ensures oom (allocSplitLeft pool s a x addr) fun r =>
      Held Live r.2 r.1 x R
        (A ++ if g.base = addr then [] else [⟨false, g.base, addr - g.base⟩])
        ⟨g.allocated, addr, g.size - (addr - g.base)⟩ B := by
  obtain ⟨as, bs, hf, rfl, rfl, rfl, rfl⟩ := hh
  have hsub : wsub addr (a.segments x).base = addr - (a.segments x).base := wsub_of_le hlo haddr
  have hsize := hf.views.bounded x hf.mem
  simp only [allocSplitLeft, hsub]
  by_cases hbase : (a.segments x).base = addr
  · rw [if_neg (by simp [hbase])]
    refine ⟨as, bs, hf, by simp [hbase], ?_, rfl, rfl⟩
    rw [← hbase, Nat.sub_self, Nat.sub_zero]
  · rw [if_pos ⟨hbase, hgap hbase⟩, if_neg hbase]
    refine (newSegment_spec hpool hf.live a _).bind ?_
    rintro _ ⟨y, s₁, rfl, hy, hreal, hlive⟩
    have hc := hf.carveBefore hy hreal hlive
      ⟨false, (a.segments x).base, addr - (a.segments x).base⟩
      ⟨(a.segments x).allocated, addr, (a.segments x).size - (addr - (a.segments x).base)⟩
      (lt_of_le_of_lt hhi hsize) (lt_of_le_of_lt (Nat.sub_le _ _) hsize)
    have hviews := hc.views.attachFree (by simp [cutOff]) (by simp [hc.ne]) (by rw [hc.new])
      (congrArg (fun g => log2ull g.size) hc.new)
    have hk : wsub (a.segments x).size (addr - (a.segments x).base) =
      (a.segments x).size - (addr - (a.segments x).base) := wsub_of_le hhi hsize
    simp only [Allocator.setSegment, Allocator.setNode, vmemFlistAdd, hf.prepend, update_self,
      hk]
    refine ⟨as ++ [y], bs, ⟨hviews, ?_, hc.live⟩, ?_, hc.rest, hc.after, rfl⟩
    · simp
    · rw [List.map_append]
      exact congrArg₂ (· ++ ·) hc.before (congrArg (fun z => [z]) hc.new)

theorem swap_held (h : Views a [y, x]) : Views a [x, y] :=
  h.relist rfl rfl rfl (fun _ _ _ => ⟨rfl, rfl⟩)
    (fun z => by simp only [List.mem_cons, List.not_mem_nil, or_false]; tauto)
    h.nodup h.real h.bounded

def taken (q size : ℕ) (g : Segment) : List Segment :=
  if g.size ≠ size ∧ q ≤ g.size - size then
    [⟨true, g.base, size⟩, ⟨false, g.base + size, g.size - size⟩]
  else [⟨true, g.base, g.size⟩]

theorem allocTake_spec (hpool : Lawful pool oom Live) (hh : Held Live s a x R A g B)
    (hsize : size ≤ g.size) (htop : g.base + g.size ≤ word) :
    Ensures oom (allocTake pool s a x size) fun r =>
      r.1 = g.base ∧ range r.2.1 = R ∧
        Whole Live r.2.2 r.2.1 (A ++ taken R.2.2 size g ++ B) := by
  obtain ⟨as, bs, hf, rfl, rfl, rfl, rfl⟩ := hh
  have hword := hf.views.bounded x hf.mem
  have hsub : wsub (a.segments x).size size = (a.segments x).size - size := wsub_of_le hsize hword
  have hq : (range a).2.2 = a.quantum := rfl
  simp only [allocTake, hsub, taken, hq]
  by_cases hcond : (a.segments x).size ≠ size ∧ a.quantum ≤ (a.segments x).size - size
  · have hadd : wadd (a.segments x).base size = (a.segments x).base + size :=
      wadd_of_lt (by omega)
    rw [if_pos hcond, if_pos hcond, hadd]
    refine (newSegment_spec hpool hf.live a _).bind ?_
    rintro _ ⟨y, s₁, rfl, hy, hreal, hlive⟩
    let n : Node := ⟨0, 0, (update a.nodes y ⟨0, 0, 0⟩ x).right⟩
    have hnodes : ∀ z, z ≠ x → z ≠ y →
        update (update a.nodes y ⟨0, 0, 0⟩) x n z = a.nodes z := fun z hzx hzy =>
      (update_of_ne hzx ..).trans (update_of_ne hzy ..)
    have hc := hf.carve (g := ⟨true, (a.segments x).base, size⟩)
      (k := ⟨false, (a.segments x).base + size, (a.segments x).size - size⟩) hy hreal hlive
      (perm_before as bs x y) hnodes (lt_of_le_of_lt hsize hword)
      (lt_of_le_of_lt (Nat.sub_le _ _) hword)
    have hviews := (swap_held hc.views).attachFree (by simp [cutOff]) (by simp [hc.ne.symm])
      (by rw [hc.rest]) (congrArg (fun g => log2ull g.size) hc.rest)
    obtain ⟨t, hok, hviews'⟩ := hviews.attachTree (x := y) (by simp [vmemFlistAdd, cutOff])
      (by simp)
      (congrArg Segment.allocated hc.new)
    simp only [Allocator.setSegment, Allocator.setNode, hf.prepend, update_self]
    refine Ensures.ok_bind hok ?_
    have hbase := congrArg Segment.base hc.new
    exact ⟨hbase, rfl, hviews', (hc.segs rfl).trans (by simp), hc.live⟩
  · rw [if_neg hcond, if_neg hcond]
    let a₁ : Allocator :=
      (a.setSegment x ⟨true, (a.segments x).base, (a.segments x).size⟩).setNode x ⟨0, 0, 0⟩
    have hself : a₁.segments x = ⟨true, (a.segments x).base, (a.segments x).size⟩ :=
      update_self ..
    have hother : ∀ y, y ≠ x → a₁.segments y = a.segments y := fun y hy => update_of_ne hy ..
    have hf₁ : Focus Live s a₁ as x bs := by
      refine hf.write rfl rfl rfl rfl (fun y hy => ⟨hother y hy, update_of_ne hy ..⟩) ?_
      rw [hself]
      exact hword
    obtain ⟨t, hok, hwhole⟩ := hf₁.attachTree (by rw [hself])
    refine Ensures.ok_bind hok ?_
    have hbase : (a₁.segments x).base = (a.segments x).base := by rw [hself]
    refine ⟨hbase, rfl, ?_⟩
    rw [hself, List.map_congr_left fun y hy => hother y (ne_of_mem_of_not_mem hy hf.nodup.1),
      List.map_congr_left fun y hy => hother y (ne_of_mem_of_not_mem hy hf.nodup.2)] at hwhole
    rw [List.append_assoc, List.singleton_append]
    exact hwhole

theorem perm_after (as bs : List ℕ) (x y : ℕ) :
    (as ++ x :: y :: bs).Perm (y :: (as ++ x :: bs)) :=
  ((List.Perm.swap y x bs).append_left as).trans List.perm_middle

theorem freeSplitLeft_spec (hpool : Lawful pool oom Live) (hh : Held Live s a x R A g B)
    (hlo : g.base ≤ cur) (hhi : cur - g.base ≤ g.size) (hcur : cur < word) :
    Ensures oom (freeSplitLeft pool s a x cur) fun r =>
      Held Live r.2 r.1 x R (A ++ if g.base < cur then [⟨true, g.base, cur - g.base⟩] else [])
        ⟨g.allocated, cur, g.size - (cur - g.base)⟩ B := by
  obtain ⟨as, bs, hf, rfl, rfl, rfl, rfl⟩ := hh
  have hsub : wsub cur (a.segments x).base = cur - (a.segments x).base := wsub_of_le hlo hcur
  have hsize := hf.views.bounded x hf.mem
  simp only [freeSplitLeft, hsub]
  by_cases hlt : (a.segments x).base < cur
  · rw [if_pos hlt, if_pos hlt]
    refine (newSegment_spec hpool hf.live a _).bind ?_
    rintro _ ⟨y, s₁, rfl, hy, hreal, hlive⟩
    have hc := hf.carveBefore hy hreal hlive ⟨true, (a.segments x).base, cur - (a.segments x).base⟩
      ⟨(a.segments x).allocated, cur, (a.segments x).size - (cur - (a.segments x).base)⟩
      (lt_of_le_of_lt hhi hsize) (lt_of_le_of_lt (Nat.sub_le _ _) hsize)
    obtain ⟨t, hok, hviews⟩ := hc.views.attachTree (x := y) (by simp [cutOff]) (by simp [hc.ne])
      (congrArg Segment.allocated hc.new)
    have hk : wsub (a.segments x).size (cur - (a.segments x).base) =
      (a.segments x).size - (cur - (a.segments x).base) := wsub_of_le hhi hsize
    simp only [Allocator.setSegment, Allocator.setNode, hf.prepend, update_self, hk]
    refine Ensures.ok_bind hok ?_
    refine ⟨as ++ [y], bs, ⟨hviews, by simp [Allocator.setTree], hc.live⟩, ?_, hc.rest, hc.after,
      rfl⟩
    rw [List.map_append]
    exact congrArg₂ (· ++ ·) hc.before (congrArg (fun z => [z]) hc.new)
  · rw [if_neg hlt, if_neg hlt]
    have heq : (a.segments x).base = cur := by omega
    refine ⟨as, bs, hf, by simp, ?_, rfl, rfl⟩
    rw [← heq, Nat.sub_self, Nat.sub_zero]

theorem freeSplitRight_spec (hpool : Lawful pool oom Live) (hh : Held Live s a x R A g B)
    (hword : segEnd < word) (hlo : g.base ≤ endAddr) :
    Ensures oom (freeSplitRight pool s a x segEnd endAddr) fun r =>
      Held Live r.2 r.1 x R A
        ⟨g.allocated, g.base, if endAddr < segEnd then endAddr - g.base else g.size⟩
        ((if endAddr < segEnd then [⟨true, endAddr, segEnd - endAddr⟩] else []) ++ B) := by
  obtain ⟨as, bs, hf, rfl, rfl, rfl, rfl⟩ := hh
  by_cases hlt : endAddr < segEnd
  · have hsub : wsub segEnd endAddr = segEnd - endAddr := wsub_of_le hlt.le hword
    simp only [freeSplitRight, hsub]
    rw [if_pos hlt, if_pos hlt, if_pos hlt]
    refine (newSegment_spec hpool hf.live a _).bind ?_
    rintro _ ⟨y, s₁, rfl, hy, hreal, hlive⟩
    have hnodes : ∀ z, z ≠ x → z ≠ y → update a.nodes y ⟨0, 0, 0⟩ z = a.nodes z :=
      fun z _ hzy => update_of_ne hzy ..
    have hc := hf.carve (g := ⟨true, endAddr, segEnd - endAddr⟩)
      (k := ⟨(a.segments x).allocated, (a.segments x).base, endAddr - (a.segments x).base⟩) hy hreal
      hlive (perm_after as bs x y) hnodes (lt_of_le_of_lt (Nat.sub_le _ _) hword)
      (lt_of_le_of_lt (Nat.sub_le _ _) (hlt.trans hword))
    obtain ⟨t, hok, hviews⟩ := hc.views.attachTree (x := y) (by simp [cutOff]) (by simp [hc.ne])
      (congrArg Segment.allocated hc.new)
    have happend : llistNodeAppend x y a.segmentsList = as ++ x :: y :: bs := by
      rw [hf.list, llistNodeAppend_middle hf.nodup.1]
    have hk : wsub endAddr (a.segments x).base = endAddr - (a.segments x).base :=
      wsub_of_le hlo (hlt.trans hword)
    simp only [Allocator.setSegment, Allocator.setNode, happend, update_of_ne hc.ne.symm, hk]
    refine Ensures.ok_bind hok ?_
    refine ⟨as, y :: bs, ⟨hviews, by simp [Allocator.setTree], hc.live⟩, hc.before, hc.rest, ?_,
      rfl⟩
    rw [List.map_cons, List.singleton_append]
    exact congrArg₂ List.cons hc.new hc.after
  · simp only [freeSplitRight]
    rw [if_neg hlt, if_neg hlt, if_neg hlt]
    exact ⟨as, bs, hf, rfl, rfl, rfl, rfl⟩

end Splits

section Joins

variable {R : ℕ × ℕ × ℕ} {A B : List Segment} {g k : Segment} {p : ℕ} {as' bs' : List ℕ}

def absorb (a : Allocator) (x p : ℕ) (k : Segment) : Allocator :=
  { vmemFlistDel a p (log2ull (a.segments p).size) with
    segmentsList := a.segmentsList.erase p }.setSegment x k

theorem Focus.absorb (hf : Focus Live s a as x bs) (hp : p ∈ a.segmentsList) (hne : p ≠ x)
    (hfree : (a.segments p).allocated = false) (herase : a.segmentsList.erase p = as' ++ x :: bs')
    (hk : k.size < word) (hlive : Live s' ({y | y ∈ a.segmentsList} \ {p})) :
    Focus Live s' (absorb a x p k) as' x bs' := by
  have hmem : p ∈ a.freelists (log2ull (a.segments p).size) :=
    (hf.views.free _ p).2 ⟨hp, by simpa using hne, hfree, rfl⟩
  have hviews := hf.views.detachFree hmem
  have hnd := hf.views.nodup
  have hin : ∀ y, y ∈ a.segmentsList.erase p ↔ y ≠ p ∧ y ∈ a.segmentsList := fun y =>
    hnd.mem_erase_iff
  refine ⟨hviews.relist rfl rfl rfl (fun y _ hy => ⟨?_, rfl⟩) (fun y => ?_) (hnd.erase p) ?_ ?_,
    herase, ?_⟩
  · simp only [List.mem_cons, List.not_mem_nil, or_false, not_or] at hy
    exact update_of_ne hy.2 ..
  · change y ∈ a.segmentsList.erase p ∧ _ ↔ y ∈ a.segmentsList ∧ _
    rw [hin y]
    simp only [List.mem_cons, List.not_mem_nil, or_false, not_or]
    tauto
  · exact fun y hy => hf.views.real y ((hin y).1 hy).2
  · intro y hy
    change (update a.segments x k y).size < word
    by_cases hyx : y = x
    · rw [hyx, update_self]
      exact hk
    · rw [update_of_ne hyx]
      exact hf.views.bounded y ((hin y).1 hy).2
  · convert hlive using 1
    ext y
    exact (hin y).trans and_comm

theorem Focus.join (hpool : Lawful pool oom Live) (hf : Focus Live s a as x bs)
    (hp : p ∈ a.segmentsList) (hne : p ≠ x) (hfree : (a.segments p).allocated = false)
    (herase : a.segmentsList.erase p = as' ++ x :: bs') (hk : k.size < word) :
    ∃ s', pool.free s p = .ok s' ∧ Held Live s' (MemVmemOperations.absorb a x p k) x (range a)
      (as'.map a.segments) k (bs'.map a.segments) := by
  obtain ⟨s', hok, hlive⟩ := hpool.free hf.live hp
  have hf' := hf.absorb hp hne hfree herase hk hlive
  have hmap : ∀ l : List ℕ, x ∉ l →
      l.map (MemVmemOperations.absorb a x p k).segments = l.map a.segments := fun l hx =>
    List.map_congr_left fun _ hy => update_of_ne (ne_of_mem_of_not_mem hy hx) ..
  exact ⟨s', hok, as', bs', hf', hmap as' hf'.nodup.1, update_self .., hmap bs' hf'.nodup.2,
    rfl⟩

/-- The result of looking at the segment before the held one: it is allocated, or it was
free and the held segment starts where it did. -/
inductive LeftJoin (A : List Segment) (g : Segment) : List Segment → Segment → Prop
  | stay : (∀ p ∈ A.getLast?, p.allocated = true) → LeftJoin A g A g
  | join {A' p} : A = A' ++ [p] → p.allocated = false →
      LeftJoin A g A' ⟨g.allocated, p.base, g.size + p.size⟩

theorem coalesceLeft_spec (hpool : Lawful pool oom Live) (hh : Held Live s a x R A g B)
    (htiles : Tiles Segment.base Segment.size lo hi (A ++ g :: B)) (hhi : hi ≤ word)
    (hspan : hi - lo < word) (hg : 0 < g.size) :
    ∃ s' a' A' g', coalesceLeft pool s a x = .ok (a', s') ∧ Held Live s' a' x R A' g' B ∧
      LeftJoin A g A' g' := by
  obtain ⟨as, bs, hf, rfl, rfl, rfl, rfl⟩ := hh
  have hprev : llistPrev x a.segmentsList = as.getLastD 0 := by
    rw [hf.list]
    exact llistPrev_middle hf.nodup.1 hf.nodup.2
  rcases List.eq_nil_or_concat' as with rfl | ⟨as, p, rfl⟩
  · refine ⟨s, a, [], a.segments x, ?_, ⟨[], bs, hf, rfl, rfl, rfl, rfl⟩, .stay (by simp)⟩
    simp only [coalesceLeft, hprev]
    rfl
  · have hlist : a.segmentsList = as ++ p :: x :: bs := by simp [hf.list]
    have hnd := hf.views.nodup
    rw [hlist] at hnd
    have hpmem : p ∈ a.segmentsList := by simp [hlist]
    have hpx : x ≠ p := fun heq => hf.nodup.1 (by simp [heq])
    rw [List.getLastD_concat] at hprev
    cases hpa : (a.segments p).allocated with
    | true =>
      refine ⟨s, a, _, a.segments x, ?_, ⟨as ++ [p], bs, hf, rfl, rfl, rfl, rfl⟩, .stay ?_⟩
      · simp only [coalesceLeft, hprev, hpa]
        rw [if_neg (by simp)]
        rfl
      · simp [hpa]
    | false =>
      rw [List.map_append, List.append_assoc, List.map_singleton, List.singleton_append,
        tiles_middle] at htiles
      have hlo := htiles.1.le
      obtain ⟨hjoin, hrest⟩ := htiles.2
      have hle := hrest.le
      have hsum : wadd (a.segments p).base (a.segments p).size = (a.segments x).base :=
        (wadd_of_lt (by omega)).trans hjoin.symm
      have hsize : wadd (a.segments x).size (a.segments p).size =
        (a.segments x).size + (a.segments p).size := wadd_of_lt (by omega)
      have herase : a.segmentsList.erase p = as ++ x :: bs := by
        rw [hlist, erase_middle hnd]
      obtain ⟨s', hok, hheld⟩ := hf.join (k := ⟨(a.segments x).allocated, (a.segments p).base,
        (a.segments x).size + (a.segments p).size⟩) hpool hpmem hpx.symm hpa herase
        (by dsimp only; omega)
      refine ⟨s', _, as.map a.segments, _, ?_, hheld, .join (by simp) hpa⟩
      have hcond : p ≠ 0 ∧ (a.segments p).allocated = false ∧
        wadd (a.segments p).base (a.segments p).size = (a.segments x).base :=
        ⟨(hf.views.real p hpmem).1, hpa, hsum⟩
      simp only [coalesceLeft, hprev]
      rw [if_pos hcond, hok, hsize]
      rfl

inductive RightJoin (g : Segment) (B : List Segment) : Segment → List Segment → Prop
  | stay : (∀ n ∈ B.head?, n.allocated = true) → RightJoin g B g B
  | join {n B'} : B = n :: B' → n.allocated = false →
      RightJoin g B ⟨g.allocated, g.base, g.size + n.size⟩ B'

theorem coalesceRight_spec (hpool : Lawful pool oom Live) (hh : Held Live s a x R A g B)
    (htiles : Tiles Segment.base Segment.size lo hi (A ++ g :: B)) (hhi : hi ≤ word)
    (hspan : hi - lo < word) (hB : ∀ n ∈ B, n.allocated = false → 0 < n.size) :
    ∃ s' a' g' B', coalesceRight pool s a x = .ok (a', s') ∧ Held Live s' a' x R A g' B' ∧
      RightJoin g B g' B' := by
  obtain ⟨as, bs, hf, rfl, rfl, rfl, rfl⟩ := hh
  have hnext : llistNext x a.segmentsList = bs.headD 0 := by
    rw [hf.list]
    exact llistNext_middle hf.nodup.1
  cases bs with
  | nil =>
    refine ⟨s, a, a.segments x, [], ?_, ⟨as, [], hf, rfl, rfl, rfl, rfl⟩, .stay (by simp)⟩
    simp only [coalesceRight, hnext]
    rfl
  | cons n bs =>
    rw [List.headD_cons] at hnext
    have hnd := hf.views.nodup
    have hsplit : a.segmentsList = (as ++ [x]) ++ n :: bs := by simp [hf.list]
    rw [hsplit] at hnd
    have hnmem : n ∈ a.segmentsList := by simp [hsplit]
    have hnx : n ≠ x := fun heq => hf.nodup.2 (by simp [heq])
    cases hna : (a.segments n).allocated with
    | true =>
      refine ⟨s, a, a.segments x, _, ?_, ⟨as, n :: bs, hf, rfl, rfl, rfl, rfl⟩, .stay ?_⟩
      · simp only [coalesceRight, hnext, hna]
        rw [if_neg (by simp)]
        rfl
      · simp [hna]
    | false =>
      obtain ⟨hA, hjoin, hrest⟩ := tiles_middle.1 htiles
      have hlo := hA.le
      have hle := hrest.le
      have hpos := hB (a.segments n) (by simp) hna
      have hsum : wadd (a.segments x).base (a.segments x).size = (a.segments n).base :=
        (wadd_of_lt (by omega)).trans hjoin.symm
      have hsize : wadd (a.segments x).size (a.segments n).size =
        (a.segments x).size + (a.segments n).size := wadd_of_lt (by omega)
      have herase : a.segmentsList.erase n = as ++ x :: bs := by
        rw [hsplit, erase_middle hnd]
        simp
      obtain ⟨s', hok, hheld⟩ := hf.join (k := ⟨(a.segments x).allocated, (a.segments x).base,
        (a.segments x).size + (a.segments n).size⟩) hpool hnmem hnx hna herase
        (by dsimp only; omega)
      refine ⟨s', _, _, bs.map a.segments, ?_, hheld, .join rfl hna⟩
      have hcond : n ≠ 0 ∧ (a.segments n).allocated = false ∧
        wadd (a.segments x).base (a.segments x).size = (a.segments n).base :=
        ⟨(hf.views.real n hnmem).1, hna, hsum⟩
      simp only [coalesceRight, hnext]
      rw [if_pos hcond, hok, hsize]
      rfl

end Joins

end MemVmemOperations
