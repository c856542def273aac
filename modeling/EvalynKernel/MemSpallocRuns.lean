import EvalynKernel.MemSpallocInvariant

/-! # Runs of the slab allocator

Each call keeps the invariant, whatever the owners of the objects write into them. -/
namespace MemSpallocRuns

open Function MachineWords DstructStack MemSpalloc MemSpallocInvariant

variable {shift objSize objAlign : ℕ} {a : Allocator} {hdr page obj i : ℕ} {s s' : State}

structure Fresh (shift : ℕ) (pages : List ℕ) (page : ℕ) : Prop where
  new : page ∉ pages
  aligned : 2 ^ shift ∣ page
  nonzero : page ≠ 0
  bounded : page + 2 ^ shift ≤ word

structure Inv (shift : ℕ) (a : Allocator) (s : State) : Prop where
  layout : s.alloc = { a with partialList := s.alloc.partialList }
  slab : Slab shift a s.headers s.next s.pages s.out
  listed : Listed s.headers s.pages s.alloc.partialList none

structure Filled (a : Allocator) (s : State) (hdr i : ℕ) (s' : State) : Prop where
  alloc : s'.alloc = s.alloc
  pages : s'.pages = s.pages
  out : s'.out = s.out
  magic : (s'.headers hdr).magic = (s.headers hdr).magic
  freecount : (s'.headers hdr).freecount = (s.headers hdr).freecount
  headers : ∀ q, q ≠ hdr → s'.headers q = s.headers q
  next : ∀ y, y ∉ objects a hdr → s'.next y = s.next y
  chain : Chain s'.next (s'.headers hdr).freeObjs ((List.range i).map (objectAt a hdr)).reverse

theorem fillPage_spec (hf : Fits shift objSize objAlign a)
    (hlayout : s.alloc = { a with partialList := s.alloc.partialList })
    (hempty : (s.headers hdr).freeObjs = 0) (hi : i ≤ a.objsPerPage) :
    Filled a s hdr i (fillPage s hdr i) := by
  induction i with
  | zero => exact ⟨rfl, rfl, rfl, rfl, rfl, fun _ _ => rfl, fun _ _ => rfl, hempty⟩
  | succ i ih =>
    have h := ih (by omega)
    have hat : hdr + (fillPage s hdr i).alloc.objOffset + i * (fillPage s hdr i).alloc.objStride =
        objectAt a hdr i := by
      rw [h.alloc, hlayout]
      rfl
    have hobj : objectAt a hdr i ∈ objects a hdr := mem_objects.mpr ⟨i, by omega, rfl⟩
    simp only [fillPage, hat]
    refine ⟨h.alloc, h.pages, h.out, ?_, ?_, fun q hq => ?_, fun y hy => ?_, ?_⟩
    · simpa [pushObj, State.setHeader] using h.magic
    · simpa [pushObj, State.setHeader] using h.freecount
    · simpa [pushObj, State.setHeader, hq] using h.headers q hq
    · have hne : y ≠ objectAt a hdr i := fun he => hy (he ▸ hobj)
      simpa [pushObj, State.setHeader, stackPush, hne] using h.next y hy
    · have hnew : objectAt a hdr i ∉ ((List.range i).map (objectAt a hdr)).reverse := by
        simp only [List.mem_reverse, List.mem_map, List.mem_range, not_exists, not_and]
        intro j hj he
        have := hf.objectAt_inj he
        omega
      have hpos : objectAt a hdr i ≠ 0 := by
        have := (hf.objectAt_bounds (i := i) (by omega) hdr).1
        simp only [headerSize] at this
        omega
      have := h.chain.push hpos hnew
      simpa [pushObj, State.setHeader, stackPush, List.range_succ] using this

structure Taken (shift : ℕ) (a : Allocator) (s : State) (hdr : ℕ) : Prop where
  layout : s.alloc = { a with partialList := s.alloc.partialList }
  slab : Slab shift a s.headers s.next s.pages s.out
  mem : hdr ∈ s.pages
  listed : Listed s.headers s.pages s.alloc.partialList (some hdr)
  free : 0 < (s.headers hdr).freecount

variable {headers : ℕ → PageHeader} {next : ℕ → ℕ} {pages out : List ℕ}

theorem Slab.fresh (hs : Slab shift a headers next pages out) (hf : Fits shift objSize objAlign a)
    (hp : Fresh shift pages page) (hother : ∀ q, q ≠ page → headers' q = headers q)
    (hnext : ∀ y, y ∉ objects a page → next' y = next y)
    (hst : ∃ free, Stacked a next' out page (headers' page) free) :
    Slab shift a headers' next' (page :: pages) out := by
  refine ⟨List.nodup_cons.mpr ⟨hp.new, hs.nodup⟩, ?_, ?_, ?_, ?_, hs.out_nodup, fun x hx => ?_⟩
  · exact List.forall_mem_cons.mpr ⟨hp.aligned, hs.aligned⟩
  · exact List.forall_mem_cons.mpr ⟨hp.nonzero, hs.nonzero⟩
  · exact List.forall_mem_cons.mpr ⟨hp.bounded, hs.bounded⟩
  · refine List.forall_mem_cons.mpr ⟨hst, fun q hq => ?_⟩
    have hqp : q ≠ page := fun he => hp.new (he ▸ hq)
    obtain ⟨free, hfree⟩ := hs.stacked q hq
    rw [hother q hqp]
    refine ⟨free, hfree.congr (fun y hy => hnext y ?_) fun _ _ => Iff.rfl⟩
    exact not_mem_objects hf (hs.aligned q hq) hp.aligned hqp ((hfree.mem y).mp hy).1
  · obtain ⟨q, hq, hxq⟩ := hs.owned x hx
    exact ⟨q, List.mem_cons_of_mem page hq, hxq⟩

section

variable (hf : Fits shift objSize objAlign a)
include hf

theorem takePage_new (h : s.alloc = { a with partialList := s.alloc.partialList })
    (hlist : s.alloc.partialList = []) (page : ℕ) :
    ∃ s', takePage (2 ^ shift) s page = .ok (page, s') ∧
      Filled a ({ s with pages := page :: s.pages }.setHeader page ⟨spallocMagic, a.objsPerPage, 0⟩)
        page a.objsPerPage s' := by
  have hper : s.alloc.objsPerPage = a.objsPerPage := by rw [h]
  refine ⟨_, ?_, fillPage_spec hf h (by simp [State.setHeader]) le_rfl⟩
  simp only [takePage, hlist, State.setHeader, hper]
  rfl

theorem takePage_spec (h : Inv shift a s)
    (hpage : s.alloc.partialList = [] → Fresh shift s.pages page) :
    ∃ hdr s', takePage (2 ^ shift) s page = .ok (hdr, s') ∧ s'.out = s.out ∧
      Taken shift a s' hdr := by
  cases hlist : s.alloc.partialList with
  | cons node rest =>
    obtain ⟨p, hp, -, rfl, hpos⟩ := (h.listed.mem node).mp (by simp [hlist])
    have hof := hf.page_of_linkage (h.slab.aligned p hp) (h.slab.bounded p hp)
    obtain ⟨free, hfree⟩ := h.slab.stacked p hp
    refine ⟨p, s.setPartial rest, ?_, rfl, ?_, h.slab, hp, ?_, hpos⟩
    · simp only [takePage, hlist, hof, kassert, hfree.magic]
      rfl
    · simp only [State.setPartial]
      rw [h.layout]
    · have hl := h.listed.erase p
      rw [hlist, List.erase_cons_head] at hl
      exact hl
  | nil =>
    have hp := hpage hlist
    obtain ⟨s', hcall, hfill⟩ := takePage_new hf h.layout hlist page
    have hhdr : (State.setHeader { s with pages := page :: s.pages } page
      ⟨spallocMagic, a.objsPerPage, 0⟩).headers page = _ := update_self ..
    have hheaders : ∀ q, q ≠ page → s'.headers q = s.headers q :=
      fun q hq => (hfill.headers q hq).trans (update_of_ne hq _ _)
    refine ⟨page, s', hcall, hfill.out, ?_, ?_, ?_, ?_, ?_⟩
    · rw [hfill.alloc]
      exact h.layout
    · rw [hfill.pages, hfill.out]
      refine Slab.fresh h.slab hf hp hheaders hfill.next ⟨_, ?_, hfill.chain, ?_, fun x => ?_, ?_⟩
      · rw [hfill.magic, hhdr]
      · exact List.nodup_reverse.mpr (hf.objects_nodup page)
      · rw [List.mem_reverse]
        refine ⟨fun hx => ⟨hx, fun hout => ?_⟩, And.left⟩
        obtain ⟨q, hq, hxq⟩ := h.slab.owned x hout
        have := hf.page_unique hp.aligned (h.slab.aligned q hq) hx hxq
        exact hp.new (this ▸ hq)
      · rw [hfill.freecount, hhdr]
        simp
    · rw [hfill.pages]
      exact List.mem_cons_self
    · rw [hfill.pages, hfill.alloc]
      exact h.listed.fresh hp.new hheaders
    · rw [hfill.freecount, hhdr]
      exact hf.count_pos

theorem takeObj_spec (h : Taken shift a s hdr) :
    (takeObj s hdr).1 ≠ 0 ∧ (takeObj s hdr).1 ∉ s.out ∧
      (takeObj s hdr).2.out = (takeObj s hdr).1 :: s.out ∧ Inv shift a (takeObj s hdr).2 := by
  obtain ⟨free, hfree⟩ := h.slab.stacked hdr h.mem
  cases free with
  | nil => exact absurd hfree.count h.free.ne'
  | cons x free =>
    obtain ⟨hpop, -⟩ := hfree.chain.pop
    have hx := (hfree.mem x).mp List.mem_cons_self
    have hcount : ((s.headers hdr).freecount + (2 ^ 16 - 1)) % 2 ^ 16 = free.length := by
      have hlen := hfree.length_le
      have := hf.count_lt
      have := hfree.count
      rw [List.length_cons] at this hlen
      omega
    have hslab : Slab shift a (update s.headers hdr
        ⟨(s.headers hdr).magic, free.length, s.next x⟩) s.next s.pages (x :: s.out) := by
      refine h.slab.update hf h.mem (fun _ _ => rfl) (fun y hy => ?_)
        (List.nodup_cons.mpr ⟨hx.2, h.slab.out_nodup⟩) hfree.pop
      have hyx : y ≠ x := fun he => hy (he ▸ hx.1)
      simp [hyx]
    simp only [takeObj, hpop, hcount]
    refine ⟨hfree.chain.2.1, hx.2, ?_, ?_⟩
    · split <;> rfl
    · split
      · rename_i hpos
        refine ⟨?_, hslab, h.listed.put h.mem hpos⟩
        simp only [State.setPartial, State.setHeader]
        rw [h.layout]
      · rename_i hpos
        exact ⟨h.layout, hslab, h.listed.leave (Nat.eq_zero_of_not_pos hpos)⟩

end

theorem spallocMalloc_eq (htake : takePage (2 ^ shift) s page = .ok (hdr, s₁)) :
    spallocMalloc (2 ^ shift) s page = .ok (takeObj s₁ hdr) := by
  rw [spallocMalloc, htake]
  rfl

theorem spallocMalloc_spec (hf : Fits shift objSize objAlign a) (h : Inv shift a s)
    (hpage : s.alloc.partialList = [] → Fresh shift s.pages page) :
    ∃ obj s', spallocMalloc (2 ^ shift) s page = .ok (obj, s') ∧ obj ≠ 0 ∧ obj ∉ s.out ∧
      s'.out = obj :: s.out ∧ Inv shift a s' := by
  obtain ⟨hdr, s₁, htake, hout, htaken⟩ := takePage_spec hf h hpage
  obtain ⟨hne, hnew, hout', hinv⟩ := takeObj_spec hf htaken
  rw [hout] at hnew hout'
  have hcall := spallocMalloc_eq htake
  generalize takeObj s₁ hdr = r at *
  exact ⟨r.1, r.2, hcall, hne, hnew, hout', hinv⟩

variable {free : List ℕ}

theorem Slab.drop (hs : Slab shift a headers next pages out)
    (hst : Stacked a next out hdr (headers hdr) free) (hall : free.length = a.objsPerPage) :
    Slab shift a headers next (pages.erase hdr) out := by
  have hsub : ∀ p ∈ pages.erase hdr, p ∈ pages := fun p hp => List.mem_of_mem_erase hp
  refine ⟨hs.nodup.erase hdr, fun p hp => hs.aligned p (hsub p hp),
    fun p hp => hs.nonzero p (hsub p hp), fun p hp => hs.bounded p (hsub p hp),
    fun p hp => hs.stacked p (hsub p hp), hs.out_nodup, fun x hx => ?_⟩
  obtain ⟨p, hp, hxp⟩ := hs.owned x hx
  refine ⟨p, hs.nodup.mem_erase_iff.mpr ⟨?_, hp⟩, hxp⟩
  rintro rfl
  exact hst.none_out hall hxp hx

/-- The state of `spalloc_free` after the push and the increment, `n` objects being free. -/
def freed (s : State) (p obj n : ℕ) : State :=
  { s with
    headers := Function.update s.headers p ⟨(s.headers p).magic, n, obj⟩
    next := Function.update s.next obj (s.headers p).freeObjs
    out := s.out.erase obj }

variable {p : ℕ}

theorem spallocFree_eq (hof : alignDown obj (2 ^ shift) = p)
    (hmagic : (s.headers p).magic = spallocMagic)
    (hcount : ((s.headers p).freecount + 1) % 2 ^ 16 = n) :
    spallocFree (2 ^ shift) s obj = .ok (
      if n = 1 then (freed s p obj n).setPartial (linkage p :: s.alloc.partialList)
      else if n = s.alloc.objsPerPage then
        { (freed s p obj n).setPartial (s.alloc.partialList.erase (linkage p)) with
          pages := s.pages.erase p }
      else freed s p obj n) := by
  have hheaders : ∀ h h', update (update s.headers p h) p h' =
      update s.headers p h' := fun h h' => update_idem h h' s.headers
  simp only [spallocFree, hof, hmagic, pushObj, stackPush, State.setHeader,
    update_self, hheaders, State.setPartial, freed, hcount, decide_true, kassert_true]
  by_cases hone : n = 1
  · simp only [if_pos hone]
    rfl
  · by_cases hall : n = s.alloc.objsPerPage
    · simp only [if_neg hone, if_pos hall]
      rfl
    · simp only [if_neg hone, if_neg hall]
      rfl

theorem freed_slab (hf : Fits shift objSize objAlign a) (h : Inv shift a s) (hp : p ∈ s.pages)
    (hxp : obj ∈ objects a p)
    (hst : Stacked a (update s.next obj (s.headers p).freeObjs) (s.out.erase obj) p
      ⟨(s.headers p).magic, free.length + 1, obj⟩ (obj :: free)) :
    Slab shift a (freed s p obj (free.length + 1)).headers (freed s p obj (free.length + 1)).next
      s.pages (s.out.erase obj) := by
  have hne : ∀ y, y ∉ objects a p → y ≠ obj := fun y hy he => hy (he ▸ hxp)
  refine h.slab.update hf hp (fun y hy => ?_) (fun y hy => ?_) (h.slab.out_nodup.erase obj) hst
  · exact update_of_ne (hne y hy) _ _
  · rw [h.slab.out_nodup.mem_erase_iff, and_iff_right (hne y hy)]

theorem spallocFree_spec (hf : Fits shift objSize objAlign a) (h : Inv shift a s)
    (hobj : obj ∈ s.out) :
    ∃ s', spallocFree (2 ^ shift) s obj = .ok s' ∧ s'.out = s.out.erase obj ∧ Inv shift a s' := by
  obtain ⟨p, hp, hxp⟩ := h.slab.owned obj hobj
  obtain ⟨free, hfree⟩ := h.slab.stacked p hp
  have hobj0 : obj ≠ 0 := by
    have := (hf.object_bounds hxp).1
    simp only [headerSize] at this
    omega
  have hst := hfree.push hxp hobj h.slab.out_nodup hobj0
  have hslab := freed_slab hf h hp hxp hst
  have hcount : ((s.headers p).freecount + 1) % 2 ^ 16 = free.length + 1 := by
    have hlen := hst.length_le
    have := hf.count_lt
    have := hfree.count
    rw [List.length_cons] at hlen
    omega
  have hlayout : ∀ l, { s.alloc with partialList := l } = { a with partialList := l } := fun l => by
    rw [h.layout]
  have hper : s.alloc.objsPerPage = a.objsPerPage := by rw [h.layout]
  have hof := hf.page_of_object (h.slab.aligned p hp) (h.slab.bounded p hp) hxp
  refine ⟨_, spallocFree_eq hof hfree.magic hcount, ?_⟩
  split
  · rename_i hone
    have hzero : (s.headers p).freecount = 0 := by
      rw [hfree.count]
      omega
    exact ⟨rfl, hlayout _, hslab, (h.listed.skip_full hzero).put hp (Nat.succ_pos _)⟩
  · rename_i hone
    split
    · rename_i hall
      have hheader : (freed s p obj (free.length + 1)).headers p =
          ⟨(s.headers p).magic, free.length + 1, obj⟩ := update_self ..
      have hst' := hst
      rw [← hheader] at hst'
      exact ⟨rfl, hlayout _, Slab.drop hslab hst' (hall.trans hper),
        (h.listed.erase p).drop h.slab.nodup⟩
    · have hpos : 0 < (s.headers p).freecount := by
        rw [hfree.count]
        omega
      exact ⟨rfl, h.layout, hslab, h.listed.keep hpos (Nat.succ_pos _)⟩

/-- A call works on the headers of the allocator's pages and on the words of their objects. -/
structure Local (a : Allocator) (s s' : State) : Prop where
  headers : ∀ q, q ∉ s.pages → q ∉ s'.pages → s'.headers q = s.headers q
  next : ∀ y, (∀ q, q ∈ s.pages ∨ q ∈ s'.pages → y ∉ objects a q) → s'.next y = s.next y

theorem takePage_local (hf : Fits shift objSize objAlign a) (h : Inv shift a s)
    (htake : takePage (2 ^ shift) s page = .ok (hdr, s')) :
    Local a s s' ∧ s'.pages = if s.alloc.partialList = [] then page :: s.pages else s.pages := by
  cases hlist : s.alloc.partialList with
  | cons node rest =>
    simp only [takePage, hlist] at htake
    obtain ⟨-, -, hret⟩ := bind_ok htake
    obtain ⟨-, rfl⟩ := Prod.mk.inj (Except.ok.inj hret)
    exact ⟨⟨fun _ _ _ => rfl, fun _ _ => rfl⟩, rfl⟩
  | nil =>
    obtain ⟨s₂, hcall, hfill⟩ := takePage_new hf h.layout hlist page
    rw [hcall] at htake
    obtain ⟨-, rfl⟩ := Prod.mk.inj (Except.ok.inj htake)
    have hmem : page ∈ s₂.pages := by
      rw [hfill.pages]
      exact List.mem_cons_self
    refine ⟨⟨fun q _ hq => ?_, fun y hy => hfill.next y (hy page (.inr hmem))⟩, hfill.pages⟩
    have hne : q ≠ page := fun he => hq (he ▸ hmem)
    exact (hfill.headers q hne).trans (update_of_ne hne _ _)

/-- `takeObj` with the new count given, so that its value plays no part. -/
def taken (s : State) (hdr freecount : ℕ) : ℕ × State :=
  let h := s.headers hdr
  let (obj, head) := stackPop s.next h.freeObjs
  let s := { s with out := obj :: s.out }.setHeader hdr ⟨h.magic, freecount, head⟩
  (obj, if 0 < freecount then s.setPartial (linkage hdr :: s.alloc.partialList) else s)

theorem takeObj_eq (s : State) (hdr : ℕ) :
    takeObj s hdr = taken s hdr (((s.headers hdr).freecount + (2 ^ 16 - 1)) % 2 ^ 16) := rfl

theorem taken_frame (s : State) (hdr n : ℕ) :
    (taken s hdr n).2.pages = s.pages ∧ (taken s hdr n).2.next = s.next ∧
      ∀ q, q ≠ hdr → (taken s hdr n).2.headers q = s.headers q := by
  simp only [taken]
  split
  · exact ⟨rfl, rfl, fun q hq => update_of_ne hq _ _⟩
  · exact ⟨rfl, rfl, fun q hq => update_of_ne hq _ _⟩

theorem spallocMalloc_local (hf : Fits shift objSize objAlign a) (h : Inv shift a s)
    (hpage : s.alloc.partialList = [] → Fresh shift s.pages page)
    (hcall : spallocMalloc (2 ^ shift) s page = .ok (obj, s')) :
    Local a s s' ∧ s'.pages = if s.alloc.partialList = [] then page :: s.pages else s.pages := by
  obtain ⟨hdr, s₁, htake, -, htaken⟩ := takePage_spec hf h hpage
  obtain ⟨hlocal, hpages⟩ := takePage_local hf h htake
  rw [spallocMalloc_eq htake, takeObj_eq] at hcall
  obtain ⟨hpages', hnext, hheaders⟩ := taken_frame s₁ hdr
    (((s₁.headers hdr).freecount + (2 ^ 16 - 1)) % 2 ^ 16)
  generalize taken s₁ hdr _ = r at *
  obtain rfl : r = (obj, s') := Except.ok.inj hcall
  refine ⟨⟨fun q h1 h2 => ?_, fun y hy => ?_⟩, hpages'.trans hpages⟩
  · have h2 : q ∉ s₁.pages := hpages' ▸ h2
    have hne : q ≠ hdr := fun he => h2 (he ▸ htaken.mem)
    exact (hheaders q hne).trans (hlocal.headers q h1 h2)
  · rw [hnext]
    rw [hpages'] at hy
    exact hlocal.next y hy

theorem spallocFree_local (hf : Fits shift objSize objAlign a) (h : Inv shift a s)
    (hobj : obj ∈ s.out) (hcall : spallocFree (2 ^ shift) s obj = .ok s') :
    Local a s s' ∧ alignDown obj (2 ^ shift) ∈ s.pages ∧
      (s'.pages = s.pages ∨ s'.pages = s.pages.erase (alignDown obj (2 ^ shift))) := by
  obtain ⟨p, hp, hxp⟩ := h.slab.owned obj hobj
  obtain ⟨free, hfree⟩ := h.slab.stacked p hp
  have hof := hf.page_of_object (h.slab.aligned p hp) (h.slab.bounded p hp) hxp
  rw [spallocFree_eq hof hfree.magic rfl] at hcall
  generalize ((s.headers p).freecount + 1) % 2 ^ 16 = n at hcall
  have hheaders : ∀ q, q ∉ s.pages → (freed s p obj n).headers q = s.headers q := by
    intro q hq
    have hne : q ≠ p := fun he => hq (he ▸ hp)
    exact update_of_ne hne _ _
  have hnext : ∀ y, (∀ q, q ∈ s.pages ∨ q ∈ s'.pages → y ∉ objects a q) →
      (freed s p obj n).next y = s.next y := by
    intro y hy
    have hne : y ≠ obj := fun he => hy p (.inl hp) (he ▸ hxp)
    exact update_of_ne hne _ _
  rw [hof]
  refine ⟨?_, hp, ?_⟩
  · obtain rfl := (Except.ok.inj hcall).symm
    refine ⟨fun q hq _ => ?_, fun y hy => ?_⟩
    · rw [← hheaders q hq]
      split
      · rfl
      · split <;> rfl
    · rw [← hnext y hy]
      split
      · rfl
      · split <;> rfl
  · obtain rfl := (Except.ok.inj hcall).symm
    split
    · exact .inl rfl
    · split
      · exact .inr rfl
      · exact .inl rfl

/-- A step: a call that returns, or a write by the owner of an object, or by anyone outside
the allocator's pages. A word of a page that no owner's object overlaps keeps its value. -/
inductive Step (shift objSize : ℕ) : State → State → Prop where
  | malloc {s s' : State} (page obj : ℕ) :
      (s.alloc.partialList = [] → Fresh shift s.pages page) →
      spallocMalloc (2 ^ shift) s page = .ok (obj, s') → Step shift objSize s s'
  | free {s s' : State} (obj : ℕ) : obj ∈ s.out → spallocFree (2 ^ shift) s obj = .ok s' →
      Step shift objSize s s'
  | write {s : State} (headers : ℕ → PageHeader) (next : ℕ → ℕ) :
      (∀ p ∈ s.pages, headers p = s.headers p) →
      (∀ p ∈ s.pages, ∀ x, p ≤ x → x + 8 ≤ p + 2 ^ shift →
        (∀ obj ∈ s.out, x + 8 ≤ obj ∨ obj + objSize ≤ x) → next x = s.next x) →
      Step shift objSize s { s with headers := headers, next := next }

inductive Reachable (shift objSize : ℕ) (a : Allocator) : State → Prop where
  | init (headers : ℕ → PageHeader) (next : ℕ → ℕ) :
      Reachable shift objSize a ⟨a, headers, next, [], []⟩
  | step {s s' : State} : Reachable shift objSize a s → Step shift objSize s s' →
      Reachable shift objSize a s'

section

variable (hf : Fits shift objSize objAlign a)
include hf

theorem Inv.write (h : Inv shift a s) (hheaders : ∀ p ∈ s.pages, headers p = s.headers p)
    (hnext : ∀ p ∈ s.pages, ∀ x, p ≤ x → x + 8 ≤ p + 2 ^ shift → (∀ obj ∈ s.out, x + 8 ≤ obj ∨
      obj + objSize ≤ x) → next x = s.next x) :
    Inv shift a { s with headers := headers, next := next } := by
  have hslab := h.slab
  have hstacked : ∀ p ∈ s.pages, ∃ free, Stacked a next s.out p (headers p) free := by
    intro p hp
    obtain ⟨free, hfree⟩ := hslab.stacked p hp
    rw [hheaders p hp]
    refine ⟨free, hfree.congr (fun x hx => ?_) fun _ _ => Iff.rfl⟩
    obtain ⟨hxp, hxout⟩ := (hfree.mem x).mp hx
    have hbounds := hf.object_bounds hxp
    have := hf.le_stride
    have := hf.size
    refine hnext p hp x (by omega) (by omega) fun obj hobj => ?_
    obtain ⟨q, hq, hoq⟩ := hslab.owned obj hobj
    have hne : x ≠ obj := fun he => hxout (he ▸ hobj)
    have := hf.objects_apart (hslab.aligned p hp) (hslab.aligned q hq) hxp hoq hne
    omega
  refine ⟨h.layout, ⟨hslab.nodup, hslab.aligned, hslab.nonzero, hslab.bounded, hstacked,
    hslab.out_nodup, hslab.owned⟩, h.listed.nodup, fun node => ?_⟩
  refine (h.listed.mem node).trans (exists_congr fun p => and_congr_right fun hp => ?_)
  simp only [hheaders p hp]

theorem step_inv (h : Inv shift a s) (hs : Step shift objSize s s') : Inv shift a s' := by
  cases hs with
  | malloc page obj hpage hcall =>
    obtain ⟨obj', s₁, hcall', -, -, -, hinv⟩ := spallocMalloc_spec hf h hpage
    rw [hcall] at hcall'
    cases hcall'
    exact hinv
  | free obj hobj hcall =>
    obtain ⟨s₁, hcall', -, hinv⟩ := spallocFree_spec hf h hobj
    rw [hcall] at hcall'
    cases hcall'
    exact hinv
  | write headers next hheaders hnext => exact h.write hf hheaders hnext

theorem reachable_inv (hempty : a.partialList = []) (hs : Reachable shift objSize a s) :
    Inv shift a s := by
  induction hs with
  | init headers next =>
    refine ⟨rfl, ⟨List.nodup_nil, ?_, ?_, ?_, ?_, List.nodup_nil, ?_⟩, ?_, fun node => ?_⟩
    · simp
    · simp
    · simp
    · simp
    · simp
    · simp [hempty]
    · simp [hempty]
  | step _ hstep ih => exact step_inv hf ih hstep

end

/-- The objects handed out: aligned, inside a page past its header, and apart from one another. -/
structure Separate (shift objSize objAlign : ℕ) (s : State) : Prop where
  aligned : ∀ x ∈ s.out, objAlign ∣ x
  inside : ∀ x ∈ s.out, ∃ p ∈ s.pages, p + headerSize ≤ x ∧ x + objSize ≤ p + 2 ^ shift
  apart : s.out.Pairwise fun x y => x + objSize ≤ y ∨ y + objSize ≤ x

/-- The pages in use and the list: each stack is the page's free objects, counted by
`freecount`, and the list has each page with a free object once. -/
structure Accounted (a : Allocator) (s : State) : Prop where
  counted : ∀ p ∈ s.pages, ∃ free, Chain s.next (s.headers p).freeObjs free ∧ free.Nodup ∧
    (∀ x, x ∈ free ↔ x ∈ objects a p ∧ x ∉ s.out) ∧ (s.headers p).freecount = free.length
  once : s.alloc.partialList.Nodup
  listed : ∀ node, node ∈ s.alloc.partialList ↔
    ∃ p ∈ s.pages, linkage p = node ∧ 0 < (s.headers p).freecount

structure Untruncated (shift objSize objAlign : ℕ) (a : Allocator) : Prop where
  stride : a.objStride = alignUp objSize objAlign
  offset : a.objOffset = alignUp headerSize objAlign
  count : a.objsPerPage = (2 ^ shift - a.objOffset) / a.objStride

/-- Both functions return, `spalloc_malloc` with an object that is not in use: its stack was
not empty. -/
structure Returns (shift : ℕ) (s : State) : Prop where
  malloc : ∀ page, (s.alloc.partialList = [] → Fresh shift s.pages page) →
    ∃ obj s', spallocMalloc (2 ^ shift) s page = .ok (obj, s') ∧ obj ≠ 0 ∧ obj ∉ s.out ∧
      s'.out = obj :: s.out
  free : ∀ obj ∈ s.out, ∃ s', spallocFree (2 ^ shift) s obj = .ok s' ∧ s'.out = s.out.erase obj

theorem Inv.separate (hf : Fits shift objSize objAlign a) (h : Inv shift a s) :
    Separate shift objSize objAlign s := by
  have hle := hf.le_stride
  refine ⟨fun x hx => ?_, fun x hx => ?_, ?_⟩
  · obtain ⟨p, hp, hxp⟩ := h.slab.owned x hx
    exact hf.object_aligned (h.slab.aligned p hp) hxp
  · obtain ⟨p, hp, hxp⟩ := h.slab.owned x hx
    have := hf.object_bounds hxp
    exact ⟨p, hp, by omega, by omega⟩
  · refine h.slab.out_nodup.imp_of_mem fun {x y} hx hy hne => ?_
    obtain ⟨p, hp, hxp⟩ := h.slab.owned x hx
    obtain ⟨q, hq, hyq⟩ := h.slab.owned y hy
    have := hf.objects_apart (h.slab.aligned p hp) (h.slab.aligned q hq) hxp hyq hne
    omega

theorem Inv.accounted (h : Inv shift a s) : Accounted a s := by
  refine ⟨fun p hp => ?_, h.listed.nodup, fun node => (h.listed.mem node).trans ?_⟩
  · obtain ⟨free, hfree⟩ := h.slab.stacked p hp
    exact ⟨free, hfree.chain, hfree.nodup, hfree.mem, hfree.count⟩
  · simp

theorem Inv.returns (hf : Fits shift objSize objAlign a) (h : Inv shift a s) : Returns shift s := by
  refine ⟨fun page hpage => ?_, fun obj hobj => ?_⟩
  · obtain ⟨obj, s', hcall, hne, hnew, hout, -⟩ := spallocMalloc_spec hf h hpage
    exact ⟨obj, s', hcall, hne, hnew, hout⟩
  · obtain ⟨s', hcall, hout, -⟩ := spallocFree_spec hf h hobj
    exact ⟨s', hcall, hout⟩

/-- The slab allocator is safe for pages of 4, 16 and 64 KiB. -/
theorem slab_allocator_safe (hshift : shift = 12 ∨ shift = 14 ∨ shift = 16)
    (hinit : spallocInit (2 ^ shift) objSize objAlign = .ok a) :
    Untruncated shift objSize objAlign a ∧
    ∀ s, Reachable shift objSize a s →
      Separate shift objSize objAlign s ∧ Accounted a s ∧ Returns shift s ∧
      ∀ p ∈ s.pages, (s.headers p).freecount ≤ a.objsPerPage := by
  obtain ⟨hf, hempty⟩ := spallocInit_fits (by omega) (by omega) hinit
  refine ⟨⟨hf.stride, hf.offset, hf.count⟩, fun s hs => ?_⟩
  have h := reachable_inv hf hempty hs
  refine ⟨h.separate hf, h.accounted, h.returns hf, fun p hp => ?_⟩
  obtain ⟨free, hfree⟩ := h.slab.stacked p hp
  rw [hfree.count]
  exact hfree.length_le

def kibObjects : Allocator := ⟨[], 1024, 32, 3⟩

def noPages : State := ⟨kibObjects, fun _ => ⟨0, 0, 0⟩, fun _ => 0, [], []⟩

theorem noPages_served : (spallocMalloc (2 ^ 12) noPages 8192).map
    (fun r => r.2.alloc.partialList) = .ok [linkage 8192] := by
  decide +kernel

theorem two_objects_apart : spallocInit (2 ^ 12) 1024 8 = .ok kibObjects ∧
    ∃ s x y, Reachable 12 1024 kibObjects s ∧ s.out = [y, x] ∧
      (y + 1024 ≤ x ∨ x + 1024 ≤ y) := by
  have hinit : spallocInit (2 ^ 12) 1024 8 = .ok kibObjects := by decide +kernel
  have hsafe := (slab_allocator_safe (.inl rfl) hinit).2
  have h₀ : Reachable 12 1024 kibObjects noPages := .init _ _
  have hfresh : Fresh 12 noPages.pages 8192 := ⟨by decide, by decide, by decide, by decide⟩
  obtain ⟨x, s₁, hcall₁, -, -, hout₁⟩ := (hsafe _ h₀).2.2.1.malloc 8192 fun _ => hfresh
  have h₁ := h₀.step (.malloc 8192 x (fun _ => hfresh) hcall₁)
  have hlist := noPages_served
  rw [hcall₁] at hlist
  have hsome : s₁.alloc.partialList = [] → Fresh 12 s₁.pages 0 := fun hnil => by
    rw [Except.map, hnil] at hlist
    cases hlist
  obtain ⟨y, s₂, hcall₂, -, -, hout₂⟩ := (hsafe _ h₁).2.2.1.malloc 0 hsome
  have h₂ := h₁.step (.malloc 0 y hsome hcall₂)
  have hout : s₂.out = [y, x] := by
    rw [hout₂, hout₁]
    rfl
  have hapart := (hsafe _ h₂).1.apart
  rw [hout] at hapart
  exact ⟨hinit, s₂, x, y, h₂, hout, (List.pairwise_cons.mp hapart).1 x List.mem_cons_self⟩

end MemSpallocRuns
