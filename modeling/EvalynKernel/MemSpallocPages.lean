import EvalynKernel.MemSpallocRuns

/-! # The pages of the slab allocator

A page goes back to `buddy_free` when its last object is freed, unless a page holds one
object only: then the test for a page that was full comes first and returns. -/
namespace MemSpallocPages

open MachineWords MemSpalloc MemSpallocInvariant MemSpallocRuns

variable {shift objSize objAlign : ℕ} {a : Allocator} {page obj p : ℕ} {s s' : State}

/-- The runs of the allocator, with the pages `buddy_allocate` has returned to it and those it
has passed to `buddy_free`. -/
inductive Logged (shift objSize : ℕ) (a : Allocator) : State → List ℕ → List ℕ → Prop where
  | init (headers : ℕ → PageHeader) (next : ℕ → ℕ) :
      Logged shift objSize a ⟨a, headers, next, [], []⟩ [] []
  | malloc {s s' : State} {got back : List ℕ} (page obj : ℕ) : Logged shift objSize a s got back →
      (s.alloc.partialList = [] → Fresh shift s.pages page) →
      spallocMalloc (2 ^ shift) s page = .ok (obj, s') →
      Logged shift objSize a s' (if s.alloc.partialList = [] then page :: got else got) back
  | free {s s' : State} {got back : List ℕ} (obj : ℕ) : Logged shift objSize a s got back →
      obj ∈ s.out → spallocFree (2 ^ shift) s obj = .ok s' →
      Logged shift objSize a s' got (if alignDown obj (2 ^ shift) ∈ s'.pages then back
        else alignDown obj (2 ^ shift) :: back)
  | write {s : State} {got back : List ℕ} (headers : ℕ → PageHeader) (next : ℕ → ℕ) :
      Logged shift objSize a s got back → (∀ p ∈ s.pages, headers p = s.headers p) →
      (∀ p ∈ s.pages, ∀ x, p ≤ x → x + 8 ≤ p + 2 ^ shift →
        (∀ obj ∈ s.out, x + 8 ≤ obj ∨ obj + objSize ≤ x) → next x = s.next x) →
      Logged shift objSize a { s with headers := headers, next := next } got back

variable {got back : List ℕ}

theorem Logged.reachable (h : Logged shift objSize a s got back) : Reachable shift objSize a s := by
  induction h with
  | init headers next => exact .init headers next
  | malloc page obj _ hpage hcall ih => exact ih.step (.malloc page obj hpage hcall)
  | free obj _ hobj hcall ih => exact ih.step (.free obj hobj hcall)
  | write headers next _ hheaders hnext ih => exact ih.step (.write headers next hheaders hnext)

def InUse (a : Allocator) (s : State) : Prop := ∀ p ∈ s.pages, ∃ x ∈ objects a p, x ∈ s.out

section Steps

theorem all_out (h : Inv shift a s) (hnil : s.alloc.partialList = []) (hp : p ∈ s.pages)
    (hx : x ∈ objects a p) : x ∈ s.out := by
  obtain ⟨free, hfree⟩ := h.slab.stacked p hp
  have hzero : (s.headers p).freecount = 0 := by
    by_contra hne
    have hmem := (h.listed.mem (linkage p)).mpr ⟨p, hp, by simp, rfl, Nat.pos_of_ne_zero hne⟩
    rw [hnil] at hmem
    cases hmem
  have hnone : free = [] := List.length_eq_zero_iff.mp (hfree.count ▸ hzero)
  by_contra hout
  have hmem := (hfree.mem x).mpr ⟨hx, hout⟩
  rw [hnone] at hmem
  cases hmem

variable (hf : Fits shift objSize objAlign a)

include hf

theorem some_out (hs : Stacked a next out p h free) (hne : free.length ≠ a.objsPerPage) :
    ∃ x ∈ objects a p, x ∈ out := by
  by_contra hnone
  simp only [not_exists, not_and] at hnone
  have hsub : objects a p ⊆ free := fun x hx => (hs.mem x).mpr ⟨hx, hnone x hx⟩
  have hle := ((hf.objects_nodup p).subperm hsub).length_le
  have hge := hs.length_le
  rw [objects_length] at hle
  omega

theorem spallocMalloc_inUse (h : Inv shift a s) (hused : InUse a s)
    (hpage : s.alloc.partialList = [] → Fresh shift s.pages page)
    (hcall : spallocMalloc (2 ^ shift) s page = .ok (obj, s')) : InUse a s' := by
  obtain ⟨obj', s₁, hcall', -, hnew, hout, hinv⟩ := spallocMalloc_spec hf h hpage
  rw [hcall] at hcall'
  cases hcall'
  have hpages := (spallocMalloc_local hf h hpage hcall).2
  have hold : ∀ p ∈ s.pages, ∃ x ∈ objects a p, x ∈ s'.out := by
    intro p hp
    obtain ⟨x, hx, hxout⟩ := hused p hp
    exact ⟨x, hx, hout ▸ List.mem_cons_of_mem _ hxout⟩
  intro p hp
  rw [hpages] at hp
  split at hp
  · rename_i hnil
    rcases List.mem_cons.mp hp with rfl | hp
    · -- the object is of the new page: the others have none left
      have hobj : obj ∈ s'.out := hout ▸ List.mem_cons_self
      obtain ⟨q, hq, hxq⟩ := hinv.slab.owned obj hobj
      rw [hpages, if_pos hnil] at hq
      rcases List.mem_cons.mp hq with rfl | hq
      · exact ⟨obj, hxq, hobj⟩
      · exact absurd (all_out h hnil hq hxq) hnew
    · exact hold p hp
  · exact hold p hp

theorem page_of_out (h : Inv shift a s) (hobj : obj ∈ s.out) :
    alignDown obj (2 ^ shift) ∈ s.pages ∧ obj ∈ objects a (alignDown obj (2 ^ shift)) := by
  obtain ⟨p, hp, hxp⟩ := h.slab.owned obj hobj
  rw [hf.page_of_object (h.slab.aligned p hp) (h.slab.bounded p hp) hxp]
  exact ⟨hp, hxp⟩

/-- What `spalloc_free` does with the page of the object: it goes back if the new count is not
1 and all its objects are free. -/
theorem spallocFree_page (h : Inv shift a s) (hobj : obj ∈ s.out)
    (hcall : spallocFree (2 ^ shift) s obj = .ok s') :
    ∃ n, (s'.headers (alignDown obj (2 ^ shift))).freecount = n ∧
      s'.pages = if n ≠ 1 ∧ n = a.objsPerPage then s.pages.erase (alignDown obj (2 ^ shift))
        else s.pages := by
  obtain ⟨hp, hxp⟩ := page_of_out hf h hobj
  obtain ⟨free, hfree⟩ := h.slab.stacked _ hp
  have hper : s.alloc.objsPerPage = a.objsPerPage := by rw [h.layout]
  rw [spallocFree_eq rfl hfree.magic rfl, hper] at hcall
  generalize ((s.headers (alignDown obj (2 ^ shift))).freecount + 1) % 2 ^ 16 = n at hcall
  generalize alignDown obj (2 ^ shift) = p at *
  have hheader : ((freed s p obj n).headers p).freecount = n := by simp [freed]
  obtain rfl := (Except.ok.inj hcall).symm
  by_cases hone : n = 1
  · rw [if_pos hone]
    exact ⟨n, hheader, by rw [if_neg fun hc => hc.1 hone]; rfl⟩
  · by_cases hall : n = a.objsPerPage
    · rw [if_neg hone, if_pos hall]
      exact ⟨n, hheader, by rw [if_pos ⟨hone, hall⟩]⟩
    · rw [if_neg hone, if_neg hall]
      exact ⟨n, hheader, by rw [if_neg fun hc => hall hc.2]; rfl⟩

theorem spallocFree_inUse (hone : a.objsPerPage ≠ 1) (h : Inv shift a s) (hused : InUse a s)
    (hobj : obj ∈ s.out) (hcall : spallocFree (2 ^ shift) s obj = .ok s') : InUse a s' := by
  obtain ⟨s₁, hcall', hout, hinv⟩ := spallocFree_spec hf h hobj
  rw [hcall] at hcall'
  cases hcall'
  obtain ⟨hp, hxp⟩ := page_of_out hf h hobj
  obtain ⟨n, hn, hpages⟩ := spallocFree_page hf h hobj hcall
  generalize alignDown obj (2 ^ shift) = p at *
  have hsub : ∀ q ∈ s'.pages, q ∈ s.pages := by
    intro q hq
    rw [hpages] at hq
    split at hq
    · exact List.mem_of_mem_erase hq
    · exact hq
  intro q hq
  by_cases hqp : q = p
  · subst hqp
    obtain ⟨free, hfree⟩ := hinv.slab.stacked q hq
    refine some_out hf hfree fun hall => ?_
    have hcount := hfree.count
    rw [hpages, if_pos ⟨by omega, by omega⟩] at hq
    exact (h.slab.nodup.mem_erase_iff.mp hq).1 rfl
  · obtain ⟨x, hx, hxout⟩ := hused q (hsub q hq)
    have hne : x ≠ obj := by
      rintro rfl
      exact hqp (hf.page_unique (h.slab.aligned q (hsub q hq)) (h.slab.aligned p hp) hx hxp)
    exact ⟨x, hx, hout ▸ h.slab.out_nodup.mem_erase_iff.mpr ⟨hne, hxout⟩⟩

theorem spallocFree_kept (hone : a.objsPerPage = 1) (h : Inv shift a s) (hobj : obj ∈ s.out)
    (hcall : spallocFree (2 ^ shift) s obj = .ok s') :
    alignDown obj (2 ^ shift) ∈ s'.pages ∧
      ∀ x ∈ objects a (alignDown obj (2 ^ shift)), x ∉ s'.out := by
  obtain ⟨s₁, hcall', hout, hinv⟩ := spallocFree_spec hf h hobj
  rw [hcall] at hcall'
  cases hcall'
  obtain ⟨hp, hxp⟩ := page_of_out hf h hobj
  obtain ⟨n, hn, hpages⟩ := spallocFree_page hf h hobj hcall
  generalize alignDown obj (2 ^ shift) = p at *
  have hpages' : s'.pages = s.pages := by
    rw [hpages, if_neg]
    rintro ⟨hne, hall⟩
    exact hne (hall.trans hone)
  have hp' : p ∈ s'.pages := hpages' ▸ hp
  obtain ⟨free, hfree⟩ := hinv.slab.stacked p hp'
  have hmem : obj ∈ free := (hfree.mem obj).mpr ⟨hxp, fun hin =>
    (h.slab.out_nodup.mem_erase_iff.mp (hout ▸ hin)).1 rfl⟩
  have hpos := List.length_pos_of_mem hmem
  have hle := hfree.length_le
  exact ⟨hp', fun x hx => hfree.none_out (by omega) hx⟩

end Steps

section Runs

theorem Logged.inUse (hf : Fits shift objSize objAlign a) (hempty : a.partialList = [])
    (hone : a.objsPerPage ≠ 1) (h : Logged shift objSize a s got back) : InUse a s := by
  induction h with
  | init headers next => simp [InUse]
  | malloc page obj hlog hpage hcall ih =>
    exact spallocMalloc_inUse hf (reachable_inv hf hempty hlog.reachable) ih hpage hcall
  | free obj hlog hobj hcall ih =>
    exact spallocFree_inUse hf hone (reachable_inv hf hempty hlog.reachable) ih hobj hcall
  | write headers next _ _ _ ih => exact ih

/-- Every page obtained is held or has been given back, once. -/
theorem Logged.balance (hf : Fits shift objSize objAlign a) (hempty : a.partialList = [])
    (h : Logged shift objSize a s got back) : got.Perm (s.pages ++ back) := by
  induction h with
  | init headers next => exact .refl _
  | malloc page obj hlog hpage hcall ih =>
    have hinv := reachable_inv hf hempty hlog.reachable
    rw [(spallocMalloc_local hf hinv hpage hcall).2]
    split
    · exact ih.cons page
    · exact ih
  | @free s s' got back obj hlog hobj hcall ih =>
    have hinv := reachable_inv hf hempty hlog.reachable
    obtain ⟨-, hp, hpages⟩ := spallocFree_local hf hinv hobj hcall
    generalize alignDown obj (2 ^ shift) = p at *
    rcases hpages with hpages | hpages
    · rw [hpages, if_pos hp]
      exact ih
    · have hnot : p ∉ s.pages.erase p := fun hin =>
        (hinv.slab.nodup.mem_erase_iff.mp hin).1 rfl
      rw [hpages, if_neg hnot]
      refine ih.trans (((List.perm_cons_erase hp).append_right back).trans ?_)
      exact List.perm_middle.symm
  | write headers next _ _ _ ih => exact ih

/-- With more than one object to a page, no page is held all of whose objects are free, and
when all objects are free every page has been given back once. With one object to a page
every call of `spalloc_free` leaves such a page. -/
theorem slab_pages_returned (hshift : shift = 12 ∨ shift = 14 ∨ shift = 16)
    (hinit : spallocInit (2 ^ shift) objSize objAlign = .ok a) :
    (a.objsPerPage ≠ 1 → ∀ s got back, Logged shift objSize a s got back →
      InUse a s ∧ got.Perm (s.pages ++ back) ∧ (s.out = [] → got.Perm back)) ∧
    (a.objsPerPage = 1 → ∀ s got back, Logged shift objSize a s got back → ∀ obj ∈ s.out,
      ∃ s', spallocFree (2 ^ shift) s obj = .ok s' ∧
        ∃ p ∈ s'.pages, ∀ x ∈ objects a p, x ∉ s'.out) := by
  obtain ⟨hf, hempty⟩ := spallocInit_fits (by omega) (by omega) hinit
  constructor
  · intro hone s got back hlog
    have hused := hlog.inUse hf hempty hone
    have hperm := hlog.balance hf hempty
    refine ⟨hused, hperm, fun hnone => ?_⟩
    have hpages : s.pages = [] := by
      apply List.eq_nil_iff_forall_not_mem.mpr
      intro p hp
      obtain ⟨x, -, hx⟩ := hused p hp
      rw [hnone] at hx
      cases hx
    rwa [hpages, List.nil_append] at hperm
  · intro hone s got back hlog obj hobj
    have hinv := reachable_inv hf hempty hlog.reachable
    obtain ⟨s', hcall, -, -⟩ := spallocFree_spec hf hinv hobj
    exact ⟨s', hcall, _, spallocFree_kept hf hone hinv hobj hcall⟩

theorem kib_page_returned : spallocInit (2 ^ 12) 1024 8 = .ok kibObjects ∧
    ∃ x s₁ s₂ back, spallocMalloc (2 ^ 12) noPages 8192 = .ok (x, s₁) ∧
      spallocFree (2 ^ 12) s₁ x = .ok s₂ ∧ Logged 12 1024 kibObjects s₂ [8192] back ∧
      s₂.out = [] ∧ [8192].Perm back := by
  have hinit : spallocInit (2 ^ 12) 1024 8 = .ok kibObjects := by decide +kernel
  obtain ⟨hf, hempty⟩ := spallocInit_fits (by decide) (by decide) hinit
  have h₀ : Logged 12 1024 kibObjects noPages [] [] := .init _ _
  have hfresh : Fresh 12 noPages.pages 8192 := ⟨by decide, by decide, by decide, by decide⟩
  have hinv₀ := reachable_inv hf hempty h₀.reachable
  obtain ⟨x, s₁, hcall₁, -, -, hout₁, hinv₁⟩ := spallocMalloc_spec hf hinv₀ fun _ => hfresh
  have h₁ := h₀.malloc 8192 x (fun _ => hfresh) hcall₁
  have hx : x ∈ s₁.out := hout₁ ▸ List.mem_cons_self
  obtain ⟨s₂, hcall₂, hout₂, -⟩ := spallocFree_spec hf hinv₁ hx
  have h₂ := h₁.free x hx hcall₂
  have hnone : s₂.out = [] := by
    rw [hout₂, hout₁, List.erase_cons_head]
    rfl
  have hperm := ((slab_pages_returned (.inl rfl) hinit).1 (by decide) _ _ _ h₂).2.2 hnone
  exact ⟨hinit, x, s₁, s₂, _, hcall₁, hcall₂, h₂, hnone, hperm⟩

def singleObject : Allocator := ⟨[], 2048, 32, 1⟩

/-- The object is handed out and freed: nothing is in use and the page is still held. -/
theorem single_page_kept : spallocInit (2 ^ 12) 2048 8 = .ok singleObject ∧
    (do
      let (x, s) ← spallocMalloc (2 ^ 12)
        ⟨singleObject, fun _ => ⟨0, 0, 0⟩, fun _ => 0, [], []⟩ 8192
      let s ← spallocFree (2 ^ 12) s x
      return (s.out, s.pages, (s.headers 8192).freecount)) = .ok ([], [8192], 1) := by
  constructor
  · decide +kernel
  · decide +kernel

end Runs

end MemSpallocPages
