import EvalynKernel.MemBuddyRuns

/-! # Coalescing in the buddy allocator is complete

No two buddies below the order of their root are free at the same time. Allocation only
frees upper halves of a block whose lower half it hands out; `buddy_free` stops merging
only at the root or at a buddy that is not free. When nothing is handed out the free
blocks tile the roots without siblings, so they are the roots. -/
namespace MemBuddyCoalescing

open MachineWords DyadicBlocks DyadicBlocks.Block MemBuddyAllocator MemBuddyInvariant
open MemBuddyOperations MemBuddyRuns

variable {shift : ℕ} {s t : State} {A : List (ℕ × ℕ)} {R H G : Set Block}

def Coalesced (shift : ℕ) (s : State) (R : Set Block) : Prop :=
  ∀ b ∈ freeBlocks shift s, b.sibling ∈ freeBlocks shift s →
    ∀ r ∈ R, Inside b r → r.exp ≤ b.exp

theorem freeBlocks_setEntry (s : State) (p : ℕ) (e : Page) :
    freeBlocks shift (setEntry shift s p e) = freeBlocks shift s := rfl

variable {b : Block} {p k : ℕ}

theorem freeBlocks_delete_subset (hb : b ∈ freeBlocks shift (deleteOrder s k p)) :
    b ∈ freeBlocks shift s := by
  obtain ⟨j, hj, he⟩ := hb
  refine ⟨j, ?_, he⟩
  by_cases hjk : j = k
  · subst j
    exact List.mem_of_mem_erase (by simpa [deleteOrder] using hj)
  · simpa [deleteOrder, hjk] using hj

theorem freeBlocks_addBlock (s : State) (p k : ℕ) :
    freeBlocks shift (buddyAddBlock shift s p k) =
      insert (blk shift p k) (freeBlocks shift s) := by
  unfold buddyAddBlock
  rw [freeBlocks_push, freeBlocks_setEntry]

variable {order : ℕ}

theorem splitDown_free (n : ℕ) (hal : (blk shift addr (order + n)).Aligned)
    (hb : b ∈ freeBlocks shift (splitDown shift addr maxOrd order n s)) :
    b ∈ freeBlocks shift s ∨ Mem addr b.sibling := by
  induction n generalizing s with
  | zero => exact Or.inl hb
  | succ n ih =>
    have hlow : (blk shift addr (order + (n + 1))).lower = blk shift addr (order + n) := rfl
    have hup : (blk shift addr (order + (n + 1))).upper =
        blk shift (addr + getOrderSize shift (order + n)) (order + n) := rfl
    have hsib := hal.upper_sibling (Nat.succ_pos (shift + (order + n)))
    rw [hlow, hup] at hsib
    have hrest := ih (hlow ▸ hal.lower) hb
    rw [freeBlocks_push, freeBlocks_setEntry] at hrest
    rcases hrest with (rfl | hb) | hb
    · right
      rw [hsib]
      exact base_mem _
    · exact Or.inl hb
    · exact Or.inr hb

variable {flags : ℕ}

theorem buddyAllocate_free (h : BuddyInv shift s R H)
    (he : buddyAllocate shift s order flags = .ok (p, t)) (hb : b ∈ freeBlocks shift t) :
    b ∈ freeBlocks shift s ∨ Mem p b.sibling := by
  unfold buddyAllocate at he
  cases hpop : popOrder s order with
  | some r =>
    obtain ⟨q, u⟩ := r
    obtain ⟨_, rfl⟩ := popOrder_some hpop
    simp only [hpop, Except.ok.injEq, Prod.mk.injEq] at he
    obtain ⟨rfl, rfl⟩ := he
    exact Or.inl (freeBlocks_delete_subset hb)
  | none =>
    cases hl : popLarger s (maxOrder - order) (order + 1) with
    | none =>
      simp only [hpop, hl] at he
      split at he
      · cases he
      · cases he
        exact Or.inl hb
    | some r =>
      obtain ⟨addr, corder, u⟩ := r
      obtain ⟨h1, _, hp, rfl⟩ := popLarger_some hl
      have hsum : order + (corder - order) = corder := by omega
      have hal : (blk shift addr (order + (corder - order))).Aligned := by
        rw [hsum]
        exact h.blocks.aligned _ (Or.inl (mem_freeBlocks.mpr hp))
      simp only [hpop, hl] at he
      obtain ⟨⟨⟩, _, he⟩ := bind_ok he
      cases he
      rcases splitDown_free _ hal hb with hb | hb
      · exact Or.inl (freeBlocks_delete_subset hb)
      · exact Or.inr hb

theorem Coalesced.allocate (hc : Coalesced shift s R) (h : BuddyInv shift s R H)
    (he : buddyAllocate shift s order flags = .ok (p, t))
    (ht : BuddyInv shift t R (insert (blk shift p order) H)) : Coalesced shift t R := by
  have hout : ∀ c ∈ freeBlocks shift t, ¬ Mem p c := by
    intro c hcf hpc
    have hmem : blk shift p order ∈ insert (blk shift p order) H := Set.mem_insert _ _
    have heq := ht.blocks.tiling.eq_of_mem (Or.inl hcf) (Or.inr hmem) hpc
      (base_mem (blk shift p order))
    exact ht.blocks.handed_not_free _ hmem (heq ▸ hcf)
  intro b hb hs r hr hin
  rcases buddyAllocate_free h he hb with hb' | hm
  · rcases buddyAllocate_free h he hs with hs' | hm
    · exact hc b hb' hs' r hr hin
    · rw [sibling_sibling] at hm
      exact (hout b hb hm).elim
  · exact (hout _ hs hm).elim

variable {q j : ℕ}

theorem mergeUp_free (fuel : ℕ) (he : mergeUp shift fuel s p k = (t, q, j))
    (hb : b ∈ freeBlocks shift t) : b ∈ freeBlocks shift s := by
  induction fuel generalizing s p k with
  | zero =>
    cases he
    exact hb
  | succ fuel ih =>
    rw [mergeUp] at he
    dsimp only at he
    split at he
    · split at he
      · cases he
        exact hb
      · split at he
        · cases he
          exact hb
        · have hrest := ih he
          exact freeBlocks_delete_subset hrest
    · cases he
      exact hb

theorem mergeUp_stops (fuel : ℕ) (hf : 15 ≤ k + fuel) (he : mergeUp shift fuel s p k = (t, q, j))
    (hj : j < getMaxOrder (pfndbGetEntry shift t q).order) :
    (pfndbGetEntry shift t (q ^^^ getOrderSize shift j)).type ≠ .free ∨
      getCurOrder (pfndbGetEntry shift t (q ^^^ getOrderSize shift j)).order ≠ j := by
  induction fuel generalizing s p k with
  | zero =>
    cases he
    have := getMaxOrder_lt (pfndbGetEntry shift t q).order
    omega
  | succ fuel ih =>
    rw [mergeUp] at he
    dsimp only at he
    split at he
    · split at he
      · cases he
        exact Or.inl ‹_›
      · split at he
        · cases he
          exact Or.inr ‹_›
        · exact ih (by omega) he
    · cases he
      omega

theorem Coalesced.free (hc : Coalesced shift s R)
    (h : BuddyInv shift s R (insert (blk shift p k) G)) (hb : blk shift p k ∉ G) :
    Coalesced shift (buddyFree shift s p k) R := by
  obtain ⟨u, q, j, he⟩ : ∃ u q j, mergeUp shift (15 - k) s p k = (u, q, j) := ⟨_, _, _, rfl⟩
  have hm := mergeUp_spec _ h.blocks hb h.typed he
  have hmem : blk shift q j ∈ insert (blk shift q j) G := Set.mem_insert _ _
  have hal : (blk shift q j).Aligned := hm.blocks.aligned _ (Or.inr hmem)
  have hfree : freeBlocks shift (buddyFree shift s p k) =
      insert (blk shift q j) (freeBlocks shift u) := by
    simp only [buddyFree, he]
    rw [freeBlocks_push, freeBlocks_setEntry]
  -- a free buddy of the block put back means that the loop has reached the root
  have stop : (blk shift q j).sibling ∈ freeBlocks shift u →
      ∀ r ∈ R, Inside (blk shift q j) r → r.exp ≤ shift + j := by
    intro hs r hr hin
    have hlist : q ^^^ getOrderSize shift j ∈ u.orders j := mem_freeBlocks.mp hs
    obtain ⟨r', hr', hin', hexp⟩ := hm.blocks.rooted _ (Or.inr hmem)
    obtain rfl : r = r' := hm.blocks.root_unique hr hr'
      (inside_iff.mp hin _ (base_mem _)) (inside_iff.mp hin' _ (base_mem _))
    by_contra hlt
    have hj : j < getMaxOrder (pfndbGetEntry shift u q).order := by
      have hexp' : r.exp = shift + getMaxOrder (pfndbGetEntry shift u q).order := hexp
      omega
    rcases mergeUp_stops _ (by omega) he hj with hty | hcur
    · exact hty (hm.typed.listed_free hm.blocks hlist)
    · exact hcur (hm.typed.current j _ hlist)
  intro b hbf hs r hr hin
  rw [hfree] at hbf hs
  rcases hbf with rfl | hbf
  · rcases hs with hs | hs
    · exact (sibling_base_ne hal (congrArg Block.base hs)).elim
    · exact stop hs r hr hin
  · rcases hs with hs | hs
    · have hsib : (blk shift q j).sibling = b := by rw [← hs, sibling_sibling]
      have hexp : b.exp = shift + j := congrArg Block.exp hs
      by_contra hlt
      have hbal : b.Aligned := hsib ▸ hal.sibling
      have hin' := sibling_inside hbal (hm.blocks.roots r hr).1 hin (by omega)
      rw [hs] at hin'
      have := stop (hsib ▸ hbf) r hr hin'
      omega
    · exact hc b (mergeUp_free _ he hbf) (mergeUp_free _ he hs) r hr hin

theorem Coalesced.addBlock (hc : Coalesced shift s R) (h : BuddyInv shift s R H)
    (hnew : ∀ r ∈ R, Apart (blk shift p k) r) :
    Coalesced shift (buddyAddBlock shift s p k) (insert (blk shift p k) R) := by
  intro b hb hs r hr hin
  rw [freeBlocks_addBlock] at hb hs
  by_contra hlt
  rcases hb with rfl | hb
  · rcases hr with rfl | hr
    · exact hlt le_rfl
    · exact apart_iff.mp (hnew r hr) _ (base_mem _) (inside_iff.mp hin _ (base_mem _))
  · obtain ⟨r', hr', hin', _⟩ := h.blocks.rooted b (Or.inl hb)
    rcases hr with rfl | hr
    · exact apart_iff.mp (hnew r' hr') _ (inside_iff.mp hin _ b.base_mem)
        (inside_iff.mp hin' _ b.base_mem)
    · rcases hs with hs | hs
      · have hsr := sibling_inside (h.blocks.aligned b (Or.inl hb)) (h.blocks.roots r hr).1 hin
          (by omega)
        rw [hs] at hsr
        exact apart_iff.mp (hnew r hr) _ (base_mem _) (inside_iff.mp hsr _ (base_mem _))
      · exact hlt (hc b hb hs r hr hin)

theorem run_coalesced (hs : shift ≤ 64) (h : Run shift s A R H) : Coalesced shift s R := by
  induction h with
  | start =>
    intro b hb
    obtain ⟨k, hk, _⟩ := hb
    simp [initial] at hk
  | addRange hr hv hd he ih =>
    obtain ⟨hi, hreg, _⟩ := run_inv hs hr
    have hpages := pages_between hs hv
    obtain ⟨i1, i2, i3, i4⟩ := buddyAddRange_roots hs (hv.first_ne_zero hs)
    obtain rfl := Except.ok.inj (i1.symm.trans he)
    refine (addBlocks_keeps (fun hi hc hnew => hc.addBlock hi hnew) hi ih i2 i3 ?_).2
    intro b hb r hr
    apply apart_iff.mpr
    intro a hab har
    obtain ⟨q, hq, haq⟩ := (hreg a).mp ⟨r, hr, har⟩
    exact addedPages_disjoint (hd q hq) haq ((hpages a).mpr ((i4 a).mp ⟨b, hb, hab⟩))
  | allocate hr ho he hp ih =>
    exact ih.allocate (run_inv hs hr).1 he (run_inv hs (Run.allocate hr ho he hp)).1
  | allocateFails hr ho he ih =>
    obtain ⟨hi, _, hz⟩ := run_inv hs hr
    rcases buddyAllocate_spec hi ho _ with ⟨q, u, hu, hal⟩ | ⟨_, hu⟩
    · obtain ⟨rfl, rfl⟩ : q = 0 ∧ u = _ := by simpa using hu.symm.trans he
      exact (hz (hal.inv.blocks.inside_region (Set.mem_insert _ _) (base_mem (blk _ 0 _)))).elim
    · rw [he] at hu
      split at hu
      · cases hu
      · cases hu
        exact ih
  | free hr hb ih =>
    have hi := (run_inv hs hr).1
    rw [← Set.insert_eq_of_mem hb, ← Set.insert_sdiff_singleton] at hi
    exact ih.free hi fun hm => hm.2 rfl
  | markPtable _ _ _ ih => exact ih

theorem free_eq_roots (hs : shift ≤ 64) (h : Run shift s A R ∅) : freeBlocks shift s = R := by
  have hB := (run_inv hs h).1.blocks
  have hco := run_coalesced hs h
  have htile : Tiling (freeBlocks shift s) (region R) := by
    have := hB.tiling
    rwa [Set.union_empty] at this
  have hroot : ∀ b ∈ freeBlocks shift s, ∀ r ∈ R, Inside b r → b = r := by
    intro b hb r hr hin
    apply htile.whole (fun c hc => hB.aligned c (Or.inl hc)) (hB.roots r hr).1
      (fun a ha => ⟨r, hr, ha⟩) _ hb hin
    intro c hc hsib hcr
    exact hco c hc hsib r hr hcr
  ext b
  constructor
  · intro hb
    obtain ⟨r, hr, hin, _⟩ := hB.rooted b (Or.inl hb)
    exact hroot b hb r hr hin ▸ hr
  · intro hb
    obtain ⟨c, hc, hbc⟩ := (htile.cover b.base).mp ⟨b, hb, b.base_mem⟩
    obtain ⟨r, hr, hin, _⟩ := hB.rooted c (Or.inl hc)
    have hcr := hroot c hc r hr hin
    have hbr := hB.root_unique hb hr b.base_mem (inside_iff.mp hin _ hbc)
    rw [hbr, ← hcr]
    exact hc

/-- Boot-time runs: ranges are added and nothing is allocated yet. -/
inductive Added (shift : ℕ) : State → List (ℕ × ℕ) → Set Block → Prop where
  | start : Added shift initial [] ∅
  | addRange {s t A R start length} : Added shift s A R → ValidRange shift start length →
      (∀ r ∈ A, RangesDisjoint r (start, length)) →
      buddyAddRange shift s start length = .ok t →
      Added shift t ((start, length) :: A) (R ∪ {b | b ∈ rootBlocks shift start length})

theorem Added.run (h : Added shift s A R) : Run shift s A R ∅ := by
  induction h with
  | start => exact Run.start
  | addRange _ hv hd he ih => exact Run.addRange ih hv hd he

/-- In every state of every run no two buddies below the order of their root are both
free, and whenever every block has been given back the free lists hold the blocks they
held right after the ranges were added. -/
theorem buddy_coalescing_complete (hs : shift ≤ 64) (h : Run shift s A R H) :
    (∀ r ∈ R, ∀ p k, Inside (blk shift p k) r → shift + k < r.exp →
      ¬ (p ∈ s.orders k ∧ p ^^^ getOrderSize shift k ∈ s.orders k)) ∧
    (H = ∅ → ∀ s₀, Added shift s₀ A R → ∀ p k, p ∈ s.orders k ↔ p ∈ s₀.orders k) := by
  constructor
  · rintro r hr p k hin hlt ⟨hp, hq⟩
    have := run_coalesced hs h _ (mem_freeBlocks.mpr hp) (mem_freeBlocks.mpr hq) r hr hin
    exact absurd this (not_le.mpr hlt)
  · rintro rfl s₀ h₀ p k
    have hfree : freeBlocks shift s = freeBlocks shift s₀ := by
      rw [free_eq_roots hs h, free_eq_roots hs h₀.run]
    constructor
    · exact fun hp => mem_freeBlocks.1 (hfree ▸ mem_freeBlocks.2 hp)
    · exact fun hp => mem_freeBlocks.1 (hfree ▸ mem_freeBlocks.2 hp)

/-- Two pages are taken, the second from a split block, and given back oldest first. -/
theorem coalescing_two_pages : ∃ (s s₀ : State) (R H : Set Block),
    Run 12 s [(0x1000, 0x3000)] R H ∧ Added 12 s₀ [(0x1000, 0x3000)] R ∧ H = ∅ ∧
      ∀ p k, p ∈ s.orders k ↔ p ∈ s₀.orders k := by
  have hv : ValidRange 12 0x1000 0x3000 :=
    ⟨by decide, by decide, by simp [addedPages]⟩
  have hadd := Added.addRange Added.start hv (by simp) rfl
  have hone := @Run.allocate 12 _ _ _ _ _ 0 0 0x1000 hadd.run (by decide) rfl (by decide)
  have htwo := @Run.allocate 12 _ _ _ _ _ 0 0 0x2000 hone (by decide) rfl (by decide)
  have hback := @Run.free 12 _ _ _ _ 0x1000 0 htwo (by simp)
  have hrun := @Run.free 12 _ _ _ _ 0x2000 0 hback (by simp [blk])
  have hempty : (insert (blk 12 0x2000 0) (insert (blk 12 0x1000 0) (∅ : Set Block)) \
      {blk 12 0x1000 0}) \ {blk 12 0x2000 0} = ∅ := by
    ext b
    simp
    tauto
  exact ⟨_, _, _, _, hrun, hadd, hempty,
    (buddy_coalescing_complete (by decide) hrun).2 hempty _ hadd⟩

/-- An aligned block of a root block of which nothing is handed out. -/
def Vacant (R H : Set Block) (b : Block) : Prop :=
  b.Aligned ∧ (∃ r ∈ R, Inside b r) ∧ ∀ c ∈ H, Apart b c

/-- The pages of a vacant block have been coalesced at least as far as that block. -/
theorem vacant_inside_free (hs : shift ≤ 64) (h : Run shift s A R H) (hb : Vacant R H b) :
    ∃ c ∈ freeBlocks shift s, Inside b c := by
  obtain ⟨hal, ⟨r, hr, hbr⟩, hapart⟩ := hb
  have hB := (run_inv hs h).1.blocks
  have hfree : ∀ c ∈ freeBlocks shift s ∪ H, ∀ a, Mem a b → Mem a c → c ∈ freeBlocks shift s := by
    intro c hc a hab hac
    rcases hc with hc | hc
    · exact hc
    · exact absurd hac (apart_iff.mp (hapart c hc) a hab)
  have hcov : ∀ a, Mem a b → a ∈ region R := fun a ha => ⟨r, hr, inside_iff.mp hbr a ha⟩
  obtain ⟨c, hc, hmem⟩ := (hB.tiling.cover b.base).mp (hcov _ b.base_mem)
  refine ⟨c, hfree c hc _ b.base_mem hmem, ?_⟩
  rcases le_total b.exp c.exp with he | he
  · exact inside_of_meet hal (hB.aligned c hc) he b.base_mem hmem
  · have hcb := inside_of_meet (hB.aligned c hc) hal he hmem b.base_mem
    have hwhole : c = b := by
      apply hB.tiling.whole hB.aligned hal hcov _ hc hcb
      intro d hd hsib hdb
      by_contra hlt
      have hsb := sibling_inside (hB.aligned d hd) hal hdb (not_le.mp hlt)
      have hroot := run_coalesced hs h d (hfree d hd _ (inside_iff.mp hdb _ d.base_mem) d.base_mem)
        (hfree _ hsib _ (inside_iff.mp hsb _ d.sibling.base_mem) d.sibling.base_mem) r hr
        (hdb.trans hbr)
      exact hlt (hbr.exp_le.trans hroot)
    exact hwhole ▸ Inside.refl c

/-- In every state of every run `buddy_allocate` finds a block exactly when there is a vacant one of
its order. -/
theorem buddy_allocate_exact (hs : shift ≤ 64) (h : Run shift s A R H) (ho : order ≤ maxOrder)
    (flags : ℕ) : (∃ p t, buddyAllocate shift s order flags = .ok (p, t) ∧ p ≠ 0) ↔
      ∃ b, b.exp = shift + order ∧ Vacant R H b := by
  obtain ⟨hinv, -, hzero⟩ := run_inv hs h
  rcases buddyAllocate_spec hinv ho flags with ⟨p, t, hok, hal⟩ | ⟨hnone, hfail⟩
  · have hmem : blk shift p order ∈ freeBlocks shift t ∪ insert (blk shift p order) H :=
      Or.inr (Set.mem_insert _ _)
    have hB := hal.inv.blocks
    constructor
    · intro _
      obtain ⟨r, hr, hin, -⟩ := hB.rooted _ hmem
      refine ⟨blk shift p order, rfl, hB.aligned _ hmem, ⟨r, hr, hin⟩, fun c hc => ?_⟩
      apply hB.tiling.apart _ hmem c (Or.inr (Set.mem_insert_of_mem _ hc))
      rintro rfl
      exact hal.fresh hc
    · intro _
      refine ⟨p, t, hok, ?_⟩
      rintro rfl
      exact hzero (hB.inside_region (Set.mem_insert _ _) (base_mem (blk shift 0 order)))
  · constructor
    · rintro ⟨p, t, hok, hp⟩
      rw [hfail] at hok
      split at hok
      · cases hok
      · cases hok
        exact absurd rfl hp
    · rintro ⟨b, hb, hv⟩
      obtain ⟨c, ⟨k, hk, hc⟩, hin⟩ := vacant_inside_free hs h hv
      have hle := hin.exp_le
      rw [hnone k (by omega)] at hk
      cases hk

theorem one_page_out_exact : ∃ (s : State) (R H : Set Block),
    Run 12 s [(0x1000, 0x3000)] R H ∧ blk 12 0x1000 0 ∈ H ∧ ∃ b, b.exp = 12 + 1 ∧ Vacant R H b := by
  have hv : ValidRange 12 0x1000 0x3000 :=
    ⟨by decide, by decide, by simp [addedPages]⟩
  have hadd := Added.addRange Added.start hv (by simp) rfl
  have hone := @Run.allocate 12 _ _ _ _ _ 0 0 0x1000 hadd.run (by decide) rfl (by decide)
  exact ⟨_, _, _, hone, Set.mem_insert _ _,
    (buddy_allocate_exact (by decide) hone (by decide) 0).mp ⟨0x2000, _, rfl, by decide⟩⟩

end MemBuddyCoalescing
