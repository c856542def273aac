import EvalynKernel.MemBuddyInvariant
import Mathlib.Algebra.BigOperators.Group.Finset.Basic
import Mathlib.Algebra.BigOperators.Intervals

/-! # What each buddy operation does

One specification for `buddy_allocate` and one for `buddy_free`: how the handed-out
blocks change, which frame database entries may be written, and how many frames remain. -/
namespace MemBuddyOperations

open Function DstructLlist DyadicBlocks DyadicBlocks.Block MemBuddyAllocator MemBuddyInvariant

variable {shift : ℕ} {s t : State} {R H G : Set Block} {P : Set ℕ}

def availableFrames (s : State) : ℕ :=
  ∑ k ∈ Finset.range (maxOrder + 1), (s.orders k).length * 2 ^ k

variable {k : ℕ}

theorem available_update (s : State) (hk : k ≤ maxOrder) (l : List ℕ) :
    availableFrames { s with orders := update s.orders k l } +
      (s.orders k).length * 2 ^ k = availableFrames s + l.length * 2 ^ k := by
  have hmem : k ∈ Finset.range (maxOrder + 1) := Finset.mem_range.mpr (by omega)
  unfold availableFrames
  rw [← Finset.add_sum_erase _ _ hmem, ← Finset.add_sum_erase _ _ hmem]
  have hrest : ∀ j ∈ (Finset.range (maxOrder + 1)).erase k,
      (update s.orders k l j).length * 2 ^ j = (s.orders j).length * 2 ^ j := by
    intro j hj
    rw [update_of_ne (Finset.ne_of_mem_erase hj)]
  rw [Finset.sum_congr rfl hrest]
  simp only [update_self]
  omega

theorem available_push (s : State) (hk : k ≤ maxOrder) (p : ℕ) :
    availableFrames (pushOrder s k p) = availableFrames s + 2 ^ k := by
  have h := available_update s hk (p :: s.orders k)
  rw [List.length_cons, Nat.succ_mul] at h
  unfold pushOrder llistPushFront
  omega

variable {p : ℕ}

theorem available_delete (hk : k ≤ maxOrder) (hp : p ∈ s.orders k) :
    availableFrames (deleteOrder s k p) + 2 ^ k = availableFrames s := by
  have h := available_update s hk ((s.orders k).erase p)
  have hl := List.length_erase_of_mem hp
  have hpos := List.length_pos_of_mem hp
  obtain ⟨n, hn⟩ := Nat.exists_eq_succ_of_ne_zero (Nat.ne_of_gt hpos)
  rw [hl, hn, Nat.succ_eq_add_one, Nat.add_sub_cancel, Nat.succ_mul] at h
  unfold deleteOrder llistNodeDelete
  omega

theorem available_setEntry (s : State) (p : ℕ) (e : Page) :
    availableFrames (setEntry shift s p e) = availableFrames s := rfl

theorem popOrder_some (h : popOrder s k = some (p, t)) :
    p ∈ s.orders k ∧ t = deleteOrder s k p := by
  unfold popOrder at h
  split at h
  · cases h
  · rename_i q rest ho
    obtain ⟨rfl, rfl⟩ := h
    exact ⟨by simp [ho], rfl⟩

theorem popOrder_none (h : popOrder s k = none) : s.orders k = [] := by
  unfold popOrder at h
  split at h
  · assumption
  · cases h

variable {fuel c : ℕ}

theorem popLarger_some (h : popLarger s fuel c = some (p, k, t)) :
    c ≤ k ∧ k < c + fuel ∧ p ∈ s.orders k ∧ t = deleteOrder s k p := by
  induction fuel generalizing c with
  | zero => cases h
  | succ fuel ih =>
    unfold popLarger at h
    split at h
    · rename_i q u hq
      obtain ⟨rfl, rfl, rfl⟩ := h
      obtain ⟨hm, hu⟩ := popOrder_some hq
      exact ⟨le_rfl, by omega, hm, hu⟩
    · obtain ⟨h1, h2, h3⟩ := ih h
      exact ⟨by omega, by omega, h3⟩

theorem popLarger_none (h : popLarger s fuel c = none) (hc : c ≤ k) (hk : k < c + fuel) :
    s.orders k = [] := by
  induction fuel generalizing c with
  | zero => omega
  | succ fuel ih =>
    unfold popLarger at h
    split at h
    · cases h
    · rename_i hq
      by_cases hkc : k = c
      · exact hkc ▸ popOrder_none hq
      · exact ih h (by omega) (by omega)

variable {order : ℕ}

theorem splitDown_spec (n : ℕ) (hn : order + n ≤ maxOrder)
    (h : Blocks shift s R (insert (blk shift addr (order + n)) G))
    (hb : blk shift addr (order + n) ∉ G) (ht : Typed shift s {addr >>> shift})
    (hm : getMaxOrder (pfndbGetEntry shift s addr).order = maxOrd)
    (he : t = splitDown shift addr maxOrd order n s) :
    Blocks shift t R (insert (blk shift addr order) G) ∧ blk shift addr order ∉ G ∧
      Typed shift t {addr >>> shift} ∧ pfndbGetEntry shift t addr = pfndbGetEntry shift s addr ∧
      (∀ f, ¬ Mem (f <<< shift) (blk shift addr (order + n)) → t.pfndb f = s.pfndb f) ∧
      (∀ f, (t.pfndb f).refCount = (s.pfndb f).refCount) ∧
      availableFrames t + 2 ^ order = availableFrames s + 2 ^ (order + n) := by
  induction n generalizing s with
  | zero =>
    subst he
    exact ⟨h, hb, ht, rfl, fun _ _ => rfl, fun _ => rfl, rfl⟩
  | succ n ih =>
    let b := blk shift addr (order + (n + 1))
    let buddy := addr + getOrderSize shift (order + n)
    let e : Page := { pfndbGetEntry shift s buddy with
      type := .free
      order := setCurOrder (setMaxOrder (pfndbGetEntry shift s buddy).order maxOrd) (order + n) }
    let s₁ := setEntry shift s buddy e
    let s₂ := pushOrder s₁ (order + n) buddy
    have hmo : order + n < 16 := by unfold maxOrder at hn; omega
    have hml : maxOrd < 16 := hm ▸ getMaxOrder_lt _
    have hexp : b.exp = shift + (order + n) + 1 := by simp [b, blk]; omega
    have hlow : b.lower = blk shift addr (order + n) := by
      apply Block.ext
      · rfl
      · show b.exp - 1 = shift + (order + n)
        omega
    have hup : b.upper = blk shift buddy (order + n) := by
      apply Block.ext
      · show addr + 2 ^ (b.exp - 1) = addr + 2 ^ (shift + (order + n))
        rw [hexp, Nat.add_sub_cancel]
      · show b.exp - 1 = shift + (order + n)
        omega
    have hbase : b.upper.base = buddy := by rw [hup]; rfl
    have hin : Mem buddy b := by
      have := inside_iff.mp (upper_inside (b := b) (by omega)) _ (base_mem b.upper)
      rwa [hbase] at this
    have haddr : addr ≠ buddy := Nat.ne_of_lt (Nat.lt_add_of_pos_right (Nat.two_pow_pos _))
    have hpage : 2 ^ shift ∣ addr := h.page_dvd (b := b) (Or.inr (Set.mem_insert _ _))
    have hbpage : 2 ^ shift ∣ buddy :=
      Nat.dvd_add hpage (Nat.pow_dvd_pow 2 (Nat.le_add_right shift _))
    have hheads : ∀ c ∈ freeBlocks shift s ∪ insert b G, c.base ≠ buddy := by
      intro c hc hcb
      have heq := h.tiling.eq_of_mem hc (Or.inr (Set.mem_insert _ _)) c.base_mem (hcb ▸ hin)
      exact haddr (by rw [← hcb, heq]; rfl)
    have hunlisted : ∀ j, buddy ∉ s.orders j := fun j hj =>
      hheads (blk shift buddy j) (Or.inl (mem_freeBlocks.mpr hj)) rfl
    have hframe : addr >>> shift ≠ buddy >>> shift := fun heq =>
      haddr (frame_injective hpage hbpage heq)
    have hkeep : pfndbGetEntry shift s₁ addr = pfndbGetEntry shift s addr := entry_set_ne _ _ hframe
    have h₁ : Blocks shift s₁ R (insert b G) := h.set_interior hbpage e hheads
    have hmax₁ : getMaxOrder (pfndbGetEntry shift s₁ b.upper.base).order =
        getMaxOrder (pfndbGetEntry shift s₁ b.base).order := by
      rw [hbase, entry_set_self, show pfndbGetEntry shift s₁ b.base = _ from hkeep, hm]
      rw [getMaxOrder_setCurOrder hmo, getMaxOrder_setMaxOrder hml]
    have hsplit := h₁.split_insert hb (by omega) hmax₁
    have hlowG : b.lower ∉ G := h.fresh hb b.base_mem b.lower.base_mem
    have hupG : b.upper ∉ insert b.lower G := by
      rintro (heq | hG)
      · exact haddr (by rw [← hbase, heq]; rfl)
      · exact h.fresh hb hin (hbase ▸ base_mem b.upper) hG
    rw [hup] at hsplit hupG
    have h₂ : Blocks shift s₂ R (insert b.lower G) := hsplit.put_insert hupG (by omega)
    have ht₂ : Typed shift s₂ {addr >>> shift} :=
      ht.put h hbpage hunlisted rfl (getCurOrder_setCurOrder hmo)
    obtain ⟨i1, i2, i3, i4, i5, i6, i7⟩ := ih (s := s₂) (by omega) h₂ hlowG ht₂
      (by rw [← hm]; exact congrArg (fun e => getMaxOrder e.order) hkeep) he
    refine ⟨i1, i2, i3, i4.trans hkeep, ?_, ?_, ?_⟩
    · intro f hf
      have hlowf : ¬ Mem (f <<< shift) (blk shift addr (order + n)) := fun hx =>
        hf (inside_iff.mp (lower_inside (b := b) (by omega)) _ (hlow ▸ hx))
      rw [i5 f hlowf]
      have hne : f ≠ buddy >>> shift := by
        rintro rfl
        rw [frame_address hbpage] at hf
        exact hf hin
      simp [s₂, s₁, setEntry, hne]
    · intro f
      rw [i6 f]
      by_cases hf : f = buddy >>> shift
      · subst f
        simp [s₂, s₁, e, setEntry, pfndbGetEntry]
      · simp [s₂, s₁, setEntry, hf]
    · have hav : availableFrames s₂ = availableFrames s + 2 ^ (order + n) :=
        available_push s₁ (by omega) buddy
      rw [i7, ← Nat.add_assoc order n 1, Nat.pow_succ]
      omega

structure Allocated (shift : ℕ) (s : State) (R H : Set Block) (order p : ℕ) (t : State) :
    Prop where
  inv : BuddyInv shift t R (insert (blk shift p order) H)
  fresh : blk shift p order ∉ H
  was_free : ∃ b ∈ freeBlocks shift s, Inside (blk shift p order) b
  type : (pfndbGetEntry shift t p).type = .allocated
  frame : ∀ f, (∀ b ∈ freeBlocks shift s, ¬ Mem (f <<< shift) b) → t.pfndb f = s.pfndb f
  refs : ∀ f, (t.pfndb f).refCount = (s.pfndb f).refCount
  available : availableFrames t + 2 ^ order = availableFrames s

theorem mark_allocated (h : Blocks shift s R (insert (blk shift p order) G))
    (ht : Typed shift s {p >>> shift}) (hty : e.type ≠ .free)
    (hmax : getMaxOrder e.order = getMaxOrder (pfndbGetEntry shift s p).order) :
    BuddyInv shift (setEntry shift s p e) R (insert (blk shift p order) G) := by
  have hmem : blk shift p order ∈ insert (blk shift p order) G := Set.mem_insert _ _
  refine ⟨h.set_same_max p hmax, ?_⟩
  have hpage : 2 ^ shift ∣ p := h.page_dvd (b := blk shift p order) (Or.inr hmem)
  simpa using ht.retype h hpage (h.handed_base hmem) hty

theorem mem_own_head (p : ℕ) (hp : 2 ^ shift ∣ p) (k : ℕ) :
    Mem ((p >>> shift) <<< shift) (blk shift p k) := by
  rw [frame_address hp]
  exact base_mem (blk shift p k)

/-- `buddy_allocate` hands out a block, or no list at or above the order has one. -/
theorem buddyAllocate_spec (h : BuddyInv shift s R H) (ho : order ≤ maxOrder) (flags : ℕ) :
    (∃ p t, buddyAllocate shift s order flags = .ok (p, t) ∧ Allocated shift s R H order p t) ∨
    ((∀ k, order ≤ k → s.orders k = []) ∧ buddyAllocate shift s order flags =
      if flags &&& allocFlagNofail != 0 then .error outOfMemory else
        .ok (0, s)) := by
  obtain ⟨hB, hT⟩ := h
  cases hpop : popOrder s order with
  | some r =>
    obtain ⟨p, u⟩ := r
    obtain ⟨hp, rfl⟩ := popOrder_some hpop
    have hfree : blk shift p order ∈ freeBlocks shift s := mem_freeBlocks.mpr hp
    have hpage := hB.listed_dvd hp
    left
    refine ⟨p, _, by simp only [buddyAllocate, hpop]; rfl, ?_⟩
    have hT' : Typed shift (deleteOrder s order p) {p >>> shift} := by
      simpa using hT.take hB hp
    refine ⟨mark_allocated (hB.take hp) hT' (by simp) rfl,
      fun hH => hB.handed_not_free _ hH hfree, ⟨_, hfree, Inside.refl _⟩, ?_, ?_, ?_, ?_⟩
    · rw [entry_set_self]
    · intro f hf
      have hne : f ≠ p >>> shift := by
        rintro rfl
        exact hf _ hfree (mem_own_head p hpage order)
      simp [setEntry, hne]
    · intro f
      by_cases hf : f = p >>> shift
      · subst f; simp [setEntry, pfndbGetEntry]
      · simp [setEntry, hf]
    · exact available_delete ho hp
  | none =>
    cases hl : popLarger s (maxOrder - order) (order + 1) with
    | none =>
      right
      refine ⟨?_, by simp only [buddyAllocate, hpop, hl]⟩
      intro k hk
      by_cases hko : k = order
      · exact hko ▸ popOrder_none hpop
      · by_cases hkm : k ≤ maxOrder
        · exact popLarger_none hl (by omega) (by omega)
        · exact hB.bounded k (by omega)
    | some r =>
      obtain ⟨addr, corder, u⟩ := r
      obtain ⟨h1, h2, hp, rfl⟩ := popLarger_some hl
      have hfree : blk shift addr corder ∈ freeBlocks shift s := mem_freeBlocks.mpr hp
      have hpage := hB.listed_dvd hp
      have hsum : order + (corder - order) = corder := by omega
      have hT' : Typed shift (deleteOrder s corder addr) {addr >>> shift} := by
        simpa using hT.take hB hp
      have hnew : blk shift addr corder ∉ H := fun hH => hB.handed_not_free _ hH hfree
      have hle : order + (corder - order) ≤ maxOrder := by omega
      have hlt : order < 16 := by unfold maxOrder at ho; omega
      have hty : (pfndbGetEntry shift s addr).type = .free := hT.listed_free hB hp
      obtain ⟨u, hu⟩ : ∃ u, u = splitDown shift addr
        (getMaxOrder (pfndbGetEntry shift (deleteOrder s corder addr) addr).order) order
        (corder - order) (deleteOrder s corder addr) := ⟨_, rfl⟩
      obtain ⟨i1, i2, i3, i4, i5, i6, i7⟩ := splitDown_spec (corder - order) hle
        (by rw [hsum]; exact hB.take hp) (by rw [hsum]; exact hnew) hT' rfl hu
      have hrun : buddyAllocate shift s order flags = .ok (addr, setEntry shift u addr
          { pfndbGetEntry shift u addr with
            type := .allocated
            order := setCurOrder (pfndbGetEntry shift u addr).order order }) := by
        have hfr : (pfndbGetEntry shift u addr).type = .free := by rw [i4]; exact hty
        simp only [buddyAllocate, hpop, hl]
        rw [← hu, hfr]
        rfl
      left
      refine ⟨addr, _, hrun, mark_allocated i1 i3 (by simp) (getMaxOrder_setCurOrder hlt), i2,
        ⟨_, hfree, ?_⟩, by rw [entry_set_self], ?_, ?_, ?_⟩
      · exact inside_of_meet (i1.aligned _ (Or.inr (Set.mem_insert _ _)))
          (hB.aligned _ (Or.inl hfree)) (Nat.add_le_add_left (by omega) shift)
          (base_mem (blk shift addr order)) (base_mem (blk shift addr corder))
      · intro f hf
        have hne : f ≠ addr >>> shift := by
          rintro rfl
          exact hf _ hfree (mem_own_head addr hpage corder)
        have := i5 f (by rw [hsum]; exact hf _ hfree)
        simpa [setEntry, hne] using this
      · intro f
        have hf6 : (u.pfndb f).refCount = (s.pfndb f).refCount := i6 f
        by_cases hf : f = addr >>> shift
        · subst f; simpa [setEntry, pfndbGetEntry] using hf6
        · simpa [setEntry, hf] using hf6
      · rw [available_setEntry, i7, hsum]
        exact available_delete (by omega) hp

structure Released (shift : ℕ) (s : State) (R G : Set Block) (p k : ℕ) (t : State) : Prop where
  inv : BuddyInv shift t R G
  frame : ∀ f, ¬ Mem (f <<< shift) (blk shift p k) →
    (∀ b ∈ freeBlocks shift s, ¬ Mem (f <<< shift) b) → t.pfndb f = s.pfndb f
  refs : ∀ f, (t.pfndb f).refCount = (s.pfndb f).refCount
  available : availableFrames t = availableFrames s + 2 ^ k

theorem merge_step (h : Blocks shift s R (insert (blk shift p k) G)) (hb : blk shift p k ∉ G)
    (ht : Typed shift s ∅) (hk : k < getMaxOrder (pfndbGetEntry shift s p).order)
    (hx : buddy = p ^^^ getOrderSize shift k) (hty : (pfndbGetEntry shift s buddy).type = .free)
    (hc : getCurOrder (pfndbGetEntry shift s buddy).order = k)
    (he : t =
      setEntry shift (deleteOrder s k buddy) buddy { pfndbGetEntry shift s buddy with type :=
      .allocated }) :
    Blocks shift t R (insert (blk shift (min p buddy) (k + 1)) G) ∧
      blk shift (min p buddy) (k + 1) ∉ G ∧ Typed shift t ∅ ∧
      blk shift buddy k ∈ freeBlocks shift s ∧
      freeBlocks shift t = freeBlocks shift s \ {blk shift buddy k} ∧
      (∀ a, Mem a (blk shift (min p buddy) (k + 1)) ↔
        Mem a (blk shift p k) ∨ Mem a (blk shift buddy k)) ∧
      (∀ f, f ≠ buddy >>> shift → t.pfndb f = s.pfndb f) ∧
      (∀ f, (t.pfndb f).refCount = (s.pfndb f).refCount) ∧
      availableFrames t + 2 ^ k = availableFrames s := by
  have hal : (blk shift p k).Aligned := h.aligned _ (Or.inr (Set.mem_insert _ _))
  have hsib : (blk shift p k).sibling = blk shift buddy k := by rw [hx]; rfl
  have hpar : (blk shift p k).parent = blk shift (min p buddy) (k + 1) := by rw [hx]; rfl
  have hbpage : 2 ^ shift ∣ buddy := by
    have hs := hal.sibling
    rw [hsib] at hs
    exact dvd_trans (Nat.pow_dvd_pow 2 (Nat.le_add_right shift k)) hs
  have hlist : buddy ∈ s.orders k := by
    have := (ht.free_iff (buddy >>> shift)).mp hty
    rw [frame_address hbpage] at this
    rcases this with hm | hm
    · rw [← hc]
      exact hm
    · cases hm
  have hfree : blk shift buddy k ∈ freeBlocks shift s := mem_freeBlocks.mpr hlist
  have hnG : blk shift buddy k ∉ G := fun hG =>
    h.handed_not_free _ (Set.mem_insert_of_mem _ hG) hfree
  have htake := h.take hlist
  have htyp : Typed shift (deleteOrder s k buddy) {buddy >>> shift} := by
    simpa using ht.take h hlist
  have hset := mark_allocated (G := insert (blk shift p k) G) htake htyp
    (e := { pfndbGetEntry shift s buddy with type := .allocated }) (by simp) rfl
  rw [← he] at hset
  have hne : p >>> shift ≠ buddy >>> shift := by
    intro heq
    have hpg : 2 ^ shift ∣ p := h.page_dvd (b := blk shift p k) (Or.inr (Set.mem_insert _ _))
    have hbase := sibling_base_ne hal
    rw [hsib] at hbase
    exact hbase (frame_injective hbpage hpg heq.symm)
  have hkeep : pfndbGetEntry shift t p = pfndbGetEntry shift s p := by
    rw [he, entry_set_ne _ _ hne]
    rfl
  have hjoin : Blocks shift t R (insert (blk shift p k).parent G) := by
    refine Blocks.join_insert ?_ hb (hsib ▸ hnG) ?_
    · rw [hsib, Set.insert_comm]
      exact hset.blocks
    · show shift + k < shift + getMaxOrder (pfndbGetEntry shift t p).order
      rw [hkeep]
      omega
  have hparG : (blk shift p k).parent ∉ G :=
    h.fresh hb (base_mem _) ((mem_parent hal _).mpr (Or.inl (base_mem _)))
  rw [hpar] at hjoin hparG
  refine ⟨hjoin, hparG, hset.typed, hfree, ?_, ?_, ?_, ?_, ?_⟩
  · rw [he]
    exact freeBlocks_delete shift (h.nodup k) buddy
  · intro a
    rw [← hpar, ← hsib]
    exact mem_parent hal a
  · intro f hf
    rw [he]
    simp [setEntry, hf]
  · intro f
    rw [he]
    by_cases hf : f = buddy >>> shift
    · subst f; simp [setEntry, pfndbGetEntry]
    · simp [setEntry, hf]
  · rw [he, available_setEntry]
    exact available_delete (h.order_le hlist) hlist

/-- What the loop has achieved when it stands at block `q` of order `j`. -/
structure Merged (shift : ℕ) (s : State) (R G : Set Block) (p k : ℕ) (t : State) (q j : ℕ) :
    Prop where
  blocks : Blocks shift t R (insert (blk shift q j) G)
  fresh : blk shift q j ∉ G
  typed : Typed shift t ∅
  within : ∀ a, Mem a (blk shift q j) → Mem a (blk shift p k) ∨ ∃ b ∈ freeBlocks shift s, Mem a b
  frame : ∀ f, ¬ Mem (f <<< shift) (blk shift p k) →
    (∀ b ∈ freeBlocks shift s, ¬ Mem (f <<< shift) b) → t.pfndb f = s.pfndb f
  refs : ∀ f, (t.pfndb f).refCount = (s.pfndb f).refCount
  available : availableFrames t + 2 ^ j = availableFrames s + 2 ^ k

theorem merged_self (h : Blocks shift s R (insert (blk shift p k) G)) (hb : blk shift p k ∉ G)
    (ht : Typed shift s ∅) : Merged shift s R G p k s p k :=
  ⟨h, hb, ht, fun _ ha => Or.inl ha, fun _ _ _ => rfl, fun _ => rfl, rfl⟩

theorem mergeUp_spec (fuel : ℕ) (h : Blocks shift s R (insert (blk shift p k) G))
    (hb : blk shift p k ∉ G) (ht : Typed shift s ∅) (he : mergeUp shift fuel s p k = (t, q, j)) :
    Merged shift s R G p k t q j := by
  induction fuel generalizing s p k with
  | zero =>
    cases he
    exact merged_self h hb ht
  | succ fuel ih =>
    rw [mergeUp] at he
    split at he
    · rename_i hlt
      dsimp only at he
      split at he
      · cases he
        exact merged_self h hb ht
      · rename_i hty
        split at he
        · cases he
          exact merged_self h hb ht
        · rename_i hc
          obtain ⟨m1, m2, m3, m4, m5, m6, m7, m8, m9⟩ := merge_step h hb ht hlt rfl
            (not_not.mp hty) (not_not.mp hc) rfl
          have hmin : (if p ^^^ getOrderSize shift k < p then p ^^^ getOrderSize shift k else p) =
              min p (p ^^^ getOrderSize shift k) := by
            rw [min_def]
            split <;> split <;> omega
          rw [hmin] at he
          have hm := ih m1 m2 m3 he
          have hbpage := h.listed_dvd (mem_freeBlocks.mp m4)
          refine ⟨hm.blocks, hm.fresh, hm.typed, ?_, ?_, fun f => (hm.refs f).trans (m8 f), ?_⟩
          · intro a ha
            rcases hm.within a ha with hx | ⟨b, hx, hab⟩
            · rcases (m6 a).mp hx with hp | hq
              · exact Or.inl hp
              · exact Or.inr ⟨_, m4, hq⟩
            · rw [m5] at hx
              exact Or.inr ⟨b, hx.1, hab⟩
          · intro f hf hfree
            rw [hm.frame f, m7 f]
            · rintro rfl
              exact hfree _ m4 (mem_own_head _ hbpage k)
            · intro hx
              rcases (m6 _).mp hx with hp | hq
              · exact hf hp
              · exact hfree _ m4 hq
            · intro b hx
              rw [m5] at hx
              exact hfree b hx.1
          · rw [hm.available, Nat.pow_succ, ← m9]
            omega
    · cases he
      exact merged_self h hb ht

theorem buddyFree_spec (h : BuddyInv shift s R (insert (blk shift p k) G))
    (hb : blk shift p k ∉ G) : Released shift s R G p k (buddyFree shift s p k) := by
  obtain ⟨u, q, j, he⟩ : ∃ u q j, mergeUp shift (15 - k) s p k = (u, q, j) := ⟨_, _, _, rfl⟩
  have hm := mergeUp_spec _ h.blocks hb h.typed he
  have hmem : blk shift q j ∈ insert (blk shift q j) G := Set.mem_insert _ _
  have hpage : 2 ^ shift ∣ q := hm.blocks.page_dvd (b := blk shift q j) (Or.inr hmem)
  have hunlisted := hm.blocks.handed_base hmem
  have hj : j ≤ maxOrder := by
    obtain ⟨r, hr, hin, _⟩ := hm.blocks.rooted _ (Or.inr hmem)
    have h1 := hin.exp_le
    have h2 := (hm.blocks.roots r hr).2.2
    simp only [blk] at h1
    omega
  have hlt : j < 16 := by unfold maxOrder at hj; omega
  have hrun : buddyFree shift s p k = pushOrder (setEntry shift u q
      { pfndbGetEntry shift u q with
        type := .free, order := setCurOrder (pfndbGetEntry shift u q).order j }) j q := by
    simp only [buddyFree, he]
  rw [hrun]
  refine ⟨⟨?_, ?_⟩, ?_, ?_, ?_⟩
  · exact (hm.blocks.set_same_max q (getMaxOrder_setCurOrder hlt)).put_insert hm.fresh hj
  · exact hm.typed.put hm.blocks hpage hunlisted rfl (getCurOrder_setCurOrder hlt)
  · intro f hf hfree
    have hne : f ≠ q >>> shift := by
      rintro rfl
      rcases hm.within _ (mem_own_head q hpage j) with hx | ⟨b, hx, hab⟩
      · exact hf hx
      · exact hfree b hx hab
    simpa [setEntry, hne] using hm.frame f hf hfree
  · intro f
    have hr := hm.refs f
    by_cases hf : f = q >>> shift
    · subst f; simpa [setEntry, pfndbGetEntry] using hr
    · simpa [setEntry, hf] using hr
  · rw [available_push _ hj, available_setEntry, hm.available]

end MemBuddyOperations
