import EvalynKernel.MemBuddyOperations

/-! # Runs of the buddy allocator

Ranges of memory are added, blocks are allocated and freed in any order, and the owner
of a block may mark its frames as page tables. The run carries the ghost bookkeeping:
the ranges added so far, the root blocks they were cut into and the blocks handed out. -/
namespace MemBuddyRuns

open MachineWords DyadicBlocks DyadicBlocks.Block MemBuddyAllocator MemBuddyInvariant
open MemBuddyOperations

variable {shift : ℕ} {s t : State} {A : List (ℕ × ℕ)} {R H : Set Block}

/-- The addresses of the pages that lie entirely inside a byte range. -/
def addedPages (shift start length : ℕ) : Set ℕ :=
  {a | start ≤ a / 2 ^ shift * 2 ^ shift ∧ a / 2 ^ shift * 2 ^ shift + 2 ^ shift ≤ start + length}

structure ValidRange (shift start length : ℕ) : Prop where
  no_wrap : start + length < word
  no_wrap_up : start + 2 ^ shift ≤ word
  not_frame_zero : 0 ∉ addedPages shift start length

def RangesDisjoint (r q : ℕ × ℕ) : Prop := r.1 + r.2 ≤ q.1 ∨ q.1 + q.2 ≤ r.1

def rangeBlocks (shift : ℕ) : ℕ → ℕ → ℕ → List Block
  | 0, _, _ => []
  | fuel + 1, addr, last =>
    if addr < last then
      blk shift addr (rangeOrder shift addr last) ::
        rangeBlocks shift fuel (addr + getOrderSize shift (rangeOrder shift addr last)) last
    else []

def rootBlocks (shift start length : ℕ) : List Block :=
  let last := alignDown (wadd start length) (2 ^ shift)
  let start := alignUp start (2 ^ shift)
  rangeBlocks shift ((last - start) >>> shift) start last

def addBlocks (shift : ℕ) (s : State) (bs : List Block) : State :=
  bs.foldl (fun s b => buddyAddBlock shift s b.base (b.exp - shift)) s

section

variable (hs : shift ≤ 64)
include hs

theorem rangeOrder_fits (ha : 2 ^ shift ∣ addr) (hl : 2 ^ shift ∣ last) (hlt : addr < last) :
    rangeOrder shift addr last ≤ maxOrder ∧
      (blk shift addr (rangeOrder shift addr last)).Aligned ∧
      addr + getOrderSize shift (rangeOrder shift addr last) ≤ last := by
  have h1 : rangeOrder shift addr last ≤ log2ull ((last - addr) >>> shift) :=
    le_trans (min_le_right _ _) (min_le_left _ _)
  have h2 : rangeOrder shift addr last ≤ getOrder shift addr :=
    le_trans (min_le_right _ _) (min_le_right _ _)
  refine ⟨min_le_left _ _, ?_, ?_⟩
  · have hc := le_ctz ha hs
    refine dvd_trans (Nat.pow_dvd_pow 2 ?_) (two_pow_ctz_dvd addr)
    show shift + rangeOrder shift addr last ≤ _
    unfold getOrder at h2
    omega
  · obtain ⟨m, hm⟩ := Nat.dvd_sub hl ha
    have hpos : 0 < 2 ^ shift := Nat.two_pow_pos _
    have hpages : (last - addr) >>> shift = m := by
      rw [Nat.shiftRight_eq_div_pow, hm, Nat.mul_div_cancel_left _ hpos]
    have hm0 : m ≠ 0 := by
      rintro rfl
      omega
    rw [hpages] at h1
    have hle : 2 ^ rangeOrder shift addr last ≤ m :=
      le_trans (Nat.pow_le_pow_right (by norm_num) h1) (two_pow_log2ull_le hm0)
    have hmul := Nat.mul_le_mul_left (2 ^ shift) hle
    rw [getOrderSize, Nat.pow_add]
    omega

theorem addRangeLoop_spec (fuel : ℕ) (ha : 2 ^ shift ∣ addr) (hl : 2 ^ shift ∣ last) (h0 : addr ≠ 0)
    (hf : last ≤ addr + fuel * 2 ^ shift) :
    addRangeLoop shift fuel s addr last =
      .ok (addBlocks shift s (rangeBlocks shift fuel addr last)) ∧
      (∀ b ∈ rangeBlocks shift fuel addr last, b.Aligned ∧ shift ≤ b.exp ∧
        b.exp ≤ shift + maxOrder ∧ addr ≤ b.base ∧ b.base + b.size ≤ last) ∧
      (rangeBlocks shift fuel addr last).Pairwise (fun b c => b.base + b.size ≤ c.base) ∧
      (∀ a, (∃ b ∈ rangeBlocks shift fuel addr last, Mem a b) ↔ addr ≤ a ∧ a < last) := by
  induction fuel generalizing s addr with
  | zero =>
    have hge : ¬ addr < last := by omega
    unfold addRangeLoop
    simp only [hge, rangeBlocks, addBlocks]
    simp
    omega
  | succ fuel ih =>
    by_cases hlt : addr < last
    · obtain ⟨ho, hal, hfit⟩ := rangeOrder_fits hs ha hl hlt
      generalize hk : rangeOrder shift addr last = k at ho hal hfit
      have hsize : getOrderSize shift k = (blk shift addr k).size := rfl
      have hpage : 2 ^ shift ≤ getOrderSize shift k :=
        Nat.pow_le_pow_right (by norm_num) (Nat.le_add_right _ _)
      have hdvd : 2 ^ shift ∣ addr + getOrderSize shift k :=
        Nat.dvd_add ha (Nat.pow_dvd_pow 2 (Nat.le_add_right _ _))
      obtain ⟨i1, i2, i3, i4⟩ := ih (s := buddyAddBlock shift s addr k) hdvd (by omega)
        (by rw [Nat.succ_mul] at hf; omega)
      have hcons : rangeBlocks shift (fuel + 1) addr last = blk shift addr k ::
          rangeBlocks shift fuel (addr + getOrderSize shift k) last := by
        simp only [rangeBlocks, hlt, if_true, hk]
      rw [hcons]
      refine ⟨?_, ?_, ?_, ?_⟩
      · have hne : (addr != 0) = true := by simpa using h0
        rw [addRangeLoop, if_pos hlt]
        simp only [hk, hne, kassert_true]
        have hexp : (blk shift addr k).exp - shift = k := by simp [blk]
        have hfold : addBlocks shift s (blk shift addr k ::
            rangeBlocks shift fuel (addr + getOrderSize shift k) last) =
            addBlocks shift (buddyAddBlock shift s addr k)
              (rangeBlocks shift fuel (addr + getOrderSize shift k) last) := by
          simp only [addBlocks, List.foldl_cons, hexp]
          rfl
        rw [hfold]
        exact i1
      · intro b hb
        rcases List.mem_cons.mp hb with rfl | hb
        · exact ⟨hal, Nat.le_add_right _ _, Nat.add_le_add_left ho _, le_rfl, hfit⟩
        · obtain ⟨b1, b2, b3, b4, b5⟩ := i2 b hb
          exact ⟨b1, b2, b3, by omega, b5⟩
      · refine List.pairwise_cons.mpr ⟨fun c hc => ?_, i3⟩
        exact (i2 c hc).2.2.2.1
      · intro a
        simp only [List.mem_cons, exists_eq_or_imp, i4]
        simp only [Mem, ← hsize, show (blk shift addr k).base = addr from rfl]
        omega
    · rw [addRangeLoop, if_neg hlt]
      simp only [rangeBlocks, hlt, addBlocks]
      simp
      omega

theorem pages_between (h : ValidRange shift start length) (a : ℕ) :
    a ∈ addedPages shift start length ↔
      alignUp start (2 ^ shift) ≤ a ∧ a < alignDown (wadd start length) (2 ^ shift) := by
  have hpos : 0 < 2 ^ shift := Nat.two_pow_pos _
  obtain ⟨u1, u2⟩ := alignUp_bounds hs h.no_wrap_up
  obtain ⟨m, hm⟩ := dvd_alignUp (x := start) hs
  have hw := wadd_of_lt h.no_wrap
  rw [alignDown_two_pow (hw ▸ h.no_wrap) hs, hw]
  have hd := Nat.div_add_mod (start + length) (2 ^ shift)
  have hda := Nat.div_add_mod a (2 ^ shift)
  generalize hq : (start + length) / 2 ^ shift = q at *
  generalize hp : a / 2 ^ shift = p at *
  simp only [addedPages, Set.mem_ofPred_eq, hp]
  have below : ∀ i j, i < j → 2 ^ shift * i + 2 ^ shift ≤ 2 ^ shift * j := fun i j hij => by
    have := Nat.mul_le_mul_left (2 ^ shift) (Nat.succ_le_of_lt hij)
    rwa [Nat.mul_succ] at this
  rw [Nat.mul_comm p, Nat.mul_comm q]
  rcases Nat.lt_or_ge p m with h1 | h1
  · have := below p m h1
    omega
  · have hmp := Nat.mul_le_mul_left (2 ^ shift) h1
    rcases Nat.lt_or_ge p q with h2 | h2
    · have := below p q h2
      omega
    · have := Nat.mul_le_mul_left (2 ^ shift) h2
      omega

theorem ValidRange.first_ne_zero (hv : ValidRange shift start length)
    (hlt : alignUp start (2 ^ shift) < alignDown (wadd start length) (2 ^ shift)) :
    alignUp start (2 ^ shift) ≠ 0 := by
  intro hz
  exact hv.not_frame_zero ((pages_between hs hv 0).mpr ⟨by omega, by omega⟩)

end

theorem Blocks.extend (h : Blocks shift s R H) (hk : k ≤ maxOrder) (hal : (blk shift p k).Aligned)
    (hnew : ∀ r ∈ R, Apart (blk shift p k) r)
    (hmax : getMaxOrder (pfndbGetEntry shift s p).order = k) :
    Blocks shift (pushOrder s k p) (insert (blk shift p k) R) H := by
  have hout : ∀ a, a ∈ region R → ¬ Mem a (blk shift p k) := fun a ⟨r, hr, har⟩ hab =>
    apart_iff.mp (hnew r hr) a hab har
  have hnl : ∀ c ∈ freeBlocks shift s ∪ H, c.base ≠ p := fun c hc he =>
    hout c.base ((h.tiling.cover _).mpr ⟨c, hc, c.base_mem⟩) (he ▸ base_mem (blk shift p k))
  have hf := freeBlocks_push shift s p k
  have hlive : freeBlocks shift (pushOrder s k p) ∪ H =
      (freeBlocks shift s ∪ H) ∪ {blk shift p k} := by
    rw [hf]
    ext c
    simp only [Set.mem_union, Set.mem_insert_iff, Set.mem_singleton_iff]
    tauto
  have hreg : region (insert (blk shift p k) R) = region R ∪ {a | Mem a (blk shift p k)} := by
    ext a
    simp only [region, Set.mem_insert_iff, exists_eq_or_imp, Set.mem_union]
    exact or_comm
  refine ⟨?_, ?_, ?_, h.handed_exp, ?_, ?_, ?_, ?_, ?_⟩
  · intro j
    by_cases hj : j = k
    · subst j
      have hne : p ∉ s.orders k := fun hm => hnl _ (Or.inl (mem_freeBlocks.mpr hm)) rfl
      simpa [pushOrder] using ⟨hne, h.nodup k⟩
    · simpa [pushOrder, hj] using h.nodup j
  · intro j hj
    have hne : j ≠ k := by omega
    simpa [pushOrder, hne] using h.bounded j hj
  · intro c hc hm
    rw [hf] at hm
    rcases hm with rfl | hm
    · exact hnl _ (Or.inr hc) rfl
    · exact h.handed_not_free c hc hm
  · rw [hlive, hreg]
    refine h.tiling.union ⟨?_, ?_⟩ hout
    · rintro c rfl d rfl hne
      exact (hne rfl).elim
    · intro a
      simp
  · rw [hlive]
    rintro c (hc | rfl)
    · exact h.aligned c hc
    · exact hal
  · rw [hlive]
    rintro c (hc | rfl)
    · obtain ⟨r, hr, hin⟩ := h.rooted c hc
      exact ⟨r, Set.mem_insert_of_mem _ hr, hin⟩
    · refine ⟨_, Set.mem_insert _ _, Inside.refl _, ?_⟩
      show shift + k = shift + getMaxOrder (pfndbGetEntry shift s p).order
      rw [hmax]
  · rintro r (rfl | hr)
    · exact ⟨hal, Nat.le_add_right _ _, Nat.add_le_add_left hk _⟩
    · exact h.roots r hr
  · rintro r (rfl | hr) q (rfl | hq) hne
    · exact (hne rfl).elim
    · exact hnew q hq
    · exact (hnew r hr).symm
    · exact h.roots_apart r hr q hq hne

theorem addBlock_inv (h : BuddyInv shift s R H) (hk : k ≤ maxOrder) (hal : (blk shift p k).Aligned)
    (hnew : ∀ r ∈ R, Apart (blk shift p k) r) :
    BuddyInv shift (buddyAddBlock shift s p k) (insert (blk shift p k) R) H := by
  obtain ⟨hB, hT⟩ := h
  have hlt : k < 16 := by unfold maxOrder at hk; omega
  have hpage : 2 ^ shift ∣ p := dvd_trans (Nat.pow_dvd_pow 2 (Nat.le_add_right shift k)) hal
  have hheads : ∀ c ∈ freeBlocks shift s ∪ H, c.base ≠ p := by
    intro c hc he
    obtain ⟨r, hr, har⟩ := (hB.tiling.cover _).mpr ⟨c, hc, c.base_mem⟩
    exact apart_iff.mp (hnew r hr) c.base (he ▸ base_mem (blk shift p k)) har
  have hunlisted : ∀ j, p ∉ s.orders j := fun j hj =>
    hheads _ (Or.inl (mem_freeBlocks.mpr hj)) rfl
  constructor
  · refine Blocks.extend (hB.set_interior hpage _ hheads) hk hal hnew ?_
    rw [entry_set_self]
    rw [getMaxOrder_setCurOrder hlt, getMaxOrder_setMaxOrder hlt]
  · exact hT.put hB hpage hunlisted rfl (getCurOrder_setCurOrder hlt)

theorem addBlocks_keeps {P : State → Set Block → Prop}
    (step : ∀ {s R p k}, BuddyInv shift s R H → P s R → (∀ r ∈ R, Apart (blk shift p k) r) →
      P (buddyAddBlock shift s p k) (insert (blk shift p k) R)) (h : BuddyInv shift s R H)
    (hP : P s R) (hbs : ∀ b ∈ bs, b.Aligned ∧ shift ≤ b.exp ∧ b.exp ≤ shift + maxOrder)
    (hpair : bs.Pairwise (fun b c => b.base + b.size ≤ c.base))
    (hnew : ∀ b ∈ bs, ∀ r ∈ R, Apart b r) :
    BuddyInv shift (addBlocks shift s bs) (R ∪ {b | b ∈ bs}) H ∧
      P (addBlocks shift s bs) (R ∪ {b | b ∈ bs}) := by
  induction bs generalizing s R with
  | nil => simpa [addBlocks] using ⟨h, hP⟩
  | cons b bs ih =>
    obtain ⟨b1, b2, b3⟩ := hbs b List.mem_cons_self
    have hb : blk shift b.base (b.exp - shift) = b := Block.ext rfl (by simp [blk]; omega)
    have hfirst : ∀ r ∈ R, Apart (blk shift b.base (b.exp - shift)) r := by
      rw [hb]
      exact hnew b List.mem_cons_self
    have hinv := addBlock_inv h (by omega) (by rw [hb]; exact b1) hfirst
    have hstep := step h hP hfirst
    rw [hb] at hinv hstep
    have hrest := ih hinv hstep (fun c hc => hbs c (List.mem_cons_of_mem b hc))
      (List.pairwise_cons.mp hpair).2 (by
        rintro c hc r (rfl | hr)
        · exact Or.inr ((List.pairwise_cons.mp hpair).1 c hc)
        · exact hnew c (List.mem_cons_of_mem b hc) r hr)
    have hset : insert b R ∪ {c | c ∈ bs} = R ∪ {c | c ∈ b :: bs} := by
      ext c
      simp only [Set.mem_union, Set.mem_insert_iff, List.mem_cons, Set.mem_ofPred_eq]
      tauto
    rw [hset] at hrest
    exact hrest

theorem buddyAddRange_roots (hs : shift ≤ 64)
    (h0 : alignUp start (2 ^ shift) < alignDown (wadd start length) (2 ^ shift) →
      alignUp start (2 ^ shift) ≠ 0) :
    buddyAddRange shift s start length =
        .ok (addBlocks shift s (rootBlocks shift start length)) ∧
      (∀ b ∈ rootBlocks shift start length,
        b.Aligned ∧ shift ≤ b.exp ∧ b.exp ≤ shift + maxOrder) ∧
      (rootBlocks shift start length).Pairwise (fun b c => b.base + b.size ≤ c.base) ∧
      (∀ a, (∃ b ∈ rootBlocks shift start length, Mem a b) ↔
        alignUp start (2 ^ shift) ≤ a ∧ a < alignDown (wadd start length) (2 ^ shift)) := by
  obtain ⟨first, hfirst⟩ : ∃ x, x = alignUp start (2 ^ shift) := ⟨_, rfl⟩
  obtain ⟨last, hlast⟩ : ∃ x, x = alignDown (wadd start length) (2 ^ shift) := ⟨_, rfl⟩
  have hd1 : 2 ^ shift ∣ first := hfirst ▸ dvd_alignUp hs
  have hd2 : 2 ^ shift ∣ last := by
    rw [hlast, alignDown_two_pow (wadd_lt _ _) hs]
    exact Nat.dvd_mul_left _ _
  have hroots : rootBlocks shift start length =
      rangeBlocks shift ((last - first) >>> shift) first last := by rw [hfirst, hlast]; rfl
  have hrun : buddyAddRange shift s start length = if last ≤ first then .ok s
      else addRangeLoop shift ((last - first) >>> shift) s first last := by
    rw [hfirst, hlast]
    rfl
  rw [← hfirst, ← hlast] at h0 ⊢
  by_cases hempty : last ≤ first
  · have hnil : rootBlocks shift start length = [] := by
      rw [hroots]
      cases (last - first) >>> shift with
      | zero => rfl
      | succ n => simp [rangeBlocks, not_lt.mpr hempty]
    rw [hrun, if_pos hempty, hnil]
    refine ⟨rfl, by simp, List.Pairwise.nil, ?_⟩
    intro a
    simp only [List.not_mem_nil, false_and, exists_false, false_iff]
    omega
  · have hfuel : last ≤ first + (last - first) >>> shift * 2 ^ shift := by
      rw [Nat.shiftRight_eq_div_pow, Nat.div_mul_cancel (Nat.dvd_sub hd2 hd1)]
      omega
    obtain ⟨i1, i2, i3, i4⟩ := addRangeLoop_spec (s := s) hs _ hd1 hd2 (h0 (by omega)) hfuel
    rw [← hroots] at i1 i2 i3 i4
    refine ⟨by rw [hrun, if_neg hempty, i1], ?_, i3, i4⟩
    intro b hb
    obtain ⟨b1, b2, b3, _⟩ := i2 b hb
    exact ⟨b1, b2, b3⟩

theorem buddyAddRange_spec (hs : shift ≤ 64) (h : BuddyInv shift s R H)
    (hv : ValidRange shift start length)
    (hnew : ∀ a, a ∈ region R → a ∉ addedPages shift start length) :
    ∃ t, buddyAddRange shift s start length = .ok t ∧
      BuddyInv shift t (R ∪ {b | b ∈ rootBlocks shift start length}) H ∧
      region (R ∪ {b | b ∈ rootBlocks shift start length}) =
        region R ∪ addedPages shift start length := by
  have hpages := pages_between hs hv
  obtain ⟨i1, i2, i3, i4⟩ := buddyAddRange_roots (s := s) hs (hv.first_ne_zero hs)
  refine ⟨_, i1, (addBlocks_keeps (P := fun _ _ => True)
    (fun _ _ _ => trivial) h trivial i2 i3 ?_).1, ?_⟩
  · intro b hb r hr
    apply apart_iff.mpr
    intro a hab har
    exact hnew a ⟨r, hr, har⟩ ((hpages a).mpr ((i4 a).mp ⟨b, hb, hab⟩))
  · ext a
    simp only [region, Set.mem_union, Set.mem_ofPred_eq, or_and_right, exists_or, hpages, i4]

def setPage (s : State) (f : ℕ) (e : Page) : State :=
  { s with pfndb := Function.update s.pfndb f e }

/-- Operation sequences, with the ranges added, the root blocks and the blocks handed out. -/
inductive Run (shift : ℕ) : State → List (ℕ × ℕ) → Set Block → Set Block → Prop where
  | start : Run shift initial [] ∅ ∅
  | addRange {s t A R H start length} : Run shift s A R H → ValidRange shift start length →
      (∀ r ∈ A, RangesDisjoint r (start, length)) →
      buddyAddRange shift s start length = .ok t →
      Run shift t ((start, length) :: A) (R ∪ {b | b ∈ rootBlocks shift start length}) H
  | allocate {s t A R H order flags p} : Run shift s A R H → order ≤ maxOrder →
      buddyAllocate shift s order flags = .ok (p, t) → p ≠ 0 →
      Run shift t A R (insert (blk shift p order) H)
  | allocateFails {s t A R H order flags} : Run shift s A R H → order ≤ maxOrder →
      buddyAllocate shift s order flags = .ok (0, t) → Run shift t A R H
  | free {s A R H p order} : Run shift s A R H → blk shift p order ∈ H →
      Run shift (buddyFree shift s p order) A R (H \ {blk shift p order})
  | markPtable {s A R H b f n} : Run shift s A R H → b ∈ H → Mem (f <<< shift) b →
      Run shift (setPage s f { s.pfndb f with type := .ptable, refCount := n }) A R H

theorem retype_owned (h : BuddyInv shift s R H) (hb : b ∈ H) (hf : Mem (f <<< shift) b)
    (hty : e.type ≠ .free) (ho : e.order = (s.pfndb f).order) :
    BuddyInv shift (setPage s f e) R H := by
  have hset : setPage s f e = setEntry shift s (f <<< shift) e := by
    rw [setEntry, address_frame]
    rfl
  have hdvd : 2 ^ shift ∣ f <<< shift := by rw [Nat.shiftLeft_eq]; exact Nat.dvd_mul_left _ _
  have hunlisted : ∀ k, f <<< shift ∉ s.orders k := by
    intro k hk
    have hfree : blk shift (f <<< shift) k ∈ freeBlocks shift s := mem_freeBlocks.mpr hk
    have heq := h.blocks.tiling.eq_of_mem (Or.inl hfree) (Or.inr hb) (base_mem _) hf
    exact h.blocks.handed_not_free b hb (heq ▸ hfree)
  rw [hset]
  refine ⟨h.blocks.set_same_max _ (by rw [ho, pfndbGetEntry, address_frame]), ?_⟩
  simpa using h.typed.retype h.blocks hdvd hunlisted hty

theorem initial_inv : BuddyInv shift initial ∅ ∅ := by
  have hf : freeBlocks shift initial = ∅ := by
    ext b
    simp [freeBlocks, initial]
  constructor
  · have hlists : ∀ k, initial.orders k = [] := fun _ => rfl
    constructor <;> simp [hf, hlists, region, Tiling.empty]
  · constructor <;> simp [initial]

theorem addedPages_disjoint (h : RangesDisjoint r q) (hr : a ∈ addedPages shift r.1 r.2) :
    a ∉ addedPages shift q.1 q.2 := by
  have hpos : 0 < 2 ^ shift := Nat.two_pow_pos _
  rintro ⟨h1, h2⟩
  obtain ⟨h3, h4⟩ := hr
  rcases h with h | h <;> omega

/-- The run lemma: the invariant holds, the roots are the added pages, and page zero
is never among them. -/
theorem run_inv (hs : shift ≤ 64) (h : Run shift s A R H) :
    BuddyInv shift s R H ∧
      (∀ a, a ∈ region R ↔ ∃ r ∈ A, a ∈ addedPages shift r.1 r.2) ∧ 0 ∉ region R := by
  induction h with
  | start => exact ⟨initial_inv, by simp [region], by simp [region]⟩
  | addRange _ hv hd he ih =>
    obtain ⟨hi, hreg, hz⟩ := ih
    obtain ⟨u, hu, hinv, hcover⟩ := buddyAddRange_spec hs hi hv fun a ha => by
      obtain ⟨r, hr, har⟩ := (hreg a).mp ha
      exact addedPages_disjoint (hd r hr) har
    obtain rfl : u = _ := Except.ok.inj (hu.symm.trans he)
    refine ⟨hinv, ?_, ?_⟩
    · intro a
      rw [hcover, Set.mem_union, hreg]
      simp [or_comm]
    · rw [hcover]
      rintro (h0 | h0)
      · exact hz h0
      · exact hv.not_frame_zero h0
  | allocate _ ho he hp ih =>
    obtain ⟨hi, hreg⟩ := ih
    rcases buddyAllocate_spec hi ho _ with ⟨q, u, hu, hal⟩ | ⟨_, hu⟩
    · obtain ⟨rfl, rfl⟩ : q = _ ∧ u = _ := by simpa using hu.symm.trans he
      exact ⟨hal.inv, hreg⟩
    · rw [he] at hu
      split at hu
      · cases hu
      · simp only [Except.ok.injEq, Prod.mk.injEq] at hu
        exact (hp hu.1).elim
  | allocateFails _ ho he ih =>
    obtain ⟨hi, hreg⟩ := ih
    rcases buddyAllocate_spec hi ho _ with ⟨q, u, hu, hal⟩ | ⟨_, hu⟩
    · obtain ⟨rfl, rfl⟩ : q = 0 ∧ u = _ := by simpa using hu.symm.trans he
      have hmem := hal.inv.blocks.inside_region (Set.mem_insert _ _) (base_mem (blk _ 0 _))
      exact (hreg.2 hmem).elim
    · rw [he] at hu
      split at hu
      · cases hu
      · simp only [Except.ok.injEq, Prod.mk.injEq] at hu
        rw [hu.2]
        exact ⟨hi, hreg⟩
  | free _ hb ih =>
    obtain ⟨hi, hreg⟩ := ih
    refine ⟨(buddyFree_spec ?_ fun hm => hm.2 rfl).inv, hreg⟩
    rw [Set.insert_sdiff_singleton, Set.insert_eq_of_mem hb]
    exact hi
  | markPtable _ hb hf ih => exact ⟨retype_owned ih.1 hb hf (by simp) rfl, ih.2⟩

/-- In every state of every run the free and handed-out blocks are pairwise apart, cover
exactly the added pages, are aligned and lie inside root blocks; a frame is marked free
exactly when it heads a block of the list its current order names; the assertion of
`buddy_allocate` holds; and any further disjoint range can be added. -/
theorem buddy_run_invariant (hs : shift ≤ 64) (h : Run shift s A R H) :
    ((∀ k, (s.orders k).Nodup) ∧ (∀ b ∈ H, b ∉ freeBlocks shift s) ∧
      ∀ b ∈ freeBlocks shift s ∪ H, ∀ c ∈ freeBlocks shift s ∪ H, b ≠ c → Apart b c) ∧
    (∀ a, (∃ b ∈ freeBlocks shift s ∪ H, Mem a b) ↔ ∃ r ∈ A, a ∈ addedPages shift r.1 r.2) ∧
    (∀ b ∈ freeBlocks shift s ∪ H, b.Aligned ∧ ∃ r ∈ R, b.Inside r) ∧
    (∀ f, (s.pfndb f).type = .free ↔ f <<< shift ∈ s.orders (getCurOrder (s.pfndb f).order)) ∧
    (∀ order flags e, order ≤ maxOrder →
      buddyAllocate shift s order flags ≠ .error (.assertion e)) ∧
    (∀ start length, ValidRange shift start length →
      (∀ r ∈ A, RangesDisjoint r (start, length)) →
      ∃ t, buddyAddRange shift s start length = .ok t) := by
  obtain ⟨hi, hreg, _⟩ := run_inv hs h
  refine ⟨⟨hi.blocks.nodup, hi.blocks.handed_not_free, hi.blocks.tiling.apart⟩, ?_, ?_, ?_, ?_, ?_⟩
  · intro a
    rw [← hreg, hi.blocks.tiling.cover]
  · intro b hb
    obtain ⟨r, hr, hin, _⟩ := hi.blocks.rooted b hb
    exact ⟨hi.blocks.aligned b hb, r, hr, hin⟩
  · intro f
    simpa using hi.typed.free_iff f
  · intro order flags e ho he
    rcases buddyAllocate_spec hi ho flags with ⟨p, t, hu, _⟩ | ⟨_, hu⟩
    · rw [he] at hu
      cases hu
    · rw [he] at hu
      split at hu <;> cases hu
  · intro start length hv hd
    obtain ⟨t, ht, _⟩ := buddyAddRange_spec hs hi hv fun a ha => by
      obtain ⟨r, hr, har⟩ := (hreg a).mp ha
      exact addedPages_disjoint (hd r hr) har
    exact ⟨t, ht⟩

theorem buddy_run_one_block_out : ∃ (s : State) (R H : Set Block),
    Run 12 s [(0x1000, 0x3000)] R H ∧ blk 12 0x1000 0 ∈ H ∧ s.orders 1 = [0x2000] ∧
      ∀ a, (∃ b ∈ freeBlocks 12 s ∪ H, Mem a b) ↔
        ∃ r ∈ [(0x1000, 0x3000)], a ∈ addedPages 12 r.1 r.2 := by
  have hv : ValidRange 12 0x1000 0x3000 :=
    ⟨by decide, by decide, by simp [addedPages]⟩
  have hrun := @Run.allocate 12 _ _ _ _ _ 0 0 0x1000 (Run.addRange Run.start hv (by simp) rfl)
    (by decide) rfl (by decide)
  exact ⟨_, _, _, hrun, Set.mem_insert _ _, rfl, (buddy_run_invariant (by decide) hrun).2.1⟩

end MemBuddyRuns
