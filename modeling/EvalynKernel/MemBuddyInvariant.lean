import EvalynKernel.MemBuddyAllocator
import Mathlib.Data.List.Nodup
import Mathlib.Tactic.Tauto

/-! # The buddy allocator's invariant

The free blocks and the handed-out blocks tile the root blocks. A step of the C code is
one of four moves on that tiling: take a block off a list, put one on a list, split a
block that is handed out, join two that are. The frame database only has to agree with
the lists on the first frame of a block; every other entry may be stale. -/
namespace MemBuddyInvariant

open Function DyadicBlocks DyadicBlocks.Block MemBuddyAllocator

variable {shift : ℕ} {s : State} {R H : Set Block} {P : Set ℕ}

def blk (shift p k : ℕ) : Block := ⟨p, shift + k⟩

def freeBlocks (shift : ℕ) (s : State) : Set Block :=
  {b | ∃ k, b.base ∈ s.orders k ∧ b.exp = shift + k}

def region (R : Set Block) : Set ℕ := {a | ∃ r ∈ R, Mem a r}

variable {p k q : ℕ}

theorem blk_injective (h : blk shift p j = blk shift q k) : p = q ∧ j = k := by
  simp only [blk, Block.mk.injEq] at h
  exact ⟨h.1, by omega⟩

theorem mem_freeBlocks : blk shift p k ∈ freeBlocks shift s ↔ p ∈ s.orders k := by
  constructor
  · rintro ⟨j, hj, he⟩
    have hk : k = j := by simp only [blk] at he; omega
    exact hk ▸ hj
  · intro h
    exact ⟨k, h, rfl⟩

theorem freeBlocks_cases (h : b ∈ freeBlocks shift s) :
    ∃ p k, b = blk shift p k ∧ p ∈ s.orders k := by
  obtain ⟨k, hk, he⟩ := h
  exact ⟨b.base, k, Block.ext rfl he, hk⟩

/-- What holds of the lists and the maximal-order nibbles of block heads. -/
structure Blocks (shift : ℕ) (s : State) (R H : Set Block) : Prop where
  nodup : ∀ k, (s.orders k).Nodup
  bounded : ∀ k, maxOrder < k → s.orders k = []
  handed_not_free : ∀ b ∈ H, b ∉ freeBlocks shift s
  handed_exp : ∀ b ∈ H, shift ≤ b.exp
  tiling : Tiling (freeBlocks shift s ∪ H) (region R)
  aligned : ∀ b ∈ freeBlocks shift s ∪ H, b.Aligned
  rooted : ∀ b ∈ freeBlocks shift s ∪ H, ∃ r ∈ R, b.Inside r ∧
    r.exp = shift + getMaxOrder (pfndbGetEntry shift s b.base).order
  roots : ∀ r ∈ R, r.Aligned ∧ shift ≤ r.exp ∧ r.exp ≤ shift + maxOrder
  roots_apart : ∀ r ∈ R, ∀ q ∈ R, r ≠ q → Apart r q

/-- What holds of the page types. `P` lists the frames still marked free although
their block has already left its list, as happens inside `buddy_allocate`. -/
structure Typed (shift : ℕ) (s : State) (P : Set ℕ) : Prop where
  current : ∀ k, ∀ p ∈ s.orders k, getCurOrder (pfndbGetEntry shift s p).order = k
  free_iff : ∀ f, (s.pfndb f).type = .free ↔
    f <<< shift ∈ s.orders (getCurOrder (s.pfndb f).order) ∨ f ∈ P

structure BuddyInv (shift : ℕ) (s : State) (R H : Set Block) : Prop where
  blocks : Blocks shift s R H
  typed : Typed shift s ∅

variable {v : ℕ}

theorem testBit_nibble (hv : v < 16) (hi : 4 ≤ i) : v.testBit i = false :=
  Nat.testBit_lt_two_pow (lt_of_lt_of_le (show v < 2 ^ 4 from hv)
    (Nat.pow_le_pow_right (by norm_num) hi))

variable {o : ℕ}

theorem getMaxOrder_setMaxOrder (hv : v < 16) : getMaxOrder (setMaxOrder o v) = v := by
  apply Nat.eq_of_testBit_eq
  intro i
  rw [show getMaxOrder (setMaxOrder o v) = (((o &&& 2 ^ 4 - 1) ||| (v <<< 4)) % 2 ^ 8) >>> 4 &&&
    2 ^ 4 - 1 from rfl]
  simp only [Nat.testBit_and, Nat.testBit_shiftRight, Nat.testBit_mod_two_pow, Nat.testBit_or,
    Nat.testBit_shiftLeft, Nat.testBit_two_pow_sub_one]
  by_cases hi : i < 4
  · simp [hi, show 4 + i < 8 by omega]
  · simp [hi, testBit_nibble hv (not_lt.mp hi)]

theorem getCurOrder_setCurOrder (hv : v < 16) : getCurOrder (setCurOrder o v) = v := by
  apply Nat.eq_of_testBit_eq
  intro i
  rw [show getCurOrder (setCurOrder o v) = (((o &&& (2 ^ 4 - 1) <<< 4) ||| v) % 2 ^ 8) &&&
    2 ^ 4 - 1 from rfl]
  simp only [Nat.testBit_and, Nat.testBit_mod_two_pow, Nat.testBit_or,
    Nat.testBit_shiftLeft, Nat.testBit_two_pow_sub_one]
  by_cases hi : i < 4
  · simp [hi, show i < 8 by omega]
  · simp [hi, testBit_nibble hv (not_lt.mp hi)]

theorem getMaxOrder_setCurOrder (hv : v < 16) : getMaxOrder (setCurOrder o v) = getMaxOrder o := by
  apply Nat.eq_of_testBit_eq
  intro i
  rw [show getMaxOrder (setCurOrder o v) = (((o &&& (2 ^ 4 - 1) <<< 4) ||| v) % 2 ^ 8) >>> 4 &&&
    2 ^ 4 - 1 from rfl, show getMaxOrder o = o >>> 4 &&& 2 ^ 4 - 1 from rfl]
  simp only [Nat.testBit_and, Nat.testBit_shiftRight, Nat.testBit_mod_two_pow, Nat.testBit_or,
    Nat.testBit_shiftLeft, Nat.testBit_two_pow_sub_one]
  by_cases hi : i < 4
  · simp [hi, show 4 + i < 8 by omega, testBit_nibble hv (Nat.le_add_right 4 i)]
  · simp [hi]

theorem getMaxOrder_lt (o : ℕ) : getMaxOrder o < 16 := by
  rw [show getMaxOrder o = o >>> 4 &&& 2 ^ 4 - 1 from rfl, Nat.and_two_pow_sub_one_eq_mod]
  exact Nat.mod_lt _ (by norm_num)

theorem frame_address (h : 2 ^ shift ∣ p) : (p >>> shift) <<< shift = p := by
  rw [Nat.shiftRight_eq_div_pow, Nat.shiftLeft_eq]
  exact Nat.div_mul_cancel h

theorem address_frame (f : ℕ) : (f <<< shift) >>> shift = f := by
  rw [Nat.shiftRight_eq_div_pow, Nat.shiftLeft_eq]
  exact Nat.mul_div_cancel _ (Nat.two_pow_pos _)

theorem frame_injective (hp : 2 ^ shift ∣ p) (hq : 2 ^ shift ∣ q) (h : p >>> shift = q >>> shift) :
    p = q := by
  rw [← frame_address hp, ← frame_address hq, h]

variable {a : ℕ}

section

variable (h : Blocks shift s R H)
include h

theorem Blocks.page_dvd (hb : b ∈ freeBlocks shift s ∪ H) : 2 ^ shift ∣ b.base := by
  refine dvd_trans (Nat.pow_dvd_pow 2 ?_) (h.aligned b hb)
  rcases hb with hb | hb
  · obtain ⟨k, _, he⟩ := hb
    omega
  · exact h.handed_exp b hb

theorem Blocks.listed_dvd (hp : p ∈ s.orders k) : 2 ^ shift ∣ p :=
  h.page_dvd (b := blk shift p k) (Or.inl (mem_freeBlocks.mpr hp))

theorem Blocks.order_le (hp : p ∈ s.orders k) : k ≤ maxOrder := by
  by_contra hk
  rw [h.bounded k (by omega)] at hp
  cases hp

theorem Blocks.handed_base (hb : b ∈ H) (k : ℕ) : b.base ∉ s.orders k := by
  intro hm
  have hf : blk shift b.base k ∈ freeBlocks shift s := mem_freeBlocks.mpr hm
  have he := h.tiling.eq_of_mem (Or.inl hf) (Or.inr hb) (base_mem (blk shift b.base k)) b.base_mem
  exact h.handed_not_free b hb (he ▸ hf)

theorem Blocks.inside_region (hb : b ∈ H) (ha : Mem a b) : a ∈ region R :=
  (h.tiling.cover a).mpr ⟨b, Or.inr hb, ha⟩

theorem Blocks.reentry (ho : t.orders = s.orders)
    (hm : ∀ b ∈ freeBlocks shift s ∪ H, getMaxOrder (pfndbGetEntry shift t b.base).order =
      getMaxOrder (pfndbGetEntry shift s b.base).order) : Blocks shift t R H := by
  have hf : freeBlocks shift t = freeBlocks shift s := by simp only [freeBlocks, ho]
  refine ⟨by simpa [ho] using h.nodup, by simpa [ho] using h.bounded,
    by simpa [hf] using h.handed_not_free, h.handed_exp, by simpa [hf] using h.tiling,
    by simpa [hf] using h.aligned, ?_, h.roots, h.roots_apart⟩
  intro b hb
  rw [hf] at hb
  rw [hm b hb]
  exact h.rooted b hb

end

theorem freeBlocks_delete (shift : ℕ) (hn : (s.orders k).Nodup) (p : ℕ) :
    freeBlocks shift (deleteOrder s k p) = freeBlocks shift s \ {blk shift p k} := by
  ext b
  constructor
  · intro hb
    obtain ⟨q, j, rfl, hq⟩ := freeBlocks_cases hb
    by_cases hj : j = k
    · subst j
      simp only [deleteOrder, update_self] at hq
      refine ⟨mem_freeBlocks.mpr (List.mem_of_mem_erase hq), ?_⟩
      intro he
      exact (hn.mem_erase_iff.mp hq).1 (blk_injective he).1
    · simp only [deleteOrder, update_of_ne hj] at hq
      exact ⟨mem_freeBlocks.mpr hq, fun he => hj (blk_injective he).2⟩
  · rintro ⟨hb, hne⟩
    obtain ⟨q, j, rfl, hq⟩ := freeBlocks_cases hb
    apply mem_freeBlocks.mpr
    by_cases hj : j = k
    · subst j
      simp only [deleteOrder, update_self]
      refine hn.mem_erase_iff.mpr ⟨fun he => hne (by rw [he]; rfl), hq⟩
    · simpa only [deleteOrder, update_of_ne hj] using hq

theorem freeBlocks_push (shift : ℕ) (s : State) (p k : ℕ) :
    freeBlocks shift (pushOrder s k p) = insert (blk shift p k) (freeBlocks shift s) := by
  ext b
  constructor
  · intro hb
    obtain ⟨q, j, rfl, hq⟩ := freeBlocks_cases hb
    by_cases hj : j = k
    · subst j
      simp only [pushOrder, update_self, List.mem_cons] at hq
      rcases hq with rfl | hq
      · exact Or.inl rfl
      · exact Or.inr (mem_freeBlocks.mpr hq)
    · simp only [pushOrder, update_of_ne hj] at hq
      exact Or.inr (mem_freeBlocks.mpr hq)
  · rintro (rfl | hb)
    · exact mem_freeBlocks.mpr (by simp [pushOrder])
    · obtain ⟨q, j, rfl, hq⟩ := freeBlocks_cases hb
      apply mem_freeBlocks.mpr
      by_cases hj : j = k
      · subst j; simp [pushOrder, hq]
      · simpa only [pushOrder, update_of_ne hj] using hq

section

variable (h : Blocks shift s R H)
include h

theorem Blocks.take (hp : p ∈ s.orders k) :
    Blocks shift (deleteOrder s k p) R (insert (blk shift p k) H) := by
  have hfree : blk shift p k ∈ freeBlocks shift s := mem_freeBlocks.mpr hp
  have hf := freeBlocks_delete shift (h.nodup k) p
  have hlive : freeBlocks shift (deleteOrder s k p) ∪ insert (blk shift p k) H =
      freeBlocks shift s ∪ H := by
    rw [hf]
    ext b
    simp only [Set.mem_union, Set.mem_sdiff, Set.mem_singleton_iff, Set.mem_insert_iff]
    by_cases hb : b = blk shift p k
    · subst b; tauto
    · tauto
  refine ⟨?_, ?_, ?_, ?_, hlive ▸ h.tiling, hlive ▸ h.aligned, ?_, h.roots, h.roots_apart⟩
  · intro j
    by_cases hj : j = k
    · subst j; simpa [deleteOrder] using (h.nodup k).erase p
    · simpa [deleteOrder, hj] using h.nodup j
  · intro j hj
    by_cases hk : j = k
    · subst j; simp [deleteOrder, h.bounded k hj]
    · simpa [deleteOrder, hk] using h.bounded j hj
  · rintro b (rfl | hb) hm
    · rw [hf] at hm; exact hm.2 rfl
    · rw [hf] at hm; exact h.handed_not_free b hb hm.1
  · rintro b (rfl | hb)
    · exact Nat.le_add_right _ _
    · exact h.handed_exp b hb
  · intro b hb
    exact h.rooted b (hlive ▸ hb)

theorem Blocks.put (hp : blk shift p k ∈ H) (hk : k ≤ maxOrder) :
    Blocks shift (pushOrder s k p) R (H \ {blk shift p k}) := by
  have hf := freeBlocks_push shift s p k
  have hlive : freeBlocks shift (pushOrder s k p) ∪ H \ {blk shift p k} =
      freeBlocks shift s ∪ H := by
    rw [hf]
    ext b
    simp only [Set.mem_union, Set.mem_sdiff, Set.mem_singleton_iff, Set.mem_insert_iff]
    by_cases hb : b = blk shift p k
    · subst b; tauto
    · tauto
  refine ⟨?_, ?_, ?_, fun b hb => h.handed_exp b hb.1, hlive ▸ h.tiling, hlive ▸ h.aligned, ?_,
    h.roots, h.roots_apart⟩
  · intro j
    by_cases hj : j = k
    · subst j
      simpa [pushOrder] using ⟨h.handed_base hp k, h.nodup k⟩
    · simpa [pushOrder, hj] using h.nodup j
  · intro j hj
    have hne : j ≠ k := by omega
    simpa [pushOrder, hne] using h.bounded j hj
  · rintro b ⟨hb, hne⟩ hm
    rw [hf] at hm
    rcases hm with rfl | hm
    · exact hne rfl
    · exact h.handed_not_free b hb hm
  · intro b hb
    exact h.rooted b (hlive ▸ hb)

theorem Blocks.root_unique {r q : Block} (hr : r ∈ R) (hq : q ∈ R) (har : Mem a r) (haq : Mem a q) :
    r = q := by
  by_contra hne
  exact apart_iff.mp (h.roots_apart r hr q hq hne) a har haq

theorem Blocks.split (hb : b ∈ H) (he : shift < b.exp)
    (hm : getMaxOrder (pfndbGetEntry shift s b.upper.base).order =
      getMaxOrder (pfndbGetEntry shift s b.base).order) :
    Blocks shift s R (H \ {b} ∪ {b.lower, b.upper}) := by
  have hpos : 0 < b.exp := by omega
  have hnf := h.handed_not_free b hb
  have hlive : freeBlocks shift s ∪ (H \ {b} ∪ {b.lower, b.upper}) =
      (freeBlocks shift s ∪ H) \ {b} ∪ {b.lower, b.upper} := by
    rw [Set.union_sdiff_distrib, Set.sdiff_singleton_eq_self hnf, Set.union_assoc]
  have hal : b.Aligned := h.aligned b (Or.inr hb)
  have inner : ∀ c, c.exp = b.exp - 1 → Inside c b → c ∉ freeBlocks shift s := by
    intro c hc hin hf
    have heq := h.tiling.eq_of_mem (Or.inl hf) (Or.inr hb) c.base_mem
      (inside_iff.mp hin _ c.base_mem)
    rw [heq] at hc
    omega
  obtain ⟨r, hr, hin, hexp⟩ := h.rooted b (Or.inr hb)
  refine ⟨h.nodup, h.bounded, ?_, ?_, hlive ▸ h.tiling.split (Or.inr hb) hpos, ?_, ?_, h.roots,
    h.roots_apart⟩
  · rintro c (hc | rfl | rfl)
    · exact h.handed_not_free c hc.1
    · exact inner _ rfl (lower_inside hpos)
    · exact inner _ rfl (upper_inside hpos)
  · rintro c (hc | rfl | rfl)
    · exact h.handed_exp c hc.1
    · simp only [lower]; omega
    · simp only [upper]; omega
  · rw [hlive]
    rintro c (hc | rfl | rfl)
    · exact h.aligned c hc.1
    · exact hal.lower
    · exact hal.upper
  · rw [hlive]
    rintro c (hc | rfl | rfl)
    · exact h.rooted c hc.1
    · exact ⟨r, hr, (lower_inside hpos).trans hin, hexp⟩
    · exact ⟨r, hr, (upper_inside hpos).trans hin, hm ▸ hexp⟩

theorem Blocks.join (hb : b ∈ H) (hs : b.sibling ∈ H)
    (he : b.exp < shift + getMaxOrder (pfndbGetEntry shift s b.base).order) :
    Blocks shift s R (H \ {b, b.sibling} ∪ {b.parent}) := by
  have hal : b.Aligned := h.aligned b (Or.inr hb)
  have hlive : freeBlocks shift s ∪ (H \ {b, b.sibling} ∪ {b.parent}) =
      (freeBlocks shift s ∪ H) \ {b, b.sibling} ∪ {b.parent} := by
    have hd : freeBlocks shift s \ {b, b.sibling} = freeBlocks shift s := by
      apply sdiff_eq_left.mpr
      rw [Set.disjoint_right]
      rintro c (rfl | rfl)
      · exact h.handed_not_free _ hb
      · exact h.handed_not_free _ hs
    rw [Set.union_sdiff_distrib, hd, Set.union_assoc]
  obtain ⟨r, hr, hin, hexp⟩ := h.rooted b (Or.inr hb)
  have hral := (h.roots r hr).1
  have hlt : b.exp < r.exp := hexp ▸ he
  refine ⟨h.nodup, h.bounded, ?_, ?_, hlive ▸ h.tiling.join (Or.inr hb) (Or.inr hs) hal, ?_, ?_,
    h.roots, h.roots_apart⟩
  · rintro c (hc | rfl)
    · exact h.handed_not_free c hc.1
    · intro hf
      have heq := h.tiling.eq_of_mem (Or.inl hf) (Or.inr hb)
        ((mem_parent hal _).mpr (Or.inl b.base_mem)) b.base_mem
      have := congrArg Block.exp heq
      simp [parent] at this
  · rintro c (hc | rfl)
    · exact h.handed_exp c hc.1
    · have := h.handed_exp b hb
      simp only [parent]
      omega
  · rw [hlive]
    rintro c (hc | rfl)
    · exact h.aligned c hc.1
    · exact hal.parent
  · rw [hlive]
    rintro c (hc | rfl)
    · exact h.rooted c hc.1
    · refine ⟨r, hr, parent_inside hal hral hin hlt, ?_⟩
      obtain ⟨p, _, hpar, ⟨hbp, _⟩ | ⟨_, hsp⟩⟩ := hal.half
      · rw [hpar, ← hbp]
        exact hexp
      · obtain ⟨q, hq, hqin, hqexp⟩ := h.rooted b.sibling (Or.inr hs)
        have hrq : r = q := h.root_unique hr hq
          (inside_iff.mp (sibling_inside hal hral hin hlt) _ (base_mem b.sibling))
          (inside_iff.mp hqin _ (base_mem b.sibling))
        rw [hpar, ← hsp, hrq]
        exact hqexp

end

section Moves

variable {G : Set Block} {b c : Block}

theorem Blocks.fresh (h : Blocks shift s R (insert b G)) (hb : b ∉ G) (hab : Mem a b)
    (hac : Mem a c) : c ∉ G := by
  intro hc
  have he := h.tiling.eq_of_mem (Or.inr (Set.mem_insert_of_mem b hc))
    (Or.inr (Set.mem_insert b G)) hac hab
  exact hb (he ▸ hc)

theorem Blocks.put_insert (h : Blocks shift s R (insert (blk shift p k) G))
    (hb : blk shift p k ∉ G) (hk : k ≤ maxOrder) : Blocks shift (pushOrder s k p) R G := by
  have := h.put (Set.mem_insert _ G) hk
  rwa [Set.insert_sdiff_self_of_notMem hb] at this

theorem Blocks.split_insert (h : Blocks shift s R (insert b G)) (hb : b ∉ G)
    (he : shift < b.exp)
    (hm : getMaxOrder (pfndbGetEntry shift s b.upper.base).order =
      getMaxOrder (pfndbGetEntry shift s b.base).order) :
    Blocks shift s R (insert b.upper (insert b.lower G)) := by
  have := h.split (Set.mem_insert b G) he hm
  rw [Set.insert_sdiff_self_of_notMem hb] at this
  convert this using 1
  ext c
  simp only [Set.mem_insert_iff, Set.mem_union, Set.mem_singleton_iff]
  tauto

theorem Blocks.join_insert (h : Blocks shift s R (insert b (insert b.sibling G)))
    (hb : b ∉ G) (hs : b.sibling ∉ G)
    (he : b.exp < shift + getMaxOrder (pfndbGetEntry shift s b.base).order) :
    Blocks shift s R (insert b.parent G) := by
  have := h.join (Set.mem_insert b _) (Set.mem_insert_of_mem b (Set.mem_insert _ G)) he
  convert this using 1
  ext c
  simp only [Set.mem_insert_iff, Set.mem_union, Set.mem_sdiff, Set.mem_singleton_iff]
  constructor
  · rintro (rfl | hc)
    · exact Or.inr rfl
    · exact Or.inl ⟨Or.inr (Or.inr hc), by rintro (rfl | rfl) <;> contradiction⟩
  · rintro (⟨hc, hn⟩ | rfl)
    · tauto
    · exact Or.inl rfl

end Moves

theorem entry_set_self (s : State) (p : ℕ) (e : Page) :
    pfndbGetEntry shift (setEntry shift s p e) p = e := by
  simp [pfndbGetEntry, setEntry]

theorem entry_set_ne (s : State) (e : Page) (h : q >>> shift ≠ p >>> shift) :
    pfndbGetEntry shift (setEntry shift s p e) q = pfndbGetEntry shift s q := by
  simp [pfndbGetEntry, setEntry, h]

theorem Blocks.set_interior (h : Blocks shift s R H) (hp : 2 ^ shift ∣ p) (e : Page)
    (hne : ∀ b ∈ freeBlocks shift s ∪ H, b.base ≠ p) : Blocks shift (setEntry shift s p e) R H :=
  h.reentry rfl fun b hb => by
    rw [entry_set_ne _ _ fun heq => hne b hb (frame_injective (h.page_dvd hb) hp heq)]

variable {e : Page}

theorem Blocks.set_same_max (h : Blocks shift s R H) (p : ℕ)
    (he : getMaxOrder e.order = getMaxOrder (pfndbGetEntry shift s p).order) :
    Blocks shift (setEntry shift s p e) R H :=
  h.reentry rfl fun b _ => by
    by_cases hb : b.base >>> shift = p >>> shift
    · simp only [pfndbGetEntry] at he ⊢
      simp [setEntry, hb, he]
    · rw [entry_set_ne _ _ hb]

section

variable (ht : Typed shift s P) (h : Blocks shift s R H)

include ht h

theorem Typed.listed_free (hp : p ∈ s.orders k) :
    (pfndbGetEntry shift s p).type = .free := by
  apply (ht.free_iff _).mpr
  rw [frame_address (h.listed_dvd hp)]
  exact Or.inl ((ht.current k p hp).symm ▸ hp)

theorem Typed.take (hp : p ∈ s.orders k) :
    Typed shift (deleteOrder s k p) (insert (p >>> shift) P) := by
  have sub : ∀ j q, q ∈ (deleteOrder s k p).orders j → q ∈ s.orders j := by
    intro j q hq
    by_cases hj : j = k
    · subst j
      exact List.mem_of_mem_erase (by simpa [deleteOrder] using hq)
    · simpa [deleteOrder, hj] using hq
  constructor
  · intro j q hq
    exact ht.current j q (sub j q hq)
  · intro f
    by_cases hf : f = p >>> shift
    · subst f
      exact ⟨fun _ => Or.inr (Set.mem_insert _ _), fun _ => ht.listed_free h hp⟩
    · refine (ht.free_iff f).trans ⟨?_, ?_⟩
      · rintro (hm | hm)
        · left
          have hne : f <<< shift ≠ p := fun he => hf (by rw [← he, address_frame])
          show f <<< shift ∈ (deleteOrder s k p).orders (getCurOrder (s.pfndb f).order)
          by_cases hj : getCurOrder (s.pfndb f).order = k
          · rw [hj] at hm ⊢
            simpa [deleteOrder] using (List.mem_erase_of_ne hne).mpr hm
          · simpa [deleteOrder, hj] using hm
        · exact Or.inr (Set.mem_insert_of_mem _ hm)
      · rintro (hm | hm | hm)
        · exact Or.inl (sub _ _ hm)
        · exact (hf hm).elim
        · exact Or.inr hm

theorem Typed.retype (hp : 2 ^ shift ∣ p)
    (hl : ∀ k, p ∉ s.orders k) (he : e.type ≠ .free) :
    Typed shift (setEntry shift s p e) (P \ {p >>> shift}) := by
  constructor
  · intro k q hq
    have hne : q >>> shift ≠ p >>> shift := fun heq =>
      hl k (frame_injective (h.listed_dvd hq) hp heq ▸ hq)
    rw [entry_set_ne _ _ hne]
    exact ht.current k q hq
  · intro f
    by_cases hf : f = p >>> shift
    · subst f
      simp only [setEntry, update_self, frame_address hp, Set.mem_sdiff,
        Set.mem_singleton_iff, not_true_eq_false, and_false, or_false]
      exact ⟨fun hx => (he hx).elim, fun hx => (hl _ hx).elim⟩
    · simpa [setEntry, hf] using ht.free_iff f

/-- Marking a frame off the lists free and pushing it, the last step of every path
that gives a block back. -/
theorem Typed.put (hp : 2 ^ shift ∣ p)
    (hl : ∀ j, p ∉ s.orders j) (he : e.type = .free) (hc : getCurOrder e.order = k) :
    Typed shift (pushOrder (setEntry shift s p e) k p) P := by
  constructor
  · intro j q hq
    by_cases hqp : q = p
    · subst q
      have hj : j = k := by
        by_contra hj
        exact hl j (by simpa [pushOrder, hj] using hq)
      rw [hj]
      simpa [pfndbGetEntry, pushOrder, setEntry] using hc
    · have hq' : q ∈ s.orders j := by
        by_cases hj : j = k
        · subst j
          simpa [pushOrder, hqp] using hq
        · simpa [pushOrder, hj] using hq
      have hne : q >>> shift ≠ p >>> shift := fun heq =>
        hqp (frame_injective (h.listed_dvd hq') hp heq)
      have hent := entry_set_ne s e hne
      show getCurOrder (pfndbGetEntry shift (setEntry shift s p e) q).order = j
      rw [hent]
      exact ht.current j q hq'
  · intro f
    by_cases hf : f = p >>> shift
    · subst f
      simp [pushOrder, setEntry, frame_address hp, he, hc]
    · have hne : f <<< shift ≠ p := fun heq => hf (by rw [← heq, address_frame])
      refine Iff.trans ?_ ((ht.free_iff f).trans ?_)
      · simp [pushOrder, setEntry, hf]
      · by_cases hj : getCurOrder (s.pfndb f).order = k
        · simp [pushOrder, setEntry, hf, hj, hne]
        · simp [pushOrder, setEntry, hf, hj]

end

end MemBuddyInvariant
