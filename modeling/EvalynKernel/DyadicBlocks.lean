import Mathlib.Data.Nat.Bitwise
import Mathlib.Data.Set.Basic
import Mathlib.Order.Basic
import Mathlib.Tactic.Ring

/-! # Dyadic blocks and tilings

A block is an interval whose length is a power of two. Aligned blocks form a laminar
family: two of them are nested or apart. A tiling is a set of pairwise apart blocks
with a given union; splitting a block into its halves and joining two siblings keep it. -/
namespace DyadicBlocks

variable {b c r : Block} {a : ℕ}

@[ext] structure Block where
  base : ℕ
  exp : ℕ
  deriving DecidableEq, Repr

namespace Block

def size (b : Block) : ℕ := 2 ^ b.exp
def Mem (a : ℕ) (b : Block) : Prop := b.base ≤ a ∧ a < b.base + b.size
def Apart (b c : Block) : Prop := b.base + b.size ≤ c.base ∨ c.base + c.size ≤ b.base
def Inside (b c : Block) : Prop := c.base ≤ b.base ∧ b.base + b.size ≤ c.base + c.size
def Aligned (b : Block) : Prop := 2 ^ b.exp ∣ b.base

def lower (b : Block) : Block := ⟨b.base, b.exp - 1⟩
def upper (b : Block) : Block := ⟨b.base + 2 ^ (b.exp - 1), b.exp - 1⟩
def sibling (b : Block) : Block := ⟨b.base ^^^ 2 ^ b.exp, b.exp⟩
def parent (b : Block) : Block := ⟨min b.base (b.base ^^^ 2 ^ b.exp), b.exp + 1⟩

theorem size_pos (b : Block) : 0 < b.size := Nat.two_pow_pos _

theorem base_mem (b : Block) : Mem b.base b := ⟨le_rfl, Nat.lt_add_of_pos_right b.size_pos⟩

theorem Apart.symm (h : Apart b c) : Apart c b := Or.symm h

theorem apart_iff : Apart b c ↔ ∀ a, Mem a b → ¬ Mem a c := by
  have hb := b.size_pos
  have hc := c.size_pos
  constructor
  · rintro h a ⟨h1, h2⟩ ⟨h3, h4⟩
    rcases h with h | h <;> omega
  · intro h
    by_contra hn
    simp only [Apart, not_or, not_le] at hn
    exact h (max b.base c.base) ⟨le_max_left _ _, max_lt (by omega) (by omega)⟩
      ⟨le_max_right _ _, max_lt (by omega) (by omega)⟩

theorem inside_iff : Inside b c ↔ ∀ a, Mem a b → Mem a c := by
  have hb := b.size_pos
  constructor
  · rintro ⟨h1, h2⟩ a ⟨h3, h4⟩
    exact ⟨by omega, by omega⟩
  · intro h
    have hl := h b.base ⟨le_rfl, by omega⟩
    have hr := h (b.base + b.size - 1) ⟨by omega, by omega⟩
    exact ⟨hl.1, by have := hr.2; omega⟩

theorem Inside.refl (b : Block) : Inside b b := ⟨le_rfl, le_rfl⟩

theorem Inside.trans (h : Inside b c) (k : Inside c d) : Inside b d :=
  ⟨le_trans k.1 h.1, le_trans h.2 k.2⟩

theorem Inside.exp_le (h : Inside b c) : b.exp ≤ c.exp := by
  have hs : 2 ^ b.exp ≤ 2 ^ c.exp := by
    have h1 := h.1
    have h2 := h.2
    simp only [size] at h2
    omega
  exact (Nat.pow_le_pow_iff_right (by norm_num)).mp hs

theorem Inside.eq_of_exp (h : Inside b c) (he : b.exp = c.exp) : b = c := by
  have hsize : b.size = c.size := congrArg (2 ^ ·) he
  have h1 := h.1
  have h2 := h.2
  exact Block.ext (by omega) he

/-- Laminarity: an aligned block that meets a larger aligned block lies inside it. -/
theorem inside_of_meet (hb : Aligned b) (hc : Aligned c) (he : b.exp ≤ c.exp) (hab : Mem a b)
    (hac : Mem a c) : Inside b c := by
  obtain ⟨q, hq⟩ := hb
  obtain ⟨r, hr⟩ := dvd_trans (Nat.pow_dvd_pow 2 he) hc
  obtain ⟨t, ht⟩ : 2 ^ b.exp ∣ c.size := Nat.pow_dvd_pow 2 he
  obtain ⟨h1, h2⟩ := hab
  obtain ⟨h3, h4⟩ := hac
  simp only [Inside, size] at *
  rw [hq] at h1 h2 ⊢
  rw [hr, ht] at h4 ⊢
  have hqr : r ≤ q := by
    by_contra hn
    have := Nat.mul_le_mul_left (2 ^ b.exp) (show q + 1 ≤ r by omega)
    rw [Nat.mul_succ] at this
    omega
  have hqt : q + 1 ≤ r + t := by
    by_contra hn
    have := Nat.mul_le_mul_left (2 ^ b.exp) (show r + t ≤ q by omega)
    rw [Nat.mul_add] at this
    omega
  have h5 := Nat.mul_le_mul_left (2 ^ b.exp) hqr
  have h6 := Nat.mul_le_mul_left (2 ^ b.exp) hqt
  rw [Nat.mul_succ, Nat.mul_add] at h6
  exact ⟨h5, by omega⟩

variable {n q : ℕ}

theorem xor_two_pow_low : (2 ^ (n + 1) * q) ^^^ 2 ^ n = 2 ^ (n + 1) * q + 2 ^ n := by
  rw [Nat.two_pow_add_eq_or_of_lt (Nat.pow_lt_pow_right (by norm_num) (Nat.lt_succ_self n))]
  apply Nat.eq_of_testBit_eq
  intro i
  simp only [Nat.testBit_xor, Nat.testBit_or, Nat.testBit_two_pow_mul, Nat.testBit_two_pow]
  by_cases hi : n = i
  · subst hi; simp
  · simp [hi]

theorem xor_two_pow_high : (2 ^ (n + 1) * q + 2 ^ n) ^^^ 2 ^ n = 2 ^ (n + 1) * q := by
  rw [← xor_two_pow_low, Nat.xor_assoc, Nat.xor_self, Nat.xor_zero]

theorem Aligned.half (h : Aligned b) :
    ∃ p, 2 ^ (b.exp + 1) ∣ p ∧ b.parent.base = p ∧
      (b.base = p ∧ b.sibling.base = p + 2 ^ b.exp ∨
       b.base = p + 2 ^ b.exp ∧ b.sibling.base = p) := by
  obtain ⟨m, hm⟩ := h
  rcases Nat.even_or_odd' m with ⟨q, hq | hq⟩
  · have hb : b.base = 2 ^ (b.exp + 1) * q := by rw [hm, hq, Nat.pow_succ]; ring
    have hx : b.base ^^^ 2 ^ b.exp = b.base + 2 ^ b.exp := by rw [hb, xor_two_pow_low]
    refine ⟨b.base, ⟨q, hb⟩, ?_, Or.inl ⟨rfl, hx⟩⟩
    exact min_eq_left (hx ▸ Nat.le_add_right _ _)
  · have hb : b.base = 2 ^ (b.exp + 1) * q + 2 ^ b.exp := by rw [hm, hq, Nat.pow_succ]; ring
    have hx : b.base ^^^ 2 ^ b.exp = 2 ^ (b.exp + 1) * q := by rw [hb, xor_two_pow_high]
    refine ⟨_, Nat.dvd_mul_right _ q, ?_, Or.inr ⟨hb, hx⟩⟩
    exact (min_eq_right (by rw [hx, hb]; exact Nat.le_add_right _ _)).trans hx

theorem Aligned.sibling (h : Aligned b) : Aligned b.sibling := by
  show 2 ^ b.exp ∣ b.sibling.base
  obtain ⟨p, hp, _, hb⟩ := h.half
  have hd : 2 ^ b.exp ∣ p := dvd_trans (Nat.pow_dvd_pow 2 (Nat.le_succ _)) hp
  rcases hb with ⟨_, hx⟩ | ⟨_, hx⟩
  · rw [hx]
    exact Nat.dvd_add hd (dvd_refl _)
  · rw [hx]
    exact hd

theorem Aligned.parent (h : Aligned b) : Aligned b.parent := by
  obtain ⟨p, hp, hpar, _⟩ := h.half
  show 2 ^ (b.exp + 1) ∣ b.parent.base
  exact hpar ▸ hp

theorem sibling_base_ne (h : Aligned b) : b.sibling.base ≠ b.base := by
  obtain ⟨p, _, _, ⟨hb, hx⟩ | ⟨hb, hx⟩⟩ := h.half <;> omega

theorem sibling_sibling (b : Block) : b.sibling.sibling = b :=
  Block.ext (by simp only [sibling, Nat.xor_assoc, Nat.xor_self, Nat.xor_zero]) rfl

theorem mem_parent (h : Aligned b) (a : ℕ) : Mem a b.parent ↔ Mem a b ∨ Mem a b.sibling := by
  have hps : b.parent.size = 2 ^ b.exp + 2 ^ b.exp := by
    simp only [size, Block.parent, Nat.pow_succ]
    ring
  have hss : b.sibling.size = 2 ^ b.exp := rfl
  have hbs : b.size = 2 ^ b.exp := rfl
  obtain ⟨p, _, hpar, hb⟩ := h.half
  simp only [Mem, hpar, hps, hss, hbs]
  rcases hb with ⟨hb, hx⟩ | ⟨hb, hx⟩ <;> rw [hb, hx] <;> omega

theorem parent_inside (hb : Aligned b) (hr : Aligned r) (h : Inside b r) (he : b.exp < r.exp) :
    Inside b.parent r :=
  inside_of_meet hb.parent hr he ((mem_parent hb _).mpr (Or.inl b.base_mem))
    (inside_iff.mp h _ b.base_mem)

theorem sibling_inside (hb : Aligned b) (hr : Aligned r) (h : Inside b r) (he : b.exp < r.exp) :
    Inside b.sibling r :=
  inside_iff.mpr fun a ha => inside_iff.mp (parent_inside hb hr h he) a
    ((mem_parent hb a).mpr (Or.inr ha))

theorem mem_halves (he : 0 < b.exp) (a : ℕ) : Mem a b ↔ Mem a b.lower ∨ Mem a b.upper := by
  have hs : 2 ^ b.exp = 2 ^ (b.exp - 1) + 2 ^ (b.exp - 1) := by
    rw [← Nat.two_mul, ← Nat.pow_succ', Nat.succ_eq_add_one, Nat.sub_add_cancel he]
  simp only [Mem, lower, upper, size, hs]
  omega

theorem halves_apart (b : Block) : Apart b.lower b.upper := Or.inl (by simp [lower, upper, size])

theorem lower_inside (he : 0 < b.exp) : Inside b.lower b :=
  inside_iff.mpr fun a ha => (mem_halves he a).mpr (Or.inl ha)

theorem upper_inside (he : 0 < b.exp) : Inside b.upper b :=
  inside_iff.mpr fun a ha => (mem_halves he a).mpr (Or.inr ha)

theorem Aligned.lower (h : Aligned b) : Aligned b.lower :=
  dvd_trans (Nat.pow_dvd_pow 2 (Nat.sub_le _ _)) h

theorem Aligned.upper (h : Aligned b) : Aligned b.upper :=
  Nat.dvd_add (dvd_trans (Nat.pow_dvd_pow 2 (Nat.sub_le _ _)) h) (dvd_refl _)

theorem Aligned.upper_sibling (h : Aligned b) (he : 0 < b.exp) : b.upper.sibling = b.lower := by
  obtain ⟨q, hq⟩ := h
  have hexp : b.exp - 1 + 1 = b.exp := Nat.sub_add_cancel he
  apply Block.ext
  · show (b.base + 2 ^ (b.exp - 1)) ^^^ 2 ^ (b.exp - 1) = b.base
    rw [hq, ← hexp, Nat.add_sub_cancel, xor_two_pow_high]
  · rfl

end Block

open Block

/-- A set of pairwise apart blocks whose union is the region. -/
structure Tiling (B : Set Block) (region : Set ℕ) : Prop where
  apart : ∀ b ∈ B, ∀ c ∈ B, b ≠ c → Apart b c
  cover : ∀ a, a ∈ region ↔ ∃ b ∈ B, Mem a b

theorem Tiling.empty : Tiling ∅ ∅ := ⟨by simp, by simp⟩

variable {B : Set Block} {S : Set ℕ}

theorem Tiling.eq_of_mem (h : Tiling B S) (hb : b ∈ B) (hc : c ∈ B) (hab : Mem a b)
    (hac : Mem a c) : b = c := by
  by_contra hne
  exact apart_iff.mp (h.apart b hb c hc hne) a hab hac

variable {C : Set Block}

section

variable (h : Tiling B S)
include h

theorem Tiling.refine (hCB : C ⊆ B) (hapart : ∀ b ∈ D, ∀ c ∈ D, b ≠ c → Apart b c)
    (hcover : ∀ a, (∃ b ∈ C, Mem a b) ↔ ∃ b ∈ D, Mem a b) : Tiling (B \ C ∪ D) S := by
  have cross : ∀ b ∈ B \ C, ∀ c ∈ D, Apart b c := by
    intro b hb c hc
    apply apart_iff.mpr
    intro a hab hac
    obtain ⟨d, hd, had⟩ := (hcover a).mpr ⟨c, hc, hac⟩
    have hbd := h.eq_of_mem hb.1 (hCB hd) hab had
    exact hb.2 (hbd ▸ hd)
  constructor
  · rintro b (hb | hb) c (hc | hc) hne
    · exact h.apart b hb.1 c hc.1 hne
    · exact cross b hb c hc
    · exact (cross c hc b hb).symm
    · exact hapart b hb c hc hne
  · intro a
    rw [h.cover a]
    constructor
    · rintro ⟨b, hb, hab⟩
      by_cases hC : b ∈ C
      · obtain ⟨d, hd, had⟩ := (hcover a).mp ⟨b, hC, hab⟩
        exact ⟨d, Or.inr hd, had⟩
      · exact ⟨b, Or.inl ⟨hb, hC⟩, hab⟩
    · rintro ⟨b, hb | hb, hab⟩
      · exact ⟨b, hb.1, hab⟩
      · obtain ⟨c, hc, hac⟩ := (hcover a).mpr ⟨b, hb, hab⟩
        exact ⟨c, hCB hc, hac⟩

theorem Tiling.split (hb : b ∈ B) (he : 0 < b.exp) : Tiling (B \ {b} ∪ {b.lower, b.upper}) S := by
  refine h.refine (by simpa using hb) ?_ ?_
  · rintro c (rfl | rfl) d (rfl | rfl) hne
    · exact (hne rfl).elim
    · exact b.halves_apart
    · exact b.halves_apart.symm
    · exact (hne rfl).elim
  · intro a
    simpa using mem_halves he a

theorem Tiling.join (hb : b ∈ B) (hs : b.sibling ∈ B) (ha : Aligned b) :
    Tiling (B \ {b, b.sibling} ∪ {b.parent}) S := by
  refine h.refine ?_ ?_ ?_
  · rintro c (rfl | rfl)
    · exact hb
    · exact hs
  · rintro c rfl d rfl hne
    exact (hne rfl).elim
  · intro a
    simpa using (mem_parent ha a).symm

theorem Tiling.union (k : Tiling C T) (hd : ∀ a, a ∈ S → a ∉ T) : Tiling (B ∪ C) (S ∪ T) := by
  have cross : ∀ b ∈ B, ∀ c ∈ C, Apart b c := fun b hb c hc => apart_iff.mpr fun a hab hac =>
    hd a ((h.cover a).mpr ⟨b, hb, hab⟩) ((k.cover a).mpr ⟨c, hc, hac⟩)
  constructor
  · rintro b (hb | hb) c (hc | hc) hne
    · exact h.apart b hb c hc hne
    · exact cross b hb c hc
    · exact (cross c hc b hb).symm
    · exact k.apart b hb c hc hne
  · intro a
    simp only [Set.mem_union, h.cover a, k.cover a, or_and_right, exists_or]

/-- In a tiling with no two siblings below an aligned block, no member lies strictly
inside that block: the smallest one would need its sibling, which nothing else covers. -/
theorem Tiling.whole (hal : ∀ b ∈ B, Aligned b) (hr : Aligned r) (hcov : ∀ a, Mem a r → a ∈ S)
    (hno : ∀ b ∈ B, b.sibling ∈ B → Inside b r → r.exp ≤ b.exp) (hb : b ∈ B) (hin : Inside b r) :
    b = r := by
  have hexp : ∀ n, ∀ c ∈ B, c.exp = n → Inside c r → r.exp ≤ n := by
    intro n
    induction n using Nat.strong_induction_on with
    | _ n ih =>
      intro c hc hn hcr
      by_contra hlt
      have hce : c.exp < r.exp := by omega
      have hsr := sibling_inside (hal c hc) hr hcr hce
      obtain ⟨d, hd, hsd⟩ := (h.cover c.sibling.base).mp
        (hcov _ (inside_iff.mp hsr _ c.sibling.base_mem))
      rcases lt_trichotomy d.exp c.exp with hde | hde | hde
      · have hds : Inside d c.sibling := inside_of_meet (hal d hd) (hal c hc).sibling (le_of_lt hde)
          hsd c.sibling.base_mem
        have := ih d.exp (by omega) d hd rfl (hds.trans hsr)
        omega
      · have hds : Inside d c.sibling := inside_of_meet (hal d hd) (hal c hc).sibling (le_of_eq hde)
          hsd c.sibling.base_mem
        have heq : d = c.sibling := hds.eq_of_exp hde
        have := hno c hc (heq ▸ hd) hcr
        omega
      · have hpar : Inside c.parent d := inside_of_meet (hal c hc).parent (hal d hd) hde
          ((mem_parent (hal c hc) _).mpr (Or.inr c.sibling.base_mem)) hsd
        have hcd := h.eq_of_mem hc hd c.base_mem (inside_iff.mp hpar _
          ((mem_parent (hal c hc) _).mpr (Or.inl c.base_mem)))
        rw [hcd] at hde
        omega
  exact hin.eq_of_exp (le_antisymm hin.exp_le (hexp b.exp b hb rfl hin))

end

end DyadicBlocks
