import EvalynKernel.MachineWords

/-! # The search for a shift (`libc/math.c`)

`find_reciprocal_shift` looks for the largest shift with which the scaled numerator divided
by the denominator still fits into 64 bits. It compares in 128 bits, where a numerator that is
shifted too far wraps, so the comparison is monotone only for shifts that the search tries. -/
namespace LibcMath

open MachineWords

abbrev dword : ℕ := 2 ^ 128

def reciprocalLoop (numerator lim : ℕ) : ℕ → ℕ → ℕ → Exec ℕ
  | fuel, lo, hi =>
    if lo < hi then
      match fuel with
      | 0 => .error .fuel
      | fuel + 1 =>
        let mid := (lo + hi + 1) >>> 1
        if numerator <<< mid % dword ≤ lim then reciprocalLoop numerator lim fuel mid hi
        else reciprocalLoop numerator lim fuel lo (mid - 1)
    else .ok lo

def findReciprocalShift (numerator denominator : ℕ) : Exec ℕ :=
  reciprocalLoop numerator (denominator * (word - 1) % dword) 127 0 127

variable {numerator denominator lim lo hi k fuel : ℕ}

theorem reciprocalLoop_returns (hfuel : hi - lo ≤ fuel) :
    ∃ s, reciprocalLoop numerator lim fuel lo hi = .ok s ∧ lo ≤ s := by
  induction fuel generalizing lo hi with
  | zero =>
    rw [reciprocalLoop, if_neg (by omega)]
    exact ⟨lo, rfl, le_rfl⟩
  | succ fuel ih =>
    rw [reciprocalLoop, Nat.shiftRight_eq_div_pow]
    by_cases hlt : lo < hi
    · rw [if_pos hlt]
      dsimp only
      split
      · obtain ⟨s, hs, hle⟩ := @ih ((lo + hi + 1) / 2 ^ 1) hi (by omega)
        exact ⟨s, hs, by omega⟩
      · exact ih (by omega)
    · rw [if_neg hlt]
      exact ⟨lo, rfl, le_rfl⟩

/-- A search for `k` settles the bits of `k` from the top. It compares at `beyond k i` if bit `i`
is 0, and goes astray if that comparison holds. -/
def beyond (k i : ℕ) : ℕ := (k / 2 ^ i + 1) * 2 ^ i

theorem lt_beyond (k i : ℕ) : k < beyond k i := by
  have := Nat.lt_div_mul_add (a := k) (Nat.two_pow_pos i)
  rw [beyond, Nat.add_one_mul]
  omega

theorem reciprocalLoop_iff (hbelow : ∀ mid ≤ k, numerator <<< mid % dword ≤ lim)
    (hfuel : 2 ^ i - 1 ≤ fuel) :
    reciprocalLoop numerator lim fuel (k / 2 ^ i * 2 ^ i) (k / 2 ^ i * 2 ^ i + (2 ^ i - 1)) =
      .ok k ↔ ∀ j < i, k / 2 ^ j % 2 = 0 → lim < numerator <<< beyond k j % dword := by
  induction i generalizing fuel with
  | zero =>
    unfold reciprocalLoop
    simp
  | succ i ih =>
    have hhalf : k / 2 ^ (i + 1) = k / 2 ^ i / 2 := by rw [Nat.pow_succ, Nat.div_div_eq_div_mul]
    have hle := Nat.div_mul_le_self k (2 ^ i)
    have hlt := lt_beyond k i
    have hnext : beyond k i = k / 2 ^ i * 2 ^ i + 2 ^ i := Nat.add_one_mul _ _
    rw [Nat.forall_lt_succ_right, hhalf, Nat.pow_succ]
    rw [Nat.pow_succ] at hfuel
    obtain ⟨fuel, rfl⟩ : ∃ f, fuel = f + 1 := ⟨fuel - 1, by omega⟩
    have ih := @ih fuel (by omega)
    obtain ⟨q, hq⟩ : ∃ q, q = k / 2 ^ i / 2 * (2 ^ i * 2) := ⟨_, rfl⟩
    have hmid : (q + (q + (2 ^ i * 2 - 1)) + 1) >>> 1 = q + 2 ^ i := by
      rw [Nat.shiftRight_eq_div_pow]
      omega
    rw [← hq, reciprocalLoop, if_pos (by omega)]
    simp only [hmid]
    rcases Nat.mod_two_eq_zero_or_one (k / 2 ^ i) with hbit | hbit
    · -- the search must go down here
      have hlo : q = k / 2 ^ i * 2 ^ i := by
        rw [hq, Nat.mul_comm (2 ^ i), ← Nat.mul_assoc,
          Nat.div_mul_cancel (Nat.dvd_of_mod_eq_zero hbit)]
      rw [hlo, ← hnext]
      split
      · next hpass =>
        obtain ⟨s, hs, hge⟩ := @reciprocalLoop_returns numerator lim (beyond k i)
          (k / 2 ^ i * 2 ^ i + (2 ^ i * 2 - 1)) fuel (by omega)
        rw [hs, Except.ok.injEq]
        constructor
        · omega
        · exact fun h => absurd (h.2 hbit) (by omega)
      · next hfail =>
        rw [show beyond k i - 1 = k / 2 ^ i * 2 ^ i + (2 ^ i - 1) by omega, ih]
        simp [hbit, Nat.lt_of_not_le hfail]
    · have hlo : q + 2 ^ i = k / 2 ^ i * 2 ^ i := by
        rw [hq, Nat.mul_comm (2 ^ i), ← Nat.mul_assoc, ← Nat.add_one_mul]
        congr 1
        omega
      rw [if_pos (hbelow _ (by omega)),
        show q + (2 ^ i * 2 - 1) = q + 2 ^ i + (2 ^ i - 1) by omega, hlo, ih]
      simp [hbit]

theorem le_log2_iff (hnum : 0 < numerator) (hlim : numerator ≤ lim) (s : ℕ) :
    s ≤ Nat.log2 (lim / numerator) ↔ numerator * 2 ^ s ≤ lim := by
  rw [Nat.le_log2 (Nat.div_pos hlim hnum).ne', Nat.le_div_iff_mul_le hnum, Nat.mul_comm]

/-- Beyond the greatest shift that fits, every comparison that a search for it makes fails,
although the shifted numerator may have lost bits. -/
def Refused (numerator denominator : ℕ) : Prop :=
  ∀ i < 7, Nat.log2 (denominator * (word - 1) / numerator) / 2 ^ i % 2 = 0 →
    denominator * (word - 1) <
      numerator <<< beyond (Nat.log2 (denominator * (word - 1) / numerator)) i % dword

instance : Decidable (Refused numerator denominator) :=
  inferInstanceAs (Decidable (∀ i < 7, _ → _))

theorem product_lt (hden : denominator < word) : denominator * (word - 1) < dword :=
  calc denominator * (word - 1) < word * word := Nat.mul_lt_mul'' hden (by decide)
    _ = dword := by rw [← Nat.pow_add]

theorem findReciprocalShift_eq_iff (hnum : 0 < numerator) (hden : denominator < word)
    (hlim : numerator ≤ denominator * (word - 1)) :
    findReciprocalShift numerator denominator =
      .ok (Nat.log2 (denominator * (word - 1) / numerator)) ↔ Refused numerator denominator := by
  have hlt := product_lt hden
  have hk : Nat.log2 (denominator * (word - 1) / numerator) < 2 ^ 7 :=
    (Nat.log2_lt (Nat.div_pos hlim hnum).ne').mpr (lt_of_le_of_lt (Nat.div_le_self _ _) hlt)
  have hbelow : ∀ mid ≤ Nat.log2 (denominator * (word - 1) / numerator),
      numerator <<< mid % dword ≤ denominator * (word - 1) := by
    intro mid hmid
    have hle := (le_log2_iff hnum hlim mid).mp hmid
    rwa [Nat.shiftLeft_eq, Nat.mod_eq_of_lt (lt_of_le_of_lt hle hlt)]
  have hiff := reciprocalLoop_iff hbelow (show 2 ^ 7 - 1 ≤ 127 by decide)
  rw [Nat.div_eq_of_lt hk, Nat.zero_mul] at hiff
  rw [findReciprocalShift, Nat.mod_eq_of_lt hlt]
  exact hiff

theorem findReciprocalShift_spec (hnum : 0 < numerator) (hsmall : numerator < 2 ^ 32)
    (hden : denominator < word) (hlim : numerator ≤ denominator * (word - 1))
    (hbound : denominator * (word - 1) < numerator * 2 ^ 96) :
    ∃ s, findReciprocalShift numerator denominator = .ok s ∧ s ≤ 95 ∧
      numerator * 2 ^ s ≤ denominator * (word - 1) := by
  have hiff := le_log2_iff hnum hlim
  have h96 := mt (hiff 96).mp (Nat.not_le.mpr hbound)
  refine ⟨_, (findReciprocalShift_eq_iff hnum hden hlim).mpr fun i hi hbit => ?_, by omega,
    (hiff _).mp le_rfl⟩
  generalize hk : Nat.log2 (denominator * (word - 1) / numerator) = k at *
  -- no comparison is at more than 96, so no bit is lost
  have hle : beyond k i ≤ 96 := by
    have hbits : i = 0 ∨ i = 1 ∨ i = 2 ∨ i = 3 ∨ i = 4 ∨ i = 5 ∨ i = 6 := by omega
    unfold beyond
    rcases hbits with rfl | rfl | rfl | rfl | rfl | rfl | rfl <;> omega
  have hfit : numerator * 2 ^ beyond k i < dword :=
    calc numerator * 2 ^ beyond k i < 2 ^ 32 * 2 ^ beyond k i :=
          Nat.mul_lt_mul_of_pos_right hsmall (Nat.two_pow_pos _)
      _ ≤ 2 ^ 32 * 2 ^ 96 := Nat.mul_le_mul_left _ (Nat.pow_le_pow_right (by decide) hle)
      _ = dword := by rw [← Nat.pow_add]
  rw [Nat.shiftLeft_eq, Nat.mod_eq_of_lt hfit]
  exact Nat.lt_of_not_le fun h => absurd ((hiff _).mpr h) (Nat.not_le.mpr (lt_beyond k i))

/-- The greatest shift up to 127 with which the scaled numerator divided by the denominator
fits into 64 bits, or 0 if there is none. -/
structure IsReciprocalShift (numerator denominator s : ℕ) : Prop where
  le : s ≤ 127
  fits : numerator * 2 ^ s ≤ denominator * (word - 1) ∨ s = 0
  greatest : ∀ s' ≤ 127, numerator * 2 ^ s' ≤ denominator * (word - 1) → s' ≤ s

/-- The search returns. It finds the greatest shift, with which the division is exact, if and only
if the comparisons that lead there come out as they do over the integers. -/
theorem findReciprocalShift_greatest (hnum : 1 ≤ numerator) (hnum' : numerator < word)
    (hden : 1 ≤ denominator) (hden' : denominator < word) :
    ∃ s, findReciprocalShift numerator denominator = .ok s ∧
      (IsReciprocalShift numerator denominator s ∧
          numerator <<< s % dword / denominator = numerator * 2 ^ s / denominator ∧
          numerator * 2 ^ s / denominator < word ↔
        Refused numerator denominator) := by
  have hlim : numerator ≤ denominator * (word - 1) :=
    (show numerator ≤ 1 * (word - 1) by omega).trans (Nat.mul_le_mul_right _ hden)
  have hiff := le_log2_iff hnum hlim
  have heq := findReciprocalShift_eq_iff hnum hden' hlim
  have hprod := product_lt hden'
  generalize hk : Nat.log2 (denominator * (word - 1) / numerator) = k at hiff heq
  have hle := (hiff k).mp le_rfl
  have hk127 : k ≤ 127 := by
    rw [← Nat.lt_succ_iff, ← hk, Nat.log2_lt (Nat.div_pos hlim hnum).ne']
    exact lt_of_le_of_lt (Nat.div_le_self _ _) hprod
  obtain ⟨s, hs, -⟩ := @reciprocalLoop_returns numerator
    (denominator * (word - 1) % dword) 0 127 127
    le_rfl
  refine ⟨s, hs, ?_⟩
  rw [← heq, show findReciprocalShift numerator denominator = .ok s from hs, Except.ok.injEq]
  constructor
  · rintro ⟨hshift, -⟩
    have hge := hshift.greatest k hk127 hle
    rcases hshift.fits with hfits | rfl
    · exact Nat.le_antisymm ((hiff s).mpr hfits) hge
    · omega
  · rintro rfl
    refine ⟨⟨hk127, .inl hle, fun s' _ => (hiff s').mpr⟩, ?_, ?_⟩
    · rw [Nat.shiftLeft_eq, Nat.mod_eq_of_lt (lt_of_le_of_lt hle hprod)]
    · rw [Nat.div_lt_iff_lt_mul hden]
      have := Nat.mul_lt_mul_of_pos_left (show word - 1 < word by decide) hden
      rw [Nat.mul_comm word]
      omega

/-- Nanoseconds for a clock of 24 MHz. -/
theorem nanoseconds_greatest :
    ∃ s, findReciprocalShift 1000000000 24000000 = .ok s ∧
      IsReciprocalShift 1000000000 24000000 s := by
  obtain ⟨s, hs, hiff⟩ := @findReciprocalShift_greatest 1000000000 24000000 (by decide) (by decide)
    (by decide) (by decide)
  exact ⟨s, hs, (hiff.mpr (by decide +kernel)).1⟩

/-- The comparison at 96 is with 0, since 2^32 shifted by 96 has no bit left in 128; the search
ends at 127, where the greatest shift is 64. -/
theorem shift_pushed_out :
    findReciprocalShift (2 ^ 32) (2 ^ 32 + 1) = .ok 127 ∧
      2 ^ 32 * 2 ^ 64 ≤ (2 ^ 32 + 1) * (word - 1) ∧
      (2 ^ 32 + 1) * (word - 1) < 2 ^ 32 * 2 ^ 65 ∧
      (2 ^ 32) <<< 127 % dword / (2 ^ 32 + 1) = 0 := by
  decide +kernel

end LibcMath
