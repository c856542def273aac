import EvalynKernel.LibcMath

/-! # The timers (`arch/x86_64/timer`, `arch/riscv64/timer`)

Ticks become nanoseconds by a multiplication and a shift in 128 bits. The ACPI timer counts
modulo 2^24, the HPET is read modulo 2^32; `count` is the underlying number of ticks. -/
namespace ArchTimer

open MachineWords LibcMath

inductive Wallclock where
  | tsc | acpiPmt | hpet | pvclock
  deriving DecidableEq, Repr

def acpiTimerFrequency : ℕ := 3579545
def acpiTimerRollover : ℕ := 1 <<< 24
def hpetTimerRollover : ℕ := 1 <<< 32

def timerRolloverPoint : Wallclock → ℕ
  | .acpiPmt => acpiTimerRollover
  | .hpet => hpetTimerRollover
  | .tsc => 0
  | .pvclock => 0

/-- `inl` reads 32 bits. -/
def acpiPmtGetTicks (count : ℕ) : ℕ := count % 2 ^ 32 &&& 0xFFFFFF
def hpetGetTicks (count : ℕ) : ℕ := count &&& 0xFFFFFFFF

theorem acpiPmtGetTicks_eq (count : ℕ) : acpiPmtGetTicks count = count % 2 ^ 24 := by
  rw [acpiPmtGetTicks, show 0xFFFFFF = 2 ^ 24 - 1 from rfl, Nat.and_two_pow_sub_one_eq_mod]
  exact Nat.mod_mod_of_dvd count (Nat.pow_dvd_pow 2 (by decide))

theorem hpetGetTicks_eq (count : ℕ) : hpetGetTicks count = count % 2 ^ 32 := by
  rw [hpetGetTicks, show 0xFFFFFFFF = 2 ^ 32 - 1 from rfl, Nat.and_two_pow_sub_one_eq_mod]

section Nanoseconds

structure Scale where
  freqShift : ℕ
  freqMult : ℕ
  deriving DecidableEq, Repr

/-- The part of `setup_timers` and `setup_timer` that sets the scale. -/
def setupScale (freq : ℕ) : Exec Scale := do
  let freqShift ← findReciprocalShift 1000000000 freq
  return ⟨freqShift, 1000000000 <<< freqShift % dword / freq % word⟩

/-- The last line of `timer_get_ns`. -/
def ticksToNs (scale : Scale) (ticks : ℕ) : ℕ :=
  (ticks * scale.freqMult % dword) >>> scale.freqShift % word

variable {n f t m s : ℕ}

theorem scaled_le (hf : 0 < f) (hm : m = n * 2 ^ s / f) : t * m / 2 ^ s ≤ n * t / f := by
  have hpow := Nat.two_pow_pos s
  have hmul : m * f ≤ n * 2 ^ s := hm ▸ Nat.div_mul_le_self _ _
  rw [Nat.le_div_iff_mul_le hf]
  refine Nat.le_of_mul_le_mul_right ?_ hpow
  calc t * m / 2 ^ s * f * 2 ^ s = t * m / 2 ^ s * 2 ^ s * f := Nat.mul_right_comm _ _ _
    _ ≤ t * m * f := Nat.mul_le_mul_right f (Nat.div_mul_le_self _ _)
    _ = t * (m * f) := Nat.mul_assoc _ _ _
    _ ≤ t * (n * 2 ^ s) := Nat.mul_le_mul_left t hmul
    _ = n * t * 2 ^ s := by ring

theorem le_scaled (hf : 0 < f) (hm : m = n * 2 ^ s / f) :
    n * t / f ≤ t * m / 2 ^ s + t / 2 ^ s + 1 := by
  have hpow := Nat.two_pow_pos s
  have hmul : n * 2 ^ s ≤ (m + 1) * f := by
    rw [hm]
    exact (Nat.lt_mul_of_div_lt (Nat.lt_succ_self _) hf).le
  have hprod : t * m < (t * m / 2 ^ s + 1) * 2 ^ s := by
    rw [Nat.mul_comm _ (2 ^ s)]
    exact Nat.lt_mul_div_succ _ hpow
  have htick : t < (t / 2 ^ s + 1) * 2 ^ s := by
    rw [Nat.mul_comm _ (2 ^ s)]
    exact Nat.lt_mul_div_succ _ hpow
  rw [← Nat.lt_succ_iff, Nat.div_lt_iff_lt_mul hf]
  refine Nat.lt_of_mul_lt_mul_right (a := 2 ^ s) ?_
  calc n * t * 2 ^ s = t * (n * 2 ^ s) := by ring
    _ ≤ t * ((m + 1) * f) := Nat.mul_le_mul_left t hmul
    _ = (t * m + t) * f := by ring
    _ < ((t * m / 2 ^ s + 1) * 2 ^ s + (t / 2 ^ s + 1) * 2 ^ s) * f :=
      Nat.mul_lt_mul_of_pos_right (Nat.add_lt_add hprod htick) hf
    _ = (t * m / 2 ^ s + t / 2 ^ s + 1).succ * f * 2 ^ s := by
      rw [Nat.succ_eq_add_one]
      ring

/-- The scale of every frequency below 2^61 is exact, and the conversion of every count whose
time fits into 64 bits does not overflow, is too small by a bounded amount and is monotone. -/
theorem ticks_to_ns_accurate (hf : 1 ≤ f) (hlt : f < 2 ^ 61) :
    ∃ scale, setupScale f = .ok scale ∧
      findReciprocalShift 1000000000 f = .ok scale.freqShift ∧
      1000000000 * 2 ^ scale.freqShift < 2 ^ 128 ∧
      scale.freqMult = 1000000000 * 2 ^ scale.freqShift / f ∧ scale.freqMult < 2 ^ 64 ∧
      ∀ t < 2 ^ 64, 1000000000 * t / f < 2 ^ 64 →
        t * scale.freqMult < 2 ^ 128 ∧
        ticksToNs scale t = t * scale.freqMult / 2 ^ scale.freqShift ∧
        ticksToNs scale t ≤ 1000000000 * t / f ∧
        1000000000 * t / f - ticksToNs scale t ≤ t / 2 ^ scale.freqShift + 1 ∧
        ∀ t' ≤ t, ticksToNs scale t' ≤ ticksToNs scale t := by
  have hword := word_eq
  have hlim : f * (word - 1) < 1000000000 * 2 ^ 96 := by
    rw [hword]
    omega
  obtain ⟨s, hs, hs95, hle⟩ := findReciprocalShift_spec (by decide) (by decide)
    (show f < word by omega) (show 1000000000 ≤ f * (word - 1) by rw [hword]; omega) hlim
  have hfit : 1000000000 * 2 ^ s < dword := by
    calc 1000000000 * 2 ^ s ≤ f * (word - 1) := hle
      _ < 1000000000 * 2 ^ 96 := hlim
      _ < dword := by decide
  have hmult : 1000000000 * 2 ^ s / f < word := by
    rw [Nat.div_lt_iff_lt_mul (by omega)]
    calc 1000000000 * 2 ^ s ≤ f * (word - 1) := hle
      _ < f * word := Nat.mul_lt_mul_of_pos_left (by decide) (by omega)
      _ = word * f := Nat.mul_comm _ _
  obtain ⟨m, hm⟩ : ∃ m, m = 1000000000 * 2 ^ s / f := ⟨_, rfl⟩
  rw [← hm] at hmult
  have hscale : setupScale f = .ok ⟨s, m⟩ := by
    rw [setupScale, hs, ok_bind, Nat.shiftLeft_eq, Nat.mod_eq_of_lt hfit, ← hm,
      Nat.mod_eq_of_lt hmult]
    rfl
  have hvalue : ∀ t < word, 1000000000 * t / f < word → ticksToNs ⟨s, m⟩ t = t * m / 2 ^ s := by
    intro t ht hns
    have hprod : t * m < dword :=
      lt_of_lt_of_eq (Nat.mul_lt_mul'' ht hmult) (by rw [← Nat.pow_add])
    rw [ticksToNs, Nat.mod_eq_of_lt hprod, Nat.shiftRight_eq_div_pow]
    exact Nat.mod_eq_of_lt (lt_of_le_of_lt (scaled_le hf hm) hns)
  refine ⟨⟨s, m⟩, hscale, hs, hfit, hm, hmult, fun t ht hns => ?_⟩
  have hprod : t * m < dword :=
    lt_of_lt_of_eq (Nat.mul_lt_mul'' ht hmult) (by rw [← Nat.pow_add])
  have hupper := le_scaled (t := t) hf hm
  refine ⟨hprod, hvalue t ht hns, ?_, ?_, fun t' ht' => ?_⟩
  · rw [hvalue t ht hns]
    exact scaled_le hf hm
  · rw [hvalue t ht hns]
    rw [Nat.sub_le_iff_le_add, Nat.add_comm, ← Nat.add_assoc]
    exact hupper
  · have hns' : 1000000000 * t' / f < word :=
      lt_of_le_of_lt (Nat.div_le_div_right (Nat.mul_le_mul_left _ ht')) hns
    rw [hvalue t ht hns, hvalue t' (lt_of_le_of_lt ht' ht) hns']
    exact Nat.div_le_div_right (Nat.mul_le_mul_right m ht')

/-- A second of the ACPI timer. -/
theorem acpi_second : ∃ scale, setupScale acpiTimerFrequency = .ok scale ∧
    ticksToNs scale 3579545 ≤ 1000000000 ∧ 999999998 ≤ ticksToNs scale 3579545 := by
  obtain ⟨scale, hok, -, -, -, -, hticks⟩ :=
    ticks_to_ns_accurate (show 1 ≤ acpiTimerFrequency by decide)
      (show acpiTimerFrequency < 2 ^ 61 by decide)
  obtain ⟨-, -, hle, hge, -⟩ := hticks 3579545 (by decide) (by decide)
  have hshift : setupScale acpiTimerFrequency = .ok ⟨55, 10065189016750443981⟩ := by decide +kernel
  obtain rfl := Except.ok.inj (hok.symm.trans hshift)
  have hexact : 1000000000 * 3579545 / acpiTimerFrequency = 1000000000 := by decide
  dsimp only at hge
  exact ⟨_, hok, hle, by omega⟩

end Nanoseconds

section SpinWait

/-- `ticks_needed` of `timer_spin_wait_ms`; up to 599 ms the product fits into an `int`. -/
def ticksNeeded (ms : ℕ) : ℕ := (acpiTimerFrequency * ms + 999) / 1000

/-- The loop, at the reading `n` of the counter: the difference is taken in 32 bits. -/
def spinLoop (count : ℕ → ℕ) (start ticksNeeded : ℕ) : ℕ → ℕ → Exec ℕ
  | fuel, n =>
    if (acpiPmtGetTicks (count n) + 2 ^ 32 - start) % 2 ^ 32 < ticksNeeded then
      match fuel with
      | 0 => .error .fuel
      | fuel + 1 => spinLoop count start ticksNeeded fuel (n + 1)
    else .ok n

/-- `count n` is the number of ticks at the reading `n`; the result is the last reading. -/
def timerSpinWaitMs (fuel : ℕ) (count : ℕ → ℕ) (ms : ℕ) : Exec ℕ :=
  spinLoop count (acpiPmtGetTicks (count 0)) (ticksNeeded ms) fuel 1

variable {count : ℕ → ℕ} {fuel n ms c : ℕ}

theorem spinLoop_exit (h : spinLoop count start needed fuel n = .ok r) :
    needed ≤ (acpiPmtGetTicks (count r) + 2 ^ 32 - start) % 2 ^ 32 := by
  induction fuel generalizing n with
  | zero =>
    rw [spinLoop] at h
    split at h
    · cases h
    · next hge =>
      obtain rfl := Except.ok.inj h
      exact not_lt.1 hge
  | succ fuel ih =>
    rw [spinLoop] at h
    split at h
    · exact ih h
    · next hge =>
      obtain rfl := Except.ok.inj h
      exact not_lt.1 hge

/-- The wait is long enough, however the counter is read, exactly if the counter does not wrap
within the ticks to wait for. -/
theorem spin_wait_long_enough_iff (hms : ms ≤ 500) (c : ℕ) :
    (∀ count fuel n, Monotone count → count 0 = c → timerSpinWaitMs fuel count ms = .ok n →
      count n < c + 2 ^ 24 → 3579545 * ms ≤ 1000 * (count n - c)) ↔
    c % 2 ^ 24 + ticksNeeded ms ≤ 2 ^ 24 := by
  have hneeded : ticksNeeded ms ≤ 1789773 := by
    simp only [ticksNeeded, acpiTimerFrequency]
    omega
  have hceil : ∀ d, ticksNeeded ms ≤ d ↔ 3579545 * ms ≤ 1000 * d := by
    intro d
    simp only [ticksNeeded, acpiTimerFrequency]
    omega
  constructor
  · intro h
    by_contra hwrap
    -- a first reading just after the wrap ends the wait
    have hmono : Monotone fun n => if n = 0 then c else (c / 2 ^ 24 + 1) * 2 ^ 24 := by
      intro i j hij
      dsimp only
      split_ifs <;> omega
    have hexit : timerSpinWaitMs 0 (fun n => if n = 0 then c else (c / 2 ^ 24 + 1) * 2 ^ 24) ms =
        .ok 1 := by
      rw [timerSpinWaitMs, spinLoop, if_neg]
      simp only [acpiPmtGetTicks_eq, if_true, one_ne_zero, if_false]
      omega
    have hearly := (hceil _).2 (h _ 0 1 hmono rfl hexit
      (by simp only [one_ne_zero, if_false]; omega))
    simp only [one_ne_zero, if_false] at hearly
    omega
  · intro hfit count fuel n hmono h0 hok hlt
    rw [← hceil]
    have hexit := spinLoop_exit hok
    have hle : c ≤ count n := h0 ▸ hmono (Nat.zero_le n)
    rw [acpiPmtGetTicks_eq, acpiPmtGetTicks_eq, h0] at hexit
    generalize count n = x at *
    generalize ticksNeeded ms = needed at *
    omega

/-- Ten milliseconds from a counter at zero. -/
theorem spin_from_zero : ∃ n, timerSpinWaitMs 3 (fun n => n * 20000) 10 = .ok n ∧
    3579545 * 10 ≤ 1000 * (n * 20000 - 0) := by
  have hok : timerSpinWaitMs 3 (fun n => n * 20000) 10 = .ok 2 := by decide
  have hlong := (spin_wait_long_enough_iff (show 10 ≤ 500 by decide) 0).2 (by decide)
  refine ⟨2, hok, hlong (fun n => n * 20000) 3 2 ?_ rfl hok (by decide)⟩
  intro i j hij
  exact Nat.mul_le_mul_right 20000 hij

/-- From a counter at its last value ten milliseconds end after one tick. -/
theorem spin_ends_early : timerSpinWaitMs 0 (fun n => 2 ^ 24 - 1 + n) 10 = .ok 1 ∧
    ticksNeeded 10 = 35796 := by
  constructor
  · decide
  · decide

end SpinWait

end ArchTimer
