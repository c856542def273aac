import Mathlib.Data.Nat.Bitwise
import Mathlib.Data.Nat.Log
import Mathlib.Tactic.Ring

/-! # 64-bit words, alignment macros and faults

Addresses and sizes are naturals; an operation that may leave the 64-bit range
reduces explicitly. The macros of `utils/lib.h` and `libc/math.h` keep their bitwise
bodies, and each has one arithmetic characterisation for a power-of-two alignment. -/
namespace MachineWords

abbrev word : ℕ := 2 ^ 64

theorem word_eq : word = 18446744073709551616 := rfl

/-- The ways a kernel function can fail to return: an explicit panic, a failed
assertion, a null pointer followed, or a loop of the model that was given too few
iterations. -/
inductive Fault where
  | panic (message : String)
  | assertion (expr : String)
  | nullDeref (pointer : String)
  | fuel
  deriving DecidableEq, Repr

abbrev Exec (α : Type) := Except Fault α

def kassert (expr : String) (c : Bool) : Exec Unit :=
  if c then .ok () else .error (.assertion expr)

theorem bind_ok {α β : Type} {x : Exec α} {f : α → Exec β} {b : β}
    (h : (x >>= f) = .ok b) : ∃ a, x = .ok a ∧ f a = .ok b := by
  cases x with
  | error e => cases h
  | ok a => exact ⟨a, rfl, h⟩

@[simp] theorem ok_bind {α β : Type} (a : α) (f : α → Exec β) :
    ((.ok a : Exec α) >>= f) = f a := rfl

@[simp] theorem kassert_true (expr : String) : kassert expr true = .ok () := rfl

variable {expr : String} {c : Bool}

theorem kassert_eq_ok (h : kassert expr c = .ok u) : c = true := by
  cases c with
  | true => rfl
  | false => cases h

/-- `x` returns a value with property `P`, or stops with a fault that `E` allows. -/
def Ensures {α : Type} (E : Fault → Prop) (x : Exec α) (P : α → Prop) : Prop :=
  match x with
  | .ok r => P r
  | .error e => E e

variable {n : ℕ}

section Ensures

variable {α β : Type} {E : Fault → Prop} {x : Exec α} {P P' : α → Prop}

variable {Q : β → Prop}

section

variable (hx : Ensures E x P)
include hx

theorem Ensures.bind (hf : ∀ r, P r → Ensures E (f r) Q) : Ensures E (x >>= f) Q := by
  cases x with
  | error e => exact hx
  | ok r => exact hf r hx

theorem Ensures.imp (h : ∀ r, P r → P' r) : Ensures E x P' := by
  cases x with
  | error e => exact hx
  | ok r => exact h r hx

theorem Ensures.bind_ok (hf : ∀ r, x = .ok r → P r → Ensures E (f r) Q) :
    Ensures E (x >>= f) Q := by
  cases x with
  | error e => exact hx
  | ok r => exact hf r rfl hx

theorem Ensures.imp_ok (h : ∀ r, x = .ok r → P r → P' r) : Ensures E x P' := by
  cases x with
  | error e => exact hx
  | ok r => exact h r rfl hx

end

theorem kassert_ensures (h : E (.assertion expr)) :
    Ensures E (kassert expr c) fun _ => c = true := by
  cases c with
  | true => rfl
  | false => exact h

variable {r : α}

theorem Ensures.of_eq (hx : x = .ok r) (h : P r) : Ensures E x P := by
  rw [hx]
  exact h

theorem Ensures.ok_bind (hx : x = .ok r) (hf : Ensures E (f r) Q) : Ensures E (x >>= f) Q := by
  rw [hx]
  exact hf

theorem Ensures.of_error (hx : x = .error e) (h : E e) : Ensures E x P := by
  rw [hx]
  exact h

theorem Ensures.value (hx : Ensures E x P) (h : x = .ok r) : P r := by
  rw [h] at hx
  exact hx

theorem Ensures.returns (hx : Ensures E x P) (h : ∀ e, ¬ E e) : ∃ r, x = .ok r ∧ P r := by
  cases x with
  | error e => exact absurd hx (h e)
  | ok r => exact ⟨r, rfl, hx⟩

theorem returns_of_eval (h : x.toOption.any p = true) : ∃ r, x = .ok r ∧ p r = true := by
  cases x with
  | error e => cases h
  | ok r => exact ⟨r, rfl, h⟩

variable {s : α}

theorem Ensures.foldlM {f : α → β → Exec α} {l : List β} (h : P s)
    (hstep : ∀ s, ∀ b ∈ l, P s → Ensures E (f s b) P) : Ensures E (l.foldlM f s) P := by
  induction l generalizing s with
  | nil => exact h
  | cons b l ih =>
    rw [List.foldlM_cons]
    refine (hstep s b List.mem_cons_self h).bind fun s' hs' => ?_
    exact ih hs' fun s c hc => hstep s c (List.mem_cons_of_mem _ hc)

theorem Ensures.foldlM_range (P : ℕ → α → Prop) (h : P 0 s)
    (hstep : ∀ i < n, ∀ s, P i s → Ensures E (f s i) (P (i + 1))) :
    Ensures E ((List.range n).foldlM f s) (P n) := by
  induction n with
  | zero => exact h
  | succ n ih =>
    rw [List.range_succ, List.foldlM_append]
    refine (ih fun i hi => hstep i (Nat.lt_succ_of_lt hi)).bind fun s' hs' => ?_
    rw [List.foldlM_cons]
    exact (hstep n (Nat.lt_succ_self n) s' hs').bind fun s'' hs'' => hs''

/-- The predicate is about the part of the list that has been folded. -/
theorem Ensures.foldlM_list (P : List β → α → Prop) (h : P done s)
    (hstep : ∀ pre b rest, done ++ l = pre ++ b :: rest → ∀ s, P pre s →
      Ensures E (f s b) (P (pre ++ [b]))) : Ensures E (l.foldlM f s) (P (done ++ l)) := by
  induction l generalizing done s with
  | nil =>
    rw [List.append_nil]
    exact h
  | cons b l ih =>
    rw [List.foldlM_cons]
    refine (hstep done b l rfl s h).bind fun s' hs' => ?_
    rw [List.append_cons] at hstep ⊢
    exact ih hs' hstep

theorem Ensures.fault {E' : Fault → Prop} (hx : Ensures E x P) (h : ∀ e, E e → E' e) :
    Ensures E' x P := by
  cases x with
  | error e => exact h e hx
  | ok r => exact hx

end Ensures

def wadd (a b : ℕ) : ℕ := (a + b) % word
def wsub (a b : ℕ) : ℕ := (a + word - b) % word

def toHhdm (hhdm paddr : ℕ) : ℕ := wadd paddr hhdm

theorem wadd_lt (a b : ℕ) : wadd a b < word := Nat.mod_lt _ (by norm_num)

variable {a b : ℕ}

theorem wadd_of_lt (h : a + b < word) : wadd a b = a + b := Nat.mod_eq_of_lt h

theorem wsub_of_le (hb : b ≤ a) (ha : a < word) : wsub a b = a - b := by
  unfold wsub
  rw [show a + word - b = a - b + word by omega, Nat.add_mod_right]
  exact Nat.mod_eq_of_lt (by omega)

variable {x : ℕ}

theorem wadd_wsub_one (h0 : 0 < x + y) (h : x + y ≤ word) : wsub (wadd x y) 1 = x + y - 1 := by
  rcases Nat.lt_or_eq_of_le h with hlt | heq
  · rw [wadd_of_lt hlt, wsub_of_le h0 hlt]
  · rw [wadd, heq, Nat.mod_self]
    rfl

def alignMask (align : ℕ) : ℕ := word - 1 - (align - 1)
def alignUp (x align : ℕ) : ℕ := wadd x (align - 1) &&& alignMask align
def alignDown (x align : ℕ) : ℕ := x &&& alignMask align
def misalignment (x align : ℕ) : ℕ := x &&& (align - 1)
def isAligned (x align : ℕ) : Bool := misalignment x align == 0

theorem misalignment_two_pow (x n : ℕ) : misalignment x (2 ^ n) = x % 2 ^ n := by
  simp [misalignment]

theorem isAligned_two_pow (x n : ℕ) : isAligned x (2 ^ n) = true ↔ 2 ^ n ∣ x := by
  simp [isAligned, misalignment_two_pow, Nat.dvd_iff_mod_eq_zero]

theorem testBit_alignMask (hn : n ≤ 64) :
    (alignMask (2 ^ n)).testBit i = (decide (n ≤ i) && decide (i < 64)) := by
  have hpos : 0 < 2 ^ n := Nat.two_pow_pos n
  have he : alignMask (2 ^ n) = (2 ^ (64 - n) - 1) * 2 ^ n := by
    have hm : 2 ^ (64 - n) * 2 ^ n = word := by rw [← Nat.pow_add, Nat.sub_add_cancel hn]
    rw [Nat.sub_one_mul, hm]
    unfold alignMask
    omega
  rw [he, Nat.testBit_mul_two_pow]
  by_cases hi : n ≤ i <;> simp [hi]
  omega

theorem and_alignMask (hx : x < word) (hn : n ≤ 64) :
    x &&& alignMask (2 ^ n) = x / 2 ^ n * 2 ^ n := by
  apply Nat.eq_of_testBit_eq
  intro i
  rw [Nat.testBit_and, testBit_alignMask hn, Nat.testBit_mul_two_pow]
  by_cases hi : n ≤ i
  · by_cases h64 : i < 64
    · simp [hi, h64, Nat.testBit_div_two_pow]
    · have hz : x.testBit i = false :=
        Nat.testBit_lt_two_pow (lt_of_lt_of_le hx (Nat.pow_le_pow_right (by norm_num) (by omega)))
      simp [hi, h64, hz, Nat.testBit_div_two_pow]
  · simp [hi]

theorem alignDown_two_pow (hx : x < word) (hn : n ≤ 64) :
    alignDown x (2 ^ n) = x / 2 ^ n * 2 ^ n := and_alignMask hx hn

section

variable (hn : n ≤ 64)
include hn

theorem alignUp_two_pow : alignUp x (2 ^ n) = wadd x (2 ^ n - 1) / 2 ^ n * 2 ^ n :=
  and_alignMask (wadd_lt _ _) hn

theorem dvd_alignUp : 2 ^ n ∣ alignUp x (2 ^ n) := by
  rw [alignUp_two_pow hn]
  exact Nat.dvd_mul_left _ _

theorem alignUp_lt : alignUp x (2 ^ n) < word := by
  rw [alignUp_two_pow hn]
  exact lt_of_le_of_lt (Nat.div_mul_le_self _ _) (wadd_lt _ _)

theorem alignUp_of_dvd (hx : x < word) (hd : 2 ^ n ∣ x) : alignUp x (2 ^ n) = x := by
  obtain ⟨q, rfl⟩ := hd
  have hpos : 0 < 2 ^ n := Nat.two_pow_pos n
  have hfit : 2 ^ n * q + (2 ^ n - 1) < word := by
    have hw : 2 ^ (64 - n) * 2 ^ n = word := by rw [← Nat.pow_add, Nat.sub_add_cancel hn]
    have hq : q < 2 ^ (64 - n) := by
      by_contra hge
      have := Nat.mul_le_mul_left (2 ^ n) (not_lt.mp hge)
      rw [Nat.mul_comm (2 ^ n) (2 ^ (64 - n)), hw] at this
      omega
    have := Nat.mul_le_mul_left (2 ^ n) (Nat.succ_le_of_lt hq)
    rw [Nat.mul_comm (2 ^ n) (2 ^ (64 - n)), hw, Nat.mul_succ] at this
    omega
  rw [alignUp_two_pow hn, wadd_of_lt hfit, Nat.mul_add_div hpos,
    Nat.div_eq_of_lt (by omega), Nat.add_zero, Nat.mul_comm]

theorem alignUp_bounds (hx : x + 2 ^ n ≤ word) :
    x ≤ alignUp x (2 ^ n) ∧ alignUp x (2 ^ n) < x + 2 ^ n := by
  have hpos : 0 < 2 ^ n := Nat.two_pow_pos n
  rw [alignUp_two_pow hn, wadd_of_lt (by omega)]
  have hd := Nat.div_add_mod (x + (2 ^ n - 1)) (2 ^ n)
  rw [Nat.mul_comm] at hd
  omega

end

variable {m : ℕ}

theorem alignUp_le (hn : n ≤ 64) (hx : x ≤ m) (hd : 2 ^ n ∣ m) (hm : m + 2 ^ n ≤ word) :
    alignUp x (2 ^ n) ≤ m := by
  obtain ⟨q, rfl⟩ := hd
  have hlt := (alignUp_bounds hn (x := x) (by omega)).2
  obtain ⟨r, hr⟩ := dvd_alignUp hn (x := x)
  rw [hr] at hlt ⊢
  have hrq : r < q + 1 := by
    refine Nat.lt_of_mul_lt_mul_left (a := 2 ^ n) ?_
    rw [Nat.mul_succ]
    omega
  exact Nat.mul_le_mul_left _ (Nat.lt_succ_iff.mp hrq)

/-- `__builtin_ctzll`, with the value 64 that `COUNT_TRAILING_ZEROS` gives to zero. -/
def ctzFrom : ℕ → ℕ → ℕ
  | 0, _ => 0
  | fuel + 1, v => if v % 2 = 1 then 0 else ctzFrom fuel (v / 2) + 1

def countTrailingZeros (v : ℕ) : ℕ := ctzFrom 64 v

theorem two_pow_ctzFrom_dvd (fuel v : ℕ) : 2 ^ ctzFrom fuel v ∣ v := by
  induction fuel generalizing v with
  | zero => simp [ctzFrom]
  | succ fuel ih =>
    unfold ctzFrom
    split
    · simp
    · have hv : v = v / 2 * 2 := by omega
      rw [Nat.pow_succ, hv]
      simpa using Nat.mul_dvd_mul_right (ih (v / 2)) 2

variable {v : ℕ}

theorem le_ctzFrom (hd : 2 ^ n ∣ v) (hn : n ≤ fuel) : n ≤ ctzFrom fuel v := by
  induction fuel generalizing v n with
  | zero => omega
  | succ fuel ih =>
    cases n with
    | zero => omega
    | succ n =>
      have h2 : 2 ∣ v := dvd_trans (Dvd.intro_left (2 ^ n) rfl) hd
      have hv : v % 2 ≠ 1 := by omega
      rw [ctzFrom, if_neg hv]
      have hdiv : 2 ^ n ∣ v / 2 := by
        obtain ⟨c, rfl⟩ := hd
        exact ⟨c, by rw [Nat.pow_succ, Nat.mul_assoc, Nat.mul_left_comm]; simp⟩
      have := ih hdiv (by omega)
      omega

theorem two_pow_ctz_dvd (v : ℕ) : 2 ^ countTrailingZeros v ∣ v := two_pow_ctzFrom_dvd 64 v

theorem le_ctz (hd : 2 ^ n ∣ v) (hn : n ≤ 64) : n ≤ countTrailingZeros v :=
  le_ctzFrom hd hn

def log2ull (val : ℕ) : ℕ := Nat.log2 val
def log2ullceil (val : ℕ) : ℕ := if val ≤ 1 then 0 else log2ull (val - 1) + 1

theorem two_pow_log2ull_le (h : val ≠ 0) : 2 ^ log2ull val ≤ val :=
  (Nat.le_log2 h).mp le_rfl

theorem log2ull_mono (h : m ≤ n) : log2ull m ≤ log2ull n := by
  by_cases h0 : m = 0
  · rw [h0]
    exact Nat.zero_le _
  · exact (Nat.le_log2 (by omega)).mpr ((two_pow_log2ull_le h0).trans h)

theorem log2ullceil_le (n : ℕ) : log2ullceil n ≤ log2ull n + 1 := by
  unfold log2ullceil
  split
  · omega
  · have := log2ull_mono (show n - 1 ≤ n by omega)
    omega

theorem ctz_le_of_testBit (h : v.testBit j = true) : countTrailingZeros v ≤ j := by
  by_contra hlt
  obtain ⟨c, hc⟩ := two_pow_ctz_dvd v
  rw [hc, Nat.testBit_two_pow_mul] at h
  simp only [Bool.and_eq_true, decide_eq_true_eq] at h
  omega

end MachineWords
