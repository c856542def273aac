import Mathlib.Algebra.Group.Nat.Defs
import Mathlib.Logic.Function.Basic
import Mathlib.Logic.Relation
import Mathlib.Tactic.Common

/-! # Scanning a byte string

A scanner reads a byte string at offsets it computes. It returns a value or rejects the
input; anything else it could do (read outside the string, divide by zero, index an array
past its end, never come back) stops it in a way that `Sound` excludes. Loops are given by
one round and a number of rounds, and `loop_sound` is their only termination argument. -/
namespace ByteScanner

structure Bytes where
  size : ℕ
  byte : ℕ → UInt8

def Bytes.ofList (l : List UInt8) : Bytes := ⟨l.length, fun i => l.getD i 0⟩

inductive Stop where
  | reject
  | outside (offset : ℕ)
  | divideByZero
  | index (i : ℕ)
  | fuel
  deriving DecidableEq, Repr

abbrev Scan (α : Type) := Except Stop α

/-- `x` returns a value with property `P`, or stops in a way that `E` allows. -/
def Scans {α : Type} (E : Stop → Prop) (x : Scan α) (P : α → Prop) : Prop :=
  match x with
  | .ok a => P a
  | .error e => E e

/-- `x` returns a value with property `P`, or rejects its input. -/
abbrev Sound {α : Type} (x : Scan α) (P : α → Prop) : Prop := Scans (· = .reject) x P

abbrev Returns {α : Type} (x : Scan α) (P : α → Prop) : Prop := Scans (fun _ => False) x P

section Rules

variable {α β : Type} {E : Stop → Prop} {x : Scan α} {P P' : α → Prop}

@[simp] theorem value_bind (a : α) (f : α → Scan β) : ((.ok a : Scan α) >>= f) = f a := rfl

variable {f : α → Scan β} {Q : β → Prop}

theorem Scans.bind (hx : Scans E x P) (hf : ∀ a, P a → Scans E (f a) Q) : Scans E (x >>= f) Q := by
  cases x with
  | error e => exact hx
  | ok a => exact hf a hx

theorem Scans.imp (hx : Scans E x P) (h : ∀ a, P a → P' a) : Scans E x P' := by
  cases x with
  | error e => exact hx
  | ok a => exact h a hx

theorem Scans.mono {E' : Stop → Prop} (hx : Scans E x P) (h : ∀ e, E e → E' e) : Scans E' x P := by
  cases x with
  | error e => exact h e hx
  | ok a => exact hx

theorem Scans.of_eq {a : α} (hx : x = .ok a) (h : P a) : Scans E x P := by
  rw [hx]
  exact h

theorem Scans.value {a : α} (hx : Scans E x P) (h : x = .ok a) : P a := by
  rw [h] at hx
  exact hx

theorem Scans.any (x : Scan α) : Scans (fun _ => True) x fun _ => True := by
  cases x with
  | error e => trivial
  | ok a => trivial

theorem Sound.reject : Sound (.error .reject : Scan α) P := rfl

theorem Returns.eq_ok (hx : Returns x P) : ∃ a, x = .ok a ∧ P a := by
  cases x with
  | error e => exact hx.elim
  | ok a => exact ⟨a, rfl, hx⟩

theorem Returns.scans (hx : Returns x P) : Scans E x P := by
  obtain ⟨a, rfl, ha⟩ := hx.eq_ok
  exact ha

theorem Returns.bind (hx : Returns x P) (hf : ∀ a, P a → Scans E (f a) Q) :
    Scans E (x >>= f) Q := by
  exact hx.scans.bind hf

end Rules

/-- The check `if (!c) return false`. -/
def require (c : Prop) [Decidable c] : Scan Unit := if c then .ok () else .error .reject

theorem require_sound (c : Prop) [Decidable c] : Sound (require c) fun _ => c := by
  unfold require
  split
  · assumption
  · rfl

@[simp] theorem require_of {c : Prop} [Decidable c] (h : c) : require c = .ok () := if_pos h

def divide (a b : ℕ) : Scan ℕ := if b = 0 then .error .divideByZero else .ok (a / b)
def modulo (a b : ℕ) : Scan ℕ := if b = 0 then .error .divideByZero else .ok (a % b)

variable {b : ℕ}

@[simp] theorem divide_of_ne {a : ℕ} (h : b ≠ 0) : divide a b = .ok (a / b) := if_neg h
@[simp] theorem modulo_of_ne {a : ℕ} (h : b ≠ 0) : modulo a b = .ok (a % b) := if_neg h

theorem divide_returns {a : ℕ} (h : b ≠ 0) : Returns (divide a b) (· = a / b) :=
  Scans.of_eq (divide_of_ne h) rfl

theorem modulo_returns {a : ℕ} (h : b ≠ 0) : Returns (modulo a b) (· = a % b) :=
  Scans.of_eq (modulo_of_ne h) rfl

/-- A rejection inside `x` is an answer of the caller's. -/
def attempt {α : Type} : Scan α → Scan (Option α)
  | .ok a => .ok (some a)
  | .error .reject => .ok none
  | .error e => .error e

theorem attempt_returns {α : Type} {x : Scan α} {P : α → Prop} (hx : Sound x P) :
    Returns (attempt x) fun o => ∀ a ∈ o, P a := by
  cases x with
  | ok a =>
    intro b hb
    cases hb
    exact hx
  | error e =>
    cases hx
    intro b hb
    cases hb

section Reads

variable (s : Bytes)

def read (i : ℕ) : Scan ℕ :=
  if i < s.size then .ok (s.byte i).toNat else .error (.outside i)

def leValue (p : ℕ) : ℕ → ℕ
  | 0 => 0
  | n + 1 => leValue p n + (s.byte (p + n)).toNat * 256 ^ n

/-- Copying `n` bytes at `p` into a number that was zero. -/
def readLe (p : ℕ) : ℕ → Scan ℕ
  | 0 => .ok 0
  | n + 1 => do
    let low ← readLe p n
    let byte ← read s (p + n)
    return low + byte * 256 ^ n

/-- The number of bytes before the first zero among the `n` at `p`. -/
def strnlen : ℕ → ℕ → Scan ℕ
  | _, 0 => .ok 0
  | p, n + 1 => do
    let byte ← read s p
    if byte = 0 then return 0
    return (← strnlen (p + 1) n) + 1

variable {s} {p n i : ℕ}

@[simp] theorem read_of_lt (h : i < s.size) : read s i = .ok (s.byte i).toNat := if_pos h

theorem readLe_of_le (h : p + n ≤ s.size) : readLe s p n = .ok (leValue s p n) := by
  induction n with
  | zero => rfl
  | succ n ih =>
    rw [readLe, ih (by omega), value_bind, read_of_lt (by omega)]
    rfl

theorem leValue_lt : leValue s p n < 256 ^ n := by
  induction n with
  | zero => exact Nat.one_pos
  | succ n ih =>
    have hb := (s.byte (p + n)).toNat_lt
    have hm := Nat.mul_le_mul_right (256 ^ n) (show (s.byte (p + n)).toNat ≤ 255 by omega)
    rw [leValue, Nat.pow_succ]
    omega

/-- The string of length `len` at `p` ends with a zero byte before `stop`. -/
def CString (s : Bytes) (p len stop : ℕ) : Prop :=
  p + len < stop ∧ (∀ i < len, s.byte (p + i) ≠ 0) ∧ s.byte (p + len) = 0

theorem toNat_eq_zero {b : UInt8} : b.toNat = 0 ↔ b = 0 := by
  constructor
  · intro h
    exact UInt8.toNat_inj.mp h
  · rintro rfl
    rfl

theorem strnlen_returns (h : p + n ≤ s.size) :
    Returns (strnlen s p n) fun len =>
      len ≤ n ∧ (len < n → CString s p len (p + n)) := by
  induction n generalizing p with
  | zero => exact ⟨Nat.le_refl 0, fun h => absurd h (by omega)⟩
  | succ n ih =>
    rw [strnlen, read_of_lt (by omega), value_bind]
    split
    · rename_i hz
      exact ⟨by omega, fun _ => ⟨by omega, fun i hi => absurd hi (by omega), toNat_eq_zero.mp hz⟩⟩
    · rename_i hz
      refine (ih (p := p + 1) (by omega)).bind fun len hlen => ⟨by omega, fun hlt => ?_⟩
      obtain ⟨hend, hnz, hzero⟩ := hlen.2 (by omega)
      refine ⟨by omega, fun i hi => ?_, by rw [← hzero]; congr 1; omega⟩
      cases i with
      | zero => exact fun h0 => hz (toNat_eq_zero.mpr h0)
      | succ i =>
        have := hnz i (by omega)
        rwa [show p + 1 + i = p + (i + 1) by omega] at this

end Reads

section Arrays

variable {α : Type} (bound : ℕ) (a : ℕ → α) (i : ℕ)

def fetch : Scan α := if i < bound then .ok (a i) else .error (.index i)

def store (v : α) : Scan (ℕ → α) :=
  if i < bound then .ok (Function.update a i v) else .error (.index i)

variable {bound a i}

@[simp] theorem fetch_of_lt (h : i < bound) : fetch bound a i = .ok (a i) := if_pos h

@[simp] theorem store_of_lt (h : i < bound) (v : α) :
    store bound a i v = .ok (Function.update a i v) := if_pos h

end Arrays

section Loops

variable {σ α : Type} (round : σ → Scan (σ ⊕ α))

/-- At most `n` rounds from `st`. A round goes on in a new state or comes to an answer. -/
def loop : ℕ → σ → Scan α
  | 0, _ => .error .fuel
  | n + 1, st => do
    match ← round st with
    | .inl st' => loop n st'
    | .inr a => return a

def Passes (st st' : σ) : Prop := round st = .ok (.inl st')

/-- What a round from a state with invariant `I` may come to. -/
def Keeps (I : σ → Prop) (P : α → Prop) : σ ⊕ α → Prop
  | .inl st => I st
  | .inr a => P a

/-- The same for a loop that ends because of the measure `m`. -/
def Progress (I : σ → Prop) (m : σ → ℕ) (P : α → Prop) (st : σ) : σ ⊕ α → Prop :=
  Keeps (fun st' => I st' ∧ m st' < m st) P

variable {round} {E : Stop → Prop} {I : σ → Prop} {m : σ → ℕ} {P : α → Prop}

variable {st : σ}

/-- Partial correctness: nothing is said of the number of rounds. -/
theorem loop_keeps (step : ∀ st, I st → Scans E (round st) (Keeps I P)) (hE : E .fuel) (h : I st)
    (n : ℕ) : Scans E (loop round n st) P := by
  induction n generalizing st with
  | zero => exact hE
  | succ n ih =>
    rw [loop]
    refine (step st h).bind fun r hr => ?_
    cases r with
    | inr a => exact hr
    | inl st' => exact ih hr

variable {n : ℕ}

/-- Total correctness: rounds that decrease `m` come to an end. -/
theorem loop_ends (step : ∀ st, I st → Scans E (round st) (Progress I m P st)) (h : I st)
    (hn : m st < n) : Scans E (loop round n st) P := by
  induction n generalizing st with
  | zero => omega
  | succ n ih =>
    rw [loop]
    refine (step st h).bind fun r hr => ?_
    cases r with
    | inr a => exact hr
    | inl st' => exact ih hr.1 (by have := hr.2; omega)

variable {st' : σ}

theorem loop_succ_of_passes (h : Passes round st st') :
    loop round (n + 1) st = loop round n st' := by
  rw [loop, show round st = _ from h]
  rfl

theorem loop_succ_of_done {a : α} (h : round st = .ok (.inr a)) :
    loop round (n + 1) st = .ok a := by
  rw [loop, h]
  rfl

theorem loop_succ_of_error (h : round st = .error e) : loop round (n + 1) st = .error e := by
  rw [loop, h]
  rfl

/-- A loop that comes to an end does so from every state it goes through. -/
theorem loop_passes (h : Relation.ReflTransGen (Passes round) st st')
    (hn : loop round n st ≠ .error .fuel) : ∃ k, loop round n st = loop round (k + 1) st' := by
  induction h with
  | refl =>
    cases n with
    | zero => exact absurd rfl hn
    | succ n => exact ⟨n, rfl⟩
  | tail _ hpass ih =>
    obtain ⟨k, hk⟩ := ih
    rw [hk, loop_succ_of_passes hpass]
    cases k with
    | zero =>
      rw [hk, loop_succ_of_passes hpass] at hn
      exact absurd rfl hn
    | succ k => exact ⟨k, rfl⟩

/-- A round that goes on in its own state goes on for ever. -/
theorem loop_stuck (h : Passes round st st) (n : ℕ) : loop round n st = .error .fuel := by
  induction n with
  | zero => rfl
  | succ n ih => rw [loop_succ_of_passes h, ih]

end Loops

end ByteScanner
