import Mathlib.Algebra.Order.Ring.Nat
import Mathlib.Data.Nat.Basic
import Mathlib.Tactic.Ring

/-! # Radix trees of tables

A tree of tables with `N` entries each, stored in a memory that maps a table and an
entry number to a word. `child d w` is the table that a word found at depth `d` points
to, if it points to one. A table at depth `d` is named by its position among the tables
that could exist at that depth, an entry by its position among the entries. -/
namespace RadixTables

variable {W : Type*} {N : ℕ} {child : ℕ → W → Option ℕ} {read read' : ℕ → ℕ → W} {root : ℕ}

def tableAt (N : ℕ) (child : ℕ → W → Option ℕ) (read : ℕ → ℕ → W) (root : ℕ) : ℕ → ℕ → Option ℕ
  | 0, q => if q = 0 then some root else none
  | d + 1, q => (tableAt N child read root d (q / N)).bind fun f => child d (read f (q % N))

def entryAt (N : ℕ) (child : ℕ → W → Option ℕ) (read : ℕ → ℕ → W) (root d g : ℕ) : Option W :=
  (tableAt N child read root d (g / N)).map fun f => read f (g % N)

variable {f q : ℕ}

theorem tableAt_zero (h : tableAt N child read root 0 q = some f) : q = 0 ∧ f = root := by
  unfold tableAt at h
  split at h
  · exact ⟨‹_›, (Option.some.inj h).symm⟩
  · cases h

theorem tableAt_succ (d g : ℕ) :
    tableAt N child read root (d + 1) g = (entryAt N child read root d g).bind (child d) := by
  rw [tableAt, entryAt]
  cases tableAt N child read root d (g / N) <;> rfl

variable {d g : ℕ}

theorem entryAt_of_table (h : tableAt N child read root d (g / N) = some f) :
    entryAt N child read root d g = some (read f (g % N)) := by
  rw [entryAt, h]
  rfl

theorem entryAt_some (h : entryAt N child read root d g = some w) :
    ∃ f, tableAt N child read root d (g / N) = some f ∧ read f (g % N) = w := by
  simpa [entryAt] using h

theorem tableAt_above (h : tableAt N child read root (d + k) q = some f) :
    ∃ c, tableAt N child read root d (q / N ^ k) = some c := by
  induction k generalizing q f with
  | zero => exact ⟨f, by simpa using h⟩
  | succ k ih =>
    rw [← Nat.add_assoc, tableAt_succ, entryAt] at h
    cases ht : tableAt N child read root (d + k) (q / N) with
    | none => simp [ht] at h
    | some e =>
      obtain ⟨c, hc⟩ := ih ht
      exact ⟨c, by rwa [Nat.pow_succ', ← Nat.div_div_eq_div_mul]⟩

theorem tableAt_congr (hN : 0 < N)
    (h : ∀ d q f i, tableAt N child read root d q = some f → i < N →
      child d (read' f i) = child d (read f i)) (d q : ℕ) :
    tableAt N child read' root d q = tableAt N child read root d q := by
  induction d generalizing q with
  | zero => rfl
  | succ d ih =>
    rw [tableAt, tableAt, ih]
    cases ht : tableAt N child read root d (q / N) with
    | none => rfl
    | some f => exact h d _ f _ ht (Nat.mod_lt _ hN)

def Below (N d g d' q' : ℕ) : Prop := ∃ k, d' = d + 1 + k ∧ q' / N ^ k = g

variable {d' q' : ℕ}

theorem below_succ (h : Below N d g d' (q' / N)) : Below N d g (d' + 1) q' := by
  obtain ⟨k, rfl, hg⟩ := h
  exact ⟨k + 1, by omega, by rwa [Nat.pow_succ', ← Nat.div_div_eq_div_mul]⟩

theorem below_self (N d g : ℕ) : Below N d g (d + 1) g := ⟨0, rfl, by simp⟩

/-- Two memories that agree on the entries of all tables, save for one entry. -/
def AgreeOff (N : ℕ) (child : ℕ → W → Option ℕ) (read read' : ℕ → ℕ → W) (root d g : ℕ) : Prop :=
  ∀ d' q' f i, tableAt N child read root d' q' = some f → i < N →
    ¬ (d' = d ∧ q' * N + i = g) → read' f i = read f i

theorem AgreeOff.word (hN : 0 < N) (h : AgreeOff N child read read' root d g)
    (ht : tableAt N child read root d' (g' / N) = some f) (hne : ¬ (d' = d ∧ g' = g)) :
    read' f (g' % N) = read f (g' % N) := by
  refine h d' _ f _ ht (Nat.mod_lt _ hN) fun he => hne ⟨he.1, ?_⟩
  rw [← he.2, Nat.mul_comm, Nat.div_add_mod]

theorem AgreeOff.tableAt_eq (hN : 0 < N) (h : AgreeOff N child read read' root d g)
    (hb : ¬ Below N d g d' q') :
    tableAt N child read' root d' q' = tableAt N child read root d' q' := by
  induction d' generalizing q' with
  | zero => rfl
  | succ d' ih =>
    rw [tableAt, tableAt, ih fun hb' => hb (below_succ hb')]
    cases ht : tableAt N child read root d' (q' / N) with
    | none => rfl
    | some f =>
      have hw := h.word hN ht fun he => hb (by rw [he.1, he.2]; exact below_self N d g)
      simp only [Option.bind_some, hw]

theorem below_none (h : tableAt N child read root (d + 1) g = none) (hb : Below N d g d' q') :
    tableAt N child read root d' q' = none := by
  obtain ⟨k, rfl, rfl⟩ := hb
  cases ht : tableAt N child read root (d + 1 + k) q' with
  | none => rfl
  | some f =>
    obtain ⟨c, hc⟩ := tableAt_above ht
    rw [h] at hc
    cases hc

variable {c : ℕ}

theorem below_childless (hN : 0 < N) (h : tableAt N child read root (d + 1) g = some c)
    (hc : ∀ i < N, child (d + 1) (read c i) = none) (hb : Below N d g d' q') :
    tableAt N child read root d' q' = if d' = d + 1 ∧ q' = g then some c else none := by
  obtain ⟨k, rfl, rfl⟩ := hb
  cases k with
  | zero => simpa using h
  | succ k =>
    rw [if_neg (by omega)]
    refine below_none (d := d + 1) (g := q' / N ^ k) ?_ ⟨k, by omega, rfl⟩
    have ht : tableAt N child read root (d + 1) (q' / N ^ k / N) = some c := by
      rwa [Nat.div_div_eq_div_mul, ← Nat.pow_succ]
    rw [tableAt_succ, entryAt_of_table ht, Option.bind_some]
    exact hc _ (Nat.mod_lt _ hN)

section

variable (hN : 0 < N) (h : AgreeOff N child read read' root d g)

include hN h

theorem AgreeOff.parent :
    tableAt N child read' root d (g / N) = tableAt N child read root d (g / N) := by
  refine h.tableAt_eq hN ?_
  rintro ⟨k, hk, _⟩
  omega

theorem AgreeOff.cut
    (hf : tableAt N child read root d (g / N) = some f) (hnew : child d (read' f (g % N)) = none)
    (hb : Below N d g d' q') : tableAt N child read' root d' q' = none := by
  refine below_none ?_ hb
  rw [tableAt_succ, entryAt_of_table ((h.parent hN).trans hf), Option.bind_some, hnew]

theorem tableAt_link
    (hf : tableAt N child read root d (g / N) = some f) (hold : child d (read f (g % N)) = none)
    (hnew : child d (read' f (g % N)) = some c) (hc : ∀ i < N, child (d + 1) (read' c i) = none)
    (d' q' : ℕ) :
    tableAt N child read' root d' q' =
      if d' = d + 1 ∧ q' = g then some c else tableAt N child read root d' q' := by
  have hf' := (h.parent hN).trans hf
  by_cases hb : Below N d g d' q'
  · have ho : tableAt N child read root (d + 1) g = none := by
      rw [tableAt_succ, entryAt_of_table hf, Option.bind_some, hold]
    have hn : tableAt N child read' root (d + 1) g = some c := by
      rw [tableAt_succ, entryAt_of_table hf', Option.bind_some, hnew]
    rw [below_childless hN hn hc hb, below_none ho hb]
  · have hne : ¬ (d' = d + 1 ∧ q' = g) := fun he => hb (he.1 ▸ he.2 ▸ below_self N d g)
    rw [h.tableAt_eq hN hb, if_neg hne]

end

end RadixTables
