import Mathlib.Data.Set.Card
import Mathlib.Logic.Function.Basic

/-! # The ticket lock (`utils/locks/ticketlock.h`)

Any number of CPUs, interleaved at the atomic operations on `next` and `owner`, which wrap
at 2^32. A CPU makes its calls one after the other; a handler that interrupts one of them
and takes the lock counts as a CPU of its own. -/
namespace LocksTicketlock

open Function

/-- Program points of a CPU; `my` is the ticket it has drawn. -/
inductive Pc where
  | outside
  | disabled
  | spinning (my : ℕ)
  | holding
  | released
  deriving DecidableEq, Repr

/-- The last two fields are ghosts: the CPUs in the order of their `fetch_add`s on `next`,
and in the order in which `ticketlock_lock` let them go on. -/
structure State (Cpu : Type) where
  next : ℕ
  owner : ℕ
  pc : Cpu → Pc
  preemptDisableCounter : Cpu → ℕ
  taken : List Cpu
  granted : List Cpu

variable {Cpu : Type}

def ticketlockInit (counter : Cpu → ℕ) : State Cpu := ⟨0, 0, fun _ => .outside, counter, [], []⟩

def ticketed : Pc → Bool
  | .spinning _ | .holding => true
  | _ => false

/-- Fewer than 2^32 CPUs hold the lock or wait for it. -/
def Bounded (s : State Cpu) : Prop := {c | ticketed (s.pc c) = true}.encard < 2 ^ 32

section Steps

variable [DecidableEq Cpu]

/-- One atomic step of CPU `c`. The load of `owner` that finds another ticket leaves the
CPU in the loop. -/
def step (s : State Cpu) (c : Cpu) : State Cpu :=
  match s.pc c with
  | .outside =>
    { s with
      pc := update s.pc c .disabled
      preemptDisableCounter := update s.preemptDisableCounter c
        ((s.preemptDisableCounter c + 1) % 2 ^ 32) }
  | .disabled =>
    { s with
      pc := update s.pc c (.spinning s.next)
      next := (s.next + 1) % 2 ^ 32
      taken := s.taken ++ [c] }
  | .spinning my =>
    if s.owner = my then { s with pc := update s.pc c .holding, granted := s.granted ++ [c] } else s
  | .holding => { s with pc := update s.pc c .released, owner := (s.owner + 1) % 2 ^ 32 }
  | .released =>
    { s with
      pc := update s.pc c .outside
      preemptDisableCounter := update s.preemptDisableCounter c
        ((s.preemptDisableCounter c + 2 ^ 32 - 1) % 2 ^ 32) }

inductive Reachable : State Cpu → Prop where
  | start (counter : Cpu → ℕ) : Reachable (ticketlockInit counter)
  | step {s : State Cpu} (c : Cpu) :
    Reachable s → Bounded (step s c) → Reachable (step s c)

end Steps

/-- After `done` unlocks `held` has the lock and `waiting` are in the loop, in the order
of their tickets. -/
structure Inv (s : State Cpu) (done : ℕ) (held : Option Cpu) (waiting : List Cpu) : Prop where
  owner : s.owner = done % 2 ^ 32
  next : s.next = s.taken.length % 2 ^ 32
  order : s.taken = s.granted ++ waiting
  count : s.granted.length = done + held.toList.length
  nodup : waiting.Nodup
  holding : ∀ c, s.pc c = .holding ↔ held = some c
  spinning : ∀ c my, s.pc c = .spinning my ↔
    ∃ i, waiting[i]? = some c ∧ my = (s.granted.length + i) % 2 ^ 32

namespace Inv

variable {s : State Cpu} {done : ℕ} {held : Option Cpu} {waiting : List Cpu} {c : Cpu}

section

variable (h : Inv s done held waiting)
include h

theorem spinning_of_mem (hc : c ∈ waiting) : ∃ my, s.pc c = .spinning my := by
  obtain ⟨i, hi⟩ := List.mem_iff_getElem?.mp hc
  exact ⟨_, (h.spinning c _).mpr ⟨i, hi, rfl⟩⟩

/-- No two outstanding tickets are equal modulo 2^32. -/
theorem length_lt [DecidableEq Cpu] (hb : Bounded s) :
    held.toList.length + waiting.length < 2 ^ 32 := by
  have hnodup : (held.toList ++ waiting).Nodup := by
    apply List.Nodup.append
    · cases held <;> simp
    · exact h.nodup
    · intro c hheld hwaiting
      obtain ⟨my, hmy⟩ := h.spinning_of_mem hwaiting
      rw [Option.mem_toList, ← h.holding, hmy] at hheld
      cases hheld
  have hsub : ((held.toList ++ waiting).toFinset : Set Cpu) ⊆ {c | ticketed (s.pc c) = true} := by
    intro c hc
    rw [Finset.mem_coe, List.mem_toFinset, List.mem_append] at hc
    rcases hc with hheld | hwaiting
    · rw [Option.mem_toList, ← h.holding] at hheld
      simp [hheld, ticketed]
    · obtain ⟨my, hmy⟩ := h.spinning_of_mem hwaiting
      simp [hmy, ticketed]
  have hlt := lt_of_le_of_lt (Set.encard_le_encard hsub) hb
  rw [Set.encard_coe_eq_coe_finsetCard, List.toFinset_card_of_nodup hnodup,
    List.length_append] at hlt
  exact_mod_cast hlt

theorem first [DecidableEq Cpu] (hb : Bounded s) (hc : s.pc c = .spinning s.owner) :
    held = none ∧ ∃ rest, waiting = c :: rest := by
  obtain ⟨i, hi, heq⟩ := (h.spinning c _).mp hc
  have hlen := h.length_lt hb
  have hlt := (List.getElem?_eq_some_iff.mp hi).1
  rw [h.owner, h.count] at heq
  have hzero : held.toList.length = 0 ∧ i = 0 := by omega
  obtain ⟨hheld, rfl⟩ := hzero
  constructor
  · cases held with
    | none => rfl
    | some d => cases hheld
  · cases waiting with
    | nil => cases hi
    | cons d rest =>
      cases hi
      exact ⟨rest, rfl⟩

end

section Steps

variable [DecidableEq Cpu]

theorem goto (h : Inv s done held waiting) (hc : ticketed (s.pc c) = false)
    (hp : ticketed p = false) (counter : Cpu → ℕ) :
    Inv { s with pc := update s.pc c p, preemptDisableCounter := counter } done held waiting := by
  have hpc : ∀ u q, ticketed q = true → (update s.pc c p u = q ↔ s.pc u = q) := by
    intro u q hq
    by_cases hu : u = c
    · subst hu
      rw [update_self]
      constructor
      · rintro rfl
        rw [hp] at hq
        cases hq
      · rintro rfl
        rw [hc] at hq
        cases hq
    · rw [update_of_ne hu]
  exact ⟨h.owner, h.next, h.order, h.count, h.nodup,
    fun u => (hpc u _ rfl).trans (h.holding u),
    fun u my => (hpc u _ rfl).trans (h.spinning u my)⟩

theorem take (h : Inv s done held waiting) (hc : s.pc c = .disabled) :
    Inv { s with
      pc := update s.pc c (.spinning s.next)
      next := (s.next + 1) % 2 ^ 32
      taken := s.taken ++ [c] } done held (waiting ++ [c]) := by
  have hout : c ∉ waiting := by
    intro hmem
    obtain ⟨my, hmy⟩ := h.spinning_of_mem hmem
    rw [hc] at hmy
    cases hmy
  have hnext : s.next = (s.granted.length + waiting.length) % 2 ^ 32 := by
    rw [h.next, h.order, List.length_append]
  constructor
  · exact h.owner
  · simp [h.next]
  · simp [h.order]
  · exact h.count
  · rw [← List.concat_eq_append]
    exact h.nodup.concat hout
  · intro u
    by_cases hu : u = c
    · subst hu
      simp [← h.holding, hc]
    · simpa [hu] using h.holding u
  · intro u my
    by_cases hu : u = c
    · subst hu
      simp only [update_self, Pc.spinning.injEq]
      constructor
      · rintro rfl
        exact ⟨waiting.length, by simp, hnext⟩
      · rintro ⟨i, hi, rfl⟩
        rcases Nat.lt_or_ge i waiting.length with hlt | hge
        · rw [List.getElem?_append_left hlt] at hi
          exact absurd (List.mem_of_getElem? hi) hout
        · have hlt := (List.getElem?_eq_some_iff.mp hi).1
          simp only [List.length_append, List.length_singleton] at hlt
          rw [hnext, show i = waiting.length by omega]
    · simp only [update_of_ne hu, h.spinning]
      constructor
      · rintro ⟨i, hi, hmy⟩
        exact ⟨i, by rwa [List.getElem?_append_left (List.getElem?_eq_some_iff.mp hi).1], hmy⟩
      · rintro ⟨i, hi, hmy⟩
        rcases Nat.lt_or_ge i waiting.length with hlt | hge
        · exact ⟨i, by rwa [List.getElem?_append_left hlt] at hi, hmy⟩
        · rw [List.getElem?_append_right hge] at hi
          have := List.mem_of_getElem? hi
          exact absurd (List.mem_singleton.mp this) hu

theorem grant (h : Inv s done none (c :: rest)) :
    Inv { s with pc := update s.pc c .holding, granted := s.granted ++ [c] }
      done (some c) rest := by
  have hout := (List.nodup_cons.mp h.nodup).1
  constructor
  · exact h.owner
  · exact h.next
  · simp [h.order]
  · simp [h.count]
  · exact (List.nodup_cons.mp h.nodup).2
  · intro u
    by_cases hu : u = c
    · simp [hu]
    · simp [hu, h.holding, Ne.symm hu]
  · intro u my
    by_cases hu : u = c
    · subst hu
      simp only [update_self, reduceCtorEq, false_iff, not_exists, not_and]
      intro i hi
      exact absurd (List.mem_of_getElem? hi) hout
    · simp only [update_of_ne hu, h.spinning, List.length_append, List.length_singleton]
      constructor
      · rintro ⟨i, hi, rfl⟩
        cases i with
        | zero => exact absurd (Option.some.inj hi).symm hu
        | succ i => exact ⟨i, hi, by rw [Nat.add_assoc, Nat.add_comm 1 i]⟩
      · rintro ⟨i, hi, rfl⟩
        exact ⟨i + 1, hi, by rw [Nat.add_assoc, Nat.add_comm 1 i]⟩

theorem unlock (h : Inv s done (some c) waiting) :
    Inv { s with pc := update s.pc c .released, owner := (s.owner + 1) % 2 ^ 32 }
      (done + 1) none waiting := by
  have hc := (h.holding c).mpr rfl
  constructor
  · simp [h.owner]
  · exact h.next
  · exact h.order
  · simp [h.count]
  · exact h.nodup
  · intro u
    by_cases hu : u = c
    · simp [hu]
    · simp [hu, h.holding, Ne.symm hu]
  · intro u my
    by_cases hu : u = c
    · subst hu
      simp only [update_self, ← h.spinning, hc, reduceCtorEq]
    · simpa [hu] using h.spinning u my

end Steps

end Inv

section Runs

variable [DecidableEq Cpu] {s : State Cpu}

theorem step_inv (h : Inv s done held waiting) (hb : Bounded s) (c : Cpu) :
    ∃ done held waiting, Inv (step s c) done held waiting := by
  unfold step
  split
  · next hc => exact ⟨_, _, _, h.goto (by rw [hc]; rfl) rfl _⟩
  · next hc => exact ⟨_, _, _, h.take hc⟩
  · next my hc =>
    split
    · next hmy =>
      subst hmy
      obtain ⟨rfl, rest, rfl⟩ := h.first hb hc
      exact ⟨_, _, _, h.grant⟩
    · exact ⟨_, _, _, h⟩
  · next hc =>
    obtain rfl := (h.holding c).mp hc
    exact ⟨_, _, _, h.unlock⟩
  · next hc => exact ⟨_, _, _, h.goto (by rw [hc]; rfl) rfl _⟩

theorem Reachable.bounded (h : Reachable s) : Bounded s := by
  cases h with
  | start counter =>
    have hpos : (0 : ℕ∞) < 2 ^ 32 := by exact_mod_cast Nat.two_pow_pos 32
    simpa [Bounded, ticketlockInit, ticketed] using hpos
  | step c _ hb => exact hb

theorem Reachable.inv (h : Reachable s) : ∃ done held waiting, Inv s done held waiting := by
  induction h with
  | start counter =>
    exact ⟨0, none, [], rfl, rfl, rfl, rfl, List.nodup_nil, by simp [ticketlockInit],
      by simp [ticketlockInit]⟩
  | step c hs _ ih =>
    obtain ⟨done, held, waiting, hinv⟩ := ih
    exact step_inv hinv hs.bounded c

/-- At most one CPU is between the end of `ticketlock_lock` and its `ticketlock_unlock`,
and the lock is granted in the order of the `fetch_add`s. -/
theorem ticketlock_exclusive_fair (h : Reachable s) :
    (∀ c d, s.pc c = .holding → s.pc d = .holding → c = d) ∧ s.granted <+: s.taken := by
  obtain ⟨done, held, waiting, hinv⟩ := h.inv
  constructor
  · intro c d hc hd
    rw [hinv.holding] at hc hd
    exact Option.some.inj (hc.symm.trans hd)
  · exact ⟨waiting, hinv.order.symm⟩

/-- No waiting CPU is left without one to wait for: while the lock is free, exactly one CPU in
the loop finds its ticket in `owner`. -/
theorem ticketlock_handed_on (h : Reachable s) {c : Cpu} {my : ℕ} (hc : s.pc c = .spinning my)
    (hfree : ∀ d, s.pc d ≠ .holding) : ∃! d, s.pc d = .spinning s.owner := by
  obtain ⟨done, held, waiting, hinv⟩ := h.inv
  obtain ⟨i, hi, -⟩ := (hinv.spinning c my).mp hc
  cases waiting with
  | nil => cases hi
  | cons d rest =>
    have hcount := hinv.count
    cases held with
    | some e => exact absurd ((hinv.holding e).mpr rfl) (hfree e)
    | none =>
      refine ⟨d, (hinv.spinning d _).mpr ⟨0, rfl, by rw [hinv.owner, hcount]; rfl⟩, ?_⟩
      intro e he
      obtain ⟨-, rest', heq⟩ := hinv.first h.bounded he
      exact (List.cons.inj heq).1.symm

/-- On a machine with fewer than 2^32 CPUs every schedule is a run. -/
theorem reachable_run [Fintype Cpu] (hcard : Fintype.card Cpu < 2 ^ 32) (counter : Cpu → ℕ)
    (cpus : List Cpu) : Reachable (cpus.foldl step (ticketlockInit counter)) := by
  have hb : ∀ s : State Cpu, Bounded s := by
    intro s
    apply lt_of_le_of_lt (Set.encard_le_encard (Set.subset_univ _))
    rw [Set.encard_univ, ENat.card_eq_coe_fintype_card]
    exact_mod_cast hcard
  induction cpus using List.reverseRecOn with
  | nil => exact .start counter
  | append_singleton cpus c ih =>
    rw [List.foldl_concat]
    exact .step c ih (hb _)

end Runs

def contended : State Bool :=
  [false, false, true, true, false, true, false, true, false].foldl step (ticketlockInit fun _ => 0)

theorem contended_exclusive_fair :
    (∀ c d, contended.pc c = .holding → contended.pc d = .holding → c = d) ∧
      contended.granted <+: contended.taken ∧ contended.granted = [false, true] :=
  have h : Reachable contended := reachable_run (by decide) _ _
  ⟨(ticketlock_exclusive_fair h).1, (ticketlock_exclusive_fair h).2, by decide⟩

/-- The first CPU has unlocked, and the second has yet to see it. -/
def unlocked : State Bool :=
  [false, false, true, true, false, false].foldl step (ticketlockInit fun _ => 0)

theorem unlocked_handed_on : ∃! d, unlocked.pc d = .spinning unlocked.owner :=
  ticketlock_handed_on (reachable_run (by decide) _ _)
    (show unlocked.pc true = .spinning 1 by decide) (by decide)

end LocksTicketlock
