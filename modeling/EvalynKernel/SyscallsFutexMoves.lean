import EvalynKernel.SyscallsFutex

/-! # The moves of the futex calls

Each step is one of the moves below, which say what it changes. -/
namespace SyscallsFutexMoves

open DstructRbtree DstructRbtreeRuns SyscallsFutex
open SchedState (WaitStatus)

variable {Thr : Type} [DecidableEq Thr]

section Moves

variable (s : State Thr) (t : Thr)

inductive Waits (call : WaitCall) : WaitStage → State Thr → Prop where
  | enterTree : s.treeLock = none →
      Waits call .called ({ s with treeLock := some t }.goto t (.wait call .locked))
  | find {a} : a ≠ 0 → rbtreeSearchExact s.allocated.length s.tree call.key = .ok a →
      Waits call .locked (s.goto t (.wait call (.found a)))
  | create {a tree} : rbtreeSearchExact s.allocated.length s.tree call.key = .ok 0 →
      a ≠ 0 → a % 2 = 0 → a ∉ s.allocated →
      rbtreeInsert s.allocated.length (rewriteOutside s.tree a ⟨0, 0, 0⟩ call.key) a = .ok tree →
      Waits call .locked ({ s with
        tree := tree
        allocated := a :: s.allocated
        refcnt := Function.update s.refcnt a 0
        waiters := Function.update s.waiters a []
        guard := Function.update s.guard a none
        log := .allocated a :: s.log }.goto t (.wait call (.found a)))
  | count {a} : Waits call (.found a)
      ((s.setRefcnt a ((s.refcnt a + 1) % 2 ^ 32)).goto t (.wait call (.counted a)))
  | exitTree {a} : Waits call (.counted a)
      ({ s with treeLock := none }.goto t (.wait call (.entered a)))
  | lock {a} : s.guard a = none →
      Waits call (.entered a) ((s.setGuard a (some t)).goto t (.wait call (.checking a)))
  | met {a} : s.memory (s.tree.valueOfNode a) ≠ call.expected →
      Waits call (.checking a) (s.goto t (.wait call (.releasing a .conditionMet)))
  | unmet {a} : s.memory (s.tree.valueOfNode a) = call.expected →
      Waits call (.checking a) (s.goto t (.wait call (.pushing a)))
  | push {a} : Waits call (.pushing a)
      ((s.setWaiters a (s.waiters a ++ [t])).goto t (.wait call (.pushed a)))
  | sleep {a} : Waits call (.pushed a) ((s.setGuard a none).goto t (.wait call (.blocked a)))
  | resume {a} : s.guard a = none →
      Waits call (.blocked a) ((s.setGuard a (some t)).goto t (.wait call (.cleaning a)))
  | delete {a} : t ∈ s.waiters a → Waits call (.cleaning a)
      ((s.setWaiters a ((s.waiters a).erase t)).goto t (.wait call (.releasing a .timedOut)))
  | gone {a} : t ∉ s.waiters a →
      Waits call (.cleaning a) (s.goto t (.wait call (.releasing a .woken)))
  | unlock {a status} : Waits call (.releasing a status)
      ((s.setGuard a none).goto t (.wait call (.leaving a status)))
  | reenterTree {a status} : s.treeLock = none → Waits call (.leaving a status)
      ({ s with treeLock := some t }.goto t (.wait call (.dropping a status)))
  | drop {a status} : (s.refcnt a + (2 ^ 32 - 1)) % 2 ^ 32 ≠ 0 → Waits call (.dropping a status)
      ((s.setRefcnt a ((s.refcnt a + (2 ^ 32 - 1)) % 2 ^ 32)).goto t (.wait call (.dropped status)))
  | dropLast {a status} : (s.refcnt a + (2 ^ 32 - 1)) % 2 ^ 32 = 0 →
      Waits call (.dropping a status)
        ((s.setRefcnt a 0).goto t (.wait call (.removing a status)))
  | remove {a status x tree} : rbtreeRemove s.allocated.length s.tree a = .ok (x, tree) →
      Waits call (.removing a status)
        (({ s with tree := tree }.note (.removed a)).goto t (.wait call (.freeing a status)))
  | free {a status} : Waits call (.freeing a status)
      (({ s with allocated := s.allocated.erase a }.note (.freed a)).goto t
        (.wait call (.dropped status)))
  | back {status} : Waits call (.dropped status)
      (({ s with treeLock := none }.note (.returned t (sysretOf status))).goto t .outside)

inductive Wakes (call : WakeCall) : WakeStage → State Thr → Prop where
  | enterTree : s.treeLock = none →
      Wakes call .called ({ s with treeLock := some t }.goto t (.wake call .locked))
  | none : rbtreeSearchExact s.allocated.length s.tree call.key = .ok 0 →
      Wakes call .locked (s.goto t (.wake call (.finished 0)))
  | find {a} : a ≠ 0 → rbtreeSearchExact s.allocated.length s.tree call.key = .ok a →
      Wakes call .locked (s.goto t (.wake call (.waking a 0)))
  | lock {a} {woken : ℕ} : (woken : ℤ) < call.count → s.guard a = none →
    Wakes call (.waking a woken)
      ((s.setGuard a (some t)).goto t (.wake call (.popping a woken)))
  | enough {a} {woken : ℕ} : ¬ (woken : ℤ) < call.count →
      Wakes call (.waking a woken) (s.goto t (.wake call (.finished woken)))
  | empty {a woken} : s.waiters a = [] →
      Wakes call (.popping a woken) (s.goto t (.wake call (.popped a woken false)))
  | pop {a woken u rest} : s.waiters a = u :: rest → Wakes call (.popping a woken)
      ((s.setWaiters a rest).goto t (.wake call (.popped a woken true)))
  | next {a woken} : Wakes call (.popped a woken true)
      ((s.setGuard a none).goto t (.wake call (.waking a (woken + 1))))
  | last {a woken} : Wakes call (.popped a woken false)
      ((s.setGuard a none).goto t (.wake call (.finished woken)))
  | back {woken} : Wakes call (.finished woken)
      (({ s with treeLock := none }.note (.returned t ⟨woken, 0⟩)).goto t .outside)

inductive Move : State Thr → Prop where
  | store {addr value} : s.pc t = .outside →
      Move { s with memory := Function.update s.memory addr value }
  | callWait {call} : s.pc t = .outside → Move (s.goto t (.wait call .called))
  | callWake {call} : s.pc t = .outside → Move (s.goto t (.wake call .called))
  | refuse : s.pc t = .outside → Move (s.note (.returned t sysretEinval))
  | wait {call stage s'} : s.pc t = .wait call stage → Waits s t call stage s' → Move s'
  | wake {call stage s'} : s.pc t = .wake call stage → Wakes s t call stage s' → Move s'

end Moves

variable {s s' : State Thr} {t : Thr} {pageSize : ℕ} {choice : Choice}

variable {p : Pc}

theorem lockTree_eq (h : lockTree s t p = some s') :
    s.treeLock = none ∧ { s with treeLock := some t }.goto t p = s' := by
  unfold lockTree at h
  split at h
  · exact ⟨‹_›, Option.some.inj h⟩
  · cases h

variable {a : ℕ}

theorem lockWaitable_eq (h : lockWaitable s t a p = some s') :
    s.guard a = none ∧ (s.setGuard a (some t)).goto t p = s' := by
  unfold lockWaitable at h
  split at h
  · exact ⟨‹_›, Option.some.inj h⟩
  · cases h

variable {call : WaitCall}

theorem createEntry_waits (hz : rbtreeSearchExact s.allocated.length s.tree call.key = .ok 0)
    (h : createEntry s t call a = some s') : Waits s t call .locked s' := by
  unfold createEntry at h
  split at h
  · rename_i ha
    split at h
    · cases h
      exact .create hz ha.1 ha.2.1 ha.2.2 ‹_›
    · cases h
  · cases h

theorem dropEntry_waits (s : State Thr) (t : Thr) (call : WaitCall) (a : ℕ) (status : WaitStatus) :
    Waits s t call (.dropping a status) (dropEntry s t call a status) := by
  unfold dropEntry
  by_cases hz : (s.refcnt a + (2 ^ 32 - 1)) % 2 ^ 32 = 0
  · simp only [hz, if_true]
    exact .dropLast hz
  · simp only [if_neg hz]
    exact .drop hz

theorem waitStep_waits (h : waitStep s t call choice stage = some s') :
    Waits s t call stage s' := by
  cases stage with
  | called =>
    obtain ⟨hl, rfl⟩ := lockTree_eq h
    exact .enterTree hl
  | locked =>
    simp only [waitStep] at h
    split at h
    · split at h
      · exact createEntry_waits ‹_› h
      · cases h
    · cases h
      rename_i a hne hok
      exact .find hne hok
    · cases h
  | found a =>
    cases h
    exact .count
  | counted a =>
    cases h
    exact .exitTree
  | entered a =>
    obtain ⟨hl, rfl⟩ := lockWaitable_eq h
    exact .lock hl
  | checking a =>
    simp only [waitStep] at h
    split at h
    · cases h
      exact .met ‹_›
    · cases h
      exact .unmet (not_not.mp ‹_›)
  | pushing a =>
    cases h
    exact .push
  | pushed a =>
    cases h
    exact .sleep
  | blocked a =>
    obtain ⟨hl, rfl⟩ := lockWaitable_eq h
    exact .resume hl
  | cleaning a =>
    simp only [waitStep] at h
    split at h
    · cases h
      exact .delete ‹_›
    · cases h
      exact .gone ‹_›
  | releasing a status =>
    cases h
    exact .unlock
  | leaving a status =>
    obtain ⟨hl, rfl⟩ := lockTree_eq h
    exact .reenterTree hl
  | dropping a status =>
    cases h
    exact dropEntry_waits s t call a status
  | removing a status =>
    simp only [waitStep, removeEntry] at h
    split at h
    · cases h
      exact .remove ‹_›
    · cases h
  | freeing a status =>
    cases h
    exact .free
  | dropped status =>
    cases h
    exact .back

theorem wakeStep_wakes {call : WakeCall} (h : wakeStep s t call stage = some s') :
    Wakes s t call stage s' := by
  cases stage with
  | called =>
    obtain ⟨hl, rfl⟩ := lockTree_eq h
    exact .enterTree hl
  | locked =>
    simp only [wakeStep] at h
    split at h
    · cases h
      exact .none ‹_›
    · cases h
      rename_i a hne hok
      exact .find hne hok
    · cases h
  | waking a woken =>
    simp only [wakeStep] at h
    split at h
    · obtain ⟨hl, rfl⟩ := lockWaitable_eq h
      exact .lock ‹_› hl
    · cases h
      exact .enough ‹_›
  | popping a woken =>
    simp only [wakeStep] at h
    split at h
    · cases h
      exact .empty ‹_›
    · cases h
      exact .pop ‹_›
  | popped a woken got =>
    cases h
    cases got with
    | false => exact .last
    | true => exact .next
  | finished woken =>
    cases h
    exact .back

theorem step_move (h : step s t pageSize choice = some s') : Move s t s' := by
  unfold step at h
  split at h
  · cases choice with
    | go | kmalloc => cases h
    | store =>
      cases h
      exact .store ‹_›
    | wait =>
      simp only [outsideStep] at h
      split at h
      · cases h
        exact .callWait ‹_›
      · cases h
        exact .refuse ‹_›
    | wake =>
      simp only [outsideStep] at h
      split at h
      · cases h
        exact .callWake ‹_›
      · cases h
        exact .refuse ‹_›
  · exact .wait ‹_› (waitStep_waits h)
  · exact .wake ‹_› (wakeStep_wakes h)

theorem Move.pc_other (hm : Move s t s') (hu : u ≠ t) : s'.pc u = s.pc u := by
  cases hm with
  | store _ | refuse _ => rfl
  | callWait _ | callWake _ => exact Function.update_of_ne hu _ _
  | wait _ hw | wake _ hw => cases hw <;> exact Function.update_of_ne hu _ _

theorem Move.memory_eq (hm : Move s t s') (ht : s.pc t ≠ .outside) : s'.memory = s.memory := by
  cases hm with
  | store h | refuse h | callWait h | callWake h => exact absurd h ht
  | wait _ hw | wake _ hw => cases hw <;> rfl

/-- The runs all of whose steps meet the condition `ok` on the states before and after. -/
inductive Run (pageSize : ℕ) (ok : State Thr → State Thr → Prop) (s₀ : State Thr) :
    State Thr → Prop where
  | refl : Run pageSize ok s₀ s₀
  | step {u t choice v} : Run pageSize ok s₀ u → ok u v →
      step u t pageSize choice = some v → Run pageSize ok s₀ v

def Reachable (pageSize : ℕ) (ok : State Thr → State Thr → Prop) (s : State Thr) : Prop :=
  ∃ s₀, Initial s₀ ∧ Run pageSize ok s₀ s

variable {ok ok' : State Thr → State Thr → Prop}

variable {s₀ : State Thr}

theorem Run.invariant {P : State Thr → Prop} (h₀ : P s₀)
    (hnext : ∀ s t s', P s → ok s s' → Move s t s' → P s') (h : Run pageSize ok s₀ s) : P s := by
  induction h with
  | refl => exact h₀
  | step _ hok hs ih => exact hnext _ _ _ ih hok (step_move hs)

theorem Run.trans (h₀ : Run pageSize ok s₀ s₁) (h : Run pageSize ok s₁ s) :
    Run pageSize ok s₀ s := by
  induction h with
  | refl => exact h₀
  | step _ hok hs ih => exact .step ih hok hs

def run (pageSize : ℕ) : List (Thr × Choice) → State Thr → Option (State Thr)
  | [], s => some s
  | (t, choice) :: rest, s => (step s t pageSize choice).bind (run pageSize rest)

def checks (pageSize : ℕ) (check : State Thr → State Thr → Bool) :
    List (Thr × Choice) → State Thr → Bool
  | [], _ => true
  | (t, choice) :: rest, s =>
    (step s t pageSize choice).all fun s' => check s s' && checks pageSize check rest s'

variable {l : List (Thr × Choice)}

theorem run_of_checks (hcheck : ∀ s s', check s s' = true → ok s s')
    (hl : checks pageSize check l s = true) (h : run pageSize l s = some s') :
    Run pageSize ok s s' := by
  induction l generalizing s with
  | nil =>
    cases h
    exact .refl
  | cons a rest ih =>
    obtain ⟨u, hu, hr⟩ := Option.bind_eq_some_iff.mp h
    rw [checks, hu, Option.all_some, Bool.and_eq_true] at hl
    exact Run.trans (.step .refl (hcheck s u hl.1) hu) (ih hl.2 hr)

def after (pageSize : ℕ) (l : List (Thr × Choice)) (s : State Thr) : State Thr :=
  (run pageSize l s).getD s

theorem run_after (h : (run pageSize l s).isSome = true) :
    run pageSize l s = some (after pageSize l s) := by
  obtain ⟨s', hs'⟩ := Option.isSome_iff_exists.mp h
  rw [after, hs', Option.getD_some]

theorem run_all (hok : ∀ s s', ok s s') (h : run pageSize l s = some s') :
    Run pageSize ok s s' := by
  induction l generalizing s with
  | nil =>
    cases h
    exact .refl
  | cons a rest ih =>
    obtain ⟨u, hu, hr⟩ := Option.bind_eq_some_iff.mp h
    exact Run.trans (.step .refl (hok s u) hu) (ih hr)

end SyscallsFutexMoves
