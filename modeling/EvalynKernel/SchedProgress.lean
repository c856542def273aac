import EvalynKernel.SchedThreads
import Mathlib.Data.Finset.Max

/-! # Idle threads, page tables and CPUs with interrupts off

A CPU that handles a timer interrupt or switches threads takes no interrupt. It goes on, or
waits for `reaper_waiter.lock`, whose holder goes on. After a switch it has the page table of
the thread it runs. -/
namespace SchedProgress

set_option linter.unusedSectionVars false

open Function SchedState SchedSteps SchedMoves SchedPlaces SchedThreads

variable {Cpu Thr Wq : Type} [DecidableEq Cpu] [DecidableEq Thr] [DecidableEq Wq]
  {sys : System Cpu Thr Wq} {s s' : State Cpu Thr Wq} {c : Cpu}

/-- An idle thread keeps its state and runs on its own CPU only. It is never queued, waits for
nothing and is never reaped. -/
theorem idle_threads_stay (h : Reachable sys (fun _ _ => True) s) (c : Cpu) :
    s.state (sys.idle c) = .idleThread ∧ (∀ c', s.current c' = sys.idle c → c' = c) ∧
    (∀ c', sys.idle c ∉ s.queue c') ∧ (∀ w, ∀ k ∈ s.waiters w, k.thread ≠ sys.idle c) ∧
    sys.idle c ∉ s.timeouts ∧ sys.idle c ∉ buried s.log := by
  have hsound := (reachable_inv h).sound
  obtain ⟨place, hp, hg⟩ := hsound.placed
  have hl := hp.located (sys.idle c)
  have hi : place (sys.idle c) = .idle := hl.idle.mpr ⟨c, rfl⟩
  constructor
  · exact hl.idle_state.mp hi
  constructor
  · intro c' hc'
    have hown := hp.idle_current c' (hc' ▸ hi)
    exact sys.idle_injective _ _ (hown.symm.trans hc')
  constructor
  · intro c' hq
    cases hi.symm.trans ((hl.queued c').mpr hq)
  constructor
  · intro w k hk
    exact hsound.tokens.waiters w k hk c
  constructor
  · intro ht
    exact hsound.tokens.timeouts _ ht c rfl
  · intro hb
    cases hi.symm.trans ((hg.reaped _).mpr hb)

theorem idle_stays_while_three_runs : ∃ s, Reachable machine (fun _ _ => True) s ∧
    s.current 0 = 3 ∧ s.state (machine.idle 0) = .idleThread := by
  obtain ⟨s, hs, hc⟩ := run_reaches (p := fun s => s.current 0 = 3) queues_initial
    (meets_true (dispatch 0) _) (by decide +kernel)
  exact ⟨s, hs, by simpa using hc, (idle_threads_stay hs 0).1⟩

/-- The CPU is inside `schedule_finalize`. -/
def Switching (m : Mode Thr) : Prop := ∃ prev next stage, m = .switching prev next stage

def ownTable (sys : System Cpu Thr Wq) (t : Thr) : Option Thr := if sys.user t then some t else none

/-- The lock is held in its section of `schedule_finalize` only, and a CPU that is not switching
has the page table of its current thread. -/
structure Switches (sys : System Cpu Thr Wq) (current : Cpu → Thr) (mode : Cpu → Mode Thr)
    (pageTable : Cpu → Option Thr) (lock : Option Cpu) : Prop where
  lock : ∀ c, lock = some c → ∃ prev next, mode c = .switching prev next .reapLocked
  own : ∀ c, ¬ Switching (mode c) → pageTable c = ownTable sys (current c)

abbrev SwitchesIn (sys : System Cpu Thr Wq) (s : State Cpu Thr Wq) : Prop :=
  Switches sys s.current s.mode s.pageTable s.reaperLock

variable {current : Cpu → Thr} {mode : Cpu → Mode Thr} {pageTable : Cpu → Option Thr}
  {lock : Option Cpu} {m : Mode Thr} {prev next : Thr} {stage : SwitchStage}

section

variable (h : Switches sys current mode pageTable lock)
include h

theorem Switches.outside (hm : mode c = m)
    (hne : ∀ prev next, m ≠ .switching prev next .reapLocked) : lock ≠ some c := by
  intro hl
  obtain ⟨prev, next, he⟩ := h.lock c hl
  exact hne prev next (hm.symm.trans he)

theorem Switches.goto (hc : lock ≠ some c) (t : Thr) (table : Option Thr)
    (hown : ¬ Switching m → table = ownTable sys t) :
    Switches sys (update current c t) (update mode c m) (update pageTable c table) lock := by
  constructor
  · intro c' hl
    have hne : c' ≠ c := fun he => hc (he ▸ hl)
    rw [update_of_ne hne]
    exact h.lock c' hl
  · intro c' hs
    by_cases he : c' = c
    · subst he
      simp only [update_self] at hs ⊢
      exact hown hs
    · simp only [update_of_ne he] at hs ⊢
      exact h.own c' hs

theorem Switches.setMode (hc : lock ≠ some c) (hs : ¬ Switching m → ¬ Switching (mode c)) :
    Switches sys current (update mode c m) pageTable lock := by
  have hgo := h.goto hc (current c) (pageTable c) fun hn => h.own c (hs hn)
  rwa [update_eq_self, update_eq_self] at hgo

end

theorem switches_scheduled (hs : Scheduled sys s c s')
    (h : SwitchesIn sys s) (hm : s.mode c = .thread) : SwitchesIn sys s' := by
  cases hs with
  | stays _ => exact h
  | idles _ _ | switches _ _ => exact h.setMode (h.outside hm (by simp)) (by simp [hm, Switching])

theorem switches_finalizes (hp : PlacedIn sys place s) (h : SwitchesIn sys s)
    (hm : s.mode c = .switching prev next stage) (hf : Finalizes sys s c prev next stage s') :
    SwitchesIn sys s' := by
  have hfree : ∀ m, Switching m →
      Switches sys s.current (update s.mode c m) s.pageTable none := by
    intro m hs
    have hnone : Switches sys s.current s.mode s.pageTable none := ⟨by simp, h.own⟩
    exact hnone.setMode (by simp) fun hn => absurd hs hn
  cases hf with
  | setCurrent =>
    have hgo := h.goto (m := .switching prev next .current) (h.outside hm (by simp)) next
      (s.pageTable c) fun hn => absurd ⟨_, _, _, rfl⟩ hn
    rwa [update_eq_self] at hgo
  | reapPush _ _ | reapWake _ _ =>
    refine ⟨fun c' he => ?_, (hfree _ ⟨_, _, _, rfl⟩).own⟩
    cases he
    exact ⟨_, _, update_self ..⟩
  | reapUnlock _ => exact hfree _ ⟨_, _, _, rfl⟩
  | loadTable =>
    have hgo := h.goto (m := .thread) (h.outside hm (by simp)) (s.current c) (ownTable sys next)
      fun _ => by rw [hp.current_eq hm (by simp)]
    rwa [update_eq_self] at hgo
  | _ => exact h.setMode (h.outside hm (by simp)) (by simp [Switching])

theorem switches_move (hp : PlacedIn sys place s) (h : SwitchesIn sys s) (hm : Move sys s a s') :
    SwitchesIn sys s' := by
  cases hm with
  | irq hm | timerReturn hm _ => exact h.setMode (h.outside hm (by simp)) (by simp [hm, Switching])
  | preempt hm hs => exact switches_scheduled hs h hm
  | block hr _ hs | leave hr _ hs => exact switches_scheduled hs h hr.mode
  | wait _ _ hw | wake _ _ hw | reap _ _ hw | outside _ _ hw => cases hw <;> exact h
  | finalize hm hf => exact switches_finalizes hp h hm hf
  | _ => exact h

theorem switches_reachable (h : Reachable sys (fun _ _ => True) s) : SwitchesIn sys s := by
  refine reachable_invariant (P := fun s => SwitchesIn sys s)
    (fun s hs => ⟨by simp [hs.reaperLock], fun c _ => ?_⟩) (fun s a t hr hi _ _ hm => ?_) h
  · simp [hs.pageTable, hs.current, ownTable, sys.idle_kernel]
  · obtain ⟨place, hp, -⟩ := (reachable_inv hr).sound.placed
    exact switches_move hp hi hm

/-- A CPU executes a thread, or the timer interrupt on it, with the thread's own page table, and no
two CPUs do so with the same address space. -/
theorem page_tables_own (h : Reachable sys (fun _ _ => True) s) (hc : ¬ Switching (s.mode c)) :
    s.pageTable c = ownTable sys (s.current c) ∧
      ∀ c' t, ¬ Switching (s.mode c') → s.pageTable c = some t → s.pageTable c' = some t →
        c' = c := by
  have hown := (switches_reachable h).own
  refine ⟨hown c hc, fun c' t hc' ht ht' => ?_⟩
  obtain ⟨place, hp, -⟩ := (reachable_inv h).sound.placed
  have hcur : ∀ d, ¬ Switching (s.mode d) → s.pageTable d = some t → s.current d = t ∧
      sys.user t := by
    intro d hd he
    rw [hown d hd, ownTable] at he
    split at he
    · cases he
      exact ⟨rfl, ‹_›⟩
    · cases he
  obtain ⟨rfl, huser⟩ := hcur c hc ht
  refine hp.running_one (hp.running_current ?_) (hcur c' hc' ht').1
  intro hi
  rw [hi, sys.idle_kernel] at huser
  cases huser

theorem three_runs_on_its_own : ∃ s, Reachable machine (fun _ _ => True) s ∧ s.mode 0 = .thread ∧
    s.pageTable 0 = ownTable machine (s.current 0) := by
  obtain ⟨s, hs, hm⟩ := run_reaches (p := fun s => s.mode 0 = .thread ∧ s.current 0 = 3)
    queues_initial (meets_true (dispatch 0) _) (by decide +kernel)
  have hm : s.mode 0 = .thread ∧ s.current 0 = 3 := by simpa using hm
  exact ⟨s, hs, hm.1, (page_tables_own hs (by simp [hm.1, Switching])).1⟩

/-- Some step of the CPU is possible. -/
def Enabled (sys : System Cpu Thr Wq) (s : State Cpu Thr Wq) (c : Cpu) : Prop :=
  ∃ choice s', step sys s (.cpu c choice) = some s'

theorem timer_enabled (hm : s.mode c = .timer time) : Enabled sys s c := by
  unfold Enabled
  simp only [step, cpuStep, hm, timerStep]
  by_cases hh : s.hand (.cpu c) = .empty
  · by_cases hdue : ∀ u ∈ s.timeouts, time < s.wakeupTime u
    · exact ⟨.go, _, by rw [if_pos hh]; exact if_pos hdue⟩
    · -- the head of the heap has expired if any node has
      simp only [not_forall, Nat.not_lt] at hdue
      obtain ⟨u, hu, hle⟩ := hdue
      obtain ⟨t, ht, hmin⟩ := Finset.exists_min_image s.timeouts.toFinset s.wakeupTime
        ⟨u, List.mem_toFinset.mpr hu⟩
      simp only [List.mem_toFinset] at ht hmin
      exact ⟨.pop t, _, by rw [if_pos hh]; exact if_pos ⟨ht, hmin, (hmin u hu).trans hle⟩⟩
  · exact ⟨.go, _, if_neg hh⟩

theorem switch_enabled (hp : PlacedIn sys place s) (hm : s.mode c = .switching prev next stage)
    (hlock : stage = .reaping → s.reaperLock = none) : Enabled sys s c := by
  refine ⟨.go, ?_⟩
  simp only [step, cpuStep, hm]
  cases stage with
  | loaded st =>
    -- a thread that has been blocked is not the one switched away from
    have hb := (hp.stage c prev next _ hm).2.1
    cases st with
    | blocked => exact absurd rfl hb
    | blocking | runable =>
      simp only [finalizeStep]
      split <;> exact ⟨_, rfl⟩
    | _ => exact ⟨_, rfl⟩
  | reaping => exact ⟨_, if_pos (hlock rfl)⟩
  | reapLocked =>
    simp only [finalizeStep]
    split <;> exact ⟨_, rfl⟩
  | _ => exact ⟨_, rfl⟩

/-- No CPU is stuck with interrupts off: the panic of `schedule_finalize` is not reached, and
a CPU that waits for the lock waits for one that goes on. -/
theorem interrupts_off_progress (h : Reachable sys (fun _ _ => True) s) (hm : s.mode c ≠ .thread) :
    Enabled sys s c ∨ ∃ c', c' ≠ c ∧ s.reaperLock = some c' ∧ Enabled sys s c' := by
  obtain ⟨place, hp, -⟩ := (reachable_inv h).sound.placed
  cases hc : s.mode c with
  | thread => exact absurd hc hm
  | timer time => exact .inl (timer_enabled hc)
  | switching prev next stage =>
    cases hlock : s.reaperLock with
    | none => exact .inl (switch_enabled hp hc fun _ => hlock)
    | some c' =>
      obtain ⟨prev', next', hheld⟩ := (switches_reachable h).lock c' hlock
      have hgo : Enabled sys s c' := switch_enabled hp hheld (by simp)
      by_cases he : c' = c
      · exact .inl (he ▸ hgo)
      · exact .inr ⟨c', he, rfl, hgo⟩

theorem timer_interrupt_progress : ∃ s, Reachable machine (fun _ _ => True) s ∧
    s.mode 0 ≠ .thread ∧
    (Enabled machine s 0 ∨ ∃ c', c' ≠ 0 ∧ s.reaperLock = some c' ∧ Enabled machine s c') := by
  obtain ⟨s, hs, hm⟩ := run_reaches (p := fun s => s.mode 0 ≠ .thread) queues_initial
    (meets_true [.irq 0, .cpu 0 .go, .cpu 0 .go] _) (by decide +kernel)
  have hm : s.mode 0 ≠ .thread := by simpa using hm
  exact ⟨s, hs, hm, interrupts_off_progress hs hm⟩

end SchedProgress
