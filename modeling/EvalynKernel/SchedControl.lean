import EvalynKernel.SchedPlaces

/-! # Blocking and the program points of `wait_impl`

A thread is in one of the blocking states only inside `wait_impl`, and it is switched
away from there only after it has made all its registrations. -/
namespace SchedControl

set_option linter.unusedSectionVars false

open Function SchedState SchedSteps SchedMoves SchedPlaces

variable {Cpu Thr Wq : Type} [DecidableEq Cpu] [DecidableEq Thr] [DecidableEq Wq]
  {sys : System Cpu Thr Wq} {s s' : State Cpu Thr Wq} {c : Cpu} {t : Thr}

def preemptOff : WaitStage → Bool
  | .enabled | .resumed | .cleaned _ => false
  | _ => true

/-- The program points at which the thread may be in one of the blocking states. -/
def mayBlock : WaitStage → Bool
  | .entered | .storedRunning | .cleaned _ => false
  | _ => true

/-- The switch has not yet decided what becomes of the previous thread. -/
def undecided (stage : SwitchStage) : Bool := decide (stage = .popped) || left stage

def Blocks (st : ThreadState) : Prop := st = .blocking ∨ st = .blocked

variable {st : ThreadState} {m : Mode Thr}

section Control

variable {pc pc' : Thr → Pc Thr Wq} {state state' : Thr → ThreadState} {preempt preempt' : Thr → ℕ}
  {mode : Cpu → Mode Thr}

structure Control (pc : Thr → Pc Thr Wq) (state : Thr → ThreadState) (preempt : Thr → ℕ)
    (mode : Cpu → Mode Thr) : Prop where
  counter : ∀ t call stage, pc t = .wait call stage → preempt t = if preemptOff stage then 1 else 0
  blocks : ∀ t, Blocks (state t) → ∃ call stage, pc t = .wait call stage ∧ mayBlock stage = true
  switching : ∀ c prev next stage, mode c = .switching prev next stage → undecided stage = true →
    preempt prev = 0
  blocked : ∀ t, state t = .blocked → preempt t = 0
  resumed : ∀ t call, pc t = .wait call .resumed → state t = .blocking →
    ∃ c next stage, mode c = .switching t next stage ∧ undecided stage = true

abbrev ControlIn (s : State Cpu Thr Wq) : Prop := Control s.pc s.state s.preempt s.mode

namespace Control

theorem advance (h : Control pc state preempt mode) (hpc : ∀ u, u ≠ t → pc' u = pc u)
    (hst : ∀ u, u ≠ t → state' u = state u) (hpre : ∀ u, u ≠ t → preempt' u = preempt u)
    (haway : ∀ c next stage, mode c = .switching t next stage → undecided stage = false)
    (h1 : ∀ call stage, pc' t = .wait call stage → preempt' t = if preemptOff stage then 1 else 0)
    (h2 : Blocks (state' t) → ∃ call stage, pc' t = .wait call stage ∧ mayBlock stage = true)
    (h3 : state' t ≠ .blocked) (h4 : ∀ call, pc' t = .wait call .resumed → state' t ≠ .blocking) :
    Control pc' state' preempt' mode := by
  refine ⟨fun u call stage hu => ?_, fun u hu => ?_, fun c prev next stage hm ha => ?_,
    fun u hu => ?_, fun u call hu hb => ?_⟩
  · by_cases hut : u = t
    · subst hut
      exact h1 call stage hu
    · rw [hpc u hut] at hu
      rw [hpre u hut]
      exact h.counter u call stage hu
  · by_cases hut : u = t
    · subst hut
      exact h2 hu
    · rw [hst u hut] at hu
      rw [hpc u hut]
      exact h.blocks u hu
  · have hne : prev ≠ t := by
      rintro rfl
      rw [haway c next stage hm] at ha
      cases ha
    rw [hpre prev hne]
    exact h.switching c prev next stage hm ha
  · have hut : u ≠ t := by
      rintro rfl
      exact h3 hu
    rw [hst u hut] at hu
    rw [hpre u hut]
    exact h.blocked u hu
  · by_cases hut : u = t
    · subst hut
      exact absurd hb (h4 call hu)
    · rw [hpc u hut] at hu
      rw [hst u hut] at hb
      exact h.resumed u call hu hb

section Goto

variable (h : Control pc state preempt mode)
  (hd : ∀ c next stage, mode c = .switching t next stage → undecided stage = false)
  {p : Pc Thr Wq}

include h hd

theorem goto (hb : state t ≠ .blocked)
    (h1 : ∀ call stage, p = .wait call stage → preempt t = if preemptOff stage then 1 else 0)
    (h2 : Blocks (state t) → ∃ call stage, p = .wait call stage ∧ mayBlock stage = true)
    (h3 : ∀ call, p = .wait call .resumed → state t ≠ .blocking) :
    Control (update pc t p) state preempt mode := by
  refine h.advance (fun u hu => update_of_ne hu ..) (fun _ _ => rfl) (fun _ _ => rfl) hd
    ?_ ?_ hb ?_ <;> rwa [update_self]

theorem gotoPreempt (hb : state t ≠ .blocked)
    (h1 : ∀ call stage, p = .wait call stage → n = if preemptOff stage then 1 else 0)
    (h2 : Blocks (state t) → ∃ call stage, p = .wait call stage ∧ mayBlock stage = true)
    (h3 : ∀ call, p = .wait call .resumed → state t ≠ .blocking) :
    Control (update pc t p) state (update preempt t n) mode := by
  refine h.advance (fun u hu => update_of_ne hu ..) (fun _ _ => rfl)
    (fun u hu => update_of_ne hu ..) hd ?_ ?_ hb ?_ <;> simp only [update_self]
  · exact h1
  · exact h2
  · exact h3

theorem gotoState (hb : st ≠ .blocked)
    (h1 : ∀ call stage, p = .wait call stage → preempt t = if preemptOff stage then 1 else 0)
    (h2 : Blocks st → ∃ call stage, p = .wait call stage ∧ mayBlock stage = true)
    (h3 : ∀ call, p ≠ .wait call .resumed) :
    Control (update pc t p) (update state t st) preempt mode := by
  refine h.advance (fun u hu => update_of_ne hu ..)
    (fun u hu => update_of_ne hu ..) (fun _ _ => rfl) hd ?_ ?_ ?_ ?_ <;>
    simp only [update_self]
  · exact h1
  · exact h2
  · exact hb
  · exact fun call hc => absurd hc (h3 call)

end Goto

theorem restate (h : Control pc state preempt mode) (hst : ¬ Blocks st) :
    Control pc (update state t st) preempt mode := by
  have hback : ∀ u, Blocks (update state t st u) →
      update state t st u = state u := by
    intro u hu
    by_cases hut : u = t
    · subst hut
      rw [update_self] at hu
      exact absurd hu hst
    · exact update_of_ne hut ..
  refine ⟨h.counter, fun u hu => ?_, h.switching, fun u hu => ?_, fun u call hpc hu => ?_⟩
  · rw [hback u hu] at hu
    exact h.blocks u hu
  · rw [hback u (.inr hu)] at hu
    exact h.blocked u hu
  · rw [hback u (.inl hu)] at hu
    exact h.resumed u call hpc hu

theorem setMode (h : Control pc state preempt mode)
    (hnew : ∀ prev next stage, m = .switching prev next stage → undecided stage = true →
      preempt prev = 0) (hold : ∀ prev next stage, mode c = .switching prev next stage →
      undecided stage = true → state prev = .blocking →
      ∃ next' stage', m = .switching prev next' stage' ∧ undecided stage' = true) :
    Control pc state preempt (update mode c m) := by
  refine ⟨h.counter, h.blocks, fun c' prev next stage hm ha => ?_, h.blocked,
    fun u call hpc hb => ?_⟩
  · rcases update_eq hm with ⟨rfl, hit⟩ | ⟨hc, hm⟩
    · exact hnew prev next stage hit ha
    · exact h.switching c' prev next stage hm ha
  · obtain ⟨c', next, stage, hm, ha⟩ := h.resumed u call hpc hb
    by_cases hc : c' = c
    · subst hc
      obtain ⟨next', stage', hm', ha'⟩ := hold u next stage hm ha hb
      exact ⟨c', next', stage', by rw [update_self, hm'], ha'⟩
    · exact ⟨c', next, stage, by rw [update_of_ne hc, hm], ha⟩

end Control

end Control

section Moves

variable {place : Thr → Place Cpu Thr}

theorem runs_decided (hr : Runs sys s c t)
    (hp : PlacedIn sys place s) (c' : Cpu) (next : Thr)
    (stage : SwitchStage) (hm : s.mode c' = .switching t next stage) : undecided stage = false := by
  have hrun := runs_place hr hp
  by_contra ha
  have hi : place t ≠ .idle := by simp [hrun]
  simp only [undecided, Bool.not_eq_false, Bool.or_eq_true, decide_eq_true_eq] at ha
  rcases ha with rfl | hl
  · have hcc := hp.running_one hrun (hp.stage c' t next .popped hm).1
    rw [hcc, hr.mode] at hm
    cases hm
  · have hl' := hp.leaving_of hm hl hi
    rw [hrun] at hl'
    cases hl'

theorem runs_not_blocked (hr : Runs sys s c t)
    (hp : PlacedIn sys place s) : s.state t ≠ .blocked := by
  intro hb
  have hpb := (hp.located t).blocked.mpr hb
  rw [runs_place hr hp] at hpb
  cases hpb

variable {call : WaitCall Wq}

theorem resumed_not_blocks (h : ControlIn s) (hr : Runs sys s c t)
    (hp : PlacedIn sys place s)
    (hpc : s.pc t = .wait call .resumed) : ¬ Blocks (s.state t) := by
  rintro (hb | hb)
  · obtain ⟨c', next, stage, hm, ha⟩ := h.resumed t call hpc hb
    rw [runs_decided hr hp c' next stage hm] at ha
    cases ha
  · exact runs_not_blocked hr hp hb

theorem control_scheduled (hs : Scheduled sys s c s') (h : ControlIn s)
    (hm : s.mode c = .thread) : ControlIn s' := by
  have hold : ∀ m prev next stage, s.mode c = .switching prev next stage → undecided stage = true →
      s.state prev = .blocking → ∃ next' stage', m = Mode.switching prev next' stage' ∧
        undecided stage' = true := by
    intro m prev next stage hm'
    rw [hm] at hm'
    cases hm'
  cases hs with
  | stays _ => exact h
  | idles hz _ | switches hz _ =>
    refine h.setMode (fun prev next stage he _ => ?_) (hold _)
    cases he
    exact hz

variable {next : Thr}

theorem Control.block (h : Control pc state preempt mode) (hpc : pc t = .wait call .enabled)
    (hm : mode c = .thread) :
    Control (update pc t (.wait call .resumed)) state preempt
      (update mode c (.switching t next .popped)) := by
  have hz : preempt t = 0 := h.counter t call .enabled hpc
  refine ⟨fun u call' stage hu => ?_, fun u hu => ?_, fun c' prev next' stage hm' ha => ?_,
    h.blocked, fun u call' hu hb => ?_⟩
  · rcases update_eq hu with ⟨rfl, hit⟩ | ⟨hut, hu⟩
    · cases hit
      exact hz
    · exact h.counter u call' stage hu
  · by_cases hut : u = t
    · subst hut
      exact ⟨call, .resumed, update_self .., rfl⟩
    · rw [update_of_ne hut]
      exact h.blocks u hu
  · replace hm' := update_eq hm'
    rcases hm' with ⟨rfl, hm'⟩ | ⟨hc, hm'⟩
    · cases hm'
      exact hz
    · exact h.switching c' prev next' stage hm' ha
  · by_cases hut : u = t
    · subst hut
      exact ⟨c, next, .popped, update_self .., rfl⟩
    · rw [update_of_ne hut] at hu
      obtain ⟨c', next', stage, hm', ha⟩ := h.resumed u call' hu hb
      refine ⟨c', next', stage, ?_, ha⟩
      rw [update_of_ne]
      · exact hm'
      · rintro rfl
        rw [hm] at hm'
        cases hm'

section

variable (h : ControlIn s)
include h

theorem control_waits {stage : WaitStage} (hr : Runs sys s c t)
    (hp : PlacedIn sys place s)
    (hpc : s.pc t = .wait call stage) (hw : Waits sys s t call stage s') : ControlIn s' := by
  have hd := runs_decided hr hp
  have hnb := runs_not_blocked hr hp
  have hz := h.counter t call stage hpc
  have hb : mayBlock stage = false → ¬ Blocks (s.state t) := by
    intro hs hb
    obtain ⟨call', stage', hpc', hs'⟩ := h.blocks t hb
    rw [hpc] at hpc'
    cases hpc'
    rw [hs] at hs'
    cases hs'
  cases hw with
  | storeBlocking =>
    refine h.gotoState hd (by simp) (fun _ _ he => ?_) (fun _ => ⟨call, _, rfl, rfl⟩) (by simp)
    cases he
    exact hz
  | noWaitable _ | met _ _ | push _ _ _ | untimed _ | compute _ | insert =>
    refine h.goto hd hnb (fun _ _ he => ?_) (fun _ => ⟨call, _, rfl, rfl⟩) (by simp)
    cases he
    exact hz
  | storeRunning =>
    refine h.gotoState hd (by simp) (fun _ _ he => ?_) (fun hb => by simp [Blocks] at hb) (by simp)
    cases he
    exact hz
  | metReturn =>
    refine h.gotoPreempt hd hnb (fun _ _ he => ?_) (fun hb' => absurd hb' (hb rfl)) ?_
    · split at he <;> cases he
    · intro _ he
      split at he <;> cases he
  | enable =>
    refine h.gotoPreempt hd hnb (fun _ _ he => ?_) (fun _ => ⟨call, _, rfl, rfl⟩) (by simp)
    cases he
    rw [hz]
    rfl
  | cleanUntimed _ | cleanTimed _ =>
    have hres := resumed_not_blocks h hr hp hpc
    refine h.goto hd hnb (fun _ _ he => ?_) (fun hb' => absurd hb' hres) (by simp)
    cases he
    exact hz
  | returnTimer _ | returnWaitable _ _ =>
    refine h.goto hd hnb (fun _ _ he => ?_) (fun hb' => absurd hb' (hb rfl)) ?_
    · split at he <;> cases he
    · intro _ he
      split at he <;> cases he

theorem control_blocks (hr : Runs sys s c t) (hpc : s.pc t = .wait call .enabled)
    (hs : Scheduled sys (s.goto t (.wait call .resumed)) c s') : ControlIn s' := by
  have hz : s.preempt t = 0 := h.counter t call .enabled hpc
  obtain ⟨hm, rfl, hi⟩ := hr
  cases hs with
  | stays hst =>
    rcases hst with hst | hst
    · exact absurd hz (Nat.pos_iff_ne_zero.mp hst)
    · exact absurd hst hi
  | idles _ _ | switches _ _ => exact h.block hpc hm

theorem control_outside (hr : Runs sys s c t)
    (hp : PlacedIn sys place s) (hpc : s.pc t = .outside)
    (hw : Outside sys s c t s') : ControlIn s' := by
  have hd := runs_decided hr hp
  have hnb := runs_not_blocked hr hp
  have hb : ¬ Blocks (s.state t) := by
    intro hb
    obtain ⟨call, stage, he, -⟩ := h.blocks t hb
    rw [hpc] at he
    cases he
  have hcount : ∀ n, Control s.pc s.state (update s.preempt t n) s.mode := by
    intro n
    refine h.advance (fun _ _ => rfl) (fun _ _ => rfl) (fun u hu => update_of_ne hu ..) hd
      ?_ (fun hb' => absurd hb' hb) hnb ?_ <;> simp [hpc]
  cases hw with
  | wait _ _ hz =>
    refine h.gotoPreempt hd hnb (fun _ _ he => ?_) (fun hb' => absurd hb' hb) (by simp)
    cases he
    simp [hz, preemptOff]
  | wake _ => exact h.goto hd hnb (by simp) (fun hb' => absurd hb' hb) (by simp)
  | exit => exact h.gotoState hd (by simp) (by simp) (by simp [Blocks]) (by simp)
  | lock | unlock => exact hcount _
  | compute _ => exact h

variable {stage : SwitchStage} {prev : Thr}

theorem control_keep (hm : s.mode c = .switching prev next stage) (hu : undecided stage = true)
    (hu' : undecided stage' = true) :
    Control s.pc s.state s.preempt (update s.mode c (.switching prev next stage')) := by
  refine h.setMode (fun p n st he _ => ?_) (fun p n st he _ _ => ?_)
  · cases he
    exact h.switching c prev next stage hm hu
  · rw [hm] at he
    cases he
    exact ⟨next, stage', rfl, hu'⟩

theorem control_drop (hm : s.mode c = .switching prev next stage)
    (hu : undecided stage = true → s.state prev ≠ .blocking)
    (hu' : ∀ p n st, m = .switching p n st → undecided st = false) :
    Control s.pc s.state s.preempt (update s.mode c m) := by
  refine h.setMode (fun p n st he ha => ?_) (fun p n st he ha hb => ?_)
  · rw [hu' p n st he] at ha
    cases ha
  · rw [hm] at he
    cases he
    exact absurd hb (hu ha)

theorem control_commit (hm : s.mode c = .switching prev next (.loaded st))
    (hb : s.state prev = .blocking) :
    Control s.pc (update s.state prev .blocked) s.preempt
      (update s.mode c (.switching prev next .disposed)) := by
  refine ⟨h.counter, fun u hu => ?_, fun c' p n stage hm' ha => ?_, fun u hu => ?_,
    fun u call hpc hu => ?_⟩
  · by_cases hup : u = prev
    · subst hup
      exact h.blocks u (.inl hb)
    · rw [update_of_ne hup] at hu
      exact h.blocks u hu
  · replace hm' := update_eq hm'
    rcases hm' with ⟨rfl, hm'⟩ | ⟨hc, hm'⟩
    · cases hm'
      cases ha
    · exact h.switching c' p n stage hm' ha
  · by_cases hup : u = prev
    · subst hup
      exact h.switching c u next _ hm rfl
    · rw [update_of_ne hup] at hu
      exact h.blocked u hu
  · have hup : u ≠ prev := by
      rintro rfl
      rw [update_self] at hu
      cases hu
    rw [update_of_ne hup] at hu
    obtain ⟨c', n, stage, hm', ha⟩ := h.resumed u call hpc hu
    refine ⟨c', n, stage, ?_, ha⟩
    rw [update_of_ne]
    · exact hm'
    · rintro rfl
      rw [hm] at hm'
      cases hm'
      exact hup rfl

theorem control_finalizes (hp : PlacedIn sys place s)
    (hm : s.mode c = .switching prev next stage) (hf : Finalizes sys s c prev next stage s') :
    ControlIn s' := by
  have hok := hp.stage c prev next stage hm
  have hsw : ∀ st, undecided st = false → ∀ p n st', Mode.switching prev next st =
      .switching p n st' → undecided st' = false := by
    rintro st hst p n st' he
    cases he
    exact hst
  cases hf with
  | setCurrent | keepIdle _ | load | commitFails _ _ | reaps => exact control_keep h hm rfl rfl
  | storeRunning _ | storeRunable => exact (control_keep h hm rfl rfl).restate (by simp [Blocks])
  | commit _ hb => exact control_commit h hm hb
  | leavesIdle =>
    have hst := (hp.located prev).idle_state.mp (hok.2.2.1.mp rfl)
    exact control_drop h hm (fun _ => by simp [hst]) (hsw _ rfl)
  | requeues => exact control_drop h hm (fun _ => by simp [hok.2]) (hsw _ rfl)
  | reapPush _ _ | reapWake _ _ =>
    have hst : s.state prev ≠ .blocking := by rcases hok.2.2 with he | he <;> simp [he]
    exact control_drop h hm (fun _ => hst) (hsw _ rfl)
  | loadTable => exact control_drop h hm (by simp [undecided, left]) (by simp)
  | _ => exact control_drop h hm (by simp [undecided, left]) (hsw _ rfl)

theorem control_move (hp : PlacedIn sys place s) (hm : Move sys s a s') : ControlIn s' := by
  have hfree : ∀ {t : Thr} {p : Pc Thr Wq}, s.pc t = p → (∀ call stage, p ≠ .wait call stage) →
      ¬ Blocks (s.state t) := by
    intro t p hpc hne hb
    obtain ⟨call, stage, he, -⟩ := h.blocks t hb
    exact hne call stage (hpc.symm.trans he)
  cases hm with
  | tick _ | timerPop _ _ _ _ | enqueue _ _ => exact h
  | irq hm | timerReturn hm _ => exact h.setMode (by simp) (by simp [hm])
  | exchange _ _ => exact h.restate (by simp [Blocks])
  | preempt hm hs => exact control_scheduled hs h hm
  | block hr hpc hs => exact control_blocks h hr hpc hs
  | leave hr hpc hs =>
    have hnb := hfree hpc (by simp)
    exact control_scheduled hs (h.goto (runs_decided hr hp) (runs_not_blocked hr hp) (by simp)
      (fun hb => absurd hb hnb) (by simp)) hr.mode
  | wait hr hpc hw => exact control_waits h hr hp hpc hw
  | wake hr hpc hw =>
    have hd := runs_decided hr hp
    have hnb := runs_not_blocked hr hp
    have hb := hfree hpc (by simp)
    cases hw with
    | enter | none _ | enable =>
      exact h.gotoPreempt hd hnb (by simp) (fun hb' => absurd hb' hb) (by simp)
    | done | pop _ | count _ =>
      exact h.goto hd hnb (by simp) (fun hb' => absurd hb' hb) (by simp)
  | reap hr hpc hw =>
    have hd := runs_decided hr hp
    have hnb := runs_not_blocked hr hp
    have hb := hfree hpc (by simp)
    cases hw with
    | wait hz =>
      refine h.gotoPreempt hd hnb (fun _ _ he => ?_) (fun hb' => absurd hb' hb) (by simp)
      cases he
      simp [hz, preemptOff]
    | none _ | pop _ _ => exact h.goto hd hnb (by simp) (fun hb' => absurd hb' hb) (by simp)
    | free _ hpe | skip _ hpe =>
      rcases hpe with rfl | ⟨part', rfl⟩ <;>
        exact h.goto hd hnb (by simp) (fun hb' => absurd hb' hb) (by simp)
  | outside hr hpc hw => exact control_outside h hr hp hpc hw
  | finalize hm hf => exact control_finalizes h hp hm hf

end

theorem control_initial (h : Initial sys s) : ControlIn s := by
  have hpc := h.not_waiting
  have hst : ∀ t, ¬ Blocks (s.state t) := by
    intro t
    by_cases ht : ∀ c, t ≠ sys.idle c
    · simp [Blocks, h.state t ht]
    · simp only [not_forall, not_not] at ht
      obtain ⟨c, rfl⟩ := ht
      simp [Blocks, h.idle_state c]
  refine ⟨fun t call stage he => absurd he (hpc t call stage), fun t hb => absurd hb (hst t),
    fun c prev next stage hm => ?_, fun t hb => absurd (.inr hb) (hst t),
    fun t call he => absurd he (hpc t call _)⟩
  rw [h.mode c] at hm
  cases hm

end Moves

end SchedControl
