import EvalynKernel.SchedRegistrations

/-! # Every thread has one place and no wake is lost

The invariants of the scheduler together, and what they say about a thread that is not an
idle thread: where it is linked, who holds it while it is linked nowhere, and that it is
not left blocked. -/
namespace SchedThreads

set_option linter.unusedSectionVars false

open Function SchedState SchedSteps SchedMoves SchedPlaces SchedControl SchedRegistrations

variable {Cpu Thr Wq : Type} [DecidableEq Cpu] [DecidableEq Thr] [DecidableEq Wq]
  {sys : System Cpu Thr Wq} {s s' : State Cpu Thr Wq} {c : Cpu} {t : Thr}

def Ends (p : Pc Thr Wq) : Prop := p = .exiting ∨ p = .exited

variable {a : Action Cpu Thr Wq}

section Exits

variable {pc : Thr → Pc Thr Wq} {state : Thr → ThreadState} {mode : Cpu → Mode Thr}
  {gone : List Thr}

/-- Only threads in `thread_exit` are reaped. -/
structure Exits (pc : Thr → Pc Thr Wq) (state : Thr → ThreadState) (mode : Cpu → Mode Thr)
    (gone : List Thr) : Prop where
  reaping : ∀ t, state t = .reaping → Ends (pc t)
  switching : ∀ c prev next stage, mode c = .switching prev next stage →
    stage = .loaded .reaping ∨ stage = .reaping → Ends (pc prev)
  gone : ∀ t ∈ gone, Ends (pc t)

abbrev ExitsIn (s : State Cpu Thr Wq) : Prop := Exits s.pc s.state s.mode (buried s.log)

variable {stage : SwitchStage} {prev next : Thr}

namespace Exits

section

variable (h : Exits pc state mode gone)
include h

theorem goto (hp : Ends (pc t) → Ends p) : Exits (update pc t p) state mode gone := by
  have hu : ∀ u, Ends (pc u) → Ends (update pc t p u) := by
    intro u he
    by_cases hut : u = t
    · subst hut
      rw [update_self]
      exact hp he
    · rwa [update_of_ne hut]
  exact ⟨fun u hs => hu u (h.reaping u hs),
    fun c prev next stage hm hs => hu prev (h.switching c prev next stage hm hs),
    fun u hg => hu u (h.gone u hg)⟩

theorem restate (hst : st = .reaping → Ends (pc t)) : Exits pc (update state t st) mode gone := by
  refine ⟨fun u hs => ?_, h.switching, h.gone⟩
  rcases update_eq hs with ⟨rfl, hit⟩ | ⟨hut, hs⟩
  · exact hst hit
  · exact h.reaping u hs

theorem setMode
    (hm : ∀ prev next stage, m = .switching prev next stage → stage = .loaded .reaping ∨ stage =
      .reaping → Ends (pc prev)) : Exits pc state (update mode c m) gone := by
  refine ⟨h.reaping, fun c' prev next stage hm' hs => ?_, h.gone⟩
  replace hm' := update_eq hm'
  rcases hm' with ⟨rfl, hm'⟩ | ⟨hc, hm'⟩
  · exact hm prev next stage hm' hs
  · exact h.switching c' prev next stage hm' hs

theorem restage (hs : stage ≠ .loaded .reaping ∧ stage ≠ .reaping) :
    Exits pc state (update mode c (.switching prev next stage)) gone := by
  refine h.setMode fun p n st he hst => ?_
  cases he
  exact absurd hst (not_or.mpr hs)

end

end Exits

theorem exits_scheduled (hs : Scheduled sys s c s') (h : ExitsIn s) : ExitsIn s' := by
  cases hs with
  | stays _ => exact h
  | idles _ _ | switches _ _ => exact h.restage (by simp)

theorem exits_finalizes (h : ExitsIn s)
    (hm : s.mode c = .switching prev next stage) (hf : Finalizes sys s c prev next stage s') :
    ExitsIn s' := by
  cases hf with
  | storeRunning _ | storeRunable | commit _ _ =>
    exact Exits.restate (h.restage (by simp)) (by simp)
  | load =>
    refine h.setMode fun p n st he hst => ?_
    cases he
    refine h.reaping prev ?_
    simpa using hst
  | reaps =>
    refine h.setMode fun p n st he hst => ?_
    cases he
    exact h.switching c prev next _ hm (.inl rfl)
  | reapPush _ _ | reapWake _ _ =>
    have hend := h.switching c prev next _ hm (.inr rfl)
    have h' : Exits s.pc s.state s.mode (prev :: buried s.log) :=
      ⟨h.reaping, h.switching, fun u hu => (List.mem_cons.mp hu).elim (· ▸ hend) (h.gone u)⟩
    exact h'.restage (by simp)
  | loadTable => exact h.setMode (by simp)
  | _ => exact h.restage (by simp)

theorem exits_move (h : ExitsIn s) (hm : Move sys s a s') : ExitsIn s' := by
  have hgo : ∀ {t : Thr} {p p' : Pc Thr Wq}, s.pc t = p → ¬ Ends p →
      Exits (update s.pc t p') s.state s.mode (buried s.log) :=
    fun hpc hp => h.goto fun he => absurd (hpc ▸ he) hp
  cases hm with
  | irq _ | timerReturn _ _ => exact h.setMode (by simp)
  | exchange _ _ => exact h.restate (by simp)
  | preempt _ hs => exact exits_scheduled hs h
  | block hr hpc hs => exact exits_scheduled hs (hgo hpc (by simp [Ends]))
  | leave hr hpc hs => exact exits_scheduled hs (h.goto fun _ => .inr rfl)
  | wait hr hpc hw =>
    cases hw with
    | storeBlocking | storeRunning => exact (hgo hpc (by simp [Ends])).restate (by simp)
    | _ => exact hgo hpc (by simp [Ends])
  | wake hr hpc hw | reap hr hpc hw => cases hw <;> exact hgo hpc (by simp [Ends])
  | outside hr hpc hw =>
    cases hw with
    | wait _ _ _ | wake _ => exact hgo hpc (by simp [Ends])
    | exit => exact (hgo hpc (by simp [Ends])).restate (by simp [Ends])
    | _ => exact h
  | finalize hm hf => exact exits_finalizes h hm hf
  | _ => exact h

theorem exits_initial (h : Initial sys s) : ExitsIn s := by
  refine ⟨fun t ht => ?_, fun c prev next stage hm => ?_, fun t ht => ?_⟩
  · by_cases hi : ∀ c, t ≠ sys.idle c
    · rw [h.state t hi] at ht
      cases ht
    · simp only [not_forall, not_not] at hi
      obtain ⟨c, rfl⟩ := hi
      rw [h.idle_state c] at ht
      cases ht
  · rw [h.mode c] at hm
    cases hm
  · rw [h.log] at ht
    cases ht

end Exits

structure Inv (sys : System Cpu Thr Wq) (s : State Cpu Thr Wq) : Prop where
  sound : Sound sys s
  control : ControlIn s
  calls : Calls sys s.pc
  registered : RegisteredIn s
  armed : ArmedIn s
  exits : ExitsIn s

theorem inv_initial (h : Initial sys s) : Inv sys s :=
  ⟨sound_initial h, control_initial h, calls_initial h, registered_initial h, armed_initial h,
    exits_initial h⟩

theorem inv_move (h : Inv sys s) (hm : Move sys s a s') : Inv sys s' := by
  obtain ⟨place, hp, -⟩ := h.sound.placed
  exact ⟨sound_move h.sound hm, control_move h.control hp hm, calls_move h.calls hm,
    registered_move h.calls h.registered hm, armed_move h.armed h.sound.hands h.control hp hm,
    exits_move h.exits hm⟩

theorem reachable_inv {ok : State Cpu Thr Wq → Action Cpu Thr Wq → Prop}
    (h : Reachable sys ok s) : Inv sys s :=
  reachable_invariant (fun _ => inv_initial) (fun _ _ _ _ hi _ _ => inv_move hi) h

/-- Who has a thread that is neither current nor blocked: a run queue, an agent between its
exchange and its enqueueing, or a CPU between `schedule` and the end of `schedule_finalize`. -/
inductive Holder (Cpu Thr : Type) where
  | queue (c : Cpu)
  | waker (a : Agent Cpu Thr)
  | switch (c : Cpu)
  deriving DecidableEq

def Holds (s : State Cpu Thr Wq) (t : Thr) : Holder Cpu Thr → Prop
  | .queue c => t ∈ s.queue c
  | .waker a => s.hand a = .awake t
  | .switch c => enteringOf (s.mode c) = some t ∨ leavingOf (s.mode c) = some t

section Places

variable {place : Thr → Place Cpu Thr}
  (hp : PlacedIn sys place s)

include hp

theorem holds_iff (hi : place t ≠ .idle) (x : Holder Cpu Thr) :
    Holds s t x ↔ match x with
      | .queue c => place t = .queued c
      | .waker a => place t = .held a
      | .switch c => place t = .entering c ∨ place t = .leaving c := by
  have hl := hp.located t
  cases x with
  | queue c => exact (hl.queued c).symm
  | waker a => exact (hl.held a).symm
  | switch c =>
    simp only [Holds, hl.entering c, hl.leaving c, hi, ne_eq, not_false_eq_true, and_true]

theorem holds_unique (hi : place t ≠ .idle) (hb : place t ≠ .blocked) (hr : place t ≠ .reaped)
    (hc : ∀ c, s.current c ≠ t) : ∃! x, Holds s t x := by
  have hrun : ∀ c, place t ≠ .running c := fun c he => hc c (((hp.located t).running c).mp he).1
  simp only [holds_iff hp hi]
  cases he : place t with
  | idle => exact absurd he hi
  | blocked => exact absurd he hb
  | reaped => exact absurd he hr
  | running c => exact absurd he (hrun c)
  | queued c =>
    refine ⟨.queue c, rfl, fun x hx => ?_⟩
    cases x with
    | queue c' => rw [Place.queued.inj hx]
    | waker a => cases hx
    | switch c' => rcases hx with hx | hx <;> cases hx
  | held a =>
    refine ⟨.waker a, rfl, fun x hx => ?_⟩
    cases x with
    | queue c' => cases hx
    | waker a' => rw [Place.held.inj hx]
    | switch c' => rcases hx with hx | hx <;> cases hx
  | entering c =>
    refine ⟨.switch c, .inl rfl, fun x hx => ?_⟩
    cases x with
    | queue c' | waker a' => cases hx
    | switch c' =>
      rcases hx with hx | hx
      · rw [Place.entering.inj hx]
      · cases hx
  | leaving c =>
    refine ⟨.switch c, .inr rfl, fun x hx => ?_⟩
    cases x with
    | queue c' | waker a' => cases hx
    | switch c' =>
      rcases hx with hx | hx
      · cases hx
      · rw [Place.leaving.inj hx]

end Places

theorem blocked_inserted (h : ControlIn s) (hb : s.state t = .blocked) :
    ∃ call stage, s.pc t = .wait call stage ∧ inserted stage = true := by
  obtain ⟨call, stage, hpc, hmay⟩ := h.blocks t (.inr hb)
  have hz := h.counter t call stage hpc
  rw [h.blocked t hb] at hz
  refine ⟨call, stage, hpc, ?_⟩
  cases stage <;> simp_all [preemptOff, mayBlock, inserted]

theorem valid_registers {stage : WaitStage} (h : PcOk sys t (.wait call stage)) :
    (∃ w, call.waitable = some w) ∨ call.timeout ≠ 0 := by
  rcases h.1 with ⟨-, rfl⟩ | ⟨-, hv, -⟩
  · exact .inl ⟨sys.reaperWaiter, rfl⟩
  · simp only [WaitCall.valid, Bool.and_eq_true, Bool.or_eq_true, bne_iff_ne] at hv
    exact hv.1.1.imp_left Option.isSome_iff_exists.mp

/-- Threads are linked once, held once and never left blocked, in every run. -/
theorem threads_placed (h : Reachable sys (fun _ _ => True) s) (ht : ∀ c, t ≠ sys.idle c) :
    (∀ c, (s.queue c).count t ≤ 1) ∧
    (∀ c c', t ∈ s.queue c → t ∈ s.queue c' → c = c') ∧
    (∀ c, t ∈ s.queue c → (∀ c', s.current c' ≠ t) ∧ s.state t ≠ .blocked) ∧
    (s.state t = .runable → (∀ c, s.current c ≠ t) → ¬ Ends (s.pc t) → ∃! x, Holds s t x) ∧
    ¬ (s.state t = .blocked ∧ (∀ w, s.token t ∉ s.waiters w) ∧ t ∉ s.timeouts ∧
      ∀ a, s.hand a ≠ .dequeued (s.token t)) := by
  have hinv := reachable_inv h
  obtain ⟨place, hp, hg⟩ := hinv.sound.placed
  have hl := hp.located t
  have hi : place t ≠ .idle := mt hl.idle.mp (by simpa using ht)
  refine ⟨fun c => List.nodup_iff_count_le_one.mp (hp.nodup c) t, fun c c' hc hc' => ?_,
    fun c hc => ⟨fun c' hc' => ?_, fun hb => ?_⟩, fun hst hcur hend => ?_, ?_⟩
  · have he := (hl.queued c).mpr hc
    rw [(hl.queued c').mpr hc'] at he
    exact (Place.queued.inj he).symm
  · have he := (hl.queued c).mpr hc
    rw [(hl.running c').mpr ⟨hc', hi⟩] at he
    cases he
  · have he := (hl.queued c).mpr hc
    rw [hl.blocked.mpr hb] at he
    cases he
  · refine holds_unique hp hi (fun hb => ?_) (fun hr => ?_) hcur
    · rw [hl.blocked.mp hb] at hst
      cases hst
    · exact hend (hinv.exits.gone t ((hg.reaped t).mp hr))
  · rintro ⟨hb, hw, hto, hh⟩
    obtain ⟨call, stage, hpc, hin⟩ := blocked_inserted hinv.control hb
    rcases valid_registers (hpc ▸ hinv.calls t) with ⟨w, hwq⟩ | h0
    · rcases hinv.armed.token t call stage w (.inr hb) hpc hwq (pushed_of_inserted hin) with
        hmem | ⟨a, ha⟩
      · exact hw w hmem
      · exact hh a ha
    · rcases hinv.armed.timeout t call stage (.inr hb) hpc h0 hin with hmem | ⟨a, ha⟩
      · exact hto hmem
      · exact hh a ha

section Machine

/-- Two CPUs with the idle threads 0 and 1, the reaper 2, and the user threads 3 and 4. -/
def machine : System (Fin 2) (Fin 5) (Fin 2) where
  idle c := c.castLE (by decide)
  user t := decide (3 ≤ t)
  reaper := 2
  reaperWaiter := 0
  idle_injective := by decide
  idle_kernel := by decide
  reaper_kernel := by decide
  reaper_not_idle := by decide

def boot (queue : Fin 2 → List (Fin 5)) : State (Fin 2) (Fin 5) (Fin 2) where
  clock := 0
  state t := if t < 2 then .idleThread else .runable
  pc t := if t = 2 then .reap .looping else .outside
  preempt _ := 0
  pending _ := 0
  wakeupTime _ := 0
  waits _ := 0
  calls _ := 0
  current c := c.castLE (by decide)
  queue := queue
  mode _ := .thread
  hand _ := .empty
  waiters _ := []
  timeouts := []
  reaperList := []
  reaperLock := none
  fpu _ := 0
  fpuSave _ := 0
  pageTable _ := none
  log := []

theorem boot_initial (hall : ∀ t, 2 ≤ t → ∃ c, t ∈ queue c) (hlow : ∀ c, ∀ t ∈ queue c, 2 ≤ t)
    (hone : ∀ c c' t, t ∈ queue c → t ∈ queue c' → c = c') (hnd : ∀ c, (queue c).Nodup) :
    Initial machine (boot queue) where
  clock := Nat.two_pow_pos 64
  idle_state := by
    dsimp only [boot]
    decide
  state := by
    dsimp only [boot]
    decide
  pc_reaper := rfl
  pc := by
    dsimp only [boot]
    decide
  preempt _ := rfl
  pending _ := rfl
  current _ := rfl
  queued t ht := hall t (by revert t; decide)
  queue_idle c c' hm := (by decide : ∀ c', ¬ 2 ≤ machine.idle c') c' (hlow c _ hm)
  queue_one := hone
  queue_nodup := hnd
  mode _ := rfl
  hand _ := rfl
  waiters _ := rfl
  timeouts := rfl
  reaperList := rfl
  reaperLock := rfl
  pageTable _ := rfl
  log := rfl

def queues (c : Fin 2) : List (Fin 5) := if c = 0 then [3] else [4, 2]

theorem queues_initial : Initial machine (boot queues) :=
  boot_initial (by decide) (by decide) (by decide) (by decide)

def goes (c : Fin 2) (n : ℕ) : List (Action (Fin 2) (Fin 5) (Fin 2)) :=
  List.replicate n (.cpu c .go)

/-- The timer interrupts an idle CPU, which switches to the first thread of its queue. -/
def dispatch (c : Fin 2) : List (Action (Fin 2) (Fin 5) (Fin 2)) := .irq c :: goes c 9

def blocks : List (Action (Fin 2) (Fin 5) (Fin 2)) :=
  dispatch 0 ++ .cpu 0 (.wait ⟨some 1, false, 0⟩) :: goes 0 10

theorem blocked_thread_registered : ∃ s, Reachable machine (fun _ _ => True) s ∧
    s.state 3 = .blocked ∧ ((∃ w, s.token 3 ∈ s.waiters w) ∨ 3 ∈ s.timeouts ∨
      ∃ a, s.hand a = .dequeued (s.token 3)) := by
  obtain ⟨s, hs, hb⟩ := run_reaches (p := fun s => s.state 3 = .blocked) queues_initial
    (meets_true blocks _) (by decide +kernel)
  have hb : s.state 3 = .blocked := by simpa using hb
  have h := (threads_placed hs (by decide : ∀ c, (3 : Fin 5) ≠ machine.idle c)).2.2.2.2
  refine ⟨s, hs, hb, ?_⟩
  by_contra hno
  simp only [not_or, not_exists] at hno
  exact h ⟨hb, hno⟩

end Machine

end SchedThreads
