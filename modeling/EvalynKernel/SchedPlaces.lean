import EvalynKernel.SchedMoves

/-! # Where a thread is

Every thread that is not an idle thread is in exactly one place: in a run queue, popped
from one by a CPU about to run it, current, switched away from and not yet disposed of,
woken by an agent that has yet to enqueue it, blocked, or handed to the reaper. -/
namespace SchedPlaces

set_option linter.unusedSectionVars false

open Function SchedState SchedSteps SchedMoves

variable {Cpu Thr Wq : Type} [DecidableEq Cpu] [DecidableEq Thr] [DecidableEq Wq]
  {sys : System Cpu Thr Wq} {s s' : State Cpu Thr Wq} {c : Cpu} {t : Thr}

variable {a : Agent Cpu Thr} {m : Mode Thr} {x : Hand Thr} {w : Wq}

section Hands

variable {pc : Thr → Pc Thr Wq} {mode : Cpu → Mode Thr} {hand : Agent Cpu Thr → Hand Thr}

/-- An agent with a thread in its hand is in the code that wakes it. -/
structure Hands (pc : Thr → Pc Thr Wq) (mode : Cpu → Mode Thr) (hand : Agent Cpu Thr → Hand Thr) :
    Prop where
  cpu : ∀ c, hand (.cpu c) ≠ .empty → (∃ time, mode c = .timer time) ∨
    ∃ prev next, mode c = .switching prev next .reapLocked
  thread : ∀ t, hand (.thread t) ≠ .empty → ∃ w threads woken,
    pc t = .wake w threads woken .popped ∨ pc t = .wake w threads woken .waking

namespace Hands

section

variable (h : Hands pc mode hand)
include h

theorem cpu_empty (hm : mode c = m) (ht : ∀ time, m ≠ .timer time)
    (hr : ∀ prev next, m ≠ .switching prev next .reapLocked) : hand (.cpu c) = .empty := by
  by_contra hne
  rcases h.cpu c hne with ⟨time, he⟩ | ⟨prev, next, he⟩
  · exact ht time (hm.symm.trans he)
  · exact hr prev next (hm.symm.trans he)

theorem thread_empty {p : Pc Thr Wq} (hpc : pc t = p)
    (hp : ∀ w threads woken, p ≠ .wake w threads woken .popped ∧
      p ≠ .wake w threads woken .waking) :
    hand (.thread t) = .empty := by
  by_contra hne
  obtain ⟨w, threads, woken, he | he⟩ := h.thread t hne
  · exact (hp w threads woken).1 (hpc.symm.trans he)
  · exact (hp w threads woken).2 (hpc.symm.trans he)

theorem goto (ht : hand (.thread t) = .empty) (p : Pc Thr Wq) :
    Hands (update pc t p) mode hand := by
  refine ⟨h.cpu, fun u hu => ?_⟩
  have hut : u ≠ t := fun he => hu (he ▸ ht)
  rw [update_of_ne hut]
  exact h.thread u hu

theorem setMode (hc : hand (.cpu c) = .empty) (m : Mode Thr) :
    Hands pc (update mode c m) hand := by
  refine ⟨fun c' hc' => ?_, h.thread⟩
  have hne : c' ≠ c := fun he => hc' (he ▸ hc)
  rw [update_of_ne hne]
  exact h.cpu c' hc'

theorem setHand (hcpu : ∀ c, a = .cpu c → x ≠ .empty → (∃ time, mode c = .timer time) ∨ ∃ prev next,
      mode c = .switching prev next .reapLocked)
    (hthread : ∀ t, a = .thread t → x ≠ .empty → ∃ w threads woken,
      pc t = .wake w threads woken .popped ∨ pc t = .wake w threads woken .waking) :
    Hands pc mode (update hand a x) := by
  refine ⟨fun c hc => ?_, fun u hu => ?_⟩
  · by_cases ha : Agent.cpu c = a
    · rw [ha, update_self] at hc
      exact hcpu c ha.symm hc
    · rw [update_of_ne ha] at hc
      exact h.cpu c hc
  · by_cases ha : Agent.thread u = a
    · rw [ha, update_self] at hu
      exact hthread u ha.symm hu
    · rw [update_of_ne ha] at hu
      exact h.thread u hu

theorem reset (ha : hand a ≠ .empty) : Hands pc mode (update hand a x) := by
  refine h.setHand (fun c hc _ => ?_) (fun u hu _ => ?_)
  · exact h.cpu c (hc ▸ ha)
  · exact h.thread u (hu ▸ ha)

end

end Hands

theorem hands_scheduled (hs : Scheduled sys s c s') (h : Hands s.pc s.mode s.hand)
    (hm : s.mode c = .thread) : Hands s'.pc s'.mode s'.hand := by
  have hc := h.cpu_empty hm (by simp) (by simp)
  cases hs with
  | stays _ => exact h
  | idles _ _ | switches _ _ => exact h.setMode hc _

section

variable (h : Hands s.pc s.mode s.hand)
include h

theorem hands_finalizes (hm : s.mode c = .switching prev next stage)
    (hs : Finalizes sys s c prev next stage s') : Hands s'.pc s'.mode s'.hand := by
  have hc : stage ≠ .reapLocked → s.hand (.cpu c) = .empty := fun hne =>
    h.cpu_empty hm (by simp) (by simp [hne])
  cases hs with
  | reapWake _ _ =>
    refine (h.setMode (hc (by simp)) (.switching prev next .reapLocked)).setHand
      (fun c' he _ => .inr ⟨prev, next, ?_⟩) (fun _ he => by cases he)
    cases he
    exact update_self ..
  | reapUnlock he => exact h.setMode he _
  | _ => exact h.setMode (hc (by simp)) _

theorem hands_wakes {stage : WakeStage} (hpc : s.pc t = .wake w threads woken stage)
    (hs : Wakes s t w threads woken stage s') : Hands s'.pc s'.mode s'.hand := by
  have he : stage ≠ .popped → stage ≠ .waking → s.hand (.thread t) = .empty := fun h1 h2 =>
    h.thread_empty hpc (by simp [h1, h2])
  cases hs with
  | enter | done | none _ => exact h.goto (he (by simp) (by simp)) _
  | count hh => exact h.goto hh _
  | pop _ =>
    refine (h.goto (he (by simp) (by simp)) _).setHand (fun _ he => by cases he) (fun u hu _ => ?_)
    cases hu
    exact ⟨w, threads, woken, .inl (update_self ..)⟩
  | enable =>
    refine ⟨h.cpu, fun u hu => ?_⟩
    by_cases hut : u = t
    · exact ⟨w, threads, woken, .inr (by subst hut; exact update_self ..)⟩
    · obtain ⟨w', threads', woken', hp⟩ := h.thread u hu
      exact ⟨w', threads', woken', by simpa [State.goto, State.enablePreemption, hut] using hp⟩

theorem hands_move {a : Action Cpu Thr Wq} (hm : Move sys s a s') :
    Hands s'.pc s'.mode s'.hand := by
  cases hm with
  | tick _ => exact h
  | irq hm => exact h.setMode (h.cpu_empty hm (by simp) (by simp)) _
  | timerPop hm _ _ _ =>
    refine h.setHand (fun c' he _ => ?_) (fun _ he => by cases he)
    cases he
    exact .inl ⟨_, hm⟩
  | timerReturn _ he => exact h.setMode he _
  | exchange _ hh | enqueue _ hh => exact h.reset (by simp [hh])
  | preempt hm hs => exact hands_scheduled hs h hm
  | block hr hpc hs | leave hr hpc hs =>
    exact hands_scheduled hs (h.goto (h.thread_empty hpc (by simp)) _) hr.mode
  | wait hr hpc hw | reap hr hpc hw =>
    have he := h.thread_empty hpc (by simp)
    cases hw <;> exact h.goto he _
  | wake hr hpc hw => exact hands_wakes h hpc hw
  | outside hr hpc hw =>
    have he := h.thread_empty hpc (by simp)
    cases hw <;> first | exact h | exact h.goto he _
  | finalize hm hf => exact hands_finalizes h hm hf

end

end Hands

inductive Place (Cpu Thr : Type) where
  | idle | blocked | reaped
  | queued (c : Cpu) | entering (c : Cpu) | running (c : Cpu) | leaving (c : Cpu)
  | held (a : Agent Cpu Thr)
  deriving DecidableEq

def Place.ready : Place Cpu Thr → Bool
  | .queued _ | .entering _ | .held _ => true
  | _ => false

/-- The previous thread has stopped being current and is not yet disposed of. -/
def left : SwitchStage → Bool
  | .current | .entered | .loaded _ | .requeue | .reaping => true
  | _ => false

def enteringOf : Mode Thr → Option Thr
  | .switching _ next .popped => some next
  | _ => none

def leavingOf : Mode Thr → Option Thr
  | .switching prev _ stage => if left stage then some prev else none
  | _ => none

variable {p : Place Cpu Thr} {place' : Thr → Place Cpu Thr}

section Placed

variable {place : Thr → Place Cpu Thr} {state : Thr → ThreadState} {current : Cpu → Thr}
  {queue : Cpu → List Thr} {mode : Cpu → Mode Thr} {hand : Agent Cpu Thr → Hand Thr}
  {prev next : Thr} {stage : SwitchStage}

/-- What `schedule_finalize` knows at each of its program points. -/
def StageOk (sys : System Cpu Thr Wq) (place : Thr → Place Cpu Thr) (state : Thr → ThreadState)
    (current : Cpu → Thr) (c : Cpu) (prev next : Thr) : SwitchStage → Prop
  | .popped => current c = prev ∧ (place next = .idle → next = sys.idle c)
  | .current => current c = next ∧ (place next ≠ .idle → state next = .runable)
  | .loaded st => current c = next ∧ st ≠ .blocked ∧ (st = .idleThread ↔ place prev = .idle) ∧
      (state prev = st ∨ state prev = .runable)
  | .requeue => current c = next ∧ state prev = .runable
  | .reaping => current c = next ∧ place prev ≠ .idle ∧
      (state prev = .reaping ∨ state prev = .runable)
  | _ => current c = next

/-- The place `p` of a thread agrees with its state word, the run queues, the CPUs and the
agents' hands. -/
structure Located (sys : System Cpu Thr Wq) (p : Place Cpu Thr) (t : Thr)
    (state : Thr → ThreadState) (current : Cpu → Thr) (queue : Cpu → List Thr)
    (mode : Cpu → Mode Thr) (hand : Agent Cpu Thr → Hand Thr) : Prop where
  idle : p = .idle ↔ ∃ c, t = sys.idle c
  idle_state : p = .idle ↔ state t = .idleThread
  queued : ∀ c, p = .queued c ↔ t ∈ queue c
  running : ∀ c, p = .running c ↔ current c = t ∧ p ≠ .idle
  entering : ∀ c, p = .entering c ↔ enteringOf (mode c) = some t ∧ p ≠ .idle
  leaving : ∀ c, p = .leaving c ↔ leavingOf (mode c) = some t ∧ p ≠ .idle
  held : ∀ a, p = .held a ↔ hand a = .awake t
  blocked : p = .blocked ↔ state t = .blocked
  ready : p.ready = true → state t = .runable

structure Placed (sys : System Cpu Thr Wq) (place : Thr → Place Cpu Thr)
    (state : Thr → ThreadState) (current : Cpu → Thr) (queue : Cpu → List Thr)
    (mode : Cpu → Mode Thr) (hand : Agent Cpu Thr → Hand Thr) : Prop where
  located : ∀ t, Located sys (place t) t state current queue mode hand
  nodup : ∀ c, (queue c).Nodup
  idle_current : ∀ c, place (current c) = .idle → current c = sys.idle c
  stage : ∀ c prev next stage, mode c = .switching prev next stage →
    StageOk sys place state current c prev next stage

abbrev PlacedIn (sys : System Cpu Thr Wq) (place : Thr → Place Cpu Thr) (s : State Cpu Thr Wq) :
    Prop := Placed sys place s.state s.current s.queue s.mode s.hand

variable {state' : Thr → ThreadState} {queue' : Cpu → List Thr} {hand' : Agent Cpu Thr → Hand Thr}
  {mode' : Cpu → Mode Thr}

/-- What is said about one thread depends only on what the components say about it. -/
theorem Located.congr (h : Located sys p t state current queue mode hand) (hs : state' t = state t)
    (hq : ∀ c, t ∈ queue' c ↔ t ∈ queue c) (hc : ∀ c, p ≠ .idle → (current' c = t ↔ current c = t))
    (he : ∀ c, p ≠ .idle → (enteringOf (mode' c) = some t ↔ enteringOf (mode c) = some t))
    (hl : ∀ c, p ≠ .idle → (leavingOf (mode' c) = some t ↔ leavingOf (mode c) = some t))
    (hh : ∀ a, hand' a = .awake t ↔ hand a = .awake t) :
    Located sys p t state' current' queue' mode' hand' where
  idle := h.idle
  idle_state := by rw [hs]; exact h.idle_state
  queued := fun c => by rw [hq]; exact h.queued c
  running := fun c => (h.running c).trans (and_congr_left fun hi => (hc c hi).symm)
  entering := fun c => (h.entering c).trans (and_congr_left fun hi => (he c hi).symm)
  leaving := fun c => (h.leaving c).trans (and_congr_left fun hi => (hl c hi).symm)
  held := fun a => by rw [hh]; exact h.held a
  blocked := by rw [hs]; exact h.blocked
  ready := by rw [hs]; exact h.ready

theorem StageOk.rewrite (h : StageOk sys place state current c prev next stage)
    (hprev : left stage = true → place prev ≠ .idle →
      state' prev = state prev ∨ state' prev = .runable)
    (hidle : place prev = .idle → state' prev = state prev)
    (hnext : stage = .current → place next ≠ .idle → state' next = .runable) :
    StageOk sys place state' current c prev next stage := by
  cases stage with
  | loaded st =>
    obtain ⟨hc, hb, hi, hst⟩ := h
    refine ⟨hc, hb, hi, ?_⟩
    by_cases hp : place prev = .idle
    · rwa [hidle hp]
    · rcases hprev rfl hp with he | he
      · rwa [he]
      · exact .inr he
  | requeue =>
    obtain ⟨hc, hst⟩ := h
    refine ⟨hc, ?_⟩
    by_cases hp : place prev = .idle
    · rwa [hidle hp]
    · rcases hprev rfl hp with he | he
      · rwa [he]
      · exact he
  | reaping =>
    obtain ⟨hc, hp, hst⟩ := h
    refine ⟨hc, hp, ?_⟩
    rcases hprev rfl hp with he | he
    · rwa [he]
    · exact .inr he
  | current => exact ⟨h.1, hnext rfl⟩
  | _ => exact h

theorem StageOk.replace (h : StageOk sys place state current c prev next stage)
    (hp : ∀ u, place' u = .idle ↔ place u = .idle) :
    StageOk sys place' state current c prev next stage := by
  cases stage <;> simp only [StageOk, ne_eq, hp] <;> exact h

theorem update_idle (hp : p ≠ .idle) (ht : place t ≠ .idle) (u : Thr) :
    update place t p u = .idle ↔ place u = .idle :=
  update_iff (· = Place.idle) (iff_of_false hp ht) u

theorem enteringOf_switching (hs : stage ≠ .popped) :
    enteringOf (.switching prev next stage) = none := by
  cases stage <;> first | rfl | exact absurd rfl hs

theorem ne_popped (hl : left stage = true) : stage ≠ .popped := by
  rintro rfl
  cases hl

namespace Placed

section Facts

variable (h : Placed sys place state current queue mode hand)

include h

theorem current_eq (hm : mode c = .switching prev next stage) (hs : stage ≠ .popped) :
    current c = next := by
  have hok := h.stage c prev next stage hm
  cases stage <;> first | exact absurd rfl hs | exact hok.1 | exact hok

theorem running_current (hc : current c ≠ sys.idle c) : place (current c) = .running c :=
  ((h.located _).running c).mpr ⟨rfl, fun hi => hc (h.idle_current c hi)⟩

theorem running_one (ht : place t = .running c) (hc : current c' = t) : c' = c := by
  have hr := ((h.located t).running c').mpr ⟨hc, by simp [ht]⟩
  rw [ht] at hr
  exact (Place.running.inj hr).symm

theorem leaving_of (hm : mode c = .switching prev next stage) (hl : left stage = true)
    (hi : place prev ≠ .idle) : place prev = .leaving c :=
  ((h.located prev).leaving c).mpr ⟨by simp [hm, leavingOf, hl], hi⟩

end Facts

section

variable (h : Placed sys place state current queue mode hand)
include h

variable {st : ThreadState}

theorem restate (hi : place t ≠ .idle) (hb : place t ≠ .blocked)
    (hr : (place t).ready = true → st = .runable) (hst : st ≠ .blocked ∧ st ≠ .idleThread)
    (hprev : ∀ c next stage, mode c = .switching t next stage → left stage = true →
      st = state t ∨ st = .runable)
    (hnext : ∀ c prev, mode c = .switching prev t .current → st = .runable) :
    Placed sys place (update state t st) current queue mode hand := by
  have hother : ∀ u, u ≠ t → update state t st u = state u := fun u hu =>
    update_of_ne hu ..
  refine ⟨fun u => ?_, h.nodup, h.idle_current, fun c prev next stage hm => ?_⟩
  · by_cases hu : u = t
    · subst hu
      refine { h.located u with idle_state := ?_, blocked := ?_, ready := ?_ }
      · simp [hi, hst.2]
      · simp [hb, hst.1]
      · rw [update_self]
        exact hr
    · exact (h.located u).congr (hother u hu) (fun _ => Iff.rfl) (fun _ _ => Iff.rfl)
        (fun _ _ => Iff.rfl) (fun _ _ => Iff.rfl) fun _ => Iff.rfl
  · refine (h.stage c prev next stage hm).rewrite (fun hl hp => ?_) (fun hp => ?_) fun hc hn => ?_
    · by_cases hu : prev = t
      · subst hu
        rw [update_self]
        exact hprev c next stage hm hl
      · exact .inl (hother prev hu)
    · exact hother prev fun hu => hi (hu ▸ hp)
    · subst hc
      by_cases hu : next = t
      · subst hu
        rw [update_self]
        exact hnext c prev hm
      · rw [hother next hu]
        exact (h.stage c prev next .current hm).2 hn

theorem write (ht : place t = .running c) (hm : mode c = .thread)
    (hst : st ≠ .blocked ∧ st ≠ .idleThread) :
    Placed sys place (update state t st) current queue mode hand := by
  refine h.restate (by simp [ht]) (by simp [ht]) (by simp [ht, Place.ready]) hst ?_ ?_
  · intro c' next stage hm' hl
    have hp := h.leaving_of hm' hl (by simp [ht])
    rw [ht] at hp
    cases hp
  · intro c' prev hm'
    have hcc := h.running_one ht (h.current_eq hm' (by simp))
    rw [hcc, hm] at hm'
    cases hm'

theorem exchange (hi : place t ≠ .idle) (hb : state t ≠ .blocked) :
    Placed sys place (update state t .runable) current queue mode hand :=
  h.restate hi (mt (h.located t).blocked.mp hb) (fun _ => rfl) (by simp) (fun _ _ _ _ _ => .inr rfl)
    (fun _ _ _ => rfl)

/-- The mode of a CPU changes without a change of the threads it holds. -/
theorem setMode (he : ∀ t, place t ≠ .idle → (enteringOf m = some t ↔ enteringOf (mode c) = some t))
    (hl : ∀ t, place t ≠ .idle → (leavingOf m = some t ↔ leavingOf (mode c) = some t))
    (hok : ∀ prev next stage, m = .switching prev next stage →
      StageOk sys place state current c prev next stage) :
    Placed sys place state current queue (update mode c m) hand := by
  refine ⟨fun u => ?_, h.nodup, h.idle_current, fun c' prev next stage hm => ?_⟩
  · refine (h.located u).congr rfl (fun _ => Iff.rfl) (fun _ _ => Iff.rfl) (fun c' hi => ?_)
      (fun c' hi => ?_) fun _ => Iff.rfl
    · exact update_iff (enteringOf · = some u) (he u hi) c'
    · exact update_iff (leavingOf · = some u) (hl u hi) c'
  · rcases update_eq hm with ⟨rfl, hit⟩ | ⟨hc, hm⟩
    · exact hok prev next stage hit
    · exact h.stage c' prev next stage hm

variable {stage' : SwitchStage}

theorem restage (hm : mode c = .switching prev next stage) (hl : left stage = true)
    (hl' : left stage' = true) (hok : StageOk sys place state current c prev next stage') :
    Placed sys place state current queue
      (update mode c (.switching prev next stage')) hand := by
  refine h.setMode (fun u _ => ?_) (fun u _ => ?_) ?_
  · rw [hm, enteringOf_switching (ne_popped hl), enteringOf_switching (ne_popped hl')]
  · rw [hm, leavingOf, leavingOf, if_pos hl, if_pos hl']
  · intro _ _ _ he
    cases he
    exact hok

theorem finish (hm : mode c = .switching prev next stage) (hs : stage ≠ .popped)
    (hp : left stage = true → place prev = .idle)
    (hnew : ∀ p n st, m = .switching p n st → n = next ∧ left st = false ∧ st ≠ .popped) :
    Placed sys place state current queue (update mode c m) hand := by
  have hcur := h.current_eq hm hs
  refine h.setMode (fun u _ => ?_) (fun u hu => ?_) fun p n st he => ?_
  · rw [hm, enteringOf_switching hs]
    cases m with
    | thread | timer _ => rfl
    | switching p n st => rw [enteringOf_switching (hnew p n st rfl).2.2]
  · have hold : leavingOf (mode c) ≠ some u := by
      rw [hm, leavingOf]
      split
      · rintro he
        cases he
        exact hu (hp ‹_›)
      · simp
    have hnone : leavingOf m = none := by
      cases m with
      | thread | timer _ => rfl
      | switching p n st => rw [leavingOf, (hnew p n st rfl).2.1, if_neg (by simp)]
    simp [hold, hnone]
  · obtain ⟨rfl, hl, hst⟩ := hnew p n st he
    cases st <;> first | exact absurd rfl hst | exact hcur | cases hl

theorem relocate (hi : place t ≠ .idle) (hp : p ≠ .idle) (hs : ∀ u, u ≠ t → state' u = state u)
    (hq : ∀ u, u ≠ t → ∀ c, u ∈ queue' c ↔ u ∈ queue c)
    (he : ∀ u, u ≠ t → ∀ c, enteringOf (mode' c) = some u ↔ enteringOf (mode c) = some u)
    (hl : ∀ u, u ≠ t → ∀ c, leavingOf (mode' c) = some u ↔ leavingOf (mode c) = some u)
    (hh : ∀ u, u ≠ t → ∀ a, hand' a = .awake u ↔ hand a = .awake u)
    (ht : Located sys p t state' current queue' mode' hand') (hnd : ∀ c, (queue' c).Nodup)
    (hstage : ∀ c prev next stage, mode' c = .switching prev next stage →
      StageOk sys (update place t p) state' current c prev next stage) :
    Placed sys (update place t p) state' current queue' mode' hand' := by
  refine ⟨fun u => ?_, hnd, fun c hc => ?_, hstage⟩
  · by_cases hu : u = t
    · subst hu
      rwa [update_self]
    · rw [update_of_ne hu]
      exact (h.located u).congr (hs u hu) (hq u hu) (fun _ _ => Iff.rfl) (fun c _ => he u hu c)
        (fun c _ => hl u hu c) (hh u hu)
  · exact h.idle_current c ((update_idle hp hi _).mp hc)

theorem toNext (hm : mode c = .thread) (hq : queue c = next :: rest) :
    Placed sys (update place next (.entering c)) state current
      (update queue c rest) (update mode c (.switching (current c) next .popped))
      hand := by
  have hp : place next = .queued c := ((h.located next).queued c).mpr (by simp [hq])
  have hloc := h.located next
  rw [hp] at hloc
  have hnd := h.nodup c
  rw [hq, List.nodup_cons] at hnd
  refine h.relocate (by simp [hp]) (by simp) (fun _ _ => rfl) ?_ ?_ ?_
    (fun _ _ _ => Iff.rfl) ?_ ?_ ?_
  · exact fun u hu => update_iff (u ∈ ·) (by simp [hq, hu])
  · exact fun u hu => update_iff (enteringOf · = some u) (by simp [hm, enteringOf, Ne.symm hu])
  · exact fun u _ => update_iff (leavingOf · = some u) (by simp [hm, leavingOf, left])
  · obtain ⟨h1, h2, h3, h4, h5, h6, h7, h8, h9⟩ := hloc
    constructor <;> grind [enteringOf, leavingOf, left, Place.ready]
  · exact (forall_update_iff queue fun _ l => l.Nodup).mpr ⟨hnd.2, fun c' _ => h.nodup c'⟩
  · intro c' prev next' stage hm'
    rcases update_eq hm' with ⟨rfl, hm'⟩ | ⟨hc, hm'⟩
    · cases hm'
      exact ⟨rfl, by simp⟩
    · exact (h.stage c' prev next' stage hm').replace (update_idle (by simp) (by simp [hp]))

theorem toIdle (hm : mode c = .thread) :
    Placed sys place state current queue
      (update mode c (.switching (current c) (sys.idle c) .popped)) hand := by
  have hidle : place (sys.idle c) = .idle := (h.located _).idle.mpr ⟨c, rfl⟩
  refine h.setMode (fun u hu => ?_) (fun u _ => ?_) ?_
  · have hne : sys.idle c ≠ u := fun he => hu (he ▸ hidle)
    simp [hm, enteringOf, hne]
  · simp [hm, leavingOf, left]
  · rintro _ _ _ he
    cases he
    exact ⟨rfl, fun _ => rfl⟩

theorem hold (hb : state t = .blocked) (ha : ∀ u, hand a ≠ .awake u) :
    Placed sys (update place t (.held a)) (update state t .runable) current queue
      mode (update hand a (.awake t)) := by
  have hp : place t = .blocked := (h.located t).blocked.mpr hb
  have hloc := h.located t
  rw [hp] at hloc
  have hi : place t ≠ .idle := by simp [hp]
  refine h.relocate hi (by simp) (fun u hu => update_of_ne hu ..) (fun _ _ _ => Iff.rfl)
    (fun _ _ _ => Iff.rfl) (fun _ _ _ => Iff.rfl) ?_ ?_ h.nodup ?_
  · exact fun u hu => update_iff (· = Hand.awake u) (by simp [Ne.symm hu, ha])
  · obtain ⟨h1, h2, h3, h4, h5, h6, h7, h8, h9⟩ := hloc
    constructor <;> grind [Place.ready]
  · intro c prev next stage hm
    refine ((h.stage c prev next stage hm).replace (update_idle (by simp) hi)).rewrite ?_ ?_ ?_
    · intro _ _
      by_cases hu : prev = t
      · subst hu
        exact .inr (update_self ..)
      · exact .inl (update_of_ne hu ..)
    · intro hp'
      refine update_of_ne ?_ ..
      rintro rfl
      simp at hp'
    · rintro rfl hn
      by_cases hu : next = t
      · subst hu
        exact update_self ..
      · rw [update_of_ne hu] at hn ⊢
        exact (h.stage c prev next .current hm).2 hn

theorem nodup_enqueued (ht : t ∉ queue c) (c' : Cpu) :
    (update queue c (queue c ++ [t]) c').Nodup := by
  refine (forall_update_iff queue fun _ l => l.Nodup).mpr ⟨?_, fun c' _ => h.nodup c'⟩ c'
  rw [← List.concat_eq_append]
  exact (h.nodup c).concat ht

theorem enqueue (ha : hand a = .awake t) :
    Placed sys (update place t (.queued c)) state current
      (update queue c (queue c ++ [t])) mode (update hand a .empty) := by
  have hp : place t = .held a := ((h.located t).held a).mpr ha
  have hloc := h.located t
  rw [hp] at hloc
  have hi : place t ≠ .idle := by simp [hp]
  have hnq : t ∉ queue c := by simp [← (h.located t).queued c, hp]
  refine h.relocate hi (by simp) (fun _ _ => rfl) ?_ (fun _ _ _ => Iff.rfl) (fun _ _ _ => Iff.rfl)
    ?_ ?_ ?_ ?_
  · exact fun u hu => update_iff (u ∈ ·) (by simp [hu])
  · exact fun u hu => update_iff (· = Hand.awake u) (by simp [ha, Ne.symm hu])
  · obtain ⟨h1, h2, h3, h4, h5, h6, h7, h8, h9⟩ := hloc
    constructor <;> grind [Place.ready]
  · exact h.nodup_enqueued hnq
  · intro c' prev next stage hm
    exact (h.stage c' prev next stage hm).replace (update_idle (by simp) hi)

theorem dispose (hm : mode c = .switching prev next stage) (hl : left stage = true)
    (hl' : left stage' = false) (hp' : stage' ≠ .popped) (hi : place prev ≠ .idle)
    (hp : p = .blocked ∨ p = .reaped ∨ p = .queued c) (hs : ∀ u, u ≠ prev → state' u = state u)
    (hq : ∀ u, u ≠ prev → ∀ c, u ∈ queue' c ↔ u ∈ queue c) (hnd : ∀ c, (queue' c).Nodup)
    (hst : state' prev ≠ .idleThread) (hqp : ∀ c, p = .queued c ↔ prev ∈ queue' c)
    (hb : p = .blocked ↔ state' prev = .blocked) (hr : p.ready = true → state' prev = .runable) :
    Placed sys (update place prev p) state' current queue'
      (update mode c (.switching prev next stage')) hand := by
  have hpl : place prev = .leaving c := h.leaving_of hm hl hi
  have hloc := h.located prev
  rw [hpl] at hloc
  have hcur : current c = next := h.current_eq hm (ne_popped hl)
  have hpi : p ≠ .idle := by rcases hp with rfl | rfl | rfl <;> simp
  have hent : enteringOf (.switching prev next stage') = none := enteringOf_switching hp'
  have hlea : leavingOf (.switching prev next stage') = none := by simp [leavingOf, hl']
  refine h.relocate hi hpi hs hq ?_ ?_ (fun _ _ _ => Iff.rfl) ?_ hnd ?_
  · refine fun u _ => update_iff (enteringOf · = some u) ?_
    rw [hent, hm, enteringOf_switching (ne_popped hl)]
  · refine fun u hu => update_iff (leavingOf · = some u) ?_
    rw [hlea, hm, leavingOf, if_pos hl]
    simp [Ne.symm hu]
  · obtain ⟨h1, h2, h3, h4, h5, h6, h7, h8, h9⟩ := hloc
    rcases hp with rfl | rfl | rfl <;> constructor <;> grind
  · intro c' prev' next' st hm'
    replace hm' := update_eq hm'
    rcases hm' with ⟨rfl, hm'⟩ | ⟨hc, hm'⟩
    · cases hm'
      cases stage' <;> first | exact absurd rfl hp' | exact hcur | cases hl'
    · refine ((h.stage c' prev' next' st hm').replace (update_idle hpi hi)).rewrite ?_ ?_ ?_
      · intro hls _
        refine .inl (hs prev' ?_)
        rintro rfl
        have := h.leaving_of hm' hls hi
        rw [hpl] at this
        exact hc (Place.leaving.inj this).symm
      · intro hidle
        refine hs prev' ?_
        rintro rfl
        rw [update_self] at hidle
        exact hpi hidle
      · rintro rfl hn
        have hne : next' ≠ prev := by
          rintro rfl
          have hrun := ((h.located next').running c').mpr ⟨h.current_eq hm' (by simp), hi⟩
          rw [hpl] at hrun
          cases hrun
        rw [hs next' hne]
        rw [update_of_ne hne] at hn
        exact (h.stage c' prev' next' .current hm').2 hn

end

/-- The places after `CPU_LOCAL_SET_CURRENT_THREAD(next)`. -/
def swapped (place : Thr → Place Cpu Thr) (c : Cpu) (prev next u : Thr) : Place Cpu Thr :=
  if place u = .idle then .idle
  else if u = next then .running c
  else if u = prev then .leaving c
  else place u

theorem swapped_idle (u : Thr) : swapped place c prev next u = .idle ↔ place u = .idle := by
  unfold swapped
  split <;> rename_i hi
  · simp [hi]
  · split
    · simp [hi]
    · split <;> simp [hi]

section

variable (h : Placed sys place state current queue mode hand)
include h

theorem swapped_reaped (hm : mode c = .switching prev next .popped) (u : Thr) :
    swapped place c prev next u = .reaped ↔ place u = .reaped := by
  unfold swapped
  split <;> rename_i hi
  · simp [hi]
  · split
    · subst u
      simp [((h.located next).entering c).mpr ⟨by simp [hm, enteringOf], hi⟩]
    · split
      · subst u
        simp [((h.located prev).running c).mpr ⟨(h.stage c prev next .popped hm).1, hi⟩]
      · rfl

theorem setCurrent (hm : mode c = .switching prev next .popped) :
    Placed sys (swapped place c prev next) state (update current c next) queue
      (update mode c (.switching prev next .current)) hand := by
  obtain ⟨hcur, hnext⟩ := h.stage c prev next .popped hm
  have hrun : place prev ≠ .idle → place prev = .running c := fun hi =>
    ((h.located prev).running c).mpr ⟨hcur, hi⟩
  have hent : place next ≠ .idle → place next = .entering c := fun hi =>
    ((h.located next).entering c).mpr ⟨by simp [hm, enteringOf], hi⟩
  refine ⟨fun u => ?_, h.nodup, fun c' hc' => ?_, fun c' p n st hm' => ?_⟩
  · have hloc := h.located u
    by_cases hi : place u = .idle
    · rw [hi] at hloc
      rw [swapped, if_pos hi]
      exact hloc.congr rfl (fun _ => Iff.rfl) (fun _ hn => absurd rfl hn)
        (fun _ hn => absurd rfl hn) (fun _ hn => absurd rfl hn) fun _ => Iff.rfl
    by_cases hn : u = next
    · subst hn
      rw [hent hi] at hloc
      rw [swapped, if_neg hi, if_pos rfl]
      have hpu : prev ≠ u := by
        rintro rfl
        have := hrun hi
        rw [hent hi] at this
        cases this
      obtain ⟨h1, h2, h3, h4, h5, h6, h7, h8, h9⟩ := hloc
      constructor <;> grind [enteringOf, leavingOf, left, Place.ready]
    by_cases hp : u = prev
    · subst hp
      rw [hrun hi] at hloc
      rw [swapped, if_neg hi, if_neg hn, if_pos rfl]
      obtain ⟨h1, h2, h3, h4, h5, h6, h7, h8, h9⟩ := hloc
      constructor <;> grind [enteringOf, leavingOf, left, Place.ready]
    · rw [swapped, if_neg hi, if_neg hn, if_neg hp]
      refine hloc.congr rfl (fun _ => Iff.rfl) (fun c' _ => ?_) (fun c' _ => ?_) (fun c' _ => ?_)
        fun _ => Iff.rfl
      all_goals
        by_cases hc : c' = c
        · subst hc
          simp [hm, hcur, enteringOf, leavingOf, left, Ne.symm hn, Ne.symm hp]
        · rw [update_of_ne hc]
  · rw [swapped_idle] at hc'
    by_cases hc : c' = c
    · subst hc
      rw [update_self] at hc' ⊢
      exact hnext hc'
    · rw [update_of_ne hc] at hc' ⊢
      exact h.idle_current c' hc'
  · replace hm' := update_eq hm'
    rcases hm' with ⟨rfl, hm'⟩ | ⟨hc, hm'⟩
    · cases hm'
      refine ⟨update_self .., fun hi => (h.located next).ready ?_⟩
      rw [ne_eq, swapped_idle] at hi
      rw [hent hi]
      rfl
    · have hok : StageOk sys (swapped place c prev next) state current c' p n st :=
        (h.stage c' p n st hm').replace swapped_idle
      cases st <;> simp only [StageOk, update_of_ne hc] at hok ⊢ <;> exact hok

theorem setHand (ha : ∀ u, hand a ≠ .awake u) (hx : ∀ u, x ≠ .awake u) :
    Placed sys place state current queue mode (update hand a x) := by
  refine ⟨fun u => ?_, h.nodup, h.idle_current, h.stage⟩
  refine (h.located u).congr rfl (fun _ => Iff.rfl) (fun _ _ => Iff.rfl) (fun _ _ => Iff.rfl)
    (fun _ _ => Iff.rfl) (update_iff (· = Hand.awake u) (by simp [ha, hx]))

theorem setTimer (hold : ∀ prev next stage, mode c ≠ .switching prev next stage)
    (hnew : ∀ prev next stage, m ≠ .switching prev next stage) :
    Placed sys place state current queue (update mode c m) hand := by
  have hnone : ∀ m' : Mode Thr, (∀ prev next stage, m' ≠ .switching prev next stage) →
      enteringOf m' = none ∧ leavingOf m' = none := by
    intro m' hm'
    cases m' with
    | switching prev next stage => exact absurd rfl (hm' prev next stage)
    | _ => exact ⟨rfl, rfl⟩
  refine h.setMode (fun u _ => ?_) (fun u _ => ?_) fun prev next stage he =>
    absurd he (hnew prev next stage)
  · rw [(hnone _ hold).1, (hnone _ hnew).1]
  · rw [(hnone _ hold).2, (hnone _ hnew).2]

end

end Placed

/-- Tokens and timeout nodes belong to threads that are not idle threads. -/
structure Tokens (sys : System Cpu Thr Wq) (hand : Agent Cpu Thr → Hand Thr)
    (waiters : Wq → List (Token Thr)) (timeouts : List Thr) : Prop where
  dequeued : ∀ a k, hand a = .dequeued k → ∀ c, k.thread ≠ sys.idle c
  waiters : ∀ w k, k ∈ waiters w → ∀ c, k.thread ≠ sys.idle c
  timeouts : ∀ t ∈ timeouts, ∀ c, t ≠ sys.idle c

namespace Tokens

variable {waiters : Wq → List (Token Thr)} {timeouts : List Thr}

section

variable (h : Tokens sys hand waiters timeouts)

include h

theorem setHand
    (hx : ∀ k, x = .dequeued k → ∀ c, k.thread ≠ sys.idle c) :
    Tokens sys (update hand a x) waiters timeouts := by
  refine ⟨fun b k hb => ?_, h.waiters, h.timeouts⟩
  rcases update_eq hb with ⟨rfl, hit⟩ | ⟨hba, hb⟩
  · exact hx k hit
  · exact h.dequeued b k hb

theorem setWaiters (hl : ∀ k ∈ l, k ∈ waiters w ∨ ∀ c, k.thread ≠ sys.idle c) :
    Tokens sys hand (update waiters w l) timeouts := by
  refine ⟨h.dequeued, fun w' k hk => ?_, h.timeouts⟩
  by_cases hw : w' = w
  · subst hw
    rw [update_self] at hk
    exact (hl k hk).elim (h.waiters w' k) id
  · rw [update_of_ne hw] at hk
    exact h.waiters w' k hk

theorem pop (hl : waiters w = k :: rest) :
    Tokens sys (update hand a (.dequeued k)) (update waiters w rest) timeouts := by
  refine (h.setWaiters fun k hk => .inl (hl ▸ List.mem_cons_of_mem _ hk)).setHand fun k hk => ?_
  cases hk
  exact h.waiters w _ (hl ▸ List.mem_cons_self)

theorem setTimeouts (hl : ∀ t ∈ l, t ∈ timeouts ∨ ∀ c, t ≠ sys.idle c) :
    Tokens sys hand waiters l :=
  ⟨h.dequeued, h.waiters, fun t ht => (hl t ht).elim (h.timeouts t) id⟩

end

end Tokens

end Placed

section Moves

def buried (log : List (Event Cpu Thr Wq)) : List Thr :=
  log.filterMap fun
    | .reaped t => some t
    | _ => none

/-- The reaped threads are those pushed on `reaper_list`, each once. -/
structure Buried (place : Thr → Place Cpu Thr) (gone : List Thr) : Prop where
  reaped : ∀ t, place t = .reaped ↔ t ∈ gone
  nodup : gone.Nodup

namespace Buried

variable {place : Thr → Place Cpu Thr} {gone : List Thr}

theorem congr (h : Buried place gone) (hp : ∀ u, place' u = .reaped ↔ place u = .reaped) :
    Buried place' gone :=
  ⟨fun u => (hp u).trans (h.reaped u), h.nodup⟩

theorem move (h : Buried place gone) (ht : place t ≠ .reaped) (hp : p ≠ .reaped) :
    Buried (update place t p) gone :=
  h.congr (update_iff (· = Place.reaped) (iff_of_false hp ht))

theorem reap (h : Buried place gone) (ht : place t ≠ .reaped) :
    Buried (update place t .reaped) (t :: gone) := by
  refine ⟨fun u => ?_, List.nodup_cons.mpr ⟨mt (h.reaped t).mpr ht, h.nodup⟩⟩
  by_cases hu : u = t
  · subst hu
    simp
  · rw [update_of_ne hu, h.reaped u]
    simp [hu]

end Buried

structure Sound (sys : System Cpu Thr Wq) (s : State Cpu Thr Wq) : Prop where
  hands : Hands s.pc s.mode s.hand
  tokens : Tokens sys s.hand s.waiters s.timeouts
  placed : ∃ place, PlacedIn sys place s ∧
    Buried place (buried s.log)

variable {place : Thr → Place Cpu Thr}

section

variable (hr : Runs sys s c t) (h : PlacedIn sys place s)

include hr h

theorem runs_place : place t = .running c := by
  have hi := hr.not_idle
  rw [← hr.current] at hi ⊢
  exact h.running_current hi

theorem runs_ne_idle (c' : Cpu) : t ≠ sys.idle c' := by
  intro he
  have hi := (h.located t).idle.mpr ⟨c', he⟩
  rw [runs_place hr h] at hi
  cases hi

end

theorem tokens_move {a : Action Cpu Thr Wq} (h : Tokens sys s.hand s.waiters s.timeouts)
    (hp : PlacedIn sys place s) (hm : Move sys s a s') :
    Tokens sys s'.hand s'.waiters s'.timeouts := by
  cases hm with
  | timerPop _ _ ht _ =>
    refine (h.setTimeouts fun u hu => .inl (List.mem_of_mem_erase hu)).setHand fun k hk => ?_
    cases hk
    exact h.timeouts _ ht
  | exchange _ hh =>
    refine h.setHand fun k hk => ?_
    split at hk <;> cases hk
  | enqueue _ hh => exact h.setHand fun k hk => by cases hk
  | preempt _ hs | block _ _ hs | leave _ _ hs => cases hs <;> exact h
  | wait hr hpc hw =>
    have hi := runs_ne_idle hr hp
    cases hw with
    | push hwq _ _ =>
      refine h.setWaiters fun k hk => ?_
      rcases List.mem_append.mp hk with hk | hk
      · exact .inl hk
      · rw [List.mem_singleton.mp hk]
        exact .inr hi
    | insert =>
      refine h.setTimeouts fun u hu => ?_
      rcases List.mem_cons.mp hu with rfl | hu
      · exact .inr hi
      · exact .inl hu
    | cleanTimed _ => exact h.setTimeouts fun u hu => .inl (List.mem_of_mem_erase hu)
    | returnWaitable _ _ => exact h.setWaiters fun k hk => .inl (List.mem_of_mem_erase hk)
    | _ => exact h
  | wake hr hpc hw =>
    cases hw with
    | pop hl => exact h.pop hl
    | _ => exact h
  | reap hr hpc hw | outside hr hpc hw => cases hw <;> exact h
  | finalize hm hf =>
    cases hf with
    | reapWake _ hl => exact h.pop hl
    | _ => exact h
  | _ => exact h

theorem placed_scheduled (hs : Scheduled sys s c s')
    (h : PlacedIn sys place s)
    (hb : Buried place (buried s.log)) (hm : s.mode c = .thread) :
    ∃ place', PlacedIn sys place' s' ∧
      Buried place' (buried s'.log) := by
  cases hs with
  | stays _ => exact ⟨place, h, hb⟩
  | idles _ _ => exact ⟨place, h.toIdle hm, hb⟩
  | switches _ hq =>
    refine ⟨_, h.toNext hm hq, hb.move ?_ (by simp)⟩
    rw [((h.located _).queued c).mpr (hq ▸ List.mem_cons_self)]
    simp

section

variable (h : PlacedIn sys place s)
include h

section

variable (hg : Buried place (buried s.log))

include hg

theorem placed_exchange {k : Token Thr}
    (ht : Tokens sys s.hand s.waiters s.timeouts) (hh : s.hand a = .dequeued k) :
    ∃ place', Placed sys place' (update s.state k.thread .runable) s.current s.queue s.mode
      (update s.hand a
        (if s.state k.thread = .blocked then .awake k.thread else .empty)) ∧
      Buried place' (buried s.log) := by
  have hnone : ∀ u, s.hand a ≠ .awake u := by simp [hh]
  by_cases hb : s.state k.thread = .blocked
  · rw [if_pos hb]
    refine ⟨_, h.hold hb hnone, hg.move ?_ (by simp)⟩
    rw [(h.located _).blocked.mpr hb]
    simp
  · rw [if_neg hb]
    refine ⟨place, (h.exchange ?_ hb).setHand hnone (by simp), hg⟩
    intro hi
    obtain ⟨c, hc⟩ := (h.located _).idle.mp hi
    exact ht.dequeued a k hh c hc

theorem placed_reaped (hm : s.mode c = .switching prev next .reaping)
    (hok : StageOk sys place s.state s.current c prev next .reaping) :
    Placed sys (update place prev .reaped) s.state s.current s.queue
      (update s.mode c (.switching prev next .reapLocked)) s.hand ∧
      Buried (update place prev .reaped) (prev :: buried s.log) := by
  have hpl := h.leaving_of hm rfl hok.2.1
  have hst : s.state prev ≠ .blocked ∧ s.state prev ≠ .idleThread := by
    rcases hok.2.2 with he | he <;> simp [he]
  refine ⟨?_, hg.reap (by simp [hpl])⟩
  exact h.dispose hm rfl rfl (by simp) hok.2.1 (.inr (.inl rfl)) (fun _ _ => rfl)
    (fun _ _ _ => Iff.rfl) h.nodup hst.2
    (fun c' => by rw [← (h.located prev).queued c', hpl]; simp) (by simp [hst.1])
    (by simp [Place.ready])

theorem placed_finalizes (hh : Hands s.pc s.mode s.hand)
    (hm : s.mode c = .switching prev next stage) (hs : Finalizes sys s c prev next stage s') :
    ∃ place', PlacedIn sys place' s' ∧
      Buried place' (buried s'.log) := by
  have hok := h.stage c prev next stage hm
  have hfin : ∀ st, left st = false → st ≠ .popped → ∀ p n st', Mode.switching prev next st =
      .switching p n st' → n = next ∧ left st' = false ∧ st' ≠ .popped := by
    rintro st h1 h2 p n st' he
    cases he
    exact ⟨rfl, h1, h2⟩
  cases hs with
  | setCurrent => exact ⟨_, h.setCurrent hm, hg.congr (h.swapped_reaped hm)⟩
  | keepIdle hi => exact ⟨place, h.restage hm rfl rfl hok.1, hg⟩
  | storeRunning hi =>
    have hni : place next ≠ .idle := mt (h.located next).idle_state.mp hi
    have hrun : place next = .running c := ((h.located next).running c).mpr ⟨hok.1, hni⟩
    have h' : Placed sys place s.state s.current s.queue
        (update s.mode c (.switching prev next .entered)) s.hand :=
      h.restage hm rfl rfl hok.1
    refine ⟨place, h'.restate hni (by simp [hrun]) (by simp [hrun, Place.ready]) (by simp) ?_ ?_,
      hg⟩
    · intro c' next' stage' hm' hl
      have hl' := h'.leaving_of hm' hl hni
      rw [hrun] at hl'
      cases hl'
    · intro c' prev' hm'
      have hcc := h'.running_one hrun (h'.current_eq hm' (by simp))
      rw [hcc, update_self] at hm'
      cases hm'
  | load =>
    refine ⟨place, h.restage hm rfl rfl ⟨hok, ?_, ?_, .inl rfl⟩, hg⟩
    · intro hb
      have hpb := (h.located prev).blocked.mpr hb
      have hpl := h.leaving_of hm rfl (by simp [hpb])
      rw [hpb] at hpl
      cases hpl
    · exact (h.located prev).idle_state.symm
  | storeRunable =>
    have hni : place prev ≠ .idle := mt hok.2.2.1.mpr (by simp)
    have hb : s.state prev ≠ .blocked := by
      intro hb
      have hst := hok.2.2.2
      simp [hb] at hst
    exact ⟨place, (h.exchange hni hb).restage hm rfl rfl ⟨hok.1, update_self ..⟩, hg⟩
  | commit hst hb =>
    have hni : place prev ≠ .idle := mt hok.2.2.1.mpr (by rcases hst with rfl | rfl <;> simp)
    have hpl := h.leaving_of hm rfl hni
    have h' : Placed sys (update place prev .blocked)
        (update s.state prev .blocked) s.current s.queue
        (update s.mode c (.switching prev next .disposed)) s.hand :=
      h.dispose hm rfl rfl (by simp) hni (.inl rfl) (fun u hu => update_of_ne hu ..)
        (fun _ _ _ => Iff.rfl) h.nodup (by simp)
        (fun c' => by rw [← (h.located prev).queued c', hpl]; simp) (by simp)
        (by simp [Place.ready])
    exact ⟨_, h', hg.move (by simp [hpl]) (by simp)⟩
  | commitFails hst hb =>
    refine ⟨place, h.restage hm rfl rfl ⟨hok.1, ?_⟩, hg⟩
    rcases hst with rfl | rfl
    · exact hok.2.2.2.resolve_left hb
    · exact hok.2.2.2.elim id id
  | reaps =>
    exact ⟨place, h.restage hm rfl rfl ⟨hok.1, mt hok.2.2.1.mpr (by simp), hok.2.2.2⟩, hg⟩
  | leavesIdle =>
    exact ⟨place, h.finish hm (by simp) (fun _ => hok.2.2.1.mp rfl) (hfin _ rfl (by simp)), hg⟩
  | requeues =>
    have hni : place prev ≠ .idle := by
      intro hi
      have hst := (h.located prev).idle_state.mp hi
      rw [hok.2] at hst
      cases hst
    have hpl := h.leaving_of hm rfl hni
    have hnq : prev ∉ s.queue c := by
      rw [← (h.located prev).queued c, hpl]
      simp
    have h' : Placed sys (update place prev (.queued c)) s.state s.current
        (update s.queue c (s.queue c ++ [prev]))
        (update s.mode c (.switching prev next .disposed)) s.hand := by
      refine h.dispose hm rfl rfl (by simp) hni (.inr (.inr rfl)) (fun _ _ => rfl) ?_ ?_
        (by simp [hok.2]) ?_ (by simp [hok.2]) (fun _ => hok.2)
      · exact fun u hu => update_iff (u ∈ ·) (by simp [hu])
      · exact h.nodup_enqueued hnq
      · intro c'
        by_cases hc : c' = c
        · subst hc
          simp
        · rw [update_of_ne hc, ← (h.located prev).queued c', hpl]
          simp [Ne.symm hc]
    exact ⟨_, h', hg.move (by simp [hpl]) (by simp)⟩
  | reapPush _ _ =>
    obtain ⟨h', hg'⟩ := placed_reaped h hg hm hok
    exact ⟨_, h', hg'⟩
  | reapWake _ _ =>
    obtain ⟨h', hg'⟩ := placed_reaped h hg hm hok
    have he := hh.cpu_empty hm (by simp) (by simp)
    exact ⟨_, h'.setHand (by simp [he]) (by simp), hg'⟩
  | reapUnlock _ | save _ | skipSave _ | restore _ | skipRestore _ =>
    exact ⟨place, h.finish hm (by simp) (by simp [left]) (hfin _ rfl (by simp)), hg⟩
  | loadTable => exact ⟨place, h.finish hm (by simp) (by simp [left]) (by simp), hg⟩

theorem placed_move {a : Action Cpu Thr Wq}
    (hh : Hands s.pc s.mode s.hand) (ht : Tokens sys s.hand s.waiters s.timeouts)
    (hm : Move sys s a s') :
    ∃ place', PlacedIn sys place' s' ∧
      Buried place' (buried s'.log) := by
  cases hm with
  | tick _ => exact ⟨place, h, hg⟩
  | irq hm | timerReturn hm _ => exact ⟨place, h.setTimer (by simp [hm]) (by simp), hg⟩
  | timerPop _ he _ _ => exact ⟨place, h.setHand (by simp [he]) (by simp), hg⟩
  | exchange _ hk => exact placed_exchange h hg ht hk
  | enqueue _ hk =>
    refine ⟨_, h.enqueue hk, hg.move ?_ (by simp)⟩
    rw [((h.located _).held _).mpr hk]
    simp
  | preempt hm hs => exact placed_scheduled hs h hg hm
  | block hr _ hs | leave hr _ hs => exact placed_scheduled hs h hg hr.mode
  | wait hr hpc hw =>
    have hrun := runs_place hr h
    cases hw with
    | storeBlocking | storeRunning => exact ⟨place, h.write hrun hr.mode (by simp), hg⟩
    | _ => exact ⟨place, h, hg⟩
  | wake hr hpc hw =>
    cases hw with
    | pop _ =>
      have he := hh.thread_empty hpc (by simp)
      exact ⟨place, h.setHand (by simp [he]) (by simp), hg⟩
    | _ => exact ⟨place, h, hg⟩
  | reap hr hpc hw => cases hw <;> exact ⟨place, h, hg⟩
  | outside hr hpc hw =>
    have hrun := runs_place hr h
    cases hw with
    | exit => exact ⟨place, h.write hrun hr.mode (by simp), hg⟩
    | _ => exact ⟨place, h, hg⟩
  | finalize hm hf => exact placed_finalizes h hg hh hm hf

end

end

open Classical in
theorem placed_initial (h : Initial sys s) :
    ∃ place, PlacedIn sys place s ∧
      Buried place (buried s.log) := by
  have hq : ∀ t, ∃ c, (∀ c', t ≠ sys.idle c') → t ∈ s.queue c := by
    intro t
    by_cases ht : ∀ c', t ≠ sys.idle c'
    · obtain ⟨c, hc⟩ := h.queued t ht
      exact ⟨c, fun _ => hc⟩
    · simp only [not_forall, not_not] at ht
      obtain ⟨c, rfl⟩ := ht
      exact ⟨c, fun hi => absurd rfl (hi c)⟩
  choose q hq using hq
  refine ⟨fun t => if ∀ c, t ≠ sys.idle c then .queued (q t) else .idle, ⟨fun t => ?_,
    h.queue_nodup, fun c _ => h.current c, fun c prev next stage hm => ?_⟩, ⟨fun t => ?_, ?_⟩⟩
  · by_cases ht : ∀ c, t ≠ sys.idle c
    · rw [if_pos ht]
      have hst := h.state t ht
      refine ⟨by simpa using ht, by simp [hst], fun c => ?_, fun c => ?_, fun c => ?_, fun c => ?_,
        fun a => ?_, by simp [hst], fun _ => hst⟩
      · refine ⟨fun he => ?_, fun hc => ?_⟩
        · rw [← Place.queued.inj he]
          exact hq t ht
        · rw [h.queue_one c (q t) t hc (hq t ht)]
      · simp [h.current c, Ne.symm (ht c)]
      · simp [h.mode c, enteringOf]
      · simp [h.mode c, leavingOf]
      · simp [h.hand a]
    · rw [if_neg ht]
      simp only [not_forall, not_not] at ht
      obtain ⟨c, rfl⟩ := ht
      refine ⟨by simp, by simp [h.idle_state c], fun c' => ?_, by simp, by simp, by simp,
        fun a => ?_, by simp [h.idle_state c], by simp [Place.ready]⟩
      · simp [h.queue_idle c' c]
      · simp [h.hand a]
  · rw [h.mode c] at hm
    cases hm
  · rw [h.log]
    split <;> simp [buried]
  · rw [h.log]
    exact List.nodup_nil

theorem sound_initial (h : Initial sys s) : Sound sys s := by
  refine ⟨⟨fun c hc => absurd (h.hand _) hc, fun t ht => absurd (h.hand _) ht⟩,
    ⟨fun a k hk => ?_, fun w k hk => ?_, fun t ht => ?_⟩, placed_initial h⟩
  · rw [h.hand a] at hk
    cases hk
  · rw [h.waiters w] at hk
    cases hk
  · rw [h.timeouts] at ht
    cases ht

theorem sound_move {a : Action Cpu Thr Wq} (h : Sound sys s) (hm : Move sys s a s') :
    Sound sys s' := by
  obtain ⟨place, hp, hg⟩ := h.placed
  exact ⟨hands_move h.hands hm, tokens_move h.tokens hp hm, placed_move hp hg h.hands h.tokens hm⟩

end Moves

end SchedPlaces
