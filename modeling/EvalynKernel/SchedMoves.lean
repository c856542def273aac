import EvalynKernel.SchedSteps

/-! # What a step can do

Every step of the machine is one of the moves below. The invariants are proved over the
moves and do not look at the step functions again. -/
namespace SchedMoves

set_option linter.unusedSectionVars false

open SchedState SchedSteps

variable {Cpu Thr Wq : Type} [DecidableEq Cpu] [DecidableEq Thr] [DecidableEq Wq]

section Moves

variable (sys : System Cpu Thr Wq) (s : State Cpu Thr Wq)

structure Runs (c : Cpu) (t : Thr) : Prop where
  mode : s.mode c = .thread
  current : s.current c = t
  not_idle : t ≠ sys.idle c

inductive Working : Agent Cpu Thr → Cpu → Prop where
  | timer {c time} : s.mode c = .timer time → Working (.cpu c) c
  | reaping {c prev next} : s.mode c = .switching prev next .reapLocked → Working (.cpu c) c
  | waking {c t w threads woken} : Runs sys s c t → s.pc t = .wake w threads woken .waking →
      Working (.thread t) c

inductive Scheduled (c : Cpu) : State Cpu Thr Wq → Prop where
  | stays : 0 < s.preempt (s.current c) ∨ s.current c = sys.idle c → Scheduled c s
  | idles : s.preempt (s.current c) = 0 → s.current c ≠ sys.idle c →
      Scheduled c (s.setMode c (.switching (s.current c) (sys.idle c) .popped))
  | switches {next rest} : s.preempt (s.current c) = 0 → s.queue c = next :: rest →
      Scheduled c { s with
        queue := Function.update s.queue c rest
        mode := Function.update s.mode c (.switching (s.current c) next .popped) }

/-- The moves of the switch from `prev` to `next` on CPU `c`. -/
inductive Finalizes (c : Cpu) (prev next : Thr) : SwitchStage → State Cpu Thr Wq → Prop where
  | setCurrent : Finalizes c prev next .popped ({ s with
      current := Function.update s.current c next
      log := .ran next :: .left prev (s.fpu c) :: s.log }.setMode c (.switching prev next .current))
  | keepIdle : s.state next = .idleThread →
      Finalizes c prev next .current (s.setMode c (.switching prev next .entered))
  | storeRunning : s.state next ≠ .idleThread → Finalizes c prev next .current
      ((s.write next .running).setMode c (.switching prev next .entered))
  | load : Finalizes c prev next .entered
      (s.setMode c (.switching prev next (.loaded (s.state prev))))
  | storeRunable : Finalizes c prev next (.loaded .running)
      ((s.write prev .runable).setMode c (.switching prev next .requeue))
  | commit {st} : st = .blocking ∨ st = .runable → s.state prev = .blocking →
      Finalizes c prev next (.loaded st) (((s.write prev .blocked).note (.committed prev)).setMode c
        (.switching prev next .disposed))
  | commitFails {st} : st = .blocking ∨ st = .runable → s.state prev ≠ .blocking →
      Finalizes c prev next (.loaded st) (s.setMode c (.switching prev next .requeue))
  | reaps : Finalizes c prev next (.loaded .reaping) (s.setMode c (.switching prev next .reaping))
  | leavesIdle : Finalizes c prev next (.loaded .idleThread)
      (s.setMode c (.switching prev next .disposed))
  | requeues : Finalizes c prev next .requeue
      ((s.enqueueThread c prev).setMode c (.switching prev next .disposed))
  | reapPush : s.reaperLock = none → s.waiters sys.reaperWaiter = [] →
      Finalizes c prev next .reaping ({ s with
        reaperList := s.reaperList ++ [prev]
        reaperLock := some c
        log := .reaped prev :: s.log }.setMode c (.switching prev next .reapLocked))
  | reapWake {k rest} : s.reaperLock = none → s.waiters sys.reaperWaiter = k :: rest →
      Finalizes c prev next .reaping ({ s with
        reaperList := s.reaperList ++ [prev]
        reaperLock := some c
        waiters := Function.update s.waiters sys.reaperWaiter rest
        hand := Function.update s.hand (.cpu c) (.dequeued k)
        log := .roused k :: .reaped prev :: s.log }.setMode c (.switching prev next .reapLocked))
  | reapUnlock : s.hand (.cpu c) = .empty → Finalizes c prev next .reapLocked
      ({ s with reaperLock := none }.setMode c (.switching prev next .disposed))
  | save : sys.user prev = true → Finalizes c prev next .disposed ({ s with
      fpuSave := Function.update s.fpuSave prev (s.fpu c)
      log := .saved prev (s.fpu c) :: .used prev :: s.log }.setMode c (.switching prev next .saved))
  | skipSave : sys.user prev = false → Finalizes c prev next .disposed
      ((s.note (.used prev)).setMode c (.switching prev next .saved))
  | restore : sys.user next = true → Finalizes c prev next .saved ({ s with
      fpu := Function.update s.fpu c (s.fpuSave next)
      log := .restored next (s.fpuSave next) :: s.log }.setMode c (.switching prev next .restored))
  | skipRestore : sys.user next = false →
      Finalizes c prev next .saved (s.setMode c (.switching prev next .restored))
  | loadTable : Finalizes c prev next .restored ({ s with
      pageTable := Function.update s.pageTable c (if sys.user next then some next else none)
      }.setMode c .thread)

inductive Waits (t : Thr) (call : WaitCall Wq) : WaitStage → State Cpu Thr Wq → Prop where
  | storeBlocking : Waits t call .entered
      ((s.write t .blocking).goto t (.wait call .storedBlocking))
  | noWaitable : call.waitable = none →
      Waits t call .storedBlocking (s.goto t (.wait call .enqueued))
  | met {w choice} : call.waitable = some w → conditionHolds sys s call w choice = true →
      Waits t call .storedBlocking (s.goto t (.wait call .conditionMet))
  | push {w choice} : call.waitable = some w → lockFree sys s w = true →
      conditionHolds sys s call w choice = false →
      Waits t call .storedBlocking (((s.setWaiters w (s.waiters w ++ [s.token t])).note
        (.pushed w (s.token t))).goto t (.wait call .enqueued))
  | storeRunning : Waits t call .conditionMet
      ((s.write t .running).goto t (.wait call .storedRunning))
  | metReturn : Waits t call .storedRunning
      (waitReturn sys (s.enablePreemption t) t call .conditionMet)
  | untimed : call.timeout = 0 → Waits t call .enqueued (s.goto t (.wait call .registered))
  | compute : call.timeout ≠ 0 → Waits t call .enqueued ({ s with
      wakeupTime := Function.update s.wakeupTime t ((call.timeout + s.clock) % 2 ^ 64)
      log := .timed (s.token t) call.timeout s.clock :: s.log }.goto t (.wait call .computed))
  | insert : Waits t call .computed
      ({ s with timeouts := t :: s.timeouts }.goto t (.wait call .registered))
  | enable : Waits t call .registered ((s.enablePreemption t).goto t (.wait call .enabled))
  | cleanUntimed : call.timeout = 0 →
      Waits t call .resumed (s.goto t (.wait call (.cleaned false)))
  | cleanTimed : call.timeout ≠ 0 → Waits t call .resumed
      ({ s with timeouts := s.timeouts.erase t }.goto t
        (.wait call (.cleaned (decide (t ∉ s.timeouts)))))
  | returnTimer {timedOut} : call.waitable = none → Waits t call (.cleaned timedOut)
      (waitReturn sys s t call (if timedOut then .timedOut else .woken))
  | returnWaitable {w timedOut} : call.waitable = some w → lockFree sys s w = true →
      Waits t call (.cleaned timedOut)
      (waitReturn sys (s.setWaiters w ((s.waiters w).erase (s.token t))) t call
        (if s.token t ∈ s.waiters w then .timedOut else .woken))

inductive Wakes (t : Thr) (w : Wq) (threads : ℤ) (woken : ℕ) :
    WakeStage → State Cpu Thr Wq → Prop where
  | enter : Wakes t w threads woken .looping
      ((s.disablePreemption t).goto t (.wake w threads woken .popping))
  | done : Wakes t w threads woken .looping (wakeReturn s t w woken)
  | none : s.waiters w = [] →
      Wakes t w threads woken .popping (wakeReturn (s.enablePreemption t) t w woken)
  | pop {k rest} : s.waiters w = k :: rest → Wakes t w threads woken .popping
      ((((s.setWaiters w rest).setHand (.thread t) (.dequeued k)).note
        (.woke t (s.calls t) w k)).goto t (.wake w threads woken .popped))
  | enable : Wakes t w threads woken .popped
      ((s.enablePreemption t).goto t (.wake w threads woken .waking))
  | count : s.hand (.thread t) = .empty →
      Wakes t w threads woken .waking (s.goto t (.wake w threads (woken + 1) .looping))

inductive Reaps (t : Thr) : ReapStage Thr → State Cpu Thr Wq → Prop where
  | wait : s.preempt t = 0 → Reaps t .looping
      (({ s with waits := Function.update s.waits t (s.waits t + 1) }.disablePreemption t).goto t
        (.wait (reaperCall sys) .entered))
  | none : s.reaperList = [] → Reaps t .popping (s.goto t (.reap .looping))
  | pop {x rest} : s.reaperLock = none → s.reaperList = x :: rest → Reaps t .popping
      ({ s with reaperList := rest, log := .collected x :: s.log }.goto t
        (.reap (.freeing x .addressSpace)))
  | free {x part p} : owns sys x part = true →
      (p = .reap .popping ∨ ∃ part', p = .reap (.freeing x part')) →
      Reaps t (.freeing x part) ((s.note (.freed x part)).goto t p)
  | skip {x part p} : owns sys x part = false →
      (p = .reap .popping ∨ ∃ part', p = .reap (.freeing x part')) →
      Reaps t (.freeing x part) (s.goto t p)

inductive Outside (c : Cpu) (t : Thr) : State Cpu Thr Wq → Prop where
  | wait {call} : WaitCall.valid call = true → call.waitable ≠ some sys.reaperWaiter →
      s.preempt t = 0 → Outside c t
      (({ s with waits := Function.update s.waits t (s.waits t + 1) }.disablePreemption t).goto t
        (.wait call .entered))
  | wake {w threads} : w ≠ sys.reaperWaiter → Outside c t
      ({ s with calls := Function.update s.calls t (s.calls t + 1) }.goto t
        (.wake w threads 0 .looping))
  | exit : Outside c t (((s.write t .reaping).note (.exited t)).goto t .exiting)
  | lock : Outside c t (s.disablePreemption t)
  | unlock : Outside c t (s.enablePreemption t)
  | compute {v} : sys.user t = true → Outside c t { s with fpu := Function.update s.fpu c v }

/-- The moves of the machine, each with the action it belongs to. -/
inductive Move : Action Cpu Thr Wq → State Cpu Thr Wq → Prop where
  | tick {ns} : s.clock + ns < 2 ^ 64 → Move (.tick ns) { s with clock := s.clock + ns }
  | irq {c} : s.mode c = .thread → Move (.irq c) (s.setMode c (.timer s.clock))
  | timerPop {c choice time t} : s.mode c = .timer time → s.hand (.cpu c) = .empty →
      t ∈ s.timeouts → s.wakeupTime t ≤ time → Move (.cpu c choice) ({ s with
        timeouts := s.timeouts.erase t
        log := .expired (s.token t) :: s.log }.setHand (.cpu c) (.dequeued (s.token t)))
  | timerReturn {c choice time} : s.mode c = .timer time → s.hand (.cpu c) = .empty →
      Move (.cpu c choice) ({ s with
        pending := Function.update s.pending (s.current c) (s.pending (s.current c) + 1)
        }.setMode c .thread)
  | exchange {a c choice k} : Working sys s a c → s.hand a = .dequeued k → Move (.cpu c choice)
      ((s.write k.thread .runable).setHand a
        (if s.state k.thread = .blocked then .awake k.thread else .empty))
  | enqueue {a c choice t} : Working sys s a c → s.hand a = .awake t → Move (.cpu c choice)
      (((s.enqueueThread c t).note (.enqueued t)).setHand a .empty)
  | preempt {c choice s'} : s.mode c = .thread → Scheduled sys { s with
        pending := Function.update s.pending (s.current c) (s.pending (s.current c) - 1) } c s' →
      Move (.cpu c choice) s'
  | block {c choice t call s'} : Runs sys s c t → s.pc t = .wait call .enabled →
      Scheduled sys (s.goto t (.wait call .resumed)) c s' → Move (.cpu c choice) s'
  | leave {c choice t s'} : Runs sys s c t → s.pc t = .exiting →
      Scheduled sys (s.goto t .exited) c s' → Move (.cpu c choice) s'
  | wait {c choice t call stage s'} : Runs sys s c t → s.pc t = .wait call stage →
      Waits sys s t call stage s' → Move (.cpu c choice) s'
  | wake {c choice t w threads woken stage s'} : Runs sys s c t →
      s.pc t = .wake w threads woken stage → Wakes s t w threads woken stage s' →
      Move (.cpu c choice) s'
  | reap {c choice t stage s'} : Runs sys s c t → s.pc t = .reap stage → Reaps sys s t stage s' →
      Move (.cpu c choice) s'
  | outside {c choice t s'} : Runs sys s c t → s.pc t = .outside → Outside sys s c t s' →
      Move (.cpu c choice) s'
  | finalize {c choice prev next stage s'} : s.mode c = .switching prev next stage →
      Finalizes sys s c prev next stage s' → Move (.cpu c choice) s'

end Moves

variable {sys : System Cpu Thr Wq} {s s' : State Cpu Thr Wq} {c : Cpu} {t : Thr}
  {choice : Choice Thr Wq}

theorem schedule_scheduled (sys : System Cpu Thr Wq) (s : State Cpu Thr Wq) (c : Cpu) :
    Scheduled sys s c (schedule sys s c) := by
  unfold schedule
  split
  · exact .stays (.inl ‹_›)
  · have hz : s.preempt (s.current c) = 0 := by omega
    split
    · split
      · exact .stays (.inr ‹_›)
      · exact .idles hz ‹_›
    · exact .switches hz ‹_›

theorem wakeThread_move (hw : Working sys s a c) (hh : s.hand a ≠ .empty) :
    Move sys s (.cpu c choice) (wakeThread s a c) := by
  unfold wakeThread
  split
  · exact absurd ‹_› hh
  · exact .exchange hw ‹_›
  · exact .enqueue hw ‹_›

theorem timerStep_move (hm : s.mode c = .timer time) (hs : timerStep s c time choice = some s') :
    Move sys s (.cpu c choice) s' := by
  unfold timerStep at hs
  split at hs
  · split at hs
    · split at hs
      · cases hs
        rename_i hcond
        exact .timerPop hm ‹_› hcond.1 hcond.2.2
      · cases hs
    · split at hs
      · cases hs
        exact .timerReturn hm ‹_›
      · cases hs
  · cases hs
    exact wakeThread_move (.timer hm) ‹_›

theorem finalizeStep_move (hm : s.mode c = .switching prev next stage)
    (hs : finalizeStep sys s c prev next stage = some s') : Move sys s (.cpu c choice) s' := by
  cases stage with
  | popped =>
    cases hs
    exact .finalize hm .setCurrent
  | current =>
    cases hs
    refine .finalize hm ?_
    split
    · exact .keepIdle ‹_›
    · exact .storeRunning ‹_›
  | entered =>
    cases hs
    exact .finalize hm .load
  | loaded st =>
    cases st with
    | running =>
      cases hs
      exact .finalize hm .storeRunable
    | reaping =>
      cases hs
      exact .finalize hm .reaps
    | idleThread =>
      cases hs
      exact .finalize hm .leavesIdle
    | blocked => cases hs
    | blocking | runable =>
      simp only [finalizeStep] at hs
      split at hs
      · cases hs
        exact .finalize hm (.commit (by simp) ‹_›)
      · cases hs
        exact .finalize hm (.commitFails (by simp) ‹_›)
  | requeue =>
    cases hs
    exact .finalize hm .requeues
  | reaping =>
    simp only [finalizeStep] at hs
    split at hs
    · cases hs
      refine .finalize hm ?_
      unfold reapPush
      dsimp only
      split
      · exact .reapPush ‹_› ‹_›
      · exact .reapWake ‹_› ‹_›
    · cases hs
  | reapLocked =>
    simp only [finalizeStep] at hs
    split at hs
    · cases hs
      exact .finalize hm (.reapUnlock ‹_›)
    · cases hs
      exact wakeThread_move (.reaping hm) ‹_›
  | disposed =>
    cases hs
    refine .finalize hm ?_
    split
    · exact .save ‹_›
    · exact .skipSave (Bool.eq_false_iff.mpr ‹_›)
  | saved =>
    cases hs
    refine .finalize hm ?_
    split
    · exact .restore ‹_›
    · exact .skipRestore (Bool.eq_false_iff.mpr ‹_›)
  | restored =>
    cases hs
    exact .finalize hm .loadTable

section

variable (hr : Runs sys s c t)
include hr

theorem waitStep_move (hpc : s.pc t = .wait call stage)
    (hs : waitStep sys s c t call choice stage = some s') : Move sys s (.cpu c choice) s' := by
  cases stage with
  | entered =>
    cases hs
    exact .wait hr hpc .storeBlocking
  | storedBlocking =>
    simp only [waitStep] at hs
    split at hs
    · cases hs
      exact .wait hr hpc (.noWaitable ‹_›)
    · split at hs
      · split at hs
        · cases hs
          exact .wait hr hpc (.met ‹_› ‹_›)
        · cases hs
          exact .wait hr hpc (.push ‹_› ‹_› (Bool.eq_false_iff.mpr ‹_›))
      · cases hs
  | conditionMet =>
    cases hs
    exact .wait hr hpc .storeRunning
  | storedRunning =>
    cases hs
    exact .wait hr hpc .metReturn
  | enqueued =>
    simp only [waitStep] at hs
    split at hs
    · cases hs
      exact .wait hr hpc (.untimed ‹_›)
    · cases hs
      exact .wait hr hpc (.compute ‹_›)
  | computed =>
    cases hs
    exact .wait hr hpc .insert
  | registered =>
    cases hs
    exact .wait hr hpc .enable
  | enabled =>
    cases hs
    exact .block hr hpc (schedule_scheduled sys _ c)
  | resumed =>
    simp only [waitStep] at hs
    split at hs
    · cases hs
      exact .wait hr hpc (.cleanUntimed ‹_›)
    · cases hs
      exact .wait hr hpc (.cleanTimed ‹_›)
  | cleaned timedOut =>
    simp only [waitStep] at hs
    split at hs
    · cases hs
      exact .wait hr hpc (.returnTimer ‹_›)
    · split at hs
      · cases hs
        exact .wait hr hpc (.returnWaitable ‹_› ‹_›)
      · cases hs

theorem wakeStep_move (hpc : s.pc t = .wake w threads woken stage)
    (hs : wakeStep s c t w threads woken stage = some s') : Move sys s (.cpu c choice) s' := by
  cases stage with
  | looping =>
    simp only [wakeStep] at hs
    split at hs
    · cases hs
      exact .wake hr hpc .enter
    · cases hs
      exact .wake hr hpc .done
  | popping =>
    simp only [wakeStep] at hs
    split at hs
    · cases hs
      exact .wake hr hpc (.none ‹_›)
    · cases hs
      exact .wake hr hpc (.pop ‹_›)
  | popped =>
    cases hs
    exact .wake hr hpc .enable
  | waking =>
    simp only [wakeStep] at hs
    split at hs
    · cases hs
      exact .wake hr hpc (.count ‹_›)
    · cases hs
      exact wakeThread_move (.waking hr hpc) ‹_›

theorem reapStep_move (hpc : s.pc t = .reap stage) (hs : reapStep sys s t stage = some s') :
    Move sys s (.cpu c choice) s' := by
  cases stage with
  | looping =>
    simp only [reapStep, beginWait] at hs
    split at hs
    · cases hs
      exact .reap hr hpc (.wait ‹_›)
    · cases hs
  | popping =>
    simp only [reapStep] at hs
    split at hs
    · split at hs
      · cases hs
        exact .reap hr hpc (.none ‹_›)
      · cases hs
        exact .reap hr hpc (.pop ‹_› ‹_›)
    · cases hs
  | freeing x part =>
    cases hs
    cases ho : owns sys x part with
    | true =>
      rw [if_pos rfl]
      split
      · exact .reap hr hpc (.free ho (.inr ⟨_, rfl⟩))
      · exact .reap hr hpc (.free ho (.inl rfl))
    | false =>
      rw [if_neg (by simp)]
      split
      · exact .reap hr hpc (.skip ho (.inr ⟨_, rfl⟩))
      · exact .reap hr hpc (.skip ho (.inl rfl))

theorem outsideStep_move (hpc : s.pc t = .outside) (hs : outsideStep sys s c t choice = some s') :
    Move sys s (.cpu c choice) s' := by
  cases choice with
  | wait call =>
    simp only [outsideStep, beginWait] at hs
    split at hs
    · split at hs
      · cases hs
        rename_i hv _
        exact .outside hr hpc (.wait hv.1 hv.2 ‹_›)
      · cases hs
    · cases hs
  | wake w threads =>
    simp only [outsideStep] at hs
    split at hs
    · cases hs
      exact .outside hr hpc (.wake ‹_›)
    · cases hs
  | exit =>
    cases hs
    exact .outside hr hpc .exit
  | lock =>
    cases hs
    exact .outside hr hpc .lock
  | unlock =>
    simp only [outsideStep] at hs
    split at hs
    · cases hs
      exact .outside hr hpc .unlock
    · cases hs
  | compute v =>
    simp only [outsideStep] at hs
    split at hs
    · cases hs
      exact .outside hr hpc (.compute ‹_›)
    · cases hs
  | go | met | pop _ => cases hs

end

theorem step_move (hs : step sys s a = some s') : Move sys s a s' := by
  cases a with
  | tick ns =>
    simp only [step] at hs
    split at hs
    · cases hs
      exact .tick ‹_›
    · cases hs
  | irq c =>
    simp only [step] at hs
    split at hs
    · cases hs
      exact .irq ‹_›
    · cases hs
  | cpu c choice =>
    simp only [step, cpuStep] at hs
    split at hs
    · rename_i hm
      split at hs
      · cases hs
        exact .preempt hm (schedule_scheduled sys _ c)
      · split at hs
        · cases hs
        · have hr : Runs sys s c (s.current c) := ⟨hm, rfl, ‹_›⟩
          unfold threadStep at hs
          split at hs
          · exact outsideStep_move hr ‹_› hs
          · exact waitStep_move hr ‹_› hs
          · exact wakeStep_move hr ‹_› hs
          · cases hs
            exact .leave hr ‹_› (schedule_scheduled sys _ c)
          · cases hs
          · exact reapStep_move hr ‹_› hs
    · exact timerStep_move ‹_› hs
    · exact finalizeStep_move ‹_› hs

theorem returned_ne_wait (sys : System Cpu Thr Wq) (t : Thr) (call : WaitCall Wq)
    (stage : WaitStage) :
    (if t = sys.reaper then .reap .popping else .outside : Pc Thr Wq) ≠ .wait call stage := by
  split <;> simp

theorem reachable_invariant {ok : State Cpu Thr Wq → Action Cpu Thr Wq → Prop}
    {P : State Cpu Thr Wq → Prop} (start : ∀ s, Initial sys s → P s)
    (next : ∀ s a t, Reachable sys ok s → P s → ok s a → step sys s a = some t → Move sys s a t →
      P t) (h : Reachable sys ok s) : P s := by
  induction h with
  | start hi => exact start _ hi
  | step hr hok hs ih => exact next _ _ _ hr ih hok hs (step_move hs)

end SchedMoves
