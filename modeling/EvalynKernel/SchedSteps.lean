import EvalynKernel.SchedState

/-! # The atomic steps of the scheduler (`sched/*.c`, `arch/generic/thread/exit.c`)

Any number of CPUs, interleaved at their atomic accesses to `thread->state` and at their
lock sections. Accesses to the run queue of the executing CPU are made with interrupts
off and belong to the step that makes them. The section of `reaper_waiter.lock` in
`schedule_finalize` holds an atomic exchange, so there the lock is explicit. -/
namespace SchedSteps

open SchedState

/-- What the code outside the modelled functions decides; `met` is the outcome of a wait
condition, `pop` names the node at the head of the timeout heap. -/
inductive Choice (Thr Wq : Type) where
  | go | met
  | wait (call : WaitCall Wq)
  | wake (w : Wq) (threads : ℤ)
  | exit
  | lock | unlock
  | compute (fpu : ℕ)
  | pop (t : Thr)
  deriving DecidableEq, Repr

inductive Action (Cpu Thr Wq : Type) where
  | tick (ns : ℕ)
  | irq (c : Cpu)
  | cpu (c : Cpu) (choice : Choice Thr Wq)
  deriving DecidableEq, Repr

variable {Cpu Thr Wq : Type} [DecidableEq Cpu] [DecidableEq Thr] [DecidableEq Wq]

/-- The exchange of a dequeued thread's state and, when it was blocked, the enqueueing on
the executing CPU: the end of the loops of `sched_wakeup_n_threads` and
`sched_handle_timeouts` and of the reaper's branch of `schedule_finalize`. -/
def wakeThread (s : State Cpu Thr Wq) (a : Agent Cpu Thr) (c : Cpu) : State Cpu Thr Wq :=
  match s.hand a with
  | .empty => s
  | .dequeued k =>
    (s.write k.thread .runable).setHand a
      (if s.state k.thread = .blocked then .awake k.thread else .empty)
  | .awake t => ((s.enqueueThread c t).note (.enqueued t)).setHand a .empty

section Scheduler

variable (sys : System Cpu Thr Wq) (s : State Cpu Thr Wq) (c : Cpu)

def schedule : State Cpu Thr Wq :=
  if 0 < s.preempt (s.current c) then s
  else
    match s.queue c with
    | [] =>
      if s.current c = sys.idle c then s
      else s.setMode c (.switching (s.current c) (sys.idle c) .popped)
    | next :: rest =>
      { s with
        queue := Function.update s.queue c rest
        mode := Function.update s.mode c (.switching (s.current c) next .popped) }

/-- The section of `reaper_waiter.lock` up to the exchange of the reaper's state. -/
def reapPush (prev : Thr) : State Cpu Thr Wq :=
  let s := { s with
    reaperList := s.reaperList ++ [prev]
    reaperLock := some c
    log := .reaped prev :: s.log }
  match s.waiters sys.reaperWaiter with
  | [] => s
  | k :: rest =>
    ((s.setWaiters sys.reaperWaiter rest).setHand (.cpu c) (.dequeued k)).note (.roused k)

/-- One step of `schedule_finalize(prev, next)`. The panic on `THREAD_BLOCKED` has no step. -/
def finalizeStep (prev next : Thr) : SwitchStage → Option (State Cpu Thr Wq)
  | .popped =>
    some ({ s with
      current := Function.update s.current c next
      log := .ran next :: .left prev (s.fpu c) :: s.log }.setMode c (.switching prev next .current))
  | .current =>
    -- nobody else changes whether the state is THREAD_IDLE_THREAD, so test and store are one step
    some ((if s.state next = .idleThread then s else s.write next .running).setMode c
      (.switching prev next .entered))
  | .entered => some (s.setMode c (.switching prev next (.loaded (s.state prev))))
  | .loaded .running =>
    some ((s.write prev .runable).setMode c (.switching prev next .requeue))
  | .loaded .blocking | .loaded .runable =>
    if s.state prev = .blocking then
      some (((s.write prev .blocked).note (.committed prev)).setMode c
        (.switching prev next .disposed))
    else some (s.setMode c (.switching prev next .requeue))
  | .loaded .reaping => some (s.setMode c (.switching prev next .reaping))
  | .loaded .idleThread => some (s.setMode c (.switching prev next .disposed))
  | .loaded .blocked => none
  | .requeue => some ((s.enqueueThread c prev).setMode c (.switching prev next .disposed))
  | .reaping =>
    if s.reaperLock = none then
      some ((reapPush sys s c prev).setMode c (.switching prev next .reapLocked))
    else none
  | .reapLocked =>
    if s.hand (.cpu c) = .empty then
      some ({ s with reaperLock := none }.setMode c (.switching prev next .disposed))
    else some (wakeThread s (.cpu c) c)
  | .disposed =>
    some ((if sys.user prev then
        { s with
          fpuSave := Function.update s.fpuSave prev (s.fpu c)
          log := .saved prev (s.fpu c) :: .used prev :: s.log }
      else s.note (.used prev)).setMode c (.switching prev next .saved))
  | .saved =>
    some ((if sys.user next then
        { s with
          fpu := Function.update s.fpu c (s.fpuSave next)
          log := .restored next (s.fpuSave next) :: s.log }
      else s).setMode c (.switching prev next .restored))
  | .restored =>
    some ({ s with
      pageTable := Function.update s.pageTable c (if sys.user next then some next else none)
      }.setMode c .thread)

/-- One step of `sched_handle_timeouts` and, at its end, the return to the interrupted
thread, on which the call of `schedule` is then pending. -/
def timerStep (time : ℕ) (choice : Choice Thr Wq) : Option (State Cpu Thr Wq) :=
  if s.hand (.cpu c) = .empty then
    match choice with
    | .pop t =>
      if t ∈ s.timeouts ∧ (∀ u ∈ s.timeouts, s.wakeupTime t ≤ s.wakeupTime u) ∧
          s.wakeupTime t ≤ time then
        some ({ s with
          timeouts := s.timeouts.erase t
          log := .expired (s.token t) :: s.log }.setHand (.cpu c) (.dequeued (s.token t)))
      else none
    | _ =>
      if ∀ u ∈ s.timeouts, time < s.wakeupTime u then
        some ({ s with
          pending := Function.update s.pending (s.current c) (s.pending (s.current c) + 1)
          }.setMode c .thread)
      else none
  else some (wakeThread s (.cpu c) c)

end Scheduler

section Threads

variable (sys : System Cpu Thr Wq) (s : State Cpu Thr Wq) (c : Cpu) (t : Thr)

/-- The assertions of `wait_impl` and `wait_on_cond` on their arguments. -/
def WaitCall.valid (call : WaitCall Wq) : Bool :=
  (call.waitable.isSome || call.timeout != 0) && (!call.cond || call.waitable.isSome) &&
    decide (call.timeout < 2 ^ 64)

def beginWait (call : WaitCall Wq) : Option (State Cpu Thr Wq) :=
  if s.preempt t = 0 then
    some (({ s with waits := Function.update s.waits t (s.waits t + 1) }.disablePreemption t).goto t
      (.wait call .entered))
  else none

def reaperCall : WaitCall Wq := ⟨some sys.reaperWaiter, true, 0⟩

/-- `reaper_has_work` for the reaper's waitable; elsewhere the condition is not modelled. -/
def conditionHolds (call : WaitCall Wq) (w : Wq) (choice : Choice Thr Wq) : Bool :=
  call.cond && (if w = sys.reaperWaiter then !s.reaperList.isEmpty else decide (choice = .met))

def lockFree (w : Wq) : Bool := w ≠ sys.reaperWaiter || s.reaperLock.isNone

/-- The return of `wait_impl` to its caller. -/
def waitReturn (call : WaitCall Wq) (status : WaitStatus) : State Cpu Thr Wq :=
  (s.note (.returned (s.token t) call status s.clock)).goto t
    (if t = sys.reaper then .reap .popping else .outside)

def waitStep (call : WaitCall Wq) (choice : Choice Thr Wq) :
    WaitStage → Option (State Cpu Thr Wq)
  | .entered => some ((s.write t .blocking).goto t (.wait call .storedBlocking))
  | .storedBlocking =>
    match call.waitable with
    | none => some (s.goto t (.wait call .enqueued))
    | some w =>
      if lockFree sys s w then
        if conditionHolds sys s call w choice then some (s.goto t (.wait call .conditionMet))
        else some (((s.setWaiters w (s.waiters w ++ [s.token t])).note
          (.pushed w (s.token t))).goto t (.wait call .enqueued))
      else none
  | .conditionMet => some ((s.write t .running).goto t (.wait call .storedRunning))
  | .storedRunning => some (waitReturn sys (s.enablePreemption t) t call .conditionMet)
  | .enqueued =>
    if call.timeout = 0 then some (s.goto t (.wait call .registered))
    else some ({ s with
      wakeupTime := Function.update s.wakeupTime t ((call.timeout + s.clock) % 2 ^ 64)
      log := .timed (s.token t) call.timeout s.clock :: s.log }.goto t (.wait call .computed))
  | .computed => some ({ s with timeouts := t :: s.timeouts }.goto t (.wait call .registered))
  | .registered => some ((s.enablePreemption t).goto t (.wait call .enabled))
  | .enabled => some (schedule sys (s.goto t (.wait call .resumed)) c)
  | .resumed =>
    if call.timeout = 0 then some (s.goto t (.wait call (.cleaned false)))
    else some ({ s with timeouts := s.timeouts.erase t }.goto t
      (.wait call (.cleaned (decide (t ∉ s.timeouts)))))
  | .cleaned timedOut =>
    match call.waitable with
    | none => some (waitReturn sys s t call (if timedOut then .timedOut else .woken))
    | some w =>
      if lockFree sys s w then
        -- `llist_node_try_delete` answers this, by `DstructLlistLinks.llist_run_correct`
        some (waitReturn sys (s.setWaiters w ((s.waiters w).erase (s.token t))) t call
          (if s.token t ∈ s.waiters w then .timedOut else .woken))
      else none

def wakeReturn (w : Wq) (woken : ℕ) : State Cpu Thr Wq :=
  (s.note (.wakeReturned t (s.calls t) w woken)).goto t .outside

def wakeStep (w : Wq) (threads : ℤ) (woken : ℕ) : WakeStage → Option (State Cpu Thr Wq)
  | .looping =>
    if (woken : ℤ) < threads then
      some ((s.disablePreemption t).goto t (.wake w threads woken .popping))
    else some (wakeReturn s t w woken)
  | .popping =>
    match s.waiters w with
    | [] => some (wakeReturn (s.enablePreemption t) t w woken)
    | k :: rest =>
      some ((((s.setWaiters w rest).setHand (.thread t) (.dequeued k)).note
        (.woke t (s.calls t) w k)).goto t (.wake w threads woken .popped))
  | .popped => some ((s.enablePreemption t).goto t (.wake w threads woken .waking))
  | .waking =>
    if s.hand (.thread t) = .empty then some (s.goto t (.wake w threads (woken + 1) .looping))
    else some (wakeThread s (.thread t) c)

def nextPart : Part → Option Part
  | .addressSpace => some .kernelStack
  | .kernelStack => some .fpuArea
  | .fpuArea => some .thread
  | .thread => none

def owns (x : Thr) : Part → Bool
  | .addressSpace | .fpuArea => sys.user x
  | .kernelStack | .thread => true

def reapStep : ReapStage Thr → Option (State Cpu Thr Wq)
  | .looping => beginWait s t (reaperCall sys)
  | .popping =>
    if s.reaperLock = none then
      match s.reaperList with
      | [] => some (s.goto t (.reap .looping))
      | x :: rest =>
        some ({ s with reaperList := rest, log := .collected x :: s.log }.goto t
          (.reap (.freeing x .addressSpace)))
    else none
  | .freeing x part =>
    some ((if owns sys x part then s.note (.freed x part) else s).goto t
      (match nextPart part with
        | some part => .reap (.freeing x part)
        | none => .reap .popping))

/-- Code outside the modelled functions: it calls them, takes and releases ticket locks,
which disable preemption, and, in user threads, changes the FPU registers. -/
def outsideStep : Choice Thr Wq → Option (State Cpu Thr Wq)
  | .wait call =>
    if WaitCall.valid call ∧ call.waitable ≠ some sys.reaperWaiter then beginWait s t call else none
  | .wake w threads =>
    if w ≠ sys.reaperWaiter then
      some ({ s with calls := Function.update s.calls t (s.calls t + 1) }.goto t
        (.wake w threads 0 .looping))
    else none
  | .exit => some (((s.write t .reaping).note (.exited t)).goto t .exiting)
  | .lock => some (s.disablePreemption t)
  | .unlock => if 0 < s.preempt t then some (s.enablePreemption t) else none
  | .compute v =>
    if sys.user t then some { s with fpu := Function.update s.fpu c v } else none
  | _ => none

/-- One step of the current thread `t` of CPU `c`. -/
def threadStep (choice : Choice Thr Wq) : Option (State Cpu Thr Wq) :=
  match s.pc t with
  | .outside => outsideStep sys s c t choice
  | .wait call stage => waitStep sys s c t call choice stage
  | .wake w threads woken stage => wakeStep s c t w threads woken stage
  | .exiting => some (schedule sys (s.goto t .exited) c)
  | .exited => none
  | .reap stage => reapStep sys s t stage

end Threads

section Runs

variable (sys : System Cpu Thr Wq)

def cpuStep (s : State Cpu Thr Wq) (c : Cpu) (choice : Choice Thr Wq) : Option (State Cpu Thr Wq) :=
  match s.mode c with
  | .thread =>
    if 0 < s.pending (s.current c) then
      some (schedule sys { s with
        pending := Function.update s.pending (s.current c) (s.pending (s.current c) - 1) } c)
    else if s.current c = sys.idle c then none
    else threadStep sys s c (s.current c) choice
  | .timer time => timerStep s c time choice
  | .switching prev next stage => finalizeStep sys s c prev next stage

def step (s : State Cpu Thr Wq) : Action Cpu Thr Wq → Option (State Cpu Thr Wq)
  | .tick ns => if s.clock + ns < 2 ^ 64 then some { s with clock := s.clock + ns } else none
  | .irq c => if s.mode c = .thread then some (s.setMode c (.timer s.clock)) else none
  | .cpu c choice => cpuStep sys s c choice

/-- The states of the runs all of whose steps meet the condition `ok`. -/
inductive Reachable (ok : State Cpu Thr Wq → Action Cpu Thr Wq → Prop) :
    State Cpu Thr Wq → Prop where
  | start {s} : Initial sys s → Reachable ok s
  | step {s a t} : Reachable ok s → ok s a → step sys s a = some t → Reachable ok t

def EveryStep (cond : State Cpu Thr Wq → State Cpu Thr Wq → Prop) (s : State Cpu Thr Wq)
    (a : Action Cpu Thr Wq) : Prop :=
  ∀ t, step sys s a = some t → cond s t

def run : List (Action Cpu Thr Wq) → State Cpu Thr Wq → Option (State Cpu Thr Wq)
  | [], s => some s
  | a :: rest, s => (step sys s a).bind (run rest)

def Meets (ok : State Cpu Thr Wq → Action Cpu Thr Wq → Prop) :
    List (Action Cpu Thr Wq) → State Cpu Thr Wq → Prop
  | [], _ => True
  | a :: rest, s => ok s a ∧ ∀ t ∈ step sys s a, Meets ok rest t

variable {sys} {ok : State Cpu Thr Wq → Action Cpu Thr Wq → Prop}

variable {l : List (Action Cpu Thr Wq)} {s : State Cpu Thr Wq}

theorem run_reachable {t : State Cpu Thr Wq} (hs : Reachable sys ok s) (hl : Meets sys ok l s)
    (hr : run sys l s = some t) : Reachable sys ok t := by
  induction l generalizing s with
  | nil =>
    cases hr
    exact hs
  | cons a rest ih =>
    obtain ⟨u, hu, hr⟩ := Option.bind_eq_some_iff.mp hr
    exact ih (.step hs hl.1 hu) (hl.2 u hu) hr

def checks (sys : System Cpu Thr Wq) (check : State Cpu Thr Wq → State Cpu Thr Wq → Bool) :
    List (Action Cpu Thr Wq) → State Cpu Thr Wq → Bool
  | [], _ => true
  | a :: rest, s => (step sys s a).all fun t => check s t && checks sys check rest t

theorem meets_of_checks {cond : State Cpu Thr Wq → State Cpu Thr Wq → Prop}
    (hcheck : ∀ s t, check s t = true → cond s t) (h : checks sys check l s = true) :
    Meets sys (EveryStep sys cond) l s := by
  induction l generalizing s with
  | nil => trivial
  | cons a rest ih =>
    have hall : ∀ t, step sys s a = some t → check s t = true ∧ checks sys check rest t = true := by
      intro t ht
      rw [checks, ht, Option.all_some, Bool.and_eq_true] at h
      exact h
    exact ⟨fun t ht => hcheck s t (hall t ht).1, fun t ht => ih (hall t ht).2⟩

theorem meets_true (l : List (Action Cpu Thr Wq)) (s : State Cpu Thr Wq) :
    Meets sys (fun _ _ => True) l s := by
  induction l generalizing s with
  | nil => trivial
  | cons a rest ih => exact ⟨trivial, fun t _ => ih t⟩

theorem run_reaches (hs : Initial sys s) (hl : Meets sys ok l s) (hp : (run sys l s).any p = true) :
    ∃ t, Reachable sys ok t ∧ p t = true := by
  cases hr : run sys l s with
  | none =>
    rw [hr] at hp
    cases hp
  | some t =>
    rw [hr] at hp
    exact ⟨t, run_reachable (.start hs) hl hr, hp⟩

end Runs

end SchedSteps
