import Mathlib.Algebra.GroupWithZero.Nat
import Mathlib.Data.Int.Notation
import Mathlib.Data.List.Nodup
import Mathlib.Logic.Function.Basic

/-! # Threads, CPUs and wait queues (`sched/scheduler.h`, `sched/wait.h`)

The state of the scheduler: the fields of every `thread_t` that the scheduler uses, what
every CPU is executing, the waitables, the timeout heap and the reaper's list. Lists are
the sequences of their nodes and the timeout heap is the set of its nodes, listed without
repetition. Control that lives on kernel stacks is a program point per thread. The list
`log` is a ghost: it records what happened, newest first. -/
namespace SchedState

section Update

open Function

variable {α β : Type*} [DecidableEq α] {f : α → β} {a x : α} {b y : β}

theorem update_eq (h : update f a b x = y) : x = a ∧ b = y ∨ x ≠ a ∧ f x = y := by
  by_cases hx : x = a
  · subst hx
    rw [update_self] at h
    exact Or.inl ⟨rfl, h⟩
  · rw [update_of_ne hx] at h
    exact Or.inr ⟨hx, h⟩

theorem update_of (P : β → Prop) (h : P (f a) → P b) (hx : P (f x)) : P (update f a b x) := by
  by_cases hxa : x = a
  · subst hxa
    rw [update_self]
    exact h hx
  · rwa [update_of_ne hxa]

theorem of_update (P : β → Prop) (h : P b → P (f a)) (hx : P (update f a b x)) : P (f x) := by
  rcases update_eq (rfl : update f a b x = _) with ⟨rfl, he⟩ | ⟨-, he⟩
  · exact h (he ▸ hx)
  · exact he ▸ hx

theorem update_iff (P : β → Prop) (h : P b ↔ P (f a)) (x : α) : P (update f a b x) ↔ P (f x) :=
  ⟨of_update P h.mp, update_of P h.mpr⟩

theorem mem_update_cons {f : α → List β} (h : y ∈ update f a (b :: f a) x) :
    (x = a ∧ y = b) ∨ y ∈ f x := by
  rcases update_eq (rfl : update f a (b :: f a) x = _) with ⟨rfl, he⟩ | ⟨-, he⟩ <;> rw [← he] at h
  · exact (List.mem_cons.mp h).imp_left fun hy => ⟨rfl, hy⟩
  · exact .inr h

end Update

inductive ThreadState where
  | running | runable | reaping | blocking | blocked | idleThread
  deriving DecidableEq, Repr

inductive WaitStatus where
  | woken | timedOut | conditionMet
  deriving DecidableEq, Repr

/-- A `waitable_token_t`: its thread and which of the thread's waits it belongs to. -/
structure Token (Thr : Type) where
  thread : Thr
  wait : ℕ
  deriving DecidableEq, Repr

-- constants, so that a numeral of a small machine is the same term in every module
instance two_neZero : NeZero 2 := ⟨Nat.succ_ne_zero 1⟩

instance five_neZero : NeZero 5 := ⟨Nat.succ_ne_zero 4⟩

/-- The arguments of `wait_impl`; `cond` says whether there is a condition. -/
structure WaitCall (Wq : Type) where
  waitable : Option Wq
  cond : Bool
  timeout : ℕ
  deriving DecidableEq, Repr

/-- Program points of `wait_impl`, each named by what has just been done. -/
inductive WaitStage where
  | entered | storedBlocking | conditionMet | storedRunning
  | enqueued | computed | registered | enabled | resumed
  | cleaned (timedOut : Bool)
  deriving DecidableEq, Repr

/-- Program points of the loop of `sched_wakeup_n_threads`. -/
inductive WakeStage where
  | looping | popping | popped | waking
  deriving DecidableEq, Repr

inductive Part where
  | addressSpace | kernelStack | fpuArea | thread
  deriving DecidableEq, Repr

inductive ReapStage (Thr : Type) where
  | looping | popping
  | freeing (t : Thr) (part : Part)
  deriving DecidableEq, Repr

inductive Pc (Thr Wq : Type) where
  | outside
  | wait (call : WaitCall Wq) (stage : WaitStage)
  | wake (w : Wq) (threads : ℤ) (woken : ℕ) (stage : WakeStage)
  | exiting | exited
  | reap (stage : ReapStage Thr)
  deriving DecidableEq, Repr

/-- Program points of `schedule_finalize`, each named by what has just been done. -/
inductive SwitchStage where
  | popped | current | entered
  | loaded (state : ThreadState)
  | requeue | reaping | reapLocked | disposed | saved | restored
  deriving DecidableEq, Repr

/-- What a CPU executes: the code of its current thread, `sched_handle_timeouts` in the
timer interrupt, or a switch between two threads. -/
inductive Mode (Thr : Type) where
  | thread
  | timer (time : ℕ)
  | switching (prev next : Thr) (stage : SwitchStage)
  deriving DecidableEq, Repr

/-- Who wakes a thread: a thread in `sched_wakeup_n_threads`, or a CPU in the timer
interrupt or in the reaper's branch of `schedule_finalize`. -/
inductive Agent (Cpu Thr : Type) where
  | thread (t : Thr)
  | cpu (c : Cpu)
  deriving DecidableEq, Repr

/-- The local variable of a waker: a thread it has dequeued and whose state it has yet to
exchange, or one that it found blocked and has yet to enqueue. -/
inductive Hand (Thr : Type) where
  | empty
  | dequeued (token : Token Thr)
  | awake (t : Thr)
  deriving DecidableEq, Repr

inductive Event (Cpu Thr Wq : Type) where
  | wrote (t : Thr) (state : ThreadState)
  | pushed (w : Wq) (token : Token Thr)
  | timed (token : Token Thr) (timeout now : ℕ)
  | woke (caller : Thr) (call : ℕ) (w : Wq) (token : Token Thr)
  | roused (token : Token Thr)
  | wakeReturned (caller : Thr) (call : ℕ) (w : Wq) (woken : ℕ)
  | expired (token : Token Thr)
  | returned (token : Token Thr) (call : WaitCall Wq) (status : WaitStatus) (now : ℕ)
  | exited (t : Thr)
  | committed (t : Thr)
  | enqueued (t : Thr)
  | left (t : Thr) (fpu : ℕ)
  | ran (t : Thr)
  | reaped (t : Thr)
  | collected (t : Thr)
  | freed (t : Thr) (part : Part)
  | used (t : Thr)
  | saved (t : Thr) (fpu : ℕ)
  | restored (t : Thr) (fpu : ℕ)
  deriving DecidableEq, Repr

/-- The machine: the idle thread of each CPU, which threads have an address space, and
the reaper with its waitable. -/
structure System (Cpu Thr Wq : Type) where
  idle : Cpu → Thr
  user : Thr → Bool
  reaper : Thr
  reaperWaiter : Wq
  idle_injective : ∀ c c', idle c = idle c' → c = c'
  idle_kernel : ∀ c, user (idle c) = false
  reaper_kernel : user reaper = false
  reaper_not_idle : ∀ c, reaper ≠ idle c

/-- `pending` counts the timer interrupts on a thread's stack that are yet to call
`schedule`; `waits` and `calls` number a thread's waits and its wake-up calls. -/
structure State (Cpu Thr Wq : Type) where
  clock : ℕ
  state : Thr → ThreadState
  pc : Thr → Pc Thr Wq
  preempt : Thr → ℕ
  pending : Thr → ℕ
  wakeupTime : Thr → ℕ
  waits : Thr → ℕ
  calls : Thr → ℕ
  current : Cpu → Thr
  queue : Cpu → List Thr
  mode : Cpu → Mode Thr
  hand : Agent Cpu Thr → Hand Thr
  waiters : Wq → List (Token Thr)
  timeouts : List Thr
  reaperList : List Thr
  reaperLock : Option Cpu
  fpu : Cpu → ℕ
  fpuSave : Thr → ℕ
  pageTable : Cpu → Option Thr
  log : List (Event Cpu Thr Wq)

variable {Cpu Thr Wq : Type}

/-- Threads made by `create_kthread` and enqueued once, every CPU idling. -/
structure Initial (sys : System Cpu Thr Wq) (s : State Cpu Thr Wq) : Prop where
  clock : s.clock < 2 ^ 64
  idle_state : ∀ c, s.state (sys.idle c) = .idleThread
  state : ∀ t, (∀ c, t ≠ sys.idle c) → s.state t = .runable
  pc_reaper : s.pc sys.reaper = .reap .looping
  pc : ∀ t, t ≠ sys.reaper → s.pc t = .outside
  preempt : ∀ t, s.preempt t = 0
  pending : ∀ t, s.pending t = 0
  current : ∀ c, s.current c = sys.idle c
  queued : ∀ t, (∀ c, t ≠ sys.idle c) → ∃ c, t ∈ s.queue c
  queue_idle : ∀ c c', sys.idle c' ∉ s.queue c
  queue_one : ∀ c c' t, t ∈ s.queue c → t ∈ s.queue c' → c = c'
  queue_nodup : ∀ c, (s.queue c).Nodup
  mode : ∀ c, s.mode c = .thread
  hand : ∀ a, s.hand a = .empty
  waiters : ∀ w, s.waiters w = []
  timeouts : s.timeouts = []
  reaperList : s.reaperList = []
  reaperLock : s.reaperLock = none
  pageTable : ∀ c, s.pageTable c = none
  log : s.log = []

theorem Initial.not_waiting (h : Initial sys s) (t : Thr) (call : WaitCall Wq) (stage : WaitStage) :
    s.pc t ≠ .wait call stage := by
  by_cases ht : t = sys.reaper
  · rw [ht, h.pc_reaper]
    simp
  · rw [h.pc t ht]
    simp

section Updates

variable [DecidableEq Cpu] [DecidableEq Thr] [DecidableEq Wq] (s : State Cpu Thr Wq)

namespace State

def token (t : Thr) : Token Thr := ⟨t, s.waits t⟩

def note (e : Event Cpu Thr Wq) : State Cpu Thr Wq := { s with log := e :: s.log }

def goto (t : Thr) (p : Pc Thr Wq) : State Cpu Thr Wq := { s with pc := Function.update s.pc t p }

def write (t : Thr) (st : ThreadState) : State Cpu Thr Wq :=
  { s with state := Function.update s.state t st, log := .wrote t st :: s.log }

def disablePreemption (t : Thr) : State Cpu Thr Wq :=
  { s with preempt := Function.update s.preempt t (s.preempt t + 1) }

def enablePreemption (t : Thr) : State Cpu Thr Wq :=
  { s with preempt := Function.update s.preempt t (s.preempt t - 1) }

def setMode (c : Cpu) (m : Mode Thr) : State Cpu Thr Wq :=
  { s with mode := Function.update s.mode c m }

def setHand (a : Agent Cpu Thr) (h : Hand Thr) : State Cpu Thr Wq :=
  { s with hand := Function.update s.hand a h }

def setWaiters (w : Wq) (l : List (Token Thr)) : State Cpu Thr Wq :=
  { s with waiters := Function.update s.waiters w l }

/-- `enqueue_thread` on the CPU that executes it. -/
def enqueueThread (c : Cpu) (t : Thr) : State Cpu Thr Wq :=
  { s with queue := Function.update s.queue c (s.queue c ++ [t]) }

end State

end Updates

end SchedState
