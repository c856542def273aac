import EvalynKernel.DstructRbtreeRuns
import EvalynKernel.DstructRbtreeSearch
import EvalynKernel.SchedState

/-! # Futexes (`syscalls/futex.c`)

Any number of threads, interleaved at the acquisition and the release of the two locks and
at every access to an entry in between. What the scheduler does with a blocked thread is
left open: the thread may go on at any moment, whether its token has been dequeued or not.
The results of `paging_get_prot` and `paging_get_paddr` are inputs of the calls. -/
namespace SyscallsFutex

open DstructRbtree DstructRbtreeRuns
open SchedState (WaitStatus)

structure Sysret where
  retval : ℤ
  error : ℤ
  deriving DecidableEq, Repr

def sysretOkay : Sysret := ⟨0, 0⟩
def sysretEinval : Sysret := ⟨0, -3⟩
def sysretEagain : Sysret := ⟨0, -4⟩
def sysretEtimedout : Sysret := ⟨0, -5⟩

/-- The `switch` at the end of `syscall_futex_wait`. -/
def sysretOf : WaitStatus → Sysret
  | .woken => sysretOkay
  | .timedOut => sysretEtimedout
  | .conditionMet => sysretEagain

/-- The key under which the word at `uptr` is found in `futex_tree`. -/
def futexKey (pageSize uptr paddr : ℕ) : ℕ := (paddr + uptr % pageSize) % 2 ^ 64

structure WaitCall where
  key : ℕ
  expected : UInt32
  timeout : ℕ
  deriving DecidableEq, Repr

structure WakeCall where
  key : ℕ
  count : ℤ
  deriving DecidableEq, Repr

/-- Program points of `syscall_futex_wait`, with the entry it uses. From `entered` to
`releasing` it is in `wait_on_cond`; `blocked` lasts until it takes the waitable's lock to
clean up. -/
inductive WaitStage where
  | called | locked | found (entry : ℕ) | counted (entry : ℕ)
  | entered (entry : ℕ) | checking (entry : ℕ) | pushing (entry : ℕ) | pushed (entry : ℕ)
  | blocked (entry : ℕ) | cleaning (entry : ℕ) | releasing (entry : ℕ) (status : WaitStatus)
  | leaving (entry : ℕ) (status : WaitStatus) | dropping (entry : ℕ) (status : WaitStatus)
  | removing (entry : ℕ) (status : WaitStatus) | freeing (entry : ℕ) (status : WaitStatus)
  | dropped (status : WaitStatus)
  deriving DecidableEq, Repr

/-- Program points of `syscall_futex_wake`. From `waking` to `popped` it is in the loop of
`sched_wakeup_n_threads`; `got` tells whether the pop returned a token. -/
inductive WakeStage where
  | called | locked
  | waking (entry woken : ℕ) | popping (entry woken : ℕ) | popped (entry woken : ℕ) (got : Bool)
  | finished (woken : ℕ)
  deriving DecidableEq, Repr

inductive Pc where
  | outside
  | wait (call : WaitCall) (stage : WaitStage)
  | wake (call : WakeCall) (stage : WakeStage)
  deriving DecidableEq, Repr

inductive Event (Thr : Type) where
  | allocated (entry : ℕ)
  | removed (entry : ℕ)
  | freed (entry : ℕ)
  | returned (thread : Thr) (result : Sysret)
  deriving DecidableEq, Repr

/-- The entries are known by their addresses. Their `linkage` and `paddr` are the nodes and
the values of `tree`; `waiters` and `guard` are the list and the lock of their waitables,
where a token stands for the thread that pushed it. -/
structure State (Thr : Type) where
  pc : Thr → Pc
  tree : Tree
  treeLock : Option Thr
  allocated : List ℕ
  refcnt : ℕ → ℕ
  waiters : ℕ → List Thr
  guard : ℕ → Option Thr
  memory : ℕ → UInt32
  log : List (Event Thr)

structure Initial {Thr : Type} (s : State Thr) : Prop where
  pc : ∀ t, s.pc t = .outside
  tree : s.tree.root = 0
  treeLock : s.treeLock = none
  allocated : s.allocated = []
  waiters : ∀ a, s.waiters a = []
  guard : ∀ a, s.guard a = none
  log : s.log = []

/-- What a thread outside the calls does next, and what `kmalloc` returns. -/
inductive Choice where
  | go
  | kmalloc (entry : ℕ)
  | store (addr : ℕ) (value : UInt32)
  | wait (uptr : ℕ) (expected : UInt32) (timeout : ℕ) (user : Bool) (paddr : ℕ)
  | wake (uptr : ℕ) (count : ℤ) (user : Bool) (paddr : ℕ)
  deriving DecidableEq, Repr

variable {Thr : Type} [DecidableEq Thr] (s : State Thr) (t : Thr)

namespace State

def goto (p : Pc) : State Thr := { s with pc := Function.update s.pc t p }

def note (e : Event Thr) : State Thr := { s with log := e :: s.log }

def setRefcnt (a n : ℕ) : State Thr := { s with refcnt := Function.update s.refcnt a n }

def setWaiters (a : ℕ) (l : List Thr) : State Thr :=
  { s with waiters := Function.update s.waiters a l }

def setGuard (a : ℕ) (g : Option Thr) : State Thr :=
  { s with guard := Function.update s.guard a g }

end State

def lockTree (p : Pc) : Option (State Thr) :=
  if s.treeLock = none then some ({ s with treeLock := some t }.goto t p) else none

/-- `irqlock_lock` on the lock of an entry's waitable. -/
def lockWaitable (a : ℕ) (p : Pc) : Option (State Thr) :=
  if s.guard a = none then some ((s.setGuard a (some t)).goto t p) else none

/-- The entry that `kmalloc` returned, cleared, given its key and put in the tree. -/
def createEntry (call : WaitCall) (a : ℕ) : Option (State Thr) :=
  if a ≠ 0 ∧ a % 2 = 0 ∧ a ∉ s.allocated then
    match rbtreeInsert s.allocated.length (rewriteOutside s.tree a ⟨0, 0, 0⟩ call.key) a with
    | .ok tree => some ({ s with
        tree := tree
        allocated := a :: s.allocated
        refcnt := Function.update s.refcnt a 0
        waiters := Function.update s.waiters a []
        guard := Function.update s.guard a none
        log := .allocated a :: s.log }.goto t (.wait call (.found a)))
    | .error _ => none
  else none

/-- The decrement of `refcnt`, and whether it leaves 0. -/
def dropEntry (call : WaitCall) (a : ℕ) (status : WaitStatus) : State Thr :=
  let n := (s.refcnt a + (2 ^ 32 - 1)) % 2 ^ 32
  (s.setRefcnt a n).goto t (.wait call (if n = 0 then .removing a status else .dropped status))

def removeEntry (call : WaitCall) (a : ℕ) (status : WaitStatus) : Option (State Thr) :=
  match rbtreeRemove s.allocated.length s.tree a with
  | .ok (_, tree) =>
    some (({ s with tree := tree }.note (.removed a)).goto t (.wait call (.freeing a status)))
  | .error _ => none

def waitStep (call : WaitCall) (choice : Choice) : WaitStage → Option (State Thr)
  | .called => lockTree s t (.wait call .locked)
  | .locked =>
    match rbtreeSearchExact s.allocated.length s.tree call.key with
    | .ok 0 =>
      match choice with
      | .kmalloc a => createEntry s t call a
      | _ => none
    | .ok a => some (s.goto t (.wait call (.found a)))
    | .error _ => none
  | .found a => some ((s.setRefcnt a ((s.refcnt a + 1) % 2 ^ 32)).goto t (.wait call (.counted a)))
  | .counted a => some ({ s with treeLock := none }.goto t (.wait call (.entered a)))
  | .entered a => lockWaitable s t a (.wait call (.checking a))
  | .checking a =>
    if s.memory (s.tree.valueOfNode a) ≠ call.expected then
      some (s.goto t (.wait call (.releasing a .conditionMet)))
    else some (s.goto t (.wait call (.pushing a)))
  | .pushing a => some ((s.setWaiters a (s.waiters a ++ [t])).goto t (.wait call (.pushed a)))
  | .pushed a => some ((s.setGuard a none).goto t (.wait call (.blocked a)))
  | .blocked a => lockWaitable s t a (.wait call (.cleaning a))
  | .cleaning a =>
    if t ∈ s.waiters a then
      some ((s.setWaiters a ((s.waiters a).erase t)).goto t (.wait call (.releasing a .timedOut)))
    else some (s.goto t (.wait call (.releasing a .woken)))
  | .releasing a status => some ((s.setGuard a none).goto t (.wait call (.leaving a status)))
  | .leaving a status => lockTree s t (.wait call (.dropping a status))
  | .dropping a status => some (dropEntry s t call a status)
  | .removing a status => removeEntry s t call a status
  | .freeing a status =>
    some (({ s with allocated := s.allocated.erase a }.note (.freed a)).goto t
      (.wait call (.dropped status)))
  | .dropped status =>
    some (({ s with treeLock := none }.note (.returned t (sysretOf status))).goto t .outside)

def wakeStep (call : WakeCall) : WakeStage → Option (State Thr)
  | .called => lockTree s t (.wake call .locked)
  | .locked =>
    match rbtreeSearchExact s.allocated.length s.tree call.key with
    | .ok 0 => some (s.goto t (.wake call (.finished 0)))
    | .ok a => some (s.goto t (.wake call (.waking a 0)))
    | .error _ => none
  | .waking a woken =>
    if woken < call.count then lockWaitable s t a (.wake call (.popping a woken))
    else some (s.goto t (.wake call (.finished woken)))
  | .popping a woken =>
    match s.waiters a with
    | [] => some (s.goto t (.wake call (.popped a woken false)))
    | _ :: rest => some ((s.setWaiters a rest).goto t (.wake call (.popped a woken true)))
  | .popped a woken got =>
    some ((s.setGuard a none).goto t
      (.wake call (if got then .waking a (woken + 1) else .finished woken)))
  | .finished woken =>
    some (({ s with treeLock := none }.note (.returned t ⟨woken, 0⟩)).goto t .outside)

/-- The checks of `uptr` at the start of both calls. -/
def accepts (uptr : ℕ) (user : Bool) : Bool := uptr % 4 = 0 ∧ user = true

def outsideStep (pageSize : ℕ) : Choice → Option (State Thr)
  | .store addr value => some { s with memory := Function.update s.memory addr value }
  | .wait uptr expected timeout user paddr =>
    if accepts uptr user then
      some (s.goto t (.wait ⟨futexKey pageSize uptr paddr, expected, timeout⟩ .called))
    else some (s.note (.returned t sysretEinval))
  | .wake uptr count user paddr =>
    if accepts uptr user then
      some (s.goto t (.wake ⟨futexKey pageSize uptr paddr, count⟩ .called))
    else some (s.note (.returned t sysretEinval))
  | _ => none

/-- One step of the thread `t`; `none` while it has to wait for a lock. -/
def step (pageSize : ℕ) (choice : Choice) : Option (State Thr) :=
  match s.pc t with
  | .outside => outsideStep s t pageSize choice
  | .wait call stage => waitStep s t call choice stage
  | .wake call stage => wakeStep s t call stage

end SyscallsFutex
