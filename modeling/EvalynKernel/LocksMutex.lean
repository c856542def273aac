import Mathlib.Logic.Function.Basic
import Mathlib.Data.List.Nodup

/-! # The sleeping mutex (`utils/locks/mutex.c` over `sched/wait.c`)

Any number of threads, interleaved at their atomic operations on `locked` and at the
acquisition, the list accesses and the release of `waiters.lock`. A blocked thread goes
on only after its token has left the waiter list; the scheduler under it is not modelled. -/
namespace LocksMutex

inductive LockWord where
  | unlocked | locked | lockedWaiters | unlockedWaiters
  deriving DecidableEq, Repr

/-- Program points of a thread. From `loadLocked` to `wokenStore` it is inside
`mutex_lock`, from `unlockCas` on inside `mutex_unlock`. The wake-up call appears twice
there; `again` tells the second call from the first. -/
inductive Pc where
  | idle
  | loadLocked | casLocked
  | waitLock | claimExchange | claimCheck | claimStore | claimUnlock
  | enqueue | enqueueUnlock | blocked
  | wokenLock | wokenDelete | wokenUnlock | wokenStore
  | holding
  | unlockCas | storeReserved
  | wakeLock (again : Bool) | wakePop (again : Bool) | wakeUnlock (again woken : Bool)
  | casReserved | assertWaiters (expected : LockWord)
  | assertFailed
  deriving DecidableEq, Repr

structure State (ι : Type) where
  pc : ι → Pc
  locked : LockWord
  waiters : List ι
  guard : Option ι

variable {ι : Type}

def initial : State ι := ⟨fun _ => .idle, .unlocked, [], none⟩

section Steps

variable [DecidableEq ι]

def goto (s : State ι) (i : ι) (p : Pc) : State ι := { s with pc := Function.update s.pc i p }

def acquire (s : State ι) (i : ι) (p : Pc) : Option (State ι) :=
  if s.guard = none then some { goto s i p with guard := some i } else none

def release (s : State ι) (i : ι) (p : Pc) : Option (State ι) :=
  some { goto s i p with guard := none }

/-- One atomic step of thread `i`; `none` while it has to wait. -/
def step (s : State ι) (i : ι) : Option (State ι) :=
  match s.pc i with
  | .idle => some (goto s i .loadLocked)
  | .loadLocked => some (goto s i (if s.locked = .unlocked then .casLocked else .waitLock))
  | .casLocked =>
    if s.locked = .unlocked then some { goto s i .holding with locked := .locked }
    else some (goto s i .waitLock)
  | .waitLock => acquire s i .claimExchange
  | .claimExchange =>
    some { goto s i (if s.locked = .unlocked then .claimCheck else .enqueue) with
      locked := .lockedWaiters }
  | .claimCheck => some (goto s i (if s.waiters = [] then .claimStore else .claimUnlock))
  | .claimStore => some { goto s i .claimUnlock with locked := .locked }
  | .claimUnlock => release s i .holding
  | .enqueue => some { goto s i .enqueueUnlock with waiters := s.waiters ++ [i] }
  | .enqueueUnlock => release s i .blocked
  | .blocked => if i ∈ s.waiters then none else some (goto s i .wokenLock)
  | .wokenLock => acquire s i .wokenDelete
  | .wokenDelete => some { goto s i .wokenUnlock with waiters := s.waiters.erase i }
  | .wokenUnlock => release s i .wokenStore
  | .wokenStore => some { goto s i .holding with locked := .lockedWaiters }
  | .holding => some (goto s i .unlockCas)
  | .unlockCas =>
    if s.locked = .locked then some { goto s i .idle with locked := .unlocked }
    else some (goto s i .storeReserved)
  | .storeReserved => some { goto s i (.wakeLock false) with locked := .unlockedWaiters }
  | .wakeLock again => acquire s i (.wakePop again)
  | .wakePop again =>
    match s.waiters with
    | [] => some (goto s i (.wakeUnlock again false))
    | _ :: rest => some { goto s i (.wakeUnlock again true) with waiters := rest }
  | .wakeUnlock again woken =>
    release s i (if woken = true ∨ again = true then .idle else .casReserved)
  | .casReserved =>
    if s.locked = .unlockedWaiters then some { goto s i .idle with locked := .unlocked }
    else some (goto s i (.assertWaiters s.locked))
  | .assertWaiters expected =>
    some (goto s i (if expected = .lockedWaiters then .wakeLock true else .assertFailed))
  | .assertFailed => none

inductive Reachable : State ι → Prop where
  | start : Reachable initial
  | step {s t i} : Reachable s → step s i = some t → Reachable t

def run : List ι → State ι → Option (State ι)
  | [], s => some s
  | i :: rest, s => (step s i).bind (run rest)

end Steps

/-- Blocked in `mutex_lock`. A thread whose token has been dequeued is on its way out. -/
def Blocked (s : State ι) (i : ι) : Prop := s.pc i = .blocked ∧ i ∈ s.waiters

def inSection : Pc → Bool
  | .claimExchange | .claimCheck | .claimStore | .claimUnlock | .enqueue | .enqueueUnlock
  | .wokenDelete | .wokenUnlock | .wakePop _ | .wakeUnlock _ _ => true
  | _ => false

/-- The points at which a thread has the mutex or the duty to pass it on. A blocked
thread gets it when its token is dequeued; a waker loses it at that moment. -/
def possessing : Pc → Bool
  | .claimCheck | .claimStore | .claimUnlock
  | .wokenLock | .wokenDelete | .wokenUnlock | .wokenStore
  | .holding | .unlockCas | .storeReserved | .wakeLock _ | .wakePop _ | .wakeUnlock _ false
  | .casReserved | .assertWaiters _ | .assertFailed => true
  | _ => false

def Possesses (s : State ι) (i : ι) : Prop :=
  possessing (s.pc i) = true ∨ (s.pc i = .blocked ∧ i ∉ s.waiters)

/-- Some thread has queued its token or is about to, having failed its claim. -/
def Awaited (s : State ι) : Prop := s.waiters ≠ [] ∨ ∃ j, s.pc j = .enqueue

def Stage (s : State ι) : Pc → Prop
  | .claimCheck => s.locked = .lockedWaiters
  | .claimStore => s.locked = .lockedWaiters ∧ s.waiters = []
  | .holding | .unlockCas | .claimUnlock =>
    (s.locked = .locked ∨ s.locked = .lockedWaiters) ∧ (Awaited s → s.locked = .lockedWaiters)
  | .storeReserved => s.locked = .lockedWaiters
  | .wakeLock again | .wakePop again =>
    (again = false ∧ s.locked = .unlockedWaiters) ∨ (s.locked = .lockedWaiters ∧ Awaited s)
  | .casReserved =>
    (s.locked = .unlockedWaiters ∧ ¬ Awaited s) ∨ (s.locked = .lockedWaiters ∧ Awaited s)
  | .wakeUnlock again woken =>
    again = false ∧ woken = false ∧ s.locked = .unlockedWaiters ∧ ¬ Awaited s
  | .assertWaiters e => e = .lockedWaiters ∧ s.locked = .lockedWaiters ∧ Awaited s
  | .blocked | .wokenLock | .wokenDelete | .wokenUnlock | .wokenStore =>
    s.locked = .lockedWaiters ∨ s.locked = .unlockedWaiters
  | _ => False

/-- `waiters.lock` is held exactly inside its sections, and a token is in the list from
its enqueueing until a waker dequeues it. -/
structure Queue (s : State ι) : Prop where
  guard_iff : ∀ i, inSection (s.pc i) = true ↔ s.guard = some i
  queued : ∀ i ∈ s.waiters, s.pc i = .enqueueUnlock ∨ s.pc i = .blocked
  enqueued : ∀ i, s.pc i = .enqueueUnlock → i ∈ s.waiters
  nodup : s.waiters.Nodup

/-- `o` is the thread that has the mutex, or the duty to pass it on. -/
structure Owned (s : State ι) (o : Option ι) : Prop where
  owner_iff : ∀ i, Possesses s i ↔ o = some i
  free : o = none → s.locked = .unlocked ∧ ¬ Awaited s
  stage : ∀ p, o = some p → Stage s (s.pc p)

structure Moved (s t : State ι) (i : ι) (p : Pc) : Prop where
  here : t.pc i = p
  there : ∀ j, j ≠ i → t.pc j = s.pc j

theorem initial_queue : Queue (initial : State ι) := by
  constructor <;> simp [initial, inSection]

theorem initial_owned : Owned (initial : State ι) none := by
  constructor <;> simp [initial, Possesses, possessing, Awaited]

variable {rest : List ι} {again : Bool} {w : ι}

section Moves

variable {s t : State ι} {i : ι} {o : Option ι} {p : Pc}

variable {q : Pc}

theorem stage_congr (hl : t.locked = s.locked) (hw : t.waiters = s.waiters)
    (ha : Awaited t ↔ Awaited s) : Stage t q ↔ Stage s q := by
  unfold Stage
  simp only [hl, hw, ha]

theorem awaited_moved (hm : Moved s t i p) (hw : t.waiters = s.waiters)
    (hold : s.pc i ≠ .enqueue) (hnew : p ≠ .enqueue) : Awaited t ↔ Awaited s := by
  unfold Awaited
  rw [hw]
  refine or_congr Iff.rfl (exists_congr fun j => ?_)
  by_cases hj : j = i
  · subst hj
    simp [hm.here, hold, hnew]
  · rw [hm.there j hj]

variable {j : ι}

theorem possesses_there (hm : Moved s t i p) (hj : j ≠ i) (hw : j ∈ t.waiters ↔ j ∈ s.waiters) :
    Possesses t j ↔ Possesses s j := by
  simp only [Possesses, hm.there j hj, hw]

section

variable (h : Queue s)
include h

theorem Queue.keep (hm : Moved s t i p) (hw : t.waiters = s.waiters)
    (hq : i ∈ s.waiters → p = .blocked) (hp : p ≠ .enqueueUnlock)
    (hg : ∀ j, inSection (t.pc j) = true ↔ t.guard = some j) : Queue t := by
  refine ⟨hg, fun j hj => ?_, fun j hj => ?_, hw ▸ h.nodup⟩
  · rw [hw] at hj
    by_cases hji : j = i
    · subst hji
      exact .inr (hm.here.trans (hq hj))
    · rw [hm.there j hji]
      exact h.queued j hj
  · have hji : j ≠ i := by
      rintro rfl
      exact hp (hm.here.symm.trans hj)
    rw [hw]
    exact h.enqueued j (hm.there j hji ▸ hj)

theorem Queue.stay (hm : Moved s t i p) (hg : t.guard = s.guard)
    (hsec : inSection p = inSection (s.pc i)) (j : ι) :
    inSection (t.pc j) = true ↔ t.guard = some j := by
  rw [hg, ← h.guard_iff j]
  by_cases hj : j = i
  · rw [hj, hm.here, hsec]
  · rw [hm.there j hj]

theorem Queue.not_queued (hp : s.pc i ≠ .enqueueUnlock ∧ s.pc i ≠ .blocked) : i ∉ s.waiters :=
  fun hi => (h.queued i hi).elim hp.1 hp.2

theorem Queue.only_section (hin : inSection (s.pc i) = true) (hj : j ≠ i) :
    inSection (s.pc j) = false := by
  rw [← Bool.not_eq_true, h.guard_iff j, (h.guard_iff i).1 hin]
  exact fun hij => hj (Option.some.inj hij).symm

theorem Queue.not_awaited (hpc : s.pc i = p) (hin : inSection p = true) (hi : p ≠ .enqueue)
    (hw : s.waiters = []) : ¬ Awaited s := by
  subst hpc
  rintro (hne | ⟨j, hj⟩)
  · exact hne hw
  · have hji : j ≠ i := by
      rintro rfl
      exact hi hj
    have hout := h.only_section hin hji
    simp [hj, inSection] at hout

end

theorem stage_outside (hq : inSection q = false) (hl : t.locked = s.locked)
    (ha : Awaited t ↔ Awaited s) (h : Stage s q) : Stage t q := by
  cases q <;> simp_all [Stage, inSection]

theorem stage_contended (hq : inSection q = false) (hl : t.locked = .lockedWaiters) (ha : Awaited t)
    (h : Stage s q) : Stage t q := by
  cases q <;> simp_all [Stage, inSection]

theorem stage_not_unlocked (h : Stage s q) : s.locked ≠ .unlocked := by
  intro hl
  cases q <;> simp_all [Stage]

theorem possesses_at (hpc : s.pc i = p) (hp : possessing p = true) : Possesses s i :=
  .inl (hpc ▸ hp)

theorem Owned.stage_at (h : Owned s o) (hpc : s.pc i = p) (hi : Possesses s i) : Stage s p :=
  hpc ▸ h.stage i ((h.owner_iff i).1 hi)

theorem Owned.eq_none (h : Owned s o) (hl : s.locked = .unlocked) : o = none := by
  cases o with
  | none => rfl
  | some q => exact absurd hl (stage_not_unlocked (h.stage q rfl))

theorem possesses_here (hm : Moved s t i p) :
    Possesses t i ↔ possessing p = true ∨ (p = .blocked ∧ i ∉ t.waiters) := by
  rw [Possesses, hm.here]

section

variable (h : Owned s o)
include h

theorem Owned.bystander (hm : Moved s t i p) (hw : ∀ j, j ≠ i → (j ∈ t.waiters ↔ j ∈ s.waiters))
    (hold : ¬ Possesses s i) (hnew : possessing p = false) (hb : p = .blocked → i ∈ t.waiters)
    (hfree : o = none → t.locked = .unlocked ∧ ¬ Awaited t)
    (hstage : ∀ q, q ≠ i → Stage s (s.pc q) → Stage t (s.pc q)) : Owned t o := by
  refine ⟨fun j => ?_, hfree, fun q ho => ?_⟩
  · by_cases hj : j = i
    · subst hj
      rw [possesses_here hm, ← h.owner_iff j]
      simpa [hnew, hold] using hb
    · rw [possesses_there hm hj (hw j hj), h.owner_iff j]
  · have hq : q ≠ i := by
      rintro rfl
      exact hold ((h.owner_iff q).2 ho)
    rw [hm.there q hq]
    exact hstage q hq (h.stage q ho)

theorem Owned.pass (hpc : s.pc i = q) (hold : possessing q = false ∧ q ≠ .blocked ∧ q ≠ .enqueue)
    (hm : Moved s t i p) (hl : t.locked = s.locked) (hw : t.waiters = s.waiters)
    (hnew : possessing p = false ∧ p ≠ .enqueue) (hb : p = .blocked → i ∈ s.waiters) :
    Owned t o := by
  have ha := awaited_moved hm hw (hpc ▸ hold.2.2) hnew.2
  refine h.bystander hm (fun _ _ => by rw [hw]) ?_ hnew.1 (hw ▸ hb) (fun ho => ?_) fun q _ => ?_
  · simp [Possesses, hpc, hold]
  · rw [hl, ha]
    exact h.free ho
  · exact (stage_congr hl hw ha).2

theorem Owned.contend (hqueue : Queue s) (hpc : s.pc i = .claimExchange) (hm : Moved s t i .enqueue)
    (hs : s.locked ≠ .unlocked) (hl : t.locked = .lockedWaiters) (hw : t.waiters = s.waiters) :
    Owned t o := by
  refine h.bystander hm (fun _ _ => by rw [hw]) (by simp [Possesses, hpc, possessing]) rfl
    (by simp) (fun ho => absurd (h.free ho).1 hs) fun q hq => ?_
  have hout := hqueue.only_section (by simp [hpc, inSection]) hq
  exact stage_contended hout hl (.inr ⟨i, hm.here⟩)

theorem Owned.enqueue (hqueue : Queue s) (hpc : s.pc i = .enqueue) (hm : Moved s t i .enqueueUnlock)
    (hl : t.locked = s.locked) (hw : t.waiters = s.waiters ++ [i]) : Owned t o := by
  have ha : Awaited s := .inr ⟨i, hpc⟩
  refine h.bystander hm (fun j hj => by simp [hw, hj]) (by simp [Possesses, hpc, possessing]) rfl
    (by simp) (fun ho => absurd ha (h.free ho).2) fun q hq => ?_
  have hout := hqueue.only_section (by simp [hpc, inSection]) hq
  exact stage_outside hout hl ⟨fun _ => ha, fun _ => .inl (by simp [hw])⟩

theorem Owned.hold (ho : ∀ q, o = some q → q = i) (hm : Moved s t i p) (hw : t.waiters = s.waiters)
    (hnew : possessing p = true) (hstage : Stage t p) : Owned t (some i) := by
  refine ⟨fun j => ?_, by simp, fun q hq => ?_⟩
  · by_cases hj : j = i
    · subst hj
      simp [possesses_here hm, hnew]
    · rw [possesses_there hm hj (by rw [hw]), h.owner_iff j]
      exact ⟨fun hj' => absurd (ho j hj') hj, fun hj' => absurd (Option.some.inj hj').symm hj⟩
  · cases hq
    rwa [hm.here]

theorem Owned.advance (hold : Possesses s i) (hm : Moved s t i p) (hw : t.waiters = s.waiters)
    (hnew : possessing p = true) (hstage : Stage t p) : Owned t (some i) :=
  h.hold (fun _ ho => Option.some.inj (ho.symm.trans ((h.owner_iff i).1 hold))) hm hw hnew hstage

theorem Owned.carry (hpc : s.pc i = q) (hold : Possesses s i) (hm : Moved s t i p)
    (hl : t.locked = s.locked) (hw : t.waiters = s.waiters) (hnew : possessing p = true)
    (hst : Stage s q → Stage s p) : Owned t (some i) := by
  have hq : s.pc i ≠ .enqueue := by
    intro hq
    simp [Possesses, hq, possessing] at hold
  have hq' : p ≠ .enqueue := by
    rintro rfl
    cases hnew
  exact h.advance hold hm hw hnew
    ((stage_congr hl hw (awaited_moved hm hw hq hq')).2 (hst (h.stage_at hpc hold)))

theorem Owned.leave (hold : Possesses s i) (hm : Moved s t i .idle) (hw : t.waiters = s.waiters)
    (hl : t.locked = .unlocked) (ha : ¬ Awaited t) : Owned t none := by
  have ho := (h.owner_iff i).1 hold
  refine ⟨fun j => ?_, fun _ => ⟨hl, ha⟩, by simp⟩
  by_cases hj : j = i
  · subst hj
    simp [possesses_here hm, possessing]
  · rw [possesses_there hm hj (by rw [hw]), h.owner_iff j, ho]
    simp [Ne.symm hj]

/-- The hand-off: dequeuing a token passes the possession to the thread it belongs to. -/
theorem Owned.handOff (hqueue : Queue s) (hpc : s.pc i = .wakePop again)
    (hw : s.waiters = w :: rest) (hm : Moved s t i (.wakeUnlock again true))
    (hl : t.locked = s.locked) (hw' : t.waiters = rest) : Owned t (some w) := by
  have hi : Possesses s i := possesses_at hpc rfl
  have hin : inSection (s.pc i) = true := by simp [hpc, inSection]
  have hwi : w ≠ i := by
    rintro rfl
    exact hqueue.not_queued (by simp [hpc]) (hw ▸ List.mem_cons_self)
  have hblocked : s.pc w = .blocked := by
    refine (hqueue.queued w (hw ▸ List.mem_cons_self)).resolve_left fun hw' => ?_
    have hout := hqueue.only_section hin hwi
    simp [hw', inSection] at hout
  have hrest : w ∉ rest := (List.nodup_cons.1 (hw ▸ hqueue.nodup)).1
  refine ⟨fun j => ?_, by simp, fun q hq => ?_⟩
  · by_cases hj : j = i
    · subst hj
      simp [possesses_here hm, possessing, hwi]
    by_cases hjw : j = w
    · subst hjw
      simp [Possesses, hm.there j hj, hblocked, hw', hrest]
    · rw [possesses_there hm hj (by simp [hw, hw', hjw]), h.owner_iff j, (h.owner_iff i).1 hi]
      simp [Ne.symm hj, Ne.symm hjw]
  · cases hq
    have hstage := h.stage_at hpc hi
    rw [hm.there w hwi, hblocked, Stage, hl]
    exact hstage.elim (fun hs => .inr hs.2) (fun hs => .inl hs.1)

end

end Moves

section Runs

variable [DecidableEq ι] {s t : State ι} {i : ι} {o : Option ι}

variable {p : Pc}

theorem moved_goto {w : List ι} : Moved s ⟨(goto s i p).pc, l, w, g⟩ i p :=
  ⟨by simp [goto], fun j hj => by simp [goto, hj]⟩

section

variable (h : Queue s)
include h

theorem Queue.plain (hq : i ∉ s.waiters) (l : LockWord) (hsec : inSection p = inSection (s.pc i))
    (hp : p ≠ .enqueueUnlock) : Queue { goto s i p with locked := l } :=
  h.keep moved_goto rfl (absurd · hq) hp (h.stay moved_goto rfl hsec)

theorem Queue.acquired (hq : i ∉ s.waiters) (hsec : inSection p = true) (hp : p ≠ .enqueueUnlock)
    (hstep : acquire s i p = some t) : Queue t := by
  simp only [acquire, Option.ite_none_right_eq_some, Option.some.injEq] at hstep
  obtain ⟨hfree, ht⟩ := hstep
  have hm : Moved s t i p := ht ▸ moved_goto
  have hg : t.guard = some i := by rw [← ht]
  refine h.keep hm (by rw [← ht]; rfl) (absurd · hq) hp fun j => ?_
  by_cases hj : j = i
  · simp [hj, hm.here, hsec, hg]
  · rw [hm.there j hj, h.guard_iff j, hfree, hg]
    simp [Ne.symm hj]

theorem Queue.released (hq : i ∈ s.waiters → p = .blocked) (hin : inSection (s.pc i) = true)
    (hsec : inSection p = false) (hstep : release s i p = some t) : Queue t := by
  have ht := Option.some.inj hstep
  have hm : Moved s t i p := ht ▸ moved_goto
  have hg : t.guard = none := by rw [← ht]
  refine h.keep hm (by rw [← ht]; rfl) hq (by rintro rfl; cases hsec) fun j => ?_
  by_cases hj : j = i
  · simp [hj, hm.here, hsec, hg]
  · rw [hm.there j hj, h.guard_iff j, (h.guard_iff i).1 hin, hg]
    simp [Ne.symm hj]

theorem Queue.enqueue (hq : i ∉ s.waiters) (hin : inSection (s.pc i) = true) :
    Queue { goto s i .enqueueUnlock with waiters := s.waiters ++ [i] } := by
  have hm : Moved s { goto s i .enqueueUnlock with waiters := s.waiters ++ [i] } i
      .enqueueUnlock := moved_goto
  refine ⟨h.stay hm rfl hin.symm, fun j hj => ?_, fun j hj => ?_, ?_⟩
  · rcases List.mem_append.1 hj with hj | hj
    · rw [hm.there j (ne_of_mem_of_not_mem hj hq)]
      exact h.queued j hj
    · rw [List.mem_singleton.1 hj]
      exact .inl hm.here
  · by_cases hji : j = i
    · simp [hji]
    · exact List.mem_append_left _ (h.enqueued j (hm.there j hji ▸ hj))
  · simpa [List.nodup_append, h.nodup] using fun j hj => ne_of_mem_of_not_mem hj hq

theorem Queue.dequeue (hw : s.waiters = w :: rest) (hq : i ∉ s.waiters)
    (hin : inSection (s.pc i) = true) :
    Queue { goto s i (.wakeUnlock again true) with waiters := rest } := by
  have hm : Moved s { goto s i (.wakeUnlock again true) with waiters := rest } i
      (.wakeUnlock again true) := moved_goto
  refine ⟨h.stay hm rfl hin.symm, fun j hj => ?_, fun j hj => ?_,
    (List.nodup_cons.1 (hw ▸ h.nodup)).2⟩
  · have hj' : j ∈ s.waiters := hw ▸ List.mem_cons_of_mem w hj
    rw [hm.there j (ne_of_mem_of_not_mem hj' hq)]
    exact h.queued j hj'
  · have hji : j ≠ i := by
      rintro rfl
      cases hm.here.symm.trans hj
    have hout := h.only_section hin hji
    rw [← hm.there j hji, hj] at hout
    cases hout

theorem step_queue (hstep : step s i = some t) : Queue t := by
  cases hpc : s.pc i with
  | idle | claimStore | wokenStore | holding | storeReserved =>
    have hq : i ∉ s.waiters := h.not_queued (by simp [hpc])
    cases (by simpa only [step, hpc] using hstep)
    exact h.plain hq _ (by simp [hpc, inSection]) (by simp)
  | loadLocked | claimExchange | claimCheck | assertWaiters _ =>
    have hq : i ∉ s.waiters := h.not_queued (by simp [hpc])
    cases (by simpa only [step, hpc] using hstep)
    exact h.plain hq _ (by split <;> simp [hpc, inSection]) (by split <;> simp)
  | casLocked | unlockCas | casReserved =>
    have hq : i ∉ s.waiters := h.not_queued (by simp [hpc])
    simp only [step, hpc] at hstep
    split at hstep <;> cases hstep <;> exact h.plain hq _ (by simp [hpc, inSection]) (by simp)
  | waitLock | wokenLock | wakeLock _ =>
    simp only [step, hpc] at hstep
    exact h.acquired (h.not_queued (by simp [hpc])) rfl (by simp) hstep
  | claimUnlock | wokenUnlock | wakeUnlock _ _ =>
    have hq : i ∉ s.waiters := h.not_queued (by simp [hpc])
    simp only [step, hpc] at hstep
    refine h.released (absurd · hq) (by simp [hpc, inSection]) ?_ hstep
    grind [inSection]
  | enqueueUnlock =>
    simp only [step, hpc] at hstep
    exact h.released (fun _ => rfl) (by simp [hpc, inSection]) rfl hstep
  | blocked =>
    simp only [step, hpc, Option.ite_none_left_eq_some] at hstep
    obtain ⟨hq, hstep⟩ := hstep
    cases hstep
    exact h.plain hq _ (by simp [hpc, inSection]) (by simp)
  | enqueue =>
    have hq : i ∉ s.waiters := h.not_queued (by simp [hpc])
    cases (by simpa only [step, hpc] using hstep)
    exact h.enqueue hq (by simp [hpc, inSection])
  | wokenDelete =>
    have hq : i ∉ s.waiters := h.not_queued (by simp [hpc])
    cases (by simpa only [step, hpc, List.erase_of_not_mem hq] using hstep)
    exact h.plain hq s.locked (by simp [hpc, inSection]) (by simp)
  | wakePop again =>
    have hq : i ∉ s.waiters := h.not_queued (by simp [hpc])
    simp only [step, hpc] at hstep
    split at hstep <;> cases hstep
    · exact h.plain hq _ (by simp [hpc, inSection]) (by simp)
    · next w rest hw => exact h.dequeue hw hq (by simp [hpc, inSection])
  | assertFailed => simp [step, hpc] at hstep

end

theorem step_owned (h : Owned s o) (hqueue : Queue s) (hstep : step s i = some t) :
    ∃ o', Owned t o' := by
  cases hpc : s.pc i with
  | idle =>
    cases (by simpa only [step, hpc] using hstep)
    exact ⟨o, h.pass hpc (by simp [possessing]) moved_goto rfl rfl (by simp [possessing]) (by simp)⟩
  | loadLocked =>
    cases (by simpa only [step, hpc] using hstep)
    refine ⟨o, h.pass hpc (by simp [possessing]) moved_goto rfl rfl ?_ ?_⟩ <;>
      split <;> simp [possessing]
  | casLocked =>
    simp only [step, hpc] at hstep
    split at hstep <;> cases hstep
    · next hl =>
      obtain rfl := h.eq_none hl
      have ha := (h.free rfl).2
      refine ⟨some i, h.hold (by simp) moved_goto rfl rfl ⟨.inl rfl, fun hw => absurd ?_ ha⟩⟩
      exact (awaited_moved moved_goto rfl (by simp [hpc]) (by simp)).1 hw
    · exact ⟨o, h.pass hpc (by simp [possessing]) moved_goto rfl rfl (by simp [possessing])
        (by simp)⟩
  | waitLock =>
    simp only [step, hpc, acquire, Option.ite_none_right_eq_some, Option.some.injEq] at hstep
    obtain ⟨-, rfl⟩ := hstep
    exact ⟨o, h.pass hpc (by simp [possessing]) moved_goto rfl rfl (by simp [possessing]) (by simp)⟩
  | claimExchange =>
    simp only [step, hpc] at hstep
    by_cases hl : s.locked = .unlocked
    · obtain rfl := h.eq_none hl
      simp only [hl, if_true] at hstep
      cases hstep
      exact ⟨some i, h.hold (by simp) moved_goto rfl rfl rfl⟩
    · simp only [hl, if_false] at hstep
      cases hstep
      exact ⟨o, h.contend hqueue hpc moved_goto hl rfl rfl⟩
  | claimCheck =>
    have hi : Possesses s i := possesses_at hpc rfl
    cases (by simpa only [step, hpc] using hstep)
    refine ⟨some i, h.carry hpc hi moved_goto rfl rfl ?_ ?_⟩
    · split <;> rfl
    · intro (hs : s.locked = .lockedWaiters)
      split
      · next hw => exact ⟨hs, hw⟩
      · exact ⟨.inr hs, fun _ => hs⟩
  | claimStore =>
    have hi : Possesses s i := possesses_at hpc rfl
    have hs := h.stage_at hpc hi
    have ha : ¬ Awaited s := hqueue.not_awaited hpc rfl (by simp) hs.2
    cases (by simpa only [step, hpc] using hstep)
    refine ⟨some i, h.advance hi moved_goto rfl rfl ⟨.inl rfl, fun hw => absurd ?_ ha⟩⟩
    exact (awaited_moved moved_goto rfl (by simp [hpc]) (by simp)).1 hw
  | claimUnlock | wokenUnlock | holding =>
    cases (by simpa only [step, hpc, release] using hstep)
    exact ⟨some i, h.carry hpc (possesses_at hpc rfl) moved_goto rfl rfl rfl id⟩
  | enqueue =>
    cases (by simpa only [step, hpc] using hstep)
    exact ⟨o, h.enqueue hqueue hpc moved_goto rfl rfl⟩
  | enqueueUnlock =>
    cases (by simpa only [step, hpc, release] using hstep)
    exact ⟨o, h.pass hpc (by simp [possessing]) moved_goto rfl rfl (by simp [possessing])
      fun _ => hqueue.enqueued i hpc⟩
  | blocked =>
    simp only [step, hpc, Option.ite_none_left_eq_some] at hstep
    obtain ⟨hq, hstep⟩ := hstep
    cases hstep
    exact ⟨some i, h.carry hpc (.inr ⟨hpc, hq⟩) moved_goto rfl rfl rfl id⟩
  | wokenLock | wakeLock again =>
    simp only [step, hpc, acquire, Option.ite_none_right_eq_some, Option.some.injEq] at hstep
    obtain ⟨-, rfl⟩ := hstep
    exact ⟨some i, h.carry hpc (possesses_at hpc rfl) moved_goto rfl rfl rfl id⟩
  | wokenDelete =>
    have hq : i ∉ s.waiters := hqueue.not_queued (by simp [hpc])
    cases (by simpa only [step, hpc, List.erase_of_not_mem hq] using hstep)
    exact ⟨some i, h.carry hpc (possesses_at hpc rfl) moved_goto rfl rfl rfl id⟩
  | wokenStore =>
    cases (by simpa only [step, hpc] using hstep)
    exact ⟨some i, h.advance (possesses_at hpc rfl) moved_goto rfl rfl
      ⟨.inr rfl, fun _ => rfl⟩⟩
  | unlockCas =>
    have hi : Possesses s i := possesses_at hpc rfl
    have hs := h.stage_at hpc hi
    simp only [step, hpc] at hstep
    split at hstep <;> cases hstep
    · next hl =>
      refine ⟨none, h.leave hi moved_goto rfl rfl fun hw => ?_⟩
      have ha := (awaited_moved moved_goto rfl (by simp [hpc]) (by simp)).1 hw
      exact absurd (hl.symm.trans (hs.2 ha)) (by simp)
    · next hl =>
      exact ⟨some i, h.advance hi moved_goto rfl rfl (hs.1.resolve_left hl)⟩
  | storeReserved =>
    cases (by simpa only [step, hpc] using hstep)
    exact ⟨some i, h.advance (possesses_at hpc rfl) moved_goto rfl rfl
      (.inl ⟨rfl, rfl⟩)⟩
  | wakePop again =>
    have hi : Possesses s i := possesses_at hpc rfl
    simp only [step, hpc] at hstep
    split at hstep <;> cases hstep
    · next hw =>
      have ha : ¬ Awaited s := hqueue.not_awaited hpc rfl (by simp) hw
      refine ⟨some i, h.carry hpc hi moved_goto rfl rfl rfl ?_⟩
      rintro (hs | hs)
      · exact ⟨hs.1, rfl, hs.2, ha⟩
      · exact absurd hs.2 ha
    · next w rest hw => exact ⟨some w, h.handOff hqueue hpc hw moved_goto rfl rfl⟩
  | wakeUnlock again woken =>
    cases (by simpa only [step, hpc, release] using hstep)
    cases woken with
    | true =>
      exact ⟨o, h.pass hpc (by simp [possessing]) moved_goto rfl rfl (by simp [possessing])
        (by simp)⟩
    | false =>
      have hi : Possesses s i := possesses_at hpc rfl
      have hs := h.stage_at hpc hi
      obtain ⟨rfl, -, hs⟩ := hs
      exact ⟨some i, h.carry hpc hi moved_goto rfl rfl rfl fun _ => .inl hs⟩
  | casReserved =>
    have hi : Possesses s i := possesses_at hpc rfl
    have hs := h.stage_at hpc hi
    simp only [step, hpc] at hstep
    split at hstep <;> cases hstep
    · next hl =>
      refine ⟨none, h.leave hi moved_goto rfl rfl fun hw => ?_⟩
      have ha := (awaited_moved moved_goto rfl (by simp [hpc]) (by simp)).1 hw
      rcases hs with hs | hs
      · exact hs.2 ha
      · exact absurd (hl.symm.trans hs.1) (by simp)
    · next hl =>
      have hs := hs.resolve_left fun hs => hl hs.1
      exact ⟨some i, h.carry hpc hi moved_goto rfl rfl rfl fun _ => ⟨hs.1, hs⟩⟩
  | assertWaiters expected =>
    have hi : Possesses s i := possesses_at hpc rfl
    have hs := h.stage_at hpc hi
    obtain ⟨rfl, hs⟩ := hs
    cases (by simpa only [step, hpc] using hstep)
    exact ⟨some i, h.carry hpc hi moved_goto rfl rfl rfl fun _ => .inr hs⟩
  | assertFailed => simp [step, hpc] at hstep

theorem reachable_invariant (h : Reachable s) : Queue s ∧ ∃ o, Owned s o := by
  induction h with
  | start => exact ⟨initial_queue, none, initial_owned⟩
  | step _ hstep ih =>
    obtain ⟨hqueue, o, howned⟩ := ih
    exact ⟨step_queue hqueue hstep, step_owned howned hqueue hstep⟩

theorem run_reachable (schedule : List ι) (h : Reachable s) (hrun : run schedule s = some t) :
    Reachable t := by
  induction schedule generalizing s with
  | nil =>
    cases hrun
    exact h
  | cons i rest ih =>
    obtain ⟨u, hu, hrest⟩ := Option.bind_eq_some_iff.1 hrun
    exact ih (.step h hu) hrest

/-- Mutual exclusion, no failed assertion, and no lost waiter: once every thread is
outside the two functions or blocked, and none holds the mutex, it is unlocked and nobody
is left waiting. -/
theorem mutex_exclusive_no_lost_waiter (h : Reachable s) :
    (∀ i j, s.pc i = .holding → s.pc j = .holding → i = j) ∧
    (∀ i, s.pc i ≠ .assertFailed) ∧
    ((∀ i, s.pc i = .idle ∨ Blocked s i) →
      s.locked = .unlocked ∧ s.waiters = []) := by
  obtain ⟨-, o, howned⟩ := reachable_invariant h
  refine ⟨fun i j hi hj => ?_, fun i hi => ?_, fun hquiet => ?_⟩
  · have hoi := (howned.owner_iff i).1 (possesses_at hi rfl)
    have hoj := (howned.owner_iff j).1 (possesses_at hj rfl)
    exact Option.some.inj (hoi.symm.trans hoj)
  · exact howned.stage_at hi (possesses_at hi rfl)
  · cases o with
    | none =>
      obtain ⟨hl, ha⟩ := howned.free rfl
      exact ⟨hl, by_contra fun hw => ha (.inl hw)⟩
    | some p =>
      rcases hquiet p with hp | ⟨hp, hq⟩
      · have hno := (howned.owner_iff p).2 rfl
        simp [Possesses, hp, possessing] at hno
      · have hno := (howned.owner_iff p).2 rfl
        simp [Possesses, hp, possessing, hq] at hno

def handOver : List (Fin 2) := [0, 0, 0, 1, 1, 1, 1, 1, 1, 0, 0, 0, 0, 0, 0, 1, 1, 1, 1, 1]

theorem mutex_handed_over : ∃ s : State (Fin 2), run handOver initial = some s ∧
    s.pc 1 = .holding ∧ s.locked = .lockedWaiters ∧ ∀ j, s.pc j = .holding → j = 1 :=
  ⟨_, rfl, rfl, rfl, fun j hj =>
    (mutex_exclusive_no_lost_waiter (run_reachable handOver .start rfl)).1 j 1 hj rfl⟩

end Runs

end LocksMutex
