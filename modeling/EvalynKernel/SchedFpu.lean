import EvalynKernel.SchedThreads

/-! # The FPU state of a thread

`schedule_finalize` publishes the thread it leaves before it saves its FPU registers. Where
nobody enqueues a thread in between, the thread resumes with the registers it had when it
was switched away. -/
namespace SchedFpu

set_option linter.unusedSectionVars false

open Function SchedState SchedSteps SchedMoves SchedPlaces SchedThreads

variable {Cpu Thr Wq : Type} [DecidableEq Cpu] [DecidableEq Thr] [DecidableEq Wq]
  {sys : System Cpu Thr Wq} {s s' : State Cpu Thr Wq} {c : Cpu} {t : Thr}

def unsaved : SwitchStage → Bool
  | .popped | .saved | .restored => false
  | _ => true

/-- The CPU has left the thread and has yet to save its FPU registers. -/
def Unsaved (mode : Cpu → Mode Thr) (t : Thr) (c : Cpu) : Prop :=
  ∃ next stage, mode c = .switching t next stage ∧ unsaved stage = true

/-- A waker enqueues a thread only when no CPU has yet to save its FPU registers. -/
def EnqueuesSaved (s s' : State Cpu Thr Wq) : Prop :=
  ∀ a t, s.hand a = .awake t → s'.hand a ≠ .awake t → ∀ c, ¬ Unsaved s.mode t c

/-- The FPU registers of the thread when it was last switched away from. -/
def lastLeft (log : List (Event Cpu Thr Wq)) (t : Thr) : Option ℕ :=
  log.findSome? fun
    | .left u v => if u = t then some v else none
    | _ => none

/-- The last switch away from the thread or save of its registers; `true` for a save. -/
def lastFpu (log : List (Event Cpu Thr Wq)) (t : Thr) : Option (Bool × ℕ) :=
  log.findSome? fun
    | .left u v => if u = t then some (false, v) else none
    | .saved u v => if u = t then some (true, v) else none
    | _ => none

/-- The registers restored for a thread are those it was last switched away with, and
they had been saved. -/
def Faithful : List (Event Cpu Thr Wq) → Prop
  | [] => True
  | .restored t v :: log =>
    (∀ v', lastLeft log t = some v' → v' = v ∧ lastFpu log t = some (true, v)) ∧ Faithful log
  | _ :: log => Faithful log

theorem lastLeft_left (log : List (Event Cpu Thr Wq)) (t : Thr) (v : ℕ) :
    lastLeft (.left t v :: log) = update (lastLeft log) t (some v) := by
  refine eq_update_iff.mpr ⟨by simp [lastLeft], fun u hu => ?_⟩
  simp [lastLeft, Ne.symm hu]

theorem lastFpu_left (log : List (Event Cpu Thr Wq)) (t : Thr) (v : ℕ) :
    lastFpu (.left t v :: log) = update (lastFpu log) t (some (false, v)) := by
  refine eq_update_iff.mpr ⟨by simp [lastFpu], fun u hu => ?_⟩
  simp [lastFpu, Ne.symm hu]

theorem lastFpu_saved (log : List (Event Cpu Thr Wq)) (t : Thr) (v : ℕ) :
    lastFpu (.saved t v :: log) = update (lastFpu log) t (some (true, v)) := by
  refine eq_update_iff.mpr ⟨by simp [lastFpu], fun u hu => ?_⟩
  simp [lastFpu, Ne.symm hu]

variable {m m' : Mode Thr}

section Unsaved

variable {mode : Cpu → Mode Thr} {prev next : Thr} {stage stage' : SwitchStage}

theorem not_unsaved (hm : mode c = m)
    (h : ∀ prev next stage, m = .switching prev next stage → unsaved stage = false) (t : Thr) :
    ¬ Unsaved mode t c := by
  rintro ⟨next, stage, hm', hu⟩
  rw [h t next stage (hm.symm.trans hm')] at hu
  cases hu

theorem unsaved_update (h : ∀ t, Unsaved (update mode c m) t c ↔ Unsaved mode t c) (t : Thr)
    (c' : Cpu) : Unsaved (update mode c m) t c' ↔ Unsaved mode t c' := by
  by_cases hc : c' = c
  · subst hc
    exact h t
  · simp only [Unsaved, update_of_ne hc]

theorem unsaved_restage (hm : mode c = .switching prev next stage)
    (hs : unsaved stage = unsaved stage') (t : Thr) (c' : Cpu) :
    Unsaved (update mode c (.switching prev next stage')) t c' ↔ Unsaved mode t c' := by
  refine unsaved_update (fun t => ?_) t c'
  constructor
  · rintro ⟨n, st, hm', hu⟩
    rw [update_self] at hm'
    cases hm'
    exact ⟨next, stage, hm, hs.trans hu⟩
  · rintro ⟨n, st, hm', hu⟩
    rw [hm] at hm'
    cases hm'
    exact ⟨next, stage', update_self .., hs.symm.trans hu⟩

theorem unsaved_other (h : ∀ next stage, mode c ≠ .switching t next stage)
    (h' : ∀ next stage, m ≠ .switching t next stage) (c' : Cpu) :
    Unsaved (update mode c m) t c' ↔ Unsaved mode t c' := by
  by_cases hc : c' = c
  · subst hc
    simp [Unsaved, h, h']
  · simp only [Unsaved, update_of_ne hc]

end Unsaved

variable {stage : SwitchStage} {prev next : Thr} {v : ℕ}

section Follows

variable {current : Cpu → Thr} {queue : Cpu → List Thr} {mode mode' : Cpu → Mode Thr}
  {fpu : Cpu → ℕ} {fpuSave : Thr → ℕ} {left : Thr → Option ℕ} {last : Thr → Option (Bool × ℕ)}

/-- A user thread that may run next has been saved, and what was saved is what it left. -/
structure Follows (sys : System Cpu Thr Wq) (current : Cpu → Thr) (queue : Cpu → List Thr)
    (mode : Cpu → Mode Thr) (fpu : Cpu → ℕ) (fpuSave : Thr → ℕ) (left : Thr → Option ℕ)
    (last : Thr → Option (Bool × ℕ)) : Prop where
  queued : ∀ t c c', sys.user t = true → t ∈ queue c → Unsaved mode t c' → c' = c
  entering : ∀ t c c', sys.user t = true → enteringOf (mode c) = some t → ¬ Unsaved mode t c'
  current : ∀ t c c', sys.user t = true → current c = t → ¬ Unsaved mode t c'
  unique : ∀ t c c', sys.user t = true → Unsaved mode t c → Unsaved mode t c' → c = c'
  leaving : ∀ t c, sys.user t = true → Unsaved mode t c → left t = some (fpu c)
  saved : ∀ t v, sys.user t = true → (∀ c, ¬ Unsaved mode t c) → left t = some v →
    fpuSave t = v ∧ last t = some (true, v)

abbrev FollowsIn (sys : System Cpu Thr Wq) (s : State Cpu Thr Wq) : Prop :=
  Follows sys s.current s.queue s.mode s.fpu s.fpuSave (lastLeft s.log) (lastFpu s.log)

namespace Follows

section

variable (h : Follows sys current queue mode fpu fpuSave left last)
include h

theorem remode (hu : ∀ t c, sys.user t = true → (Unsaved mode' t c ↔ Unsaved mode t c))
    (he : ∀ t c, sys.user t = true → enteringOf (mode' c) = some t → ∀ c', ¬ Unsaved mode t c') :
    Follows sys current queue mode' fpu fpuSave left last := by
  refine ⟨fun t c c' ht hq hun => ?_, fun t c c' ht hm hun => ?_, fun t c c' ht hcur hun => ?_,
    fun t c c' ht h1 h2 => ?_, fun t c ht hun => ?_, fun t v ht hno hl => ?_⟩
  · exact h.queued t c c' ht hq ((hu t c' ht).mp hun)
  · exact he t c ht hm c' ((hu t c' ht).mp hun)
  · exact h.current t c c' ht hcur ((hu t c' ht).mp hun)
  · exact h.unique t c c' ht ((hu t c ht).mp h1) ((hu t c' ht).mp h2)
  · exact h.leaving t c ht ((hu t c ht).mp hun)
  · exact h.saved t v ht (fun c hun => hno c ((hu t c ht).mpr hun)) hl

theorem enteringOf_update
    (hm : ∀ t, sys.user t = true → enteringOf m = some t → ∀ c', ¬ Unsaved mode t c') (t : Thr)
    (c' : Cpu) (ht : sys.user t = true) (he : enteringOf (update mode c m c') = some t) :
    ∀ c'', ¬ Unsaved mode t c'' := by
  by_cases hc : c' = c
  · subst hc
    rw [update_self] at he
    exact hm t ht he
  · rw [update_of_ne hc] at he
    exact fun c'' => h.entering t c' c'' ht he

theorem setMode (hm : mode c = m')
    (h' : ∀ prev next stage, m' = .switching prev next stage → unsaved stage = false)
    (hn : ∀ prev next stage, m = .switching prev next stage → unsaved stage = false)
    (he : ∀ t, sys.user t = true → enteringOf m = some t → ∀ c', ¬ Unsaved mode t c') :
    Follows sys current queue (update mode c m) fpu fpuSave left last := by
  refine h.remode (fun t c' _ => unsaved_update (fun u => ?_) t c') (h.enteringOf_update he)
  exact iff_of_false (not_unsaved (update_self ..) hn u) (not_unsaved hm h' u)

theorem restage (hm : mode c = .switching prev next stage)
    (hs : sys.user prev = true → unsaved stage = unsaved stage') (hp : stage' ≠ .popped) :
    Follows sys current queue (update mode c (.switching prev next stage')) fpu fpuSave
      left last := by
  refine h.remode (fun t c' ht => ?_) (h.enteringOf_update fun t _ he => ?_)
  · by_cases htp : t = prev
    · subst htp
      exact unsaved_restage hm (hs ht) t c'
    · refine unsaved_other (fun n st he => ?_) (fun n st he => ?_) c'
      · rw [hm] at he
        exact htp (Mode.switching.inj he).1.symm
      · exact htp (Mode.switching.inj he).1.symm
  · rw [enteringOf_switching hp] at he
    cases he

theorem setQueue
    (hl : ∀ t ∈ l, sys.user t = true → t ∈ queue c ∨ ∀ c', Unsaved mode t c' → c' = c) :
    Follows sys current (update queue c l) mode fpu fpuSave left last := by
  refine ⟨fun t c' c'' ht hq hun => ?_, h.entering, h.current, h.unique, h.leaving, h.saved⟩
  by_cases hc : c' = c
  · subst hc
    rw [update_self] at hq
    rcases hl t hq ht with hq | hall
    · exact h.queued t c' c'' ht hq hun
    · exact hall c'' hun
  · rw [update_of_ne hc] at hq
    exact h.queued t c' c'' ht hq hun

theorem setFpu (hc : ∀ t, ¬ Unsaved mode t c) :
    Follows sys current queue mode (update fpu c v) fpuSave left last := by
  refine ⟨h.queued, h.entering, h.current, h.unique, fun t c' ht hun => ?_, h.saved⟩
  have hne : c' ≠ c := by
    rintro rfl
    exact hc t hun
  rw [update_of_ne hne]
  exact h.leaving t c' ht hun

theorem save (hm : mode c = .switching prev next .disposed) :
    Follows sys current queue (update mode c (.switching prev next .saved)) fpu
      (update fpuSave prev (fpu c)) left
      (update last prev (some (true, fpu c))) := by
  have hprev : Unsaved mode prev c := ⟨next, .disposed, hm, rfl⟩
  have hsub : ∀ t c', Unsaved (update mode c (.switching prev next .saved)) t c' →
      c' ≠ c ∧ Unsaved mode t c' := by
    intro t c' hun
    have hne : c' ≠ c := by
      rintro rfl
      refine not_unsaved (update_self ..) ?_ t hun
      rintro p n st he
      cases he
      rfl
    simp only [Unsaved, update_of_ne hne] at hun
    exact ⟨hne, hun⟩
  have hkeep : ∀ t c', t ≠ prev → Unsaved mode t c' →
      Unsaved (update mode c (.switching prev next .saved)) t c' := by
    rintro t c' ht ⟨n, st, hm', hu⟩
    refine ⟨n, st, ?_, hu⟩
    rw [update_of_ne, hm']
    rintro rfl
    rw [hm] at hm'
    cases hm'
    exact ht rfl
  refine ⟨fun t c' c'' ht hq hun => h.queued t c' c'' ht hq (hsub t c'' hun).2,
    fun t c' c'' ht he hun => ?_, fun t c' c'' ht hcur hun => h.current t c' c'' ht hcur
      (hsub t c'' hun).2,
    fun t c' c'' ht h1 h2 => h.unique t c' c'' ht (hsub t c' h1).2 (hsub t c'' h2).2,
    fun t c' ht hun => h.leaving t c' ht (hsub t c' hun).2, fun t v ht hno hl => ?_⟩
  · refine h.enteringOf_update (fun u _ he => ?_) t c' ht he c'' (hsub t c'' hun).2
    cases he
  · by_cases htp : t = prev
    · subst htp
      rw [h.leaving t c ht hprev] at hl
      rw [update_self, update_self]
      exact ⟨Option.some.inj hl, by rw [Option.some.inj hl]⟩
    · rw [update_of_ne htp, update_of_ne htp]
      exact h.saved t v ht (fun c' hun => hno c' (hkeep t c' htp hun)) hl

theorem setCurrent (hp : Placed sys place state current queue mode hand)
    (hm : mode c = .switching prev next .popped) :
    Follows sys (update current c next) queue
      (update mode c (.switching prev next .current)) fpu fpuSave
      (update left prev (some (fpu c)))
      (update last prev (some (false, fpu c))) := by
  have hcur : current c = prev := (hp.stage c prev next .popped hm).1
  have huser : ∀ {t : Thr}, sys.user t = true → place t ≠ .idle := by
    intro t ht hi
    obtain ⟨c', rfl⟩ := (hp.located t).idle.mp hi
    rw [sys.idle_kernel c'] at ht
    cases ht
  have hrun : sys.user prev = true → place prev = .running c := fun ht =>
    ((hp.located prev).running c).mpr ⟨hcur, huser ht⟩
  have hcase : ∀ t c', Unsaved (update mode c (.switching prev next .current)) t c' →
      (t = prev ∧ c' = c) ∨ (c' ≠ c ∧ Unsaved mode t c') := by
    rintro t c' ⟨n, st, hm', hu⟩
    replace hm' := update_eq hm'
    rcases hm' with ⟨rfl, hm'⟩ | ⟨hc, hm'⟩
    · cases hm'
      exact .inl ⟨rfl, rfl⟩
    · exact .inr ⟨hc, n, st, hm', hu⟩
  have hkeep : ∀ t c', Unsaved mode t c' →
      Unsaved (update mode c (.switching prev next .current)) t c' := by
    rintro t c' ⟨n, st, hm', hu⟩
    refine ⟨n, st, ?_, hu⟩
    rw [update_of_ne, hm']
    rintro rfl
    rw [hm] at hm'
    cases hm'
    cases hu
  have hnone : sys.user prev = true → ∀ c', ¬ Unsaved mode prev c' := fun ht c' =>
    h.current prev c c' ht hcur
  refine ⟨fun t c' c'' ht hq hun => ?_, fun t c' c'' ht he hun => ?_, fun t c' c'' ht hct hun => ?_,
    fun t c' c'' ht h1 h2 => ?_, fun t c' ht hun => ?_, fun t v ht hno hl => ?_⟩
  · rcases hcase t c'' hun with ⟨rfl, rfl⟩ | ⟨-, hun⟩
    · have hpq := ((hp.located t).queued c').mpr hq
      rw [hrun ht] at hpq
      cases hpq
    · exact h.queued t c' c'' ht hq hun
  · have hc : c' ≠ c := by
      rintro rfl
      rw [update_self] at he
      cases he
    rw [update_of_ne hc] at he
    rcases hcase t c'' hun with ⟨rfl, rfl⟩ | ⟨-, hun⟩
    · have hpe := ((hp.located t).entering c').mpr ⟨he, huser ht⟩
      rw [hrun ht] at hpe
      cases hpe
    · exact h.entering t c' c'' ht he hun
  · rcases update_eq hct with ⟨rfl, hit⟩ | ⟨hc, hold⟩
    · subst hit
      have hent : enteringOf (mode c') = some next := by simp [hm, enteringOf]
      rcases hcase next c'' hun with ⟨rfl, rfl⟩ | ⟨-, hun⟩
      · have hpe := ((hp.located next).entering c'').mpr ⟨hent, huser ht⟩
        rw [hrun ht] at hpe
        cases hpe
      · exact h.entering next c' c'' ht hent hun
    · rcases hcase t c'' hun with ⟨rfl, rfl⟩ | ⟨-, hun⟩
      · exact hc (hp.running_one (hrun ht) hold)
      · exact h.current t c' c'' ht hold hun
  · rcases hcase t c' h1 with ⟨rfl, rfl⟩ | ⟨-, hold⟩
    · rcases hcase t c'' h2 with ⟨-, rfl⟩ | ⟨-, hold⟩
      · rfl
      · exact absurd hold (hnone ht c'')
    · rcases hcase t c'' h2 with ⟨rfl, rfl⟩ | ⟨-, hold'⟩
      · exact absurd hold (hnone ht c')
      · exact h.unique t c' c'' ht hold hold'
  · rcases hcase t c' hun with ⟨rfl, rfl⟩ | ⟨-, hold⟩
    · exact update_self ..
    · have htp : t ≠ prev := by
        rintro rfl
        exact hnone ht c' hold
      rw [update_of_ne htp]
      exact h.leaving t c' ht hold
  · have htp : t ≠ prev := by
      rintro rfl
      exact hno c ⟨next, .current, update_self .., rfl⟩
    rw [update_of_ne htp] at hl ⊢
    exact h.saved t v ht (fun c' hun => hno c' (hkeep t c' hun)) hl

end

end Follows

end Follows

section Moves

variable {place : Thr → Place Cpu Thr}

theorem follows_scheduled (hs : Scheduled sys s c s')
    (h : FollowsIn sys s)
    (hm : s.mode c = .thread) : FollowsIn sys s' := by
  have hpop : ∀ {next : Thr}, ∀ p n st, Mode.switching (s.current c) next .popped =
      .switching p n st → unsaved st = false := by
    rintro next p n st he
    cases he
    rfl
  cases hs with
  | stays _ => exact h
  | idles _ _ =>
    refine h.setMode hm (by simp) hpop fun t ht he c' => ?_
    cases he
    rw [sys.idle_kernel c] at ht
    cases ht
  | @switches next rest _ hq =>
    have h' := h.setQueue (c := c) (l := rest)
      fun t ht _ => .inl (hq ▸ List.mem_cons_of_mem _ ht)
    refine h'.setMode hm (by simp) hpop fun t ht he c' hun => ?_
    cases he
    have hc := h.queued next c c' ht (hq ▸ List.mem_cons_self) hun
    subst hc
    exact not_unsaved hm (by simp) next hun

theorem follows_finalizes (hp : PlacedIn sys place s)
    (h : FollowsIn sys s)
    (hm : s.mode c = .switching prev next stage) (hf : Finalizes sys s c prev next stage s') :
    FollowsIn sys s' := by
  cases hf with
  | setCurrent =>
    have h' := h.setCurrent hp hm
    rw [← lastLeft_left, ← lastFpu_left] at h'
    exact h'
  | requeues =>
    refine (h.setQueue fun t ht hu => ?_).restage hm (fun _ => rfl) (by simp)
    rcases List.mem_append.mp ht with ht | ht
    · exact .inl ht
    · rw [List.mem_singleton.mp ht] at hu ⊢
      exact .inr fun c' hun => h.unique prev c' c hu hun ⟨next, .requeue, hm, rfl⟩
  | save _ =>
    have h' := h.save hm
    rw [← lastFpu_saved] at h'
    exact h'
  | skipSave hu => exact h.restage hm (by simp [hu]) (by simp)
  | restore _ =>
    refine (h.setFpu (not_unsaved hm ?_)).restage hm (fun _ => rfl) (by simp)
    rintro p n st he
    cases he
    rfl
  | loadTable =>
    refine h.setMode hm ?_ (by simp) (by simp [enteringOf])
    rintro p n st he
    cases he
    rfl
  | _ => exact h.restage hm (fun _ => rfl) (by simp)

variable {a : Action Cpu Thr Wq}

theorem follows_move (hc : EnqueuesSaved s s')
    (hp : PlacedIn sys place s)
    (h : FollowsIn sys s)
    (hm : Move sys s a s') : FollowsIn sys s' := by
  cases hm with
  | irq hm | timerReturn hm _ => exact h.setMode hm (by simp) (by simp) (by simp [enteringOf])
  | @enqueue a c choice t _ hk =>
    have hno := hc a t hk (by simp [State.setHand])
    refine h.setQueue fun u hu _ => ?_
    rcases List.mem_append.mp hu with hu | hu
    · exact .inl hu
    · rw [List.mem_singleton.mp hu]
      exact .inr fun c' hun => absurd hun (hno c')
  | preempt hm hs => exact follows_scheduled hs h hm
  | block hr _ hs | leave hr _ hs => exact follows_scheduled hs h hr.mode
  | wait _ _ hw | wake _ _ hw | reap _ _ hw => cases hw <;> exact h
  | outside hr _ hw =>
    cases hw with
    | compute _ => exact h.setFpu (not_unsaved hr.mode (by simp))
    | _ => exact h
  | finalize hm hf => exact follows_finalizes hp h hm hf
  | _ => exact h

theorem faithful_move (hp : PlacedIn sys place s)
    (hf : FollowsIn sys s)
    (h : Faithful s.log) (hm : Move sys s a s') : Faithful s'.log := by
  cases hm with
  | preempt _ hs | block _ _ hs | leave _ _ hs => cases hs <;> exact h
  | wait _ _ hw | wake _ _ hw | reap _ _ hw | outside _ _ hw => cases hw <;> exact h
  | @finalize c choice prev next stage s' hm hfin =>
    cases hfin with
    | restore hu =>
      refine ⟨fun v hl => ?_, h⟩
      have hcur : s.current c = next := hp.stage c prev next .saved hm
      obtain ⟨he, hlast⟩ := hf.saved next v hu (fun c' => hf.current next c c' hu hcur) hl
      exact ⟨he.symm, he ▸ hlast⟩
    | _ => exact h
  | _ => exact h

theorem follows_initial (h : Initial sys s) : FollowsIn sys s := by
  have hno : ∀ t c, ¬ Unsaved s.mode t c := fun t c => not_unsaved (h.mode c) (by simp) t
  rw [FollowsIn, h.log]
  refine ⟨fun t c c' _ _ hun => absurd hun (hno t c'), fun t c c' _ _ => hno t c',
    fun t c c' _ _ => hno t c', fun t c c' _ hun => absurd hun (hno t c),
    fun t c _ hun => absurd hun (hno t c), fun t v _ _ hl => ?_⟩
  cases hl

structure Restores (sys : System Cpu Thr Wq) (s : State Cpu Thr Wq) : Prop where
  follows : FollowsIn sys s
  faithful : Faithful s.log

theorem restores_initial (h : Initial sys s) : Restores sys s := by
  refine ⟨follows_initial h, ?_⟩
  rw [h.log]
  trivial

theorem reachable_restores (h : Reachable sys (EveryStep sys EnqueuesSaved) s) :
    Restores sys s := by
  refine reachable_invariant (fun _ => restores_initial) (fun s a s' hr hf hok hs hm => ?_) h
  obtain ⟨place, hplaced, -⟩ := (reachable_inv hr).sound.placed
  exact ⟨follows_move (hok s' hs) hplaced hf.follows hm,
    faithful_move hplaced hf.follows hf.faithful hm⟩

theorem faithful_split (h : Faithful log) (he : log = l₁ ++ .restored t v :: l₂) (v' : ℕ)
    (hl : lastLeft l₂ t = some v') : v' = v ∧ lastFpu l₂ t = some (true, v) := by
  induction l₁ generalizing log with
  | nil =>
    subst he
    exact h.1 v' hl
  | cons e l₁ ih =>
    subst he
    have hrest : Faithful (l₁ ++ .restored t v :: l₂) := by
      cases e <;> first | exact h | exact h.2
    exact ih hrest rfl

end Moves

/-- Where a waker enqueues a thread only after its FPU registers are saved, every restore
brings back the registers of the thread's previous run, saved before. -/
theorem fpu_follows_thread (h : Reachable sys (EveryStep sys EnqueuesSaved) s)
    (l₁ l₂ : List (Event Cpu Thr Wq)) (t : Thr) (v v' : ℕ)
    (hlog : s.log = l₁ ++ .restored t v :: l₂) (hl : lastLeft l₂ t = some v') :
    v' = v ∧ lastFpu l₂ t = some (true, v) :=
  faithful_split (reachable_restores h).faithful hlog v' hl

def reaperBehind (c : Fin 2) : List (Fin 5) := if c = 0 then [3, 2] else [4]

theorem reaperBehind_initial : Initial machine (boot reaperBehind) :=
  boot_initial (by decide) (by decide) (by decide) (by decide)

/-- Thread 3 blocks and is left unsaved; thread 4 wakes it on the other CPU, which restores
its registers. -/
def earlyRestore : List (Action (Fin 2) (Fin 5) (Fin 2)) :=
  dispatch 0 ++ .cpu 0 (.compute 7) :: dispatch 1 ++
  .cpu 0 (.wait ⟨some 1, false, 0⟩) :: goes 0 9 ++ .cpu 1 (.wake 1 1) :: goes 1 5 ++
  .irq 1 :: goes 1 9

theorem registers_lost : ∃ s, Reachable machine (fun _ _ => True) s ∧
    s.log.head? = some (.restored 3 0) ∧ lastLeft s.log 3 = some 7 ∧
    lastFpu s.log 3 = some (false, 7) := by
  obtain ⟨s, hs, hp⟩ := run_reaches (p := fun s => s.log.head? = some (.restored 3 0) ∧
    lastLeft s.log 3 = some 7 ∧ lastFpu s.log 3 = some (false, 7)) reaperBehind_initial
    (meets_true earlyRestore _) (by decide +kernel)
  exact ⟨s, hs, of_decide_eq_true hp⟩

def idleHands (s _ : State (Fin 2) (Fin 5) (Fin 2)) : Bool :=
  decide ((∀ c, s.hand (.cpu c) = .empty) ∧ ∀ u, s.hand (.thread u) = .empty)

theorem idleHands_sound (s s' : State (Fin 2) (Fin 5) (Fin 2)) (h : idleHands s s' = true) :
    EnqueuesSaved s s' := by
  obtain ⟨hcpu, hthread⟩ := of_decide_eq_true h
  intro a t ha
  cases a with
  | cpu c =>
    rw [hcpu c] at ha
    cases ha
  | thread u =>
    rw [hthread u] at ha
    cases ha

def resumes : List (Action (Fin 2) (Fin 5) (Fin 2)) :=
  dispatch 0 ++ .cpu 0 (.compute 7) :: .irq 0 :: goes 0 10 ++ dispatch 0

theorem registers_kept : ∃ s, Reachable machine (EveryStep machine EnqueuesSaved) s ∧
    ∃ l, s.log = .restored 3 7 :: l ∧ lastFpu l 3 = some (true, 7) := by
  obtain ⟨s, hs, hp⟩ := run_reaches (p := fun s => s.log.head? = some (.restored 3 7) ∧
    lastLeft s.log.tail 3 = some 7) queues_initial
    (meets_of_checks idleHands_sound
    (by decide +kernel : checks machine idleHands resumes _ = true))
    (by decide +kernel)
  obtain ⟨hhead, hleft⟩ := of_decide_eq_true hp
  obtain ⟨l, hlog⟩ := List.head?_eq_some_iff.mp hhead
  rw [hlog, List.tail_cons] at hleft
  exact ⟨s, hs, l, hlog, (fpu_follows_thread hs [] l 3 7 7 hlog hleft).2⟩

end SchedFpu
