import EvalynKernel.SchedAccounting

/-! # Why a wait times out

A waker and the timeout handler dequeue a thread under a lock and exchange its state after
releasing it, so the exchange can fall into a later wait of the thread. Where that does not
happen, and `wakeup_time` does not wrap, a wait ends for a reason of its own. -/
namespace SchedTimeouts

set_option linter.unusedSectionVars false

open Function SchedState SchedSteps SchedMoves SchedPlaces SchedControl SchedRegistrations
open SchedThreads SchedLedger SchedAccounting

variable {Cpu Thr Wq : Type} [DecidableEq Cpu] [DecidableEq Thr] [DecidableEq Wq]
  {sys : System Cpu Thr Wq} {s s' : State Cpu Thr Wq} {c : Cpu} {t : Thr} {w : Wq}

/-- When a step begins a wait, no agent still has the thread from an earlier one; when it
computes `wakeup_time`, the sum does not wrap. -/
structure Timely (s s' : State Cpu Thr Wq) : Prop where
  begin : ∀ t, s'.waits t ≠ s.waits t → ∀ a k, s.hand a = .dequeued k → k.thread ≠ t
  compute : ∀ t call, s.pc t = .wait call .enqueued → s'.pc t = .wait call .computed →
    call.timeout + s.clock < 2 ^ 64

def timings (log : List (Event Cpu Thr Wq)) : List (Token Thr × ℕ × ℕ) :=
  log.filterMap fun
    | .timed k timeout now => some (k, timeout, now)
    | _ => none

def expiries (log : List (Event Cpu Thr Wq)) : List (Token Thr) :=
  log.filterMap fun
    | .expired k => some k
    | _ => none

def computed : WaitStage → Bool
  | .computed | .registered | .enabled | .resumed | .cleaned _ => true
  | _ => false

variable {stage : WaitStage}

theorem computed_of_inserted (h : inserted stage = true) : computed stage = true := by
  cases stage <;> first | rfl | cases h

variable {call : WaitCall Wq} {a : Action Cpu Thr Wq} {p : Pc Thr Wq}

section Timers

variable {pc : Thr → Pc Thr Wq} {waits wakeupTime : Thr → ℕ} {clock : ℕ} {mode : Cpu → Mode Thr}
  {timeouts : List Thr} {timings : List (Token Thr × ℕ × ℕ)} {expiries : List (Token Thr)}

structure Timers (pc : Thr → Pc Thr Wq) (waits wakeupTime : Thr → ℕ) (clock : ℕ)
    (mode : Cpu → Mode Thr) (timeouts : List Thr) (timings : List (Token Thr × ℕ × ℕ))
    (expiries : List (Token Thr)) : Prop where
  mode : ∀ c time, mode c = .timer time → time ≤ clock
  timing : ∀ t call stage, pc t = .wait call stage → call.timeout ≠ 0 → computed stage = true →
    ∃ now, (⟨t, waits t⟩, call.timeout, now) ∈ timings ∧ wakeupTime t = call.timeout + now
  current : ∀ k timeout now, (k, timeout, now) ∈ timings → k.wait < waits k.thread ∨
    (k.wait = waits k.thread ∧ ∀ call stage, pc k.thread = .wait call stage →
      call.timeout = timeout ∧ computed stage = true)
  registered : ∀ t call stage, pc t = .wait call stage → call.timeout ≠ 0 → inserted stage = true →
    t ∈ timeouts ∨ ⟨t, waits t⟩ ∈ expiries
  cleaned : ∀ t call, pc t = .wait call (.cleaned true) → ⟨t, waits t⟩ ∈ expiries
  expired : ∀ k ∈ expiries, ∃ timeout now, (k, timeout, now) ∈ timings ∧ timeout ≠ 0 ∧
    timeout + now ≤ clock

abbrev TimersIn (s : State Cpu Thr Wq) : Prop := Timers s.pc s.waits s.wakeupTime s.clock s.mode
  s.timeouts (SchedTimeouts.timings s.log) (SchedTimeouts.expiries s.log)

namespace Timers

section

variable (h : Timers pc waits wakeupTime clock mode timeouts timings expiries)
include h

variable {timeouts' : List Thr}

theorem goto (hto : ∀ u, u ≠ t → u ∈ timeouts → u ∈ timeouts')
    (h1 : ∀ call stage, p = .wait call stage → call.timeout ≠ 0 → computed stage = true → ∃ now,
      (⟨t, waits t⟩, call.timeout, now) ∈ timings ∧ wakeupTime t = call.timeout + now)
    (h2 : ∀ timeout now, (⟨t, waits t⟩, timeout, now) ∈ timings → ∀ call stage,
      p = .wait call stage → call.timeout = timeout ∧ computed stage = true)
    (h3 : ∀ call stage, p = .wait call stage → call.timeout ≠ 0 → inserted stage = true →
      t ∈ timeouts' ∨ ⟨t, waits t⟩ ∈ expiries)
    (h4 : ∀ call, p = .wait call (.cleaned true) → ⟨t, waits t⟩ ∈ expiries) :
    Timers (update pc t p) waits wakeupTime clock mode timeouts' timings expiries := by
  refine ⟨h.mode, fun u call stage hu h0 hc => ?_, fun k timeout now hk => ?_,
    fun u call stage hu h0 hi => ?_, fun u call hu => ?_, h.expired⟩
  · rcases update_eq hu with ⟨rfl, hit⟩ | ⟨hut, hu⟩
    · exact h1 call stage hit h0 hc
    · exact h.timing u call stage hu h0 hc
  · refine (h.current k timeout now hk).imp_right fun ⟨he, hall⟩ => ⟨he, fun call stage hu => ?_⟩
    rcases update_eq hu with ⟨rfl, hit⟩ | ⟨hkt, hu⟩
    · exact h2 timeout now (by rwa [← he]) call stage hit
    · exact hall call stage hu
  · rcases update_eq hu with ⟨rfl, hit⟩ | ⟨hut, hu⟩
    · exact h3 call stage hit h0 hi
    · exact (h.registered u call stage hu h0 hi).imp_left (hto u hut)
  · rcases update_eq hu with ⟨rfl, hit⟩ | ⟨hut, hu⟩
    · exact h4 call hit
    · exact h.cleaned u call hu

theorem leave (hp : ∀ call stage, p ≠ .wait call stage) :
    Timers (update pc t p) waits wakeupTime clock mode timeouts timings expiries :=
  h.goto (fun _ _ hu => hu) (fun _ _ he => absurd he (hp _ _))
    (fun _ _ _ _ _ he => absurd he (hp _ _)) (fun _ _ he => absurd he (hp _ _))
    (fun _ he => absurd he (hp _ _))

theorem next (hpc : pc t = .wait call stage) (hto : ∀ u, u ≠ t → u ∈ timeouts → u ∈ timeouts')
    (hc : computed stage = true → computed stage' = true)
    (hc' : call.timeout ≠ 0 → computed stage' = true → computed stage = true)
    (hi : call.timeout ≠ 0 → inserted stage' = true → t ∈ timeouts' ∨ ⟨t, waits t⟩ ∈ expiries)
    (hcl : stage' = .cleaned true → ⟨t, waits t⟩ ∈ expiries) :
    Timers (update pc t (.wait call stage')) waits wakeupTime clock mode timeouts' timings
      expiries := by
  refine h.goto hto (fun call' st he h0 hst => ?_) (fun timeout now hk call' st he => ?_)
    (fun call' st he h0 hst => ?_) (fun call' he => ?_)
  · cases he
    exact h.timing t call stage hpc h0 (hc' h0 hst)
  · cases he
    rcases h.current _ timeout now hk with hlt | ⟨-, hall⟩
    · exact absurd hlt (Nat.lt_irrefl _)
    · exact (hall call stage hpc).imp_right hc
  · cases he
    exact hi h0 hst
  · cases he
    exact hcl rfl

theorem begin (call : WaitCall Wq) :
    Timers (update pc t (.wait call .entered)) (update waits t (waits t + 1))
      wakeupTime clock mode timeouts timings expiries := by
  have hne : ∀ {u : Thr} {call' : WaitCall Wq} {stage : WaitStage}, stage ≠ .entered →
      update pc t (.wait call .entered) u = .wait call' stage → u ≠ t := by
    rintro u call' stage hst hu rfl
    rw [update_self] at hu
    cases hu
    exact hst rfl
  refine ⟨h.mode, fun u call' stage hu h0 hc => ?_, fun k timeout now hk => ?_,
    fun u call' stage hu h0 hi => ?_, fun u call' hu => ?_, h.expired⟩
  · have hut := hne (by rintro rfl; cases hc) hu
    rw [update_of_ne hut] at hu ⊢
    exact h.timing u call' stage hu h0 hc
  · by_cases hkt : k.thread = t
    · rw [hkt, update_self]
      rcases h.current k timeout now hk with hlt | ⟨he, -⟩ <;> rw [hkt] at * <;> left <;> omega
    · rw [update_of_ne hkt, update_of_ne hkt]
      exact h.current k timeout now hk
  · have hut := hne (by rintro rfl; cases hi) hu
    rw [update_of_ne hut] at hu ⊢
    exact h.registered u call' stage hu h0 hi
  · have hut := hne (by simp) hu
    rw [update_of_ne hut] at hu ⊢
    exact h.cleaned u call' hu

theorem tick (ns : ℕ) :
    Timers pc waits wakeupTime (clock + ns) mode timeouts timings expiries := by
  refine ⟨fun c time hm => ?_, h.timing, h.current, h.registered, h.cleaned, fun k hk => ?_⟩
  · exact Nat.le_add_right_of_le (h.mode c time hm)
  · obtain ⟨timeout, now, hin, h0, hle⟩ := h.expired k hk
    exact ⟨timeout, now, hin, h0, Nat.le_add_right_of_le hle⟩

theorem setMode (hm : ∀ time, m = .timer time → time ≤ clock) :
    Timers pc waits wakeupTime clock (update mode c m) timeouts timings expiries := by
  refine ⟨fun c' time hm' => ?_, h.timing, h.current, h.registered, h.cleaned, h.expired⟩
  replace hm' := update_eq hm'
  rcases hm' with ⟨rfl, hm'⟩ | ⟨hc, hm'⟩
  · exact hm time hm'
  · exact h.mode c' time hm'

theorem compute (hpc : pc t = .wait call .enqueued) :
    Timers (update pc t (.wait call .computed)) waits
      (update wakeupTime t (call.timeout + clock)) clock mode timeouts
      ((⟨t, waits t⟩, call.timeout, clock) :: timings) expiries := by
  refine ⟨h.mode, fun u call' stage hu h0 hc => ?_, fun k timeout now hk => ?_,
    fun u call' stage hu h0 hi => ?_, fun u call' hu => ?_, fun k hk => ?_⟩
  · by_cases hut : u = t
    · subst hut
      rw [update_self] at hu
      cases hu
      exact ⟨clock, List.mem_cons_self, update_self ..⟩
    · rw [update_of_ne hut] at hu ⊢
      obtain ⟨now, hin, he⟩ := h.timing u call' stage hu h0 hc
      exact ⟨now, List.mem_cons_of_mem _ hin, he⟩
  · rcases List.mem_cons.mp hk with he | hk
    · cases he
      refine .inr ⟨rfl, fun call' stage hu => ?_⟩
      rw [update_self] at hu
      cases hu
      exact ⟨rfl, rfl⟩
    · refine (h.current k timeout now hk).imp_right fun ⟨he, hall⟩ => ⟨he, fun call' stage hu => ?_⟩
      by_cases hkt : k.thread = t
      · obtain ⟨-, hst⟩ := hall call .enqueued (hkt ▸ hpc)
        cases hst
      · rw [update_of_ne hkt] at hu
        exact hall call' stage hu
  · have hut : u ≠ t := by
      rintro rfl
      rw [update_self] at hu
      cases hu
      cases hi
    rw [update_of_ne hut] at hu
    exact h.registered u call' stage hu h0 hi
  · have hut : u ≠ t := by
      rintro rfl
      rw [update_self] at hu
      cases hu
    rw [update_of_ne hut] at hu
    exact h.cleaned u call' hu
  · obtain ⟨timeout, now, hin, h0, hle⟩ := h.expired k hk
    exact ⟨timeout, now, List.mem_cons_of_mem _ hin, h0, hle⟩

theorem pop (hpc : pc t = .wait call stage) (h0 : call.timeout ≠ 0) (hi : inserted stage = true)
    (hm : mode c = .timer time) (hle : wakeupTime t ≤ time) :
    Timers pc waits wakeupTime clock mode (timeouts.erase t) timings
      (⟨t, waits t⟩ :: expiries) := by
  refine ⟨h.mode, h.timing, h.current, fun u call' st hu h0' hi' => ?_,
    fun u call' hu => List.mem_cons_of_mem _ (h.cleaned u call' hu), fun k hk => ?_⟩
  · by_cases hut : u = t
    · subst hut
      exact .inr List.mem_cons_self
    · exact (h.registered u call' st hu h0' hi').imp (List.mem_erase_of_ne hut).mpr
        (List.mem_cons_of_mem _)
  · rcases List.mem_cons.mp hk with rfl | hk
    · obtain ⟨now, hin, he⟩ := h.timing t call stage hpc h0 (computed_of_inserted hi)
      have htime := h.mode c time hm
      exact ⟨call.timeout, now, hin, h0, by omega⟩
    · exact h.expired k hk

end

end Timers

theorem timers_waits (hc : Timely s s')
    (h : TimersIn s) (hpc : s.pc t = .wait call stage)
    (hw : Waits sys s t call stage s') : TimersIn s' := by
  have hret := returned_ne_wait sys t
  have hnext : ∀ {stage' : WaitStage}, (computed stage = true → computed stage' = true) →
      (call.timeout ≠ 0 → computed stage' = true → computed stage = true) →
      (call.timeout ≠ 0 → inserted stage' = true → inserted stage = true) →
      stage' ≠ .cleaned true →
      Timers (update s.pc t (.wait call stage')) s.waits s.wakeupTime s.clock s.mode
        s.timeouts (SchedTimeouts.timings s.log) (SchedTimeouts.expiries s.log) := by
    intro stage' h1 h2 h3 h4
    exact h.next hpc (fun _ _ hu => hu) h1 h2
      (fun h0 hi => h.registered t call stage hpc h0 (h3 h0 hi)) (fun he => absurd he h4)
  cases hw with
  | metReturn | returnTimer _ | returnWaitable _ _ => exact h.leave hret
  | untimed h0 => exact hnext (fun _ => rfl) (fun h => absurd h0 h) (fun h => absurd h0 h) (by simp)
  | compute h0 =>
    have hlt : call.timeout + s.clock < 2 ^ 64 :=
      hc.compute t call hpc (update_self ..)
    have h' := h.compute hpc
    rw [← Nat.mod_eq_of_lt hlt] at h'
    exact h'
  | insert =>
    exact h.next hpc (fun _ _ hu => List.mem_cons_of_mem _ hu) (fun _ => rfl) (fun _ _ => rfl)
      (fun _ _ => .inl List.mem_cons_self) (by simp)
  | cleanTimed h0 =>
    refine h.next hpc (fun u hne hu => (List.mem_erase_of_ne hne).mpr hu) (fun _ => rfl)
      (fun _ _ => rfl) (fun _ hi => by cases hi) (fun he => ?_)
    have hout : t ∉ s.timeouts := by simpa using WaitStage.cleaned.inj he
    exact (h.registered t call .resumed hpc h0 rfl).resolve_left hout
  | _ => exact hnext (by simp [computed]) (by simp [computed]) (by simp [inserted]) (by simp)

theorem timers_move (hc : Timely s s') (hr : RegisteredIn s)
    (h : TimersIn s) (hm : Move sys s a s') : TimersIn s' := by
  cases hm with
  | tick _ => exact h.tick _
  | irq _ =>
    refine h.setMode fun time he => ?_
    cases he
    exact Nat.le_refl _
  | timerPop hm _ ht hle =>
    obtain ⟨call, stage, hpc, h0, hi⟩ := hr.timeout _ ht
    exact h.pop hpc h0 hi hm hle
  | timerReturn _ _ => exact h.setMode (by simp)
  | preempt _ hs =>
    cases hs with
    | stays _ => exact h
    | idles _ _ | switches _ _ => exact h.setMode (by simp)
  | block _ hpc hs =>
    have h' := h.next hpc (fun _ _ hu => hu) (fun _ => rfl) (fun _ _ => rfl)
      (fun h0 _ => h.registered _ _ _ hpc h0 rfl) (by simp : WaitStage.resumed ≠ .cleaned true).elim
    cases hs with
    | stays _ => exact h'
    | idles _ _ | switches _ _ => exact h'.setMode (by simp)
  | leave _ _ hs =>
    cases hs with
    | stays _ => exact h.leave (by simp)
    | idles _ _ | switches _ _ => exact (h.leave (by simp)).setMode (by simp)
  | wait _ hpc hw => exact timers_waits hc h hpc hw
  | wake _ _ hw => cases hw <;> exact h.leave (by simp)
  | reap _ _ hw =>
    cases hw with
    | wait _ => exact h.begin _
    | free _ hp | skip _ hp => rcases hp with rfl | ⟨part', rfl⟩ <;> exact h.leave (by simp)
    | _ => exact h.leave (by simp)
  | outside _ _ hw =>
    cases hw with
    | wait _ _ _ => exact h.begin _
    | wake _ | exit => exact h.leave (by simp)
    | _ => exact h
  | finalize _ hf => cases hf <;> exact h.setMode (by simp)
  | _ => exact h

theorem timers_initial (h : Initial sys s) : TimersIn s := by
  have hpc := h.not_waiting
  rw [TimersIn, h.log]
  refine ⟨fun c time hm => ?_, fun t call stage ht => absurd ht (hpc _ _ _),
    fun k timeout now hk => ?_,
    fun t call stage ht => absurd ht (hpc _ _ _), fun t call ht => absurd ht (hpc _ _ _),
    fun k hk => ?_⟩
  · rw [h.mode c] at hm
    cases hm
  · cases hk
  · cases hk

end Timers

variable {log : List (Event Cpu Thr Wq)} {e : Event Cpu Thr Wq} {k : Token Thr}

section Evidence

variable {pc : Thr → Pc Thr Wq} {state : Thr → ThreadState} {waits : Thr → ℕ}
  {hand : Agent Cpu Thr → Hand Thr} {taken taken' : Token Thr → Prop}

/-- The program points between the store of `THREAD_BLOCKING` and the return, the ones
where the condition was met apart. -/
def waiting : WaitStage → Bool
  | .entered | .conditionMet | .storedRunning => false
  | _ => true

/-- A wait has been dequeued from its waitable or from the timeout heap. -/
def Taken (sys : System Cpu Thr Wq) (log : List (Event Cpu Thr Wq)) (k : Token Thr) : Prop :=
  k ∈ expiries log ∨ ∃ w, k ∈ wokes sys log w

/-- What an agent holds belongs to the wait the thread is in, and a wait that no longer
blocks has been dequeued. -/
structure Evidence (pc : Thr → Pc Thr Wq) (state : Thr → ThreadState) (waits : Thr → ℕ)
    (hand : Agent Cpu Thr → Hand Thr) (taken : Token Thr → Prop) : Prop where
  hand : ∀ a k, hand a = .dequeued k → k.wait = waits k.thread ∧ taken k
  awake : ∀ t call stage, pc t = .wait call stage → waiting stage = true →
    Blocks (state t) ∨ taken ⟨t, waits t⟩

abbrev EvidenceIn (sys : System Cpu Thr Wq) (s : State Cpu Thr Wq) : Prop :=
  Evidence s.pc s.state s.waits s.hand (Taken sys s.log)

namespace Evidence

section

variable (h : Evidence pc state waits hand taken)
include h

theorem mono (ht : ∀ k, taken k → taken' k) :
    Evidence pc state waits hand taken' :=
  ⟨fun a k hk => (h.hand a k hk).imp_right (ht k),
    fun t call stage hpc hw => (h.awake t call stage hpc hw).imp_right (ht _)⟩

theorem goto (hst : ∀ u, u ≠ t → state' u = state u)
    (h1 : ∀ call stage, p = .wait call stage → waiting stage = true → Blocks (state' t) ∨
      taken ⟨t, waits t⟩) : Evidence (update pc t p) state' waits hand taken := by
  refine ⟨h.hand, fun u call stage hu hw => ?_⟩
  rcases update_eq hu with ⟨rfl, hit⟩ | ⟨hut, hu⟩
  · exact h1 call stage hit hw
  · rw [hst u hut]
    exact h.awake u call stage hu hw

theorem restate
    (h1 : ∀ call stage, pc t = .wait call stage → waiting stage = true → Blocks st ∨ taken ⟨t,
      waits t⟩) : Evidence pc (update state t st) waits hand taken := by
  refine ⟨h.hand, fun u call stage hu hw => ?_⟩
  by_cases hut : u = t
  · subst hut
    rw [update_self]
    exact h1 call stage hu hw
  · rw [update_of_ne hut]
    exact h.awake u call stage hu hw

theorem setHand {a : Agent Cpu Thr}
    (hx : ∀ k, x = .dequeued k → k.wait = waits k.thread ∧ taken k) :
    Evidence pc state waits (update hand a x) taken := by
  refine ⟨fun a' k hk => ?_, h.awake⟩
  rcases update_eq hk with ⟨rfl, hit⟩ | ⟨ha, hk⟩
  · exact hx k hit
  · exact h.hand a' k hk

theorem exchange {a : Agent Cpu Thr} (hk : hand a = .dequeued k) :
    Evidence pc (update state k.thread .runable) waits hand taken := by
  obtain ⟨hwait, htaken⟩ := h.hand a k hk
  exact h.restate fun _ _ _ _ => .inr (by rwa [← hwait])

theorem begin (call : WaitCall Wq) (hne : ∀ a k, hand a = .dequeued k → k.thread ≠ t) :
    Evidence (update pc t (.wait call .entered)) state
      (update waits t (waits t + 1)) hand taken := by
  refine ⟨fun a k hk => ?_, fun u call' stage hu hw => ?_⟩
  · rw [update_of_ne (hne a k hk)]
    exact h.hand a k hk
  · have hut : u ≠ t := by
      rintro rfl
      rw [update_self] at hu
      cases hu
      cases hw
    rw [update_of_ne hut] at hu ⊢
    exact h.awake u call' stage hu hw

end

end Evidence

theorem taken_mono (k : Token Thr) (h : Taken sys log k) : Taken sys (e :: log) k := by
  refine h.imp (fun hk => ?_) fun ⟨w, hk⟩ => ⟨w, ?_⟩
  · obtain ⟨e', he', hk⟩ := List.mem_filterMap.mp hk
    exact List.mem_filterMap.mpr ⟨e', List.mem_cons_of_mem _ he', hk⟩
  · obtain ⟨e', he', hk⟩ := List.mem_filterMap.mp hk
    exact List.mem_filterMap.mpr ⟨e', List.mem_cons_of_mem _ he', hk⟩

variable {place : Thr → Place Cpu Thr}

theorem evidence_finalizes {stage : SwitchStage} (hr : RegisteredIn s) (hp : PlacedIn sys place s)
    (h : EvidenceIn sys s) (hm : s.mode c = .switching prev next stage)
    (hf : Finalizes sys s c prev next stage s') : EvidenceIn sys s' := by
  have hok := hp.stage c prev next stage hm
  have hrest : ∀ {u : Thr} {st : ThreadState}, ¬ Blocks (s.state u) →
      Evidence s.pc (update s.state u st) s.waits s.hand (Taken sys s.log) :=
    fun hb => h.restate fun call stage hu hw => .inr ((h.awake _ call stage hu hw).resolve_left hb)
  cases hf with
  | storeRunning hi =>
    have hni : place next ≠ .idle := mt (hp.located next).idle_state.mp hi
    exact hrest (by simp [Blocks, hok.2 hni])
  | storeRunable =>
    have hb : ¬ Blocks (s.state prev) := by rcases hok.2.2.2 with he | he <;> simp [Blocks, he]
    exact hrest hb
  | commit _ hb =>
    have h' : Evidence s.pc (update s.state prev .blocked) s.waits s.hand
        (Taken sys s.log) := h.restate fun _ _ _ _ => .inl (.inr rfl)
    exact h'
  | @reapWake k rest _ hl =>
    refine (h.mono fun k hk => taken_mono k (taken_mono k hk)).setHand fun k' he => ?_
    cases he
    refine ⟨(hr.token _ k (hl ▸ List.mem_cons_self)).1, .inr ⟨sys.reaperWaiter, ?_⟩⟩
    rw [wokes_roused, update_self]
    exact List.mem_cons_self
  | _ => exact h

theorem evidence_waits (h : EvidenceIn sys s)
    (hpc : s.pc t = .wait call stage) (hw : Waits sys s t call stage s') : EvidenceIn sys s' := by
  have hret := returned_ne_wait sys t
  have hnext : ∀ {stage' : WaitStage}, waiting stage = true →
      Evidence (update s.pc t (.wait call stage')) s.state s.waits s.hand
        (Taken sys s.log) :=
    fun hw => h.goto (fun _ _ => rfl) fun _ _ _ _ => h.awake t call stage hpc hw
  cases hw with
  | storeBlocking =>
    exact h.goto (fun u hu => update_of_ne hu ..)
      fun _ _ _ _ => .inl (.inl (update_self ..))
  | storeRunning =>
    refine h.goto (fun u hu => update_of_ne hu ..) fun _ _ he hw => ?_
    cases he
    cases hw
  | metReturn | returnTimer _ | returnWaitable _ _ =>
    exact h.goto (fun _ _ => rfl) fun _ _ he => absurd he (hret _ _)
  | _ => exact hnext rfl

theorem evidence_move (hc : Timely s s') (hr : RegisteredIn s)
    (hp : PlacedIn sys place s)
    (h : EvidenceIn sys s) (hm : Move sys s a s') : EvidenceIn sys s' := by
  have hgo : ∀ {t : Thr} {p : Pc Thr Wq}, (∀ call stage, p ≠ .wait call stage) →
      Evidence (update s.pc t p) s.state s.waits s.hand (Taken sys s.log) :=
    fun hp => h.goto (fun _ _ => rfl) fun _ _ he => absurd he (hp _ _)
  cases hm with
  | timerPop _ _ ht _ =>
    refine (h.mono taken_mono).setHand fun k he => ?_
    cases he
    exact ⟨rfl, .inl List.mem_cons_self⟩
  | exchange _ hk =>
    refine (h.exchange hk).setHand fun k he => ?_
    split at he <;> cases he
  | enqueue _ _ => exact h.setHand (by simp)
  | preempt _ hs => cases hs <;> exact h
  | block _ hpc hs =>
    cases hs <;> exact h.goto (fun _ _ => rfl) fun _ _ _ _ => h.awake _ _ _ hpc rfl
  | leave _ _ hs => cases hs <;> exact hgo (by simp)
  | wait _ hpc hw => exact evidence_waits h hpc hw
  | @wake c choice t w threads woken stage s' _ _ hw =>
    cases hw with
    | @pop k rest hl =>
      refine ((hgo (by simp)).mono taken_mono).setHand fun k' he => ?_
      cases he
      refine ⟨(hr.token _ k (hl ▸ List.mem_cons_self)).1, .inr ⟨w, ?_⟩⟩
      rw [wokes_woke, update_self]
      exact List.mem_cons_self
    | _ => exact hgo (by simp)
  | reap _ _ hw =>
    cases hw with
    | wait _ => exact h.begin _ (hc.begin _ (by simp [State.goto, State.disablePreemption]))
    | free _ hp | skip _ hp => rcases hp with rfl | ⟨part', rfl⟩ <;> exact hgo (by simp)
    | _ => exact hgo (by simp)
  | outside _ _ hw =>
    cases hw with
    | wait _ _ _ => exact h.begin _ (hc.begin _ (by simp [State.goto, State.disablePreemption]))
    | wake _ => exact hgo (by simp)
    | exit => exact h.goto (fun u hu => update_of_ne hu ..) (by simp)
    | _ => exact h
  | finalize hm hf => exact evidence_finalizes hr hp h hm hf
  | _ => exact h

theorem evidence_initial (h : Initial sys s) : EvidenceIn sys s := by
  refine ⟨fun a k hk => ?_, fun t call stage ht => ?_⟩
  · rw [h.hand a] at hk
    cases hk
  · exact absurd ht (h.not_waiting t call _)

end Evidence

section Reasons

/-- What the return of a wait shows: a timeout of its own that has passed, and for an
untimed wait that its condition was met or that its token was dequeued. -/
def Reason (sys : System Cpu Thr Wq) (log : List (Event Cpu Thr Wq)) (k : Token Thr)
    (call : WaitCall Wq) (status : WaitStatus) (now : ℕ) : Prop :=
  (status = .timedOut → call.timeout ≠ 0 ∧
    ∃ start, .timed k call.timeout start ∈ log ∧ start + call.timeout ≤ now) ∧
  (call.timeout = 0 → status = .conditionMet ∨
    (status = .woken ∧ ∃ w, call.waitable = some w ∧ k ∈ wokes sys log w))

def Reasons (sys : System Cpu Thr Wq) (log : List (Event Cpu Thr Wq)) : Prop :=
  ∀ k call status now, .returned k call status now ∈ log → Reason sys log k call status now

variable {now : ℕ}

theorem Reason.mono (h : Reason sys log k call status now) (e : Event Cpu Thr Wq) :
    Reason sys (e :: log) k call status now := by
  refine ⟨fun hst => ?_, fun h0 => (h.2 h0).imp_right fun ⟨hst, w, hw, hk⟩ => ⟨hst, w, hw, ?_⟩⟩
  · obtain ⟨h0, start, hin, hle⟩ := h.1 hst
    exact ⟨h0, start, List.mem_cons_of_mem _ hin, hle⟩
  · obtain ⟨e', he', hk⟩ := List.mem_filterMap.mp hk
    exact List.mem_filterMap.mpr ⟨e', List.mem_cons_of_mem _ he', hk⟩

theorem Reasons.cons (h : Reasons sys log)
    (he : ∀ k call status now, e = .returned k call status now →
      Reason sys log k call status now) : Reasons sys (e :: log) := by
  intro k call status now hk
  rcases List.mem_cons.mp hk with heq | hk
  · exact (he k call status now heq.symm).mono e
  · exact (h k call status now hk).mono e

theorem mem_timings : (k, timeout, now) ∈ timings log ↔ .timed k timeout now ∈ log := by
  simp only [timings, List.mem_filterMap]
  constructor
  · rintro ⟨e, he, hk⟩
    cases e <;> simp only [reduceCtorEq] at hk
    cases hk
    exact he
  · exact fun he => ⟨_, he, rfl⟩

structure Prompt (sys : System Cpu Thr Wq) (s : State Cpu Thr Wq) : Prop where
  timers : TimersIn s
  evidence : EvidenceIn sys s
  reasons : Reasons sys s.log

theorem expired_reason (h : Prompt sys s) (hpc : s.pc t = .wait call stage)
    (hk : s.token t ∈ expiries s.log) : call.timeout ≠ 0 ∧
      ∃ start, .timed (s.token t) call.timeout start ∈ s.log ∧ start + call.timeout ≤ s.clock := by
  obtain ⟨timeout, now, hin, h0, hle⟩ := h.timers.expired _ hk
  rcases h.timers.current _ timeout now hin with hlt | ⟨-, hall⟩
  · exact absurd hlt (Nat.lt_irrefl _)
  · obtain ⟨rfl, -⟩ := hall call stage hpc
    exact ⟨h0, now, mem_timings.mp hin, by omega⟩

section

variable (hinv : Inv sys s) (ha : Accounts sys s) (h : Prompt sys s)

include hinv ha h

theorem cleaned_reason (hpc : s.pc t = .wait call (.cleaned timedOut))
    (hk : s.token t ∈ s.waiters w) : s.token t ∈ expiries s.log := by
  have hb : ¬ Blocks (s.state t) := by
    intro hb
    obtain ⟨call', stage, hpc', hmay⟩ := hinv.control.blocks t hb
    rw [hpc] at hpc'
    cases hpc'
    cases hmay
  rcases (h.evidence.awake t call _ hpc rfl).resolve_left hb with hexp | ⟨w', hw'⟩
  · exact hexp
  · have hp' : s.token t ∈ pushes s.log w' :=
      (ha.ledger.fifo w').subset (List.mem_append_right _ hw')
    have hww : ∀ w', s.token t ∈ pushes s.log w' → call.waitable = some w' := by
      intro w' hp'
      rcases ha.ledger.pushed w' _ hp' with hlt | ⟨-, hall⟩
      · exact absurd hlt (Nat.lt_irrefl _)
      · exact (hall call _ hpc).1
    have hp : s.token t ∈ pushes s.log w :=
      (ha.ledger.fifo w).subset (List.mem_append_left _ (List.mem_reverse.mpr hk))
    obtain rfl := Option.some.inj ((hww w hp).symm.trans (hww w' hp'))
    exact absurd hw' (ha.ledger.waiting_not_woke hk)

theorem reasons_waits
    (hpc : s.pc t = .wait call stage) (hw : Waits sys s t call stage s') : Reasons sys s'.log := by
  cases hw with
  | metReturn =>
    refine h.reasons.cons fun k call' status now he => ?_
    cases he
    exact ⟨by simp, fun _ => .inl rfl⟩
  | returnTimer hn =>
    have h0 : call.timeout ≠ 0 := by
      refine (valid_registers (hpc ▸ hinv.calls t)).resolve_left ?_
      rintro ⟨w, hw⟩
      rw [hn] at hw
      cases hw
    refine h.reasons.cons fun k call' status now he => ?_
    cases he
    refine ⟨fun hst => ?_, fun hz => absurd hz h0⟩
    split at hst
    · subst_vars
      exact expired_reason h hpc (h.timers.cleaned t call hpc)
    · cases hst
  | @returnWaitable w _ hw _ =>
    refine h.reasons.cons fun k call' status now he => ?_
    cases he
    by_cases hk : s.token t ∈ s.waiters w
    · have hreason := expired_reason h hpc (cleaned_reason hinv ha h hpc hk)
      exact ⟨fun _ => hreason, fun hz => absurd hz hreason.1⟩
    · rw [if_neg hk]
      refine ⟨by simp, fun _ => .inr ⟨rfl, _, hw, ?_⟩⟩
      exact (ha.ledger.current t call _ _ hpc hw rfl).resolve_left hk
  | storeBlocking | storeRunning | push _ _ _ | compute _ => exact h.reasons.cons (by simp)
  | _ => exact h.reasons

theorem reasons_move
    (hm : Move sys s a s') : Reasons sys s'.log := by
  have hcons : ∀ {e : Event Cpu Thr Wq}, (∀ k call status now, e ≠ .returned k call status now) →
      Reasons sys (e :: s.log) :=
    fun he => h.reasons.cons fun k call status now heq => absurd heq (he k call status now)
  cases hm with
  | timerPop _ _ _ _ | exchange _ _ | enqueue _ _ => exact hcons (by simp)
  | preempt _ hs | block _ _ hs | leave _ _ hs => cases hs <;> exact h.reasons
  | wait _ hpc hw => exact reasons_waits hinv ha h hpc hw
  | wake _ _ hw =>
    cases hw with
    | done | none _ | pop _ => exact hcons (by simp)
    | _ => exact h.reasons
  | reap _ _ hw =>
    cases hw with
    | pop _ _ | free _ _ => exact hcons (by simp)
    | _ => exact h.reasons
  | outside _ _ hw =>
    cases hw with
    | exit => exact (hcons (by simp)).cons (by simp)
    | _ => exact h.reasons
  | finalize _ hf =>
    cases hf with
    | setCurrent | commit _ _ | reapWake _ _ | save _ => exact (hcons (by simp)).cons (by simp)
    | storeRunning _ | storeRunable | reapPush _ _ | skipSave _ | restore _ =>
      exact hcons (by simp)
    | _ => exact h.reasons
  | _ => exact h.reasons

end

theorem prompt_initial (h : Initial sys s) : Prompt sys s := by
  refine ⟨timers_initial h, evidence_initial h, fun k call status now hk => ?_⟩
  rw [h.log] at hk
  cases hk

theorem reachable_prompt (h : Reachable sys (EveryStep sys Timely) s) : Prompt sys s := by
  refine reachable_invariant (fun _ => prompt_initial) (fun s a s' hr hp hok hs hm => ?_) h
  have hinv := reachable_inv hr
  obtain ⟨place, hplaced, -⟩ := hinv.sound.placed
  have hc := hok s' hs
  exact ⟨timers_move hc hinv.registered hp.timers hm,
    evidence_move hc hinv.registered hplaced hp.evidence hm,
    reasons_move hinv (reachable_accounts hr) hp hm⟩

/-- Where no exchange falls into a later wait and no `wakeup_time` wraps, every wait that
returns does so for a reason. -/
theorem waits_return_for_a_reason (h : Reachable sys (EveryStep sys Timely) s) (k : Token Thr)
    (call : WaitCall Wq) (status : WaitStatus) (now : ℕ)
    (hr : .returned k call status now ∈ s.log) : Reason sys s.log k call status now :=
  (reachable_prompt h).reasons k call status now hr

/-- Thread 4 dequeues thread 3 from a timed wait and has yet to exchange its state when the
timeout handler makes thread 3 runnable and its wait returns. -/
def staleHand : List (Action (Fin 2) (Fin 5) (Fin 2)) :=
  dispatch 0 ++ dispatch 1 ++ .cpu 0 (.wait ⟨some 1, false, 5⟩) :: goes 0 13 ++
  .cpu 1 (.wake 1 1) :: goes 1 2 ++ .tick 10 :: .irq 0 :: .cpu 0 (.pop 3) :: goes 0 13

/-- Thread 3 waits again, without a timeout, and only then comes the exchange. -/
def staleWake : List (Action (Fin 2) (Fin 5) (Fin 2)) :=
  staleHand ++ .cpu 0 (.wait ⟨some 1, false, 0⟩) :: goes 0 3 ++ goes 1 2 ++ goes 0 10 ++
  .irq 0 :: goes 0 11

/-- Thread 3 waits for the longest time there is and is woken by the next interrupt. -/
def wrappedTimeout : List (Action (Fin 2) (Fin 5) (Fin 2)) :=
  .tick 10 :: dispatch 0 ++ .cpu 0 (.wait ⟨none, false, 2 ^ 64 - 1⟩) :: goes 0 13 ++
  .irq 0 :: .cpu 0 (.pop 3) :: goes 0 13

theorem waits_time_out_early :
    (∃ s, Reachable machine (fun _ _ => True) s ∧
      .returned ⟨3, 2⟩ ⟨some 1, false, 0⟩ .timedOut 10 ∈ s.log) ∧
    (∃ s, Reachable machine (fun _ _ => True) s ∧
      .returned ⟨3, 1⟩ ⟨none, false, 2 ^ 64 - 1⟩ .timedOut 10 ∈ s.log) := by
  constructor
  · obtain ⟨s, hs, hp⟩ := run_reaches (p := fun s =>
      .returned ⟨3, 2⟩ ⟨some 1, false, 0⟩ .timedOut 10 ∈ s.log) queues_initial
      (meets_true staleWake _) (by decide +kernel)
    exact ⟨s, hs, of_decide_eq_true hp⟩
  · obtain ⟨s, hs, hp⟩ := run_reaches (p := fun s =>
      .returned ⟨3, 1⟩ ⟨none, false, 2 ^ 64 - 1⟩ .timedOut 10 ∈ s.log) queues_initial
      (meets_true wrappedTimeout _) (by decide +kernel)
    exact ⟨s, hs, of_decide_eq_true hp⟩

def dequeuedOf : Hand Thr → Option Thr
  | .dequeued k => some k.thread
  | _ => none

/-- The timeout that a wait is about to add to the clock. -/
def addend : Pc Thr Wq → ℕ
  | .wait call .enqueued => call.timeout
  | _ => 0

def timely (s s' : State (Fin 2) (Fin 5) (Fin 2)) : Bool :=
  decide (∀ t, s'.waits t ≠ s.waits t → (∀ c, dequeuedOf (s.hand (.cpu c)) ≠ some t) ∧
    ∀ u, dequeuedOf (s.hand (.thread u)) ≠ some t) &&
  decide (∀ t, addend (s.pc t) + s.clock < 2 ^ 64)

theorem timely_sound (s s' : State (Fin 2) (Fin 5) (Fin 2)) (h : timely s s' = true) :
    Timely s s' := by
  simp only [timely, Bool.and_eq_true, decide_eq_true_eq] at h
  refine ⟨fun t ht a k hk he => ?_, fun t call hpc _ => ?_⟩
  · obtain ⟨hcpu, hthread⟩ := h.1 t ht
    cases a with
    | cpu c => exact hcpu c (by rw [hk, dequeuedOf, he])
    | thread u => exact hthread u (by rw [hk, dequeuedOf, he])
  · have hlt := h.2 t
    rwa [hpc] at hlt

def sleeps : List (Action (Fin 2) (Fin 5) (Fin 2)) :=
  dispatch 0 ++ .cpu 0 (.wait ⟨none, false, 5⟩) :: goes 0 13 ++
  .tick 10 :: .irq 0 :: .cpu 0 (.pop 3) :: goes 0 13

theorem sleep_returns_for_a_reason : ∃ s, Reachable machine (EveryStep machine Timely) s ∧
    .returned ⟨3, 1⟩ ⟨none, false, 5⟩ .timedOut 10 ∈ s.log ∧
    Reason machine s.log ⟨3, 1⟩ ⟨none, false, 5⟩ .timedOut 10 := by
  obtain ⟨s, hs, hp⟩ := run_reaches (p := fun s =>
    .returned ⟨3, 1⟩ ⟨none, false, 5⟩ .timedOut 10 ∈ s.log) queues_initial
    (meets_of_checks timely_sound (by decide +kernel : checks machine timely sleeps _ = true))
    (by decide +kernel)
  have hr := of_decide_eq_true hp
  exact ⟨s, hs, hr, waits_return_for_a_reason hs _ _ _ _ hr⟩

end Reasons

end SchedTimeouts
