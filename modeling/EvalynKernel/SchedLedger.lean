import EvalynKernel.SchedThreads

/-! # The ledger of a waitable

The tokens pushed on a waitable, those that wakers dequeued and the statuses that waits
returned, read off the log, against the list of waiting tokens. -/
namespace SchedLedger

set_option linter.unusedSectionVars false

open Function SchedState SchedSteps SchedMoves SchedPlaces SchedRegistrations

variable {Cpu Thr Wq : Type} [DecidableEq Cpu] [DecidableEq Thr] [DecidableEq Wq]
  {sys : System Cpu Thr Wq} {s s' : State Cpu Thr Wq} {c : Cpu} {t : Thr} {w : Wq}

def pushes (log : List (Event Cpu Thr Wq)) (w : Wq) : List (Token Thr) :=
  log.filterMap fun
    | .pushed w' k => if w' = w then some k else none
    | _ => none

/-- The tokens dequeued from the waitable by wakers, newest first. `schedule_finalize`
dequeues from the reaper's waitable. -/
def wokes (sys : System Cpu Thr Wq) (log : List (Event Cpu Thr Wq)) (w : Wq) : List (Token Thr) :=
  log.filterMap fun
    | .woke _ _ w' k => if w' = w then some k else none
    | .roused k => if sys.reaperWaiter = w then some k else none
    | _ => none

def returns (log : List (Event Cpu Thr Wq)) : List (Token Thr × WaitStatus) :=
  log.filterMap fun
    | .returned k _ st _ => some (k, st)
    | _ => none

theorem pushes_pushed (log : List (Event Cpu Thr Wq)) (w : Wq) (k : Token Thr) :
    pushes (.pushed w k :: log) = update (pushes log) w (k :: pushes log w) := by
  refine eq_update_iff.mpr ⟨by simp [pushes], fun w' hw => ?_⟩
  simp [pushes, Ne.symm hw]

theorem wokes_woke (sys : System Cpu Thr Wq) (log : List (Event Cpu Thr Wq)) (t : Thr) (n : ℕ)
    (w : Wq) (k : Token Thr) :
    wokes sys (.woke t n w k :: log) = update (wokes sys log) w (k :: wokes sys log w) := by
  refine eq_update_iff.mpr ⟨by simp [wokes], fun w' hw => ?_⟩
  simp [wokes, Ne.symm hw]

theorem wokes_roused (sys : System Cpu Thr Wq) (log : List (Event Cpu Thr Wq)) (k : Token Thr) :
    wokes sys (.roused k :: log) = update (wokes sys log) sys.reaperWaiter
      (k :: wokes sys log sys.reaperWaiter) := by
  refine eq_update_iff.mpr ⟨by simp [wokes], fun w hw => ?_⟩
  simp [wokes, Ne.symm hw]

variable {call : WaitCall Wq} {stage : WaitStage}

section Ledger

variable {pc : Thr → Pc Thr Wq} {waits : Thr → ℕ} {waiters pushes wokes : Wq → List (Token Thr)}
  {returns : List (Token Thr × WaitStatus)}

/-- The status a wait returns whose token was pushed on a waitable with these wakes. -/
def outcome (wokes : List (Token Thr)) (k : Token Thr) : WaitStatus :=
  if wokes.contains k then .woken else .timedOut

theorem outcome_eq (wokes : List (Token Thr)) (k : Token Thr) :
    outcome wokes k = if k ∈ wokes then .woken else .timedOut := by
  simp [outcome]

structure Ledger (pc : Thr → Pc Thr Wq) (waits : Thr → ℕ)
    (waiters pushes wokes : Wq → List (Token Thr)) (returns : List (Token Thr × WaitStatus)) :
    Prop where
  fifo : ∀ w, ((waiters w).reverse ++ wokes w).Sublist (pushes w)
  nodup : ∀ w, (pushes w).Nodup
  pushed : ∀ w k, k ∈ pushes w → k.wait < waits k.thread ∨ (k.wait = waits k.thread ∧
    ∀ call stage, pc k.thread = .wait call stage → call.waitable = some w ∧ pushed stage = true)
  current : ∀ t call stage w, pc t = .wait call stage → call.waitable = some w →
    SchedRegistrations.pushed stage = true →
    ⟨t, waits t⟩ ∈ waiters w ∨ ⟨t, waits t⟩ ∈ wokes w
  returned : ∀ k st, (k, st) ∈ returns → k.wait < waits k.thread ∨ (k.wait = waits k.thread ∧
    ∀ call stage, pc k.thread ≠ .wait call stage)
  status : ∀ k st w, (k, st) ∈ returns → k ∈ pushes w → st = outcome (wokes w) k
  met : ∀ k w, (k, .conditionMet) ∈ returns → k ∉ pushes w
  unfinished : ∀ w k, k ∈ pushes w → (∃ st, (k, st) ∈ returns) ∨
    (k.wait = waits k.thread ∧ ∃ call stage, pc k.thread = .wait call stage)

abbrev LedgerIn (sys : System Cpu Thr Wq) (s : State Cpu Thr Wq) : Prop :=
  Ledger s.pc s.waits s.waiters (SchedLedger.pushes s.log) (SchedLedger.wokes sys s.log)
    (SchedLedger.returns s.log)

namespace Ledger

section

variable (h : Ledger pc waits waiters pushes wokes returns)
include h

variable {p : Pc Thr Wq}

theorem not_pushed (hpc : pc t = p)
    (hp : ∃ call stage, p = .wait call stage ∧ (call.waitable ≠ some w ∨
      SchedRegistrations.pushed stage = false)) : ⟨t, waits t⟩ ∉ pushes w := by
  intro hk
  obtain ⟨call, stage, rfl, hno⟩ := hp
  rcases h.pushed w _ hk with hlt | ⟨-, hall⟩
  · exact absurd hlt (Nat.lt_irrefl _)
  · obtain ⟨hw, hq⟩ := hall call stage hpc
    rcases hno with hno | hno
    · exact hno hw
    · rw [hno] at hq
      cases hq

variable {k : Token Thr}

theorem waiting_not_woke (hk : k ∈ waiters w) : k ∉ wokes w := by
  have hnd := (h.fifo w).nodup (h.nodup w)
  exact fun hk' => (List.disjoint_of_nodup_append hnd) (List.mem_reverse.mpr hk) hk'

variable {st : WaitStatus}

theorem not_returned (hpc : pc t = .wait call stage) : (⟨t, waits t⟩, st) ∉ returns := by
  intro hr
  rcases h.returned _ _ hr with hlt | ⟨-, hall⟩
  · exact absurd hlt (Nat.lt_irrefl _)
  · exact hall call stage hpc

theorem goto (h1 : ∀ w, ⟨t, waits t⟩ ∈ pushes w → ∀ call stage, p = .wait call stage →
      call.waitable = some w ∧ SchedRegistrations.pushed stage = true)
    (h2 : ∀ call stage w, p = .wait call stage → call.waitable = some w →
      SchedRegistrations.pushed stage = true → ⟨t, waits t⟩ ∈ waiters w ∨ ⟨t, waits t⟩ ∈ wokes w)
    (h3 : ∀ call stage, p = .wait call stage → ∀ st, (⟨t, waits t⟩, st) ∉ returns)
    (h4 : ∀ call stage, pc t = .wait call stage → ∃ call' stage', p = .wait call' stage') :
    Ledger (update pc t p) waits waiters pushes wokes returns := by
  refine ⟨h.fifo, h.nodup, fun w k hk => ?_, fun u call stage w hu hw hq => ?_,
    fun k st hk => ?_, h.status, h.met, fun w k hk => ?_⟩
  · rcases h.pushed w k hk with hlt | ⟨he, hall⟩
    · exact .inl hlt
    · refine .inr ⟨he, fun call stage hu => ?_⟩
      rcases update_eq hu with ⟨rfl, hit⟩ | ⟨hkt, hu⟩
      · exact h1 w (by rwa [← he]) call stage hit
      · exact hall call stage hu
  · rcases update_eq hu with ⟨rfl, hit⟩ | ⟨hut, hu⟩
    · exact h2 call stage w hit hw hq
    · exact h.current u call stage w hu hw hq
  · rcases h.returned k st hk with hlt | ⟨he, hall⟩
    · exact .inl hlt
    · refine .inr ⟨he, fun call stage hu => ?_⟩
      rcases update_eq hu with ⟨rfl, hit⟩ | ⟨hkt, hu⟩
      · exact h3 call stage hit st (by rwa [← he])
      · exact hall call stage hu
  · refine (h.unfinished w k hk).imp_right fun ⟨he, call, stage, hu⟩ => ⟨he, ?_⟩
    by_cases hkt : k.thread = t
    · rw [hkt, update_self]
      exact h4 call stage (hkt ▸ hu)
    · rw [update_of_ne hkt]
      exact ⟨call, stage, hu⟩

variable {q : Pc Thr Wq}

theorem stay (hpc : pc t = q) (hq : ∀ call stage, q ≠ .wait call stage)
    (hp : ∀ call stage, p ≠ .wait call stage) :
    Ledger (update pc t p) waits waiters pushes wokes returns :=
  h.goto (fun _ _ _ _ he => absurd he (hp _ _)) (fun _ _ _ he => absurd he (hp _ _))
    (fun _ _ he => absurd he (hp _ _)) (fun _ _ he => absurd (hpc.symm.trans he) (hq _ _))

theorem next (hpc : pc t = .wait call stage)
    (hq : call.waitable = none ∨
      SchedRegistrations.pushed stage = SchedRegistrations.pushed stage') :
    Ledger (update pc t (.wait call stage')) waits waiters pushes wokes returns := by
  refine h.goto (fun w hk call' st he => ?_) (fun call' st w he hw hq' => ?_)
    (fun _ _ _ _ => h.not_returned hpc) (fun _ _ _ => ⟨call, stage', rfl⟩)
  · cases he
    rcases h.pushed w _ hk with hlt | ⟨-, hall⟩
    · exact absurd hlt (Nat.lt_irrefl _)
    · obtain ⟨hw, hq'⟩ := hall call stage hpc
      refine ⟨hw, ?_⟩
      rcases hq with hn | hq
      · rw [hn] at hw
        cases hw
      · rwa [← hq]
  · cases he
    rcases hq with hn | hq
    · rw [hn] at hw
      cases hw
    · exact h.current t call stage w hpc hw (hq.trans hq')

theorem begin (hpc : pc t = q) (hq : ∀ call stage, q ≠ .wait call stage) (call : WaitCall Wq) :
    Ledger (update pc t (.wait call .entered))
      (update waits t (waits t + 1)) waiters pushes wokes returns := by
  refine ⟨h.fifo, h.nodup, fun w k hk => ?_, fun u call' stage w hu hw hq => ?_,
    fun k st hk => ?_, h.status, h.met, fun w k hk => ?_⟩
  · by_cases hkt : k.thread = t
    · rw [hkt, update_self]
      rcases h.pushed w k hk with hlt | ⟨he, -⟩ <;> rw [hkt] at * <;> left <;> omega
    · rw [update_of_ne hkt, update_of_ne hkt]
      exact h.pushed w k hk
  · by_cases hut : u = t
    · subst hut
      rw [update_self] at hu
      cases hu
      cases hq
    · rw [update_of_ne hut] at hu ⊢
      exact h.current u call' stage w hu hw hq
  · by_cases hkt : k.thread = t
    · rw [hkt, update_self]
      rcases h.returned k st hk with hlt | ⟨he, -⟩ <;> rw [hkt] at * <;> left <;> omega
    · rw [update_of_ne hkt, update_of_ne hkt]
      exact h.returned k st hk
  · refine (h.unfinished w k hk).imp_right fun ⟨he, call', stage, hu⟩ => ?_
    have hkt : k.thread ≠ t := by
      rintro rfl
      exact hq call' stage (hpc.symm.trans hu)
    rw [update_of_ne hkt, update_of_ne hkt]
    exact ⟨he, call', stage, hu⟩

theorem push (hpc : pc t = .wait call .storedBlocking) (hw : call.waitable = some w) :
    Ledger (update pc t (.wait call .enqueued)) waits
      (update waiters w (waiters w ++ [⟨t, waits t⟩]))
      (update pushes w (⟨t, waits t⟩ :: pushes w)) wokes returns := by
  have hnew : ∀ w', ⟨t, waits t⟩ ∉ pushes w' := fun w' => h.not_pushed hpc ⟨_, _, rfl, .inr rfl⟩
  refine ⟨fun w' => ?_, fun w' => ?_, fun w' k hk => ?_,
    fun u call' stage w' hu hw' hq => ?_, fun k st hk => ?_, fun k st w' hk hp => ?_,
    fun k w' hk hp => ?_, fun w' k hk => ?_⟩
  · by_cases hww : w' = w
    · subst hww
      rw [update_self, update_self, List.reverse_append]
      exact (h.fifo w').cons_cons _
    · rw [update_of_ne hww, update_of_ne hww]
      exact h.fifo w'
  · exact update_of List.Nodup (fun hn => List.nodup_cons.mpr ⟨hnew w, hn⟩) (h.nodup w')
  · rcases mem_update_cons hk with ⟨rfl, rfl⟩ | hk
    · refine .inr ⟨rfl, fun call' stage hu => ?_⟩
      rw [update_self] at hu
      cases hu
      exact ⟨hw, rfl⟩
    · rcases h.pushed w' k hk with hlt | ⟨he, hall⟩
      · exact .inl hlt
      · refine .inr ⟨he, fun call' stage hu => ?_⟩
        have hkt : k.thread ≠ t := by
          rintro rfl
          exact hnew w' (by rwa [← he])
        rw [update_of_ne hkt] at hu
        exact hall call' stage hu
  · rcases update_eq hu with ⟨rfl, hit⟩ | ⟨hut, hu⟩
    · cases hit
      obtain rfl := Option.some.inj (hw.symm.trans hw')
      rw [update_self]
      exact .inl (List.mem_append_right _ List.mem_cons_self)
    · refine (h.current u call' stage w' hu hw' hq).imp_left ?_
      exact update_of (_ ∈ ·) (List.mem_append_left _)
  · rcases h.returned k st hk with hlt | ⟨he, hall⟩
    · exact .inl hlt
    · refine .inr ⟨he, fun call' stage hu => ?_⟩
      have hkt : k.thread ≠ t := by
        rintro rfl
        exact hall _ _ hpc
      rw [update_of_ne hkt] at hu
      exact hall call' stage hu
  · rcases mem_update_cons hp with ⟨rfl, rfl⟩ | hp
    · exact absurd hk (h.not_returned hpc)
    · exact h.status k st w' hk hp
  · rcases mem_update_cons hp with ⟨rfl, rfl⟩ | hp
    · exact h.not_returned hpc hk
    · exact h.met k w' hk hp
  · rcases mem_update_cons hk with ⟨rfl, rfl⟩ | hk
    · exact .inr ⟨rfl, call, .enqueued, update_self ..⟩
    · refine (h.unfinished w' k hk).imp_right fun ⟨he, call', stage, hu⟩ => ⟨he, ?_⟩
      by_cases hkt : k.thread = t
      · exact ⟨call, .enqueued, by rw [hkt, update_self]⟩
      · exact ⟨call', stage, by rw [update_of_ne hkt, hu]⟩

theorem wake (hl : waiters w = k :: rest) (hret : ∀ st, (k, st) ∉ returns) :
    Ledger pc waits (update waiters w rest) pushes
      (update wokes w (k :: wokes w)) returns := by
  refine ⟨fun w' => ?_, h.nodup, h.pushed, fun u call stage w' hu hw' hq => ?_, h.returned,
    fun k' st w' hk hp => ?_, h.met, h.unfinished⟩
  · by_cases hww : w' = w
    · subst hww
      have hf := h.fifo w'
      rw [hl, List.reverse_cons, List.append_assoc, List.singleton_append] at hf
      rwa [update_self, update_self]
    · rw [update_of_ne hww, update_of_ne hww]
      exact h.fifo w'
  · have hcur := h.current u call stage w' hu hw' hq
    by_cases hww : w' = w
    · subst hww
      rw [update_self, update_self]
      rw [hl, List.mem_cons] at hcur
      rcases hcur with (he | hin) | hin
      · exact .inr (he ▸ List.mem_cons_self)
      · exact .inl hin
      · exact .inr (List.mem_cons_of_mem _ hin)
    · rwa [update_of_ne hww, update_of_ne hww]
  · rw [h.status k' st w' hk hp]
    by_cases hww : w' = w
    · subst hww
      have hkk : k' ≠ k := by
        rintro rfl
        exact hret st hk
      simp [outcome, hkk]
    · rw [update_of_ne hww]

theorem ret (hp : ∀ call stage, p ≠ .wait call stage) (hsub : ∀ w, (waiters' w).Sublist (waiters w))
    (hkeep : ∀ w k, k.thread ≠ t → k ∈ waiters w → k ∈ waiters' w)
    (hst : ∀ w, ⟨t, waits t⟩ ∈ pushes w → st = outcome (wokes w) ⟨t, waits t⟩)
    (hmet : st = .conditionMet → ∀ w, ⟨t, waits t⟩ ∉ pushes w) :
    Ledger (update pc t p) waits waiters' pushes wokes
      ((⟨t, waits t⟩, st) :: returns) := by
  refine ⟨fun w => ?_, h.nodup, fun w k hk => ?_, fun u call stage w hu hw hq => ?_,
    fun k st' hk => ?_, fun k st' w hk hpw => ?_, fun k w hk hpw => ?_, fun w k hk => ?_⟩
  · exact ((hsub w).reverse.append (List.Sublist.refl _)).trans (h.fifo w)
  · refine (h.pushed w k hk).imp_right fun ⟨he, hall⟩ => ⟨he, fun call stage hu => ?_⟩
    by_cases hkt : k.thread = t
    · rw [hkt, update_self] at hu
      exact absurd hu (hp _ _)
    · rw [update_of_ne hkt] at hu
      exact hall call stage hu
  · have hut : u ≠ t := by
      rintro rfl
      rw [update_self] at hu
      exact hp _ _ hu
    rw [update_of_ne hut] at hu
    exact (h.current u call stage w hu hw hq).imp_left (hkeep w _ hut)
  · rcases List.mem_cons.mp hk with he | hk
    · cases he
      exact .inr ⟨rfl, fun call stage => by rw [update_self]; exact hp call stage⟩
    · refine (h.returned k st' hk).imp_right fun ⟨he, hall⟩ => ⟨he, fun call stage => ?_⟩
      by_cases hkt : k.thread = t
      · rw [hkt, update_self]
        exact hp call stage
      · rw [update_of_ne hkt]
        exact hall call stage
  · rcases List.mem_cons.mp hk with he | hk
    · cases he
      exact hst w hpw
    · exact h.status k st' w hk hpw
  · rcases List.mem_cons.mp hk with he | hk
    · cases he
      exact hmet rfl w hpw
    · exact h.met k w hk hpw
  · rcases h.unfinished w k hk with ⟨st', hr⟩ | ⟨he, call, stage, hu⟩
    · exact .inl ⟨st', List.mem_cons_of_mem _ hr⟩
    · by_cases hkt : k.thread = t
      · subst hkt
        exact .inl ⟨st, by rw [← he]; exact List.mem_cons_self⟩
      · exact .inr ⟨he, call, stage, by rw [update_of_ne hkt, hu]⟩

theorem retWaitable (hpc : pc t = .wait call (.cleaned timedOut)) (hw : call.waitable = some w)
    (hp : ∀ call stage, p ≠ .wait call stage) :
    Ledger (update pc t p) waits
      (update waiters w ((waiters w).erase ⟨t, waits t⟩)) pushes wokes
      ((⟨t, waits t⟩, if ⟨t, waits t⟩ ∈ waiters w then .timedOut else .woken) :: returns) := by
  refine h.ret hp (fun w' => ?_) (fun w' k hne hk => ?_) (fun w' hk => ?_) (fun hm => ?_)
  · by_cases hww : w' = w
    · subst hww
      rw [update_self]
      exact List.erase_sublist
    · rw [update_of_ne hww]
  · have hkt : k ≠ ⟨t, waits t⟩ := fun he => hne (he ▸ rfl)
    exact update_of (k ∈ ·) (List.mem_erase_of_ne hkt).mpr hk
  · have hww : w' = w := by
      by_contra hww
      refine h.not_pushed hpc ⟨_, _, rfl, .inl ?_⟩ hk
      rw [hw]
      exact fun he => hww (Option.some.inj he).symm
    subst hww
    rcases h.current t call _ w' hpc hw rfl with hin | hin
    · rw [outcome_eq, if_neg (h.waiting_not_woke hin), if_pos hin]
    · rw [outcome_eq, if_pos hin, if_neg fun hin' => h.waiting_not_woke hin' hin]
  · split at hm <;> cases hm

end

end Ledger

end Ledger

theorem ledger_waits
    (h : LedgerIn sys s)
    (hpc : s.pc t = .wait call stage) (hw : Waits sys s t call stage s') : LedgerIn sys s' := by
  have hret := returned_ne_wait sys t
  cases hw with
  | noWaitable hn => exact h.next hpc (.inl hn)
  | push hw _ _ =>
    have h' := h.push hpc hw
    rw [← pushes_pushed] at h'
    exact h'
  | metReturn =>
    have hno : ∀ w, s.token t ∉ pushes s.log w := fun w => h.not_pushed hpc ⟨_, _, rfl, .inr rfl⟩
    exact h.ret hret (fun _ => List.Sublist.refl _) (fun _ _ _ hk => hk)
      (fun w hk => absurd hk (hno w)) (fun _ => hno)
  | returnTimer hn =>
    have hno : ∀ w, s.token t ∉ pushes s.log w := fun w =>
      h.not_pushed hpc ⟨_, _, rfl, .inl (by simp [hn])⟩
    exact h.ret hret (fun _ => List.Sublist.refl _) (fun _ _ _ hk => hk)
      (fun w hk => absurd hk (hno w)) (fun _ => hno)
  | returnWaitable hw _ => exact h.retWaitable hpc hw hret
  | _ => exact h.next hpc (.inr rfl)

theorem ledger_move (hr : RegisteredIn s) (h : LedgerIn sys s) (hm : Move sys s a s') :
    LedgerIn sys s' := by
  have hpop : ∀ {w : Wq} {k : Token Thr} {st : WaitStatus}, k ∈ s.waiters w →
      (k, st) ∉ returns s.log := by
    intro w k st hk
    obtain ⟨hwait, call, stage, hpc, -⟩ := hr.token w k hk
    have he : (⟨k.thread, s.waits k.thread⟩ : Token Thr) = k := by rw [← hwait]
    exact he ▸ h.not_returned hpc
  cases hm with
  | preempt _ hs => cases hs <;> exact h
  | block _ hpc hs => cases hs <;> exact h.next hpc (.inr rfl)
  | leave _ hpc hs => cases hs <;> exact h.stay hpc (by simp) (by simp)
  | wait _ hpc hw => exact ledger_waits h hpc hw
  | @wake c choice t w threads woken stage s' _ hpc hw =>
    cases hw with
    | pop hl =>
      have h' := h.wake hl fun st => hpop (hl ▸ List.mem_cons_self)
      rw [← wokes_woke sys s.log t (s.calls t)] at h'
      exact h'.stay hpc (by simp) (by simp)
    | _ => exact h.stay hpc (by simp) (by simp)
  | reap _ hpc hw =>
    cases hw with
    | wait _ => exact h.begin hpc (by simp) _
    | free _ hp | skip _ hp =>
      rcases hp with rfl | ⟨part', rfl⟩ <;> exact h.stay hpc (by simp) (by simp)
    | _ => exact h.stay hpc (by simp) (by simp)
  | outside _ hpc hw =>
    cases hw with
    | wait _ _ _ => exact h.begin hpc (by simp) _
    | wake _ | exit => exact h.stay hpc (by simp) (by simp)
    | _ => exact h
  | finalize _ hf =>
    cases hf with
    | reapWake _ hl =>
      have h' := h.wake hl fun st => hpop (hl ▸ List.mem_cons_self)
      rw [← wokes_roused] at h'
      exact h'
    | _ => exact h
  | _ => exact h

theorem ledger_initial (h : Initial sys s) : LedgerIn sys s := by
  have hpc := h.not_waiting
  rw [LedgerIn, h.log]
  refine ⟨fun w => ?_, fun w => List.nodup_nil, fun w k hk => ?_,
    fun u call stage w hu => absurd hu (hpc _ _ _), fun k st hk => ?_, fun k st w hk => ?_,
    fun k w hk => ?_, fun w k hk => ?_⟩
  · rw [h.waiters w]
    exact List.Sublist.refl _
  all_goals cases hk

end SchedLedger
