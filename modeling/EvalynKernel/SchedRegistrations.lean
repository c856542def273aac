import EvalynKernel.SchedControl

/-! # The registrations of a wait

A wait leaves its token with its waitable and its thread with the timeout heap. What is
registered belongs to the wait the thread is in, and a thread that may still block is
registered or in the hand of an agent that has yet to exchange its state. -/
namespace SchedRegistrations

set_option linter.unusedSectionVars false

open Function SchedState SchedSteps SchedMoves SchedPlaces SchedControl

variable {Cpu Thr Wq : Type} [DecidableEq Cpu] [DecidableEq Thr] [DecidableEq Wq]
  {sys : System Cpu Thr Wq} {s s' : State Cpu Thr Wq} {c : Cpu} {t : Thr}

/-- The program points after the section in which the token is pushed. -/
def pushed : WaitStage → Bool
  | .entered | .storedBlocking | .conditionMet | .storedRunning => false
  | _ => true

/-- The program points between the insertion into the timeout heap and its removal. -/
def inserted : WaitStage → Bool
  | .registered | .enabled | .resumed => true
  | _ => false

variable {stage : WaitStage}

theorem pushed_of_inserted (h : inserted stage = true) : pushed stage = true := by
  cases stage <;> first | rfl | cases h

/-- Which thread can be at which program point. -/
def PcOk (sys : System Cpu Thr Wq) (t : Thr) : Pc Thr Wq → Prop
  | .outside | .exiting | .exited => t ≠ sys.reaper
  | .wait call stage => ((t = sys.reaper ∧ call = reaperCall sys) ∨ (t ≠ sys.reaper ∧
      WaitCall.valid call = true ∧ call.waitable ≠ some sys.reaperWaiter)) ∧
      (stage = .computed → call.timeout ≠ 0)
  | .wake w _ _ _ => t ≠ sys.reaper ∧ w ≠ sys.reaperWaiter
  | .reap _ => t = sys.reaper

variable {p : Pc Thr Wq}

section Calls

def Calls (sys : System Cpu Thr Wq) (pc : Thr → Pc Thr Wq) : Prop := ∀ t, PcOk sys t (pc t)

variable {pc : Thr → Pc Thr Wq}

theorem Calls.goto (h : Calls sys pc) (hp : PcOk sys t p) : Calls sys (update pc t p) := by
  intro u
  by_cases hu : u = t
  · subst hu
    rwa [update_self]
  · rw [update_of_ne hu]
    exact h u

theorem calls_move {a : Action Cpu Thr Wq} (h : Calls sys s.pc) (hm : Move sys s a s') :
    Calls sys s'.pc := by
  have hat : ∀ {t : Thr} {p : Pc Thr Wq}, s.pc t = p → PcOk sys t p := by
    rintro t p rfl
    exact h t
  cases hm with
  | preempt _ hs => cases hs <;> exact h
  | block hr hpc hs =>
    have hcall := (hat hpc).1
    cases hs <;> exact h.goto ⟨hcall, by simp⟩
  | leave hr hpc hs =>
    have hne := hat hpc
    cases hs <;> exact h.goto hne
  | @wait c choice t call stage s' hr hpc hw =>
    have hcall := (hat hpc).1
    have hret : PcOk sys t (if t = sys.reaper then .reap .popping else .outside) := by
      split
      · exact ‹_›
      · exact ‹_›
    cases hw with
    | metReturn | returnTimer _ | returnWaitable _ _ => exact h.goto hret
    | compute h0 => exact h.goto ⟨hcall, fun _ => h0⟩
    | _ => exact h.goto ⟨hcall, by simp⟩
  | wake hr hpc hw =>
    have hcall := hat hpc
    cases hw with
    | done | none _ => exact h.goto hcall.1
    | _ => exact h.goto hcall
  | reap hr hpc hw =>
    have hreap := hat hpc
    cases hw with
    | wait _ => exact h.goto ⟨.inl ⟨hreap, rfl⟩, by simp⟩
    | none _ | pop _ _ => exact h.goto hreap
    | free _ hp | skip _ hp => rcases hp with rfl | ⟨part', rfl⟩ <;> exact h.goto hreap
  | outside hr hpc hw =>
    have hne := hat hpc
    cases hw with
    | wait hv hw _ => exact h.goto ⟨.inr ⟨hne, hv, hw⟩, by simp⟩
    | wake hw => exact h.goto ⟨hne, hw⟩
    | exit => exact h.goto hne
    | _ => exact h
  | finalize _ hf => cases hf <;> exact h
  | _ => exact h

theorem calls_initial (h : Initial sys s) : Calls sys s.pc := by
  intro t
  by_cases ht : t = sys.reaper
  · rw [ht, h.pc_reaper]
    rfl
  · rw [h.pc t ht]
    exact ht

end Calls

variable {call : WaitCall Wq} {waiters' : Wq → List (Token Thr)} {timeouts' : List Thr}
  {waits' : Thr → ℕ} {k : Token Thr} {rest : List (Token Thr)} {stage' : WaitStage}

section Registered

variable {pc : Thr → Pc Thr Wq} {waits : Thr → ℕ} {waiters : Wq → List (Token Thr)}
  {timeouts : List Thr} {w : Wq}

/-- What is registered belongs to the wait its thread is in. -/
structure Registered (pc : Thr → Pc Thr Wq) (waits : Thr → ℕ) (waiters : Wq → List (Token Thr))
    (timeouts : List Thr) : Prop where
  token : ∀ w k, k ∈ waiters w → k.wait = waits k.thread ∧ ∃ call stage,
    pc k.thread = .wait call stage ∧ call.waitable = some w ∧ pushed stage = true
  nodup : ∀ w, (waiters w).Nodup
  timeout : ∀ t ∈ timeouts, ∃ call stage,
    pc t = .wait call stage ∧ call.timeout ≠ 0 ∧ inserted stage = true
  timeouts_nodup : timeouts.Nodup

abbrev RegisteredIn (s : State Cpu Thr Wq) : Prop := Registered s.pc s.waits s.waiters s.timeouts

namespace Registered

section

variable (h : Registered pc waits waiters timeouts)
include h

theorem not_pushed (hpc : pc t = p)
    (hp : ∀ call stage w, p = .wait call stage → call.waitable = some w → pushed stage = false)
    (w : Wq) (k : Token Thr) (hk : k ∈ waiters w) : k.thread ≠ t := by
  rintro rfl
  obtain ⟨-, call, stage, he, hw, hq⟩ := h.token w k hk
  rw [hp call stage w (hpc.symm.trans he) hw] at hq
  cases hq

theorem not_inserted (hpc : pc t = p)
    (hp : ∀ call stage, p = .wait call stage → call.timeout ≠ 0 → inserted stage = false) :
    t ∉ timeouts := by
  intro ht
  obtain ⟨call, stage, he, h0, hq⟩ := h.timeout t ht
  rw [hp call stage (hpc.symm.trans he) h0] at hq
  cases hq

theorem own (hk : k ∈ waiters w) (ht : k.thread = t) (hpc : pc t = .wait call stage) :
    k = ⟨t, waits t⟩ ∧ call.waitable = some w ∧ pushed stage = true := by
  subst ht
  obtain ⟨hwait, call', stage', he, hw, hq⟩ := h.token w k hk
  rw [hpc] at he
  cases he
  exact ⟨by rw [← hwait], hw, hq⟩

/-- One thread goes on; the lists keep only what belongs to where it goes. -/
theorem advance (hwaits : ∀ u, u ≠ t → waits' u = waits u)
    (hk : ∀ w k, k ∈ waiters' w → k.thread ≠ t → k ∈ waiters w)
    (ht : ∀ u ∈ timeouts', u ≠ t → u ∈ timeouts)
    (hkt : ∀ w k, k ∈ waiters' w → k.thread = t → k.wait = waits' t ∧ ∃ call stage,
      p = .wait call stage ∧ call.waitable = some w ∧ pushed stage = true)
    (htt : t ∈ timeouts' → ∃ call stage,
      p = .wait call stage ∧ call.timeout ≠ 0 ∧ inserted stage = true)
    (hn : ∀ w, (waiters' w).Nodup) (hnt : timeouts'.Nodup) :
    Registered (update pc t p) waits' waiters' timeouts' := by
  refine ⟨fun w k hkw => ?_, hn, fun u hu => ?_, hnt⟩
  · by_cases hkt' : k.thread = t
    · rw [hkt', update_self]
      exact hkt w k hkw hkt'
    · rw [update_of_ne hkt', hwaits _ hkt']
      exact h.token w k (hk w k hkw hkt')
  · by_cases hut : u = t
    · subst hut
      rw [update_self]
      exact htt hu
    · rw [update_of_ne hut]
      exact h.timeout u (ht u hu hut)

theorem goto (hkt : ∀ w k, k ∈ waiters w → k.thread = t → ∃ call stage, p = .wait call stage ∧
      call.waitable = some w ∧ pushed stage = true)
    (htt : t ∈ timeouts → ∃ call stage, p = .wait call stage ∧ call.timeout ≠ 0 ∧
      inserted stage = true) : Registered (update pc t p) waits waiters timeouts :=
  h.advance (fun _ _ => rfl) (fun _ _ hk _ => hk) (fun _ hu _ => hu)
    (fun w k hk ht => ⟨ht ▸ (h.token w k hk).1, hkt w k hk ht⟩) htt h.nodup h.timeouts_nodup

theorem free (hk : ∀ w k, k ∈ waiters w → k.thread ≠ t) (ht : t ∉ timeouts)
    (hw : ∀ u, u ≠ t → waits' u = waits u) :
    Registered (update pc t p) waits' waiters timeouts :=
  h.advance hw (fun _ _ hk _ => hk) (fun _ hu _ => hu) (fun w k hkw he => absurd he (hk w k hkw))
    (fun hu => absurd hu ht) h.nodup h.timeouts_nodup

theorem next (hpc : pc t = .wait call stage) (hq : pushed stage = true → pushed stage' = true)
    (hi : call.timeout ≠ 0 → inserted stage = true → inserted stage' = true) :
    Registered (update pc t (.wait call stage')) waits waiters timeouts := by
  refine h.goto (fun w k hk ht => ?_) (fun ht => ?_)
  · obtain ⟨-, hw, hq'⟩ := h.own hk ht hpc
    exact ⟨call, stage', rfl, hw, hq hq'⟩
  · obtain ⟨call', st, he, h0, hi'⟩ := h.timeout t ht
    rw [hpc] at he
    cases he
    exact ⟨call, stage', rfl, h0, hi h0 hi'⟩

theorem setWaiters (hl : ∀ k ∈ l, k ∈ waiters w) (hn : l.Nodup) :
    Registered pc waits (update waiters w l) timeouts := by
  refine ⟨fun w' k hk => ?_, fun w' => ?_, h.timeout, h.timeouts_nodup⟩
  · exact h.token w' k (of_update (k ∈ ·) (hl k) hk)
  · exact update_of List.Nodup (fun _ => hn) (h.nodup w')

theorem pop (hl : waiters w = k :: rest) :
    Registered pc waits (update waiters w rest) timeouts :=
  h.setWaiters (fun _ hk => hl ▸ List.mem_cons_of_mem _ hk) (hl ▸ h.nodup w).of_cons

theorem erase (u : Thr) :
    Registered pc waits waiters (timeouts.erase u) :=
  ⟨h.token, h.nodup, fun t ht => h.timeout t (List.mem_of_mem_erase ht), h.timeouts_nodup.erase u⟩

theorem push (hpc : pc t = .wait call .storedBlocking) (hw : call.waitable = some w) :
    Registered (update pc t (.wait call .enqueued)) waits
      (update waiters w (waiters w ++ [⟨t, waits t⟩])) timeouts := by
  have hk := h.not_pushed hpc (fun _ _ _ he _ => by cases he; rfl)
  have ht := h.not_inserted hpc (fun _ _ he _ => by cases he; rfl)
  have hmem : ∀ w' k, k ∈ update waiters w (waiters w ++ [⟨t, waits t⟩]) w' →
      k ∈ waiters w' ∨ (w' = w ∧ k = ⟨t, waits t⟩) := by
    intro w' k hkw
    by_cases he : w' = w
    · subst he
      rw [update_self, List.mem_append, List.mem_singleton] at hkw
      exact hkw.imp_right fun hk => ⟨rfl, hk⟩
    · rw [update_of_ne he] at hkw
      exact .inl hkw
  refine h.advance (fun _ _ => rfl) (fun w' k hkw hne => ?_) (fun _ hu _ => hu)
    (fun w' k hkw he => ?_) (fun hu => absurd hu ht) (fun w' => ?_) h.timeouts_nodup
  · rcases hmem w' k hkw with hkw | ⟨-, rfl⟩
    · exact hkw
    · exact absurd rfl hne
  · rcases hmem w' k hkw with hkw | ⟨rfl, rfl⟩
    · exact absurd he (hk w' k hkw)
    · exact ⟨rfl, call, .enqueued, rfl, hw, rfl⟩
  · refine update_of List.Nodup (fun hn => ?_) (h.nodup w')
    exact hn.append (List.nodup_singleton _) (List.disjoint_singleton.mpr fun hin => hk w _ hin rfl)

theorem insert (hpc : pc t = .wait call .computed) (h0 : call.timeout ≠ 0) :
    Registered (update pc t (.wait call .registered)) waits waiters (t :: timeouts) := by
  have ht := h.not_inserted hpc (fun _ _ he _ => by cases he; rfl)
  refine h.advance (fun _ _ => rfl) (fun _ _ hk _ => hk) (fun u hu hne => ?_) (fun w k hk he => ?_)
    (fun _ => ⟨call, .registered, rfl, h0, rfl⟩) h.nodup
    (List.nodup_cons.mpr ⟨ht, h.timeouts_nodup⟩)
  · exact (List.mem_cons.mp hu).resolve_left hne
  · obtain ⟨rfl, hw, -⟩ := h.own hk he hpc
    exact ⟨rfl, call, .registered, rfl, hw, rfl⟩

end

end Registered

theorem registered_waits (h : RegisteredIn s)
    (hpc : s.pc t = .wait call stage) (hok : PcOk sys t (.wait call stage))
    (hw : Waits sys s t call stage s') : RegisteredIn s' := by
  cases hw with
  | push hw _ _ => exact h.push hpc hw
  | insert => exact h.insert hpc (hok.2 rfl)
  | metReturn =>
    exact h.free (h.not_pushed hpc fun _ _ _ he _ => by cases he; rfl)
      (h.not_inserted hpc fun _ _ he _ => by cases he; rfl) (fun _ _ => rfl)
  | cleanUntimed h0 => exact h.next hpc (by simp [pushed]) (by simp [h0])
  | cleanTimed _ =>
    refine (h.erase t).goto (fun w k hk ht => ?_) (fun ht => ?_)
    · obtain ⟨-, hw, -⟩ := h.own hk ht hpc
      exact ⟨call, _, rfl, hw, rfl⟩
    · exact absurd ht h.timeouts_nodup.not_mem_erase
  | returnTimer hn =>
    refine h.free (h.not_pushed hpc fun call' stage' w he hw => ?_)
      (h.not_inserted hpc fun _ _ he _ => by cases he; rfl) (fun _ _ => rfl)
    cases he
    rw [hn] at hw
    cases hw
  | @returnWaitable w _ hw _ =>
    have h' := h.setWaiters (fun k (hk : k ∈ (s.waiters w).erase (s.token t)) =>
      List.mem_of_mem_erase hk) ((h.nodup w).erase _)
    refine h'.free (fun w' k hk he => ?_)
      (h.not_inserted hpc fun _ _ he _ => by cases he; rfl) (fun _ _ => rfl)
    obtain ⟨rfl, hw', -⟩ := h'.own hk he hpc
    obtain rfl := Option.some.inj (hw.symm.trans hw')
    rw [update_self] at hk
    exact (h.nodup w).not_mem_erase hk
  | _ => exact h.next hpc (by simp [pushed]) (by simp [inserted])

theorem registered_move {a : Action Cpu Thr Wq} (hc : Calls sys s.pc)
    (h : RegisteredIn s) (hm : Move sys s a s') : RegisteredIn s' := by
  have hfree : ∀ {t : Thr} {p p' : Pc Thr Wq} {waits' : Thr → ℕ}, s.pc t = p →
      (∀ call stage, p ≠ .wait call stage) → (∀ u, u ≠ t → waits' u = s.waits u) →
      Registered (update s.pc t p') waits' s.waiters s.timeouts := by
    intro t p p' waits' hpc hne hw
    exact h.free (h.not_pushed hpc fun _ _ _ he _ => absurd he (hne _ _))
      (h.not_inserted hpc fun _ _ he _ => absurd he (hne _ _)) hw
  cases hm with
  | timerPop _ _ _ _ => exact h.erase _
  | preempt _ hs => cases hs <;> exact h
  | block hr hpc hs =>
    cases hs <;> exact h.next hpc (by simp [pushed]) (by simp [inserted])
  | leave hr hpc hs =>
    cases hs <;> exact hfree hpc (by simp) (fun _ _ => rfl)
  | wait hr hpc hw => exact registered_waits h hpc (hpc ▸ hc _) hw
  | wake hr hpc hw =>
    cases hw with
    | pop hl =>
      have h' := h.pop hl
      exact h'.free (h'.not_pushed hpc (by simp)) (h'.not_inserted hpc (by simp)) (fun _ _ => rfl)
    | _ => exact hfree hpc (by simp) (fun _ _ => rfl)
  | reap hr hpc hw =>
    cases hw with
    | wait _ => exact hfree hpc (by simp) (fun u hu => update_of_ne hu ..)
    | _ => exact hfree hpc (by simp) (fun _ _ => rfl)
  | outside hr hpc hw =>
    cases hw with
    | wait _ _ _ => exact hfree hpc (by simp) (fun u hu => update_of_ne hu ..)
    | wake _ | exit => exact hfree hpc (by simp) (fun _ _ => rfl)
    | _ => exact h
  | finalize _ hf =>
    cases hf with
    | reapWake _ hl => exact h.pop hl
    | _ => exact h
  | _ => exact h

theorem registered_initial (h : Initial sys s) : RegisteredIn s := by
  refine ⟨fun w k hk => ?_, fun w => ?_, fun t ht => ?_, ?_⟩
  · rw [h.waiters w] at hk
    cases hk
  · rw [h.waiters w]
    exact List.nodup_nil
  · rw [h.timeouts] at ht
    cases ht
  · rw [h.timeouts]
    exact List.nodup_nil

end Registered

section Armed

variable {pc : Thr → Pc Thr Wq} {state : Thr → ThreadState} {waits : Thr → ℕ}
  {hand : Agent Cpu Thr → Hand Thr} {waiters : Wq → List (Token Thr)} {timeouts : List Thr} {w : Wq}

/-- Each registration of a thread that may still block is in place, or an agent has taken
it and has yet to exchange the thread's state. -/
structure Armed (pc : Thr → Pc Thr Wq) (state : Thr → ThreadState) (waits : Thr → ℕ)
    (hand : Agent Cpu Thr → Hand Thr) (waiters : Wq → List (Token Thr)) (timeouts : List Thr) :
    Prop where
  token : ∀ t call stage w, Blocks (state t) → pc t = .wait call stage → call.waitable = some w →
    pushed stage = true → ⟨t, waits t⟩ ∈ waiters w ∨ ∃ a, hand a = .dequeued ⟨t, waits t⟩
  timeout : ∀ t call stage, Blocks (state t) → pc t = .wait call stage → call.timeout ≠ 0 →
    inserted stage = true → t ∈ timeouts ∨ ∃ a, hand a = .dequeued ⟨t, waits t⟩

abbrev ArmedIn (s : State Cpu Thr Wq) : Prop :=
  Armed s.pc s.state s.waits s.hand s.waiters s.timeouts

namespace Armed

section

variable (h : Armed pc state waits hand waiters timeouts)
include h

variable {state' : Thr → ThreadState}

/-- The hands and the lists change while no thread moves; a registration that is taken
goes into a hand. -/
theorem mono (hst : ∀ u, Blocks (state' u) → Blocks (state u))
    (hk : ∀ w k, k ∈ waiters w → k ∈ waiters' w ∨ ∃ a, hand' a = .dequeued k)
    (hto : ∀ u, u ∈ timeouts → u ∈ timeouts' ∨ ∃ a, hand' a = .dequeued ⟨u, waits u⟩)
    (hh : ∀ a k, Blocks (state' k.thread) → hand a = .dequeued k → ∃ a', hand' a' = .dequeued k) :
    Armed pc state' waits hand' waiters' timeouts' := by
  refine ⟨fun u call stage w hb hu hw hq => ?_, fun u call stage hb hu h0 hi => ?_⟩
  · rcases h.token u call stage w (hst u hb) hu hw hq with hin | ⟨a, ha⟩
    · exact hk w _ hin
    · exact .inr (hh a ⟨u, waits u⟩ hb ha)
  · rcases h.timeout u call stage (hst u hb) hu h0 hi with hin | ⟨a, ha⟩
    · exact hto u hin
    · exact .inr (hh a ⟨u, waits u⟩ hb ha)

theorem restate (hst : Blocks st → Blocks (state t)) :
    Armed pc (update state t st) waits hand waiters timeouts := by
  refine h.mono (fun u hb => ?_) (fun _ _ hk => .inl hk) (fun _ hu => .inl hu)
    (fun a k _ ha => ⟨a, ha⟩)
  exact of_update Blocks hst hb

variable {a : Agent Cpu Thr} {x : Hand Thr}

theorem exchange (ha : hand a = .dequeued k) :
    Armed pc (update state k.thread .runable) waits (update hand a x) waiters
      timeouts := by
  have hnb : ¬ Blocks (update state k.thread .runable k.thread) := by simp [Blocks]
  refine h.mono (fun u hb => ?_) (fun _ _ hk => .inl hk) (fun _ hu => .inl hu)
    (fun a' k' hb ha' => ⟨a', ?_⟩)
  · have hu : u ≠ k.thread := fun he => hnb (he ▸ hb)
    rwa [update_of_ne hu] at hb
  · rw [update_of_ne, ha']
    rintro rfl
    rw [ha] at ha'
    cases ha'
    exact hnb hb

theorem setHand (ha : ∀ k, hand a ≠ .dequeued k) :
    Armed pc state waits (update hand a x) waiters timeouts := by
  refine h.mono (fun _ hb => hb) (fun _ _ hk => .inl hk) (fun _ hu => .inl hu)
    (fun a' k _ ha' => ⟨a', ?_⟩)
  rw [update_of_ne, ha']
  rintro rfl
  exact ha k ha'

theorem pop (ha : hand a = .empty) (hl : waiters w = k :: rest) :
    Armed pc state waits (update hand a (.dequeued k)) (update waiters w rest)
      timeouts := by
  refine (h.setHand (by simp [ha])).mono (fun _ hb => hb) (fun w' k' hk => ?_) (fun _ hu => .inl hu)
    (fun a' k _ ha' => ⟨a', ha'⟩)
  by_cases hw : w' = w
  · subst hw
    rw [hl, List.mem_cons] at hk
    rcases hk with rfl | hk
    · exact .inr ⟨a, update_self ..⟩
    · exact .inl (by rwa [update_self])
  · exact .inl (by rwa [update_of_ne hw])

theorem timerPop (ha : hand a = .empty) (t : Thr) :
    Armed pc state waits (update hand a (.dequeued ⟨t, waits t⟩)) waiters
      (timeouts.erase t) := by
  refine (h.setHand (by simp [ha])).mono (fun _ hb => hb) (fun _ _ hk => .inl hk) (fun u hu => ?_)
    (fun a' k _ ha' => ⟨a', ha'⟩)
  by_cases hut : u = t
  · subst hut
    exact .inr ⟨a, update_self ..⟩
  · exact .inl ((List.mem_erase_of_ne hut).mpr hu)

section

variable (hst : ∀ u, u ≠ t → state' u = state u) (hwaits : ∀ u, u ≠ t → waits' u = waits u)
    (hk : ∀ w k, k.thread ≠ t → k ∈ waiters w → k ∈ waiters' w)
    (hto : ∀ u, u ≠ t → u ∈ timeouts → u ∈ timeouts')

include hst hwaits hk hto

/-- A thread changes its program point while the lists keep everything that belongs to
others. -/
theorem goto
    (h1 : ∀ call stage w, Blocks (state' t) → p = .wait call stage → call.waitable = some w →
      pushed stage = true → ⟨t, waits' t⟩ ∈ waiters' w ∨ ∃ a, hand a = .dequeued ⟨t, waits' t⟩)
    (h2 : ∀ call stage, Blocks (state' t) → p = .wait call stage → call.timeout ≠ 0 →
      inserted stage = true → t ∈ timeouts' ∨ ∃ a, hand a = .dequeued ⟨t, waits' t⟩) :
    Armed (update pc t p) state' waits' hand waiters' timeouts' := by
  refine ⟨fun u call stage w hb hu hw hq => ?_, fun u call stage hb hu h0 hi => ?_⟩
  · rcases update_eq hu with ⟨rfl, hit⟩ | ⟨hut, hu⟩
    · exact h1 call stage w hb hit hw hq
    · rw [hst u hut] at hb
      rw [hwaits u hut]
      exact (h.token u call stage w hb hu hw hq).imp_left (hk w _ hut)
  · rcases update_eq hu with ⟨rfl, hit⟩ | ⟨hut, hu⟩
    · exact h2 call stage hb hit h0 hi
    · rw [hst u hut] at hb
      rw [hwaits u hut]
      exact (h.timeout u call stage hb hu h0 hi).imp_left (hto u hut)

theorem free
    (hp : ∀ call stage, p = .wait call stage → Blocks (state' t) → pushed stage = false) :
    Armed (update pc t p) state' waits' hand waiters' timeouts' := by
  refine h.goto hst hwaits hk hto (fun call stage w hb he hw hq => ?_)
    (fun call stage hb he h0 hi => ?_)
  · rw [hp call stage he hb] at hq
    cases hq
  · have hq := pushed_of_inserted hi
    rw [hp call stage he hb] at hq
    cases hq

end

theorem next (hpc : pc t = .wait call stage) (hq : pushed stage = true)
    (hi : call.timeout ≠ 0 → inserted stage' = true → inserted stage = true) :
    Armed (update pc t (.wait call stage')) state waits hand waiters timeouts := by
  refine h.goto (fun _ _ => rfl) (fun _ _ => rfl) (fun _ _ _ hk => hk) (fun _ _ hu => hu)
    (fun call' stage'' w hb he hw _ => ?_) (fun call' stage'' hb he h0 hi' => ?_)
  · cases he
    exact h.token t call stage w hb hpc hw hq
  · cases he
    exact h.timeout t call stage hb hpc h0 (hi h0 hi')

theorem push (hw : call.waitable = some w) :
    Armed (update pc t (.wait call .enqueued)) state waits hand
      (update waiters w (waiters w ++ [⟨t, waits t⟩])) timeouts := by
  refine h.goto (fun _ _ => rfl) (fun _ _ => rfl) (fun w' k _ hk => ?_) (fun _ _ hu => hu)
    (fun call' stage w' _ he hw' _ => ?_) (fun call' stage _ he _ hi => ?_)
  · exact update_of (k ∈ ·) (List.mem_append_left _) hk
  · cases he
    obtain rfl := Option.some.inj (hw.symm.trans hw')
    rw [update_self]
    exact .inl (List.mem_append_right _ List.mem_cons_self)
  · cases he
    cases hi

theorem unregister (hp : ∀ call stage, p ≠ .wait call stage) :
    Armed (update pc t p) state waits hand
      (update waiters w ((waiters w).erase ⟨t, waits t⟩)) timeouts := by
  refine h.free (fun _ _ => rfl) (fun _ _ => rfl) (fun w' k hne hk => ?_) (fun _ _ hu => hu)
    (fun call stage he _ => absurd he (hp call stage))
  have hkt : k ≠ ⟨t, waits t⟩ := fun he => hne (he ▸ rfl)
  exact update_of (k ∈ ·) (List.mem_erase_of_ne hkt).mpr hk

end

end Armed

theorem armed_waits (h : ArmedIn s)
    (hb : stage = .resumed → ¬ Blocks (s.state t)) (hpc : s.pc t = .wait call stage)
    (hw : Waits sys s t call stage s') : ArmedIn s' := by
  have hret := returned_ne_wait sys t
  cases hw with
  | storeBlocking | storeRunning =>
    refine h.free (fun u hu => update_of_ne hu ..) (fun _ _ => rfl) (fun _ _ _ hk => hk)
      (fun _ _ hu => hu) (fun call' stage he _ => ?_)
    cases he
    rfl
  | noWaitable hn =>
    refine h.goto (fun _ _ => rfl) (fun _ _ => rfl) (fun _ _ _ hk => hk) (fun _ _ hu => hu)
      (fun call' stage w _ he hw _ => ?_) (fun call' stage _ he _ hi => ?_)
    · cases he
      rw [hn] at hw
      cases hw
    · cases he
      cases hi
  | met _ _ =>
    refine h.free (fun _ _ => rfl) (fun _ _ => rfl) (fun _ _ _ hk => hk) (fun _ _ hu => hu)
      (fun call' stage he _ => ?_)
    cases he
    rfl
  | push hw _ _ => exact h.push hw
  | metReturn | returnTimer _ =>
    exact h.free (fun _ _ => rfl) (fun _ _ => rfl) (fun _ _ _ hk => hk) (fun _ _ hu => hu)
      (fun call' stage he _ => absurd he (hret _ _))
  | untimed h0 => exact h.next hpc rfl (fun h0' => absurd h0 h0')
  | compute _ => exact h.next hpc rfl (fun _ hi => by cases hi)
  | insert =>
    refine h.goto (fun _ _ => rfl) (fun _ _ => rfl) (fun _ _ _ hk => hk)
      (fun _ _ hu => List.mem_cons_of_mem _ hu) (fun call' stage w hb he hw _ => ?_)
      (fun _ _ _ _ _ _ => .inl List.mem_cons_self)
    cases he
    exact h.token t call .computed w hb hpc hw rfl
  | enable => exact h.next hpc rfl (fun _ hi => hi)
  | cleanUntimed _ =>
    exact h.free (fun _ _ => rfl) (fun _ _ => rfl) (fun _ _ _ hk => hk) (fun _ _ hu => hu)
      (fun _ _ _ hb' => absurd hb' (hb rfl))
  | cleanTimed _ =>
    exact h.free (fun _ _ => rfl) (fun _ _ => rfl) (fun _ _ _ hk => hk)
      (fun u hne hu => (List.mem_erase_of_ne hne).mpr hu) (fun _ _ _ hb' => absurd hb' (hb rfl))
  | returnWaitable _ _ => exact h.unregister hret

variable {place : Thr → Place Cpu Thr}

theorem armed_move {a : Action Cpu Thr Wq}
    (h : ArmedIn s)
    (hh : Hands s.pc s.mode s.hand) (hc : ControlIn s)
    (hp : PlacedIn sys place s) (hm : Move sys s a s') : ArmedIn s' := by
  have hgo : ∀ {t : Thr} {p : Pc Thr Wq} {state' : Thr → ThreadState} {waits' : Thr → ℕ},
      (∀ u, u ≠ t → state' u = s.state u) → (∀ u, u ≠ t → waits' u = s.waits u) →
      (∀ call stage, p = .wait call stage → pushed stage = false) →
      Armed (update s.pc t p) state' waits' s.hand s.waiters s.timeouts :=
    fun hst hwaits hp => h.free hst hwaits (fun _ _ _ hk => hk) (fun _ _ hu => hu)
      (fun call stage he _ => hp call stage he)
  cases hm with
  | timerPop _ he _ _ => exact h.timerPop he _
  | exchange _ hk => exact h.exchange hk
  | enqueue _ hk => exact h.setHand (by simp [hk])
  | preempt _ hs => cases hs <;> exact h
  | block hr hpc hs => cases hs <;> exact h.next hpc rfl (fun _ hi => hi)
  | leave hr hpc hs => cases hs <;> exact hgo (fun _ _ => rfl) (fun _ _ => rfl) (by simp)
  | wait hr hpc hw =>
    refine armed_waits h ?_ hpc hw
    rintro rfl
    exact resumed_not_blocks hc hr hp hpc
  | wake hr hpc hw =>
    cases hw with
    | pop hl =>
      exact (h.pop (hh.thread_empty hpc (by simp)) hl).free (fun _ _ => rfl) (fun _ _ => rfl)
        (fun _ _ _ hk => hk) (fun _ _ hu => hu) (by simp)
    | _ => exact hgo (fun _ _ => rfl) (fun _ _ => rfl) (by simp)
  | reap hr hpc hw =>
    cases hw with
    | wait _ =>
      refine hgo (fun _ _ => rfl) (fun u hu => update_of_ne hu ..) (fun _ _ he => ?_)
      cases he
      rfl
    | none _ | pop _ _ => exact hgo (fun _ _ => rfl) (fun _ _ => rfl) (by simp)
    | free _ hp | skip _ hp =>
      rcases hp with rfl | ⟨part', rfl⟩ <;> exact hgo (fun _ _ => rfl) (fun _ _ => rfl) (by simp)
  | outside hr hpc hw =>
    cases hw with
    | wait _ _ _ =>
      refine hgo (fun _ _ => rfl) (fun u hu => update_of_ne hu ..) (fun _ _ he => ?_)
      cases he
      rfl
    | wake _ => exact hgo (fun _ _ => rfl) (fun _ _ => rfl) (by simp)
    | exit => exact hgo (fun u hu => update_of_ne hu ..) (fun _ _ => rfl) (by simp)
    | _ => exact h
  | finalize hm hf =>
    cases hf with
    | storeRunning _ | storeRunable => exact h.restate (by simp [Blocks])
    | commit _ hb => exact h.restate (fun _ => .inl hb)
    | reapWake _ hl => exact h.pop (hh.cpu_empty hm (by simp) (by simp)) hl
    | _ => exact h
  | _ => exact h

theorem armed_initial (h : Initial sys s) : ArmedIn s := by
  have hpc := h.not_waiting
  exact ⟨fun t call stage w _ he => absurd he (hpc t call stage),
    fun t call stage _ he => absurd he (hpc t call stage)⟩

end Armed

end SchedRegistrations
