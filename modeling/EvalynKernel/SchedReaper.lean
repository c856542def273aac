import EvalynKernel.SchedThreads

/-! # The reaper (`sched/reaper.c`)

Exited threads are handed to the reaper in the middle of `schedule_finalize`. No thread on
`reaper_list` is forgotten. It is freed after its last use where the reaper takes it only
after the switch away from it has ended. -/
namespace SchedReaper

set_option linter.unusedSectionVars false

open Function SchedState SchedSteps SchedMoves SchedPlaces SchedControl SchedRegistrations
open SchedThreads

variable {Cpu Thr Wq : Type} [DecidableEq Cpu] [DecidableEq Thr] [DecidableEq Wq]
  {sys : System Cpu Thr Wq} {s s' : State Cpu Thr Wq} {c : Cpu} {t : Thr} {w : Wq}

def collected (log : List (Event Cpu Thr Wq)) : List Thr :=
  log.filterMap fun
    | .collected t => some t
    | _ => none

def commits (log : List (Event Cpu Thr Wq)) : List Thr :=
  log.filterMap fun
    | .committed t => some t
    | _ => none

def enqueues (log : List (Event Cpu Thr Wq)) : List Thr :=
  log.filterMap fun
    | .enqueued t => some t
    | _ => none

section Reaping

variable {waiters : Wq → List (Token Thr)} {reaperList gone taken : List Thr}

/-- A reaper that waits has nothing to do, and what was pushed is popped in its order. -/
structure Reaping (sys : System Cpu Thr Wq) (waiters : Wq → List (Token Thr))
    (reaperList gone taken : List Thr) : Prop where
  idle : waiters sys.reaperWaiter ≠ [] → reaperList = []
  order : gone.reverse = taken.reverse ++ reaperList

abbrev ReapingIn (sys : System Cpu Thr Wq) (s : State Cpu Thr Wq) : Prop :=
  Reaping sys s.waiters s.reaperList (buried s.log) (collected s.log)

namespace Reaping

section

variable (h : Reaping sys waiters reaperList gone taken)

include h

theorem setWaiters (hl : w = sys.reaperWaiter → l ≠ [] → reaperList = []) :
    Reaping sys (update waiters w l) reaperList gone taken := by
  refine ⟨fun hne => ?_, h.order⟩
  by_cases hw : sys.reaperWaiter = w
  · subst hw
    rw [update_self] at hne
    exact hl rfl hne
  · rw [update_of_ne hw] at hne
    exact h.idle hne

theorem push (hw : waiters sys.reaperWaiter = [])
    (t : Thr) : Reaping sys waiters (reaperList ++ [t]) (t :: gone) taken := by
  refine ⟨fun hne => absurd hw hne, ?_⟩
  rw [List.reverse_cons, h.order, List.append_assoc]

theorem pop (hl : reaperList = t :: rest) : Reaping sys waiters rest gone (t :: taken) := by
  refine ⟨fun hne => ?_, ?_⟩
  · rw [hl] at h
    exact absurd (h.idle hne) (by simp)
  · rw [h.order, hl, List.reverse_cons, List.append_assoc, List.singleton_append]

end

end Reaping

section

variable (hr : RegisteredIn s)
include hr

variable {k : Token Thr}

/-- Only the reaper waits on its waitable, so there is at most one token. -/
theorem reaper_token (hc : Calls sys s.pc) (hk : k ∈ s.waiters sys.reaperWaiter) :
    k = s.token sys.reaper := by
  obtain ⟨hwait, call, stage, hpc, hw, -⟩ := hr.token _ k hk
  have hok : PcOk sys k.thread (.wait call stage) := hpc ▸ hc k.thread
  rcases hok.1 with ⟨ht, -⟩ | ⟨-, -, hne⟩
  · rw [State.token, ← ht, ← hwait]
  · exact absurd hw hne

theorem reaper_alone (hc : Calls sys s.pc) (hl : s.waiters sys.reaperWaiter = k :: rest) :
    rest = [] := by
  have hn := hr.nodup sys.reaperWaiter
  rw [hl] at hn
  refine List.eq_nil_iff_forall_not_mem.mpr fun k' hk' => ?_
  have h1 := reaper_token hr hc (k := k) (hl ▸ List.mem_cons_self)
  have h2 := reaper_token hr hc (k := k') (hl ▸ List.mem_cons_of_mem _ hk')
  rw [h2, ← h1] at hk'
  exact (List.nodup_cons.mp hn).1 hk'

theorem reaping_move {a : Action Cpu Thr Wq} (hc : Calls sys s.pc)
    (h : ReapingIn sys s) (hm : Move sys s a
      s') : ReapingIn sys s' := by
  cases hm with
  | preempt _ hs | block _ _ hs | leave _ _ hs => cases hs <;> exact h
  | @wait c choice t call stage s' _ hpc hw =>
    cases hw with
    | push hwq _ hcond =>
      refine h.setWaiters fun he _ => ?_
      subst he
      have hok : PcOk sys t (.wait call .storedBlocking) := hpc ▸ hc t
      rcases hok.1 with ⟨-, rfl⟩ | ⟨-, -, hne⟩
      · simpa [conditionHolds, reaperCall] using hcond
      · exact absurd hwq hne
    | returnWaitable _ _ =>
      refine h.setWaiters fun he hne => h.idle ?_
      subst he
      rintro hnil
      rw [hnil] at hne
      exact hne rfl
    | _ => exact h
  | wake _ _ hw =>
    cases hw with
    | pop hl =>
      refine h.setWaiters fun he _ => h.idle ?_
      rw [← he, hl]
      simp
    | _ => exact h
  | reap _ _ hw =>
    cases hw with
    | pop _ hl => exact h.pop hl
    | _ => exact h
  | outside _ _ hw => cases hw <;> exact h
  | @finalize c choice prev next stage s' _ hf =>
    cases hf with
    | reapPush _ hw => exact h.push hw prev
    | @reapWake k rest _ hl =>
      have hrest := reaper_alone hr hc hl
      subst hrest
      have h' : Reaping sys (update s.waiters sys.reaperWaiter []) s.reaperList
          (buried s.log) (collected s.log) := h.setWaiters fun _ hne => absurd rfl hne
      exact h'.push (update_self ..) prev
    | _ => exact h
  | _ => exact h

end

theorem reaping_initial (h : Initial sys s) : ReapingIn sys s := by
  refine ⟨fun _ => h.reaperList, ?_⟩
  rw [h.log, h.reaperList]
  rfl

end Reaping

section Commits

variable {state : Thr → ThreadState} {hand : Agent Cpu Thr → Hand Thr} {commits enqueues : List Thr}

/-- The thread is blocked, or an agent has found it blocked and has yet to enqueue it. -/
def Asleep (state : Thr → ThreadState) (hand : Agent Cpu Thr → Hand Thr) (t : Thr) : Prop :=
  state t = .blocked ∨ ∃ a, hand a = .awake t

/-- Each block is ended by one enqueueing. -/
structure Commits (state : Thr → ThreadState) (hand : Agent Cpu Thr → Hand Thr)
    (commits enqueues : List Thr) : Prop where
  asleep : ∀ t, Asleep state hand t → commits.count t = enqueues.count t + 1
  out : ∀ t, ¬ Asleep state hand t → commits.count t = enqueues.count t

abbrev CommitsIn (s : State Cpu Thr Wq) : Prop :=
  Commits s.state s.hand (SchedReaper.commits s.log) (SchedReaper.enqueues s.log)

namespace Commits

section

variable (h : Commits state hand commits enqueues)
include h

theorem congr (he : ∀ t, Asleep state' hand' t ↔ Asleep state hand t) :
    Commits state' hand' commits enqueues :=
  ⟨fun t ht => h.asleep t ((he t).mp ht), fun t ht => h.out t (mt (he t).mpr ht)⟩

theorem restate (ht : state t ≠ .blocked) (hst : st ≠ .blocked) :
    Commits (update state t st) hand commits enqueues := by
  refine h.congr fun u => or_congr_left ?_
  exact update_iff (· = ThreadState.blocked) (iff_of_false hst ht) u

variable {a : Agent Cpu Thr}

theorem setHand (ha : ∀ u, hand a ≠ .awake u) (hx : ∀ u, x ≠ .awake u) :
    Commits state (update hand a x) commits enqueues := by
  refine h.congr fun u => or_congr_right (exists_congr ?_)
  exact update_iff (· = Hand.awake u) (iff_of_false (hx u) (ha u))

theorem commit (ht : ¬ Asleep state hand t) :
    Commits (update state t .blocked) hand (t :: commits) enqueues := by
  refine ⟨fun u hu => ?_, fun u hu => ?_⟩
  · by_cases hut : u = t
    · subst hut
      rw [List.count_cons_self, h.out u ht]
    · rw [List.count_cons_of_ne (Ne.symm hut)]
      refine h.asleep u ?_
      rwa [Asleep, update_of_ne hut] at hu
  · have hut : u ≠ t := by
      rintro rfl
      exact hu (.inl (update_self ..))
    rw [List.count_cons_of_ne (Ne.symm hut)]
    refine h.out u ?_
    rwa [Asleep, update_of_ne hut] at hu

theorem hold (ht : state t = .blocked) (ha : ∀ u, hand a ≠ .awake u) :
    Commits (update state t .runable) (update hand a (.awake t)) commits
      enqueues := by
  refine h.congr fun u => ?_
  by_cases hut : u = t
  · subst hut
    exact iff_of_true (.inr ⟨a, update_self ..⟩) (.inl ht)
  · rw [Asleep, update_of_ne hut]
    refine or_congr_right (exists_congr (update_iff (· = Hand.awake u) (iff_of_false ?_ (ha u))))
    exact fun hu => hut (Hand.awake.inj hu).symm

theorem enqueue (ha : hand a = .awake t) (hst : state t ≠ .blocked)
    (hone : ∀ a', hand a' = .awake t → a' = a) :
    Commits state (update hand a .empty) commits (t :: enqueues) := by
  have hother : ∀ u, u ≠ t → (Asleep state (update hand a .empty) u ↔
      Asleep state hand u) := by
    intro u hut
    refine or_congr_right (exists_congr (update_iff (· = Hand.awake u) (iff_of_false (by simp) ?_)))
    exact fun hu => hut (Hand.awake.inj (ha.symm.trans hu)).symm
  have hgone : ¬ Asleep state (update hand a .empty) t := by
    rintro (hb | ⟨a', hu⟩)
    · exact hst hb
    · have hne : a' ≠ a := by
        rintro rfl
        rw [update_self] at hu
        cases hu
      rw [update_of_ne hne] at hu
      exact hne (hone a' hu)
  refine ⟨fun u hu => ?_, fun u hu => ?_⟩
  · have hut : u ≠ t := by
      rintro rfl
      exact hgone hu
    rw [List.count_cons_of_ne (Ne.symm hut)]
    exact h.asleep u ((hother u hut).mp hu)
  · by_cases hut : u = t
    · subst hut
      rw [List.count_cons_self]
      exact h.asleep u (.inr ⟨a, ha⟩)
    · rw [List.count_cons_of_ne (Ne.symm hut)]
      exact h.out u (mt (hother u hut).mpr hu)

end

end Commits

variable {place : Thr → Place Cpu Thr}

section

variable (hh : Hands s.pc s.mode s.hand)
    (hp : PlacedIn sys place s)
    (h : CommitsIn s)

include hh hp h

theorem commits_finalizes (hm : s.mode c = .switching prev next stage)
    (hf : Finalizes sys s c prev next stage s') : CommitsIn s' := by
  have hok := hp.stage c prev next stage hm
  cases hf with
  | storeRunning hi =>
    have hni : place next ≠ .idle := mt (hp.located next).idle_state.mp hi
    exact h.restate (by simp [hok.2 hni]) (by simp)
  | storeRunable =>
    have hst : s.state prev ≠ .blocked := by rcases hok.2.2.2 with he | he <;> simp [he]
    exact h.restate hst (by simp)
  | commit hst hb =>
    have hni : place prev ≠ .idle := mt hok.2.2.1.mpr (by rcases hst with rfl | rfl <;> simp)
    have hl := hp.leaving_of hm rfl hni
    refine h.commit ?_
    rintro (hbl | ⟨a, ha⟩)
    · rw [hb] at hbl
      cases hbl
    · have hheld := ((hp.located prev).held a).mpr ha
      rw [hl] at hheld
      cases hheld
  | reapWake _ _ => exact h.setHand (by simp [hh.cpu_empty hm]) (by simp)
  | _ => exact h

theorem commits_move {a : Action Cpu Thr Wq}
    (hm : Move sys s a s') : CommitsIn s' := by
  cases hm with
  | timerPop _ he _ _ => exact h.setHand (by simp [he]) (by simp)
  | @exchange a c choice k _ hk =>
    by_cases hb : s.state k.thread = .blocked
    · rw [if_pos hb]
      exact h.hold hb (by simp [hk])
    · rw [if_neg hb]
      exact (h.restate hb (by simp)).setHand (by simp [hk]) (by simp)
  | @enqueue a c choice t _ hk =>
    have hl := hp.located t
    have hheld := (hl.held a).mpr hk
    refine h.enqueue hk ?_ fun a' ha' => ?_
    · rw [hl.ready (by simp [hheld, Place.ready])]
      simp
    · have hheld' := (hl.held a').mpr ha'
      rw [hheld] at hheld'
      exact (Place.held.inj hheld').symm
  | preempt _ hs | block _ _ hs | leave _ _ hs => cases hs <;> exact h
  | wait hr _ hw =>
    cases hw with
    | storeBlocking | storeRunning => exact h.restate (runs_not_blocked hr hp) (by simp)
    | _ => exact h
  | wake _ hpc hw =>
    cases hw with
    | pop _ => exact h.setHand (by simp [hh.thread_empty hpc]) (by simp)
    | _ => exact h
  | reap _ _ hw => cases hw <;> exact h
  | outside hr _ hw =>
    cases hw with
    | exit => exact h.restate (runs_not_blocked hr hp) (by simp)
    | _ => exact h
  | finalize hm hf => exact commits_finalizes hh hp h hm hf
  | _ => exact h

end

theorem commits_initial (h : Initial sys s) : CommitsIn s := by
  rw [CommitsIn, h.log]
  refine ⟨fun t ht => ?_, fun t _ => rfl⟩
  rcases ht with ht | ⟨a, ha⟩
  · by_cases hi : ∀ c, t ≠ sys.idle c
    · rw [h.state t hi] at ht
      cases ht
    · simp only [not_forall, not_not] at hi
      obtain ⟨c, rfl⟩ := hi
      rw [h.idle_state c] at ht
      cases ht
  · rw [h.hand a] at ha
    cases ha

end Commits

structure Remembers (sys : System Cpu Thr Wq) (s : State Cpu Thr Wq) : Prop where
  reaping : ReapingIn sys s
  commits : CommitsIn s

theorem reachable_remembers {ok : State Cpu Thr Wq → Action Cpu Thr Wq → Prop}
    (h : Reachable sys ok s) : Remembers sys s := by
  refine reachable_invariant (fun _ hi => ⟨reaping_initial hi, commits_initial hi⟩)
    (fun s a s' hr hrem _ _ hm => ?_) h
  have hinv := reachable_inv hr
  obtain ⟨place, hp, -⟩ := hinv.sound.placed
  exact ⟨reaping_move hinv.registered hinv.calls hrem.reaping hm,
    commits_move hinv.sound.hands hp hrem.commits hm⟩

/-- No exited thread is forgotten, popped twice or lost, and the reaper is enqueued once for
each of its blocks. -/
theorem reaper_forgets_nothing (h : Reachable sys (fun _ _ => True) s) :
    ¬ (s.reaperList ≠ [] ∧ Blocks (s.state sys.reaper) ∧
      s.token sys.reaper ∈ s.waiters sys.reaperWaiter ∧ s.reaperLock = none) ∧
    (∀ t, .reaped t ∈ s.log →
      (collected s.log).count t + s.reaperList.count t = 1) ∧
    (enqueues s.log).count sys.reaper ≤ (commits s.log).count sys.reaper ∧
    (commits s.log).count sys.reaper ≤ (enqueues s.log).count sys.reaper + 1 := by
  have hrem := reachable_remembers h
  obtain ⟨place, -, hg⟩ := (reachable_inv h).sound.placed
  refine ⟨?_, fun t ht => ?_, ?_⟩
  · rintro ⟨hne, -, hin, -⟩
    exact hne (hrem.reaping.idle (List.ne_nil_of_mem hin))
  · have hmem : t ∈ buried s.log := List.mem_filterMap.mpr ⟨_, ht, rfl⟩
    have hone := List.count_eq_one_of_mem hg.nodup hmem
    rw [← List.count_reverse, hrem.reaping.order, List.count_append, List.count_reverse] at hone
    exact hone
  · by_cases ha : Asleep s.state s.hand sys.reaper
    · have := hrem.commits.asleep _ ha
      omega
    · have := hrem.commits.out _ ha
      omega

def reaperAhead (c : Fin 2) : List (Fin 5) := if c = 0 then [3] else [2, 4]

theorem reaperAhead_initial : Initial machine (boot reaperAhead) :=
  boot_initial (by decide) (by decide) (by decide) (by decide)

def reaps : List (Action (Fin 2) (Fin 5) (Fin 2)) :=
  dispatch 1 ++ goes 1 10 ++ dispatch 0 ++ .cpu 0 .exit :: goes 0 12 ++ .irq 0 :: goes 0 12

theorem exited_thread_collected : ∃ s, Reachable machine (fun _ _ => True) s ∧
    .reaped 3 ∈ s.log ∧ s.reaperList = [] ∧ (collected s.log).count 3 = 1 := by
  obtain ⟨s, hs, hp⟩ := run_reaches (p := fun s => .reaped 3 ∈ s.log ∧ s.reaperList = [])
    reaperAhead_initial (meets_true reaps _) (by decide +kernel)
  obtain ⟨hr, hl⟩ := of_decide_eq_true hp
  have hcount := (reaper_forgets_nothing hs).2.1 3 hr
  rw [hl, List.count_nil] at hcount
  exact ⟨s, hs, hr, hl, hcount⟩

end SchedReaper
