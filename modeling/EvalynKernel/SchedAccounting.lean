import Mathlib.Algebra.BigOperators.Group.List.Basic
import EvalynKernel.SchedLedger

/-! # Wake accounting

The counts that `sched_wakeup_n_threads` returns against the tokens it dequeued, and the
statuses of the waits against both. -/
namespace SchedAccounting

set_option linter.unusedSectionVars false

open Function SchedState SchedSteps SchedMoves SchedPlaces SchedRegistrations SchedThreads
open SchedLedger

variable {Cpu Thr Wq : Type} [DecidableEq Cpu] [DecidableEq Thr] [DecidableEq Wq]
  {sys : System Cpu Thr Wq} {s s' : State Cpu Thr Wq} {c : Cpu} {t : Thr} {w : Wq}

def wakers (log : List (Event Cpu Thr Wq)) (w : Wq) : List (Thr × ℕ) :=
  log.filterMap fun
    | .woke t n w' _ => if w' = w then some (t, n) else none
    | _ => none

def counts (log : List (Event Cpu Thr Wq)) (w : Wq) : List ((Thr × ℕ) × ℕ) :=
  log.filterMap fun
    | .wakeReturned t n w' k => if w' = w then some ((t, n), k) else none
    | _ => none

theorem wakers_woke (log : List (Event Cpu Thr Wq)) (t : Thr) (n : ℕ) (w : Wq) (k : Token Thr) :
    wakers (.woke t n w k :: log) = update (wakers log) w ((t, n) :: wakers log w) := by
  refine eq_update_iff.mpr ⟨by simp [wakers], fun w' hw => ?_⟩
  simp [wakers, Ne.symm hw]

theorem counts_wakeReturned (log : List (Event Cpu Thr Wq)) (t : Thr) (n : ℕ) (w : Wq) (k : ℕ) :
    counts (.wakeReturned t n w k :: log) =
      update (counts log) w (((t, n), k) :: counts log w) := by
  refine eq_update_iff.mpr ⟨by simp [counts], fun w' hw => ?_⟩
  simp [counts, Ne.symm hw]

theorem length_wakers (log : List (Event Cpu Thr Wq)) (hw : w ≠ sys.reaperWaiter) :
    (wakers log w).length = (wokes sys log w).length := by
  induction log with
  | nil => rfl
  | cons e log ih =>
    cases e with
    | woke t n w' k =>
      rw [wakers_woke, wokes_woke]
      by_cases hww : w = w'
      · subst hww
        simp [ih]
      · simp [update_of_ne hww, ih]
    | roused k =>
      rw [wokes_roused, update_of_ne hw]
      exact ih
    | _ => exact ih

/-- The tokens that a call of `sched_wakeup_n_threads` has dequeued so far. -/
def taken (woken : ℕ) : WakeStage → ℕ
  | .looping | .popping => woken
  | .popped | .waking => woken + 1

variable {n : ℕ}

section Tally

variable {pc : Thr → Pc Thr Wq} {calls : Thr → ℕ} {wakers : Wq → List (Thr × ℕ)}
  {counts : Wq → List ((Thr × ℕ) × ℕ)}

structure Tally (pc : Thr → Pc Thr Wq) (calls : Thr → ℕ) (wakers : Wq → List (Thr × ℕ))
    (counts : Wq → List ((Thr × ℕ) × ℕ)) : Prop where
  working : ∀ t w threads woken stage, pc t = .wake w threads woken stage →
    (wakers w).count (t, calls t) = taken woken stage
  done : ∀ w t n k, ((t, n), k) ∈ counts w → (wakers w).count (t, n) = k ∧ (n < calls t ∨
    (n = calls t ∧ ∀ w threads woken stage, pc t ≠ .wake w threads woken stage))
  known : ∀ w t n, (t, n) ∈ wakers w → (∃ k, ((t, n), k) ∈ counts w) ∨
    (n = calls t ∧ ∃ threads woken stage, pc t = .wake w threads woken stage)
  nodup : ∀ w, ((counts w).map Prod.fst).Nodup

namespace Tally

section

variable (h : Tally pc calls wakers counts)
include h

theorem le_calls (hk : (t, n) ∈ wakers w) : n ≤ calls t := by
  rcases h.known w t n hk with ⟨k, hd⟩ | ⟨he, -⟩
  · rcases (h.done w t n k hd).2 with hlt | ⟨he, -⟩ <;> omega
  · exact Nat.le_of_eq he

theorem stay (hpc : pc t = q) (hq : ∀ w threads woken stage, q ≠ .wake w threads woken stage)
    (hp : ∀ w threads woken stage, p ≠ .wake w threads woken stage) :
    Tally (update pc t p) calls wakers counts := by
  refine ⟨fun u w threads woken stage hu => ?_, fun w u n k hk => ?_, fun w u n hk => ?_, h.nodup⟩
  · have hut : u ≠ t := by
      rintro rfl
      rw [update_self] at hu
      exact hp _ _ _ _ hu
    rw [update_of_ne hut] at hu
    exact h.working u w threads woken stage hu
  · refine (h.done w u n k hk).imp_right (Or.imp_right fun ⟨he, hall⟩ => ⟨he, ?_⟩)
    by_cases hut : u = t
    · subst hut
      rw [update_self]
      exact hp
    · rw [update_of_ne hut]
      exact hall
  · refine (h.known w u n hk).imp_right fun ⟨he, threads, woken, stage, hu⟩ => ⟨he, ?_⟩
    have hut : u ≠ t := by
      rintro rfl
      exact hq _ _ _ _ (hpc.symm.trans hu)
    exact ⟨threads, woken, stage, by rw [update_of_ne hut, hu]⟩

theorem begin (hpc : pc t = .outside) (w : Wq) (threads : ℤ) :
    Tally (update pc t (.wake w threads 0 .looping))
      (update calls t (calls t + 1)) wakers counts := by
  refine ⟨fun u w' threads' woken stage hu => ?_, fun w' u n k hk => ?_, fun w' u n hk => ?_,
    h.nodup⟩
  · by_cases hut : u = t
    · subst hut
      rw [update_self] at hu ⊢
      cases hu
      rw [taken, List.count_eq_zero]
      intro hk
      have := h.le_calls hk
      omega
    · rw [update_of_ne hut] at hu ⊢
      exact h.working u w' threads' woken stage hu
  · obtain ⟨hcount, hle⟩ := h.done w' u n k hk
    refine ⟨hcount, ?_⟩
    by_cases hut : u = t
    · subst hut
      rw [update_self]
      left
      omega
    · rwa [update_of_ne hut, update_of_ne hut]
  · refine (h.known w' u n hk).imp_right fun ⟨he, threads', woken, stage, hu⟩ => ?_
    have hut : u ≠ t := by
      rintro rfl
      rw [hpc] at hu
      cases hu
    rw [update_of_ne hut, update_of_ne hut]
    exact ⟨he, threads', woken, stage, hu⟩

variable {stage : WakeStage} {threads : ℤ} {woken : ℕ}

theorem next (hpc : pc t = .wake w threads woken stage)
    (he : taken woken stage = taken woken' stage') :
    Tally (update pc t (.wake w threads woken' stage')) calls wakers counts := by
  refine ⟨fun u w' threads' n st hu => ?_, fun w' u n k hk => ?_, fun w' u n hk => ?_, h.nodup⟩
  · rcases update_eq hu with ⟨rfl, hit⟩ | ⟨hut, hu⟩
    · cases hit
      rw [← he]
      exact h.working u w threads woken stage hpc
    · exact h.working u w' threads' n st hu
  · refine (h.done w' u n k hk).imp_right (Or.imp_right fun ⟨he, hall⟩ => ⟨he, ?_⟩)
    have hut : u ≠ t := by
      rintro rfl
      exact hall _ _ _ _ hpc
    rw [update_of_ne hut]
    exact hall
  · refine (h.known w' u n hk).imp_right fun ⟨he, threads', woken'', st, hu⟩ => ⟨he, ?_⟩
    by_cases hut : u = t
    · subst hut
      rw [hpc] at hu
      cases hu
      exact ⟨threads, woken', stage', update_self ..⟩
    · exact ⟨threads', woken'', st, by rw [update_of_ne hut, hu]⟩

theorem pop (hpc : pc t = .wake w threads woken .popping) :
    Tally (update pc t (.wake w threads woken .popped)) calls
      (update wakers w ((t, calls t) :: wakers w)) counts := by
  have hcount : ∀ w' u n, (u, n) ≠ (t, calls t) →
      (update wakers w ((t, calls t) :: wakers w) w').count (u, n) =
        (wakers w').count (u, n) := by
    intro w' u n hne
    by_cases hww : w' = w
    · subst hww
      rw [update_self, List.count_cons_of_ne hne.symm]
    · rw [update_of_ne hww]
  refine ⟨fun u w' threads' n st hu => ?_, fun w' u n k hk => ?_, fun w' u n hk => ?_, h.nodup⟩
  · rcases update_eq hu with ⟨rfl, hit⟩ | ⟨hut, hu⟩
    · cases hit
      rw [update_self, List.count_cons_self, h.working u w threads woken _ hpc]
      rfl
    · rw [hcount w' u _ (fun he => hut (Prod.ext_iff.mp he).1)]
      exact h.working u w' threads' n st hu
  · obtain ⟨hk', hle⟩ := h.done w' u n k hk
    have hne : (u, n) ≠ (t, calls t) := by
      rintro he
      cases he
      rcases hle with hlt | ⟨-, hall⟩
      · exact absurd hlt (Nat.lt_irrefl _)
      · exact hall _ _ _ _ hpc
    refine ⟨(hcount w' u n hne).trans hk', hle.imp_right fun ⟨he, hall⟩ => ⟨he, ?_⟩⟩
    have hut : u ≠ t := by
      rintro rfl
      exact hall _ _ _ _ hpc
    rwa [update_of_ne hut]
  · rcases mem_update_cons hk with ⟨rfl, he⟩ | hk
    · cases he
      exact .inr ⟨rfl, threads, woken, .popped, update_self ..⟩
    · refine (h.known w' u n hk).imp_right fun ⟨he, threads', woken', st, hu⟩ => ⟨he, ?_⟩
      by_cases hut : u = t
      · subst hut
        rw [hpc] at hu
        cases hu
        exact ⟨threads, woken, .popped, update_self ..⟩
      · exact ⟨threads', woken', st, by rw [update_of_ne hut, hu]⟩

theorem ret (hpc : pc t = .wake w threads woken stage) (he : taken woken stage = woken) :
    Tally (update pc t .outside) calls wakers
      (update counts w (((t, calls t), woken) :: counts w)) := by
  have hnew : ∀ w' k, ((t, calls t), k) ∉ counts w' := by
    intro w' k hk
    rcases (h.done w' t _ k hk).2 with hlt | ⟨-, hall⟩
    · exact absurd hlt (Nat.lt_irrefl _)
    · exact hall _ _ _ _ hpc
  refine ⟨fun u w' threads' n st hu => ?_, fun w' u n k hk => ?_, fun w' u n hk => ?_,
    fun w' => ?_⟩
  · have hut : u ≠ t := by
      rintro rfl
      rw [update_self] at hu
      cases hu
    rw [update_of_ne hut] at hu
    exact h.working u w' threads' n st hu
  · rcases mem_update_cons hk with ⟨rfl, hx⟩ | hk
    · cases hx
      refine ⟨(h.working t w' threads woken stage hpc).trans he, .inr ⟨rfl, ?_⟩⟩
      rw [update_self]
      simp
    · refine (h.done w' u n k hk).imp_right (Or.imp_right fun ⟨he, hall⟩ => ⟨he, ?_⟩)
      have hut : u ≠ t := by
        rintro rfl
        exact hall _ _ _ _ hpc
      rwa [update_of_ne hut]
  · rcases h.known w' u n hk with ⟨k, hd⟩ | ⟨hn, threads', woken', st, hu⟩
    · exact .inl ⟨k, update_of (_ ∈ ·) (List.mem_cons_of_mem _) hd⟩
    · by_cases hut : u = t
      · subst hut
        rw [hpc] at hu
        cases hu
        refine .inl ⟨woken, ?_⟩
        rw [update_self, hn]
        exact List.mem_cons_self
      · exact .inr ⟨hn, threads', woken', st, by rw [update_of_ne hut, hu]⟩
  · refine update_of (List.Nodup <| List.map Prod.fst ·) (fun hn => ?_) (h.nodup w')
    rw [List.map_cons, List.nodup_cons]
    refine ⟨fun hm => ?_, hn⟩
    obtain ⟨⟨key, k⟩, hk, rfl⟩ := List.mem_map.mp hm
    exact hnew w k hk

end

end Tally

end Tally

theorem tally_move (h : Tally s.pc s.calls (wakers s.log) (counts s.log)) (hm : Move sys s a s') :
    Tally s'.pc s'.calls (wakers s'.log) (counts s'.log) := by
  cases hm with
  | preempt _ hs => cases hs <;> exact h
  | block _ hpc hs | leave _ hpc hs => cases hs <;> exact h.stay hpc (by simp) (by simp)
  | @wait c choice t call stage s' _ hpc hw =>
    have hret : ∀ w threads woken stage, (if t = sys.reaper then .reap .popping else .outside :
        Pc Thr Wq) ≠ .wake w threads woken stage := by
      intro w threads woken stage
      split <;> simp
    cases hw with
    | metReturn | returnTimer _ | returnWaitable _ _ => exact h.stay hpc (by simp) hret
    | _ => exact h.stay hpc (by simp) (by simp)
  | @wake c choice t w threads woken stage s' _ hpc hw =>
    cases hw with
    | enter | enable | count _ => exact h.next hpc rfl
    | done | none _ =>
      have h' := h.ret hpc rfl
      rw [← counts_wakeReturned] at h'
      exact h'
    | @pop k rest _ =>
      have h' := h.pop hpc
      rw [← wakers_woke s.log t (s.calls t) w k] at h'
      exact h'
  | reap _ hpc hw =>
    cases hw with
    | free _ hp | skip _ hp =>
      rcases hp with rfl | ⟨part', rfl⟩ <;> exact h.stay hpc (by simp) (by simp)
    | _ => exact h.stay hpc (by simp) (by simp)
  | outside _ hpc hw =>
    cases hw with
    | wake _ => exact h.begin hpc _ _
    | wait _ _ _ | exit => exact h.stay hpc (by simp) (by simp)
    | _ => exact h
  | finalize _ hf => cases hf <;> exact h
  | _ => exact h

theorem tally_initial (h : Initial sys s) :
    Tally s.pc s.calls (wakers s.log) (counts s.log) := by
  rw [h.log]
  refine ⟨fun t w threads woken stage ht => ?_, fun w t n k hk => ?_, fun w t n hk => ?_,
    fun w => List.nodup_nil⟩
  · by_cases hr : t = sys.reaper
    · rw [hr, h.pc_reaper] at ht
      cases ht
    · rw [h.pc t hr] at ht
      cases ht
  · cases hk
  · cases hk

theorem sum_count_eq_length {α : Type} [BEq α] [LawfulBEq α] {keys l : List α}
    (hk : keys.Nodup) (hl : ∀ x ∈ l, x ∈ keys) : (keys.map fun x => l.count x).sum = l.length := by
  induction l with
  | nil => simp
  | cons a l ih =>
    have hsum : (keys.map fun x => (a :: l).count x).sum =
        (keys.map fun x => l.count x).sum + keys.count a := by
      clear ih hl hk
      induction keys with
      | nil => simp
      | cons b keys ih =>
        rw [List.map_cons, List.sum_cons, ih, List.map_cons, List.sum_cons]
        by_cases hb : a = b
        · subst hb
          rw [List.count_cons_self, List.count_cons_self]
          omega
        · rw [List.count_cons_of_ne hb, List.count_cons_of_ne (Ne.symm hb)]
          omega
    rw [hsum, ih fun x hx => hl x (List.mem_cons_of_mem _ hx),
      List.count_eq_one_of_mem hk (hl a List.mem_cons_self), List.length_cons]

/-- The wait of the token on the waitable has returned `WAIT_STATUS_WOKEN`, or has yet to
return and no longer has its token on the list. -/
def BoundWoken (s : State Cpu Thr Wq) (w : Wq) (k : Token Thr) : Prop :=
  .pushed w k ∈ s.log ∧ ((∃ call now, .returned k call .woken now ∈ s.log) ∨
    ((∀ call st now, .returned k call st now ∉ s.log) ∧ k ∉ s.waiters w))

section Membership

variable {log : List (Event Cpu Thr Wq)} {k : Token Thr}

theorem mem_pushes : k ∈ pushes log w ↔ .pushed w k ∈ log := by
  simp only [pushes, List.mem_filterMap]
  constructor
  · rintro ⟨e, he, hk⟩
    cases e <;> simp only [reduceCtorEq] at hk
    split at hk
    · cases hk
      subst w
      exact he
    · cases hk
  · exact fun he => ⟨_, he, by simp⟩

theorem mem_wokes (hw : w ≠ sys.reaperWaiter) :
    k ∈ wokes sys log w ↔ ∃ t n, .woke t n w k ∈ log := by
  simp only [wokes, List.mem_filterMap]
  constructor
  · rintro ⟨e, he, hk⟩
    cases e <;> simp only [reduceCtorEq, Ne.symm hw, if_false] at hk
    split at hk
    · cases hk
      subst w
      exact ⟨_, _, he⟩
    · cases hk
  · rintro ⟨t, n, he⟩
    exact ⟨_, he, by simp⟩

theorem mem_returns : (k, st) ∈ returns log ↔ ∃ call now, .returned k call st now ∈ log := by
  simp only [returns, List.mem_filterMap]
  constructor
  · rintro ⟨e, he, hk⟩
    cases e <;> simp only [reduceCtorEq] at hk
    cases hk
    exact ⟨_, _, he⟩
  · exact fun ⟨call, now, he⟩ => ⟨_, he, rfl⟩

theorem mem_counts : ((t, n), count) ∈ counts log w ↔ .wakeReturned t n w count ∈ log := by
  simp only [counts, List.mem_filterMap]
  constructor
  · rintro ⟨e, he, hk⟩
    cases e <;> simp only [reduceCtorEq] at hk
    split at hk
    · cases hk
      subst w
      exact he
    · cases hk
  · exact fun he => ⟨_, he, by simp⟩

end Membership

structure Accounts (sys : System Cpu Thr Wq) (s : State Cpu Thr Wq) : Prop where
  ledger : LedgerIn sys s
  tally : Tally s.pc s.calls (wakers s.log) (counts s.log)

theorem reachable_accounts {ok : State Cpu Thr Wq → Action Cpu Thr Wq → Prop}
    (h : Reachable sys ok s) : Accounts sys s :=
  reachable_invariant (fun _ hi => ⟨ledger_initial hi, tally_initial hi⟩)
    (fun _ _ _ hr ha _ _ hm =>
      ⟨ledger_move (reachable_inv hr).registered ha.ledger hm, tally_move ha.tally hm⟩) h

theorem woke_iff_bound (h : Accounts sys s) (k : Token Thr) :
    k ∈ wokes sys s.log w ↔ BoundWoken s w k := by
  have hsub := h.ledger.fifo w
  constructor
  · intro hk
    have hp : k ∈ pushes s.log w := hsub.subset (List.mem_append_right _ hk)
    refine ⟨mem_pushes.mp hp, ?_⟩
    by_cases hret : ∃ st, (k, st) ∈ returns s.log
    · obtain ⟨st, hst⟩ := hret
      have he := h.ledger.status k st w hst hp
      rw [outcome_eq, if_pos hk] at he
      exact .inl (mem_returns.mp (he ▸ hst))
    · refine .inr ⟨fun call st now hr => hret ⟨st, mem_returns.mpr ⟨call, now, hr⟩⟩, fun hin => ?_⟩
      exact h.ledger.waiting_not_woke hin hk
  · rintro ⟨hp, ⟨call, now, hr⟩ | ⟨hno, hin⟩⟩
    · have he := h.ledger.status k .woken w (mem_returns.mpr ⟨call, now, hr⟩) (mem_pushes.mpr hp)
      by_contra hk
      rw [outcome_eq, if_neg hk] at he
      cases he
    · rcases h.ledger.unfinished w k (mem_pushes.mpr hp) with ⟨st, hst⟩ | ⟨he, call, stage, hpc⟩
      · obtain ⟨call, now, hr⟩ := mem_returns.mp hst
        exact absurd hr (hno call st now)
      · rcases h.ledger.pushed w k (mem_pushes.mpr hp) with hlt | ⟨-, hall⟩
        · omega
        · obtain ⟨hwq, hq⟩ := hall call stage hpc
          have hk : (⟨k.thread, s.waits k.thread⟩ : Token Thr) = k := by rw [← he]
          have hcur := h.ledger.current k.thread call stage w hpc hwq hq
          rw [hk] at hcur
          exact hcur.resolve_left hin

theorem sum_counts (h : Accounts sys s) (hw : w ≠ sys.reaperWaiter)
    (hidle : ∀ t threads woken stage, s.pc t ≠ .wake w threads woken stage) :
    ((counts s.log w).map Prod.snd).sum = (wokes sys s.log w).length := by
  have hall : ∀ x ∈ wakers s.log w, x ∈ (counts s.log w).map Prod.fst := by
    rintro ⟨t, n⟩ hx
    rcases h.tally.known w t n hx with ⟨k, hd⟩ | ⟨-, threads, woken, stage, hpc⟩
    · exact List.mem_map.mpr ⟨_, hd, rfl⟩
    · exact absurd hpc (hidle t threads woken stage)
  have hmap : (counts s.log w).map Prod.snd =
      ((counts s.log w).map Prod.fst).map fun x => (wakers s.log w).count x := by
    rw [List.map_map]
    refine List.map_congr_left fun ⟨⟨t, n⟩, k⟩ hx => ?_
    exact ((h.tally.done w t n k hx).1).symm
  rw [hmap, sum_count_eq_length (h.tally.nodup w) hall, length_wakers _ hw]

/-- Waits and wake-up calls on a waitable agree, in every run. -/
theorem wakes_accounted (h : Reachable sys (fun _ _ => True) s) (hw : w ≠ sys.reaperWaiter) :
    (∀ k call st now, .returned k call st now ∈ s.log →
      (.pushed w k ∈ s.log → (st = .woken ↔ ∃ t n, .woke t n w k ∈ s.log) ∧
        (st = .timedOut ↔ ∀ t n, .woke t n w k ∉ s.log)) ∧
      (st = .conditionMet → .pushed w k ∉ s.log) ∧
      (st = .timedOut → ∀ t n, .woke t n w k ∉ s.log) ∧
      k ∉ s.waiters w ∧ (k.thread ∈ s.timeouts → k.wait < s.waits k.thread)) ∧
    ((wokes sys s.log w).reverse ++ s.waiters w).Sublist (pushes s.log w).reverse ∧
    (pushes s.log w).Nodup ∧
    (∀ t n count, .wakeReturned t n w count ∈ s.log → count = (wakers s.log w).count (t, n)) ∧
    ((∀ t threads woken stage, s.pc t ≠ .wake w threads woken stage) →
      ∃ l : List (Token Thr), l.Nodup ∧ (∀ k, k ∈ l ↔ BoundWoken s w k) ∧
        ((counts s.log w).map Prod.snd).sum = l.length) := by
  have hinv := reachable_inv h
  have ha := reachable_accounts h
  have hsub := ha.ledger.fifo w
  refine ⟨fun k call st now hr => ?_, ?_, ha.ledger.nodup w, fun t n count hc => ?_,
    fun hidle => ⟨wokes sys s.log w, ?_, woke_iff_bound ha, sum_counts ha hw hidle⟩⟩
  · have hret : (k, st) ∈ returns s.log := mem_returns.mpr ⟨call, now, hr⟩
    have hst : .pushed w k ∈ s.log → st = outcome (wokes sys s.log w) k := fun hp =>
      ha.ledger.status k st w hret (mem_pushes.mpr hp)
    have hwoke : k ∈ wokes sys s.log w ↔ ∃ t n, .woke t n w k ∈ s.log := mem_wokes hw
    have hnot : k ∉ wokes sys s.log w ↔ ∀ t n, .woke t n w k ∉ s.log := by
      rw [hwoke]
      simp
    have hwp : k ∈ wokes sys s.log w → .pushed w k ∈ s.log := fun hk =>
      mem_pushes.mp (hsub.subset (List.mem_append_right _ hk))
    refine ⟨fun hp => ?_, fun hm hp => ?_, fun hto => ?_, fun hin => ?_, fun hin => ?_⟩
    · rw [hst hp, outcome_eq, ← hwoke, ← hnot]
      by_cases hk : k ∈ wokes sys s.log w
      · simp [hk]
      · simp [hk]
    · exact ha.ledger.met k w (hm ▸ hret) (mem_pushes.mpr hp)
    · rw [← hnot]
      intro hk
      have he := hst (hwp hk)
      rw [outcome_eq, if_pos hk, hto] at he
      cases he
    · obtain ⟨he, call', stage, hpc, -⟩ := hinv.registered.token w k hin
      have hk : (⟨k.thread, s.waits k.thread⟩ : Token Thr) = k := by rw [← he]
      exact ha.ledger.not_returned hpc (hk ▸ hret)
    · obtain ⟨call', stage, hpc, -⟩ := hinv.registered.timeout k.thread hin
      rcases ha.ledger.returned k st hret with hlt | ⟨-, hall⟩
      · exact hlt
      · exact absurd hpc (hall call' stage)
  · have hrev := hsub.reverse
    rwa [List.reverse_append, List.reverse_reverse] at hrev
  · exact ((ha.tally.done w t n count (mem_counts.mpr hc)).1).symm
  · exact (hsub.nodup (ha.ledger.nodup w)).of_append_right

def wakesOne : List (Action (Fin 2) (Fin 5) (Fin 2)) :=
  blocks ++ dispatch 1 ++ .cpu 1 (.wake 1 1) :: goes 1 7

theorem one_wake_accounted : ∃ s, Reachable machine (fun _ _ => True) s ∧
    .wakeReturned 4 1 1 1 ∈ s.log ∧ ∃ l : List (Token (Fin 5)), l.Nodup ∧
      (∀ k, k ∈ l ↔ BoundWoken s 1 k) ∧ ((counts s.log 1).map Prod.snd).sum = l.length := by
  obtain ⟨s, hs, hp⟩ := run_reaches (p := fun s => .wakeReturned 4 1 1 1 ∈ s.log ∧
    ∀ t, s.pc t = .outside ∨ s.pc t = .reap .looping ∨
      s.pc t = .wait ⟨some 1, false, 0⟩ .resumed) queues_initial (meets_true wakesOne _)
    (by decide +kernel)
  obtain ⟨hret, hpc⟩ := of_decide_eq_true hp
  have hw : (1 : Fin 2) ≠ machine.reaperWaiter := by decide
  refine ⟨s, hs, hret, (wakes_accounted hs hw).2.2.2.2 fun t threads woken stage ht => ?_⟩
  rcases hpc t with he | he | he <;> rw [he] at ht <;> cases ht

end SchedAccounting
