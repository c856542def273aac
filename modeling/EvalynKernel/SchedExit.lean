import EvalynKernel.SchedTimeouts

/-! # Exiting threads (`arch/generic/thread/exit.c`)

A waker or the timeout handler that has dequeued a thread exchanges its state later, and
the exchange overwrites `THREAD_REAPING`. Where no agent has the thread when it exits, the
exit is final. -/
namespace SchedExit

set_option linter.unusedSectionVars false

open Function SchedState SchedSteps SchedMoves SchedPlaces SchedRegistrations SchedThreads
open SchedTimeouts

variable {Cpu Thr Wq : Type} [DecidableEq Cpu] [DecidableEq Thr] [DecidableEq Wq]
  {sys : System Cpu Thr Wq} {s s' : State Cpu Thr Wq} {c : Cpu} {t : Thr}

/-- When a step stores `THREAD_REAPING`, no agent has the thread dequeued. -/
def ExitsAlone (s s' : State Cpu Thr Wq) : Prop :=
  ∀ t, s.pc t ≠ .exiting → s'.pc t = .exiting → ∀ a k, s.hand a = .dequeued k → k.thread ≠ t

/-- What has happened since the thread stored `THREAD_REAPING`, newest first. -/
def since (t : Thr) (log : List (Event Cpu Thr Wq)) : List (Event Cpu Thr Wq) :=
  log.takeWhile fun e => e ≠ .exited t

/-- The event does not make an exited thread current and does not write its state. -/
def Spares (pc : Thr → Pc Thr Wq) : Event Cpu Thr Wq → Prop
  | .wrote t _ | .ran t => ¬ Ends (pc t)
  | .exited _ => False
  | _ => True

variable {p : Pc Thr Wq}

section Final

variable {pc : Thr → Pc Thr Wq} {state : Thr → ThreadState} {hand : Agent Cpu Thr → Hand Thr}
  {log : List (Event Cpu Thr Wq)}

structure Final (pc : Thr → Pc Thr Wq) (state : Thr → ThreadState)
    (hand : Agent Cpu Thr → Hand Thr) (log : List (Event Cpu Thr Wq)) : Prop where
  exited : ∀ t, .exited t ∈ log → Ends (pc t)
  reaping : ∀ t, Ends (pc t) → state t = .reaping
  hand : ∀ a k, hand a = .dequeued k → ¬ Ends (pc k.thread)
  quiet : ∀ t, .exited t ∈ log → .ran t ∉ since t log ∧ ∀ st, .wrote t st ∉ since t log

namespace Final

theorem note (h : Final pc state hand log) (he : Spares pc e) : Final pc state hand (e :: log) := by
  have hne : ∀ t, e ≠ .exited t := by
    rintro t rfl
    exact he
  have hold : ∀ t, .exited t ∈ e :: log → .exited t ∈ log := fun t ht =>
    (List.mem_cons.mp ht).resolve_left (Ne.symm (hne t))
  refine ⟨fun t ht => h.exited t (hold t ht), h.reaping, h.hand, fun t ht => ?_⟩
  have hend := h.exited t (hold t ht)
  have hsince : since t (e :: log) = e :: since t log := by
    simp [since, hne t]
  rw [hsince]
  refine ⟨fun hm => ?_, fun st hm => ?_⟩
  · rcases List.mem_cons.mp hm with rfl | hm
    · exact he hend
    · exact (h.quiet t (hold t ht)).1 hm
  · rcases List.mem_cons.mp hm with rfl | hm
    · exact he hend
    · exact (h.quiet t (hold t ht)).2 st hm

theorem write (h : Final pc state hand log) (ht : ¬ Ends (pc t)) :
    Final pc (update state t st) hand (.wrote t st :: log) := by
  have h' : Final pc state hand (.wrote t st :: log) := h.note ht
  refine ⟨h'.exited, fun u hu => ?_, h'.hand, h'.quiet⟩
  have hut : u ≠ t := by
    rintro rfl
    exact ht hu
  rw [update_of_ne hut]
  exact h.reaping u hu

theorem goto (h : Final pc state hand log) (hp : Ends p ↔ Ends (pc t)) :
    Final (update pc t p) state hand log := by
  have hu := update_iff Ends hp
  exact ⟨fun u hx => (hu u).mpr (h.exited u hx), fun u hx => h.reaping u ((hu u).mp hx),
    fun a k hk hx => h.hand a k hk ((hu _).mp hx), h.quiet⟩

theorem setHand (h : Final pc state hand log) (hx : ∀ k, x = .dequeued k → ¬ Ends (pc k.thread)) :
    Final pc state (update hand a x) log := by
  refine ⟨h.exited, h.reaping, fun a' k hk => ?_, h.quiet⟩
  rcases update_eq hk with ⟨rfl, hit⟩ | ⟨ha, hk⟩
  · exact hx k hit
  · exact h.hand a' k hk

theorem exit (h : Final pc state hand log) (ht : ¬ Ends (pc t))
    (hh : ∀ a k, hand a = .dequeued k → k.thread ≠ t) :
    Final (update pc t .exiting) (update state t .reaping) hand
      (.exited t :: .wrote t .reaping :: log) := by
  have h' : Final pc (update state t .reaping) hand (.wrote t .reaping :: log) :=
    h.write ht
  refine ⟨fun u hu => ?_, fun u hu => ?_, fun a k hk => ?_, fun u hu => ?_⟩
  · by_cases hut : u = t
    · subst hut
      rw [update_self]
      exact .inl rfl
    · rw [update_of_ne hut]
      refine h'.exited u ((List.mem_cons.mp hu).resolve_left fun he => hut ?_)
      exact Event.exited.inj he
  · by_cases hut : u = t
    · subst hut
      exact update_self ..
    · rw [update_of_ne hut] at hu
      exact h'.reaping u hu
  · rw [update_of_ne (hh a k hk)]
    exact h.hand a k hk
  · by_cases hut : u = t
    · subst hut
      simp [since]
    · have hin := (List.mem_cons.mp hu).resolve_left fun he => hut (Event.exited.inj he)
      have hsince : since u (.exited t :: .wrote t .reaping :: log) =
          .exited t :: since u (.wrote t .reaping :: log) := by
        simp [since, Ne.symm hut]
      rw [hsince]
      simpa using h'.quiet u hin

end Final

end Final

variable {call : WaitCall Wq} {stage : WaitStage}

theorem wait_not_ends (h : p = .wait call stage) : ¬ Ends p := by
  simp [Ends, h]

section Moves

variable {place : Thr → Place Cpu Thr}

theorem final_finalizes {stage : SwitchStage} (hr : RegisteredIn s) (hp : PlacedIn sys place s)
    (h : Final s.pc s.state s.hand s.log) (hm : s.mode c = .switching prev next stage)
    (hf : Finalizes sys s c prev next stage s') : Final s'.pc s'.state s'.hand s'.log := by
  have hok := hp.stage c prev next stage hm
  have hlive : ∀ {u : Thr}, s.state u ≠ .reaping → ¬ Ends (s.pc u) :=
    fun hst hend => hst (h.reaping _ hend)
  cases hf with
  | setCurrent =>
    have hst : s.state next ≠ .reaping := by
      by_cases hi : place next = .idle
      · simp [(hp.located next).idle_state.mp hi]
      · have hent := ((hp.located next).entering c).mpr ⟨by simp [hm, enteringOf], hi⟩
        simp [(hp.located next).ready (by simp [hent, Place.ready])]
    exact (h.note (e := .left prev (s.fpu c)) trivial).note (hlive hst)
  | storeRunning hi =>
    have hni : place next ≠ .idle := mt (hp.located next).idle_state.mp hi
    exact h.write (hlive (by simp [hok.2 hni]))
  | storeRunable =>
    have hst : s.state prev ≠ .reaping := by rcases hok.2.2.2 with he | he <;> simp [he]
    exact h.write (hlive hst)
  | commit _ hb => exact (h.write (hlive (by simp [hb]))).note trivial
  | reapPush _ _ | skipSave _ | restore _ => exact h.note trivial
  | @reapWake k rest _ hl =>
    refine Final.setHand ((h.note (e := .reaped prev) trivial).note trivial) fun k' he => ?_
    cases he
    obtain ⟨-, call, stage, hpc, -⟩ := hr.token _ k (hl ▸ List.mem_cons_self)
    exact wait_not_ends hpc
  | save _ => exact (h.note (e := .used prev) trivial).note trivial
  | _ => exact h

theorem final_waits (h : Final s.pc s.state s.hand s.log) (hpc : s.pc t = .wait call stage)
    (hw : Waits sys s t call stage s') : Final s'.pc s'.state s'.hand s'.log := by
  have hne := wait_not_ends hpc
  have hgo : ∀ {p : Pc Thr Wq}, ¬ Ends p → (Ends p ↔ Ends (s.pc t)) := fun hp => by simp [hp, hne]
  have hret : ¬ Ends (if t = sys.reaper then .reap .popping else .outside : Pc Thr Wq) := by
    split <;> simp [Ends]
  cases hw with
  | storeBlocking | storeRunning => exact (h.write hne).goto (hgo (by simp [Ends]))
  | push _ _ _ | compute _ => exact Final.goto (h.note trivial) (hgo (by simp [Ends]))
  | metReturn | returnTimer _ | returnWaitable _ _ => exact Final.goto (h.note trivial) (hgo hret)
  | _ => exact h.goto (hgo (by simp [Ends]))

theorem final_move (hc : ExitsAlone s s') (hr : RegisteredIn s) (hp : PlacedIn sys place s)
    (h : Final s.pc s.state s.hand s.log) (hm : Move sys s a s') :
    Final s'.pc s'.state s'.hand s'.log := by
  have hgo : ∀ {t : Thr} {p p' : Pc Thr Wq}, s.pc t = p → ¬ Ends p → ¬ Ends p' →
      (Ends p' ↔ Ends (s.pc t)) := by
    intro t p p' hpc hp hp'
    rw [hpc]
    simp [hp, hp']
  cases hm with
  | timerPop _ _ ht _ =>
    obtain ⟨call, stage, hpc, -⟩ := hr.timeout _ ht
    refine Final.setHand (h.note trivial) fun k he => ?_
    cases he
    exact wait_not_ends hpc
  | exchange _ hk =>
    refine (h.write (h.hand _ _ hk)).setHand fun k he => ?_
    split at he <;> cases he
  | enqueue _ _ => exact Final.setHand (h.note trivial) (by simp)
  | preempt _ hs => cases hs <;> exact h
  | block _ hpc hs =>
    cases hs <;> exact h.goto (hgo hpc (by simp [Ends]) (by simp [Ends]))
  | leave _ hpc hs =>
    cases hs <;> exact h.goto (by simp [hpc, Ends])
  | wait _ hpc hw => exact final_waits h hpc hw
  | @wake c choice t w threads woken stage s' _ hpc hw =>
    cases hw with
    | done | none _ =>
      exact Final.goto (h.note trivial) (hgo hpc (by simp [Ends]) (by simp [Ends]))
    | @pop k rest hl =>
      refine ((h.note (e := .woke t (s.calls t) w k) trivial).setHand fun k' he => ?_).goto
        (hgo hpc (by simp [Ends]) (by simp [Ends]))
      cases he
      obtain ⟨-, call, stage, hpc, -⟩ := hr.token _ k (hl ▸ List.mem_cons_self)
      exact wait_not_ends hpc
    | _ => exact h.goto (hgo hpc (by simp [Ends]) (by simp [Ends]))
  | reap _ hpc hw =>
    cases hw with
    | pop _ _ => exact Final.goto (h.note trivial) (hgo hpc (by simp [Ends]) (by simp [Ends]))
    | free _ hp =>
      rcases hp with rfl | ⟨part', rfl⟩ <;>
        exact Final.goto (h.note trivial) (hgo hpc (by simp [Ends]) (by simp [Ends]))
    | skip _ hp =>
      rcases hp with rfl | ⟨part', rfl⟩ <;>
        exact h.goto (hgo hpc (by simp [Ends]) (by simp [Ends]))
    | _ => exact h.goto (hgo hpc (by simp [Ends]) (by simp [Ends]))
  | @outside c choice t s' _ hpc hw =>
    cases hw with
    | exit =>
      exact h.exit (by simp [hpc, Ends]) (hc t (by simp [hpc]) (update_self ..))
    | wait _ _ _ | wake _ => exact h.goto (hgo hpc (by simp [Ends]) (by simp [Ends]))
    | _ => exact h
  | finalize hm hf => exact final_finalizes hr hp h hm hf
  | _ => exact h

theorem final_initial (h : Initial sys s) : Final s.pc s.state s.hand s.log := by
  refine ⟨fun t ht => ?_, fun t ht => ?_, fun a k hk => ?_, fun t ht => ?_⟩
  · rw [h.log] at ht
    cases ht
  · by_cases hr : t = sys.reaper
    · simp [hr, h.pc_reaper, Ends] at ht
    · simp [h.pc t hr, Ends] at ht
  · rw [h.hand a] at hk
    cases hk
  · rw [h.log] at ht
    cases ht

theorem reachable_final (h : Reachable sys (EveryStep sys ExitsAlone) s) :
    Final s.pc s.state s.hand s.log := by
  refine reachable_invariant (fun _ => final_initial) (fun s a s' hr hf hok hs hm => ?_) h
  have hinv := reachable_inv hr
  obtain ⟨place, hplaced, -⟩ := hinv.sound.placed
  exact final_move (hok s' hs) hinv.registered hplaced hf hm

/-- Where no agent has a thread when it exits, the thread is never current again and never
written again, and its switch puts it on `reaper_list` once. -/
theorem exit_is_final (h : Reachable sys (EveryStep sys ExitsAlone) s)
    (ht : .exited t ∈ s.log) :
    .ran t ∉ since t s.log ∧ (∀ st, .wrote t st ∉ since t s.log) ∧
    (buried s.log).count t ≤ 1 ∧
    ((∃ c, s.current c = t) ∨ (∃ c, leavingOf (s.mode c) = some t) ∨
      (buried s.log).count t = 1) := by
  have hfinal := reachable_final h
  obtain ⟨place, hp, hg⟩ := (reachable_inv h).sound.placed
  have hl := hp.located t
  have hst := hfinal.reaping t (hfinal.exited t ht)
  refine ⟨(hfinal.quiet t ht).1, (hfinal.quiet t ht).2,
    List.nodup_iff_count_le_one.mp hg.nodup t, ?_⟩
  cases he : place t with
  | idle => simp [hl.idle_state.mp he] at hst
  | blocked => simp [hl.blocked.mp he] at hst
  | queued _ | entering _ | held _ => simp [hl.ready (by simp [he, Place.ready])] at hst
  | running c => exact .inl ⟨c, ((hl.running c).mp he).1⟩
  | leaving c => exact .inr (.inl ⟨c, ((hl.leaving c).mp he).1⟩)
  | reaped => exact .inr (.inr (List.count_eq_one_of_mem hg.nodup ((hg.reaped t).mp he)))

end Moves

/-- Thread 3 exits while thread 4 still has it from its wait: the exchange comes after the
store of `THREAD_REAPING`, and thread 3 is queued and run again. -/
def staleExit : List (Action (Fin 2) (Fin 5) (Fin 2)) :=
  staleHand ++ .cpu 0 .exit :: goes 1 2 ++ goes 0 9 ++ .irq 0 :: goes 0 3

/-- The exchange comes after thread 3 has been put on `reaper_list`. -/
def lateExchange : List (Action (Fin 2) (Fin 5) (Fin 2)) :=
  staleHand ++ .cpu 0 .exit :: goes 0 6 ++ goes 1 2

theorem exit_undone :
    (∃ s, Reachable machine (fun _ _ => True) s ∧ .exited 3 ∈ s.log ∧
      .ran 3 ∈ since 3 s.log) ∧
    (∃ s, Reachable machine (fun _ _ => True) s ∧ .reaped 3 ∈ s.log ∧
      s.log.head? = some (.wrote 3 .runable)) := by
  constructor
  · obtain ⟨s, hs, hp⟩ := run_reaches (p := fun s => .exited 3 ∈ s.log ∧ .ran 3 ∈ since 3 s.log)
      queues_initial (meets_true staleExit _) (by decide +kernel)
    exact ⟨s, hs, of_decide_eq_true hp⟩
  · obtain ⟨s, hs, hp⟩ := run_reaches (p := fun s => .reaped 3 ∈ s.log ∧
      s.log.head? = some (.wrote 3 .runable)) queues_initial (meets_true lateExchange _)
      (by decide +kernel)
    exact ⟨s, hs, of_decide_eq_true hp⟩

def exitsAlone (s s' : State (Fin 2) (Fin 5) (Fin 2)) : Bool :=
  decide (∀ t, s.pc t ≠ .exiting → s'.pc t = .exiting →
    (∀ c, dequeuedOf (s.hand (.cpu c)) ≠ some t) ∧ ∀ u, dequeuedOf (s.hand (.thread u)) ≠ some t)

theorem exitsAlone_sound (s s' : State (Fin 2) (Fin 5) (Fin 2)) (h : exitsAlone s s' = true) :
    ExitsAlone s s' := by
  intro t hpc hpc' a k hk he
  obtain ⟨hcpu, hthread⟩ := of_decide_eq_true h t hpc hpc'
  cases a with
  | cpu c => exact hcpu c (by rw [hk, dequeuedOf, he])
  | thread u => exact hthread u (by rw [hk, dequeuedOf, he])

def exits : List (Action (Fin 2) (Fin 5) (Fin 2)) := dispatch 0 ++ .cpu 0 .exit :: goes 0 9

theorem lone_exit_is_final : ∃ s, Reachable machine (EveryStep machine ExitsAlone) s ∧
    .exited 3 ∈ s.log ∧ .ran 3 ∉ since 3 s.log ∧ (buried s.log).count 3 = 1 := by
  obtain ⟨s, hs, hp⟩ := run_reaches (p := fun s => .exited 3 ∈ s.log ∧
    (∀ c, s.current c ≠ 3) ∧ ∀ c, leavingOf (s.mode c) ≠ some 3) queues_initial
    (meets_of_checks exitsAlone_sound
    (by decide +kernel : checks machine exitsAlone exits _ = true))
    (by decide +kernel)
  obtain ⟨hx, hcur, hleave⟩ := of_decide_eq_true hp
  obtain ⟨hran, -, -, hplace⟩ := exit_is_final hs hx
  refine ⟨s, hs, hx, hran, ?_⟩
  rcases hplace with ⟨c, hc⟩ | ⟨c, hc⟩ | hone
  · exact absurd hc (hcur c)
  · exact absurd hc (hleave c)
  · exact hone

end SchedExit
