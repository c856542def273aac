import EvalynKernel.SchedReaper

/-! # What the reaper frees

The tail of `schedule_finalize` uses the thread it has handed to the reaper, and until its
end the CPU has that thread's page table loaded. Where the reaper takes a thread only after
the switch has ended, it frees nothing that is still in use. -/
namespace SchedReclaim

set_option linter.unusedSectionVars false

open Function SchedState SchedSteps SchedMoves SchedPlaces SchedThreads SchedReaper

variable {Cpu Thr Wq : Type} [DecidableEq Cpu] [DecidableEq Thr] [DecidableEq Wq]
  {sys : System Cpu Thr Wq} {s s' : State Cpu Thr Wq} {c : Cpu} {t : Thr}

/-- The reaper pops a thread off `reaper_list` only when no CPU is switching away from it. -/
def CollectsDone (s s' : State Cpu Thr Wq) : Prop :=
  ∀ t, s.reaperList = t :: s'.reaperList → ∀ c next stage, s.mode c ≠ .switching t next stage

def freed (log : List (Event Cpu Thr Wq)) : List Thr :=
  log.filterMap fun
    | .freed t _ => some t
    | _ => none

/-- The uses of a thread at the end of `schedule_finalize` come before it is freed. -/
def UsesFirst : List (Event Cpu Thr Wq) → Prop
  | [] => True
  | .used t :: log => t ∉ freed log ∧ UsesFirst log
  | .saved t _ :: log => t ∉ freed log ∧ UsesFirst log
  | _ :: log => UsesFirst log

variable {log : List (Event Cpu Thr Wq)} {part : Part}

theorem mem_freed (h : .freed t part ∈ log) : t ∈ freed log :=
  List.mem_filterMap.mpr ⟨_, h, rfl⟩

variable {stage stage' : SwitchStage} {a : Action Cpu Thr Wq} {prev next : Thr} {m : Mode Thr}

section Loaded

variable {current : Cpu → Thr} {mode : Cpu → Mode Thr} {pageTable : Cpu → Option Thr}

/-- The page table of a CPU is that of its current thread or of the thread it is leaving. -/
def Loaded (current : Cpu → Thr) (mode : Cpu → Mode Thr) (pageTable : Cpu → Option Thr) : Prop :=
  ∀ c t, pageTable c = some t → current c = t ∨ ∃ next stage, mode c = .switching t next stage

section

variable (h : Loaded current mode pageTable)
include h

theorem Loaded.setMode (hm : ∀ t next stage, mode c = .switching t next stage → ∃ next' stage',
      m = .switching t next' stage') : Loaded current (update mode c m) pageTable := by
  intro c' t ht
  refine (h c' t ht).imp_right fun ⟨next, stage, hs⟩ => ?_
  by_cases hc : c' = c
  · subst hc
    rw [update_self]
    exact hm t next stage hs
  · rw [update_of_ne hc]
    exact ⟨next, stage, hs⟩

theorem Loaded.restage (hm : mode c = .switching prev next stage) :
    Loaded current (update mode c (.switching prev next stage')) pageTable := by
  refine h.setMode fun t n st he => ?_
  rw [hm] at he
  cases he
  exact ⟨next, stage', rfl⟩

theorem Loaded.setCurrent (hm : mode c = .switching prev next stage) (hc : current c = prev) :
    Loaded (update current c next)
      (update mode c (.switching prev next stage')) pageTable := by
  intro c' t ht
  by_cases hcc : c' = c
  · subst hcc
    rw [update_self, update_self]
    right
    rcases h c' t ht with he | ⟨n, st, he⟩
    · exact ⟨next, stage', by rw [← he, hc]⟩
    · rw [hm] at he
      cases he
      exact ⟨next, stage', rfl⟩
  · rw [update_of_ne hcc, update_of_ne hcc]
    exact h c' t ht

theorem Loaded.load (ht : ∀ t, table = some t → current c = t) :
    Loaded current (update mode c m) (update pageTable c table) := by
  intro c' t ht'
  by_cases hc : c' = c
  · subst hc
    rw [update_self] at ht'
    exact .inl (ht t ht')
  · rw [update_of_ne hc] at ht' ⊢
    exact h c' t ht'

end

theorem loaded_scheduled (hs : Scheduled sys s c s') (h : Loaded s.current s.mode s.pageTable)
    (hm : s.mode c = .thread) : Loaded s'.current s'.mode s'.pageTable := by
  cases hs with
  | stays _ => exact h
  | idles _ _ | switches _ _ => exact h.setMode (by simp [hm])

variable {place : Thr → Place Cpu Thr}

theorem loaded_move (hp : PlacedIn sys place s)
    (h : Loaded s.current s.mode s.pageTable) (hm : Move sys s a s') :
    Loaded s'.current s'.mode s'.pageTable := by
  cases hm with
  | irq hm | timerReturn hm _ => exact h.setMode (by simp [hm])
  | preempt hm hs => exact loaded_scheduled hs h hm
  | block hr _ hs | leave hr _ hs => exact loaded_scheduled hs h hr.mode
  | wait _ _ hw | wake _ _ hw | reap _ _ hw | outside _ _ hw => cases hw <;> exact h
  | @finalize c choice prev next stage s' hm hf =>
    have hok := hp.stage c prev next stage hm
    cases hf with
    | setCurrent => exact h.setCurrent hm hok.1
    | loadTable =>
      refine h.load fun t ht => ?_
      split at ht
      · cases ht
        exact hok
      · cases ht
    | _ => exact h.restage hm
  | _ => exact h

end Loaded

section Reclaims

variable {pc : Thr → Pc Thr Wq} {mode : Cpu → Mode Thr} {taken gone : List Thr}

structure Reclaims (pc : Thr → Pc Thr Wq) (mode : Cpu → Mode Thr) (taken gone : List Thr) :
    Prop where
  freeing : ∀ t x part, pc t = .reap (.freeing x part) → x ∈ taken
  freed : ∀ x ∈ gone, x ∈ taken
  left : ∀ x ∈ taken, ∀ c next stage, mode c ≠ .switching x next stage

abbrev ReclaimsIn (s : State Cpu Thr Wq) : Prop :=
  Reclaims s.pc s.mode (collected s.log) (freed s.log)

namespace Reclaims

section

variable (h : Reclaims pc mode taken gone)
include h

theorem goto (hp : ∀ x part, p = .reap (.freeing x part) → x ∈ taken) :
    Reclaims (update pc t p) mode taken gone := by
  refine ⟨fun u x part hu => ?_, h.freed, h.left⟩
  rcases update_eq hu with ⟨rfl, hit⟩ | ⟨hut, hu⟩
  · exact hp x part hit
  · exact h.freeing u x part hu

theorem setMode (hm : ∀ x ∈ taken, ∀ next stage, m ≠ .switching x next stage) :
    Reclaims pc (update mode c m) taken gone := by
  refine ⟨h.freeing, h.freed, fun x hx c' next stage => ?_⟩
  by_cases hc : c' = c
  · subst hc
    rw [update_self]
    exact hm x hx next stage
  · rw [update_of_ne hc]
    exact h.left x hx c' next stage

theorem restage (hm : mode c = .switching prev next stage) :
    Reclaims pc (update mode c (.switching prev next stage')) taken gone := by
  refine h.setMode fun x hx n st he => ?_
  cases he
  exact h.left _ hx c next stage hm

theorem not_freed (hm : mode c = .switching prev next stage) : prev ∉ gone :=
  fun hg => h.left prev (h.freed prev hg) c next stage hm

variable {x : Thr}

theorem collect (hx : ∀ c next stage, mode c ≠ .switching x next stage) :
    Reclaims pc mode (x :: taken) gone := by
  refine ⟨fun t y part ht => List.mem_cons_of_mem _ (h.freeing t y part ht),
    fun y hy => List.mem_cons_of_mem _ (h.freed y hy), fun y hy => ?_⟩
  rcases List.mem_cons.mp hy with rfl | hy
  · exact hx
  · exact h.left y hy

theorem free (hx : x ∈ taken) : Reclaims pc mode taken (x :: gone) := by
  refine ⟨h.freeing, fun y hy => ?_, h.left⟩
  rcases List.mem_cons.mp hy with rfl | hy
  · exact hx
  · exact h.freed y hy

end

end Reclaims

theorem reclaims_scheduled (hs : Scheduled sys s c s')
    (h : ReclaimsIn s)
    (hgone : ∀ x ∈ collected s.log, s.current c ≠ x) : ReclaimsIn s' := by
  have hm : ∀ next stage, ∀ x ∈ collected s.log, ∀ n st,
      Mode.switching (s.current c) next stage ≠ .switching x n st := by
    intro next stage x hx n st he
    cases he
    exact hgone _ hx rfl
  cases hs with
  | stays _ => exact h
  | idles _ _ | switches _ _ => exact h.setMode (hm _ _)

theorem reclaims_move (hc : CollectsDone s s') (hgone : ∀ c, ∀ x ∈ collected s.log, s.current c ≠ x)
    (h : ReclaimsIn s) (hm : Move sys s a s') : ReclaimsIn s' := by
  cases hm with
  | irq _ | timerReturn _ _ => exact h.setMode (by simp)
  | preempt _ hs => exact reclaims_scheduled hs h (hgone _)
  | block _ _ hs | leave _ _ hs => exact reclaims_scheduled hs (h.goto (by simp)) (hgone _)
  | @wait c choice t call stage s' _ _ hw =>
    have hret : ∀ x part, (if t = sys.reaper then .reap .popping else .outside : Pc Thr Wq) ≠
        .reap (.freeing x part) := by
      intro x part
      split <;> simp
    cases hw with
    | metReturn | returnTimer _ | returnWaitable _ _ =>
      exact h.goto fun x part he => absurd he (hret x part)
    | _ => exact h.goto (by simp)
  | wake _ _ hw => cases hw <;> exact h.goto (by simp)
  | @reap c choice t stage s' _ hpc hw =>
    cases hw with
    | wait _ | none _ => exact h.goto (by simp)
    | @pop x rest _ hl =>
      refine (h.collect (hc x hl)).goto fun y part he => ?_
      cases he
      exact List.mem_cons_self
    | @free x part p _ hp =>
      have hx := h.freeing t x part hpc
      refine (h.free hx).goto fun y part' he => ?_
      rcases hp with rfl | ⟨part'', rfl⟩ <;> cases he
      exact hx
    | @skip x part p _ hp =>
      have hx := h.freeing t x part hpc
      refine h.goto fun y part' he => ?_
      rcases hp with rfl | ⟨part'', rfl⟩ <;> cases he
      exact hx
  | outside _ _ hw =>
    cases hw with
    | wait _ _ _ | wake _ | exit => exact h.goto (by simp)
    | _ => exact h
  | finalize hm hf =>
    cases hf with
    | loadTable => exact h.setMode (by simp)
    | _ => exact h.restage hm
  | _ => exact h

theorem usesFirst_move (h : ReclaimsIn s)
    (hu : UsesFirst s.log) (hm : Move sys s a s') : UsesFirst s'.log := by
  cases hm with
  | finalize hm hf =>
    cases hf with
    | save _ => exact ⟨h.not_freed hm, h.not_freed hm, hu⟩
    | skipSave _ => exact ⟨h.not_freed hm, hu⟩
    | _ => exact hu
  | preempt _ hs | block _ _ hs | leave _ _ hs => cases hs <;> exact hu
  | wait _ _ hw | wake _ _ hw | reap _ _ hw | outside _ _ hw => cases hw <;> exact hu
  | _ => exact hu

end Reclaims

variable {place : Thr → Place Cpu Thr}

theorem collected_place (hg : Buried place (buried s.log)) (hr : Remembers sys s)
    (ht : t ∈ collected s.log) : place t = .reaped := by
  refine (hg.reaped t).mpr ?_
  rw [← List.mem_reverse, hr.reaping.order]
  exact List.mem_append_left _ (List.mem_reverse.mpr ht)

theorem reaped_not_current (hp : PlacedIn sys place s)
    (ht : place t = .reaped) (c : Cpu) : s.current c ≠ t := by
  intro hc
  have hrun := ((hp.located t).running c).mpr ⟨hc, by simp [ht]⟩
  rw [ht] at hrun
  cases hrun

structure Frees (s : State Cpu Thr Wq) : Prop where
  loaded : Loaded s.current s.mode s.pageTable
  reclaims : ReclaimsIn s
  first : UsesFirst s.log

theorem frees_initial (h : Initial sys s) : Frees s := by
  refine ⟨fun c t ht => ?_, ⟨fun t x part ht => ?_, fun x hx => ?_, fun x hx => ?_⟩, ?_⟩
  · rw [h.pageTable c] at ht
    cases ht
  · by_cases hr : t = sys.reaper
    · rw [hr, h.pc_reaper] at ht
      cases ht
    · rw [h.pc t hr] at ht
      cases ht
  · rw [h.log] at hx
    cases hx
  · rw [h.log] at hx
    cases hx
  · rw [h.log]
    trivial

theorem reachable_frees (h : Reachable sys (EveryStep sys CollectsDone) s) : Frees s := by
  refine reachable_invariant (fun _ => frees_initial) (fun s a s' hr hf hok hs hm => ?_) h
  obtain ⟨place, hp, hg⟩ := (reachable_inv hr).sound.placed
  have hrem := reachable_remembers hr
  exact ⟨loaded_move hp hf.loaded hm, reclaims_move (hok s' hs)
    (fun c x hx => reaped_not_current hp (collected_place hg hrem hx) c) hf.reclaims hm,
    usesFirst_move hf.reclaims hf.first hm⟩

theorem usesFirst_split (h : UsesFirst log) (he : log = l₁ ++ .freed t part :: l₂) :
    .used t ∉ l₁ ∧ ∀ v, .saved t v ∉ l₁ := by
  induction l₁ generalizing log with
  | nil => simp
  | cons e l₁ ih =>
    subst he
    have hfreed : t ∈ freed (l₁ ++ .freed t part :: l₂) :=
      mem_freed (List.mem_append_right _ List.mem_cons_self)
    have hrest : UsesFirst (l₁ ++ .freed t part :: l₂) := by
      cases e <;> first | exact h | exact h.2
    obtain ⟨hused, hsaved⟩ := ih hrest rfl
    refine ⟨fun hm => ?_, fun v hm => ?_⟩
    · rcases List.mem_cons.mp hm with rfl | hm
      · exact h.1 hfreed
      · exact hused hm
    · rcases List.mem_cons.mp hm with rfl | hm
      · exact h.1 hfreed
      · exact hsaved v hm

/-- Where the reaper takes a thread only after the switch away from it, no CPU has a freed
thread's page table or is in a switch that uses the thread, and every use came before. -/
theorem reaper_frees_last (h : Reachable sys (EveryStep sys CollectsDone) s) :
    (∀ t part, .freed t part ∈ s.log → ∀ c, s.pageTable c ≠ some t ∧ ∀ u stage,
      s.mode c ≠ .switching t u stage ∧ s.mode c ≠ .switching u t stage) ∧
    (∀ l₁ l₂ t part, s.log = l₁ ++ .freed t part :: l₂ →
      .used t ∉ l₁ ∧ ∀ v, .saved t v ∉ l₁) := by
  have hf := reachable_frees h
  obtain ⟨place, hp, hg⟩ := (reachable_inv h).sound.placed
  refine ⟨fun t part ht c => ?_, fun l₁ l₂ t part hlog => usesFirst_split hf.first hlog⟩
  have hcol := hf.reclaims.freed t (mem_freed ht)
  have hpl := collected_place hg (reachable_remembers h) hcol
  have hcur := reaped_not_current hp hpl c
  refine ⟨fun hpt => ?_, fun u stage => ⟨hf.reclaims.left t hcol c u stage, fun hm => ?_⟩⟩
  · rcases hf.loaded c t hpt with he | ⟨next, stage, he⟩
    · exact hcur he
    · exact hf.reclaims.left t hcol c next stage he
  · by_cases hst : stage = .popped
    · subst hst
      have hent := ((hp.located t).entering c).mpr ⟨by simp [hm, enteringOf], by simp [hpl]⟩
      rw [hpl] at hent
      cases hent
    · exact hcur (hp.current_eq hm hst)

/-- Thread 3 exits; the reaper, about to run on the other CPU, finds it on `reaper_list` and
frees it before the switch away from it has reached its end. -/
def earlyFree : List (Action (Fin 2) (Fin 5) (Fin 2)) :=
  dispatch 0 ++ .cpu 0 .exit :: goes 0 7 ++ dispatch 1 ++ goes 1 12 ++ goes 0 1

theorem used_after_free : ∃ s, Reachable machine (fun _ _ => True) s ∧
    .freed 3 .addressSpace ∈ s.log ∧ s.pageTable 0 = some 3 ∧
    s.log.take 3 = [.saved 3 0, .used 3, .freed 3 .thread] := by
  obtain ⟨s, hs, hp⟩ := run_reaches (p := fun s => .freed 3 .addressSpace ∈ s.log ∧
    s.pageTable 0 = some 3 ∧ s.log.take 3 = [.saved 3 0, .used 3, .freed 3 .thread])
    reaperAhead_initial (meets_true earlyFree _) (by decide +kernel)
  exact ⟨s, hs, of_decide_eq_true hp⟩

def popsAtRest (s s' : State (Fin 2) (Fin 5) (Fin 2)) : Bool :=
  decide (s.reaperList.length ≤ s'.reaperList.length ∨ ∀ c, s.mode c = .thread)

theorem popsAtRest_sound (s s' : State (Fin 2) (Fin 5) (Fin 2)) (h : popsAtRest s s' = true) :
    CollectsDone s s' := by
  intro t ht c next stage hm
  rcases of_decide_eq_true h with hle | hrest
  · rw [ht, List.length_cons] at hle
    omega
  · rw [hrest c] at hm
    cases hm

def lateFree : List (Action (Fin 2) (Fin 5) (Fin 2)) :=
  dispatch 0 ++ .cpu 0 .exit :: goes 0 10 ++ dispatch 1 ++ goes 1 12

theorem exited_thread_freed_last : ∃ s, Reachable machine (EveryStep machine CollectsDone) s ∧
    .freed 3 .addressSpace ∈ s.log ∧ s.pageTable 0 ≠ some 3 ∧ s.pageTable 1 ≠ some 3 := by
  obtain ⟨s, hs, hp⟩ := run_reaches (p := fun s => .freed 3 .addressSpace ∈ s.log)
    reaperAhead_initial (meets_of_checks popsAtRest_sound
      (by decide +kernel : checks machine popsAtRest lateFree _ = true)) (by decide +kernel)
  have hfreed := of_decide_eq_true hp
  have hlast := (reaper_frees_last hs).1 3 _ hfreed
  exact ⟨s, hs, hfreed, (hlast 0).1, (hlast 1).1⟩

end SchedReclaim
