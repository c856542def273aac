import EvalynKernel.SyscallsFutexEntries

/-! # No lost futex wake-ups

A wait whose expected value is no longer in memory is stale. A wake that comes after the
store finds every stale token among the first `count` of its list: each token that follows
was pushed after the store and is not stale. -/
namespace SyscallsFutexWakes

set_option linter.unusedSectionVars false

open Function DstructRbtreeRuns DstructRbtreeInsert DstructRbtreeSearch SyscallsFutex
open SyscallsFutexMoves SyscallsFutexEntries

variable {Thr : Type} [DecidableEq Thr] {pc : Thr → Pc} {waiters : ℕ → List Thr} {t w : Thr}
  {p : Pc} {a key n : ℕ} {v : UInt32} {s s' : State Thr}

variable {l : List Thr}

section Tokens

def queuedAt : Pc → Option ℕ
  | .wait _ (.pushed a) | .wait _ (.blocked a) | .wait _ (.cleaning a) => some a
  | _ => none

/-- The tokens on the lists are those of waits between the push and the clean-up. -/
structure Tokens (pc : Thr → Pc) (waiters : ℕ → List Thr) : Prop where
  queued : ∀ a, ∀ u ∈ waiters a, queuedAt (pc u) = some a
  nodup : ∀ a, (waiters a).Nodup

namespace Tokens

section

variable (h : Tokens pc waiters)
include h

theorem notMem (ht : queuedAt (pc t) = none) (a : ℕ) : t ∉ waiters a := by
  intro hin
  have hq := h.queued a t hin
  rw [ht] at hq
  cases hq

theorem goto (hq : ∀ a, t ∈ waiters a → queuedAt p = some a) :
    Tokens (update pc t p) waiters := by
  refine ⟨fun a u hu => ?_, h.nodup⟩
  by_cases hut : u = t
  · subst hut
    rw [update_self]
    exact hq a hu
  · rw [update_of_ne hut]
    exact h.queued a u hu

theorem goto_out (ht : queuedAt (pc t) = none) :
    Tokens (update pc t p) waiters :=
  h.goto fun a ha => absurd ha (h.notMem ht a)

theorem setWaiters (hq : ∀ u ∈ l, queuedAt (pc u) = some a) (hl : l.Nodup) :
    Tokens pc (update waiters a l) := by
  refine ⟨fun b u hu => ?_, fun b => ?_⟩ <;> by_cases hba : b = a
  · subst hba
    rw [update_self] at hu
    exact hq u hu
  · rw [update_of_ne hba] at hu
    exact h.queued b u hu
  · subst hba
    rwa [update_self]
  · rw [update_of_ne hba]
    exact h.nodup b

theorem sublist (hl : l.Sublist (waiters a)) : Tokens pc (update waiters a l) :=
  h.setWaiters (fun u hu => h.queued a u (hl.subset hu)) ((h.nodup a).sublist hl)

theorem push (ht : queuedAt (pc t) = none) (hp : queuedAt p = some a) :
    Tokens (update pc t p) (update waiters a (waiters a ++ [t])) := by
  have h' : Tokens (update pc t p) waiters := h.goto_out ht
  have hout := h.notMem ht a
  refine h'.setWaiters (fun u hu => ?_) ?_
  · rcases List.mem_append.mp hu with hu | hu
    · exact h'.queued a u hu
    · rw [List.mem_singleton.mp hu, update_self, hp]
  · exact (h.nodup a).append (List.nodup_singleton t) (by simpa using hout)

theorem clean (ht : queuedAt (pc t) = some a) (hout : t ∉ waiters a) :
    Tokens (update pc t p) waiters := by
  refine h.goto fun b hb => ?_
  have hq := h.queued b t hb
  rw [ht] at hq
  cases hq
  exact absurd hb hout

end

end Tokens

theorem tokens_move (h : Tokens s.pc s.waiters) (hm : Move s t s') :
    Tokens s'.pc s'.waiters := by
  cases hm with
  | store _ | refuse _ => exact h
  | callWait hpc | callWake hpc => exact h.goto_out (by rw [hpc]; rfl)
  | wait hpc hw =>
    cases hw with
    | push => exact h.push (by rw [hpc]; rfl) rfl
    | sleep | resume _ =>
      refine h.goto fun b hb => ?_
      have hq := h.queued b t hb
      rw [hpc] at hq
      exact hq
    | @delete a hin =>
      have h' := h.sublist (List.erase_sublist (a := t) (l := s.waiters a))
      refine h'.clean (by rw [hpc]; rfl) ?_
      rw [update_self]
      exact (h.nodup a).not_mem_erase
    | gone hout => exact h.clean (by rw [hpc]; rfl) hout
    | create => exact (h.sublist (List.nil_sublist _)).goto_out (by rw [hpc]; rfl)
    | _ => exact h.goto_out (by rw [hpc]; rfl)
  | wake hpc hw =>
    cases hw with
    | @pop a woken u rest hl =>
      have hsub : rest.Sublist (s.waiters a) := by
        rw [hl]
        exact List.sublist_cons_self u rest
      exact (h.sublist hsub).goto_out (by rw [hpc]; rfl)
    | _ => exact h.goto_out (by rw [hpc]; rfl)

theorem tokens_initial (h : Initial s) : Tokens s.pc s.waiters :=
  ⟨fun a u hu => by simp [h.waiters a] at hu, fun a => by simp [h.waiters a]⟩

end Tokens

variable {xs : List ℕ} {u : Thr}

section Served

/-- A wait on the key for a value other than `v`. -/
def Stale (key : ℕ) (v : UInt32) : Pc → Prop
  | .wait call _ => call.key = key ∧ call.expected ≠ v
  | _ => False

/-- The entry to whose list a thread that has checked the word is about to push its token. -/
def pushingAt : Pc → Option ℕ
  | .wait _ (.pushing a) => some a
  | _ => none

theorem role_of_queuedAt (h : queuedAt p = some a) : ∃ k, roleOf p = .counted a k := by
  cases p with
  | outside | wake => cases h
  | wait call stage => cases stage <;> cases h <;> exact ⟨_, rfl⟩

theorem role_of_pushingAt (h : pushingAt p = some a) : ∃ k, roleOf p = .counted a k := by
  cases p with
  | outside | wake => cases h
  | wait call stage =>
    cases stage <;> cases h
    exact ⟨_, rfl⟩

theorem guards_of_pushingAt (h : pushingAt p = some a) : guards p = some a := by
  cases p with
  | outside | wake => cases h
  | wait call stage =>
    cases stage <;> cases h
    rfl

theorem Stale.key_eq (h : Stale key v p) (hr : roleOf p = .counted a k) : k = key := by
  cases p with
  | outside | wake => cases h
  | wait call stage => cases stage <;> cases hr <;> exact h.1

/-- Every stale token, and the one that a thread has yet to push, is among the first `n` of
its list. -/
structure Served (key : ℕ) (v : UInt32) (n : ℕ) (pc : Thr → Pc) (waiters : ℕ → List Thr) :
    Prop where
  ahead : ∀ a, ∀ u ∈ (waiters a).drop n, ¬ Stale key v (pc u)
  pushing : ∀ a u, pushingAt (pc u) = some a → Stale key v (pc u) → (waiters a).length < n

namespace Served

section

variable (h : Served key v n pc waiters)
include h

theorem goto (hs : ∀ a, t ∈ waiters a → Stale key v p → Stale key v (pc t))
    (hp : ∀ a, pushingAt p = some a → ¬ Stale key v p) :
    Served key v n (update pc t p) waiters := by
  refine ⟨fun a u hu => ?_, fun a u hu => ?_⟩ <;> by_cases hut : u = t
  · subst hut
    rw [update_self]
    exact fun hst => h.ahead a u hu (hs a (List.mem_of_mem_drop hu) hst)
  · rw [update_of_ne hut]
    exact h.ahead a u hu
  · subst hut
    rw [update_self] at hu ⊢
    exact fun hst => absurd hst (hp a hu)
  · rw [update_of_ne hut] at hu ⊢
    exact h.pushing a u hu

theorem sublist (hl : l.Sublist (waiters a)) : Served key v n pc (update waiters a l) := by
  refine ⟨fun b u hu => ?_, fun b u hu hst => ?_⟩ <;> by_cases hba : b = a
  · subst hba
    rw [update_self] at hu
    exact h.ahead b u ((hl.drop n).subset hu)
  · rw [update_of_ne hba] at hu
    exact h.ahead b u hu
  · subst hba
    rw [update_self]
    exact hl.length_le.trans_lt (h.pushing b u hu hst)
  · rw [update_of_ne hba]
    exact h.pushing b u hu hst

theorem push (hone : ∀ u, u ≠ t → pushingAt (pc u) ≠ some a) (ht : pushingAt (pc t) = some a)
    (hst : Stale key v p → Stale key v (pc t)) (hp : pushingAt p = none) :
    Served key v n (update pc t p) (update waiters a (waiters a ++ [t])) := by
  refine ⟨fun b u hu hs => ?_, fun b u hu hs => ?_⟩
  · by_cases hba : b = a
    · subst hba
      rw [update_self, List.drop_append] at hu
      by_cases hut : u = t
      · subst hut
        rw [update_self] at hs
        have hlt := h.pushing b u ht (hst hs)
        rw [List.drop_eq_nil_of_le hlt.le, List.nil_append,
          List.drop_eq_nil_of_le (by simp; omega)] at hu
        cases hu
      · rw [update_of_ne hut] at hs
        rcases List.mem_append.mp hu with hu | hu
        · exact h.ahead b u hu hs
        · exact hut (List.mem_singleton.mp (List.mem_of_mem_drop hu))
    · rw [update_of_ne hba] at hu
      by_cases hut : u = t
      · subst hut
        rw [update_self] at hs
        exact h.ahead b u hu (hst hs)
      · rw [update_of_ne hut] at hs
        exact h.ahead b u hu hs
  · by_cases hut : u = t
    · subst hut
      rw [update_self, hp] at hu
      cases hu
    · rw [update_of_ne hut] at hu hs
      have hba : b ≠ a := by
        rintro rfl
        exact hone u hut hu
      rw [update_of_ne hba]
      exact h.pushing b u hu hs

end

end Served

theorem served_move (hl : Locks s.pc s.treeLock s.guard) (ht : Tokens s.pc s.waiters)
    (he : Entries (roles s.pc) xs s.tree.valueOfNode s.allocated s.refcnt) (hmem : s.memory key = v)
    (h : Served key v n s.pc s.waiters) (hm : Move s t s') : Served key v n s'.pc s'.waiters := by
  have hout : ∀ {p : Pc}, queuedAt (s.pc t) = none → pushingAt p = none →
      Served key v n (update s.pc t p) s.waiters := by
    intro p hq hp
    exact h.goto (fun a ha => absurd ha (ht.notMem hq a)) (by simp [hp])
  cases hm with
  | store _ | refuse _ => exact h
  | callWait hpc | callWake hpc => exact hout (by rw [hpc]; rfl) rfl
  | @wait call stage s' hpc hw =>
    have hst : ∀ stage', Stale key v (.wait call stage') → Stale key v (s.pc t) := by
      intro stage' hstale
      rw [hpc]
      exact hstale
    cases hw with
    | @unmet a hval =>
      refine h.goto (fun _ _ => hst _) fun b _ hstale => ?_
      have hbel := he.belongs t
      rw [roles, hpc] at hbel
      have hkey : s.tree.valueOfNode a = call.key := hbel.2
      rw [hkey, hstale.1, hmem] at hval
      exact hstale.2 hval.symm
    | @push a =>
      refine h.push (fun u hu hpu => hu ?_) (by rw [hpc]; rfl) (hst _) rfl
      have htg : guards (s.pc t) = some a := by rw [hpc]; rfl
      have hug := (hl.guard u a).mp (guards_of_pushingAt hpu)
      exact Option.some.inj (hug.symm.trans ((hl.guard t a).mp htg))
    | @delete a _ =>
      exact (h.sublist List.erase_sublist).goto (fun _ _ => hst _) (by simp [pushingAt])
    | create => exact (h.sublist (List.nil_sublist _)).goto (fun _ _ => hst _) (by simp [pushingAt])
    | back => exact h.goto (by simp [Stale]) (by simp [pushingAt])
    | _ => exact h.goto (fun _ _ => hst _) (by simp [pushingAt])
  | @wake call stage s' hpc hw =>
    cases hw with
    | @pop a woken u rest hlist =>
      have hsub : rest.Sublist (s.waiters a) := by
        rw [hlist]
        exact List.sublist_cons_self u rest
      exact (h.sublist hsub).goto (by simp [Stale]) (by simp [pushingAt])
    | _ => exact hout (by rw [hpc]; rfl) rfl

theorem Stale.entry (hst : Stale key v (s.pc u))
    (hu : queuedAt (s.pc u) = some a ∨ pushingAt (s.pc u) = some a)
    (he : Entries (roles s.pc) xs s.tree.valueOfNode s.allocated s.refcnt) :
    a ∈ xs ∧ s.tree.valueOfNode a = key := by
  obtain ⟨k, hk⟩ := hu.elim role_of_queuedAt role_of_pushingAt
  have hbel := he.belongs u
  rw [roles, hk, hst.key_eq hk] at hbel
  exact hbel

theorem length_le_encard (hl : l.Nodup) {S : Set Thr} (hS : ∀ u ∈ l, u ∈ S) :
    (l.length : ℕ∞) ≤ S.encard := by
  rw [← List.toFinset_card_of_nodup hl, ← Set.encard_coe_eq_coe_finsetCard]
  exact Set.encard_le_encard fun u hu => hS u (List.mem_toFinset.mp hu)

theorem served_of_few (ht : Tokens s.pc s.waiters)
    (he : Entries (roles s.pc) xs s.tree.valueOfNode s.allocated s.refcnt)
    (hfew : (waiting s.pc key).encard ≤ n) : Served key v n s.pc s.waiters := by
  have hwait : ∀ a u, queuedAt (s.pc u) = some a ∨ pushingAt (s.pc u) = some a →
      s.tree.valueOfNode a = key → u ∈ waiting s.pc key := by
    intro a u hu ha
    obtain ⟨k, hk⟩ := hu.elim role_of_queuedAt role_of_pushingAt
    have hbel := he.belongs u
    rw [roles, hk] at hbel
    exact ⟨a, by rw [hk, ← hbel.2, ha]⟩
  refine ⟨fun a u hu hst => ?_, fun a u hu hst => ?_⟩
  · have hin := List.mem_of_mem_drop hu
    have ha := (hst.entry (.inl (ht.queued a u hin)) he).2
    have hle := (length_le_encard (ht.nodup a) fun x hx =>
      hwait a x (.inl (ht.queued a x hx)) ha).trans
      hfew
    rw [List.drop_eq_nil_of_le (by exact_mod_cast hle)] at hu
    cases hu
  · have ha := (hst.entry (.inr hu) he).2
    have hout : u ∉ s.waiters a := by
      refine ht.notMem ?_ a
      cases hp : s.pc u with
      | outside | wake => rfl
      | wait call stage =>
        rw [hp] at hu
        cases stage <;> cases hu
        rfl
    have hle := (length_le_encard (List.nodup_cons.mpr ⟨hout, ht.nodup a⟩) fun x hx => ?_).trans
      hfew
    · rw [List.length_cons] at hle
      exact_mod_cast hle
    · rcases List.mem_cons.mp hx with rfl | hx
      · exact hwait a x (.inr hu) ha
      · exact hwait a x (.inl (ht.queued a x hx)) ha

end Served

section Serving

/-- How many more tokens the wake is going to pop if it finds them. -/
def remaining (count : ℤ) : WakeStage → ℕ
  | .called | .locked => count.toNat
  | .waking _ woken | .popping _ woken => (count - woken).toNat
  | .popped _ woken true => (count - woken - 1).toNat
  | .popped _ _ false | .finished _ => 0

variable {count : ℤ}

/-- The thread is in a call of `syscall_futex_wake` that is going to reach the stale tokens. -/
def Serving (key : ℕ) (v : UInt32) (count : ℤ) (w : Thr) (s : State Thr) : Prop :=
  ∃ stage, s.pc w = .wake ⟨key, count⟩ stage ∧ Served key v (remaining count stage) s.pc s.waiters

theorem Served.pop (h : Served key v n pc waiters) (ha : waiters a = u :: rest)
    (hother : ∀ b, b ≠ a → ∀ x ∈ waiters b, ¬ Stale key v (pc x))
    (hpush : ∀ b x, pushingAt (pc x) = some b → ¬ Stale key v (pc x)) :
    Served key v (n - 1) pc (update waiters a rest) := by
  refine ⟨fun b x hx => ?_, fun b x hx hst => absurd hst (hpush b x hx)⟩
  by_cases hba : b = a
  · subst hba
    rw [update_self] at hx
    refine h.ahead b x ?_
    rw [ha]
    cases n with
    | zero => exact List.mem_cons_of_mem u hx
    | succ n => exact hx
  · rw [update_of_ne hba] at hx
    exact hother b hba x (List.mem_of_mem_drop hx)

theorem Served.zero (hq : ∀ a, ∀ u ∈ waiters a, ¬ Stale key v (pc u))
    (hp : ∀ a u, pushingAt (pc u) = some a → ¬ Stale key v (pc u)) :
    Served key v 0 pc waiters :=
  ⟨fun a u hu => hq a u hu, fun a u hu hst => absurd hst (hp a u hu)⟩

theorem alone_at_pop (hl : Locks s.pc s.treeLock s.guard) (ht : Tokens s.pc s.waiters)
    (he : Entries (roles s.pc) xs s.tree.valueOfNode s.allocated s.refcnt)
    (hpc : s.pc w = .wake ⟨key, count⟩ (.popping a woken)) :
    (∀ b, b ≠ a → ∀ x ∈ s.waiters b, ¬ Stale key v (s.pc x)) ∧
      ∀ b x, pushingAt (s.pc x) = some b → ¬ Stale key v (s.pc x) := by
  have hbel := he.belongs w
  rw [roles, hpc] at hbel
  have heq : ∀ b x, queuedAt (s.pc x) = some b ∨ pushingAt (s.pc x) = some b →
      Stale key v (s.pc x) → b = a := by
    intro b x hx hst
    obtain ⟨hb, hkey⟩ := hst.entry hx he
    exact he.distinct b hb a hbel.1 (hkey.trans hbel.2.symm)
  refine ⟨fun b hb x hx hst => hb (heq b x (.inl (ht.queued b x hx)) hst), fun b x hx hst => ?_⟩
  obtain rfl := heq b x (.inr hx) hst
  have hwg : guards (s.pc w) = some b := by rw [hpc]; rfl
  have hxg := (hl.guard x b).mp (guards_of_pushingAt hx)
  obtain rfl := Option.some.inj (hxg.symm.trans ((hl.guard w b).mp hwg))
  rw [hpc] at hx
  cases hx

theorem serving_move (hinv : Inv s) (ht : Tokens s.pc s.waiters) (hmem : s.memory key = v)
    (h : Serving key v count w s) (hm : Move s t s') :
    Serving key v count w s' ∨ s'.pc w = .outside ∧ Served key v 0 s'.pc s'.waiters := by
  obtain ⟨stage, hpc, hserved⟩ := h
  obtain ⟨xs, hst⟩ := hinv.stored
  have hkeep : ∀ {n}, Served key v n s.pc s.waiters → Served key v n s'.pc s'.waiters :=
    fun hn => served_move hinv.locks ht hst.entries hmem hn hm
  by_cases htw : w = t
  swap
  · exact .inl ⟨stage, (hm.pc_other htw).trans hpc, hkeep hserved⟩
  subst htw
  cases hm with
  | store h | callWait h | callWake h | refuse h | wait h _ =>
    rw [hpc] at h
    cases h
  | wake h hw =>
    rw [hpc] at h
    cases h
    cases hw with
    | enterTree hlock | last => exact .inl ⟨_, update_self .., hkeep hserved⟩
    | none hok =>
      refine .inl ⟨_, update_self .., hkeep ?_⟩
      refine Served.zero (fun a u hu hstale => ?_) fun a u hu hstale => ?_
      · obtain ⟨ha, hkey⟩ := hstale.entry (.inl (ht.queued a u hu)) hst.entries
        exact hst.absent hok a ha hkey
      · obtain ⟨ha, hkey⟩ := hstale.entry (.inr hu) hst.entries
        exact hst.absent hok a ha hkey
    | find _ _ =>
      refine .inl ⟨_, update_self .., hkeep ?_⟩
      simpa [remaining] using hserved
    | lock _ _ => exact .inl ⟨_, update_self .., hkeep hserved⟩
    | @enough a woken hge =>
      refine .inl ⟨_, update_self .., hkeep ?_⟩
      change ¬ (woken : ℤ) < count at hge
      have hzero : remaining count (.waking a woken) = 0 := by
        simp only [remaining]
        omega
      rw [hzero] at hserved
      exact hserved
    | @empty a woken hnil =>
      obtain ⟨hother, hpush⟩ := alone_at_pop hinv.locks ht hst.entries hpc (v := v)
      refine .inl ⟨_, update_self .., hkeep (Served.zero (fun b u hu => ?_) hpush)⟩
      by_cases hba : b = a
      · subst hba
        rw [hnil] at hu
        cases hu
      · exact hother b hba u hu
    | @pop a woken u rest hl =>
      obtain ⟨hother, hpush⟩ := alone_at_pop hinv.locks ht hst.entries hpc (v := v)
      refine .inl ⟨_, update_self .., ?_⟩
      have hpop := hserved.pop hl hother hpush
      have hrem : remaining count (.popping a woken) - 1 =
          remaining count (.popped a woken true) := by
        simp only [remaining]
        omega
      rw [hrem] at hpop
      exact hpop.goto (by simp [Stale]) (by simp [pushingAt])
    | @next a woken =>
      refine .inl ⟨_, update_self .., hkeep ?_⟩
      have hrem : remaining count (.popped a woken true) =
          remaining count (.waking a (woken + 1)) := by
        simp only [remaining]
        omega
      rw [← hrem]
      exact hserved
    | back => exact .inr ⟨update_self .., hkeep hserved⟩

end Serving

section Refused

/-- A wait on the key for a value other than `v` that has yet to compare, or has compared and
is going to return `SYSRET_EAGAIN`. -/
def Refused (key : ℕ) (v : UInt32) : Pc → Prop
  | .wait call stage => call.key = key ∧ call.expected ≠ v ∧
    match stage with
    | .pushing _ | .pushed _ | .blocked _ | .cleaning _ => False
    | .releasing _ status | .leaving _ status | .dropping _ status | .removing _ status
    | .freeing _ status | .dropped status => status = .conditionMet
    | _ => True
  | _ => False

/-- The number of its own steps after which a wait that does not block has returned. -/
def stepsLeft : Pc → ℕ
  | .wait _ .called => 12
  | .wait _ .locked => 11
  | .wait _ (.found _) => 10
  | .wait _ (.counted _) => 9
  | .wait _ (.entered _) => 8
  | .wait _ (.checking _) => 7
  | .wait _ (.releasing _ _) => 6
  | .wait _ (.leaving _ _) => 5
  | .wait _ (.dropping _ _) => 4
  | .wait _ (.removing _ _) => 3
  | .wait _ (.freeing _ _) => 2
  | .wait _ (.dropped _) => 1
  | _ => 0

/-- A step of the wait itself leads on towards its return. -/
theorem refused_move (hinv : Inv s) (hmem : s.memory key = v) (h : Refused key v (s.pc t))
    (hm : Move s t s') :
    Refused key v (s'.pc t) ∧ stepsLeft (s'.pc t) < stepsLeft (s.pc t) ∨
      s'.pc t = .outside ∧ s'.log.head? = some (.returned t sysretEagain) := by
  obtain ⟨xs, hst⟩ := hinv.stored
  cases hm with
  | store hpc | callWait hpc | callWake hpc | refuse hpc | wake hpc _ =>
    rw [hpc] at h
    cases h
  | @wait call stage s' hpc hw =>
    rw [hpc] at h ⊢
    obtain ⟨hkey, hexp, hstage⟩ := h
    have hon : ∀ p : Pc, Refused key v p → stepsLeft p < stepsLeft (.wait call stage) →
        Refused key v (update s.pc t p t) ∧
          stepsLeft (update s.pc t p t) < stepsLeft (.wait call stage) := by
      intro p hp hlt
      rw [update_self]
      exact ⟨hp, hlt⟩
    cases hw with
    | @unmet a hval =>
      have hbel := hst.entries.belongs t
      rw [roles, hpc] at hbel
      have hva : s.tree.valueOfNode a = call.key := hbel.2
      rw [hva, hkey, hmem] at hval
      exact absurd hval.symm hexp
    | push | sleep | resume | delete | gone => cases hstage
    | back =>
      refine .inr ⟨update_self .., ?_⟩
      rw [show _ = SchedState.WaitStatus.conditionMet from hstage]
      rfl
    | met _ => exact .inl (hon _ ⟨hkey, hexp, rfl⟩ (by simp [stepsLeft]))
    | unlock | reenterTree _ | drop _ | dropLast _ | remove _ | free =>
      exact .inl (hon _ ⟨hkey, hexp, hstage⟩ (by simp [stepsLeft]))
    | _ => exact .inl (hon _ ⟨hkey, hexp, trivial⟩ (by simp [stepsLeft]))

theorem exists_fresh (l : List ℕ) : ∃ a, a ≠ 0 ∧ a % 2 = 0 ∧ a ∉ l := by
  obtain ⟨m, hm⟩ := Infinite.exists_notMem_finset (0 :: l.map (· / 2)).toFinset
  rw [List.mem_toFinset, List.mem_cons, not_or] at hm
  refine ⟨2 * m, by omega, by omega, fun hin => hm.2 ?_⟩
  exact List.mem_map.mpr ⟨2 * m, hin, by omega⟩

theorem refused_goes (pageSize : ℕ) (hinv : Inv s) (h : Refused key v (s.pc t)) :
    (∃ choice s', step s t pageSize choice = some s') ∨
      (∃ u, u ≠ t ∧ s.treeLock = some u) ∨ ∃ a u, u ≠ t ∧ s.guard a = some u := by
  obtain ⟨xs, hst⟩ := hinv.stored
  have hbel := hst.entries.belongs t
  have htree := hinv.locks.tree t
  have hguard := hinv.locks.guard t
  rw [roles] at hbel
  cases hpc : s.pc t with
  | outside | wake =>
    rw [hpc] at h
    cases h
  | wait call stage =>
    rw [hpc] at h hbel htree hguard
    have hstep : ∀ choice, step s t pageSize choice = waitStep s t call choice stage := by
      intro choice
      rw [step, hpc]
    simp only [hstep]
    have hlock : inTree (.wait call stage) = false → ∀ p,
        (∃ s', lockTree s t p = some s') ∨ ∃ u, u ≠ t ∧ s.treeLock = some u := by
      intro hout p
      cases hl : s.treeLock with
      | none => exact .inl ⟨_, if_pos hl⟩
      | some u =>
        refine .inr ⟨u, ?_, rfl⟩
        rintro rfl
        rw [hout, hl] at htree
        simp at htree
    cases stage with
    | called =>
      rcases hlock rfl (.wait call .locked) with ⟨s', hs'⟩ | hheld
      · exact .inl ⟨.go, s', hs'⟩
      · exact .inr (.inl hheld)
    | leaving a status =>
      rcases hlock rfl (.wait call (.dropping a status)) with ⟨s', hs'⟩ | hheld
      · exact .inl ⟨.go, s', hs'⟩
      · exact .inr (.inl hheld)
    | locked =>
      left
      obtain ⟨r, hok, hexact⟩ := rbtreeSearchExact_spec hst.holds hst.sorted call.key
        hst.entries.length_le
      simp only [waitStep, hok]
      cases r with
      | succ r => exact ⟨.go, _, rfl⟩
      | zero =>
        obtain ⟨a, ha0, heven, hfresh⟩ := exists_fresh s.allocated
        have hout : a ∉ xs := fun hin => hfresh (hst.entries.listed a hin)
        obtain ⟨tree, hins, -⟩ := rbtreeInsert_spec
          (holds_outside hst.holds hout ⟨0, 0, 0⟩ call.key)
          (sorted_outside hst.sorted hout call.key) hout ha0 heven hst.entries.length_le
        exact ⟨.kmalloc a, _, by simp only [createEntry, hins, ha0, heven, hfresh, ne_eq,
          not_false_eq_true, and_self, if_true]; rfl⟩
    | entered a =>
      cases hg : s.guard a with
      | none => exact .inl ⟨.go, _, if_pos hg⟩
      | some u =>
        refine .inr (.inr ⟨a, u, ?_, hg⟩)
        rintro rfl
        have := (hguard a).mpr hg
        cases this
    | checking a =>
      left
      by_cases hval : s.memory (s.tree.valueOfNode a) = call.expected
      · exact ⟨.go, _, by simp only [waitStep, hval, ne_eq, not_true_eq_false, if_false]; rfl⟩
      · exact ⟨.go, _, by simp only [waitStep, hval, ne_eq, not_false_eq_true, if_true]; rfl⟩
    | removing a status =>
      left
      obtain ⟨y, tree, hok, -⟩ := rbtreeRemove_spec hst.holds hbel.1 hst.entries.length_le
      exact ⟨.go, _, by simp only [waitStep, removeEntry, hok]; rfl⟩
    | pushing | pushed | blocked | cleaning => cases h.2.2
    | _ => exact .inl ⟨.go, _, rfl⟩

end Refused

section Sound

variable {pageSize : ℕ} {count : ℤ} {s₀ : State Thr} {ok : State Thr → State Thr → Prop}

/-- No more waits on a key are in progress than `count`, or than `refcnt` can count. -/
def Few (count : ℤ) (s : State Thr) : Prop :=
  ∀ key, (waiting s.pc key).encard ≤ max count.toNat (2 ^ 32 - 1)

def Quiet (key : ℕ) (count : ℤ) (s s' : State Thr) : Prop :=
  s'.memory key = s.memory key ∧ Few count s'

structure Sound (count : ℤ) (s : State Thr) : Prop where
  inv : Inv s
  tokens : Tokens s.pc s.waiters
  few : Few count s

theorem few_fits (hcount : count < 2 ^ 31) (h : Few count s) : Fits s := by
  intro key
  have hlt : max count.toNat (2 ^ 32 - 1) < 2 ^ 32 := by omega
  exact (h key).trans_lt (by exact_mod_cast hlt)

theorem sound_move (hcount : count < 2 ^ 31) (h : Sound count s) (hf : Few count s')
    (hm : Move s t s') : Sound count s' :=
  ⟨inv_move h.inv (few_fits hcount hf) hm, tokens_move h.tokens hm, hf⟩

theorem sound_initial (h : Initial s) : Sound count s := by
  refine ⟨inv_initial h, tokens_initial h, fun key => ?_⟩
  have hnone : waiting s.pc key = ∅ := by
    refine Set.eq_empty_iff_forall_notMem.mpr fun t ⟨a, ht⟩ => ?_
    rw [h.pc t] at ht
    cases ht
  rw [hnone, Set.encard_empty]
  exact zero_le

theorem sound_run (hcount : count < 2 ^ 31) (h₀ : Sound count s₀)
    (hok : ∀ u u', ok u u' → Few count u') (h : Run pageSize ok s₀ s) : Sound count s :=
  h.invariant h₀ fun _ _ _ hs hstep hm => sound_move hcount hs (hok _ _ hstep) hm

theorem few_goto (h : Few count s) (hs : ∀ a k, roleOf (s.pc t) ≠ .counted a k)
    (hp : ∀ a k, roleOf p ≠ .counted a k) (key : ℕ) :
    (waiting (update s.pc t p) key).encard ≤ max count.toNat (2 ^ 32 - 1) := by
  have hsame : waiting (update s.pc t p) key = waiting s.pc key := by
    ext u
    by_cases hut : u = t
    · subst hut
      simp [waiting, hs, hp]
    · simp [waiting, hut]
  rw [hsame]
  exact h key

theorem few_of_not_wait (h : Few count s) (hs : ∀ call stage, s.pc t ≠ .wait call stage)
    (hm : Move s t s') : Few count s' := by
  have hrole : ∀ p a k, (∀ call stage, p ≠ .wait call stage) → roleOf p ≠ .counted a k := by
    intro p a k hp
    cases p with
    | outside => simp [roleOf]
    | wait call stage => exact absurd rfl (hp call stage)
    | wake call stage => cases stage <;> simp [roleOf]
  have hout : ∀ a k, roleOf (s.pc t) ≠ .counted a k := fun a k => hrole _ a k hs
  cases hm with
  | store _ | refuse _ => exact h
  | callWait _ | callWake _ => exact few_goto h hout (by simp [roleOf])
  | wait hpc _ => exact absurd hpc (hs _ _)
  | wake _ hw => cases hw <;> exact few_goto h hout fun a k => hrole _ a k (by simp)

end Sound

section Calls

variable {pageSize : ℕ} {count : ℤ} {expected : UInt32}

def Stores (pageSize : ℕ) (w : Thr) (key : ℕ) (v : UInt32) (s s' : State Thr) : Prop :=
  s.pc w = .outside ∧ step s w pageSize (.store key v) = some s'

/-- The call `syscall_futex_wake(p, count)`, where `p` is mapped to the key and `count` is at
least the number of waits on it. -/
def CallsWake (pageSize : ℕ) (w : Thr) (key : ℕ) (count : ℤ) (s s' : State Thr) : Prop :=
  s.pc w = .outside ∧ (waiting s.pc key).encard ≤ count.toNat ∧ ∃ uptr paddr, uptr % 4 = 0 ∧
    futexKey pageSize uptr paddr = key ∧ step s w pageSize (.wake uptr count true paddr) = some s'

/-- The call `syscall_futex_wait(p, expected, timeout)`, where `p` is mapped to the key. -/
def CallsWait (pageSize : ℕ) (t : Thr) (key : ℕ) (expected : UInt32) (s s' : State Thr) : Prop :=
  s.pc t = .outside ∧ ∃ uptr timeout paddr, uptr % 4 = 0 ∧ futexKey pageSize uptr paddr = key ∧
    step s t pageSize (.wait uptr expected timeout true paddr) = some s'

def Returns (pageSize : ℕ) (t : Thr) (s s' : State Thr) : Prop :=
  s.pc t ≠ .outside ∧ s'.pc t = .outside ∧ ∃ choice, step s t pageSize choice = some s'

/-- The runs in which the thread `t` takes `n` steps of its own and stays in its call. -/
inductive InCall (pageSize : ℕ) (ok : State Thr → State Thr → Prop) (t : Thr) (s₀ : State Thr) :
    ℕ → State Thr → Prop where
  | refl : InCall pageSize ok t s₀ 0 s₀
  | own {n u choice u'} : InCall pageSize ok t s₀ n u → ok u u' → u'.pc t ≠ .outside →
      step u t pageSize choice = some u' → InCall pageSize ok t s₀ (n + 1) u'
  | other {n u t' choice u'} : t' ≠ t → InCall pageSize ok t s₀ n u → ok u u' →
      step u t' pageSize choice = some u' → InCall pageSize ok t s₀ n u'

/-- A wake that is called after the store, for as many threads as there are waits, leaves no
stale token behind. -/
theorem served_of_return (hcount : count < 2 ^ 31) (h : Sound count s₂) (hmem : s₂.memory key = v)
    (hcall : CallsWake pageSize w key count s₂ s₃)
    (h₂ : Run pageSize (fun s s' => Quiet key count s s' ∧ s'.pc w ≠ .outside) s₃ s₄)
    (hret : Returns pageSize w s₄ s₅) :
    Sound count s₅ ∧ s₅.memory key = v ∧ Served key v 0 s₅.pc s₅.waiters := by
  obtain ⟨hout, hcovers, uptr, paddr, halign, hkey, hstep⟩ := hcall
  have hm := step_move hstep
  have hs₃ : s₂.goto w (.wake ⟨key, count⟩ .called) = s₃ := by
    simpa [step, hout, outsideStep, accepts, halign, hkey] using hstep
  have hsound := sound_move hcount h (few_of_not_wait h.few (by simp [hout]) hm) hm
  have hserving : Serving key v count w s₃ := by
    obtain ⟨xs, hst⟩ := h.inv.stored
    refine ⟨.called, by rw [← hs₃]; exact update_self .., ?_⟩
    exact served_move h.inv.locks h.tokens hst.entries hmem
      (served_of_few h.tokens hst.entries hcovers) hm
  have hmem₃ : s₃.memory key = v := by rw [← hs₃]; exact hmem
  have hphase : Sound count s₄ ∧ s₄.memory key = v ∧ Serving key v count w s₄ := by
    refine Run.invariant (P := fun s => Sound count s ∧ s.memory key = v ∧ Serving key v count w s)
      ⟨hsound, hmem₃, hserving⟩ (fun s t s' hs hok hm => ?_) h₂
    refine ⟨sound_move hcount hs.1 hok.1.2 hm, hok.1.1.trans hs.2.1, ?_⟩
    exact (serving_move hs.1.inv hs.1.tokens hs.2.1 hs.2.2 hm).resolve_right fun hend =>
      hok.2 hend.1
  obtain ⟨hsound₄, hmem₄, hserving₄⟩ := hphase
  obtain ⟨hin, hout₅, choice, hstep₅⟩ := hret
  have hm₅ := step_move hstep₅
  have hpc : ∃ stage, s₄.pc w = .wake ⟨key, count⟩ stage := ⟨_, hserving₄.choose_spec.1⟩
  have hfew : Few count s₅ := by
    obtain ⟨stage, hpc⟩ := hpc
    exact few_of_not_wait hsound₄.few (by simp [hpc]) hm₅
  refine ⟨sound_move hcount hsound₄ hfew hm₅, by rw [hm₅.memory_eq hin, hmem₄], ?_⟩
  rcases serving_move hsound₄.inv hsound₄.tokens hmem₄ hserving₄ hm₅ with ⟨stage, hpc₅, -⟩ | hend
  · rw [hout₅] at hpc₅
    cases hpc₅
  · exact hend.2

/-- A wait for another value than the one in memory takes less than twelve steps of its own
before it returns, and none of them blocks. -/
theorem refused_in_call (hcount : count < 2 ^ 31) (h : Sound count s₆) (hmem : s₆.memory key = v)
    (hcall : CallsWait pageSize t key expected s₆ s₇) (hexp : expected ≠ v)
    (hrun : InCall pageSize (Quiet key count) t s₇ n s₈) :
    Sound count s₈ ∧ s₈.memory key = v ∧ Refused key v (s₈.pc t) ∧
      n + stepsLeft (s₈.pc t) ≤ 12 := by
  induction hrun with
  | refl =>
    obtain ⟨hout, uptr, timeout, paddr, halign, hkey, hstep⟩ := hcall
    have hm := step_move hstep
    have hs₇ : s₆.goto t (.wait ⟨key, expected, timeout⟩ .called) = s₇ := by
      simpa [step, hout, outsideStep, accepts, halign, hkey] using hstep
    have hpc : s₇.pc t = .wait ⟨key, expected, timeout⟩ .called := by
      rw [← hs₇]
      exact update_self ..
    refine ⟨sound_move hcount h (few_of_not_wait h.few (by simp [hout]) hm) hm, ?_, ?_, ?_⟩
    · rw [← hs₇]
      exact hmem
    · rw [hpc]
      exact ⟨rfl, hexp, trivial⟩
    · rw [hpc]
      rfl
  | @own n u choice u' _ hok hin hstep ih =>
    obtain ⟨hsound, hmem', href, hle⟩ := ih
    have hm := step_move hstep
    refine ⟨sound_move hcount hsound hok.2 hm, hok.1.trans hmem', ?_⟩
    rcases refused_move hsound.inv hmem' href hm with ⟨href', hlt⟩ | ⟨hout, -⟩
    · exact ⟨href', by omega⟩
    · exact absurd hout hin
  | @other n u t' choice u' ht _ hok hstep ih =>
    obtain ⟨hsound, hmem', href, hle⟩ := ih
    have hm := step_move hstep
    rw [hm.pc_other (Ne.symm ht)]
    exact ⟨sound_move hcount hsound hok.2 hm, hok.1.trans hmem', href, hle⟩

/-- A thread stores a new value to the word and then wakes at least as many threads as wait.
When the wake returns, no token of a wait for another value is on a list, and every such wait
that starts later returns `SYSRET_EAGAIN` without blocking. -/
theorem futex_wake_not_lost (hcount : count < 2 ^ 31) {s₀ s₁ s₂ s₃ s₄ s₅ : State Thr}
    (h₀ : Reachable pageSize (fun _ s' => Few count s') s₀) (hstore : Stores pageSize w key v s₀ s₁)
    (h₁ : Run pageSize (Quiet key count) s₁ s₂) (hcall : CallsWake pageSize w key count s₂ s₃)
    (h₂ : Run pageSize (fun s s' => Quiet key count s s' ∧ s'.pc w ≠ .outside) s₃ s₄)
    (hret : Returns pageSize w s₄ s₅) :
    (∀ a, ∀ u ∈ s₅.waiters a, ¬ Stale key v (s₅.pc u)) ∧
    ∀ s₆ s₇ s₈ t expected n, Run pageSize (Quiet key count) s₅ s₆ →
      CallsWait pageSize t key expected s₆ s₇ → expected ≠ v →
      InCall pageSize (Quiet key count) t s₇ n s₈ →
      n < 12 ∧ queuedAt (s₈.pc t) = none ∧
      ((∃ choice s₉, step s₈ t pageSize choice = some s₉) ∨
        (∃ u, u ≠ t ∧ s₈.treeLock = some u) ∨ ∃ a u, u ≠ t ∧ s₈.guard a = some u) ∧
      ∀ s₉, Returns pageSize t s₈ s₉ → s₉.log.head? = some (.returned t sysretEagain) := by
  obtain ⟨si, hi, hr⟩ := h₀
  have hsound₀ : Sound count s₀ := sound_run hcount (sound_initial hi) (fun _ _ hf => hf) hr
  obtain ⟨hout, hstep⟩ := hstore
  have hs₁ : { s₀ with memory := update s₀.memory key v } = s₁ := by
    simpa [step, hout, outsideStep] using hstep
  have hm := step_move hstep
  have hsound₁ := sound_move hcount hsound₀ (few_of_not_wait hsound₀.few (by simp [hout]) hm) hm
  have hmem₁ : s₁.memory key = v := by
    rw [← hs₁]
    exact update_self ..
  have hquiet : ∀ {u u' : State Thr}, u.memory key = v → Run pageSize (Quiet key count) u u' →
      u'.memory key = v := fun hu hrun =>
    Run.invariant (P := fun s => s.memory key = v) hu (fun _ _ _ hs hok _ => hok.1.trans hs) hrun
  have hsound₂ := sound_run hcount hsound₁ (fun _ _ hq => hq.2) h₁
  obtain ⟨hsound₅, hmem₅, hserved⟩ := served_of_return hcount hsound₂
    (hquiet hmem₁ h₁) hcall h₂ hret
  refine ⟨fun a u hu => hserved.ahead a u hu, fun s₆ s₇ s₈ t expected n h₃ hwait hexp hin => ?_⟩
  have hsound₆ := sound_run hcount hsound₅ (fun _ _ hq => hq.2) h₃
  obtain ⟨hsound₈, hmem₈, href, hle⟩ := refused_in_call hcount hsound₆
    (hquiet hmem₅ h₃) hwait hexp hin
  have hpos : 0 < stepsLeft (s₈.pc t) ∧ queuedAt (s₈.pc t) = none := by
    cases hpc : s₈.pc t with
    | outside | wake =>
      rw [hpc] at href
      cases href
    | wait call stage =>
      rw [hpc] at href
      cases stage <;> first | exact False.elim href.2.2 | exact ⟨by simp [stepsLeft], rfl⟩
  refine ⟨by omega, hpos.2, refused_goes pageSize hsound₈.inv href, fun s₉ hret => ?_⟩
  obtain ⟨-, hout₉, choice, hstep₉⟩ := hret
  rcases refused_move hsound₈.inv hmem₈ href (step_move hstep₉) with ⟨href₉, -⟩ | hend
  · rw [hout₉] at href₉
    cases href₉
  · exact hend.2

end Calls

def sleeper : State (Fin 2) :=
  after 4096 [(0, .wait 0 0 0 true 4096), (0, .go), (0, .kmalloc 2), (0, .go), (0, .go), (0, .go),
    (0, .go), (0, .go), (0, .go)] (boot (Fin 2))

def changed : State (Fin 2) := after 4096 [(1, .store 4096 1)] sleeper

def waker : State (Fin 2) := after 4096 [(1, .wake 0 2 true 4096)] changed

def popped : State (Fin 2) := after 4096 (List.replicate 8 (1, .go)) waker

def woken : State (Fin 2) := after 4096 [(1, .go)] popped

theorem few_of_two (s : State (Fin 2)) : Few 2 s := fun _ =>
  (encard_le_two _).trans (by exact_mod_cast (by decide : 2 ≤ max (2 : ℤ).toNat (2 ^ 32 - 1)))

def keeps (s s' : State (Fin 2)) : Bool :=
  s'.memory 4096 = s.memory 4096 ∧ s'.pc 1 ≠ .outside

theorem step_of_run {l : Fin 2} {s s' : State (Fin 2)} (h : run 4096 [(l, choice)] s = some s') :
    step s l 4096 choice = some s' := by
  obtain ⟨u, hu, hr⟩ := Option.bind_eq_some_iff.mp h
  cases hr
  exact hu

theorem sleeper_woken :
    0 ∈ sleeper.waiters 2 ∧ Stale 4096 1 (sleeper.pc 0) ∧ 0 ∉ woken.waiters 2 := by
  have hreach : Reachable 4096 (fun _ s' => Few 2 s') sleeper :=
    ⟨_, boot_initial (Fin 2), run_all (fun _ s' => few_of_two s') (run_after (by decide +kernel))⟩
  have hstore : Stores 4096 1 4096 1 sleeper changed :=
    ⟨by decide +kernel, step_of_run (run_after (by decide +kernel))⟩
  have hcall : CallsWake 4096 1 4096 2 changed waker :=
    ⟨by decide +kernel, encard_le_two _, 0, 4096, rfl, rfl,
      step_of_run (run_after (by decide +kernel))⟩
  have hquiet : ∀ s s' : State (Fin 2), keeps s s' = true →
      Quiet 4096 2 s s' ∧ s'.pc 1 ≠ .outside := fun _ s' h =>
    ⟨⟨(of_decide_eq_true h).1, few_of_two s'⟩, (of_decide_eq_true h).2⟩
  have hrun : Run 4096 (fun s s' => Quiet 4096 2 s s' ∧ s'.pc 1 ≠ .outside) waker popped :=
    run_of_checks hquiet (by decide +kernel) (run_after (by decide +kernel))
  have hret : Returns 4096 1 popped woken :=
    ⟨by decide +kernel, by decide +kernel, .go, step_of_run (run_after (by decide +kernel))⟩
  have hpc : sleeper.pc 0 = .wait ⟨4096, 0, 0⟩ (.blocked 2) := by decide +kernel
  have hpc' : woken.pc 0 = .wait ⟨4096, 0, 0⟩ (.blocked 2) := by decide +kernel
  refine ⟨by decide +kernel, by rw [hpc]; exact ⟨rfl, by decide⟩, fun hin => ?_⟩
  have hnot := (futex_wake_not_lost (by decide) hreach hstore .refl hcall hrun hret).1 2 0 hin
  exact hnot ⟨rfl, by decide⟩

end SyscallsFutexWakes
