import Mathlib.Data.Set.Card
import EvalynKernel.SyscallsFutexMoves

/-! # The life of a futex entry

A thread's part in the life of an entry is its role. The tree holds the entries that a wait
is adding, counts or is removing, and `refcnt` is the number of waits that count. -/
namespace SyscallsFutexEntries

set_option linter.unusedSectionVars false

open Function DstructRbtree DstructRbtreeRuns DstructRbtreeInsert DstructRbtreeSearch SyscallsFutex
open SyscallsFutexMoves

/-- What a thread does with an entry. A wait counts from its increment of `refcnt` to its
decrement. -/
inductive Role where
  | none
  | adding (entry key : ℕ) | counted (entry key : ℕ) | removing (entry key : ℕ)
  | freeing (entry : ℕ)
  | waking (entry key : ℕ)
  deriving DecidableEq, Repr

def Role.entry : Role → Option ℕ
  | .adding a _ | .counted a _ | .removing a _ | .freeing a | .waking a _ => some a
  | .none => .none

def Role.locked : Role → Bool
  | .adding _ _ | .removing _ _ | .freeing _ | .waking _ _ => true
  | _ => false

/-- The role is that of a thread with an entry of the tree, or of one no longer there. -/
def Belongs (xs : List ℕ) (value : ℕ → ℕ) (allocated : List ℕ) (refcnt : ℕ → ℕ) : Role → Prop
  | .none => True
  | .adding a k | .counted a k | .waking a k => a ∈ xs ∧ value a = k
  | .removing a k => a ∈ xs ∧ value a = k ∧ refcnt a = 0
  | .freeing a => a ∉ xs ∧ a ∈ allocated

section Entries

variable {Thr : Type} [DecidableEq Thr] {role : Thr → Role} {t : Thr} {xs xs' : List ℕ}
  {value : ℕ → ℕ} {allocated : List ℕ} {refcnt : ℕ → ℕ} {a k n : ℕ} {r : Role}

/-- The waits between their increment and their decrement of the entry's `refcnt`. -/
def holders (role : Thr → Role) (a : ℕ) : Set Thr := {t | ∃ k, role t = .counted a k}

/-- The wait has the entry while nobody counts. -/
def Tends (a : ℕ) (r : Role) : Prop := ∃ k, r = .adding a k ∨ r = .removing a k

structure Entries (role : Thr → Role) (xs : List ℕ) (value : ℕ → ℕ) (allocated : List ℕ)
    (refcnt : ℕ → ℕ) : Prop where
  nodup : xs.Nodup
  distinct : ∀ a ∈ xs, ∀ b ∈ xs, value a = value b → a = b
  allocated_nodup : allocated.Nodup
  listed : ∀ a ∈ xs, a ∈ allocated
  live : ∀ a ∈ allocated, a ∈ xs ∨ ∃ t, role t = .freeing a
  belongs : ∀ t, Belongs xs value allocated refcnt (role t)
  count : ∀ a ∈ xs, (holders role a).encard = refcnt a
  tended : ∀ a ∈ xs, refcnt a = 0 → ∃ t, Tends a (role t)

theorem Role.of_unlocked (h : r.locked = false) : r = .none ∨ ∃ a k, r = .counted a k := by
  cases r with
  | none => exact .inl rfl
  | counted a k => exact .inr ⟨a, k, rfl⟩
  | adding | removing | freeing | waking => cases h

theorem holders_add (a k : ℕ) :
    holders (update role t (.counted a k)) a = insert t (holders role a) := by
  ext u
  by_cases hu : u = t
  · subst hu
    simp [holders]
  · simp [holders, hu]

theorem holders_drop (hr : ∀ b k, r ≠ .counted b k) (a : ℕ) :
    holders (update role t r) a = holders role a \ {t} := by
  ext u
  by_cases hu : u = t
  · subst hu
    simp [holders, hr]
  · simp [holders, hu]

theorem holders_other (hr : ∀ k, r ≠ .counted a k) (ht : ∀ k, role t ≠ .counted a k) :
    holders (update role t r) a = holders role a := by
  ext u
  by_cases hu : u = t
  · subst hu
    simp [holders, hr, ht]
  · simp [holders, hu]

theorem forall_update {P : Role → Prop} (ht : P r) (hu : ∀ u, u ≠ t → P (role u)) (u : Thr) :
    P (update role t r u) := by
  by_cases hut : u = t
  · subst hut
    rwa [update_self]
  · rw [update_of_ne hut]
    exact hu u hut

theorem exists_update {P : Role → Prop} (ht : P (role t) → P r) (h : ∃ u, P (role u)) :
    ∃ u, P (update role t r u) := by
  obtain ⟨u, hu⟩ := h
  refine ⟨u, ?_⟩
  by_cases hut : u = t
  · subst hut
    rw [update_self]
    exact ht hu
  · rwa [update_of_ne hut]

namespace Entries

section

variable (h : Entries role xs value allocated refcnt)
include h

theorem entry_allocated (ht : (role t).entry = some a) : a ∈ allocated := by
  have hbel := h.belongs t
  cases hr : role t with
  | none =>
    rw [hr] at ht
    cases ht
  | adding b c | counted b c | removing b c | waking b c =>
    rw [hr] at ht hbel
    cases ht
    exact h.listed _ hbel.1
  | freeing b =>
    rw [hr] at ht hbel
    cases ht
    exact hbel.2

theorem length_le : xs.length ≤ allocated.length :=
  (h.nodup.subperm h.listed).length_le

theorem look (ht : role t = .none ∨ ∃ b k, role t = .waking b k)
    (hr : r = .none ∨ (∃ b k, r = .waking b k) ∨ ∃ b k, r = .adding b k)
    (hb : Belongs xs value allocated refcnt r) :
    Entries (update role t r) xs value allocated refcnt := by
  have hno : ∀ b k, role t ≠ .counted b k := by
    rcases ht with ht | ⟨b, k, ht⟩ <;> simp [ht]
  have hno' : ∀ b k, r ≠ .counted b k := by
    rcases hr with rfl | ⟨b, k, rfl⟩ | ⟨b, k, rfl⟩ <;> simp
  refine ⟨h.nodup, h.distinct, h.allocated_nodup, h.listed, fun b hb => ?_,
    forall_update hb fun u _ => h.belongs u, fun b hb => ?_, fun b hb hz => ?_⟩
  · refine (h.live b hb).imp_right (exists_update (P := (· = .freeing b)) ?_)
    rcases ht with ht | ⟨c, k, ht⟩ <;> simp [ht]
  · rw [holders_other (hno' b) (hno b)]
    exact h.count b hb
  · refine exists_update (fun htends => ?_) (h.tended b hb hz)
    rcases ht with ht | ⟨c, k, ht⟩ <;> simp [ht, Tends] at htends

theorem create (ht : role t = .none) (ha : a ∉ allocated) (hk : ∀ b ∈ xs, value b ≠ k)
    (hxs : xs'.Perm (a :: xs)) :
    Entries (update role t (.adding a k)) xs' (update value a k) (a :: allocated)
      (update refcnt a 0) := by
  have hmem : ∀ b, b ∈ xs' ↔ b = a ∨ b ∈ xs := fun b => by rw [hxs.mem_iff, List.mem_cons]
  have hne : ∀ b ∈ xs, b ≠ a := fun b hb he => ha (he ▸ h.listed b hb)
  have hno : ∀ u k, role u ≠ .counted a k := by
    intro u k hu
    have hbel := h.belongs u
    rw [hu] at hbel
    exact hne a hbel.1 rfl
  refine ⟨hxs.nodup_iff.mpr (List.nodup_cons.mpr ⟨fun hin => hne a hin rfl, h.nodup⟩), ?_,
    List.nodup_cons.mpr ⟨ha, h.allocated_nodup⟩, ?_, ?_, ?_, ?_, ?_⟩
  · intro b hb c hc he
    rcases (hmem b).mp hb with rfl | hb <;> rcases (hmem c).mp hc with rfl | hc
    · rfl
    · rw [update_self, update_of_ne (hne c hc)] at he
      exact absurd he.symm (hk c hc)
    · rw [update_self, update_of_ne (hne b hb)] at he
      exact absurd he (hk b hb)
    · rw [update_of_ne (hne b hb), update_of_ne (hne c hc)] at he
      exact h.distinct b hb c hc he
  · intro b hb
    rcases (hmem b).mp hb with rfl | hb
    · exact List.mem_cons_self
    · exact List.mem_cons_of_mem _ (h.listed b hb)
  · intro b hb
    rw [hmem]
    rcases List.mem_cons.mp hb with rfl | hb
    · exact .inl (.inl rfl)
    · refine (h.live b hb).imp .inr (exists_update (P := (· = .freeing b)) ?_)
      simp [ht]
  · refine forall_update ⟨(hmem a).mpr (.inl rfl), update_self ..⟩ fun u _ => ?_
    have hbel := h.belongs u
    cases hu : role u with
    | none => trivial
    | adding b c | counted b c | waking b c =>
      rw [hu] at hbel
      exact ⟨(hmem b).mpr (.inr hbel.1), by rw [update_of_ne (hne b hbel.1)]; exact hbel.2⟩
    | removing b c =>
      rw [hu] at hbel
      refine ⟨(hmem b).mpr (.inr hbel.1), ?_⟩
      rw [update_of_ne (hne b hbel.1), update_of_ne (hne b hbel.1)]
      exact hbel.2
    | freeing b =>
      rw [hu] at hbel
      refine ⟨fun hb => ?_, List.mem_cons_of_mem _ hbel.2⟩
      rcases (hmem b).mp hb with rfl | hb
      · exact ha hbel.2
      · exact hbel.1 hb
  · intro b hb
    rcases (hmem b).mp hb with rfl | hb
    · rw [holders_other (by simp) (hno t), update_self]
      have hnone : holders role b = ∅ := Set.eq_empty_iff_forall_notMem.mpr fun u ⟨k, hu⟩ =>
        hno u k hu
      rw [hnone, Set.encard_empty]
      rfl
    · rw [holders_other (by simp) (by simp [ht]), update_of_ne (hne b hb)]
      exact h.count b hb
  · intro b hb hz
    rcases (hmem b).mp hb with rfl | hb
    · exact ⟨t, k, .inl (update_self ..)⟩
    · rw [update_of_ne (hne b hb)] at hz
      exact exists_update (by simp [ht, Tends]) (h.tended b hb hz)

theorem count_others (hr : ∀ b k, b ≠ a → r ≠ .counted b k)
    (ht : ∀ b k, b ≠ a → role t ≠ .counted b k) (hb : b ∈ xs) (hba : b ≠ a) :
    (holders (update role t r) b).encard = update refcnt a n b := by
  rw [holders_other (fun k => hr b k hba) fun k => ht b k hba, update_of_ne hba]
  exact h.count b hb

end

theorem belongs_setCount (hb : Belongs xs value allocated refcnt r)
    (hr : ∀ k, r ≠ .removing a k) :
    Belongs xs value allocated (update refcnt a n) r := by
  cases r with
  | removing b c =>
    obtain ⟨hm, hv, hz⟩ := hb
    have hba : b ≠ a := by
      rintro rfl
      exact hr c rfl
    exact ⟨hm, hv, by rwa [update_of_ne hba]⟩
  | _ => exact hb

section

variable (h : Entries role xs value allocated refcnt)
include h

theorem increment (ht : role t = .adding a k) (halone : ∀ u, u ≠ t → (role u).locked = false) :
    Entries (update role t (.counted a k)) xs value allocated
      (update refcnt a (refcnt a + 1)) := by
  have hbel := h.belongs t
  rw [ht] at hbel
  refine ⟨h.nodup, h.distinct, h.allocated_nodup, h.listed, fun b hb => ?_,
    forall_update hbel fun u hu => belongs_setCount (h.belongs u) fun c hc => ?_,
    fun b hb => ?_, fun b hb hz => ?_⟩
  · exact (h.live b hb).imp_right (exists_update (P := (· = .freeing b)) (by simp [ht]))
  · have := halone u hu
    rw [hc] at this
    cases this
  · by_cases hba : b = a
    · subst hba
      have hout : t ∉ holders role b := by simp [holders, ht]
      rw [holders_add, Set.encard_insert_of_notMem hout, h.count b hb, update_self,
        Nat.cast_add, Nat.cast_one]
    · exact h.count_others (by simp +contextual [eq_comm]) (by simp [ht]) hb hba
  · replace hz := SchedState.update_eq hz
    rcases hz with ⟨rfl, hz⟩ | ⟨hba, hz⟩
    · cases hz
    · exact exists_update (by simp [ht, Tends, Ne.symm hba]) (h.tended b hb hz)

theorem count_drop (ht : role t = .counted a k) (hr : ∀ b k, r ≠ .counted b k)
    (ha : refcnt a = n + 1) :
    (holders (update role t r) a).encard = n := by
  have hbel := h.belongs t
  rw [ht] at hbel
  have hin : t ∈ holders role a := ⟨k, ht⟩
  have hcard := Set.encard_sdiff_singleton_add_one hin
  rw [h.count a hbel.1, ha, Nat.cast_add, Nat.cast_one] at hcard
  rw [holders_drop hr]
  exact WithTop.add_right_cancel ENat.one_ne_top hcard

theorem decrement (ht : role t = .counted a k) (ha : refcnt a = n + 1)
    (hr : n ≠ 0 ∧ r = .none ∨ n = 0 ∧ r = .removing a k) :
    Entries (update role t r) xs value allocated (update refcnt a n) := by
  have hbel := h.belongs t
  rw [ht] at hbel
  have hno : ∀ b k, r ≠ .counted b k := by
    rcases hr with ⟨-, rfl⟩ | ⟨-, rfl⟩ <;> simp
  refine ⟨h.nodup, h.distinct, h.allocated_nodup, h.listed, fun b hb => ?_,
    forall_update ?_ fun u hu => belongs_setCount (h.belongs u) fun c hc => ?_,
    fun b hb => ?_, fun b hb hz => ?_⟩
  · exact (h.live b hb).imp_right (exists_update (P := (· = .freeing b)) (by simp [ht]))
  · rcases hr with ⟨-, rfl⟩ | ⟨hn, rfl⟩
    · trivial
    · exact ⟨hbel.1, hbel.2, by rw [update_self, hn]⟩
  · have := h.belongs u
    rw [hc] at this
    rw [this.2.2] at ha
    cases ha
  · by_cases hba : b = a
    · subst hba
      rw [update_self]
      exact h.count_drop ht hno ha
    · exact h.count_others (fun b k _ => hno b k) (by simp +contextual [ht, eq_comm]) hb hba
  · replace hz := SchedState.update_eq hz
    rcases hz with ⟨rfl, hz⟩ | ⟨hba, hz⟩
    · rcases hr with ⟨hn, -⟩ | ⟨-, rfl⟩
      · exact absurd hz hn
      · exact ⟨t, k, .inr (update_self ..)⟩
    · exact exists_update (by simp [ht, Tends]) (h.tended b hb hz)

theorem remove (ht : role t = .removing a k) (halone : ∀ u, u ≠ t → (role u).locked = false) :
    Entries (update role t (.freeing a)) (xs.erase a) value allocated refcnt := by
  have hbel := h.belongs t
  rw [ht] at hbel
  have hmem : ∀ b, b ∈ xs.erase a ↔ b ≠ a ∧ b ∈ xs := fun b => h.nodup.mem_erase_iff
  have hnone : holders role a = ∅ := by
    rw [← Set.encard_eq_zero, h.count a hbel.1, hbel.2.2]
    rfl
  refine ⟨h.nodup.erase a, fun b hb c hc => h.distinct b ((hmem b).mp hb).2 c ((hmem c).mp hc).2,
    h.allocated_nodup, fun b hb => h.listed b ((hmem b).mp hb).2, fun b hb => ?_,
    forall_update ⟨fun hin => ((hmem a).mp hin).1 rfl, h.listed a hbel.1⟩ fun u hu => ?_,
    fun b hb => ?_, fun b hb hz => ?_⟩
  · by_cases hba : b = a
    · subst hba
      exact .inr ⟨t, update_self ..⟩
    · rw [hmem]
      exact (h.live b hb).imp (fun hin => ⟨hba, hin⟩)
        (exists_update (P := (· = .freeing b)) (by simp [ht]))
  · have hub := h.belongs u
    rcases Role.of_unlocked (halone u hu) with hru | ⟨b, c, hru⟩ <;> rw [hru] at hub ⊢
    · trivial
    · refine ⟨(hmem b).mpr ⟨?_, hub.1⟩, hub.2⟩
      rintro rfl
      exact Set.notMem_empty u (hnone ▸ ⟨c, hru⟩)
  · rw [holders_other (by simp) (by simp [ht])]
    exact h.count b ((hmem b).mp hb).2
  · obtain ⟨hba, hin⟩ := (hmem b).mp hb
    exact exists_update (by simp [ht, Tends, Ne.symm hba]) (h.tended b hin hz)

theorem free (ht : role t = .freeing a) (halone : ∀ u, u ≠ t → (role u).locked = false) :
    Entries (update role t .none) xs value (allocated.erase a) refcnt := by
  have hbel := h.belongs t
  rw [ht] at hbel
  have hne : ∀ b ∈ xs, b ≠ a := fun b hb he => hbel.1 (he ▸ hb)
  have hmem : ∀ b, b ∈ allocated.erase a ↔ b ≠ a ∧ b ∈ allocated :=
    fun b => h.allocated_nodup.mem_erase_iff
  refine ⟨h.nodup, h.distinct, h.allocated_nodup.erase a,
    fun b hb => (hmem b).mpr ⟨hne b hb, h.listed b hb⟩, fun b hb => ?_,
    forall_update trivial fun u hu => ?_, fun b hb => ?_, fun b hb hz => ?_⟩
  · refine (h.live b ((hmem b).mp hb).2).imp_right (exists_update (P := (· = .freeing b)) ?_)
    simp [ht, Ne.symm ((hmem b).mp hb).1]
  · have hub := h.belongs u
    rcases Role.of_unlocked (halone u hu) with hru | ⟨b, c, hru⟩ <;> rw [hru] at hub ⊢ <;> exact hub
  · rw [holders_other (by simp) (by simp [ht])]
    exact h.count b hb
  · exact exists_update (by simp [ht, Tends]) (h.tended b hb hz)

end

end Entries

end Entries

def roleOf : Pc → Role
  | .wait call (.found a) => .adding a call.key
  | .wait call (.counted a) | .wait call (.entered a) | .wait call (.checking a)
  | .wait call (.pushing a) | .wait call (.pushed a) | .wait call (.blocked a)
  | .wait call (.cleaning a) | .wait call (.releasing a _) | .wait call (.leaving a _)
  | .wait call (.dropping a _) => .counted a call.key
  | .wait call (.removing a _) => .removing a call.key
  | .wait _ (.freeing a _) => .freeing a
  | .wake call (.waking a _) | .wake call (.popping a _) | .wake call (.popped a _ _) =>
    .waking a call.key
  | _ => .none

def inTree : Pc → Bool
  | .wait _ .locked | .wait _ (.found _) | .wait _ (.counted _) | .wait _ (.dropping _ _)
  | .wait _ (.removing _ _) | .wait _ (.freeing _ _) | .wait _ (.dropped _) => true
  | .wake _ stage => stage ≠ .called
  | _ => false

/-- The entry of whose waitable the thread holds the lock. -/
def guards : Pc → Option ℕ
  | .wait _ (.checking a) | .wait _ (.pushing a) | .wait _ (.pushed a) | .wait _ (.cleaning a)
  | .wait _ (.releasing a _) | .wake _ (.popping a _) | .wake _ (.popped a _ _) => some a
  | _ => none

theorem entry_of_guards (h : guards p = some a) : (roleOf p).entry = some a := by
  cases p with
  | outside => cases h
  | wait call stage | wake call stage => cases stage <;> first | exact h | cases h

theorem inTree_of_locked (h : (roleOf p).locked = true) : inTree p = true := by
  cases p with
  | outside => cases h
  | wait call stage | wake call stage => cases stage <;> first | rfl | cases h

variable {Thr : Type} [DecidableEq Thr] {pc : Thr → Pc} {treeLock : Option Thr}
  {guard : ℕ → Option Thr} {t : Thr} {p : Pc} {a : ℕ} {s s' : State Thr}

section Locks

/-- The locks are held by the threads at the program points inside their sections. -/
structure Locks (pc : Thr → Pc) (treeLock : Option Thr) (guard : ℕ → Option Thr) : Prop where
  tree : ∀ t, inTree (pc t) = true ↔ treeLock = some t
  guard : ∀ t a, guards (pc t) = some a ↔ guard a = some t

namespace Locks

section

variable (h : Locks pc treeLock guard)
include h

theorem guards_goto (hg : guards p = guards (pc t)) (u : Thr) (b : ℕ) :
    guards (update pc t p u) = some b ↔ guard b = some u :=
  (SchedState.update_iff (guards · = some b) (by rw [hg]) u).trans (h.guard u b)

theorem tree_goto (ht : inTree p = inTree (pc t)) (u : Thr) :
    inTree (update pc t p u) = true ↔ treeLock = some u :=
  (SchedState.update_iff (inTree · = true) (by rw [ht]) u).trans (h.tree u)

theorem goto (ht : inTree p = inTree (pc t)) (hg : guards p = guards (pc t)) :
    Locks (update pc t p) treeLock guard :=
  ⟨h.tree_goto ht, h.guards_goto hg⟩

end

theorem takeTree (h : Locks pc none guard) (ht : inTree p = true)
    (hg : guards p = guards (pc t)) : Locks (update pc t p) (some t) guard := by
  refine ⟨fun u => ?_, h.guards_goto hg⟩
  by_cases hut : u = t
  · subst hut
    simp [ht]
  · have hfree := h.tree u
    simp [hut, hfree, Ne.symm hut]

section

variable (h : Locks pc treeLock guard)
include h

theorem dropTree (htree : inTree (pc t) = true) (ht : inTree p = false)
    (hg : guards p = guards (pc t)) :
    Locks (update pc t p) none guard := by
  refine ⟨fun u => ?_, h.guards_goto hg⟩
  by_cases hut : u = t
  · subst hut
    simp [ht]
  · rw [update_of_ne hut, h.tree u, (h.tree t).mp htree]
    simp [Ne.symm hut]

theorem setGuard (ht : inTree p = inTree (pc t))
    (hg : ∀ b, guards p = some b ↔ update guard a x b = some t)
    (hx : ∀ u, u ≠ t → (x = some u ↔ guard a = some u)) :
    Locks (update pc t p) treeLock (update guard a x) := by
  refine ⟨h.tree_goto ht, fun u b => ?_⟩
  by_cases hut : u = t
  · rw [hut, update_self]
    exact hg b
  · rw [update_of_ne hut, h.guard u b]
    exact (SchedState.update_iff (· = some u) (hx u hut) b).symm

theorem takeGuard (hfree : guard a = none) (hout : guards (pc t) = none)
    (ht : inTree p = inTree (pc t)) (hg : guards p = some a) :
    Locks (update pc t p) treeLock (update guard a (some t)) := by
  refine h.setGuard ht (fun b => ?_) fun u hu => by simp [hfree, Ne.symm hu]
  by_cases hba : b = a
  · simp [hba, hg]
  · rw [update_of_ne hba, ← h.guard t b, hg, hout]
    simp [Ne.symm hba]

theorem dropGuard (hheld : guards (pc t) = some a) (ht : inTree p = inTree (pc t))
    (hg : guards p = none) :
    Locks (update pc t p) treeLock (update guard a none) := by
  refine h.setGuard ht (fun b => ?_) fun u hu => by simp [(h.guard t a).mp hheld, Ne.symm hu]
  by_cases hba : b = a
  · simp [hba, hg]
  · rw [update_of_ne hba, ← h.guard t b, hg, hheld]
    simp [Ne.symm hba]

theorem clear (hno : ∀ u, guards (pc u) ≠ some a) :
    Locks pc treeLock (update guard a none) := by
  refine ⟨h.tree, fun u b => ?_⟩
  by_cases hba : b = a
  · subst hba
    simp [hno u]
  · rw [update_of_ne hba]
    exact h.guard u b

/-- While a thread holds `futex_tree_lock`, no other has a role that goes with it. -/
theorem alone (ht : inTree (pc t) = true) (u : Thr) (hu : u ≠ t) :
    (roleOf (pc u)).locked = false := by
  refine Bool.eq_false_iff.mpr fun hl => hu ?_
  have hut := ((h.tree u).mp (inTree_of_locked hl)).symm.trans ((h.tree t).mp ht)
  exact Option.some.inj hut

end

end Locks

theorem locks_move (h : Locks s.pc s.treeLock s.guard)
    (hfresh : ∀ a, a ∉ s.allocated → ∀ u, guards (s.pc u) ≠ some a) (hm : Move s t s') :
    Locks s'.pc s'.treeLock s'.guard := by
  cases hm with
  | store _ | refuse _ => exact h
  | callWait hpc | callWake hpc => exact h.goto (by rw [hpc]; rfl) (by rw [hpc]; rfl)
  | wait hpc hw =>
    cases hw with
    | enterTree hl | reenterTree hl =>
      rw [hl] at h
      exact h.takeTree rfl (by rw [hpc]; rfl)
    | exitTree | back => exact h.dropTree (by rw [hpc]; rfl) rfl (by rw [hpc]; rfl)
    | lock hg | resume hg =>
      exact h.takeGuard hg (by rw [hpc]; rfl) (by rw [hpc]; rfl) rfl
    | sleep | unlock => exact h.dropGuard (by rw [hpc]; rfl) (by rw [hpc]; rfl) rfl
    | create _ _ _ ha _ => exact (h.clear (hfresh _ ha)).goto (by rw [hpc]; rfl) (by rw [hpc]; rfl)
    | _ => exact h.goto (by rw [hpc]; rfl) (by rw [hpc]; rfl)
  | wake hpc hw =>
    cases hw with
    | enterTree hl =>
      rw [hl] at h
      exact h.takeTree rfl (by rw [hpc]; rfl)
    | back => exact h.dropTree (by rw [hpc]; rfl) rfl (by rw [hpc]; rfl)
    | lock _ hg => exact h.takeGuard hg (by rw [hpc]; rfl) (by rw [hpc]; rfl) rfl
    | next | last => exact h.dropGuard (by rw [hpc]; rfl) (by rw [hpc]; rfl) rfl
    | _ => exact h.goto (by rw [hpc]; rfl) (by rw [hpc]; rfl)

end Locks

section Stored

def births (log : List (Event Thr)) : List ℕ :=
  log.filterMap fun
    | .allocated a => some a
    | _ => none

def removals (log : List (Event Thr)) : List ℕ :=
  log.filterMap fun
    | .removed a => some a
    | _ => none

def deaths (log : List (Event Thr)) : List ℕ :=
  log.filterMap fun
    | .freed a => some a
    | _ => none

def roles (pc : Thr → Pc) (t : Thr) : Role := roleOf (pc t)

/-- The waits on a key between their increment and their decrement of `refcnt`. -/
def waiting (pc : Thr → Pc) (key : ℕ) : Set Thr := {t | ∃ a, roleOf (pc t) = .counted a key}

/-- On no key are there as many waits as `refcnt` has values. -/
def Fits (s : State Thr) : Prop := ∀ key, (waiting s.pc key).encard < (2 ^ 32 : ℕ)

/-- The nodes of the tree are the entries, and the log accounts for each of them. -/
structure Stored (pc : Thr → Pc) (tree : Tree) (allocated : List ℕ) (refcnt : ℕ → ℕ)
    (born taken dead xs : List ℕ) : Prop where
  holds : Holds tree xs
  sorted : Sorted tree.valueOfNode xs
  entries : Entries (roles pc) xs tree.valueOfNode allocated refcnt
  bounded : ∀ a ∈ xs, refcnt a < 2 ^ 32
  removed : ∀ a, born.count a = taken.count a + xs.count a
  freed : ∀ a, born.count a = dead.count a + allocated.count a

variable {tree tree' : Tree} {allocated : List ℕ} {refcnt : ℕ → ℕ} {born taken dead xs : List ℕ}
  {key : ℕ}

theorem roles_goto (pc : Thr → Pc) (t : Thr) (p : Pc) :
    roles (update pc t p) = update (roles pc) t (roleOf p) := by
  funext u
  by_cases hut : u = t
  · subst hut
    rw [roles, update_self, update_self]
  · rw [roles, update_of_ne hut, update_of_ne hut, roles]

theorem holders_eq_waiting (h : Entries (roles pc) xs tree.valueOfNode allocated refcnt)
    (ha : a ∈ xs) : holders (roles pc) a = waiting pc (tree.valueOfNode a) := by
  ext u
  have hbel := h.belongs u
  constructor
  · rintro ⟨k, hk⟩
    rw [hk] at hbel
    rw [hbel.2]
    exact ⟨a, hk⟩
  · rintro ⟨b, hb⟩
    have hb' : roles pc u = .counted b (tree.valueOfNode a) := hb
    rw [hb'] at hbel
    obtain rfl := h.distinct b hbel.1 a ha hbel.2
    exact ⟨_, hb⟩

theorem lt_of_fits (h : Entries (roles pc) xs tree.valueOfNode allocated refcnt)
    (hfits : ∀ key, (waiting pc key).encard < (2 ^ 32 : ℕ)) (ha : a ∈ xs) : refcnt a < 2 ^ 32 := by
  have hlt := hfits (tree.valueOfNode a)
  rw [← holders_eq_waiting h ha, h.count a ha] at hlt
  exact_mod_cast hlt

namespace Stored

section

variable (h : Stored pc tree allocated refcnt born taken dead xs)
include h

theorem goto (hr : roleOf p = roleOf (pc t)) :
    Stored (update pc t p) tree allocated refcnt born taken dead xs := by
  have hsame : roles (update pc t p) = roles pc := by
    rw [roles_goto, hr]
    exact update_eq_self t (roles pc)
  exact ⟨h.holds, h.sorted, hsame ▸ h.entries, h.bounded, h.removed, h.freed⟩

theorem search (hok : rbtreeSearchExact allocated.length tree key = .ok a) :
    Exact tree.valueOfNode key xs a := by
  obtain ⟨b, hb, hexact⟩ := rbtreeSearchExact_spec h.holds h.sorted key h.entries.length_le
  obtain rfl := Except.ok.inj (hok.symm.trans hb)
  exact hexact

theorem look (ht : roleOf (pc t) = .none ∨ ∃ b k, roleOf (pc t) = .waking b k)
    (hr : roleOf p = .none ∨ (∃ b k, roleOf p = .waking b k) ∨ ∃ b k, roleOf p = .adding b k)
    (hb : Belongs xs tree.valueOfNode allocated refcnt (roleOf p)) :
    Stored (update pc t p) tree allocated refcnt born taken dead xs := by
  refine ⟨h.holds, h.sorted, ?_, h.bounded, h.removed, h.freed⟩
  rw [roles_goto]
  exact h.entries.look ht hr hb

theorem find (ha : a ≠ 0) (hok : rbtreeSearchExact allocated.length tree key = .ok a) :
    a ∈ xs ∧ tree.valueOfNode a = key :=
  ((h.search hok).resolve_left fun hz => ha hz.1).2

theorem absent (hok : rbtreeSearchExact allocated.length tree key = .ok 0) :
    ∀ b ∈ xs, tree.valueOfNode b ≠ key :=
  ((h.search hok).resolve_right fun hz => hz.1 rfl).2

theorem create (ht : roleOf (pc t) = .none) (hp : roleOf p = .adding a key)
    (hok : rbtreeSearchExact allocated.length tree key = .ok 0) (ha0 : a ≠ 0) (heven : a % 2 = 0)
    (ha : a ∉ allocated)
    (hins : rbtreeInsert allocated.length (rewriteOutside tree a ⟨0, 0, 0⟩ key) a = .ok tree') :
    ∃ xs', Stored (update pc t p) tree' (a :: allocated) (update refcnt a 0)
      (a :: born) taken dead xs' := by
  have hout : a ∉ xs := fun hin => ha (h.entries.listed a hin)
  have hkey := h.absent hok
  have hholds := holds_outside h.holds hout ⟨0, 0, 0⟩ key
  have hsorted := sorted_outside h.sorted hout key
  obtain ⟨tree'', hok', hholds', hvalue⟩ := rbtreeInsert_spec hholds hsorted hout ha0 heven
    h.entries.length_le
  obtain rfl := Except.ok.inj (hins.symm.trans hok')
  change tree'.valueOfNode = update tree.valueOfNode a key at hvalue
  have hperm : (insertSeq (update tree.valueOfNode a key) a xs).Perm (a :: xs) := by
    obtain ⟨ys, zs, rfl, -, -, hseq⟩ := exists_split hsorted a
    rw [hseq]
    exact List.perm_middle
  refine ⟨insertSeq (update tree.valueOfNode a key) a xs, hholds', ?_, ?_,
    fun b hb => ?_, fun b => ?_, fun b => ?_⟩
  · rw [hvalue]
    exact sorted_insertSeq hsorted a
  · rw [roles_goto, hp, hvalue]
    exact h.entries.create ht ha hkey hperm
  · by_cases hba : b = a
    · subst hba
      rw [update_self]
      omega
    · rw [update_of_ne hba]
      exact h.bounded b ((List.mem_cons.mp (hperm.mem_iff.mp hb)).resolve_left hba)
  · have := h.removed b
    rw [hperm.count_eq]
    simp only [List.count_cons]
    omega
  · have := h.freed b
    simp only [List.count_cons]
    omega

theorem increment (ht : roleOf (pc t) = .adding a key) (hp : roleOf p = .counted a key)
    (halone : ∀ u, u ≠ t → (roleOf (pc u)).locked = false)
    (hfits : ∀ key, (waiting (update pc t p) key).encard < (2 ^ 32 : ℕ)) :
    Stored (update pc t p) tree allocated
      (update refcnt a ((refcnt a + 1) % 2 ^ 32)) born taken dead xs := by
  have hbel := h.entries.belongs t
  rw [roles, ht] at hbel
  have hentries := h.entries.increment ht halone
  rw [← hp, ← roles_goto] at hentries
  have hlt := lt_of_fits hentries hfits hbel.1
  rw [update_self] at hlt
  rw [Nat.mod_eq_of_lt hlt]
  refine ⟨h.holds, h.sorted, hentries, fun b hb => ?_, h.removed, h.freed⟩
  exact lt_of_fits hentries hfits hb

theorem wrapped_pred (ht : roleOf (pc t) = .counted a key) :
    refcnt a = (refcnt a + (2 ^ 32 - 1)) % 2 ^ 32 + 1 := by
  have hbel := h.entries.belongs t
  rw [roles, ht] at hbel
  have hlt := h.bounded a hbel.1
  have hne : refcnt a ≠ 0 := by
    intro hz
    have hcount := h.entries.count a hbel.1
    rw [hz, Nat.cast_zero, Set.encard_eq_zero] at hcount
    exact Set.notMem_empty t (hcount ▸ ⟨key, ht⟩)
  omega

theorem decrement (ht : roleOf (pc t) = .counted a key) (hn : refcnt a = n + 1)
    (hp : n ≠ 0 ∧ roleOf p = .none ∨ n = 0 ∧ roleOf p = .removing a key) :
    Stored (update pc t p) tree allocated (update refcnt a n) born taken dead xs := by
  refine ⟨h.holds, h.sorted, ?_, fun b hb => ?_, h.removed, h.freed⟩
  · rw [roles_goto]
    exact h.entries.decrement ht hn hp
  · have hlt := h.bounded b hb
    by_cases hba : b = a
    · subst hba
      rw [update_self]
      omega
    · rwa [update_of_ne hba]

theorem remove (ht : roleOf (pc t) = .removing a key) (hp : roleOf p = .freeing a)
    (halone : ∀ u, u ≠ t → (roleOf (pc u)).locked = false)
    (hok : rbtreeRemove allocated.length tree a = .ok (x, tree')) :
    Stored (update pc t p) tree' allocated refcnt born (a :: taken) dead (xs.erase a) := by
  have hbel := h.entries.belongs t
  rw [roles, ht] at hbel
  obtain ⟨y, tree'', hok', hholds, hvalue⟩ := rbtreeRemove_spec h.holds hbel.1 h.entries.length_le
  obtain ⟨-, rfl⟩ := Prod.mk.inj (Except.ok.inj (hok.symm.trans hok'))
  refine ⟨hholds, ?_, ?_, fun b hb => h.bounded b (List.mem_of_mem_erase hb), fun b => ?_, h.freed⟩
  · rw [hvalue]
    exact h.sorted.sublist List.erase_sublist
  · rw [roles_goto, hp, hvalue]
    exact h.entries.remove ht halone
  · rw [h.removed b, (List.perm_cons_erase hbel.1).count_eq b, List.count_cons, List.count_cons]
    omega

theorem free (ht : roleOf (pc t) = .freeing a) (hp : roleOf p = .none)
    (halone : ∀ u, u ≠ t → (roleOf (pc u)).locked = false) :
    Stored (update pc t p) tree (allocated.erase a) refcnt born taken (a :: dead) xs := by
  have hbel := h.entries.belongs t
  rw [roles, ht] at hbel
  refine ⟨h.holds, h.sorted, ?_, h.bounded, h.removed, fun b => ?_⟩
  · rw [roles_goto, hp]
    exact h.entries.free ht halone
  · rw [h.freed b, (List.perm_cons_erase hbel.2).count_eq b, List.count_cons, List.count_cons]
    omega

end

end Stored

theorem stored_move (hl : Locks s.pc s.treeLock s.guard)
    (h : Stored s.pc s.tree s.allocated s.refcnt (births s.log) (removals s.log) (deaths s.log) xs)
      (hfits : Fits s') (hm : Move s t s') :
    ∃ xs', Stored s'.pc s'.tree s'.allocated s'.refcnt (births s'.log) (removals s'.log)
      (deaths s'.log) xs' := by
  cases hm with
  | store _ | refuse _ => exact ⟨xs, h⟩
  | callWait hpc | callWake hpc => exact ⟨xs, h.goto (by rw [hpc]; rfl)⟩
  | @wait call stage s' hpc hw =>
    have halone := fun htree => hl.alone (t := t) htree
    cases hw with
    | @find a ha hok =>
      exact ⟨xs, h.look (.inl (by rw [hpc]; rfl)) (.inr (.inr ⟨_, _, rfl⟩)) (h.find ha hok)⟩
    | @create a tree hok ha0 heven ha hins =>
      exact h.create (by rw [hpc]; rfl) rfl hok ha0 heven ha hins
    | @count a =>
      exact ⟨xs, h.increment (by rw [hpc]; rfl) rfl (halone (by rw [hpc]; rfl)) hfits⟩
    | @drop a status hne =>
      have hrole : roleOf (s.pc t) = .counted a call.key := by rw [hpc]; rfl
      exact ⟨xs, h.decrement hrole (h.wrapped_pred hrole) (.inl ⟨hne, rfl⟩)⟩
    | @dropLast a status hz =>
      have hrole : roleOf (s.pc t) = .counted a call.key := by rw [hpc]; rfl
      have hpred := h.wrapped_pred hrole
      rw [hz] at hpred
      exact ⟨xs, h.decrement hrole hpred (.inr ⟨rfl, rfl⟩)⟩
    | @remove a status x tree hok =>
      exact ⟨_, h.remove (by rw [hpc]; rfl) rfl (halone (by rw [hpc]; rfl)) hok⟩
    | free => exact ⟨xs, h.free (by rw [hpc]; rfl) rfl (halone (by rw [hpc]; rfl))⟩
    | _ => exact ⟨xs, h.goto (by rw [hpc]; rfl)⟩
  | @wake call stage s' hpc hw =>
    cases hw with
    | find ha hok =>
      exact ⟨xs, h.look (.inl (by rw [hpc]; rfl)) (.inr (.inl ⟨_, _, rfl⟩)) (h.find ha hok)⟩
    | enough _ | last =>
      exact ⟨xs, h.look (.inr ⟨_, _, by rw [hpc]; rfl⟩) (.inl rfl) trivial⟩
    | _ => exact ⟨xs, h.goto (by rw [hpc]; rfl)⟩

end Stored

structure Inv (s : State Thr) : Prop where
  locks : Locks s.pc s.treeLock s.guard
  stored : ∃ xs, Stored s.pc s.tree s.allocated s.refcnt (births s.log) (removals s.log)
    (deaths s.log) xs

theorem inv_initial (h : Initial s) : Inv s := by
  have hrole : ∀ t, roles s.pc t = .none := fun t => by rw [roles, h.pc t]; rfl
  refine ⟨⟨fun t => ?_, fun t a => ?_⟩, [], ?_, List.Pairwise.nil, ?_, by simp, ?_, ?_⟩
  · rw [h.pc t, h.treeLock]
    simp [inTree]
  · rw [h.pc t, h.guard a]
    simp [guards]
  · have hroot := h.tree
    cases htree : s.tree with
    | mk root nodes value =>
      rw [htree] at hroot
      obtain rfl : root = 0 := hroot
      exact holds_empty nodes value
  · refine ⟨List.nodup_nil, by simp, ?_, by simp, ?_, fun t => ?_, by simp, by simp⟩
    · rw [h.allocated]
      exact List.nodup_nil
    · simp [h.allocated]
    · rw [hrole t]
      trivial
  · simp [h.log, births, removals]
  · simp [h.log, h.allocated, births, deaths]

theorem inv_move (h : Inv s) (hfits : Fits s') (hm : Move s t s') : Inv s' := by
  obtain ⟨xs, hstored⟩ := h.stored
  refine ⟨locks_move h.locks (fun a ha u hg => ha ?_) hm, stored_move h.locks hstored hfits hm⟩
  exact hstored.entries.entry_allocated (entry_of_guards hg)

variable {pageSize : ℕ}

theorem reachable_inv (h : Reachable pageSize (fun _ s' => Fits s') s) : Inv s := by
  obtain ⟨s₀, h₀, hr⟩ := h
  exact hr.invariant (inv_initial h₀) fun _ _ _ hinv hfits hm => inv_move hinv hfits hm

theorem waiting_nonempty (hl : Locks s.pc s.treeLock s.guard)
    (h : Entries (roles s.pc) xs s.tree.valueOfNode s.allocated s.refcnt)
    (hfree : s.treeLock = none) (ha : a ∈ xs) : (waiting s.pc (s.tree.valueOfNode a)).Nonempty := by
  rw [← holders_eq_waiting h ha]
  refine Set.encard_ne_zero.mp fun hz => ?_
  rw [h.count a ha] at hz
  obtain ⟨t, k, ht⟩ := h.tended a ha (by exact_mod_cast hz)
  have htree : inTree (s.pc t) = true := by
    refine inTree_of_locked ?_
    change (roles s.pc t).locked = true
    rcases ht with ht | ht <;> rw [ht] <;> rfl
  rw [hl.tree t, hfree] at htree
  cases htree

/-- Where fewer than `2 ^ 32` waits on a key count at a time, the tree has one entry for each
key with such a wait and none other, `refcnt` is their number, each allocated entry is
removed and freed once, and nobody uses an entry that is not allocated. -/
theorem futex_entries_live (h : Reachable pageSize (fun _ s' => Fits s') s) :
    ∃ xs, Holds s.tree xs ∧
      (s.treeLock = none →
        (∀ key, (waiting s.pc key).Nonempty → ∃! a, a ∈ xs ∧ s.tree.valueOfNode a = key) ∧
        (∀ a ∈ xs, (waiting s.pc (s.tree.valueOfNode a)).Nonempty ∧
          (waiting s.pc (s.tree.valueOfNode a)).encard = s.refcnt a) ∧
        ∀ a, a ∈ s.allocated ↔ a ∈ xs) ∧
      (∀ a, (births s.log).count a = (removals s.log).count a + if a ∈ xs then 1 else 0) ∧
      (∀ a, (births s.log).count a = (deaths s.log).count a + if a ∈ s.allocated then 1 else 0) ∧
      ∀ t a, (roleOf (s.pc t)).entry = some a → a ∈ s.allocated := by
  have hinv := reachable_inv h
  obtain ⟨xs, hst⟩ := hinv.stored
  have hent := hst.entries
  refine ⟨xs, hst.holds, fun hfree => ⟨fun key hkey => ?_, fun a ha => ?_, fun a => ?_⟩,
    fun a => ?_, fun a => ?_, fun t a ht => hent.entry_allocated ht⟩
  · obtain ⟨t, b, hb⟩ := hkey
    have hbel := hent.belongs t
    rw [roles, hb] at hbel
    exact ⟨b, hbel, fun c hc => hent.distinct c hc.1 b hbel.1 (hc.2.trans hbel.2.symm)⟩
  · refine ⟨waiting_nonempty hinv.locks hent hfree ha, ?_⟩
    rw [← holders_eq_waiting hent ha]
    exact hent.count a ha
  · refine ⟨fun ha => (hent.live a ha).resolve_right fun ⟨t, ht⟩ => ?_, hent.listed a⟩
    have htree : inTree (s.pc t) = true := inTree_of_locked (by
      change (roles s.pc t).locked = true
      rw [ht]
      rfl)
    rw [hinv.locks.tree t, hfree] at htree
    cases htree
  · rw [hst.removed a, hent.nodup.count]
  · rw [hst.freed a, hent.allocated_nodup.count]

def boot (Thr : Type) : State Thr :=
  ⟨fun _ => .outside, ⟨0, fun _ => ⟨0, 0, 0⟩, fun _ => 0⟩, none, [], fun _ => 0, fun _ => [],
    fun _ => none, fun _ => 0, []⟩

theorem boot_initial (Thr : Type) : Initial (boot Thr) :=
  ⟨fun _ => rfl, rfl, rfl, rfl, fun _ => rfl, fun _ => rfl, rfl⟩

theorem encard_le_two (S : Set (Fin 2)) : S.encard ≤ 2 := by
  have hle := Set.encard_le_encard (Set.subset_univ S)
  simpa using hle

theorem fits_of_two (s : State (Fin 2)) : Fits s := fun _ =>
  (encard_le_two _).trans_lt (by exact_mod_cast (by decide : 2 < 2 ^ 32))

def twoWaits : List (Fin 2 × Choice) :=
  [(0, .wait 0 0 0 true 4096), (0, .go), (0, .kmalloc 2), (0, .go), (0, .go),
    (1, .wait 4096 0 0 true 4096), (1, .go), (1, .go), (1, .go), (1, .go)]

theorem two_waits_counted : ∃ s : State (Fin 2), Reachable 4096 (fun _ s' => Fits s') s ∧
    s.refcnt 2 = 2 ∧ (waiting s.pc 4096).encard = 2 := by
  obtain ⟨s, hs⟩ : ∃ s, s = after 4096 twoWaits (boot (Fin 2)) := ⟨_, rfl⟩
  have hreach : Reachable 4096 (fun _ s' => Fits s') s := by
    rw [hs]
    exact ⟨_, boot_initial (Fin 2), run_all (fun _ s' => fits_of_two s')
      (run_after (by decide +kernel))⟩
  have hstate : s.treeLock = none ∧ s.refcnt 2 = 2 ∧ s.allocated = [2] ∧
      roleOf (s.pc 0) = .counted 2 4096 := by
    rw [hs]
    decide +kernel
  obtain ⟨hfree, hcount, halloc, hrole⟩ := hstate
  obtain ⟨xs, -, houtside, -⟩ := futex_entries_live hreach
  obtain ⟨hkeys, hentries, hlive⟩ := houtside hfree
  obtain ⟨a, ⟨ha, hkey⟩, -⟩ := hkeys 4096 ⟨0, 2, hrole⟩
  have ha' := (hlive a).mpr ha
  rw [halloc, List.mem_singleton] at ha'
  have hn := (hentries a ha).2
  rw [hkey, ha', hcount] at hn
  exact ⟨s, hreach, hcount, hn⟩

def loneTree : Tree :=
  match rbtreeInsert 0 (rewriteOutside (boot ℕ).tree 2 ⟨0, 0, 0⟩ 4096) 2 with
  | .ok tree => tree
  | .error _ => (boot ℕ).tree

def crowdPc (n : ℕ) (t : ℕ) : Pc :=
  if t < n then .wait ⟨4096, 0, 0⟩ (.entered 2) else .outside

def crowd (n : ℕ) : State ℕ :=
  ⟨crowdPc n, loneTree, none, [2], Function.update (fun _ => 0) 2 (n % 2 ^ 32), fun _ => [],
    fun _ => none, fun _ => 0, [.allocated 2]⟩

theorem crowdPc_succ (n : ℕ) :
    update (crowdPc n) n (.wait ⟨4096, 0, 0⟩ (.entered 2)) = crowdPc (n + 1) := by
  funext t
  by_cases ht : t = n
  · subst ht
    simp [crowdPc]
  · rw [update_of_ne ht]
    simp only [crowdPc, show t < n + 1 ↔ t < n by omega]

theorem loneTree_search : rbtreeSearchExact 1 loneTree 4096 = .ok 2 := rfl

def join (n : ℕ) : List (ℕ × Choice) :=
  [(n, .wait 0 0 0 true 4096), (n, .go), (n, .go), (n, .go), (n, .go)]

theorem crowd_succ (n : ℕ) : run 4096 (join n) (crowd n) = some (crowd (n + 1)) := by
  have hout : crowdPc n n = .outside := by simp [crowdPc]
  simp [join, run, step, crowd, hout, outsideStep, accepts, waitStep, lockTree, State.goto,
    futexKey, loneTree_search, State.setRefcnt, ← crowdPc_succ]

theorem crowd_one :
    run 4096 [(0, .wait 0 0 0 true 4096), (0, .go), (0, .kmalloc 2), (0, .go), (0, .go)]
      (boot ℕ) = some (crowd 1) := by
  have hnone : rbtreeSearchExact 0 (boot ℕ).tree 4096 = .ok 0 := rfl
  have hins : rbtreeInsert 0 (rewriteOutside (boot ℕ).tree 2 ⟨0, 0, 0⟩ 4096) 2 = .ok loneTree := rfl
  have hpc : update (fun _ => .outside) 0 (.wait ⟨4096, 0, 0⟩ (.entered 2)) = crowdPc 1 :=
    crowdPc_succ 0
  simp only [boot] at hnone hins
  simp [run, step, boot, outsideStep, accepts, waitStep, lockTree, State.goto, futexKey,
    State.setRefcnt, createEntry, hnone, hins, hpc, crowd]

theorem crowd_reachable (n : ℕ) : Run 4096 (fun _ _ => True) (boot ℕ) (crowd (n + 1)) := by
  induction n with
  | zero => exact run_all (fun _ _ => trivial) crowd_one
  | succ n ih => exact ih.trans (run_all (fun _ _ => trivial) (crowd_succ (n + 1)))

theorem crowd_waiting (n : ℕ) : (waiting (crowdPc n) 4096).encard = n := by
  have hset : waiting (crowdPc n) 4096 = ↑(Finset.range n) := by
    ext t
    by_cases ht : t < n <;> simp [waiting, crowdPc, ht, roleOf]
  rw [hset, Set.encard_coe_eq_coe_finsetCard, Finset.card_range]

def desert (n : ℕ) : List (ℕ × Choice) :=
  [(n, .store 4096 1), (0, .go), (0, .go), (0, .go), (0, .go), (0, .go), (0, .go), (0, .go)]

theorem dropEntry_last {Thr : Type} [DecidableEq Thr] {s : State Thr} {t : Thr} {call : WaitCall}
    {a : ℕ} {status : SchedState.WaitStatus} (h : s.refcnt a = 1) :
    dropEntry s t call a status = (s.setRefcnt a 0).goto t (.wait call (.removing a status)) := by
  unfold dropEntry
  rw [h]
  rfl

theorem crowd_deserted {n : ℕ} (hn : 1 < n) (hwrap : n % 2 ^ 32 = 1) :
    ∃ s, run 4096 (desert n) (crowd n) = some s ∧
      (roleOf (s.pc 1)).entry = some 2 ∧ 2 ∉ s.allocated := by
  have hout : crowdPc n n = .outside := by simp [crowdPc]
  have hin : ∀ t < n, crowdPc n t = .wait ⟨4096, 0, 0⟩ (.entered 2) := fun t ht => if_pos ht
  obtain ⟨x, tree, hrem⟩ : ∃ x tree, rbtreeRemove 1 loneTree 2 = .ok (x, tree) := ⟨_, _, rfl⟩
  have hval : loneTree.valueOfNode 2 = 4096 := rfl
  rw [crowd, hwrap]
  simp [desert, run, step, hout, hin 0 (by omega), hin 1 hn, outsideStep, waitStep,
    lockTree, lockWaitable, State.goto, State.setGuard, State.setRefcnt, State.note,
    removeEntry, dropEntry_last, hrem, hval, roleOf, Role.entry]

theorem refcnt_wraps :
    (∃ s : State ℕ, Reachable 4096 (fun _ _ => True) s ∧ s.treeLock = none ∧
      (waiting s.pc 4096).encard = 2 ^ 32 ∧ s.refcnt 2 = 0) ∧
    (∃ s : State ℕ, Reachable 4096 (fun _ _ => True) s ∧
      (roleOf (s.pc 1)).entry = some 2 ∧ 2 ∉ s.allocated) := by
  constructor
  · refine ⟨crowd (2 ^ 32), ⟨boot ℕ, boot_initial ℕ, crowd_reachable (2 ^ 32 - 1)⟩, rfl, ?_, rfl⟩
    exact_mod_cast crowd_waiting (2 ^ 32)
  · obtain ⟨s, hr, hs⟩ := crowd_deserted (n := 2 ^ 32 + 1) (by decide) (by decide)
    exact ⟨s, ⟨boot ℕ, boot_initial ℕ, (crowd_reachable (2 ^ 32)).trans
      (run_all (fun _ _ => trivial) hr)⟩, hs⟩

end SyscallsFutexEntries
