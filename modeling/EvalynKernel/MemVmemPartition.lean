import EvalynKernel.MemVmemOperations
import Mathlib.Data.List.Chain

/-! # Partitions of an address range

The sequence of the segments by itself: what an allocation and one round of a free make of
it, and that it stays a partition of the range in which no two neighbours are free. -/
namespace MemVmemPartition

open MachineWords IntervalTilings MemVmem MemVmemOperations

def Separated (gs : List Segment) : Prop :=
  gs.IsChain fun g h => g.allocated = true ∨ h.allocated = true

/-- Base, size and quantum of an allocator that does not reach the end of the word. -/
structure Geometry (R : ℕ × ℕ × ℕ) : Prop where
  quantum : ∃ k ≤ 63, R.2.2 = 2 ^ k
  dvd : R.2.2 ∣ R.1
  top : R.1 + R.2.1 < word

theorem Geometry.pos (h : Geometry R) : 0 < R.2.2 := by
  obtain ⟨k, -, hk⟩ := h.quantum
  rw [hk]
  exact Nat.two_pow_pos k

/-- Base, size and quantum of an allocator that may reach the end of the word. -/
structure Region (R : ℕ × ℕ × ℕ) : Prop where
  quantum : ∃ k ≤ 63, R.2.2 = 2 ^ k
  dvd : R.2.2 ∣ R.1
  start : R.1 < word
  span : R.2.1 < word
  top : R.1 + R.2.1 ≤ word

theorem Geometry.region (h : Geometry R) : Region R := by
  have htop := h.top
  exact ⟨h.quantum, h.dvd, by omega, by omega, by omega⟩

theorem Region.pos (h : Region R) : 0 < R.2.2 := by
  obtain ⟨k, -, hk⟩ := h.quantum
  rw [hk]
  exact Nat.two_pow_pos k

theorem Region.dvd_word (h : Region R) : R.2.2 ∣ word := by
  obtain ⟨k, hk, hq⟩ := h.quantum
  rw [hq]
  exact Nat.pow_dvd_pow 2 (by omega)

structure Partition (R : ℕ × ℕ × ℕ) (gs : List Segment) : Prop where
  tiles : Tiles Segment.base Segment.size R.1 (R.1 + R.2.1) gs
  aligned : ∀ g ∈ gs, R.2.2 ∣ g.base
  positive : ∀ g ∈ gs, g.allocated = false → 0 < g.size
  separated : Separated gs

def AllocatedAt (gs : List Segment) (v : ℕ) : Prop :=
  ∃ g ∈ gs, g.allocated = true ∧ Covers Segment.base Segment.size g v

variable {R : ℕ × ℕ × ℕ} {gs gs' A B M : List Segment} {g : Segment}

theorem separated_append :
    Separated (A ++ B) ↔ Separated A ∧ Separated B ∧
      ∀ p ∈ A.getLast?, ∀ n ∈ B.head?, p.allocated = true ∨ n.allocated = true := by
  exact List.isChain_append

theorem separated_between (hA : Separated A) (hM : Separated M) (hB : Separated B)
    (hlast : ∀ p ∈ A.getLast?, p.allocated = true) (hhead : ∀ n ∈ B.head?, n.allocated = true) :
    Separated (A ++ M ++ B) := by
  refine separated_append.2 ⟨separated_append.2 ⟨hA, hM, fun p hp _ _ => .inl (hlast p hp)⟩, hB,
    fun _ _ n hn => .inr (hhead n hn)⟩

theorem separated_around (h : Separated (A ++ g :: B)) (hg : g.allocated = false) :
    Separated A ∧ Separated B ∧ (∀ p ∈ A.getLast?, p.allocated = true) ∧
      ∀ n ∈ B.head?, n.allocated = true := by
  obtain ⟨hA, hgB, hjoin⟩ := separated_append.1 h
  have hgB' : Separated ([g] ++ B) := hgB
  obtain ⟨-, hB, hjoin'⟩ := separated_append.1 hgB'
  refine ⟨hA, hB, fun p hp => ?_, fun n hn => ?_⟩
  · exact (hjoin p hp g rfl).resolve_right (by simp [hg])
  · exact (hjoin' g rfl n hn).resolve_left (by simp [hg])

variable {q : ℕ}

section Alloc

variable {size addr r : ℕ}

/-- `r` is where an allocation of `size` bytes goes in the free segment `g`. -/
structure Placed (R : ℕ × ℕ × ℕ) (size addr : ℕ) (g : Segment) (r : ℕ) : Prop where
  free : g.allocated = false
  le : g.base ≤ r
  fits : r - g.base + size ≤ g.size
  dvd : R.2.2 ∣ r
  asked : addr ≠ 0 → r = addr

def lead (g : Segment) (r : ℕ) : List Segment :=
  if g.base = r then [] else [⟨false, g.base, r - g.base⟩]

def allocate (q size : ℕ) (g : Segment) (r : ℕ) : List Segment :=
  lead g r ++ taken q size ⟨false, r, g.size - (r - g.base)⟩

theorem allocate_tiles (hp : Placed R size addr g r) :
    Tiles Segment.base Segment.size g.base (g.base + g.size) (allocate q size g r) := by
  obtain ⟨-, hle, hfits, -, -⟩ := hp
  have htaken : Tiles Segment.base Segment.size r (g.base + g.size)
      (taken q size ⟨false, r, g.size - (r - g.base)⟩) := by
    unfold taken
    split
    · exact ⟨rfl, rfl, by dsimp only [Tiles]; omega⟩
    · exact ⟨rfl, by dsimp only [Tiles]; omega⟩
  refine tiles_append.2 ⟨r, ?_, htaken⟩
  unfold lead
  split
  · next hbase => exact hbase
  · exact ⟨rfl, by dsimp only [Tiles]; omega⟩

theorem mem_allocate (hp : Placed R size addr g r) (hh : h ∈ allocate q size g r) :
    (h.base = g.base ∨ h.base = r ∨ h.base = r + size) ∧
      (h.allocated = false → 0 < h.size ∨ h.size = 0 ∧ q = 0) ∧
      (h.allocated = true → size ≤ h.size) := by
  obtain ⟨-, hle, hfits, -, -⟩ := hp
  rcases List.mem_append.1 hh with hh | hh
  · unfold lead at hh
    split at hh
    · simp at hh
    · obtain rfl := List.mem_singleton.1 hh
      refine ⟨.inl rfl, fun _ => .inl ?_, by simp⟩
      dsimp only
      omega
  · unfold taken at hh
    split at hh
    · next hcond =>
      simp only [List.mem_cons, List.not_mem_nil, or_false] at hh
      rcases hh with rfl | rfl
      · exact ⟨.inr (.inl rfl), by simp, fun _ => Nat.le_refl _⟩
      · refine ⟨.inr (.inr rfl), fun _ => ?_, by simp⟩
        dsimp only at hcond ⊢
        omega
    · obtain rfl := List.mem_singleton.1 hh
      refine ⟨.inr (.inl rfl), by simp, fun _ => ?_⟩
      dsimp only
      omega

variable {k : Segment}

theorem allocate_aligned (hp : Placed R size addr g r) (hg : R.2.2 ∣ g.base) (hsize : R.2.2 ∣ size)
    (hk : k ∈ allocate q size g r) : R.2.2 ∣ k.base := by
  rcases (mem_allocate hp hk).1 with hb | hb | hb
  · exact hb ▸ hg
  · exact hb ▸ hp.dvd
  · exact hb ▸ Nat.dvd_add hp.dvd hsize

theorem allocate_separated (q size : ℕ) (g : Segment) (r : ℕ) :
    Separated (allocate q size g r) := by
  unfold allocate lead taken Separated
  split <;> split <;> simp

theorem mem_replaced (hk : k ∈ A ++ M ++ B) : k ∈ A ++ g :: B ∨ k ∈ M := by
  simp only [List.mem_append, List.mem_cons] at hk ⊢
  tauto

theorem Partition.allocate (h : Partition R (A ++ g :: B)) (hp : Placed R size addr g r)
    (hq : 0 < R.2.2) (hsize : R.2.2 ∣ size) :
    Partition R (A ++ allocate R.2.2 size g r ++ B) := by
  obtain ⟨hA, hB, hlast, hhead⟩ := separated_around h.separated hp.free
  have hg : g ∈ A ++ g :: B := by simp
  refine ⟨h.tiles.replace (allocate_tiles hp), fun k hk => ?_, fun k hk hfree => ?_,
    separated_between hA (allocate_separated _ _ _ _) hB hlast hhead⟩
  · rcases mem_replaced (g := g) hk with hk | hk
    · exact h.aligned k hk
    · exact allocate_aligned hp (h.aligned g hg) hsize hk
  · rcases mem_replaced (g := g) hk with hk | hk
    · exact h.positive k hk hfree
    · rcases (mem_allocate hp hk).2.1 hfree with hpos | ⟨-, h0⟩
      · exact hpos
      · omega

end Alloc

section Free

variable {cur e next : ℕ} {h h' : Segment} {A' B' : List Segment}

def below (g : Segment) (cur : ℕ) : List Segment :=
  if g.base < cur then [⟨true, g.base, cur - g.base⟩] else []

def above (g : Segment) (e : ℕ) : List Segment :=
  if e < g.base + g.size then [⟨true, e, g.base + g.size - e⟩] else []

def freed (g : Segment) (cur e : ℕ) : Segment :=
  ⟨false, cur, Nat.min (g.base + g.size) e - cur⟩

/-- One round of a free: the part of `g` in the range, up to `next`, joins its free
neighbours. -/
def Released (cur e next : ℕ) (gs gs' : List Segment) : Prop :=
  ∃ A g B A' h B' k, gs = A ++ g :: B ∧ g.allocated = true ∧
    Covers Segment.base Segment.size g cur ∧ next = Nat.min (g.base + g.size) e ∧
      LeftJoin (A ++ below g cur) (freed g cur e) A' h ∧
    RightJoin h (above g e ++ B) k B' ∧ gs' = A' ++ k :: B'

theorem leftJoin_last (hj : LeftJoin A h A' h') (hA : Separated A) :
    Separated A' ∧ ∀ p ∈ A'.getLast?, p.allocated = true := by
  cases hj with
  | stay hlast => exact ⟨hA, hlast⟩
  | @join _ p heq hp =>
    subst heq
    obtain ⟨hA', -, hlast, -⟩ := separated_around hA hp
    exact ⟨hA', hlast⟩

theorem rightJoin_head (hj : RightJoin h B h' B') (hB : Separated B) :
    Separated B' ∧ ∀ n ∈ B'.head?, n.allocated = true := by
  cases hj with
  | stay hhead => exact ⟨hB, hhead⟩
  | @join n _ heq hn =>
    subst heq
    have hB' : Separated ([] ++ n :: B') := hB
    obtain ⟨-, hsep, -, hhead⟩ := separated_around hB' hn
    exact ⟨hsep, hhead⟩

variable {C : List Segment} {lo hi : ℕ}

theorem leftJoin_tiles (hj : LeftJoin A h A' h')
    (ht : Tiles Segment.base Segment.size lo hi (A ++ h :: C)) :
    Tiles Segment.base Segment.size lo hi (A' ++ h' :: C) := by
  cases hj with
  | stay => exact ht
  | @join _ p hA hp =>
    subst hA
    rw [List.append_assoc, List.singleton_append, tiles_middle] at ht
    obtain ⟨hA', hbase, hC⟩ := ht
    refine tiles_middle.2 ⟨hA', ?_⟩
    rwa [Nat.add_comm h.size, ← Nat.add_assoc]

theorem rightJoin_tiles (hj : RightJoin h B h' B')
    (ht : Tiles Segment.base Segment.size lo hi (C ++ h :: B)) :
    Tiles Segment.base Segment.size lo hi (C ++ h' :: B') := by
  cases hj with
  | stay => exact ht
  | @join n _ hB hn =>
    subst hB
    obtain ⟨hC, hbase, hB'⟩ := tiles_middle.1 ht
    refine tiles_middle.2 ⟨hC, ?_⟩
    rwa [← Nat.add_assoc]

theorem leftJoin_mem (hj : LeftJoin A h A' h') :
    (∀ p ∈ A', p ∈ A) ∧ (h'.base = h.base ∨ ∃ p ∈ A, h'.base = p.base) ∧ h.size ≤ h'.size ∧
      h'.allocated = h.allocated := by
  cases hj with
  | stay => exact ⟨fun _ hp => hp, .inl rfl, Nat.le_refl _, rfl⟩
  | @join _ p heq =>
    subst heq
    exact ⟨fun _ hp => List.mem_append_left _ hp, .inr ⟨p, by simp, rfl⟩, Nat.le_add_right _ _, rfl⟩

theorem rightJoin_mem (hj : RightJoin h B h' B') :
    (∀ n ∈ B', n ∈ B) ∧ h'.base = h.base ∧ h.size ≤ h'.size ∧ h'.allocated = h.allocated := by
  cases hj with
  | stay => exact ⟨fun _ hn => hn, rfl, Nat.le_refl _, rfl⟩
  | @join n _ heq =>
    subst heq
    exact ⟨fun _ hn => List.mem_cons_of_mem _ hn, rfl, Nat.le_add_right _ _, rfl⟩

theorem mem_below (hp : p ∈ below g cur) : p.allocated = true ∧ p.base = g.base := by
  unfold below at hp
  split at hp
  · rw [List.mem_singleton.1 hp]
    exact ⟨rfl, rfl⟩
  · simp at hp

theorem mem_above (hn : n ∈ above g e) : n.allocated = true ∧ n.base = e := by
  unfold above at hn
  split at hn
  · rw [List.mem_singleton.1 hn]
    exact ⟨rfl, rfl⟩
  · simp at hn

theorem cut_tiles (hcov : Covers Segment.base Segment.size g cur) (he : cur < e) :
    Tiles Segment.base Segment.size g.base (g.base + g.size)
      (below g cur ++ freed g cur e :: above g e) := by
  obtain ⟨hlo, hhi⟩ := hcov
  refine tiles_middle.2 ⟨?_, ?_⟩
  · unfold below freed
    split
    · exact ⟨rfl, by dsimp only [Tiles]; omega⟩
    · dsimp only [Tiles]
      omega
  · unfold above freed
    split
    · next hlt =>
      have hmin : Nat.min (g.base + g.size) e = e := Nat.min_eq_right hlt.le
      exact ⟨by dsimp only; omega, by dsimp only [Tiles]; omega⟩
    · next hge =>
      have hmin : Nat.min (g.base + g.size) e = g.base + g.size := Nat.min_eq_left (not_lt.1 hge)
      dsimp only [Tiles]
      omega

theorem separated_below (hA : Separated A) (g : Segment) (cur : ℕ) :
    Separated (A ++ below g cur) := by
  refine separated_append.2 ⟨hA, ?_, fun p _ n hn => .inr ?_⟩
  · unfold below Separated
    split <;> simp
  · exact (mem_below (List.mem_of_mem_head? hn)).1

theorem separated_above (hB : Separated B) (g : Segment) (e : ℕ) :
    Separated (above g e ++ B) := by
  refine separated_append.2 ⟨?_, hB, fun p hp n _ => .inl ?_⟩
  · unfold above Separated
    split <;> simp
  · exact (mem_above (List.mem_of_mem_getLast? hp)).1

theorem Partition.release (h : Partition R gs) (hr : Released cur e next gs gs') (he : cur < e)
    (hcur : R.2.2 ∣ cur) (hend : R.2.2 ∣ e) : Partition R gs' := by
  obtain ⟨A, g, B, A', k, B', k', rfl, halloc, hcov, -, hleft, hright, rfl⟩ := hr
  obtain ⟨hsub, hbase, hsize, hflag⟩ := leftJoin_mem hleft
  obtain ⟨hsub', hbase', hsize', hflag'⟩ := rightJoin_mem hright
  have hg : g ∈ A ++ g :: B := by simp
  have hsep := separated_append.1 h.separated
  have hsepB : Separated ([g] ++ B) := hsep.2.1
  have hA : ∀ p ∈ A ++ below g cur, R.2.2 ∣ p.base ∧ (p.allocated = false → 0 < p.size) := by
    intro p hp
    rcases List.mem_append.1 hp with hp | hp
    · exact ⟨h.aligned p (by simp [hp]), h.positive p (by simp [hp])⟩
    · obtain ⟨ha, hb⟩ := mem_below hp
      exact ⟨hb ▸ h.aligned g hg, fun hf => absurd (ha.symm.trans hf) (by simp)⟩
  have hB : ∀ n ∈ above g e ++ B, R.2.2 ∣ n.base ∧ (n.allocated = false → 0 < n.size) := by
    intro n hn
    rcases List.mem_append.1 hn with hn | hn
    · obtain ⟨ha, hb⟩ := mem_above hn
      exact ⟨hb ▸ hend, fun hf => absurd (ha.symm.trans hf) (by simp)⟩
    · exact ⟨h.aligned n (by simp [hn]), h.positive n (by simp [hn])⟩
  have hk : R.2.2 ∣ k'.base ∧ 0 < k'.size := by
    refine ⟨?_, ?_⟩
    · rw [hbase']
      rcases hbase with hb | ⟨p, hp, hb⟩
      · exact hb ▸ hcur
      · exact hb ▸ (hA p hp).1
    · have hpos : 0 < (freed g cur e).size := by
        have hmin : cur < Nat.min (g.base + g.size) e := lt_min hcov.2 he
        dsimp only [freed]
        omega
      omega
  have hall : ∀ n ∈ A' ++ k' :: B', R.2.2 ∣ n.base ∧ (n.allocated = false → 0 < n.size) := by
    intro n hn
    rcases List.mem_append.1 hn with hn | hn
    · exact hA n (hsub n hn)
    rcases List.mem_cons.1 hn with rfl | hn
    · exact ⟨hk.1, fun _ => hk.2⟩
    · exact hB n (hsub' n hn)
  refine ⟨?_, fun n hn => (hall n hn).1, fun n hn => (hall n hn).2, ?_⟩
  · refine rightJoin_tiles hright (leftJoin_tiles hleft ?_)
    have := h.tiles.replace (cut_tiles hcov he)
    simpa using this
  · obtain ⟨hsA, hlast⟩ := leftJoin_last hleft (separated_below hsep.1 g cur)
    obtain ⟨hsB, hhead⟩ := rightJoin_head hright
      (separated_above (separated_append.1 hsepB).2.1 g e)
    have hone : Separated [k'] := List.isChain_singleton _
    have := separated_between hsA hone hsB hlast hhead
    simpa using this

inductive Freed (e : ℕ) : ℕ → List Segment → List Segment → Prop
  | stop (c : ℕ) (l : List Segment) : Freed e c l l
  | round {c n : ℕ} {l l₁ l' : List Segment} : c < e → Released c e n l l₁ → Freed e n l₁ l' →
      Freed e c l l'

def AllPositive (gs : List Segment) : Prop := ∀ g ∈ gs, 0 < g.size

/-- The rounds of a free from `cur` to `e` in a range that ends at `top`, with the reason to
stop. A segment that ends with the word is freed to its end, and is the last one. -/
inductive Rounds (top e : ℕ) : ℕ → List Segment → List Segment → Prop
  | done {c : ℕ} {l : List Segment} : e ≤ c → Rounds top e c l l
  | miss {c : ℕ} {l : List Segment} : c < e → (AllPositive l → ¬ AllocatedAt l c) →
      Rounds top e c l l
  | round {c n : ℕ} {l l₁ l' : List Segment} : c < e → Released c e n l l₁ → Rounds top e n l₁ l' →
      Rounds top e c l l'
  | last {c : ℕ} {l l' : List Segment} : c < e → e < word → top = word →
      Released c word word l l' → Rounds top e c l l'

variable {top : ℕ}

theorem Rounds.freed (hr : Rounds top e cur gs gs') (ht : top < word) : Freed e cur gs gs' := by
  induction hr with
  | done | miss => exact .stop _ _
  | round hc hr _ ih => exact .round hc hr ih
  | last _ _ heq => omega

theorem AllPositive.release (h : AllPositive gs) (hr : Released cur e next gs gs') (he : cur < e) :
    AllPositive gs' := by
  obtain ⟨A, g, B, A', k, B', k', rfl, -, hcov, -, hleft, hright, rfl⟩ := hr
  have hpos : 0 < (freed g cur e).size := by
    have hmin : cur < Nat.min (g.base + g.size) e := lt_min hcov.2 he
    dsimp only [freed]
    omega
  have hk := (leftJoin_mem hleft).2.2.1
  have hk' := (rightJoin_mem hright).2.2.1
  intro p hp
  rcases List.mem_append.1 hp with hp | hp
  · rcases List.mem_append.1 ((leftJoin_mem hleft).1 p hp) with hp | hp
    · exact h p (by simp [hp])
    · unfold below at hp
      split at hp
      · rw [List.mem_singleton.1 hp]
        dsimp only
        omega
      · simp at hp
  rcases List.mem_cons.1 hp with rfl | hp
  · omega
  · rcases List.mem_append.1 ((rightJoin_mem hright).1 p hp) with hp | hp
    · unfold above at hp
      split at hp
      · rw [List.mem_singleton.1 hp]
        dsimp only
        omega
      · simp at hp
    · exact h p (by simp [hp])

theorem AllPositive.free (h : AllPositive gs) (hf : Freed e cur gs gs') : AllPositive gs' := by
  induction hf with
  | stop => exact h
  | round he hr _ ih => exact ih (h.release hr he)

theorem AllPositive.rounds (h : AllPositive gs) (hr : Rounds top e cur gs gs') :
    AllPositive gs' := by
  induction hr with
  | done | miss => exact h
  | round hc hr _ ih => exact ih (h.release hr hc)
  | last hc he _ hr => exact h.release hr (hc.trans he)

theorem AllPositive.allocate (h : AllPositive (A ++ g :: B)) (hp : Placed R size addr g r)
    (hq : 0 < q) (hsize : 0 < size) :
    AllPositive (A ++ MemVmemPartition.allocate q size g r ++ B) := by
  intro k hk
  simp only [List.mem_append] at hk
  rcases hk with (hk | hk) | hk
  · exact h k (by simp [hk])
  · obtain ⟨-, hfree, halloc⟩ := mem_allocate hp hk
    cases hflag : k.allocated with
    | true => exact hsize.trans_le (halloc hflag)
    | false =>
      have := hfree hflag
      omega
  · exact h k (by simp [hk])

def pending (cur : ℕ) (gs : List Segment) : ℕ :=
  gs.countP fun g => g.allocated && decide (cur < g.base + g.size)

theorem pending_mono (h : cur ≤ next) (gs : List Segment) : pending next gs ≤ pending cur gs := by
  refine List.countP_mono_left fun g _ hg => ?_
  simp only [Bool.and_eq_true, decide_eq_true_eq] at hg ⊢
  exact ⟨hg.1, by omega⟩

theorem pending_pos (hg : g ∈ gs) (halloc : g.allocated = true)
    (hcov : Covers Segment.base Segment.size g cur) : 0 < pending cur gs := by
  have hend := hcov.2
  exact List.countP_pos_iff.2 ⟨g, hg, by simp [halloc, hend]⟩

theorem rightJoin_sublist (hj : RightJoin h B h' B') : B'.Sublist B := by
  cases hj with
  | stay => exact List.Sublist.refl _
  | join heq => exact heq ▸ List.sublist_cons_self _ _

theorem Released.pending_lt (hr : Released cur e next gs gs') (h : Partition R gs) :
    next = e ∨ pending next gs' < pending cur gs := by
  obtain ⟨A, g, B, A', k, B', k', rfl, halloc, hcov, hnext, hleft, hright, rfl⟩ := hr
  by_cases hlt : e < g.base + g.size
  · exact .inl (hnext.trans (Nat.min_eq_right hlt.le))
  have hnext' : next = g.base + g.size := hnext.trans (Nat.min_eq_left (not_lt.1 hlt))
  have hcur : cur < next := hnext' ▸ hcov.2
  have habove : above g e = [] := if_neg hlt
  rw [habove, List.nil_append] at hright
  have hflag : k'.allocated = false := (rightJoin_mem hright).2.2.2.trans (leftJoin_mem hleft).2.2.2
  have hA' : pending next A' = 0 := by
    refine List.countP_eq_zero.2 fun p hp => ?_
    have hpA := (leftJoin_mem hleft).1 p hp
    have hend : p.base + p.size ≤ cur := by
      rcases List.mem_append.1 hpA with hpA | hpA
      · exact ((tiles_middle.1 h.tiles).1.bounds hpA).2.trans hcov.1
      · unfold below at hpA
        split at hpA
        · rw [List.mem_singleton.1 hpA]
          dsimp only
          omega
        · simp at hpA
    have : ¬next < p.base + p.size := by omega
    simp [this]
  have hB' : pending next B' ≤ pending cur B :=
    (rightJoin_sublist hright).countP_le.trans (pending_mono hcur.le B)
  refine .inr ?_
  have hg : pending cur [g] = 1 := by
    have := hcov.2
    simp [pending, halloc, this]
  have hk : pending next [k'] = 0 := by simp [pending, hflag]
  have hsplit : ∀ (v : ℕ) (C D : List Segment) (c : Segment),
      pending v (C ++ c :: D) = pending v C + pending v [c] + pending v D := by
    intro v C D c
    simp only [pending, List.countP_append, List.countP_cons, List.countP_nil]
    omega
  rw [hsplit, hsplit, hA', hk, hg]
  omega

theorem Released.next_aligned (hr : Released cur e next gs gs') (h : Partition R gs)
    (he : cur ≤ e) (hend : R.2.2 ∣ e) : next ≤ e ∧ cur ≤ next ∧
    (R.2.2 ∣ next ∨ R.1 + R.2.1 ≤ next) := by
  obtain ⟨A, g, B, A', k, B', k', rfl, -, hcov, rfl, -, -, -⟩ := hr
  refine ⟨Nat.min_le_right _ _, le_min hcov.2.le he, ?_⟩
  rcases Nat.le_total (g.base + g.size) e with hle | hle
  · rw [show Nat.min (g.base + g.size) e = g.base + g.size from Nat.min_eq_left hle]
    cases B with
    | nil => exact .inr (tiles_middle.1 h.tiles).2.ge
    | cons n B =>
      have hn : n.base = g.base + g.size := (tiles_middle.1 h.tiles).2.1
      exact .inl (hn ▸ h.aligned n (by simp))
  · rw [show Nat.min (g.base + g.size) e = e from Nat.min_eq_right hle]
    exact .inl hend

end Free

end MemVmemPartition
