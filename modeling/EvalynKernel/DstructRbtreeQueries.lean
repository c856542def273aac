import EvalynKernel.DstructRbtreeSearch
import EvalynKernel.DstructRbtreeRuns

/-! # The answers of `rbtree_search`

Every search type asks for a closest node among those it admits. With distinct keys the
ordered searches return that node; with equal keys the strict ones depend on which of them
is nearest the root. The nearest search misses the nodes at distance
`UINT64_MAX`, where its best distance starts. -/
namespace DstructRbtreeQueries

open MachineWords LinkedTrees DstructRbtree DstructRbtreeLinks DstructRbtreeInsert
open DstructRbtreeRuns DstructRbtreeSearch

/-- The keys a search type may return. -/
def Admits (query : ℕ) : SearchType → ℕ → Prop
  | .exact, key => key = query
  | .nearest, _ => True
  | .nearestLt, key => key < query
  | .nearestLte, key => key ≤ query
  | .nearestGt, key => query < key
  | .nearestGte, key => query ≤ key

/-- The first of two admitted keys is at least as close to the query as the second. -/
def Closer (query : ℕ) : SearchType → ℕ → ℕ → Prop
  | .exact, _, _ => True
  | .nearest, j, k => keyDistance query j ≤ keyDistance query k
  | .nearestLt, j, k => k ≤ j
  | .nearestLte, j, k => k ≤ j
  | .nearestGt, j, k => j ≤ k
  | .nearestGte, j, k => j ≤ k

/-- `r` is a closest node among those admitted, or null if there is none. -/
def Answers (v : ℕ → ℕ) (query : ℕ) (type : SearchType) (xs : List ℕ) (r : ℕ) : Prop :=
  r = 0 ∧ (∀ y ∈ xs, ¬ Admits query type (v y)) ∨
    r ≠ 0 ∧ r ∈ xs ∧ Admits query type (v r) ∧
      ∀ y ∈ xs, Admits query type (v y) → Closer query type (v r) (v y)

variable {t : Tree} {fuel query : ℕ} {s : BinaryTree Item} {xs pre post : List ℕ} {v : ℕ → ℕ}

section Ordered

theorem first_least (h : Sorted v hi) :
    hi = [] ∨ hi.headD 0 ∈ hi ∧ ∀ y ∈ hi, v (hi.headD 0) ≤ v y := by
  cases hi with
  | nil => exact .inl rfl
  | cons x ys =>
    right
    rw [List.headD_cons]
    refine ⟨List.mem_cons_self, fun y hy => ?_⟩
    rcases List.mem_cons.1 hy with rfl | hy
    · exact le_rfl
    · exact (List.pairwise_cons.1 h).1 y hy

section Split

variable {type : SearchType} {lo hi : List ℕ} (hsorted : Sorted v xs) (hzero : ∀ y ∈ xs, y ≠ 0)
  (hxs : xs = lo ++ hi)

include hsorted hzero hxs

theorem last_answers (htype : type = .nearestLt ∨ type = .nearestLte)
    (hin : ∀ y ∈ lo, Admits query type (v y)) (hout : ∀ y ∈ hi, ¬ Admits query type (v y)) :
    Answers v query type xs (lo.getLastD 0) := by
  subst hxs
  rcases last_greatest (List.pairwise_append.1 hsorted).1 with rfl | ⟨hmem, hmax⟩
  · exact .inl ⟨rfl, by simpa using hout⟩
  · refine .inr ⟨hzero _ (List.mem_append_left _ hmem), List.mem_append_left _ hmem,
      hin _ hmem, fun y hy hadm => ?_⟩
    rcases List.mem_append.1 hy with hy | hy
    · rcases htype with rfl | rfl <;> exact hmax y hy
    · exact absurd hadm (hout y hy)

theorem first_answers (htype : type = .nearestGt ∨ type = .nearestGte)
    (hin : ∀ y ∈ hi, Admits query type (v y)) (hout : ∀ y ∈ lo, ¬ Admits query type (v y)) :
    Answers v query type xs (hi.headD 0) := by
  subst hxs
  rcases first_least (List.pairwise_append.1 hsorted).2.1 with rfl | ⟨hmem, hmin⟩
  · exact .inl ⟨rfl, by simpa using hout⟩
  · refine .inr ⟨hzero _ (List.mem_append_right _ hmem), List.mem_append_right _ hmem,
      hin _ hmem, fun y hy hadm => ?_⟩
    rcases List.mem_append.1 hy with hy | hy
    · exact absurd hadm (hout y hy)
    · rcases htype with rfl | rfl <;> exact hmin y hy

end Split

def FirstOfKey (v : ℕ → ℕ) (query : ℕ) (xs : List ℕ) (x : ℕ) : Prop :=
  ∀ lo hi, xs = lo ++ x :: hi → ∀ y ∈ lo, v y ≠ query

def LastOfKey (v : ℕ → ℕ) (query : ℕ) (xs : List ℕ) (x : ℕ) : Prop :=
  ∀ lo hi, xs = lo ++ x :: hi → ∀ y ∈ hi, v y ≠ query

section Found

variable {x lt gt : ℕ} (hfound : Found v query xs x lt gt) (hsorted : Sorted v xs)
  (hzero : ∀ y ∈ xs, y ≠ 0)

include hfound

theorem found_key (hx : x ∈ xs) (hzero : ∀ y ∈ xs, y ≠ 0) : v x = query := by
  cases hfound with
  | miss _ _ _ => exact absurd rfl (hzero 0 hx)
  | hit _ _ heq => exact heq

theorem found_hit (hy : y ∈ xs) (hkey : v y = query) :
    ∃ lo hi, xs = lo ++ x :: hi ∧ v x = query ∧ lt = lo.getLastD 0 ∧ gt = hi.headD 0 := by
  cases hfound with
  | miss hxs hlo hhi =>
    rcases List.mem_append.1 (hxs ▸ hy) with hy | hy
    · exact absurd hkey (hlo y hy).ne
    · exact absurd hkey (hhi y hy).ne'
  | hit hxs _ heq => exact ⟨_, _, hxs, heq, rfl, rfl⟩

include hsorted

section

variable (hzero : ∀ y ∈ xs, y ≠ 0)
include hzero

theorem found_lesser : Answers v query .nearestLte xs (choose true x lt) := by
  cases hfound with
  | hit hxs h0 heq =>
    rw [choose, if_pos ⟨rfl, h0⟩]
    exact .inr ⟨h0, by simp [hxs], heq.le, fun y _ hle => heq ▸ hle⟩
  | miss hxs hlo hhi =>
    rw [choose, if_neg fun hc => hc.2 rfl]
    exact last_answers hsorted hzero hxs (.inr rfl) (fun y hy => (hlo y hy).le)
      fun y hy => (hhi y hy).not_ge

theorem found_greater : Answers v query .nearestGte xs (choose true x gt) := by
  cases hfound with
  | hit hxs h0 heq =>
    rw [choose, if_pos ⟨rfl, h0⟩]
    exact .inr ⟨h0, by simp [hxs], heq.ge, fun y _ hle => heq ▸ hle⟩
  | miss hxs hlo hhi =>
    rw [choose, if_neg fun hc => hc.2 rfl]
    exact first_answers hsorted hzero hxs (.inr rfl) (fun y hy => (hhi y hy).le)
      fun y hy => (hlo y hy).not_ge

theorem found_below (hfirst : FirstOfKey v query xs x) : Answers v query .nearestLt xs lt := by
  cases hfound with
  | miss hxs hlo hhi =>
    exact last_answers hsorted hzero hxs (.inl rfl) hlo fun y hy => (hhi y hy).le.not_gt
  | @hit lo hi _ hxs h0 heq =>
    have hne := hfirst lo hi hxs
    obtain ⟨-, htail, hcross⟩ := List.pairwise_append.1 (hxs ▸ hsorted)
    refine last_answers hsorted hzero hxs (.inl rfl) (fun y hy => ?_) fun y hy => ?_
    · exact lt_of_le_of_ne (heq ▸ hcross y hy x List.mem_cons_self) (hne y hy)
    · rcases List.mem_cons.1 hy with rfl | hy
      · exact heq.ge.not_gt
      · exact (heq ▸ (List.pairwise_cons.1 htail).1 y hy).not_gt

theorem found_above (hlast : LastOfKey v query xs x) : Answers v query .nearestGt xs gt := by
  cases hfound with
  | miss hxs hlo hhi =>
    exact first_answers hsorted hzero hxs (.inl rfl) hhi fun y hy => (hlo y hy).le.not_gt
  | @hit lo hi _ hxs h0 heq =>
    have hne := hlast lo hi hxs
    obtain ⟨-, htail, hcross⟩ := List.pairwise_append.1 (hxs ▸ hsorted)
    have hxs' : xs = (lo ++ [x]) ++ hi := by simp [hxs]
    refine first_answers hsorted hzero hxs' (.inl rfl) (fun y hy => ?_) fun y hy => ?_
    · exact lt_of_le_of_ne (heq ▸ (List.pairwise_cons.1 htail).1 y hy) (hne y hy).symm
    · rcases List.mem_append.1 hy with hy | hy
      · exact (heq ▸ hcross y hy x List.mem_cons_self).not_gt
      · rw [List.mem_singleton.1 hy]
        exact heq.le.not_gt

end

theorem found_not_below (hnd : xs.Nodup) (hfirst : ¬ FirstOfKey v query xs x) :
    lt ∈ xs ∧ v lt = query := by
  simp only [FirstOfKey, not_forall, not_not] at hfirst
  obtain ⟨lo, hi, hxs, y, hy, hkey⟩ := hfirst
  obtain ⟨_, _, hxs', heq, rfl, -⟩ := found_hit hfound (by simp [hxs, hy]) hkey
  obtain ⟨rfl, -⟩ := split_unique (hxs.symm.trans hxs') (hxs ▸ hnd)
  obtain ⟨hlo, -, hcross⟩ := List.pairwise_append.1 (hxs ▸ hsorted)
  rcases last_greatest hlo with rfl | ⟨hmem, hmax⟩
  · simp at hy
  · have hle := hcross _ hmem x List.mem_cons_self
    have hge := hmax y hy
    exact ⟨hxs ▸ List.mem_append_left _ hmem, by omega⟩

theorem found_not_above (hnd : xs.Nodup) (hlast : ¬ LastOfKey v query xs x) :
    gt ∈ xs ∧ v gt = query := by
  simp only [LastOfKey, not_forall, not_not] at hlast
  obtain ⟨lo, hi, hxs, y, hy, hkey⟩ := hlast
  obtain ⟨_, _, hxs', heq, -, rfl⟩ := found_hit hfound (by simp [hxs, hy]) hkey
  obtain ⟨-, rfl⟩ := split_unique (hxs.symm.trans hxs') (hxs ▸ hnd)
  obtain ⟨hx, hhi⟩ := List.pairwise_cons.1 (List.pairwise_append.1 (hxs ▸ hsorted)).2.1
  rcases first_least hhi with rfl | ⟨hmem, hmin⟩
  · simp at hy
  · have hle := hx _ hmem
    have hge := hmin y hy
    exact ⟨hxs ▸ List.mem_append_right _ (List.mem_cons_of_mem _ hmem), by omega⟩

end Found

theorem only_of_key (hkey : x ∈ xs → v x = query) (hcount : (xs.map v).count query ≤ 1) :
    FirstOfKey v query xs x ∧ LastOfKey v query xs x := by
  have hnone : ∀ lo hi, xs = lo ++ x :: hi →
      (lo.map v).count query = 0 ∧ (hi.map v).count query = 0 := by
    intro lo hi hxs
    have hx := hkey (by simp [hxs])
    rw [hxs, List.map_append, List.map_cons, List.count_append, hx, List.count_cons_self] at hcount
    omega
  constructor
  · intro lo hi hxs y hy heq
    exact List.count_eq_zero.1 (hnone lo hi hxs).1 (List.mem_map.2 ⟨y, hy, heq⟩)
  · intro lo hi hxs y hy heq
    exact List.count_eq_zero.1 (hnone lo hi hxs).2 (List.mem_map.2 ⟨y, hy, heq⟩)

/-- With distinct keys every ordered search returns its closest node. -/
theorem rbtree_search_exact_answers (h : Run t xs) (hd : (xs.map t.valueOfNode).Nodup) (query : ℕ)
    {type : SearchType} (htype : type ≠ .nearest) (hfuel : xs.length ≤ fuel) :
    ∃ r, rbtreeSearch fuel t query type = .ok r ∧ Answers t.valueOfNode query type xs r := by
  obtain ⟨hholds, hsorted⟩ := run_holds h
  have hzero : ∀ y ∈ xs, y ≠ 0 := fun y hy => holds_ne_zero hholds hy
  obtain ⟨x, lt, gt, hfound, -, hlesser, hgreater⟩ := rbtreeSearch_found hholds hsorted query hfuel
  obtain ⟨hfirst, hlast⟩ := only_of_key (fun hx => found_key hfound hx hzero)
    (List.nodup_iff_count_le_one.1 hd query)
  cases type with
  | exact =>
    obtain ⟨r, hok, hr⟩ := rbtreeSearchExact_spec hholds hsorted query hfuel
    exact ⟨r, hok, hr.imp id fun ⟨h0, hmem, heq⟩ => ⟨h0, hmem, heq, fun _ _ _ => trivial⟩⟩
  | nearest => exact (htype rfl).elim
  | nearestLt => exact ⟨_, hlesser false, found_below hfound hsorted hzero hfirst⟩
  | nearestLte => exact ⟨_, hlesser true, found_lesser hfound hsorted hzero⟩
  | nearestGt => exact ⟨_, hgreater false, found_above hfound hsorted hzero hlast⟩
  | nearestGte => exact ⟨_, hgreater true, found_greater hfound hsorted hzero⟩

def twoKeys : ℕ → ℕ := fun x => if x = 2 then 0 else word - 1

theorem greatest_below_top : ∃ t, rbtreeInsert 2 ⟨0, fun _ => ⟨9, 8, 7⟩, twoKeys⟩ 2 = .ok t ∧
    ∃ t', rbtreeInsert 2 t 4 = .ok t' ∧ Run t' [2, 4] ∧
      ∃ r, rbtreeSearch 2 t' (word - 1) .nearestLt = .ok r ∧
        Answers t'.valueOfNode (word - 1) .nearestLt [2, 4] r := by
  have h₁ : Run _ [2] := .insert (.start (fun _ => ⟨9, 8, 7⟩) twoKeys)
    (by decide) (by decide) (by decide) (by decide) (show rbtreeInsert 2 _ 2 = .ok _ from rfl)
  have h₂ : Run _ [2, 4] := .insert h₁ (by decide) (by decide) (by decide) (by decide)
    (show rbtreeInsert 2 _ 4 = .ok _ from rfl)
  exact ⟨_, rfl, _, rfl, h₂, rbtree_search_exact_answers h₂ (by decide) (word - 1) (by decide)
    (by decide)⟩

/-- With equal keys the strict searches are right if the node of the key nearest the root is
the outermost one, and return a node of the key itself otherwise. -/
theorem rbtree_search_strict (h : Run t xs) (query : ℕ) (hfuel : xs.length ≤ fuel) :
    ∃ x lt gt, rbtreeSearch fuel t query .exact = .ok x ∧
      rbtreeSearch fuel t query .nearestLt = .ok lt ∧
      rbtreeSearch fuel t query .nearestGt = .ok gt ∧
      (FirstOfKey t.valueOfNode query xs x → Answers t.valueOfNode query .nearestLt xs lt) ∧
      (¬ FirstOfKey t.valueOfNode query xs x → lt ∈ xs ∧ t.valueOfNode lt = query) ∧
      (LastOfKey t.valueOfNode query xs x → Answers t.valueOfNode query .nearestGt xs gt) ∧
      (¬ LastOfKey t.valueOfNode query xs x → gt ∈ xs ∧ t.valueOfNode gt = query) ∧
      ((xs.map t.valueOfNode).count query ≤ 1 →
        FirstOfKey t.valueOfNode query xs x ∧ LastOfKey t.valueOfNode query xs x) := by
  obtain ⟨hholds, hsorted⟩ := run_holds h
  have hzero : ∀ y ∈ xs, y ≠ 0 := fun y hy => holds_ne_zero hholds hy
  have hnd := holds_nodup hholds
  obtain ⟨x, lt, gt, hfound, hexact, hlesser, hgreater⟩ :=
    rbtreeSearch_found hholds hsorted query hfuel
  exact ⟨x, lt, gt, hexact, hlesser false, hgreater false, found_below hfound hsorted hzero,
    found_not_below hfound hsorted hnd, found_above hfound hsorted hzero,
    found_not_above hfound hsorted hnd, only_of_key fun hx => found_key hfound hx hzero⟩

def fives : ℕ → ℕ := fun x => if x = 8 then 7 else 5

/-- Below 7 the search finds a 5, however many there are. -/
theorem fives_below_seven : ∃ t, insertAll 4 ⟨0, fun _ => ⟨9, 8, 7⟩, fives⟩ [2, 4, 8, 6] = .ok t ∧
    Run t [2, 4, 6, 8] ∧ ∃ lt, rbtreeSearch 4 t 7 .nearestLt = .ok lt ∧
      Answers t.valueOfNode 7 .nearestLt [2, 4, 6, 8] lt := by
  obtain ⟨t, hok, hvalue, hrun⟩ := run_insertAll (.start (fun _ => ⟨9, 8, 7⟩) fives)
    (show ∀ x ∈ [2, 4, 8, 6], x ∉ [] ∧ x ≠ 0 ∧ x % 2 = 0 by decide) (by decide)
    (show ([] : List ℕ).length + [2, 4, 8, 6].length ≤ 4 by decide)
  have hrun' : Run t [2, 4, 6, 8] := hrun
  obtain ⟨x, lt, gt, -, hlt, -, hanswers, -, -, -, honly⟩ :=
    rbtree_search_strict hrun' 7 (show [2, 4, 6, 8].length ≤ 4 by decide)
  have hcount : ([2, 4, 6, 8].map t.valueOfNode).count 7 ≤ 1 := by
    rw [hvalue]
    decide
  exact ⟨t, hok, hrun', lt, hlt, hanswers (honly hcount).1⟩

/-- The third 5 rotates the second to the root: both strict searches return a 5. -/
theorem fives_not_strict : ∃ t, insertAll 3 ⟨0, fun _ => ⟨9, 8, 7⟩, fives⟩ [2, 4, 6] = .ok t ∧
    Run t [2, 4, 6] ∧ rbtreeSearch 3 t 5 .nearestLt = .ok 2 ∧
      rbtreeSearch 3 t 5 .nearestGt = .ok 6 ∧ t.valueOfNode 2 = 5 ∧ t.valueOfNode 6 = 5 := by
  obtain ⟨t, hok, hvalue, hrun⟩ := run_insertAll (.start (fun _ => ⟨9, 8, 7⟩) fives)
    (show ∀ x ∈ [2, 4, 6], x ∉ [] ∧ x ≠ 0 ∧ x % 2 = 0 by decide) (by decide)
    (show ([] : List ℕ).length + [2, 4, 6].length ≤ 3 by decide)
  have hlt : (insertAll 3 ⟨0, fun _ => ⟨9, 8, 7⟩, fives⟩ [2, 4, 6] >>= fun t =>
      rbtreeSearch 3 t 5 .nearestLt) = .ok 2 := by decide +kernel
  have hgt : (insertAll 3 ⟨0, fun _ => ⟨9, 8, 7⟩, fives⟩ [2, 4, 6] >>= fun t =>
      rbtreeSearch 3 t 5 .nearestGt) = .ok 6 := by decide +kernel
  rw [hok] at hlt hgt
  exact ⟨t, hok, hrun, hlt, hgt, by rw [hvalue]; rfl, by rw [hvalue]; rfl⟩

end Ordered

section Nearest

/-- The nearest node so far: it is at distance `best`, and no node passed is nearer. -/
structure Best (v : ℕ → ℕ) (query : ℕ) (xs seen : List ℕ) (nearest best : ℕ) : Prop where
  least : ∀ y ∈ seen, best ≤ keyDistance query (v y)
  node : nearest = 0 ∧ best = word - 1 ∨
    nearest ≠ 0 ∧ nearest ∈ xs ∧ keyDistance query (v nearest) = best ∧ best < word - 1

theorem Best.visit (h : Best v query xs seen nearest best) (ha : a ≠ 0) (hmem : a ∈ xs)
    (hseen : ∀ y ∈ seen', y ∈ seen ∨ keyDistance query (v a) ≤ keyDistance query (v y)) :
    Best v query xs seen'
      (if keyDistance query (v a) < best then (a, keyDistance query (v a)) else (nearest, best)).1
      (if keyDistance query (v a) < best then (a, keyDistance query (v a)) else
      (nearest, best)).2 := by
  have hbest : best ≤ word - 1 := by
    rcases h.node with ⟨-, heq⟩ | ⟨-, -, -, hlt⟩
    · exact heq.le
    · exact hlt.le
  by_cases hlt : keyDistance query (v a) < best
  · simp only [if_pos hlt]
    refine ⟨fun y hy => ?_, .inr ⟨ha, hmem, rfl, hlt.trans_le hbest⟩⟩
    rcases hseen y hy with hy | hle
    · exact hlt.le.trans (h.least y hy)
    · exact hle
  · simp only [if_neg hlt]
    refine ⟨fun y hy => ?_, h.node⟩
    rcases hseen y hy with hy | hle
    · exact h.least y hy
    · exact (not_lt.1 hlt).trans hle

/-- The result of `rbtree_search_nearest`: null if every node is at the greatest distance. -/
def Nearest (v : ℕ → ℕ) (query : ℕ) (xs : List ℕ) (r : ℕ) : Prop :=
  r = 0 ∧ (∀ y ∈ xs, word - 1 ≤ keyDistance query (v y)) ∨
    r ≠ 0 ∧ r ∈ xs ∧ keyDistance query (v r) < word - 1 ∧
      ∀ y ∈ xs, keyDistance query (v r) ≤ keyDistance query (v y)

theorem keyDistance_above (h : query ≤ j) (hle : j ≤ k) :
    keyDistance query j ≤ keyDistance query k := by
  unfold keyDistance
  split_ifs <;> omega

theorem keyDistance_below (h : j ≤ query) (hle : k ≤ j) :
    keyDistance query j ≤ keyDistance query k := by
  unfold keyDistance
  split_ifs <;> omega

/-- Only nodes no nearer than the one visited are left aside. -/
theorem searchNearestLoop_spec (h : Path t query pre s post) (hxs : pre ++ addrs s ++ post = xs)
    (hbest : Best t.valueOfNode query xs (pre ++ post) nearest best)
    (hfuel : (inorder s).length ≤ fuel) :
    ∃ r, searchNearestLoop t query fuel (links.ptr s) nearest best = .ok r ∧
      Nearest t.valueOfNode query xs r := by
  refine h.search (motive := fun fuel pre s post => ∀ nearest best, pre ++ addrs s ++ post = xs →
    Best t.valueOfNode query xs (pre ++ post) nearest best →
    ∃ r, searchNearestLoop t query fuel (links.ptr s) nearest best = .ok r ∧
      Nearest t.valueOfNode query xs r) ?_ ?_ ?_ ?_ hfuel nearest best hxs hbest
  · intro fuel pre post h nearest best hxs hbest
    refine ⟨nearest, by cases fuel <;> simp [searchNearestLoop], ?_⟩
    have hall : pre ++ post = xs := by simpa [addrs] using hxs
    rw [hall] at hbest
    rcases hbest.node with ⟨h0, heq⟩ | ⟨h0, hmem, heq, hlt⟩
    · exact .inl ⟨h0, heq ▸ hbest.least⟩
    · exact .inr ⟨h0, hmem, heq ▸ hlt, heq ▸ hbest.least⟩
  · intro fuel pre a l r post h hlt ih nearest best hxs hbest
    rw [Layout.ptr_node, links_addr, searchNearestLoop, if_neg h.node.1]
    simp only [if_pos hlt, h.node.2.1]
    refine ih _ _ (by simpa [addrs_node] using hxs) (hbest.visit h.node.1 ?_ fun y hy => ?_)
    · simp [← hxs, addrs_node]
    · rcases List.mem_append.1 hy with hy | hy
      · exact .inl (List.mem_append_left _ hy)
      · rcases List.mem_cons.1 hy with rfl | hy
        · exact .inr le_rfl
        · exact .inr (keyDistance_above hlt.le (h.around.2 y hy))
  · intro fuel pre a l r post h hgt ih nearest best hxs hbest
    rw [Layout.ptr_node, links_addr, searchNearestLoop, if_neg h.node.1]
    simp only [if_neg hgt.le.not_gt, if_pos hgt, h.node.2.2]
    refine ih _ _ (by simpa [addrs_node] using hxs) (hbest.visit h.node.1 ?_ fun y hy => ?_)
    · simp [← hxs, addrs_node]
    · rcases List.mem_append.1 hy with hy | hy
      · rcases List.mem_append.1 hy with hy | hy
        · exact .inr (keyDistance_below hgt.le (h.around.1 y hy))
        · exact .inr (List.mem_singleton.1 hy ▸ le_rfl)
      · exact .inl (List.mem_append_right _ hy)
  · intro fuel pre a l r post h heq _ _ nearest best hxs hbest
    rw [Layout.ptr_node, links_addr, searchNearestLoop, if_neg h.node.1]
    have hzero : keyDistance query (t.valueOfNode a.addr) = 0 := by simp [keyDistance, heq]
    refine ⟨a.addr, by simp only [heq, lt_self_iff_false, if_false], .inr ⟨h.node.1, ?_, ?_, ?_⟩⟩
    · simp [← hxs, addrs_node]
    · rw [hzero]
      decide
    · exact fun y _ => hzero ▸ Nat.zero_le _

/-- The search returns a nearest node exactly if some node is nearer than `UINT64_MAX`. -/
theorem rbtree_search_nearest_iff (h : Run t xs) (query : ℕ) (hfuel : xs.length ≤ fuel) :
    ∃ r, rbtreeSearch fuel t query .nearest = .ok r ∧
      ((r ≠ 0 ∧ r ∈ xs ∧
          ∀ y ∈ xs, keyDistance query (t.valueOfNode r) ≤ keyDistance query (t.valueOfNode y)) ↔
        ∃ y ∈ xs, keyDistance query (t.valueOfNode y) < word - 1) := by
  obtain ⟨⟨s, hlink, -, rfl⟩, hsorted⟩ := run_holds h
  have hlen : (inorder s).length ≤ fuel := by simpa [addrs] using hfuel
  have hstart : Best t.valueOfNode query (addrs s) [] 0 (word - 1) := ⟨by simp, .inl ⟨rfl, rfl⟩⟩
  obtain ⟨r, hok, hr⟩ := searchNearestLoop_spec (Path.start hlink hsorted query)
    (by simp) hstart hlen
  refine ⟨r, by rw [rbtreeSearch, rbtreeSearchNearest, hlink.root, hok], ?_⟩
  rcases hr with ⟨rfl, hall⟩ | ⟨h0, hmem, hlt, hmin⟩
  · simp only [ne_eq, not_true_eq_false, false_and, false_iff, not_exists, not_and, not_lt]
    exact hall
  · exact iff_of_true ⟨h0, hmem, hmin⟩ ⟨r, hmem, hlt⟩

theorem nearest_to_five : ∃ t, rbtreeInsert 2 ⟨0, fun _ => ⟨9, 8, 7⟩, twoKeys⟩ 2 = .ok t ∧
    Run t [2] ∧ ∃ r, rbtreeSearch 2 t 5 .nearest = .ok r ∧ r ≠ 0 ∧ r ∈ [2] ∧
      ∀ y ∈ [2], keyDistance 5 (t.valueOfNode r) ≤ keyDistance 5 (t.valueOfNode y) := by
  have h₁ : Run _ [2] := .insert (.start (fun _ => ⟨9, 8, 7⟩) twoKeys)
    (by decide) (by decide) (by decide) (by decide) (show rbtreeInsert 2 _ 2 = .ok _ from rfl)
  obtain ⟨r, hok, hr⟩ := rbtree_search_nearest_iff h₁ 5 (show [2].length ≤ 2 by decide)
  exact ⟨_, rfl, h₁, r, hok, hr.2 ⟨2, by decide, by decide⟩⟩

/-- A tree that holds the key 0 only answers the query `UINT64_MAX` with null. -/
theorem only_node_missed : ∃ t, rbtreeInsert 2 ⟨0, fun _ => ⟨9, 8, 7⟩, twoKeys⟩ 2 = .ok t ∧
    Run t [2] ∧ t.valueOfNode 2 = 0 ∧ rbtreeSearch 2 t (word - 1) .nearest = .ok 0 := by
  have h₁ : Run _ [2] := .insert (.start (fun _ => ⟨9, 8, 7⟩) twoKeys)
    (by decide) (by decide) (by decide) (by decide) (show rbtreeInsert 2 _ 2 = .ok _ from rfl)
  exact ⟨_, rfl, h₁, rfl, rfl⟩

end Nearest

end DstructRbtreeQueries
