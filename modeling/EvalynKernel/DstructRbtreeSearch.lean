import EvalynKernel.DstructRbtreeInsert

/-! # Searching the red-black tree

The searches of `rbtree_search` walk down one path. The nodes passed on the left have
smaller keys than the query, those passed on the right larger ones. -/
namespace DstructRbtreeSearch

open LinkedTrees DstructRbtree DstructRbtreeLinks DstructRbtreeInsert

/-- `r` is a node of greatest key at most `query`, or null if there is none. -/
def NearestLte (v : ℕ → ℕ) (query : ℕ) (xs : List ℕ) (r : ℕ) : Prop :=
  r = 0 ∧ (∀ y ∈ xs, query < v y) ∨
    r ∈ xs ∧ v r ≤ query ∧ ∀ y ∈ xs, v y ≤ query → v y ≤ v r

def Exact (v : ℕ → ℕ) (query : ℕ) (xs : List ℕ) (r : ℕ) : Prop :=
  r = 0 ∧ (∀ y ∈ xs, v y ≠ query) ∨ r ≠ 0 ∧ r ∈ xs ∧ v r = query

theorem addrs_node (a : Item) (l r : BinaryTree Item) :
    addrs (.node a l r) = addrs l ++ a.addr :: addrs r := by simp [addrs]

theorem holds_ne_zero (h : Holds t xs) (hy : y ∈ xs) : y ≠ 0 := by
  obtain ⟨s, hlink, -, rfl⟩ := h
  exact Layout.Rep.ne_zero hlink.rep hy

theorem holds_nodup (h : Holds t xs) : xs.Nodup := by
  obtain ⟨s, hlink, -, rfl⟩ := h
  exact hlink.nodup

theorem split_unique (h : as ++ x :: bs = cs ++ x :: ds) (hnd : (as ++ x :: bs).Nodup) :
    as = cs ∧ bs = ds := by
  rw [List.nodup_middle, List.nodup_cons, List.mem_append, not_or] at hnd
  obtain ⟨hleft, -, hright⟩ := (List.append_cons_inj_of_notMem hnd.1.1 hnd.1.2).1 h
  exact ⟨hleft, hright⟩

/-- The subtree `s` is left to search between the nodes passed on either side. -/
structure Path (t : Tree) (query : ℕ) (pre : List ℕ) (s : BinaryTree Item) (post : List ℕ) :
    Prop where
  rep : ∃ p, links.Rep t.nodes p s
  sorted : Sorted t.valueOfNode (pre ++ addrs s ++ post)
  below : ∀ y ∈ pre, t.valueOfNode y < query
  above : ∀ y ∈ post, query < t.valueOfNode y

variable {t : Tree} {fuel query : ℕ} {a : Item} {s l r : BinaryTree Item} {xs pre post : List ℕ}

theorem Path.start (hlink : Linked t s) (hsorted : Sorted t.valueOfNode (addrs s)) (query : ℕ) :
    Path t query [] s [] := by
  refine ⟨⟨0, hlink.rep⟩, ?_, by simp, by simp⟩
  rwa [List.nil_append, List.append_nil]

section Visit

variable (h : Path t query pre (.node a l r) post)

include h

theorem Path.node : a.addr ≠ 0 ∧ (t.nodes a.addr).left = links.ptr l ∧
    (t.nodes a.addr).right = links.ptr r := by
  obtain ⟨p, hrep⟩ := h.rep
  exact ⟨hrep.1, hrep.2.1, hrep.2.2.1⟩

theorem Path.reps : (∃ p, links.Rep t.nodes p l) ∧ ∃ p, links.Rep t.nodes p r := by
  obtain ⟨p, hrep⟩ := h.rep
  exact ⟨⟨_, hrep.2.2.2.2.1⟩, ⟨_, hrep.2.2.2.2.2⟩⟩

theorem Path.around : (∀ y ∈ pre ++ addrs l, t.valueOfNode y ≤ t.valueOfNode a.addr) ∧
    ∀ y ∈ addrs r ++ post, t.valueOfNode a.addr ≤ t.valueOfNode y := by
  have hsorted := h.sorted
  rw [addrs_node, show pre ++ (addrs l ++ a.addr :: addrs r) ++ post =
    (pre ++ addrs l) ++ a.addr :: (addrs r ++ post) by simp] at hsorted
  obtain ⟨-, hafter, hcross⟩ := List.pairwise_append.1 hsorted
  constructor
  · intro y hy
    exact hcross y hy _ List.mem_cons_self
  · exact (List.pairwise_cons.1 hafter).1

theorem Path.goLeft (hlt : query < t.valueOfNode a.addr) :
    Path t query pre l (a.addr :: (addrs r ++ post)) := by
  refine ⟨h.reps.1, ?_, h.below, ?_⟩
  · have hsorted := h.sorted
    rw [addrs_node] at hsorted
    simpa using hsorted
  · intro y hy
    rcases List.mem_cons.1 hy with rfl | hy
    · exact hlt
    · exact hlt.trans_le (h.around.2 y hy)

theorem Path.goRight (hlt : t.valueOfNode a.addr < query) :
    Path t query (pre ++ addrs l ++ [a.addr]) r post := by
  refine ⟨h.reps.2, ?_, ?_, h.above⟩
  · have hsorted := h.sorted
    rw [addrs_node] at hsorted
    simpa using hsorted
  · intro y hy
    rcases List.mem_append.1 hy with hy | hy
    · exact (h.around.1 y hy).trans_lt hlt
    · rwa [List.mem_singleton.1 hy]

end Visit

/-- The induction behind every search: it ends at a leaf or at a node of the key, and goes
to the side of the key otherwise. -/
theorem Path.search {motive : ℕ → List ℕ → BinaryTree Item → List ℕ → Prop}
    (leaf : ∀ {fuel pre post}, Path t query pre .nil post → motive fuel pre .nil post)
    (left : ∀ {fuel pre a l r post}, Path t query pre (.node a l r) post →
      query < t.valueOfNode a.addr → motive fuel pre l (a.addr :: (addrs r ++ post)) →
      motive (fuel + 1) pre (.node a l r) post)
    (right : ∀ {fuel pre a l r post}, Path t query pre (.node a l r) post →
      t.valueOfNode a.addr < query → motive fuel (pre ++ addrs l ++ [a.addr]) r post →
      motive (fuel + 1) pre (.node a l r) post)
    (hit : ∀ {fuel pre a l r post}, Path t query pre (.node a l r) post →
      t.valueOfNode a.addr = query → (inorder l).length ≤ fuel → (inorder r).length ≤ fuel →
      motive (fuel + 1) pre (.node a l r) post)
    (h : Path t query pre s post) (hfuel : (inorder s).length ≤ fuel) : motive fuel pre s post := by
  induction s generalizing fuel pre post with
  | nil => exact leaf h
  | node a l r ihl ihr =>
    simp only [inorder_node, List.length_append, List.length_cons] at hfuel
    obtain ⟨fuel, rfl⟩ : ∃ n, fuel = n + 1 := ⟨fuel - 1, by omega⟩
    rcases Nat.lt_trichotomy query (t.valueOfNode a.addr) with hlt | heq | hgt
    · exact left h hlt (ihl (h.goLeft hlt) (by omega))
    · exact hit h heq.symm (by omega) (by omega)
    · exact right h hgt (ihr (h.goRight hgt) (by omega))

section Ends

theorem getLastD_append_of_ne_nil (xs : List ℕ) (h : ys ≠ []) :
    (xs ++ ys).getLastD 0 = ys.getLastD 0 := by
  obtain rfl | ⟨zs, y, rfl⟩ := List.eq_nil_or_concat ys
  · exact (h rfl).elim
  · rw [List.concat_eq_append, ← List.append_assoc, List.getLastD_concat, List.getLastD_concat]

theorem addrs_ne_nil (a : Item) (l r : BinaryTree Item) : addrs (.node a l r) ≠ [] := by
  simp [addrs_node]

theorem rbtreeMaximum_last (h : links.Rep t.nodes p s) (hfuel : (inorder s).length ≤ fuel) :
    rbtreeMaximum t fuel (links.ptr s) = .ok ((addrs s).getLastD 0) := by
  induction s generalizing p fuel with
  | nil => cases fuel <;> simp [rbtreeMaximum, addrs]
  | node a l r _ ihr =>
    obtain ⟨ha0, -, hright, -, -, hr⟩ := h
    have hright' : (t.nodes a.addr).right = links.ptr r := hright
    have ha0' : a.addr ≠ 0 := ha0
    simp only [inorder_node, List.length_append, List.length_cons] at hfuel
    obtain ⟨fuel, rfl⟩ : ∃ n, fuel = n + 1 := ⟨fuel - 1, by omega⟩
    rw [Layout.ptr_node, links_addr, rbtreeMaximum, hright']
    cases r with
    | nil => simp [addrs]
    | node b rl rr =>
      rw [if_neg (by simp only [not_or]; exact ⟨ha0', hr.1⟩), ihr hr (by omega), addrs_node a,
        List.append_cons, getLastD_append_of_ne_nil _ (addrs_ne_nil b rl rr)]

theorem rbtreeMinimum_head (h : links.Rep t.nodes p s) (hfuel : (inorder s).length ≤ fuel) :
    rbtreeMinimum t fuel (links.ptr s) = .ok ((addrs s).headD 0) := by
  induction s generalizing p fuel with
  | nil => cases fuel <;> simp [rbtreeMinimum, addrs]
  | node a l r ihl _ =>
    obtain ⟨ha0, hleft, -, -, hl, -⟩ := h
    have hleft' : (t.nodes a.addr).left = links.ptr l := hleft
    have ha0' : a.addr ≠ 0 := ha0
    simp only [inorder_node, List.length_append, List.length_cons] at hfuel
    obtain ⟨fuel, rfl⟩ : ∃ n, fuel = n + 1 := ⟨fuel - 1, by omega⟩
    rw [Layout.ptr_node, links_addr, rbtreeMinimum, hleft']
    cases l with
    | nil => simp [addrs]
    | node b ll lr =>
      rw [if_neg (by simp only [not_or]; exact ⟨ha0', hl.1⟩), ihl hl (by omega), addrs_node a,
        addrs_node b]
      cases addrs ll <;> rfl

end Ends

section Loops

/-- How the searches end: at a node of the key, if they meet one, or between the nodes below
the key and those above it. The last two arguments are the neighbours of that place. -/
inductive Found (v : ℕ → ℕ) (query : ℕ) (xs : List ℕ) : ℕ → ℕ → ℕ → Prop
  | miss {lo hi : List ℕ} : xs = lo ++ hi → (∀ y ∈ lo, v y < query) → (∀ y ∈ hi, query < v y) →
      Found v query xs 0 (lo.getLastD 0) (hi.headD 0)
  | hit {lo hi : List ℕ} {x : ℕ} : xs = lo ++ x :: hi → x ≠ 0 → v x = query →
      Found v query xs x (lo.getLastD 0) (hi.headD 0)

def choose (findEqual : Bool) (x neighbour : ℕ) : ℕ :=
  if findEqual = true ∧ x ≠ 0 then x else neighbour

/-- The results of the three loops at `node`, reached between the given candidates. -/
structure Loops (t : Tree) (query fuel node lesser greater x lt gt : ℕ) : Prop where
  exact : searchExactLoop t query fuel node = .ok x
  lesser : ∀ findEqual, searchLesserLoop t query findEqual fuel node lesser =
    .ok (choose findEqual x lt)
  greater : ∀ findEqual, searchGreaterLoop t query findEqual fuel node greater =
    .ok (choose findEqual x gt)

theorem searchLoops_spec (h : Path t query pre s post) (hfuel : (inorder s).length ≤ fuel) :
    ∃ x lt gt, Loops t query fuel (links.ptr s) (pre.getLastD 0) (post.headD 0) x lt gt ∧
      Found t.valueOfNode query (pre ++ addrs s ++ post) x lt gt := by
  refine h.search (motive := fun fuel pre s post => ∃ x lt gt,
    Loops t query fuel (links.ptr s) (pre.getLastD 0) (post.headD 0) x lt gt ∧
      Found t.valueOfNode query (pre ++ addrs s ++ post) x lt gt) ?_ ?_ ?_ ?_ hfuel
  · intro fuel pre post h
    refine ⟨0, pre.getLastD 0, post.headD 0, ⟨?_, fun e => ?_, fun e => ?_⟩,
      .miss (by simp [addrs]) h.below h.above⟩
    · cases fuel <;> simp [searchExactLoop]
    · cases fuel <;> simp [searchLesserLoop, choose]
    · cases fuel <;> simp [searchGreaterLoop, choose]
  · rintro fuel pre a l r post h hlt ⟨x, lt, gt, hloops, hfound⟩
    refine ⟨x, lt, gt, ⟨?_, fun e => ?_, fun e => ?_⟩, by simpa [addrs_node] using hfound⟩
    · rw [Layout.ptr_node, links_addr, searchExactLoop, if_neg h.node.1]
      simp only [if_pos hlt, h.node.2.1, hloops.exact]
    · rw [Layout.ptr_node, links_addr, searchLesserLoop, if_neg h.node.1]
      simp only [if_neg hlt.le.not_gt, if_pos hlt, h.node.2.1, hloops.lesser]
    · have hgreater := hloops.greater e
      rw [List.headD_cons] at hgreater
      rw [Layout.ptr_node, links_addr, searchGreaterLoop, if_neg h.node.1]
      simp only [if_pos hlt, h.node.2.1, hgreater]
  · rintro fuel pre a l r post h hgt ⟨x, lt, gt, hloops, hfound⟩
    refine ⟨x, lt, gt, ⟨?_, fun e => ?_, fun e => ?_⟩, by simpa [addrs_node] using hfound⟩
    · rw [Layout.ptr_node, links_addr, searchExactLoop, if_neg h.node.1]
      simp only [if_neg hgt.le.not_gt, if_pos hgt, h.node.2.2, hloops.exact]
    · have hlesser := hloops.lesser e
      rw [List.getLastD_concat] at hlesser
      rw [Layout.ptr_node, links_addr, searchLesserLoop, if_neg h.node.1]
      simp only [if_pos hgt, h.node.2.2, hlesser]
    · rw [Layout.ptr_node, links_addr, searchGreaterLoop, if_neg h.node.1]
      simp only [if_neg hgt.le.not_gt, if_pos hgt, h.node.2.2, hloops.greater]
  · intro fuel pre a l r post h heq hl hr
    obtain ⟨⟨p, hrepl⟩, ⟨q, hrepr⟩⟩ := h.reps
    have hfound : Found t.valueOfNode query (pre ++ addrs (.node a l r) ++ post) a.addr
        ((pre ++ addrs l).getLastD 0) ((addrs r ++ post).headD 0) :=
      .hit (by simp [addrs_node]) h.node.1 heq
    refine ⟨_, _, _, ⟨?_, fun e => ?_, fun e => ?_⟩, hfound⟩
    · rw [Layout.ptr_node, links_addr, searchExactLoop, if_neg h.node.1]
      simp only [heq, lt_self_iff_false, if_false]
    · rw [Layout.ptr_node, links_addr, searchLesserLoop, if_neg h.node.1]
      simp only [heq, lt_self_iff_false, if_false, h.node.2.1]
      cases e with
      | true => simp [choose, h.node.1]
      | false =>
        cases l with
        | nil => simp [choose, addrs]
        | node b ll lr =>
          have hb : links.ptr (.node b ll lr) ≠ 0 := hrepl.1
          simp only [choose, Bool.false_eq_true, false_and, if_false, if_pos hb,
            rbtreeMaximum_last hrepl hl]
          rw [getLastD_append_of_ne_nil _ (addrs_ne_nil b ll lr)]
    · rw [Layout.ptr_node, links_addr, searchGreaterLoop, if_neg h.node.1]
      simp only [heq, lt_self_iff_false, if_false, h.node.2.2]
      cases e with
      | true => simp [choose, h.node.1]
      | false =>
        cases r with
        | nil => simp [choose, addrs]
        | node b rl rr =>
          have hb : links.ptr (.node b rl rr) ≠ 0 := hrepr.1
          simp only [choose, Bool.false_eq_true, false_and, if_false, if_pos hb,
            rbtreeMinimum_head hrepr hr]
          rw [addrs_node]
          cases addrs rl <;> rfl

/-- The ordered searches of one query all end at the same place. -/
theorem rbtreeSearch_found (h : Holds t xs) (hsorted : Sorted t.valueOfNode xs) (query : ℕ)
    (hfuel : xs.length ≤ fuel) :
    ∃ x lt gt, Found t.valueOfNode query xs x lt gt ∧ rbtreeSearchExact fuel t query = .ok x ∧
      (∀ findEqual, rbtreeSearchLesser fuel t query findEqual = .ok (choose findEqual x lt)) ∧
      ∀ findEqual, rbtreeSearchGreater fuel t query findEqual = .ok (choose findEqual x gt) := by
  obtain ⟨s, hlink, -, rfl⟩ := h
  have hlen : (inorder s).length ≤ fuel := by simpa [addrs] using hfuel
  obtain ⟨x, lt, gt, hloops, hfound⟩ := searchLoops_spec (Path.start hlink hsorted query) hlen
  rw [List.nil_append, List.append_nil] at hfound
  rw [← hlink.root] at hloops
  exact ⟨x, lt, gt, hfound, hloops.exact, hloops.lesser, hloops.greater⟩

end Loops

section Results

theorem rbtreeSearchExact_spec (h : Holds t xs) (hsorted : Sorted t.valueOfNode xs) (query : ℕ)
    (hfuel : xs.length ≤ fuel) :
    ∃ r, rbtreeSearchExact fuel t query = .ok r ∧ Exact t.valueOfNode query xs r := by
  obtain ⟨x, lt, gt, hfound, hok, -, -⟩ := rbtreeSearch_found h hsorted query hfuel
  refine ⟨x, hok, ?_⟩
  cases hfound with
  | miss hxs hlo hhi =>
    refine .inl ⟨rfl, fun y hy => ?_⟩
    rcases List.mem_append.1 (hxs ▸ hy) with hy | hy
    · exact (hlo y hy).ne
    · exact (hhi y hy).ne'
  | hit hxs h0 heq => exact .inr ⟨h0, by simp [hxs], heq⟩

theorem last_greatest (h : Sorted v lo) :
    lo = [] ∨ lo.getLastD 0 ∈ lo ∧ ∀ y ∈ lo, v y ≤ v (lo.getLastD 0) := by
  rcases List.eq_nil_or_concat lo with rfl | ⟨ys, x, rfl⟩
  · exact .inl rfl
  · right
    rw [List.concat_eq_append] at h ⊢
    rw [List.getLastD_concat]
    refine ⟨by simp, fun y hy => ?_⟩
    rcases List.mem_append.1 hy with hy | hy
    · exact (List.pairwise_append.1 h).2.2 y hy x (by simp)
    · rw [List.mem_singleton.1 hy]

theorem rbtreeSearchLesser_spec (h : Holds t xs) (hsorted : Sorted t.valueOfNode xs) (query : ℕ)
    (hfuel : xs.length ≤ fuel) :
    ∃ r, rbtreeSearchLesser fuel t query true = .ok r ∧ NearestLte t.valueOfNode query xs r := by
  obtain ⟨x, lt, gt, hfound, -, hok, -⟩ := rbtreeSearch_found h hsorted query hfuel
  refine ⟨_, hok true, ?_⟩
  cases hfound with
  | hit hxs h0 heq =>
    rw [choose, if_pos ⟨rfl, h0⟩]
    exact .inr ⟨by simp [hxs], heq.le, fun y _ hle => heq ▸ hle⟩
  | @miss lo hi hxs hlo hhi =>
    rw [choose, if_neg fun hc => hc.2 rfl]
    subst hxs
    rcases last_greatest (List.pairwise_append.1 hsorted).1 with rfl | ⟨hmem, hmax⟩
    · exact .inl ⟨rfl, by simpa using hhi⟩
    · refine .inr ⟨List.mem_append_left _ hmem, (hlo _ hmem).le, fun y hy hle => ?_⟩
      rcases List.mem_append.1 hy with hy | hy
      · exact hmax y hy
      · exact absurd hle (hhi y hy).not_ge

end Results

end DstructRbtreeSearch
