import EvalynKernel.DstructRbtreeSearch
import EvalynKernel.DstructRbtreeRuns

/-! # Iteration over the red-black tree (`RBTREE_FOR_EACH` and its variants)

The macros start at one end of the tree and go on with `rbtree_successor` or, in reverse,
`rbtree_predecessor`. The safe ones fetch the next node before the body runs, which may then
remove the node it is at. -/
namespace DstructRbtreeIteration

open MachineWords LinkedTrees DstructRbtree DstructRbtreeLinks DstructRbtreeInsert
open DstructRbtreeSearch DstructRbtreeRuns

def visitFrom (step : ℕ → Exec ℕ) : ℕ → ℕ → Exec (List ℕ)
  | rounds, it =>
    if it = 0 then .ok [] else
      match rounds with
      | 0 => .error .fuel
      | rounds + 1 => do
        let next ← step it
        return it :: (← visitFrom step rounds next)

def rbtreeForEach (fuel : ℕ) (t : Tree) : Exec (List ℕ) := do
  visitFrom (rbtreeSuccessor fuel t) fuel (← rbtreeMinimum t fuel t.root)

def rbtreeForEachReverse (fuel : ℕ) (t : Tree) : Exec (List ℕ) := do
  visitFrom (rbtreePredecessor fuel t) fuel (← rbtreeMaximum t fuel t.root)

/-- `RBTREE_SUCCESSOR_OR_NULL` and `RBTREE_PREDECESSOR_OR_NULL`. -/
def orNull (step : ℕ → Exec ℕ) (node : ℕ) : Exec ℕ := if node ≠ 0 then step node else .ok 0

section Safe

variable {σ : Type}

/-- The loop of the safe macros from `it` on, with `nx` fetched. The body works on a state of
its own and on the tree. -/
def visitSafe (step : Tree → ℕ → Exec ℕ) (body : σ → Tree → ℕ → Exec (σ × Tree)) :
    ℕ → σ → Tree → ℕ → ℕ → Exec (List ℕ × σ × Tree)
  | rounds, s, t, it, nx =>
    if it = 0 then .ok ([], s, t) else
      match rounds with
      | 0 => .error .fuel
      | rounds + 1 => do
        let (s, t) ← body s t it
        let next ← orNull (step t) nx
        let (visited, s, t) ← visitSafe step body rounds s t nx next
        return (it :: visited, s, t)

def rbtreeForEachSafe (fuel : ℕ) (body : σ → Tree → ℕ → Exec (σ × Tree)) (s : σ) (t : Tree) :
    Exec (List ℕ × σ × Tree) := do
  let it ← rbtreeMinimum t fuel t.root
  let nx ← orNull (rbtreeSuccessor fuel t) it
  visitSafe (rbtreeSuccessor fuel) body fuel s t it nx

def rbtreeForEachReverseSafe (fuel : ℕ) (body : σ → Tree → ℕ → Exec (σ × Tree)) (s : σ) (t : Tree) :
    Exec (List ℕ × σ × Tree) := do
  let it ← rbtreeMaximum t fuel t.root
  let px ← orNull (rbtreePredecessor fuel t) it
  visitSafe (rbtreePredecessor fuel) body fuel s t it px

end Safe

variable {t : Tree} {c : List (Frame Item)} {d e : Side} {i : Item} {s o l r : BinaryTree Item}
  {fuel : ℕ} {xs as bs : List ℕ} {y : ℕ}

section Neighbours

/-- The nodes of a context on the other side of its hole than `d`, the nearest first. -/
def beyond (c : List (Frame Item)) : Side → List ℕ
  | .right => (after c).map Item.addr
  | .left => ((before c).map Item.addr).reverse

variable {f : Frame Item}

theorem beyond_same (h : f.side = d) : beyond (f :: c) d = beyond c d := by
  cases d <;> simp [beyond, before, after, Frame.before, Frame.after, h]

theorem beyond_flip (h : f.side ≠ d) : (beyond (f :: c) d).headD 0 = f.item.addr := by
  cases d <;> cases hf : f.side <;>
    simp_all [beyond, before, after, Frame.before, Frame.after]

/-- The walk up ends at the first ancestor that the subtree does not hang from on side `d`. -/
theorem climbLoop_beyond (h : Linked t (plug c (branch e i s o))) (hfuel : c.length ≤ fuel) :
    climbLoop t d fuel i.addr (links.hole 0 c) = .ok ((beyond c d).headD 0) := by
  induction c generalizing e i s o fuel with
  | nil => cases fuel <;> cases d <;> simp [climbLoop, Layout.hole, beyond, before, after]
  | cons f c ih =>
    have hf : Linked t (plug c (branch f.side f.item (branch e i s o) f.other)) := h
    have hhole : links.hole 0 (f :: c) = f.item.addr := rfl
    obtain ⟨hne, hside, hother, -⟩ := hf.cell
    rw [Layout.ptr_branch, links_addr] at hside
    rw [List.length_cons] at hfuel
    obtain ⟨fuel, rfl⟩ : ∃ n, fuel = n + 1 := ⟨fuel - 1, by omega⟩
    rw [hhole, climbLoop]
    by_cases hd : f.side = d
    · rw [if_pos ⟨hne, by rw [← hd, hside]⟩, hf.getParent, ih hf (by omega), beyond_same hd]
    · have hflip : f.side.flip = d := by
        cases hf' : f.side <;> cases d <;> simp_all [Side.flip]
      rw [if_neg fun hc => hf.ne_other (by rw [hc.2, ← hflip, hother]), beyond_flip hd]

theorem focus_length (hfuel : (addrs (plug c (.node i l r))).length ≤ fuel) :
    c.length ≤ fuel ∧ (inorder l).length ≤ fuel ∧ (inorder r).length ≤ fuel := by
  have hlen := (focus_perm c .left i l r).length_eq
  have hc := length_le_around c
  simp only [branch, List.length_cons, List.length_append, List.length_map, addrs] at hlen hfuel
  omega

section

variable (h : Linked t (plug c (.node i l r)))
    (hfuel : (addrs (plug c (.node i l r))).length ≤ fuel)

include h hfuel

theorem rbtreeSuccessor_spec :
    rbtreeSuccessor fuel t i.addr = .ok ((addrs r ++ (after c).map Item.addr).headD 0) := by
  have hb : Linked t (plug c (branch .left i l r)) := h
  have hright : (t.nodes i.addr).right = links.ptr r := hb.cell.2.2.1
  obtain ⟨hc, -, hlen⟩ := focus_length hfuel
  rw [rbtreeSuccessor, hright]
  cases r with
  | nil =>
    rw [if_neg (by simp), hb.getParent, climbLoop_beyond hb hc]
    rfl
  | node a rl rr =>
    have hr := (Layout.rep_branch.1 (Layout.rep_plug.1 hb.rep).2).2.2.2.2.2
    have hptr : links.ptr (.node a rl rr) ≠ 0 := hr.1
    rw [if_pos hptr, rbtreeMinimum_head hr hlen]
    cases haddrs : addrs (.node a rl rr) with
    | nil => exact absurd haddrs (addrs_ne_nil a rl rr)
    | cons y ys => rfl

theorem rbtreePredecessor_spec :
    rbtreePredecessor fuel t i.addr = .ok (((before c).map Item.addr ++ addrs l).getLastD 0) := by
  have hb : Linked t (plug c (branch .left i l r)) := h
  have hleft : (t.nodes i.addr).left = links.ptr l := hb.cell.2.1
  obtain ⟨hc, hlen, -⟩ := focus_length hfuel
  rw [rbtreePredecessor, hleft]
  cases l with
  | nil =>
    rw [if_neg (by simp), hb.getParent, climbLoop_beyond hb hc]
    simp [beyond, addrs, List.headD_eq_head?_getD, List.getLastD_eq_getLast?]
  | node a ll lr =>
    have hl := (Layout.rep_branch.1 (Layout.rep_plug.1 hb.rep).2).2.2.2.2.1
    have hptr : links.ptr (.node a ll lr) ≠ 0 := hl.1
    rw [if_pos hptr, rbtreeMaximum_last hl hlen,
      getLastD_append_of_ne_nil _ (addrs_ne_nil a ll lr)]

end

theorem neighbours (h : Holds t (as ++ y :: bs)) (hfuel : (as ++ y :: bs).length ≤ fuel) :
    rbtreeSuccessor fuel t y = .ok (bs.headD 0) ∧
      rbtreePredecessor fuel t y = .ok (as.getLastD 0) := by
  obtain ⟨s, hlink, -, hs⟩ := h
  have hy : y ∈ addrs s := by simp [hs]
  obtain ⟨i, hi, rfl⟩ := List.mem_map.1 hy
  obtain ⟨c, l, r, rfl⟩ := exists_plug hi
  have hsplit : ((before c).map Item.addr ++ addrs l) ++ i.addr ::
      (addrs r ++ (after c).map Item.addr) = as ++ i.addr :: bs := by
    rw [← hs, addrs_plug, addrs_node]
    simp only [List.append_assoc, List.cons_append]
  obtain ⟨rfl, rfl⟩ := split_unique hsplit (hsplit ▸ hs ▸ hlink.nodup)
  rw [← hs] at hfuel
  exact ⟨rbtreeSuccessor_spec hlink hfuel, rbtreePredecessor_spec hlink hfuel⟩

end Neighbours

variable {ys : List ℕ} {rounds : ℕ}

section Directions

def toward (xs : List ℕ) : Side → List ℕ
  | .right => xs
  | .left => xs.reverse

def next (fuel : ℕ) : Side → Tree → ℕ → Exec ℕ
  | .right => rbtreeSuccessor fuel
  | .left => rbtreePredecessor fuel

def Follows (step : ℕ → Exec ℕ) (ys : List ℕ) : Prop :=
  ∀ as y bs, ys = as ++ y :: bs → y ≠ 0 ∧ step y = .ok (bs.headD 0)

theorem next_follows (h : Holds t xs) (hfuel : xs.length ≤ fuel) (d : Side) :
    Follows (next fuel d t) (toward xs d) := by
  intro as y bs hxs
  cases d with
  | right =>
    have hxs' : xs = as ++ y :: bs := hxs
    subst hxs'
    exact ⟨holds_ne_zero h (by simp), (neighbours h hfuel).1⟩
  | left =>
    have hxs' : xs = bs.reverse ++ y :: as.reverse := by
      rw [← List.reverse_reverse xs, show xs.reverse = as ++ y :: bs from hxs]
      simp
    subst hxs'
    refine ⟨holds_ne_zero h (by simp), (neighbours h hfuel).2.trans ?_⟩
    rw [List.headD_eq_head?_getD, List.getLastD_eq_getLast?, List.getLast?_reverse]

theorem visitFrom_spec (h : Follows step (as ++ ys)) (hrounds : ys.length ≤ rounds) :
    visitFrom step rounds (ys.headD 0) = .ok ys := by
  induction ys generalizing as rounds with
  | nil => cases rounds <;> simp [visitFrom]
  | cons y ys ih =>
    rw [List.length_cons] at hrounds
    obtain ⟨rounds, rfl⟩ : ∃ n, rounds = n + 1 := ⟨rounds - 1, by omega⟩
    obtain ⟨hne, hstep⟩ := h as y ys rfl
    have hrest := ih (List.append_cons as y ys ▸ h) (show ys.length ≤ rounds by omega)
    rw [List.headD_cons, visitFrom, if_neg hne]
    simp only [hstep, ok_bind, hrest]
    rfl

section

variable (h : Holds t xs) (hfuel : xs.length ≤ fuel)

include h hfuel

theorem rbtreeMinimum_root :
    rbtreeMinimum t fuel t.root = .ok ((toward xs .right).headD 0) := by
  obtain ⟨s, hlink, -, rfl⟩ := h
  rw [addrs, List.length_map] at hfuel
  rw [hlink.root, rbtreeMinimum_head hlink.rep hfuel]
  rfl

theorem rbtreeMaximum_root :
    rbtreeMaximum t fuel t.root = .ok ((toward xs .left).headD 0) := by
  obtain ⟨s, hlink, -, rfl⟩ := h
  rw [addrs, List.length_map] at hfuel
  rw [hlink.root, rbtreeMaximum_last hlink.rep hfuel]
  simp [toward, List.headD_eq_head?_getD, List.getLastD_eq_getLast?]

theorem rbtreeForEach_spec :
    rbtreeForEach fuel t = .ok xs := by
  rw [rbtreeForEach, rbtreeMinimum_root h hfuel, ok_bind]
  have hfollows : Follows _ ([] ++ toward xs .right) := next_follows h hfuel .right
  exact visitFrom_spec hfollows hfuel

theorem rbtreeForEachReverse_spec :
    rbtreeForEachReverse fuel t = .ok xs.reverse := by
  rw [rbtreeForEachReverse, rbtreeMaximum_root h hfuel, ok_bind]
  have hfollows : Follows _ ([] ++ toward xs .left) := next_follows h hfuel .left
  exact visitFrom_spec hfollows (by simpa [toward] using hfuel)

end

end Directions

section Removal

variable {σ : Type} {body : σ → Tree → ℕ → Exec (σ × Tree)}

/-- What a turn of the body does to the tree: nothing, or it removes the node it is at, whose
memory may then be reused. -/
inductive Turn (fuel : ℕ) (t : Tree) (it : ℕ) : Tree → Prop
  | keep : Turn fuel t it t
  | remove {r : ℕ} {t' : Tree} : rbtreeRemove fuel t it = .ok (r, t') → Turn fuel t it t'
  | reuse {r : ℕ} {t' : Tree} (n : Node) (key : ℕ) : rbtreeRemove fuel t it = .ok (r, t') →
      Turn fuel t it (rewriteOutside t' it n key)

/-- Each call of the body returns and removes at most the node it is at. -/
def Turns (fuel : ℕ) (body : σ → Tree → ℕ → Exec (σ × Tree)) : Prop :=
  ∀ s t it xs, Run t xs → it ∈ xs → xs.length ≤ fuel →
    ∃ s' t', body s t it = .ok (s', t') ∧ Turn fuel t it t'

theorem toward_erase (h : xs.Nodup) (hxs : toward xs d = as ++ y :: bs) :
    toward (xs.erase y) d = as ++ bs := by
  cases d with
  | right =>
    have hxs' : xs = as ++ y :: bs := hxs
    subst hxs'
    exact erase_middle h
  | left =>
    have hxs' : xs = bs.reverse ++ y :: as.reverse := by
      rw [← List.reverse_reverse xs, show xs.reverse = as ++ y :: bs from hxs]
      simp
    subst hxs'
    rw [erase_middle h]
    simp [toward]

theorem mem_toward : y ∈ toward xs d ↔ y ∈ xs := by
  cases d <;> simp [toward]

/-- Whether or not the body removes the node, the tree holds the nodes passed that it kept,
followed by those still to come. -/
theorem Turn.run (h : Turn fuel t y t') (hrun : Run t xs) (hxs : toward xs d = as ++ y :: bs)
    (hfuel : xs.length ≤ fuel) : ∃ ys cs, Run t' ys ∧ ys.Sublist xs ∧ toward ys d = cs ++ bs := by
  have hy : y ∈ xs := mem_toward.1 (by rw [hxs]; simp)
  have hnd := holds_nodup (run_holds hrun).1
  cases h with
  | keep => exact ⟨xs, as ++ [y], hrun, List.Sublist.refl _, by simp [hxs]⟩
  | remove hok =>
    exact ⟨xs.erase y, as, .remove hrun hy hfuel hok, List.erase_sublist, toward_erase hnd hxs⟩
  | reuse n key hok =>
    refine ⟨xs.erase y, as, .outside n key (.remove hrun hy hfuel hok) ?_, List.erase_sublist,
      toward_erase hnd hxs⟩
    exact fun hmem => (List.Nodup.mem_erase_iff hnd).1 hmem |>.1 rfl

theorem orNull_next (h : Holds t xs) (hxs : toward xs d = as ++ ys) (hfuel : xs.length ≤ fuel) :
    orNull (next fuel d t) (ys.headD 0) = .ok (ys.tail.headD 0) := by
  cases ys with
  | nil => rfl
  | cons y ys =>
    obtain ⟨hne, hstep⟩ := next_follows h hfuel d as y ys hxs
    rw [List.headD_cons, orNull, if_pos hne, hstep, List.tail_cons]

theorem visitSafe_spec {s : σ} (hbody : Turns fuel body) (h : Run t xs)
    (hxs : toward xs d = as ++ ys) (hfuel : xs.length ≤ fuel) (hrounds : ys.length ≤ rounds) :
    ∃ s' t' zs, visitSafe (next fuel d) body rounds s t (ys.headD 0) (ys.tail.headD 0) =
      .ok (ys, s', t') ∧ Run t' zs ∧ zs.Sublist xs := by
  induction ys generalizing as rounds s t xs with
  | nil => exact ⟨s, t, xs, by cases rounds <;> simp [visitSafe], h, List.Sublist.refl _⟩
  | cons y ys ih =>
    rw [List.length_cons] at hrounds
    obtain ⟨rounds, rfl⟩ : ∃ n, rounds = n + 1 := ⟨rounds - 1, by omega⟩
    have hy : y ∈ xs := mem_toward.1 (by rw [hxs]; simp)
    have hne := holds_ne_zero (run_holds h).1 hy
    obtain ⟨s₁, t₁, hok, hturn⟩ := hbody s t y xs h hy hfuel
    obtain ⟨zs, cs, hrun, hsub, hzs⟩ := hturn.run h hxs hfuel
    have hfuel' := hsub.length_le.trans hfuel
    have hnext := orNull_next (run_holds hrun).1 hzs hfuel'
    obtain ⟨s₂, t₂, ws, hrest, hrun', hsub'⟩ :=
      ih (s := s₁) hrun hzs hfuel' (show ys.length ≤ rounds by omega)
    refine ⟨s₂, t₂, ws, ?_, hrun', hsub'.trans hsub⟩
    rw [List.headD_cons, List.tail_cons, visitSafe, if_neg hne]
    simp only [hok, ok_bind, hnext, hrest]
    rfl

theorem rbtreeForEachSafe_spec {s : σ} (hbody : Turns fuel body) (h : Run t xs)
    (hfuel : xs.length ≤ fuel) :
    ∃ s' t' zs, rbtreeForEachSafe fuel body s t = .ok (xs, s', t') ∧ Run t' zs ∧ zs.Sublist xs := by
  have hholds := (run_holds h).1
  have hall : toward xs .right = [] ++ xs := rfl
  rw [rbtreeForEachSafe, rbtreeMinimum_root hholds hfuel, ok_bind]
  have hnext := orNull_next hholds hall hfuel
  rw [show orNull (rbtreeSuccessor fuel t) ((toward xs .right).headD 0) = _ from hnext, ok_bind]
  exact visitSafe_spec hbody h hall hfuel hfuel

theorem rbtreeForEachReverseSafe_spec {s : σ} (hbody : Turns fuel body) (h : Run t xs)
    (hfuel : xs.length ≤ fuel) :
    ∃ s' t' zs, rbtreeForEachReverseSafe fuel body s t = .ok (xs.reverse, s', t') ∧ Run t' zs ∧
      zs.Sublist xs := by
  have hholds := (run_holds h).1
  have hall : toward xs .left = [] ++ xs.reverse := rfl
  rw [rbtreeForEachReverseSafe, rbtreeMaximum_root hholds hfuel, ok_bind]
  have hnext := orNull_next hholds hall hfuel
  rw [show orNull (rbtreePredecessor fuel t) ((toward xs .left).headD 0) = _ from hnext, ok_bind]
  exact visitSafe_spec hbody h hall hfuel (by simpa using hfuel)

end Removal

section Results

/-- Each macro visits every node of a reachable tree once, in order or in reverse, whatever
nodes the bodies of the safe ones remove under way. -/
theorem rbtree_iteration_complete (h : Run t xs) (hfuel : xs.length ≤ fuel) :
    rbtreeForEach fuel t = .ok xs ∧ rbtreeForEachReverse fuel t = .ok xs.reverse ∧
      (∀ as x y bs, xs = as ++ x :: y :: bs →
        rbtreeSuccessor fuel t x = .ok y ∧ rbtreePredecessor fuel t y = .ok x) ∧
      ∀ (σ : Type) (body : σ → Tree → ℕ → Exec (σ × Tree)) (s : σ), Turns fuel body →
        (∃ s' t' zs, rbtreeForEachSafe fuel body s t = .ok (xs, s', t') ∧ Run t' zs ∧
          zs.Sublist xs) ∧
        ∃ s' t' zs, rbtreeForEachReverseSafe fuel body s t = .ok (xs.reverse, s', t') ∧
          Run t' zs ∧ zs.Sublist xs := by
  have hholds := (run_holds h).1
  refine ⟨rbtreeForEach_spec hholds hfuel, rbtreeForEachReverse_spec hholds hfuel, ?_, ?_⟩
  · intro as x y bs hxs
    subst hxs
    have hsplit : as ++ x :: y :: bs = (as ++ [x]) ++ y :: bs := by simp
    have hnext := (neighbours hholds hfuel).1
    have hprev := (neighbours (hsplit ▸ hholds) (hsplit ▸ hfuel)).2
    rw [List.getLastD_concat] at hprev
    exact ⟨hnext, hprev⟩
  · intro σ body s hbody
    exact ⟨rbtreeForEachSafe_spec hbody h hfuel, rbtreeForEachReverseSafe_spec hbody h hfuel⟩

def removeIt (fuel : ℕ) (_ : Unit) (t : Tree) (it : ℕ) : Exec (Unit × Tree) := do
  let (_, t) ← rbtreeRemove fuel t it
  return ((), t)

theorem removeIt_turns (fuel : ℕ) : Turns fuel (removeIt fuel) := by
  intro s t it xs hrun hit hfuel
  obtain ⟨r, t', hok, -, -⟩ := rbtreeRemove_spec (run_holds hrun).1 hit hfuel
  refine ⟨(), t', ?_, .remove hok⟩
  rw [removeIt, hok]
  rfl

/-- Five nodes of one key, all removed under way. -/
theorem five_removed : ∃ t, insertAll 5 ⟨0, fun _ => ⟨9, 8, 7⟩, fun _ => 3⟩ [2, 4, 6, 8, 10] =
    .ok t ∧ Run t [2, 4, 6, 8, 10] ∧ rbtreeForEachReverse 5 t = .ok [10, 8, 6, 4, 2] ∧
      ∃ s' t', rbtreeForEachSafe 5 (removeIt 5) () t = .ok ([2, 4, 6, 8, 10], s', t') := by
  obtain ⟨t, hok, -, hrun⟩ := run_insertAll (.start (fun _ => ⟨9, 8, 7⟩) fun _ => 3)
    (show ∀ x ∈ [2, 4, 6, 8, 10], x ∉ [] ∧ x ≠ 0 ∧ x % 2 = 0 by decide) (by decide)
    (show ([] : List ℕ).length + [2, 4, 6, 8, 10].length ≤ 5 by decide)
  have hrun' : Run t [2, 4, 6, 8, 10] := hrun
  obtain ⟨-, hreverse, -, hsafe⟩ :=
    rbtree_iteration_complete hrun' (show [2, 4, 6, 8, 10].length ≤ 5 by decide)
  obtain ⟨⟨s', t', zs, hvisit, -, -⟩, -⟩ := hsafe Unit (removeIt 5) () (removeIt_turns 5)
  exact ⟨t, hok, hrun', hreverse, s', t', hvisit⟩

end Results

end DstructRbtreeIteration
