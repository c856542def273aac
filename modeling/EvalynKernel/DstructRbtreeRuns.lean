import EvalynKernel.DstructRbtreeRemove
import EvalynKernel.DstructRbtreeSwap

/-! # Runs of insertions and removals

Whatever is inserted and removed, the tree stays a valid red-black tree of the nodes in
it, sorted by key, and neither operation faults. -/
namespace DstructRbtreeRuns

open MachineWords LinkedTrees RedBlackTrees DstructRbtree DstructRbtreeLinks DstructRbtreeInsert
open DstructRbtreeRemove DstructRbtreeSwap

section Remove

variable {t : Tree} {c e : List (Frame Item)} {i j : Item} {l r s : BinaryTree Item} {p fuel : ℕ}

theorem rbtreeMinimum_stop {x : ℕ} (fuel : ℕ) (h : (t.nodes x).left = 0) :
    rbtreeMinimum t fuel x = .ok x := by
  cases fuel <;> simp [rbtreeMinimum, h]

theorem rbtreeMinimum_down {x : ℕ} (fuel : ℕ) (hx : x ≠ 0) (h : (t.nodes x).left ≠ 0) :
    rbtreeMinimum t (fuel + 1) x = rbtreeMinimum t fuel (t.nodes x).left := by
  rw [rbtreeMinimum, if_neg (by simp [hx, h])]

theorem rbtreeMinimum_spec (h : links.Rep t.nodes p s) (hs : links.ptr s ≠ 0)
    (hfuel : (inorder s).length ≤ fuel) :
    ∃ e j r, s = plug e (.node j .nil r) ∧ (∀ f ∈ e, f.side = .left) ∧
      rbtreeMinimum t fuel (links.ptr s) = .ok j.addr := by
  induction s generalizing p fuel with
  | nil => exact absurd rfl hs
  | node a l r ihl =>
    obtain ⟨ha0, hleft, -, -, hl, -⟩ := h
    have hleft' : (t.nodes a.addr).left = links.ptr l := hleft
    have ha0' : a.addr ≠ 0 := ha0
    cases l with
    | nil =>
      exact ⟨[], a, r, rfl, by simp, rbtreeMinimum_stop fuel hleft'⟩
    | node b ll lr =>
      have hlen : (inorder (.node b ll lr)).length < fuel := by
        simp only [inorder_node, List.length_append, List.length_cons] at hfuel ⊢
        omega
      obtain ⟨fuel, rfl⟩ := Nat.exists_eq_succ_of_ne_zero (Nat.ne_zero_of_lt hlen)
      have hb0 : links.ptr (.node b ll lr) ≠ 0 := hl.1
      obtain ⟨e, j, r', heq, hside, hok⟩ := ihl hl hb0 (Nat.le_of_lt_succ hlen)
      refine ⟨e ++ [⟨.left, a, r⟩], j, r', ?_, ?_, ?_⟩
      · rw [plug_append, ← heq]
        rfl
      · intro f hf
        rcases List.mem_append.1 hf with hf | hf
        · exact hside f hf
        · rw [List.mem_singleton.1 hf]
      · refine (rbtreeMinimum_down fuel ha0' (hleft' ▸ hb0)).trans ?_
        rw [hleft']
        exact hok

theorem swap_valid (h : Valid Item.red (plug c (.node i l (plug e (.node j .nil r))))) (x y : ℕ) :
    Valid Item.red (plug c (.node ⟨x, i.color⟩ l (plug e (.node ⟨y, j.color⟩ .nil r)))) := by
  let s : BinaryTree Item := .node j .nil r
  let s' : BinaryTree Item := .node ⟨y, j.color⟩ .nil r
  have hinner : rootRed Item.red (plug e s') = rootRed Item.red (plug e s) ∧
      ∀ n, Balanced Item.red (plug e s) n → Balanced Item.red (plug e s') n :=
    plug_congr e rfl fun _ hn => hn
  let x' : Item := ⟨x, i.color⟩
  have houter : rootRed Item.red (plug c (branch .right x' (plug e s') l)) =
        rootRed Item.red (plug c (branch .right i (plug e s) l)) ∧
      ∀ n, Balanced Item.red (plug c (branch .right i (plug e s) l)) n →
        Balanced Item.red (plug c (branch .right x' (plug e s') l)) n :=
    plug_congr c rfl fun _ hn => Balanced.branch_congr rfl hinner.1 hinner.2 hn
  obtain ⟨hblack, n, hn⟩ := h
  exact ⟨houter.1.trans hblack, n, houter.2 n hn⟩

theorem before_left (he : ∀ f ∈ e, f.side = .left) : before e = [] := by
  induction e with
  | nil => rfl
  | cons f e ih =>
    rw [before, ih fun g hg => he g (List.mem_cons_of_mem _ hg), Frame.before,
      he f List.mem_cons_self]
    rfl

theorem swap_value (t : Tree) (x y : ℕ) : (swapSuccessor t x y).valueOfNode = t.valueOfNode := by
  unfold swapSuccessor swapColors nodeTakeRight swapRight succTakePlace
  grind [setChild_value, setParent_value, setColor_value]

variable {x : BinaryTree Item} {xs : List ℕ}

theorem length_le_of_plug (h : addrs (plug c x) = xs) : c.length ≤ xs.length := by
  have hperm := (addrs_plug_perm c x).length_eq
  have hle := length_le_around c
  simp only [List.length_append, List.length_map] at hperm
  rw [← h]
  omega

theorem unlink_erase (h : Linked t (plug c (branch d i x .nil)))
    (hv : Valid Item.red (plug c (branch d i x .nil))) (hxs : (addrs (plug c x)) = xs.erase i.addr)
    (hfuel : xs.length ≤ fuel) :
    ∃ y t', unlink fuel t i.addr = .ok (y, t') ∧ Holds t' (xs.erase i.addr) ∧
      t'.valueOfNode = t.valueOfNode := by
  have hdepth : c.length ≤ fuel :=
    (length_le_of_plug hxs).trans (List.length_erase_le.trans hfuel)
  obtain ⟨t', hok, hholds, hvalue⟩ := unlink_spec h hv hdepth
  exact ⟨_, t', hok, hxs ▸ hholds, hvalue⟩

theorem erase_middle {x : ℕ} (h : (as ++ x :: bs).Nodup) : (as ++ x :: bs).erase x = as ++ bs := by
  have hx : x ∉ as := fun hmem => (List.nodup_append.1 h).2.2 x hmem x List.mem_cons_self rfl
  rw [List.erase_append_right _ hx, List.erase_cons_head]

theorem rbtreeRemove_spec {x : ℕ} (h : Holds t xs) (hx : x ∈ xs) (hfuel : xs.length ≤ fuel) :
    ∃ y t', rbtreeRemove fuel t x = .ok (y, t') ∧ Holds t' (xs.erase x) ∧
      t'.valueOfNode = t.valueOfNode := by
  obtain ⟨s, hlink, hvalid, rfl⟩ := h
  obtain ⟨i, hi, rfl⟩ := List.mem_map.1 hx
  obtain ⟨c, l, r, rfl⟩ := exists_plug hi
  have hnode : Linked t (plug c (branch .left i l r)) := hlink
  obtain ⟨hi0, hleft, hright, -⟩ := hnode.cell
  have hleft' : (t.nodes i.addr).left = links.ptr l := hleft
  have hright' : (t.nodes i.addr).right = links.ptr r := hright
  have hsplit : addrs (plug c (.node i l r)) =
      ((before c).map Item.addr ++ addrs l) ++ i.addr :: (addrs r ++ (after c).map Item.addr) := by
    rw [addrs_plug]
    simp [addrs]
  have herase : (addrs (plug c (.node i l r))).erase i.addr =
      ((before c).map Item.addr ++ addrs l) ++ (addrs r ++ (after c).map Item.addr) := by
    rw [hsplit, erase_middle (hsplit ▸ hlink.nodup)]
  rw [rbtreeRemove, hleft', hright']
  by_cases hl0 : links.ptr l = 0
  · obtain rfl : l = .nil := ((Layout.rep_plug.1 hlink.rep).2.2.2.2.2.1).ptr_eq_zero.1 hl0
    rw [if_neg fun hboth => hboth.1 hl0]
    refine unlink_erase (d := .right) hlink hvalid ?_ hfuel
    rw [herase, addrs_plug]
    simp [addrs]
  by_cases hr0 : links.ptr r = 0
  · obtain rfl : r = .nil := ((Layout.rep_plug.1 hlink.rep).2.2.2.2.2.2).ptr_eq_zero.1 hr0
    rw [if_neg fun hboth => hboth.2 hr0]
    refine unlink_erase (d := .left) hlink hvalid ?_ hfuel
    rw [herase, addrs_plug]
    simp [addrs]
  have hrlen : (inorder r).length ≤ fuel := by
    have hle := congrArg List.length hsplit
    simp only [addrs, List.length_append, List.length_cons, List.length_map] at hle hfuel
    omega
  obtain ⟨e, j, rr, rfl, hside, hmin⟩ :=
    rbtreeMinimum_spec (Layout.rep_plug.1 hlink.rep).2.2.2.2.2.2 hr0 hrlen
  rw [if_pos ⟨hl0, hr0⟩, hmin]
  have hlink' := swapSuccessor_linked hlink hl0 hside
  have hvalid' := swap_valid hvalid j.addr i.addr
  let j' : Item := ⟨j.addr, i.color⟩
  let i' : Item := ⟨i.addr, j.color⟩
  let c' : List (Frame Item) := e ++ ⟨.right, j', l⟩ :: c
  have hplug : ∀ u, plug c' u = plug c (.node j' l (plug e u)) := fun u => plug_append e _ u
  have hlink'' : Linked (swapSuccessor t i.addr j.addr) (plug c' (branch .right i' rr .nil)) := by
    rw [hplug]
    exact hlink'
  have hvalid'' : Valid Item.red (plug c' (branch .right i' rr .nil)) := by
    rw [hplug]
    exact hvalid'
  have hrest : addrs (plug c' rr) =
      (addrs (plug c (.node i l (plug e (.node j .nil rr))))).erase i.addr := by
    rw [herase, hplug, addrs_plug, addrs_plug]
    simp [addrs, inorder_plug, before_left hside, j']
  obtain ⟨y, t', hok, hholds, hvalue⟩ := unlink_erase hlink'' hvalid'' hrest hfuel
  exact ⟨y, t', hok, hholds, hvalue.trans (swap_value t _ _)⟩

end Remove

/-- A write by the owner of a node that is not in the tree, to its links and its key. -/
def rewriteOutside (t : Tree) (x : ℕ) (n : Node) (key : ℕ) : Tree :=
  { t.setNode x n with valueOfNode := Function.update t.valueOfNode x key }

/-- The trees reached from an empty one, with the nodes in them in their order. A node is
an aligned structure, so that its address is even. -/
inductive Run : Tree → List ℕ → Prop where
  | start (m : ℕ → Node) (v : ℕ → ℕ) : Run ⟨0, m, v⟩ []
  | outside {t xs x} (n : Node) (key : ℕ) : Run t xs → x ∉ xs → Run (rewriteOutside t x n key) xs
  | insert {t xs x fuel t'} : Run t xs → x ∉ xs → x ≠ 0 → x % 2 = 0 → xs.length ≤ fuel →
      rbtreeInsert fuel t x = .ok t' → Run t' (insertSeq t.valueOfNode x xs)
  | remove {t xs x fuel r t'} : Run t xs → x ∈ xs → xs.length ≤ fuel →
      rbtreeRemove fuel t x = .ok (r, t') → Run t' (xs.erase x)

section Runs

variable {t t' : Tree} {xs : List ℕ} {x : ℕ}

theorem holds_empty (m : ℕ → Node) (v : ℕ → ℕ) : Holds ⟨0, m, v⟩ [] :=
  ⟨.nil, ⟨rfl, trivial, List.nodup_nil, by simp [addrs]⟩, ⟨rfl, 0, rfl⟩, rfl⟩

theorem holds_outside (h : Holds t xs) (hx : x ∉ xs) (n : Node) (key : ℕ) :
    Holds (rewriteOutside t x n key) xs := by
  obtain ⟨s, hlink, hvalid, rfl⟩ := h
  obtain ⟨hroot, hrep, hnodup, heven⟩ := hlink.setNode (n := n) hx
  exact ⟨s, ⟨hroot, hrep, hnodup, heven⟩, hvalid, rfl⟩

variable {v : ℕ → ℕ}

theorem sorted_outside (h : Sorted v xs) (hx : x ∉ xs) (key : ℕ) :
    Sorted (Function.update v x key) xs := by
  refine List.Pairwise.imp_of_mem (fun {y z} hy hz hle => ?_) h
  rwa [Function.update_of_ne (ne_of_mem_of_not_mem hy hx),
    Function.update_of_ne (ne_of_mem_of_not_mem hz hx)]

theorem exists_split (h : Sorted v xs) (x : ℕ) :
    ∃ ys zs, xs = ys ++ zs ∧ (∀ y ∈ ys, v y ≤ v x) ∧ (∀ z ∈ zs, v x < v z) ∧
      insertSeq v x xs = ys ++ x :: zs := by
  induction xs with
  | nil => exact ⟨[], [], rfl, by simp, by simp, rfl⟩
  | cons a xs ih =>
    obtain ⟨ha, hsorted⟩ := List.pairwise_cons.1 h
    by_cases hle : v a ≤ v x
    · obtain ⟨ys, zs, rfl, hys, hzs, -⟩ := ih hsorted
      have hys' : ∀ y ∈ a :: ys, v y ≤ v x := by simpa [hle] using hys
      exact ⟨a :: ys, zs, rfl, hys', hzs, insertSeq_append hys' hzs⟩
    · have hzs : ∀ z ∈ a :: xs, v x < v z := by
        intro z hz
        rcases List.mem_cons.1 hz with rfl | hz
        · omega
        · have := ha z hz
          omega
      have hys : ∀ y ∈ ([] : List ℕ), v y ≤ v x := by simp
      exact ⟨[], a :: xs, rfl, hys, hzs, insertSeq_append hys hzs⟩

theorem sorted_insertSeq (h : Sorted v xs) (x : ℕ) : Sorted v (insertSeq v x xs) := by
  obtain ⟨ys, zs, rfl, hys, hzs, heq⟩ := exists_split h x
  obtain ⟨hy, hz, hyz⟩ := List.pairwise_append.1 h
  rw [heq]
  refine List.pairwise_append.2 ⟨hy, List.pairwise_cons.2 ⟨fun z hmem => (hzs z hmem).le, hz⟩, ?_⟩
  intro y hmem z hz'
  rcases List.mem_cons.1 hz' with rfl | hz'
  · exact hys y hmem
  · exact hyz y hmem z hz'

theorem run_holds (h : Run t xs) : Holds t xs ∧ Sorted t.valueOfNode xs := by
  induction h with
  | start m v => exact ⟨holds_empty m v, List.Pairwise.nil⟩
  | outside n key _ hx ih => exact ⟨holds_outside ih.1 hx n key, sorted_outside ih.2 hx key⟩
  | insert _ hx hx0 heven hfuel hok ih =>
    obtain ⟨t', hok', hholds, hvalue⟩ := rbtreeInsert_spec ih.1 ih.2 hx hx0 heven hfuel
    obtain rfl := Except.ok.inj (hok.symm.trans hok')
    exact ⟨hholds, hvalue ▸ sorted_insertSeq ih.2 _⟩
  | remove _ hx hfuel hok ih =>
    obtain ⟨y, t', hok', hholds, hvalue⟩ := rbtreeRemove_spec ih.1 hx hfuel
    obtain ⟨-, rfl⟩ := Prod.mk.inj (Except.ok.inj (hok.symm.trans hok'))
    exact ⟨hholds, hvalue ▸ ih.2.sublist List.erase_sublist⟩

def insertAll (fuel : ℕ) (t : Tree) (nodes : List ℕ) : Exec Tree :=
  nodes.foldlM (rbtreeInsert fuel) t

theorem run_insertAll (h : Run t xs) (hnew : ∀ x ∈ nodes, x ∉ xs ∧ x ≠ 0 ∧ x % 2 = 0)
    (hnd : nodes.Nodup) (hfuel : xs.length + nodes.length ≤ fuel) :
    ∃ t', insertAll fuel t nodes = .ok t' ∧ t'.valueOfNode = t.valueOfNode ∧
      Run t' (nodes.foldl (fun xs x => insertSeq t.valueOfNode x xs) xs) := by
  induction nodes generalizing t xs with
  | nil => exact ⟨t, rfl, rfl, h⟩
  | cons x nodes ih =>
    obtain ⟨hx, hx0, heven⟩ := hnew x List.mem_cons_self
    obtain ⟨hout, hnd⟩ := List.nodup_cons.1 hnd
    obtain ⟨hholds, hsorted⟩ := run_holds h
    obtain ⟨t', hok, hholds', hvalue⟩ :=
      rbtreeInsert_spec hholds hsorted hx hx0 heven (show xs.length ≤ fuel by omega)
    obtain ⟨ys, zs, rfl, -, -, hseq⟩ := exists_split hsorted x
    have hrun : Run t' (insertSeq t.valueOfNode x (ys ++ zs)) :=
      .insert h hx hx0 heven (by omega) hok
    have hnew' : ∀ y ∈ nodes, y ∉ insertSeq t.valueOfNode x (ys ++ zs) ∧ y ≠ 0 ∧ y % 2 = 0 := by
      intro y hy
      obtain ⟨hy', hrest⟩ := hnew y (List.mem_cons_of_mem _ hy)
      refine ⟨?_, hrest⟩
      rw [hseq]
      simp only [List.mem_append, List.mem_cons, not_or] at hy' ⊢
      exact ⟨hy'.1, fun heq => hout (heq ▸ hy), hy'.2⟩
    have hfuel' : (insertSeq t.valueOfNode x (ys ++ zs)).length + nodes.length ≤ fuel := by
      rw [hseq]
      simp only [List.length_append, List.length_cons] at hfuel ⊢
      omega
    obtain ⟨t'', hok', hvalue', hrun'⟩ := ih hrun hnew' hnd hfuel'
    refine ⟨t'', ?_, hvalue'.trans hvalue, hvalue ▸ hrun'⟩
    rw [insertAll, List.foldlM_cons, hok]
    exact hok'

/-- In every state of every run the tree is a red-black tree of its nodes sorted by key, and an
insertion puts the node after all of its key. -/
theorem rbtree_run_correct (h : Run t xs) :
    Holds t xs ∧ Sorted t.valueOfNode xs ∧
      ∀ fuel, xs.length ≤ fuel →
        (∀ x, x ∉ xs → x ≠ 0 → x % 2 = 0 →
          ∃ t' ys zs, rbtreeInsert fuel t x = .ok t' ∧ Holds t' (ys ++ x :: zs) ∧ xs = ys ++ zs ∧
            (∀ y ∈ ys, t.valueOfNode y ≤ t.valueOfNode x) ∧
            ∀ z ∈ zs, t.valueOfNode x < t.valueOfNode z) ∧
        ∀ x ∈ xs, ∃ r t', rbtreeRemove fuel t x = .ok (r, t') ∧ Holds t' (xs.erase x) := by
  obtain ⟨hholds, hsorted⟩ := run_holds h
  refine ⟨hholds, hsorted, fun fuel hfuel => ⟨fun x hx hx0 heven => ?_, fun x hx => ?_⟩⟩
  · obtain ⟨t', hok, hholds', -⟩ := rbtreeInsert_spec hholds hsorted hx hx0 heven hfuel
    obtain ⟨ys, zs, heq, hys, hzs, hseq⟩ := exists_split hsorted x
    exact ⟨t', ys, zs, hok, hseq ▸ hholds', heq, hys, hzs⟩
  · obtain ⟨r, t', hok, hholds', -⟩ := rbtreeRemove_spec hholds hx hfuel
    exact ⟨r, t', hok, hholds'⟩

/-- Nodes at addresses 4, 2 and 6, and the removal of the root. -/
theorem three_inserted_root_removed :
    ∃ t₁ t₂ t₃ r t₄, rbtreeInsert 3 ⟨0, fun _ => ⟨9, 8, 7⟩, fun x => 8 / x⟩ 4 = .ok t₁ ∧
      rbtreeInsert 3 t₁ 2 = .ok t₂ ∧ rbtreeInsert 3 t₂ 6 = .ok t₃ ∧ Run t₃ [6, 4, 2] ∧
      rbtreeRemove 3 t₃ 4 = .ok (r, t₄) ∧ Holds t₄ [6, 2] := by
  have h₁ : Run _ [4] := .insert (.start (fun _ => ⟨9, 8, 7⟩) fun x => 8 / x)
    (by decide) (by decide) (by decide) (by decide) (show rbtreeInsert 3 _ 4 = .ok _ from rfl)
  have h₂ : Run _ [4, 2] := .insert h₁ (by decide) (by decide) (by decide) (by decide)
    (show rbtreeInsert 3 _ 2 = .ok _ from rfl)
  have h₃ : Run _ [6, 4, 2] := .insert h₂ (by decide) (by decide) (by decide) (by decide)
    (show rbtreeInsert 3 _ 6 = .ok _ from rfl)
  obtain ⟨r, t₄, hok, hholds⟩ := ((rbtree_run_correct h₃).2.2 3 (by decide)).2 4 (by decide)
  exact ⟨_, _, _, r, t₄, rfl, rfl, rfl, h₃, hok, hholds⟩

end Runs

end DstructRbtreeRuns
