import EvalynKernel.DstructPheapTrees
import Mathlib.Data.Finset.Card

/-! # Runs of the pairing heap

Any sequence of the operations, with the nodes outside the heap free to change their
value and their stale sibling links. -/
namespace DstructPheapRuns

open Function LinkedTrees DstructPheap DstructPheapTrees

/-- The links reachable from the head are those of the tree `T`, ordered by value. -/
structure Shape (h : Heap) (T : Option PTree) : Prop where
  head : h.head = rootOf T
  rep : RepOf h.nodes T
  ordered : OrderedOf h.valueOfNode T
  nodup : (nodesOf T).Nodup

structure Removed (h : Heap) (T : Option PTree) (x : ℕ) (h' : Heap) (T' : Option PTree) : Prop where
  shape : Shape h' T'
  perm : (x :: nodesOf T').Perm (nodesOf T)
  value : h'.valueOfNode = h.valueOfNode
  canary : (h'.nodes x).leftChild = removedCanary
  frame : ∀ y, y ∉ nodesOf T → h'.nodes y = h.nodes y

variable {h : Heap} {T : Option PTree} {x fuel : ℕ}

variable {t : BinaryTree ℕ} {v : ℕ → ℕ} {a : ℕ}

theorem ordered_mem (h : Ordered v a t) : ∀ y ∈ inorder t, v a ≤ v y := by
  induction t generalizing a with
  | nil => simp
  | node b kids later ihk ihl =>
    obtain ⟨hab, hk, hl⟩ := h
    intro y hy
    simp only [inorder_node, List.mem_append, List.mem_cons] at hy
    rcases hy with hy | rfl | hy
    · exact hab.trans (ihk hk y hy)
    · exact hab
    · exact ihl hl y hy

variable {c : List (Frame ℕ)}

theorem ordered_plug (h : Ordered v a (plug c s)) (hst : ∀ p, Ordered v p s → Ordered v p t) :
    Ordered v a (plug c t) ∧ ∃ p, Ordered v p s := by
  induction c generalizing s t with
  | nil => exact ⟨hst a h, a, h⟩
  | cons f c ih =>
    obtain ⟨d, b, other⟩ := f
    cases d with
    | left =>
      obtain ⟨hplug, p, hp⟩ := ih (t := .node b t other) h
        fun p hp => ⟨hp.1, hst b hp.2.1, hp.2.2⟩
      exact ⟨hplug, b, hp.2.1⟩
    | right =>
      obtain ⟨hplug, p, hp⟩ := ih (t := .node b other t) h
        fun p hp => ⟨hp.1, hp.2.1, hst p hp.2.2⟩
      exact ⟨hplug, p, hp.2.2⟩

variable {A : PTree}

theorem Shape.root_le (h' : Shape h (some A)) (hy : y ∈ A.nodes) :
    h.valueOfNode A.root ≤ h.valueOfNode y := by
  rcases List.mem_cons.1 hy with rfl | hy
  · exact le_refl _
  · exact ordered_mem h'.ordered y hy

variable {m : ℕ → Node}

theorem repOf_congr (h : RepOf m T) (hm : ∀ y ∈ nodesOf T, m' y = m y) : RepOf m' T := by
  cases T with
  | none => trivial
  | some A => exact PTree.Rep.congr h hm

theorem pheapInsert_spec (hT : Shape h T) (hx : x ∉ nodesOf T) (hx0 : x ≠ 0) :
    ∃ T', Shape (pheapInsert h x) T' ∧ (nodesOf T').Perm (x :: nodesOf T) ∧
      ∀ y, y ∉ nodesOf T → y ≠ x → (pheapInsert h x).nodes y = h.nodes y := by
  have hold : RepOf (setLeftChild h.nodes x 0) T := repOf_congr hT.rep fun y hy =>
    update_of_ne (ne_of_mem_of_not_mem hy hx) _ _
  have hnew : RepOf (setLeftChild h.nodes x 0) (some ⟨x, .nil⟩) :=
    ⟨hx0, by simp [setLeftChild], trivial⟩
  have hperm : (nodesOf T ++ nodesOf (some ⟨x, .nil⟩)).Perm (x :: nodesOf T) := by
    simp [nodesOf, PTree.nodes]
  have hnd := hperm.nodup_iff.2 (List.nodup_cons.2 ⟨hx, hT.nodup⟩)
  obtain ⟨hroot, hrep, hout⟩ := pheapMeld_spec (v := h.valueOfNode) hold hnew hnd
  have hmeld := meldOf_nodes h.valueOfNode T (some ⟨x, .nil⟩)
  have hins : pheapInsert h x =
      { h with
        head := (pheapMeld h.valueOfNode (setLeftChild h.nodes x 0) (rootOf T) x).1
        nodes := (pheapMeld h.valueOfNode (setLeftChild h.nodes x 0) (rootOf T) x).2 } := by
    rw [pheapInsert, hT.head]
  rw [hins]
  exact ⟨meldOf h.valueOfNode T (some ⟨x, .nil⟩),
    ⟨hroot, hrep, meldOf_ordered hT.ordered trivial, hmeld.nodup_iff.2 hnd⟩, hmeld.trans hperm,
    fun y hy hyx => (hout y hy (by simpa [nodesOf, PTree.nodes] using hyx)).trans
      (update_of_ne hyx _ _)⟩

theorem repOf_setLeftChild (hrep : RepOf m T) (hx : x ∉ nodesOf T) : RepOf (setLeftChild m x n) T :=
  repOf_congr hrep fun _ hy => update_of_ne (ne_of_mem_of_not_mem hy hx) _ _

theorem pheapPop_spec (hA : Shape h (some A)) (hfuel : A.nodes.length ≤ fuel) :
    ∃ h' T', pheapPop fuel h = .ok (A.root, h') ∧ Removed h (some A) A.root h' T' := by
  have hnd : A.nodes.Nodup := hA.nodup
  obtain ⟨hroot, hkids⟩ := List.nodup_cons.1 hnd
  obtain ⟨m', K, hok, hK, hKp, hKo, hframe⟩ := pheapMergeChildren_spec hA.rep hnd hA.ordered
    ((Nat.le_succ _).trans hfuel)
  have hhead : h.head = A.root := hA.head
  have hA0 : A.root ≠ 0 := hA.rep.1
  have hout : A.root ∉ nodesOf K := fun hmem => hroot (hKp.mem_iff.1 hmem)
  refine ⟨{ h with head := rootOf K, nodes := setLeftChild m' A.root removedCanary }, K, ?_,
    ⟨rfl, repOf_setLeftChild hK hout, hKo, hKp.nodup_iff.2 hkids⟩, hKp.cons _, rfl,
    by simp [setLeftChild], fun y hy => ?_⟩
  · simp only [pheapPop, hhead, hA0, if_false, hok]
    rfl
  · simp only [nodesOf, PTree.nodes, List.mem_cons, not_or] at hy
    exact (update_of_ne hy.1 _ _).trans (hframe y hy.2)

theorem pheapPop_empty (hT : Shape h none) : pheapPop fuel h = .ok (0, h) := by
  have hhead : h.head = 0 := hT.head
  simp [pheapPop, hhead, pure, Except.pure]

theorem nodes_detached (a : ℕ) (c : List (Frame ℕ)) (kids later : BinaryTree ℕ) :
    (PTree.nodes ⟨a, plug c (.node x kids later)⟩).Perm
      (x :: (PTree.nodes ⟨a, plug c later⟩ ++ inorder kids)) := by
  have hwith := (inorder_plug_perm c (.node x kids later)).cons a
  have hwithout := (inorder_plug_perm c later).cons a
  refine hwith.trans (List.Perm.trans ?_ ((hwithout.symm.append_right _).cons x))
  refine List.perm_iff_count.2 fun y => ?_
  simp only [inorder_node, List.count_append, List.count_cons]
  omega

theorem pheapRemove_inner (hT : Shape h (some ⟨a, plug c (.node x kids later)⟩))
    (hfuel : (PTree.nodes ⟨a, plug c (.node x kids later)⟩).length ≤ fuel) :
    ∃ h' T', pheapRemove fuel h x = .ok (x, h') ∧
      Removed h (some ⟨a, plug c (.node x kids later)⟩) x h' T' := by
  obtain ⟨hmain, hsub, hout⟩ := detach_rep hT.rep hT.nodup
  have hperm := nodes_detached (x := x) a c kids later
  have hnd := hperm.nodup_iff.1 hT.nodup
  simp only [List.nodup_cons, List.mem_append, not_or] at hnd
  obtain ⟨⟨hxmain, hxkids⟩, hnd⟩ := hnd
  obtain ⟨hndmain, hndkids, hdis⟩ := List.nodup_append.1 hnd
  obtain ⟨hordmain, p, hordsub⟩ := ordered_plug hT.ordered fun p hp => hp.2.2
  have hfuel' : (inorder kids).length ≤ fuel := by
    have hlen := hperm.length_eq
    simp only [List.length_cons, List.length_append] at hlen
    omega
  obtain ⟨m', K, hok, hK, hKp, hKo, hframe⟩ := pheapMergeChildren_spec hsub
    (List.nodup_cons.2 ⟨hxkids, hndkids⟩) hordsub.2.1 hfuel'
  have hmain' : RepOf m' (some ⟨a, plug c later⟩) := hmain.congr fun y hy =>
    hframe y fun hyk => hdis y hy y hyk rfl
  have hpermK := hKp.append_left (nodesOf (some ⟨a, plug c later⟩))
  obtain ⟨hroot, hrep, hout'⟩ := pheapMeld_spec (v := h.valueOfNode) hmain' hK
    (hpermK.nodup_iff.2 hnd)
  have hmeld := (meldOf_nodes h.valueOfNode (some ⟨a, plug c later⟩) K).trans hpermK
  have hx : x ∉ nodesOf (meldOf h.valueOfNode (some ⟨a, plug c later⟩) K) := by
    rw [hmeld.mem_iff, List.mem_append]
    exact fun hx => hx.elim hxmain hxkids
  have hhead : h.head = a := hT.head
  have hne : x ≠ a := fun hxa => hxmain (by simp [hxa, PTree.nodes])
  refine ⟨{ h with
      head := (pheapMeld h.valueOfNode m' a (rootOf K)).1
      nodes := setLeftChild (pheapMeld h.valueOfNode m' a (rootOf K)).2 x removedCanary },
    meldOf h.valueOfNode (some ⟨a, plug c later⟩) K, ?_,
    ⟨hroot, repOf_setLeftChild hrep hx, meldOf_ordered hordmain hKo, hmeld.nodup_iff.2 hnd⟩,
    (hmeld.cons x).trans hperm.symm, rfl, by simp [setLeftChild], fun y hy => ?_⟩
  · simp only [pheapRemove, hhead, hne, if_false, hok]
    rfl
  · have hy' := hy
    rw [nodesOf, hperm.mem_iff, List.mem_cons, List.mem_append] at hy'
    simp only [not_or] at hy'
    obtain ⟨hyx, hymain, hykids⟩ := hy'
    have hyK : y ∉ nodesOf K := fun hyK => hykids (hKp.mem_iff.1 hyK)
    exact (update_of_ne hyx _ _).trans
      ((hout' y hymain hyK).trans ((hframe y hykids).trans (hout y hy)))

theorem pheapRemove_spec (hT : Shape h T) (hx : x ∈ nodesOf T) (hfuel : (nodesOf T).length ≤ fuel) :
    ∃ h' T', pheapRemove fuel h x = .ok (x, h') ∧ Removed h T x h' T' := by
  cases T with
  | none => cases hx
  | some A =>
    obtain ⟨a, k⟩ := A
    by_cases hxr : x = a
    · have hhead : h.head = a := hT.head
      obtain ⟨h', T', hok, hrem⟩ := pheapPop_spec hT hfuel
      exact ⟨h', T', by simpa [pheapRemove, hxr, hhead] using hok, hxr ▸ hrem⟩
    · obtain ⟨c, kids, later, rfl⟩ := exists_plug ((List.mem_cons.1 hx).resolve_left hxr)
      exact pheapRemove_inner hT hfuel

/-- A node outside the heap gets another value and other sibling links. -/
def rewriteStale (h : Heap) (x next prev value : ℕ) : Heap :=
  { h with
    nodes := Function.update h.nodes x ⟨(h.nodes x).leftChild, next, prev⟩
    valueOfNode := Function.update h.valueOfNode x value }

/-- Runs of the heap: `S` are the nodes in it, `E` those ever inserted. The loops get at
least as many rounds as there are nodes. -/
inductive Run : Heap → Finset ℕ → Finset ℕ → Prop where
  | start (m : ℕ → Node) (v : ℕ → ℕ) : Run ⟨0, m, v⟩ ∅ ∅
  | stale {h S E x} (next prev value : ℕ) : Run h S E → x ∉ S →
      Run (rewriteStale h x next prev value) S E
  | insert {h S E x} : Run h S E → x ∉ S → 2 ≤ x →
      Run (pheapInsert h x) (insert x S) (insert x E)
  | pop {h S E fuel x h'} : Run h S E → S.card ≤ fuel → pheapPop fuel h = .ok (x, h') →
      Run h' (S.erase x) E
  | remove {h S E fuel x r h'} : Run h S E → x ∈ S → S.card ≤ fuel →
      pheapRemove fuel h x = .ok (r, h') → Run h' (S.erase x) E
  | tryRemove {h S E fuel x r h'} : Run h S E → x ∈ E → S.card ≤ fuel →
      pheapTryRemove fuel h x = .ok (r, h') → Run h' (S.erase x) E

/-- The tree rooted at the head holds exactly the nodes of `S`. -/
def Holds (h : Heap) (S : Finset ℕ) : Prop := ∃ T, Shape h T ∧ ∀ x, x ∈ nodesOf T ↔ x ∈ S

structure RunInv (h : Heap) (S E : Finset ℕ) : Prop where
  holds : Holds h S
  real : ∀ x ∈ E, 2 ≤ x
  inserted : S ⊆ E
  canary : ∀ x ∈ E, x ∉ S → (h.nodes x).leftChild = removedCanary

section Steps

variable {S E : Finset ℕ}

theorem Shape.length_eq (hT : Shape h T) (hS : ∀ y, y ∈ nodesOf T ↔ y ∈ S) :
    (nodesOf T).length = S.card := by
  rw [← List.toFinset_card_of_nodup hT.nodup]
  congr 1
  ext y
  rw [List.mem_toFinset, hS]

variable {T' : Option PTree} {h' : Heap}

theorem Removed.holds (hr : Removed h T x h' T') (hT : Shape h T)
    (hS : ∀ y, y ∈ nodesOf T ↔ y ∈ S) : Holds h' (S.erase x) := by
  refine ⟨T', hr.shape, fun y => ?_⟩
  have hx := (List.nodup_cons.1 (hr.perm.nodup_iff.2 hT.nodup)).1
  rw [Finset.mem_erase, ← hS, ← hr.perm.mem_iff, List.mem_cons]
  refine ⟨fun hy => ⟨ne_of_mem_of_not_mem hy hx, .inr hy⟩, fun hy => hy.2.resolve_left hy.1⟩

theorem Removed.inv (hr : Removed h T x h' T') (hT : Shape h T) (hS : ∀ y, y ∈ nodesOf T ↔ y ∈ S)
    (hinv : RunInv h S E) : RunInv h' (S.erase x) E := by
  refine ⟨hr.holds hT hS, hinv.real, (Finset.erase_subset x S).trans hinv.inserted,
    fun y hyE hyS => ?_⟩
  by_cases hyx : y = x
  · rw [hyx]
    exact hr.canary
  · have hyS' : y ∉ S := fun hy => hyS (Finset.mem_erase.2 ⟨hyx, hy⟩)
    rw [hr.frame y ((hS y).not.2 hyS')]
    exact hinv.canary y hyE hyS'

theorem peek_spec (hinv : RunInv h S E) :
    (pheapPeek h = 0 ↔ S = ∅) ∧ ∀ y ∈ S, pheapPeek h ∈ S ∧
      h.valueOfNode (pheapPeek h) ≤ h.valueOfNode y := by
  obtain ⟨T, hT, hS⟩ := hinv.holds
  have hhead := hT.head
  cases T with
  | none =>
    have hempty : S = ∅ := Finset.eq_empty_of_forall_notMem
      fun y hy => by simpa [nodesOf] using (hS y).2 hy
    simp [pheapPeek, hhead, rootOf, hempty]
  | some A =>
    have hroot : A.root ∈ S := (hS _).1 (by simp [nodesOf, PTree.nodes])
    have hpeek : pheapPeek h = A.root := hhead
    rw [hpeek]
    refine ⟨⟨fun h0 => absurd h0 hT.rep.1, fun hempty => ?_⟩, fun y hy => ⟨hroot, ?_⟩⟩
    · simp [hempty] at hroot
    · exact hT.root_le ((hS y).2 hy)

theorem pop_step (hinv : RunInv h S E) (hfuel : S.card ≤ fuel) :
    ∃ h', pheapPop fuel h = .ok (pheapPeek h, h') ∧ RunInv h' (S.erase (pheapPeek h)) E := by
  obtain ⟨T, hT, hS⟩ := hinv.holds
  have hpeek : pheapPeek h = rootOf T := hT.head
  rw [hpeek]
  cases T with
  | none =>
    have h0 : (0 : ℕ) ∉ S := fun h0 => by simpa [nodesOf] using (hS 0).2 h0
    refine ⟨h, pheapPop_empty hT, ?_⟩
    rwa [rootOf, Finset.erase_eq_of_notMem h0]
  | some A =>
    obtain ⟨h', T', hok, hr⟩ := pheapPop_spec hT ((hT.length_eq hS).trans_le hfuel)
    exact ⟨h', hok, hr.inv hT hS hinv⟩

theorem remove_step (hinv : RunInv h S E) (hx : x ∈ S) (hfuel : S.card ≤ fuel) :
    ∃ h', pheapRemove fuel h x = .ok (x, h') ∧ RunInv h' (S.erase x) E := by
  obtain ⟨T, hT, hS⟩ := hinv.holds
  obtain ⟨h', T', hok, hr⟩ := pheapRemove_spec hT ((hS x).2 hx) ((hT.length_eq hS).trans_le hfuel)
  exact ⟨h', hok, hr.inv hT hS hinv⟩

theorem leftChild_in_heap (hT : Shape h T) (hx : x ∈ nodesOf T) :
    (h.nodes x).leftChild = 0 ∨ (h.nodes x).leftChild ∈ nodesOf T := by
  cases T with
  | none => cases hx
  | some A =>
    obtain ⟨a, k⟩ := A
    rcases List.mem_cons.1 hx with rfl | hx
    · rw [show (h.nodes x).leftChild = links.ptr k from hT.rep.2.1]
      exact (ptr_zero_or_mem k).imp_right (List.mem_cons_of_mem _)
    · obtain ⟨c, kids, later, rfl⟩ := exists_plug hx
      have hleft := (Layout.rep_plug.1 hT.rep.2.2).2.2.1
      rw [show (h.nodes x).leftChild = links.ptr kids from hleft]
      refine (ptr_zero_or_mem kids).imp_right fun hmem => List.mem_cons_of_mem _ ?_
      exact (inorder_plug_perm c _).mem_iff.2 (by simp [hmem])

theorem tryRemove_step (hinv : RunInv h S E) (hx : x ∈ E) (hfuel : S.card ≤ fuel) :
    ∃ r h', pheapTryRemove fuel h x = .ok (r, h') ∧ (r = 0 ↔ x ∉ S) ∧ (x ∉ S → h' = h) ∧
      RunInv h' (S.erase x) E := by
  by_cases hxS : x ∈ S
  · have hleft : (h.nodes x).leftChild ≠ removedCanary := by
      obtain ⟨T, hT, hS⟩ := hinv.holds
      rcases leftChild_in_heap hT ((hS x).2 hxS) with h0 | hmem
      · rw [h0]
        decide
      · have hreal := hinv.real _ (hinv.inserted ((hS _).1 hmem))
        exact fun hc => absurd (hc ▸ hreal) (by decide)
    obtain ⟨h', hok, hinv'⟩ := remove_step hinv hxS hfuel
    have hx0 : x ≠ 0 := fun h0 => absurd (hinv.real x hx) (by simp [h0])
    exact ⟨x, h', by rw [pheapTryRemove, if_pos hleft, hok], by simp [hx0, hxS],
      fun hno => absurd hxS hno, hinv'⟩
  · refine ⟨0, h, ?_, by simp [hxS], fun _ => rfl, ?_⟩
    · rw [pheapTryRemove, if_neg (not_not_intro (hinv.canary x hx hxS))]
    · rwa [Finset.erase_eq_of_notMem hxS]

theorem insert_step (hinv : RunInv h S E) (hx : x ∉ S) (hreal : 2 ≤ x) :
    RunInv (pheapInsert h x) (insert x S) (insert x E) := by
  obtain ⟨T, hT, hS⟩ := hinv.holds
  obtain ⟨T', hT', hperm, hframe⟩ := pheapInsert_spec hT ((hS x).not.2 hx) (by omega)
  refine ⟨⟨T', hT', fun y => ?_⟩, fun y hy => ?_, Finset.insert_subset_insert x hinv.inserted,
    fun y hyE hyS => ?_⟩
  · rw [hperm.mem_iff, List.mem_cons, Finset.mem_insert, hS]
  · rcases Finset.mem_insert.1 hy with rfl | hy
    · exact hreal
    · exact hinv.real y hy
  · rw [Finset.mem_insert, not_or] at hyS
    rw [hframe y ((hS y).not.2 hyS.2) hyS.1]
    exact hinv.canary y ((Finset.mem_insert.1 hyE).resolve_left hyS.1) hyS.2

theorem ordered_congr (h : Ordered v a t) (hv : ∀ y ∈ a :: inorder t, v' y = v y) :
    Ordered v' a t := by
  induction t generalizing a with
  | nil => trivial
  | node b kids later ihk ihl =>
    obtain ⟨hab, hk, hl⟩ := h
    simp only [inorder_node, List.mem_cons, List.mem_append] at hv
    refine ⟨?_, ihk hk fun y hy => hv y ?_, ihl hl fun y hy => hv y ?_⟩
    · rwa [hv a (.inl rfl), hv b (.inr (.inr (.inl rfl)))]
    · rcases List.mem_cons.1 hy with hy | hy
      · exact .inr (.inr (.inl hy))
      · exact .inr (.inl hy)
    · rcases List.mem_cons.1 hy with hy | hy
      · exact .inl hy
      · exact .inr (.inr (.inr hy))

theorem stale_step (hinv : RunInv h S E) (hx : x ∉ S) (next prev value : ℕ) :
    RunInv (rewriteStale h x next prev value) S E := by
  obtain ⟨T, hT, hS⟩ := hinv.holds
  have hne : ∀ y ∈ nodesOf T, y ≠ x := fun y hy => ne_of_mem_of_not_mem hy ((hS x).not.2 hx)
  refine ⟨⟨T, ⟨hT.head, ?_, ?_, hT.nodup⟩, hS⟩, hinv.real, hinv.inserted, fun y hyE hyS => ?_⟩
  · exact repOf_congr hT.rep fun y hy => update_of_ne (hne y hy) _ _
  · cases T with
    | none => trivial
    | some A => exact ordered_congr hT.ordered fun y hy => update_of_ne (hne y hy) _ _
  · have hcanary := hinv.canary y hyE hyS
    by_cases hyx : y = x
    · subst hyx
      simpa [rewriteStale] using hcanary
    · simpa [rewriteStale, hyx] using hcanary

theorem run_inv (hrun : Run h S E) : RunInv h S E := by
  induction hrun with
  | start m v =>
    exact ⟨⟨none, ⟨rfl, trivial, trivial, .nil⟩, by simp [nodesOf]⟩, by simp, by simp, by simp⟩
  | stale next prev value _ hx ih => exact stale_step ih hx next prev value
  | insert _ hx hreal ih => exact insert_step ih hx hreal
  | pop _ hfuel hpop ih =>
    obtain ⟨h', hok, hinv⟩ := pop_step ih hfuel
    obtain ⟨rfl, rfl⟩ := Prod.mk.inj (Except.ok.inj (hok.symm.trans hpop))
    exact hinv
  | remove _ hx hfuel hremove ih =>
    obtain ⟨h', hok, hinv⟩ := remove_step ih hx hfuel
    obtain ⟨rfl, rfl⟩ := Prod.mk.inj (Except.ok.inj (hok.symm.trans hremove))
    exact hinv
  | tryRemove _ hx hfuel htry ih =>
    obtain ⟨r, h', hok, -, -, hinv⟩ := tryRemove_step ih hx hfuel
    obtain ⟨rfl, rfl⟩ := Prod.mk.inj (Except.ok.inj (hok.symm.trans htry))
    exact hinv

/-- In every state of every run the links form a tree of exactly the nodes present; peek
and pop give a node of minimal value; pop and remove take out that one node; and
`pheap_try_remove` tells whether the node is present, leaving the heap alone if not. -/
theorem pheap_run_correct (hrun : Run h S E) :
    Holds h S ∧ (pheapPeek h = 0 ↔ S = ∅) ∧
    (∀ y ∈ S, pheapPeek h ∈ S ∧ h.valueOfNode (pheapPeek h) ≤ h.valueOfNode y) ∧
    (∀ fuel, S.card ≤ fuel →
      (∃ h', pheapPop fuel h = .ok (pheapPeek h, h') ∧ Holds h' (S.erase (pheapPeek h))) ∧
      (∀ x ∈ S, ∃ h', pheapRemove fuel h x = .ok (x, h') ∧ Holds h' (S.erase x)) ∧
      ∀ x ∈ E, ∃ r h', pheapTryRemove fuel h x = .ok (r, h') ∧ (r = 0 ↔ x ∉ S) ∧
        (x ∉ S → h' = h) ∧ Holds h' (S.erase x)) := by
  have hinv := run_inv hrun
  obtain ⟨hempty, hmin⟩ := peek_spec hinv
  refine ⟨hinv.holds, hempty, hmin, fun fuel hfuel => ⟨?_, fun x hx => ?_, fun x hx => ?_⟩⟩
  · obtain ⟨h', hok, hinv'⟩ := pop_step hinv hfuel
    exact ⟨h', hok, hinv'.holds⟩
  · obtain ⟨h', hok, hinv'⟩ := remove_step hinv hx hfuel
    exact ⟨h', hok, hinv'.holds⟩
  · obtain ⟨r, h', hok, hr, hsame, hinv'⟩ := tryRemove_step hinv hx hfuel
    exact ⟨r, h', hok, hr, hsame, hinv'.holds⟩

def threeInserted : Heap :=
  pheapInsert (pheapInsert (pheapInsert ⟨0, fun x => ⟨x + 1, 7, 9⟩, fun x => 10 - x⟩ 2) 3) 4

theorem three_inserted_popped :
    Run threeInserted {4, 3, 2} {4, 3, 2} ∧
      ∃ h', pheapPop 3 threeInserted = .ok (4, h') ∧ Holds h' {3, 2} := by
  have hrun : Run threeInserted {4, 3, 2} {4, 3, 2} :=
    .insert (.insert (.insert (.start _ _) (by decide) (by decide)) (by decide) (by decide))
      (by decide) (by decide)
  obtain ⟨h', hok, hheld⟩ := ((pheap_run_correct hrun).2.2.2 3 (by decide)).1
  exact ⟨hrun, h', hok, hheld⟩

end Steps

end DstructPheapRuns
