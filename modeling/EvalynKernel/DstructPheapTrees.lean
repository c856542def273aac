import EvalynKernel.DstructPheap
import EvalynKernel.LinkedTrees

/-! # Pairing heaps as trees

What melding, merging and detaching do to the trees that the links of a heap form. -/
namespace DstructPheapTrees

open MachineWords LinkedTrees DstructPheap

def links : Layout Node ℕ where
  child n
    | .left => n.leftChild
    | .right => n.nextSibling
  up := Node.prevSibling
  addr := id
  word _ p := p

@[simp] theorem links_left (n : Node) : links.child n .left = n.leftChild := rfl

@[simp] theorem links_right (n : Node) : links.child n .right = n.nextSibling := rfl

@[simp] theorem links_up (n : Node) : links.up n = n.prevSibling := rfl

@[simp] theorem links_addr (x : ℕ) : links.addr x = x := rfl

@[simp] theorem links_word (x p : ℕ) : links.word x p = p := rfl

@[simp] theorem links_map (l : List ℕ) : l.map links.addr = l := List.map_id l

theorem links_child {n n' : Node} (hl : n.leftChild = n'.leftChild)
    (hr : n.nextSibling = n'.nextSibling) : links.child n = links.child n' := by
  funext d
  cases d
  · exact hl
  · exact hr

theorem ptr_zero_or_mem (t : BinaryTree ℕ) : links.ptr t = 0 ∨ links.ptr t ∈ inorder t := by
  cases t <;> simp

structure PTree where
  root : ℕ
  kids : BinaryTree ℕ

def PTree.nodes (A : PTree) : List ℕ := A.root :: inorder A.kids

def PTree.Rep (m : ℕ → Node) (A : PTree) : Prop :=
  A.root ≠ 0 ∧ (m A.root).leftChild = links.ptr A.kids ∧ links.Rep m A.root A.kids

def PTree.meld (v : ℕ → ℕ) (A B : PTree) : PTree :=
  if v A.root ≤ v B.root then ⟨A.root, .node B.root B.kids A.kids⟩
  else ⟨B.root, .node A.root A.kids B.kids⟩

def Ordered (v : ℕ → ℕ) (a : ℕ) : BinaryTree ℕ → Prop
  | .nil => True
  | .node b kids later => v a ≤ v b ∧ Ordered v b kids ∧ Ordered v a later

def PTree.Ordered (v : ℕ → ℕ) (A : PTree) : Prop := DstructPheapTrees.Ordered v A.root A.kids

theorem meld_nodes (v : ℕ → ℕ) (A B : PTree) :
    (A.meld v B).nodes.Perm (A.nodes ++ B.nodes) := by
  have hswap : ∀ C D : PTree,
      (PTree.nodes ⟨C.root, .node D.root D.kids C.kids⟩).Perm (C.nodes ++ D.nodes) := by
    intro C D
    simp only [PTree.nodes, inorder_node, List.cons_append, List.perm_cons]
    exact List.perm_middle.trans ((List.perm_append_comm.cons _).trans List.perm_middle.symm)
  unfold PTree.meld
  split
  · exact hswap A B
  · exact (hswap B A).trans List.perm_append_comm

variable {A : PTree}

theorem meld_ordered {B : PTree} (hA : A.Ordered v) (hB : B.Ordered v) :
    (A.meld v B).Ordered v := by
  unfold PTree.meld
  split
  · next h => exact ⟨h, hB, hA⟩
  · next h => exact ⟨(not_le.1 h).le, hA, hB⟩

section Attach

variable {m : ℕ → Node} {v : ℕ → ℕ}

variable {a : ℕ}

theorem pheapAttach_apply (hc : (m a).leftChild = c) (hab : a ≠ b) (hca : c ≠ a) (hcb : c ≠ b)
    (x : ℕ) :
    pheapAttach m a b x =
      if x = a then { m a with leftChild := b }
      else if x = b then { m b with nextSibling := c, prevSibling := a }
      else if x = c ∧ c ≠ 0 then { m c with prevSibling := b }
      else m x := by
  subst hc
  unfold pheapAttach setLeftChild setPrevSibling setNextSibling
  by_cases h0 : (m a).leftChild = 0 <;> grind

theorem attach_rep {B : PTree} (hA : A.Rep m) (hB : B.Rep m) (hnd : (A.nodes ++ B.nodes).Nodup) :
    PTree.Rep (pheapAttach m A.root B.root) ⟨A.root, .node B.root B.kids A.kids⟩ ∧
      ∀ x, x ∉ A.nodes → x ∉ B.nodes → pheapAttach m A.root B.root x = m x := by
  obtain ⟨hA0, hAl, hAr⟩ := hA
  obtain ⟨hB0, hBl, hBr⟩ := hB
  have hptr := ptr_zero_or_mem A.kids
  simp only [PTree.nodes, List.cons_append, List.nodup_cons, List.mem_append, List.mem_cons,
    List.nodup_append, not_or] at hnd
  obtain ⟨⟨hAA, hAB, hABk⟩, hAnd, ⟨hBB, -⟩, hdis⟩ := hnd
  have hca : links.ptr A.kids ≠ A.root := by grind
  have hcb : links.ptr A.kids ≠ B.root := by grind
  have happ := pheapAttach_apply hAl hAB hca hcb
  have hout : ∀ x, x ≠ A.root → x ≠ B.root → (x = links.ptr A.kids → x = 0) →
      pheapAttach m A.root B.root x = m x := by
    intro x ha hb hc
    rw [happ, if_neg ha, if_neg hb, if_neg]
    rintro ⟨rfl, h0⟩
    exact h0 (hc rfl)
  have hkids : ∀ x ∈ inorder A.kids, x ∉ inorder B.kids := fun x hx hx' =>
    hdis x hx x (.inr hx') rfl
  refine ⟨⟨hA0, ?_, hB0, ?_, ?_, ?_, hBr.congr fun x hx => ?_, hAr.reparent ?_ ?_ ?_⟩,
    fun x hxA hxB => ?_⟩
  · simp [happ]
  · simpa [happ, Ne.symm hAB] using hBl
  · simp [happ, Ne.symm hAB]
  · simp [happ, Ne.symm hAB]
  · have hx' : x ∈ inorder B.kids := by simpa using hx
    refine hout x ?_ ?_ fun hxp => ?_
    · grind
    · grind
    · exact hptr.elim hxp.trans fun hin => absurd hx' (hkids x (hxp ▸ hin))
  · intro a l r hk
    have ha : links.ptr A.kids = a := by rw [hk]; rfl
    have ha0 : a ≠ 0 := by
      rw [hk] at hAr
      exact hAr.1
    rw [ha] at happ hca hcb
    exact ⟨links_child (by simp [happ, hca, hcb, ha0]) (by simp [happ, hca, hcb, ha0]),
      by simp [happ, hca, hcb, ha0]⟩
  · intro x hx hxne
    have hx' : x ∈ inorder A.kids := by simpa using hx
    exact hout x (by grind) (by grind) fun hxp => absurd hxp hxne
  · simpa using hAnd
  · simp only [PTree.nodes, List.mem_cons, not_or] at hxA hxB
    exact hout x hxA.1 hxB.1 fun hxp => hptr.elim hxp.trans fun hin => absurd (hxp ▸ hin) hxA.2

def rootOf : Option PTree → ℕ
  | none => 0
  | some A => A.root

def nodesOf : Option PTree → List ℕ
  | none => []
  | some A => A.nodes

def RepOf (m : ℕ → Node) : Option PTree → Prop
  | none => True
  | some A => A.Rep m

def OrderedOf (v : ℕ → ℕ) : Option PTree → Prop
  | none => True
  | some A => A.Ordered v

def meldOf (v : ℕ → ℕ) : Option PTree → Option PTree → Option PTree
  | none, B => B
  | some A, none => some A
  | some A, some B => some (A.meld v B)

theorem meldOf_nodes (v : ℕ → ℕ) (A B : Option PTree) :
    (nodesOf (meldOf v A B)).Perm (nodesOf A ++ nodesOf B) := by
  cases A with
  | none => exact .refl _
  | some A =>
    cases B with
    | none => simp [meldOf, nodesOf]
    | some B => exact meld_nodes v A B

variable {B : Option PTree}

theorem meldOf_ordered {A : Option PTree} (hA : OrderedOf v A) (hB : OrderedOf v B) :
    OrderedOf v (meldOf v A B) := by
  cases A with
  | none => exact hB
  | some A =>
    cases B with
    | none => exact hA
    | some B => exact meld_ordered hA hB

theorem pheapMeld_spec {A : Option PTree} (hA : RepOf m A) (hB : RepOf m B)
    (hnd : (nodesOf A ++ nodesOf B).Nodup) :
    (pheapMeld v m (rootOf A) (rootOf B)).1 = rootOf (meldOf v A B) ∧
      RepOf (pheapMeld v m (rootOf A) (rootOf B)).2 (meldOf v A B) ∧
      ∀ x, x ∉ nodesOf A → x ∉ nodesOf B →
        (pheapMeld v m (rootOf A) (rootOf B)).2 x = m x := by
  cases A with
  | none => simpa [pheapMeld, rootOf, meldOf] using hB
  | some A =>
    cases B with
    | none => simpa [pheapMeld, rootOf, meldOf, hA.1] using hA
    | some B =>
      have hA0 : A.root ≠ 0 := hA.1
      have hB0 : B.root ≠ 0 := hB.1
      by_cases hle : v A.root ≤ v B.root
      · obtain ⟨hrep, hout⟩ := attach_rep hA hB hnd
        simpa [pheapMeld, rootOf, meldOf, PTree.meld, hA0, hB0, hle] using ⟨hrep, hout⟩
      · obtain ⟨hrep, hout⟩ := attach_rep hB hA (List.nodup_append_comm.1 hnd)
        simpa [pheapMeld, rootOf, meldOf, PTree.meld, hA0, hB0, hle] using
          ⟨hrep, fun x hxA hxB => hout x hxB hxA⟩

/-- Heaps chained through `next_sibling`, the first at address `x`. -/
def Chain (m : ℕ → Node) : ℕ → List PTree → Prop
  | x, [] => x = 0
  | x, A :: rest => x = A.root ∧ A.Rep m ∧ Chain m (m x).nextSibling rest

def chainNodes (ts : List PTree) : List ℕ := ts.flatMap PTree.nodes

@[simp] theorem chainNodes_nil : chainNodes [] = [] := rfl

@[simp] theorem chainNodes_cons (A : PTree) (ts : List PTree) :
    chainNodes (A :: ts) = A.nodes ++ chainNodes ts := rfl

@[simp] theorem chainNodes_append (ts us : List PTree) :
    chainNodes (ts ++ us) = chainNodes ts ++ chainNodes us := by simp [chainNodes]

variable {m' : ℕ → Node}

theorem PTree.Rep.congr (h : A.Rep m) (hm : ∀ x ∈ A.nodes, m' x = m x) : A.Rep m' := by
  obtain ⟨h0, hl, hr⟩ := h
  have hroot : m' A.root = m A.root := hm _ (by simp [PTree.nodes])
  refine ⟨h0, hroot ▸ hl, hr.congr fun x hx => hm x ?_⟩
  rw [links_map] at hx
  exact List.mem_cons_of_mem _ hx

variable {ts : List PTree} {x : ℕ}

theorem Chain.congr (h : Chain m x ts) (hm : ∀ y ∈ chainNodes ts, m' y = m y) : Chain m' x ts := by
  induction ts generalizing x with
  | nil => exact h
  | cons A rest ih =>
    simp only [chainNodes_cons, List.mem_append] at hm
    obtain ⟨rfl, hA, hrest⟩ := h
    have hroot : m' A.root = m A.root := hm _ (.inl (by simp [PTree.nodes]))
    exact ⟨rfl, hA.congr fun y hy => hm y (.inl hy),
      hroot ▸ ih hrest fun y hy => hm y (.inr hy)⟩

variable {n : ℕ}

theorem PTree.Rep.setNext (h : A.Rep m) (hnd : A.nodes.Nodup) :
    A.Rep (setNextSibling m A.root n) := by
  obtain ⟨h0, hl, hr⟩ := h
  refine ⟨h0, by simpa [setNextSibling] using hl, hr.congr fun x hx => ?_⟩
  have hx' : x ∈ inorder A.kids := by simpa using hx
  have hne : x ≠ A.root := ne_of_mem_of_not_mem hx' (List.nodup_cons.1 hnd).1
  simp [setNextSibling, hne]

variable {ps : List PTree} {pairs : ℕ}

theorem stack_pair (hA : A.Rep m) (hB : RepOf m B) (hps : Chain m pairs ps)
    (hnd : (A.nodes ++ nodesOf B ++ chainNodes ps).Nodup) :
    ∃ C : PTree, meldOf v (some A) B = some C ∧
      (pheapMeld v m A.root (rootOf B)).1 = C.root ∧
      Chain (setNextSibling (pheapMeld v m A.root (rootOf B)).2 C.root pairs) C.root (C :: ps) ∧
      ∀ x, x ∉ A.nodes → x ∉ nodesOf B →
        setNextSibling (pheapMeld v m A.root (rootOf B)).2 C.root pairs x = m x := by
  obtain ⟨C, hC⟩ : ∃ C, meldOf v (some A) B = some C := by
    cases B <;> exact ⟨_, rfl⟩
  rw [List.nodup_append] at hnd
  obtain ⟨hndAB, -, hdis⟩ := hnd
  obtain ⟨hroot, hrep, hout⟩ := pheapMeld_spec (A := some A) hA hB hndAB
  have hperm := meldOf_nodes v (some A) B
  rw [hC] at hroot hrep hperm
  have hCmem : ∀ x, x ∈ C.nodes ↔ x ∈ A.nodes ∨ x ∈ nodesOf B := by
    intro x
    rw [← List.mem_append]
    exact hperm.mem_iff
  have hCroot : C.root ∈ C.nodes := List.mem_cons_self
  have hout' : ∀ x, x ∉ A.nodes → x ∉ nodesOf B →
      setNextSibling (pheapMeld v m A.root (rootOf B)).2 C.root pairs x = m x := by
    intro x hxA hxB
    have hne : x ≠ C.root := by
      rintro rfl
      exact ((hCmem _).1 hCroot).elim hxA hxB
    rw [setNextSibling, Function.update_of_ne hne]
    exact hout x hxA hxB
  refine ⟨C, hC, hroot, ⟨rfl, hrep.setNext (hperm.nodup_iff.2 hndAB), ?_⟩, hout'⟩
  simp only [setNextSibling, Function.update_self]
  refine hps.congr fun y hy => hout' y ?_ ?_
  · exact fun hyA => hdis y (List.mem_append_left _ hyA) y hy rfl
  · exact fun hyB => hdis y (List.mem_append_right _ hyB) y hy rfl

theorem Chain.second (h : Chain m x rest) :
    ∃ (B : Option PTree) (later : List PTree), rest = B.toList ++ later ∧ RepOf m B ∧
      x = rootOf B ∧ Chain m (if x ≠ 0 then (m x).nextSibling else 0) later := by
  cases rest with
  | nil =>
    obtain rfl : x = 0 := h
    exact ⟨none, [], rfl, trivial, rfl, rfl⟩
  | cons B later =>
    obtain ⟨rfl, hB, hlater⟩ := h
    exact ⟨some B, later, rfl, hB, rfl, by rwa [if_pos hB.1]⟩

theorem chainNodes_toList (B : Option PTree) : chainNodes B.toList = nodesOf B := by
  cases B <;> simp [nodesOf]

variable {fuel : ℕ}

theorem mergePairs_spec (hts : Chain m cur ts) (hps : Chain m pairs ps)
    (hnd : (chainNodes ts ++ chainNodes ps).Nodup) (hord : ∀ A ∈ ts ++ ps, A.Ordered v)
    (hfuel : ts.length ≤ fuel) :
    ∃ x m' us, mergePairs v fuel m cur pairs = .ok (x, m') ∧ Chain m' x us ∧
      (chainNodes us).Perm (chainNodes ts ++ chainNodes ps) ∧ (∀ A ∈ us, A.Ordered v) ∧
      us.length ≤ ts.length + ps.length ∧
      ∀ y, y ∉ chainNodes ts → y ∉ chainNodes ps → m' y = m y := by
  induction fuel generalizing m cur pairs ts ps with
  | zero =>
    obtain rfl := List.length_eq_zero_iff.1 (Nat.le_zero.1 hfuel)
    obtain rfl : cur = 0 := hts
    exact ⟨pairs, m, ps, by simp [mergePairs], hps, by simp, by simpa using hord, by simp,
      fun _ _ _ => rfl⟩
  | succ fuel ih =>
    match ts, hts with
    | [], hts =>
      obtain rfl : cur = 0 := hts
      exact ⟨pairs, m, ps, by simp [mergePairs], hps, by simp, by simpa using hord, by simp,
        fun _ _ _ => rfl⟩
    | A :: rest, hts =>
      obtain ⟨rfl, hA, hrest⟩ := hts
      obtain ⟨B, later, rfl, hB, hnext, hlater⟩ := hrest.second
      simp only [chainNodes_cons, chainNodes_append, chainNodes_toList] at hnd ⊢
      have hperm : (A.nodes ++ (nodesOf B ++ chainNodes later) ++ chainNodes ps).Perm
          (chainNodes later ++ (A.nodes ++ nodesOf B ++ chainNodes ps)) :=
        List.perm_iff_count.2 fun y => by simp only [List.count_append]; omega
      obtain ⟨-, hndAB, hdis⟩ := List.nodup_append.1 (hperm.nodup_iff.1 hnd)
      obtain ⟨C, hC, hroot, hchain, hout⟩ := stack_pair (v := v) hA hB hps hndAB
      have hCp : C.nodes.Perm (A.nodes ++ nodesOf B) := by
        have hp := meldOf_nodes v (some A) B
        rwa [hC] at hp
      have hCo : C.Ordered v := by
        have ho : OrderedOf v (meldOf v (some A) B) := by
          refine meldOf_ordered (hord A (by simp)) ?_
          cases B with
          | none => trivial
          | some B => exact hord B (by simp)
        rwa [hC] at ho
      have hrun : mergePairs v (fuel + 1) m A.root pairs =
          mergePairs v fuel (setNextSibling (pheapMeld v m A.root (rootOf B)).2 C.root pairs)
            (if (m A.root).nextSibling ≠ 0 then (m (m A.root).nextSibling).nextSibling else 0)
            C.root := by
        rw [mergePairs, if_neg hA.1]
        simp only [hnext, hroot]
      have hlater' := hlater.congr fun y hy => hout y
        (fun hyA => hdis y hy y (by simp [hyA]) rfl) (fun hyB => hdis y hy y (by simp [hyB]) rfl)
      have hpermC : (chainNodes later ++ (C.nodes ++ chainNodes ps)).Perm
          (A.nodes ++ (nodesOf B ++ chainNodes later) ++ chainNodes ps) :=
        ((hCp.append_right _).append_left _).trans hperm.symm
      have hord' : ∀ D ∈ later ++ C :: ps, D.Ordered v := by
        intro D hD
        simp only [List.mem_append, List.mem_cons] at hD
        rcases hD with hD | rfl | hD
        · exact hord D (by simp [hD])
        · exact hCo
        · exact hord D (by simp [hD])
      simp only [List.length_cons, List.length_append] at hfuel
      obtain ⟨x, m', us, hok, hus, husp, huso, hlen, hframe⟩ := ih hlater' hchain
        (hpermC.nodup_iff.2 hnd) hord' (by omega)
      refine ⟨x, m', us, hrun.trans hok, hus, husp.trans hpermC, huso, ?_, fun y hyt hyp => ?_⟩
      · simp only [List.length_cons, List.length_append] at hlen ⊢
        omega
      · simp only [List.mem_append, not_or] at hyt
        rw [hframe y hyt.2.2, hout y hyt.1 hyt.2.1]
        simp only [chainNodes_cons, List.mem_append, hCp.mem_iff, not_or]
        exact ⟨⟨hyt.1, hyt.2.1⟩, hyp⟩

theorem mergeStack_spec (hH : RepOf m H) (hps : Chain m pairs ps)
    (hnd : (nodesOf H ++ chainNodes ps).Nodup) (hHo : OrderedOf v H) (hord : ∀ A ∈ ps, A.Ordered v)
    (hfuel : ps.length ≤ fuel) :
    ∃ m' K, mergeStack v fuel m (rootOf H) pairs = .ok (rootOf K, m') ∧ RepOf m' K ∧
      (nodesOf K).Perm (nodesOf H ++ chainNodes ps) ∧ OrderedOf v K ∧
      ∀ y, y ∉ nodesOf H → y ∉ chainNodes ps → m' y = m y := by
  induction ps generalizing fuel m pairs H with
  | nil =>
    obtain rfl : pairs = 0 := hps
    exact ⟨m, H, by cases fuel <;> simp [mergeStack], hH, by simp, hHo, fun _ _ _ => rfl⟩
  | cons A rest ih =>
    obtain ⟨rfl, hA, hrest⟩ := hps
    obtain ⟨fuel, rfl⟩ : ∃ n, fuel = n + 1 := ⟨fuel - 1, by simp at hfuel; omega⟩
    simp only [chainNodes_cons, ← List.append_assoc] at hnd ⊢
    obtain ⟨hndA, -, hdis⟩ := List.nodup_append.1 hnd
    obtain ⟨hroot, hrep, hout⟩ := pheapMeld_spec (v := v) (B := some A) hH hA hndA
    have hperm := meldOf_nodes v H (some A)
    have hrest' := hrest.congr fun y hy => hout y
      (fun hyH => hdis y (by simp [hyH]) y hy rfl)
      (fun hyA => hdis y (List.mem_append_right _ hyA) y hy rfl)
    obtain ⟨m', K, hok, hK, hKp, hKo, hframe⟩ := ih hrep hrest'
      ((hperm.append_right _).nodup_iff.2 hnd) (meldOf_ordered hHo (hord A (by simp)))
      (fun B hB => hord B (by simp [hB])) (by simpa using hfuel)
    refine ⟨m', K, ?_, hK, hKp.trans (hperm.append_right _), hKo, fun y hyH hyp => ?_⟩
    · rw [mergeStack, if_neg hA.1]
      simp only
      rw [← hok, ← hroot]
      rfl
    · simp only [List.mem_append, not_or] at hyp
      rw [hframe y _ hyp.2, hout y hyH hyp.1]
      rw [hperm.mem_iff, List.mem_append, not_or]
      exact ⟨hyH, hyp.1⟩

def siblings : BinaryTree ℕ → List PTree
  | .nil => []
  | .node b kids later => ⟨b, kids⟩ :: siblings later

variable {t : BinaryTree ℕ}

theorem chain_siblings (h : links.Rep m p t) : Chain m (links.ptr t) (siblings t) := by
  induction t generalizing p with
  | nil => rfl
  | node b kids later _ ih =>
    obtain ⟨h0, hl, hr, -, hkids, hlater⟩ := h
    refine ⟨rfl, ⟨h0, hl, hkids⟩, ?_⟩
    have hchain := ih hlater
    rw [← hr] at hchain
    exact hchain

theorem chainNodes_siblings (t : BinaryTree ℕ) : (chainNodes (siblings t)).Perm (inorder t) := by
  induction t with
  | nil => exact .refl _
  | node b kids later _ ih =>
    simp only [siblings, chainNodes_cons, PTree.nodes, List.cons_append, inorder_node]
    exact ((ih.append_left _).cons b).trans List.perm_middle.symm

theorem length_siblings_le (t : BinaryTree ℕ) : (siblings t).length ≤ (inorder t).length := by
  induction t with
  | nil => exact le_refl _
  | node b kids later _ ih =>
    simp only [siblings, List.length_cons, inorder_node, List.length_append]
    omega

theorem ordered_siblings (h : Ordered v a t) : ∀ A ∈ siblings t, A.Ordered v := by
  induction t with
  | nil => simp [siblings]
  | node b kids later _ ih =>
    obtain ⟨-, hkids, hlater⟩ := h
    simp only [siblings, List.mem_cons, forall_eq_or_imp]
    exact ⟨hkids, ih hlater⟩

theorem pheapMergeChildren_spec (hA : A.Rep m) (hnd : A.nodes.Nodup) (hord : A.Ordered v)
    (hfuel : (inorder A.kids).length ≤ fuel) :
    ∃ m' K, pheapMergeChildren v fuel m A.root = .ok (rootOf K, m') ∧ RepOf m' K ∧
      (nodesOf K).Perm (inorder A.kids) ∧ OrderedOf v K ∧
      ∀ y, y ∉ inorder A.kids → m' y = m y := by
  obtain ⟨-, hl, hkids⟩ := hA
  have hperm := chainNodes_siblings A.kids
  have hlen := length_siblings_le A.kids
  have hnd' := hperm.nodup_iff.2 (List.nodup_cons.1 hnd).2
  have hempty : Chain m 0 [] := rfl
  obtain ⟨x, m₁, us, hok, hus, husp, huso, huslen, hframe⟩ :=
    mergePairs_spec (chain_siblings hkids) hempty (by simpa using hnd')
      (by simpa using ordered_siblings hord) (hlen.trans hfuel)
  simp only [chainNodes_nil, List.append_nil, List.length_nil, Nat.add_zero] at husp huslen
  have hnone : RepOf m₁ none := trivial
  obtain ⟨m₂, K, hok', hK, hKp, hKo, hframe'⟩ := mergeStack_spec hnone hus
    (by simpa [nodesOf] using husp.nodup_iff.2 hnd') trivial huso
    ((huslen.trans hlen).trans hfuel)
  simp only [nodesOf, List.nil_append] at hKp hframe'
  refine ⟨m₂, K, ?_, hK, (hKp.trans husp).trans hperm, hKo, fun y hy => ?_⟩
  · rw [pheapMergeChildren, hl, hok]
    exact hok'
  · have hy' : y ∉ chainNodes (siblings A.kids) := fun h => hy (hperm.mem_iff.1 h)
    rw [hframe' y (by simp) fun h => hy' (husp.mem_iff.1 h), hframe y hy' (by simp)]

theorem pheapDetach_apply (hq : (m x).prevSibling = q) (hn : (m x).nextSibling = n) (hqx : q ≠ x)
    (hnq : n ≠ q) (y : ℕ) :
    pheapDetach m x y =
      if y = q then
        if (m q).leftChild = x then { m q with leftChild := n } else { m q with nextSibling := n }
      else if y = n ∧ n ≠ 0 then { m n with prevSibling := q }
      else m y := by
  subst hq hn
  unfold pheapDetach setLeftChild setPrevSibling setNextSibling
  by_cases hl : (m (m x).prevSibling).leftChild = x <;>
    by_cases h0 : (m x).nextSibling = 0 <;> grind

/-- Taking a node with its children out of the tree above it. -/
theorem detach_rep (h : PTree.Rep m ⟨a, plug c (.node x kids later)⟩)
    (hnd : (PTree.nodes ⟨a, plug c (.node x kids later)⟩).Nodup) :
    PTree.Rep (pheapDetach m x) ⟨a, plug c later⟩ ∧
      PTree.Rep (pheapDetach m x) ⟨x, kids⟩ ∧
      ∀ y, y ∉ PTree.nodes ⟨a, plug c (.node x kids later)⟩ → pheapDetach m x y = m y := by
  obtain ⟨ha0, hal, hrep⟩ := h
  obtain ⟨hc, hx0, hxl, hxr, hxu, hkids, hlater⟩ := Layout.rep_plug.1 hrep
  have hperm : (PTree.nodes ⟨a, plug c (.node x kids later)⟩).Perm
      (a :: (inorder kids ++ x :: inorder later ++ around c)) :=
    (inorder_plug_perm c (.node x kids later)).cons a
  have hnd' := hperm.nodup_iff.1 hnd
  simp only [List.nodup_cons, List.nodup_append, List.mem_append, List.mem_cons, not_or] at hnd'
  have hptr := ptr_zero_or_mem later
  have hq : links.hole a c = a ∨ links.hole a c ∈ around c := by
    cases c <;> simp [Layout.hole, around]
  have hq0 : links.hole a c ≠ 0 := hc.hole_ne_zero ha0
  have hqx : links.hole a c ≠ x := by grind
  have hnq : links.ptr later ≠ links.hole a c := by grind
  have happ := pheapDetach_apply (x := x) (q := links.hole a c) (n := links.ptr later)
    hxu hxr hqx hnq
  have hout : ∀ y, y ≠ links.hole a c → (y = links.ptr later → y = 0) →
      pheapDetach m x y = m y := by
    intro y hyq hyn
    rw [happ, if_neg hyq, if_neg]
    rintro ⟨rfl, h0⟩
    exact h0 (hyn rfl)
  have hlater' : links.Rep (pheapDetach m x) (links.hole a c) later := by
    refine hlater.reparent (fun b l r hb => ?_) (fun y hy hyn => hout y ?_ (absurd · hyn)) ?_
    · have hb' : links.ptr later = b := by rw [hb]; rfl
      have hb0 : b ≠ 0 := by
        rw [hb] at hlater
        exact hlater.1
      rw [hb'] at happ hnq
      exact ⟨links_child (by simp [happ, hnq, hb0]) (by simp [happ, hnq, hb0]),
        by simp [happ, hnq, hb0]⟩
    · have hy' : y ∈ inorder later := by simpa using hy
      grind
    · simpa using hnd'.2.1.2.1.2
  refine ⟨?_, ?_, ?_⟩
  · cases c with
    | nil =>
      refine ⟨ha0, ?_, hlater'⟩
      have hal' : (m a).leftChild = x := hal
      simp [happ, Layout.hole, hal', plug]
    | cons f c =>
      obtain ⟨d, b, other⟩ := f
      have hside := hc.2.1
      have hflip := hc.2.2.1
      have hother : links.ptr other ≠ x := by
        have hmem := ptr_zero_or_mem other
        simp only [around, List.mem_cons, List.mem_append] at hnd'
        grind [links_addr]
      refine ⟨ha0, ?_, Layout.rep_plug.2 ⟨?_, hlater'⟩⟩
      · have hab : a ≠ b := fun h => hnd'.1.2 (by simp [around, h])
        simp only
        rw [hout a hab (by grind)]
        exact hal.trans (Layout.ptr_plug_cons _ c _ _)
      · have hrest : ∀ z ∈ (around (⟨d, b, other⟩ :: c)).map links.addr, z ≠ b →
            pheapDetach m x z = m z := by
          intro z hz hzb
          refine hout z hzb fun hzn => ?_
          have hz' : z ∈ around (⟨d, b, other⟩ :: c) := by simpa using hz
          grind
        cases d with
        | left =>
          have hleft : (m b).leftChild = x := hside
          exact hc.refill (by simp [happ, Layout.hole, hleft])
            (by simp [happ, Layout.hole, hleft, Side.flip]) (by simp [happ, Layout.hole, hleft])
            hrest (by simpa using hnd'.2.2.1)
        | right =>
          have hleft : (m b).leftChild ≠ x := by
            rw [show (m b).leftChild = links.ptr other from hflip]
            exact hother
          exact hc.refill (by simp [happ, Layout.hole, hleft])
            (by simp [happ, Layout.hole, hleft, Side.flip]) (by simp [happ, Layout.hole, hleft])
            hrest (by simpa using hnd'.2.2.1)
  · refine ⟨hx0, ?_, hkids.congr fun y hy => hout y ?_ fun hyn => ?_⟩
    · rw [hout x hqx.symm ?_]
      · exact hxl
      · grind
    · have hy' : y ∈ inorder kids := by simpa using hy
      grind
    · have hy' : y ∈ inorder kids := by simpa using hy
      grind
  · intro y hy
    rw [hperm.mem_iff] at hy
    refine hout y ?_ fun hyn => ?_
    · grind
    · grind

end Attach

end DstructPheapTrees
