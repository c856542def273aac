import EvalynKernel.DstructLlist
import EvalynKernel.MachineWords
import Mathlib.Data.List.Chain
import Mathlib.Logic.Function.Basic

/-! # The links of the doubly linked lists (`utils/dstruct/llist.c`)

`DstructLlist` has the operations on the sequence of the nodes. Here they are as `llist.c` does
them, on the links: a node that is taken out is linked to itself, and `llist_node_try_delete`
knows it by that mark. -/
namespace DstructLlistLinks

open Function MachineWords
open DstructLlist (llistNext llistPrev llistNodePrepend_middle llistNodeAppend_middle
  llistNext_middle llistPrev_middle)

structure Llist where
  count : ℕ
  head : ℕ
  tail : ℕ
  next : ℕ → ℕ
  prev : ℕ → ℕ

/-- A write through a pointer that may be `nullptr`. -/
def store (f : ℕ → ℕ) (p v : ℕ) : ℕ → ℕ := if p ≠ 0 then update f p v else f

def llistInitialNode (l : Llist) (node : ℕ) : Llist :=
  ⟨1, node, node, update l.next node 0, update l.prev node 0⟩

def llistNodeAppend (l : Llist) (pos node : ℕ) : Llist :=
  let l := { l with next := update l.next node (l.next pos), prev := update l.prev node pos }
  let l := { l with next := update l.next pos node }
  let l := { l with prev := store l.prev (l.next node) node }
  { l with tail := if l.tail = pos then node else l.tail, count := wadd l.count 1 }

def llistNodePrepend (l : Llist) (pos node : ℕ) : Llist :=
  let l := { l with next := update l.next node pos, prev := update l.prev node (l.prev pos) }
  let l := { l with prev := update l.prev pos node }
  let l := { l with next := store l.next (l.prev node) node }
  { l with head := if l.head = pos then node else l.head, count := wadd l.count 1 }

def llistPushFront (l : Llist) (node : ℕ) : Llist :=
  if l.head = 0 then llistInitialNode l node else llistNodePrepend l l.head node

def llistPushBack (l : Llist) (node : ℕ) : Llist :=
  if l.tail = 0 then llistInitialNode l node else llistNodeAppend l l.tail node

def llistNodeDelete (l : Llist) (node : ℕ) : Llist :=
  let l := { l with count := wsub l.count 1 }
  let l := { l with head := if l.head = node then l.next node else l.head }
  let l := { l with tail := if l.tail = node then l.prev node else l.tail }
  let l := { l with next := store l.next (l.prev node) (l.next node) }
  let l := { l with prev := store l.prev (l.next node) (l.prev node) }
  { l with next := update l.next node node, prev := update l.prev node node }

def llistPopFront (l : Llist) : ℕ × Llist :=
  (l.head, if l.head ≠ 0 then llistNodeDelete l l.head else l)

def llistNodeTryDelete (l : Llist) (node : ℕ) : Bool × Llist :=
  if l.next node ≠ node ∨ l.prev node ≠ node then (true, llistNodeDelete l node) else (false, l)

/-- The calls on a list, with its sequence and the nodes that have been in it. -/
inductive Run : Llist → List ℕ → List ℕ → Prop
  | init (next prev : ℕ → ℕ) : Run ⟨0, 0, 0, next, prev⟩ [] []
  | pushFront : Run l xs P → y ∉ 0 :: xs →
    Run (llistPushFront l y) (DstructLlist.llistPushFront y xs) (y :: P)
  | pushBack : Run l xs P → y ∉ 0 :: xs →
    Run (llistPushBack l y) (DstructLlist.llistPushBack y xs) (y :: P)
  | prepend : Run l xs P → x ∈ xs → y ∉ 0 :: xs →
    Run (llistNodePrepend l x y) (DstructLlist.llistNodePrepend x y xs) (y :: P)
  | append : Run l xs P → x ∈ xs → y ∉ 0 :: xs →
    Run (llistNodeAppend l x y) (DstructLlist.llistNodeAppend x y xs) (y :: P)
  | popFront : Run l xs P → Run (llistPopFront l).2 xs.tail P
  | delete : Run l xs P → x ∈ xs →
    Run (llistNodeDelete l x) (DstructLlist.llistNodeDelete x xs) P
  | tryDelete : Run l xs P → x ∈ P →
    Run (llistNodeTryDelete l x).2 (DstructLlist.llistNodeDelete x xs) P

/-- The links with the list itself as the node 0, whose neighbours are the first node and the
last. -/
def Llist.succ (l : Llist) (x : ℕ) : ℕ := if x = 0 then l.head else l.next x
def Llist.pred (l : Llist) (x : ℕ) : ℕ := if x = 0 then l.tail else l.prev x

def Link (l : Llist) (x y : ℕ) : Prop := l.succ x = y ∧ l.pred y = x

structure Rep (l : Llist) (xs : List ℕ) : Prop where
  nodup : (0 :: xs).Nodup
  count : l.count = xs.length % word
  linked : (0 :: xs ++ [0]).IsChain (Link l)

/-- The nodes of `P` have been in the list: one that is not in it now is linked to itself. -/
structure Inv (l : Llist) (xs P : List ℕ) : Prop extends Rep l xs where
  past : 0 ∉ P
  marked : ∀ x ∈ P, x ∉ xs → Link l x x

variable {l l' : Llist} {as bs m xs L R P : List ℕ} {a b c x y : ℕ}

/-- From `l` to `l'` only the links of `c`, that from `a` on and that from `b` back have changed. -/
structure Moved (l l' : Llist) (a c b : ℕ) : Prop where
  succ : ∀ z ≠ c, z ≠ a → l'.succ z = l.succ z
  pred : ∀ z ≠ c, z ≠ b → l'.pred z = l.pred z

theorem Moved.chain (hm : Moved l l' a c b) (h : m.IsChain (Link l)) (hc : c ∉ m)
    (ha : l.succ a ∉ m.tail) (hb : b ∉ m.tail) : m.IsChain (Link l') := by
  refine h.imp_of_mem_tail_imp fun u v hu hv (huv : Link l u v) => ?_
  have hua : u ≠ a := fun h => ha (by rwa [← h, huv.1])
  have hvb : v ≠ b := fun h => hb (h ▸ hv)
  have huc : u ≠ c := fun h => hc (h ▸ hu)
  have hvc : v ≠ c := fun h => hc (h ▸ List.mem_of_mem_tail hv)
  exact ⟨(hm.succ u huc hua).trans huv.1, (hm.pred v hvc hvb).trans huv.2⟩

theorem exists_last (as : List ℕ) : ∃ L, 0 :: as = L ++ [as.getLastD 0] := by
  rcases List.eq_nil_or_concat' as with rfl | ⟨as, a, rfl⟩
  · exact ⟨[], rfl⟩
  · exact ⟨0 :: as, by simp⟩

theorem exists_first (bs : List ℕ) : ∃ R, bs ++ [0] = bs.headD 0 :: R := by
  cases bs <;> simp

theorem linked_iff (ha : 0 :: as = L ++ [a]) (hb : bs ++ [0] = b :: R) :
    (0 :: (as ++ bs) ++ [0]).IsChain (Link l) ↔
      (0 :: as).IsChain (Link l) ∧ Link l a b ∧ (b :: R).IsChain (Link l) := by
  rw [← List.cons_append, List.append_assoc, ha, hb, List.append_assoc, List.singleton_append,
    List.isChain_append_cons_cons]

theorem ring_ends (hnd : (0 :: bs).Nodup) (ha : 0 :: as = L ++ [a]) (hb : bs ++ [0] = b :: R) :
    a ∈ 0 :: as ∧ b ∈ 0 :: bs ∧ ∀ z ∈ R, z ∈ 0 :: bs ∧ z ≠ b := by
  refine ⟨by simp [ha], ?_⟩
  cases bs with
  | nil => simp_all
  | cons c bs => grind

/-- A node `y` between two neighbours, of which one or both may be the list itself. -/
theorem Inv.insert (h : Inv l (as ++ bs) P) (hy : y ∉ 0 :: (as ++ bs)) (ha : 0 :: as = L ++ [a])
    (hb : bs ++ [0] = b :: R) (hcount : l'.count = wadd l.count 1)
    (hm : Moved l l' a y b ∧ Link l' a y ∧ Link l' y b) : Inv l' (as ++ y :: bs) (y :: P) := by
  obtain ⟨hm, hay, hyb⟩ := hm
  have hnd := h.nodup
  have hpast := h.past
  obtain ⟨hfront, hab, hback⟩ := (linked_iff ha hb).mp h.linked
  obtain ⟨hmema, hmemb, hR⟩ := ring_ends (by grind) ha hb
  refine ⟨⟨by grind, ?_, (linked_iff ha (by rw [List.cons_append, hb])).mpr
    ⟨hm.chain hfront ?_ ?_ ?_, hay, List.isChain_cons_cons.mpr ⟨hyb, hm.chain hback ?_ ?_ ?_⟩⟩⟩,
    by grind, fun z hz hzs => ?_⟩
  · rw [hcount, h.count]
    simp [wadd, List.length_append, Nat.add_assoc]
  case refine_8 =>
    have hmark := h.marked z (by grind) (by grind)
    exact ⟨(hm.succ z (by grind) (by grind)).trans hmark.1,
      (hm.pred z (by grind) (by grind)).trans hmark.2⟩
  all_goals grind [Link]

theorem Inv.remove (h : Inv l (as ++ x :: bs) P) (ha : 0 :: as = L ++ [a])
    (hb : bs ++ [0] = b :: R) (hcount : l'.count = wsub l.count 1)
    (hm : Moved l l' a x b ∧ Link l' a b ∧ Link l' x x) : Inv l' (as ++ bs) P := by
  obtain ⟨hm, hab, hxx⟩ := hm
  have hnd := h.nodup
  have hpast := h.past
  obtain ⟨hfront, hax, hback⟩ :=
    (linked_iff (b := x) (R := b :: R) ha (by rw [List.cons_append, hb])).mp h.linked
  obtain ⟨hxb, hback⟩ := List.isChain_cons_cons.mp hback
  obtain ⟨hmema, hmemb, hR⟩ := ring_ends (by grind) ha hb
  refine ⟨⟨by grind, ?_, (linked_iff ha hb).mpr ⟨hm.chain hfront ?_ ?_ ?_, hab,
    hm.chain hback ?_ ?_ ?_⟩⟩, h.past, fun z hz hzs => ?_⟩
  · rw [hcount, h.count]
    simp only [wsub, word, List.length_append, List.length_cons]
    omega
  case refine_8 =>
    by_cases hzx : z = x
    · rwa [hzx]
    · have hmark := h.marked z hz (by grind)
      exact ⟨(hm.succ z hzx (by grind)).trans hmark.1, (hm.pred z hzx (by grind)).trans hmark.2⟩
  all_goals grind [Link]

theorem Rep.ends (h : Rep l xs) : Link l 0 (xs.headD 0) ∧ Link l (xs.getLastD 0) 0 := by
  obtain ⟨R, hR⟩ := exists_first xs
  obtain ⟨L, hL⟩ := exists_last xs
  exact ⟨((linked_iff (L := []) rfl hR).mp h.linked).2.1,
    ((linked_iff (R := []) hL rfl).mp (by rw [List.append_nil]; exact h.linked)).2.1⟩

/-- The neighbours of a node; the list itself is one exactly at an end. -/
theorem Rep.neighbours (h : Rep l (as ++ x :: bs)) :
    ∃ L a b R, (a = as.getLastD 0 ∧ b = bs.headD 0) ∧
      (0 :: as = L ++ [a] ∧ bs ++ [0] = b :: R) ∧ (a ∈ 0 :: as ∧ b ∈ 0 :: bs) ∧
      (Link l a x ∧ Link l x b) ∧ (l.head = x → a = 0) ∧ (l.tail = x → b = 0) := by
  have hnd := h.nodup
  obtain ⟨L, ha⟩ := exists_last as
  obtain ⟨R, hb⟩ := exists_first bs
  obtain ⟨hmema, hmemb, -⟩ := ring_ends (by grind) ha hb
  obtain ⟨-, hax, hback⟩ := (linked_iff ha (by rw [List.cons_append, hb])).mp h.linked
  have hxb := (List.isChain_cons_cons.mp hback).1
  obtain ⟨hfirst, hlast⟩ := h.ends
  refine ⟨L, _, _, R, ⟨rfl, rfl⟩, ⟨ha, hb⟩, ⟨hmema, hmemb⟩, ⟨hax, hxb⟩, fun hx => ?_, fun hx => ?_⟩
  · rw [← hax.2, ← hx]
    exact (congrArg l.pred hfirst.1).trans hfirst.2
  · rw [← hxb.1, ← hx]
    exact (congrArg l.succ hlast.2).trans hlast.1

theorem store_apply (f : ℕ → ℕ) (p v x : ℕ) :
    store f p v x = if x = p ∧ p ≠ 0 then v else f x := by
  unfold store
  split <;> simp_all [update_apply]

theorem Inv.append (h : Inv l (as ++ x :: bs) P) (hy : y ∉ 0 :: (as ++ x :: bs)) :
    Inv (llistNodeAppend l x y) (as ++ x :: y :: bs) (y :: P) := by
  have hnd := h.nodup
  obtain ⟨_, a, b, R, -, ⟨-, hb⟩, hmem, ⟨-, hxb⟩, -, htail⟩ := h.neighbours
  simp only [Link, Llist.succ, Llist.pred] at hxb
  rw [List.append_cons] at h ⊢
  refine h.insert (by grind) (List.cons_append ..).symm hb rfl
    ⟨⟨fun z hzy hzx => ?_, fun z hzy hzb => ?_⟩, ⟨?_, ?_⟩, ?_, ?_⟩
  all_goals simp only [Llist.succ, Llist.pred, llistNodeAppend, store_apply, update_apply]; grind

theorem Inv.prepend (h : Inv l (as ++ x :: bs) P) (hy : y ∉ 0 :: (as ++ x :: bs)) :
    Inv (llistNodePrepend l x y) (as ++ y :: x :: bs) (y :: P) := by
  have hnd := h.nodup
  obtain ⟨L, a, b, _, -, ⟨ha, -⟩, hmem, ⟨hax, -⟩, hhead, -⟩ := h.neighbours
  simp only [Link, Llist.succ, Llist.pred] at hax
  refine h.insert hy ha (List.cons_append ..) rfl
    ⟨⟨fun z hzy hzx => ?_, fun z hzy hzb => ?_⟩, ⟨?_, ?_⟩, ?_, ?_⟩
  all_goals simp only [Llist.succ, Llist.pred, llistNodePrepend, store_apply, update_apply]; grind

theorem Inv.initial (h : Inv l [] P) (hy : y ≠ 0) : Inv (llistInitialNode l y) [y] (y :: P) := by
  refine Inv.insert (L := []) (R := []) (show Inv l ([] ++ []) P from h) (by simpa using hy) rfl rfl
    ?_ ⟨⟨fun z hzy hzx => ?_, fun z hzy hzb => ?_⟩, ⟨?_, ?_⟩, ?_, ?_⟩
  · rw [h.count]; rfl
  all_goals simp only [Llist.succ, Llist.pred, llistInitialNode, update_apply]; grind

theorem Inv.delete (h : Inv l (as ++ x :: bs) P) : Inv (llistNodeDelete l x) (as ++ bs) P := by
  have hnd := h.nodup
  obtain ⟨L, a, b, R, -, ⟨ha, hb⟩, hmem, ⟨hax, hxb⟩, hhead, htail⟩ := h.neighbours
  simp only [Link, Llist.succ, Llist.pred] at hax hxb
  refine h.remove ha hb rfl
    ⟨⟨fun z hzy hzx => ?_, fun z hzy hzb => ?_⟩, ⟨?_, ?_⟩, ?_, ?_⟩
  all_goals simp only [Llist.succ, Llist.pred, llistNodeDelete, store_apply, update_apply]; grind

theorem Inv.pushBack (h : Inv l xs P) (hy : y ∉ 0 :: xs) :
    Inv (llistPushBack l y) (xs ++ [y]) (y :: P) := by
  have hnd := h.nodup
  unfold llistPushBack
  rw [show l.tail = xs.getLastD 0 from h.ends.2.2]
  rcases List.eq_nil_or_concat' xs with rfl | ⟨as, x, rfl⟩
  · exact h.initial (by simpa using hy)
  · rw [List.getLastD_concat, if_neg (by grind), List.append_assoc]
    exact h.append hy

theorem Inv.pushFront (h : Inv l xs P) (hy : y ∉ 0 :: xs) :
    Inv (llistPushFront l y) (y :: xs) (y :: P) := by
  have hnd := h.nodup
  unfold llistPushFront
  rw [show l.head = xs.headD 0 from h.ends.1.1]
  cases xs with
  | nil => exact h.initial (by simpa using hy)
  | cons x bs =>
    rw [List.headD_cons, if_neg (by grind)]
    exact Inv.prepend (show Inv l ([] ++ x :: bs) P from h) hy

theorem Inv.popFront (h : Inv l xs P) :
    (llistPopFront l).1 = xs.headD 0 ∧ Inv (llistPopFront l).2 xs.tail P := by
  have hnd := h.nodup
  unfold llistPopFront
  rw [show l.head = xs.headD 0 from h.ends.1.1]
  refine ⟨rfl, ?_⟩
  cases xs with
  | nil => exact h
  | cons x bs =>
    rw [List.headD_cons, if_pos (by grind)]
    exact Inv.delete (show Inv l ([] ++ x :: bs) P from h)

theorem Inv.tryDelete (h : Inv l xs P) (hx : x ∈ P) :
    (llistNodeTryDelete l x).1 = decide (x ∈ xs) ∧
      Inv (llistNodeTryDelete l x).2 (xs.erase x) P := by
  have hnd := h.nodup
  have hx0 : x ≠ 0 := fun h0 => h.past (h0 ▸ hx)
  unfold llistNodeTryDelete
  by_cases hxs : x ∈ xs
  · obtain ⟨as, bs, rfl⟩ := List.append_of_mem hxs
    obtain ⟨_, a, b, _, -, -, hmem, ⟨-, hxb⟩, -⟩ := h.neighbours
    simp only [Link, Llist.succ, if_neg hx0] at hxb
    rw [if_pos (by grind), List.erase_append_right _ (by grind), List.erase_cons_head]
    exact ⟨by simp, h.delete⟩
  · have hmark := h.marked x hx hxs
    simp only [Link, Llist.succ, Llist.pred, if_neg hx0] at hmark
    rw [if_neg (by simp [hmark]), List.erase_of_not_mem hxs]
    exact ⟨by simp [hxs], h⟩

theorem Run.inv (h : Run l xs P) : Inv l xs P := by
  induction h with
  | init => exact ⟨⟨by simp, rfl, by simp [Link, Llist.succ, Llist.pred]⟩, by simp, by simp⟩
  | pushFront _ hy ih => exact ih.pushFront hy
  | pushBack _ hy ih => exact ih.pushBack hy
  | prepend _ hx hy ih =>
    obtain ⟨as, bs, rfl, has⟩ := List.eq_append_cons_of_mem hx
    rw [llistNodePrepend_middle has]
    exact ih.prepend hy
  | append _ hx hy ih =>
    obtain ⟨as, bs, rfl, has⟩ := List.eq_append_cons_of_mem hx
    rw [llistNodeAppend_middle has]
    exact ih.append hy
  | popFront _ ih => exact ih.popFront.2
  | delete _ hx ih =>
    obtain ⟨as, bs, rfl, has⟩ := List.eq_append_cons_of_mem hx
    rw [DstructLlist.llistNodeDelete, List.erase_append_right _ has, List.erase_cons_head]
    exact ih.delete
  | tryDelete _ hx ih => exact (ih.tryDelete hx).2

/-- The links of a node are its neighbours in the sequence. -/
theorem Rep.links (h : Rep l xs) (hx : x ∈ xs) :
    l.next x = llistNext x xs ∧ l.prev x = llistPrev x xs := by
  obtain ⟨as, bs, rfl, has⟩ := List.eq_append_cons_of_mem hx
  have hnd := h.nodup
  obtain ⟨_, a, b, _, ⟨ha, hb⟩, -, -, ⟨hax, hxb⟩, -⟩ := h.neighbours
  have hx0 : x ≠ 0 := by grind
  simp only [Link, Llist.succ, Llist.pred, if_neg hx0] at hax hxb
  rw [llistNext_middle has, llistPrev_middle has (by grind), ← ha, ← hb]
  exact ⟨hxb.1, hax.2⟩

/-- After any calls the links are those of the sequence, `llist_pop_front` returns its first node,
and `llist_node_try_delete` answers for a node that has been in the list whether it is there
now. -/
theorem llist_run_correct (h : Run l xs P) :
    (∀ x ∈ xs, l.next x = llistNext x xs ∧ l.prev x = llistPrev x xs) ∧
      (llistPopFront l).1 = xs.headD 0 ∧
      ∀ x ∈ P, (llistNodeTryDelete l x).1 = decide (x ∈ xs) :=
  ⟨fun _ hx => h.inv.links hx, h.inv.popFront.1, fun _ hx => (h.inv.tryDelete hx).1⟩

end DstructLlistLinks
