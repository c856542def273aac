import Mathlib.Data.List.Nodup

/-! # Doubly linked lists (`utils/dstruct/llist.c`) as sequences

A list is the sequence of the addresses of its nodes, 0 being `nullptr`. Where an
operation takes a node of the list, the node is in the sequence. -/
namespace DstructLlist

abbrev llistPushFront (node : ℕ) (l : List ℕ) : List ℕ := node :: l
abbrev llistPushBack (node : ℕ) (l : List ℕ) : List ℕ := l ++ [node]
abbrev llistNodeDelete (node : ℕ) (l : List ℕ) : List ℕ := l.erase node

def llistNodePrepend (pos node : ℕ) : List ℕ → List ℕ
  | [] => []
  | x :: xs => if x = pos then node :: x :: xs else x :: llistNodePrepend pos node xs

def llistNodeAppend (pos node : ℕ) : List ℕ → List ℕ
  | [] => []
  | x :: xs => if x = pos then x :: node :: xs else x :: llistNodeAppend pos node xs

/-- `node->prev` and `node->next` of a node in the list. -/
def llistPrev (node : ℕ) : List ℕ → ℕ
  | x :: y :: xs => if y = node then x else llistPrev node (y :: xs)
  | _ => 0

def llistNext (node : ℕ) : List ℕ → ℕ
  | x :: xs => if x = node then xs.headD 0 else llistNext node xs
  | [] => 0

variable {x y : ℕ} {as bs : List ℕ}

theorem llistNodePrepend_middle (hx : x ∉ as) :
    llistNodePrepend x y (as ++ x :: bs) = as ++ y :: x :: bs := by
  induction as with
  | nil => simp [llistNodePrepend]
  | cons a as ih =>
    rw [List.mem_cons, not_or] at hx
    simp [llistNodePrepend, Ne.symm hx.1, ih hx.2]

theorem llistNodeAppend_middle (hx : x ∉ as) :
    llistNodeAppend x y (as ++ x :: bs) = as ++ x :: y :: bs := by
  induction as with
  | nil => simp [llistNodeAppend]
  | cons a as ih =>
    rw [List.mem_cons, not_or] at hx
    simp [llistNodeAppend, Ne.symm hx.1, ih hx.2]

theorem llistPrev_middle (hx : x ∉ as) (hb : x ∉ bs) :
    llistPrev x (as ++ x :: bs) = as.getLastD 0 := by
  induction as with
  | nil =>
    suffices h : ∀ a, llistPrev x (a :: bs) = 0 from h x
    induction bs with
    | nil => exact fun _ => rfl
    | cons b bs ih =>
      intro a
      rw [List.mem_cons, not_or] at hb
      rw [llistPrev, if_neg (Ne.symm hb.1)]
      exact ih hb.2 b
  | cons a as ih =>
    rw [List.mem_cons, not_or] at hx
    cases as with
    | nil => simp [llistPrev]
    | cons b as =>
      have hne : b ≠ x := fun h => hx.2 (h ▸ List.mem_cons_self)
      rw [List.cons_append, List.cons_append, llistPrev, if_neg hne]
      exact ih hx.2

theorem llistNext_middle (hx : x ∉ as) : llistNext x (as ++ x :: bs) = bs.headD 0 := by
  induction as with
  | nil => simp [llistNext]
  | cons a as ih =>
    rw [List.mem_cons, not_or] at hx
    simp [llistNext, Ne.symm hx.1, ih hx.2]

theorem llistPrev_mem (l : List ℕ) (x : ℕ) : llistPrev x l = 0 ∨ llistPrev x l ∈ l := by
  induction l with
  | nil => exact .inl rfl
  | cons a l ih =>
    cases l with
    | nil => exact .inl rfl
    | cons b l =>
      rw [llistPrev]
      split
      · exact .inr List.mem_cons_self
      · exact ih.imp_right (List.mem_cons_of_mem _)

theorem llistNext_mem (l : List ℕ) (x : ℕ) : llistNext x l = 0 ∨ llistNext x l ∈ l := by
  induction l with
  | nil => exact .inl rfl
  | cons a l ih =>
    rw [llistNext]
    split
    · cases l with
      | nil => exact .inl rfl
      | cons b l => exact .inr (by simp)
    · exact ih.imp_right (List.mem_cons_of_mem _)

end DstructLlist
