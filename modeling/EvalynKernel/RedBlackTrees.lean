import EvalynKernel.LinkedTrees

/-! # Red-black balance of trees and of contexts

`red` tells the red items. A context fits a black height when a balanced tree of that
height with a black root can be put in its hole; under a black parent the root put there
may be red as well. The hole at the root of the tree accepts a black root only. -/
namespace RedBlackTrees

open LinkedTrees

variable {α : Type} (red : α → Bool)

def rootRed : BinaryTree α → Bool
  | .nil => false
  | .node a _ _ => red a

/-- No red item has a red child, and `n` black items are on every path to a leaf. -/
def Balanced : BinaryTree α → ℕ → Prop
  | .nil, n => n = 0
  | .node a l r, n =>
    if red a then rootRed red l = false ∧ rootRed red r = false ∧ Balanced l n ∧ Balanced r n
    else ∃ m, n = m + 1 ∧ Balanced l m ∧ Balanced r m

def parentRed : List (Frame α) → Bool
  | [] => true
  | f :: _ => red f.item

def Fits : List (Frame α) → ℕ → Prop
  | [], _ => True
  | f :: c, n =>
    if red f.item then
      rootRed red f.other = false ∧ Balanced red f.other n ∧ parentRed red c = false ∧ Fits c n
    else Balanced red f.other n ∧ Fits c (n + 1)

def Valid (t : BinaryTree α) : Prop := rootRed red t = false ∧ ∃ n, Balanced red t n

variable {red} {a : α} {d : Side} {s o t : BinaryTree α} {c : List (Frame α)} {n : ℕ}

@[simp] theorem rootRed_nil : rootRed red .nil = false := rfl

@[simp] theorem rootRed_branch : rootRed red (branch d a s o) = red a := by
  cases d <;> rfl

@[simp] theorem balanced_nil : Balanced red .nil n ↔ n = 0 := Iff.rfl

theorem balanced_red (ha : red a = true) :
    Balanced red (branch d a s o) n ↔
      rootRed red s = false ∧ rootRed red o = false ∧ Balanced red s n ∧ Balanced red o n := by
  cases d
  · simp [branch, Balanced, ha]
  · simp only [branch, Balanced, ha, if_true]
    tauto

theorem balanced_black (ha : red a = false) :
    Balanced red (branch d a s o) n ↔ ∃ m, n = m + 1 ∧ Balanced red s m ∧ Balanced red o m := by
  cases d
  · simp [branch, Balanced, ha]
  · simp only [branch, Balanced, ha]
    exact exists_congr fun m => and_congr_right fun _ => and_comm

theorem balanced_black_succ (ha : red a = false) :
    Balanced red (branch d a s o) (n + 1) ↔ Balanced red s n ∧ Balanced red o n := by
  rw [balanced_black ha]
  constructor
  · rintro ⟨m, hm, h⟩
    obtain rfl : n = m := by omega
    exact h
  · exact fun h => ⟨n, rfl, h⟩

theorem Balanced.exists_branch (h : Balanced red t (n + 1)) (d : Side) :
    ∃ a s o, t = branch d a s o := by
  cases t with
  | nil => exact absurd h (Nat.succ_ne_zero n)
  | node a l r =>
    cases d
    · exact ⟨a, l, r, rfl⟩
    · exact ⟨a, r, l, rfl⟩

theorem Fits.valid (hc : Fits red c n) (ht : Balanced red t n)
    (hroot : rootRed red t = false ∨ parentRed red c = false) : Valid red (plug c t) := by
  induction c generalizing t n with
  | nil => exact ⟨hroot.resolve_right (by simp [parentRed]), n, ht⟩
  | cons f c ih =>
    cases hf : red f.item with
    | true =>
      simp only [Fits, hf, if_true] at hc
      obtain ⟨ho, hob, hp, hc⟩ := hc
      have hroot := hroot.resolve_right (by simp [parentRed, hf])
      exact ih hc ((balanced_red hf).2 ⟨hroot, ho, ht, hob⟩) (.inr hp)
    | false =>
      simp only [Fits, hf] at hc
      exact ih hc.2 ((balanced_black_succ hf).2 ⟨ht, hc.1⟩) (.inl (by simp [hf]))

theorem Valid.fits (h : Valid red (plug c t)) :
    ∃ n, Fits red c n ∧ Balanced red t n ∧ (rootRed red t = true → parentRed red c = false) := by
  induction c generalizing t with
  | nil =>
    obtain ⟨hroot, n, hn⟩ := h
    exact ⟨n, trivial, hn, fun hred => absurd (hroot.symm.trans hred) (by simp)⟩
  | cons f c ih =>
    obtain ⟨n, hc, hn, hp⟩ := ih h
    cases hf : red f.item with
    | true =>
      obtain ⟨hs, ho, hsb, hob⟩ := (balanced_red hf).1 hn
      refine ⟨n, ?_, hsb, fun hred => absurd (hs.symm.trans hred) (by simp)⟩
      simp only [Fits, hf, if_true]
      exact ⟨ho, hob, hp (by simp [hf]), hc⟩
    | false =>
      obtain ⟨m, rfl, hsb, hob⟩ := (balanced_black hf).1 hn
      refine ⟨m, ?_, hsb, fun _ => hf⟩
      simp only [Fits, hf]
      exact ⟨hob, hc⟩

theorem Balanced.branch_congr (ha : red a' = red a) (hroot : rootRed red s' = rootRed red s)
    (hs : ∀ n, Balanced red s n → Balanced red s' n) (h : Balanced red (branch d a s o) n) :
    Balanced red (branch d a' s' o) n := by
  cases hred : red a with
  | true =>
    obtain ⟨h₁, h₂, h₃, h₄⟩ := (balanced_red hred).1 h
    exact (balanced_red (ha.trans hred)).2 ⟨hroot.trans h₁, h₂, hs n h₃, h₄⟩
  | false =>
    obtain ⟨m, hm, h₁, h₂⟩ := (balanced_black hred).1 h
    exact (balanced_black (ha.trans hred)).2 ⟨m, hm, hs m h₁, h₂⟩

theorem plug_congr (c : List (Frame α)) (hroot : rootRed red s' = rootRed red s)
    (hs : ∀ n, Balanced red s n → Balanced red s' n) :
    rootRed red (plug c s') = rootRed red (plug c s) ∧
      ∀ n, Balanced red (plug c s) n → Balanced red (plug c s') n := by
  induction c generalizing s s' with
  | nil => exact ⟨hroot, hs⟩
  | cons f c ih =>
    refine ih ?_ fun n => Balanced.branch_congr rfl hroot hs
    rw [rootRed_branch, rootRed_branch]

end RedBlackTrees
