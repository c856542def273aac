import Mathlib.Logic.Function.Basic
import Mathlib.Data.List.Nodup

/-! # The intrusive stack (`utils/dstruct/stack.h`)

The words of memory hold the `next` pointers of the nodes, 0 being `nullptr`. -/
namespace DstructStack

def stackPush (next : ℕ → ℕ) (head node : ℕ) : (ℕ → ℕ) × ℕ :=
  (Function.update next node head, node)

def stackPop (next : ℕ → ℕ) (head : ℕ) : ℕ × ℕ :=
  if head = 0 then (0, 0) else (head, next head)

def Chain (next : ℕ → ℕ) : ℕ → List ℕ → Prop
  | head, [] => head = 0
  | head, x :: xs => head = x ∧ x ≠ 0 ∧ Chain next (next x) xs

variable {next next' : ℕ → ℕ} {head x : ℕ} {xs : List ℕ}

theorem Chain.congr (h : Chain next head xs) (heq : ∀ y ∈ xs, next' y = next y) :
    Chain next' head xs := by
  induction xs generalizing head with
  | nil => exact h
  | cons y ys ih =>
    obtain ⟨hy, hy0, hys⟩ := h
    refine ⟨hy, hy0, ?_⟩
    rw [heq y List.mem_cons_self]
    exact ih hys fun z hz => heq z (List.mem_cons_of_mem y hz)

theorem Chain.push (h : Chain next head xs) (hx : x ≠ 0) (hout : x ∉ xs) :
    Chain (Function.update next x head) x (x :: xs) := by
  refine ⟨rfl, hx, ?_⟩
  rw [Function.update_self]
  refine h.congr fun y hy => Function.update_of_ne ?_ _ _
  rintro rfl
  exact hout hy

theorem Chain.pop (h : Chain next head (x :: xs)) :
    stackPop next head = (x, next x) ∧ Chain next (next x) xs := by
  obtain ⟨rfl, hx, hxs⟩ := h
  exact ⟨if_neg hx, hxs⟩

end DstructStack
