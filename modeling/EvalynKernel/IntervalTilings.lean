import Mathlib.Data.List.Basic
import Mathlib.Order.Nat

/-! # Lists of intervals that tile an interval

The intervals are given by their start and their length; an interval may be empty. -/
namespace IntervalTilings

variable {ι : Type} {start len start' len' : ι → ℕ} {lo hi : ℕ} {x y : ι} {xs ys : List ι}

/-- The intervals of the list follow each other from `lo` to `hi` without gap or overlap. -/
def Tiles (start len : ι → ℕ) : ℕ → ℕ → List ι → Prop
  | lo, hi, [] => lo = hi
  | lo, hi, x :: xs => start x = lo ∧ Tiles start len (lo + len x) hi xs

def Covers (start len : ι → ℕ) (x : ι) (v : ℕ) : Prop := start x ≤ v ∧ v < start x + len x

theorem tiles_append :
    Tiles start len lo hi (xs ++ ys) ↔
      ∃ mid, Tiles start len lo mid xs ∧ Tiles start len mid hi ys := by
  induction xs generalizing lo with
  | nil => simp [Tiles]
  | cons x xs ih => simp [Tiles, ih, and_assoc]

theorem tiles_middle :
    Tiles start len lo hi (xs ++ x :: ys) ↔
      Tiles start len lo (start x) xs ∧ Tiles start len (start x + len x) hi ys := by
  rw [tiles_append]
  constructor
  · rintro ⟨mid, hxs, rfl, hys⟩
    exact ⟨hxs, hys⟩
  · rintro ⟨hxs, hys⟩
    exact ⟨start x, hxs, rfl, hys⟩

theorem tiles_map {κ : Type} {f : κ → ι} {zs : List κ} :
    Tiles start len lo hi (zs.map f) ↔
      Tiles (fun z => start (f z)) (fun z => len (f z)) lo hi zs := by
  induction zs generalizing lo with
  | nil => exact Iff.rfl
  | cons z zs ih => exact and_congr_right fun _ => ih

section

variable (h : Tiles start len lo hi xs)
include h

theorem Tiles.le : lo ≤ hi := by
  induction xs generalizing lo with
  | nil => exact h.le
  | cons x xs ih => exact (Nat.le_add_right lo (len x)).trans (ih h.2)

theorem Tiles.bounds (hx : x ∈ xs) : lo ≤ start x ∧ start x + len x ≤ hi := by
  obtain ⟨as, bs, rfl⟩ := List.append_of_mem hx
  obtain ⟨ha, hb⟩ := tiles_middle.1 h
  exact ⟨ha.le, hb.le⟩

theorem Tiles.pairwise : xs.Pairwise fun x y => start x + len x ≤ start y := by
  induction xs generalizing lo with
  | nil => exact List.Pairwise.nil
  | cons x xs ih =>
    obtain ⟨rfl, hxs⟩ := h
    exact List.pairwise_cons.2 ⟨fun y hy => (hxs.bounds hy).1, ih hxs⟩

end

theorem Tiles.replace (h : Tiles start len lo hi (xs ++ x :: ys))
    (hms : Tiles start len (start x) (start x + len x) ms) :
    Tiles start len lo hi (xs ++ ms ++ ys) := by
  obtain ⟨hxs, hys⟩ := tiles_middle.1 h
  exact tiles_append.2 ⟨_, tiles_append.2 ⟨_, hxs, hms⟩, hys⟩

theorem Tiles.eq_of_covers (h : Tiles start len lo hi xs) (hx : x ∈ xs) (hy : y ∈ xs)
    (hxv : Covers start len x v) (hyv : Covers start len y v) : x = y := by
  obtain ⟨as, bs, rfl⟩ := List.append_of_mem hx
  obtain ⟨ha, hb⟩ := tiles_middle.1 h
  obtain ⟨hx₁, hx₂⟩ := hxv
  obtain ⟨hy₁, hy₂⟩ := hyv
  rcases List.mem_append.1 hy with hy | hy
  · have := (ha.bounds hy).2
    omega
  rcases List.mem_cons.1 hy with rfl | hy
  · rfl
  · have := (hb.bounds hy).1
    omega

end IntervalTilings
