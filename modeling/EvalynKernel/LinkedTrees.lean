import Mathlib.Data.Tree.Basic
import Mathlib.Data.List.Nodup

/-! # Binary trees laid out in memory

A tree whose nodes are cells with two child links and one link upwards, and contexts: a
path from a hole in the tree to its root. A layout says where a cell keeps its links, at
which address an item lives and what the upward link of an item under a parent is, so
that a colour or another tag may share the word with the parent's address. -/
namespace LinkedTrees

inductive Side where
  | left | right
  deriving DecidableEq, Repr

def Side.flip : Side → Side
  | .left => .right
  | .right => .left

@[simp] theorem Side.flip_flip (d : Side) : d.flip.flip = d := by cases d <;> rfl

variable {α ν : Type}

def branch (d : Side) (a : α) (s o : BinaryTree α) : BinaryTree α :=
  match d with
  | .left => .node a s o
  | .right => .node a o s

def inorder : BinaryTree α → List α
  | .nil => []
  | .node a l r => inorder l ++ a :: inorder r

@[simp] theorem inorder_nil : inorder (.nil : BinaryTree α) = [] := rfl

@[simp] theorem inorder_node (a : α) (l r : BinaryTree α) :
    inorder (.node a l r) = inorder l ++ a :: inorder r := rfl

/-- One step of the path from a hole to the root: the side the hole is on, the item
there and the subtree on its other side. -/
structure Frame (α : Type) where
  side : Side
  item : α
  other : BinaryTree α

def Frame.before (f : Frame α) : List α :=
  match f.side with
  | .left => []
  | .right => inorder f.other ++ [f.item]

def Frame.after (f : Frame α) : List α :=
  match f.side with
  | .left => f.item :: inorder f.other
  | .right => []

def plug : List (Frame α) → BinaryTree α → BinaryTree α
  | [], t => t
  | f :: c, t => plug c (branch f.side f.item t f.other)

def before : List (Frame α) → List α
  | [] => []
  | f :: c => before c ++ f.before

def after : List (Frame α) → List α
  | [] => []
  | f :: c => f.after ++ after c

theorem branch_flip (d : Side) (a : α) (s o : BinaryTree α) :
    branch d.flip a s o = branch d a o s := by cases d <;> rfl

theorem plug_other (d : Side) (a : α) (s o : BinaryTree α) (c : List (Frame α)) :
    plug (⟨d.flip, a, s⟩ :: c) o = plug c (branch d a s o) := by
  rw [plug, branch_flip]

theorem inorder_branch (d : Side) (a : α) (s o : BinaryTree α) :
    inorder (branch d a s o) =
      Frame.before ⟨d, a, o⟩ ++ inorder s ++ Frame.after ⟨d, a, o⟩ := by
  cases d <;> simp [branch, Frame.before, Frame.after]

theorem inorder_plug (c : List (Frame α)) (t : BinaryTree α) :
    inorder (plug c t) = before c ++ inorder t ++ after c := by
  induction c generalizing t with
  | nil => simp [plug, before, after]
  | cons f c ih => simp [plug, before, after, ih, inorder_branch]

def around : List (Frame α) → List α
  | [] => []
  | f :: c => f.item :: (inorder f.other ++ around c)

theorem length_le_around (c : List (Frame α)) : c.length ≤ (around c).length := by
  induction c with
  | nil => exact Nat.le_refl _
  | cons f c ih =>
    simp only [around, List.length_cons, List.length_append]
    omega

theorem inorder_branch_perm (d : Side) (a : α) (s o : BinaryTree α) :
    (inorder (branch d a s o)).Perm (inorder s ++ a :: inorder o) := by
  cases d
  · exact .refl _
  · simp only [branch, inorder_node]
    exact List.perm_middle.trans ((List.perm_append_comm.cons a).trans List.perm_middle.symm)

theorem inorder_plug_perm (c : List (Frame α)) (t : BinaryTree α) :
    (inorder (plug c t)).Perm (inorder t ++ around c) := by
  induction c generalizing t with
  | nil => simp [plug, around]
  | cons f c ih =>
    refine (ih _).trans (((inorder_branch_perm _ _ _ _).append_right _).trans ?_)
    simp [around]

theorem plug_append (c d : List (Frame α)) (t : BinaryTree α) :
    plug (c ++ d) t = plug d (plug c t) := by
  induction c generalizing t with
  | nil => rfl
  | cons f c ih => simp [plug, ih]

variable {t : BinaryTree α} {a : α}

theorem exists_plug (h : a ∈ inorder t) : ∃ c l r, t = plug c (.node a l r) := by
  induction t with
  | nil => simp at h
  | node b l r ihl ihr =>
    simp only [inorder_node, List.mem_append, List.mem_cons] at h
    rcases h with h | rfl | h
    · obtain ⟨c, l', r', rfl⟩ := ihl h
      exact ⟨c ++ [⟨.left, b, r⟩], l', r', by simp [plug_append, plug, branch]⟩
    · exact ⟨[], l, r, rfl⟩
    · obtain ⟨c, l', r', rfl⟩ := ihr h
      exact ⟨c ++ [⟨.right, b, l⟩], l', r', by simp [plug_append, plug, branch]⟩

structure Layout (ν α : Type) where
  child : ν → Side → ℕ
  up : ν → ℕ
  addr : α → ℕ
  word : α → ℕ → ℕ

namespace Layout

variable (L : Layout ν α)

def ptr : BinaryTree α → ℕ
  | .nil => 0
  | .node a _ _ => L.addr a

@[simp] theorem ptr_nil : L.ptr .nil = 0 := rfl

@[simp] theorem ptr_node (a : α) (l r : BinaryTree α) : L.ptr (.node a l r) = L.addr a := rfl

@[simp] theorem ptr_branch (d : Side) (a : α) (s o : BinaryTree α) :
    L.ptr (branch d a s o) = L.addr a := by cases d <;> rfl

/-- The cells of memory `m` hold tree `t` under a parent at address `p`. -/
def Rep (m : ℕ → ν) (p : ℕ) : BinaryTree α → Prop
  | .nil => True
  | .node a l r =>
    L.addr a ≠ 0 ∧ L.child (m (L.addr a)) .left = L.ptr l ∧
      L.child (m (L.addr a)) .right = L.ptr r ∧ L.up (m (L.addr a)) = L.word a p ∧
      Rep m (L.addr a) l ∧ Rep m (L.addr a) r

def hole (p : ℕ) : List (Frame α) → ℕ
  | [] => p
  | f :: _ => L.addr f.item

/-- The cells of memory `m` hold context `c` with `x` stored in the link to its hole. -/
def ContextRep (m : ℕ → ν) (p : ℕ) : List (Frame α) → ℕ → Prop
  | [], _ => True
  | f :: c, x =>
    L.addr f.item ≠ 0 ∧ L.child (m (L.addr f.item)) f.side = x ∧
      L.child (m (L.addr f.item)) f.side.flip = L.ptr f.other ∧
      L.up (m (L.addr f.item)) = L.word f.item (L.hole p c) ∧
      L.Rep m (L.addr f.item) f.other ∧ ContextRep m p c (L.addr f.item)

variable {L} {m m' : ℕ → ν} {p : ℕ}

variable {s : BinaryTree α}

theorem rep_branch :
    L.Rep m p (branch d a s o) ↔
      L.addr a ≠ 0 ∧ L.child (m (L.addr a)) d = L.ptr s ∧
        L.child (m (L.addr a)) d.flip = L.ptr o ∧ L.up (m (L.addr a)) = L.word a p ∧
        L.Rep m (L.addr a) s ∧ L.Rep m (L.addr a) o := by
  cases d
  · exact Iff.rfl
  · simp only [branch, Rep, Side.flip]
    tauto

theorem ptr_plug_cons (f : Frame α) (c : List (Frame α)) (s t : BinaryTree α) :
    L.ptr (plug (f :: c) s) = L.ptr (plug (f :: c) t) := by
  induction c generalizing f s t with
  | nil => simp [plug]
  | cons g c ih => exact ih g _ _

theorem ptr_plug_congr (c : List (Frame α)) (h : L.ptr s = L.ptr t) :
    L.ptr (plug c s) = L.ptr (plug c t) := by
  cases c with
  | nil => exact h
  | cons f c => exact ptr_plug_cons f c s t

variable {c : List (Frame α)}

theorem rep_plug :
    L.Rep m p (plug c t) ↔ L.ContextRep m p c (L.ptr t) ∧ L.Rep m (L.hole p c) t := by
  induction c generalizing t with
  | nil => simp [plug, ContextRep, hole]
  | cons f c ih =>
    simp only [plug, ih, rep_branch, ContextRep, ptr_branch, hole]
    tauto

theorem Rep.ptr_eq_zero (h : L.Rep m p t) : L.ptr t = 0 ↔ t = .nil := by
  cases t with
  | nil => simp
  | node a l r => simpa using h.1

variable {x : ℕ}

theorem Rep.ne_zero (h : L.Rep m p t) (hx : x ∈ (inorder t).map L.addr) : x ≠ 0 := by
  induction t generalizing p with
  | nil => simp at hx
  | node a l r ihl ihr =>
    obtain ⟨hne, -, -, -, hl, hr⟩ := h
    simp only [inorder_node, List.map_append, List.map_cons, List.mem_append, List.mem_cons] at hx
    rcases hx with hx | rfl | hx
    · exact ihl hl hx
    · exact hne
    · exact ihr hr hx

theorem ptr_plug_mem (f : Frame α) (c : List (Frame α)) (s : BinaryTree α) :
    L.ptr (plug (f :: c) s) ∈ (around (f :: c)).map L.addr := by
  induction c generalizing f s with
  | nil => simp [plug, around]
  | cons g c ih =>
    simp only [around, List.map_cons, List.map_append, List.mem_cons, List.mem_append]
    have hg := ih g (branch f.side f.item s f.other)
    simp only [around, List.map_cons, List.map_append, List.mem_cons, List.mem_append] at hg
    exact .inr (.inr hg)

theorem hole_append (c : List (Frame α)) (f : Frame α) (d : List (Frame α)) :
    L.hole p (c ++ f :: d) = L.hole (L.addr f.item) c := by
  cases c <;> rfl

theorem Rep.congr (h : L.Rep m p t) (hm : ∀ x ∈ (inorder t).map L.addr, m' x = m x) :
    L.Rep m' p t := by
  induction t generalizing p with
  | nil => trivial
  | node a l r ihl ihr =>
    obtain ⟨hne, hl, hr, hup, hlr, hrr⟩ := h
    have ha : m' (L.addr a) = m (L.addr a) := hm _ (by simp)
    refine ⟨hne, ha ▸ hl, ha ▸ hr, ha ▸ hup, ihl hlr fun x hx => hm x ?_,
      ihr hrr fun x hx => hm x ?_⟩
    · simp only [inorder_node, List.map_append, List.mem_append]
      exact .inl hx
    · simp only [inorder_node, List.map_append, List.map_cons, List.mem_append, List.mem_cons]
      exact .inr (.inr hx)

/-- A tree moves under another parent when its root's upward link is rewritten. -/
theorem Rep.reparent (h : L.Rep m p t)
    (hroot : ∀ a l r, t = .node a l r → L.child (m' (L.addr a)) = L.child (m (L.addr a)) ∧
      L.up (m' (L.addr a)) = L.word a q)
    (hm : ∀ x ∈ (inorder t).map L.addr, x ≠ L.ptr t → m' x = m x)
    (hnd : ((inorder t).map L.addr).Nodup) : L.Rep m' q t := by
  cases t with
  | nil => trivial
  | node a l r =>
    obtain ⟨hne, hl, hr, -, hlr, hrr⟩ := h
    obtain ⟨hc, hup⟩ := hroot a l r rfl
    simp only [inorder_node, List.map_append, List.map_cons, List.nodup_append,
      List.nodup_cons] at hnd
    refine ⟨hne, hc ▸ hl, hc ▸ hr, hup, hlr.congr fun x hx => hm x ?_ ?_,
      hrr.congr fun x hx => hm x ?_ ?_⟩
    · simp only [inorder_node, List.map_append, List.mem_append]
      exact .inl hx
    · exact hnd.2.2 x hx _ (by simp)
    · simp only [inorder_node, List.map_append, List.map_cons, List.mem_append, List.mem_cons]
      exact .inr (.inr hx)
    · rintro rfl
      exact hnd.2.1.1 hx

theorem ContextRep.hole_ne_zero (h : L.ContextRep m p c x) (hp : p ≠ 0) : L.hole p c ≠ 0 := by
  cases c with
  | nil => exact hp
  | cons f c => exact h.1

theorem ContextRep.congr (h : L.ContextRep m p c x) (hm : ∀ y ∈ (around c).map L.addr, m' y = m y) :
    L.ContextRep m' p c x := by
  induction c generalizing x with
  | nil => trivial
  | cons f c ih =>
    simp only [around, List.map_cons, List.map_append, List.mem_cons, List.mem_append] at hm
    obtain ⟨hne, hx, ho, hup, hrep, hc⟩ := h
    have hf : m' (L.addr f.item) = m (L.addr f.item) := hm _ (.inl rfl)
    exact ⟨hne, hf ▸ hx, hf ▸ ho, hf ▸ hup, hrep.congr fun y hy => hm y (.inr (.inl hy)),
      ih hc fun y hy => hm y (.inr (.inr hy))⟩

/-- Rewriting the link to the hole puts another subtree's address there. -/
theorem ContextRep.refill (h : L.ContextRep m p (f :: c) x)
    (hside : L.child (m' (L.addr f.item)) f.side = y)
    (hflip : L.child (m' (L.addr f.item)) f.side.flip = L.child (m (L.addr f.item)) f.side.flip)
    (hup : L.up (m' (L.addr f.item)) = L.up (m (L.addr f.item)))
    (hm : ∀ z ∈ (around (f :: c)).map L.addr, z ≠ L.addr f.item → m' z = m z)
    (hnd : ((around (f :: c)).map L.addr).Nodup) : L.ContextRep m' p (f :: c) y := by
  simp only [around, List.map_cons, List.map_append, List.nodup_cons, List.mem_cons,
    List.mem_append] at hm hnd
  obtain ⟨hne, -, ho, hup', hrep, hc⟩ := h
  refine ⟨hne, hside, hflip.trans ho, hup.trans hup', hrep.congr fun z hz => ?_,
    hc.congr fun z hz => ?_⟩
  · refine hm z (.inr (.inl hz)) ?_
    rintro rfl
    exact hnd.1 (.inl hz)
  · refine hm z (.inr (.inr hz)) ?_
    rintro rfl
    exact hnd.1 (.inr hz)

end Layout

end LinkedTrees
