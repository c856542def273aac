import Mathlib.Algebra.Group.Int.Defs
import Mathlib.Algebra.Group.Nat.Defs
import Mathlib.Data.List.Basic
import Mathlib.Tactic.Common

/-! # Line number programs and their matrix

The line number state machine of DWARF versions 3 and 4, for one operation per instruction,
with registers of 64 bits. A program is run into the full matrix of its rows, the matrix is
cut into sequences, and a lookup is made in the first sequence that contains the address. -/
namespace DwarfLineProgram

structure Header where
  minInstLen : ℕ
  defaultIsStmt : Bool
  lineBase : ℤ
  lineRange : ℕ
  opcodeBase : ℕ
  deriving DecidableEq, Repr

inductive Op where
  | special (opcode : ℕ)
  | copy
  | advancePc (advance : ℕ)
  | advanceLine (advance : ℤ)
  | setFile (file : ℕ)
  | setColumn (column : ℕ)
  | negateStmt
  | setBasicBlock
  | constAddPc
  | fixedAdvancePc (advance : ℕ)
  | setPrologueEnd
  | setEpilogueBegin
  | setIsa (isa : ℕ)
  | endSequence
  | setAddress (address : ℕ)
  | setDiscriminator (discriminator : ℕ)
  deriving DecidableEq, Repr

structure Row where
  address : ℕ
  file : ℕ
  line : ℕ
  column : ℕ
  isStmt : Bool
  basicBlock : Bool
  endSequence : Bool
  prologueEnd : Bool
  epilogueBegin : Bool
  isa : ℕ
  discriminator : ℕ
  deriving DecidableEq, Repr

def Row.initial (h : Header) : Row where
  address := 0
  file := 1
  line := 1
  column := 0
  isStmt := h.defaultIsStmt
  basicBlock := false
  endSequence := false
  prologueEnd := false
  epilogueBegin := false
  isa := 0
  discriminator := 0

def Row.moveAddress (r : Row) (advance : ℕ) : Row :=
  { r with address := (r.address + advance) % 2 ^ 64 }

def Row.moveLine (r : Row) (advance : ℤ) : Row :=
  { r with line := ((r.line + advance) % 2 ^ 64).toNat }

def Row.afterRow (r : Row) : Row :=
  { r with basicBlock := false, prologueEnd := false, epilogueBegin := false, discriminator := 0 }

/-- The effect of a special opcode before its row is appended. -/
def Row.special (h : Header) (r : Row) (opcode : ℕ) : Row :=
  let adjusted := opcode - h.opcodeBase
  (r.moveAddress (h.minInstLen * (adjusted / h.lineRange))).moveLine
    (h.lineBase + (adjusted % h.lineRange : ℕ))

/-- The row an operation appends, if any, and the registers after it. -/
def step (h : Header) (r : Row) : Op → Option Row × Row
  | .special opcode => (some (r.special h opcode), (r.special h opcode).afterRow)
  | .copy => (some r, r.afterRow)
  | .advancePc advance => (none, r.moveAddress (h.minInstLen * advance))
  | .advanceLine advance => (none, r.moveLine advance)
  | .setFile file => (none, { r with file })
  | .setColumn column => (none, { r with column })
  | .negateStmt => (none, { r with isStmt := !r.isStmt })
  | .setBasicBlock => (none, { r with basicBlock := true })
  | .constAddPc =>
    (none, r.moveAddress (h.minInstLen * ((255 - h.opcodeBase) / h.lineRange)))
  | .fixedAdvancePc advance => (none, r.moveAddress advance)
  | .setPrologueEnd => (none, { r with prologueEnd := true })
  | .setEpilogueBegin => (none, { r with epilogueBegin := true })
  | .setIsa isa => (none, { r with isa })
  | .endSequence => (some { r with endSequence := true }, Row.initial h)
  | .setAddress address => (none, { r with address })
  | .setDiscriminator discriminator => (none, { r with discriminator })

def rows (h : Header) : Row → List Op → List Row
  | _, [] => []
  | r, op :: ops => (step h r op).1.toList ++ rows h (step h r op).2 ops

structure Sequence where
  rows : List Row
  last : Row
  deriving DecidableEq, Repr

/-- The sequences of a matrix, each up to its end-of-sequence row. -/
def sequences : List Row → List Sequence
  | [] => []
  | r :: rs =>
    if r.endSequence then ⟨[], r⟩ :: sequences rs
    else match sequences rs with
      | [] => []
      | q :: qs => ⟨r :: q.rows, q.last⟩ :: qs

/-- Every sequence of the matrix has its end. -/
def Terminated (rs : List Row) : Prop := ∀ r ∈ rs.getLast?, r.endSequence = true

instance (rs : List Row) : Decidable (Terminated rs) :=
  inferInstanceAs (Decidable (∀ r ∈ rs.getLast?, r.endSequence = true))

namespace Sequence

/-- The address lies between the first row and the end of the sequence. -/
def Contains (q : Sequence) (pc : ℕ) : Prop :=
  ∃ r ∈ q.rows.head?, r.address ≤ pc ∧ pc < q.last.address

instance (q : Sequence) (pc : ℕ) : Decidable (q.Contains pc) :=
  match h : q.rows.head? with
  | none => .isFalse fun ⟨r, hr, _⟩ => by rw [h] at hr; cases hr
  | some r => decidable_of_iff (r.address ≤ pc ∧ pc < q.last.address)
      ⟨fun hr => ⟨r, h, hr⟩, fun ⟨r', hr', hle⟩ => by rw [h] at hr'; cases hr'; exact hle⟩

def rowAt (q : Sequence) (pc : ℕ) : Option Row := (q.rows.filter (·.address ≤ pc)).getLast?

def Ordered (q : Sequence) : Prop :=
  (q.rows ++ [q.last]).Pairwise (·.address ≤ ·.address)

instance (q : Sequence) : Decidable q.Ordered :=
  inferInstanceAs (Decidable ((q.rows ++ [q.last]).Pairwise (·.address ≤ ·.address)))

end Sequence

/-! A lookup can also be made row by row, with one candidate. -/

def consider (pc : ℕ) (cand : Option Row) (r : Row) : Option Row ⊕ Row :=
  if pc < r.address then
    match cand with
    | some c => .inr c
    | none => .inl none
  else .inl (if r.endSequence then none else some r)

def scanRows (pc : ℕ) : Option Row → List Row → Option Row
  | _, [] => none
  | cand, r :: rs =>
    match consider pc cand r with
    | .inr c => some c
    | .inl cand => scanRows pc cand rs

def considerStep (pc : ℕ) (cand : Option Row) : Option Row → Option Row ⊕ Row
  | none => .inl cand
  | some r => consider pc cand r

section Lookup

variable {pc : ℕ}

theorem scanRows_step (cand : Option Row) (o : Option Row) (rs : List Row) :
    scanRows pc cand (o.toList ++ rs) = match considerStep pc cand o with
      | .inr c => some c
      | .inl cand => scanRows pc cand rs := by
  cases o with
  | none => rfl
  | some r => rfl

theorem consider_inr (h : consider pc cand r = .inr c) : cand = some c := by
  unfold consider at h
  split at h
  · cases cand with
    | none => cases h
    | some c' =>
      cases h
      rfl
  · cases h

theorem consider_inl (h : consider pc cand r = .inl cand') :
    cand' = none ∨ cand' = some r ∧ r.endSequence = false := by
  unfold consider at h
  split at h
  · cases cand with
    | none =>
      cases h
      exact Or.inl rfl
    | some c => cases h
  · cases h
    cases r.endSequence with
    | false => exact Or.inr ⟨rfl, rfl⟩
    | true => exact Or.inl rfl

theorem mem_of_scanRows (h : scanRows pc cand rs = some c) :
    cand = some c ∨ c ∈ rs ∧ c.endSequence = false := by
  induction rs generalizing cand with
  | nil => cases h
  | cons r rs ih =>
    rw [scanRows] at h
    cases hc : consider pc cand r with
    | inr c' =>
      rw [hc] at h
      cases h
      exact Or.inl (consider_inr hc)
    | inl cand' =>
      rw [hc] at h
      right
      rcases ih h with rfl | ⟨hmem, hend⟩
      · rcases consider_inl hc with hnone | ⟨hsome, hend⟩
        · cases hnone
        · cases hsome
          exact ⟨List.mem_cons_self, hend⟩
      · exact ⟨List.mem_cons_of_mem r hmem, hend⟩

theorem flatMap_sequences (h : Terminated rs) :
    (sequences rs).flatMap (fun q => q.rows ++ [q.last]) = rs := by
  induction rs with
  | nil => rfl
  | cons r rs ih =>
    have hrs : Terminated rs := by
      intro l hl
      refine h l ?_
      cases rs with
      | nil => cases hl
      | cons a rs => rwa [List.getLast?_cons_cons]
    unfold sequences
    split
    · rw [List.flatMap_cons, ih hrs]
      rfl
    · rename_i hr
      have hne : rs ≠ [] := by
        rintro rfl
        exact hr (h r rfl)
      have ih := ih hrs
      split
      · rename_i hnil
        rw [hnil] at ih
        exact absurd ih.symm hne
      · rename_i q qs hq
        rw [hq] at ih
        rw [← ih]
        rfl

theorem endSequence_of_mem (h : q ∈ sequences rs) :
    (∀ r ∈ q.rows, r.endSequence = false) ∧ q.last.endSequence = true := by
  induction rs generalizing q with
  | nil => cases h
  | cons r rs ih =>
    unfold sequences at h
    split at h
    · rename_i hr
      rcases List.mem_cons.mp h with rfl | h
      · exact ⟨fun _ hm => absurd hm List.not_mem_nil, hr⟩
      · exact ih h
    · rename_i hr
      split at h
      · cases h
      · rename_i q' qs hq
        rcases List.mem_cons.mp h with rfl | h
        · have := ih (q := q') (by rw [hq]; exact List.mem_cons_self)
          refine ⟨fun x hx => ?_, this.2⟩
          rcases List.mem_cons.mp hx with rfl | hx
          · simpa using hr
          · exact this.1 x hx
        · exact ih (by rw [hq]; exact List.mem_cons_of_mem _ h)

section Rows

variable {r c : Row} {cand : Option Row} {rs : List Row}

theorem scanRows_answer (h : pc < r.address) : scanRows pc (some c) (r :: rs) = some c := by
  simp [scanRows, consider, h]

theorem scanRows_skip (h : pc < r.address) :
    scanRows pc none (r :: rs) = scanRows pc none rs := by
  simp [scanRows, consider, h]

theorem scanRows_end (h : r.address ≤ pc) (hend : r.endSequence = true) :
    scanRows pc cand (r :: rs) = scanRows pc none rs := by
  simp [scanRows, consider, Nat.not_lt.mpr h, hend]

theorem scanRows_row (h : r.address ≤ pc) (hend : r.endSequence = false) :
    scanRows pc cand (r :: rs) = scanRows pc (some r) rs := by
  simp [scanRows, consider, Nat.not_lt.mpr h, hend]

end Rows

theorem scanRows_past (hrs : ∀ r ∈ rs, pc < r.address) (hend : last.endSequence = true) :
    scanRows pc none (rs ++ last :: rest) = scanRows pc none rest := by
  induction rs with
  | nil =>
    rcases Nat.lt_or_ge pc last.address with h | h
    · exact scanRows_skip h
    · exact scanRows_end h hend
  | cons r rs ih =>
    rw [List.cons_append, scanRows_skip (hrs r List.mem_cons_self)]
    exact ih fun x hx => hrs x (List.mem_cons_of_mem r hx)

theorem scanRows_candidate (hord : (rs ++ [last]).Pairwise (·.address ≤ ·.address))
    (hrs : ∀ r ∈ rs, r.endSequence = false) (hend : last.endSequence = true) :
    scanRows pc (some c) (rs ++ last :: rest) =
      if pc < last.address then some (((rs.filter (·.address ≤ pc)).getLast?).getD c)
      else scanRows pc none rest := by
  induction rs generalizing c with
  | nil =>
    split
    · rename_i h
      exact scanRows_answer h
    · rename_i h
      exact scanRows_end (Nat.not_lt.mp h) hend
  | cons r rs ih =>
    rw [List.cons_append, List.pairwise_cons] at hord
    rw [List.cons_append]
    rcases Nat.lt_or_ge pc r.address with hr | hr
    · -- every later row is past the address too
      have hpast : ∀ x ∈ rs ++ [last], pc < x.address := fun x hx =>
        Nat.lt_of_lt_of_le hr (hord.1 x hx)
      have hfilter : (r :: rs).filter (fun x => decide (x.address ≤ pc)) = [] := by
        refine List.filter_eq_nil_iff.mpr fun x hx => ?_
        rcases List.mem_cons.mp hx with rfl | hx
        · simpa using hr
        · simpa using hpast x (List.mem_append_left _ hx)
      rw [scanRows_answer hr, hfilter,
        if_pos (hpast last (List.mem_append_right _ List.mem_cons_self))]
      rfl
    · rw [scanRows_row hr (hrs r List.mem_cons_self),
        ih hord.2 fun x hx => hrs x (List.mem_cons_of_mem r hx),
        List.filter_cons_of_pos (by simpa using hr), List.getLast?_cons]
      rfl

theorem scanRows_sequence {q : Sequence} {rest : List Row} (hord : q.Ordered)
    (hrs : ∀ r ∈ q.rows, r.endSequence = false) (hend : q.last.endSequence = true) :
    scanRows pc none (q.rows ++ q.last :: rest) =
      if q.Contains pc then q.rowAt pc else scanRows pc none rest := by
  obtain ⟨rs, last⟩ := q
  cases rs with
  | nil =>
    rw [if_neg fun ⟨r, hr, _⟩ => by cases hr]
    exact scanRows_past (fun x hx => absurd hx List.not_mem_nil) hend
  | cons r rs =>
    have hord : (r :: (rs ++ [last])).Pairwise (·.address ≤ ·.address) := hord
    rw [List.pairwise_cons] at hord
    rcases Nat.lt_or_ge pc r.address with hr | hr
    · have hnot : ¬ Sequence.Contains ⟨r :: rs, last⟩ pc := by
        rintro ⟨x, hx, hle, -⟩
        cases hx
        omega
      rw [if_neg hnot]
      refine scanRows_past (fun x hx => ?_) hend
      rcases List.mem_cons.mp hx with rfl | hx
      · exact hr
      · exact Nat.lt_of_lt_of_le hr (hord.1 x (List.mem_append_left _ hx))
    · have hiff : pc < last.address ↔ Sequence.Contains ⟨r :: rs, last⟩ pc :=
        ⟨fun hlt => ⟨r, rfl, hr, hlt⟩, fun ⟨_, _, _, hlt⟩ => hlt⟩
      show scanRows pc none (r :: (rs ++ last :: rest)) = _
      rw [scanRows_row hr (hrs r List.mem_cons_self), scanRows_candidate hord.2
        (fun x hx => hrs x (List.mem_cons_of_mem r hx)) hend]
      refine if_congr hiff ?_ rfl
      unfold Sequence.rowAt
      rw [List.filter_cons_of_pos (by simpa using hr), List.getLast?_cons]

theorem Sequence.rowAt_isSome {q : Sequence} (h : q.Contains pc) : (q.rowAt pc).isSome = true := by
  obtain ⟨r, hr, hle, -⟩ := h
  have hmem : r ∈ q.rows.filter (fun x => decide (x.address ≤ pc)) :=
    List.mem_filter.mpr ⟨List.mem_of_mem_head? hr, by simpa using hle⟩
  unfold Sequence.rowAt
  rw [List.getLast?_isSome]
  exact List.ne_nil_of_mem hmem

variable (pc)

theorem scanRows_flatMap {qs : List Sequence} (hord : ∀ q ∈ qs, q.Ordered)
    (hends : ∀ q ∈ qs, (∀ r ∈ q.rows, r.endSequence = false) ∧ q.last.endSequence = true) :
    scanRows pc none (qs.flatMap fun q => q.rows ++ [q.last]) =
      (qs.find? fun q => q.Contains pc).bind fun q => q.rowAt pc := by
  induction qs with
  | nil => rfl
  | cons q qs ih =>
    have hq := hends q List.mem_cons_self
    rw [List.flatMap_cons, List.append_assoc, List.singleton_append,
      scanRows_sequence (hord q List.mem_cons_self) hq.1 hq.2]
    split
    · rename_i h
      rw [List.find?_cons_of_pos (by simpa using h)]
      rfl
    · rename_i h
      rw [List.find?_cons_of_neg (by simpa using h)]
      exact ih (fun q hq => hord q (List.mem_cons_of_mem _ hq))
        fun q hq => hends q (List.mem_cons_of_mem _ hq)

/-- Row by row, the lookup is made in the first sequence that contains the address. -/
theorem scanRows_eq {rs : List Row} (hterm : Terminated rs)
    (hord : ∀ q ∈ sequences rs, q.Ordered) :
    scanRows pc none rs =
      ((sequences rs).find? fun q => q.Contains pc).bind fun q => q.rowAt pc := by
  have h := scanRows_flatMap pc hord fun q hq => endSequence_of_mem hq
  rwa [flatMap_sequences hterm] at h

end Lookup

end DwarfLineProgram
