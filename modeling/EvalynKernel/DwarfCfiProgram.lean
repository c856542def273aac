import EvalynKernel.DwarfLineEncoding
import Mathlib.Data.Nat.Basic

/-! # Call frame programs and their table

Call frame instructions of DWARF version 4: a CIE's instructions give the initial rules, an
FDE's then make a table with one row for each location they come to. A row's rules hold from
its location up to that of the next one. -/
namespace DwarfCfiProgram

open ByteScanner DwarfLineEncoding

structure Factors where
  code : ℕ
  data : ℤ
  deriving DecidableEq, Repr

inductive Op where
  | advanceLoc (delta : ℕ)
  | offset (reg factored : ℕ)
  | restore (reg : ℕ)
  | nop
  | rememberState
  | restoreState
  | defCfa (reg offset : ℕ)
  | defCfaRegister (reg : ℕ)
  | defCfaOffset (offset : ℕ)
  deriving DecidableEq, Repr

/-- Where the value of a register is: still in it, or in memory at this offset from the CFA. -/
inductive RegRule where
  | sameValue
  | offset (n : ℤ)
  deriving DecidableEq, Repr

/-- The CFA is `reg` plus `offset`, once an instruction has defined it. -/
structure CfaRule where
  defined : Bool
  reg : ℕ
  offset : ℕ
  deriving DecidableEq, Repr

structure Rules where
  cfa : CfaRule
  regs : ℕ → RegRule

def Rules.initial : Rules := ⟨⟨false, 0, 0⟩, fun _ => .sameValue⟩

structure Row where
  location : ℕ
  rules : Rules

structure Machine extends Row where
  stack : List Rules

def Rules.setReg (r : Rules) (reg : ℕ) (rule : RegRule) : Rules :=
  { r with regs := Function.update r.regs reg rule }

section Tables

variable (f : Factors) (initial : Rules)

/-- One instruction; `initial` are the rules that the CIE's instructions gave. -/
def step (m : Machine) : Op → Machine
  | .advanceLoc delta => { m with location := m.location + delta * f.code }
  | .offset reg factored => { m with rules := m.rules.setReg reg (.offset (factored * f.data)) }
  | .restore reg => { m with rules := m.rules.setReg reg (initial.regs reg) }
  | .nop => m
  | .rememberState => { m with stack := m.rules :: m.stack }
  | .restoreState =>
    match m.stack with
    | [] => m
    | rules :: stack => { m with rules, stack }
  | .defCfa reg offset => { m with rules := { m.rules with cfa := ⟨true, reg, offset⟩ } }
  | .defCfaRegister reg =>
    { m with rules := { m.rules with cfa := { m.rules.cfa with reg } } }
  | .defCfaOffset offset =>
    { m with rules := { m.rules with cfa := { m.rules.cfa with offset } } }

def Op.advances : Op → Bool
  | .advanceLoc _ => true
  | _ => false

/-- The rows of the program `ops`: one is complete when the location advances. -/
def rows (m : Machine) : List Op → List Row
  | [] => [m.toRow]
  | op :: ops => (if op.advances then [m.toRow] else []) ++ rows (step f initial m op) ops

end Tables

/-- The state that the CIE's instructions leave for those of an FDE at `location`. -/
def afterCie (f : Factors) (cieOps : List Op) (location : ℕ) : Machine :=
  cieOps.foldl (step f .initial) ⟨⟨location, .initial⟩, []⟩

def table (f : Factors) (cieOps fdeOps : List Op) (location : ℕ) : List Row :=
  let m := afterCie f cieOps location
  rows f m.rules m fdeOps

/-- The last row whose location is not past `pc`. -/
def rowAt (rs : List Row) (pc : ℕ) : Option Row := (rs.filter (·.location ≤ pc)).getLast?

/-- Remembering and restoring match, `d` being remembered now and never more than one. -/
def nested : ℕ → List Op → Bool
  | _, [] => true
  | d, .rememberState :: ops => d == 0 && nested 1 ops
  | d, .restoreState :: ops => d == 1 && nested 0 ops
  | d, _ :: ops => nested d ops

def Op.RegsBelow (n : ℕ) : Op → Prop
  | .offset reg _ | .restore reg | .defCfa reg _ | .defCfaRegister reg => reg < n
  | _ => True

instance (n : ℕ) : DecidablePred (Op.RegsBelow n)
  | .advanceLoc _ | .nop | .rememberState | .restoreState | .defCfaOffset _ => .isTrue trivial
  | .offset reg _ | .restore reg | .defCfa reg _ | .defCfaRegister reg =>
    inferInstanceAs (Decidable (reg < n))

section Encoding

variable (s : Bytes)

/-- The bytes from `p` to `q` are the instruction `op`. -/
inductive Encodes : Op → ℕ → ℕ → Prop where
  | advanceLoc {p : ℕ} : 0x40 ≤ (s.byte p).toNat → (s.byte p).toNat < 0x80 →
      Encodes (.advanceLoc ((s.byte p).toNat - 0x40)) p (p + 1)
  | advanceLoc1 {p : ℕ} : (s.byte p).toNat = 0x02 →
      Encodes (.advanceLoc (leValue s (p + 1) 1)) p (p + 2)
  | advanceLoc2 {p : ℕ} : (s.byte p).toNat = 0x03 →
      Encodes (.advanceLoc (leValue s (p + 1) 2)) p (p + 3)
  | advanceLoc4 {p : ℕ} : (s.byte p).toNat = 0x04 →
      Encodes (.advanceLoc (leValue s (p + 1) 4)) p (p + 5)
  | offset {p q v : ℕ} : 0x80 ≤ (s.byte p).toNat → (s.byte p).toNat < 0xC0 →
      Unsigned s (p + 1) q v → Encodes (.offset ((s.byte p).toNat - 0x80) v) p q
  | restore {p : ℕ} : 0xC0 ≤ (s.byte p).toNat →
      Encodes (.restore ((s.byte p).toNat - 0xC0)) p (p + 1)
  | nop {p : ℕ} : (s.byte p).toNat = 0x00 → Encodes .nop p (p + 1)
  | rememberState {p : ℕ} : (s.byte p).toNat = 0x0A → Encodes .rememberState p (p + 1)
  | restoreState {p : ℕ} : (s.byte p).toNat = 0x0B → Encodes .restoreState p (p + 1)
  | defCfa {p m q reg offset : ℕ} : (s.byte p).toNat = 0x0C → Unsigned s (p + 1) m reg →
      Unsigned s m q offset → Encodes (.defCfa reg offset) p q
  | defCfaRegister {p q reg : ℕ} : (s.byte p).toNat = 0x0D → Unsigned s (p + 1) q reg →
      Encodes (.defCfaRegister reg) p q
  | defCfaOffset {p q offset : ℕ} : (s.byte p).toNat = 0x0E → Unsigned s (p + 1) q offset →
      Encodes (.defCfaOffset offset) p q

inductive Program : List Op → ℕ → ℕ → Prop where
  | nil {p : ℕ} : Program [] p p
  | cons {op : Op} {ops : List Op} {p m q : ℕ} : Encodes s op p m → Program ops m q →
      Program (op :: ops) p q

variable {s}

theorem Encodes.lt (h : Encodes s op p q) : p < q := by
  cases h with
  | offset _ _ hv | defCfaRegister _ hv | defCfaOffset _ hv =>
    have := hv.lt
    omega
  | defCfa _ hreg hoffset =>
    have := hreg.lt
    have := hoffset.lt
    omega
  | _ => omega

theorem Program.le (h : Program s ops p q) : p ≤ q := by
  induction h with
  | nil => exact Nat.le_refl _
  | cons hop _ ih => exact Nat.le_trans (Nat.le_of_lt hop.lt) ih

end Encoding

section Nesting

variable {f : Factors} {initial : Rules} {m : Machine} {op : Op} {ops ops' : List Op}

theorem nested_step (h : nested m.stack.length (op :: ops) = true) :
    nested (step f initial m op).stack.length ops = true := by
  cases op with
  | rememberState =>
    simp only [nested, Bool.and_eq_true, beq_iff_eq] at h
    show nested (m.stack.length + 1) ops = true
    rw [h.1]
    exact h.2
  | restoreState =>
    simp only [nested, Bool.and_eq_true, beq_iff_eq] at h
    obtain ⟨r, hr⟩ := List.length_eq_one_iff.1 h.1
    rw [step, hr]
    exact h.2
  | _ => exact h

theorem nested_of_append (h : nested d (ops ++ ops') = true) : nested d ops = true := by
  induction ops generalizing d with
  | nil => rfl
  | cons op ops ih =>
    cases op with
    | rememberState | restoreState =>
      simp only [List.cons_append, nested, Bool.and_eq_true] at h ⊢
      exact ⟨h.1, ih h.2⟩
    | _ => exact ih h

theorem nested_foldl (h : nested m.stack.length (ops ++ ops') = true) :
    nested (ops.foldl (step f initial) m).stack.length ops' = true := by
  induction ops generalizing m with
  | nil => exact h
  | cons op ops ih => exact ih (nested_step h)

end Nesting

section Lookup

variable {f : Factors} {initial : Rules} {m : Machine} {op : Op} {ops : List Op} {pc : ℕ}

/-- The run that stops before the first instruction that advances past `pc`. -/
def runTo (f : Factors) (initial : Rules) (pc : ℕ) : Machine → List Op → Machine
  | m, [] => m
  | m, op :: ops =>
    if pc < (step f initial m op).location then m
    else runTo f initial pc (step f initial m op) ops

theorem step_location (h : op.advances = false) : (step f initial m op).location = m.location := by
  cases op with
  | advanceLoc _ => cases h
  | restoreState =>
    rw [step]
    cases m.stack with
    | nil => rfl
    | cons rules stack => rfl
  | _ => rfl

theorem le_step_location : m.location ≤ (step f initial m op).location := by
  cases op with
  | advanceLoc delta => exact Nat.le_add_right _ _
  | _ => exact Nat.le_of_eq (step_location rfl).symm

section

variable (h : ∀ op ∈ ops, op.advances = false)
include h

theorem runTo_eq_foldl (hle : m.location ≤ pc) :
    runTo f initial pc m ops = ops.foldl (step f initial) m := by
  induction ops generalizing m with
  | nil => rfl
  | cons op ops ih =>
    have hlocation : (step f initial m op).location = m.location :=
      step_location (h op List.mem_cons_self)
    rw [runTo, if_neg (by omega)]
    exact ih (fun op' hop => h op' (List.mem_cons_of_mem op hop)) (by omega)

theorem foldl_location : (ops.foldl (step f initial) m).location = m.location := by
  induction ops generalizing m with
  | nil => rfl
  | cons op ops ih =>
    rw [List.foldl_cons, ih fun op' hop => h op' (List.mem_cons_of_mem op hop)]
    exact step_location (h op List.mem_cons_self)

theorem rows_eq_singleton : rows f initial m ops = [(ops.foldl (step f initial) m).toRow] := by
  induction ops generalizing m with
  | nil => rfl
  | cons op ops ih =>
    rw [rows, h op List.mem_cons_self, if_neg Bool.false_ne_true, List.nil_append]
    exact ih fun op' hop => h op' (List.mem_cons_of_mem op hop)

end

theorem eq_of_mem_complete (h : r ∈ if op.advances then [m.toRow] else []) : r = m.toRow := by
  split at h
  · exact List.mem_singleton.1 h
  · exact absurd h List.not_mem_nil

theorem le_of_mem_rows (h : r ∈ rows f initial m ops) : m.location ≤ r.location := by
  induction ops generalizing m with
  | nil =>
    rw [List.mem_singleton.1 h]
  | cons op ops ih =>
    rcases List.mem_append.1 h with hrow | hrest
    · rw [eq_of_mem_complete hrow]
    · exact Nat.le_trans le_step_location (ih hrest)

theorem exists_mem_rows : ∃ r ∈ rows f initial m ops, r.location = m.location := by
  induction ops generalizing m with
  | nil => exact ⟨m.toRow, List.mem_singleton_self _, rfl⟩
  | cons op ops ih =>
    cases hop : op.advances with
    | false =>
      obtain ⟨r, hr, hlocation⟩ := ih (m := step f initial m op)
      exact ⟨r, List.mem_append_right _ hr, hlocation.trans (step_location hop)⟩
    | true => exact ⟨m.toRow, List.mem_append_left _ (by simp [hop]), rfl⟩

theorem rowAt_append (h : rowAt rs' pc = some r) : rowAt (rs ++ rs') pc = some r := by
  rw [rowAt] at h ⊢
  rw [List.filter_append, List.getLast?_append, h]
  rfl

theorem filter_past (hle : m.location ≤ pc) (hpast : pc < (step f initial m op).location) :
    (rows f initial m (op :: ops)).filter (·.location ≤ pc) = [m.toRow] := by
  have hop : op.advances = true := by
    by_contra hop
    have hlocation : (step f initial m op).location = m.location :=
      step_location (Bool.eq_false_iff.2 hop)
    omega
  have hnone : (rows f initial (step f initial m op) ops).filter (·.location ≤ pc) = [] := by
    rw [List.filter_eq_nil_iff]
    intro r hr
    have hr := le_of_mem_rows hr
    simp only [decide_eq_true_eq]
    omega
  rw [rows, List.filter_append, hnone, if_pos hop, List.append_nil]
  exact List.filter_eq_self.2 fun r hr => by
    rw [List.mem_singleton.1 hr]
    exact decide_eq_true hle

theorem rowAt_rows (h : m.location ≤ pc) :
    rowAt (rows f initial m ops) pc = some (runTo f initial pc m ops).toRow := by
  induction ops generalizing m with
  | nil => simp [rowAt, rows, runTo, h]
  | cons op ops ih =>
    by_cases hpast : pc < (step f initial m op).location
    · rw [rowAt, filter_past h hpast, runTo, if_pos hpast]
      rfl
    · rw [rows, runTo, if_neg hpast]
      exact rowAt_append (ih (by omega))

theorem le_runTo_location (h : m.location ≤ pc) :
    m.location ≤ (runTo f initial pc m ops).location := by
  induction ops generalizing m with
  | nil => exact Nat.le_refl _
  | cons op ops ih =>
    by_cases hpast : pc < (step f initial m op).location
    · rw [runTo, if_pos hpast]
    · rw [runTo, if_neg hpast]
      exact Nat.le_trans le_step_location (ih (by omega))

theorem le_runTo (h : m.location ≤ pc) (hr : r ∈ rows f initial m ops) (hpc : r.location ≤ pc) :
    r.location ≤ (runTo f initial pc m ops).location := by
  induction ops generalizing m with
  | nil => rw [List.mem_singleton.1 hr, runTo]
  | cons op ops ih =>
    by_cases hpast : pc < (step f initial m op).location
    · have hmem : r ∈ (rows f initial m (op :: ops)).filter (·.location ≤ pc) :=
        List.mem_filter.2 ⟨hr, decide_eq_true hpc⟩
      rw [filter_past h hpast] at hmem
      rw [runTo, if_pos hpast, List.mem_singleton.1 hmem]
    · rcases List.mem_append.1 hr with hrow | hrest
      · rw [eq_of_mem_complete hrow]
        exact le_runTo_location h
      · rw [runTo, if_neg hpast]
        exact ih (by omega) hrest

end Lookup

end DwarfCfiProgram
