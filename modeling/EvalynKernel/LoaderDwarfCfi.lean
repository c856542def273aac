import EvalynKernel.LoaderDwarfFde

/-! # Call frame information (`loader/dwarf/cfi.c`)

Arrays are functions that are read and written through checked indices. Memory is `load`,
which gives the word at an address that `dwarf_vaddr_readable` accepts. -/
namespace LoaderDwarfCfi

open MachineWords ByteScanner LoaderDwarfHelpers LoaderDwarfFde

def cfiStackDepthMax : ℕ := 2
def dwarfMaxRegs : ℕ := 32

/-- `enum cfi_rule_kind`; a state that was never initialised may hold any other number. -/
inductive CfiRuleKind where
  | sameValue
  | offset
  | other (value : ℕ)
  deriving DecidableEq, Repr

structure CfiRule where
  kind : CfiRuleKind
  regNum : ℕ
  offset : ℕ
  deriving DecidableEq, Repr

def CfiRule.zero : CfiRule := ⟨.sameValue, 0, 0⟩

structure CfiRules where
  cfa : CfiRule
  regs : ℕ → CfiRule

def CfiRules.zero : CfiRules := ⟨.zero, fun _ => .zero⟩

structure CfiState where
  cfiBaseline : CfiRules
  rules : ℕ → CfiRules
  regs : ℕ → ℕ
  raCol : ℕ
  depth : ℕ
  isSignalFrame : Bool

/-- The opcodes `DW_CFA_*`, with the operand that the lower six bits hold. -/
inductive Cfa where
  | advanceLoc (delta : ℕ)
  | offset (reg : ℕ)
  | restore (reg : ℕ)
  | nop
  | advanceLocBytes (bytes : ℕ)
  | rememberState
  | restoreState
  | defCfa
  | defCfaRegister
  | defCfaOffset
  deriving DecidableEq, Repr

def Cfa.ofByte (byte : ℕ) : Option Cfa :=
  let operandA := byte &&& 0x3f
  match if byte &&& 0xC0 ≠ 0 then byte &&& 0xC0 else byte with
  | 0x40 => some (.advanceLoc operandA)
  | 0x80 => some (.offset operandA)
  | 0xC0 => some (.restore operandA)
  | 0x00 => some .nop
  | 0x02 => some (.advanceLocBytes (1 <<< 0))
  | 0x03 => some (.advanceLocBytes (1 <<< 1))
  | 0x04 => some (.advanceLocBytes (1 <<< 2))
  | 0x0A => some .rememberState
  | 0x0B => some .restoreState
  | 0x0C => some .defCfa
  | 0x0D => some .defCfaRegister
  | 0x0E => some .defCfaOffset
  | _ => none

/-- The new location, unless it is past `target`. -/
def cfiAdvance (cur delta codeAlign target : ℕ) : Option ℕ :=
  let next := wadd cur (delta * codeAlign)
  if next > target then none else some next

def CfiState.current (state : CfiState) : Scan CfiRules :=
  fetch cfiStackDepthMax state.rules state.depth

def CfiState.setCurrent (state : CfiState) (rules : CfiRules) : Scan CfiState := do
  return { state with rules := ← store cfiStackDepthMax state.rules state.depth rules }

def CfiState.modify (state : CfiState) (f : CfiRules → Scan CfiRules) : Scan CfiState := do
  state.setCurrent (← f (← state.current))

def CfiRules.setReg (rules : CfiRules) (reg : ℕ) (rule : CfiRule) : Scan CfiRules := do
  return { rules with regs := ← store dwarfMaxRegs rules.regs reg rule }

structure CfiLoop where
  p : ℕ
  cur : ℕ
  state : CfiState

section Interpreter

variable (s : Bytes) (cie : Cie) (opcodesStart stop loc : ℕ)

/-- The opcode that was read before `p`. Stopping with `true` is an answer. -/
def cfiOpcode (op : Cfa) (p cur : ℕ) (state : CfiState) : Scan (CfiLoop ⊕ CfiState) :=
  match op with
  | .advanceLoc delta =>
    match cfiAdvance cur delta cie.codeAlign loc with
    | none => return .inr state
    | some cur => return .inl ⟨p, cur, state⟩
  | .advanceLocBytes bytes => do
    let (operandA, p) ← dwarfReadBytes s stop p bytes
    match cfiAdvance cur operandA cie.codeAlign loc with
    | none => return .inr state
    | some cur => return .inl ⟨p, cur, state⟩
  | .restore reg =>
    if reg ≥ dwarfMaxRegs then return .inl ⟨p, cur, state⟩
    else do
      let state ← state.modify fun rules => do
        -- the rule the cie left, or none if the cie itself is executed
        if cie.opcodesStart = opcodesStart then rules.setReg reg .zero
        else rules.setReg reg (← fetch dwarfMaxRegs state.cfiBaseline.regs reg)
      return .inl ⟨p, cur, state⟩
  | .rememberState => do
    require (state.depth + 1 < cfiStackDepthMax)
    let rules ← store cfiStackDepthMax state.rules (state.depth + 1) (← state.current)
    return .inl ⟨p, cur, { state with rules, depth := state.depth + 1 }⟩
  | .restoreState => do
    require (state.depth ≠ 0)
    return .inl ⟨p, cur, { state with depth := state.depth - 1 }⟩
  | .offset reg => do
    let (operandB, p) ← dwarfReadUleb s stop p
    if reg < dwarfMaxRegs then
      let state ← state.modify fun rules => do
        let r ← fetch dwarfMaxRegs rules.regs reg
        rules.setReg reg { r with kind := .offset, offset := (operandB * cie.dataAlign) % word }
      return .inl ⟨p, cur, state⟩
    return .inl ⟨p, cur, state⟩
  | .defCfa => do
    let (operandA, p) ← dwarfReadUleb s stop p
    let (operandB, p) ← dwarfReadUleb s stop p
    require (operandA < dwarfMaxRegs)
    let state ← state.modify fun rules =>
      return { rules with cfa := ⟨.offset, operandA, operandB⟩ }
    return .inl ⟨p, cur, state⟩
  | .defCfaRegister => do
    let (operandA, p) ← dwarfReadUleb s stop p
    require (operandA < dwarfMaxRegs)
    let state ← state.modify fun rules =>
      return { rules with cfa := { rules.cfa with regNum := operandA } }
    return .inl ⟨p, cur, state⟩
  | .defCfaOffset => do
    let (operandA, p) ← dwarfReadUleb s stop p
    let state ← state.modify fun rules =>
      return { rules with cfa := { rules.cfa with offset := operandA } }
    return .inl ⟨p, cur, state⟩
  | .nop => return .inl ⟨p, cur, state⟩

def cfiRound (l : CfiLoop) : Scan (CfiLoop ⊕ CfiState) :=
  if l.p < stop then do
    let byte ← read s l.p
    match Cfa.ofByte byte with
    | some op => cfiOpcode s cie opcodesStart stop loc op (l.p + 1) l.cur l.state
    | none => .error .reject
  else return .inr l.state

def dwarfCfiExecute (state : CfiState) : Scan CfiState :=
  loop (cfiRound s cie opcodesStart stop loc) (stop - opcodesStart + 1) ⟨opcodesStart, 0, state⟩

end Interpreter

def CfiState.reset (state : CfiState) (cie : Cie) : CfiState :=
  { state with
    isSignalFrame := cie.isSignalFrame
    depth := 0
    raCol := cie.raCol
    rules := fun _ => .zero }

/-- The state in which the FDE is executed, with the rules that the CIE left. -/
def CfiState.saveBaseline (state : CfiState) : Scan CfiState := do
  return { state with cfiBaseline := ← state.current }

/-- `cie` is the local variable of that name, which the source does not initialise. -/
def dwarfCfi (s : Bytes) (pc : ℕ) (cie : Cie) (state : CfiState) : Scan CfiState := do
  let (fde, cie) ← dwarfGetFde s pc cie
  let state ← dwarfCfiExecute s cie cie.opcodesStart cie.opcodesEnd 0 (state.reset cie)
  let state ← state.saveBaseline
  dwarfCfiExecute s cie fde.opcodesStart fde.opcodesEnd (wsub pc fde.initialLocation) state

inductive Arch where
  | x86_64
  | riscv64
  | loongarch64
  deriving DecidableEq, Repr

def Arch.dwarfSpReg : Arch → ℕ
  | .x86_64 => 7
  | .riscv64 => 2
  | .loongarch64 => 3

section Resolve

variable (load : ℕ → Option ℕ) (arch : Arch)

/-- The rule for register `i`, given the value of the CFA. -/
def resolveReg (rules : CfiRules) (cfaValue : ℕ) (regs : ℕ → ℕ) (i : ℕ) : Scan (ℕ → ℕ) := do
  let reg ← fetch dwarfMaxRegs rules.regs i
  match reg.kind with
  | .offset =>
    match load (wadd cfaValue reg.offset) with
    | some val => store dwarfMaxRegs regs i val
    | none => .error .reject
  | .sameValue => return regs
  | .other _ => .error .reject

def dwarfCfiResolve (state : CfiState) : Scan CfiState := do
  let rules ← state.current
  require (rules.cfa.kind = .offset)
  let reg ← fetch dwarfMaxRegs state.regs rules.cfa.regNum
  let cfaValue := wadd reg rules.cfa.offset
  let regs ← store dwarfMaxRegs state.regs arch.dwarfSpReg cfaValue
  let regs ← (List.range dwarfMaxRegs).foldlM (resolveReg load rules cfaValue) regs
  return { state with regs }

end Resolve

end LoaderDwarfCfi
