import EvalynKernel.LoaderDwarfHelpers

/-! # The line table reader (`loader/dwarf/line.c`)

The section is a byte string and a pointer into it an offset. `return false` is a rejection,
which `dwarf_line_for_pc` answers with the next unit and `lookup_dir` with a null pointer. -/
namespace LoaderDwarfLine

open MachineWords ByteScanner LoaderDwarfHelpers

inductive Lns where
  | copy
  | advancePc
  | advanceLine
  | setFile
  | setColumn
  | negateStmt
  | setBasicBlock
  | constAddPc
  | fixedAdvancePc
  | setPrologueEnd
  | setEpilogueBegin
  | setIsa
  deriving DecidableEq, Repr

def Lns.ofByte : ℕ → Option Lns
  | 0x01 => some .copy
  | 0x02 => some .advancePc
  | 0x03 => some .advanceLine
  | 0x04 => some .setFile
  | 0x05 => some .setColumn
  | 0x06 => some .negateStmt
  | 0x07 => some .setBasicBlock
  | 0x08 => some .constAddPc
  | 0x09 => some .fixedAdvancePc
  | 0x0A => some .setPrologueEnd
  | 0x0B => some .setEpilogueBegin
  | 0x0C => some .setIsa
  | _ => none

inductive Lne where
  | endSequence
  | setAddress
  | defineFile
  | setDiscriminator
  deriving DecidableEq, Repr

def Lne.ofByte : ℕ → Option Lne
  | 0x01 => some .endSequence
  | 0x02 => some .setAddress
  | 0x03 => some .defineFile
  | 0x04 => some .setDiscriminator
  | _ => none

structure LineInfo where
  minInstLen : ℕ
  maxOps : ℕ
  lineBase : ℕ
  lineRange : ℕ
  opcodeBase : ℕ
  dirTable : ℕ
  fileTable : ℕ
  instrStart : ℕ
  instrEnd : ℕ
  deriving DecidableEq, Repr

structure LineResult where
  dir : Option ℕ
  file : ℕ
  line : ℕ
  deriving DecidableEq, Repr

structure LineVm where
  address : ℕ
  line : ℕ
  file : ℕ
  candLine : ℕ
  candFile : ℕ
  deriving DecidableEq, Repr

/-- The `int8_t` in `byte`, as the word that represents it. -/
def signExtend8 (byte : ℕ) : ℕ := if byte < 128 then byte else word - 256 + byte

/-- Whether the address is past `pc`, and the machine with its candidate row. -/
def emitRow (vm : LineVm) (pc : ℕ) : Bool × LineVm :=
  if vm.address > pc then (true, vm)
  else (false, { vm with candLine := vm.line, candFile := vm.file })

section Reader

variable (s : Bytes)

def skipString (stop p : ℕ) : Scan ℕ := do
  let len ← strnlen s p (wsub stop p)
  require (p + len < stop)
  return p + len + 1

def skipFile (stop p : ℕ) : Scan ℕ := do
  let p ← skipString s stop p
  let (_, p) ← dwarfReadUleb s stop p
  let (_, p) ← dwarfReadUleb s stop p
  let (_, p) ← dwarfReadUleb s stop p
  return p

/-- The loop `for (uint64_t i = 1; i < index; i++)` over the entries of a table, for
`index - 1` rounds. -/
def skipEntries (skip : ℕ → Scan ℕ) : ℕ → ℕ → Scan ℕ
  | 0, p => .ok p
  | n + 1, p => do skipEntries skip n (← skip p)

def lookupFile (info : LineInfo) (index : ℕ) : Scan (ℕ × ℕ) := do
  require (index ≠ 0)
  let name ← skipEntries (skipFile s info.instrStart) (index - 1) info.fileTable
  let p ← skipString s info.instrStart name
  let (dirIndex, _) ← dwarfReadUleb s info.instrStart p
  return (name, dirIndex)

def lookupDir (info : LineInfo) (index : ℕ) : Scan (Option ℕ) :=
  if index = 0 then return none
  else attempt do
    let p ← skipEntries (skipString s info.fileTable) (index - 1) info.dirTable
    require (p < info.fileTable)
    let byte ← read s p
    require (byte ≠ 0)
    let strLen ← strnlen s p (wsub info.fileTable p)
    require (p + strLen < info.fileTable)
    return p

def resolveRow (info : LineInfo) (vm : LineVm) : Scan LineResult := do
  let (name, dirIndex) ← lookupFile s info vm.candFile
  let dir ← lookupDir s info dirIndex
  return ⟨dir, name, vm.candLine⟩

def dwarfLineParseV3 (unit : ℕ) (out : LineInfo) : Scan LineInfo := do
  let minInstLen ← read s (unit + 10)
  let lineBase ← read s (unit + 12)
  let lineRange ← read s (unit + 13)
  let opcodeBase ← read s (unit + 14)
  return { out with maxOps := 1, minInstLen, lineBase := signExtend8 lineBase, lineRange,
                    opcodeBase }

def dwarfLineParseV4 (unit : ℕ) (out : LineInfo) : Scan LineInfo := do
  let minInstLen ← read s (unit + 10)
  let maxOps ← read s (unit + 11)
  let lineBase ← read s (unit + 13)
  let lineRange ← read s (unit + 14)
  let opcodeBase ← read s (unit + 15)
  return { out with minInstLen, maxOps, lineBase := signExtend8 lineBase, lineRange, opcodeBase }

def parseHeader (version unit : ℕ) (out : LineInfo) : Scan LineInfo :=
  if version = 3 then dwarfLineParseV3 s unit out else dwarfLineParseV4 s unit out

def dirRound (stop p : ℕ) : Scan (ℕ ⊕ ℕ) :=
  if p < stop then do
    let byte ← read s p
    if byte = 0 then return .inr (p + 1)
    return .inl (← skipString s stop p)
  else return .inr p

def dwarfLineParseTables (unit stop : ℕ) : Scan LineInfo := do
  require (16 ≤ wsub stop unit)
  let unitLength ← readLe s unit 4
  let version ← readLe s (unit + 4) 2
  let headerLength ← readLe s (unit + 6) 4
  require (version = 3 ∨ version = 4)
  let headerSize := if version = 3 then 15 else 16
  -- DWARF64 isn't handled
  require (unitLength ≠ uint32Max)
  require (unitLength ≤ stop - unit - 4)
  let unitEnd := unit + 4 + unitLength
  require (headerSize - 4 ≤ unitLength)
  require (headerLength ≤ wsub unitEnd (unit + 10))
  let instrStart := unit + 10 + headerLength
  let out : LineInfo := ⟨0, 0, 0, 0, 0, 0, 0, instrStart, unitEnd⟩
  let out ← parseHeader s version unit out
  require (out.lineRange ≠ 0)
  require (out.opcodeBase ≠ 0)
  require (out.maxOps ≠ 0)
  require (headerSize - 10 + out.opcodeBase - 1 ≤ headerLength)
  let dirTable := unit + headerSize + out.opcodeBase - 1
  let fileTable ← loop (dirRound s instrStart) (instrStart - dirTable + 1) dirTable
  return { out with dirTable, fileTable }

section Program

variable (info : LineInfo) (pc : ℕ)

/-- What a round of `dwarf_line_find` comes to: the next opcode, or the answer. -/
abbrev LineRound := (ℕ × LineVm) ⊕ LineResult

/-- `if (emit_row(&vm, pc) && vm.cand_file != 0) return resolve_row(info, &vm, out)`. -/
def row (p : ℕ) (vm : LineVm) : Scan LineRound := do
  let (past, vm) := emitRow vm pc
  if past ∧ vm.candFile ≠ 0 then return .inr (← resolveRow s info vm)
  return .inl (p, vm)

/-- `vm.address += info->min_inst_len * (operand / info->max_ops)`. -/
def advance (vm : LineVm) (operand : ℕ) : Scan LineVm := do
  let ops ← divide operand info.maxOps
  return { vm with address := wadd vm.address (info.minInstLen * ops) }

def specialOpcode (opcode p : ℕ) (vm : LineVm) : Scan LineRound := do
  let adjusted := opcode - info.opcodeBase
  let opAdvance ← divide adjusted info.lineRange
  let vm ← advance info vm opAdvance
  let rest ← modulo adjusted info.lineRange
  row s info pc p { vm with line := wadd vm.line (wadd info.lineBase rest) }

def extendedOpcode (p : ℕ) (vm : LineVm) : Scan LineRound := do
  let (operandA, p) ← dwarfReadUleb s info.instrEnd p
  require (operandA ≠ 0 ∧ operandA ≤ wsub info.instrEnd p)
  let next := p + operandA
  let sub ← read s p
  match Lne.ofByte sub with
  | some .endSequence =>
    if pc < vm.address ∧ vm.candFile ≠ 0 then return .inr (← resolveRow s info vm)
    return .inl (next, { vm with candFile := 0, address := 0, line := 1, file := 1 })
  | some .setAddress =>
    let addrSize := (operandA - 1) % 256
    require (addrSize ≠ 0 ∧ addrSize ≤ 8)
    let (address, _) ← dwarfReadBytes s next (p + 1) addrSize
    return .inl (next, { vm with address })
  | some .setDiscriminator =>
    let _ ← dwarfReadUleb s next (p + 1)
    return .inl (next, vm)
  | some .defineFile | none => .error .reject

def standardOpcode (op : Lns) (p : ℕ) (vm : LineVm) : Scan LineRound :=
  match op with
  | .copy => row s info pc p vm
  | .advancePc => do
    let (operandA, p) ← dwarfReadUleb s info.instrEnd p
    return .inl (p, ← advance info vm operandA)
  | .advanceLine => do
    let (operandB, p) ← dwarfReadSleb s info.instrEnd p
    return .inl (p, { vm with line := wadd vm.line operandB })
  | .setFile => do
    let (file, p) ← dwarfReadUleb s info.instrEnd p
    return .inl (p, { vm with file })
  | .constAddPc => do
    let operandA ← divide (255 - info.opcodeBase) info.lineRange
    return .inl (p, ← advance info vm operandA)
  | .fixedAdvancePc => do
    let (operandA, p) ← dwarfReadBytes s info.instrEnd p 2
    return .inl (p, { vm with address := wadd vm.address operandA })
  | .setColumn | .setIsa => do
    let (_, p) ← dwarfReadUleb s info.instrEnd p
    return .inl (p, vm)
  | .negateStmt | .setBasicBlock | .setPrologueEnd | .setEpilogueBegin => return .inl (p, vm)

def lineRound (st : ℕ × LineVm) : Scan LineRound :=
  let (p, vm) := st
  if p < info.instrEnd then do
    let opcode ← read s p
    if info.opcodeBase ≤ opcode then specialOpcode s info pc opcode (p + 1) vm
    else if opcode = 0 then extendedOpcode s info pc (p + 1) vm
    else match Lns.ofByte opcode with
      | some op => standardOpcode s info pc op (p + 1) vm
      | none => .error .reject
  else .error .reject

def dwarfLineFind : Scan LineResult :=
  loop (lineRound s info pc) (info.instrEnd - info.instrStart + 1)
    (info.instrStart, ⟨0, 1, 1, 0, 0⟩)

end Program

def unitFind (pc unit : ℕ) : Scan LineResult := do
  dwarfLineFind s (← dwarfLineParseTables s unit s.size) pc

/-- One round of `dwarf_line_for_pc`. The sum `4 + common->unit_length` is a `uint32_t`. -/
def unitRound (pc unit : ℕ) : Scan (ℕ ⊕ Option LineResult) :=
  if s.size - unit ≥ 4 then do
    let unitLength ← readLe s unit 4
    if unitLength = uint32Max then return .inr none
    if unitLength > wsub s.size unit - 4 then return .inr none
    match ← attempt (unitFind s pc unit) with
    | some out => return .inr (some out)
    | none => return .inl (unit + (4 + unitLength) % 2 ^ 32)
  else return .inr none

def dwarfLineForPc (fuel pc : ℕ) : Scan (Option LineResult) :=
  if s.size < 4 then return none else loop (unitRound s pc) fuel 0

end Reader

end LoaderDwarfLine
