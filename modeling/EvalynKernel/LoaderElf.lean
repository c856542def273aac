import EvalynKernel.MachineWords

/-! # ELF files (`elf_checker.c`, `elf_introspection.c`)

The fields of the headers that the loader and the boot code read. -/
namespace LoaderElf

open MachineWords

def elf64Bit : ℕ := 2
def elfLittleEndian : ℕ := 1
def elfHeaderVer : ℕ := 1
def elfVer : ℕ := 1
def elfEvalynosAbi : ℕ := 0xEE
def elfExecutableType : ℕ := 0x02
def elfX8664Arch : ℕ := 0x3E
def elfMagic : List ℕ := [0x7F, 'E'.toNat, 'L'.toNat, 'F'.toNat]

def elfProgPtLoadType : ℕ := 1
def elfProgExecFlag : ℕ := 0x1
def elfProgWrite : ℕ := 0x2

structure ElfHeader where
  magic : List ℕ
  bits : ℕ
  endianness : ℕ
  headerVersion : ℕ
  abi : ℕ
  type : ℕ
  arch : ℕ
  elfVersion : ℕ
  entryPoint : ℕ
  deriving DecidableEq, Repr

structure ElfProgramHeader where
  type : ℕ
  flags : ℕ
  offset : ℕ
  virtAddr : ℕ
  fileSize : ℕ
  memSize : ℕ
  deriving DecidableEq, Repr

structure ElfFile where
  header : ElfHeader
  progHeaders : List ElfProgramHeader
  bytes : ℕ → ℕ

def verifyElf (currentArch : ℕ) (h : ElfHeader) : Bool :=
  if h.magic ≠ elfMagic then false
  else if h.headerVersion ≠ elfHeaderVer then false
  else if h.elfVersion ≠ elfVer then false
  else if h.bits ≠ elf64Bit then false
  else if h.endianness ≠ elfLittleEndian then false
  else if h.abi ≠ elfEvalynosAbi then false
  else if h.type ≠ elfExecutableType then false
  else if h.arch ≠ currentArch then false
  else true

/-- One turn of the loop of `elf_introspect_base`. -/
def elfBaseStep (base : ℕ) (ph : ElfProgramHeader) : ℕ :=
  if ph.type = elfProgPtLoadType ∧ ph.virtAddr < base then ph.virtAddr else base

def elfIntrospectBase (headers : List ElfProgramHeader) : Exec ℕ := do
  let elfBase := headers.foldl elfBaseStep (word - 1)
  kassert "elf_base != UINT64_MAX" (elfBase != word - 1)
  .ok elfBase

theorem foldl_elfBase (headers : List ElfProgramHeader) (b : ℕ) :
    headers.foldl elfBaseStep b ≤ b ∧
      (∀ ph ∈ headers, ph.type = elfProgPtLoadType → headers.foldl elfBaseStep b ≤ ph.virtAddr) ∧
      (headers.foldl elfBaseStep b = b ∨ ∃ ph ∈ headers, ph.type = elfProgPtLoadType ∧
        ph.virtAddr = headers.foldl elfBaseStep b) := by
  induction headers generalizing b with
  | nil => exact ⟨le_rfl, by simp, Or.inl rfl⟩
  | cons ph rest ih =>
    rw [List.foldl_cons]
    obtain ⟨hle, hall, hsome⟩ := ih (elfBaseStep b ph)
    generalize rest.foldl elfBaseStep (elfBaseStep b ph) = r at *
    have hin : ∀ q ∈ rest, q ∈ ph :: rest := fun q hq => List.mem_cons_of_mem _ hq
    by_cases hph : ph.type = elfProgPtLoadType ∧ ph.virtAddr < b
    · rw [elfBaseStep, if_pos hph] at hle hsome
      refine ⟨by omega, fun q hq hload => ?_, Or.inr ?_⟩
      · rcases List.mem_cons.mp hq with rfl | hq
        · exact hle
        · exact hall q hq hload
      · rcases hsome with hr | ⟨q, hq, hload, hr⟩
        · exact ⟨ph, List.mem_cons_self, hph.1, hr.symm⟩
        · exact ⟨q, hin q hq, hload, hr⟩
    · rw [elfBaseStep, if_neg hph] at hle hsome
      refine ⟨hle, fun q hq hload => ?_, ?_⟩
      · rcases List.mem_cons.mp hq with rfl | hq
        · exact hle.trans (not_lt.mp fun hlt => hph ⟨hload, hlt⟩)
        · exact hall q hq hload
      · exact hsome.imp_right fun ⟨q, hq, hr⟩ => ⟨q, hin q hq, hr⟩

theorem elfIntrospectBase_spec (h : elfIntrospectBase headers = .ok base) :
    (∃ ph ∈ headers, ph.type = elfProgPtLoadType ∧ ph.virtAddr = base) ∧
      ∀ ph ∈ headers, ph.type = elfProgPtLoadType → base ≤ ph.virtAddr := by
  obtain ⟨_, hassert, hbase⟩ := bind_ok h
  have hne := bne_iff_ne.mp (kassert_eq_ok hassert)
  cases hbase
  obtain ⟨-, hall, hsome⟩ := foldl_elfBase headers (word - 1)
  exact ⟨hsome.resolve_left hne, hall⟩

end LoaderElf
