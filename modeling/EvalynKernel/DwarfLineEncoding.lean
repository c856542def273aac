import EvalynKernel.ByteScanner
import EvalynKernel.DwarfLineProgram

/-! # The bytes of a line number section

The 32-bit format of versions 3 and 4, as relations between offsets of a byte string and what
the bytes between them stand for. Operands are numbers of 64 bits; one takes ten bytes at most,
and may be padded up to them. -/
namespace DwarfLineEncoding

open ByteScanner DwarfLineProgram

section Operands

variable (s : Bytes)

/-- The bytes from `p` to `q` are the unsigned LEB128 number `v`. -/
inductive Uleb : ℕ → ℕ → ℕ → Prop where
  | last {p : ℕ} : (s.byte p).toNat < 128 → Uleb p (p + 1) (s.byte p).toNat
  | more {p q v : ℕ} : 128 ≤ (s.byte p).toNat → Uleb (p + 1) q v →
      Uleb p q ((s.byte p).toNat - 128 + 128 * v)

inductive Sleb : ℕ → ℕ → ℤ → Prop where
  | positive {p : ℕ} : (s.byte p).toNat < 64 → Sleb p (p + 1) (s.byte p).toNat
  | negative {p : ℕ} : 64 ≤ (s.byte p).toNat → (s.byte p).toNat < 128 →
      Sleb p (p + 1) ((s.byte p).toNat - 128)
  | more {p q : ℕ} {v : ℤ} : 128 ≤ (s.byte p).toNat → Sleb (p + 1) q v →
      Sleb p q ((s.byte p).toNat - 128 + 128 * v)

structure Unsigned (p q v : ℕ) : Prop where
  leb : Uleb s p q v
  short : q ≤ p + 10
  fits : v < 2 ^ 64

structure Signed (p q : ℕ) (v : ℤ) : Prop where
  leb : Sleb s p q v
  short : q ≤ p + 10

end Operands

section Programs

variable (s : Bytes)

/-- An extended opcode at `p`: its length is that of the bytes from `n`, where the opcode
`sub` stands, to `q`. -/
structure Extended (sub p n q : ℕ) : Prop where
  escape : (s.byte p).toNat = 0
  length : Unsigned s (p + 1) n (q - n)
  room : n < q
  opcode : (s.byte n).toNat = sub

def Standard (h : Header) (code p : ℕ) : Prop := (s.byte p).toNat = code ∧ code < h.opcodeBase

/-- The bytes from `p` to `q` are the operation `op`. -/
inductive Encodes (h : Header) : Op → ℕ → ℕ → Prop where
  | special {p : ℕ} : h.opcodeBase ≤ (s.byte p).toNat →
      Encodes h (.special (s.byte p).toNat) p (p + 1)
  | copy {p : ℕ} : Standard s h 1 p → Encodes h .copy p (p + 1)
  | advancePc {p q v : ℕ} : Standard s h 2 p → Unsigned s (p + 1) q v →
      Encodes h (.advancePc v) p q
  | advanceLine {p q : ℕ} {v : ℤ} : Standard s h 3 p → Signed s (p + 1) q v →
      Encodes h (.advanceLine v) p q
  | setFile {p q v : ℕ} : Standard s h 4 p → Unsigned s (p + 1) q v → Encodes h (.setFile v) p q
  | setColumn {p q v : ℕ} : Standard s h 5 p → Unsigned s (p + 1) q v →
      Encodes h (.setColumn v) p q
  | negateStmt {p : ℕ} : Standard s h 6 p → Encodes h .negateStmt p (p + 1)
  | setBasicBlock {p : ℕ} : Standard s h 7 p → Encodes h .setBasicBlock p (p + 1)
  | constAddPc {p : ℕ} : Standard s h 8 p → Encodes h .constAddPc p (p + 1)
  | fixedAdvancePc {p : ℕ} : Standard s h 9 p →
      Encodes h (.fixedAdvancePc (leValue s (p + 1) 2)) p (p + 3)
  | setPrologueEnd {p : ℕ} : Standard s h 10 p → Encodes h .setPrologueEnd p (p + 1)
  | setEpilogueBegin {p : ℕ} : Standard s h 11 p → Encodes h .setEpilogueBegin p (p + 1)
  | setIsa {p q v : ℕ} : Standard s h 12 p → Unsigned s (p + 1) q v → Encodes h (.setIsa v) p q
  | endSequence {p n : ℕ} : Extended s 1 p n (n + 1) → Encodes h .endSequence p (n + 1)
  | setAddress {p n k : ℕ} : 1 ≤ k → k ≤ 8 → Extended s 2 p n (n + 1 + k) →
      Encodes h (.setAddress (leValue s (n + 1) k)) p (n + 1 + k)
  | setDiscriminator {p n q v : ℕ} : Extended s 4 p n q → Unsigned s (n + 1) q v →
      Encodes h (.setDiscriminator v) p q

inductive Program (h : Header) : List Op → ℕ → ℕ → Prop where
  | nil {p : ℕ} : Program h [] p p
  | cons {op : Op} {ops : List Op} {p m q : ℕ} : Encodes s h op p m → Program h ops m q →
      Program h (op :: ops) p q

end Programs

section Units

variable (s : Bytes)

/-- The table of directories: strings, and an empty one at the end. -/
inductive Dirs : ℕ → ℕ → Prop where
  | nil {p : ℕ} : s.byte p = 0 → Dirs p (p + 1)
  | cons {p len q : ℕ} : 0 < len → CString s p len (p + len + 1) → Dirs (p + len + 1) q →
      Dirs p q

/-- The table of files, given by where their names are. A name is followed by its directory,
time and length, and the table by an empty name. -/
inductive Files : List ℕ → ℕ → ℕ → Prop where
  | nil {p : ℕ} : s.byte p = 0 → Files [] p (p + 1)
  | cons {files : List ℕ} {p len a b c dir time length q : ℕ} :
      0 < len → CString s p len (p + len + 1) → Unsigned s (p + len + 1) a dir →
      Unsigned s a b time → Unsigned s b c length → Files files c q → Files (p :: files) p q

def signedByte (b : ℕ) : ℤ := if b < 128 then b else b - 256

/-- The header of the unit at `u` takes `size` bytes. -/
structure HeaderAt (u size : ℕ) (h : Header) : Prop where
  version : leValue s (u + 4) 2 = 3 ∧ size = 15 ∨
    leValue s (u + 4) 2 = 4 ∧ size = 16 ∧ (s.byte (u + 11)).toNat = 1
  minInstLen : (s.byte (u + 10)).toNat = h.minInstLen
  defaultIsStmt : decide ((s.byte (u + size - 4)).toNat ≠ 0) = h.defaultIsStmt
  lineBase : signedByte (s.byte (u + size - 3)).toNat = h.lineBase
  lineRange : (s.byte (u + size - 2)).toNat = h.lineRange
  opcodeBase : (s.byte (u + size - 1)).toNat = h.opcodeBase
  lineRange_pos : 0 < h.lineRange
  opcodeBase_pos : 0 < h.opcodeBase

/-- A unit: its header, where the names of its files are, and its program. -/
structure LineUnit where
  header : Header
  files : List ℕ
  program : List Op

namespace LineUnit

def matrix (t : LineUnit) : List Row := rows t.header (Row.initial t.header) t.program

def sequences (t : LineUnit) : List Sequence := DwarfLineProgram.sequences t.matrix

end LineUnit

/-- Where the parts of the unit `t` from `u` to `v` are. -/
structure Layout (t : LineUnit) (u v size fileTable fileEnd start : ℕ) : Prop where
  whole : u + 4 + leValue s u 4 = v
  length : leValue s u 4 < 0xfffffff0
  header : HeaderAt s u size t.header
  dirs : Dirs s (u + size + t.header.opcodeBase - 1) fileTable
  files : Files s t.files fileTable fileEnd
  fits : fileEnd ≤ start
  headerLength : u + 10 + leValue s (u + 6) 4 = start
  program : Program s t.header t.program start v
  terminated : Terminated t.matrix

def UnitAt (t : LineUnit) (u v : ℕ) : Prop :=
  ∃ size fileTable fileEnd start, Layout s t u v size fileTable fileEnd start

/-- The section is made of the units `ts` from `u` on. -/
inductive Units : List LineUnit → ℕ → Prop where
  | nil : Units [] s.size
  | cons {t : LineUnit} {ts : List LineUnit} {u v : ℕ} : UnitAt s t u v → Units ts v →
      Units (t :: ts) u

end Units

section Bounds

variable {s : Bytes}

variable {p q v : ℕ}

theorem Uleb.lt (h : Uleb s p q v) : p < q := by
  induction h with
  | last _ | more _ _ ih => omega

theorem Sleb.lt {v : ℤ} (h : Sleb s p q v) : p < q := by
  induction h with
  | positive _ | negative _ _ | more _ _ ih => omega

theorem Unsigned.lt (h : Unsigned s p q v) : p < q := h.leb.lt

theorem Unsigned.byte (h : (s.byte p).toNat < 128) : Unsigned s p (p + 1) (s.byte p).toNat :=
  ⟨.last h, by omega, by omega⟩

variable {h : Header}

theorem Encodes.lt (he : Encodes s h op p q) : p < q := by
  cases he with
  | advancePc _ hv | setFile _ hv | setColumn _ hv | setIsa _ hv =>
    have := hv.lt
    omega
  | advanceLine _ hv =>
    have := hv.leb.lt
    omega
  | endSequence hx | setAddress _ _ hx | setDiscriminator hx _ =>
    have := hx.length.lt
    have := hx.room
    omega
  | _ => omega

theorem Program.le (hp : Program s h ops p q) : p ≤ q := by
  induction hp with
  | nil => exact Nat.le_refl _
  | cons he _ ih => exact Nat.le_trans (Nat.le_of_lt he.lt) ih

theorem Dirs.lt (h : Dirs s p q) : p < q := by
  induction h with
  | nil _ | cons _ _ _ ih => omega

theorem Files.lt (h : Files s files p q) : p < q := by
  induction h with
  | nil _ => omega
  | cons _ _ ha hb hc _ ih =>
    have := ha.lt
    have := hb.lt
    have := hc.lt
    omega

theorem Units.le (h : Units s ts u) : u ≤ s.size := by
  induction h with
  | nil => exact Nat.le_refl _
  | cons hu _ ih =>
    obtain ⟨_, _, _, _, hl⟩ := hu
    have := hl.whole
    omega

end Bounds

end DwarfLineEncoding
