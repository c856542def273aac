import EvalynKernel.LoaderDwarfLineDecode
import EvalynKernel.LoaderDwarfLineSafety

/-! # The reader against the matrix

The reader runs a program opcode by opcode and keeps one candidate, with file 0 for none. It
is in step with the state machine that builds the matrix, so it answers as the lookup row by
row does, and that is the lookup in the first sequence that contains the address. -/
namespace LoaderDwarfLineLookup

open MachineWords ByteScanner DwarfLineProgram DwarfLineEncoding LoaderDwarfHelpers LoaderDwarfLine
open LoaderDwarfLineDecode
open LoaderDwarfLineSafety (oneUnit)

def Candidate (vm : LineVm) : Option Row → Prop
  | none => vm.candFile = 0
  | some c => c.file ≠ 0 ∧ vm.candFile = c.file ∧ vm.candLine = c.line

structure Matches (vm : LineVm) (r : Row) (cand : Option Row) : Prop where
  address : vm.address = r.address
  line : vm.line = r.line
  file : vm.file = r.file
  cand : Candidate vm cand
  running : r.endSequence = false

def Outcome (s : Bytes) (info : LineInfo) (x : Scan LineRound) (q : ℕ) (r : Row) :
    Option Row ⊕ Row → Prop
  | .inl cand => ∃ vm, x = .ok (.inl (q, vm)) ∧ Matches vm r cand
  | .inr c => ∃ vm, x = (do return .inr (← resolveRow s info vm)) ∧ Candidate vm (some c)

section Rounds

variable {s : Bytes} {info : LineInfo} {pc p q : ℕ} {vm : LineVm} {r r' : Row}
  {cand : Option Row}

theorem outcome_next (h : Matches vm r' cand) :
    Outcome s info (.ok (.inl (q, vm))) q r' (considerStep pc cand none) := ⟨vm, rfl, h⟩

theorem row_outcome (h : Matches vm r cand) (hfile : r.file ≠ 0) (haddress : r'.address = r.address)
    (hline : r'.line = r.line) (hfile' : r'.file = r.file) (hrunning : r'.endSequence = false) :
    Outcome s info (row s info pc q vm) q r' (considerStep pc cand (some r)) := by
  by_cases hpast : pc < r.address
  · have hemit : emitRow vm pc = (true, vm) := if_pos (by rw [h.address]; exact hpast)
    unfold row
    rw [hemit]
    simp only [considerStep, consider, if_pos hpast, true_and]
    cases cand with
    | none =>
      rw [if_neg fun hne => hne h.cand]
      exact ⟨vm, rfl, h.address.trans haddress.symm, h.line.trans hline.symm,
        h.file.trans hfile'.symm, h.cand, hrunning⟩
    | some c =>
      rw [if_pos (by rw [h.cand.2.1]; exact h.cand.1)]
      exact ⟨vm, rfl, h.cand⟩
  · have hemit : emitRow vm pc = (false, { vm with candLine := vm.line, candFile := vm.file }) :=
      if_neg (by rw [h.address]; exact hpast)
    unfold row
    rw [hemit]
    simp only [considerStep, consider, if_neg hpast, h.running, Bool.false_eq_true, false_and,
      if_false]
    exact ⟨_, rfl, h.address.trans haddress.symm, h.line.trans hline.symm,
      h.file.trans hfile'.symm, ⟨hfile, h.file, h.line⟩, hrunning⟩

end Rounds

section Words

theorem wadd_special (line rest b : ℕ) :
    wadd line (wadd (signExtend8 b) rest) =
      ((line + (signedByte b + (rest : ℕ)) : ℤ) % 2 ^ 64).toNat := by
  unfold wadd signExtend8 signedByte
  have hword := word_eq
  rw [hword]
  split <;> omega

theorem wadd_signed (line : ℕ) (d : ℤ) :
    wadd line (d % (word : ℕ)).toNat = ((line + d) % 2 ^ 64).toNat := by
  unfold wadd
  have hword := word_eq
  rw [hword]
  omega

end Words

structure Agrees (info : LineInfo) (h : Header) : Prop where
  minInstLen : info.minInstLen = h.minInstLen
  maxOps : info.maxOps = 1
  lineBase : ∃ b, info.lineBase = signExtend8 b ∧ h.lineBase = signedByte b
  lineRange : info.lineRange = h.lineRange
  opcodeBase : info.opcodeBase = h.opcodeBase
  lineRange_pos : 0 < h.lineRange
  opcodeBase_pos : 0 < h.opcodeBase

variable {n : ℕ}

section Opcodes

variable {s : Bytes} {info : LineInfo} {h : Header} (ha : Agrees info h) {pc p q : ℕ}
  {vm : LineVm} {r : Row} {cand : Option Row}
include ha

theorem advance_eq (vm : LineVm) (n : ℕ) :
    advance info vm n = .ok { vm with address := wadd vm.address (h.minInstLen * n) } := by
  unfold advance
  rw [ha.maxOps, divide_of_ne Nat.one_ne_zero, value_bind, Nat.div_one, ha.minInstLen]
  rfl

omit ha in
theorem matches_moveAddress (hm : Matches vm r cand) (n : ℕ) :
    Matches { vm with address := wadd vm.address n } (r.moveAddress n) cand :=
  ⟨by rw [hm.address]; rfl, hm.line, hm.file, hm.cand, hm.running⟩

theorem specialOpcode_outcome (hm : Matches vm r cand) (opcode : ℕ) (hfile : r.file ≠ 0) :
    Outcome s info (specialOpcode s info pc opcode p vm) p (step h r (.special opcode)).2
      (considerStep pc cand (step h r (.special opcode)).1) := by
  obtain ⟨b, hinfo, hheader⟩ := ha.lineBase
  have hrange : h.lineRange ≠ 0 := Nat.ne_of_gt ha.lineRange_pos
  unfold specialOpcode
  simp only [ha.opcodeBase, ha.lineRange, divide_of_ne hrange, value_bind, advance_eq ha,
    modulo_of_ne hrange, hinfo]
  refine row_outcome ⟨?_, ?_, hm.file, hm.cand, hm.running⟩ hfile rfl rfl rfl hm.running
  · rw [hm.address]
    rfl
  · rw [hm.line, wadd_special, ← hheader]
    rfl

variable (hsize : s.size < word) (hend : info.instrEnd ≤ s.size) (hq : q ≤ info.instrEnd)
include hend hq

theorem lineRound_special (hp : p + 1 = q) (hb : h.opcodeBase ≤ (s.byte p).toNat) :
    lineRound s info pc (p, vm) = specialOpcode s info pc (s.byte p).toNat q vm := by
  unfold lineRound
  simp only
  rw [if_pos (by omega), read_of_lt (by omega), value_bind,
    if_pos (by rw [ha.opcodeBase]; exact hb), hp]

theorem lineRound_standard (hp : p < q) (hc : Standard s h code p)
    (hop : Lns.ofByte code = some op) :
    lineRound s info pc (p, vm) = standardOpcode s info pc op (p + 1) vm := by
  obtain ⟨hbyte, hlt⟩ := hc
  have hne : code ≠ 0 := by
    rintro rfl
    cases hop
  unfold lineRound
  simp only
  rw [if_pos (by omega), read_of_lt (by omega), value_bind,
    if_neg (by rw [ha.opcodeBase, hbyte]; omega), hbyte, if_neg hne, hop]

theorem lineRound_extended (hp : p < q) (hb : (s.byte p).toNat = 0) :
    lineRound s info pc (p, vm) = extendedOpcode s info pc (p + 1) vm := by
  have := ha.opcodeBase_pos
  unfold lineRound
  simp only
  rw [if_pos (by omega), read_of_lt (by omega), value_bind, hb,
    if_neg (by rw [ha.opcodeBase]; omega), if_pos rfl]

include hsize

omit ha in
theorem extendedOpcode_eq {sub : ℕ} (hx : Extended s sub p n q) :
    extendedOpcode s info pc (p + 1) vm = match Lne.ofByte sub with
      | some .endSequence =>
        if pc < vm.address ∧ vm.candFile ≠ 0 then do return .inr (← resolveRow s info vm)
        else .ok (.inl (q, { vm with candFile := 0, address := 0, line := 1, file := 1 }))
      | some .setAddress => do
        require ((q - n - 1) % 256 ≠ 0 ∧ (q - n - 1) % 256 ≤ 8)
        let (address, _) ← dwarfReadBytes s q (n + 1) ((q - n - 1) % 256)
        return .inl (q, { vm with address })
      | some .setDiscriminator => do
        let _ ← dwarfReadUleb s q (n + 1)
        return .inl (q, vm)
      | some .defineFile | none => .error .reject := by
  have hroom := hx.room
  unfold extendedOpcode
  rw [dwarfReadUleb_eq hend hx.length (by omega), value_bind]
  simp only
  rw [require_of ⟨by omega, by rw [wsub_of_le (by omega) (by omega)]; omega⟩, value_bind,
    read_of_lt (by omega), value_bind, hx.opcode, show n + (q - n) = q by omega]
  rfl

omit ha in
theorem endSequence_outcome (hx : Extended s 1 p n q) (hm : Matches vm r cand) :
    Outcome s info (extendedOpcode s info pc (p + 1) vm) q (step h r .endSequence).2
      (considerStep pc cand (step h r .endSequence).1) := by
  rw [extendedOpcode_eq hsize hend hq hx]
  have hreset : Matches { vm with candFile := 0, address := 0, line := 1, file := 1 }
      (Row.initial h) none := ⟨rfl, rfl, rfl, rfl, rfl⟩
  simp only [Lne.ofByte, step, considerStep, consider, hm.address]
  by_cases hpast : pc < r.address
  · cases cand with
    | none =>
      rw [if_neg fun hne => hne.2 hm.cand, if_pos hpast]
      exact ⟨_, rfl, hreset⟩
    | some c =>
      rw [if_pos ⟨hpast, by rw [hm.cand.2.1]; exact hm.cand.1⟩, if_pos hpast]
      exact ⟨vm, rfl, hm.cand⟩
  · rw [if_neg fun hne => hpast hne.1, if_neg hpast]
    exact ⟨_, rfl, hreset⟩

theorem lineRound_outcome (he : Encodes s h op p q) (hm : Matches vm r cand)
    (hfile : ∀ row ∈ (step h r op).1, row.endSequence = false → row.file ≠ 0) :
    Outcome s info (lineRound s info pc (p, vm)) q (step h r op).2
      (considerStep pc cand (step h r op).1) := by
  have hpq := he.lt
  have hstd : ∀ {code : ℕ} {op : Lns}, Standard s h code p → Lns.ofByte code = some op →
      lineRound s info pc (p, vm) = standardOpcode s info pc op (p + 1) vm := fun hc hop =>
    lineRound_standard ha hend hq hpq hc hop
  have huleb := fun {v : ℕ} (hv : Unsigned s (p + 1) q v) => dwarfReadUleb_eq hend hv hq
  cases he with
  | special hb =>
    rw [lineRound_special ha hend hq rfl hb]
    exact specialOpcode_outcome ha hm _ (hfile (r.special h _) rfl hm.running)
  | copy hc =>
    rw [hstd hc rfl]
    exact row_outcome hm (hfile r rfl hm.running) rfl rfl rfl hm.running
  | advancePc hc hv =>
    rw [hstd hc rfl]
    simp only [standardOpcode, huleb hv, value_bind, advance_eq ha]
    exact outcome_next (matches_moveAddress hm _)
  | advanceLine hc hv =>
    rw [hstd hc rfl]
    simp only [standardOpcode, dwarfReadSleb_eq hend hv hq, value_bind]
    refine outcome_next ⟨hm.address, ?_, hm.file, hm.cand, hm.running⟩
    rw [wadd_signed, hm.line]
    rfl
  | setFile hc hv =>
    rw [hstd hc rfl]
    simp only [standardOpcode, huleb hv, value_bind]
    exact outcome_next ⟨hm.address, hm.line, rfl, hm.cand, hm.running⟩
  | setColumn hc hv | setIsa hc hv =>
    rw [hstd hc rfl]
    simp only [standardOpcode, huleb hv, value_bind]
    exact outcome_next ⟨hm.address, hm.line, hm.file, hm.cand, hm.running⟩
  | negateStmt hc | setBasicBlock hc | setPrologueEnd hc | setEpilogueBegin hc =>
    rw [hstd hc rfl]
    exact outcome_next ⟨hm.address, hm.line, hm.file, hm.cand, hm.running⟩
  | constAddPc hc =>
    rw [hstd hc rfl]
    simp only [standardOpcode, ha.opcodeBase, ha.lineRange,
      divide_of_ne (Nat.ne_of_gt ha.lineRange_pos), value_bind, advance_eq ha]
    exact outcome_next (matches_moveAddress hm _)
  | fixedAdvancePc hc =>
    rw [hstd hc rfl]
    simp only [standardOpcode, dwarfReadBytes_eq hsize hend
      (show p + 1 + 2 ≤ info.instrEnd from hq), value_bind]
    exact outcome_next (matches_moveAddress hm _)
  | endSequence hx =>
    rw [lineRound_extended ha hend hq hpq hx.escape]
    exact endSequence_outcome hsize hend hq hx hm
  | @setAddress _ n k hk hk8 hx =>
    rw [lineRound_extended ha hend hq hpq hx.escape, extendedOpcode_eq hsize hend hq hx]
    have hlen : (n + 1 + k - n - 1) % 256 = k := by omega
    simp only [Lne.ofByte, hlen]
    rw [require_of ⟨by omega, hk8⟩, value_bind, dwarfReadBytes_eq hsize (by omega) (Nat.le_refl _),
      value_bind]
    exact outcome_next ⟨rfl, hm.line, hm.file, hm.cand, hm.running⟩
  | setDiscriminator hx hv =>
    rw [lineRound_extended ha hend hq hpq hx.escape, extendedOpcode_eq hsize hend hq hx]
    simp only [Lne.ofByte]
    rw [dwarfReadUleb_eq (by omega) hv (Nat.le_refl q), value_bind]
    exact outcome_next ⟨hm.address, hm.line, hm.file, hm.cand, hm.running⟩

end Opcodes

variable {vm : LineVm}

section Programs

variable {s : Bytes} {info : LineInfo} {h : Header} (ha : Agrees info h) (pc : ℕ)
  (hsize : s.size < word) (hend : info.instrEnd ≤ s.size)
include ha hsize hend

def Finds (s : Bytes) (info : LineInfo) (x : Scan LineResult) : Option Row → Prop
  | none => x = .error .reject
  | some c => ∃ vm, x = resolveRow s info vm ∧ Candidate vm (some c)

theorem program_finds (hp : Program s h ops p info.instrEnd) (hm : Matches vm r cand)
    (hfiles : ∀ row ∈ rows h r ops, row.endSequence = false → row.file ≠ 0)
    (hn : info.instrEnd - p < n) :
    Finds s info (loop (lineRound s info pc) n (p, vm)) (scanRows pc cand (rows h r ops)) := by
  generalize hstop : info.instrEnd = stop at hp hn
  induction hp generalizing vm r cand n with
  | nil =>
    obtain ⟨n, rfl⟩ : ∃ m, n = m + 1 := ⟨n - 1, by omega⟩
    refine loop_succ_of_error ?_
    unfold lineRound
    simp only
    rw [if_neg (by omega)]
  | @cons op ops p m q he htail ih =>
    obtain ⟨n, rfl⟩ : ∃ m, n = m + 1 := ⟨n - 1, by omega⟩
    have hpm := he.lt
    have hmq := htail.le
    have hround : Outcome s info (lineRound s info pc (p, vm)) m (step h r op).2
        (considerStep pc cand (step h r op).1) :=
      lineRound_outcome ha hsize hend (by omega) he hm fun row hrow =>
        hfiles row (List.mem_append_left _ (Option.mem_toList.mpr hrow))
    rw [rows, scanRows_step]
    cases hc : considerStep pc cand (step h r op).1 with
    | inl cand' =>
      rw [hc] at hround
      obtain ⟨vm', hpass, hm'⟩ := hround
      rw [loop_succ_of_passes hpass]
      exact ih hm' (fun row hrow => hfiles row (List.mem_append_right _ hrow)) hstop (by omega)
    | inr c =>
      rw [hc] at hround
      obtain ⟨vm', hx, hcand⟩ := hround
      refine ⟨vm', ?_, hcand⟩
      rw [loop, hx]
      cases resolveRow s info vm' with
      | error e => rfl
      | ok out => rfl

end Programs

section Units

variable {s : Bytes} (hsize : s.size < word) (pc : ℕ) {t : LineUnit} {u v : ℕ}

variable {fileTable fileEnd start size : ℕ}

theorem agrees_unitInfo (hl : Layout s t u v size fileTable fileEnd start) :
    Agrees (unitInfo s t u v size fileTable start) t.header :=
  ⟨rfl, rfl, ⟨_, rfl, hl.header.lineBase.symm⟩, rfl, rfl, hl.header.lineRange_pos,
    hl.header.opcodeBase_pos⟩

def ValidFiles (t : LineUnit) : Prop :=
  ∀ q ∈ t.sequences, ∀ r ∈ q.rows, 1 ≤ r.file ∧ r.file ≤ t.files.length

def Names (t : LineUnit) (c : Row) (out : LineResult) : Prop :=
  out.line = c.line ∧ t.files[c.file - 1]? = some out.file

variable {c : Row}

theorem mem_sequences (hterm : Terminated rs) (hmem : c ∈ rs) (hend : c.endSequence = false) :
    ∃ q ∈ DwarfLineProgram.sequences rs, c ∈ q.rows := by
  rw [← flatMap_sequences hterm] at hmem
  obtain ⟨q, hq, hmem⟩ := List.mem_flatMap.mp hmem
  refine ⟨q, hq, ?_⟩
  rcases List.mem_append.mp hmem with hrow | hlast
  · exact hrow
  · rw [List.mem_singleton.mp hlast, (endSequence_of_mem hq).2] at hend
    cases hend

include hsize

theorem resolveRow_eq (hl : Layout s t u v size fileTable fileEnd start) (hv : v ≤ s.size)
    (htables : LoaderDwarfLineSafety.Tables s (unitInfo s t u v size fileTable start))
    (hcand : Candidate vm (some c)) (hle : c.file ≤ t.files.length) :
    ∃ out, resolveRow s (unitInfo s t u v size fileTable start) vm = .ok out ∧ Names t c out := by
  obtain ⟨hne, hfile, hline⟩ := hcand
  have hget : t.files[c.file - 1]? = some (t.files[c.file - 1]) := List.getElem?_eq_getElem _
  obtain ⟨dirIndex, hlookup⟩ : ∃ dir, lookupFile s (unitInfo s t u v size fileTable start) c.file =
      .ok (t.files[c.file - 1], dir) :=
    lookupFile_eq hsize (hl.program.le.trans hv) rfl hl.files hl.fits (by omega) hget
  obtain ⟨dir, hdir, -⟩ :=
    (LoaderDwarfLineSafety.lookupDir_returns hsize htables dirIndex).eq_ok
  refine ⟨⟨dir, t.files[c.file - 1], vm.candLine⟩, ?_, hline, hget⟩
  unfold resolveRow
  rw [hfile, hlookup, value_bind]
  simp only
  rw [hdir, value_bind]
  rfl

theorem unitFind_eq (hu : UnitAt s t u v) (hv : v ≤ s.size) (hfiles : ValidFiles t) :
    match scanRows pc none t.matrix with
    | none => unitFind s pc u = .error .reject
    | some c => ∃ out, unitFind s pc u = .ok out ∧ Names t c out := by
  obtain ⟨size, fileTable, fileEnd, start, hl⟩ := hu
  have hparse := dwarfLineParseTables_eq hsize hl hv
  have htables := (LoaderDwarfLineSafety.dwarfLineParseTables_sound hsize
    (by have := hl.whole; omega)).value hparse
  have hvalid : ∀ c ∈ t.matrix, c.endSequence = false → 1 ≤ c.file ∧ c.file ≤ t.files.length := by
    intro c hc hend
    obtain ⟨q, hq, hmem⟩ := mem_sequences hl.terminated hc hend
    exact hfiles q hq c hmem
  have hinitial : Matches ⟨0, 1, 1, 0, 0⟩ (Row.initial t.header) none := ⟨rfl, rfl, rfl, rfl, rfl⟩
  have hfinds := program_finds (agrees_unitInfo hl) pc hsize hv hl.program hinitial
    (fun c hc hend => by have := (hvalid c hc hend).1; omega) (Nat.lt_succ_self _)
  have hunit : unitFind s pc u = dwarfLineFind s (unitInfo s t u v size fileTable start) pc := by
    unfold unitFind
    rw [hparse, value_bind]
  rw [hunit]
  change Finds s _ (dwarfLineFind s _ pc) (scanRows pc none t.matrix) at hfinds
  cases hscan : scanRows pc none t.matrix with
  | none =>
    rw [hscan] at hfinds
    exact hfinds
  | some c =>
    rw [hscan] at hfinds
    obtain ⟨vm, hx, hcand⟩ := hfinds
    rw [hx]
    rcases mem_of_scanRows hscan with hnone | ⟨hmem, hend⟩
    · cases hnone
    · exact resolveRow_eq hsize hl hv htables hcand (hvalid c hmem hend).2

theorem unitRound_eq (hu : UnitAt s t u v) (hv : v ≤ s.size) (hfiles : ValidFiles t) :
    match scanRows pc none t.matrix with
    | none => unitRound s pc u = .ok (.inl v)
    | some c => ∃ out, unitRound s pc u = .ok (.inr (some out)) ∧ Names t c out := by
  have hfind := unitFind_eq hsize pc hu hv hfiles
  obtain ⟨_, _, _, _, hl⟩ := hu
  have hwhole := hl.whole
  have hlength := hl.length
  have hround : ∀ o, attempt (unitFind s pc u) = .ok o →
      unitRound s pc u = .ok (o.elim (.inl v) fun out => .inr (some out)) := by
    intro o ho
    unfold unitRound
    rw [if_pos (by omega), readLe_of_le (by omega), value_bind,
      if_neg (by unfold uint32Max; omega),
      if_neg (by rw [wsub_of_le (by omega) hsize]; omega), ho, value_bind,
      show u + (4 + leValue s u 4) % 2 ^ 32 = v by omega]
    cases o with
    | none => rfl
    | some out => rfl
  cases hscan : scanRows pc none t.matrix with
  | none =>
    rw [hscan] at hfind
    exact hround none (by rw [show unitFind s pc u = .error .reject from hfind]; rfl)
  | some c =>
    rw [hscan] at hfind
    obtain ⟨out, hout, hnames⟩ := hfind
    exact ⟨out, hround (some out) (by rw [hout]; rfl), hnames⟩

end Units

/-- The sequences of a section: units in section order, sequences in program order. -/
def allSequences (ts : List LineUnit) : List (LineUnit × Sequence) :=
  ts.flatMap fun t => t.sequences.map fun q => (t, q)

def firstSequence (pc : ℕ) (ts : List LineUnit) : Option (LineUnit × Sequence) :=
  (allSequences ts).find? fun tq => tq.2.Contains pc

/-- The answer has the line and file of the last row with address at most `pc`. -/
def Answers (pc : ℕ) : Option (LineUnit × Sequence) → Option LineResult → Prop
  | none, out => out = none
  | some (t, q), out => ∃ o row, out = some o ∧ q.rowAt pc = some row ∧ Names t row o

theorem firstSequence_cons (pc : ℕ) (t : LineUnit) (ts : List LineUnit) :
    firstSequence pc (t :: ts) =
      ((t.sequences.find? fun q => q.Contains pc).map fun q => (t, q)).or
        (firstSequence pc ts) := by
  unfold firstSequence allSequences
  rw [List.flatMap_cons, List.find?_append, List.find?_map]
  rfl

section Section

variable {s : Bytes} (hsize : s.size < word) (pc : ℕ)
include hsize

variable {ts : List LineUnit}

theorem units_walk (h : Units s ts u) (hord : ∀ t ∈ ts, ∀ q ∈ t.sequences, q.Ordered)
    (hfiles : ∀ t ∈ ts, ValidFiles t) :
    ∃ out, (∀ n, ts.length < n → loop (unitRound s pc) n u = .ok out) ∧
      Answers pc (firstSequence pc ts) out := by
  induction h with
  | nil =>
    refine ⟨none, fun n hn => ?_, rfl⟩
    obtain ⟨n, rfl⟩ : ∃ m, n = m + 1 := ⟨n - 1, by omega⟩
    refine loop_succ_of_done ?_
    unfold unitRound
    rw [if_neg (by omega)]
    rfl
  | @cons t ts u v hu htail ih =>
    have hround := unitRound_eq hsize pc hu htail.le (hfiles t List.mem_cons_self)
    have hterm : Terminated t.matrix := by
      obtain ⟨_, _, _, _, hl⟩ := hu
      exact hl.terminated
    have hscan := scanRows_eq pc hterm (hord t List.mem_cons_self)
    rw [firstSequence_cons]
    change scanRows pc none t.matrix = (t.sequences.find? _).bind _ at hscan
    cases hfind : t.sequences.find? fun q => q.Contains pc with
    | none =>
      rw [hfind] at hscan
      rw [show scanRows pc none t.matrix = none from hscan] at hround
      obtain ⟨out, hloop, hanswers⟩ := ih (fun t ht => hord t (List.mem_cons_of_mem _ ht))
        fun t ht => hfiles t (List.mem_cons_of_mem _ ht)
      refine ⟨out, fun n hn => ?_, hanswers⟩
      obtain ⟨n, rfl⟩ : ∃ m, n = m + 1 := ⟨n - 1, by omega⟩
      rw [loop_succ_of_passes hround]
      exact hloop n (by simpa using hn)
    | some q =>
      have hcontains : q.Contains pc := by simpa using List.find?_some hfind
      obtain ⟨row, hrow⟩ := Option.isSome_iff_exists.mp (Sequence.rowAt_isSome hcontains)
      rw [hfind] at hscan
      rw [show scanRows pc none t.matrix = some row from hscan.trans hrow] at hround
      obtain ⟨o, ho, hnames⟩ := hround
      refine ⟨some o, fun n hn => ?_, o, row, rfl, hrow, hnames⟩
      obtain ⟨n, rfl⟩ : ∃ m, n = m + 1 := ⟨n - 1, by omega⟩
      exact loop_succ_of_done ho

omit hsize in
theorem firstSequence_isSome :
    (firstSequence pc ts).isSome = true ↔ ∃ t ∈ ts, ∃ q ∈ t.sequences, q.Contains pc := by
  unfold firstSequence allSequences
  rw [List.find?_isSome]
  constructor
  · rintro ⟨⟨t, q⟩, hmem, hc⟩
    obtain ⟨t', ht, hmem⟩ := List.mem_flatMap.mp hmem
    obtain ⟨q', hq, heq⟩ := List.mem_map.mp hmem
    cases heq
    exact ⟨t, ht, q, hq, by simpa using hc⟩
  · rintro ⟨t, ht, q, hq, hc⟩
    exact ⟨(t, q), List.mem_flatMap.mpr ⟨t, ht, List.mem_map.mpr ⟨q, hq, rfl⟩⟩, by simpa using hc⟩

end Section

/-- The reader answers exactly when a sequence contains the address, with the line and file of
the last row with address at most `pc` in the first such sequence. -/
theorem line_lookup_correct (s : Bytes) (hsize : s.size < 2 ^ 64) (ts : List LineUnit)
    (hunits : Units s ts 0) (hord : ∀ t ∈ ts, ∀ q ∈ t.sequences, q.Ordered)
    (hfiles : ∀ t ∈ ts, ∀ q ∈ t.sequences, ∀ r ∈ q.rows, 1 ≤ r.file ∧ r.file ≤ t.files.length)
    (pc : ℕ) :
    ∃ n out, (∀ fuel, n ≤ fuel → dwarfLineForPc s fuel pc = .ok out) ∧
      (out.isSome = true ↔ ∃ t ∈ ts, ∃ q ∈ t.sequences, q.Contains pc) ∧
      ∀ o ∈ out, ∃ t q row, firstSequence pc ts = some (t, q) ∧ q.rowAt pc = some row ∧
        o.line = row.line ∧ t.files[row.file - 1]? = some o.file := by
  obtain ⟨out, hloop, hanswers⟩ := units_walk hsize pc hunits hord hfiles
  refine ⟨ts.length + 1, out, fun fuel hfuel => ?_, ?_, fun o ho => ?_⟩
  · obtain ⟨fuel, rfl⟩ : ∃ m, fuel = m + 1 := ⟨fuel - 1, by omega⟩
    rw [LoaderDwarfLineSafety.dwarfLineForPc_succ]
    exact hloop (fuel + 1) hfuel
  · rw [← firstSequence_isSome]
    cases hfirst : firstSequence pc ts with
    | none =>
      rw [hfirst] at hanswers
      rw [show out = none from hanswers]
      exact Iff.rfl
    | some tq =>
      rw [hfirst] at hanswers
      obtain ⟨o, row, rfl, -⟩ := hanswers
      exact Iff.rfl
  · cases ho
    cases hfirst : firstSequence pc ts with
    | none =>
      rw [hfirst] at hanswers
      cases hanswers
    | some tq =>
      rw [hfirst] at hanswers
      obtain ⟨o', row, heq, hrow, hnames⟩ := hanswers
      cases heq
      exact ⟨tq.1, tq.2, row, rfl, hrow, hnames⟩

def oneTable : LineUnit where
  header := ⟨1, true, -5, 14, 13⟩
  files := [28]
  program := [.setAddress 0x1000, .special 0x14, .special 0x2f, .advancePc 2, .endSequence]

theorem oneUnit_program : Program oneUnit oneTable.header oneTable.program 34 52 := by
  have haddress : Extended oneUnit 2 34 36 45 :=
    ⟨by decide, .byte (p := 35) (by decide), by decide, by decide⟩
  have hend : Extended oneUnit 1 49 51 52 :=
    ⟨by decide, .byte (p := 50) (by decide), by decide, by decide⟩
  refine .cons (.setAddress (n := 36) (k := 8) (by decide) (by decide) haddress) ?_
  refine .cons (.special (p := 45) (by decide)) (.cons (.special (p := 46) (by decide)) ?_)
  refine .cons (.advancePc (p := 47) ⟨by decide, by decide⟩ (.byte (p := 48) (by decide))) ?_
  exact .cons (.endSequence (n := 51) hend) .nil

theorem oneUnit_units : Units oneUnit [oneTable] 0 := by
  have hname : CString oneUnit 28 1 30 := by
    refine ⟨by decide, fun i hi => ?_, by decide⟩
    obtain rfl : i = 0 := by omega
    decide
  refine .cons ⟨15, 28, 34, 34, ?_⟩ .nil
  exact
    { whole := by decide
      length := by decide
      header := ⟨Or.inl ⟨by decide, rfl⟩, by decide, by decide, by decide, by decide, by decide,
        by decide, by decide⟩
      dirs := .nil (by decide)
      files := .cons (by decide) hname (.byte (p := 30) (by decide)) (.byte (p := 31) (by decide))
        (.byte (p := 32) (by decide)) (.nil (by decide))
      fits := by decide
      headerLength := by decide
      program := oneUnit_program
      terminated := by decide }

theorem one_unit_looked_up : Units oneUnit [oneTable] 0 ∧
    ∃ n out, (∀ fuel, n ≤ fuel → dwarfLineForPc oneUnit fuel 0x1001 = .ok out) ∧
      (out.isSome = true ↔ ∃ t ∈ [oneTable], ∃ q ∈ t.sequences, q.Contains 0x1001) ∧
      ∀ o ∈ out, ∃ t q row, firstSequence 0x1001 [oneTable] = some (t, q) ∧
        q.rowAt 0x1001 = some row ∧ o.line = row.line ∧ t.files[row.file - 1]? = some o.file :=
  ⟨oneUnit_units, line_lookup_correct oneUnit (by decide) [oneTable] oneUnit_units (by decide)
    (by decide) 0x1001⟩

end LoaderDwarfLineLookup
