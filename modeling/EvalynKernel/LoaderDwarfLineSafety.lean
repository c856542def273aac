import EvalynKernel.LoaderDwarfLine

/-! # The line table reader on any section

Every table that `dwarf_line_parse_tables` accepts lies inside its unit and every unit inside
the section, so the lookup in one unit reads only the section, divides by no zero and comes
back. The walk over the units is different: its step is computed in 32 bits, and a unit
length of `0xfffffffc` makes it zero. -/
namespace LoaderDwarfLineSafety

open MachineWords ByteScanner LoaderDwarfHelpers LoaderDwarfLine

variable {s : Bytes}

def InString (s : Bytes) (p : ℕ) : Prop := ∃ len, CString s p len s.size

def InSection (s : Bytes) (out : LineResult) : Prop :=
  InString s out.file ∧ ∀ dir ∈ out.dir, InString s dir

structure Tables (s : Bytes) (info : LineInfo) : Prop where
  lineRange : info.lineRange ≠ 0
  opcodeBase : info.opcodeBase ≠ 0
  maxOps : info.maxOps ≠ 0
  dirs : info.dirTable ≤ info.fileTable
  files : info.fileTable ≤ info.instrStart
  start : info.instrStart ≤ info.instrEnd
  within : info.instrEnd ≤ s.size

variable {stop p : ℕ}

theorem inString_of_le (h : CString s p len stop) (hstop : stop ≤ s.size) :
    InString s p := ⟨len, lt_of_lt_of_le h.1 hstop, h.2⟩

variable {unit : ℕ}

section Tables

variable (hsize : s.size < word)
include hsize

theorem strnlen_stop (hp : p ≤ stop) (hstop : stop ≤ s.size) :
    Returns (strnlen s p (wsub stop p)) fun len => p + len < stop → CString s p len stop := by
  rw [wsub_of_le hp (by omega)]
  refine (strnlen_returns (by omega)).imp fun len hlen hlt => ?_
  have := hlen.2 (by omega)
  rwa [show p + (stop - p) = stop by omega] at this

theorem skipString_sound (hp : p ≤ stop) (hstop : stop ≤ s.size) :
    Sound (skipString s stop p) fun q => (p < q ∧ q ≤ stop) ∧ InString s p := by
  refine (strnlen_stop hsize hp hstop).bind fun len hlen => ?_
  refine (require_sound _).bind fun _ hlt => ?_
  exact ⟨⟨by omega, hlt⟩, inString_of_le (hlen hlt) hstop⟩

theorem skipFile_sound (hp : p ≤ stop) (hstop : stop ≤ s.size) :
    Sound (skipFile s stop p) fun q => p < q ∧ q ≤ stop := by
  refine (skipString_sound hsize hp hstop).bind fun p₁ h₁ => ?_
  refine (dwarfReadUleb_sound hstop).bind fun ⟨_, p₂⟩ h₂ => ?_
  refine (dwarfReadUleb_sound hstop).bind fun ⟨_, p₃⟩ h₃ => ?_
  refine (dwarfReadUleb_sound hstop).bind fun ⟨_, p₄⟩ h₄ => ?_
  have := h₂.1
  have := h₃.1
  have := h₄.1
  exact ⟨by show p < p₄; omega, h₄.2⟩

omit hsize in
theorem skipEntries_sound {skip : ℕ → Scan ℕ}
    (hskip : ∀ p ≤ stop, Sound (skip p) fun q => p < q ∧ q ≤ stop) (n : ℕ) (hp : p ≤ stop) :
    Sound (skipEntries skip n p) fun q => p ≤ q ∧ q ≤ stop := by
  induction n generalizing p with
  | zero => exact ⟨le_rfl, hp⟩
  | succ n ih =>
    refine (hskip p hp).bind fun q hq => ?_
    exact (ih hq.2).imp fun r hr => ⟨by omega, hr.2⟩

variable {info : LineInfo}

theorem lookupFile_sound (h : Tables s info) (index : ℕ) :
    Sound (lookupFile s info index) fun r => InString s r.1 := by
  have hstart := h.start.trans h.within
  refine (require_sound _).bind fun _ _ => ?_
  refine (skipEntries_sound (fun p hp => skipFile_sound hsize hp hstart) _ h.files).bind
    fun name hname => ?_
  refine (skipString_sound hsize hname.2 hstart).bind fun p hp => ?_
  exact (dwarfReadUleb_sound hstart).bind fun _ _ => hp.2

theorem lookupDir_returns (h : Tables s info) (index : ℕ) :
    Returns (lookupDir s info index) fun dir => ∀ p ∈ dir, InString s p := by
  have hfiles := (h.files.trans h.start).trans h.within
  unfold lookupDir
  split
  · intro p hp
    cases hp
  · refine attempt_returns ?_
    refine (skipEntries_sound (fun p hp => (skipString_sound hsize hp hfiles).imp
      fun _ hq => hq.1) _ h.dirs).bind fun p hp => ?_
    refine (require_sound _).bind fun _ hlt => ?_
    rw [read_of_lt (by omega), value_bind]
    refine (require_sound _).bind fun _ _ => ?_
    refine (strnlen_stop hsize hp.2 hfiles).bind fun len hlen => ?_
    exact (require_sound _).bind fun _ hend => inString_of_le (hlen hend) hfiles

theorem resolveRow_sound (h : Tables s info) (vm : LineVm) :
    Sound (resolveRow s info vm) (InSection s) := by
  refine (lookupFile_sound hsize h vm.candFile).bind fun ⟨name, dirIndex⟩ hname => ?_
  exact (lookupDir_returns hsize h dirIndex).bind fun dir hdir => ⟨hname, hdir⟩

theorem dirWalk_sound (hp : p ≤ stop) (hstop : stop ≤ s.size) :
    Sound (loop (dirRound s stop) (stop - p + 1) p) fun q => p ≤ q ∧ q ≤ stop := by
  refine loop_ends (I := fun q => p ≤ q ∧ q ≤ stop) (m := fun q => stop - q) (fun q hq => ?_)
    ⟨le_rfl, hp⟩ (Nat.lt_succ_self _)
  unfold dirRound
  split
  · rename_i hlt
    rw [read_of_lt (by omega), value_bind]
    split
    · exact ⟨by omega, hlt⟩
    · refine (skipString_sound hsize hq.2 hstop).bind fun r hr => ?_
      exact ⟨⟨by omega, hr.1.2⟩, by show stop - r < stop - q; omega⟩
  · exact hq

omit hsize in
theorem parseHeader_sound {version : ℕ} (out : LineInfo) (h : unit + 16 ≤ s.size) :
    Sound (parseHeader s version unit out) fun info =>
      info.instrStart = out.instrStart ∧ info.instrEnd = out.instrEnd := by
  unfold parseHeader
  split
  · unfold dwarfLineParseV3
    iterate 4 rw [read_of_lt (by omega), value_bind]
    exact ⟨rfl, rfl⟩
  · unfold dwarfLineParseV4
    iterate 5 rw [read_of_lt (by omega), value_bind]
    exact ⟨rfl, rfl⟩

theorem dwarfLineParseTables_sound (hunit : unit ≤ s.size) :
    Sound (dwarfLineParseTables s unit s.size) (Tables s) := by
  refine (require_sound _).bind fun _ hroom => ?_
  rw [wsub_of_le hunit (by omega)] at hroom
  rw [readLe_of_le (by omega), value_bind, readLe_of_le (by omega), value_bind,
    readLe_of_le (by omega), value_bind]
  refine (require_sound _).bind fun _ hversion => ?_
  refine (require_sound _).bind fun _ _ => (require_sound _).bind fun _ hlen => ?_
  refine (require_sound _).bind fun _ hheader => (require_sound _).bind fun _ hinstr => ?_
  have h15 : 15 ≤ if leValue s (unit + 4) 2 = 3 then 15 else 16 := by split <;> omega
  rw [wsub_of_le (by omega) (by omega)] at hinstr
  refine (parseHeader_sound _ (by omega)).bind fun info hinfo => ?_
  refine (require_sound _).bind fun _ hrange => (require_sound _).bind fun _ hbase => ?_
  refine (require_sound _).bind fun _ hops => (require_sound _).bind fun _ htable => ?_
  refine (dirWalk_sound hsize (by omega) (by omega)).bind fun fileTable hfile => ?_
  obtain ⟨hstart, hend⟩ := hinfo
  exact ⟨hrange, hbase, hops, hfile.1, hstart ▸ hfile.2, by rw [hstart, hend]; simp only; omega,
    by rw [hend]; simp only; omega⟩

end Tables

/-- A round that had read the opcode before `p` goes on at or after `p`, inside the program. -/
def Moves (s : Bytes) (info : LineInfo) (p : ℕ) : LineRound → Prop
  | .inl st => p ≤ st.1 ∧ st.1 ≤ info.instrEnd
  | .inr out => InSection s out

section Program

variable (hsize : s.size < word) {info : LineInfo} (h : Tables s info) (pc : ℕ)
include h

theorem advance_sound (vm : LineVm) (operand : ℕ) :
    Returns (advance info vm operand) fun _ => True := by
  exact (divide_returns h.maxOps).bind fun _ _ => trivial

include hsize

theorem row_sound (hp : p ≤ info.instrEnd) (vm : LineVm) :
    Sound (row s info pc p vm) (Moves s info p) := by
  unfold row
  split
  split
  · exact (resolveRow_sound hsize h _).bind fun out hout => hout
  · exact ⟨le_rfl, hp⟩

theorem specialOpcode_sound (hp : p ≤ info.instrEnd) (opcode : ℕ) (vm : LineVm) :
    Sound (specialOpcode s info pc opcode p vm) (Moves s info p) := by
  refine (divide_returns h.lineRange).bind fun opAdvance _ => ?_
  refine (advance_sound h vm _).bind fun vm _ => ?_
  exact (modulo_returns h.lineRange).bind fun rest _ => row_sound hsize h pc hp _

theorem extendedOpcode_sound (p : ℕ) (vm : LineVm) :
    Sound (extendedOpcode s info pc p vm) (Moves s info p) := by
  have hwithin := h.within
  refine (dwarfReadUleb_sound hwithin).bind fun ⟨operandA, q⟩ hq => ?_
  obtain ⟨hpq, hle⟩ : p < q ∧ q ≤ info.instrEnd := hq
  refine (require_sound _).bind fun _ hlen => ?_
  rw [wsub_of_le hle (by omega)] at hlen
  rw [read_of_lt (by omega), value_bind]
  have hnext : ∀ vm, Moves s info p (.inl (q + operandA, vm)) := fun _ =>
    ⟨by show p ≤ q + operandA; omega, by show q + operandA ≤ info.instrEnd; omega⟩
  split
  · split
    · exact (resolveRow_sound hsize h vm).bind fun out hout => hout
    · exact hnext _
  · refine (require_sound _).bind fun _ _ => ?_
    exact (dwarfReadBytes_sound (by omega) hsize (by omega)).bind fun _ _ => hnext _
  · exact (dwarfReadUleb_sound (by omega)).bind fun _ _ => hnext _
  · exact Sound.reject
  · exact Sound.reject

theorem standardOpcode_sound (hp : p ≤ info.instrEnd) (op : Lns) (vm : LineVm) :
    Sound (standardOpcode s info pc op p vm) (Moves s info p) := by
  have huleb : ∀ f : ℕ × ℕ → Scan LineRound, (∀ r, p < r.2 → r.2 ≤ info.instrEnd →
      Sound (f r) (Moves s info p)) → Sound (dwarfReadUleb s info.instrEnd p >>= f)
        (Moves s info p) := fun f hf =>
    (dwarfReadUleb_sound h.within).bind fun r hr => hf r hr.1 hr.2
  cases op with
  | copy => exact row_sound hsize h pc hp vm
  | advancePc =>
    refine huleb _ fun r hlt hle => (advance_sound h vm _).bind fun vm _ => ⟨by omega, hle⟩
  | advanceLine =>
    refine (dwarfReadSleb_sound h.within).bind fun r hr => ⟨?_, hr.2⟩
    exact Nat.le_of_lt hr.1
  | setFile | setColumn | setIsa => exact huleb _ fun r hlt hle => ⟨Nat.le_of_lt hlt, hle⟩
  | constAddPc =>
    refine (divide_returns h.lineRange).bind fun operandA _ => ?_
    exact (advance_sound h vm _).bind fun vm _ => ⟨le_rfl, hp⟩
  | fixedAdvancePc =>
    refine (dwarfReadBytes_sound h.within hsize hp).bind fun r hr => ⟨?_, hr.2⟩
    omega
  | negateStmt | setBasicBlock | setPrologueEnd | setEpilogueBegin => exact ⟨le_rfl, hp⟩

theorem lineRound_sound (st : ℕ × LineVm) :
    Sound (lineRound s info pc st)
      (Progress (fun _ => True) (fun st => info.instrEnd - st.1) (InSection s) st) := by
  obtain ⟨p, vm⟩ := st
  unfold lineRound
  simp only
  split
  · rename_i hp
    have hwithin := h.within
    rw [read_of_lt (by omega), value_bind]
    have hmoves : ∀ r, Moves s info (p + 1) r →
        Progress (fun _ => True) (fun st : ℕ × LineVm => info.instrEnd - st.1) (InSection s)
          (p, vm) r := by
      intro r hr
      cases r with
      | inr out => exact hr
      | inl st =>
        obtain ⟨hlt, hle⟩ := hr
        exact ⟨trivial, by show info.instrEnd - st.1 < info.instrEnd - p; omega⟩
    split
    · exact (specialOpcode_sound hsize h pc hp _ vm).imp hmoves
    · split
      · exact (extendedOpcode_sound hsize h pc (p + 1) vm).imp hmoves
      · split
        · exact (standardOpcode_sound hsize h pc hp _ vm).imp hmoves
        · exact Sound.reject
  · exact Sound.reject

theorem dwarfLineFind_sound : Sound (dwarfLineFind s info pc) (InSection s) :=
  loop_ends (fun st _ => lineRound_sound hsize h pc st) trivial (Nat.lt_succ_self _)

end Program

/-- The unit at `unit` lies inside the section and the reader goes on at `next`. -/
structure Passed (s : Bytes) (unit next : ℕ) : Prop where
  step : next = unit + (4 + leValue s unit 4) % 2 ^ 32
  within : unit + 4 + leValue s unit 4 ≤ s.size
  length : leValue s unit 4 ≠ uint32Max

variable {next : ℕ}

theorem Passed.le_size (h : Passed s unit next) : next ≤ s.size := by
  have := h.step
  have := h.within
  omega

/-- The 32-bit step is zero for one length only. -/
theorem Passed.lt_next (h : Passed s unit next) (hlen : leValue s unit 4 ≠ 0xfffffffc) :
    unit < next ∧ unit < s.size := by
  have hlt : leValue s unit 4 < 256 ^ 4 := leValue_lt
  have := h.step
  have := h.within
  omega

section Units

variable (hsize : s.size < word) (pc : ℕ)
include hsize

theorem unitFind_sound (hunit : unit ≤ s.size) : Sound (unitFind s pc unit) (InSection s) :=
  (dwarfLineParseTables_sound hsize hunit).bind fun _ h => dwarfLineFind_sound hsize h pc

theorem unitRound_returns (hunit : unit ≤ s.size) :
    Returns (unitRound s pc unit) (Keeps (Passed s unit) fun out => ∀ a ∈ out, InSection s a) := by
  have hnone : ∀ a ∈ (none : Option LineResult), InSection s a := fun a ha => by cases ha
  unfold unitRound
  split
  · rename_i hroom
    rw [readLe_of_le (by omega), value_bind]
    split
    · exact hnone
    · rename_i hmax
      split
      · exact hnone
      · rename_i hlen
        rw [wsub_of_le hunit hsize] at hlen
        refine (attempt_returns (unitFind_sound hsize pc hunit)).bind fun o ho => ?_
        cases o with
        | some out => exact ho
        | none => exact ⟨rfl, by omega, hmax⟩
  · exact hnone

def Visits (s : Bytes) (pc unit : ℕ) : Prop :=
  Relation.ReflTransGen (Passes (unitRound s pc)) 0 unit

/-- The reader comes back, and an answer of its points into the section. -/
def Safe (s : Bytes) (pc : ℕ) : Prop :=
  ∃ fuel, Returns (dwarfLineForPc s fuel pc) fun out => ∀ a ∈ out, InSection s a

/-- The reader passes over no unit whose length makes the 32-bit step zero. -/
def Advancing (s : Bytes) (pc : ℕ) : Prop :=
  ∀ unit next, Visits s pc unit → Passes (unitRound s pc) unit next →
    leValue s unit 4 ≠ 0xfffffffc

omit hsize in
theorem dwarfLineForPc_eq (fuel : ℕ) :
    (s.size < 4 ∧ dwarfLineForPc s fuel pc = .ok none) ∨
      dwarfLineForPc s fuel pc = loop (unitRound s pc) fuel 0 := by
  unfold dwarfLineForPc
  split
  · exact Or.inl ⟨‹_›, rfl⟩
  · exact Or.inr rfl

omit hsize in
theorem dwarfLineForPc_succ (fuel : ℕ) :
    dwarfLineForPc s (fuel + 1) pc = loop (unitRound s pc) (fuel + 1) 0 := by
  rcases dwarfLineForPc_eq (s := s) pc (fuel + 1) with ⟨hsmall, he⟩ | he
  · rw [he, loop_succ_of_done]
    exact if_neg (by omega)
  · exact he

/-- However long the reader is watched, it has read only the section. -/
theorem dwarfLineForPc_keeps (fuel : ℕ) :
    Scans (· = .fuel) (dwarfLineForPc s fuel pc) fun out => ∀ a ∈ out, InSection s a := by
  rcases dwarfLineForPc_eq pc fuel with ⟨-, he⟩ | he <;> rw [he]
  · intro a ha
    cases ha
  · refine loop_keeps (I := (· ≤ s.size)) (fun unit hunit => ?_) (E := (· = .fuel)) rfl
      (Nat.zero_le _) fuel
    refine Returns.scans ((unitRound_returns hsize pc hunit).imp fun r hr => ?_)
    cases r with
    | inr out => exact hr
    | inl next => exact hr.le_size

theorem safe_of_advancing (h : Advancing s pc) : Safe s pc := by
  refine ⟨s.size + 1, ?_⟩
  rw [dwarfLineForPc_succ]
  refine loop_ends (I := fun unit => unit ≤ s.size ∧ Visits s pc unit)
    (m := fun unit => s.size - unit) (fun unit hunit => ?_) ⟨Nat.zero_le _, .refl⟩ (by simp)
  obtain ⟨r, hround, hr⟩ := (unitRound_returns hsize pc hunit.1).eq_ok
  refine Scans.of_eq hround ?_
  cases r with
  | inr out => exact hr
  | inl next =>
    have hlt := hr.lt_next (h unit next hunit.2 hround)
    have hle := hr.le_size
    refine ⟨⟨hle, hunit.2.tail hround⟩, ?_⟩
    show s.size - next < s.size - unit
    omega

theorem Visits.le_size (h : Visits s pc unit) : unit ≤ s.size := by
  induction h with
  | refl => exact Nat.zero_le _
  | tail _ hpass ih => exact ((unitRound_returns hsize pc ih).value hpass).le_size

theorem Visits.passed (h : Visits s pc unit) (hpass : Passes (unitRound s pc) unit next) :
    Passed s unit next :=
  (unitRound_returns hsize pc (h.le_size hsize)).value hpass

theorem advancing_of_safe (h : Safe s pc) : Advancing s pc := by
  intro unit next hvisit hpass hlen
  have hpassed := hvisit.passed hsize pc hpass
  have hstay : next = unit := by
    rw [hpassed.step, hlen]
    rfl
  rw [hstay] at hpass
  obtain ⟨fuel, hfuel⟩ := h
  obtain ⟨out, hout, -⟩ := hfuel.eq_ok
  rcases dwarfLineForPc_eq (s := s) pc fuel with ⟨hsmall, -⟩ | he
  · have := hpassed.within
    omega
  · rw [he] at hout
    obtain ⟨k, hk⟩ := loop_passes hvisit (n := fuel) (by rw [hout]; simp)
    rw [hout, loop_stuck hpass] at hk
    cases hk

end Units

/-- The reader never reads outside the section or divides by zero, and it comes back exactly
when it advances. -/
theorem line_reader_safe_iff (hs : s.size < 2 ^ 62) (pc : ℕ) :
    (∀ fuel, Scans (· = .fuel) (dwarfLineForPc s fuel pc) fun out => ∀ a ∈ out, InSection s a) ∧
      (Safe s pc ↔ Advancing s pc) := by
  have hsize : s.size < word := lt_trans hs (by decide)
  exact ⟨dwarfLineForPc_keeps hsize pc,
    advancing_of_safe hsize pc, safe_of_advancing hsize pc⟩

/-- One unit of version 3 for the file `a`, with the rows of one sequence: line 3 at `0x1000`,
line 4 at `0x1002` and the end at `0x1004`. -/
def oneUnit : Bytes := Bytes.ofList
  [0x30, 0, 0, 0, 3, 0, 0x18, 0, 0, 0, 1, 1, 0xfb, 14, 13, 0, 1, 1, 1, 1, 0, 0, 0, 1, 0, 0, 1, 0,
    0x61, 0, 0, 0, 0, 0,
    0, 9, 2, 0, 0x10, 0, 0, 0, 0, 0, 0, 0x14, 0x2f, 2, 2, 0, 1, 1]

theorem one_unit_read : oneUnit.size < 2 ^ 62 ∧
    (∀ fuel, Scans (· = .fuel) (dwarfLineForPc oneUnit fuel 0x1001) fun out =>
      ∀ a ∈ out, InSection oneUnit a) ∧
    (Safe oneUnit 0x1001 ↔ Advancing oneUnit 0x1001) ∧
    dwarfLineForPc oneUnit 2 0x1001 = .ok (some ⟨none, 28, 3⟩) :=
  ⟨by decide, (line_reader_safe_iff (by decide) _).1, (line_reader_safe_iff (by decide) _).2,
    by decide +kernel⟩

/-- A section of `2 ^ 32` bytes that claims to be one unit, of no known version. -/
def longUnit : Bytes where
  size := 2 ^ 32
  byte i := if i = 0 then 0xfc else if i < 4 then 0xff else 0

/-- The reader goes from this unit to itself and never comes back. -/
theorem long_unit_hangs : longUnit.size < 2 ^ 62 ∧ ¬ Safe longUnit 0 ∧
    ∀ fuel, dwarfLineForPc longUnit fuel 0 = .error .fuel := by
  have hstuck : ∀ fuel, dwarfLineForPc longUnit fuel 0 = .error .fuel :=
    loop_stuck (by unfold Passes; decide +kernel)
  refine ⟨by decide, fun ⟨fuel, h⟩ => ?_, hstuck⟩
  rw [hstuck fuel] at h
  exact h

end LoaderDwarfLineSafety
