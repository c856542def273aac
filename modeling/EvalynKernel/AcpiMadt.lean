import EvalynKernel.ByteScanner

/-! # The interrupt controllers in the MADT (`acpi/tables/madt.c`, `arch/x86_64/acpi/madt.c`)

Pointers into the table are offsets from its start. `madt_next_entry` checks that an entry
ends inside the table, but `handle_entry` goes by the type of the entry, whose structure may
be longer than the entry. -/
namespace AcpiMadt

open ByteScanner

inductive MadtType where
  | apic | x2apic | ioapic | irqOverride | apicNmi | x2apicNmi | ioapicNmi | apicAddrOvr
  deriving DecidableEq, Repr

/-- The types that `handle_entry` has a case for. -/
def madtType : ℕ → Option MadtType
  | 0x00 => some .apic
  | 0x09 => some .x2apic
  | 0x01 => some .ioapic
  | 0x02 => some .irqOverride
  | 0x04 => some .apicNmi
  | 0x0a => some .x2apicNmi
  | 0x03 => some .ioapicNmi
  | 0x05 => some .apicAddrOvr
  | _ => none

structure DetectedApic where
  apicId : ℕ
  acpiId : ℕ
  flags : ℕ

structure DetectedIoapic where
  ioapicId : ℕ
  physAddr : ℕ
  gsiBase : ℕ

structure AcpiIrqOverride where
  irq : ℕ
  gsi : ℕ
  flags : ℕ

/-- The lists that the parser fills and its counters. `visited` is a ghost. -/
structure Detected where
  apics : List DetectedApic := []
  ioapics : List DetectedIoapic := []
  irqOverrides : List AcpiIrqOverride := []
  detectedCpus : ℕ := 0
  madtEntries : ℕ := 0
  unknownMadtEntries : ℕ := 0
  visited : List ℕ := []

def sizeofMadt : ℕ := 44
def sizeofMadtEntryHeader : ℕ := 2

def madtRegisterLapic (d : Detected) (apic : DetectedApic) : Detected :=
  if apic.flags % 2 = 0 then d
  else if d.apics.any (·.apicId = apic.apicId) then
    { d with apics := d.apics.map fun x => if x.apicId = apic.apicId then apic else x }
  else { d with apics := apic :: d.apics, detectedCpus := d.detectedCpus + 1 }

section Parser

variable (s : Bytes)

def checkEntry (stop ptr : ℕ) : Scan (Option ℕ) := do
  if stop < ptr + sizeofMadtEntryHeader then return none
  let length ← read s (ptr + 1)
  if length < sizeofMadtEntryHeader then return none
  if stop < ptr + length then return none
  return some ptr

def madtFirstEntry : Scan (Option ℕ) := do checkEntry s (← readLe s 4 4) sizeofMadt

def madtNextEntry : Option ℕ → Scan (Option ℕ)
  | none => madtFirstEntry s
  | some entry => do
    let stop ← readLe s 4 4
    let length ← read s (entry + 1)
    checkEntry s stop (entry + length)

def handleEntry (d : Detected) (entry : ℕ) : Scan Detected := do
  let d := { d with madtEntries := d.madtEntries + 1, visited := d.visited ++ [entry] }
  match madtType (← read s entry) with
  | some .apic =>
    let apicId ← readLe s (entry + 3) 1
    let acpiId ← readLe s (entry + 2) 1
    let flags ← readLe s (entry + 4) 4
    return madtRegisterLapic d ⟨apicId, acpiId, flags⟩
  | some .x2apic =>
    let x2apicId ← readLe s (entry + 4) 4
    let flags ← readLe s (entry + 8) 4
    let acpiId ← readLe s (entry + 12) 4
    return madtRegisterLapic d ⟨x2apicId, acpiId, flags⟩
  | some .ioapic =>
    let ioapicId ← readLe s (entry + 2) 1
    let physAddr ← readLe s (entry + 4) 4
    let gsiBase ← readLe s (entry + 8) 4
    return { d with ioapics := ⟨ioapicId, physAddr, gsiBase⟩ :: d.ioapics }
  | some .irqOverride =>
    let irq ← readLe s (entry + 3) 1
    let gsi ← readLe s (entry + 4) 4
    let flags ← readLe s (entry + 8) 2
    return { d with irqOverrides := ⟨irq, gsi, flags⟩ :: d.irqOverrides }
  | some _ => return d
  | none => return { d with unknownMadtEntries := d.unknownMadtEntries + 1 }

/-- A turn of `MADT_FOR_EACH_ENTRY`. -/
def madtRound : ℕ × Detected → Scan (ℕ × Detected ⊕ Detected)
  | (entry, d) => do
    let d ← handleEntry s d entry
    match ← madtNextEntry s (some entry) with
    | some next => return .inl (next, d)
    | none => return .inr d

end Parser

def acpiParseMadt (n : ℕ) : Option Bytes → Scan Detected
  | none => return {}
  | some s => do
    match ← madtFirstEntry s with
    | none => return {}
    | some entry => loop (madtRound s) n (entry, {})

variable {s : Bytes} {p n : ℕ} {d : Detected} {es : List ℕ}

def IsMadt (s : Bytes) : Prop := sizeofMadt ≤ s.size ∧ leValue s 4 4 = s.size

instance : Decidable (IsMadt s) := inferInstanceAs (Decidable (_ ∧ _))

def entryLength (s : Bytes) (p : ℕ) : ℕ := (s.byte (p + 1)).toNat

def IsEntry (s : Bytes) (p : ℕ) : Prop :=
  sizeofMadtEntryHeader ≤ entryLength s p ∧ p + entryLength s p ≤ s.size

instance : Decidable (IsEntry s p) := inferInstanceAs (Decidable (_ ∧ _))

/-- The entries from `p` on, each of which starts where the one before it ends. -/
inductive Entries (s : Bytes) : ℕ → List ℕ → Prop
  | stop {p : ℕ} : ¬ IsEntry s p → Entries s p []
  | entry {p : ℕ} {es : List ℕ} : IsEntry s p → Entries s (p + entryLength s p) es →
      Entries s p (p :: es)

/-- The size of the structure that `handle_entry` takes the entry at `p` for. -/
def structSize (s : Bytes) (p : ℕ) : ℕ :=
  match madtType (s.byte p).toNat with
  | some .apic => 8
  | some .x2apic => 16
  | some .ioapic => 12
  | some .irqOverride => 10
  | _ => sizeofMadtEntryHeader

/-- A type-specific field of the entry at `p` is read beyond the table. -/
def Overrun (s : Bytes) (p : ℕ) (e : Stop) : Prop :=
  ∃ i, e = .outside i ∧ s.size ≤ i ∧ p + sizeofMadtEntryHeader ≤ i ∧ i < p + structSize s p

theorem IsEntry.bounds (h : IsEntry s p) : 2 ≤ entryLength s p ∧ p + entryLength s p ≤ s.size := h

theorem entries_exist (s : Bytes) (p : ℕ) : ∃ es, Entries s p es := by
  by_cases h : IsEntry s p
  · have hb := h.bounds
    obtain ⟨es, hes⟩ := entries_exist s (p + entryLength s p)
    exact ⟨p :: es, .entry h hes⟩
  · exact ⟨[], .stop h⟩
  termination_by s.size - p

theorem Entries.inside (h : Entries s p es) : ∀ e ∈ es, p ≤ e ∧ IsEntry s e := by
  induction h with
  | stop _ => simp
  | entry hp _ ih =>
    intro e he
    rcases List.mem_cons.mp he with rfl | he
    · exact ⟨Nat.le_refl _, hp⟩
    · exact ⟨Nat.le_of_add_right_le (ih e he).1, (ih e he).2⟩

theorem Entries.apart (h : Entries s p es) :
    es.Pairwise fun e e' => e + entryLength s e ≤ e' := by
  induction h with
  | stop _ => exact List.Pairwise.nil
  | entry _ hes ih => exact List.Pairwise.cons (fun e he => (hes.inside e he).1) ih

theorem Entries.length_le (h : Entries s p es) : es.length ≤ s.size - p := by
  induction h with
  | stop _ => exact Nat.zero_le _
  | entry hp _ ih =>
    have hb := hp.bounds
    rw [List.length_cons]
    omega

theorem checkEntry_eq (p : ℕ) :
    checkEntry s s.size p = .ok (if IsEntry s p then some p else none) := by
  by_cases h : IsEntry s p
  · have hb := h.bounds
    rw [if_pos h, checkEntry, if_neg (Nat.not_lt.mpr (by unfold sizeofMadtEntryHeader; omega)),
      read_of_lt (by omega)]
    exact (if_neg (Nat.not_lt.mpr h.1)).trans (if_neg (Nat.not_lt.mpr h.2))
  · rw [if_neg h, checkEntry]
    split
    · rfl
    · rename_i hhead
      unfold sizeofMadtEntryHeader at hhead
      rw [read_of_lt (by omega)]
      by_cases hlength : entryLength s p < sizeofMadtEntryHeader
      · exact if_pos hlength
      · have hend := Nat.not_le.mp fun hle => h ⟨Nat.not_lt.mp hlength, hle⟩
        exact (if_neg hlength).trans (if_pos hend)

theorem field_scans (hlo : p + 2 ≤ q) (hhi : q + n ≤ p + structSize s p) :
    Scans (Overrun s p) (readLe s q n) fun _ => n ≠ 0 → q + n ≤ s.size := by
  induction n with
  | zero => exact fun h => absurd rfl h
  | succ n ih =>
    rw [readLe]
    apply (ih (by omega)).bind
    intro low _
    by_cases hin : q + n < s.size
    · rw [read_of_lt hin]
      exact fun _ => hin
    · rw [show read s (q + n) = .error (.outside (q + n)) from if_neg hin]
      exact ⟨q + n, rfl, by omega, Nat.le_trans hlo (by omega), by omega⟩

/-- The entries that are handled have three fields, and the last one ends the structure. -/
theorem fields_scans {q₁ q₂ q₃ n₁ n₂ n₃ : ℕ} {f : ℕ → ℕ → ℕ → Detected} (h₁ : p + 2 ≤ q₁)
    (h₁' : q₁ + n₁ ≤ p + structSize s p) (h₂ : p + 2 ≤ q₂) (h₂' : q₂ + n₂ ≤ p + structSize s p)
    (h₃ : p + 2 ≤ q₃) (h₃' : q₃ + n₃ = p + structSize s p) (h0 : n₃ ≠ 0)
    (hf : ∀ a b c, (f a b c).visited = d.visited ++ [p]) :
    Scans (Overrun s p) (do return f (← readLe s q₁ n₁) (← readLe s q₂ n₂) (← readLe s q₃ n₃))
      fun d' => d'.visited = d.visited ++ [p] ∧ p + structSize s p ≤ s.size := by
  apply (field_scans h₁ h₁').bind
  intro a _
  apply (field_scans h₂ h₂').bind
  intro b _
  apply (field_scans h₃ (Nat.le_of_eq h₃')).bind
  intro c hc
  exact ⟨hf a b c, h₃' ▸ hc h0⟩

theorem madtRegisterLapic_visited (apic : DetectedApic) :
    (madtRegisterLapic d apic).visited = d.visited := by
  unfold madtRegisterLapic
  split_ifs <;> rfl

theorem handleEntry_scans (hp : IsEntry s p) :
    Scans (Overrun s p) (handleEntry s d p) fun d' =>
      d'.visited = d.visited ++ [p] ∧ p + structSize s p ≤ s.size := by
  have hb := hp.bounds
  rw [handleEntry, read_of_lt (by omega), value_bind]
  cases ht : madtType (s.byte p).toNat with
  | none =>
    have hsize : structSize s p = 2 := by rw [structSize, ht]; rfl
    exact ⟨rfl, by omega⟩
  | some type =>
    cases type with
    | apic =>
      have hsize : structSize s p = 8 := by rw [structSize, ht]
      apply fields_scans <;> first | omega | exact fun _ _ _ => madtRegisterLapic_visited _
    | x2apic =>
      have hsize : structSize s p = 16 := by rw [structSize, ht]
      apply fields_scans <;> first | omega | exact fun _ _ _ => madtRegisterLapic_visited _
    | ioapic =>
      have hsize : structSize s p = 12 := by rw [structSize, ht]
      apply fields_scans <;> first | omega | exact fun _ _ _ => rfl
    | irqOverride =>
      have hsize : structSize s p = 10 := by rw [structSize, ht]
      apply fields_scans <;> first | omega | exact fun _ _ _ => rfl
    | _ =>
      have hsize : structSize s p = 2 := by rw [structSize, ht]; rfl
      exact ⟨rfl, by omega⟩

/-- The loop visits the entries one after the other, or reads a field beyond the table. -/
theorem loop_entries (hs : IsMadt s) (h : Entries s p es) (hp : IsEntry s p)
    (hn : es.length ≤ n) :
    Scans (fun e => ∃ q ∈ es, Overrun s q e) (loop (madtRound s) n (p, d)) fun d' =>
      d'.visited = d.visited ++ es ∧ ∀ q ∈ es, q + structSize s q ≤ s.size := by
  induction h generalizing n d with
  | stop h => exact absurd hp h
  | @entry p es _ hes ih =>
    have hb := hp.bounds
    have hsize := hs.1
    unfold sizeofMadt at hsize
    rw [List.length_cons] at hn
    obtain ⟨n, rfl⟩ : ∃ m, n = m + 1 := ⟨n - 1, by omega⟩
    have hnext : madtNextEntry s (some p) =
        .ok (if IsEntry s (p + entryLength s p) then some (p + entryLength s p) else none) := by
      rw [madtNextEntry, readLe_of_le (by omega), value_bind, read_of_lt (by omega), value_bind,
        hs.2]
      exact checkEntry_eq _
    unfold loop madtRound
    rw [bind_assoc]
    refine Scans.bind ((handleEntry_scans hp).mono fun e he => ⟨p, List.mem_cons_self, he⟩) ?_
    rintro d₁ ⟨hvisited, hfit⟩
    rw [hnext]
    by_cases hmore : IsEntry s (p + entryLength s p)
    · rw [if_pos hmore]
      have hrest := ih (d := d₁) hmore (Nat.le_of_succ_le_succ hn)
      refine Scans.imp (hrest.mono fun e he => ?_) ?_
      · obtain ⟨q, hq, hover⟩ := he
        exact ⟨q, List.mem_cons_of_mem p hq, hover⟩
      rintro d₂ ⟨hall, hfits⟩
      constructor
      · rw [hall, hvisited, List.append_assoc]
        rfl
      · exact List.forall_mem_cons.mpr ⟨hfit, hfits⟩
    · rw [if_neg hmore]
      cases hes with
      | stop _ => exact ⟨hvisited, by simpa using hfit⟩
      | entry h _ => exact absurd h hmore

theorem acpiParseMadt_scans (hs : IsMadt s) (h : Entries s sizeofMadt es) (hn : s.size ≤ n) :
    Scans (fun e => ∃ q ∈ es, Overrun s q e) (acpiParseMadt n (some s)) fun d =>
      d.visited = es ∧ ∀ q ∈ es, q + structSize s q ≤ s.size := by
  have hsize := hs.1
  have hlength := h.length_le
  unfold sizeofMadt at hsize
  have hfirst : madtFirstEntry s =
      .ok (if IsEntry s sizeofMadt then some sizeofMadt else none) := by
    rw [madtFirstEntry, readLe_of_le (by omega), value_bind, hs.2]
    exact checkEntry_eq _
  rw [acpiParseMadt, hfirst, value_bind]
  by_cases hentry : IsEntry s sizeofMadt
  · rw [if_pos hentry]
    exact loop_entries hs h hentry (by omega)
  · rw [if_neg hentry]
    cases h with
    | stop _ => exact ⟨rfl, by simp⟩
    | entry h _ => exact absurd h hentry

/-- The loop ends, the entries it visits follow each other inside the table, and only the
type-specific fields can be read beyond it. They are if an entry whose structure does not fit
into the table is visited. -/
theorem acpi_parse_madt_inside_iff (hs : IsMadt s) (hn : s.size ≤ n) :
    ∃ es, Entries s sizeofMadt es ∧ (∀ e ∈ es, sizeofMadt ≤ e ∧ IsEntry s e) ∧
      (es.Pairwise fun e e' => e + entryLength s e ≤ e') ∧
      Scans (fun e => ∃ q ∈ es, Overrun s q e) (acpiParseMadt n (some s)) (·.visited = es) ∧
      ((∃ d, acpiParseMadt n (some s) = .ok d) ↔ ∀ e ∈ es, e + structSize s e ≤ s.size) := by
  obtain ⟨es, hes⟩ := entries_exist s sizeofMadt
  have hscans := acpiParseMadt_scans hs hes hn
  refine ⟨es, hes, hes.inside, hes.apart, hscans.imp fun d hd => hd.1, ?_, ?_⟩
  · rintro ⟨d, hd⟩
    exact (hscans.value hd).2
  · intro hfits
    cases hrun : acpiParseMadt n (some s) with
    | ok d => exact ⟨d, rfl⟩
    | error e =>
      rw [hrun] at hscans
      obtain ⟨q, hq, i, -, hlo, -, hhi⟩ := hscans
      have hfit := hfits q hq
      omega

def tableOf (entries : List UInt8) : Bytes :=
  .ofList ([0x41, 0x50, 0x49, 0x43, 44 + entries.length.toUInt8, 0, 0, 0] ++
    List.replicate 36 0 ++ entries)

def twoControllers : Bytes :=
  tableOf [0, 8, 7, 3, 1, 0, 0, 0, 1, 12, 2, 0, 0, 0, 0xc0, 0xfe, 0, 0, 0, 0]

theorem two_controllers_inside : IsMadt twoControllers ∧
    ∃ d, acpiParseMadt 64 (some twoControllers) = .ok d ∧ d.visited = [44, 52] ∧
      Entries twoControllers sizeofMadt d.visited := by
  have hs : IsMadt twoControllers := by decide
  obtain ⟨es, hes, -, -, hscans, -⟩ := acpi_parse_madt_inside_iff hs (show _ ≤ 64 by decide)
  obtain ⟨d, hd, hvisited⟩ : ∃ d, acpiParseMadt 64 (some twoControllers) = .ok d ∧
    d.visited = [44, 52] := ⟨_, rfl, rfl⟩
  exact ⟨hs, d, hd, hvisited, (hscans.value hd : d.visited = es) ▸ hes⟩

/-- A local APIC entry that consists of its header, at the end of the table. -/
def shortEntry : Bytes := tableOf [0, 2]

theorem short_entry_overrun : IsMadt shortEntry ∧ shortEntry.size = 46 ∧
    acpiParseMadt 46 (some shortEntry) = .error (.outside 47) :=
  ⟨by decide, rfl, rfl⟩

end AcpiMadt
