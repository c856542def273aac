import EvalynKernel.LoaderDwarfHelpers

/-! # Frame entries (`loader/dwarf/fde.c`)

The section is a byte string and a pointer into it an offset. `return false`, a null packet
and the end of the search are rejections. -/
namespace LoaderDwarfFde

open MachineWords ByteScanner LoaderDwarfHelpers

structure Cie where
  valid : Bool
  isSignalFrame : Bool
  offset : ℕ
  codeAlign : ℕ
  dataAlign : ℕ
  raCol : ℕ
  addrSize : ℕ
  segSize : ℕ
  opcodesStart : ℕ
  opcodesEnd : ℕ
  deriving DecidableEq, Repr

structure Fde where
  initialLocation : ℕ
  opcodesStart : ℕ
  opcodesEnd : ℕ
  deriving DecidableEq, Repr

section Search

variable (s : Bytes)

def dwarfGetCie (ciePointer : ℕ) : Scan ℕ := do
  require (ciePointer + 8 ≤ s.size)
  let id ← readLe s (ciePointer + 4) 4
  require (id = uint32Max)
  let length ← readLe s ciePointer 4
  require (ciePointer + 4 + length ≤ s.size)
  return ciePointer

/-- The single `S` that the augmentation of a signal frame has. -/
def signalFrame (stop p : ℕ) : Scan (Bool × ℕ) :=
  if p < stop then do
    let byte ← read s p
    return if byte = 0x53 then (true, p + 1) else (false, p)
  else return (false, p)

def dwarfDecodeCie (cie : ℕ) (out : Cie) : Scan Cie := do
  let length ← readLe s cie 4
  require (5 ≤ length)
  let version ← read s (cie + 8)
  require (version = 4)
  let stop := cie + 4 + length
  let (isSignalFrame, p) ← signalFrame s stop (cie + 9)
  require (p < stop)
  let byte ← read s p
  require (byte = 0)
  require (p + 1 + 2 ≤ stop)
  let addrSize ← read s (p + 1)
  let segSize ← read s (p + 2)
  require (addrSize ≠ 0 ∧ addrSize ≤ 8)
  let (codeAlign, p) ← dwarfReadUleb s stop (p + 3)
  let (dataAlign, p) ← dwarfReadSleb s stop p
  let (raCol, p) ← dwarfReadUleb s stop p
  require (codeAlign ≠ 0)
  return { out with valid := true, isSignalFrame, codeAlign, dataAlign, raCol, addrSize, segSize,
                    opcodesStart := p, opcodesEnd := stop }

/-- The entry's CIE: the one decoded last, if it is the same. -/
def cieFor (id : ℕ) (cie : Cie) : Scan Cie :=
  if ¬ cie.valid ∨ cie.offset ≠ id then do
    let packet ← dwarfGetCie s id
    let cie ← dwarfDecodeCie s packet cie
    return { cie with offset := id }
  else return cie

variable (pc : ℕ)

def fdeRound (st : ℕ × Cie) : Scan ((ℕ × Cie) ⊕ (Fde × Cie)) :=
  let (p, cie) := st
  if p + 8 ≤ s.size then do
    let length ← readLe s p 4
    let id ← readLe s (p + 4) 4
    -- DWARF64 isn't handled
    require (length ≠ uint32Max)
    require (4 ≤ length)
    require (length ≤ wsub s.size p - 4)
    let entryEnd := p + 4 + length
    if id ≠ uint32Max then
      let cie ← cieFor s id cie
      require (4 + cie.segSize + 2 * cie.addrSize ≤ length)
      let cursor := p + 8 + cie.segSize
      let initialLocation ← readLe s cursor cie.addrSize
      let addressRange ← readLe s (cursor + cie.addrSize) cie.addrSize
      if initialLocation ≤ pc ∧ initialLocation ≠ 0 ∧ pc - initialLocation < addressRange then
        return .inr (⟨initialLocation, cursor + 2 * cie.addrSize, entryEnd⟩, cie)
      return .inl (entryEnd, cie)
    return .inl (entryEnd, cie)
  else .error .reject

def dwarfGetFde (cie : Cie) : Scan (Fde × Cie) :=
  loop (fdeRound s pc) (s.size + 1) (0, { cie with valid := false })

end Search

section Bounds

variable {s : Bytes}

/-- A decoded CIE has its opcodes inside the section. -/
def Cie.Within (s : Bytes) (cie : Cie) : Prop := cie.opcodesEnd ≤ s.size

theorem dwarfGetCie_sound (ciePointer : ℕ) :
    Sound (dwarfGetCie s ciePointer) fun cie =>
      cie + 8 ≤ s.size ∧ cie + 4 + leValue s cie 4 ≤ s.size := by
  refine (require_sound _).bind fun _ hroom => ?_
  rw [readLe_of_le (by omega), value_bind]
  refine (require_sound _).bind fun _ _ => ?_
  rw [readLe_of_le (by omega), value_bind]
  exact (require_sound _).bind fun _ hlen => ⟨hroom, hlen⟩

theorem signalFrame_returns (hstop : stop ≤ s.size) :
    Returns (signalFrame s stop p) fun r => p ≤ r.2 := by
  unfold signalFrame
  split
  · rw [read_of_lt (by omega), value_bind]
    split
    · exact Nat.le_succ p
    · exact Nat.le_refl p
  · exact Nat.le_refl p

theorem dwarfDecodeCie_opcodes (out : Cie) (hroom : cie + 8 ≤ s.size)
    (hlen : cie + 4 + leValue s cie 4 ≤ s.size) :
    Sound (dwarfDecodeCie s cie out) fun r =>
      cie + 8 < r.opcodesStart ∧ r.opcodesEnd = cie + 4 + leValue s cie 4 := by
  unfold dwarfDecodeCie
  rw [readLe_of_le (by omega), value_bind]
  refine (require_sound _).bind fun _ h5 => ?_
  rw [read_of_lt (by omega), value_bind]
  refine (require_sound _).bind fun _ _ => ?_
  refine (signalFrame_returns hlen).bind fun ⟨_, p⟩ hp => ?_
  refine (require_sound _).bind fun _ hlt => ?_
  rw [read_of_lt (by omega), value_bind]
  refine (require_sound _).bind fun _ _ => (require_sound _).bind fun _ htwo => ?_
  rw [read_of_lt (by omega), value_bind, read_of_lt (by omega), value_bind]
  refine (require_sound _).bind fun _ _ => ?_
  refine (dwarfReadUleb_sound hlen).bind fun _ hcode => ?_
  refine (dwarfReadSleb_sound hlen).bind fun _ hdata => ?_
  refine (dwarfReadUleb_sound hlen).bind fun ra hra => ?_
  have hafter := hcode.1.trans (hdata.1.trans hra.1)
  have hstart : cie + 8 < ra.2 := by omega
  exact (require_sound _).bind fun _ _ => ⟨hstart, rfl⟩

theorem dwarfDecodeCie_sound (out : Cie) (hroom : cie + 8 ≤ s.size)
    (hlen : cie + 4 + leValue s cie 4 ≤ s.size) : Sound (dwarfDecodeCie s cie out) (Cie.Within s) :=
  (dwarfDecodeCie_opcodes out hroom hlen).imp fun _ hr => hr.2.trans_le hlen

theorem cieFor_sound (id : ℕ) (h : cie.valid = true → cie.Within s) :
    Sound (cieFor s id cie) (Cie.Within s) := by
  unfold cieFor
  split
  · refine (dwarfGetCie_sound id).bind fun packet hpacket => ?_
    exact (dwarfDecodeCie_sound cie hpacket.1 hpacket.2).bind fun _ hcie => hcie
  · rename_i hkeep
    refine h ?_
    simp only [not_or, not_not] at hkeep
    exact hkeep.1

/-- The entry that was found and its CIE have their opcodes inside the section. -/
def Found (s : Bytes) (r : Fde × Cie) : Prop := r.1.opcodesEnd ≤ s.size ∧ r.2.Within s

theorem fdeRound_sound (hsize : s.size < word) (pc : ℕ) (st : ℕ × Cie)
    (h : st.2.valid = true → st.2.Within s) :
    Sound (fdeRound s pc st) (Progress (fun st => st.2.valid = true → st.2.Within s)
      (fun st => s.size - st.1) (Found s) st) := by
  obtain ⟨p, cie⟩ := st
  unfold fdeRound
  simp only
  split
  · rename_i hroom
    rw [readLe_of_le (by omega), value_bind, readLe_of_le (by omega), value_bind]
    refine (require_sound _).bind fun _ _ => (require_sound _).bind fun _ h4 => ?_
    refine (require_sound _).bind fun _ hlen => ?_
    rw [wsub_of_le (by omega) hsize] at hlen
    have hnext : ∀ next : Cie, (next.valid = true → next.Within s) →
        Progress (fun st : ℕ × Cie => st.2.valid = true → st.2.Within s)
          (fun st => s.size - st.1) (Found s) (p, cie) (.inl (p + 4 + leValue s p 4, next)) :=
      fun next hnext => ⟨hnext, by show s.size - (p + 4 + leValue s p 4) < s.size - p; omega⟩
    split
    · refine (cieFor_sound _ h).bind fun next hcie => ?_
      refine (require_sound _).bind fun _ hfields => ?_
      rw [readLe_of_le (by omega), value_bind, readLe_of_le (by omega), value_bind]
      split
      · exact ⟨by show p + 4 + leValue s p 4 ≤ s.size; omega, hcie⟩
      · exact hnext next fun _ => hcie
    · exact hnext cie h
  · exact Sound.reject

theorem dwarfGetFde_sound (hsize : s.size < word) (pc : ℕ) (cie : Cie) :
    Sound (dwarfGetFde s pc cie) (Found s) :=
  loop_ends (fun st h => fdeRound_sound hsize pc st h) (by intro h; cases h)
    (Nat.lt_succ_self _)

end Bounds

end LoaderDwarfFde
