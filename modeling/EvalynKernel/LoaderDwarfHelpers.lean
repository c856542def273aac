import EvalynKernel.ByteScanner
import EvalynKernel.MachineWords

/-! # Operands of DWARF data (`loader/dwarf/helpers.h`)

A pointer into a section is an offset, `stop` the `end` of the source. A reader returns the
operand and where the next one begins. An `int64_t` is the word that represents it. -/
namespace LoaderDwarfHelpers

open MachineWords ByteScanner

def uint32Max : ℕ := 0xffffffff

structure Leb where
  p : ℕ
  result : ℕ
  shift : ℕ
  deriving DecidableEq, Repr

def Leb.push (l : Leb) (byte : ℕ) : Leb :=
  ⟨l.p + 1, l.result ||| ((byte &&& 0x7f) <<< l.shift) % word, l.shift + 7⟩

section Readers

variable (s : Bytes) (stop : ℕ)

def lebRound (l : Leb) : Scan (Leb ⊕ Leb) := do
  require (l.p < stop)
  require (l.shift < 64)
  let byte ← read s l.p
  return if byte &&& 0x80 = 0 then .inr (l.push byte) else .inl (l.push byte)

/-- Where `*p` stands after the loop, whether it came to an operand or not. -/
def lebCursor : ℕ → Leb → ℕ
  | 0, l => l.p
  | n + 1, l =>
    match lebRound s stop l with
    | .ok (.inl next) => lebCursor n next
    | .ok (.inr next) => next.p
    | .error _ => l.p

def dwarfReadUlebImpl (p : ℕ) : Scan Leb := loop (lebRound s stop) (stop - p + 1) ⟨p, 0, 0⟩

def dwarfReadUleb (p : ℕ) : Scan (ℕ × ℕ) := do
  let l ← dwarfReadUlebImpl s stop p
  return (l.result, l.p)

def dwarfReadSleb (p : ℕ) : Scan (ℕ × ℕ) := do
  let l ← dwarfReadUlebImpl s stop p
  -- sign extend if needed
  let result :=
    if l.shift < 64 ∧ l.result.testBit (l.shift - 1) then
      l.result ||| ((word - 1) <<< l.shift) % word
    else l.result
  return (result, l.p)

def dwarfReadBytes (p bytes : ℕ) : Scan (ℕ × ℕ) := do
  require (bytes ≤ wsub stop p)
  let out ← readLe s p bytes
  return (out, p + bytes)

end Readers

section Bounds

variable {s : Bytes} {stop p : ℕ}

def Advances (p stop : ℕ) (r : ℕ × ℕ) : Prop := p < r.2 ∧ r.2 ≤ stop

theorem lebRound_sound (hstop : stop ≤ s.size) (l : Leb) :
    Sound (lebRound s stop l) fun r => ∃ next, (r = .inl next ∨ r = .inr next) ∧
      next.p = l.p + 1 ∧ next.p ≤ stop := by
  refine (require_sound _).bind fun _ hp => (require_sound _).bind fun _ _ => ?_
  rw [read_of_lt (by omega), value_bind]
  refine ⟨l.push (s.byte l.p).toNat, ?_, rfl, hp⟩
  split
  · exact Or.inr rfl
  · exact Or.inl rfl

theorem lebCursor_le (hstop : stop ≤ s.size) (hl : l.p ≤ stop) : lebCursor s stop n l ≤ stop := by
  induction n generalizing l with
  | zero => exact hl
  | succ n ih =>
    have hround := lebRound_sound hstop l
    rw [lebCursor]
    cases hr : lebRound s stop l with
    | error e => exact hl
    | ok r =>
      obtain ⟨next, hnext, -, hle⟩ := hround.value hr
      rcases hnext with rfl | rfl
      · exact ih hle
      · exact hle

theorem lebCursor_of_ok (h : loop (lebRound s stop) n l = .ok l') :
    lebCursor s stop n l = l'.p := by
  induction n generalizing l with
  | zero => cases h
  | succ n ih =>
    rw [loop] at h
    rw [lebCursor]
    cases hr : lebRound s stop l with
    | error e =>
      rw [hr] at h
      cases h
    | ok r =>
      rw [hr] at h
      cases r with
      | inl next => exact ih h
      | inr next =>
        cases h
        rfl

section

variable (hstop : stop ≤ s.size)
include hstop

theorem dwarfReadUlebImpl_sound :
    Sound (dwarfReadUlebImpl s stop p) fun l => p < l.p ∧ l.p ≤ stop := by
  refine loop_ends (I := fun l => p ≤ l.p) (m := fun l => stop - l.p) (fun l hl => ?_)
    (Nat.le_refl p) (Nat.lt_succ_self _)
  refine (lebRound_sound hstop l).imp fun r hr => ?_
  obtain ⟨next, hnext, hp, hle⟩ := hr
  rcases hnext with rfl | rfl
  · exact ⟨by omega, by show stop - next.p < stop - l.p; omega⟩
  · exact ⟨by omega, hle⟩

theorem dwarfReadUleb_sound : Sound (dwarfReadUleb s stop p) (Advances p stop) :=
  (dwarfReadUlebImpl_sound hstop).bind fun _ hl => hl

theorem dwarfReadSleb_sound : Sound (dwarfReadSleb s stop p) (Advances p stop) :=
  (dwarfReadUlebImpl_sound hstop).bind fun _ hl => hl

theorem dwarfReadBytes_sound (hsize : s.size < word) (hp : p ≤ stop) :
    Sound (dwarfReadBytes s stop p bytes) fun r => r.2 = p + bytes ∧ r.2 ≤ stop := by
  refine (require_sound _).bind fun _ h => ?_
  rw [wsub_of_le hp (by omega)] at h
  rw [readLe_of_le (by omega), value_bind]
  exact ⟨rfl, by show p + bytes ≤ stop; omega⟩

end

end Bounds

end LoaderDwarfHelpers
