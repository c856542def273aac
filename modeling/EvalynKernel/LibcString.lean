import Mathlib.Algebra.BigOperators.Group.Finset.Basic
import Mathlib.Tactic.IntervalCases
import EvalynKernel.MachineWords

/-! # Copying and filling memory (`libc/string.c`)

`memcpy` and `memset` go through the same phases, at an offset `k` from the destination. The
bytes done are always those below the offset, whichever phase has written them. -/
namespace LibcString

open Function MachineWords

abbrev Mem := ℕ → UInt8

/-- A `size_t` in memory, little endian. -/
def loadWord (mem : Mem) (a : ℕ) : ℕ := ∑ i ∈ Finset.range 8, (mem (a + i)).toNat * 256 ^ i

def storeWord (mem : Mem) (a w : ℕ) : Mem := fun b =>
  if a ≤ b ∧ b < a + 8 then UInt8.ofNat (w / 256 ^ (b - a)) else mem b

/-- `(unsigned char)c`. -/
def lowByte (c : ℤ) : UInt8 := UInt8.ofNat (c % 256).toNat

def pattern (c : ℤ) : ℕ := (lowByte c).toNat * ((word - 1) / 0xff) % word

/-- How one byte and one word are written at an offset. -/
structure Writer where
  byte : Mem → ℕ → Mem
  word : Mem → ℕ → Mem

namespace Writer

variable (w : Writer)

/-- The loops over single bytes, and what `rep movsb` and `rep stosb` do. -/
def byteLoop : ℕ → Mem → ℕ → Mem
  | 0, mem, _ => mem
  | n + 1, mem, k => byteLoop n (w.byte mem k) (k + 1)

/-- The loop that aligns the destination. It has no result if `n` underflows. -/
def alignLoop (dest : ℕ) : ℕ → Mem → ℕ → Option (Mem × ℕ × ℕ)
  | n, mem, k =>
    if (dest + k) % 8 = 0 then some (mem, k, n) else
      match n with
      | 0 => none
      | n + 1 => alignLoop dest n (w.byte mem k) (k + 1)

/-- The loops over words, `u + 1` of them in a turn. -/
def wordLoop (u : ℕ) (mem : Mem) (k n : ℕ) : Mem × ℕ × ℕ :=
  if 8 * (u + 1) ≤ n then
    wordLoop u ((List.range (u + 1)).foldl (fun mem i => w.word mem (k + 8 * i)) mem)
      (k + 8 * (u + 1)) (n - 8 * (u + 1))
  else (mem, k, n)
  termination_by n

def phases (dest n : ℕ) (mem : Mem) : Option Mem := do
  let (mem, k, n) ← w.alignLoop dest n mem 0
  let (mem, k, n) := w.wordLoop 7 mem k n
  let (mem, k, n) := w.wordLoop 0 mem k n
  return w.byteLoop n mem k

end Writer

def copier (dest src : ℕ) : Writer where
  byte mem k := update mem (dest + k) (mem (src + k))
  word mem k := storeWord mem (dest + k) (loadWord mem (src + k))

def filler (dest : ℕ) (c : ℤ) : Writer where
  byte mem k := update mem (dest + k) (lowByte c)
  word mem k := storeWord mem (dest + k) (pattern c)

def memcpy (x86 : Bool) (mem : Mem) (dest src n : ℕ) : Option (ℕ × Mem) :=
  let w := copier dest src
  if x86 = true ∧ 2048 ≤ n then some (dest, w.byteLoop n mem 0)
  else if n < 8 then some (dest, w.byteLoop n mem 0)
  else if dest % 8 = src % 8 then do return (dest, ← w.phases dest n mem)
  else some (dest, w.byteLoop n mem 0)

def memset (x86 : Bool) (mem : Mem) (dest : ℕ) (c : ℤ) (n : ℕ) : Option (ℕ × Mem) :=
  let w := filler dest c
  if x86 = true ∧ 2048 ≤ n then some (dest, w.byteLoop n mem 0)
  else if n < 8 then some (dest, w.byteLoop n mem 0)
  else do return (dest, ← w.phases dest n mem)

variable {w : Writer} {mem : Mem} {dest src n k : ℕ} {f : ℕ → UInt8} {c : ℤ}

/-- Memory whose first `k` bytes from `dest` on are those of `f`. -/
def filled (mem : Mem) (dest : ℕ) (f : ℕ → UInt8) (k : ℕ) : Mem := fun a =>
  if dest ≤ a ∧ a < dest + k then f (a - dest) else mem a

/-- Both ways of writing carry on from the bytes that are done. -/
structure Writes (w : Writer) (mem : Mem) (dest : ℕ) (f : ℕ → UInt8) (n : ℕ) : Prop where
  byte : ∀ k, k + 1 ≤ n → w.byte (filled mem dest f k) k = filled mem dest f (k + 1)
  word : ∀ k, k + 8 ≤ n → w.word (filled mem dest f k) k = filled mem dest f (k + 8)

theorem filled_zero : filled mem dest f 0 = mem := by
  funext a
  exact if_neg (by omega)

section Phases

variable {m : ℕ} (h : Writes w mem dest f n)

include h

theorem byteLoop_eq (hm : k + m ≤ n) :
    w.byteLoop m (filled mem dest f k) k = filled mem dest f (k + m) := by
  induction m generalizing k with
  | zero => rfl
  | succ m ih =>
    rw [Writer.byteLoop, h.byte k (by omega), ih (by omega)]
    congr 1
    omega

theorem alignLoop_eq (hm : k + m ≤ n) (hroom : (dest + k) % 8 = 0 ∨ 8 ≤ (dest + k) % 8 + m) :
    ∃ j, w.alignLoop dest m (filled mem dest f k) k =
      some (filled mem dest f (k + j), k + j, m - j) ∧ j ≤ m := by
  induction m generalizing k with
  | zero =>
    rw [Writer.alignLoop, if_pos (by omega)]
    exact ⟨0, rfl, Nat.le_refl 0⟩
  | succ m ih =>
    rw [Writer.alignLoop]
    split
    · exact ⟨0, rfl, Nat.zero_le _⟩
    · rw [h.byte k (by omega)]
      obtain ⟨j, hj, hle⟩ := ih (k := k + 1) (by omega) (by omega)
      refine ⟨j + 1, hj.trans ?_, by omega⟩
      rw [Nat.add_right_comm, Nat.add_assoc, Nat.add_sub_add_right]

theorem words_eq (hm : k + 8 * m ≤ n) :
    (List.range m).foldl (fun mem i => w.word mem (k + 8 * i)) (filled mem dest f k) =
      filled mem dest f (k + 8 * m) := by
  induction m with
  | zero => rfl
  | succ m ih =>
    rw [List.range_succ, List.foldl_append, ih (by omega)]
    exact h.word _ (by omega)

theorem wordLoop_eq (u : ℕ) (hm : k + m ≤ n) :
    ∃ j, w.wordLoop u (filled mem dest f k) k m = (filled mem dest f (k + j), k + j, m - j) ∧
      j ≤ m := by
  induction m using Nat.strong_induction_on generalizing k with
  | h m ih =>
    rw [Writer.wordLoop]
    split
    · rw [words_eq h (by omega)]
      obtain ⟨j, hj, hle⟩ := ih (m - 8 * (u + 1)) (by omega) (k := k + 8 * (u + 1)) (by omega)
      refine ⟨8 * (u + 1) + j, hj.trans ?_, by omega⟩
      rw [Nat.add_assoc, Nat.sub_sub]
    · exact ⟨0, rfl, Nat.zero_le _⟩

theorem phases_eq (hn : 8 ≤ n) : w.phases dest n mem = some (filled mem dest f n) := by
  obtain ⟨i, hi, hin⟩ := alignLoop_eq h (k := 0) (m := n) (by omega) (by omega)
  obtain ⟨j, hj, hjn⟩ := wordLoop_eq h (k := 0 + i) (m := n - i) 7 (by omega)
  obtain ⟨l, hl, hln⟩ := wordLoop_eq h (k := 0 + i + j) (m := n - i - j) 0 (by omega)
  rw [filled_zero] at hi
  simp only [Writer.phases, hi, Option.bind_eq_bind, Option.bind_some, hj, hl]
  rw [byteLoop_eq h (by omega), show 0 + i + j + l + (n - i - j - l) = n by omega]
  rfl

theorem bytes_eq : w.byteLoop n mem 0 = filled mem dest f n := by
  have hall := byteLoop_eq h (k := 0) (m := n) (by omega)
  rwa [filled_zero, Nat.zero_add] at hall

end Phases

theorem storeWord_filled (hx : ∀ i < 8, UInt8.ofNat (x / 256 ^ i) = f (k + i)) :
    storeWord (filled mem dest f k) (dest + k) x = filled mem dest f (k + 8) := by
  funext a
  unfold storeWord filled
  by_cases hin : dest + k ≤ a ∧ a < dest + k + 8
  · rw [if_pos hin, if_pos (by omega), hx _ (by omega)]
    congr 1
    omega
  · rw [if_neg hin]
    split <;> split <;> first | rfl | omega

theorem update_filled (hb : b = f k) :
    update (filled mem dest f k) (dest + k) b = filled mem dest f (k + 1) := by
  funext a
  by_cases ha : a = dest + k
  · subst ha
    rw [update_self, hb, filled, if_pos (by omega), Nat.add_sub_cancel_left]
  · rw [update_of_ne ha]
    unfold filled
    split <;> split <;> first | rfl | omega

theorem loadWord_byte (a : ℕ) (hi : i < 8) :
    UInt8.ofNat (loadWord mem a / 256 ^ i) = mem (a + i) := by
  have hlt : ∀ j, (mem (a + j)).toNat < 256 := fun j => (mem (a + j)).toNat_lt
  have h0 := hlt 0
  have h1 := hlt 1
  have h2 := hlt 2
  have h3 := hlt 3
  have h4 := hlt 4
  have h5 := hlt 5
  have h6 := hlt 6
  have h7 := hlt 7
  apply UInt8.toNat_inj.mp
  rw [UInt8.toNat_ofNat']
  simp only [loadWord, Finset.sum_range_succ, Finset.sum_range_zero]
  interval_cases i <;> omega

theorem pattern_byte (hi : i < 8) : UInt8.ofNat (pattern c / 256 ^ i) = lowByte c := by
  have hall : ∀ b < 2 ^ 8, ∀ i < 8, b * ((word - 1) / 0xff) % word / 256 ^ i % 2 ^ 8 = b := by
    decide +kernel
  apply UInt8.toNat_inj.mp
  rw [UInt8.toNat_ofNat']
  exact hall _ (lowByte c).toNat_lt i hi

theorem copier_writes (mem : Mem) (hapart : dest + n ≤ src ∨ src + n ≤ dest) :
    Writes (copier dest src) mem dest (fun i => mem (src + i)) n := by
  -- the bytes read are not among those written so far
  have hsource : ∀ k i, k + i < n →
      filled mem dest (fun i => mem (src + i)) k (src + k + i) = mem (src + (k + i)) := by
    intro k i hi
    rw [filled, if_neg (by omega), Nat.add_assoc]
  constructor
  · intro k hk
    exact update_filled (hsource k 0 (by omega))
  · intro k hk
    apply storeWord_filled
    intro i hi
    rw [loadWord_byte _ hi]
    exact hsource k i (by omega)

theorem filler_writes (mem : Mem) (dest : ℕ) (c : ℤ) (n : ℕ) :
    Writes (filler dest c) mem dest (fun _ => lowByte c) n := by
  constructor
  · intro k _
    exact update_filled rfl
  · intro k _
    exact storeWord_filled fun i hi => pattern_byte hi

/-- Both functions leave what a byte-wise copy or fill leaves, and `n` does not underflow. -/
theorem memcpy_memset_bytewise (x86 : Bool) (mem : Mem) (dest src n : ℕ) (c : ℤ) :
    (dest + n ≤ src ∨ src + n ≤ dest → memcpy x86 mem dest src n =
      some (dest, fun a => if dest ≤ a ∧ a < dest + n then mem (src + (a - dest)) else mem a)) ∧
    memset x86 mem dest c n =
      some (dest, fun a => if dest ≤ a ∧ a < dest + n then lowByte c else mem a) := by
  constructor
  · intro hapart
    have h := copier_writes mem hapart
    simp only [memcpy, bytes_eq h]
    split
    · rfl
    split
    · rfl
    split
    · rw [phases_eq h (by omega)]
      rfl
    · rfl
  · have h := filler_writes mem dest c n
    simp only [memset, bytes_eq h]
    split
    · rfl
    split
    · rfl
    rw [phases_eq h (by omega)]
    rfl

/-- Copying and filling 21 bytes at addresses that are not aligned. -/
theorem unaligned_bytewise : memcpy false (fun a => UInt8.ofNat a) 3 43 21 =
      some (3, fun a => if 3 ≤ a ∧ a < 3 + 21 then UInt8.ofNat (43 + (a - 3)) else UInt8.ofNat a) ∧
    memset false (fun a => UInt8.ofNat a) 3 (-1) 21 =
      some (3, fun a => if 3 ≤ a ∧ a < 3 + 21 then lowByte (-1) else UInt8.ofNat a) := by
  obtain ⟨hcopy, hfill⟩ := memcpy_memset_bytewise false (fun a => UInt8.ofNat a) 3 43 21 (-1)
  exact ⟨hcopy (by decide), hfill⟩

end LibcString
