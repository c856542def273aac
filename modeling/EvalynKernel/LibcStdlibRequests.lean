import EvalynKernel.LibcStdlibRuns

/-! # Heap requests of any size

The header and the slack for the alignment are added to the size in 64 bits, and the order is
found by rounding up in 64 bits. A request is served or refused as long as the true sum is at
most the largest block, or wraps to zero exactly. Every other one asks `buddy_allocate` for an
order it does not have, or takes a place that is too small. -/
namespace LibcStdlibRequests

open MachineWords DyadicBlocks MemBuddyAllocator MemSpalloc MemSpallocInvariant
open LibcStdlib LibcStdlibPlaces LibcStdlibRuns

inductive Request where
  | kmalloc
  | malloc
  | mallocAligned (align : ℕ)
  deriving DecidableEq, Repr

namespace Request

/-- The bytes that the header and the alignment need. -/
def extra : Request → ℕ
  | .kmalloc => 0
  | .malloc => mallocHeaderSize
  | .mallocAligned align => mallocHeaderSize + max 16 align - 1

def total (r : Request) (size : ℕ) : ℕ := size + r.extra

def passed (r : Request) (size : ℕ) : ℕ := r.total size % word

def call (shift hhdm : ℕ) (h : Heap) (size : ℕ) : Request → Exec (ℕ × Heap)
  | .kmalloc => LibcStdlib.kmalloc shift hhdm h size
  | .malloc => LibcStdlib.malloc shift hhdm h size
  | .mallocAligned align => LibcStdlib.mallocAligned shift hhdm h size align

def finish (size : ℕ) (raw : ℕ) (h : Heap) : Request → ℕ × Heap
  | .kmalloc => (raw, h)
  | .malloc => if raw = 0 then (0, h) else
      (wadd raw mallocHeaderSize, setBlock h raw ⟨magic, 0, passed .malloc size⟩)
  | .mallocAligned align => if raw = 0 then (0, h) else
      let ptr := alignUp (wadd raw mallocHeaderSize) (max 16 align)
      let hdr := wsub ptr mallocHeaderSize
      (ptr, setBlock h hdr ⟨magic, wsub hdr raw % 2 ^ 32, passed (.mallocAligned align) size⟩)

/-- The alignment is a power of two that fits into 64 bits. -/
def Admissible : Request → Prop
  | .kmalloc => True
  | .malloc => True
  | .mallocAligned align => ∃ j < 64, align = 2 ^ j

variable {r : Request} {shift hhdm size : ℕ} {h : Heap}

theorem extra_le (hr : r.Admissible) : r.extra ≤ 2 ^ 63 + 15 := by
  cases r with
  | kmalloc => exact Nat.zero_le _
  | malloc => decide
  | mallocAligned align =>
    obtain ⟨j, hj, rfl⟩ := hr
    have hle : 2 ^ j ≤ 2 ^ 63 := Nat.pow_le_pow_right (by norm_num) (by omega)
    simp only [extra, mallocHeaderSize]
    omega

theorem call_zero (r : Request) : r.call shift hhdm h 0 = .ok (0, h) := by
  cases r <;> rfl

theorem call_eq (hr : r.Admissible) (h0 : size ≠ 0) (hsize : size < word) :
    r.call shift hhdm h size = do
      let (raw, h) ← LibcStdlib.kmalloc shift hhdm h (r.passed size)
      return r.finish size raw h := by
  cases r with
  | kmalloc =>
    have hpassed : passed .kmalloc size = size := Nat.mod_eq_of_lt hsize
    rw [hpassed, call]
    cases LibcStdlib.kmalloc shift hhdm h size <;> rfl
  | malloc =>
    have hpassed : passed .malloc size = wadd size mallocHeaderSize := rfl
    simp only [call, LibcStdlib.malloc, if_neg h0, finish, hpassed]
    refine bind_congr fun x => ?_
    split <;> rfl
  | mallocAligned align =>
    obtain ⟨j, hj, hpow⟩ := hr
    have halign : (if align < 16 then 16 else align) = max 16 align := by
      split <;> omega
    obtain ⟨i, -, hmax⟩ := max_align_pow ⟨j, hpow⟩
    have hpow2 : isPow2ull (max 16 align) = true := isPow2ull_iff.2 ⟨i, hmax⟩
    have hpassed : wsub (wadd (wadd size mallocHeaderSize) (max 16 align)) 1 =
        passed (.mallocAligned align) size := by
      have hword := word_eq
      simp only [passed, total, extra, wsub, wadd, mallocHeaderSize, hword]
      omega
    rw [call]
    unfold LibcStdlib.mallocAligned
    rw [if_neg h0]
    simp only [halign, hpow2, kassert_true, ok_bind, hpassed]
    refine bind_congr fun x => ?_
    rw [finish]
    by_cases hraw : x.1 = 0
    · rw [if_pos hraw, if_pos hraw]
    · rw [if_neg hraw, if_neg hraw]

end Request

variable {shift hhdm size : ℕ} {a : ℕ → Allocator} {R H : Set Block} {s : Heap} {live : List Chunk}
  {r : Request}

section Oversized

theorem placeOf_len_le (hs : 12 ≤ shift) (h0 : n ≠ 0)
    (horder : maxClass shift < n → sizeOrder shift n ≤ maxOrder) (base : ℕ) :
    (placeOf shift n base).len shift ≤ maxSize shift := by
  unfold placeOf maxSize
  split
  · next hsmall =>
    rw [maxClass_eq] at hsmall
    obtain ⟨hge, -, hleast⟩ := sizeClass_spec h0
    have hle := hleast (shift - 2) (by unfold minShift; omega) hsmall
    exact Nat.pow_le_pow_right (by norm_num) (by omega)
  · next hlarge =>
    exact Nat.pow_le_pow_right (by norm_num) (by omega)

theorem oversized (hd : DirectMap shift hhdm R) (hr : r.Admissible)
    (hbig : maxSize shift < r.total size) (hne : r.passed size ≠ 0) :
    maxClass shift < r.passed size ∧ maxOrder < sizeOrder shift (r.passed size) ∨
      (maxClass shift < r.passed size → sizeOrder shift (r.passed size) ≤ maxOrder) ∧
        ∀ base, (placeOf shift (r.passed size) base).len shift < size := by
  have hs := hd.shift_le
  have hword := word_eq
  have hextra := Request.extra_le hr
  have hmax : maxSize shift ≤ 2 ^ 30 :=
    Nat.pow_le_pow_right (by norm_num) (by unfold maxOrder; omega)
  have hpage : 2 ^ shift ≤ 2 ^ 16 := Nat.pow_le_pow_right (by norm_num) hs
  have hclass : maxClass shift ≤ maxSize shift := by
    rw [maxClass_eq, maxSize]
    exact Nat.pow_le_pow_right (by norm_num) (by omega)
  have htotal : r.total size = size + r.extra := rfl
  have hlt : r.passed size < word := Nat.mod_lt _ (by norm_num)
  have hle : r.passed size ≤ r.total size := Nat.mod_le _ _
  have hsmall : ∀ (_ : maxClass shift < r.passed size → sizeOrder shift (r.passed size) ≤ maxOrder)
      (_ : maxSize shift < size) (base : ℕ),
      (placeOf shift (r.passed size) base).len shift < size := fun horder hsize base =>
    lt_of_le_of_lt (placeOf_len_le hd.shift_ge hne horder base) hsize
  by_cases hn : r.passed size ≤ maxSize shift
  · -- the sum has wrapped
    have hwrap : word ≤ r.total size := by
      by_contra hfit
      have heq : r.passed size = r.total size := Nat.mod_eq_of_lt (not_le.1 hfit)
      omega
    have horder : maxClass shift < r.passed size → sizeOrder shift (r.passed size) ≤ maxOrder :=
      fun _ => (sizeOrder_spec hs hn).2 hn
    exact .inr ⟨horder, hsmall horder (by omega)⟩
  · by_cases hfit : r.passed size + 2 ^ shift ≤ word
    · refine .inl ⟨by omega, ?_⟩
      by_contra hle'
      exact hn ((sizeOrder_le_iff hs hfit).1 (not_lt.1 hle'))
    · -- rounding up to pages wraps
      have horder : maxClass shift < r.passed size →
          sizeOrder shift (r.passed size) ≤ maxOrder := by
        intro _
        rw [sizeOrder_wrapped hs hlt (by omega)]
        exact Nat.zero_le _
      exact .inr ⟨horder, hsmall horder (by omega)⟩

theorem takes_finish (ht : Takes x s h') : Takes x s (r.finish size raw h').2 := by
  have hblock : ∀ hdr b, Takes x s (setBlock h' hdr b) := fun hdr b =>
    ⟨ht.fresh, fun y => (holds_setBlock hdr b y).trans (ht.holds y)⟩
  cases r with
  | kmalloc => exact ht
  | malloc | mallocAligned align =>
    rw [Request.finish]
    split
    · exact ht
    · exact hblock _ _

end Oversized

section Requests

/-- A live block that holds the bytes asked for: with its header it lies in the place that
`kmalloc` took, apart from the other live blocks. -/
structure Usable (shift size ptr : ℕ) (live : List Chunk) (k : Chunk) : Prop where
  ptr_eq : k.ptr = ptr
  size_eq : k.size = size
  start : k.base + (if k.headed then mallocHeaderSize else 0) ≤ k.ptr
  fits : k.ptr + k.size ≤ k.base + k.total
  place : (k.place shift).start = k.base ∧ k.total ≤ (k.place shift).len shift
  apart : ∀ l ∈ live, k.base + k.total ≤ l.base ∨ l.base + l.total ≤ k.base

theorem usable_of_run (hd : DirectMap shift hhdm R) (h : Run shift hhdm R s (k :: live) H) :
    Usable shift k.size k.ptr live k := by
  have hm := run_machine hd h
  obtain ⟨a, hf, hi⟩ := run_live hd h
  have hsound := hi.sound k List.mem_cons_self
  exact ⟨rfl, rfl, hsound.start, hsound.fits, hsound.inside hm.shift_le,
    (List.pairwise_cons.1 (hi.pairwise hm.shift_le hf)).1⟩

def Served (shift hhdm : ℕ) (R H : Set Block) (s : Heap) (live : List Chunk) (r : Request)
    (size : ℕ) : Prop :=
  Ensures (· = outOfMemory) (r.call shift hhdm s size) fun out => out = (0, s) ∨
    ∃ k, Run shift hhdm R out.2 (k :: live) H ∧ Usable shift size out.1 live k

theorem served (hd : DirectMap shift hhdm R) (h : Run shift hhdm R s live H) (hr : r.Admissible)
    (h0 : size ≠ 0) (hle : r.total size ≤ maxSize shift) :
    Served shift hhdm R H s live r size := by
  have hm := run_machine hd h
  obtain ⟨a, hf, hi⟩ := run_live hd h
  cases r with
  | kmalloc =>
    refine (kmalloc_fresh hm hf hi h0 hle).imp_ok fun out hok _ => .inr ?_
    exact ⟨_, h.kmalloc h0 hle hok, usable_of_run hd (h.kmalloc h0 hle hok)⟩
  | malloc =>
    refine (malloc_spec hm hf hi h0 hle).imp_ok fun out hok hout => .inr ?_
    obtain ⟨base, h₁, hk, -⟩ := hout
    exact ⟨_, h.malloc h0 hle hk hok, usable_of_run hd (h.malloc h0 hle hk hok)⟩
  | mallocAligned align =>
    obtain ⟨j, -, hpow⟩ := hr
    have htotal : alignedTotal size align = Request.total (.mallocAligned align) size := by
      simp only [alignedTotal, Request.total, Request.extra, mallocHeaderSize]
      omega
    rw [← htotal] at hle
    refine (mallocAligned_spec hm hf hi h0 ⟨j, hpow⟩ hle).imp_ok fun out hok hout => .inr ?_
    obtain ⟨base, h₁, hk, -⟩ := hout
    have hrun := h.mallocAligned h0 ⟨j, hpow⟩ hle hk hok
    exact ⟨_, hrun, usable_of_run hd hrun⟩

theorem refused (hr : r.Admissible) (h0 : size ≠ 0) (hsize : size < word)
    (hzero : r.passed size = 0) : r.call shift hhdm s size = .ok (0, s) := by
  rw [Request.call_eq hr h0 hsize, hzero]
  cases r with
  | kmalloc | malloc | mallocAligned align => rfl

/-- For every 64-bit size: a request whose true sum is at most the largest block, or wraps to
zero, is served, refused or stopped for lack of memory, with an order the buddy allocator has.
Every other one passes an order beyond `MAX_ORDER` or takes a place smaller than the size. -/
theorem heap_requests_safe (hd : DirectMap shift hhdm R) (h : Run shift hhdm R s live H)
    (hr : r.Admissible) (hsize : size < word) :
    (size = 0 ∨ r.total size ≤ maxSize shift ∨ r.passed size = 0 →
      Served shift hhdm R H s live r size ∧
        (size ≠ 0 → maxClass shift < r.passed size →
          sizeOrder shift (r.passed size) ≤ maxOrder)) ∧
    (size ≠ 0 → maxSize shift < r.total size → r.passed size ≠ 0 →
      maxClass shift < r.passed size ∧ maxOrder < sizeOrder shift (r.passed size) ∨
      Ensures (· = outOfMemory) (r.call shift hhdm s size) fun out =>
        ∃ base, Takes (placeOf shift (r.passed size) base) s out.2 ∧
          (placeOf shift (r.passed size) base).len shift < size) := by
  constructor
  · intro hcond
    by_cases h0 : size = 0
    · subst h0
      refine ⟨?_, fun hne => absurd rfl hne⟩
      rw [Served, Request.call_zero]
      exact .inl rfl
    · by_cases hzero : r.passed size = 0
      · refine ⟨?_, fun _ hlt => absurd hlt (by omega)⟩
        rw [Served, refused hr h0 hsize hzero]
        exact .inl rfl
      · have hle : r.total size ≤ maxSize shift := by tauto
        have hfit : r.total size < word := by
          have hs := hd.shift_le
          have hmax : maxSize shift < word :=
            Nat.pow_lt_pow_right (by norm_num) (show shift + 14 < 64 by omega)
          omega
        have hpassed : r.passed size = r.total size := Nat.mod_eq_of_lt hfit
        refine ⟨served hd h hr h0 hle, fun _ _ => ?_⟩
        rw [hpassed]
        exact (sizeOrder_spec hd.shift_le hle).2 hle
  · intro h0 hbig hne
    have hm := run_machine hd h
    obtain ⟨a, hf, hi⟩ := run_live hd h
    refine (oversized hd hr hbig hne).imp_right fun ⟨horder, hlen⟩ => ?_
    rw [Request.call_eq hr h0 hsize]
    refine (kmalloc_takes hm hf hi.heap hne horder).bind fun ⟨raw, h'⟩ ⟨_, ht, _⟩ => ?_
    exact ⟨raw, takes_finish ht, hlen raw⟩

theorem hundred_served : ∃ R s, Run 12 0xffff800000000000 R s [] ∅ ∧
    Served 12 0xffff800000000000 R ∅ s [] .malloc 100 := by
  obtain ⟨r, hrun, -⟩ := returns_of_eval (show firstMalloc.toOption.any (fun _ => true) = true by
    decide +kernel)
  obtain ⟨b, hb, hrest⟩ := bind_ok hrun
  obtain ⟨classes, hclasses, -⟩ := bind_ok hrest
  obtain ⟨R, hd, h⟩ := eightPages_run hb hclasses
  have hsafe := (heap_requests_safe (r := .malloc) hd h trivial (show 100 < word by decide)).1
  exact ⟨R, _, h, (hsafe (.inr (.inl (by decide)))).1⟩

def largestMalloc : Exec (ℕ × Heap) := do
  let b ← buddyAddRange 12 MemBuddyAllocator.initial 0x1000 0x8000
  let classes ← mallocInit 12 fun _ => ⟨[], 0, 0, 0⟩
  malloc 12 0xffff800000000000 (unusedHeap b classes) (2 ^ 64 - 1)

/-- The largest size wraps to 15: the object has 16 bytes and the pointer is already past it.
A size of 1 GiB asks for the order 18. -/
theorem largest_size_wraps : ∃ R s, Run 12 0xffff800000000000 R s [] ∅ ∧
    (∃ ptr h', malloc 12 0xffff800000000000 s (2 ^ 64 - 1) = .ok (ptr, h') ∧ ptr ≠ 0 ∧
      h'.out 1 = [ptr - 16] ∧ (Place.slab 1 (ptr - 16)).len 12 = 16) ∧
    maxClass 12 < 2 ^ 30 ∧ sizeOrder 12 (2 ^ 30) = 18 := by
  have heval : largestMalloc.toOption.any (fun r => r.1 ≠ 0 ∧ r.2.out 1 = [r.1 - 16]) = true := by
    decide +kernel
  obtain ⟨⟨ptr, h'⟩, hrun, hresult⟩ := returns_of_eval heval
  obtain ⟨b, hb, hrest⟩ := bind_ok hrun
  obtain ⟨classes, hclasses, hmalloc⟩ := bind_ok hrest
  obtain ⟨R, -, h⟩ := eightPages_run hb hclasses
  obtain ⟨hne, hout⟩ := of_decide_eq_true hresult
  exact ⟨R, _, h, ⟨ptr, h', hmalloc, hne, hout, rfl⟩, by decide, by decide +kernel⟩

end Requests

end LibcStdlibRequests
