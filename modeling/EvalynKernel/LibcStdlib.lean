import EvalynKernel.MemBuddyAllocator
import EvalynKernel.MemSpallocInvariant

/-! # The kernel heap (`libc/stdlib.c`)

The slab allocators of `kmalloc_classes` and the buddy allocator share the memory, which is
reached through the direct map at `hhdm`. Slab pages, slab objects and malloc headers are
known by their virtual addresses; pages have `2 ^ shift` bytes. `pages` and `out` are those
of each class, `large` the blocks that `kmalloc` obtained from `buddy_allocate` itself and
that were not given back, by address and order. -/
namespace LibcStdlib

open Function MachineWords MemBuddyAllocator MemSpalloc MemSpallocInvariant

def magic : ℕ := 0x9f37a967
def minOrder : ℕ := 0
def minShift : ℕ := 3
def maxShift (shift : ℕ) : ℕ := shift - 2
def maxClass (shift : ℕ) : ℕ := 1 <<< maxShift shift

/-- `sizeof(malloc_header_t)`: `magic` at 0, `offset` at 4 and `size` at 8. -/
def mallocHeaderSize : ℕ := 16

structure MallocHeader where
  magic : ℕ
  offset : ℕ
  size : ℕ
  deriving DecidableEq, Repr

structure Heap where
  buddy : MemBuddyAllocator.State
  classes : ℕ → Allocator
  headers : ℕ → PageHeader
  next : ℕ → ℕ
  blocks : ℕ → MallocHeader
  pages : ℕ → List ℕ
  out : ℕ → List ℕ
  large : List (ℕ × ℕ)

/-- `&kmalloc_classes[c]` and the memory it works on. -/
def Heap.slab (h : Heap) (c : ℕ) : MemSpalloc.State :=
  ⟨h.classes c, h.headers, h.next, h.pages c, h.out c⟩

def Heap.setSlab (h : Heap) (c : ℕ) (s : MemSpalloc.State) : Heap :=
  { h with
    classes := Function.update h.classes c s.alloc
    headers := s.headers
    next := s.next
    pages := Function.update h.pages c s.pages
    out := Function.update h.out c s.out }

def sizeClass (size : ℕ) : ℕ :=
  let shift := log2ull size
  let shift := if 1 <<< shift < size then shift + 1 else shift
  if shift < minShift then minShift else shift

def classCount (shift : ℕ) : ℕ := maxShift shift - minShift + 1

section Functions

variable (shift hhdm : ℕ)

def fromHhdm (x : ℕ) : ℕ := wsub x hhdm

def sizeOrder (size : ℕ) : ℕ := log2ullceil (alignUp size (2 ^ shift) >>> shift)

def mallocInit (classes : ℕ → Allocator) : Exec (ℕ → Allocator) :=
  (List.range (classCount shift)).foldlM (fun classes i => do
    return Function.update classes i (← spallocInit (2 ^ shift) (1 <<< (minShift + i)) 16)) classes

/-- `spalloc_malloc(&kmalloc_classes[c])`, with the page it takes when its list is empty. -/
def classMalloc (h : Heap) (c : ℕ) : Exec (ℕ × Heap) :=
  if (h.classes c).partialList = [] then do
    let (paddr, buddy) ← buddyAllocate shift h.buddy minOrder allocFlagNofail
    let (obj, s) ← spallocMalloc (2 ^ shift) (h.slab c) (toHhdm hhdm paddr)
    return (obj, { h.setSlab c s with buddy })
  else do
    let (obj, s) ← spallocMalloc (2 ^ shift) (h.slab c) 0
    return (obj, h.setSlab c s)

/-- `spalloc_free(&kmalloc_classes[c], obj)`, with the page it gives back when that is empty. -/
def classFree (h : Heap) (c obj : ℕ) : Exec Heap := do
  let hdr := alignDown obj (2 ^ shift)
  let s ← spallocFree (2 ^ shift) (h.slab c) obj
  if hdr ∈ s.pages then
    return h.setSlab c s
  else
    return { h.setSlab c s with buddy := buddyFree shift h.buddy (fromHhdm hhdm hdr) minOrder }

def kmalloc (h : Heap) (size : ℕ) : Exec (ℕ × Heap) :=
  if size = 0 then .ok (0, h)
  else if size ≤ maxClass shift then classMalloc shift hhdm h (sizeClass size - minShift)
  else do
    let (paddr, buddy) ← buddyAllocate shift h.buddy (sizeOrder shift size) allocFlagNofail
    return (toHhdm hhdm paddr,
      { h with buddy, large := (toHhdm hhdm paddr, sizeOrder shift size) :: h.large })

def kfree (h : Heap) (ptr size : ℕ) : Exec Heap :=
  if ptr = 0 then .ok h
  else if size ≤ maxClass shift then classFree shift hhdm h (sizeClass size - minShift) ptr
  else .ok { h with
    buddy := buddyFree shift h.buddy (fromHhdm hhdm ptr) (sizeOrder shift size)
    large := h.large.erase (ptr, sizeOrder shift size) }

def setBlock (h : Heap) (hdr : ℕ) (b : MallocHeader) : Heap :=
  { h with blocks := Function.update h.blocks hdr b }

def malloc (h : Heap) (size : ℕ) : Exec (ℕ × Heap) :=
  if size = 0 then .ok (0, h)
  else do
    let (hdr, h) ← kmalloc shift hhdm h (wadd size mallocHeaderSize)
    if hdr = 0 then return (0, h)
    return (wadd hdr mallocHeaderSize,
      setBlock h hdr ⟨magic, 0, wadd size mallocHeaderSize⟩)

def mallocAligned (h : Heap) (size align : ℕ) : Exec (ℕ × Heap) :=
  if size = 0 then .ok (0, h)
  else do
    let align := if align < 16 then 16 else align
    kassert "isPow2ull(align)" (isPow2ull align)
    let total := wsub (wadd (wadd size mallocHeaderSize) align) 1
    let (raw, h) ← kmalloc shift hhdm h total
    if raw = 0 then return (0, h)
    let ptr := alignUp (wadd raw mallocHeaderSize) align
    let hdr := wsub ptr mallocHeaderSize
    return (ptr, setBlock h hdr ⟨magic, wsub hdr raw % 2 ^ 32, total⟩)

def free (h : Heap) (ptr : ℕ) : Exec Heap :=
  if ptr = 0 then .ok h
  else do
    let hdr := wsub ptr mallocHeaderSize
    kassert "hdr->magic == MAGIC" ((h.blocks hdr).magic = magic)
    kfree shift hhdm h (wsub hdr (h.blocks hdr).offset) (h.blocks hdr).size

end Functions

section Sizes

variable {shift size : ℕ}

theorem maxClass_eq (shift : ℕ) : maxClass shift = 2 ^ (shift - 2) := by
  rw [maxClass, maxShift, Nat.one_shiftLeft]

/-- The class is the least power of two, from 8 on, that holds the size. -/
theorem sizeClass_spec (h0 : size ≠ 0) :
    minShift ≤ sizeClass size ∧ size ≤ 2 ^ sizeClass size ∧
      ∀ n, minShift ≤ n → size ≤ 2 ^ n → sizeClass size ≤ n := by
  have hle := two_pow_log2ull_le h0
  have hlt : size < 2 ^ (log2ull size + 1) := Nat.lt_log2_self
  have hleast : ∀ n, size ≤ 2 ^ n → log2ull size ≤ n := fun n hn =>
    (Nat.pow_le_pow_iff_right (by norm_num)).1 (hle.trans hn)
  have hgrow : ∀ m, m < minShift → size ≤ 2 ^ m → size ≤ 2 ^ minShift := fun m hm hs =>
    hs.trans (Nat.pow_le_pow_right (by norm_num) hm.le)
  simp only [sizeClass, Nat.one_shiftLeft]
  by_cases hpow : 2 ^ log2ull size < size
  · rw [if_pos hpow]
    have hnext : ∀ n, size ≤ 2 ^ n → log2ull size + 1 ≤ n := fun n hn =>
      (Nat.pow_lt_pow_iff_right (by norm_num)).1 (hpow.trans_le hn)
    split
    · next hm => exact ⟨le_rfl, hgrow _ hm hlt.le, fun n hn _ => hn⟩
    · next hm => exact ⟨not_lt.1 hm, hlt.le, fun n _ hs => hnext n hs⟩
  · rw [if_neg hpow]
    have heq : size ≤ 2 ^ log2ull size := not_lt.1 hpow
    split
    · next hm => exact ⟨le_rfl, hgrow _ hm heq, fun n hn _ => hn⟩
    · next hm => exact ⟨not_lt.1 hm, heq, fun n _ hs => hleast n hs⟩

theorem sizeClass_lt (hs : 12 ≤ shift) (h0 : size ≠ 0) (hle : size ≤ maxClass shift) :
    sizeClass size - minShift < classCount shift := by
  rw [maxClass_eq] at hle
  have h3 := (sizeClass_spec h0).2.2 (shift - 2) (by unfold minShift; omega) hle
  unfold classCount maxShift
  omega

theorem log2ullceil_spec : log2ullceil n ≤ k ↔ n ≤ 2 ^ k := by
  unfold log2ullceil
  split
  · next h =>
    have := Nat.one_le_two_pow (n := k)
    exact ⟨fun _ => h.trans this, fun _ => Nat.zero_le k⟩
  · next h =>
    rw [Nat.add_one_le_iff, log2ull, Nat.log2_lt (by omega)]
    omega

/-- The order is the least one whose blocks hold the size, if rounding up does not wrap. -/
theorem sizeOrder_le_iff (hs : shift ≤ 16) (hfit : size + 2 ^ shift ≤ word) :
    sizeOrder shift size ≤ k ↔ size ≤ 2 ^ (shift + k) := by
  have hpos : 0 < 2 ^ shift := Nat.two_pow_pos shift
  have hb := alignUp_bounds (x := size) (n := shift) (by omega) hfit
  obtain ⟨m, hm⟩ := dvd_alignUp (x := size) (n := shift) (by omega)
  rw [sizeOrder, hm, Nat.shiftRight_eq_div_pow, Nat.mul_div_cancel_left _ hpos, log2ullceil_spec,
    Nat.pow_add]
  rw [hm] at hb
  constructor
  · intro hk
    exact hb.1.trans (Nat.mul_le_mul_left _ hk)
  · intro hk
    by_contra hlt
    have := Nat.mul_le_mul_left (2 ^ shift) (Nat.succ_le_of_lt (not_le.1 hlt))
    rw [Nat.mul_succ] at this
    omega

theorem sizeOrder_spec (hs : shift ≤ 16) (hle : size ≤ 2 ^ (shift + maxOrder)) :
    sizeOrder shift size ≤ k ↔ size ≤ 2 ^ (shift + k) := by
  have h30 : 2 ^ (shift + maxOrder) ≤ 2 ^ 30 :=
    Nat.pow_le_pow_right (by norm_num) (by unfold maxOrder; omega)
  have h16 : 2 ^ shift ≤ 2 ^ 16 := Nat.pow_le_pow_right (by norm_num) hs
  have hword : word = 2 ^ 64 := rfl
  exact sizeOrder_le_iff hs (by omega)

theorem sizeOrder_wrapped (hs : shift ≤ 16) (hlt : size < word) (hwrap : word < size + 2 ^ shift) :
    sizeOrder shift size = 0 := by
  have hsum : wadd size (2 ^ shift - 1) = size + (2 ^ shift - 1) - word := by
    have h16 : 2 ^ shift ≤ 2 ^ 16 := Nat.pow_le_pow_right (by norm_num) hs
    have hword := word_eq
    rw [wadd, Nat.mod_eq_sub_mod (by omega), Nat.mod_eq_of_lt (by omega)]
  rw [sizeOrder, alignUp_two_pow (by omega), hsum, Nat.div_eq_of_lt (by omega)]
  simp [log2ullceil]

theorem classInit (hlo : 12 ≤ shift) (hhi : shift ≤ 16) (hc : c < classCount shift) :
    ∃ a, spallocInit (2 ^ shift) (1 <<< (minShift + c)) 16 = .ok a ∧
      Fits shift (2 ^ (minShift + c)) 16 a ∧ a.partialList = [] := by
  unfold classCount maxShift at hc
  have hexp : minShift + c ≤ shift - 2 := by unfold minShift at *; omega
  have h8 : 2 ^ 3 ≤ 2 ^ (minShift + c) :=
    Nat.pow_le_pow_right (by norm_num) (by unfold minShift; omega)
  have hhalf : 2 ^ (shift - 1) ≤ 2 ^ shift / 2 := by
    rw [Nat.le_div_iff_mul_le (by norm_num), ← Nat.pow_succ]
    exact Nat.pow_le_pow_right (by norm_num) (by omega)
  have hsize : 2 ^ (minShift + c) ≤ 2 ^ shift / 2 :=
    (Nat.pow_le_pow_right (by norm_num) (by omega)).trans hhalf
  have h16 : 16 ≤ 2 ^ shift / 2 := by
    have : 2 ^ 4 ≤ 2 ^ (shift - 1) := Nat.pow_le_pow_right (by norm_num) (by omega)
    omega
  have hstride : alignUp (2 ^ (minShift + c)) 16 % 8 = 0 := by
    have hdvd : 16 ∣ alignUp (2 ^ (minShift + c)) 16 := dvd_alignUp (n := 4) (by decide)
    omega
  have hok : ∃ a, spallocInit (2 ^ shift) (2 ^ (minShift + c)) 16 = .ok a := by
    simp only [spallocInit, decide_eq_true (show 8 ≤ 2 ^ (minShift + c) by omega),
      decide_eq_true hsize, decide_eq_true h16, show isPow2ull 16 = true from rfl,
      decide_eq_true hstride, kassert_true, ok_bind]
    exact ⟨_, rfl⟩
  rw [Nat.one_shiftLeft]
  obtain ⟨a, ha⟩ := hok
  exact ⟨a, ha, spallocInit_fits hlo hhi ha⟩

theorem mallocInit_spec (hlo : 12 ≤ shift) (hhi : shift ≤ 16) (classes₀ : ℕ → Allocator) :
    ∃ classes, mallocInit shift classes₀ = .ok classes ∧ ∀ c < classCount shift,
      Fits shift (2 ^ (minShift + c)) 16 (classes c) ∧ (classes c).partialList = [] := by
  unfold mallocInit
  have hrounds : ∀ n ≤ classCount shift, ∃ classes, (List.range n).foldlM (fun classes i => do
      return update classes i (← spallocInit (2 ^ shift) (1 <<< (minShift + i)) 16))
      classes₀ = (.ok classes : Exec (ℕ → Allocator)) ∧ ∀ c < n,
      Fits shift (2 ^ (minShift + c)) 16 (classes c) ∧ (classes c).partialList = [] := by
    intro n
    induction n with
    | zero => exact fun _ => ⟨classes₀, rfl, fun c hc => absurd hc (Nat.not_lt_zero c)⟩
    | succ n ih =>
      intro hn
      obtain ⟨classes, hok, hall⟩ := ih (by omega)
      obtain ⟨a, ha, hfits⟩ := classInit hlo hhi (show n < classCount shift by omega)
      refine ⟨update classes n a, ?_, fun c hc => ?_⟩
      · rw [List.range_succ, List.foldlM_append, hok, ok_bind, List.foldlM_cons, ha]
        rfl
      · by_cases hcn : c = n
        · subst hcn
          rwa [update_self]
        · rw [update_of_ne hcn]
          exact hall c (by omega)
  exact hrounds _ le_rfl

end Sizes

end LibcStdlib
