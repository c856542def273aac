import EvalynKernel.ArchPagingFormats

/-! # Flushing a range of the TLB (`arch/intrin/paging.h`)

`paging_map_range` and `paging_unmap_range` end with this call, on the range they were
given. -/
namespace ArchTlb

open MachineWords ArchPagingFormats

inductive Flush where
  | all
  | pages (vaddrs : List ℕ)
  deriving DecidableEq, Repr

variable (mmu : Mmu)

def pageSizeLarge : ℕ := mmu.entrySize 2

/-- The pages that the loop from `curr` on gives to `arch_tlb_flush`. -/
def flushLoop (stop : ℕ) : ℕ → ℕ → Exec (List ℕ)
  | 0, _ => .error .fuel
  | fuel + 1, curr =>
    if curr < stop then do
      let rest ← flushLoop stop fuel (wadd curr mmu.pageSize)
      return curr :: rest
    else .ok []

def archTlbFlushRange (vaddr size : ℕ) : Exec Flush :=
  if size ≥ pageSizeLarge mmu then .ok .all
  else do
    let start := alignDown vaddr mmu.pageSize
    let stop := alignUp (wadd vaddr size) mmu.pageSize
    let pages ← flushLoop mmu stop (mmu.tableEntries + 2) start
    return .pages pages

/-- Every page that has a byte of the range is flushed. -/
def Covers (vaddr len : ℕ) : Flush → Prop
  | .all => True
  | .pages vaddrs => ∀ page, mmu.pageSize ∣ page → page < vaddr + len →
      vaddr < page + mmu.pageSize → page ∈ vaddrs

variable {mmu}

theorem flushLoop_eq (hb : b * mmu.pageSize < word) (hfuel : b - a < fuel) :
    flushLoop mmu (b * mmu.pageSize) fuel (a * mmu.pageSize) =
      .ok ((List.range' a (b - a)).map (· * mmu.pageSize)) := by
  have hpos : 0 < mmu.pageSize := by
    rw [Mmu.pageSize, Nat.one_shiftLeft]
    exact Nat.two_pow_pos _
  induction fuel generalizing a with
  | zero => omega
  | succ fuel ih =>
    rw [flushLoop]
    by_cases hlt : a < b
    · have hle := Nat.mul_le_mul_right mmu.pageSize (show a + 1 ≤ b by omega)
      have hnext := Nat.add_one_mul a mmu.pageSize
      rw [if_pos (Nat.mul_lt_mul_of_pos_right hlt hpos), wadd_of_lt (by omega), ← hnext,
        ih (by omega),
        show b - a = b - (a + 1) + 1 by omega, List.range'_succ]
      rfl
    · rw [if_neg (mt Nat.lt_of_mul_lt_mul_right hlt), Nat.sub_eq_zero_of_le (by omega)]
      rfl

theorem archTlbFlushRange_eq (law : mmu.Lawful) (hv : vaddr < word)
    (hsize : size < pageSizeLarge mmu) :
    archTlbFlushRange mmu vaddr size = .ok (.pages ((List.range' (vaddr / mmu.pageSize)
      (alignUp (wadd vaddr size) mmu.pageSize / mmu.pageSize - vaddr / mmu.pageSize)).map
        (· * mmu.pageSize))) := by
  have hspan := law.span
  have hpage : mmu.pageSize = 2 ^ mmu.pageSizeShift := Nat.one_shiftLeft _
  have hlarge : pageSizeLarge mmu = mmu.tableEntries * mmu.pageSize := by
    rw [hpage, pageSizeLarge, Mmu.entrySize, Mmu.entryShift, Mmu.tableEntries, Mmu.pageIndexMask,
      Nat.one_shiftLeft, Nat.one_shiftLeft, Nat.sub_add_cancel (Nat.two_pow_pos _),
      ← Nat.pow_add]
    congr 1
    omega
  have hup := alignUp_two_pow (x := wadd vaddr size) (show mmu.pageSizeShift ≤ 64 by omega)
  have hstop := Nat.div_mul_cancel (dvd_alignUp (x := wadd vaddr size)
    (show mmu.pageSizeShift ≤ 64 by omega))
  have hlt := alignUp_lt (x := wadd vaddr size) (show mmu.pageSizeShift ≤ 64 by omega)
  have hdown := alignDown_two_pow hv (show mmu.pageSizeShift ≤ 64 by omega)
  rw [← hpage] at hup hstop hlt hdown
  have hpos : 0 < mmu.pageSize := hpage ▸ Nat.two_pow_pos _
  have hturns : alignUp (wadd vaddr size) mmu.pageSize / mmu.pageSize - vaddr / mmu.pageSize <
      mmu.tableEntries + 2 := by
    have h1 := Nat.mod_le (vaddr + size) word
    have h2 := Nat.mod_le (wadd vaddr size + (mmu.pageSize - 1)) word
    have h3 := Nat.div_add_mod' vaddr mmu.pageSize
    have h4 := Nat.mod_lt vaddr hpos
    have hsum : alignUp (wadd vaddr size) mmu.pageSize / mmu.pageSize <
        vaddr / mmu.pageSize + mmu.tableEntries + 2 := by
      rw [hup, Nat.mul_div_cancel _ hpos, Nat.div_lt_iff_lt_mul hpos, Nat.add_mul, Nat.add_mul,
        ← hlarge]
      unfold wadd at *
      omega
    omega
  rw [archTlbFlushRange, if_neg (by omega)]
  simp only [hdown]
  rw [← hstop] at hlt
  nth_rewrite 1 [← hstop]
  rw [flushLoop_eq hlt hturns]
  rfl

/-- The end of a range in the last page of the address space is rounded up to 0. -/
theorem stop_wraps (hs : s ≤ 64) (hend : vaddr + len ≤ word) (hlast : word < vaddr + len + 2 ^ s) :
    alignUp (wadd vaddr len) (2 ^ s) = 0 := by
  have hle : 2 ^ s ≤ word := Nat.pow_le_pow_right (by decide) hs
  rw [alignUp_two_pow hs, wadd, wadd, Nat.mod_add_mod, Nat.mod_eq_sub_mod (by omega),
    Nat.mod_eq_of_lt (by omega), Nat.div_eq_of_lt (by omega), Nat.zero_mul]

/-- The call comes back. It covers the range if and only if the range does not end in the last
page of the address space or everything is flushed. -/
theorem archTlbFlushRange_covers (law : mmu.Lawful) (vaddr len : ℕ) (hv : vaddr < word)
    (haligned : mmu.pageSize ∣ vaddr) (hend : vaddr + len ≤ word) :
    ∃ flush, archTlbFlushRange mmu vaddr len = .ok flush ∧
      (Covers mmu vaddr len flush ↔
        len ≥ pageSizeLarge mmu ∨ len = 0 ∨ vaddr + len + mmu.pageSize ≤ word) := by
  rcases Nat.lt_or_ge len (pageSizeLarge mmu) with hlen | hlen
  · refine ⟨_, archTlbFlushRange_eq law hv hlen, ?_⟩
    have hspan := law.span
    have hpage : mmu.pageSize = 2 ^ mmu.pageSizeShift := Nat.one_shiftLeft _
    have hpos : 0 < mmu.pageSize := hpage ▸ Nat.two_pow_pos _
    constructor
    · intro hcovers
      by_contra hnot
      have hzero := stop_wraps (show mmu.pageSizeShift ≤ 64 by omega) hend (hpage ▸ by omega)
      have hmem := hcovers vaddr haligned (by omega) (by omega)
      rw [← hpage] at hzero
      rw [hzero, Nat.zero_div, Nat.zero_sub] at hmem
      exact List.not_mem_nil hmem
    rintro hwhen page ⟨q, rfl⟩ hin hstart
    obtain ⟨a, rfl⟩ := haligned
    rw [← Nat.mul_succ] at hstart
    have haq := Nat.lt_of_mul_lt_mul_left hstart
    have hfit : mmu.pageSize * a + len + mmu.pageSize ≤ word := by
      rcases hwhen with h | rfl | h
      · omega
      · rw [Nat.add_zero] at hin
        have := Nat.lt_of_mul_lt_mul_left hin
        omega
      · exact h
    have hup := (alignUp_bounds (show mmu.pageSizeShift ≤ 64 by omega) (hpage ▸ hfit)).1
    rw [← hpage] at hup
    rw [wadd_of_lt (by omega), List.mem_map]
    refine ⟨q, ?_, Nat.mul_comm _ _⟩
    rw [List.mem_range'_1, Nat.mul_div_cancel_left _ hpos]
    have hq : q < alignUp (mmu.pageSize * a + len) mmu.pageSize / mmu.pageSize := by
      rw [Nat.lt_div_iff_mul_lt_of_dvd hpos.ne' (hpage ▸ dvd_alignUp (by omega)), Nat.mul_comm]
      omega
    omega
  · exact ⟨.all, if_pos hlen, iff_of_true trivial (.inl hlen)⟩

theorem two_pages_covered :
    ∃ flush, archTlbFlushRange (x86_64 mmuConfig4lvlPaging) 0x1000 0x2000 = .ok flush ∧
      Covers (x86_64 mmuConfig4lvlPaging) 0x1000 0x2000 flush := by
  have law : (x86_64 mmuConfig4lvlPaging).Lawful := x86_64_lawful (by decide) (by decide)
  obtain ⟨flush, hflush, hcovers⟩ :=
    archTlbFlushRange_covers law 0x1000 0x2000 (by decide) (by decide) (by decide)
  exact ⟨flush, hflush, hcovers.mpr (by decide)⟩

/-- The last page of the address space is not flushed. -/
theorem last_page_kept :
    archTlbFlushRange (x86_64 mmuConfig4lvlPaging) (2 ^ 64 - 0x1000) 0x1000 = .ok (.pages []) ∧
      ¬ Covers (x86_64 mmuConfig4lvlPaging) (2 ^ 64 - 0x1000) 0x1000 (.pages []) := by
  refine ⟨by decide +kernel, ?_⟩
  intro h
  exact absurd (h (2 ^ 64 - 0x1000) (by decide) (by decide) (by decide)) List.not_mem_nil

end ArchTlb
