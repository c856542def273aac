import EvalynKernel.ArchPagingFormats

/-! # Addresses in page table entries

An entry joins an address field with flag bits. On x86_64 and loongarch64 the field holds
every page of the physical address space. On riscv64 the mask `0x003fffffffffc00` of
`ARCH_DECODE_PTE` is four bits short of the 44-bit page number: addresses from 2^52 on do
not come back. -/
namespace ArchPagingEncoding

open MachineWords ArchPagingFormats

inductive Arch where
  | x86_64
  | riscv64
  | loongarch64 (size : Loongarch.PageSizeConfig)
  deriving DecidableEq, Repr

namespace Arch

def mmu (config : ℕ) : Arch → Mmu
  | x86_64 => ArchPagingFormats.x86_64 config
  | riscv64 => ArchPagingFormats.riscv64 config
  | loongarch64 size => ArchPagingFormats.loongarch64 size config

def Levels (config : ℕ) : Arch → Prop
  | x86_64 | riscv64 => 3 ≤ config &&& 7 ∧ config &&& 7 ≤ 5
  | loongarch64 size => config &&& 7 = size.pagingLevels

theorem lawful {config : ℕ} {arch : Arch} (h : arch.Levels config) : (arch.mmu config).Lawful := by
  cases arch with
  | x86_64 => exact x86_64_lawful h.1 h.2
  | riscv64 => exact riscv64_lawful h.1 h.2
  | loongarch64 size => exact loongarch64_lawful h

theorem shift_le (config : ℕ) (arch : Arch) : (arch.mmu config).pageSizeShift ≤ 16 := by
  cases arch with
  | x86_64 | riscv64 => show 12 ≤ 16; omega
  | loongarch64 size => show size.shift ≤ 16; cases size <;> decide

def physicalBits : Arch → ℕ
  | x86_64 => 52
  | riscv64 => 56
  | loongarch64 _ => 48

def pteMask : Arch → ℕ
  | x86_64 => X86.archPteMask
  | riscv64 => Riscv.archPteMask
  | loongarch64 _ => Loongarch.archPteMask

def largePteMask : Arch → ℕ
  | x86_64 => X86.archLargePteMask
  | riscv64 => Riscv.archPteMask
  | loongarch64 _ => Loongarch.archLargePteMask

end Arch

def flagBits (mask pte : ℕ) : ℕ := pte &&& (word - 1 - mask)

/-- The address and the flags of every entry written for `paddr` can be read back. -/
structure RoundTrips (arch : Arch) (config paddr attr : ℕ) : Prop where
  page : (arch.mmu config).decodePte
      ((arch.mmu config).encodePte paddr ((arch.mmu config).protToMmuFlags attr)) = paddr ∧
    flagBits arch.pteMask
      ((arch.mmu config).encodePte paddr ((arch.mmu config).protToMmuFlags attr)) =
        (arch.mmu config).protToMmuFlags attr
  table : (arch.mmu config).decodePte
      ((arch.mmu config).encodePte paddr ((arch.mmu config).intermediateMmuFlags attr)) = paddr ∧
    flagBits arch.pteMask
      ((arch.mmu config).encodePte paddr ((arch.mmu config).intermediateMmuFlags attr)) =
        (arch.mmu config).intermediateMmuFlags attr
  large : ∀ level, level = 2 ∨ level = 3 → (arch.mmu config).entrySize level ∣ paddr →
    (arch.mmu config).decodeLargePte ((arch.mmu config).leafPte level paddr attr) = paddr ∧
    flagBits arch.largePteMask ((arch.mmu config).leafPte level paddr attr) =
      (arch.mmu config).leafFlags level attr

variable {mask paddr flags : ℕ}

/-- A word that misses the address field is its own flag bits. -/
theorem flagBits_self (hm : mask < word) (hf : flags < word ∧ flags &&& mask = 0) :
    flagBits mask flags = flags := by
  apply Nat.eq_of_testBit_eq
  intro i
  have hz : (flags &&& mask).testBit i = false := by rw [hf.2, Nat.zero_testBit]
  rw [Nat.testBit_and] at hz
  rw [flagBits, Nat.testBit_and, word, Nat.sub_sub, Nat.add_comm, Nat.testBit_two_pow_sub_succ hm]
  by_cases hi : i < 64
  · cases hb : flags.testBit i <;> simp_all
  · rw [Nat.testBit_lt_two_pow (hf.1.trans_le (Nat.pow_le_pow_right (by norm_num) (not_lt.1 hi))),
      Bool.false_and]

section Masked

variable {large : ℕ} (hm : mask = (2 ^ 40 - 1) * 2 ^ 12) (hl : large = (2 ^ 39 - 1) * 2 ^ 13)

include hm in
theorem flagBits_masked (hf : flags < word ∧ flags &&& mask = 0) :
    flagBits mask ((paddr &&& mask) ||| flags) = flags := by
  have hz : mask &&& (word - 1 - mask) = 0 := by rw [hm]; decide
  have hself := flagBits_self (by rw [hm]; decide) hf
  unfold flagBits at hself ⊢
  rw [Nat.and_or_distrib_right, Nat.and_assoc, hz, Nat.and_zero, Nat.zero_or, hself]

include hm hl in
theorem flagBits_masked_large (h : 2 ^ 13 ∣ paddr) (hf : flags < word ∧ flags &&& large = 0) :
    flagBits large ((paddr &&& mask) ||| flags) = flags := by
  have hz : mask &&& (word - 1 - large) = 2 ^ 12 := by rw [hm, hl]; decide
  have hself := flagBits_self (by rw [hl]; decide) hf
  unfold flagBits at hself ⊢
  rw [Nat.and_or_distrib_right, Nat.and_assoc, hz, and_eq_zero_of_dvd h (by decide), Nat.zero_or,
    hself]

end Masked

variable {config attr : ℕ}

theorem x86_64_roundTrips (h : 2 ^ 12 ∣ paddr) (hlt : paddr < 2 ^ 52) :
    RoundTrips .x86_64 config paddr attr := by
  obtain ⟨_, _, _, hz, hzl, _⟩ := X86.flags_bits config attr
  have hdecode : paddr % 2 ^ 52 = paddr := Nat.mod_eq_of_lt hlt
  have hzt := (X86.intermediate_bits config attr).2.2
  refine ⟨⟨(decode_masked rfl h hz.2).trans hdecode, flagBits_masked rfl hz⟩,
    ⟨(decode_masked rfl h hzt.2).trans hdecode, flagBits_masked rfl hzt⟩, ?_⟩
  intro level hlevel hd
  have hne : level ≠ 1 := by omega
  have hdvd : 2 ^ 13 ∣ paddr := by
    refine two_pow_dvd_of_entrySize hd ?_
    show 13 ≤ 12 + (level - 1) * 9
    omega
  simp only [Mmu.leafPte, Mmu.leafFlags, if_pos hne]
  exact ⟨(decode_masked_large rfl rfl hdvd hzl.2).trans hdecode,
    flagBits_masked_large rfl rfl hdvd hzl⟩

theorem loongarch64_roundTrips (h : 2 ^ size.shift ∣ paddr) (hlt : paddr < 2 ^ 48) :
    RoundTrips (.loongarch64 size) config paddr attr := by
  obtain ⟨_, _, _, hz, hzl, _⟩ := Loongarch.flags_bits attr
  have hdecode : paddr % 2 ^ 52 = paddr := Nat.mod_eq_of_lt (hlt.trans (by decide))
  have hshift : 12 ≤ size.shift := by cases size <;> decide
  have h12 : 2 ^ 12 ∣ paddr := dvd_trans (Nat.pow_dvd_pow 2 hshift) h
  have hz0 : 0 < word ∧ 0 &&& Loongarch.archPteMask = 0 := by decide
  refine ⟨⟨(decode_masked rfl h12 hz.2).trans hdecode, flagBits_masked rfl hz⟩,
    ⟨(decode_masked rfl h12 hz0.2).trans hdecode, flagBits_masked rfl hz0⟩, ?_⟩
  intro level hlevel hd
  have hne : level ≠ 1 := by omega
  have hdvd : 2 ^ 13 ∣ paddr := by
    refine two_pow_dvd_of_entrySize hd ?_
    show 13 ≤ size.shift + (level - 1) * (size.shift - 3)
    have hm := Nat.mul_le_mul_right (size.shift - 3) (show 1 ≤ level - 1 by omega)
    omega
  simp only [Mmu.leafPte, Mmu.leafFlags, if_pos hne]
  exact ⟨(decode_masked_large rfl rfl hdvd hzl.2).trans hdecode,
    flagBits_masked_large rfl rfl hdvd hzl⟩

theorem riscv64_decode (h : 2 ^ 12 ∣ paddr) :
    (riscv64 config).decodePte
      ((riscv64 config).encodePte paddr ((riscv64 config).protToMmuFlags attr)) = paddr % 2 ^ 52 :=
  Riscv.decode_encode h (Riscv.flags_bits attr).2.2.1.2

theorem riscv64_field (h : 2 ^ 12 ∣ paddr) (hlt : paddr < 2 ^ 52)
    (hf : flags < word ∧ flags &&& Riscv.archPteMask = 0) :
    flagBits Riscv.archPteMask ((paddr >>> 2) ||| flags) = flags := by
  have hmask : Riscv.archPteMask = (2 ^ 40 - 1) * 2 ^ 10 := rfl
  have hfield : paddr >>> 2 &&& Riscv.archPteMask = paddr >>> 2 := by
    rw [hmask, and_field (Riscv.two_pow_dvd_shifted h), Nat.shiftRight_eq_div_pow]
    exact Nat.mod_eq_of_lt (by omega)
  have hz : Riscv.archPteMask &&& (word - 1 - Riscv.archPteMask) = 0 := by decide
  have hself := flagBits_self (by decide) hf
  unfold flagBits at hself ⊢
  rw [Nat.and_or_distrib_right, ← hfield, Nat.and_assoc, hz, Nat.and_zero, Nat.zero_or, hself]

theorem riscv64_roundTrips (h : 2 ^ 12 ∣ paddr) (hlt : paddr < 2 ^ 52) :
    RoundTrips .riscv64 config paddr attr := by
  have hz := (Riscv.flags_bits attr).2.2.1
  have hdecode : paddr % 2 ^ 52 = paddr := Nat.mod_eq_of_lt hlt
  have hzt : Riscv.pteV < word ∧ Riscv.pteV &&& Riscv.archPteMask = 0 := by decide
  refine ⟨⟨(riscv64_decode h).trans hdecode, riscv64_field h hlt hz⟩,
    ⟨(Riscv.decode_encode h hzt.2).trans hdecode, riscv64_field h hlt hzt⟩, ?_⟩
  intro level hlevel _
  have hne : level ≠ 1 := by omega
  simp only [Mmu.leafPte, Mmu.leafFlags, if_pos hne]
  exact ⟨(Riscv.decode_encode h hz.2).trans hdecode, riscv64_field h hlt hz⟩

/-- Every page of the physical address space comes back, save those from 2^52 on on riscv64. -/
theorem pte_round_trips_iff (arch : Arch) (config paddr attr : ℕ)
    (h : 2 ^ (arch.mmu config).pageSizeShift ∣ paddr) (hlt : paddr < 2 ^ arch.physicalBits) :
    RoundTrips arch config paddr attr ↔ (arch = .riscv64 → paddr < 2 ^ 52) := by
  cases arch with
  | x86_64 => exact iff_of_true (x86_64_roundTrips h hlt) (by simp)
  | loongarch64 size => exact iff_of_true (loongarch64_roundTrips h hlt) (by simp)
  | riscv64 =>
    constructor
    · intro hr _
      rw [← hr.page.1]
      exact (riscv64_decode h).trans_lt (Nat.mod_lt _ (by decide))
    · intro hsmall
      exact riscv64_roundTrips h (hsmall rfl)

theorem last_page_round_trips : RoundTrips .x86_64 0 0xffffffffff000 (pageW ||| pageG) :=
  (pte_round_trips_iff .x86_64 0 0xffffffffff000 (pageW ||| pageG) (by decide) (by decide)).2
    (by decide)

/-- A riscv64 entry for the page at 2^52 decodes to address 0. -/
theorem high_page_lost : 2 ^ 12 ∣ 2 ^ 52 ∧ 2 ^ 52 < 2 ^ Arch.riscv64.physicalBits ∧
    (riscv64 0).decodePte ((riscv64 0).encodePte (2 ^ 52) ((riscv64 0).protToMmuFlags pageW)) = 0 ∧
    ¬ RoundTrips .riscv64 0 (2 ^ 52) pageW := by
  have hzero : (riscv64 0).decodePte ((riscv64 0).encodePte (2 ^ 52)
      ((riscv64 0).protToMmuFlags pageW)) = 0 := by decide
  refine ⟨by decide, by decide, hzero, ?_⟩
  intro hr
  have hpage : (0 : ℕ) = 2 ^ 52 := hzero.symm.trans hr.page.1
  exact absurd hpage (by decide)

end ArchPagingEncoding
