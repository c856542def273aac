import EvalynKernel.MachineWords

/-! # Page table entry formats (`arch/*/intrin/paging.h`, `arch/generic/paging/paging.h`)

`Mmu` collects the macros and inline functions that an architecture supplies to the
generic paging code, together with the word `mmu_config`. The three architectures of
the tree are given with their own bit layouts, and `Mmu.Lawful` lists what the generic
code relies on. -/
namespace ArchPagingFormats

open MachineWords

/-- The C condition `x & mask`. -/
def hasFlag (x mask : ℕ) : Bool := x &&& mask != 0

def pageR : ℕ := 1 <<< 2
def pageW : ℕ := 1 <<< 3
def pageX : ℕ := 1 <<< 4
def pageU : ℕ := 1 <<< 5
def pageG : ℕ := 1 <<< 6
def pageUc : ℕ := 1 <<< 7
def pageWc : ℕ := 1 <<< 8

def pageNorm : ℕ := 0
def pageUrw : ℕ := pageU ||| pageR ||| pageW

def mmuConfigL3Leaf : ℕ := 1 <<< 6
def mmuConfigL2Leaf : ℕ := 1 <<< 7
def mmuConfigNx : ℕ := 1 <<< 8
def mmuConfig3lvlPaging : ℕ := (1 <<< 3) ||| 3
def mmuConfig4lvlPaging : ℕ := (3 <<< 3) ||| 4

structure Mmu where
  config : ℕ
  pageSizeShift : ℕ
  pageIndexBits : ℕ
  ptePresent : ℕ → Bool
  pteIsLeaf : ℕ → ℕ → Bool
  encodePte : ℕ → ℕ → ℕ
  decodePte : ℕ → ℕ
  decodeLargePte : ℕ → ℕ
  intermediateMmuFlags : ℕ → ℕ
  protToMmuFlags : ℕ → ℕ
  largePageFixup : ℕ → ℕ
  mmuFlagsToProt : ℕ → ℕ → ℕ

variable {level : ℕ} {mmu : Mmu}

namespace Mmu

def topLevel (mmu : Mmu) : ℕ := mmu.config &&& 7
def pageSize (mmu : Mmu) : ℕ := 1 <<< mmu.pageSizeShift
def pageIndexMask (mmu : Mmu) : ℕ := (1 <<< mmu.pageIndexBits) - 1
def tableEntries (mmu : Mmu) : ℕ := mmu.pageIndexMask + 1
def entryShift (mmu : Mmu) (level : ℕ) : ℕ := mmu.pageSizeShift + (level - 1) * mmu.pageIndexBits
def entrySize (mmu : Mmu) (level : ℕ) : ℕ := 1 <<< mmu.entryShift level

def supportsLeaf (mmu : Mmu) (level : ℕ) : Bool :=
  level == 1 || level == 2 && hasFlag mmu.config mmuConfigL2Leaf ||
    level == 3 && hasFlag mmu.config mmuConfigL3Leaf

theorem supportsLeaf_le (h : mmu.supportsLeaf level = true) : level ≤ 3 := by
  simp only [supportsLeaf, Bool.or_eq_true, Bool.and_eq_true, beq_iff_eq] at h
  omega

def leafFlags (mmu : Mmu) (level attr : ℕ) : ℕ :=
  if level ≠ 1 then mmu.largePageFixup (mmu.protToMmuFlags attr) else mmu.protToMmuFlags attr

/-- The word `write_leaf` stores. -/
def leafPte (mmu : Mmu) (level paddr attr : ℕ) : ℕ := mmu.encodePte paddr (mmu.leafFlags level attr)

def tablePte (mmu : Mmu) (child attr : ℕ) : ℕ :=
  mmu.encodePte child (mmu.intermediateMmuFlags attr)

def decodeLeaf (mmu : Mmu) (level pte : ℕ) : ℕ :=
  if level = 1 then mmu.decodePte pte else mmu.decodeLargePte pte

/-- The protection that an attribute word asks for, as `paging_get_prot` reports it. -/
def protection (mmu : Mmu) (attr : ℕ) : ℕ := mmu.mmuFlagsToProt (mmu.protToMmuFlags attr) 1

structure IsFrame (mmu : Mmu) (paddr : ℕ) : Prop where
  aligned : 2 ^ mmu.pageSizeShift ∣ paddr
  nonzero : paddr ≠ 0
  bounded : paddr < 2 ^ 52

/-- What the generic paging code relies on. -/
structure Lawful (mmu : Mmu) : Prop where
  bits : mmu.pageIndexBits + 3 = mmu.pageSizeShift
  shift : 12 ≤ mmu.pageSizeShift
  three_le_top : 3 ≤ mmu.topLevel
  span : mmu.pageSizeShift + mmu.topLevel * mmu.pageIndexBits < 64
  absent : mmu.ptePresent 0 = false
  leaf_one : ∀ pte, mmu.pteIsLeaf pte 1 = true
  leaf : ∀ level paddr attr, 1 ≤ level → level ≤ 3 →
    mmu.ptePresent (mmu.leafPte level paddr attr) = true ∧
      mmu.pteIsLeaf (mmu.leafPte level paddr attr) level = true
  decode_leaf : ∀ level paddr attr, 1 ≤ level → level ≤ 3 → mmu.entrySize level ∣ paddr →
    mmu.decodeLeaf level (mmu.leafPte level paddr attr) = paddr % 2 ^ 52
  leaf_prot : ∀ level paddr attr, 1 ≤ level → level ≤ 3 → mmu.entrySize level ∣ paddr →
    mmu.mmuFlagsToProt (mmu.leafPte level paddr attr) level = mmu.protection attr
  protection_idem : ∀ attr, mmu.protection (mmu.protection attr) = mmu.protection attr
  table : ∀ level child attr, 2 ≤ level → mmu.IsFrame child →
    mmu.ptePresent (mmu.tablePte child attr) = true ∧
      mmu.pteIsLeaf (mmu.tablePte child attr) level = false ∧
      mmu.decodePte (mmu.tablePte child attr) = child

end Mmu

namespace X86

def ptePresent : ℕ := 1 <<< 0
def pteWritable : ℕ := 1 <<< 1
def pteUser : ℕ := 1 <<< 2
def ptePwt : ℕ := 1 <<< 3
def ptePcd : ℕ := 1 <<< 4
def ptePs : ℕ := 1 <<< 7
def ptePatHuge : ℕ := 1 <<< 12
def ptePat : ℕ := 1 <<< 7
def pteGlobal : ℕ := 1 <<< 8
def pteNx : ℕ := 1 <<< 63
def pteUc : ℕ := ptePwt ||| ptePcd
def pteWc : ℕ := ptePwt ||| ptePat

def archPteMask : ℕ := 0x000ffffffffff000
def archLargePteMask : ℕ := 0x000fffffffffe000

def protToMmuFlags (config attr : ℕ) : ℕ :=
  ptePresent ||| (if hasFlag attr pageW then pteWritable else 0) |||
    (if hasFlag attr pageU then pteUser else 0) |||
    (if hasFlag attr pageG then pteGlobal else 0) |||
    (if hasFlag attr pageUc then pteUc else 0) |||
    (if hasFlag attr pageWc then pteWc else 0) |||
    (if hasFlag config mmuConfigNx then (if hasFlag attr pageX then 0 else pteNx) else 0)

def largePageFixup (flags : ℕ) : ℕ :=
  (if hasFlag flags ptePat then flags ||| ptePatHuge else flags) ||| ptePs

def mmuFlagsToProt (pte level : ℕ) : ℕ :=
  (if hasFlag pte ptePresent then pageR else 0) |||
    (if hasFlag pte pteWritable then pageW else 0) |||
    (if hasFlag pte pteUser then pageU else 0) |||
    (if hasFlag pte pteNx then 0 else pageX) |||
    (if hasFlag pte pteGlobal then pageG else 0) |||
    (if hasFlag pte ptePwt && hasFlag pte ptePcd then pageUc else 0) |||
    (if hasFlag pte ptePwt && hasFlag pte (if level ≠ 1 then ptePatHuge else ptePat)
      then pageWc else 0)

end X86

def x86_64 (config : ℕ) : Mmu where
  config := config
  pageSizeShift := 12
  pageIndexBits := 9
  ptePresent pte := hasFlag pte X86.ptePresent
  pteIsLeaf pte level := level == 1 || decide (level ≤ 3) && hasFlag pte X86.ptePs
  encodePte paddr flags := (paddr &&& X86.archPteMask) ||| flags
  decodePte pte := pte &&& X86.archPteMask
  decodeLargePte pte := pte &&& X86.archLargePteMask
  intermediateMmuFlags attr :=
    X86.ptePresent ||| X86.pteWritable ||| (if hasFlag attr pageU then X86.pteUser else 0)
  protToMmuFlags := X86.protToMmuFlags config
  largePageFixup := X86.largePageFixup
  mmuFlagsToProt := X86.mmuFlagsToProt

namespace Riscv

def pteV : ℕ := 1 <<< 0
def pteR : ℕ := 1 <<< 1
def pteW : ℕ := 1 <<< 2
def pteX : ℕ := 1 <<< 3
def pteU : ℕ := 1 <<< 4
def pteG : ℕ := 1 <<< 5
def pteA : ℕ := 1 <<< 6
def pteD : ℕ := 1 <<< 7

def archPteMask : ℕ := 0x003fffffffffc00

def protToMmuFlags (attr : ℕ) : ℕ :=
  (pteA ||| pteD ||| pteV ||| pteR) |||
    (if hasFlag attr pageW then pteW ||| pteR else 0) |||
    (if hasFlag attr pageX then pteX else 0) |||
    (if hasFlag attr pageU then pteU else 0) |||
    (if hasFlag attr pageG then pteG else 0)

def mmuFlagsToProt (pte : ℕ) : ℕ :=
  if !hasFlag pte pteV then 0
  else (if hasFlag pte pteR then pageR else 0) |||
    (if hasFlag pte pteW then pageW else 0) |||
    (if hasFlag pte pteX then pageX else 0) |||
    (if hasFlag pte pteU then pageU else 0) |||
    (if hasFlag pte pteG then pageG else 0)

end Riscv

def riscv64 (config : ℕ) : Mmu where
  config := config
  pageSizeShift := 12
  pageIndexBits := 9
  ptePresent pte := hasFlag pte Riscv.pteV
  pteIsLeaf pte level := level == 1 || hasFlag pte (Riscv.pteR ||| Riscv.pteW ||| Riscv.pteX)
  encodePte paddr flags := (paddr >>> 2) ||| flags
  decodePte pte := (pte &&& Riscv.archPteMask) <<< 2
  decodeLargePte pte := (pte &&& Riscv.archPteMask) <<< 2
  intermediateMmuFlags _ := Riscv.pteV
  protToMmuFlags := Riscv.protToMmuFlags
  largePageFixup flags := flags
  mmuFlagsToProt pte _ := Riscv.mmuFlagsToProt pte

/-- What `arch_get_mmu_config` reports under sv39. -/
def sv39Config : ℕ :=
  mmuConfigL2Leaf ||| mmuConfigL3Leaf ||| mmuConfigNx ||| mmuConfig3lvlPaging

def sv39 : Mmu := riscv64 sv39Config

namespace Loongarch

def pteV : ℕ := 1 <<< 0
def pteD : ℕ := 1 <<< 1
def ptePlv0 : ℕ := 0 <<< 2
def ptePlv3 : ℕ := 3 <<< 2
def pteH : ℕ := 1 <<< 6
def pteG : ℕ := 1 <<< 6
def pteGLarge : ℕ := 1 <<< 12
def pteP : ℕ := 1 <<< 7
def pteW : ℕ := 1 <<< 8
def pteNx : ℕ := 1 <<< 62
def pteMatCached : ℕ := 1 <<< 4
def pteMatWeakUncached : ℕ := 2 <<< 4
def pteMatStrongUncached : ℕ := 0 <<< 4

def archPteMask : ℕ := 0x000ffffffffff000
def archLargePteMask : ℕ := 0x000fffffffffe000

def protToMmuFlags (attr : ℕ) : ℕ :=
  (pteV ||| pteP) |||
    (if hasFlag attr pageW then pteW ||| pteD else 0) |||
    (if hasFlag attr pageX then 0 else pteNx) |||
    (if hasFlag attr pageU then ptePlv3 else ptePlv0) |||
    (if hasFlag attr pageG then pteG else 0) |||
    (if hasFlag attr pageUc then pteMatStrongUncached else 0) |||
    (if hasFlag attr pageWc then pteMatWeakUncached else 0) |||
    (if !hasFlag attr (pageUc ||| pageWc) then pteMatCached else 0)

def largePageFixup (flags : ℕ) : ℕ :=
  (if hasFlag flags pteG then flags ||| pteGLarge else flags) ||| pteH

def mmuFlagsToProt (pte level : ℕ) : ℕ :=
  if !hasFlag pte pteV then 0
  else
    let mat := (pte >>> 4) &&& 3
    pageR ||| (if hasFlag pte pteW then pageW else 0) |||
      (if hasFlag pte pteNx then 0 else pageX) |||
      (if (pte >>> 2) &&& 3 != 0 then pageU else 0) |||
      (if hasFlag pte (if level = 1 then pteG else pteGLarge) then pageG else 0) |||
      (if mat = 0 then pageUc else if mat = 2 then pageWc else 0)

/-- The three page sizes the kernel can be configured for. -/
inductive PageSizeConfig where
  | kb4 | kb16 | kb64
  deriving DecidableEq, Repr

def PageSizeConfig.shift : PageSizeConfig → ℕ
  | kb4 => 12
  | kb16 => 14
  | kb64 => 16

def PageSizeConfig.pagingLevels : PageSizeConfig → ℕ
  | kb4 => 4
  | kb16 => 3
  | kb64 => 3

end Loongarch

def loongarch64 (size : Loongarch.PageSizeConfig) (config : ℕ) : Mmu where
  config := config
  pageSizeShift := size.shift
  pageIndexBits := size.shift - 3
  ptePresent pte := pte != 0
  pteIsLeaf pte level := level == 1 || decide (level ≤ 3) && hasFlag pte Loongarch.pteH
  encodePte paddr flags := (paddr &&& Loongarch.archPteMask) ||| flags
  decodePte pte := pte &&& Loongarch.archPteMask
  decodeLargePte pte := pte &&& Loongarch.archLargePteMask
  intermediateMmuFlags _ := 0
  protToMmuFlags := Loongarch.protToMmuFlags
  largePageFixup := Loongarch.largePageFixup
  mmuFlagsToProt := Loongarch.mmuFlagsToProt

theorem hasFlag_or (a b m : ℕ) : hasFlag (a ||| b) m = (hasFlag a m || hasFlag b m) := by
  unfold hasFlag
  rw [Nat.and_or_distrib_right, Bool.eq_iff_iff]
  simp only [bne_iff_ne, ne_eq, Nat.or_eq_zero_iff, Bool.or_eq_true, not_and_or]

variable {m : ℕ}

theorem hasFlag_or_right (h : a &&& m = 0) : hasFlag (a ||| b) m = hasFlag b m := by
  rw [hasFlag_or, hasFlag, h]
  rfl

variable {x : ℕ}

/-- Selecting a bit field of a multiple of its low end reduces modulo its high end. -/
theorem and_field (h : 2 ^ lo ∣ x) : x &&& ((2 ^ n - 1) * 2 ^ lo) = x % 2 ^ (lo + n) := by
  obtain ⟨y, rfl⟩ := h
  apply Nat.eq_of_testBit_eq
  intro i
  rw [Nat.testBit_and, Nat.testBit_mul_two_pow, Nat.testBit_mod_two_pow, Nat.mul_comm,
    Nat.testBit_mul_two_pow, Nat.testBit_two_pow_sub_one]
  by_cases hi : lo ≤ i
  · have hn : i - lo < n ↔ i < lo + n := by omega
    simp [hi, hn, Bool.and_comm]
  · simp [hi]

variable {k : ℕ}

theorem and_eq_zero_of_dvd (h : 2 ^ k ∣ x) (hm : m < 2 ^ k) : x &&& m = 0 := by
  obtain ⟨y, rfl⟩ := h
  apply Nat.eq_of_testBit_eq
  intro i
  rw [Nat.testBit_and, Nat.mul_comm, Nat.testBit_mul_two_pow, Nat.zero_testBit]
  by_cases hi : k ≤ i
  · have hz : m.testBit i = false :=
      Nat.testBit_lt_two_pow (lt_of_lt_of_le hm (Nat.pow_le_pow_right (by norm_num) hi))
    rw [hz, Bool.and_false]
  · simp [hi]

variable {paddr : ℕ}

theorem two_pow_dvd_of_entrySize (h : mmu.entrySize level ∣ paddr) (hk : k ≤ mmu.entryShift level) :
    2 ^ k ∣ paddr := by
  rw [Mmu.entrySize, Nat.one_shiftLeft] at h
  exact dvd_trans (Nat.pow_dvd_pow 2 hk) h

/-! The x86_64 and loongarch64 words are an address field joined with the flags. -/

variable {flags : ℕ}

section Masked

variable {mask large : ℕ} (hm : mask = (2 ^ 40 - 1) * 2 ^ 12) (hl : large = (2 ^ 39 - 1) * 2 ^ 13)

theorem hasFlag_masked (paddr flags : ℕ) (h : mask &&& m = 0) :
    hasFlag ((paddr &&& mask) ||| flags) m = hasFlag flags m :=
  hasFlag_or_right (by rw [Nat.and_assoc, h, Nat.and_zero])

include hm in
theorem hasFlag_masked_large (flags : ℕ) (h : 2 ^ 13 ∣ paddr) :
    hasFlag ((paddr &&& mask) ||| flags) (1 <<< 12) = hasFlag flags (1 <<< 12) := by
  refine hasFlag_or_right ?_
  rw [Nat.and_assoc, hm]
  exact and_eq_zero_of_dvd h (by decide)

include hm in
theorem decode_masked (h : 2 ^ 12 ∣ paddr) (hf : flags &&& mask = 0) :
    ((paddr &&& mask) ||| flags) &&& mask = paddr % 2 ^ 52 := by
  rw [Nat.and_or_distrib_right, hf, Nat.or_zero, Nat.and_assoc, Nat.and_self, hm]
  exact and_field h

include hm hl in
theorem decode_masked_large (h : 2 ^ 13 ∣ paddr) (hf : flags &&& large = 0) :
    ((paddr &&& mask) ||| flags) &&& large = paddr % 2 ^ 52 := by
  have hml : mask &&& large = large := by rw [hm, hl]; decide
  rw [Nat.and_or_distrib_right, hf, Nat.or_zero, Nat.and_assoc, hml, hl]
  exact and_field h

end Masked

namespace X86

theorem prot_encode (flags : ℕ) (h : level ≠ 1 → 2 ^ 13 ∣ paddr) :
    mmuFlagsToProt ((paddr &&& archPteMask) ||| flags) level = mmuFlagsToProt flags level := by
  have hpat : hasFlag ((paddr &&& archPteMask) ||| flags)
      (if level ≠ 1 then ptePatHuge else ptePat) =
      hasFlag flags (if level ≠ 1 then ptePatHuge else ptePat) := by
    by_cases hl : level ≠ 1
    · simp only [if_pos hl]
      exact hasFlag_masked_large (by decide) flags (h hl)
    · rw [if_neg hl]
      exact hasFlag_masked _ _ (by decide)
  unfold mmuFlagsToProt
  rw [hpat, hasFlag_masked _ _ (by decide), hasFlag_masked _ _ (by decide),
    hasFlag_masked _ _ (by decide), hasFlag_masked _ _ (by decide),
    hasFlag_masked _ _ (by decide), hasFlag_masked _ _ (by decide),
    hasFlag_masked _ _ (by decide)]

theorem prot_large (h : level ≠ 1) : mmuFlagsToProt flags level = mmuFlagsToProt flags 2 := by
  simp only [mmuFlagsToProt, if_pos h, if_pos (show (2 : ℕ) ≠ 1 by decide)]

theorem flags_bits (config attr : ℕ) :
    let flags := protToMmuFlags config attr
    let large := largePageFixup flags
    hasFlag flags ptePresent = true ∧ hasFlag large ptePresent = true ∧
      hasFlag large ptePs = true ∧ (flags < word ∧ flags &&& archPteMask = 0) ∧
      (large < word ∧ large &&& archLargePteMask = 0) ∧
      mmuFlagsToProt large 2 = mmuFlagsToProt flags 1 ∧
      mmuFlagsToProt (protToMmuFlags config (mmuFlagsToProt flags 1)) 1 =
        mmuFlagsToProt flags 1 := by
  unfold protToMmuFlags
  generalize hasFlag attr pageW = w, hasFlag attr pageU = u, hasFlag attr pageG = g,
    hasFlag attr pageUc = uc, hasFlag attr pageWc = wc, hasFlag attr pageX = x,
    hasFlag config mmuConfigNx = nx
  revert w u g uc wc x nx
  decide +kernel

theorem intermediate_bits (config attr : ℕ) :
    let flags := (x86_64 config).intermediateMmuFlags attr
    hasFlag flags ptePresent = true ∧ hasFlag flags ptePs = false ∧
      flags < word ∧ flags &&& archPteMask = 0 := by
  simp only [x86_64]
  generalize hasFlag attr pageU = u
  revert u
  decide

end X86

variable {config : ℕ}

theorem x86_64_lawful (h3 : 3 ≤ config &&& 7) (h5 : config &&& 7 ≤ 5) : (x86_64 config).Lawful := by
  have hlarge : ∀ {level paddr : ℕ}, (x86_64 config).entrySize level ∣ paddr → 1 ≤ level →
      level ≠ 1 → 2 ^ 13 ∣ paddr := by
    intro level paddr hd h1 hne
    refine two_pow_dvd_of_entrySize hd ?_
    show 13 ≤ 12 + (level - 1) * 9
    omega
  refine ⟨rfl, le_rfl, h3, ?_, rfl, fun _ => rfl, ?_, ?_, ?_, ?_, ?_⟩
  · show 12 + (config &&& 7) * 9 < 64
    omega
  · intro level paddr attr h1 hl
    obtain ⟨hp, hpl, hps, _⟩ := X86.flags_bits config attr
    by_cases hone : level = 1
    · subst hone
      exact ⟨(hasFlag_masked _ _ (by decide)).trans hp, rfl⟩
    · have hs :=
        (hasFlag_masked paddr _ (show X86.archPteMask &&& X86.ptePs = 0 by decide)).trans hps
      simp only [Mmu.leafPte, Mmu.leafFlags, if_pos hone]
      refine ⟨(hasFlag_masked _ _ (by decide)).trans hpl, ?_⟩
      show (level == 1 || decide (level ≤ 3) && hasFlag _ X86.ptePs) = true
      simp only [hl, decide_true, Bool.true_and, Bool.or_eq_true]
      exact Or.inr hs
  · intro level paddr attr h1 hl hd
    obtain ⟨_, _, _, hz, hzl, _⟩ := X86.flags_bits config attr
    by_cases hone : level = 1
    · subst hone
      exact decode_masked rfl (two_pow_dvd_of_entrySize hd le_rfl) hz.2
    · simp only [Mmu.decodeLeaf, Mmu.leafPte, Mmu.leafFlags, if_pos hone, if_neg hone]
      exact decode_masked_large rfl rfl (hlarge hd h1 hone) hzl.2
  · intro level paddr attr h1 hl hd
    obtain ⟨_, _, _, _, _, hprot, _⟩ := X86.flags_bits config attr
    have he := fun flags => X86.prot_encode flags (hlarge hd h1)
    by_cases hone : level = 1
    · subst hone
      exact he _
    · simp only [Mmu.leafPte, Mmu.leafFlags, if_pos hone]
      exact (he _).trans ((X86.prot_large hone).trans hprot)
  · intro attr
    exact (X86.flags_bits config attr).2.2.2.2.2.2
  · intro level child attr hl hc
    obtain ⟨hp, hps, hz⟩ := X86.intermediate_bits config attr
    refine ⟨(hasFlag_masked _ _ (by decide)).trans hp, ?_, ?_⟩
    · have hs :=
        (hasFlag_masked child _ (show X86.archPteMask &&& X86.ptePs = 0 by decide)).trans hps
      have hne : (level == 1) = false := by simp; omega
      show (level == 1 || decide (level ≤ 3) && hasFlag _ X86.ptePs) = false
      rw [hne, Bool.false_or, Bool.and_eq_false_iff]
      exact Or.inr hs
    · exact (decode_masked rfl hc.aligned hz.2).trans (Nat.mod_eq_of_lt hc.bounded)

namespace Riscv

theorem flags_bits (attr : ℕ) :
    let flags := protToMmuFlags attr
    hasFlag flags pteV = true ∧ hasFlag flags (pteR ||| pteW ||| pteX) = true ∧
      (flags < word ∧ flags &&& archPteMask = 0) ∧
      mmuFlagsToProt (protToMmuFlags (mmuFlagsToProt flags)) = mmuFlagsToProt flags := by
  unfold protToMmuFlags
  generalize hasFlag attr pageW = w, hasFlag attr pageU = u, hasFlag attr pageG = g,
    hasFlag attr pageX = x
  revert w u g x
  decide +kernel

theorem two_pow_dvd_shifted (h : 2 ^ 12 ∣ paddr) : 2 ^ 10 ∣ paddr >>> 2 := by
  rw [Nat.shiftRight_eq_div_pow]
  exact Nat.dvd_div_of_mul_dvd (by simpa using h)

theorem hasFlag_encode (flags : ℕ) (h : 2 ^ 12 ∣ paddr) (hm : m < 2 ^ 10) :
    hasFlag ((paddr >>> 2) ||| flags) m = hasFlag flags m :=
  hasFlag_or_right (and_eq_zero_of_dvd (two_pow_dvd_shifted h) hm)

theorem decode_encode (h : 2 ^ 12 ∣ paddr) (hf : flags &&& archPteMask = 0) :
    (((paddr >>> 2) ||| flags) &&& archPteMask) <<< 2 = paddr % 2 ^ 52 := by
  have hmask : archPteMask = (2 ^ 40 - 1) * 2 ^ 10 := rfl
  rw [Nat.and_or_distrib_right, hf, Nat.or_zero, hmask, and_field (two_pow_dvd_shifted h),
    Nat.shiftRight_eq_div_pow, Nat.shiftLeft_eq]
  omega

end Riscv

theorem riscv64_lawful (h3 : 3 ≤ config &&& 7) (h5 : config &&& 7 ≤ 5) :
    (riscv64 config).Lawful := by
  have hpage : ∀ {level paddr : ℕ}, (riscv64 config).entrySize level ∣ paddr → 2 ^ 12 ∣ paddr :=
    fun hd => two_pow_dvd_of_entrySize hd (Nat.le_add_right 12 _)
  have hflags : ∀ level attr, (riscv64 config).leafFlags level attr = Riscv.protToMmuFlags attr :=
    fun level attr => ite_self _
  have hdecode : ∀ level pte, (riscv64 config).decodeLeaf level pte =
      (pte &&& Riscv.archPteMask) <<< 2 := fun level pte => ite_self _
  refine ⟨rfl, le_rfl, h3, ?_, rfl, fun _ => rfl, ?_, ?_, ?_, ?_, ?_⟩
  · show 12 + (config &&& 7) * 9 < 64
    omega
  · intro level paddr attr h1 hl
    obtain ⟨hv, hleaf, _⟩ := Riscv.flags_bits attr
    rw [Mmu.leafPte, hflags]
    refine ⟨(hasFlag_or _ _ _).trans (by rw [hv, Bool.or_true]), ?_⟩
    show (level == 1 || hasFlag (_ ||| _) _) = true
    rw [hasFlag_or, hleaf, Bool.or_true, Bool.or_true]
  · intro level paddr attr h1 hl hd
    obtain ⟨_, _, hz, _⟩ := Riscv.flags_bits attr
    rw [hdecode, Mmu.leafPte, hflags]
    exact Riscv.decode_encode (hpage hd) hz.2
  · intro level paddr attr h1 hl hd
    have he := fun m (hm : m < 2 ^ 10) =>
      Riscv.hasFlag_encode (Riscv.protToMmuFlags attr) (hpage hd) hm
    rw [Mmu.leafPte, hflags]
    show Riscv.mmuFlagsToProt ((paddr >>> 2) ||| _) = Riscv.mmuFlagsToProt _
    unfold Riscv.mmuFlagsToProt
    rw [he _ (by decide), he _ (by decide), he _ (by decide), he _ (by decide), he _ (by decide),
      he _ (by decide)]
    rfl
  · intro attr
    exact (Riscv.flags_bits attr).2.2.2
  · intro level child attr hl hc
    have hbits : hasFlag Riscv.pteV Riscv.pteV = true ∧ Riscv.pteV &&& Riscv.archPteMask = 0 ∧
        hasFlag Riscv.pteV (Riscv.pteR ||| Riscv.pteW ||| Riscv.pteX) = false := by decide
    refine ⟨(hasFlag_or _ _ _).trans ?_, ?_, ?_⟩
    · rw [show (riscv64 config).intermediateMmuFlags attr = Riscv.pteV from rfl, hbits.1,
        Bool.or_true]
    · have hne : (level == 1) = false := by simp; omega
      have hs := Riscv.hasFlag_encode Riscv.pteV hc.aligned
        (show Riscv.pteR ||| Riscv.pteW ||| Riscv.pteX < 2 ^ 10 by decide)
      show (level == 1 || hasFlag (_ ||| _) _) = false
      rw [hne, Bool.false_or]
      exact hs.trans hbits.2.2
    · exact (Riscv.decode_encode hc.aligned hbits.2.1).trans (Nat.mod_eq_of_lt hc.bounded)

namespace Loongarch

theorem shifted_masked (paddr flags : ℕ) (h : archPteMask &&& (m <<< k) = 0) :
    ((paddr &&& archPteMask) ||| flags) >>> k &&& m = flags >>> k &&& m := by
  have hk : ∀ x, x >>> k &&& m = (x &&& (m <<< k)) >>> k := by
    intro x
    rw [Nat.shiftRight_and_distrib, Nat.shiftLeft_shiftRight]
  rw [hk, hk, Nat.and_or_distrib_right, Nat.and_assoc, h, Nat.and_zero, Nat.zero_or]

theorem prot_encode (flags : ℕ) (h : level ≠ 1 → 2 ^ 13 ∣ paddr) :
    mmuFlagsToProt ((paddr &&& archPteMask) ||| flags) level = mmuFlagsToProt flags level := by
  have hg : hasFlag ((paddr &&& archPteMask) ||| flags) (if level = 1 then pteG else pteGLarge) =
      hasFlag flags (if level = 1 then pteG else pteGLarge) := by
    by_cases hl : level = 1
    · rw [if_pos hl]
      exact hasFlag_masked _ _ (by decide)
    · simp only [if_neg hl]
      exact hasFlag_masked_large (by decide) flags (h hl)
  simp only [mmuFlagsToProt]
  rw [hg, hasFlag_masked _ _ (by decide), hasFlag_masked _ _ (by decide),
    hasFlag_masked _ _ (by decide), shifted_masked _ _ (by decide), shifted_masked _ _ (by decide)]

theorem prot_large (h : level ≠ 1) : mmuFlagsToProt flags level = mmuFlagsToProt flags 2 := by
  simp only [mmuFlagsToProt, if_neg h, if_neg (show ¬ (2 : ℕ) = 1 by decide)]

theorem cacheability (attr : ℕ) :
    hasFlag attr (pageUc ||| pageWc) = (hasFlag attr pageUc || hasFlag attr pageWc) := by
  unfold hasFlag
  rw [Nat.and_or_distrib_left, Bool.eq_iff_iff]
  simp only [bne_iff_ne, ne_eq, Nat.or_eq_zero_iff, Bool.or_eq_true, not_and_or]

theorem flags_bits (attr : ℕ) :
    let flags := protToMmuFlags attr
    let large := largePageFixup flags
    hasFlag flags pteV = true ∧ hasFlag large pteV = true ∧ hasFlag large pteH = true ∧
      (flags < word ∧ flags &&& archPteMask = 0) ∧ (large < word ∧ large &&& archLargePteMask = 0) ∧
      mmuFlagsToProt large 2 = mmuFlagsToProt flags 1 ∧
      mmuFlagsToProt (protToMmuFlags (mmuFlagsToProt flags 1)) 1 = mmuFlagsToProt flags 1 := by
  unfold protToMmuFlags
  rw [cacheability attr]
  generalize hasFlag attr pageW = w, hasFlag attr pageU = u, hasFlag attr pageG = g,
    hasFlag attr pageUc = uc, hasFlag attr pageWc = wc, hasFlag attr pageX = x
  revert w u g uc wc x
  decide +kernel

theorem ne_zero_of_hasFlag (h : hasFlag x m = true) : (x != 0) = true := by
  rw [bne_iff_ne]
  rintro rfl
  simp [hasFlag] at h

end Loongarch

theorem loongarch64_lawful (h : config &&& 7 = size.pagingLevels) :
    (loongarch64 size config).Lawful := by
  have hshift : 12 ≤ size.shift ∧ 3 ≤ size.pagingLevels ∧
      size.shift + size.pagingLevels * (size.shift - 3) < 64 ∧ size.shift - 3 + 3 = size.shift := by
    cases size <;> decide
  have hentry : ∀ level, (loongarch64 size config).entryShift level =
      size.shift + (level - 1) * (size.shift - 3) := fun _ => rfl
  have hpage : ∀ {level paddr : ℕ}, (loongarch64 size config).entrySize level ∣ paddr →
      2 ^ 12 ∣ paddr :=
    fun hd => two_pow_dvd_of_entrySize hd (hshift.1.trans (Nat.le_add_right _ _))
  have hlarge : ∀ {level paddr : ℕ}, (loongarch64 size config).entrySize level ∣ paddr →
      1 ≤ level → level ≠ 1 → 2 ^ 13 ∣ paddr := by
    intro level paddr hd h1 hne
    refine two_pow_dvd_of_entrySize hd ?_
    have hm := Nat.mul_le_mul_right (size.shift - 3) (show 1 ≤ level - 1 by omega)
    rw [hentry]
    omega
  have htop : (loongarch64 size config).topLevel = size.pagingLevels := h
  refine ⟨hshift.2.2.2, hshift.1, htop ▸ hshift.2.1, ?_, rfl, fun _ => rfl, ?_, ?_, ?_, ?_, ?_⟩
  · show size.shift + (config &&& 7) * (size.shift - 3) < 64
    rw [h]
    exact hshift.2.2.1
  · intro level paddr attr h1 hl
    obtain ⟨hv, hvl, hh, _⟩ := Loongarch.flags_bits attr
    have he := fun flags m (hm : Loongarch.archPteMask &&& m = 0) => hasFlag_masked paddr flags hm
    by_cases hone : level = 1
    · subst hone
      exact ⟨Loongarch.ne_zero_of_hasFlag ((he _ _ (by decide)).trans hv), rfl⟩
    · have hs := (he _ Loongarch.pteH (by decide)).trans hh
      simp only [Mmu.leafPte, Mmu.leafFlags, if_pos hone]
      refine ⟨Loongarch.ne_zero_of_hasFlag ((he _ _ (by decide)).trans hvl), ?_⟩
      show (level == 1 || decide (level ≤ 3) && hasFlag _ Loongarch.pteH) = true
      simp only [hl, decide_true, Bool.true_and, Bool.or_eq_true]
      exact Or.inr hs
  · intro level paddr attr h1 hl hd
    obtain ⟨_, _, _, hz, hzl, _⟩ := Loongarch.flags_bits attr
    by_cases hone : level = 1
    · subst hone
      exact decode_masked rfl (hpage hd) hz.2
    · simp only [Mmu.decodeLeaf, Mmu.leafPte, Mmu.leafFlags, if_pos hone, if_neg hone]
      exact decode_masked_large rfl rfl (hlarge hd h1 hone) hzl.2
  · intro level paddr attr h1 hl hd
    obtain ⟨_, _, _, _, _, hprot, _⟩ := Loongarch.flags_bits attr
    have he := fun flags => Loongarch.prot_encode flags (hlarge hd h1)
    by_cases hone : level = 1
    · subst hone
      exact he _
    · simp only [Mmu.leafPte, Mmu.leafFlags, if_pos hone]
      exact (he _).trans ((Loongarch.prot_large hone).trans hprot)
  · intro attr
    exact (Loongarch.flags_bits attr).2.2.2.2.2.2
  · intro level child attr hl hc
    have hdvd : 2 ^ 12 ∣ child := dvd_trans (Nat.pow_dvd_pow 2 hshift.1) hc.aligned
    have hmask : child &&& Loongarch.archPteMask = child :=
      (and_field (n := 40) hdvd).trans (Nat.mod_eq_of_lt hc.bounded)
    have hpte : (loongarch64 size config).tablePte child attr = child := by
      show (child &&& Loongarch.archPteMask) ||| 0 = child
      rw [Nat.or_zero, hmask]
    have hzero : child &&& Loongarch.pteH = 0 := and_eq_zero_of_dvd hdvd (by decide)
    rw [hpte]
    refine ⟨bne_iff_ne.mpr hc.nonzero, ?_, hmask⟩
    · have hne : (level == 1) = false := by simp; omega
      show (level == 1 || decide (level ≤ 3) && (child &&& Loongarch.pteH != 0)) = false
      rw [hne, hzero, bne_self_eq_false, Bool.and_false, Bool.or_false]

end ArchPagingFormats
