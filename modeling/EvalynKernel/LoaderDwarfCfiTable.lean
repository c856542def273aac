import EvalynKernel.DwarfCfiProgram
import EvalynKernel.LoaderDwarfCfiSafety
import EvalynKernel.LoaderDwarfFdeLookup
import EvalynKernel.LoaderDwarfLineDecode

/-! # The interpreter and the table

The interpreter keeps one row, its depth and the rules it remembered are the stack of the call
frame program, and it stops where the row for `pc` is complete. Offsets are words of 64 bits. -/
namespace LoaderDwarfCfiTable

open Function MachineWords ByteScanner DwarfCfiProgram LoaderDwarfHelpers LoaderDwarfFde
open LoaderDwarfCfi LoaderDwarfLineDecode LoaderDwarfFdeLookup

def cfiRule : RegRule → CfiRule
  | .sameValue => .zero
  | .offset n => ⟨.offset, 0, (n % 2 ^ 64).toNat⟩

def cfiCfa (r : CfaRule) : CfiRule :=
  ⟨if r.defined then .offset else .sameValue, r.reg, r.offset⟩

structure Matches (rules : CfiRules) (r : Rules) : Prop where
  cfa : rules.cfa = cfiCfa r.cfa
  regs : ∀ i < dwarfMaxRegs, rules.regs i = cfiRule (r.regs i)

def factors (cie : Cie) : Factors :=
  ⟨cie.codeAlign, if cie.dataAlign < 2 ^ 63 then cie.dataAlign else cie.dataAlign - 2 ^ 64⟩

def baseline (cie : Cie) (opcodesStart : ℕ) (state : CfiState) : ℕ → CfiRule :=
  if cie.opcodesStart = opcodesStart then fun _ => .zero else state.cfiBaseline.regs

structure Agrees (state : CfiState) (m : Machine) : Prop where
  depth : state.depth = m.stack.length
  shallow : m.stack.length < cfiStackDepthMax
  current : Matches (state.rules state.depth) m.rules
  saved : ∀ r, m.stack = [r] → Matches (state.rules 0) r

variable {s : Bytes} {cie : Cie} {state : CfiState} {m : Machine} {rules : CfiRules} {r : Rules}

section Rules

theorem Matches.setReg (h : Matches rules r) (reg : ℕ) (rule : RegRule) :
    Matches { rules with regs := update rules.regs reg (cfiRule rule) }
      (r.setReg reg rule) where
  cfa := h.cfa
  regs i hi := by
    by_cases hreg : i = reg
    · subst hreg
      simp only [Rules.setReg, update_self]
    · simp only [Rules.setReg, update_of_ne hreg]
      exact h.regs i hi

theorem offset_eq (cie : Cie) (v : ℕ) :
    v * cie.dataAlign % word = ((v * (factors cie).data) % 2 ^ 64).toNat := by
  have hcongr : ((v * cie.dataAlign : ℕ) : ℤ) % 2 ^ 64 = (v * (factors cie).data) % 2 ^ 64 := by
    unfold factors
    push_cast
    split
    · rfl
    · rw [mul_sub]
      exact (Int.sub_mul_emod_self_right _ _ _).symm
  have hword := word_eq
  rw [← hcongr, hword]
  omega

section

variable (h : Agrees state m)
include h

theorem Agrees.setRules (hrules : Matches rules r) :
    Agrees { state with rules := update state.rules state.depth rules }
      { m with rules := r } where
  depth := h.depth
  shallow := h.shallow
  current := by
    show Matches (update state.rules state.depth rules state.depth) r
    rw [update_self]
    exact hrules
  saved r' hr' := by
    -- the rules that were remembered are one level below
    have hdepth : state.depth = 1 := by rw [h.depth, show m.stack = [r'] from hr']; rfl
    show Matches (update state.rules state.depth rules 0) r'
    rw [update_of_ne (by omega)]
    exact h.saved r' hr'

theorem Agrees.depth_lt : state.depth < cfiStackDepthMax :=
  h.depth ▸ h.shallow

theorem Agrees.remember (hzero : state.depth = 0) :
    Agrees { state with
        rules := update state.rules (state.depth + 1) (state.rules state.depth)
        depth := state.depth + 1 }
      { m with stack := m.rules :: m.stack } where
  depth := congrArg (· + 1) h.depth
  shallow := by
    have hlength := h.depth
    show m.stack.length + 1 < 2
    omega
  current := by
    show Matches (update state.rules (state.depth + 1) _ (state.depth + 1)) m.rules
    rw [update_self]
    exact h.current
  saved r hr := by
    obtain ⟨rfl, -⟩ := List.cons.inj (show m.rules :: m.stack = r :: [] from hr)
    show Matches (update state.rules (state.depth + 1) (state.rules state.depth) 0) m.rules
    rw [update_of_ne (by omega)]
    exact hzero ▸ h.current

theorem Agrees.restore (hr : m.stack = [r]) :
    Agrees { state with depth := state.depth - 1 } { m with rules := r, stack := [] } where
  depth := by rw [h.depth, hr]; rfl
  shallow := Nat.zero_lt_two
  current := by
    have hone : state.depth = 1 := by rw [h.depth, hr]; rfl
    rw [hone]
    exact h.saved r hr
  saved r' hr' := absurd hr' (List.cons_ne_nil r' []).symm

theorem modify_agrees (hf : f (state.rules state.depth) = .ok rules) (hrules : Matches rules r) :
    ∃ state', state.modify f = .ok state' ∧ Agrees state' { m with rules := r } ∧
      state'.cfiBaseline = state.cfiBaseline := by
  refine ⟨_, ?_, h.setRules hrules, rfl⟩
  rw [CfiState.modify, CfiState.current, fetch_of_lt h.depth_lt, value_bind, hf, value_bind,
    CfiState.setCurrent, store_of_lt h.depth_lt]
  rfl

end

theorem setReg_eq (hreg : reg < dwarfMaxRegs) (rule : CfiRule) :
    rules.setReg reg rule = .ok { rules with regs := update rules.regs reg rule } := by
  rw [CfiRules.setReg, store_of_lt hreg]
  rfl

end Rules

section Opcodes

theorem ofByte_low_bits : ∀ b : UInt8,
    (0x40 ≤ b.toNat → b.toNat < 0x80 →
      Cfa.ofByte b.toNat = some (.advanceLoc (b.toNat - 0x40))) ∧
    (0x80 ≤ b.toNat → b.toNat < 0xC0 → Cfa.ofByte b.toNat = some (.offset (b.toNat - 0x80))) ∧
    (0xC0 ≤ b.toNat → Cfa.ofByte b.toNat = some (.restore (b.toNat - 0xC0))) := by
  have h : ∀ i : Fin 256,
      (0x40 ≤ i.val → i.val < 0x80 → Cfa.ofByte i.val = some (.advanceLoc (i.val - 0x40))) ∧
      (0x80 ≤ i.val → i.val < 0xC0 → Cfa.ofByte i.val = some (.offset (i.val - 0x80))) ∧
      (0xC0 ≤ i.val → Cfa.ofByte i.val = some (.restore (i.val - 0xC0))) := by
    decide +kernel
  exact fun b => h ⟨b.toNat, b.toNat_lt⟩

variable {opcodesStart stop p q : ℕ} (loc cur : ℕ) {op : Op} {ops : List Op} {initial : Rules}
  (hsize : s.size < word) (hstop : stop ≤ s.size)

include hstop

theorem cfiRound_byte (hp : p < stop) (hbyte : Cfa.ofByte (s.byte p).toNat = some c) :
    cfiRound s cie opcodesStart stop loc ⟨p, cur, state⟩ =
      cfiOpcode s cie opcodesStart stop loc c (p + 1) cur state := by
  have hread : read s p = .ok (s.byte p).toNat := read_of_lt (by omega)
  simp only [cfiRound, if_pos hp, hread, value_bind, hbyte]

include hsize

theorem cfiRound_advance (hop : Encodes s (.advanceLoc delta) p q) (hq : q ≤ stop) :
    cfiRound s cie opcodesStart stop loc ⟨p, cur, state⟩ =
      match cfiAdvance cur delta cie.codeAlign loc with
      | none => .ok (.inr state)
      | some cur => .ok (.inl ⟨q, cur, state⟩) := by
  have hbytes : ∀ {c n : ℕ}, (s.byte p).toNat = c → Cfa.ofByte c = some (.advanceLocBytes n) →
      p + 1 + n ≤ stop →
      cfiRound s cie opcodesStart stop loc ⟨p, cur, state⟩ =
        match cfiAdvance cur (leValue s (p + 1) n) cie.codeAlign loc with
        | none => .ok (.inr state)
        | some cur => .ok (.inl ⟨p + 1 + n, cur, state⟩) := by
    intro c n hc hcode hn
    rw [cfiRound_byte loc cur hstop (by omega) (by rw [hc]; exact hcode), cfiOpcode,
      dwarfReadBytes_eq hsize hstop hn, value_bind]
    rfl
  cases hop with
  | advanceLoc hlo hhi =>
    rw [cfiRound_byte loc cur hstop (by omega) ((ofByte_low_bits _).1 hlo hhi)]
    rfl
  | advanceLoc1 hb | advanceLoc2 hb | advanceLoc4 hb => exact hbytes hb rfl hq

omit hsize in
theorem cfiRound_executes (hop : Encodes s op p q) (hq : q ≤ stop) (hadv : op.advances = false)
    (hregs : op.RegsBelow dwarfMaxRegs) (h : Agrees state m)
    (hbase : ∀ i < dwarfMaxRegs, baseline cie opcodesStart state i = cfiRule (initial.regs i))
    (hnested : nested m.stack.length (op :: ops) = true) :
    ∃ state', cfiRound s cie opcodesStart stop loc ⟨p, cur, state⟩ =
        .ok (.inl ⟨q, cur, state'⟩) ∧
      Agrees state' (step (factors cie) initial m op) ∧
      state'.cfiBaseline = state.cfiBaseline := by
  have hlt := hop.lt
  -- what is left of an opcode once its operands are read
  have hmodify : ∀ (f : CfiRules → Scan CfiRules) {rules : CfiRules} {r : Rules} {c : Cfa},
      Cfa.ofByte (s.byte p).toNat = some c →
      cfiOpcode s cie opcodesStart stop loc c (p + 1) cur state =
        (do return .inl ⟨q, cur, ← state.modify f⟩) →
      f (state.rules state.depth) = .ok rules → Matches rules r →
      ∃ state', cfiRound s cie opcodesStart stop loc ⟨p, cur, state⟩ =
          .ok (.inl ⟨q, cur, state'⟩) ∧
        Agrees state' { m with rules := r } ∧ state'.cfiBaseline = state.cfiBaseline := by
    intro f rules r c hbyte hopcode hf hrules
    obtain ⟨state', hstate, hagrees, hbaseline⟩ := modify_agrees h hf hrules
    refine ⟨state', ?_, hagrees, hbaseline⟩
    rw [cfiRound_byte loc cur hstop (by omega) hbyte, hopcode, hstate]
    rfl
  cases hop with
  | advanceLoc | advanceLoc1 | advanceLoc2 | advanceLoc4 => cases hadv
  | @offset _ _ v hlo hhi hv =>
    have hreg : (s.byte p).toNat - 0x80 < dwarfMaxRegs := hregs
    refine hmodify (fun rules => do
      let r ← fetch dwarfMaxRegs rules.regs ((s.byte p).toNat - 0x80)
      rules.setReg ((s.byte p).toNat - 0x80)
        { r with kind := .offset, offset := v * cie.dataAlign % word })
      ((ofByte_low_bits _).2.1 hlo hhi) ?_ ?_ (h.current.setReg _ _)
    · simp only [cfiOpcode, dwarfReadUleb_eq hstop hv hq, value_bind, if_pos hreg]
    · simp only [fetch_of_lt hreg, value_bind, setReg_eq hreg, h.current.regs _ hreg, offset_eq]
      cases m.rules.regs ((s.byte p).toNat - 0x80) with
      | sameValue | offset n => rfl
  | restore hlo =>
    have hreg : (s.byte p).toNat - 0xC0 < dwarfMaxRegs := hregs
    refine hmodify (fun rules =>
      if cie.opcodesStart = opcodesStart then rules.setReg ((s.byte p).toNat - 0xC0) .zero
      else fetch dwarfMaxRegs state.cfiBaseline.regs ((s.byte p).toNat - 0xC0) >>=
        rules.setReg ((s.byte p).toNat - 0xC0))
      ((ofByte_low_bits _).2.2 hlo) ?_ ?_ (h.current.setReg _ _)
    · simp only [cfiOpcode, ge_iff_le, if_neg (Nat.not_le.2 hreg)]
    · rw [← hbase _ hreg, baseline]
      simp only [fetch_of_lt hreg, value_bind, setReg_eq hreg]
      split
      · rfl
      · rfl
  | nop hb =>
    rw [cfiRound_byte loc cur hstop (by omega) (by rw [hb]; rfl)]
    exact ⟨state, rfl, h, rfl⟩
  | rememberState hb =>
    rw [cfiRound_byte loc cur hstop (by omega) (by rw [hb]; rfl)]
    simp only [nested, Bool.and_eq_true, beq_iff_eq] at hnested
    have hzero : state.depth = 0 := h.depth.trans hnested.1
    have hroom : state.depth + 1 < cfiStackDepthMax := by rw [hzero]; decide
    refine ⟨_, ?_, h.remember hzero, ?_⟩
    · rw [cfiOpcode, require_of hroom, value_bind, CfiState.current, fetch_of_lt h.depth_lt,
        value_bind, store_of_lt hroom]
      rfl
    · rfl
  | restoreState hb =>
    rw [cfiRound_byte loc cur hstop (by omega) (by rw [hb]; rfl)]
    simp only [nested, Bool.and_eq_true, beq_iff_eq] at hnested
    obtain ⟨r, hr⟩ := List.length_eq_one_iff.1 hnested.1
    have hone : state.depth = 1 := h.depth.trans hnested.1
    refine ⟨{ state with depth := state.depth - 1 }, ?_, ?_, rfl⟩
    · rw [cfiOpcode, require_of (by omega)]
      rfl
    · rw [step, hr]
      exact h.restore hr
  | @defCfa _ _ _ reg offset hb hreg hoffset =>
    have hmid := hoffset.lt
    have hlt : reg < dwarfMaxRegs := hregs
    refine hmodify (fun rules => return { rules with cfa := ⟨.offset, reg, offset⟩ })
      (by rw [hb]; rfl) ?_ rfl ⟨rfl, h.current.regs⟩
    simp only [cfiOpcode, dwarfReadUleb_eq hstop hreg (by omega), value_bind,
      dwarfReadUleb_eq hstop hoffset hq, require_of hlt]
  | @defCfaRegister _ _ reg hb hreg =>
    have hlt : reg < dwarfMaxRegs := hregs
    refine hmodify (fun rules => return { rules with cfa := { rules.cfa with regNum := reg } })
      (by rw [hb]; rfl) ?_ rfl ⟨?_, h.current.regs⟩
    · simp only [cfiOpcode, dwarfReadUleb_eq hstop hreg hq, value_bind, require_of hlt]
    · simp only [h.current.cfa, cfiCfa]
  | @defCfaOffset _ _ offset hb hoffset =>
    refine hmodify (fun rules => return { rules with cfa := { rules.cfa with offset } })
      (by rw [hb]; rfl) ?_ rfl ⟨?_, h.current.regs⟩
    · simp only [cfiOpcode, dwarfReadUleb_eq hstop hoffset hq, value_bind]
    · simp only [h.current.cfa, cfiCfa]

end Opcodes

section Execution

variable {opcodesStart stop p loc cur base : ℕ} {op : Op} {ops : List Op} {initial : Rules}
  (hsize : s.size < word) (hstop : stop ≤ s.size)

theorem cfiAdvance_eq (h : base + (cur + delta * codeAlign) < word) :
    cfiAdvance cur delta codeAlign loc =
      if base + loc < base + (cur + delta * codeAlign) then none
      else some (cur + delta * codeAlign) := by
  rw [cfiAdvance, wadd_of_lt (by omega)]
  simp only [gt_iff_lt, Nat.add_lt_add_iff_left]

include hsize hstop

theorem loop_runTo (base : ℕ) (hprogram : Program s ops p stop)
    (hregs : ∀ op ∈ ops, op.RegsBelow dwarfMaxRegs) (h : Agrees state m)
    (hbase : ∀ i < dwarfMaxRegs, baseline cie opcodesStart state i = cfiRule (initial.regs i))
    (hnested : nested m.stack.length ops = true) (hlocation : m.location = base + cur)
    (hcur : cur ≤ loc) (hwrap : ∀ r ∈ rows (factors cie) initial m ops, r.location < word)
    (hn : stop - p < n) :
    ∃ state', loop (cfiRound s cie opcodesStart stop loc) n ⟨p, cur, state⟩ = .ok state' ∧
      Agrees state' (runTo (factors cie) initial (base + loc) m ops) := by
  induction hprogram generalizing n cur state m with
  | nil =>
    obtain ⟨n, rfl⟩ : ∃ k, n = k + 1 := ⟨n - 1, by omega⟩
    exact ⟨state, loop_succ_of_done (if_neg (Nat.lt_irrefl _)), h⟩
  | @cons op ops p q stop hop htail ih =>
    obtain ⟨n, rfl⟩ : ∃ k, n = k + 1 := ⟨n - 1, by omega⟩
    have hlt := hop.lt
    have hq := htail.le
    have hops := fun op' hmem => hregs op' (List.mem_cons_of_mem op hmem)
    have hnext : nested (step (factors cie) initial m op).stack.length ops = true :=
      nested_step hnested
    have hrest : ∀ r ∈ rows (factors cie) initial (step (factors cie) initial m op) ops,
        r.location < word := fun r hr => hwrap r (List.mem_append_right _ hr)
    rw [runTo]
    cases hadv : op.advances with
    | false =>
      have hsame : (step (factors cie) initial m op).location = m.location := step_location hadv
      obtain ⟨state', hround, hagrees, hbaseline⟩ := cfiRound_executes loc cur hstop hop hq hadv
        (hregs op List.mem_cons_self) h hbase hnested
      rw [loop_succ_of_passes hround, if_neg (by omega)]
      apply ih hstop hops hagrees _ hnext (hsame.trans hlocation) hcur hrest (by omega)
      rw [baseline, hbaseline]
      exact hbase
    | true =>
      cases op with
      | advanceLoc delta =>
        have hnew : (step (factors cie) initial m (.advanceLoc delta)).location =
            base + (cur + delta * cie.codeAlign) := by
          rw [← Nat.add_assoc, ← hlocation]
          rfl
        have hfit : base + (cur + delta * cie.codeAlign) < word := by
          obtain ⟨r, hr, hfirst⟩ := exists_mem_rows
          rw [← hnew, ← hfirst]
          exact hrest r hr
        have hround : cfiRound s cie opcodesStart stop loc ⟨p, cur, state⟩ = _ :=
          cfiRound_advance loc cur hsize hstop hop hq
        rw [cfiAdvance_eq hfit] at hround
        by_cases hpast : base + loc < base + (cur + delta * cie.codeAlign)
        · rw [if_pos hpast] at hround
          rw [if_pos (by rw [hnew]; exact hpast)]
          exact ⟨state, loop_succ_of_done hround, h⟩
        · rw [if_neg hpast] at hround
          rw [if_neg (by rw [hnew]; exact hpast), loop_succ_of_passes hround]
          have hagrees : Agrees state (step (factors cie) initial m (.advanceLoc delta)) :=
            ⟨h.depth, h.shallow, h.current, h.saved⟩
          exact ih hstop hops hagrees hbase hnext hnew (by omega) hrest (by omega)
      | _ => cases hadv

end Execution

section Lookup

variable {es before after : List Entry} {e : Entry} {pc : ℕ} {cieOps fdeOps : List Op}

theorem agrees_reset (state : CfiState) (cie : Cie) (location : ℕ) :
    Agrees (state.reset cie) ⟨⟨location, .initial⟩, []⟩ where
  depth := rfl
  shallow := Nat.zero_lt_two
  current := ⟨rfl, fun _ _ => rfl⟩
  saved r hr := absurd hr (List.cons_ne_nil r []).symm

theorem freshCie_opcodes (hc : EntryAt s c) (hstop : c.stop ≤ s.size)
    (h : freshCie s c.start = .ok cie) :
    c.start + 8 < cie.opcodesStart ∧ cie.opcodesEnd = c.stop := by
  have hroom := hc.room
  have hlength := hc.length
  have hsound : Sound (freshCie s c.start) fun cie =>
      c.start + 8 < cie.opcodesStart ∧ cie.opcodesEnd = c.stop := by
    refine (dwarfDecodeCie_opcodes blankCie (by omega) (by omega)).bind fun cie hcie => ?_
    exact ⟨hcie.1, hcie.2.trans hlength⟩
  exact hsound.value h

theorem opcodesStart_ne (h : WellFormed s es) (he : e ∈ es) (hcovers : Covers s pc e cie)
    (hle : cie.opcodesStart ≤ cie.opcodesEnd) :
    cie.opcodesEnd ≤ s.size ∧ cie.opcodesStart ≠ (e.fde s cie).opcodesStart := by
  obtain ⟨c, hc, hstart, hcid⟩ := h.cies e he hcovers.isFde
  obtain ⟨own, hown, hfields⟩ := h.fdes e he hcovers.isFde
  obtain rfl : own = cie := Except.ok.inj (hown.symm.trans hcovers.own)
  obtain ⟨hat, -, hstop⟩ := h.entries.of_mem hc
  rw [← hstart] at hown
  obtain ⟨hlo, hhi⟩ := freshCie_opcodes hat hstop hown
  have hne : e ≠ c := by
    rintro rfl
    exact hcovers.isFde hcid
  refine ⟨by omega, fun heq => ?_⟩
  have hfde : (e.fde s own).opcodesStart = e.start + 8 + own.segSize + 2 * own.addrSize := rfl
  rcases h.entries.apart he hc hne with hapart | hapart
  · omega
  · omega

theorem cie_executed (hsize : s.size < word) (hstop : cie.opcodesEnd ≤ s.size)
    (hcie : Program s cieOps cie.opcodesStart cie.opcodesEnd)
    (hregs : ∀ op ∈ cieOps, op.RegsBelow dwarfMaxRegs) (hnested : nested 0 cieOps = true)
    (hadvance : ∀ op ∈ cieOps, op.advances = false) (hlocation : location < word)
    (initial : CfiState) :
    ∃ left, dwarfCfiExecute s cie cie.opcodesStart cie.opcodesEnd 0 (initial.reset cie) =
        .ok left ∧ Agrees left (afterCie (factors cie) cieOps location) := by
  have hbase : ∀ i < dwarfMaxRegs, baseline cie cie.opcodesStart (initial.reset cie) i =
      cfiRule (Rules.initial.regs i) := by
    intro i _
    rw [baseline, if_pos rfl]
    rfl
  have hwrap : ∀ r ∈ rows (factors cie) .initial ⟨⟨location, .initial⟩, []⟩ cieOps,
      r.location < word := by
    intro r hr
    rw [rows_eq_singleton hadvance] at hr
    rw [List.mem_singleton.1 hr, foldl_location hadvance]
    exact hlocation
  obtain ⟨left, hleft, hagrees⟩ := loop_runTo hsize hstop location hcie hregs
    (agrees_reset initial cie location) hbase hnested rfl (Nat.le_refl 0) hwrap
    (Nat.lt_succ_self _)
  rw [Nat.add_zero, runTo_eq_foldl hadvance (Nat.le_refl location)] at hagrees
  exact ⟨left, hleft, hagrees⟩

theorem Agrees.saveBaseline (h : Agrees state m) :
    ∃ state', state.saveBaseline = .ok state' ∧ Agrees state' m ∧
      ∀ i < dwarfMaxRegs, state'.cfiBaseline.regs i = cfiRule (m.rules.regs i) := by
  refine ⟨{ state with cfiBaseline := state.rules state.depth }, ?_, ?_, h.current.regs⟩
  · rw [CfiState.saveBaseline, CfiState.current, fetch_of_lt h.depth_lt]
    rfl
  · exact ⟨h.depth, h.shallow, h.current, h.saved⟩

/-- The interpreter leaves the row for `pc` of the table that the CIE's and the FDE's
instructions make, where `e` is the first FDE for `pc`. -/
theorem cfi_row_correct (hsize : s.size < word) (h : WellFormed s es) (hpc : pc < word)
    (hes : es = before ++ e :: after) (hbefore : ∀ e' ∈ before, ∀ cie', ¬ Covers s pc e' cie')
    (hcovers : Covers s pc e cie)
    (hcie : Program s cieOps cie.opcodesStart cie.opcodesEnd)
    (hfde : Program s fdeOps (e.fde s cie).opcodesStart (e.fde s cie).opcodesEnd)
    (hregs : ∀ op ∈ cieOps ++ fdeOps, op.RegsBelow dwarfMaxRegs)
    (hnested : nested 0 (cieOps ++ fdeOps) = true)
    (hadvance : ∀ op ∈ cieOps, op.advances = false)
    (hwrap : ∀ row ∈ table (factors cie) cieOps fdeOps (e.initialLocation s cie),
      row.location < word)
    (cie₀ : Cie) (initial : CfiState) :
    ∃ state row, dwarfCfi s pc cie₀ initial = .ok state ∧
      rowAt (table (factors cie) cieOps fdeOps (e.initialLocation s cie)) pc = some row ∧
      (∀ row' ∈ table (factors cie) cieOps fdeOps (e.initialLocation s cie),
        row'.location ≤ pc → row'.location ≤ row.location) ∧
      Matches (state.rules state.depth) row.rules := by
  have he : e ∈ es := hes ▸ List.mem_append_right _ List.mem_cons_self
  have hfound := (dwarfGetFde_eq_ok hsize h pc cie₀).2
    ⟨before, e, after, hes, hcovers, rfl, hbefore⟩
  obtain ⟨hcieEnd, hne⟩ := opcodesStart_ne h he hcovers hcie.le
  have hfdeEnd : (e.fde s cie).opcodesEnd ≤ s.size := (h.entries.of_mem he).2.2
  have hlocation : (afterCie (factors cie) cieOps (e.initialLocation s cie)).location =
      e.initialLocation s cie := foldl_location hadvance
  have hinitial : e.initialLocation s cie < word := by
    obtain ⟨row, hrow, hfirst⟩ := exists_mem_rows
    rw [← hlocation, ← hfirst]
    exact hwrap row hrow
  obtain ⟨left, hleft, hafter⟩ := cie_executed hsize hcieEnd hcie
    (fun op hop => hregs op (List.mem_append_left _ hop)) (nested_of_append hnested) hadvance
    hinitial initial
  obtain ⟨saved, hsaved, hagrees, hbaseline⟩ := hafter.saveBaseline
  have hbase : ∀ i < dwarfMaxRegs, baseline cie (e.fde s cie).opcodesStart saved i =
      cfiRule ((afterCie (factors cie) cieOps (e.initialLocation s cie)).rules.regs i) := by
    rw [baseline, if_neg hne]
    exact hbaseline
  obtain ⟨state, hstate, hrow⟩ := loop_runTo hsize hfdeEnd (e.initialLocation s cie)
    hfde (fun op hop => hregs op (List.mem_append_right _ hop)) hagrees hbase
    (nested_foldl hnested) hlocation (Nat.zero_le (pc - e.initialLocation s cie)) hwrap
    (Nat.lt_succ_self _)
  rw [Nat.add_sub_of_le hcovers.le] at hrow
  have hle : (afterCie (factors cie) cieOps (e.initialLocation s cie)).location ≤ pc :=
    hlocation.trans_le hcovers.le
  refine ⟨state, _, ?_, rowAt_rows hle, fun row' => le_runTo hle, hrow.current⟩
  have htarget : wsub pc (e.fde s cie).initialLocation = pc - e.initialLocation s cie :=
    wsub_of_le hcovers.le hpc
  simp only [dwarfCfi, hfound, value_bind, hleft, hsaved, htarget]
  exact hstate

end Lookup

/-- A CIE with the CFA at register 7 plus 8, and an FDE at `0x1000` that moves it to register 7
plus 16 and saves register 3, remembers that, restores register 3 and takes that back. -/
def remembered : Bytes := Bytes.ofList
  [16, 0, 0, 0, 0xff, 0xff, 0xff, 0xff, 4, 0, 8, 0, 1, 0x78, 16, 0x0c, 7, 8, 0x90, 1,
    31, 0, 0, 0, 0, 0, 0, 0, 0, 0x10, 0, 0, 0, 0, 0, 0, 0, 1, 0, 0, 0, 0, 0, 0,
    0x41, 0x0e, 16, 0x83, 2, 0x0a, 0x42, 0xc3, 0x02, 4, 0x0b]

def rememberedEntries : List Entry := [⟨0, 20, uint32Max⟩, ⟨20, 55, 0⟩]

def rememberedCie : Cie := ⟨true, false, 0, 1, word - 8, 16, 8, 0, 15, 20⟩

def rememberedOps : List Op := [.advanceLoc 1, .defCfaOffset 16, .offset 3 2, .rememberState,
  .advanceLoc 2, .restore 3, .advanceLoc 4, .restoreState]

theorem remembered_wellFormed : WellFormed remembered rememberedEntries where
  entries :=
    .cons ⟨by decide, by decide, by decide, by decide⟩ <|
    .cons ⟨by decide, by decide, by decide, by decide⟩ .nil
  cies := by decide
  fdes := by
    intro e he hid
    simp only [rememberedEntries, List.mem_cons, List.not_mem_nil, or_false] at he
    rcases he with rfl | rfl
    · exact absurd rfl hid
    · exact ⟨rememberedCie, by decide +kernel, by decide⟩

theorem remembered_cie : Program remembered [.defCfa 7 8, .offset 16 1] 15 20 := by
  refine .cons (.defCfa (p := 15) (by decide) (.byte (p := 16) (by decide))
    (.byte (p := 17) (by decide))) ?_
  exact .cons (.offset (p := 18) (by decide) (by decide) (.byte (p := 19) (by decide))) .nil

theorem remembered_fde : Program remembered rememberedOps 44 55 := by
  refine .cons (.advanceLoc (p := 44) (by decide) (by decide)) ?_
  refine .cons (.defCfaOffset (p := 45) (by decide) (.byte (p := 46) (by decide))) ?_
  refine .cons (.offset (p := 47) (by decide) (by decide) (.byte (p := 48) (by decide))) ?_
  refine .cons (.rememberState (p := 49) (by decide)) ?_
  refine .cons (.advanceLoc (p := 50) (by decide) (by decide)) ?_
  refine .cons (.restore (p := 51) (by decide)) ?_
  refine .cons (.advanceLoc1 (p := 52) (by decide)) ?_
  exact .cons (.restoreState (p := 54) (by decide)) .nil

theorem remembered_row :
    ∃ state row, dwarfCfi remembered 0x1010 blankCie LoaderDwarfCfiSafety.anyState = .ok state ∧
      rowAt (table (factors rememberedCie) [.defCfa 7 8, .offset 16 1] rememberedOps 0x1000)
        0x1010 = some row ∧
      Matches (state.rules state.depth) row.rules := by
  have hcovers : Covers remembered 0x1010 ⟨20, 55, 0⟩ rememberedCie :=
    ⟨by decide, by decide +kernel, by decide, by decide, by decide⟩
  have hentries : rememberedEntries = [⟨0, 20, uint32Max⟩] ++ ⟨20, 55, 0⟩ :: [] := rfl
  have hbefore : ∀ e ∈ [Entry.mk 0 20 uint32Max], ∀ cie, ¬ Covers remembered 0x1010 e cie := by
    intro e he cie hcie
    exact hcie.isFde (by rw [List.mem_singleton.1 he])
  obtain ⟨state, row, hstate, hrow, -, hmatches⟩ := cfi_row_correct (by decide)
    remembered_wellFormed (by decide) hentries hbefore hcovers remembered_cie remembered_fde
    (by decide) (by decide) (by decide) (by decide) blankCie LoaderDwarfCfiSafety.anyState
  exact ⟨state, row, hstate, hrow, hmatches⟩

end LoaderDwarfCfiTable
