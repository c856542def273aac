import EvalynKernel.LoaderDwarfCfi

/-! # The unwinder on any section

One invariant of the state carries the argument: the depth is inside the stack, and every
level of the stack has a register of the file for its CFA. It holds after the reset, whatever
the state was, and every opcode keeps it. -/
namespace LoaderDwarfCfiSafety

open MachineWords ByteScanner LoaderDwarfHelpers LoaderDwarfFde LoaderDwarfCfi

structure Bounded (state : CfiState) : Prop where
  depth : state.depth < cfiStackDepthMax
  cfa : ∀ d < cfiStackDepthMax, (state.rules d).cfa.regNum < dwarfMaxRegs

theorem bounded_reset (state : CfiState) (cie : Cie) : Bounded (state.reset cie) where
  depth := Nat.zero_lt_two
  cfa _ _ := Nat.zero_lt_succ 31

variable {state : CfiState}

theorem current_eq (h : Bounded state) : state.current = .ok (state.rules state.depth) :=
  fetch_of_lt h.depth

variable {rules : CfiRules}

theorem Bounded.update (h : Bounded state) (hrules : rules.cfa.regNum < dwarfMaxRegs) :
    ∀ i < cfiStackDepthMax, (Function.update state.rules d rules i).cfa.regNum < dwarfMaxRegs := by
  intro i hi
  by_cases hid : i = d
  · rw [hid, Function.update_self]
    exact hrules
  · rw [Function.update_of_ne hid]
    exact h.cfa i hi

theorem modify_returns (h : Bounded state)
    (hf : ∀ rules, rules.cfa.regNum < dwarfMaxRegs →
      Returns (f rules) fun rules => rules.cfa.regNum < dwarfMaxRegs) :
    Returns (state.modify f) Bounded := by
  unfold CfiState.modify
  rw [current_eq h, value_bind]
  refine (hf _ (h.cfa _ h.depth)).bind fun rules hrules => ?_
  unfold CfiState.setCurrent
  rw [store_of_lt h.depth, value_bind]
  exact ⟨h.depth, h.update hrules⟩

theorem setReg_returns (hreg : reg < dwarfMaxRegs) (hrules : rules.cfa.regNum < dwarfMaxRegs)
    (rule : CfiRule) :
    Returns (rules.setReg reg rule) fun rules => rules.cfa.regNum < dwarfMaxRegs := by
  unfold CfiRules.setReg
  rw [store_of_lt hreg, value_bind]
  exact hrules

section Interpreter

variable {s : Bytes} (hsize : s.size < word) (cie : Cie) (opcodesStart : ℕ) {stop : ℕ}
  (hstop : stop ≤ s.size) (loc : ℕ)

def Continues (p : ℕ) : CfiLoop ⊕ CfiState → Prop :=
  Keeps (fun l => p ≤ l.p ∧ Bounded l.state) Bounded

include hsize hstop

theorem cfiOpcode_sound (op : Cfa) (hp : p ≤ stop) (cur : ℕ) (h : Bounded state) :
    Sound (cfiOpcode s cie opcodesStart stop loc op p cur state) (Continues p) := by
  cases op with
  | advanceLoc delta =>
    unfold cfiOpcode
    simp only
    split
    · exact h
    · exact ⟨Nat.le_refl p, h⟩
  | advanceLocBytes bytes =>
    refine (dwarfReadBytes_sound hstop hsize hp).bind fun r hr => ?_
    have hq : p ≤ r.2 := by omega
    dsimp only
    split
    · exact h
    · exact ⟨hq, h⟩
  | restore reg =>
    unfold cfiOpcode
    simp only
    split
    · exact ⟨Nat.le_refl p, h⟩
    · rename_i hreg
      refine (modify_returns h fun rules hrules => ?_).bind fun state hstate =>
        ⟨Nat.le_refl p, hstate⟩
      split
      · exact setReg_returns (by omega) hrules _
      · rw [fetch_of_lt (by omega), value_bind]
        exact setReg_returns (by omega) hrules _
  | rememberState =>
    refine (require_sound _).bind fun _ hroom => ?_
    rw [current_eq h, value_bind, store_of_lt hroom, value_bind]
    exact ⟨Nat.le_refl p, hroom, h.update (h.cfa _ h.depth)⟩
  | restoreState =>
    refine (require_sound _).bind fun _ hdepth => ?_
    refine ⟨Nat.le_refl p, ?_, h.cfa⟩
    have := h.depth
    show state.depth - 1 < cfiStackDepthMax
    omega
  | offset reg =>
    refine (dwarfReadUleb_sound hstop).bind fun r hr => ?_
    have hle := Nat.le_of_lt hr.1
    simp only
    split
    · rename_i hreg
      refine (modify_returns h fun rules hrules => ?_).bind fun state hstate => ⟨hle, hstate⟩
      rw [fetch_of_lt hreg, value_bind]
      exact setReg_returns hreg hrules _
    · exact ⟨hle, h⟩
  | defCfa =>
    refine (dwarfReadUleb_sound hstop).bind fun r hr => ?_
    refine (dwarfReadUleb_sound hstop).bind fun r' hr' => (require_sound _).bind fun _ hreg => ?_
    have hle := Nat.le_of_lt (hr.1.trans hr'.1)
    refine (modify_returns h fun rules _ => ?_).bind fun state hstate => ⟨hle, hstate⟩
    exact hreg
  | defCfaRegister =>
    refine (dwarfReadUleb_sound hstop).bind fun r hr => (require_sound _).bind fun _ hreg => ?_
    have hle := Nat.le_of_lt hr.1
    refine (modify_returns h fun rules _ => ?_).bind fun state hstate => ⟨hle, hstate⟩
    exact hreg
  | defCfaOffset =>
    refine (dwarfReadUleb_sound hstop).bind fun r hr => ?_
    have hle := Nat.le_of_lt hr.1
    refine (modify_returns h fun rules hrules => ?_).bind fun state hstate => ⟨hle, hstate⟩
    exact hrules
  | nop => exact ⟨Nat.le_refl p, h⟩

theorem cfiRound_sound (l : CfiLoop) (h : Bounded l.state) :
    Sound (cfiRound s cie opcodesStart stop loc l)
      (Progress (fun l => Bounded l.state) (fun l => stop - l.p) Bounded l) := by
  unfold cfiRound
  split
  · rename_i hp
    rw [read_of_lt (by omega), value_bind]
    split
    · refine (cfiOpcode_sound hsize cie opcodesStart hstop loc _ hp l.cur h).imp fun r hr => ?_
      cases r with
      | inr state => exact hr
      | inl next =>
        have := hr.1
        exact ⟨hr.2, by show stop - next.p < stop - l.p; omega⟩
    · exact Sound.reject
  · exact h

theorem dwarfCfiExecute_sound (h : Bounded state) :
    Sound (dwarfCfiExecute s cie opcodesStart stop loc state) Bounded :=
  loop_ends (fun l hl => cfiRound_sound hsize cie opcodesStart hstop loc l hl) h
    (Nat.lt_succ_self _)

theorem steps_bounded (h : Bounded state)
    (hl : Relation.ReflTransGen (Passes (cfiRound s cie opcodesStart stop loc)) ⟨opcodesStart, 0,
      state⟩ l) : Bounded l.state := by
  induction hl with
  | refl => exact h
  | tail _ hpass ih => exact ((cfiRound_sound hsize cie opcodesStart hstop loc _ ih).value hpass).1

end Interpreter

inductive Through (s : Bytes) (pc : ℕ) (cie₀ : Cie) (initial : CfiState) : CfiState → Prop where
  | cie {fde : Fde} {cie : Cie} {l : CfiLoop} :
      dwarfGetFde s pc cie₀ = .ok (fde, cie) →
      Relation.ReflTransGen (Passes (cfiRound s cie cie.opcodesStart cie.opcodesEnd 0))
        ⟨cie.opcodesStart, 0, initial.reset cie⟩ l →
      Through s pc cie₀ initial l.state
  | fde {fde : Fde} {cie : Cie} {left state : CfiState} {l : CfiLoop} :
      dwarfGetFde s pc cie₀ = .ok (fde, cie) →
      dwarfCfiExecute s cie cie.opcodesStart cie.opcodesEnd 0 (initial.reset cie) = .ok left →
      left.saveBaseline = .ok state →
      Relation.ReflTransGen (Passes (cfiRound s cie fde.opcodesStart fde.opcodesEnd
        (wsub pc fde.initialLocation))) ⟨fde.opcodesStart, 0, state⟩ l →
      Through s pc cie₀ initial l.state

theorem saveBaseline_returns (h : Bounded state) : Returns state.saveBaseline Bounded := by
  unfold CfiState.saveBaseline
  rw [current_eq h, value_bind]
  exact ⟨h.depth, h.cfa⟩

section Run

variable {s : Bytes} (hsize : s.size < word) (pc : ℕ) (cie : Cie) (initial : CfiState)
include hsize

theorem cie_bounded (h : dwarfGetFde s pc cie = .ok (fde, c)) :
    Sound (dwarfCfiExecute s c c.opcodesStart c.opcodesEnd 0 (initial.reset c)) Bounded :=
  dwarfCfiExecute_sound hsize c c.opcodesStart ((dwarfGetFde_sound hsize pc cie).value h).2 0
    (bounded_reset initial c)

theorem dwarfCfi_sound : Sound (dwarfCfi s pc cie initial) Bounded := by
  refine (dwarfGetFde_sound hsize pc cie).bind fun ⟨fde, c⟩ hfound => ?_
  refine (dwarfCfiExecute_sound hsize c _ hfound.2 0 (bounded_reset initial c)).bind
    fun left hleft => ?_
  refine (saveBaseline_returns hleft).bind fun state hstate => ?_
  exact dwarfCfiExecute_sound hsize c _ hfound.1 _ hstate

theorem through_bounded (h : Through s pc cie initial state) : Bounded state := by
  cases h with
  | cie hfde hl =>
    have hfound := (dwarfGetFde_sound hsize pc cie).value hfde
    exact steps_bounded hsize _ _ hfound.2 0 (bounded_reset initial _) hl
  | fde hfde hleft hsave hl =>
    have hfound := (dwarfGetFde_sound hsize pc cie).value hfde
    have hbounded := (cie_bounded hsize pc cie initial hfde).value hleft
    exact steps_bounded hsize _ _ hfound.1 _ ((saveBaseline_returns hbounded).value hsave) hl

end Run

section Resolve

variable (load : ℕ → Option ℕ) (arch : Arch)

theorem resolveReg_sound (rules : CfiRules) (cfaValue : ℕ) (regs : ℕ → ℕ) (hi : i < dwarfMaxRegs) :
    Sound (resolveReg load rules cfaValue regs i) fun _ => True := by
  unfold resolveReg
  rw [fetch_of_lt hi, value_bind]
  split
  · split
    · rw [store_of_lt hi]
      trivial
    · exact Sound.reject
  · trivial
  · exact Sound.reject

theorem foldlM_sound (rules : CfiRules) (cfaValue : ℕ) {l : List ℕ}
    (hl : ∀ i ∈ l, i < dwarfMaxRegs) (regs : ℕ → ℕ) :
    Sound (l.foldlM (resolveReg load rules cfaValue) regs) fun _ => True := by
  induction l generalizing regs with
  | nil => trivial
  | cons i l ih =>
    refine (resolveReg_sound load rules cfaValue regs (hl i List.mem_cons_self)).bind
      fun regs _ => ih (fun j hj => hl j (List.mem_cons_of_mem i hj)) regs

theorem dwarfCfiResolve_sound (h : Bounded state) :
    Sound (dwarfCfiResolve load arch state) fun _ => True := by
  unfold dwarfCfiResolve
  rw [current_eq h, value_bind]
  refine (require_sound _).bind fun _ _ => ?_
  rw [fetch_of_lt (h.cfa _ h.depth), value_bind]
  have hsp : arch.dwarfSpReg < dwarfMaxRegs := by cases arch <;> decide
  simp only [store_of_lt hsp, value_bind]
  exact (foldlM_sound load _ _ (fun i hi => List.mem_range.mp hi) _).bind fun _ _ => trivial

end Resolve

/-- On any section the unwinder comes back, having read and indexed inside its bounds; its
depth is inside the stack after every opcode, and what it leaves is resolved inside the
register file. -/
theorem unwinder_safe (s : Bytes) (hs : s.size < 2 ^ 62) (pc : ℕ) (cie : Cie)
    (initial : CfiState) :
    Sound (dwarfCfi s pc cie initial) (fun state => state.depth < cfiStackDepthMax) ∧
    (∀ state, Through s pc cie initial state → state.depth < cfiStackDepthMax) ∧
    ∀ state, dwarfCfi s pc cie initial = .ok state → ∀ load arch,
      Sound (dwarfCfiResolve load arch state) fun _ => True := by
  have hsize : s.size < word := lt_trans hs (by decide)
  have hsound := dwarfCfi_sound hsize pc cie initial
  refine ⟨hsound.imp fun state h => h.depth, fun state h => ?_, fun state h load arch => ?_⟩
  · exact (through_bounded hsize pc cie initial h).depth
  · exact dwarfCfiResolve_sound load arch (hsound.value h)

/-- A CIE with the CFA at register 7 plus 8, and an FDE for `0x1000` up to `0x1100` that moves
it to register 7 plus 16 after one byte. -/
def oneFrame : Bytes := Bytes.ofList
  [16, 0, 0, 0, 0xff, 0xff, 0xff, 0xff, 4, 0, 8, 0, 1, 0x78, 16, 0x0c, 7, 8, 0x90, 1,
    23, 0, 0, 0, 0, 0, 0, 0, 0, 0x10, 0, 0, 0, 0, 0, 0, 0, 1, 0, 0, 0, 0, 0, 0, 0x41, 0x0e, 16]

def anyCie : Cie := ⟨true, false, 0, 0, 0, 0, 0, 0, 0, 0⟩

def anyState : CfiState := ⟨⟨⟨.other 9, 77, 0⟩, fun _ => ⟨.other 9, 77, 0⟩⟩,
  fun _ => ⟨⟨.other 9, 77, 0⟩, fun _ => ⟨.other 9, 77, 0⟩⟩, fun i => i, 0, 200, false⟩

theorem one_frame_unwound : oneFrame.size < 2 ^ 62 ∧
    (Sound (dwarfCfi oneFrame 0x1001 anyCie anyState) fun state =>
      state.depth < cfiStackDepthMax) ∧
    (dwarfCfi oneFrame 0x1001 anyCie anyState).map
      (fun state => (state.depth, (state.rules 0).cfa)) = .ok (0, ⟨.offset, 7, 16⟩) :=
  ⟨by decide, (unwinder_safe oneFrame (by decide) 0x1001 anyCie anyState).1, by decide +kernel⟩

end LoaderDwarfCfiSafety
