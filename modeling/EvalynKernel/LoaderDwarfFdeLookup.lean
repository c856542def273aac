import EvalynKernel.LoaderDwarfFde

/-! # The search in a well-formed section

A section is a list of entries, one after the other. The CIE kept from the entry before is
always what decoding anew would give, so the search is a search through the list. -/
namespace LoaderDwarfFdeLookup

open MachineWords ByteScanner LoaderDwarfHelpers LoaderDwarfFde

structure Entry where
  start : ℕ
  stop : ℕ
  id : ℕ
  deriving DecidableEq, Repr

section Sections

variable (s : Bytes)

structure EntryAt (e : Entry) : Prop where
  length : e.start + 4 + leValue s e.start 4 = e.stop
  short : leValue s e.start 4 ≠ uint32Max
  room : e.start + 8 ≤ e.stop
  id : leValue s (e.start + 4) 4 = e.id

/-- The section is made of the entries `es` from `p` on. -/
inductive Entries : List Entry → ℕ → Prop where
  | nil : Entries [] s.size
  | cons {e : Entry} {es : List Entry} : EntryAt s e → Entries es e.stop →
      Entries (e :: es) e.start

def blankCie : Cie := ⟨false, false, 0, 0, 0, 0, 0, 0, 0, 0⟩

def freshCie (id : ℕ) : Scan Cie := do
  let cie ← dwarfDecodeCie s id blankCie
  return { cie with offset := id }

structure WellFormed (es : List Entry) : Prop where
  entries : Entries s es 0
  cies : ∀ e ∈ es, e.id ≠ uint32Max → ∃ c ∈ es, c.start = e.id ∧ c.id = uint32Max
  fdes : ∀ e ∈ es, e.id ≠ uint32Max → ∃ cie, freshCie s e.id = .ok cie ∧
    e.start + 8 + cie.segSize + 2 * cie.addrSize ≤ e.stop

/-- The address fields of an FDE, whose sizes its CIE gives. -/
def Entry.initialLocation (e : Entry) (cie : Cie) : ℕ :=
  leValue s (e.start + 8 + cie.segSize) cie.addrSize

def Entry.addressRange (e : Entry) (cie : Cie) : ℕ :=
  leValue s (e.start + 8 + cie.segSize + cie.addrSize) cie.addrSize

def Entry.fde (e : Entry) (cie : Cie) : Fde :=
  ⟨e.initialLocation s cie, e.start + 8 + cie.segSize + 2 * cie.addrSize, e.stop⟩

/-- The FDE `e`, with its own CIE, is for addresses that include `pc`. -/
structure Covers (pc : ℕ) (e : Entry) (cie : Cie) : Prop where
  isFde : e.id ≠ uint32Max
  own : freshCie s e.id = .ok cie
  nonzero : e.initialLocation s cie ≠ 0
  le : e.initialLocation s cie ≤ pc
  lt : pc < e.initialLocation s cie + e.addressRange s cie

/-- The search with the CIE forgotten before every entry. -/
def dwarfGetFdeAnew (pc : ℕ) (cie : Cie) : Scan (Fde × Cie) :=
  loop (fun st => fdeRound s pc (st.1, { st.2 with valid := false })) (s.size + 1)
    (0, { cie with valid := false })

end Sections

variable {s : Bytes} {es : List Entry} {e : Entry} {cie : Cie} {p pc id : ℕ}

section Layout

theorem Entries.le (h : Entries s es p) : p ≤ s.size := by
  induction h with
  | nil => exact le_rfl
  | cons he _ ih =>
    have := he.room
    omega

theorem Entries.of_mem (h : Entries s es p) (he : e ∈ es) :
    EntryAt s e ∧ p ≤ e.start ∧ e.stop ≤ s.size := by
  induction h with
  | nil => exact absurd he List.not_mem_nil
  | cons hhead htail ih =>
    rcases List.mem_cons.1 he with rfl | he
    · exact ⟨hhead, le_rfl, htail.le⟩
    · have hroom := hhead.room
      obtain ⟨hat, hle, hstop⟩ := ih he
      exact ⟨hat, by omega, hstop⟩

theorem Entries.apart (h : Entries s es p) (he : e ∈ es) (hc : c ∈ es) (hne : e ≠ c) :
    e.stop ≤ c.start ∨ c.stop ≤ e.start := by
  induction h with
  | nil => exact absurd he List.not_mem_nil
  | cons _ htail ih =>
    rcases List.mem_cons.1 he with rfl | hrest
    · rcases List.mem_cons.1 hc with rfl | hrest
      · exact absurd rfl hne
      · exact .inl (htail.of_mem hrest).2.1
    · rcases List.mem_cons.1 hc with rfl | hrest'
      · exact .inr (htail.of_mem hrest).2.1
      · exact ih hrest hrest'

end Layout

section Cache

/-- The CIE that is kept, if any, is what decoding it anew gives. -/
def Kept (s : Bytes) (cie : Cie) : Prop :=
  cie.valid = true → cieFor s cie.offset blankCie = .ok cie

theorem decode_anew (out out' : Cie) :
    (do let cie ← dwarfDecodeCie s p out; return { cie with offset := id } : Scan Cie) =
      (do let cie ← dwarfDecodeCie s p out'; return { cie with offset := id } : Scan Cie) := by
  simp only [dwarfDecodeCie, bind_assoc, pure_bind]

theorem cieFor_invalid (h : cie.valid = false) : cieFor s id cie = cieFor s id blankCie := by
  rw [cieFor, cieFor, if_pos (.inl (by simp [h])), if_pos (.inl (by decide))]
  exact bind_congr fun packet => decode_anew cie blankCie

theorem cieFor_kept (h : Kept s cie) : cieFor s id cie = cieFor s id blankCie := by
  by_cases hvalid : cie.valid = true
  · by_cases hid : cie.offset = id
    · subst hid
      rw [h hvalid, cieFor, if_neg (by simp [hvalid])]
      rfl
    · rw [cieFor, cieFor, if_pos (.inr hid), if_pos (.inl (by decide))]
      exact bind_congr fun packet => decode_anew cie blankCie
  · exact cieFor_invalid (by simpa using hvalid)

theorem offset_of_anew (h : cieFor s id blankCie = .ok cie) : cie.offset = id := by
  have hscans : Scans (fun _ => True) (cieFor s id blankCie) (·.offset = id) := by
    rw [cieFor, if_pos (.inl (by decide))]
    exact (Scans.any _).bind fun packet _ => (Scans.any _).bind fun cie _ => rfl
  exact hscans.value h

theorem kept_of_anew (h : cieFor s id blankCie = .ok cie) : Kept s cie := by
  intro _
  rw [offset_of_anew h]
  exact h

theorem kept_of_invalid (h : cie.valid = false) : Kept s cie :=
  fun hvalid => absurd (h.symm.trans hvalid) Bool.false_ne_true

theorem dwarfGetCie_entry (he : EntryAt s e) (hid : e.id = uint32Max) (hstop : e.stop ≤ s.size) :
    dwarfGetCie s e.start = .ok e.start := by
  have hroom := he.room
  have hlength := he.length
  have hmark : leValue s (e.start + 4) 4 = uint32Max := he.id.trans hid
  rw [dwarfGetCie, require_of (by omega), value_bind, readLe_of_le (by omega), value_bind,
    require_of hmark, value_bind, readLe_of_le (by omega), value_bind, require_of (by omega)]
  rfl

theorem cieFor_entry (he : EntryAt s e) (hid : e.id = uint32Max) (hstop : e.stop ≤ s.size) :
    cieFor s e.start blankCie = freshCie s e.start := by
  rw [cieFor, if_pos (.inl (by decide)), dwarfGetCie_entry he hid hstop, value_bind]
  rfl

end Cache

section Rounds

def hit (s : Bytes) (pc : ℕ) (e : Entry) : Option (Fde × Cie) :=
  if e.id = uint32Max then none
  else match freshCie s e.id with
    | .ok cie =>
      if e.initialLocation s cie ≤ pc ∧ e.initialLocation s cie ≠ 0 ∧
          pc - e.initialLocation s cie < e.addressRange s cie then some (e.fde s cie, cie)
      else none
    | .error _ => none

theorem hit_cie (hid : e.id = uint32Max) : hit s pc e = none := if_pos hid

theorem hit_fde (hid : e.id ≠ uint32Max) (hown : freshCie s e.id = .ok cie) :
    hit s pc e = if e.initialLocation s cie ≤ pc ∧ e.initialLocation s cie ≠ 0 ∧
      pc - e.initialLocation s cie < e.addressRange s cie then some (e.fde s cie, cie)
      else none := by
  rw [hit, if_neg hid, hown]

theorem hit_eq_some : hit s pc e = some r ↔ ∃ cie, Covers s pc e cie ∧ r = (e.fde s cie, cie) := by
  constructor
  · intro h
    rw [hit] at h
    split at h
    · exact absurd h (Option.some_ne_none r).symm
    · rename_i hid
      split at h
      · rename_i cie hown
        split at h
        · rename_i hin
          refine ⟨cie, ⟨hid, hown, hin.2.1, hin.1, by omega⟩, ?_⟩
          exact (Option.some.inj h).symm
        · exact absurd h (Option.some_ne_none r).symm
      · exact absurd h (Option.some_ne_none r).symm
  · rintro ⟨cie, hcovers, rfl⟩
    have hle := hcovers.le
    have hlt := hcovers.lt
    rw [hit_fde hcovers.isFde hcovers.own]
    exact if_pos ⟨hle, hcovers.nonzero, by omega⟩

theorem hit_eq_none : hit s pc e = none ↔ ∀ cie, ¬ Covers s pc e cie := by
  rw [Option.eq_none_iff_forall_ne_some]
  constructor
  · exact fun hnone cie hcovers => hnone _ (hit_eq_some.2 ⟨cie, hcovers, rfl⟩)
  · rintro hnone r hr
    obtain ⟨cie, hcovers, -⟩ := hit_eq_some.1 hr
    exact hnone cie hcovers

variable (hsize : s.size < word)
include hsize

theorem EntryAt.fits (he : EntryAt s e) (hstop : e.stop ≤ s.size) :
    leValue s e.start 4 ≤ wsub s.size e.start - 4 := by
  have hlength := he.length
  rw [wsub_of_le (by omega) hsize]
  omega

theorem fdeRound_cie (he : EntryAt s e) (hid : e.id = uint32Max) (hstop : e.stop ≤ s.size) :
    fdeRound s pc (e.start, cie) = .ok (.inl (e.stop, cie)) := by
  have hroom := he.room
  have hlength := he.length
  have hmark : leValue s (e.start + 4) 4 = uint32Max := he.id.trans hid
  simp only [fdeRound]
  rw [if_pos (by omega), readLe_of_le (by omega), value_bind, readLe_of_le (by omega), value_bind,
    require_of he.short, value_bind, require_of (by omega), value_bind,
    require_of (he.fits hsize hstop), value_bind, if_neg (not_not.2 hmark), hlength]
  rfl

theorem fdeRound_fde (he : EntryAt s e) (hid : e.id ≠ uint32Max) (hstop : e.stop ≤ s.size)
    (hown : cieFor s e.id cie = .ok own)
    (hfields : e.start + 8 + own.segSize + 2 * own.addrSize ≤ e.stop) :
    fdeRound s pc (e.start, cie) = .ok
      (if e.initialLocation s own ≤ pc ∧ e.initialLocation s own ≠ 0 ∧
          pc - e.initialLocation s own < e.addressRange s own then .inr (e.fde s own, own)
        else .inl (e.stop, own)) := by
  have hlength := he.length
  simp only [fdeRound]
  rw [if_pos (by omega), readLe_of_le (by omega), value_bind, readLe_of_le (by omega), value_bind,
    require_of he.short, value_bind, require_of (by omega), value_bind,
    require_of (he.fits hsize hstop),
    value_bind, he.id, if_pos hid, hown, value_bind, require_of (by omega), value_bind,
    readLe_of_le (by omega), value_bind, readLe_of_le (by omega), value_bind, hlength]
  by_cases hin : e.initialLocation s own ≤ pc ∧ e.initialLocation s own ≠ 0 ∧
      pc - e.initialLocation s own < e.addressRange s own
  · rw [if_pos hin]
    exact if_pos hin
  · rw [if_neg hin]
    exact if_neg hin

/-- The search is one through the entries, whatever is done to the CIE between two of them that
leaves it right or forgets it. -/
theorem loop_entries (forget : Cie → Cie) (hforget : ∀ cie, Kept s cie → Kept s (forget cie))
    (h : Entries s es p)
    (hfdes : ∀ e ∈ es, e.id ≠ uint32Max → ∃ cie, cieFor s e.id blankCie = .ok cie ∧
      freshCie s e.id = .ok cie ∧ e.start + 8 + cie.segSize + 2 * cie.addrSize ≤ e.stop)
    (hkept : Kept s cie) (hn : s.size - p < n) :
    loop (fun st => fdeRound s pc (st.1, forget st.2)) n (p, cie) =
      (es.findSome? (hit s pc)).elim (.error .reject) .ok := by
  set round := fun st : ℕ × Cie => fdeRound s pc (st.1, forget st.2)
  induction h generalizing cie n with
  | nil =>
    obtain ⟨n, rfl⟩ : ∃ k, n = k + 1 := ⟨n - 1, by omega⟩
    exact loop_succ_of_error (if_neg (by omega))
  | @cons e es he htail ih =>
    obtain ⟨n, rfl⟩ : ∃ k, n = k + 1 := ⟨n - 1, by omega⟩
    have hroom := he.room
    have hstop := htail.le
    have hrest := fun e' hmem => hfdes e' (List.mem_cons_of_mem e hmem)
    rw [List.findSome?_cons]
    by_cases hid : e.id = uint32Max
    · have hround : Passes round (e.start, cie) (e.stop, forget cie) :=
        fdeRound_cie hsize he hid hstop
      rw [loop_succ_of_passes hround, hit_cie hid]
      exact ih hrest (hforget cie hkept) (by omega)
    · obtain ⟨own, hanew, hfresh, hfields⟩ := hfdes e List.mem_cons_self hid
      have hown := (cieFor_kept (hforget cie hkept)).trans hanew
      have hround : round (e.start, cie) = _ := fdeRound_fde hsize he hid hstop hown hfields
      rw [hit_fde hid hfresh]
      by_cases hin : e.initialLocation s own ≤ pc ∧ e.initialLocation s own ≠ 0 ∧
          pc - e.initialLocation s own < e.addressRange s own
      · rw [if_pos hin] at hround ⊢
        exact loop_succ_of_done hround
      · rw [if_neg hin] at hround ⊢
        rw [loop_succ_of_passes hround]
        exact ih hrest (kept_of_anew hanew) (by omega)

end Rounds

section Lookup

theorem elim_eq_ok {α : Type} {o : Option α} {a : α} :
    o.elim (.error .reject : Scan α) .ok = .ok a ↔ o = some a := by
  cases o with
  | none => simp
  | some b => simp

theorem elim_eq_reject {α : Type} {o : Option α} :
    o.elim (.error .reject : Scan α) .ok = .error .reject ↔ o = none := by
  cases o with
  | none => simp
  | some b => simp

variable (hsize : s.size < word)
include hsize

theorem dwarfGetFde_entries (h : WellFormed s es) (pc : ℕ) (cie : Cie) :
    dwarfGetFde s pc cie = (es.findSome? (hit s pc)).elim (.error .reject) .ok ∧
      dwarfGetFdeAnew s pc cie = (es.findSome? (hit s pc)).elim (.error .reject) .ok := by
  have hfdes : ∀ e ∈ es, e.id ≠ uint32Max → ∃ cie, cieFor s e.id blankCie = .ok cie ∧
      freshCie s e.id = .ok cie ∧ e.start + 8 + cie.segSize + 2 * cie.addrSize ≤ e.stop := by
    intro e he hid
    obtain ⟨c, hc, hstart, hcid⟩ := h.cies e he hid
    obtain ⟨own, hfresh, hfields⟩ := h.fdes e he hid
    obtain ⟨hat, -, hstop⟩ := h.entries.of_mem hc
    have hanew := cieFor_entry hat hcid hstop
    rw [hstart] at hanew
    exact ⟨own, hanew.trans hfresh, hfresh, hfields⟩
  have hkept : Kept s { cie with valid := false } := kept_of_invalid rfl
  constructor
  · rw [dwarfGetFde]
    exact loop_entries hsize (fun cie => cie) (fun _ hcie => hcie) h.entries hfdes hkept (by omega)
  · rw [dwarfGetFdeAnew]
    exact loop_entries hsize (fun cie => { cie with valid := false })
      (fun _ _ => kept_of_invalid rfl) h.entries hfdes hkept (by omega)

theorem dwarfGetFde_eq_ok (h : WellFormed s es) (pc : ℕ) (cie₀ : Cie) {fde : Fde} {cie : Cie} :
    dwarfGetFde s pc cie₀ = .ok (fde, cie) ↔
      ∃ before e after, es = before ++ e :: after ∧ Covers s pc e cie ∧ fde = e.fde s cie ∧
        ∀ e' ∈ before, ∀ cie', ¬ Covers s pc e' cie' := by
  rw [(dwarfGetFde_entries hsize h pc cie₀).1, elim_eq_ok, List.findSome?_eq_some_iff]
  constructor
  · rintro ⟨before, e, after, heq, hhit, hbefore⟩
    obtain ⟨own, hcovers, hr⟩ := hit_eq_some.1 hhit
    cases hr
    exact ⟨before, e, after, heq, hcovers, rfl, fun e' he' => hit_eq_none.1 (hbefore e' he')⟩
  · rintro ⟨before, e, after, heq, hcovers, rfl, hbefore⟩
    refine ⟨before, e, after, heq, hit_eq_some.2 ⟨cie, hcovers, rfl⟩, fun e' he' => ?_⟩
    exact hit_eq_none.2 (hbefore e' he')

/-- The search finds the first FDE for `pc`, if there is one, with its own CIE, as it would if it
decoded the CIE of every FDE anew. -/
theorem fde_lookup_exact (h : WellFormed s es) (pc : ℕ) (cie₀ : Cie) :
    (∀ fde cie, dwarfGetFde s pc cie₀ = .ok (fde, cie) ↔
      ∃ before e after, es = before ++ e :: after ∧ Covers s pc e cie ∧ fde = e.fde s cie ∧
        ∀ e' ∈ before, ∀ cie', ¬ Covers s pc e' cie') ∧
    ((∃ r, dwarfGetFde s pc cie₀ = .ok r) ↔ ∃ e ∈ es, ∃ cie, Covers s pc e cie) ∧
    (dwarfGetFde s pc cie₀ = .error .reject ↔ ∀ e ∈ es, ∀ cie, ¬ Covers s pc e cie) ∧
    dwarfGetFde s pc cie₀ = dwarfGetFdeAnew s pc cie₀ := by
  obtain ⟨hsearch, hanew⟩ := dwarfGetFde_entries hsize h pc cie₀
  refine ⟨fun fde cie => dwarfGetFde_eq_ok hsize h pc cie₀, ?_, ?_, hsearch.trans hanew.symm⟩
  · simp only [hsearch, elim_eq_ok, ← Option.isSome_iff_exists, List.findSome?_isSome_iff]
    refine exists_congr fun e => and_congr_right fun _ => ?_
    rw [Option.isSome_iff_ne_none, ne_eq, hit_eq_none]
    exact not_forall_not
  · rw [hsearch, elim_eq_reject, List.findSome?_eq_none_iff]
    exact forall₂_congr fun e _ => hit_eq_none

end Lookup

/-- Two FDEs with the CIEs of each other's neighbours: the first uses the CIE after it, with
addresses of 4 bytes, the second the CIE at the start of the section, with addresses of 8. -/
def crossed : Bytes := Bytes.ofList
  [11, 0, 0, 0, 0xff, 0xff, 0xff, 0xff, 4, 0, 8, 0, 1, 0x78, 16,
    12, 0, 0, 0, 31, 0, 0, 0, 0, 0x10, 0, 0, 0, 1, 0, 0,
    11, 0, 0, 0, 0xff, 0xff, 0xff, 0xff, 4, 0, 4, 0, 1, 0x78, 16,
    20, 0, 0, 0, 0, 0, 0, 0, 0, 0x20, 0, 0, 0, 0, 0, 0, 0, 1, 0, 0, 0, 0, 0, 0]

def crossedEntries : List Entry :=
  [⟨0, 15, uint32Max⟩, ⟨15, 31, 31⟩, ⟨31, 46, uint32Max⟩, ⟨46, 70, 0⟩]

theorem crossed_wellFormed : WellFormed crossed crossedEntries where
  entries :=
    .cons ⟨by decide, by decide, by decide, by decide⟩ <|
    .cons ⟨by decide, by decide, by decide, by decide⟩ <|
    .cons ⟨by decide, by decide, by decide, by decide⟩ <|
    .cons ⟨by decide, by decide, by decide, by decide⟩ .nil
  cies := by decide
  fdes := by
    intro e he hid
    simp only [crossedEntries, List.mem_cons, List.not_mem_nil, or_false] at he
    rcases he with rfl | rfl | rfl | rfl
    · exact absurd rfl hid
    · exact ⟨⟨true, false, 31, 1, word - 8, 16, 4, 0, 46, 46⟩, by decide +kernel, by decide⟩
    · exact absurd rfl hid
    · exact ⟨⟨true, false, 0, 1, word - 8, 16, 8, 0, 15, 15⟩, by decide +kernel, by decide⟩

/-- The second FDE is found, with the addresses of its own CIE. -/
theorem crossed_looked_up :
    crossed.size < word ∧ WellFormed crossed crossedEntries ∧
      dwarfGetFde crossed 0x2010 blankCie =
        .ok (⟨0x2000, 70, 70⟩, ⟨true, false, 0, 1, word - 8, 16, 8, 0, 15, 15⟩) := by
  refine ⟨by decide, crossed_wellFormed, ?_⟩
  refine ((fde_lookup_exact (by decide) crossed_wellFormed 0x2010 blankCie).1 _ _).2 ?_
  refine ⟨[⟨0, 15, uint32Max⟩, ⟨15, 31, 31⟩, ⟨31, 46, uint32Max⟩], ⟨46, 70, 0⟩, [], rfl, ?_, ?_, ?_⟩
  · exact ⟨by decide, by decide +kernel, by decide +kernel, by decide +kernel, by decide +kernel⟩
  · decide +kernel
  · have hmiss : ∀ e ∈ [Entry.mk 0 15 uint32Max, ⟨15, 31, 31⟩, ⟨31, 46, uint32Max⟩],
        hit crossed 0x2010 e = none := by decide +kernel
    exact fun e he => hit_eq_none.1 (hmiss e he)

end LoaderDwarfFdeLookup
