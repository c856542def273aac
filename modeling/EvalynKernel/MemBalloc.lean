import EvalynKernel.MemBuddyCoalescing

/-! # The boot allocator and its hand-over to the buddy allocator

`balloc_alloc_page` (`mem/balloc.c`) walks the bootloader's memory map with a cursor that
never goes back; `buddy_init` (`mem/buddy.c`) adds what lies above the last page the cursor
gave out. The entries are arbitrary byte ranges, so the two agree by rounding alone. -/
namespace MemBalloc

open MachineWords DyadicBlocks DyadicBlocks.Block MemBuddyAllocator MemBuddyInvariant
open MemBuddyRuns MemBuddyCoalescing

inductive MemmapType where
  | usable | reserved | acpiReclaimable | acpiNvs | badMemory | bootloaderReclaimable
  | executableAndModules | framebuffer | reservedMapped
  deriving DecidableEq, Repr

structure MemmapEntry where
  base : ℕ
  length : ℕ
  type : MemmapType
  deriving DecidableEq, Repr

structure Balloc where
  entry : ℕ
  offset : ℕ
  lastAddr : ℕ
  deriving DecidableEq, Repr

def ballocStart : Balloc := ⟨0, 0, 0⟩

def lowMemory : ℕ := 0x100000

def alignedStart (shift : ℕ) (e : MemmapEntry) : ℕ := max (alignUp e.base (2 ^ shift)) lowMemory

def alignedEnd (shift : ℕ) (e : MemmapEntry) : ℕ := alignDown (wadd e.base e.length) (2 ^ shift)

/-- The loop of `balloc_alloc_page`; every turn that does not return goes to the next entry. -/
def ballocLoop (shift : ℕ) (map : List MemmapEntry) : ℕ → Balloc → Exec (ℕ × Balloc)
  | fuel, s =>
    match map[s.entry]? with
    | none => .error (.panic "Not enough memory to boot system")
    | some e =>
      match fuel with
      | 0 => .error .fuel
      | fuel + 1 =>
        if e.type ≠ .usable then
          ballocLoop shift map fuel { s with entry := s.entry + 1, offset := 0 }
        else
          let offset := if s.offset = 0 then wsub (alignedStart shift e) e.base else s.offset
          if wadd (wadd e.base offset) (2 ^ shift) ≤ alignedEnd shift e then
            let paddr := wadd e.base offset
            .ok (paddr, ⟨s.entry, wadd offset (2 ^ shift), paddr⟩)
          else ballocLoop shift map fuel { s with entry := s.entry + 1, offset := 0 }

def ballocAllocPage (shift : ℕ) (map : List MemmapEntry) (s : Balloc) : Exec (ℕ × Balloc) :=
  ballocLoop shift map map.length s

def initEntry (shift lastAddr : ℕ) (s : State) (e : MemmapEntry) : Exec State :=
  if e.type ≠ .usable then .ok s
  else
    let start := max (alignUp e.base (2 ^ shift)) (wadd lastAddr (2 ^ shift))
    buddyAddRange shift s start (wsub (alignedEnd shift e) start)

def buddyInit (shift lastAddr : ℕ) (map : List MemmapEntry) : Exec State :=
  map.foldlM (initEntry shift lastAddr) initial

/-- The pages given out before `buddy_init`, newest first. -/
inductive Boot (shift : ℕ) (map : List MemmapEntry) : List ℕ → Balloc → Prop where
  | start : Boot shift map [] ballocStart
  | alloc {pages s p s'} : Boot shift map pages s → ballocAllocPage shift map s = .ok (p, s') →
      Boot shift map (p :: pages) s'

def MemmapEntry.Holds (e : MemmapEntry) (a : ℕ) : Prop := e.base ≤ a ∧ a < e.base + e.length

/-- The boot code maps the entry and keeps a record of its frames. -/
def MemmapEntry.Mapped (e : MemmapEntry) : Prop := e.type ≠ .reserved ∧ e.type ≠ .badMemory

def Ordered (map : List MemmapEntry) : Prop :=
  map.Pairwise fun e f => e.base ≤ f.base ∧ ∀ a, ¬ (e.Holds a ∧ f.Holds a)

/-- The same of the usable entries alone, which is all the boot allocator looks at. -/
def Separate (map : List MemmapEntry) : Prop :=
  map.Pairwise fun e f => e.type = .usable → f.type = .usable →
    e.base ≤ f.base ∧ ∀ a, ¬ (e.Holds a ∧ f.Holds a)

theorem Ordered.separate (h : Ordered map) : Separate map :=
  h.imp fun he _ _ => he

/-- No usable entry reaches the last page of the address space or begins in the page
before it, where the bounds of `balloc_alloc_page` wrap around. -/
def BelowTop (shift : ℕ) (map : List MemmapEntry) : Prop :=
  ∀ e ∈ map, e.type = .usable →
    e.base + 2 * 2 ^ shift ≤ word ∧ e.base + e.length + 2 ^ shift < word

structure Whole (shift : ℕ) (e : MemmapEntry) (p : ℕ) : Prop where
  usable : e.type = .usable
  aligned : 2 ^ shift ∣ p
  above : e.base ≤ p
  below : p + 2 ^ shift ≤ e.base + e.length

variable {shift : ℕ} {map : List MemmapEntry} {e : MemmapEntry} {s s' : Balloc} {pages : List ℕ}

structure Behind (shift : ℕ) (map : List MemmapEntry) (s : Balloc) (e : MemmapEntry) : Prop where
  entry : map[s.entry]? = some e
  whole : Whole shift e s.lastAddr
  low : lowMemory ≤ s.lastAddr
  offset : e.base + s.offset = s.lastAddr + 2 ^ shift

theorem dvd_lowMemory (hs : shift ≤ 20) : 2 ^ shift ∣ lowMemory := Nat.pow_dvd_pow 2 hs

theorem alignedStart_spec (hs : shift ≤ 20) (hb : e.base + 2 * 2 ^ shift ≤ word) :
    2 ^ shift ∣ alignedStart shift e ∧ e.base ≤ alignedStart shift e ∧
      lowMemory ≤ alignedStart shift e ∧ alignedStart shift e + 2 ^ shift < word := by
  have hlow : lowMemory + 2 ^ shift < word :=
    lt_of_le_of_lt (Nat.add_le_add_left (Nat.pow_le_pow_right (by norm_num) hs) _) (by decide)
  obtain ⟨h1, h2⟩ := alignUp_bounds (x := e.base) (n := shift) (by omega) (by omega)
  have hd := dvd_alignUp (x := e.base) (n := shift) (by omega)
  unfold alignedStart
  refine ⟨?_, le_trans h1 (le_max_left _ _), le_max_right _ _, ?_⟩
  · rcases max_choice (alignUp e.base (2 ^ shift)) lowMemory with h | h <;> rw [h]
    · exact hd
    · exact dvd_lowMemory hs
  · rcases max_choice (alignUp e.base (2 ^ shift)) lowMemory with h | h <;> rw [h]
    · omega
    · exact hlow

theorem alignedEnd_spec (hs : shift ≤ 64) (hl : e.base + e.length < word) (hp : 2 ^ shift ∣ p) :
    p + 2 ^ shift ≤ alignedEnd shift e ↔ p + 2 ^ shift ≤ e.base + e.length := by
  unfold alignedEnd
  rw [wadd_of_lt hl, alignDown_two_pow hl hs]
  obtain ⟨q, hq⟩ := Nat.dvd_add hp (dvd_refl (2 ^ shift))
  rw [hq, Nat.mul_comm, Nat.mul_le_mul_right_iff (Nat.two_pow_pos _),
    Nat.le_div_iff_mul_le (Nat.two_pow_pos _)]

theorem turn (hs : shift ≤ 64) (hu : e.type = .usable) (hl : e.base + e.length < word)
    (ho : e.base + o = x) (hd : 2 ^ shift ∣ x) (hx : x + 2 ^ shift < word) :
    wadd e.base o = x ∧ e.base + wadd o (2 ^ shift) = x + 2 ^ shift ∧
      (wadd (wadd e.base o) (2 ^ shift) ≤ alignedEnd shift e ↔ Whole shift e x) := by
  have hw : wadd e.base o = x := by rw [wadd_of_lt (by omega), ho]
  refine ⟨hw, by rw [wadd_of_lt (by omega)]; omega, ?_⟩
  rw [hw, wadd_of_lt hx, alignedEnd_spec hs hl hd]
  constructor
  · intro h
    exact ⟨hu, hd, by omega, h⟩
  · intro h
    exact h.below

theorem ballocLoop_fresh (hs : shift ≤ 20) (hm : BelowTop shift map) (fuel : ℕ) (h0 : s.offset = 0)
    (he : ballocLoop shift map fuel s = .ok (p, s')) :
    p = s'.lastAddr ∧ s.entry ≤ s'.entry ∧ ∃ e, Behind shift map s' e := by
  induction fuel generalizing s with
  | zero =>
    unfold ballocLoop at he
    split at he <;> cases he
  | succ fuel ih =>
    have next : ballocLoop shift map fuel { s with entry := s.entry + 1, offset := 0 } =
        .ok (p, s') → p = s'.lastAddr ∧ s.entry ≤ s'.entry ∧ ∃ e, Behind shift map s' e := by
      intro hn
      obtain ⟨h1, h2, h3⟩ := ih rfl hn
      exact ⟨h1, le_trans (Nat.le_succ _) h2, h3⟩
    unfold ballocLoop at he
    split at he
    · cases he
    · rename_i e hent
      dsimp only at he
      split at he
      · exact next he
      · rename_i hu
        have hu := not_not.mp hu
        obtain ⟨hb, hl⟩ := hm e (List.mem_of_getElem? hent) hu
        obtain ⟨a1, a2, a3, a4⟩ := alignedStart_spec hs hb
        rw [wsub_of_le a2 (by omega)] at he
        obtain ⟨t1, t2, t3⟩ := turn (by omega) hu (by omega)
          (Nat.add_sub_cancel' a2) a1 a4
        split at he
        · rename_i hfit
          cases he
          refine ⟨rfl, le_rfl, e, hent, ?_, ?_, ?_⟩
          · rw [t1]
            exact t3.mp hfit
          · rw [t1]
            exact a3
          · rw [t1]
            exact t2
        · exact next he

/-- The only fault: no usable entry has a page left. -/
def NoBootMemory (e : Fault) : Prop := e = .panic "Not enough memory to boot system"

theorem ballocLoop_fault (hfuel : map.length ≤ s.entry + fuel) :
    Ensures NoBootMemory (ballocLoop shift map fuel s) fun _ => True := by
  induction fuel generalizing s with
  | zero =>
    unfold ballocLoop
    rw [List.getElem?_eq_none (by omega)]
    rfl
  | succ fuel ih =>
    have hnext := ih (s := { s with entry := s.entry + 1, offset := 0 })
      (by show _ ≤ s.entry + 1 + fuel; omega)
    unfold ballocLoop
    cases map[s.entry]? with
    | none => rfl
    | some e =>
      dsimp only
      split
      · exact hnext
      · generalize (if s.offset = 0 then _ else _) = offset
        by_cases hfit : wadd (wadd e.base offset) (2 ^ shift) ≤ alignedEnd shift e
        · rw [if_pos hfit]
          trivial
        · rw [if_neg hfit]
          exact hnext

theorem Separate.lt {i j p q : ℕ} {f : MemmapEntry} (ho : Separate map) (hij : i < j)
    (hi : map[i]? = some e) (hj : map[j]? = some f) (hp : Whole shift e p)
    (hq : Whole shift f q) : p < q := by
  obtain ⟨hil, rfl⟩ := List.getElem?_eq_some_iff.mp hi
  obtain ⟨hjl, rfl⟩ := List.getElem?_eq_some_iff.mp hj
  obtain ⟨hb, hd⟩ := List.pairwise_iff_getElem.mp ho i j hil hjl hij hp.usable hq.usable
  have hpos : 0 < 2 ^ shift := Nat.two_pow_pos _
  have h1 := hp.below
  have h2 := hq.above
  have h3 := hq.below
  by_contra hle
  exact hd q ⟨⟨by omega, by omega⟩, ⟨by omega, by omega⟩⟩

theorem ballocAllocPage_next (hs : shift ≤ 20) (ho : Separate map) (hm : BelowTop shift map)
    (hc : Behind shift map s e) {p : ℕ} (he : ballocAllocPage shift map s = .ok (p, s')) :
    s.lastAddr < p ∧ p = s'.lastAddr ∧ ∃ f, Behind shift map s' f := by
  have hpos : 0 < 2 ^ shift := Nat.two_pow_pos _
  obtain ⟨hb, hl⟩ := hm e (List.mem_of_getElem? hc.entry) hc.whole.usable
  have habove := hc.whole.above
  have hbelow := hc.whole.below
  have hoff := hc.offset
  have h0 : s.offset ≠ 0 := by omega
  have hd := Nat.dvd_add hc.whole.aligned (dvd_refl (2 ^ shift))
  obtain ⟨t1, t2, t3⟩ := turn (by omega) hc.whole.usable (by omega) hoff hd (by omega)
  unfold ballocAllocPage at he
  generalize map.length = fuel at he
  unfold ballocLoop at he
  rw [hc.entry] at he
  cases fuel with
  | zero => cases he
  | succ fuel =>
    dsimp only at he
    rw [if_neg (not_not.mpr hc.whole.usable), if_neg h0] at he
    split at he
    · rename_i hfit
      cases he
      refine ⟨by omega, rfl, e, hc.entry, ?_, ?_, ?_⟩
      · rw [t1]
        exact t3.mp hfit
      · rw [t1]
        exact le_trans hc.low (Nat.le_add_right _ _)
      · rw [t1]
        exact t2
    · obtain ⟨h1, h2, f, hf⟩ := ballocLoop_fresh hs hm fuel rfl he
      refine ⟨?_, h1, f, hf⟩
      rw [h1]
      exact ho.lt h2 hc.entry hf.entry hc.whole hf.whole

structure Given (shift : ℕ) (map : List MemmapEntry) (pages : List ℕ) (s : Balloc) : Prop where
  behind : ∃ e, Behind shift map s e
  whole : ∀ p ∈ pages, ∃ e ∈ map, Whole shift e p
  low : ∀ p ∈ pages, lowMemory ≤ p
  upto : ∀ p ∈ pages, p ≤ s.lastAddr
  nodup : pages.Nodup

theorem boot_given (hs : shift ≤ 20) (ho : Separate map) (hm : BelowTop shift map)
    (h : Boot shift map pages s) :
    (pages = [] ∧ s = ballocStart) ∨ Given shift map pages s := by
  induction h with
  | start => exact Or.inl ⟨rfl, rfl⟩
  | @alloc pages s p s' _ he ih =>
    right
    rcases ih with ⟨rfl, rfl⟩ | ih
    · obtain ⟨rfl, _, f, hf⟩ := ballocLoop_fresh hs hm _ rfl he
      have hmem := List.mem_of_getElem? hf.entry
      refine ⟨⟨f, hf⟩, ?_, ?_, ?_, List.nodup_singleton _⟩
      · intro p hp
        rw [List.mem_singleton.mp hp]
        exact ⟨f, hmem, hf.whole⟩
      · intro p hp
        rw [List.mem_singleton.mp hp]
        exact hf.low
      · intro p hp
        rw [List.mem_singleton.mp hp]
    · obtain ⟨e, hc⟩ := ih.behind
      obtain ⟨hlt, rfl, f, hf⟩ := ballocAllocPage_next hs ho hm hc he
      have hmem := List.mem_of_getElem? hf.entry
      refine ⟨⟨f, hf⟩, ?_, ?_, ?_, ?_⟩
      · intro p hp
        rcases List.mem_cons.mp hp with rfl | hp
        · exact ⟨f, hmem, hf.whole⟩
        · exact ih.whole p hp
      · intro p hp
        rcases List.mem_cons.mp hp with rfl | hp
        · exact hf.low
        · exact ih.low p hp
      · intro p hp
        rcases List.mem_cons.mp hp with rfl | hp
        · exact le_rfl
        · exact le_of_lt (lt_of_le_of_lt (ih.upto p hp) hlt)
      · apply List.nodup_cons.mpr ⟨_, ih.nodup⟩
        intro hp
        have := ih.upto _ hp
        omega

def pageOf (shift a : ℕ) : ℕ := a / 2 ^ shift * 2 ^ shift

structure Seeded (shift lastAddr : ℕ) (seen : List MemmapEntry) (t : State)
    (A : List (ℕ × ℕ)) (R : Set Block) : Prop where
  added : Added shift t A R
  within : ∀ r ∈ A, 0 < r.2 ∧ ∃ e ∈ seen, e.base ≤ r.1 ∧ r.1 + r.2 ≤ e.base + e.length
  pages : ∀ a, (∃ r ∈ A, a ∈ addedPages shift r.1 r.2) ↔
    ∃ e ∈ seen, Whole shift e (pageOf shift a) ∧ lastAddr < pageOf shift a

section Init

variable {lastAddr : ℕ} {seen : List MemmapEntry} {t : State} {A : List (ℕ × ℕ)} {R : Set Block}

theorem range_iff (hs : shift ≤ 64) (hu : e.type = .usable) (hb : e.base + 2 ^ shift ≤ word)
    (hl : e.base + e.length < word) (hd : 2 ^ shift ∣ lastAddr) (a : ℕ) :
    (max (alignUp e.base (2 ^ shift)) (lastAddr + 2 ^ shift) ≤ pageOf shift a ∧
      pageOf shift a + 2 ^ shift ≤ alignedEnd shift e) ↔
      Whole shift e (pageOf shift a) ∧ lastAddr < pageOf shift a := by
  have hpage : 2 ^ shift ∣ pageOf shift a := Nat.dvd_mul_left _ _
  obtain ⟨h1, h2⟩ := alignUp_bounds (x := e.base) hs hb
  rw [alignedEnd_spec hs hl hpage, max_le_iff]
  constructor
  · rintro ⟨⟨h3, h4⟩, h5⟩
    exact ⟨⟨hu, hpage, by omega, h5⟩, by omega⟩
  · rintro ⟨h3, h4⟩
    have h5 := h3.above
    have h6 := h3.below
    refine ⟨⟨?_, ?_⟩, h6⟩
    · by_contra hlt
      have hle := Nat.le_of_dvd (by omega) (Nat.dvd_sub (dvd_alignUp (x := e.base) hs) hpage)
      omega
    · have hle := Nat.le_of_dvd (by omega) (Nat.dvd_sub hpage hd)
      omega

/-- The range from `start` to `last` that a usable entry adds. -/
structure EntryRange (shift lastAddr : ℕ) (e : MemmapEntry) (start last : ℕ) : Prop where
  start_dvd : 2 ^ shift ∣ start
  last_dvd : 2 ^ shift ∣ last
  base_le : e.base ≤ start
  last_le : last ≤ e.base + e.length
  above : lastAddr + 2 ^ shift ≤ start
  start_lt : start < word
  last_lt : last < word
  pages : ∀ a, (start ≤ pageOf shift a ∧ pageOf shift a + 2 ^ shift ≤ last) ↔
    Whole shift e (pageOf shift a) ∧ lastAddr < pageOf shift a

theorem entryRange (hs : shift ≤ 64) (hu : e.type = .usable) (hb : e.base + 2 ^ shift ≤ word)
    (hl : e.base + e.length < word) (hd : 2 ^ shift ∣ lastAddr)
    (hlast : lastAddr + 2 ^ shift < word) :
    EntryRange shift lastAddr e (max (alignUp e.base (2 ^ shift)) (lastAddr + 2 ^ shift))
      (alignedEnd shift e) := by
  have hend : alignedEnd shift e = (e.base + e.length) / 2 ^ shift * 2 ^ shift := by
    rw [alignedEnd, wadd_of_lt hl, alignDown_two_pow hl hs]
  have hle : alignedEnd shift e ≤ e.base + e.length := hend ▸ Nat.div_mul_le_self _ _
  exact
    { start_dvd := by
        rcases max_choice (alignUp e.base (2 ^ shift))
          (lastAddr + 2 ^ shift) with hx | hx <;> rw [hx]
        · exact dvd_alignUp hs
        · exact Nat.dvd_add hd (dvd_refl _)
      last_dvd := hend ▸ Nat.dvd_mul_left _ _
      base_le := le_trans (alignUp_bounds hs hb).1 (le_max_left _ _)
      last_le := hle
      above := le_max_right _ _
      start_lt := max_lt (alignUp_lt hs) hlast
      last_lt := lt_of_le_of_lt hle hl
      pages := range_iff hs hu hb hl hd }

theorem Seeded.skip (h : Seeded shift lastAddr seen t A R)
    (hnone : ∀ a, ¬ (Whole shift e (pageOf shift a) ∧ lastAddr < pageOf shift a)) :
    Seeded shift lastAddr (seen ++ [e]) t A R := by
  refine ⟨h.added, ?_, ?_⟩
  · intro r hr
    obtain ⟨h1, f, hf, h2⟩ := h.within r hr
    exact ⟨h1, f, List.mem_append_left _ hf, h2⟩
  · intro a
    rw [h.pages]
    constructor
    · rintro ⟨f, hf, hw⟩
      exact ⟨f, List.mem_append_left _ hf, hw⟩
    · rintro ⟨f, hf, hw⟩
      rcases List.mem_append.mp hf with hf | hf
      · exact ⟨f, hf, hw⟩
      · rw [List.mem_singleton.mp hf] at hw
        exact (hnone a hw).elim

section

variable (hs : shift ≤ 64)
include hs

theorem buddyAddRange_empty (hr : EntryRange shift lastAddr e start last) (hge : last ≤ start) :
    buddyAddRange shift t start (wsub last start) = .ok t := by
  have hstart := hr.start_lt
  have hsum : wadd start (wsub last start) = last := by
    unfold wadd wsub
    rw [Nat.add_mod_mod, show start + (last + word - start) = last + word by omega,
      Nat.add_mod_right, Nat.mod_eq_of_lt hr.last_lt]
  have hle : last / 2 ^ shift * 2 ^ shift ≤ start := le_trans (Nat.div_mul_le_self _ _) hge
  rw [buddyAddRange, hsum, alignUp_of_dvd hs hstart hr.start_dvd, alignDown_two_pow hr.last_lt hs]
  simp only [hle, if_true]

theorem Seeded.extend (h : Seeded shift lastAddr seen t A R)
    (hr : EntryRange shift lastAddr e start last) (hlt : start < last)
    (hnew : ∀ f ∈ seen, ∀ a, ¬ (f.Holds a ∧ e.Holds a)) :
    ∃ u A' R', buddyAddRange shift t start (wsub last start) = .ok u ∧
      Seeded shift lastAddr (seen ++ [e]) u A' R' := by
  have hpos : 0 < 2 ^ shift := Nat.two_pow_pos _
  have hbase := hr.base_le
  have hend := hr.last_le
  have habove := hr.above
  have hlw := hr.last_lt
  have hle : start + 2 ^ shift ≤ last := by
    have := Nat.le_of_dvd (by omega) (Nat.dvd_sub hr.last_dvd hr.start_dvd)
    omega
  have hv : ValidRange shift start (last - start) := by
    refine ⟨by omega, by omega, ?_⟩
    intro hz
    have := hz.1
    rw [Nat.zero_div, Nat.zero_mul] at this
    omega
  have hdis : ∀ r ∈ A, RangesDisjoint r (start, last - start) := by
    intro r hrA
    obtain ⟨hr0, f, hf, hf1, hf2⟩ := h.within r hrA
    by_contra hn
    simp only [RangesDisjoint, not_or, not_le] at hn
    exact hnew f hf (max r.1 start)
      ⟨⟨le_trans hf1 (le_max_left _ _), max_lt (by omega) (by omega)⟩,
        ⟨le_trans hbase (le_max_right _ _), max_lt (by omega) (by omega)⟩⟩
  obtain ⟨i1, _⟩ := buddyAddRange_roots (s := t) hs (hv.first_ne_zero hs)
  refine ⟨_, _, _, by rw [wsub_of_le hlt.le hlw, i1], h.added.addRange hv hdis i1, ?_, ?_⟩
  · intro r hrA
    rcases List.mem_cons.mp hrA with rfl | hrA
    · exact ⟨Nat.sub_pos_of_lt hlt, e, by simp, hbase, by simp only; omega⟩
    · obtain ⟨h1, f, hf, h2⟩ := h.within r hrA
      exact ⟨h1, f, List.mem_append_left _ hf, h2⟩
  · intro a
    have hmem : a ∈ addedPages shift start (last - start) ↔
        start ≤ pageOf shift a ∧ pageOf shift a + 2 ^ shift ≤ last := by
      rw [show last = start + (last - start) by omega, Nat.add_sub_cancel_left]
      rfl
    simp only [List.mem_cons, List.mem_append, or_and_right, exists_or, h.pages, hmem, hr.pages,
      List.not_mem_nil, or_false, exists_eq_left]
    exact or_comm

theorem initEntry_spec (hd : 2 ^ shift ∣ lastAddr) (hlast : lastAddr + 2 ^ shift < word)
    (h : Seeded shift lastAddr seen t A R)
    (htop : e.type = .usable → e.base + 2 ^ shift ≤ word ∧ e.base + e.length < word)
    (hnew : ∀ f ∈ seen, ∀ a, ¬ (f.Holds a ∧ e.Holds a)) :
    ∃ u A' R', initEntry shift lastAddr t e = .ok u ∧
      Seeded shift lastAddr (seen ++ [e]) u A' R' := by
  by_cases hu : e.type = .usable
  · obtain ⟨hb, hl⟩ := htop hu
    have hrange := entryRange hs hu hb hl hd hlast
    rw [initEntry, if_neg (not_not.mpr hu), wadd_of_lt hlast]
    rcases Nat.lt_or_ge (max (alignUp e.base (2 ^ shift)) (lastAddr + 2 ^ shift))
      (alignedEnd shift e) with hlt | hge
    · exact h.extend hs hrange hlt hnew
    · refine ⟨t, A, R, buddyAddRange_empty hs hrange hge, h.skip ?_⟩
      intro a ha
      have := (hrange.pages a).mpr ha
      omega
  · refine ⟨t, A, R, by rw [initEntry, if_pos hu], h.skip ?_⟩
    rintro a ⟨hw, _⟩
    exact hu hw.usable

theorem initEntries_spec (hd : 2 ^ shift ∣ lastAddr) (hlast : lastAddr + 2 ^ shift < word)
    (rest : List MemmapEntry) (h : Seeded shift lastAddr seen t A R) (ho : Ordered (seen ++ rest))
    (hm : ∀ e ∈ rest, e.type = .usable → e.base + 2 ^ shift ≤ word ∧ e.base + e.length < word) :
    ∃ u A' R', rest.foldlM (initEntry shift lastAddr) t = .ok u ∧
      Seeded shift lastAddr (seen ++ rest) u A' R' := by
  induction rest generalizing seen t A R with
  | nil => exact ⟨t, A, R, rfl, by rwa [List.append_nil]⟩
  | cons e rest ih =>
    have hnew : ∀ f ∈ seen, ∀ a, ¬ (f.Holds a ∧ e.Holds a) := by
      intro f hf
      exact ((List.pairwise_append.mp ho).2.2 f hf e List.mem_cons_self).2
    obtain ⟨u, A', R', he, hu⟩ := initEntry_spec hs hd hlast h (hm e List.mem_cons_self) hnew
    have hcons : seen ++ e :: rest = (seen ++ [e]) ++ rest := by simp
    rw [hcons] at ho ⊢
    obtain ⟨v, A'', R'', hv, hs'⟩ := ih hu ho fun f hf => hm f (List.mem_cons_of_mem e hf)
    refine ⟨v, A'', R'', ?_, hs'⟩
    rw [List.foldlM_cons, he]
    exact hv

end

end Init

/-- The pages given out at boot are distinct, aligned and inside usable entries at or above
one mebibyte; `buddy_init` makes exactly the whole pages of usable entries above the last
one free, each once; and no page given out at boot becomes free in any later state. -/
theorem boot_handover (hs : shift ≤ 20) (ho : Ordered map) (hm : BelowTop shift map)
    (h : Boot shift map pages s) (hk : pages ≠ []) :
    (pages.Nodup ∧
      ∀ p ∈ pages, 2 ^ shift ∣ p ∧ lowMemory ≤ p ∧ ∃ e ∈ map, Whole shift e p) ∧
    ∃ t A R, buddyInit shift s.lastAddr map = .ok t ∧ Added shift t A R ∧
      ((∀ k, (t.orders k).Nodup) ∧
        ∀ b ∈ freeBlocks shift t, ∀ c ∈ freeBlocks shift t, b ≠ c → Apart b c) ∧
      (∀ a, (∃ b ∈ freeBlocks shift t, Mem a b) ↔
        ∃ e ∈ map, Whole shift e (pageOf shift a) ∧ s.lastAddr < pageOf shift a) ∧
      ∀ u H, Run shift u A R H → ∀ p ∈ pages, ∀ a, pageOf shift a = p →
        ∀ b ∈ freeBlocks shift u, ¬ Mem a b := by
  have hg : Given shift map pages s := by
    rcases boot_given hs ho.separate hm h with ⟨hnil, _⟩ | hg
    · exact (hk hnil).elim
    · exact hg
  obtain ⟨e, hc⟩ := hg.behind
  have hbelow := hc.whole.below
  obtain ⟨_, hl⟩ := hm e (List.mem_of_getElem? hc.entry) hc.whole.usable
  have hseed : Seeded shift s.lastAddr [] initial [] ∅ := ⟨Added.start, by simp, by simp⟩
  obtain ⟨t, A, R, ht, hseeded⟩ := initEntries_spec (by omega) hc.whole.aligned
    (by omega) map hseed ho
    fun f hf hu => ⟨by have := (hm f hf hu).1; omega, by have := (hm f hf hu).2; omega⟩
  rw [List.nil_append] at hseeded
  have hrun := hseeded.added.run
  obtain ⟨hi, hreg, _⟩ := run_inv (by omega) hrun
  refine ⟨⟨hg.nodup, ?_⟩, t, A, R, ht, hseeded.added, ⟨hi.blocks.nodup, ?_⟩, ?_, ?_⟩
  · intro p hp
    obtain ⟨f, hf, hw⟩ := hg.whole p hp
    exact ⟨hw.aligned, hg.low p hp, f, hf, hw⟩
  · intro b hb c hc
    exact hi.blocks.tiling.apart b (Or.inl hb) c (Or.inl hc)
  · intro a
    rw [← hseeded.pages, ← hreg, hi.blocks.tiling.cover, Set.union_empty]
  · intro u H hu p hp a ha b hb hab
    obtain ⟨hiu, hregu, _⟩ := run_inv (by omega) hu
    have hmem := (hregu a).mp ((hiu.blocks.tiling.cover a).mpr ⟨b, Or.inl hb, hab⟩)
    obtain ⟨_, _, _, hlt⟩ := (hseeded.pages a).mp hmem
    have := hg.upto p hp
    omega

def twoEntries : List MemmapEntry :=
  [⟨0x800, 0x9000, .usable⟩, ⟨0x200800, 0x5000, .usable⟩]

theorem boot_two_pages : ∃ t, Boot 12 twoEntries [0x202000, 0x201000] ⟨1, 0x2800, 0x202000⟩ ∧
    buddyInit 12 0x202000 twoEntries = .ok t ∧
    ∀ a, (∃ b ∈ freeBlocks 12 t, Mem a b) ↔
      ∃ e ∈ twoEntries, Whole 12 e (pageOf 12 a) ∧ 0x202000 < pageOf 12 a := by
  have ho : Ordered twoEntries := by
    simp only [Ordered, twoEntries, List.pairwise_cons, List.mem_singleton, forall_eq,
      MemmapEntry.Holds]
    refine ⟨⟨by omega, fun a => by omega⟩, by simp⟩
  have hm : BelowTop 12 twoEntries := by
    simp only [BelowTop, twoEntries, List.mem_cons, List.not_mem_nil, or_false, forall_eq_or_imp,
      forall_eq]
    decide
  have h1 : ballocAllocPage 12 twoEntries ballocStart = .ok (0x201000, ⟨1, 0x1800, 0x201000⟩) := by
    decide +kernel
  have h2 : ballocAllocPage 12 twoEntries ⟨1, 0x1800, 0x201000⟩ =
      .ok (0x202000, ⟨1, 0x2800, 0x202000⟩) := by decide +kernel
  have hboot := (Boot.start.alloc h1).alloc h2
  obtain ⟨_, t, _, _, ht, _, _, hfree, _⟩ := boot_handover (by decide) ho hm hboot (by simp)
  exact ⟨t, hboot, ht, hfree⟩

/-- The page that the wrapped bound lets through: an entry that ends where the last page of
the address space begins gives that page out too, and so does an entry inside the page
before it. -/
theorem boot_wraps_at_top :
    (Ordered [⟨word - 0x2000, 0x1000, .usable⟩] ∧
      ∃ s, Boot 12 [⟨word - 0x2000, 0x1000, .usable⟩] [word - 0x1000, word - 0x2000] s ∧
        ∀ e ∈ [(⟨word - 0x2000, 0x1000, .usable⟩ : MemmapEntry)],
          ¬ Whole 12 e (word - 0x1000)) ∧
    (Ordered [⟨word - 0x1ffb, 3, .usable⟩] ∧
      ∃ s, Boot 12 [⟨word - 0x1ffb, 3, .usable⟩] [word - 0x1000] s ∧
        ∀ e ∈ [(⟨word - 0x1ffb, 3, .usable⟩ : MemmapEntry)], ¬ Whole 12 e (word - 0x1000)) := by
  have h1 : ballocAllocPage 12 [⟨word - 0x2000, 0x1000, .usable⟩] ballocStart =
      .ok (word - 0x2000, ⟨0, 0x1000, word - 0x2000⟩) := by decide +kernel
  have h2 : ballocAllocPage 12 [⟨word - 0x2000, 0x1000, .usable⟩] ⟨0, 0x1000, word - 0x2000⟩ =
      .ok (word - 0x1000, ⟨0, 0x2000, word - 0x1000⟩) := by decide +kernel
  have h3 : ballocAllocPage 12 [⟨word - 0x1ffb, 3, .usable⟩] ballocStart =
      .ok (word - 0x1000, ⟨0, 0x1ffb, word - 0x1000⟩) := by decide +kernel
  constructor
  · refine ⟨List.pairwise_singleton _ _, _, (Boot.start.alloc h1).alloc h2, ?_⟩
    simp only [List.mem_singleton, forall_eq]
    intro hw
    exact absurd hw.below (by decide)
  · refine ⟨List.pairwise_singleton _ _, _, Boot.start.alloc h3, ?_⟩
    simp only [List.mem_singleton, forall_eq]
    intro hw
    exact absurd hw.below (by decide)

end MemBalloc
