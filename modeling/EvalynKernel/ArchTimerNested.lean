import EvalynKernel.ArchTimer

/-! # Reading the wall clock (`timer_get_ticks`)

A thread's call reads the counter, compares it with `last_tick` and updates the two per-CPU
words in separate steps, and the timer interrupt may make a call of its own between two of
them. If it does so only between calls, every value is the true count up to a constant. -/
namespace ArchTimerNested

open MachineWords ArchTimer

structure Clock where
  lastTick : ℕ
  rollover : ℕ
  deriving DecidableEq, Repr

def readCounter (w : Wallclock) (count : ℕ) : ℕ :=
  match w with
  | .hpet => hpetGetTicks count
  | .acpiPmt => acpiPmtGetTicks count
  | .tsc => 0
  | .pvclock => 0

/-- A call that is not interrupted, such as that of the timer interrupt. -/
def timerGetTicks (w : Wallclock) (clock : Clock) (count : ℕ) : ℕ × Clock :=
  match w with
  | .tsc => (count % word, clock)
  | .pvclock => (0, clock)
  | w =>
    let curr := readCounter w count
    let rollover := if curr < clock.lastTick then wadd clock.rollover (timerRolloverPoint w)
      else clock.rollover
    (wadd rollover curr, ⟨curr, rollover⟩)

/-- How far a thread's call has come, with the value it read: the counter is read, it was found
behind `last_tick`, `rollover` is loaded, the comparison is dealt with, `last_tick` is stored. -/
inductive Point where
  | idle
  | read (curr : ℕ)
  | behind (curr : ℕ)
  | loaded (curr old : ℕ)
  | settled (curr : ℕ)
  | stored (curr : ℕ)
  deriving DecidableEq, Repr

/-- One CPU. The true counts are kept on the side: that of the call in progress, that of the
latest reading by anyone, and those of the values returned, latest first. -/
structure Cpu where
  clock : Clock
  point : Point
  since : ℕ
  sampled : Option ℕ
  log : List (ℕ × ℕ)
  deriving DecidableEq, Repr

/-- The next step of the thread's call; the first one reads the counter at `count`. -/
def threadStep (w : Wallclock) (m : Cpu) (count : ℕ) : Cpu :=
  match m.point with
  | .idle => { m with point := .read (readCounter w count), since := count, sampled := some count }
  | .read curr =>
    { m with point := if curr < m.clock.lastTick then .behind curr else .settled curr }
  | .behind curr => { m with point := .loaded curr m.clock.rollover }
  | .loaded curr old =>
    { m with
      clock := { m.clock with rollover := wadd old (timerRolloverPoint w) }
      point := .settled curr }
  | .settled curr => { m with clock := { m.clock with lastTick := curr }, point := .stored curr }
  | .stored curr =>
    { m with point := .idle, log := (m.since, wadd m.clock.rollover curr) :: m.log }

def interrupt (w : Wallclock) (m : Cpu) (count : ℕ) : Cpu :=
  let (value, clock) := timerGetTicks w m.clock count
  { m with clock, sampled := some count, log := (count, value) :: m.log }

/-- The counter has not gone back since the latest reading, nor round once. -/
def Timely (w : Wallclock) (m : Cpu) (count : ℕ) : Prop :=
  ∀ c, m.sampled = some c → c ≤ count ∧ count < c + timerRolloverPoint w

/-- The runs in which interrupts come only at the points allowed. -/
inductive Run (w : Wallclock) (allowed : Point → Prop) : Cpu → Prop where
  | start : Run w allowed ⟨⟨0, 0⟩, .idle, 0, none, []⟩
  | thread {m : Cpu} (count : ℕ) : Run w allowed m → (m.point = .idle → Timely w m count) →
      Run w allowed (threadStep w m count)
  | interrupt {m : Cpu} (count : ℕ) : Run w allowed m → allowed m.point → Timely w m count →
      Run w allowed (interrupt w m count)

variable {w : Wallclock} {m : Cpu} {clock : Clock} {base p c : ℕ}

/-- The words of the clock after a reading at `p`. -/
structure Standing (w : Wallclock) (base p : ℕ) (clock : Clock) : Prop where
  le : base ≤ p / timerRolloverPoint w * timerRolloverPoint w
  lastTick : clock.lastTick = p % timerRolloverPoint w
  rollover : clock.rollover = (p / timerRolloverPoint w * timerRolloverPoint w - base) % word

section Arithmetic

variable {R : ℕ}

/-- Less than one round later the counter is ahead in the same round or behind in the next. -/
theorem round_cases (hR : 0 < R) (hle : p ≤ c) (hlt : c < p + R) :
    c / R = p / R ∧ p % R ≤ c % R ∨ c / R = p / R + 1 ∧ c % R < p % R := by
  have hp := Nat.div_add_mod p R
  have hc := Nat.div_add_mod c R
  have hlo : p / R ≤ c / R := Nat.div_le_div_right hle
  have hhi : c / R ≤ p / R + 1 := by
    rw [← Nat.add_div_right p hR]
    exact Nat.div_le_div_right hlt.le
  rcases Nat.lt_or_eq_of_le hlo with hnext | hsame
  · have heq : c / R = p / R + 1 := by omega
    rw [heq, Nat.mul_add, Nat.mul_one] at hc
    exact .inr ⟨heq, by omega⟩
  · rw [← hsame] at hc
    exact .inl ⟨hsame.symm, by omega⟩

theorem wadd_mod (a b : ℕ) : wadd (a % word) b = (a + b) % word := by
  rw [wadd, Nat.mod_add_mod]

end Arithmetic

theorem Standing.le_next (h : Standing w base p clock) (hle : p ≤ c) :
    base ≤ c / timerRolloverPoint w * timerRolloverPoint w :=
  h.le.trans (Nat.mul_le_mul_right _ (Nat.div_le_div_right hle))

section Uninterrupted

variable (hw : w = .hpet ∨ w = .acpiPmt)

include hw

theorem rollover_pos : 0 < timerRolloverPoint w := by
  rcases hw with rfl | rfl <;> decide

theorem readCounter_eq (count : ℕ) : readCounter w count = count % timerRolloverPoint w := by
  rcases hw with rfl | rfl
  · exact hpetGetTicks_eq count
  · exact acpiPmtGetTicks_eq count

theorem timerGetTicks_eq (clock : Clock) (count : ℕ) :
    timerGetTicks w clock count =
      (wadd (if readCounter w count < clock.lastTick then
          wadd clock.rollover (timerRolloverPoint w) else clock.rollover) (readCounter w count),
        ⟨readCounter w count, if readCounter w count < clock.lastTick then
          wadd clock.rollover (timerRolloverPoint w) else clock.rollover⟩) := by
  rcases hw with rfl | rfl <;> rfl

/-- `rollover` after the comparison is that of the new round. -/
theorem Standing.advance (h : Standing w base p clock) (hle : p ≤ c)
    (hlt : c < p + timerRolloverPoint w) :
    (if readCounter w c < clock.lastTick then wadd clock.rollover (timerRolloverPoint w)
      else clock.rollover) = (c / timerRolloverPoint w * timerRolloverPoint w - base) % word := by
  have hbase := h.le
  rw [readCounter_eq hw, h.lastTick, h.rollover]
  rcases round_cases (rollover_pos hw) hle hlt with ⟨hsame, hahead⟩ | ⟨hnext, hbehind⟩
  · rw [if_neg (by omega), hsame]
  · rw [if_pos hbehind, wadd_mod, hnext, Nat.add_mul, Nat.one_mul]
    congr 1
    omega

theorem Standing.value (hle : base ≤ c / timerRolloverPoint w * timerRolloverPoint w) :
    wadd ((c / timerRolloverPoint w * timerRolloverPoint w - base) % word) (readCounter w c) =
      (c - base) % word := by
  have hc := Nat.div_add_mod' c (timerRolloverPoint w)
  rw [wadd_mod, readCounter_eq hw]
  congr 1
  omega

theorem Standing.call (h : Standing w base p clock) (hle : p ≤ c)
    (hlt : c < p + timerRolloverPoint w) :
    (timerGetTicks w clock c).1 = (c - base) % word ∧
      Standing w base c (timerGetTicks w clock c).2 := by
  have hnext := h.le_next hle
  rw [timerGetTicks_eq hw, h.advance hw hle hlt]
  exact ⟨Standing.value hw hnext, hnext, readCounter_eq hw c, rfl⟩

end Uninterrupted

/-- A call that has read `curr`, with the clock as the reading before, at `p`, left it. -/
structure Pending (w : Wallclock) (base p : ℕ) (m : Cpu) (curr : ℕ) : Prop where
  standing : Standing w base p m.clock
  sampled : m.sampled = some m.since
  curr_eq : curr = readCounter w m.since
  le : p ≤ m.since
  lt : m.since < p + timerRolloverPoint w

def Underway (w : Wallclock) (base p : ℕ) (m : Cpu) : Prop :=
  match m.point with
  | .idle => Standing w base p m.clock ∧ m.sampled = some p
  | .read curr => Pending w base p m curr
  | .behind curr => Pending w base p m curr ∧ curr < m.clock.lastTick
  | .loaded curr old => Pending w base p m curr ∧ curr < m.clock.lastTick ∧ old = m.clock.rollover
  | .settled curr => m.sampled = some m.since ∧ curr = readCounter w m.since ∧
      base ≤ m.since / timerRolloverPoint w * timerRolloverPoint w ∧
      m.clock.rollover = (m.since / timerRolloverPoint w * timerRolloverPoint w - base) % word
  | .stored curr => m.sampled = some m.since ∧ curr = readCounter w m.since ∧
      Standing w base m.since m.clock

/-- The values returned are the true counts less `base`, in the order of their readings. -/
structure Exact (w : Wallclock) (base : ℕ) (m : Cpu) : Prop where
  aligned : timerRolloverPoint w ∣ base
  values : ∀ e ∈ m.log, base ≤ e.1 ∧ e.2 = (e.1 - base) % word
  order : m.log.Pairwise fun later earlier => earlier.1 ≤ later.1
  latest : ∀ e ∈ m.log, ∀ c, m.sampled = some c → e.1 ≤ c

theorem Exact.push (h : Exact w base m) (hc : ∀ e ∈ m.log, e.1 ≤ c) (hbase : base ≤ c)
    (hlog : m'.log = (c, (c - base) % word) :: m.log) (hsampled : m'.sampled = some c) :
    Exact w base m' := by
  refine ⟨h.aligned, ?_, ?_, ?_⟩
  · rw [hlog]
    exact List.forall_mem_cons.2 ⟨⟨hbase, rfl⟩, h.values⟩
  · rw [hlog]
    exact List.pairwise_cons.2 ⟨hc, h.order⟩
  · intro e he c' hc'
    obtain rfl : c = c' := Option.some.inj (hsampled.symm.trans hc')
    rw [hlog] at he
    rcases List.mem_cons.1 he with rfl | he
    · exact le_rfl
    · exact hc e he

theorem Exact.read (h : Exact w base m) (hc : ∀ e ∈ m.log, e.1 ≤ c) (hlog : m'.log = m.log)
    (hsampled : m'.sampled = some c) : Exact w base m' := by
  refine ⟨h.aligned, hlog ▸ h.values, hlog ▸ h.order, fun e he c' hc' => ?_⟩
  obtain rfl : c = c' := Option.some.inj (hsampled.symm.trans hc')
  exact hc e (hlog ▸ he)

section Steps

variable (hw : w = .hpet ∨ w = .acpiPmt)

include hw

theorem threadStep_exact (hm : Underway w base p m) (he : Exact w base m)
    (ht : m.point = .idle → Timely w m count) :
    ∃ q, Underway w base q (threadStep w m count) ∧ Exact w base (threadStep w m count) := by
  cases hpoint : m.point with
  | idle =>
    simp only [Underway, hpoint] at hm
    obtain ⟨hle, hlt⟩ := ht hpoint p hm.2
    refine ⟨p, ?_, ?_⟩
    · simp only [threadStep, hpoint, Underway]
      exact ⟨hm.1, rfl, rfl, hle, hlt⟩
    · refine he.read (c := count) (fun e hmem => (he.latest e hmem p hm.2).trans hle) ?_ ?_
      · simp only [threadStep, hpoint]
      · simp only [threadStep, hpoint]
  | read curr =>
    simp only [Underway, hpoint] at hm
    refine ⟨p, ?_, ?_⟩
    · simp only [threadStep, hpoint]
      have hadvance := hm.standing.advance hw hm.le hm.lt
      by_cases hlt : curr < m.clock.lastTick
      · simp only [if_pos hlt, Underway]
        exact ⟨⟨hm.standing, hm.sampled, hm.curr_eq, hm.le, hm.lt⟩, hlt⟩
      · simp only [if_neg hlt, Underway]
        rw [← hm.curr_eq, if_neg hlt] at hadvance
        exact ⟨hm.sampled, hm.curr_eq, hm.standing.le_next hm.le, hadvance⟩
    · simp only [threadStep, hpoint]
      exact ⟨he.aligned, he.values, he.order, he.latest⟩
  | behind curr =>
    simp only [Underway, hpoint] at hm
    refine ⟨p, ?_, ?_⟩
    · simp only [threadStep, hpoint, Underway]
      exact ⟨⟨hm.1.standing, hm.1.sampled, hm.1.curr_eq, hm.1.le, hm.1.lt⟩, hm.2, trivial⟩
    · simp only [threadStep, hpoint]
      exact ⟨he.aligned, he.values, he.order, he.latest⟩
  | loaded curr old =>
    simp only [Underway, hpoint] at hm
    obtain ⟨hpend, hlt, rfl⟩ := hm
    have hadvance := hpend.standing.advance hw hpend.le hpend.lt
    rw [← hpend.curr_eq, if_pos hlt] at hadvance
    refine ⟨p, ?_, ?_⟩
    · simp only [threadStep, hpoint, Underway]
      exact ⟨hpend.sampled, hpend.curr_eq, hpend.standing.le_next hpend.le, hadvance⟩
    · simp only [threadStep, hpoint]
      exact ⟨he.aligned, he.values, he.order, he.latest⟩
  | settled curr =>
    simp only [Underway, hpoint] at hm
    obtain ⟨hsampled, hcurr, hle, hrollover⟩ := hm
    refine ⟨p, ?_, ?_⟩
    · simp only [threadStep, hpoint, Underway]
      exact ⟨hsampled, hcurr, hle, by rw [hcurr, readCounter_eq hw], hrollover⟩
    · simp only [threadStep, hpoint]
      exact ⟨he.aligned, he.values, he.order, he.latest⟩
  | stored curr =>
    simp only [Underway, hpoint] at hm
    obtain ⟨hsampled, hcurr, hstanding⟩ := hm
    have hle : base ≤ m.since := hstanding.le.trans (Nat.div_mul_le_self _ _)
    refine ⟨m.since, ?_, ?_⟩
    · simp only [threadStep, hpoint, Underway]
      exact ⟨hstanding, hsampled⟩
    · refine he.push (fun e hmem => he.latest e hmem _ hsampled) hle ?_ ?_
      · simp only [threadStep, hpoint]
        rw [hstanding.rollover, hcurr, Standing.value hw hstanding.le]
      · simp only [threadStep, hpoint]
        exact hsampled

theorem interrupt_exact (hm : Underway w base p m) (he : Exact w base m) (hidle : m.point = .idle)
    (ht : Timely w m c) :
    Underway w base c (interrupt w m c) ∧ Exact w base (interrupt w m c) := by
  simp only [Underway, hidle] at hm
  obtain ⟨hle, hlt⟩ := ht p hm.2
  obtain ⟨hvalue, hstanding⟩ := hm.1.call hw hle hlt
  have hbase : base ≤ c := hstanding.le.trans (Nat.div_mul_le_self _ _)
  constructor
  · simp only [Underway, interrupt, hidle]
    exact ⟨hstanding, trivial⟩
  · refine he.push (fun e hmem => (he.latest e hmem p hm.2).trans hle) hbase ?_ rfl
    simp only [interrupt, hvalue]

/-- Before the first reading the clock stands as it would at the start of that round. -/
theorem Standing.first (c : ℕ) :
    Standing w (c / timerRolloverPoint w * timerRolloverPoint w)
      (c / timerRolloverPoint w * timerRolloverPoint w) ⟨0, 0⟩ := by
  have hround := Nat.mul_div_cancel (c / timerRolloverPoint w) (rollover_pos hw)
  constructor
  · rw [hround]
  · exact (Nat.mul_mod_left _ _).symm
  · rw [hround, Nat.sub_self, Nat.zero_mod]

theorem run_exact (h : Run w (· = .idle) m) :
    m = ⟨⟨0, 0⟩, .idle, 0, none, []⟩ ∨ ∃ base p, Underway w base p m ∧ Exact w base m := by
  induction h with
  | start => exact .inl rfl
  | thread count _ ht ih =>
    right
    rcases ih with rfl | ⟨base, p, hm, he⟩
    · have hfirst := Standing.first hw count
      have hle := Nat.div_mul_le_self count (timerRolloverPoint w)
      have hlt := Nat.lt_div_mul_add (a := count) (rollover_pos hw)
      refine ⟨_, _, ⟨hfirst, rfl, rfl, hle, hlt⟩, Nat.dvd_mul_left _ _, ?_, .nil, ?_⟩
      · exact fun e he => absurd he List.not_mem_nil
      · exact fun e he => absurd he List.not_mem_nil
    · exact ⟨base, threadStep_exact hw hm he ht⟩
  | @interrupt m count _ hidle ht ih =>
    right
    rcases ih with rfl | ⟨base, p, hm, he⟩
    · have hle := Nat.div_mul_le_self count (timerRolloverPoint w)
      have hlt := Nat.lt_div_mul_add (a := count) (rollover_pos hw)
      obtain ⟨hvalue, hstanding⟩ := (Standing.first hw count).call hw hle hlt
      refine ⟨_, count, ⟨hstanding, rfl⟩, Nat.dvd_mul_left _ _, ?_, ?_, ?_⟩
      · exact List.forall_mem_singleton.2 ⟨hle, hvalue⟩
      · exact List.pairwise_singleton _ _
      · exact List.forall_mem_singleton.2 fun c hc => (Option.some.inj hc).le
    · exact ⟨base, count, interrupt_exact hw hm he hidle ht⟩

/-- The interrupt's reading is later in the round of the thread's: the thread then takes its own
reading for one of the next round. -/
theorem nested_value (hm : Standing w base p m.clock) (hidle : m.point = .idle) (hle : p ≤ c)
    (hlt : c' < p + timerRolloverPoint w) (hlater : c < c')
    (hround : c' / timerRolloverPoint w = c / timerRolloverPoint w) :
    ((threadStep w · 0)^[5] (interrupt w (threadStep w m c) c')).log =
      (c, (c - base + timerRolloverPoint w) % word) :: (c', (c' - base) % word) :: m.log := by
  obtain ⟨hvalue, hstanding⟩ := hm.call hw (hle.trans hlater.le) hlt
  have hbehind : c % timerRolloverPoint w < (timerGetTicks w m.clock c').2.lastTick := by
    rw [hstanding.lastTick]
    have hc := Nat.div_add_mod c (timerRolloverPoint w)
    have hc' := Nat.div_add_mod c' (timerRolloverPoint w)
    rw [hround] at hc'
    omega
  have hbase := hm.le_next hle
  have hc := Nat.div_add_mod' c (timerRolloverPoint w)
  simp only [Function.iterate_succ, Function.iterate_zero, Function.comp_apply, id_eq, threadStep,
    interrupt, hidle, if_pos hbehind, hvalue, hstanding.rollover, hround, wadd_mod,
    readCounter_eq hw]
  congr 3
  omega

/-- Interrupted only between calls, the clock returns the true count up to a constant, `rollover`
counts the wraps and values do not decrease (until they wrap themselves). An interrupt between
the reading of the counter and its comparison puts the value a whole period ahead. -/
theorem wall_clock_exact (h : Run w (· = .idle) m) :
    ∃ base, timerRolloverPoint w ∣ base ∧
      (∀ e ∈ m.log, base ≤ e.1 ∧ e.2 = (e.1 - base) % word) ∧
      (m.log.Pairwise fun later earlier => later.1 - base < word → earlier.2 ≤ later.2) ∧
      (m.point = .idle → ∀ p, m.sampled = some p →
        m.clock.rollover = (p / timerRolloverPoint w * timerRolloverPoint w - base) % word ∧
        ∀ c c', p ≤ c → c < c' → c' < p + timerRolloverPoint w →
          c' / timerRolloverPoint w = c / timerRolloverPoint w →
          ((threadStep w · 0)^[5] (interrupt w (threadStep w m c) c')).log =
            (c, (c - base + timerRolloverPoint w) % word) ::
              (c', (c' - base) % word) :: m.log) := by
  rcases run_exact hw h with rfl | ⟨base, p, hm, he⟩
  · refine ⟨0, Nat.dvd_zero _, ?_, .nil, ?_⟩
    · exact fun e he => absurd he List.not_mem_nil
    · exact fun _ p hp => absurd hp (Option.some_ne_none p).symm
  · refine ⟨base, he.aligned, he.values, ?_, ?_⟩
    · apply he.order.imp_of_mem
      intro later earlier hlater hearlier hle hword
      rw [(he.values _ hlater).2, (he.values _ hearlier).2, Nat.mod_eq_of_lt hword]
      exact (Nat.mod_le _ _).trans (Nat.sub_le_sub_right hle base)
    · intro hidle q hq
      simp only [Underway, hidle] at hm
      obtain rfl : p = q := Option.some.inj (hm.2.symm.trans hq)
      exact ⟨hm.1.rollover, fun c c' hle hlater hlt => nested_value hw hm.1 hidle hle hlt hlater⟩

end Steps

theorem Run.inside {allowed : Point → Prop} (h : Run w allowed m) (hpoint : m.point ≠ .idle) :
    Run w allowed (threadStep w m 0) :=
  h.thread 0 fun hidle => absurd hidle hpoint

theorem first_call (allowed : Point → Prop) :
    Run .acpiPmt allowed ⟨⟨100, 0⟩, .idle, 100, some 100, [(100, 100)]⟩ := by
  have hread : Run .acpiPmt allowed ⟨⟨0, 0⟩, .read 100, 100, some 100, []⟩ :=
    Run.start.thread 100 fun _ c hc => absurd hc (Option.some_ne_none c).symm
  exact ((hread.inside (by decide)).inside (by decide)).inside (by decide)

/-- Two calls of the thread on the ACPI timer, the second after a wrap. -/
theorem second_call_after_wrap :
    ∃ m, Run .acpiPmt (· = .idle) m ∧ m.log = [(2 ^ 24 + 3, 2 ^ 24 + 3), (100, 100)] ∧
      ∃ base, ∀ e ∈ m.log, base ≤ e.1 ∧ e.2 = (e.1 - base) % word := by
  have hread := (first_call (· = .idle)).thread (2 ^ 24 + 3) fun _ c hc => by
    obtain rfl : 100 = c := Option.some.inj hc
    decide
  have hrun := ((((hread.inside (by decide)).inside (by decide)).inside (by decide)).inside
    (by decide)).inside (by decide)
  obtain ⟨base, _, hvalues, _⟩ := wall_clock_exact (.inr rfl) hrun
  exact ⟨_, hrun, by decide +kernel, base, hvalues⟩

/-- The thread reads 105, the interrupt 107 before the thread compares, and the thread's value is
a period ahead of its reading and of the interrupt's value. -/
theorem nested_read_jumps :
    ∃ m, Run .acpiPmt (fun _ => True) m ∧
      m.log = [(105, 2 ^ 24 + 105), (107, 107), (100, 100)] ∧
      ¬ ∃ base, ∀ e ∈ m.log, e.2 = (e.1 + base) % word := by
  have hread := (first_call fun _ => True).thread 105 fun _ c hc => by
    obtain rfl : 100 = c := Option.some.inj hc
    decide
  have hnested := hread.interrupt 107 trivial fun c hc => by
    obtain rfl : 105 = c := Option.some.inj hc
    decide
  have hrun := ((((hnested.inside (by decide)).inside (by decide)).inside (by decide)).inside
    (by decide)).inside (by decide)
  refine ⟨_, hrun, by decide +kernel, ?_⟩
  rintro ⟨base, hvalues⟩
  have hthread := hvalues (105, 2 ^ 24 + 105) (by decide +kernel)
  have hinterrupt := hvalues (107, 107) (by decide +kernel)
  simp only [word] at hthread hinterrupt
  omega

end ArchTimerNested
