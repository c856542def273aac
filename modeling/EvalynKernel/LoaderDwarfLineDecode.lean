import EvalynKernel.DwarfLineEncoding
import EvalynKernel.LoaderDwarfLine

/-! # What the reader makes of well-formed bytes

Each reader of `loader/dwarf` returns what the bytes stand for and where they end. -/
namespace LoaderDwarfLineDecode

open MachineWords ByteScanner DwarfLineEncoding LoaderDwarfHelpers LoaderDwarfLine

variable {s : Bytes}

variable {p q n c b : ℕ}

section Leb

variable {k : ℕ}

theorem or_shiftLeft (hr : r < 2 ^ k) (hk : k ≤ 64) :
    r ||| (c <<< k) % word = (r + c * 2 ^ k) % word := by
  have hword : word = 2 ^ (64 - k) * 2 ^ k := by rw [← Nat.pow_add, Nat.sub_add_cancel hk]
  rw [Nat.shiftLeft_eq, hword, Nat.mul_mod_mul_right, Nat.or_comm, Nat.mul_comm _ (2 ^ k),
    ← Nat.two_pow_add_eq_or_of_lt hr, Nat.mul_comm (2 ^ k)]
  have hlt : c % 2 ^ (64 - k) * 2 ^ k + r < 2 ^ (64 - k) * 2 ^ k := by
    have := Nat.mod_lt c (Nat.two_pow_pos (64 - k))
    calc c % 2 ^ (64 - k) * 2 ^ k + r < c % 2 ^ (64 - k) * 2 ^ k + 2 ^ k := by omega
      _ = (c % 2 ^ (64 - k) + 1) * 2 ^ k := by ring
      _ ≤ 2 ^ (64 - k) * 2 ^ k := Nat.mul_le_mul_right _ this
  conv_rhs => rw [← Nat.mod_add_div c (2 ^ (64 - k))]
  rw [show r + (c % 2 ^ (64 - k) + 2 ^ (64 - k) * (c / 2 ^ (64 - k))) * 2 ^ k =
    c % 2 ^ (64 - k) * 2 ^ k + r + 2 ^ (64 - k) * 2 ^ k * (c / 2 ^ (64 - k)) by ring,
    Nat.add_mul_mod_self_left, Nat.mod_eq_of_lt hlt]

theorem and_continuation : ∀ b : UInt8, b.toNat &&& 0x80 = 0 ↔ b.toNat < 128 := by
  have h : ∀ i : Fin 256, i.val &&& 0x80 = 0 ↔ i.val < 128 := by decide +kernel
  exact fun b => h ⟨b.toNat, b.toNat_lt⟩

variable {stop : ℕ} (hstop : stop ≤ s.size)
include hstop

variable {l : Leb}

theorem lebRound_eq (hp : l.p < stop) (hshift : l.shift < 64) :
    lebRound s stop l = .ok (if (s.byte l.p).toNat < 128 then .inr (l.push (s.byte l.p).toNat)
      else .inl (l.push (s.byte l.p).toNat)) := by
  unfold lebRound
  rw [require_of hp, value_bind, require_of hshift, value_bind, read_of_lt (by omega), value_bind]
  simp only [and_continuation]
  rfl

omit hstop in
theorem push_eq (hr : l.result < 2 ^ l.shift) (hshift : l.shift < 64) :
    l.push b = ⟨l.p + 1, (l.result + b % 128 * 2 ^ l.shift) % word, l.shift + 7⟩ := by
  unfold Leb.push
  rw [show (0x7f : ℕ) = 2 ^ 7 - 1 from rfl, Nat.and_two_pow_sub_one_eq_mod,
    or_shiftLeft hr (Nat.le_of_lt hshift)]

variable {v : ℕ}

theorem lebLoop_eq (h : Uleb s p q v) (hq : q ≤ stop) (hp : l.p = p) (hr : l.result < 2 ^ l.shift)
    (hshift : l.shift + 7 * (q - p) ≤ 70) (hn : q - p ≤ n) :
    loop (lebRound s stop) n l =
      .ok ⟨q, (l.result + v * 2 ^ l.shift) % word, l.shift + 7 * (q - p)⟩ := by
  induction h generalizing l n with
  | @last p hb =>
    obtain ⟨n, rfl⟩ : ∃ m, n = m + 1 := ⟨n - 1, by omega⟩
    have hround := lebRound_eq hstop (l := l) (by omega) (by omega)
    rw [hp, if_pos hb, push_eq hr (by omega), hp, Nat.mod_eq_of_lt hb] at hround
    rw [loop_succ_of_done hround]
    simp
  | @more p q v hb htail ih =>
    have hlt := htail.lt
    obtain ⟨n, rfl⟩ : ∃ m, n = m + 1 := ⟨n - 1, by omega⟩
    have hround := lebRound_eq hstop (l := l) (by omega) (by omega)
    have hb' := (s.byte p).toNat_lt
    have hfit : l.result + ((s.byte p).toNat - 128) * 2 ^ l.shift < 2 ^ (l.shift + 7) := by
      have := Nat.mul_le_mul_right (2 ^ l.shift) (show (s.byte p).toNat - 128 ≤ 127 by omega)
      rw [Nat.pow_add]
      omega
    have hword : 2 ^ (l.shift + 7) ≤ word := Nat.pow_le_pow_right (by decide) (by omega)
    rw [hp, if_neg (by omega), push_eq hr (by omega), hp,
      show (s.byte p).toNat % 128 = (s.byte p).toNat - 128 by omega,
      Nat.mod_eq_of_lt (by omega)] at hround
    rw [loop_succ_of_passes hround, ih hq rfl hfit (by simp only; omega) (by omega)]
    rw [show l.shift + 7 + 7 * (q - (p + 1)) = l.shift + 7 * (q - p) by omega,
      show l.result + ((s.byte p).toNat - 128) * 2 ^ l.shift + v * 2 ^ (l.shift + 7) =
        l.result + ((s.byte p).toNat - 128 + 128 * v) * 2 ^ l.shift by rw [Nat.pow_add]; ring]

theorem dwarfReadUlebImpl_eq (h : Uleb s p q v) (hq : q ≤ stop) (hshort : q ≤ p + 10) :
    dwarfReadUlebImpl s stop p = .ok ⟨q, v % word, 7 * (q - p)⟩ := by
  unfold dwarfReadUlebImpl
  rw [lebLoop_eq hstop h hq rfl (by simp) (by simp only; omega) (by omega)]
  simp

theorem dwarfReadUleb_eq (h : Unsigned s p q v) (hq : q ≤ stop) :
    dwarfReadUleb s stop p = .ok (v, q) := by
  unfold dwarfReadUleb
  rw [dwarfReadUlebImpl_eq hstop h.leb hq h.short, value_bind]
  simp only [Nat.mod_eq_of_lt h.fits]
  rfl

omit hstop in
theorem uleb_of_sleb {v : ℤ} (h : Sleb s p q v) :
    ∃ w m, m = 2 ^ (7 * (q - p) - 1) ∧ Uleb s p q w ∧ w < 2 * m ∧
      v = if w < m then (w : ℤ) else w - 2 * m := by
  induction h with
  | @positive p hb =>
    refine ⟨_, 64, by simp, .last (by omega), by omega, ?_⟩
    rw [if_pos hb]
  | @negative p hb hb' =>
    refine ⟨_, 64, by simp, .last hb', by omega, ?_⟩
    rw [if_neg (by omega)]
    norm_num
  | @more p q v hb htail ih =>
    obtain ⟨w, m, hm, hw, hlt, hv⟩ := ih
    have hpq := htail.lt
    have hb' := (s.byte p).toNat_lt
    refine ⟨_, 128 * m, ?_, .more hb hw, by omega, ?_⟩
    · rw [hm, show 7 * (q - p) - 1 = 7 + (7 * (q - (p + 1)) - 1) by omega, Nat.pow_add]
    · rw [hv]
      by_cases hwm : w < m
      · rw [if_pos hwm, if_pos (by omega)]
        push_cast [hb]
        ring
      · rw [if_neg hwm, if_neg (by omega)]
        push_cast [hb]
        ring

omit hstop in
theorem signExtend_eq {w m : ℕ} (hk : 1 ≤ k) (hk10 : k ≤ 10) (hm : m = 2 ^ (7 * k - 1))
    (hlt : w < 2 * m) :
    (if 7 * k < 64 ∧ (w % word).testBit (7 * k - 1) then
        w % word ||| ((word - 1) <<< (7 * k)) % word else w % word) =
      ((if w < m then (w : ℤ) else w - 2 * m) % (word : ℕ)).toNat := by
  have hword := word_eq
  have h2m : 2 * m = 2 ^ (7 * k) := by
    rw [hm, Nat.mul_comm, ← Nat.pow_succ, show (7 * k - 1).succ = 7 * k by omega]
  by_cases hshift : 7 * k < 64
  · have hsmall : 2 * m ≤ 2 ^ 63 := by
      rw [h2m]
      exact Nat.pow_le_pow_right (by decide) (by omega)
    rw [Nat.mod_eq_of_lt (by omega)]
    by_cases hw : w < m
    · have hbit : w.testBit (7 * k - 1) = false := Nat.testBit_lt_two_pow (by omega)
      rw [if_neg (by simp [hbit]), if_pos hw, hword]
      omega
    · have hbit : w.testBit (7 * k - 1) = true := by
        refine Nat.testBit_of_two_pow_le_and_two_pow_add_one_gt (by omega) ?_
        rw [show 7 * k - 1 + 1 = 7 * k by omega]
        omega
      have hsum : w + (word - 1) * (2 * m) = w + word - 2 * m + word * (2 * m - 1) := by
        rw [Nat.sub_one_mul, Nat.mul_sub_one]
        have := Nat.mul_le_mul_left word (show 1 ≤ 2 * m by omega)
        omega
      rw [if_pos ⟨hshift, hbit⟩, if_neg hw, or_shiftLeft (by omega) (by omega), ← h2m, hsum,
        Nat.add_mul_mod_self_left, Nat.mod_eq_of_lt (by omega), hword]
      omega
  · obtain rfl : k = 10 := by omega
    rw [if_neg (by omega), hword]
    split <;> omega

theorem dwarfReadSleb_eq {v : ℤ} (h : Signed s p q v) (hq : q ≤ stop) :
    dwarfReadSleb s stop p = .ok ((v % (word : ℕ)).toNat, q) := by
  obtain ⟨w, m, hm, hw, hlt, hv⟩ := uleb_of_sleb h.leb
  have hpq := hw.lt
  have hshort := h.short
  unfold dwarfReadSleb
  rw [dwarfReadUlebImpl_eq hstop hw hq hshort, value_bind]
  simp only [signExtend_eq (show 1 ≤ q - p by omega) (by omega) hm hlt, ← hv]
  rfl

omit hstop in
theorem lebRound_reject (h : ¬ (l.p < stop ∧ l.shift < 64)) :
    lebRound s stop l = .error .reject := by
  unfold lebRound require
  by_cases hp : l.p < stop
  · rw [if_pos hp, value_bind, if_neg (fun hshift => h ⟨hp, hshift⟩)]
    rfl
  · rw [if_neg hp]
    rfl

theorem dwarfReadUlebImpl_reject (h : Uleb s p q v) (hq : stop < q) :
    dwarfReadUlebImpl s stop p = .error .reject := by
  have hloop : ∀ l : Leb, l.p = p → ∀ n, stop - p < n →
      loop (lebRound s stop) n l = .error .reject := by
    induction h with
    | @last p hb =>
      intro l hp n hn
      obtain ⟨n, rfl⟩ : ∃ m, n = m + 1 := ⟨n - 1, by omega⟩
      exact loop_succ_of_error (lebRound_reject (by omega))
    | @more p q v hb htail ih =>
      intro l hp n hn
      obtain ⟨n, rfl⟩ : ∃ m, n = m + 1 := ⟨n - 1, by omega⟩
      by_cases hl : l.p < stop ∧ l.shift < 64
      · have hround := lebRound_eq hstop hl.1 hl.2
        rw [hp, if_neg (by omega)] at hround
        rw [loop_succ_of_passes hround]
        exact ih hq (l.push _) (congrArg (· + 1) hp) n (by omega)
      · exact loop_succ_of_error (lebRound_reject hl)
  exact hloop ⟨p, 0, 0⟩ rfl _ (by omega)

/-- Reading a LEB128 number: the number and its length, or nothing where the bytes end
before it does; the cursor stays before the end in every case. -/
theorem dwarf_read_leb_decodes {p q : ℕ} (hp : p ≤ stop) :
    (∀ v, Unsigned s p q v →
      (q ≤ stop → dwarfReadUleb s stop p = .ok (v, q)) ∧
      (stop < q → dwarfReadUleb s stop p = .error .reject)) ∧
    (∀ w : ℤ, Signed s p q w → -2 ^ 63 ≤ w → w < 2 ^ 63 →
      (q ≤ stop → ∃ r, dwarfReadSleb s stop p = .ok (r, q) ∧ (BitVec.ofNat 64 r).toInt = w) ∧
      (stop < q → dwarfReadSleb s stop p = .error .reject)) ∧
    (dwarfReadUleb s stop p = .error .reject ∨ dwarfReadSleb s stop p = .error .reject →
      lebCursor s stop (stop - p + 1) ⟨p, 0, 0⟩ ≤ stop) ∧
    ∀ l, dwarfReadUlebImpl s stop p = .ok l → lebCursor s stop (stop - p + 1) ⟨p, 0, 0⟩ = l.p := by
  refine ⟨fun v hv => ⟨dwarfReadUleb_eq hstop hv, fun hq => ?_⟩,
    fun w hw hlo hhi => ⟨fun hq => ⟨_, dwarfReadSleb_eq hstop hw hq, ?_⟩, fun hq => ?_⟩,
    fun _ => lebCursor_le hstop hp, fun l => lebCursor_of_ok⟩
  · rw [dwarfReadUleb, dwarfReadUlebImpl_reject hstop hv.leb hq]
    rfl
  · have hword := word_eq
    rw [BitVec.toInt_eq_toNat_cond, BitVec.toNat_ofNat, hword]
    split <;> omega
  · obtain ⟨v, m, -, hv, -⟩ := uleb_of_sleb hw.leb
    rw [dwarfReadSleb, dwarfReadUlebImpl_reject hstop hv hq]
    rfl

end Leb

/-- The bytes of 624485, followed by another one. -/
def lebBytes : Bytes := .ofList [0xe5, 0x8e, 0x26, 0xff]

theorem lebBytes_decoded :
    dwarfReadUleb lebBytes 4 0 = .ok (624485, 3) ∧ dwarfReadUleb lebBytes 2 0 = .error .reject ∧
      ∃ r, dwarfReadSleb lebBytes 4 0 = .ok (r, 3) ∧ (BitVec.ofNat 64 r).toInt = 624485 :=
  have hu : Unsigned lebBytes 0 3 624485 :=
    ⟨.more (by decide) (.more (by decide) (.last (by decide))), by decide, by decide⟩
  have hs : Signed lebBytes 0 3 624485 :=
    ⟨.more (by decide) (.more (by decide) (.positive (by decide))), by decide⟩
  have h4 := dwarf_read_leb_decodes (s := lebBytes) (show 4 ≤ 4 by decide) (show 0 ≤ 4 by decide)
  have h2 := dwarf_read_leb_decodes (s := lebBytes) (show 2 ≤ 4 by decide) (show 0 ≤ 2 by decide)
  ⟨(h4.1 _ hu).1 (by decide), (h2.1 _ hu).2 (by decide),
    (h4.2.1 _ hs (by decide) (by decide)).1 (by decide)⟩

theorem dwarfReadBytes_eq (hsize : s.size < word) (hstop : stop ≤ s.size) (hp : p + bytes ≤ stop) :
    dwarfReadBytes s stop p bytes = .ok (leValue s p bytes, p + bytes) := by
  unfold dwarfReadBytes
  rw [require_of (by rw [wsub_of_le (by omega) (by omega)]; omega), value_bind,
    readLe_of_le (by omega), value_bind]
  rfl

section Strings

variable {len : ℕ}

theorem strnlen_eq (h : CString s p len (p + n)) (hn : p + n ≤ s.size) :
    strnlen s p n = .ok len := by
  obtain ⟨hlt, hnz, hz⟩ := h
  induction n generalizing p len with
  | zero => omega
  | succ n ih =>
    rw [strnlen, read_of_lt (by omega), value_bind]
    cases len with
    | zero =>
      have h0 : s.byte p = 0 := hz
      rw [if_pos (toNat_eq_zero.mpr h0)]
      rfl
    | succ len =>
      have h0 : s.byte p ≠ 0 := hnz 0 (by omega)
      have htail : strnlen s (p + 1) n = .ok len := by
        refine ih (by omega) (by omega) (fun i hi => ?_) ?_
        · rw [show p + 1 + i = p + (i + 1) by omega]
          exact hnz (i + 1) (by omega)
        · rw [show p + 1 + len = p + (len + 1) by omega]
          exact hz
      rw [if_neg fun hb => h0 (toNat_eq_zero.mp hb), htail]
      rfl

variable (hsize : s.size < word) {stop : ℕ} (hstop : stop ≤ s.size)
include hsize hstop

theorem skipString_eq (h : CString s p len (p + len + 1)) (hle : p + len + 1 ≤ stop) :
    skipString s stop p = .ok (p + len + 1) := by
  have hstr : CString s p len (p + (stop - p)) := ⟨by omega, h.2⟩
  unfold skipString
  rw [wsub_of_le (by omega) (by omega), strnlen_eq hstr (by omega), value_bind,
    require_of (by omega), value_bind]
  rfl

theorem dirWalk_eq (h : Dirs s p q) (hq : q ≤ stop) (hn : q - p ≤ n) :
    loop (dirRound s stop) n p = .ok q := by
  induction h generalizing n with
  | @nil p hz =>
    obtain ⟨n, rfl⟩ : ∃ m, n = m + 1 := ⟨n - 1, by omega⟩
    refine loop_succ_of_done ?_
    unfold dirRound
    rw [if_pos (by omega), read_of_lt (by omega), value_bind, if_pos (toNat_eq_zero.mpr hz)]
    rfl
  | @cons p len q hlen hstr htail ih =>
    have := htail.lt
    obtain ⟨n, rfl⟩ : ∃ m, n = m + 1 := ⟨n - 1, by omega⟩
    have hround : Passes (dirRound s stop) p (p + len + 1) := by
      unfold Passes dirRound
      have h0 : s.byte p ≠ 0 := hstr.2.1 0 hlen
      rw [if_pos (by omega), read_of_lt (by omega), value_bind,
        if_neg fun hb => h0 (toNat_eq_zero.mp hb), skipString_eq hsize hstop hstr (by omega)]
      rfl
    rw [loop_succ_of_passes hround]
    exact ih hq (by omega)

theorem skipFile_eq (hstr : CString s p len (p + len + 1)) (ha : Unsigned s (p + len + 1) a dir)
    (hb : Unsigned s a b time) (hc : Unsigned s b c length) (hle : c ≤ stop) :
    skipFile s stop p = .ok c := by
  have := ha.lt
  have := hb.lt
  have := hc.lt
  unfold skipFile
  rw [skipString_eq hsize hstop hstr (by omega), value_bind,
    dwarfReadUleb_eq hstop ha (by omega), value_bind]
  simp only
  rw [dwarfReadUleb_eq hstop hb (by omega), value_bind]
  simp only
  rw [dwarfReadUleb_eq hstop hc hle, value_bind]
  rfl

variable {files : List ℕ} {name : ℕ}

theorem files_entry (h : Files s files p q) (hq : q ≤ stop) (hi : files[i]? = some name) :
    skipEntries (skipFile s stop) i p = .ok name ∧
      ∃ len a dir, CString s name len (name + len + 1) ∧
        Unsigned s (name + len + 1) a dir ∧ a ≤ stop := by
  induction h generalizing i with
  | nil _ => cases hi
  | @cons files p len a b c dir time length q hlen hstr ha hb hc htail ih =>
    have := hb.lt
    have := hc.lt
    have := htail.lt
    cases i with
    | zero =>
      cases hi
      exact ⟨rfl, len, a, dir, hstr, ha, by omega⟩
    | succ i =>
      obtain ⟨hskip, hrest⟩ := ih hq hi
      refine ⟨?_, hrest⟩
      rw [skipEntries, skipFile_eq hsize hstop hstr ha hb hc (by omega), value_bind, hskip]

theorem lookupFile_eq (hstart : info.instrStart = stop) (h : Files s files info.fileTable q)
    (hq : q ≤ stop) (hindex : 1 ≤ index) (hname : files[index - 1]? = some name) :
    ∃ dir, lookupFile s info index = .ok (name, dir) := by
  obtain ⟨hskip, len, a, dir, hstr, ha, hle⟩ := files_entry hsize hstop h hq hname
  have := ha.lt
  refine ⟨dir, ?_⟩
  unfold lookupFile
  rw [require_of (by omega), value_bind, hstart, hskip, value_bind,
    skipString_eq hsize hstop hstr (by omega), value_bind, dwarfReadUleb_eq hstop ha hle,
    value_bind]
  rfl

end Strings

def unitInfo (s : Bytes) (t : LineUnit) (u v size fileTable start : ℕ) : LineInfo where
  minInstLen := t.header.minInstLen
  maxOps := 1
  lineBase := signExtend8 (s.byte (u + size - 3)).toNat
  lineRange := t.header.lineRange
  opcodeBase := t.header.opcodeBase
  dirTable := u + size + t.header.opcodeBase - 1
  fileTable := fileTable
  instrStart := start
  instrEnd := v

section Units

variable {t : LineUnit} {u v size fileTable fileEnd start : ℕ}

theorem parseHeader_eq (h : HeaderAt s u size t.header) (hroom : u + 16 ≤ s.size)
    (out : LineInfo) :
    parseHeader s (leValue s (u + 4) 2) u out =
      .ok { out with
        minInstLen := t.header.minInstLen
        maxOps := 1
        lineBase := signExtend8 (s.byte (u + size - 3)).toNat
        lineRange := t.header.lineRange
        opcodeBase := t.header.opcodeBase } := by
  have hmin := h.minInstLen
  have hrange := h.lineRange
  have hbase := h.opcodeBase
  rcases h.version with ⟨hv, rfl⟩ | ⟨hv, rfl, hops⟩
  · rw [hv]
    unfold parseHeader dwarfLineParseV3
    rw [if_pos rfl]
    iterate 4 rw [read_of_lt (by omega), value_bind]
    rw [hmin, show u + 13 = u + 15 - 2 by omega, hrange, show u + 14 = u + 15 - 1 by omega, hbase]
    rfl
  · rw [hv]
    unfold parseHeader dwarfLineParseV4
    rw [if_neg (by decide)]
    iterate 5 rw [read_of_lt (by omega), value_bind]
    rw [hmin, hops, show u + 14 = u + 16 - 2 by omega, hrange, show u + 15 = u + 16 - 1 by omega,
      hbase]
    rfl

theorem dwarfLineParseTables_eq (hsize : s.size < word)
    (h : Layout s t u v size fileTable fileEnd start) (hv : v ≤ s.size) :
    dwarfLineParseTables s u s.size = .ok (unitInfo s t u v size fileTable start) := by
  have hwhole := h.whole
  have hlength := h.length
  have hheader := h.headerLength
  have hpos := h.header.opcodeBase_pos
  have hdirs := h.dirs.lt
  have hfiles := h.files.lt
  have hfits := h.fits
  have hprogram := h.program.le
  have hsizes : size = 15 ∨ size = 16 := by
    rcases h.header.version with ⟨-, rfl⟩ | ⟨-, rfl, -⟩
    · exact Or.inl rfl
    · exact Or.inr rfl
  have hversion : leValue s (u + 4) 2 = 3 ∨ leValue s (u + 4) 2 = 4 := by
    rcases h.header.version with ⟨h3, -⟩ | ⟨h4, -⟩
    · exact Or.inl h3
    · exact Or.inr h4
  have hheaderSize : (if leValue s (u + 4) 2 = 3 then 15 else 16) = size := by
    rcases h.header.version with ⟨h3, rfl⟩ | ⟨h4, rfl, -⟩
    · rw [if_pos h3]
    · rw [if_neg (by omega)]
  unfold dwarfLineParseTables
  rw [require_of (by rw [wsub_of_le (by omega) hsize]; omega), value_bind,
    readLe_of_le (by omega), value_bind, readLe_of_le (by omega), value_bind,
    readLe_of_le (by omega), value_bind, require_of hversion, value_bind]
  simp only [hheaderSize]
  rw [require_of (by unfold uint32Max; omega), value_bind, require_of (by omega), value_bind,
    require_of (by omega), value_bind,
    require_of (by rw [wsub_of_le (by omega) (by omega)]; omega), value_bind,
    parseHeader_eq h.header (by omega), value_bind]
  rw [require_of (Nat.ne_of_gt h.header.lineRange_pos), value_bind,
    require_of (Nat.ne_of_gt hpos), value_bind, require_of Nat.one_ne_zero, value_bind,
    require_of (by simp only; omega), value_bind, hheader]
  simp only
  rw [dirWalk_eq hsize (by omega) h.dirs (by omega) (by omega), value_bind, hwhole]
  rfl

end Units

end LoaderDwarfLineDecode
