import EvalynKernel.LibcStdlibPlaces

/-! # Runs of the kernel heap

Calls in any order, the owners' writes and the pages that the rest of the kernel takes and
gives back. A live block keeps the place `kmalloc` took for it, and its free gives back that
place. -/
namespace LibcStdlibRuns

open MachineWords DyadicBlocks MemBuddyAllocator MemBuddyInvariant MemBuddyOperations MemSpalloc
open MemSpallocInvariant LibcStdlib LibcStdlibPlaces

variable {shift hhdm : ℕ} {a : ℕ → Allocator} {R H : Set Block} {h h' s : Heap}

/-- A live block: the base and size passed to `kmalloc`, the pointer returned, the bytes asked
for and their alignment, and whether a header stands before the pointer. -/
structure Chunk where
  base : ℕ
  total : ℕ
  ptr : ℕ
  size : ℕ
  align : ℕ
  headed : Bool

def Chunk.place (shift : ℕ) (k : Chunk) : Place := placeOf shift k.total k.base

def maxSize (shift : ℕ) : ℕ := 2 ^ (shift + maxOrder)

def alignedTotal (size align : ℕ) : ℕ := size + mallocHeaderSize + max 16 align - 1

def Untouched (live : List Chunk) (x n : ℕ) : Prop :=
  ∀ k ∈ live, x + n ≤ k.ptr ∨ k.ptr + k.size ≤ x

def Outside (live : List Chunk) (x n : ℕ) : Prop :=
  ∀ k ∈ live, x + n ≤ k.base ∨ k.base + k.total ≤ x

inductive Run (shift hhdm : ℕ) (R : Set Block) : Heap → List Chunk → Set Block → Prop
  | init {b A H classes₀ classes headers next blocks} : MemBuddyRuns.Run shift b A R H →
      mallocInit shift classes₀ = .ok classes →
      Run shift hhdm R ⟨b, classes, headers, next, blocks, fun _ => [], fun _ => [], []⟩ [] H
  | kmalloc {h live H size ptr h'} : Run shift hhdm R h live H → size ≠ 0 → size ≤ maxSize shift →
      kmalloc shift hhdm h size = .ok (ptr, h') →
      Run shift hhdm R h' (⟨ptr, size, ptr, size, 1, false⟩ :: live) H
  | kfree {h A k B H h'} : Run shift hhdm R h (A ++ k :: B) H → k.headed = false →
      kfree shift hhdm h k.ptr k.size = .ok h' → Run shift hhdm R h' (A ++ B) H
  | malloc {h live H size base h₁ ptr h'} : Run shift hhdm R h live H → size ≠ 0 →
      size + mallocHeaderSize ≤ maxSize shift →
      LibcStdlib.kmalloc shift hhdm h (size + mallocHeaderSize) = .ok (base, h₁) →
      malloc shift hhdm h size = .ok (ptr, h') →
      Run shift hhdm R h' (⟨base, size + mallocHeaderSize, ptr, size, 16, true⟩ :: live) H
  | mallocAligned {h live H size align base h₁ ptr h'} : Run shift hhdm R h live H → size ≠ 0 →
      (∃ j, align = 2 ^ j) → alignedTotal size align ≤ maxSize shift →
      LibcStdlib.kmalloc shift hhdm h (alignedTotal size align) = .ok (base, h₁) →
      mallocAligned shift hhdm h size align = .ok (ptr, h') →
      Run shift hhdm R h'
        (⟨base, alignedTotal size align, ptr, size, max 16 align, true⟩ :: live) H
  | free {h A k B H h'} : Run shift hhdm R h (A ++ k :: B) H → k.headed = true →
      free shift hhdm h k.ptr = .ok h' → Run shift hhdm R h' (A ++ B) H
  | write {h live H} (headers : ℕ → PageHeader) (next : ℕ → ℕ) (blocks : ℕ → MallocHeader) :
      Run shift hhdm R h live H → (∀ x, Untouched live x headerSize → headers x = h.headers x) →
      (∀ x, Outside live x 8 → next x = h.next x) →
      (∀ x, Untouched live x mallocHeaderSize → blocks x = h.blocks x) →
      Run shift hhdm R { h with headers, next, blocks } live H
  | otherTakes {h live H order flags p t} : Run shift hhdm R h live H → order ≤ maxOrder →
      buddyAllocate shift h.buddy order flags = .ok (p, t) → p ≠ 0 →
      Run shift hhdm R { h with buddy := t } live (insert (blk shift p order) H)
  | otherReturns {h live H p order} : Run shift hhdm R h live H → blk shift p order ∈ H →
      Run shift hhdm R { h with buddy := buddyFree shift h.buddy p order } live
        (H \ {blk shift p order})

structure Chunk.Sound (shift : ℕ) (h : Heap) (k : Chunk) : Prop where
  start : k.base + (if k.headed then mallocHeaderSize else 0) ≤ k.ptr
  fits : k.ptr + k.size ≤ k.base + k.total
  aligned : k.align ∣ k.ptr
  nonzero : k.total ≠ 0
  le : k.total ≤ maxSize shift
  raw : k.headed = false → k.base = k.ptr ∧ k.total = k.size
  header : k.headed = true →
    h.blocks (k.ptr - mallocHeaderSize) = ⟨magic, k.ptr - mallocHeaderSize - k.base, k.total⟩

structure LiveInv (shift hhdm : ℕ) (a : ℕ → Allocator) (R H : Set Block) (h : Heap)
    (live : List Chunk) : Prop where
  heap : HeapInv shift hhdm a R H h
  once : (live.map (Chunk.place shift)).Nodup
  places : ∀ x, Holds h x ↔ x ∈ live.map (Chunk.place shift)
  sound : ∀ k ∈ live, k.Sound shift h

variable {live A B : List Chunk} {k l : Chunk}

section Extents

theorem Chunk.Sound.inside (hs : shift ≤ 16) (hk : k.Sound shift h) :
    (k.place shift).start = k.base ∧ k.total ≤ (k.place shift).len shift :=
  placeOf_capacity hs hk.nonzero hk.le k.base

section

variable (hi : LiveInv shift hhdm a R H h live)

include hi

theorem LiveInv.held (hk : k ∈ live) :
    Holds h (k.place shift) := (hi.places _).2 (List.mem_map_of_mem hk)

theorem LiveInv.apart_place (hs : shift ≤ 16) (hf : Classes shift a) (hk : k ∈ live)
    (hx : Holds h x) (hne : k.place shift ≠ x) :
    k.base + k.total ≤ x.start ∨ x.start + x.len shift ≤ k.base := by
  have hapart := hi.heap.apart hf (hi.held hk) hx hne
  have hin := (hi.sound k hk).inside hs
  unfold ApartIn at hapart
  omega

theorem LiveInv.pairwise (hs : shift ≤ 16)
    (hf : Classes shift a) :
    live.Pairwise fun k l => k.base + k.total ≤ l.base ∨ l.base + l.total ≤ k.base := by
  refine List.Pairwise.imp_of_mem (fun {k l} hk hl hne => ?_) (List.pairwise_map.1 hi.once)
  have hapart := hi.apart_place hs hf hk (hi.held hl) hne
  have hin := (hi.sound l hl).inside hs
  omega

end

theorem Chunk.Sound.setBlock (hk : k.Sound shift h) {b : MallocHeader}
    (hapart : hdr + mallocHeaderSize ≤ k.base ∨ k.base + k.total ≤ hdr) :
    k.Sound shift (setBlock h hdr b) := by
  refine ⟨hk.start, hk.fits, hk.aligned, hk.nonzero, hk.le, hk.raw, fun hh => ?_⟩
  have hstart := hk.start
  have hfits := hk.fits
  rw [if_pos hh] at hstart
  have hne : k.ptr - mallocHeaderSize ≠ hdr := by
    simp only [mallocHeaderSize] at *
    omega
  exact (Function.update_of_ne hne _ _).trans (hk.header hh)

theorem Chunk.Sound.congr (hk : k.Sound shift h) (hb : h'.blocks = h.blocks) : k.Sound shift h' :=
  ⟨hk.start, hk.fits, hk.aligned, hk.nonzero, hk.le, hk.raw,
    fun hh => by rw [hb]; exact hk.header hh⟩

theorem HeapInv.setBlock (hi : HeapInv shift hhdm a R H h) (hdr : ℕ) (b : MallocHeader) :
    HeapInv shift hhdm a R H (setBlock h hdr b) :=
  ⟨hi.slabs, hi.unused, hi.exclusive, hi.buddy, hi.slab_mapped, hi.large_mapped, hi.large_nodup⟩

end Extents

variable {blocks : ℕ → MallocHeader} {headers : ℕ → PageHeader} {next : ℕ → ℕ}

section Calls

variable {n size align base : ℕ}

theorem LiveInv.push (hi : LiveInv shift hhdm a R H h live) (hheap : HeapInv shift hhdm a R H h')
    (ht : Takes (k.place shift) h h') (hk : k.Sound shift h')
    (hlive : ∀ l ∈ live, l.Sound shift h') : LiveInv shift hhdm a R H h' (k :: live) := by
  refine ⟨hheap, ?_, fun x => ?_, List.forall_mem_cons.2 ⟨hk, hlive⟩⟩
  · refine List.nodup_cons.2 ⟨fun hin => ht.fresh ((hi.places _).2 hin), hi.once⟩
  · rw [ht.holds, hi.places, List.map_cons, List.mem_cons, or_comm]

theorem LiveInv.drop (hi : LiveInv shift hhdm a R H h (A ++ k :: B))
    (hheap : HeapInv shift hhdm a R H h') (hr : Returns (k.place shift) h h')
    (hb : h'.blocks = h.blocks) : LiveInv shift hhdm a R H h' (A ++ B) := by
  have honce := hi.once
  rw [List.map_append, List.map_cons, List.nodup_middle, List.nodup_cons,
    ← List.map_append] at honce
  refine ⟨hheap, honce.2, fun x => ?_, fun l hl => (hi.sound l ?_).congr hb⟩
  · rw [hr.holds, hi.places, List.map_append, List.map_cons, List.mem_append, List.mem_cons,
      List.map_append, List.mem_append]
    constructor
    · rintro ⟨hin | rfl | hin, hne⟩
      · exact .inl hin
      · exact (hne rfl).elim
      · exact .inr hin
    · intro hin
      refine ⟨hin.imp id .inr, ?_⟩
      rintro rfl
      exact honce.1 (by rwa [List.map_append, List.mem_append])
  · rcases List.mem_append.1 hl with hl | hl
    · exact List.mem_append_left _ hl
    · exact List.mem_append_right _ (List.mem_cons_of_mem k hl)

structure Fresh (shift hhdm : ℕ) (a : ℕ → Allocator) (R H : Set Block) (h : Heap)
    (live : List Chunk) (n base : ℕ) (h' : Heap) : Prop where
  heap : HeapInv shift hhdm a R H h'
  takes : Takes (placeOf shift n base) h h'
  blocks : h'.blocks = h.blocks
  nonzero : base ≠ 0
  bounded : base + n ≤ word
  aligned : 16 ∣ base
  apart : ∀ k ∈ live, k.base + k.total ≤ base ∨ base + n ≤ k.base

theorem kmalloc_fresh (hm : Machine shift hhdm R) (hf : Classes shift a)
    (hi : LiveInv shift hhdm a R H h live) (h0 : n ≠ 0) (hle : n ≤ maxSize shift) :
    Ensures (· = outOfMemory) (kmalloc shift hhdm h n) fun r =>
      Fresh shift hhdm a R H h live n r.1 r.2 := by
  have horder := (sizeOrder_spec hm.shift_le hle).2 hle
  refine (kmalloc_takes hm hf hi.heap h0 fun _ => horder).imp fun ⟨base, h'⟩ ⟨hheap, ht, hb⟩ => ?_
  obtain ⟨hstart, hcap⟩ := placeOf_capacity hm.shift_le h0 hle base
  have hheld : Holds h' (placeOf shift n base) := (ht.holds _).2 (.inr rfl)
  obtain ⟨hne, hfit, h16⟩ := hheap.place_facts hm hf hheld
  rw [hstart] at hne hfit h16
  refine ⟨hheap, ht, hb, hne, by omega, h16, fun k hk => ?_⟩
  have hkheld := hi.held hk
  have hdiff : k.place shift ≠ placeOf shift n base := fun heq => ht.fresh (heq ▸ hkheld)
  have hapart := hheap.apart hf ((ht.holds _).2 (.inl hkheld)) hheld hdiff
  have hin := (hi.sound k hk).inside hm.shift_le
  unfold ApartIn at hapart
  omega

theorem holds_setBlock (hdr : ℕ) (b : MallocHeader) (x : Place) :
    Holds (setBlock h hdr b) x ↔ Holds h x := by
  cases x <;> rfl

theorem Fresh.headed (hi : LiveInv shift hhdm a R H h live)
    (hn : Fresh shift hhdm a R H h live n base h₁) (h0 : n ≠ 0) (hle : n ≤ maxSize shift)
    (hlo : base + mallocHeaderSize ≤ ptr) (hhi : ptr + size ≤ base + n) (hal : al ∣ ptr)
    (hh' : h' = setBlock h₁ (ptr - mallocHeaderSize) ⟨magic, ptr - mallocHeaderSize - base, n⟩) :
    LiveInv shift hhdm a R H h' (⟨base, n, ptr, size, al, true⟩ :: live) ∧
      Takes (placeOf shift n base) h h' := by
  subst hh'
  have ht : Takes (placeOf shift n base) h (setBlock h₁ (ptr - mallocHeaderSize)
      ⟨magic, ptr - mallocHeaderSize - base, n⟩) :=
    ⟨hn.takes.fresh, fun y => (holds_setBlock _ _ y).trans (hn.takes.holds y)⟩
  refine ⟨hi.push (HeapInv.setBlock hn.heap _ _) ht ?_ fun l hl => ?_, ht⟩
  · exact ⟨hlo, hhi, hal, h0, hle, by simp, fun _ => Function.update_self ..⟩
  · refine ((hi.sound l hl).congr hn.blocks).setBlock ?_
    have := hn.apart l hl
    omega

theorem malloc_spec (hm : Machine shift hhdm R) (hf : Classes shift a)
    (hi : LiveInv shift hhdm a R H h live) (h0 : size ≠ 0)
    (hle : size + mallocHeaderSize ≤ maxSize shift) :
    Ensures (· = outOfMemory) (malloc shift hhdm h size) fun r => ∃ base h₁,
      kmalloc shift hhdm h (size + mallocHeaderSize) = .ok (base, h₁) ∧ r.1 ≠ 0 ∧
      LiveInv shift hhdm a R H r.2
        (⟨base, size + mallocHeaderSize, r.1, size, 16, true⟩ :: live) ∧
      Takes (placeOf shift (size + mallocHeaderSize) base) h r.2 := by
  have hlt : size + mallocHeaderSize < word := by
    have hs := hm.shift_le
    have : maxSize shift < word :=
      Nat.pow_lt_pow_right (by norm_num) (show shift + 14 < 64 by omega)
    omega
  unfold malloc
  rw [if_neg h0, wadd_of_lt hlt]
  refine (kmalloc_fresh hm hf hi (by omega) hle).bind_ok fun ⟨base, h₁⟩ hk hn => ?_
  have hbound := hn.bounded
  have hptr : wadd base mallocHeaderSize = base + mallocHeaderSize := wadd_of_lt (by omega)
  have h16 : 16 ∣ base + mallocHeaderSize := Nat.dvd_add hn.aligned (dvd_refl 16)
  dsimp only
  rw [if_neg hn.nonzero, hptr]
  refine ⟨base, h₁, hk, by simp [mallocHeaderSize], ?_⟩
  refine hn.headed hi (by omega) hle le_rfl (by dsimp only; omega) h16 ?_
  rw [Nat.add_sub_cancel, Nat.sub_self]

theorem max_align_pow (hal : ∃ j, align = 2 ^ j) : ∃ j, 4 ≤ j ∧ max 16 align = 2 ^ j := by
  obtain ⟨j, rfl⟩ := hal
  by_cases hj : 4 ≤ j
  · exact ⟨j, hj, max_eq_right (Nat.pow_le_pow_right (n := 2) (by norm_num) hj)⟩
  · exact ⟨4, le_rfl, max_eq_left
      (Nat.pow_le_pow_right (n := 2) (by norm_num) (show j ≤ 4 by omega))⟩

theorem maxSize_le (hm : Machine shift hhdm R) : maxSize shift ≤ 2 ^ 30 := by
  have hs := hm.shift_le
  exact Nat.pow_le_pow_right (by norm_num) (show shift + 14 ≤ 30 by omega)

section

variable (hm : Machine shift hhdm R) (hf : Classes shift a)

include hm hf

theorem mallocAligned_spec
    (hi : LiveInv shift hhdm a R H h live) (h0 : size ≠ 0) (hal : ∃ j, align = 2 ^ j)
    (hle : alignedTotal size align ≤ maxSize shift) :
    Ensures (· = outOfMemory) (mallocAligned shift hhdm h size align) fun r => ∃ base h₁,
      kmalloc shift hhdm h (alignedTotal size align) = .ok (base, h₁) ∧ r.1 ≠ 0 ∧
      LiveInv shift hhdm a R H r.2
        (⟨base, alignedTotal size align, r.1, size, max 16 align, true⟩ :: live) ∧
      Takes (placeOf shift (alignedTotal size align) base) h r.2 := by
  have hmax := maxSize_le hm
  have hword : word = 2 ^ 64 := rfl
  have hhdr : mallocHeaderSize = 16 := rfl
  obtain ⟨j, hj, hpow⟩ := max_align_pow hal
  have htotal : alignedTotal size align = size + 16 + 2 ^ j - 1 := by
    rw [alignedTotal, hpow, hhdr]
  have hsum : wsub (wadd (wadd size mallocHeaderSize) (2 ^ j)) 1 = alignedTotal size align := by
    rw [wadd_of_lt (show size + mallocHeaderSize < word by omega),
      wadd_of_lt (show size + mallocHeaderSize + 2 ^ j < word by omega),
      wsub_of_le (by omega) (by omega), htotal, hhdr]
  have hj64 : j ≤ 64 := by
    by_contra hlt
    have : 2 ^ 64 ≤ 2 ^ j := Nat.pow_le_pow_right (by norm_num) (by omega)
    omega
  have halign : (if align < 16 then 16 else align) = 2 ^ j := by
    rw [← hpow]
    split <;> omega
  have hpow2 : isPow2ull (2 ^ j) = true := isPow2ull_iff.2 ⟨j, rfl⟩
  unfold mallocAligned
  rw [if_neg h0]
  simp only [halign, hpow2, kassert_true, ok_bind, hsum]
  refine (kmalloc_fresh hm hf hi (by omega) hle).bind_ok fun ⟨base, h₁⟩ hk hn => ?_
  have hbound := hn.bounded
  have hadd : wadd base mallocHeaderSize = base + 16 := wadd_of_lt (by omega)
  obtain ⟨hlo, hhi⟩ := alignUp_bounds (x := base + 16) hj64 (by omega)
  have hdvd : 2 ^ j ∣ alignUp (base + 16) (2 ^ j) := dvd_alignUp hj64
  generalize hp : alignUp (base + 16) (2 ^ j) = ptr at hlo hhi hdvd
  have hback : wsub ptr mallocHeaderSize = ptr - mallocHeaderSize :=
    wsub_of_le (by omega) (by omega)
  have hoff : wsub (ptr - mallocHeaderSize) base % 2 ^ 32 = ptr - mallocHeaderSize - base := by
    rw [wsub_of_le (by omega) (by omega)]
    exact Nat.mod_eq_of_lt (by omega)
  simp only [if_neg hn.nonzero, hadd, hp, hback, hoff]
  refine ⟨base, h₁, hk, by dsimp only; omega, ?_⟩
  refine hn.headed hi (by omega) hle (by dsimp only; omega) (by dsimp only; omega) ?_ rfl
  rw [hpow]
  exact hdvd

theorem kfree_live
    (hi : LiveInv shift hhdm a R H h (A ++ k :: B)) :
    ∃ h', kfree shift hhdm h k.base k.total = .ok h' ∧ LiveInv shift hhdm a R H h' (A ++ B) ∧
      Returns (k.place shift) h h' := by
  have hk : k ∈ A ++ k :: B := by simp
  obtain ⟨h', hok, hheap, hr, hb⟩ := kfree_spec hm hf hi.heap (hi.held hk)
  exact ⟨h', hok, hi.drop hheap hr hb, hr⟩

theorem free_eq_kfree
    (hi : LiveInv shift hhdm a R H h live) (hk : k ∈ live) (hh : k.headed = true) :
    free shift hhdm h k.ptr = kfree shift hhdm h k.base k.total := by
  have hsound := hi.sound k hk
  have hin := hsound.inside hm.shift_le
  have hfit := (hi.heap.place_facts hm hf (hi.held hk)).2.1
  have hstart := hsound.start
  have hfits := hsound.fits
  have hhdr : mallocHeaderSize = 16 := rfl
  rw [if_pos hh] at hstart
  have hlt : k.ptr - mallocHeaderSize < word := by omega
  have hback : wsub k.ptr mallocHeaderSize = k.ptr - mallocHeaderSize := by
    have hpos : k.ptr < word ∨ k.size = 0 ∧ k.ptr = word := by omega
    rcases hpos with hpos | ⟨-, hpos⟩
    · exact wsub_of_le (by omega) hpos
    · rw [hpos]
      rfl
  have hbase : wsub (k.ptr - mallocHeaderSize) (k.ptr - mallocHeaderSize - k.base) = k.base := by
    rw [wsub_of_le (by omega) hlt]
    omega
  unfold free
  rw [if_neg (by omega)]
  simp only [hback, hsound.header hh, decide_true, kassert_true, ok_bind, hbase]

end

theorem LiveInv.write (hi : LiveInv shift hhdm a R H h live) (hm : Machine shift hhdm R)
    (hf : Classes shift a) (hheaders : ∀ x, Untouched live x headerSize → headers x = h.headers x)
    (hnext : ∀ x, Outside live x 8 → next x = h.next x)
    (hblocks : ∀ x, Untouched live x mallocHeaderSize → blocks x = h.blocks x) :
    LiveInv shift hhdm a R H { h with headers, next, blocks } live := by
  have hends : ∀ k ∈ live, ∀ x n, (x + n ≤ (k.place shift).start ∨
      (k.place shift).start + (k.place shift).len shift ≤ x) →
      (x + n ≤ k.base ∨ k.base + k.total ≤ x) ∧ (x + n ≤ k.ptr ∨ k.ptr + k.size ≤ x) := by
    intro k hk x n hx
    have hin := (hi.sound k hk).inside hm.shift_le
    have hstart := (hi.sound k hk).start
    have hfits := (hi.sound k hk).fits
    omega
  refine ⟨hi.heap.write hf hm.shift_ge blocks (fun p hp => hheaders p fun k hk => ?_)
    fun v hv => hnext v fun k hk => ?_, hi.once, fun x => ?_, fun k hk => ?_⟩
  · exact (hends k hk p _ (hp _ (hi.held hk))).2
  · exact (hends k hk v _ (hv _ (hi.held hk))).1
  · rw [← hi.places]
    cases x <;> rfl
  · have hsound := hi.sound k hk
    refine ⟨hsound.start, hsound.fits, hsound.aligned, hsound.nonzero, hsound.le, hsound.raw,
      fun hh => ?_⟩
    have hstart := hsound.start
    have hfits := hsound.fits
    rw [if_pos hh] at hstart
    refine (hblocks _ fun l hl => ?_).trans (hsound.header hh)
    by_cases hkl : k.place shift = l.place shift
    · -- the same block: its header ends where its own bytes start
      have heq : k = l := List.inj_on_of_nodup_map hi.once hk hl hkl
      subst heq
      exact .inl (by omega)
    · have hapart := hi.apart_place hm.shift_le hf hk (hi.held hl) hkl
      have hin := (hi.sound l hl).inside hm.shift_le
      have hls := (hi.sound l hl).start
      have hlf := (hi.sound l hl).fits
      omega

end Calls

section Runs

theorem run_machine (hd : DirectMap shift hhdm R) (h : Run shift hhdm R s live H) :
    Machine shift hhdm R := by
  refine ⟨hd, ?_⟩
  have hs := hd.shift_le
  induction h with
  | init hb _ => exact (MemBuddyRuns.run_inv (by omega) hb).2.2
  | kmalloc _ _ _ _ ih | kfree _ _ _ ih | malloc _ _ _ _ _ ih | mallocAligned _ _ _ _ _ _ ih
  | free _ _ _ ih | write _ _ _ _ _ _ _ ih | otherTakes _ _ _ _ ih | otherReturns _ _ ih => exact ih

theorem granted_unused (hpages : ∀ c, h.pages c = []) (hlarge : h.large = []) :
    granted shift hhdm H h o = if o = .other then H else ∅ := by
  cases o with
  | other => rfl
  | slab c => simp [granted, hpages]
  | large => simp [granted, hlarge]

theorem pooled_unused (hpages : ∀ c, h.pages c = []) (hlarge : h.large = []) :
    pooled (granted shift hhdm H h) = H := by
  ext x
  constructor
  · rintro ⟨o, ho⟩
    rw [granted_unused hpages hlarge] at ho
    split at ho
    · exact ho
    · exact ho.elim
  · intro hx
    exact ⟨.other, hx⟩

variable {b : MemBuddyAllocator.State} {classes : ℕ → Allocator}

theorem live_init {A : List (ℕ × ℕ)} (hm : Machine shift hhdm R)
    (hb : MemBuddyRuns.Run shift b A R H) (hok : mallocInit shift classes₀ = .ok classes) :
    ∃ a, Classes shift a ∧ LiveInv shift hhdm a R H
      ⟨b, classes, headers, next, blocks, fun _ => [], fun _ => [], []⟩ [] := by
  obtain ⟨classes', hok', hfits⟩ := mallocInit_spec hm.shift_ge hm.shift_le classes₀
  obtain rfl : classes' = classes := Except.ok.inj (hok'.symm.trans hok)
  have hs := hm.shift_le
  refine ⟨classes', fun c hc => (hfits c hc).1, ⟨fun c hc => ?_, fun _ _ => ⟨rfl, rfl⟩, ?_, ?_,
    by simp, by simp, List.nodup_nil⟩, List.nodup_nil, fun x => ?_, by simp⟩
  · exact MemSpallocRuns.reachable_inv (hfits c hc).1 (hfits c hc).2 (.init headers next)
  · intro i j x hi hj
    rw [granted_unused (fun _ => rfl) rfl] at hi hj
    split at hi
    · split at hj
      · rename_i h1 h2
        exact h1.trans h2.symm
      · exact hj.elim
    · exact hi.elim
  · rw [pooled_unused (fun _ => rfl) rfl]
    exact (MemBuddyRuns.run_inv (by omega) hb).1
  · cases x <;> simp [Holds]

theorem LiveInv.buddy (hi : LiveInv shift hhdm a R H h live)
    (hheap : HeapInv shift hhdm a R H' { h with buddy := t }) :
    LiveInv shift hhdm a R H' { h with buddy := t } live := by
  refine ⟨hheap, hi.once, fun x => ?_, fun k hk => (hi.sound k hk).congr rfl⟩
  rw [← hi.places]
  cases x <;> rfl

theorem run_live (hd : DirectMap shift hhdm R) (h : Run shift hhdm R s live H) :
    ∃ a, Classes shift a ∧ LiveInv shift hhdm a R H s live := by
  have hm := run_machine hd h
  induction h with
  | init hb hok => exact live_init hm hb hok
  | @kmalloc h live H size ptr h' _ h0 hle hok ih =>
    obtain ⟨a, hf, hi⟩ := ih
    have hn := (kmalloc_fresh hm hf hi h0 hle).value hok
    refine ⟨a, hf, hi.push hn.heap hn.takes ?_ fun l hl => (hi.sound l hl).congr hn.blocks⟩
    exact ⟨le_rfl, le_rfl, one_dvd _, h0, hle, fun _ => ⟨rfl, rfl⟩, by simp⟩
  | @kfree h A k B H h' _ hraw hok ih =>
    obtain ⟨a, hf, hi⟩ := ih
    obtain ⟨hbase, htotal⟩ := (hi.sound k (by simp)).raw hraw
    obtain ⟨h₁, hok', hinv, -⟩ := kfree_live hm hf hi
    rw [hbase, htotal, hok] at hok'
    obtain rfl := Except.ok.inj hok'
    exact ⟨a, hf, hinv⟩
  | malloc _ h0 hle hk hok ih =>
    obtain ⟨a, hf, hi⟩ := ih
    obtain ⟨base, h₁, hk', -, hinv, -⟩ := (malloc_spec hm hf hi h0 hle).value hok
    obtain ⟨rfl, -⟩ := Prod.mk.inj (Except.ok.inj (hk'.symm.trans hk))
    exact ⟨a, hf, hinv⟩
  | mallocAligned _ h0 hal hle hk hok ih =>
    obtain ⟨a, hf, hi⟩ := ih
    obtain ⟨base, h₁, hk', -, hinv, -⟩ := (mallocAligned_spec hm hf hi h0 hal hle).value hok
    obtain ⟨rfl, -⟩ := Prod.mk.inj (Except.ok.inj (hk'.symm.trans hk))
    exact ⟨a, hf, hinv⟩
  | @free h A k B H h' _ hh hok ih =>
    obtain ⟨a, hf, hi⟩ := ih
    obtain ⟨h₁, hok', hinv, -⟩ := kfree_live hm hf hi
    rw [← free_eq_kfree hm hf hi (by simp) hh, hok] at hok'
    obtain rfl := Except.ok.inj hok'
    exact ⟨a, hf, hinv⟩
  | write headers next blocks _ hheaders hnext hblocks ih =>
    obtain ⟨a, hf, hi⟩ := ih
    exact ⟨a, hf, hi.write hm hf hheaders hnext hblocks⟩
  | @otherTakes h live H order flags p t _ ho hok hp ih =>
    obtain ⟨a, hf, hi⟩ := ih
    rcases buddyAllocate_spec hi.heap.buddy ho flags with ⟨q, u, hu, halloc⟩ | ⟨-, hu⟩
    · obtain ⟨rfl, rfl⟩ := Prod.mk.inj (Except.ok.inj (hu.symm.trans hok))
      exact ⟨a, hf, hi.buddy (hi.heap.otherTakes halloc)⟩
    · rw [hok] at hu
      split at hu
      · cases hu
      · exact (hp (Prod.mk.inj (Except.ok.inj hu)).1).elim
  | @otherReturns h live H p order _ hb ih =>
    obtain ⟨a, hf, hi⟩ := ih
    exact ⟨a, hf, hi.buddy (hi.heap.otherReturns hb)⟩

/-- In every run the live blocks, headers included, are apart; each contains the bytes asked
for at the alignment asked for; `free` and `kfree` return and give back the place that was
taken; and every call takes a place for a new live block, or stops because no memory is left. -/
theorem heap_correct (hd : DirectMap shift hhdm R) (h : Run shift hhdm R s live H) :
    live.Pairwise (fun k l => k.base + k.total ≤ l.base ∨ l.base + l.total ≤ k.base) ∧
    (∀ k ∈ live, k.base + (if k.headed then mallocHeaderSize else 0) ≤ k.ptr ∧
      k.ptr + k.size ≤ k.base + k.total ∧ k.align ∣ k.ptr ∧
      (k.place shift).start = k.base ∧ k.total ≤ (k.place shift).len shift) ∧
    (∀ k ∈ live, ∃ s', (if k.headed then free shift hhdm s k.ptr
      else kfree shift hhdm s k.ptr k.size) = .ok s' ∧ Returns (k.place shift) s s') ∧
    (∀ size, size ≠ 0 → size ≤ maxSize shift →
      Ensures (· = outOfMemory) (kmalloc shift hhdm s size) fun r => r.1 ≠ 0 ∧
        Run shift hhdm R r.2 (⟨r.1, size, r.1, size, 1, false⟩ :: live) H ∧
        Takes (placeOf shift size r.1) s r.2) ∧
    (∀ size, size ≠ 0 → size + mallocHeaderSize ≤ maxSize shift →
      Ensures (· = outOfMemory) (malloc shift hhdm s size) fun r => r.1 ≠ 0 ∧ ∃ base,
        Run shift hhdm R r.2 (⟨base, size + mallocHeaderSize, r.1, size, 16, true⟩ :: live) H ∧
        Takes (placeOf shift (size + mallocHeaderSize) base) s r.2) ∧
    ∀ size align, size ≠ 0 → (∃ j, align = 2 ^ j) → alignedTotal size align ≤ maxSize shift →
      Ensures (· = outOfMemory) (mallocAligned shift hhdm s size align) fun r => r.1 ≠ 0 ∧ ∃ base,
        Run shift hhdm R r.2
          (⟨base, alignedTotal size align, r.1, size, max 16 align, true⟩ :: live) H ∧
        Takes (placeOf shift (alignedTotal size align) base) s r.2 := by
  have hm := run_machine hd h
  obtain ⟨a, hf, hi⟩ := run_live hd h
  refine ⟨hi.pairwise hm.shift_le hf, fun k hk => ?_, fun k hk => ?_, fun size h0 hle => ?_,
    fun size h0 hle => ?_, fun size align h0 hal hle => ?_⟩
  · have hsound := hi.sound k hk
    exact ⟨hsound.start, hsound.fits, hsound.aligned, hsound.inside hm.shift_le⟩
  · obtain ⟨A, B, rfl⟩ := List.append_of_mem hk
    obtain ⟨s', hok, -, hr⟩ := kfree_live hm hf hi
    refine ⟨s', ?_, hr⟩
    split
    · next hh => rw [free_eq_kfree hm hf hi hk hh, hok]
    · next hh =>
      obtain ⟨hbase, htotal⟩ := (hi.sound k hk).raw (by simpa using hh)
      rw [← hbase, ← htotal, hok]
  · refine (kmalloc_fresh hm hf hi h0 hle).imp_ok fun r hk hn => ?_
    exact ⟨hn.nonzero, h.kmalloc h0 hle hk, hn.takes⟩
  · refine (malloc_spec hm hf hi h0 hle).imp_ok fun r hk ⟨base, h₁, hk', hne, _, ht⟩ => ?_
    exact ⟨hne, base, h.malloc h0 hle hk' hk, ht⟩
  · refine (mallocAligned_spec hm hf hi h0 hal hle).imp_ok fun r hk
      ⟨base, h₁, hk', hne, _, ht⟩ => ?_
    exact ⟨hne, base, h.mallocAligned h0 hal hle hk' hk, ht⟩

def unusedHeap (b : MemBuddyAllocator.State) (classes : ℕ → Allocator) : Heap :=
  ⟨b, classes, fun _ => ⟨0, 0, 0⟩, fun _ => 0, fun _ => ⟨0, 0, 0⟩, fun _ => [], fun _ => [], []⟩

def firstMalloc : Exec (ℕ × Heap) := do
  let b ← buddyAddRange 12 MemBuddyAllocator.initial 0x1000 0x8000
  let classes ← mallocInit 12 fun _ => ⟨[], 0, 0, 0⟩
  malloc 12 0xffff800000000000 (unusedHeap b classes) 100

theorem eightPages_run (hb : buddyAddRange 12 MemBuddyAllocator.initial 0x1000 0x8000 = .ok b)
    (hclasses : mallocInit 12 (fun _ => ⟨[], 0, 0, 0⟩) = .ok classes) :
    ∃ R, DirectMap 12 0xffff800000000000 R ∧
      Run 12 0xffff800000000000 R (unusedHeap b classes) [] ∅ := by
  have hv : MemBuddyRuns.ValidRange 12 0x1000 0x8000 :=
    ⟨by decide, by decide, by simp [MemBuddyRuns.addedPages]⟩
  have hbuddy := MemBuddyRuns.Run.addRange .start hv (by simp) hb
  refine ⟨_, ⟨by decide, by decide, by decide, fun v hv => ?_⟩, .init hbuddy hclasses⟩
  obtain ⟨-, hreg, -⟩ := MemBuddyRuns.run_inv (by decide) hbuddy
  obtain ⟨q, hq, hin⟩ := (hreg v).1 hv
  obtain rfl := List.mem_singleton.1 hq
  have hword : word = 2 ^ 64 := rfl
  simp only [MemBuddyRuns.addedPages, Set.mem_ofPred_eq] at hin
  omega

theorem first_malloc_freed : ∃ R s H ptr base,
    Run 12 0xffff800000000000 R s [⟨base, 116, ptr, 100, 16, true⟩] H ∧ 16 ∣ ptr ∧
    ∃ s', free 12 0xffff800000000000 s ptr = .ok s' ∧ Returns (placeOf 12 116 base) s s' := by
  have heval : firstMalloc.toOption.isSome = true := by decide +kernel
  cases hrun : firstMalloc with
  | error f => simp [hrun, Except.toOption] at heval
  | ok r =>
    obtain ⟨b, hb, hrest⟩ := bind_ok hrun
    obtain ⟨classes, hclasses, hmalloc⟩ := bind_ok hrest
    obtain ⟨R, hd, h₀⟩ := eightPages_run hb hclasses
    obtain ⟨-, base, h₁, -⟩ :=
      ((heap_correct hd h₀).2.2.2.2.1 100 (by decide) (by decide)).value hmalloc
    obtain ⟨-, hparts, hfree, -⟩ := heap_correct hd h₁
    obtain ⟨s', hok, hreturns⟩ := hfree _ List.mem_cons_self
    exact ⟨_, r.2, _, r.1, base, h₁, (hparts _ List.mem_cons_self).2.2.1, s', hok, hreturns⟩

end Runs

end LibcStdlibRuns
