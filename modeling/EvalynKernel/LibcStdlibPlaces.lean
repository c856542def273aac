import EvalynKernel.LibcStdlib
import EvalynKernel.MemBuddyRuns
import EvalynKernel.MemSpallocRuns

/-! # Where the heap's blocks come from

`kmalloc` takes a place: an object of a class or a block of pages. The pages handed out by
the buddy allocator are shared by the classes, the large blocks and the rest of the kernel,
and no two of them have a page in common. -/
namespace LibcStdlibPlaces

open Function MachineWords DyadicBlocks DyadicBlocks.Block MemBuddyAllocator MemBuddyInvariant
open MemBuddyOperations MemBuddyRuns MemSpalloc MemSpallocInvariant LibcStdlib

section Shares

variable {ι β : Type} {f : ι → Set β} {i : ι} {b : β}

def pooled (f : ι → Set β) : Set β := {b | ∃ i, b ∈ f i}

def Exclusive (f : ι → Set β) : Prop := ∀ i j b, b ∈ f i → b ∈ f j → i = j

variable [DecidableEq ι]

theorem Exclusive.gain (h : Exclusive f) (hb : b ∉ pooled f) :
    Exclusive (update f i (insert b (f i))) ∧
      pooled (update f i (insert b (f i))) = insert b (pooled f) := by
  have hmem : ∀ j c, c ∈ update f i (insert b (f i)) j ↔ c ∈ f j ∨ j = i ∧ c = b := by
    intro j c
    by_cases hj : j = i
    · subst hj
      simp [or_comm]
    · simp [hj]
  constructor
  · intro j k c hj hk
    rcases (hmem j c).1 hj with hj' | ⟨rfl, rfl⟩
    · rcases (hmem k c).1 hk with hk' | ⟨-, rfl⟩
      · exact h j k c hj' hk'
      · exact (hb ⟨j, hj'⟩).elim
    · rcases (hmem k c).1 hk with hk' | ⟨hki, -⟩
      · exact (hb ⟨k, hk'⟩).elim
      · exact hki.symm
  · ext c
    constructor
    · rintro ⟨j, hj⟩
      rcases (hmem j c).1 hj with hj | ⟨-, rfl⟩
      · exact .inr ⟨j, hj⟩
      · exact .inl rfl
    · rintro (rfl | ⟨j, hj⟩)
      · exact ⟨i, (hmem i c).2 (.inr ⟨rfl, rfl⟩)⟩
      · exact ⟨j, (hmem j c).2 (.inl hj)⟩

theorem Exclusive.lose (h : Exclusive f) (hb : b ∈ f i) :
    Exclusive (update f i (f i \ {b})) ∧
      pooled f = insert b (pooled (update f i (f i \ {b}))) ∧
      b ∉ pooled (update f i (f i \ {b})) := by
  have hmem : ∀ j c, c ∈ update f i (f i \ {b}) j ↔ c ∈ f j ∧ c ≠ b := by
    intro j c
    by_cases hj : j = i
    · subst hj
      simp
    · rw [update_of_ne hj]
      refine ⟨fun hc => ⟨hc, ?_⟩, And.left⟩
      rintro rfl
      exact hj (h j i c hc hb)
  refine ⟨fun j k c hj hk => h j k c ((hmem j c).1 hj).1 ((hmem k c).1 hk).1, ?_, ?_⟩
  · ext c
    constructor
    · rintro ⟨j, hj⟩
      by_cases hc : c = b
      · exact .inl hc
      · exact .inr ⟨j, (hmem j c).2 ⟨hj, hc⟩⟩
    · rintro (rfl | ⟨j, hj⟩)
      · exact ⟨i, hb⟩
      · exact ⟨j, ((hmem j c).1 hj).1⟩
  · rintro ⟨j, hj⟩
    exact ((hmem j b).1 hj).2 rfl

theorem image_erase {α : Type} [BEq α] [LawfulBEq α] {l : List α} {x : α} {g : α → β}
    (hnd : l.Nodup) (hinj : ∀ y ∈ l, g y = g x → y = x) :
    {b | ∃ y ∈ l.erase x, b = g y} = {b | ∃ y ∈ l, b = g y} \ {g x} := by
  ext b
  simp only [Set.mem_ofPred_eq, Set.mem_sdiff, Set.mem_singleton_iff, hnd.mem_erase_iff]
  constructor
  · rintro ⟨y, ⟨hne, hy⟩, rfl⟩
    exact ⟨⟨y, hy, rfl⟩, fun heq => hne (hinj y hy heq)⟩
  · rintro ⟨⟨y, hy, rfl⟩, hne⟩
    exact ⟨y, ⟨fun heq => hne (congrArg g heq), hy⟩, rfl⟩

end Shares

variable {shift hhdm : ℕ} {a : ℕ → Allocator} {R H : Set Block} {h h' : Heap} {c p obj : ℕ}

inductive Owner where
  | other
  | slab (c : ℕ)
  | large
  deriving DecidableEq

/-- The blocks of pages that each owner has; `H` are those of the rest of the kernel. -/
def granted (shift hhdm : ℕ) (H : Set Block) (h : Heap) : Owner → Set Block
  | .other => H
  | .slab c => {b | ∃ p ∈ h.pages c, b = blk shift (p - hhdm) minOrder}
  | .large => {b | ∃ g ∈ h.large, b = blk shift (g.1 - hhdm) g.2}

/-- The physical memory in `R` is mapped at `hhdm`. -/
structure DirectMap (shift hhdm : ℕ) (R : Set Block) : Prop where
  shift_ge : 12 ≤ shift
  shift_le : shift ≤ 16
  aligned : 2 ^ shift ∣ hhdm
  mapped : ∀ v ∈ region R, hhdm + v < word

structure Machine (shift hhdm : ℕ) (R : Set Block) : Prop extends DirectMap shift hhdm R where
  nonzero : 0 ∉ region R

def Classes (shift : ℕ) (a : ℕ → Allocator) : Prop :=
  ∀ c < classCount shift, Fits shift (2 ^ (minShift + c)) 16 (a c)

structure HeapInv (shift hhdm : ℕ) (a : ℕ → Allocator) (R H : Set Block) (h : Heap) : Prop where
  slabs : ∀ c < classCount shift, MemSpallocRuns.Inv shift (a c) (h.slab c)
  unused : ∀ c, classCount shift ≤ c → h.pages c = [] ∧ h.out c = []
  exclusive : Exclusive (granted shift hhdm H h)
  buddy : BuddyInv shift h.buddy R (pooled (granted shift hhdm H h))
  slab_mapped : ∀ c, ∀ p ∈ h.pages c, hhdm ≤ p
  large_mapped : ∀ g ∈ h.large, hhdm ≤ g.1
  large_nodup : h.large.Nodup

variable {s : MemBuddyAllocator.State} {G : Set Block}

section Pages

theorem HeapInv.mem_granted_slab (hp : p ∈ h.pages c) :
    blk shift (p - hhdm) minOrder ∈ granted shift hhdm H h (.slab c) := ⟨p, hp, rfl⟩

theorem HeapInv.class_unique (hi : HeapInv shift hhdm a R H h) (hc : p ∈ h.pages c)
    (hd : p ∈ h.pages d) : c = d := by
  have := hi.exclusive (.slab c) (.slab d) _ (mem_granted_slab hc) (mem_granted_slab hd)
  injection this

theorem handed_bounds (hm : Machine shift hhdm R) {b : Block} (hb : Blocks shift s R G)
    (hbG : b ∈ G) : hhdm + b.base + b.size ≤ word ∧ b.base ≠ 0 ∧ 2 ^ shift ∣ b.base := by
  have hpos := b.size_pos
  have hlast := hm.mapped _ (hb.inside_region hbG (a := b.base + b.size - 1) ⟨by omega, by omega⟩)
  refine ⟨by omega, fun h0 => ?_, hb.page_dvd (.inr hbG)⟩
  exact hm.nonzero (h0 ▸ hb.inside_region hbG b.base_mem)

theorem buddyAllocate_nofail (hb : BuddyInv shift s R G) (ho : order ≤ maxOrder) :
    Ensures (· = outOfMemory) (buddyAllocate shift s order allocFlagNofail) fun r =>
      Allocated shift s R G order r.1 r.2 := by
  rcases buddyAllocate_spec hb ho allocFlagNofail with ⟨p, t, hok, halloc⟩ | ⟨-, herr⟩
  · exact Ensures.of_eq hok halloc
  · exact Ensures.of_error (herr.trans (if_pos rfl)) rfl

end Pages

variable {t : MemBuddyAllocator.State}

section Slabs

theorem page_eq_of_mem {q x : ℕ} (hp : 2 ^ shift ∣ p) (hq : 2 ^ shift ∣ q)
    (hxp : p ≤ x ∧ x < p + 2 ^ shift) (hxq : q ≤ x ∧ x < q + 2 ^ shift) : p = q := by
  rcases Nat.lt_trichotomy p q with hlt | heq | hlt
  · have := Fits.pages_apart hp hq hlt
    omega
  · exact heq
  · have := Fits.pages_apart hq hp hlt
    omega

variable {b : MemBuddyAllocator.State}

theorem granted_setSlab {s : MemSpalloc.State} :
    granted shift hhdm H { h.setSlab c s with buddy := b } =
      update (granted shift hhdm H h) (.slab c)
        {b | ∃ p ∈ s.pages, b = blk shift (p - hhdm) minOrder} := by
  funext o
  cases o with
  | other => rfl
  | large => rfl
  | slab d =>
    by_cases hd : d = c
    · subst hd
      rw [update_self]
      simp [granted, Heap.setSlab]
    · rw [update_of_ne (by simpa using hd)]
      simp [granted, Heap.setSlab, hd]

theorem granted_setSlab_same {s : MemSpalloc.State} (hpages : s.pages = h.pages c) :
    granted shift hhdm H { h.setSlab c s with buddy := b } = granted shift hhdm H h := by
  rw [granted_setSlab, hpages]
  exact update_eq_self _ _

theorem granted_large :
    granted shift hhdm H { h with buddy := b, large := l } =
      update (granted shift hhdm H h) .large
        {b | ∃ g ∈ l, b = blk shift (g.1 - hhdm) g.2} := by
  funext o
  cases o with
  | other => rfl
  | slab c => rfl
  | large => rw [update_self, granted]

theorem HeapInv.setSlab (hi : HeapInv shift hhdm a R H h) (hf : Classes shift a)
    {s : MemSpalloc.State} (hc : c < classCount shift) (hs : MemSpallocRuns.Inv shift (a c) s)
    (hl : MemSpallocRuns.Local (a c) (h.slab c) s)
    (hex : Exclusive (granted shift hhdm H { h.setSlab c s with buddy := b }))
    (hb : BuddyInv shift b R (pooled (granted shift hhdm H { h.setSlab c s with buddy := b })))
    (hmap : ∀ p ∈ s.pages, hhdm ≤ p) :
    HeapInv shift hhdm a R H { h.setSlab c s with buddy := b } := by
  refine ⟨fun d hd => ?_, fun d hd => ?_, hex, hb, fun d p hp => ?_, hi.large_mapped,
    hi.large_nodup⟩
  · by_cases hdc : d = c
    · subst hdc
      have hself : Heap.slab { h.setSlab d s with buddy := b } d = s := by
        simp [Heap.slab, Heap.setSlab]
      rw [hself]
      exact hs
    · have hother : Heap.slab { h.setSlab c s with buddy := b } d =
          { h.slab d with headers := s.headers, next := s.next } := by
        simp [Heap.slab, Heap.setSlab, hdc]
      have hpages : Heap.pages { h.setSlab c s with buddy := b } d = h.pages d := by
        simp [Heap.setSlab, hdc]
      have hnew : ∀ q ∈ h.pages d, q ∉ s.pages := by
        intro q hq hqs
        have h1 : blk shift (q - hhdm) minOrder ∈
            granted shift hhdm H { h.setSlab c s with buddy := b } (.slab d) :=
          ⟨q, hpages ▸ hq, rfl⟩
        have h2 : blk shift (q - hhdm) minOrder ∈
            granted shift hhdm H { h.setSlab c s with buddy := b } (.slab c) := by
          rw [granted_setSlab, update_self]
          exact ⟨q, hqs, rfl⟩
        have := hex _ _ _ h1 h2
        injection this with this
        exact hdc this
      have hold : ∀ q ∈ h.pages d, q ∉ h.pages c := fun q hq hqc => hdc (hi.class_unique hq hqc)
      rw [hother]
      refine (hi.slabs d hd).write (hf d hd) (fun q hq => ?_) fun q hq x h1 h2 _ => ?_
      · exact hl.headers q (hold q hq) (hnew q hq)
      · refine hl.next x fun r hr hxr => ?_
        have hxb := (hf c hc).object_bounds hxr
        have hstride := (hf c hc).stride_pos
        have hrd : 2 ^ shift ∣ r := by
          rcases hr with hr | hr
          · exact (hi.slabs c hc).slab.aligned r hr
          · exact hs.slab.aligned r hr
        have heq := page_eq_of_mem ((hi.slabs d hd).slab.aligned q hq) hrd ⟨h1, by omega⟩
          ⟨by omega, by omega⟩
        rcases hr with hr | hr
        · exact hold q hq (heq ▸ hr)
        · exact hnew q hq (heq ▸ hr)
  · have hdc : d ≠ c := by omega
    have := hi.unused d hd
    simpa [Heap.setSlab, hdc] using this
  · by_cases hdc : d = c
    · subst hdc
      exact hmap p (by simpa [Heap.setSlab] using hp)
    · exact hi.slab_mapped d p (by simpa [Heap.setSlab, hdc] using hp)

section

variable (hm : Machine shift hhdm R)
include hm

theorem toHhdm_eq {b : Block} (hb : Blocks shift s R G) (hbG : b ∈ G) :
    toHhdm hhdm b.base = hhdm + b.base := by
  have h1 := (handed_bounds hm hb hbG).1
  have h2 := b.size_pos
  rw [toHhdm, wadd_of_lt (by omega), Nat.add_comm]

theorem fresh_page
    (ht : Allocated shift h.buddy R (pooled (granted shift hhdm H h)) minOrder paddr t) :
    toHhdm hhdm paddr = hhdm + paddr ∧
      MemSpallocRuns.Fresh shift (h.pages c) (toHhdm hhdm paddr) := by
  have hmem : blk shift paddr minOrder ∈
      insert (blk shift paddr minOrder) (pooled (granted shift hhdm H h)) := Set.mem_insert _ _
  have heq := toHhdm_eq hm ht.inv.blocks hmem
  obtain ⟨hfit, hne, hdvd⟩ := handed_bounds hm ht.inv.blocks hmem
  dsimp only [blk] at heq hfit hne hdvd
  refine ⟨heq, ?_, ?_, ?_, ?_⟩
  · rw [heq]
    intro hin
    refine ht.fresh ⟨.slab c, _, hin, ?_⟩
    rw [Nat.add_sub_cancel_left]
  · rw [heq]
    exact Nat.dvd_add hm.aligned hdvd
  · omega
  · rw [heq]
    exact hfit

theorem classMalloc_spec (hf : Classes shift a) (hi : HeapInv shift hhdm a R H h)
    (hc : c < classCount shift) :
    Ensures (· = outOfMemory) (classMalloc shift hhdm h c) fun r =>
      HeapInv shift hhdm a R H r.2 ∧ r.1 ∉ h.out c ∧
        r.2.out = update h.out c (r.1 :: h.out c) ∧ r.2.large = h.large ∧
        r.2.blocks = h.blocks := by
  have hslab := hi.slabs c hc
  unfold classMalloc
  split
  · next hnil =>
    refine (buddyAllocate_nofail hi.buddy (show minOrder ≤ maxOrder from Nat.zero_le _)).bind
      fun ⟨paddr, t⟩ ht => ?_
    dsimp only at ht ⊢
    obtain ⟨heq, hfresh⟩ := fresh_page (c := c) hm ht
    obtain ⟨obj, s, hok, -, hnew, hout, hinv⟩ :=
      MemSpallocRuns.spallocMalloc_spec (hf c hc) hslab fun _ => hfresh
    obtain ⟨hlocal, hpages⟩ := MemSpallocRuns.spallocMalloc_local (hf c hc) hslab
      (fun _ => hfresh) hok
    rw [if_pos (show (h.slab c).alloc.partialList = [] from hnil)] at hpages
    have hgranted : granted shift hhdm H { h.setSlab c s with buddy := t } =
        update (granted shift hhdm H h) (.slab c)
          (insert (blk shift paddr minOrder) (granted shift hhdm H h (.slab c))) := by
      rw [granted_setSlab, hpages]
      congr 1
      ext b
      simp [granted, Heap.slab, heq]
    obtain ⟨hex, hpool⟩ := hi.exclusive.gain (i := .slab c) ht.fresh
    rw [hok, ok_bind]
    refine ⟨hi.setSlab hf hc hinv hlocal (hgranted ▸ hex) ?_ fun p hp => ?_, hnew, ?_, rfl, rfl⟩
    · rw [hgranted, hpool]
      exact ht.inv
    · rw [hpages] at hp
      rcases List.mem_cons.1 hp with rfl | hp
      · omega
      · exact hi.slab_mapped c p hp
    · exact congrArg (update h.out c) hout
  · next hcons =>
    have hno : (h.slab c).alloc.partialList = [] → MemSpallocRuns.Fresh shift (h.slab c).pages 0 :=
      fun hnil => (hcons hnil).elim
    obtain ⟨obj, s, hok, -, hnew, hout, hinv⟩ :=
      MemSpallocRuns.spallocMalloc_spec (hf c hc) hslab hno
    obtain ⟨hlocal, hpages⟩ := MemSpallocRuns.spallocMalloc_local (hf c hc) hslab hno hok
    rw [if_neg (show ¬ (h.slab c).alloc.partialList = [] from hcons)] at hpages
    have hgranted : granted shift hhdm H { h.setSlab c s with buddy := h.buddy } =
        granted shift hhdm H h := granted_setSlab_same hpages
    rw [hok, ok_bind]
    refine ⟨hi.setSlab hf hc hinv hlocal (hgranted ▸ hi.exclusive) (hgranted ▸ hi.buddy)
      fun p hp => ?_, hnew, ?_, rfl, rfl⟩
    · rw [hpages] at hp
      exact hi.slab_mapped c p hp
    · exact congrArg (update h.out c) hout

end

theorem classFree_spec (hf : Classes shift a)
    (hi : HeapInv shift hhdm a R H h) (hc : c < classCount shift) (hobj : obj ∈ h.out c) :
    ∃ h', classFree shift hhdm h c obj = .ok h' ∧ HeapInv shift hhdm a R H h' ∧
      h'.out = update h.out c ((h.out c).erase obj) ∧ h'.large = h.large ∧
      h'.blocks = h.blocks := by
  have hslab := hi.slabs c hc
  obtain ⟨s, hok, hout, hinv⟩ := MemSpallocRuns.spallocFree_spec (hf c hc) hslab hobj
  obtain ⟨hlocal, hhdr, hpages⟩ := MemSpallocRuns.spallocFree_local (hf c hc) hslab hobj hok
  generalize hp : alignDown obj (2 ^ shift) = p at hhdr hpages
  have hmap : ∀ q ∈ s.pages, hhdm ≤ q := by
    intro q hq
    refine hi.slab_mapped c q ?_
    rcases hpages with hpages | hpages
    · rw [hpages] at hq
      exact hq
    · rw [hpages] at hq
      exact List.mem_of_mem_erase hq
  simp only [classFree, hok, ok_bind, hp]
  by_cases hkeep : p ∈ s.pages
  · have hsame : s.pages = h.pages c := hpages.resolve_right fun herase => by
      rw [herase] at hkeep
      exact (hslab.slab.nodup.mem_erase_iff.1 hkeep).1 rfl
    have hgranted : granted shift hhdm H { h.setSlab c s with buddy := h.buddy } =
        granted shift hhdm H h := granted_setSlab_same hsame
    refine ⟨_, if_pos hkeep, ?_, congrArg (update h.out c) hout, rfl, rfl⟩
    exact hi.setSlab hf hc hinv hlocal (hgranted ▸ hi.exclusive) (hgranted ▸ hi.buddy) hmap
  · have herase : s.pages = (h.pages c).erase p := hpages.resolve_left fun hsame =>
      hkeep (hsame ▸ hhdr)
    have hmem : blk shift (p - hhdm) minOrder ∈ granted shift hhdm H h (.slab c) := ⟨p, hhdr, rfl⟩
    have hfrom : fromHhdm hhdm p = p - hhdm := by
      have hle := hi.slab_mapped c p hhdr
      have hfit := hslab.slab.bounded p hhdr
      have hpos := Nat.two_pow_pos shift
      exact wsub_of_le hle (by omega)
    generalize hb : buddyFree shift h.buddy (fromHhdm hhdm p) minOrder = t
    have hgranted : granted shift hhdm H { h.setSlab c s with buddy := t } =
        update (granted shift hhdm H h) (.slab c)
          (granted shift hhdm H h (.slab c) \ {blk shift (p - hhdm) minOrder}) := by
      rw [granted_setSlab, herase]
      congr 1
      apply image_erase (g := fun q => blk shift (q - hhdm) minOrder) hslab.slab.nodup
      intro q hq heq
      have h1 := hi.slab_mapped c p hhdr
      have h2 := hi.slab_mapped c q hq
      have h3 := (blk_injective heq).1
      omega
    obtain ⟨hex, hpool, hnot⟩ := hi.exclusive.lose hmem
    have hreleased := buddyFree_spec (hpool ▸ hi.buddy) hnot
    rw [← hfrom, hb] at hreleased
    refine ⟨_, if_neg hkeep, ?_, congrArg (update h.out c) hout, rfl, rfl⟩
    refine hi.setSlab hf hc hinv hlocal (hgranted ▸ hex) ?_ hmap
    rw [hgranted]
    exact hfrom ▸ hreleased.inv

end Slabs

section Places

inductive Place where
  | slab (c obj : ℕ)
  | pages (addr order : ℕ)
  deriving DecidableEq

def Place.start : Place → ℕ
  | .slab _ obj => obj
  | .pages addr _ => addr

def Place.len (shift : ℕ) : Place → ℕ
  | .slab c _ => 2 ^ (minShift + c)
  | .pages _ order => 2 ^ (shift + order)

def placeOf (shift size ptr : ℕ) : Place :=
  if size ≤ maxClass shift then .slab (sizeClass size - minShift) ptr
  else .pages ptr (sizeOrder shift size)

def Holds (h : Heap) : Place → Prop
  | .slab c obj => obj ∈ h.out c
  | .pages addr order => (addr, order) ∈ h.large

def ApartIn (shift : ℕ) (x y : Place) : Prop :=
  x.start + x.len shift ≤ y.start ∨ y.start + y.len shift ≤ x.start

variable {x y : Place} {size : ℕ}

theorem HeapInv.class_lt (hi : HeapInv shift hhdm a R H h) (hobj : obj ∈ h.out c) :
    c < classCount shift := by
  by_contra hge
  rw [(hi.unused c (not_lt.1 hge)).2] at hobj
  exact absurd hobj List.not_mem_nil

inductive Lies (shift hhdm : ℕ) (a : ℕ → Allocator) (h : Heap) : Place → Owner → Block → Prop
  | slab {c obj p : ℕ} : p ∈ h.pages c → obj ∈ objects (a c) p → c < classCount shift →
      Lies shift hhdm a h (.slab c obj) (.slab c) (blk shift (p - hhdm) minOrder)
  | pages {addr order : ℕ} : (addr, order) ∈ h.large →
      Lies shift hhdm a h (.pages addr order) .large (blk shift (addr - hhdm) order)

variable {o : Owner} {b : Block}

theorem HeapInv.lies (hi : HeapInv shift hhdm a R H h) (hx : Holds h x) :
    ∃ o b, Lies shift hhdm a h x o b := by
  cases x with
  | slab c obj =>
    have hc := hi.class_lt hx
    obtain ⟨p, hp, hobj⟩ := (hi.slabs c hc).slab.owned obj hx
    exact ⟨_, _, .slab hp hobj hc⟩
  | pages addr order => exact ⟨_, _, .pages hx⟩

theorem Lies.granted (hx : Lies shift hhdm a h x o b) : b ∈ granted shift hhdm H h o := by
  cases hx with
  | slab hp _ _ => exact ⟨_, hp, rfl⟩
  | pages hg => exact ⟨_, hg, rfl⟩

theorem Lies.inside (hx : Lies shift hhdm a h x o b) (hi : HeapInv shift hhdm a R H h)
    (hf : Classes shift a) :
    hhdm + b.base ≤ x.start ∧ x.start + x.len shift ≤ hhdm + b.base + b.size := by
  cases hx with
  | @slab c obj p hp hobj hc =>
    have hmap := hi.slab_mapped c p hp
    have hb := (hf c hc).object_bounds hobj
    have hle := (hf c hc).le_stride
    have hsize : (blk shift (p - hhdm) minOrder).size = 2 ^ shift := rfl
    dsimp only [Place.start, Place.len, blk] at hsize ⊢
    omega
  | @pages addr order hg =>
    have hmap : hhdm ≤ addr := hi.large_mapped _ hg
    have hsize : (blk shift (addr - hhdm) order).size = 2 ^ (shift + order) := rfl
    dsimp only [Place.start, Place.len, blk] at hsize ⊢
    omega

section

variable (hi : HeapInv shift hhdm a R H h)
include hi

theorem HeapInv.place_facts (hm : Machine shift hhdm R) (hf : Classes shift a) (hx : Holds h x) :
    x.start ≠ 0 ∧ x.start + x.len shift ≤ word ∧ 16 ∣ x.start := by
  obtain ⟨o, b, hlies⟩ := hi.lies hx
  obtain ⟨hfit, hne, hdvd⟩ := handed_bounds hm hi.buddy.blocks ⟨o, hlies.granted⟩
  have hin := hlies.inside hi hf
  refine ⟨by omega, by omega, ?_⟩
  have h16 : 16 ∣ 2 ^ shift := by
    have := hm.shift_ge
    exact Nat.pow_dvd_pow 2 (show 4 ≤ shift by omega)
  cases hlies with
  | @slab c obj p hp hobj hc =>
    exact (hf c hc).object_aligned ((hi.slabs c hc).slab.aligned p hp) hobj
  | @pages addr order hg =>
    have hmap : hhdm ≤ addr := hi.large_mapped _ hg
    have haddr : hhdm + (addr - hhdm) = addr := by omega
    rw [← haddr]
    exact Nat.dvd_add (h16.trans hm.aligned) (h16.trans hdvd)

theorem HeapInv.page_apart (hf : Classes shift a) (hp : p ∈ h.pages c) (hx : Holds h x) :
    (∃ obj, x = .slab c obj ∧ obj ∈ objects (a c) p) ∨
      x.start + x.len shift ≤ p ∨ p + 2 ^ shift ≤ x.start := by
  obtain ⟨o, b, hlies⟩ := hi.lies hx
  have hin := hlies.inside hi hf
  have hmap := hi.slab_mapped c p hp
  have hpage : blk shift (p - hhdm) minOrder ∈ granted shift hhdm H h (.slab c) := ⟨p, hp, rfl⟩
  by_cases hb : b = blk shift (p - hhdm) minOrder
  · have howner := hi.exclusive o (.slab c) b hlies.granted (hb ▸ hpage)
    cases hlies with
    | @slab d obj q hq hobj hd =>
      injection howner with hdc
      subst hdc
      have hmap' := hi.slab_mapped d q hq
      have heq := (blk_injective hb).1
      obtain rfl : q = p := by omega
      exact .inl ⟨obj, rfl, hobj⟩
    | pages hg => cases howner
  · have hapart := hi.buddy.blocks.tiling.apart _ (.inr ⟨o, hlies.granted⟩) _
      (.inr ⟨.slab c, hpage⟩) hb
    have hsize : (blk shift (p - hhdm) minOrder).size = 2 ^ shift := rfl
    have hbase : (blk shift (p - hhdm) minOrder).base = p - hhdm := rfl
    unfold Apart at hapart
    right
    omega

theorem HeapInv.apart (hf : Classes shift a) (hx : Holds h x) (hy : Holds h y) (hne : x ≠ y) :
    ApartIn shift x y := by
  obtain ⟨o, b, hlies⟩ := hi.lies hx
  have hin := hlies.inside hi hf
  cases hlies with
  | @slab c obj p hp hobj hc =>
    have hmap := hi.slab_mapped c p hp
    have hbase : (blk shift (p - hhdm) minOrder).base = p - hhdm := rfl
    have hsize : (blk shift (p - hhdm) minOrder).size = 2 ^ shift := rfl
    rcases hi.page_apart hf hp hy with ⟨obj', rfl, hobj'⟩ | hapart
    · have haligned := (hi.slabs c hc).slab.aligned p hp
      have hle := (hf c hc).le_stride
      have hobjs := (hf c hc).objects_apart haligned haligned hobj hobj' fun heq =>
        hne (by rw [heq])
      unfold ApartIn
      dsimp only [Place.start, Place.len]
      omega
    · unfold ApartIn
      omega
  | @pages addr order hg =>
    obtain ⟨o', b', hlies'⟩ := hi.lies hy
    have hin' := hlies'.inside hi hf
    have hmine : blk shift (addr - hhdm) order ∈ granted shift hhdm H h .large := ⟨_, hg, rfl⟩
    have hdiff : blk shift (addr - hhdm) order ≠ b' := by
      intro heq
      have howner := hi.exclusive .large o' b' (heq ▸ hmine) hlies'.granted
      cases hlies' with
      | slab _ _ _ => cases howner
      | @pages addr' order' hg' =>
        obtain ⟨h1, rfl⟩ := blk_injective heq
        have h2 : hhdm ≤ addr := hi.large_mapped _ hg
        have h3 : hhdm ≤ addr' := hi.large_mapped _ hg'
        obtain rfl : addr = addr' := by omega
        exact hne rfl
    have hapart := hi.buddy.blocks.tiling.apart _ (.inr ⟨.large, hmine⟩) _
      (.inr ⟨o', hlies'.granted⟩) hdiff
    unfold Apart at hapart
    unfold ApartIn
    omega

end

theorem placeOf_capacity (hs : shift ≤ 16) (h0 : size ≠ 0)
    (hle : size ≤ 2 ^ (shift + maxOrder)) (ptr : ℕ) :
    (placeOf shift size ptr).start = ptr ∧ size ≤ (placeOf shift size ptr).len shift := by
  unfold placeOf
  split
  · obtain ⟨h1, h2, -⟩ := sizeClass_spec h0
    refine ⟨rfl, ?_⟩
    dsimp only [Place.len]
    rwa [Nat.add_sub_cancel' h1]
  · exact ⟨rfl, (sizeOrder_spec hs hle).1 le_rfl⟩

structure Takes (x : Place) (h h' : Heap) : Prop where
  fresh : ¬ Holds h x
  holds : ∀ y, Holds h' y ↔ Holds h y ∨ y = x

structure Returns (x : Place) (h h' : Heap) : Prop where
  held : Holds h x
  holds : ∀ y, Holds h' y ↔ Holds h y ∧ y ≠ x

theorem takes_slab (hnew : obj ∉ h.out c) (hout : h'.out = update h.out c (obj :: h.out c))
    (hlarge : h'.large = h.large) : Takes (.slab c obj) h h' := by
  refine ⟨hnew, fun y => ?_⟩
  cases y with
  | slab d z =>
    by_cases hd : d = c
    · subst hd
      simp [Holds, hout, or_comm]
    · simp [Holds, hout, hd]
  | pages addr order => simp [Holds, hlarge]

theorem returns_slab (hobj : obj ∈ h.out c) (hnd : (h.out c).Nodup)
    (hout : h'.out = update h.out c ((h.out c).erase obj))
    (hlarge : h'.large = h.large) : Returns (.slab c obj) h h' := by
  refine ⟨hobj, fun y => ?_⟩
  cases y with
  | slab d z =>
    by_cases hd : d = c
    · subst hd
      simp [Holds, hout, hnd.mem_erase_iff, and_comm]
    · simp [Holds, hout, hd]
  | pages addr order => simp [Holds, hlarge]

theorem kmalloc_takes (hm : Machine shift hhdm R) (hf : Classes shift a)
    (hi : HeapInv shift hhdm a R H h) (h0 : size ≠ 0)
    (horder : maxClass shift < size → sizeOrder shift size ≤ maxOrder) :
    Ensures (· = outOfMemory) (kmalloc shift hhdm h size) fun r =>
      HeapInv shift hhdm a R H r.2 ∧ Takes (placeOf shift size r.1) h r.2 ∧
        r.2.blocks = h.blocks := by
  unfold kmalloc placeOf
  rw [if_neg h0]
  split
  · next hsmall =>
    refine (classMalloc_spec hm hf hi (sizeClass_lt hm.shift_ge h0 hsmall)).imp fun r hr => ?_
    obtain ⟨hinv, hnew, hout, hlarge, hblocks⟩ := hr
    exact ⟨hinv, takes_slab hnew hout hlarge, hblocks⟩
  · next hlarge =>
    refine (buddyAllocate_nofail hi.buddy (horder (not_le.1 hlarge))).bind fun ⟨paddr, t⟩ ht => ?_
    dsimp only at ht ⊢
    have hmem : blk shift paddr (sizeOrder shift size) ∈ insert (blk shift paddr
        (sizeOrder shift size)) (pooled (granted shift hhdm H h)) := Set.mem_insert _ _
    have heq : toHhdm hhdm paddr = hhdm + paddr := toHhdm_eq hm ht.inv.blocks hmem
    generalize sizeOrder shift size = k at ht hmem ⊢
    have hfresh : (hhdm + paddr, k) ∉ h.large := fun hin => ht.fresh
      ⟨.large, _, hin, by rw [Nat.add_sub_cancel_left]⟩
    have hgranted : granted shift hhdm H
        { h with buddy := t, large := (hhdm + paddr, k) :: h.large } =
        update (granted shift hhdm H h) .large
          (insert (blk shift paddr k) (granted shift hhdm H h .large)) := by
      rw [granted_large]
      congr 1
      ext b
      simp [granted]
    obtain ⟨hex, hpool⟩ := hi.exclusive.gain (i := .large) ht.fresh
    rw [heq]
    refine ⟨⟨hi.slabs, hi.unused, hgranted ▸ hex, ?_, hi.slab_mapped, ?_, ?_⟩,
      ⟨hfresh, fun y => ?_⟩, rfl⟩
    · rw [hgranted, hpool]
      exact ht.inv
    · exact List.forall_mem_cons.2 ⟨Nat.le_add_right _ _, hi.large_mapped⟩
    · exact List.nodup_cons.2 ⟨hfresh, hi.large_nodup⟩
    · cases y with
      | slab c z => simp [Holds]
      | pages addr order => simp [Holds, or_comm]

theorem kfree_spec (hm : Machine shift hhdm R) (hf : Classes shift a)
    (hi : HeapInv shift hhdm a R H h) {ptr : ℕ} (hx : Holds h (placeOf shift size ptr)) :
    ∃ h', kfree shift hhdm h ptr size = .ok h' ∧ HeapInv shift hhdm a R H h' ∧
      Returns (placeOf shift size ptr) h h' ∧ h'.blocks = h.blocks := by
  have hptr : (placeOf shift size ptr).start = ptr := by
    unfold placeOf
    split <;> rfl
  have hfacts := hi.place_facts hm hf hx
  rw [hptr] at hfacts
  unfold kfree
  rw [if_neg hfacts.1]
  unfold placeOf at hx ⊢
  split
  · next hsmall =>
    rw [if_pos hsmall] at hx
    have hc := hi.class_lt hx
    obtain ⟨h', hok, hinv, hout, hlarge, hblocks⟩ := classFree_spec hf hi hc hx
    exact ⟨h', hok, hinv, returns_slab hx (hi.slabs _ hc).slab.out_nodup hout hlarge, hblocks⟩
  · next hbig =>
    rw [if_neg hbig] at hx
    generalize sizeOrder shift size = k at hx ⊢
    have hg : (ptr, k) ∈ h.large := hx
    have hmap : hhdm ≤ ptr := hi.large_mapped _ hg
    have hpos : 0 < (placeOf shift size ptr).len shift := by
      unfold placeOf
      split <;> exact Nat.two_pow_pos _
    have hfrom : fromHhdm hhdm ptr = ptr - hhdm := wsub_of_le hmap (by omega)
    have hmem : blk shift (ptr - hhdm) k ∈ granted shift hhdm H h .large := ⟨_, hg, rfl⟩
    obtain ⟨hex, hpool, hnot⟩ := hi.exclusive.lose hmem
    have hreleased := buddyFree_spec (hpool ▸ hi.buddy) hnot
    have hgranted : granted shift hhdm H { h with
        buddy := buddyFree shift h.buddy (ptr - hhdm) k, large := h.large.erase (ptr, k) } =
        update (granted shift hhdm H h) .large
          (granted shift hhdm H h .large \ {blk shift (ptr - hhdm) k}) := by
      rw [granted_large]
      congr 1
      apply image_erase (g := fun g => blk shift (g.1 - hhdm) g.2) hi.large_nodup
      intro g hgl heq
      obtain ⟨h1, h2⟩ := blk_injective heq
      have h3 := hi.large_mapped g hgl
      exact Prod.ext (by dsimp only at h1 ⊢; omega) h2
    rw [hfrom]
    refine ⟨_, rfl, ⟨hi.slabs, hi.unused, hgranted ▸ hex, hgranted ▸ hreleased.inv, hi.slab_mapped,
      fun g hg => hi.large_mapped g (List.mem_of_mem_erase hg), hi.large_nodup.erase _⟩,
      ⟨hx, fun y => ?_⟩, rfl⟩
    cases y with
    | slab c z => simp [Holds]
    | pages addr order => simp [Holds, hi.large_nodup.mem_erase_iff, and_comm]

theorem HeapInv.write (hi : HeapInv shift hhdm a R H h) (hf : Classes shift a) (hs : 12 ≤ shift)
    (blocks : ℕ → MallocHeader)
    (hh : ∀ p, (∀ x, Holds h x → p + headerSize ≤ x.start ∨ x.start + x.len shift ≤ p) →
      headers p = h.headers p)
    (hn : ∀ v, (∀ x, Holds h x → v + 8 ≤ x.start ∨ x.start + x.len shift ≤ v) → next v = h.next v) :
    HeapInv shift hhdm a R H { h with headers, next, blocks } := by
  have hpage : headerSize ≤ 2 ^ shift :=
    (show 32 ≤ 2 ^ 12 by decide).trans (Nat.pow_le_pow_right (by norm_num) hs)
  refine ⟨fun c hc => ?_, hi.unused, hi.exclusive, hi.buddy, hi.slab_mapped, hi.large_mapped,
    hi.large_nodup⟩
  refine (hi.slabs c hc).write (hf c hc) (fun p hp => hh p fun x hx => ?_)
    fun p hp v h1 h2 hobjs => hn v fun x hx => ?_
  · rcases hi.page_apart hf hp hx with ⟨obj, rfl, hobj⟩ | hle | hle
    · exact .inl ((hf c hc).object_bounds hobj).1
    · exact .inr hle
    · exact .inl (by omega)
  · rcases hi.page_apart hf hp hx with ⟨obj, rfl, hobj⟩ | hle | hle
    · exact hobjs obj hx
    · exact .inr (by omega)
    · exact .inl (by omega)

variable {k : ℕ}

theorem HeapInv.otherTakes (hi : HeapInv shift hhdm a R H h)
    (ht : Allocated shift h.buddy R (pooled (granted shift hhdm H h)) k p t) :
    HeapInv shift hhdm a R (insert (blk shift p k) H) { h with buddy := t } := by
  have hgranted : granted shift hhdm (insert (blk shift p k) H) { h with buddy := t } =
      update (granted shift hhdm H h) .other
        (insert (blk shift p k) (granted shift hhdm H h .other)) := by
    funext o
    cases o <;> rfl
  obtain ⟨hex, hpool⟩ := hi.exclusive.gain (i := .other) ht.fresh
  refine ⟨hi.slabs, hi.unused, hgranted ▸ hex, ?_, hi.slab_mapped, hi.large_mapped, hi.large_nodup⟩
  rw [hgranted, hpool]
  exact ht.inv

theorem HeapInv.otherReturns (hi : HeapInv shift hhdm a R H h) (hb : blk shift p k ∈ H) :
    HeapInv shift hhdm a R (H \ {blk shift p k})
      { h with buddy := buddyFree shift h.buddy p k } := by
  have hgranted : granted shift hhdm (H \ {blk shift p k})
      { h with buddy := buddyFree shift h.buddy p k } =
      update (granted shift hhdm H h) .other
        (granted shift hhdm H h .other \ {blk shift p k}) := by
    funext o
    cases o <;> rfl
  obtain ⟨hex, hpool, hnot⟩ := hi.exclusive.lose (i := .other) hb
  have hreleased := buddyFree_spec (hpool ▸ hi.buddy) hnot
  exact ⟨hi.slabs, hi.unused, hgranted ▸ hex, hgranted ▸ hreleased.inv, hi.slab_mapped,
    hi.large_mapped, hi.large_nodup⟩

end Places

end LibcStdlibPlaces
