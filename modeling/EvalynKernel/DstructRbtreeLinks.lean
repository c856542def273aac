import EvalynKernel.DstructRbtree
import EvalynKernel.RedBlackTrees

/-! # The tree behind the links

How the reads and the writes of `rbtree.c` act on the tree of items that the links of a
red-black tree form: painting a node, rotating a subtree. -/
namespace DstructRbtreeLinks

open Function MachineWords LinkedTrees RedBlackTrees DstructRbtree

structure Item where
  addr : ℕ
  color : Color

def Item.red (i : Item) : Bool := i.color == .red

@[simp] theorem red_eq_true {i : Item} : i.red = true ↔ i.color = .red := by simp [Item.red]

@[simp] theorem red_eq_false {i : Item} : i.red = false ↔ i.color = .black := by
  cases h : i.color <;> simp [Item.red, h]

def links : Layout Node Item where
  child := Node.child
  up := Node.parent
  addr := Item.addr
  word i p := p ||| colorBit i.color

@[simp] theorem links_addr (i : Item) : links.addr i = i.addr := rfl

@[simp] theorem links_child (n : Node) (d : Side) : links.child n d = n.child d := rfl

@[simp] theorem links_up (n : Node) : links.up n = n.parent := rfl

@[simp] theorem links_word (i : Item) (p : ℕ) : links.word i p = p ||| colorBit i.color := rfl

@[simp] theorem child_setParent (n : Node) (w : ℕ) (d : Side) :
    Node.child ⟨w, n.left, n.right⟩ d = n.child d := by cases d <;> rfl

@[simp] theorem child_setChild_self (n : Node) (d : Side) (v : ℕ) :
    (n.setChild d v).child d = v := by
  cases d <;> rfl

@[simp] theorem child_setChild_flip (n : Node) (d : Side) (v : ℕ) :
    (n.setChild d v).child d.flip = n.child d.flip := by cases d <;> rfl

@[simp] theorem child_setChild_other (n : Node) (d : Side) (v : ℕ) :
    (n.setChild d.flip v).child d = n.child d := by cases d <;> rfl

@[simp] theorem parent_setChild (n : Node) (d : Side) (v : ℕ) :
    (n.setChild d v).parent = n.parent := by cases d <;> rfl

def addrs (s : BinaryTree Item) : List ℕ := (inorder s).map Item.addr

/-- The links of `t` are those of the tree `s` of items at distinct even addresses. -/
structure Linked (t : Tree) (s : BinaryTree Item) : Prop where
  root : t.root = links.ptr s
  rep : links.Rep t.nodes 0 s
  nodup : (addrs s).Nodup
  even : ∀ x ∈ addrs s, x % 2 = 0

section Words

variable {p q : ℕ} {c : Color}

theorem lor_colorBit (hp : p % 2 = 0) (c : Color) : p ||| colorBit c = p + colorBit c := by
  obtain ⟨k, rfl⟩ := Nat.dvd_of_mod_eq_zero hp
  have hbit : colorBit c < 2 ^ 1 := by cases c <;> decide
  exact (Nat.two_pow_add_eq_or_of_lt hbit k).symm

theorem word_getParent (hp : p % 2 = 0) : (p ||| colorBit c) >>> 1 <<< 1 = p := by
  rw [lor_colorBit hp, Nat.shiftRight_eq_div_pow, Nat.shiftLeft_eq]
  cases c <;> simp only [colorBit] <;> omega

theorem word_getColor (hp : p % 2 = 0) : (p ||| colorBit c) &&& 1 = colorBit c := by
  rw [lor_colorBit hp, Nat.and_one_is_mod]
  cases c <;> simp only [colorBit] <;> omega

theorem word_setParent (hq : q % 2 = 0) :
    ((q ||| colorBit c) &&& 1) ||| p = p ||| colorBit c := by
  rw [word_getColor hq, Nat.lor_comm]

end Words

section Focus

variable {t : Tree} {c : List (Frame Item)} {i : Item} {d : Side} {l r s o : BinaryTree Item}

theorem addrs_plug (c : List (Frame Item)) (s : BinaryTree Item) :
    addrs (plug c s) = (before c).map Item.addr ++ addrs s ++ (after c).map Item.addr := by
  simp [addrs, inorder_plug]

theorem addrs_plug_perm (c : List (Frame Item)) (s : BinaryTree Item) :
    (addrs (plug c s)).Perm (addrs s ++ (around c).map Item.addr) := by
  rw [addrs, addrs, ← List.map_append]
  exact (inorder_plug_perm c s).map _

theorem addrs_branch_perm (d : Side) (a : Item) (s o : BinaryTree Item) :
    (addrs (branch d a s o)).Perm (a.addr :: (addrs s ++ addrs o)) := by
  refine ((inorder_branch_perm d a s o).map Item.addr).trans ?_
  simp only [List.map_append, List.map_cons]
  exact List.perm_middle

theorem hole_mem (c : List (Frame Item)) :
    links.hole 0 c = 0 ∨ links.hole 0 c ∈ (around c).map Item.addr := by
  cases c <;> simp [Layout.hole, around]

theorem ptr_zero_or_mem (s : BinaryTree Item) : links.ptr s = 0 ∨ links.ptr s ∈ addrs s := by
  cases s <;> simp [addrs]

variable {x w : ℕ}

theorem eq_zero_of_fresh {l : List ℕ} (hx : x = 0 ∨ x ∈ l) (hw : w ∉ l) : w = x → w = 0 :=
  fun heq => hx.elim heq.trans fun hmem => absurd (heq ▸ hmem) hw

theorem ne_of_fresh {l : List ℕ} (hx : x = 0 ∨ x ∈ l) (hw : w ∉ l) (h0 : w ≠ 0) : w ≠ x :=
  fun heq => h0 (eq_zero_of_fresh hx hw heq)

theorem Linked.hole_even (h : Linked t (plug c s)) : links.hole 0 c % 2 = 0 := by
  rcases hole_mem c with h0 | hmem
  · rw [h0]
  · exact h.even _ ((addrs_plug_perm c s).mem_iff.2 (by simp [hmem]))

section

variable (h : Linked t (plug c (branch d i s o)))
include h

theorem Linked.even_self : i.addr % 2 = 0 := by
  refine h.even _ ((addrs_plug_perm c _).mem_iff.2 (List.mem_append_left _ ?_))
  exact (addrs_branch_perm d i s o).mem_iff.2 List.mem_cons_self

theorem Linked.cell :
    i.addr ≠ 0 ∧ t.child i.addr d = links.ptr s ∧ t.child i.addr d.flip = links.ptr o ∧
      (t.nodes i.addr).parent = links.hole 0 c ||| colorBit i.color := by
  obtain ⟨hne, hs, ho, hup, -, -⟩ := Layout.rep_branch.1 (Layout.rep_plug.1 h.rep).2
  exact ⟨hne, hs, ho, hup⟩

theorem Linked.getParent :
    rbGetParent t i.addr = links.hole 0 c := by
  rw [rbGetParent, h.cell.2.2.2, word_getParent h.hole_even]

theorem Linked.getColor :
    rbGetColor t i.addr = i.color := by
  rw [rbGetColor, h.cell.2.2.2, word_getColor h.hole_even]
  cases i.color <;> simp [colorBit]

end

theorem focus_perm (c : List (Frame Item)) (d : Side) (i : Item) (s o : BinaryTree Item) :
    (addrs (plug c (branch d i s o))).Perm
      (i.addr :: (addrs s ++ addrs o ++ (around c).map Item.addr)) :=
  (addrs_plug_perm c _).trans ((addrs_branch_perm d i s o).append_right _)

variable {a : Item}

theorem Linked.ne_other {q : BinaryTree Item}
    (h : Linked t (plug c (branch e a (branch d i s o) q))) : i.addr ≠ links.ptr q := by
  have hi : Linked t (plug (⟨e, a, q⟩ :: c) (branch d i s o)) := h
  have hnd := (focus_perm (⟨e, a, q⟩ :: c) d i s o).nodup_iff.1 hi.nodup
  refine ne_of_fresh (ptr_zero_or_mem q) (fun hmem => (List.nodup_cons.1 hnd).1 ?_) hi.cell.1
  simp only [around, List.map_cons, List.map_append, List.mem_append, List.mem_cons]
  exact .inr (.inr (.inl hmem))

variable {f : Frame Item}

theorem Linked.side (h : Linked t (plug (f :: c) (branch d i s o))) :
    sideOf (i.addr == (t.nodes f.item.addr).right) = f.side := by
  have hf : Linked t (plug c (branch f.side f.item (branch d i s o) f.other)) := h
  obtain ⟨-, hs, ho, -⟩ := hf.cell
  cases hside : f.side with
  | right =>
    rw [hside] at hs
    rw [show (t.nodes f.item.addr).right = i.addr from hs.trans (by simp)]
    simp [sideOf]
  | left =>
    rw [hside] at ho
    rw [show (t.nodes f.item.addr).right = links.ptr f.other from ho]
    simp [sideOf, hf.ne_other]

theorem Linked.direction (h : Linked t (plug (f :: c) (branch d i s o))) :
    rbtreeDirection t i.addr = f.side := by
  rw [rbtreeDirection, h.getParent]
  exact h.side

theorem Linked.other (h : Linked t (plug c (branch d i s o))) :
    Linked t (plug (⟨d.flip, i, s⟩ :: c) o) := by
  rwa [plug_other]

theorem Linked.rebuild (h : Linked t s) (hroot : t'.root = links.ptr s')
    (hrep : links.Rep t'.nodes 0 s') (hperm : (addrs s').Perm (addrs s)) : Linked t' s' :=
  ⟨hroot, hrep, hperm.nodup_iff.2 h.nodup, fun x hx => h.even x (hperm.mem_iff.1 hx)⟩

theorem Linked.paint (h : Linked t (plug c (branch d i s o))) (col : Color) :
    Linked (rbSetColor t i.addr col) (plug c (branch d ⟨i.addr, col⟩ s o)) := by
  have hnd := (focus_perm c d i s o).nodup_iff.1 h.nodup
  simp only [List.nodup_cons, List.mem_append, not_or] at hnd
  obtain ⟨⟨⟨his, hio⟩, hic⟩, -⟩ := hnd
  obtain ⟨hne, hs, ho, hup⟩ := h.cell
  obtain ⟨hc, hb⟩ := Layout.rep_plug.1 h.rep
  obtain ⟨-, -, -, -, hsr, hor⟩ := Layout.rep_branch.1 hb
  have hself : (rbSetColor t i.addr col).nodes i.addr =
      { t.nodes i.addr with parent := links.hole 0 c ||| colorBit col } := by
    simp [rbSetColor, Tree.setNode, hup, word_getParent h.hole_even]
  have hout : ∀ x, x ≠ i.addr → (rbSetColor t i.addr col).nodes x = t.nodes x :=
    fun x hx => update_of_ne hx _ _
  have hptr : links.ptr (branch d (⟨i.addr, col⟩ : Item) s o) = links.ptr (branch d i s o) := by
    simp
  refine h.rebuild (h.root.trans (Layout.ptr_plug_congr c hptr.symm))
    (Layout.rep_plug.2 ⟨?_, Layout.rep_branch.2 ⟨hne, ?_, ?_, ?_, ?_, ?_⟩⟩)
    ((focus_perm c d _ s o).trans (focus_perm c d i s o).symm)
  · rw [hptr]
    exact hc.congr fun x hx => hout x (ne_of_mem_of_not_mem hx hic)
  · simpa [hself, Tree.child] using hs
  · simpa [hself, Tree.child] using ho
  · simp [hself]
  · exact hsr.congr fun x hx => hout x (ne_of_mem_of_not_mem hx his)
  · exact hor.congr fun x hx => hout x (ne_of_mem_of_not_mem hx hio)

variable {subParent newRoot sub : ℕ}

theorem rotate_nodes (hp : rbGetParent t sub = subParent) (hr : t.child sub d.flip = newRoot)
    (hn : t.child newRoot d = newChild) (hsr : sub ≠ newRoot) (hsn : sub ≠ newChild)
    (hsp : sub ≠ subParent) (hrn : newRoot ≠ newChild) (hrp : newRoot ≠ subParent)
    (hnp : newChild ≠ 0 → newChild ≠ subParent) (x : ℕ) :
    (rbtreeRotateSubtree t sub d).nodes x =
      if x = sub then
        { (t.nodes sub).setChild d.flip newChild with
          parent := ((t.nodes sub).parent &&& 1) ||| newRoot }
      else if x = newRoot then
        { (t.nodes newRoot).setChild d sub with
          parent := ((t.nodes newRoot).parent &&& 1) ||| subParent }
      else if x = newChild ∧ newChild ≠ 0 then
        { t.nodes newChild with parent := ((t.nodes newChild).parent &&& 1) ||| sub }
      else if x = subParent ∧ subParent ≠ 0 then
        (t.nodes subParent).setChild (sideOf (sub == (t.nodes subParent).right)) newRoot
      else t.nodes x := by
  unfold rbtreeRotateSubtree
  simp only [hp, hr, hn]
  by_cases hn0 : newChild = 0 <;> by_cases hp0 : subParent = 0 <;>
    simp only [hn0, hp0, ne_eq, not_true_eq_false, not_false_eq_true, if_true, if_false, and_false,
      and_true, Tree.setChild, rbSetParent, Tree.setNode, update_apply, hsr, hsr.symm,
      hsn, hsn.symm, hsp.symm, hrn, hrp.symm, parent_setChild]
  all_goals grind [parent_setChild]

variable {m' m : ℕ → Node} {p y : ℕ}

theorem context_refill (h : links.ContextRep m p c x) (hnd : ((around c).map Item.addr).Nodup)
    (hout : ∀ z ∈ (around c).map Item.addr, z ≠ links.hole p c → m' z = m z)
    (hhole : ∀ f c', c = f :: c' → m' f.item.addr = (m f.item.addr).setChild f.side y) :
    links.ContextRep m' p c y := by
  cases c with
  | nil => trivial
  | cons f c =>
    have hf := hhole f c rfl
    exact h.refill (by simp [hf]) (by simp [hf]) (by simp [hf]) hout hnd

theorem adopt (h : links.Rep m p s) (hp : p % 2 = 0)
    (hroot : links.ptr s ≠ 0 → m' (links.ptr s) =
      { m (links.ptr s) with parent := ((m (links.ptr s)).parent &&& 1) ||| q })
    (hm : ∀ w ∈ addrs s, w ≠ links.ptr s → m' w = m w) (hnd : (addrs s).Nodup) :
    links.Rep m' q s := by
  refine h.reparent (fun i l r hi => ?_) hm hnd
  subst hi
  have hi : m' i.addr = { m i.addr with parent := ((m i.addr).parent &&& 1) ||| q } := hroot h.1
  have hup : (m i.addr).parent = p ||| colorBit i.color := h.2.2.2.1
  rw [hup, word_setParent hp] at hi
  exact ⟨funext fun d => by simp [hi], by simp [hi]⟩

theorem rotate_root (hp : rbGetParent t sub = subParent) (hr : t.child sub d.flip = newRoot) :
    (rbtreeRotateSubtree t sub d).root = if subParent = 0 then newRoot else t.root := by
  unfold rbtreeRotateSubtree Tree.setChild rbSetParent Tree.setNode
  simp only [hp, hr]
  grind

/-- The root pointer changes only when what fills the hole is the whole tree. -/
theorem Linked.root_refill (h : Linked t (plug c s)) (s' : BinaryTree Item) :
    (if links.hole 0 c = 0 then links.ptr s' else t.root) = links.ptr (plug c s') := by
  cases c with
  | nil => exact if_pos rfl
  | cons f c =>
    have hf0 : links.hole 0 (f :: c) ≠ 0 := (Layout.rep_plug.1 h.rep).1.1
    rw [if_neg hf0]
    exact h.root.trans (Layout.ptr_plug_cons f c _ _)

theorem Linked.rotate {x y z : BinaryTree Item}
    (h : Linked t (plug c (branch d.flip a (branch d b x y) z))) :
    Linked (rbtreeRotateSubtree t a.addr d) (plug c (branch d b (branch d.flip a x z) y)) := by
  have hb : Linked t (plug (⟨d.flip, a, z⟩ :: c) (branch d b x y)) := h
  have hperm : (addrs (plug c (branch d.flip a (branch d b x y) z))).Perm
      (a.addr :: b.addr :: (addrs x ++ addrs y ++ addrs z ++ (around c).map Item.addr)) := by
    refine (focus_perm c d.flip a _ z).trans (List.Perm.cons _ ?_)
    exact ((addrs_branch_perm d b x y).append_right _).append_right _
  have hperm' : (addrs (plug c (branch d b (branch d.flip a x z) y))).Perm
      (a.addr :: b.addr :: (addrs x ++ addrs y ++ addrs z ++ (around c).map Item.addr)) := by
    refine (focus_perm c d b _ y).trans ?_
    refine (((((addrs_branch_perm d.flip a x z).append_right _).append_right _)).cons _).trans ?_
    refine List.perm_iff_count.2 fun w => ?_
    simp only [List.count_append, List.count_cons]
    omega
  have hnd := hperm.nodup_iff.1 h.nodup
  simp only [List.nodup_cons, List.nodup_append, List.mem_append, List.mem_cons, not_or] at hnd
  obtain ⟨⟨hAB, ⟨⟨hAx, hAy⟩, hAz⟩, hAc⟩, ⟨⟨⟨hBx, hBy⟩, hBz⟩, hBc⟩, ⟨⟨hndx, -, hxy⟩, -, hxyz⟩, hndc,
    hxyzc⟩ := hnd
  obtain ⟨ha0, haB, haz, haw⟩ := h.cell
  obtain ⟨hb0, hbx, hby, hbw⟩ := hb.cell
  simp only [Side.flip_flip, Layout.ptr_branch, links_addr] at haB haz
  obtain ⟨hcr, har⟩ := Layout.rep_plug.1 h.rep
  obtain ⟨-, -, -, -, hbr, hzr⟩ := Layout.rep_branch.1 har
  obtain ⟨-, -, -, -, hxr, hyr⟩ := Layout.rep_branch.1 hbr
  have hP := hole_mem c
  have hX := ptr_zero_or_mem x
  have hAP := ne_of_fresh hP hAc ha0
  have hBP := ne_of_fresh hP hBc hb0
  have hxc : ∀ w ∈ addrs x, w ∉ (around c).map Item.addr := fun w hw hwc =>
    hxyzc w (.inl (.inl hw)) w hwc rfl
  have hXP : links.ptr x ≠ 0 → links.ptr x ≠ links.hole 0 c := fun h0 =>
    ne_of_fresh hP (hxc _ (hX.resolve_left h0)) h0
  have hnodes := rotate_nodes h.getParent haB hbx hAB (ne_of_fresh hX hAx ha0) hAP
    (ne_of_fresh hX hBx hb0) hBP hXP
  have hA := hnodes a.addr
  have hB := hnodes b.addr
  rw [if_pos rfl, haw, word_setParent h.hole_even] at hA
  rw [if_neg (Ne.symm hAB), if_pos rfl, hbw, word_setParent hb.hole_even] at hB
  have hout : ∀ w, w ≠ a.addr → w ≠ b.addr → (w = links.ptr x → w = 0) →
      (w = links.hole 0 c → w = 0) → (rbtreeRotateSubtree t a.addr d).nodes w = t.nodes w := by
    intro w hwa hwb hwx hwp
    rw [hnodes w, if_neg hwa, if_neg hwb, if_neg, if_neg]
    · rintro ⟨rfl, h0⟩
      exact h0 (hwp rfl)
    · rintro ⟨rfl, h0⟩
      exact h0 (hwx rfl)
  refine h.rebuild ?_ (Layout.rep_plug.2 ⟨?_, Layout.rep_branch.2 ⟨hb0, ?_, ?_, ?_,
    Layout.rep_branch.2 ⟨ha0, ?_, ?_, ?_, ?_, ?_⟩, ?_⟩⟩) (hperm'.trans hperm.symm)
  · rw [rotate_root h.getParent haB]
    simpa using h.root_refill (branch d b _ y)
  · rw [Layout.ptr_branch, links_addr]
    refine context_refill hcr hndc (fun w hw hwP => ?_) fun f c' hc => ?_
    · exact hout w (ne_of_mem_of_not_mem hw hAc) (ne_of_mem_of_not_mem hw hBc)
        (eq_zero_of_fresh hX fun hwx => hxc w hwx hw) (absurd · hwP)
    · subst hc
      have hside := h.side
      have hf := hnodes f.item.addr
      have hfP : links.hole 0 (f :: c') = f.item.addr := rfl
      rw [hfP] at hAP hBP hXP hf
      rw [hf, if_neg hAP.symm, if_neg hBP.symm, if_neg, if_pos ⟨rfl, hcr.1⟩, hside]
      exact fun hfx => hXP hfx.2 hfx.1.symm
  · simp [hB]
  · simpa [hB, Tree.child] using hby
  · simp [hB]
  · simp [hA]
  · simpa [hA, Tree.child] using haz
  · simp [hA]
  · refine adopt hxr hb.even_self (fun h0 => ?_) (fun w hw hwx => ?_) hndx
    · rw [hnodes, if_neg (ne_of_fresh hX hAx ha0).symm, if_neg (ne_of_fresh hX hBx hb0).symm,
        if_pos ⟨rfl, h0⟩]
      rfl
    · exact hout w (ne_of_mem_of_not_mem hw hAx) (ne_of_mem_of_not_mem hw hBx) (absurd · hwx)
        (eq_zero_of_fresh hP (hxc w hw))
  · refine hzr.congr fun w hw => ?_
    exact hout w (ne_of_mem_of_not_mem hw hAz) (ne_of_mem_of_not_mem hw hBz)
      (eq_zero_of_fresh hX fun hwx => hxyz w (.inl hwx) w hw rfl)
      (eq_zero_of_fresh hP fun hwc => hxyzc w (.inr hw) w hwc rfl)
  · refine hyr.congr fun w hw => ?_
    exact hout w (ne_of_mem_of_not_mem hw hAy) (ne_of_mem_of_not_mem hw hBy)
      (eq_zero_of_fresh hX fun hwx => hxy w hwx w hw rfl)
      (eq_zero_of_fresh hP fun hwc => hxyzc w (.inl (.inr hw)) w hwc rfl)

theorem addrs_paint (c : List (Frame Item)) (d : Side) (i : Item) (col : Color)
    (s o : BinaryTree Item) :
    addrs (plug c (branch d ⟨i.addr, col⟩ s o)) = addrs (plug c (branch d i s o)) := by
  rw [addrs_plug, addrs_plug]
  cases d <;> simp [addrs, branch]

theorem addrs_rotate (c : List (Frame Item)) (d : Side) (a b : Item) (x y z : BinaryTree Item) :
    addrs (plug c (branch d b (branch d.flip a x z) y)) =
      addrs (plug c (branch d.flip a (branch d b x y) z)) := by
  rw [addrs_plug, addrs_plug]
  cases d <;> simp [addrs, branch, Side.flip]

@[simp] theorem setColor_value (t : Tree) (x : ℕ) (col : Color) :
    (rbSetColor t x col).valueOfNode = t.valueOfNode := rfl

@[simp] theorem setParent_value (t : Tree) (x p : ℕ) :
    (rbSetParent t x p).valueOfNode = t.valueOfNode := rfl

theorem setParent_nodes_ne (h : y ≠ x) : (rbSetParent t x p).nodes y = t.nodes y :=
  update_of_ne h _ _

@[simp] theorem setChild_value (t : Tree) (x : ℕ) (d : Side) (v : ℕ) :
    (t.setChild x d v).valueOfNode = t.valueOfNode := rfl

@[simp] theorem rotate_value (t : Tree) (x : ℕ) (d : Side) :
    (rbtreeRotateSubtree t x d).valueOfNode = t.valueOfNode := by
  unfold rbtreeRotateSubtree
  grind [setChild_value, setParent_value]

/-- Reading a node's colour behind a null test, as the code does for uncle and nephews. -/
theorem Linked.red_iff (h : Linked t (plug c s)) :
    (links.ptr s ≠ 0 ∧ rbGetColor t (links.ptr s) = .red) ↔ rootRed Item.red s = true := by
  cases s with
  | nil => simp
  | node a l r =>
    have ha : Linked t (plug c (branch .left a l r)) := h
    simp [ha.cell.1, ha.getColor, rootRed]

theorem Linked.not_red (h : Linked t (plug c s)) (hs : rootRed Item.red s = false) :
    links.ptr s = 0 ∨ rbGetColor t (links.ptr s) = .black := by
  have hiff := h.red_iff
  rw [hs] at hiff
  by_cases h0 : links.ptr s = 0
  · exact .inl h0
  · cases hcol : rbGetColor t (links.ptr s) with
    | red => simp [h0, hcol] at hiff
    | black => exact .inr rfl

theorem Linked.setNode (h : Linked t s) (hx : x ∉ addrs s) : Linked (t.setNode x n) s :=
  ⟨h.root, h.rep.congr fun _ hy => update_of_ne (ne_of_mem_of_not_mem hy hx) _ _,
    h.nodup, h.even⟩

theorem exists_branch (d e : Side) (i : Item) (s o : BinaryTree Item) :
    ∃ x y, branch d i s o = branch e i x y := by
  cases d <;> cases e <;> exact ⟨_, _, rfl⟩

end Focus

end DstructRbtreeLinks
