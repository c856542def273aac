import EvalynKernel.DstructRbtreeLinks

/-! # Insertion into the red-black tree

The descent finds the hole after all items with a key at most the new one's; the fixup
loop moves a red node with a possibly red parent upwards until the tree is valid. -/
namespace DstructRbtreeInsert

open LinkedTrees RedBlackTrees DstructRbtree DstructRbtreeLinks

/-- `t` is a valid red-black tree of the nodes `xs`, in this order. -/
def Holds (t : Tree) (xs : List ℕ) : Prop :=
  ∃ s, Linked t s ∧ Valid Item.red s ∧ addrs s = xs

variable {t : Tree} {c : List (Frame Item)} {e : Side} {n fuel : ℕ} {g p i : Item}
  {s o q u x : BinaryTree Item}

/-- Cases 5 and 6 end with this rotation: the red parent `p` takes the place of the
grandparent `g`. -/
theorem insert_outer (h : Linked t (plug c (branch e g (branch e p x q) u)))
    (hx : Balanced Item.red x n) (hq : Balanced Item.red q n) (hq' : rootRed Item.red q = false)
    (hu : Balanced Item.red u n) (hu' : rootRed Item.red u = false) (hc : Fits Item.red c (n + 1)) :
    Holds (rbSetColor (rbSetColor (rbtreeRotateSubtree t g.addr e.flip) p.addr .black) g.addr .red)
      (addrs (plug c (branch e g (branch e p x q) u))) := by
  have h₀ : Linked t (plug c (branch e.flip.flip g (branch e.flip p q x) u)) := by
    rwa [Side.flip_flip, branch_flip]
  have h₁ := h₀.rotate.paint .black
  have h₂ : Linked _ (plug (⟨e.flip, ⟨p.addr, .black⟩, x⟩ :: c) (branch e.flip.flip g q u)) := h₁
  have h₃ := h₂.paint .red
  refine ⟨_, h₃, Fits.valid (n := n) ?_ ?_ ?_, ?_⟩
  · simp only [Fits, Item.red]
    exact ⟨hx, hc⟩
  · exact (balanced_red rfl).2 ⟨hq', hu', hq, hu⟩
  · exact .inr rfl
  · rw [addrs_paint]
    refine (addrs_paint c e.flip p .black _ x).trans ((addrs_rotate c e.flip g p q x u).trans ?_)
    rw [Side.flip_flip, branch_flip]

/-- Under a red parent there is a grandparent, and it is black. -/
theorem fits_grandparent (hf : Fits Item.red (f :: c) n) (hp : f.item.color = .red) :
    rootRed Item.red f.other = false ∧ Balanced Item.red f.other n ∧
      ∃ gf c', c = gf :: c' ∧ gf.item.color = .black ∧ Balanced Item.red gf.other n ∧
        Fits Item.red c' (n + 1) := by
  simp only [Fits, red_eq_true.2 hp, if_true] at hf
  obtain ⟨ho, hob, hpc, hc⟩ := hf
  cases c with
  | nil => cases hpc
  | cons gf c' =>
    have hg : gf.item.red = false := hpc
    simp only [Fits, hg] at hc
    exact ⟨ho, hob, gf, c', rfl, red_eq_false.1 hg, hc.1, hc.2⟩

/-- Case 2: parent and uncle become black and the grandparent red, so that the violation
moves two levels up. -/
theorem insert_repaint (h : Linked t (plug c (branch e g (branch eu p x q) (.node v ul ur))))
    (hv : v.color = .red) (hx : Balanced Item.red x n) (hq : Balanced Item.red q n)
    (hu : Balanced Item.red (.node v ul ur) n) :
    Linked (rbSetColor (rbSetColor (rbSetColor t p.addr .black) v.addr .black) g.addr .red)
        (plug c (branch e ⟨g.addr, .red⟩ (branch eu ⟨p.addr, .black⟩ x q)
          (.node ⟨v.addr, .black⟩ ul ur))) ∧
      Balanced Item.red (branch e ⟨g.addr, .red⟩ (branch eu ⟨p.addr, .black⟩ x q)
        (.node ⟨v.addr, .black⟩ ul ur)) (n + 1) ∧
      addrs (plug c (branch e ⟨g.addr, .red⟩ (branch eu ⟨p.addr, .black⟩ x q)
          (.node ⟨v.addr, .black⟩ ul ur))) =
        addrs (plug c (branch e g (branch eu p x q) (.node v ul ur))) := by
  have h₁ : Linked t (plug (⟨e, g, .node v ul ur⟩ :: c) (branch eu p x q)) := h
  have h₂ : Linked (rbSetColor t p.addr .black)
      (plug c (branch e g (branch eu ⟨p.addr, .black⟩ x q) (branch .left v ul ur))) :=
    h₁.paint .black
  have h₃ := h₂.other.paint .black
  rw [plug_other] at h₃
  have hu' : Balanced Item.red (branch .left v ul ur) n := hu
  rw [balanced_red (red_eq_true.2 hv)] at hu'
  have hblack : Balanced Item.red (branch .left (⟨v.addr, .black⟩ : Item) ul ur) (n + 1) :=
    (balanced_black_succ rfl).2 ⟨hu'.2.2.1, hu'.2.2.2⟩
  refine ⟨h₃.paint .red, (balanced_red rfl).2 ⟨by simp [Item.red], rfl,
    (balanced_black_succ rfl).2 ⟨hx, hq⟩, hblack⟩, ?_⟩
  rw [addrs_paint, addrs_plug, addrs_plug]
  cases e <;> cases eu <;> simp [addrs, branch]

section Loop

variable {f gf : Frame Item} {d : Side}

theorem insertFixupLoop_black (fuel : ℕ) (h : Linked t (plug (f :: c) (branch d i s o)))
    (hb : Balanced Item.red (branch d i s o) n) (hf : Fits Item.red (f :: c) n)
    (hcol : f.item.color = .black) :
    insertFixupLoop fuel t i.addr f.item.addr = .ok t ∧
      Holds t (addrs (plug (f :: c) (branch d i s o))) := by
  have hp : Linked t (plug c (branch f.side f.item (branch d i s o) f.other)) := h
  refine ⟨?_, _, h, hf.valid hb (.inr (red_eq_false.2 hcol)), rfl⟩
  rw [insertFixupLoop, if_pos (hp.getColor.trans hcol)]

theorem insertFixupLoop_rotate (h : Linked t (plug (f :: gf :: c) (branch d i s o)))
    (hcol : f.item.color = .red) (hi : i.color = .red)
    (hb : Balanced Item.red (branch d i s o) n) (ho : rootRed Item.red f.other = false)
    (hob : Balanced Item.red f.other n) (hu : rootRed Item.red gf.other = false)
    (hub : Balanced Item.red gf.other n) (hc : Fits Item.red c (n + 1)) :
    ∃ t', insertFixupLoop fuel t i.addr f.item.addr = .ok t' ∧
      Holds t' (addrs (plug (f :: gf :: c) (branch d i s o))) ∧ t'.valueOfNode = t.valueOfNode := by
  have hp : Linked t (plug (gf :: c) (branch f.side f.item (branch d i s o) f.other)) := h
  have hg : Linked t (plug c (branch gf.side gf.item
    (branch f.side f.item (branch d i s o) f.other) gf.other)) := hp
  have hgp : rbGetParent t f.item.addr = gf.item.addr := hp.getParent
  rw [insertFixupLoop, if_neg (by simp [hp.getColor, hcol])]
  simp only [hgp, hg.cell.1, if_false, hp.direction, hg.cell.2.2.1, if_pos (hg.other.not_red hu)]
  by_cases hside : f.side = gf.side
  · have hchild : t.child f.item.addr gf.side.flip = links.ptr f.other := hside ▸ hp.cell.2.2.1
    have hne : (i.addr == links.ptr f.other) = false := beq_false_of_ne hp.ne_other
    simp only [hchild, hne, Bool.false_eq_true, if_false]
    have hshape : plug (f :: gf :: c) (branch d i s o) = plug c (branch gf.side gf.item
        (branch gf.side f.item (branch d i s o) f.other) gf.other) := by
      rw [plug, plug, hside]
    rw [hshape] at h ⊢
    exact ⟨_, rfl, insert_outer h hb hob ho hub hu hc, by simp⟩
  · have hflip : f.side = gf.side.flip := by
      cases hf : f.side <;> cases hgf : gf.side <;> simp_all [Side.flip]
    obtain ⟨x, y, hxy⟩ := exists_branch d gf.side i s o
    rw [hxy] at h hp hg hb ⊢
    obtain ⟨hx', hy', hxb, hyb⟩ := (balanced_red (red_eq_true.2 hi)).1 hb
    have hchild : t.child f.item.addr gf.side.flip = i.addr := by
      rw [← hflip, hp.cell.2.1, Layout.ptr_branch, links_addr]
    simp only [hchild, beq_self_eq_true, if_true]
    have hshape : plug (f :: gf :: c) (branch gf.side i x y) = plug (gf :: c)
        (branch gf.side.flip f.item (branch gf.side i x y) f.other) := by
      rw [plug, hflip]
    rw [hshape] at h ⊢
    have hrot : Linked (rbtreeRotateSubtree t f.item.addr gf.side) (plug c (branch gf.side gf.item
      (branch gf.side i (branch gf.side.flip f.item x f.other) y) gf.other)) := h.rotate
    have hnew : (rbtreeRotateSubtree t f.item.addr gf.side).child gf.item.addr gf.side =
        i.addr := by
      rw [hrot.cell.2.1, Layout.ptr_branch, links_addr]
    rw [hnew]
    have hred : Balanced Item.red (branch gf.side.flip f.item x f.other) n :=
      (balanced_red (red_eq_true.2 hcol)).2 ⟨hx', ho, hxb, hob⟩
    refine ⟨_, rfl, ?_, by simp⟩
    rw [← addrs_rotate]
    exact insert_outer hrot hred hyb hy' hub hu hc

theorem insertFixupLoop_repaint (fuel : ℕ) (h : Linked t (plug (f :: gf :: c) (branch d i s o)))
    (hcol : f.item.color = .red) (hb : Balanced Item.red (branch d i s o) n)
    (hob : Balanced Item.red f.other n) (hu : rootRed Item.red gf.other = true)
    (hub : Balanced Item.red gf.other n) :
    ∃ t' x y, Linked t' (plug c (branch gf.side ⟨gf.item.addr, .red⟩ x y)) ∧
      Balanced Item.red (branch gf.side ⟨gf.item.addr, .red⟩ x y) (n + 1) ∧
      addrs (plug c (branch gf.side ⟨gf.item.addr, .red⟩ x y)) =
        addrs (plug (f :: gf :: c) (branch d i s o)) ∧
      t'.valueOfNode = t.valueOfNode ∧
      insertFixupLoop (fuel + 1) t i.addr f.item.addr =
        if rbGetParent t' gf.item.addr = 0 then .ok (rbSetColor t' t'.root .black)
        else insertFixupLoop fuel t' gf.item.addr (rbGetParent t' gf.item.addr) := by
  have hp : Linked t (plug (gf :: c) (branch f.side f.item (branch d i s o) f.other)) := h
  have hg : Linked t (plug c (branch gf.side gf.item
    (branch f.side f.item (branch d i s o) f.other) gf.other)) := hp
  have hgp : rbGetParent t f.item.addr = gf.item.addr := hp.getParent
  obtain ⟨hu0, hured⟩ := hg.other.red_iff.2 hu
  have huncle : ¬ (links.ptr gf.other = 0 ∨ rbGetColor t (links.ptr gf.other) = .black) := by
    simp [hu0, hured]
  obtain ⟨v, ul, ur, hgo⟩ : ∃ v ul ur, gf.other = .node v ul ur := by
    cases hgo : gf.other with
    | nil => simp [hgo] at hu
    | node v ul ur => exact ⟨v, ul, ur, rfl⟩
  have hv : v.color = .red := by simpa [hgo, rootRed] using hu
  rw [hgo] at hub
  have hshape : plug (f :: gf :: c) (branch d i s o) = plug c (branch gf.side gf.item
      (branch f.side f.item (branch d i s o) f.other) (.node v ul ur)) := by
    rw [plug, plug, hgo]
  rw [hshape] at h ⊢
  obtain ⟨hlink, hbal, haddrs⟩ := insert_repaint h hv hb hob hub
  refine ⟨_, _, _, hlink, hbal, haddrs, rfl, ?_⟩
  rw [insertFixupLoop, if_neg (by simp [hp.getColor, hcol])]
  simp only [hgp, hg.cell.1, if_false, hp.direction, hg.cell.2.2.1, if_neg huncle]
  rw [hgo, Layout.ptr_node, links_addr]

theorem insertFixupLoop_spec (h : Linked t (plug (f :: c) (branch d i s o)))
    (hi : i.color = .red) (hb : Balanced Item.red (branch d i s o) n)
    (hf : Fits Item.red (f :: c) n) (hfuel : c.length ≤ fuel) :
    ∃ t', insertFixupLoop fuel t i.addr f.item.addr = .ok t' ∧
      Holds t' (addrs (plug (f :: c) (branch d i s o))) ∧ t'.valueOfNode = t.valueOfNode := by
  induction fuel generalizing t f c d i s o n with
  | zero =>
    cases hcol : f.item.color with
    | black =>
      obtain ⟨hok, hholds⟩ := insertFixupLoop_black 0 h hb hf hcol
      exact ⟨t, hok, hholds, rfl⟩
    | red =>
      obtain ⟨-, -, gf, c', rfl, -⟩ := fits_grandparent hf hcol
      simp at hfuel
  | succ fuel ih =>
    cases hcol : f.item.color with
    | black =>
      obtain ⟨hok, hholds⟩ := insertFixupLoop_black (fuel + 1) h hb hf hcol
      exact ⟨t, hok, hholds, rfl⟩
    | red =>
      obtain ⟨ho, hob, gf, c', rfl, hgcol, hub, hc'⟩ := fits_grandparent hf hcol
      cases hu : rootRed Item.red gf.other with
      | false => exact insertFixupLoop_rotate h hcol hi hb ho hob hu hub hc'
      | true =>
        obtain ⟨t', x, y, hlink, hbal, haddrs, hvalue, hstep⟩ :=
          insertFixupLoop_repaint fuel h hcol hb hob hu hub
        have hparent : rbGetParent t' gf.item.addr = links.hole 0 c' := hlink.getParent
        rw [hstep, hparent, ← haddrs, ← hvalue]
        cases c' with
        | nil =>
          have hroot : t'.root = gf.item.addr := hlink.root.trans (by simp [plug])
          have h0 : links.hole 0 ([] : List (Frame Item)) = 0 := rfl
          rw [if_pos h0, hroot]
          refine ⟨_, rfl, ⟨_, hlink.paint .black, ⟨by simp [plug, Item.red], n + 2, ?_⟩,
            addrs_paint _ _ _ _ _ _⟩, rfl⟩
          obtain ⟨-, -, hx, hy⟩ := (balanced_red rfl).1 hbal
          exact (balanced_black_succ rfl).2 ⟨hx, hy⟩
        | cons f' c' =>
          have hf0 : links.hole 0 (f' :: c') ≠ 0 := (Layout.rep_plug.1 hlink.rep).1.1
          rw [if_neg hf0]
          exact ih hlink rfl hbal hc' (by simp only [List.length_cons] at hfuel; omega)

end Loop

section Descent

def Sorted (v : ℕ → ℕ) (xs : List ℕ) : Prop := xs.Pairwise fun x y => v x ≤ v y

def lastSide : List (Frame Item) → Side
  | [] => .left
  | f :: _ => f.side

theorem insertDescend_spec (key : ℕ) (hrep : links.Rep t.nodes (links.hole 0 c) s)
    (hsorted : Sorted t.valueOfNode (addrs (plug c s)))
    (hbefore : ∀ x ∈ (before c).map Item.addr, t.valueOfNode x ≤ key)
    (hafter : ∀ x ∈ (after c).map Item.addr, key < t.valueOfNode x)
    (hfuel : (inorder s).length ≤ fuel) :
    ∃ c', plug c' .nil = plug c s ∧
      insertDescend t key fuel (links.hole 0 c) (links.ptr s) (lastSide c) =
        .ok (links.hole 0 c', lastSide c') ∧
      (∀ x ∈ (before c').map Item.addr, t.valueOfNode x ≤ key) ∧
      ∀ x ∈ (after c').map Item.addr, key < t.valueOfNode x := by
  induction s generalizing c fuel with
  | nil => exact ⟨c, rfl, by cases fuel <;> simp [insertDescend], hbefore, hafter⟩
  | node a l r ihl ihr =>
    obtain ⟨ha0, hl, hr, -, hlr, hrr⟩ := hrep
    obtain ⟨fuel, rfl⟩ : ∃ m, fuel = m + 1 := ⟨fuel - 1, by simp at hfuel; omega⟩
    simp only [inorder_node, List.length_append, List.length_cons] at hfuel
    have hs := hsorted
    rw [Sorted, addrs_plug] at hs
    simp only [addrs, inorder_node, List.map_append, List.map_cons, List.pairwise_append,
      List.pairwise_cons, List.mem_append, List.mem_cons] at hs
    obtain ⟨⟨-, ⟨-, ⟨har, -⟩, hla⟩, -⟩, -⟩ := hs
    rw [Layout.ptr_node, insertDescend, if_neg ha0]
    by_cases hkey : key < t.valueOfNode a.addr
    · have hafter' : ∀ x ∈ (after (⟨.left, a, r⟩ :: c)).map Item.addr, key < t.valueOfNode x := by
        intro x hx
        simp only [after, Frame.after, List.cons_append, List.map_cons, List.map_append,
          List.mem_cons, List.mem_append] at hx
        rcases hx with rfl | hx | hx
        · exact hkey
        · exact hkey.trans_le (har x hx)
        · exact hafter x hx
      have hfuel' : (inorder l).length ≤ fuel := by omega
      obtain ⟨c', hplug, hok, hb, ha⟩ := ihl (c := ⟨.left, a, r⟩ :: c) hlr hsorted
        (by simpa [before, Frame.before] using hbefore) hafter' hfuel'
      refine ⟨c', hplug, ?_, hb, ha⟩
      rw [← hok, ← hl]
      simp only [links_addr, hkey, if_true]
      rfl
    · have hbefore' : ∀ x ∈ (before (⟨.right, a, l⟩ :: c)).map Item.addr,
          t.valueOfNode x ≤ key := by
        intro x hx
        simp only [before, Frame.before, List.map_append, List.map_cons, List.map_nil,
          List.mem_append, List.mem_singleton] at hx
        rcases hx with hx | hx | rfl
        · exact hbefore x hx
        · exact (hla x hx a.addr (.inl rfl)).trans (not_lt.1 hkey)
        · exact not_lt.1 hkey
      have hfuel' : (inorder r).length ≤ fuel := by omega
      obtain ⟨c', hplug, hok, hb, ha⟩ := ihr (c := ⟨.right, a, l⟩ :: c) hrr hsorted hbefore'
        (by simpa [after, Frame.after] using hafter) hfuel'
      refine ⟨c', hplug, ?_, hb, ha⟩
      rw [← hok, ← hr]
      simp only [links_addr, hkey, if_false]
      rfl

theorem hang_red {x : ℕ} (h : Linked t (plug c .nil)) (hx : x ∉ addrs (plug c .nil)) (hx0 : x ≠ 0)
    (heven : x % 2 = 0) (hnode : t.nodes x = ⟨0, 0, 0⟩) :
    Linked (if links.hole 0 c = 0 then { t with root := x }
        else (rbSetParent t x (links.hole 0 c)).setChild (links.hole 0 c) (lastSide c) x)
      (plug c (branch .left ⟨x, .red⟩ .nil .nil)) := by
  have hperm : (addrs (plug c (branch .left (⟨x, .red⟩ : Item) .nil .nil))).Perm
      (x :: addrs (plug c .nil)) :=
    (focus_perm c .left ⟨x, .red⟩ .nil .nil).trans ((addrs_plug_perm c .nil).symm.cons x)
  have hnd : (x :: addrs (plug c .nil)).Nodup := List.nodup_cons.2 ⟨hx, h.nodup⟩
  have heven' : ∀ y ∈ addrs (plug c (branch .left (⟨x, .red⟩ : Item) .nil .nil)), y % 2 = 0 := by
    intro y hy
    rcases List.mem_cons.1 (hperm.mem_iff.1 hy) with rfl | hy
    · exact heven
    · exact h.even y hy
  have hc := (Layout.rep_plug.1 h.rep).1
  cases c with
  | nil =>
    refine ⟨rfl, ⟨hx0, ?_, ?_, ?_, trivial, trivial⟩, hperm.nodup_iff.2 hnd, heven'⟩ <;>
      simp [Layout.hole, hnode, Node.child, colorBit]
  | cons f c =>
    have hf0 : links.hole 0 (f :: c) ≠ 0 := hc.1
    have hxc : x ∉ (around (f :: c)).map Item.addr := fun hmem =>
      hx ((addrs_plug_perm _ _).mem_iff.2 (List.mem_append_right _ hmem))
    have hxf : x ≠ f.item.addr := fun heq => hxc (by simp [around, heq])
    have hndc := (List.nodup_append.1 ((addrs_plug_perm (f :: c) .nil).nodup_iff.1 h.nodup)).2.1
    rw [if_neg hf0]
    refine ⟨h.root.trans (Layout.ptr_plug_cons f c _ _), Layout.rep_plug.2 ⟨?_, hx0, ?_, ?_, ?_,
      trivial, trivial⟩, hperm.nodup_iff.2 hnd, heven'⟩
    · refine context_refill hc hndc (fun z hz hzf => ?_) fun f' c' hcons => ?_
      · have hzx : z ≠ x := ne_of_mem_of_not_mem hz hxc
        have hzf' : z ≠ f.item.addr := hzf
        simp [Tree.setChild, rbSetParent, Tree.setNode, Layout.hole, hzx, hzf']
      · obtain ⟨rfl, rfl⟩ := List.cons.inj hcons
        simp [Tree.setChild, rbSetParent, Tree.setNode, Layout.hole, lastSide, Ne.symm hxf]
    all_goals
      simp [Tree.setChild, rbSetParent, Tree.setNode, Layout.hole, hxf, hnode, Node.child, colorBit]

/-- The sequence with `x` right after all nodes of at most its key. -/
def insertSeq (v : ℕ → ℕ) (x : ℕ) (xs : List ℕ) : List ℕ :=
  xs.takeWhile (fun y => v y ≤ v x) ++ x :: xs.dropWhile (fun y => v y ≤ v x)

theorem insertSeq_append {x : ℕ} (hy : ∀ y ∈ ys, v y ≤ v x) (hz : ∀ z ∈ zs, v x < v z) :
    insertSeq v x (ys ++ zs) = ys ++ x :: zs := by
  have hzs : zs.takeWhile (fun y => decide (v y ≤ v x)) = [] ∧
      zs.dropWhile (fun y => decide (v y ≤ v x)) = zs := by
    cases zs with
    | nil => simp
    | cons z zs =>
      have hz' := hz z (by simp)
      simp [hz']
  rw [insertSeq, List.takeWhile_append_of_pos (by simpa using hy),
    List.dropWhile_append_of_pos (by simpa using hy), hzs.1, hzs.2, List.append_nil]

theorem rbtreeInsertFixup_spec {x : ℕ} (h : Linked t (plug c (branch .left ⟨x, .red⟩ .nil .nil)))
    (hc : Fits Item.red c 0) (hfuel : c.length ≤ fuel) :
    ∃ t', rbtreeInsertFixup fuel t x (links.hole 0 c) = .ok t' ∧
      Holds t' (addrs (plug c (branch .left ⟨x, .red⟩ .nil .nil))) ∧
      t'.valueOfNode = t.valueOfNode := by
  have hred : Linked (rbSetColor t x .red) (plug c (branch .left ⟨x, .red⟩ .nil .nil)) :=
    h.paint .red
  cases c with
  | nil =>
    have hroot : Linked { rbSetColor t x .red with root := x }
        (plug [] (branch .left ⟨x, .red⟩ .nil .nil)) := ⟨rfl, hred.rep, hred.nodup, hred.even⟩
    refine ⟨_, rfl, ⟨_, hroot.paint .black, ⟨rfl, 1, ?_⟩, addrs_paint _ _ _ _ _ _⟩, rfl⟩
    exact (balanced_black_succ rfl).2 ⟨rfl, rfl⟩
  | cons f c =>
    have hf0 : links.hole 0 (f :: c) ≠ 0 := (Layout.rep_plug.1 h.rep).1.1
    have hleaf : Balanced Item.red (branch .left ⟨x, .red⟩ .nil .nil) 0 :=
      (balanced_red rfl).2 ⟨rfl, rfl, rfl, rfl⟩
    rw [rbtreeInsertFixup, if_neg hf0]
    exact insertFixupLoop_spec hred rfl hleaf hc ((Nat.le_succ _).trans hfuel)

theorem rbtreeInsert_spec {x : ℕ} (h : Holds t xs) (hsorted : Sorted t.valueOfNode xs) (hx : x ∉ xs)
    (hx0 : x ≠ 0) (heven : x % 2 = 0) (hfuel : xs.length ≤ fuel) :
    ∃ t', rbtreeInsert fuel t x = .ok t' ∧ Holds t' (insertSeq t.valueOfNode x xs) ∧
      t'.valueOfNode = t.valueOfNode := by
  obtain ⟨s, hlink, hvalid, rfl⟩ := h
  have hlen : (inorder s).length ≤ fuel := by simpa [addrs] using hfuel
  obtain ⟨t₀, ht₀⟩ : ∃ t₀, t₀ = t.setNode x ⟨0, 0, 0⟩ := ⟨_, rfl⟩
  have hlink₀ : Linked t₀ s := ht₀ ▸ hlink.setNode hx
  have hvalue : t₀.valueOfNode = t.valueOfNode := by rw [ht₀]; rfl
  have hnode : t₀.nodes x = ⟨0, 0, 0⟩ := by simp [ht₀, Tree.setNode]
  obtain ⟨c, hplug, hdesc, hbefore, hafter⟩ := insertDescend_spec (c := []) (s := s)
    (t.valueOfNode x) hlink₀.rep (hvalue ▸ hsorted) (by simp [before]) (by simp [after]) hlen
  rw [hvalue] at hbefore hafter
  obtain rfl : s = plug c .nil := hplug.symm
  have hang := hang_red hlink₀ hx hx0 heven hnode
  have hseq : insertSeq t.valueOfNode x (addrs (plug c .nil)) =
      addrs (plug c (branch .left ⟨x, .red⟩ .nil .nil)) := by
    rw [addrs_plug, addrs_plug]
    simp only [addrs, inorder_nil, List.map_nil, List.append_nil]
    rw [insertSeq_append hbefore hafter]
    simp [branch]
  have hrun : rbtreeInsert fuel t x = rbtreeInsertFixup fuel
      (if links.hole 0 c = 0 then { t₀ with root := x }
        else (rbSetParent t₀ x (links.hole 0 c)).setChild (links.hole 0 c) (lastSide c) x)
      x (links.hole 0 c) := by
    rw [rbtreeInsert, ← ht₀, hvalue, hlink₀.root]
    simp only [show links.hole 0 ([] : List (Frame Item)) = 0 from rfl, lastSide] at hdesc
    rw [hdesc]
    rfl
  obtain ⟨n, hc, hn, -⟩ := hvalid.fits
  obtain rfl : n = 0 := hn
  have hdepth : c.length ≤ fuel := by
    have hperm := (addrs_plug_perm c .nil).length_eq
    have hle := length_le_around c
    simp only [addrs, inorder_nil, List.map_nil, List.nil_append, List.length_map] at hperm hfuel
    omega
  obtain ⟨t', hok, hholds, hv⟩ := rbtreeInsertFixup_spec hang hc hdepth
  refine ⟨t', hrun.trans hok, hseq ▸ hholds, hv.trans ?_⟩
  split
  · exact hvalue
  · exact hvalue

end Descent

end DstructRbtreeInsert
