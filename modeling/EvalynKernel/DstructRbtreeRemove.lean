import EvalynKernel.DstructRbtreeInsert

/-! # Removal from the red-black tree

A node with two children changes places with its successor; a node with at most one
child is unlinked; and where that took a black node off one side, the fixup loop moves
the missing black node upwards until the tree is valid. -/
namespace DstructRbtreeRemove

open MachineWords LinkedTrees RedBlackTrees DstructRbtree DstructRbtreeLinks DstructRbtreeInsert

variable {t : Tree} {c : List (Frame Item)} {d : Side} {n k fuel : ℕ} {p b : Item}
  {s u v : BinaryTree Item}

/-- The subtree under `p` has black height `k` where its children have `n`. -/
structure Under (c : List (Frame Item)) (p : Item) (n k : ℕ) : Prop where
  fits : Fits Item.red c k
  red : p.color = .red → parentRed Item.red c = false ∧ k = n
  black : p.color = .black → k = n + 1

variable {f : Frame Item}

theorem fits_under (hf : Fits Item.red (f :: c) n) :
    Balanced Item.red f.other n ∧ (f.item.color = .red → rootRed Item.red f.other = false) ∧
      ∃ k, Under c f.item n k := by
  cases hcol : f.item.color with
  | red =>
    simp only [Fits, red_eq_true.2 hcol, if_true] at hf
    exact ⟨hf.2.1, fun _ => hf.1, n, hf.2.2.2, fun _ => ⟨hf.2.2.1, rfl⟩,
      fun h => by simp [hcol] at h⟩
  | black =>
    simp only [Fits, red_eq_false.2 hcol] at hf
    exact ⟨hf.1, by simp, n + 1, hf.2, fun h => by simp [hcol] at h, fun _ => rfl⟩

/-- A node of the colour of `p` over two black-rooted subtrees may take its place. -/
theorem Under.valid (hu : Under c p n k) (hx : Balanced Item.red u n)
    (hx' : rootRed Item.red u = false) (hy : Balanced Item.red v n)
    (hy' : rootRed Item.red v = false) : Valid Item.red (plug c (branch d ⟨a, p.color⟩ u v)) := by
  cases hcol : p.color with
  | red =>
    obtain ⟨hpar, rfl⟩ := hu.red hcol
    exact hu.fits.valid ((balanced_red rfl).2 ⟨hx', hy', hx, hy⟩) (.inr hpar)
  | black =>
    obtain rfl := hu.black hcol
    exact hu.fits.valid ((balanced_black_succ rfl).2 ⟨hx, hy⟩) (.inl (by simp [Item.red]))

theorem exists_red (h : rootRed Item.red x = true) (hb : Balanced Item.red x n) (e : Side) :
    ∃ w l r, x = branch e w l r ∧ rootRed Item.red l = false ∧ rootRed Item.red r = false ∧
      Balanced Item.red l n ∧ Balanced Item.red r n := by
  obtain ⟨w, l, r, rfl⟩ : ∃ w l r, x = branch e w l r := by
    cases x with
    | nil => simp at h
    | node w l r =>
      obtain ⟨y, z, hyz⟩ := exists_branch .left e w l r
      exact ⟨w, y, z, hyz⟩
  rw [rootRed_branch] at h
  exact ⟨w, l, r, rfl, (balanced_red h).1 hb⟩

/-- What the cases on the nephews leave: a valid tree, or the missing black node above a
black parent. -/
structure Nephews (t : Tree) (c : List (Frame Item)) (d : Side) (n : ℕ) (p : Item)
    (s : BinaryTree Item) (xs : List ℕ) (done : Bool) (t' : Tree) : Prop where
  value : t'.valueOfNode = t.valueOfNode
  holds : done = true → Holds t' xs
  climb : done = false → p.color = .black ∧ ∃ o, Linked t' (plug c (branch d p s o)) ∧
    Balanced Item.red (branch d p s o) (n + 1) ∧ addrs (plug c (branch d p s o)) = xs

section Nephews

variable (h : Linked t (plug c (branch d p s (branch d b u v))))
  (hsb : Balanced Item.red s n) (hub : Balanced Item.red u n) (hvb : Balanced Item.red v n)
  (hunder : Under c p (n + 1) k)

include h hsb hub hvb hunder

/-- Case 6: a red distant nephew. -/
theorem fixupNephews_distant (hv : rootRed Item.red v = true) :
    ∃ t', fixupNephews t p.addr b.addr d = (true, t') ∧
      Holds t' (addrs (plug c (branch d p s (branch d b u v)))) ∧
      t'.valueOfNode = t.valueOfNode := by
  obtain ⟨hv0, hvred⟩ := h.other.other.red_iff.2 hv
  obtain ⟨w, vl, vr, rfl, -, -, hvl, hvr⟩ := exists_red hv hvb .left
  have hrot : Linked (rbtreeRotateSubtree t p.addr d)
      (plug c (branch d b (branch d.flip p u s) (branch .left w vl vr))) := by
    apply Linked.rotate
    rwa [branch_flip]
  have hp : Linked (rbtreeRotateSubtree t p.addr d)
      (plug (⟨d, b, branch .left w vl vr⟩ :: c) (branch d.flip p u s)) := hrot
  have h₁ := (hrot.paint p.color).other.paint .black
  rw [plug_other] at h₁
  have h₂ : Linked _ (plug (⟨d, ⟨b.addr, p.color⟩, branch .left ⟨w.addr, .black⟩ vl vr⟩ :: c)
    (branch d.flip p u s)) := h₁
  have hvalid : Valid Item.red (plug c (branch d ⟨b.addr, p.color⟩
      (branch d.flip ⟨p.addr, .black⟩ u s) (branch .left ⟨w.addr, .black⟩ vl vr))) :=
    hunder.valid ((balanced_black_succ rfl).2 ⟨hub, hsb⟩) (by simp [Item.red])
      ((balanced_black_succ rfl).2 ⟨hvl, hvr⟩) (by simp [Item.red])
  refine ⟨_, ?_, ⟨_, h₂.paint .black, hvalid, ?_⟩, ?_⟩
  · rw [fixupNephews]
    simp only [h.other.cell.2.2.1, hv0, hvred, ne_eq, not_false_eq_true, and_self, if_true,
      hp.getColor]
    rfl
  · rw [plug, addrs_plug, addrs_plug]
    cases d <;> simp [addrs, branch, Side.flip]
  · simp

/-- Case 5: a red close nephew beside a black distant one. -/
theorem fixupNephews_close (hb : b.color = .black) (hv : rootRed Item.red v = false)
    (hu : rootRed Item.red u = true) :
    ∃ t', fixupNephews t p.addr b.addr d = (true, t') ∧
      Holds t' (addrs (plug c (branch d p s (branch d b u v)))) ∧
      t'.valueOfNode = t.valueOfNode := by
  have hclose : Linked t (plug (⟨d, b, v⟩ :: ⟨d.flip, p, s⟩ :: c) u) := h.other
  have hv' := (not_congr h.other.other.red_iff).2 (by simp [hv])
  have hu' := hclose.red_iff.2 hu
  obtain ⟨w, ul, ur, rfl, -, -, hul, hur⟩ := exists_red hu hub d.flip
  have hrot₁ : Linked (rbtreeRotateSubtree t b.addr d.flip)
      (plug (⟨d.flip, p, s⟩ :: c) (branch d.flip w (branch d.flip.flip b ul v) ur)) := by
    apply Linked.rotate
    rw [Side.flip_flip]
    exact h.other
  have hrot₂ : Linked (rbtreeRotateSubtree (rbtreeRotateSubtree t b.addr d.flip) p.addr d)
      (plug c (branch d w (branch d.flip p ur s) (branch d b ul v))) := by
    apply Linked.rotate
    rw [plug, Side.flip_flip, branch_flip d w] at hrot₁
    exact hrot₁
  have hp : Linked (rbtreeRotateSubtree (rbtreeRotateSubtree t b.addr d.flip) p.addr d)
      (plug (⟨d, w, branch d b ul v⟩ :: c) (branch d.flip p ur s)) := hrot₂
  have h₁ : Linked _ (plug (⟨d, ⟨w.addr, p.color⟩, branch d b ul v⟩ :: c)
    (branch d.flip p ur s)) := hrot₂.paint p.color
  have hvalid : Valid Item.red (plug c (branch d ⟨w.addr, p.color⟩
      (branch d.flip ⟨p.addr, .black⟩ ur s) (branch d b ul v))) :=
    hunder.valid ((balanced_black_succ rfl).2 ⟨hur, hsb⟩) (by simp [Item.red])
      ((balanced_black_succ (red_eq_false.2 hb)).2 ⟨hul, hvb⟩) (by simpa using hb)
  refine ⟨_, ?_, ⟨_, h₁.paint .black, hvalid, ?_⟩, ?_⟩
  · rw [fixupNephews]
    simp only [h.other.cell.2.1, h.other.cell.2.2.1]
    rw [if_neg hv', if_pos hu', hp.getColor]
    simp only [Layout.ptr_branch, links_addr]
  · rw [plug, addrs_plug, addrs_plug]
    cases d <;> simp [addrs, branch, Side.flip]
  · simp

/-- Case 4: no red nephew. Under a red parent this ends the loop; under a black one the
missing black node moves up. -/
theorem fixupNephews_repaint (hv : rootRed Item.red v = false) (hu : rootRed Item.red u = false) :
    ∃ done t', fixupNephews t p.addr b.addr d = (done, t') ∧
      Nephews t c d n p s (addrs (plug c (branch d p s (branch d b u v)))) done t' := by
  have hclose : Linked t (plug (⟨d, b, v⟩ :: ⟨d.flip, p, s⟩ :: c) u) := h.other
  have hv' := (not_congr h.other.other.red_iff).2 (by simp [hv])
  have hu' := (not_congr hclose.red_iff).2 (by simp [hu])
  have h₁ := h.other.paint .red
  rw [plug_other] at h₁
  have hsib : Balanced Item.red (branch d (⟨b.addr, .red⟩ : Item) u v) n :=
    (balanced_red rfl).2 ⟨hu, hv, hub, hvb⟩
  have haddrs : addrs (plug c (branch d p s (branch d ⟨b.addr, .red⟩ u v))) =
      addrs (plug c (branch d p s (branch d b u v))) := by
    rw [addrs_plug, addrs_plug]
    cases d <;> simp [addrs, branch]
  have hrun : fixupNephews t p.addr b.addr d =
      if p.color = .red then (true, rbSetColor (rbSetColor t b.addr .red) p.addr .black)
      else (false, rbSetColor t b.addr .red) := by
    rw [fixupNephews]
    simp only [h.other.cell.2.1, h.other.cell.2.2.1]
    rw [if_neg hv', if_neg hu', h₁.getColor]
  rw [hrun]
  cases hcol : p.color with
  | red =>
    obtain ⟨-, rfl⟩ := hunder.red hcol
    refine ⟨true, _, if_pos rfl, rfl, fun _ => ⟨_, h₁.paint .black, ?_, ?_⟩, by simp⟩
    · exact hunder.fits.valid ((balanced_black_succ rfl).2 ⟨hsb, hsib⟩) (.inl (by simp [Item.red]))
    · rw [addrs_paint, haddrs]
  | black =>
    exact ⟨false, _, if_neg (by simp), rfl, by simp, fun _ => ⟨hcol, _, h₁,
      (balanced_black_succ (red_eq_false.2 hcol)).2 ⟨hsb, hsib⟩, haddrs⟩⟩

theorem fixupNephews_spec (hb : b.color = .black) :
    ∃ done t', fixupNephews t p.addr b.addr d = (done, t') ∧
      Nephews t c d n p s (addrs (plug c (branch d p s (branch d b u v)))) done t' := by
  cases hv : rootRed Item.red v with
  | true =>
    obtain ⟨t', hok, hholds, hvalue⟩ := fixupNephews_distant h hsb hub hvb hunder hv
    exact ⟨true, t', hok, hvalue, fun _ => hholds, by simp⟩
  | false =>
    cases hu : rootRed Item.red u with
    | true =>
      obtain ⟨t', hok, hholds, hvalue⟩ := fixupNephews_close h hsb hub hvb hunder hb hv hu
      exact ⟨true, t', hok, hvalue, fun _ => hholds, by simp⟩
    | false => exact fixupNephews_repaint h hsb hub hvb hunder hv hu

end Nephews

/-- A sibling exists, and case 3 leaves a black one. -/
theorem blackenSibling_spec (h : Linked t (plug (f :: c) s)) (hf : Fits Item.red (f :: c) (n + 1)) :
    ∃ t' c' p k b u v, blackenSibling t f.item.addr f.side = .ok (b.addr, t') ∧
      p.addr = f.item.addr ∧ Linked t' (plug c' (branch f.side p s (branch f.side b u v))) ∧
      b.color = .black ∧ Balanced Item.red u n ∧ Balanced Item.red v n ∧ Under c' p (n + 1) k ∧
      addrs (plug c' (branch f.side p s (branch f.side b u v))) = addrs (plug (f :: c) s) ∧
      t'.valueOfNode = t.valueOfNode ∧ (p.color = .black → p = f.item ∧ c' = c) := by
  obtain ⟨d, p, o⟩ := f
  obtain ⟨hob, hop, k, hunder⟩ := fits_under hf
  obtain ⟨b, u, v, rfl⟩ := hob.exists_branch d
  have hp : Linked t (plug c (branch d p s (branch d b u v))) := h
  have hb0 : b.addr ≠ 0 := hp.other.cell.1
  have hsib : t.child p.addr d.flip = b.addr := hp.cell.2.2.1.trans (by simp)
  cases hcol : b.color with
  | black =>
    obtain ⟨hu, hv⟩ := (balanced_black_succ (red_eq_false.2 hcol)).1 hob
    refine ⟨t, c, p, k, b, u, v, ?_, rfl, hp, hcol, hu, hv, hunder, rfl, rfl, fun _ => ⟨rfl, rfl⟩⟩
    simp [blackenSibling, hsib, hb0, hp.other.getColor, hcol, pure, Except.pure]
  | red =>
    have hpcol : p.color = .black := by
      cases hpcol : p.color with
      | black => rfl
      | red =>
        have hbo := hop hpcol
        rw [rootRed_branch, red_eq_false, hcol] at hbo
        cases hbo
    obtain rfl := hunder.black hpcol
    obtain ⟨hu, hv, hub, hvb⟩ := (balanced_red (red_eq_true.2 hcol)).1 hob
    obtain ⟨b', u', v', rfl⟩ := hub.exists_branch d
    rw [rootRed_branch] at hu
    obtain ⟨hu', hv'⟩ := (balanced_black_succ hu).1 hub
    have h₁ := (hp.paint .red).other.paint .black
    rw [plug_other] at h₁
    have hnephew : (rbSetColor (rbSetColor t p.addr .red) b.addr .black).child b.addr d = b'.addr :=
      h₁.other.cell.2.1.trans (by simp)
    have hb'0 : b'.addr ≠ 0 :=
      Linked.cell (c := ⟨d, ⟨b.addr, .black⟩, v⟩ :: ⟨d.flip, ⟨p.addr, .red⟩, s⟩ :: c) h₁.other |>.1
    have h₂ : Linked (rbtreeRotateSubtree (rbSetColor (rbSetColor t p.addr .red) b.addr .black)
        p.addr d) (plug (⟨d, ⟨b.addr, .black⟩, v⟩ :: c)
          (branch d ⟨p.addr, .red⟩ s (branch d b' u' v'))) := by
      rw [← branch_flip, plug]
      apply Linked.rotate (a := ⟨p.addr, .red⟩)
      rw [branch_flip]
      exact h₁
    have hunder' : Under (⟨d, ⟨b.addr, .black⟩, v⟩ :: c) ⟨p.addr, .red⟩ (n + 1) (n + 1) := by
      refine ⟨?_, fun _ => ⟨rfl, rfl⟩, fun hblack => by cases hblack⟩
      simp only [Fits, Item.red]
      exact ⟨hvb, hunder.fits⟩
    refine ⟨_, _, ⟨p.addr, .red⟩, n + 1, b', u', v', ?_, rfl, h₂, red_eq_false.1 hu, hu', hv',
      hunder', ?_, rotate_value _ _ _, fun hblack => by cases hblack⟩
    · simp [blackenSibling, hsib, hb0, hp.other.getColor, hcol, hnephew, hb'0, pure, Except.pure]
    · simp only [plug, addrs_plug]
      cases d <;> simp [addrs, branch]

/-- One round of the loop: it returns, or the missing black node is now above the parent. -/
theorem removeFixupLoop_step (fuel : ℕ) (h : Linked t (plug (f :: c) s))
    (hb : Balanced Item.red s n) (hf : Fits Item.red (f :: c) (n + 1)) :
    (∃ t', removeFixupLoop fuel t f.item.addr f.side = .ok t' ∧
      Holds t' (addrs (plug (f :: c) s)) ∧ t'.valueOfNode = t.valueOfNode) ∨
    ∃ t' o, f.item.color = .black ∧ Linked t' (plug c (branch f.side f.item s o)) ∧
      Balanced Item.red (branch f.side f.item s o) (n + 1) ∧
      addrs (plug c (branch f.side f.item s o)) = addrs (plug (f :: c) s) ∧
      t'.valueOfNode = t.valueOfNode ∧
      removeFixupLoop fuel t f.item.addr f.side =
        if rbGetParent t' f.item.addr = 0 then .ok t' else
          match fuel with
          | 0 => .error .fuel
          | fuel + 1 => removeFixupLoop fuel t' (rbGetParent t' f.item.addr)
              (sideOf ((t'.nodes (rbGetParent t' f.item.addr)).right == f.item.addr)) := by
  obtain ⟨t₁, c', p, k, b, u, v, hok, hpaddr, hlink, hbcol, hu, hv, hunder, haddrs, hvalue,
    hsame⟩ := blackenSibling_spec h hf
  obtain ⟨done, t₂, hneph, hres⟩ := fixupNephews_spec hlink hb hu hv hunder hbcol
  rw [hpaddr] at hneph
  rw [removeFixupLoop, hok]
  simp only [bind, Except.bind, hneph]
  cases done with
  | true => exact .inl ⟨t₂, rfl, haddrs ▸ hres.holds rfl, hres.value.trans hvalue⟩
  | false =>
    obtain ⟨hpcol, o, hlink₂, hbal, haddrs₂⟩ := hres.climb rfl
    obtain ⟨rfl, rfl⟩ := hsame hpcol
    exact .inr ⟨t₂, o, hpcol, hlink₂, hbal, haddrs₂.trans haddrs, hres.value.trans hvalue, rfl⟩

theorem removeFixupLoop_spec (h : Linked t (plug (f :: c) s)) (hb : Balanced Item.red s n)
    (hf : Fits Item.red (f :: c) (n + 1)) (hfuel : c.length ≤ fuel) :
    ∃ t', removeFixupLoop fuel t f.item.addr f.side = .ok t' ∧
      Holds t' (addrs (plug (f :: c) s)) ∧ t'.valueOfNode = t.valueOfNode := by
  induction c generalizing t f s n fuel with
  | nil =>
    rcases removeFixupLoop_step fuel h hb hf with hdone |
      ⟨t', o, hcol, hlink, hbal, haddrs, hvalue, hrun⟩
    · exact hdone
    · have hparent : rbGetParent t' f.item.addr = 0 := hlink.getParent
      refine ⟨t', hrun.trans (if_pos hparent), ⟨_, hlink, ⟨?_, n + 1, hbal⟩, haddrs⟩, hvalue⟩
      rw [plug, rootRed_branch, red_eq_false, hcol]
  | cons g c ih =>
    rcases removeFixupLoop_step fuel h hb hf with hdone |
      ⟨t', o, hcol, hlink, hbal, haddrs, hvalue, hrun⟩
    · exact hdone
    · have hparent : rbGetParent t' f.item.addr = g.item.addr := hlink.getParent
      have hg0 : g.item.addr ≠ 0 := (Layout.rep_plug.1 hlink.rep).1.1
      obtain ⟨fuel, rfl⟩ : ∃ m, fuel = m + 1 := ⟨fuel - 1, by simp at hfuel; omega⟩
      have hside : sideOf ((t'.nodes g.item.addr).right == f.item.addr) = g.side := by
        rw [Bool.beq_comm]
        exact hlink.side
      rw [hparent, if_neg hg0, hside] at hrun
      obtain ⟨-, -, k, hunder⟩ := fits_under hf
      obtain rfl := hunder.black hcol
      rw [hrun, ← haddrs, ← hvalue]
      exact ih hlink hbal hunder.fits (by simpa using hfuel)

section Unlink

variable {i : Item} {x : BinaryTree Item}

theorem one_child_perm (c : List (Frame Item)) (d : Side) (i : Item) (x : BinaryTree Item) :
    (addrs (plug c (branch d i x .nil))).Perm (i.addr :: addrs (plug c x)) := by
  refine (focus_perm c d i x .nil).trans (List.Perm.cons _ ?_)
  rw [show addrs (.nil : BinaryTree Item) = [] from rfl, List.append_nil]
  exact (addrs_plug_perm c x).symm

theorem one_child_apart (h : Linked t (plug c (branch d i x .nil))) :
    i.addr ∉ addrs x ∧ i.addr ∉ (around c).map Item.addr ∧ (addrs x).Nodup ∧
      ((around c).map Item.addr).Nodup ∧ ∀ y ∈ addrs x, y ∉ (around c).map Item.addr := by
  have hnd := (one_child_perm c d i x).nodup_iff.1 h.nodup
  rw [List.nodup_cons, (addrs_plug_perm c x).mem_iff, (addrs_plug_perm c x).nodup_iff,
    List.nodup_append, List.mem_append, not_or] at hnd
  exact ⟨hnd.1.1, hnd.1.2, hnd.2.1, hnd.2.2.1, fun y hy hyc => hnd.2.2.2 y hy y hyc rfl⟩

def splice (t : Tree) (parent replacement : ℕ) (side : Side) : Tree :=
  let t := if replacement ≠ 0 then rbSetParent t replacement parent else t
  if parent = 0 then { t with root := replacement } else t.setChild parent side replacement

theorem splice_nodes (side : Side) (hne : replacement ≠ 0 → replacement ≠ parent) (y : ℕ) :
    (splice t parent replacement side).nodes y =
      if y = parent ∧ y ≠ 0 then (t.nodes y).setChild side replacement
      else if y = replacement ∧ y ≠ 0 then
        { t.nodes y with parent := ((t.nodes y).parent &&& 1) ||| parent }
      else t.nodes y := by
  unfold splice
  by_cases hr : replacement = 0 <;> by_cases hp : parent = 0 <;>
    simp only [hr, hp, ne_eq, not_true_eq_false, not_false_eq_true, if_true, if_false,
      Tree.setChild, rbSetParent, Tree.setNode, Function.update_apply]
  all_goals grind

theorem splice_root (parent replacement : ℕ) (side : Side) :
    (splice t parent replacement side).root = if parent = 0 then replacement else t.root := by
  unfold splice Tree.setChild rbSetParent Tree.setNode
  grind

theorem splice_value (parent replacement : ℕ) (side : Side) :
    (splice t parent replacement side).valueOfNode = t.valueOfNode := by
  unfold splice Tree.setChild rbSetParent Tree.setNode
  grind

section

variable (h : Linked t (plug c (branch d i x .nil)))
include h

theorem splice_linked :
    Linked (splice t (links.hole 0 c) (links.ptr x) (lastSide c)) (plug c x) ∧
      (splice t (links.hole 0 c) (links.ptr x) (lastSide c)).nodes i.addr = t.nodes i.addr := by
  obtain ⟨hix, hic, hndx, hndc, hxc'⟩ := one_child_apart h
  have hperm : (addrs (plug c (branch d i x .nil))).Perm (i.addr :: addrs (plug c x)) :=
    one_child_perm c d i x
  obtain ⟨hcr, hir⟩ := Layout.rep_plug.1 h.rep
  obtain ⟨hi0, -, -, -, hxr, -⟩ := Layout.rep_branch.1 hir
  have hP := hole_mem c
  have hX := ptr_zero_or_mem x
  have hXP : links.ptr x ≠ 0 → links.ptr x ≠ links.hole 0 c := fun h0 =>
    ne_of_fresh hP (hxc' _ (hX.resolve_left h0)) h0
  have hnodes := splice_nodes (t := t) (lastSide c) hXP
  have hout : ∀ y, (y = links.hole 0 c → y = 0) → (y = links.ptr x → y = 0) →
      (splice t (links.hole 0 c) (links.ptr x) (lastSide c)).nodes y = t.nodes y := by
    intro y hyP hyX
    rw [hnodes, if_neg fun hy => hy.2 (hyP hy.1), if_neg fun hy => hy.2 (hyX hy.1)]
  refine ⟨⟨?_, Layout.rep_plug.2 ⟨?_, ?_⟩, ?_, ?_⟩, ?_⟩
  · exact (splice_root ..).trans (h.root_refill x)
  · refine context_refill hcr hndc (fun y hy hyP => ?_) fun f c' hc => ?_
    · exact hout y (absurd · hyP) (eq_zero_of_fresh hX fun hyx => hxc' y hyx hy)
    · subst hc
      rw [hnodes, if_pos ⟨rfl, hcr.1⟩]
      rfl
  · refine adopt hxr h.even_self (fun h0 => ?_) (fun y hy hyX => ?_) hndx
    · rw [hnodes, if_neg fun hy => hXP h0 hy.1, if_pos ⟨rfl, h0⟩]
    · exact hout y (eq_zero_of_fresh hP (hxc' y hy)) (absurd · hyX)
  · exact (List.nodup_cons.1 (hperm.nodup_iff.1 h.nodup)).2
  · exact fun y hy => h.even y (hperm.mem_iff.2 (List.mem_cons_of_mem _ hy))
  · exact hout _ (eq_zero_of_fresh hP hic) (eq_zero_of_fresh hX hix)

theorem replacement_eq :
    (if (t.nodes i.addr).left ≠ 0 then (t.nodes i.addr).left else (t.nodes i.addr).right) =
      links.ptr x := by
  obtain ⟨-, hs, ho, -⟩ := h.cell
  cases d with
  | left =>
    have hleft : (t.nodes i.addr).left = links.ptr x := hs
    have hright : (t.nodes i.addr).right = 0 := ho
    rw [hleft, hright]
    by_cases h0 : links.ptr x = 0 <;> simp [h0]
  | right =>
    have hleft : (t.nodes i.addr).left = 0 := ho
    have hright : (t.nodes i.addr).right = links.ptr x := hs
    simp [hleft, hright]

/-- The side is read after the replacement got its new parent, which changes neither the
node nor its parent's links. -/
theorem direction_eq :
    (if links.hole 0 c = 0 then .left else
      rbtreeDirection (if links.ptr x ≠ 0 then rbSetParent t (links.ptr x) (links.hole 0 c) else t)
        i.addr) = lastSide c := by
  cases c with
  | nil => exact if_pos rfl
  | cons f c =>
    have hf0 : links.hole 0 (f :: c) ≠ 0 := (Layout.rep_plug.1 h.rep).1.1
    rw [if_neg hf0]
    obtain ⟨hix, -, -, -, hxc⟩ := one_child_apart h
    have hi0 := h.cell.1
    have hX := ptr_zero_or_mem x
    have hfX : f.item.addr ≠ links.ptr x := ne_of_fresh hX
      (fun hmem => hxc _ hmem (by simp [around])) hf0
    have hiX : i.addr ≠ links.ptr x := ne_of_fresh hX hix hi0
    have hgp : rbGetParent t i.addr = f.item.addr := h.getParent
    have hdir := h.direction
    rw [rbtreeDirection, hgp] at hdir
    split
    · have hgp' : rbGetParent (rbSetParent t (links.ptr x) (links.hole 0 (f :: c))) i.addr =
          f.item.addr := by
        rw [← hgp, rbGetParent, setParent_nodes_ne hiX, rbGetParent]
      rw [rbtreeDirection, hgp', setParent_nodes_ne hfX]
      exact hdir
    · exact h.direction

end

theorem unlink_eq (fuel : ℕ) (h : Linked t (plug c (branch d i x .nil))) :
    unlink fuel t i.addr = (do
      let t' := splice t (links.hole 0 c) (links.ptr x) (lastSide c)
      if i.color = .black then
        if links.ptr x ≠ 0 ∧ rbGetColor t' (links.ptr x) = .red then
          return (links.ptr x, rbSetColor t' (links.ptr x) .black)
        else if links.ptr x ≠ 0 then
          return (links.ptr x, ← rbtreeRemoveFixup fuel t' (links.ptr x) (lastSide c))
        else if links.hole 0 c ≠ 0 then
          return (links.ptr x, ← rbtreeRemoveFixup fuel t' i.addr (lastSide c))
      return (links.ptr x, t')) := by
  have hcol : rbGetColor (splice t (links.hole 0 c) (links.ptr x) (lastSide c)) i.addr =
      i.color := by
    rw [rbGetColor, (splice_linked h).2]
    exact h.getColor
  rw [unlink, h.getParent]
  simp only [replacement_eq h, direction_eq h]
  rw [← hcol]
  rfl

theorem unlink_spec (h : Linked t (plug c (branch d i x .nil)))
    (hvalid : Valid Item.red (plug c (branch d i x .nil))) (hfuel : c.length ≤ fuel) :
    ∃ t', unlink fuel t i.addr = .ok (links.ptr x, t') ∧ Holds t' (addrs (plug c x)) ∧
      t'.valueOfNode = t.valueOfNode := by
  obtain ⟨hlink, hself⟩ := splice_linked h
  have hvalue : (splice t (links.hole 0 c) (links.ptr x) (lastSide c)).valueOfNode =
    t.valueOfNode := splice_value _ _ _
  obtain ⟨n, hc, hn, hpar⟩ := hvalid.fits
  rw [unlink_eq fuel h]
  cases hcol : i.color with
  | red =>
    obtain ⟨hx, -, hxb, -⟩ := (balanced_red (red_eq_true.2 hcol)).1 hn
    exact ⟨_, rfl, ⟨_, hlink, hc.valid hxb (.inl hx), rfl⟩, hvalue⟩
  | black =>
    obtain ⟨m, rfl, hxb, hm⟩ := (balanced_black (red_eq_false.2 hcol)).1 hn
    obtain rfl : m = 0 := hm
    simp only [if_true]
    cases hx : rootRed Item.red x with
    | true =>
      have hxred := hlink.red_iff.2 hx
      obtain ⟨w, l, r, rfl, -, -, hl, hr⟩ := exists_red hx hxb .left
      rw [if_pos hxred]
      refine ⟨_, rfl, ⟨_, hlink.paint .black, hc.valid ((balanced_black_succ rfl).2 ⟨hl, hr⟩)
        (.inl (by simp [Item.red])), addrs_paint _ _ _ _ _ _⟩, hvalue⟩
    | false =>
      obtain rfl : x = .nil := by
        cases x with
        | nil => rfl
        | node w l r =>
          have hw : Balanced Item.red (branch .left w l r) 0 := hxb
          have hwred : w.red = false := hx
          obtain ⟨m, hm, -⟩ := (balanced_black hwred).1 hw
          omega
      simp only [Layout.ptr_nil, ne_eq, not_true_eq_false, false_and, if_false]
      cases c with
      | nil => exact ⟨_, rfl, ⟨_, hlink, ⟨rfl, 0, rfl⟩, rfl⟩, hvalue⟩
      | cons f c =>
        have hf0 : links.hole 0 (f :: c) ≠ 0 := (Layout.rep_plug.1 h.rep).1.1
        have hgp : rbGetParent (splice t (links.hole 0 (f :: c)) 0 (lastSide (f :: c))) i.addr =
            f.item.addr := by
          rw [rbGetParent, show (splice t (links.hole 0 (f :: c)) 0 (lastSide (f :: c))).nodes
            i.addr = t.nodes i.addr from hself]
          exact h.getParent
        have hnil : Balanced Item.red (.nil : BinaryTree Item) 0 := rfl
        obtain ⟨t', hok, hholds, hv⟩ := removeFixupLoop_spec hlink hnil hc
          ((Nat.le_succ _).trans hfuel)
        refine ⟨t', ?_, hholds, hv.trans hvalue⟩
        have hf0' : f.item.addr ≠ 0 := hf0
        rw [if_pos hf0, rbtreeRemoveFixup, hgp, if_neg hf0']
        exact congrArg (fun r : Exec Tree => r >>= fun t' => pure (0, t')) hok

end Unlink

end DstructRbtreeRemove
