import EvalynKernel.DstructRbtreeLinks

/-! # Exchanging a node with its successor

The writes by which `rbtree_remove` lets a node with two children and the leftmost node
of its right subtree change places. -/
namespace DstructRbtreeSwap

open Function LinkedTrees DstructRbtree DstructRbtreeLinks

section Writes

variable {t : Tree} {node succ p l r q : ℕ}

section

variable (hp : rbGetParent t node = p)
include hp

theorem getParent_of_node (hu : u.nodes node = t.nodes node) : rbGetParent u node = p := by
  rw [rbGetParent, hu]
  exact hp

theorem succTakePlace_nodes (hl : (t.nodes node).left = l) (hns : node ≠ succ) (hnl : node ≠ l)
    (hsl : succ ≠ l) (hsp : succ ≠ p) (hlp : l ≠ p) (y : ℕ) :
    (succTakePlace t node succ).nodes y =
      if y = succ then
        { t.nodes succ with left := l, parent := ((t.nodes succ).parent &&& 1) ||| p }
      else if y = l then { t.nodes l with parent := ((t.nodes l).parent &&& 1) ||| succ }
      else if y = p ∧ p ≠ 0 then
        (t.nodes p).setChild (sideOf (node == (t.nodes p).right)) succ
      else t.nodes y := by
  unfold succTakePlace
  simp only [hl]
  rw [getParent_of_node hp (by simp [Tree.setChild, rbSetParent, Tree.setNode, hns, hnl,
    Node.setChild])]
  by_cases hp0 : p = 0 <;>
    simp only [hp0, if_true, if_false, ne_eq, not_true_eq_false, not_false_eq_true, and_false,
      and_true, Tree.setChild, rbSetParent, Tree.setNode, update_apply, hsl, hsl.symm,
      hsp.symm, hlp.symm, Node.setChild]
  all_goals grind

theorem succTakePlace_root (hl : (t.nodes node).left = l) (hns : node ≠ succ) (hnl : node ≠ l) :
    (succTakePlace t node succ).root = if p = 0 then succ else t.root := by
  unfold succTakePlace
  simp only [hl]
  rw [getParent_of_node hp (by simp [Tree.setChild, rbSetParent, Tree.setNode, hns, hnl,
    Node.setChild])]
  by_cases hp0 : p = 0 <;> simp [hp0, Tree.setChild, rbSetParent, Tree.setNode]

end

theorem swapRight_adjacent (hns : node ≠ succ) (y : ℕ) :
    (swapRight t node succ node).nodes y =
      if y = succ then { t.nodes succ with right := node }
      else if y = node then { t.nodes node with parent := ((t.nodes node).parent &&& 1) ||| succ }
      else t.nodes y := by
  simp only [swapRight, if_true, Tree.setChild, rbSetParent, Tree.setNode, update_apply,
    Node.setChild]
  grind

theorem swapRight_distant (hr : (t.nodes node).right = r) (hns : node ≠ succ) (hqn : q ≠ node)
    (hqs : q ≠ succ) (hrn : r ≠ node) (hrs : r ≠ succ) (y : ℕ) :
    (swapRight t node succ q).nodes y =
      if y = succ then { t.nodes succ with right := r }
      else if y = node then { t.nodes node with parent := ((t.nodes node).parent &&& 1) ||| q }
      else
        { parent := if y = r then ((t.nodes r).parent &&& 1) ||| succ else (t.nodes y).parent
          left := if y = q then node else (t.nodes y).left
          right := (t.nodes y).right } := by
  simp only [swapRight, if_neg hqn, hr, Tree.setChild, rbSetParent, Tree.setNode,
    update_apply, Node.setChild, if_true, if_neg hns, if_neg hqn.symm, if_neg hqs,
    if_neg hrn.symm, if_neg hrs]
  by_cases hys : y = succ
  · grind
  by_cases hyn : y = node
  · grind
  simp only [hys, hyn, if_false]
  by_cases hyq : y = q
  · grind
  by_cases hyr : y = r
  · grind
  simp only [hyq, hyr, if_false]

theorem swapRight_root (t : Tree) (node succ q : ℕ) : (swapRight t node succ q).root = t.root := by
  unfold swapRight
  split <;> rfl

theorem nodeTakeRight_nodes (hrn : r ≠ node) (y : ℕ) :
    (nodeTakeRight t node r).nodes y =
      if y = node then { t.nodes node with left := 0, right := r }
      else if y = r ∧ r ≠ 0 then { t.nodes r with parent := ((t.nodes r).parent &&& 1) ||| node }
      else t.nodes y := by
  by_cases hr0 : r = 0 <;>
    simp only [nodeTakeRight, hr0, Tree.setChild, rbSetParent, Tree.setNode, update_apply,
      Node.setChild, if_true, ne_eq, not_true_eq_false, not_false_eq_true, and_false, and_true,
      if_false]
  all_goals grind

theorem nodeTakeRight_root (t : Tree) (node r : ℕ) : (nodeTakeRight t node r).root = t.root := by
  unfold nodeTakeRight
  grind [Tree.setChild, Tree.setNode, rbSetParent]

theorem swapColors_nodes {pn ps : ℕ} {cn cs : Color} (hns : node ≠ succ)
    (hn : (t.nodes node).parent = pn ||| colorBit cn)
    (hs : (t.nodes succ).parent = ps ||| colorBit cs)
    (hpn : pn % 2 = 0) (hps : ps % 2 = 0) (y : ℕ) :
    (swapColors t node succ).nodes y =
      if y = node then { t.nodes node with parent := pn ||| colorBit cs }
      else if y = succ then { t.nodes succ with parent := ps ||| colorBit cn }
      else t.nodes y := by
  have hcn : rbGetColor t node = cn := by
    rw [rbGetColor, hn, word_getColor hpn]
    cases cn <;> simp [colorBit]
  have hcs : rbGetColor t succ = cs := by
    rw [rbGetColor, hs, word_getColor hps]
    cases cs <;> simp [colorBit]
  simp only [swapColors, hcn, hcs, rbSetColor, Tree.setNode, update_apply, hns.symm,
    if_false, hn, hs, word_getParent hpn, word_getParent hps]
  grind

/-- The memory after the exchange. The successor hangs under `q`, the node itself if the
successor is its right child, and `top` is the root of the node's right subtree. -/
theorem swapSuccessor_nodes (hn : t.nodes node = ⟨p ||| colorBit cn, l, top⟩)
    (hs : t.nodes succ = ⟨q ||| colorBit cs, 0, r⟩) (hp2 : p % 2 = 0) (hq2 : q % 2 = 0)
    (hs2 : succ % 2 = 0) (hns : node ≠ succ) (hnl : node ≠ l) (hsl : succ ≠ l) (hsp : succ ≠ p)
    (hlp : l ≠ p) (hnp : node ≠ p) (hrn : r ≠ node) (hrs : r ≠ succ) (hrl : r ≠ l)
    (hrp : r ≠ 0 → r ≠ p)
    (hq : q = node ∧ top = succ ∨ q ≠ node ∧ q ≠ succ ∧ q ≠ l ∧ q ≠ p ∧ (r ≠ 0 → q ≠ r) ∧
      top ≠ node ∧ top ≠ succ ∧ top ≠ l ∧ top ≠ p ∧ (r ≠ 0 → top ≠ r)) (y : ℕ) :
    (swapSuccessor t node succ).nodes y =
      if y = succ then ⟨p ||| colorBit cn, l, if q = node then node else top⟩
      else if y = node then ⟨(if q = node then succ else q) ||| colorBit cs, 0, r⟩
      else if y = l then { t.nodes l with parent := ((t.nodes l).parent &&& 1) ||| succ }
      else if y = r ∧ r ≠ 0 then { t.nodes r with parent := ((t.nodes r).parent &&& 1) ||| node }
      else if y = p ∧ p ≠ 0 then
        (t.nodes p).setChild (sideOf (node == (t.nodes p).right)) succ
      else
        { parent := if y = top then ((t.nodes top).parent &&& 1) ||| succ else (t.nodes y).parent
          left := if y = q then node else (t.nodes y).left
          right := (t.nodes y).right } := by
  have hgn : rbGetParent t node = p := by rw [rbGetParent, hn, word_getParent hp2]
  have hgs : rbGetParent t succ = q := by rw [rbGetParent, hs, word_getParent hq2]
  have hgl : (t.nodes node).left = l := by rw [hn]
  have h1 := succTakePlace_nodes hgn hgl hns hnl hsl hsp hlp
  generalize ht1 : succTakePlace t node succ = t1 at h1
  have h1n : t1.nodes node = t.nodes node := by
    rw [h1, if_neg hns, if_neg hnl, if_neg fun h => hnp h.1]
  have h1s : t1.nodes succ = ⟨p ||| colorBit cs, l, r⟩ := by
    rw [h1, if_pos rfl, hs, word_setParent hq2]
  have h2 : ∀ y, (swapRight t1 node succ q).nodes y =
      if y = succ then ⟨p ||| colorBit cs, l, if q = node then node else top⟩
      else if y = node then ⟨(if q = node then succ else q) ||| colorBit cn, l, top⟩
      else
        { parent := if y = top then ((t1.nodes top).parent &&& 1) ||| succ else (t1.nodes y).parent
          left := if y = q then node else (t1.nodes y).left
          right := (t1.nodes y).right } := by
    intro y
    rcases hq with ⟨rfl, rfl⟩ | ⟨hqn, hqs, -, -, -, htn, hts, -⟩
    · rw [swapRight_adjacent hns, h1s, h1n, hn, word_setParent hp2, if_pos rfl, if_pos rfl]
      by_cases hys : y = top
      · rw [if_pos hys, if_pos hys]
      by_cases hyn : y = q
      · rw [if_neg hys, if_neg hys, if_pos hyn, if_pos hyn]
      simp only [hys, hyn, if_false]
    · rw [swapRight_distant (h1n ▸ congrArg Node.right hn) hns hqn hqs htn hts, h1s, h1n, hn,
        word_setParent hp2, if_neg hqn, if_neg hqn]
  generalize ht2 : swapRight t1 node succ q = t2 at h2
  have h3 := nodeTakeRight_nodes (t := t2) hrn
  generalize ht3 : nodeTakeRight t2 node r = t3 at h3
  have h3n : t3.nodes node = ⟨(if q = node then succ else q) ||| colorBit cn, 0, r⟩ := by
    rw [h3, if_pos rfl, h2, if_neg hns, if_pos rfl]
  have h3s : t3.nodes succ = ⟨p ||| colorBit cs, l, if q = node then node else top⟩ := by
    rw [h3, if_neg hns.symm, if_neg fun h => hrs h.1.symm, h2, if_pos rfl]
  have heven : (if q = node then succ else q) % 2 = 0 := by
    split
    · exact hs2
    · exact hq2
  have hfinal : swapSuccessor t node succ = swapColors t3 node succ := by
    rw [swapSuccessor, hgs, hs, ht1, ht2, ht3]
  rw [hfinal, swapColors_nodes hns (congrArg Node.parent h3n) (congrArg Node.parent h3s) heven hp2,
    h3n, h3s]
  by_cases hys : y = succ
  · subst hys
    rw [if_neg hns.symm, if_pos rfl, if_pos rfl]
  by_cases hyn : y = node
  · subst hyn
    rw [if_pos rfl, if_neg hns, if_pos rfl]
  have h2y := h2 y
  rw [if_neg hys, if_neg hyn] at h2y
  rw [if_neg hyn, if_neg hys, if_neg hys, if_neg hyn, h3, if_neg hyn, h2y]
  have h1t : top ≠ succ → (t1.nodes top).parent = (t.nodes top).parent := by
    intro hts
    obtain ⟨-, rfl⟩ | ⟨-, -, -, -, -, -, -, htl, htp, -⟩ := hq
    · exact absurd rfl hts
    · rw [h1, if_neg hts, if_neg htl, if_neg fun h => htp h.1]
  have hapart : y = l ∨ y = r ∧ r ≠ 0 ∨ y = p → y ≠ top ∧ y ≠ q := by
    obtain ⟨rfl, rfl⟩ | ⟨-, -, hql, hqp, hqr, -, -, htl, htp, htr⟩ := hq
    · exact fun _ => ⟨hys, hyn⟩
    · rintro (rfl | ⟨rfl, hr0⟩ | rfl)
      · exact ⟨htl.symm, hql.symm⟩
      · exact ⟨(htr hr0).symm, (hqr hr0).symm⟩
      · exact ⟨htp.symm, hqp.symm⟩
  by_cases hyl : y = l
  · obtain ⟨hyt, hyq⟩ := hapart (.inl hyl)
    rw [if_neg fun h => hrl (h.1.symm.trans hyl), if_neg hyt, if_neg hyq, h1, if_neg hys,
      if_pos hyl, if_pos hyl]
  by_cases hyr : y = r ∧ r ≠ 0
  · obtain ⟨hyt, hyq⟩ := hapart (.inr (.inl hyr))
    obtain ⟨rfl, hr0⟩ := hyr
    rw [if_pos ⟨rfl, hr0⟩, if_neg hyl, if_pos ⟨rfl, hr0⟩, h2y, if_neg hyt, if_neg hyq, h1,
      if_neg hys, if_neg hyl, if_neg fun h => hrp hr0 h.1]
  by_cases hyp : y = p ∧ p ≠ 0
  · obtain ⟨hyt, hyq⟩ := hapart (.inr (.inr hyp.1))
    rw [if_neg hyr, if_neg hyl, if_neg hyr, if_pos hyp, if_neg hyt, if_neg hyq, h1, if_neg hys,
      if_neg hyl, if_pos hyp]
  rw [if_neg hyr, if_neg hyl, if_neg hyr, if_neg hyp, h1 y, if_neg hys, if_neg hyl, if_neg hyp]
  by_cases hyt : y = top
  · rw [if_pos hyt, if_pos hyt, h1t (hyt ▸ hys)]
  · rw [if_neg hyt, if_neg hyt]

end Writes

section Trees

variable {t : Tree} {c e : List (Frame Item)} {i j : Item} {l r : BinaryTree Item}

theorem rep_right {m m' : ℕ → Node} (hctx : links.ContextRep m i.addr e j.addr)
    (he : ∀ f ∈ e, f.side = .left) (hnd : (addrs r ++ (around e).map Item.addr).Nodup)
    (hie : i.addr ∉ (around e).map Item.addr) (hir : i.addr ∉ addrs r) (hi0 : i.addr ≠ 0)
    (hi2 : i.addr % 2 = 0)
    (hi : m' i.addr = ⟨links.hole j.addr e ||| colorBit j.color, 0, links.ptr r⟩)
    (hr : links.Rep m' i.addr r) {top : ℕ} (htop : top = links.ptr (plug e (.node j .nil r)))
    (hm' : ∀ y ∈ (around e).map Item.addr, m' y =
      { parent := if y = top then ((m top).parent &&& 1) ||| j.addr else (m y).parent
        left := if y = links.hole i.addr e then i.addr else (m y).left
        right := (m y).right }) :
    links.Rep m' j.addr (plug e (.node ⟨i.addr, j.color⟩ .nil r)) := by
  obtain ⟨hndr, hnde, hre⟩ := List.nodup_append.1 hnd
  cases e with
  | nil =>
    exact ⟨hi0, by simp [hi, Node.child], by simp [hi, Node.child], by simp [hi, Layout.hole],
      trivial, hr⟩
  | cons f e =>
    have htop' : links.ptr (plug (f :: e) (.node ⟨i.addr, j.color⟩ .nil r)) = top :=
      (Layout.ptr_plug_cons f e _ _).trans htop.symm
    have hmem : top ∈ (around (f :: e)).map Item.addr := htop ▸ Layout.ptr_plug_mem f e _
    let m1 : ℕ → Node := fun y => if y = top then { m' y with parent := (m y).parent } else m' y
    have hm1 : ∀ y, y ≠ top → m1 y = m' y := fun y hy => if_neg hy
    have hm1e : ∀ y ∈ (around (f :: e)).map Item.addr, m1 y =
        { m y with left := if y = f.item.addr then i.addr else (m y).left } := by
      intro y hy
      by_cases hyt : y = top
      · simp only [m1, if_pos hyt, hm' y hy]
        rfl
      · rw [hm1 y hyt, hm' y hy, if_neg hyt]
        rfl
    have hbefore : links.Rep m1 i.addr (plug (f :: e) (.node ⟨i.addr, j.color⟩ .nil r)) := by
      refine Layout.rep_plug.2 ⟨context_refill hctx hnde (fun z hz hne => ?_) ?_, ?_⟩
      · have hne' : z ≠ f.item.addr := hne
        rw [hm1e z hz, if_neg hne']
      · rintro g e' heq
        obtain ⟨rfl, rfl⟩ := List.cons.inj heq
        rw [hm1e _ (by simp [around]), if_pos rfl, he f List.mem_cons_self]
        rfl
      · have hi1 : m1 i.addr = m' i.addr := hm1 _ fun h => hie (h ▸ hmem)
        refine ⟨hi0, by simp [hi1, hi, Node.child], by simp [hi1, hi, Node.child],
          by simp [hi1, hi, Layout.hole], trivial, hr.congr fun y hy => hm1 y ?_⟩
        exact fun hyt => hre y hy top hmem hyt
    refine adopt hbefore hi2 (fun _ => ?_) (fun y _ hy => ?_) ?_
    · rw [htop', hm1e top hmem, hm' top hmem, if_pos rfl]
      rfl
    · exact (hm1 y fun h => hy (h.trans htop'.symm)).symm
    · refine (addrs_plug_perm (f :: e) _).nodup_iff.2 ?_
      simp only [addrs, inorder_node, inorder_nil, List.nil_append, List.map_cons, List.cons_append,
        List.nodup_cons, List.mem_append, not_or]
      exact ⟨⟨hir, hie⟩, hnd⟩

theorem swap_perm (c e : List (Frame Item)) (i j : Item) (l r : BinaryTree Item) :
    (addrs (plug c (.node i l (plug e (.node j .nil r))))).Perm
      (i.addr :: j.addr :: (addrs l ++ ((addrs r ++ (around e).map Item.addr) ++
        (around c).map Item.addr))) := by
  refine (focus_perm c .left i l _).trans (List.Perm.cons _ ?_)
  have hright := addrs_plug_perm e (.node j .nil r)
  refine ((hright.append_left _).append_right _).trans (List.perm_iff_count.2 fun w => ?_)
  simp only [addrs, inorder_node, inorder_nil, List.nil_append, List.map_cons, List.count_append,
    List.count_cons]
  omega

theorem swapSuccessor_root {p l : ℕ} (hp : rbGetParent t node = p) (hl : (t.nodes node).left = l)
    (hns : node ≠ succ) (hnl : node ≠ l) :
    (swapSuccessor t node succ).root = if p = 0 then succ else t.root := by
  have hroot := succTakePlace_root hp hl hns hnl
  rw [← hroot]
  exact (nodeTakeRight_root _ node (t.nodes succ).right).trans
    (swapRight_root _ node succ (rbGetParent t succ))

/-- The parts of a tree around a node and its successor share no address. -/
structure Apart (i j : ℕ) (l r e c : List ℕ) : Prop where
  ne : i ≠ j
  node : i ∉ l ∧ i ∉ r ∧ i ∉ e ∧ i ∉ c
  succ : j ∉ l ∧ j ∉ r ∧ j ∉ e ∧ j ∉ c
  nodup : l.Nodup ∧ r.Nodup ∧ e.Nodup ∧ c.Nodup
  left : ∀ w ∈ l, w ∉ r ∧ w ∉ e ∧ w ∉ c
  right : ∀ w ∈ r, w ∉ e ∧ w ∉ c
  between : ∀ w ∈ e, w ∉ c

section

variable (h : Linked t (plug c (.node i l (plug e (.node j .nil r)))))
include h

theorem apart_of_linked :
    Apart i.addr j.addr (addrs l) (addrs r) ((around e).map Item.addr)
      ((around c).map Item.addr) := by
  have hnd := (swap_perm c e i j l r).nodup_iff.1 h.nodup
  simp only [List.nodup_cons, List.mem_append, List.mem_cons, not_or] at hnd
  obtain ⟨⟨hij, hil, ⟨hir, hie⟩, hic⟩, ⟨hjl, ⟨hjr, hje⟩, hjc⟩, hnd⟩ := hnd
  obtain ⟨hndl, hnd, hlrest⟩ := List.nodup_append.1 hnd
  obtain ⟨hndre, hndc, hrec⟩ := List.nodup_append.1 hnd
  obtain ⟨hndr, hnde, hre⟩ := List.nodup_append.1 hndre
  refine ⟨hij, ⟨hil, hir, hie, hic⟩, ⟨hjl, hjr, hje, hjc⟩, ⟨hndl, hndr, hnde, hndc⟩, ?_, ?_, ?_⟩
  · intro w hw
    refine ⟨fun hw' => ?_, fun hw' => ?_, fun hw' => ?_⟩
    · exact hlrest w hw w (List.mem_append_left _ (List.mem_append_left _ hw')) rfl
    · exact hlrest w hw w (List.mem_append_left _ (List.mem_append_right _ hw')) rfl
    · exact hlrest w hw w (List.mem_append_right _ hw') rfl
  · intro w hw
    exact ⟨fun hw' => hre w hw w hw' rfl,
      fun hw' => hrec w (List.mem_append_left _ hw) w hw' rfl⟩
  · exact fun w hw hw' => hrec w (List.mem_append_right _ hw) w hw' rfl

theorem swapSuccessor_at (hl0 : links.ptr l ≠ 0) (htop : top = links.ptr (plug e (.node j .nil r)))
    (y : ℕ) :
    (swapSuccessor t i.addr j.addr).nodes y =
      if y = j.addr then ⟨links.hole 0 c ||| colorBit i.color, links.ptr l,
        links.ptr (plug e (.node ⟨i.addr, j.color⟩ .nil r))⟩
      else if y = i.addr then ⟨links.hole j.addr e ||| colorBit j.color, 0, links.ptr r⟩
      else if y = links.ptr l then
        { t.nodes (links.ptr l) with
          parent := ((t.nodes (links.ptr l)).parent &&& 1) ||| j.addr }
      else if y = links.ptr r ∧ links.ptr r ≠ 0 then
        { t.nodes (links.ptr r) with
          parent := ((t.nodes (links.ptr r)).parent &&& 1) ||| i.addr }
      else if y = links.hole 0 c ∧ links.hole 0 c ≠ 0 then
        (t.nodes (links.hole 0 c)).setChild
          (sideOf (i.addr == (t.nodes (links.hole 0 c)).right)) j.addr
      else
        { parent := if y = top then ((t.nodes top).parent &&& 1) ||| j.addr else (t.nodes y).parent
          left := if y = links.hole i.addr e then i.addr else (t.nodes y).left
          right := (t.nodes y).right } := by
  subst htop
  have hi : Linked t (plug c (branch .left i l (plug e (.node j .nil r)))) := h
  have hj : Linked t (plug (e ++ ⟨.right, i, l⟩ :: c) (branch .left j .nil r)) := by
    rw [plug_append]
    exact hi.other
  have ha := apart_of_linked h
  obtain ⟨hi0, hichild, hitop, hiw⟩ := hi.cell
  obtain ⟨hj0, hjleft, hjright, hjw⟩ := hj.cell
  rw [Layout.hole_append] at hjw
  have hq2 : links.hole i.addr e % 2 = 0 := by
    have := hj.hole_even
    rwa [Layout.hole_append] at this
  have hin : t.nodes i.addr = ⟨links.hole 0 c ||| colorBit i.color, links.ptr l,
      links.ptr (plug e (.node j .nil r))⟩ := by
    rw [← hiw, ← hichild, ← hitop]
    rfl
  have hjn : t.nodes j.addr = ⟨links.hole i.addr e ||| colorBit j.color, 0, links.ptr r⟩ := by
    rw [← hjright, ← links_addr i, ← hjw]
    exact congrArg (Node.mk _ · _) hjleft
  have hP := hole_mem c
  have hL := (ptr_zero_or_mem l).resolve_left hl0
  have hR := ptr_zero_or_mem r
  have hplace : (links.hole i.addr e = i.addr ∧ links.ptr (plug e (.node j .nil r)) = j.addr) ∨
      links.hole i.addr e ∈ (around e).map Item.addr ∧
        links.ptr (plug e (.node j .nil r)) ∈ (around e).map Item.addr := by
    cases e with
    | nil => exact .inl ⟨rfl, rfl⟩
    | cons f e => exact .inr ⟨by simp [Layout.hole, around], Layout.ptr_plug_mem f e _⟩
  have hL0 : links.ptr l ≠ links.hole 0 c := ne_of_fresh hP (ha.left _ hL).2.2 hl0
  have hR0 : links.ptr r ≠ 0 → links.ptr r ∈ addrs r := hR.resolve_left
  have hfar : ∀ x ∈ (around e).map Item.addr, x ≠ i.addr ∧ x ≠ j.addr ∧ x ≠ links.ptr l ∧
      x ≠ links.hole 0 c ∧ (links.ptr r ≠ 0 → x ≠ links.ptr r) := by
    intro x hx
    have hx0 : x ≠ 0 := h.rep.ne_zero ((swap_perm c e i j l r).mem_iff.2 (by
      simp only [List.mem_cons, List.mem_append]
      exact .inr (.inr (.inr (.inl (.inr hx))))))
    refine ⟨ne_of_mem_of_not_mem hx ha.node.2.2.1, ne_of_mem_of_not_mem hx ha.succ.2.2.1, ?_,
      ne_of_fresh hP (ha.between x hx) hx0, fun hr0 => ?_⟩
    · exact ne_of_mem_of_not_mem hx (ha.left _ hL).2.1
    · exact ne_of_mem_of_not_mem hx (ha.right _ (hR0 hr0)).1
  rw [swapSuccessor_nodes hin hjn hi.hole_even hq2 hj.even_self ha.ne
    (ne_of_mem_of_not_mem hL ha.node.1).symm (ne_of_mem_of_not_mem hL ha.succ.1).symm
    (ne_of_fresh hP ha.succ.2.2.2 hj0) hL0 (ne_of_fresh hP ha.node.2.2.2 hi0)
    (ne_of_fresh hR ha.node.2.1 hi0).symm (ne_of_fresh hR ha.succ.2.1 hj0).symm
    (ne_of_fresh hR (ha.left _ hL).1 hl0).symm
    (fun h0 => ne_of_fresh hP (ha.right _ (hR0 h0)).2 h0)]
  · have hright : (if links.hole i.addr e = i.addr then i.addr else
        links.ptr (plug e (.node j .nil r))) =
        links.ptr (plug e (.node ⟨i.addr, j.color⟩ .nil r)) := by
      cases e with
      | nil => exact if_pos rfl
      | cons f e =>
        rw [if_neg (hfar (links.hole i.addr (f :: e)) (by simp [Layout.hole, around])).1]
        exact Layout.ptr_plug_cons f e _ _
    have hup : (if links.hole i.addr e = i.addr then j.addr else links.hole i.addr e) =
        links.hole j.addr e := by
      cases e with
      | nil => exact if_pos rfl
      | cons f e =>
        exact if_neg (hfar (links.hole i.addr (f :: e)) (by simp [Layout.hole, around])).1
    rw [hright, hup]
  · refine hplace.imp_right fun hin => ?_
    obtain ⟨hq, htop⟩ := hin
    obtain ⟨h1, h2, h3, h4, h5⟩ := hfar _ hq
    obtain ⟨h6, h7, h8, h9, h10⟩ := hfar _ htop
    exact ⟨h1, h2, h3, h4, h5, h6, h7, h8, h9, h10⟩

theorem swapSuccessor_linked (hl0 : links.ptr l ≠ 0) (he : ∀ f ∈ e, f.side = .left) :
    Linked (swapSuccessor t i.addr j.addr)
      (plug c (.node ⟨j.addr, i.color⟩ l (plug e (.node ⟨i.addr, j.color⟩ .nil r)))) := by
  have hi : Linked t (plug c (branch .left i l (plug e (.node j .nil r)))) := h
  have hj : Linked t (plug (e ++ ⟨.right, i, l⟩ :: c) (branch .left j .nil r)) := by
    rw [plug_append]
    exact hi.other
  have ha := apart_of_linked h
  have hat := swapSuccessor_at h hl0 rfl
  obtain ⟨hcr, hir⟩ := Layout.rep_plug.1 h.rep
  obtain ⟨hi0, hil, -, -, hlr, hright⟩ := hir
  obtain ⟨her, hjr⟩ := Layout.rep_plug.1 hright
  obtain ⟨hj0, -, -, -, -, hrr⟩ := hjr
  have hP := hole_mem c
  have hL := (ptr_zero_or_mem l).resolve_left hl0
  have hR := ptr_zero_or_mem r
  have hplace : ∀ y, y ≠ i.addr → y ≠ j.addr → y ∉ (around e).map Item.addr →
      y ≠ links.ptr (plug e (.node j .nil r)) ∧ y ≠ links.hole i.addr e := by
    intro y hyi hyj hye
    cases e with
    | nil => exact ⟨hyj, hyi⟩
    | cons f e =>
      refine ⟨(ne_of_mem_of_not_mem (Layout.ptr_plug_mem f e _) hye).symm,
        (ne_of_mem_of_not_mem ?_ hye).symm⟩
      simp [Layout.hole, around]
  have hout : ∀ y, y ≠ i.addr → y ≠ j.addr → y ∉ (around e).map Item.addr → y ≠ links.ptr l →
      (y = links.ptr r → y = 0) → (y = links.hole 0 c → y = 0) →
      (swapSuccessor t i.addr j.addr).nodes y = t.nodes y := by
    intro y hyi hyj hye hyl hyr hyc
    obtain ⟨hyt, hyq⟩ := hplace y hyi hyj hye
    rw [hat, if_neg hyj, if_neg hyi, if_neg hyl, if_neg fun hy => hy.2 (hy.1 ▸ hyr hy.1),
      if_neg fun hy => hy.2 (hy.1 ▸ hyc hy.1), if_neg hyt, if_neg hyq]
  have hJ := hat j.addr
  have hI := hat i.addr
  rw [if_neg ha.ne, if_pos rfl] at hI
  have hlroot : (swapSuccessor t i.addr j.addr).nodes (links.ptr l) =
      { t.nodes (links.ptr l) with
        parent := ((t.nodes (links.ptr l)).parent &&& 1) ||| j.addr } := by
    rw [hat, if_neg (ne_of_mem_of_not_mem hL ha.succ.1), if_neg (ne_of_mem_of_not_mem hL ha.node.1),
      if_pos rfl]
  have hl' : links.Rep (swapSuccessor t i.addr j.addr).nodes j.addr l := by
    refine adopt hlr hi.even_self (fun _ => hlroot) (fun w hw hne => ?_) ha.nodup.1
    obtain ⟨hwr, hwe, hwc⟩ := ha.left w hw
    exact hout w (ne_of_mem_of_not_mem hw ha.node.1) (ne_of_mem_of_not_mem hw ha.succ.1) hwe hne
      (eq_zero_of_fresh hR hwr) (eq_zero_of_fresh hP hwc)
  have hr' : links.Rep (swapSuccessor t i.addr j.addr).nodes i.addr r := by
    refine adopt hrr hj.even_self (fun h0 => ?_) (fun w hw hne => ?_) ha.nodup.2.1
    · have hmem := hR.resolve_left h0
      rw [hat, if_neg (ne_of_mem_of_not_mem hmem ha.succ.2.1),
        if_neg (ne_of_mem_of_not_mem hmem ha.node.2.1),
        if_neg (ne_of_mem_of_not_mem hL fun hl => (ha.left _ hl).1 hmem).symm, if_pos ⟨rfl, h0⟩]
    · obtain ⟨hwe, hwc⟩ := ha.right w hw
      exact hout w (ne_of_mem_of_not_mem hw ha.node.2.1) (ne_of_mem_of_not_mem hw ha.succ.2.1) hwe
        (fun heq => (ha.left _ hL).1 (heq ▸ hw)) (absurd · hne) (eq_zero_of_fresh hP hwc)
  have hc' : links.ContextRep (swapSuccessor t i.addr j.addr).nodes 0 c j.addr := by
    refine context_refill hcr ha.nodup.2.2.2 (fun z hz hne => ?_) fun f c' hc => ?_
    · exact hout z (ne_of_mem_of_not_mem hz ha.node.2.2.2) (ne_of_mem_of_not_mem hz ha.succ.2.2.2)
        (fun hze => ha.between z hze hz) (fun heq => (ha.left _ hL).2.2 (heq ▸ hz))
        (eq_zero_of_fresh hR fun hzr => (ha.right z hzr).2 hz) (absurd · hne)
    · subst hc
      have hf : f.item.addr ∈ (around (f :: c')).map Item.addr := by simp [around]
      have hf0 : links.hole 0 (f :: c') ≠ 0 := hcr.1
      rw [hat, if_neg (ne_of_mem_of_not_mem hf ha.succ.2.2.2),
        if_neg (ne_of_mem_of_not_mem hf ha.node.2.2.2),
        if_neg (ne_of_mem_of_not_mem hf (ha.left _ hL).2.2),
        if_neg fun heq => ne_of_mem_of_not_mem hf (ha.right _ (hR.resolve_left heq.2)).2 heq.1,
        if_pos ⟨rfl, hf0⟩]
      exact congrArg (fun d => (t.nodes f.item.addr).setChild d j.addr) hi.side
  have he' : links.Rep (swapSuccessor t i.addr j.addr).nodes j.addr
      (plug e (.node ⟨i.addr, j.color⟩ .nil r)) := by
    refine rep_right her he ?_ ha.node.2.2.1 ha.node.2.1 hi0 hi.even_self hI hr' rfl fun y hy => ?_
    · exact List.nodup_append.2 ⟨ha.nodup.2.1, ha.nodup.2.2.1, fun a ha' b hb hab =>
        (ha.right a ha').1 (hab ▸ hb)⟩
    · rw [hat, if_neg (ne_of_mem_of_not_mem hy ha.succ.2.2.1),
        if_neg (ne_of_mem_of_not_mem hy ha.node.2.2.1),
        if_neg (ne_of_mem_of_not_mem hy (ha.left _ hL).2.1),
        if_neg fun heq => ne_of_mem_of_not_mem hy (ha.right _ (hR.resolve_left heq.2)).1 heq.1,
        if_neg fun heq => ne_of_mem_of_not_mem (hP.resolve_left heq.2) (ha.between y hy) heq.1.symm]
  refine h.rebuild ?_ (Layout.rep_plug.2 ⟨hc', hj0, ?_, ?_, ?_, hl', he'⟩)
    ((swap_perm c e _ _ l r).trans ((List.Perm.swap _ _ _).trans (swap_perm c e i j l r).symm))
  · rw [swapSuccessor_root hi.getParent hil ha.ne (ne_of_mem_of_not_mem hL ha.node.1).symm]
    exact h.root_refill (.node ⟨j.addr, i.color⟩ l _)
  · simp [hJ, Node.child]
  · simp [hJ, Node.child]
  · simp [hJ]

end

end Trees

end DstructRbtreeSwap
