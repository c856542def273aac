import EvalynKernel.MachineWords
import EvalynKernel.LinkedTrees

/-! # The intrusive red-black tree (`utils/dstruct/rbtree.c`)

Nodes are addressed by numbers, 0 being `nullptr`. The word `parent` of a node holds the
parent's address with the colour in its lowest bit. The loops take the number of rounds
they may run; reading the colour or a child of a null sibling is a fault. -/
namespace DstructRbtree

open MachineWords LinkedTrees

inductive Color where
  | red | black
  deriving DecidableEq, Repr

structure Node where
  parent : ℕ
  left : ℕ
  right : ℕ
  deriving DecidableEq, Repr

structure Tree where
  root : ℕ
  nodes : ℕ → Node
  valueOfNode : ℕ → ℕ

def Node.child (n : Node) : Side → ℕ
  | .left => n.left
  | .right => n.right

def Node.setChild (n : Node) (d : Side) (v : ℕ) : Node :=
  match d with
  | .left => { n with left := v }
  | .right => { n with right := v }

def Tree.child (t : Tree) (x : ℕ) (d : Side) : ℕ := (t.nodes x).child d

def Tree.setNode (t : Tree) (x : ℕ) (n : Node) : Tree :=
  { t with nodes := Function.update t.nodes x n }

def Tree.setChild (t : Tree) (x : ℕ) (d : Side) (v : ℕ) : Tree :=
  t.setNode x ((t.nodes x).setChild d v)

def colorBit : Color → ℕ
  | .red => 0
  | .black => 1

def rbGetParent (t : Tree) (x : ℕ) : ℕ := (t.nodes x).parent >>> 1 <<< 1

def rbSetParent (t : Tree) (x p : ℕ) : Tree :=
  t.setNode x { t.nodes x with parent := ((t.nodes x).parent &&& 1) ||| p }

def rbGetColor (t : Tree) (x : ℕ) : Color :=
  if (t.nodes x).parent &&& 1 ≠ 0 then .black else .red

def rbSetColor (t : Tree) (x : ℕ) (c : Color) : Tree :=
  t.setNode x { t.nodes x with parent := ((t.nodes x).parent >>> 1 <<< 1) ||| colorBit c }

def sideOf (isRight : Bool) : Side := if isRight then .right else .left

def rbtreeDirection (t : Tree) (x : ℕ) : Side :=
  sideOf (x == (t.nodes (rbGetParent t x)).right)

def rbtreeMinimum (t : Tree) : ℕ → ℕ → Exec ℕ
  | fuel, x =>
    if x = 0 ∨ (t.nodes x).left = 0 then .ok x else
      match fuel with
      | 0 => .error .fuel
      | fuel + 1 => rbtreeMinimum t fuel (t.nodes x).left

def rbtreeMaximum (t : Tree) : ℕ → ℕ → Exec ℕ
  | fuel, x =>
    if x = 0 ∨ (t.nodes x).right = 0 then .ok x else
      match fuel with
      | 0 => .error .fuel
      | fuel + 1 => rbtreeMaximum t fuel (t.nodes x).right

/-- The walk up of `rbtree_successor`, from right children, and of `rbtree_predecessor`, from
left ones. -/
def climbLoop (t : Tree) (d : Side) : ℕ → ℕ → ℕ → Exec ℕ
  | fuel, node, parent =>
    if parent ≠ 0 ∧ node = t.child parent d then
      match fuel with
      | 0 => .error .fuel
      | fuel + 1 => climbLoop t d fuel parent (rbGetParent t parent)
    else .ok parent

def rbtreeSuccessor (fuel : ℕ) (t : Tree) (node : ℕ) : Exec ℕ :=
  if (t.nodes node).right ≠ 0 then rbtreeMinimum t fuel (t.nodes node).right
  else climbLoop t .right fuel node (rbGetParent t node)

def rbtreePredecessor (fuel : ℕ) (t : Tree) (node : ℕ) : Exec ℕ :=
  if (t.nodes node).left ≠ 0 then rbtreeMaximum t fuel (t.nodes node).left
  else climbLoop t .left fuel node (rbGetParent t node)

def searchExactLoop (t : Tree) (query : ℕ) : ℕ → ℕ → Exec ℕ
  | fuel, node =>
    if node = 0 then .ok 0 else
      match fuel with
      | 0 => .error .fuel
      | fuel + 1 =>
        if query < t.valueOfNode node then searchExactLoop t query fuel (t.nodes node).left
        else if t.valueOfNode node < query then searchExactLoop t query fuel (t.nodes node).right
        else .ok node

def rbtreeSearchExact (fuel : ℕ) (t : Tree) (query : ℕ) : Exec ℕ :=
  searchExactLoop t query fuel t.root

def keyDistance (query val : ℕ) : ℕ := if query < val then val - query else query - val

/-- The loop of `rbtree_search_nearest`, with the nearest node so far and its distance. -/
def searchNearestLoop (t : Tree) (query : ℕ) : ℕ → ℕ → ℕ → ℕ → Exec ℕ
  | fuel, node, nearest, best =>
    if node = 0 then .ok nearest else
      match fuel with
      | 0 => .error .fuel
      | fuel + 1 =>
        let dist := keyDistance query (t.valueOfNode node)
        let (nearest, best) := if dist < best then (node, dist) else (nearest, best)
        if query < t.valueOfNode node then
          searchNearestLoop t query fuel (t.nodes node).left nearest best
        else if t.valueOfNode node < query then
          searchNearestLoop t query fuel (t.nodes node).right nearest best
        else .ok node

def rbtreeSearchNearest (fuel : ℕ) (t : Tree) (query : ℕ) : Exec ℕ :=
  searchNearestLoop t query fuel t.root 0 (word - 1)

/-- The loop of `rbtree_search_lesser`, at `node` with the best node so far. -/
def searchLesserLoop (t : Tree) (query : ℕ) (findEqual : Bool) : ℕ → ℕ → ℕ → Exec ℕ
  | fuel, node, candidate =>
    if node = 0 then .ok candidate else
      match fuel with
      | 0 => .error .fuel
      | fuel + 1 =>
        if t.valueOfNode node < query then
          searchLesserLoop t query findEqual fuel (t.nodes node).right node
        else if query < t.valueOfNode node then
          searchLesserLoop t query findEqual fuel (t.nodes node).left candidate
        else if findEqual then .ok node
        else if (t.nodes node).left ≠ 0 then rbtreeMaximum t fuel (t.nodes node).left
        else .ok candidate

def rbtreeSearchLesser (fuel : ℕ) (t : Tree) (query : ℕ) (findEqual : Bool) : Exec ℕ :=
  searchLesserLoop t query findEqual fuel t.root 0

def searchGreaterLoop (t : Tree) (query : ℕ) (findEqual : Bool) : ℕ → ℕ → ℕ → Exec ℕ
  | fuel, node, candidate =>
    if node = 0 then .ok candidate else
      match fuel with
      | 0 => .error .fuel
      | fuel + 1 =>
        if query < t.valueOfNode node then
          searchGreaterLoop t query findEqual fuel (t.nodes node).left node
        else if t.valueOfNode node < query then
          searchGreaterLoop t query findEqual fuel (t.nodes node).right candidate
        else if findEqual then .ok node
        else if (t.nodes node).right ≠ 0 then rbtreeMinimum t fuel (t.nodes node).right
        else .ok candidate

def rbtreeSearchGreater (fuel : ℕ) (t : Tree) (query : ℕ) (findEqual : Bool) : Exec ℕ :=
  searchGreaterLoop t query findEqual fuel t.root 0

inductive SearchType where
  | exact | nearest | nearestLt | nearestLte | nearestGt | nearestGte
  deriving DecidableEq, Repr

def rbtreeSearch (fuel : ℕ) (t : Tree) (query : ℕ) : SearchType → Exec ℕ
  | .exact => rbtreeSearchExact fuel t query
  | .nearest => rbtreeSearchNearest fuel t query
  | .nearestLt => rbtreeSearchLesser fuel t query false
  | .nearestLte => rbtreeSearchLesser fuel t query true
  | .nearestGt => rbtreeSearchGreater fuel t query false
  | .nearestGte => rbtreeSearchGreater fuel t query true

def rbtreeRotateSubtree (t : Tree) (sub : ℕ) (dir : Side) : Tree :=
  let subParent := rbGetParent t sub
  let newRoot := t.child sub dir.flip
  let newChild := t.child newRoot dir
  let t := t.setChild sub dir.flip newChild
  let t := if newChild ≠ 0 then rbSetParent t newChild sub else t
  let t := t.setChild newRoot dir sub
  let t := rbSetParent t newRoot subParent
  let t := rbSetParent t sub newRoot
  if subParent ≠ 0 then t.setChild subParent (sideOf (sub == (t.nodes subParent).right)) newRoot
  else { t with root := newRoot }

/-- The do-while loop of `rbtree_insert_fixup`, entered with a parent. -/
def insertFixupLoop : ℕ → Tree → ℕ → ℕ → Exec Tree
  | fuel, t, node, parent =>
    if rbGetColor t parent = .black then .ok t else
    let grandparent := rbGetParent t parent
    if grandparent = 0 then .ok (rbSetColor t parent .black) else
    let dir := rbtreeDirection t parent
    let uncle := t.child grandparent dir.flip
    if uncle = 0 ∨ rbGetColor t uncle = .black then
      let inner := node == t.child parent dir.flip
      let t := if inner then rbtreeRotateSubtree t parent dir else t
      let parent := if inner then t.child grandparent dir else parent
      let t := rbtreeRotateSubtree t grandparent dir.flip
      .ok (rbSetColor (rbSetColor t parent .black) grandparent .red)
    else
      let t := rbSetColor t parent .black
      let t := rbSetColor t uncle .black
      let t := rbSetColor t grandparent .red
      let parent := rbGetParent t grandparent
      if parent = 0 then .ok (rbSetColor t t.root .black) else
        match fuel with
        | 0 => .error .fuel
        | fuel + 1 => insertFixupLoop fuel t grandparent parent

def rbtreeInsertFixup (fuel : ℕ) (t : Tree) (node parent : ℕ) : Exec Tree :=
  let t := rbSetColor t node .red
  if parent = 0 then .ok (rbSetColor { t with root := node } node .black)
  else insertFixupLoop fuel t node parent

/-- The descent of `rbtree_insert`: the last node visited and the side left at. -/
def insertDescend (t : Tree) (key : ℕ) : ℕ → ℕ → ℕ → Side → Exec (ℕ × Side)
  | fuel, parent, cur, dir =>
    if cur = 0 then .ok (parent, dir) else
      match fuel with
      | 0 => .error .fuel
      | fuel + 1 =>
        if key < t.valueOfNode cur then insertDescend t key fuel cur (t.nodes cur).left .left
        else insertDescend t key fuel cur (t.nodes cur).right .right

def rbtreeInsert (fuel : ℕ) (t : Tree) (node : ℕ) : Exec Tree := do
  let t := t.setNode node ⟨0, 0, 0⟩
  let (parent, dir) ← insertDescend t (t.valueOfNode node) fuel 0 t.root .left
  let t := if parent = 0 then { t with root := node }
    else (rbSetParent t node parent).setChild parent dir node
  rbtreeInsertFixup fuel t node parent

/-- Case 3 of `rbtree_remove_fixup`: after it the sibling is black. -/
def blackenSibling (t : Tree) (parent : ℕ) (dir : Side) : Exec (ℕ × Tree) := do
  let sibling := t.child parent dir.flip
  if sibling = 0 then throw (.nullDeref "sibling")
  if rbGetColor t sibling = .red then
    let t := rbSetColor (rbSetColor t parent .red) sibling .black
    let nephew := t.child sibling dir
    if nephew = 0 then throw (.nullDeref "sibling")
    return (nephew, rbtreeRotateSubtree t parent dir)
  return (sibling, t)

/-- Cases 6, 5 and 4, for a black sibling; `true` where the loop returns. -/
def fixupNephews (t : Tree) (parent sibling : ℕ) (dir : Side) : Bool × Tree :=
  let distantNephew := t.child sibling dir.flip
  let closeNephew := t.child sibling dir
  if distantNephew ≠ 0 ∧ rbGetColor t distantNephew = .red then
    let t := rbtreeRotateSubtree t parent dir
    let t := rbSetColor t sibling (rbGetColor t parent)
    let t := rbSetColor t distantNephew .black
    (true, rbSetColor t parent .black)
  else if closeNephew ≠ 0 ∧ rbGetColor t closeNephew = .red then
    let t := rbtreeRotateSubtree t sibling dir.flip
    let t := rbtreeRotateSubtree t parent dir
    let t := rbSetColor t closeNephew (rbGetColor t parent)
    (true, rbSetColor t parent .black)
  else
    let t := rbSetColor t sibling .red
    if rbGetColor t parent = .red then (true, rbSetColor t parent .black) else (false, t)

/-- The do-while loop of `rbtree_remove_fixup`, entered with a parent. -/
def removeFixupLoop : ℕ → Tree → ℕ → Side → Exec Tree
  | fuel, t, parent, dir => do
    let (sibling, t) ← blackenSibling t parent dir
    let (done, t) := fixupNephews t parent sibling dir
    if done then return t
    let node := parent
    let parent := rbGetParent t node
    if parent = 0 then return t
    match fuel with
    | 0 => throw .fuel
    | fuel + 1 => removeFixupLoop fuel t parent (sideOf ((t.nodes parent).right == node))

def rbtreeRemoveFixup (fuel : ℕ) (t : Tree) (node : ℕ) (dir : Side) : Exec Tree :=
  let parent := rbGetParent t node
  if parent = 0 then .ok (rbSetColor t node .black)
  else removeFixupLoop fuel t parent dir

/-- For a node with two children `rbtree_remove` lets the node and its successor change
places, in this and the next three steps. The successor takes the node's left subtree and
its place under its parent. -/
def succTakePlace (t : Tree) (node succ : ℕ) : Tree :=
  let t := t.setChild succ .left (t.nodes node).left
  let t := rbSetParent t (t.nodes succ).left succ
  let nodeParent := rbGetParent t node
  let t := rbSetParent t succ nodeParent
  if nodeParent = 0 then { t with root := succ }
  else t.setChild nodeParent (sideOf (node == (t.nodes nodeParent).right)) succ

def swapRight (t : Tree) (node succ succParent : ℕ) : Tree :=
  if succParent = node then rbSetParent (t.setChild succ .right node) node succ
  else
    let t := t.setChild succ .right (t.nodes node).right
    let t := rbSetParent t (t.nodes succ).right succ
    let t := t.setChild succParent .left node
    rbSetParent t node succParent

def nodeTakeRight (t : Tree) (node succRight : ℕ) : Tree :=
  let t := t.setChild node .left 0
  let t := t.setChild node .right succRight
  if (t.nodes node).right ≠ 0 then rbSetParent t (t.nodes node).right node else t

def swapColors (t : Tree) (node succ : ℕ) : Tree :=
  let tmp := rbGetColor t node
  let t := rbSetColor t node (rbGetColor t succ)
  rbSetColor t succ tmp

def swapSuccessor (t : Tree) (node succ : ℕ) : Tree :=
  let succParent := rbGetParent t succ
  let succRight := (t.nodes succ).right
  let t := succTakePlace t node succ
  let t := swapRight t node succ succParent
  let t := nodeTakeRight t node succRight
  swapColors t node succ

/-- The second part of `rbtree_remove`: a node with at most one child is unlinked. -/
def unlink (fuel : ℕ) (t : Tree) (node : ℕ) : Exec (ℕ × Tree) := do
  let parent := rbGetParent t node
  let replacement := if (t.nodes node).left ≠ 0 then (t.nodes node).left else (t.nodes node).right
  let t := if replacement ≠ 0 then rbSetParent t replacement parent else t
  let dir := if parent = 0 then .left else rbtreeDirection t node
  let t := if parent = 0 then { t with root := replacement } else t.setChild parent dir replacement
  if rbGetColor t node = .black then
    if replacement ≠ 0 ∧ rbGetColor t replacement = .red then
      return (replacement, rbSetColor t replacement .black)
    else if replacement ≠ 0 then
      return (replacement, ← rbtreeRemoveFixup fuel t replacement dir)
    else if parent ≠ 0 then
      return (replacement, ← rbtreeRemoveFixup fuel t node dir)
  return (replacement, t)

def rbtreeRemove (fuel : ℕ) (t : Tree) (node : ℕ) : Exec (ℕ × Tree) := do
  if (t.nodes node).left ≠ 0 ∧ (t.nodes node).right ≠ 0 then
    let succ ← rbtreeMinimum t fuel (t.nodes node).right
    unlink fuel (swapSuccessor t node succ) node
  else unlink fuel t node

end DstructRbtree
