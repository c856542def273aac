import EvalynKernel.MachineWords
import Mathlib.Logic.Function.Basic

/-! # The pairing heap (`utils/dstruct/pheap.c`)

Nodes are addressed by numbers, 0 being `nullptr` and 1 the canary a removed node keeps in
`left_child`. The links of a heap are those of a binary tree: a node's `left_child` leads
to its children, `next_sibling` to its later siblings, and `prev_sibling` back along
either link. The links of the head between siblings mean nothing. -/
namespace DstructPheap

open MachineWords

structure Node where
  leftChild : ℕ
  nextSibling : ℕ
  prevSibling : ℕ
  deriving DecidableEq, Repr

structure Heap where
  head : ℕ
  nodes : ℕ → Node
  valueOfNode : ℕ → ℕ

def removedCanary : ℕ := 1

def setLeftChild (m : ℕ → Node) (x v : ℕ) : ℕ → Node :=
  Function.update m x { m x with leftChild := v }

def setNextSibling (m : ℕ → Node) (x v : ℕ) : ℕ → Node :=
  Function.update m x { m x with nextSibling := v }

def setPrevSibling (m : ℕ → Node) (x v : ℕ) : ℕ → Node :=
  Function.update m x { m x with prevSibling := v }

def pheapAttach (m : ℕ → Node) (parent child : ℕ) : ℕ → Node :=
  let m := setPrevSibling m child parent
  let m := setNextSibling m child (m parent).leftChild
  let m := if (m parent).leftChild ≠ 0 then setPrevSibling m (m parent).leftChild child else m
  setLeftChild m parent child

def pheapDetach (m : ℕ → Node) (node : ℕ) : ℕ → Node :=
  let prev := (m node).prevSibling
  let m := if (m prev).leftChild = node then setLeftChild m prev (m node).nextSibling
    else setNextSibling m prev (m node).nextSibling
  if (m node).nextSibling ≠ 0 then setPrevSibling m (m node).nextSibling prev else m

def pheapMeld (v : ℕ → ℕ) (m : ℕ → Node) (first second : ℕ) : ℕ × (ℕ → Node) :=
  if first = 0 then (second, m)
  else if second = 0 then (first, m)
  else if v first ≤ v second then (first, pheapAttach m first second)
  else (second, pheapAttach m second first)

/-- The first loop of `pheap_merge_children`: the siblings from `cur` on are melded in
pairs, and the results are stacked on `pairs` through `next_sibling`. -/
def mergePairs (v : ℕ → ℕ) : ℕ → (ℕ → Node) → ℕ → ℕ → Exec (ℕ × (ℕ → Node))
  | fuel, m, cur, pairs =>
    if cur = 0 then .ok (pairs, m) else
      match fuel with
      | 0 => .error .fuel
      | fuel + 1 =>
        let second := (m cur).nextSibling
        let next := if second ≠ 0 then (m second).nextSibling else 0
        let melded := pheapMeld v m cur second
        mergePairs v fuel (setNextSibling melded.2 melded.1 pairs) next melded.1

/-- The second loop: the stacked heaps are melded into one. -/
def mergeStack (v : ℕ → ℕ) : ℕ → (ℕ → Node) → ℕ → ℕ → Exec (ℕ × (ℕ → Node))
  | fuel, m, head, pairs =>
    if pairs = 0 then .ok (head, m) else
      match fuel with
      | 0 => .error .fuel
      | fuel + 1 =>
        let next := (m pairs).nextSibling
        let melded := pheapMeld v m head pairs
        mergeStack v fuel melded.2 melded.1 next

def pheapMergeChildren (v : ℕ → ℕ) (fuel : ℕ) (m : ℕ → Node) (root : ℕ) :
    Exec (ℕ × (ℕ → Node)) := do
  let (pairs, m) ← mergePairs v fuel m (m root).leftChild 0
  mergeStack v fuel m 0 pairs

def pheapInsert (h : Heap) (node : ℕ) : Heap :=
  let m := setLeftChild h.nodes node 0
  let melded := pheapMeld h.valueOfNode m h.head node
  { h with head := melded.1, nodes := melded.2 }

def pheapPeek (h : Heap) : ℕ := h.head

def pheapPop (fuel : ℕ) (h : Heap) : Exec (ℕ × Heap) := do
  let root := h.head
  if root = 0 then return (0, h)
  let (head, m) ← pheapMergeChildren h.valueOfNode fuel h.nodes root
  return (root, { h with head := head, nodes := setLeftChild m root removedCanary })

def pheapRemove (fuel : ℕ) (h : Heap) (node : ℕ) : Exec (ℕ × Heap) := do
  if node = h.head then pheapPop fuel h
  else
    let m := pheapDetach h.nodes node
    let (children, m) ← pheapMergeChildren h.valueOfNode fuel m node
    let melded := pheapMeld h.valueOfNode m h.head children
    return (node, { h with head := melded.1, nodes := setLeftChild melded.2 node removedCanary })

def pheapTryRemove (fuel : ℕ) (h : Heap) (node : ℕ) : Exec (ℕ × Heap) :=
  if (h.nodes node).leftChild ≠ removedCanary then pheapRemove fuel h node
  else .ok (0, h)

end DstructPheap
