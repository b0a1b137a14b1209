import Mathlib.Data.Tree.Basic
import Mp4.Lib.Binary64
import Mp4.Lib.Bits

/-!
The part of `control()` in `n_way_cache.py` that numbers the nodes of the replacement
tree and finds the path to every way, and the functions `load_PLRU` and `which_replace`
that it prints from these paths.
-/

set_option autoImplicit false
set_option relaxedAutoImplicit false

namespace Mp4.Generator.TreePaths

open Mp4.Lib.Binary64 Mp4.Lib.Bits

/-- The value of a node: the text `str(n)`, or the text `"way"+str(n)`. -/
inductive Label
  | bit (n : ℤ)
  | way (n : ℕ)
  deriving DecidableEq, Repr

abbrev Node := BinaryTree Label

section Dfs

/-- A child is pushed unless it is missing or its value has been seen. -/
def push (child : Node) (visited : List Label) (stack : List Node) : List Node :=
  match child with
  | .nil => stack
  | .node value left right =>
      if value ∈ visited then stack else .node value left right :: stack

def load (stack : List Node) : ℕ := (stack.map fun t => 2 * t.numNodes + 1).sum

private theorem load_push_le (child : Node) (visited : List Label) (stack : List Node) :
    load (push child visited stack) ≤ 2 * child.numNodes + 1 + load stack := by
  cases child with
  | nil => simp [push]
  | node value left right =>
    rw [push]
    split_ifs
    · omega
    · simp [load]

/-- The loop of `dfs`; the top of the stack comes first. -/
def search (location : Label) (stack : List Node) (visited : List Label) : Bool :=
  match stack with
  | [] => false
  | .nil :: stack => search location stack visited
  | .node value left right :: stack =>
      let visited := if value ∈ visited then visited else value :: visited
      let stack' := push left visited (push right visited stack)
      if location ∈ visited then true else search location stack' visited
termination_by load stack
decreasing_by
  · simp [load]
  · refine (load_push_le _ _ _).trans_lt ?_
    refine (Nat.add_le_add_left (load_push_le _ _ _) _).trans_lt ?_
    simp only [load, List.map_cons, List.sum_cons, BinaryTree.numNodes]
    omega

def dfs (root : Node) (location : Label) : Bool :=
  match root with
  | .nil => false
  | .node value left right => search location [.node value left right] []

end Dfs

section Nodes

/-- `int(x)`. -/
def truncate (x : ℚ) : ℤ := if 0 ≤ x then ⌊x⌋ else ⌈x⌉

/-- `str(int((ways*numerator/denominator)-1))`, computed in floating point; there is no
label when the division overflows. -/
def label (ways numerator denominator : ℕ) : Option Label := do
  let quotient ← toBinary64 ((ways * numerator : ℕ) / denominator)
  let value ← toBinary64 (quotient - 1)
  pure (.bit (truncate value))

/-- The loop over `numerator`. -/
def row (ways denominator numerator : ℕ) : Option (List Label) :=
  if numerator < denominator then do
    let here ← label ways numerator denominator
    let rest ← row ways denominator (numerator + 2)
    pure (here :: rest)
  else pure []
termination_by denominator - numerator

/-- The loop over `denominator`. -/
def rows (ways denominator : ℕ) (positive : 0 < denominator) : Option (List Label) :=
  if denominator ≤ ways then do
    let here ← row ways denominator 1
    let rest ← rows ways (denominator * 2) (by omega)
    pure (here ++ rest)
  else pure []
termination_by ways + 1 - denominator

def nodes (ways : ℕ) : Option (List Label) := do
  let inner ← rows ways 2 (by decide)
  pure (inner ++ (List.range ways).map fun i => .way (i + 1))

end Nodes

/-- The tree of a list in level order, from position `i` on: what `binarytree.build` makes
of the list. -/
def levelOrder (nodes : List Label) (i : ℕ) : Node :=
  if h : i < nodes.length then
    .node nodes[i] (levelOrder nodes (2 * i + 1)) (levelOrder nodes (2 * i + 2))
  else .nil
termination_by nodes.length - i

/-- The loop over `j` that descends to `location`. -/
def walk (location : Label) : ℕ → Node → List (Label × Bool)
  | 0, _ => []
  | _ + 1, .nil => []
  | j + 1, .node value left right =>
      if dfs left location then (value, false) :: walk location j left
      else if dfs right location then (value, true) :: walk location j right
      else walk location j (.node value left right)

structure Generated where
  nodes : List Label
  path : List (List (Label × Bool))

/-- The computation of `nodes` and `path` in `control()`, over the functions of the package
`binarytree`. -/
def control (build : List Label → Node) (height : Node → ℕ) (ways : ℕ) : Option Generated := do
  let nodes ← nodes ways
  let binaryTree := build nodes
  pure ⟨nodes, (List.range ways).map fun i => walk (.way (i + 1)) (height binaryTree) binaryTree⟩

section Printed

variable {w : ℕ}

def assignBit (lruIn : BitVec w) : Label × Bool → BitVec w
  | (.bit n, b) => setBit lruIn n.toNat b
  | (.way _, _) => lruIn

def bitIs (tempPlru : BitVec w) : Label × Bool → Bool
  | (.bit n, b) => tempPlru.getLsbD n.toNat == b
  | (.way _, _) => false

/-- The printed `load_PLRU`. -/
def loadPlru (path : List (List (Label × Bool))) (h : ℕ → Bool) (lruOut : BitVec w) : BitVec w :=
  path.zipIdx.foldl (fun lruIn e => if h e.2 then e.1.foldl assignBit lruIn else lruIn) lruOut

/-- The condition under which the printed `which_replace` assigns way `i`. -/
def selects (path : List (List (Label × Bool))) (plru : BitVec w) (i : ℕ) : Bool :=
  (path.getD i []).all (bitIs (~~~plru))

/-- The printed `which_replace`; `old` is what `replace_which_way` held. -/
def whichReplace (path : List (List (Label × Bool))) (plru : BitVec w) (old : ℕ) : ℕ :=
  path.zipIdx.foldl (fun way e => if e.1.all (bitIs (~~~plru)) then e.2 else way) old

def touches (path : List (List (Label × Bool))) (plru : BitVec w) (ways : List ℕ) : BitVec w :=
  ways.foldl (fun plru i => loadPlru path (fun j => j == i) plru) plru

end Printed

end Mp4.Generator.TreePaths
