import BranchBound.Search.Bound

/-!
# The search tree

A node records the bounds on its path from the root, the answer of its relaxation, and the part
it plays in the search.  The tree is the list of all nodes in order of creation, and a node's
number is its place in that list.
-/

namespace BranchBound

namespace Search

/-- The part a node plays. -/
inductive NodeKind where
  /-- The root before its relaxation is classified. -/
  | root
  /-- The relaxation is integral. -/
  | integer
  /-- The relaxation is fractional, and the node waits in the frontier or was taken from it. -/
  | branch
  /-- Closed because it cannot improve on the incumbent. -/
  | pruned
  /-- The relaxation has no usable answer. -/
  | infeasible
  /-- The root relaxation is integral and settles the program. -/
  | optimal
deriving DecidableEq, Inhabited, Repr

/-- A node of the tree. -/
structure Node (K : Type) where
  /-- Its number, equal to its place in the tree. -/
  id : Nat
  /-- Number of its parent, none for the root. -/
  parent : Option Nat
  /-- All bounds from the root down to it. -/
  bounds : List (Bound K)
  /-- Point of its relaxation, empty if there is none. -/
  x : List K
  /-- Value of its relaxation. -/
  value : Option K
  /-- Verdict on its relaxation. -/
  status : LinearProgram.Status
  /-- Its part in the search. -/
  kind : NodeKind
  /-- Distance from the root. -/
  depth : Nat
  /-- Variable whose bound created it. -/
  branchVar : Option Nat
  /-- That bound in words. -/
  branchText : Option String
deriving DecidableEq

namespace Node

variable {K : Type}

/-- The root, with its relaxation not yet solved. -/
def root : Node K where
  id := 0
  parent := none
  bounds := []
  x := []
  value := none
  status := .infeasible
  kind := .root
  depth := 0
  branchVar := none
  branchText := none

/-- A child with one more bound, its relaxation not yet solved. -/
def child [PlainText K] (p : Node K) (id : Nat) (bound : Bound K) : Node K where
  id := id
  parent := some p.id
  bounds := p.bounds ++ [bound]
  x := []
  value := none
  status := .infeasible
  kind := .branch
  depth := p.depth + 1
  branchVar := some bound.var
  branchText := some bound.describe

/-- A child with a bound from outside, whose variable may have no number. -/
def child? [PlainText K] (p : Node K) (id : Nat) (bound : Bound K) : Except Fault (Node K) :=
  bound.describe?.map (fun _ => p.child id bound)

/-- Store the answer of the relaxation. -/
def withRelaxation (n : Node K) (status : LinearProgram.Status) (x : List K) (value : Option K) :
    Node K :=
  { n with status := status, x := x, value := value }

end Node

/-- Nodes in order of creation. -/
structure Tree (K : Type) where
  /-- The nodes. -/
  nodes : List (Node K)

namespace Tree

variable {K : Type}

/-- No nodes. -/
def empty : Tree K := ⟨[]⟩

/-- Number of nodes. -/
def size (t : Tree K) : Nat := t.nodes.length

/-- The number that the next node gets. -/
def nextId (t : Tree K) : Nat := t.nodes.length

/-- Append a node under the next number. -/
def push (t : Tree K) (n : Node K) : Tree K := ⟨t.nodes ++ [{ n with id := t.nextId }]⟩

/-- The node with a number. -/
def node? (t : Tree K) (id : Nat) : Option (Node K) := t.nodes[id]?

/-- The node with a number, or the fault of asking for one that does not exist. -/
def node (t : Tree K) (id : Nat) : Except Fault (Node K) :=
  match t.node? id with
  | some n => .ok n
  | none => .error .outOfRange

/-- Change the node with a number, if it exists. -/
def modify (t : Tree K) (id : Nat) (f : Node K → Node K) : Tree K := ⟨t.nodes.modify id f⟩

@[simp] theorem size_empty : (empty : Tree K).size = 0 := rfl

@[simp] theorem size_push (t : Tree K) (n : Node K) : (t.push n).size = t.size + 1 := by
  simp [push, size]

@[simp] theorem size_modify (t : Tree K) (id : Nat) (f : Node K → Node K) :
    (t.modify id f).size = t.size := by
  simp [modify, size]

/-- A new node is found under the number it was given. -/
theorem node?_push_nextId (t : Tree K) (n : Node K) :
    (t.push n).node? t.nextId = some { n with id := t.nextId } := by
  simp [push, node?, nextId]

/-- A new node hides none of the others. -/
theorem node?_push_of_lt {t : Tree K} {id : Nat} (h : id < t.size) (n : Node K) :
    (t.push n).node? id = t.node? id := by
  simp [push, node?, List.getElem?_append_left h]

/-- Changing a node leaves the others as they are. -/
theorem node?_modify (t : Tree K) (id other : Nat) (f : Node K → Node K) :
    (t.modify id f).node? other =
      if id = other then (t.node? other).map f else t.node? other := by
  simp [modify, node?, List.getElem?_modify]
  split <;> simp

end Tree

end Search

end BranchBound
