import Stencil.Data.Action
import Stencil.Tree.Error

/-!
# Walking over a tree

A walk enters nodes and leaves them again. What is visited between entering and leaving a node is
decided when the node is entered: nothing, or a queue of nodes, which are usually but not always its
children. A visitor may change the tree while the walk is under way, so the walk follows the queues
it was given and never the links of the tree.

The walk is a loop over the current queue and a stack of interrupted ones, with the node at which
each was interrupted. A visitor that keeps extending the tree can make it run for ever; the loop
therefore takes a number of steps and has no answer when they do not suffice.

## Main definitions

* `Visitor` – what happens at a node;
* `Visitor.loop` – the loop; `Visitor.walk` – a walk from a root.
-/

namespace Stencil.Tree

/-- What happens on entering and leaving a node. -/
structure Visitor (ε σ : Type) where
  /-- The tree within the state. -/
  store : σ → Store
  /-- The error for a node that cannot be part of a walk. -/
  refuse : TreeError → ε
  /-- Whether invisible nodes are passed over. -/
  skipInvisible : Bool := false
  /-- Entering a node gives the queue of nodes to visit before it is left, if any. -/
  enter : NodeId → Action ε σ (Option (List NodeId))
  /-- Leaving a node. -/
  leave : NodeId → Action ε σ Unit

namespace Visitor

variable {ε σ : Type}

/-- Whether a node is passed over in a state. -/
def skips (v : Visitor ε σ) (n : NodeId) (s : σ) : Bool :=
  v.skipInvisible && !(v.store s).isVisible n

/-- Entering a node, unless it is an attribute. -/
def visit (v : Visitor ε σ) (n : NodeId) (s : σ) : Except ε (Option (List NodeId)) × σ :=
  match (v.store s).payload? n with
  | some (.attr _) => (.error (v.refuse (.notWalkable ((v.store s).label n))), s)
  | _ => v.enter n s

/-- Walks over a queue, with a stack of nodes still to be left and the queues to go on with then. -/
def loop (v : Visitor ε σ) :
    Nat → List NodeId → List (NodeId × List NodeId) → σ → Option (Except ε Unit × σ)
  | 0, _, _, _ => none
  | _ + 1, [], [], s => some (.ok (), s)
  | steps + 1, [], (n, queue) :: stack, s =>
    match v.leave n s with
    | (.error e, s) => some (.error e, s)
    | (.ok (), s) => v.loop steps queue stack s
  | steps + 1, n :: queue, stack, s =>
    if v.skips n s then v.loop steps queue stack s
    else
      match v.visit n s with
      | (.error e, s) => some (.error e, s)
      | (.ok (some inner), s) => v.loop steps inner ((n, queue) :: stack) s
      | (.ok none, s) =>
        match v.leave n s with
        | (.error e, s) => some (.error e, s)
        | (.ok (), s) => v.loop steps queue stack s

/-- Walks over a node and what its visitor asks for. -/
def walk (v : Visitor ε σ) (steps : Nat) (root : Option NodeId) : Process ε σ Unit := fun s =>
  match root with
  | none => some (.error (v.refuse .missingNode), s)
  | some n => v.loop steps [n] [] s

end Visitor

/-- The children of a node as a queue, if it has any. -/
def Store.queue? (s : Store) (n : NodeId) : Option (List NodeId) :=
  if s.hasChildren n then some (s.children n) else none

/-- More steps than a walk over the nodes of a tree can take: each node is entered and left once. -/
def Store.walkLimit (s : Store) : Nat := 2 * s.nodes.size + 2

end Stencil.Tree
