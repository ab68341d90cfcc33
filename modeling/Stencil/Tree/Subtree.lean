import Stencil.Tree.Attributes
import Stencil.Tree.Characters

/-!
# Whole subtrees

Searching, copying and disposing of a node with everything below it. All three visit nodes breadth
first, one level after the other: the level below some nodes consists of their children in order. In
a tree no node is reached twice, so there are no more levels than nodes in the store.

A copy shares nothing with what was copied: it consists of new nodes and has attributes of its own.
Disposal takes a subtree apart: every node of it ends up without links, elements lose their
attributes, which are cleared, and documents what was left on them.

## Main definitions

* `Store.breadthFirst` – the nodes of a level and below it;
* `Store.elementsByName` – searching; `Store.clone` – copying; `Store.dispose` – disposal.
-/

namespace Stencil.Tree.Store

/-- The nodes of the given level and of the levels below it, `limit` levels in all. -/
def breadthFirst (s : Store) : Nat → List NodeId → List NodeId
  | 0, _ => []
  | _ + 1, [] => []
  | limit + 1, level => level ++ s.breadthFirst limit (level.flatMap s.children)

/-- A node and everything below it, breadth first. -/
def subtree (s : Store) (n : NodeId) : List NodeId := s.breadthFirst s.nodes.size [n]

/-- Takes a node out of its parent, if it has one. -/
def unmount (s : Store) (n : Option NodeId) : Except TreeError Store :=
  match n with
  | none => .error .missingNode
  | some n => .ok (s.detach n)

/-! ### Searching -/

/-- The elements below `e` in the given namespace with the given name, breadth first. -/
def elementsByName (s : Store) (e : NodeId) (uri : Int) (name : Text) : List NodeId :=
  (s.subtree e).tail.filter fun n =>
    match s.element? n with
    | some d => d.uri = some uri && d.name = name
    | none => false

/-! ### Copying -/

/-- Adds copies of the given attributes to the element `e`. -/
def copyAttributes (e : NodeId) : List NodeId → Store → Store
  | [], s => s
  | a :: as, s =>
    match s.get? a, s.attr? a with
    | some node, some d =>
      let (b, s) := s.add
        { node with payload := .attr { d with owner := none }, links := {} }
      copyAttributes e as ((s.addAttribute e (some b)).toOption.getD s)
    | _, _ => copyAttributes e as s

/-- A copy of a single node, without links and without children. -/
def copyNode (s : Store) (n : NodeId) : NodeId × Store :=
  match s.get? n with
  | none => (n, s)
  | some node =>
    let node := { node with links := {} }
    match node.payload with
    | .element d =>
      let (m, s) := s.add { node with payload := .element { d with attrs := .empty } }
      (m, copyAttributes m d.attrs.values s)
    | .attr d => s.add { node with payload := .attr { d with owner := none } }
    | _ => s.add node

/-- Copies a node below its new parent. The children of the node are next to be copied, below the
copy. -/
def copyBelow (next : Array (NodeId × NodeId) × Store) (entry : NodeId × NodeId) :
    Array (NodeId × NodeId) × Store :=
  let (m, s) := next.2.copyNode entry.2
  (next.1 ++ (s.children entry.2).map (m, ·), s.attachLast entry.1 m)

/-- Copies a level and what is below it, `limit` levels in all. Each entry of a level gives the new
parent and the node to copy. -/
def copyLevels : Nat → List (NodeId × NodeId) → Store → Store
  | 0, _, s => s
  | _ + 1, [], s => s
  | limit + 1, level, s =>
    let (next, s) := level.foldl copyBelow (#[], s)
    copyLevels limit next.toList s

/-- A copy of a node and everything below it. -/
def clone (s : Store) (n : NodeId) : NodeId × Store :=
  let (m, s') := s.copyNode n
  (m, copyLevels s.nodes.size ((s.children n).map (m, ·)) s')

/-! ### Disposal -/

/-- Clears a single node of a disposed subtree. -/
def clearNode (s : Store) (n : NodeId) : Store :=
  let s := s.relink n fun l => l.alone.childless
  (s.discardAttributes n).modifyDocument n fun d => { d with extras := [] }

/-- Takes a node out of its parent and apart with everything below it. -/
def dispose (s : Store) (n : NodeId) : Store :=
  let s := s.detach n
  (s.subtree n).foldl clearNode s

end Stencil.Tree.Store
