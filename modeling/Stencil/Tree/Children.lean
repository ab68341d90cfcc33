import Stencil.Tree.Error

/-!
# Children

Adding, removing, replacing and moving children. A child is taken out of its old place before it is
put into the new one, so a node is never in two lists. What may become a child of what is checked
before anything changes:

* a child is neither a document nor an attribute;
* a container is not placed below itself;
* a run of text holds only character data and expressions;
* a document with a single root has at most one element at its top level. The element that is about
  to be replaced, or that is only moved within the document, does not count against it.

Every operation takes the node to be placed as an option, because callers may have none; that is
refused like everything else.

## Main definitions

* `Store.checkChild` – the rules;
* `Store.appendChild`, `Store.insertBefore`, `Store.replaceChild`, `Store.removeChild`, their
  variants by position, `Store.removeChildren`, `Store.moveChildren`;
* `Store.detach` – taking a node out of its parent.
-/

namespace Stencil.Tree

namespace Store

/-! ### Links -/

/-- The store with the links of a node changed, if there is a node. -/
def relink? (s : Store) (n : Option NodeId) (f : Links → Links) : Store :=
  match n with
  | some n => s.relink n f
  | none => s

/-- Takes a node out of its parent, if it has one. Its neighbours become neighbours, and where it
was the first or the last child, the neighbour takes its place. -/
def detach (s : Store) (n : NodeId) : Store :=
  let l := s.links n
  match l.parent with
  | none => s
  | some p =>
    let s := s.relink p fun k =>
      { k with
        first := if k.first = some n then l.next else k.first
        last := if k.last = some n then l.previous else k.last
        count := k.count - 1 }
    let s := s.relink? l.previous fun k => { k with next := l.next }
    let s := s.relink? l.next fun k => { k with previous := l.previous }
    s.relink n Links.alone

/-- Makes a detached node the last child of `p`. -/
def attachLast (s : Store) (p n : NodeId) : Store :=
  let last := s.lastChild? p
  let s := s.relink? last fun k => { k with next := some n }
  let s := s.relink p fun k =>
    { k with
      first := if last.isNone then some n else k.first
      last := some n
      count := k.count + 1 }
  s.relink n fun k => { k with parent := some p, previous := last }

/-- Makes a detached node the child of `p` directly in front of `ref`. -/
def attachBefore (s : Store) (p n ref : NodeId) : Store :=
  let before := s.previous? ref
  let s := s.relink? before fun k => { k with next := some n }
  let s := s.relink p fun k =>
    { k with
      first := if before.isNone then some n else k.first
      count := k.count + 1 }
  let s := s.relink ref fun k => { k with previous := some n }
  s.relink n fun k => { k with parent := some p, previous := before, next := some ref }

/-- Puts a detached node in the place of the child `ref` of `p`, which becomes detached. -/
def attachInstead (s : Store) (p n ref : NodeId) : Store :=
  let l := s.links ref
  let s := s.relink? l.previous fun k => { k with next := some n }
  let s := s.relink? l.next fun k => { k with previous := some n }
  let s := s.relink p fun k =>
    { k with
      first := if l.previous.isNone then some n else k.first
      last := if l.next.isNone then some n else k.last }
  let s := s.relink n fun k =>
    { k with parent := some p, previous := l.previous, next := l.next }
  s.relink ref Links.alone

/-! ### Rules -/

/-- The first `limit` nodes of the path from a node to its topmost ancestor. -/
def pathUp (s : Store) : Nat → NodeId → List NodeId
  | 0, _ => []
  | limit + 1, n => n :: ((s.parent? n).map (s.pathUp limit)).getD []

/-- A node and its ancestors. No path is longer than the number of nodes. -/
def selfAndAncestors (s : Store) (n : NodeId) : List NodeId := s.pathUp s.nodes.size n

/-- The first element at the top level of a document. -/
def rootElement? (s : Store) (d : NodeId) : Option NodeId := (s.children d).find? s.isElement

/-- Whether a document can have at most one element at its top level. -/
def hasSingleRoot (s : Store) (d : NodeId) : Bool := ((s.document? d).map (·.singleRoot)).getD false

/-- The rules of the container for the node `c`, when `replaced` is about to leave it. -/
def checkContainer (s : Store) (p c : NodeId) (replaced : Option NodeId) : Except TreeError Unit :=
  match s.payload? p with
  | some (.document d) =>
    match s.rootElement? p with
    | some root =>
      if d.singleRoot && s.isElement c && root != c && some root != replaced then
        .error (.secondRoot (s.label c))
      else .ok ()
    | none => .ok ()
  | some .text =>
    match s.payload? c with
    | some (.cdata _) | some (.expression ..) => .ok ()
    | _ => .error (.invalidTextChild (s.label c))
  | _ => .ok ()

/-- Whether a node can be placed in the container `p`, when `replaced` is about to leave it. -/
def checkChild (s : Store) (p : NodeId) (child replaced : Option NodeId) :
    Except TreeError NodeId :=
  match child with
  | none => .error .missingNode
  | some c =>
    match s.payload? c with
    | some (.document _) | some (.attr _) => .error (.invalidChild (s.label c) (s.label p))
    | _ =>
      if s.isContainer c && (s.selfAndAncestors p).contains c then
        .error (.cycle (s.label c) (s.label p))
      else
        match s.checkContainer p c replaced with
        | .error e => .error e
        | .ok () => .ok c

/-! ### Operations -/

/-- Makes a node the last child of `p`. -/
def appendChild (s : Store) (p : NodeId) (child : Option NodeId) : Except TreeError Store := do
  let c ← s.checkChild p child none
  return (s.detach c).attachLast p c

/-- Makes a node the child of `p` directly in front of `ref`, or the last child without `ref`. -/
def insertBefore (s : Store) (p : NodeId) (child ref : Option NodeId) : Except TreeError Store :=
  match ref with
  | none => s.appendChild p child
  | some r =>
    if s.parent? r ≠ some p then .error (.notAChild .insert (s.label r))
    else if child = some r then .ok s
    else do
      let c ← s.checkChild p child none
      return (s.detach c).attachBefore p c r

/-- Removes a child. -/
def removeChild (s : Store) (p : NodeId) (child : Option NodeId) : Except TreeError Store :=
  match child with
  | none => .error .missingNode
  | some c =>
    if s.parent? c ≠ some p then .error (.notAChild .remove (s.label c)) else .ok (s.detach c)

/-- Puts a node in the place of the child `ref`. -/
def replaceChild (s : Store) (p : NodeId) (child ref : Option NodeId) : Except TreeError Store :=
  match child, ref with
  | some c, some r =>
    if s.parent? r ≠ some p then .error (.notAChild .replace (s.label r))
    else if c = r then .ok s
    else do
      let c ← s.checkChild p child ref
      return (s.detach c).attachInstead p c r
  | _, _ => .error .missingNode

/-- The child at a position, counted from 0. -/
def childAt (s : Store) (p : NodeId) (index : Int) (operation : ChildOperation) :
    Except TreeError NodeId :=
  let found := if index < 0 then none else (s.children p)[index.toNat]?
  match found with
  | some c => .ok c
  | none => .error (.noSuchChild operation index)

/-- Makes a node the child of `p` in front of the child at a position. -/
def insertAt (s : Store) (p : NodeId) (child : Option NodeId) (index : Int) :
    Except TreeError Store := do
  let r ← s.childAt p index .insert
  s.insertBefore p child (some r)

/-- Removes the child at a position. -/
def removeAt (s : Store) (p : NodeId) (index : Int) : Except TreeError Store := do
  let c ← s.childAt p index .remove
  s.removeChild p (some c)

/-- Puts a node in the place of the child at a position. -/
def replaceAt (s : Store) (p : NodeId) (child : Option NodeId) (index : Int) :
    Except TreeError Store := do
  let r ← s.childAt p index .replace
  s.replaceChild p child (some r)

/-- Removes all children and gives them in order. -/
def removeChildren (s : Store) (p : NodeId) : List NodeId × Store :=
  let cs := s.children p
  (cs, (cs.foldl (fun s c => s.relink c Links.alone) s).relink p Links.childless)

/-- Moves all children to the empty container `dst`. Every child is checked before any moves. -/
def moveChildren (s : Store) (src : NodeId) (dst : Option NodeId) : Except TreeError Store :=
  match dst with
  | none => .error .missingNode
  | some d =>
    if s.hasChildren d then .error (.destinationNotEmpty (s.label src) (s.label d))
    else if src = d then .ok s
    else do
      (s.children src).forM fun c => (s.checkChild d (some c) none).map fun _ => ()
      if s.hasSingleRoot d && (s.children src).countP s.isElement > 1 then
        throw (.severalRoots (s.label src))
      let (cs, s) := s.removeChildren src
      return cs.foldl (fun s c => s.attachLast d c) s

end Store

end Stencil.Tree
