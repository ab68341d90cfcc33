import Stencil.Text.Basic
import Stencil.Data.OrderedMap

/-!
# Nodes

A template is a tree of nodes: a document, elements, runs of text that hold character data and
expressions, and fragments of code. Attributes are nodes too, but belong to an element without
being among its children.

All nodes of a compilation live in one store and are referred to by their identifier, so that a node
keeps its identity while it moves and while tables elsewhere refer to it. The children of a node
form a list linked in both directions: the node refers to the first and the last of them, each child
to its parent and its two neighbours, and the node knows how many there are. That the links agree
with each other is not part of the type; the operations on children keep it so.
Identifiers are never reused: a new node gets the next free one.

## Main definitions

* `NodeId`, `Node`, `Payload`, `Links` – identifiers, nodes, what a node is and where it stands;
* `Store` – the nodes of a compilation; `Store.add` – a new node;
* `Store.parent?`, `Store.next?`, `Store.previous?`, `Store.firstChild?`, `Store.lastChild?`,
  `Store.childCount` – the links; `Store.children` – the children they lead to;
* `Store.label` – the name of a node in messages.
-/

namespace Stencil.Tree

/-- The identity of a node. -/
abbrev NodeId := Nat

/-- What a stage can leave on a document for a later one. -/
inductive ExtraKind where
  /-- The names of the definitions collected from the document. -/
  | definitions
  /-- What the document inherits from. -/
  | inheritance
  /-- The node whose content is to be the output. -/
  | snippet
  /-- Anything else. -/
  | other (n : Int)
  deriving DecidableEq, Repr

/-- The name of a kind. -/
def ExtraKind.label : ExtraKind → Text
  | definitions => "macros"
  | inheritance => "inheritance"
  | snippet => "snippet"
  | other n => "extra(" ++ Text.ofInt n ++ ")"

/-- What a template says about inheritance. -/
structure Inheritance where
  /-- The template it extends; empty if it extends none. -/
  extended : Text
  /-- The templates it loads. -/
  loads : List Text
  /-- Whether it asks for dynamic treatment as a whole. -/
  dynamic : Bool
  /-- Whether it asks for escaping. -/
  escaping : Bool
  deriving DecidableEq, Repr

/-- What is left on a document. -/
inductive Extra where
  /-- A node. -/
  | node (id : NodeId)
  /-- A text. -/
  | text (t : Text)
  /-- A list of names. -/
  | names (ts : List Text)
  /-- Inheritance. -/
  | inheritance (i : Inheritance)
  deriving DecidableEq, Repr

/-- What makes a node a document. -/
structure DocumentData where
  /-- The type of the document. -/
  type : Text
  /-- Whether at most one element may stand at the top level. -/
  singleRoot : Bool
  /-- What stages have left on the document. -/
  extras : List (ExtraKind × Extra) := []
  deriving DecidableEq, Repr

/-- What makes a node an element. -/
structure ElementData where
  /-- The part of the name before the colon, or nothing. -/
  qualifier : Text
  /-- The name without it. -/
  name : Text
  /-- The identifier of its namespace, if that is a registered one. -/
  uri : Option Int := none
  /-- Whether it was written in the self-closing form. -/
  selfClosing : Bool := false
  /-- The attributes under the names with which they were added. -/
  attrs : OrderedMap Text NodeId := .empty
  deriving DecidableEq, Repr

/-- The value of an attribute. -/
inductive Value where
  /-- A fixed text. -/
  | literal (t : Text)
  /-- An expression that is evaluated when the compiled template runs. It is a leaf that belongs to
  its attribute alone: nothing changes it, nothing asks whether it is visible, and it is copied with
  the attribute. So it is a part of the value, without an identifier of its own. -/
  | expression (source engine : Text) (line : Int)
  deriving DecidableEq, Repr

/-- The fixed text of a value; nothing for an expression. -/
def Value.text : Value → Text
  | literal t => t
  | expression .. => []

/-- What makes a node an attribute. -/
structure AttributeData where
  /-- The part of the name before the colon, or nothing. -/
  qualifier : Text
  /-- The name without it. -/
  name : Text
  /-- The identifier of its namespace, if that is a registered one. -/
  uri : Option Int := none
  /-- The value. -/
  value : Value := .literal []
  /-- The element it was added to. -/
  owner : Option NodeId := none
  deriving DecidableEq, Repr

/-- What a node is. -/
inductive Payload where
  /-- A whole template. -/
  | document (d : DocumentData)
  /-- An element. -/
  | element (e : ElementData)
  /-- An attribute of an element. -/
  | attr (a : AttributeData)
  /-- A run of character data and expressions. -/
  | text
  /-- Character data, ready for output. -/
  | cdata (data : Text)
  /-- An expression in character data, with the name of the engine that compiles it. -/
  | expression (source engine : Text)
  /-- A fragment of output: plain, or program code that is written between delimiters. -/
  | code (plain : Bool) (content : Text)
  deriving DecidableEq, Repr

/-- A name with the part before its colon. -/
def qualified (qualifier name : Text) : Text :=
  if qualifier = [] then name else qualifier ++ ":" ++ name

/-- The full name of an element. -/
def ElementData.full (e : ElementData) : Text := qualified e.qualifier e.name

/-- The full name of an attribute. -/
def AttributeData.full (a : AttributeData) : Text := qualified a.qualifier a.name

namespace Payload

/-- The name of a node in messages: its own, or one for its kind. -/
def label : Payload → Text
  | document _ => "#document"
  | element e => e.full
  | attr a => a.full
  | text => "#text"
  | cdata _ => "#cdata"
  | expression .. => "#expression"
  | code .. => "#code"

/-- The name of the kind of a node. -/
def kind : Payload → Text
  | document _ => "Document"
  | element _ => "Element"
  | attr _ => "Attribute"
  | text => "Text"
  | cdata _ => "Cdata"
  | expression .. => "Expression"
  | code .. => "Code"

/-- Whether a node of this kind can have children. -/
def isContainer : Payload → Bool
  | document _ | element _ | text => true
  | _ => false

/-- Whether this is an element. -/
def isElement : Payload → Bool
  | element _ => true
  | _ => false

end Payload

/-- The links of a node: where it stands, and the ends of the list of its children. -/
@[ext] structure Links where
  /-- The node it is a child of. -/
  parent : Option NodeId := none
  /-- The sibling in front of it. -/
  previous : Option NodeId := none
  /-- The sibling behind it. -/
  next : Option NodeId := none
  /-- Its first child. -/
  first : Option NodeId := none
  /-- Its last child. -/
  last : Option NodeId := none
  /-- The number of its children. -/
  count : Nat := 0
  deriving DecidableEq, Repr

/-- The links of a node that was taken out of its parent. -/
def Links.alone (l : Links) : Links := { l with parent := none, previous := none, next := none }

/-- The links of a node whose children were taken away. -/
def Links.childless (l : Links) : Links := { l with first := none, last := none, count := 0 }

/-- A node. -/
structure Node where
  /-- What the node is. -/
  payload : Payload
  /-- Where it stands. -/
  links : Links := {}
  /-- Whether it takes part in the output. -/
  visible : Bool := false
  /-- The source line it came from; 0 if there is none. -/
  line : Int := 0
  deriving DecidableEq, Repr

/-- The nodes of a compilation. -/
structure Store where
  /-- The nodes in the order of their identifiers. -/
  nodes : Array Node := #[]
  deriving DecidableEq, Repr

namespace Store

/-- The node with the given identifier. -/
def get? (s : Store) (n : NodeId) : Option Node := s.nodes[n]?

/-- The store with a further node, and its identifier. -/
def add (s : Store) (node : Node) : NodeId × Store := (s.nodes.size, ⟨s.nodes.push node⟩)

/-- The store with one node changed. -/
def modify (s : Store) (n : NodeId) (f : Node → Node) : Store := ⟨s.nodes.modify n f⟩

/-- What a node is. -/
def payload? (s : Store) (n : NodeId) : Option Payload := (s.get? n).map (·.payload)

/-- The links of a node. -/
def links (s : Store) (n : NodeId) : Links := ((s.get? n).map (·.links)).getD {}

/-- The parent of a node. -/
def parent? (s : Store) (n : NodeId) : Option NodeId := (s.links n).parent

/-- The sibling in front of a node. -/
def previous? (s : Store) (n : NodeId) : Option NodeId := (s.links n).previous

/-- The sibling behind a node. -/
def next? (s : Store) (n : NodeId) : Option NodeId := (s.links n).next

/-- The first child of a node. -/
def firstChild? (s : Store) (n : NodeId) : Option NodeId := (s.links n).first

/-- The last child of a node. -/
def lastChild? (s : Store) (n : NodeId) : Option NodeId := (s.links n).last

/-- The number of children of a node. -/
def childCount (s : Store) (n : NodeId) : Nat := (s.links n).count

/-- Whether a node has children. -/
def hasChildren (s : Store) (n : NodeId) : Bool := 0 < s.childCount n

/-- The first `limit` nodes from the given one on, each the next sibling of the one before. -/
def nextChain (s : Store) : Nat → Option NodeId → List NodeId
  | 0, _ => []
  | _ + 1, none => []
  | limit + 1, some n => n :: s.nextChain limit (s.next? n)

/-- The children of a node in order. No chain of siblings is longer than the number of nodes. -/
def children (s : Store) (n : NodeId) : List NodeId := s.nextChain s.nodes.size (s.firstChild? n)

/-- Whether a node takes part in the output. -/
def isVisible (s : Store) (n : NodeId) : Bool := ((s.get? n).map (·.visible)).getD false

/-- The source line of a node. -/
def line (s : Store) (n : NodeId) : Int := ((s.get? n).map (·.line)).getD 0

/-- The data of a document. -/
def document? (s : Store) (n : NodeId) : Option DocumentData :=
  match s.payload? n with
  | some (.document d) => some d
  | _ => none

/-- The data of an element. -/
def element? (s : Store) (n : NodeId) : Option ElementData :=
  match s.payload? n with
  | some (.element e) => some e
  | _ => none

/-- The data of an attribute. -/
def attr? (s : Store) (n : NodeId) : Option AttributeData :=
  match s.payload? n with
  | some (.attr a) => some a
  | _ => none

/-- Whether a node is an element. -/
def isElement (s : Store) (n : NodeId) : Bool := (s.element? n).isSome

/-- Whether a node can have children. -/
def isContainer (s : Store) (n : NodeId) : Bool :=
  ((s.payload? n).map Payload.isContainer).getD false

/-- The name of a node in messages. -/
def label (s : Store) (n : NodeId) : Text := ((s.payload? n).map Payload.label).getD "#unknown"

/-- The namespace identifier of an element or attribute. -/
def uri? (s : Store) (n : NodeId) : Option Int :=
  match s.payload? n with
  | some (.element e) => e.uri
  | some (.attr a) => a.uri
  | _ => none

/-- Whether a node has neither parent nor siblings. -/
def isDetached (s : Store) (n : NodeId) : Bool :=
  (s.parent? n).isNone && (s.next? n).isNone && (s.previous? n).isNone

/-- The store with the links of a node changed. -/
def relink (s : Store) (n : NodeId) (f : Links → Links) : Store :=
  s.modify n fun node => { node with links := f node.links }

/-- The store with the payload of a node replaced. -/
def setPayload (s : Store) (n : NodeId) (p : Payload) : Store :=
  s.modify n fun node => { node with payload := p }

/-- The store with an element changed; nothing changes if the node is no element. -/
def modifyElement (s : Store) (n : NodeId) (f : ElementData → ElementData) : Store :=
  match s.element? n with
  | some e => s.setPayload n (.element (f e))
  | none => s

/-- The store with an attribute changed; nothing changes if the node is no attribute. -/
def modifyAttr (s : Store) (n : NodeId) (f : AttributeData → AttributeData) : Store :=
  match s.attr? n with
  | some a => s.setPayload n (.attr (f a))
  | none => s

/-- The store with a document changed; nothing changes if the node is no document. -/
def modifyDocument (s : Store) (n : NodeId) (f : DocumentData → DocumentData) : Store :=
  match s.document? n with
  | some d => s.setPayload n (.document (f d))
  | none => s

/-- The store with a node made visible or invisible. -/
def setVisible (s : Store) (n : NodeId) (v : Bool) : Store :=
  s.modify n fun node => { node with visible := v }

/-- The store with the source line of a node replaced. -/
def setLine (s : Store) (n : NodeId) (l : Int) : Store :=
  s.modify n fun node => { node with line := l }

/-! ### Reading after a change -/

@[simp] theorem get?_modify (s : Store) (n m : NodeId) (f : Node → Node) :
    (s.modify n f).get? m = if n = m then (s.get? m).map f else s.get? m := by
  simp [modify, get?, Array.getElem?_modify]

/-- A new node is found under its identifier, and every other node as before. -/
theorem get?_add (s : Store) (node : Node) (m : NodeId) :
    (s.add node).2.get? m = if m = (s.add node).1 then some node else s.get? m := by
  simp only [add, get?, Array.getElem?_push]
  split <;> simp_all

end Store

end Stencil.Tree
