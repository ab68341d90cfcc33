import Stencil.Code.Table
import Stencil.Text.Escape
import Stencil.Tree.Attributes
import Stencil.Tree.Walk

/-!
# Linking

Linking writes a finished tree as the text of a compiled template. Invisible nodes are passed over
with everything below them. An ordinary element is written as tags with its attributes, with the
code from its buffers around and inside them. An element in a registered namespace leaves only its
code. An element in the self-closing form without children is written as a single tag.

The expressions below an element that is marked as dynamic are collected, because their values must
not be cached; those that give the same result every time are left out.

The name in an opening tag is left on its element as a property, from which the closing tag takes
it. Nothing else is changed by linking; a node without code buffers counts as one with empty ones.

## Main definitions

* `Linkable` – what is linked; `LinkOutput` – the text and the dynamic expressions;
* `Linkable.visitor` – the visitor; `Linkable.link` – linking a tree.
-/

namespace Stencil.Code

open Stencil.Tree (NodeId Store TreeError Visitor)

/-- A tree and the tables beside it. -/
structure Linkable where
  /-- The nodes. -/
  store : Store
  /-- The code buffers. -/
  buffers : Table Buffers
  /-- The properties. -/
  properties : Table Properties

/-- What was written so far. -/
structure LinkState where
  /-- The text, in pieces, the last one first. -/
  pieces : List Text := []
  /-- The code of dynamic expressions, the last one first. -/
  blocks : List Text := []
  /-- The number of open elements that are marked as dynamic. -/
  depth : Nat := 0
  /-- The properties of nodes, among them the names in the opening tags written so far. -/
  properties : Table Properties := {}

namespace LinkState

/-- Whether a node is marked as dynamic. -/
def isDynamic (s : LinkState) (n : NodeId) : Bool :=
  ((s.properties.get? n).map (·.flag Properties.dynamic)).getD false

/-- The name that was left on an element. -/
def nameOf (s : LinkState) (n : NodeId) : Text :=
  ((s.properties.get? n).getD {}).text Properties.linkName

/-- Leaves a name on an element. -/
def setName (s : LinkState) (n : NodeId) (name : Text) : LinkState :=
  { s with properties := s.properties.modify n {} (·.set Properties.linkName (.text name)) }

end LinkState

/-- The text of a compiled template and its dynamic expressions. -/
structure LinkOutput where
  /-- The text. -/
  text : Text
  /-- The code of the dynamic expressions in order. -/
  dynamic : List Text
  deriving DecidableEq, Repr

namespace Linkable

variable (l : Linkable)

/-- The code buffers of a node. -/
def buffersOf (n : NodeId) : Buffers := (l.buffers.get? n).getD {}

/-- The code in some places of a node. -/
def code (n : NodeId) (slots : List Slot) : Text := (l.buffersOf n).link slots

/-- Whether an element is written as a single tag. -/
def isSingle (n : NodeId) : Bool :=
  !l.store.hasChildren n && ((l.store.element? n).map (·.selfClosing)).getD false

/-! ### Tags -/

/-- The name of an element in its tags; code takes precedence over the name itself. -/
def tagName (n : NodeId) : Text :=
  if (l.buffersOf n).hasContent .name then l.code n [.name] else l.store.label n

/-- The content of a place of `b`, or else a fixed text. -/
def codeOr (b : Buffers) (s : Slot) (t : Text) : Text := if b.hasContent s then b.link [s] else t

/-- An attribute in a tag; nothing for an attribute in a registered namespace. -/
def attributeText (a : NodeId) : Text :=
  match l.store.attr? a with
  | none => []
  | some d =>
    if d.uri.isSome then []
    else
      let value := d.value.text.escapeValue
      match l.buffers.get? a with
      | none => " " ++ d.full ++ "=\"" ++ value ++ "\""
      | some b =>
        b.link [.attributeBegin] ++ " " ++ codeOr b .attributeName d.full ++ "=\"" ++
          codeOr b .attributeValue value ++ "\"" ++ b.link [.attributeEnd]

/-- The attributes of an element in its tag. -/
def attributesText (n : NodeId) : Text :=
  l.code n [.attributesBefore, .beginningAttributes] ++
    (l.store.attributes n).flatMap l.attributeText ++
    l.code n [.endingAttributes, .attributesAfter]

/-- What is written when an ordinary element is entered. -/
def openingText (n : NodeId) : Text :=
  if l.isSingle n then
    l.code n [.before, .singleBefore] ++ "<" ++ l.tagName n ++ l.attributesText n ++ " />" ++
      l.code n [.singleAfter, .after]
  else
    l.code n [.before, .openingBefore] ++ "<" ++ l.tagName n ++ l.attributesText n ++ ">" ++
      l.code n [.openingAfter, .contentBefore]

/-- What is written when an ordinary element is left, given the name in its opening tag. -/
def closingText (n : NodeId) (name : Text) : Text :=
  if l.isSingle n then []
  else
    l.code n [.contentAfter, .closingBefore] ++ "</" ++ name ++ ">" ++
      l.code n [.closingAfter, .after]

/-- What is written when an element in a registered namespace is entered. -/
def openingCode (n : NodeId) : Text :=
  if l.isSingle n then l.code n [.before, .singleBefore, .singleAfter, .after]
  else l.code n [.before, .openingBefore, .openingAfter, .contentBefore]

/-- What is written when an element in a registered namespace is left. -/
def closingCode (n : NodeId) : Text :=
  if l.isSingle n then [] else l.code n [.contentAfter, .closingBefore, .closingAfter, .after]

/-! ### Nodes -/

/-- What is written when a node is entered. -/
def enterText (n : NodeId) : Text :=
  match l.store.payload? n with
  | some (.document _) | some .text => l.code n [.before]
  | some (.element e) => if e.uri.isSome then l.openingCode n else l.openingText n
  | some (.cdata t) => l.code n [.before] ++ t
  | some (.expression ..) => l.code n [.content]
  | some (.code true t) => t
  | some (.code false t) => openDelimiter ++ t.trim ++ closeDelimiter
  | some (.attr _) | none => []

/-- What is written when a node is left, given the name that was left on it. -/
def leaveText (n : NodeId) (name : Text) : Text :=
  match l.store.payload? n with
  | some (.document _) | some .text | some (.cdata _) => l.code n [.after]
  | some (.element e) => if e.uri.isSome then l.closingCode n else l.closingText n name
  | _ => []

/-- Whether a node has an opening tag and a closing tag. -/
def hasTags (n : NodeId) : Bool :=
  match l.store.element? n with
  | some e => e.uri.isNone && !l.isSingle n
  | none => false

/-- Whether a node counts as dynamic while it is open. -/
def opensDynamic (n : NodeId) (s : LinkState) : Bool := l.store.isElement n && s.isDynamic n

/-- The dynamic expression at a node that is entered at the given depth. -/
def blockOf (n : NodeId) (depth : Nat) : List Text :=
  match l.store.payload? n with
  | some (.expression ..) =>
    if 0 < depth && l.code n [.content] != [] && !(l.buffersOf n).isStatic then
      [l.code n [.content]]
    else []
  | _ => []

/-- Enters a node. -/
def enter (n : NodeId) (s : LinkState) : LinkState :=
  let depth := if l.opensDynamic n s then s.depth + 1 else s.depth
  let s := { s with
    pieces := l.enterText n :: s.pieces, blocks := l.blockOf n depth ++ s.blocks, depth }
  if l.hasTags n then s.setName n (l.tagName n) else s

/-- Leaves a node. -/
def leave (n : NodeId) (s : LinkState) : LinkState :=
  { s with pieces := l.leaveText n (s.nameOf n) :: s.pieces
           depth := if l.opensDynamic n s then s.depth - 1 else s.depth }

/-- The visitor that links a tree. -/
def visitor : Visitor TreeError LinkState where
  store _ := l.store
  refuse := id
  skipInvisible := true
  enter n := Action.of fun s => (.ok (l.store.queue? n), l.enter n s)
  leave n := Action.of fun s => (.ok (), l.leave n s)

/-- The outcome of a state. -/
def output (s : LinkState) : LinkOutput := ⟨s.pieces.reverse.flatten, s.blocks.reverse⟩

/-- Links the tree below a node, and gives the properties as they are afterwards. The number of
steps suffices for every tree. -/
def link (root : NodeId) : Option (Except TreeError LinkOutput × Table Properties) :=
  match l.visitor.walk l.store.walkLimit (some root) { properties := l.properties } with
  | none => none
  | some (.error e, s) => some (.error e, s.properties)
  | some (.ok (), s) => some (.ok (output s), s.properties)

end Linkable

end Stencil.Code
