import Stencil.Expression.Basic
import Stencil.Markup.Source
import Stencil.Text.Escape
import Stencil.Tree.Attributes
import Stencil.Tree.Characters

/-!
# From events to a tree

The tree of a template is assembled from the events of its source, one node per construct, with
these rules.

* Character data is collected over neighbouring events and put into the tree when another construct
  follows. Neighbouring runs of text become one node. Comments leave no trace.
* Character data is stored ready for output: markup characters are escaped again. A CDATA section is
  kept verbatim.
* What stands between braces in character data is an expression, unless it is blank. An attribute
  value is one if it names an engine. The engine name `null` marks a literal that only looks like an
  expression. Where engines are known, other names are taken for ordinary text.
* A name before a colon has to be bound to a namespace by an enclosing element, or by the element
  itself. The bindings of all open elements stand in one list, the latest first, and how many of
  them each open element has declared is remembered, so that as many are taken back when it is
  closed. Elements and attributes in a registered namespace carry its identifier, and the
  declarations of registered namespaces are left out of the tree.

A start tag is read completely before anything of it enters the tree. A refused event therefore
leaves nothing of its own behind, and the part of the tree that was assembled before it is there.

## Main definitions

* `Resolver` – what the surrounding compiler knows about namespaces and engines;
* `Assembly.Opening` – what a start tag stands for;
* `Assembly` – a tree under construction; `Assembly.receive` – taking one event;
* `AssemblyError` – refused events; `Tree.ofSource` – the tree of a source.
-/

namespace Stencil.Tree

open Markup (Event Located QName Attr Tag)

/-- What is known about namespaces and engines while a tree is assembled. -/
structure Resolver where
  /-- The identifier of a registered namespace. -/
  namespaceId : Text → Option Int
  /-- Whether an engine of that name exists. -/
  hasEngine : Text → Bool
  /-- The engine of expressions that name none. -/
  defaultEngine : Text

/-- Why an event was refused. -/
inductive AssemblyError where
  /-- The element's name uses a prefix without binding. -/
  | unboundElement (element : Text)
  /-- The attribute's name uses a prefix without binding. -/
  | unboundAttribute (element name : Text)
  /-- The attribute declares no namespace although it has to. -/
  | invalidDeclaration (name : Text)
  /-- The tree does not take the node. -/
  | tree (e : TreeError)
  deriving DecidableEq, Repr

/-- The wording of a refusal. -/
def AssemblyError.message : AssemblyError → Text
  | unboundElement element => "element " ++ element.quoted ++ ": namespace prefix is not bound"
  | unboundAttribute element name =>
    "element " ++ element.quoted ++ ": attribute " ++ name.quoted ++
      ": namespace prefix is not bound"
  | invalidDeclaration name => name.quoted ++ ": invalid namespace declaration"
  | tree e => e.message

/-- Bindings of names before a colon to namespaces, the latest first. -/
abbrev Bindings := List (Text × Text)

/-- The namespace a name before a colon is bound to; no name means the default namespace. -/
def Bindings.get? (b : Bindings) (qualifier : Text) : Option Text :=
  (b.find? fun e => e.1 = qualifier).map Prod.snd

/-- The bindings that hold everywhere. -/
def Bindings.initial : Bindings := [("xml", "http://www.w3.org/XML/1998/namespace")]

/-- A tree under construction. -/
structure Assembly where
  /-- The nodes. -/
  store : Store := {}
  /-- The document, once it has been started. -/
  document : Option NodeId := none
  /-- The open nodes, innermost first. -/
  opened : List NodeId := []
  /-- The bindings that hold inside the innermost open node. -/
  bindings : Bindings := []
  /-- How many of them each open node has declared, innermost first. -/
  declared : List Nat := []
  /-- Character data that is not yet in the tree, latest first. -/
  pending : List Text := []
  /-- The line on which it started. -/
  pendingLine : Nat := 0

/-! ### Declarations -/

/-- Whether an attribute declares a namespace. -/
def isDeclaration (name : QName) : Bool :=
  name.qualifier == "xmlns" || (name.qualifier == [] && name.name == "xmlns")

/-- The binding an attribute declares, if it is a declaration. -/
def binding? (a : Attr) : Except AssemblyError (Option (Text × Text)) :=
  if a.name.qualifier = [] ∧ a.name.name = "xmlns" then .ok (some ([], a.value))
  else if a.name.qualifier = "xmlns" then
    if a.value = [] ∨ a.name.name = "xmlns" then .error (.invalidDeclaration a.name.full)
    else .ok (some (a.name.name, a.value))
  else .ok none

/-- The bindings inside an element with the given attributes, behind `count` declarations, and how
many declarations there are in all. -/
def declare (count : Nat) (b : Bindings) : List Attr → Except AssemblyError (Nat × Bindings)
  | [] => .ok (count, b)
  | a :: as =>
    match binding? a with
    | .error e => .error e
    | .ok none => declare count b as
    | .ok (some entry) => declare (count + 1) (entry :: b) as

/-- The identifier of a namespace; the empty one has none. -/
def namespaceId? (r : Option Resolver) (uri : Text) : Option Int :=
  if uri = [] then none else r.bind fun r => r.namespaceId uri

/-! ### Expressions -/

/-- The engine that marks a literal. -/
def nullEngine : Text := "null"

/-- The engine a text names, if it is taken for one, and the text without it. -/
def splitExpression? (r : Option Resolver) (t : Text) : Option (Text × Text) :=
  match Expression.splitEngine? t with
  | none => none
  | some (engine, source) =>
    match r with
    | none => some (engine, source)
    | some r => if engine = nullEngine || r.hasEngine engine then some (engine, source) else none

/-- The value of an attribute with the given source. -/
def attributeValue (r : Option Resolver) (line : Nat) (t : Text) : Value :=
  match splitExpression? r t with
  | none => .literal t
  | some (engine, source) =>
    if engine = nullEngine then .literal source else .expression source engine line

/-- The pieces of character data. -/
inductive TextPiece where
  /-- Ordinary text. -/
  | plain (t : Text)
  /-- What stands between braces. -/
  | braced (t : Text)
  deriving DecidableEq, Repr

/-- The pieces of character data in order: text up to a brace, then what stands up to the next
closing brace. A brace that is not closed is ordinary text. -/
def textPieces (t : Text) : List TextPiece :=
  match _h : Text.cut? 0x7b t with
  | none => [.plain t]
  | some (before, rest) =>
    match _h' : Text.cut? 0x7d rest with
    | none => [.plain t]
    | some (inner, after) => .plain before :: .braced inner :: textPieces after
termination_by t.length
decreasing_by
  have h₁ := (Text.cut?_eq_some _h).1
  have h₂ := (Text.cut?_eq_some _h').1
  subst h₂; subst h₁
  simp only [List.length_append, List.length_cons]
  omega

/-- The number of line feeds in a text. -/
def lineFeeds (t : Text) : Nat := t.count 0xa

/-! ### Text -/

/-- Adds a fresh node to the text at the end of `p`, which is started if there is none. -/
def appendToText (s : Store) (p n : NodeId) (line : Nat) : Store :=
  let last := s.lastChild? p
  match last, last.bind s.payload? with
  | some t, some .text => s.attachLast t n
  | _, _ =>
    let (t, s) := s.add { payload := .text, line }
    (s.attachLast t n).attachLast p t

/-- Adds character data to the text at the end of `p`, which is started if there is none. -/
def appendText (s : Store) (p : NodeId) (data : Text) (line : Nat) : Store :=
  if data = [] then s
  else
    let last := s.lastChild? p
    match last, last.bind s.payload? with
    | some t, some .text => s.appendData t data.escapeContent
    | _, _ =>
      let (c, s) := s.add { payload := .cdata data.escapeContent, line }
      appendToText s p c line

/-- Adds the piece of character data that stands on the given line. -/
def appendPiece (r : Option Resolver) (p : NodeId) (line : Nat) (s : Store) : TextPiece → Store
  | .plain t => appendText s p t line
  | .braced t =>
    if t.isBlank then appendText s p ("\x7b" ++ t ++ "\x7d") line
    else
      let (engine, source) := (splitExpression? r t).getD (((r.map (·.defaultEngine)).getD []), t)
      if engine = nullEngine then appendText s p source line
      else
        let (e, s) := s.add { payload := .expression source engine, line }
        appendToText s p e line

/-- Adds pieces of character data, of which the first stands on the given line. -/
def appendPieces (r : Option Resolver) (p : NodeId) : Nat → Store → List TextPiece → Store
  | _, s, [] => s
  | line, s, piece :: pieces =>
    let t := match piece with
      | .plain t => t
      | .braced t => t
    appendPieces r p (line + lineFeeds t) (appendPiece r p line s piece) pieces

namespace Assembly

/-- The innermost open node. -/
@[inline] def current? (a : Assembly) : Option NodeId := a.opened.head?

/-- Puts the collected character data into the tree. -/
def flush (r : Option Resolver) (a : Assembly) : Assembly :=
  match a.current? with
  | none => a
  | some p =>
    let data := a.pending.reverse.flatten
    { a with pending := [], store := appendPieces r p a.pendingLine a.store (textPieces data) }

/-- Adds a fresh node at the end of the innermost open node. -/
def place (a : Assembly) (payload : Payload) (line : Nat) : Assembly :=
  match a.current? with
  | none => a
  | some p =>
    let (n, s) := a.store.add { payload, line }
    { a with store := s.attachLast p n }

/-! ### Elements -/

/-- The attribute for the attribute of a tag; nothing for the declaration of a registered
namespace. -/
def attributeOf (r : Option Resolver) (b : Bindings) (element : Text) (line : Nat) (attr : Attr) :
    Except AssemblyError (Option AttributeData) := do
  let data (uri : Option Int) (value : Value) : AttributeData :=
    { qualifier := attr.name.qualifier, name := attr.name.name, uri, value }
  if isDeclaration attr.name then
    if (namespaceId? r attr.value).isSome then return none
    return some (data none (.literal attr.value))
  let uri ←
    if attr.name.qualifier = [] then pure []
    else
      match b.get? attr.name.qualifier with
      | some uri => pure uri
      | none => throw (.unboundAttribute element attr.name.full)
  return some (data (namespaceId? r uri) (attributeValue r line attr.value))

/-- The attributes for the attributes of a tag, behind attributes with the names `seen`. No two have
the same name. -/
def attributesOf (r : Option Resolver) (b : Bindings) (element : Text) (line : Nat) :
    List Text → List Attr → Except AssemblyError (List AttributeData)
  | _, [] => .ok []
  | seen, attr :: attrs => do
    match ← attributeOf r b element line attr with
    | none => attributesOf r b element line seen attrs
    | some d =>
      if seen.contains d.full then throw (.tree (.duplicateAttribute element d.full))
      let rest ← attributesOf r b element line (d.full :: seen) attrs
      return d :: rest

/-- The namespace of an element. -/
def elementNamespace (b : Bindings) (name : QName) : Except AssemblyError Text :=
  match b.get? name.qualifier with
  | some uri => .ok uri
  | none => if name.qualifier = [] then .ok [] else .error (.unboundElement name.full)

/-- What a tag stands for. -/
structure Opening where
  /-- How many bindings it declares. -/
  declared : Nat
  /-- The bindings that hold inside the element. -/
  bindings : Bindings
  /-- The element, still without attributes. -/
  element : ElementData
  /-- Its attributes, which differ in their names. -/
  attrs : List AttributeData

/-- What a tag stands for where the given bindings hold. -/
def openingOf (r : Option Resolver) (line : Nat) (tag : Tag) (b : Bindings) :
    Except AssemblyError Opening := do
  let (declared, b) ← declare 0 b tag.attrs
  let uri ← elementNamespace b tag.name
  let attrs ← attributesOf r b tag.name.full line [] tag.attrs
  let element : ElementData :=
    { qualifier := tag.name.qualifier, name := tag.name.name, uri := namespaceId? r uri
      selfClosing := tag.selfClosing }
  return ⟨declared, b, element, attrs⟩

/-- Adds an element with its attributes. Their identifiers follow that of the element. -/
def addElement (s : Store) (o : Opening) (line : Nat) : NodeId × Store :=
  let n := s.nodes.size
  let table := ⟨o.attrs.mapIdx fun i d => (d.full, n + 1 + i)⟩
  let (e, s) := s.add { payload := .element { o.element with attrs := table }, line }
  (e, o.attrs.foldl (fun s d => (s.add { payload := .attr { d with owner := some n }, line }).2) s)

/-- Whether a further element cannot be placed in `p`. -/
def hasOnlyRoot (s : Store) (p : NodeId) : Bool := s.hasSingleRoot p && (s.rootElement? p).isSome

/-- Makes an element the innermost open node. -/
def enter (a : Assembly) (e : NodeId) (o : Opening) : Assembly :=
  { a with
    opened := e :: a.opened
    bindings := o.bindings
    declared := o.declared :: a.declared }

/-- Closes the innermost open node and takes back what it has declared. -/
def leave (a : Assembly) : Assembly :=
  { a with
    opened := a.opened.tail
    bindings := a.bindings.drop (a.declared.headD 0)
    declared := a.declared.tail }

/-- Starts an element. -/
def startElement (r : Option Resolver) (line : Nat) (tag : Tag) (a : Assembly) :
    Except AssemblyError Unit × Assembly :=
  match openingOf r line tag a.bindings with
  | .error err => (.error err, a)
  | .ok o =>
    match a.current? with
    | none =>
      let (e, s) := addElement a.store o line
      (.ok (), { a with store := s }.enter e o)
    | some p =>
      if hasOnlyRoot a.store p then (.error (.tree (.secondRoot o.element.full)), a)
      else
        let (e, s) := addElement a.store o line
        (.ok (), { a with store := s.attachLast p e }.enter e o)

/-! ### Events -/

/-- Starts the document. -/
def startDocument (line : Nat) (a : Assembly) : Assembly :=
  let (d, s) := a.store.add { payload := .document { type := "xml", singleRoot := true }, line }
  { a with
    store := s
    document := some d
    opened := d :: a.opened
    bindings := .initial ++ a.bindings
    declared := 1 :: a.declared }

/-- The payload of a processing instruction: program code if it is addressed to the language of
the compiled template, and plain output otherwise. -/
def instructionPayload (target data : Text) : Payload :=
  if target = "php" then .code false data
  else if data = [] then .code true ("<?" ++ target ++ "?>")
  else .code true ("<?" ++ target ++ " " ++ data ++ "?>")

/-- Takes the event on the given line. Character data was put into the tree before, if the event
ends it. -/
def take (r : Option Resolver) (line : Nat) (a : Assembly) :
    Event → Except AssemblyError Unit × Assembly
  | .startDocument => (.ok (), a.startDocument line)
  | .doctype raw => (.ok (), a.place (.code true raw) line)
  | .instruction target data => (.ok (), a.place (instructionPayload target data) line)
  | .characters t =>
    (.ok (), { a with pending := t :: a.pending
                      pendingLine := if a.pending = [] then line else a.pendingLine })
  | .cdata t =>
    match a.current? with
    | none => (.ok (), a)
    | some p =>
      let (c, s) := a.store.add { payload := .cdata t, line }
      (.ok (), { a with store := appendToText s p c line })
  | .startTag tag => a.startElement r line tag
  | .endTag _ | .endDocument => (.ok (), a.leave)
  | .locator | .declaration .. | .comment _ => (.ok (), a)

/-- Whether an event ends a run of collected character data. -/
def endsText : Event → Bool
  | .locator | .startDocument | .declaration .. | .characters _ => false
  | _ => true

/-- Takes one event. -/
def receive (r : Option Resolver) (e : Located) (a : Assembly) :
    Except AssemblyError Unit × Assembly :=
  let a := if endsText e.event then a.flush r else a
  a.take r e.position.line e.event

end Assembly

/-- The tree of a source, in a store that may hold other trees already, or as much of it as was
assembled before an error. -/
def ofSource [Encoding.Decoders] (r : Option Resolver) (canceled : Bool) (src : Text) (s : Store) :
    Except (Markup.ReadError AssemblyError) Unit × Assembly :=
  Markup.read (Assembly.receive r) canceled src { store := s }

end Stencil.Tree
