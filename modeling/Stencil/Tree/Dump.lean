import Stencil.Code.Table
import Stencil.Text.Escape
import Stencil.Tree.Attributes

/-!
# Dumps

A dump shows a tree as markup: one entry per node, with its attributes, and on request with the code
buffers and properties that are attached to it. Entries are indented by their depth, and an entry
with nothing inside is written as a single tag. Every tag stands in a line of its own, except that
short text stands between its tags, so a dump is a list of lines.

## Main definitions

* `Dump.Tables` – what is shown besides the nodes;
* `Dump.node` – the lines of a node; `Store.dump` – the dump of a tree.
-/

namespace Stencil.Tree.Dump

open Code (Buffers Properties Table Slot)

/-- What is shown besides the nodes. -/
structure Tables where
  /-- The code buffers. -/
  buffers : Table Buffers := {}
  /-- The properties. -/
  properties : Table Properties := {}

/-- A named value in an entry. -/
structure Field where
  /-- The name. -/
  name : Text
  /-- The value. -/
  value : Text
  deriving DecidableEq, Repr

/-- A field in a tag. -/
def Field.text (f : Field) : Text := " " ++ f.name ++ "=\"" ++ f.value.escapeAttribute ++ "\""

/-- The field for the visibility of a node. -/
def visibility (s : Store) (n : NodeId) : Field := ⟨"visible", Text.ofBool (s.isVisible n)⟩

/-- The indentation of an entry at a depth. -/
def indentation (indent : Text) (depth : Nat) : Text := (List.replicate depth indent).flatten

/-- The beginning of a tag. -/
def startTag (tag : Text) (fields : List Field) : Text :=
  "<" ++ tag ++ fields.flatMap Field.text

/-- A line with text inside. -/
def line (tag : Text) (field : Field) (content : Text) : Text :=
  startTag tag [field] ++ ">" ++ content.escapeCharacters true ++ "</" ++ tag ++ ">\n"

/-- The lines of an entry at a depth, given the lines inside it. -/
def entry (indent : Text) (depth : Nat) (tag : Text) (fields : List Field) (inner : List Text) :
    List Text :=
  let start := indentation indent depth ++ startTag tag fields
  if inner = [] then [start ++ "/>\n"]
  else (start ++ ">\n") :: inner ++ [indentation indent depth ++ "</" ++ tag ++ ">\n"]

/-- The lines for the code buffers of a node. -/
def bufferLines (t : Tables) (n : NodeId) : List Text :=
  match t.buffers.get? n with
  | none => []
  | some b =>
    (Slot.all.filter b.hasContent).map fun s => line "buffer" ⟨"tag", s.label⟩ (b.content s)

/-- The lines for the properties of a node. -/
def propertyLines (t : Tables) (n : NodeId) : List Text :=
  match t.properties.get? n with
  | none => []
  | some p => p.names.map fun name =>
      line "property" ⟨"name", name⟩ (((p.get? name).map (·.print)).getD [])

/-- The lines for what is attached to a node, inside an entry at a depth. -/
def attached (t : Tables) (indent : Text) (depth : Nat) (n : NodeId) : List Text :=
  (bufferLines t n ++ propertyLines t n).map fun l => indentation indent (depth + 1) ++ l

/-- The field for a namespace identifier, if there is one. -/
def uriField (uri : Option Int) : List Field :=
  match uri with
  | some id => [⟨"uri", Text.ofInt id⟩]
  | none => []

/-- The fields for the value of an attribute. -/
def valueFields : Value → List Field
  | .expression source engine _ => [⟨"engine", engine⟩, ⟨"expression", source⟩]
  | .literal t => [⟨"value", t⟩]

/-- The lines of an attribute. -/
def attributeEntry (t : Tables) (s : Store) (indent : Text) (depth : Nat) (a : NodeId) :
    List Text :=
  match s.attr? a with
  | none => []
  | some d =>
    entry indent depth "attribute" ([⟨"name", d.full⟩] ++ uriField d.uri ++ valueFields d.value)
      (attached t indent depth a)

/-- The tag and the fields of the entry of a node. -/
def heading (s : Store) (n : NodeId) : Payload → Text × List Field
  | .document d => ("document", [⟨"type", d.type⟩, visibility s n])
  | .element e =>
    ("element", [⟨"name", e.full⟩] ++ uriField e.uri ++
      (if e.selfClosing then [⟨"empty", "true"⟩] else []) ++ [visibility s n])
  | .text => ("text", [visibility s n])
  | .cdata data => ("cdata", [⟨"data", data⟩, visibility s n])
  | .expression source engine =>
    ("expression", [⟨"engine", engine⟩, ⟨"source", source⟩, visibility s n])
  | .code plain content =>
    ("code", [⟨"kind", if plain then "plain" else "program"⟩, ⟨"content", content⟩, visibility s n])
  | .attr d => ("attribute", [⟨"name", d.full⟩])

/-- The lines of a node and what is below it, down to `limit` levels. -/
def node (t : Tables) (s : Store) (indent : Text) : Nat → Nat → NodeId → List Text
  | 0, _, _ => []
  | limit + 1, depth, n =>
    match s.payload? n with
    | none => []
    | some p =>
      let (tag, fields) := heading s n p
      let attributes := (s.attributes n).flatMap (attributeEntry t s indent (depth + 1))
      let children := (s.children n).flatMap (node t s indent limit (depth + 1))
      entry indent depth tag fields (attributes ++ attached t indent depth n ++ children)

/-- The indentation that is used unless another one is asked for. -/
def defaultIndent : Text := "  "

end Dump

/-- The dump of a node and what is below it. Attributes are shown only with their elements. -/
def Store.dump (s : Store) (t : Dump.Tables) (indent : Text) (root : NodeId) :
    Except TreeError Text :=
  match s.payload? root with
  | some (.attr _) => .error (.notWalkable (s.label root))
  | _ =>
    let indent := if indent = [] then Dump.defaultIndent else indent
    .ok (Dump.node t s indent s.nodes.size 0 root).flatten

end Stencil.Tree
