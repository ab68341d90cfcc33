import Stencil.Compiler.Instruction

/-!
# The namespace of the template language

All instructions of the language live in one namespace, and their elements and attributes are
registered under it.

## Main definitions

* `Language.uri` – the namespace; `Language.on` – a registration in it.
-/

namespace Stencil.Language

/-- The namespace of the language. -/
def uri : Text := "http://xml.invenzzia.org/declari"

/-- The name of the engine for expressions over the data. -/
def referenceEngine : Text := "parse"

/-- The name of the engine for fixed texts. -/
def literalEngine : Text := "str"

/-- A registration for names of the language. -/
def on (stage : StageKind) (target : Target) (names : List Text) : Registration :=
  { stage, target, uri, names }

/-- Whether an element belongs to the namespace with the given identifier and has one of the
names. -/
def isNamed (s : Tree.Store) (n : Tree.NodeId) (id : Int) (names : List Text) : Bool :=
  match s.element? n with
  | some e => e.uri == some id && names.contains e.name
  | none => false

/-- The name of an element without the part before the colon. -/
def nameOf (s : Tree.Store) (n : Tree.NodeId) : Text := ((s.element? n).map (·.name)).getD []

/-- A demand for an attribute of any text. -/
def anyText : AttributeSpec := { kind := .text }

end Stencil.Language
