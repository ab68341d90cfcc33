import Stencil.Tree.Node

/-!
# Refused changes

Why a change to a tree can be refused, and the wording of the refusals. A refused change leaves the
tree as it was: operations give either a new store or one of these.

## Main definitions

* `TreeError`, `TreeError.message` – the refusals and their wording.
-/

namespace Stencil.Tree

/-- The operations that look for a child. -/
inductive ChildOperation where
  /-- Inserting in front of a child. -/
  | insert
  /-- Removing a child. -/
  | remove
  /-- Replacing a child. -/
  | replace
  deriving DecidableEq, Repr

/-- The name of an operation in messages. -/
def ChildOperation.label : ChildOperation → Text
  | insert => "insertBefore"
  | remove => "removeChild"
  | replace => "replaceChild"

/-- How messages refer to the child an operation looks for. -/
def ChildOperation.role : ChildOperation → Text
  | insert => "reference node"
  | remove => "node"
  | replace => "node"

/-- The ways in which a change to a tree can be refused. -/
inductive TreeError where
  /-- A node is needed and none was given. -/
  | missingNode
  /-- A document or an attribute cannot be a child. -/
  | invalidChild (child parent : Text)
  /-- A run of text takes only character data and expressions. -/
  | invalidTextChild (child : Text)
  /-- A node of this kind is not part of a walk. -/
  | notWalkable (node : Text)
  /-- A node cannot be placed below itself. -/
  | cycle (child parent : Text)
  /-- The document has a root element already. -/
  | secondRoot (element : Text)
  /-- Several elements cannot become the top level of the document. -/
  | severalRoots (source : Text)
  /-- The node is not a child of the container. -/
  | notAChild (operation : ChildOperation) (node : Text)
  /-- The container has no child at the position. -/
  | noSuchChild (operation : ChildOperation) (index : Int)
  /-- Children can be moved only to an empty container. -/
  | destinationNotEmpty (source destination : Text)
  /-- The element has an attribute of that name already. -/
  | duplicateAttribute (element name : Text)
  /-- The element has no attribute of that name. -/
  | attributeNotFound (name element : Text)
  /-- Elements have names. -/
  | emptyElementName
  /-- Attributes have names. -/
  | emptyAttributeName
  /-- The offset lies outside the character data. -/
  | offsetOutOfRange (offset : Int) (length : Nat)
  /-- A count is not negative. -/
  | countOutOfRange (count : Int)
  /-- Nothing of that kind was left on the document. -/
  | unknownExtra (kind : ExtraKind)
  /-- What was left on the document is something else; `found` names its type. -/
  | extraType (kind : ExtraKind) (found : Text)
  deriving DecidableEq, Repr

/-- The wording of a refusal. -/
def TreeError.message : TreeError → Text
  | missingNode => "nil node"
  | invalidChild child parent =>
    "cannot add " ++ child.quoted ++ " to " ++ parent.quoted ++ ": node type not allowed here"
  | invalidTextChild child =>
    "text nodes accept only character data and expressions, got " ++ child.quoted ++
      ": node type not allowed here"
  | notWalkable node => "cannot walk over " ++ node.quoted ++ ": node type not allowed here"
  | cycle child parent =>
    "cannot add " ++ child.quoted ++ " to " ++ parent.quoted ++
      ": node cannot become a descendant of itself"
  | secondRoot element =>
    "cannot add another root node to the document, the problematic node is " ++ element.quoted ++
      ": document already has a root element"
  | severalRoots source =>
    "cannot move children of " ++ source.quoted ++
      " to the document: document already has a root element"
  | notAChild operation node =>
    "cannot perform " ++ operation.label ++ "(): " ++ operation.role ++ " " ++ node.quoted ++
      ": node is not a child of this node"
  | noSuchChild operation index =>
    "cannot perform " ++ operation.label ++ "(): position " ++ Text.ofInt index ++
      ": no child at the given position"
  | destinationNotEmpty source destination =>
    "cannot move children of " ++ source.quoted ++ " to " ++ destination.quoted ++
      ": destination node is not empty"
  | duplicateAttribute element name =>
    "cannot add an attribute: the element " ++ element.quoted ++
      " has already got an attribute called " ++ name.quoted ++ ": duplicate attribute"
  | attributeNotFound name element =>
    "attribute " ++ name.quoted ++ " in " ++ element.quoted ++ ": attribute not found"
  | emptyElementName => "element name: name cannot be empty"
  | emptyAttributeName => "attribute name: name cannot be empty"
  | offsetOutOfRange offset length =>
    "offset " ++ Text.ofInt offset ++ ", length " ++ Text.ofNat length ++ ": offset out of range"
  | countOutOfRange count => "count " ++ Text.ofInt count ++ ": offset out of range"
  | unknownExtra kind =>
    "extra node " ++ kind.label.quoted ++ ": document extra node is not defined"
  | extraType kind found =>
    "extra node " ++ kind.label.quoted ++ " is " ++ found ++
      ": document extra node has unexpected type"

end Stencil.Tree
