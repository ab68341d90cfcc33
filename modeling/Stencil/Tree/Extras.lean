import Stencil.Tree.Error

/-!
# What stages leave on a document

A document carries values for later stages, at most one per kind. Reading one as a certain type
fails if it is missing or of another type; the message then names the type that was found.

## Main definitions

* `Store.setExtra`, `Store.extra`, `Store.hasExtra`, `Store.removeExtra`;
* `Store.extraText`, `Store.extraNames`, `Store.extraContainer` – reading a value as a type.
-/

namespace Stencil.Tree

/-- The name of the type of a node in messages. -/
def Payload.typeName (p : Payload) : Text := "*node." ++ p.kind

namespace Store

/-- What was left on a document. -/
def extras (s : Store) (d : NodeId) : List (ExtraKind × Extra) :=
  ((s.document? d).map (·.extras)).getD []

/-- The value of a kind. -/
def extra? (s : Store) (d : NodeId) (kind : ExtraKind) : Option Extra :=
  ((s.extras d).find? fun e => e.1 = kind).map Prod.snd

/-- Whether there is a value of a kind. -/
def hasExtra (s : Store) (d : NodeId) (kind : ExtraKind) : Bool := (s.extra? d kind).isSome

/-- The store without the value of a kind. -/
def removeExtra (s : Store) (d : NodeId) (kind : ExtraKind) : Store :=
  s.modifyDocument d fun data => { data with extras := data.extras.filter fun e => e.1 ≠ kind }

/-- The store with the value of a kind replaced. -/
def setExtra (s : Store) (d : NodeId) (kind : ExtraKind) (value : Extra) : Store :=
  (s.removeExtra d kind).modifyDocument d fun data =>
    { data with extras := data.extras ++ [(kind, value)] }

/-- The value of a kind, or a refusal. -/
def extra (s : Store) (d : NodeId) (kind : ExtraKind) : Except TreeError Extra :=
  match s.extra? d kind with
  | some v => .ok v
  | none => .error (.unknownExtra kind)

/-- The name of the type of a value in messages. -/
def extraTypeName (s : Store) : Extra → Text
  | .node n => ((s.payload? n).map Payload.typeName).getD "<nil>"
  | .text _ => "string"
  | .names _ => "[]string"
  | .inheritance _ => "*instruction.Inheritance"

/-- The value of a kind as a text. -/
def extraText (s : Store) (d : NodeId) (kind : ExtraKind) : Except TreeError Text := do
  match ← s.extra d kind with
  | .text t => return t
  | v => throw (.extraType kind (s.extraTypeName v))

/-- The value of a kind as a list of names; empty if it is none. -/
def extraNames (s : Store) (d : NodeId) (kind : ExtraKind) : List Text :=
  match s.extra? d kind with
  | some (.names ts) => ts
  | _ => []

/-- The value of a kind as a node that can have children. -/
def extraContainer (s : Store) (d : NodeId) (kind : ExtraKind) : Except TreeError NodeId := do
  let v ← s.extra d kind
  match v with
  | .node n => if s.isContainer n then return n else throw (.extraType kind (s.extraTypeName v))
  | _ => throw (.extraType kind (s.extraTypeName v))

end Store

end Stencil.Tree
