import Stencil.Compiler.Session

/-!
# Instructions

An instruction takes part in the stages of a compilation. It registers for elements and attributes
of certain names in a certain namespace, and is then called when a stage enters such a node, and
again when the stage leaves it, if it asked for that. On entering an element it decides which nodes
are visited next.

The registry says who is called for what. Later registrations come before earlier ones, so an
instruction can take over a name.

## Main definitions

* `StageKind` – the stages with registered instructions;
* `ElementHooks`, `AttributeHooks`, `InheritanceHook` – what instructions do;
* `Instruction`, `Registration`, `Registry` – who is called for what;
* `Instruction.dispose`, `Registry.clear` – the end of a compilation.
-/

namespace Stencil

open Stencil.Tree (NodeId)

/-- The stages in which instructions take part. -/
inductive StageKind where
  /-- The tree is changed. -/
  | manipulation
  /-- Code is generated for the tree. -/
  | processing
  deriving DecidableEq, Repr

namespace StageKind

/-- The name of a stage. -/
def name : StageKind → Text
  | manipulation => "manipulate"
  | processing => "process"

/-- The name of the kind of a stage in messages. -/
def typeName : StageKind → Text
  | manipulation => "*declari.ManipulationStage"
  | processing => "*declari.ProcessingStage"

end StageKind

/-- What an instruction registers for. -/
inductive Target where
  /-- Elements. -/
  | elements
  /-- Attributes. -/
  | attributes
  deriving DecidableEq, Repr

/-- The name of a target in messages. -/
def Target.label : Target → Text
  | elements => "elements"
  | attributes => "attributes"

/-- What an instruction does at its elements. -/
structure ElementHooks where
  /-- Entering an element gives the nodes to visit next, if any. -/
  enter : NodeId → Work (Option (List NodeId))
  /-- Leaving an element, if that was asked for. -/
  leave : NodeId → Work Unit := fun _ => pure ()

/-- What an instruction does at its attributes. -/
structure AttributeHooks where
  /-- Entering the element of an attribute. -/
  enter : (element attr : NodeId) → Work Unit
  /-- Leaving the element of an attribute, if that was asked for. -/
  leave : (element attr : NodeId) → Work Unit := fun _ _ => pure ()

/-- What resolves references between templates. -/
structure InheritanceHook where
  /-- The template that a fresh document extends, or nothing, and the templates it loads. -/
  check : NodeId → Work (Text × List Text)
  /-- Takes a finished document that is not the output. -/
  handle : (name : Text) → NodeId → Work Unit

/-- A wish to be called for certain names in a stage. -/
structure Registration where
  /-- The stage. -/
  stage : StageKind
  /-- For elements or for attributes. -/
  target : Target
  /-- The namespace. -/
  uri : Text
  /-- The names. -/
  names : List Text
  deriving DecidableEq, Repr

/-- An instruction. -/
structure Instruction where
  /-- The name of the instruction in messages. -/
  label : Text
  /-- Namespaces that have to be registered. -/
  namespaces : List Text := []
  /-- What it wants to be called for. -/
  registrations : List Registration := []
  /-- What it does at elements in a stage. -/
  elements : StageKind → Option (Dialect → ElementHooks) := fun _ => none
  /-- What it does at attributes in a stage. -/
  attributes : StageKind → Option (Dialect → AttributeHooks) := fun _ => none
  /-- How it resolves references between templates, if it does. -/
  inheritance : Option (Dialect → InheritanceHook) := none
  /-- What it does before it registers. -/
  prepare : Session → Session := id
  /-- How it gives up what it remembers. -/
  release : Session → Session := id

/-- What an instruction does at the end of a compilation. -/
def Instruction.dispose (i : Instruction) (s : Session) : Session :=
  (i.release s).forgetEnqueued i.label

/-- Who is called for what. -/
structure Registry where
  /-- The hooks for elements, by stage, namespace and name; latest first. -/
  elements : List ((StageKind × Int × Text) × ElementHooks) := []
  /-- The hooks for attributes, by stage, namespace and name; latest first. -/
  attributes : List ((StageKind × Int × Text) × AttributeHooks) := []

namespace Registry

/-- The hooks for an element with the given namespace and name. -/
def element? (r : Registry) (k : StageKind) (uri : Option Int) (name : Text) :
    Option ElementHooks :=
  uri.bind fun u => (r.elements.find? fun e => e.1 = (k, u, name)).map Prod.snd

/-- The hooks for an attribute with the given namespace and name. -/
def attribute? (r : Registry) (k : StageKind) (uri : Option Int) (name : Text) :
    Option AttributeHooks :=
  uri.bind fun u => (r.attributes.find? fun e => e.1 = (k, u, name)).map Prod.snd

/-- Adds a registration of an instruction. -/
def register (r : Registry) (d : Dialect) (i : Instruction) (reg : Registration) :
    Except Failure Registry :=
  match reg.target with
  | .elements =>
    match i.elements reg.stage with
    | none => .error (.of (.unsupported i.label reg.target.label))
    | some hooks => do
      let id ← d.namespaceId reg.uri
      let new := reg.names.map fun n => ((reg.stage, Int.ofNat id, n), hooks d)
      return { r with elements := new.reverse ++ r.elements }
  | .attributes =>
    match i.attributes reg.stage with
    | none => .error (.of (.unsupported i.label reg.target.label))
    | some hooks => do
      let id ← d.namespaceId reg.uri
      let new := reg.names.map fun n => ((reg.stage, Int.ofNat id, n), hooks d)
      return { r with attributes := new.reverse ++ r.attributes }

/-- Removes all that is registered with a stage. -/
def clear (r : Registry) (k : StageKind) : Registry :=
  { elements := r.elements.filter fun e => e.1.1 ≠ k
    attributes := r.attributes.filter fun e => e.1.1 ≠ k }

end Registry

end Stencil
