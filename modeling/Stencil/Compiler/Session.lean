import Stencil.Code.Table
import Stencil.Compiler.Attributes
import Stencil.Data.Action
import Stencil.Text.Basic
import Stencil.Tree.Extras
import Stencil.Tree.Subtree

/-!
# The state of a compilation

Everything that changes while a template is compiled: the nodes, the tables beside them, the
templates the result depends on, and what the instructions of the language and the linker remember.
At the end each part gives up what is its own. What nobody refers to any more is gone, and then
nothing is left but what is recorded for the user: the trace, and the journal in which instructions
and stages may leave notes.

## Main definitions

* `TraceRecord` – a record; `TraceRecord.start`, `TraceRecord.finish` – the ends of a span;
* `Expansion`, `Definitions` – definitions and the expansions under way;
* `Session` – the state; `Session.idle` – the state between compilations;
* `Session.openUnit`, `Session.closeUnit`, `Session.sweep` – the ends of a compilation;
* `Work` – actions on the state; the functions of that name read and change its parts.
-/

namespace Stencil

/-! ## Trace

While a template is compiled, the compiler records what it does: the beginning and the end of each
part of the work, and what is worth knowing in between. -/

/-- How important a record is. -/
inductive TraceLevel where
  /-- Progress. -/
  | debug
  /-- A failure. -/
  | error
  deriving DecidableEq, Repr

/-- A record of the trace. -/
structure TraceRecord where
  /-- How important it is. -/
  level : TraceLevel := .debug
  /-- What happened. -/
  message : Text
  /-- The circumstances, under their names. -/
  fields : List (Text × Text) := []
  deriving DecidableEq, Repr

namespace TraceRecord

/-- The beginning of a part of the work. -/
def start (span : Text) : TraceRecord := { message := "start", fields := [("span", span)] }

/-- The end of a part of the work. -/
def finish (span : Text) : TraceRecord := { message := "end", fields := [("span", span)] }

/-- A failure. -/
def failed (message : Text) (fields : List (Text × Text)) (reason : Text) : TraceRecord :=
  { level := .error, message, fields := fields ++ [(Text.ofString "error", reason)] }

end TraceRecord

/-! ## The session -/

open Stencil.Tree (NodeId Store)
open Code (Buffers Properties Property Slot Table)

/-- An expansion under way. -/
structure Expansion where
  /-- The name of the definition. -/
  name : Text
  /-- Which definition of that name is being expanded. -/
  index : Nat
  /-- The default content of the place of use, which serves as a further definition meanwhile. -/
  fallback : Option NodeId
  /-- Whether the expansion was asked for by another one, for the next definition of the name. -/
  nested : Bool
  deriving DecidableEq, Repr

/-- The definitions of a template and their expansions. -/
structure Definitions where
  /-- The defining elements of each name, in order. -/
  bodies : List (Text × List NodeId) := []
  /-- The arguments of each name. -/
  arguments : List (Text × List (Text × AttributeValue)) := []
  /-- The expansions under way, innermost first. -/
  active : List Expansion := []
  /-- The names of the uses under way, innermost first. -/
  uses : List Text := []
  deriving DecidableEq, Repr

namespace Definitions

/-- The definitions of a name. -/
def bodiesOf (d : Definitions) (name : Text) : List NodeId :=
  ((d.bodies.find? fun e => e.1 = name).map Prod.snd).getD []

/-- The arguments of a name, if it was defined. -/
def arguments? (d : Definitions) (name : Text) : Option (List (Text × AttributeValue)) :=
  (d.arguments.find? fun e => e.1 = name).map Prod.snd

/-- Replaces the definitions of a name. -/
def setBodies (d : Definitions) (name : Text) (bodies : List NodeId) : Definitions :=
  { d with bodies := (name, bodies) :: d.bodies.filter fun e => e.1 ≠ name }

/-- Replaces the arguments of a name. -/
def setArguments (d : Definitions) (name : Text) (arguments : List (Text × AttributeValue)) :
    Definitions :=
  { d with arguments := (name, arguments) :: d.arguments.filter fun e => e.1 ≠ name }

end Definitions

/-- The state of a compilation. -/
structure Session where
  /-- The nodes. -/
  store : Store := {}
  /-- The code buffers of nodes. -/
  buffers : Table Buffers := {}
  /-- The properties of nodes. -/
  properties : Table Properties := {}
  /-- The other templates that were read, in order. -/
  dependencies : List Text := []
  /-- The templates that can be loaded. -/
  documents : List (Text × NodeId) := []
  /-- The definitions and their expansions. -/
  definitions : Definitions := {}
  /-- Nodes that were enqueued by an instruction whose call failed, so that no stage has taken them,
  each under the name of the instruction. -/
  enqueued : List (Text × NodeId) := []
  /-- The dynamic fragments that were linked last. -/
  fragments : List Text := []
  /-- The template being worked on. -/
  current : Text := []
  /-- Whether a compilation is under way. -/
  running : Bool := false
  /-- Whether the work is to be given up. -/
  canceled : Bool := false
  /-- What was recorded, latest first. -/
  trace : List TraceRecord := []
  /-- What instructions and stages noted, latest first. -/
  journal : List Text := []

/-- The state between compilations: only what was recorded is left, and whether work is to be given
up. -/
def Session.idle (s : Session) : Session :=
  { canceled := s.canceled, trace := s.trace, journal := s.journal }

namespace Session

/-- A compilation begins with empty tables and without dependencies. -/
def openUnit (s : Session) : Session :=
  { s with buffers := {}, properties := {}, dependencies := [], running := true }

/-- A compilation ends: its tables and dependencies are given up. -/
def closeUnit (s : Session) : Session :=
  { s with buffers := {}, properties := {}, dependencies := [], current := [], running := false }

/-- Forgets the nodes that an instruction has enqueued. -/
def forgetEnqueued (label : Text) (s : Session) : Session :=
  { s with enqueued := s.enqueued.filter fun e => e.1 ≠ label }

/-- Whether anything refers to nodes. -/
def refersToNodes (s : Session) : Bool :=
  !s.buffers.entries.isEmpty || !s.properties.entries.isEmpty || !s.documents.isEmpty ||
    s.definitions ≠ {} || !s.enqueued.isEmpty

/-- Nodes that nothing refers to do not exist any longer. -/
def sweep (s : Session) : Session := if s.refersToNodes then s else { s with store := {} }

end Session

/-- Actions on the state of a compilation. -/
abbrev Work (α : Type) := Action Failure Session α

namespace Work

/-- The nodes. -/
def store : Work Store := do return (← get).store

/-- Changes the nodes. -/
def modifyStore (f : Store → Store) : Work Unit := modify fun s => { s with store := f s.store }

/-- Fails for a cause. -/
def fail {α : Type} (c : Cause) : Work α := throw (Failure.of c)

/-- An outcome as an action. -/
def lift {α : Type} : Except Failure α → Work α
  | .ok a => pure a
  | .error f => throw f

/-- Changes the nodes, unless the change is refused. -/
def tree (f : Store → Except Tree.TreeError Store) : Work Unit := do
  match f (← store) with
  | .ok s => modifyStore fun _ => s
  | .error e => throw (Failure.ofTree e)

/-- Changes the nodes and gives a new one. -/
def fresh (f : Store → NodeId × Store) : Work NodeId := do
  let (n, s) := f (← store)
  modifyStore fun _ => s
  return n

/-- Changes the code buffers of a node. -/
def modifyBuffers (n : NodeId) (f : Buffers → Buffers) : Work Unit :=
  modify fun s => { s with buffers := s.buffers.modify n {} f }

/-- Sets a property of a node. -/
def setProperty (n : NodeId) (name : Text) (v : Property) : Work Unit :=
  modify fun s => { s with properties := s.properties.modify n {} (·.set name v) }

/-- Removes a property of a node. -/
def eraseProperty (n : NodeId) (name : Text) : Work Unit :=
  modify fun s => { s with properties := s.properties.modify n {} (·.erase name) }

/-- A property of a node as a truth value. -/
def flag (n : NodeId) (name : Text) : Work Bool := do
  return (((← get).properties.get? n).map (·.flag name)).getD false

/-- Asks the running stage to come back to a node when it leaves it. -/
def requestReturn (n : NodeId) : Work Unit := setProperty n Properties.postprocess (.flag true)

/-- Whether the running stage was asked to come back to a node; the request is taken back. -/
def takeReturn (n : NodeId) : Work Bool := do
  let asked ← flag n Properties.postprocess
  if asked then eraseProperty n Properties.postprocess
  return asked

/-- Makes a node visible or invisible. -/
def setVisible (n : NodeId) (v : Bool) : Work Unit := modifyStore fun s => s.setVisible n v

/-- Records something. -/
def record (r : TraceRecord) : Work Unit := modify fun s => { s with trace := r :: s.trace }

/-- Leaves a note in the journal. -/
def note (t : Text) : Work Unit := modify fun s => { s with journal := t :: s.journal }

/-- Fails if the work is to be given up. -/
def checkCanceled : Work Unit := do if (← get).canceled then fail .canceled

/-- Changes the definitions. -/
def modifyDefinitions (f : Definitions → Definitions) : Work Unit :=
  modify fun s => { s with definitions := f s.definitions }

/-- An action whose failure notes the node. -/
def atNode {α : Type} (n : NodeId) (w : Work α) : Work α := fun s =>
  match w s with
  | (.ok a, s) => (.ok a, s)
  | (.error f, s) => (.error (f.atNode s.store n), s)

/-- An action of an instruction that has enqueued nodes. They stay enqueued if it fails. -/
def leaving {α : Type} (label : Text) (nodes : List NodeId) (w : Work α) : Work α := fun s =>
  match w s with
  | (.ok a, s) => (.ok a, s)
  | (.error f, s) =>
    (.error f, { s with enqueued := s.enqueued ++ nodes.map fun n => (label, n) })

/-- Enqueues nodes that an action of an instruction gives for the items of a list, behind others.
They stay enqueued if it fails for an item. -/
def enqueueEach {α : Type} (label : Text) (f : α → Work (Option NodeId)) (nodes : List NodeId) :
    List α → Work (List NodeId)
  | [] => pure nodes
  | a :: as => do
    let node ← leaving label nodes (f a)
    enqueueEach label f (nodes ++ node.toList) as

/-- The attributes of an element as demanded. -/
def extract (d : Dialect) (e : NodeId) (specs : List AttributeSpec)
    (others : Option AttributeSpec) : Work Extracted := do
  lift (extractAttributes d (← store) e specs others)

/-- The children of a node. -/
def children (n : NodeId) : Work (List NodeId) := do return (← store).children n

/-- The children of a node as a queue, if it has any. -/
def enqueueChildren (n : NodeId) : Work (Option (List NodeId)) := do
  let s ← store
  return if s.hasChildren n then some (s.children n) else none

end Work

end Stencil
