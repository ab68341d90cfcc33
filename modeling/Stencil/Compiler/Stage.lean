import Stencil.Compiler.Instruction
import Stencil.Tree.Walk

/-!
# Stages

Both stages walk over a document and call the instructions that registered for its elements and
attributes. They differ in what they do with everything else.

* Changing the tree concerns only instructions. Elements in a registered namespace belong to their
  instruction alone; of other elements the attributes are offered to the instructions, and their
  children are visited.
* Generating code makes what is visited visible and compiles the expressions in it: those in
  character data and those in attribute values. What is not visited stays invisible.

In both stages an element in a registered namespace for which no instruction registered is passed
over with everything below it.

## Main definitions

* `Stage.manipulation`, `Stage.processing` – the visitors;
* `Stage.run` – a stage at work on a document.
-/

namespace Stencil

open Stencil.Tree (NodeId Visitor)
open Code (Properties Buffers)

namespace Stage

/-- What the stages know: the dialect and who is called for what. -/
structure Environment where
  /-- The namespaces and engines. -/
  dialect : Dialect
  /-- The registered instructions. -/
  registry : Registry

variable (env : Environment)

/-- The element hooks that are registered for a node. -/
def elementHooks? (k : StageKind) (n : NodeId) : Work (Option ElementHooks) := do
  match (← Work.store).element? n with
  | some e => return env.registry.element? k e.uri e.name
  | none => return none

/-- The attribute hooks that are registered for an attribute. -/
def attributeHooks? (k : StageKind) (a : NodeId) : Work (Option AttributeHooks) := do
  match (← Work.store).attr? a with
  | some d => return env.registry.attribute? k d.uri d.name
  | none => return none

/-- Enters an element in a registered namespace. -/
def enterInstruction (k : StageKind) (n : NodeId) : Work (Option (List NodeId)) := do
  match ← elementHooks? env k n with
  | none => return none
  | some hooks => Work.atNode n (hooks.enter n)

/-- Calls the instruction of an element again, if it asked for that. -/
def returnToElement (k : StageKind) (n : NodeId) : Work Unit := do
  if ← Work.takeReturn n then
    match ← elementHooks? env k n with
    | some hooks => Work.atNode n (hooks.leave n)
    | none => pure ()

/-- Calls the instruction of an attribute again, if it asked for that. -/
def returnToAttribute (k : StageKind) (n a : NodeId) : Work Unit := do
  if ← Work.takeReturn a then
    match ← attributeHooks? env k a with
    | some hooks => Work.atNode a (hooks.leave n a)
    | none => pure ()

/-- Leaves a node: whoever asked for it is called again, first for the element, then for its
attributes in order. -/
def leaveElement (k : StageKind) (n : NodeId) : Work Unit := do
  returnToElement env k n
  ((← Work.store).attributes n).forM (returnToAttribute env k n)

/-- Leaves a node; only elements concern instructions. -/
def leave (k : StageKind) (n : NodeId) : Work Unit := do
  if (← Work.store).isElement n then leaveElement env k n

/-! ### Changing the tree -/

/-- Offers the attributes of an ordinary element to the instructions. -/
def offerAttributes (n : NodeId) : Work Unit := do
  ((← Work.store).attributes n).forM fun a => do
    match ← attributeHooks? env .manipulation a with
    | some hooks => Work.atNode a (hooks.enter n a)
    | none => pure ()

/-- Enters a node to change the tree. -/
def manipulate (n : NodeId) : Work (Option (List NodeId)) := do
  match (← Work.store).payload? n with
  | some (.document _) => Work.enqueueChildren n
  | some (.element e) =>
    if e.uri.isSome then enterInstruction env .manipulation n
    else
      offerAttributes env n
      Work.enqueueChildren n
  | _ => return none

/-- The visitor that changes the tree. -/
def manipulation : Visitor Failure Session where
  store s := s.store
  refuse := Failure.ofTree
  enter := manipulate env
  leave := leave env .manipulation

/-! ### Generating code -/

/-- Compiles the value of an attribute, if it is an expression. -/
def processValue (a : NodeId) : Work Unit := do
  match ((← Work.store).attr? a).map Tree.AttributeData.value with
  | some (.expression source engine _) =>
    let compiled ← Work.atNode a (Work.lift (env.dialect.compile source engine))
    Work.modifyBuffers a (·.append .attributeValue ("echo " ++ compiled.escaped ++ ";"))
    Work.modifyStore (·.setValue a (.literal []))
  | _ => pure ()

/-- Processes the attributes of an ordinary element. -/
def processAttributes (n : NodeId) : Work Unit := do
  ((← Work.store).attributes n).forM fun a => do
    match ← attributeHooks? env .processing a with
    | some hooks => Work.atNode a (hooks.enter n a)
    | none => processValue env a

/-- The code of an expression in character data. -/
def expressionCode (c : Expression.Compiled) (b : Buffers) : Buffers :=
  match c.kind with
  | .assignment => b.append .content (c.bare ++ ";")
  | .scalar => (b.append .content ("echo " ++ c.escaped ++ ";")).setStatic true
  | .value => (b.append .content ("echo " ++ c.escaped ++ ";")).setStatic false

/-- Enters a node to generate code. -/
def process (n : NodeId) : Work (Option (List NodeId)) := do
  match (← Work.store).payload? n with
  | some (.element e) =>
    if e.uri.isSome then enterInstruction env .processing n
    else
      Work.setVisible n true
      processAttributes env n
      Work.enqueueChildren n
  | some (.document _) | some .text =>
    Work.setVisible n true
    Work.enqueueChildren n
  | some (.expression source engine) =>
    Work.setVisible n true
    let compiled ← Work.atNode n (Work.lift (env.dialect.compile source engine))
    Work.modifyBuffers n (expressionCode compiled)
    return none
  | _ =>
    Work.setVisible n true
    return none

/-- The visitor that generates code. -/
def processing : Visitor Failure Session where
  store s := s.store
  refuse := Failure.ofTree
  enter := process env
  leave := leave env .processing

/-! ### Stages at work -/

/-- The visitor of a stage. -/
def visitor : StageKind → Visitor Failure Session
  | .manipulation => manipulation env
  | .processing => processing env

/-- A stage at work on a document, within a number of steps. -/
def run (k : StageKind) (steps : Nat) (doc : NodeId) : Process Failure Session Unit := fun s =>
  let s := { s with trace := .start k.name :: s.trace }
  match (visitor env k).walk steps (some doc) s with
  | none => none
  | some (r, s) => some (r, { s with trace := .finish k.name :: s.trace })

end Stage

end Stencil
