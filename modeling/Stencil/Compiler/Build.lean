import Stencil.Code.Link
import Stencil.Compiler.Basic
import Stencil.Compiler.Source

/-!
# Building a template

A template may extend another one and load others. Building works off a queue of templates to read.
A template that loads others is parked until those are finished; when the queue is empty, the parked
template that was parked last and whose loads are all finished is taken up again. Finishing a
template means to run the stages over it. A loaded template is then handed over to whoever resolves
references; one that extends another is handed over too, and the other is queued; any other is the
output.

Names that lead back to themselves are noticed in three places: when a template loads one that led
to it, when it extends one that led to it, and when the parked templates wait for each other.

The loop counts its rounds, as the walks of the stages count their steps, and has no answer if the
number it was given does not suffice.

## Main definitions

* `Session.linkable` – what the linker reads; `xmlLinker` – the linker;
* `Request`, `Parked`, `Agenda` – what is to be done;
* `Compiler.takeUp`, `Compiler.finish` – one template;
* `Compiler.rounds` – the loop; `Compiler.buildIn`, `Compiler.build` – a whole template, with a
  compiler that was used before and with a new one;
* `Compiler.compile` – building a template and storing the outcome.
-/

namespace Stencil

open Stencil.Tree (NodeId)

/-! ## Writing templates

The linker for markup writes the finished document of a session with the code that was generated
for it. -/

/-- The nodes of a session and the tables beside them. -/
def Session.linkable (s : Session) : Code.Linkable := ⟨s.store, s.buffers, s.properties⟩

/-- The record of a finished link. -/
def TraceRecord.linked (o : Code.LinkOutput) : TraceRecord :=
  { message := "linked"
    fields := [("bytes", Text.ofNat o.text.length), ("dynamic", Text.ofNat o.dynamic.length)] }

/-- The linker for markup. -/
def xmlLinker : Linker where
  link doc := fun s =>
    let s := { s with trace := .start "link" :: s.trace }
    match s.linkable.link doc with
    | none => none
    | some (.error e, properties) =>
      let f := Failure.ofTree e
      some (.error f, { s with
        properties, trace := .finish "link" :: .failed "link failed" [] f.message :: s.trace })
    | some (.ok o, properties) =>
      some (.ok (o.text, o.dynamic), { s with
        properties, fragments := o.dynamic, trace := .finish "link" :: .linked o :: s.trace })
  dispose s := { s with fragments := [] }

/-! ## The agenda -/

/-- A template to be read. -/
structure Request where
  /-- The name of the template. -/
  name : Text
  /-- Whether it is loaded by another one. -/
  isLoaded : Bool := false
  /-- The templates that led to it, and itself. -/
  chain : List Text
  deriving DecidableEq, Repr

/-- A template that waits for others. -/
structure Parked where
  /-- The request for it. -/
  request : Request
  /-- Its document. -/
  doc : NodeId
  /-- The template it extends; empty if it extends none. -/
  extended : Text
  /-- The templates it waits for. -/
  waits : List Text
  deriving DecidableEq, Repr

/-- What is to be done, and what was done. -/
structure Agenda where
  /-- The template that is built. -/
  main : Text
  /-- The templates to be read, in order. -/
  queue : List Request
  /-- The parked templates, the last one first. -/
  parked : List Parked := []
  /-- The templates that were requested. -/
  scheduled : List Text
  /-- The templates that were finished. -/
  finished : List Text := []
  /-- The document that is the output. -/
  output : Option NodeId := none
  deriving DecidableEq, Repr

namespace Agenda

/-- The agenda for a template. -/
def start (main : Text) : Agenda :=
  { main, queue := [{ name := main, chain := [main] }], scheduled := [main] }

/-- Whether nothing is left to be done. -/
def isDone (a : Agenda) : Bool := a.queue.isEmpty && a.parked.isEmpty

/-- Whether a parked template waits no longer. -/
def isReady (a : Agenda) (p : Parked) : Bool := p.waits.all a.finished.contains

/-- Queues the templates that a request loads, unless they were requested before, and gives those it
has to wait for. -/
def requestLoads (r : Request) : List Text → Agenda → Except Failure (List Text × Agenda)
  | [], a => .ok ([], a)
  | name :: names, a =>
    if r.chain.contains name then .error (.of (.recursion ⟨.load, r.chain ++ [name]⟩))
    else if a.finished.contains name then requestLoads r names a
    else
      let a := if a.scheduled.contains name then a
        else { a with scheduled := name :: a.scheduled
                      queue := a.queue ++ [{ name, isLoaded := true, chain := r.chain ++ [name] }] }
      match requestLoads r names a with
      | .error f => .error f
      | .ok (waits, a) => .ok (name :: waits, a)

/-- The failure of parked templates that wait for each other, shown by the last one. -/
def deadlock (a : Agenda) : Failure :=
  match a.parked with
  | [] => .of (.noOutput a.main)
  | p :: _ =>
    .of (.recursion ⟨.load,
      p.request.chain ++ (p.waits.find? fun n => !a.finished.contains n).toList⟩)

end Agenda

namespace Compiler

/-- Runs one stage over a document and gives the document that it made. -/
def runStage (env : Stage.Environment) (steps : Nat) (doc : NodeId) (stage : StageOf) :
    Process Failure Session NodeId := do
  Work.checkCanceled.toProcess
  Process.mapError (Failure.within (.stage stage.name)) do
    match stage with
    | .standard k =>
      Stage.run env k steps doc
      return doc
    | .custom s => (s.process doc).toProcess

/-- Runs the stages over a document. -/
def runStages (c : Compiler) (env : Stage.Environment) (steps : Nat) (doc : NodeId) :
    Process Failure Session NodeId :=
  c.stages.foldlM (runStage env steps) doc

/-- Gives a finished document to whoever resolves references. -/
def handOver (c : Compiler) (name : Text) (doc : NodeId) : Work Unit :=
  match c.inheritance? with
  | none => Work.fail (.noInheritance name)
  | some hook => hook.handle name doc

/-- The document that is the output: the content of the snippet that was left on the finished one,
if any, and otherwise the finished one itself. -/
def promoteSnippet (doc : NodeId) : Work NodeId := do
  let s ← Work.store
  if !s.hasExtra doc .snippet then return doc
  else
    match s.extraContainer doc .snippet with
    | .error e => Work.fail (.invalidSnippet e)
    | .ok snippet =>
      let type := ((s.document? doc).map (·.type)).getD []
      let out ← Work.fresh (·.add { payload := .document { type, singleRoot := false } })
      Work.tree (·.moveChildren snippet (some out))
      Work.modifyStore (·.dispose doc)
      return out

/-- Finishes a template whose loads are all available. -/
def finish (c : Compiler) (env : Stage.Environment) (steps : Nat) (r : Request) (doc : NodeId)
    (extended : Text) (a : Agenda) : Process Failure Session Agenda := do
  let doc ← c.runStages env steps doc
  let a := { a with finished := r.name :: a.finished }
  if r.isLoaded then
    (c.handOver r.name doc).toProcess
    return a
  else if extended ≠ [] then
    if r.chain.contains extended then
      throw (Failure.of (.recursion ⟨.extension, r.chain ++ [extended]⟩))
    (c.handOver r.name doc).toProcess
    return { a with scheduled := extended :: a.scheduled
                    queue := a.queue ++ [{ name := extended, chain := r.chain ++ [extended] }] }
  else if a.output.isSome then throw (Failure.of (.duplicateOutput r.name a.main))
  else
    let out ← (promoteSnippet doc).toProcess
    return { a with output := some out }

/-- Notes a template that the template `main` depends on, unless it is that template itself. -/
def addDependency (main name : Text) : Work Unit :=
  modify fun s =>
    if name = main || s.dependencies.contains name then s
    else { s with dependencies := s.dependencies ++ [name] }

/-- Reads a template and asks what it extends and loads. -/
def readTemplate (c : Compiler) (p : Parser) (files : Files) (main name : Text) :
    Work (NodeId × Text × List Text) := do
  modify fun s => { s with current := name }
  addDependency main name
  let doc ← c.loadTemplate p files name
  Work.record { message := "parsed template", fields := [("template", name)] }
  match c.inheritance? with
  | none => return (doc, [], [])
  | some hook =>
    let (extended, loads) ← hook.check doc
    return (doc, extended, loads)

/-- Reads a template and finishes it, or parks it if it has to wait. -/
def takeUp (c : Compiler) (p : Parser) (env : Stage.Environment) (files : Files) (steps : Nat)
    (r : Request) (a : Agenda) : Process Failure Session Agenda := do
  let (doc, extended, loads) ← (c.readTemplate p files a.main r.name).toProcess
  let (waits, a) ← (Work.lift (a.requestLoads r loads)).toProcess
  if waits.isEmpty then c.finish env steps r doc extended a
  else return { a with parked := ⟨r, doc, extended, waits⟩ :: a.parked }

/-- Takes up the last parked template that waits no longer. -/
def restore (c : Compiler) (env : Stage.Environment) (steps : Nat) (a : Agenda) :
    Process Failure Session Agenda := do
  match a.parked.find? a.isReady with
  | none => throw a.deadlock
  | some p =>
    let parked := a.parked.eraseP a.isReady
    Action.toProcess do
      modify fun s => { s with current := p.request.name }
      Work.record
        { message := "restoring template"
          fields := [("template", p.request.name), ("stack", Text.ofNat parked.length)] }
    c.finish env steps p.request p.doc p.extended { a with parked }

/-- Works off an agenda within a number of rounds. -/
def rounds (c : Compiler) (p : Parser) (env : Stage.Environment) (files : Files) (steps : Nat) :
    Nat → Agenda → Process Failure Session NodeId
  | 0, _ => Process.unfinished
  | n + 1, a => do
    match a.queue, a.parked with
    | [], [] =>
      match a.output with
      | some doc => return doc
      | none => throw (Failure.of (.noOutput a.main))
    | r :: queue, _ =>
      Work.checkCanceled.toProcess
      let a ← c.takeUp p env files steps r { a with queue }
      c.rounds p env files steps n a
    | [], _ =>
      Work.checkCanceled.toProcess
      let a ← c.restore env steps a
      c.rounds p env files steps n a

/-- Works off the agenda of a template; a failure is recorded and notes the template being worked
on. -/
def assemble (c : Compiler) (p : Parser) (env : Stage.Environment) (files : Files) (steps : Nat)
    (name : Text) : Process Failure Session NodeId := fun s =>
  match c.rounds p env files steps steps (.start name) { s with current := name } with
  | some (.error f, s) =>
    let r := TraceRecord.failed "compilation failed" [("template", s.current)] f.message
    some (.error (f.inTemplate s.current), { s with trace := r :: s.trace })
  | r => r

/-- Builds a template with the given parts. -/
def buildWith (c : Compiler) (p : Parser) (l : Linker) (registry : Registry) (files : Files)
    (steps : Nat) (name : Text) : Process Failure Session Artifact := do
  let doc ← c.assemble p ⟨c.dialect, registry⟩ files steps name
  Work.checkCanceled.toProcess
  let (output, dynamicBlocks) ← l.link doc
  return { template := name, output, dependencies := (← get).dependencies, dynamicBlocks }

/-- Registers the instructions and builds a template with the given parts. -/
def runBuild (c : Compiler) (p : Parser) (l : Linker) (files : Files) (steps : Nat) (name : Text) :
    Process Failure CompilerState Artifact := fun x =>
  match c.prepare x with
  | (.error f, x) => some (.error f, x)
  | (.ok _, x) =>
    (c.buildWith p l x.registry files steps name x.session).map fun r =>
      (r.1, { x with session := r.2 })

/-- Builds a template and has all parts give up what they remember, whatever came of it. -/
def buildIn (c : Compiler) (files : Files) (steps : Nat) (name : Text) :
    Process Failure CompilerState Artifact := fun x =>
  let finish (x : CompilerState) : CompilerState :=
    { x with session := { x.session with trace := .finish "build" :: x.session.trace } }
  let s := { x.session with trace := .start "build" :: x.session.trace }
  match c.parser, c.linker with
  | none, _ => some (.error ((Failure.of .noParser).inTemplate name),
    finish { x with session := s })
  | _, none => some (.error ((Failure.of .noLinker).inTemplate name),
    finish { x with session := s })
  | some p, some l =>
    match c.runBuild p l files steps name { x with session := s.openUnit } with
    | none => none
    | some (r, x) => some (r.mapError fun f => f.inTemplate name, finish (c.dispose x))

/-- Builds a template with a new compiler. -/
def build (c : Compiler) (files : Files) (steps : Nat) (name : Text) :
    Process Failure Session Artifact := fun s =>
  (c.buildIn files steps name { session := s }).map fun r => (r.1, r.2.session)

/-- The record of a stored template. -/
def storedRecord (a : Artifact) : TraceRecord :=
  { message := "artifact written"
    fields := [("template", a.template), ("path", a.path),
               ("dynamic_blocks", Text.ofNat a.dynamicBlocks.length)] }

/-- Builds a template and stores the outcome under the given path, or under the one that belongs to
its name if none is given. -/
def compile (c : Compiler) (files : Files) (steps : Nat) (name path : Text) :
    Process Failure Session (Artifact × Files) := do
  let a ← c.build files steps name
  let a := { a with path := if path = [] then c.streams.compiledPath name a.dependencies else path }
  (Work.record (storedRecord a)).toProcess
  return (a, a.write c.config.compressDynamic files c.codec)

end Compiler

end Stencil
