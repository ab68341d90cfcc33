import Stencil.Artifact.Basic
import Stencil.Compiler.Stage

/-!
# Compilers

A compiler is put together from parts: what reads templates, the stages they go through, what writes
them, the instructions that take part, and the namespaces and engines that templates may refer to.
The parts do not change while templates are compiled; all that changes is in the session, and in the
registry of the stages.

Before a template is compiled, the instructions are registered with the stages. Each instruction
names what it needs; the first need that is not met is reported. At the end every part gives up what
it remembers, whatever became of the compilation.

## Main definitions

* `Parser`, `Linker`, `CustomStage`, `StageOf` – the parts;
* `Compiler` – a compiler; `Compiler.new` – from a configuration;
* `Compiler.addStage`, `Compiler.stage`, `Compiler.stageOfKind` – stages by name;
* `CompilerState` – what changes;
* `Compiler.register`, `Compiler.prepare`, `Compiler.setup` – who is called for what;
* `Compiler.dispose` – the end of a compilation.
-/

namespace Stencil

open Stencil.Tree (NodeId)

/-- What reads templates. -/
structure Parser where
  /-- The document of a source, given the name of the template. -/
  parse : Dialect → (name source : Text) → Work NodeId
  /-- What is done at the end. -/
  dispose : Session → Session := id

/-- What writes templates. -/
structure Linker where
  /-- The text and the dynamic fragments of a document. -/
  link : NodeId → Process Failure Session (Text × List Text)
  /-- What is done at the end. -/
  dispose : Session → Session := id

/-- A stage without registered instructions. -/
structure CustomStage where
  /-- The name. -/
  name : Text
  /-- What the stage makes of a document, possibly another one. -/
  process : NodeId → Work NodeId
  /-- What is done at the end. -/
  dispose : Session → Session := id

/-- The stages of a compiler. -/
inductive StageOf where
  /-- A stage with registered instructions. -/
  | standard (kind : StageKind)
  /-- Any other stage. -/
  | custom (stage : CustomStage)

namespace StageOf

/-- The name of a stage. -/
def name : StageOf → Text
  | standard kind => kind.name
  | custom stage => stage.name

end StageOf

/-- What changes while templates are compiled. -/
structure CompilerState where
  /-- The state of the compilation. -/
  session : Session := {}
  /-- Who is called for what, as far as it is registered. -/
  registry : Registry := {}

/-- What a stage does at the end. -/
def StageOf.dispose : StageOf → CompilerState → CompilerState
  | standard kind, x => { x with registry := x.registry.clear kind }
  | custom stage, x => { x with session := stage.dispose x.session }

/-- A compiler. -/
structure Compiler where
  /-- The settings. -/
  config : Config
  /-- The largest accepted source size in bytes; 0 for no limit. -/
  limit : Nat
  /-- Where templates are read from and written to. -/
  streams : Streams
  /-- The namespaces and engines. -/
  dialect : Dialect := {}
  /-- What reads templates. -/
  parser : Option Parser := none
  /-- What writes templates. -/
  linker : Option Linker := none
  /-- The stages in order. -/
  stages : List StageOf := []
  /-- The instructions in order. -/
  instructions : List Instruction := []
  /-- What resolves references between templates, unless an instruction does. -/
  hook : Option InheritanceHook := none
  /-- Whether a language was selected. -/
  hasLanguage : Bool := false
  /-- How dynamic blocks are compressed. -/
  codec : Block.Codec := Block.literals

namespace Compiler

/-- A compiler without parts. -/
def new (config : Config) : Except Failure Compiler :=
  match config.validate with
  | .error e => .error (.of (.config e))
  | .ok limit =>
    .ok { config, limit, streams := config.toStreams
          dialect := { configuredEngine := config.engine } }

/-! ### Stages -/

/-- Replaces the stage of the same name, or adds the stage at the end. -/
def placeStage (s : StageOf) : List StageOf → List StageOf
  | [] => [s]
  | t :: ts => if t.name = s.name then s :: ts else t :: placeStage s ts

/-- The compiler with a further stage. -/
def addStage (c : Compiler) (s : StageOf) : Compiler := { c with stages := placeStage s c.stages }

/-- The stage of a name, or a failure. -/
def stage (c : Compiler) (name : Text) : Except Failure StageOf :=
  match c.stages.find? fun s => s.name = name with
  | some s => .ok s
  | none => .error (.of (.unknownStage name))

/-- The stage of a name, if it is of the given kind, or a failure. -/
def stageOfKind (c : Compiler) (name : Text) (k : StageKind) : Except Failure StageOf := do
  let s ← c.stage name
  match s with
  | .standard k' => if k' = k then return s else throw (.of (.stageKind name k'.typeName))
  | .custom _ => throw (.of (.stageKind name "a custom stage"))

/-! ### Registration -/

/-- Adds a registration of an instruction, if the stage exists. -/
def register (c : Compiler) (i : Instruction) (reg : Registration) :
    Action Failure CompilerState Unit := do
  let _ ← .ofExcept (c.stageOfKind reg.stage.name reg.stage)
  let r ← .ofExcept ((← get).registry.register c.dialect i reg)
  modify fun x => { x with registry := r }

/-- Registers an instruction. If that fails, what was registered before stays. -/
def configure (c : Compiler) (i : Instruction) : Action Failure CompilerState Unit := do
  modify fun x => { x with session := i.prepare x.session }
  .ofExcept (i.namespaces.forM fun uri => (c.dialect.namespaceId uri).map fun _ => ())
  i.registrations.forM (c.register i)

/-- Registers all instructions. -/
def prepare (c : Compiler) : Action Failure CompilerState Unit :=
  c.instructions.forM fun i =>
    (c.configure i).mapError fun f => f.within (.configuration i.label)

/-- What is registered by a new compiler. -/
def setup (c : Compiler) : Except Failure Registry :=
  match c.prepare {} with
  | (.ok _, x) => .ok x.registry
  | (.error f, _) => .error f

/-- What resolves references between templates: the last instruction that does, or else what was
set. -/
def inheritance? (c : Compiler) : Option InheritanceHook :=
  match c.instructions.reverse.findSome? (·.inheritance) with
  | some h => some (h c.dialect)
  | none => c.hook

/-- What is done at the end of a compilation. -/
def dispose (c : Compiler) (x : CompilerState) : CompilerState :=
  let x := { x with session := c.instructions.foldl (fun s i => i.dispose s) x.session }
  let x := c.stages.foldl (fun x t => t.dispose x) x
  let s := ((c.parser.map (·.dispose)).getD id) x.session
  let s := ((c.linker.map (·.dispose)).getD id) s
  { x with session := s.closeUnit.sweep }

end Compiler

end Stencil
