import Stencil.Command.Options
import Stencil.Config.Document
import Stencil.Language.Basic
import Stencil.Tree.Dump

/-!
# The command

The command compiles templates, shows their trees, or checks whether their compiled forms are up to
date. It is a function of its words, of what it reads from standard input, and of the files; it
gives what it prints, an exit status and the files afterwards. Templates do not disturb each other:
each is compiled by a compiler of its own, and what they print is in the order in which they were
named.

The files may be given in part. The outcome lists the paths at which nothing was found, so that
whoever has the rest can supply them and call again.

## Main definitions

* `Line`, `Outcome` – what the command prints and leaves;
* `Report` – what became of one template; `Options.handle` – handling one template;
* `Options.configuration` – the settings of a call;
* `Invocation.run` – the command.
-/

namespace Stencil.Command

/-- The version of the compiler. -/
def version : Text := "v0.1.0"

/-- The text that shows the version. -/
def versionText : Text := "declari-compile: using declari version " ++ version ++ "\n"

/-- The text that shows how to call the command. -/
def usage : Text := Text.ofString <|
  "Usage : declari-compile [options] templates ...\n" ++
  "\tCompile the templates and write the compiled files\n" ++
  "\tTemplate names are read from stdin when none are given\n" ++
  "\t--config FILE : read the configuration from FILE\n" ++
  "\t--dump : print the parsed tree of each template\n" ++
  "\t--check : report templates whose compiled file is out of date\n" ++
  "\t--version : display the version of the compiler\n"

/-! ### Output -/

/-- How a piece of output is coloured on a terminal. -/
inductive Tone where
  /-- Not at all. -/
  | plain
  /-- As a failure. -/
  | bad
  /-- As something to look at. -/
  | notable
  /-- As a success. -/
  | good
  deriving DecidableEq, Repr

/-- A piece of output. -/
inductive Line where
  /-- Text on standard output. -/
  | output (tone : Tone) (text : Text)
  /-- Text on standard error. -/
  | error (tone : Tone) (text : Text)
  /-- The difference between two texts, on standard output. -/
  | difference (old new : Text)
  deriving DecidableEq, Repr

/-- What a call printed and what it leaves behind. -/
structure Outcome where
  /-- The exit status. -/
  status : Nat
  /-- What is printed. -/
  lines : List Line := []
  /-- The paths of the compiled templates that were stored. -/
  stored : List Text := []
  /-- The paths at which a file was looked for and not found. -/
  missing : List Text := []
  /-- The records of the work, earliest first. -/
  trace : List TraceRecord := []
  deriving Repr

/-- What a piece of output adds to standard output, with a word for a difference. -/
def Line.toOutput (difference : Text) : Line → Text
  | output _ t => t
  | error .. => []
  | Line.difference .. => difference

/-- What a piece of output adds to standard error. -/
def Line.toError : Line → Text
  | error _ t => t
  | _ => []

/-! ### Single templates -/

/-- What became of one template. -/
inductive Report where
  /-- It could not be compiled. -/
  | failed (f : Failure)
  /-- Its tree is shown. -/
  | shown (tree : Text)
  /-- Its compiled form was stored. -/
  | stored (path : Text) (size : Nat)
  /-- Its compiled form is up to date. -/
  | upToDate
  /-- It was never compiled. -/
  | neverStored (path : Text)
  /-- Its compiled form is another one. -/
  | outOfDate (old new : Text)
  deriving DecidableEq, Repr

namespace Report

/-- Whether a report makes the call fail. -/
def fails : Report → Bool
  | failed _ | neverStored _ | outOfDate .. => true
  | _ => false

/-- What is printed about the template of a name. -/
def lines (name : Text) : Report → List Line
  | failed f => [.error .bad (name ++ ": " ++ f.message ++ "\n")]
  | shown tree => [.output .plain tree]
  | stored path size =>
    [.output .good (name ++ " -> " ++ path ++ " (" ++ Size.decimal size ++ ")\n")]
  | upToDate => [.output .good (name ++ " is up to date\n")]
  | neverStored path =>
    [.output .notable (name ++ " is out of date\n"),
     .output .plain (path ++ " has not been compiled yet\n")]
  | outOfDate old new =>
    [.output .notable (name ++ " is out of date\n"), .difference old new]

/-- The path at which a file was looked for and not found. -/
def missing? : Report → Option Text
  | failed f =>
    match f.cause with
    | .source _ (.notFound path) => some path
    | _ => none
  | neverStored path => some path
  | _ => none

/-- The path at which a compiled template was stored. -/
def stored? : Report → Option Text
  | stored path _ => some path
  | _ => none

end Report

/-- A report together with the files and the records after it. -/
structure Handled where
  /-- What became of the template. -/
  report : Report
  /-- The files afterwards. -/
  files : Files
  /-- The records of the work, latest first. -/
  trace : List TraceRecord := []

/-- The tree of a template. -/
def showTree (c : Compiler) (files : Files) (name : Text) : Handled :=
  match c.parse files name {} with
  | (.error f, s) => ⟨.failed f, files, s.trace⟩
  | (.ok doc, s) =>
    match s.store.dump {} [] doc with
    | .error e => ⟨.failed (.ofTree e), files, s.trace⟩
    | .ok tree => ⟨.shown tree, files, s.trace⟩

/-- Compares a template with its compiled form. -/
def checkTemplate (c : Compiler) (files : Files) (steps : Nat) (name : Text) : Option Handled := do
  match ← c.build files steps name {} with
  | (.error f, s) => return ⟨.failed f, files, s.trace⟩
  | (.ok a, s) =>
    let path := c.streams.compiledPath name a.dependencies
    match files.get? path with
    | none => return ⟨.neverStored path, files, s.trace⟩
    | some old =>
      return ⟨if old = a.content then .upToDate else .outOfDate old a.content, files, s.trace⟩

/-- Compiles a template and stores the outcome. -/
def storeTemplate (c : Compiler) (files : Files) (steps : Nat) (name : Text) : Option Handled := do
  match ← c.compile files steps name [] {} with
  | (.error f, s) => return ⟨.failed f, files, s.trace⟩
  | (.ok (a, files), s) => return ⟨.stored a.path a.content.length, files, s.trace⟩

variable [Encoding.Decoders]

/-- Handles one template. -/
def Options.handle (o : Options) (config : Config) (files : Files) (steps : Nat) (name : Text) :
    Option Handled :=
  match Compiler.withLanguage config with
  | .error f => some ⟨.failed f, files, []⟩
  | .ok c =>
    if o.dump then some (showTree c files name)
    else if o.check then checkTemplate c files steps name
    else storeTemplate c files steps name

/-! ### Calls -/

/-- The settings of a call: those of the configuration file, if one is named, with the ones given by
options in their place. They are checked with and without the latter. -/
def Options.configuration (o : Options) (files : Files) : Except ConfigError Config := do
  let c ← if o.config = [] then pure {} else
    match files.get? o.config with
    | none => .error (.missing o.config)
    | some t => Config.ofYaml t
  let c : Config := { c with
    sourceDir := if o.sourceDir = [] then c.sourceDir else o.sourceDir
    compileDir := if o.compileDir = [] then c.compileDir else o.compileDir
    workers := if 0 < o.workers then o.workers else c.workers
    compressDynamic := o.compress || c.compressDynamic }
  let _ ← c.validate
  return c

/-- The lines of a text. A last line without content does not count, and neither does a carriage
return at the end of a line. -/
def linesOf (t : Text) : List Text :=
  let parts := Path.splitAt 0x0a t
  let parts := if parts.getLast? = some [] then parts.dropLast else parts
  parts.map fun l => if l.getLast? = some 0x0d then l.dropLast else l

/-- No line of standard input may be longer than this. -/
def maxLine : Nat := 65535

/-- The names of templates in standard input, one in each line, or a message. -/
def readNames (t : Text) : Except Text (List Text) :=
  if (Path.splitAt 0x0a t).any fun l => maxLine < l.length then
    .error "failed to read template names: bufio.Scanner: token too long"
  else .ok (((linesOf t).map Text.trim).filter (· ≠ []))

/-- Handles templates one after the other, with the files each one leaves for the next. -/
def Options.handleAll (o : Options) (config : Config) (steps : Nat) :
    List Text → Files → Option (List (Text × Handled) × Files)
  | [], files => some ([], files)
  | name :: names, files => do
    let h ← o.handle config files steps name
    let (hs, files) ← o.handleAll config steps names h.files
    return ((name, h) :: hs, files)

/-- The outcome of handling templates. -/
def summarize (hs : List (Text × Handled)) : Outcome where
  status := if hs.any fun h => h.2.report.fails then 1 else 0
  lines := hs.flatMap fun h => h.2.report.lines h.1
  stored := hs.filterMap fun h => h.2.report.stored?
  missing := hs.filterMap fun h => h.2.report.missing?
  trace := hs.flatMap fun h => h.2.trace.reverse

/-- The outcome of a call that stops with a message. -/
def stopped (tone : Tone) (message : Text) : Outcome :=
  { status := 1, lines := [.error tone (message ++ "\n")] }

/-- Compiles, shows or checks the named templates. -/
def Options.process (o : Options) (names : List Text) (files : Files) (steps : Nat) :
    Option (Outcome × Files) :=
  match o.configuration files with
  | .error (.missing path) =>
    some ({ stopped .bad (ConfigError.missing path).message with missing := [path] }, files)
  | .error e => some (stopped .bad e.message, files)
  | .ok config => do
    let (hs, files) ← o.handleAll config steps names files
    return (summarize hs, files)

/-- The command. Standard input is not read if it is a terminal. Gives nothing if a compilation does
not end within the number of steps. -/
def Invocation.run (i : Invocation) (input : Option Text) (files : Files) (steps : Nat) :
    Option (Outcome × Files) :=
  if i.options.version then some ({ status := 0, lines := [.output .plain versionText] }, files)
  else if i.names ≠ [] then i.options.process i.names files steps
  else
    match input with
    | none => some ({ status := 1, lines := [.output .plain usage] }, files)
    | some t =>
      match readNames t with
      | .error message => some (stopped .plain message, files)
      | .ok names => i.options.process names files steps

end Stencil.Command
