import Stencil.Config.Basic
import Stencil.Tree.Assembly

/-!
# Failures of a compilation

A compilation fails for a cause, and on its way outwards the failure collects contexts: the
expression being compiled, the node, the stage, the template. A failure is the cause together with
its contexts, outermost first, so that a caller can ask for either, and the message is read off
both.

The node and the template are noted at most once, by whoever knows them first. The template context
repeats the name and the line of the node, if one was noted, because that is what a user looks for.

## Main definitions

* `Cause` – why a compilation failed; `Recursion` – names that lead back to themselves;
* `Context`, `Failure` – where it failed; `Failure.message` – the wording;
* `Failure.atNode`, `Failure.inTemplate` – noting the node and the template once.
-/

namespace Stencil

/-- How names can lead from one to another. -/
inductive RecursionKind where
  /-- A use of a definition inside its own expansion. -/
  | expansion
  /-- A template that extends itself. -/
  | extension
  /-- A template that loads itself. -/
  | load
  deriving DecidableEq, Repr

/-- The name of the kind of recursion. -/
def RecursionKind.label : RecursionKind → Text
  | expansion => "macro"
  | extension => "extend"
  | load => "load"

/-- Names that lead back to an earlier one. -/
structure Recursion where
  /-- How each name leads to the next. -/
  kind : RecursionKind
  /-- The names in order; the last one closes the cycle. -/
  chain : List Text
  deriving DecidableEq, Repr

/-- The wording of names that lead back to an earlier one, with the word for how they do so. -/
def describeRecursion (kind : Text) (chain : List Text) : Text :=
  "infinite " ++ kind ++ " recursion detected: " ++ Text.join " -> " chain

/-- The wording of a recursion. -/
def Recursion.message (r : Recursion) : Text := describeRecursion r.kind.label r.chain

/-- What can be wrong with the value of an attribute of an instruction. -/
inductive ValueProblem where
  /-- It has to be an identifier. -/
  | identifier
  /-- It has to be a number. -/
  | number
  /-- It has to be a truth value. -/
  | truth
  /-- It has to be fixed. -/
  | expression
  /-- There has to be one. -/
  | empty
  deriving DecidableEq, Repr

/-- The wording of what an attribute must be. -/
def ValueProblem.demand : ValueProblem → Text
  | identifier => "must be a valid identifier"
  | number => "must be a valid number"
  | truth => "must be 'yes', 'no', 'true' or 'false'"
  | expression => "must not be an expression"
  | empty => "cannot be empty"

/-- Why a source could not be opened. -/
inductive SourceProblem where
  /-- There is no such file. -/
  | notFound (path : Text)
  /-- It is a directory. -/
  | directory
  /-- A part of the path is an ordinary file. -/
  | notADirectory (path : Text)
  /-- It is larger than allowed. -/
  | tooLarge (size limit : Nat)
  deriving DecidableEq, Repr

/-- Why a compilation failed. -/
inductive Cause where
  /-- A change to a tree was refused. -/
  | tree (e : Tree.TreeError)
  /-- A source is not well-formed. -/
  | markup (f : Markup.Fault)
  /-- A source could not be decoded. -/
  | encoding (e : Encoding.DecodingError)
  /-- A construct of a source was refused. -/
  | assembly (e : Tree.AssemblyError)
  /-- An expression could not be compiled. -/
  | expression (e : Expression.Error)
  /-- The configuration is not valid. -/
  | config (e : ConfigError)
  /-- The name of a stream or template was refused. -/
  | stream (e : StreamError)
  /-- A source could not be opened. -/
  | source (name : Text) (problem : SourceProblem)
  /-- Names lead back to themselves. -/
  | recursion (r : Recursion)
  /-- The compilation was canceled. -/
  | canceled
  /-- There is no such stage. -/
  | unknownStage (name : Text)
  /-- The stage of that name is of another kind. -/
  | stageKind (name kind : Text)
  /-- There is no such expression engine. -/
  | unknownEngine (name : Text)
  /-- The namespace is not registered. -/
  | unknownNamespace (uri : Text)
  /-- There is no namespace with that identifier. -/
  | unknownNamespaceId (id : Int)
  /-- An instruction takes no part in a stage. -/
  | unsupported (instruction target : Text)
  /-- There is nothing to parse templates with. -/
  | noParser
  /-- There is nothing to link templates with. -/
  | noLinker
  /-- There is a language already. -/
  | languageSelected
  /-- An instruction lacks an attribute. -/
  | requiredAttribute (name element : Text)
  /-- An attribute has a value that is not allowed. -/
  | attributeValue (name element : Text) (problem : ValueProblem)
  /-- A condition is empty. -/
  | emptyCondition (element : Text)
  /-- The kind of an attribute is not known. -/
  | attributeKind (name element kind : Text)
  /-- Templates refer to each other but nothing resolves that. -/
  | noInheritance (template : Text)
  /-- No template became the output. -/
  | noOutput (template : Text)
  /-- A second template would become the output. -/
  | duplicateOutput (template main : Text)
  /-- The snippet that is to become the output is no container. -/
  | invalidSnippet (e : Tree.TreeError)
  /-- Definitions of one name take different arguments. -/
  | incompatible (name : Text)
  /-- A loaded template is not available. -/
  | notLoaded (template : Text)
  /-- An instruction reported a failure of its own. -/
  | custom (message : Text)
  deriving DecidableEq, Repr

namespace Cause

/-- The wording of a problem with a source. -/
def sourceMessage (name : Text) : SourceProblem → Text
  | .notFound path =>
    "cannot open " ++ name.quoted ++ " (" ++ path ++ "): template source not found"
  | .directory => name.quoted ++ " is a directory: template source not found"
  | .notADirectory path => "cannot open " ++ name.quoted ++ ": open " ++ path ++ ": not a directory"
  | .tooLarge size limit =>
    name.quoted ++ " is " ++ Size.binary size ++ ", the limit is " ++ Size.binary limit ++
      ": template source is too large"

/-- The wording of a cause. -/
def message : Cause → Text
  | tree e => e.message
  | markup f => f.message
  | encoding e => e.message
  | assembly e => e.message
  | expression e => e.message
  | config e => e.message
  | stream e => e.message
  | source name problem => sourceMessage name problem
  | recursion r => r.message
  | canceled => "context canceled"
  | unknownStage name => "stage " ++ name.quoted ++ ": unknown processing stage"
  | stageKind name kind => "stage " ++ name.quoted ++ " is " ++ kind ++ ": unknown processing stage"
  | unknownEngine name => "expression engine " ++ name.quoted ++ ": unknown expression engine"
  | unknownNamespace uri => "namespace " ++ uri.quoted ++ ": unknown namespace URI"
  | unknownNamespaceId id => "namespace identifier " ++ Text.ofInt id ++ ": unknown namespace URI"
  | unsupported instruction target =>
    "cannot register " ++ instruction ++ " for " ++ target ++
      ": instruction processor does not support this stage"
  | noParser => "no parser selected"
  | noLinker => "no linker selected"
  | languageSelected => "another template language is already selected"
  | requiredAttribute name element =>
    "cannot find the attribute " ++ name.quoted ++ " in " ++ element.quoted ++
      ": required attribute is missing"
  | attributeValue name element problem =>
    "the attribute " ++ name.quoted ++ " in " ++ element.quoted ++ " " ++ problem.demand ++
      ": invalid attribute value"
  | emptyCondition element =>
    "the condition of " ++ element.quoted ++ " cannot be empty: invalid attribute value"
  | attributeKind name element kind =>
    "attribute " ++ name.quoted ++ " in " ++ element.quoted ++ " has kind " ++ kind ++
      ": invalid attribute definition"
  | noInheritance template =>
    "template " ++ template.quoted ++
      ": template inheritance requested but no inheritance hook is installed"
  | noOutput template => "template " ++ template.quoted ++ ": compilation produced no output tree"
  | duplicateOutput template main =>
    "template " ++ template.quoted ++ " would replace the output tree of " ++ main.quoted ++
      ": more than one template produced an output tree"
  | invalidSnippet e => "snippet must be a container node: " ++ e.message
  | incompatible name => "macro " ++ name.quoted ++ ": macro redefined with different arguments"
  | notLoaded template => "template " ++ template.quoted ++ ": template was not loaded"
  | custom message => message

end Cause

/-- Where a failure happened. -/
inductive Context where
  /-- While the template was compiled, at the given node and line if those are known. -/
  | template (name node : Text) (line : Int)
  /-- At a node. -/
  | node (name : Text) (line : Int)
  /-- At a position of a source. -/
  | position (p : Markup.Position)
  /-- In a stage. -/
  | stage (name : Text)
  /-- In an expression. -/
  | expression (source engine : Text)
  /-- While an instruction was set up. -/
  | configuration (instruction : Text)
  /-- While the language was set up. -/
  | language
  deriving DecidableEq, Repr

/-- The wording of a node, when it is known. -/
def describeNode (name : Text) : Text := if name = [] then [] else " at " ++ name.quoted

/-- The wording of a line, when it is known. -/
def describeLine (line : Int) : Text := if line > 0 then " (line " ++ Text.ofInt line ++ ")" else []

/-- A message in its context. -/
def Context.describe (message : Text) : Context → Text
  | template name element line =>
    "failed to compile " ++ name.quoted ++ describeNode element ++ describeLine line ++ ": " ++
      message
  | node name line => name.quoted ++ describeLine line ++ ": " ++ message
  | position p => p.describe message
  | stage name => "stage " ++ name.quoted ++ ": " ++ message
  | expression source engine =>
    "failed to compile expression " ++ source.quoted ++ " with engine " ++ engine.quoted ++ ": " ++
      message
  | configuration instruction => "failed to configure " ++ instruction ++ ": " ++ message
  | language => "failed to initialize the template language: " ++ message

/-- A failed compilation. -/
structure Failure where
  /-- Where it failed, outermost first. -/
  contexts : List Context := []
  /-- Why it failed. -/
  cause : Cause
  deriving DecidableEq, Repr

namespace Failure

/-- A failure without context. -/
def of (cause : Cause) : Failure := ⟨[], cause⟩

instance : Coe Cause Failure := ⟨of⟩

/-- The failure in a further context. -/
def within (c : Context) (f : Failure) : Failure := { f with contexts := c :: f.contexts }

/-- The wording of a failure. -/
def message (f : Failure) : Text := f.contexts.foldr (fun c m => c.describe m) f.cause.message

/-- The template context, as name of the template, name of the node and line. -/
def template? (f : Failure) : Option (Text × Text × Int) :=
  f.contexts.findSome? fun
    | .template name node line => some (name, node, line)
    | _ => none

/-- The name and the line of the noted node. -/
def node? (f : Failure) : Option (Text × Int) :=
  f.contexts.findSome? fun
    | .node name line => some (name, line)
    | _ => none

/-- The position in a source. -/
def position? (f : Failure) : Option Markup.Position :=
  f.contexts.findSome? fun
    | .position p => some p
    | _ => none

/-- The wording of the failure from the noted node inwards. -/
def nodeMessage (f : Failure) : Text :=
  let inner := f.contexts.dropWhile fun
    | .node .. => false
    | _ => true
  message { f with contexts := inner }

/-- Notes the node, unless one was noted before. -/
def atNode (s : Tree.Store) (n : Tree.NodeId) (f : Failure) : Failure :=
  if f.node?.isSome then f else f.within (.node (s.label n) (s.line n))

/-- Notes the template, unless one was noted before. -/
def inTemplate (name : Text) (f : Failure) : Failure :=
  if f.template?.isSome then f
  else
    let (node, line) := f.node?.getD ([], 0)
    f.within (.template name node line)

/-- The failure of a change to a tree. -/
def ofTree (e : Tree.TreeError) : Failure := of (.tree e)

/-- The failure of reading a source, where `refusal` says why a receiver refused an event. -/
def ofReadErrorBy {ε : Type} (refusal : ε → Cause) : Markup.ReadError ε → Failure
  | .encoding p e => ⟨[.position p], .encoding e⟩
  | .fault stop => ⟨[.position stop.position], .markup stop.fault⟩
  | .refused p e => ⟨[.position p], refusal e⟩
  | .canceled => of .canceled

/-- The failure of reading a source into a tree. -/
def ofReadError (e : Markup.ReadError Tree.AssemblyError) : Failure := ofReadErrorBy .assembly e

end Failure

end Stencil
