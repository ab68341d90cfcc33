import Stencil.Expression.Engine
import Stencil.Failure

/-!
# What templates may refer to

Namespaces are registered with a compiler and numbered in that order; expression engines are
registered under names. An expression that names no engine is compiled by the engine that the
configuration names, or else by the one that the template language prefers.

## Main definitions

* `Dialect` – the registered namespaces and engines;
* `Dialect.addNamespace`, `Dialect.namespaceId`, `Dialect.namespaceUri`;
* `Dialect.compile` – compiling an expression; `Dialect.detect` – the engine of a source;
* `Dialect.resolver` – the dialect as it is seen by the assembly of trees.
-/

namespace Stencil

/-- The namespaces and expression engines of a compiler. -/
structure Dialect where
  /-- The registered namespaces; the position is the identifier. -/
  namespaces : List Text := []
  /-- The engines under their names. -/
  engines : List (Text × Expression.Engine) := []
  /-- The engine the language prefers. -/
  languageEngine : Text := []
  /-- The engine the configuration names, if any. -/
  configuredEngine : Text := []
  deriving DecidableEq, Repr

namespace Dialect

/-! ### Namespaces -/

/-- The identifier of a namespace. -/
def namespaceId? (d : Dialect) (uri : Text) : Option Nat := d.namespaces.findIdx? (· = uri)

/-- Whether a namespace is registered. -/
def hasNamespace (d : Dialect) (uri : Text) : Bool := (d.namespaceId? uri).isSome

/-- The identifier of a namespace, or a failure. -/
def namespaceId (d : Dialect) (uri : Text) : Except Failure Nat :=
  match d.namespaceId? uri with
  | some id => .ok id
  | none => .error (.of (.unknownNamespace uri))

/-- The namespace with an identifier, or a failure. -/
def namespaceUri (d : Dialect) (id : Int) : Except Failure Text :=
  match if id < 0 then none else d.namespaces[id.toNat]? with
  | some uri => .ok uri
  | none => .error (.of (.unknownNamespaceId id))

/-- Registers a namespace, unless it is registered, and gives its identifier. -/
def addNamespace (d : Dialect) (uri : Text) : Nat × Dialect :=
  match d.namespaceId? uri with
  | some id => (id, d)
  | none => (d.namespaces.length, { d with namespaces := d.namespaces ++ [uri] })

/-! ### Engines -/

/-- The engine of a name. -/
def engine? (d : Dialect) (name : Text) : Option Expression.Engine :=
  (d.engines.find? fun e => e.1 = name).map Prod.snd

/-- The engine of a name, or a failure. -/
def engine (d : Dialect) (name : Text) : Except Failure Expression.Engine :=
  match d.engine? name with
  | some e => .ok e
  | none => .error (.of (.unknownEngine name))

/-- Registers an engine; it replaces an engine of the same name. -/
def addEngine (d : Dialect) (name : Text) (e : Expression.Engine) : Dialect :=
  { d with engines := (name, e) :: d.engines.filter fun e => e.1 ≠ name }

/-- The name of the engine for expressions that name none. -/
def defaultEngine (d : Dialect) : Text :=
  if d.configuredEngine = [] then d.languageEngine else d.configuredEngine

/-- Compiles an expression with the named engine, or the default one without a name. -/
def compile (d : Dialect) (source name : Text) : Except Failure Expression.Compiled :=
  let name := if name = [] then d.defaultEngine else name
  match d.engine name with
  | .error f => .error f
  | .ok e =>
    match e.compile source with
    | .ok c => .ok c
    | .error err => .error ⟨[.expression source name], .expression err⟩

/-- The engine of a source and the source without its name. The suggested engine, if there is one,
comes before the default. -/
def detect (d : Dialect) (source suggested : Text) : Text × Text :=
  match Expression.splitEngine? source with
  | some p => p
  | none => (if suggested = [] then d.defaultEngine else suggested, source)

/-- The dialect as it is seen by the assembly of trees. -/
def resolver (d : Dialect) : Tree.Resolver where
  namespaceId uri := (d.namespaceId? uri).map Int.ofNat
  hasEngine name := (d.engine? name).isSome
  defaultEngine := d.defaultEngine

end Dialect

end Stencil
