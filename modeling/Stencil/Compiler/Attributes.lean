import Stencil.Compiler.Dialect

/-!
# Attributes of instructions

An instruction says which attributes its elements take, of which kinds, and what stands in for a
missing one. Extraction checks an element against such a list: the attributes are looked at in the
order of the list, then, if the instruction accepts others, the rest in document order. The first
fault ends it. Attributes in a registered namespace are instructions of their own and are passed
over.

## Main definitions

* `AttributeKind`, `AttributeSpec`, `AttributeValue` – kinds, demands and values;
* `Extracted` – the outcome, with `Extracted.get?`, `Extracted.text`, `Extracted.flag`;
* `extractAttributes` – the check.
-/

namespace Stencil

open Stencil.Tree (NodeId Store)

/-- The kinds of attribute values. -/
inductive AttributeKind where
  /-- Letters, digits, underscores and dots, at least one. -/
  | identifier
  /-- An identifier or nothing. -/
  | optionalIdentifier
  /-- Any text. -/
  | text
  /-- A decimal or hexadecimal number. -/
  | number
  /-- A truth value in words. -/
  | truth
  /-- An expression. -/
  | expression
  /-- No known kind. -/
  | unknown (n : Int)
  deriving DecidableEq, Repr

/-- The name of a kind. -/
def AttributeKind.label : AttributeKind → Text
  | identifier => "id"
  | optionalIdentifier => "empty id"
  | text => "string"
  | number => "number"
  | truth => "boolean"
  | expression => "expression"
  | unknown n => "attrkind(" ++ Text.ofInt n ++ ")"

/-- The kind with the given number. -/
def AttributeKind.ofInt (n : Int) : AttributeKind :=
  if n = 0 then identifier
  else if n = 1 then optionalIdentifier
  else if n = 2 then text
  else if n = 3 then number
  else if n = 4 then truth
  else if n = 5 then expression
  else unknown n

/-- The value of an extracted attribute. -/
inductive AttributeValue where
  /-- Nothing, for a missing attribute without default. -/
  | nothing
  /-- A text. -/
  | text (t : Text)
  /-- A truth value. -/
  | flag (b : Bool)
  /-- A compiled expression. -/
  | expression (e : Expression.Compiled)
  deriving DecidableEq, Repr

/-- What an instruction demands of an attribute. -/
structure AttributeSpec where
  /-- The full name. -/
  name : Text := []
  /-- Whether it has to be there. -/
  required : Bool := false
  /-- The kind of its value. -/
  kind : AttributeKind
  /-- What stands in if it is missing. -/
  default : AttributeValue := .nothing
  /-- The engine for expressions that name none; empty for the default. -/
  engine : Text := []
  deriving DecidableEq, Repr

/-- The attributes extracted from an element. -/
structure Extracted where
  /-- The values of the demanded attributes, in the order of the demands. -/
  values : List (Text × AttributeValue) := []
  /-- The other attributes in document order, if those are accepted. -/
  others : List (Text × AttributeValue) := []
  deriving DecidableEq, Repr

namespace Extracted

/-- The value of an attribute. Of two demands with one name the later counts. -/
def get? (e : Extracted) (name : Text) : Option AttributeValue :=
  (e.values.reverse.find? fun v => v.1 = name).map Prod.snd

/-- Whether an attribute has a value. -/
def has (e : Extracted) (name : Text) : Bool :=
  match e.get? name with
  | none | some .nothing => false
  | _ => true

/-- The value of an attribute as a text. -/
def text (e : Extracted) (name : Text) : Text :=
  match e.get? name with
  | some (.text t) => t
  | _ => []

/-- The value of an attribute as a truth value. -/
def flag (e : Extracted) (name : Text) : Bool :=
  match e.get? name with
  | some (.flag b) => b
  | _ => false

/-- The value of an attribute as an expression. -/
def expression? (e : Extracted) (name : Text) : Option Expression.Compiled :=
  match e.get? name with
  | some (.expression c) => some c
  | _ => none

end Extracted

/-! ### Values -/

/-- Identifiers consist of letters, digits, underscores and dots. -/
def isIdentifier (t : Text) : Bool :=
  t != [] && t.all fun b => isAsciiLetter b || isAsciiDigit b || b == 0x5f || b == 0x2e

/-- Hexadecimal numbers with their marker. -/
def isHexNumber : Text → Bool
  | 0x30 :: x :: t => (x == 0x78 || x == 0x58) && t != [] && t.all isAsciiHexDigit
  | _ => false

/-- Decimal numbers with at least one digit in front of an optional point. -/
def isDecimalNumber (t : Text) : Bool :=
  let t := (Text.dropStart? "-" t).getD t
  let (whole, fraction) := (Text.cut? 0x2e t).getD (t, [])
  whole != [] && whole.all isAsciiDigit && fraction.all isAsciiDigit

/-- Decimal and hexadecimal numbers. -/
def isNumber (t : Text) : Bool := isDecimalNumber t || isHexNumber t

/-- The truth value a word stands for. -/
def truth? (t : Text) : Option Bool :=
  if t = "yes" ∨ t = "true" then some true
  else if t = "no" ∨ t = "false" then some false
  else none

/-- The value of an attribute that has to be fixed. -/
def fixedValue (name element : Text) (kind : AttributeKind) (t : Text) :
    Except Failure AttributeValue :=
  let refuse (p : ValueProblem) : Except Failure AttributeValue :=
    .error (.of (.attributeValue name element p))
  match kind with
  | .identifier => if isIdentifier t then .ok (.text t) else refuse .identifier
  | .optionalIdentifier => if t = [] ∨ isIdentifier t then .ok (.text t) else refuse .identifier
  | .text => .ok (.text t)
  | .number => if isNumber t then .ok (.text t) else refuse .number
  | .truth =>
    match truth? t with
    | some b => .ok (.flag b)
    | none => refuse .truth
  | .expression | .unknown _ => .error (.of (.attributeKind name element kind.label))

/-- The engine and the source of a value that is read as an expression. -/
def Dialect.expressionOf (d : Dialect) (suggested : Text) : Tree.Value → Text × Text
  | .expression source engine _ => (engine, source)
  | .literal t => d.detect t suggested

/-- The value of an attribute as demanded. -/
def attributeValue (d : Dialect) (spec : AttributeSpec) (name element : Text) (v : Tree.Value) :
    Except Failure AttributeValue :=
  if spec.kind = .expression then
    let (engine, source) := d.expressionOf spec.engine v
    if source.isBlank then .error (.of (.attributeValue name element .empty))
    else (d.compile source engine).map .expression
  else
    match v with
    | .expression .. => .error (.of (.attributeValue name element .expression))
    | .literal t => fixedValue name element spec.kind t

/-! ### Extraction -/

/-- The value of a demanded attribute, with its name; nothing if the attribute is an instruction. -/
def extractDemanded (d : Dialect) (s : Store) (e : NodeId) (spec : AttributeSpec) :
    Except Failure (Option (Text × AttributeValue)) :=
  match s.attribute? e spec.name with
  | none =>
    if spec.required then .error (.of (.requiredAttribute spec.name (s.label e)))
    else .ok (some (spec.name, spec.default))
  | some a =>
    match s.attr? a with
    | none => .ok none
    | some data =>
      if data.uri.isSome then .ok none
      else (attributeValue d spec data.full (s.label e) data.value).map fun v => some (spec.name, v)

/-- The value of another attribute, with its name; nothing if it is demanded or an instruction. -/
def extractOther (d : Dialect) (s : Store) (e : NodeId) (demanded : List Text)
    (spec : AttributeSpec) (a : NodeId) : Except Failure (Option (Text × AttributeValue)) :=
  match s.attr? a with
  | none => .ok none
  | some data =>
    if data.uri.isSome || demanded.contains data.full then .ok none
    else (attributeValue d spec data.full (s.label e) data.value).map fun v => some (data.full, v)

/-- Extracts the attributes of an element. Other attributes are left alone without `others`. -/
def extractAttributes (d : Dialect) (s : Store) (e : NodeId) (specs : List AttributeSpec)
    (others : Option AttributeSpec) : Except Failure Extracted := do
  let values ← specs.mapM (extractDemanded d s e)
  let rest ← match others with
    | none => pure []
    | some spec => (s.attributes e).mapM (extractOther d s e (specs.map (·.name)) spec)
  return ⟨values.filterMap id, rest.filterMap id⟩

end Stencil
