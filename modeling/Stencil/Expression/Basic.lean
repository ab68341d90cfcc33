import Stencil.Text.Utf8

/-!
# Expressions

An expression is compiled to program code by an engine. The result has two forms: code that
evaluates to the value as it is, and code that evaluates to the value made safe for markup. What
becomes of it depends on its kind: ordinary values are printed, assignments are executed for their
effect, and scalars are known when the template is compiled.

A source may name its engine in front of a colon. The name has at least two characters so that it is
not mistaken for a drive letter, and a second colon directly behind the first one means that no
engine was meant.

## Main definitions

* `Expression.Kind`, `Expression.Compiled` – what an engine produces;
* `Expression.Error` – why an engine refuses a source, and `Expression.Error.message`;
* `Expression.splitEngine?` – the engine named by a source.
-/

namespace Stencil.Expression

/-- How a compiled expression is used. -/
inductive Kind where
  /-- The value is printed. -/
  | value
  /-- The code is executed for its effect. -/
  | assignment
  /-- The value is printed and known at compile time. -/
  | scalar
  deriving DecidableEq, Repr

/-- The name of a kind. -/
def Kind.label : Kind → Text
  | value => "default"
  | assignment => "assignment"
  | scalar => "scalar"

/-- A compiled expression. -/
structure Compiled where
  /-- Code for the value as it is. -/
  bare : Text
  /-- Code for the value made safe for markup. -/
  escaped : Text
  /-- How the expression is used. -/
  kind : Kind
  deriving DecidableEq, Repr

/-- Code that makes the value of `code` safe for markup. -/
def escapeCall (code : Text) : Text := "htmlspecialchars(" ++ code ++ ")"

/-- What can be wrong at one place of a source. -/
inductive Problem where
  /-- A string literal without its closing quote. -/
  | unterminatedString
  /-- A dollar sign without a name behind it. -/
  | invalidVariable
  /-- An assignment to something other than a variable. -/
  | invalidAssignment
  /-- A character that is part of no expression. -/
  | unexpected (c : Char)
  deriving DecidableEq, Repr

/-- The wording of a problem. -/
def Problem.message : Problem → Text
  | unterminatedString => "unterminated string literal"
  | invalidVariable => "invalid variable name"
  | invalidAssignment => "only a variable can be assigned to"
  | unexpected c => (Text.ofChars [c]).quoted ++ ": unexpected character"

/-- Why a source is no expression. -/
inductive Error where
  /-- There is nothing to compile. -/
  | empty
  /-- There is a problem at an offset, counted in characters. -/
  | at (source : Text) (offset : Nat) (problem : Problem)
  deriving DecidableEq, Repr

/-- The wording of an error. -/
def Error.message : Error → Text
  | empty => "empty expression"
  | .at source offset problem =>
    source.quoted ++ " at offset " ++ Text.ofNat offset ++ ": " ++ problem.message

/-- The characters of engine names. -/
def isEngineByte (b : UInt8) : Bool := isAsciiLetter b || isAsciiDigit b || b == 0x5f

/-- Whether a text can be the source behind an engine name: it is not empty, does not start with a
colon and has no line feed behind its first character. -/
def isEngineSource : Text → Bool
  | [] => false
  | b :: t => b != 0x3a && !t.contains 0xa

/-- The engine a source names, and the source without that name. -/
def splitEngine? (t : Text) : Option (Text × Text) :=
  match Text.cut? 0x3a t with
  | some (name, source) =>
    if 2 ≤ name.length && name.all isEngineByte && isEngineSource source then some (name, source)
    else none
  | none => none

end Stencil.Expression
