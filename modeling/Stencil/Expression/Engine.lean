import Stencil.Text.Space
import Stencil.Expression.Token

/-!
# Expression engines

There are two engines. The first compiles expressions over the data of the template: a variable
stands for an entry of that data and its parts for entries of entries, three words stand for logical
operators, and everything else is kept as it is. The second takes its source as the value itself.

A single equality sign is an assignment. It is allowed only as the second token, behind a variable;
this is checked in the order of the source together with the problems of the lexer, so that the
first problem is the one reported.

## Main definitions

* `Token.code` – the code of a token; `compileVariables` – the first engine;
* `compileLiteral` – the second engine;
* `Engine`, `Engine.compile` – both under one roof.
-/

namespace Stencil.Expression

/-- The logical operator a word stands for. -/
def keyword? (name : List Char) : Option (List Char) :=
  let lower := name.map Char.toLower
  if lower = "and".toList then some "&&".toList
  else if lower = "or".toList then some "||".toList
  else if lower = "not".toList then some "!".toList
  else none

namespace Token

/-- The code of a token. -/
def code : Token → List Char
  | blank c => [c]
  | quoted text => text
  | entry path => "$this->data".toList ++ path.flatMap fun n => "['".toList ++ n ++ "']".toList
  | word name => (keyword? name).getD name
  | number text => text
  | assign => ['=']
  | operator text => text

/-- Whether the token is a blank. -/
def isBlank : Token → Bool
  | blank _ => true
  | _ => false

/-- How many characters are left at the first assignment that is not allowed, when `before` are the
tokens other than blanks in front of the given ones, last first. -/
def badAssignment? : List Token → List (List Char × Token) → Option Nat
  | _, [] => none
  | before, (left, .assign) :: rest =>
    match before with
    | [.entry _] => badAssignment? (.assign :: before) rest
    | _ => some left.length
  | before, (_, t) :: rest => badAssignment? (if t.isBlank then before else t :: before) rest

end Token

/-- Compiles an expression over the data of the template. -/
def compileVariables (source : Text) : Except Error Compiled :=
  if source.isBlank then .error .empty
  else
    let chars := source.chars
    let (tokens, stop) := Token.lex chars
    match Token.badAssignment? [] tokens, stop with
    | some left, _ => .error (.at source (chars.length - left) .invalidAssignment)
    | none, some stop => .error (.at source (chars.length - stop.left) stop.problem)
    | none, none =>
      let code := Text.ofChars (tokens.flatMap fun t => t.2.code)
      if tokens.any (·.2 == .assign) then .ok ⟨code, code, .assignment⟩
      else .ok ⟨code, escapeCall code, .value⟩

/-- How a byte is written between single quotes in code. -/
def slashed? (b : UInt8) : Option Text :=
  if b = 0x5c then some "\\\\"
  else if b = 0x27 then some "\\'"
  else if b = 0x22 then some "\\\""
  else if b = 0 then some "\\0"
  else none

/-- Compiles a source that is the value itself. -/
def compileLiteral (source : Text) : Compiled :=
  let code := (source.substitute slashed?).quoted
  ⟨code, escapeCall code, .scalar⟩

/-- The expression engines. -/
inductive Engine where
  /-- Expressions over the data of the template. -/
  | references
  /-- Fixed texts. -/
  | literal
  deriving DecidableEq, Repr

/-- Compiles a source with an engine. -/
def Engine.compile : Engine → Text → Except Error Compiled
  | references, source => compileVariables source
  | literal, source => .ok (compileLiteral source)

end Stencil.Expression
