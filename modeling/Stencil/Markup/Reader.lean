import Stencil.Text.Letters
import Stencil.Markup.Event

/-!
# Readers

A reader consumes characters from the cursor and gives a value, or stops with a fault at the place
it has reached. The primitives here are the only ones that touch the cursor; everything above is
composed of them.

## Main definitions

* `Reader` – a computation on the cursor that may stop;
* `Reader.accept`, `Reader.skipBlanks`, `Reader.takeWhile`, `Reader.scanTo` – the primitives;
* `isLegalChar`, `isNameStart`, `isNameChar` – the character classes of the grammar;
* `unifyLineEnds` – carriage returns become line feeds.
-/

namespace Stencil.Markup

/-- A computation that consumes characters from the cursor, or stops with a fault. -/
abbrev Reader := StateT Cursor (Except Stop)

/-- White space of the grammar. -/
def isBlankChar (c : Char) : Bool := c = ' ' || c = '\t' || c = '\n' || c = '\r'

/-- The characters that a source may contain. U+FFFD is not among them: it marks input that could
not be decoded. -/
def isLegalChar (c : Char) : Bool := isMarkupChar c && c != Text.replacement

/-- The characters that can begin a name. -/
def isNameStart (c : Char) : Bool := c = '_' || c = ':' || isLetter c

/-- The characters that can continue a name. -/
def isNameChar (c : Char) : Bool :=
  c = '.' || c = '-' || c = '_' || c = ':' || isLetter c || isDecimalDigit c || isExtender c

/-- Line ends in their one form: a carriage return, alone or before a line feed, is a line feed. -/
def unifyLineEnds : List Char → List Char
  | [] => []
  | '\r' :: '\n' :: cs => '\n' :: unifyLineEnds cs
  | '\r' :: cs => '\n' :: unifyLineEnds cs
  | c :: cs => c :: unifyLineEnds cs

/-- How a search for a terminator ended. -/
inductive ScanEnd where
  /-- The terminator is next. -/
  | found
  /-- The input is used up. -/
  | exhausted
  /-- A character that may not occur is next. -/
  | illegal (c : Char)
  deriving DecidableEq, Repr

/-- The characters before the first occurrence of `term`, the first illegal character or the end,
whichever comes first. -/
def upTo (term : List Char) : List Char → List Char × ScanEnd
  | [] => ([], .exhausted)
  | c :: cs =>
    if term.isPrefixOf (c :: cs) then ([], .found)
    else if !isLegalChar c then ([], .illegal c)
    else
      let (before, e) := upTo term cs
      (c :: before, e)

namespace Reader

/-- Stops with a fault at the cursor. -/
def fail {α : Type} (fault : Fault) : Reader α := fun cur => .error ⟨cur.position, fault⟩

/-- The cursor itself. -/
def cursor : Reader Cursor := get

/-- Moves over `n` characters. -/
def advance (n : Nat) : Reader Unit := modify (Cursor.advance n)

/-- Consumes `s` if it is next, and tells whether it was. -/
def accept (s : String) : Reader Bool := do
  if (← cursor).startsWith s then
    advance s.length
    return true
  else
    return false

/-- Consumes `s`, or stops with the given fault. -/
def demand (s : String) (fault : Fault) : Reader Unit := do
  unless ← accept s do fail fault

/-- Consumes the longest run of characters in the class `p`. -/
def takeWhile (p : Char → Bool) : Reader (List Char) := do
  let run := (← cursor).rest.takeWhile p
  advance run.length
  return run

/-- Consumes white space and tells whether there was any. -/
def skipBlanks : Reader Bool := return !(← takeWhile isBlankChar).isEmpty

/-- Consumes everything up to and including `term`, and gives what stood before it with line ends
unified. Gives nothing if the input ends first. -/
def scanTo (term : String) : Reader (Option Text) := do
  let (before, e) := upTo term.toList (← cursor).rest
  advance before.length
  match e with
  | .found =>
    advance term.length
    return some (Text.ofChars (unifyLineEnds before))
  | .exhausted => return none
  | .illegal c => fail (.illegalChar c)

end Reader

end Stencil.Markup
