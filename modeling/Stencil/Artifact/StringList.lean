import Stencil.Encoding.Utf16
import Stencil.Number.Literal

/-!
# Lists of texts in JSON

Names of templates and fragments of code are stored as a JSON array of strings. Writing escapes the
characters of markup. The mark by which the end of a list is found in a compiled template contains
one of them, so no list contains that mark. Stray bytes are written as U+FFFD.

Reading accepts white space between tokens, `null` for the whole list, and `null` for an element,
which then is empty. Nothing else is a list of texts.

## Main definitions

* `StringList.render` – writing a list; `StringList.absent` – what stands for no list;
* `StringList.parse?` – reading a list; `null` is told apart from the empty list.
-/

namespace Stencil.StringList

/-! ### Writing -/

/-- A code unit as an escape with four hexadecimal digits. -/
def unitEscape (n : Nat) : Text :=
  let digits := Nat.toDigits 16 n
  "\\u" ++ Text.ofChars (List.replicate (4 - digits.length) '0' ++ digits)

/-- How a character is written inside a string. -/
def renderChar (c : Char) : Text :=
  if c = '"' then "\\\""
  else if c = '\\' then "\\\\"
  else if c = '\x08' then "\\b"
  else if c = '\x0c' then "\\f"
  else if c = '\n' then "\\n"
  else if c = '\r' then "\\r"
  else if c = '\t' then "\\t"
  else if c.toNat < 0x20 ∨ c = '<' ∨ c = '>' ∨ c = '&' ∨ c = '\u2028' ∨ c = '\u2029' then
    unitEscape c.toNat
  else String.utf8EncodeChar c

/-- How a piece of text is written inside a string. -/
def renderPiece : Text.Piece → Text
  | .char c => renderChar c
  | .stray _ => unitEscape 0xfffd

/-- A text as a string. -/
def renderString (t : Text) : Text := "\"" ++ t.pieces.flatMap renderPiece ++ "\""

/-- What is written in place of a list. -/
def absent : Text := "null"

/-- The list as an array of strings. -/
def render (ts : List Text) : Text := "[" ++ Text.join "," (ts.map renderString) ++ "]"

/-! ### Reading -/

/-- What a string is made of: characters, and code units given by number. -/
inductive Item where
  /-- A character. -/
  | char (c : Char)
  /-- A code unit. -/
  | unit (n : Nat)
  deriving DecidableEq, Repr

/-- The code unit written by four hexadecimal digits. -/
def unit? (a b c d : Char) : Option Nat := Number.hexCode? 4 [a, b, c, d]

/-- The character an escape of one letter stands for. -/
def escaped? (c : Char) : Option Char :=
  if c = '"' ∨ c = '\\' ∨ c = '/' then some c
  else if c = 'b' then some '\x08'
  else if c = 'f' then some '\x0c'
  else if c = 'n' then some '\n'
  else if c = 'r' then some '\r'
  else if c = 't' then some '\t'
  else none

/-- The items of a string up to its closing quote, and what follows the quote. -/
def items? : List Char → Option (List Item × List Char)
  | [] => none
  | '"' :: rest => some ([], rest)
  | '\\' :: 'u' :: a :: b :: c :: d :: rest => do
    let n ← unit? a b c d
    let (is, rest) ← items? rest
    return (.unit n :: is, rest)
  | '\\' :: c :: rest => do
    let e ← escaped? c
    let (is, rest) ← items? rest
    return (.char e :: is, rest)
  | c :: rest =>
    if c.toNat < 0x20 ∨ c = '\\' then none
    else (items? rest).map fun p => (.char c :: p.1, p.2)

/-- The characters of items. A leading and a trailing unit make one character; a half without its
other half is U+FFFD. -/
def itemChars : List Item → List Char
  | [] => []
  | .char c :: is => c :: itemChars is
  | .unit n :: .unit m :: is =>
    if !Encoding.isSurrogate n then Char.ofNat n :: itemChars (.unit m :: is)
    else if !Encoding.isTrailing n && Encoding.isTrailing m then
      Encoding.pairChar n m :: itemChars is
    else Text.replacement :: itemChars (.unit m :: is)
  | .unit n :: is =>
    (if Encoding.isSurrogate n then Text.replacement else Char.ofNat n) :: itemChars is

/-- White space between tokens. -/
def isGap (c : Char) : Bool := c == ' ' || c == '\t' || c == '\n' || c == '\r'

/-- A list without white space in front. -/
def skipGap (cs : List Char) : List Char := cs.dropWhile isGap

/-- The text of an element, and what follows it. -/
def element? (cs : List Char) : Option (Text × List Char) :=
  match skipGap cs with
  | '"' :: rest => (items? rest).map fun p => (Text.ofChars (itemChars p.1), p.2)
  | 'n' :: 'u' :: 'l' :: 'l' :: rest => some ([], rest)
  | _ => none

/-- The elements of an array up to its end, and what follows it. Each element takes at least one
character, so their number is bounded by `limit`, the number of characters. -/
def elements? : Nat → List Char → Option (List Text × List Char)
  | 0, _ => none
  | limit + 1, cs => do
    let (t, rest) ← element? cs
    match skipGap rest with
    | ']' :: rest => return ([t], rest)
    | ',' :: rest =>
      let (ts, rest) ← elements? limit rest
      return (t :: ts, rest)
    | _ => none

/-- Reads a list of texts. The inner option is empty for `null`. -/
def parse? (t : Text) : Option (Option (List Text)) :=
  let cs := t.chars
  let (list, rest) : Option (Option (List Text)) × List Char :=
    match skipGap cs with
    | 'n' :: 'u' :: 'l' :: 'l' :: rest => (some none, rest)
    | '[' :: inner =>
      match skipGap inner with
      | ']' :: rest => (some (some []), rest)
      | _ =>
        match elements? cs.length inner with
        | some (ts, rest) => (some (some ts), rest)
        | none => (none, [])
    | _ => (none, [])
  if skipGap rest = [] then list else none

end Stencil.StringList
