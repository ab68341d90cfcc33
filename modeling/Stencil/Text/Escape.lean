import Stencil.Text.Utf8

/-!
# Escaping text for markup

Two families of rules. The first works on bytes and replaces only the markup characters: it makes
character data and attribute values of a compiled template. The second works on characters and is
used where text of any origin has to end up in well-formed markup: it also replaces every stray
byte and every character that markup may not contain by U+FFFD, and it writes line ends and tabs
as references wherever a reader would otherwise change them.

## Main definitions

* `Text.escapeContent`, `Text.escapeValue` – markup characters only;
* `isMarkupChar` – the characters that markup may contain;
* `Text.escapeAttribute`, `Text.escapeCharacters` – the strict forms.
-/

namespace Stencil

/-- The characters that a markup document may contain. -/
def isMarkupChar (c : Char) : Bool :=
  let n := c.toNat
  n == 0x9 || n == 0xa || n == 0xd || (0x20 ≤ n && n ≤ 0xd7ff) || (0xe000 ≤ n && n ≤ 0xfffd) ||
    (0x10000 ≤ n && n ≤ 0x10ffff)

namespace Text

/-- The reference for a markup character in character data. -/
def contentReference? (b : UInt8) : Option Text :=
  if b = 0x26 then some "&amp;"
  else if b = 0x3c then some "&lt;"
  else if b = 0x3e then some "&gt;"
  else none

/-- The reference for a markup character between double quotes. -/
def valueReference? (b : UInt8) : Option Text :=
  if b = 0x22 then some "&quot;" else contentReference? b

/-- Character data with `&`, `<` and `>` as references. -/
def escapeContent (t : Text) : Text := t.substitute contentReference?

/-- An attribute value with `&`, `<`, `>` and `"` as references. -/
def escapeValue (t : Text) : Text := t.substitute valueReference?

/-- A piece as it stands if markup may contain it, and U+FFFD otherwise. -/
def Piece.legal : Piece → Text
  | .char c => if isMarkupChar c then String.utf8EncodeChar c else String.utf8EncodeChar replacement
  | .stray _ => String.utf8EncodeChar replacement

/-- Writes a text piece by piece: as `rule` says for its character, else as it stands if it is
legal. -/
def escapeWith (rule : Char → Option Text) (t : Text) : Text :=
  t.pieces.flatMap fun p =>
    match p with
    | .char c => (rule c).getD p.legal
    | .stray _ => p.legal

/-- How a character is written between double quotes. -/
def attributeRule (c : Char) : Option Text :=
  if c = '"' then some "&#34;"
  else if c = '&' then some "&amp;"
  else if c = '<' then some "&lt;"
  else if c = '>' then some "&gt;"
  else if c = '\n' then some "&#10;"
  else if c = '\r' then some "&#13;"
  else if c = '\t' then some "&#9;"
  else none

/-- How a character is written as character data; line feeds are references only on request. -/
def charactersRule (lineFeeds : Bool) (c : Char) : Option Text :=
  if c = '&' then some "&amp;"
  else if c = '<' then some "&lt;"
  else if c = '>' then some "&gt;"
  else if c = '\r' then some "&#13;"
  else if c = '\n' && lineFeeds then some "&#10;"
  else none

/-- The text in a form that can stand between double quotes. -/
def escapeAttribute (t : Text) : Text := t.escapeWith attributeRule

/-- The text as character data. -/
def escapeCharacters (t : Text) (lineFeeds : Bool) : Text := t.escapeWith (charactersRule lineFeeds)

end Text

end Stencil
