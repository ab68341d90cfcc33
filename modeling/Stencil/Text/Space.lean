import Stencil.Text.Utf8

/-!
# White space

Blankness of a name, an expression or a piece of character data is decided by the Unicode property
White_Space, not only by the ASCII blanks. Stray bytes are never white space.

## Main definitions

* `isSpace` – the property;
* `Text.trim` – a text without white space at its ends;
* `Text.isBlank` – nothing but white space.
-/

namespace Stencil

/-- The Unicode property White_Space. -/
def isSpace (c : Char) : Bool :=
  let n := c.toNat
  (0x9 ≤ n && n ≤ 0xd) || n == 0x20 || n == 0x85 || n == 0xa0 || n == 0x1680 ||
    (0x2000 ≤ n && n ≤ 0x200a) || n == 0x2028 || n == 0x2029 || n == 0x202f || n == 0x205f ||
    n == 0x3000

namespace Text

/-- Whether a piece is a white space character. -/
def Piece.isSpace : Piece → Bool
  | .char c => Stencil.isSpace c
  | .stray _ => false

/-- The text without white space at either end. -/
def trim (t : Text) : Text :=
  let inner := t.pieces.dropWhile Piece.isSpace
  ofPieces (inner.reverse.dropWhile Piece.isSpace).reverse

/-- Whether the text holds nothing but white space. -/
def isBlank (t : Text) : Bool := t.pieces.all Piece.isSpace

end Text

end Stencil
