import Stencil.Text.Basic

/-!
# Reading UTF-8

Text is read as characters by splitting it into pieces: a well-formed UTF-8 sequence is one
character, and a byte at which no such sequence starts stands alone. A stray byte is one piece, so
that reading resumes with the very next byte; where characters are needed it counts as U+FFFD.

The reader keeps the number of bytes that belong to the character just read and skips them, which
makes it a structural recursion on the bytes.

## Main definitions

* `Text.Piece`, `Text.pieces` – the pieces of a text;
* `Text.chars` – the characters, with U+FFFD for stray bytes;
* `Text.chars?` – the characters of a well-formed text.
-/

namespace Stencil.Text

/-- The character that stands for undecodable input. -/
def replacement : Char := '\uFFFD'

/-- A piece of text is a character or a byte that belongs to none. -/
inductive Piece where
  /-- A character, written as a well-formed UTF-8 sequence. -/
  | char (c : Char)
  /-- A byte at which no well-formed UTF-8 sequence starts. -/
  | stray (b : UInt8)
  deriving DecidableEq, Repr

namespace Piece

/-- The bytes of the piece. -/
def bytes : Piece → Text
  | char c => String.utf8EncodeChar c
  | stray b => [b]

/-- The piece read as a character. -/
def toChar : Piece → Char
  | char c => c
  | stray _ => replacement

/-- Whether the piece is a character. -/
def isChar : Piece → Bool
  | char _ => true
  | stray _ => false

end Piece

/-- The payload of a continuation byte. -/
def continuation? (b : UInt8) : Option Nat :=
  if 0x80 ≤ b && b ≤ 0xbf then some (b.toNat - 0x80) else none

/-- The character with the given code, if the code is a scalar value not below `least`. The lower
bound excludes overlong forms. -/
def scalar? (least n : Nat) : Option Char :=
  if h : least ≤ n ∧ n.isValidChar then some (Char.ofNatAux n h.2) else none

/-- The character at the head of a text that starts with `b`, with the number of bytes it takes
after `b`. -/
def leading? (b : UInt8) (t : Text) : Option (Char × Nat) :=
  if b < 0x80 then (scalar? 0 b.toNat).map (·, 0)
  else if 0xc2 ≤ b && b ≤ 0xdf then do
    let b₁ :: _ := t | none
    let x₁ ← continuation? b₁
    (scalar? 0x80 ((b.toNat - 0xc0) * 64 + x₁)).map (·, 1)
  else if 0xe0 ≤ b && b ≤ 0xef then do
    let b₁ :: b₂ :: _ := t | none
    let x₁ ← continuation? b₁
    let x₂ ← continuation? b₂
    (scalar? 0x800 (((b.toNat - 0xe0) * 64 + x₁) * 64 + x₂)).map (·, 2)
  else if 0xf0 ≤ b && b ≤ 0xf4 then do
    let b₁ :: b₂ :: b₃ :: _ := t | none
    let x₁ ← continuation? b₁
    let x₂ ← continuation? b₂
    let x₃ ← continuation? b₃
    (scalar? 0x10000 ((((b.toNat - 0xf0) * 64 + x₁) * 64 + x₂) * 64 + x₃)).map (·, 3)
  else none

/-- The pieces of a text whose first `skip` bytes belong to a character already read. -/
def piecesFrom : Nat → Text → List Piece
  | _, [] => []
  | skip + 1, _ :: t => piecesFrom skip t
  | 0, b :: t =>
    match leading? b t with
    | some (c, n) => .char c :: piecesFrom n t
    | none => .stray b :: piecesFrom 0 t

/-- The pieces of a text, in order. -/
def pieces (t : Text) : List Piece := piecesFrom 0 t

/-- The text made of the given pieces. -/
def ofPieces (ps : List Piece) : Text := ps.flatMap Piece.bytes

/-- The text read as characters, each stray byte as U+FFFD. -/
def chars (t : Text) : List Char := t.pieces.map Piece.toChar

/-- The characters of a text, if it is well-formed UTF-8. -/
def chars? (t : Text) : Option (List Char) :=
  if t.pieces.all Piece.isChar then some t.chars else none

/-- The text as a string, if it is well-formed UTF-8. -/
def toString? (t : Text) : Option String := t.chars?.map String.ofList

end Stencil.Text
