import Stencil.Encoding.Utf16
import Stencil.Text.Utf8

/-!
# The characters of a settings document

Settings are written in YAML. A document comes as bytes, in UTF-16 if the mark of a byte order comes
first and in UTF-8 otherwise, and is loaded in pieces of 512 bytes. A character that does not fit
into a piece goes to the next one.

A piece is faulty if it is not well formed or has a character that no document may contain. This is
no fault of the document unless reading it gets that far: pieces that nobody asks for are not looked
at.

## Main definitions

* `Malformed` – the one thing that is reported about a document that cannot be read;
* `Coding`, `Coding.ofMark` – how bytes stand for characters;
* `pieces` – the characters of a document, piece by piece.
-/

namespace Stencil.Yaml

/-- Marks a document that cannot be read. Nothing more is reported about it. -/
inductive Malformed where
  /-- The document breaks a rule of the format, or has a value of the wrong type. -/
  | malformed
  deriving DecidableEq, Repr

/-- The characters that a document may contain. -/
def isDocumentChar (c : Char) : Bool :=
  let n := c.toNat
  n == 0x9 || n == 0xa || n == 0xd || (0x20 ≤ n && n ≤ 0x7e) || n == 0x85 ||
    (0xa0 ≤ n && n ≤ 0xd7ff) || (0xe000 ≤ n && n ≤ 0xfffd) || 0x10000 ≤ n

/-- How bytes stand for characters. -/
inductive Coding where
  /-- One to four bytes for a character. -/
  | utf8
  /-- One or two units of two bytes for a character. -/
  | utf16 (order : Encoding.ByteOrder)
  deriving DecidableEq, Repr

/-- What begins a sequence of bytes. -/
inductive Beginning where
  /-- A character of the given number of bytes. -/
  | char (c : Char) (size : Nat)
  /-- A character of which bytes are missing. -/
  | incomplete
  /-- No character. -/
  | invalid
  deriving DecidableEq, Repr

/-- The number of bytes of a character with the given first byte; 0 if there is none. -/
def utf8Size (b : UInt8) : Nat :=
  if b < 0x80 then 1
  else if b < 0xc0 then 0
  else if b < 0xe0 then 2
  else if b < 0xf0 then 3
  else if b < 0xf8 then 4
  else 0

namespace Coding

/-- The mark at the beginning of a document: the coding it stands for and its number of bytes. -/
def ofMark : Text → Coding × Nat
  | 0xff :: 0xfe :: _ => (.utf16 .little, 2)
  | 0xfe :: 0xff :: _ => (.utf16 .big, 2)
  | 0xef :: 0xbb :: 0xbf :: _ => (.utf8, 3)
  | _ => (.utf8, 0)

/-- What begins the sequence of the byte `b` and the bytes `t`. -/
def beginning (coding : Coding) (b : UInt8) (t : Text) : Beginning :=
  match coding with
  | .utf8 =>
    let size := utf8Size b
    if size = 0 then .invalid
    else if (t.take (size - 1)).length < size - 1 then .incomplete
    else
      match Text.leading? b t with
      | some (c, n) => .char c (n + 1)
      | none => .invalid
  | .utf16 order =>
    match t with
    | [] => .incomplete
    | b' :: t =>
      let u := order.unit b b'
      if Encoding.isTrailing u then .invalid
      else if Encoding.isSurrogate u then
        match t with
        | c :: c' :: _ =>
          let v := order.unit c c'
          if Encoding.isTrailing v then .char (Encoding.pairChar u v) 4 else .invalid
        | _ => .incomplete
      else .char (Char.ofNat u) 2

/-- The characters of a piece whose first `skip` bytes are already accounted for, and the bytes at
its end that belong to the next piece. -/
def charactersFrom (coding : Coding) : Nat → Text → Option (List Char × Text)
  | _, [] => some ([], [])
  | skip + 1, _ :: t => charactersFrom coding skip t
  | 0, b :: t =>
    match coding.beginning b t with
    | .incomplete => some ([], b :: t)
    | .invalid => none
    | .char c size =>
      if isDocumentChar c then do
        let (cs, rest) ← charactersFrom coding (size - 1) t
        return (c :: cs, rest)
      else none

end Coding

/-- The number of bytes of a piece. -/
def pieceSize : Nat := 512

/-- The characters of the pieces of some bytes, at most `bound` of them. The first piece begins with
the bytes `carry` and takes `room` further bytes. A faulty piece is the last one, and so is a
character that the end of the document cuts off. -/
def piecesFrom (coding : Coding) : Nat → Text → Nat → Text → List (Option (List Char))
  | 0, _, _, _ => []
  | _, carry, _, [] => if carry.isEmpty then [] else [none]
  | bound + 1, carry, room, t =>
    match coding.charactersFrom 0 (carry ++ t.take room) with
    | none => [none]
    | some (cs, rest) =>
      some cs :: piecesFrom coding bound rest (pieceSize - rest.length) (t.drop room)

/-- The characters of a document, piece by piece; nothing for a faulty piece. -/
def pieces (t : Text) : List (Option (List Char)) :=
  let (coding, size) := Coding.ofMark t
  piecesFrom coding (t.length + 1) [] (pieceSize - size) (t.drop size)

end Stencil.Yaml
