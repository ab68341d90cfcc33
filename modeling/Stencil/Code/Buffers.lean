import Stencil.Text.Basic
import Stencil.Text.Space

/-!
# Code buffers

The code buffers of a node hold the code for each place around it, as the pieces in which it was
written. A blank separates a piece from what stood there before it was added. A place counts as used
from the first time something was written to it, even if what was written is empty.

Linking puts the contents of several places together. A fixed piece between places is written only
directly behind a place that was used. The result is program code between delimiters, or the bare
text without white space at its ends.

## Main definitions

* `Slot` – the places; `Slot.all` – in their order; `Slot.label` – their names;
* `Piece` – what is added to a place at once;
* `Buffers` – the buffers of a node; `Buffers.pieces`, `Buffers.content`, `Buffers.isUsed`;
* `Buffers.append`, `Buffers.prepend`, `Buffers.copy` – writing;
* `Buffers.link` – putting the contents of places together.
-/

namespace Stencil.Code

/-! ## Places for generated code

Code that a stage generates for a node goes to one of a fixed number of places around the node: in
front of an element, behind its opening tag, into the value of an attribute and so on. -/

/-- The places around a node that can hold code. -/
inductive Slot where
  | before | after
  | openingBefore | openingAfter
  | closingBefore | closingAfter
  | contentBefore | contentAfter
  | name
  | attributesBefore | attributesAfter
  | beginningAttributes | endingAttributes
  | attributeBegin | attributeEnd | attributeName | attributeValue
  | content
  | singleBefore | singleAfter
  deriving DecidableEq, Repr

namespace Slot

/-- All places in order. -/
def all : List Slot :=
  [before, after, openingBefore, openingAfter, closingBefore, closingAfter, contentBefore,
   contentAfter, name, attributesBefore, attributesAfter, beginningAttributes, endingAttributes,
   attributeBegin, attributeEnd, attributeName, attributeValue, content, singleBefore, singleAfter]

/-- The name of a place. -/
def label : Slot → Text
  | before => "before"
  | after => "after"
  | openingBefore => "opening-before"
  | openingAfter => "opening-after"
  | closingBefore => "closing-before"
  | closingAfter => "closing-after"
  | contentBefore => "content-before"
  | contentAfter => "content-after"
  | name => "name"
  | attributesBefore => "attributes-before"
  | attributesAfter => "attributes-after"
  | beginningAttributes => "beginning-attributes"
  | endingAttributes => "ending-attributes"
  | attributeBegin => "attribute-begin"
  | attributeEnd => "attribute-end"
  | attributeName => "attribute-name"
  | attributeValue => "attribute-value"
  | content => "content"
  | singleBefore => "single-before"
  | singleAfter => "single-after"

/-- The place with the given name. -/
def find? (t : Text) : Option Slot := all.find? fun s => s.label == t

/-- The name of the place with the given number; numbers without a place are named as such. -/
def labelAt (n : Int) : Text :=
  let found := if n < 0 then none else all[n.toNat]?
  (found.map label).getD ("tag(" ++ Text.ofInt n ++ ")")

end Slot

/-! ## Pieces of code -/

/-- A piece of code, added behind or in front of what was there before. -/
inductive Piece where
  /-- Code added behind. -/
  | behind (code : Text)
  /-- Code added in front. -/
  | ahead (code : Text)
  deriving DecidableEq, Repr

namespace Piece

/-- The code that was added. -/
def code : Piece → Text
  | behind c | ahead c => c

/-- The code with the blank that separates it. -/
def text : Piece → Text
  | behind c => " " ++ c
  | ahead c => c ++ " "

end Piece

/-- The code buffers of a node. -/
structure Buffers where
  /-- The pieces in the used places. -/
  used : List (Slot × List Piece) := []
  /-- Whether the code gives the same result every time. -/
  isStatic : Bool := false
  deriving DecidableEq, Repr

/-- The opening delimiter of program code. -/
def openDelimiter : Text := "<?php "

/-- The closing delimiter of program code. -/
def closeDelimiter : Text := " ?>"

/-- A part of a link. -/
inductive Part where
  /-- The content of a place. -/
  | slot (s : Slot)
  /-- A fixed piece. -/
  | literal (t : Text)
  deriving DecidableEq, Repr

namespace Buffers

/-- The pieces in a place, if it is used. -/
def get? (b : Buffers) (s : Slot) : Option (List Piece) :=
  (b.used.find? fun e => e.1 = s).map Prod.snd

/-- The pieces in a place; none if it is not used. -/
def pieces (b : Buffers) (s : Slot) : List Piece := (b.get? s).getD []

/-- The content of a place. -/
def content (b : Buffers) (s : Slot) : Text := (b.pieces s).flatMap Piece.text

/-- Whether something was written to a place. -/
def isUsed (b : Buffers) (s : Slot) : Bool := (b.get? s).isSome

/-- Whether a place holds any code. -/
def hasContent (b : Buffers) (s : Slot) : Bool := b.content s != []

/-- Replaces the pieces in a place. -/
def write (b : Buffers) (s : Slot) (ps : List Piece) : Buffers :=
  { b with used := (s, ps) :: b.used.filter fun e => e.1 ≠ s }

/-- Reading a place after writing to one. -/
theorem get?_write (b : Buffers) (s r : Slot) (ps : List Piece) :
    (b.write s ps).get? r = if r = s then some ps else b.get? r := by
  by_cases h : r = s
  · simp [write, get?, h]
  · have hs : s ≠ r := fun e => h e.symm
    simp only [write, get?, List.find?_cons, hs, decide_false, if_false, h,
      List.find?_filter]
    congr 2
    funext e
    by_cases he : e.1 = r <;> simp [he, h]

/-- Adds code behind the content of a place. -/
def append (b : Buffers) (s : Slot) (code : Text) : Buffers :=
  b.write s (b.pieces s ++ [.behind code])

/-- Adds code in front of the content of a place. -/
def prepend (b : Buffers) (s : Slot) (code : Text) : Buffers :=
  b.write s (.ahead code :: b.pieces s)

/-- Adds the content of a place of `source` behind the content of a place. -/
def copy (b source : Buffers) (src dst : Slot) : Buffers :=
  b.write dst (b.pieces dst ++ source.pieces src)

/-- Marks the code as giving the same result every time, or not. -/
def setStatic (b : Buffers) (v : Bool) : Buffers := { b with isStatic := v }

/-- Empties all places. -/
def clear (b : Buffers) : Buffers := { b with used := [] }

/-! ### Linking -/

/-- The contents of the given parts. `literals` says whether a fixed piece would be written here,
and `write` how it is written. -/
def linkParts (b : Buffers) (write : Text → Text) : Bool → List Part → Text
  | _, [] => []
  | _, .slot s :: parts => b.content s ++ b.linkParts write (b.isUsed s) parts
  | literals, .literal t :: parts =>
    (if literals then write t else []) ++ b.linkParts write false parts

/-- Program code between its delimiters, or nothing if there is no code. -/
def delimited (code : Text) : Text :=
  if code = [] then [] else openDelimiter ++ code ++ closeDelimiter

/-- The linked parts as program code. -/
def linkCode (b : Buffers) (parts : List Part) : Text :=
  delimited (b.linkParts (fun t => " echo '" ++ t ++ "'") false parts)

/-- The linked parts as bare text. -/
def linkText (b : Buffers) (parts : List Part) : Text := (b.linkParts id false parts).trim

/-- The contents of the given places as program code. -/
def link (b : Buffers) (slots : List Slot) : Text := b.linkCode (slots.map .slot)

end Buffers

end Stencil.Code
