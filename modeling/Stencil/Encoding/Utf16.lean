import Stencil.Text.Utf8

/-!
# UTF-16

A byte sequence is read as 16-bit units in either byte order. A surrogate followed by a unit from
the trailing half is read together with it: a proper pair is one character, anything else one
U+FFFD. A surrogate on its own, and an odd byte at the end, is U+FFFD.

## Main definitions

* `Encoding.ByteOrder` – which byte of a unit comes first;
* `Encoding.decodeUtf16` – the characters of a byte sequence;
* `Encoding.takeByteOrderMark` – the byte order announced by a mark, and the bytes after it.
-/

namespace Stencil.Encoding

/-- Which byte of a 16-bit unit comes first. -/
inductive ByteOrder where
  /-- The more significant byte. -/
  | big
  /-- The less significant byte. -/
  | little
  deriving DecidableEq, Repr

/-- The unit written as the bytes `a`, `b`. -/
def ByteOrder.unit (o : ByteOrder) (a b : UInt8) : Nat :=
  match o with
  | .big => a.toNat * 256 + b.toNat
  | .little => b.toNat * 256 + a.toNat

/-- Whether a unit is one half of a pair. -/
def isSurrogate (u : Nat) : Bool := 0xd800 ≤ u && u ≤ 0xdfff

/-- Whether a unit can be the second half of a pair. -/
def isTrailing (u : Nat) : Bool := 0xdc00 ≤ u && u ≤ 0xdfff

/-- The character of a surrogate and the trailing unit after it. -/
def pairChar (lead trail : Nat) : Char :=
  if isTrailing lead then Text.replacement
  else Char.ofNat (0x10000 + (lead - 0xd800) * 0x400 + (trail - 0xdc00))

/-- The characters of a sequence of bytes. -/
def decodeUtf16 (o : ByteOrder) : Text → List Char
  | [] => []
  | [_] => [Text.replacement]
  | a :: b :: rest =>
    let u := o.unit a b
    if !isSurrogate u then Char.ofNat u :: decodeUtf16 o rest
    else
      match rest with
      | c :: d :: rest' =>
        if isTrailing (o.unit c d) then pairChar u (o.unit c d) :: decodeUtf16 o rest'
        else Text.replacement :: decodeUtf16 o (c :: d :: rest')
      | rest' => Text.replacement :: decodeUtf16 o rest'
termination_by t => t.length

/-- The byte order announced by the mark at the start, with the bytes after it; big endian if there
is no mark. -/
def takeByteOrderMark : Text → ByteOrder × Text
  | 0xfe :: 0xff :: rest => (.big, rest)
  | 0xff :: 0xfe :: rest => (.little, rest)
  | t => (.big, t)

end Stencil.Encoding
