import Stencil.Encoding.Basic
import Stencil.Markup.Scan

/-!
# Sources

A source is a sequence of bytes in some encoding. A byte order mark decides the encoding if there
is one; otherwise, and after a UTF-8 mark, the encoding pseudo attribute of the XML declaration
does, which is looked up in the bytes before anything is decoded. Only a source that is well-formed
UTF-8 after decoding is scanned.

## Main definitions

* `declaredEncoding` – the encoding name in the first bytes of a source;
* `decodeSource` – the characters of a source;
* `read` – scanning a source and handing its events to a receiver.
-/

namespace Stencil.Markup

/-- Why a source was not read to its end. -/
inductive ReadError (ε : Type) where
  /-- The source could not be decoded. -/
  | encoding (position : Position) (error : Encoding.DecodingError)
  /-- The source has a fault. -/
  | fault (stop : Stop)
  /-- The receiver refused an event. -/
  | refused (position : Position) (error : ε)
  /-- Reading was canceled. -/
  | canceled

/-- The position reported for a source that could not be decoded. -/
def sourceStart : Position := ⟨1, 1, 0, []⟩

/-- Blank bytes in a declaration. -/
def isBlankByte (b : UInt8) : Bool := b = 0x20 || b = 0x9 || b = 0xd || b = 0xa

/-- The text between the quotes that open the given text. -/
def quotedValue? : Text → Option Text
  | q :: t => if q = 0x22 || q = 0x27 then (Text.cut? q t).map Prod.fst else none
  | [] => none

/-- The value of the encoding pseudo attribute of the XML declaration at the start of a source, or
nothing. The declaration is not checked here. -/
def declaredEncoding (t : Text) : Text :=
  let value? : Option Text := do
    let _ ← Text.dropStart? "<?xml" t
    let decl := t.take (← Text.find? "?>" t)
    let rest := decl.drop ((← Text.find? "encoding" decl) + 8)
    let rest ← Text.dropStart? "=" (rest.dropWhile isBlankByte)
    quotedValue? (rest.dropWhile isBlankByte)
  value?.getD []

/-- The name of the encoding a source is decoded with, and the bytes to decode. -/
def sourceEncoding (t : Text) : Text × Text :=
  let (name, skip) := Encoding.sniff t
  let t := t.drop skip
  (if Encoding.isUtf8 name then declaredEncoding t else name, t)

variable [Encoding.Decoders]

/-- The characters of a source. -/
def decodeSource {ε : Type} (t : Text) : Except (ReadError ε) (List Char) :=
  let (name, t) := sourceEncoding t
  match Encoding.decode name t with
  | .error e => .error (.encoding sourceStart e)
  | .ok decoded =>
    match decoded.chars? with
    | none => .error (.fault ⟨sourceStart, .undecodable⟩)
    | some cs => .ok cs

/-- Scans a source and hands its events to a receiver. -/
def read {σ ε : Type} (receive : Located → σ → Except ε Unit × σ) (canceled : Bool) (t : Text)
    (s : σ) : Except (ReadError ε) Unit × σ :=
  match decodeSource t with
  | .error e => (.error e, s)
  | .ok cs =>
    let (events, ending) := scan canceled cs
    match deliver receive events s with
    | (some (e, error), s') => (.error (.refused e.position error), s')
    | (none, s') =>
      match ending with
      | .complete => (.ok (), s')
      | .canceled => (.error .canceled, s')
      | .fault stop => (.error (.fault stop), s')

end Stencil.Markup
