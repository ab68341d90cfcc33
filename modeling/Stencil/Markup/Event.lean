import Stencil.Markup.Fault

/-!
# Events

Reading a document yields a list of events, one per construct in source order. An event carries the
position of the first character of its construct; the byte offset and line text that go with it are
those of the cursor behind the construct, because that is how far reading has come when the event is
delivered.

Names are reported as written. Resolving what stands before the colon is up to the receiver.

## Main definitions

* `QName`, `Attr`, `Tag` – what tags are made of;
* `Event`, `Located` – the events and where they were found;
* `deliver` – handing events to a receiver until it refuses one.
-/

namespace Stencil.Markup

/-- A name with an optional part before a colon. -/
structure QName where
  /-- The part before the colon, empty if there is none. -/
  qualifier : Text
  /-- The part after the colon, or the whole name. -/
  name : Text
  deriving DecidableEq, Repr

/-- The name as it was written. -/
def QName.full (q : QName) : Text :=
  if q.qualifier = [] then q.name else q.qualifier ++ ":" ++ q.name

/-- An attribute of a start tag. -/
structure Attr where
  /-- The name. -/
  name : QName
  /-- The value, with references resolved. -/
  value : Text
  deriving DecidableEq, Repr

/-- A start tag or an end tag. -/
structure Tag where
  /-- The name. -/
  name : QName
  /-- The attributes in source order; an end tag has none. -/
  attrs : List Attr := []
  /-- Whether the tag was written in the self-closing form. -/
  selfClosing : Bool := false
  deriving DecidableEq, Repr

/-- What a document consists of, in the order of reading. -/
inductive Event where
  /-- Positions are available from here on. -/
  | locator
  /-- The beginning of the document. -/
  | startDocument
  /-- The end of the document. -/
  | endDocument
  /-- The XML declaration. -/
  | declaration (version encoding : Text) (standalone : Bool)
  /-- The document type declaration, verbatim. -/
  | doctype (raw : Text)
  /-- A processing instruction. -/
  | instruction (target data : Text)
  /-- The beginning of an element. -/
  | startTag (tag : Tag)
  /-- The end of an element; for a self-closing tag the same tag as its beginning. -/
  | endTag (tag : Tag)
  /-- A run of character data, or the character of a reference. -/
  | characters (text : Text)
  /-- A CDATA section. -/
  | cdata (text : Text)
  /-- A comment. -/
  | comment (text : Text)
  deriving DecidableEq, Repr

/-- An event and where it was found. -/
structure Located where
  /-- The line and column of the construct, and how far reading had come behind it. -/
  position : Position
  /-- The event. -/
  event : Event
  deriving DecidableEq, Repr

/-- Hands events to a receiver with a state, in order, until it refuses one. The state survives a
refusal, so that what the receiver did before is not lost. -/
def deliver {σ ε : Type} (receive : Located → σ → Except ε Unit × σ) :
    List Located → σ → Option (Located × ε) × σ
  | [], s => (none, s)
  | e :: es, s =>
    match receive e s with
    | (.ok (), s') => deliver receive es s'
    | (.error err, s') => (some (e, err), s')

end Stencil.Markup
