import Stencil.Markup.Construct

/-!
# Scanning a document

A document is a prolog of comments and processing instructions, which may hold an XML declaration
at its very start and one document type declaration, then one element, then comments and processing
instructions again. Scanning it gives the list of events and how the scan ended. Open elements are
kept as a list of names, so nesting is bounded by the input alone.

The scan does not depend on the receiver of the events: a receiver that refuses an event simply
does not see the later ones. The one thing that can interrupt the scan from outside is
cancellation, which is looked at before every nested start tag.

## Main definitions

* `Scan`, `Ending` – the events so far and how a scan ended;
* `Scanner.document` – the grammar of a document;
* `scan` – the events of a decoded source.
-/

namespace Stencil.Markup

/-- How a scan ended. -/
inductive Ending where
  /-- The whole source was read. -/
  | complete
  /-- The scan was canceled. -/
  | canceled
  /-- The source has a fault. -/
  | fault (stop : Stop)
  deriving DecidableEq, Repr

/-- The state of a scan. -/
structure Scan where
  /-- The reading position. -/
  cursor : Cursor
  /-- The names of the open elements, innermost first. -/
  opened : List Text := []
  /-- The events so far, latest first. -/
  events : List Located := []

/-- A computation on a scan that may end it early. -/
abbrev Scanner := ExceptT Ending (StateM Scan)

namespace Scanner

/-- Runs a reader on the cursor of the scan. -/
def read {α : Type} (r : Reader α) : Scanner α := fun s =>
  match r s.cursor with
  | .ok (a, cur) => (.ok a, { s with cursor := cur })
  | .error stop => (.error (.fault stop), s)

/-- The reading position. -/
def cursor : Scanner Cursor := return (← get).cursor

/-- Ends the scan with a fault at the cursor. -/
def fail {α : Type} (fault : Fault) : Scanner α := read (Reader.fail fault)

/-- Reports an event for the construct that began at `mark`. -/
def emit (mark : Cursor) (event : Event) : Scanner Unit :=
  modify fun s =>
    let position := { s.cursor.position with line := mark.line, column := mark.column }
    { s with events := ⟨position, event⟩ :: s.events }

/-- Reads a construct and reports the event it makes. -/
def construct {α : Type} (r : Reader α) (event : α → Event) : Scanner Unit := do
  let mark ← cursor
  let a ← read r
  emit mark (event a)

/-- A processing instruction. -/
def instruction : Scanner Unit := construct Reader.instruction fun p => .instruction p.1 p.2

/-- A comment. -/
def comment : Scanner Unit := construct Reader.comment .comment

/-- A start tag; unless it closes itself, its element stays open. The number of characters left is
at most `bound`. -/
def startTag (bound : Nat) : Scanner Unit := do
  let mark ← cursor
  let tag ← read (Reader.startTag bound)
  emit mark (.startTag tag)
  if tag.selfClosing then emit mark (.endTag tag)
  else modify fun s => { s with opened := tag.name.full :: s.opened }

/-- The end tag of the innermost open element. -/
def endTag : Scanner Unit := do
  let opened := (← get).opened.headD []
  let mark ← cursor
  let tag ← read (Reader.endTag opened)
  modify fun s => { s with opened := s.opened.tail }
  emit mark (.endTag tag)

/-- A run of character data. The number of characters left is at most `bound`. -/
def characters (bound : Nat) : Scanner Unit := do
  let mark ← cursor
  let run ← read (Reader.characterRun chunkSize (bound + 1))
  unless run.isEmpty do emit mark (.characters (Text.ofChars (unifyLineEnds run)))

/-- One construct of the content of an element. The number of characters left is at most `bound`. -/
def contentItem (canceled : Bool) (bound : Nat) : Scanner Unit := do
  let cur ← cursor
  if cur.startsWith "</" then endTag
  else if cur.startsWith "<?" then instruction
  else if cur.startsWith "<!--" then comment
  else if cur.startsWith "<![CDATA[" then construct Reader.cdataSection .cdata
  else if cur.startsWith "<" then
    if canceled then throw .canceled
    startTag bound
  else if cur.startsWith "&" then
    construct Reader.reference fun c => .characters (Text.ofChars [c])
  else characters bound

/-- Content until every open element is closed. Each round consumes at least one character, so the
number of characters left bounds the rounds, and what is left of the bound is a bound on the
characters left. -/
def content (canceled : Bool) : Nat → Scanner Unit
  | 0 => do unless (← get).opened.isEmpty do fail .unexpectedEnd
  | n + 1 => do
    let s ← get
    unless s.opened.isEmpty do
      if s.cursor.done then fail .unexpectedEnd
      contentItem canceled (n + 1)
      content canceled n

/-- White space, comments and processing instructions around the root element. -/
def misc : Nat → Scanner Unit
  | 0 => return
  | n + 1 => do
    let _ ← read Reader.skipBlanks
    let cur ← cursor
    if cur.startsWith "<?" then
      instruction
      misc n
    else if cur.startsWith "<!--" then
      comment
      misc n

/-- Comments and instructions, as many as there are. -/
def miscs : Scanner Unit := do misc ((← cursor).rest.length + 1)

/-- Whether the XML declaration is next: its opening must be followed by white space. -/
def atDeclaration (cur : Cursor) : Bool :=
  cur.startsWith "<?xml" && ((cur.rest[5]?).map isBlankChar).getD false

/-- A whole document. -/
def document (canceled : Bool) : Scanner Unit := do
  let start ← cursor
  emit start .locator
  emit start .startDocument
  if atDeclaration start then construct Reader.declaration fun d => .declaration d.1 d.2.1 d.2.2
  miscs
  if (← cursor).startsWith "<!DOCTYPE" then
    construct Reader.doctype .doctype
    miscs
  let cur ← cursor
  if !cur.startsWith "<" then fail .rootRequired
  startTag cur.rest.length
  content canceled (← cursor).rest.length
  miscs
  let last ← cursor
  if !last.done then fail .trailingContent
  emit last .endDocument

end Scanner

/-- The events of a decoded source, and how reading it ended. -/
def scan (canceled : Bool) (source : List Char) : List Located × Ending :=
  match (Scanner.document canceled).run { cursor := Cursor.start source } with
  | (.ok (), s) => (s.events.reverse, .complete)
  | (.error e, s) => (s.events.reverse, e)

end Stencil.Markup
