import Stencil.Text.Escape
import Stencil.Markup.Cursor

/-!
# Faults in markup

What can be wrong with a source, one constructor per cause, and the one place that words them. A
fault found while reading is reported together with the position of the cursor.

## Main definitions

* `Fault`, `Fault.message` – the causes and their wording;
* `Stop` – a fault and where it was found;
* `Position.describe` – the wording of a position.
-/

namespace Stencil.Markup

/-- The ways in which a source can fail to be a document. -/
inductive Fault where
  /-- The decoded source is no UTF-8. -/
  | undecodable
  /-- An attribute value without its closing quote. -/
  | valueUnfinished
  /-- An attribute value without its opening quote. -/
  | valueRequired
  /-- A CDATA section without its end. -/
  | cdataUnfinished
  /-- A comment without its end. -/
  | commentUnfinished
  /-- A document type declaration without its end. -/
  | doctypeUnfinished
  /-- Something other than comments and instructions after the root element. -/
  | trailingContent
  /-- No root element. -/
  | rootRequired
  /-- A name without `=` after it. -/
  | equalsRequired
  /-- An end tag without `>`. -/
  | tagUnclosed
  /-- Two hyphens inside a comment. -/
  | hyphensInComment
  /-- A character that markup may not contain. -/
  | illegalChar (c : Char)
  /-- A character reference without digits. -/
  | charRefEmpty
  /-- A character reference to no legal character. -/
  | charRefInvalid (digits : Text)
  /-- A malformed name of an encoding. -/
  | encodingName (name : Text)
  /-- A processing instruction without its end. -/
  | instructionUnfinished
  /-- A name with a misplaced colon. -/
  | qualifiedName (name : Text)
  /-- A malformed version. -/
  | version (version : Text)
  /-- A malformed XML declaration. -/
  | declaration
  /-- An XML declaration without a version. -/
  | versionRequired
  /-- An XML declaration whose standalone value is neither yes nor no. -/
  | standaloneValue
  /-- The character `<` in an attribute value. -/
  | lessThanInValue
  /-- The end of a CDATA section in character data. -/
  | strayCdataEnd
  /-- An XML declaration that is not at the start. -/
  | declarationMisplaced
  /-- A missing name. -/
  | nameRequired
  /-- A name over the length limit. -/
  | nameTooLong
  /-- The input ended inside the root element. -/
  | unexpectedEnd
  /-- A reference without its semicolon. -/
  | semicolonRequired
  /-- White space is missing. -/
  | spaceRequired
  /-- An end tag that does not match the open element. -/
  | tagMismatch (opened closed : Text)
  /-- A reference to an entity that is not predefined. -/
  | undeclaredEntity (name : Text)
  deriving DecidableEq, Repr

/-- The wording of a fault. -/
def Fault.message : Fault → Text
  | undecodable => "source is not valid UTF-8 after decoding: invalid char"
  | valueUnfinished => "attribute value must end with a matching quote"
  | valueRequired => "attribute value must start with a quote"
  | cdataUnfinished => "invalid CDATA section (premature end)"
  | commentUnfinished => "comment not terminated"
  | doctypeUnfinished => "doctype not finished"
  | trailingContent => "extra content at document end"
  | rootRequired => "start tag expected, '<' not found"
  | equalsRequired => "'=' was required here"
  | tagUnclosed => "'>' was required here"
  | hyphensInComment => "'--' not allowed in comment"
  | illegalChar c => Text.ofCode c.toNat ++ ": invalid char"
  | charRefEmpty => "invalid character reference"
  | charRefInvalid digits => digits.quoted ++ ": invalid character reference"
  | encodingName name => name.quoted ++ ": invalid encoding name"
  | instructionUnfinished => "invalid processing instruction"
  | qualifiedName name => name.quoted ++ ": invalid qualified name"
  | version v => v.quoted ++ ": invalid version"
  | declaration => "invalid XML declaration"
  | versionRequired => "version is required: invalid XML declaration"
  | standaloneValue => "standalone must be 'yes' or 'no': invalid XML declaration"
  | lessThanInValue => "'<' not allowed in attribute value"
  | strayCdataEnd => "misplaced CDATA end ']]>'"
  | declarationMisplaced => "XML declaration allowed only at the start of the document"
  | nameRequired => "name is required"
  | nameTooLong => "name is too long"
  | unexpectedEnd => "end of document reached"
  | semicolonRequired => "';' is required"
  | spaceRequired => "space required"
  | tagMismatch opened closed =>
    opened.quoted ++ " closed by " ++ closed.quoted ++ ": opening and ending tag mismatch"
  | undeclaredEntity name => name.quoted ++ ": undeclared entity"

/-- A fault and where it was found. -/
structure Stop where
  /-- Where reading stopped. -/
  position : Position
  /-- What was wrong there. -/
  fault : Fault
  deriving DecidableEq, Repr

/-- A message with a line, a column and the text of the line up to there. -/
def describeAt (line column : Int) (text message : Text) : Text :=
  message ++ " at line " ++ Text.ofInt line ++ ", column " ++ Text.ofInt column ++
    "\n -> " ++ text.quoted ++ " <-- around here"

/-- A message with the position it belongs to. -/
def Position.describe (p : Position) (message : Text) : Text :=
  describeAt p.line p.column p.text message

end Stencil.Markup
