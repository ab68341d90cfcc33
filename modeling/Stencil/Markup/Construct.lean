import Stencil.Markup.Reader

/-!
# The constructs of markup

Readers for names, references, attribute values, tags, comments, processing instructions, CDATA
sections, character data and the two declarations, each for one construct of the grammar:

* `Name ::= (Letter | '_' | ':') NameChar*`, and a qualified name has at most one colon, neither
  first nor last;
* `Reference ::= '&' Name ';' | '&#' [0-9]+ ';' | '&#x' [0-9a-fA-F]+ ';'`, where the names are the
  five predefined ones;
* `AttValue ::= '"' ([^<&"] | Reference)* '"'`, or the same with single quotes;
* `STag ::= '<' QName (S Attribute)* S? '>'`, `EmptyElemTag` likewise with `/>`, and
  `ETag ::= '</' QName S? '>'`;
* `CharData` is a run without `<`, `&` and `]]>`.

Loops that consume at least one character per round take the number of characters left as their
bound; when the bound is used up, so is the input, and the answer is the one for the end of input.

## Main definitions

* `Reader.qname`, `Reader.reference`, `Reader.attr`, `Reader.startTag`, `Reader.endTag`;
* `Reader.comment`, `Reader.instruction`, `Reader.cdataSection`, `Reader.characterRun`;
* `Reader.declaration`, `Reader.doctype`.
-/

namespace Stencil.Markup

/-- The longest name that is accepted, in characters. -/
def maxNameLength : Nat := 50000

/-- How far character data is scanned ahead before the scanned part is consumed. -/
def chunkSize : Nat := 256

/-- The characters of the predefined entities. -/
def predefinedEntity? (name : Text) : Option Char :=
  if name = "lt" then some '<'
  else if name = "gt" then some '>'
  else if name = "amp" then some '&'
  else if name = "apos" then some '\''
  else if name = "quot" then some '"'
  else none

/-- The value of a digit in either base of a character reference. -/
def digitValue (c : Char) : Nat :=
  if c.isDigit then c.toNat - '0'.toNat
  else if 'a' ≤ c && c ≤ 'f' then c.toNat - 'a'.toNat + 10
  else c.toNat - 'A'.toNat + 10

/-- The number written with the given digits. -/
def numeral (base : Nat) (digits : List Char) : Nat :=
  digits.foldl (fun n c => n * base + digitValue c) 0

/-- The legal character with the given code. -/
def charOfCode? (n : Nat) : Option Char :=
  if h : n.isValidChar then
    let c := Char.ofNatAux n h
    if isLegalChar c then some c else none
  else none

/-- A version is `1.` and digits. -/
def isVersion (cs : List Char) : Bool :=
  match cs with
  | '1' :: '.' :: d :: ds => (d :: ds).all Char.isDigit
  | _ => false

/-- An encoding name is a letter followed by letters, digits, `.`, `_` and `-`. -/
def isEncodingName (cs : List Char) : Bool :=
  match cs with
  | [] => false
  | c :: cs => c.isAlpha && cs.all fun d => d.isAlphanum || d = '.' || d = '_' || d = '-'

/-- How a run of character data ended. -/
inductive RunEnd where
  /-- The bound on its length was reached. -/
  | full
  /-- Markup or a reference is next. -/
  | markup
  /-- The input is used up. -/
  | exhausted
  /-- The end of a CDATA section is next. -/
  | cdataEnd
  /-- A character that may not occur is next. -/
  | illegal (c : Char)
  deriving DecidableEq, Repr

/-- The longest run of character data of at most the given length. -/
def dataRun : Nat → List Char → List Char × RunEnd
  | 0, _ => ([], .full)
  | _ + 1, [] => ([], .exhausted)
  | n + 1, c :: cs =>
    if c = '<' || c = '&' then ([], .markup)
    else if [']', ']', '>'].isPrefixOf (c :: cs) then ([], .cdataEnd)
    else if !isLegalChar c then ([], .illegal c)
    else
      let (run, e) := dataRun n cs
      (c :: run, e)

/-- The number of characters of a document type declaration up to and including its end: the first
`>` outside quotes at which as many brackets were closed as opened. -/
def doctypeLength? : Option Char → Int → List Char → Option Nat
  | _, _, [] => none
  | some q, depth, c :: cs =>
    (doctypeLength? (if c = q then none else some q) depth cs).map (· + 1)
  | none, depth, c :: cs =>
    if c = '>' && depth = 0 then some 1
    else if c = '"' || c = '\'' then (doctypeLength? (some c) depth cs).map (· + 1)
    else if c = '[' then (doctypeLength? none (depth + 1) cs).map (· + 1)
    else if c = ']' then (doctypeLength? none (depth - 1) cs).map (· + 1)
    else (doctypeLength? none depth cs).map (· + 1)

namespace Reader

/-! ### Names and references -/

/-- A name. -/
def name : Reader (List Char) := do
  match (← cursor).rest with
  | [] => fail .unexpectedEnd
  | c :: rest =>
    if !isNameStart c then fail .nameRequired
    let more := rest.takeWhile isNameChar
    if more.length + 1 > maxNameLength then fail .nameTooLong
    advance (more.length + 1)
    return c :: more

/-- A qualified name. -/
def qname : Reader QName := do
  let n := Text.ofChars (← name)
  match n.cut? 0x3a with
  | none => return ⟨[], n⟩
  | some (qualifier, rest) =>
    if qualifier = [] || rest = [] || rest.contains 0x3a then fail (.qualifiedName n)
    return ⟨qualifier, rest⟩

/-- The digits and the semicolon of a character reference. -/
def charReferenceBody (base : Nat) (isDigit : Char → Bool) : Reader Char := do
  let digits ← takeWhile isDigit
  if digits.isEmpty then fail .charRefEmpty
  demand ";" .semicolonRequired
  match charOfCode? (numeral base digits) with
  | some c => return c
  | none => fail (.charRefInvalid (Text.ofChars digits))

/-- A reference, resolved to its character. -/
def reference : Reader Char := do
  if ← accept "&#x" then
    charReferenceBody 16 fun c => c.isDigit || ('a' ≤ c && c ≤ 'f') || ('A' ≤ c && c ≤ 'F')
  else if ← accept "&#" then
    charReferenceBody 10 Char.isDigit
  else
    demand "&" (.undeclaredEntity [])
    let n := Text.ofChars (← name)
    demand ";" .semicolonRequired
    match predefinedEntity? n with
    | some c => return c
    | none => fail (.undeclaredEntity n)

/-! ### Tags -/

/-- The rest of an attribute value, up to and including the quote `q`. References are resolved and
white space characters become spaces. -/
def valueRest (q : Char) : Nat → List Char → Reader Text
  | 0, _ => fail .valueUnfinished
  | n + 1, value => do
    match (← cursor).rest with
    | [] => fail .valueUnfinished
    | c :: rest =>
      if c = q then
        advance 1
        return Text.ofChars value.reverse
      else if c = '<' then fail .lessThanInValue
      else if c = '&' then
        let d ← reference
        valueRest q n (d :: value)
      else if c = '\r' && rest.head? = some '\n' then
        advance 2
        valueRest q n (' ' :: value)
      else if c = '\t' || c = '\n' || c = '\r' then
        advance 1
        valueRest q n (' ' :: value)
      else if !isLegalChar c then fail (.illegalChar c)
      else
        advance 1
        valueRest q n (c :: value)

/-- An attribute value. The number of characters left is at most `bound`. -/
def attributeValue (bound : Nat) : Reader Text := do
  match (← cursor).rest with
  | q :: _ =>
    if q != '"' && q != '\'' then fail .valueRequired
    advance 1
    valueRest q bound []
  | [] => fail .valueRequired

/-- An attribute. The number of characters left is at most `bound`. -/
def attr (bound : Nat) : Reader Attr := do
  let n ← qname
  let _ ← skipBlanks
  demand "=" .equalsRequired
  let _ ← skipBlanks
  return ⟨n, ← attributeValue bound⟩

/-- The attributes and the end of a start tag, which tells whether it is self-closing. The number of
characters left is below the bound. -/
def attributes : Nat → List Attr → Reader (List Attr × Bool)
  | 0, _ => fail .unexpectedEnd
  | n + 1, attrs => do
    let blank ← skipBlanks
    if (← cursor).done then fail .unexpectedEnd
    if ← accept "/>" then return (attrs.reverse, true)
    if ← accept ">" then return (attrs.reverse, false)
    if !blank then fail .spaceRequired
    let a ← attr n
    attributes n (a :: attrs)

/-- A start tag. The number of characters left is at most `bound`. -/
def startTag (bound : Nat) : Reader Tag := do
  demand "<" .rootRequired
  let n ← qname
  let (attrs, selfClosing) ← attributes (bound + 1) []
  return ⟨n, attrs, selfClosing⟩

/-- The end tag of the element with the given name. -/
def endTag (opened : Text) : Reader Tag := do
  demand "</" (.tagMismatch [] [])
  let n ← qname
  if n.full != opened then fail (.tagMismatch opened n.full)
  let _ ← skipBlanks
  demand ">" .tagUnclosed
  return ⟨n, [], false⟩

/-! ### Comments, instructions, CDATA sections and character data -/

/-- A comment; gives its text. -/
def comment : Reader Text := do
  demand "<!--" .commentUnfinished
  match ← scanTo "--" with
  | none => fail .commentUnfinished
  | some text =>
    demand ">" .hyphensInComment
    return text

/-- A processing instruction; gives its target and data. -/
def instruction : Reader (Text × Text) := do
  demand "<?" .instructionUnfinished
  let target ← name
  if target.map Char.toLower = ['x', 'm', 'l'] then fail .declarationMisplaced
  if ← accept "?>" then return (Text.ofChars target, [])
  unless ← skipBlanks do fail .spaceRequired
  match ← scanTo "?>" with
  | none => fail .instructionUnfinished
  | some data => return (Text.ofChars target, data)

/-- A CDATA section; gives its text. -/
def cdataSection : Reader Text := do
  demand "<![CDATA[" .cdataUnfinished
  match ← scanTo "]]>" with
  | none => fail .cdataUnfinished
  | some text => return text

/-- A run of character data, scanned in chunks of the given size. -/
def characterRun (chunk : Nat) : Nat → Reader (List Char)
  | 0 => return []
  | n + 1 => do
    let (run, e) := dataRun chunk (← cursor).rest
    advance run.length
    match e with
    | .full => return run ++ (← characterRun chunk n)
    | .markup | .exhausted => return run
    | .cdataEnd => fail .strayCdataEnd
    | .illegal c => fail (.illegalChar c)

/-! ### Declarations -/

/-- A quoted text without references. -/
def quotedText : Reader Text := do
  match (← cursor).rest with
  | q :: _ =>
    if q != '"' && q != '\'' then fail .valueRequired
    advance 1
    match ← scanTo (String.singleton q) with
    | some text => return text
    | none => fail .valueUnfinished
  | [] => fail .valueRequired

/-- The value of the pseudo attribute `label`, if it is next. -/
def pseudoAttribute (label : String) : Reader (Option Text) := do
  if ← accept label then
    let _ ← skipBlanks
    demand "=" .equalsRequired
    let _ ← skipBlanks
    return some (← quotedText)
  else return none

/-- The encoding of the XML declaration; empty if it names none. -/
def declaredEncoding : Reader Text := do
  match ← pseudoAttribute "encoding" with
  | none => return []
  | some e =>
    if !isEncodingName e.chars then fail (.encodingName e)
    let _ ← skipBlanks
    return e

/-- The standalone value of the XML declaration; `false` if it has none. -/
def declaredStandalone : Reader Bool := do
  match ← pseudoAttribute "standalone" with
  | none => return false
  | some s =>
    if s != "yes" && s != "no" then fail .standaloneValue
    let _ ← skipBlanks
    return s == "yes"

/-- The XML declaration; gives its version, encoding and standalone value. -/
def declaration : Reader (Text × Text × Bool) := do
  demand "<?xml" .declaration
  unless ← skipBlanks do fail .spaceRequired
  match ← pseudoAttribute "version" with
  | none => fail .versionRequired
  | some v =>
    if !isVersion v.chars then fail (.version v)
    let _ ← skipBlanks
    let encoding ← declaredEncoding
    let standalone ← declaredStandalone
    demand "?>" .declaration
    return (v, encoding, standalone)

/-- The document type declaration, verbatim but for its line ends. -/
def doctype : Reader Text := do
  let rest := (← cursor).rest
  let readable := rest.takeWhile (· != Text.replacement)
  match doctypeLength? none 0 readable with
  | some n =>
    advance n
    return Text.ofChars (unifyLineEnds (rest.take n))
  | none =>
    advance rest.length
    fail .doctypeUnfinished

end Reader

end Stencil.Markup
