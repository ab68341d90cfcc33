import Stencil.Markup.Construct

/-!
# The grammar of markup

The productions of the grammar as relations between a text and what it stands for: names, references
and attribute values stand for names, characters and values, and everything else for events. Reading
is not mentioned here. References stand for their characters, line ends are unified, and white space
in attribute values becomes spaces.

Only elements and their content refer to each other; together with the parts of content they form
one family of relations (`Derives`), indexed by the nonterminal. All other productions are
definitions.

Two of the terminals are classes of the library: a legal character is any character of markup but
U+FFFD, and a name is no longer than the longest one that is accepted.

## Main definitions

* `Grammar.Name`, `Grammar.QualifiedName`, `Grammar.Reference`, `Grammar.AttributeValue`,
  `Grammar.Attributes`, `Grammar.StartTag`, `Grammar.EmptyTag`, `Grammar.EndTag`
* `Grammar.Comment`, `Grammar.Instruction`, `Grammar.CdataSection`, `Grammar.CharacterData`
* `Grammar.Derives` – elements and their content
* `Grammar.Miscs`, `Grammar.Document` – what stands around the root element, and documents
* `Grammar.NoDeclaration`, `Grammar.NoDoctype` – there are no declarations
-/

namespace Stencil.Markup.Grammar

/-! ### Names and references -/

/-- White space, possibly none: `S?`. -/
def Blank (t : List Char) : Prop := ∀ c ∈ t, isBlankChar c

/-- White space: `S`. -/
def Blanks (t : List Char) : Prop := t ≠ [] ∧ Blank t

/-- `Name ::= (Letter | '_' | ':') NameChar*`, of limited length. -/
def Name (n : List Char) : Prop :=
  ∃ c cs, n = c :: cs ∧ isNameStart c ∧ (∀ d ∈ cs, isNameChar d) ∧ n.length ≤ maxNameLength

/-- There is at most one colon, neither first nor last, and the parts before and behind it are those
of the given name. -/
def Splits (n : List Char) (q : QName) : Prop :=
  ':' ∉ n ∧ q = ⟨[], Text.ofChars n⟩ ∨
    ∃ p l, n = p ++ ':' :: l ∧ p ≠ [] ∧ l ≠ [] ∧ ':' ∉ p ∧ ':' ∉ l ∧
      q = ⟨Text.ofChars p, Text.ofChars l⟩

/-- A name with at most one colon, neither first nor last. -/
def QualifiedName (n : List Char) (q : QName) : Prop := Name n ∧ Splits n q

/-- The names of the predefined entities and their characters. -/
def entities : List (List Char × Char) :=
  [(['l', 't'], '<'), (['g', 't'], '>'), (['a', 'm', 'p'], '&'), (['a', 'p', 'o', 's'], '\''),
    (['q', 'u', 'o', 't'], '"')]

/-- Hexadecimal digits. -/
def isHexDigit (c : Char) : Bool := c.isDigit || ('a' ≤ c && c ≤ 'f') || ('A' ≤ c && c ≤ 'F')

/-- `Reference ::= '&' Name ';' | '&#' [0-9]+ ';' | '&#x' [0-9a-fA-F]+ ';'` with a predefined name
or the number of a legal character. -/
inductive Reference : List Char → Char → Prop
  | entity {n : List Char} {c : Char} : (n, c) ∈ entities → Reference (['&'] ++ n ++ [';']) c
  | decimal {ds : List Char} {c : Char} : ds ≠ [] → (∀ d ∈ ds, d.isDigit) →
      isLegalChar c → c.toNat = numeral 10 ds → Reference (['&', '#'] ++ ds ++ [';']) c
  | hexadecimal {ds : List Char} {c : Char} : ds ≠ [] → (∀ d ∈ ds, isHexDigit d) →
      isLegalChar c → c.toNat = numeral 16 ds → Reference (['&', '#', 'x'] ++ ds ++ [';']) c

/-! ### Tags -/

/-- A run of characters of an attribute value between the quotes `q`. -/
def ValueRun (q : Char) (t : List Char) : Prop :=
  ∀ c ∈ t, isLegalChar c ∧ c ≠ '<' ∧ c ≠ '&' ∧ c ≠ q

/-- What a run of characters of an attribute value stands for. -/
def flattenBlanks (t : List Char) : List Char :=
  (unifyLineEnds t).map fun c => if isBlankChar c then ' ' else c

/-- `([^<&q] | Reference)*`, the inside of an attribute value. -/
inductive ValueText (q : Char) : List Char → List Char → Prop
  | run {t : List Char} : ValueRun q t → ValueText q t (flattenBlanks t)
  | reference {t r u v : List Char} {c : Char} : ValueRun q t → Reference r c → ValueText q u v →
      ValueText q (t ++ r ++ u) (flattenBlanks t ++ c :: v)

/-- `AttValue ::= '"' ([^<&"] | Reference)* '"' | "'" ([^<&'] | Reference)* "'"`. -/
def AttributeValue (t : List Char) (v : Text) : Prop :=
  ∃ q u w, (q = '"' ∨ q = '\'') ∧ ValueText q u w ∧ t = [q] ++ u ++ [q] ∧ v = Text.ofChars w

/-- `Attribute ::= Name S? '=' S? AttValue`. -/
def Attribute (t : List Char) (a : Attr) : Prop :=
  ∃ n s s' v, QualifiedName n a.name ∧ Blank s ∧ Blank s' ∧ AttributeValue v a.value ∧
    t = n ++ s ++ ['='] ++ s' ++ v

/-- `(S Attribute)*`. -/
inductive Attributes : List Char → List Attr → Prop
  | nil : Attributes [] []
  | cons {s t u : List Char} {a : Attr} {as : List Attr} : Blanks s → Attribute t a →
      Attributes u as → Attributes (s ++ t ++ u) (a :: as)

/-- `'<' Name (S Attribute)* S?` and the given end, for an element with the name `n`. -/
def OpeningTag (close : List Char) (selfClosing : Bool) (t n : List Char) (tag : Tag) : Prop :=
  ∃ as s, QualifiedName n tag.name ∧ Attributes as tag.attrs ∧ Blank s ∧
    tag.selfClosing = selfClosing ∧ t = ['<'] ++ n ++ as ++ s ++ close

/-- `STag ::= '<' Name (S Attribute)* S? '>'`. -/
def StartTag : List Char → List Char → Tag → Prop := OpeningTag ['>'] false

/-- `EmptyElemTag ::= '<' Name (S Attribute)* S? '/>'`. -/
def EmptyTag : List Char → List Char → Tag → Prop := OpeningTag ['/', '>'] true

/-- `ETag ::= '</' Name S? '>'`, for an element with the name `n`. -/
def EndTag (t n : List Char) (tag : Tag) : Prop :=
  ∃ s, QualifiedName n tag.name ∧ Blank s ∧ tag.attrs = [] ∧ tag.selfClosing = false ∧
    t = ['<', '/'] ++ n ++ s ++ ['>']

/-! ### Comments, instructions, CDATA sections and character data -/

/-- `((Char - '-') | ('-' (Char - '-')))*`. -/
inductive CommentText : List Char → Prop
  | nil : CommentText []
  | char {c : Char} {t : List Char} : isLegalChar c → c ≠ '-' → CommentText t → CommentText (c :: t)
  | hyphen {c : Char} {t : List Char} : isLegalChar c → c ≠ '-' → CommentText t →
      CommentText ('-' :: c :: t)

/-- `Comment ::= '<!--' ((Char - '-') | ('-' (Char - '-')))* '-->'`. -/
def Comment (t : List Char) (event : Event) : Prop :=
  ∃ u, CommentText u ∧ t = ['<', '!', '-', '-'] ++ u ++ ['-', '-', '>'] ∧
    event = .comment (Text.ofChars (unifyLineEnds u))

/-- `Char* - (Char* term Char*)`. -/
def Without (term t : List Char) : Prop := (∀ c ∈ t, isLegalChar c) ∧ ¬ term <:+: t

/-- `PI ::= '<?' PITarget (S (Char* - (Char* '?>' Char*)))? '?>'`, where the target is not `xml` in
any case. The data begins with the first character that is not white space. -/
def Instruction (t : List Char) (event : Event) : Prop :=
  ∃ n, Name n ∧ n.map Char.toLower ≠ ['x', 'm', 'l'] ∧
    (t = ['<', '?'] ++ n ++ ['?', '>'] ∧ event = .instruction (Text.ofChars n) [] ∨
      ∃ s u, Blanks s ∧ Without ['?', '>'] u ∧ t = ['<', '?'] ++ n ++ s ++ u ++ ['?', '>'] ∧
        event = .instruction (Text.ofChars n)
          (Text.ofChars (unifyLineEnds (u.dropWhile isBlankChar))))

/-- `CDSect ::= '<![CDATA[' (Char* - (Char* ']]>' Char*)) ']]>'`. -/
def CdataSection (t : List Char) (event : Event) : Prop :=
  ∃ u, Without [']', ']', '>'] u ∧
    t = ['<', '!', '[', 'C', 'D', 'A', 'T', 'A', '['] ++ u ++ [']', ']', '>'] ∧
    event = .cdata (Text.ofChars (unifyLineEnds u))

/-- `CharData ::= [^<&]* - ([^<&]* ']]>' [^<&]*)`. -/
def CharacterData (t : List Char) : Prop :=
  (∀ c ∈ t, isLegalChar c ∧ c ≠ '<' ∧ c ≠ '&') ∧ ¬ [']', ']', '>'] <:+: t

/-- The event of character data; none if there are no characters. -/
def characterEvents (t : List Char) : List Event :=
  if t = [] then [] else [.characters (Text.ofChars (unifyLineEnds t))]

/-! ### Elements and their content -/

/-- The nonterminals that refer to each other. -/
inductive Nonterminal where
  /-- An element. -/
  | element
  /-- What stands between the tags of an element. -/
  | content
  /-- A part of content that begins with a delimiter. -/
  | part
  /-- Such parts, each with character data behind it. -/
  | parts
  deriving DecidableEq, Repr

/-- The productions of elements and their content:

* `element ::= EmptyElemTag | STag content ETag`, where both tags have the same name
* `content ::= CharData? parts`
* `parts ::= (part CharData?)*`
* `part ::= element | Reference | CDSect | PI | Comment` -/
inductive Derives : Nonterminal → List Char → List Event → Prop
  | empty {t n : List Char} {tag : Tag} : EmptyTag t n tag →
      Derives .element t [.startTag tag, .endTag tag]
  | nonempty {t u v n : List Char} {tag tag' : Tag} {es : List Event} : StartTag t n tag →
      Derives .content u es → EndTag v n tag' →
      Derives .element (t ++ u ++ v) ([.startTag tag] ++ es ++ [.endTag tag'])
  | content {t u : List Char} {es : List Event} : CharacterData t → Derives .parts u es →
      Derives .content (t ++ u) (characterEvents t ++ es)
  | nil : Derives .parts [] []
  | cons {t u v : List Char} {es es' : List Event} : Derives .part t es → CharacterData u →
      Derives .parts v es' → Derives .parts (t ++ u ++ v) (es ++ characterEvents u ++ es')
  | element {t : List Char} {es : List Event} : Derives .element t es → Derives .part t es
  | reference {t : List Char} {c : Char} : Reference t c →
      Derives .part t [.characters (Text.ofChars [c])]
  | cdata {t : List Char} {e : Event} : CdataSection t e → Derives .part t [e]
  | instruction {t : List Char} {e : Event} : Instruction t e → Derives .part t [e]
  | comment {t : List Char} {e : Event} : Comment t e → Derives .part t [e]

/-! ### Documents -/

/-- `Misc*`, where `Misc ::= Comment | PI | S`. -/
inductive Miscs : List Char → List Event → Prop
  | nil : Miscs [] []
  | blanks {t u : List Char} {es : List Event} : Blanks t → Miscs u es → Miscs (t ++ u) es
  | comment {t u : List Char} {e : Event} {es : List Event} : Comment t e → Miscs u es →
      Miscs (t ++ u) (e :: es)
  | instruction {t u : List Char} {e : Event} {es : List Event} : Instruction t e → Miscs u es →
      Miscs (t ++ u) (e :: es)

/-- The text does not begin like a declaration of its version and encoding, with `<?xml` and white
space. -/
def NoDeclaration (t : List Char) : Prop :=
  ∀ c u, t = ['<', '?', 'x', 'm', 'l'] ++ c :: u → isBlankChar c = false

/-- No declaration of a document type begins where the root element would. -/
def NoDoctype (t : List Char) : Prop :=
  ∀ m es u, Miscs m es → t ≠ m ++ ['<', '!', 'D', 'O', 'C', 'T', 'Y', 'P', 'E'] ++ u

/-- `document ::= Misc* element Misc*`. -/
def Document (t : List Char) (events : List Event) : Prop :=
  ∃ m e m' es es' es'', Miscs m es ∧ Derives .element e es' ∧ Miscs m' es'' ∧ t = m ++ e ++ m' ∧
    events = [.locator, .startDocument] ++ es ++ es' ++ es'' ++ [.endDocument]

end Stencil.Markup.Grammar
