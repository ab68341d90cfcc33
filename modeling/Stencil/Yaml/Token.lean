import Stencil.Yaml.Mark
import Stencil.Yaml.Scalar

/-!
# Tokens

Reading tokens makes the structure of a document explicit. Indentation opens and closes blocks, and
the key of a mapping is recognised only by the colon behind it. So a token that may turn out to
begin a key is remembered, and when the colon comes the marks for the mapping and the key are
inserted in front of it. A key has to fit into one line and 1024 characters.

A candidate at the indentation of the enclosing block must be a key: a document where no colon
follows is malformed.

Tokens are read on demand, into a queue. At least three of them are read ahead, and more as long as
the first one may still turn out to begin a key. The candidates are found by the number of their
token; a number may outlive its candidate, and then leads to whatever is at that level. If the token
of a candidate has already been taken when the colon comes, the marks go to the end of the queue.

Comments are passed on the way. A comment that follows a token on the same line is passed together
with the token, and one that begins a line takes the comments after it along.

## Main definitions

* `Token` – the tokens;
* `Lexer` – the state of reading; `Lexer.start` – its beginning;
* `Lex.fetch` – reading one token; `Lex.fill` – reading ahead;
* `Lex.peek`, `Lex.drop` – looking at the next token and taking it.
-/

namespace Stencil.Yaml

/-- How a scalar is written. -/
inductive Style where
  /-- Without quotes; the text decides about its type. -/
  | plain
  /-- In quotes or as a block; it is a text. -/
  | quoted
  deriving DecidableEq, Repr

/-- The tokens of a document. -/
inductive Token where
  /-- The source begins. -/
  | start
  /-- A line with instructions for the reader. -/
  | directive (d : Directive)
  /-- The mark at the beginning of a document. -/
  | documentStart
  /-- The mark at the end of a document. -/
  | documentEnd
  /-- An indented sequence begins. -/
  | blockSequence
  /-- An indented mapping begins. -/
  | blockMapping
  /-- An indented sequence or mapping ends. -/
  | blockEnd
  /-- An opening bracket. -/
  | flowSequence
  /-- A closing bracket. -/
  | flowSequenceEnd
  /-- An opening brace. -/
  | flowMapping
  /-- A closing brace. -/
  | flowMappingEnd
  /-- The hyphen in front of an item. -/
  | blockEntry
  /-- A comma. -/
  | flowEntry
  /-- A key follows. -/
  | key
  /-- The value of a key follows. -/
  | value
  /-- A name for the node that follows. -/
  | anchor (name : List Char)
  /-- The node with a name. -/
  | reference (name : List Char)
  /-- The type of the node that follows. -/
  | tag (t : Tag)
  /-- A scalar. -/
  | scalar (style : Style) (text : List Char)
  /-- The source ends. -/
  | finish
  deriving DecidableEq, Repr

/-- A token that may turn out to begin a key. -/
structure Candidate where
  /-- Whether it still may. -/
  possible : Bool := false
  /-- Whether it has to be a key. -/
  required : Bool := false
  /-- The number of tokens before it. -/
  token : Nat := 0
  /-- The line it is in. -/
  line : Nat := 0
  /-- The column where it begins. -/
  column : Nat := 0
  /-- The number of characters before it. -/
  index : Nat := 0
  deriving Repr

/-- The state of reading. -/
structure Lexer where
  /-- Where in the source reading is. -/
  scan : ScanState
  /-- The tokens that are read and not yet taken. -/
  queue : List Token := [.start]
  /-- The number of tokens taken. -/
  taken : Nat := 0
  /-- The column of the innermost block, or a negative number outside of all blocks. -/
  indent : Int := -1
  /-- The columns of the enclosing blocks, innermost first. -/
  outer : List Int := []
  /-- The candidates for keys: one for what is outside of all brackets and braces, and one for each
  open bracket or brace. -/
  candidates : Array Candidate := #[{}]
  /-- The levels of the candidates by the number of their token. -/
  levels : List (Nat × Nat) := []
  /-- Whether a key may begin here. -/
  keyAllowed : Bool := true
  deriving Repr

/-- Reading at the beginning of a source of at most `size` characters in the given pieces. -/
def Lexer.start (size : Nat) (pieces : List (Option (List Char))) : Lexer :=
  { scan := { place := { later := pieces }, bound := size + 2 } }

/-- How deeply blocks, brackets and braces can be nested. -/
def maxDepth : Nat := 10000

/-- A computation on the state of reading. -/
abbrev Lex := StateT Lexer (Except Malformed)

namespace Lex

/-- Stops, because the document is malformed. -/
def fail {α : Type} : Lex α := fun _ => .error .malformed

/-- Reads characters. -/
def read {α : Type} (r : Scan α) : Lex α := fun s => do
  let (a, scan) ← r s.scan
  return (a, { s with scan })

/-- The place. -/
def place : Lex Place := do return (← get).scan.place

/-- Whether the place is inside brackets or braces. -/
def inFlow : Lex Bool := do return 1 < (← get).candidates.size

/-- Sets whether a key may begin next. -/
def allowKey (b : Bool) : Lex Unit := modify fun s => { s with keyAllowed := b }

/-- The number that the next token gets. -/
def nextNumber : Lex Nat := do
  let s ← get
  return s.taken + s.queue.length

/-- Adds a token at the end of the queue. -/
def emit (t : Token) : Lex Unit := modify fun s => { s with queue := s.queue ++ [t] }

/-- Puts a token in front of the one with the given number, or at the end of the queue if that one
has been taken. -/
def insert (number : Nat) (t : Token) : Lex Unit := do
  let s ← get
  if number < s.taken then emit t
  else
    let k := number - s.taken
    set { s with queue := s.queue.take k ++ t :: s.queue.drop k }

/-! ### Blocks and candidates -/

/-- Closes the blocks that begin right of a column. -/
def closeBlocks (column : Int) : Lex Unit := do
  if !(← inFlow) then go (← get).outer
where
  /-- Closes blocks along the columns of the enclosing ones. -/
  go : List Int → Lex Unit
    | [] => return
    | i :: is => do
      if column < (← get).indent then
        emit .blockEnd
        modify fun s => { s with indent := i, outer := is }
        go is

/-- Opens a block at a column unless one is open there, with its mark in front of the token with the
given number. -/
def openBlock (column number : Nat) (t : Token) : Lex Unit := do
  let s ← get
  if !(← inFlow) && s.indent < column then
    set { s with indent := column, outer := s.indent :: s.outer }
    if maxDepth < s.outer.length + 1 then fail
    insert number t

/-- The candidate at the innermost level. -/
def candidate : Lex Candidate := do return (← get).candidates.back?.getD {}

/-- Changes the candidate at a level. -/
def setCandidate (level : Nat) (c : Candidate) : Lex Unit :=
  modify fun s => { s with candidates := s.candidates.setIfInBounds level c }

/-- The innermost level. -/
def level : Lex Nat := do return (← get).candidates.size - 1

/-- Forgets that the token with the given number may begin a key. -/
def forget (number : Nat) : Lex Unit :=
  modify fun s => { s with levels := s.levels.filter (·.1 != number) }

/-- Gives up the innermost candidate, which must not be a required one. -/
def dropCandidate : Lex Unit := do
  let c ← candidate
  if c.possible then
    if c.required then fail
    setCandidate (← level) { c with possible := false }
    forget c.token

/-- Remembers that a key may begin here. -/
def addCandidate : Lex Unit := do
  let s ← get
  if s.keyAllowed then
    let p := s.scan.place
    let required := !(← inFlow) && s.indent == p.column
    let number ← nextNumber
    dropCandidate
    setCandidate (← level) ⟨true, required, number, p.line, p.column, p.index⟩
    let k ← level
    modify fun s => { s with levels := (number, k) :: s.levels }

/-- Whether the candidate at a level is close enough to be a key. One that is not is given up, and
must not be a required one. -/
def isValid (level : Nat) : Lex Bool := do
  let s ← get
  let c := s.candidates[level]?.getD {}
  let p := s.scan.place
  if !c.possible then return false
  if c.line < p.line || c.index + 1024 < p.index then
    if c.required then fail
    setCandidate level { c with possible := false }
    return false
  return true

/-! ### Blanks and comments -/

/-- How many characters a comment is looked for ahead. -/
def commentReach : Nat := 512

/-- The number of blanks in front of a comment in the rest of the line, behind the first `ahead` and
up to `limit` further ones. -/
def commentBehind : Nat → Nat → Scan (Option Nat)
  | 0, _ => return none
  | limit + 1, ahead => do
    Scan.need (ahead + 1)
    match ((← Scan.rest).drop ahead).head? with
    | some c =>
      if isBlank c then commentBehind limit (ahead + 1)
      else return if c == '#' then some ahead else none
    | none => return none

/-- The number of blanks and line ends in front of a comment in the lines that follow, behind the
first `ahead` and up to `limit` further ones. Only carriage returns and line feeds end lines here;
behind another line break one more character is looked at, and then no comment is found. -/
def commentBelow : Nat → Nat → Scan (Option Nat)
  | 0, _ => return none
  | limit + 1, ahead => do
    Scan.need (ahead + 1)
    match ((← Scan.rest).drop ahead).head? with
    | some c =>
      if isBlank c || c == '\n' || c == '\r' then commentBelow limit (ahead + 1)
      else if isBreak c then
        if 0 < limit then Scan.need (ahead + 2)
        return none
      else return if c == '#' then some ahead else none
    | none => return none

/-- Passes `n` characters, all of them blanks or line breaks. A carriage return and a line feed are
passed together. -/
def passGap (n : Nat) : Scan Unit := do
  let stop := (← Scan.place).index + n
  Scan.loop () fun () => do
    let p ← Scan.place
    if stop ≤ p.index then return .done ()
    match p.rest with
    | c :: _ =>
      if isBreak c then
        let _ ← Scan.takeBreak
      else
        Scan.skip
        Scan.need 1
      return .yield ()
    | [] => return .done ()

/-- Passes a comment that is next and those in the lines after it, up to the end of the last one. -/
def passComments : Scan Unit := do
  Scan.skipLine
  Scan.loop () fun () => do
    let next := (← Scan.rest).head?
    if next == some '\n' || next == some '\r' then
      match ← commentBelow (commentReach - 1) 1 with
      | some n =>
        passGap n
        Scan.skipLine
        return .yield ()
      | none => return .done ()
    else
      Scan.need 2
      return .done ()

/-- Passes a comment behind a token, if there is one on the same line. -/
def passLineComment : Scan Unit := do
  if !(← Scan.place).afterBreak then
    match ← commentBehind commentReach 0 with
    | some n =>
      passGap n
      Scan.skipLine
    | none => return

/-- Passes blanks, comments and line breaks. A tab is blank only where no key may begin. -/
def passBlanks : Lex Unit := do
  let rounds := (← get).scan.bound
  go rounds
where
  /-- Passes the rest of a line. -/
  go : Nat → Lex Unit
    | 0 => return
    | n + 1 => do
      read (Scan.need 1)
      let p ← place
      if p.column == 0 && p.markLoaded then read Scan.skip
      let tabs := (← inFlow) || !(← get).keyAllowed
      read (Scan.skipWhile fun c => c == ' ' || (tabs && c == '\t'))
      if ← read (Scan.isAt '#') then read passComments
      match (← place).rest with
      | c :: _ =>
        if isBreak c then
          let _ ← read Scan.takeBreak
          if !(← inFlow) then allowKey true
          go n
      | [] => return

/-! ### Single tokens -/

/-- An opening bracket or brace. -/
def openFlow (t : Token) : Lex Unit := do
  addCandidate
  let number ← nextNumber
  modify fun s => { s with candidates := s.candidates.push { token := number } }
  if maxDepth < (← level) then fail
  allowKey true
  read Scan.skip
  emit t

/-- A closing bracket or brace. -/
def closeFlow (t : Token) : Lex Unit := do
  dropCandidate
  if ← inFlow then
    forget (← candidate).token
    modify fun s => { s with candidates := s.candidates.pop }
  allowKey false
  read Scan.skip
  emit t

/-- A comma. -/
def comma : Lex Unit := do
  dropCandidate
  allowKey true
  read Scan.skip
  emit .flowEntry

/-- The mark of an item or of a written out key, which opens a block where one may begin. -/
def blockMark (opening t : Token) (allowed : Bool) : Lex Unit := do
  if !(← inFlow) then
    if !(← get).keyAllowed then fail
    openBlock (← place).column (← nextNumber) opening
  dropCandidate
  allowKey allowed
  read Scan.skip
  emit t

/-- A colon, behind a key or alone. -/
def valueMark : Lex Unit := do
  let c ← candidate
  if ← isValid (← level) then
    insert c.token .key
    openBlock c.column c.token .blockMapping
    setCandidate (← level) { c with possible := false }
    forget c.token
    allowKey false
  else
    if !(← inFlow) then
      if !(← get).keyAllowed then fail
      openBlock (← place).column (← nextNumber) .blockMapping
    allowKey !(← inFlow)
  read Scan.skip
  emit .value

/-- A mark at the beginning or end of a document. -/
def documentMark (t : Token) : Lex Unit := do
  closeBlocks (-1)
  dropCandidate
  allowKey false
  read (Scan.skips 3)
  emit t

/-- A line with a percent sign. -/
def directiveMark : Lex Unit := do
  closeBlocks (-1)
  dropCandidate
  allowKey false
  emit (.directive (← read Scan.directive))

/-- A token that may begin a key. -/
def keyToken (r : Scan Token) : Lex Unit := do
  addCandidate
  allowKey false
  emit (← read r)

/-- A plain scalar. A key may begin behind it if it ends in front of another line. -/
def plainScalar : Lex Unit := do
  addCandidate
  allowKey false
  let (text, newLine) ← read (Scan.plain (← inFlow) ((← get).indent + 1).toNat)
  if newLine then allowKey true
  emit (.scalar .plain text)

/-- A block scalar, which cannot be a key. -/
def blockScalar : Lex Unit := do
  dropCandidate
  allowKey true
  emit (.scalar .quoted (← read (Scan.block (← get).indent)))

/-- The end of the source, which ends the line if it has not ended. -/
def finish : Lex Unit := do
  modify fun s =>
    let p := s.scan.place
    if p.column = 0 then s
    else { s with scan := { s.scan with place := { p with line := p.line + 1, column := 0 } } }
  closeBlocks (-1)
  dropCandidate
  allowKey false
  emit .finish

/-- Characters that cannot begin a plain scalar, unless a word character follows some of them. -/
def isIndicator (c : Char) : Bool := "-?:,[]\x7b\x7d#&*!|>'\"%@`".toList.contains c

/-- Whether a plain scalar begins here. -/
def startsPlain (flow : Bool) : List Char → Bool
  | [] => false
  | c :: cs =>
    (!isBlank c && !isBreak c && !isIndicator c) ||
      (c == '-' && !(cs.head?.map isBlank).getD false) ||
      (!flow && (c == '?' || c == ':') && !endsWord cs)

/-- Reads a token that is neither a directive nor the mark of a document. -/
def content (c : Char) (cs : List Char) : Lex Unit := do
  let flow ← inFlow
  if c == '[' then openFlow .flowSequence
  else if c == '{' then openFlow .flowMapping
  else if c == ']' then closeFlow .flowSequenceEnd
  else if c == '}' then closeFlow .flowMappingEnd
  else if c == ',' then comma
  else if c == '-' && endsWord cs then blockMark .blockSequence .blockEntry true
  else if c == '?' && (flow || endsWord cs) then blockMark .blockMapping .key !flow
  else if c == ':' && (flow || endsWord cs) then valueMark
  else if c == '*' then keyToken (do return .reference (← Scan.name))
  else if c == '&' then keyToken (do return .anchor (← Scan.name))
  else if c == '!' then keyToken (do return .tag (← Scan.tag))
  else if (c == '|' || c == '>') && !flow then blockScalar
  else if c == '\'' || c == '"' then keyToken (do return .scalar .quoted (← Scan.quoted))
  else if startsPlain flow (c :: cs) then plainScalar
  else fail

/-- Reads one token, and more if blocks are closed or opened by it. -/
def fetch : Lex Unit := do
  read (Scan.need 1)
  passBlanks
  closeBlocks (← place).column
  read (Scan.need 4)
  let p ← place
  match p.rest with
  | [] => finish
  | c :: cs =>
    if p.column == 0 && c == '%' then directiveMark
    else if p.startsMarker '-' then documentMark .documentStart
    else if p.startsMarker '.' then documentMark .documentEnd
    else
      content c cs
      if (← get).queue.getLast? != some .blockEntry then read passLineComment

/-! ### Reading ahead -/

/-- Whether enough tokens have been read to take the first one. -/
def isReady : Lex Bool := do
  let s ← get
  match s.queue with
  | _ :: _ :: _ :: _ =>
    match s.levels.lookup s.taken with
    | some level => return !(← isValid level)
    | none => return true
  | _ => return false

/-- Reads tokens until the first one can be taken, at most `bound` of them. -/
def fillUpTo : Nat → Lex Unit
  | 0 => return
  | bound + 1 => do
    if !(← isReady) then
      fetch
      fillUpTo bound

/-- Reads tokens until the first one can be taken. Each of them uses a character, except at the end
of the source. -/
def fill : Lex Unit := do fillUpTo ((← get).scan.bound + 4)

/-- The next token. -/
def peek : Lex Token := do
  fill
  return (← get).queue.head?.getD .finish

/-- Takes the next token. -/
def drop : Lex Unit := modify fun s => { s with queue := s.queue.tail, taken := s.taken + 1 }

end Lex

end Stencil.Yaml
