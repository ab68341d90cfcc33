import Stencil.Number.Literal
import Stencil.Yaml.Scan

/-!
# Scalars

A scalar is written plainly, between quotes, or as an indented block. A plain or quoted scalar may
continue on further lines; the line breaks are then folded. A block keeps its line breaks if it is
literal, and folds those between lines of equal indentation if it is not.

The text of a scalar is collected last character first and turned around at its end.

## Main definitions

* `Gap`, `Scan.gap` – the blanks and line breaks before the next word;
* `foldBreaks` – what line breaks inside a scalar stand for;
* `Scan.plain`, `Scan.quoted`, `Scan.block` – the readers of the three forms.
-/

namespace Stencil.Yaml

/-! ### Gaps -/

/-- What line breaks between two words stand for: a single line feed for a blank, and a line feed
with further breaks for the latter. -/
def foldBreaks : List Char → List Char
  | ['\n'] => [' ']
  | '\n' :: bs => bs
  | bs => bs

/-- The blanks and line breaks in front of a word. -/
structure Gap where
  /-- The blanks if there is no line break, the last one first. -/
  blanks : List Char := []
  /-- The line breaks, the last one first. -/
  breaks : List Char := []
  /-- Whether the gap reaches into another line. -/
  spansLines : Bool := false
  deriving Repr

/-- What the gap stands for inside a scalar. -/
def Gap.text (g : Gap) : List Char :=
  if g.spansLines then foldBreaks g.breaks.reverse else g.blanks.reverse

/-- Passes a gap of which a part has been passed. A tab left of the column `least` in a line after
the first is used for indentation, which is a fault. -/
def Scan.gap (least : Nat) (g : Gap) : Scan Gap :=
  loop g fun g => do
    let p ← place
    match p.rest with
    | c :: _ =>
      if isBlank c then
        if g.spansLines && c == '\t' && p.column < least then fail
        skip
        need 1
        return .yield (if g.spansLines then g else { g with blanks := c :: g.blanks })
      else if isBreak c then
        let b ← takeBreak
        need 1
        return .yield { breaks := b.toList ++ g.breaks, spansLines := true }
      else return .done g
    | [] => return .done g

/-! ### Plain scalars -/

/-- Characters that end a word inside brackets or braces. -/
def isFlowIndicator (c : Char) : Bool := [',', '?', '[', ']', '{', '}'].contains c

/-- Whether a plain word ends in front of these characters. -/
def endsPlain (flow : Bool) : List Char → Bool
  | [] => true
  | c :: cs =>
    isBlank c || isBreak c || (c == ':' && endsWord cs) || (flow && isFlowIndicator c)

/-- Passes a plain word and gives it last character first. -/
def Scan.plainWord (flow : Bool) : Scan (List Char) :=
  loop [] fun w => do
    match ← rest with
    | c :: cs =>
      if endsPlain flow (c :: cs) then return .done w
      else
        skip
        need 2
        return .yield (c :: w)
    | [] => return .done w

/-- Reads a plain scalar. Gives its characters, and whether a line break was passed behind the last
of them. A word left of the column `least` belongs to something else, except inside brackets or
braces. -/
def Scan.plain (flow : Bool) (least : Nat) : Scan (List Char × Bool) := do
  let (text, g) ← loop (([], {}) : List Char × Gap) fun (text, g) => do
    need 4
    let p ← place
    if p.atMarker || p.isAt '#' then return .done (text, g)
    let word ← plainWord flow
    let (text, g) := if word.isEmpty then (text, g) else (word ++ g.text.reverse ++ text, {})
    let next ← rest
    if next.isEmpty || !endsWord next then return .done (text, g)
    let g ← gap least g
    if !flow && (← place).column < least then return .done (text, g)
    return .yield (text, g)
  return (text.reverse, g.spansLines)

/-! ### Quoted scalars -/

/-- The characters that a letter after a backslash stands for. -/
def escapes : List (Char × Nat) :=
  [('0', 0), ('a', 0x7), ('b', 0x8), ('t', 0x9), ('\t', 0x9), ('n', 0xa), ('v', 0xb), ('f', 0xc),
   ('r', 0xd), ('e', 0x1b), (' ', 0x20), ('"', 0x22), ('\'', 0x27), ('\\', 0x5c),
   ('N', 0x85), ('_', 0xa0), ('L', 0x2028), ('P', 0x2029)]

/-- The number of hexadecimal digits after a letter behind a backslash. -/
def codeLengths : List (Char × Nat) := [('x', 2), ('u', 4), ('U', 8)]

/-- Reads a backslash and what belongs to it, where `c` is the character behind the backslash. -/
def Scan.escape (c : Char) : Scan Char := do
  skips 2
  match escapes.lookup c, codeLengths.lookup c with
  | some n, _ => return Char.ofNat n
  | none, some length =>
    need length
    match Number.hexCode? length (← rest) with
    | some code =>
      if code.isValidChar then
        skips length
        return Char.ofNat code
      else fail
    | none => fail
  | none, none => fail

/-- Passes characters up to a gap, the closing quote, or a backslash and a line break, and adds what
they stand for to the text. Gives the text last character first, and whether a backslash and a line
break were passed. -/
def Scan.quotedRun (double : Bool) (text : List Char) : Scan (List Char × Bool) :=
  loop (text, false) fun (text, _) => do
    match ← rest with
    | [] => return .done (text, false)
    | c :: cs =>
      if isBlank c || isBreak c || (double && c == '"') then return .done (text, false)
      else if !double && c == '\'' then
        if cs.head? == some '\'' then
          skips 2
          need 2
          return .yield ('\'' :: text, false)
        else return .done (text, false)
      else if double && c == '\\' then
        match cs with
        | [] => fail
        | d :: _ =>
          if isBreak d then
            need 3
            skip
            let _ ← takeBreak
            return .done (text, true)
          else
            let e ← escape d
            need 2
            return .yield (e :: text, false)
      else
        skip
        need 2
        return .yield (c :: text, false)

/-- Reads a quoted scalar, whose opening quote is next. -/
def Scan.quoted : Scan (List Char) := do
  let double ← isAt '"'
  skip
  let text ← loop [] fun text => do
    need 4
    let p ← place
    if p.atMarker || p.rest.isEmpty then fail
    let (text, escaped) ← quotedRun double text
    need 1
    if ← isAt (if double then '"' else '\'') then return .done text
    let g ← gap 0 { spansLines := escaped }
    return .yield ((if escaped then g.breaks else g.text.reverse) ++ text)
  skip
  return text.reverse

/-! ### Blocks -/

/-- What happens to the line breaks at the end of a block. -/
inductive Chomping where
  /-- All are dropped. -/
  | strip
  /-- One is kept. -/
  | clip
  /-- All are kept. -/
  | keep
  deriving DecidableEq, Repr

/-- Reads the mark for what happens at the end of a block, if it is there. -/
def Scan.chomping : Scan Chomping := do
  need 1
  if ← accept '+' then return .keep
  else if ← accept '-' then return .strip
  else return .clip

/-- Reads the indentation of a block, if it is given. An indentation of zero cannot be asked for. -/
def Scan.increment : Scan Nat := do
  need 1
  match ← rest with
  | c :: _ =>
    if c == '0' then fail
    else if c.isDigit then
      skip
      return c.toNat - 0x30
    else return 0
  | [] => return 0

/-- Reads the marks behind the sign of a block, in either order. -/
def Scan.blockMarks : Scan (Chomping × Nat) := do
  match ← chomping with
  | .clip =>
    let n ← increment
    let k ← if n = 0 then pure .clip else chomping
    return (k, n)
  | k => return (k, ← increment)

/-- Passes empty lines and the indentation of the next line. Gives the line breaks, the last one
first, in front of those passed before, and the largest column reached. With an indentation of zero
all blanks count as indentation. -/
def Scan.blockBreaks (indent : Nat) (breaks : List Char) : Scan (List Char × Nat) :=
  loop (breaks, 0) fun (breaks, column) => do
    need 1
    let _ ← loop () fun () => do
      let p ← place
      if (indent = 0 || p.column < indent) && p.isAt ' ' then
        skip
        need 1
        return .yield ()
      else return .done ()
    let p ← place
    let column := max column p.column
    if (indent = 0 || p.column < indent) && p.isAt '\t' then fail
    match p.rest with
    | c :: _ =>
      if isBreak c then
        let b ← takeBreak
        return .yield (b.toList ++ breaks, column)
      else return .done (breaks, column)
    | [] => return .done (breaks, column)

/-- What has been read of a block. -/
structure BlockText where
  /-- The characters, the last one first. -/
  text : List Char := []
  /-- The line break behind the last line. -/
  own : Option Char := none
  /-- The breaks of the empty lines behind it, the last one first. -/
  more : List Char := []
  /-- Whether the last line begins with a blank. -/
  blank : Bool := false
  deriving Repr

/-- What the line breaks before the next line stand for, the last one first. In a folded block a
break between lines that both begin without a blank is a blank, or nothing if empty lines
follow. -/
def BlockText.joint (b : BlockText) (folds : Bool) : List Char :=
  b.more ++
    if folds && !b.blank && b.own == some '\n' then (if b.more.isEmpty then [' '] else [])
    else b.own.toList

/-- Reads the lines of a block at its indentation. -/
def Scan.blockLines (folded : Bool) (indent : Nat) (b : BlockText) : Scan BlockText :=
  loop b fun b => do
    let p ← place
    match p.rest with
    | [] => return .done b
    | c :: _ =>
      if p.column ≠ indent then return .done b
      let line ← takeReversed (fun c => !isBreak c) 1
      let own ← takeBreak
      let (more, _) ← blockBreaks indent []
      return .yield
        { text := line ++ b.joint (folded && !isBlank c) ++ b.text
          own, more, blank := isBlank c }

/-- Reads a block, whose sign is next, below an indentation of `parent`. -/
def Scan.block (parent : Int) : Scan (List Char) := do
  let folded ← isAt '>'
  skip
  let (chomping, increment) ← blockMarks
  skipWhile isBlank
  if ← isAt '#' then skipLine
  if !endsLine (← rest) then fail
  if !(← rest).isEmpty then
    let _ ← takeBreak
  let given := if increment = 0 then 0 else parent.toNat + increment
  let (more, column) ← blockBreaks given []
  let indent := if given = 0 then max column (max (parent + 1).toNat 1) else given
  need 1
  let b ← blockLines folded indent { more }
  return (match chomping with
    | .strip => b.text
    | .clip => b.own.toList ++ b.text
    | .keep => b.more ++ b.own.toList ++ b.text).reverse

end Stencil.Yaml
