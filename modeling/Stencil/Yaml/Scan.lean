import Stencil.Yaml.Source

/-!
# Reading characters

A scan moves a place forward and gives a value, or stops because the document is malformed. Loops
are bounded by the size of the document, of which every round but the last uses at least one
character; the bound is part of the state so that it is computed once.

A place knows its line and column, and what belongs to the document only as far as it was loaded.

## Main definitions

* `Place` – a reading position; `Place.pass`, `Place.passBreak` – the ways to move it;
* `Place.load` – loading what is looked at;
* `Place.atMarker` – whether a document ends here;
* `Scan` – a computation on a place;
* `Scan.need`, `Scan.skip`, `Scan.takeBreak`, `Scan.takeWhile` – the primitives;
* `Scan.loop` – repeating a step.
-/

namespace Stencil.Yaml

/-! ## Places in a settings document

Indentation carries the structure of a document, so a place knows the line and column of the next
character, both counted from zero. Whoever looks ahead says how far, and only then further pieces of
the document are loaded. Behind the end of the document nothing follows, however far one looks.

A carriage return, alone or before a line feed, a line feed, the next line character, and the line
and paragraph separators are line breaks. Inside a scalar all but the separators become line
feeds. -/

/-! ### Characters -/

/-- Blanks within a line. -/
def isBlank (c : Char) : Bool := c = ' ' || c = '\t'

/-- Line breaks. -/
def isBreak (c : Char) : Bool :=
  c = '\n' || c = '\r' || c = '\u0085' || c = '\u2028' || c = '\u2029'

/-- Characters of names. -/
def isNameChar (c : Char) : Bool := c.isAlphanum || c == '_' || c == '-'

/-- Whether a word ends in front of these characters. -/
def endsWord : List Char → Bool
  | [] => true
  | c :: _ => isBlank c || isBreak c

/-- Whether a line ends in front of these characters. -/
def endsLine : List Char → Bool
  | [] => true
  | c :: _ => isBreak c

/-- What a line break stands for inside a scalar. -/
def breakChar (c : Char) : Char := if c = '\u2028' || c = '\u2029' then c else '\n'

/-- The mark of a byte order, which may begin a line. -/
def byteOrderMark : Char := '\ufeff'

/-! ### Places -/

/-- A reading position in a document. -/
structure Place where
  /-- The characters that are loaded and not yet passed. -/
  rest : List Char := []
  /-- How many characters can be looked at, those behind the end of the document included. -/
  loaded : Nat := 0
  /-- The pieces that are not yet loaded. -/
  later : List (Option (List Char))
  /-- The line of the next character. -/
  line : Nat := 0
  /-- The column of the next character. -/
  column : Nat := 0
  /-- The number of characters before it. -/
  index : Nat := 0
  /-- Whether only blanks have been passed since the last line break. -/
  afterBreak : Bool := false
  /-- Whether a byte order mark was next when a piece was last loaded. -/
  markLoaded : Bool := false
  deriving Repr

namespace Place

/-- Moves over one character, which is no line break. -/
def pass (p : Place) : Place :=
  match p.rest with
  | [] => p
  | c :: rest =>
    { p with
      rest, loaded := p.loaded - 1, column := p.column + 1, index := p.index + 1
      afterBreak := p.afterBreak && isBlank c }

/-- Moves over a line break, if one is next. -/
def passBreak (p : Place) : Place :=
  let next (rest : List Char) (n : Nat) : Place :=
    { p with
      rest, loaded := p.loaded - n, line := p.line + 1, column := 0, index := p.index + n
      afterBreak := true }
  match p.rest with
  | '\r' :: '\n' :: rest => next rest 2
  | c :: rest => if isBreak c then next rest 1 else p
  | [] => p

/-- Loads pieces until `n` characters can be looked at. Behind the last piece, one more place behind
the end is made available at a time. -/
def loadFrom (n : Nat) (p : Place) : List (Option (List Char)) → Except Malformed Place
  | [] => .ok { p with loaded := p.loaded + 1, later := [] }
  | none :: _ => .error .malformed
  | some cs :: later =>
    let p := { p with rest := p.rest ++ cs, loaded := p.loaded + cs.length, later }
    if n ≤ p.loaded then .ok p else loadFrom n p later

/-- Makes `n` characters available, unless they are. -/
def load (n : Nat) (p : Place) : Except Malformed Place :=
  if n ≤ p.loaded then .ok p
  else do
    let p ← loadFrom n p p.later
    return { p with markLoaded := p.rest.head? == some byteOrderMark }

/-- Whether the next character is `c`. -/
def isAt (p : Place) (c : Char) : Bool := p.rest.head? == some c

/-- Whether three hyphens or three dots stand alone at the beginning of the line. -/
def startsMarker (p : Place) (mark : Char) : Bool :=
  p.column == 0 && List.isPrefixOf [mark, mark, mark] p.rest && endsWord (p.rest.drop 3)

/-- Whether a document begins or ends here. -/
def atMarker (p : Place) : Bool := p.startsMarker '-' || p.startsMarker '.'

end Place

/-! ## Scans -/

/-- What a scan works on. -/
structure ScanState where
  /-- The place. -/
  place : Place
  /-- More than the number of characters of the document. -/
  bound : Nat
  deriving Repr

/-- A computation on a place. -/
abbrev Scan := StateT ScanState (Except Malformed)

namespace Scan

/-- Stops, because the document is malformed. -/
def fail {α : Type} : Scan α := fun _ => .error .malformed

/-- The place. -/
def place : Scan Place := do return (← get).place

/-- The characters that are left, as far as they are loaded. -/
def rest : Scan (List Char) := do return (← get).place.rest

/-- Makes `n` characters available. -/
def need (n : Nat) : Scan Unit := fun s => do return ((), { s with place := ← s.place.load n })

/-- Passes a character. -/
def skip : Scan Unit := modify fun s => { s with place := s.place.pass }

/-- Passes `n` characters. -/
def skips : Nat → Scan Unit
  | 0 => return
  | n + 1 => do
    skip
    skips n

/-- Passes a line break, if one is next, and gives what it stands for. -/
def takeBreak : Scan (Option Char) := do
  need 2
  let next := (← rest).head?
  modify fun s => { s with place := s.place.passBreak }
  return (next.filter isBreak).map breakChar

/-- Whether the next character is `c`. -/
def isAt (c : Char) : Scan Bool := do return (← place).isAt c

/-- Passes `c` if it is next, and tells whether it was. -/
def accept (c : Char) : Scan Bool := do
  if ← isAt c then
    skip
    return true
  else return false

/-- Repeats a step on a value until it is done, at most `n` times. -/
def loopFrom {α : Type} (step : α → Scan (ForInStep α)) : Nat → α → Scan α
  | 0, a => return a
  | n + 1, a => do
    match ← step a with
    | .done b => return b
    | .yield b => loopFrom step n b

/-- Repeats a step on a value until it is done. -/
def loop {α : Type} (a : α) (step : α → Scan (ForInStep α)) : Scan α := do
  loopFrom step (← get).bound a

/-- Passes characters of a class, making `n` characters available behind each, and gives them last
first. -/
def takeReversed (p : Char → Bool) (n : Nat) : Scan (List Char) :=
  loop [] fun cs => do
    match ← rest with
    | c :: _ =>
      if p c then
        skip
        need n
        return .yield (c :: cs)
      else return .done cs
    | [] => return .done cs

/-- Passes characters of a class and gives them. -/
def takeWhile (p : Char → Bool) : Scan (List Char) := do
  need 1
  return (← takeReversed p 1).reverse

/-- Passes characters of a class. -/
def skipWhile (p : Char → Bool) : Scan Unit := do
  need 1
  let _ ← takeReversed p 1

/-- Passes the rest of the line. -/
def skipLine : Scan Unit := skipWhile fun c => !isBreak c

end Scan

end Stencil.Yaml
