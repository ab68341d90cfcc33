import Stencil.Text.Utf8

/-!
# The reading position

Markup is read from a list of characters. The cursor holds what is left of it, and counts what has
been read: the line and column of the next character, the characters read of the current line, and
the byte offset. A line feed belongs to the line it begins, so the text of every line but the first
starts with one.

U+FFFD marks input that could not be decoded. A move never passes it: it stops in front of it and
gives up all of the rest, which then counts as consumed.

## Main definitions

* `Position` – where in a source something was found; `Position.text` – the line up to there;
* `Cursor`, `Cursor.advance` – the reading position and the one way to move it;
* `Cursor.startsWith` – looking ahead.
-/

namespace Stencil.Markup

/-- A place in a source, as it is reported to users. -/
structure Position where
  /-- The line, counted from 1. -/
  line : Nat
  /-- The column, counted in characters from 1. -/
  column : Nat
  /-- The number of bytes consumed. -/
  location : Nat
  /-- The characters consumed of the current line, the latest first. -/
  consumed : List Char
  deriving DecidableEq, Repr

/-- What was consumed of the current line. -/
def Position.text (p : Position) : Text := Text.ofChars p.consumed.reverse

/-- A reading position in a source. -/
structure Cursor where
  /-- The characters that are left. -/
  rest : List Char
  /-- The line of the next character. -/
  line : Nat := 1
  /-- The column of the next character. -/
  column : Nat := 1
  /-- The characters consumed of the current line, the latest first. -/
  consumed : List Char := []
  /-- The number of bytes consumed. -/
  offset : Nat := 0
  deriving DecidableEq, Repr

namespace Cursor

/-- The cursor at the beginning of a source. -/
def start (source : List Char) : Cursor := { rest := source }

/-- Whether nothing is left. -/
def done (cur : Cursor) : Bool := cur.rest.isEmpty

/-- The cursor's place as it is reported. -/
def position (cur : Cursor) : Position :=
  ⟨cur.line, cur.column, cur.offset, cur.consumed⟩

/-- The cursor after the character `c`, with `rest` left. -/
def pass (cur : Cursor) (c : Char) (rest : List Char) : Cursor :=
  if c = '\n' then ⟨rest, cur.line + 1, 1, ['\n'], cur.offset + 1⟩
  else ⟨rest, cur.line, cur.column + 1, c :: cur.consumed, cur.offset + c.utf8Size⟩

/-- The cursor with the rest of the input given up. -/
def giveUp (cur : Cursor) : Cursor :=
  { cur with rest := [], offset := cur.offset + (Text.ofChars cur.rest).length }

/-- Moves over `n` characters, or over what is left if that is less. -/
def advance : Nat → Cursor → Cursor
  | 0, cur => cur
  | n + 1, cur =>
    match cur.rest with
    | [] => cur
    | c :: rest => if c = Text.replacement then cur.giveUp else advance n (cur.pass c rest)

/-- Whether the rest begins with `s`. -/
def startsWith (cur : Cursor) (s : String) : Bool := s.toList.isPrefixOf cur.rest

@[simp] theorem advance_zero (cur : Cursor) : cur.advance 0 = cur := rfl

/-- Passing a character leaves the characters after it. -/
@[simp] theorem rest_pass (cur : Cursor) (c : Char) (rest : List Char) :
    (cur.pass c rest).rest = rest := by
  unfold pass; split <;> rfl

/-- A move never lengthens the rest. -/
theorem length_rest_advance_le (n : Nat) (cur : Cursor) :
    (cur.advance n).rest.length ≤ cur.rest.length := by
  induction n generalizing cur with
  | zero => simp
  | succ n ih =>
    unfold advance
    split
    · simp
    · split
      · simp [giveUp]
      · rename_i c rest h _
        have := ih (cur.pass c rest)
        simp only [rest_pass] at this
        simp [h]; omega

/-- A move over at least one character shortens the rest, unless nothing was left. -/
theorem length_rest_advance_lt {n : Nat} {cur : Cursor} (hn : 0 < n) (hr : cur.rest ≠ []) :
    (cur.advance n).rest.length < cur.rest.length := by
  obtain ⟨n, rfl⟩ := Nat.exists_eq_succ_of_ne_zero (Nat.pos_iff_ne_zero.mp hn)
  unfold advance
  split
  · exact absurd ‹_› hr
  · rename_i c rest h
    split
    · simp [giveUp, h]
    · have := length_rest_advance_le n (cur.pass c rest)
      simp only [rest_pass] at this
      simp [h]; omega

end Cursor

end Stencil.Markup
