import Stencil.Number.Literal
import Stencil.Yaml.Scan

/-!
# Names, types and directives

A node can have a name, by which it is referred to elsewhere, and a type. A type is given by a
handle and a suffix, where the handle stands for the beginning of the type, or in full between angle
brackets. Percent signs in it stand for bytes, so that a type is a byte string.

A line that begins with a percent sign tells the version of the format or what a handle stands for.

## Main definitions

* `Scan.name` – the name behind the sign of an anchor or an alias;
* `Tag`, `Scan.tag` – a type as it is written;
* `Directive`, `Scan.directive` – a line with a percent sign.
-/

namespace Stencil.Yaml

/-- Reads the name behind the sign of an anchor or an alias. -/
def Scan.name : Scan (List Char) := do
  skip
  let name ← takeWhile isNameChar
  let next ← rest
  let ends := endsWord next || (next.head?.map ("?:,]\x7d%@`".toList.contains ·)).getD false
  if name.isEmpty || !ends then fail
  return name

/-! ### Types -/

/-- A type as it is written. -/
structure Tag where
  /-- What stands for the beginning of the type; nothing if the suffix is all of it. -/
  handle : Text
  /-- The rest of the type. -/
  suffix : Text
  deriving DecidableEq, Repr

/-- Characters of types other than those of names. -/
def isTagSign (c : Char) : Bool := ";/?:@&=+$,.!~*'()[]%".toList.contains c

/-- Reads the byte that a percent sign and two hexadecimal digits stand for. -/
def Scan.percentByte : Scan UInt8 := do
  need 3
  match ← rest with
  | '%' :: cs =>
    match Number.hexCode? 2 cs with
    | some n =>
      skips 3
      return UInt8.ofNat n
    | none => fail
  | _ => fail

/-- Reads `n` bytes that continue a character. -/
def Scan.continuation : Nat → Scan Text
  | 0 => return []
  | n + 1 => do
    let b ← percentByte
    if b &&& 0xc0 != 0x80 then fail
    return b :: (← continuation n)

/-- Reads the percent signs of one character. -/
def Scan.percentChar : Scan Text := do
  let b ← percentByte
  if utf8Size b = 0 then fail
  return b :: (← continuation (utf8Size b - 1))

/-- Reads the characters of a type and gives their bytes. -/
def Scan.tagText : Scan Text := do
  need 1
  let bytes ← loop ([] : List UInt8) fun t => do
    match ← rest with
    | c :: _ =>
      if c == '%' then
        let bytes ← percentChar
        need 1
        return .yield (bytes.reverse ++ t)
      else if isNameChar c || isTagSign c then
        skip
        need 1
        return .yield (UInt8.ofNat c.toNat :: t)
      else return .done t
    | [] => return .done t
  return bytes.reverse

/-- Reads an exclamation mark, the name characters behind it, and another exclamation mark if there
is one. -/
def Scan.handle : Scan (List Char) := do
  need 1
  if !(← accept '!') then fail
  let name ← takeWhile isNameChar
  if ← accept '!' then return '!' :: name ++ ['!'] else return '!' :: name

/-- Whether something that was read as a handle is one. -/
def isHandle (cs : List Char) : Bool := 1 < cs.length && cs.getLast? == some '!'

/-- Reads a type between angle brackets, or by handle and suffix. What is no handle belongs to the
suffix, and an exclamation mark alone is a type. -/
def Scan.tag : Scan Tag := do
  need 2
  let t ← if (← rest)[1]? == some '<' then do
      skips 2
      let suffix ← tagText
      if suffix.isEmpty || !(← accept '>') then fail
      pure ⟨[], suffix⟩
    else do
      let handle ← handle
      let more ← tagText
      if isHandle handle then
        if more.isEmpty then fail
        pure ⟨Text.ofChars handle, more⟩
      else
        let suffix := Text.ofChars handle.tail ++ more
        pure (if suffix.isEmpty then Tag.mk [] "!" else ⟨"!", suffix⟩)
  need 1
  if !endsWord (← rest) then fail
  return t

/-! ### Directives -/

/-- A line with a percent sign. -/
inductive Directive where
  /-- The version of the format. -/
  | version (major minor : Nat)
  /-- What a handle stands for. -/
  | handle (name start : Text)
  deriving DecidableEq, Repr

/-- Reads a part of a version, which has one or two digits. -/
def Scan.versionPart : Scan Nat := do
  let ds ← takeWhile Char.isDigit
  if ds.isEmpty || 2 < ds.length then fail
  return (Number.digits? 10 ds).getD 0

/-- Reads a line with a percent sign, which is next. -/
def Scan.directive : Scan Directive := do
  skip
  let name ← takeWhile isNameChar
  if !endsWord (← rest) then fail
  skipWhile isBlank
  let d ←
    if name == "YAML".toList then do
      let major ← versionPart
      if !(← accept '.') then fail
      pure (Directive.version major (← versionPart))
    else if name == "TAG".toList then do
      let name ← handle
      if name.tail != [] && !isHandle name then fail
      need 1
      if !((← rest).head?.map isBlank).getD false then fail
      skipWhile isBlank
      let start ← tagText
      if start.isEmpty || !endsWord (← rest) then fail
      pure (.handle (Text.ofChars name) start)
    else fail
  skipWhile isBlank
  if ← isAt '#' then skipLine
  if !endsLine (← rest) then fail
  if !(← rest).isEmpty then
    let _ ← takeBreak
  return d

end Stencil.Yaml
