import Stencil.Number.Binary64
import Stencil.Number.Literal
import Stencil.Streams
import Stencil.Text.Space

/-!
# Configuration

What a user can set: where templates come from and compiled ones go, which engine compiles
expressions that name none, how large a source may be, and how compiled templates are stored. A
configuration is checked before it is used, and the checks are made in a fixed order so that the
first fault is the one reported.

## Main definitions

* `Size.parse?` – reading a size;
* `Size.decimal`, `Size.binary` – showing a size in units of either kind;
* `Config` – the settings, with defaults; `Config.limit?` – the size limit in bytes;
* `Config.validate` – the checks; `ConfigError` – their outcome;
* `Config.toStreams` – the streams a configuration describes.
-/

/-! ## Sizes in words

Sizes are read and shown with units. The decimal units are powers of 1000 and the binary ones powers
of 1024. A size is read as a number, which may have a fraction and commas between its digits, and a
unit in any letter case; the product is rounded down to whole bytes and has to fit into 64 bits. A
size below ten units is shown with one decimal place and any other without. -/

namespace Stencil.Size

open Number (Fraction)

/-! ### Reading -/

/-- Characters of the number in front of a unit. -/
def isNumberByte (b : UInt8) : Bool := isAsciiDigit b || b == 0x2e || b == 0x2c

/-- The value of a run of decimal digits. -/
def digitsValue (t : Text) : Nat := t.foldl (fun n b => 10 * n + (b.toNat - 0x30)) 0

/-- A decimal number with an optional fraction. -/
def decimal? (t : Text) : Option Fraction :=
  let (whole, fraction) := (Text.cut? 0x2e t).getD (t, [])
  if (whole ++ fraction).all isAsciiDigit && !(whole ++ fraction).isEmpty then
    some ⟨digitsValue (whole ++ fraction), Nat.pow 10 fraction.length⟩
  else none

/-- The lower case form of the letters that occur in units. Two letters outside ASCII have a lower
case form within it. -/
def lowerUnitChar (c : Char) : Char :=
  if c = '\u212a' then 'k' else if c = '\u0130' then 'i' else c.toLower

/-- The scales of units, by their first letter. -/
def scales : List (Char × Nat) := [('k', 1), ('m', 2), ('g', 3), ('t', 4), ('p', 5), ('e', 6)]

/-- The number of bytes in a unit, given in lower case. -/
def unitBytes? (unit : List Char) : Option Nat :=
  match unit with
  | [] | ['b'] => some 1
  | c :: rest =>
    match scales.lookup c with
    | none => none
    | some k =>
      if rest = [] ∨ rest = ['b'] then some (Nat.pow 1000 k)
      else if rest = ['i'] ∨ rest = ['i', 'b'] then some (Nat.pow 1024 k)
      else none

/-- The number of bytes a size means. -/
def parse? (t : Text) : Option Nat := do
  let number ← decimal? ((t.takeWhile isNumberByte).filter (· ≠ 0x2c))
  let unit := Text.trim (t.dropWhile isNumberByte)
  let bytes ← unitBytes? ((← unit.chars?).map lowerUnitChar)
  let value := (number.nearest.mul (.ofNat bytes)).nearest
  if value.floor < Number.wordCount then some value.floor else none

/-! ### Showing -/

/-- The largest exponent, at most `limit`, for which the power of `base` is not above `n`. -/
def exponent (base n : Nat) : Nat → Nat
  | 0 => 0
  | limit + 1 => if Nat.pow base (limit + 1) ≤ n then limit + 1 else exponent base n limit

/-- A number of tenths without decimal places, a half going to the even neighbour. -/
def wholeTenths (tenths : Nat) : Nat := Number.roundDiv tenths 10

/-- A size in the largest unit that is not above it. -/
def inUnits (base : Nat) (units : List String) (n : Nat) : Text :=
  if n < 10 then Text.ofNat n ++ " B"
  else
    let e := exponent base n (units.length - 1)
    let ratio := ((Fraction.ofNat n).nearest.div (.ofNat (Nat.pow base e))).nearest
    let tenths := ((ratio.mul (.ofNat 10)).nearest.add ⟨1, 2⟩).nearest.floor
    let digits :=
      if tenths < 100 then Text.ofNat (tenths / 10) ++ "." ++ Text.ofNat (tenths % 10)
      else Text.ofNat (wholeTenths tenths)
    digits ++ " " ++ Text.ofString (units[e]?.getD "")

/-- A size in decimal units. -/
def decimal (n : Nat) : Text := inUnits 1000 ["B", "kB", "MB", "GB", "TB", "PB", "EB"] n

/-- A size in binary units. -/
def binary (n : Nat) : Text := inUnits 1024 ["B", "KiB", "MiB", "GiB", "TiB", "PiB", "EiB"] n

end Stencil.Size

/-! ## Settings -/

namespace Stencil

/-- The settings of a compiler. -/
structure Config where
  /-- The directory of the default stream. -/
  sourceDir : Text := "."
  /-- The directory of compiled templates. -/
  compileDir : Text := "."
  /-- The directories of further streams, in ascending order of their names. -/
  streams : List (Text × Text) := []
  /-- Whether template names may contain double dots. -/
  allowRelative : Bool := false
  /-- The engine of expressions that name none; empty if the language decides. -/
  engine : Text := []
  /-- The largest accepted source size, in words. -/
  maxSourceSize : Text := "4MiB"
  /-- How many templates are compiled at the same time. -/
  workers : Int := 1
  /-- Whether dynamic blocks are stored compressed. -/
  compressDynamic : Bool := false
  deriving DecidableEq, Repr

/-- What can be wrong with a configuration. -/
inductive ConfigError where
  /-- There is no directory for sources. -/
  | noSourceDir
  /-- There is no directory for compiled templates. -/
  | noCompileDir
  /-- There is nobody to do the work. -/
  | workers (n : Int)
  /-- A stream cannot have this name. -/
  | streamName (name : Text)
  /-- The size limit cannot be read. -/
  | sourceSize (size : Text)
  /-- The configuration file cannot be read as settings. -/
  | malformed
  /-- The configuration file does not exist. -/
  | missing (path : Text)
  deriving DecidableEq, Repr

/-- The wording of a fault. -/
def ConfigError.message : ConfigError → Text
  | noSourceDir => "invalid configuration: source_dir cannot be empty"
  | noCompileDir => "invalid configuration: compile_dir cannot be empty"
  | workers n => "invalid configuration: workers must be positive, got " ++ Text.ofInt n
  | streamName name => "invalid configuration: invalid stream name " ++ name.quoted
  | sourceSize size => "invalid configuration: invalid max_source_size " ++ size.quoted
  | malformed => "failed to parse configuration"
  | missing path =>
    "failed to read configuration " ++ path.quoted ++ ": open " ++ path ++
      ": no such file or directory"

namespace Config

/-- The largest accepted source size in bytes; 0 means that there is no limit. -/
def limit? (c : Config) : Option Nat :=
  let size := c.maxSourceSize.trim
  if size = [] ∨ size = "0" then some 0 else Size.parse? size

/-- Whether a further stream can have this name. -/
def isStreamName (name : Text) : Bool :=
  name != [] && name != Streams.defaultName && !name.contains 0x3a

/-- Checks a configuration and gives the size limit. -/
def validate (c : Config) : Except ConfigError Nat :=
  if c.sourceDir = [] then .error .noSourceDir
  else if c.compileDir = [] then .error .noCompileDir
  else if c.workers < 1 then .error (.workers c.workers)
  else
    match c.streams.find? fun e => !isStreamName e.1 with
    | some e => .error (.streamName e.1)
    | none =>
      match c.limit? with
      | none => .error (.sourceSize c.maxSourceSize)
      | some limit => .ok limit

/-- The streams a configuration describes. -/
def toStreams (c : Config) : Streams :=
  { directories := (Streams.defaultName, c.sourceDir) :: c.streams
    compileDir := c.compileDir
    allowRelative := c.allowRelative }

end Config

end Stencil
