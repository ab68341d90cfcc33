import Stencil.Encoding.Base64
import Stencil.Number.Binary64
import Stencil.Number.Literal
import Stencil.Yaml.Node

/-!
# Values of scalars

A scalar without quotes is a null, a truth value, a number, a timestamp or a text, depending on how
it looks. A type in front of a scalar has to agree with that, except that a whole number can be
given the type of numbers with a fraction. Anything can be a text, and is one if its type is not
known. A scalar of the binary type is written in base 64.

A whole number may have 64 bits, one of them for a sign if it has one. Underscores between its
digits are dropped. A number with a fraction or an exponent is rounded to a binary fraction before
its whole part is taken. Beyond the range of 64 bits the whole part is the smallest number of that
range, except that there is none for a number above it.

## Main definitions

* `isTimestamp` – whether a text is a timestamp;
* `Value` – the values;
* `Value.whole?` – reading a whole number;
* `Value.decimal?` – the whole part of a number with a fraction;
* `Value.ofScalar` – the value of a scalar.
-/

namespace Stencil.Yaml

/-! ## Timestamps

A timestamp is a date, alone or with a time of day. Years have four digits and the other numbers one
or two. Behind the letter T the time has a zone; behind blanks it has none. Seconds may have a
fraction. -/

/-- A number of one or two digits, and what follows it. -/
def shortNumber? : List Char → Option (Nat × List Char)
  | [] => none
  | c :: cs =>
    if !c.isDigit then none
    else
      let n := c.toNat - 0x30
      match cs with
      | d :: rest => if d.isDigit then some (10 * n + (d.toNat - 0x30), rest) else some (n, cs)
      | [] => some (n, [])

/-- What follows the character `c`. -/
def after? (c : Char) : List Char → Option (List Char)
  | d :: cs => if c = d then some cs else none
  | [] => none

/-- Whether February has a day more. -/
def isLeapYear (year : Nat) : Bool := year % 4 == 0 && (year % 100 != 0 || year % 400 == 0)

/-- The number of days of a month, which is counted from one. -/
def daysIn (year month : Nat) : Nat :=
  if month = 2 then if isLeapYear year then 29 else 28
  else if [4, 6, 9, 11].contains month then 30
  else 31

/-- What follows a date. -/
def afterDate? (cs : List Char) : Option (List Char) := do
  let digits := cs.takeWhile Char.isDigit
  if digits.length ≠ 4 then none
  let year := digits.foldl (fun n c => 10 * n + (c.toNat - 0x30)) 0
  let (month, rest) ← shortNumber? (← after? '-' (cs.drop 4))
  let (day, rest) ← shortNumber? (← after? '-' rest)
  if 1 ≤ month ∧ month ≤ 12 ∧ 1 ≤ day ∧ day ≤ daysIn year month then some rest else none

/-- What follows the fraction of a second, if there is one. -/
def afterFraction : List Char → List Char
  | [] => []
  | c :: cs =>
    if (c == '.' || c == ',') && (cs.head?.map Char.isDigit).getD false then
      cs.dropWhile Char.isDigit
    else c :: cs

/-- What follows a time of day. -/
def afterTime? (cs : List Char) : Option (List Char) := do
  let (hour, rest) ← shortNumber? cs
  let (minute, rest) ← shortNumber? (← after? ':' rest)
  let (second, rest) ← shortNumber? (← after? ':' rest)
  if hour < 24 ∧ minute < 60 ∧ second < 60 then some (afterFraction rest) else none

/-- What follows a time zone: the letter Z, or a distance in hours and minutes. -/
def afterZone? : List Char → Option (List Char)
  | 'Z' :: cs => some cs
  | sign :: a :: b :: ':' :: c :: d :: rest => do
    if (sign ≠ '+' ∧ sign ≠ '-') ∨ !(a :: b :: c :: [d]).all Char.isDigit then none
    let (hours, _) ← shortNumber? [a, b]
    let (minutes, _) ← shortNumber? [c, d]
    if hours ≤ 24 ∧ minutes ≤ 60 then some rest else none
  | _ => none

/-- Whether a text is a timestamp. -/
def isTimestamp (cs : List Char) : Bool :=
  match afterDate? cs with
  | none => false
  | some [] => true
  | some (c :: rest) =>
    if c = 'T' ∨ c = 't' then (afterTime? rest >>= afterZone?) == some []
    else if c = ' ' then afterTime? (rest.dropWhile (· == ' ')) == some []
    else false

/-! ## Numbers and other values -/

open Number (Fraction wordCount signBit)

/-- The value of a scalar. -/
inductive Value where
  /-- Nothing. -/
  | null
  /-- A truth value. -/
  | flag (b : Bool)
  /-- A whole number. -/
  | integer (n : Int)
  /-- A number with a fraction or an exponent, of which only the whole part matters. -/
  | decimal (whole : Option Int)
  /-- A timestamp. -/
  | timestamp
  /-- A text. -/
  | text (t : Text)
  deriving DecidableEq, Repr

namespace Value

/-- The largest whole number of 64 bits with a sign. -/
def maxInteger : Int := signBit - 1

/-- The smallest whole number of 64 bits with a sign. -/
def minInteger : Int := -signBit

/-! ### Numbers -/

/-- The value of a whole number. Without a sign it may reach up to 64 bits. -/
def whole? (cs : List Char) : Option Int := do
  let (negative, body) := Number.unsigned cs
  let n ← Number.natural? body
  match Number.word? negative n with
  | some z => some z
  | none => if body.length = cs.length ∧ n < wordCount then some n else none

/-- The value of a whole number whose sign stands behind the mark of base 2 or 8. -/
def signedBehindBase? : List Char → Option Int
  | '0' :: m :: s :: ds =>
    let base := if m = 'b' then some 2 else if m = 'o' then some 8 else none
    match base with
    | some b =>
      if ds.isEmpty ∨ (s ≠ '+' ∧ s ≠ '-') then none
      else (Number.digits? b ds).bind (Number.word? (s == '-'))
    | none => none
  | _ => none

/-- The whole part of a rounded number. -/
def truncate (negative : Bool) (r : Fraction) : Option Int :=
  if negative then some (if r.floor < signBit then -r.floor else minInteger)
  else if r.floor < signBit then some r.floor
  else if r.floor = signBit then some minInteger
  else none

/-- The exponent at the end of a number: its value, or nothing if it is not well formed. -/
def exponent? : List Char → Option Int
  | [] => some 0
  | c :: cs =>
    let (negative, ds) := Number.unsigned cs
    if (c == 'e' || c == 'E') && !ds.isEmpty && ds.all Char.isDigit then
      (Number.digits? 10 ds).map fun n => if negative then -n else n
    else none

/-- The whole part of a number with a fraction or an exponent, if it is one. A number too large for
a binary fraction is not a number; the bound on the exponent decides that for the largest ones
without computing them. -/
def decimal? (cs : List Char) : Option (Option Int) := do
  let (negative, body) := Number.unsigned cs
  let before := body.takeWhile Char.isDigit
  let rest := body.drop before.length
  let point := rest.head? == some '.'
  let after := if point then (rest.drop 1).takeWhile Char.isDigit else []
  if before.isEmpty && after.isEmpty then none
  let e ← exponent? (if point then rest.drop (after.length + 1) else rest)
  let mantissa ← Number.digits? 10 (before ++ after)
  let scale := e - after.length
  if mantissa = 0 then return some 0
  if scale > 1000 then none
  if scale < -(2000 + (before ++ after).length : Int) then return some 0
  let exact : Fraction := if 0 ≤ scale then ⟨mantissa * Nat.pow 10 scale.toNat, 1⟩
    else ⟨mantissa, Nat.pow 10 (-scale).toNat⟩
  let r := exact.nearest
  if r.floor < Nat.pow 2 1024 then return truncate negative r else none

/-- A whole number as a number with a fraction. -/
def rounded (n : Int) : Value :=
  .decimal (truncate (decide (n < 0)) (Fraction.ofNat n.natAbs).nearest)

/-! ### Words -/

/-- The words with a meaning of their own. -/
def words : List (String × Value) :=
  [("", null), ("~", null), ("null", null), ("Null", null), ("NULL", null),
   ("true", flag true), ("True", flag true), ("TRUE", flag true),
   ("false", flag false), ("False", flag false), ("FALSE", flag false),
   (".nan", decimal none), (".NaN", decimal none), (".NAN", decimal none),
   (".inf", decimal none), (".Inf", decimal none), (".INF", decimal none),
   ("+.inf", decimal none), ("+.Inf", decimal none), ("+.INF", decimal none),
   ("-.inf", decimal minInteger), ("-.Inf", decimal minInteger), ("-.INF", decimal minInteger)]

/-- The value of a text that begins with a digit or a sign, if it is a number. -/
def number? (cs : List Char) : Option Value :=
  let cs := cs.filter (· != '_')
  match whole? cs, decimal? cs with
  | some n, _ => some (integer n)
  | none, some d => some (decimal d)
  | none, none => (signedBehindBase? cs).map integer

/-- The value of a text without quotes, which may be a timestamp if `dates` is set. Only what begins
with a digit, a sign or a point can be a number. -/
def ofWord (dates : Bool) (cs : List Char) : Value :=
  match words.lookup (String.ofList cs) with
  | some v => v
  | none =>
    let value? := match cs with
      | '.' :: _ =>
        if !Number.underscoresSeparate cs then none
        else (decimal? (cs.filter (· != '_'))).map decimal
      | c :: _ =>
        if c.isDigit || c == '+' || c == '-' then
          if dates && isTimestamp cs then some timestamp else number? cs
        else none
      | [] => none
    value?.getD (text (Text.ofChars cs))

/-! ### Types -/

/-- The type of a value. -/
def type : Value → Text
  | null => "!!null"
  | flag _ => "!!bool"
  | integer _ => "!!int"
  | decimal _ => "!!float"
  | timestamp => "!!timestamp"
  | text _ => "!!str"

/-- The types that a scalar has to agree with. -/
def strictTypes : List Text := ["!!null", "!!bool", "!!int", "!!float", "!!timestamp"]

/-- The value of a scalar. -/
def ofScalar (style : Style) (type? : Option Text) (cs : List Char) : Except Malformed Value :=
  match type? with
  | none => .ok (if style = .quoted then text (Text.ofChars cs) else ofWord true cs)
  | some t =>
    if t = "!!binary" then
      match Encoding.base64? (Text.ofChars cs) with
      | some bytes => .ok (text bytes)
      | none => .error .malformed
    else if !strictTypes.contains t then .ok (text (Text.ofChars cs))
    else
      let v := ofWord (t == "!!timestamp") cs
      if v.type = t then .ok v
      else
        match v with
        | integer n =>
          if t = "!!float" ∧ n ≤ maxInteger then .ok (rounded n) else .error .malformed
        | _ => .error .malformed

end Value

end Stencil.Yaml
