/-!
# Numbers in writing

Whole numbers are written in base 10, in base 16, 8 or 2 behind a mark such as `0x`, or in base 8
behind a zero. Underscores may separate digits. Numbers with a sign are words of 64 bits.

## Main definitions

* `wordCount` – how many words there are; `signBit` – the size of the negative half;
* `fitsSigned` – the numbers that are words with a sign;
* `hexValue?`, `hexCode?`, `digits?` – digits and runs of digits;
* `natural?` – reading a number without sign; `integer?` – one with an optional sign;
* `underscoresSeparate` – where underscores may stand.
-/

namespace Stencil.Number

/-! ## 64-bit words

Counts and sizes are kept in words of 64 bits, with or without a sign, and numbers that do not fit
are refused where they are read. -/

/-- The number of 64-bit words. -/
def wordCount : Nat := Nat.pow 2 64

/-- The number of negative 64-bit words with a sign, which is one more than the largest one. -/
def signBit : Nat := Nat.pow 2 63

/-- Whether a number is a 64-bit word with a sign. -/
def fitsSigned (n : Int) : Bool := -(signBit : Int) ≤ n && n < signBit

/-! ## Digits and numbers -/

/-- The value of a hexadecimal digit. -/
def hexValue? (c : Char) : Option Nat :=
  if c.isDigit then some (c.toNat - 0x30)
  else if 'a' ≤ c ∧ c ≤ 'f' then some (c.toNat - 0x57)
  else if 'A' ≤ c ∧ c ≤ 'F' then some (c.toNat - 0x37)
  else none

/-- The value of a run of digits in a base up to 16. -/
def digits? (base : Nat) (cs : List Char) : Option Nat :=
  cs.foldl (fun v c => do
    let d ← hexValue? c
    if d < base then return base * (← v) + d else none) (some 0)

/-- The value of exactly `n` hexadecimal digits at the head of the characters. -/
def hexCode? (n : Nat) (cs : List Char) : Option Nat :=
  if (cs.take n).length < n then none else digits? 16 (cs.take n)

/-- The base that a letter behind a zero stands for. -/
def base? (c : Char) : Option Nat :=
  if c = 'x' ∨ c = 'X' then some 16
  else if c = 'o' ∨ c = 'O' then some 8
  else if c = 'b' ∨ c = 'B' then some 2
  else none

/-- The value of a number without sign and underscores. A zero and the mark of a base alone are no
number. -/
def natural? : List Char → Option Nat
  | [] => none
  | '0' :: cs =>
    match cs with
    | m :: c :: rest =>
      match base? m with
      | some b => digits? b (c :: rest)
      | none => digits? 8 cs
    | cs => digits? 8 cs
  | cs => digits? 10 cs

/-- A number without its sign, and whether it is negative. -/
def unsigned : List Char → Bool × List Char
  | '-' :: cs => (true, cs)
  | '+' :: cs => (false, cs)
  | cs => (false, cs)

/-- The word of 64 bits with the given amount and sign, if there is one. -/
def word? (negative : Bool) (n : Nat) : Option Int :=
  let z : Int := if negative then -n else n
  if fitsSigned z then some z else none

/-- Whether every underscore follows a digit and is followed by one, where `before` tells whether a
digit comes first. -/
def underscoresAmong (isDigit : Char → Bool) : Bool → List Char → Bool
  | _, [] => true
  | before, '_' :: cs =>
    match cs with
    | [] => false
    | c :: rest => before && isDigit c && underscoresAmong isDigit true rest
  | _, c :: cs => underscoresAmong isDigit (isDigit c) cs

/-- Whether underscores only separate digits from each other, or the mark of a base from them. -/
def underscoresSeparate (cs : List Char) : Bool :=
  match cs with
  | '0' :: m :: rest =>
    match base? m with
    | some 16 => underscoresAmong (fun c => (hexValue? c).isSome) true rest
    | some _ => underscoresAmong Char.isDigit true rest
    | none => underscoresAmong Char.isDigit false cs
  | cs => underscoresAmong Char.isDigit false cs

/-- The value of a number with an optional sign, and with underscores where they may stand. -/
def integer? (cs : List Char) : Option Int := do
  let (negative, body) := unsigned cs
  if underscoresSeparate body then word? negative (← natural? (body.filter (· != '_'))) else none

end Stencil.Number
