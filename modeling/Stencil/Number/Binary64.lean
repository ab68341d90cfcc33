/-!
# Rounding to binary fractions

Sizes are given and shown with decimal fractions but computed with in binary floating point, so the
last byte of a size depends on rounding. Nonnegative values are exact fractions here, and `nearest`
rounds a fraction to the nearest one with 53 binary digits, a tie going to the even neighbour. The
range of exponents is not bounded; the values in question are far from its ends.

## Main definitions

* `Fraction` – a nonnegative fraction; `Fraction.nearest` – its rounded form;
* `Fraction.mul`, `Fraction.div`, `Fraction.add` – exact operations; `Fraction.floor`.
-/

namespace Stencil.Number

/-- A nonnegative fraction. -/
structure Fraction where
  /-- The numerator. -/
  num : Nat
  /-- The denominator. -/
  den : Nat
  deriving DecidableEq, Repr

/-- The quotient rounded to the nearest natural number, a tie to the even one. -/
def roundDiv (n d : Nat) : Nat :=
  let q := n / d
  let r := n % d
  if 2 * r < d then q else if 2 * r > d then q + 1 else q + q % 2

namespace Fraction

/-- A natural number as a fraction. -/
def ofNat (n : Nat) : Fraction := ⟨n, 1⟩

/-- The exact product. -/
def mul (a b : Fraction) : Fraction := ⟨a.num * b.num, a.den * b.den⟩

/-- The exact quotient. -/
def div (a b : Fraction) : Fraction := ⟨a.num * b.den, a.den * b.num⟩

/-- The exact sum. -/
def add (a b : Fraction) : Fraction := ⟨a.num * b.den + b.num * a.den, a.den * b.den⟩

/-- The largest natural number not above the fraction. -/
def floor (a : Fraction) : Nat := a.num / a.den

/-- The nearest fraction with 53 binary digits. The exponent is estimated from the lengths of
numerator and denominator; the estimate gives a quotient of 53 or 54 digits, and in the latter case
one digit less is kept. -/
def nearest (a : Fraction) : Fraction :=
  if a.num = 0 ∨ a.den = 0 then ⟨0, 1⟩
  else
    let shift : Int := 53 - (a.num.log2 : Int) + a.den.log2
    let scaled (k : Int) : Nat × Nat :=
      if 0 ≤ k then (a.num * Nat.pow 2 k.toNat, a.den) else (a.num, a.den * Nat.pow 2 (-k).toNat)
    let (n, d) := scaled shift
    let k := if n / d < Nat.pow 2 53 then shift else shift - 1
    let (n, d) := scaled k
    let m := roundDiv n d
    if 0 ≤ k then ⟨m, Nat.pow 2 k.toNat⟩ else ⟨m * Nat.pow 2 (-k).toNat, 1⟩

end Fraction

end Stencil.Number
