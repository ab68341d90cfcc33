import Stencil.Text.Basic

/-!
# Base 64

Bytes are written with 64 digits, four digits for three bytes. If one or two bytes are left at the
end, two or three digits are written for them and filled up to four places. Carriage returns and
line feeds may stand anywhere. The bits of the last digit that stand for no byte do not matter.

## Main definitions

* `Encoding.base64?` – the bytes that a text stands for.
-/

namespace Stencil.Encoding

/-- The value of a digit. -/
def base64Digit? (b : UInt8) : Option Nat :=
  if 0x41 ≤ b && b ≤ 0x5a then some (b.toNat - 0x41)
  else if 0x61 ≤ b && b ≤ 0x7a then some (b.toNat - 0x61 + 26)
  else if 0x30 ≤ b && b ≤ 0x39 then some (b.toNat - 0x30 + 52)
  else if b = 0x2b then some 62
  else if b = 0x2f then some 63
  else none

/-- The three bytes that four digits stand for. -/
def base64Bytes (a b c d : Nat) : List UInt8 :=
  [UInt8.ofNat (a * 4 + b / 16), UInt8.ofNat (b % 16 * 16 + c / 4), UInt8.ofNat (c % 4 * 64 + d)]

/-- The bytes of groups of four digits, of which only the last may be filled up. -/
def base64Groups? : Text → Option Text
  | [] => some []
  | [a, b, 0x3d, 0x3d] => do
    return (base64Bytes (← base64Digit? a) (← base64Digit? b) 0 0).take 1
  | [a, b, c, 0x3d] => do
    return (base64Bytes (← base64Digit? a) (← base64Digit? b) (← base64Digit? c) 0).take 2
  | a :: b :: c :: d :: t => do
    let bytes := base64Bytes (← base64Digit? a) (← base64Digit? b) (← base64Digit? c)
      (← base64Digit? d)
    return bytes ++ (← base64Groups? t)
  | _ => none

/-- The bytes that a text in base 64 stands for. -/
def base64? (t : Text) : Option Text := base64Groups? (t.filter fun b => b != 0xa && b != 0xd)

end Stencil.Encoding
