import Stencil.Text.Basic

/-!
# Compressed blocks

A compressed block is a list of sequences. Each has a run of literal bytes and a match, that is, a
number of bytes to repeat from a given distance back in the output; the distance may be smaller than
the number, in which case the repeated bytes repeat themselves. A token gives both lengths in four
bits each; the value 15 is continued by further bytes, each added, as long as they are 255. The
block may end behind a match, or behind a run of literals whose token gives no length for a match.

Compression here writes a single run of literals. That is a block like any other, and the only thing
that is asked of it is to be restored.

## Main definitions

* `Block.decompress` – the bytes of a block, at most a given number;
* `Block.compress` – a block for the given bytes;
* `Block.Codec` – any way to write and read blocks; `Block.literals` – the one above.
-/

namespace Stencil.Block

/-- The continuation of a length, added to `n`, and what follows it. -/
def extend? (n : Nat) : Text → Option (Nat × Text)
  | [] => none
  | b :: t => if b = 255 then extend? (n + 255) t else some (n + b.toNat, t)

/-- A length of which a token gives `n`, and what follows it. -/
def length? (n : Nat) (t : Text) : Option (Nat × Text) :=
  if n = 15 then extend? 15 t else some (n, t)

/-- Repeats `n` bytes from a distance back in the output. -/
def repeatMatch (distance : Nat) : Nat → Array UInt8 → Array UInt8
  | 0, out => out
  | n + 1, out => repeatMatch distance n (out.push ((out[out.size - distance]?).getD 0))

/-- Decompresses sequences behind the output so far. Each sequence takes at least one byte, so their
number is bounded by `limit`, the number of bytes. -/
def sequences? (size : Nat) : Nat → Text → Array UInt8 → Option (Array UInt8)
  | 0, t, out => if t.isEmpty then some out else none
  | _ + 1, [], out => some out
  | limit + 1, token :: t, out => do
    let (count, t) ← length? (token.toNat / 16) t
    let literals := t.take count
    if literals.length < count ∨ size < out.size + count then none
    else
      let out := out ++ literals
      match t.drop count with
      | [] => if token.toNat % 16 = 0 then some out else none
      | [_] => none
      | low :: high :: t =>
        let distance := high.toNat * 256 + low.toNat
        let (n, t) ← length? (token.toNat % 16) t
        if distance = 0 ∨ out.size < distance ∨ size < out.size + n + 4 then none
        else sequences? size limit t (repeatMatch distance (n + 4) out)

/-- The bytes of a block, if there are at most `size` of them. -/
def decompress (size : Nat) (t : Text) : Option Text :=
  (sequences? size t.length t #[]).map Array.toList

/-- The bytes that continue a length. -/
def extension (n : Nat) : Text :=
  List.replicate (n / 255) 255 ++ [UInt8.ofNat (n % 255)]

/-- A block for the given bytes, made of literals only. -/
def compress (t : Text) : Text :=
  if t.length < 15 then UInt8.ofNat (t.length * 16) :: t
  else 0xf0 :: extension (t.length - 15) ++ t

/-- A way to write and read blocks. What is stored does not depend on how it is compressed, as long
as it is restored. -/
structure Codec where
  /-- A block for the given bytes; empty if they are not to be compressed. -/
  compress : Text → Text
  /-- The bytes of a block, at most a given number. -/
  decompress : Nat → Text → Option Text

/-- Blocks of literals. -/
def literals : Codec := ⟨compress, decompress⟩

end Stencil.Block
