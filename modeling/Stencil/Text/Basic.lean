/-!
# Byte text

Template sources, names, generated code and messages are byte strings. A template may carry any
bytes at all in its character data, and an offset into character data is a byte offset, so the one
text type of the library is the list of bytes and not `String`, whose values are always well-formed
UTF-8. String literals are coerced to their UTF-8 bytes, so that rules and messages read as written.

A list is chosen over an array of bytes because every operation on text here is a left-to-right
pass; each is then a structural recursion with the usual list lemmas at hand.

## Main definitions

* `Text` – the byte strings, with a coercion from `String`;
* `Text.ofChars` – the UTF-8 form of a list of characters;
* `Text.ofNat`, `Text.ofInt` – decimal numerals;
* `Text.cut?` – splitting at the first occurrence of a byte;
* `Text.substitute` – replacing single bytes, the shape of all the escaping rules.
-/

namespace Stencil

/-- A text is a finite sequence of bytes, usually but not always UTF-8. -/
abbrev Text := List UInt8

namespace Text

/-- The UTF-8 bytes of a string. -/
def ofString (s : String) : Text := s.toUTF8.data.toList

instance : Coe String Text := ⟨ofString⟩

/-- The UTF-8 bytes of a list of characters. -/
def ofChars (cs : List Char) : Text := cs.flatMap String.utf8EncodeChar

@[simp] theorem ofChars_nil : ofChars [] = [] := rfl

@[simp] theorem ofChars_cons (c : Char) (cs : List Char) :
    ofChars (c :: cs) = String.utf8EncodeChar c ++ ofChars cs := rfl

@[simp] theorem ofChars_append (cs ds : List Char) :
    ofChars (cs ++ ds) = ofChars cs ++ ofChars ds := by
  simp [ofChars]

/-- Only the empty list of characters has no bytes, because every character takes at least one. -/
theorem ofChars_eq_nil_iff (cs : List Char) : ofChars cs = [] ↔ cs = [] := by
  cases cs <;> simp

/-- Decimal numeral of a natural number. -/
def ofNat (n : Nat) : Text := ofChars (Nat.toDigits 10 n)

/-- Decimal numeral of an integer, with a leading minus sign when it is negative. -/
def ofInt : Int → Text
  | .ofNat n => ofNat n
  | .negSucc n => "-" ++ ofNat (n + 1)

/-- Hexadecimal numeral with the marker `0x`, as character codes are quoted in messages. -/
def ofCode (n : Nat) : Text := "0x" ++ ofChars (Nat.toDigits 16 n)

/-- `true` or `false`. -/
def ofBool (b : Bool) : Text := if b then "true" else "false"

/-- The texts one after the other with `sep` between neighbours. -/
def join (sep : Text) (ts : List Text) : Text := List.intercalate sep ts

/-- The text between single quotes, as names are quoted in messages. -/
def quoted (t : Text) : Text := "'" ++ t ++ "'"

/-- `t` without `start`, when it begins with it. -/
def dropStart? (start t : Text) : Option Text :=
  if start.isPrefixOf t then some (t.drop start.length) else none

/-- The parts before and after the first occurrence of the byte `b`. -/
def cut? (b : UInt8) : Text → Option (Text × Text)
  | [] => none
  | c :: t => if c = b then some ([], t) else (cut? b t).map fun p => (c :: p.1, p.2)

/-- Cutting at a byte gives two parts that, with the byte between them, make up the whole, and the
first part is free of the byte. -/
theorem cut?_eq_some {b : UInt8} {t u v : Text} (h : cut? b t = some (u, v)) :
    t = u ++ b :: v ∧ b ∉ u := by
  induction t generalizing u with
  | nil => simp [cut?] at h
  | cons c t ih =>
    by_cases hc : c = b
    · simp [cut?, hc] at h; obtain ⟨rfl, rfl⟩ := h; simp [hc]
    · simp [cut?, hc] at h
      obtain ⟨u', hu', rfl⟩ := h
      obtain ⟨rfl, hb⟩ := ih hu'
      exact ⟨rfl, by simp [hb, Ne.symm hc]⟩

/-- A byte that does not occur cannot be cut at. -/
theorem cut?_eq_none_iff {b : UInt8} {t : Text} : cut? b t = none ↔ b ∉ t := by
  induction t with
  | nil => simp [cut?]
  | cons c t ih => by_cases hc : c = b <;> simp [cut?, hc, ih, Ne.symm]

/-- The position of the first occurrence of `sub` in `t`, in bytes. -/
def find? (sub : Text) : Text → Option Nat
  | [] => if sub.isEmpty then some 0 else none
  | b :: t => if sub.isPrefixOf (b :: t) then some 0 else (find? sub t).map (· + 1)

/-- Replaces every byte for which `rule` gives a replacement. Because markup characters are ASCII,
this never touches a byte inside a longer UTF-8 sequence. -/
def substitute (rule : UInt8 → Option Text) (t : Text) : Text :=
  t.flatMap fun b => (rule b).getD [b]

@[simp] theorem substitute_nil (rule : UInt8 → Option Text) : substitute rule [] = [] := rfl

@[simp] theorem substitute_append (rule : UInt8 → Option Text) (t u : Text) :
    substitute rule (t ++ u) = substitute rule t ++ substitute rule u := by
  simp [substitute]

/-- Lexicographic order by bytes. -/
def le : Text → Text → Bool
  | [], _ => true
  | _ :: _, [] => false
  | a :: t, b :: u => a < b || (a == b && le t u)

/-- The texts in ascending byte order; equal ones keep their order. -/
def sort (ts : List Text) : List Text := ts.mergeSort le

end Text

/-- ASCII letters. -/
def isAsciiLetter (b : UInt8) : Bool := (0x61 ≤ b && b ≤ 0x7a) || (0x41 ≤ b && b ≤ 0x5a)

/-- ASCII decimal digits. -/
def isAsciiDigit (b : UInt8) : Bool := 0x30 ≤ b && b ≤ 0x39

/-- ASCII hexadecimal digits. -/
def isAsciiHexDigit (b : UInt8) : Bool :=
  isAsciiDigit b || (0x61 ≤ b && b ≤ 0x66) || (0x41 ≤ b && b ≤ 0x46)

/-- The lower case form of an ASCII capital; every other byte stays as it is. -/
def asciiLower (b : UInt8) : UInt8 := if 0x41 ≤ b && b ≤ 0x5a then b + 0x20 else b

end Stencil
