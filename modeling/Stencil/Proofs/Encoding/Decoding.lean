import Mathlib.Tactic.FinCases
import Stencil.Encoding.Basic
import Stencil.Proofs.Text.Characters

/-!
# What decoding reads

In UTF-8 and in all single byte encodings the bytes below `80` are ASCII, and no other bytes are. So
what is written in ASCII at the beginning of a source can be read from its bytes as well as from its
characters, before it is known which of these encodings the source is in.

In UTF-16 this is not so: two ASCII bytes are one character there. But every character can be
written in it: as one unit, or as a pair of surrogates if its code needs more than sixteen bits.
Reading undoes writing in either byte order, because no character has the code of a surrogate. A
byte order mark in front tells the order, and is itself not read as a character.

## Main definitions

* `Text.Mirrors` – the same ASCII texts begin the characters and the bytes
* `Encoding.units`, `Encoding.encodeUtf16` – the units of a character, and the bytes of a text
* `Encoding.ByteOrder.mark` – the byte order mark

## Main results

* `Text.mirrors_chars` – UTF-8
* `Encoding.mirrors_table` – the single byte encodings
* `Encoding.decodeUtf16_encodeUtf16` – reading what was written in UTF-16
* `Encoding.toUtf8_mark_append` – the same with a byte order mark
-/

namespace Stencil

/-! ### ASCII -/

namespace Text

variable {t : Text} {cs : List Char}

/-- The ASCII texts that begin the characters are those that begin the bytes. -/
def Mirrors (t : Text) (cs : List Char) : Prop :=
  ∀ d : List Char, (∀ c ∈ d, c.toNat < 128) → (d <+: cs ↔ ofChars d <+: t)

theorem toNat_ofNat_of_isValidChar {n : Nat} (h : n.isValidChar) : (Char.ofNat n).toNat = n :=
  congrArg Char.toNat (dif_pos h)

theorem toNat_ofNat_of_ascii {n : Nat} (h : n < 128) : (Char.ofNat n).toNat = n :=
  toNat_ofNat_of_isValidChar (.inl (by omega))

/-- Decoding byte by byte, as far as bytes are ASCII. -/
theorem mirrors_of {f : Text → List Char} (hnil : f [] = [])
    (hascii : ∀ b t, b.toNat < 128 → f (b :: t) = Char.ofNat b.toNat :: f t)
    (hother : ∀ b t, ¬ b.toNat < 128 → ∀ c ∈ (f (b :: t)).head?, ¬ c.toNat < 128) (t : Text) :
    t.Mirrors (f t) := by
  intro d
  induction d generalizing t with
  | nil => exact fun _ => iff_of_true List.nil_prefix List.nil_prefix
  | cons c d ih =>
    intro hd
    obtain ⟨hc, hd⟩ := List.forall_mem_cons.mp hd
    rw [ofChars_cons, utf8EncodeChar_of_lt hc, List.singleton_append]
    cases t with
    | nil => simp [hnil]
    | cons b t =>
      by_cases hb : b.toNat < 128
      · rw [hascii b t hb, List.cons_prefix_cons, List.cons_prefix_cons, ih t hd]
        refine and_congr_left fun _ => ⟨?_, ?_⟩
        · rintro rfl
          rw [toNat_ofNat_of_ascii hb, UInt8.ofNat_toNat]
        · rintro rfl
          rw [toNat_ofNat_of_lt (by omega), Char.ofNat_toNat]
      · refine iff_of_false (fun hprefix => ?_) fun hprefix => ?_
        · obtain ⟨rest, hrest⟩ := hprefix
          exact hother b t hb c (by rw [← hrest]; rfl) hc
        · obtain ⟨rfl, -⟩ := List.cons_prefix_cons.mp hprefix
          exact hb (by rwa [toNat_ofNat_of_lt (by omega)])

theorem ofString_eq (s : String) : ofString s = ofChars s.toList := by
  rw [ofString, String.toUTF8, ← String.utf8Encode_toList]
  exact List.toList_data_toByteArray

theorem le_of_scalar? {least n : Nat} {c : Char} (h : scalar? least n = some c) :
    least ≤ c.toNat := by
  obtain ⟨hn, hc⟩ := Option.dite_none_right_eq_some.mp h
  cases hc
  exact hn.1

/-- Only an ASCII byte begins an ASCII character. -/
theorem leading?_not_ascii {b : UInt8} {c : Char} {n : Nat} (hb : ¬ b.toNat < 128)
    (h : leading? b t = some (c, n)) : ¬ c.toNat < 128 := by
  have hleast {least m k : Nat} (hle : 128 ≤ least)
      (h : (scalar? least m).map (·, k) = some (c, n)) : ¬ c.toNat < 128 := by
    obtain ⟨d, hd, heq⟩ := Option.map_eq_some_iff.mp h
    cases heq
    exact Nat.not_lt.mpr (Nat.le_trans hle (le_of_scalar? hd))
  rw [leading?_eq rfl, if_neg hb] at h
  split at h
  · cases t with
    | nil => cases h
    | cons b₁ t =>
      obtain ⟨x₁, -, h⟩ := Option.bind_eq_some_iff.mp h
      exact hleast (by decide) h
  split at h
  · rcases t with _ | ⟨b₁, _ | ⟨b₂, t⟩⟩
    · cases h
    · cases h
    · obtain ⟨x₁, -, h⟩ := Option.bind_eq_some_iff.mp h
      obtain ⟨x₂, -, h⟩ := Option.bind_eq_some_iff.mp h
      exact hleast (by decide) h
  split at h
  · rcases t with _ | ⟨b₁, _ | ⟨b₂, _ | ⟨b₃, t⟩⟩⟩
    · cases h
    · cases h
    · cases h
    · obtain ⟨x₁, -, h⟩ := Option.bind_eq_some_iff.mp h
      obtain ⟨x₂, -, h⟩ := Option.bind_eq_some_iff.mp h
      obtain ⟨x₃, -, h⟩ := Option.bind_eq_some_iff.mp h
      exact hleast (by decide) h
  · cases h

/-- UTF-8, with a replacement for what cannot be decoded. -/
theorem mirrors_chars (t : Text) : t.Mirrors t.chars := by
  refine mirrors_of rfl (fun b t hb => ?_) (fun b t hb c hc => ?_) t
  · have hread : leading? b t = some (Char.ofNat b.toNat, 0) := by
      have hscalar := scalar?_eq (c := Char.ofNat b.toNat) (Nat.zero_le _)
      rw [toNat_ofNat_of_ascii hb] at hscalar
      rw [leading?_eq rfl, if_pos hb, hscalar]
      rfl
    rw [chars, pieces, piecesFrom, hread]
    rfl
  · rw [chars, pieces, piecesFrom] at hc
    split at hc
    · rename_i d n hread
      cases hc
      exact leading?_not_ascii hb hread
    · cases hc
      exact (by decide : ¬ replacement.toNat < 128)

end Text

namespace Encoding

open CodeTable

/-- Whether the rows of a table are free of ASCII. -/
def beyondAscii (rows : List String) : Bool := rows.all fun r => (Text.ofString r).all (0x80 ≤ ·)

theorem upper_of_rows {rows : List String} (h : beyondAscii rows) :
    ∀ d ∈ (ofRows rows).upper, ¬ d.toNat < 128 := by
  intro d hd hascii
  obtain ⟨r, hr, hd⟩ := List.mem_flatMap.mp (List.mem_toArray.mp hd)
  have hbyte : (UInt8.ofNat d.toNat).toNat = d.toNat := Text.toNat_ofNat_of_lt (by omega)
  have hmem : UInt8.ofNat d.toNat ∈ Text.ofString r := by
    rw [Text.ofString_eq, Text.mem_ofChars_iff (by omega)]
    exact ⟨d, hd, hbyte.symm⟩
  have hle := List.all_eq_true.mp (List.all_eq_true.mp h r hr) _ hmem
  rw [decide_eq_true_eq, UInt8.le_iff_toNat_le, hbyte] at hle
  exact absurd hle (Nat.not_le.mpr hascii)

theorem upper_userDefined : ∀ d ∈ userDefined.upper, ¬ d.toNat < 128 := by
  intro d hd
  obtain ⟨i, hi, rfl⟩ := Array.mem_map.mp hd
  have hlt : i < 128 := Array.mem_range.mp hi
  rw [Text.toNat_ofNat_of_isValidChar (.inr (by omega))]
  exact Nat.not_lt.mpr (Nat.le_trans (by decide) (Nat.le_add_right 0xf780 i))

/-- In all single byte encodings, the other bytes are not ASCII. -/
theorem upper_not_ascii {name : Text} {c : CodeTable} (h : find? name = some (.table c)) :
    ∀ d ∈ c.upper, ¬ d.toNat < 128 := by
  obtain ⟨e, he, hc⟩ := Option.map_eq_some_iff.mp h
  have hmem := List.mem_of_find?_eq_some he
  clear he h
  fin_cases hmem <;> cases hc
  all_goals first
    | exact upper_of_rows (by decide +kernel)
    | exact upper_userDefined

theorem mirrors_table {name : Text} {c : CodeTable} (h : find? name = some (.table c)) (t : Text) :
    t.Mirrors (t.map c.char) := by
  refine Text.mirrors_of (f := List.map c.char) rfl (fun b t hb => ?_) (fun b t hb d hd => ?_) t
  · rw [List.map_cons, CodeTable.char, if_pos (UInt8.lt_iff_toNat_lt.mpr hb)]
  · rw [List.map_cons, CodeTable.char, if_neg fun hlt => hb (UInt8.lt_iff_toNat_lt.mp hlt)] at hd
    obtain rfl := Option.some.inj hd
    rw [Array.getD]
    split
    · exact upper_not_ascii h _ (Array.getElem_mem _)
    · decide

/-! ### UTF-16 -/

/-- The 16-bit units of a character. -/
def units (c : Char) : List Nat :=
  if c.toNat < 0x10000 then [c.toNat]
  else [0xd800 + (c.toNat - 0x10000) / 0x400, 0xdc00 + (c.toNat - 0x10000) % 0x400]

/-- The bytes of a unit. -/
def ByteOrder.bytes (o : ByteOrder) (u : Nat) : Text :=
  match o with
  | .big => [UInt8.ofNat (u / 256), UInt8.ofNat (u % 256)]
  | .little => [UInt8.ofNat (u % 256), UInt8.ofNat (u / 256)]

/-- The byte order mark: U+FEFF, written in the order that it announces. -/
def ByteOrder.mark (o : ByteOrder) : Text := o.bytes 0xfeff

/-- The bytes of a sequence of characters. -/
def encodeUtf16 (o : ByteOrder) (cs : List Char) : Text :=
  cs.flatMap fun c => (units c).flatMap o.bytes

variable {o : ByteOrder} {u v : Nat} {t : Text}

theorem ByteOrder.exists_bytes (h : u < 0x10000) : ∃ a b, o.bytes u = [a, b] ∧ o.unit a b = u := by
  have hhigh : (UInt8.ofNat (u / 256)).toNat = u / 256 := by
    rw [UInt8.toNat_ofNat', Nat.mod_eq_of_lt (by omega)]
  have hlow : (UInt8.ofNat (u % 256)).toNat = u % 256 := by
    rw [UInt8.toNat_ofNat', Nat.mod_eq_of_lt (by omega)]
  cases o with
  | big => exact ⟨_, _, rfl, by rw [unit, hhigh, hlow]; omega⟩
  | little => exact ⟨_, _, rfl, by rw [unit, hhigh, hlow]; omega⟩

/-- A unit that is no surrogate is a character by itself. -/
theorem decodeUtf16_unit (h : u < 0x10000) (hu : isSurrogate u = false) :
    decodeUtf16 o (o.bytes u ++ t) = Char.ofNat u :: decodeUtf16 o t := by
  obtain ⟨a, b, hbytes, hunit⟩ := ByteOrder.exists_bytes (o := o) h
  rw [hbytes, List.cons_append, List.cons_append, List.nil_append, decodeUtf16.eq_def]
  simp [hunit, hu]

/-- A leading surrogate and a trailing one are one character. -/
theorem decodeUtf16_pair (hu : 0xd800 ≤ u ∧ u < 0xdc00) (hv : 0xdc00 ≤ v ∧ v ≤ 0xdfff) :
    decodeUtf16 o (o.bytes u ++ (o.bytes v ++ t)) =
      Char.ofNat (0x10000 + (u - 0xd800) * 0x400 + (v - 0xdc00)) :: decodeUtf16 o t := by
  obtain ⟨a, b, hbytes, hunit⟩ := ByteOrder.exists_bytes (o := o) (show u < 0x10000 by omega)
  obtain ⟨c, d, hbytes', hunit'⟩ := ByteOrder.exists_bytes (o := o) (show v < 0x10000 by omega)
  have hlead : isSurrogate u = true := by simp [isSurrogate]; omega
  have hnot : isTrailing u = false := by simp [isTrailing]; omega
  have htrail : isTrailing v = true := by simp [isTrailing]; omega
  rw [hbytes, hbytes', List.cons_append, List.cons_append, List.nil_append, decodeUtf16.eq_def]
  simp [hunit, hlead, hunit', htrail, pairChar, hnot]

/-- A character is read from its units, whatever follows. -/
theorem decodeUtf16_units (c : Char) :
    decodeUtf16 o ((units c).flatMap o.bytes ++ t) = c :: decodeUtf16 o t := by
  have hvalid : c.toNat < 0xd800 ∨ 0xdfff < c.toNat ∧ c.toNat < 0x110000 := c.valid
  rw [units]
  split
  · rename_i hsmall
    have hcode : isSurrogate c.toNat = false := by simp [isSurrogate]; omega
    rw [List.flatMap_singleton, decodeUtf16_unit hsmall hcode, Char.ofNat_toNat]
  · rename_i hlarge
    have hcode : 0x10000 + (0xd800 + (c.toNat - 0x10000) / 0x400 - 0xd800) * 0x400 +
        (0xdc00 + (c.toNat - 0x10000) % 0x400 - 0xdc00) = c.toNat := by omega
    rw [List.flatMap_cons, List.flatMap_singleton, List.append_assoc,
      decodeUtf16_pair (by omega) (by omega), hcode, Char.ofNat_toNat]

/-- **Reading undoes writing**, in either byte order. -/
@[simp] theorem decodeUtf16_encodeUtf16 (cs : List Char) :
    decodeUtf16 o (encodeUtf16 o cs) = cs := by
  induction cs with
  | nil => rw [encodeUtf16, List.flatMap_nil, decodeUtf16]
  | cons c cs ih => rw [encodeUtf16, List.flatMap_cons, decodeUtf16_units, ← encodeUtf16, ih]

/-- The mark tells the byte order, and does not count as text. -/
theorem toUtf8_mark_append [Decoders] (cs : List Char) :
    utf16.toUtf8 (o.mark ++ encodeUtf16 o cs) = .ok (Text.ofChars cs) := by
  have htake : takeByteOrderMark (o.mark ++ encodeUtf16 o cs) = (o, encodeUtf16 o cs) := by
    cases o <;> rfl
  rw [toUtf8, htake]
  exact congrArg (Except.ok ∘ Text.ofChars) (decodeUtf16_encodeUtf16 cs)

end Encoding

end Stencil
