import Stencil.Text.Escape
import Stencil.Text.Space
import Stencil.Text.Utf8

/-!
# Characters behind bytes

Reading a text as characters undoes writing them: what was written from characters is read as the
same characters, and nothing in it is stray. Every length of a UTF-8 sequence is covered, because
templates may hold any character of markup.

Texts are bytes, and names are compared and split as texts although the grammar speaks of
characters. That makes no difference: a text determines its characters, and an ASCII byte in it is
the character with that code. So escaping, splitting and looking for braces may be understood as
operations on characters.

## Main definitions

* `Text.contentForm`, `Text.valueForm` – how a character is escaped
* `Text.attributeForm`, `Text.charactersForm` – how it is escaped strictly

## Main results

* `Text.ofChars_injective` – the bytes determine the characters
* `Text.pieces_ofChars`, `Text.chars_ofChars`, `Text.chars?_ofChars` – reading what was written
* `Text.escapeContent_ofChars`, `Text.escapeValue_ofChars`, `Text.escapeAttribute_ofChars`,
  `Text.escapeCharacters_ofChars` – escaping character by character
* `Text.ascii_mem_ofChars_iff`, `Text.cut?_ofChars`, `Text.count_ofChars` – ASCII bytes of a text
  are its ASCII characters
-/

namespace Stencil.Text

variable {b : UInt8} {c : Char} {cs ds : List Char} {t u v : Text}

/-! ### Characters as bytes -/

/-- The bytes determine the characters. -/
theorem ofChars_injective (h : ofChars cs = ofChars ds) : cs = ds := by
  refine String.ofList_injective (String.toByteArray_inj.mp ?_)
  rw [String.toByteArray_ofList, String.toByteArray_ofList, List.utf8Encode, List.utf8Encode]
  exact congrArg List.toByteArray h

/-- A byte below 128 is the character with that code. -/
theorem mem_utf8EncodeChar_iff (hb : b.toNat < 128) :
    b ∈ String.utf8EncodeChar c ↔ c.toNat = b.toNat := by
  -- the bytes of longer sequences are all above
  have hne (k : Nat) (hk : 128 ≤ k) (hk' : k < 256) : b ≠ UInt8.ofNat k := by
    rintro rfl
    rw [UInt8.toNat_ofNat', Nat.mod_eq_of_lt hk'] at hb
    omega
  change b ∈ String.utf8EncodeChar c ↔ c.val.toNat = b.toNat
  rw [String.utf8EncodeChar]
  generalize c.val.toNat = v
  split
  · rw [List.mem_singleton, ← UInt8.toNat_inj, UInt8.toNat_ofNat', Nat.mod_eq_of_lt (by omega)]
    exact eq_comm
  · have hright : v ≠ b.toNat := by omega
    split
    · simp only [List.mem_cons, List.not_mem_nil, or_false, hright, iff_false, not_or]
      exact ⟨hne _ (by omega) (by omega), hne _ (by omega) (by omega)⟩
    · split
      · simp only [List.mem_cons, List.not_mem_nil, or_false, hright, iff_false, not_or]
        exact ⟨hne _ (by omega) (by omega), hne _ (by omega) (by omega),
          hne _ (by omega) (by omega)⟩
      · simp only [List.mem_cons, List.not_mem_nil, or_false, hright, iff_false, not_or]
        exact ⟨hne _ (by omega) (by omega), hne _ (by omega) (by omega),
          hne _ (by omega) (by omega), hne _ (by omega) (by omega)⟩

theorem cut?_append {t u : Text} (h : b ∉ t) : cut? b (t ++ b :: u) = some (t, u) := by
  induction t with
  | nil => simp [cut?]
  | cons a t ih =>
    have ha : a ≠ b := fun e => h (e ▸ List.mem_cons_self)
    rw [List.cons_append, cut?, if_neg ha, ih fun hmem => h (List.mem_cons_of_mem a hmem)]
    rfl

/-! ### Decoding -/

theorem scalar?_eq {least : Nat} (h : least ≤ c.toNat) : scalar? least c.toNat = some c := by
  have hvalid : c.toNat.isValidChar := c.valid
  rw [scalar?, dif_pos ⟨h, hvalid⟩]
  rfl

theorem toNat_ofNat_of_lt {k : Nat} (h : k < 256) : (UInt8.ofNat k).toNat = k := by
  rw [UInt8.toNat_ofNat', Nat.mod_eq_of_lt h]

theorem continuation?_eq {k : Nat} (h : k < 64) :
    continuation? (UInt8.ofNat (k + 128)) = some k := by
  have hb : (UInt8.ofNat (k + 128)).toNat = k + 128 := toNat_ofNat_of_lt (by omega)
  have hrange : (0x80 ≤ UInt8.ofNat (k + 128) && UInt8.ofNat (k + 128) ≤ 0xbf) = true := by
    simp only [Bool.and_eq_true, decide_eq_true_eq, UInt8.le_iff_toNat_le, hb]
    have h₁ : (0x80 : UInt8).toNat = 128 := rfl
    have h₂ : (0xbf : UInt8).toNat = 191 := rfl
    omega
  rw [continuation?, if_pos hrange, hb, Nat.add_sub_cancel]

/-- The first byte of a sequence tells by its number how long the sequence is. -/
theorem leading?_eq {k : Nat} (hb : b.toNat = k) : leading? b t =
    if k < 0x80 then (scalar? 0 k).map (·, 0)
    else if 0xc2 ≤ k ∧ k ≤ 0xdf then do
      let b₁ :: _ := t | none
      let x₁ ← continuation? b₁
      (scalar? 0x80 ((k - 0xc0) * 64 + x₁)).map (·, 1)
    else if 0xe0 ≤ k ∧ k ≤ 0xef then do
      let b₁ :: b₂ :: _ := t | none
      let x₁ ← continuation? b₁
      let x₂ ← continuation? b₂
      (scalar? 0x800 (((k - 0xe0) * 64 + x₁) * 64 + x₂)).map (·, 2)
    else if 0xf0 ≤ k ∧ k ≤ 0xf4 then do
      let b₁ :: b₂ :: b₃ :: _ := t | none
      let x₁ ← continuation? b₁
      let x₂ ← continuation? b₂
      let x₃ ← continuation? b₃
      (scalar? 0x10000 ((((k - 0xf0) * 64 + x₁) * 64 + x₂) * 64 + x₃)).map (·, 3)
    else none := by
  subst hb
  have hlt (n : UInt8) : (b < n) = (b.toNat < n.toNat) := rfl
  have hle (n : UInt8) : (n ≤ b) = (n.toNat ≤ b.toNat) := rfl
  have hge (n : UInt8) : (b ≤ n) = (b.toNat ≤ n.toNat) := rfl
  simp only [leading?, hlt, hle, hge, Bool.and_eq_true, decide_eq_true_eq]
  rfl

/-- A character is read from the bytes it was written as, whatever follows. -/
theorem leading?_utf8EncodeChar : ∃ b u, String.utf8EncodeChar c = b :: u ∧
    ∀ t, leading? b (u ++ t) = some (c, u.length) := by
  have hmax : c.val.toNat ≤ 0x10ffff := by
    have hvalid : c.val.toNat.isValidChar := c.valid
    rw [Nat.isValidChar] at hvalid
    omega
  have hcode : c.toNat = c.val.toNat := rfl
  have hback {least : Nat} {v : Nat} (hv : v = c.toNat) (h : least ≤ c.toNat) (n : Nat) :
      (scalar? least v).map (·, n) = some (c, n) := by
    rw [hv, scalar?_eq h]
    rfl
  rw [String.utf8EncodeChar]
  generalize hval : c.val.toNat = v at hmax hcode
  split
  · refine ⟨_, _, rfl, fun t => ?_⟩
    rw [leading?_eq (toNat_ofNat_of_lt (by omega)), if_pos (by omega)]
    exact hback hcode.symm (by omega) 0
  · split
    · refine ⟨_, _, rfl, fun t => ?_⟩
      rw [leading?_eq (toNat_ofNat_of_lt (by omega)), if_neg (by omega), if_pos (by omega)]
      simp only [List.cons_append, continuation?_eq (show v % 64 < 64 by omega)]
      exact hback (by omega) (by omega) 1
    · split
      · refine ⟨_, _, rfl, fun t => ?_⟩
        rw [leading?_eq (toNat_ofNat_of_lt (by omega)), if_neg (by omega), if_neg (by omega),
          if_pos (by omega)]
        simp only [List.cons_append, continuation?_eq (show v % 64 < 64 by omega),
          continuation?_eq (show v / 64 % 64 < 64 by omega)]
        exact hback (by omega) (by omega) 2
      · refine ⟨_, _, rfl, fun t => ?_⟩
        rw [leading?_eq (toNat_ofNat_of_lt (by omega)), if_neg (by omega), if_neg (by omega),
          if_neg (by omega), if_pos (by omega)]
        simp only [List.cons_append, continuation?_eq (show v % 64 < 64 by omega),
          continuation?_eq (show v / 64 % 64 < 64 by omega),
          continuation?_eq (show v / 4096 % 64 < 64 by omega)]
        exact hback (by omega) (by omega) 3

theorem piecesFrom_length_append : piecesFrom u.length (u ++ t) = piecesFrom 0 t := by
  induction u with
  | nil => rfl
  | cons b u ih => exact ih

/-- What was written from characters has no stray bytes. -/
theorem pieces_ofChars (cs : List Char) : (ofChars cs).pieces = cs.map .char := by
  induction cs with
  | nil => rfl
  | cons c cs ih =>
    obtain ⟨b, u, hc, hread⟩ := leading?_utf8EncodeChar (c := c)
    rw [ofChars_cons, hc, List.cons_append, pieces, piecesFrom, hread]
    dsimp only
    rw [piecesFrom_length_append, ← pieces, ih, List.map_cons]

@[simp] theorem chars_ofChars (cs : List Char) : (ofChars cs).chars = cs := by
  rw [chars, pieces_ofChars, List.map_map]
  exact List.map_id cs

@[simp] theorem chars?_ofChars (cs : List Char) : (ofChars cs).chars? = some cs := by
  rw [chars?, chars_ofChars, pieces_ofChars, if_pos]
  simp [Piece.isChar]

/-! ### ASCII bytes -/

theorem mem_ofChars_iff (hb : b.toNat < 128) : b ∈ ofChars cs ↔ ∃ c ∈ cs, c.toNat = b.toNat := by
  rw [ofChars, List.mem_flatMap]
  exact exists_congr fun c => and_congr_right fun _ => mem_utf8EncodeChar_iff hb

theorem utf8EncodeChar_of_lt (h : c.toNat < 128) :
    String.utf8EncodeChar c = [UInt8.ofNat c.toNat] := by
  have hle : c.val.toNat ≤ 0x7f := Nat.le_of_lt_succ h
  rw [String.utf8EncodeChar, if_pos hle]
  rfl

/-- An ASCII character as a byte is the same as a character. -/
theorem ascii_mem_ofChars_iff (hc : c.toNat = b.toNat) (hb : b.toNat < 128) :
    b ∈ ofChars cs ↔ c ∈ cs := by
  rw [mem_ofChars_iff hb]
  constructor
  · rintro ⟨d, hd, hcode⟩
    obtain rfl : d = c := Char.toNat_inj.mp (hcode.trans hc.symm)
    exact hd
  · exact fun h => ⟨c, h, hc⟩

/-- A colon as a byte is a colon as a character. -/
theorem colon_mem_ofChars_iff : 0x3a ∈ ofChars cs ↔ ':' ∈ cs :=
  ascii_mem_ofChars_iff rfl (by decide)

/-- Cutting the bytes at the first ASCII character of a kind is cutting the characters there. -/
theorem cut?_ofChars (hc : c.toNat = b.toNat) (hb : b.toNat < 128) (h : c ∉ cs) :
    cut? b (ofChars (cs ++ c :: ds)) = some (ofChars cs, ofChars ds) := by
  rw [ofChars_append, ofChars_cons, utf8EncodeChar_of_lt (hc ▸ hb), hc, UInt8.ofNat_toNat,
    List.singleton_append]
  exact cut?_append fun hmem => h ((ascii_mem_ofChars_iff hc hb).mp hmem)

theorem cut?_ofChars_colon (h : ':' ∉ cs) :
    cut? 0x3a (ofChars (cs ++ ':' :: ds)) = some (ofChars cs, ofChars ds) :=
  cut?_ofChars rfl (by decide) h

/-- ASCII bytes are counted as the characters they are. -/
theorem count_ofChars (hc : c.toNat = b.toNat) (hb : b.toNat < 128) (cs : List Char) :
    (ofChars cs).count b = cs.count c := by
  induction cs with
  | nil => rfl
  | cons d cs ih =>
    rw [ofChars_cons, List.count_append, ih, ← List.singleton_append, List.count_append,
      Nat.add_right_cancel_iff, List.count_singleton]
    by_cases hd : d = c
    · rw [hd, utf8EncodeChar_of_lt (hc ▸ hb), hc, UInt8.ofNat_toNat, List.count_singleton_self]
      simp
    · rw [if_neg (by simpa using hd), List.count_eq_zero, mem_utf8EncodeChar_iff hb, ← hc]
      exact fun hcode => hd (Char.toNat_inj.mp hcode)

/-- ASCII bytes are characters by themselves. -/
theorem ofChars_map_ofNat (h : ∀ b ∈ t, b.toNat < 128) :
    ofChars (t.map fun b => Char.ofNat b.toNat) = t := by
  induction t with
  | nil => rfl
  | cons b t ih =>
    obtain ⟨hb, ht⟩ := List.forall_mem_cons.mp h
    have hcode : (Char.ofNat b.toNat).toNat = b.toNat := by
      rw [Char.ofNat, dif_pos (.inl (by omega))]
      rfl
    rw [List.map_cons, ofChars_cons, utf8EncodeChar_of_lt (by omega), hcode, UInt8.ofNat_toNat,
      ih ht]
    rfl

/-! ### Escaping -/

/-- How a character is written in character data. -/
def contentForm (c : Char) : List Char :=
  if c = '&' then ['&', 'a', 'm', 'p', ';']
  else if c = '<' then ['&', 'l', 't', ';']
  else if c = '>' then ['&', 'g', 't', ';']
  else [c]

/-- How a character is written between double quotes. -/
def valueForm (c : Char) : List Char :=
  if c = '"' then ['&', 'q', 'u', 'o', 't', ';'] else contentForm c

/-- Where no byte has a replacement, nothing changes. -/
theorem substitute_eq_self {rule : UInt8 → Option Text} (h : ∀ b ∈ t, rule b = none) :
    t.substitute rule = t := by
  induction t with
  | nil => rfl
  | cons b t ih =>
    obtain ⟨hb, ht⟩ := List.forall_mem_cons.mp h
    rw [substitute, List.flatMap_cons, hb, ← substitute, ih ht]
    rfl

/-- Replacing bytes is replacing characters, if it is so for every character by itself. -/
theorem substitute_ofChars {rule : UInt8 → Option Text} {form : Char → List Char}
    (h : ∀ c, substitute rule (String.utf8EncodeChar c) = ofChars (form c)) (cs : List Char) :
    (ofChars cs).substitute rule = ofChars (cs.flatMap form) := by
  induction cs with
  | nil => rfl
  | cons c cs ih => rw [ofChars_cons, substitute_append, h, ih, List.flatMap_cons, ofChars_append]

theorem ne_of_mem_utf8EncodeChar {b' : UInt8} {d : Char} (hne : c ≠ d) (hd : d.toNat = b'.toNat)
    (hlt : b'.toNat < 128) (hb : b ∈ String.utf8EncodeChar c) : b ≠ b' := by
  rintro rfl
  exact hne (Char.toNat_inj.mp (((mem_utf8EncodeChar_iff hlt).mp hb).trans hd.symm))

theorem contentReference?_eq_none (h : c ≠ '&' ∧ c ≠ '<' ∧ c ≠ '>')
    (hb : b ∈ String.utf8EncodeChar c) : contentReference? b = none := by
  rw [contentReference?, if_neg (ne_of_mem_utf8EncodeChar h.1 rfl (by decide) hb),
    if_neg (ne_of_mem_utf8EncodeChar h.2.1 rfl (by decide) hb),
    if_neg (ne_of_mem_utf8EncodeChar h.2.2 rfl (by decide) hb)]

theorem escapeContent_utf8EncodeChar (c : Char) :
    escapeContent (String.utf8EncodeChar c) = ofChars (contentForm c) := by
  rw [contentForm]
  split
  · subst c
    rfl
  split
  · subst c
    rfl
  split
  · subst c
    rfl
  · rename_i h₁ h₂ h₃
    rw [escapeContent, substitute_eq_self fun b => contentReference?_eq_none ⟨h₁, h₂, h₃⟩]
    simp

theorem escapeContent_ofChars (cs : List Char) :
    escapeContent (ofChars cs) = ofChars (cs.flatMap contentForm) :=
  substitute_ofChars escapeContent_utf8EncodeChar cs

theorem escapeValue_utf8EncodeChar (c : Char) :
    escapeValue (String.utf8EncodeChar c) = ofChars (valueForm c) := by
  rw [valueForm]
  split
  · subst c
    rfl
  · rename_i hne
    have hrule : ∀ b ∈ String.utf8EncodeChar c, valueReference? b = contentReference? b :=
      fun b hb => by
      rw [valueReference?, if_neg (ne_of_mem_utf8EncodeChar hne rfl (by decide) hb)]
    rw [← escapeContent_utf8EncodeChar, escapeValue, escapeContent, substitute, substitute,
      List.flatMap_def, List.flatMap_def, List.map_congr_left fun b hb => by rw [hrule b hb]]

theorem escapeValue_ofChars (cs : List Char) :
    escapeValue (ofChars cs) = ofChars (cs.flatMap valueForm) :=
  substitute_ofChars escapeValue_utf8EncodeChar cs

/-! ### Strict escaping -/

/-- How a character is written that needs no reference. -/
def legalForm (c : Char) : List Char := if isMarkupChar c then [c] else [replacement]

/-- How a character is written strictly between double quotes. -/
def attributeForm (c : Char) : List Char :=
  if c = '"' then ['&', '#', '3', '4', ';']
  else if c = '&' then ['&', 'a', 'm', 'p', ';']
  else if c = '<' then ['&', 'l', 't', ';']
  else if c = '>' then ['&', 'g', 't', ';']
  else if c = '\n' then ['&', '#', '1', '0', ';']
  else if c = '\r' then ['&', '#', '1', '3', ';']
  else if c = '\t' then ['&', '#', '9', ';']
  else legalForm c

/-- How a character is written strictly in character data, line feeds as references. -/
def charactersForm (c : Char) : List Char :=
  if c = '&' then ['&', 'a', 'm', 'p', ';']
  else if c = '<' then ['&', 'l', 't', ';']
  else if c = '>' then ['&', 'g', 't', ';']
  else if c = '\r' then ['&', '#', '1', '3', ';']
  else if c = '\n' then ['&', '#', '1', '0', ';']
  else legalForm c

theorem legal_char (c : Char) : (Piece.char c).legal = ofChars (legalForm c) := by
  rw [Piece.legal, legalForm, apply_ite ofChars]
  simp

/-- Writing a text piece by piece is writing it character by character, if it is so for every
character by itself. -/
theorem escapeWith_ofChars {rule : Char → Option Text} {form : Char → List Char}
    (h : ∀ c, (rule c).getD (Piece.char c).legal = ofChars (form c)) (cs : List Char) :
    (ofChars cs).escapeWith rule = ofChars (cs.flatMap form) := by
  rw [escapeWith, pieces_ofChars, List.flatMap_map, ofChars, List.flatMap_assoc]
  exact congrArg (cs.flatMap ·) (funext h)

theorem escapeAttribute_ofChars (cs : List Char) :
    escapeAttribute (ofChars cs) = ofChars (cs.flatMap attributeForm) := by
  refine escapeWith_ofChars (fun c => ?_) cs
  rw [attributeRule, attributeForm, legal_char]
  simp only [apply_ite ofChars, apply_ite fun o : Option Text => o.getD (ofChars (legalForm c))]
  repeat refine ite_congr rfl (fun _ => rfl) fun _ => ?_
  rfl

theorem escapeCharacters_ofChars (cs : List Char) :
    escapeCharacters (ofChars cs) true = ofChars (cs.flatMap charactersForm) := by
  refine escapeWith_ofChars (fun c => ?_) cs
  rw [charactersRule, charactersForm, legal_char]
  simp only [Bool.and_true, decide_eq_true_eq, apply_ite ofChars,
    apply_ite fun o : Option Text => o.getD (ofChars (legalForm c))]
  repeat refine ite_congr rfl (fun _ => rfl) fun _ => ?_
  rfl

end Stencil.Text
