import Stencil.Artifact.StringList
import Stencil.Proofs.Text.Characters

/-!
# Reading back lists of texts

A list of texts is read back as it was written, as long as the texts are UTF-8; stray bytes would
come back as U+FFFD. A string is written character by character, and each character is read back
from what was written for it, whatever follows: either the character itself, or a letter that names
it, or its code unit. Units are written only for characters that are no surrogates, so none of them
is ever read together with the one behind it.

What ends the list in a compiled template contains the character `>`, and no list contains that
character, whatever bytes the texts consist of.

## Main definitions

* `Text.IsUtf8` – a text written from characters
* `StringList.charForm` – what is written for a character

## Main results

* `StringList.parse?_render` – reading a list that was written
* `StringList.not_mem_render` – no `<`, `>` or `&` is ever written
-/

namespace Stencil

/-- The text is the UTF-8 form of some characters. -/
def Text.IsUtf8 (t : Text) : Prop := ∃ cs, t = .ofChars cs

theorem Text.join_cons_cons (sep t u : Text) (ts : List Text) :
    Text.join sep (t :: u :: ts) = t ++ sep ++ Text.join sep (u :: ts) := by
  simp [Text.join, List.intercalate]

theorem Text.not_mem_join {b : UInt8} {sep : Text} {ts : List Text} (hsep : b ∉ sep)
    (h : ∀ t ∈ ts, b ∉ t) : b ∉ Text.join sep ts := by
  induction ts with
  | nil => simp [Text.join, List.intercalate]
  | cons t ts ih =>
    obtain ⟨ht, hrest⟩ := List.forall_mem_cons.mp h
    cases ts with
    | nil => simpa [Text.join, List.intercalate] using ht
    | cons u ts =>
      rw [Text.join_cons_cons, List.mem_append, List.mem_append, not_or, not_or]
      exact ⟨⟨ht, hsep⟩, ih hrest⟩

namespace StringList

variable {c : Char} {cs rest : List Char} {t : Text} {ts : List Text}

/-! ### Characters -/

/-- The characters that are written as a code unit. -/
def IsUnit (c : Char) : Prop :=
  c.toNat < 0x20 ∨ c = '<' ∨ c = '>' ∨ c = '&' ∨ c = '\u2028' ∨ c = '\u2029'

instance : DecidablePred IsUnit := fun _ => inferInstanceAs (Decidable (_ ∨ _))

/-- The four digits of a code unit. -/
def unitDigits (n : Nat) : List Char :=
  List.replicate (4 - (Nat.toDigits 16 n).length) '0' ++ Nat.toDigits 16 n

/-- What is written for a character. -/
def charForm (c : Char) : List Char :=
  if c = '"' then ['\\', '"']
  else if c = '\\' then ['\\', '\\']
  else if c = '\x08' then ['\\', 'b']
  else if c = '\x0c' then ['\\', 'f']
  else if c = '\n' then ['\\', 'n']
  else if c = '\r' then ['\\', 'r']
  else if c = '\t' then ['\\', 't']
  else if IsUnit c then '\\' :: 'u' :: unitDigits c.toNat
  else [c]

theorem renderChar_eq (c : Char) : renderChar c = Text.ofChars (charForm c) := by
  rw [renderChar, charForm]
  simp only [apply_ite Text.ofChars]
  repeat refine ite_congr rfl (fun _ => rfl) fun _ => ?_
  simp

/-- The codes that are written as units. -/
def unitCodes : List Nat := List.range 0x20 ++ [0x3c, 0x3e, 0x26, 0x2028, 0x2029]

theorem toNat_mem_unitCodes (h : IsUnit c) : c.toNat ∈ unitCodes := by
  rcases h with h | rfl | rfl | rfl | rfl | rfl
  · exact List.mem_append_left _ (List.mem_range.mpr h)
  all_goals decide

/-- The four digits of such a code are read as that code, which is no surrogate. -/
theorem hexCode?_of_mem_unitCodes : ∀ n ∈ unitCodes, (unitDigits n).length = 4 ∧
    Number.hexCode? 4 (unitDigits n) = some n ∧ Encoding.isSurrogate n = false := by
  decide

/-- A character is written as a letter that names it, as its code unit, or as itself. -/
theorem charForm_cases (c : Char) :
    (∃ l, charForm c = ['\\', l] ∧ escaped? l = some c ∧ l ≠ 'u' ∧ ¬ IsUnit l) ∨
      (IsUnit c ∧ charForm c = '\\' :: 'u' :: unitDigits c.toNat) ∨
        (charForm c = [c] ∧ c ≠ '"' ∧ c ≠ '\\' ∧ ¬ IsUnit c) := by
  unfold charForm
  iterate 7
    split
    · subst c
      exact .inl ⟨_, rfl, by decide, by decide, by decide⟩
  split
  · exact .inr (.inl ⟨‹_›, rfl⟩)
  · exact .inr (.inr ⟨rfl, ‹_›, ‹_›, ‹_›⟩)

/-! ### Strings -/

theorem items?_unit (h : IsUnit c) (rest : List Char) :
    items? ('\\' :: 'u' :: unitDigits c.toNat ++ rest) =
      (items? rest).map fun p => (.unit c.toNat :: p.1, p.2) := by
  obtain ⟨hlength, hcode, -⟩ := hexCode?_of_mem_unitCodes _ (toNat_mem_unitCodes h)
  generalize unitDigits c.toNat = digits at hlength hcode
  match digits, hlength with
  | [x₁, x₂, x₃, x₄], _ =>
    have hunit : unit? x₁ x₂ x₃ x₄ = some c.toNat := hcode
    simp only [List.cons_append, List.nil_append]
    rw [items?, hunit]
    cases items? rest <;> rfl

/-- What was written for a character is read as an item that stands for it. -/
theorem exists_item (c : Char) : ∃ i : Item, (∀ is, itemChars (i :: is) = c :: itemChars is) ∧
    ∀ rest, items? (charForm c ++ rest) = (items? rest).map fun p => (i :: p.1, p.2) := by
  have hchar : ∀ is, itemChars (.char c :: is) = c :: itemChars is := fun is => by rw [itemChars]
  rcases charForm_cases c with ⟨l, hform, hl, hu, -⟩ | ⟨hunit, hform⟩ |
    ⟨hform, hquote, hslash, hunit⟩
  · refine ⟨.char c, hchar, fun rest => ?_⟩
    rw [hform, List.cons_append, List.singleton_append, items?, hl]
    · cases items? rest <;> rfl
    · exact fun _ _ _ _ _ h => absurd h hu
  · refine ⟨.unit c.toNat, fun is => ?_, fun rest => hform ▸ items?_unit hunit rest⟩
    obtain ⟨-, -, hsurrogate⟩ := hexCode?_of_mem_unitCodes _ (toNat_mem_unitCodes hunit)
    cases is with
    | nil => simp [itemChars, hsurrogate]
    | cons i is => cases i <;> simp [itemChars, hsurrogate]
  · refine ⟨.char c, hchar, fun rest => ?_⟩
    have hplain : ¬ (c.toNat < 0x20 ∨ c = '\\') := fun h => h.elim (fun h => hunit (.inl h)) hslash
    rw [hform, List.singleton_append, items?, if_neg hplain]
    all_goals simp [hquote, hslash]

/-- The characters of a string are read back. -/
theorem exists_items (cs rest : List Char) : ∃ is : List Item, itemChars is = cs ∧
    items? (cs.flatMap charForm ++ '"' :: rest) = some (is, rest) := by
  induction cs with
  | nil => exact ⟨[], rfl, rfl⟩
  | cons c cs ih =>
    obtain ⟨is, rfl, hread⟩ := ih
    obtain ⟨i, hi, hitem⟩ := exists_item c
    refine ⟨i :: is, hi is, ?_⟩
    rw [List.flatMap_cons, List.append_assoc, hitem, hread]
    rfl

/-- What is written for characters. -/
def stringForm (cs : List Char) : List Char := '"' :: (cs.flatMap charForm ++ ['"'])

theorem renderString_ofChars (cs : List Char) :
    renderString (.ofChars cs) = Text.ofChars (stringForm cs) := by
  have hpieces : (cs.map Text.Piece.char).flatMap renderPiece =
      Text.ofChars (cs.flatMap charForm) := by
    induction cs with
    | nil => rfl
    | cons c cs ih =>
      rw [List.map_cons, List.flatMap_cons, ih, List.flatMap_cons, Text.ofChars_append,
        ← renderChar_eq]
      rfl
  rw [renderString, Text.pieces_ofChars, hpieces, stringForm, Text.ofChars_cons,
    Text.ofChars_append]
  rfl

theorem element?_stringForm (cs rest : List Char) :
    element? (stringForm cs ++ rest) = some (.ofChars cs, rest) := by
  obtain ⟨is, rfl, hread⟩ := exists_items cs rest
  have hgap : skipGap (stringForm (itemChars is) ++ rest) =
      '"' :: ((itemChars is).flatMap charForm ++ '"' :: rest) := by
    rw [stringForm, List.cons_append, List.append_assoc]
    rfl
  rw [element?, hgap]
  change (items? _).map _ = _
  rw [hread]
  rfl

/-! ### Lists -/

/-- What is written for a list of strings, without the bracket at its beginning. -/
def listForm : List (List Char) → List Char
  | [] => [']']
  | [cs] => stringForm cs ++ [']']
  | cs :: ds :: rest => stringForm cs ++ ',' :: listForm (ds :: rest)

theorem render_ofChars (css : List (List Char)) :
    render (css.map .ofChars) = Text.ofChars ('[' :: listForm css) := by
  have hjoin : Text.join "," (css.map fun cs => Text.ofChars (stringForm cs)) ++ "]" =
      Text.ofChars (listForm css) := by
    fun_induction listForm css with
    | case1 => rfl
    | case2 cs => simp [Text.join, List.intercalate]; rfl
    | case3 cs ds rest ih =>
      rw [Text.ofChars_append, Text.ofChars_cons, ← ih, List.map_cons, List.map_cons,
        Text.join_cons_cons, List.append_assoc, List.append_assoc]
      rfl
  rw [render, List.map_map, List.append_assoc]
  simp only [Function.comp_def, renderString_ofChars]
  rw [hjoin]
  rfl

/-- The strings of a list that is not empty are read back, if there are not more than expected. -/
theorem elements?_listForm {css : List (List Char)} (hne : css ≠ []) {limit : Nat}
    (hlimit : css.length ≤ limit) :
    elements? limit (listForm css) = some (css.map .ofChars, []) := by
  induction css generalizing limit with
  | nil => exact absurd rfl hne
  | cons cs css ih =>
    cases limit with
    | zero => exact absurd hlimit (by simp)
    | succ limit =>
      cases css with
      | nil =>
        rw [listForm, elements?, element?_stringForm]
        rfl
      | cons ds rest =>
        have hrest := ih (List.cons_ne_nil _ _) (Nat.le_of_succ_le_succ hlimit)
        rw [listForm, elements?, element?_stringForm, List.map_cons]
        change (elements? limit (listForm (ds :: rest))).bind _ = _
        rw [hrest]
        rfl

theorem length_le_length_listForm (css : List (List Char)) :
    css.length ≤ (listForm css).length := by
  fun_induction listForm css with
  | case1 => simp
  | case2 => simp [stringForm]
  | case3 cs ds rest ih =>
    simp only [List.length_cons, List.length_append] at ih ⊢
    omega

/-- **A list that was written is read back.** -/
theorem parse?_render (h : ∀ t ∈ ts, t.IsUtf8) : parse? (render ts) = some (some ts) := by
  obtain ⟨css, rfl⟩ : ∃ css : List (List Char), ts = css.map .ofChars := by
    induction ts with
    | nil => exact ⟨[], rfl⟩
    | cons t ts ih =>
      obtain ⟨⟨cs, rfl⟩, hrest⟩ := List.forall_mem_cons.mp h
      obtain ⟨css, rfl⟩ := ih hrest
      exact ⟨cs :: css, rfl⟩
  rw [render_ofChars]
  cases css with
  | nil => rfl
  | cons cs css =>
    have hlimit : (cs :: css).length ≤ ('[' :: listForm (cs :: css)).length :=
      Nat.le_succ_of_le (length_le_length_listForm _)
    have hread := elements?_listForm (List.cons_ne_nil _ _) hlimit
    obtain ⟨rest, hrest⟩ : ∃ rest, listForm (cs :: css) = '"' :: rest := by
      cases css <;> exact ⟨_, rfl⟩
    rw [hrest] at hread ⊢
    have hbracket : skipGap ('[' :: '"' :: rest) = '[' :: '"' :: rest := rfl
    have hquote : skipGap ('"' :: rest) = '"' :: rest := rfl
    simp only [parse?, Text.chars_ofChars, hbracket, hquote, hread]
    rfl

theorem parse?_absent : parse? absent = some none := by decide

/-! ### Characters that are never written -/

theorem not_mem_renderChar (c : Char) : 0x3e ∉ renderChar c := by
  have hcode {d : Char} : d.toNat = (0x3e : UInt8).toNat ↔ d = '>' :=
    ⟨fun h => Char.toNat_inj.mp h, fun h => h ▸ rfl⟩
  rw [renderChar_eq, Text.mem_ofChars_iff (by decide)]
  simp only [hcode, exists_eq_right]
  rcases charForm_cases c with ⟨l, hform, -, -, hl⟩ | ⟨hunit, hform⟩ | ⟨hform, -, -, hunit⟩
  · rw [hform, List.mem_cons, List.mem_singleton, not_or]
    exact ⟨by decide, fun h => hl (h ▸ by decide)⟩
  · have hdigits : ∀ n ∈ unitCodes, '>' ∉ unitDigits n := by decide
    rw [hform, List.mem_cons, List.mem_cons, not_or, not_or]
    exact ⟨by decide, by decide, hdigits _ (toNat_mem_unitCodes hunit)⟩
  · rw [hform, List.mem_singleton]
    exact fun h => hunit (h ▸ by decide)

theorem not_mem_renderString (t : Text) : 0x3e ∉ renderString t := by
  have hpieces : 0x3e ∉ t.pieces.flatMap renderPiece := by
    rw [List.mem_flatMap]
    rintro ⟨p, -, hp⟩
    cases p with
    | char c => exact not_mem_renderChar c hp
    | stray b => exact absurd hp (by decide : 0x3e ∉ unitEscape 0xfffd)
  rw [renderString, List.mem_append, List.mem_append, not_or, not_or]
  exact ⟨⟨by decide, hpieces⟩, by decide⟩

/-- **No list contains a `>`**, whatever bytes its texts consist of. -/
theorem not_mem_render (ts : List Text) : 0x3e ∉ render ts := by
  have hjoin : 0x3e ∉ Text.join "," (ts.map renderString) :=
    Text.not_mem_join (by decide) (List.forall_mem_map.mpr fun t _ => not_mem_renderString t)
  rw [render, List.mem_append, List.mem_append, not_or, not_or]
  exact ⟨⟨by decide, hjoin⟩, by decide⟩

end StringList

end Stencil
