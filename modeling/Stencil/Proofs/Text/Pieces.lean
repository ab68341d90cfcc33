import Mathlib.Data.List.DropRight
import Stencil.Markup.Construct
import Stencil.Number.Literal
import Stencil.Proofs.Encoding.Decoding

/-!
# Pieces of a text

Reading a text as characters takes it apart, and nothing is lost: written one after the other the
pieces are the text again. A byte that belongs to no character is not ASCII, and no byte of a longer
sequence is. So an ASCII byte is always a piece by itself, whatever stands around it, and what is
done to a text piece by piece treats ASCII bytes as if they were characters, even where the text is
not UTF-8.

The strict forms of escaping are such operations. They write a piece as a reference or as it stands,
if markup may contain it, and no other `&` than that of a reference is left. So a reader that
resolves the references finds the text again, but for the stray bytes and the characters that markup
cannot contain: there it finds U+FFFD.

## Main definitions

* `Text.Mended` – what a text is with U+FFFD in those places
* `Text.Trimmed` – what a text is without the white space at its ends
* `Text.resolve` – a text with its references resolved
* `Text.Escaping` – the strict forms, with the references they write and the bytes they must not
  leave

## Main results

* `Text.ofPieces_pieces` – the pieces of a text make up the text
* `Text.pieces_cons_of_ascii` – an ASCII byte is a piece
* `Text.piecewise` – induction on the pieces of a text
* `Text.pieces_append` – where a text can be cut
* `Text.mended_iff` – a text is mended piece by piece
* `Text.trimmed_trim` – what trimming does
* `Text.Escaping.rule_eq_lookup` – the references of an escaping are those its rule gives
* `Text.Escaping.apply_resolves` – escaped text has no markup in it and can be read back
-/

namespace Stencil.Text

variable {b : UInt8} {c : Char} {t : Text} {n k : Nat}

theorem toNat_of_scalar? {least : Nat} (h : scalar? least k = some c) : c.toNat = k := by
  obtain ⟨hk, hc⟩ := Option.dite_none_right_eq_some.mp h
  cases hc
  rfl

theorem toNat_of_continuation? (h : continuation? b = some k) : b.toNat = k + 0x80 ∧ k < 64 := by
  obtain ⟨hrange, heq⟩ := Option.ite_none_right_eq_some.mp h
  obtain rfl := Option.some.inj heq
  simp only [Bool.and_eq_true, decide_eq_true_eq, UInt8.le_iff_toNat_le] at hrange
  have h₁ : (0x80 : UInt8).toNat = 0x80 := rfl
  have h₂ : (0xbf : UInt8).toNat = 0xbf := rfl
  omega

theorem ofNat_eq_of_toNat (h : k = b.toNat) : UInt8.ofNat k = b := by
  rw [h, UInt8.ofNat_toNat]

/-- A character is read from no other bytes than those it is written as. -/
theorem utf8EncodeChar_of_leading? (h : leading? b t = some (c, n)) :
    String.utf8EncodeChar c = b :: t.take n := by
  have hbyte := b.toNat_lt
  have hread {least m i : Nat} (h : (scalar? least m).map (·, i) = some (c, n)) :
      c.val.toNat = m ∧ least ≤ m ∧ i = n := by
    obtain ⟨d, hd, heq⟩ := Option.map_eq_some_iff.mp h
    cases heq
    have hcode := toNat_of_scalar? hd
    exact ⟨hcode, hcode ▸ le_of_scalar? hd, rfl⟩
  rw [leading?_eq rfl] at h
  rw [String.utf8EncodeChar]
  split at h
  · obtain ⟨hcode, -, rfl⟩ := hread h
    rw [hcode, if_pos (by omega), ofNat_eq_of_toNat rfl, List.take_zero]
  split at h
  · rcases t with _ | ⟨b₁, t⟩
    · cases h
    obtain ⟨x₁, hx₁, h⟩ := Option.bind_eq_some_iff.mp h
    obtain ⟨hcode, hleast, rfl⟩ := hread h
    have h₁ := toNat_of_continuation? hx₁
    rw [hcode, if_neg (by omega), if_pos (by omega), ofNat_eq_of_toNat (b := b) (by omega),
      ofNat_eq_of_toNat (b := b₁) (by omega)]
    rfl
  split at h
  · rcases t with _ | ⟨b₁, _ | ⟨b₂, t⟩⟩
    · cases h
    · cases h
    obtain ⟨x₁, hx₁, h⟩ := Option.bind_eq_some_iff.mp h
    obtain ⟨x₂, hx₂, h⟩ := Option.bind_eq_some_iff.mp h
    obtain ⟨hcode, hleast, rfl⟩ := hread h
    have h₁ := toNat_of_continuation? hx₁
    have h₂ := toNat_of_continuation? hx₂
    rw [hcode, if_neg (by omega), if_neg (by omega), if_pos (by omega),
      ofNat_eq_of_toNat (b := b) (by omega), ofNat_eq_of_toNat (b := b₁) (by omega),
      ofNat_eq_of_toNat (b := b₂) (by omega)]
    rfl
  split at h
  · rcases t with _ | ⟨b₁, _ | ⟨b₂, _ | ⟨b₃, t⟩⟩⟩
    · cases h
    · cases h
    · cases h
    obtain ⟨x₁, hx₁, h⟩ := Option.bind_eq_some_iff.mp h
    obtain ⟨x₂, hx₂, h⟩ := Option.bind_eq_some_iff.mp h
    obtain ⟨x₃, hx₃, h⟩ := Option.bind_eq_some_iff.mp h
    obtain ⟨hcode, hleast, rfl⟩ := hread h
    have h₁ := toNat_of_continuation? hx₁
    have h₂ := toNat_of_continuation? hx₂
    have h₃ := toNat_of_continuation? hx₃
    rw [hcode, if_neg (by omega), if_neg (by omega), if_neg (by omega),
      ofNat_eq_of_toNat (b := b) (by omega), ofNat_eq_of_toNat (b := b₁) (by omega),
      ofNat_eq_of_toNat (b := b₂) (by omega), ofNat_eq_of_toNat (b := b₃) (by omega)]
    rfl
  · cases h

/-- An ASCII byte is read as a character. -/
theorem leading?_of_ascii (h : b.toNat < 128) : leading? b t = some (Char.ofNat b.toNat, 0) := by
  have hscalar := scalar?_eq (c := Char.ofNat b.toNat) (Nat.zero_le _)
  rw [toNat_ofNat_of_ascii h] at hscalar
  rw [leading?_eq rfl, if_pos h, hscalar]
  rfl

/-- **An ASCII byte is a piece.** -/
theorem pieces_cons_of_ascii (h : b.toNat < 128) :
    pieces (b :: t) = .char (Char.ofNat b.toNat) :: pieces t := by
  rw [pieces, piecesFrom, leading?_of_ascii h]
  rfl

/-! ### Characters and stray bytes -/

theorem pieces_utf8EncodeChar_append (c : Char) (t : Text) :
    pieces (String.utf8EncodeChar c ++ t) = .char c :: pieces t := by
  obtain ⟨b, u, hc, hread⟩ := leading?_utf8EncodeChar (c := c)
  rw [hc, List.cons_append, pieces, piecesFrom, hread]
  exact congrArg (Piece.char c :: ·) piecesFrom_length_append

theorem leading?_eq_none_iff : leading? b t = none ↔ ∀ c, ¬ String.utf8EncodeChar c <+: b :: t := by
  constructor
  · rintro h c ⟨u, hu⟩
    obtain ⟨b', v, hc, hread⟩ := leading?_utf8EncodeChar (c := c)
    rw [hc, List.cons_append] at hu
    obtain ⟨rfl, rfl⟩ := List.cons.inj hu
    rw [hread] at h
    cases h
  · intro h
    rw [Option.eq_none_iff_forall_not_mem]
    rintro ⟨c, n⟩ hread
    refine h c ?_
    rw [utf8EncodeChar_of_leading? hread]
    exact List.prefix_cons_inj b |>.mpr (List.take_prefix n t)

theorem pieces_cons_of_stray (h : ∀ c, ¬ String.utf8EncodeChar c <+: b :: t) :
    pieces (b :: t) = .stray b :: pieces t := by
  rw [pieces, piecesFrom, leading?_eq_none_iff.mpr h]
  rfl

/-- A text is empty, or it begins with a character, or with a byte at which no character starts. -/
theorem piecewise {motive : Text → Prop} (nil : motive [])
    (char : ∀ c t, motive t → motive (String.utf8EncodeChar c ++ t))
    (stray : ∀ b t, (∀ c, ¬ String.utf8EncodeChar c <+: b :: t) → motive t → motive (b :: t))
    (t : Text) : motive t := by
  induction hlength : t.length using Nat.strongRecOn generalizing t with
  | ind m ih =>
    subst hlength
    cases t with
    | nil => exact nil
    | cons b t =>
      cases hread : leading? b t with
      | none =>
        exact stray b t (leading?_eq_none_iff.mp hread) (ih t.length (Nat.lt_succ_self _) t rfl)
      | some p =>
        obtain ⟨c, n⟩ := p
        have hbytes : b :: t = String.utf8EncodeChar c ++ t.drop n := by
          rw [utf8EncodeChar_of_leading? hread, List.cons_append, List.take_append_drop]
        rw [hbytes]
        exact char c (t.drop n) (ih (t.drop n).length
          (by rw [List.length_drop, List.length_cons]; omega) (t.drop n) rfl)

/-- **The pieces of a text make up the text**, and its stray bytes are not ASCII. -/
theorem ofPieces_pieces (t : Text) :
    ofPieces t.pieces = t ∧ ∀ b, .stray b ∈ t.pieces → ¬ b.toNat < 128 := by
  induction t using piecewise with
  | nil => exact ⟨rfl, fun _ hb => absurd hb List.not_mem_nil⟩
  | char c t ih =>
    obtain ⟨hbytes, hstray⟩ := ih
    rw [pieces_utf8EncodeChar_append]
    refine ⟨?_, fun d hd => hstray d ((List.mem_cons.mp hd).resolve_left nofun)⟩
    rw [ofPieces, List.flatMap_cons, ← ofPieces, hbytes]
    rfl
  | stray b t h ih =>
    obtain ⟨hbytes, hstray⟩ := ih
    rw [pieces_cons_of_stray h]
    refine ⟨?_, fun d hd => ?_⟩
    · rw [ofPieces, List.flatMap_cons, ← ofPieces, hbytes]
      rfl
    · rcases List.mem_cons.mp hd with heq | hd
      · cases heq
        intro hascii
        rw [← leading?_eq_none_iff, leading?_of_ascii hascii] at h
        cases h
      · exact hstray d hd

/-- Where a character may start, a text can be cut without cutting through a piece. -/
theorem pieces_append {t u : Text} (hu : ∀ b ∈ u.head?, b.IsUTF8FirstByte) :
    pieces (t ++ u) = pieces t ++ pieces u := by
  induction t using piecewise with
  | nil => rfl
  | char c t ih =>
      rw [List.append_assoc, pieces_utf8EncodeChar_append, ih, pieces_utf8EncodeChar_append,
        List.cons_append]
  | stray b t h ih =>
    have hwhole (c : Char) : ¬ String.utf8EncodeChar c <+: b :: (t ++ u) := by
      intro hc
      rcases List.prefix_or_prefix_of_prefix hc (List.prefix_append (b :: t) u) with hshort |
        ⟨v, hv⟩
      · exact h c hshort
      · cases v with
        | nil => exact h c ⟨[], by rw [List.append_nil, ← hv, List.append_nil]⟩
        | cons a v =>
          -- the byte behind the border would be a later byte of the character
          rw [← hv, ← List.cons_append, List.prefix_append_right_inj] at hc
          obtain ⟨w, rfl⟩ := hc
          have hlt : t.length + 1 < (String.utf8EncodeChar c).length := by
            rw [← hv, List.length_append, List.length_cons, List.length_cons]
            omega
          have ha : (String.utf8EncodeChar c)[t.length + 1] = a := by
            simp only [← hv, List.getElem_append_right, List.length_cons, Nat.le_refl, Nat.sub_self,
              List.getElem_cons_zero]
          have hfirst := hu a rfl
          rw [← ha, UInt8.isUTF8FirstByte_getElem_utf8EncodeChar] at hfirst
          cases hfirst
    rw [List.cons_append, pieces_cons_of_stray hwhole, ih, pieces_cons_of_stray h, List.cons_append]

/-- A character can start at the first byte of one. -/
theorem isUTF8FirstByte_of_mem_head? (cs : List Char) :
    ∀ b ∈ (ofChars cs).head?, b.IsUTF8FirstByte := by
  cases cs with
  | nil => exact fun b hb => nomatch hb
  | cons c cs =>
    have hfirst := UInt8.isUTF8FirstByte_getElem_zero_utf8EncodeChar (c := c)
    cases hc : String.utf8EncodeChar c with
    | nil => exact absurd hc String.utf8EncodeChar_ne_nil
    | cons a u =>
      rw [ofChars_cons, hc]
      rintro b ⟨⟩
      simpa only [hc, List.getElem_cons_zero] using hfirst

/-! ### Mending -/

/-- The second text is the first one with U+FFFD in place of every byte at which no character starts
and of every character that markup cannot contain. -/
inductive Mended : Text → Text → Prop where
  | nil : Mended [] []
  | kept {c : Char} {t u : Text} (hc : isMarkupChar c) (h : Mended t u) :
    Mended (String.utf8EncodeChar c ++ t) (String.utf8EncodeChar c ++ u)
  | barred {c : Char} {t u : Text} (hc : ¬ isMarkupChar c) (h : Mended t u) :
    Mended (String.utf8EncodeChar c ++ t) (String.utf8EncodeChar replacement ++ u)
  | stray {b : UInt8} {t u : Text} (hb : ∀ c, ¬ String.utf8EncodeChar c <+: b :: t)
    (h : Mended t u) : Mended (b :: t) (String.utf8EncodeChar replacement ++ u)

/-- A text is mended piece by piece. -/
theorem mended_iff {u : Text} : Mended t u ↔ t.pieces.flatMap Piece.legal = u := by
  constructor
  · intro h
    induction h with
    | nil => rfl
    | kept hc _ ih =>
      rw [pieces_utf8EncodeChar_append, List.flatMap_cons, ih, Piece.legal, if_pos hc]
    | barred hc _ ih =>
      rw [pieces_utf8EncodeChar_append, List.flatMap_cons, ih, Piece.legal, if_neg hc]
    | stray hb _ ih =>
      rw [pieces_cons_of_stray hb, List.flatMap_cons, ih, Piece.legal]
  · rintro rfl
    induction t using piecewise with
    | nil => exact .nil
    | char c t ih =>
      rw [pieces_utf8EncodeChar_append, List.flatMap_cons, Piece.legal]
      split
      · rename_i hc
        exact .kept hc ih
      · rename_i hc
        exact .barred hc ih
    | stray b t h ih =>
      rw [pieces_cons_of_stray h, List.flatMap_cons, Piece.legal]
      exact .stray h ih

/-! ### White space at the ends -/

/-- The second text is the first one without the white space at its ends. -/
def Trimmed (t u : Text) : Prop :=
  (∃ cs ds : List Char, t = ofChars cs ++ u ++ ofChars ds ∧ cs.all isSpace ∧ ds.all isSpace) ∧
    ∀ c, isSpace c → ¬ String.utf8EncodeChar c <+: u ∧ ¬ String.utf8EncodeChar c <:+ u

theorem exists_map_char {ps : List Piece} (h : ∀ p ∈ ps, p.isSpace) :
    ∃ cs : List Char, ps = cs.map .char ∧ cs.all isSpace := by
  induction ps with
  | nil => exact ⟨[], rfl, rfl⟩
  | cons p ps ih =>
    obtain ⟨cs, rfl, hcs⟩ := ih fun q hq => h q (List.mem_cons_of_mem p hq)
    have hp := h p List.mem_cons_self
    cases p with
    | char c => exact ⟨c :: cs, rfl, by rw [List.all_cons, hcs, Bool.and_true]; exact hp⟩
    | stray b => cases hp

theorem ofPieces_map_char (cs : List Char) : ofPieces (cs.map .char) = ofChars cs := by
  rw [ofPieces, List.flatMap_map]
  rfl

theorem pieces_ofChars_append (cs : List Char) (t : Text) :
    pieces (ofChars cs ++ t) = cs.map .char ++ pieces t := by
  induction cs with
  | nil => rfl
  | cons c cs ih =>
      rw [ofChars_cons, List.append_assoc, pieces_utf8EncodeChar_append, ih,
        List.map_cons, List.cons_append]

/-- **Trimming takes away the white space at the ends**, and only that. -/
theorem trimmed_trim (t : Text) : Trimmed t t.trim := by
  obtain ⟨inner, hdrop⟩ : ∃ inner, t.pieces.dropWhile Piece.isSpace = inner := ⟨_, rfl⟩
  obtain ⟨cs, hfront, hcs⟩ := exists_map_char fun p => List.mem_takeWhile_imp (l := t.pieces)
  obtain ⟨ds, hback, hds⟩ := exists_map_char fun p => List.mem_rtakeWhile_imp (l := inner)
  have hinner : inner = inner.rdropWhile Piece.isSpace ++ ds.map .char := by
    rw [← hback, List.rdropWhile_append_rtakeWhile]
  have hpieces : t.pieces = cs.map .char ++ (inner.rdropWhile Piece.isSpace ++ ds.map .char) := by
    rw [← hfront, ← hinner, ← hdrop, List.takeWhile_append_dropWhile]
  have htrim : ofPieces (inner.rdropWhile Piece.isSpace) = t.trim := by rw [← hdrop]; rfl
  have ht : t = ofChars cs ++ t.trim ++ ofChars ds := by
    have h := (ofPieces_pieces t).1
    rw [hpieces, ofPieces, List.flatMap_append, List.flatMap_append, ← ofPieces,
      ← ofPieces, ← ofPieces, ofPieces_map_char, ofPieces_map_char, htrim, ← List.append_assoc] at h
    exact h.symm
  -- what is left is read as the pieces that were left
  have hleft : pieces t.trim = inner.rdropWhile Piece.isSpace := by
    have h := congrArg pieces ht
    rw [hpieces, List.append_assoc, pieces_ofChars_append,
      pieces_append (isUTF8FirstByte_of_mem_head? ds), pieces_ofChars] at h
    exact (List.append_cancel_right (List.append_cancel_left h)).symm
  refine ⟨⟨cs, ds, ht, hcs, hds⟩, fun c hc => ⟨?_, ?_⟩⟩
  · rintro ⟨u, hu⟩
    have hfirst := List.head?_dropWhile_not Piece.isSpace t.pieces
    rw [← hu, pieces_utf8EncodeChar_append] at hleft
    rw [hdrop, hinner, ← hleft] at hfirst
    exact Bool.false_ne_true (hfirst.symm.trans hc)
  · rintro ⟨u, hu⟩
    have hlast := List.rdropWhile_eq_self_iff.mp (List.rdropWhile_idempotent Piece.isSpace inner)
    have hone := isUTF8FirstByte_of_mem_head? [c]
    rw [ofChars_cons, ofChars_nil, List.append_nil] at hone
    rw [← hu, pieces_append hone, ← List.append_nil (String.utf8EncodeChar c),
      pieces_utf8EncodeChar_append] at hleft
    rw [← hleft] at hlast
    exact hlast (List.append_ne_nil_of_right_ne_nil _ (List.cons_ne_nil _ _))
      (by rw [List.getLast_append_of_right_ne_nil _ _ (List.cons_ne_nil _ _)]; exact hc)

/-! ### References -/

/-- The character that is meant by what stands between `&` and `;`: a number, or a name. -/
def denoted? : Text → Option Char
  | 0x23 :: digits => (Number.digits? 10 (chars digits)).bind Markup.charOfCode?
  | name => Markup.predefinedEntity? name

/-- The character of the reference at the head of a text, and what is behind it. -/
def reference? : Text → Option (Char × Text)
  | 0x26 :: t => do
    let (body, rest) ← cut? 0x3b t
    return (← denoted? body, rest)
  | _ => none

theorem reference?_eq_some_iff {r : Text} : reference? t = some (c, r) ↔
    ∃ body, t = 0x26 :: (body ++ 0x3b :: r) ∧ 0x3b ∉ body ∧ denoted? body = some c := by
  constructor
  · intro h
    unfold reference? at h
    split at h
    · obtain ⟨⟨body, rest⟩, hcut, h⟩ := Option.bind_eq_some_iff.mp h
      obtain ⟨d, hd, h⟩ := Option.bind_eq_some_iff.mp h
      obtain ⟨rfl, rfl⟩ := Prod.mk.inj (Option.some.inj h)
      obtain ⟨rfl, hbody⟩ := cut?_eq_some hcut
      exact ⟨body, rfl, hbody, hd⟩
    · cases h
  · rintro ⟨body, rfl, hbody, hd⟩
    rw [reference?, cut?_append hbody, Option.bind_eq_bind, Option.bind_some]
    exact Option.bind_eq_some_iff.mpr ⟨c, hd, rfl⟩

theorem length_of_reference? {r : Text} (h : reference? t = some (c, r)) : r.length < t.length := by
  obtain ⟨body, rfl, -⟩ := reference?_eq_some_iff.mp h
  rw [List.length_cons, List.length_append, List.length_cons]
  omega

/-- The text with every reference resolved. There is none if a `&` begins no reference. -/
def resolve : Text → Option Text
  | [] => some []
  | b :: t =>
    if b = 0x26 then
      match _h : reference? (b :: t) with
      | some (c, rest) => (resolve rest).map (String.utf8EncodeChar c ++ ·)
      | none => none
    else (resolve t).map (b :: ·)
termination_by t => t.length
decreasing_by
  · exact length_of_reference? _h
  · exact Nat.lt_succ_self _

/-- What is behind a reference has no part in how it is read. -/
theorem reference?_append {r rest : Text} (h : reference? r = some (c, rest)) (t : Text) :
    reference? (r ++ t) = some (c, rest ++ t) := by
  obtain ⟨body, rfl, hbody, hd⟩ := reference?_eq_some_iff.mp h
  refine reference?_eq_some_iff.mpr ⟨body, ?_, hbody, hd⟩
  rw [List.cons_append, List.append_assoc, List.cons_append]

theorem resolve_of_reference? {r : Text} (h : reference? t = some (c, r)) :
    resolve t = (resolve r).map (String.utf8EncodeChar c ++ ·) := by
  obtain ⟨body, rfl, -⟩ := reference?_eq_some_iff.mp h
  rw [resolve, if_pos rfl]
  split
  · rename_i heq
    obtain ⟨rfl, rfl⟩ := Prod.mk.inj (Option.some.inj (heq.symm.trans h))
    rfl
  · rename_i heq
    cases heq.symm.trans h

theorem resolve_append (h : 0x26 ∉ t) (u : Text) : resolve (t ++ u) = (resolve u).map (t ++ ·) := by
  induction t with
  | nil => cases hu : resolve u <;> simp [hu]
  | cons b t ih =>
    have hb : b ≠ 0x26 := fun hb => h (hb ▸ List.mem_cons_self)
    rw [List.cons_append, resolve, if_neg hb, ih fun hmem => h (List.mem_cons_of_mem b hmem),
      Option.map_map]
    rfl

/-! ### Strict escaping -/

/-- The ways of escaping a text of any origin. -/
inductive Escaping where
  /-- Between double quotes. -/
  | value
  /-- As character data, with line feeds as references or not. -/
  | characters (lineFeeds : Bool)
  deriving DecidableEq, Repr

namespace Escaping

/-- The escaped text. -/
def apply : Escaping → Text → Text
  | value, t => t.escapeAttribute
  | characters lineFeeds, t => t.escapeCharacters lineFeeds

/-- How a character is escaped. -/
def rule : Escaping → Char → Option Text
  | value => attributeRule
  | characters lineFeeds => charactersRule lineFeeds

/-- How a piece of the text is written. -/
def write (e : Escaping) : Piece → Text
  | .char c => (e.rule c).getD (Piece.char c).legal
  | .stray b => (Piece.stray b).legal

/-- The references that are written, each with the character it stands for. -/
def references : Escaping → List (Char × Text)
  | value => [('"', "&#34;"), ('&', "&amp;"), ('<', "&lt;"), ('>', "&gt;"), ('\n', "&#10;"),
      ('\r', "&#13;"), ('\t', "&#9;")]
  | characters false => [('&', "&amp;"), ('<', "&lt;"), ('>', "&gt;"), ('\r', "&#13;")]
  | characters true =>
    [('&', "&amp;"), ('<', "&lt;"), ('>', "&gt;"), ('\r', "&#13;"), ('\n', "&#10;")]

/-- The bytes that an escaped text must not contain. -/
def barred : Escaping → Text
  | value => "<>\r\"\t\n"
  | characters false => "<>\r"
  | characters true => "<>\r\n"

variable {e : Escaping} {p : Piece} {r : Text}

theorem apply_eq (e : Escaping) (t : Text) : e.apply t = t.pieces.flatMap e.write := by
  have hwrite (rule : Char → Option Text) : t.escapeWith rule = t.pieces.flatMap fun
      | .char c => (rule c).getD (Piece.char c).legal
      | .stray b => (Piece.stray b).legal :=
    congrArg t.pieces.flatMap (funext fun p => by cases p <;> rfl)
  cases e with
  | value => exact hwrite attributeRule
  | characters lineFeeds => exact hwrite (charactersRule lineFeeds)

theorem lookup_cons_eq_ite (a : Char) (r : Text) (l : List (Char × Text)) :
    ((a, r) :: l).lookup c = if c = a then some r else l.lookup c := by
  rw [List.lookup_cons]
  split <;> simp_all

theorem rule_eq_lookup (e : Escaping) (c : Char) : e.rule c = e.references.lookup c := by
  obtain _ | _ | _ := e <;>
    simp [rule, attributeRule, charactersRule, references, lookup_cons_eq_ite]

/-- Every reference begins at its only `&` and is read as the character it is written for, which
markup may contain. No barred byte is in it. -/
theorem of_mem_references (h : (c, r) ∈ e.references) :
    reference? r = some (c, []) ∧ isMarkupChar c ∧ (∃ t, r = 0x26 :: t ∧ 0x26 ∉ t) ∧
      ∀ b ∈ e.barred, b ∉ r := by
  have hall : ∀ e : Escaping, ∀ p ∈ e.references, reference? p.2 = some (p.1, []) ∧
      isMarkupChar p.1 ∧ (p.2 = 0x26 :: p.2.tail ∧ 0x26 ∉ p.2.tail) ∧
        ∀ b ∈ e.barred, b ∉ p.2 := by
    rintro (_ | _ | _) <;> decide +kernel
  obtain ⟨hread, hc, htail, hbarred⟩ := hall e _ h
  exact ⟨hread, hc, ⟨_, htail⟩, hbarred⟩

/-- For `&` and for every barred byte there is a reference. -/
theorem exists_reference (h : b ∈ 0x26 :: e.barred) :
    b.toNat < 128 ∧ ∃ q ∈ e.references, q.1.toNat = b.toNat := by
  have hall : ∀ e : Escaping, ∀ b ∈ 0x26 :: e.barred,
      b.toNat < 128 ∧ ∃ q ∈ e.references, q.1.toNat = b.toNat := by
    rintro (_ | _ | _) <;> decide +kernel
  exact hall e b h

/-- An ASCII byte is not written as it stands if there is a reference for it. -/
theorem not_mem_legal (hb : b.toNat < 128) (h : ∀ c : Char, p = .char c → c.toNat ≠ b.toNat) :
    b ∉ p.legal := by
  have hreplacement : b ∉ String.utf8EncodeChar replacement := fun hmem => by
    have heq := (mem_utf8EncodeChar_iff hb).mp hmem
    have hcode : replacement.toNat = 0xfffd := rfl
    omega
  cases p with
  | char c =>
    rw [Piece.legal]
    split
    · exact fun hmem => h c rfl ((mem_utf8EncodeChar_iff hb).mp hmem)
    · exact hreplacement
  | stray b' => exact hreplacement

/-- A piece is written as a reference, or as it stands and without any byte that has one. -/
theorem write_cases (e : Escaping) (p : Piece) :
    (∃ c, p = .char c ∧ (c, e.write p) ∈ e.references) ∨
      e.write p = p.legal ∧ ∀ b ∈ 0x26 :: e.barred, b ∉ p.legal := by
  cases p with
  | char c =>
    cases hrule : e.rule c with
    | some r =>
      have hwrite : e.write (.char c) = r := by rw [write, hrule, Option.getD_some]
      rw [rule_eq_lookup] at hrule
      obtain ⟨l₁, l₂, heq, -⟩ := List.lookup_eq_some_iff.mp hrule
      exact .inl ⟨c, rfl, by rw [hwrite, heq]; exact List.mem_append_right _ List.mem_cons_self⟩
    | none =>
      refine .inr ⟨by rw [write, hrule, Option.getD_none], fun b hb => ?_⟩
      obtain ⟨hascii, q, hq, hcode⟩ := exists_reference hb
      refine not_mem_legal hascii ?_
      rintro d ⟨⟩ heq
      rw [rule_eq_lookup] at hrule
      have hne := List.lookup_eq_none_iff.mp hrule q hq
      have hc : c = q.1 := Char.ext (UInt32.toNat_inj.mp (heq.trans hcode.symm))
      rw [hc, bne_self_eq_false] at hne
      cases hne
  | stray b' =>
    exact .inr ⟨rfl, fun b hb => not_mem_legal (exists_reference hb).1 fun _ h => nomatch h⟩

theorem not_mem_apply (h : b ∈ e.barred) (t : Text) : b ∉ e.apply t := by
  rw [apply_eq, List.mem_flatMap]
  rintro ⟨p, -, hmem⟩
  rcases e.write_cases p with ⟨c, -, hreference⟩ | ⟨hlegal, hbarred⟩
  · exact (of_mem_references hreference).2.2.2 b h hmem
  · exact hbarred b (List.mem_cons_of_mem _ h) (hlegal ▸ hmem)

/-- Wherever there is a `&` in what is written for some pieces, a reference is written. -/
theorem exists_reference_prefix {ps : List Piece} {u v : Text}
    (h : ps.flatMap e.write = u ++ 0x26 :: v) : ∃ q ∈ e.references, q.2 <+: 0x26 :: v := by
  induction ps generalizing u with
  | nil => simp at h
  | cons p ps ih =>
    rw [List.flatMap_cons, List.append_eq_append_iff] at h
    obtain ⟨m, rfl, hps⟩ | ⟨m, hwrite, hv⟩ := h
    · exact ih hps
    · cases m with
      | nil => exact ih (u := []) hv.symm
      | cons a m =>
        obtain ⟨rfl, rfl⟩ := List.cons.inj hv
        have hmem : 0x26 ∈ e.write p := by
          rw [hwrite]
          exact List.mem_append_right _ List.mem_cons_self
        rcases e.write_cases p with ⟨c, -, hreference⟩ | ⟨hlegal, hbarred⟩
        · -- the only `&` of the reference is its first byte
          obtain ⟨-, -, ⟨r, hr, hnone⟩, -⟩ := of_mem_references hreference
          cases u with
          | nil => exact ⟨_, hreference, hwrite ▸ List.prefix_append _ _⟩
          | cons a u =>
            rw [hr] at hwrite
            obtain ⟨-, rfl⟩ := List.cons.inj hwrite
            exact absurd (List.mem_append_right _ List.mem_cons_self) hnone
        · exact absurd (hlegal ▸ hmem) (hbarred _ List.mem_cons_self)

theorem resolve_flatMap_write (e : Escaping) (ps : List Piece) :
    resolve (ps.flatMap e.write) = some (ps.flatMap Piece.legal) := by
  induction ps with
  | nil => simp [resolve]
  | cons p ps ih =>
    rw [List.flatMap_cons, List.flatMap_cons]
    rcases e.write_cases p with ⟨c, rfl, hreference⟩ | ⟨hlegal, hbarred⟩
    · obtain ⟨hread, hc, -⟩ := of_mem_references hreference
      rw [resolve_of_reference? (reference?_append hread _), List.nil_append, ih,
        Piece.legal, if_pos hc]
      rfl
    · rw [hlegal, resolve_append (hbarred _ List.mem_cons_self), ih]
      rfl

/-- **An escaped text holds nothing that would be read as markup, and it can be read back.** No byte
is in it that has to be escaped, and every `&` begins a reference that escaping writes. Resolving
the references gives the text with U+FFFD in place of what markup cannot contain, and with nothing
else changed. -/
theorem apply_resolves (e : Escaping) (t : Text) :
    (∀ b ∈ e.barred, b ∉ e.apply t) ∧
      (∀ u v, e.apply t = u ++ 0x26 :: v → ∃ q ∈ e.references, q.2 <+: 0x26 :: v) ∧
        ∃ u, resolve (e.apply t) = some u ∧ ∀ v, Mended t v ↔ v = u := by
  refine ⟨fun b hb => not_mem_apply hb t, fun u v h => ?_, t.pieces.flatMap Piece.legal,
    ?_, fun v => ?_⟩
  · rw [apply_eq] at h
    exact exists_reference_prefix h
  · rw [apply_eq, resolve_flatMap_write]
  · rw [mended_iff, eq_comm]

end Escaping

end Stencil.Text
