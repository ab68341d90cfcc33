import Stencil.Markup.Source
import Stencil.Proofs.Encoding.Decoding
import Stencil.Proofs.Markup.Declaration
import Stencil.Proofs.Markup.Legality
import Stencil.Proofs.Text.Characters

/-!
# The encoding of a source

The characters of a source may be stored in UTF-8, in UTF-8 with a byte order mark, and in UTF-16
with a byte order mark in either order. Which of these was chosen is not visible behind decoding:
the mark is dropped exactly once, by whoever is the one to take it, and what is left gives the same
characters. A mark cannot be mistaken for text either. The bytes of the UTF-16 marks begin no UTF-8
sequence, and those of the UTF-8 mark are the character U+FEFF, with which a source must not begin
for that reason.

A name in the declaration counts for UTF-8 sources only. If it means another encoding, the two UTF-8
forms are decoded by it, and the UTF-16 forms are not.

A source without a byte order mark is decoded with the encoding that the search in its bytes finds.
Once it is decoded, its declaration is read and reported, with the name of an encoding in it. In an
accepted source the two names are the same, whichever encoding the source is in: the declaration is
ASCII, and ASCII is read alike in UTF-8 and in all single byte encodings. Sources that name UTF-16
cannot be read at all, because two characters of the declaration would be one.

The search takes one thing for a declaration that is none: a processing instruction at the very
start whose target begins like a declaration does, but goes on without white space. And it reads
bytes where the scan reads characters: in an encoding with escape sequences, which are ASCII and
stand for no characters, the bytes may end the declaration elsewhere than the characters do. Those
are the only cases in which the names can differ.

## Main definitions

* `sourceForms` – how characters may be stored
* `reportedEncoding` – the encoding that a declaration among the events names

## Main results

* `decodeSource_of_mem_sourceForms` – what all forms are decoded to
* `read_of_mem_sourceForms` – reading does not depend on the form
* `sourceEncoding_of_read_ok` – the name a source is decoded with and the name that is reported
-/

namespace Stencil

open Encoding (ByteOrder encodeUtf16)

namespace Encoding

/-- The byte order mark of UTF-8. -/
def utf8Mark : Text := [0xef, 0xbb, 0xbf]

variable {cs : List Char}

/-- The text of a source that does not begin with U+FEFF has no byte order mark. -/
theorem sniff_ofChars (h : cs.head? ≠ some '\uFEFF') : sniff (Text.ofChars cs) = ([], 0) := by
  cases cs with
  | nil => rfl
  | cons c cs =>
    obtain ⟨b, u, hc, hread⟩ := Text.leading?_utf8EncodeChar (c := c)
    have hlead := hread (Text.ofChars cs)
    rw [Text.ofChars_cons, hc, List.cons_append, sniff.eq_def]
    split
    · -- the bytes of the UTF-8 mark are those of U+FEFF
      rename_i t heq
      obtain ⟨rfl, hrest⟩ := List.cons.inj heq
      obtain ⟨b', u', hmark, hread'⟩ := Text.leading?_utf8EncodeChar (c := '\uFEFF')
      have hbytes : String.utf8EncodeChar '\uFEFF' = utf8Mark := by decide
      obtain ⟨rfl, rfl⟩ := List.cons.inj (hbytes.symm.trans hmark)
      have hlead' : Text.leading? 0xef (0xbb :: 0xbf :: t) = some ('\uFEFF', 2) := hread' t
      rw [hrest, hlead'] at hlead
      obtain ⟨rfl, -⟩ := Prod.mk.inj (Option.some.inj hlead)
      exact absurd rfl h
    · rename_i t heq
      obtain ⟨rfl, -⟩ := List.cons.inj heq
      cases hlead
    · rename_i t heq
      obtain ⟨rfl, -⟩ := List.cons.inj heq
      cases hlead
    · rfl

end Encoding

namespace Markup

/-- How the characters of a source may be stored. -/
def sourceForms (cs : List Char) : List Text :=
  [Text.ofChars cs, Encoding.utf8Mark ++ Text.ofChars cs,
   ByteOrder.big.mark ++ encodeUtf16 .big cs, ByteOrder.little.mark ++ encodeUtf16 .little cs]

variable {ε : Type} {cs : List Char} {name t u : Text}

section Decoding

variable [Encoding.Decoders]

/-- A source is decoded to the characters that its UTF-8 form was written from. -/
theorem decodeSource_of_decode (hsource : sourceEncoding t = (name, u))
    (hdecode : Encoding.decode name u = .ok (Text.ofChars cs)) :
    (decodeSource t : Except (ReadError ε) (List Char)) = .ok cs := by
  rw [decodeSource, hsource]
  dsimp only
  rw [hdecode]
  dsimp only
  rw [Text.chars?_ofChars]

/-- A byte order mark of UTF-16 decides the encoding. -/
theorem decodeSource_utf16 (o : ByteOrder) :
    (decodeSource (o.mark ++ encodeUtf16 o cs) : Except (ReadError ε) (List Char)) = .ok cs := by
  have hsniff : Encoding.sniff (o.mark ++ encodeUtf16 o cs) =
      (("utf-16" : Text), 0) := by cases o <;> rfl
  have hutf8 : Encoding.isUtf8 "utf-16" = false := by decide
  have hfind : Encoding.find? "utf-16" = some .utf16 := rfl
  have hsource : sourceEncoding (o.mark ++ encodeUtf16 o cs) =
      (("utf-16" : Text), o.mark ++ encodeUtf16 o cs) := by
    rw [sourceEncoding, hsniff]
    simp [hutf8]
  refine decodeSource_of_decode hsource ?_
  rw [Encoding.decode, hutf8, hfind]
  exact congrArg (Except.mapError (.refused "utf-16")) (Encoding.toUtf8_mark_append cs)

/-- **What all forms are decoded to.** -/
theorem decodeSource_of_mem_sourceForms (hmark : cs.head? ≠ some '\uFEFF')
    (hdeclared : Encoding.isUtf8 (declaredEncoding (Text.ofChars cs))) (ht : t ∈ sourceForms cs) :
    (decodeSource t : Except (ReadError ε) (List Char)) = .ok cs := by
  have hdecode : Encoding.decode (declaredEncoding (Text.ofChars cs)) (Text.ofChars cs) =
      .ok (Text.ofChars cs) := if_pos hdeclared
  simp only [sourceForms, List.mem_cons, List.not_mem_nil, or_false] at ht
  rcases ht with rfl | rfl | rfl | rfl
  · refine decodeSource_of_decode ?_ hdecode
    rw [sourceEncoding, Encoding.sniff_ofChars hmark]
    rfl
  · exact decodeSource_of_decode rfl hdecode
  · exact decodeSource_utf16 .big
  · exact decodeSource_utf16 .little

/-- **Reading does not depend on the form.** All forms are decoded to the same characters, and
whoever receives the events gets the same ones at the same positions; reading ends in the same
way. -/
theorem read_of_mem_sourceForms {σ : Type} (receive : Located → σ → Except ε Unit × σ)
    (canceled : Bool) (s : σ) (hmark : cs.head? ≠ some '\uFEFF')
    (hdeclared : Encoding.isUtf8 (declaredEncoding (Text.ofChars cs))) (ht : t ∈ sourceForms cs) :
    (decodeSource t : Except (ReadError ε) (List Char)) = .ok cs ∧
      read receive canceled t s = read receive canceled (Text.ofChars cs) s := by
  have hform := decodeSource_of_mem_sourceForms (ε := ε) hmark hdeclared ht
  have hutf8 := decodeSource_of_mem_sourceForms (ε := ε) hmark hdeclared
    (show Text.ofChars cs ∈ sourceForms cs from List.mem_cons_self)
  exact ⟨hform, by rw [read, read, hform, hutf8]⟩

end Decoding

/-- A character that takes two units, behind a declaration that names UTF-8. -/
theorem read_clef :
    let cs := "<?xml version='1.0' encoding='UTF-8'?><a>𝄞</a>".toList
    let t := ByteOrder.little.mark ++ encodeUtf16 .little cs
    let receive : Located → Nat → Except Unit Unit × Nat := fun _ n => (.ok (), n + 1)
    cs.head? ≠ some '\uFEFF' ∧ Encoding.isUtf8 (declaredEncoding (Text.ofChars cs)) ∧
      t ∈ sourceForms cs ∧ (decodeSource t : Except (ReadError Unit) (List Char)) = .ok cs ∧
      read receive false t 0 = read receive false (Text.ofChars cs) 0 := by
  intro cs t receive
  have hmark : cs.head? ≠ some '\uFEFF' := by decide
  have hdeclared : Encoding.isUtf8 (declaredEncoding (Text.ofChars cs)) := by decide
  have ht : t ∈ sourceForms cs := by simp [t, sourceForms]
  exact ⟨hmark, hdeclared, ht, read_of_mem_sourceForms receive false 0 hmark hdeclared ht⟩

end Markup

end Stencil

/-! ## The name of the encoding -/

namespace Stencil.Markup

/-- The encoding named by the declaration among the events. It is empty if there is no declaration,
or one that names no encoding. -/
def reportedEncoding (ls : List Located) : Text := (ls.findSome? fun l => l.event.declared?).getD []

/-! ### What is reported of a declaration -/

theorem reported_undeclared : Reported fun e => e.declared? = none where
  startTag _ := rfl
  reference _ := rfl
  run _ _ := rfl
  other _ _ _ h := h

theorem reportedEncoding_eq_nil {ls : List Located} (h : ∀ l ∈ ls, l.event.declared? = none) :
    reportedEncoding ls = [] := by
  rw [reportedEncoding, List.findSome?_eq_none_iff.mpr h]
  rfl

theorem reportedEncoding_append {ls ls' : List Located} {l : Located} {e : Text}
    (h : ∀ l ∈ ls, l.event.declared? = none) (hl : l.event.declared? = some e) :
    reportedEncoding (ls ++ l :: ls') = e := by
  rw [reportedEncoding, List.findSome?_append, List.findSome?_eq_none_iff.mpr h,
    List.findSome?_cons, hl]
  rfl

namespace Scanner

open Stencil.Action (Yields)

/-- What a scan starts with, behind the two events that come first. -/
theorem document_declares {canceled : Bool} {s : Scan} : Yields (document canceled) s fun _ s' =>
    ∃ first second later, s'.events = later ++ second :: first :: s.events ∧
      first.event.declared? = none ∧ second.event.declared? = none ∧
      if atDeclaration s.cursor then ∃ d cur l after, Reader.declaration s.cursor = .ok (d, cur) ∧
        later = after ++ [l] ∧ l.event.declared? = some d.2.1 ∧
        ∀ l ∈ after, l.event.declared? = none
      else ∀ l ∈ later, l.event.declared? = none := by
  rw [document_eq]
  refine .bind (.bind (.get (.pure (.bind (.modify (.bind (.modify ?_)))))))
  split
  · refine .bind (construct_yields.imp ?_)
    rintro - s₁ ⟨d, l, hread, hevent, hevents⟩
    refine (fromProlog_stays reported_undeclared).yields.imp ?_
    rintro - s' ⟨after, hafter, hnone⟩
    exact ⟨_, _, after ++ [l], by rw [hafter, hevents, List.append_assoc]; rfl, rfl, rfl, d,
      s₁.cursor, l, after, hread, rfl, by rw [hevent]; rfl, hnone⟩
  · refine (fromProlog_stays reported_undeclared).yields.imp ?_
    rintro - s' ⟨later, hlater, hnone⟩
    exact ⟨_, _, later, hlater, rfl, rfl, hnone⟩

end Scanner

/-- The declaration is reported as it was read, and nothing else is reported as one. -/
theorem reportedEncoding_scan {canceled : Bool} {cs : List Char} {ls : List Located}
    (h : scan canceled cs = (ls, .complete)) :
    if Scanner.atDeclaration (Cursor.start cs) then ∃ d cur,
      Reader.declaration (Cursor.start cs) = .ok (d, cur) ∧ reportedEncoding ls = d.2.1
    else ∀ l ∈ ls, l.event.declared? = none := by
  obtain ⟨s, hdocument, rfl⟩ := exists_document_of_scan h
  obtain ⟨first, second, later, hevents, hfirst, hsecond, hdeclares⟩ :=
    Scanner.document_declares _ _ hdocument
  have horder : s.events.reverse = [first, second] ++ later.reverse := by
    rw [hevents]
    simp
  have hbefore : ∀ l ∈ [first, second], l.event.declared? = none := by
    simp [hfirst, hsecond]
  rw [horder]
  split
  · rename_i hat
    rw [if_pos hat] at hdeclares
    obtain ⟨d, cur, l, after, hread, rfl, hl, -⟩ := hdeclares
    refine ⟨d, cur, hread, ?_⟩
    rw [List.reverse_append]
    exact reportedEncoding_append hbefore hl
  · rename_i hat
    rw [if_neg hat] at hdeclares
    rw [List.forall_mem_append]
    exact ⟨hbefore, fun l hl => hdeclares l (List.mem_reverse.mp hl)⟩

/-! ### What a source begins with -/

theorem Cursor.startsWith_eq_false {cur : Cursor} {c d : Char} {rest : List Char} {s : String}
    (hrest : cur.rest = c :: rest) (hs : s.toList.head? = some d) (hne : d ≠ c) :
    cur.startsWith s = false := by
  obtain ⟨u, hu⟩ : ∃ u, s.toList = d :: u := List.head?_eq_some_iff.mp hs
  rw [startsWith, hu, hrest, List.isPrefixOf_cons_cons]
  simp [hne]

namespace Scanner

open Stencil.Action (Yields)

section Refused

variable {s : Scan} {c : Char} {rest : List Char}

theorem miscs_idle (hrest : s.cursor.rest = c :: rest) (hless : '<' ≠ c)
    (hblank : isBlankChar c = false) : miscs s = (.ok (), s) := by
  have hrun : (c :: rest).takeWhile isBlankChar = [] :=
    List.takeWhile_cons_of_neg (by simp [hblank])
  have hread : read Reader.skipBlanks s = (.ok false, s) := by
    have hskip : Reader.skipBlanks s.cursor = .ok (false, s.cursor) := by
      change Except.ok (!(s.cursor.rest.takeWhile isBlankChar).isEmpty,
        s.cursor.advance (s.cursor.rest.takeWhile isBlankChar).length) = _
      rw [hrest, hrun]
      rfl
    rw [read, hskip]
  rw [miscs, Action.bind_ok (show cursor s = (.ok s.cursor, s) from rfl), hrest, misc,
    Action.bind_ok hread, Action.bind_ok (show cursor s = (.ok s.cursor, s) from rfl),
    if_neg, if_neg]
  · rfl
  · rw [Cursor.startsWith_eq_false hrest (d := '<') (by decide) hless]
    exact Bool.false_ne_true
  · rw [Cursor.startsWith_eq_false hrest (d := '<') (by decide) hless]
    exact Bool.false_ne_true

/-- What does not begin with markup or white space is no document. -/
theorem document_refuses {canceled : Bool} (hrest : s.cursor.rest = c :: rest) (hless : '<' ≠ c)
    (hblank : isBlankChar c = false) : Yields (document canceled) s fun _ _ => False := by
  have hstarts {s : Scan} (hrest : s.cursor.rest = c :: rest) (w : String)
      (hw : w.toList.head? = some '<') : s.cursor.startsWith w = false :=
    Cursor.startsWith_eq_false hrest hw hless
  refine .bind (.bind (.get (.pure (.bind (.modify (.bind (.modify ?_)))))))
  split
  · rename_i hat
    rw [atDeclaration, hstarts hrest _ (by decide)] at hat
    cases hat
  refine .bind fun _ s₁ hmiscs => ?_
  rw [miscs_idle (by exact hrest) hless hblank] at hmiscs
  cases hmiscs
  refine .bind (.bind (.get (.pure ?_)))
  split
  · rename_i hat
    rw [hstarts hrest _ (by decide)] at hat
    cases hat
  refine .bind (.bind (.get (.pure ?_)))
  split
  · exact .bind fun _ _ h => nomatch h
  · rename_i hat
    rw [hstarts hrest _ (by decide)] at hat
    exact absurd rfl hat

end Refused

end Scanner

/-- A document begins with markup or white space. -/
theorem head_of_scan {canceled : Bool} {cs : List Char} {ls : List Located} {c : Char}
    (h : scan canceled cs = (ls, .complete)) (hc : c ∈ cs.head?) : c = '<' ∨ isBlankChar c := by
  obtain ⟨s, hdocument, -⟩ := exists_document_of_scan h
  obtain ⟨rest, rfl⟩ := List.head?_eq_some_iff.mp (Option.mem_def.mp hc)
  by_contra hnot
  obtain ⟨hless, hblank⟩ := not_or.mp hnot
  exact Scanner.document_refuses rfl (Ne.symm hless) (by simpa using hblank) _ _ hdocument

/-! ### Names -/

/-- Only what begins like a declaration names an encoding. -/
theorem exists_of_declaredEncoding {t : Text} (h : declaredEncoding t ≠ []) :
    ∃ u, t = "<?xml" ++ u := by
  rw [declaredEncoding] at h
  cases hopening : Text.dropStart? "<?xml" t with
  | none =>
    rw [hopening] at h
    exact absurd rfl h
  | some u =>
    rw [Text.dropStart?] at hopening
    split at hopening
    · rename_i hprefix
      obtain ⟨v, hv⟩ := List.isPrefixOf_iff_prefix.mp hprefix
      exact ⟨v, hv.symm⟩
    · cases hopening

/-- What begins like a declaration does not begin with markup in UTF-16. -/
theorem head_of_decodeUtf16 (o : Encoding.ByteOrder) (u : Text) :
    ∃ c ∈ (Encoding.decodeUtf16 o ("<?xml" ++ u)).head?, c = '\u3c3f' ∨ c = '\u3f3c' := by
  have hbytes : ("<?xml" ++ u : Text) = 0x3c :: 0x3f :: ([0x78, 0x6d, 0x6c] ++ u) := rfl
  have hunit : o.unit 0x3c 0x3f = 0x3c3f ∨ o.unit 0x3c 0x3f = 0x3f3c := by
    cases o with
    | big => exact .inl rfl
    | little => exact .inr rfl
  have hsurrogate : Encoding.isSurrogate (o.unit 0x3c 0x3f) = false := by
    rcases hunit with h | h <;> rw [h] <;> decide
  rw [hbytes, Encoding.decodeUtf16.eq_def]
  simp only [hsurrogate, Bool.not_false, if_true]
  refine ⟨_, rfl, ?_⟩
  rcases hunit with h | h
  · exact .inl (congrArg Char.ofNat h)
  · exact .inr (congrArg Char.ofNat h)

/-- What the characters of a source have to do with its bytes. A source in UTF-16 does not begin
with ASCII. -/
theorem decodeSource_cases [Encoding.Decoders] {ε : Type} {t : Text} {cs : List Char}
    (h : (decodeSource t : Except (ReadError ε) (List Char)) = .ok cs)
    (hmark : Encoding.sniff t = ([], 0)) :
    t.Mirrors cs ∨ (∃ c ∈ cs.head?, c = '\u3c3f' ∨ c = '\u3f3c') ∨
      ∃ m, Encoding.find? (declaredEncoding t) = some (.multibyte m) := by
  have hsource : sourceEncoding t = (declaredEncoding t, t) := by
    rw [sourceEncoding, hmark]
    rfl
  rw [decodeSource, hsource] at h
  dsimp only at h
  split at h
  · cases h
  rename_i decoded hdecoded
  split at h
  · cases h
  rename_i ds hds
  cases h
  rw [Encoding.decode] at hdecoded
  have hchars {t : Text} (h : t.chars? = some cs) : t.Mirrors cs := by
    rw [Text.chars?] at h
    split at h
    · cases h
      exact Text.mirrors_chars t
    · cases h
  split at hdecoded
  · cases hdecoded
    exact .inl (hchars hds)
  · rename_i hutf8
    have hname : declaredEncoding t ≠ [] := by
      intro hnil
      rw [hnil] at hutf8
      exact hutf8 (by decide)
    obtain ⟨u, rfl⟩ := exists_of_declaredEncoding hname
    split at hdecoded
    · rename_i e he
      cases e with
      | utf8 =>
        cases hdecoded
        exact .inl (hchars hds)
      | utf16 =>
        have hbytes : Encoding.toUtf8 .utf16 ("<?xml" ++ u) =
            .ok (Text.ofChars (Encoding.decodeUtf16 .big ("<?xml" ++ u))) := rfl
        rw [hbytes] at hdecoded
        cases hdecoded
        rw [Text.chars?_ofChars] at hds
        cases hds
        exact .inr (.inl (head_of_decodeUtf16 .big u))
      | utf16In o =>
        cases hdecoded
        rw [Text.chars?_ofChars] at hds
        cases hds
        exact .inr (.inl (head_of_decodeUtf16 o u))
      | table c =>
        cases hdecoded
        rw [Text.chars?_ofChars] at hds
        cases hds
        exact .inl (Encoding.mirrors_table he _)
      | multibyte m => exact .inr (.inr ⟨m, he⟩)
    · cases hdecoded

theorem atDeclaration_of_mirrors {b : UInt8} {v : Text} {cs : List Char}
    (h : Text.Mirrors (("<?xml" : Text) ++ b :: v) cs) (hb : isBlankByte b) :
    Scanner.atDeclaration (Cursor.start cs) := by
  obtain ⟨c, hc, hascii, hblank⟩ : ∃ c, String.utf8EncodeChar c = [b] ∧ c.toNat < 128 ∧
      isBlankChar c := by
    simp only [isBlankByte, Bool.or_eq_true, decide_eq_true_eq] at hb
    rcases hb with ((rfl | rfl) | rfl) | rfl
    · exact ⟨' ', rfl, by decide, by decide⟩
    · exact ⟨'\t', rfl, by decide, by decide⟩
    · exact ⟨'\r', rfl, by decide, by decide⟩
    · exact ⟨'\n', rfl, by decide, by decide⟩
  have hopening : "<?xml".toList ++ [c] <+: cs := by
    refine (h _ ?_).mpr ⟨v, ?_⟩
    · rw [List.forall_mem_append, List.forall_mem_singleton]
      exact ⟨List.all_iff_forall_prop.mp (by decide), hascii⟩
    · rw [Text.ofChars_append, Text.ofChars_cons, hc, List.append_assoc]
      rfl
  obtain ⟨rest, rfl⟩ := hopening
  rw [Scanner.atDeclaration, Cursor.startsWith, Cursor.start]
  simp [hblank]

/-- **The encoding of a source and the encoding it declares.** An accepted source without a byte
order mark was decoded with the encoding that its declaration names, and with none if it has no
declaration or one that names none. There are two exceptions. The source begins like a declaration
but goes on without white space, so that it has no declaration. Or the name that the search has
found is that of a multi-byte encoding, and what the source begins with in ASCII is not what its
bytes begin with, as when an escape sequence of the encoding stands within the declaration. -/
theorem sourceEncoding_of_read_ok [Encoding.Decoders] {σ ε : Type}
    {receive : Located → σ → Except ε Unit × σ} {canceled : Bool} {t : Text} {s s' : σ}
    (h : read receive canceled t s = (.ok (), s')) (hmark : Encoding.sniff t = ([], 0)) : ∃ cs ls,
    (decodeSource t : Except (ReadError ε) (List Char)) = .ok cs ∧
      scan canceled cs = (ls, .complete) ∧
      ((sourceEncoding t).1 = reportedEncoding ls ∨
        ((∃ u, t = "<?xml" ++ u ∧ ∀ b ∈ u.head?, ¬ isBlankByte b) ∧
          ∀ l ∈ ls, l.event.declared? = none) ∨
        (∃ m, Encoding.find? (sourceEncoding t).1 = some (.multibyte m)) ∧ ¬ t.Mirrors cs) := by
  obtain ⟨cs, ls, hcs, hscan, -⟩ := exists_scan_of_read_ok h
  refine ⟨cs, ls, hcs, hscan, ?_⟩
  have hsource : (sourceEncoding t).1 = declaredEncoding t := by
    rw [sourceEncoding, hmark]
    rfl
  have hreported := reportedEncoding_scan hscan
  rw [hsource]
  by_cases hmirrors : t.Mirrors cs
  swap
  · obtain ⟨c, hc, rfl | rfl⟩ | hmultibyte := (decodeSource_cases hcs hmark).resolve_left hmirrors
    · exact absurd (head_of_scan hscan hc) (by decide)
    · exact absurd (head_of_scan hscan hc) (by decide)
    · exact .inr (.inr ⟨hmultibyte, hmirrors⟩)
  split at hreported
  · rename_i hat
    obtain ⟨d, cur, hread, hname⟩ := hreported
    have hclean : Clean (Cursor.start cs).rest := clean_of_scan hscan
    obtain ⟨decl, hrest, name, hdecl, hname'⟩ := Reader.declaration_takes _ _ _ hclean hread
    obtain ⟨rest, rfl⟩ := (hmirrors decl (ascii_declaration hdecl)).mp ⟨cur.rest, hrest.symm⟩
    exact .inl ((declaredEncoding_declaration hdecl rest).trans (hname'.symm.trans hname.symm))
  · rename_i hat
    by_cases hnil : declaredEncoding t = []
    · exact .inl (hnil.trans (reportedEncoding_eq_nil hreported).symm)
    obtain ⟨u, rfl⟩ := exists_of_declaredEncoding hnil
    refine .inr (.inl ⟨⟨u, rfl, fun b hb hblank => hat ?_⟩, hreported⟩)
    obtain ⟨v, rfl⟩ := List.head?_eq_some_iff.mp (Option.mem_def.mp hb)
    exact atDeclaration_of_mirrors hmirrors hblank

/-- A declaration that names a single byte encoding. -/
theorem sourceEncoding_of_read_ok_table :
    let t : Text := "<?xml version='1.0' encoding = \"KOI8-R\" ?><p/>"
    let receive : Located → Nat → Except Unit Unit × Nat := fun _ n => (.ok (), n + 1)
    (∃ s', read receive false t 0 = (.ok (), s')) ∧ Encoding.sniff t = ([], 0) ∧
    (sourceEncoding t).1 = ("KOI8-R" : Text) ∧ ∃ cs ls,
    (decodeSource t : Except (ReadError Unit) (List Char)) = .ok cs ∧
      scan false cs = (ls, .complete) ∧
      ((sourceEncoding t).1 = reportedEncoding ls ∨
        ((∃ u, t = "<?xml" ++ u ∧ ∀ b ∈ u.head?, ¬ isBlankByte b) ∧
          ∀ l ∈ ls, l.event.declared? = none) ∨
        (∃ m, Encoding.find? (sourceEncoding t).1 = some (.multibyte m)) ∧ ¬ t.Mirrors cs) := by
  intro t receive
  have hok : (read receive false t 0).1.toOption = some () := by decide
  obtain ⟨s', hread⟩ := exists_of_toOption hok
  have hmark : Encoding.sniff t = ([], 0) := by decide
  exact ⟨⟨s', hread⟩, hmark, by decide, sourceEncoding_of_read_ok hread hmark⟩

/-- Behind a tilde, HZ-GB-2312 passes over the end of a line. So the declaration of this source is
at its end sooner than the search believes, which finds the name in an element. -/
example :
    let t : Text := "<?xml version='1.0'?~\n><a encoding='hz-gb-2312'><?x ?></a>"
    let receive : Located → Nat → Except Unit Unit × Nat := fun _ n => (.ok (), n + 1)
    letI : Encoding.Decoders := ⟨fun _ u => .ok (u.filter fun b => b ≠ 0x7e ∧ b ≠ 0xa)⟩
    (read receive false t 0).1.toOption = some () ∧ (sourceEncoding t).1 = ("hz-gb-2312" : Text) ∧
      ∃ cs : List Char, (decodeSource t : Except (ReadError Unit) (List Char)).toOption = some cs ∧
        reportedEncoding (scan false cs).1 = [] := by
  exact ⟨by decide +kernel, by decide +kernel, _, rfl, by decide +kernel⟩

end Stencil.Markup
