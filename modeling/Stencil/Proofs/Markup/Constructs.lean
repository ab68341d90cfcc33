import Mathlib.Data.List.Induction
import Stencil.Proofs.Markup.Values

/-!
# Reading tags, comments, instructions, CDATA sections and character data

What the readers of the larger constructs take, as relations of the grammar.

A tag, a comment, an instruction and a CDATA section end by themselves. Comments and sections end at
the first terminator; the grammar excludes the terminator from the text instead, which comes to the
same for a terminator that does not overlap itself (`Reader.until_iff_without`), and comments have a
production of their own (`Reader.until_hyphens_iff`).

Character data goes up to the next delimiter or the end of the input. It is read in chunks, and the
end of a CDATA section is looked for beyond the end of a chunk, but never beyond the end of the run
(`Reader.runBefore_iff_characterData`).

## Main results

* `Reader.startTag_reads`, `Reader.endTag_reads`
* `Reader.comment_reads`, `Reader.instruction_reads`, `Reader.cdataSection_reads`
* `Reader.characterRun_reads`
-/

namespace Stencil.Markup

namespace Grammar

variable {s t : List Char}

theorem Blanks.exists_cons (hs : Blanks s) : ∃ c s', s = c :: s' ∧ isBlankChar c := by
  obtain ⟨c, s', rfl⟩ := List.exists_cons_of_ne_nil hs.1
  exact ⟨c, s', rfl, hs.2 c List.mem_cons_self⟩

theorem Attribute.exists_cons {a : Attr} (h : Attribute t a) :
    ∃ c u, t = c :: u ∧ isNameStart c := by
  obtain ⟨n, s, s', v, ⟨⟨c, cs, rfl, hc, -⟩, -⟩, -, -, -, rfl⟩ := h
  exact ⟨c, _, rfl, hc⟩

theorem Without.of_suffix {term u : List Char} (hu : Without term u) (h : t <:+ u) :
    Without term t :=
  ⟨fun c hc => hu.1 c (h.mem hc), fun ht => hu.2 (ht.trans h.isInfix)⟩

end Grammar

open Grammar

namespace Reader

variable {α : Type} {bound : Nat} {p : Char → Bool} {c : Char} {s t rest : List Char}

/-! ### What stands behind names and white space -/

theorem ends_of_blanks (hs : Blanks s) : Ends isNameChar (s ++ rest) := by
  obtain ⟨c, s', rfl, hc⟩ := hs.exists_cons
  exact ends_delimiter (mem_delimiters_of_blank hc)

theorem Ends.blank_append (hs : Blank s) (h : Ends isNameChar rest) :
    Ends isNameChar (s ++ rest) := by
  cases s with
  | nil => exact h
  | cons d s => exact ends_delimiter (mem_delimiters_of_blank (hs d List.mem_cons_self))

theorem isBlankChar_eq_false_of_nameStart (hc : isNameStart c) : isBlankChar c = false := by
  by_contra h
  exact ne_of_isNameStart hc (mem_delimiters_of_blank (by simpa using h)) rfl

/-! ### Tags -/

/-- An attribute. -/
theorem attr_reads : (attr bound).Reads bound fun t a _ => Attribute t a := by
  refine Reads.congr (qname_reads.bind fun n => skipBlanks_reads.bind fun _ => demand_reads.bind
    fun _ => skipBlanks_reads.bind fun _ => attributeValue_reads.bind fun v => Reads.pure)
    fun t a rest => ?_
  constructor
  · rintro ⟨n, -, q, rfl, ⟨hn, -⟩, s, -, -, rfl, ⟨hs, -⟩, t₁, -, -, rfl, rfl, s', -, -, rfl,
      ⟨hs', -⟩, v, -, w, rfl, hv, rfl, rfl⟩
    exact ⟨n, s, s', v, hn, hs, hs', hv, by simp⟩
  · rintro ⟨n, s, s', v, hn, hs, hs', hv, rfl⟩
    obtain ⟨q, u, w, hq, -, rfl, -⟩ := id hv
    have hequals : Ends isNameChar (['='] ++ s' ++ ([q] ++ u ++ [q]) ++ rest) :=
      ends_delimiter (by simp [delimiters])
    have hquote : Ends isBlankChar ([q] ++ u ++ [q] ++ rest) :=
      ends_cons (by rcases hq with rfl | rfl <;> decide)
    refine ⟨n, s ++ ['='] ++ s' ++ ([q] ++ u ++ [q]), a.name, by simp, ⟨hn, ?_⟩,
      s, ['='] ++ s' ++ ([q] ++ u ++ [q]), _, by simp, ⟨hs, ends_cons (by decide), rfl⟩,
      ['='], s' ++ ([q] ++ u ++ [q]), (), by simp, rfl,
      s', [q] ++ u ++ [q], _, rfl, ⟨hs', hquote, rfl⟩,
      [q] ++ u ++ [q], [], a.value, by simp, hv, rfl, rfl⟩
    have := hequals.blank_append hs
    simpa using this

/-- The end of a start tag, and whether it closes the element. -/
def TagClose (t : List Char) (selfClosing : Bool) : Prop :=
  t = ['/', '>'] ∧ selfClosing = true ∨ t = ['>'] ∧ selfClosing = false

/-- The attributes and the end of a start tag, when its first attributes are known. -/
def TagEnd (attrs : List Attr) (t : List Char) (r : List Attr × Bool) (_ : List Char) : Prop :=
  ∃ u s close as, Attributes u as ∧ Blank s ∧ TagClose close r.2 ∧ t = u ++ s ++ close ∧
    r.1 = attrs.reverse ++ as

/-- One more attribute or the end of a tag, behind white space if `blank` is set. -/
theorem attributesRound_reads {n : Nat} {attrs : List Attr} {blank : Bool}
    (hbound : blank = true → bound ≤ n)
    (ih : ∀ attrs, (attributes n attrs).Reads n (TagEnd attrs)) : (do
      if ← accept "/>" then return (attrs.reverse, true)
      if ← accept ">" then return (attrs.reverse, false)
      if !blank then fail .spaceRequired
      let a ← attr n
      attributes n (a :: attrs) : Reader (List Attr × Bool)).Reads bound fun t r rest =>
        TagClose t r.2 ∧ r.1 = attrs.reverse ∨
          blank = true ∧ ∃ u v a, Attribute u a ∧ TagEnd (a :: attrs) v r rest ∧ t = u ++ v := by
  refine Reads.congr (accept_reads.bind fun b => Reads.ite (fun _ => Reads.pure) fun _ =>
    accept_reads.bind fun b => Reads.ite (fun _ => Reads.pure) fun _ => Reads.guard fun hblank =>
    (attr_reads.mono (hbound (by simpa using hblank))).bind fun a =>
    (ih (a :: attrs)).mono (hbound (by simpa using hblank))) fun t r rest => ?_
  constructor
  · rintro ⟨t₁, t₂, b, rfl, ⟨rfl, rfl⟩ | ⟨rfl, rfl, -⟩, ⟨hb, rfl, rfl⟩ | ⟨hb, h⟩⟩
    · exact .inl ⟨.inl ⟨rfl, rfl⟩, rfl⟩
    · exact absurd rfl hb
    · cases hb
    · obtain ⟨t₁, t₂, b, rfl, ⟨rfl, rfl⟩ | ⟨rfl, rfl, -⟩, ⟨hb, rfl, rfl⟩ | ⟨hb, hblank, h⟩⟩ := h
      · exact .inl ⟨.inr ⟨rfl, rfl⟩, rfl⟩
      · exact absurd rfl hb
      · cases hb
      · obtain ⟨u, v, a, rfl, hu, hv⟩ := h
        exact .inr ⟨by simpa using hblank, u, v, a, hu, hv, rfl⟩
  · rintro (⟨⟨rfl, hclosing⟩ | ⟨rfl, hclosing⟩, hattrs⟩ | ⟨rfl, u, v, a, hu, hv, rfl⟩)
    · exact ⟨['/', '>'], [], true, rfl, .inl ⟨rfl, rfl⟩, .inl ⟨rfl, rfl, Prod.ext hattrs hclosing⟩⟩
    · refine ⟨[], ['>'], false, rfl, .inr ⟨rfl, rfl, by simp⟩, .inr ⟨Bool.false_ne_true, ?_⟩⟩
      exact ⟨['>'], [], true, rfl, .inl ⟨rfl, rfl⟩, .inl ⟨rfl, rfl, Prod.ext hattrs hclosing⟩⟩
    · obtain ⟨c, u', rfl, hc⟩ := hu.exists_cons
      have hslash : '/' ≠ c := ne_of_isNameStart hc (by simp [delimiters])
      have hgreater : '>' ≠ c := ne_of_isNameStart hc (by simp [delimiters])
      refine ⟨[], _, false, rfl, .inr ⟨rfl, rfl, ?_⟩, .inr ⟨Bool.false_ne_true, ?_⟩⟩
      · simp [hslash]
      refine ⟨[], _, false, rfl, .inr ⟨rfl, rfl, ?_⟩, .inr ⟨Bool.false_ne_true, by simp, ?_⟩⟩
      · simp [hgreater]
      · exact ⟨_, v, a, rfl, hu, hv⟩

/-- The attributes and the end of a start tag. -/
theorem attributes_reads (n : Nat) (attrs : List Attr) :
    (attributes n attrs).Reads n (TagEnd attrs) := by
  induction n generalizing attrs with
  | zero =>
    intro cur hclean hlen
    refine ReadsAt.fail.congr fun t r rest ht => iff_of_false id ?_
    rintro ⟨u, s, close, as, -, -, hclose, rfl, -⟩
    rw [List.length_eq_zero_iff.mp (Nat.le_zero.mp hlen)] at ht
    rcases hclose with ⟨rfl, -⟩ | ⟨rfl, -⟩ <;> simp at ht
  | succ n ih =>
    intro cur hclean hlen
    have hblanks := skipBlanks_reads cur hclean hlen
    refine ReadsAt.congr (hblanks.bind (Q := fun blank t r rest => TagClose t r.2 ∧
      r.1 = attrs.reverse ∨ blank = true ∧ ∃ u v a, Attribute u a ∧ TagEnd (a :: attrs) v r rest ∧
        t = u ++ v) fun blank cur' hr => ?_) fun t r rest ht => ?_
    · obtain ⟨s, hs, -, -, hblank⟩ := hblanks.rest hr
      have hlen' : blank = true → cur'.rest.length ≤ n := by
        rintro rfl
        have hne : s ≠ [] := by simpa using hblank
        have hpos := List.length_pos_iff.mpr hne
        rw [hs, List.length_append] at hlen
        omega
      have hclean' : Clean cur'.rest := (Clean.append.mp (hs ▸ hclean)).2
      refine ReadsAt.cursor ?_
      dsimp only
      split
      · rename_i hdone
        refine ReadsAt.fail_bind.congr fun t r rest ht => iff_of_false id ?_
        rw [List.isEmpty_iff.mp hdone] at ht
        rintro (⟨⟨rfl, -⟩ | ⟨rfl, -⟩, -⟩ | ⟨-, u, v, a, hu, -, rfl⟩)
        · cases ht
        · cases ht
        · obtain ⟨c, u', rfl, -⟩ := hu.exists_cons
          cases ht
      · exact attributesRound_reads hlen' ih cur' hclean' (Nat.le_refl _)
    · constructor
      · rintro ⟨s, t', b, rfl, ⟨hs, -, hb⟩, ⟨hclose, hattrs⟩ | ⟨rfl, u, v, a, hu, hv, rfl⟩⟩
        · exact ⟨[], s, t', [], .nil, hs, hclose, rfl, by rw [hattrs, List.append_nil]⟩
        · obtain ⟨u', s', close, as, hu', hs', hclose, rfl, hattrs⟩ := hv
          refine ⟨s ++ u ++ u', s', close, a :: as, .cons ⟨by simpa using hb, hs⟩ hu hu', hs',
            hclose, by simp, ?_⟩
          rw [hattrs]
          simp
      · rintro ⟨u, s, close, as, hu, hs, hclose, rfl, hattrs⟩
        cases hu with
        | nil =>
          refine ⟨s, close, !s.isEmpty, rfl, ⟨hs, ?_, rfl⟩, .inl ⟨hclose, by simpa using hattrs⟩⟩
          rcases hclose with ⟨rfl, -⟩ | ⟨rfl, -⟩ <;> exact ends_cons (by decide)
        | @cons s' u' v a as' hs' hu' hv =>
          refine ⟨s', u' ++ (v ++ s ++ close), true, by simp, ⟨hs'.2, ?_, ?_⟩, .inr ⟨rfl, ?_⟩⟩
          · obtain ⟨c, u'', rfl, hc⟩ := hu'.exists_cons
            exact ends_cons (isBlankChar_eq_false_of_nameStart hc)
          · simpa using hs'.1
          · exact ⟨u', v ++ s ++ close, a, hu', ⟨v, s, close, as', hv, hs, hclose, rfl,
              by simpa using hattrs⟩, rfl⟩

theorem Ends.attributes_append {u : List Char} {as : List Attr} (hu : Attributes u as)
    (h : Ends isNameChar rest) : Ends isNameChar (u ++ rest) := by
  cases hu with
  | nil => exact h
  | cons hs =>
    rw [List.append_assoc, List.append_assoc]
    exact ends_of_blanks hs

theorem startTag_or_emptyTag_iff {tag : Tag} : (∃ n, StartTag t n tag ∨ EmptyTag t n tag) ↔
    ∃ n close as s, QualifiedName n tag.name ∧ Attributes as tag.attrs ∧ Blank s ∧
      TagClose close tag.selfClosing ∧ t = ['<'] ++ n ++ as ++ s ++ close := by
  constructor
  · rintro ⟨n, ⟨as, s, hn, has, hs, hclosing, rfl⟩ | ⟨as, s, hn, has, hs, hclosing, rfl⟩⟩
    · exact ⟨n, _, as, s, hn, has, hs, .inr ⟨rfl, hclosing⟩, rfl⟩
    · exact ⟨n, _, as, s, hn, has, hs, .inl ⟨rfl, hclosing⟩, rfl⟩
  · rintro ⟨n, close, as, s, hn, has, hs, ⟨rfl, hclosing⟩ | ⟨rfl, hclosing⟩, rfl⟩
    · exact ⟨n, .inr ⟨as, s, hn, has, hs, hclosing, rfl⟩⟩
    · exact ⟨n, .inl ⟨as, s, hn, has, hs, hclosing, rfl⟩⟩

/-- A start tag, or the tag of an empty element. -/
theorem startTag_reads : (startTag bound).Reads bound fun t tag _ =>
    ∃ n, StartTag t n tag ∨ EmptyTag t n tag := by
  refine Reads.congr (demand_reads.bind fun _ => qname_reads.bind fun n =>
    ((attributes_reads (bound + 1) []).mono (Nat.le_succ bound)).bind fun r => Reads.pure)
    fun t tag rest => ?_
  rw [startTag_or_emptyTag_iff]
  constructor
  · rintro ⟨-, -, -, rfl, rfl, n, -, q, rfl, ⟨hn, -⟩, -, -, ⟨attrs, closing⟩, rfl,
      ⟨u, s, close, as, hu, hs, hclose, rfl, hattrs⟩, rfl, rfl⟩
    obtain rfl : attrs = as := hattrs
    exact ⟨n, close, u, s, hn, hu, hs, hclose, by simp⟩
  · rintro ⟨n, close, u, s, hn, hu, hs, hclose, rfl⟩
    have hend : Ends isNameChar (close ++ rest) := by
      rcases hclose with ⟨rfl, -⟩ | ⟨rfl, -⟩ <;> exact ends_delimiter (by simp [delimiters])
    refine ⟨['<'], n ++ (u ++ s ++ close), (), by simp, rfl, n, u ++ s ++ close, tag.name, rfl,
      ⟨hn, ?_⟩, u ++ s ++ close, [], (tag.attrs, tag.selfClosing), by simp,
      ⟨u, s, close, tag.attrs, hu, hs, hclose, rfl, rfl⟩, rfl, rfl⟩
    rw [List.append_assoc, List.append_assoc]
    exact (hend.blank_append hs).attributes_append hu

theorem full_eq_of_splits {n : List Char} {q : QName} (h : Splits n q) :
    q.full = Text.ofChars n := by
  rcases h with ⟨-, rfl⟩ | ⟨p, l, rfl, hp, -, -, -, rfl⟩
  · rfl
  · rw [QName.full, if_neg (by rwa [Text.ofChars_eq_nil_iff]), Text.ofChars_append,
      Text.ofChars_cons]
    exact List.append_assoc _ _ _

/-- The end tag of the element with the given name. -/
theorem endTag_reads {opened : Text} : (endTag opened).Reads bound fun t tag _ =>
    ∃ n, EndTag t n tag ∧ Text.ofChars n = opened := by
  refine Reads.congr (demand_reads.bind fun _ => qname_reads.bind fun q => Reads.guard fun _ =>
    skipBlanks_reads.bind fun _ => demand_reads.bind fun _ => Reads.pure) fun t tag rest => ?_
  constructor
  · rintro ⟨-, -, -, rfl, rfl, n, -, q, rfl, ⟨hn, -⟩, hfull, s, -, -, rfl, ⟨hs, -⟩, -, -, -, rfl,
      rfl, rfl, rfl⟩
    refine ⟨n, ⟨s, hn, hs, rfl, rfl, by simp⟩, ?_⟩
    rw [← full_eq_of_splits hn.2]
    simpa using hfull
  · rintro ⟨n, ⟨s, hn, hs, hattrs, hclosing, rfl⟩, rfl⟩
    refine ⟨['<', '/'], n ++ s ++ ['>'], (), by simp, rfl, n, s ++ ['>'], tag.name, by simp,
      ⟨hn, ?_⟩, by simpa using full_eq_of_splits hn.2, s, ['>'], _, rfl,
      ⟨hs, ends_cons (by decide), rfl⟩, ['>'], [], (), rfl, rfl, rfl, ?_⟩
    · rw [List.append_assoc]
      exact (ends_delimiter (by simp [delimiters])).blank_append hs
    · cases tag
      simp_all

/-! ### Comments, instructions and CDATA sections -/

theorem until_hyphens_iff : Until ['-', '-'] t ↔ CommentText t := by
  constructor
  · intro h
    -- a hyphen is taken together with the character behind it
    induction t using List.twoStepInduction with
    | nil => exact .nil
    | singleton c =>
      refine .char h.1 (fun hc => h.2.1 ?_) .nil
      rw [hc]
      exact ⟨['-'], rfl⟩
    | cons_cons c d t ih ih' =>
      by_cases hc : c = '-'
      · subst hc
        have hd : d ≠ '-' := by
          rintro rfl
          exact h.2.1 ⟨t ++ ['-', '-'], rfl⟩
        exact .hyphen h.2.2.1 hd (ih h.2.2.2.2)
      · exact .char h.1 hc (ih' d h.2.2)
  · intro h
    induction h with
    | nil => trivial
    | char hlegal hc _ ih => exact ⟨hlegal, by simp [hc.symm], ih⟩
    | hyphen hlegal hc _ ih =>
      exact ⟨by decide, by simp [hc.symm], hlegal, by simp [hc.symm], ih⟩

/-- A terminator that does not overlap itself cannot begin inside the text before it. -/
theorem until_iff_without {term : List Char} (hne : term ≠ [])
    (hterm : ∀ v, v ≠ [] → v.length < term.length → ¬ term <+: v ++ term) :
    Until term t ↔ Without term t := by
  induction t with
  | nil => exact iff_of_true trivial ⟨by simp, fun h => hne (List.infix_nil.mp h)⟩
  | cons c t ih =>
    have hstart : term <+: c :: t ++ term ↔ term <+: c :: t := by
      constructor
      · intro h
        rcases Nat.lt_or_ge (c :: t).length term.length with hlt | hge
        · exact absurd h (hterm _ (List.cons_ne_nil c t) hlt)
        · exact List.prefix_of_prefix_length_le h (List.prefix_append _ _) hge
      · exact fun h => h.trans (List.prefix_append _ _)
    rw [Until, ih, hstart, Without, Without, List.infix_cons_iff, List.forall_mem_cons]
    tauto

theorem until_question_iff : Until ['?', '>'] t ↔ Without ['?', '>'] t := by
  refine until_iff_without (by simp) fun v hne hlt => ?_
  match v, hne, hlt with
  | [c], _, _ => simp

theorem until_brackets_iff : Until [']', ']', '>'] t ↔ Without [']', ']', '>'] t := by
  refine until_iff_without (by simp) fun v hne hlt => ?_
  match v, hne, hlt with
  | [c], _, _ => simp
  | [c, d], _, _ => simp

/-- A value that has no line feed is a value without line ends. -/
theorem unifyLineEnds_eq_of_not_mem {cs : List Char} (h : '\n' ∉ unifyLineEnds cs) :
    unifyLineEnds cs = cs := by
  fun_induction unifyLineEnds cs with
  | case1 => rfl
  | case2 cs ih => exact absurd List.mem_cons_self h
  | case3 cs _ ih => exact absurd List.mem_cons_self h
  | case4 c cs _ _ ih => rw [ih fun hmem => h (List.mem_cons_of_mem c hmem)]

/-- A text up to its terminator, and what stands behind that. -/
theorem scanTo_bind_reads {term : String} {fault : Fault} {k : Text → Reader α}
    {Q : Text → List Char → α → List Char → Prop} (hterm : term.toList ≠ [])
    (hk : ∀ text, (k text).Reads bound (Q text)) : (do
      match ← scanTo term with
      | none => fail fault
      | some text => k text : Reader α).Reads bound (Then (fun t text _ => ∃ u,
        t = u ++ term.toList ∧ Until term.toList u ∧ text = Text.ofChars (unifyLineEnds u)) Q) := by
  refine Reads.congr ((scanTo_reads hterm).bind
    (Q := fun o t a rest => ∃ text, o = some text ∧ Q text t a rest) fun o => ?_) fun t a rest => ?_
  · cases o with
    | none => exact Reads.fail.congr fun t a rest => by simp
    | some text => exact (hk text).congr fun t a rest => by simp
  · constructor
    · rintro ⟨t₁, t₂, o, rfl, ⟨u, rfl, hu, rfl⟩ | ⟨rfl, -, -⟩, text, ho, hQ⟩
      · exact ⟨_, t₂, text, rfl, ⟨u, rfl, hu, (Option.some.inj ho).symm⟩, hQ⟩
      · cases ho
    · rintro ⟨t₁, t₂, text, rfl, ⟨u, rfl, hu, rfl⟩, hQ⟩
      exact ⟨_, t₂, _, rfl, .inl ⟨u, rfl, hu, rfl⟩, _, rfl, hQ⟩

/-- A comment. -/
theorem comment_reads : comment.Reads bound fun t text _ => Comment t (.comment text) := by
  refine Reads.congr (demand_reads.bind fun _ => scanTo_bind_reads (by simp) fun text =>
    demand_reads.bind fun _ => Reads.pure) fun t text rest => ?_
  constructor
  · rintro ⟨-, -, -, rfl, rfl, -, -, -, rfl, ⟨u, rfl, hu, rfl⟩, -, -, -, rfl, rfl, rfl, rfl⟩
    exact ⟨u, until_hyphens_iff.mp hu, by simp, rfl⟩
  · rintro ⟨u, hu, rfl, hevent⟩
    exact ⟨['<', '!', '-', '-'], u ++ ['-', '-'] ++ ['>'], (), by simp, rfl, u ++ ['-', '-'], ['>'],
      _, rfl, ⟨u, rfl, until_hyphens_iff.mpr hu, rfl⟩, ['>'], [], (), rfl, rfl, rfl,
      Event.comment.inj hevent⟩

/-- A CDATA section. -/
theorem cdataSection_reads : cdataSection.Reads bound fun t text _ =>
    CdataSection t (.cdata text) := by
  refine Reads.congr (demand_reads.bind fun _ => scanTo_bind_reads (by simp) fun text => Reads.pure)
    fun t text rest => ?_
  constructor
  · rintro ⟨-, -, -, rfl, rfl, -, -, -, rfl, ⟨u, rfl, hu, rfl⟩, rfl, rfl⟩
    exact ⟨u, until_brackets_iff.mp hu, by simp, rfl⟩
  · rintro ⟨u, hu, rfl, hevent⟩
    exact ⟨['<', '!', '[', 'C', 'D', 'A', 'T', 'A', '['], u ++ [']', ']', '>'], (), by simp, rfl,
      u ++ [']', ']', '>'], [], _, by simp, ⟨u, rfl, until_brackets_iff.mpr hu, rfl⟩, rfl,
      Event.cdata.inj hevent⟩

theorem Ends.dropWhile_eq {u : List Char} (h : Ends p (u ++ rest)) : u.dropWhile p = u := by
  cases u with
  | nil => rfl
  | cons c u => rw [List.dropWhile_cons_of_neg (by rw [h c rfl]; exact Bool.false_ne_true)]

theorem Ends.dropWhile_append {u : List Char} (h : Ends p rest) :
    Ends p (u.dropWhile p ++ rest) := by
  cases hu : u.dropWhile p with
  | nil => exact h
  | cons c v =>
    refine ends_cons (ends_dropWhile (l := u) c ?_)
    rw [hu]
    rfl

/-- A processing instruction. -/
theorem instruction_reads : instruction.Reads bound fun t p _ =>
    Instruction t (.instruction p.1 p.2) := by
  refine Reads.congr (demand_reads.bind fun _ => name_reads.bind fun n => Reads.guard fun _ =>
    accept_reads.bind fun b => Reads.ite (fun _ => Reads.pure) fun _ => skipBlanks_reads.bind
    fun b => Reads.require fun _ => scanTo_bind_reads (by simp) fun data => Reads.pure)
      fun t p rest => ?_
  constructor
  · rintro ⟨-, -, -, rfl, rfl, n, -, n', rfl, ⟨rfl, hn, -⟩, hxml, t₁, t₂, b, rfl, haccept, h⟩
    refine ⟨_, hn, hxml, ?_⟩
    rcases haccept with ⟨rfl, rfl⟩ | ⟨rfl, rfl, -⟩ <;> rcases h with ⟨hb, h⟩ | ⟨hb, h⟩
    · obtain ⟨rfl, rfl⟩ := h
      exact .inl ⟨by simp, rfl⟩
    · exact absurd rfl hb
    · cases hb
    · obtain ⟨s, -, -, rfl, ⟨hs, hends, rfl⟩, hne, -, -, -, rfl, ⟨u, rfl, hu, rfl⟩, rfl, rfl⟩ := h
      refine .inr ⟨s, u, ⟨by simpa using hne, hs⟩, until_question_iff.mp hu, by simp, ?_⟩
      rw [List.append_nil, List.append_assoc] at hends
      rw [hends.dropWhile_eq]
  · rintro ⟨n, hn, hxml, ⟨rfl, hevent⟩ | ⟨s, u, hs, hu, rfl, hevent⟩⟩
    · obtain ⟨htarget, hdata⟩ := Event.instruction.inj hevent
      exact ⟨['<', '?'], n ++ ['?', '>'], (), by simp, rfl, n, ['?', '>'], n, rfl,
        ⟨rfl, hn, ends_delimiter (by simp [delimiters])⟩, hxml, ['?', '>'], [],
        true, rfl, .inl ⟨rfl, rfl⟩,
        .inl ⟨rfl, rfl, Prod.ext htarget hdata⟩⟩
    · obtain ⟨htarget, hdata⟩ := Event.instruction.inj hevent
      -- the reader takes the white space that the data begins with, too
      have hblanks : Blank (s ++ u.takeWhile isBlankChar) := by
        refine List.forall_mem_append.mpr ⟨hs.2, fun c hc => ?_⟩
        exact List.all_eq_true.mp List.all_takeWhile c hc
      have hdata' : Without ['?', '>'] (u.dropWhile isBlankChar) :=
        hu.of_suffix (List.dropWhile_suffix _)
      have hname : Ends isNameChar (s ++ (u ++ ['?', '>'] ++ rest)) := ends_of_blanks hs
      have haccept : ¬ ['?', '>'] <+: s ++ (u ++ ['?', '>'] ++ rest) := by
        obtain ⟨c, s, rfl, hc⟩ := hs.exists_cons
        have hne : '?' ≠ c := by
          rintro rfl
          exact absurd hc (by decide)
        simp [hne]
      refine ⟨['<', '?'], n ++ (s ++ (u ++ ['?', '>'])), (), by simp, rfl,
        n, s ++ (u ++ ['?', '>']), n, rfl, ⟨rfl, hn, by simpa using hname⟩, hxml,
        [], s ++ (u ++ ['?', '>']), false, rfl, .inr ⟨rfl, rfl, by simpa using haccept⟩,
        .inr ⟨Bool.false_ne_true, ?_⟩⟩
      refine ⟨s ++ u.takeWhile isBlankChar, u.dropWhile isBlankChar ++ ['?', '>'], true, ?_,
        ⟨hblanks, ?_, ?_⟩, rfl, _, [], _, (List.append_nil _).symm,
        ⟨_, rfl, until_question_iff.mpr hdata', rfl⟩, rfl, Prod.ext htarget hdata⟩
      · rw [List.append_assoc, ← List.append_assoc (u.takeWhile isBlankChar),
          List.takeWhile_append_dropWhile]
      · rw [List.append_assoc]
        exact (ends_cons (by decide)).dropWhile_append
      · simp [hs.1]

/-! ### Character data -/

/-- What follows ends a run of character data. -/
def RunStops (rest : List Char) : Prop := ∀ c ∈ rest.head?, c = '<' ∨ c = '&'

/-- A run of character data in front of the given rest. -/
def RunBefore (rest : List Char) : List Char → Prop
  | [] => True
  | c :: t => (c ≠ '<' ∧ c ≠ '&') ∧ ¬ [']', ']', '>'] <+: c :: t ++ rest ∧ isLegalChar c ∧
      RunBefore rest t

theorem runBefore_append {u : List Char} :
    RunBefore rest (t ++ u) ↔ RunBefore (u ++ rest) t ∧ RunBefore rest u := by
  induction t with
  | nil => exact (true_and _).symm ▸ Iff.rfl
  | cons c t ih =>
    rw [List.cons_append, RunBefore, RunBefore, ih, List.cons_append, List.cons_append,
      List.append_assoc]
    tauto

theorem prefix_append_iff_of_stops {term u : List Char} (hterm : ∀ c ∈ term, c ≠ '<' ∧ c ≠ '&')
    (hstop : RunStops rest) : term <+: u ++ rest ↔ term <+: u := by
  constructor
  · intro h
    rcases List.prefix_or_prefix_of_prefix h (List.prefix_append u rest) with h' | ⟨v, rfl⟩
    · exact h'
    · cases v with
      | nil => simp
      | cons c v =>
        obtain ⟨w, rfl⟩ := (List.prefix_append_right_inj u).mp h
        obtain ⟨hlt, hamp⟩ := hterm c (by simp)
        exact absurd (hstop c rfl) (not_or.mpr ⟨hlt, hamp⟩)
  · exact fun h => h.trans (List.prefix_append u rest)

/-- An end of a CDATA section does not reach beyond the end of a run. -/
theorem runBefore_iff_characterData (hstop : RunStops rest) :
    RunBefore rest t ↔ CharacterData t := by
  induction t with
  | nil => exact iff_of_true trivial ⟨by simp, by simp⟩
  | cons c t ih =>
    rw [RunBefore, ih, prefix_append_iff_of_stops (by simp) hstop, CharacterData, CharacterData,
      List.infix_cons_iff, List.forall_mem_cons]
    tauto

/-- The run that was found is not longer than any run that ends. -/
theorem RunBefore.exists_append {u v : List Char} (hu : RunBefore v u) (hstop : RunStops rest)
    (h : t ++ rest = u ++ v) : ∃ t', t = u ++ t' ∧ v = t' ++ rest := by
  rcases List.append_eq_append_iff.mp h with ⟨s, rfl, rfl⟩ | ⟨s, rfl, rfl⟩
  · cases s with
    | nil => exact ⟨[], by simp, by simp⟩
    | cons c s =>
      obtain ⟨hlt, hamp⟩ := (runBefore_append.mp hu).2.1
      exact absurd (hstop c rfl) (not_or.mpr ⟨hlt, hamp⟩)
  · exact ⟨s, rfl, rfl⟩

/-- What a scan for character data has found: a run, and how it may go on. -/
theorem dataRun_spec {n : Nat} {l run : List Char} {e : RunEnd} (h : dataRun n l = (run, e)) :
    ∃ v, l = run ++ v ∧ RunBefore v run ∧
      match e with
      | .full => run.length = n
      | .markup | .exhausted => RunStops v
      | .cdataEnd | .illegal _ => ∀ t rest, v = t ++ rest → RunStops rest → ¬ RunBefore rest t := by
  induction n generalizing l run e with
  | zero =>
    cases h
    exact ⟨l, rfl, trivial, rfl⟩
  | succ n ih =>
    cases l with
    | nil =>
      cases h
      exact ⟨[], rfl, trivial, fun c hc => nomatch hc⟩
    | cons c l =>
      rw [dataRun] at h
      split at h
      · rename_i hmarkup
        cases h
        refine ⟨c :: l, rfl, trivial, fun d hd => ?_⟩
        obtain rfl := Option.some.inj hd
        simpa using hmarkup
      rename_i hmarkup
      simp only [Bool.or_eq_true, decide_eq_true_eq] at hmarkup
      split at h
      · rename_i hend
        cases h
        refine ⟨c :: l, rfl, trivial, fun t rest heq hstop hrun => ?_⟩
        cases t with
        | nil => exact hmarkup (hstop c (by rw [← show c :: l = rest from heq]; rfl))
        | cons d t =>
          refine hrun.2.1 ?_
          rw [← heq]
          exact List.isPrefixOf_iff_prefix.mp hend
      rename_i hend
      split at h
      · rename_i hillegal
        cases h
        refine ⟨c :: l, rfl, trivial, fun t rest heq hstop hrun => ?_⟩
        cases t with
        | nil => exact hmarkup (hstop c (by rw [← show c :: l = rest from heq]; rfl))
        | cons d t =>
          obtain ⟨rfl, -⟩ := List.cons.inj heq
          simp [hrun.2.2.1] at hillegal
      · rename_i hlegal
        cases hmore : dataRun n l with
        | mk more e' =>
          rw [hmore] at h
          cases h
          obtain ⟨v, rfl, hrun, he⟩ := ih hmore
          refine ⟨v, rfl, ⟨not_or.mp hmarkup, ?_, by simpa using hlegal, hrun⟩, ?_⟩
          · exact fun h => hend (List.isPrefixOf_iff_prefix.mpr h)
          · cases e with
            | full => exact congrArg (· + 1) he
            | _ => exact he

/-- The run of character data in front of a rest that ends it. -/
def WholeRun (t run rest : List Char) : Prop := t = run ∧ RunBefore rest run ∧ RunStops rest

/-- The rest of a run whose first characters have been found. -/
theorem WholeRun.exists_append {u v run : List Char} (h : WholeRun t run rest) (hu : RunBefore v u)
    (heq : u ++ v = t ++ rest) : ∃ t', t = u ++ t' ∧ v = t' ++ rest ∧ WholeRun t' t' rest := by
  obtain ⟨rfl, hrun, hstop⟩ := h
  obtain ⟨t', rfl, hv⟩ := hu.exists_append hstop heq.symm
  exact ⟨t', rfl, hv, rfl, (runBefore_append.mp hrun).2, hstop⟩

theorem characterRun_reads_wholeRun {chunk : Nat} (hchunk : 0 < chunk) (n : Nat) :
    (characterRun chunk n).Reads n WholeRun := by
  induction n with
  | zero =>
    intro cur hclean hlen
    refine ReadsAt.pure.congr fun t run rest ht => ?_
    rw [List.length_eq_zero_iff.mp (Nat.le_zero.mp hlen)] at ht
    obtain ⟨rfl, rfl⟩ := List.append_eq_nil_iff.mp ht.symm
    constructor
    · rintro ⟨-, rfl⟩
      exact ⟨rfl, trivial, fun c hc => nomatch hc⟩
    · rintro ⟨rfl, -⟩
      exact ⟨rfl, rfl⟩
  | succ n ih =>
    intro cur hclean hlen
    refine ReadsAt.cursor ?_
    cases hscan : dataRun chunk cur.rest with
    | mk run e =>
      obtain ⟨v, hv, hrun, he⟩ := dataRun_spec hscan
      have hlast (hstop : RunStops v) :
          (advance run.length >>= fun _ => pure run).ReadsAt cur WholeRun := by
        refine ReadsAt.congr (advance_readsAt hclean hv Reads.pure) fun t r rest ht => ?_
        rw [hv] at ht
        constructor
        · rintro ⟨s, rfl, rfl, rfl⟩
          rw [List.append_nil] at ht ⊢
          obtain rfl := List.append_cancel_left ht
          exact ⟨rfl, hrun, hstop⟩
        · intro h
          obtain ⟨t', rfl, rfl, h'⟩ := h.exists_append hrun ht
          obtain ⟨s, hs, -⟩ := h'.2.1.exists_append hstop (List.nil_append _)
          obtain ⟨rfl, -⟩ := List.append_eq_nil_iff.mp hs.symm
          exact ⟨[], rfl, rfl, h.1 ▸ List.append_nil run⟩
      have hfail {fault : Fault}
          (hnone : ∀ t rest, v = t ++ rest → RunStops rest → ¬ RunBefore rest t) :
          (advance run.length >>= fun _ => (fail fault : Reader (List Char))).ReadsAt cur
            WholeRun := by
        refine ReadsAt.congr (advance_readsAt hclean hv Reads.fail) fun t r rest ht => ?_
        refine iff_of_false (fun h => h.elim fun _ h => h.2) fun h => ?_
        obtain ⟨t', -, hv', h'⟩ := h.exists_append hrun (hv.symm.trans ht)
        exact hnone t' rest hv' h'.2.2 h'.2.1
      dsimp only
      cases e with
      | full =>
        have hlen' : v.length ≤ n := by
          rw [hv, List.length_append, show run.length = chunk from he] at hlen
          omega
        refine ReadsAt.congr (advance_readsAt hclean hv ((ih.mono hlen').bind fun more =>
          Reads.pure)) fun t r rest ht => ?_
        rw [hv] at ht
        constructor
        · rintro ⟨-, rfl, t', -, more, rfl, ⟨rfl, hmore, hstop⟩, rfl, rfl⟩
          rw [List.append_nil, List.append_assoc] at ht
          obtain rfl := List.append_cancel_left ht
          exact ⟨by simp, runBefore_append.mpr ⟨hrun, hmore⟩, hstop⟩
        · intro h
          obtain ⟨t', rfl, rfl, h'⟩ := h.exists_append hrun ht
          exact ⟨t', rfl, t', [], t', (List.append_nil t').symm, h', rfl, h.1.symm⟩
      | markup => exact hlast he
      | exhausted => exact hlast he
      | cdataEnd => exact hfail he
      | illegal c => exact hfail he

/-- A run of character data, as far as it goes. -/
theorem characterRun_reads {chunk : Nat} (hchunk : 0 < chunk) (n : Nat) :
    (characterRun chunk n).Reads n fun t run rest =>
      t = run ∧ CharacterData run ∧ RunStops rest := by
  refine (characterRun_reads_wholeRun hchunk n).congr fun t run rest => and_congr_right fun _ =>
    and_congr_left fun hstop => runBefore_iff_characterData hstop

end Reader

end Stencil.Markup
