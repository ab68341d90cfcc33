import Stencil.Proofs.Markup.Acceptance
import Stencil.Proofs.Markup.Plain

/-!
# Reading what was written

Elements and character data are written as a document of the grammar, and the events of that
document leave the same elements and the same character data again, but for white space. References
do not come back as they were: a run of character data is written with a reference for every markup
character in it and read in as many pieces, which are put together again.

A run is followed character by character from its beginning. What stands in front of the next
reference is collected, because only there is it known where a piece of character data ends.

## Main definitions

* `Spelling` – a way to write characters with references
* `Spells` – a text of the grammar whose events leave certain elements and character data

## Main results

* `unifyLineEnds_append_cons` – line ends on both sides of a character do not meet
* `spells_content` – what is written spells what is read
* `Spells.exists_events` – the events of an element that was written
* `exists_events_print` – the same for what was read before
-/

namespace Stencil.Markup

open Grammar

variable {c : Char} {t u cs : List Char} {tag : Tag} {inner p : Plain} {es : List Event}

/-! ### Characters and their references -/

/-- Line ends on both sides of a character do not meet. -/
theorem unifyLineEnds_append_cons (hc : c ≠ '\r' ∧ c ≠ '\n') :
    unifyLineEnds (t ++ c :: u) = unifyLineEnds t ++ c :: unifyLineEnds u := by
  fun_induction unifyLineEnds t with
  | case1 => rw [List.nil_append, List.nil_append, unifyLineEnds] <;> simp [hc]
  | case2 t ih => simp [unifyLineEnds, ih]
  | case3 t hnext ih =>
    have hnext' : ∀ v, t ++ c :: u ≠ '\n' :: v := by
      intro v hv
      cases t with
      | nil => exact hc.2 (List.cons.inj hv).1
      | cons d t =>
        obtain ⟨rfl, -⟩ := List.cons.inj hv
        exact hnext t rfl
    rw [List.cons_append, unifyLineEnds, ih, List.cons_append]
    exact hnext'
  | case4 d t hd hd' ih =>
    rw [List.cons_append, unifyLineEnds, ih, List.cons_append]
    · exact fun _ h _ => hd' h
    · exact hd'

theorem not_end_of_not_blank (hc : isBlankChar c = false) : c ≠ '\r' ∧ c ≠ '\n' := by
  rw [isBlankChar] at hc
  simp only [Bool.or_eq_false_iff, decide_eq_false_iff_not] at hc
  exact ⟨hc.2, hc.1.2⟩

theorem flattenBlanks_append_cons (hc : isBlankChar c = false) :
    flattenBlanks (t ++ c :: u) = flattenBlanks t ++ c :: flattenBlanks u := by
  rw [flattenBlanks, unifyLineEnds_append_cons (not_end_of_not_blank hc),
    List.map_append, List.map_cons, hc]
  rfl

theorem ne_replacement_of_isLegalChar (h : isLegalChar c) : c ≠ Text.replacement := by
  rintro rfl
  revert h
  decide

/-- A way to write legal characters between delimiters. Each is written as a reference to it or as
itself, which `IsKept` allows for. A reader makes `run` of characters that are written as
themselves, and `whole` of everything. -/
structure Spelling (delimiters : List Char) (run : List Char → List Char) where
  /-- How a text is written. -/
  write : Text → Text
  /-- How a character is written. -/
  form : Char → List Char
  /-- Whether a character may be written as itself. -/
  IsKept : Char → Prop
  /-- What is read. -/
  whole : List Char → List Char
  write_ofChars (cs : List Char) : write (.ofChars cs) = .ofChars (cs.flatMap form)
  cases (c : Char) : isLegalChar c →
    (Reference (form c) c ∧ Clean (form c) ∧
      ∀ t u, (∀ d ∈ t, IsKept d) → whole (t ++ c :: u) = run t ++ c :: whole u) ∨
        form c = [c] ∧ c ∉ delimiters ∧ IsKept c
  whole_run (t : List Char) : (∀ d ∈ t, IsKept d) → whole t = run t

namespace Spelling

variable {delimiters : List Char} {run : List Char → List Char}

theorem clean (σ : Spelling delimiters run) (hcs : ∀ c ∈ cs, isLegalChar c) :
    Clean (cs.flatMap σ.form) := by
  intro hmem
  obtain ⟨c, hc, hmem⟩ := List.mem_flatMap.mp hmem
  rcases σ.cases c (hcs c hc) with ⟨-, hclean, -⟩ | ⟨heq, -⟩
  · exact hclean hmem
  · rw [heq, List.mem_singleton] at hmem
    exact ne_replacement_of_isLegalChar (hcs c hc) hmem.symm

/-- The delimiters of character data. -/
abbrev contentDelimiters : List Char := ['&', '<', '>']

/-- The delimiters of attribute values. -/
abbrev valueDelimiters : List Char := ['"', '&', '<']

theorem contentForm_cases (c : Char) :
    (Reference (Text.contentForm c) c ∧ isBlankChar c = false ∧ Clean (Text.contentForm c)) ∨
      Text.contentForm c = [c] ∧ c ∉ contentDelimiters := by
  rw [Text.contentForm]
  split
  · subst c
    exact .inl ⟨.entity (n := ['a', 'm', 'p']) (by decide), by decide, by decide⟩
  split
  · subst c
    exact .inl ⟨.entity (n := ['l', 't']) (by decide), by decide, by decide⟩
  split
  · subst c
    exact .inl ⟨.entity (n := ['g', 't']) (by decide), by decide, by decide⟩
  · rename_i h₁ h₂ h₃
    exact .inr ⟨rfl, by simp [h₁, h₂, h₃]⟩

/-- Character data with references for markup characters only. -/
def content : Spelling contentDelimiters unifyLineEnds where
  write := Text.escapeContent
  form := Text.contentForm
  IsKept _ := True
  whole := unifyLineEnds
  write_ofChars := Text.escapeContent_ofChars
  cases c _ := by
    rcases contentForm_cases c with ⟨href, hblank, hclean⟩ | ⟨hform, hc⟩
    · exact .inl ⟨href, hclean,
        fun _ _ _ => unifyLineEnds_append_cons (not_end_of_not_blank hblank)⟩
    · exact .inr ⟨hform, hc, trivial⟩
  whole_run _ _ := rfl

/-- Attribute values with references for markup characters only. -/
def value : Spelling valueDelimiters flattenBlanks where
  write := Text.escapeValue
  form := Text.valueForm
  IsKept _ := True
  whole := flattenBlanks
  write_ofChars := Text.escapeValue_ofChars
  cases c _ := by
    rw [Text.valueForm]
    split
    · subst c
      exact .inl ⟨.entity (n := ['q', 'u', 'o', 't']) (by decide), by decide,
        fun _ _ _ => flattenBlanks_append_cons (by decide)⟩
    · rename_i hquote
      rcases contentForm_cases c with ⟨href, hblank, hclean⟩ | ⟨hform, hc⟩
      · exact .inl ⟨href, hclean, fun _ _ _ => flattenBlanks_append_cons hblank⟩
      · refine .inr ⟨hform, ?_, trivial⟩
        simp only [List.mem_cons, List.not_mem_nil, or_false, not_or] at hc ⊢
        exact ⟨hquote, hc.1, hc.2.1⟩
  whole_run _ _ := rfl

theorem unifyLineEnds_eq_self (ht : ∀ c ∈ t, c ≠ '\r') : unifyLineEnds t = t := by
  fun_induction unifyLineEnds t with
  | case1 => rfl
  | case2 t _ => exact absurd rfl (List.forall_mem_cons.mp ht).1
  | case3 t _ _ => exact absurd rfl (List.forall_mem_cons.mp ht).1
  | case4 c t _ _ ih => rw [ih (List.forall_mem_cons.mp ht).2]

theorem flattenBlanks_eq_self (ht : ∀ c ∈ t, isBlankChar c → c = ' ') : flattenBlanks t = t := by
  have hreturn : ∀ c ∈ t, c ≠ '\r' := by
    rintro c hc rfl
    exact absurd (ht _ hc rfl) (by decide)
  rw [flattenBlanks, unifyLineEnds_eq_self hreturn]
  refine (List.map_congr_left fun c hc => ?_).trans (List.map_id t)
  split
  · rename_i hblank
    exact (ht c hc hblank).symm
  · rfl

theorem legalForm_of_isLegalChar (hc : isLegalChar c) : Text.legalForm c = [c] := by
  rw [isLegalChar, Bool.and_eq_true] at hc
  rw [Text.legalForm, if_pos hc.1]

theorem reference_of_digits (ds : List Char) (hne : ds ≠ []) (hdigits : ds.all Char.isDigit)
    (hc : isLegalChar c) (hcode : c.toNat = numeral 10 ds) :
    Reference (['&', '#'] ++ ds ++ [';']) c :=
  .decimal hne (List.all_eq_true.mp hdigits) hc hcode

theorem charactersForm_cases (hc : isLegalChar c) :
    (Reference (Text.charactersForm c) c ∧ Clean (Text.charactersForm c)) ∨
      Text.charactersForm c = [c] ∧ c ∉ contentDelimiters ∧ c ≠ '\r' := by
  rw [Text.charactersForm]
  split
  · subst c
    exact .inl ⟨.entity (n := ['a', 'm', 'p']) (by decide), by decide⟩
  split
  · subst c
    exact .inl ⟨.entity (n := ['l', 't']) (by decide), by decide⟩
  split
  · subst c
    exact .inl ⟨.entity (n := ['g', 't']) (by decide), by decide⟩
  split
  · subst c
    exact .inl ⟨reference_of_digits ['1', '3'] (by decide) (by decide) hc rfl, by decide⟩
  split
  · subst c
    exact .inl ⟨reference_of_digits ['1', '0'] (by decide) (by decide) hc rfl, by decide⟩
  · rename_i h₁ h₂ h₃ h₄ _
    exact .inr ⟨legalForm_of_isLegalChar hc, by simp [h₁, h₂, h₃], h₄⟩

theorem attributeForm_cases (hc : isLegalChar c) :
    (Reference (Text.attributeForm c) c ∧ Clean (Text.attributeForm c)) ∨
      Text.attributeForm c = [c] ∧ c ∉ valueDelimiters ∧ (isBlankChar c → c = ' ') := by
  rw [Text.attributeForm]
  split
  · subst c
    exact .inl ⟨reference_of_digits ['3', '4'] (by decide) (by decide) hc rfl, by decide⟩
  split
  · subst c
    exact .inl ⟨.entity (n := ['a', 'm', 'p']) (by decide), by decide⟩
  split
  · subst c
    exact .inl ⟨.entity (n := ['l', 't']) (by decide), by decide⟩
  split
  · subst c
    exact .inl ⟨.entity (n := ['g', 't']) (by decide), by decide⟩
  split
  · subst c
    exact .inl ⟨reference_of_digits ['1', '0'] (by decide) (by decide) hc rfl, by decide⟩
  split
  · subst c
    exact .inl ⟨reference_of_digits ['1', '3'] (by decide) (by decide) hc rfl, by decide⟩
  split
  · subst c
    exact .inl ⟨reference_of_digits ['9'] (by decide) (by decide) hc rfl, by decide⟩
  · rename_i h₁ h₂ h₃ _ h₅ h₆ h₇
    exact .inr ⟨legalForm_of_isLegalChar hc, by simp [h₁, h₂, h₃],
      by simp [isBlankChar, h₅, h₆, h₇]⟩

/-- Character data with references for everything that a reader would change. -/
def strictContent : Spelling contentDelimiters unifyLineEnds where
  write t := t.escapeCharacters true
  form := Text.charactersForm
  IsKept c := c ≠ '\r'
  whole := id
  write_ofChars := Text.escapeCharacters_ofChars
  cases c hc := by
    rcases charactersForm_cases hc with ⟨href, hclean⟩ | hkept
    · exact .inl ⟨href, hclean, fun t u ht => by rw [unifyLineEnds_eq_self ht, id, id]⟩
    · exact .inr hkept
  whole_run _ h := (unifyLineEnds_eq_self h).symm

/-- Attribute values with references for everything that a reader would change. -/
def strictValue : Spelling valueDelimiters flattenBlanks where
  write := Text.escapeAttribute
  form := Text.attributeForm
  IsKept c := isBlankChar c → c = ' '
  whole := id
  write_ofChars := Text.escapeAttribute_ofChars
  cases c hc := by
    rcases attributeForm_cases hc with ⟨href, hclean⟩ | hkept
    · exact .inl ⟨href, hclean, fun t u ht => by rw [flattenBlanks_eq_self ht, id, id]⟩
    · exact .inr hkept
  whole_run _ h := (flattenBlanks_eq_self h).symm

end Spelling

/-! ### Tags -/

section Tags

variable (σ : Spelling Spelling.valueDelimiters flattenBlanks)

/-- A value is written so that it is read as its way of writing says. -/
theorem valueText_flatMap_form (ht : ValueRun '"' t) (hkept : ∀ c ∈ t, σ.IsKept c)
    (hcs : ∀ c ∈ cs, isLegalChar c) :
    ValueText '"' (t ++ cs.flatMap σ.form) (σ.whole (t ++ cs)) := by
  induction cs generalizing t with
  | nil =>
    rw [List.flatMap_nil, List.append_nil, σ.whole_run t hkept]
    exact .run ht
  | cons c cs ih =>
    obtain ⟨hc, hcs⟩ := List.forall_mem_cons.mp hcs
    rw [List.flatMap_cons]
    rcases σ.cases c hc with ⟨href, -, hwhole⟩ | ⟨hform, hdelimiter, hc'⟩
    · have hrest := ih (t := []) (by simp [ValueRun]) (by simp) hcs
      rw [hwhole t cs hkept, ← List.append_assoc]
      exact .reference ht href hrest
    · simp only [List.mem_cons, List.not_mem_nil, or_false, not_or] at hdelimiter
      have hrun : ValueRun '"' (t ++ [c]) :=
        ValueRun.append.mpr ⟨ht, by simpa [ValueRun] using ⟨hc, hdelimiter.2.2, hdelimiter.2.1,
          hdelimiter.1⟩⟩
      have hrest := ih hrun (List.forall_mem_append.mpr ⟨hkept, by simpa using hc'⟩) hcs
      rw [hform]
      simpa using hrest

theorem Grammar.Name.clean {n : List Char} (h : Name n) : Clean n := by
  obtain ⟨c, ds, rfl, hc, hds, -⟩ := h
  intro hmem
  rcases List.mem_cons.mp hmem with heq | hmem
  · rw [← heq] at hc
    revert hc
    decide +kernel
  · have hmem := hds _ hmem
    revert hmem
    decide +kernel

/-- The attribute as it is read, given how its value was written. -/
def Attr.readAs (a : Attr) : Attr := { a with value := .ofChars (σ.whole a.value.chars) }

/-- The tag as it is read, given how its values were written. -/
def Tag.readAs (tag : Tag) : Tag := { tag with attrs := tag.attrs.map (Attr.readAs σ) }

/-- What is written strictly is read as it was. -/
theorem Tag.readAs_strictValue (h : tag.Written) : tag.readAs .strictValue = tag := by
  have hattr : ∀ a ∈ tag.attrs, a.readAs .strictValue = a := by
    intro a ha
    obtain ⟨cs, hcs, -⟩ := (h.attrs a ha).2
    rw [Attr.readAs, Spelling.strictValue]
    change { a with value := Text.ofChars a.value.chars } = a
    rw [hcs, Text.chars_ofChars, ← hcs]
  rw [Tag.readAs, List.map_congr_left hattr, List.map_id']

/-- An attribute is written as an attribute of the grammar. -/
theorem exists_attribute {a : Attr} (hname : a.name.Written) (hvalue : Legible a.value) :
    ∃ t, a.print σ.write = Text.ofChars (' ' :: t) ∧ Clean t ∧ Attribute t (a.readAs σ) := by
  obtain ⟨n, hn⟩ := hname
  obtain ⟨cs, hcs, hlegal⟩ := hvalue
  refine ⟨n ++ [] ++ ['='] ++ [] ++ (['"'] ++ cs.flatMap σ.form ++ ['"']), ?_, ?_, ?_⟩
  · rw [Attr.print, Reader.full_eq_of_splits hn.2, hcs, σ.write_ofChars]
    simp only [Text.ofChars_cons, Text.ofChars_append, Text.ofChars_nil, List.append_nil]
    simp only [List.append_assoc]
    rfl
  · simp only [Clean.append]
    exact ⟨⟨⟨⟨hn.1.clean, by decide⟩, by decide⟩, by decide⟩,
      ⟨by decide, σ.clean hlegal⟩, by decide⟩
  · have hv := valueText_flatMap_form σ (t := []) (by simp [ValueRun]) (by simp) hlegal
    refine ⟨n, [], [], _, hn, by simp [Blank], by simp [Blank],
      ⟨'"', _, _, .inl rfl, hv, rfl, ?_⟩, rfl⟩
    rw [Attr.readAs, hcs, Text.chars_ofChars]
    rfl

theorem exists_attributes {as : List Attr} (h : ∀ a ∈ as, a.name.Written ∧ Legible a.value) :
    ∃ t, as.flatMap (Attr.print σ.write) = Text.ofChars t ∧ Clean t ∧
      Attributes t (as.map (Attr.readAs σ)) := by
  induction as with
  | nil => exact ⟨[], rfl, by decide, .nil⟩
  | cons a as ih =>
    obtain ⟨⟨hname, hvalue⟩, hrest⟩ := List.forall_mem_cons.mp h
    obtain ⟨t, hprint, hclean, ht⟩ := exists_attribute σ hname hvalue
    obtain ⟨u, hprint', hclean', hu⟩ := ih hrest
    refine ⟨[' '] ++ t ++ u, ?_, ?_, .cons ⟨by simp, by simp [Blank, isBlankChar]⟩ ht hu⟩
    · rw [List.flatMap_cons, hprint, hprint', Text.ofChars_append, List.singleton_append]
    · exact Clean.append.mpr ⟨Clean.append.mpr ⟨by decide, hclean⟩, hclean'⟩

/-- A tag is written as a tag of the grammar. -/
theorem exists_openingTag (h : tag.Written) (blank close : List Char) {selfClosing : Bool}
    (hblank : Blank blank) (hclean : Clean (blank ++ close))
    (hself : tag.selfClosing = selfClosing) :
    ∃ t n, tag.print σ.write (Text.ofChars (blank ++ close)) = Text.ofChars t ∧ Clean t ∧
      QualifiedName n tag.name ∧ OpeningTag close selfClosing t n (tag.readAs σ) := by
  obtain ⟨n, hn⟩ := h.name
  obtain ⟨as, hprint, hcleanAs, has⟩ := exists_attributes σ h.attrs
  refine ⟨['<'] ++ n ++ as ++ blank ++ close, n, ?_, ?_, hn, as, blank, hn, has, hblank, hself, rfl⟩
  · rw [Tag.print, Reader.full_eq_of_splits hn.2, hprint]
    simp only [Text.ofChars_append, List.append_assoc]
    rfl
  · rw [List.append_assoc (_ ++ as)]
    simp only [Clean.append] at hclean ⊢
    exact ⟨⟨⟨by decide, hn.1.clean⟩, hcleanAs⟩, hclean⟩

end Tags

/-! ### Elements and character data -/

/-- The text is one of the grammar without marks of undecodable input, and its events, of which
there are none but for tags and character data, leave `p`. -/
def Spells (n : Nonterminal) (t : List Char) (p : Plain) : Prop :=
  Clean t ∧ ∃ es, Derives n t es ∧ (∀ e ∈ es, e.IsPlain) ∧
    ∀ ls : List Located, ls.map Located.event = es → ∃ f : Forest, f.events = ls ∧ f.plain = p

theorem Spells.nil : Spells .parts [] .nil := by
  refine ⟨by decide, [], .nil, by simp, fun ls hls => ?_⟩
  obtain rfl := List.map_eq_nil_iff.mp hls
  exact ⟨.nil, rfl, rfl⟩

theorem exists_of_content (h : Derives .content t es) : ∃ u v es', t = u ++ v ∧ CharacterData u ∧
    Derives .parts v es' ∧ es = characterEvents u ++ es' := by
  cases h with
  | content hu hv => exact ⟨_, _, _, rfl, hu, hv, rfl⟩

theorem isPlain_of_mem_characterEvents {e : Event} (h : e ∈ characterEvents t) : e.IsPlain := by
  rw [characterEvents] at h
  split at h
  · cases h
  · rw [List.mem_singleton.mp h]
    trivial

/-- What is left of character data and the events behind it. -/
theorem exists_characters {ls : List Located}
    (h : ls.map Located.event = characterEvents t ++ es) : ∃ ls', ls'.map Located.event = es ∧
      ∀ f : Forest, f.events = ls' → ∃ g : Forest, g.events = ls ∧
        g.plain = f.plain.prepend (Text.ofChars (unifyLineEnds t)) := by
  rw [characterEvents] at h
  split at h
  · rename_i hempty
    subst hempty
    exact ⟨ls, h, fun f hf => ⟨f, hf, Plain.prepend_nil.symm⟩⟩
  · rw [List.singleton_append] at h
    obtain ⟨l, ls, rfl, hl, hls⟩ := List.map_eq_cons_iff.mp h
    refine ⟨ls, hls, fun f hf => ?_⟩
    have hsingle : IsSingle l.event := by
      rw [hl]
      trivial
    exact ⟨.single l hsingle f, by rw [Forest.events, hf], by rw [Forest.plain, hl]⟩

/-- Without the delimiters of markup there is no end of a section. -/
theorem characterData_of (h : ∀ c ∈ t, isLegalChar c ∧ c ≠ '&' ∧ c ≠ '<' ∧ c ≠ '>') :
    CharacterData t := by
  refine ⟨fun c hc => ⟨(h c hc).1, (h c hc).2.2.1, (h c hc).2.1⟩, fun hend => ?_⟩
  exact (h '>' (hend.subset (by simp))).2.2.2 rfl

/-- Character data is written in front of parts of content. -/
theorem Spells.text (σ : Spelling Spelling.contentDelimiters unifyLineEnds) (h : Spells .parts u p)
    (hcs : ∀ c ∈ cs, isLegalChar c)
    (ht : ∀ c ∈ t, isLegalChar c ∧ c ≠ '&' ∧ c ≠ '<' ∧ c ≠ '>') (hkept : ∀ c ∈ t, σ.IsKept c) :
    Spells .content (t ++ cs.flatMap σ.form ++ u)
      (p.prepend (Text.ofChars (σ.whole (t ++ cs)))) := by
  obtain ⟨hclean, es, hu, hplain, htell⟩ := h
  have hclean' : Clean (t ++ cs.flatMap σ.form ++ u) := by
    refine Clean.append.mpr ⟨Clean.append.mpr ⟨?_, σ.clean hcs⟩, hclean⟩
    exact fun hmem => ne_replacement_of_isLegalChar (ht _ hmem).1 rfl
  refine ⟨hclean', ?_⟩
  clear hclean hclean'
  induction cs generalizing t with
  | nil =>
    rw [List.flatMap_nil, List.append_nil, σ.whole_run t hkept]
    refine ⟨_, .content (characterData_of ht) hu,
      List.forall_mem_append.mpr ⟨fun _ => isPlain_of_mem_characterEvents, hplain⟩,
      fun ls hls => ?_⟩
    obtain ⟨ls', hls', hmore⟩ := exists_characters hls
    obtain ⟨f, hf, hplain⟩ := htell ls' hls'
    obtain ⟨g, hg, hplain'⟩ := hmore f hf
    exact ⟨g, hg, by rw [hplain', hplain]⟩
  | cons c cs ih =>
    obtain ⟨hc, hcs⟩ := List.forall_mem_cons.mp hcs
    rw [List.flatMap_cons]
    rcases σ.cases c hc with ⟨href, -, hwhole⟩ | ⟨hform, hchar, hc'⟩
    · -- the reference ends what was collected, and what follows begins anew
      obtain ⟨es₁, hderives, hplain₁, htell₁⟩ := ih (t := []) hcs (by simp) (by simp)
      obtain ⟨t', u', es', heq, ht', hu', rfl⟩ := exists_of_content hderives
      rw [List.nil_append] at heq
      have hparts := Derives.cons (.reference href) ht' hu'
      have hcontent := Derives.content (characterData_of ht) hparts
      have hsplit : t ++ (σ.form c ++ cs.flatMap σ.form) ++ u = t ++ (σ.form c ++ t' ++ u') := by
        rw [List.append_assoc, List.append_assoc, heq, ← List.append_assoc (σ.form c)]
      rw [hsplit]
      refine ⟨_, hcontent, List.forall_mem_append.mpr ⟨fun _ => isPlain_of_mem_characterEvents, ?_⟩,
        fun ls hls => ?_⟩
      · rw [List.append_assoc, List.singleton_append, List.forall_mem_cons]
        exact ⟨trivial, hplain₁⟩
      obtain ⟨ls', hls', hmore⟩ := exists_characters hls
      rw [List.append_assoc, List.singleton_append] at hls'
      obtain ⟨l, ls₁, rfl, hl, hls₁⟩ := List.map_eq_cons_iff.mp hls'
      obtain ⟨f, hf, hplain⟩ := htell₁ ls₁ hls₁
      have hsingle : IsSingle l.event := by
        rw [hl]
        trivial
      obtain ⟨g, hg, hplain'⟩ := hmore (.single l hsingle f) (by rw [Forest.events, hf])
      refine ⟨g, hg, ?_⟩
      rw [hplain', Forest.plain, hl, hplain, hwhole t cs hkept, ← Plain.prepend_append,
        ← Plain.prepend_append, ← Text.ofChars_append, ← Text.ofChars_append]
      simp
    · simp only [List.mem_cons, List.not_mem_nil, or_false, not_or] at hchar
      obtain ⟨es₁, hderives, hplain₁, htell₁⟩ := ih (t := t ++ [c]) hcs
        (List.forall_mem_append.mpr ⟨ht, by simpa using ⟨hc, hchar⟩⟩)
        (List.forall_mem_append.mpr ⟨hkept, by simpa using hc'⟩)
      rw [hform]
      simp only [List.append_assoc, List.singleton_append] at hderives htell₁ ⊢
      exact ⟨es₁, hderives, hplain₁, htell₁⟩

/-- Parts of content are content. -/
theorem Spells.content (h : Spells .parts u p) : Spells .content u p := by
  have htext := h.text .content (t := []) (List.forall_mem_nil _) (by simp) (by simp)
  simpa [Spelling.content, unifyLineEnds] using htext

/-- An element is written in front of content. -/
theorem Spells.cons (h : Spells .element t (.element tag inner .nil)) (hp : Spells .content u p) :
    Spells .parts (t ++ u) (.element tag inner p) := by
  obtain ⟨hclean, es, ht, hplain, htell⟩ := h
  obtain ⟨hclean', es', hu, hplain', htell'⟩ := hp
  obtain ⟨u', v', es'', rfl, hu', hv', rfl⟩ := exists_of_content hu
  refine ⟨Clean.append.mpr ⟨hclean, hclean'⟩, ?_⟩
  rw [← List.append_assoc]
  refine ⟨_, .cons (.element ht) hu' hv', ?_, fun ls hls => ?_⟩
  · rw [List.append_assoc]
    exact List.forall_mem_append.mpr ⟨hplain, hplain'⟩
  rw [List.append_assoc] at hls
  obtain ⟨ls₁, ls₂, rfl, hls₁, hls₂⟩ := List.map_eq_append_iff.mp hls
  obtain ⟨f, hf, hplain⟩ := htell ls₁ hls₁
  obtain ⟨g, hg, hplain'⟩ := htell' ls₂ hls₂
  refine ⟨f.append g, by rw [Forest.events_append, hf, hg], ?_⟩
  rw [Forest.plain_append, hplain, hplain']
  rfl

section Elements

variable (σ : Spelling Spelling.valueDelimiters flattenBlanks)

/-- An element that closes itself. -/
theorem spells_empty (h : tag.Written) (hself : tag.selfClosing) {blank : List Char}
    (hblank : Blank blank) (hclean : Clean (blank ++ ['/', '>'])) :
    ∃ t, tag.print σ.write (Text.ofChars (blank ++ ['/', '>'])) = Text.ofChars t ∧
      Spells .element t (.element (tag.readAs σ) .nil .nil) := by
  obtain ⟨t, n, hprint, hclean, hn, ht⟩ :=
    exists_openingTag σ h blank ['/', '>'] hblank hclean hself
  refine ⟨t, hprint, hclean, _, .empty ht, by simp [Event.IsPlain], fun ls hls => ?_⟩
  obtain ⟨⟨start, _⟩, ls₁, rfl, rfl, hls₁⟩ := List.map_eq_cons_iff.mp hls
  obtain ⟨⟨stop, _⟩, ls₂, rfl, rfl, hls₂⟩ := List.map_eq_cons_iff.mp hls₁
  obtain rfl := List.map_eq_nil_iff.mp hls₂
  exact ⟨.element start _ .nil stop _ .nil, rfl, rfl⟩

/-- An element with its content. -/
theorem spells_nonempty (h : tag.Written) (hself : tag.selfClosing = false)
    (hu : Spells .content u inner) :
    ∃ t v, tag.print σ.write ">" = Text.ofChars t ∧ tag.printEnd = Text.ofChars v ∧
      Spells .element (t ++ u ++ v) (.element (tag.readAs σ) inner .nil) := by
  obtain ⟨t, n, hprint, hclean, hn, ht⟩ :=
    exists_openingTag σ h [] ['>'] (by simp [Blank]) (by decide) hself
  obtain ⟨hclean', es, hu, hplain, htell⟩ := hu
  have hend : EndTag (['<', '/'] ++ n ++ [] ++ ['>']) n ⟨tag.name, [], false⟩ :=
    ⟨[], hn, by simp [Blank], rfl, rfl, rfl⟩
  refine ⟨t, _, hprint, ?_, ?_, _, .nonempty ht hu hend, ?_, fun ls hls => ?_⟩
  · rw [Tag.printEnd, Reader.full_eq_of_splits hn.2]
    simp only [Text.ofChars_append, List.append_nil]
    rfl
  · simp only [Clean.append]
    exact ⟨⟨hclean, hclean'⟩, ⟨⟨by decide, hn.1.clean⟩, by decide⟩, by decide⟩
  · simpa [Event.IsPlain, or_imp, forall_and] using hplain
  · rw [List.append_assoc, List.singleton_append] at hls
    obtain ⟨⟨start, _⟩, ls₁, rfl, rfl, hls₁⟩ := List.map_eq_cons_iff.mp hls
    obtain ⟨ls₂, ls₃, rfl, hls₂, hls₃⟩ := List.map_eq_append_iff.mp hls₁
    obtain ⟨⟨stop, _⟩, ls₄, rfl, rfl, hls₄⟩ := List.map_eq_cons_iff.mp hls₃
    obtain rfl := List.map_eq_nil_iff.mp hls₄
    obtain ⟨f, rfl, rfl⟩ := htell ls₂ hls₂
    exact ⟨.element start _ f stop _ .nil, rfl, rfl⟩

end Elements

/-! ### Elements and character data that were read -/

/-- An element in one of the two forms. -/
theorem spells_element (h : tag.Written) (hclose : tag.selfClosing → inner = .nil)
    (hinner : ∃ u, inner.print = Text.ofChars u ∧ Spells .content u inner.asRead) :
    ∃ t, (Plain.element tag inner .nil).print = Text.ofChars t ∧
      Spells .element t (Plain.element tag inner .nil).asRead := by
  cases hself : tag.selfClosing with
  | true =>
    obtain ⟨t, ht, hspells⟩ := spells_empty .value h hself
      (by simp [Blank, isBlankChar] : Blank [' ']) (by decide)
    obtain rfl := hclose hself
    refine ⟨t, ?_, hspells⟩
    rw [Plain.print, if_pos hself, Plain.print, List.append_nil]
    exact ht
  | false =>
    obtain ⟨u, hu, hspells⟩ := hinner
    obtain ⟨t, v, ht, hv, hspells⟩ := spells_nonempty .value h hself hspells
    refine ⟨t ++ u ++ v, ?_, hspells⟩
    rw [Plain.print, if_neg (by rw [hself]; exact Bool.false_ne_true), hu, hv, Plain.print,
      List.append_nil, Text.ofChars_append, Text.ofChars_append, ← ht]
    rfl

theorem Plain.print_element (rest : Plain) :
    (element tag inner rest).print = (element tag inner .nil).print ++ rest.print := by
  rw [print, print]
  split <;> simp [print]

theorem Plain.not_isText_asRead (h : ¬ p.IsText) : ¬ p.asRead.IsText := by
  cases p <;> exact h

/-- **What is written spells what is read.** Content that does not begin with character data
consists of parts only. -/
theorem spells_content (h : p.Printable) : ∃ t, p.print = Text.ofChars t ∧
    Spells .content t p.asRead ∧ (¬ p.IsText → Spells .parts t p.asRead) := by
  have hboth {t : List Char} {p q : Plain} (h : Spells .parts t q) :
      Spells .content t q ∧ (¬ p.IsText → Spells .parts t q) := ⟨h.content, fun _ => h⟩
  induction h with
  | nil => exact ⟨[], rfl, hboth .nil⟩
  | @text t rest ht hne hstart hrest ih =>
    obtain ⟨cs, rfl, hcs⟩ := ht
    obtain ⟨u, hprint, -, hparts⟩ := ih
    have hspells := (hparts hstart).text .content (t := []) hcs (by simp) (by simp)
    refine ⟨cs.flatMap Text.contentForm ++ u, ?_, ?_, fun h => absurd trivial h⟩
    · rw [Plain.print, hprint, Text.escapeContent_ofChars, ← Text.ofChars_append]
    · rw [List.nil_append, List.nil_append, Plain.prepend_of_ne_nil _
        (Plain.not_isText_asRead hstart)] at hspells
      · rw [Plain.asRead, unified, Text.chars_ofChars]
        exact hspells
      · rw [ne_eq, Text.ofChars_eq_nil_iff] at hne ⊢
        exact unifyLineEnds_ne_nil hne
  | @element tag inner rest htag hclose hinner hrest ih ih' =>
    obtain ⟨u, hu, hspells, -⟩ := ih
    obtain ⟨v, hv, hspells', -⟩ := ih'
    obtain ⟨t, ht, helement⟩ := spells_element htag hclose ⟨u, hu, hspells⟩
    refine ⟨t ++ v, ?_, hboth (helement.cons hspells')⟩
    rw [Plain.print_element, ht, hv, Text.ofChars_append]

/-! ### Documents -/

theorem noDeclaration_of_head (hc : isNameStart c) : NoDeclaration ('<' :: c :: u) := by
  intro d v heq
  obtain ⟨-, hcons⟩ := List.cons.inj heq
  obtain ⟨rfl, -⟩ := List.cons.inj hcons
  cases hc

/-- What stands around the root element begins unlike an element. -/
theorem Grammar.Miscs.eq_nil_or_head {m : List Char} (h : Miscs m es) : m = [] ∨
    ∃ c v, m = c :: v ∧ (c ≠ '<' ∨ ∃ d w, v = d :: w ∧ isNameStart d = false) := by
  induction h with
  | nil => exact .inl rfl
  | @blanks s v es hs _ _ =>
    obtain ⟨hne, hblank⟩ := hs
    cases s with
    | nil => exact absurd rfl hne
    | cons c s =>
      refine .inr ⟨c, s ++ v, rfl, .inl ?_⟩
      rintro rfl
      exact absurd (hblank '<' List.mem_cons_self) (by decide)
  | comment hcomment _ _ =>
    obtain ⟨_, -, rfl, -⟩ := hcomment
    exact .inr ⟨_, _, rfl, .inr ⟨_, _, rfl, by decide⟩⟩
  | instruction hinstruction _ _ =>
    obtain ⟨_, -, -, ⟨rfl, -⟩ | ⟨_, _, -, -, rfl, -⟩⟩ := hinstruction
    · exact .inr ⟨_, _, rfl, .inr ⟨_, _, rfl, by decide⟩⟩
    · exact .inr ⟨_, _, rfl, .inr ⟨_, _, rfl, by decide⟩⟩

theorem noDoctype_of_head (hc : isNameStart c) : NoDoctype ('<' :: c :: u) := by
  intro m es' v hm heq
  rcases hm.eq_nil_or_head with rfl | ⟨d, w, rfl, hd | ⟨d', w', rfl, hd'⟩⟩
  · obtain ⟨-, hcons⟩ := List.cons.inj heq
    obtain ⟨rfl, -⟩ := List.cons.inj hcons
    cases hc
  · exact hd (List.cons.inj heq).1.symm
  · obtain ⟨-, hcons⟩ := List.cons.inj heq
    obtain ⟨rfl, -⟩ := List.cons.inj hcons
    rw [hc] at hd'
    cases hd'

/-- A text that begins like an element is decoded as UTF-8. -/
theorem decodeSource_ofChars [Encoding.Decoders] {ε : Type} (hc : isNameStart c) :
    (decodeSource (Text.ofChars ('<' :: c :: u)) : Except (ReadError ε) (List Char)) =
      .ok ('<' :: c :: u) := by
  have hne : c ≠ '?' := by
    rintro rfl
    cases hc
  obtain ⟨b, v, hb, -⟩ := Text.leading?_utf8EncodeChar (c := c)
  have hbne : b ≠ 0x3f := Text.ne_of_mem_utf8EncodeChar hne rfl (by decide)
    (hb ▸ List.mem_cons_self)
  have hbytes : Text.ofChars ('<' :: c :: u) = 0x3c :: b :: (v ++ Text.ofChars u) := by
    rw [Text.ofChars_cons, Text.ofChars_cons, hb]
    rfl
  have hdeclared : declaredEncoding (0x3c :: b :: (v ++ Text.ofChars u)) = [] := by
    have hstart : Text.dropStart? "<?xml" (0x3c :: b :: (v ++ Text.ofChars u)) = none := by
      rw [Text.dropStart?, if_neg]
      intro hstart
      obtain ⟨w, hw⟩ := List.isPrefixOf_iff_prefix.mp hstart
      exact hbne (List.cons.inj (List.cons.inj hw).2).1.symm
    rw [declaredEncoding, hstart]
    rfl
  have hsource : sourceEncoding (Text.ofChars ('<' :: c :: u)) =
      ([], Text.ofChars ('<' :: c :: u)) := by
    rw [hbytes, sourceEncoding]
    change (if Encoding.isUtf8 [] then declaredEncoding (0x3c :: b :: (v ++ Text.ofChars u))
      else [], 0x3c :: b :: (v ++ Text.ofChars u)) = _
    rw [hdeclared, ite_self]
  have hdecode (t : Text) : Encoding.decode [] t = .ok t := if_pos rfl
  rw [decodeSource, hsource]
  dsimp only
  rw [hdecode]
  dsimp only
  rw [Text.chars?_ofChars]

/-- **The events of an element that was written.** A text of the grammar that leaves an element is a
document, also with white space behind it. It is read to its end, as far as the receiver takes the
events, and they leave that element. -/
theorem Spells.exists_events [Encoding.Decoders] (h : Spells .element t (.element tag inner .nil))
    (hblank : Blank u) :
    ∃ first second, ∃ f : Forest, ∃ last,
      events (Text.ofChars (t ++ u)) = first :: second :: (f.events ++ [last]) ∧
      first.event = .locator ∧ second.event = .startDocument ∧ last.event = .endDocument ∧
      (∀ l ∈ f.events, l.event.IsPlain) ∧ f.plain = .element tag inner .nil ∧
      ∀ {σ ε : Type} {receive : Located → σ → Except ε Unit × σ} {s s' : σ},
        deliver receive (events (Text.ofChars (t ++ u))) s = (none, s') →
          read receive false (Text.ofChars (t ++ u)) s = (.ok (), s') := by
  obtain ⟨hclean, es, hderives, hevent, htell⟩ := h
  have hmiscs : Miscs u [] := by
    cases u with
    | nil => exact .nil
    | cons c u => simpa using Miscs.blanks ⟨List.cons_ne_nil c u, hblank⟩ .nil
  have hcleanBlank : Clean u := fun hmem => absurd (hblank _ hmem) (by decide)
  have hdocument :
      Document (t ++ u) ([.locator, .startDocument] ++ [] ++ es ++ [] ++ [.endDocument]) :=
    ⟨[], t, u, [], es, [], .nil, hderives, hmiscs, by simp, rfl⟩
  obtain ⟨c, v, rfl, hc⟩ := hderives.element_head
  obtain ⟨ls, hscan, hls⟩ := (scan_eq_complete_iff (Clean.append.mpr ⟨hclean, hcleanBlank⟩)
    (noDeclaration_of_head hc) (noDoctype_of_head hc)).mpr hdocument
  have hdecode {ε : Type} : (decodeSource (Text.ofChars ('<' :: c :: v ++ u)) :
      Except (ReadError ε) _) = .ok ('<' :: c :: v ++ u) := decodeSource_ofChars hc
  have hevents : events (Text.ofChars ('<' :: c :: v ++ u)) = ls := by
    rw [events_eq (ε := Empty) hdecode, hscan]
  simp only [List.append_nil, List.cons_append, List.nil_append] at hls
  obtain ⟨first, ls₁, rfl, hfirst, hls₁⟩ := List.map_eq_cons_iff.mp hls
  obtain ⟨second, ls₂, rfl, hsecond, hls₂⟩ := List.map_eq_cons_iff.mp hls₁
  obtain ⟨ls₃, ls₄, rfl, hls₃, hls₄⟩ := List.map_eq_append_iff.mp hls₂
  obtain ⟨last, ls₅, rfl, hlast, hls₅⟩ := List.map_eq_cons_iff.mp hls₄
  obtain rfl := List.map_eq_nil_iff.mp hls₅
  obtain ⟨f, rfl, hplain⟩ := htell ls₃ hls₃
  have hevent' : ∀ l ∈ f.events, l.event.IsPlain := fun l hl =>
    hevent _ (hls₃ ▸ List.mem_map_of_mem hl)
  refine ⟨first, second, f, last, hevents, hfirst, hsecond, hlast, hevent', hplain,
    fun hdeliver => ?_⟩
  rw [hevents] at hdeliver
  rw [read, hdecode]
  dsimp only
  rw [hscan]
  dsimp only
  rw [hdeliver]

/-- **The events of a document that was written.** An element that can be written is read to its
end, as far as the receiver takes the events, and they leave what was written, but for white
space. -/
theorem exists_events_print [Encoding.Decoders] (htag : tag.Written)
    (hclose : tag.selfClosing → inner = .nil)
    (hinner : inner.Printable) : ∃ first second, ∃ f : Forest, ∃ last,
      events (Plain.element tag inner .nil).print = first :: second :: (f.events ++ [last]) ∧
      first.event = .locator ∧ second.event = .startDocument ∧ last.event = .endDocument ∧
      (∀ l ∈ f.events, l.event.IsPlain) ∧ f.plain = (Plain.element tag inner .nil).asRead ∧
      ∀ {σ ε : Type} {receive : Located → σ → Except ε Unit × σ} {s s' : σ},
        deliver receive (events (Plain.element tag inner .nil).print) s = (none, s') →
          read receive false (Plain.element tag inner .nil).print s = (.ok (), s') := by
  obtain ⟨u, hu, hspells, -⟩ := spells_content hinner
  obtain ⟨t, ht, helement⟩ := spells_element htag hclose ⟨u, hu, hspells⟩
  rw [ht]
  simpa [Plain.asRead] using helement.exists_events (u := []) (by simp [Blank])

end Stencil.Markup
