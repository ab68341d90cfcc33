import Stencil.Proofs.Markup.Constructs

/-!
# Content without recursion

The grammar nests elements in elements. Read from left to right, their content is a sequence of
items: tags, which open and close elements, and constructs that do neither. How an item begins tells
what it is (`Grammar.ruleOf`). Here both views of content are shown to be the same: the items that
close a list of open elements are content and an end tag for each of them.

## Main definitions

* `Grammar.Item`, `Grammar.Items` – one item, and items until every element is closed
* `Grammar.Closes` – content and an end tag for each open element

## Main results

* `Grammar.Item.ruleOf_eq` – how an item begins
* `Grammar.items_iff_closes` – the items that close the open elements
* `Grammar.derives_element_iff` – an element as a tag and items
-/

namespace Stencil.Markup.Grammar

open Reader (RunStops)

/-- What can stand in the content of an element. -/
inductive Rule where
  /-- The end tag of the element. -/
  | endTag
  /-- A processing instruction. -/
  | instruction
  /-- A comment. -/
  | comment
  /-- A CDATA section. -/
  | cdata
  /-- A start tag or the tag of an empty element. -/
  | startTag
  /-- A reference. -/
  | reference
  /-- Character data. -/
  | characters
  deriving DecidableEq, Repr

/-- What begins here. -/
def ruleOf (l : List Char) : Rule :=
  if ['<', '/'].isPrefixOf l then .endTag
  else if ['<', '?'].isPrefixOf l then .instruction
  else if ['<', '!', '-', '-'].isPrefixOf l then .comment
  else if ['<', '!', '[', 'C', 'D', 'A', 'T', 'A', '['].isPrefixOf l then .cdata
  else if ['<'].isPrefixOf l then .startTag
  else if ['&'].isPrefixOf l then .reference
  else .characters

/-- One item of content, which leaves other elements open. Character data goes up to the next
delimiter. -/
def Item (opened : List Text) (t : List Char) (opened' : List Text) (es : List Event)
    (rest : List Char) : Rule → Prop
  | .endTag => ∃ n tag, EndTag t n tag ∧ opened = Text.ofChars n :: opened' ∧ es = [.endTag tag]
  | .instruction => ∃ e, Instruction t e ∧ opened' = opened ∧ es = [e]
  | .comment => ∃ e, Comment t e ∧ opened' = opened ∧ es = [e]
  | .cdata => ∃ e, CdataSection t e ∧ opened' = opened ∧ es = [e]
  | .startTag => ∃ n tag,
      StartTag t n tag ∧ opened' = Text.ofChars n :: opened ∧ es = [.startTag tag] ∨
        EmptyTag t n tag ∧ opened' = opened ∧ es = [.startTag tag, .endTag tag]
  | .reference => ∃ c, Reference t c ∧ opened' = opened ∧ es = [.characters (Text.ofChars [c])]
  | .characters => t ≠ [] ∧ CharacterData t ∧ RunStops rest ∧ opened' = opened ∧
      es = characterEvents t

/-- Items until no element is open. -/
inductive Items : List Text → List Char → List Event → List Char → Prop
  | nil {rest : List Char} : Items [] [] [] rest
  | cons {opened opened' : List Text} {t u rest : List Char} {es es' : List Event} (rule : Rule) :
      opened ≠ [] → Item opened t opened' es (u ++ rest) rule → Items opened' u es' rest →
      Items opened (t ++ u) (es ++ es') rest

/-- For each open element, innermost first, the rest of its content and its end tag. -/
inductive Closes : List Text → List Char → List Event → Prop
  | nil : Closes [] [] []
  | cons {name : Text} {opened : List Text} {n t u v : List Char} {tag : Tag}
      {es es' : List Event} : name = Text.ofChars n → Derives .content t es → EndTag u n tag →
      Closes opened v es' → Closes (name :: opened) (t ++ u ++ v) (es ++ [.endTag tag] ++ es')

variable {opened opened' : List Text} {t u n rest : List Char} {es es' : List Event} {e : Event}
  {c : Char} {tag : Tag}

/-! ### How constructs begin -/

theorem OpeningTag.exists_cons {close : List Char} {selfClosing : Bool}
    (h : OpeningTag close selfClosing t n tag) : ∃ c u, t = '<' :: c :: u ∧ isNameStart c := by
  obtain ⟨as, s, ⟨⟨c, cs, rfl, hc, -⟩, -⟩, -, -, -, rfl⟩ := h
  exact ⟨c, _, rfl, hc⟩

theorem EndTag.exists_cons (h : EndTag t n tag) : ∃ u, t = '<' :: '/' :: u := by
  obtain ⟨s, -, -, -, -, rfl⟩ := h
  exact ⟨_, rfl⟩

theorem Instruction.exists_cons (h : Instruction t e) : ∃ u, t = '<' :: '?' :: u := by
  obtain ⟨n, -, -, ⟨rfl, -⟩ | ⟨s, u, -, -, rfl, -⟩⟩ := h <;> exact ⟨_, rfl⟩

theorem Comment.exists_cons (h : Comment t e) : ∃ u, t = '<' :: '!' :: '-' :: '-' :: u := by
  obtain ⟨u, -, rfl, -⟩ := h
  exact ⟨_, rfl⟩

theorem CdataSection.exists_cons (h : CdataSection t e) :
    ∃ u, t = '<' :: '!' :: '[' :: 'C' :: 'D' :: 'A' :: 'T' :: 'A' :: '[' :: u := by
  obtain ⟨u, -, rfl, -⟩ := h
  exact ⟨_, rfl⟩

theorem CharacterData.exists_cons (h : CharacterData t) (hne : t ≠ []) :
    ∃ c u, t = c :: u ∧ c ≠ '<' ∧ c ≠ '&' := by
  obtain ⟨c, u, rfl⟩ := List.exists_cons_of_ne_nil hne
  exact ⟨c, u, rfl, (h.1 c List.mem_cons_self).2⟩

theorem ruleOf_openingTag (hc : isNameStart c) : ruleOf ('<' :: c :: u) = .startTag := by
  have hslash : '/' ≠ c := Reader.ne_of_isNameStart hc (by simp [Reader.delimiters])
  have hquestion : '?' ≠ c := Reader.ne_of_isNameStart hc (by simp [Reader.delimiters])
  have hexclamation : '!' ≠ c := Reader.ne_of_isNameStart hc (by simp [Reader.delimiters])
  simp [ruleOf, List.isPrefixOf, hslash, hquestion, hexclamation]

/-- How an item begins tells what it is. -/
theorem Item.ruleOf_eq {rule : Rule} (h : Item opened t opened' es rest rule) :
    ruleOf (t ++ rest) = rule := by
  cases rule with
  | endTag =>
    obtain ⟨n, tag, ht, -⟩ := h
    obtain ⟨u, rfl⟩ := ht.exists_cons
    rfl
  | instruction =>
    obtain ⟨e, ht, -⟩ := h
    obtain ⟨u, rfl⟩ := ht.exists_cons
    rfl
  | comment =>
    obtain ⟨e, ht, -⟩ := h
    obtain ⟨u, rfl⟩ := ht.exists_cons
    rfl
  | cdata =>
    obtain ⟨e, ht, -⟩ := h
    obtain ⟨u, rfl⟩ := ht.exists_cons
    rfl
  | startTag =>
    obtain ⟨n, tag, ⟨ht, -⟩ | ⟨ht, -⟩⟩ := h
    · obtain ⟨c, u, rfl, hc⟩ := OpeningTag.exists_cons ht
      exact ruleOf_openingTag hc
    · obtain ⟨c, u, rfl, hc⟩ := OpeningTag.exists_cons ht
      exact ruleOf_openingTag hc
  | reference =>
    obtain ⟨c, ht, -⟩ := h
    obtain ⟨u, rfl⟩ := ht.exists_cons
    rfl
  | characters =>
    obtain ⟨hne, ht, -⟩ := h
    obtain ⟨c, u, rfl, hlt, hamp⟩ := ht.exists_cons hne
    simp [ruleOf, List.isPrefixOf, hlt.symm, hamp.symm]

theorem Item.ne_nil {rule : Rule} (h : Item opened t opened' es rest rule) : t ≠ [] := by
  rintro rfl
  cases rule with
  | endTag =>
    obtain ⟨n, tag, ht, -⟩ := h
    exact absurd ht.exists_cons (by simp)
  | instruction =>
    obtain ⟨e, ht, -⟩ := h
    exact absurd ht.exists_cons (by simp)
  | comment =>
    obtain ⟨e, ht, -⟩ := h
    exact absurd ht.exists_cons (by simp)
  | cdata =>
    obtain ⟨e, ht, -⟩ := h
    exact absurd ht.exists_cons (by simp)
  | startTag =>
    obtain ⟨n, tag, ⟨ht, -⟩ | ⟨ht, -⟩⟩ := h <;> exact absurd ht.exists_cons (by simp)
  | reference =>
    obtain ⟨c, ht, -⟩ := h
    exact absurd ht.exists_cons (by simp)
  | characters => exact h.1 rfl

theorem items_nil_iff : Items [] t es rest ↔ t = [] ∧ es = [] := by
  constructor
  · intro h
    cases h with
    | nil => exact ⟨rfl, rfl⟩
    | cons rule hne => exact absurd rfl hne
  · rintro ⟨rfl, rfl⟩
    exact .nil

theorem items_iff_of_ne_nil (hne : opened ≠ []) : Items opened t es rest ↔
    ∃ t₁ t₂ opened' es₁ es₂, t = t₁ ++ t₂ ∧ es = es₁ ++ es₂ ∧
      (∃ rule, Item opened t₁ opened' es₁ (t₂ ++ rest) rule) ∧ Items opened' t₂ es₂ rest := by
  constructor
  · intro h
    cases h with
    | nil => exact absurd rfl hne
    | cons rule _ hitem hitems => exact ⟨_, _, _, _, _, rfl, rfl, ⟨rule, hitem⟩, hitems⟩
  · rintro ⟨t₁, t₂, opened', es₁, es₂, rfl, rfl, ⟨rule, hitem⟩, hitems⟩
    exact .cons rule hne hitem hitems

theorem Items.ne_nil (h : Items opened t es rest) (hne : opened ≠ []) : t ≠ [] := by
  obtain ⟨t₁, t₂, opened', es₁, es₂, rfl, -, ⟨rule, hitem⟩, -⟩ := (items_iff_of_ne_nil hne).mp h
  exact List.append_ne_nil_of_left_ne_nil hitem.ne_nil t₂

/-! ### Items close the open elements -/

theorem CharacterData.nil : CharacterData [] := ⟨by simp, by simp⟩

theorem Derives.content_nil : Derives .content [] [] := .content .nil .nil

theorem Derives.part_append (ht : Derives .part t es) (hu : Derives .content u es') :
    Derives .content (t ++ u) (es ++ es') := by
  cases hu with
  | @content d v es'' hd hv =>
    have h := Derives.content .nil (.cons ht hd hv)
    simpa [characterEvents] using h

/-- Character data in front of content that goes on with a delimiter. -/
theorem Derives.characters_append (hu : Derives .content u es) (ht : CharacterData t)
    (hstop : RunStops (u ++ rest)) : Derives .content (t ++ u) (characterEvents t ++ es) := by
  cases hu with
  | @content d v es'' hd hv =>
    cases d with
    | nil => exact .content ht hv
    | cons c d => exact absurd (hstop c rfl) (not_or.mpr (hd.1 c List.mem_cons_self).2)

theorem Closes.part_append (ht : Derives .part t es) (hne : opened ≠ [])
    (hu : Closes opened u es') :
    Closes opened (t ++ u) (es ++ es') := by
  cases hu with
  | nil => exact absurd rfl hne
  | cons hn hc he hv => simpa using Closes.cons hn (ht.part_append hc) he hv

theorem closes_of_items (h : Items opened t es rest) : Closes opened t es := by
  induction h with
  | nil => exact .nil
  | @cons opened opened' t u rest es es' rule hne hitem _ ih =>
    cases rule with
    | endTag =>
      obtain ⟨n, tag, ht, rfl, rfl⟩ := hitem
      exact .cons rfl .content_nil ht ih
    | instruction =>
      obtain ⟨e, ht, rfl, rfl⟩ := hitem
      exact ih.part_append (.instruction ht) hne
    | comment =>
      obtain ⟨e, ht, rfl, rfl⟩ := hitem
      exact ih.part_append (.comment ht) hne
    | cdata =>
      obtain ⟨e, ht, rfl, rfl⟩ := hitem
      exact ih.part_append (.cdata ht) hne
    | startTag =>
      obtain ⟨n, tag, ⟨ht, rfl, rfl⟩ | ⟨ht, rfl, rfl⟩⟩ := hitem
      · -- the content and the end tag of the new element come first
        cases ih with
        | cons hn hc he hv =>
          obtain rfl := Text.ofChars_injective hn
          simpa using hv.part_append (.element (.nonempty ht hc he)) hne
      · exact ih.part_append (.element (.empty ht)) hne
    | reference =>
      obtain ⟨c, ht, rfl, rfl⟩ := hitem
      exact ih.part_append (.reference ht) hne
    | characters =>
      obtain ⟨-, ht, hstop, rfl, rfl⟩ := hitem
      cases ih with
      | nil => exact absurd rfl hne
      | @cons _ _ _ c v w _ _ _ hn hc he hv =>
        rw [List.append_assoc, List.append_assoc] at hstop
        simpa using Closes.cons hn (hc.characters_append ht hstop) he hv

/-! ### The parts of content are items -/

theorem runStops_cons (hc : c = '<' ∨ c = '&') : RunStops (c :: rest) := by
  intro d hd
  obtain rfl := Option.some.inj hd
  exact hc

theorem Derives.element_head (h : Derives .element t es) :
    ∃ c u, t = '<' :: c :: u ∧ isNameStart c := by
  cases h with
  | empty h => exact h.exists_cons
  | nonempty h =>
    obtain ⟨c, u, rfl, hc⟩ := h.exists_cons
    exact ⟨c, _, rfl, hc⟩

theorem Derives.part_stops (h : Derives .part t es) : RunStops (t ++ rest) := by
  cases h with
  | element h =>
    obtain ⟨c, u, rfl, -⟩ := h.element_head
    exact runStops_cons (.inl rfl)
  | reference h =>
    obtain ⟨u, rfl⟩ := h.exists_cons
    exact runStops_cons (.inr rfl)
  | cdata h =>
    obtain ⟨u, rfl⟩ := h.exists_cons
    exact runStops_cons (.inl rfl)
  | instruction h =>
    obtain ⟨u, rfl⟩ := h.exists_cons
    exact runStops_cons (.inl rfl)
  | comment h =>
    obtain ⟨u, rfl⟩ := h.exists_cons
    exact runStops_cons (.inl rfl)

theorem Derives.parts_stops (h : Derives .parts t es) (hstop : RunStops rest) :
    RunStops (t ++ rest) := by
  cases h with
  | nil => exact hstop
  | cons hpart =>
    rw [List.append_assoc, List.append_assoc]
    exact hpart.part_stops

/-- Character data in front of items. -/
theorem Items.characters_append (hu : Items opened u es rest) (hne : opened ≠ [])
    (ht : CharacterData t) (hstop : RunStops (u ++ rest)) :
    Items opened (t ++ u) (characterEvents t ++ es) rest := by
  by_cases hempty : t = []
  · subst hempty
    exact hu
  · exact .cons .characters hne ⟨hempty, ht, hstop, rfl, rfl⟩ hu

/-- What is derived is items in front of other items. Only behind content, which may end with
character data, a delimiter has to follow. -/
theorem Derives.items_append {nt : Nonterminal} (h : Derives nt t es)
    (hu : Items opened u es' rest) (hne : opened ≠ [])
    (hstop : nt = .content ∨ nt = .parts → RunStops (u ++ rest)) :
    Items opened (t ++ u) (es ++ es') rest := by
  induction h generalizing opened u es' with
  | @empty t n tag h => exact .cons .startTag hne ⟨n, tag, .inr ⟨h, rfl, rfl⟩⟩ hu
  | @nonempty t v w n tag tag' es hs hc he ih =>
    have hend : Items (Text.ofChars n :: opened) (w ++ u) ([.endTag tag'] ++ es') rest :=
      .cons .endTag (List.cons_ne_nil _ _) ⟨n, tag', he, rfl, rfl⟩ hu
    have hstop' : RunStops (w ++ u ++ rest) := by
      obtain ⟨w, rfl⟩ := he.exists_cons
      exact runStops_cons (.inl rfl)
    have hcontent := ih hend (List.cons_ne_nil _ _) fun _ => hstop'
    simpa using Items.cons .startTag hne ⟨n, tag, .inl ⟨hs, rfl, rfl⟩⟩ hcontent
  | @content t v es ht hv ih =>
    have hstop' := hstop (.inl rfl)
    have hparts := ih hu hne fun _ => hstop'
    have hnext : RunStops (v ++ u ++ rest) := by
      rw [List.append_assoc]
      exact hv.parts_stops hstop'
    simpa using hparts.characters_append hne ht hnext
  | nil => exact hu
  | @cons t d v es es'' hp hd hv ihp ihv =>
    have hstop' := hstop (.inr rfl)
    have hparts := ihv hu hne fun _ => hstop'
    have hnext : RunStops (v ++ u ++ rest) := by
      rw [List.append_assoc]
      exact hv.parts_stops hstop'
    simpa using ihp (hparts.characters_append hne hd hnext) hne (by simp)
  | element _ ih => exact ih hu hne (by simp)
  | @reference t c h => exact .cons .reference hne ⟨c, h, rfl, rfl⟩ hu
  | @cdata t e h => exact .cons .cdata hne ⟨e, h, rfl, rfl⟩ hu
  | @instruction t e h => exact .cons .instruction hne ⟨e, h, rfl, rfl⟩ hu
  | @comment t e h => exact .cons .comment hne ⟨e, h, rfl, rfl⟩ hu

theorem items_of_closes (h : Closes opened t es) : Items opened t es rest := by
  induction h with
  | nil => exact .nil
  | @cons name opened n t u v tag es es' hn hc he _ ih =>
    have hend : Items (name :: opened) (u ++ v) ([.endTag tag] ++ es') rest :=
      .cons .endTag (List.cons_ne_nil _ _) ⟨n, tag, he, by rw [hn], rfl⟩ ih
    have hstop : RunStops (u ++ v ++ rest) := by
      obtain ⟨u, rfl⟩ := he.exists_cons
      exact runStops_cons (.inl rfl)
    simpa using hc.items_append hend (List.cons_ne_nil _ _) fun _ => hstop

/-- The items that close the open elements are content and an end tag for each of them. -/
theorem items_iff_closes : Items opened t es rest ↔ Closes opened t es :=
  ⟨closes_of_items, items_of_closes⟩

/-- An element is a tag and the items that close what it opens. -/
theorem derives_element_iff (rest : List Char) : Derives .element t es ↔
    ∃ t₁ t₂ opened es₁ es₂, t = t₁ ++ t₂ ∧ es = es₁ ++ es₂ ∧
      Item [] t₁ opened es₁ (t₂ ++ rest) .startTag ∧ Items opened t₂ es₂ rest := by
  constructor
  · intro h
    cases h with
    | @empty _ n tag h =>
      exact ⟨t, [], [], _, [], by simp, by simp, ⟨n, tag, .inr ⟨h, rfl, rfl⟩⟩, .nil⟩
    | @nonempty u v w n tag tag' es hs hc he =>
      have hitems : Items [Text.ofChars n] (v ++ w) (es ++ [.endTag tag']) rest := by
        simpa using items_iff_closes.mpr (.cons rfl hc he .nil)
      exact ⟨u, v ++ w, _, _, _, by simp, by simp, ⟨n, tag, .inl ⟨hs, rfl, rfl⟩⟩, hitems⟩
  · rintro ⟨u, v, opened, es₁, es₂, rfl, rfl, ⟨n, tag, ⟨hs, rfl, rfl⟩ | ⟨h, rfl, rfl⟩⟩, hitems⟩
    · cases items_iff_closes.mp hitems with
      | cons hn hc he hnil =>
        cases hnil
        obtain rfl := Text.ofChars_injective hn
        simpa using Derives.nonempty hs hc he
    · obtain ⟨rfl, rfl⟩ := items_nil_iff.mp hitems
      simpa using Derives.empty h

end Stencil.Markup.Grammar
