import Mathlib.Computability.Language
import Stencil.Markup.Event

/-!
# The shape of events

The events of a document have a fixed shape: what they begin with, at most one declaration, comments
and instructions, at most one document type, one element, comments and instructions again, and the
end. It is a language of events, regular but for the nesting of elements.

A language of the words that may still follow is a product: what follows next, and what follows
then. The lemmas on membership say which events can be put in front of which words. Inside of
elements the first factor is what closes the open elements (`Trace.closing`), and a tag changes the
number of them.

## Main definitions

* `Trace.Content`, `Trace.Element` – properly nested events
* `Trace.complete` – the events of a document
* `Trace.closing` – what closes elements that are open

## Main results

* `Trace.start_cons_mem`, `Trace.end_cons_mem` – tags in front of what closes elements
* `Trace.not_endDocument_of_append` – the end of the document is the last event
-/

namespace Stencil.Markup

open scoped Computability

namespace Trace

/-- A comment or a processing instruction. -/
def IsMisc : Event → Prop
  | .instruction .. | .comment _ => True
  | _ => False

/-- What can stand in an element without being one. -/
def IsLeaf : Event → Prop
  | .characters _ | .cdata _ => True
  | e => IsMisc e

/-- The events of the content of an element, properly nested: the end of an element has the name of
its beginning, and an element that closes itself ends at once. -/
inductive Content : List Event → Prop
  | nil : Content []
  | leaf {e : Event} {es : List Event} : IsLeaf e → Content es → Content (e :: es)
  | empty {tag : Tag} {es : List Event} : tag.selfClosing → Content es →
      Content (.startTag tag :: .endTag tag :: es)
  | element {tag tag' : Tag} {es es' : List Event} : ¬ tag.selfClosing → tag'.name = tag.name →
      Content es → Content es' → Content (.startTag tag :: es ++ .endTag tag' :: es')

/-- The events of an element. -/
inductive Element : List Event → Prop
  | empty {tag : Tag} : tag.selfClosing → Element [.startTag tag, .endTag tag]
  | nonempty {tag tag' : Tag} {es : List Event} : ¬ tag.selfClosing → tag'.name = tag.name →
      Content es → Element (.startTag tag :: es ++ [.endTag tag'])

/-- One event of a kind. -/
def one (P : Event → Prop) : Language Event := {es | ∃ e, P e ∧ es = [e]}

/-- Comments and processing instructions. -/
def miscs : Language Event := (one IsMisc)∗

/-- An XML declaration. -/
def declaration : Language Event := one fun e => ∃ v enc alone, e = .declaration v enc alone

/-- A document type declaration. -/
def doctype : Language Event := one fun e => ∃ raw, e = .doctype raw

/-- An element. -/
def element : Language Event := {es | Element es}

/-- The content of an element. -/
def content : Language Event := {es | Content es}

/-- A document up to its end. -/
def body : Language Event :=
  one (· = .locator) * one (· = .startDocument) * (1 + declaration) * miscs *
    (1 + doctype * miscs) * element * miscs

/-- A whole document. -/
def complete : Language Event := body * one (· = .endDocument)

/-- What closes the elements with the given names, innermost first: for each of them the rest of its
content and its end. -/
def closing : List QName → Language Event
  | [] => 1
  | q :: names => content * (one (fun e => ∃ tag, e = .endTag tag ∧ tag.name = q) * closing names)

variable {P : Event → Prop} {K L : Language Event} {e : Event} {es : List Event} {tag : Tag}
  {q : QName} {names : List QName}

theorem mem_one : es ∈ one P ↔ ∃ e, P e ∧ es = [e] := Iff.rfl

theorem mem_content : es ∈ content ↔ Content es := Iff.rfl

theorem mem_element : es ∈ element ↔ Element es := Iff.rfl

theorem cons_mem (he : P e) (hes : es ∈ K) : e :: es ∈ one P * K :=
  Language.append_mem_mul (mem_one.mpr ⟨e, he, rfl⟩) hes

theorem mem_one_add_mul (hes : es ∈ K) : es ∈ (1 + L) * K :=
  Language.append_mem_mul ((Language.mem_add _ _ _).mpr (.inl Language.nil_mem_one)) hes

theorem mem_one_add_mul_of_mem (hes : es ∈ L * K) : es ∈ (1 + L) * K := by
  obtain ⟨u, hu, v, hv, rfl⟩ := Language.mem_mul.mp hes
  exact Language.append_mem_mul ((Language.mem_add _ _ _).mpr (.inr hu)) hv

/-! ### Around the root element -/

theorem misc_cons_mem (he : IsMisc e) (hes : es ∈ miscs * K) : e :: es ∈ miscs * K := by
  have hle : one IsMisc * (miscs * K) ≤ miscs * K := by
    rw [← mul_assoc]
    exact mul_le_mul_left mul_kstar_le_kstar K
  exact hle (cons_mem he hes)

theorem mem_miscs_mul (hes : es ∈ K) : es ∈ miscs * K :=
  Language.append_mem_mul (Language.nil_mem_kstar _) hes

/-! ### Inside of elements -/

/-- Closing a name and then others is closing them all. -/
theorem closing_singleton_mul : closing [q] * closing names = closing (q :: names) := by
  simp [closing, mul_assoc]

/-- What can be put in front of the content of the innermost element can be put in front of what
closes it. -/
theorem append_mem_closing {u : List Event} (hu : ∀ v, Content v → Content (u ++ v))
    (hes : es ∈ closing (q :: names) * K) : u ++ es ∈ closing (q :: names) * K := by
  rw [closing, mul_assoc] at hes ⊢
  obtain ⟨v, hv, w, hw, rfl⟩ := Language.mem_mul.mp hes
  rw [← List.append_assoc]
  exact Language.append_mem_mul (mem_content.mpr (hu v (mem_content.mp hv))) hw

theorem leaf_cons_mem (he : IsLeaf e) (hes : es ∈ closing (q :: names) * K) :
    e :: es ∈ closing (q :: names) * K :=
  append_mem_closing (u := [e]) (fun _ => .leaf he) hes

theorem empty_cons_mem (htag : tag.selfClosing) (hes : es ∈ closing (q :: names) * K) :
    .startTag tag :: .endTag tag :: es ∈ closing (q :: names) * K :=
  append_mem_closing (u := [.startTag tag, .endTag tag]) (fun _ => .empty htag) hes

theorem mem_closing_singleton_mul (hes : es ∈ closing [q] * K) :
    ∃ u tag w, Content u ∧ tag.name = q ∧ w ∈ K ∧ es = u ++ .endTag tag :: w := by
  rw [closing, closing, mul_one, mul_assoc] at hes
  obtain ⟨u, hu, v, hv, rfl⟩ := Language.mem_mul.mp hes
  obtain ⟨a, ha, w, hw, rfl⟩ := Language.mem_mul.mp hv
  obtain ⟨_, ⟨tag, rfl, htag⟩, rfl⟩ := mem_one.mp ha
  exact ⟨u, tag, w, mem_content.mp hu, htag, hw, rfl⟩

theorem start_cons_mem (htag : ¬ tag.selfClosing)
    (hes : es ∈ closing [tag.name] * (closing (q :: names) * K)) :
    .startTag tag :: es ∈ closing (q :: names) * K := by
  obtain ⟨u, tag', w, hu, hname, hw, rfl⟩ := mem_closing_singleton_mul hes
  have h := append_mem_closing (u := .startTag tag :: u ++ [.endTag tag'])
    (fun v hv => by simpa using Content.element htag hname hu hv) hw
  simpa using h

theorem end_cons_mem (htag : tag.name = q) (hes : es ∈ closing names * K) :
    .endTag tag :: es ∈ closing (q :: names) * K := by
  rw [closing, mul_assoc, mul_assoc]
  exact Language.append_mem_mul (a := []) (mem_content.mpr .nil) (cons_mem ⟨tag, rfl, htag⟩ hes)

/-- The root element that is open. -/
theorem root_cons_mem (htag : ¬ tag.selfClosing) (hes : es ∈ closing [tag.name] * K) :
    .startTag tag :: es ∈ element * K := by
  obtain ⟨u, tag', w, hu, hname, hw, rfl⟩ := mem_closing_singleton_mul hes
  have h := Language.append_mem_mul (mem_element.mpr (.nonempty htag hname hu)) hw
  simpa using h

/-- The root element that closed itself. -/
theorem root_empty_mem (htag : tag.selfClosing) (hes : es ∈ K) :
    .startTag tag :: .endTag tag :: es ∈ element * K :=
  Language.append_mem_mul (mem_element.mpr (.empty htag)) hes

/-! ### Words of these languages -/

/-- The language has a word that is not empty. -/
def Live (K : Language Event) : Prop := ∃ es ∈ K, es ≠ []

theorem Live.mul {u : List Event} (hK : Live K) (hu : u ∈ L) : Live (L * K) := by
  obtain ⟨es, hes, hne⟩ := hK
  exact ⟨u ++ es, Language.append_mem_mul hu hes, by simp [hne]⟩

theorem Live.miscs_mul (hK : Live K) : Live (miscs * K) := hK.mul (Language.nil_mem_kstar _)

theorem Live.one_add_mul (hK : Live K) : Live ((1 + L) * K) :=
  hK.mul ((Language.mem_add _ _ _).mpr (.inl Language.nil_mem_one))

theorem Live.closing_mul (hK : Live K) : Live (closing names * K) := by
  induction names with
  | nil => exact hK.mul Language.nil_mem_one
  | cons q names ih =>
    obtain ⟨es, hes, -⟩ := ih
    exact ⟨.endTag ⟨q, [], false⟩ :: es, end_cons_mem rfl hes, List.cons_ne_nil _ _⟩

theorem live_one (he : P e) : Live (one P) := ⟨[e], mem_one.mpr ⟨e, he, rfl⟩, List.cons_ne_nil _ _⟩

theorem live_one_mul (he : P e) (hK : Live K) : Live (one P * K) :=
  hK.mul (mem_one.mpr ⟨e, he, rfl⟩)

theorem Live.element_mul (hK : Live K) : Live (element * K) :=
  have hempty (tag : Tag) (htag : tag.selfClosing) : [.startTag tag, .endTag tag] ∈ element :=
    mem_element.mpr (.empty htag)
  hK.mul (hempty ⟨⟨[], []⟩, [], true⟩ rfl)

theorem live_end : Live (one (· = .endDocument)) := live_one rfl

theorem live_complete : Live complete := by
  rw [complete, body]
  simp only [mul_assoc]
  exact live_one_mul rfl (live_one_mul rfl
    live_end.miscs_mul.element_mul.one_add_mul.miscs_mul.one_add_mul)

theorem Content.not_endDocument (h : Content es) : Event.endDocument ∉ es := by
  induction h with
  | nil => exact List.not_mem_nil
  | leaf he _ ih =>
    rintro (_ | ⟨_, hmem⟩)
    · exact he
    · exact ih hmem
  | empty _ _ ih => simpa using ih
  | element _ _ _ _ ih ih' => simp [ih, ih']

/-- No word of the language has the end of the document. -/
def Unended (K : Language Event) : Prop := ∀ es ∈ K, Event.endDocument ∉ es

theorem Unended.mul (hL : Unended L) (hK : Unended K) : Unended (L * K) := by
  intro es hes
  obtain ⟨u, hu, v, hv, rfl⟩ := Language.mem_mul.mp hes
  simp [hL u hu, hK v hv]

theorem Unended.one_add (hK : Unended K) : Unended (1 + K) := by
  rintro es (rfl | hes)
  · exact List.not_mem_nil
  · exact hK es hes

theorem Unended.kstar (hK : Unended K) : Unended K∗ := by
  intro es hes
  obtain ⟨l, rfl, hl⟩ := Language.mem_kstar.mp hes
  simpa [List.mem_flatten] using fun es hes => hK es (hl es hes)

theorem unended_one (h : ¬ P .endDocument) : Unended (one P) := by
  rintro _ ⟨e, he, rfl⟩ hmem
  obtain rfl := List.mem_singleton.mp hmem
  exact h he

theorem unended_miscs : Unended miscs := .kstar (unended_one id)

theorem unended_element : Unended element := by
  intro es hes
  rcases mem_element.mp hes with _ | ⟨-, -, hcontent⟩
  · simp
  · simp [hcontent.not_endDocument]

theorem unended_body : Unended body :=
  .mul (.mul (.mul (.mul (.mul (.mul (unended_one nofun) (unended_one nofun))
    (.one_add (unended_one nofun))) unended_miscs)
    (.one_add (.mul (unended_one nofun) unended_miscs))) unended_element) unended_miscs

/-- The end of the document is last, and nowhere else. -/
theorem not_endDocument_of_append {u v : List Event} (h : u ++ v ∈ complete) (hv : v ≠ []) :
    Event.endDocument ∉ u := by
  obtain ⟨b, hb, _, ⟨e, rfl, rfl⟩, heq⟩ := Language.mem_mul.mp h
  obtain ⟨v, a, rfl⟩ := (List.eq_nil_or_concat v).resolve_left hv
  rw [List.concat_eq_append, ← List.append_assoc] at heq
  obtain ⟨rfl, -⟩ := List.append_inj' heq rfl
  exact fun hmem => unended_body _ hb (List.mem_append_left v hmem)

end Trace

end Stencil.Markup
