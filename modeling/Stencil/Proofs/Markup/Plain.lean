import Stencil.Proofs.Markup.Nesting
import Stencil.Proofs.Text.Characters
import Stencil.Text.Escape

/-!
# Elements and character data

What is left of nested events when comments are left out and neighbouring character data is put
together: elements in elements, and runs of character data between their tags. It is written with
markup characters as references, in one form for elements, and what comes back when it is read is
not quite the same: a reader makes line feeds of carriage returns, and spaces of all white space in
attribute values (`Plain.asRead`).

## Main definitions

* `Plain` – elements and character data next to each other
* `Forest.plain` – what is left of nested events
* `Plain.print` – how it is written
* `Plain.asRead` – the same with white space as a reader gives it
* `Plain.Printable` – it can be written so that it is told apart again

## Main results

* `Forest.printable` – what was read can be written
* `Forest.exists_element_of_complete` – a document is one element
-/

namespace Stencil.Markup

/-- Elements and runs of character data next to each other. -/
inductive Plain where
  /-- There are no more. -/
  | nil
  /-- Character data, and what is behind it. -/
  | text (t : Text) (rest : Plain)
  /-- An element with what is between its tags, and what is behind it. -/
  | element (tag : Tag) (inner rest : Plain)

/-! ### Writing -/

/-- The attribute as it is written in a tag, given how values are. -/
def Attr.print (write : Text → Text) (a : Attr) : Text :=
  " " ++ a.name.full ++ "=\"" ++ write a.value ++ "\""

/-- The tag as it is written, given how values are, with the given end. -/
def Tag.print (write : Text → Text) (tag : Tag) (close : Text) : Text :=
  "<" ++ tag.name.full ++ tag.attrs.flatMap (Attr.print write) ++ close

/-- The end tag as it is written. -/
def Tag.printEnd (tag : Tag) : Text := "</" ++ tag.name.full ++ ">"

/-! ### White space as a reader gives it -/

/-- Character data as it is read. -/
def unified (t : Text) : Text := .ofChars (unifyLineEnds t.chars)

/-- An attribute value as it is read. -/
def flattened (t : Text) : Text := .ofChars (Grammar.flattenBlanks t.chars)

/-- The attribute as it is read. -/
def Attr.asRead (a : Attr) : Attr := { a with value := flattened a.value }

/-- The tag as it is read. -/
def Tag.asRead (tag : Tag) : Tag := { tag with attrs := tag.attrs.map Attr.asRead }

namespace Plain

/-- Character data in front of others; it is put together with character data that they begin
with. -/
def prepend (t : Text) : Plain → Plain
  | nil => if t = [] then nil else text t nil
  | text u rest => text (t ++ u) rest
  | element tag inner rest =>
    if t = [] then element tag inner rest else text t (element tag inner rest)

/-- The one behind the other. -/
def append : Plain → Plain → Plain
  | nil, q => q
  | text t rest, q => (rest.append q).prepend t
  | element tag inner rest, q => element tag inner (rest.append q)

/-- All of it as it is written. -/
def print : Plain → Text
  | nil => []
  | text t rest => t.escapeContent ++ rest.print
  | element tag inner rest =>
    if tag.selfClosing then tag.print Text.escapeValue " />" ++ rest.print
    else tag.print Text.escapeValue ">" ++ inner.print ++ tag.printEnd ++ rest.print

/-- All of it as it is read. -/
def asRead : Plain → Plain
  | nil => nil
  | text t rest => text (unified t) rest.asRead
  | element tag inner rest => element tag.asRead inner.asRead rest.asRead

/-- It begins with character data. -/
def IsText : Plain → Prop
  | text .. => True
  | _ => False

/-- Names, values and texts can be written, texts are apart and not empty, and elements that close
themselves are empty. -/
inductive Printable : Plain → Prop
  | nil : Printable nil
  | text {t : Text} {rest : Plain} : Legible t → t ≠ [] → ¬ rest.IsText → Printable rest →
      Printable (text t rest)
  | element {tag : Tag} {inner rest : Plain} : tag.Written → (tag.selfClosing → inner = .nil) →
      Printable inner → Printable rest → Printable (element tag inner rest)

variable {t u : Text} {p : Plain}

@[simp] theorem prepend_nil : prepend [] p = p := by
  cases p <;> simp [prepend]

theorem prepend_append : prepend (t ++ u) p = prepend t (prepend u p) := by
  cases p with
  | nil =>
    by_cases hu : u = [] <;> simp [prepend, hu]
  | text v rest => simp [prepend]
  | element tag inner rest =>
    by_cases hu : u = [] <;> simp [prepend, hu]

theorem append_prepend {q : Plain} : (p.prepend t).append q = (p.append q).prepend t := by
  by_cases ht : t = []
  · rw [ht, prepend_nil, prepend_nil]
  · cases p with
    | nil => rw [prepend, if_neg ht, append, append, append]
    | text u rest => rw [prepend, append, append, prepend_append]
    | element tag inner rest => rw [prepend, if_neg ht, append]

theorem prepend_of_ne_nil (ht : t ≠ []) (hp : ¬ p.IsText) : prepend t p = text t p := by
  cases p with
  | nil => rw [prepend, if_neg ht]
  | text _ _ => exact absurd trivial hp
  | element _ _ _ => rw [prepend, if_neg ht]

theorem Printable.prepend (ht : Legible t) (hp : p.Printable) : (prepend t p).Printable := by
  by_cases hne : t = []
  · rwa [hne, prepend_nil]
  · cases hp with
    | text hu hu' hstart hrest =>
      obtain ⟨cs, rfl, hcs⟩ := ht
      obtain ⟨ds, rfl, hds⟩ := hu
      refine .text ⟨cs ++ ds, (Text.ofChars_append cs ds).symm, ?_⟩ (by simp [hne]) hstart hrest
      exact List.forall_mem_append.mpr ⟨hcs, hds⟩
    | nil =>
      rw [prepend_of_ne_nil hne id]
      exact .text ht hne id .nil
    | element htag hclose hinner hrest =>
      rw [prepend_of_ne_nil hne id]
      exact .text ht hne id (.element htag hclose hinner hrest)

end Plain

/-! ### What is left of events -/

namespace Forest

/-- What is left of nested events. -/
def plain : Forest → Plain
  | nil => .nil
  | single l _ rest =>
    match l.event with
    | .characters t => rest.plain.prepend t
    | _ => rest.plain
  | element _ tag inner _ _ rest => .element tag inner.plain rest.plain

/-- Elements that close themselves have nothing between their tags. -/
def Proper : Forest → Prop
  | nil => True
  | single _ _ rest => rest.Proper
  | element _ tag inner _ _ rest => (tag.selfClosing → inner = nil) ∧ inner.Proper ∧ rest.Proper

/-- The events between the tags of an element are nested properly. -/
theorem exists_proper_of_content {es : List Event} (h : Trace.Content es) {ls : List Located}
    (hls : ls.map Located.event = es) : ∃ f : Forest, f.events = ls ∧ f.Proper := by
  induction h generalizing ls with
  | nil =>
    obtain rfl := List.map_eq_nil_iff.mp hls
    exact ⟨nil, rfl, trivial⟩
  | leaf he _ ih =>
    obtain ⟨l, ls, rfl, rfl, hrest⟩ := List.map_eq_cons_iff.mp hls
    obtain ⟨f, rfl, hf⟩ := ih hrest
    exact ⟨single l (isSingle_of_isLeaf he) f, rfl, hf⟩
  | empty _ _ ih =>
    obtain ⟨⟨start, _⟩, ls₁, rfl, rfl, hls₁⟩ := List.map_eq_cons_iff.mp hls
    obtain ⟨⟨stop, _⟩, ls₂, rfl, rfl, hls₂⟩ := List.map_eq_cons_iff.mp hls₁
    obtain ⟨f, rfl, hf⟩ := ih hls₂
    exact ⟨element start _ nil stop _ f, rfl, fun _ => rfl, trivial, hf⟩
  | element hopen _ _ _ ih ih' =>
    rw [List.cons_append] at hls
    obtain ⟨⟨start, _⟩, ls₁, rfl, rfl, hls₁⟩ := List.map_eq_cons_iff.mp hls
    obtain ⟨inner, ls₂, rfl, hinner, hls₂⟩ := List.map_eq_append_iff.mp hls₁
    obtain ⟨⟨stop, _⟩, ls₃, rfl, rfl, hls₃⟩ := List.map_eq_cons_iff.mp hls₂
    obtain ⟨f, rfl, hf⟩ := ih hinner
    obtain ⟨g, rfl, hg⟩ := ih' hls₃
    exact ⟨element start _ f stop _ g, rfl, fun h => absurd h hopen, hf, hg⟩

end Forest

/-- Tags and character data can be written, and the latter is not empty. -/
def Event.IsLegible : Event → Prop
  | .startTag tag => tag.Written
  | .characters t => Legible t
  | _ => True

theorem isLegalChar_of_mem_unifyLineEnds {cs : List Char} (h : ∀ c ∈ cs, isLegalChar c) :
    ∀ c ∈ unifyLineEnds cs, isLegalChar c := by
  fun_induction unifyLineEnds cs with
  | case1 => exact h
  | case2 cs ih =>
    obtain ⟨-, -, h⟩ := by simpa only [List.forall_mem_cons] using h
    exact List.forall_mem_cons.mpr ⟨by decide, ih h⟩
  | case3 cs _ ih =>
    exact List.forall_mem_cons.mpr ⟨by decide, ih (List.forall_mem_cons.mp h).2⟩
  | case4 c cs _ _ ih =>
    obtain ⟨hc, h⟩ := List.forall_mem_cons.mp h
    exact List.forall_mem_cons.mpr ⟨hc, ih h⟩

theorem reported_isLegible : Reported Event.IsLegible where
  startTag h := (Reader.startTag_counts _ _ _ h).2
  reference h := ⟨_, rfl, by simpa using (Reader.reference_counts _ _ _ h).2⟩
  run h _ := ⟨_, rfl, isLegalChar_of_mem_unifyLineEnds (Reader.characterRun_counts _ _ _ h).2⟩
  other e htag hcharacters _ := by
    cases e with
    | startTag tag => exact absurd rfl (htag tag)
    | characters t => exact absurd rfl (hcharacters t)
    | _ => trivial

/-- The event is none of those that leave more than elements and character data. -/
def Event.IsPlain : Event → Prop
  | .cdata _ | .doctype _ | .instruction .. => False
  | _ => True

instance (e : Event) : Decidable e.IsPlain := by
  cases e <;> unfold Event.IsPlain <;> infer_instance

/-- What was read can be written. -/
theorem Forest.printable {f : Forest} (hproper : f.Proper)
    (hlegible : ∀ l ∈ f.events, l.event.IsLegible) : f.plain.Printable := by
  induction f with
  | nil => exact .nil
  | single l h rest ih =>
    obtain ⟨hl, hrest⟩ := List.forall_mem_cons.mp hlegible
    rw [plain]
    split
    · rename_i t ht
      rw [ht] at hl
      exact (ih hproper hrest).prepend hl
    · exact ih hproper hrest
  | element start tag inner stop tag' rest ih ih' =>
    obtain ⟨hclose, hinner, hrest⟩ := hproper
    obtain ⟨htag, hbelow⟩ := List.forall_mem_cons.mp hlegible
    obtain ⟨hlegible, hlegible'⟩ := List.forall_mem_append.mp hbelow
    refine .element htag (fun h => ?_) (ih hinner hlegible)
      (ih' hrest (List.forall_mem_cons.mp hlegible').2)
    rw [hclose h]
    rfl

/-! ### Documents -/

namespace Forest

theorem plain_append (f g : Forest) : (f.append g).plain = f.plain.append g.plain := by
  induction f with
  | nil => rfl
  | single l h rest ih =>
    rw [append, plain, plain, ih]
    split
    · rw [Plain.append_prepend]
    · rfl
  | element start tag inner stop tag' rest _ ih => rw [append, plain, plain, ih, Plain.append]

theorem plain_of_prolog {f : Forest} (hf : ∀ l ∈ f.events, IsProlog l.event) : f.plain = .nil := by
  induction f with
  | nil => rfl
  | single l h rest ih =>
    obtain ⟨hl, hrest⟩ := List.forall_mem_cons.mp hf
    rw [plain]
    split
    · rename_i t ht
      rw [ht] at hl
      exact hl.elim
    · exact ih hrest
  | element start tag inner stop tag' rest _ _ => exact (List.forall_mem_cons.mp hf).1.elim

theorem proper_of_prolog {f : Forest} (hf : ∀ l ∈ f.events, IsProlog l.event) : f.Proper := by
  induction f with
  | nil => trivial
  | single l h rest ih => exact ih (List.forall_mem_cons.mp hf).2
  | element start tag inner stop tag' rest _ _ => exact (List.forall_mem_cons.mp hf).1.elim

theorem eq_nil_of_events {f : Forest} (h : f.events = []) : f = nil := by
  cases f with
  | nil => rfl
  | single l hl rest => exact absurd h (List.cons_ne_nil _ _)
  | element start tag inner stop tag' rest => exact absurd h (List.cons_ne_nil _ _)

theorem proper_append {f g : Forest} (hf : f.Proper) (hg : g.Proper) : (f.append g).Proper := by
  induction f with
  | nil => exact hg
  | single l h rest ih => exact ih hf
  | element start tag inner stop tag' rest _ ih => exact ⟨hf.1, hf.2.1, ih hf.2.2⟩

/-- A document is one element, whatever stands around it. -/
theorem exists_element_of_complete {first second last : Located} {f : Forest}
    (h : (first :: second :: (f.events ++ [last])).map Located.event ∈ Trace.complete)
    (hlast : last.event = .endDocument) :
    f.Proper ∧ ∃ tag inner, f.plain = .element tag inner .nil := by
  obtain ⟨pre, tag, inner, tag', after, hevents, hpre, hinner, hclose, hafter⟩ :=
    exists_root_of_complete h
  obtain ⟨-, -, hrest⟩ : first.event = .locator ∧ second.event = .startDocument ∧
      (f.events ++ [last]).map Located.event = pre ++ .startTag tag ::
        (inner ++ .endTag tag' :: (after ++ [.endDocument])) := by
    simpa only [List.map_cons, List.cons.injEq] using hevents
  obtain ⟨pre, ls₃, hf, rfl, hls₃⟩ := List.map_eq_append_iff.mp hrest
  obtain ⟨⟨start, _⟩, ls₄, rfl, rfl, hls₄⟩ := List.map_eq_cons_iff.mp hls₃
  obtain ⟨inner, ls₅, rfl, rfl, hls₅⟩ := List.map_eq_append_iff.mp hls₄
  obtain ⟨⟨stop, _⟩, ls₆, rfl, rfl, hls₆⟩ := List.map_eq_cons_iff.mp hls₅
  obtain ⟨after, ls₇, rfl, rfl, hls₇⟩ := List.map_eq_append_iff.mp hls₆
  obtain ⟨last', ls₈, rfl, hlast', hls₈⟩ := List.map_eq_cons_iff.mp hls₇
  obtain rfl := List.map_eq_nil_iff.mp hls₈
  have hprolog : ∀ l ∈ pre, IsProlog l.event := fun l hl => hpre _ (List.mem_map_of_mem hl)
  have hmisc : ∀ l ∈ after, IsProlog l.event := fun l hl =>
    isProlog_of_isMisc (hafter _ (List.mem_map_of_mem hl))
  obtain ⟨g, rfl⟩ := exists_of_single fun l hl => isSingle_of_isProlog (hprolog l hl)
  obtain ⟨k, rfl, hk⟩ := exists_proper_of_content hinner rfl
  obtain ⟨m, rfl⟩ := exists_of_single fun l hl => isSingle_of_isProlog (hmisc l hl)
  -- these are the parts of the forest, which has no others
  have hstops {l : Located} (hl : l.event = .endDocument) : Stops [l] := by
    intro m hm
    obtain rfl := Option.some.inj hm
    rw [hl]
    exact ⟨id, by simp⟩
  obtain ⟨rfl, -⟩ := eq_of_events_append (g := g.append (.element start tag k stop tag' m))
    (hstops hlast) (hstops hlast') (by
      rw [hf, events_append, events]
      simp only [List.append_assoc, List.cons_append])
  refine ⟨proper_append (proper_of_prolog hprolog) ⟨fun h => ?_, hk, proper_of_prolog hmisc⟩, tag,
    k.plain, ?_⟩
  · have hempty : k.events = [] := List.map_eq_nil_iff.mp (hclose h)
    exact eq_nil_of_events hempty
  · rw [plain_append, plain_of_prolog hprolog, plain, plain_of_prolog hmisc, Plain.append]

end Forest

end Stencil.Markup
