import Stencil.Proofs.Markup.Writing
import Stencil.Proofs.Tree.Consistency
import Stencil.Proofs.Tree.Portrait

/-!
# Dumps are read as what they show

A dump is a document of markup, and understanding it gives the portrait of the tree back. The lines
of a dump are put together from the end: what stands behind a line is known to be read as certain
portraits, and with the line in front of it, it is read as one more. White space between tags is
character data that is not understood as anything. Values and contents are written so that nothing
in them is changed by a reader, whatever characters they have.

## Main definitions

* `Depicts` – a text is an element that is understood as a portrait
* `Shows` – lines add portraits in front of others
* `Dump.IsLegible` – everything that is shown of a node is legal in markup

## Main results

* `depicts_entry`, `depicts_line` – one entry
* `exists_node` – the entry of a node with all that is below it
* `Store.exists_events_dump` – a dump is read as the portrait of the tree
-/

namespace Stencil.Tree

open Markup (Tag Plain Legible Spelling Spells isLegalChar)
open Markup.Grammar (Blank)

variable {s : Store} {t u i : Text} {p : Portrait} {ps qs : List Portrait}
  {e : Exhibit} {n : NodeId}

/-! ### Spacing -/

/-- White space that markup may have between tags. -/
def Spacing (t : Text) : Prop := ∃ b, t = Text.ofChars b ∧ Blank b

namespace Spacing

theorem append (ht : Spacing t) (hu : Spacing u) : Spacing (t ++ u) := by
  obtain ⟨b, rfl, hb⟩ := ht
  obtain ⟨c, rfl, hc⟩ := hu
  exact ⟨b ++ c, (Text.ofChars_append b c).symm, List.forall_mem_append.mpr ⟨hb, hc⟩⟩

theorem lineEnd : Spacing "\n" := ⟨['\n'], rfl, by simp [Blank, Markup.isBlankChar]⟩

theorem indentation (hi : Spacing i) (depth : Nat) : Spacing (Dump.indentation i depth) := by
  induction depth with
  | zero => exact ⟨[], rfl, by simp [Blank]⟩
  | succ depth ih =>
    rw [Dump.indentation, List.replicate_succ, List.flatten_cons]
    exact hi.append ih

/-- Spaces and tabs are spacing. -/
theorem of_spaces_and_tabs (h : ∀ b ∈ t, b = 0x20 ∨ b = 0x09) : Spacing t := by
  induction t with
  | nil => exact ⟨[], rfl, by simp [Blank]⟩
  | cons b t ih =>
    obtain ⟨hb, ht⟩ := List.forall_mem_cons.mp h
    have hfirst : Spacing [b] := by
      rcases hb with rfl | rfl
      · exact ⟨[' '], rfl, by simp [Blank, Markup.isBlankChar]⟩
      · exact ⟨['\t'], rfl, by simp [Blank, Markup.isBlankChar]⟩
    exact hfirst.append (ih ht)

end Spacing

/-! ### Elements and what follows them -/

/-- The text is an element that is understood as the portrait. -/
def Depicts (t : Text) (p : Portrait) : Prop :=
  ∃ cs tag inner, t = Text.ofChars cs ∧ Spells .element cs (.element tag inner .nil) ∧
    portraits? (.element tag inner .nil) = some [p]

/-- The text is spacing and then parts of content that are understood as the portraits. -/
def Follows (t : Text) (ps : List Portrait) : Prop :=
  ∃ b cs q, t = Text.ofChars (b ++ cs) ∧ Blank b ∧ Spells .parts cs q ∧ portraits? q = some ps

theorem Follows.nil : Follows [] [] :=
  ⟨[], [], .nil, rfl, by simp [Blank], .nil, rfl⟩

theorem Follows.spacing (ht : Spacing t) (h : Follows u ps) : Follows (t ++ u) ps := by
  obtain ⟨b, rfl, hb⟩ := ht
  obtain ⟨c, cs, q, rfl, hc, hq⟩ := h
  refine ⟨b ++ c, cs, q, ?_, List.forall_mem_append.mpr ⟨hb, hc⟩, hq⟩
  rw [← Text.ofChars_append, List.append_assoc]

theorem isLegalChar_of_isBlankChar {c : Char} (h : Markup.isBlankChar c) :
    isLegalChar c ∧ c ≠ '&' ∧ c ≠ '<' ∧ c ≠ '>' := by
  simp only [Markup.isBlankChar, Bool.or_eq_true, decide_eq_true_eq] at h
  rcases h with ((rfl | rfl) | rfl) | rfl <;> decide

/-- Spacing in front of parts of content is character data, which is not understood as anything. -/
theorem Follows.content (h : Follows t ps) :
    ∃ cs q, t = Text.ofChars cs ∧ Spells .content cs q ∧ portraits? q = some ps := by
  obtain ⟨b, cs, q, rfl, hb, hspells, hq⟩ := h
  have htext := hspells.text .content (t := b) (List.forall_mem_nil _)
    (fun c hc => isLegalChar_of_isBlankChar (hb c hc)) (fun _ _ => trivial)
  rw [List.flatMap_nil, List.append_nil] at htext
  exact ⟨_, _, rfl, htext, portraits?_prepend.trans hq⟩

theorem Depicts.follows (h : Depicts t p) (hu : Follows u ps) : Follows (t ++ u) (p :: ps) := by
  obtain ⟨cs, tag, inner, rfl, helement, hp⟩ := h
  obtain ⟨ds, q, rfl, hcontent, hq⟩ := hu.content
  refine ⟨[], cs ++ ds, .element tag inner q, (Text.ofChars_append cs ds).symm, by simp [Blank],
    helement.cons hcontent, ?_⟩
  simp only [portraits?, Option.bind_eq_bind, Option.bind_eq_some_iff, Option.pure_def,
    Option.some.injEq, exists_eq_left', List.cons.injEq, and_true] at hp ⊢
  obtain ⟨e, he, below, hbelow, rfl⟩ := hp
  exact ⟨e, he, below, hbelow, ps, hq, rfl, rfl⟩

/-! ### Lines -/

/-- In front of anything that follows, the lines show the portraits. -/
structure Shows (lines : List Text) (ps : List Portrait) : Prop where
  /-- Without lines, there is nothing to show. -/
  eq_nil : lines = [] → ps = []
  /-- What follows stays what it is. -/
  follows {u : Text} {qs : List Portrait} : Follows u qs → Follows (lines.flatten ++ u) (ps ++ qs)

namespace Shows

variable {lines lines' : List Text}

theorem nil : Shows [] [] := ⟨fun _ => rfl, id⟩

theorem append (h : Shows lines ps) (h' : Shows lines' qs) :
    Shows (lines ++ lines') (ps ++ qs) where
  eq_nil heq := by
    obtain ⟨hl, hl'⟩ := List.append_eq_nil_iff.mp heq
    rw [h.eq_nil hl, h'.eq_nil hl', List.append_nil]
  follows hu := by
    rw [List.flatten_append, List.append_assoc, List.append_assoc]
    exact h.follows (h'.follows hu)

theorem flatMap {α : Type} {l : List α} {f : α → List Text} {g : α → List Portrait}
    (h : ∀ a ∈ l, Shows (f a) (g a)) : Shows (l.flatMap f) (l.flatMap g) := by
  induction l with
  | nil => exact nil
  | cons a l ih =>
    obtain ⟨ha, hl⟩ := List.forall_mem_cons.mp h
    exact ha.append (ih hl)

end Shows

/-- An entry in lines of its own. -/
theorem Depicts.shows {lines : List Text} (h : Depicts t p) (hi : Spacing i)
    (hlines : lines.flatten = i ++ t ++ "\n") : Shows lines [p] where
  eq_nil hnil := by
    rw [hnil] at hlines
    have hlength := congrArg List.length hlines
    simp only [List.flatten_nil, List.length_append, List.length_nil] at hlength
    exact absurd hlength (by
      have : 0 < (("\n" : Text)).length := by decide
      omega)
  follows hu := by
    rw [hlines, List.append_assoc, List.append_assoc]
    exact .spacing hi (h.follows (.spacing .lineEnd hu))

/-! ### Entries -/

/-- All texts in the heading are legal in markup. -/
def Exhibit.IsLegible (e : Exhibit) : Prop :=
  (∀ f ∈ e.heading.2, Legible f.value) ∧ ∀ c ∈ e.content?, Legible c

theorem Exhibit.IsLegible.written (he : e.IsLegible) (selfClosing : Bool) :
    (e.tag selfClosing).Written := by
  obtain ⟨hword, hwords⟩ := Exhibit.isWord_heading e
  refine ⟨Exhibit.written_of_isWord hword, fun a ha => ?_⟩
  obtain ⟨f, hf, rfl⟩ := List.mem_map.mp ha
  exact ⟨Exhibit.written_of_isWord (List.all_eq_true.mp hwords f hf), he.1 f hf⟩

/-- The beginning of an entry is a tag. -/
theorem startTag_heading (e : Exhibit) (selfClosing : Bool) (close : Text) :
    Dump.startTag e.heading.1 e.heading.2 ++ close =
      (e.tag selfClosing).print Text.escapeAttribute close := by
  rw [Dump.startTag, Tag.print, Exhibit.tag, List.flatMap_map]
  rfl

theorem portraits?_element {selfClosing : Bool} {q : Plain}
    (hcontent : ∀ c, e.content? = some c → q.characters = c) (hq : portraits? q = some ps) :
    portraits? (.element (e.tag selfClosing) q .nil) = some [.entry e ps] := by
  rw [portraits?, Exhibit.read?_heading e selfClosing hcontent, hq]
  rfl

/-- An entry with nothing inside. -/
theorem depicts_empty (he : e.IsLegible) (hcontent : e.content? = none) :
    Depicts (Dump.startTag e.heading.1 e.heading.2 ++ "/>") (.entry e []) := by
  have hwritten := he.written true
  obtain ⟨t, ht, hspells⟩ := Markup.spells_empty .strictValue hwritten rfl
    (by simp [Blank] : Blank []) (by decide)
  rw [Tag.readAs_strictValue hwritten] at hspells
  refine ⟨t, _, _, (startTag_heading e true "/>").trans ht, hspells, portraits?_element ?_ rfl⟩
  simp [hcontent]

/-- An entry with content between its tags. -/
theorem depicts_content (he : e.IsLegible) {cs : List Char} {q : Plain}
    (hcs : Spells .content cs q) (hcontent : ∀ c, e.content? = some c → q.characters = c)
    (hq : portraits? q = some ps) :
    Depicts (Dump.startTag e.heading.1 e.heading.2 ++ ">" ++ Text.ofChars cs ++
      "</" ++ e.heading.1 ++ ">") (.entry e ps) := by
  have hwritten := he.written false
  obtain ⟨t, v, ht, hv, hspells⟩ := Markup.spells_nonempty .strictValue hwritten rfl hcs
  rw [Tag.readAs_strictValue hwritten] at hspells
  have hstart := (startTag_heading e false ">").trans ht
  refine ⟨t ++ cs ++ v, _, _, ?_, hspells, portraits?_element hcontent hq⟩
  rw [hstart, Text.ofChars_append, Text.ofChars_append, ← hv, Tag.printEnd]
  simp only [List.append_assoc]
  rfl

/-- An entry of the dump, given the lines inside of it. -/
theorem depicts_entry (he : e.IsLegible) (hcontent : e.content? = none)
    (hi : Spacing i) (depth : Nat)
    {lines : List Text} (h : Shows lines ps) : ∃ t, Depicts t (.entry e ps) ∧
      (Dump.entry i depth e.heading.1 e.heading.2 lines).flatten =
        Dump.indentation i depth ++ t ++ "\n" := by
  rw [Dump.entry]
  split
  · rename_i hnil
    obtain rfl := h.eq_nil hnil
    refine ⟨_, depicts_empty he hcontent, ?_⟩
    simp only [List.flatten_cons, List.flatten_nil, List.append_nil, List.append_assoc]
    rfl
  · -- the line end behind the start tag and the indentation of the end tag are spacing
    have hinner : Follows (Text.ofString "\n" ++ (lines.flatten ++
        (Dump.indentation i depth ++ []))) (ps ++ []) :=
      .spacing .lineEnd (h.follows (.spacing (hi.indentation depth) .nil))
    rw [List.append_nil, List.append_nil] at hinner
    obtain ⟨cs, q, hcs, hspells, hq⟩ := hinner.content
    refine ⟨_, depicts_content he hspells (by simp [hcontent]) hq, ?_⟩
    rw [← hcs]
    simp only [List.flatten_append, List.flatten_cons, List.flatten_nil, List.append_nil,
      List.append_assoc]
    rfl

/-- A line of the dump for a text under a name. -/
theorem depicts_line (he : e.IsLegible) {f : Dump.Field} {c : Text} (hf : e.heading.2 = [f])
    (hcontent : e.content? = some c) :
    ∃ t, Depicts t (.entry e []) ∧ Dump.line e.heading.1 f c = t ++ "\n" := by
  obtain ⟨cs, rfl, hlegal⟩ := he.2 c hcontent
  have hspells := Spells.nil.text .strictContent (t := []) hlegal (by simp) (by simp)
  rw [List.nil_append, List.nil_append, List.append_nil] at hspells
  have hread : (Plain.prepend (Text.ofChars cs) .nil).characters = Text.ofChars cs := by
    rw [Plain.prepend]
    split
    · rename_i hnil
      rw [hnil]
      rfl
    · exact List.append_nil _
  refine ⟨_, depicts_content he hspells (fun d hd => ?_) portraits?_prepend, ?_⟩
  · exact hread.trans (Option.some.inj (hcontent.symm.trans hd))
  · rw [Dump.line, Text.escapeCharacters_ofChars, hf]
    simp only [List.append_assoc]
    rfl

/-! ### Legible texts -/

theorem legible_nil : Legible [] := ⟨[], rfl, by simp⟩

theorem legible_append (ht : Legible t) (hu : Legible u) : Legible (t ++ u) := by
  obtain ⟨cs, rfl, hcs⟩ := ht
  obtain ⟨ds, rfl, hds⟩ := hu
  exact ⟨cs ++ ds, (Text.ofChars_append cs ds).symm, List.forall_mem_append.mpr ⟨hcs, hds⟩⟩

theorem legible_join {ts : List Text} (ht : Legible t) (hts : ∀ u ∈ ts, Legible u) :
    Legible (Text.join t ts) := by
  induction ts with
  | nil => exact legible_nil
  | cons u ts ih =>
    obtain ⟨hu, hrest⟩ := List.forall_mem_cons.mp hts
    cases ts with
    | nil => simpa [Text.join, List.intercalate] using hu
    | cons v ts =>
      have hjoin : Text.join t (u :: v :: ts) = u ++ (t ++ Text.join t (v :: ts)) := by
        simp [Text.join, List.intercalate]
      rw [hjoin]
      exact legible_append hu (legible_append ht (ih hrest))

theorem legible_of_ascii (h : t.all fun b => 0x20 ≤ b && b < 0x80) : Legible t := by
  have h : ∀ b ∈ t, 0x20 ≤ b.toNat ∧ b.toNat < 0x80 := fun b hb => by
    simpa [UInt8.le_iff_toNat_le, UInt8.lt_iff_toNat_lt] using List.all_eq_true.mp h b hb
  refine ⟨_, (Text.ofChars_map_ofNat fun b hb => (h b hb).2).symm, fun c hc => ?_⟩
  obtain ⟨b, hb, rfl⟩ := List.mem_map.mp hc
  have hall : ∀ i : Fin 0x60, isLegalChar (Char.ofNat (0x20 + i)) := by
    decide
  obtain ⟨hleast, hmost⟩ := h b hb
  obtain ⟨i, hi⟩ := Nat.exists_eq_add_of_le hleast
  rw [hi]
  exact hall ⟨i, by omega⟩

theorem isLegalChar_of_isDigit {c : Char} (h : c.isDigit) : isLegalChar c := by
  have hrange : 48 ≤ c.toNat ∧ c.toNat ≤ 57 := by
    simpa [Char.isDigit, UInt32.le_iff_toNat_le] using h
  have hne : c ≠ Text.replacement := by
    rintro rfl
    exact absurd hrange.2 (by decide)
  rw [isLegalChar, isMarkupChar]
  simp only [Bool.and_eq_true, Bool.or_eq_true, decide_eq_true_eq, bne_iff_ne, ne_eq]
  exact ⟨.inl (.inl (.inr ⟨by omega, by omega⟩)), hne⟩

theorem legible_ofInt (n : Int) : Legible (Text.ofInt n) := by
  have hnat (n : Nat) : Legible (Text.ofNat n) :=
    ⟨_, rfl, fun c hc =>
      isLegalChar_of_isDigit (Nat.isDigit_of_mem_toDigits (by decide) (by decide) hc)⟩
  cases n with
  | ofNat n => exact hnat n
  | negSucc n => exact legible_append (legible_of_ascii (by decide)) (hnat (n + 1))

theorem legible_ofBool (b : Bool) : Legible (Text.ofBool b) := by
  cases b <;> exact legible_of_ascii (by decide)

theorem legible_label (slot : Code.Slot) : Legible slot.label := by
  cases slot <;> exact legible_of_ascii (by decide)

theorem legible_qualified {q n : Text} (hq : Legible q) (hn : Legible n) :
    Legible (qualified q n) := by
  rw [qualified]
  split
  · exact hn
  · exact legible_append (legible_append hq (legible_of_ascii (by decide))) hn

/-! ### What is legible of a node -/

/-- All texts in the value of a property are legal in markup. -/
inductive PropertyLegible : Code.Property → Prop
  | nothing : PropertyLegible .nothing
  | flag (b : Bool) : PropertyLegible (.flag b)
  | number (n : Int) : PropertyLegible (.number n)
  | text {t : Text} : Legible t → PropertyLegible (.text t)
  | list {vs : List Code.Property} : (∀ v ∈ vs, PropertyLegible v) → PropertyLegible (.list vs)
  | record {fields : List (Text × Code.Property)} : (∀ f ∈ fields, Legible f.1) →
      (∀ f ∈ fields, PropertyLegible f.2) → PropertyLegible (.record fields)

theorem printAll_eq (vs : List Code.Property) :
    Code.Property.print.printAll vs = vs.map Code.Property.print := by
  induction vs with
  | nil => rfl
  | cons v vs ih => rw [Code.Property.print.printAll, ih, List.map_cons]

theorem printFields_eq (fields : List (Text × Code.Property)) :
    Code.Property.print.printFields fields = fields.map fun f => (f.1, f.2.print) := by
  induction fields with
  | nil => rfl
  | cons f fields ih => rw [Code.Property.print.printFields, ih, List.map_cons]

/-- The printed form of a property has no characters but those of its texts and legal ones. -/
theorem PropertyLegible.print {v : Code.Property} (h : PropertyLegible v) : Legible v.print := by
  induction h with
  | nothing => exact legible_of_ascii (by decide)
  | flag b => exact legible_ofBool b
  | number n => exact legible_ofInt n
  | text ht => exact ht
  | @list vs _ ih =>
    rw [Code.Property.print, printAll_eq]
    refine legible_append (legible_append (legible_of_ascii (by decide))
      (legible_join (legible_of_ascii (by decide)) fun u hu => ?_))
      (legible_of_ascii (by decide))
    obtain ⟨v, hv, rfl⟩ := List.mem_map.mp hu
    exact ih v hv
  | @record fields hnames _ ih =>
    rw [Code.Property.print, Code.Property.print.inOrder, printFields_eq]
    refine legible_append (legible_append (legible_of_ascii (by decide))
      (legible_join (legible_of_ascii (by decide)) fun u hu => ?_))
      (legible_of_ascii (by decide))
    obtain ⟨g, hg, rfl⟩ := List.mem_map.mp hu
    obtain ⟨f, hf, rfl⟩ := List.mem_map.mp (List.mem_mergeSort.mp hg)
    exact legible_append (legible_append (hnames f hf) (legible_of_ascii (by decide))) (ih f hf)

namespace Dump

/-- The texts that are shown of what a node is. -/
def payloadTexts : Payload → List Text
  | .document d => [d.type]
  | .element e => [e.qualifier, e.name]
  | .attr a => a.qualifier :: a.name ::
      match a.value with
      | .literal t => [t]
      | .expression source engine _ => [source, engine]
  | .text => []
  | .cdata data => [data]
  | .expression source engine => [source, engine]
  | .code _ content => [content]

/-- All texts that are shown of a node are legal in markup. -/
structure IsLegible (t : Tables) (s : Store) (n : NodeId) : Prop where
  /-- What it is. -/
  payload (p : Payload) : s.payload? n = some p → ∀ u ∈ payloadTexts p, Legible u
  /-- Its code buffers. -/
  buffers (b : Code.Buffers) : t.buffers.get? n = some b → ∀ slot, Legible (b.content slot)
  /-- Its properties. -/
  properties (p : Code.Properties) : t.properties.get? n = some p →
    ∀ f ∈ p.entries, Legible f.1 ∧ PropertyLegible f.2

end Dump

theorem content?_exhibit (p : Payload) (visible : Bool) : (p.exhibit visible).content? = none := by
  cases p with
  | attr a =>
    rw [Payload.exhibit]
    split <;> rfl
  | _ => rfl

theorem legible_uriField (uri : Option Int) : ∀ f ∈ Dump.uriField uri, Legible f.value := by
  cases uri with
  | none => exact fun f hf => absurd hf List.not_mem_nil
  | some id => exact List.forall_mem_cons.mpr ⟨legible_ofInt id, by simp⟩

theorem isLegible_exhibit {p : Payload} (h : ∀ u ∈ Dump.payloadTexts p, Legible u)
    (visible : Bool) : (p.exhibit visible).IsLegible := by
  refine ⟨?_, by simp [content?_exhibit]⟩
  have hvisible : Legible (Exhibit.visibility visible).value := legible_ofBool visible
  cases p with
  | document d =>
    simpa [Payload.exhibit, Exhibit.heading, Dump.payloadTexts, hvisible] using h
  | element e =>
    obtain ⟨hqualifier, hname⟩ : Legible e.qualifier ∧ Legible e.name := by
      simpa [Dump.payloadTexts] using h
    have hfull : Legible e.full := legible_qualified hqualifier hname
    simp only [Payload.exhibit, Exhibit.heading, List.forall_mem_append, List.forall_mem_singleton]
    refine ⟨⟨⟨hfull, legible_uriField e.uri⟩, ?_⟩, hvisible⟩
    split
    · exact List.forall_mem_singleton.mpr (legible_of_ascii (by decide))
    · exact fun f hf => absurd hf List.not_mem_nil
  | attr a =>
    obtain ⟨hqualifier, hname, hvalue⟩ := by
      simpa only [Dump.payloadTexts, List.forall_mem_cons] using h
    have hfull : Legible a.full := legible_qualified hqualifier hname
    rw [Payload.exhibit]
    cases hcase : a.value with
    | literal t =>
      rw [hcase] at hvalue
      simp only [Exhibit.heading, List.forall_mem_append, List.forall_mem_singleton]
      exact ⟨⟨hfull, legible_uriField a.uri⟩, hvalue t List.mem_cons_self⟩
    | expression source engine line =>
      rw [hcase] at hvalue
      obtain ⟨hsource, hengine⟩ : Legible source ∧ Legible engine := by simpa using hvalue
      simp only [Exhibit.heading, List.forall_mem_append, List.forall_mem_cons,
        List.not_mem_nil, false_imp_iff, implies_true, and_true]
      exact ⟨⟨hfull, legible_uriField a.uri⟩, hengine, hsource⟩
  | text => simpa [Payload.exhibit, Exhibit.heading] using hvisible
  | cdata data =>
    simpa [Payload.exhibit, Exhibit.heading, Dump.payloadTexts, hvisible] using h
  | expression source engine =>
    obtain ⟨hsource, hengine⟩ : Legible source ∧ Legible engine := by
      simpa [Dump.payloadTexts] using h
    simpa [Payload.exhibit, Exhibit.heading, hvisible] using ⟨hengine, hsource⟩
  | code plain content =>
    have hkind : Legible (if plain then "plain" else "program" : Text) := by
      cases plain <;> exact legible_of_ascii (by decide)
    have hcontent : Legible content := by simpa [Dump.payloadTexts] using h
    simp only [Payload.exhibit, Exhibit.heading, List.forall_mem_cons, List.not_mem_nil,
      false_imp_iff, implies_true, and_true]
    exact ⟨hkind, hcontent, hvisible⟩

/-! ### Nodes -/

section Nodes

variable {tables : Dump.Tables} {depth : Nat}

theorem Shows.map {α : Type} {l : List α} {f : α → Text} {g : α → Portrait}
    (h : ∀ a ∈ l, Shows [f a] [g a]) : Shows (l.map f) (l.map g) := by
  rw [List.map_eq_flatMap, List.map_eq_flatMap]
  exact .flatMap h

theorem shows_line (he : e.IsLegible) {f : Dump.Field} {c : Text} (hf : e.heading.2 = [f])
    (hcontent : e.content? = some c) (hi : Spacing i) :
    Shows [i ++ Dump.line e.heading.1 f c] [.entry e []] := by
  obtain ⟨t, ht, hline⟩ := depicts_line he hf hcontent
  refine ht.shows hi ?_
  rw [hline]
  simp only [List.flatten_cons, List.flatten_nil, List.append_nil, List.append_assoc]

theorem shows_buffer {slot : Code.Slot} (ht : Legible t) (hi : Spacing i) :
    Shows [i ++ Dump.line "buffer" ⟨"tag", slot.label⟩ t] [.entry (.buffer slot t) []] := by
  refine shows_line (e := .buffer slot t) ⟨?_, ?_⟩ rfl rfl hi
  · exact List.forall_mem_singleton.mpr (legible_label slot)
  · rintro c ⟨⟩
    exact ht

theorem shows_property (ht : Legible t) (hu : Legible u) (hi : Spacing i) :
    Shows [i ++ Dump.line "property" ⟨"name", t⟩ u] [.entry (.property t u) []] := by
  refine shows_line (e := .property t u) ⟨?_, ?_⟩ rfl rfl hi
  · exact List.forall_mem_singleton.mpr ht
  · rintro c ⟨⟩
    exact hu

theorem exists_of_mem_names {p : Code.Properties} {name : Text} (h : name ∈ p.names) :
    ∃ v, p.get? name = some v ∧ (name, v) ∈ p.entries := by
  rw [Code.Properties.names, Text.sort, List.mem_mergeSort, List.mem_map] at h
  obtain ⟨f, hf, rfl⟩ := h
  cases hfind : p.entries.find? fun g => g.1 = f.1 with
  | none => exact absurd (List.find?_eq_none.mp hfind f hf) (by simp)
  | some g =>
    have hname : g.1 = f.1 := by simpa using List.find?_some hfind
    refine ⟨g.2, by rw [Code.Properties.get?, hfind]; rfl, ?_⟩
    rw [← hname]
    exact List.mem_of_find?_eq_some hfind

/-- What is attached to a node. -/
theorem shows_attached (h : Dump.IsLegible tables s n) (hi : Spacing i) :
    Shows (Dump.attached tables i depth n) (tables.portraits n) := by
  have hi := hi.indentation (depth + 1)
  rw [Dump.attached, Dump.Tables.portraits, List.map_append, List.map_append]
  refine .append ?_ ?_
  · rw [Dump.bufferLines]
    cases hb : tables.buffers.get? n with
    | none => exact .nil
    | some b =>
      simp only [Option.map_some, Option.getD_some, List.map_map]
      exact .map fun slot _ => shows_buffer (h.buffers b hb slot) hi
  · rw [Dump.propertyLines]
    cases hp : tables.properties.get? n with
    | none => exact .nil
    | some p =>
      simp only [Option.map_some, Option.getD_some, List.map_map]
      refine .map fun name hname => ?_
      obtain ⟨v, hv, hmem⟩ := exists_of_mem_names hname
      obtain ⟨hlegible, hvalue⟩ := h.properties p hp _ hmem
      rw [Function.comp_apply, Function.comp_apply, hv]
      exact shows_property hlegible hvalue.print hi

/-- The entries of attributes. -/
theorem shows_attributes (hi : Spacing i) (h : ∀ a ∈ s.attributes n, Dump.IsLegible tables s a) :
    Shows ((s.attributes n).flatMap (Dump.attributeEntry tables s i depth))
      (s.attributePortraits tables n) := by
  rw [Store.attributePortraits]
  generalize s.attributes n = as at h
  induction as with
  | nil => exact .nil
  | cons a as ih =>
    obtain ⟨ha, has⟩ := List.forall_mem_cons.mp h
    rw [List.flatMap_cons, List.filter_cons]
    cases hd : s.attr? a with
    | none =>
      have hentry : Dump.attributeEntry tables s i depth a = [] := by rw [Dump.attributeEntry, hd]
      rw [hentry]
      exact ih has
    | some d =>
      have hpayload : s.payload? a = some (.attr d) := Store.payload?_of_attr? hd
      have hexhibit : s.exhibit a = (Payload.attr d).exhibit (s.isVisible a) := by
        rw [Store.exhibit, hpayload]
      have hentry : Dump.attributeEntry tables s i depth a =
          Dump.entry i depth (s.exhibit a).heading.1 (s.exhibit a).heading.2
            (Dump.attached tables i depth a) := by
        rw [Dump.attributeEntry, hd, hexhibit, Payload.exhibit]
        dsimp only
        cases d.value <;> rfl
      obtain ⟨t, ht, hflatten⟩ := depicts_entry (e := s.exhibit a)
        (hexhibit ▸ isLegible_exhibit (ha.payload _ hpayload) _)
        (hexhibit ▸ content?_exhibit _ _) hi depth (shows_attached ha hi)
      rw [hentry]
      exact (ht.shows (hi.indentation depth) hflatten).append (ih has)

theorem heading_eq {p : Payload} (hp : ∀ d, p ≠ .attr d) :
    Dump.heading s n p = (p.exhibit (s.isVisible n)).heading := by
  cases p with
  | attr d => exact absurd rfl (hp d)
  | _ => rfl

theorem attr?_of_fits {m : NodeId} (h : s.Fits n m) : s.attr? m = none := by
  obtain ⟨k, l, -, hkind, hadmits⟩ := h
  rw [Store.attr?]
  split
  · rename_i d hpayload
    rw [Store.kind?, hpayload] at hkind
    obtain rfl := Option.some.inj hkind
    cases k <;> cases hadmits
  · rfl

/-- The entry of a node with all that is below it. -/
theorem exists_node (hs : s.WellFormed) (hi : Spacing i) {tree : Shape} (htree : s.Shaped tree)
    (hroot : s.Has tree.root) (hattr : s.attr? tree.root = none)
    (hlegible : ∀ m ∈ tree.ids, Dump.IsLegible tables s m ∧
      ∀ a ∈ s.attributes m, Dump.IsLegible tables s a)
    (depth : Nat) {limit : Nat} (hlimit : tree.ids.length ≤ limit) :
    ∃ t, Depicts t (s.portrait tables tree) ∧ (Dump.node tables s i limit depth tree.root).flatten =
      Dump.indentation i depth ++ t ++ "\n" := by
  induction tree generalizing limit depth with
  | node n below ih =>
    have hparent : ∀ c ∈ below, s.parent? c.root = some n := htree.parent? hs
    obtain ⟨hchildren, hbelow⟩ : below.map Shape.root = s.children n ∧ ∀ c ∈ below, s.Shaped c := by
      cases htree with
      | node hroots hbelow => exact ⟨hroots, hbelow⟩
    obtain ⟨p, hp⟩ : ∃ p, s.payload? n = some p := by
      obtain ⟨node, hnode⟩ := hroot.exists_get?
      exact ⟨node.payload, congrArg (Option.map Node.payload) hnode⟩
    have hexhibit : s.exhibit n = p.exhibit (s.isVisible n) := by rw [Store.exhibit, hp]
    have hnone : ∀ d, p ≠ .attr d := by
      rintro d rfl
      rw [Shape.root, Store.attr?, hp] at hattr
      cases hattr
    rw [Shape.ids_node] at hlegible hlimit
    obtain ⟨hnode, hrest⟩ := List.forall_mem_cons.mp hlegible
    obtain ⟨limit, rfl⟩ : ∃ l, limit = l + 1 := ⟨limit - 1, by
      rw [List.length_cons] at hlimit
      omega⟩
    have hshows : ∀ c ∈ below, Shows (Dump.node tables s i limit (depth + 1) c.root)
        [s.portrait tables c] := by
      intro c hc
      have hsub : c.ids.length ≤ (below.flatMap Shape.ids).length :=
        (List.sublist_flatten_of_mem (List.mem_map_of_mem hc)).length_le
      obtain ⟨t, ht, hflatten⟩ := ih c hc (hbelow c hc) (Store.has_of_parent? (hparent c hc))
        (attr?_of_fits (hs.fits _ _ (hparent c hc)))
        (fun m hm => hrest m (List.mem_flatMap.mpr ⟨c, hc, hm⟩)) (depth + 1)
        (hsub.trans (Nat.le_of_succ_le_succ hlimit))
      exact ht.shows (hi.indentation (depth + 1)) hflatten
    have hinner : Shows ((s.attributes n).flatMap (Dump.attributeEntry tables s i (depth + 1)) ++
        Dump.attached tables i depth n ++
          (s.children n).flatMap (Dump.node tables s i limit (depth + 1)))
        (s.attributePortraits tables n ++ tables.portraits n ++
          below.map (s.portrait tables)) := by
      rw [← hchildren, List.flatMap_map, List.map_eq_flatMap (l := below)]
      exact ((shows_attributes hi hnode.2).append (shows_attached hnode.1 hi)).append
        (.flatMap hshows)
    obtain ⟨t, ht, hflatten⟩ := depicts_entry (e := s.exhibit n)
      (hexhibit ▸ isLegible_exhibit (hnode.1.payload p hp) _) (hexhibit ▸ content?_exhibit _ _)
      hi depth hinner
    refine ⟨t, by rwa [Store.portrait_node], ?_⟩
    rw [Shape.root, Dump.node, hp, ← hflatten, hexhibit, ← heading_eq hnone]

end Nodes

/-- **A dump is a document that gives the tree back.** The dump of a node that is not an attribute
is read to its end, as far as the receiver takes the events, and they are understood as the portrait
of the tree: an exhibit of every node in its place, each with those of its attributes and of what is
attached to it in front. -/
theorem Store.exists_events_dump [Encoding.Decoders] (hs : s.WellFormed) (hroot : s.Has n)
    (hattr : s.attr? n = none)
    (tables : Dump.Tables) (indent : Text)
    (hlegible : ∀ m, s.Above n m → Dump.IsLegible tables s m ∧
      ∀ a ∈ s.attributes m, Dump.IsLegible tables s a)
    (hindent : ∀ b ∈ indent, b = 0x20 ∨ b = 0x09) :
    ∃ t, ∃ tree : Shape, s.dump tables indent n = .ok t ∧ tree.root = n ∧ s.Shaped tree ∧
      ∃ first second, ∃ f : Markup.Forest, ∃ last,
        Markup.events t = first :: second :: (f.events ++ [last]) ∧
        first.event = .locator ∧ second.event = .startDocument ∧ last.event = .endDocument ∧
        portraits? f.plain = some [s.portrait tables tree] ∧
        ∀ {σ ε : Type} {receive : Markup.Located → σ → Except ε Unit × σ} {r r' : σ},
          Markup.deliver receive (Markup.events t) r = (none, r') →
            Markup.read receive false t r = (.ok (), r') := by
  obtain ⟨tree, rfl, htree⟩ := hs.exists_shaped n
  have hspacing : Spacing (if indent = [] then Dump.defaultIndent else indent) := by
    split
    · exact .of_spaces_and_tabs (by decide +kernel)
    · exact .of_spaces_and_tabs hindent
  obtain ⟨t, ⟨cs, tag, inner, rfl, helement, hportrait⟩, hflatten⟩ := exists_node hs hspacing
    htree hroot hattr (fun m hm => hlegible m (htree.above hs hm)) 0 (htree.length_ids_le hs hroot)
  have hdump : s.dump tables indent tree.root = .ok (Text.ofChars (cs ++ ['\n'])) := by
    rw [Store.dump]
    split
    · rename_i d hpayload
      rw [Store.attr?, hpayload] at hattr
      cases hattr
    · exact congrArg Except.ok (hflatten.trans (Text.ofChars_append cs ['\n']).symm)
  obtain ⟨first, second, f, last, hevents, hfirst, hsecond, hlast, -, hplain, hread⟩ :=
    helement.exists_events (u := ['\n']) (by simp [Blank, Markup.isBlankChar])
  exact ⟨_, tree, hdump, rfl, htree, first, second, f, last, hevents, hfirst, hsecond, hlast,
    hplain ▸ hportrait, hread⟩

/-- A document with an element that has an attribute and holds code. -/
def exhibited : Store := Store.run
  [.create (.document { type := "xml", singleRoot := true }) true 1,
   .create (.attr { qualifier := [], name := "title", value := .literal "a\n<b> & \"c\"" }) true 1,
   .create (.element { qualifier := "d", name := "p", uri := some 3, attrs := ⟨[("title", 1)]⟩ })
    false 1,
   .create (.code false "$x > 1;") true 2, .appendChild 0 (some 2), .appendChild 2 (some 3)]

theorem isLegible_exhibited (n : NodeId) : Dump.IsLegible {} exhibited n where
  payload q hq := by
    have hall : ∀ node ∈ exhibited.nodes.toList, ∀ u ∈ Dump.payloadTexts node.payload,
        u = Text.ofChars u.chars ∧ u.chars.all isLegalChar := by
      decide
    obtain ⟨node, hnode, rfl⟩ := Option.map_eq_some_iff.mp hq
    intro u hu
    obtain ⟨hchars, hlegal⟩ :=
      hall node (Array.mem_toList_iff.mpr (Array.mem_of_getElem? hnode)) u hu
    exact ⟨u.chars, hchars, List.all_eq_true.mp hlegal⟩
  buffers b hb := by simp [Code.Table.get?] at hb
  properties p hp := by simp [Code.Table.get?] at hp

theorem exists_events_dump_exhibited : ∃ t, ∃ tree : Shape, exhibited.dump {} "\t" 0 = .ok t ∧
    tree.root = 0 ∧ exhibited.Shaped tree ∧
      ∃ first second, ∃ f : Markup.Forest, ∃ last,
        Markup.events t = first :: second :: (f.events ++ [last]) ∧
        portraits? f.plain = some [exhibited.portrait {} tree] := by
  obtain ⟨t, tree, hdump, hroot, htree, first, second, f, last, hevents, -, -, -, hportrait, -⟩ :=
    Store.exists_events_dump (Store.wellFormed_run _) (by decide : exhibited.Has 0)
      (by decide) {} "\t"
      (fun m _ => ⟨isLegible_exhibited m, fun a _ => isLegible_exhibited a⟩) (by decide +kernel)
  exact ⟨t, tree, hdump, hroot, htree, first, second, f, last, hevents, hportrait⟩

end Stencil.Tree
