import Stencil.Code.Table
import Stencil.Proofs.Markup.Plain
import Stencil.Proofs.Tree.Content
import Stencil.Tree.Dump

/-!
# What a dump tells

Every entry of a dump tells about one thing: a node, an attribute, a code buffer or a property. Read
as markup, a dump is elements in elements, and each is understood by its tag and the character data
between its tags. That gives back trees of exhibits, the portraits. On the other side a portrait of
a tree is made of what its nodes are, without regard to how they are written.

What a portrait holds is what a dump promises to keep: of the value of an attribute and of an
expression the source and the engine, of properties the printed form, and no source lines.

## Main definitions

* `Exhibit`, `Exhibit.heading`, `Exhibit.content?` – what an entry tells, and how it is written
* `Exhibit.read?` – what a tag and its character data tell
* `Portrait`, `Plain.portraits?` – trees of exhibits, and what markup is understood as
* `Store.portrait` – the portrait of a tree

## Main results

* `Exhibit.read?_heading` – an exhibit is understood from its heading
-/

namespace Stencil

/-- The number that characters are a decimal numeral of. -/
def natural? (cs : List Char) : Option Nat :=
  if cs ≠ [] ∧ cs.all Char.isDigit then some (Nat.ofDigitChars 10 cs 0) else none

/-- The number that a text is a decimal numeral of, with a minus sign if it is negative. -/
def Text.int? (t : Text) : Option Int :=
  match t.chars with
  | '-' :: cs => (natural? cs).map fun n : Nat => -(n : Int)
  | cs => (natural? cs).map Int.ofNat

/-- The truth value that a text names. -/
def Text.bool? (t : Text) : Option Bool :=
  if t = "true" then some true else if t = "false" then some false else none

theorem natural?_toDigits (n : Nat) : natural? (Nat.toDigits 10 n) = some n := by
  have hdigits : Nat.toDigits 10 n ≠ [] ∧ (Nat.toDigits 10 n).all Char.isDigit :=
    ⟨Nat.toDigits_ne_nil, List.all_eq_true.mpr fun c hc =>
      Nat.isDigit_of_mem_toDigits (by decide) (by decide) hc⟩
  rw [natural?, if_pos hdigits, Nat.ofDigitChars_ten_toDigits]

theorem Text.int?_ofInt (n : Int) : (Text.ofInt n).int? = some n := by
  cases n with
  | ofNat n =>
    rw [ofInt, ofNat, int?, chars_ofChars]
    split
    · rename_i cs heq
      have hdigit : '-'.isDigit := Nat.isDigit_of_mem_toDigits (b := 10) (n := n) (by decide)
        (by decide) (heq ▸ List.mem_cons_self)
      exact absurd hdigit (by decide)
    · rw [natural?_toDigits]
      rfl
  | negSucc n =>
    have hchars : ofInt (.negSucc n) = ofChars ('-' :: Nat.toDigits 10 (n + 1)) := rfl
    rw [int?, hchars, chars_ofChars]
    exact congrArg (Option.map fun n : Nat => -(n : Int)) (natural?_toDigits (n + 1))

theorem Text.bool?_ofBool (b : Bool) : (Text.ofBool b).bool? = some b := by
  cases b <;> rfl

namespace Markup

/-- The value of an attribute of a tag. -/
def Tag.value? (tag : Tag) (name : Text) : Option Text :=
  (tag.attrs.find? fun a => a.name.full = name).map Attr.value

/-- All character data next to each other, without that inside of elements. -/
def Plain.characters : Plain → Text
  | .nil => []
  | .text t rest => t ++ rest.characters
  | .element _ _ rest => rest.characters

end Markup

namespace Tree

open Markup (Tag Attr Plain Legible QName)

variable {s : Store} {n m : NodeId} {p q : Plain} {t : Text}

/-! ### Exhibits -/

/-- What an entry of a dump tells. -/
inductive Exhibit where
  /-- A document. -/
  | document (type : Text) (visible : Bool)
  /-- An element under its full name. -/
  | element (name : Text) (uri : Option Int) (selfClosing visible : Bool)
  /-- An attribute with a fixed value under its full name. -/
  | fixed (name : Text) (uri : Option Int) (value : Text)
  /-- An attribute with an expression. -/
  | computed (name : Text) (uri : Option Int) (engine source : Text)
  /-- A run of character data and expressions. -/
  | text (visible : Bool)
  /-- Character data. -/
  | cdata (data : Text) (visible : Bool)
  /-- An expression. -/
  | expression (engine source : Text) (visible : Bool)
  /-- A fragment of code. -/
  | code (plain : Bool) (content : Text) (visible : Bool)
  /-- A code buffer. -/
  | buffer (slot : Code.Slot) (content : Text)
  /-- A property in its printed form. -/
  | property (name printed : Text)
  deriving DecidableEq, Repr

namespace Exhibit

open Dump (Field)

/-- The field for the visibility. -/
def visibility (visible : Bool) : Field := ⟨"visible", Text.ofBool visible⟩

/-- The name of the tag and the fields in it. -/
def heading : Exhibit → Text × List Field
  | document type visible => ("document", [⟨"type", type⟩, visibility visible])
  | element name uri selfClosing visible =>
    ("element", [⟨"name", name⟩] ++ Dump.uriField uri ++
      (if selfClosing then [⟨"empty", "true"⟩] else []) ++ [visibility visible])
  | fixed name uri value =>
    ("attribute", [⟨"name", name⟩] ++ Dump.uriField uri ++ [⟨"value", value⟩])
  | computed name uri engine source =>
    ("attribute",
      [⟨"name", name⟩] ++ Dump.uriField uri ++ [⟨"engine", engine⟩, ⟨"expression", source⟩])
  | text visible => ("text", [visibility visible])
  | cdata data visible => ("cdata", [⟨"data", data⟩, visibility visible])
  | expression engine source visible =>
    ("expression", [⟨"engine", engine⟩, ⟨"source", source⟩, visibility visible])
  | code plain content visible =>
    ("code", [⟨"kind", if plain then "plain" else "program"⟩, ⟨"content", content⟩,
      visibility visible])
  | buffer slot _ => ("buffer", [⟨"tag", slot.label⟩])
  | property name _ => ("property", [⟨"name", name⟩])

/-- The text between the tags, for the exhibits that stand in one line. -/
def content? : Exhibit → Option Text
  | buffer _ content | property _ content => some content
  | _ => none

/-- The tag of an entry. -/
def tag (e : Exhibit) (selfClosing : Bool) : Tag where
  name := ⟨[], e.heading.1⟩
  attrs := e.heading.2.map fun f => ⟨⟨[], f.name⟩, f.value⟩
  selfClosing := selfClosing

/-! ### Understanding a tag -/

/-- The visibility that a tag tells. -/
def visible? (tag : Tag) : Option Bool := (tag.value? "visible").bind Text.bool?

/-- The namespace identifier that a tag tells. -/
def uri? (tag : Tag) : Option (Option Int) :=
  match tag.value? "uri" with
  | none => some none
  | some t => t.int?.map some

/-- Whether a tag tells that an element closes itself. -/
def closing (tag : Tag) : Bool := tag.value? "empty" = some ("true" : Text)

/-- The kind of code that a tag tells. -/
def plain? (tag : Tag) : Option Bool :=
  if tag.value? "kind" = some ("plain" : Text) then some true
  else if tag.value? "kind" = some ("program" : Text) then some false
  else none

/-- For each name of a tag what the tag tells, with the given text between it and its end tag. -/
def readers : List (Text × (Tag → Text → Option Exhibit)) :=
  [("document", fun tag _ => do return .document (← tag.value? "type") (← visible? tag)),
   ("element", fun tag _ => do
      return .element (← tag.value? "name") (← uri? tag) (closing tag) (← visible? tag)),
   ("attribute", fun tag _ =>
      match tag.value? "engine" with
      | none => do return .fixed (← tag.value? "name") (← uri? tag) (← tag.value? "value")
      | some engine => do
        return .computed (← tag.value? "name") (← uri? tag) engine (← tag.value? "expression")),
   ("text", fun tag _ => do return .text (← visible? tag)),
   ("cdata", fun tag _ => do return .cdata (← tag.value? "data") (← visible? tag)),
   ("expression", fun tag _ => do
      return .expression (← tag.value? "engine") (← tag.value? "source") (← visible? tag)),
   ("code", fun tag _ => do return .code (← plain? tag) (← tag.value? "content") (← visible? tag)),
   ("buffer", fun tag content => do
      return .buffer (← (tag.value? "tag").bind Code.Slot.find?) content),
   ("property", fun tag content => do return .property (← tag.value? "name") content)]

/-- What a tag tells, with the given text between it and its end tag. -/
def read? (tag : Tag) (content : Text) : Option Exhibit :=
  (readers.lookup tag.name.full).bind fun read => read tag content

theorem uri?_eq {tag : Tag} {uri : Option Int} (h : tag.value? "uri" = uri.map Text.ofInt) :
    uri? tag = some uri := by
  rw [uri?, h]
  cases uri with
  | none => rfl
  | some id => exact congrArg (Option.map some) (Text.int?_ofInt id)

theorem visible?_eq {tag : Tag} {visible : Bool}
    (h : tag.value? "visible" = some (Text.ofBool visible)) : visible? tag = some visible := by
  rw [visible?, h]
  exact Text.bool?_ofBool visible

theorem find?_label (slot : Code.Slot) : Code.Slot.find? slot.label = some slot := by
  cases slot <;> rfl

/-- An exhibit is understood from its heading, and from its content if that is shown. -/
theorem read?_heading (e : Exhibit) (selfClosing : Bool) (h : ∀ c, e.content? = some c → t = c) :
    read? (e.tag selfClosing) t = some e := by
  -- what is not read as it stands is visibility and numbers, so that these are read first
  have hvisible (visible : Bool) (he : (e.tag selfClosing).value? "visible" =
      some (Text.ofBool visible)) : visible? (e.tag selfClosing) = some visible := visible?_eq he
  have huri (uri : Option Int) (he : (e.tag selfClosing).value? "uri" = uri.map Text.ofInt) :
      uri? (e.tag selfClosing) = some uri := uri?_eq he
  cases e with
  | document type visible =>
    change (visible? _).bind (fun visible => some (document type visible)) = _
    rw [hvisible visible rfl]
    rfl
  | element name uri selfClosed visible =>
    change (uri? _).bind (fun uri => (visible? _).bind fun visible =>
      some (element name uri (closing (tag (element name _ selfClosed _) selfClosing)) visible)) = _
    rw [huri uri (by cases uri <;> cases selfClosed <;> rfl),
      hvisible visible (by cases uri <;> cases selfClosed <;> rfl)]
    cases uri <;> cases selfClosed <;> rfl
  | fixed name uri value =>
    have hread : read? (tag (fixed name uri value) selfClosing) t =
        (uri? (tag (fixed name uri value) selfClosing)).bind fun uri =>
          some (fixed name uri value) := by
      cases uri <;> rfl
    rw [hread, huri uri (by cases uri <;> rfl)]
    rfl
  | computed name uri engine source =>
    have hread : read? (tag (computed name uri engine source) selfClosing) t =
        (uri? (tag (computed name uri engine source) selfClosing)).bind fun uri =>
          some (computed name uri engine source) := by
      cases uri <;> rfl
    rw [hread, huri uri (by cases uri <;> rfl)]
    rfl
  | text visible =>
    change (visible? _).bind (fun visible => some (text visible)) = _
    rw [hvisible visible rfl]
    rfl
  | cdata data visible =>
    change (visible? _).bind (fun visible => some (cdata data visible)) = _
    rw [hvisible visible rfl]
    rfl
  | expression engine source visible =>
    change (visible? _).bind (fun visible => some (expression engine source visible)) = _
    rw [hvisible visible rfl]
    rfl
  | code plain content visible =>
    have hplain : plain? ((code plain content visible).tag selfClosing) = some plain := by
      cases plain <;> rfl
    change (plain? _).bind (fun plain => (visible? _).bind fun visible =>
      some (code plain content visible)) = _
    rw [hplain, hvisible visible rfl]
    rfl
  | buffer slot content =>
    change (Code.Slot.find? slot.label).bind (fun slot => some (buffer slot t)) = _
    rw [find?_label, h content rfl]
    rfl
  | property name printed =>
    rw [h printed rfl]
    rfl

/-! ### Names that stand in dumps -/

/-- Small letters only. -/
def isWord (t : Text) : Bool :=
  !t.isEmpty && t.length ≤ Markup.maxNameLength && t.all fun b => 0x61 ≤ b && b ≤ 0x7a

theorem isWord_heading (e : Exhibit) :
    isWord e.heading.1 ∧ e.heading.2.all fun f => isWord f.name := by
  cases e with
  | element name uri selfClosed visible =>
    cases uri <;> cases selfClosed <;> exact ⟨rfl, rfl⟩
  | fixed name uri value => cases uri <;> exact ⟨rfl, rfl⟩
  | computed name uri engine source => cases uri <;> exact ⟨rfl, rfl⟩
  | _ => exact ⟨rfl, rfl⟩

theorem isNameStart_of_small {k : Nat} (h : 0x61 ≤ k ∧ k ≤ 0x7a) :
    Markup.isNameStart (Char.ofNat k) ∧ Char.ofNat k ≠ ':' := by
  have hall : ∀ i : Fin 26,
      Markup.isNameStart (Char.ofNat (0x61 + i)) ∧ Char.ofNat (0x61 + i) ≠ ':' := by
    decide
  obtain ⟨i, rfl⟩ := Nat.exists_eq_add_of_le h.1
  exact hall ⟨i, by omega⟩

/-- Such a text is a name. -/
theorem written_of_isWord (h : isWord t) : (⟨[], t⟩ : QName).Written := by
  simp only [isWord, Bool.and_eq_true, Bool.not_eq_true', List.isEmpty_eq_false_iff,
    List.all_eq_true, decide_eq_true_eq] at h
  obtain ⟨⟨hne, hlength⟩, hsmall⟩ := h
  have hsmall : ∀ b ∈ t, 0x61 ≤ b.toNat ∧ b.toNat ≤ 0x7a := hsmall
  have hchars := Text.ofChars_map_ofNat fun b hb => Nat.lt_of_le_of_lt (hsmall b hb).2 (by decide)
  have hstarts : ∀ c ∈ t.map fun b => Char.ofNat b.toNat, Markup.isNameStart c ∧ c ≠ ':' := by
    intro c hc
    obtain ⟨b, hb, rfl⟩ := List.mem_map.mp hc
    exact isNameStart_of_small (hsmall b hb)
  refine ⟨t.map fun b => Char.ofNat b.toNat, ?_, .inl ⟨fun hmem => (hstarts _ hmem).2 rfl, ?_⟩⟩
  · obtain ⟨b, u, rfl⟩ := List.exists_cons_of_ne_nil hne
    obtain ⟨hb, hu⟩ := List.forall_mem_cons.mp hstarts
    exact ⟨_, _, rfl, hb.1, fun c hc => Markup.Reader.isNameChar_of_isNameStart (hu c hc).1,
      by simpa using hlength⟩
  · rw [hchars]

end Exhibit

/-! ### Portraits -/

/-- An exhibit with those inside of its entry. -/
inductive Portrait where
  | entry (e : Exhibit) (inner : List Portrait)

/-- What elements are understood as, without the character data next to them. -/
def portraits? : Plain → Option (List Portrait)
  | .nil => some []
  | .text _ rest => portraits? rest
  | .element tag inner rest => do
    let e ← Exhibit.read? tag inner.characters
    let below ← portraits? inner
    let more ← portraits? rest
    return .entry e below :: more

theorem portraits?_prepend : portraits? (p.prepend t) = portraits? p := by
  cases p with
  | nil =>
    rw [Plain.prepend]
    split <;> rfl
  | text u rest => rfl
  | element tag inner rest =>
    rw [Plain.prepend]
    split <;> rfl

/-- What a node is, for a dump. -/
def Payload.exhibit (visible : Bool) : Payload → Exhibit
  | .document d => .document d.type visible
  | .element e => .element e.full e.uri e.selfClosing visible
  | .attr a =>
    match a.value with
    | .literal t => .fixed a.full a.uri t
    | .expression source engine _ => .computed a.full a.uri engine source
  | .text => .text visible
  | .cdata data => .cdata data visible
  | .expression source engine => .expression engine source visible
  | .code plain content => .code plain content visible

/-- The exhibit of a node. -/
def Store.exhibit (s : Store) (n : NodeId) : Exhibit :=
  match s.payload? n with
  | some p => p.exhibit (s.isVisible n)
  | none => .text false

/-- The portraits of what is attached to a node: code buffers with content, and then properties in
the order of their names. -/
def Dump.Tables.portraits (t : Dump.Tables) (n : NodeId) : List Portrait :=
  let buffers := ((t.buffers.get? n).map fun b =>
    (Code.Slot.all.filter b.hasContent).map fun slot => Exhibit.buffer slot (b.content slot)).getD
      []
  let properties := ((t.properties.get? n).map fun p =>
    p.names.map fun name => Exhibit.property name (((p.get? name).map (·.print)).getD [])).getD []
  (buffers ++ properties).map fun e => .entry e []

/-- The portraits of the attributes of a node. -/
def Store.attributePortraits (s : Store) (t : Dump.Tables) (n : NodeId) : List Portrait :=
  ((s.attributes n).filter fun a => (s.attr? a).isSome).map fun a =>
    .entry (s.exhibit a) (t.portraits a)

/-- The portrait of a tree: of its root, and inside those of its attributes, of what is attached to
it, and of its children. -/
def Store.portrait (s : Store) (t : Dump.Tables) : Shape → Portrait
  | .node n below =>
    .entry (s.exhibit n) (s.attributePortraits t n ++ t.portraits n ++ below.map (s.portrait t))

theorem Store.portrait_node (s : Store) (t : Dump.Tables) (n : NodeId) (below : List Shape) :
    s.portrait t (.node n below) = .entry (s.exhibit n)
      (s.attributePortraits t n ++ t.portraits n ++ below.map (s.portrait t)) := by
  rw [portrait]

end Tree
end Stencil
