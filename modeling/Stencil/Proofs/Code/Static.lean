import Stencil.Proofs.Language.Inert

/-!
# What is written of static markup

The trees that static markup leaves hold an element for every element, a text with one piece of
output for character data, and literal values. Nothing in them concerns an instruction, and what is
written of them, without any code, is the markup itself without the declarations of registered
namespaces.

## Main definitions

* `Tag.IsLiteral` – no value of a tag is an expression
* `Store.Depicts` – trees that stand for elements and character data

## Main results

* `depicts_of_contents` – static markup leaves such trees
* `Store.Depicts.isInert` – they concern no instruction
* `Store.Depicts.render` – what is written of them
-/

namespace Stencil

open Stencil.Code (Linkable)
open Stencil.Markup (Attr Tag Plain)
open Stencil.Tree

/-! ### Literal values -/

namespace Markup

/-- No value of the tag begins with the name of an engine and a colon. -/
def Tag.IsLiteral (r : Resolver) (tag : Tag) : Prop :=
  ∀ a ∈ tag.attrs, ∀ engine source : Text, a.value = engine ++ 0x3a :: source →
    engine ≠ nullEngine ∧ r.hasEngine engine = false

theorem Tag.IsLiteral.attributeValue_eq {r : Resolver} {tag : Tag} {a : Attr} (h : tag.IsLiteral r)
    (ha : a ∈ tag.attrs) (line : Nat) :
    Tree.attributeValue (some r) line a.value = .literal a.value := by
  have hsplit : splitExpression? (some r) a.value = none := by
    rw [splitExpression?]
    cases hengine : Expression.splitEngine? a.value with
    | none => rfl
    | some parts =>
      obtain ⟨engine, source⟩ := parts
      rw [Expression.splitEngine?] at hengine
      cases hcut : Text.cut? 0x3a a.value with
      | none => simp [hcut] at hengine
      | some parts =>
        obtain ⟨name, rest⟩ := parts
        obtain ⟨hnull, hno⟩ := h a ha name rest (Text.cut?_eq_some hcut).1
        rw [hcut, Option.ite_none_right_eq_some] at hengine
        obtain ⟨-, hparts⟩ := hengine
        obtain ⟨rfl, rfl⟩ := Prod.mk.inj (Option.some.inj hparts)
        simp [hnull, hno]
  rw [Tree.attributeValue, hsplit]

end Markup

namespace Tree

/-! ### Trees of static markup -/

namespace Store

variable {s s' : Store} {n : NodeId} {ts : List Shape} {p : Plain}

/-- An attribute outside of all registered namespaces with a literal value. -/
def Copies (s : Store) (n : NodeId) (a : Attr) : Prop :=
  ∃ d, s.attr? n = some d ∧ d.uri = none ∧ d.full = a.name.full ∧ d.value = .literal a.value

/-- The trees stand for elements and character data. -/
inductive Depicts (s : Store) : List Shape → Plain → Prop
  | nil : s.Depicts [] .nil
  | text {n m : NodeId} {ts : List Shape} {t : Text} {rest : Plain} :
    s.payload? n = some .text → s.payload? m = some (.cdata t.escapeContent) → s.Depicts ts rest →
      s.Depicts (.node n [.node m []] :: ts) (.text t rest)
  | element {n : NodeId} {e : ElementData} {below ts : List Shape} {tag : Tag}
      {inner rest : Plain} :
    s.payload? n = some (.element e) → e.uri = none → e.full = tag.name.full →
      e.selfClosing = tag.selfClosing → (s.attributes n).Forall₂ s.Copies tag.attrs →
      (tag.selfClosing → below = []) → s.Depicts below inner → s.Depicts ts rest →
      s.Depicts (.node n below :: ts) (.element tag inner rest)

/-- Only what the nodes are matters. -/
theorem Depicts.congr (h : s.Depicts ts p) (hpay : ∀ n, s'.payload? n = s.payload? n) :
    s'.Depicts ts p := by
  induction h with
  | nil => exact .nil
  | text hn hm _ ih => exact .text ((hpay _).trans hn) ((hpay _).trans hm) ih
  | element hn huri hname hclose hattrs hempty _ _ ih ih' =>
    refine .element ((hpay _).trans hn) huri hname hclose ?_ hempty ih ih'
    rw [attributes_congr (hpay _)]
    refine hattrs.imp fun a x ha => ?_
    rwa [Copies, attr?_congr (hpay a)]

theorem exists_literal {l : List NodeId} {attrs : List Attr} (h : l.Forall₂ s.Copies attrs) :
    ∀ a ∈ l, ∃ d t, s.attr? a = some d ∧ d.uri = none ∧ d.value = .literal t := by
  induction h with
  | nil => simp
  | cons ha _ ih =>
    obtain ⟨d, hd, huri, -, hvalue⟩ := ha
    exact List.forall_mem_cons.mpr ⟨⟨d, _, hd, huri, hvalue⟩, ih⟩

/-- **No instruction is concerned.** -/
theorem Depicts.isInert (h : s.Depicts ts p) : ∀ n ∈ ts.flatMap Shape.ids, s.IsInert n := by
  induction h with
  | nil => simp
  | text hn hm _ ih =>
    rw [List.flatMap_cons, List.forall_mem_append]
    refine ⟨?_, ih⟩
    simp only [Shape.ids_node, List.flatMap_cons, List.flatMap_nil, List.append_nil,
      List.forall_mem_cons]
    exact ⟨.text hn, .cdata hm, by simp⟩
  | element hn huri _ _ hattrs _ _ _ ih ih' =>
    rw [List.flatMap_cons, List.forall_mem_append, Shape.ids_node, List.forall_mem_cons]
    exact ⟨⟨.element hn huri (exists_literal hattrs), ih⟩, ih'⟩

/-! ### What nodes say but for the lines -/

theorem exists_payload?_of_unlined {node : Node} (h : (s.loose n).map Node.unlined = some node) :
    ∃ p, s.payload? n = some p ∧ p.loose.unlined = node.payload := by
  obtain ⟨found, hfound, rfl⟩ := Option.map_eq_some_iff.mp h
  obtain ⟨p, hp, hloose⟩ := Option.map_eq_some_iff.mp (payload?_of_loose hfound)
  exact ⟨p, hp, congrArg Payload.unlined hloose⟩

theorem exists_element_of_unlined {d : ElementData}
    (h : (s.loose n).map Node.unlined = some { payload := .element d }) :
    ∃ e, s.payload? n = some (.element e) ∧ { e with attrs := .empty } = d := by
  obtain ⟨p, hp, hunlined⟩ := exists_payload?_of_unlined h
  cases p with
  | element e => exact ⟨e, hp, Payload.element.inj hunlined⟩
  | _ => cases hunlined

theorem payload?_eq_text_of_unlined
    (h : (s.loose n).map Node.unlined = some { payload := .text }) :
    s.payload? n = some .text := by
  obtain ⟨p, hp, hunlined⟩ := exists_payload?_of_unlined h
  cases p with
  | text => exact hp
  | _ => cases hunlined

theorem payload?_eq_cdata_of_unlined {t : Text}
    (h : (s.loose n).map Node.unlined = some { payload := .cdata t }) :
    s.payload? n = some (.cdata t) := by
  obtain ⟨p, hp, hunlined⟩ := exists_payload?_of_unlined h
  cases p with
  | cdata u => rw [hp, Payload.cdata.inj hunlined]
  | _ => cases hunlined

theorem payload?_eq_document_of_unlined {d : DocumentData}
    (h : (s.loose n).map Node.unlined = some { payload := .document d }) :
    s.payload? n = some (.document d) := by
  obtain ⟨p, hp, hunlined⟩ := exists_payload?_of_unlined h
  cases p with
  | document d' => rw [hp, Payload.document.inj hunlined]
  | _ => cases hunlined

/-- An attribute that says what a literal one in a tag does. -/
theorem copies_of_unlined {a : Attr} {d : AttributeData} (huri : d.uri = none)
    (hname : d.full = a.name.full) (hvalue : d.value = .literal a.value)
    (h : (s.loose n).map Node.unlined = some { payload := .attr d }) : s.Copies n a := by
  obtain ⟨p, hp, hunlined⟩ := exists_payload?_of_unlined h
  cases p with
  | attr d' =>
    obtain rfl := Payload.attr.inj hunlined
    refine ⟨d', by rw [attr?, hp], huri, hname, ?_⟩
    cases hliteral : d'.value with
    | literal t => simpa [Payload.loose, hliteral, Value.unlined] using hvalue
    | expression source engine line => simp [hliteral, Value.unlined] at hvalue
  | _ => cases hunlined

theorem unlined_content_node {below : List Shape} {self : Option Node}
    {attributes : List (Option Node)} {inner : List Content} :
    ((Shape.node n below).content s).unlined = .node self attributes inner ↔
      (s.loose n).map Node.unlined = self ∧
        (s.attributes n).map (fun a => (s.loose a).map Node.unlined) = attributes ∧
          below.map (fun t => (t.content s).unlined) = inner := by
  rw [Shape.content_node, Content.unlined_node, Content.node.injEq, view,
    List.map_map, List.map_map]
  rfl

end Store

variable {r : Resolver} {env : Environment} {tag : Tag} {s : Store}

theorem IsUnregistered.copies {a : Attr} {n : NodeId} (h : IsUnregistered (some r) env tag)
    (hliteral : tag.IsLiteral r) (ha : a ∈ tag.attrs)
    (hn : (s.loose n).map Node.unlined =
      some { payload := .attr (env.attributeOf (some r) 0 a) }) : s.Copies n a := by
  refine Store.copies_of_unlined ?_ ?_ ?_ hn
  · rw [Environment.attributeOf]
    split
    · rfl
    · rename_i hdecl
      by_cases hq : a.name.qualifier = []
      · exact if_pos hq
      · exact (if_neg hq).trans (h.attrs a ha (by simpa using hdecl) hq)
  · rw [Environment.attributeOf]
    split <;> rfl
  · rw [Environment.attributeOf]
    split
    · rfl
    · exact hliteral.attributeValue_eq ha 0

/-- **Static markup leaves trees that stand for it**, without the declarations of registered
namespaces. -/
theorem depicts_of_contents {p : Plain} {T : Text → Prop} {ts : List Shape}
    (hp : p.Printable)
    (h : p.All (fun env tag => IsUnregistered (some r) env tag ∧ tag.IsLiteral r) T env)
    (hunlined : ts.map (fun t => (t.content s).unlined) = p.contents (some r) env) :
    s.Depicts ts (p.kept (some r)) := by
  induction hp generalizing env ts with
  | nil =>
    obtain rfl := List.map_eq_nil_iff.mp hunlined
    exact .nil
  | text _ hne _ _ ih =>
    rw [Plain.contents, staticText, if_neg hne, List.singleton_append] at hunlined
    obtain ⟨⟨n, below⟩, ts, rfl, hnode, hrest⟩ := List.map_eq_cons_iff.mp hunlined
    obtain ⟨hself, -, hbelow⟩ := Store.unlined_content_node.mp hnode
    obtain ⟨⟨m, below'⟩, nothing, rfl, hleaf, hnothing⟩ := List.map_eq_cons_iff.mp hbelow
    obtain rfl := List.map_eq_nil_iff.mp hnothing
    obtain ⟨hdata, -, hempty⟩ := Store.unlined_content_node.mp hleaf
    obtain rfl := List.map_eq_nil_iff.mp hempty
    exact .text (Store.payload?_eq_text_of_unlined hself) (Store.payload?_eq_cdata_of_unlined hdata)
      (ih h.2 hrest)
  | @element tag inner rest _ hclose _ _ ih ih' =>
    obtain ⟨⟨hfree, hliteral⟩, hinner, hbehind⟩ := h
    obtain ⟨⟨n, below⟩, ts, rfl, hnode, hrest⟩ := List.map_eq_cons_iff.mp hunlined
    obtain ⟨hself, hattrs, hbelow⟩ := Store.unlined_content_node.mp hnode
    obtain ⟨e, he, hdata⟩ := Store.exists_element_of_unlined hself
    refine .element he ?_ ?_ ?_ ?_ (fun hsingle => ?_) (ih hinner hbelow) (ih' hbehind hrest)
    · exact (congrArg ElementData.uri hdata).trans hfree.element
    · exact congrArg ElementData.full hdata
    · exact congrArg ElementData.selfClosing hdata
    · have hmap : ((s.attributes n).map fun a => (s.loose a).map Node.unlined).Forall₂
          (fun node a => a ∈ tag.attrs ∧
            node = some { payload := .attr ((env.inside tag).attributeOf (some r) 0 a) })
          (keptAttributes (some r) tag) := by
        rw [hattrs, List.forall₂_map_left_iff]
        exact List.forall₂_same.mpr fun a ha => ⟨List.mem_of_mem_filter ha, rfl⟩
      exact (List.forall₂_map_left_iff.mp hmap).imp fun a x hx => hfree.copies hliteral hx.1 hx.2
    · rw [hclose hsingle] at hbelow
      exact List.map_eq_nil_iff.mp hbelow

end Tree

/-! ### What is written -/

namespace Tree.Store

variable {l : Linkable} {n : NodeId} {ts : List Shape} {p : Plain}

/-- There is no code without buffers. -/
theorem code_eq_nil (h : l.buffers = {}) (slots : List Code.Slot) : l.code n slots = [] := by
  have hnone : l.buffersOf n = {} := by
    rw [Linkable.buffersOf, h]
    rfl
  rw [Linkable.code, hnone, Code.Buffers.link, Code.Buffers.linkCode]
  have hparts : ∀ slots : List Code.Slot, ({} : Code.Buffers).linkParts
      (fun t => " echo '" ++ t ++ "'") false (slots.map .slot) = [] := by
    intro slots
    induction slots with
    | nil => rfl
    | cons slot slots ih => exact ih
  rw [hparts]
  rfl

theorem tagName_eq {e : ElementData} (h : l.buffers = {})
    (he : l.store.payload? n = some (.element e)) : l.tagName n = e.full := by
  have hnone : l.buffersOf n = {} := by
    rw [Linkable.buffersOf, h]
    rfl
  rw [Linkable.tagName, hnone, Store.label, he]
  rfl

theorem Copies.attributeText_eq {a : Attr} (h : l.buffers = {}) (ha : l.store.Copies n a) :
    l.attributeText n = a.print Text.escapeValue := by
  obtain ⟨d, hd, huri, hname, hvalue⟩ := ha
  rw [Linkable.attributeText, hd, h]
  dsimp only
  rw [huri, hname, hvalue]
  rfl

theorem attributesText_eq {attrs : List Attr} (h : l.buffers = {})
    (hattrs : (l.store.attributes n).Forall₂ l.store.Copies attrs) :
    l.attributesText n = attrs.flatMap (Attr.print Text.escapeValue) := by
  rw [Linkable.attributesText, code_eq_nil h, code_eq_nil h, List.nil_append, List.append_nil]
  generalize l.store.attributes n = as at hattrs
  induction hattrs with
  | nil => rfl
  | cons ha _ ih => rw [List.flatMap_cons, List.flatMap_cons, ih, ha.attributeText_eq h]

/-- **What is written is the markup**, if all nodes are visible and there is no code. -/
theorem Depicts.render (h : l.store.Depicts ts p) (hbuffers : l.buffers = {})
    (hvisible : ∀ n ∈ ts.flatMap Shape.ids, l.store.isVisible n) :
    ts.flatMap l.render = p.print := by
  induction h with
  | nil => rfl
  | text hn hm _ ih =>
    rw [List.flatMap_cons, List.forall_mem_append] at hvisible
    obtain ⟨hnode, hrest⟩ := hvisible
    simp only [Shape.ids_node, List.flatMap_cons, List.flatMap_nil, List.append_nil,
      List.forall_mem_cons] at hnode
    rw [List.flatMap_cons, ih hrest, Linkable.render_node, if_pos hnode.1, Linkable.nodeText, hn,
      List.flatMap_singleton, Linkable.render_node, if_pos hnode.2.1, Linkable.nodeText, hm]
    simp [code_eq_nil hbuffers, Plain.print]
  | @element n e below ts tag inner rest hn huri hname hclose hattrs hempty hinner _ ih ih' =>
    rw [List.flatMap_cons, List.forall_mem_append, Shape.ids_node, List.forall_mem_cons] at hvisible
    obtain ⟨⟨hself, hbelow⟩, hrest⟩ := hvisible
    rw [List.flatMap_cons, ih' hrest, Linkable.render_node, if_pos hself, Linkable.nodeText, hn,
      ih hbelow]
    dsimp only
    rw [Linkable.elementText, huri, hclose, Option.isSome_none, Plain.print, Tag.print, Tag.print,
      Tag.printEnd]
    cases hsingle : tag.selfClosing with
    | true =>
      rw [hempty hsingle]
      simp [code_eq_nil hbuffers, tagName_eq hbuffers hn, hname, attributesText_eq hbuffers hattrs]
    | false =>
      simp [code_eq_nil hbuffers, tagName_eq hbuffers hn, hname, attributesText_eq hbuffers hattrs]

/-- Nothing is written of a document but what is below it. -/
theorem Depicts.render_document {d : DocumentData} (h : l.store.Depicts ts p)
    (hn : l.store.payload? n = some (.document d)) (hbuffers : l.buffers = {})
    (hvisible : ∀ m ∈ (Shape.node n ts).ids, l.store.isVisible m) :
    l.render (.node n ts) = p.print := by
  rw [Shape.ids_node, List.forall_mem_cons] at hvisible
  rw [Linkable.render_node, if_pos hvisible.1, Linkable.nodeText, hn, h.render hbuffers hvisible.2]
  simp [code_eq_nil hbuffers]

end Tree.Store

end Stencil
