import Stencil.Compiler.Source
import Stencil.Proofs.Data.Action
import Stencil.Proofs.Markup.Nesting
import Stencil.Proofs.Tree.Additions
import Stencil.Proofs.Tree.Views

/-!
# The tree of a source

What is known of the tree that a source is parsed to, whatever the store held before: it is made of
new nodes, nothing else has changed, and it has one root element, which is what the first start tag
of the source stands for. That start tag can be told from the source alone (`Tree.rootOf?`).

Events are followed in two phases. Up to the first start tag the document is the only open node, and
no element is below it; afterwards there is one, and no event can add a second. The order of events
that this relies on is that of a document.

## Main definitions

* `Tree.rootOf?` – the root element of a source
* `Assembly.Placing` – an assembly of a document in a store
* `Store.Rooted`, `Tree.Parsed` – a document with its root element, and one that was parsed

## Main results

* `Tree.parsed_of_ofSource`, `parseSource_yields` – what a source is parsed to
-/

namespace Stencil

open Markup (Event Located Tag)

/-! ### The first start tag -/

namespace Markup

/-- The first start tag of a source and the line on which it stands. -/
def rootTag? [Encoding.Decoders] (source : Text) : Option (Nat × Tag) :=
  match (decodeSource source : Except (ReadError Empty) (List Char)) with
  | .error _ => none
  | .ok cs => (scan false cs).1.findSome? fun e =>
    match e.event with
    | .startTag tag => some (e.position.line, tag)
    | _ => none

end Markup

namespace Tree

open Store (Built Adds Gains IsOpen)
open Assembly (Opening addElement)

variable {s₀ s s' : Store} {a a' : Assembly} {r : Option Resolver} {line : Nat}
  {doc n root c : NodeId}
  {e : Event} {uri : Option Int} {name : Text} {o : Opening}

/-! ### What start tags stand for -/

/-- Attributes of one tag differ in their names. -/
theorem Assembly.attributesOf_nodup {b : Bindings} {element : Text} {seen : List Text}
    {attrs : List Markup.Attr} {ds : List AttributeData}
    (h : attributesOf r b element line seen attrs = .ok ds) :
    (ds.map AttributeData.full).Nodup ∧ ∀ d ∈ ds, d.full ∉ seen := by
  induction attrs generalizing seen ds with
  | nil =>
    obtain rfl := Except.ok.inj h
    simp
  | cons attr attrs ih =>
    rw [attributesOf] at h
    obtain ⟨found, -, h⟩ := exists_of_bind_ok h
    cases found with
    | none => exact ih h
    | some d =>
      dsimp only at h
      by_cases hc : seen.contains d.full
      · rw [if_pos hc] at h
        cases h
      · rw [if_neg hc] at h
        obtain ⟨rest, hrest, h⟩ := exists_of_bind_ok h
        obtain rfl := Except.ok.inj h
        obtain ⟨hnodup, hseen⟩ := ih hrest
        have hfirst : ∀ d' ∈ rest, d'.full ≠ d.full := fun d' hd' he =>
          hseen d' hd' (he ▸ List.mem_cons_self)
        constructor
        · rw [List.map_cons, List.nodup_cons]
          refine ⟨fun hmem => ?_, hnodup⟩
          obtain ⟨d', hd', he⟩ := List.mem_map.mp hmem
          exact hfirst d' hd' he
        · rintro d' (_ | ⟨_, hd'⟩) hmem
          · exact hc (List.elem_eq_true_of_mem hmem)
          · exact hseen d' hd' (List.mem_cons_of_mem _ hmem)

theorem Assembly.openingOf_names {tag : Tag} {b : Bindings} (h : openingOf r line tag b = .ok o) :
    (o.attrs.map AttributeData.full).Nodup := by
  rw [openingOf] at h
  obtain ⟨b', -, h⟩ := exists_of_bind_ok h
  obtain ⟨uri, -, h⟩ := exists_of_bind_ok h
  obtain ⟨attrs, hattrs, h⟩ := exists_of_bind_ok h
  obtain rfl := Except.ok.inj h
  exact (attributesOf_nodup hattrs).1

/-! ### Assemblies in a store -/

namespace Assembly

/-- An assembly of a document in a store. All new elements, and all nodes that are open, belong to
it. -/
structure Placing (s₀ : Store) (doc : NodeId) (a : Assembly) : Prop where
  built : Built s₀ a.store
  document : a.document = some doc
  new : ¬ s₀.Has doc
  alone : a.store.parent? doc = none
  data : a.store.document? doc = some { type := "xml", singleRoot := true }
  elements (n : NodeId) : ¬ s₀.Has n → a.store.isElement n → a.store.Above doc n
  opened (n : NodeId) : n ∈ a.opened → ¬ s₀.Has n ∧ a.store.IsOpen n ∧ a.store.Above doc n

/-- Leaves were added, and the same nodes are open. -/
structure Continues (s₀ : Store) (a a' : Assembly) : Prop where
  adds : Adds s₀ a.store a'.store
  document : a'.document = a.document
  opened : a'.opened = a.opened
  bindings : a'.bindings = a.bindings

theorem Placing.single (h : Placing s₀ doc a) : a.store.hasSingleRoot doc := by
  rw [Store.hasSingleRoot, h.data]
  rfl

/-- Nothing was left on the document. -/
theorem Placing.entire (h : Placing s₀ doc a) : a.store.Entire doc := by
  refine ⟨by rw [Store.kind?, Store.payload?_of_document? h.data]; rfl, ?_⟩
  rw [Store.hasExtra, Store.extra?, Store.extras, h.data]
  rfl

theorem Placing.has (h : Placing s₀ doc a) : a.store.Has doc := Store.has_of_kind? h.entire.1

theorem Placing.continues (h : Placing s₀ doc a) (hc : Continues s₀ a a') : Placing s₀ doc a' where
  built := hc.adds.after
  document := hc.document.trans h.document
  new := h.new
  alone := (hc.adds.parent? doc h.has).trans h.alone
  data := (hc.adds.document? doc h.has).trans h.data
  elements n hn he := by
    by_cases hhas : a.store.Has n
    · exact (hc.adds.above_iff hhas).mpr (h.elements n hn ((hc.adds.isElement_iff hhas).mp he))
    · exact absurd he (hc.adds.leaf n hhas)
  opened x hx := by
    obtain ⟨hnew, hopen, hup⟩ := h.opened x (hc.opened ▸ hx)
    exact ⟨hnew, hc.adds.isOpen hopen, (hc.adds.above_iff hopen.has).mpr hup⟩

namespace Continues

protected theorem refl (h : Built s₀ a.store) : Continues s₀ a a := ⟨.refl h, rfl, rfl, rfl⟩

protected theorem trans {a'' : Assembly} (h : Continues s₀ a a') (h' : Continues s₀ a' a'') :
    Continues s₀ a a'' :=
  ⟨h.adds.trans h'.adds, h'.document.trans h.document, h'.opened.trans h.opened,
    h'.bindings.trans h.bindings⟩

end Continues

theorem Placing.current? (h : Placing s₀ doc a) (hn : a.current? = some n) :
    ¬ s₀.Has n ∧ a.store.IsOpen n ∧ a.store.Above doc n :=
  h.opened n (List.mem_of_head? hn)

theorem Placing.flush (h : Placing s₀ doc a) : Continues s₀ a (a.flush r) := by
  rw [Assembly.flush]
  split
  · exact .refl h.built
  · rename_i p hp
    obtain ⟨hnew, hopen, -⟩ := h.current? hp
    exact ⟨.appendPieces h.built hnew hopen, rfl, rfl, rfl⟩

theorem Placing.place {payload : Payload} (h : Placing s₀ doc a) (htable : payload.table = .empty)
    (hleaf : payload.nodeKind = .code) : Continues s₀ a (a.place payload line) := by
  rw [Assembly.place]
  split
  · exact .refl h.built
  · rename_i p hp
    obtain ⟨hnew, hopen, -⟩ := h.current? hp
    have hel : payload.isElement = false := by
      cases payload <;> first | rfl | cases hleaf
    refine ⟨?_, rfl, rfl, rfl⟩
    rcases hopen with hk | hk
    · exact (Adds.refl h.built).addBelow hnew rfl htable hel hk (by rw [hleaf]; rfl)
    · exact (Adds.refl h.built).addBelow hnew rfl htable hel hk (by rw [hleaf]; rfl)

/-- Events that add no element and close none. -/
def IsQuiet : Event → Prop
  | .startDocument | .startTag _ | .endTag _ | .endDocument => False
  | _ => True

theorem isQuiet_of_isMisc (h : Markup.Trace.IsMisc e) : IsQuiet e := by
  cases e <;> trivial

theorem Placing.take (h : Placing s₀ doc a) (he : IsQuiet e) :
    ∃ a', a.take r line e = (.ok (), a') ∧ Continues s₀ a a' := by
  cases e with
  | startDocument | startTag _ | endTag _ | endDocument => exact he.elim
  | locator | declaration _ _ _ | comment _ => exact ⟨a, rfl, .refl h.built⟩
  | doctype raw => exact ⟨_, rfl, h.place rfl rfl⟩
  | instruction target data =>
    refine ⟨_, rfl, h.place ?_ ?_⟩
    · rw [instructionPayload]
      repeat' split
      all_goals rfl
    · rw [instructionPayload]
      repeat' split
      all_goals rfl
  | characters t => exact ⟨_, rfl, ⟨.refl h.built, rfl, rfl, rfl⟩⟩
  | cdata t =>
    rw [Assembly.take]
    split
    · exact ⟨a, rfl, .refl h.built⟩
    · rename_i p hp
      obtain ⟨hnew, hopen, -⟩ := h.current? hp
      exact ⟨_, rfl, .appendToText h.built hnew hopen rfl rfl rfl, rfl, rfl, rfl⟩

/-! ### Elements -/

/-- A start tag that is accepted adds its element to the innermost open node. -/
theorem Placing.startElement {tag : Tag} (h : Placing s₀ doc a) (hcurrent : a.current? = some n)
    (hok : a.startElement r line tag = (.ok (), a')) :
    ¬ hasOnlyRoot a.store n ∧ Placing s₀ doc a' ∧ ∃ o m, openingOf r line tag a.bindings = .ok o ∧
      Gains a.store a'.store (some n) o m ∧ a'.opened = m :: a.opened := by
  obtain ⟨hnew, hopen, hup⟩ := h.current? hcurrent
  rw [Assembly.startElement] at hok
  cases ho : openingOf r line tag a.bindings with
  | error e => simp [ho] at hok
  | ok o =>
    rw [ho, hcurrent] at hok
    dsimp only at hok
    split at hok
    · cases hok
    rename_i hroot
    obtain ⟨hb, hg⟩ := h.built.withElement o line (openingOf_names ho)
    obtain ⟨hb', hg'⟩ := hg.attachLast h.built hb hnew hopen
    cases hok
    rw [Assembly.enter]
    refine ⟨hroot, ⟨hb', h.document, h.new, (hg'.standing doc h.has).trans h.alone, ?_, ?_, ?_⟩,
      o, _, rfl, hg', rfl⟩
    · rw [Store.document?, hg'.kept doc h.has, ← Store.document?]
      exact h.data
    · intro m hm he
      by_cases hhas : a.store.Has m
      · exact (hg'.above_iff h.built hhas).mpr (h.elements m hm ((hg'.isElement_iff hhas).mp he))
      · rw [hg'.only m hhas he]
        exact ((hg'.above_iff h.built hopen.has).mpr hup).trans (.of_parent? hg'.parent?)
    · rintro y (_ | ⟨_, hy⟩)
      · exact ⟨fun hn => hg'.new (h.built.has hn), .inr hg'.kind?,
          ((hg'.above_iff h.built hopen.has).mpr hup).trans (.of_parent? hg'.parent?)⟩
      · obtain ⟨hnew, hopen, hup⟩ := h.opened y hy
        exact ⟨hnew, hg'.isOpen hopen, (hg'.above_iff h.built hopen.has).mpr hup⟩

/-! ### The root element -/

/-- Before the first start tag only the document is open, and no element is below it. -/
structure Unrooted (doc : NodeId) (a : Assembly) : Prop where
  opened : a.opened = [doc]
  bindings : a.bindings = .initial
  bare (c : NodeId) : a.store.parent? c = some doc → ¬ a.store.isElement c

end Assembly

/-- A document with its root element, which is the only element directly below it. -/
structure Store.Rooted (s : Store) (doc root : NodeId) : Prop where
  parent? : s.parent? root = some doc
  isElement : s.isElement root
  only (c : NodeId) : s.parent? c = some doc → s.isElement c → c = root

namespace Assembly

theorem Unrooted.continues (h : Unrooted doc a) (hc : Continues s₀ a a') : Unrooted doc a' where
  opened := hc.opened.trans h.opened
  bindings := hc.bindings.trans h.bindings
  bare c hp he := by
    by_cases hn : a.store.Has c
    · exact h.bare c ((hc.adds.parent? c hn).symm.trans hp) ((hc.adds.isElement_iff hn).mp he)
    · exact hc.adds.leaf c hn he

/-- Afterwards the document has a root element with a known tag. -/
structure Standing (s₀ : Store) (doc root : NodeId) (t : NodeKind × Option Int × Text)
    (a : Assembly) : Prop where
  placing : Placing s₀ doc a
  rooted : a.store.Rooted doc root
  tag? : a.store.tag? root = some t

theorem Standing.continues (h : Standing s₀ doc root t a) (hc : Continues s₀ a a') :
    Standing s₀ doc root t a' := by
  have hhas := Store.has_of_isElement h.rooted.isElement
  refine ⟨h.placing.continues hc, ⟨(hc.adds.parent? root hhas).trans h.rooted.parent?,
    (hc.adds.isElement_iff hhas).mpr h.rooted.isElement, fun c hp he => ?_⟩,
    hc.adds.tag? root t h.tag?⟩
  by_cases hn : a.store.Has c
  · exact h.rooted.only c ((hc.adds.parent? c hn).symm.trans hp) ((hc.adds.isElement_iff hn).mp he)
  · exact absurd he (hc.adds.leaf c hn)

/-- The first start tag gives the root element. -/
theorem Unrooted.startElement {tag : Tag} (h : Unrooted doc a) (hplacing : Placing s₀ doc a)
    (hok : a.startElement r line tag = (.ok (), a')) :
    ∃ o root, openingOf r line tag .initial = .ok o ∧
      Standing s₀ doc root (.element, o.element.uri, o.element.name) a' ∧
      a'.opened = [root, doc] := by
  have hcurrent : a.current? = some doc := by rw [Assembly.current?, h.opened]; rfl
  obtain ⟨-, hplacing', o, n, ho, hg, hopened⟩ := hplacing.startElement hcurrent hok
  rw [h.bindings] at ho
  rw [h.opened] at hopened
  refine ⟨o, n, ho, ⟨hplacing', ⟨hg.parent?, Store.isElement_iff_tag?.mpr ⟨_, hg.tag?⟩,
    fun c hp he => ?_⟩, hg.tag?⟩, hopened⟩
  by_cases hn : a.store.Has c
  · exact absurd ((hg.isElement_iff hn).mp he) (h.bare c ((hg.standing c hn).symm.trans hp))
  · exact hg.only c hn he

/-- Further elements stand below it. -/
theorem Standing.startElement {tag : Tag} (h : Standing s₀ doc root t a) (hopen : a.opened ≠ [])
    (hok : a.startElement r line tag = (.ok (), a')) :
    Standing s₀ doc root t a' ∧ ∃ n, a'.opened = n :: a.opened := by
  obtain ⟨x, xs, hx⟩ := List.exists_cons_of_ne_nil hopen
  have hcurrent : a.current? = some x := by rw [Assembly.current?, hx]; rfl
  obtain ⟨hroot, hplacing, o, n, -, hg, hopened⟩ := h.placing.startElement hcurrent hok
  have hhas := Store.has_of_isElement h.rooted.isElement
  have honly : hasOnlyRoot a.store doc := by
    rw [hasOnlyRoot, h.placing.single, Bool.true_and, Store.rootElement?, List.find?_isSome]
    exact ⟨root, h.placing.built.wellFormed.mem_children.mpr h.rooted.parent?, h.rooted.isElement⟩
  refine ⟨⟨hplacing, ⟨(hg.standing root hhas).trans h.rooted.parent?,
    (hg.isElement_iff hhas).mpr h.rooted.isElement, fun c hp he => ?_⟩,
    (hg.tag?_kept hhas).trans h.tag?⟩, _, hopened⟩
  by_cases hn : a.store.Has c
  · exact h.rooted.only c ((hg.standing c hn).symm.trans hp) ((hg.isElement_iff hn).mp he)
  · obtain rfl := hg.only c hn he
    rw [hg.parent?] at hp
    exact absurd (Option.some.inj hp ▸ honly) hroot

/-! ### Events -/

/-- The document is a new node without content. -/
theorem startDocument_placing (hw : s₀.WellFormed) (ho : s₀.Owned) (hl : s₀.Labelled) :
    ∃ doc, Placing s₀ doc (startDocument line { store := s₀ }) ∧
      Unrooted doc (startDocument line { store := s₀ }) := by
  rw [Assembly.startDocument]
  dsimp only
  generalize hnode : ({ payload := .document { type := "xml", singleRoot := true }, line } : Node) =
    node
  have hlinks : node.links = {} := by rw [← hnode]
  have hpayload : node.payload = .document { type := "xml", singleRoot := true } := by rw [← hnode]
  have hnew : ¬ s₀.Has (s₀.add node).1 := Store.not_has_add
  have hadd : Adds s₀ s₀ (s₀.add node).2 :=
    (Adds.refl (.refl hw ho hl)).add hlinks (by rw [hpayload]; rfl) (by rw [hpayload]; rfl)
  obtain ⟨hfree, hchildless⟩ := hw.fresh (.add hlinks) hnew
  refine ⟨_, ⟨hadd.after, rfl, hnew, hfree, ?_, fun n hn he => absurd he (hadd.leaf n hn), ?_⟩,
    rfl, rfl, fun c hp => absurd hp (hchildless c)⟩
  · rw [Store.document?, Store.payload?_add, if_pos rfl, hpayload]
  · intro x hx
    obtain rfl := List.mem_singleton.mp hx
    refine ⟨hnew, .inl ?_, .refl _⟩
    rw [Store.kind?_add_self, hpayload]
    rfl

theorem isQuiet_of_isProlog (h : Markup.IsProlog e) : IsQuiet e := by
  cases e <;> trivial

theorem isQuiet_of_isLeaf (h : Markup.Trace.IsLeaf e) : IsQuiet e := by
  cases e <;> trivial

variable {l : Located}

theorem Placing.receive_quiet (h : Placing s₀ doc a) (he : IsQuiet l.event)
    (hok : receive r l a = (.ok (), a')) : Continues s₀ a a' := by
  have hflush : Continues s₀ a (if endsText l.event then a.flush r else a) := by
    split
    · exact h.flush
    · exact .refl h.built
  obtain ⟨x, hx, hc⟩ : ∃ x, Assembly.take r l.position.line _ l.event = (.ok (), x) ∧
      Continues s₀ _ x :=
    (h.continues hflush).take he
  rw [receive, hx] at hok
  cases hok
  exact hflush.trans hc

/-- Before the first start tag. -/
theorem prolog_deliver {ls : List Located} (h : Placing s₀ doc a) (hu : Unrooted doc a)
    (hls : ∀ l ∈ ls, Markup.IsProlog l.event)
    (hok : Markup.deliver (receive r) ls a = (none, a')) : Placing s₀ doc a' ∧ Unrooted doc a' := by
  induction ls generalizing a with
  | nil =>
    cases hok
    exact ⟨h, hu⟩
  | cons l ls ih =>
    obtain ⟨x, hx, hok⟩ := Markup.deliver_cons hok
    have hc := h.receive_quiet (isQuiet_of_isProlog (hls l List.mem_cons_self)) hx
    exact ih (h.continues hc) (hu.continues hc) (fun m hm => hls m (List.mem_cons_of_mem _ hm)) hok

/-- The innermost node is closed. -/
theorem Standing.close (h : Standing s₀ doc root t a) :
    Standing s₀ doc root t a.leave where
  placing :=
    { built := h.placing.built
      document := h.placing.document
      new := h.placing.new
      alone := h.placing.alone
      data := h.placing.data
      elements := h.placing.elements
      opened := fun x hx => h.placing.opened x (List.mem_of_mem_tail hx) }
  rooted := h.rooted
  tag? := h.tag?

theorem Standing.receive_quiet (h : Standing s₀ doc root t a) (he : IsQuiet l.event)
    (hok : receive r l a = (.ok (), a')) : Standing s₀ doc root t a' ∧ a'.opened = a.opened :=
  have hc := h.placing.receive_quiet he hok
  ⟨h.continues hc, hc.opened⟩

theorem Standing.receive_startTag {tag : Tag} (h : Standing s₀ doc root t a) (hopen : a.opened ≠ [])
    (he : l.event = .startTag tag) (hok : receive r l a = (.ok (), a')) :
    Standing s₀ doc root t a' ∧ ∃ n, a'.opened = n :: a.opened := by
  have hc := h.placing.flush (r := r)
  rw [receive, he] at hok
  rw [← hc.opened] at hopen ⊢
  exact (h.continues hc).startElement hopen hok

theorem Standing.receive_endTag {tag : Tag} (h : Standing s₀ doc root t a)
    (he : l.event = .endTag tag) (hok : receive r l a = (.ok (), a')) :
    Standing s₀ doc root t a' ∧ a'.opened = a.opened.tail := by
  have hc := h.placing.flush (r := r)
  rw [receive, he] at hok
  cases hok
  exact ⟨(h.continues hc).close, congrArg List.tail hc.opened⟩

theorem Standing.receive_endDocument (h : Standing s₀ doc root t a)
    (he : l.event = .endDocument) (hok : receive r l a = (.ok (), a')) :
    Standing s₀ doc root t a' := by
  rw [receive, he] at hok
  cases hok
  exact (h.continues h.placing.flush).close

/-- The content of an element is closed again. -/
theorem Standing.deliver_content {es : List Event} {ls : List Located}
    (hcontent : Markup.Trace.Content es)
    (hls : ls.map Located.event = es) (h : Standing s₀ doc root t a) (hopen : a.opened ≠ [])
    (hok : Markup.deliver (receive r) ls a = (none, a')) :
    Standing s₀ doc root t a' ∧ a'.opened = a.opened := by
  induction hcontent generalizing ls a a' with
  | nil =>
    obtain rfl := List.map_eq_nil_iff.mp hls
    cases hok
    exact ⟨h, rfl⟩
  | leaf he _ ih =>
    obtain ⟨l, ls, rfl, rfl, hrest⟩ := List.map_eq_cons_iff.mp hls
    obtain ⟨x, hx, hok⟩ := Markup.deliver_cons hok
    obtain ⟨hx', hopened⟩ := h.receive_quiet (isQuiet_of_isLeaf he) hx
    obtain ⟨ha, hopened'⟩ := ih hrest hx' (hopened ▸ hopen) hok
    exact ⟨ha, hopened'.trans hopened⟩
  | empty _ _ ih =>
    obtain ⟨l, ls, rfl, hl, hls⟩ := List.map_eq_cons_iff.mp hls
    obtain ⟨l', ls, rfl, hl', hls⟩ := List.map_eq_cons_iff.mp hls
    obtain ⟨x, hx, hok⟩ := Markup.deliver_cons hok
    obtain ⟨y, hy, hok⟩ := Markup.deliver_cons hok
    obtain ⟨hx', n, hn⟩ := h.receive_startTag hopen hl hx
    obtain ⟨hy', hopened⟩ := hx'.receive_endTag hl' hy
    rw [hn, List.tail_cons] at hopened
    obtain ⟨ha, hopened'⟩ := ih hls hy' (hopened ▸ hopen) hok
    exact ⟨ha, hopened'.trans hopened⟩
  | element _ _ _ _ ih ih' =>
    rw [List.cons_append] at hls
    obtain ⟨l, ls, rfl, hl, hls⟩ := List.map_eq_cons_iff.mp hls
    obtain ⟨inner, ls, rfl, hinner, hls⟩ := List.map_eq_append_iff.mp hls
    obtain ⟨l', ls, rfl, hl', hls⟩ := List.map_eq_cons_iff.mp hls
    obtain ⟨x, hx, hok⟩ := Markup.deliver_cons hok
    obtain ⟨y, hy, hok⟩ := Markup.deliver_append hok
    obtain ⟨z, hz, hok⟩ := Markup.deliver_cons hok
    obtain ⟨hx', n, hn⟩ := h.receive_startTag hopen hl hx
    obtain ⟨hy', hopened⟩ := ih hinner hx' (by simp [hn]) hy
    obtain ⟨hz', hopened'⟩ := hy'.receive_endTag hl' hz
    rw [hopened, hn, List.tail_cons] at hopened'
    obtain ⟨ha, hopened''⟩ := ih' hls hz' (hopened' ▸ hopen) hok
    exact ⟨ha, hopened''.trans hopened'⟩

/-- Behind the root element. -/
theorem Standing.deliver_miscs {ls : List Located} (hls : ∀ l ∈ ls, Markup.Trace.IsMisc l.event)
    (h : Standing s₀ doc root t a) (hok : Markup.deliver (receive r) ls a = (none, a')) :
    Standing s₀ doc root t a' := by
  induction ls generalizing a with
  | nil =>
    cases hok
    exact h
  | cons l ls ih =>
    obtain ⟨x, hx, hok⟩ := Markup.deliver_cons hok
    have hquiet := isQuiet_of_isMisc (hls l List.mem_cons_self)
    exact ih (fun m hm => hls m (List.mem_cons_of_mem _ hm)) (h.receive_quiet hquiet hx).1 hok

end Assembly

/-! ### Sources -/

/-- The root element of a source, as far as the source can be read; without its attributes. -/
def rootOf? [Encoding.Decoders] (d : Dialect) (source : Text) : Option ElementData :=
  (Markup.rootTag? source).bind fun (line, tag) =>
    (Assembly.openingOf (some d.resolver) line tag .initial).toOption.map (·.element)

/-- The source can be parsed. -/
def Parses [Encoding.Decoders] (d : Dialect) (source : Text) : Prop :=
  ∃ s a, ofSource (some d.resolver) false source s = (.ok (), a)

/-- A tree that was parsed: a document with the root element of the source. -/
structure Parsed (s₀ s : Store) (doc : NodeId) (e : ElementData) : Prop where
  built : Built s₀ s
  new : ¬ s₀.Has doc
  alone : s.parent? doc = none
  entire : s.Entire doc
  elements (n : NodeId) : ¬ s₀.Has n → s.isElement n → s.Above doc n
  root : ∃ root, s.Rooted doc root ∧ s.tag? root = some (.element, e.uri, e.name)

theorem rootTag?_eq [Encoding.Decoders] {source : Text} {cs : List Char}
    {pre rest : List Located} {l : Located}
    {tag : Tag} {ending : Markup.Ending}
    (hcs : (Markup.decodeSource source : Except (Markup.ReadError AssemblyError) (List Char)) =
      .ok cs)
    (hscan : Markup.scan false cs = (pre ++ l :: rest, ending))
    (hpre : ∀ m ∈ pre, ∀ tag, m.event ≠ .startTag tag) (hl : l.event = .startTag tag) :
    Markup.rootTag? source = some (l.position.line, tag) := by
  rw [Markup.rootTag?, Markup.decodeSource_eq_ok hcs]
  dsimp only
  rw [hscan]
  dsimp only
  rw [List.findSome?_append, List.findSome?_eq_none_iff.mpr fun m hm => ?_, List.findSome?_cons, hl]
  · rfl
  · split
    · rename_i tag htag
      exact absurd htag (hpre m hm tag)
    · rfl

/-- What the events of a document are assembled to. -/
theorem standing_of_deliver {ls : List Located} (hw : s₀.WellFormed) (ho : s₀.Owned)
    (hl : s₀.Labelled) (hcomplete : ls.map Located.event ∈ Markup.Trace.complete)
    (hok : Markup.deliver (Assembly.receive r) ls { store := s₀ } = (none, a)) :
    ∃ pre l tag rest o doc root, ls = pre ++ l :: rest ∧
      (∀ m ∈ pre, ∀ tag, m.event ≠ .startTag tag) ∧ l.event = .startTag tag ∧
      Assembly.openingOf r l.position.line tag .initial = .ok o ∧
      Assembly.Standing s₀ doc root (.element, o.element.uri, o.element.name) a := by
  obtain ⟨pre, tag, inner, tag', after, hevents, hpre, hinner, -, hafter⟩ :=
    Markup.exists_root_of_complete hcomplete
  obtain ⟨l₀, ls₁, rfl, h₀, hls₁⟩ := List.map_eq_cons_iff.mp hevents
  obtain ⟨l₁, ls₂, rfl, h₁, hls₂⟩ := List.map_eq_cons_iff.mp hls₁
  obtain ⟨pre, ls₃, rfl, rfl, hls₃⟩ := List.map_eq_append_iff.mp hls₂
  obtain ⟨l, ls₄, rfl, hl', hls₄⟩ := List.map_eq_cons_iff.mp hls₃
  obtain ⟨inner, ls₅, rfl, rfl, hls₅⟩ := List.map_eq_append_iff.mp hls₄
  obtain ⟨l', ls₆, rfl, hend, hls₆⟩ := List.map_eq_cons_iff.mp hls₅
  obtain ⟨after, ls₇, rfl, rfl, hls₇⟩ := List.map_eq_append_iff.mp hls₆
  obtain ⟨l'', ls₈, rfl, hend', hls₈⟩ := List.map_eq_cons_iff.mp hls₇
  obtain rfl := List.map_eq_nil_iff.mp hls₈
  have hpre' : ∀ l ∈ pre, Markup.IsProlog l.event := fun l hl => hpre _ (List.mem_map_of_mem hl)
  have hafter' : ∀ l ∈ after, Markup.Trace.IsMisc l.event := fun l hl =>
    hafter _ (List.mem_map_of_mem hl)
  -- the document is started, and what comes before the root element leaves it bare
  obtain ⟨doc, hplacing, hunrooted⟩ : ∃ doc,
      Assembly.Placing s₀ doc (Assembly.startDocument l₁.position.line { store := s₀ }) ∧
        Assembly.Unrooted doc (Assembly.startDocument l₁.position.line { store := s₀ }) :=
    Assembly.startDocument_placing hw ho hl
  obtain ⟨x₀, hx₀, hok⟩ := Markup.deliver_cons hok
  obtain ⟨x₁, hx₁, hok⟩ := Markup.deliver_cons hok
  rw [Assembly.receive, h₀] at hx₀
  cases hx₀
  rw [Assembly.receive, h₁] at hx₁
  cases hx₁
  obtain ⟨y, hy, hok⟩ := Markup.deliver_append hok
  obtain ⟨hplacing, hunrooted⟩ := Assembly.prolog_deliver hplacing hunrooted hpre' hy
  -- the root element is opened, filled and closed
  obtain ⟨z, hz, hok⟩ := Markup.deliver_cons hok
  rw [Assembly.receive, hl'] at hz
  have hflush := hplacing.flush (r := r)
  obtain ⟨o, root, hopening, hstanding, hopened⟩ :=
    (hunrooted.continues hflush).startElement (hplacing.continues hflush) hz
  obtain ⟨z₁, hz₁, hok⟩ := Markup.deliver_append hok
  obtain ⟨z₂, hz₂, hok⟩ := Markup.deliver_cons hok
  obtain ⟨z₃, hz₃, hok⟩ := Markup.deliver_append hok
  have hstanding := (hstanding.deliver_content hinner rfl (by simp [hopened]) hz₁).1
  have hstanding := (hstanding.receive_endTag hend hz₂).1
  have hstanding := hstanding.deliver_miscs hafter' hz₃
  obtain ⟨z₄, hz₄, hok⟩ := Markup.deliver_cons hok
  cases hok
  refine ⟨l₀ :: l₁ :: pre, l, tag, inner ++ l' :: (after ++ [l'']), o, doc, root, rfl, ?_, hl',
    hopening, hstanding.receive_endDocument hend' hz₄⟩
  rintro m (_ | ⟨_, _ | ⟨_, hm⟩⟩) tag he
  · simp [h₀] at he
  · simp [h₁] at he
  · have := hpre' m hm
    simp [he, Markup.IsProlog, Markup.Trace.IsMisc] at this

/-- What a source is parsed to. -/
theorem parsed_of_ofSource [Encoding.Decoders] {d : Dialect} {source : Text}
    (hw : s₀.WellFormed) (ho : s₀.Owned)
    (hl : s₀.Labelled) (h : ofSource (some d.resolver) false source s₀ = (.ok (), a)) :
    ∃ doc e, a.document = some doc ∧ rootOf? d source = some e ∧ Parsed s₀ a.store doc e := by
  rw [ofSource, Markup.read] at h
  split at h
  · cases h
  rename_i cs hcs
  dsimp only at h
  generalize hscan : Markup.scan false cs = result at h
  obtain ⟨events, ending⟩ := result
  dsimp only at h
  split at h
  · cases h
  rename_i x hdeliver
  obtain ⟨rfl, rfl⟩ : ending = .complete ∧ x = a := by
    cases ending <;> simp_all
  obtain ⟨-, hcomplete, -⟩ | ⟨hne, -⟩ := Markup.scan_shape hscan
  · obtain ⟨pre, l, tag, rest, o, doc, root, rfl, hpre, hl', hopening, hstanding⟩ :=
      standing_of_deliver hw ho hl hcomplete hdeliver
    have hplacing := hstanding.placing
    refine ⟨doc, o.element, hplacing.document, ?_, hplacing.built, hplacing.new, hplacing.alone,
      hplacing.entire, hplacing.elements, root, hstanding.rooted, hstanding.tag?⟩
    rw [rootOf?, rootTag?_eq hcs hscan hpre hl', Option.bind_some]
    dsimp only
    rw [hopening]
    rfl
  · exact absurd rfl hne

end Tree

open Stencil.Tree in
/-- What a template is parsed to within a session. -/
theorem parseSource_yields [Encoding.Decoders] {d : Dialect} {source : Text} {s : Session}
    (hw : s.store.WellFormed)
    (ho : s.store.Owned) (hl : s.store.Labelled) (hc : s.canceled = false) :
    (parseSource d source).Yields s fun doc s' =>
      Parses d source ∧ ∃ e, rootOf? d source = some e ∧ Parsed s.store s'.store doc e ∧
        s' = { s with store := s'.store } := by
  intro doc s' h
  rw [parseSource, hc] at h
  split at h
  · cases h
  · rename_i a ha
    cases h
    obtain ⟨doc, e, hdoc, hroot, hparsed⟩ := parsed_of_ofSource hw ho hl ha
    rw [hdoc]
    exact ⟨⟨s.store, a, ha⟩, e, hroot, hparsed, by rw [hc]⟩

end Stencil
