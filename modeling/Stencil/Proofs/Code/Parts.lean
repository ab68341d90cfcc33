import Stencil.Proofs.Code.Rendering
import Stencil.Proofs.Tree.Views

/-!
# Linking the parts of a tree

Any node can be linked on its own, not only a document. A visible document without code of its own
comes out as its visible children come out when each of them is linked alone: the texts follow each
other, and so do the dynamic expressions, since a document does not count as dynamic. An invisible
one comes out empty, whatever stands below it.

What comes out of a tree depends on the data of its nodes and of their attributes, and on the tables
beside it. So it can be taken to another store in which these are the same.

## Main definitions

* `Linkable.Writes` – what linking a node gives
* `Linkable.Matches` – a node is the same in two stores

## Main results

* `Linkable.writes_document` – a document is linked child by child
* `Linkable.writes_of_invisible` – an invisible node
* `Linkable.Writes.congr` – linking in another store
-/

namespace Stencil.Code.Linkable

open Stencil.Tree (NodeId Store Shape Payload DocumentData ElementData TreeError Visitor)

variable {l l' : Linkable} {n m : NodeId} {t : Shape} {o o' : LinkOutput}

/-- Linking a node gives the output. -/
def Writes (l : Linkable) (n : NodeId) (o : LinkOutput) : Prop := ∃ ps, l.link n = some (.ok o, ps)

theorem Writes.unique (h : l.Writes n o) (h' : l.Writes n o') : o = o' := by
  obtain ⟨ps, h⟩ := h
  obtain ⟨ps', h'⟩ := h'
  rw [h] at h'
  cases h'
  rfl

theorem writes_of_shaped (h : l.store.WellFormed) (ht : l.store.Shaped t)
    (hhas : l.store.Has t.root) (hattr : ∀ a, l.store.payload? t.root ≠ some (.attr a)) :
    l.Writes t.root ⟨l.render t, l.dynamicBlocks t⟩ := by
  obtain ⟨s, hlink, -⟩ := link_shaped l.properties h ht hhas hattr fun _ => rfl
  exact ⟨s.properties, hlink⟩

/-- Whatever can stand below something can be linked alone. -/
theorem writes_of_placeable (h : l.store.WellFormed) (ht : l.store.Shaped t)
    (hn : l.store.Placeable t.root) : l.Writes t.root ⟨l.render t, l.dynamicBlocks t⟩ := by
  refine writes_of_shaped h ht hn.has fun a ha => hn.kind_ne.2 ?_
  rw [Store.kind?, ha]
  rfl

theorem exists_forall₂_writes {ns : List NodeId} (h : l.store.WellFormed)
    (hns : ∀ n ∈ ns, l.store.Placeable n) : ∃ os, ns.Forall₂ l.Writes os := by
  induction ns with
  | nil => exact ⟨[], .nil⟩
  | cons n ns ih =>
    obtain ⟨t, rfl, ht⟩ := h.exists_shaped n
    obtain ⟨os, hos⟩ := ih fun n hn => hns n (List.mem_cons_of_mem _ hn)
    exact ⟨_ :: os, .cons (writes_of_placeable h ht (hns t.root List.mem_cons_self)) hos⟩

/-- **Nothing is written for an invisible node**, whatever stands below it. -/
theorem writes_of_invisible (hn : l.store.isVisible n = false) : l.Writes n ⟨[], []⟩ := by
  have hskip : l.visitor.skips n { properties := l.properties } := by
    change (true && !l.store.isVisible n) = true
    rw [hn]
    rfl
  refine ⟨l.properties, ?_⟩
  rw [link, Visitor.walk, Store.walkLimit, Visitor.loop, if_pos hskip, Visitor.loop]
  rfl

/-! ### Documents -/

/-- A visible node that is not marked as dynamic does not matter for the expressions below it. -/
theorem blocksBelow_singleton (hvisible : l.store.isVisible n)
    (hplain : l.isDynamicElement n = false)
    (t : Shape) : l.blocksBelow [n] t = l.dynamicBlocks t := by
  have hblock : ∀ p : List NodeId × NodeId, l.isBlock ([n] ++ p.1, p.2) = l.isBlock p := by
    intro p
    simp [isBlock, hvisible, hplain]
  rw [blocksBelow, dynamicBlocks, List.filter_map, List.map_map]
  simp only [Function.comp_def, hblock]

/-- The children of a node, each with what is written for it. -/
theorem forall₂_render (h : l.store.WellFormed) {below : List Shape} {os : List LinkOutput}
    (hbelow : ∀ t ∈ below, l.store.Shaped t ∧ l.store.Has t.root ∧
      ∀ a, l.store.payload? t.root ≠ some (.attr a))
    (hos : ((below.map Shape.root).filter l.store.isVisible).Forall₂ l.Writes os) :
    below.flatMap l.render = os.flatMap (·.text) ∧
      below.flatMap l.dynamicBlocks = os.flatMap (·.dynamic) := by
  induction below generalizing os with
  | nil =>
    cases hos
    exact ⟨rfl, rfl⟩
  | cons t below ih =>
    obtain ⟨ht, hhas, hattr⟩ := hbelow t List.mem_cons_self
    have hwrites := writes_of_shaped h ht hhas hattr
    have hrest := fun d hd => hbelow d (List.mem_cons_of_mem t hd)
    rw [List.map_cons, List.filter_cons] at hos
    rw [List.flatMap_cons, List.flatMap_cons]
    split at hos
    · obtain ⟨o, os', ho, hos', rfl⟩ := List.forall₂_cons_left_iff.mp hos
      obtain rfl := hwrites.unique ho
      obtain ⟨htext, hblocks⟩ := ih hrest hos'
      exact ⟨congrArg (_ ++ ·) htext, congrArg (_ ++ ·) hblocks⟩
    · rename_i hhidden
      have hempty := hwrites.unique (writes_of_invisible (Bool.eq_false_iff.mpr hhidden))
      obtain ⟨hnotext, hnoblocks⟩ := LinkOutput.mk.inj hempty
      rw [hnotext, hnoblocks]
      exact ih hrest hos

/-- **A document is linked child by child**, if it is visible and no code is kept for it. -/
theorem writes_document {d : DocumentData} {os : List LinkOutput} (h : l.store.WellFormed)
    (hn : l.store.payload? n = some (.document d)) (hvisible : l.store.isVisible n)
    (hcode : l.buffers.get? n = none)
    (hos : ((l.store.children n).filter l.store.isVisible).Forall₂ l.Writes os) :
    l.Writes n ⟨os.flatMap (·.text), os.flatMap (·.dynamic)⟩ := by
  obtain ⟨⟨n', below⟩, rfl, ht⟩ := h.exists_shaped n
  change l.store.payload? n' = _ at hn
  change l.store.isVisible n' = true at hvisible
  change l.buffers.get? n' = none at hcode
  have hwrites : l.Writes n' ⟨_, _⟩ := writes_of_shaped (t := .node n' below) h ht
    (Store.has_of_kind? (k := .document) (by
      rw [Shape.root, Store.kind?, hn]
      rfl))
    fun a ha => by
      rw [Shape.root, hn] at ha
      cases ha
  have hbelow : ∀ t ∈ below, l.store.Shaped t ∧ l.store.Has t.root ∧
      ∀ a, l.store.payload? t.root ≠ some (.attr a) := by
    intro t hmem
    have hparent := ht.parent? h t hmem
    refine ⟨?_, Store.has_of_parent? hparent, fun a ha => ?_⟩
    · cases ht with
      | node _ hshaped => exact hshaped t hmem
    · rw [h.consistent.attr t.root a ha] at hparent
      cases hparent
  have hchildren : below.map Shape.root = l.store.children n' := by
    cases ht with
    | node hroots _ => exact hroots
  obtain ⟨htext, hblocks⟩ := forall₂_render h hbelow (hchildren ▸ hos)
  have hnocode : ∀ slot, l.code n' [slot] = [] := fun slot => by
    rw [code, buffersOf, hcode]
    rfl
  have hplain : l.isDynamicElement n' = false := by
    simp [isDynamicElement, Store.isElement, Store.element?, hn]
  have hrender : l.render (.node n' below) = os.flatMap (·.text) := by
    rw [render_node, if_pos hvisible, nodeText, hn]
    dsimp only
    rw [hnocode, hnocode, htext, List.nil_append, List.append_nil]
  have hdynamic : l.dynamicBlocks (.node n' below) = os.flatMap (·.dynamic) := by
    have hnoblock : l.isBlock ([], n') = false := by simp [isBlock]
    rw [← blocksBelow_nil, blocksBelow_node, hnoblock, if_neg Bool.false_ne_true, List.nil_append,
      List.nil_append, ← hblocks]
    exact congrArg (below.flatMap ·) (funext (blocksBelow_singleton hvisible hplain))
  rw [hrender, hdynamic] at hwrites
  exact hwrites

/-! ### Another store -/

/-- A node is the same in both stores, as far as linking is concerned. -/
structure Matches (s s' : Store) (n : NodeId) : Prop where
  payload? : s'.payload? n = s.payload? n
  isVisible : s'.isVisible n = s.isVisible n
  children : s'.children n = s.children n
  attributes (a : NodeId) : a ∈ s.attributes n → s'.payload? a = s.payload? a

variable {s' : Store}

theorem Matches.attributesText (h : Matches l.store s' n) :
    ({ l with store := s' } : Linkable).attributesText n = l.attributesText n := by
  have hlist : s'.attributes n = l.store.attributes n := Store.attributes_congr h.payload?
  have hone : ∀ a ∈ l.store.attributes n,
      ({ l with store := s' } : Linkable).attributeText a = l.attributeText a := by
    intro a ha
    rw [attributeText, Store.attr?, h.attributes a ha, ← Store.attr?, ← attributeText]
  rw [Linkable.attributesText, hlist, List.flatMap_congr hone]
  rfl

theorem Matches.nodeText (h : Matches l.store s' n) (childless : Bool) (inner : Text) :
    ({ l with store := s' } : Linkable).nodeText n childless inner =
    l.nodeText n childless inner := by
  have hname : ({ l with store := s' } : Linkable).tagName n = l.tagName n := by
    rw [tagName, Store.label, h.payload?, ← Store.label]
    rfl
  have helement : ∀ e, ({ l with store := s' } : Linkable).elementText n e childless inner =
      l.elementText n e childless inner := by
    intro e
    rw [elementText, hname, h.attributesText]
    rfl
  rw [Linkable.nodeText, h.payload?, Linkable.nodeText]
  split
  all_goals first | exact helement _ | rfl

theorem render_congr (h : ∀ m ∈ t.ids, Matches l.store s' m) :
    ({ l with store := s' } : Linkable).render t = l.render t := by
  induction t with
  | node n below ih =>
    have hn := h n (Shape.root_mem_ids (.node n below))
    have hbelow : ∀ t ∈ below, ({ l with store := s' } : Linkable).render t = l.render t :=
      fun t ht => ih t ht fun m hm => h m (Shape.mem_ids_of_mem_below ht hm)
    rw [render_node, hn.isVisible, hn.nodeText, List.flatMap_congr hbelow, ← render_node]

/-- A place in a tree consists of nodes of the tree. -/
theorem mem_ids_of_mem_places {p : List NodeId × NodeId} (hp : p ∈ t.places) :
    p.2 ∈ t.ids ∧ ∀ m ∈ p.1, m ∈ t.ids := by
  induction t generalizing p with
  | node n below ih =>
    rw [Shape.places_node, List.mem_cons, List.mem_map] at hp
    obtain rfl | ⟨q, hq, rfl⟩ := hp
    · exact ⟨Shape.root_mem_ids (.node n below), by simp⟩
    · obtain ⟨t, ht, hq⟩ := List.mem_flatMap.mp hq
      obtain ⟨hself, habove⟩ := ih t ht hq
      refine ⟨Shape.mem_ids_of_mem_below ht hself, fun m hm => ?_⟩
      rcases List.mem_cons.mp hm with rfl | hm
      · exact Shape.root_mem_ids (.node m below)
      · exact Shape.mem_ids_of_mem_below ht (habove m hm)

theorem dynamicBlocks_congr (h : ∀ m ∈ t.ids, Matches l.store s' m) :
    ({ l with store := s' } : Linkable).dynamicBlocks t = l.dynamicBlocks t := by
  have helement : ∀ m ∈ t.ids, ({ l with store := s' } : Linkable).isDynamicElement m =
      l.isDynamicElement m := by
    intro m hm
    rw [isDynamicElement, Store.isElement, Store.element?, (h m hm).payload?]
    rfl
  have hchanging : ∀ m ∈ t.ids, ({ l with store := s' } : Linkable).isChanging m =
      l.isChanging m := by
    intro m hm
    rw [isChanging, (h m hm).payload?]
    rfl
  have hblock : ∀ p ∈ t.places, ({ l with store := s' } : Linkable).isBlock p = l.isBlock p := by
    intro p hp
    obtain ⟨hself, habove⟩ := mem_ids_of_mem_places hp
    have hall : p.1.all s'.isVisible = p.1.all l.store.isVisible := by
      rw [Bool.eq_iff_iff, List.all_eq_true, List.all_eq_true]
      exact forall₂_congr fun m hm => by rw [(h m (habove m hm)).isVisible]
    have hany : p.1.any ({ l with store := s' } : Linkable).isDynamicElement =
        p.1.any l.isDynamicElement := by
      rw [Bool.eq_iff_iff, List.any_eq_true, List.any_eq_true]
      exact exists_congr fun m => and_congr_right fun hm => by rw [helement m (habove m hm)]
    rw [isBlock, isBlock, hany, hchanging _ hself, (h _ hself).isVisible, hall]
  rw [dynamicBlocks, List.filter_congr hblock]
  rfl

/-- **Linking in another store** in which a tree is the same gives the same. -/
theorem Writes.congr (hw : l.store.WellFormed) (hw' : s'.WellFormed) (hn : l.store.Placeable n)
    (hsame : ∀ m, l.store.Above n m → Matches l.store s' m) (h : l.Writes n o) :
    ({ l with store := s' } : Linkable).Writes n o := by
  obtain ⟨t, rfl, ht⟩ := hw.exists_shaped n
  have hids : ∀ m ∈ t.ids, Matches l.store s' m := fun m hm => hsame m (ht.above hw hm)
  have hroot := hids t.root (Shape.root_mem_ids t)
  obtain rfl := (writes_of_placeable hw ht hn).unique h
  rw [← render_congr hids, ← dynamicBlocks_congr hids]
  refine writes_of_placeable hw' (ht.of_children fun m hm => (hids m hm).children) ?_
  obtain ⟨k, hk, hne⟩ := hn
  exact ⟨k, by rw [Store.kind?, hroot.payload?, ← Store.kind?, hk], hne⟩

end Stencil.Code.Linkable
