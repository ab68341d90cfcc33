import Stencil.Proofs.Language.Content
import Stencil.Proofs.Language.Loads
import Stencil.Proofs.Language.Loading
import Stencil.Proofs.Language.Steady
import Stencil.Proofs.Language.Visiting
import Stencil.Proofs.Tree.Views

/-!
# The stage that changes the tree, at work on a steady template

Where all templates that are loaded are finished, the stage puts what others get of them in place of
what loads them, and does nothing else. It visits what it has put in place, but there is nothing
left to be done in it.

## Main definitions

* `Tree.Store.Span` – what is below several nodes
* `Language.Exchanged` – children of a node were exchanged
* `Language.Knows` – finished templates are kept, none of them around a node

## Main results

* `Exchanged.cons` – one child after the other
* `Exchanged.node` – a node whose children were exchanged, as a child itself
* `Language.load_exchanges` – in place of a `load`
* `Language.visit_inlines` – a visit to a node
* `Language.manipulation_inlines` – the stage
-/

/-! ## Children that are exchanged

While the tree changes, some children of a node make way for others. This says so of one child
(`Exchanged`), and from it follows what happens to several of them, one after the other, and to the
node that they stand below. Everything that is not below one of these children looks as it did. -/

namespace Stencil

open Stencil.Tree (NodeId Store Content)
open Stencil.Tree.Store (Within Untouched Tidy)

variable {s s' s'' : Session} {n m p : NodeId} {cs out out' : List Content}
  {row rest before after : List NodeId}

/-! ### Nodes next to each other -/

namespace Tree.Store

variable {t t' : Store}

/-- What is below several nodes, and all nodes that do not exist. -/
def Span (t : Store) (row : List NodeId) (m : NodeId) : Prop := (∃ n ∈ row, t.Above n m) ∨ ¬ t.Has m

theorem span_singleton : t.Span [n] = t.Region n := by
  funext m
  simp [Span, Region]

/-- Siblings are connected to the rest by the node that they are below. -/
theorem WellFormed.tidy_span (h : t.WellFormed) (ho : t.Owned)
    (hrow : ∀ n ∈ row, t.parent? n = some p) :
    Tidy (t.Span row) (some p) t where
  wellFormed := h
  owned := ho
  fresh m hm := .inr hm
  down m q hq hR := by
    rcases hR with ⟨n, hn, hup⟩ | hgone
    · exact .inl ⟨n, hn, above_iff.mpr (.inr ⟨q, hq, hup⟩)⟩
    · exact absurd (h.has_parent hq) hgone
  up m q hq hR := by
    rcases hR with ⟨n, hn, hup⟩ | hgone
    · rcases above_iff.mp hup with rfl | ⟨q', hq', hup⟩
      · exact .inr ((hrow n hn).symm.trans hq)
      · obtain rfl := Option.some.inj (hq'.symm.trans hq)
        exact .inl (.inl ⟨n, hn, hup⟩)
    · exact absurd (has_of_parent? hq) hgone

/-- A node that is above no sibling of a row, and below none, has nothing to do with them. -/
theorem not_span_of_above (hm : t.Has m) (hrow : ∀ c ∈ row, ¬ t.Above n c ∧ ¬ t.Above c n)
    (hup : t.Above n m) : ¬ t.Span row m := by
  rintro (⟨c, hc, hcm⟩ | hgone)
  · exact (above_or_above hup hcm).elim (hrow c hc).1 (hrow c hc).2
  · exact hgone hm

end Tree.Store

namespace Language

/-! ### Exchanging children -/

/-- Children of a node were exchanged by a row of nodes that hold these contents. -/
structure Exchanged (p : NodeId) (row : List NodeId) (out : List Content) (s s' : Session) :
    Prop where
  /-- Nothing but the nodes has changed. -/
  rest : s' = { s with store := s'.store }
  within : Within (s.store.Span row) (some p) s.store s'.store
  labelled : s'.store.Labelled
  untouched : Untouched (fun m => m = p ∨ s.store.Span row m) s.store s'.store
  entire (m : NodeId) : s.store.Entire m → s'.store.Entire m
  /-- The node says what it said. -/
  self : s.store.Placeable p →
    s'.store.view p = { s.store.view p with children := s'.store.children p }
  place (before after : List NodeId) : s.store.children p = before ++ row ++ after →
    ∃ new, s'.store.children p = before ++ new ++ after ∧ new.Forall₂ s'.store.Holds out

namespace Exchanged

/-- Everything stays as it is. -/
theorem refl (hw : s.store.WellFormed) (ho : s.store.Owned) (hl : s.store.Labelled)
    (hrow : ∀ c ∈ row, s.store.parent? c = some p) (hcs : row.Forall₂ s.store.Holds cs) :
    Exchanged p row cs s s where
  rest := rfl
  within := (hw.tidy_span ho hrow).within
  labelled := hl
  untouched := .refl _
  entire _ := id
  self _ := rfl
  place _ _ h := ⟨row, h, hcs⟩

/-- Siblings keep what is below them. -/
theorem above_iff (h : Exchanged p row out s s') (hw : s.store.WellFormed) (ho : s.store.Owned)
    (hrow : ∀ c ∈ row, s.store.parent? c = some p) (hn : s.store.parent? n = some p)
    (hnot : n ∉ row) :
    s'.store.Above n m ↔ s.store.Above n m := by
  refine h.within.above_iff (hw.tidy_span ho hrow) ?_ fun q hq => ?_
  · rintro (⟨c, hc, hup⟩ | hgone)
    · exact hw.not_above_siblings (hrow c hc) hn (fun e => hnot (e ▸ hc)) hup (.refl n)
    · exact hgone (Store.has_of_parent? hn)
  · obtain rfl := Option.some.inj hq
    exact hw.grounded.not_above_of_parent? hn

/-- Siblings hold what they held. -/
theorem holds (h : Exchanged p row out s s') (hw : s.store.WellFormed)
    (hrow : ∀ c ∈ row, s.store.parent? c = some p)
    (hrest : ∀ c ∈ rest, s.store.parent? c = some p ∧ c ∉ row)
    (hcs : rest.Forall₂ s.store.Holds cs) :
    rest.Forall₂ s'.store.Holds cs := by
  refine h.untouched.holds_all hw (fun m hm => ?_) hcs
  obtain ⟨hp, hnot⟩ := hrest m hm
  refine ⟨hw.placeable hp, fun k hk => ?_⟩
  rintro (rfl | ⟨c, hc, hup⟩ | hgone)
  · exact hw.grounded.not_above_of_parent? hp hk
  · exact hw.not_above_siblings hp (hrow c hc) (fun e => hnot (e ▸ hc)) hk hup
  · exact hgone (hw.placeable_of_above (hw.placeable hp) hk).has

/-- What is below the siblings after a node of a row, or new, was so before. -/
theorem span_le (h : Exchanged p [n] out s s') (hw : s.store.WellFormed) (ho : s.store.Owned)
    (hrow : ∀ c ∈ n :: rest, s.store.parent? c = some p) (hnot : n ∉ rest)
    (hm : s'.store.Span rest m) : s.store.Span (n :: rest) m := by
  rcases hm with ⟨c, hc, hup⟩ | hgone
  · refine .inl ⟨c, List.mem_cons_of_mem n hc, (h.above_iff hw ho ?_ ?_ ?_).mp hup⟩
    · exact fun c hc => hrow c (List.mem_singleton.mp hc ▸ List.mem_cons_self)
    · exact hrow c (List.mem_cons_of_mem n hc)
    · exact fun e => hnot (List.mem_singleton.mp e ▸ hc)
  · exact .inr fun hhas => hgone (h.within.confined.has hhas)

/-- **The first of several children is exchanged, then the others.** -/
theorem cons (h₁ : Exchanged p [n] out s s') (h₂ : Exchanged p rest out' s' s'')
    (hw : s.store.WellFormed)
    (ho : s.store.Owned) (hplace : s.store.children p = before ++ (n :: rest) ++ after) :
    Exchanged p (n :: rest) (out ++ out') s s'' := by
  have hchild : ∀ c ∈ n :: rest, s.store.parent? c = some p := fun c hc =>
    hw.mem_children.mp (hplace ▸ List.mem_append_left _ (List.mem_append_right _ hc))
  have hnodup : (n :: rest).Nodup :=
    ((hplace ▸ hw.linked.nodup p).of_append_left).of_append_right
  have hnot : n ∉ rest := (List.nodup_cons.mp hnodup).1
  have htidy := hw.tidy_span ho hchild
  have hfirst : ∀ m, s.store.Span [n] m → s.store.Span (n :: rest) m := fun m hm =>
    hm.imp_left fun ⟨c, hc, hup⟩ => ⟨c, List.mem_singleton.mp hc ▸ List.mem_cons_self, hup⟩
  have hwithin := h₁.within.widen htidy hfirst fun q hq => .inr hq
  have hle : ∀ m, s'.store.Span rest m → s.store.Span (n :: rest) m := fun m =>
    h₁.span_le hw ho hchild hnot
  exact {
    rest := by rw [h₂.rest, h₁.rest]
    within := hwithin.trans (h₂.within.widen hwithin.tidy hle fun q hq => .inr hq)
    labelled := h₂.labelled
    untouched := (h₁.untouched.mono fun m _ => Or.imp_right (hfirst m)).trans
      (h₂.untouched.mono fun m _ => Or.imp_right (hle m))
    entire := fun m hm => h₂.entire m (h₁.entire m hm)
    self := fun hp => by
      rw [h₂.self (hp.mono h₁.untouched.kind?), h₁.self hp]
    place := fun before after hplace => by
      obtain ⟨new, hnew, hholds⟩ := h₁.place before (rest ++ after) (by simpa using hplace)
      obtain ⟨new', hnew', hholds'⟩ := h₂.place (before ++ new) after (by simpa using hnew)
      have hw' := h₁.within.tidy.wellFormed
      refine ⟨new ++ new', by simpa using hnew', List.rel_append ?_ hholds'⟩
      have hchild' : ∀ c ∈ new ++ rest, s'.store.parent? c = some p := fun c hc =>
        hw'.mem_children.mp (by
          rw [hnew, List.append_assoc, ← List.append_assoc new]
          exact List.mem_append_right _ (List.mem_append_left _ hc))
      refine h₂.holds hw' (fun c hc => hchild' c (List.mem_append_right _ hc)) (fun m hm =>
        ⟨hchild' m (List.mem_append_left _ hm), fun hrest => ?_⟩) hholds
      have hnodup' := hnew ▸ hw'.linked.nodup p
      rw [List.append_assoc] at hnodup'
      exact (List.nodup_append.mp hnodup'.of_append_right).2.2 m hm m
        (List.mem_append_left _ hrest) rfl }

/-- **The children of a node are exchanged**, and the node stays. -/
theorem node (h : Exchanged n (s.store.children n) out s s') (hw : s.store.WellFormed)
    (ho : s.store.Owned)
    (hp : s.store.parent? n = some p) :
    Exchanged p [n]
      [.node (s.store.loose n) ((s.store.attributes n).map s.store.loose) out] s s' := by
  have hplaceable := hw.placeable hp
  have hle : ∀ m, s.store.Span (s.store.children n) m → s.store.Span [n] m := fun m hm =>
    hm.imp_left fun ⟨c, hc, hup⟩ => ⟨n, List.mem_singleton_self n,
      (Store.Above.of_parent? (hw.mem_children.mp hc)).trans hup⟩
  have hself : s.store.Span [n] n := .inl ⟨n, List.mem_singleton_self n, .refl n⟩
  have hparent : ¬ (p = n ∨ s.store.Span (s.store.children n) p) := by
    intro hR
    have : s.store.Span [n] p := hR.elim (fun e => e ▸ hself) (hle p)
    rw [Store.span_singleton] at this
    exact hw.not_region_parent hp this
  exact {
    rest := h.rest
    within := h.within.widen (hw.tidy_span ho (by simpa using hp)) hle fun q hq =>
      .inl (Option.some.inj hq ▸ hself)
    labelled := h.labelled
    untouched := h.untouched.mono fun m _ hm => .inr (hm.elim (fun e => e ▸ hself) (hle m))
    entire := h.entire
    self := fun hplace => by
      have hview := h.untouched.view p hplace hparent
      rw [hview, show s'.store.children p = (s.store.view p).children from
        congrArg Store.View.children hview]
    place := fun before after hplace => by
      refine ⟨[n], ?_, .cons ?_ .nil⟩
      · rw [h.untouched.children p (hw.fits n p hp).isContainer hparent, hplace]
      · obtain ⟨new, hnew, hholds⟩ := h.place [] [] (by simp)
        rw [List.nil_append, List.append_nil] at hnew
        have := (Store.holds_node_iff (h.self hplaceable)).mpr (hnew ▸ hholds)
        exact this }

end Exchanged

end Language

end Stencil

/-! ## The stage -/

namespace Stencil

open Stencil.Tree (NodeId Store Node Content Visitor)

variable {env : Stage.Environment} {s s' : Session} {n m p q D : NodeId} {d : Dialect} {id : Int}
  {κ : Text → List Content} {c : Content} {cs : List Content} {row before after : List NodeId}
  {z : Text}

namespace Language

/-! ### What sessions know -/

/-- A session in which finished templates are kept with these contents, none of them around a node.
Nobody has asked to be called again. -/
structure Knows (κ : Text → List Content) (p : NodeId) (s : Session) : Prop where
  wellFormed : s.store.WellFormed
  owned : s.store.Owned
  labelled : s.store.Labelled
  has : s.store.Has p
  raised (m : NodeId) : s.raised m = false
  kept (z : Text) (D : NodeId) : s.documents.lookup z = some D →
    s.store.kind? D = some .document ∧ (s.store.children D).Forall₂ s.store.Holds (κ z)
  apart (z : Text) (D : NodeId) : s.documents.lookup z = some D → ¬ s.store.Above D p

namespace Knows

/-- A finished template is around a node if it is around what the node stands below. -/
theorem apart_child (h : Knows κ p s) (hn : s.store.parent? n = some p)
    (hz : s.documents.lookup z = some D) : ¬ s.store.Above D n := by
  intro hup
  rcases Store.above_iff.mp hup with rfl | ⟨q, hq, hup⟩
  · exact (h.wellFormed.placeable hn).kind_ne.1 (h.kept z D hz).1
  · obtain rfl := Option.some.inj (hn.symm.trans hq)
    exact h.apart z D hz hup

/-- What is known around a node is known around its children. -/
theorem inner (h : Knows κ p s) (hn : s.store.parent? n = some p) : Knows κ n s :=
  { h with has := Store.has_of_parent? hn, apart := fun _ _ hz => h.apart_child hn hz }

/-- Finished templates have nothing to do with what is below a node. -/
theorem not_span (h : Knows κ p s) (hrow : ∀ c ∈ row, s.store.parent? c = some p)
    (hz : s.documents.lookup z = some D) (hm : s.store.Has m) (hup : s.store.Above D m) :
    ¬ (m = p ∨ s.store.Span row m) := by
  rintro (rfl | hspan)
  · exact h.apart z D hz hup
  · refine Store.not_span_of_above hm (fun c hc => ⟨h.apart_child (hrow c hc) hz, fun hcD => ?_⟩)
      hup hspan
    obtain rfl := h.wellFormed.eq_of_above_document (h.kept z D hz).1 hcD
    exact (h.wellFormed.placeable (hrow c hc)).kind_ne.1 (h.kept z c hz).1

/-- Exchanging children changes nothing about what is known. -/
theorem exchanged {out : List Content} (h : Knows κ p s) (hr : Exchanged p row out s s')
    (hrow : ∀ c ∈ row, s.store.parent? c = some p) : Knows κ p s' where
  wellFormed := hr.within.tidy.wellFormed
  owned := hr.within.tidy.owned
  labelled := hr.labelled
  has := hr.within.confined.has h.has
  raised m := by
    rw [hr.rest]
    exact h.raised m
  kept z D hz := by
    have hz : s.documents.lookup z = some D := by rwa [hr.rest] at hz
    obtain ⟨hkind, hcs⟩ := h.kept z D hz
    refine ⟨hr.untouched.kind? D _ hkind, ?_⟩
    have hD := h.not_span hrow hz (Store.has_of_kind? hkind) (.refl D)
    rw [hr.untouched.children D (Store.isContainer_of_document hkind) hD]
    refine hr.untouched.holds_all h.wellFormed (fun c hc => ?_) hcs
    have hp : s.store.parent? c = some D := h.wellFormed.mem_children.mp hc
    refine ⟨h.wellFormed.placeable hp, fun k hk => h.not_span hrow hz ?_ ?_⟩
    · exact (h.wellFormed.placeable_of_above (h.wellFormed.placeable hp) hk).has
    · exact (Store.Above.of_parent? hp).trans hk
  apart z D hz hup := by
    have hz : s.documents.lookup z = some D := by rwa [hr.rest] at hz
    refine h.apart z D hz
      ((hr.within.above_outside (h.wellFormed.tidy_span h.owned hrow) ?_).mp hup)
    rintro (⟨c, hc, hcp⟩ | hgone)
    · exact h.wellFormed.grounded.not_above_of_parent? (hrow c hc) hcp
    · exact hgone h.has

end Knows

/-! ### What others get -/

theorem exists_of_forall₂ {α β : Type} {R : α → β → Prop} {l : List α} {l' : List β} {a : α}
    (h : l.Forall₂ R l') (ha : a ∈ l) : ∃ b ∈ l', R a b := by
  obtain ⟨i, hi, rfl⟩ := List.mem_iff_getElem.mp ha
  exact ⟨_, List.getElem_mem (h.length_eq ▸ hi), h.get hi _⟩

/-- What is found first in two lists that go with each other. -/
theorem find?_of_forall₂ {α β : Type} {R : α → β → Prop} {l : List α} {l' : List β} {f : α → Bool}
    {g : β → Bool} (h : l.Forall₂ R l') (hfg : ∀ a b, R a b → f a = g b) :
    (l.find? f = none ∧ l'.find? g = none) ∨
      ∃ a b, l.find? f = some a ∧ l'.find? g = some b ∧ R a b := by
  induction h with
  | nil => exact .inl ⟨rfl, rfl⟩
  | cons hab _ ih =>
    rw [List.find?_cons, List.find?_cons, hfg _ _ hab]
    split
    · exact .inr ⟨_, _, rfl, rfl, hab⟩
    · exact ih

theorem isRootNode_loose (t : Store) (n : NodeId) : isRootNode id (t.loose n) = isRoot t id n := by
  rw [isRootNode, payload_loose, isRoot, isNamed, Store.element?]
  cases t.payload? n with
  | none => rfl
  | some p => cases p <;> rfl

/-- What others get of a document. -/
theorem contentOf_holds {t : Store} (id : Int) (h : (t.children n).Forall₂ t.Holds cs) :
    (contentOf t id n).Forall₂ t.Holds (portion id cs) := by
  have hfind := find?_of_forall₂ h fun a c (hac : t.Holds a c) => hac.isElement_eq
  rw [contentOf, portion, Store.rootElement?]
  rcases hfind with ⟨hnone, hnone'⟩ | ⟨root, c, hroot, hc, hholds⟩
  · rw [hnone, hnone']
    exact .nil
  · obtain ⟨hself, -, hinner⟩ := Store.holds_iff.mp hholds
    rw [hroot, hc]
    dsimp only
    rw [← hself, isRootNode_loose]
    split
    · exact hinner
    · exact .cons hholds .nil

theorem ripe_of_mem_portion (h : ∀ c ∈ cs, Ripe id c) (hc : c ∈ portion id cs) : Ripe id c := by
  rw [portion] at hc
  split at hc
  · cases hc
  · rename_i root hroot
    have hroot := h root (List.mem_of_find?_eq_some hroot)
    split at hc
    · exact fun x hx => hroot x (Content.mem_parts_of_mem_inner hc hx)
    · rwa [List.mem_singleton.mp hc]

/-- A steady template has no definitions. -/
theorem isDefinition_of_isSteadyNode {self : Option Node} {attributes : List (Option Node)}
    (h : isSteadyNode id self attributes) : isDefinition id self = false := by
  cases self with
  | none => rfl
  | some node =>
    rcases node with ⟨payload, links, visible, line⟩
    cases payload with
    | element e =>
      cases huri : e.uri with
      | none => simp [isDefinition, huri]
      | some u =>
        simp only [isSteadyNode, Option.map_some, huri, Bool.and_eq_true,
          List.contains_iff_mem] at h
        have hname : e.name ≠ "macro" := by
          rintro hname
          rw [hname] at h
          exact absurd h.2 (by decide)
        simp [isDefinition, hname]
    | _ => rfl

/-- Without definitions there is nothing to be removed. -/
theorem prune_of_steady (h : Steady id c) : c.prune (isDefinition id) = c := by
  induction c with
  | node self attributes below ih =>
    obtain ⟨-, hbelow⟩ := steady_node.mp h
    rw [Content.prune_node, List.filter_eq_self.mpr fun x hx => by
      rw [isDefinition_of_isSteadyNode (hbelow x hx x x.mem_parts)]; rfl]
    congr 1
    exact (List.map_congr_left fun x hx => ih x hx (hbelow x hx)).trans (List.map_id' below)

/-- Copies of nodes without definitions hold what these hold. -/
theorem holds_copies {t t' : Store} {copies : List NodeId} (hrow : row.Forall₂ t.Holds cs)
    (hsteady : ∀ c ∈ cs, Steady id c) (h : row.Forall₂ (CopyOf id t t') copies) :
    copies.Forall₂ t'.Holds cs := by
  induction hrow generalizing copies with
  | nil => cases h; exact .nil
  | cons hc _ ih =>
    cases h with
    | cons hcopy h =>
    obtain ⟨hfirst, hsteady⟩ := List.forall_mem_cons.mp hsteady
    refine .cons ?_ (ih hsteady h)
    obtain ⟨tree, tree', rfl, htree, rfl, htree', hcontent, -⟩ := hcopy
    obtain ⟨tree₀, hroot, htree₀, rfl⟩ := hc
    obtain rfl := htree₀.eq_of_root htree hroot
    exact ⟨tree', rfl, htree', hcontent.trans (prune_of_steady hfirst)⟩

/-- What others get of a document stands below it. -/
theorem exists_parent_of_mem_contentOf {t : Store} (h : t.WellFormed) (hm : m ∈ contentOf t id D) :
    ∃ q, t.parent? m = some q ∧ t.Above D q := by
  rw [contentOf] at hm
  split at hm
  · cases hm
  · rename_i root hroot
    have hroot := h.mem_children.mp (List.mem_of_find?_eq_some hroot)
    split at hm
    · exact ⟨root, h.mem_children.mp hm, .of_parent? hroot⟩
    · exact ⟨D, List.mem_singleton.mp hm ▸ hroot, .refl D⟩

/-- What others get of a finished template can be put below a node. -/
theorem Knows.loadable (h : Knows κ p s) (hz : s.documents.lookup z = some D)
    (hm : m ∈ contentOf s.store id D) : Loadable s.store p m := by
  obtain ⟨q, hq, hup⟩ := exists_parent_of_mem_contentOf h.wellFormed hm
  have hplaceable := h.wellFormed.placeable hq
  exact ⟨hplaceable.has, hplaceable.kind_ne,
    fun hmp => h.apart z D hz ((hup.trans (.of_parent? hq)).trans hmp),
    fun k _ => h.labelled.distinct k⟩

/-! ### In place of a `load` -/

/-- A node that says what it loads has all the attributes that it needs. -/
theorem exists_extracted (hl : s.store.Labelled)
    (h : loadOf d (s.store.loose n) ((s.store.attributes n).map s.store.loose) = some z) :
    ∃ attrs, extractAttributes d s.store n [loadSpec] none = .ok attrs ∧
      attrs.text "template" = z := by
  obtain ⟨attrs, hattrs, hname⟩ := Option.map_eq_some_iff.mp h
  refine ⟨attrs, ?_, hname⟩
  rw [extractAttributes_eq hl]
  cases hx : extractOf d (s.store.loose n) ((s.store.attributes n).map s.store.loose)
    [loadSpec] none with
  | error f =>
    rw [hx] at hattrs
    cases hattrs
  | ok a =>
    rw [hx] at hattrs
    exact congrArg _ (Option.some.inj hattrs)

/-- Nothing of what others get of a steady template is a definition. -/
theorem filter_contentOf {t : Store} (hcontent : (contentOf t id D).Forall₂ t.Holds cs)
    (hsteady : ∀ c ∈ cs, Steady id c) :
    (contentOf t id D).filter (fun c => !isNamed t c id ["macro"]) = contentOf t id D := by
  refine List.filter_eq_self.mpr fun m hm => ?_
  obtain ⟨c, hc, hholds⟩ := exists_of_forall₂ hcontent hm
  rw [isNamed_eq_isDefinition, (Store.holds_iff.mp hholds).1]
  simpa using isDefinition_of_isSteadyNode (hsteady c hc c c.mem_parts)

/-- **A `load`** makes way for what others get of a finished template. -/
theorem load_exchanges (h : Knows κ p s) (hn : s.store.parent? n = some p)
    (hp : s.store.isElement p)
    (he : s.store.isElement n)
    (hload : loadOf d (s.store.loose n) ((s.store.attributes n).map s.store.loose) = some z)
    (hz : s.documents.lookup z = some D) (hκ : ∀ c ∈ κ z, Ripe (namespaceIdOf d) c) :
    (load d n).Gives s fun r s' =>
      Exchanged p [n] (portion (namespaceIdOf d) (κ z)) s s' ∧
        (r.getD []).Forall₂ s'.store.Holds (portion (namespaceIdOf d) (κ z)) ∧
          ∀ m ∈ r.getD [], s'.store.parent? m = some p := by
  obtain ⟨attrs, hattrs, rfl⟩ := exists_extracted h.labelled hload
  have hripe := fun c hc => ripe_of_mem_portion hκ (c := c) hc
  obtain ⟨r, s', hload, u, copies, rfl, rfl, hin⟩ := load_gives h.wellFormed h.owned he hp hn hattrs
    hz fun c hc => h.loadable hz hc
  have hhandles := load_handles h.wellFormed h.owned h.labelled _ _ hload
  have hcontent := contentOf_holds (namespaceIdOf d) (h.kept _ D hz).2
  have hwithin := hhandles.onTree.within
  rw [filter_contentOf hcontent fun c hc => (hripe c hc).steady] at hin
  have hholds := holds_copies hcontent (fun c hc => (hripe c hc).steady) hin.copies
  have hasked : (if copies.isEmpty then none else some copies).getD [] = copies := by
    cases copies <;> rfl
  obtain ⟨before, after, hplace⟩ := List.append_of_mem (h.wellFormed.mem_children.mpr hn)
  have hview := hin.place before after hplace
  have hchildren : u.children p = before ++ copies ++ after := congrArg Store.View.children hview
  refine ⟨_, _, hload, ?_, by rwa [hasked], fun m hm => ?_⟩
  · exact {
      rest := rfl
      within := by rwa [Store.span_singleton, ← hn]
      labelled := hhandles.labelled
      untouched := hhandles.untouched.mono fun m _ hm => by
        rw [Store.span_singleton]
        exact hm.elim .inr fun hq => .inl (Option.some.inj (hn.symm.trans hq)).symm
      entire := hhandles.entire
      self := fun _ => by rw [hview, hchildren]
      place := fun before after hplace => ⟨copies, congrArg Store.View.children
        (hin.place before after (by simpa using hplace)), hholds⟩ }
  · rw [hasked] at hm
    exact hin.wellFormed.mem_children.mp (hchildren ▸ by simp [hm])

/-! ### Entering nodes -/

/-- An element of the language that belongs to a template is entered as the instruction has it. -/
theorem manipulate_template (henv : Fluent env)
    (hn : isNamed s.store n (namespaceIdOf env.dialect) ["template", "extend", "load"]) :
    Stage.manipulate env n s =
      Work.atNode n ((templateElement env.dialect).enter n) s := by
  rw [isNamed] at hn
  split at hn
  · rename_i e he
    obtain ⟨huri, hname⟩ : e.uri = some (namespaceIdOf env.dialect) ∧
        e.name ∈ (["template", "extend", "load"] : List Text) := by simpa using hn
    have hhooks : Stage.elementHooks? env .manipulation n s =
        (.ok (some (templateElement env.dialect)), s) := by
      rw [elementHooks?_apply, he, Option.bind_some, henv.element?, if_pos huri]
      have hnames : ∀ z ∈ (["template", "extend", "load"] : List Text),
          (elementTable env.dialect).lookup z = some (templateElement env.dialect) := by
        intro z hz
        simp only [List.mem_cons, List.not_mem_nil, or_false] at hz
        rcases hz with rfl | rfl | rfl <;> rfl
      rw [hnames _ hname]
    have hpay := Store.payload?_of_element? he
    rw [Stage.manipulate, Action.bind_ok (show Work.store s = (.ok s.store, s) from rfl), hpay]
    dsimp only
    rw [huri, if_pos Option.isSome_some, Stage.enterInstruction, Action.bind_ok hhooks]
  · cases hn

/-- What a node that belongs to a template is for is told by its name. -/
theorem roleOf_template {e : Tree.ElementData} (he : s.store.element? n = some e)
    (hn : isNamed s.store n id ["template", "extend", "load"]) :
    roleOf id (s.store.loose n) = if e.name = "load" then .loads else .entered := by
  rw [isNamed, he] at hn
  obtain ⟨huri, hname⟩ : e.uri = some id ∧
      e.name ∈ (["template", "extend", "load"] : List Text) := by
    simpa using hn
  rw [roleOf_of_instruction he huri]
  simp only [List.mem_cons, List.not_mem_nil, or_false] at hname
  rcases hname with hname | hname | hname <;> rw [hname] <;> decide

theorem roleOf_of_isInert (hn : s.store.IsInert n) : roleOf id (s.store.loose n) ≠ .loads := by
  rw [roleOf, payload_loose]
  cases hn with
  | element h huri _ => simp [h, Tree.Payload.loose, huri]
  | document h | text h | cdata h => simp [h, Tree.Payload.loose]

section Entering

variable (henv : Fluent env)
  (hn : isSteadyNode (namespaceIdOf env.dialect) (s.store.loose n)
    ((s.store.attributes n).map s.store.loose))

include henv hn

/-- What is done at a `load`. -/
theorem manipulate_load (hrole : roleOf (namespaceIdOf env.dialect) (s.store.loose n) = .loads) :
    s.store.isElement n ∧ Stage.manipulate env n s = Work.atNode n (load env.dialect n) s := by
  rcases isInert_or_isNamed hn with hinert | hnamed
  · exact absurd hrole (roleOf_of_isInert hinert)
  have helement := isElement_of_isNamed hnamed
  obtain ⟨e, he⟩ := Option.isSome_iff_exists.mp helement
  rw [roleOf_template he hnamed] at hrole
  have hname : nameOf s.store n = "load" := by
    rw [nameOf_eq he]
    by_contra hname
    rw [if_neg hname] at hrole
    cases hrole
  refine ⟨helement, (manipulate_template henv hnamed).trans ?_⟩
  have henter : (templateElement env.dialect).enter n s = load env.dialect n s := by
    change (if nameOf s.store n = "load" then load env.dialect n else Work.enqueueChildren n) s = _
    rw [if_pos hname]
  rw [Work.atNode, henter, ← Work.atNode]

/-- **A node that loads nothing** is entered without any change. -/
theorem manipulate_still (hw : s.store.WellFormed) (hraised : ∀ m, s.raised m = false)
    (hrole : roleOf (namespaceIdOf env.dialect) (s.store.loose n) ≠ .loads) :
    Stage.manipulate env n s =
      (.ok (if Stage.descends s.store n then s.store.queue? n else none), s) := by
  rcases isInert_or_isNamed hn with hinert | hnamed
  · exact Stage.manipulate_eq hw (.refl hraised) hinert
  obtain ⟨e, he⟩ := Option.isSome_iff_exists.mp (isElement_of_isNamed hnamed)
  rw [roleOf_template he hnamed] at hrole
  have hname : nameOf s.store n ≠ "load" := by
    rw [nameOf_eq he]
    rintro hname
    exact hrole (if_pos hname)
  have henter : (templateElement env.dialect).enter n s = (.ok (s.store.queue? n), s) := by
    change (if nameOf s.store n = "load" then load env.dialect n else Work.enqueueChildren n) s = _
    rw [if_neg hname]
    rfl
  rw [manipulate_template henv hnamed, Work.atNode, henter, Stage.descends,
    Store.payload?_of_element? he]
  rfl

end Entering

/-! ### Visits -/

theorem not_skips : ¬ (Stage.manipulation env).skips n s := by
  simp [Visitor.skips, Stage.manipulation]

theorem leave_manipulation (hraised : ∀ m, s.raised m = false) :
    (Stage.manipulation env).leave n s = (.ok (), s) :=
  (Stage.Calm.refl hraised).leave

/-- Nodes next to each other that are each visited without any change. -/
theorem row_still {P : NodeId → Content → Prop} (h : ∀ n c, P n c →
      (Stage.manipulation env).Comes [n] s (.ok () : Except Failure Unit) fun _ s' => s' = s)
    (hrow : row.Forall₂ P cs) :
    (Stage.manipulation env).Comes row s (.ok () : Except Failure Unit) fun _ s' => s' = s := by
  induction hrow with
  | nil => exact .nil rfl
  | cons hnc _ ih =>
    exact (h _ _ hnc).cons (f := fun _ => .ok ()) fun _ s' _ hs' => hs' ▸ ih

/-- The children of a node go with what is below it. -/
theorem forall₂_children {t : Store} {below : List Content} (hw : t.WellFormed)
    (h : (t.children n).Forall₂ t.Holds below) :
    (t.children n).Forall₂ (fun m x => t.parent? m = some n ∧ x ∈ below ∧ t.Holds m x) below :=
  List.forall₂_iff_get.mpr ⟨h.length_eq, fun _ hi hi' =>
    ⟨hw.mem_children.mp (List.getElem_mem hi), List.getElem_mem hi', h.get hi hi'⟩⟩

theorem steady_view (hc : s.store.Holds n c) (h : Steady id c) :
    isSteadyNode id (s.store.loose n) ((s.store.attributes n).map s.store.loose) := by
  obtain ⟨hself, hattrs, -⟩ := Store.holds_iff.mp hc
  rw [hself, hattrs]
  exact h c c.mem_parts

/-- What has children that are visited, below something, is an element. -/
theorem isElement_of_descends {t : Store} (hn : t.Placeable n) (h : Stage.descends t n) :
    t.isElement n := by
  have hkind := hn.kind_ne.1
  rw [Store.kind?] at hkind
  rw [Stage.descends] at h
  rw [Store.isElement_eq_payload?]
  cases hpay : t.payload? n with
  | none => rw [hpay] at h; cases h
  | some payload =>
    rw [hpay] at h hkind
    cases payload with
    | element data => rfl
    | document data => exact absurd rfl hkind
    | _ => cases h

/-- A part of what a node holds is held below it. -/
theorem exists_of_mem_parts {t : Store} {x : Content} (hw : t.WellFormed) (hc : t.Holds n c)
    (hx : x ∈ c.parts) : ∃ m, t.Above n m ∧ t.Holds m x := by
  obtain ⟨tree, rfl, htree, rfl⟩ := hc
  obtain ⟨m, hm, hholds⟩ := exists_of_forall₂ htree.forall₂_parts.flip hx
  exact ⟨m, htree.above hw hm, hholds⟩

/-- Only elements load anything. -/
theorem isElement_of_loads {t : Store} (h : roleOf id (t.loose m) = .loads) : t.isElement m := by
  rw [roleOf, payload_loose] at h
  rw [Store.isElement_eq_payload?]
  cases hpay : t.payload? m with
  | none => rw [hpay] at h; cases h
  | some payload =>
    rw [hpay] at h
    cases payload <;> first | rfl | cases h

/-- A content stays as it is if it stands where no elements are. -/
theorem inlined_of_still {t : Store} (hw : t.WellFormed) (hn : t.Placeable n)
    (hnot : ¬ Stage.descends t n) (hc : t.Holds n c) : inlined d κ c = [c] := by
  refine inlined_of_ripe fun x hx hrole => ?_
  obtain ⟨m, hm, hholds⟩ := exists_of_mem_parts hw hc hx
  have hself := (Store.holds_iff.mp hholds).1
  -- what loads is an element, and no element stands there
  have helement : t.isElement m := isElement_of_loads (hself.symm ▸ hrole)
  rcases hw.holder_of_above helement hm with h | h
  · refine hnot ?_
    obtain ⟨e, he⟩ := Option.isSome_iff_exists.mp h
    rw [Stage.descends, Store.payload?_of_element? he]
  · exact hn.kind_ne.1 h

/-- **A node below which nothing is left to be done** is visited without any change. -/
theorem visit_still (henv : Fluent env) (hw : s.store.WellFormed)
    (hraised : ∀ m, s.raised m = false)
    (hn : s.store.Placeable n) (hc : s.store.Holds n c)
    (hripe : Ripe (namespaceIdOf env.dialect) c) :
    (Stage.manipulation env).Comes [n] s (.ok () : Except Failure Unit) fun _ s' => s' = s := by
  induction c generalizing n with
  | node self attributes below ih =>
    obtain ⟨hself, -, hbelow⟩ := Store.holds_iff.mp hc
    have hrole : roleOf (namespaceIdOf env.dialect) (s.store.loose n) ≠ .loads :=
      hself ▸ (hripe _ (Content.mem_parts _)).2
    have hvisit := (visit_eq_manipulate hn.kind_ne.2).trans
      (manipulate_still henv (steady_view hc hripe.steady) hw hraised hrole)
    refine .visit (Q := fun _ s' => s' = s) not_skips hvisit ?_ fun _ s' _ hs' =>
      ⟨(), s', leave_manipulation (hs' ▸ hraised), hs'⟩
    split
    · rw [getD_queue? hw]
      exact row_still (fun m x hx => ih x hx.2.1 (hw.placeable hx.1) hx.2.2
        ((ripe_node.mp hripe).2 x hx.2.1)) (forall₂_children hw hbelow)
    · exact .nil rfl

/-- What is put in place of a content, wherever it stands: what is loaded takes the place of what
loads it, if it is there. -/
def Inlines (env : Stage.Environment) (κ : Text → List Content) (c : Content) : Prop :=
  ∀ n p s, Knows κ p s → s.store.parent? n = some p → s.store.Holds n c →
    (∀ x ∈ c.parts, roleOf (namespaceIdOf env.dialect) x.self = .loads →
      ∃ z D, loadOf env.dialect x.self x.attributes = some z ∧ s.documents.lookup z = some D) →
    (roleOf (namespaceIdOf env.dialect) c.self = .loads → s.store.isElement p) →
    (Stage.manipulation env).Comes [n] s (.ok () : Except Failure Unit) fun _ s' =>
      Exchanged p [n]
        (inlined env.dialect (fun z => portion (namespaceIdOf env.dialect) (κ z)) c) s s'

section Visits

/-- **Children are exchanged one after the other.** -/
theorem row_inlines (hcs : ∀ c ∈ cs, Inlines env κ c) (h : Knows κ p s)
    (hloads : ∀ c ∈ cs, ∀ x ∈ c.parts, roleOf (namespaceIdOf env.dialect) x.self = .loads →
      ∃ z D, loadOf env.dialect x.self x.attributes = some z ∧ s.documents.lookup z = some D)
    (hp : ∀ c ∈ cs, roleOf (namespaceIdOf env.dialect) c.self = .loads → s.store.isElement p)
    (hplace : s.store.children p = before ++ row ++ after) (hrow : row.Forall₂ s.store.Holds cs) :
    (Stage.manipulation env).Comes row s (.ok () : Except Failure Unit) fun _ s' =>
      Exchanged p row (cs.flatMap (inlined env.dialect fun z =>
        portion (namespaceIdOf env.dialect) (κ z))) s s' := by
  induction row generalizing cs before s with
  | nil =>
    cases hrow
    exact .nil (.refl h.wellFormed h.owned h.labelled (by simp) .nil)
  | cons n row ih =>
    cases hrow with
    | cons hc hrow =>
    rename_i c cs
    obtain ⟨hfirst, hcs⟩ := List.forall_mem_cons.mp hcs
    obtain ⟨hpfirst, hp⟩ := List.forall_mem_cons.mp hp
    obtain ⟨hloadsfirst, hloads⟩ := List.forall_mem_cons.mp hloads
    have hchild : ∀ m ∈ n :: row, s.store.parent? m = some p := fun m hm =>
      h.wellFormed.mem_children.mp (hplace ▸ List.mem_append_left _ (List.mem_append_right _ hm))
    have hnot : n ∉ row := (List.nodup_cons.mp
      ((hplace ▸ h.wellFormed.linked.nodup p).of_append_left).of_append_right).1
    have hn := hchild n List.mem_cons_self
    have hsingle : ∀ m ∈ [n], s.store.parent? m = some p := by simpa using hn
    refine (hfirst n p s h hn hc hloadsfirst hpfirst).cons (f := fun _ => .ok ())
      fun _ s' _ hexchanged => ?_
    obtain ⟨new, hnew, -⟩ := hexchanged.place before (row ++ after) (by simpa using hplace)
    have hrest : s'.store.children p = before ++ new ++ row ++ after := by simpa using hnew
    have hdocuments : s'.documents = s.documents := by rw [hexchanged.rest]
    refine (ih hcs (h.exchanged hexchanged hsingle) (hdocuments.symm ▸ hloads)
      (fun c hc hl => ?_) hrest ?_).imp fun _ s'' _ hexchanged' => ?_
    · exact hexchanged.within.confined.isElement (hp c hc hl)
    · refine hexchanged.holds h.wellFormed hsingle (fun m hm => ?_) hrow
      exact ⟨hchild m (List.mem_cons_of_mem n hm), fun e => hnot (List.mem_singleton.mp e ▸ hm)⟩
    · exact hexchanged.cons hexchanged' h.wellFormed h.owned hplace

variable {self : Option Tree.Node} {attributes : List (Option Tree.Node)} {below : List Content}
  (henv : Fluent env) (hκ : ∀ z, ∀ c ∈ κ z, Ripe (namespaceIdOf env.dialect) c)

include henv hκ

/-- What is put in place of a node that loads is visited, and nothing is left to be done in it. -/
theorem inlines_of_loads (hc : Steady (namespaceIdOf env.dialect) (.node self attributes below))
    (hrole : roleOf (namespaceIdOf env.dialect) self = .loads) :
    Inlines env κ (.node self attributes below) := by
  intro n p s h hn hholds hloads hp
  obtain ⟨hself, hattrs, -⟩ := Store.holds_iff.mp hholds
  obtain ⟨z, D, hz, hD⟩ := hloads _ (Content.mem_parts _) hrole
  obtain ⟨he, hmanipulate⟩ :=
    manipulate_load henv (steady_view hholds hc) (hself.symm ▸ hrole)
  have hload : loadOf env.dialect (s.store.loose n) ((s.store.attributes n).map s.store.loose) =
      some z := by
    rw [hself, hattrs]
    exact hz
  obtain ⟨asked, s', hdone, hexchanged, hcopies, hparent⟩ :=
    Work.atNode_gives (n := n) (load_exchanges h hn (hp hrole) he hload hD (hκ z))
  have h' := h.exchanged hexchanged (by simpa using hn)
  have hrow : (asked.getD []).Forall₂ (fun m x => s'.store.parent? m = some p ∧
      x ∈ portion (namespaceIdOf env.dialect) (κ z) ∧ s'.store.Holds m x)
      (portion (namespaceIdOf env.dialect) (κ z)) :=
    List.forall₂_iff_get.mpr ⟨hcopies.length_eq, fun i hi hi' =>
      ⟨hparent _ (List.getElem_mem hi), List.getElem_mem hi', hcopies.get hi hi'⟩⟩
  have hstill := row_still (fun m x hx => visit_still henv h'.wellFormed h'.raised
    (h'.wellFormed.placeable hx.1) hx.2.2 (ripe_of_mem_portion (hκ z) hx.2.1)) hrow
  refine .visit not_skips ((visit_eq_manipulate (h.wellFormed.placeable hn).kind_ne.2).trans
    (hmanipulate.trans hdone)) hstill fun _ s'' _ hs'' =>
      ⟨(), s'', leave_manipulation (hs'' ▸ h'.raised), ?_⟩
  rw [inlined_node, if_pos hrole, show loadOf env.dialect self attributes = some z from hz, hs'']
  exact hexchanged

omit hκ in
/-- Below a node that loads nothing itself, what is loaded is put in place, child by child. -/
theorem inlines_of_inner (hc : Steady (namespaceIdOf env.dialect) (.node self attributes below))
    (hrole : roleOf (namespaceIdOf env.dialect) self ≠ .loads)
    (hbelow : ∀ x ∈ below, Inlines env κ x) : Inlines env κ (.node self attributes below) := by
  intro n p s h hn hholds hloads _
  have hw := h.wellFormed
  have hplaceable := hw.placeable hn
  obtain ⟨hself, hattrs, hchildren⟩ := Store.holds_iff.mp hholds
  rw [inlined_node, if_neg hrole]
  have hvisit := (visit_eq_manipulate hplaceable.kind_ne.2).trans
    (manipulate_still henv (steady_view hholds hc) hw h.raised (hself.symm ▸ hrole))
  by_cases hdescends : Stage.descends s.store n
  · rw [if_pos hdescends] at hvisit
    have hall : s.store.children n = [] ++ s.store.children n ++ [] := by simp
    have hrow := row_inlines hbelow (h.inner hn)
      (fun x hx y hy => hloads y (Content.mem_parts_of_mem_inner hx hy))
      (fun _ _ _ => isElement_of_descends hplaceable hdescends) hall hchildren
    rw [← getD_queue? hw] at hrow
    refine .visit not_skips hvisit hrow fun _ s' _ hexchanged => ?_
    rw [getD_queue? hw] at hexchanged
    have h' := (h.inner hn).exchanged hexchanged fun c hc => hw.mem_children.mp hc
    refine ⟨(), s', leave_manipulation h'.raised, ?_⟩
    have hnode := hexchanged.node hw h.owned hn
    rwa [hself, hattrs] at hnode
  · -- below what is neither an element nor a document nothing is loaded
    rw [if_neg hdescends] at hvisit
    have hstay := inlined_of_still (d := env.dialect)
      (κ := fun z => portion (namespaceIdOf env.dialect) (κ z)) hw hplaceable hdescends hholds
    refine .visit (Q := fun _ s' => s' = s) not_skips hvisit (.nil rfl) fun _ s' _ hs' =>
      ⟨(), s', leave_manipulation (hs' ▸ h.raised), ?_⟩
    rw [inlined_node, if_neg hrole] at hstay
    rw [hstay, hs']
    exact .refl hw h.owned h.labelled (by simpa using hn) (.cons hholds .nil)

/-- **A visit to a node** of a steady template. -/
theorem visit_inlines (hc : Steady (namespaceIdOf env.dialect) c) : Inlines env κ c := by
  induction c with
  | node self attributes below ih =>
    by_cases hrole : roleOf (namespaceIdOf env.dialect) self = .loads
    · exact inlines_of_loads henv hκ hc hrole
    · exact inlines_of_inner henv hc hrole fun x hx => ih x hx ((steady_node.mp hc).2 x hx)

/-- **The stage that changes the tree**, at work on a document. -/
theorem manipulation_inlines (hD : s.store.kind? D = some .document) (h : Knows κ D s)
    (hcs : (s.store.children D).Forall₂ s.store.Holds cs)
    (hsteady : ∀ c ∈ cs, Steady (namespaceIdOf env.dialect) c)
    (hroots : ∀ c ∈ cs, roleOf (namespaceIdOf env.dialect) c.self ≠ .loads)
    (hloads : ∀ c ∈ cs, ∀ x ∈ c.parts, roleOf (namespaceIdOf env.dialect) x.self = .loads →
      ∃ z D, loadOf env.dialect x.self x.attributes = some z ∧ s.documents.lookup z = some D) :
    (Stage.manipulation env).Comes [D] s (.ok () : Except Failure Unit) fun _ s' =>
      Exchanged D (s.store.children D) (cs.flatMap (inlined env.dialect fun z =>
        portion (namespaceIdOf env.dialect) (κ z))) s s' := by
  have hw := h.wellFormed
  have hall : s.store.children D = [] ++ s.store.children D ++ [] := by simp
  have hrow := row_inlines (fun c hc => visit_inlines henv hκ (hsteady c hc)) h hloads
    (fun c hc hl => absurd hl (hroots c hc)) hall hcs
  obtain ⟨data, hpay⟩ := Store.payload?_of_document hD
  have hdescends : Stage.descends s.store D := by rw [Stage.descends, hpay]
  have hvisit : (Stage.manipulation env).visit D s = (.ok (s.store.queue? D), s) := by
    rw [visit_eq_manipulate (by rw [hD]; decide),
      Stage.manipulate_eq hw (.refl h.raised) (.document hpay), if_pos hdescends]
  rw [← getD_queue? hw] at hrow
  refine .visit not_skips hvisit hrow fun _ s' _ hexchanged => ?_
  rw [getD_queue? hw] at hexchanged
  have h' := h.exchanged hexchanged fun c hc => hw.mem_children.mp hc
  exact ⟨(), s', leave_manipulation h'.raised, hexchanged⟩

end Visits

end Language

end Stencil
