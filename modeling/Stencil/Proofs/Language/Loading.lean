import Stencil.Proofs.Language.Content
import Stencil.Proofs.Language.Loads
import Stencil.Proofs.Tree.Additions
import Stencil.Proofs.Tree.Views

/-!
# What a load puts in place

A `load` is replaced by copies of the content of a finished template, without the definitions in it.
This module says so in full: the copies stand where the element stood, have the content of the
loaded template as it is kept, and everything else stays as it was. The content of a template is
what its nodes say. Its code is kept beside the nodes, in tables that a load does not look at, so
the copies have no code. What the stages have moved from the nodes to these tables, as they do with
the values of attributes that are computed, does not come along.

## Main definitions

* `Language.isDefinition` – whether a node is a definition
* `Language.Prepared`, `Language.Grafted` – a copy was made, and put in place
* `Language.Placed` – copies of several nodes stand in front of an element
* `Language.Inlined` – a load was carried out

## Main results

* `Language.load_gives` – loading
-/

namespace Stencil

open Stencil.Tree (NodeId Store Node NodeKind Content Shape)

namespace Tree.Store

variable {s s' : Store} {n m c e p r : NodeId}

theorem ne_of_mem_tail_subtree (h : s.WellFormed) (he : e ∈ (s.subtree n).tail) : e ≠ n := by
  rintro rfl
  rw [subtree] at he
  cases hsize : s.nodes.size with
  | zero => simp [hsize, breadthFirst] at he
  | succ k =>
    rw [hsize, breadthFirst, List.singleton_append, List.tail_cons,
      h.linked.mem_breadthFirst] at he
    case x_2 => simp
    obtain ⟨j, -, r, hr, hj⟩ := he
    have hparent : s.parent? r = some e := h.mem_children.mp (by simpa using hr)
    exact h.grounded.not_above_of_parent? hparent ⟨j, hj⟩

/-- An attribute holds nothing. -/
theorem Fits.kind_ne_attr (h : s.Fits p n) : s.kind? p ≠ some .attr := by
  obtain ⟨k, l, hk, -, hadmits⟩ := h
  rw [hk]
  rintro ⟨⟩
  cases l <;> cases hadmits

/-- An element stands below elements only, up to a document at the top. -/
theorem WellFormed.holder_of_above (h : s.WellFormed) (he : s.isElement e) (hup : s.Above n e) :
    s.isElement n ∨ s.kind? n = some .document := by
  obtain ⟨k, hk⟩ := hup
  induction k generalizing e with
  | zero =>
    obtain rfl := Option.some.inj hk
    exact .inl he
  | succ k ih =>
    obtain ⟨p, hp, hk⟩ := Option.bind_eq_some_iff.mp hk
    obtain ⟨kind, l, hkind, hl, hadmits⟩ := h.fits e p hp
    obtain ⟨tag, htag⟩ := isElement_iff_tag?.mp he
    obtain rfl : l = .element := by simpa [kind?_eq_map_tag?, htag] using hl.symm
    cases kind with
    | element =>
      rw [kind?_eq_map_tag?] at hkind
      obtain ⟨⟨_, tag⟩, htag, rfl⟩ := Option.map_eq_some_iff.mp hkind
      exact ih (isElement_iff_tag?.mpr ⟨tag, htag⟩) hk
    | document =>
      obtain rfl := h.eq_of_above_document hkind ⟨k, hk⟩
      exact .inr hkind
    | _ => cases hadmits

end Tree.Store

namespace Language

open Stencil.Tree.Store (Without New View)

variable {s s' : Store} {id : Int} {n c e copy parent : NodeId} {t : Shape}

/-- Whether a node is a definition in the namespace with the given identifier. -/
def isDefinition (id : Int) : Option Node → Bool
  | some node =>
    match node.payload with
    | .element d => d.uri == some id && decide (d.name = "macro")
    | _ => false
  | none => false

theorem isNamed_eq_isDefinition : isNamed s n id ["macro"] = isDefinition id (s.loose n) := by
  rw [isNamed, Store.element?, Store.payload?, Store.loose]
  cases hnode : s.get? n with
  | none => rfl
  | some node =>
    rcases node with ⟨payload, links, visible, line⟩
    cases payload <;> simp [isDefinition, Node.loose, Tree.Payload.loose]

theorem mem_definitions : e ∈ s.elementsByName n id "macro" ↔
    e ∈ (s.subtree n).tail ∧ isDefinition id (s.loose e) := by
  rw [Store.elementsByName, List.mem_filter, ← isNamed_eq_isDefinition, isNamed]
  cases s.element? e <;> simp

/-- Below a node that is neither an element nor a document there are no elements. -/
theorem elementsByName_eq_nil {name : Text} (h : s.WellFormed) (hn : s.Has n)
    (hnot : ¬ s.isElement n) (hkind : s.kind? n ≠ some .document) :
    s.elementsByName n id name = [] := by
  refine List.eq_nil_iff_forall_not_mem.mpr fun x hx => ?_
  have helement : s.isElement x := by
    have hfound := (List.mem_filter.mp hx).2
    rw [Store.isElement]
    cases hdata : s.element? x with
    | none => simp [hdata] at hfound
    | some data => rfl
  exact (h.holder_of_above helement (above_of_mem_elementsByName h hn hx)).elim hnot hkind

/-- A copy of a tree without definitions was made. -/
structure Prepared (id : Int) (s : Store) (t : Shape) (copy : NodeId) (s' : Store) : Prop where
  wellFormed : s'.WellFormed
  owned : s'.Owned
  new : ¬ s.Has copy
  tag? (n : NodeId) (tag : NodeKind × Option Int × Text) : s.tag? n = some tag →
    s'.tag? n = some tag
  /-- Everything else looks as it did. -/
  view (n : NodeId) : s.Has n → s.kind? n ≠ some .attr → s'.view n = s.view n
  attributes (n : NodeId) : s.Has n → s'.attributes n ⊆ s.attributes n
  parent? (n : NodeId) : s.Has n → s'.parent? n = s.parent? n
  /-- The copy has no place yet. -/
  alone : s'.parent? copy = none
  apart (n : NodeId) : s.Has n → ¬ s'.Above copy n
  /-- The copy is made of new nodes and has the content without definitions. -/
  content : ∃ t' : Shape, t'.root = copy ∧ s'.Shaped t' ∧
    t'.content s' = (t.content s).prune (isDefinition id) ∧ ∀ k ∈ t'.ids, s.New s' k

theorem prepared (h : s.WellFormed) (ho : s.Owned) (ht : s.Shaped t) (hc : s.Has t.root)
    (hkind : s.kind? t.root ≠ some .attr) (hd : ∀ m, s.Above t.root m → s.Distinct m) :
    Prepared id s t (s.clone t.root).1
      (((s.clone t.root).2.elementsByName (s.clone t.root).1 id "macro").foldl Store.discard
        (s.clone t.root).2) := by
  obtain ⟨⟨t₁, hroot₁, hshaped₁, hcontent₁, hnew₁⟩, halone, hsame⟩ :=
    h.clone_copies ho.listed hd hc ht rfl
  obtain ⟨hw, hnew, hhas⟩ := (h.tidy_new ho none).clone hc
  generalize (s.clone t.root).1 = copy at *
  generalize (s.clone t.root).2 = s₁ at *
  have h₁ : s₁.WellFormed := hw.tidy.wellFormed
  -- the definitions in the copy are new, like all of it
  generalize hl : s₁.elementsByName copy id "macro" = l
  have hbelow : ∀ x ∈ l, s₁.Above copy x ∧ x ≠ copy := by
    intro x hx
    rw [← hl] at hx
    exact ⟨above_of_mem_elementsByName h₁ hhas hx,
      Store.ne_of_mem_tail_subtree h₁ (mem_definitions.mp hx).1⟩
  have hdefs : ∀ x ∈ l, ¬ s.Has x := fun x hx => hw.tidy.below hnew (hbelow x hx).1
  have hwithout : Without l s₁ (l.foldl Store.discard s₁) := by
    refine h₁.discardAll hw.tidy.owned fun x hx => ?_
    rcases Store.above_iff.mp (hbelow x hx).1 with hx' | ⟨q, hq, -⟩
    · exact absurd hx'.symm (hbelow x hx).2
    · refine ⟨Store.has_of_parent? hq, fun ha => ?_⟩
      rw [h₁.parent?_of_attr ha] at hq
      cases hq
  have hrootkind : s₁.kind? t₁.root = s.kind? t.root := by
    refine Store.kind?_eq_of_loose ?_
    rw [← Shape.self_content, hcontent₁, Shape.self_content]
  have htell : ∀ n ∈ t₁.ids.tail, decide (n ∈ l) = isDefinition id (s₁.loose n) := by
    intro n hn
    have hne : n ≠ copy := by
      have hnodup := hshaped₁.nodup_ids h₁
      cases t₁ with
      | node r below =>
        rw [Shape.ids_node] at hnodup hn
        obtain rfl : r = copy := hroot₁
        rintro rfl
        exact (List.nodup_cons.mp hnodup).1 hn
    have hup : s₁.Above copy n := hroot₁ ▸ hshaped₁.above h₁ (List.mem_of_mem_tail hn)
    have hin := Store.mem_tail_subtree ((h₁.linked.mem_subtree h₁.grounded hhas).mpr hup) hne
    rw [Bool.eq_iff_iff, decide_eq_true_iff, ← hl, mem_definitions, and_iff_right hin]
  obtain ⟨hshaped, hcontent⟩ := hwithout.holds h₁ hshaped₁ (by rw [hroot₁]; exact hhas)
    (by rw [hrootkind]; exact hkind) (by rw [hroot₁]; exact hbelow) htell
  have hview : ∀ n, s.Has n → s.kind? n ≠ some .attr →
      (l.foldl Store.discard s₁).view n = s.view n := fun n hn hk => by
    have hsee : s₁.view n = s.view n := h.view_of_untouched ho.listed hsame hn
    have hkind₁ : s₁.kind? n = s.kind? n :=
      Store.kind?_eq_of_loose (Store.loose_congr (hsame n hn))
    rw [hwithout.view n (hw.confined.has hn)
      (fun x hx hup => hw.tidy.not_of_above (not_not.mpr hn) hup (hdefs x hx))
        (by rwa [hkind₁]), hsee]
    refine View.ext rfl rfl (List.filter_eq_self.mpr fun k hk => ?_)
    have hk' : s.Has k := Store.has_of_parent? (h.mem_children.mp hk)
    simpa using fun hkl => hdefs k hkl hk'
  refine ⟨hwithout.wellFormed, hwithout.owned, hnew, fun n tag hn => ?_, hview,
    fun n hn a ha => ?_, fun n hn => ?_, ?_, fun n hn hup => ?_, ?_⟩
  · exact hwithout.tag? n tag (hw.confined.tag? n tag hn)
  · rw [← Store.attributes_congr (Store.payload?_congr (hsame n hn))]
    exact hwithout.attributes n ha
  · cases hq : s.parent? n with
    | some q =>
      have hqkind := Store.Fits.kind_ne_attr (h.fits n q hq)
      have hchildren : (l.foldl Store.discard s₁).children q = s.children q :=
        congrArg View.children (hview q (h.has_parent hq) hqkind)
      rw [← hwithout.wellFormed.mem_children, hchildren]
      exact h.mem_children.mpr hq
    | none =>
      refine Option.eq_none_iff_forall_ne_some.mpr fun q hq' => ?_
      have hbefore := hwithout.parent? n q hq'
      rw [hw.confined.parent? n (not_not.mpr hn), hq] at hbefore
      cases hbefore
  · refine Option.eq_none_iff_forall_ne_some.mpr fun q hq => ?_
    have hq' := hwithout.parent? copy q hq
    rw [halone] at hq'
    cases hq'
  · exact hw.tidy.below hnew (hup.of_fewer hwithout.parent?) hn
  · refine ⟨_, (Shape.root_prune _ _).trans hroot₁, hshaped, hcontent.trans (by rw [hcontent₁]), ?_⟩
    intro k hk
    obtain ⟨hk₁, hattrs⟩ := hnew₁ k (Shape.mem_ids_of_mem_prune hk)
    exact ⟨hk₁, fun a ha => hattrs a (hwithout.attributes k ha)⟩

/-- A copy of a tree without definitions was put in front of the child `e` of a node. -/
structure Grafted (id : Int) (s : Store) (parent e : NodeId) (t : Shape) (copy : NodeId)
    (s' : Store) : Prop where
  wellFormed : s'.WellFormed
  owned : s'.Owned
  new : ¬ s.Has copy
  tag? (n : NodeId) (tag : NodeKind × Option Int × Text) : s.tag? n = some tag →
    s'.tag? n = some tag
  /-- Everything else looks as it did. -/
  view (n : NodeId) : s.Has n → s.kind? n ≠ some .attr → n ≠ parent → s'.view n = s.view n
  attributes (n : NodeId) : s.Has n → s'.attributes n ⊆ s.attributes n
  parent? (n : NodeId) : s.Has n → s'.parent? n = s.parent? n
  /-- The copy stands in its place. -/
  place (l₁ l₂ : List NodeId) : s.children parent = l₁ ++ e :: l₂ →
    s'.view parent = { s.view parent with children := l₁ ++ copy :: e :: l₂ }
  /-- The copy is made of new nodes and has the content without definitions. -/
  content : ∃ t' : Shape, t'.root = copy ∧ s'.Shaped t' ∧
    t'.content s' = (t.content s).prune (isDefinition id) ∧ ∀ k ∈ t'.ids, s.New s' k

/-- **Putting a copy in place.** An element holds everything that can be loaded. -/
theorem Prepared.grafted {s₂ : Store} (hs : Prepared id s t copy s₂) (h : s.WellFormed)
    (hc : s.Has t.root) (hkind : s.kind? t.root ≠ some .document ∧ s.kind? t.root ≠ some .attr)
    (hparent : s.isElement parent) (he : s.parent? e = some parent) :
    s₂.insertBefore parent (some copy) (some e) = .ok (s₂.attachBefore parent copy e) ∧
      Grafted id s parent e t copy (s₂.attachBefore parent copy e) := by
  have hw := hs.wellFormed
  have hphas : s.Has parent := h.has_parent he
  obtain ⟨tag, htag⟩ := Store.isElement_iff_tag?.mp hparent
  have hpkind : s.kind? parent = some .element := by rw [Store.kind?_eq_map_tag?, htag]; rfl
  have hp₂ : s₂.isElement parent := Store.isElement_iff_tag?.mpr ⟨tag, hs.tag? _ _ htag⟩
  have hpkind₂ : s₂.kind? parent = some .element := by
    rw [Store.kind?_eq_map_tag?, hs.tag? _ _ htag]
    rfl
  have hpview := hs.view parent hphas (by rw [hpkind]; simp)
  have hchildren : s₂.children parent = s.children parent := congrArg View.children hpview
  have he₂ : s₂.parent? e = some parent := by
    rw [← hw.mem_children, hchildren]
    exact h.mem_children.mpr he
  obtain ⟨t', hroot', hshaped', hcontent', hnew'⟩ := hs.content
  have hself : s₂.loose copy = s.loose t.root := by
    rw [← hroot', ← Shape.self_content, hcontent', Content.self_prune, Shape.self_content]
  have hckind : s₂.kind? copy = s.kind? t.root := Store.kind?_eq_of_loose hself
  have hchas : s₂.Has copy := Store.has_of_loose hself hc
  have hfit : s₂.Fits parent copy := by
    obtain ⟨k, hk⟩ := hchas.exists_kind?
    refine ⟨.element, k, hpkind₂, hk, ?_⟩
    rw [← hckind, hk] at hkind
    cases k <;> simp_all [NodeKind.admits]
  have hcopy := Store.placeable_of_kind_ne hchas (by rw [hckind]; exact hkind)
  refine ⟨hw.insertBefore_of_alone hp₂ he₂ hs.alone hcopy (hs.apart parent hphas), ?_⟩
  have hw₃ := hw.attachBefore hfit (hs.apart parent hphas) hs.alone he₂
  have hattrs : ∀ n, (s₂.attachBefore parent copy e).attributes n = s₂.attributes n := fun n =>
    Store.attributes_congr Store.payload?_attachBefore
  obtain ⟨l₁, l₂, hsplit⟩ := hw.exists_split he₂
  have hkids := (hw.linked.attachBefore hchas hs.alone hsplit).children_eq
  have hview : ∀ n, n ≠ parent → (s₂.attachBefore parent copy e).view n = s₂.view n := by
    intro n hn
    refine Store.view_congr Store.loose_attachBefore (hattrs n)
      (fun a _ => Store.loose_attachBefore) ?_
    rw [hkids, Function.update_of_ne hn]
  refine ⟨hw₃, ?_, hs.new, fun n tag hn => ?_, fun n hn hk hne => ?_, fun n hn => ?_,
    fun n hn => ?_, fun k₁ k₂ hk => ?_, ?_⟩
  · refine hs.owned.congr (fun n k hk => ?_) hattrs
    rwa [Store.kind?, Store.payload?_attachBefore]
  · rw [Store.tag?, Store.payload?_attachBefore]
    exact hs.tag? n tag hn
  · rw [hview n hne, hs.view n hn hk]
  · rw [hattrs]
    exact hs.attributes n hn
  · have hne : n ≠ copy := fun heq => hs.new (heq ▸ hn)
    rw [hw.parent?_attachBefore hfit hs.alone he₂, if_neg hne, hs.parent? n hn]
  · have hk₂ := hchildren.trans hk
    rw [← hpview]
    refine Store.view_eq_of Store.loose_attachBefore (hattrs parent)
      (fun a _ => Store.loose_attachBefore) ?_
    rw [(hw.linked.attachBefore hchas hs.alone hk₂).children_eq, Function.update_self]
  · have hsame : ∀ k ∈ t'.ids, (s₂.attachBefore parent copy e).view k = s₂.view k := by
      refine fun k hk => hview k ?_
      rintro rfl
      exact (hnew' k hk).1 hphas
    refine ⟨t', hroot', hshaped'.of_view hsame, (Store.Shape.content_congr hsame).trans hcontent',
      fun k hk => ⟨(hnew' k hk).1, ?_⟩⟩
    rw [hattrs]
    exact (hnew' k hk).2

/-! ### All copies -/

/-- A node holds what another one held in an earlier state, without definitions, and is made of
nodes that did not exist then. -/
def CopyOf (id : Int) (s₀ s : Store) (c copy : NodeId) : Prop :=
  ∃ t t' : Shape, t.root = c ∧ s₀.Shaped t ∧ t'.root = copy ∧ s.Shaped t' ∧
    t'.content s = (t.content s₀).prune (isDefinition id) ∧
    ∀ k ∈ t'.ids, s₀.New s k ∧ s.Has k ∧ s.kind? k ≠ some .attr

theorem CopyOf.mono {s₀ : Store} (hcopy : CopyOf id s₀ s c copy) (h : s.WellFormed)
    (htag : ∀ n tag, s.tag? n = some tag → s'.tag? n = some tag)
    (hview : ∀ k, s.Above copy k → ¬ s₀.Has k → s.Has k → s.kind? k ≠ some .attr →
      s'.view k = s.view k)
    (hattrs : ∀ k, s.Has k → s'.attributes k ⊆ s.attributes k) : CopyOf id s₀ s' c copy := by
  obtain ⟨t, t', hroot, ht, hroot', ht', hcontent, hids⟩ := hcopy
  have hsame : ∀ k ∈ t'.ids, s'.view k = s.view k := fun k hk =>
    hview k (hroot' ▸ ht'.above h hk) (hids k hk).1.1 (hids k hk).2.1 (hids k hk).2.2
  refine ⟨t, t', hroot, ht, hroot', ht'.of_view hsame,
    (Store.Shape.content_congr hsame).trans hcontent, fun k hk => ?_⟩
  obtain ⟨hnew, hhas, hkind⟩ := hids k hk
  obtain ⟨tag, hk'⟩ := hhas.exists_tag?
  refine ⟨⟨hnew.1, fun a ha => hnew.2 a (hattrs k hhas ha)⟩, Store.has_of_tag? (htag k tag hk'), ?_⟩
  rw [Store.kind?_eq_map_tag?, htag k tag hk', ← hk', ← Store.kind?_eq_map_tag?]
  exact hkind

/-- Copies of some nodes were put in front of the child `e` of a node. -/
structure Placed (id : Int) (s₀ : Store) (parent e : NodeId) (before after : List NodeId)
    (content copies : List NodeId) (s : Store) : Prop where
  wellFormed : s.WellFormed
  owned : s.Owned
  tag? (n : NodeId) (tag : NodeKind × Option Int × Text) : s₀.tag? n = some tag →
    s.tag? n = some tag
  view (n : NodeId) : s₀.Has n → s₀.kind? n ≠ some .attr → n ≠ parent → s.view n = s₀.view n
  parent? (n : NodeId) : s₀.Has n → s.parent? n = s₀.parent? n
  place : s.view parent = { s₀.view parent with children := before ++ copies ++ e :: after }
  copies : content.Forall₂ (CopyOf id s₀ s) copies

namespace Placed

variable {s₀ : Store} {before after content copies : List NodeId}

theorem children (h : Placed id s₀ parent e before after content copies s) :
    s.children parent = before ++ copies ++ e :: after := congrArg View.children h.place

theorem has (h : Placed id s₀ parent e before after content copies s) (hn : s₀.Has n) :
    s.Has n := by
  obtain ⟨tag, htag⟩ := hn.exists_tag?
  exact Store.has_of_tag? (h.tag? n tag htag)

/-- A tree of the earlier state that the copies do not go into is still there. -/
theorem shaped (h : Placed id s₀ parent e before after content copies s) (h₀ : s₀.WellFormed)
    (ht : s₀.Shaped t) (hc : s₀.Has t.root) (hkind : s₀.kind? t.root ≠ some .attr)
    (hup : ¬ s₀.Above t.root parent) : ∀ k ∈ t.ids, s.view k = s₀.view k := by
  intro k hk
  have habove := ht.above h₀ hk
  have hne : k ≠ parent := by
    rintro rfl
    exact hup habove
  rcases Store.above_iff.mp habove with rfl | ⟨q, hq, -⟩
  · exact h.view _ hc hkind hne
  · refine h.view k (Store.has_of_parent? hq) (fun ha => ?_) hne
    rw [h₀.parent?_of_attr ha] at hq
    cases hq

/-- Another copy is put in place. -/
theorem graft (h : Placed id s₀ parent e before after content copies s) (h₀ : s₀.WellFormed)
    (hphas : s₀.Has parent) (ht : s₀.Shaped t) (hc : s₀.Has t.root)
    (hkind : s₀.kind? t.root ≠ some .attr) (hup : ¬ s₀.Above t.root parent)
    (hg : Grafted id s parent e t copy s') :
    Placed id s₀ parent e before after (content ++ [t.root]) (copies ++ [copy]) s' := by
  have hkept : ∀ n, s₀.Has n → s₀.kind? n ≠ some .attr → s.kind? n ≠ some .attr := by
    intro n hn hk
    obtain ⟨tag, htag⟩ := hn.exists_tag?
    rw [Store.kind?_eq_map_tag?, h.tag? n tag htag, ← htag, ← Store.kind?_eq_map_tag?]
    exact hk
  have hplace : s'.view parent =
      { s₀.view parent with children := before ++ (copies ++ [copy]) ++ e :: after } := by
    rw [hg.place (before ++ copies) after h.children, h.place]
    simp
  have hchildren : s'.children parent = before ++ (copies ++ [copy]) ++ e :: after :=
    congrArg View.children hplace
  refine ⟨hg.wellFormed, hg.owned, fun n tag hn => hg.tag? n tag (h.tag? n tag hn),
    fun n hn hk hne => ?_, fun n hn => (hg.parent? n (h.has hn)).trans (h.parent? n hn), hplace, ?_⟩
  · rw [hg.view n (h.has hn) (hkept n hn hk) hne, h.view n hn hk hne]
  · refine List.rel_append (h.copies.imp fun c d hcd => ?_) (.cons ?_ .nil)
    · refine hcd.mono h.wellFormed hg.tag? (fun k _ hk hhas hkind => hg.view k hhas hkind ?_)
        hg.attributes
      rintro rfl
      exact hk hphas
    · obtain ⟨t', hroot', ht', hcontent, hnew⟩ := hg.content
      refine ⟨t, t', rfl, ht, hroot', ht', ?_, fun k hk => ?_⟩
      · rw [hcontent, Store.Shape.content_congr (h.shaped h₀ ht hc hkind hup)]
      · -- the copy stands below the parent, and everything in it below the copy
        have hplace : ∃ q, s'.parent? k = some q := by
          rcases Store.above_iff.mp (ht'.above hg.wellFormed hk) with hk' | ⟨q, hq, -⟩
          · refine ⟨parent, hg.wellFormed.mem_children.mp ?_⟩
            rw [hchildren, ← hk', hroot']
            simp
          · exact ⟨q, hq⟩
        obtain ⟨q, hq⟩ := hplace
        refine ⟨⟨fun hin => (hnew k hk).1 (h.has hin),
          fun a ha hin => (hnew k hk).2 a ha (h.has hin)⟩, Store.has_of_parent? hq, fun ha => ?_⟩
        rw [hg.wellFormed.parent?_of_attr ha] at hq
        cases hq

end Placed

/-! ### The work -/

theorem stripDefinitions_gives {σ : Session} {Q : Unit → Session → Prop}
    (h : Q () { σ with store :=
      (σ.store.elementsByName n id "macro").foldl Store.discard σ.store }) :
    (stripDefinitions id n).Gives σ Q := by
  refine .bind (Work.store_gives ?_)
  generalize σ.store.elementsByName n id "macro" = l at h
  induction l generalizing σ with
  | nil => exact .pure h
  | cons x l ih =>
    refine .bind (.bind (Work.store_gives ?_))
    cases hp : σ.store.parent? x with
    | none =>
      refine .pure (ih ?_)
      rwa [List.foldl_cons, Store.discard, hp] at h
    | some p =>
      have hremove : σ.store.removeChild p (some x) = .ok (σ.store.detach x) := by
        rw [Store.removeChild, if_neg (by simp [hp])]
      refine .bind (Work.tree_gives hremove (Work.modifyStore_gives (ih ?_)))
      rwa [List.foldl_cons, Store.discard, hp] at h

/-- A node that can be loaded: it may stand in an element, and does not hold the place it is loaded
to. -/
structure Loadable (s : Store) (parent c : NodeId) : Prop where
  has : s.Has c
  kind : s.kind? c ≠ some .document ∧ s.kind? c ≠ some .attr
  apart : ¬ s.Above c parent
  distinct (m : NodeId) : s.Above c m → s.Distinct m

section Copies

variable {σ : Session} {s₀ : Store} {before after content copies : List NodeId}

/-- Copying a node that is no definition. -/
theorem copy_gives (h : Placed id s₀ parent e before after content copies σ.store)
    (h₀ : s₀.WellFormed) (hparent : s₀.isElement parent) (hc : Loadable s₀ parent c) : (do
      let copy ← Work.fresh (·.clone c)
      if (← Work.store).isElement copy then stripDefinitions id copy
      Work.tree (·.insertBefore parent (some copy) (some e))
      return some copy : Work (Option NodeId)).Gives σ fun b σ' => ∃ u, σ' = { σ with store := u } ∧
        Placed id s₀ parent e before after (content ++ [c]) (copies ++ b.toList) u := by
  have hw := h.wellFormed
  obtain ⟨t, rfl, ht⟩ := h₀.exists_shaped c
  have hsame := h.shaped h₀ ht hc.has hc.kind.2 hc.apart
  have ht' : σ.store.Shaped t := ht.of_view hsame
  have hhas := h.has hc.has
  have hkind : σ.store.kind? t.root = s₀.kind? t.root :=
    Store.kind?_eq_of_loose (congrArg View.self (hsame _ t.root_mem_ids))
  have hdistinct : ∀ m, σ.store.Above t.root m → σ.store.Distinct m := fun m hm => by
    have hmem := ht'.mem_ids_of_above hw hm
    exact (hc.distinct m (ht.above h₀ hmem)).of_view (hsame m hmem)
  have hp : Prepared id σ.store t _ _ :=
    prepared hw h.owned ht' hhas (by rw [hkind]; exact hc.kind.2) hdistinct
  have hchildren : e ∈ σ.store.children parent := by
    rw [h.children]
    simp
  have hparent' : σ.store.isElement parent := by
    obtain ⟨tag, htag⟩ := Store.isElement_iff_tag?.mp hparent
    exact Store.isElement_iff_tag?.mpr ⟨tag, h.tag? _ _ htag⟩
  obtain ⟨hinsert, hgrafted⟩ := hp.grafted hw hhas (by rw [hkind]; exact hc.kind) hparent'
    (hw.mem_children.mp hchildren)
  have hplaced := h.graft h₀ (Store.has_of_isElement hparent) ht hc.has hc.kind.2 hc.apart hgrafted
  -- the copy is put in place, with or without something to remove before
  have hput : ∀ σ₁ : Session, σ₁ = { σ with store := ((σ.store.clone t.root).2.elementsByName
      (σ.store.clone t.root).1 id "macro").foldl Store.discard (σ.store.clone t.root).2 } → (do
        Work.tree (·.insertBefore parent (some (σ.store.clone t.root).1) (some e))
        return some (σ.store.clone t.root).1 : Work (Option NodeId)).Gives σ₁ fun b σ' =>
          ∃ u, σ' = { σ with store := u } ∧
            Placed id s₀ parent e before after (content ++ [t.root]) (copies ++ b.toList) u := by
    rintro _ rfl
    exact .bind (Work.tree_gives hinsert (.pure ⟨_, rfl, hplaced⟩))
  refine .bind (Work.fresh_gives (.bind (Work.store_gives ?_)))
  dsimp only
  split
  · exact .bind (stripDefinitions_gives (hput _ rfl))
  · rename_i hnot
    obtain ⟨⟨t', hroot', -, hcontent', -⟩, -, -⟩ :=
      hw.clone_copies h.owned.listed hdistinct hhas ht' rfl
    obtain ⟨hclone, -, hcopy⟩ := (hw.tidy_new h.owned none).clone hhas
    have hckind : (σ.store.clone t.root).2.kind? (σ.store.clone t.root).1 ≠ some .document := by
      rw [Store.kind?_eq_of_loose (s := σ.store) (m := t.root), hkind]
      · exact hc.kind.1
      · rw [← hroot', ← Shape.self_content, hcontent', Shape.self_content]
    refine hput _ ?_
    rw [elementsByName_eq_nil hclone.tidy.wellFormed hcopy hnot hckind, List.foldl_nil]

/-- Copying a node, unless it is a definition. -/
theorem insertCopy_gives (h : Placed id s₀ parent e before after content copies σ.store)
    (h₀ : s₀.WellFormed) (hparent : s₀.isElement parent) (hc : Loadable s₀ parent c) :
    (insertCopy id parent e c).Gives σ fun b σ' => ∃ u, σ' = { σ with store := u } ∧
      Placed id s₀ parent e before after
        (content ++ [c].filter fun c => !isNamed s₀ c id ["macro"]) (copies ++ b.toList) u := by
  refine .bind (Work.store_gives ?_)
  rw [isNamed_kept hc.has (h.tag? c)]
  cases hnamed : isNamed s₀ c id ["macro"] with
  | true => exact .pure ⟨σ.store, rfl, by simpa [hnamed] using h⟩
  | false => simpa [hnamed] using copy_gives h h₀ hparent hc

/-- **Copying content.** -/
theorem insertCopies_gives (h : σ.store.WellFormed) (ho : σ.store.Owned)
    (hparent : σ.store.isElement parent) (hplace : σ.store.children parent = before ++ e :: after)
    (hcontent : ∀ c ∈ content, Loadable σ.store parent c) :
    (insertCopies id parent e content).Gives σ fun copies σ' => ∃ u, σ' = { σ with store := u } ∧
      Placed id σ.store parent e before after
        (content.filter fun c => !isNamed σ.store c id ["macro"]) copies u := by
  have hstart : Placed id σ.store parent e before after [] [] σ.store := by
    refine ⟨h, ho, fun _ _ ht => ht, fun _ _ _ _ => rfl, fun _ _ => rfl, ?_, .nil⟩
    rw [List.append_nil, ← hplace]
    rfl
  refine (Work.enqueueEach_gives
    (I := fun rest copies σ' => (∀ c ∈ rest, Loadable σ.store parent c) ∧
      ∃ u done, σ' = { σ with store := u } ∧ Placed id σ.store parent e before after done copies u ∧
        done ++ rest.filter (fun c => !isNamed σ.store c id ["macro"]) =
          content.filter fun c => !isNamed σ.store c id ["macro"])
    (fun c rest copies σ' hI => ?_) _ ⟨hcontent, σ.store, [], rfl, hstart, rfl⟩).imp
      fun copies σ' hI => ?_
  · obtain ⟨hrest, u, done, rfl, hplaced, hdone⟩ := hI
    obtain ⟨hc, hrest⟩ := List.forall_mem_cons.mp hrest
    refine (insertCopy_gives hplaced h hparent hc).imp fun b σ'' hb => ⟨hrest, ?_⟩
    obtain ⟨u', rfl, hplaced'⟩ := hb
    refine ⟨u', _, rfl, hplaced', ?_⟩
    rw [← hdone, List.append_assoc, ← List.filter_append, List.singleton_append]
  · obtain ⟨-, u, done, rfl, hplaced, hdone⟩ := hI
    rw [List.filter_nil, List.append_nil] at hdone
    exact ⟨u, rfl, hdone ▸ hplaced⟩

end Copies

/-- An element was replaced by copies of content. -/
structure Inlined (id : Int) (s₀ : Store) (parent e : NodeId) (content copies : List NodeId)
    (s : Store) : Prop where
  wellFormed : s.WellFormed
  owned : s.Owned
  tag? (n : NodeId) (tag : NodeKind × Option Int × Text) : s₀.tag? n = some tag →
    s.tag? n = some tag
  /-- Everything else looks as it did. -/
  view (n : NodeId) : s₀.Has n → s₀.kind? n ≠ some .attr → n ≠ parent → ¬ s₀.Above e n →
    s.view n = s₀.view n
  /-- The copies stand where the element stood. -/
  place (before after : List NodeId) : s₀.children parent = before ++ e :: after →
    s.view parent = { s₀.view parent with children := before ++ copies ++ after }
  copies : content.Forall₂ (CopyOf id s₀ s) copies

/-- The element is taken out when the copies are in place. -/
theorem Placed.inlined {s₀ : Store} {before after content copies : List NodeId}
    (h : Placed id s₀ parent e before after content copies s) (h₀ : s₀.WellFormed)
    (hparent : s₀.isElement parent) (he : s₀.isElement e)
    (hplace : s₀.children parent = before ++ e :: after) :
    Inlined id s₀ parent e content copies (s.discard e) := by
  have hw := h.wellFormed
  have hhas : s₀.Has e := Store.has_of_isElement he
  have hep₀ : s₀.parent? e = some parent := h₀.mem_children.mp (by rw [hplace]; simp)
  have hep : s.parent? e = some parent := (h.parent? e hhas).trans hep₀
  have hkind : ∀ {n}, s₀.Has n → s.kind? n = s₀.kind? n := fun hn => by
    obtain ⟨tag, htag⟩ := hn.exists_tag?
    rw [Store.kind?_eq_map_tag?, h.tag? _ tag htag, Store.kind?_eq_map_tag?, htag]
  have hout := hw.discard h.owned (h.has hhas) (by
    rw [hkind hhas, Store.kind?_of_isElement he]
    simp)
  have hnodup : (before ++ copies ++ e :: after).Nodup := h.children ▸ hw.linked.nodup parent
  have hrest : e ∉ before ++ copies ++ after := (List.nodup_cons.mp (List.nodup_middle.mp hnodup)).1
  -- nothing that stays is below the element
  have hview : ∀ n, s.Has n → s.kind? n ≠ some .attr → n ≠ parent → ¬ s.Above e n →
      (s.discard e).view n = s.view n := fun n hn hk hne hup => by
    rw [hout.view n hn (by simpa using hup) hk]
    refine View.ext rfl rfl (List.filter_eq_self.mpr fun c hc => ?_)
    have hce : c ≠ e := by
      rintro rfl
      exact hne (Option.some.inj ((hw.mem_children.mp hc).symm.trans hep))
    simpa using hce
  refine ⟨hout.wellFormed, hout.owned, fun n tag hn => hout.tag? n tag (h.tag? n tag hn),
    fun n hn hk hne hup => ?_, fun before' after' hplace' => ?_, ?_⟩
  · have hup' : ¬ s.Above e n := fun hup' =>
      hup ((Store.above_kept h₀ (fun m hm => h.parent? m hm) hn).mp hup')
    rw [hview n (h.has hn) (by rwa [hkind hn]) hne hup', h.view n hn hk hne]
  · have hphas := Store.has_of_isElement hparent
    have hnodup₀ : (before ++ e :: after).Nodup := hplace ▸ h₀.linked.nodup parent
    have hfirst : e ∉ before ++ after := (List.nodup_cons.mp (List.nodup_middle.mp hnodup₀)).1
    -- there is only one way to take the children apart at the element
    obtain ⟨rfl, -, rfl⟩ := (List.append_cons_inj_of_notMem (by simp_all) (by simp_all)).mp
      (hplace.symm.trans hplace')
    rw [hout.view parent (h.has hphas) (by simpa using hw.grounded.not_above_of_parent? hep)
      (by rw [hkind hphas, Store.kind?_of_isElement hparent]; simp), h.place]
    refine View.ext rfl rfl ?_
    change (before ++ copies ++ e :: after).filter _ = _
    rw [List.filter_append, List.filter_cons, if_neg (by simp), ← List.filter_append]
    refine List.filter_eq_self.mpr fun c hc => ?_
    have hce : c ≠ e := by
      rintro rfl
      exact hrest hc
    simpa using hce
  · refine List.forall₂_iff_get.mpr ⟨h.copies.length_eq, fun i hi hi' => ?_⟩
    have hcopy : s.parent? (copies.get ⟨i, hi'⟩) = some parent := by
      rw [← hw.mem_children, h.children]
      simp
    refine (h.copies.get hi hi').mono hw hout.tag? (fun k hup hnew hk hkattr => ?_)
      fun k _ => hout.attributes k
    have hsibling : copies.get ⟨i, hi'⟩ ≠ e := by
      rintro heq
      exact hrest (heq ▸ by simp)
    refine hview k hk hkattr ?_ (hw.not_above_siblings hcopy hep hsibling.symm hup)
    rintro rfl
    exact hnew (Store.has_of_isElement hparent)

/-- **Loading.** -/
theorem load_gives {d : Dialect} {σ : Session} {attrs : Extracted} {doc : NodeId}
    (h : σ.store.WellFormed)
    (ho : σ.store.Owned) (he : σ.store.isElement e) (hparent : σ.store.isElement parent)
    (hep : σ.store.parent? e = some parent)
    (hattrs : extractAttributes d σ.store e [loadSpec] none = .ok attrs)
    (hdoc : σ.documents.lookup (attrs.text "template") = some doc)
    (hcontent : ∀ c ∈ contentOf σ.store (namespaceIdOf d) doc, Loadable σ.store parent c) :
    (load d e).Gives σ fun r σ' => ∃ u copies, σ' = { σ with store := u } ∧
      r = (if copies.isEmpty then none else some copies) ∧
      Inlined (namespaceIdOf d) σ.store parent e ((contentOf σ.store (namespaceIdOf d) doc).filter
        fun c => !isNamed σ.store c (namespaceIdOf d) ["macro"]) copies u := by
  obtain ⟨before, after, hplace⟩ := h.exists_split hep
  refine .bind (Work.extract_gives hattrs (.bind (.get ?_)))
  rw [hdoc]
  refine .bind (Work.store_gives ?_)
  rw [hep]
  refine .bind (Work.store_gives (.bind ((insertCopies_gives h ho hparent hplace hcontent).imp
    fun copies σ' hcopies => ?_)))
  obtain ⟨u, rfl, hplaced⟩ := hcopies
  have hep' : u.parent? e = some parent := by
    rw [← hplaced.wellFormed.mem_children, hplaced.children]
    simp
  have hremove : u.removeChild parent (some e) = .ok (u.detach e) := by
    rw [Store.removeChild, if_neg (by simp [hep'])]
  refine .bind (Work.leaving_gives (Work.tree_gives hremove (.bind (Work.modifyStore_gives (.pure
    ⟨_, copies, rfl, rfl, ?_⟩)))))
  have hdone := hplaced.inlined h hparent he hplace
  rwa [Store.discard, hep'] at hdone

end Language

end Stencil
