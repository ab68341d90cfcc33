import Stencil.Proofs.Tree.Labels
import Stencil.Proofs.Tree.Lists
import Stencil.Tree.Extras

/-!
# What a change leaves as it looks

A change of the store is harmless to those who look elsewhere: whatever is outside of a region looks
as it did (`Untouched`), so the trees outside of it have the content they had. This module says of
the operations that take content from one place to another where they can be noticed, and what is
seen there: copying, attaching a node that stands nowhere, moving and removing the children of a
node, and disposing of nodes.

Documents are different. What stages leave on a document is part of what it says, so notes are taken
that concern nobody who looks at the tree. Of a document only the children count.

## Main definitions

* `Store.Placeable` – a node that can stand below another one
* `Store.Untouched` – whatever is outside of a region looks as it did
* `Store.Entire` – a document that is finished as a whole
* `Store.Separate` – no node of a set is above another one
* `Store.Verbatim` – names and values outside of a region are the same

## Main results

* `holds_iff` – contents level by level
* `Untouched.holds` – trees outside of a region keep their content
* `Separate.adjoin`, `Separate.children`, `Separate.join` – nodes join the set
* `Untouched.holds_separate` – work on one node of the set is not noticed below the others
* `Untouched.verbatim` – what looks the same says the same
* `Verbatim.of_payload?` – only links change
* `Verbatim.facet?` – a single attribute
-/

namespace Stencil.Tree.Store

variable {s s' s'' : Store} {n m c e f p r : NodeId} {R R' : NodeId → Prop} {l : List NodeId}

/-! ### Contents level by level -/

theorem exists_shapes {cs : List Content} (h : l.Forall₂ s.Holds cs) :
    ∃ below : List Shape, below.map Shape.root = l ∧ (∀ t ∈ below, s.Shaped t) ∧
      below.map (Shape.content s) = cs := by
  induction h with
  | nil => exact ⟨[], rfl, by simp, rfl⟩
  | cons hc _ ih =>
    obtain ⟨t, rfl, ht, rfl⟩ := hc
    obtain ⟨below, rfl, hbelow, rfl⟩ := ih
    exact ⟨t :: below, rfl, by simpa using ⟨ht, hbelow⟩, rfl⟩

/-- A node holds what it says, what its attributes say, and what its children hold. -/
theorem holds_iff {c : Content} : s.Holds n c ↔ s.loose n = c.self ∧
    (s.attributes n).map s.loose = c.attributes ∧ (s.children n).Forall₂ s.Holds c.inner := by
  constructor
  · rintro ⟨⟨n, below⟩, rfl, ht, rfl⟩
    cases ht with
    | node hroots hbelow =>
      rw [Shape.content_node, Shape.root, ← hroots]
      refine ⟨rfl, rfl, List.forall₂_map_left_iff.mpr (List.forall₂_map_right_iff.mpr ?_)⟩
      exact List.forall₂_same.mpr fun t ht => ⟨t, rfl, hbelow t ht, rfl⟩
  · rcases c with ⟨self, attributes, inner⟩
    rintro ⟨hself, hattrs, hinner⟩
    obtain ⟨below, hroots, hbelow, hcontent⟩ := exists_shapes hinner
    refine ⟨.node n below, rfl, .node hroots hbelow, ?_⟩
    rw [Shape.content_node, hcontent]
    exact congrArg₂ (Content.node · · inner) hself hattrs

/-- What a node holds, by what is seen of it. -/
theorem holds_node_iff {v : View} {inner : List Content} (hview : s.view n = v) :
    s.Holds n (.node v.self v.attributes inner) ↔ v.children.Forall₂ s.Holds inner := by
  subst hview
  exact ⟨fun h => (holds_iff.mp h).2.2, fun h => holds_iff.mpr ⟨rfl, rfl, h⟩⟩

/-- Every node holds something. -/
theorem WellFormed.exists_holds (h : s.WellFormed) (n : NodeId) : ∃ c, s.Holds n c := by
  obtain ⟨t, rfl, ht⟩ := h.exists_shaped n
  exact ⟨t.content s, t, rfl, ht, rfl⟩

/-! ### What stands below something -/

/-- A node that can stand below another one. -/
def Placeable (s : Store) (n : NodeId) : Prop :=
  ∃ k, s.kind? n = some k ∧ k ≠ .document ∧ k ≠ .attr

theorem Placeable.has (h : s.Placeable n) : s.Has n := by
  obtain ⟨k, hk, -⟩ := h
  exact has_of_kind? hk

theorem Placeable.kind_ne (h : s.Placeable n) :
    s.kind? n ≠ some .document ∧ s.kind? n ≠ some .attr := by
  obtain ⟨k, hk, hdoc, hattr⟩ := h
  rw [hk]
  exact ⟨fun e => hdoc (Option.some.inj e), fun e => hattr (Option.some.inj e)⟩

theorem placeable_of_kind_ne (hn : s.Has n)
    (h : s.kind? n ≠ some .document ∧ s.kind? n ≠ some .attr) : s.Placeable n := by
  obtain ⟨k, hk⟩ := hn.exists_kind?
  rw [hk] at h
  exact ⟨k, hk, fun e => h.1 (congrArg some e), fun e => h.2 (congrArg some e)⟩

theorem Placeable.mono (h : s.Placeable n) (hk : ∀ n k, s.kind? n = some k → s'.kind? n = some k) :
    s'.Placeable n := by
  obtain ⟨k, hn, hne⟩ := h
  exact ⟨k, hk n k hn, hne⟩

/-- What stands below something can do so. -/
theorem WellFormed.placeable (h : s.WellFormed) (hp : s.parent? n = some p) : s.Placeable n := by
  obtain ⟨k, l, -, hl, hkl⟩ := h.fits n p hp
  refine ⟨l, hl, ?_, ?_⟩ <;> rintro rfl <;> cases k <;> cases hkl

theorem placeable_of_isElement (h : s.isElement n) : s.Placeable n := by
  obtain ⟨tag, htag⟩ := isElement_iff_tag?.mp h
  exact ⟨.element, by rw [kind?_eq_map_tag?, htag]; rfl, by decide, by decide⟩

theorem Above.has (h : s.Above n m) (hn : s.Has n) : s.Has m := by
  rcases above_iff.mp h with rfl | ⟨q, hq, -⟩
  · exact hn
  · exact has_of_parent? hq

/-- What is below something that can stand below something can do so. -/
theorem WellFormed.placeable_of_above (h : s.WellFormed) (hn : s.Placeable n) (hm : s.Above n m) :
    s.Placeable m := by
  rcases above_iff.mp hm with rfl | ⟨q, hq, -⟩
  · exact hn
  · exact h.placeable hq

theorem isVisible_eq_of_loose (h : s'.loose n = s.loose n) : s'.isVisible n = s.isVisible n := by
  have hmap (s : Store) : s.isVisible n = ((s.loose n).map (·.visible)).getD false := by
    rw [isVisible, loose, Option.map_map]
    rfl
  rw [hmap, h, ← hmap]

/-! ### What is left on documents -/

theorem document?_eq_of_loose (h : s'.loose n = s.loose n) : s'.document? n = s.document? n := by
  have hpayload : (s'.payload? n).map Payload.loose = (s.payload? n).map Payload.loose := by
    have hmap (s : Store) : (s.payload? n).map Payload.loose = (s.loose n).map (·.payload) := by
      rw [payload?, loose, Option.map_map, Option.map_map]
      rfl
    rw [hmap, h, ← hmap]
  have hdocument (s : Store) (d : DocumentData) :
      s.document? n = some d ↔ (s.payload? n).map Payload.loose = some (.document d) := by
    rw [document?]
    cases s.payload? n with
    | none => simp
    | some p => cases p <;> simp [Payload.loose]
  ext d
  rw [hdocument, hpayload, ← hdocument]

theorem document?_modifyDocument {f : DocumentData → DocumentData} :
    (s.modifyDocument m f).document? n = if n = m then (s.document? m).map f
      else s.document? n := by
  by_cases hnm : n = m
  · subst hnm
    rw [document?, payload?_modifyDocument, if_pos rfl, if_pos rfl, document?]
    cases s.payload? n with
    | none => rfl
    | some p => cases p <;> rfl
  · rw [document?, payload?_modifyDocument, if_neg hnm, if_neg hnm, document?]

variable {kind kind' : ExtraKind} {value : Extra}

/-- Leaving something on a document takes nothing of another kind from it. -/
theorem hasExtra_setExtra (h : kind' ≠ kind) :
    (s.setExtra m kind value).hasExtra n kind' = s.hasExtra n kind' := by
  rw [hasExtra, extra?, extras, setExtra, removeExtra, document?_modifyDocument,
    document?_modifyDocument, if_pos rfl, document?_modifyDocument]
  split
  · rename_i hnm
    subst hnm
    cases hd : s.document? n with
    | none => simp [hasExtra, extra?, extras, hd]
    | some d =>
      have hfind : (fun e : ExtraKind × Extra => !decide (e.1 = kind) && decide (e.1 = kind')) =
          fun e => decide (e.1 = kind') := by
        funext e
        by_cases he : e.1 = kind'
        · simp [he, h]
        · simp [he]
      simp [hasExtra, extra?, extras, hd, hfind, h.symm]
  · rfl

/-- A document that is finished as a whole: no snippet was left on it. -/
def Entire (s : Store) (n : NodeId) : Prop :=
  s.kind? n = some .document ∧ s.hasExtra n .snippet = false

/-- What has the data of a document keeps them. -/
theorem Entire.of_payload? (h : s.Entire n) (hpay : s'.payload? n = s.payload? n) :
    s'.Entire n := by
  refine ⟨by rw [kind?, hpay, ← kind?]; exact h.1, ?_⟩
  rw [hasExtra, extra?, extras, document?, hpay]
  exact h.2

theorem payload?_of_document (h : s.kind? n = some .document) :
    ∃ d, s.payload? n = some (.document d) := by
  obtain ⟨payload, hpay, hkind⟩ := Option.map_eq_some_iff.mp h
  cases payload with
  | document d => exact ⟨d, hpay⟩
  | _ => cases hkind

theorem isContainer_of_document (h : s.kind? n = some .document) : s.isContainer n := by
  obtain ⟨d, hd⟩ := payload?_of_document h
  rw [isContainer, hd]
  rfl

/-- Documents stand nowhere. -/
theorem WellFormed.alone_of_document (h : s.WellFormed) (hn : s.kind? n = some .document) :
    s.parent? n = none :=
  Option.eq_none_iff_forall_ne_some.mpr fun _ hp => (h.placeable hp).kind_ne.1 hn

/-- Nothing but a document itself is above it. -/
theorem WellFormed.eq_of_above_document (h : s.WellFormed) (hn : s.kind? n = some .document)
    (hup : s.Above m n) : m = n := by
  rcases above_iff.mp hup with heq | ⟨q, hq, -⟩
  · exact heq
  · rw [h.alone_of_document hn] at hq
    cases hq

/-! ### Looking elsewhere -/

/-- Whatever is outside of a region looks as it did. Of a document only the children count, and
whether a snippet was left on it. -/
structure Untouched (R : NodeId → Prop) (s s' : Store) : Prop where
  kind? (n : NodeId) (k : NodeKind) : s.kind? n = some k → s'.kind? n = some k
  children (n : NodeId) : s.isContainer n → ¬ R n → s'.children n = s.children n
  view (n : NodeId) : s.Placeable n → ¬ R n → s'.view n = s.view n
  snippet (n : NodeId) : s.kind? n = some .document → ¬ R n →
    s'.hasExtra n .snippet = s.hasExtra n .snippet

namespace Untouched

@[refl] protected theorem refl (s : Store) : Untouched R s s :=
  ⟨fun _ _ hk => hk, fun _ _ _ => rfl, fun _ _ _ => rfl, fun _ _ _ => rfl⟩

protected theorem trans (h₁ : Untouched R s s') (h₂ : Untouched R s' s'') : Untouched R s s'' where
  kind? n k hk := h₂.kind? n k (h₁.kind? n k hk)
  children n hn hR :=
    (h₂.children n (isContainer_of_kind? hn h₁.kind?) hR).trans (h₁.children n hn hR)
  view n hn hR := (h₂.view n (hn.mono h₁.kind?) hR).trans (h₁.view n hn hR)
  snippet n hn hR := (h₂.snippet n (h₁.kind? n _ hn) hR).trans (h₁.snippet n hn hR)

/-- More may be touched. It is enough to know this of what was there. -/
theorem mono (h : Untouched R s s') (hR : ∀ n, s.Has n → R n → R' n) : Untouched R' s s' where
  kind? := h.kind?
  children n hn hout := h.children n hn fun hin => hout (hR n (has_of_isContainer hn) hin)
  view n hn hout := h.view n hn fun hin => hout (hR n hn.has hin)
  snippet n hn hout := h.snippet n hn fun hin => hout (hR n (has_of_kind? hn) hin)

/-- Whatever is no attribute looks as it did. -/
theorem of_view (hkind : ∀ n k, s.kind? n = some k → s'.kind? n = some k)
    (h : ∀ n, s.Has n → s.kind? n ≠ some .attr → ¬ R n → s'.view n = s.view n) :
    Untouched R s s' where
  kind? := hkind
  children n hn hR := by
    refine congrArg View.children (h n (has_of_isContainer hn) (fun ha => ?_) hR)
    obtain ⟨p, hp, hkind⟩ := Option.map_eq_some_iff.mp ha
    rw [isContainer, hp] at hn
    cases p <;> simp_all [Payload.nodeKind, Payload.isContainer]
  view n hn hR := h n hn.has hn.kind_ne.2 hR
  snippet n hn hR := by
    have hview := h n (has_of_kind? hn) (by simp [hn]) hR
    rw [hasExtra, extra?, extras, document?_eq_of_loose (congrArg View.self hview)]
    rfl

/-- Only lists of children change. -/
theorem of_links (hpay : ∀ n, s'.payload? n = s.payload? n) (hloose : ∀ n, s'.loose n = s.loose n)
    (h : ∀ n, ¬ R n → s'.children n = s.children n) : Untouched R s s' :=
  .of_view (fun n k hk => by rwa [Store.kind?, hpay]) fun n _ _ hR =>
    view_congr (hloose n) (attributes_congr (hpay n)) (fun a _ => hloose a) (h n hR)

/-- A document outside of the region is finished as a whole if it was before. -/
theorem entire (h : Untouched R s s') (hout : ¬ R n) (hn : s.Entire n) : s'.Entire n :=
  ⟨h.kind? n _ hn.1, (h.snippet n hn.1 hout).trans hn.2⟩

/-- A tree outside of the region has the content it had. -/
theorem holds {c : Content} (hu : Untouched R s s') (h : s.WellFormed) (hn : s.Placeable n)
    (hout : ∀ m, s.Above n m → ¬ R m) (hc : s.Holds n c) : s'.Holds n c := by
  obtain ⟨t, rfl, ht, rfl⟩ := hc
  have hview : ∀ m ∈ t.ids, s'.view m = s.view m := fun m hm =>
    hu.view m (h.placeable_of_above hn (ht.above h hm)) (hout m (ht.above h hm))
  exact ⟨t, rfl, ht.of_view hview, Shape.content_congr hview⟩

/-- So do several trees next to each other. -/
theorem holds_all {cs : List Content} (hu : Untouched R s s') (h : s.WellFormed)
    (hl : ∀ n ∈ l, s.Placeable n ∧ ∀ m, s.Above n m → ¬ R m) (hcs : l.Forall₂ s.Holds cs) :
    l.Forall₂ s'.Holds cs := by
  induction hcs with
  | nil => exact .nil
  | cons hc _ ih =>
    obtain ⟨hn, hout⟩ := hl _ List.mem_cons_self
    exact .cons (hu.holds h hn hout hc) (ih fun n hn => hl n (List.mem_cons_of_mem _ hn))

end Untouched

/-- Leaving something on a document concerns nobody who looks at the tree. -/
theorem WellFormed.untouched_setExtra {kind : ExtraKind} {value : Extra} (h : s.WellFormed)
    (ho : s.Owned) (hkind : kind ≠ .snippet) : Untouched R s (s.setExtra m kind value) := by
  have hg : Growth s (s.setExtra m kind value) := .trans .modifyDocument .modifyDocument
  have halike : Alike s (s.setExtra m kind value) := .trans .modifyDocument .modifyDocument
  have hchildren := (h.linked.congr hg.links).children_eq
  have hloose : ∀ n, s.kind? n ≠ some .document →
      (s.setExtra m kind value).loose n = s.loose n := by
    intro n hn
    by_cases hm : n = m
    · -- only documents are changed
      have hnone : s.document? n = none := by
        rw [kind?] at hn
        rw [document?]
        cases hp : s.payload? n with
        | none => rfl
        | some p => cases p <;> simp_all [Payload.nodeKind]
      rw [setExtra, removeExtra, modifyDocument, document?_modifyDocument, if_pos rfl, ← hm, hnone]
      dsimp only [Option.map_none]
      rw [modifyDocument, hnone]
    · rw [loose_congr]
      rw [setExtra, get?_modifyDocument_of_ne hm, removeExtra, get?_modifyDocument_of_ne hm]
  refine ⟨hg.kind?, fun n _ _ => congrFun hchildren n, fun n hn _ => ?_, fun n _ _ =>
    hasExtra_setExtra hkind.symm⟩
  refine view_congr (hloose n hn.kind_ne.1) (halike.attributes n) (fun a ha => hloose a ?_)
    (congrFun hchildren n)
  simp [ho.kind n a ha]

/-! ### Copying -/

/-- What is seen at a node depends on the nodes that were there before. -/
theorem WellFormed.view_of_untouched (h : s.WellFormed) (hl : s.Listed)
    (hsame : ∀ m, s.Has m → s'.get? m = s.get? m) (hn : s.Has n) : s'.view n = s.view n := by
  have hlinks : ∀ m, s.Has m → s'.links m = s.links m := fun m hm => by
    rw [links, hsame m hm, links]
  refine Store.view_congr (loose_congr (hsame n hn))
    (attributes_congr (payload?_congr (hsame n hn)))
    (fun a ha => loose_congr (hsame a (has_of_kind? (hl n a ha)))) ?_
  refine h.children_congr (fun m hm => has_of_loose (loose_congr (hsame m hm)) hm) (hlinks n hn) ?_
  exact fun c hc => hlinks c (has_of_parent? (h.mem_children.mp hc))

theorem Untouched.of_get? (h : s.WellFormed) (hl : s.Listed)
    (hsame : ∀ m, s.Has m → s'.get? m = s.get? m) : Untouched R s s' :=
  .of_view (fun n _ hk => (kind?_eq_of_loose (loose_congr (hsame n (has_of_kind? hk)))).trans hk)
    fun _ hn _ _ => h.view_of_untouched hl hsame hn

/-- Whether names are different can be seen. -/
theorem Distinct.of_view (h : s.Distinct n) (hview : s'.view n = s.view n) : s'.Distinct n := by
  have hlabels : ∀ s : Store, (s.attributes n).map s.label = (s.view n).attributes.map fun o =>
      (o.map fun node => node.payload.label).getD (Text.ofString "#unknown") := by
    intro s
    rw [view, List.map_map]
    exact List.map_congr_left fun a _ => s.label_eq_loose a
  rw [Distinct, hlabels, hview, ← hlabels]
  exact h

/-- A copy holds what was copied. It stands nowhere, and nothing else looks different. -/
theorem WellFormed.holds_clone {x : Content} (h : s.WellFormed) (ho : s.Owned) (hl : s.Labelled)
    (hn : s.Has n) (hx : s.Holds n x) : (s.clone n).2.Holds (s.clone n).1 x ∧
      (s.clone n).2.parent? (s.clone n).1 = none ∧ Untouched R s (s.clone n).2 := by
  obtain ⟨t, hroot, ht, rfl⟩ := hx
  obtain ⟨⟨t', hroot', ht', hcontent, -⟩, halone, hsame⟩ :=
    h.clone_copies ho.listed (fun m _ => hl.distinct m) hn ht hroot
  exact ⟨⟨t', hroot', ht', hcontent⟩, halone, .of_get? h ho.listed hsame⟩

/-! ### Attaching -/

/-- What can stand somewhere, is not above its new parent and follows the rules of that one can be
placed. -/
theorem WellFormed.checkChild_eq_ok {replaced : Option NodeId} (h : s.WellFormed) (hp : s.Has p)
    (hc : s.Placeable c) (hup : ¬ s.Above c p)
    (hcontainer : s.checkContainer p c replaced = .ok ()) :
    s.checkChild p (some c) replaced = .ok c := by
  obtain ⟨payload, hpay⟩ : ∃ payload, s.payload? c = some payload := by
    obtain ⟨node, hnode⟩ := hc.has.exists_get?
    exact ⟨node.payload, by rw [payload?, hnode]; rfl⟩
  have hnot : c ∉ s.selfAndAncestors p := fun hin =>
    hup ((h.linked.mem_selfAndAncestors h.grounded hp).mp hin)
  have hkind := hc.kind_ne
  rw [kind?, hpay] at hkind
  cases payload <;> simp_all [checkChild, Payload.nodeKind]

/-- A node that stands nowhere can be put below any element that is not below it. -/
theorem WellFormed.checkChild_of_isElement (h : s.WellFormed) (hp : s.isElement p)
    (hc : s.Placeable c) (hup : ¬ s.Above c p) : s.checkChild p (some c) none = .ok c := by
  obtain ⟨d, hd⟩ := Option.isSome_iff_exists.mp hp
  refine h.checkChild_eq_ok (has_of_isElement hp) hc hup ?_
  rw [checkContainer, payload?_of_element? hd]

/-- Putting a node without parent in front of a child of an element. -/
theorem WellFormed.insertBefore_of_alone (h : s.WellFormed) (hp : s.isElement p)
    (hr : s.parent? r = some p) (halone : s.parent? c = none) (hc : s.Placeable c)
    (hup : ¬ s.Above c p) : s.insertBefore p (some c) (some r) = .ok (s.attachBefore p c r) := by
  have hcr : (some c : Option NodeId) ≠ some r := by
    intro hcr
    rw [Option.some.inj hcr, hr] at halone
    cases halone
  rw [Store.insertBefore, if_neg (by simp [hr]), if_neg hcr, h.checkChild_of_isElement hp hc hup]
  simp [bind, Except.bind, pure, Except.pure, detach_of_alone halone]

/-- Putting a node without parent behind the children of an element. -/
theorem WellFormed.appendChild_of_alone (h : s.WellFormed) (hp : s.isElement p)
    (halone : s.parent? c = none) (hc : s.Placeable c) (hup : ¬ s.Above c p) :
    s.appendChild p (some c) = .ok (s.attachLast p c) := by
  rw [Store.appendChild, h.checkChild_of_isElement hp hc hup]
  simp [bind, Except.bind, pure, Except.pure, detach_of_alone halone]

/-- Attaching a node is noticed at the new parent. -/
theorem WellFormed.view_attachLast (h : s.WellFormed) (hp : s.Has p) (hc : s.Has c)
    (halone : s.parent? c = none) :
    (s.attachLast p c).view p = { s.view p with children := s.children p ++ [c] } ∧
      Untouched (· = p) s (s.attachLast p c) := by
  have hkids := (h.linked.attachLast hc hp halone).children_eq
  refine ⟨view_eq_of loose_attachLast (attributes_congr payload?_attachLast)
    (fun _ _ => loose_attachLast) ?_, .of_links (fun _ => payload?_attachLast)
    (fun _ => loose_attachLast) fun n hn => ?_⟩
  · rw [hkids, Function.update_self]
  · rw [hkids, Function.update_of_ne hn]

/-! ### Children taken away -/

theorem loose_removeChildren : (s.removeChildren p).2.loose n = s.loose n := by
  have hall : ∀ (l : List NodeId) (s : Store),
      (l.foldl (fun s c => s.relink c Links.alone) s).loose n = s.loose n := by
    intro l
    induction l with
    | nil => exact fun s => rfl
    | cons c l ih => exact fun s => (ih _).trans loose_relink
  exact loose_relink.trans (hall _ s)

/-- Taking the children of a node away is noticed at the node. -/
theorem WellFormed.view_removeChildren (h : s.WellFormed) (hp : s.isContainer p) :
    (s.removeChildren p).2.view p = { s.view p with children := [] } ∧
      Untouched (· = p) s (s.removeChildren p).2 := by
  obtain ⟨hleft, -, hothers⟩ := h.lists_removeChildren hp
  refine ⟨view_eq_of loose_removeChildren (attributes_congr payload?_removeChildren)
    (fun _ _ => loose_removeChildren) hleft, .of_links (fun _ => payload?_removeChildren)
    (fun _ => loose_removeChildren) hothers⟩

theorem loose_attachAll : (l.foldl (fun s c => s.attachLast p c) s).loose n = s.loose n := by
  induction l generalizing s with
  | nil => rfl
  | cons c l ih => exact ih.trans loose_attachLast

theorem payload?_attachAll :
    (l.foldl (fun s c => s.attachLast p c) s).payload? n = s.payload? n := by
  induction l generalizing s with
  | nil => rfl
  | cons c l ih => exact ih.trans payload?_attachLast

theorem loose_moveChildren {dst : Option NodeId} (hok : s.moveChildren p dst = .ok s') :
    s'.loose n = s.loose n := by
  obtain ⟨d, -, -, ⟨-, rfl⟩ | ⟨-, -, rfl⟩⟩ := moveChildren_ok hok
  · rfl
  · rw [loose_attachAll, loose_removeChildren]

/-- Moving children is noticed at the two parents. -/
theorem WellFormed.view_moveChildren (h : s.WellFormed) (hp : s.isContainer p)
    (hf : s.isContainer f) (hne : p ≠ f) (hok : s.moveChildren p (some f) = .ok s') :
    s'.view p = { s.view p with children := [] } ∧
      s'.view f = { s.view f with children := s.children p } ∧
      Untouched (fun m => m = p ∨ m = f) s s' := by
  obtain ⟨d, hd, -, hto, hfrom, hothers⟩ := h.lists_moveChildren hp (by simpa using hf) hok
  obtain rfl := Option.some.inj hd
  obtain ⟨d, hd, -, hcases⟩ := moveChildren_ok hok
  obtain rfl := Option.some.inj hd
  obtain ⟨hself, -⟩ | ⟨-, -, hs'⟩ := hcases
  · exact absurd hself hne
  have hloose : ∀ n, s'.loose n = s.loose n := fun n => loose_moveChildren hok
  have hpay : ∀ n, s'.payload? n = s.payload? n := fun n => by
    rw [hs', payload?_attachAll, payload?_removeChildren]
  refine ⟨view_eq_of (hloose p) (attributes_congr (hpay p)) (fun a _ => hloose a) hfrom,
    view_eq_of (hloose f) (attributes_congr (hpay f)) (fun a _ => hloose a) hto,
    .of_links hpay hloose fun n hn => ?_⟩
  exact hothers n (fun e => hn (.inl e)) fun e => hn (.inr e)

/-- The children of a node can be moved to a node without children that stands nowhere, if its rules
let them in. -/
theorem WellFormed.moveChildren_isOk (h : s.WellFormed) (hf : s.Has f) (hne : p ≠ f)
    (halone : s.parent? f = none) (hempty : s.children f = [])
    (hroots : s.hasSingleRoot f = false)
    (hrules : ∀ c, s.Placeable c → s.checkContainer f c none = .ok ()) :
    ∃ s', s.moveChildren p (some f) = .ok s' := by
  have hcheck : ∀ l : List NodeId, (∀ c ∈ l, s.parent? c = some p) →
      (l.forM fun c => (s.checkChild f (some c) none).map fun _ => ()) = .ok () := by
    intro l hl
    induction l with
    | nil => rfl
    | cons c l ih =>
      have hc := hl c List.mem_cons_self
      have hup : ¬ s.Above c f := by
        intro hup
        rcases above_iff.mp hup with rfl | ⟨q, hq, -⟩
        · rw [halone] at hc
          cases hc
        · rw [halone] at hq
          cases hq
      have hplace := h.placeable hc
      change ((s.checkChild f (some c) none).map fun _ => ()) >>= (fun _ => l.forM _) = _
      rw [h.checkChild_eq_ok hf hplace hup (hrules c hplace)]
      exact ih fun d hd => hl d (List.mem_cons_of_mem _ hd)
  have hnone : s.hasChildren f = false := by
    rw [hasChildren, h.linked.count f, hempty]
    rfl
  rw [Store.moveChildren, hnone, if_neg (by simp), if_neg hne,
    hcheck _ fun c hc => h.mem_children.mp hc, hroots]
  exact ⟨_, rfl⟩

/-- An element lets everything in. -/
theorem WellFormed.moveChildren_to_element (h : s.WellFormed) (hf : s.isElement f) (hne : p ≠ f)
    (halone : s.parent? f = none) (hempty : s.children f = []) :
    ∃ s', s.moveChildren p (some f) = .ok s' := by
  obtain ⟨d, hd⟩ := Option.isSome_iff_exists.mp hf
  have hpay := payload?_of_element? hd
  refine h.moveChildren_isOk (has_of_isElement hf) hne halone hempty ?_ fun c _ => ?_
  · rw [hasSingleRoot, document?, hpay]
    rfl
  · rw [checkContainer, hpay]

/-- So does a document that may have several elements at its top level. -/
theorem WellFormed.moveChildren_to_document {d : DocumentData} (h : s.WellFormed)
    (hf : s.payload? f = some (.document d)) (hd : d.singleRoot = false) (hne : p ≠ f)
    (halone : s.parent? f = none) (hempty : s.children f = []) :
    ∃ s', s.moveChildren p (some f) = .ok s' := by
  have hhas : s.Has f := has_of_kind? (k := .document) (by
    rw [kind?, hf]
    rfl)
  refine h.moveChildren_isOk hhas hne halone hempty ?_ fun c _ => ?_
  · rw [hasSingleRoot, document?, hf]
    exact hd
  · have hroot : s.rootElement? f = none := by
      rw [rootElement?, hempty]
      rfl
    rw [checkContainer, hf]
    dsimp only
    rw [hroot]

/-! ### Disposal -/

/-- Disposing of a node that stands nowhere is noticed below it. -/
theorem WellFormed.untouched_dispose (h : s.WellFormed) (ho : s.Owned) (hn : s.Has n)
    (hkind : s.kind? n ≠ some .attr) (halone : s.parent? n = none) :
    Untouched (s.Above n) s (s.dispose n) := by
  exact .of_view ((h.tidy ho).dispose hn trivial).confined.kind? fun m _ hm hout =>
    h.dispose_view ho hn halone hout hkind hm

/-- Disposing of nodes that stand nowhere is noticed below them. -/
theorem WellFormed.untouched_disposeAll (h : s.WellFormed) (ho : s.Owned)
    (hl : ∀ e ∈ l, s.Placeable e ∧ s.parent? e = none) :
    Untouched (fun m => ∃ e ∈ l, s.Above e m) s (l.foldl (fun s e => s.dispose e) s) := by
  induction l generalizing s with
  | nil => rfl
  | cons e l ih =>
    obtain ⟨he, halone⟩ := hl e List.mem_cons_self
    have hw := (h.tidy ho).dispose he.has trivial
    have hfirst := h.untouched_dispose ho he.has he.kind_ne.2 halone
    have hrest := ih hw.tidy.wellFormed hw.tidy.owned fun d hd => ?_
    · refine (hfirst.mono fun m _ hm => ⟨e, List.mem_cons_self, hm⟩).trans
        (hrest.mono fun m _ hm => ?_)
      obtain ⟨d, hd, hdm⟩ := hm
      exact ⟨d, List.mem_cons_of_mem _ hd, hdm.of_fewer fun _ _ => h.parent?_of_dispose he.has⟩
    · obtain ⟨hd', hdalone⟩ := hl d (List.mem_cons_of_mem _ hd)
      refine ⟨hd'.mono hw.confined.kind?, Option.eq_none_iff_forall_ne_some.mpr fun q hq => ?_⟩
      rw [h.parent?_of_dispose he.has hq] at hdalone
      cases hdalone

end Stencil.Tree.Store

/-! ## Trees that have nothing to do with each other

Nodes are *separate* if none of them is above another one, so that the trees below them have no node
in common. Work on one of them is not noticed below the others. It may be replaced by what is right
below it, or by nodes that were put in its place, and nodes that stand nowhere may join; the nodes
are still separate then. So those who keep nodes for later, and those who take them apart one after
the other, do not get into each other's way. -/

namespace Stencil.Tree.Store

variable {s s' : Store} {K K' N R : NodeId → Prop} {anchor : Option NodeId} {n m c p r b : NodeId}

/-- No node of a set is above another one. -/
def Separate (s : Store) (K : NodeId → Prop) : Prop := ∀ a b, K a → K b → s.Above a b → a = b

namespace Separate

theorem mono (h : s.Separate K) (hK : ∀ m, K' m → K m) : s.Separate K' := fun a b ha hb =>
  h a b (hK a ha) (hK b hb)

/-- Nodes that lose their places stay separate. -/
theorem of_fewer (h : s.Separate K) (hp : ∀ m q, s'.parent? m = some q → s.parent? m = some q) :
    s'.Separate K := fun a b ha hb hup => h a b ha hb (hup.of_fewer hp)

/-- Nodes next to each other join the set, if what is above their place does not belong to it and
nothing of it is below them. -/
theorem adjoin (h : s.Separate K) (hw : s.WellFormed) (hN : ∀ c, N c → s.parent? c = some p)
    (hplace : ∀ m, K m → ¬ s.Above m p) (hbelow : ∀ c m, N c → K m → ¬ s.Above c m) :
    s.Separate fun m => K m ∨ N m := by
  rintro a b (ha | ha) (hb | hb) hup
  · exact h a b ha hb hup
  · rcases above_iff.mp hup with heq | ⟨q, hq, hup⟩
    · exact heq
    · obtain rfl := Option.some.inj ((hN b hb).symm.trans hq)
      exact absurd hup (hplace a ha)
  · exact absurd hup (hbelow a b ha hb)
  · rcases above_iff.mp hup with heq | ⟨q, hq, hup⟩
    · exact heq
    · obtain rfl := Option.some.inj ((hN b hb).symm.trans hq)
      exact absurd hup (hw.grounded.not_above_of_parent? (hN a ha))

/-- What is right below a node takes its place. -/
theorem children (h : s.Separate K) (hw : s.WellFormed) (hn : K n) :
    s.Separate fun m => (K m ∧ m ≠ n) ∨ s.parent? m = some n := by
  have hothers : s.Separate fun m => K m ∧ m ≠ n := h.mono fun m hm => hm.1
  refine hothers.adjoin hw (fun c hc => hc) (fun m hm hup => hm.2 (h m n hm.1 hn hup))
    fun c m hc hm hup => ?_
  exact hm.2 (h n m hn hm.1 ((Above.of_parent? hc).trans hup)).symm

/-- Nodes that stand nowhere join the set, if they are above nothing of it. -/
theorem join (h : s.Separate K) (hN : ∀ c, N c → s.parent? c = none)
    (hbelow : ∀ c m, N c → K m → s.Above c m → c = m) : s.Separate fun m => K m ∨ N m := by
  rintro a b ha (hb | hb) hup
  · rcases ha with ha | ha
    · exact h a b ha hb hup
    · exact hbelow a b ha hb hup
  · rcases above_iff.mp hup with heq | ⟨q, hq, -⟩
    · exact heq
    · rw [hN b hb] at hq
      cases hq

end Separate

/-- Nodes outside of a region are separate after work within the region, if they were before. -/
theorem Within.separate (hw : Within R anchor s s') (ht : Tidy R anchor s) (h : s.Separate K)
    (hK : ∀ m, K m → ¬ R m) : s'.Separate K := fun a b ha hb hup =>
  h a b ha hb ((hw.above_outside ht (hK b hb)).mp hup)

/-- A node that was not there before is above nothing outside of the region. -/
theorem Within.not_above_new (hw : Within R anchor s s') (ht : Tidy R anchor s) (hn : ¬ s.Has n)
    (hm : ¬ R m) : ¬ s'.Above n m := by
  rw [hw.above_outside ht hm]
  rintro ⟨k, hk⟩
  refine hn (ht.wellFormed.linked.has_ascend ?_ hk)
  by_contra hgone
  exact hm (ht.fresh m hgone)

/-- A node of the set is no part of another one. -/
theorem Separate.not_region (h : s.Separate K) (hn : K n) (hm : K m)
    (hhas : s.Has m) (hne : m ≠ n) :
    ¬ s.Region n m := by
  rintro (hup | hnew)
  · exact hne (h n m hn hm hup).symm
  · exact hnew hhas

/-- **Work on a node of the set**, which may be noticed at the place of the node, is not noticed
below the others. -/
theorem Untouched.holds_separate {x : Content}
    (hu : Untouched (fun m => s.Region n m ∨ s.parent? n = some m) s s') (h : s.WellFormed)
    (ha : s.Separate K) (hn : K n) (hb : K b) (hne : b ≠ n) (hplace : s.Placeable b)
    (hx : s.Holds b x) :
    s'.Holds b x := by
  refine hu.holds h hplace (fun m hbm hm => ?_) hx
  rcases hm with (hnm | hnew) | hp
  · rcases above_or_above hbm hnm with hbn | hnb
    · exact hne (ha b n hb hn hbn)
    · exact hne (ha n b hn hb hnb).symm
  · exact hnew (h.placeable_of_above hplace hbm).has
  · exact hne (ha b n hb hn (hbm.trans (.of_parent? hp)))

/-! ### Taking nodes out and putting them in -/

/-- Taking a node out is noticed at its place. -/
theorem WellFormed.untouched_removeChild (h : s.WellFormed)
    (hok : s.removeChild p (some c) = .ok s') : Untouched (· = p) s s' := by
  obtain ⟨-, -, -, -, -, hothers⟩ := h.lists_removeChild hok
  rw [Store.removeChild] at hok
  split at hok
  · cases hok
  · obtain rfl := Except.ok.inj hok
    exact .of_links (fun _ => payload?_detach) (fun _ => loose_detach) hothers

/-- Putting a node that stands nowhere in front of another one is noticed at the new place. -/
theorem WellFormed.untouched_insertBefore (h : s.WellFormed) (hp : s.isContainer p) (hc : s.Has c)
    (halone : s.parent? c = none) (hok : s.insertBefore p (some c) (some r) = .ok s') :
    Untouched (· = p) s s' := by
  obtain ⟨d, hd, hsame, hput⟩ := h.put_insertBefore hp (by simpa using hc) hok
  obtain rfl := Option.some.inj hd
  by_cases hcr : c = r
  · rw [hsame hcr]
  · obtain ⟨l₁, l₂, -, hput⟩ := hput hcr
    obtain ⟨hpay, -⟩ := h.insertBefore_parent? hp hc hok
    have hloose : ∀ n, s'.loose n = s.loose n := by
      intro n
      obtain ⟨-, ⟨hself, -⟩ | ⟨d, -, -, rfl⟩⟩ := insertBefore_ok hok
      · exact absurd (Option.some.inj hself) hcr
      · rw [loose_attachBefore, loose_detach]
    refine .of_links hpay hloose fun n hn => hput.others n hn ?_
    simp [halone]

/-! ## What nodes and their attributes say

Work within a region can be noticed at its border: the node there gets other children, so it does
not look as it did. But nobody rewrites what stands in its tag. Outside of the region every node
says what it said, border or not, and so do its attributes (`Store.Verbatim`).

This is less than looking the same (`Untouched`), and it holds of more nodes. The operations on
children change nothing of the kind at all; taking a node apart empties the attributes below it and
no others. -/

variable {s'' : Store} {R' : NodeId → Prop} {a : NodeId}

/-- Outside of a region, every node that can stand below another one says what it said, and so do
its attributes. -/
structure Verbatim (R : NodeId → Prop) (s s' : Store) : Prop where
  kind? (n : NodeId) (k : NodeKind) : s.kind? n = some k → s'.kind? n = some k
  label (n : NodeId) : s.Placeable n → ¬ R n → s'.label n = s.label n
  facets (n : NodeId) : s.Placeable n → ¬ R n →
    (s'.attributes n).map s'.facet? = (s.attributes n).map s.facet?

namespace Verbatim

@[refl] protected theorem refl (s : Store) : Verbatim R s s :=
  ⟨fun _ _ hk => hk, fun _ _ _ => rfl, fun _ _ _ => rfl⟩

protected theorem trans (h₁ : Verbatim R s s') (h₂ : Verbatim R s' s'') : Verbatim R s s'' where
  kind? n k hk := h₂.kind? n k (h₁.kind? n k hk)
  label n hn hR := (h₂.label n (hn.mono h₁.kind?) hR).trans (h₁.label n hn hR)
  facets n hn hR := (h₂.facets n (hn.mono h₁.kind?) hR).trans (h₁.facets n hn hR)

/-- More may be rewritten. It is enough to know this of what was there. -/
theorem mono (h : Verbatim R s s') (hR : ∀ n, s.Has n → R n → R' n) : Verbatim R' s s' where
  kind? := h.kind?
  label n hn hout := h.label n hn fun hin => hout (hR n hn.has hin)
  facets n hn hout := h.facets n hn fun hin => hout (hR n hn.has hin)

/-- Only links change. -/
theorem of_payload? (h : ∀ n, s'.payload? n = s.payload? n) : Verbatim R s s' where
  kind? n k hk := by rwa [Store.kind?, h]
  label n _ _ := by rw [Store.label, h, Store.label]
  facets n _ _ := by
    rw [attributes_congr (h n)]
    exact List.map_congr_left fun a _ => by rw [Store.facet?, h, Store.facet?]

/-- An attribute of a node says what it said, if the node has the same attributes. -/
theorem facet? (h : Verbatim R s s') (hn : s.Placeable n) (hR : ¬ R n)
    (hattrs : s'.attributes n = s.attributes n) (ha : a ∈ s.attributes n) :
    s'.facet? a = s.facet? a := by
  have hfacets := h.facets n hn hR
  rw [hattrs] at hfacets
  exact List.map_inj_left.mp hfacets a ha

end Verbatim

/-- What looks the same says the same. -/
theorem Untouched.verbatim (h : Untouched R s s') : Verbatim R s s' where
  kind? := h.kind?
  label n hn hR := by
    rw [label_eq_loose, label_eq_loose, show s'.loose n = s.loose n from
      congrArg View.self (h.view n hn hR)]
  facets n hn hR := map_facet?_of_map_loose (congrArg View.attributes (h.view n hn hR))

end Stencil.Tree.Store
