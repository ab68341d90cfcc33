import Stencil.Proofs.Language.Content
import Stencil.Proofs.Tree.Labels
import Stencil.Proofs.Tree.Views

/-!
# Which templates a tree loads

The name that a `load` gives is read off its attributes. Work on a tree moves such elements, copies
them and takes them apart, but it never makes up a name: after work within a region, the elements of
the region name templates that elements of the region named before, and the elements outside name
what they named (`Descends`). This is all that has to be known of the work in order to tell which
templates can still be asked for.

## Main definitions

* `Language.loadName?` – the name that an element gives, if it is a `load`
* `Language.Descends` – after some work, names are those of before
* `Session.Handles` – work within a region that is noticed there and at its anchor

## Main results

* `Language.loadName?_congr` – the name depends on what the attributes say
* `Descends.clone`, `Descends.dispose` – the operations on subtrees
* `Language.load_handles` – loading
-/

namespace Stencil.Language

open Stencil.Tree (NodeId Node NodeKind Store AttributeData)
open Stencil.Tree.Store (Tidy Within Confined Growth Labelled Alike Shrinks Pending)

variable {d : Dialect} {s s' s'' : Store} {R : NodeId → Prop} {n m e a p c : NodeId} {ns : Int}
  {names : List Text}

/-- The name of the template that an element loads, if it is a `load` and names one. -/
def loadName? (d : Dialect) (s : Store) (e : NodeId) : Option Text :=
  if isNamed s e (namespaceIdOf d) ["load"] then
    (extractAttributes d s e [loadSpec] none).toOption.map (·.text "template")
  else none

/-! ### What the name depends on -/

theorem isNamed_eq_tag? : isNamed s n ns names = match s.tag? n with
    | some (.element, uri, name) => uri == some ns && names.contains name
    | _ => false := by
  rw [isNamed, Store.element?, Store.tag?]
  cases s.payload? n with
  | none => rfl
  | some p => cases p <;> rfl

theorem isNamed_congr (h : s'.tag? n = s.tag? m) :
    isNamed s' n ns names = isNamed s m ns names := by
  rw [isNamed_eq_tag?, h, ← isNamed_eq_tag?]

/-- What keeps its tag keeps its name. -/
theorem isNamed_kept (hn : s.Has n) (htag : ∀ tag, s.tag? n = some tag → s'.tag? n = some tag) :
    isNamed s' n ns names = isNamed s n ns names := by
  obtain ⟨tag, hn⟩ := hn.exists_tag?
  exact isNamed_congr ((htag tag hn).trans hn.symm)

theorem isElement_of_isNamed (h : isNamed s n ns names) : s.isElement n := by
  rw [isNamed] at h
  split at h
  · rename_i d hd
    rw [Store.isElement, hd]
    rfl
  · cases h

theorem qualified_of_isNamed (h : isNamed s n ns names) : s.Qualified n := by
  rw [isNamed_eq_tag?] at h
  split at h
  · rename_i u name htag
    cases u with
    | none => simp at h
    | some u => exact ⟨_, u, name, htag⟩
  · cases h

/-- The name that an attribute gives. -/
def givenName? (data : AttributeData) : Option Text :=
  if data.uri.isSome then some []
  else match data.value with
    | .literal t => some t
    | .expression .. => none

theorem extract_load (d : Dialect) (s : Store) (e : NodeId) :
    extractAttributes d s e [loadSpec] none =
      (extractDemanded d s e loadSpec).map fun v => ⟨[v].filterMap id, []⟩ := by
  rw [extractAttributes, List.mapM_cons, List.mapM_nil]
  cases extractDemanded d s e loadSpec <;> rfl

/-- The name is given by one attribute. -/
theorem loadName?_eq (h : s.Labelled) : loadName? d s e =
    if isNamed s e (namespaceIdOf d) ["load"] then (s.facetOf? e "template").bind givenName?
    else none := by
  rw [loadName?, extract_load, extractDemanded, Store.facetOf?]
  congr 1
  cases ha : s.attribute? e "template" with
  | none =>
    rw [show s.attribute? e loadSpec.name = none from ha]
    rfl
  | some a =>
    rw [show s.attribute? e loadSpec.name = some a from ha, Option.bind_some]
    have hname : s.attrName? a = some ("template" : Text) := by
      rw [h.attribute?_eq] at ha
      simpa using List.find?_some ha
    obtain ⟨data, hdata⟩ := Store.exists_attr?_of_attrName? hname
    rw [Store.facet?_of_attr? hdata]
    simp only [hdata]
    rw [Option.bind_some, givenName?]
    cases hvalue : data.value with
    | literal t => split <;> rfl
    | expression source engine line => split <;> rfl

/-- The name depends on what an element is called and what its attributes say. -/
theorem loadName?_congr (h : s.Labelled) (h' : s'.Labelled) (htag : s'.tag? n = s.tag? m)
    (hattrs : (s'.attributes n).map s'.facet? = (s.attributes m).map s.facet?) :
    loadName? d s' n = loadName? d s m := by
  rw [loadName?_eq h', isNamed_congr htag, h.facetOf?_congr h' hattrs, ← loadName?_eq h]

/-- What is untouched, with its attributes, names what it named. -/
theorem loadName?_of_payload? (h : s.Labelled) (h' : s'.Labelled)
    (hn : s'.payload? n = s.payload? n)
    (hattrs : ∀ a ∈ s.attributes n, s'.payload? a = s.payload? a) :
    loadName? d s' n = loadName? d s n := by
  refine loadName?_congr h h' (by rw [Store.tag?, hn, Store.tag?]) ?_
  rw [Store.attributes_congr hn]
  exact List.map_congr_left fun a ha => by rw [Store.facet?, hattrs a ha, Store.facet?]

theorem loadName?_alike (h : s.Labelled) (ha : Alike s s') :
    loadName? d s' n = loadName? d s n := by
  refine loadName?_congr h (h.alike ha) (ha.tag? n) ?_
  rw [ha.attributes]
  exact List.map_congr_left fun a _ => ha.facet? a

theorem isNamed_of_loadName? {z : Text} (h : loadName? d s e = some z) :
    isNamed s e (namespaceIdOf d) ["load"] := by
  rw [loadName?] at h
  split at h
  · assumption
  · cases h

theorem isElement_of_loadName? {z : Text} (h : loadName? d s e = some z) : s.isElement e :=
  isElement_of_isNamed (isNamed_of_loadName? h)

theorem payload?_setVisible {v : Bool} : (s.setVisible n v).payload? m = s.payload? m := by
  rw [Store.setVisible, Store.payload?, Store.payload?, Store.get?_modify]
  split <;> cases s.get? m <;> rfl

theorem growth_setVisible {v : Bool} : Growth s (s.setVisible n v) := by
  refine ⟨fun m => ?_, fun m tag htag => by rwa [Store.tag?, payload?_setVisible]⟩
  rw [Store.setVisible, Store.links, Store.links, Store.get?_modify]
  split <;> cases s.get? m <;> rfl

/-! ### No new names -/

/-- After work within a region, no element names a template that was not named before: not outside
of the region, where nothing has changed, and not inside, where names may come to stand
elsewhere. -/
structure Descends (d : Dialect) (R : NodeId → Prop) (s s' : Store) : Prop where
  within : Within R none s s'
  labelled : s'.Labelled
  outside (e : NodeId) : ¬ R e → loadName? d s' e = loadName? d s e
  inside (e : NodeId) (z : Text) : R e → loadName? d s' e = some z →
    ∃ c, R c ∧ loadName? d s c = some z

namespace Descends

protected theorem refl (h : Tidy R none s) (hl : s.Labelled) : Descends d R s s :=
  ⟨h.within, hl, fun _ _ => rfl, fun e _ he hz => ⟨e, he, hz⟩⟩

protected theorem trans (h₁ : Descends d R s s') (h₂ : Descends d R s' s'') :
    Descends d R s s'' where
  within := h₁.within.trans h₂.within
  labelled := h₂.labelled
  outside e he := (h₂.outside e he).trans (h₁.outside e he)
  inside e z he hz := by
    obtain ⟨c, hc, hcz⟩ := h₂.inside e z he hz
    exact h₁.inside c z hc hcz

/-- A change that is not seen by those who look for attributes. -/
theorem of_alike (hw : Within R none s s') (hl : s.Labelled) (ha : Alike s s') :
    Descends d R s s' where
  within := hw
  labelled := hl.alike ha
  outside _ _ := loadName?_alike hl ha
  inside e _ he hz := ⟨e, he, (loadName?_alike hl ha).symm.trans hz⟩

/-- A change of links. -/
theorem of_payload? (hw : Within R none s s') (hl : s.Labelled)
    (h : ∀ n, s'.payload? n = s.payload? n) : Descends d R s s' :=
  of_alike hw hl (.of_payload? h)

theorem setVisible {v : Bool} (h : Tidy R none s) (hl : s.Labelled) :
    Descends d R s (s.setVisible n v) := by
  have hpay : ∀ m, (s.setVisible n v).payload? m = s.payload? m := fun _ => payload?_setVisible
  exact of_payload? (h.growth_attributes growth_setVisible fun m => Store.attributes_congr (hpay m))
    hl hpay

theorem removeChild (h : Tidy R none s) (hl : s.Labelled) (hR : R n)
    (hok : s.removeChild p (some n) = .ok s') : Descends d R s s' := by
  have hw := h.removeChild hR hok
  rw [Store.removeChild] at hok
  split at hok
  · cases hok
  · obtain rfl := Except.ok.inj hok
    exact of_payload? hw hl fun _ => Store.payload?_detach

/-- What was there is untouched, and what is new names what something in the region names. -/
theorem of_kept (hw : Within R none s s') (ho : s.Owned) (hl : s.Labelled) (hl' : s'.Labelled)
    (hsame : ∀ n, s.Has n → s'.payload? n = s.payload? n)
    (hnew : ∀ e z, ¬ s.Has e → loadName? d s' e = some z → ∃ c, R c ∧ loadName? d s c = some z)
    (hR : ∀ n, ¬ s.Has n → R n) : Descends d R s s' := by
  have hkept : ∀ e, s.Has e → loadName? d s' e = loadName? d s e := fun e he =>
    loadName?_of_payload? hl hl' (hsame e he) fun a ha =>
      hsame a (Store.has_of_kind? (ho.kind e a ha))
  refine ⟨hw, hl', fun e he => hkept e (not_not.mp fun hn => he (hR e hn)), fun e z he hz => ?_⟩
  by_cases hhas : s.Has e
  · exact ⟨e, he, (hkept e hhas).symm.trans hz⟩
  · exact hnew e z hhas hz

/-- A new node that is in no namespace and has no attributes. -/
theorem add {node : Node} (h : Tidy R none s) (hl : s.Labelled) (hlinks : node.links = {})
    (huri : node.payload.tag.2.1 = none) (htable : node.payload.table = .empty)
    (hn : node.payload.isElement = false ∨
      ∃ d : Tree.ElementData, node.payload = .element { d with attrs := .empty }) :
    Descends d R s (s.add node).2 := by
  refine of_kept (h.add hlinks hn) h.owned hl (hl.shrink (.add htable))
    (fun n hn => Store.payload?_congr (Store.get?_add_of_has hn)) (fun e z he hz => ?_) h.fresh
  exfalso
  have hnamed := isNamed_of_loadName? hz
  rw [isNamed_eq_tag?, Store.tag?, Store.payload?_add] at hnamed
  split at hnamed
  · rename_i uri name htag
    split at htag
    · obtain rfl : uri = none := by
        rw [← huri, Option.some.inj htag]
      simp at hnamed
    · rw [Store.payload?, Store.get?_eq_none_iff.mpr he] at htag
      cases htag
  · cases hnamed

/-- A change that is not seen, after others. -/
theorem then_alike (h : Descends d R s s') (hw : Within R none s s'') (ha : Alike s' s'') :
    Descends d R s s'' where
  within := hw
  labelled := h.labelled.alike ha
  outside e he := (loadName?_alike h.labelled ha).trans (h.outside e he)
  inside e z he hz := h.inside e z he ((loadName?_alike h.labelled ha).symm.trans hz)

/-! ### Copies -/

theorem copyNode (h : Tidy R none s) (hl : s.Labelled) (hn : s.Has n) (hR : R n) :
    Descends d R s (s.copyNode n).2 := by
  obtain ⟨-, hattrs, -, -, hsame⟩ := Store.copyNode_copies hn h.owned.listed (hl.distinct n)
  refine of_kept (h.copyNode hn).1 h.owned hl hl.copyNode
    (fun m hm => Store.payload?_congr (hsame m hm))
    (fun e z he hz => ⟨n, hR, ?_⟩) h.fresh
  obtain rfl := Store.eq_of_isElement_copyNode hn he (isElement_of_loadName? hz)
  rw [← hz]
  exact (loadName?_congr hl hl.copyNode (Store.copyNode_spec hn).2.2
    (Store.map_facet?_of_map_loose hattrs)).symm

/-- What is to be copied belongs to the region. -/
def Sources (R : NodeId → Prop) (level : List (NodeId × NodeId)) : Prop := ∀ e ∈ level, R e.2

theorem copyBelow {next : Array (NodeId × NodeId)} {entry : NodeId × NodeId} (h : Tidy R none s)
    (hl : s.Labelled) (hnext : Pending R s next.toList) (hnext' : Sources R next.toList)
    (hR : R entry.1) (hR' : R entry.2) (hfit : s.Fits entry.1 entry.2) :
    Descends d R s (Store.copyBelow (next, s) entry).2 ∧
      Sources R (Store.copyBelow (next, s) entry).1.toList := by
  have hcopy : Descends d R s (s.copyNode entry.2).2 := copyNode h hl hfit.has_child hR'
  refine ⟨hcopy.then_alike (h.copyBelow hnext hR hfit).1
    (.of_payload? fun _ => Store.payload?_attachLast), fun e he => ?_⟩
  have he' : e ∈ next.toList ∨ e ∈ ((s.copyNode entry.2).2.children entry.2).map
      ((s.copyNode entry.2).1, ·) := by
    simpa [Store.copyBelow] using he
  rcases he' with he | he
  · exact hnext' e he
  · obtain ⟨c, hc, rfl⟩ := List.mem_map.mp he
    have htidy := hcopy.within.tidy
    exact htidy.down c entry.2 (htidy.wellFormed.mem_children.mp hc) hR'

theorem copyLevel {level : List (NodeId × NodeId)} {next : Array (NodeId × NodeId)}
    (h : Tidy R none s) (hl : s.Labelled) (hnext : Pending R s next.toList)
    (hnext' : Sources R next.toList) (hlevel : Pending R s level) (hlevel' : Sources R level) :
    Descends d R s (level.foldl Store.copyBelow (next, s)).2 ∧
      Sources R (level.foldl Store.copyBelow (next, s)).1.toList := by
  induction level generalizing next s with
  | nil => exact ⟨.refl h hl, hnext'⟩
  | cons entry level ih =>
    obtain ⟨hR, hfit⟩ := hlevel entry (by simp)
    obtain ⟨hw, hn⟩ := h.copyBelow hnext hR hfit
    obtain ⟨hd, hn'⟩ := copyBelow h hl hnext hnext' hR (hlevel' entry (by simp)) hfit
    have hrest : Pending R s level := fun e he => hlevel e (by simp [he])
    obtain ⟨hd', hlast⟩ := ih hw.tidy hd.labelled hn hn' (hrest.mono hw.confined)
      fun e he => hlevel' e (by simp [he])
    exact ⟨hd.trans hd', hlast⟩

theorem copyLevels {limit : Nat} {level : List (NodeId × NodeId)} (h : Tidy R none s)
    (hl : s.Labelled) (hlevel : Pending R s level) (hlevel' : Sources R level) :
    Descends d R s (Store.copyLevels limit level s) := by
  induction limit generalizing level s with
  | zero => exact .refl h hl
  | succ limit ih =>
    cases level with
    | nil => exact .refl h hl
    | cons entry level =>
      have hnil : Pending R s (#[] : Array (NodeId × NodeId)).toList := fun e he => by simp at he
      have hnil' : Sources R (#[] : Array (NodeId × NodeId)).toList := fun e he => by simp at he
      obtain ⟨hw, hn⟩ := h.copyLevel hnil hlevel
      obtain ⟨hd, hn'⟩ := copyLevel h hl hnil hnil' hlevel hlevel'
      exact hd.trans (ih hw.tidy hd.labelled hn hn')

/-- A copy of a subtree names what the subtree names. -/
theorem clone (h : Tidy R none s) (hl : s.Labelled) (hn : s.Has n) (hR : R n) :
    Descends d R s (s.clone n).2 := by
  have hcopy : Descends d R s (s.copyNode n).2 := copyNode h hl hn hR
  obtain ⟨hg, -, -⟩ := Store.copyNode_spec hn
  refine hcopy.trans (copyLevels hcopy.within.tidy hcopy.labelled (fun e he => ?_) fun e he => ?_)
  · obtain ⟨c, hc, rfl⟩ := List.mem_map.mp he
    obtain ⟨k, l, hk, hl', hkl⟩ := h.wellFormed.fits c n (h.wellFormed.mem_children.mp hc)
    exact ⟨(h.copyNode hn).2, k, l, (Store.kind?_copyNode hn).trans hk, hg.kind? c l hl', hkl⟩
  · obtain ⟨c, hc, rfl⟩ := List.mem_map.mp he
    exact h.down c n (h.wellFormed.mem_children.mp hc) hR

/-! ### Disposal -/

theorem loadName?_clearNode (ho : s.Owned) (hl : s.Labelled) :
    loadName? d (s.clearNode n) e = if e = n then none else loadName? d s e := by
  split
  · rename_i he
    subst he
    have hnone : (s.clearNode e).facetOf? e "template" = none := by
      rw [Store.facetOf?, (hl.shrink .clearNode).attribute?_eq,
        Store.attributes_clearNode, if_pos rfl]
      rfl
    rw [loadName?_eq (hl.shrink .clearNode), hnone]
    split <;> rfl
  · rename_i he
    refine loadName?_congr hl (hl.shrink .clearNode) Store.tag?_clearNode_eq ?_
    rw [Store.attributes_clearNode, if_neg he]
    exact List.map_congr_left fun a ha => Store.facet?_clearNode fun ha' =>
      he (ho.unique e n a ha ha')

theorem loadName?_foldl_clearNode {l : List NodeId} (ho : s.Owned) (hl : s.Labelled) :
    loadName? d (l.foldl Store.clearNode s) e = if e ∈ l then none else loadName? d s e := by
  induction l generalizing s with
  | nil => simp
  | cons n l ih =>
    have ho' : (s.clearNode n).Owned := by
      refine ho.of_sublist (fun m k hk => ?_) fun m => ?_
      · rwa [Store.kind?_eq_map_tag?, Store.tag?_clearNode_eq, ← Store.kind?_eq_map_tag?]
      · rw [Store.attributes_clearNode]
        split
        · exact List.nil_sublist _
        · exact .refl _
    rw [List.foldl_cons, ih ho' (hl.shrink .clearNode), loadName?_clearNode ho hl]
    by_cases hel : e ∈ l <;> by_cases hen : e = n <;> simp [hel, hen]

/-- What is disposed of names nothing. -/
theorem dispose (h : Tidy R none s) (hl : s.Labelled) (hn : s.Has n) (hR : R n) :
    Descends d R s (s.dispose n) := by
  have hdetach : Descends d R s (s.detach n) :=
    of_payload? (h.detach hR) hl fun _ => Store.payload?_detach
  have htidy := hdetach.within.tidy
  have hnames : ∀ e, loadName? d (s.dispose n) e =
      if e ∈ (s.detach n).subtree n then none else loadName? d (s.detach n) e := fun e =>
    loadName?_foldl_clearNode htidy.owned hdetach.labelled
  refine ⟨h.dispose hn hR, hl.shrink .dispose, fun e he => ?_, fun e z he hz => ?_⟩
  · have hmem : e ∉ (s.detach n).subtree n := fun hmem => he (htidy.below hR
      ((htidy.wellFormed.linked.mem_subtree htidy.wellFormed.grounded
        (hdetach.within.confined.has hn)).mp hmem))
    rw [hnames, if_neg hmem, hdetach.outside e he]
  · rw [hnames] at hz
    split at hz
    · cases hz
    · exact hdetach.inside e z he hz

theorem disposeAll {l : List NodeId} (h : Tidy R none s) (hl : s.Labelled)
    (hmem : ∀ c ∈ l, R c ∧ s.Has c) : Descends d R s (l.foldl (fun s c => s.dispose c) s) := by
  induction l generalizing s with
  | nil => exact .refl h hl
  | cons c l ih =>
    obtain ⟨hR, hhas⟩ := hmem c (by simp)
    have hd : Descends d R s (s.dispose c) := dispose h hl hhas hR
    refine hd.trans (ih hd.within.tidy hd.labelled fun b hb => ?_)
    obtain ⟨hR', hhas'⟩ := hmem b (by simp [hb])
    exact ⟨hR', hd.within.confined.has hhas'⟩

/-- The value of an attribute may change unless it belongs to a `load`. -/
theorem setValue {v : Tree.Value} (h : Tidy R none s) (hl : s.Labelled)
    (ha : a ∈ s.attributes e) (he : ¬ isNamed s e (namespaceIdOf d) ["load"]) :
    Descends d R s (s.setValue a v) := by
  have hattrs : ∀ n, (s.setValue a v).attributes n = s.attributes n := fun _ =>
    Store.attributes_modifyAttr
  have hw : Within R none s (s.setValue a v) :=
    h.growth_attributes (.modifyAttr fun _ => ⟨rfl, rfl⟩) hattrs
  have hnames : ∀ n, loadName? d (s.setValue a v) n = loadName? d s n := by
    intro n
    by_cases hn : n = e
    · rw [loadName?, isNamed_congr Store.tag?_setValue, hn, if_neg he, loadName?, if_neg he]
    · refine loadName?_congr hl (hl.shrink .setValue) Store.tag?_setValue ?_
      rw [hattrs]
      refine List.map_congr_left fun b hb => Store.facet?_setValue_of_ne ?_
      rintro rfl
      exact hn (h.owned.unique n e b hb ha)
  exact ⟨hw, hl.shrink .setValue, fun n _ => hnames n, fun n z hn hz =>
    ⟨n, hn, (hnames n).symm.trans hz⟩⟩

end Descends

end Stencil.Language

/-! ## Where a load is noticed

A `load` is replaced by copies. The copies are new nodes, and definitions are removed from them
before they are put in place, so nobody who looks at what was there before notices anything but that
the children of one node have changed, and that the `load` is gone. That node still says what it
said. -/

namespace Stencil

open Stencil.Tree (NodeId Store)
open Stencil.Tree.Store (Tidy Within Untouched Placeable Labelled Verbatim)

variable {s s' s'' : Session} {R R' : NodeId → Prop} {anchor anchor' : Option NodeId}
  {n m e c p parent : NodeId}

/-- Work within a region that is noticed there and at the anchor. -/
structure Session.Handles (R : NodeId → Prop) (anchor : Option NodeId) (s s' : Session) : Prop where
  onTree : s.OnTree R anchor s'
  labelled : s'.store.Labelled
  untouched : Untouched (fun m => R m ∨ anchor = some m) s.store s'.store
  /-- At the anchor nothing but the children changes. -/
  verbatim : Verbatim R s.store s'.store
  /-- Nobody leaves a snippet on a document. -/
  entire (n : NodeId) : s.store.Entire n → s'.store.Entire n

namespace Session.Handles

protected theorem refl (h : Tidy R anchor s.store) (hl : s.store.Labelled) : s.Handles R anchor s :=
  ⟨.refl h, hl, .refl _, .refl _, fun _ => id⟩

protected theorem trans (h₁ : s.Handles R anchor s') (h₂ : s'.Handles R anchor s'') :
    s.Handles R anchor s'' :=
  ⟨h₁.onTree.trans h₂.onTree, h₂.labelled, h₁.untouched.trans h₂.untouched,
    h₁.verbatim.trans h₂.verbatim, fun n hn => h₂.entire n (h₁.entire n hn)⟩

theorem tidy (h : s.Handles R anchor s') : Tidy R anchor s'.store := h.onTree.within.tidy

theorem has (h : s.Handles R anchor s') (hn : s.store.Has n) : s'.store.Has n :=
  h.onTree.within.confined.has hn

/-- Work within a part of a region is work within the region. -/
theorem widen (h : s.Handles R' anchor' s') (ht : Tidy R anchor s.store) (hR : ∀ m, R' m → R m)
    (ha : ∀ q, anchor' = some q → R q ∨ anchor = some q) : s.Handles R anchor s' := by
  obtain ⟨⟨t, rfl, hw⟩, hl, hu, hv, he⟩ := h
  refine ⟨.intro (hw.widen ht hR ha), hl, hu.mono fun m _ hm => ?_, hv.mono fun m _ => hR m, he⟩
  exact hm.elim (fun hm => .inl (hR m hm)) (ha m)

variable (h : Tidy R anchor s.store) (hl : s.store.Labelled)

include h hl

theorem clone (hc : s.store.Has c) :
    s.Handles R anchor { s with store := (s.store.clone c).2 } := by
  obtain ⟨x, hx⟩ := h.wellFormed.exists_holds c
  have hu := fun R => (h.wellFormed.holds_clone (R := R) h.owned hl hc hx).2.2
  exact ⟨.intro (h.clone hc).1, hl.clone, hu _, (hu _).verbatim,
    fun n => (hu fun _ => False).entire id⟩

theorem insertBefore {t : Store} (hp : s.store.isContainer p) (hc : s.store.Has c) (hR : R c)
    (hpR : R p ∨ anchor = some p) (halone : s.store.parent? c = none)
    (ht : s.store.insertBefore p (some c) (some e) = .ok t) :
    s.Handles R anchor { s with store := t } := by
  obtain ⟨hpay, -⟩ := h.wellFormed.insertBefore_parent? hp hc ht
  refine ⟨.intro (h.insertBefore hp hc hR hpR ht), hl.alike (.of_payload? hpay), ?_,
    .of_payload? hpay, fun n hn => hn.of_payload? (hpay n)⟩
  exact (h.wellFormed.untouched_insertBefore hp hc halone ht).mono fun m _ hm => hm ▸ hpR

/-- A node is taken out and disposed of. -/
theorem discard {t : Store} (hR : R e) (hp : s.store.parent? e = some p)
    (ht : s.store.removeChild p (some e) = .ok t) :
    s.Handles R anchor { s with store := t.dispose e } := by
  have hw := h.removeChild hR ht
  have hu := h.wellFormed.untouched_removeChild ht
  have hdetach : t = s.store.detach e := by
    rw [Store.removeChild, if_neg (by simp [hp])] at ht
    exact (Except.ok.inj ht).symm
  have hplace := (h.wellFormed.placeable hp).mono hu.kind?
  have halone : t.parent? e = none := by
    rw [hdetach, h.wellFormed.parent?_detach, if_pos rfl]
  have hgone := hw.tidy.wellFormed.untouched_disposeAll hw.tidy.owned (l := [e])
    (by simpa using ⟨hplace, halone⟩)
  have hbelow : ∀ m, (∃ x ∈ [e], t.Above x m) → R m := by
    rintro m ⟨x, hx, hup⟩
    obtain rfl := List.mem_singleton.mp hx
    exact hw.tidy.below hR hup
  refine ⟨.intro (hw.trans (hw.tidy.dispose hplace.has hR)), ?_, ?_, ?_, fun n hn => ?_⟩
  · rw [hdetach]
    exact (hl.alike (.of_payload? fun _ => Store.payload?_detach)).shrink .dispose
  · exact (hu.mono fun m _ hm => hm ▸ h.up e p hp hR).trans
      (hgone.mono fun m _ hm => .inl (hbelow m hm))
  · have hpay : ∀ m, t.payload? m = s.store.payload? m :=
      fun m => by rw [hdetach, Store.payload?_detach]
    exact (Verbatim.of_payload? hpay).trans (hgone.verbatim.mono fun m _ => hbelow m)
  · -- a document is not below what is taken out
    have hn' : t.Entire n := hn.of_payload? (by rw [hdetach, Store.payload?_detach])
    refine hgone.entire ?_ hn'
    rintro ⟨x, hx, hup⟩
    obtain rfl := List.mem_singleton.mp hx
    exact hplace.kind_ne.1 (hw.tidy.wellFormed.eq_of_above_document hn'.1 hup ▸ hn'.1)

end Session.Handles

namespace Language

/-- Removing definitions from a copy, which still stands nowhere. -/
theorem stripDefinitions_handles {id : Int} (h : Tidy R anchor s.store) (hl : s.store.Labelled)
    (hn : s.store.Has n) (hR : R n) (halone : s.store.parent? n = none) :
    (stripDefinitions id n).Yields s fun _ s' =>
      s.Handles R anchor s' ∧ s'.store.parent? n = none := by
  refine .bind (Work.store_yields ?_)
  refine (Action.Yields.forM (I := fun rest s' => (s.Handles R anchor s' ∧
    s'.store.parent? n = none) ∧ ∀ e ∈ rest, R e) (fun e rest s₁ hI => ?_) _
    ⟨⟨.refl h hl, halone⟩,
      fun e he => h.below hR (above_of_mem_elementsByName h.wellFormed hn he)⟩).imp
    fun _ _ hs' => hs'.1
  obtain ⟨⟨hs₁, halone₁⟩, hrest⟩ := hI
  obtain ⟨hRe, hrest⟩ := List.forall_mem_cons.mp hrest
  refine .bind (Work.store_yields ?_)
  split
  · exact .pure ⟨⟨hs₁, halone₁⟩, hrest⟩
  · rename_i p hp
    refine .bind (Work.tree_yields fun t ht => Work.modifyStore_yields ?_)
    have hgone := Session.Handles.discard hs₁.tidy hs₁.labelled hRe hp ht
    refine ⟨⟨hs₁.trans hgone, Option.eq_none_iff_forall_ne_some.mpr fun q hq => ?_⟩, hrest⟩
    -- nodes only lose their places
    have hw := hs₁.tidy.removeChild hRe ht
    have hq := hw.tidy.wellFormed.parent?_of_dispose (hw.confined.has (Store.has_of_parent? hp)) hq
    rw [Store.removeChild, if_neg (by simp [hp])] at ht
    obtain rfl := Except.ok.inj ht
    have hq := hs₁.tidy.wellFormed.parent?_of_detach hq
    rw [halone₁] at hq
    cases hq

/-- Putting a copy in place. -/
theorem insertCopy_handles {id : Int} (h : Tidy R anchor s.store) (hl : s.store.Labelled)
    (hc : s.store.Has c) (hp : s.store.isContainer parent) (hR : R parent ∨ anchor = some parent) :
    (insertCopy id parent e c).Yields s fun _ s' => s.Handles R anchor s' := by
  refine .bind (Work.store_yields ?_)
  split
  · exact .pure (.refl h hl)
  obtain ⟨x, hx⟩ := h.wellFormed.exists_holds c
  obtain ⟨-, halone, -⟩ := h.wellFormed.holds_clone (R := R) h.owned hl hc hx
  obtain ⟨-, hnew, hhas⟩ := h.clone hc
  have hs₁ := Session.Handles.clone h hl hc
  generalize hcopy : (s.store.clone c).1 = copy at halone hnew hhas
  have hRcopy : R copy := h.fresh copy hnew
  have hinsert : ∀ s₂ : Session, s.Handles R anchor s₂ → s₂.store.Has copy →
      s₂.store.parent? copy = none →
      (do
        Work.tree (·.insertBefore parent (some copy) (some e))
        return some copy : Work (Option NodeId)).Yields s₂ fun _ s' => s.Handles R anchor s' := by
    intro s₂ hs₂ hhas₂ halone₂
    refine .bind (Work.tree_yields fun t ht => .pure (hs₂.trans ?_))
    exact .insertBefore hs₂.tidy hs₂.labelled
      (Store.isContainer_of_kind? hp hs₂.onTree.within.confined.kind?) hhas₂ hRcopy hR halone₂ ht
  refine .bind (Work.fresh_yields (.bind (Work.store_yields ?_)))
  rw [hcopy]
  dsimp only
  split
  · refine .bind
      ((stripDefinitions_handles hs₁.tidy hs₁.labelled hhas hRcopy halone).imp fun _ s₂ hs₂ => ?_)
    exact hinsert s₂ (hs₁.trans hs₂.1) (hs₂.1.has hhas) hs₂.2
  · exact hinsert _ hs₁ hhas halone

theorem insertCopies_handles {id : Int} {content : List NodeId} (h : Tidy R anchor s.store)
    (hl : s.store.Labelled) (hc : ∀ c ∈ content, s.store.Has c) (hp : s.store.isContainer parent)
    (hR : R parent ∨ anchor = some parent) :
    (insertCopies id parent e content).Yields s fun _ s' => s.Handles R anchor s' := by
  refine (Work.enqueueEach_yields (I := fun rest _ s' => s.Handles R anchor s' ∧
    ∀ c ∈ rest, s'.store.Has c) (fun c rest _ s₁ hI => ?_) _ ⟨.refl h hl, hc⟩).imp fun _ _ hs' =>
      hs'.1
  obtain ⟨hs₁, hrest⟩ := hI
  obtain ⟨hhas, hrest⟩ := List.forall_mem_cons.mp hrest
  have hp₁ := Store.isContainer_of_kind? hp hs₁.onTree.within.confined.kind?
  exact (insertCopy_handles hs₁.tidy hs₁.labelled hhas hp₁ hR).imp fun _ s₂ hs₂ =>
    ⟨hs₁.trans hs₂, fun d hd => hs₂.has (hrest d hd)⟩

/-- **Loading** is noticed at the element, and at the node that it stands below. -/
theorem load_handles {d : Dialect} (h : s.store.WellFormed) (ho : s.store.Owned)
    (hl : s.store.Labelled) : (load d e).Yields s fun _ s' =>
      s.Handles (s.store.Region e) (s.store.parent? e) s' := by
  have hR := h.tidy_region ho e
  refine .bind (Work.extract_yields fun attrs => .bind (.get ?_))
  split
  · exact Work.fail_yields
  refine .bind (Work.store_yields ?_)
  split
  · exact .pure (.refl hR hl)
  rename_i parent hparent
  have hp : s.store.isContainer parent := (h.fits e parent hparent).isContainer
  refine .bind (Work.store_yields (.bind ((insertCopies_handles (h.tidy_new ho (some parent)) hl
    (fun c hc => has_of_mem_contentOf h hc) hp (.inr rfl)).imp fun copies s₁ hs₁ => ?_)))
  have hparent₁ : s₁.store.parent? e = some parent := by
    rw [hs₁.onTree.within.confined.parent? e (not_not.mpr (Store.has_of_parent? hparent)), hparent]
  have hs₁ : s.Handles (s.store.Region e) (s.store.parent? e) s₁ :=
    hs₁.widen hR (fun m hm => .inr hm) fun q hq => .inr (hparent.trans hq)
  exact .bind (Work.leaving_yields (Work.tree_yields fun t ht => .bind (Work.modifyStore_yields
    (.pure (hs₁.trans (.discard hs₁.tidy hs₁.labelled (.inl (.refl e)) hparent₁ ht))))))

end Language

end Stencil
