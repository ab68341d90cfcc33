import Mathlib.Data.List.Find
import Stencil.Proofs.Tree.Copies

/-!
# Attributes under their names

A table lists attributes under the full names that they had when they were added. No operation
renames an attribute, so what an attribute is listed under is its name (`Store.Labelled`), and
looking one up in a table is looking for one that says the right name. What a lookup finds is
therefore settled by what the attributes say, and a copy of an element gives the same answers as the
element that was copied.

Whoever looks for attributes sees only a part of a payload, its face, and most operations change no
face at all (`Store.Alike`).

## Main definitions

* `Payload.facet?`, `Store.facet?` – what an attribute says, whoever owns it
* `Payload.face` – what is seen of a payload when attributes are looked for
* `Store.Labelled` – attributes are listed under their names
* `Store.Alike`, `Store.Shrinks` – no face changes; tables lose entries at most

## Main results

* `Labelled.attribute?_eq` – looking for an attribute
* `Labelled.clone`, `Labelled.shrink` – what keeps attributes listed under their names
-/

namespace Stencil.Tree

namespace Payload

/-- The attribute table; empty if this is no element. -/
def table : Payload → OrderedMap Text NodeId
  | element d => d.attrs
  | _ => .empty

/-- What an attribute says, whoever owns it. -/
def facet? : Payload → Option AttributeData
  | attr d => some { d with owner := none }
  | _ => none

/-- What is seen when attributes are looked for. -/
def face (p : Payload) :
    (NodeKind × Option Int × Text) × OrderedMap Text NodeId × Option AttributeData :=
  (p.tag, p.table, p.facet?)

/-- The payload with an element changed. -/
def mapElement (f : ElementData → ElementData) : Payload → Payload
  | element d => element (f d)
  | p => p

/-- The payload with an attribute changed. -/
def mapAttr (f : AttributeData → AttributeData) : Payload → Payload
  | attr d => attr (f d)
  | p => p

/-- The payload with a document changed. -/
def mapDocument (f : DocumentData → DocumentData) : Payload → Payload
  | document d => document (f d)
  | p => p

theorem facet?_loose (p : Payload) : p.loose.facet? = p.facet? := by cases p <;> rfl

end Payload

namespace Store

variable {s s' : Store} {n m e a : NodeId} {node : Node} {name : Text}

/-- What an attribute says, whoever owns it. -/
def facet? (s : Store) (a : NodeId) : Option AttributeData := (s.payload? a).bind Payload.facet?

/-- The full name of an attribute. -/
def attrName? (s : Store) (a : NodeId) : Option Text := (s.facet? a).map AttributeData.full

/-- Attributes are listed under their names, and no name is listed twice. -/
structure Labelled (s : Store) : Prop where
  name (e : NodeId) (entry : Text × NodeId) :
    entry ∈ (s.attributeTable e).entries → s.attrName? entry.2 = some entry.1
  nodup (e : NodeId) : (s.attributeTable e).keys.Nodup

theorem attributeTable_eq (s : Store) (e : NodeId) :
    s.attributeTable e = ((s.payload? e).map Payload.table).getD .empty := by
  rw [attributeTable, element?]
  cases s.payload? e with
  | none => rfl
  | some p => cases p <;> rfl

theorem attributeTable_of_not_has (h : ¬ s.Has e) : s.attributeTable e = .empty := by
  rw [attributeTable_eq, payload?, get?_eq_none_iff.mpr h]
  rfl

/-- Whether attributes are listed under their names can be seen on the nodes there are. -/
theorem labelled_of_forall (h : ∀ e < s.nodes.size,
    (∀ entry ∈ (s.attributeTable e).entries, s.attrName? entry.2 = some entry.1) ∧
      (s.attributeTable e).keys.Nodup) : s.Labelled := by
  refine ⟨fun e entry he => ?_, fun e => ?_⟩
  · by_cases hhas : s.Has e
    · exact (h e hhas).1 entry he
    · rw [attributeTable_of_not_has hhas] at he
      cases he
  · by_cases hhas : s.Has e
    · exact (h e hhas).2
    · rw [attributeTable_of_not_has hhas]
      exact List.nodup_nil

theorem labelled_empty : Labelled {} := labelled_of_forall fun _ he => absurd he (Nat.not_lt_zero _)

theorem facet?_of_attr? {d : AttributeData} (h : s.attr? a = some d) :
    s.facet? a = some { d with owner := none } := by
  rw [facet?, payload?_of_attr? h]
  rfl

theorem exists_attr?_of_attrName? (h : s.attrName? a = some name) : ∃ d, s.attr? a = some d := by
  rw [attrName?, facet?] at h
  rw [attr?]
  cases hp : s.payload? a with
  | none => simp [hp] at h
  | some p =>
    cases p with
    | attr d => exact ⟨d, rfl⟩
    | _ => simp [hp, Payload.facet?] at h

theorem label_of_attrName? (h : s.attrName? a = some name) : s.label a = name := by
  obtain ⟨d, hd⟩ := exists_attr?_of_attrName? h
  rw [label, payload?_of_attr? hd]
  rw [attrName?, facet?_of_attr? hd] at h
  exact Option.some.inj h

theorem Labelled.listed (h : s.Labelled) : s.Listed := by
  intro e a ha
  obtain ⟨entry, hentry, rfl⟩ := List.mem_map.mp ha
  obtain ⟨d, hd⟩ := exists_attr?_of_attrName? (h.name e entry hentry)
  rw [kind?, payload?_of_attr? hd]
  rfl

/-- What an attribute says is part of what it says as a node. -/
theorem facet?_eq_loose (s : Store) (a : NodeId) :
    s.facet? a = (s.loose a).bind fun node => node.payload.facet? := by
  rw [facet?, payload?, loose]
  cases s.get? a with
  | none => rfl
  | some node => exact (node.payload.facet?_loose).symm

/-- Looking for an attribute in a table is looking for one that says the name. -/
theorem Labelled.attribute?_eq (h : s.Labelled) (e : NodeId) (name : Text) :
    s.attribute? e name = (s.attributes e).find? fun a => s.attrName? a = some name := by
  rw [attribute?, OrderedMap.get?, attributes, OrderedMap.values, List.find?_map]
  congr 1
  refine List.find?_congr fun entry hentry => ?_
  simp [h.name e entry hentry]

/-- What the attribute of the given name says. -/
def facetOf? (s : Store) (e : NodeId) (name : Text) : Option AttributeData :=
  (s.attribute? e name).bind s.facet?

/-- What the attribute of a name says is settled by what all attributes say. -/
theorem Labelled.facetOf?_congr (h : s.Labelled) (h' : s'.Labelled)
    (hattrs : (s'.attributes n).map s'.facet? = (s.attributes m).map s.facet?) (name : Text) :
    s'.facetOf? n name = s.facetOf? m name := by
  have hfind : ∀ {t : Store}, t.Labelled → ∀ k, t.facetOf? k name =
      (((t.attributes k).map t.facet?).find? fun o => o.map AttributeData.full =
        some name).join := by
    intro t ht k
    rw [facetOf?, ht.attribute?_eq, List.find?_map]
    change _ = (Option.map t.facet? ((t.attributes k).find? fun a => t.attrName? a =
      some name)).join
    cases (t.attributes k).find? fun a => t.attrName? a = some name <;> rfl
  rw [hfind h', hattrs, ← hfind h]

/-- No two attributes of a node have one name. -/
theorem Labelled.distinct (h : s.Labelled) (n : NodeId) : s.Distinct n := by
  have hkeys : (s.attributes n).map s.label = (s.attributeTable n).keys := by
    rw [attributes, OrderedMap.values, OrderedMap.keys, List.map_map]
    exact List.map_congr_left fun entry hentry => label_of_attrName? (h.name n entry hentry)
  rw [Distinct, hkeys]
  exact h.nodup n

/-! ### Payloads after a change -/

theorem payload?_setPayload_eq {p : Payload} : (s.setPayload n p).payload? m =
    if m = n then (s.payload? n).map fun _ => p else s.payload? m := by
  rw [setPayload, payload?, get?_modify]
  split
  · rename_i h
    rw [if_pos h.symm, ← h, payload?]
    cases s.get? n <;> rfl
  · rename_i h
    rw [if_neg (Ne.symm h), payload?]

/-- A payload was replaced. -/
theorem payload?_setPayload_map {p : Payload} {g : Payload → Payload} (hp : s.payload? n = some p) :
    (s.setPayload n (g p)).payload? m =
      if m = n then (s.payload? n).map g else s.payload? m := by
  rw [payload?_setPayload_eq, hp]
  rfl

/-- A payload is as it was. -/
theorem payload?_eq_map {g : Payload → Payload} (h : ∀ p, s.payload? n = some p → g p = p) :
    s.payload? m = if m = n then (s.payload? n).map g else s.payload? m := by
  split
  · rename_i hm
    rw [hm]
    cases hp : s.payload? n with
    | none => rfl
    | some p => rw [Option.map_some, h p hp]
  · rfl

theorem payload?_modifyElement {f : ElementData → ElementData} : (s.modifyElement n f).payload? m =
    if m = n then (s.payload? n).map (Payload.mapElement f) else s.payload? m := by
  rw [modifyElement]
  split
  · rename_i d hd
    exact payload?_setPayload_map (p := .element d) (g := Payload.mapElement f)
      (payload?_of_element? hd)
  · rename_i hd
    refine payload?_eq_map fun p hp => ?_
    cases p with
    | element d => simp [element?, hp] at hd
    | _ => rfl

theorem payload?_modifyAttr {f : AttributeData → AttributeData} : (s.modifyAttr n f).payload? m =
    if m = n then (s.payload? n).map (Payload.mapAttr f) else s.payload? m := by
  rw [modifyAttr]
  split
  · rename_i d hd
    exact payload?_setPayload_map (p := .attr d) (g := Payload.mapAttr f) (payload?_of_attr? hd)
  · rename_i hd
    refine payload?_eq_map fun p hp => ?_
    cases p with
    | attr d => simp [attr?, hp] at hd
    | _ => rfl

theorem payload?_modifyDocument {f : DocumentData → DocumentData} :
    (s.modifyDocument n f).payload? m =
      if m = n then (s.payload? n).map (Payload.mapDocument f) else s.payload? m := by
  rw [modifyDocument]
  split
  · rename_i d hd
    exact payload?_setPayload_map (p := .document d) (g := Payload.mapDocument f)
      (payload?_of_document? hd)
  · rename_i hd
    refine payload?_eq_map fun p hp => ?_
    cases p with
    | document d => simp [document?, hp] at hd
    | _ => rfl

theorem has_iff_payload? : s.Has n ↔ (s.payload? n).isSome := by
  constructor
  · intro h
    obtain ⟨node, hnode⟩ := h.exists_get?
    simp [payload?, hnode]
  · intro h
    obtain ⟨p, hp⟩ := Option.isSome_iff_exists.mp h
    exact has_of_payload? hp

section Maps

variable {g : Payload → Payload}
  (h : ∀ m, s'.payload? m = if m = n then (s.payload? n).map g else s.payload? m)

include h

theorem tag?_of_map (hg : ∀ p, (g p).tag = p.tag) : s'.tag? m = s.tag? m := by
  rw [tag?, h, tag?]
  split
  · rename_i hm
    rw [hm, Option.map_map]
    exact congrArg (Option.map · _) (funext hg)
  · rfl

theorem facet?_of_map (hg : ∀ p, (g p).facet? = p.facet?) : s'.facet? m = s.facet? m := by
  rw [facet?, h, facet?]
  split
  · rename_i hm
    rw [hm, Option.bind_map]
    exact congrArg (Option.bind _) (funext hg)
  · rfl

end Maps

/-- Copying attributes adds attributes only. -/
theorem eq_attr_of_copyAttributes {as : List NodeId} {k : NodeKind}
    (h : (copyAttributes e as s).kind? m = some k) : s.Has m ∨ k = .attr := by
  induction as generalizing s with
  | nil => exact .inl (has_of_kind? h)
  | cons a as ih =>
    rw [copyAttributes] at h
    split at h
    · rename_i node d hnode hd
      dsimp only at h
      generalize hcopy :
        ({ node with payload := .attr { d with owner := none }, links := {} } : Node) = copy at h
      have hg : Growth (s.add copy).2 (((s.add copy).2.addAttribute e
          (some (s.add copy).1)).toOption.getD (s.add copy).2) := by
        cases hok : (s.add copy).2.addAttribute e (some (s.add copy).1) with
        | error => exact .refl _
        | ok => exact .addAttribute hok
      refine (ih h).elim (fun hhas => ?_) .inr
      have hhas' : (s.add copy).2.Has m := by
        cases hok : (s.add copy).2.addAttribute e (some (s.add copy).1) with
        | error => rwa [hok] at hhas
        | ok => exact (has_addAttribute hok).mp (by rwa [hok] at hhas)
      by_cases hm : m = (s.add copy).1
      · have hkind : (s.add copy).2.kind? m = some .attr := by
          rw [hm, kind?_add_self, ← hcopy]
          rfl
        exact .inr (Option.some.inj (h.symm.trans
          (Growth.copyAttributes.kind? m _ (hg.kind? m _ hkind))))
      · rw [has_iff_payload?, payload?_add, if_neg hm, ← has_iff_payload?] at hhas'
        exact .inl hhas'
    · exact ih h

/-- The only element that a copy of a node adds is the copy. -/
theorem eq_of_isElement_copyNode (hn : s.Has n) (hm : ¬ s.Has m)
    (he : (s.copyNode n).2.isElement m) : m = (s.copyNode n).1 := by
  have hadd : ∀ node : Node, (s.add node).2.Has m → m = (s.add node).1 := by
    intro node hhas
    by_contra hne
    rw [has_iff_payload?, payload?_add, if_neg hne, ← has_iff_payload?] at hhas
    exact hm hhas
  obtain ⟨tag, htag⟩ := isElement_iff_tag?.mp he
  have hkind : (s.copyNode n).2.kind? m = some .element := by rw [kind?_eq_map_tag?, htag]; rfl
  obtain ⟨⟨payload, links, visible, line⟩, hnode⟩ := hn.exists_get?
  rw [copyNode, hnode] at hkind ⊢
  cases payload with
  | element d => exact (eq_attr_of_copyAttributes hkind).elim (hadd _) fun h => by cases h
  | _ => exact hadd _ (has_of_kind? hkind)

theorem map_facet?_of_map_loose {l l' : List NodeId} (h : l.map s'.loose = l'.map s.loose) :
    l.map s'.facet? = l'.map s.facet? := by
  have hfacet : ∀ (t : Store) (l : List NodeId), l.map t.facet? =
      (l.map t.loose).map fun o => o.bind fun node => node.payload.facet? := by
    intro t l
    rw [List.map_map]
    exact List.map_congr_left fun a _ => facet?_eq_loose t a
  rw [hfacet, h, ← hfacet]

/-! ### Nothing to be seen -/

/-- No face changes. -/
def Alike (s s' : Store) :
    Prop := ∀ n, (s'.payload? n).map Payload.face = (s.payload? n).map Payload.face

namespace Alike

theorem of_payload? (h : ∀ n, s'.payload? n = s.payload? n) : Alike s s' := fun n => by rw [h]

theorem of_map {g : Payload → Payload} (hg : ∀ p, (g p).face = p.face)
    (h : ∀ m, s'.payload? m = if m = n then (s.payload? n).map g else s.payload? m) :
    Alike s s' := by
  intro m
  rw [h]
  split
  · rename_i hm
    rw [hm, Option.map_map]
    exact congrArg (Option.map · _) (funext hg)
  · rfl

protected theorem trans {s'' : Store} (h : Alike s s') (h' : Alike s' s'') : Alike s s'' := fun n =>
  (h' n).trans (h n)

theorem modifyElement {f : ElementData → ElementData}
    (hf : ∀ d, (f d).uri = d.uri ∧ (f d).name = d.name ∧ (f d).attrs = d.attrs) :
    Alike s (s.modifyElement n f) := by
  refine of_map (fun p => ?_) fun m => payload?_modifyElement
  cases p with
  | element d =>
    simp [Payload.mapElement, Payload.face, Payload.tag, Payload.table, hf, Payload.facet?]
  | _ => rfl

theorem modifyDocument {f : DocumentData → DocumentData} : Alike s (s.modifyDocument n f) := by
  refine of_map (fun p => ?_) fun m => payload?_modifyDocument
  cases p <;> rfl

variable (h : Alike s s')

include h

theorem tag? (n : NodeId) : s'.tag? n = s.tag? n := by
  have := congrArg (Option.map Prod.fst) (h n)
  rwa [Option.map_map, Option.map_map] at this

theorem attributeTable (e : NodeId) : s'.attributeTable e = s.attributeTable e := by
  have := congrArg (Option.map fun f => f.2.1) (h e)
  rw [Option.map_map, Option.map_map] at this
  rw [attributeTable_eq, attributeTable_eq]
  exact congrArg (Option.getD · _) this

theorem attributes (e : NodeId) : s'.attributes e = s.attributes e := by
  rw [Store.attributes, h.attributeTable, Store.attributes]

theorem facet? (a : NodeId) : s'.facet? a = s.facet? a := by
  have := congrArg (Option.bind · fun f => f.2.2) (h a)
  rwa [Option.bind_map, Option.bind_map] at this

end Alike

/-! ### Tables -/

/-- Tables lose entries at most, and no attribute is renamed. -/
structure Shrinks (s s' : Store) : Prop where
  entries (e : NodeId) : (s'.attributeTable e).entries.Sublist (s.attributeTable e).entries
  attrName? (a : NodeId) (name : Text) : s.attrName? a = some name → s'.attrName? a = some name

namespace Shrinks

@[refl] protected theorem refl (s : Store) : Shrinks s s := ⟨fun _ => .refl _, fun _ _ h => h⟩

protected theorem trans {s'' : Store} (h : Shrinks s s') (h' : Shrinks s' s'') : Shrinks s s'' :=
  ⟨fun e => (h'.entries e).trans (h.entries e), fun a x hx => h'.attrName? a x (h.attrName? a x hx)⟩

theorem of_alike (h : Alike s s') : Shrinks s s' where
  entries e := by rw [h.attributeTable]
  attrName? a x hx := by rwa [Store.attrName?, h.facet?]

theorem foldl {f : Store → NodeId → Store} (hf : ∀ s n, Shrinks s (f s n)) (l : List NodeId) :
    Shrinks s (l.foldl f s) := by
  induction l generalizing s with
  | nil => rfl
  | cons n l ih => exact (hf s n).trans ih

/-- A new node without attributes. -/
theorem add (hn : node.payload.table = .empty) : Shrinks s (s.add node).2 where
  entries e := by
    rw [attributeTable_eq, payload?_add, attributeTable_eq]
    split
    · rw [Option.map_some, hn]
      exact List.nil_sublist _
    · exact .refl _
  attrName? a x hx := by
    have hne : a ≠ (s.add node).1 := by
      rintro rfl
      rw [Store.attrName?, Store.facet?, payload?, get?_eq_none_iff.mpr not_has_add] at hx
      cases hx
    rwa [Store.attrName?, Store.facet?, payload?_add, if_neg hne]

theorem of_map {g : Payload → Payload} (htable : ∀ p, (g p).table.entries.Sublist p.table.entries)
    (hname : ∀ p, (g p).facet?.map AttributeData.full = p.facet?.map AttributeData.full)
    (h : ∀ m, s'.payload? m = if m = n then (s.payload? n).map g else s.payload? m) :
    Shrinks s s' where
  entries e := by
    rw [attributeTable_eq, h, attributeTable_eq]
    split
    · rename_i he
      rw [he]
      cases s.payload? n with
      | none => exact .refl _
      | some p => exact htable p
    · exact .refl _
  attrName? a x hx := by
    rw [Store.attrName?, Store.facet?] at hx ⊢
    rw [h]
    split
    · rename_i ha
      rw [ha] at hx
      cases hp : s.payload? n with
      | none => rwa [hp] at hx
      | some p =>
        rw [hp] at hx
        exact (hname p).trans hx
    · exact hx

theorem modifyAttr {f : AttributeData → AttributeData} (hf : ∀ d, (f d).full = d.full) :
    Shrinks s (s.modifyAttr n f) := by
  refine of_map (fun p => ?_) (fun p => ?_) fun m => payload?_modifyAttr
  · cases p <;> exact .refl _
  · cases p with
    | attr d => exact congrArg some (hf d)
    | _ => rfl

theorem setValue {v : Value} : Shrinks s (s.setValue n v) := modifyAttr fun _ => rfl

theorem disown : Shrinks s (s.disown a) := modifyAttr fun _ => rfl

theorem discardAttributes : Shrinks s (s.discardAttributes n) := by
  have hstep (t : Store) (a : NodeId) : Shrinks t ((t.disown a).setValue a (.literal [])) :=
    disown.trans setValue
  rw [Store.discardAttributes]
  refine (foldl hstep _).trans (of_map (fun p => ?_) (fun p => ?_) fun m => payload?_modifyElement)
  · cases p with
    | element d => exact List.nil_sublist _
    | _ => exact .refl _
  · cases p <;> rfl

theorem clearNode : Shrinks s (s.clearNode n) := by
  have hlinks : Shrinks s (s.relink n fun l => l.alone.childless) :=
    of_alike (.of_payload? fun _ => payload?_relink)
  rw [Store.clearNode]
  exact hlinks.trans (discardAttributes.trans (of_alike .modifyDocument))

theorem dispose : Shrinks s (s.dispose n) := by
  have hdetach : Shrinks s (s.detach n) := of_alike (.of_payload? fun _ => payload?_detach)
  rw [Store.dispose]
  exact hdetach.trans (foldl (fun _ _ => clearNode) _)

end Shrinks

namespace Labelled

theorem shrink (h : s.Labelled) (hs : Shrinks s s') : s'.Labelled where
  name e entry hentry := hs.attrName? _ _ (h.name e entry ((hs.entries e).subset hentry))
  nodup e := ((hs.entries e).map Prod.fst).nodup (h.nodup e)

theorem alike (h : s.Labelled) (ha : Alike s s') : s'.Labelled := h.shrink (.of_alike ha)

/-- An attribute is added under its name. -/
theorem addAttribute (h : s.Labelled) (ha : (s.attrName? a).isSome)
    (hok : s.addAttribute e (some a) = .ok s') : s'.Labelled := by
  obtain ⟨name, hname⟩ := Option.isSome_iff_exists.mp ha
  rw [Store.addAttribute, label_of_attrName? hname, OrderedMap.insert?] at hok
  split at hok
  · cases hok
  rename_i attrs hattrs
  split at hattrs
  · cases hattrs
  rename_i hfree
  obtain rfl := Except.ok.inj hok
  obtain rfl := Option.some.inj hattrs
  generalize ht : s.modifyElement e (fun d => { d with
    attrs := ⟨(s.attributeTable e).entries ++ [(name, a)]⟩ }) = t
  have howner : Alike t (t.modifyAttr a fun d => { d with owner := some e }) := by
    refine .of_map (fun p => ?_) fun m => payload?_modifyAttr
    cases p <;> rfl
  refine Labelled.alike ?_ howner
  have hnames : ∀ x, t.attrName? x = s.attrName? x := by
    intro x
    rw [attrName?, Store.facet?, ← ht, payload?_modifyElement, attrName?, Store.facet?]
    split
    · rename_i hx
      rw [hx]
      cases s.payload? e with
      | none => rfl
      | some p => cases p <;> rfl
    · rfl
  have htable : ∀ m, t.attributeTable m = s.attributeTable m ∨
      m = e ∧ t.attributeTable m = ⟨(s.attributeTable e).entries ++ [(name, a)]⟩ := by
    intro m
    rw [attributeTable_eq, ← ht, payload?_modifyElement, attributeTable_eq s m]
    split
    · rename_i hm
      subst hm
      cases s.payload? m with
      | none => exact .inl rfl
      | some p => cases p <;> first | exact .inr ⟨rfl, rfl⟩ | exact .inl rfl
    · exact .inl rfl
  refine ⟨fun m entry hentry => ?_, fun m => ?_⟩
  · rw [hnames]
    rcases htable m with hm | ⟨rfl, hm⟩
    · exact h.name m entry (hm ▸ hentry)
    · rw [hm] at hentry
      rcases List.mem_append.mp hentry with hentry | hentry
      · exact h.name m entry hentry
      · obtain rfl := List.mem_singleton.mp hentry
        exact hname
  · rcases htable m with hm | ⟨rfl, hm⟩
    · exact hm ▸ h.nodup m
    · rw [OrderedMap.contains_iff_mem_keys] at hfree
      rw [hm, OrderedMap.keys, List.map_append]
      refine List.nodup_append'.mpr ⟨h.nodup m, List.nodup_singleton _, fun k hk hk' => hfree ?_⟩
      obtain rfl := List.mem_singleton.mp hk'
      exact hk

/-! ### Copies -/

theorem copyAttributes {as : List NodeId} (h : s.Labelled) : (copyAttributes e as s).Labelled := by
  induction as generalizing s with
  | nil => exact h
  | cons a as ih =>
    rw [Store.copyAttributes]
    split
    · rename_i node d hnode hd
      dsimp only
      generalize hcopy :
        ({ node with payload := .attr { d with owner := none }, links := {} } : Node) = copy
      have hadd : (s.add copy).2.Labelled := h.shrink (.add (by rw [← hcopy]; rfl))
      refine ih ?_
      cases hok : (s.add copy).2.addAttribute e (some (s.add copy).1) with
      | error => exact hadd
      | ok s₂ =>
        refine hadd.addAttribute ?_ hok
        rw [attrName?, Store.facet?, payload?_add, if_pos rfl, ← hcopy]
        rfl
    · exact ih h

theorem copyNode (h : s.Labelled) : (s.copyNode n).2.Labelled := by
  rw [Store.copyNode]
  split
  · exact h
  · dsimp only
    split
    · exact copyAttributes (h.shrink (.add rfl))
    · exact h.shrink (.add rfl)
    · rename_i node _ _ helement _
      refine h.shrink (.add ?_)
      cases hpay : node.payload with
      | element d => exact absurd hpay (helement d)
      | _ => rfl

theorem attachLast {p : NodeId} (h : s.Labelled) : (s.attachLast p n).Labelled :=
  h.alike (.of_payload? fun _ => payload?_attachLast)

theorem copyLevels {limit : Nat} {level : List (NodeId × NodeId)} (h : s.Labelled) :
    (copyLevels limit level s).Labelled := by
  have hlevel : ∀ (level : List (NodeId × NodeId)) (acc : Array (NodeId × NodeId) × Store),
      acc.2.Labelled → (level.foldl copyBelow acc).2.Labelled := by
    intro level
    induction level with
    | nil => exact fun acc hacc => hacc
    | cons entry level ih => exact fun acc hacc => ih _ hacc.copyNode.attachLast
  induction limit generalizing level s with
  | zero => exact h
  | succ limit ih =>
    cases level with
    | nil => exact h
    | cons entry level => exact ih (hlevel (entry :: level) (#[], s) h)

/-- A copy lists its attributes under their names. -/
theorem clone (h : s.Labelled) : (s.clone n).2.Labelled := h.copyNode.copyLevels

end Labelled

/-! ### Clearing -/

theorem facet?_setValue_of_ne {v : Value} (h : m ≠ a) : (s.setValue a v).facet? m = s.facet? m := by
  rw [setValue, facet?, payload?_modifyAttr, if_neg h, facet?]

theorem facet?_disown : (s.disown a).facet? m = s.facet? m :=
  facet?_of_map (fun _ => payload?_modifyAttr) fun p => by cases p <;> rfl

theorem tag?_setValue {v : Value} : (s.setValue a v).tag? m = s.tag? m :=
  tag?_of_map (fun _ => payload?_modifyAttr) fun p => by cases p <;> rfl

theorem tag?_disown : (s.disown a).tag? m = s.tag? m :=
  tag?_of_map (fun _ => payload?_modifyAttr) fun p => by cases p <;> rfl

theorem foldl_discard {l : List NodeId} :
    (l.foldl (fun s a => (s.disown a).setValue a (.literal [])) s).tag? m = s.tag? m ∧
      (m ∉ l → (l.foldl (fun s a => (s.disown a).setValue a (.literal [])) s).facet? m =
        s.facet? m) := by
  induction l generalizing s with
  | nil => exact ⟨rfl, fun _ => rfl⟩
  | cons a l ih =>
    obtain ⟨htag, hfacet⟩ := ih (s := (s.disown a).setValue a (.literal []))
    refine ⟨htag.trans (tag?_setValue.trans tag?_disown), fun hm => ?_⟩
    rw [List.mem_cons, not_or] at hm
    exact (hfacet hm.2).trans ((facet?_setValue_of_ne hm.1).trans facet?_disown)

/-- Clearing a node renames nothing. -/
theorem tag?_clearNode_eq : (s.clearNode n).tag? m = s.tag? m := by
  rw [clearNode, Alike.modifyDocument.tag?, discardAttributes,
    tag?_of_map (fun _ => payload?_modifyElement) fun p => by cases p <;> rfl, foldl_discard.1,
    tag?, payload?_relink, tag?]

/-- Clearing a node changes only what its own attributes say. -/
theorem facet?_clearNode (h : a ∉ s.attributes n) : (s.clearNode n).facet? a = s.facet? a := by
  have hattrs : (s.relink n fun l => l.alone.childless).attributes n = s.attributes n :=
    attributes_congr payload?_relink
  rw [clearNode, Alike.modifyDocument.facet?, discardAttributes,
    facet?_of_map (fun _ => payload?_modifyElement) fun p => by cases p <;> rfl, hattrs,
    foldl_discard.2 h, facet?, payload?_relink, facet?]

end Store

end Stencil.Tree
