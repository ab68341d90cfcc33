import Stencil.Proofs.Tree.Content

/-!
# Copies are faithful

A copy says what was copied: it has the same content, and is made of nodes that did not exist
before. Copying goes breadth first, with a queue of nodes still to be copied, each with the copy of
its parent. While it is under way, a copy has some of the children that it is going to have, and the
others are in the queue in the right order; that is the invariant, and with an empty queue it says
that the copies correspond to what was copied (`Copying`).

An attribute is copied under the name it has, so of two attributes with one name a copy would have
only the first. No element of a template has two (`Distinct`).

Copying is written level by level. `copyTurn` is one turn of the loop that has a single queue and no
limit: it takes the entry at the head and puts the children behind all others. Both come to the
same.

## Main definitions

* `Store.Distinct` – the attributes of a node have different names
* `Store.Listed`, `Store.owner?` – what is listed is an attribute; the element of an attribute
* `Store.Copying` – a copy under way
* `Store.copyTurn` – a turn of the loop

## Main results

* `WellFormed.clone_copying` – copying ends with an empty queue
* `WellFormed.clone_copies` – a copy has the same content, and what was there before is untouched
-/

namespace Stencil.Tree

theorem Payload.label_loose (p : Payload) : p.loose.label = p.label := by cases p <;> rfl

theorem Payload.nodeKind_loose (p : Payload) : p.loose.nodeKind = p.nodeKind := by cases p <;> rfl

namespace Store

variable {s s' s₀ : Store} {n m c e a p : NodeId} {node : Node}

/-! ### What nodes say after a change -/

theorem loose_congr (h : s'.get? n = s.get? n) : s'.loose n = s.loose n := by rw [loose, h, loose]

theorem payload?_congr (h : s'.get? n = s.get? n) : s'.payload? n = s.payload? n := by
  rw [payload?, h, payload?]

/-- The name of a node in messages is part of what it says. -/
theorem label_eq_loose (s : Store) (n : NodeId) :
    s.label n = ((s.loose n).map fun node => node.payload.label).getD
      (Text.ofString "#unknown") := by
  rw [label, loose, payload?, Option.map_map, Option.map_map]
  congr 2
  funext node
  exact node.payload.label_loose.symm

theorem label_eq_of_loose (h : s'.loose n = s.loose m) : s'.label n = s.label m := by
  rw [label_eq_loose, h, ← label_eq_loose]

/-- The kind of a node is part of what it says. -/
theorem kind?_eq_loose (s : Store) (n : NodeId) :
    s.kind? n = (s.loose n).map fun node => node.payload.nodeKind := by
  rw [kind?, loose, payload?, Option.map_map, Option.map_map]
  congr 1
  funext node
  exact node.payload.nodeKind_loose.symm

theorem kind?_eq_of_loose (h : s'.loose n = s.loose m) : s'.kind? n = s.kind? m := by
  rw [kind?_eq_loose, h, ← kind?_eq_loose]

theorem has_of_loose (h : s'.loose n = s.loose m) (hm : s.Has m) : s'.Has n := by
  obtain ⟨k, hk⟩ := hm.exists_kind?
  exact has_of_kind? ((kind?_eq_of_loose h).trans hk)

theorem get?_modifyElement_of_ne {f : ElementData → ElementData} (h : m ≠ n) :
    (s.modifyElement n f).get? m = s.get? m := by
  rw [modifyElement]
  split
  · rw [setPayload, get?_modify, if_neg (Ne.symm h)]
  · rfl

theorem get?_modifyAttr_of_ne {f : AttributeData → AttributeData} (h : m ≠ n) :
    (s.modifyAttr n f).get? m = s.get? m := by
  rw [modifyAttr]
  split
  · rw [setPayload, get?_modify, if_neg (Ne.symm h)]
  · rfl

theorem get?_modifyDocument_of_ne {f : DocumentData → DocumentData} (h : m ≠ n) :
    (s.modifyDocument n f).get? m = s.get? m := by
  rw [modifyDocument]
  split
  · rw [setPayload, get?_modify, if_neg (Ne.symm h)]
  · rfl

@[simp] theorem has_modify {f : Node → Node} : (s.modify n f).Has m ↔ s.Has m := by
  simp [Has, modify]

theorem has_modifyElement {f : ElementData → ElementData} :
    (s.modifyElement n f).Has m ↔ s.Has m := by
  rw [modifyElement]
  split
  · exact has_modify
  · rfl

theorem has_modifyAttr {f : AttributeData → AttributeData} :
    (s.modifyAttr n f).Has m ↔ s.Has m := by
  rw [modifyAttr]
  split
  · exact has_modify
  · rfl

theorem has_addAttribute {o : Option NodeId} (h : s.addAttribute e o = .ok s') :
    s'.Has m ↔ s.Has m := by
  rw [addAttribute.eq_def] at h
  split at h
  · cases h
  split at h
  · cases h
  obtain rfl := Except.ok.inj h
  exact has_modifyAttr.trans has_modifyElement

theorem has_add_iff : (s.add node).2.Has m ↔ s.Has m ∨ m = (s.add node).1 := by
  simp [Has, add, Nat.le_iff_lt_or_eq]

/-- Writing to a payload without changing what the node says. -/
theorem loose_setPayload {q : Payload} (h : (s.payload? n).map Payload.loose = some q.loose) :
    (s.setPayload n q).loose m = s.loose m := by
  rw [setPayload, loose, get?_modify]
  split
  · rename_i hnm
    subst hnm
    rw [loose, Option.map_map]
    rw [payload?, Option.map_map] at h
    cases hget : s.get? n with
    | none => rfl
    | some node =>
      simp only [hget, Option.map_some, Function.comp, Option.some.injEq] at h
      simp [Node.loose, h]
  · rfl

theorem loose_modifyElement {f : ElementData → ElementData}
    (hf : ∀ d, ({ f d with attrs := .empty } : ElementData) = { d with attrs := .empty }) :
    (s.modifyElement n f).loose m = s.loose m := by
  rw [modifyElement]
  split
  · rename_i d hd
    refine loose_setPayload ?_
    rw [payload?_of_element? hd, Option.map_some, Payload.loose, Payload.loose, hf]
  · rfl

theorem loose_modifyAttr {f : AttributeData → AttributeData}
    (hf : ∀ d, ({ f d with owner := none } : AttributeData) = { d with owner := none }) :
    (s.modifyAttr n f).loose m = s.loose m := by
  rw [modifyAttr]
  split
  · rename_i d hd
    refine loose_setPayload ?_
    rw [payload?_of_attr? hd, Option.map_some, Payload.loose, Payload.loose, hf]
  · rfl

theorem get?_add_of_has (h : s.Has m) : (s.add node).2.get? m = s.get? m := by
  rw [get?_add, if_neg fun e => not_has_add (e ▸ h)]

theorem loose_add_self : (s.add node).2.loose (s.add node).1 = some node.loose := by
  rw [loose, get?_add, if_pos rfl]
  rfl

@[simp] theorem loose_relink {f : Links → Links} : (s.relink n f).loose m = s.loose m := by
  rw [relink, loose, get?_modify, loose]
  split
  · rw [Option.map_map]
    rfl
  · rfl

@[simp] theorem loose_relink? {o : Option NodeId} {f : Links → Links} :
    (s.relink? o f).loose m = s.loose m := by
  cases o <;> simp [relink?]

@[simp] theorem loose_attachLast : (s.attachLast p n).loose m = s.loose m := by simp [attachLast]

@[simp] theorem loose_attachBefore {r : NodeId} : (s.attachBefore p n r).loose m = s.loose m := by
  simp [attachBefore]

theorem get?_relink_of_ne {f : Links → Links} (h : m ≠ n) : (s.relink n f).get? m = s.get? m := by
  rw [relink, get?_modify, if_neg (Ne.symm h)]

theorem get?_relink?_of_ne {o : Option NodeId} {f : Links → Links} (h : o ≠ some m) :
    (s.relink? o f).get? m = s.get? m := by
  cases o with
  | none => rfl
  | some n => exact get?_relink_of_ne fun e => h (congrArg some e.symm)

theorem get?_attachLast_of_ne (hn : m ≠ n) (hp : m ≠ p) (hl : s.lastChild? p ≠ some m) :
    (s.attachLast p n).get? m = s.get? m := by
  rw [attachLast, get?_relink_of_ne hn, get?_relink_of_ne hp, get?_relink?_of_ne hl]

/-- Children are read off links, so a node whose links and whose children are untouched keeps its
children. -/
theorem WellFormed.children_congr (h : s.WellFormed) (hhas : ∀ m, s.Has m → s'.Has m)
    (hn : s'.links n = s.links n) (hc : ∀ c ∈ s.children n, s'.links c = s.links c) :
    s'.children n = s.children n := by
  have hsize : s.nodes.size ≤ s'.nodes.size := by
    by_contra hlt
    exact Nat.lt_irrefl _ (hhas s'.nodes.size (Nat.not_le.mp hlt))
  have hfirst : s'.firstChild? n = (s.children n).head? := by
    rw [firstChild?, hn, ← firstChild?]
    exact h.linked.first n
  have hrow : s'.Row none (s.children n) none := (h.linked.row n).congr
    (fun c hcn => by rw [previous?, hc c hcn, ← previous?])
    fun c hcn => by rw [next?, hc c hcn, ← next?]
  rw [children, hfirst]
  exact hrow.nextChain_eq ((h.linked.length_le n).trans hsize)

/-! ### Attributes -/

/-- The attributes of a node have different names. -/
def Distinct (s : Store) (n : NodeId) : Prop := ((s.attributes n).map s.label).Nodup

/-- What is listed in a table is an attribute. -/
def Listed (s : Store) : Prop := ∀ e a : NodeId, a ∈ s.attributes e → s.kind? a = some .attr

theorem Owned.listed (h : s.Owned) : s.Listed := h.kind

/-- The element that an attribute belongs to. -/
def owner? (s : Store) (a : NodeId) : Option NodeId := (s.attr? a).bind (·.owner)

theorem owner?_congr (h : s'.payload? a = s.payload? a) : s'.owner? a = s.owner? a := by
  rw [owner?, attr?, h, owner?, attr?]

theorem exists_attr?_of_kind? (h : s.kind? a = some .attr) : ∃ d, s.attr? a = some d := by
  obtain ⟨payload, hpay, hkind⟩ := Option.map_eq_some_iff.mp h
  rw [attr?, hpay]
  cases payload with
  | attr d => exact ⟨d, rfl⟩
  | _ => cases hkind

/-- An attribute belongs to the element that it was added to. -/
theorem owner?_addAttribute (ha : s.kind? a = some .attr)
    (hok : s.addAttribute e (some a) = .ok s') : s'.owner? a = some e := by
  rw [addAttribute] at hok
  split at hok
  · cases hok
  · rename_i attrs hattrs
    obtain rfl := Except.ok.inj hok
    have hg : Growth s (s.modifyElement e fun d => { d with attrs }) := .modifyElement fun _ =>
      And.intro rfl rfl
    obtain ⟨d, hd⟩ := exists_attr?_of_kind? (hg.kind? a _ ha)
    rw [modifyAttr, hd, owner?, attr?, payload?_setPayload (has_of_payload? (payload?_of_attr? hd)),
      if_pos rfl]
    rfl

theorem has_of_isElement (h : s.isElement n) : s.Has n := by
  obtain ⟨d, hd⟩ := Option.isSome_iff_exists.mp h
  exact has_of_payload? (payload?_of_element? hd)

/-- An attribute with a new name is added. -/
theorem addAttribute_ok (he : s.isElement e) (hae : e ≠ a)
    (ha : s.label a ∉ (s.attributeTable e).keys) :
    ∃ s', s.addAttribute e (some a) = .ok s' ∧
      (s'.attributeTable e).keys = (s.attributeTable e).keys ++ [s.label a] ∧
      (∀ m, s'.loose m = s.loose m) ∧ ∀ m, m ≠ e → m ≠ a → s'.get? m = s.get? m := by
  rw [← OrderedMap.contains_iff_mem_keys, Bool.not_eq_true] at ha
  obtain ⟨d, hd⟩ := Option.isSome_iff_exists.mp he
  generalize hattrs :
    (⟨(s.attributeTable e).entries ++ [(s.label a, a)]⟩ : OrderedMap Text NodeId) = attrs
  have hinsert : (s.attributeTable e).insert? (s.label a) a = some attrs := by
    rw [OrderedMap.insert?, ha, ← hattrs]
    rfl
  rw [addAttribute, hinsert]
  refine ⟨_, rfl, ?_, fun m => ?_, fun m hme hma => ?_⟩
  · have hpay : ((s.modifyElement e fun d => { d with attrs }).modifyAttr a
        fun d => { d with owner := some e }).payload? e = some (.element { d with attrs }) := by
      rw [payload?_congr (get?_modifyAttr_of_ne hae), modifyElement, hd,
        payload?_setPayload (has_of_payload? (payload?_of_element? hd)), if_pos rfl]
    rw [attributeTable, element?, hpay, ← hattrs]
    simp [OrderedMap.keys]
  · rw [loose_modifyAttr, loose_modifyElement]
    · exact fun _ => rfl
    · exact fun _ => rfl
  · rw [get?_modifyAttr_of_ne hma, get?_modifyElement_of_ne hme]

/-- Copying attributes to an element that has none of their names. -/
theorem copyAttributes_copies (as : List NodeId) (he : s.isElement e)
    (has : ∀ a ∈ as, s.kind? a = some .attr)
    (hnd : ((s.attributeTable e).keys ++ as.map s.label).Nodup) :
    ∃ bs, (copyAttributes e as s).attributes e = s.attributes e ++ bs ∧
      bs.map (copyAttributes e as s).loose = as.map s.loose ∧
      (∀ b ∈ bs, ¬ s.Has b ∧ (copyAttributes e as s).owner? b = some e) ∧
      (∀ m, (copyAttributes e as s).Has m → s.Has m ∨ m ∈ bs) ∧
      (∀ m, s.Has m → (copyAttributes e as s).loose m = s.loose m) ∧
      ∀ m, s.Has m → m ≠ e → (copyAttributes e as s).get? m = s.get? m := by
  induction as generalizing s with
  | nil => exact ⟨[], by simp [copyAttributes]⟩
  | cons a as ih =>
    have hkind := has a (by simp)
    obtain ⟨node, hnode⟩ := (has_of_kind? hkind).exists_get?
    obtain ⟨d, hd⟩ : ∃ d, node.payload = .attr d := by
      rw [kind?, payload?, hnode] at hkind
      cases hpay : node.payload <;> simp [hpay, Payload.nodeKind] at hkind ⊢
    have hattr : s.attr? a = some d := by rw [attr?, payload?, hnode, Option.map_some, hd]
    rw [copyAttributes, hnode, hattr]
    dsimp only
    generalize hcopy :
      ({ node with payload := .attr { d with owner := none }, links := {} } : Node) = copy
    have hloose : copy.loose = node.loose := by
      rw [← hcopy, Node.loose, Node.loose, hd]
      rfl
    have hg : Growth s (s.add copy).2 := .add (by rw [← hcopy])
    have hhas : s.Has e := has_of_isElement he
    have hsame : ∀ m, s.Has m → (s.add copy).2.get? m = s.get? m := fun m => get?_add_of_has
    have hlabel : (s.add copy).2.label (s.add copy).1 = s.label a := by
      refine label_eq_of_loose ?_
      rw [loose_add_self, hloose, loose, hnode]
      rfl
    have htable : (s.add copy).2.attributeTable e = s.attributeTable e := by
      rw [attributeTable, element?_congr (payload?_congr (hsame e hhas)), attributeTable]
    have hnew : (s.add copy).2.label (s.add copy).1 ∉ ((s.add copy).2.attributeTable e).keys := by
      rw [hlabel, htable]
      exact fun hin => (List.nodup_append'.mp hnd).2.2 hin (by simp)
    obtain ⟨s₂, hadd, hkeys, hloose₂, hget₂⟩ := addAttribute_ok (hg.isElement he)
      (fun heb => not_has_add (heb ▸ hhas)) hnew
    have hkept : ∀ m, s.Has m → s₂.loose m = s.loose m := fun m hm =>
      (hloose₂ m).trans (loose_congr (hsame m hm))
    have hhas₂ : ∀ m, s.Has m → s₂.Has m := fun m hm => (Growth.addAttribute hadd).has (hg.has hm)
    have hlabels : as.map s₂.label = as.map s.label := List.map_congr_left fun b hb =>
      label_eq_of_loose (hkept b (has_of_kind? (has b (by simp [hb]))))
    obtain ⟨bs, hattrs, hbs, hbnew, honly, hrest, hrest'⟩ := ih
      ((Growth.addAttribute hadd).isElement (hg.isElement he))
      (fun b hb => (kind?_eq_of_loose (hkept b (has_of_kind? (has b (by simp [hb]))))).trans
        (has b (by simp [hb])))
      (by rw [hkeys, hlabels, hlabel, htable]; simpa using hnd)
    have hb : s₂.Has (s.add copy).1 := (Growth.addAttribute hadd).has (has_of_tag? tag?_add_self)
    rw [hadd]
    refine ⟨(s.add copy).1 :: bs, ?_, ?_, ?_, fun m hm => ?_, fun m hm => ?_, fun m hm hme => ?_⟩
    · exact hattrs.trans (by
        rw [attributes_addAttribute hadd (hg.isElement he), if_pos rfl,
          attributes_congr (payload?_congr (hsame e hhas))]
        simp)
    · refine List.map_cons.trans (congrArg₂ _ ?_ (hbs.trans ?_))
      · refine (hrest _ hb).trans ((hloose₂ _).trans ?_)
        rw [loose_add_self, hloose, loose, hnode]
        rfl
      · exact List.map_congr_left fun b hb => hkept b (has_of_kind? (has b (by simp [hb])))
    · intro b hb
      rcases List.mem_cons.mp hb with rfl | hb
      · have hself : (s.add copy).2.kind? (s.add copy).1 = some .attr := by
          rw [kind?_add_self, ← hcopy]
          rfl
        have hbe : (s.add copy).1 ≠ e := fun hbe => not_has_add (hbe ▸ hhas)
        exact ⟨not_has_add, (owner?_congr (payload?_congr (hrest' _ ‹_› hbe))).trans
          (owner?_addAttribute hself hadd)⟩
      · exact ⟨fun hin => (hbnew b hb).1 (hhas₂ b hin), (hbnew b hb).2⟩
    · rw [List.mem_cons, ← or_assoc, ← has_add_iff, ← has_addAttribute hadd]
      exact honly m hm
    · exact (hrest m (hhas₂ m hm)).trans (hkept m hm)
    · refine (hrest' m (hhas₂ m hm) hme).trans ((hget₂ m hme ?_).trans (hsame m hm))
      exact fun hmb => not_has_add (hmb ▸ hm)

/-! ### Single nodes -/

/-- The copy of a single node says the same, and so do its attributes, which are new. -/
theorem copyNode_copies (hn : s.Has n) (hl : s.Listed) (hd : s.Distinct n) :
    (s.copyNode n).2.loose (s.copyNode n).1 = s.loose n ∧
      ((s.copyNode n).2.attributes (s.copyNode n).1).map (s.copyNode n).2.loose =
        (s.attributes n).map s.loose ∧
      (∀ b ∈ (s.copyNode n).2.attributes (s.copyNode n).1,
        ¬ s.Has b ∧ (s.copyNode n).2.owner? b = some (s.copyNode n).1) ∧
      (∀ m, (s.copyNode n).2.Has m → s.Has m ∨ m = (s.copyNode n).1 ∨
        m ∈ (s.copyNode n).2.attributes (s.copyNode n).1) ∧
      ∀ m, s.Has m → (s.copyNode n).2.get? m = s.get? m := by
  obtain ⟨⟨payload, links, visible, line⟩, hnode⟩ := hn.exists_get?
  have hloose : s.loose n = some (Node.loose ⟨payload, links, visible, line⟩) := by
    rw [loose, hnode]
    rfl
  rw [copyNode, hnode, hloose]
  cases payload with
  | element d =>
    dsimp only
    generalize hcopy : ({ payload := .element { d with attrs := .empty }, visible, line } : Node) =
      copy
    have hpay : (s.add copy).2.payload? (s.add copy).1 =
        some (.element { d with attrs := .empty }) := by
      rw [payload?_add, if_pos rfl, ← hcopy]
    have hsame : ∀ m, s.Has m → (s.add copy).2.get? m = s.get? m := fun m => get?_add_of_has
    have htable : (s.add copy).2.attributeTable (s.add copy).1 = .empty := by
      rw [attributeTable, element?, hpay]
      rfl
    have hattrs : d.attrs.values = s.attributes n := by
      rw [attributes, attributeTable, element?, payload?, hnode]
      rfl
    have hhas : ∀ a ∈ s.attributes n, s.Has a := fun a ha => has_of_kind? (hl n a ha)
    obtain ⟨bs, hbs, hmap, hnew, honly, hkept, hkept'⟩ :=
      copyAttributes_copies (s := (s.add copy).2)
      (e := (s.add copy).1) d.attrs.values (by rw [isElement, element?, hpay]; rfl)
      (fun a ha => by
        rw [hattrs] at ha
        exact (kind?_eq_of_loose (loose_congr (hsame a (hhas a ha)))).trans (hl n a ha))
      (by
        rw [htable, hattrs, List.map_congr_left fun a ha =>
          label_eq_of_loose (loose_congr (hsame a (hhas a ha)))]
        exact hd)
    have hbs' : (copyAttributes (s.add copy).1 d.attrs.values (s.add copy).2).attributes
        (s.add copy).1 = bs := by
      rw [hbs, attributes, htable]
      rfl
    have hself : (s.add copy).2.Has (s.add copy).1 := has_of_payload? hpay
    refine ⟨?_, ?_, ?_, fun m hm => ?_, fun m hm => ?_⟩
    · rw [hkept _ hself, loose_add_self, ← hcopy]
      rfl
    · rw [hbs', hmap, hattrs]
      exact List.map_congr_left fun a ha => loose_congr (hsame a (hhas a ha))
    · rw [hbs']
      exact fun b hb => ⟨fun hin => (hnew b hb).1 ((Growth.add (by rw [← hcopy])).has hin),
        (hnew b hb).2⟩
    · rw [hbs', ← or_assoc, ← has_add_iff]
      exact honly m hm
    · have hme : m ≠ (s.add copy).1 := fun hms => not_has_add (hms ▸ hm)
      exact (hkept' m ((Growth.add (by rw [← hcopy])).has hm) hme).trans (hsame m hm)
  | _ =>
    have hnone : s.attributes n = [] :=
      attributes_of_not_element (by rw [element?, payload?, hnode]; rfl)
    rw [hnone]
    refine ⟨loose_add_self, ?_, ?_, fun m hm => ?_, fun m => get?_add_of_has⟩
    · rw [attributes_of_not_element (by rw [element?, payload?_add, if_pos rfl])]
      rfl
    · rw [attributes_of_not_element (by rw [element?, payload?_add, if_pos rfl])]
      exact fun b hb => absurd hb List.not_mem_nil
    · exact (has_add_iff.mp hm).imp_right .inl

/-! ### Copying under way -/

/-- A copy under way, with the topmost node `top`: `source` tells of which node a new node is the
copy, and `queue` lists the nodes still to be copied, each with the copy of its parent. -/
structure Copying (s₀ : Store) (top : NodeId) (source : NodeId → Option NodeId)
    (queue : List (NodeId × NodeId))
    (s : Store) : Prop where
  wellFormed : s.WellFormed
  /-- What was there before is untouched. -/
  kept (n : NodeId) : s₀.Has n → s.get? n = s₀.get? n
  /-- Copies are new. -/
  new (m c : NodeId) : source m = some c → ¬ s₀.Has m ∧ s.Has m ∧ s₀.Has c
  /-- A copy says the same. -/
  loose (m c : NodeId) : source m = some c → s.loose m = s₀.loose c
  /-- The attributes of a copy say the same. They are new and belong to it. -/
  attributes (m c : NodeId) : source m = some c →
    (s.attributes m).map s.loose = (s₀.attributes c).map s₀.loose ∧
      ∀ a ∈ s.attributes m, ¬ s₀.Has a ∧ s.owner? a = some m
  /-- All that is new are copies and their attributes. -/
  others (m : NodeId) : s.Has m →
    s₀.Has m ∨ (∃ c, source m = some c) ∨ ∃ k c, source k = some c ∧ m ∈ s.attributes k
  /-- Copies stand below copies. -/
  placed (m c : NodeId) : source m = some c →
    m = top ∨ ∃ k x, source k = some x ∧ s.parent? m = some k
  /-- What a copy lacks of its children is in the queue. -/
  children (m c : NodeId) : source m = some c →
    (s.children m).map source ++ (queue.filter fun e => e.1 = m).map (fun e => some e.2) =
      (s₀.children c).map some
  /-- What is in the queue is a child of what was copied. -/
  queued (e : NodeId × NodeId) : e ∈ queue → ∃ c, source e.1 = some c ∧ s₀.parent? e.2 = some c
  /-- The topmost node of the copy has no place yet. -/
  alone : s.Has top ∧ s.parent? top = none

/-- A turn of the loop: the entry at the head of the queue is copied, and what is below it goes to
the end. Nothing is left to be done when the queue is empty. -/
def copyTurn : List (NodeId × NodeId) × Store → List (NodeId × NodeId) × Store
  | ([], s) => ([], s)
  | (entry :: queue, s) =>
    let (below, s) := copyBelow (#[], s) entry
    (queue ++ below.toList, s)

/-- Copying a level takes a turn for each entry of it. -/
theorem copyTurn_level (level : List (NodeId × NodeId))
    (next : Array (NodeId × NodeId)) (s : Store) :
    copyTurn^[level.length] (level ++ next.toList, s) =
      ((level.foldl copyBelow (next, s)).1.toList, (level.foldl copyBelow (next, s)).2) := by
  induction level generalizing next s with
  | nil => rfl
  | cons entry level ih =>
    have hturn : copyTurn (entry :: level ++ next.toList, s) =
        (level ++ (copyBelow (next, s) entry).1.toList, (copyBelow (next, s) entry).2) := by
      simp [copyTurn, copyBelow]
    rw [List.length_cons, Function.iterate_succ_apply, hturn, ih, List.foldl_cons]

namespace Copying

variable {source : NodeId → Option NodeId} {queue rest : List (NodeId × NodeId)} {top : NodeId}

/-- The children of a copy are copies. -/
theorem source_child (h : Copying s₀ top source queue s) (hm : source m = some c) {k : NodeId}
    (hk : k ∈ s.children m) : ∃ x, source k = some x := by
  have hmem : source k ∈ (s₀.children c).map some := by
    rw [← h.children m c hm]
    exact List.mem_append_left _ (List.mem_map_of_mem hk)
  obtain ⟨x, -, hx⟩ := List.mem_map.mp hmem
  exact ⟨x, hx.symm⟩

theorem has (h : Copying s₀ top source queue s) (hn : s₀.Has n) : s.Has n := by
  by_contra hnot
  exact get?_eq_none_iff.mp ((h.kept n hn).symm.trans (get?_eq_none_iff.mpr hnot)) hn

theorem links (h : Copying s₀ top source queue s) (hn : s₀.Has n) : s.links n = s₀.links n := by
  rw [Store.links, h.kept n hn, Store.links]

/-- What was there before has the attributes it had. -/
theorem attributes_kept (h : Copying s₀ top source queue s) (hn : s₀.Has n) :
    s.attributes n = s₀.attributes n :=
  attributes_congr (payload?_congr (h.kept n hn))

/-- The attributes of a copy are attributes. -/
theorem kind?_attribute (h : Copying s₀ top source queue s) (hl : s₀.Listed)
    (hm : source m = some c) (ha : a ∈ s.attributes m) : s.kind? a = some .attr := by
  have hmem : s.loose a ∈ (s₀.attributes c).map s₀.loose := by
    rw [← (h.attributes m c hm).1]
    exact List.mem_map_of_mem ha
  obtain ⟨b, hb, hab⟩ := List.mem_map.mp hmem
  exact (kind?_eq_of_loose hab.symm).trans (hl c b hb)

theorem listed (h : Copying s₀ top source queue s) (hl : s₀.Listed) : s.Listed := by
  intro m a ha
  have hhas : s.Has m := by
    by_contra hnot
    rw [attributes_of_not_has hnot] at ha
    cases ha
  rcases h.others m hhas with hm | ⟨c, hc⟩ | ⟨k, c, hc, hmk⟩
  · rw [h.attributes_kept hm] at ha
    have hkind := hl m a ha
    exact (kind?_eq_of_loose (loose_congr (h.kept a (has_of_kind? hkind)))).trans hkind
  · exact h.kind?_attribute hl hc ha
  · -- attributes have no attributes
    obtain ⟨d, hd⟩ := exists_attr?_of_kind? (h.kind?_attribute hl hc hmk)
    rw [attributes_of_not_element (by rw [element?, payload?_of_attr? hd])] at ha
    cases ha

theorem children_kept (h : Copying s₀ top source queue s) (h₀ : s₀.WellFormed) (hn : s₀.Has n) :
    s.children n = s₀.children n :=
  h₀.children_congr (fun _ => h.has) (h.links hn) fun _ hc =>
    h.links (has_of_parent? (h₀.mem_children.mp hc))

/-- What is to be copied next fits below the copy of its parent. -/
theorem fits (h : Copying s₀ top source ((p, c) :: rest) s) (h₀ : s₀.WellFormed) : s.Fits p c := by
  obtain ⟨x, hx, hparent⟩ := h.queued (p, c) (by simp)
  obtain ⟨k, l, hk, hl, hkl⟩ := h₀.fits c x hparent
  refine ⟨k, l, (kind?_eq_of_loose (h.loose p x hx)).trans hk, ?_, hkl⟩
  exact (kind?_eq_of_loose (loose_congr (h.kept c (has_of_kind? hl)))).trans hl

/-- Copying the next node of the queue. -/
theorem step (h : Copying s₀ top source ((p, c) :: rest) s) (h₀ : s₀.WellFormed) (hl : s₀.Listed)
    (hd : s₀.Distinct c) :
    Copying s₀ top (Function.update source (s.copyNode c).1 (some c))
      (rest ++ (s₀.children c).map ((s.copyNode c).1, ·))
      ((s.copyNode c).2.attachLast p (s.copyNode c).1) := by
  obtain ⟨x, hx, hparent⟩ := h.queued (p, c) (by simp)
  have hc₀ : s₀.Has c := has_of_parent? hparent
  have hc : s.Has c := h.has hc₀
  have hfit : s.Fits (p, c).1 (p, c).2 := h.fits h₀
  obtain ⟨hp₀, hp, -⟩ := h.new p x hx
  obtain ⟨hg, hnew, htag⟩ := copyNode_spec hc
  obtain ⟨tag, ht⟩ := hc.exists_tag?
  have hself := has_of_tag? (htag.trans ht)
  have hlabels : s.Distinct c := by
    rw [Distinct, h.attributes_kept hc₀, List.map_congr_left fun a ha =>
      label_eq_of_loose (loose_congr (h.kept a (has_of_kind? (hl c a ha))))]
    exact hd
  obtain ⟨hloose, hattrs, hattrs', honly, hsame⟩ := copyNode_copies hc (h.listed hl) hlabels
  generalize (s.copyNode c).1 = m at hnew hself hloose hattrs hattrs' honly ⊢
  generalize (s.copyNode c).2 = s₁ at hg hself hloose hattrs hattrs' honly hsame ⊢
  have hne : ∀ y z, source y = some z → y ≠ m := fun y z hy hym => hnew (hym ▸ (h.new y z hy).2.1)
  have hw := h.wellFormed
  have hfit₁ : s₁.Fits p m := by
    obtain ⟨k, l, hk, hl, hkl⟩ := hfit
    exact ⟨k, l, hg.kind? p k hk, (kind?_eq_of_loose hloose).trans hl, hkl⟩
  have hk : s₁.children = s.children := (hw.linked.congr hg.links).children_eq
  have hchildren : ∀ y, (s₁.attachLast p m).children y =
      if y = p then s.children p ++ [m] else s.children y := by
    intro y
    rw [((hw.growth hg).linked.attachLast hself (hg.has hp) (hw.fresh hg hnew).1).children_eq,
      Function.update_apply, hk]
  have hloose' : ∀ y, s.Has y → (s₁.attachLast p m).loose y = s.loose y := fun y hy =>
    loose_attachLast.trans (loose_congr (hsame y hy))
  have hattrs₁ : ∀ y, (s₁.attachLast p m).attributes y = s₁.attributes y := fun y =>
    attributes_congr payload?_attachLast
  have hattrs₂ : ∀ y, s.Has y → s₁.attributes y = s.attributes y := fun y hy =>
    attributes_congr (payload?_congr (hsame y hy))
  -- the new copy is nowhere below the others, so their children are copies of what they were
  have hmap : ∀ y, (s.children y).map (Function.update source m (some c)) =
      (s.children y).map source := by
    refine fun y => List.map_congr_left fun k hk => Function.update_of_ne ?_ _ _
    rintro rfl
    exact hnew (has_of_parent? (hw.mem_children.mp hk))
  have hsource : ∀ y z, Function.update source m (some c) y = some z →
      (y = m ∧ z = c) ∨ (y ≠ m ∧ source y = some z) := by
    intro y z hy
    by_cases hym : y = m
    · rw [hym, Function.update_self] at hy
      exact .inl ⟨hym, (Option.some.inj hy).symm⟩
    · rw [Function.update_of_ne hym] at hy
      exact .inr ⟨hym, hy⟩
  have hparents : ∀ y, (s₁.attachLast p m).parent? y = if y = m then some p else s.parent? y := by
    intro y
    rw [(hw.growth hg).parent?_attachLast hfit₁ (hw.fresh hg hnew).1, hg.parent?]
  have hold : ∀ y z, source y = some z → Function.update source m (some c) y = some z :=
    fun y z hy => by rw [Function.update_of_ne (hne y z hy)]; exact hy
  refine ⟨hw.attachNew hg hp hnew hfit₁, fun n hn => ?_, fun y z hy => ?_, fun y z hy => ?_,
    fun y z hy => ?_, fun y hy => ?_, fun y z hy => ?_, fun y z hy => ?_, fun e he => ?_, ?_⟩
  · -- the parent of the copy and the sibling in front of it are copies themselves
    have hlast : s₁.lastChild? p ≠ some n := by
      rw [(hw.growth hg).linked.last p, hk]
      intro hlast
      obtain ⟨z, hz⟩ := h.source_child hx (List.mem_of_getLast? hlast)
      exact (h.new n z hz).1 hn
    have hnm : n ≠ m := fun e => hnew (by rw [← e]; exact h.has hn)
    have hnp : n ≠ p := fun e => hp₀ (by rw [← e]; exact hn)
    rw [get?_attachLast_of_ne hnm hnp hlast, hsame n (h.has hn), h.kept n hn]
  · rcases hsource y z hy with ⟨rfl, rfl⟩ | ⟨hym, hy⟩
    · exact ⟨fun hin => hnew (h.has hin), has_of_loose loose_attachLast hself, hc₀⟩
    · obtain ⟨hy₀, hys, hz⟩ := h.new y z hy
      exact ⟨hy₀, has_of_loose (hloose' y hys) hys, hz⟩
  · rcases hsource y z hy with ⟨rfl, rfl⟩ | ⟨hym, hy⟩
    · rw [loose_attachLast, hloose, loose_congr (h.kept _ hc₀)]
    · rw [hloose' y (h.new y z hy).2.1, h.loose y z hy]
  · rcases hsource y z hy with ⟨rfl, rfl⟩ | ⟨hym, hy⟩
    · rw [hattrs₁]
      refine ⟨?_, fun a ha => ⟨fun hin => (hattrs' a ha).1 (h.has hin), ?_⟩⟩
      · rw [List.map_congr_left fun a _ => loose_attachLast, hattrs, h.attributes_kept hc₀]
        exact List.map_congr_left fun a ha => loose_congr (h.kept a (has_of_kind? (hl _ a ha)))
      · rw [owner?_congr payload?_attachLast, (hattrs' a ha).2]
    · have hys := (h.new y z hy).2.1
      obtain ⟨hsay, hnew'⟩ := h.attributes y z hy
      have hhas : ∀ a ∈ s.attributes y, s.Has a := fun a ha =>
        has_of_kind? (h.kind?_attribute hl hy ha)
      rw [hattrs₁, hattrs₂ y hys]
      refine ⟨?_, fun a ha => ⟨(hnew' a ha).1, ?_⟩⟩
      · rw [← hsay]
        exact List.map_congr_left fun a ha => hloose' a (hhas a ha)
      · rw [owner?_congr payload?_attachLast, owner?_congr (payload?_congr (hsame a (hhas a ha))),
          (hnew' a ha).2]
  · have hy₁ : s₁.Has y := has_of_loose loose_attachLast.symm hy
    rcases honly y hy₁ with hys | rfl | hya
    · rcases h.others y hys with hy₀ | ⟨z, hz⟩ | ⟨k, z, hz, hyk⟩
      · exact .inl hy₀
      · exact .inr (.inl ⟨z, hold y z hz⟩)
      · refine .inr (.inr ⟨k, z, hold k z hz, ?_⟩)
        rwa [hattrs₁, hattrs₂ k (h.new k z hz).2.1]
    · exact .inr (.inl ⟨c, Function.update_self _ _ _⟩)
    · exact .inr (.inr ⟨m, c, Function.update_self _ _ _, by rwa [hattrs₁]⟩)
  · rw [hparents]
    rcases hsource y z hy with ⟨rfl, rfl⟩ | ⟨hym, hy⟩
    · exact .inr ⟨p, x, hold p x hx, if_pos rfl⟩
    · rw [if_neg hym]
      exact (h.placed y z hy).imp_right fun ⟨k, w, hk, hky⟩ => ⟨k, w, hold k w hk, hky⟩
  · rw [hchildren, List.filter_append, List.map_append]
    rcases hsource y z hy with ⟨rfl, rfl⟩ | ⟨hym, hy⟩
    · have hnone : s.children y = [] := List.eq_nil_iff_forall_not_mem.mpr fun k hk =>
        hnew (hw.has_parent (hw.mem_children.mp hk))
      have hrest : rest.filter (fun e => e.1 = y) = [] := by
        refine List.filter_eq_nil_iff.mpr fun e he hey => ?_
        obtain ⟨x', hx', -⟩ := h.queued e (by simp [he])
        exact hne e.1 x' hx' (by simpa using hey)
      have hyp : y ≠ p := (hne p x hx).symm
      simp [hyp, hnone, hrest, List.filter_map, Function.comp_def]
    · have hnext : ((s₀.children c).map (m, ·)).filter (fun e => e.1 = y) = [] := by
        refine List.filter_eq_nil_iff.mpr fun e he hey => ?_
        obtain ⟨k, -, rfl⟩ := List.mem_map.mp he
        exact hym (Eq.symm (by simpa using hey))
      have hbefore := h.children y z hy
      rw [hnext, List.map_nil, List.append_nil, ← hbefore]
      by_cases hyp : y = p
      · subst hyp
        simp [hmap]
      · have hpy : p ≠ y := Ne.symm hyp
        simp [hyp, hpy, hmap]
  · rcases List.mem_append.mp he with he | he
    · obtain ⟨z, hz, hparent'⟩ := h.queued e (by simp [he])
      exact ⟨z, by rw [Function.update_of_ne (hne e.1 z hz)]; exact hz, hparent'⟩
    · obtain ⟨k, hk, rfl⟩ := List.mem_map.mp he
      exact ⟨c, Function.update_self _ _ _, h₀.mem_children.mp hk⟩
  · obtain ⟨htop, halone⟩ := h.alone
    have hne : top ≠ m := fun e => hnew (by rw [← e]; exact htop)
    exact ⟨has_of_loose (hloose' top htop) htop, by rw [hparents, if_neg hne, halone]⟩

/-- The number of steps that lead from the nodes of a queue up to a node. -/
def Depth (s₀ : Store) (r : NodeId) (k : Nat) (queue : List (NodeId × NodeId)) : Prop :=
  ∀ e ∈ queue, s₀.ascend k e.2 = some r

theorem copyBelow_eq (h : Copying s₀ top source ((p, c) :: rest) s) (h₀ : s₀.WellFormed)
    (next : Array (NodeId × NodeId)) : copyBelow (next, s) (p, c) =
      (next ++ (s₀.children c).map ((s.copyNode c).1, ·),
        (s.copyNode c).2.attachLast p (s.copyNode c).1) := by
  obtain ⟨x, -, hparent⟩ := h.queued (p, c) (by simp)
  have hc₀ : s₀.Has c := has_of_parent? hparent
  have hg := (copyNode_spec (h.has hc₀)).1
  have hk : (s.copyNode c).2.children c = s₀.children c := by
    rw [(h.wellFormed.linked.congr hg.links).children_eq, h.children_kept h₀ hc₀]
  simp only [copyBelow, hk]

/-- Copying a level. -/
theorem level {level : List (NodeId × NodeId)} {next : Array (NodeId × NodeId)}
    {r : NodeId} {k : Nat}
    (h : Copying s₀ top source (level ++ next.toList) s) (h₀ : s₀.WellFormed) (hl : s₀.Listed)
    (hd : ∀ m, s₀.Above r m → s₀.Distinct m) (hlevel : Depth s₀ r k level)
    (hnext : Depth s₀ r (k + 1) next.toList) :
    ∃ source', Copying s₀ top source' (level.foldl copyBelow (next, s)).1.toList
        (level.foldl copyBelow (next, s)).2 ∧
      (∀ m c, source m = some c → source' m = some c) ∧
      Depth s₀ r (k + 1) (level.foldl copyBelow (next, s)).1.toList := by
  induction level generalizing source next s with
  | nil => exact ⟨source, h, fun _ _ hm => hm, hnext⟩
  | cons entry level ih =>
    obtain ⟨p, c⟩ := entry
    rw [List.foldl_cons, copyBelow_eq h h₀]
    have hdepth : Depth s₀ r (k + 1)
        (next ++ (s₀.children c).map ((s.copyNode c).1, ·)).toList := by
      intro e he
      have he' : e ∈ next ∨ ∃ d ∈ s₀.children c, ((s.copyNode c).1, d) = e := by simpa using he
      rcases he' with he | ⟨d, hdc, rfl⟩
      · exact hnext e (by simpa using he)
      · rw [ascend, h₀.mem_children.mp hdc]
        exact hlevel (p, c) (by simp)
    have hstep : Copying s₀ top (Function.update source (s.copyNode c).1 (some c))
        (level ++ (next ++ (s₀.children c).map ((s.copyNode c).1, ·)).toList)
        ((s.copyNode c).2.attachLast p (s.copyNode c).1) := by
      simpa using h.step h₀ hl (hd c ⟨k, hlevel (p, c) (by simp)⟩)
    obtain ⟨source', hsource', hext, hdeep⟩ :=
      ih hstep (fun e he => hlevel e (by simp [he])) hdepth
    refine ⟨source', hsource', fun m z hm => hext m z ?_, hdeep⟩
    have hne : m ≠ (s.copyNode c).1 := by
      rintro rfl
      obtain ⟨x, -, hparent⟩ := h.queued (p, c) (by simp)
      exact (copyNode_spec (h.has (has_of_parent? hparent))).2.1 (h.new _ z hm).2.1
    rw [Function.update_of_ne hne]
    exact hm

/-- Copying all levels: there are no more of them than nodes. The loop ends with the same store. -/
theorem levels {level : List (NodeId × NodeId)} {r : NodeId} {k limit : Nat}
    (h : Copying s₀ top source level s) (h₀ : s₀.WellFormed) (hl : s₀.Listed)
    (hd : ∀ m, s₀.Above r m → s₀.Distinct m)
    (hlevel : Depth s₀ r k level) (hlimit : s₀.nodes.size ≤ limit + k) :
    ∃ source', Copying s₀ top source' [] (copyLevels limit level s) ∧
      (∀ m c, source m = some c → source' m = some c) ∧
      ∃ turns, copyTurn^[turns] (level, s) = ([], copyLevels limit level s) := by
  induction limit generalizing level source s k with
  | zero =>
    have hnil : level = [] := List.eq_nil_iff_forall_not_mem.mpr fun e he => by
      obtain ⟨x, -, hparent⟩ := h.queued e he
      have hlt := h₀.linked.ascend_lt h₀.grounded (has_of_parent? hparent) (hlevel e he)
      omega
    subst hnil
    exact ⟨source, h, fun _ _ hm => hm, 0, rfl⟩
  | succ limit ih =>
    cases level with
    | nil => exact ⟨source, h, fun _ _ hm => hm, 0, rfl⟩
    | cons entry level =>
      have hstart : Copying s₀ top source
          (entry :: level ++ (#[] : Array (NodeId × NodeId)).toList) s := by simpa using h
      have hnil : Depth s₀ r (k + 1) (#[] : Array (NodeId × NodeId)).toList := fun e he => by
        simp at he
      obtain ⟨source', h', hext, hdeep⟩ := hstart.level h₀ hl hd hlevel hnil
      obtain ⟨source'', h'', hext', turns, hturns⟩ := ih h' hdeep (by omega)
      refine ⟨source'', h'', fun m c hm => hext' m c (hext m c hm),
        turns + (entry :: level).length, ?_⟩
      have hlevel := copyTurn_level (entry :: level) #[] s
      rw [List.append_nil] at hlevel
      rw [Function.iterate_add_apply, hlevel, hturns]
      rfl

/-- The copy of the topmost node, with all its children in the queue. -/
theorem start (h₀ : s₀.WellFormed) (hl : s₀.Listed) (hd : s₀.Distinct n) (hn : s₀.Has n) :
    Copying s₀ (s₀.copyNode n).1 (fun m => if m = (s₀.copyNode n).1 then some n else none)
      ((s₀.children n).map ((s₀.copyNode n).1, ·)) (s₀.copyNode n).2 := by
  obtain ⟨hg, hnew, htag⟩ := copyNode_spec hn
  obtain ⟨tag, ht⟩ := hn.exists_tag?
  obtain ⟨hloose, hattrs, hattrs', honly, hsame⟩ := copyNode_copies hn hl hd
  have hsource : ∀ m c, (if m = (s₀.copyNode n).1 then some n else none) = some c →
      m = (s₀.copyNode n).1 ∧ c = n := by
    intro m c hm
    split at hm
    · exact ⟨‹_›, (Option.some.inj hm).symm⟩
    · cases hm
  refine ⟨h₀.growth hg, hsame, fun m c hm => ?_, fun m c hm => ?_, fun m c hm => ?_,
    fun m hm => ?_, fun m c hm => .inl (hsource m c hm).1, fun m c hm => ?_, fun e he => ?_,
    has_of_tag? (htag.trans ht), ?_⟩
  · obtain ⟨rfl, rfl⟩ := hsource m c hm
    exact ⟨hnew, has_of_tag? (htag.trans ht), hn⟩
  · obtain ⟨rfl, rfl⟩ := hsource m c hm
    exact hloose
  · obtain ⟨rfl, rfl⟩ := hsource m c hm
    exact ⟨hattrs, hattrs'⟩
  · rcases honly m hm with hm | rfl | hm
    · exact .inl hm
    · exact .inr (.inl ⟨n, if_pos rfl⟩)
    · exact .inr (.inr ⟨_, n, if_pos rfl, hm⟩)
  · obtain ⟨rfl, rfl⟩ := hsource m c hm
    have hnone : (s₀.copyNode c).2.children (s₀.copyNode c).1 = [] := by
      rw [(h₀.linked.congr hg.links).children_eq]
      exact List.eq_nil_iff_forall_not_mem.mpr fun k hk =>
        hnew (h₀.has_parent (h₀.mem_children.mp hk))
    simp [hnone, List.filter_map, Function.comp_def]
  · obtain ⟨k, hk, rfl⟩ := List.mem_map.mp he
    exact ⟨n, if_pos rfl, h₀.mem_children.mp hk⟩
  · exact (h₀.fresh hg hnew).1

/-- All copies are below the topmost one. -/
theorem above (h : Copying s₀ top source queue s) (hm : source m = some c) : s.Above top m := by
  obtain ⟨k, hk⟩ := h.wellFormed.grounded m
  induction k generalizing m c with
  | zero => cases hk
  | succ k ih =>
    rcases h.placed m c hm with rfl | ⟨q, x, hq, hparent⟩
    · exact .refl m
    · rw [ascend, hparent] at hk
      exact (ih hq hk).trans (.of_parent? hparent)

/-- A shape in which the copies stand as the nodes of another one stand. -/
def Mirrors (s₀ : Store) (source : NodeId → Option NodeId) (s : Store) (t t' : Shape) : Prop :=
  s.Shaped t' ∧ t'.content s = t.content s₀ ∧ ∀ k ∈ t'.ids, ∃ c, source k = some c

theorem exists_mirrors_list {l : List Shape} {ks : List NodeId}
    (hl : ∀ t ∈ l, ∀ m, source m = some t.root → ∃ t' : Shape, t'.root = m ∧
      Mirrors s₀ source s t t')
    (hks : ks.map source = l.map fun t => some t.root) :
    ∃ l' : List Shape, l'.map Shape.root = ks ∧ (∀ t ∈ l', s.Shaped t) ∧
      l'.map (Shape.content s) = l.map (Shape.content s₀) ∧
      ∀ t ∈ l', ∀ k ∈ t.ids, ∃ c, source k = some c := by
  induction l generalizing ks with
  | nil => exact ⟨[], by simpa using hks⟩
  | cons t l ih =>
    cases ks with
    | nil => simp at hks
    | cons k ks =>
      obtain ⟨hk, hks'⟩ := List.cons.inj hks
      obtain ⟨t', rfl, hshaped, hcontent, hids⟩ := hl t (by simp) k hk
      obtain ⟨l', rfl, hshaped', hcontent', hids'⟩ := ih (fun u hu => hl u (by simp [hu])) hks'
      exact ⟨t' :: l', rfl, by simpa using ⟨hshaped, hshaped'⟩, by simp [hcontent, hcontent'],
        by simpa using ⟨hids, hids'⟩⟩

/-- A finished copy corresponds to what was copied. -/
theorem exists_mirrors (h : Copying s₀ top source [] s) {t : Shape} (ht : s₀.Shaped t) (m : NodeId)
    (hm : source m = some t.root) : ∃ t' : Shape, t'.root = m ∧ Mirrors s₀ source s t t' := by
  induction t generalizing m with
  | node n below ih =>
    cases ht with
    | node hroots hbelow =>
      have hchildren : (s.children m).map source = below.map fun t => some t.root := by
        have := h.children m n hm
        rw [← hroots] at this
        simpa [Function.comp_def] using this
      obtain ⟨l', hroots', hshaped, hcontent, hids⟩ :=
        exists_mirrors_list (fun t ht m hm => ih t ht (hbelow t ht) m hm) hchildren
      refine ⟨.node m l', rfl, .node hroots' hshaped, ?_, fun k hk => ?_⟩
      · rw [Shape.content_node, Shape.content_node, hcontent, view, view]
        exact congrArg₂ (fun x y => Content.node x y _) (h.loose m n hm) (h.attributes m n hm).1
      · rw [Shape.ids_node, List.mem_cons, List.mem_flatMap] at hk
        rcases hk with rfl | ⟨t, ht, hk⟩
        · exact ⟨n, hm⟩
        · exact hids t ht k hk

end Copying

/-- A node and all its attributes are new. -/
def New (s s' : Store) (n : NodeId) : Prop := ¬ s.Has n ∧ ∀ a ∈ s'.attributes n, ¬ s.Has a

/-- Copying a node ends with a finished copy. -/
theorem WellFormed.clone_copying (h : s.WellFormed) (hl : s.Listed)
    (hd : ∀ m, s.Above n m → s.Distinct m) (hn : s.Has n) :
    ∃ source, Copying s (s.clone n).1 source [] (s.clone n).2 ∧ source (s.clone n).1 = some n ∧
      ∃ turns, copyTurn^[turns] ((s.children n).map ((s.copyNode n).1, ·), (s.copyNode n).2) =
        ([], (s.clone n).2) := by
  have hdepth : Copying.Depth s n 1 ((s.children n).map ((s.copyNode n).1, ·)) := by
    intro e he
    obtain ⟨c, hc, rfl⟩ := List.mem_map.mp he
    rw [ascend, h.mem_children.mp hc]
    rfl
  obtain ⟨source, hcopy, hext, hturns⟩ := (Copying.start h hl (hd n (.refl n)) hn).levels h hl hd
    hdepth (Nat.le_add_right s.nodes.size 1)
  exact ⟨source, hcopy, hext _ _ (if_pos rfl), hturns⟩

/-- **Copies are faithful.** A copy has the content of what was copied, and is made of new nodes
with new attributes. What was there before is untouched. -/
theorem WellFormed.clone_copies (h : s.WellFormed) (hl : s.Listed)
    (hd : ∀ m, s.Above n m → s.Distinct m) (hn : s.Has n) {t : Shape} (ht : s.Shaped t)
    (hroot : t.root = n) :
    (∃ t' : Shape, t'.root = (s.clone n).1 ∧ (s.clone n).2.Shaped t' ∧
      t'.content (s.clone n).2 = t.content s ∧ ∀ k ∈ t'.ids, s.New (s.clone n).2 k) ∧
      (s.clone n).2.parent? (s.clone n).1 = none ∧
      ∀ m, s.Has m → (s.clone n).2.get? m = s.get? m := by
  obtain ⟨source, hcopy, hself, -⟩ := h.clone_copying hl hd hn
  obtain ⟨t', hroot', hshaped, hcontent, hids⟩ :=
    hcopy.exists_mirrors ht (s.clone n).1 (by rw [hroot]; exact hself)
  refine ⟨⟨t', hroot', hshaped, hcontent, fun k hk => ?_⟩, hcopy.alone.2, hcopy.kept⟩
  obtain ⟨c, hc⟩ := hids k hk
  exact ⟨(hcopy.new k c hc).1, fun a ha => ((hcopy.attributes k c hc).2 a ha).1⟩

end Store

end Stencil.Tree
