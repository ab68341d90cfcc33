import Stencil.Proofs.Tree.Growth

/-!
# Attribute tables

An attribute is listed in the table of its element and is no child. What the model relies on is that
no attribute is listed twice, neither in one table nor in two. The operations on whole subtrees keep
it so: a copy gets attributes of its own, and disposal empties tables.

## Main definitions

* `Store.Owned` – attributes are listed once

## Main results

* `attributes_addAttribute`, `attributes_discardAttributes` – the tables after a change
* `copyAttributes_spec`, `Owned.of_sublist` – attributes are still listed once
-/

namespace Stencil.Tree.Store

variable {s s' : Store} {n m e a : NodeId} {node : Node}

/-! ### Payloads after a change -/

theorem payload?_setPayload {p : Payload} (hn : s.Has n) :
    (s.setPayload n p).payload? m = if m = n then some p else s.payload? m := by
  obtain ⟨node, hnode⟩ := hn.exists_get?
  rw [setPayload, payload?, get?_modify]
  by_cases h : n = m
  · subst h
    simp [hnode]
  · rw [if_neg h, if_neg (Ne.symm h), payload?]

theorem payload?_of_element? {d : ElementData} (h : s.element? n = some d) :
    s.payload? n = some (.element d) := by
  rw [element?] at h
  split at h
  · rename_i hpay
    rw [hpay, Option.some.inj h]
  · cases h

theorem payload?_of_attr? {d : AttributeData} (h : s.attr? n = some d) :
    s.payload? n = some (.attr d) := by
  rw [attr?] at h
  split at h
  · rename_i hpay
    rw [hpay, Option.some.inj h]
  · cases h

theorem payload?_of_document? {d : DocumentData} (h : s.document? n = some d) :
    s.payload? n = some (.document d) := by
  rw [document?] at h
  split at h
  · rename_i hpay
    rw [hpay, Option.some.inj h]
  · cases h

theorem has_of_payload? {p : Payload} (h : s.payload? n = some p) : s.Has n := by
  by_contra hn
  simp [payload?, get?_eq_none_iff.mpr hn] at h

theorem payload?_add :
    (s.add node).2.payload? m = if m = (s.add node).1 then some node.payload else s.payload? m := by
  rw [payload?, get?_add]
  split <;> rfl

theorem element?_congr (h : s'.payload? n = s.payload? n) : s'.element? n = s.element? n := by
  rw [element?, h, element?]

/-! ### Tables after a change -/

theorem attributes_congr (h : s'.payload? n = s.payload? n) : s'.attributes n = s.attributes n := by
  rw [attributes, attributeTable, element?_congr h, attributes, attributeTable]

theorem attributes_of_not_element (h : s.element? n = none) : s.attributes n = [] := by
  simp [attributes, attributeTable, h, OrderedMap.values, OrderedMap.empty]

theorem attributes_of_not_has (h : ¬ s.Has n) : s.attributes n = [] := by
  refine attributes_of_not_element ?_
  simp [element?, payload?, get?_eq_none_iff.mpr h]

theorem attributes_setPayload_of_not_element {p : Payload} (hn : s.element? n = none)
    (hp : p.isElement = false) : (s.setPayload n p).attributes m = s.attributes m := by
  by_cases hhas : s.Has n
  · by_cases h : m = n
    · subst h
      rw [attributes_of_not_element hn, attributes_of_not_element]
      rw [element?, payload?_setPayload hhas, if_pos rfl]
      cases p <;> first | rfl | cases hp
    · exact attributes_congr (by rw [payload?_setPayload hhas, if_neg h])
  · refine attributes_congr ?_
    rw [setPayload, payload?, get?_modify]
    split
    · rename_i e
      subst e
      rw [payload?, get?_eq_none_iff.mpr hhas]
      rfl
    · rfl

theorem attributes_modifyAttr {f : AttributeData → AttributeData} :
    (s.modifyAttr n f).attributes m = s.attributes m := by
  rw [modifyAttr]
  split
  · rename_i d hd
    refine attributes_setPayload_of_not_element ?_ rfl
    rw [element?, payload?_of_attr? hd]
  · rfl

theorem attributes_modifyDocument {f : DocumentData → DocumentData} :
    (s.modifyDocument n f).attributes m = s.attributes m := by
  rw [modifyDocument]
  split
  · rename_i d hd
    refine attributes_setPayload_of_not_element ?_ rfl
    rw [element?, payload?_of_document? hd]
  · rfl

theorem attributes_modifyElement {f : ElementData → ElementData} :
    (s.modifyElement n f).attributes m = if m = n then
      ((s.element? n).map fun d => (f d).attrs.values).getD [] else s.attributes m := by
  rw [modifyElement]
  split
  · rename_i d hd
    have hhas := has_of_payload? (payload?_of_element? hd)
    by_cases h : m = n
    · subst h
      rw [if_pos rfl, hd, attributes, attributeTable, element?,
        payload?_setPayload hhas, if_pos rfl]
      rfl
    · rw [if_neg h]
      exact attributes_congr (by rw [payload?_setPayload hhas, if_neg h])
  · rename_i hd
    by_cases h : m = n
    · subst h
      rw [if_pos rfl, attributes_of_not_element hd, hd]
      rfl
    · rw [if_neg h]

theorem attributes_add_of_ne (h : m ≠ (s.add node).1) :
    (s.add node).2.attributes m = s.attributes m :=
  attributes_congr (by rw [payload?_add, if_neg h])

theorem attributes_addAttribute (h : s.addAttribute e (some a) = .ok s') (he : s.isElement e) :
    s'.attributes m = if m = e then s.attributes e ++ [a] else s.attributes m := by
  unfold addAttribute at h
  split at h
  · cases h
  · rename_i b hb
    obtain rfl := Option.some.inj hb
    split at h
    · cases h
    · rename_i attrs hattrs
      obtain rfl := Except.ok.inj h
      rw [attributes_modifyAttr, attributes_modifyElement]
      have hvalues : attrs.values = s.attributes e ++ [a] := by
        rw [OrderedMap.insert?] at hattrs
        split at hattrs
        · cases hattrs
        · rw [← Option.some.inj hattrs]
          simp [attributes, OrderedMap.values]
      obtain ⟨d, hd⟩ := Option.isSome_iff_exists.mp he
      rw [hd, Option.map_some, Option.getD_some, hvalues]

theorem foldl_attributes {f : Store → NodeId → Store}
    (hf : ∀ s n m, (f s n).attributes m = s.attributes m) (l : List NodeId) :
    (l.foldl f s).attributes m = s.attributes m := by
  induction l generalizing s with
  | nil => rfl
  | cons n l ih => rw [List.foldl_cons, ih, hf]

theorem attributes_discardAttributes :
    (s.discardAttributes n).attributes m = if m = n then [] else s.attributes m := by
  rw [discardAttributes, attributes_modifyElement, foldl_attributes]
  · by_cases h : m = n
    · rw [if_pos h, if_pos h]
      cases element? _ n <;> rfl
    · rw [if_neg h, if_neg h]
  · intro s n m
    rw [setValue, attributes_modifyAttr, disown, attributes_modifyAttr]

/-! ### Ownership -/

/-- What is listed is an attribute, and is listed once. -/
structure Owned (s : Store) : Prop where
  kind (e a : NodeId) : a ∈ s.attributes e → s.kind? a = some .attr
  nodup (e : NodeId) : (s.attributes e).Nodup
  unique (e e' a : NodeId) : a ∈ s.attributes e → a ∈ s.attributes e' → e = e'

theorem owned_empty : Owned {} :=
  have hnone : ∀ n, attributes {} n = [] := fun n => attributes_of_not_has (Nat.not_lt_zero n)
  ⟨fun e x hx => by simp [hnone] at hx, fun e => by simp [hnone],
    fun e e' x hx => by simp [hnone] at hx⟩

/-- Whether attributes are listed once can be seen on the nodes there are. -/
theorem owned_of_forall (h : ∀ e < s.nodes.size, (s.attributes e).Nodup ∧
    ∀ a ∈ s.attributes e, s.kind? a = some .attr ∧
      ∀ e' < s.nodes.size, a ∈ s.attributes e' → e = e') : s.Owned := by
  have hin : ∀ e a, a ∈ s.attributes e → e < s.nodes.size := by
    intro e a ha
    by_contra he
    rw [attributes_of_not_has he] at ha
    cases ha
  refine ⟨fun e a ha => ((h e (hin e a ha)).2 a ha).1, fun e => ?_, fun e e' a ha ha' => ?_⟩
  · by_cases he : e < s.nodes.size
    · exact (h e he).1
    · rw [attributes_of_not_has he]
      exact List.nodup_nil
  · exact ((h e (hin e a ha)).2 a ha).2 e' (hin e' a ha') ha'

namespace Owned

/-- Tables may shrink. -/
theorem of_sublist (h : s.Owned) (hk : ∀ n k, s.kind? n = some k → s'.kind? n = some k)
    (hl : ∀ e, (s'.attributes e).Sublist (s.attributes e)) : s'.Owned where
  kind e a ha := hk a _ (h.kind e a ((hl e).subset ha))
  nodup e := (hl e).nodup (h.nodup e)
  unique e e' a ha ha' := h.unique e e' a ((hl e).subset ha) ((hl e').subset ha')

theorem congr (h : s.Owned) (hk : ∀ n k, s.kind? n = some k → s'.kind? n = some k)
    (hl : ∀ e, s'.attributes e = s.attributes e) : s'.Owned :=
  h.of_sublist hk fun e => by rw [hl]

/-- A new attribute may be listed in any table. -/
theorem insert (h : s.Owned) (hk : ∀ n k, s.kind? n = some k → s'.kind? n = some k)
    (ha : ¬ s.Has a) (ha' : s'.kind? a = some .attr)
    (hl : ∀ m, s'.attributes m = if m = e then s.attributes e ++ [a] else s.attributes m) :
    s'.Owned := by
  have hmem : ∀ m b, b ∈ s'.attributes m → b ∈ s.attributes m ∨ (m = e ∧ b = a) := by
    intro m b hb
    rw [hl] at hb
    split at hb
    · rename_i hm
      rcases List.mem_append.mp hb with hb | hb
      · exact .inl (hm ▸ hb)
      · exact .inr ⟨hm, List.mem_singleton.mp hb⟩
    · exact .inl hb
  have hnot : ∀ m, a ∉ s.attributes m := fun m hm => ha (has_of_kind? (h.kind m a hm))
  constructor
  case kind =>
    intro m b hb
    rcases hmem m b hb with hb | ⟨-, rfl⟩
    · exact hk b _ (h.kind m b hb)
    · exact ha'
  case nodup =>
    intro m
    rw [hl]
    split
    · refine List.nodup_append'.mpr ⟨h.nodup e, List.nodup_singleton a, fun b hb hba => ?_⟩
      exact hnot e (List.mem_singleton.mp hba ▸ hb)
    · exact h.nodup m
  case unique =>
    intro m m' b hb hb'
    rcases hmem m b hb with hb | ⟨rfl, rfl⟩
    · rcases hmem m' b hb' with hb' | ⟨-, rfl⟩
      · exact h.unique m m' b hb hb'
      · exact absurd hb (hnot m)
    · rcases hmem m' b hb' with hb' | ⟨rfl, -⟩
      · exact absurd hb' (hnot m')
      · rfl

end Owned

theorem isElement_iff_tag? : s.isElement n ↔ ∃ t, s.tag? n = some (.element, t) := by
  rw [isElement, Option.isSome_iff_exists]
  constructor
  · rintro ⟨d, hd⟩
    exact ⟨(d.uri, d.name), by rw [tag?, payload?_of_element? hd]; rfl⟩
  · rintro ⟨t, ht⟩
    obtain ⟨payload, hpay, htag⟩ := Option.map_eq_some_iff.mp ht
    cases payload with
    | element d => exact ⟨d, by rw [element?, hpay]⟩
    | _ => simp [Payload.tag, Payload.nodeKind] at htag

theorem kind?_of_isElement (h : s.isElement n) : s.kind? n = some .element := by
  obtain ⟨t, ht⟩ := isElement_iff_tag?.mp h
  rw [kind?_eq_map_tag?, ht]
  rfl

theorem isContainer_of_isElement (h : s.isElement n) : s.isContainer n := by
  obtain ⟨d, hd⟩ := Option.isSome_iff_exists.mp h
  rw [isContainer, payload?_of_element? hd]
  rfl

theorem Growth.isElement (h : Growth s s') (he : s.isElement n) : s'.isElement n := by
  obtain ⟨t, ht⟩ := isElement_iff_tag?.mp he
  exact isElement_iff_tag?.mpr ⟨t, h.tag? n _ ht⟩

/-- Copying attributes writes to one table only, and keeps attributes listed once. -/
theorem copyAttributes_spec (as : List NodeId) (h : s.Owned) (he : s.isElement e) :
    (copyAttributes e as s).Owned ∧ ∀ m, m ≠ e → s.Has m →
      (copyAttributes e as s).attributes m = s.attributes m := by
  induction as generalizing s with
  | nil => exact ⟨h, fun _ _ _ => rfl⟩
  | cons b as ih =>
    rw [copyAttributes]
    split
    · rename_i node d hnode hd
      dsimp only
      generalize hcopy :
        ({ node with payload := .attr { d with owner := none }, links := {} } : Node) = copy
      have hg : Growth s (s.add copy).2 := .add (by rw [← hcopy])
      have hsame : ∀ m, s.Has m → (s.add copy).2.attributes m = s.attributes m := fun m hm =>
        attributes_add_of_ne fun e => not_has_add (e ▸ hm)
      have htables : ∀ m, (s.add copy).2.attributes m = s.attributes m := by
        intro m
        by_cases hm : s.Has m
        · exact hsame m hm
        · rw [attributes_of_not_has hm]
          by_cases hmc : m = (s.add copy).1
          · refine attributes_of_not_element ?_
            rw [element?, payload?_add, if_pos hmc, ← hcopy]
          · rw [attributes_add_of_ne hmc, attributes_of_not_has hm]
      have howned := h.congr hg.kind? htables
      cases hadd : (s.add copy).2.addAttribute e (some (s.add copy).1) with
      | error err =>
        obtain ⟨ho, hrest⟩ := ih howned (hg.isElement he)
        exact ⟨ho, fun m hme hm => (hrest m hme (hg.has hm)).trans (hsame m hm)⟩
      | ok s₂ =>
        have hg₂ : Growth (s.add copy).2 s₂ := .addAttribute hadd
        have htables₂ := fun m => attributes_addAttribute (m := m) hadd (hg.isElement he)
        have howned₂ : s₂.Owned := by
          refine h.insert (a := (s.add copy).1) (e := e)
            (fun n k hn => hg₂.kind? n k (hg.kind? n k hn)) not_has_add (hg₂.kind? _ _ ?_) fun m =>
              ?_
          · rw [kind?_add_self, ← hcopy]
            rfl
          · rw [htables₂, htables, htables]
        obtain ⟨ho, hrest⟩ := ih howned₂ (hg₂.isElement (hg.isElement he))
        refine ⟨ho, fun m hme hm => (hrest m hme (hg₂.has (hg.has hm))).trans ?_⟩
        rw [htables₂, if_neg hme, hsame m hm]
    · exact ih h he

end Stencil.Tree.Store
