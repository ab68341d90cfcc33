import Stencil.Proofs.Tree.Disposal

/-!
# Attributes and their owners

That an attribute belongs to an element is written down twice: the element lists the attribute, and
the attribute names the element. Both are written when an attribute is added and both when it is
removed, but adding does not ask whether the attribute belongs to an element already. Nobody takes
it out of the table where it stands, so it is listed in two tables and can name only one of them.

One half of the link always holds: the owner lists what it owns. The other half holds along a run as
long as no call of the run shares an attribute (`Change.Shares`), and it fails right after one that
does. All other calls only hand attributes over (`Store.Handover`): they add attributes that nobody
owns, such as those of a copy, or give up attributes on both sides.

## Main definitions

* `Store.OwnedOnce` – an element lists an attribute under its name exactly if it owns it
* `Change.Shares` – a call that adds an attribute which belongs to another element
* `Store.Handover` – owners and tables change together

## Main results

* `Handover.change` – what is not shared is handed over
* `Shares.lists` – what a call that shares leaves behind
* `ownedOnce_reach_iff` – sharing is all that breaks the link
-/

namespace Stencil.Tree

/-- The element that an attribute belongs to. -/
def Payload.owner? : Payload → Option NodeId
  | attr d => d.owner
  | _ => none

namespace Store

/-- An element lists an attribute, under its full name, exactly if the attribute belongs to it. -/
def OwnedOnce (s : Store) : Prop :=
  ∀ e a, (s.label a, a) ∈ (s.attributeTable e).entries ↔ s.owner? a = some e

/-- An element lists the attributes that belong to it. -/
def Backed (s : Store) : Prop := ∀ e a, s.owner? a = some e → a ∈ s.attributes e

/-- An attribute belongs to the elements that list it. -/
def Sole (s : Store) : Prop := ∀ e a, a ∈ s.attributes e → s.owner? a = some e

/-- Owners and tables change together. -/
inductive Handover : Store → Store → Prop
  /-- Nothing changes. -/
  | same {s s' : Store} (owner : ∀ b, s'.owner? b = s.owner? b)
      (attributes : ∀ m, s'.attributes m = s.attributes m) : Handover s s'
  /-- An attribute that belonged to nobody is added. -/
  | grant {s s' : Store} {e a : NodeId} (free : s.owner? a = none)
      (owner : ∀ b, s'.owner? b = if b = a then some e else s.owner? b)
      (attributes : ∀ m, s'.attributes m = if m = e then s.attributes e ++ [a]
        else s.attributes m) :
      Handover s s'
  /-- Attributes that an element lists are given up. -/
  | release {s s' : Store} {e : NodeId} {l : List NodeId} (listed : ∀ a ∈ l, a ∈ s.attributes e)
      (owner : ∀ b, s'.owner? b = if b ∈ l then none else s.owner? b)
      (attributes : ∀ m, s'.attributes m =
        if m = e then (s.attributes e).filter (· ∉ l) else s.attributes m) : Handover s s'
  /-- One after the other. -/
  | trans {s s' s'' : Store} : Handover s s' → Handover s' s'' → Handover s s''

end Store

/-- The call adds the attribute `a` to the element `e`, which has none of its name. The attribute
belongs to the element `e'`. -/
structure Change.Shares (s : Store) (c : Change) (e e' a : NodeId) : Prop where
  call : c = .addAttribute e (some a)
  callable : c.Callable s
  owner : s.owner? a = some e'
  free : s.attribute? e (s.label a) = none

namespace Store

variable {s s' : Store} {n m e e' a b : NodeId} {node : Node} {op : Operation} {name : Text}
  {l : List NodeId} {c : Change}

/-! ### What handing over keeps -/

theorem Backed.add (h : s.Backed)
    (howner : ∀ b, s'.owner? b = if b = a then some e else s.owner? b)
    (hattrs : ∀ m, s'.attributes m = if m = e then s.attributes e ++ [a] else s.attributes m) :
    s'.Backed := by
  intro m b hb
  rw [howner] at hb
  rw [hattrs]
  split at hb
  · rename_i hba
    rw [if_pos (Option.some.inj hb).symm, hba]
    exact List.mem_append_right _ (List.mem_singleton_self a)
  · split
    · rename_i hm
      exact List.mem_append_left _ (hm ▸ h m b hb)
    · exact h m b hb

theorem Backed.handover (h : s.Backed) (hover : Handover s s') : s'.Backed := by
  induction hover with
  | same howner hattrs =>
    intro m b hb
    rw [hattrs]
    exact h m b (by rwa [← howner])
  | grant hfree howner hattrs => exact h.add howner hattrs
  | release hlisted howner hattrs =>
    intro m b hb
    rw [howner] at hb
    split at hb
    · cases hb
    · rename_i hbl
      rw [hattrs]
      split
      · rename_i hm
        exact List.mem_filter.mpr ⟨hm ▸ h m b hb, by simpa using hbl⟩
      · exact h m b hb
  | trans _ _ ih ih' => exact ih' (ih h)

theorem Sole.handover (h : s.Sole) (hover : Handover s s') : s'.Sole := by
  induction hover with
  | same howner hattrs =>
    intro m b hb
    rw [howner]
    exact h m b (by rwa [← hattrs])
  | @grant s s' e a hfree howner hattrs =>
    have hnot (m : NodeId) : a ∉ s.attributes m := by
      intro hm
      rw [h m a hm] at hfree
      cases hfree
    intro m b hb
    rw [hattrs] at hb
    rw [howner]
    split at hb
    · rename_i hm
      rcases List.mem_append.mp hb with hb | hb
      · rw [if_neg fun hba : b = a => hnot e (hba ▸ hb), hm]
        exact h e b hb
      · rw [if_pos (List.mem_singleton.mp hb), hm]
    · rw [if_neg fun hba : b = a => hnot m (hba ▸ hb)]
      exact h m b hb
  | @release s s' e l hlisted howner hattrs =>
    intro m b hb
    rw [hattrs] at hb
    rw [howner]
    split at hb
    · rename_i hm
      obtain ⟨hb, hbl⟩ := List.mem_filter.mp hb
      rw [if_neg (by simpa using hbl), hm]
      exact h e b hb
    · rename_i hm
      have howns := h m b hb
      -- what is given up belongs to `e`
      rw [if_neg fun hbl => hm (Option.some.inj (howns.symm.trans (h e b (hlisted b hbl))))]
      exact howns
  | trans _ _ ih ih' => exact ih' (ih h)

/-! ### Owners after a change -/

theorem owner?_eq_bind (s : Store) (a : NodeId) :
    s.owner? a = (s.payload? a).bind Payload.owner? := by
  rw [owner?, attr?]
  cases s.payload? a with
  | none => rfl
  | some p => cases p <;> rfl

theorem owner?_modifyAttr {f : AttributeData → AttributeData} : (s.modifyAttr n f).owner? a =
    if a = n then (s.attr? a).bind fun d => (f d).owner else s.owner? a := by
  rw [owner?, attr?_modifyAttr]
  split
  · rw [Option.bind_map]
    rfl
  · rfl

theorem owner?_modifyElement {f : ElementData → ElementData} :
    (s.modifyElement n f).owner? a = s.owner? a := by
  rw [owner?, attr?_modifyElement, owner?]

theorem owner?_setValue {v : Value} : (s.setValue n v).owner? a = s.owner? a := by
  rw [setValue, owner?_modifyAttr, ite_eq_right_iff]
  exact fun _ => rfl

theorem owner?_disown : (s.disown n).owner? a = if a = n then none else s.owner? a := by
  rw [disown, owner?_modifyAttr]
  exact if_congr Iff.rfl (by cases s.attr? a <;> rfl) rfl

theorem owner?_foldl_disown : (l.foldl disown s).owner? a = if a ∈ l then none else s.owner? a := by
  induction l generalizing s with
  | nil => rfl
  | cons b l ih =>
    rw [List.foldl_cons, ih, owner?_disown]
    by_cases hab : a = b
    · simp [hab]
    · simp [hab]

theorem owner?_clearNode :
    (s.clearNode n).owner? a = if a ∈ s.attributes n then none else s.owner? a := by
  rw [owner?, attr?_clearNode]
  split
  · cases s.attr? a <;> rfl
  · rfl

/-- The owner of an attribute is the element that it was added to last. -/
theorem owner?_addAttribute_eq (ha : s.kind? a = some .attr)
    (hok : s.addAttribute e (some a) = .ok s') (b : NodeId) :
    s'.owner? b = if b = a then some e else s.owner? b := by
  split
  · rename_i hba
    rw [hba]
    exact owner?_addAttribute ha hok
  · rename_i hba
    rw [addAttribute] at hok
    split at hok
    · cases hok
    · obtain rfl := Except.ok.inj hok
      rw [owner?_modifyAttr, if_neg hba, owner?_modifyElement]

namespace Handover

theorem of_payload? (h : ∀ m, s'.payload? m = s.payload? m) : Handover s s' :=
  .same (fun b => owner?_congr (h b)) fun m => attributes_congr (h m)

@[refl] protected theorem refl (s : Store) : Handover s s := .of_payload? fun _ => rfl

/-- A new node that is neither listed nor lists anything. -/
theorem add (hn : node.payload.IsFresh) : Handover s (s.add node).2 := by
  have howner : node.payload.owner? = none := by
    cases hp : node.payload with
    | attr d => rwa [hp] at hn
    | _ => rfl
  have htable : ∀ d, node.payload = .element d → d.attrs = .empty := by
    intro d hd
    rwa [hd] at hn
  have hnone : s.payload? (s.add node).1 = none := by
    rw [payload?, get?_eq_none_iff.mpr not_has_add]
    rfl
  refine .same (fun b => ?_) fun m => ?_
  · rw [owner?_eq_bind, payload?_add, owner?_eq_bind]
    split
    · rename_i hb
      rw [hb, hnone, Option.bind_some, howner]
      rfl
    · rfl
  · by_cases hm : m = (s.add node).1
    · rw [hm, attributes_of_not_has not_has_add, attributes, attributeTable_eq, payload?_add,
        if_pos rfl]
      cases hp : node.payload with
      | element d => simp [Payload.table, htable d hp, OrderedMap.values, OrderedMap.empty]
      | _ => rfl
    · exact attributes_add_of_ne hm

theorem attachLast {p : NodeId} : Handover s (s.attachLast p n) :=
  .of_payload? fun _ => payload?_attachLast

theorem setValue {v : Value} : Handover s (s.setValue a v) :=
  .same (fun _ => owner?_setValue) fun _ => attributes_modifyAttr

theorem clearNode : Handover s (s.clearNode n) := by
  refine .release (e := n) (l := s.attributes n) (fun _ h => h)
    (fun b => owner?_clearNode) fun m => ?_
  rw [attributes_clearNode]
  refine if_congr Iff.rfl (Eq.symm ?_) rfl
  exact List.filter_eq_nil_iff.mpr fun b hb => by simpa using hb

theorem foldl {f : Store → NodeId → Store} (hf : ∀ s n, Handover s (f s n)) (l : List NodeId) :
    Handover s (l.foldl f s) := by
  induction l generalizing s with
  | nil => rfl
  | cons n l ih => exact (hf s n).trans ih

theorem dispose : Handover s (s.dispose n) := by
  have hdetach : Handover s (s.detach n) := .of_payload? fun _ => payload?_detach
  rw [Store.dispose]
  exact hdetach.trans (foldl (fun _ _ => clearNode) _)

/-- An attribute is added that belongs to nobody. -/
theorem addAttribute (ha : s.kind? a = some .attr) (he : s.isElement e) (hfree : s.owner? a = none)
    (hok : s.addAttribute e (some a) = .ok s') : Handover s s' :=
  .grant hfree (owner?_addAttribute_eq ha hok) fun _ => attributes_addAttribute hok he

/-- A new attribute is added. -/
theorem addNew {d : AttributeData} (hnode : node.payload = .attr d) (hlinks : node.links = {})
    (howner : d.owner = none) (he : s.isElement e)
    (hok : (s.add node).2.addAttribute e (some (s.add node).1) = .ok s') : Handover s s' := by
  have hg : Growth s (s.add node).2 := .add hlinks
  refine (add (by rw [hnode]; exact howner)).trans (addAttribute ?_ (hg.isElement he) ?_ hok)
  · rw [kind?_add_self, hnode]
    rfl
  · rw [owner?_eq_bind, payload?_add, if_pos rfl, Option.bind_some, hnode]
    exact howner

/-! ### Copies -/

theorem copyAttributes {as : List NodeId} (he : s.isElement e) :
    Handover s (copyAttributes e as s) := by
  induction as generalizing s with
  | nil => rfl
  | cons a as ih =>
    rw [Store.copyAttributes]
    split
    · rename_i node d hnode hd
      dsimp only
      generalize hcopy :
        ({ node with payload := .attr { d with owner := none }, links := {} } : Node) = copy
      have hpay : copy.payload = .attr { d with owner := none } := by rw [← hcopy]
      have hg : Growth s (s.add copy).2 := .add (by rw [← hcopy])
      cases hok : (s.add copy).2.addAttribute e (some (s.add copy).1) with
      | error err => exact (add (by rw [hpay]; rfl)).trans (ih (hg.isElement he))
      | ok s₂ =>
        have hg₂ : Growth (s.add copy).2 s₂ := .addAttribute hok
        exact (addNew hpay (by rw [← hcopy]) rfl he hok).trans
          (ih (hg₂.isElement (hg.isElement he)))
    · exact ih he

theorem copyNode : Handover s (s.copyNode n).2 := by
  rw [Store.copyNode]
  split
  · rfl
  · dsimp only
    split
    · rename_i d _
      have hfresh : (Payload.element { d with attrs := .empty }).IsFresh := rfl
      refine (add hfresh).trans (copyAttributes ?_)
      rw [isElement, element?, payload?_add, if_pos rfl]
      rfl
    · rename_i d _
      have hfresh : (Payload.attr { d with owner := none }).IsFresh := rfl
      exact add hfresh
    · rename_i node _ _ helement hattr
      refine add ?_
      cases hpay : node.payload with
      | element d => exact absurd hpay (helement d)
      | attr d => exact absurd hpay (hattr d)
      | _ => trivial

theorem copyLevels {limit : Nat} {level : List (NodeId × NodeId)} :
    Handover s (copyLevels limit level s) := by
  have hlevel : ∀ (level : List (NodeId × NodeId)) (acc : Array (NodeId × NodeId) × Store),
      Handover acc.2 (level.foldl copyBelow acc).2 := by
    intro level
    induction level with
    | nil => exact fun acc => .refl _
    | cons entry level ih => exact fun acc =>
      (copyNode.trans attachLast).trans (ih (copyBelow acc entry))
  induction limit generalizing level s with
  | zero => rfl
  | succ limit ih =>
    cases level with
    | nil => rfl
    | cons entry level => exact (hlevel (entry :: level) (#[], s)).trans ih

theorem clone : Handover s (s.clone n).2 := copyNode.trans copyLevels

/-! ### Calls -/

theorem newText {data : Text} : Handover s (s.newText data).2 := by
  have htext : Payload.text.IsFresh := trivial
  have hdata : (Payload.cdata data).IsFresh := trivial
  unfold Store.newText
  dsimp only
  split
  · exact add htext
  · exact ((add htext).trans (add hdata)).trans attachLast

theorem appendData {data : Text} : Handover s (s.appendData n data) := by
  rw [Store.appendData]
  split
  · rename_i c old hlast hold
    rw [hlast, Option.bind_some] at hold
    refine .same (fun b => ?_) fun m => attributes_setPayload_of_not_element ?_ rfl
    · rw [owner?_eq_bind, payload?_setPayload_eq, owner?_eq_bind]
      split
      · rename_i hb
        rw [hb, hold]
        rfl
      · rfl
    · rw [element?, hold]
  · have hdata : (Payload.cdata data).IsFresh := trivial
    exact (add hdata).trans attachLast

/-- Calls on trees never share attributes. -/
theorem call (hop : op.CreatesFresh) (hok : op.call s = .ok s') : Handover s s' := by
  have hrelinks : op.Relinks → Handover s s' := fun hlinks =>
    .of_payload? fun _ => payload?_call hlinks hok
  cases op with
  | create payload visible line =>
    obtain rfl := Except.ok.inj hok
    exact add hop
  | createText data =>
    obtain rfl := Except.ok.inj hok
    exact newText
  | appendData t data =>
    obtain rfl := Except.ok.inj hok
    exact appendData
  | clone n =>
    obtain rfl := Except.ok.inj hok
    cases n with
    | none => rfl
    | some n => exact clone
  | dispose n =>
    obtain rfl := Except.ok.inj hok
    cases n with
    | none => rfl
    | some n => exact dispose
  | _ => exact hrelinks trivial

end Handover

/-! ### Entries of a table -/

theorem mem_entries_of_attribute? (h : s.attribute? e name = some a) :
    (name, a) ∈ (s.attributeTable e).entries := by
  obtain ⟨entry, hfind, rfl⟩ := Option.map_eq_some_iff.mp h
  have hkey : entry.1 = name := by simpa using List.find?_some hfind
  exact hkey ▸ List.mem_of_find?_eq_some hfind

theorem attribute?_eq_none_iff :
    s.attribute? e name = none ↔ (s.attributeTable e).contains name = false := by
  rw [attribute?, OrderedMap.contains, Option.isSome_eq_false_iff, Option.isNone_iff_eq_none]

namespace Labelled

/-- A table has one entry of a name, and one entry of an attribute. -/
theorem entry_iff {entry : Text × NodeId} (hs : s.Labelled)
    (h : (name, a) ∈ (s.attributeTable e).entries) (hentry : entry ∈ (s.attributeTable e).entries) :
    entry.1 = name ↔ entry.2 = a := by
  constructor
  · intro hkey
    rw [List.inj_on_of_nodup_map (hs.nodup e) hentry h hkey]
  · intro hvalue
    have hname := hs.name e entry hentry
    rw [hvalue, hs.name e _ h] at hname
    exact (Option.some.inj hname).symm

/-- An attribute that is listed is listed under its name. -/
theorem mem_entries_iff (hs : s.Labelled) :
    (s.label a, a) ∈ (s.attributeTable e).entries ↔ a ∈ s.attributes e := by
  refine ⟨fun h => List.mem_map_of_mem h, fun h => ?_⟩
  obtain ⟨entry, hentry, rfl⟩ := List.mem_map.mp h
  rwa [label_of_attrName? (hs.name e entry hentry)]

/-- An element with an attribute has no other attribute of its name. -/
theorem attribute?_label (hs : s.Labelled) (h : a ∈ s.attributes e) :
    s.attribute? e (s.label a) ≠ none := by
  rw [Ne, attribute?_eq_none_iff, Bool.not_eq_false, OrderedMap.contains_iff_mem_keys]
  exact List.mem_map_of_mem (hs.mem_entries_iff.mpr h)

end Labelled

namespace Handover

/-- An attribute is removed from the table where it is found. -/
theorem removeAttribute (hs : s.Labelled) (hok : s.removeAttribute e name = .ok s') :
    Handover s s' := by
  obtain ⟨a, ha, hok⟩ := exists_of_bind_ok hok
  obtain rfl := Except.ok.inj hok
  have hfound : s.attribute? e name = some a := by
    rw [getAttribute] at ha
    split at ha
    · rename_i b hb
      rw [hb, Except.ok.inj ha]
    · cases ha
  have hentry := mem_entries_of_attribute? hfound
  refine .release (e := e) (l := [a]) (fun b hb => ?_) (fun b => ?_) fun m => ?_
  · rw [List.mem_singleton.mp hb]
    exact List.mem_map_of_mem hentry
  · rw [owner?_disown, owner?_modifyElement]
    exact if_congr List.mem_singleton.symm rfl rfl
  · rw [disown, attributes_modifyAttr, attributes_modifyElement]
    refine if_congr Iff.rfl ?_ rfl
    have hcontains : (s.attributeTable e).contains name = true :=
      (OrderedMap.contains_iff_mem_keys _ _).mpr (List.mem_map_of_mem hentry)
    obtain ⟨d, hd⟩ : ∃ d, s.element? e = some d := by
      cases helement : s.element? e with
      | some d => exact ⟨d, rfl⟩
      | none => simp [attributeTable, helement, OrderedMap.empty] at hentry
    rw [hd, Option.map_some, Option.getD_some, OrderedMap.erase?, if_pos hcontains,
      Option.getD_some, attributes, OrderedMap.values, OrderedMap.values, List.filter_map]
    refine congrArg _ (List.filter_congr fun entry hmem => ?_)
    simp [hs.entry_iff hentry hmem]

theorem removeAttributes : Handover s (s.removeAttributes e) := by
  refine .release (e := e) (l := s.attributes e) (fun _ h => h) (fun b => ?_) fun m => ?_
  · rw [Store.removeAttributes, owner?_modifyElement, owner?_foldl_disown]
  · rw [Store.removeAttributes, attributes_modifyElement, foldl_attributes]
    · refine if_congr Iff.rfl ?_ rfl
      rw [List.filter_eq_nil_iff.mpr fun b hb => by simpa using hb]
      cases element? _ e <;> rfl
    · exact fun _ _ _ => attributes_modifyAttr

/-- A name is free when an attribute of that name is added. -/
theorem attribute?_of_addAttribute (hok : s.addAttribute e (some a) = .ok s') :
    s.attribute? e (s.label a) = none := by
  rw [Store.addAttribute, OrderedMap.insert?] at hok
  rw [attribute?_eq_none_iff]
  split at hok
  · cases hok
  · rename_i hattrs
    split at hattrs
    · cases hattrs
    · rename_i hcontains
      exact Bool.eq_false_of_not_eq_true hcontains

/-- What is not shared is handed over. -/
theorem change (hs : s.Labelled) (hc : c.Callable s) (hnew : ∀ e e' a, ¬ c.Shares s e e' a)
    (hok : c.call s = .ok s') : Handover s s' := by
  cases c with
  | tree op => exact call hc.2 hok
  | addAttribute e attr =>
    cases attr with
    | none => cases hok
    | some a =>
      refine addAttribute (hc.2 a rfl) hc.1 ?_ hok
      cases howner : s.owner? a with
      | none => rfl
      | some e' => exact absurd ⟨rfl, hc, howner, attribute?_of_addAttribute hok⟩ (hnew e e' a)
  | setAttribute e qualifier name value =>
    obtain ⟨node, hnode, hok⟩ := setAttribute_ok hok
    have hpay : node.payload = .attr { qualifier, name } := by rw [hnode]
    have hg : Growth s (s.add node).2 := .add (by rw [hnode])
    have hadd : Handover s (s.add node).2 := add (by rw [hpay]; rfl)
    refine (hadd.trans setValue).trans (addAttribute ?_ ?_ ?_ hok)
    · refine Growth.setValue.kind? _ _ ?_
      rw [kind?_add_self, hpay]
      rfl
    · exact Growth.setValue.isElement (hg.isElement hc)
    · rw [owner?_setValue, owner?_eq_bind, payload?_add, if_pos rfl, Option.bind_some, hpay]
      rfl
  | removeAttribute e name => exact removeAttribute hs hok
  | removeAttributes e =>
    obtain rfl := Except.ok.inj hok
    exact removeAttributes

end Handover

/-! ### Along a run -/

theorem Labelled.ownedOnce_iff (hs : s.Labelled) : s.OwnedOnce ↔ s.Backed ∧ s.Sole := by
  simp only [OwnedOnce, Backed, Sole, hs.mem_entries_iff]
  exact ⟨fun h => ⟨fun e a => (h e a).mpr, fun e a => (h e a).mp⟩,
    fun h e a => ⟨h.2 e a, h.1 e a⟩⟩

theorem backed_empty : Backed {} := by
  intro e a ha
  simp [owner?, attr?, payload?, get?] at ha

theorem sole_empty : Sole {} := by
  have hnot (e : NodeId) : ¬ Has {} e := Nat.not_lt_zero e
  intro e a ha
  rw [attributes_of_not_has (hnot e)] at ha
  cases ha

/-- Owners list what they own, whoever shares. -/
theorem Backed.change (h : s.Backed) (hs : s.Labelled) (hc : c.Callable s)
    (hok : c.call s = .ok s') : s'.Backed := by
  by_cases hshares : ∃ e e' a, c.Shares s e e' a
  · obtain ⟨e, e', a, rfl, hc, -, -⟩ := hshares
    exact h.add (owner?_addAttribute_eq (hc.2 a rfl) hok) fun _ => attributes_addAttribute hok hc.1
  · exact h.handover (.change hs hc (fun e e' a h => hshares ⟨e, e', a, h⟩) hok)

/-- Owners list what they own in every state that is reached. -/
theorem backed_reach (changes : List Change) : (reach changes).Backed := by
  refine (reach_induction (P := fun s => s.Backed ∧ s.Labelled) ⟨backed_empty, labelled_empty⟩ ?_
    changes).1
  exact fun s s' c h hc hok => ⟨h.1.change h.2 hc hok, h.2.change hc hok⟩

/-- A call after others. -/
theorem reach_take_succ {changes : List Change} (hc : c ∈ changes[n]?) :
    reach (changes.take (n + 1)) = c.perform (reach (changes.take n)) := by
  rw [List.take_add_one, Option.mem_def.mp hc, reach, List.foldl_append]
  rfl

/-- No link breaks without sharing. -/
theorem Sole.perform (h : s.Sole) (hs : s.Labelled) (hnew : ∀ e e' a, ¬ c.Shares s e e' a) :
    (c.perform s).Sole := by
  rcases perform_cases c s with hsame | ⟨hc, hok⟩
  · rwa [hsame]
  · exact h.handover (.change hs hc hnew hok)

end Store

open Store

variable {s : Store} {e e' a : NodeId} {c : Change}

/-- A shared attribute is listed by two elements, and belongs to one of them. -/
theorem Change.Shares.lists (h : c.Shares s e e' a) (hs : s.Labelled) (hb : s.Backed) :
    e ≠ e' ∧ (c.perform s).owner? a = some e ∧ a ∈ (c.perform s).attributes e ∧
      a ∈ (c.perform s).attributes e' := by
  have hlisted := hb e' a h.owner
  have hne : e ≠ e' := by
    rintro rfl
    exact hs.attribute?_label hlisted h.free
  obtain ⟨s', hok⟩ : ∃ s', s.addAttribute e (some a) = .ok s' := by
    rw [Store.addAttribute, OrderedMap.insert?, attribute?_eq_none_iff.mp h.free]
    exact ⟨_, rfl⟩
  obtain ⟨rfl, hc, -, -⟩ := h
  have hperform : (Change.addAttribute e (some a)).perform s = s' := by
    rw [Change.perform, if_pos hc]
    change (s.addAttribute e (some a)).toOption.getD s = s'
    rw [hok]
    rfl
  have hattrs := fun m => attributes_addAttribute (m := m) hok hc.1
  rw [hperform, hattrs, hattrs, if_pos rfl, if_neg hne.symm]
  exact ⟨hne, owner?_addAttribute (hc.2 a rfl) hok, by simp, hlisted⟩

namespace Store

/-- **Owners of attributes.** Whatever calls are made, an element that an attribute belongs to lists
it, and every entry of a table stands under the full name of its attribute. An element lists exactly
the attributes that belong to it, all along the run, if and only if no call of the run adds an
attribute that belongs to another element. After one that does, both elements list the attribute. -/
theorem ownedOnce_reach_iff (changes : List Change) :
    (∀ e a, (reach changes).owner? a = some e →
      ((reach changes).label a, a) ∈ ((reach changes).attributeTable e).entries) ∧
    (∀ e, ∀ entry ∈ ((reach changes).attributeTable e).entries,
      entry.1 = (reach changes).label entry.2) ∧
    (∀ (n : Nat) (c : Change), c ∈ changes[n]? →
      ∀ e e' a, c.Shares (reach (changes.take n)) e e' a →
      e ≠ e' ∧ (reach (changes.take (n + 1))).owner? a = some e ∧
      a ∈ (reach (changes.take (n + 1))).attributes e ∧
      a ∈ (reach (changes.take (n + 1))).attributes e') ∧
    ((∀ n, (reach (changes.take n)).OwnedOnce) ↔
      ∀ (n : Nat) (c : Change), c ∈ changes[n]? →
      ∀ e e' a, ¬ c.Shares (reach (changes.take n)) e e' a) := by
  have hs (n : Nat) : (reach (changes.take n)).Labelled := labelled_reach _
  have hb (n : Nat) : (reach (changes.take n)).Backed := backed_reach _
  have hlists : ∀ (n : Nat) (c : Change), c ∈ changes[n]? →
      ∀ e e' a, c.Shares (reach (changes.take n)) e e' a →
      e ≠ e' ∧ (reach (changes.take (n + 1))).owner? a = some e ∧
      a ∈ (reach (changes.take (n + 1))).attributes e ∧
      a ∈ (reach (changes.take (n + 1))).attributes e' := by
    intro n c hc e e' a hshares
    rw [reach_take_succ hc]
    exact hshares.lists (hs n) (hb n)
  refine ⟨fun e a ha => ?_, fun e entry hentry => ?_, hlists, fun h n c hc e e' a hshares => ?_,
    fun h n => ?_⟩
  · exact (labelled_reach changes).mem_entries_iff.mpr (backed_reach changes e a ha)
  · exact (label_of_attrName? ((labelled_reach changes).name e entry hentry)).symm
  · -- the former owner still lists the attribute, so it would have to own it
    obtain ⟨hne, howner, -, hlisted⟩ := hlists n c hc e e' a hshares
    have hsole := ((hs (n + 1)).ownedOnce_iff.mp (h (n + 1))).2 e' a hlisted
    exact hne (Option.some.inj (howner.symm.trans hsole))
  · refine (hs n).ownedOnce_iff.mpr ⟨hb n, ?_⟩
    induction n with
    | zero => exact sole_empty
    | succ n ih =>
      cases hc : changes[n]? with
      | none =>
        rw [List.take_add_one, hc, Option.toList_none, List.append_nil]
        exact ih
      | some c =>
        rw [reach_take_succ hc]
        exact ih.perform (hs n) (h n c hc)

/-- An attribute that is added to two elements and then removed from the first one. The second one
still lists it. -/
example : ¬ (reach [.tree (.create (.element { qualifier := [], name := "p" }) true 1),
    .tree (.create (.element { qualifier := [], name := "q" }) true 1),
    .tree (.create (.attr { qualifier := [], name := "a" }) true 1), .addAttribute 0 (some 2),
    .addAttribute 1 (some 2), .removeAttribute 0 "a"]).OwnedOnce := fun h => by
  have hq := h 1 2
  revert hq
  decide

end Store

end Stencil.Tree
