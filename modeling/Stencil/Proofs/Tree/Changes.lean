import Stencil.Proofs.Tree.Views

/-!
# Changes of trees and attributes

`Operation` has the calls that act on children and on whole subtrees. A `Change` is one of them or a
call that acts on the attribute table of an element. What is created is fresh: it has no attributes
and belongs to no element, as nobody can hand over a table. `Store.reach` makes all the calls of a
list, and every store that it leads to is well-formed and lists attributes under their names.

Most operations write to links only (`Operation.Relinks`), so what nodes are does not change.

## Main definitions

* `Operation.Relinks` – the operations that write to links only
* `Change`, `Change.Callable`, `Change.call`, `Change.perform` – calls, also on attributes
* `Store.reach` – a list of calls

## Main results

* `wellFormed_reach`, `labelled_reach` – what holds in every state that is reached
-/

namespace Stencil.Tree

/-- What a node is when it is new: without attributes, and owned by nobody. -/
def Payload.IsFresh : Payload → Prop
  | element d => d.attrs = .empty
  | attr d => d.owner = none
  | _ => True

instance : DecidablePred Payload.IsFresh
  | .element _ | .attr _ => inferInstanceAs (Decidable (_ = _))
  | .document _ | .text | .cdata _ | .expression .. | .code .. => .isTrue trivial

namespace Operation

/-- What is created is fresh. -/
def CreatesFresh : Operation → Prop
  | create payload .. => payload.IsFresh
  | _ => True

instance : DecidablePred CreatesFresh := fun op => by
  unfold CreatesFresh
  split <;> infer_instance

/-- The operation writes to links only. -/
def Relinks : Operation → Prop
  | create .. | createText _ | appendData .. | clone _ | dispose _ => False
  | _ => True

end Operation

/-- A call of one of the operations on trees or on the attributes of an element. -/
inductive Change where
  | tree (op : Operation)
  | addAttribute (e : NodeId) (attr : Option NodeId)
  | setAttribute (e : NodeId) (qualifier name value : Text)
  | removeAttribute (e : NodeId) (name : Text)
  | removeAttributes (e : NodeId)
  deriving DecidableEq, Repr

namespace Change

/-- The receiver is of the right kind, the nodes that are named exist and are of the right kind, and
what is created is fresh. -/
def Callable (s : Store) : Change → Prop
  | tree op => op.Callable s ∧ op.CreatesFresh
  | addAttribute e attr => s.isElement e ∧ ∀ a ∈ attr, s.kind? a = some .attr
  | setAttribute e .. | removeAttribute e _ | removeAttributes e => s.isElement e

instance (s : Store) : (c : Change) → Decidable (c.Callable s)
  | tree _ | addAttribute .. => inferInstanceAs (Decidable (_ ∧ _))
  | setAttribute .. | removeAttribute .. | removeAttributes _ =>
    inferInstanceAs (Decidable (_ = _))

/-- What a call gives, or why it is refused. -/
def call (s : Store) : Change → Except TreeError Store
  | tree op => op.call s
  | addAttribute e attr => s.addAttribute e attr
  | setAttribute e qualifier name value => (s.setAttribute e qualifier name value).map Prod.snd
  | removeAttribute e name => s.removeAttribute e name
  | removeAttributes e => .ok (s.removeAttributes e)

/-- The store after a call. -/
def perform (s : Store) (c : Change) : Store :=
  if c.Callable s then (c.call s).toOption.getD s else s

end Change

namespace Store

variable {s s' : Store} {n m e a p c r : NodeId} {name : Text} {op : Operation}

/-- The store after the calls of a list, one after the other, from one without nodes. -/
def reach (changes : List Change) : Store := changes.foldl Change.perform {}

/-! ### Operations that write to links only -/

theorem payload?_appendChild {child : Option NodeId} (hok : s.appendChild p child = .ok s') :
    s'.payload? m = s.payload? m := by
  obtain ⟨c, -, rfl⟩ := appendChild_ok hok
  simp

theorem payload?_insertBefore {child ref : Option NodeId}
    (hok : s.insertBefore p child ref = .ok s') : s'.payload? m = s.payload? m := by
  cases ref with
  | none => exact payload?_appendChild hok
  | some r =>
    obtain ⟨-, ⟨-, rfl⟩ | ⟨c, -, -, rfl⟩⟩ := insertBefore_ok hok
    · rfl
    · simp

theorem payload?_replaceChild {child ref : Option NodeId}
    (hok : s.replaceChild p child ref = .ok s') : s'.payload? m = s.payload? m := by
  obtain ⟨c, -, r, -, -, ⟨-, rfl⟩ | ⟨-, -, rfl⟩⟩ := replaceChild_ok hok
  · rfl
  · simp

theorem payload?_removeChild {child : Option NodeId} (hok : s.removeChild p child = .ok s') :
    s'.payload? m = s.payload? m := by
  unfold removeChild at hok
  split at hok
  · cases hok
  · split_ifs at hok
    rw [← Except.ok.inj hok, payload?_detach]

theorem payload?_moveChildren {dst : Option NodeId} (hok : s.moveChildren p dst = .ok s') :
    s'.payload? m = s.payload? m := by
  obtain ⟨d, -, -, ⟨-, rfl⟩ | ⟨-, -, rfl⟩⟩ := moveChildren_ok hok
  · rfl
  · rw [payload?_attachAll, payload?_removeChildren]

/-- What nodes are does not change with the links. -/
theorem payload?_call (hop : op.Relinks) (hok : op.call s = .ok s') :
    s'.payload? m = s.payload? m := by
  cases op with
  | create | createText | appendData | clone | dispose => cases hop
  | appendChild p child => exact payload?_appendChild hok
  | insertBefore p child ref => exact payload?_insertBefore hok
  | insertAt p child index =>
    obtain ⟨r, -, hok⟩ := exists_of_bind_ok hok
    exact payload?_insertBefore hok
  | removeChild p child => exact payload?_removeChild hok
  | removeAt p index =>
    obtain ⟨c, -, hok⟩ := exists_of_bind_ok hok
    exact payload?_removeChild hok
  | removeChildren p =>
    rw [← Except.ok.inj hok, payload?_removeChildren]
  | replaceChild p child ref => exact payload?_replaceChild hok
  | replaceAt p child index =>
    obtain ⟨r, -, hok⟩ := exists_of_bind_ok hok
    exact payload?_replaceChild hok
  | moveChildren p dst => exact payload?_moveChildren hok
  | unmount n =>
    cases n with
    | none => cases hok
    | some n => rw [← Except.ok.inj hok, payload?_detach]

/-! ### Payloads of one kind -/

theorem attr?_eq_some_iff {d : AttributeData} :
    s.attr? a = some d ↔ s.payload? a = some (.attr d) := by
  refine ⟨payload?_of_attr?, fun h => ?_⟩
  rw [attr?, h]

theorem document?_eq_some_iff {d : DocumentData} :
    s.document? m = some d ↔ s.payload? m = some (.document d) := by
  refine ⟨payload?_of_document?, fun h => ?_⟩
  rw [document?, h]

/-- A change of payloads that neither makes nor takes away a certain payload. -/
theorem payload?_eq_some_of_map {g : Payload → Payload} {q : Payload} (hg : ∀ p, g p = q ↔ p = q)
    (h : ∀ m, s'.payload? m = if m = n then (s.payload? n).map g else s.payload? m) :
    s'.payload? m = some q ↔ s.payload? m = some q := by
  rw [h]
  split
  · rename_i hm
    rw [hm]
    cases s.payload? n <;> simp [hg]
  · rfl

theorem document?_modifyElement {f : ElementData → ElementData} :
    (s.modifyElement n f).document? m = s.document? m := by
  ext d
  rw [document?_eq_some_iff, document?_eq_some_iff]
  exact payload?_eq_some_of_map (fun p => by cases p <;> simp [Payload.mapElement])
    fun _ => payload?_modifyElement

theorem document?_modifyAttr {f : AttributeData → AttributeData} :
    (s.modifyAttr n f).document? m = s.document? m := by
  ext d
  rw [document?_eq_some_iff, document?_eq_some_iff]
  exact payload?_eq_some_of_map (fun p => by cases p <;> simp [Payload.mapAttr])
    fun _ => payload?_modifyAttr

/-! ### Changes of attributes -/

theorem Growth.setValue {v : Value} : Growth s (s.setValue a v) :=
  .modifyAttr fun _ => And.intro rfl rfl

theorem Growth.disown : Growth s (s.disown a) :=
  .modifyAttr fun _ => And.intro rfl rfl

theorem Growth.setTable {attrs : OrderedMap Text NodeId} :
    Growth s (s.modifyElement e fun d => { d with attrs }) :=
  .modifyElement fun _ => And.intro rfl rfl

theorem isSome_attrName? (ha : s.kind? a = some .attr) : (s.attrName? a).isSome := by
  obtain ⟨d, hd⟩ := exists_attr?_of_kind? ha
  rw [attrName?, facet?_of_attr? hd]
  rfl

/-- Setting an attribute is adding a new one. -/
theorem setAttribute_ok {qualifier value : Text}
    (hok : (s.setAttribute e qualifier name value).map Prod.snd = .ok s') :
    ∃ node : Node, node = { payload := .attr { qualifier, name } } ∧
      ((s.add node).2.setValue (s.add node).1 (.literal value)).addAttribute e
        (some (s.add node).1) = .ok s' := by
  refine ⟨_, rfl, ?_⟩
  rw [setAttribute, newAttribute] at hok
  split_ifs at hok
  · cases hok
  · cases hadd : ((s.add _).2.setValue (s.add _).1 (.literal value)).addAttribute e
      (some (s.add _).1) with
    | error err =>
      simp [bind, Except.bind, hadd, Except.map] at hok
    | ok s₁ =>
      simpa [bind, Except.bind, hadd, Except.map, pure, Except.pure] using hok

/-- New values of attributes and new tables concern neither links nor names. -/
theorem Growth.change {change : Change} (hattr : ∀ op, change ≠ .tree op)
    (hok : change.call s = .ok s') : Growth s s' := by
  cases change with
  | tree op => exact absurd rfl (hattr op)
  | addAttribute e attr => exact addAttribute hok
  | setAttribute e qualifier name value =>
    obtain ⟨node, rfl, hok⟩ := setAttribute_ok hok
    exact ((Growth.add rfl).trans setValue).trans (addAttribute hok)
  | removeAttribute e name =>
    obtain ⟨a, -, hok⟩ := exists_of_bind_ok hok
    obtain rfl := Except.ok.inj hok
    exact setTable.trans disown
  | removeAttributes e =>
    obtain rfl := Except.ok.inj hok
    exact (foldl (fun _ _ => disown) _).trans setTable

theorem WellFormed.change {change : Change} (h : s.WellFormed) (hc : change.Callable s)
    (hok : change.call s = .ok s') : s'.WellFormed := by
  cases change with
  | tree op => exact h.call hc.1 hok
  | _ => exact h.growth (.change (fun _ e => by cases e) hok)

/-! ### Attributes under their names -/

theorem Shrinks.setTable {attrs : OrderedMap Text NodeId}
    (hattrs : attrs.entries.Sublist (s.attributeTable e).entries) :
    Shrinks s (s.modifyElement e fun d => { d with attrs }) where
  entries m := by
    rw [attributeTable_eq, payload?_modifyElement]
    split
    · rename_i hm
      subst hm
      rw [attributeTable_eq] at hattrs ⊢
      cases hp : s.payload? m with
      | none => exact .refl _
      | some p =>
        rw [hp] at hattrs
        cases p <;> first | exact hattrs | exact .refl _
    · rw [← attributeTable_eq]
  attrName? x name hx := by
    rw [Store.attrName?, facet?_of_map (fun _ => payload?_modifyElement) fun p => by cases p <;>
      rfl]
    exact hx

/-- Character data is no attribute and has none. -/
theorem Alike.setData {old data : Text} (hn : s.payload? n = some (.cdata old)) :
    Alike s (s.setPayload n (.cdata data)) := by
  intro m
  rw [payload?_setPayload_eq]
  split
  · rename_i hm
    rw [hm, hn]
    rfl
  · rfl

namespace Labelled

protected theorem newText {data : Text} (h : s.Labelled) : (s.newText data).2.Labelled := by
  have ht : (s.add { payload := .text }).2.Labelled := h.shrink (.add rfl)
  unfold Store.newText
  dsimp only
  split
  · exact ht
  · exact (ht.shrink (.add rfl)).attachLast

protected theorem appendData {data : Text} (h : s.Labelled) : (s.appendData n data).Labelled := by
  rw [Store.appendData]
  split
  · rename_i c old hlast hold
    rw [hlast, Option.bind_some] at hold
    exact h.alike (.setData hold)
  · exact (h.shrink (.add rfl)).attachLast

protected theorem call (h : s.Labelled) (hop : op.CreatesFresh) (hok : op.call s = .ok s') :
    s'.Labelled := by
  have hrelinks : op.Relinks → s'.Labelled := fun hlinks =>
    h.alike (.of_payload? fun _ => payload?_call hlinks hok)
  cases op with
  | create payload visible line =>
    obtain rfl := Except.ok.inj hok
    refine h.shrink (.add ?_)
    cases payload with
    | element d => exact hop
    | _ => rfl
  | createText data =>
    obtain rfl := Except.ok.inj hok
    exact h.newText
  | appendData t data =>
    obtain rfl := Except.ok.inj hok
    exact h.appendData
  | clone n =>
    obtain rfl := Except.ok.inj hok
    cases n with
    | none => exact h
    | some n => exact h.clone
  | dispose n =>
    obtain rfl := Except.ok.inj hok
    cases n with
    | none => exact h
    | some n => exact h.shrink .dispose
  | _ => exact hrelinks trivial

protected theorem change {change : Change} (h : s.Labelled) (hc : change.Callable s)
    (hok : change.call s = .ok s') : s'.Labelled := by
  cases change with
  | tree op => exact h.call hc.2 hok
  | addAttribute e attr =>
    cases attr with
    | none => cases hok
    | some a => exact h.addAttribute (isSome_attrName? (hc.2 a rfl)) hok
  | setAttribute e qualifier name value =>
    obtain ⟨node, rfl, hok⟩ := setAttribute_ok hok
    have hadd : Shrinks s (s.add { payload := .attr { qualifier, name } }).2 := .add rfl
    have hnew := h.shrink (hadd.trans (.setValue (n := s.nodes.size) (v := .literal value)))
    refine hnew.addAttribute (isSome_attrName? ?_) hok
    exact Growth.setValue.kind? _ _ kind?_add_self
  | removeAttribute e name =>
    obtain ⟨a, -, hok⟩ := exists_of_bind_ok hok
    obtain rfl := Except.ok.inj hok
    refine h.shrink ((Shrinks.setTable ?_).trans .disown)
    rw [OrderedMap.erase?]
    split
    · exact List.filter_sublist
    · exact .refl _
  | removeAttributes e =>
    obtain rfl := Except.ok.inj hok
    exact h.shrink ((Shrinks.foldl (fun _ _ => .disown) _).trans (.setTable (List.nil_sublist _)))

end Labelled

/-! ### All calls -/

/-- A call succeeds, or leaves everything as it was. -/
theorem perform_cases (c : Change) (s : Store) :
    c.perform s = s ∨ c.Callable s ∧ c.call s = .ok (c.perform s) := by
  rw [Change.perform]
  split
  · rename_i hc
    cases hok : c.call s with
    | error e => exact .inl rfl
    | ok s' => exact .inr ⟨hc, rfl⟩
  · exact .inl rfl

/-- What holds without nodes and is preserved by every call that succeeds holds in every state that
is reached. -/
theorem reach_induction {P : Store → Prop} (hempty : P {})
    (hstep : ∀ (s s' : Store) (c : Change), P s → c.Callable s → c.call s = .ok s' → P s')
    (changes : List Change) : P (reach changes) := by
  suffices ∀ s : Store, P s → P (changes.foldl Change.perform s) from this {} hempty
  induction changes with
  | nil => exact fun s h => h
  | cons c changes ih =>
    refine fun s h => ih _ ?_
    rcases perform_cases c s with hsame | ⟨hc, hok⟩
    · rwa [hsame]
    · exact hstep s _ c h hc hok

/-- The links agree with each other in every state that is reached. -/
theorem wellFormed_reach (changes : List Change) : (reach changes).WellFormed :=
  reach_induction wellFormed_empty (fun _ _ _ h hc hok => h.change hc hok) changes

/-- Attributes are listed under their names in every state that is reached. -/
theorem labelled_reach (changes : List Change) : (reach changes).Labelled :=
  reach_induction labelled_empty (fun _ _ _ h hc hok => h.change hc hok) changes

end Store

end Stencil.Tree
