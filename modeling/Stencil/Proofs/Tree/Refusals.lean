import Stencil.Proofs.Tree.Changes

/-!
# A refused change changes nothing

An operation gives either a new store or a refusal, so whoever is refused keeps the store as it was.
That is a convenient way to write operations down, but it takes for granted that nothing is written
before everything was checked. This module writes the same operations the other way. An `Edit` works
on the store in place: it looks and writes in turn, and what was written before an error stays
written. An edit takes the node to be placed out of its list before it attaches it, moves children
one by one, and makes a new attribute before it looks for its name in the table.

Each edit comes to the same as the operation. If it fails, every link and every table is what it
was, because whatever can fail comes before the first write to them.

The check for cycles is exact: it refuses the container itself and what is above it, and nothing
else. Other checks come before it, though. A node that is to be replaced has to be given, while a
node to insert in front of may be missing.

## Main definitions

* `Edit` – work in place; `Operation.edit`, `Change.edit` – the operations as such work
* `Store.Intact` – no link and no table has changed
* `Store.Encloses` – a node is above another one, and could hold children
* `Store.RefusesWhole` – what the operations promise about refusals

## Main results

* `Operation.edit_apply` – an operation in place
* `WellFormed.refusesWhole` – the operations keep their promise
-/

namespace Stencil.Tree

/-- Work on the store in place: what was written before an error stays written. -/
abbrev Edit (α : Type) := Action TreeError Store α

namespace Edit

/-! ### The operations in place -/

/-- The node that is needed. -/
def given : Option NodeId → Edit NodeId
  | some n => pure n
  | none => throw .missingNode

/-- The check of the rules. -/
def check (p : NodeId) (child replaced : Option NodeId) : Edit NodeId := do
  let s ← get
  Action.ofExcept (s.checkChild p child replaced)

/-- Removes a child. -/
def removeChild (p : NodeId) (child : Option NodeId) : Edit PUnit := do
  let c ← given child
  let s ← get
  if s.parent? c ≠ some p then throw (.notAChild .remove (s.label c))
  else modify (·.detach c)

/-- Takes a node out of its parent, if it has one. -/
def unmount (n : Option NodeId) : Edit PUnit := do
  let n ← given n
  let s ← get
  match s.parent? n with
  | none => pure ⟨⟩
  | some p => removeChild p (some n)

/-- Places a node: it is checked, then taken out of its old list, then attached. -/
def place (p : NodeId) (child replaced : Option NodeId) (attach : Store → NodeId → Store) :
    Edit PUnit := do
  let c ← check p child replaced
  unmount (some c)
  modify (attach · c)

/-- Makes a node the last child of `p`. -/
def appendChild (p : NodeId) (child : Option NodeId) : Edit PUnit :=
  place p child none fun s c => s.attachLast p c

/-- Makes a node the child of `p` directly in front of `ref`, or the last child without `ref`. -/
def insertBefore (p : NodeId) (child : Option NodeId) : Option NodeId → Edit PUnit
  | none => appendChild p child
  | some r => do
    let s ← get
    if s.parent? r ≠ some p then throw (.notAChild .insert (s.label r))
    else if child = some r then pure ⟨⟩
    else place p child none fun s c => s.attachBefore p c r

/-- Puts a node in the place of the child `ref`. -/
def replaceChild (p : NodeId) (child ref : Option NodeId) : Edit PUnit := do
  let r ← given ref
  let c ← given child
  let s ← get
  if s.parent? r ≠ some p then throw (.notAChild .replace (s.label r))
  else if c = r then pure ⟨⟩
  else place p (some c) (some r) fun s c => s.attachInstead p c r

/-- The child at a position. -/
def childAt (p : NodeId) (index : Int) (operation : ChildOperation) : Edit NodeId := do
  let s ← get
  Action.ofExcept (s.childAt p index operation)

/-- Removes all children, one by one, and gives them in order. -/
def removeChildren (p : NodeId) : Edit (List NodeId) := do
  let s ← get
  (s.children p).forM fun c => modify (·.relink c Links.alone)
  modify (·.relink p Links.childless)
  return s.children p

/-- Moves all children to the empty container `dst`: they are checked one by one, then removed, then
attached one by one. -/
def moveChildren (p : NodeId) (dst : Option NodeId) : Edit PUnit := do
  let d ← given dst
  let s ← get
  if s.hasChildren d then throw (.destinationNotEmpty (s.label p) (s.label d))
  else if p = d then pure ⟨⟩
  else do
    (s.children p).forM fun c => discard (check d (some c) none)
    if s.hasSingleRoot d && (s.children p).countP s.isElement > 1 then
      throw (.severalRoots (s.label p))
    else do
      let cs ← removeChildren p
      cs.forM fun c => modify (·.attachLast d c)

/-- Adds an attribute at the end of the table of an element, and makes the element its owner. -/
def addAttribute (e : NodeId) (attr : Option NodeId) : Edit PUnit := do
  let a ← given attr
  let s ← get
  match (s.attributeTable e).insert? (s.label a) a with
  | none => throw (.duplicateAttribute (s.label e) (s.label a))
  | some attrs => do
    modify (·.modifyElement e fun d => { d with attrs })
    modify (·.modifyAttr a fun d => { d with owner := some e })

/-- Makes a new attribute, gives it a fixed value and adds it. -/
def setAttribute (e : NodeId) (qualifier name value : Text) : Edit NodeId := do
  let s ← get
  let (a, s) ← Action.ofExcept (s.newAttribute qualifier name)
  set s
  modify (·.setValue a (.literal value))
  addAttribute e (some a)
  return a

/-- Removes the attribute with the given full name from an element, which no longer owns it. -/
def removeAttribute (e : NodeId) (name : Text) : Edit PUnit := do
  let s ← get
  let a ← Action.ofExcept (s.getAttribute e name)
  let attrs := ((s.attributeTable e).erase? name).getD (s.attributeTable e)
  modify (·.modifyElement e fun d => { d with attrs })
  modify (·.disown a)

end Edit

/-- An operation as work in place. -/
def Operation.edit : Operation → Edit PUnit
  | create payload visible line => modify fun s => (s.add { payload, visible, line }).2
  | createText data => modify fun s => (s.newText data).2
  | appendChild p child => Edit.appendChild p child
  | insertBefore p child ref => Edit.insertBefore p child ref
  | insertAt p child index => do
    let r ← Edit.childAt p index .insert
    Edit.insertBefore p child (some r)
  | removeChild p child => Edit.removeChild p child
  | removeAt p index => do
    let c ← Edit.childAt p index .remove
    Edit.removeChild p (some c)
  | removeChildren p => discard (Edit.removeChildren p)
  | replaceChild p child ref => Edit.replaceChild p child ref
  | replaceAt p child index => do
    let r ← Edit.childAt p index .replace
    Edit.replaceChild p child (some r)
  | moveChildren p dst => Edit.moveChildren p dst
  | appendData t data => modify fun s => s.appendData t data
  | unmount n => Edit.unmount n
  | clone n => modify fun s => (n.map fun n => (s.clone n).2).getD s
  | dispose n => modify fun s => (n.map s.dispose).getD s

/-- A change as work in place. -/
def Change.edit : Change → Edit PUnit
  | tree op => op.edit
  | addAttribute e attr => Edit.addAttribute e attr
  | setAttribute e qualifier name value => discard (Edit.setAttribute e qualifier name value)
  | removeAttribute e name => Edit.removeAttribute e name
  | removeAttributes e => modify fun s => s.removeAttributes e

namespace Store

variable {s s' : Store} {p c r e a : NodeId} {child ref dst replaced : Option NodeId}

/-- How work in place ends that writes only if it succeeds. -/
def settle (s : Store) : Except TreeError Store → Except TreeError PUnit × Store
  | .ok s' => (.ok ⟨⟩, s')
  | .error err => (.error err, s)

/-- No link and no attribute table has changed, and no node either. Nodes may have come. -/
structure Intact (s s' : Store) : Prop where
  /-- Every link and every number of children is what it was. -/
  links (n : NodeId) : s'.links n = s.links n
  /-- Every attribute table is what it was. -/
  attributeTable (n : NodeId) : s'.attributeTable n = s.attributeTable n
  /-- Every node is what it was. -/
  get? (n : NodeId) : s.Has n → s'.get? n = s.get? n

/-- The node `c` is an element or a run of text, and is `p` or one of its ancestors. -/
def Encloses (s : Store) (c p : NodeId) : Prop :=
  (s.isElement c ∨ s.payload? c = some .text) ∧ s.Above c p

/-- The node could not be placed because it would be below itself. -/
def FailsInCycle (outcome : Except TreeError Store) : Prop :=
  ∃ child parent, outcome = .error (.cycle child parent)

/-- What the operations promise about refusals. -/
structure RefusesWhole (s : Store) : Prop where
  /-- Work in place succeeds and fails as the operation does, and leaves the same store behind. -/
  agrees (c : Change) : ((c.edit s).1.map fun _ => (c.edit s).2) = c.call s
  /-- Work in place that fails has changed no link and no table. -/
  intact (c : Change) (err : TreeError) (s' : Store) : c.edit s = (.error err, s') → s.Intact s'
  /-- What is refused as a cycle at the end. -/
  appendChild (p : NodeId) (child : Option NodeId) : s.isContainer p →
    (FailsInCycle (s.appendChild p child) ↔ ∃ c ∈ child, s.Encloses c p)
  /-- What is refused as a cycle in front of a node, which has to be a child if it is given. -/
  insertBefore (p : NodeId) (child ref : Option NodeId) : s.isContainer p →
    (FailsInCycle (s.insertBefore p child ref) ↔
      (∃ c ∈ child, s.Encloses c p) ∧ ∀ r ∈ ref, s.parent? r = some p)
  /-- What is refused as a cycle in the place of a node, which has to be given and to be a child. -/
  replaceChild (p : NodeId) (child ref : Option NodeId) : s.isContainer p →
    (FailsInCycle (s.replaceChild p child ref) ↔
      (∃ c ∈ child, s.Encloses c p) ∧ ∃ r ∈ ref, s.parent? r = some p)

end Store

/-! ### Edits and operations -/

namespace Edit

open Stencil.Action Store

variable {s : Store} {p c r e a d n : NodeId} {child ref dst replaced : Option NodeId}
  {attach : Store → NodeId → Store} {index : Int} {name : Text}

theorem ofExcept_apply {α : Type} (x : Except TreeError α) :
    (Action.ofExcept x : Edit α) s = (x, s) := by
  cases x <;> rfl

theorem check_apply : check p child replaced s = (s.checkChild p child replaced, s) := by
  rw [check, bind_apply, get_apply]
  exact ofExcept_apply _

theorem childAt_apply {operation : ChildOperation} :
    childAt p index operation s = (s.childAt p index operation, s) := by
  rw [childAt, bind_apply, get_apply]
  exact ofExcept_apply _

theorem forM_modify {α : Type} (f : α → Store → Store) (l : List α) (s : Store) :
    (l.forM fun x => (modify (f x) : Edit PUnit)) s = (.ok ⟨⟩, l.foldl (fun s x => f x s) s) := by
  induction l generalizing s with
  | nil => rfl
  | cons x l ih =>
    change ((modify (f x) : Edit PUnit) >>= fun _ => l.forM fun x => modify (f x)) s = _
    rw [bind_apply, modify_apply]
    exact ih (f x s)

theorem removeChild_apply : removeChild p child s = settle s (s.removeChild p child) := by
  cases child with
  | none => rfl
  | some c =>
    rw [removeChild, given, pure_bind, bind_apply, get_apply, Store.removeChild]
    dsimp only
    split_ifs <;> rfl

/-- Nobody fails to take a node out: the parent of a node has it as a child. -/
theorem unmount_apply : unmount (some c) s = (.ok ⟨⟩, s.detach c) := by
  rw [unmount, given, pure_bind, bind_apply, get_apply]
  dsimp only
  cases hc : s.parent? c with
  | none =>
    rw [detach_of_alone hc]
    rfl
  | some q =>
    dsimp only
    rw [removeChild_apply, Store.removeChild, if_neg (not_not.mpr hc), settle]

/-- The check comes first, and nothing fails after it. -/
theorem place_apply : place p child replaced attach s =
    settle s ((s.checkChild p child replaced).map fun c => attach (s.detach c) c) := by
  rw [place, bind_apply, check_apply]
  cases s.checkChild p child replaced with
  | error err => rfl
  | ok c =>
    dsimp only
    rw [bind_apply, unmount_apply]
    rfl

theorem appendChild_apply : appendChild p child s = settle s (s.appendChild p child) := by
  rw [appendChild, place_apply, Store.appendChild]
  cases s.checkChild p child none <;> rfl

theorem insertBefore_apply :
    insertBefore p child ref s = settle s (s.insertBefore p child ref) := by
  cases ref with
  | none => exact appendChild_apply
  | some r =>
    rw [insertBefore, bind_apply, get_apply, Store.insertBefore]
    dsimp only
    split_ifs
    · rfl
    · rfl
    · rw [place_apply]
      cases s.checkChild p child none <;> rfl

theorem replaceChild_apply :
    replaceChild p child ref s = settle s (s.replaceChild p child ref) := by
  cases ref with
  | none => cases child <;> rfl
  | some r =>
    cases child with
    | none => rfl
    | some c =>
      rw [replaceChild, given, given, pure_bind, pure_bind, bind_apply, get_apply,
        Store.replaceChild]
      dsimp only
      split_ifs
      · rfl
      · rfl
      · rw [place_apply]
        cases s.checkChild p (some c) (some r) <;> rfl

theorem removeChildren_apply :
    removeChildren p s = (.ok (s.removeChildren p).1, (s.removeChildren p).2) := by
  rw [removeChildren, bind_apply, get_apply]
  dsimp only
  rw [bind_apply, forM_modify]
  rfl

/-- Checking node after node writes nothing, and the first one that is refused ends it. -/
theorem forM_check_apply (l : List NodeId) :
    (l.forM fun c => (discard (check d (some c) none) : Edit PUnit)) s =
      (l.forM fun c => (s.checkChild d (some c) none).map fun _ => ⟨⟩, s) := by
  induction l with
  | nil => rfl
  | cons c l ih =>
    have hfirst : (discard (check d (some c) none) : Edit PUnit) s =
        ((s.checkChild d (some c) none).map fun _ => ⟨⟩, s) := by
      change ((fun _ => ⟨⟩) <$> check d (some c) none : Edit PUnit) s = _
      rw [map_eq_pure_bind, bind_apply, check_apply]
      cases s.checkChild d (some c) none <;> rfl
    change (discard (check d (some c) none) >>= fun _ =>
      l.forM fun c => (discard (check d (some c) none) : Edit PUnit)) s = _
    have hcons : ((c :: l).forM fun c => (s.checkChild d (some c) none).map fun _ => PUnit.unit) =
        ((s.checkChild d (some c) none).map fun _ => PUnit.unit) >>= fun _ =>
          l.forM fun c => (s.checkChild d (some c) none).map fun _ => PUnit.unit := rfl
    rw [bind_apply, hfirst, hcons]
    cases s.checkChild d (some c) none with
    | error err => rfl
    | ok => exact ih

theorem moveChildren_apply : moveChildren p dst s = settle s (s.moveChildren p dst) := by
  cases dst with
  | none => rfl
  | some d =>
    rw [moveChildren, given, pure_bind, bind_apply, get_apply, Store.moveChildren]
    dsimp only
    split_ifs with hempty hself hroots
    · rfl
    · rfl
    · rw [bind_apply, forM_check_apply]
      cases (s.children p).forM fun c => (s.checkChild d (some c) none).map fun _ =>
        PUnit.unit <;> rfl
    · rw [bind_apply, forM_check_apply]
      cases (s.children p).forM fun c => (s.checkChild d (some c) none).map fun _ => PUnit.unit with
      | error err => rfl
      | ok =>
        dsimp only
        rw [bind_apply, removeChildren_apply]
        exact forM_modify _ _ _

theorem removeAt_apply : (childAt p index .remove >>= fun c => removeChild p (some c)) s =
    settle s (s.removeAt p index) := by
  rw [bind_apply, childAt_apply, removeAt]
  cases s.childAt p index .remove with
  | error err => rfl
  | ok c => exact removeChild_apply

theorem insertAt_apply : (childAt p index .insert >>= fun r => insertBefore p child (some r)) s =
    settle s (s.insertAt p child index) := by
  rw [bind_apply, childAt_apply, insertAt]
  cases s.childAt p index .insert with
  | error err => rfl
  | ok r => exact insertBefore_apply

theorem replaceAt_apply : (childAt p index .replace >>= fun r => replaceChild p child (some r)) s =
    settle s (s.replaceAt p child index) := by
  rw [bind_apply, childAt_apply, replaceAt]
  cases s.childAt p index .replace with
  | error err => rfl
  | ok r => exact replaceChild_apply

theorem addAttribute_apply {attr : Option NodeId} :
    addAttribute e attr s = settle s (s.addAttribute e attr) := by
  cases attr with
  | none => rfl
  | some a =>
    rw [addAttribute, given, pure_bind, bind_apply, get_apply, Store.addAttribute]
    dsimp only
    cases (s.attributeTable e).insert? (s.label a) a <;> rfl

theorem removeAttribute_apply : removeAttribute e name s = settle s (s.removeAttribute e name) := by
  rw [removeAttribute, bind_apply, get_apply, Store.removeAttribute]
  dsimp only
  rw [bind_apply, ofExcept_apply]
  cases s.getAttribute e name <;> rfl

/-- Setting an attribute is the one change that leaves something behind when it is refused: a new
node, which nothing refers to. -/
theorem setAttribute_apply {qualifier value : Text} (hname : name ≠ []) :
    setAttribute e qualifier name value s =
      let (a, s₁) := s.add { payload := .attr { qualifier, name } }
      let s₂ := s₁.setValue a (.literal value)
      match s₂.addAttribute e (some a) with
      | .ok s' => (.ok a, s')
      | .error err => (.error err, s₂) := by
  rw [setAttribute, bind_apply, get_apply]
  dsimp only
  rw [newAttribute, if_neg hname, bind_apply, ofExcept_apply]
  generalize s.add { payload := .attr { qualifier, name } } = new
  dsimp only
  change (addAttribute e (some new.1) >>= fun _ => pure new.1 : Edit NodeId)
    (new.2.setValue new.1 (.literal value)) = _
  rw [bind_apply, addAttribute_apply]
  cases (new.2.setValue new.1 (.literal value)).addAttribute e (some new.1) <;> rfl

end Edit

/-- **Work in place.** An operation in place writes only if it succeeds. -/
theorem Operation.edit_apply (op : Operation) (s : Store) : op.edit s = s.settle (op.call s) := by
  cases op with
  | appendChild p child => exact Edit.appendChild_apply
  | insertBefore p child ref => exact Edit.insertBefore_apply
  | insertAt p child index => exact Edit.insertAt_apply
  | removeChild p child => exact Edit.removeChild_apply
  | removeAt p index => exact Edit.removeAt_apply
  | removeChildren p =>
    change ((fun _ => ⟨⟩) <$> Edit.removeChildren p : Edit PUnit) s = _
    rw [map_eq_pure_bind, Action.bind_apply, Edit.removeChildren_apply]
    rfl
  | replaceChild p child ref => exact Edit.replaceChild_apply
  | replaceAt p child index => exact Edit.replaceAt_apply
  | moveChildren p dst => exact Edit.moveChildren_apply
  | unmount n =>
    cases n with
    | none => rfl
    | some n => exact Edit.unmount_apply
  | create | createText | appendData | clone | dispose => rfl

namespace Store

variable {s s' : Store} {p c r e a n : NodeId} {child ref dst replaced : Option NodeId}
  {change : Change} {err : TreeError}

/-! ### Nothing has changed -/

@[refl] theorem Intact.refl (s : Store) : s.Intact s := ⟨fun _ => rfl, fun _ => rfl, fun _ _ => rfl⟩

/-- A new node that nothing refers to. -/
theorem intact_add {node : Node} (hlinks : node.links = {}) (htable : node.payload.table = .empty) :
    s.Intact (s.add node).2 where
  links := (Growth.add hlinks).links
  attributeTable n := by
    rw [attributeTable_eq, payload?_add, attributeTable_eq]
    split
    · rename_i hn
      rw [hn, payload?, get?_eq_none_iff.mpr not_has_add, Option.map_some, htable]
      rfl
    · rfl
  get? n hn := get?_add_of_has hn

theorem Intact.setValue {v : Value} (h : s.Intact s') (ha : ¬ s.Has a) :
    s.Intact (s'.setValue a v) where
  links n := (Growth.setValue.links n).trans (h.links n)
  attributeTable n := by
    rw [attributeTable_eq, Store.setValue, payload?_modifyAttr, ← h.attributeTable,
      attributeTable_eq]
    split
    · rename_i hn
      subst hn
      cases s'.payload? n with
      | none => rfl
      | some p => cases p <;> rfl
    · rfl
  get? n hn := by
    have hne : n ≠ a := fun e => ha (e ▸ hn)
    rw [Store.setValue, get?_modifyAttr_of_ne hne, h.get? n hn]

theorem outcome_settle {x : Except TreeError Store} :
    ((s.settle x).1.map fun _ => (s.settle x).2) = x := by
  cases x <;> rfl

theorem eq_of_settle_error {x : Except TreeError Store} (h : s.settle x = (.error err, s')) :
    s' = s := by
  cases x with
  | ok => cases h
  | error => exact (congrArg Prod.snd h).symm

/-- **Work in place.** A change in place does what the change does. Before it can fail, it has at
most made a new node. -/
theorem edit_eq_settle (change : Change) (s : Store) :
    ∃ s₁ : Store, s.Intact s₁ ∧ change.edit s = s₁.settle (change.call s) := by
  have hsettled {x : Except TreeError PUnit × Store} {y : Except TreeError Store}
      (h : x = s.settle y) : ∃ s₁ : Store, s.Intact s₁ ∧ x = s₁.settle y := ⟨s, .refl s, h⟩
  cases change with
  | tree op => exact hsettled (op.edit_apply s)
  | addAttribute e attr => exact hsettled Edit.addAttribute_apply
  | removeAttribute e name => exact hsettled Edit.removeAttribute_apply
  | removeAttributes e => exact hsettled rfl
  | setAttribute e qualifier name value =>
    rw [Change.edit, Change.call, Store.setAttribute, newAttribute]
    split_ifs with hname
    · rw [hname]
      exact hsettled rfl
    · have hnew : s.Intact ((s.add { payload := .attr { qualifier, name } }).2.setValue
          (s.add { payload := .attr { qualifier, name } }).1 (.literal value)) :=
        (intact_add rfl rfl).setValue not_has_add
      refine ⟨_, hnew, ?_⟩
      change ((fun _ => ⟨⟩) <$> Edit.setAttribute e qualifier name value : Edit PUnit) s = _
      rw [map_eq_pure_bind, Action.bind_apply, Edit.setAttribute_apply hname]
      generalize s.add { payload := .attr { qualifier, name } } = new
      obtain ⟨a, t⟩ := new
      change _ = settle _ (((t.setValue a (.literal value)).addAttribute e (some a) >>=
        fun s' => pure (a, s')).map Prod.snd)
      dsimp only
      cases (t.setValue a (.literal value)).addAttribute e (some a) <;> rfl

/-! ### Cycles -/

theorem checkContainer_ne_cycle {x y : Text} :
    s.checkContainer p c replaced ≠ .error (.cycle x y) := by
  rw [checkContainer]
  split
  · split
    · split_ifs <;> simp
    · simp
  · split <;> simp
  · simp

/-- What is refused as a cycle can have children and was met on the way up. -/
theorem encloses_of_checkChild (h : s.WellFormed) (hp : s.isContainer p) {x y : Text}
    (hc : s.checkChild p (some c) replaced = .error (.cycle x y)) : s.Encloses c p := by
  rw [checkChild] at hc
  split at hc
  · cases hc
  · cases hc
  rename_i hdoc hattr
  split at hc
  · rename_i hcycle
    obtain ⟨hcont, hmem⟩ : s.isContainer c ∧ c ∈ s.selfAndAncestors p := by simpa using hcycle
    refine ⟨?_, (h.linked.mem_selfAndAncestors h.grounded (has_of_isContainer hp)).mp hmem⟩
    rw [isContainer] at hcont
    cases hpay : s.payload? c with
    | none => simp [hpay] at hcont
    | some payload =>
      cases payload with
      | document d => exact absurd hpay (hdoc d)
      | element d => exact .inl (by rw [isElement, element?, hpay]; rfl)
      | text => exact .inr rfl
      | _ => simp [hpay, Payload.isContainer] at hcont
  · split at hc
    · rename_i hcont
      exact absurd (hcont.trans (congrArg _ (Except.error.inj hc))) checkContainer_ne_cycle
    · cases hc

theorem checkChild_of_encloses (h : s.WellFormed) (hp : s.isContainer p) (hc : s.Encloses c p) :
    s.checkChild p (some c) replaced = .error (.cycle (s.label c) (s.label p)) := by
  obtain ⟨hkind, hup⟩ := hc
  have hmem : c ∈ s.selfAndAncestors p :=
    (h.linked.mem_selfAndAncestors h.grounded (has_of_isContainer hp)).mpr hup
  have hcont : s.isContainer c := by
    rcases hkind with helement | htext
    · exact isContainer_of_isElement helement
    · rw [isContainer, htext]
      rfl
  rw [checkChild]
  split
  · rename_i d hd
    rcases hkind with helement | htext
    · simp [isElement, element?, hd] at helement
    · simp [hd] at htext
  · rename_i d hd
    rcases hkind with helement | htext
    · simp [isElement, element?, hd] at helement
    · simp [hd] at htext
  · rw [if_pos (by simpa [hcont] using hmem)]

/-- Placing a node fails with a cycle exactly if the check finds one. -/
theorem failsInCycle_bind {x : Except TreeError NodeId} {f : NodeId → Store} :
    FailsInCycle (x >>= fun c => pure (f c)) ↔ ∃ c q, x = .error (.cycle c q) := by
  cases x with
  | ok c => simp [FailsInCycle, bind, Except.bind, pure, Except.pure]
  | error err => simp [FailsInCycle, bind, Except.bind]

/-- **Cycles.** The check refuses as a cycle what can have children and is above the container. -/
theorem WellFormed.checkChild_cycle (h : s.WellFormed) (hp : s.isContainer p) :
    (∃ x y, s.checkChild p child replaced = .error (.cycle x y)) ↔ ∃ c ∈ child, s.Encloses c p := by
  cases child with
  | none => simp [checkChild]
  | some c =>
    constructor
    · rintro ⟨x, y, hc⟩
      exact ⟨c, rfl, encloses_of_checkChild h hp hc⟩
    · rintro ⟨d, hd, hc⟩
      obtain rfl := Option.some.inj hd
      exact ⟨_, _, checkChild_of_encloses h hp hc⟩

/-- A child is not above its parent. -/
theorem WellFormed.not_encloses_child (h : s.WellFormed) (hr : s.parent? r = some p) :
    ¬ s.Encloses r p :=
  fun hc => h.grounded.not_above_of_parent? hr hc.2

theorem WellFormed.appendChild_cycle (h : s.WellFormed) (hp : s.isContainer p) :
    FailsInCycle (s.appendChild p child) ↔ ∃ c ∈ child, s.Encloses c p :=
  failsInCycle_bind.trans (h.checkChild_cycle hp)

theorem WellFormed.insertBefore_cycle (h : s.WellFormed) (hp : s.isContainer p) :
    FailsInCycle (s.insertBefore p child ref) ↔
      (∃ c ∈ child, s.Encloses c p) ∧ ∀ r ∈ ref, s.parent? r = some p := by
  cases ref with
  | none =>
    have hnone : ∀ r ∈ (none : Option NodeId), s.parent? r = some p := fun r hr => nomatch hr
    rw [and_iff_left hnone]
    exact h.appendChild_cycle hp
  | some r =>
    rw [Store.insertBefore]
    split_ifs with hr hself
    · simp [FailsInCycle, hr]
    · rw [not_not] at hr
      have hnot : ¬ s.Encloses r p := h.not_encloses_child hr
      simp [FailsInCycle, hself, hnot]
    · rw [failsInCycle_bind, h.checkChild_cycle hp]
      simp [not_not.mp hr]

theorem WellFormed.replaceChild_cycle (h : s.WellFormed) (hp : s.isContainer p) :
    FailsInCycle (s.replaceChild p child ref) ↔
      (∃ c ∈ child, s.Encloses c p) ∧ ∃ r ∈ ref, s.parent? r = some p := by
  unfold Store.replaceChild
  split
  · rename_i c r
    split_ifs with hr hself
    · simp [FailsInCycle, hr]
    · rw [not_not] at hr
      have hnot : ¬ s.Encloses r p := h.not_encloses_child hr
      simp [FailsInCycle, hself, hnot]
    · rw [failsInCycle_bind, h.checkChild_cycle hp]
      simp [not_not.mp hr]
  · rename_i hnone
    cases child with
    | none => simp [FailsInCycle]
    | some c =>
      cases ref with
      | none => simp [FailsInCycle]
      | some r => exact absurd rfl (hnone c r rfl)

/-! ### All operations -/

theorem WellFormed.refusesWhole (h : s.WellFormed) : s.RefusesWhole where
  agrees change := by
    obtain ⟨s₁, -, hedit⟩ := edit_eq_settle change s
    rw [hedit, outcome_settle]
  intact change err s' herr := by
    obtain ⟨s₁, hintact, hedit⟩ := edit_eq_settle change s
    rw [hedit] at herr
    rwa [eq_of_settle_error herr]
  appendChild _ _ hp := h.appendChild_cycle hp
  insertBefore _ _ _ hp := h.insertBefore_cycle hp
  replaceChild _ _ _ hp := h.replaceChild_cycle hp

/-- **Refusals are whole.** In every state that any calls lead to, an operation that is refused
leaves every link and every table as it was, and what is refused as a cycle is one. -/
theorem refusesWhole_reach (changes : List Change) : (reach changes).RefusesWhole :=
  (wellFormed_reach changes).refusesWhole

/-- The reference of a replacement cannot be missing. Without one, an element that is to be placed
in itself is refused for another reason, although no reference stands elsewhere. -/
theorem replaceChild_none_not_cycle :
    let s := reach [.tree (.create (.element { qualifier := [], name := "a" }) true 1)]
    s.isContainer 0 ∧ ¬ (FailsInCycle (s.replaceChild 0 (some 0) none) ↔
      (∃ c ∈ some 0, s.Encloses c 0) ∧ ∀ r ∈ (none : Option NodeId), s.parent? r = some 0) := by
  intro s
  have helement : s.isElement 0 := by decide
  refine ⟨isContainer_of_isElement helement, fun hiff => ?_⟩
  obtain ⟨x, y, hxy⟩ := hiff.mpr ⟨⟨0, rfl, .inl helement, .refl 0⟩, fun r hr => nomatch hr⟩
  cases hxy

end Store

end Stencil.Tree
