import Mathlib.Data.Finset.Card
import Stencil.Proofs.Tree.Disposal

/-!
# The root of a document

A document that is well-formed markup has one element at its top level. Whether it may get one is
asked when a node is placed, and asked in different ways: a node that is replaced is about to leave,
a node that stands there already is only moved, and when all children of a node move, it is their
number that counts. Copying does not ask at all, since a copy has as many elements as the original.

Both directions are proved here. No call leads to a second element (`SingleRooted`), and no call is
refused for it that would not. What a call would lead to if nothing was checked is
`Operation.forced`; where the call is accepted, it does lead there.

## Main definitions

* `Store.SameRoles` – no node changes its kind, and no document what it asks for
* `Store.SingleRooted` – documents that ask for it have at most one element at the top level
* `Operation.forced`, `Operation.target?` – placing without checking, and where
* `Store.RootedOnce` – what is promised about roots

## Main results

* `SingleRooted.put`, `SingleRooted.clone`, `SingleRooted.change` – no call leads to a second
  element
* `eq_forced` – what accepted calls lead to
* `WellFormed.refused_root` – a refusal means that there would be two
* `WellFormed.inserts_accepted`, `WellFormed.replaces_accepted` – what is never refused
* `WellFormed.rootedOnce` – the operations keep their promise
-/

namespace Stencil.Tree

namespace Payload

/-- Whether this is a document that can have at most one element at its top level. -/
def asksOneRoot : Payload → Bool
  | document d => d.singleRoot
  | _ => false

/-- The kind of a node, and what it asks for. -/
def role (p : Payload) : NodeKind × Bool := (p.nodeKind, p.asksOneRoot)

theorem role_loose (p : Payload) : p.loose.role = p.role := by cases p <;> rfl

end Payload

/-- The refusals for a second element at the top level. -/
def TreeError.IsDuplicateRoot : TreeError → Prop
  | secondRoot _ | severalRoots _ => True
  | _ => False

namespace Store

/-- Puts a node in front of a child, or behind all children without one, whether it may be there or
not. -/
def putBefore (s : Store) (p c : NodeId) : Option NodeId → Store
  | none => (s.detach c).attachLast p c
  | some r => if c = r then s else (s.detach c).attachBefore p c r

/-- Puts a node in the place of a child, whether it may be there or not. -/
def putInstead (s : Store) (p c r : NodeId) : Store :=
  if c = r then s else (s.detach c).attachInstead p c r

/-- Moves all children, whether they may be there or not. -/
def putAll (s : Store) (p d : NodeId) : Store :=
  if p = d then s else (s.children p).foldl (fun s c => s.attachLast d c) (s.removeChildren p).2

end Store

namespace Operation

/-- Where a placing call places nodes. -/
def target? : Operation → Option NodeId
  | appendChild p _ | insertBefore p .. | insertAt p .. | replaceChild p .. |
    replaceAt p .. => some p
  | moveChildren _ dst => dst
  | _ => none

/-- What a placing call leads to if nothing is checked. -/
def forced (s : Store) : Operation → Store
  | appendChild p (some c) => s.putBefore p c none
  | insertBefore p (some c) ref => s.putBefore p c ref
  | insertAt p (some c) index =>
    ((s.childAt p index .insert).toOption.map fun r => s.putBefore p c (some r)).getD s
  | replaceChild p (some c) (some r) => s.putInstead p c r
  | replaceAt p (some c) index =>
    ((s.childAt p index .replace).toOption.map (s.putInstead p c)).getD s
  | moveChildren p (some d) => s.putAll p d
  | _ => s

/-- The call puts the node `c` among the children of `d`: at the end, in front of a child, or at the
position of one. -/
def Inserts (s : Store) (d c : NodeId) : Operation → Prop
  | appendChild p child => p = d ∧ child = some c
  | insertBefore p child ref => p = d ∧ child = some c ∧ ∀ r ∈ ref, s.parent? r = some d
  | insertAt p child index =>
    p = d ∧ child = some c ∧ 0 ≤ index ∧ ∃ r, (s.children d)[index.toNat]? = some r
  | _ => False

/-- The call puts the node `c` in the place of the child `r` of `d`, which may be given by its
position. -/
def Replaces (s : Store) (d c r : NodeId) : Operation → Prop
  | replaceChild p child ref => p = d ∧ child = some c ∧ ref = some r
  | replaceAt p child index =>
    p = d ∧ child = some c ∧ 0 ≤ index ∧ (s.children d)[index.toNat]? = some r
  | _ => False

end Operation

namespace Store

variable {s s' s'' : Store} {n m p c r e d x y root : NodeId} {l : List NodeId}
  {child ref replaced dst : Option NodeId} {op : Operation} {err : TreeError}
  {node : Node} {index : Int}

/-- No node changes its kind, and no document what it asks for. Nodes may come. -/
def SameRoles (s s' : Store) : Prop :=
  ∀ n, s.Has n → (s'.payload? n).map Payload.role = (s.payload? n).map Payload.role

/-- Two elements stand at the top level of `d`. -/
def HasTwoRoots (s : Store) (d : NodeId) : Prop := ∃ x y : NodeId, x ≠ y ∧
  x ∈ s.children d ∧ y ∈ s.children d ∧ s.isElement x ∧ s.isElement y

/-- Documents that ask for it have at most one element at the top level. -/
def SingleRooted (s : Store) : Prop := ∀ d : NodeId, s.hasSingleRoot d → ¬ s.HasTwoRoots d

/-- What is promised about the roots of documents. -/
structure RootedOnce (s : Store) : Prop where
  /-- The root is the only element at the top level of a document that asks for it. -/
  root (d : NodeId) : s.hasSingleRoot d →
    (s.children d).filter s.isElement = (s.rootElement? d).toList
  /-- What a document asks for is settled when it is made. -/
  made (data : DocumentData) (visible : Bool) (line : Int) :
    (Change.perform s (.tree (.create (.document data) visible line))).hasSingleRoot s.nodes.size =
      data.singleRoot
  /-- No calls change it. -/
  asks (changes : List Change) (d : NodeId) : s.Has d →
    (changes.foldl Change.perform s).hasSingleRoot d = s.hasSingleRoot d
  /-- A copy asks for the same. -/
  copy (n : NodeId) : s.Has n → (s.clone n).2.hasSingleRoot (s.clone n).1 = s.hasSingleRoot n
  /-- What is accepted leads where it would lead without checks. -/
  accepted (op : Operation) (d : NodeId) (s' : Store) : d ∈ op.target? → op.call s = .ok s' →
    s' = op.forced s
  /-- What is refused for a second root would lead to one. -/
  refused (op : Operation) (err : TreeError) : op.Callable s → op.call s = .error err →
    err.IsDuplicateRoot → ∃ d ∈ op.target?, s.hasSingleRoot d ∧ (op.forced s).HasTwoRoots d
  /-- The root can be moved within its document. -/
  moves (op : Operation) (d root : NodeId) : s.hasSingleRoot d → s.rootElement? d = some root →
    op.Inserts s d root → ∃ s', op.call s = .ok s' ∧ s'.rootElement? d = some root
  /-- Any element can take the place of the root. -/
  replaced (op : Operation) (d root e : NodeId) : s.hasSingleRoot d → s.rootElement? d = some root →
    s.isElement e → op.Replaces s d e root → ∃ s', op.call s = .ok s' ∧ s'.rootElement? d = some e
  /-- The root can take the place of any child. -/
  replaces (op : Operation) (d root r : NodeId) : s.hasSingleRoot d → s.rootElement? d = some root →
    s.parent? r = some d → op.Replaces s d root r →
      ∃ s', op.call s = .ok s' ∧ s'.rootElement? d = some root

/-! ### Kinds and what documents ask for -/

theorem hasSingleRoot_eq :
    s.hasSingleRoot d = ((s.payload? d).map Payload.asksOneRoot).getD false := by
  rw [hasSingleRoot, document?]
  cases s.payload? d with
  | none => rfl
  | some p => cases p <;> rfl

theorem isElement_iff_kind? : s.isElement n ↔ s.kind? n = some .element := by
  refine ⟨kind?_of_isElement, fun h => ?_⟩
  obtain ⟨payload, hpay, hkind⟩ := Option.map_eq_some_iff.mp h
  cases payload with
  | element d =>
    rw [isElement, element?, hpay]
    rfl
  | _ => cases hkind

/-- What asks for a single root is a document. -/
theorem hasSingleRoot_iff :
    s.hasSingleRoot d ↔ ∃ data, s.payload? d = some (.document data) ∧ data.singleRoot := by
  rw [hasSingleRoot_eq]
  cases s.payload? d with
  | none => simp
  | some p => cases p <;> simp [Payload.asksOneRoot]

theorem kind?_of_hasSingleRoot (h : s.hasSingleRoot d) : s.kind? d = some .document := by
  obtain ⟨data, hdata, -⟩ := hasSingleRoot_iff.mp h
  rw [kind?, hdata]
  rfl

theorem hasSingleRoot_congr
    (h : (s'.payload? n).map Payload.role = (s.payload? m).map Payload.role) :
    s'.hasSingleRoot n = s.hasSingleRoot m := by
  have hasks := congrArg (Option.map Prod.snd) h
  rw [Option.map_map, Option.map_map] at hasks
  rw [hasSingleRoot_eq, hasSingleRoot_eq]
  exact congrArg (Option.getD · false) hasks

theorem isElement_iff_of_role
    (h : (s'.payload? n).map Payload.role = (s.payload? m).map Payload.role) :
    s'.isElement n ↔ s.isElement m := by
  have hkind := congrArg (Option.map Prod.fst) h
  rw [Option.map_map, Option.map_map] at hkind
  rw [isElement_iff_kind?, isElement_iff_kind?, kind?, kind?]
  exact Eq.congr_left hkind

/-- The role of a node is part of what it says. -/
theorem role_of_loose (h : s'.loose n = s.loose m) :
    (s'.payload? n).map Payload.role = (s.payload? m).map Payload.role := by
  have hrole (t : Store) (k : NodeId) :
      (t.payload? k).map Payload.role = (t.loose k).map fun node => node.payload.role := by
    rw [payload?, loose, Option.map_map, Option.map_map]
    congr 1
    funext node
    exact node.payload.role_loose.symm
  rw [hrole, h, ← hrole]

namespace SameRoles

@[refl] protected theorem refl (s : Store) : SameRoles s s := fun _ _ => rfl

theorem has (h : SameRoles s s') (hn : s.Has n) : s'.Has n := by
  have hsome := congrArg Option.isSome (h n hn)
  rw [Option.isSome_map, Option.isSome_map] at hsome
  rwa [has_iff_payload?, hsome, ← has_iff_payload?]

protected theorem trans (h : SameRoles s s') (h' : SameRoles s' s'') : SameRoles s s'' :=
  fun n hn => (h' n (h.has hn)).trans (h n hn)

theorem isElement (h : SameRoles s s') (hn : s.Has n) : s'.isElement n ↔ s.isElement n :=
  isElement_iff_of_role (h n hn)

theorem hasSingleRoot (h : SameRoles s s') (hn : s.Has n) :
    s'.hasSingleRoot n = s.hasSingleRoot n :=
  hasSingleRoot_congr (h n hn)

theorem of_payload? (h : ∀ n, s.Has n → s'.payload? n = s.payload? n) : SameRoles s s' :=
  fun n hn => by rw [h n hn]

theorem of_map {g : Payload → Payload} (hg : ∀ p, (g p).role = p.role)
    (h : ∀ m, s'.payload? m = if m = n then (s.payload? n).map g else s.payload? m) :
    SameRoles s s' := by
  intro m _
  rw [h]
  split
  · rename_i hm
    rw [hm, Option.map_map]
    exact congrArg (Option.map · _) (funext hg)
  · rfl

theorem foldl {f : Store → NodeId → Store} (hf : ∀ s n, SameRoles s (f s n)) (l : List NodeId) :
    SameRoles s (l.foldl f s) := by
  induction l generalizing s with
  | nil => rfl
  | cons n l ih => exact (hf s n).trans ih

theorem add : SameRoles s (s.add node).2 :=
  .of_payload? fun _ hn => payload?_congr (get?_add_of_has hn)

theorem addBelow : SameRoles s ((s.add node).2.attachLast p (s.add node).1) :=
  SameRoles.add.trans (.of_payload? fun _ _ => payload?_attachLast)

theorem modifyElement {f : ElementData → ElementData} : SameRoles s (s.modifyElement n f) :=
  of_map (fun p => by cases p <;> rfl) fun _ => payload?_modifyElement

theorem modifyAttr {f : AttributeData → AttributeData} : SameRoles s (s.modifyAttr n f) :=
  of_map (fun p => by cases p <;> rfl) fun _ => payload?_modifyAttr

theorem addAttribute {a : Option NodeId} (hok : s.addAttribute e a = .ok s') : SameRoles s s' := by
  unfold Store.addAttribute at hok
  split at hok
  · cases hok
  · split at hok
    · cases hok
    · obtain rfl := Except.ok.inj hok
      exact modifyElement.trans modifyAttr

theorem discardAttributes : SameRoles s (s.discardAttributes n) :=
  (foldl (fun _ _ => modifyAttr.trans modifyAttr) _).trans modifyElement

theorem clearNode : SameRoles s (s.clearNode n) := by
  have hlinks : SameRoles s (s.relink n fun l => l.alone.childless) :=
    .of_payload? fun _ _ => payload?_relink
  refine (hlinks.trans discardAttributes).trans
    (of_map (fun p => ?_) fun _ => payload?_modifyDocument)
  cases p <;> rfl

theorem dispose : SameRoles s (s.dispose n) := by
  have hdetach : SameRoles s (s.detach n) := .of_payload? fun _ _ => payload?_detach
  exact hdetach.trans (foldl (fun _ _ => clearNode) _)

theorem newText {data : Text} : SameRoles s (s.newText data).2 := by
  unfold Store.newText
  dsimp only
  split
  · exact add
  · exact add.trans addBelow

theorem setPayload {q q' : Payload} (hq : s.payload? n = some q) (hrole : q'.role = q.role) :
    SameRoles s (s.setPayload n q') := by
  intro m _
  rw [payload?_setPayload_eq]
  split
  · rename_i hm
    rw [hm, hq]
    exact congrArg some hrole
  · rfl

theorem appendData {data : Text} : SameRoles s (s.appendData n data) := by
  rw [Store.appendData]
  split
  · rename_i c old hlast hold
    rw [hlast, Option.bind_some] at hold
    exact setPayload hold rfl
  · exact addBelow

theorem clone (h : s.WellFormed) (hl : s.Labelled) (hn : s.Has n) : SameRoles s (s.clone n).2 := by
  obtain ⟨source, hcopy, -⟩ := h.clone_copying hl.listed (fun m _ => hl.distinct m) hn
  exact .of_payload? fun m hm => payload?_congr (hcopy.kept m hm)

theorem call (h : s.WellFormed) (hl : s.Labelled) (hop : op.Callable s)
    (hok : op.call s = .ok s') : SameRoles s s' := by
  have hrelinks : op.Relinks → SameRoles s s' := fun hlinks =>
    .of_payload? fun _ _ => payload?_call hlinks hok
  cases op with
  | create payload visible line =>
    obtain rfl := Except.ok.inj hok
    exact add
  | createText data =>
    obtain rfl := Except.ok.inj hok
    exact newText
  | appendData t data =>
    obtain rfl := Except.ok.inj hok
    exact appendData
  | clone n =>
    obtain rfl := Except.ok.inj hok
    cases n with
    | none => rfl
    | some n => exact clone h hl (hop n rfl)
  | dispose n =>
    obtain rfl := Except.ok.inj hok
    cases n with
    | none => rfl
    | some n => exact dispose
  | _ => exact hrelinks trivial

/-- **Roles.** No call changes the role of a node. -/
theorem change {change : Change} (h : s.WellFormed) (hl : s.Labelled) (hc : change.Callable s)
    (hok : change.call s = .ok s') : SameRoles s s' := by
  cases change with
  | tree op => exact call h hl hc.1 hok
  | addAttribute e attr => exact addAttribute hok
  | setAttribute e qualifier name value =>
    obtain ⟨node, -, hok⟩ := setAttribute_ok hok
    exact (add.trans modifyAttr).trans (addAttribute hok)
  | removeAttribute e name =>
    obtain ⟨a, -, hok⟩ := exists_of_bind_ok hok
    obtain rfl := Except.ok.inj hok
    exact modifyElement.trans modifyAttr
  | removeAttributes e =>
    obtain rfl := Except.ok.inj hok
    exact (foldl (fun _ _ => modifyAttr) _).trans modifyElement

end SameRoles

/-! ### One element at the top level -/

/-- The root is the first element at the top level, and the only one. -/
theorem SingleRooted.filter_eq (h : s.SingleRooted) (hw : s.WellFormed) (hd : s.hasSingleRoot d) :
    (s.children d).filter s.isElement = (s.rootElement? d).toList := by
  have hmem (x : NodeId) (hx : x ∈ (s.children d).filter s.isElement) :
      x ∈ s.children d ∧ s.isElement x := List.mem_filter.mp hx
  have hnodup := (hw.linked.nodup d).filter fun n => s.isElement n
  rw [rootElement?, ← List.head?_filter]
  rcases hl : (s.children d).filter s.isElement with _ | ⟨x, _ | ⟨y, l⟩⟩
  · rfl
  · rfl
  · rw [hl] at hmem hnodup
    obtain ⟨hx, hex⟩ := hmem x (by simp)
    obtain ⟨hy, hey⟩ := hmem y (by simp)
    have hxy : x ≠ y := fun e => (List.nodup_cons.mp hnodup).1 (by simp [e])
    exact absurd ⟨x, y, hxy, hx, hy, hex, hey⟩ (h d hd)

/-- There are two elements at the top level if more than one is counted. -/
theorem WellFormed.one_lt_countP (hw : s.WellFormed) :
    1 < (s.children d).countP s.isElement ↔ s.HasTwoRoots d := by
  rw [List.countP_eq_length_filter,
    ← List.toFinset_card_of_nodup ((hw.linked.nodup d).filter s.isElement), Finset.one_lt_card_iff]
  simp only [List.mem_toFinset, List.mem_filter]
  constructor
  · rintro ⟨x, y, ⟨hx, hex⟩, ⟨hy, hey⟩, hxy⟩
    exact ⟨x, y, hxy, hx, hy, hex, hey⟩
  · rintro ⟨x, y, hxy, hx, hy, hex, hey⟩
    exact ⟨x, y, ⟨hx, hex⟩, ⟨hy, hey⟩, hxy⟩

theorem mem_of_rootElement? (h : s.rootElement? d = some root) :
    root ∈ s.children d ∧ s.isElement root :=
  ⟨List.mem_of_find?_eq_some h, List.find?_some h⟩

/-- Any element at the top level is the root. -/
theorem SingleRooted.rootElement?_eq (h : s.SingleRooted) (hd : s.hasSingleRoot d)
    (hx : x ∈ s.children d) (he : s.isElement x) : s.rootElement? d = some x := by
  cases hroot : s.rootElement? d with
  | none => exact absurd he (by simpa using List.find?_eq_none.mp hroot x hx)
  | some root =>
    obtain ⟨hmem, helement⟩ := mem_of_rootElement? hroot
    by_contra hne
    exact h d hd ⟨root, x, fun e => hne (congrArg some e), hmem, hx, helement, he⟩

/-- Where no element comes, no second one does. -/
theorem SingleRooted.not_hasTwoRoots (h : s.SingleRooted) (hw : s.WellFormed) (hs : SameRoles s s')
    (hsub : ∀ x ∈ s'.children d, s'.isElement x → x ∈ s.children d) (hd : s'.hasSingleRoot d) :
    ¬ s'.HasTwoRoots d := by
  rintro ⟨x, y, hxy, hx, hy, hex, hey⟩
  have hx := hsub x hx hex
  have hy := hsub y hy hey
  have hparent := hw.mem_children.mp hx
  rw [hs.hasSingleRoot (hw.has_parent hparent)] at hd
  rw [hs.isElement (has_of_parent? hparent)] at hex
  rw [hs.isElement (has_of_parent? (hw.mem_children.mp hy))] at hey
  exact h d hd ⟨x, y, hxy, hx, hy, hex, hey⟩

theorem SingleRooted.growth (h : s.SingleRooted) (hw : s.WellFormed) (hs : SameRoles s s')
    (hg : Growth s s') : s'.SingleRooted := by
  refine fun d => h.not_hasTwoRoots hw hs fun x hx _ => ?_
  rwa [(hw.linked.congr hg.links).children_eq] at hx

/-- What is added below a node is no element. -/
theorem SingleRooted.addBelow (h : s.SingleRooted) (hw : s.WellFormed) (hl : node.links = {})
    (hp : s.Has p) (hk : node.payload.nodeKind ≠ .element) :
    ((s.add node).2.attachLast p (s.add node).1).SingleRooted := by
  have hg : Growth s (s.add node).2 := .add hl
  have hlinked := ((hw.growth hg).linked.attachLast (has_add_iff.mpr (.inr rfl)) (hg.has hp)
    (hw.fresh hg not_has_add).1)
  refine fun d => h.not_hasTwoRoots hw .addBelow fun x hx he => ?_
  have hkind : x ≠ (s.add node).1 := by
    rintro rfl
    rw [isElement_iff_kind?, kind?, payload?_attachLast, ← kind?, kind?_add_self] at he
    exact hk (Option.some.inj he)
  have hold : (s.add node).2.children = s.children := (hw.linked.congr hg.links).children_eq
  rw [hlinked.children_eq, hold, Function.update_apply] at hx
  split at hx
  · rename_i hd
    rw [hd]
    simpa [hkind] using hx
  · exact hx

theorem SingleRooted.newText {data : Text} (h : s.SingleRooted) (hw : s.WellFormed) :
    (s.newText data).2.SingleRooted := by
  have hg : Growth s (s.add { payload := .text }).2 := .add rfl
  have ht := h.growth hw .add hg
  unfold Store.newText
  dsimp only
  split
  · exact ht
  · exact ht.addBelow (hw.growth hg) rfl (has_add_iff.mpr (.inr rfl)) (by simp [Payload.nodeKind])

theorem SingleRooted.appendData {data : Text} (h : s.SingleRooted) (hw : s.WellFormed)
    (ht : s.payload? n = some .text) : (s.appendData n data).SingleRooted := by
  rw [Store.appendData]
  split
  · rename_i c old hlast hold
    rw [hlast, Option.bind_some] at hold
    refine h.growth hw (.setPayload hold rfl) (.setPayload ?_)
    rw [tag?, hold]
    rfl
  · exact h.addBelow hw rfl (has_of_payload? ht) (by simp [Payload.nodeKind])

/-- Placing a node: if it is an element and the document asks, no other one is left. -/
theorem SingleRooted.put (h : s.SingleRooted) (hw : s.WellFormed) (hs : SameRoles s s')
    (hput : s.Put s' p c l) (hfit : s.Fits p c) (hl : ∀ x ∈ l, x = c ∨ x ∈ s.children p)
    (hroot : s.hasSingleRoot p → s.isElement c → ∀ x ∈ l, s.isElement x → x = c) :
    s'.SingleRooted := by
  intro d
  by_cases hdp : d = p
  · subst hdp
    have hhas (z : NodeId) (hz : z ∈ l) : s.Has z :=
      (hl z hz).elim (fun e => e ▸ hfit.has_child) fun hz => has_of_parent? (hw.mem_children.mp hz)
    by_cases hec : s.isElement c
    · rintro hd ⟨x, y, hxy, hx, hy, hex, hey⟩
      rw [hput.target] at hx hy
      rw [hs.hasSingleRoot hfit.has_parent] at hd
      rw [hs.isElement (hhas x hx)] at hex
      rw [hs.isElement (hhas y hy)] at hey
      exact hxy ((hroot hd hec x hx hex).trans (hroot hd hec y hy hey).symm)
    · refine h.not_hasTwoRoots hw hs fun x hx he => ?_
      rw [hput.target] at hx
      rw [hs.isElement (hhas x hx)] at he
      exact (hl x hx).resolve_left fun e => hec (e ▸ he)
  · refine h.not_hasTwoRoots hw hs fun x hx _ => ?_
    by_cases hparent : s.parent? c = some d
    · rw [hput.former d hdp hparent] at hx
      exact List.mem_of_mem_erase hx
    · rwa [hput.others d hdp hparent] at hx

/-- Different children of a copy are copies of different children. -/
theorem HasTwoRoots.of_copy {source : NodeId → Option NodeId} (hcopy : Copying s n source [] s')
    (hw : s.WellFormed) (hy : source m = some d) (h : s'.HasTwoRoots m) : s.HasTwoRoots d := by
  have hmap : (s'.children m).map source = (s.children d).map some := by
    simpa using hcopy.children m d hy
  have hnodup : ((s'.children m).map source).Nodup := by
    rw [hmap]
    exact (hw.linked.nodup d).map (Option.some_injective _)
  have hsource (c : NodeId) (hc : c ∈ s'.children m) (he : s'.isElement c) :
      ∃ c₀ ∈ s.children d, source c = some c₀ ∧ s.isElement c₀ := by
    obtain ⟨c₀, hc₀, hsome⟩ : ∃ c₀ ∈ s.children d, some c₀ = source c := by
      simpa [hmap] using List.mem_map_of_mem (f := source) hc
    have hrole := role_of_loose (hcopy.loose c c₀ hsome.symm)
    exact ⟨c₀, hc₀, hsome.symm, (isElement_iff_of_role hrole).mp he⟩
  obtain ⟨x, y, hxy, hx, hy, hex, hey⟩ := h
  obtain ⟨x₀, hx₀, hsx, hex₀⟩ := hsource x hx hex
  obtain ⟨y₀, hy₀, hsy, hey₀⟩ := hsource y hy hey
  refine ⟨x₀, y₀, fun e => hxy ?_, hx₀, hy₀, hex₀, hey₀⟩
  exact List.inj_on_of_nodup_map hnodup hx hy (by rw [hsx, hsy, e])

/-- **Copies.** Copying adds copies of documents that have one root, and nothing below others. -/
theorem SingleRooted.clone (h : s.SingleRooted) (hw : s.WellFormed) (hl : s.Labelled)
    (hn : s.Has n) : (s.clone n).2.SingleRooted := by
  obtain ⟨source, hcopy, -⟩ := hw.clone_copying hl.listed (fun m _ => hl.distinct m) hn
  intro d hd
  have hkind := kind?_of_hasSingleRoot hd
  rcases hcopy.others d (has_of_kind? hkind) with hold | ⟨z, hz⟩ | ⟨k, z, hz, hdk⟩
  · refine h.not_hasTwoRoots hw (.clone hw hl hn) (fun x hx _ => ?_) hd
    rwa [hcopy.children_kept hw hold] at hx
  · refine fun htwo => h z ?_ (htwo.of_copy hcopy hw hz)
    rwa [← hasSingleRoot_congr (role_of_loose (hcopy.loose d z hz))]
  · -- an attribute of a copy is no document
    rw [hl.clone.listed k d hdk] at hkind
    cases hkind

/-! ### What the check asks -/

/-- What passes the check is no element, or the only one that is left. -/
theorem SingleRooted.eq_of_checkContainer (h : s.SingleRooted) (hp : s.hasSingleRoot p)
    (hc : s.isElement c) (hok : s.checkContainer p c replaced = .ok ()) (hx : x ∈ s.children p)
    (he : s.isElement x) : x = c ∨ some x = replaced := by
  obtain ⟨data, hdata, hsingle⟩ := hasSingleRoot_iff.mp hp
  rw [checkContainer, hdata, h.rootElement?_eq hp hx he] at hok
  by_contra hne
  rw [not_or] at hne
  simp [hsingle, hc, hne] at hok

/-- What is refused for a second root is an element, and another one is the root. -/
theorem secondRoot_of_checkContainer (hc : s.checkContainer p c replaced = .error err)
    (herr : err.IsDuplicateRoot) : s.hasSingleRoot p ∧ s.isElement c ∧
      ∃ root, s.rootElement? p = some root ∧ root ≠ c ∧ some root ≠ replaced := by
  rw [checkContainer] at hc
  split at hc
  · rename_i data hdata
    split at hc
    · rename_i root hroot
      split_ifs at hc with hcond
      simp only [Bool.and_eq_true, bne_iff_ne] at hcond
      obtain ⟨⟨⟨hsingle, helement⟩, hne⟩, hreplaced⟩ := hcond
      exact ⟨hasSingleRoot_iff.mpr ⟨data, hdata, hsingle⟩, helement, root, hroot, hne, hreplaced⟩
    · cases hc
  · split at hc
    · cases hc
    · cases hc
    · obtain rfl := Except.error.inj hc
      cases herr
  · cases hc

theorem secondRoot_of_checkChild (hc : s.checkChild p child replaced = .error err)
    (herr : err.IsDuplicateRoot) : ∃ c ∈ child, s.hasSingleRoot p ∧ s.isElement c ∧
      ∃ root, s.rootElement? p = some root ∧ root ≠ c ∧ some root ≠ replaced := by
  unfold checkChild at hc
  split at hc
  · obtain rfl := Except.error.inj hc
    cases herr
  · rename_i c
    split at hc
    · obtain rfl := Except.error.inj hc
      cases herr
    · obtain rfl := Except.error.inj hc
      cases herr
    · split_ifs at hc
      · obtain rfl := Except.error.inj hc
        cases herr
      · split at hc
        · rename_i hcont
          obtain rfl := Except.error.inj hc
          exact ⟨c, rfl, secondRoot_of_checkContainer hcont herr⟩
        · cases hc

/-! ### No call leads to a second element -/

theorem SingleRooted.place (h : s.SingleRooted) (hw : s.WellFormed) (hs : SameRoles s s')
    (hp : s.isContainer p) (hc : ∀ c ∈ child, s.Has c)
    (hcheck : s.checkChild p child replaced = .ok c) (hput : s.Put s' p c l)
    (hl : ∀ x ∈ l, x = c ∨ x ∈ s.children p ∧ some x ≠ replaced) : s'.SingleRooted := by
  obtain ⟨-, hfit, -⟩ := hw.checkChild_ok hp hc hcheck
  obtain ⟨-, -, -, -, hcont⟩ := WellFormed.checkChild_cases hcheck
  refine h.put hw hs hput hfit (fun x hx => (hl x hx).imp_right And.left) fun hroot he x hx hex =>
    ?_
  refine (hl x hx).elim id fun hmem => ?_
  exact (h.eq_of_checkContainer hroot he hcont hmem.1 hex).resolve_right hmem.2

theorem SingleRooted.appendChild (h : s.SingleRooted) (hw : s.WellFormed) (hp : s.isContainer p)
    (hc : ∀ c ∈ child, s.Has c) (hok : s.appendChild p child = .ok s') : s'.SingleRooted := by
  have hs : SameRoles s s' := .of_payload? fun _ _ => payload?_appendChild hok
  obtain ⟨c, hcheck, rfl⟩ := appendChild_ok hok
  obtain ⟨-, hfit, hup⟩ := hw.checkChild_ok hp hc hcheck
  refine h.place hw hs hp hc hcheck (hw.put_attachLast hfit hup) fun x hx => ?_
  rcases List.mem_append.mp hx with hx | hx
  · exact .inr ⟨List.mem_of_mem_erase hx, nofun⟩
  · exact .inl (List.mem_singleton.mp hx)

theorem SingleRooted.insertBefore (h : s.SingleRooted) (hw : s.WellFormed) (hp : s.isContainer p)
    (hc : ∀ c ∈ child, s.Has c) (hok : s.insertBefore p child ref = .ok s') : s'.SingleRooted := by
  cases ref with
  | none => exact h.appendChild hw hp hc hok
  | some r =>
    have hs : SameRoles s s' := .of_payload? fun _ _ => payload?_insertBefore hok
    obtain ⟨hr, ⟨-, rfl⟩ | ⟨c, hcr, hcheck, rfl⟩⟩ := insertBefore_ok hok
    · exact h
    · obtain ⟨-, hfit, hup⟩ := hw.checkChild_ok hp hc hcheck
      obtain ⟨l₁, l₂, hsplit, hput⟩ := hw.put_attachBefore hfit hup hr hcr
      refine h.place hw hs hp hc hcheck hput fun x hx => ?_
      by_cases hxc : x = c
      · exact .inl hxc
      · refine .inr ⟨List.mem_of_mem_erase (a := x) (b := c) ?_, nofun⟩
        rw [hsplit]
        simpa [hxc] using hx

theorem SingleRooted.replaceChild (h : s.SingleRooted) (hw : s.WellFormed) (hp : s.isContainer p)
    (hc : ∀ c ∈ child, s.Has c) (hok : s.replaceChild p child ref = .ok s') : s'.SingleRooted := by
  have hs : SameRoles s s' := .of_payload? fun _ _ => payload?_replaceChild hok
  obtain ⟨c, -, r, hrr, hr, ⟨-, rfl⟩ | ⟨hcr, hcheck, rfl⟩⟩ := replaceChild_ok hok
  · exact h
  · obtain rfl := Option.mem_def.mp hrr
    obtain ⟨-, hfit, hup⟩ := hw.checkChild_ok hp hc hcheck
    obtain ⟨l₁, l₂, hsplit, hput⟩ := hw.put_attachInstead hfit hup hr hcr
    have hnodup : (l₁ ++ r :: l₂).Nodup := hsplit ▸ (hw.linked.nodup p).erase c
    have hout : r ∉ l₁ ++ l₂ := (List.nodup_cons.mp (List.nodup_middle.mp hnodup)).1
    refine h.place hw hs hp hc hcheck hput fun x hx => ?_
    by_cases hxc : x = c
    · exact .inl hxc
    · have hx : x ∈ l₁ ++ l₂ := by simpa [hxc] using hx
      refine .inr ⟨List.mem_of_mem_erase (a := x) (b := c) ?_, fun e => hout ?_⟩
      · rw [hsplit]
        exact List.mem_append.mpr ((List.mem_append.mp hx).imp_right (List.mem_cons_of_mem r))
      · rwa [← Option.some.inj e]

/-- Where children only leave. -/
theorem SingleRooted.of_subset (h : s.SingleRooted) (hw : s.WellFormed) (hs : SameRoles s s')
    (hsub : ∀ d, s'.children d ⊆ s.children d) : s'.SingleRooted := fun d =>
  h.not_hasTwoRoots hw hs fun _ hx _ => hsub d hx

theorem SingleRooted.detach (h : s.SingleRooted) (hw : s.WellFormed) :
    (s.detach n).SingleRooted := by
  refine h.of_subset hw (.of_payload? fun _ _ => payload?_detach) fun d x hx => ?_
  rw [hw.children_detach_eq_erase] at hx
  exact List.mem_of_mem_erase hx

theorem SingleRooted.removeChild (h : s.SingleRooted) (hw : s.WellFormed)
    (hok : s.removeChild p child = .ok s') : s'.SingleRooted := by
  unfold Store.removeChild at hok
  split at hok
  · cases hok
  · split_ifs at hok
    obtain rfl := Except.ok.inj hok
    exact h.detach hw

theorem SingleRooted.removeChildren (h : s.SingleRooted) (hw : s.WellFormed)
    (hp : s.isContainer p) :
    (s.removeChildren p).2.SingleRooted := by
  obtain ⟨hempty, -, hothers⟩ := hw.lists_removeChildren hp
  refine h.of_subset hw (.of_payload? fun _ _ => payload?_removeChildren) fun d => ?_
  by_cases hd : d = p
  · rw [hd, hempty]
    exact List.nil_subset _
  · rw [hothers d hd]
    exact List.Subset.refl _

theorem SingleRooted.dispose (h : s.SingleRooted) (hw : s.WellFormed) (hn : s.Has n) :
    (s.dispose n).SingleRooted := by
  refine h.of_subset hw .dispose fun d x hx => ?_
  exact hw.mem_children.mpr (hw.parent?_of_dispose hn ((hw.dispose hn).mem_children.mp hx))

theorem SingleRooted.moveChildren (h : s.SingleRooted) (hw : s.WellFormed) (hp : s.isContainer p)
    (hd : ∀ d ∈ dst, s.isContainer d) (hok : s.moveChildren p dst = .ok s') : s'.SingleRooted := by
  have hs : SameRoles s s' := .of_payload? fun _ _ => payload?_moveChildren hok
  obtain ⟨d, hdst, hempty, ⟨-, rfl⟩ | ⟨hpd, hcount, rfl⟩⟩ := moveChildren_ok hok
  · exact h
  have hhas := has_of_isContainer (hd d hdst)
  have hchildren := hw.children_moveAll hp hhas hpd (hw.children_eq_nil hempty)
  intro q
  by_cases hq : q = d
  · subst hq
    rintro hroot ⟨x, y, hxy, hx, hy, hex, hey⟩
    rw [hchildren, Function.update_self] at hx hy
    rw [hs.hasSingleRoot hhas] at hroot
    rw [hs.isElement (has_of_parent? (hw.mem_children.mp hx))] at hex
    rw [hs.isElement (has_of_parent? (hw.mem_children.mp hy))] at hey
    exact Nat.not_lt.mpr (hcount hroot) (hw.one_lt_countP.mpr ⟨x, y, hxy, hx, hy, hex, hey⟩)
  · refine h.not_hasTwoRoots hw hs fun x hx _ => ?_
    rw [hchildren, Function.update_of_ne hq] at hx
    by_cases hqp : q = p
    · simp [hqp] at hx
    · rwa [Function.update_of_ne hqp] at hx

protected theorem SingleRooted.call (h : s.SingleRooted) (hw : s.WellFormed) (hl : s.Labelled)
    (hop : op.Callable s) (hok : op.call s = .ok s') : s'.SingleRooted := by
  cases op with
  | create payload visible line =>
    obtain rfl := Except.ok.inj hok
    exact h.growth hw .add (.add rfl)
  | createText data =>
    obtain rfl := Except.ok.inj hok
    exact h.newText hw
  | appendChild p child => exact h.appendChild hw hop.1 hop.2 hok
  | insertBefore p child ref => exact h.insertBefore hw hop.1 hop.2.1 hok
  | insertAt p child index =>
    obtain ⟨r, -, hok⟩ := exists_of_bind_ok hok
    exact h.insertBefore hw hop.1 hop.2 hok
  | removeChild p child => exact h.removeChild hw hok
  | removeAt p index =>
    obtain ⟨c, -, hok⟩ := exists_of_bind_ok hok
    exact h.removeChild hw hok
  | removeChildren p =>
    obtain rfl := Except.ok.inj hok
    exact h.removeChildren hw hop
  | replaceChild p child ref => exact h.replaceChild hw hop.1 hop.2.1 hok
  | replaceAt p child index =>
    obtain ⟨r, -, hok⟩ := exists_of_bind_ok hok
    exact h.replaceChild hw hop.1 hop.2 hok
  | moveChildren p dst => exact h.moveChildren hw hop.1 hop.2 hok
  | appendData t data =>
    obtain rfl := Except.ok.inj hok
    exact h.appendData hw hop
  | unmount n =>
    cases n with
    | none => cases hok
    | some n =>
      obtain rfl := Except.ok.inj hok
      exact h.detach hw
  | clone n =>
    obtain rfl := Except.ok.inj hok
    cases n with
    | none => exact h
    | some n => exact h.clone hw hl (hop n rfl)
  | dispose n =>
    obtain rfl := Except.ok.inj hok
    cases n with
    | none => exact h
    | some n => exact h.dispose hw (hop n rfl)

/-- **One root.** No call leads to a second element at the top level. -/
protected theorem SingleRooted.change {change : Change} (h : s.SingleRooted) (hw : s.WellFormed)
    (hl : s.Labelled) (hc : change.Callable s) (hok : change.call s = .ok s') :
    s'.SingleRooted := by
  cases change with
  | tree op => exact h.call hw hl hc.1 hok
  | _ => exact h.growth hw (.change hw hl hc hok) (.change (fun _ e => by cases e) hok)

/-! ### What is accepted -/

theorem insertBefore_eq (hok : s.insertBefore p child ref = .ok s') :
    ∃ c ∈ child, s' = s.putBefore p c ref := by
  cases ref with
  | none =>
    obtain ⟨c, hcheck, rfl⟩ := appendChild_ok hok
    obtain ⟨rfl, -⟩ := WellFormed.checkChild_cases hcheck
    exact ⟨c, rfl, rfl⟩
  | some r =>
    obtain ⟨-, ⟨rfl, rfl⟩ | ⟨c, hcr, hcheck, rfl⟩⟩ := insertBefore_ok hok
    · exact ⟨r, rfl, (if_pos rfl).symm⟩
    · obtain ⟨rfl, -⟩ := WellFormed.checkChild_cases hcheck
      exact ⟨c, rfl, (if_neg hcr).symm⟩

theorem replaceChild_eq (hok : s.replaceChild p child ref = .ok s') :
    ∃ c ∈ child, ∃ r ∈ ref, s' = s.putInstead p c r := by
  obtain ⟨c, hc, r, hr, -, ⟨rfl, rfl⟩ | ⟨hcr, -, rfl⟩⟩ := replaceChild_ok hok
  · exact ⟨c, hc, c, hr, (if_pos rfl).symm⟩
  · exact ⟨c, hc, r, hr, (if_neg hcr).symm⟩

/-- **Accepted calls.** The checks do not influence what an accepted call leads to. -/
theorem eq_forced (hd : d ∈ op.target?) (hok : op.call s = .ok s') : s' = op.forced s := by
  cases op with
  | appendChild p child =>
    have hok : s.insertBefore p child none = .ok s' := hok
    obtain ⟨c, rfl, rfl⟩ := insertBefore_eq hok
    rfl
  | insertBefore p child ref =>
    obtain ⟨c, rfl, rfl⟩ := insertBefore_eq hok
    rfl
  | insertAt p child index =>
    obtain ⟨r, hr, hok⟩ := exists_of_bind_ok hok
    obtain ⟨c, rfl, rfl⟩ := insertBefore_eq hok
    rw [Operation.forced, hr]
    rfl
  | replaceChild p child ref =>
    obtain ⟨c, rfl, r, rfl, rfl⟩ := replaceChild_eq hok
    rfl
  | replaceAt p child index =>
    obtain ⟨r, hr, hok⟩ := exists_of_bind_ok hok
    obtain ⟨c, rfl, r', hr', rfl⟩ := replaceChild_eq hok
    obtain rfl := Option.some.inj hr'
    rw [Operation.forced, hr]
    rfl
  | moveChildren p dst =>
    obtain ⟨d, rfl, -, ⟨rfl, rfl⟩ | ⟨hpd, -, rfl⟩⟩ := moveChildren_ok hok
    · exact (if_pos rfl).symm
    · exact (if_neg hpd).symm
  | _ => cases hd

/-! ### What is refused -/

/-- A document can hold any element. -/
theorem fits_root (hp : s.hasSingleRoot p) (hc : s.isElement c) : s.Fits p c :=
  ⟨_, _, kind?_of_hasSingleRoot hp, kind?_of_isElement hc, rfl⟩

/-- Nothing is above a document. -/
theorem WellFormed.not_above_root (h : s.WellFormed) (hp : s.hasSingleRoot p) (hc : s.isElement c) :
    ¬ s.Above c p := by
  intro hup
  obtain ⟨data, hdata, -⟩ := hasSingleRoot_iff.mp hp
  rcases above_iff.mp hup with rfl | ⟨q, hq, -⟩
  · have hkind := kind?_of_isElement hc
    rw [kind?_of_hasSingleRoot hp] at hkind
    cases hkind
  · rw [h.consistent.document p data hdata] at hq
    cases hq

/-- An element is put where another one is the root, and that one stays. -/
theorem Put.hasTwoRoots (hput : s.Put s' p c l) (hpay : ∀ m, s'.payload? m = s.payload? m)
    (hc : s.isElement c) (hroot : s.rootElement? p = some root) (hne : root ≠ c) (hcl : c ∈ l)
    (hl : root ∈ (s.children p).erase c → root ∈ l) : s'.HasTwoRoots p := by
  obtain ⟨hmem, helement⟩ := mem_of_rootElement? hroot
  have hkind (m : NodeId) : s'.isElement m = s.isElement m := by
    rw [isElement, element?_congr (hpay m), isElement]
  refine ⟨root, c, hne, ?_, ?_, ?_, ?_⟩
  · rw [hput.target]
    exact hl ((List.mem_erase_of_ne hne).mpr hmem)
  · rwa [hput.target]
  · rwa [hkind]
  · rwa [hkind]

/-- An element that is refused as a second root could be attached. -/
theorem WellFormed.attachable_of_checkChild (h : s.WellFormed)
    (hcheck : s.checkChild p child replaced = .error err) (herr : err.IsDuplicateRoot) :
    ∃ c ∈ child, s.hasSingleRoot p ∧ s.isElement c ∧ s.Fits p c ∧ ¬ s.Above c p ∧
      ∃ root, s.rootElement? p = some root ∧ root ≠ c ∧ some root ≠ replaced := by
  obtain ⟨c, hc, hp, helement, hroot⟩ := secondRoot_of_checkChild hcheck herr
  exact ⟨c, hc, hp, helement, fits_root hp helement, h.not_above_root hp helement, hroot⟩

theorem WellFormed.hasTwoRoots_insertBefore (h : s.WellFormed)
    (hno : s.insertBefore p child ref = .error err) (herr : err.IsDuplicateRoot) :
    ∃ c ∈ child, s.hasSingleRoot p ∧ (s.putBefore p c ref).HasTwoRoots p := by
  cases ref with
  | none =>
    rcases error_of_bind_error hno with hcheck | ⟨c, -, hno⟩
    · obtain ⟨c, hc, hp, helement, hfit, hup, root, hroot, hne, -⟩ :=
        h.attachable_of_checkChild hcheck herr
      refine ⟨c, hc, hp, (h.put_attachLast hfit hup).hasTwoRoots (fun m => ?_) helement hroot hne
        (by simp) fun hmem => List.mem_append_left _ hmem⟩
      rw [payload?_attachLast, payload?_detach]
    · cases hno
  | some r =>
    rw [Store.insertBefore] at hno
    split_ifs at hno with hr hself
    · obtain rfl := Except.error.inj hno
      cases herr
    · rcases error_of_bind_error hno with hcheck | ⟨c, -, hno⟩
      · obtain ⟨c, rfl, hp, helement, hfit, hup, root, hroot, hne, -⟩ :=
          h.attachable_of_checkChild hcheck herr
        have hcr : c ≠ r := fun e => hself (congrArg some e)
        obtain ⟨l₁, l₂, hsplit, hput⟩ := h.put_attachBefore hfit hup (not_not.mp hr) hcr
        refine ⟨c, rfl, hp, ?_⟩
        rw [putBefore, if_neg hcr]
        refine hput.hasTwoRoots (fun m => ?_) helement hroot hne (by simp) fun hmem => ?_
        · rw [payload?_attachBefore, payload?_detach]
        · rw [hsplit] at hmem
          exact List.mem_append.mpr ((List.mem_append.mp hmem).imp_right (List.mem_cons_of_mem c))
      · cases hno

theorem WellFormed.hasTwoRoots_replaceChild (h : s.WellFormed)
    (hno : s.replaceChild p child ref = .error err) (herr : err.IsDuplicateRoot) :
    ∃ c ∈ child, ∃ r ∈ ref, s.hasSingleRoot p ∧ (s.putInstead p c r).HasTwoRoots p := by
  unfold Store.replaceChild at hno
  split at hno
  · rename_i c r
    split_ifs at hno with hr hcr
    · obtain rfl := Except.error.inj hno
      cases herr
    · rcases error_of_bind_error hno with hcheck | ⟨c', -, hno⟩
      · obtain ⟨c', hc', hp, helement, hfit, hup, root, hroot, hne, hrep⟩ :=
          h.attachable_of_checkChild hcheck herr
        obtain rfl := Option.some.inj hc'
        obtain ⟨l₁, l₂, hsplit, hput⟩ := h.put_attachInstead hfit hup (not_not.mp hr) hcr
        have hrr : root ≠ r := fun e => hrep (congrArg some e)
        refine ⟨c, rfl, r, rfl, hp, ?_⟩
        rw [putInstead, if_neg hcr]
        refine hput.hasTwoRoots (fun m => ?_) helement hroot hne (by simp) fun hmem => ?_
        · rw [payload?_attachInstead, payload?_detach]
        · rw [hsplit] at hmem
          simpa [hrr, hne] using hmem
      · cases hno
  · obtain rfl := Except.error.inj hno
    cases herr

/-- Moving children is refused for their number only: the destination has no root. -/
theorem severalRoots_of_moveChildren (h : s.WellFormed) (hno : s.moveChildren p dst = .error err)
    (herr : err.IsDuplicateRoot) : ∃ d ∈ dst, ¬ s.hasChildren d ∧ p ≠ d ∧ s.hasSingleRoot d ∧
      1 < (s.children p).countP s.isElement := by
  cases dst with
  | none =>
    obtain rfl := Except.error.inj hno
    cases herr
  | some d =>
    rw [Store.moveChildren] at hno
    split_ifs at hno with hempty hself hroots
    · obtain rfl := Except.error.inj hno
      cases herr
    · rw [Bool.and_eq_true, decide_eq_true_iff] at hroots
      exact ⟨d, rfl, hempty, hself, hroots⟩
    · rcases error_of_bind_error hno with hcheck | ⟨-, -, hno⟩
      · obtain ⟨c, -, hcheck⟩ := exists_of_forM_error hcheck
        have hcheck : s.checkChild d (some c) none = .error err := by
          cases hc : s.checkChild d (some c) none with
          | error err' => rw [hc] at hcheck; exact congrArg Except.error (Except.error.inj hcheck)
          | ok c' => rw [hc] at hcheck; cases hcheck
        obtain ⟨-, -, -, -, root, hroot, -⟩ := secondRoot_of_checkChild hcheck herr
        have hmem := (mem_of_rootElement? hroot).1
        rw [h.children_eq_nil hempty] at hmem
        cases hmem
      · cases hno

theorem WellFormed.hasTwoRoots_moveChildren (h : s.WellFormed) (hp : s.isContainer p)
    (hno : s.moveChildren p dst = .error err) (herr : err.IsDuplicateRoot) :
    ∃ d ∈ dst, s.hasSingleRoot d ∧ (s.putAll p d).HasTwoRoots d := by
  obtain ⟨d, hdst, hempty, hpd, hd, hcount⟩ := severalRoots_of_moveChildren h hno herr
  obtain ⟨x, y, hxy, hx, hy, hex, hey⟩ := h.one_lt_countP.mp hcount
  have hkind (m : NodeId) : (s.putAll p d).isElement m = s.isElement m := by
    rw [isElement, element?_congr, isElement]
    rw [putAll, if_neg hpd, payload?_attachAll, payload?_removeChildren]
  have hchildren : (s.putAll p d).children d = s.children p := by
    rw [putAll, if_neg hpd, h.children_moveAll hp (has_of_kind? (kind?_of_hasSingleRoot hd)) hpd
      (h.children_eq_nil hempty), Function.update_self]
  refine ⟨d, hdst, hd, x, y, hxy, ?_, ?_, ?_, ?_⟩
  · rwa [hchildren]
  · rwa [hchildren]
  · rwa [hkind]
  · rwa [hkind]

theorem childAt_ne_duplicateRoot {operation : ChildOperation}
    (hno : s.childAt p index operation = .error err) : ¬ err.IsDuplicateRoot := by
  rw [childAt] at hno
  split at hno
  · cases hno
  · obtain rfl := Except.error.inj hno
    exact id

theorem removeChild_ne_duplicateRoot (hno : s.removeChild p child = .error err) :
    ¬ err.IsDuplicateRoot := by
  unfold Store.removeChild at hno
  split at hno
  · obtain rfl := Except.error.inj hno
    exact id
  · split_ifs at hno
    obtain rfl := Except.error.inj hno
    exact id

/-- **Refused calls.** What is refused for a second root would lead to one. -/
theorem WellFormed.refused_root (h : s.WellFormed) (hop : op.Callable s)
    (hno : op.call s = .error err) (herr : err.IsDuplicateRoot) :
    ∃ d ∈ op.target?, s.hasSingleRoot d ∧ (op.forced s).HasTwoRoots d := by
  cases op with
  | appendChild p child =>
    have hno : s.insertBefore p child none = .error err := hno
    obtain ⟨c, rfl, hp, hroots⟩ := h.hasTwoRoots_insertBefore hno herr
    exact ⟨p, rfl, hp, hroots⟩
  | insertBefore p child ref =>
    obtain ⟨c, rfl, hp, hroots⟩ := h.hasTwoRoots_insertBefore hno herr
    exact ⟨p, rfl, hp, hroots⟩
  | insertAt p child index =>
    rcases error_of_bind_error hno with hr | ⟨r, hr, hno⟩
    · exact absurd herr (childAt_ne_duplicateRoot hr)
    · obtain ⟨c, rfl, hp, hroots⟩ := h.hasTwoRoots_insertBefore hno herr
      refine ⟨p, rfl, hp, ?_⟩
      rw [Operation.forced, hr]
      exact hroots
  | replaceChild p child ref =>
    obtain ⟨c, rfl, r, rfl, hp, hroots⟩ := h.hasTwoRoots_replaceChild hno herr
    exact ⟨p, rfl, hp, hroots⟩
  | replaceAt p child index =>
    rcases error_of_bind_error hno with hr | ⟨r, hr, hno⟩
    · exact absurd herr (childAt_ne_duplicateRoot hr)
    · obtain ⟨c, rfl, r', hr', hp, hroots⟩ := h.hasTwoRoots_replaceChild hno herr
      obtain rfl := Option.some.inj hr'
      refine ⟨p, rfl, hp, ?_⟩
      rw [Operation.forced, hr]
      exact hroots
  | moveChildren p dst =>
    obtain ⟨d, rfl, hd, hroots⟩ := h.hasTwoRoots_moveChildren hop.1 hno herr
    exact ⟨d, rfl, hd, hroots⟩
  | removeChild p child => exact absurd herr (removeChild_ne_duplicateRoot hno)
  | removeAt p index =>
    rcases error_of_bind_error hno with hc | ⟨c, -, hno⟩
    · exact absurd herr (childAt_ne_duplicateRoot hc)
    · exact absurd herr (removeChild_ne_duplicateRoot hno)
  | unmount n =>
    cases n with
    | none =>
      obtain rfl := Except.error.inj hno
      cases herr
    | some n => cases hno
  | create | createText | removeChildren | appendData | clone | dispose => cases hno

/-! ### What is never refused -/

/-- An element passes the check of a document that has no other root, or is about to lose it. -/
theorem WellFormed.checkChild_root (h : s.WellFormed) (hp : s.hasSingleRoot p) (hc : s.isElement c)
    (hroot : ∀ root, s.rootElement? p = some root → root = c ∨ some root = replaced) :
    s.checkChild p (some c) replaced = .ok c := by
  refine h.checkChild_eq_ok (has_of_kind? (kind?_of_hasSingleRoot hp)) (placeable_of_isElement hc)
    (h.not_above_root hp hc) ?_
  obtain ⟨data, hdata, -⟩ := hasSingleRoot_iff.mp hp
  rw [checkContainer, hdata]
  cases hr : s.rootElement? p with
  | none => rfl
  | some root =>
    rcases hroot root hr with rfl | hrep
    · simp
    · simp [hrep]

theorem WellFormed.insertBefore_accepted (h : s.WellFormed) (hp : s.hasSingleRoot p)
    (hc : s.rootElement? p = some c) (hr : ∀ r ∈ ref, s.parent? r = some p) :
    ∃ s', s.insertBefore p (some c) ref = .ok s' ∧ c ∈ s'.children p := by
  obtain ⟨hmem, helement⟩ := mem_of_rootElement? hc
  have hcheck : s.checkChild p (some c) none = .ok c :=
    h.checkChild_root hp helement fun root hroot => .inl (Option.some.inj (hroot.symm.trans hc))
  have hfit := fits_root hp helement
  have hup := h.not_above_root hp helement
  cases ref with
  | none =>
    refine ⟨_, by rw [Store.insertBefore, Store.appendChild, hcheck]; rfl, ?_⟩
    rw [(h.put_attachLast hfit hup).target]
    simp
  | some r =>
    have hr := hr r rfl
    rw [Store.insertBefore, if_neg (not_not.mpr hr)]
    split_ifs with hself
    · exact ⟨s, rfl, hmem⟩
    · have hcr : c ≠ r := fun e => hself (congrArg some e)
      obtain ⟨l₁, l₂, -, hput⟩ := h.put_attachBefore hfit hup hr hcr
      refine ⟨_, by rw [hcheck]; rfl, ?_⟩
      rw [hput.target]
      simp

theorem WellFormed.replaceChild_accepted (h : s.WellFormed) (hp : s.hasSingleRoot p)
    (hc : s.isElement c) (hr : s.parent? r = some p)
    (hroot : ∀ root, s.rootElement? p = some root → root = c ∨ root = r) :
    ∃ s', s.replaceChild p (some c) (some r) = .ok s' ∧ c ∈ s'.children p := by
  have hcheck : s.checkChild p (some c) (some r) = .ok c :=
    h.checkChild_root hp hc fun root hx => (hroot root hx).imp_right (congrArg some)
  rw [Store.replaceChild, if_neg (not_not.mpr hr)]
  split_ifs with hcr
  · exact ⟨s, rfl, h.mem_children.mpr (hcr ▸ hr)⟩
  · obtain ⟨l₁, l₂, -, hput⟩ :=
      h.put_attachInstead (fits_root hp hc) (h.not_above_root hp hc) hr hcr
    refine ⟨_, by rw [hcheck]; rfl, ?_⟩
    rw [hput.target]
    simp

theorem childAt_eq_ok {operation : ChildOperation} (hindex : 0 ≤ index)
    (hr : (s.children p)[index.toNat]? = some r) : s.childAt p index operation = .ok r := by
  rw [childAt, if_neg (not_lt.mpr hindex), hr]

/-- The root can be put anywhere among the children of its document. -/
theorem WellFormed.inserts_accepted (h : s.WellFormed) (hd : s.hasSingleRoot d)
    (hroot : s.rootElement? d = some root) (hop : op.Inserts s d root) :
    op.Callable s ∧ ∃ s', op.call s = .ok s' ∧ root ∈ s'.children d := by
  obtain ⟨hmem, helement⟩ := mem_of_rootElement? hroot
  have hcontainer := (fits_root hd helement).isContainer
  have hhas : ∀ c ∈ some root, s.Has c := by simpa using has_of_isElement helement
  cases op with
  | appendChild p child =>
    obtain ⟨rfl, rfl⟩ := hop
    have hok : ∃ s', s.insertBefore p (some root) none = .ok s' ∧ root ∈ s'.children p :=
      h.insertBefore_accepted hd hroot nofun
    exact ⟨⟨hcontainer, hhas⟩, hok⟩
  | insertBefore p child ref =>
    obtain ⟨rfl, rfl, hr⟩ := hop
    exact ⟨⟨hcontainer, hhas, fun r hrr => has_of_parent? (hr r hrr)⟩,
      h.insertBefore_accepted hd hroot hr⟩
  | insertAt p child index =>
    obtain ⟨rfl, rfl, hindex, r, hr⟩ := hop
    have hparent := h.mem_children.mp (List.mem_of_getElem? hr)
    have hok : ∃ s', s.insertBefore p (some root) (some r) = .ok s' ∧ root ∈ s'.children p :=
      h.insertBefore_accepted hd hroot (by simpa using hparent)
    refine ⟨⟨hcontainer, hhas⟩, ?_⟩
    rw [Operation.call, insertAt, childAt_eq_ok hindex hr]
    exact hok
  | _ => cases hop

/-- An element can be put in the place of any child of a document if it or the child is the root. -/
theorem WellFormed.replaces_accepted (h : s.WellFormed) (hd : s.hasSingleRoot d)
    (hc : s.isElement c) (hr : s.parent? r = some d)
    (hroot : ∀ root, s.rootElement? d = some root → root = c ∨ root = r)
    (hop : op.Replaces s d c r) : op.Callable s ∧ ∃ s', op.call s = .ok s' ∧ c ∈ s'.children d := by
  have hcontainer := (fits_root hd hc).isContainer
  have hhas : ∀ x ∈ some c, s.Has x := by simpa using has_of_isElement hc
  cases op with
  | replaceChild p child ref =>
    obtain ⟨rfl, rfl, rfl⟩ := hop
    exact ⟨⟨hcontainer, hhas, by simpa using has_of_parent? hr⟩,
      h.replaceChild_accepted hd hc hr hroot⟩
  | replaceAt p child index =>
    obtain ⟨rfl, rfl, hindex, hat⟩ := hop
    refine ⟨⟨hcontainer, hhas⟩, ?_⟩
    rw [Operation.call, replaceAt, childAt_eq_ok hindex hat]
    exact h.replaceChild_accepted hd hc hr hroot
  | _ => cases hop

/-! ### All calls -/

/-- An element that an accepted call leaves at the top level is the root. -/
theorem SingleRooted.rootElement?_call (h : s.SingleRooted) (hw : s.WellFormed) (hl : s.Labelled)
    (hd : s.hasSingleRoot d) (hc : s.isElement c)
    (hok : op.Callable s ∧ ∃ s', op.call s = .ok s' ∧ c ∈ s'.children d) :
    ∃ s', op.call s = .ok s' ∧ s'.rootElement? d = some c := by
  obtain ⟨hop, s', hok, hmem⟩ := hok
  have hs : SameRoles s s' := .call hw hl hop hok
  refine ⟨s', hok, (h.call hw hl hop hok).rootElement?_eq ?_ hmem ?_⟩
  · rwa [hs.hasSingleRoot (has_of_kind? (kind?_of_hasSingleRoot hd))]
  · rwa [hs.isElement (has_of_isElement hc)]

/-- No list of calls changes the role of a node. -/
theorem SameRoles.foldl_perform (h : s.WellFormed) (hl : s.Labelled) (changes : List Change) :
    SameRoles s (changes.foldl Change.perform s) := by
  induction changes generalizing s with
  | nil => rfl
  | cons c changes ih =>
    rcases perform_cases c s with hsame | ⟨hc, hok⟩
    · rw [List.foldl_cons, hsame]
      exact ih h hl
    · exact (SameRoles.change h hl hc hok).trans (ih (h.change hc hok) (hl.change hc hok))

theorem WellFormed.rootedOnce (h : s.WellFormed) (hl : s.Labelled) (hr : s.SingleRooted) :
    s.RootedOnce where
  root _ hd := hr.filter_eq h hd
  made data visible line := by
    have hself : (Change.perform s (.tree (.create (.document data) visible line))).payload?
        s.nodes.size = some (.document data) := payload?_add.trans (if_pos rfl)
    rw [hasSingleRoot_eq, hself]
    rfl
  asks changes _ hd := (SameRoles.foldl_perform h hl changes).hasSingleRoot hd
  copy n hn := by
    obtain ⟨source, hcopy, hself, -⟩ :=
      h.clone_copying hl.listed (fun m _ => hl.distinct m) hn
    exact hasSingleRoot_congr (role_of_loose (hcopy.loose _ n hself))
  accepted _ _ _ hd hok := eq_forced hd hok
  refused _ _ hop hno herr := h.refused_root hop hno herr
  moves _ _ _ hd hroot hop := hr.rootElement?_call h hl hd (mem_of_rootElement? hroot).2
    (h.inserts_accepted hd hroot hop)
  replaced op d root e hd hroot he hop := hr.rootElement?_call h hl hd he
    (h.replaces_accepted hd he (h.mem_children.mp (mem_of_rootElement? hroot).1)
      (fun x hx => .inr (Option.some.inj (hx.symm.trans hroot))) hop)
  replaces op d root r hd hroot hrd hop :=
    hr.rootElement?_call h hl hd (mem_of_rootElement? hroot).2
    (h.replaces_accepted hd (mem_of_rootElement? hroot).2 hrd
      (fun x hx => .inl (Option.some.inj (hx.symm.trans hroot))) hop)

theorem singleRooted_empty : SingleRooted {} := by
  rintro d hd -
  obtain ⟨data, hdata, -⟩ := hasSingleRoot_iff.mp hd
  exact absurd (has_of_payload? hdata) (Nat.not_lt_zero d)

theorem singleRooted_reach (changes : List Change) : (reach changes).SingleRooted := by
  have hall : (reach changes).WellFormed ∧ (reach changes).Labelled ∧
      (reach changes).SingleRooted :=
    reach_induction (P := fun s => s.WellFormed ∧ s.Labelled ∧ s.SingleRooted)
      ⟨wellFormed_empty, labelled_empty, singleRooted_empty⟩
      (fun _ _ _ ⟨hw, hl, h⟩ hc hok => ⟨hw.change hc hok, hl.change hc hok, h.change hw hl hc hok⟩)
      changes
  exact hall.2.2

/-- **One root.** In every state that any calls lead to, a document that asks for a single root has
at most one, and no call is refused for a second one that would not lead to it. -/
theorem rootedOnce_reach (changes : List Change) : (reach changes).RootedOnce :=
  (wellFormed_reach changes).rootedOnce (labelled_reach changes) (singleRooted_reach changes)

/-- A document has some text and a root. Another element is refused, unless it takes the place of
the root. The root may take the place of the text, or move in front of it. -/
example :
    let s := reach [.tree (.create (.document { type := "xml", singleRoot := true }) true 1),
      .tree (.create (.element { qualifier := [], name := "a" }) true 1),
      .tree (.create (.element { qualifier := [], name := "b" }) true 1), .tree (.createText "t"),
      .tree (.appendChild 0 (some 3)), .tree (.appendChild 0 (some 1))]
    s.appendChild 0 (some 2) = .error (.secondRoot "b") ∧
      (s.replaceChild 0 (some 2) (some 1)).toOption.map (·.children 0) = some [3, 2] ∧
      (s.replaceAt 0 (some 1) 0).toOption.map (·.children 0) = some [1] ∧
      (s.insertAt 0 (some 1) 0).toOption.map (·.children 0) = some [1, 3] := by
  decide

end Store

end Stencil.Tree
