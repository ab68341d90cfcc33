import Stencil.Proofs.Build.Finishing
import Stencil.Proofs.Build.Provision
import Stencil.Proofs.Tree.Rereading
import Stencil.Proofs.Tree.Search

/-!
# Reading a template beside others

What a source is read to does not depend on what else is there, and neither does what a template
refers to: both are told by contents. So it is enough to know what comes of reading a template by
itself. The loop reads a template, asks it what it refers to, keeps it once it is finished, and
takes the last one as the output. Each of these is work on one document.

## Main definitions

* `Store.SameContent` – nodes of two stores that hold the same
* `Language.references` – what a document refers to

## Main results

* `Language.references_eq` – documents that say the same refer to the same templates
* `Shelf.load`, `Shelf.check`, `Shelf.keep` – work on one document
-/

namespace Stencil

open Stencil.Tree (NodeId Store Content Shape Assembly)
open Stencil.Tree.Store (Untouched Growth Alike Built)
open Stencil.Language

variable {K : Text → List Content → Prop} {R : NodeId → Prop} {s s' : Session}
  {D root n n' m : NodeId}
  {t t' : Store} {cs : List Content} {l l' : List NodeId} {d : Dialect} {name : Text} {k : Nat}

/-! ### Nodes that hold the same -/

/-- The data of an element. -/
def Tree.Payload.element? : Tree.Payload → Option Tree.ElementData
  | .element e => some e
  | _ => none

namespace Tree.Store

/-- Nodes of two stores hold the same. -/
def SameContent (t t' : Store) (n n' : NodeId) : Prop := ∃ c, t.Holds n c ∧ t'.Holds n' c

theorem forall₂_sameContent (h : l.Forall₂ t.Holds cs) (h' : l'.Forall₂ t'.Holds cs) :
    l.Forall₂ (t.SameContent t') l' := by
  induction h generalizing l' with
  | nil =>
    cases h'
    exact .nil
  | cons hc _ ih =>
    cases h' with
    | cons hc' h' => exact .cons ⟨_, hc, hc'⟩ (ih h')

namespace SameContent

theorem loose (h : t.SameContent t' n n') : t'.loose n' = t.loose n := by
  obtain ⟨c, hc, hc'⟩ := h
  exact (holds_iff.mp hc').1.trans (holds_iff.mp hc).1.symm

theorem attributes (h : t.SameContent t' n n') :
    (t'.attributes n').map t'.loose = (t.attributes n).map t.loose := by
  obtain ⟨c, hc, hc'⟩ := h
  exact (holds_iff.mp hc').2.1.trans (holds_iff.mp hc).2.1.symm

theorem children (h : t.SameContent t' n n') :
    (t.children n).Forall₂ (t.SameContent t') (t'.children n') := by
  obtain ⟨c, hc, hc'⟩ := h
  exact forall₂_sameContent (holds_iff.mp hc).2.2 (holds_iff.mp hc').2.2

/-- Whatever is told by what nodes say is told alike of both. -/
theorem element?_map {α : Type} (f : ElementData → α)
    (hf : ∀ e : ElementData, f { e with attrs := .empty } = f e) (h : t.SameContent t' n n') :
    (t'.element? n').map f = (t.element? n).map f := by
  have hview : ∀ (t : Store) (n : NodeId), (t.element? n).map f =
      ((t.loose n).map Node.payload).bind fun p => p.element?.map f := by
    intro t n
    rw [payload_loose, element?]
    cases t.payload? n with
    | none => rfl
    | some p =>
      cases p with
      | element e => exact congrArg some (hf e).symm
      | _ => rfl
  rw [hview, hview, h.loose]

theorem isElement (h : t.SameContent t' n n') : t.isElement n = t'.isElement n' := by
  have hsame := h.element?_map (fun _ => ()) fun _ => rfl
  rw [Store.isElement, Store.isElement, ← Option.isSome_map, ← hsame, Option.isSome_map]

theorem isCalled {uri : Int} (h : t.SameContent t' n n') :
    t.isCalled uri name n = t'.isCalled uri name n' := by
  have hview : ∀ (t : Store) (n : NodeId), t.isCalled uri name n =
      ((t.element? n).map fun e => decide (e.uri = some uri) &&
        decide (e.name = name)).getD false := by
    intro t n
    rw [Store.isCalled]
    cases t.element? n <;> rfl
  rw [hview, hview, h.element?_map _ fun _ => rfl]

theorem isRoot {id : Int} (h : t.SameContent t' n n') : isRoot t' id n' = isRoot t id n := by
  rw [← isRootNode_loose, ← isRootNode_loose, h.loose]

theorem nameOf (h : t.SameContent t' n n') : nameOf t' n' = nameOf t n := by
  rw [Language.nameOf, Language.nameOf, h.element?_map _ fun _ => rfl]

theorem extractAttributes {specs : List AttributeSpec} {others : Option AttributeSpec}
    (h : t.SameContent t' n n') (hl : t.Labelled) (hl' : t'.Labelled) :
    extractAttributes d t' n' specs others = extractAttributes d t n specs others := by
  rw [extractAttributes_eq hl', extractAttributes_eq hl, h.loose, h.attributes]

end SameContent

/-! ### Searching -/

theorem breadthFirst_sameContent (h : l.Forall₂ (t.SameContent t') l') :
    (t.breadthFirst k l).Forall₂ (t.SameContent t') (t'.breadthFirst k l') := by
  induction k generalizing l l' with
  | zero => exact .nil
  | succ k ih =>
    rw [breadthFirst_succ, breadthFirst_succ]
    exact List.rel_append h (ih (List.rel_flatMap h fun _ _ hn => hn.children))

/-- There are no more levels than nodes. -/
theorem WellFormed.breadthFirst_add {limit more : Nat} (h : t.WellFormed)
    (hlevel : ∀ m ∈ l, t.Has m ∧ t.ascend k m = some root) (hlimit : t.nodes.size ≤ limit + k) :
    t.breadthFirst (limit + more) l = t.breadthFirst limit l := by
  induction limit generalizing l k with
  | zero =>
    obtain rfl : l = [] := List.eq_nil_iff_forall_not_mem.mpr fun m hm => by
      obtain ⟨hhas, hup⟩ := hlevel m hm
      have hlt := h.linked.ascend_lt h.grounded hhas hup
      omega
    cases more <;> simp [breadthFirst]
  | succ limit ih =>
    rw [show limit + 1 + more = limit + more + 1 by omega, breadthFirst_succ, breadthFirst_succ,
      ih (l := l.flatMap t.children) (k := k + 1) (fun c hc => ?_) (by omega)]
    obtain ⟨q, hq, hc⟩ := List.mem_flatMap.mp hc
    have hparent := h.mem_children.mp hc
    refine ⟨has_of_parent? hparent, ?_⟩
    rw [ascend, hparent]
    exact (hlevel q hq).2

/-- **The same is found** below nodes that hold the same. -/
theorem elementsByName_sameContent {id : Int} (hw : t.WellFormed)
    (hw' : t'.WellFormed) (hn : t.Has n)
    (hn' : t'.Has n') (h : t.SameContent t' n n') :
    (t.elementsByName n id name).Forall₂ (t.SameContent t') (t'.elementsByName n' id name) := by
  -- both searches are given the same bound
  have hsubtree : ∀ {t : Store} {n : NodeId} (more : Nat), t.WellFormed → t.Has n →
      t.subtree n = t.breadthFirst (t.nodes.size + more) [n] := fun _ hw hn =>
    (hw.breadthFirst_add (k := 0) (by simpa using ⟨hn, rfl⟩) (Nat.le_refl _)).symm
  rw [elementsByName_eq, elementsByName_eq, hsubtree t'.nodes.size hw hn,
    hsubtree t.nodes.size hw' hn', Nat.add_comm t'.nodes.size, ← List.drop_one, ← List.drop_one]
  refine List.rel_filter (fun a b hab => ?_)
    (List.forall₂_drop 1 (breadthFirst_sameContent (.cons h .nil)))
  beta_reduce
  rw [hab.isCalled]

end Tree.Store

/-! ### What a document refers to -/

namespace Language

/-- What a document refers to: the template it extends, and those it loads. -/
def references (d : Dialect) (t : Store) (doc : NodeId) : Except Failure (Text × List Text) :=
  match t.rootElement? doc with
  | none => return ([], [])
  | some root =>
    if isRoot t (namespaceIdOf d) root then do
      let loads ← loadedNames d t root
      let attrs ← extractAttributes d t root (rootSpecs (nameOf t root)) (some anyText)
      return (attrs.text "file", loads)
    else return ([], [])

/-- What is computed first decides whether the rest is done. -/
theorem fst_lift_bind {α β : Type} {x : Except Failure α} {f : α → Work β}
    {g : α → Except Failure β}
    (h : ∀ a, (f a s).1 = g a) : ((Work.lift x >>= f) s).1 = x >>= g := by
  cases x with
  | error _ => rfl
  | ok a => exact h a

theorem checkInheritance_fst : (checkInheritance d D s).1 = references d s.store D := by
  rw [checkInheritance, Action.bind_ok (show Work.store s = (.ok s.store, s) from rfl), references]
  cases s.store.rootElement? D with
  | none => rfl
  | some root =>
    dsimp only
    by_cases hroot : isRoot s.store (namespaceIdOf d) root
    · rw [if_neg (by simp [hroot]), if_pos hroot]
      refine fst_lift_bind fun loads => fst_lift_bind fun attrs => ?_
      change ((do
        Work.modifyStore _
        if attrs.flag "dynamic" then Work.setProperty root Code.Properties.dynamic (.flag true)
        Work.setVisible root true
        return (attrs.text "file", loads) : Work (Text × List Text)) s).1 = _
      cases attrs.flag "dynamic" <;> rfl
    · rw [if_pos (by simpa using hroot), if_neg hroot]
      rfl

theorem mapM_eq_of_forall₂ {α β γ ε : Type} {Q : α → β → Prop} {f : α → Except ε γ}
    {g : β → Except ε γ}
    {l : List α} {l' : List β} (h : l.Forall₂ Q l') (hfg : ∀ a b, Q a b → g b = f a) :
    l'.mapM g = l.mapM f := by
  induction h with
  | nil => rfl
  | cons hab _ ih => rw [List.mapM_cons, List.mapM_cons, hfg _ _ hab, ih]

/-- **Documents that say the same refer to the same templates.** -/
theorem references_eq {D' : NodeId} (hw : t.WellFormed) (hl : t.Labelled) (hw' : t'.WellFormed)
    (hl' : t'.Labelled) (h : (t.children D).Forall₂ (t.SameContent t') (t'.children D')) :
    references d t' D' = references d t D := by
  rw [references, references, Store.rootElement?, Store.rootElement?]
  rcases find?_of_forall₂ (f := t.isElement) (g := t'.isElement) h fun _ _ hab => hab.isElement with
    ⟨hnone, hnone'⟩ | ⟨root, root', hroot, hroot', hsame⟩
  · rw [hnone, hnone']
  · have hel : t.isElement root := List.find?_some hroot
    have hel' : t'.isElement root' := List.find?_some hroot'
    have hloads : loadedNames d t' root' = loadedNames d t root :=
      mapM_eq_of_forall₂ (Store.elementsByName_sameContent hw hw' (Store.has_of_isElement hel)
        (Store.has_of_isElement hel') hsame) fun a b hab => by rw [hab.extractAttributes hl hl']
    rw [hroot, hroot']
    simp only [hsame.isRoot, hloads, hsame.nameOf, hsame.extractAttributes hl hl']

end Language

/-! ### What is noticed -/

namespace Tree.Store

/-- What is read is noticed nowhere else. -/
theorem Built.untouched (h : Built t t') (ho : t.Owned) : Untouched (fun m => ¬ t.Has m) t t' := by
  have hlinks : ∀ m, t.Has m → t'.links m = t.links m := fun m hm => by
    rw [links, links, h.kept m hm]
  refine .of_view (fun m p hp => ?_) fun m hm _ _ => ?_
  · exact (kind?_eq_of_loose (loose_congr (h.kept m (has_of_kind? hp)))).trans hp
  refine view_congr (loose_congr (h.kept m hm)) (attributes_congr (payload?_congr (h.kept m hm)))
    (fun a ha => loose_congr (h.kept a (has_of_kind? (ho.kind m a ha))))
    (h.base.children_congr (fun _ => h.has) (hlinks m hm) fun c hc => hlinks c ?_)
  exact has_of_parent? (h.base.mem_children.mp hc)

/-- Two stores with the same trees differ in what is visible, and in what is left on documents. -/
theorem Shape.revealed_congr {tree : Shape} (h : ∀ n ∈ tree.ids,
    (t'.loose n).map (fun x => { x with visible := true }) =
      (t.loose n).map (fun x => { x with visible := true }) ∧
    (t'.attributes n).map t'.loose = (t.attributes n).map t.loose) :
    (tree.content t').revealed = (tree.content t).revealed := by
  induction tree with
  | node n below ih =>
    rw [Shape.ids_node, List.forall_mem_cons] at h
    rw [Shape.content_node, Shape.content_node, Content.revealed_node, Content.revealed_node,
      List.map_map, List.map_map]
    congr 1
    · exact h.1.1
    · exact h.1.2
    · exact List.map_congr_left fun x hx => ih x hx fun m hm =>
        h.2 m (List.mem_flatMap.mpr ⟨x, hx, hm⟩)

/-- Nodes stay in their places, and those that have changed are no attributes. -/
theorem Growth.untouched (h : Growth t t') (hw : t.WellFormed) (ho : t.Owned)
    (hpay : ∀ n, t'.attributes n = t.attributes n) (hget : ∀ n, ¬ R n → t'.get? n = t.get? n)
    (hR : ∀ n, R n → t.kind? n ≠ some .attr) : Untouched R t t' := by
  have hchildren : t'.children = t.children := (hw.linked.congr h.links).children_eq
  exact .of_view h.kind? fun n _ _ hn => view_congr (loose_congr (hget n hn)) (hpay n)
    (fun a ha => loose_congr (hget a fun hin => hR a hin (ho.kind n a ha))) (congrFun hchildren n)

section Marked

variable {root m : NodeId} {value : Extra}

/-- A document is marked and its root element is shown: other nodes are as they were. -/
theorem get?_marked (hD : m ≠ D) (hm : m ≠ root) :
    ((t.setExtra D .inheritance value).setVisible root true).get? m = t.get? m := by
  rw [setVisible, get?_modify, if_neg (Ne.symm hm), setExtra, get?_modifyDocument_of_ne hD,
    removeExtra, get?_modifyDocument_of_ne hD]

theorem revealed_loose_marked (hne : root ≠ D) (hD : m ≠ D) :
    (((t.setExtra D .inheritance value).setVisible root true).loose m).map
        (fun x => { x with visible := true }) =
      (t.loose m).map (fun x => { x with visible := true }) := by
  by_cases hm : m = root
  · subst hm
    rw [loose_setVisible, if_pos rfl, loose_congr (s := t)]
    · cases t.loose m <;> rfl
    · rw [setExtra, get?_modifyDocument_of_ne hne, removeExtra, get?_modifyDocument_of_ne hne]
  · rw [loose_congr (get?_marked hD hm)]

theorem hasSnippet_marked :
    ((t.setExtra D .inheritance value).setVisible root true).hasExtra D .snippet =
      t.hasExtra D .snippet := by
  have hshown : ((t.setExtra D .inheritance value).setVisible root true).hasExtra D .snippet =
      (t.setExtra D .inheritance value).hasExtra D .snippet := by
    rw [hasExtra, extra?, extras, document?, payload?_setVisible, hasExtra, extra?, extras,
      document?]
  exact hshown.trans (hasExtra_setExtra (by decide))

end Marked

end Tree.Store

/-- Of what is below a document that was asked what it refers to, at most its root element has
changed, and that only in whether it is visible. -/
theorem Language.Asked.changes {loads : List Text} (ha : Asked d D s loads s')
    (hw : s.store.WellFormed) (hD : s.store.kind? D = some .document) :
    ∃ R : NodeId → Prop, (∀ m, R m → s.store.Above D m) ∧
      (∀ m, ¬ R m → s'.store.get? m = s.store.get? m) ∧
      (∀ m, m ≠ D → (s'.store.loose m).map (fun x => { x with visible := true }) =
        (s.store.loose m).map fun x => { x with visible := true }) ∧
      s'.store.hasExtra D .snippet = s.store.hasExtra D .snippet := by
  obtain ⟨-, hstore⟩ | ⟨root, value, hroot, -, hstore⟩ := ha.store
  · exact ⟨fun _ => False, fun _ => False.elim, fun m _ => by rw [hstore],
      fun m _ => by rw [hstore], by rw [hstore]⟩
  have hp : s.store.parent? root = some D :=
    hw.mem_children.mp (List.mem_of_find?_eq_some hroot)
  have hne : root ≠ D := fun e => (hw.placeable hp).kind_ne.1 (e ▸ hD)
  refine ⟨fun m => m = D ∨ m = root, ?_, fun m hm => ?_, fun m hm => ?_, ?_⟩
  · rintro m (rfl | rfl)
    · exact .refl _
    · exact .of_parent? hp
  · rw [hstore, Store.get?_marked (fun e => hm (.inl e)) fun e => hm (.inr e)]
  · rw [hstore, Store.revealed_loose_marked hne hm]
  · rw [hstore, Store.hasSnippet_marked]

/-- A document was asked what it refers to: its tree is marked, and only the marks are noticed. -/
theorem Drafted.asked {loads : List Text} (h : Drafted s D cs) (hw : s.store.WellFormed)
    (ho : s.store.Owned) (hl : s.store.Labelled) (ha : Asked d D s loads s') :
    s.Reworks (fun m => s.store.Above D m ∨ ¬ s.store.Has m) s' ∧
      ∃ cs', Drafted s' D cs' ∧ cs'.map Content.revealed = cs.map Content.revealed := by
  obtain ⟨R, habove, hget, hshown, hsnippet⟩ := ha.changes hw h.entire.1
  have hgrowth := ha.growth
  have halike := ha.alike
  have hrest := ha.rest
  have hkind : ∀ m, R m → s.store.kind? m ≠ some .attr := fun m hm =>
    hw.kind_ne_attr h.entire.1 (habove m hm)
  have huntouched := hgrowth.untouched hw ho halike.attributes hget hkind
  refine ⟨⟨hw.growth hgrowth, ho.congr hgrowth.kind? halike.attributes,
    hl.alike halike, by rw [hrest], ha.raised, by rw [hrest], by rw [hrest],
    huntouched.mono fun m _ hm => .inl (habove m hm)⟩, ?_⟩
  -- the trees below the document are the same trees, and only their visibility can have changed
  obtain ⟨below, hroots, hshaped, rfl⟩ := Store.exists_shapes h.holds
  have hchildren : s'.store.children = s.store.children :=
    (hw.linked.congr hgrowth.links).children_eq
  refine ⟨below.map (Shape.content s'.store),
    ⟨⟨hgrowth.kind? D _ h.entire.1, hsnippet.trans h.entire.2⟩, ?_, ?_⟩, ?_⟩
  · rw [hchildren, ← hroots]
    refine List.forall₂_map_left_iff.mpr (List.forall₂_map_right_iff.mpr (List.forall₂_same.mpr ?_))
    exact fun x hx => ⟨x, rfl, (hshaped x hx).growth hw hgrowth, rfl⟩
  · rw [ha.documents]
    exact h.apart
  rw [List.map_map, List.map_map]
  refine List.map_congr_left fun x hx => Store.Shape.revealed_congr fun m hm => ⟨?_, ?_⟩
  · have hxD : s.store.parent? x.root = some D :=
      hw.mem_children.mp (hroots ▸ List.mem_map_of_mem hx)
    exact hshown m fun e => hw.grounded.not_above_of_parent? hxD
      (e ▸ (hshaped x hx).above hw hm)
  · rw [halike.attributes m]
    exact List.map_congr_left fun a ha =>
      Store.loose_congr (hget a fun hin => hkind a hin (ho.kind m a ha))

/-! ### Templates -/

/-- A template with a source that can be read. By itself it has these contents below its document,
and this is what it refers to. -/
def Compiler.Provides [Encoding.Decoders] (c : Compiler) (files : Files) (name : Text)
    (cs : List Content) (r : Text × List Text) : Prop :=
  ∃ path source a doc, c.streams.sourcePath name = .ok path ∧
    files.readSource name path c.limit = .ok source ∧
    Tree.ofSource (some c.dialect.resolver) false source {} = (.ok (), a) ∧ a.document = some doc ∧
    (a.store.children doc).Forall₂ a.store.Holds cs ∧ references c.dialect a.store doc = .ok r

section Reading

variable [Encoding.Decoders] {c : Compiler} {files : Files} {r : Text × List Text}

/-- A template with a source that is read to a document is read to it in a session as well. -/
theorem loadTemplate_eq {path source : Text} {a : Assembly}
    (hpath : c.streams.sourcePath name = .ok path)
    (hfile : files.readSource name path c.limit = .ok source) (hc : s.canceled = false)
    (hparse : Tree.ofSource (some c.dialect.resolver) false source s.store = (.ok (), a))
    (hdoc : a.document = some D) :
    c.loadTemplate xmlParser files name s = (.ok D, { s with
      store := a.store
      trace := .finish ("parse " ++ name) :: .start ("parse " ++ name) :: s.trace }) := by
  have hlift : Work.lift (files.readSource name path c.limit) s = (.ok source, s) := by
    rw [hfile]
    rfl
  have hsource :
      parseSource c.dialect source { s with trace := .start ("parse " ++ name) :: s.trace } =
        (.ok D, { s with
          store := a.store
          trace := .start ("parse " ++ name) :: s.trace }) := by
    rw [parseSource]
    simp only [hc, hparse, hdoc, Option.getD_some]
  rw [Compiler.loadTemplate, hpath]
  change (Work.lift (files.readSource name path c.limit) >>= fun source =>
    xmlParser.parse c.dialect name source) s = _
  rw [Action.bind_ok hlift]
  simp only [xmlParser, hsource]

/-- **Reading a template** gives a draft. -/
theorem Shelf.load (h : Shelf K s) (hr : c.Provides files name cs r) :
    ∃ doc s', c.loadTemplate xmlParser files name s = (.ok doc, s') ∧ WorksOn K doc s s' ∧
      Drafted s' doc cs ∧ (∀ D cs', Drafted s D cs' → D ≠ doc) ∧
      s'.trace = .finish ("parse " ++ name) :: .start ("parse " ++ name) :: s.trace := by
  obtain ⟨path, source, a, doc₀, hpath, hfile, hparse, hdoc₀, hcs, -⟩ := hr
  obtain ⟨a', doc, doc', x, hdoc, hx, hparse', hdoc', hx'⟩ := Tree.exists_ofSource hparse
    Store.wellFormed_empty Store.owned_empty Store.labelled_empty h.wellFormed h.owned h.labelled
  obtain rfl := Option.some.inj (hdoc₀.symm.trans hdoc)
  obtain ⟨_, e, hdoc'', -, hparsed⟩ :=
    Tree.parsed_of_ofSource h.wellFormed h.owned h.labelled hparse'
  obtain rfl := Option.some.inj (hdoc'.symm.trans hdoc'')
  have hholds : (a'.store.children doc').Forall₂ a'.store.Holds cs := by
    -- both documents say the same
    have hinner := (Store.holds_iff.mp hx).2.2
    rw [List.right_unique_forall₂' Store.rightUnique_holds hcs hinner]
    exact (Store.holds_iff.mp hx').2.2
  have hbuilt := hparsed.built
  have hnew : ∀ m, s.store.Has m → ¬ ¬ s.store.Has m := fun _ hm hgone => hgone hm
  have hreworks : s.Reworks (fun m => ¬ s.store.Has m) { s with
      store := a'.store
      trace := .finish ("parse " ++ name) :: .start ("parse " ++ name) :: s.trace } :=
    ⟨hbuilt.wellFormed, hbuilt.owned, hbuilt.labelled, rfl, fun _ => rfl, rfl, rfl,
      hbuilt.untouched h.owned⟩
  have hkind : ∀ z D, s.documents.lookup z = some D → s.store.kind? D = some .document :=
    fun z D hz => by
    obtain ⟨_, hstocks, -⟩ := h.kept z D hz
    exact hstocks.document
  refine ⟨doc', _, loadTemplate_eq hpath hfile h.canceled hparse' hdoc',
    ⟨h.reworks hreworks fun z D m hz hm => ?_, fun D cs' _ hd =>
      hd.reworks h.wellFormed hreworks fun m hm => ?_, fun _ hz => hz, rfl⟩,
    ⟨hparsed.entire, hholds, fun z hz => ?_⟩, fun D cs' hd heq => ?_, rfl⟩
  · exact hnew m (hm.has (Store.has_of_kind? (hkind z D hz)))
  · exact hnew m (hm.has (Store.has_of_kind? hd.entire.1))
  · exact hparsed.new (Store.has_of_kind? (hkind z doc' hz))
  · exact hparsed.new (heq ▸ Store.has_of_kind? hd.entire.1)

/-- **Asking a draft what it refers to.** -/
theorem Shelf.check (h : Shelf K s) (hd : Drafted s D cs) (hr : c.Provides files name cs r) :
    ∃ s' cs', checkInheritance c.dialect D s = (.ok r, s') ∧ WorksOn K D s s' ∧ Drafted s' D cs' ∧
      cs'.map Content.revealed = cs.map Content.revealed ∧ s'.trace = s.trace := by
  obtain ⟨path, source, a, doc, -, -, hparse, hdoc, hcs, href⟩ := hr
  obtain ⟨_, e, -, -, hparsed⟩ := Tree.parsed_of_ofSource Store.wellFormed_empty Store.owned_empty
    Store.labelled_empty hparse
  have hbuilt := hparsed.built
  have hanswer : (checkInheritance c.dialect D s).1 = .ok r := by
    rw [checkInheritance_fst,
      references_eq hbuilt.wellFormed hbuilt.labelled h.wellFormed h.labelled
        (Store.forall₂_sameContent hcs hd.holds), href]
  obtain ⟨s', hs'⟩ : ∃ s', checkInheritance c.dialect D s = (.ok r, s') := ⟨_, Prod.ext hanswer rfl⟩
  have hasked := checkInheritance_asked r s' hs'
  obtain ⟨hreworks, cs', hd', hrevealed⟩ := hd.asked h.wellFormed h.owned h.labelled hasked
  exact ⟨s', cs', hs', h.worksOn hd hreworks, hd', hrevealed, by rw [hasked.rest]⟩

end Reading

/-! ### Keeping and taking as the output -/

theorem lookup_kept {z : Text} : ((name, D) :: s.documents.filter fun e => e.1 ≠ name).lookup z =
    if z = name then some D else s.documents.lookup z := by
  rw [List.lookup_cons]
  by_cases hz : z = name
  · simp [hz]
  · rw [beq_false_of_ne hz, if_neg hz]
    exact lookup_filter_ne hz

/-- A finished document takes the place of an earlier one, with which nothing has to do. -/
theorem Shelf.replace (h : Shelf K s) (hd : Drafted s D cs) (hK : K name cs) (hw : t.WellFormed)
    (ho : t.Owned) (hl : t.Labelled) (hu : Untouched R s.store t)
    (hR : ∀ m, R m → ∃ old, s.documents.lookup name = some old ∧ s.store.Above old m) :
    WorksOn K D s { s with
      store := t
      documents := (name, D) :: s.documents.filter fun e => e.1 ≠ name } := by
  have hout : ∀ D', s.store.kind? D' = some .document → s.documents.lookup name ≠ some D' →
      ∀ m, s.store.Above D' m → ¬ R m := fun D' hD' hother m hm hin => by
    obtain ⟨old, hold, hup⟩ := hR m hin
    obtain ⟨_, hstocks, -⟩ := h.kept name old hold
    exact hother (h.wellFormed.eq_of_documents hD' hstocks.document hm hup ▸ hold)
  refine ⟨⟨hw, ho, hl, h.canceled, h.raised, fun z D' hz => ?_, fun z z' D' hz hz' => ?_⟩,
    fun D' cs' hne hd' => ⟨?_, ?_, fun z hz => ?_⟩, fun z hz => ?_, rfl⟩
  · rw [lookup_kept] at hz
    split at hz
    · obtain rfl := Option.some.inj hz
      rename_i hname
      exact ⟨cs, hd.stocks.untouched h.wellFormed hu (hout D hd.entire.1 (hd.apart name)),
        hname ▸ hK⟩
    · rename_i hname
      obtain ⟨cs', hstocks, hK'⟩ := h.kept z D' hz
      exact ⟨cs', hstocks.untouched h.wellFormed hu (hout D' hstocks.document fun hold =>
        hname (h.unique z name D' hz hold)), hK'⟩
  · rw [lookup_kept] at hz hz'
    split at hz <;> split at hz'
    · rename_i hname hname'
      exact hname.trans hname'.symm
    · exact absurd (hz'.trans hz.symm) (hd.apart z')
    · exact absurd (hz.trans hz'.symm) (hd.apart z)
    · exact h.unique z z' D' hz hz'
  · exact hu.entire (hout D' hd'.entire.1 (hd'.apart name) D' (.refl D')) hd'.entire
  · exact (hd'.stocks.untouched h.wellFormed hu (hout D' hd'.entire.1 (hd'.apart name))).holds
  · rw [lookup_kept] at hz
    split at hz
    · exact hne (Option.some.inj hz).symm
    · exact hd'.apart z hz
  · rw [lookup_kept]
    split
    · rfl
    · exact hz

/-- **Keeping a finished document.** An earlier one under the same name makes way. -/
theorem Shelf.keep (h : Shelf K s) (hd : Drafted s D cs) (hK : K name cs) :
    ∃ s', keepDocument name D s = (.ok (), s') ∧ WorksOn K D s s' ∧
      (s'.documents.lookup name).isSome ∧ s'.trace = s.trace := by
  have hself {t : Store} : (({ s with
      store := t
      documents := (name, D) :: s.documents.filter fun e => e.1 ≠ name } : Session).documents.lookup
        name).isSome := by
    rw [lookup_kept, if_pos rfl]
    rfl
  rw [keepDocument, Action.bind_ok (Action.get_apply s)]
  cases hold : s.documents.lookup name with
  | none =>
    exact ⟨_, rfl,
      h.replace hd hK h.wellFormed h.owned h.labelled (R := fun _ => False)
        (.refl _) nofun, hself, rfl⟩
  | some old =>
    have hne : old ≠ D := fun e => hd.apart name (e ▸ hold)
    obtain ⟨_, hstocks, -⟩ := h.kept name old hold
    have hhas := Store.has_of_kind? hstocks.document
    have hw := (h.wellFormed.tidy h.owned).dispose hhas trivial
    refine ⟨_, ?_, h.replace hd hK hw.tidy.wellFormed hw.tidy.owned (h.labelled.shrink .dispose)
      (h.wellFormed.untouched_dispose h.owned hhas (by rw [hstocks.document]; decide)
        (h.wellFormed.alone_of_document hstocks.document)) fun m hm => ⟨old, hold, hm⟩, hself, rfl⟩
    dsimp only
    rw [if_pos hne]
    rfl

/-- **A document that is whole** is taken as it is. -/
theorem Drafted.promoteSnippet (h : Drafted s D cs) :
    Compiler.promoteSnippet D s = (.ok D, s) := by
  rw [Compiler.promoteSnippet, Action.bind_ok (show Work.store s = (.ok s.store, s) from rfl),
    h.entire.2]
  rfl

end Stencil
