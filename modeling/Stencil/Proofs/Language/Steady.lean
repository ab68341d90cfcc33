import Stencil.Proofs.Language.Inert
import Stencil.Proofs.Language.Marking
import Stencil.Proofs.Language.Opening

/-!
# Templates that only load others

A template is steady if its nodes concern no instruction, apart from its root element and the
elements that load other templates. The stages do two things to such a template: what is loaded
takes the place of what loads it, and everything becomes visible. Both are functions of the content
of the template and of the contents that are loaded.

## Main definitions

* `Language.Steady`, `Language.Ripe` – contents in which nothing but loading is left to be done, and
  contents in which nothing is
* `Language.inlined` – a content with what it loads
* `Content.revealed` – a content of which all is visible

## Main results

* `Language.ripe_of_mem_inlined` – nothing is left to be done in what is put in place
* `Language.revealed_inlined` – what is visible makes no difference to what is loaded
* `Store.Shaped.content_revealAll` – what a tree says once all of it is visible
* `Store.untouched_revealAll` – what is outside of it
* `Language.run_processing` – the stage
-/

namespace Stencil

open Stencil.Tree (NodeId Node Store Content)

namespace Tree.Content

/-- A content of which all is visible. -/
def revealed : Content → Content
  | node self attributes below =>
    node (self.map fun n => { n with visible := true }) attributes (below.map revealed)

theorem revealed_node (self : Option Node) (attributes : List (Option Node))
    (below : List Content) :
    (node self attributes below).revealed =
      node (self.map fun n => { n with visible := true }) attributes (below.map revealed) := by
  rw [revealed]

theorem self_revealed (c : Content) :
    c.revealed.self = c.self.map fun n => { n with visible := true } := by
  cases c
  rw [revealed_node]
  rfl

theorem attributes_revealed (c : Content) : c.revealed.attributes = c.attributes := by
  cases c
  rw [revealed_node]
  rfl

theorem parts_revealed (c : Content) : c.revealed.parts = c.parts.map revealed := by
  induction c with
  | node self attributes below ih =>
    rw [revealed_node, parts_node, parts_node, List.map_cons, revealed_node, List.flatMap_map,
      List.map_flatMap]
    congr 1
    exact List.flatMap_congr ih

@[simp] theorem revealed_revealed (c : Content) : c.revealed.revealed = c.revealed := by
  induction c with
  | node self attributes below ih =>
    rw [revealed_node, revealed_node, List.map_map]
    congr 1
    · cases self <;> rfl
    · exact List.map_congr_left ih

end Tree.Content

namespace Language

variable {d : Dialect} {id : Int} {κ : Text → List Content} {self : Option Node}
  {attributes : List (Option Node)} {below cs : List Content} {c x : Content}
    {s : Store} {n : NodeId}

/-! ### Nodes -/

/-- Whether an attribute is in no registered namespace and has a fixed value. -/
def isFixedAttribute (a : Option Node) : Bool :=
  match a.map Node.payload with
  | some (.attr { uri := none, value := .literal _, .. }) => true
  | _ => false

/-- Whether a node can stand in a steady template, below its document. -/
def isSteadyNode (id : Int) (self : Option Node) (attributes : List (Option Node)) : Bool :=
  match self.map Node.payload with
  | some .text | some (.cdata _) => true
  | some (.element e) =>
    match e.uri with
    | none => attributes.all isFixedAttribute
    | some u => u == id && (["template", "extend", "load"] : List Text).contains e.name
  | _ => false

/-- What a node of a steady template can be: it concerns no instruction, or it is an element that
belongs to a template. -/
theorem isInert_or_isNamed (h : isSteadyNode id (s.loose n) ((s.attributes n).map s.loose)) :
    s.IsInert n ∨ isNamed s n id ["template", "extend", "load"] := by
  rw [isSteadyNode, payload_loose] at h
  cases hpay : s.payload? n with
  | none => simp [hpay] at h
  | some payload =>
    rw [hpay] at h
    cases payload with
    | text => exact .inl (.text hpay)
    | cdata t => exact .inl (.cdata hpay)
    | element e =>
      simp only [Option.map_some, Tree.Payload.loose] at h
      cases huri : e.uri with
      | some u => exact .inr (by simpa [isNamed, Store.element?, hpay, huri] using h)
      | none =>
        refine .inl (.element hpay huri fun a ha => ?_)
        have hfixed : isFixedAttribute (s.loose a) := by
          simp only [huri, List.all_map, List.all_eq_true] at h
          exact h a ha
        rw [isFixedAttribute, payload_loose] at hfixed
        rw [Store.attr?]
        cases hattr : s.payload? a with
        | none => simp [hattr] at hfixed
        | some payload =>
          rw [hattr] at hfixed
          cases payload with
          | attr data =>
            rcases data with ⟨q, name, uri, value, owner⟩
            cases uri with
            | some u => simp [Tree.Payload.loose] at hfixed
            | none =>
              cases value with
              | literal t => exact ⟨_, t, rfl, rfl, rfl⟩
              | expression => simp [Tree.Payload.loose] at hfixed
          | _ => simp [Tree.Payload.loose] at hfixed
    | _ => simp [Tree.Payload.loose] at h

/-! ### Contents -/

/-- A content in which nothing but loading is left to be done. -/
def Steady (id : Int) (c : Content) : Prop :=
  ∀ x ∈ c.parts, isSteadyNode id x.self x.attributes

/-- A content in which nothing is left to be done. -/
def Ripe (id : Int) (c : Content) : Prop :=
  ∀ x ∈ c.parts, isSteadyNode id x.self x.attributes ∧ roleOf id x.self ≠ .loads

theorem steady_node : Steady id (.node self attributes below) ↔
    isSteadyNode id self attributes ∧ ∀ c ∈ below, Steady id c := by
  simp only [Steady, Content.mem_parts_node, forall_eq_or_imp, forall_exists_index, and_imp]
  exact and_congr_right fun _ => ⟨fun h c hc x hx => h x c hc hx, fun h x c hc hx => h c hc x hx⟩

theorem ripe_node : Ripe id (.node self attributes below) ↔
    (isSteadyNode id self attributes ∧ roleOf id self ≠ .loads) ∧ ∀ c ∈ below, Ripe id c := by
  simp only [Ripe, Content.mem_parts_node, forall_eq_or_imp, forall_exists_index, and_imp]
  exact and_congr_right fun _ => ⟨fun h c hc x hx => h x c hc hx, fun h x c hc hx => h c hc x hx⟩

theorem Ripe.steady (h : Ripe id c) : Steady id c := fun x hx => (h x hx).1

/-- Whether a node is visible makes no difference to what it is. -/
theorem roleOf_visible :
    roleOf id (self.map fun n => { n with visible := true }) = roleOf id self := by
  cases self <;> rfl

theorem isSteadyNode_visible :
    isSteadyNode id (self.map fun n => { n with visible := true }) attributes =
    isSteadyNode id self attributes := by
  cases self <;> rfl

theorem ripe_revealed (h : Ripe id c) : Ripe id c.revealed := by
  intro x hx
  rw [Content.parts_revealed] at hx
  obtain ⟨y, hy, rfl⟩ := List.mem_map.mp hx
  rw [Content.self_revealed, Content.attributes_revealed, roleOf_visible, isSteadyNode_visible]
  exact h y hy

/-! ### What takes the place of what -/

/-- The name of the template that a `load` asks for. -/
def loadOf (d : Dialect) (self : Option Node) (attributes : List (Option Node)) : Option Text :=
  (extractOf d self attributes [loadSpec] none).toOption.map (·.text "template")

theorem loadOf_visible : loadOf d (self.map fun n => { n with visible := true }) attributes =
    loadOf d self attributes := by
  cases self <;> rfl

/-- Of what is visible, both contents say the same. -/
theorem exists_part_of_revealed (d : Dialect) (id : Int) {y : Content}
    (h : x.revealed = c.revealed) (hy : y ∈ c.parts) :
    ∃ w ∈ x.parts, roleOf id w.self = roleOf id y.self ∧ w.attributes = y.attributes ∧
      isSteadyNode id w.self w.attributes = isSteadyNode id y.self y.attributes ∧
      loadOf d w.self w.attributes = loadOf d y.self y.attributes := by
  have hmem : y.revealed ∈ x.revealed.parts := by
    rw [h, Content.parts_revealed]
    exact List.mem_map_of_mem hy
  rw [Content.parts_revealed] at hmem
  obtain ⟨w, hw, heq⟩ := List.mem_map.mp hmem
  have hself := congrArg Content.self heq
  have hattrs := congrArg Content.attributes heq
  rw [Content.self_revealed, Content.self_revealed] at hself
  rw [Content.attributes_revealed, Content.attributes_revealed] at hattrs
  refine ⟨w, hw, ?_, hattrs, ?_, ?_⟩
  · rw [← roleOf_visible, hself, roleOf_visible]
  · rw [← isSteadyNode_visible, hself, isSteadyNode_visible, hattrs]
  · rw [← loadOf_visible, hself, loadOf_visible, hattrs]

/-- A content with what it loads, given the contents of the templates. -/
def inlined (d : Dialect) (κ : Text → List Content) : Content → List Content
  | .node self attributes below =>
    if roleOf (namespaceIdOf d) self = .loads then ((loadOf d self attributes).map κ).getD []
    else [.node self attributes (below.map (inlined d κ)).flatten]

theorem inlined_node : inlined d κ (.node self attributes below) =
    if roleOf (namespaceIdOf d) self = .loads then ((loadOf d self attributes).map κ).getD []
    else [.node self attributes (below.flatMap (inlined d κ))] := by
  rw [inlined]
  rfl

/-- A content stays as it is where nothing is loaded. -/
theorem inlined_of_ripe (h : ∀ x ∈ c.parts, roleOf (namespaceIdOf d) x.self ≠ .loads) :
    inlined d κ c = [c] := by
  induction c with
  | node self attributes below ih =>
    have hbelow : below.flatMap (inlined d κ) = below.flatMap ([·]) :=
      List.flatMap_congr fun b hb => ih b hb fun x hx =>
        h x (Content.mem_parts_node.mpr (.inr ⟨b, hb, hx⟩))
    have hself : roleOf (namespaceIdOf d) self ≠ .loads := h _ (Content.mem_parts _)
    rw [inlined_node, if_neg hself, hbelow, List.flatMap_singleton']

/-- **Nothing is left to be done** where finished templates were put in place. -/
theorem ripe_of_mem_inlined (hκ : ∀ z, ∀ x ∈ κ z, Ripe (namespaceIdOf d) x)
    (hc : Steady (namespaceIdOf d) c) (hx : x ∈ inlined d κ c) : Ripe (namespaceIdOf d) x := by
  induction c generalizing x with
  | node self attributes below ih =>
    obtain ⟨hself, hbelow⟩ := steady_node.mp hc
    rw [inlined_node] at hx
    split at hx
    · cases hz : loadOf d self attributes with
      | none => simp [hz] at hx
      | some z =>
        rw [hz] at hx
        exact hκ z x hx
    · rename_i hrole
      rw [List.mem_singleton.mp hx, ripe_node]
      refine ⟨⟨hself, hrole⟩, fun y hy => ?_⟩
      obtain ⟨b, hb, hy⟩ := List.mem_flatMap.mp hy
      exact ih b hb (hbelow b hb) hy

/-- **What is visible makes no difference** to what is loaded, if all of that is visible. -/
theorem revealed_inlined (hκ : ∀ z, (κ z).map Content.revealed = κ z) :
    (inlined d κ c).map Content.revealed = inlined d κ c.revealed := by
  induction c with
  | node self attributes below ih =>
    rw [Content.revealed_node, inlined_node, inlined_node, roleOf_visible, loadOf_visible]
    split
    · cases loadOf d self attributes with
      | none => rfl
      | some z => exact hκ z
    · rw [List.map_singleton, Content.revealed_node, List.map_flatMap, List.flatMap_map]
      congr 2
      exact List.flatMap_congr ih

/-! ### What others get of a template -/

/-- Whether a node can be the root of a template that refers to others. -/
def isRootNode (id : Int) (self : Option Node) : Bool :=
  match self.map Node.payload with
  | some (.element e) => e.uri == some id && (["template", "extend"] : List Text).contains e.name
  | _ => false

/-- What others get of a template with this content. -/
def portion (id : Int) (cs : List Content) : List Content :=
  match cs.find? Content.isElement with
  | none => []
  | some root => if isRootNode id root.self then root.inner else [root]

end Language

end Stencil

/-! ## The stage that generates code, at work on a finished template

Where nothing is left to be done there is no code to be generated either: all of the tree becomes
visible, and whatever is outside of it stays as it is. -/

namespace Stencil

open Stencil.Tree (NodeId Store Node Content Shape Visitor)
open Stencil.Tree.Store (Untouched)

variable {env : Stage.Environment} {s s₀ : Session} {n : NodeId} {steps : Nat} {l : List NodeId}

namespace Tree.Store

variable {t : Store} {tree : Shape} {m : NodeId}

theorem loose_setVisible : (t.setVisible n true).loose m =
    if n = m then (t.loose m).map fun x => { x with visible := true } else t.loose m := by
  rw [setVisible, loose, loose, get?_modify]
  split
  · cases t.get? m <;> rfl
  · rfl

theorem loose_revealAll : (t.revealAll l).loose m =
    if m ∈ l then (t.loose m).map fun x => { x with visible := true } else t.loose m := by
  induction l generalizing t with
  | nil => rfl
  | cons n l ih =>
    change ((t.setVisible n true).revealAll l).loose m = _
    rw [ih, loose_setVisible]
    by_cases hn : n = m
    · subst hn
      rw [if_pos rfl, if_pos List.mem_cons_self]
      cases t.loose n <;> simp
    · rw [if_neg hn]
      simp [Ne.symm hn]

section Views

variable (hw : t.WellFormed) (ho : t.Owned) (hl : ∀ m ∈ l, t.kind? m ≠ some .attr)

include hw ho hl

/-- What is seen of a node, but for what it says by itself. -/
theorem view_revealAll : (t.revealAll l).view m =
    { t.view m with self := (t.revealAll l).loose m } := by
  have hchildren : (t.revealAll l).children = t.children :=
    (hw.linked.congr growth_revealAll.links).children_eq
  refine View.ext rfl ?_ (congrFun hchildren m)
  change ((t.revealAll l).attributes m).map (t.revealAll l).loose = (t.attributes m).map t.loose
  rw [attributes_congr payload?_revealAll]
  refine List.map_congr_left fun a ha => ?_
  rw [loose_revealAll, if_neg fun hmem => hl a hmem (ho.kind m a ha)]

/-- **What is outside looks as it did.** -/
theorem untouched_revealAll : Untouched (· ∈ l) t (t.revealAll l) :=
  .of_view growth_revealAll.kind? fun m _ _ hm => by
    rw [view_revealAll hw ho hl, loose_revealAll, if_neg hm]
    rfl

/-- **What a tree says** once all of it is visible. -/
theorem Shaped.content_revealAll (hsub : ∀ m ∈ tree.ids, m ∈ l) :
    tree.content (t.revealAll l) = (tree.content t).revealed := by
  induction tree with
  | node n below ih =>
    rw [Shape.ids_node, List.forall_mem_cons] at hsub
    rw [Shape.content_node, Shape.content_node, Content.revealed_node, List.map_map,
      view_revealAll hw ho hl, loose_revealAll, if_pos hsub.1]
    congr 1
    exact List.map_congr_left fun x hx =>
      ih x hx fun m hm => hsub.2 m (List.mem_flatMap.mpr ⟨x, hx, hm⟩)

end Views

end Tree.Store

theorem Session.foldl_reveal :
    l.foldl Session.reveal s = { s with store := s.store.revealAll l } := by
  induction l generalizing s with
  | nil => rfl
  | cons n l ih => exact ih

namespace Language

/-- A node of a finished template concerns no instruction, or is an element that stands for what is
below it. -/
def IsShown (id : Int) (t : Store) (n : NodeId) : Prop :=
  t.IsInert n ∨ isNamed t n id ["template", "extend"]

/-- Nothing is left to be done at such nodes. -/
theorem isShown_of_view {id : Int} {t : Store}
    (h : isSteadyNode id (t.loose n) ((t.attributes n).map t.loose))
    (hrole : roleOf id (t.loose n) ≠ .loads) : IsShown id t n := by
  refine (isInert_or_isNamed h).imp_right fun hnamed => ?_
  rw [isNamed] at hnamed ⊢
  split at hnamed
  · rename_i e he
    obtain ⟨huri, hname⟩ : e.uri = some id ∧
        e.name ∈ (["template", "extend", "load"] : List Text) := by
      simpa using hnamed
    rw [roleOf, payload_loose, Store.payload?_of_element? he] at hrole
    simp only [Option.map_some, Tree.Payload.loose, huri, if_pos] at hrole
    simp only [List.mem_cons, List.not_mem_nil, or_false] at hname
    rcases hname with hname | hname | hname
    · simp [huri, hname]
    · simp [huri, hname]
    · exact absurd (by rw [hname]; rfl) hrole
  · cases hnamed

section Processing

variable (henv : Marking env) (hw : s₀.store.WellFormed)

include henv hw

/-- An element that stands for what is below it. -/
theorem process_named (hc : Stage.Calm s₀ s)
    (hn : isNamed s₀.store n (namespaceIdOf env.dialect) ["template", "extend"]) :
    Stage.process env n s = (.ok (s₀.store.queue? n), s.reveal n) := by
  have helement : s.store.element? n = s₀.store.element? n := Store.element?_congr (hc.payload? n)
  rw [isNamed, ← helement] at hn
  split at hn
  · rename_i e he
    obtain ⟨huri, hname⟩ : e.uri = some (namespaceIdOf env.dialect) ∧
        e.name ∈ (["template", "extend"] : List Text) := by simpa using hn
    have hlookup : (printingTable env.dialect).lookup e.name = some { enter := fun e => do
        Work.setVisible e true
        Work.enqueueChildren e } := by
      simp only [List.mem_cons, List.not_mem_nil, or_false] at hname
      rcases hname with hname | hname <;> rw [hname] <;> rfl
    have hhooks : Stage.elementHooks? env .processing n s = (.ok (some { enter := fun e => do
        Work.setVisible e true
        Work.enqueueChildren e }), s) := by
      rw [elementHooks?_apply, he, Option.bind_some, henv.element?, if_pos huri, hlookup]
    have henter : (do
        Work.setVisible n true
        Work.enqueueChildren n) s = (.ok (s₀.store.queue? n), s.reveal n) := by
      rw [Action.bind_ok (show Work.setVisible n true s = (.ok (), s.reveal n) from rfl)]
      exact hc.reveal.enqueueChildren hw
    rw [Stage.process, Action.bind_ok (show Work.store s = (.ok s.store, s) from rfl),
      Store.payload?_of_element? he]
    dsimp only
    rw [if_pos (by rw [huri]; rfl), Stage.enterInstruction, Action.bind_ok hhooks]
    dsimp only
    rw [Work.atNode, henter]
  · cases hn

/-- **A node at which nothing is left to be done** becomes visible. -/
theorem processing_shows (hn : IsShown (namespaceIdOf env.dialect) s₀.store n) :
    Visitor.Follows (Stage.processing env) s₀.store (fun _ => true) Session.reveal
      (Stage.Calm s₀) n := by
  rcases hn with hinert | hnamed
  · exact Stage.processing_follows hw hinert
  refine ⟨fun s _ => by simp [Visitor.skips, Stage.processing], fun s hc => ?_,
    fun s hc => hc.leave, fun s hc => hc.reveal⟩
  obtain ⟨e, he⟩ := Option.isSome_iff_exists.mp (isElement_of_isNamed hnamed)
  have hpay := (hc.payload? n).trans (Store.payload?_of_element? he)
  have hvisit : (Stage.processing env).visit n s = Stage.process env n s := by
    rw [Visitor.visit, show (Stage.processing env).store s = s.store from rfl, hpay]
    rfl
  rw [hvisit, if_pos rfl]
  exact process_named henv hw hc hnamed

end Processing

/-- **The stage that generates code**, at work on a finished template. -/
theorem run_processing {tree : Shape} (henv : Marking env) (hw : s.store.WellFormed)
    (hraised : ∀ m, s.raised m = false) (ht : s.store.Shaped tree)
    (hshown : ∀ m ∈ tree.ids, IsShown (namespaceIdOf env.dialect) s.store m)
    (hsteps : 2 * tree.ids.length < steps) :
    Stage.run env .processing steps tree.root s = some (.ok (), { s with
      store := s.store.revealAll tree.ids
      trace := .finish StageKind.processing.name ::
        .start StageKind.processing.name :: s.trace }) := by
  have hstart : Stage.Calm s { s with trace := .start StageKind.processing.name :: s.trace } :=
    ⟨.refl _, fun _ => rfl, hraised⟩
  have hloop := Visitor.loop_shape (v := Stage.visitor env .processing) hw ht
    (fun m hm => processing_shows henv hw (hshown m hm)) hstart
  rw [Shape.visited_of_all fun _ _ => rfl, Session.foldl_reveal] at hloop
  exact Stage.run_of_loop hsteps hloop

end Language

end Stencil
