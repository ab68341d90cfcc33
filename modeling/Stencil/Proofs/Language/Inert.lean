import Stencil.Proofs.Code.Rendering
import Stencil.Proofs.Language.Registry
import Stencil.Proofs.Language.Loads
import Stencil.Proofs.Tree.Rereading

/-!
# Stages at work on inert trees

A tree with nothing but its document, elements and attributes outside of all registered namespaces,
literal values and character data gives the stages nothing to do. The stage that changes the tree
walks over it and leaves everything as it was, and the stage that generates code only makes all
nodes visible.

## Main definitions

* `Shape.visited` – the nodes that a walk along the children comes to
* `Store.IsInert` – a node that concerns no instruction
* `Session.reveal`, `Store.revealAll` – nodes made visible

## Main results

* `Visitor.loop_shape` – a walk along the children
* `Stage.run_manipulation`, `Stage.run_processing` – the stages
-/

namespace Stencil.Tree

/-! ### Walks along the children -/

/-- The nodes that are visited in order, if the children of some of them are left out. -/
def Shape.visited (descends : NodeId → Bool) : Shape → List NodeId
  | node n below => n :: if descends n then below.flatMap (visited descends) else []

theorem Shape.visited_node (descends : NodeId → Bool) (n : NodeId) (below : List Shape) :
    (node n below).visited descends =
      n :: if descends n then below.flatMap (visited descends) else [] := by
  rw [visited]

theorem Shape.visited_of_all {descends : NodeId → Bool} {t : Shape}
    (h : ∀ n ∈ t.ids, descends n) : t.visited descends = t.ids := by
  induction t with
  | node n below ih =>
    rw [ids_node, List.forall_mem_cons] at h
    rw [visited_node, ids_node, if_pos h.1]
    congr 1
    refine List.flatMap_congr fun t ht => ih t ht fun m hm => ?_
    exact h.2 m (List.mem_flatMap.mpr ⟨t, ht, hm⟩)

namespace Visitor

variable {ε σ : Type} {v : Visitor ε σ} {s₀ : Store} {descends : NodeId → Bool}
  {change : σ → NodeId → σ} {I : σ → Prop} {t : Shape} {s : σ}

/-- What a visitor does at a node whose children are visited or left out: entering it changes the
state, and leaving it does nothing. -/
structure Follows (v : Visitor ε σ) (s₀ : Store) (descends : NodeId → Bool)
    (change : σ → NodeId → σ) (I : σ → Prop) (n : NodeId) : Prop where
  skips (s : σ) : I s → ¬ v.skips n s
  visit (s : σ) : I s → v.visit n s = (.ok (if descends n then s₀.queue? n else none), change s n)
  leave (s : σ) : I s → v.leave n s = (.ok (), s)
  keeps (s : σ) : I s → I (change s n)

theorem Follows.foldl_keeps {l : List NodeId}
    (h : ∀ n ∈ l, Follows v s₀ descends change I n) (hs : I s) : I (l.foldl change s) := by
  induction l generalizing s with
  | nil => exact hs
  | cons n l ih =>
    obtain ⟨hn, h⟩ := List.forall_mem_cons.mp h
    exact ih h (hn.keeps s hs)

theorem visited_subset {n : NodeId} (h : n ∈ t.visited descends) : n ∈ t.ids := by
  induction t with
  | node m below ih =>
    rw [Shape.visited_node] at h
    rw [Shape.ids_node]
    rcases List.mem_cons.mp h with rfl | h
    · exact List.mem_cons_self
    · split at h
      · obtain ⟨t, ht, h⟩ := List.mem_flatMap.mp h
        exact List.mem_cons_of_mem _ (List.mem_flatMap.mpr ⟨t, ht, ih t ht h⟩)
      · cases h

/-- **A walk along the children** comes to the nodes of the tree in order, in at most two steps for
each. -/
theorem loop_shape (hw : s₀.WellFormed) (ht : s₀.Shaped t)
    (h : ∀ n ∈ t.ids, Follows v s₀ descends change I n) (hs : I s) :
    ∃ k ≤ 2 * t.ids.length, ∀ steps queue stack,
      v.loop (steps + k) (t.root :: queue) stack s =
        v.loop steps queue stack ((t.visited descends).foldl change s) := by
  induction t generalizing s with
  | node n below ih =>
    rw [Shape.ids_node, List.forall_mem_cons] at h
    obtain ⟨hn, h⟩ := h
    cases ht with
    | node hroots hbelow =>
    rw [Shape.ids_node, List.length_cons, Shape.visited_node, List.foldl_cons]
    have hvisit := hn.visit s hs
    have hcount : s₀.hasChildren n = !below.isEmpty := by
      rw [Store.hasChildren, hw.linked.count, ← hroots]
      cases below <;> rfl
    by_cases hqueue : descends n ∧ below ≠ []
    · -- the children are visited, and then the node is left
      obtain ⟨hdescends, hne⟩ := hqueue
      have hall : ∀ (ts : List Shape) (s : σ), (∀ t ∈ ts, t ∈ below) → I s →
          ∃ k ≤ 2 * (ts.flatMap Shape.ids).length, ∀ steps queue stack,
            v.loop (steps + k) (ts.map Shape.root ++ queue) stack s =
              v.loop steps queue stack ((ts.flatMap (Shape.visited descends)).foldl change s) := by
        intro ts
        induction ts with
        | nil => exact fun s _ _ => ⟨0, Nat.zero_le _, fun _ _ _ => rfl⟩
        | cons t ts ih' =>
          intro s hts hs
          obtain ⟨ht, hts⟩ := List.forall_mem_cons.mp hts
          have hids : ∀ m ∈ t.ids, Follows v s₀ descends change I m := fun m hm =>
            h m (List.mem_flatMap.mpr ⟨t, ht, hm⟩)
          obtain ⟨k, hk, hloop⟩ := ih t ht (hbelow t ht) hids hs
          obtain ⟨k', hk', hloop'⟩ := ih' _ hts
            (Follows.foldl_keeps (fun m hm => hids m (visited_subset hm)) hs)
          refine ⟨k' + k, ?_, fun steps queue stack => ?_⟩
          · rw [List.flatMap_cons, List.length_append]
            omega
          · rw [← Nat.add_assoc, List.map_cons, List.cons_append, hloop, hloop', List.flatMap_cons,
              List.foldl_append]
      obtain ⟨k, hk, hloop⟩ := hall below _ (fun _ ht => ht) (hn.keeps s hs)
      have hinner : ∀ m ∈ below.flatMap (Shape.visited descends),
          Follows v s₀ descends change I m := by
        intro m hm
        obtain ⟨t, ht, hm⟩ := List.mem_flatMap.mp hm
        exact h m (List.mem_flatMap.mpr ⟨t, ht, visited_subset hm⟩)
      have hleave := hn.leave _ (Follows.foldl_keeps hinner (hn.keeps s hs))
      refine ⟨k + 2, by omega, fun steps queue stack => ?_⟩
      have hchildren : s₀.queue? n = some (below.map Shape.root) := by
        rw [Store.queue?, hcount, if_pos (by simpa using hne), hroots]
      rw [if_pos hdescends, show steps + (k + 2) = (steps + 1 + k) + 1 by omega,
        Shape.root, loop_visit (hn.skips s hs), hvisit, if_pos hdescends, hchildren]
      dsimp only
      rw [← List.append_nil (below.map Shape.root), hloop, loop_leave, hleave]
      rfl
    · -- the node is left at once
      have hnone : (if descends n then s₀.queue? n else none) = none := by
        split
        · rename_i hdescends
          have hempty : below = [] := not_not.mp fun hne => hqueue ⟨hdescends, hne⟩
          rw [Store.queue?, hcount, hempty]
          rfl
        · rfl
      have hrest : (if descends n then below.flatMap (Shape.visited descends) else []) = [] := by
        split
        · rename_i hdescends
          have hempty : below = [] := not_not.mp fun hne => hqueue ⟨hdescends, hne⟩
          rw [hempty]
          rfl
        · rfl
      refine ⟨1, by omega, fun steps queue stack => ?_⟩
      rw [Shape.root, loop_visit (hn.skips s hs), hvisit, hnone, hrest]
      dsimp only
      rw [hn.leave _ (hn.keeps s hs)]
      rfl

end Visitor

end Stencil.Tree

namespace Stencil

open Stencil.Tree (NodeId Store Shape Visitor)
open Stencil.Tree.Store (Growth)

namespace Tree.Store

variable {s s' : Store} {n : NodeId}

/-- The node concerns no instruction, and it holds no expression. -/
inductive IsInert (s : Store) (n : NodeId) : Prop
  | document {d : DocumentData} : s.payload? n = some (.document d) → s.IsInert n
  | text : s.payload? n = some .text → s.IsInert n
  | cdata {t : Text} : s.payload? n = some (.cdata t) → s.IsInert n
  | element {e : ElementData} : s.payload? n = some (.element e) → e.uri = none →
      (∀ a ∈ s.attributes n, ∃ d t, s.attr? a = some d ∧ d.uri = none ∧ d.value = .literal t) →
      s.IsInert n

theorem attr?_congr (h : s'.payload? n = s.payload? n) : s'.attr? n = s.attr? n := by
  rw [attr?, attr?, h]

theorem IsInert.congr (h : s.IsInert n) (hpay : ∀ m, s'.payload? m = s.payload? m) :
    s'.IsInert n := by
  cases h with
  | document h => exact .document ((hpay n).trans h)
  | text h => exact .text ((hpay n).trans h)
  | cdata h => exact .cdata ((hpay n).trans h)
  | element h huri hattrs =>
    refine .element ((hpay n).trans h) huri fun a ha => ?_
    rw [attributes_congr (hpay n)] at ha
    rw [attr?_congr (hpay a)]
    exact hattrs a ha

/-- Only containers have children. -/
theorem WellFormed.queue?_eq_none (h : s.WellFormed) (hn : s.isContainer n = false) :
    s.queue? n = none := by
  rw [Store.queue?, if_neg]
  intro hchildren
  rw [hasChildren, h.linked.count, decide_eq_true_iff] at hchildren
  obtain ⟨c, hc⟩ := List.exists_mem_of_length_pos hchildren
  have hcontainer := (h.fits c n (h.mem_children.mp hc)).isContainer
  rw [hn] at hcontainer
  cases hcontainer

theorem Growth.queue? (h : s.WellFormed) (hg : Growth s s') : s'.queue? n = s.queue? n := by
  have hchildren : s'.children = s.children := (h.linked.congr hg.links).children_eq
  have hlinks : s'.childCount n = s.childCount n := congrArg Links.count (hg.links n)
  rw [Store.queue?, Store.queue?, hchildren, hasChildren, hasChildren, hlinks]

end Tree.Store

/-- The node made visible. -/
def Session.reveal (s : Session) (n : NodeId) : Session :=
  { s with store := s.store.setVisible n true }

namespace Stage

variable {env : Environment} {k : StageKind} {s s₀ : Session} {n : NodeId} {t : Shape} {steps : Nat}

/-- The session holds the same nodes as before, up to what is visible, and no node asks to be
returned to. -/
structure Calm (s₀ s : Session) : Prop where
  growth : Growth s₀.store s.store
  payload? (n : NodeId) : s.store.payload? n = s₀.store.payload? n
  raised (n : NodeId) : s.raised n = false

theorem Calm.refl (h : ∀ n, s.raised n = false) : Calm s s := ⟨.refl _, fun _ => rfl, h⟩

theorem Calm.reveal (h : Calm s₀ s) : Calm s₀ (s.reveal n) :=
  ⟨h.growth.trans Language.growth_setVisible,
    fun _ => Language.payload?_setVisible.trans (h.payload? _), h.raised⟩

theorem Calm.takeReturn (h : Calm s₀ s) : Work.takeReturn n s = (.ok false, s) := by
  rw [Work.takeReturn_apply, Session.lower, h.raised]
  rfl

/-- Leaving a node does nothing. -/
theorem Calm.leave (h : Calm s₀ s) : Stage.leave env k n s = (.ok (), s) := by
  have helement : returnToElement env k n s = (.ok (), s) := by
    rw [returnToElement, Action.bind_ok h.takeReturn]
    rfl
  have hattr (a : NodeId) : returnToAttribute env k n a s = (.ok (), s) := by
    rw [returnToAttribute, Action.bind_ok h.takeReturn]
    rfl
  rw [Stage.leave, Action.bind_ok (show Work.store s = (.ok s.store, s) from rfl)]
  split
  · rw [leaveElement, Action.bind_ok helement,
      Action.bind_ok (show Work.store s = (.ok s.store, s) from rfl)]
    exact Action.forM_eq fun a _ => hattr a
  · rfl

theorem Calm.enqueueChildren (hw : s₀.store.WellFormed) (h : Calm s₀ s) :
    Work.enqueueChildren n s = (.ok (s₀.store.queue? n), s) := by
  rw [← h.growth.queue? hw]
  rfl

/-- Nobody is called for the attributes of an inert element. -/
theorem attributeHooks?_eq_none {a : NodeId} {d : Tree.AttributeData}
    (ha : s.store.attr? a = some d)
    (huri : d.uri = none) : attributeHooks? env k a s = (.ok none, s) := by
  rw [Language.attributeHooks?_apply, ha, Option.bind_some, huri]
  rfl

/-! ### Changing the tree -/

/-- Whether the stage that changes the tree visits the children of a node. -/
def descends (s : Store) (n : NodeId) : Bool :=
  match s.payload? n with
  | some (.document _) | some (.element _) => true
  | _ => false

theorem offerAttributes_eq (h : ∀ a ∈ s.store.attributes n, ∃ d t,
    s.store.attr? a = some d ∧ d.uri = none ∧ d.value = .literal t) :
    offerAttributes env n s = (.ok (), s) := by
  rw [offerAttributes, Action.bind_ok (show Work.store s = (.ok s.store, s) from rfl)]
  refine Action.forM_eq fun a ha => ?_
  obtain ⟨d, t, hd, huri, -⟩ := h a ha
  rw [Action.bind_ok (attributeHooks?_eq_none hd huri)]
  rfl

/-- Entering an inert node does nothing but to ask for its children. -/
theorem manipulate_eq (hw : s.store.WellFormed) (hc : Calm s s) (hn : s.store.IsInert n) :
    manipulate env n s =
      (.ok (if descends s.store n then s.store.queue? n else none), s) := by
  rw [manipulate, Action.bind_ok (show Work.store s = (.ok s.store, s) from rfl)]
  cases hn with
  | document h =>
    simp only [h, descends]
    exact hc.enqueueChildren hw
  | element h huri hattrs =>
    simp only [h, descends, huri]
    change (offerAttributes env n >>= fun _ => Work.enqueueChildren n) s = _
    rw [Action.bind_ok (offerAttributes_eq hattrs)]
    exact hc.enqueueChildren hw
  | text h | cdata h =>
    simp only [h, descends]
    rfl

/-- An inert node is no attribute, so that it can be visited. -/
theorem visit_eq {v : Visitor Failure Session} (hstore : v.store = Session.store)
    (hn : s.store.IsInert n) : v.visit n s = v.enter n s := by
  rw [Visitor.visit, hstore]
  cases hn with
  | _ h => simp only [h]

theorem manipulation_follows (hw : s.store.WellFormed) (hc : Calm s s) (hn : s.store.IsInert n) :
    Visitor.Follows (manipulation env) s.store (descends s.store) (fun s _ => s) (· = s) n where
  skips s' _ := by simp [Visitor.skips, manipulation]
  visit s' hs := by
    subst hs
    rw [visit_eq rfl hn]
    exact manipulate_eq hw hc hn
  leave s' hs := by
    subst hs
    exact hc.leave
  keeps _ h := h

/-! ### Generating code -/

theorem processAttributes_eq (h : ∀ a ∈ s.store.attributes n, ∃ d t,
    s.store.attr? a = some d ∧ d.uri = none ∧ d.value = .literal t) :
    processAttributes env n s = (.ok (), s) := by
  rw [processAttributes, Action.bind_ok (show Work.store s = (.ok s.store, s) from rfl)]
  refine Action.forM_eq fun a ha => ?_
  obtain ⟨d, t, hd, huri, hvalue⟩ := h a ha
  rw [Action.bind_ok (attributeHooks?_eq_none hd huri)]
  change processValue env a s = _
  rw [processValue, Action.bind_ok (show Work.store s = (.ok s.store, s) from rfl), hd,
    Option.map_some, hvalue]
  rfl

/-- Entering an inert node makes it visible and asks for its children. -/
theorem process_eq (hw : s₀.store.WellFormed) (hc : Calm s₀ s) (hn : s₀.store.IsInert n) :
    process env n s = (.ok (s₀.store.queue? n), s.reveal n) := by
  have hvisible : Work.setVisible n true s = (.ok (), s.reveal n) := rfl
  have hchildren := (hc.reveal (n := n)).enqueueChildren (n := n) hw
  rw [process, Action.bind_ok (show Work.store s = (.ok s.store, s) from rfl), hc.payload?]
  cases hn with
  | document h | text h =>
    simp only [h]
    rw [Action.bind_ok hvisible]
    exact hchildren
  | cdata h =>
    simp only [h]
    rw [Action.bind_ok hvisible, hw.queue?_eq_none (by rw [Store.isContainer, h]; rfl)]
    rfl
  | @element e h huri hattrs =>
    simp only [h, huri]
    change (Work.setVisible n true >>= fun _ => processAttributes env n >>= fun _ =>
      Work.enqueueChildren n) s = _
    have hpay := (hc.reveal (n := n)).payload?
    have hattrs' : ∀ a ∈ (s.reveal n).store.attributes n, ∃ d t,
        (s.reveal n).store.attr? a = some d ∧ d.uri = none ∧ d.value = .literal t := by
      intro a ha
      rw [Store.attributes_congr (hpay n)] at ha
      rw [Store.attr?_congr (hpay a)]
      exact hattrs a ha
    rw [Action.bind_ok hvisible, Action.bind_ok (processAttributes_eq hattrs')]
    exact hchildren

theorem processing_follows (hw : s₀.store.WellFormed) (hn : s₀.store.IsInert n) :
    Visitor.Follows (processing env) s₀.store (fun _ => true) Session.reveal (Calm s₀) n where
  skips s _ := by simp [Visitor.skips, processing]
  visit s hc := by
    rw [visit_eq rfl (hn.congr hc.payload?), if_pos rfl]
    exact process_eq hw hc hn
  leave s hc := hc.leave
  keeps s hc := hc.reveal

end Stage

/-! ### The stages -/

/-- Nodes made visible. -/
def Tree.Store.revealAll (s : Store) (l : List NodeId) : Store :=
  l.foldl (fun s n => s.setVisible n true) s

namespace Tree.Store

variable {t t' : Store} {tree : Shape} {l : List NodeId} {n : NodeId}

theorem payload?_revealAll : (t.revealAll l).payload? n = t.payload? n := by
  induction l generalizing t with
  | nil => rfl
  | cons m l ih => exact ih.trans Language.payload?_setVisible

theorem growth_revealAll : Growth t (t.revealAll l) := by
  induction l generalizing t with
  | nil => exact .refl t
  | cons m l ih => exact Language.growth_setVisible.trans ih

theorem Shaped.growth {t' : Store} (ht : t.Shaped tree) (hw : t.WellFormed) (hg : Growth t t') :
    t'.Shaped tree := by
  have hchildren : t'.children = t.children := (hw.linked.congr hg.links).children_eq
  induction ht with
  | node hroots _ ih => exact .node (hroots.trans (congrFun hchildren _).symm) ih

end Tree.Store

/-- The session holds the given nodes and nothing about them, and the work goes on. -/
structure Session.Bare (s : Session) (t : Store) : Prop where
  store : s.store = t
  buffers : s.buffers = {}
  properties : s.properties = {}
  canceled : s.canceled = false

namespace Session

variable {s : Session} {t : Store} {l : List NodeId}

theorem Bare.raised (h : s.Bare t) (n : NodeId) : s.raised n = false := by
  rw [Session.raised, h.properties]
  rfl

theorem Bare.reveal {n : NodeId} (h : s.Bare t) : (s.reveal n).Bare (t.setVisible n true) :=
  { h with store := congrArg (·.setVisible n true) h.store }

theorem Bare.revealAll (h : s.Bare t) : (l.foldl Session.reveal s).Bare (t.revealAll l) := by
  induction l generalizing s t with
  | nil => exact h
  | cons n l ih => exact ih h.reveal

theorem Bare.recorded (h : s.Bare t) (r : TraceRecord) :
    Session.Bare { s with trace := r :: s.trace } t :=
  ⟨h.store, h.buffers, h.properties, h.canceled⟩

end Session

namespace Stage

variable {env : Environment} {s : Session} {tree : Shape} {t : Store} {steps : Nat}

/-- A walk that was followed, as a stage at work. -/
theorem run_of_loop {k : StageKind} {size : Nat} {n : NodeId} {s' : Session}
    (hsteps : 2 * size < steps)
    (h : ∃ m ≤ 2 * size, ∀ steps queue stack, (visitor env k).loop (steps + m) (n :: queue) stack
      { s with trace := .start k.name :: s.trace } = (visitor env k).loop steps queue stack s') :
    run env k steps n s = some (.ok (), { s' with trace := .finish k.name :: s'.trace }) := by
  obtain ⟨m, hm, hloop⟩ := h
  obtain ⟨rest, rfl⟩ : ∃ rest, steps = rest + 1 + m := ⟨steps - 1 - m, by omega⟩
  rw [run, Visitor.walk, hloop (rest + 1) [] []]
  rfl

variable (env) in
/-- **Nothing is changed in an inert tree.** -/
theorem run_manipulation (hs : s.Bare t) (hw : t.WellFormed) (ht : t.Shaped tree)
    (hinert : ∀ n ∈ tree.ids, t.IsInert n) (hsteps : 2 * tree.ids.length < steps) :
    ∃ s', run env .manipulation steps tree.root s = some (.ok (), s') ∧ s'.Bare t := by
  have hstarted := hs.recorded (.start StageKind.manipulation.name)
  have hrun {s' : Session} := @run_of_loop env s steps .manipulation _ tree.root s' hsteps
  generalize ({ s with trace := _ } : Session) = x at hstarted hrun
  obtain rfl := hstarted.store
  refine ⟨_, hrun (Visitor.loop_shape (I := (· = x)) hw ht (fun n hn =>
    manipulation_follows hw (.refl hstarted.raised) (hinert n hn)) rfl), ?_⟩
  have hsame {l : List NodeId} {s : Session} : l.foldl (fun s _ => s) s = s := by
    induction l generalizing s with
    | nil => rfl
    | cons n l ih => exact ih
  rw [hsame]
  exact hstarted.recorded _

variable (env) in
/-- **No code is generated for an inert tree**, which becomes visible. -/
theorem run_processing (hs : s.Bare t) (hw : t.WellFormed) (ht : t.Shaped tree)
    (hinert : ∀ n ∈ tree.ids, t.IsInert n) (hsteps : 2 * tree.ids.length < steps) :
    ∃ s', run env .processing steps tree.root s = some (.ok (), s') ∧
      s'.Bare (t.revealAll tree.ids) := by
  have hstarted := hs.recorded (.start StageKind.processing.name)
  have hrun {s' : Session} := @run_of_loop env s steps .processing _ tree.root s' hsteps
  generalize ({ s with trace := _ } : Session) = x at hstarted hrun
  obtain rfl := hstarted.store
  refine ⟨_, hrun (Visitor.loop_shape hw ht (fun n hn => processing_follows hw (hinert n hn))
    (.refl hstarted.raised)), ?_⟩
  rw [Shape.visited_of_all fun _ _ => rfl]
  exact hstarted.revealAll.recorded _

end Stage

end Stencil
