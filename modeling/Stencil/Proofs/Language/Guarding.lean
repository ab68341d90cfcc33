import Stencil.Proofs.Language.Guards

/-!
# Definitions survive the stage that changes the tree

Every step of a walk of the stage that changes the tree keeps definitions apart from what is still
to be visited. A definition that is in the table before the step and after it therefore holds what
it held, whatever is expanded, loaded, copied or disposed of in between.

So every use of a name is replaced by what its first definition holds (`use_expands`).

## Main definitions

* `Session.Remembers`, `Session.Spares` – what is defined before and after keeps what it holds
* `Walk.pending` – the nodes that a walk is still going to visit

## Main results

* `Language.manipulate_guards`, `Language.leave_guards` – entering and leaving a node
* `Language.manipulation_guards` – one step of the walk
* `Language.use_expands` – uses
-/

namespace Stencil

open Stencil.Tree (NodeId Store NodeKind Content Visitor Walk)
open Stencil.Tree.Store (Untouched)
open Stencil.Language (isNamed namespaceIdOf)

variable {env : Stage.Environment} {s s' s'' : Session} {id : Int}
  {l : List NodeId} {n a b : NodeId}
  {name : Text} {ignore : Bool} {c : Content}

namespace Session

/-- A definition is not forgotten: while it is in the table, it keeps what it holds. Nothing but
default content leaves the table, and that does not come back. -/
structure Remembers (b : NodeId) (s s' : Session) : Prop where
  tag? (tag : NodeKind × Option Int × Text) : s.store.tag? b = some tag → s'.store.tag? b = some tag
  stays : s.store.Qualified b → s.Defined b → s'.Defined b
  known : s.store.Unqualified b → s'.Defined b → s.Defined b
  holds (c : Content) : s.Defined b → s'.Defined b → s.store.Holds b c → s'.store.Holds b c

/-- No definition is forgotten. -/
structure Spares (s s' : Session) : Prop where
  remembers (b : NodeId) : Remembers b s s'
  entire (n : NodeId) : s.store.Entire n → s'.store.Entire n
  documents : s'.documents = s.documents

namespace Remembers

theorem of_eq (hstore : s'.store = s.store) (hdefs : s'.definitions = s.definitions) :
    Remembers b s s' := by
  have hdefined := defined_congr hdefs
  exact ⟨fun _ h => hstore ▸ h, fun _ h => hdefined ▸ h, fun _ h => hdefined ▸ h,
    fun _ _ _ h => hstore ▸ h⟩

theorem qualified (h : Remembers b s s') (hb : s.store.Qualified b) : s'.store.Qualified b := by
  obtain ⟨k, u, name, htag⟩ := hb
  exact ⟨k, u, name, h.tag? _ htag⟩

theorem unqualified (h : Remembers b s s') (hb : s.store.Unqualified b) :
    s'.store.Unqualified b := by
  obtain ⟨k, name, htag⟩ := hb
  exact ⟨k, name, h.tag? _ htag⟩

/-- What is defined at both ends is defined all the way. -/
theorem defined (h₁ : Remembers b s s') (h₂ : Remembers b s' s'') (hhas : s.store.Has b)
    (hb : s.Defined b) (hb'' : s''.Defined b) : s'.Defined b := by
  rcases Store.Has.qualified_or_unqualified hhas with hq | hu
  · exact h₁.stays hq hb
  · exact h₂.known (h₁.unqualified hu) hb''

theorem trans (hhas : s.Defined b → s.store.Has b) (h₁ : Remembers b s s')
    (h₂ : Remembers b s' s'') :
    Remembers b s s'' where
  tag? tag h := h₂.tag? tag (h₁.tag? tag h)
  stays hq h := h₂.stays (h₁.qualified hq) (h₁.stays hq h)
  known hu h := h₁.known hu (h₂.known (h₁.unqualified hu) h)
  holds c hb hb'' h := by
    have hb' := h₁.defined h₂ (hhas hb) hb hb''
    exact h₂.holds c hb' hb'' (h₁.holds c hb hb' h)

end Remembers

theorem Guards.has_of_defined (g : s.Guards id l) (hb : s.Defined b) : s.store.Has b :=
  (g.placeable (.inl hb)).has

@[refl] protected theorem Spares.refl (s : Session) : s.Spares s :=
  ⟨fun _ => .of_eq rfl rfl, fun _ h => h, rfl⟩

theorem Spares.trans (g : s.Guards id l) (h₁ : s.Spares s') (h₂ : s'.Spares s'') :
    s.Spares s'' where
  remembers b := (h₁.remembers b).trans g.has_of_defined (h₂.remembers b)
  entire n h := h₂.entire n (h₁.entire n h)
  documents := h₂.documents.trans h₁.documents

theorem Retains.spares (h : s.Retains s') : s.Spares s' :=
  ⟨fun b => ⟨h.tag? b, fun _ => h.defined b, h.known b, fun c hb _ => h.holds b c hb⟩, h.entire,
    h.documents⟩

theorem Releases.spares (h : s.Releases s') : s.Spares s' :=
  ⟨fun b => ⟨h.tag? b, h.stays b, fun _ => h.defined b, fun c _ => h.holds b c⟩,
    h.entire, h.documents⟩

/-- A definition holds something, and serves as a definition of that. -/
theorem Guards.exists_defines (g : s.Guards id l) (hb : s.Refers b) :
    ∃ body, s.store.Defines b body := by
  obtain ⟨c, hc⟩ := g.wellFormed.exists_holds b
  exact ⟨c.inner, g.placeable hb, (Store.holds_iff.mp hc).2.2⟩

end Session

namespace Language

/-! ### Uses -/

/-- **A use is replaced by what the first definition of its name holds**, unless it stands in its
own expansion. -/
theorem use_expands {bs : List NodeId} (g : s.Guards id (n :: l)) (hn : s.store.isElement n)
    (huses : name ∉ s.definitions.uses) (hdefs : s.definitions.bodiesOf name = b :: bs)
    (hc : s.store.Holds b c) : (expand n name ignore).Gives s fun r s' => r = true ∧
      (s'.Guards id (n :: l) ∧ s.Retains s') ∧
        (s'.store.children n).Forall₂ s'.store.Holds c.inner := by
  have hb : s.Refers b := .inl ⟨name, hdefs ▸ List.mem_cons_self⟩
  obtain ⟨c', hc'⟩ := g.wellFormed.exists_holds n
  refine (expand_gives g.wellFormed g.owned g.labelled hn hc' huses hdefs
    ⟨g.placeable hb, (Store.holds_iff.mp hc).2.2⟩ (g.not_below hb) (g.not_above hb)).imp
      fun r s' hs' => ?_
  obtain ⟨hr, fallback, -, hreplaced⟩ := hs'
  exact ⟨hr, g.replaced hn hreplaced, hreplaced.refilled.holds⟩

theorem expand_guards (g : s.Guards id (n :: l)) (hn : s.store.isElement n) :
    (expand n name ignore).Yields s fun _ s' => s'.Guards id (n :: l) ∧ s.Retains s' := by
  by_cases huses : name ∈ s.definitions.uses
  · refine .bind (.get ?_)
    dsimp only
    rw [if_pos (by simpa using huses)]
    exact .bind Work.fail_yields
  cases hdefs : s.definitions.bodiesOf name with
  | nil =>
    refine .bind (.get ?_)
    dsimp only
    rw [if_neg (by simpa using huses), hdefs]
    exact .pure ⟨g, .refl s⟩
  | cons b bs =>
    obtain ⟨c, hc⟩ := g.wellFormed.exists_holds b
    exact (use_expands g hn huses hdefs hc).yields.imp fun _ _ hs' => hs'.2.1

theorem useElement_guards {d : Dialect} (g : s.Guards id (n :: l)) (hn : s.store.isElement n) :
    (useElement d n).Yields s fun r s' =>
      r = s'.store.queue? n ∧ s'.Guards id (n :: l) ∧ s.Retains s' := by
  refine .bind (Work.extract_yields fun attrs => .bind
    ((expand_guards g hn).imp fun used s₁ hs₁ => ?_))
  split
  · -- what is noted beside the nodes does not matter
    refine .bind (Work.requestReturn_yields (.bind (Work.setProperty_yields
      (Work.enqueueChildren_yields ⟨rfl, hs₁.1.congr ?_ ?_, hs₁.2.congr ?_ ?_ ?_⟩))))
    all_goals simp
  · exact Work.enqueueChildren_yields ⟨rfl, hs₁⟩

theorem useAttribute_guards (g : s.Guards id (n :: l)) (hn : s.store.isElement n) :
    (useAttribute n a).Yields s fun _ s' => s'.Guards id (n :: l) ∧ s.Retains s' := by
  refine .bind (Work.store_yields ?_)
  dsimp only
  split
  · exact Work.fail_yields
  split
  · exact Work.fail_yields
  refine .bind ((expand_guards g hn).imp fun used s₁ hs₁ => ?_)
  split
  · refine .bind (Work.requestReturn_yields (Work.setProperty_yields
      ⟨hs₁.1.congr ?_ ?_, hs₁.2.congr ?_ ?_ ?_⟩))
    all_goals simp
  · exact .pure hs₁

theorem expandParent_guards (g : s.Guards id (n :: l)) (hn : s.store.isElement n) :
    (expandParent n).Yields s fun r s' =>
      (r = none ∨ r = s'.store.queue? n) ∧ s'.Guards id (n :: l) ∧ s.Retains s' := by
  cases hactive : s.definitions.active with
  | nil =>
    refine .bind (.get ?_)
    simp only [hactive]
    exact .pure ⟨.inl rfl, g, .refl s⟩
  | cons top rest =>
    cases hnext : (s.definitions.bodiesOf top.name)[top.index + 1]? with
    | none =>
      refine .bind (.get ?_)
      simp only [hactive, hnext]
      exact .pure ⟨.inl rfl, g, .refl s⟩
    | some b =>
      have hb : s.Refers b := .inl ⟨top.name, List.mem_of_getElem? hnext⟩
      obtain ⟨body, hbody⟩ := g.exists_defines hb
      obtain ⟨c, hc⟩ := g.wellFormed.exists_holds n
      refine ((expandParent_gives g.wellFormed g.owned g.labelled hn
        (Store.holds_iff.mp hc).2.2 hactive hnext hbody (g.not_above hb)).imp
          fun r s' hs' => ?_).yields
      exact ⟨.inr hs'.1, g.replaced hn hs'.2⟩

/-! ### Entering a node -/

/-- The node is passed over, or its children are visited next. -/
theorem guards_next {r : Option (List NodeId)} (g : s.Guards id (n :: l))
    (hr : r = none ∨ r = s.store.queue? n) : s.Guards id (r.getD [] ++ l) := by
  rcases hr with rfl | rfl
  · exact g.tail
  · rw [getD_queue? g.wellFormed]
    exact g.children

theorem define_guards {d : Dialect} (g : s.Guards id (n :: l)) (hn : s.store.isElement n)
    (hnamed : isNamed s.store n id ["macro"]) :
    (define d n).Yields s fun _ s' => s'.Guards id l ∧ s.Retains s' := by
  intro _ s' hs'
  rcases define_cases (d := d) (n := n) (t := { Table.empty with
    arguments := s.definitions.arguments? }) g.labelled fun _ =>
      rfl with ⟨f, -, hfail⟩ | ⟨x, -, -, hdone⟩
  · cases hfail.symm.trans hs'
  · cases hdone.symm.trans hs'
    exact g.defining (Store.placeable_of_isElement hn) hnamed

section Hooks

variable {data : Tree.ElementData}

theorem definitionElement_guards {d : Dialect} (g : s.Guards id (n :: l))
    (hdata : s.store.element? n = some data) (hid : data.uri = some id) :
    ((definitionElement d).enter n).Yields s fun r s' =>
      s'.Guards id (r.getD [] ++ l) ∧ s.Retains s' := by
  have hn : s.store.isElement n := by rw [Store.isElement, hdata]; rfl
  refine .bind (Work.store_yields ?_)
  dsimp only
  rw [nameOf_eq hdata]
  split
  · rename_i hname
    have hnamed : isNamed s.store n id ["macro"] := by simp [isNamed, hdata, hid, hname]
    exact .bind ((define_guards g hn hnamed).imp fun _ s' hs' => .pure hs')
  split
  · exact (useElement_guards g hn).imp fun r s' hs' => ⟨guards_next hs'.2.1 (.inr hs'.1), hs'.2.2⟩
  split
  · exact (expandParent_guards g hn).imp fun r s' hs' => ⟨guards_next hs'.2.1 hs'.1, hs'.2.2⟩
  · exact .pure ⟨g.tail, .refl s⟩

theorem enqueueChildren_guards (g : s.Guards id (n :: l)) :
    (Work.enqueueChildren n).Yields s fun r s' => s'.Guards id (r.getD [] ++ l) ∧ s.Retains s' :=
  Work.enqueueChildren_yields ⟨guards_next g (.inr rfl), .refl s⟩

theorem templateElement_guards {d : Dialect} (g : s.Guards id (n :: l)) :
    ((templateElement d).enter n).Yields s fun r s' =>
      s'.Guards id (r.getD [] ++ l) ∧ s.Retains s' := by
  refine .bind (Work.store_yields ?_)
  split
  · intro r s' hs'
    obtain ⟨-, hnodup, hnew⟩ := load_yields g.wellFormed g.owned r s' hs'
    exact g.loaded (load_handles g.wellFormed g.owned g.labelled r s' hs') hnodup hnew
  · exact enqueueChildren_guards g

end Hooks

theorem offerAttributes_guards (henv : Spoken env) (g : s.Guards id (n :: l))
    (hn : s.store.isElement n) :
    (Stage.offerAttributes env n).Yields s fun _ s' => s'.Guards id (n :: l) ∧ s.Retains s' := by
  refine .bind (Work.store_yields ?_)
  refine (Action.Yields.forM (I := fun _ s' => (s'.Guards id (n :: l) ∧ s.Retains s') ∧
    s'.store.isElement n) (fun a _ s₁ hI => ?_) _ ⟨⟨g, .refl s⟩, hn⟩).imp fun _ _ hs' => hs'.1
  obtain ⟨⟨g₁, hs₁⟩, hn₁⟩ := hI
  refine .bind (attributeHooks?_gives ?_).yields
  split
  · rename_i hooks hhooks
    obtain ⟨d, -, hhooks⟩ := Option.bind_eq_some_iff.mp hhooks
    obtain rfl := henv.attributes d.uri d.name hooks hhooks
    refine Work.atNode_yields ((useAttribute_guards g₁ hn₁).imp fun _ s₂ hs₂ => ?_)
    obtain ⟨tag, htag⟩ := Store.isElement_iff_tag?.mp hn₁
    exact ⟨⟨hs₂.1, hs₁.trans hs₂.2⟩, Store.isElement_iff_tag?.mpr ⟨tag, hs₂.2.tag? n _ htag⟩⟩
  · exact .pure ⟨⟨g₁, hs₁⟩, hn₁⟩

/-- **Entering a node.** -/
theorem manipulate_guards (henv : Spoken env) (g : s.Guards (namespaceIdOf env.dialect) (n :: l)) :
    (Stage.manipulate env n).Yields s fun r s' =>
      s'.Guards (namespaceIdOf env.dialect) (r.getD [] ++ l) ∧ s.Retains s' := by
  refine .bind (Work.store_yields ?_)
  split
  · exact enqueueChildren_guards g
  · rename_i data hpay
    have hdata : s.store.element? n = some data := by rw [Store.element?, hpay]
    split
    · refine .bind (elementHooks?_gives ?_).yields
      split
      · exact .pure ⟨g.tail, .refl s⟩
      · rename_i hooks hhooks
        rw [hdata, Option.bind_some] at hhooks
        refine Work.atNode_yields ?_
        obtain ⟨hid, rfl | rfl | rfl⟩ := henv.elements data.uri data.name hooks hhooks
        · exact definitionElement_guards g hdata hid
        · exact templateElement_guards g
        · exact enqueueChildren_guards g
    · have hn : s.store.isElement n := by rw [Store.isElement, hdata]; rfl
      refine .bind ((offerAttributes_guards henv g hn).imp fun _ s₁ hs₁ => ?_)
      exact Work.enqueueChildren_yields ⟨guards_next hs₁.1 (.inr rfl), hs₁.2⟩
  · exact .pure ⟨g.tail, .refl s⟩

/-! ### Leaving a node -/

/-- **Leaving a node.** -/
theorem leave_guards (henv : Fluent env) (g : s.Guards id l) :
    (Stage.leave env .manipulation n).Yields s fun _ s' => s'.Guards id l ∧ s.Releases s' :=
  (leave_gives henv).yields.imp fun _ _ hs' => g.closes hs'

end Language

/-! ### A walk -/

/-- The nodes that a walk is still going to visit. -/
def Tree.Walk.pending {σ : Type} (w : Walk σ) : List NodeId := w.queue ++ w.stack.flatMap (·.2)

namespace Language

/-- **One step of a walk.** -/
theorem manipulation_guards (henv : Fluent env) {w w' : Walk Session}
    (g : w.state.Guards (namespaceIdOf env.dialect) (w.pending ++ l))
    (h : (Stage.manipulation env).step w = .inr w') :
    w'.state.Guards (namespaceIdOf env.dialect) (w'.pending ++ l) ∧ w.state.Spares w'.state := by
  obtain ⟨n, s, rfl, hleave⟩ | ⟨n, rfl, -⟩ | ⟨n, queue, stack, s, rfl, hvisit, hstack⟩ |
    ⟨n, s, s', rfl, hvisit, hleave⟩ := Visitor.step_cases h
  · have g : s.Guards (namespaceIdOf env.dialect)
      (w'.pending ++ l) := by simpa [Walk.pending] using g
    obtain ⟨g', hs'⟩ := leave_guards henv g _ _ hleave
    exact ⟨g', hs'.spares⟩
  · exact ⟨Session.Guards.tail g, .refl _⟩
  · have g : s.Guards (namespaceIdOf env.dialect) (n :: (queue ++ stack.flatMap (·.2) ++ l)) := g
    obtain ⟨g', hs'⟩ := manipulate_guards henv.toSpoken g _ _ (Visitor.enter_of_visit hvisit)
    exact ⟨by simpa [Walk.pending, hstack] using g', hs'.spares⟩
  · have g : s.Guards (namespaceIdOf env.dialect) (n :: (w'.pending ++ l)) := g
    obtain ⟨g₁, hs₁⟩ := manipulate_guards henv.toSpoken g _ _ (Visitor.enter_of_visit hvisit)
    obtain ⟨g', hs'⟩ := leave_guards henv g₁ _ _ hleave
    exact ⟨g', hs₁.spares.trans g hs'.spares⟩

end Language

end Stencil
