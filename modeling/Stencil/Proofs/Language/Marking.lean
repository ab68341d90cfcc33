import Stencil.Proofs.Language.Guarding
import Stencil.Proofs.Language.Inert

/-!
# Definitions survive the stage that generates code

The stage that generates code moves nothing. At each node that it visits it makes the node visible,
and takes away attribute values that have become code; nothing of that is noticed elsewhere
(`Session.Marks`). It passes over definitions, because nobody is registered for them in this stage,
so what is below a definition is never visited. A definition therefore keeps what it holds.

## Main definitions

* `Store.Marked`, `Session.Marks` – something was noted at a node, and everything else is as it was
* `Session.Rests` – no node was touched
* `Language.Marking` – who is called while code is generated
* `Session.Clears` – the nodes to visit are not below definitions

## Main results

* `Language.process_marks` – entering a node
* `Language.processing_guards` – one step of the walk
-/

namespace Stencil

open Stencil.Tree (NodeId Store Visitor Walk)
open Stencil.Tree.Store (Growth Owned Shrinks Untouched)
open Stencil.Language (isNamed namespaceIdOf)

variable {env : Stage.Environment} {s s' s'' : Session} {id : Int} {l : List NodeId}
  {n m a b : NodeId} {name : Text}

/-! ### Marks -/

namespace Tree.Store

variable {t t' t'' : Store}

/-- Something was noted at a node. Nodes stay where they are, and only the node looks different. -/
structure Marked (t : Store) (n : NodeId) (t' : Store) : Prop where
  growth : Growth t t'
  attributes (m : NodeId) : t'.attributes m = t.attributes m
  shrinks : Shrinks t t'
  untouched : Untouched (· = n) t t'
  entire (m : NodeId) : t.Entire m → t'.Entire m

/-- A node that can be visited: it is there, and is no attribute. -/
structure Visitable (t : Store) (n : NodeId) : Prop where
  wellFormed : t.WellFormed
  owned : t.Owned
  has : t.Has n
  kind? : t.kind? n ≠ some .attr

namespace Marked

protected theorem refl (t : Store) : t.Marked n t :=
  ⟨.refl t, fun _ => rfl, .refl t, .refl t, fun _ h => h⟩

protected theorem trans (h₁ : t.Marked n t') (h₂ : t'.Marked n t'') : t.Marked n t'' where
  growth := h₁.growth.trans h₂.growth
  attributes m := (h₂.attributes m).trans (h₁.attributes m)
  shrinks := h₁.shrinks.trans h₂.shrinks
  untouched := h₁.untouched.trans h₂.untouched
  entire m h := h₂.entire m (h₁.entire m h)

theorem owned (h : t.Marked n t') (ho : t.Owned) : t'.Owned := ho.congr h.growth.kind? h.attributes

theorem visitable (h : t.Marked n t') (ht : t.Visitable m) : t'.Visitable m := by
  refine ⟨ht.wellFormed.growth h.growth, h.owned ht.owned, h.growth.has ht.has, fun hk => ?_⟩
  obtain ⟨k, hm⟩ := ht.has.exists_kind?
  exact ht.kind? (hm.trans ((h.growth.kind? m k hm).symm.trans hk))

end Marked

namespace Visitable

variable (h : t.Visitable n)

include h

/-- If something is noted at a node and its attributes, and nothing moves, only the node looks
different. -/
theorem untouched (hg : Growth t t') (hattrs : ∀ m, t'.attributes m = t.attributes m)
    (hloose : ∀ m, m ≠ n → m ∉ t.attributes n → t'.loose m = t.loose m) :
    Untouched (· = n) t t' := by
  have hchildren : t'.children = t.children := (h.wellFormed.linked.congr hg.links).children_eq
  refine .of_view hg.kind? fun m _ hkind hm => view_congr ?_ (hattrs m) (fun a ha => ?_)
    (congrFun hchildren m)
  · exact hloose m hm fun hmem => hkind (h.owned.kind n m hmem)
  · refine hloose a ?_ fun hmem => hm (h.owned.unique m n a ha hmem)
    rintro rfl
    exact h.kind? (h.owned.kind m a ha)

/-- Making a node visible. -/
theorem marked_setVisible (v : Bool) : t.Marked n (t.setVisible n v) := by
  have hpay : ∀ m, (t.setVisible n v).payload? m = t.payload? m := fun _ =>
    Language.payload?_setVisible
  have hattrs : ∀ m, (t.setVisible n v).attributes m = t.attributes m := fun m =>
    attributes_congr (hpay m)
  refine ⟨Language.growth_setVisible, hattrs, .of_alike (.of_payload? hpay), ?_, fun m hm =>
    hm.of_payload? (hpay m)⟩
  refine h.untouched Language.growth_setVisible hattrs fun m hm _ => loose_congr ?_
  rw [setVisible, get?_modify, if_neg (Ne.symm hm)]

/-- Changing the value of an attribute. -/
theorem marked_setValue {v : Value} (ha : a ∈ t.attributes n) : t.Marked n (t.setValue a v) := by
  have hg : Growth t (t.setValue a v) := .modifyAttr fun _ => ⟨rfl, rfl⟩
  have hattrs : ∀ m, (t.setValue a v).attributes m = t.attributes m :=
    fun _ => attributes_modifyAttr
  refine ⟨hg, hattrs, .setValue, ?_, fun m hm => hm.of_payload? ?_⟩
  · exact h.untouched hg hattrs fun m _ hm =>
      loose_congr (get?_modifyAttr_of_ne fun hma => hm (hma ▸ ha))
  · -- a document is no attribute
    rw [setValue, payload?_modifyAttr, if_neg]
    rintro rfl
    have hkind := hm.1.symm.trans (h.owned.kind n m ha)
    cases hkind

end Visitable

end Tree.Store

/-- Something was noted at a node, and nothing else happened. -/
structure Session.Marks (s : Session) (n : NodeId) (s' : Session) : Prop where
  store : s.store.Marked n s'.store
  definitions : s'.definitions = s.definitions
  documents : s'.documents = s.documents

protected theorem Session.Marks.refl (s : Session) : s.Marks n s := ⟨.refl _, rfl, rfl⟩

/-- Nothing happened that concerns nodes, definitions or documents. -/
structure Session.Rests (s s' : Session) : Prop where
  store : s'.store = s.store
  definitions : s'.definitions = s.definitions
  documents : s'.documents = s.documents

namespace Session.Rests

protected theorem refl : s.Rests s := ⟨rfl, rfl, rfl⟩

protected theorem trans (h₁ : s.Rests s') (h₂ : s'.Rests s'') : s.Rests s'' :=
  ⟨h₂.store.trans h₁.store, h₂.definitions.trans h₁.definitions, h₂.documents.trans h₁.documents⟩

protected theorem lower : s.Rests (s.lower n) := ⟨store_lower, definitions_lower, documents_lower⟩

end Session.Rests

namespace Language

/-! ### Who is called -/

/-- While code is generated the instructions of the language are called, and no others. -/
structure Marking (env : Stage.Environment) : Prop where
  element? (uri : Option Int) (name : Text) : env.registry.element? .processing uri name =
    if uri = some (namespaceIdOf env.dialect) then (printingTable env.dialect).lookup name else none
  attributes (uri : Option Int) (name : Text) (hooks : AttributeHooks) :
    env.registry.attribute? .processing uri name = some hooks →
    hooks = conditionAttribute env.dialect

theorem marking_of_setup [Encoding.Decoders] {config : Config} {c : Compiler} {r : Registry}
    (hc : Compiler.withLanguage config = .ok c) (hr : c.setup = .ok r) :
    Marking ⟨c.dialect, r⟩ where
  element? _ _ := printing?_of_setup hc hr
  attributes uri name hooks hh := by
    obtain ⟨i, hi, f, hf, rfl⟩ := (brought_of_setup hr).attribute? hh
    obtain rfl | rfl | rfl | rfl := instruction_of_withLanguage hc hi <;> cases hf
    rfl

/-- A node was marked, and is passed over, or its children are visited next. -/
def MarksNext (n : NodeId) (s : Session) (r : Option (List NodeId)) (s' : Session) : Prop :=
  s.Marks n s' ∧ (r = none ∨ r = s.store.queue? n)

/-- Making a node visible and going on with its children. -/
theorem show_marks (hs : s.store.Visitable n) (h : s.Marks n s') : (do
    Work.setVisible n true
    Work.enqueueChildren n : Work (Option (List NodeId))).Yields s' (MarksNext n s) := by
  refine .bind (Work.modifyStore_yields (Work.enqueueChildren_yields ?_))
  have hall := h.store.trans ((h.store.visitable hs).marked_setVisible true)
  exact ⟨⟨hall, h.definitions, h.documents⟩, .inr (hall.growth.queue? hs.wellFormed)⟩

theorem printingTable_marks {d : Dialect} {hooks : ElementHooks} (hs : s.store.Visitable n)
    (h : (printingTable d).lookup name = some hooks) :
    (hooks.enter n).Yields s (MarksNext n s) := by
  have hmem := mem_of_lookup h
  simp only [printingTable, List.mem_cons, List.not_mem_nil, or_false, Prod.mk.injEq] at hmem
  rcases hmem with ⟨-, rfl⟩ | ⟨-, rfl⟩ | ⟨-, rfl⟩ | ⟨-, rfl⟩ | ⟨-, rfl⟩ | ⟨-, rfl⟩
  · exact .bind (Work.setProperty_yields (show_marks hs ⟨.refl _, rfl, rfl⟩))
  · exact .bind (Work.extract_yields fun _ => .bind (.modify (show_marks hs ⟨.refl _, rfl, rfl⟩)))
  all_goals exact show_marks hs (.refl s)

/-- Nobody does anything when a node is left. -/
theorem printingTable_leave {d : Dialect} {hooks : ElementHooks}
    (h : (printingTable d).lookup name = some hooks) : hooks.leave n = pure () := by
  have hall : ∀ e ∈ printingTable d, e.2.leave n = pure () := by
    simp [printingTable, conditionElement]
  exact hall _ (mem_of_lookup h)

theorem conditionAttribute_marks {d : Dialect} {e : NodeId} (h : s.Marks n s') :
    ((conditionAttribute d).enter e a).Yields s' fun _ s'' => s.Marks n s'' := by
  refine .bind (Work.store_yields ?_)
  dsimp only
  split
  · exact .bind Work.fail_yields
  · exact .bind (Work.lift_yields fun _ _ => .modify ⟨h.store, h.definitions, h.documents⟩)

/-! ### Entering and leaving a node -/

section Stage

variable (henv : Marking env)

include henv

/-- An element of the language is marked, if somebody is called for it. -/
theorem printInstruction_marks (hs : s.store.Visitable n) :
    (Stage.enterInstruction env .processing n).Yields s (MarksNext n s) := by
  refine .bind (elementHooks?_gives ?_).yields
  split
  · exact .pure ⟨.refl s, .inl rfl⟩
  rename_i hooks hhooks
  obtain ⟨data, -, hhooks⟩ := Option.bind_eq_some_iff.mp hhooks
  rw [henv.element?] at hhooks
  split at hhooks
  · exact Work.atNode_yields (printingTable_marks hs hhooks)
  · cases hhooks

theorem processAttributes_marks (hs : s.store.Visitable n) (h : s.Marks n s') :
    (Stage.processAttributes env n).Yields s' fun _ s'' => s.Marks n s'' := by
  refine .bind (Work.store_yields ((Action.Yields.forM (I := fun rest s'' => s.Marks n s'' ∧
    ∀ a ∈ rest, a ∈ s.store.attributes n) (fun a rest s₁ hI => ?_) _ ⟨h, fun a ha => ?_⟩).imp
    fun _ _ hs' => hs'.1))
  · obtain ⟨hs₁, hrest⟩ := hI
    obtain ⟨ha, hrest⟩ := List.forall_mem_cons.mp hrest
    refine .bind (attributeHooks?_gives ?_).yields
    split
    · rename_i hooks hhooks
      obtain ⟨d, -, hhooks⟩ := Option.bind_eq_some_iff.mp hhooks
      obtain rfl := henv.attributes d.uri d.name hooks hhooks
      exact Work.atNode_yields ((conditionAttribute_marks hs₁).imp fun _ s₂ hs₂ => ⟨hs₂, hrest⟩)
    · refine .bind (Work.store_yields ?_)
      split
      · refine .bind (Work.atNode_yields (Work.lift_yields fun compiled _ => .bind (.modify
          (Work.modifyStore_yields ⟨⟨?_, hs₁.definitions, hs₁.documents⟩, hrest⟩))))
        have ha' : a ∈ s₁.store.attributes n := (hs₁.store.attributes n).symm ▸ ha
        exact hs₁.store.trans ((hs₁.store.visitable hs).marked_setValue ha')
      · exact .pure ⟨hs₁, hrest⟩
  · rwa [h.store.attributes] at ha

/-- **Entering a node** marks it. -/
theorem process_marks (hs : s.store.Visitable n) :
    (Stage.process env n).Yields s (MarksNext n s) := by
  have shown : s.Marks n { s with store := s.store.setVisible n true } :=
    ⟨hs.marked_setVisible true, rfl, rfl⟩
  refine .bind (Work.store_yields ?_)
  split
  · split
    · exact printInstruction_marks henv hs
    · refine .bind (Work.modifyStore_yields (.bind ((processAttributes_marks henv hs shown).imp
        fun _ s₂ hs₂ => Work.enqueueChildren_yields ⟨hs₂, .inr ?_⟩)))
      exact hs₂.store.growth.queue? hs.wellFormed
  · exact show_marks hs (.refl s)
  · exact show_marks hs (.refl s)
  · exact .bind
      (Work.modifyStore_yields (.bind (Work.atNode_yields (Work.lift_yields fun compiled _ =>
      .bind (.modify (.pure ⟨⟨shown.store, rfl, rfl⟩, .inl rfl⟩))))))
  · exact .bind (Work.modifyStore_yields (.pure ⟨shown, .inl rfl⟩))

/-- **A definition is passed over**, because nobody is registered for it. -/
theorem process_definition (h : isNamed s.store n (namespaceIdOf env.dialect) ["macro"]) :
    Stage.process env n s = (.ok none, s) := by
  obtain ⟨data, hdata⟩ := Option.isSome_iff_exists.mp (isElement_of_isNamed h)
  obtain ⟨huri, hname⟩ : data.uri = some (namespaceIdOf env.dialect) ∧ data.name = "macro" := by
    simpa [isNamed, hdata] using h
  have hhooks : Stage.elementHooks? env .processing n s = (.ok none, s) := by
    rw [elementHooks?_apply, hdata, Option.bind_some, henv.element?, hname, if_pos huri]
    rfl
  rw [Stage.process, Action.bind_ok (show Work.store s = (.ok s.store, s) from rfl),
    Store.payload?_of_element? hdata]
  dsimp only
  rw [if_pos (by rw [huri]; rfl), Stage.enterInstruction, Action.bind_ok hhooks]
  rfl

theorem returnToElement_rests (h : s.Rests s') :
    (Stage.returnToElement env .processing n).Yields s' fun _ s'' => s.Rests s'' := by
  have hlow : s.Rests (s'.lower n) := h.trans .lower
  refine .bind (takeReturn_gives ?_).yields
  split
  · refine .bind (elementHooks?_gives ?_).yields
    split
    · rename_i hooks hhooks
      obtain ⟨d, -, hhooks⟩ := Option.bind_eq_some_iff.mp hhooks
      rw [henv.element?] at hhooks
      split at hhooks
      · rw [printingTable_leave hhooks]
        exact Work.atNode_yields (.pure hlow)
      · cases hhooks
    · exact .pure hlow
  · exact .pure hlow

theorem returnToAttribute_rests (h : s.Rests s') :
    (Stage.returnToAttribute env .processing n a).Yields s' fun _ s'' => s.Rests s'' := by
  have hlow : s.Rests (s'.lower a) := h.trans .lower
  refine .bind (takeReturn_gives ?_).yields
  split
  · refine .bind (attributeHooks?_gives ?_).yields
    split
    · rename_i hooks hhooks
      obtain ⟨d, -, hhooks⟩ := Option.bind_eq_some_iff.mp hhooks
      obtain rfl := henv.attributes d.uri d.name hooks hhooks
      exact Work.atNode_yields (.pure hlow)
    · exact .pure hlow
  · exact .pure hlow

/-- **Leaving a node** changes no node. -/
theorem printLeave_rests : (Stage.leave env .processing n).Yields s fun _ s' => s.Rests s' := by
  refine .bind (Work.store_yields ?_)
  split
  · exact .bind ((returnToElement_rests henv .refl).imp fun _ s₁ hs₁ => .bind (Work.store_yields
      (.forM (I := fun _ s' => s.Rests s')
        (fun a _ s' hs' => returnToAttribute_rests henv hs') _ hs₁)))
  · exact .pure .refl

end Stage

end Language

/-! ### A walk -/

namespace Session

/-- The nodes to visit are not below definitions, unless they are definitions themselves. -/
def Clears (id : Int) (l : List NodeId) (s : Session) : Prop :=
  ∀ n ∈ l, s.store.Visitable n ∧
    ∀ b, s.Refers b → s.store.Above b n → b = n ∧ isNamed s.store n id ["macro"]

theorem Clears.append {l' : List NodeId} (h : s.Clears id l) (h' : s.Clears id l') :
    s.Clears id (l ++ l') := fun n hn =>
  (List.mem_append.mp hn).elim (h n) (h' n)

theorem Clears.rests (hl : s.Clears id l) (h : s.Rests s') : s'.Clears id l := by
  intro n hn
  rw [h.store, refers_congr h.definitions]
  exact hl n hn

theorem Clears.marks (hl : s.Clears id l) (h : s.Marks n s') (hw : s.store.WellFormed) :
    s'.Clears id l := by
  intro m hm
  obtain ⟨hvisit, hclear⟩ := hl m hm
  refine ⟨h.store.visitable hvisit, fun b hb hup => ?_⟩
  rw [Store.above_kept hw (fun m _ => h.store.growth.parent? m) hvisit.has] at hup
  obtain ⟨rfl, hnamed⟩ := hclear b (refers_congr h.definitions ▸ hb) hup
  exact ⟨rfl, (Language.isNamed_kept hvisit.has (h.store.growth.tag? b)).trans hnamed⟩

namespace Guards

/-- What is noted at a node that is in no definition is of no concern. -/
theorem marks (g : s.Guards id l) (h : s.Marks n s')
    (hclear : ∀ b, s.Refers b → ¬ s.store.Above b n) :
    s'.Guards id l ∧ s.Spares s' := by
  have hg := h.store.growth
  have hdefined := defined_congr h.definitions
  refine ⟨g.fewer (g.wellFormed.growth hg) (h.store.owned g.owned)
    (g.labelled.shrink h.store.shrinks) hg.tag? (fun m q hq => (hg.parent? m).symm.trans hq)
      h.definitions,
    ⟨fun b => ⟨hg.tag? b, fun _ hb => hdefined ▸ hb, fun _ hb => hdefined ▸ hb,
      fun c hb _ hc => ?_⟩, h.store.entire, h.documents⟩⟩
  refine h.store.untouched.holds g.wellFormed (g.placeable (.inl hb)) ?_ hc
  rintro m hup rfl
  exact hclear b (.inl hb) hup

theorem rests (g : s.Guards id l) (h : s.Rests s') : s'.Guards id l ∧ s.Spares s' :=
  ⟨g.congr h.store h.definitions, (Releases.of_eq h.store h.definitions h.documents).spares⟩

/-- What refers to a node below another one is a definition. -/
theorem isNamed_of_parent? {p : NodeId} (g : s.Guards id l) (hb : s.Refers b)
    (hp : s.store.parent? b = some p) : isNamed s.store b id ["macro"] := by
  have hfallback : ∀ x ∈ s.definitions.active, x.fallback ≠ some b := by
    intro x hx hxb
    have halone := (g.fallbacks x b hx hxb).2.2.1
    rw [hp] at halone
    cases halone
  rcases hb with ⟨z, hz⟩ | ⟨x, hx, hxb⟩
  · rcases (g.bodies z b hz).2 with hnamed | ⟨x, hx, -, hxb⟩
    · exact hnamed
    · exact absurd hxb (hfallback x hx)
  · exact absurd hxb (hfallback x hx)

/-- The children of a node that is in no definition can be visited. -/
theorem clears_children (g : s.Guards id l) (hclear : ∀ b, s.Refers b → ¬ s.store.Above b n) :
    s.Clears id (s.store.children n) := by
  intro k hk
  have hp := g.wellFormed.mem_children.mp hk
  have hplace := g.wellFormed.placeable hp
  refine ⟨⟨g.wellFormed, g.owned, hplace.has, hplace.kind_ne.2⟩, fun b hb hup => ?_⟩
  rcases Store.above_iff.mp hup with rfl | ⟨q, hq, hup⟩
  · exact ⟨rfl, g.isNamed_of_parent? hb hp⟩
  · obtain rfl := Option.some.inj (hp.symm.trans hq)
    exact absurd hup (hclear b hb)

/-- A document whose definitions are known can be visited. -/
theorem clears_document {doc : NodeId} (g : s.Guards id l)
    (hdoc : s.store.kind? doc = some .document) : s.Clears id [doc] := by
  intro n hn
  obtain rfl := List.mem_singleton.mp hn
  refine ⟨⟨g.wellFormed, g.owned, Store.has_of_kind? hdoc, by rw [hdoc]; decide⟩,
    fun b hb hup => ?_⟩
  obtain rfl := g.wellFormed.eq_of_above_document hdoc hup
  exact absurd hdoc (g.placeable hb).kind_ne.1

end Guards

end Session

namespace Language

/-- **Entering a node** keeps definitions apart from what is visited. -/
theorem process_guards (henv : Marking env) {m : List NodeId}
    (g : s.Guards (namespaceIdOf env.dialect) m)
    (hl : s.Clears (namespaceIdOf env.dialect) (n :: l)) :
    (Stage.process env n).Yields s fun r s' =>
      (s'.Guards (namespaceIdOf env.dialect) m ∧ s.Spares s') ∧
      s'.Clears (namespaceIdOf env.dialect) (r.getD [] ++ l) := by
  obtain ⟨⟨hvisit, hclear⟩, hrest⟩ := List.forall_mem_cons.mp hl
  by_cases hnamed : isNamed s.store n (namespaceIdOf env.dialect) ["macro"]
  · intro r s' h
    rw [process_definition henv hnamed] at h
    cases h
    exact ⟨⟨g, .refl s⟩, hrest⟩
  have hclear : ∀ b, s.Refers b → ¬ s.store.Above b n := fun b hb hup =>
    hnamed (hclear b hb hup).2
  refine (process_marks henv hvisit).imp fun r s' hs' => ?_
  obtain ⟨hmarks, hr⟩ := hs'
  refine ⟨g.marks hmarks hclear, Session.Clears.marks (n := n) ?_ hmarks g.wellFormed⟩
  rcases hr with rfl | rfl
  · exact hrest
  · rw [getD_queue? g.wellFormed]
    exact (g.clears_children hclear).append hrest

/-- **One step of a walk.** -/
theorem processing_guards (henv : Marking env) {w w' : Walk Session}
    (g : w.state.Guards (namespaceIdOf env.dialect) l)
    (hl : w.state.Clears (namespaceIdOf env.dialect) w.pending)
    (h : (Stage.processing env).step w = .inr w') :
    (w'.state.Guards (namespaceIdOf env.dialect) l ∧ w.state.Spares w'.state) ∧
      w'.state.Clears (namespaceIdOf env.dialect) w'.pending := by
  obtain ⟨n, s, rfl, hleave⟩ | ⟨n, rfl, -⟩ | ⟨n, queue, stack, s, rfl, hvisit, hstack⟩ |
    ⟨n, s, s', rfl, hvisit, hleave⟩ := Visitor.step_cases h
  · have hrests := printLeave_rests henv _ _ hleave
    exact ⟨g.rests hrests, Session.Clears.rests (by simpa [Walk.pending] using hl) hrests⟩
  · exact ⟨⟨g, .refl _⟩, fun m hm => hl m (List.mem_cons_of_mem n hm)⟩
  · obtain ⟨hg, hl'⟩ := process_guards henv g hl _ _ (Visitor.enter_of_visit hvisit)
    exact ⟨hg, by simpa [Walk.pending, hstack] using hl'⟩
  · obtain ⟨⟨g', hs'⟩, hl'⟩ := process_guards henv g hl _ _ (Visitor.enter_of_visit hvisit)
    have hrests := printLeave_rests henv _ _ hleave
    obtain ⟨g'', hs''⟩ := g'.rests hrests
    exact ⟨⟨g'', hs'.trans g hs''⟩, Session.Clears.rests hl' hrests⟩

end Language

end Stencil
