import Stencil.Language.Basic
import Stencil.Proofs.Compiler.Blame
import Stencil.Proofs.Language.Borders
import Stencil.Proofs.Language.Printing
import Stencil.Proofs.Tree.Traversal

/-!
# Stages within borders

A run of the stages over a document of a region stays in that region, and if every template that is
loaded there is finished, then no template is blamed for not being loaded. Both facts are carried
along together: what is loaded in the region later on was loaded there before, so the region never
runs out of what it needs.

## Main definitions

* `Session.Stocked` – the templates that are loaded in a region are finished
* `Language.Behaves` – an action stays in a region and blames nobody for not being loaded
* `Language.Abides` – so do all hooks that are registered

## Main results

* `Tree.Visitor.loop_ends` – invariants of a walk
* `Language.abides_of_setup` – the hooks of the language abide
* `Language.runStages_ends` – the stages
-/

namespace Stencil

open Stencil.Tree (NodeId Store Visitor)

/-! ### Walks -/

namespace Tree.Visitor

variable {ε σ : Type} {v : Visitor ε σ} {I : σ → Prop} {P : NodeId → σ → Prop} {F : ε → Prop}
  {steps : Nat} {queue : List NodeId} {stack : List (NodeId × List NodeId)} {s s' : σ}

/-- The nodes that a walk still has to do with. -/
def Holding (P : NodeId → σ → Prop) (queue : List NodeId) (stack : List (NodeId × List NodeId))
    (s : σ) : Prop :=
  (∀ n ∈ queue, P n s) ∧ ∀ e ∈ stack, P e.1 s ∧ ∀ n ∈ e.2, P n s

theorem Holding.mono (h : Holding P queue stack s) (hP : ∀ n, P n s → P n s') :
    Holding P queue stack s' :=
  ⟨fun n hn => hP n (h.1 n hn),
    fun e he => ⟨hP _ (h.2 e he).1, fun n hn => hP n ((h.2 e he).2 n hn)⟩⟩

/-- **A walk keeps what entering and leaving keep.** The nodes to be visited have a property that is
kept as well, and only errors of one kind occur. -/
theorem loop_ends (hrefuse : ∀ e, F (v.refuse e))
    (henter : ∀ n s, I s → P n s → (v.enter n).FailsOnly F s ∧ (v.enter n).Yields s fun r s' =>
      I s' ∧ (∀ m, P m s → P m s') ∧ ∀ m ∈ r.getD [], P m s')
    (hleave : ∀ n s, I s → P n s → (v.leave n).FailsOnly F s ∧ (v.leave n).Yields s fun _ s' =>
      I s' ∧ ∀ m, P m s → P m s')
    (hI : I s) (hP : Holding P queue stack s) :
    Process.Ends F (v.loop steps queue stack) s fun _ s' => I s' := by
  induction steps generalizing queue stack s with
  | zero => exact .unfinished
  | succ steps ih =>
    -- a node is left, and the walk goes on with the queue behind it
    have hleft : ∀ n queue stack s, I s → P n s → Holding P queue stack s →
        Process.Ends F ((v.leave n).toProcess >>= fun _ => v.loop steps queue stack) s
          fun _ s' => I s' := fun n queue stack s hI hn hP =>
      let ⟨hfail, hyield⟩ := hleave n s hI hn
      .bind (.toProcess (hyield.imp fun _ s' hs' => ih hs'.1 (hP.mono hs'.2)) hfail)
    cases queue with
    | nil =>
      cases stack with
      | nil => exact .pure hI
      | cons top stack =>
        obtain ⟨htop, hrest⟩ := hP.2 top (by simp)
        refine .congr (loop_leave.trans proceed_eq_bind) ?_
        exact hleft top.1 top.2 stack s hI htop ⟨hrest, fun e he => hP.2 e (by simp [he])⟩
    | cons n queue =>
      have hn := hP.1 n (by simp)
      have hqueue : Holding P queue stack s := ⟨fun m hm => hP.1 m (by simp [hm]), hP.2⟩
      by_cases hskip : v.skips n s
      · exact .congr (by rw [loop, if_pos hskip]) (ih hI hqueue)
      obtain ⟨hfail, hyield⟩ : (Action.of (v.visit n)).FailsOnly F s ∧
          (Action.of (v.visit n)).Yields s fun r s' =>
            I s' ∧ (∀ m, P m s → P m s') ∧ ∀ m ∈ r.getD [], P m s' := by
        constructor <;> intro r s₁ hr <;> rw [Action.of, visit] at hr <;> split at hr
        · cases hr
          exact hrefuse _
        · exact (henter n s hI hn).1 r s₁ hr
        · cases hr
        · exact (henter n s hI hn).2 r s₁ hr
      refine .congr (loop_visit_eq_bind hskip)
        (.bind (.toProcess (hyield.imp fun r s₁ hs₁ => ?_) hfail))
      obtain ⟨hI₁, hkeep, hinner⟩ := hs₁
      have hP₁ := hqueue.mono hkeep
      cases r with
      | none => exact hleft n queue stack s₁ hI₁ (hkeep n hn) hP₁
      | some inner =>
        refine ih hI₁ ⟨hinner, fun e he => ?_⟩
        rcases List.mem_cons.mp he with rfl | he
        · exact ⟨hkeep n hn, hP₁.1⟩
        · exact hP₁.2 e he

end Tree.Visitor

variable {d : Dialect} {R : NodeId → Prop} {s s' s'' : Session} {e n a src dst parent : NodeId}
  {name : Text} {α β : Type}

/-! ### Stock -/

namespace Session

/-- Every template that is loaded in a region is finished. -/
def Stocked (d : Dialect) (R : NodeId → Prop) (s : Session) : Prop :=
  ∀ e z, R e → Language.loadName? d s.store e = some z → (s.documents.lookup z).isSome

/-- A session at work in a region that lacks nothing. -/
structure Ready (d : Dialect) (R : NodeId → Prop) (s : Session) : Prop where
  inside : s.Inside R
  stocked : s.Stocked d R

theorem Works.ready (h : s.Works d R s') (hs : s.Ready d R) : s'.Ready d R := by
  refine ⟨h.inside, fun e z he hz => ?_⟩
  obtain ⟨c, hc, hcz⟩ := h.descends.inside e z he hz
  rw [h.documents]
  exact hs.stocked c z hc hcz

end Session

namespace Language

open Session (Holds Inside Works Ready)

/-! ### What instructions blame -/

section Blame

variable {F : Failure → Prop}

theorem discardChildren_fails : (discardChildren e).FailsOnly F s :=
  .bind Work.store_fails fun _ _ _ => Work.modifyStore_fails

theorem enqueueChildren_fails : (Work.enqueueChildren n).FailsOnly F s :=
  .bind Work.store_fails fun _ _ _ => .pure

theorem leaveExpansion_fails : leaveExpansion.FailsOnly F s := by
  refine .bind .get fun _ _ _ => ?_
  split
  · exact .pure
  refine .bind .modify fun _ _ _ => ?_
  split
  · exact .pure
  · exact .bind .modify fun _ _ _ => Work.modifyStore_fails

variable [Failure.Broad F]

theorem appendCopies_fails : (appendCopies dst src).FailsOnly F s :=
  .bind (.bind Work.store_fails fun _ _ _ => .pure) fun _ _ _ =>
    .forM (fun _ _ => .bind Work.fresh_fails fun _ _ _ => Work.tree_fails) _

theorem setFallback_fails : (setFallback e name).FailsOnly F s :=
  .bind Work.fresh_fails fun _ _ _ => .bind Work.tree_fails fun _ _ _ => .bind .modify
    fun _ _ _ => .pure

theorem beginUse_fails {first : NodeId} {fallback : Option NodeId} : (do
    discardChildren e
    appendCopies e first
    Work.modifyStore (openElement e)
    Work.modifyDefinitions fun t =>
      { t with uses := name :: t.uses
               active := { name, index := 0, fallback, nested := false } :: t.active }
    return true : Work Bool).FailsOnly F s :=
  .bind discardChildren_fails fun _ _ _ => .bind appendCopies_fails fun _ _ _ =>
    .bind Work.modifyStore_fails fun _ _ _ => .bind .modify fun _ _ _ => .pure

/-- What is done for a use outside of its own expansion. -/
theorem expand_fails {ignore : Bool} (h : name ∈ s.definitions.uses →
    F (.of (.recursion ⟨.expansion, s.definitions.uses.reverse ++ [name]⟩))) :
    (expand e name ignore).FailsOnly F s := by
  refine .bind .get fun _ s₁ hget => ?_
  cases hget
  dsimp only
  split
  · rename_i huses
    exact .bind (.throw (h (by simpa using huses))) nofun
  split
  · exact .pure
  refine .bind Work.store_fails fun _ _ _ => ?_
  split
  · exact .bind (.map setFallback_fails) fun _ _ _ => beginUse_fails
  · exact .bind .pure fun _ _ _ => beginUse_fails

theorem expandParent_fails : (expandParent e).FailsOnly F s := by
  refine .bind .get fun _ _ _ => ?_
  dsimp only
  split
  · exact .pure
  split
  · exact .pure
  · exact .bind appendCopies_fails fun _ _ _ => .bind Work.modifyStore_fails fun _ _ _ =>
      .bind .modify fun _ _ _ => .bind .modify fun _ _ _ => enqueueChildren_fails

theorem define_fails : (define d e).FailsOnly F s := by
  refine .bind Work.extract_fails fun _ _ _ => .bind .get fun _ _ _ => ?_
  have hadd : ∀ (f : Definitions → Definitions) (g : Store → Store) s, (do
      Work.modifyDefinitions f
      Work.modifyStore g : Work Unit).FailsOnly F s := fun _ _ _ =>
    .bind .modify fun _ _ _ => Work.modifyStore_fails
  split
  · split
    · exact .bind (Work.fail_fails rfl) nofun
    · exact hadd _ _ _
  · exact .bind .modify fun _ _ _ => hadd _ _ _

theorem stripDefinitions_fails {id : Int} :
    (stripDefinitions id n).FailsOnly F s := by
  refine .bind Work.store_fails fun _ _ _ =>
    .forM (fun e s => .bind Work.store_fails fun _ _ _ => ?_) _
  split
  · exact .pure
  · exact .bind Work.tree_fails fun _ _ _ => Work.modifyStore_fails

theorem insertCopies_fails {id : Int} {content : List NodeId} :
    (insertCopies id parent e content).FailsOnly F s := by
  refine Work.enqueueEach_fails (fun c s => .bind Work.store_fails fun _ _ _ => ?_) _
  have hinsert : ∀ (copy : NodeId) s, (do
      Work.tree (·.insertBefore parent (some copy) (some e))
      return some copy : Work (Option NodeId)).FailsOnly F s := fun _ _ =>
    .bind Work.tree_fails fun _ _ _ => .pure
  split
  · exact .pure
  refine .bind Work.fresh_fails fun _ _ _ => .bind Work.store_fails fun _ _ _ => ?_
  split
  · exact .bind stripDefinitions_fails fun _ _ _ => hinsert _ _
  · exact hinsert _ _

/-- Only loading looks documents up. -/
theorem load_fails (h : ∀ z, loadName? d s.store e = some z → s.documents.lookup z = none →
    F (.of (.notLoaded z))) (he : isNamed s.store e (namespaceIdOf d) ["load"]) :
    (load d e).FailsOnly F s := by
  refine .bind Work.extract_fails fun attrs s₁ hattrs => ?_
  obtain ⟨hextract, rfl⟩ : extractAttributes d s.store e [loadSpec] none = .ok attrs ∧ s₁ = s :=
    Work.lift_ok hattrs
  have hname : loadName? d s₁.store e = some (attrs.text "template") := by
    rw [loadName?, if_pos he, hextract]
    rfl
  refine .bind .get fun s₂ _ hget => ?_
  cases hget
  cases hdoc : s₁.documents.lookup (attrs.text "template") with
  | none => exact .throw (h _ hname hdoc)
  | some doc =>
    refine .bind Work.store_fails fun _ _ _ => ?_
    dsimp only
    split
    · exact .pure
    · exact .bind Work.store_fails fun _ _ _ => .bind insertCopies_fails fun _ _ _ =>
        .bind (Work.leaving_fails Work.tree_fails) fun _ _ _ =>
          .bind Work.modifyStore_fails fun _ _ _ => .pure

end Blame

theorem useElement_spares : (useElement d e).FailsOnly Failure.Spares s := by
  refine .bind Work.extract_fails fun _ _ _ =>
    .bind (expand_fails fun _ => nofun) fun used _ _ => ?_
  split
  · exact .bind .modify fun _ _ _ => .bind .modify fun _ _ _ => enqueueChildren_fails
  · exact enqueueChildren_fails

theorem useAttribute_spares : (useAttribute e a).FailsOnly Failure.Spares s := by
  refine .bind Work.store_fails fun _ _ _ => ?_
  dsimp only
  split
  · exact Work.fail_fails rfl
  split
  · exact Work.fail_fails rfl
  refine .bind (expand_fails fun _ => nofun) fun used _ _ => ?_
  split
  · exact .bind .modify fun _ _ _ => .modify
  · exact .pure

/-- In a region that lacks nothing, loading finds what it looks up. -/
theorem load_spares (hs : s.Stocked d R) (hR : R e)
    (he : isNamed s.store e (namespaceIdOf d) ["load"]) :
    (load d e).FailsOnly Failure.Spares s := by
  refine load_fails (fun z hz hdoc => ?_) he
  have hstock := hs e z hR hz
  rw [hdoc] at hstock
  cases hstock

/-! ### Actions within a region -/

/-- In a region that lacks nothing, the action works within the region and blames no template for
not being loaded. -/
structure Behaves (d : Dialect) (R : NodeId → Prop) (x : Work α) (s : Session)
    (Q : α → Session → Prop) : Prop where
  spares : x.FailsOnly Failure.Spares s
  works : x.Yields s fun a s' => s.Works d R s' ∧ Q a s'

/-- The nodes to be visited next belong to the region. -/
def Next (R : NodeId → Prop) (r : Option (List NodeId)) (s : Session) : Prop :=
  ∀ c ∈ r.getD [], s.Holds R c

namespace Behaves

variable {x : Work α} {f : α → Work β} {Q Q' : α → Session → Prop} {P : β → Session → Prop}

theorem imp (h : Behaves d R x s Q) (hQ : ∀ a s', Q a s' → Q' a s') : Behaves d R x s Q' :=
  ⟨h.spares, h.works.imp fun a s' hs' => ⟨hs'.1, hQ a s' hs'.2⟩⟩

theorem bind (h : Behaves d R x s Q)
    (hf : ∀ a s', s.Works d R s' → Q a s' → Behaves d R (f a) s' P) :
    Behaves d R (x >>= f) s P where
  spares := h.spares.bind fun a s' ha => (hf a s' (h.works a s' ha).1 (h.works a s' ha).2).spares
  works := .bind (h.works.imp fun a s' hs' =>
    (hf a s' hs'.1 hs'.2).works.imp fun _ _ hs'' => ⟨hs'.1.trans hs''.1, hs''.2⟩)

theorem pure {a : α} (h : s.Inside R) (hQ : Q a s) : Behaves d R (pure a : Work α) s Q :=
  ⟨.pure, .pure ⟨.refl h, hQ⟩⟩

theorem congr {y : Work α} (h : x s = y s) (hy : Behaves d R y s Q) : Behaves d R x s Q :=
  ⟨fun e s' he => hy.spares e s' (h ▸ he), fun a s' ha => hy.works a s' (h ▸ ha)⟩

theorem fail {c : Cause} (hc : c.isPlain) : Behaves d R (Work.fail c : Work α) s Q :=
  ⟨Work.fail_fails hc, Work.fail_yields⟩

theorem extract {specs : List AttributeSpec} {others : Option AttributeSpec} (h : s.Inside R) :
    Behaves d R (Work.extract d e specs others) s fun _ s' => s' = s :=
  ⟨Work.extract_fails, .bind (Work.store_yields (Work.lift_yields fun _ _ => ⟨.refl h, rfl⟩))⟩

/-- Looking at the nodes first. -/
theorem store {g : Store → Work α} (h : Behaves d R (g s.store) s Q) :
    Behaves d R (Work.store >>= g) s Q :=
  h.congr (Action.bind_ok rfl)

/-- Asking for hooks first. -/
theorem elementHooks {env : Stage.Environment} {k : StageKind} {g : Option ElementHooks → Work α}
    (h : Behaves d R (g ((s.store.element? n).bind fun e => env.registry.element? k e.uri e.name))
      s Q) :
    Behaves d R (Stage.elementHooks? env k n >>= g) s Q :=
  h.congr (Action.bind_ok elementHooks?_apply)

theorem attributeHooks {env : Stage.Environment} {k : StageKind}
    {g : Option AttributeHooks → Work α}
    (h : Behaves d R (g ((s.store.attr? a).bind fun e => env.registry.attribute? k e.uri e.name))
      s Q) :
    Behaves d R (Stage.attributeHooks? env k a >>= g) s Q :=
  h.congr (Action.bind_ok attributeHooks?_apply)

/-- An action that changes nothing of concern. -/
theorem modify {g : Session → Session} (h : s.Inside R) (hstore : (g s).store = s.store)
    (hdefs : (g s).definitions = s.definitions) (hdocs : (g s).documents = s.documents) :
    Behaves d R (modify g : Work Unit) s fun _ s' => s' = g s :=
  ⟨.modify, .modify ⟨.of_eq h hstore hdefs hdocs, rfl⟩⟩

/-- What follows from the work that was done. -/
theorem keeps {P : Session → Prop} (h : Behaves d R x s Q) (hP : ∀ {s'}, s.Works d R s' → P s') :
    Behaves d R x s fun _ s' => P s' :=
  ⟨h.spares, h.works.imp fun _ _ hs' => ⟨hs'.1, hP hs'.1⟩⟩

theorem takeReturn (h : s.Inside R) : Behaves d R (Work.takeReturn n) s fun _ _ => True := by
  refine ⟨?_, Work.takeReturn_yields ⟨.of_eq h ?_ ?_ ?_, trivial⟩⟩
  · intro f s' hf
    rw [Work.takeReturn_apply] at hf
    cases hf
  · exact Session.store_lower
  · exact Session.definitions_lower
  · exact Session.documents_lower

theorem atNode (h : Behaves d R x s Q) : Behaves d R (Work.atNode n x) s Q :=
  ⟨Work.atNode_fails h.spares, Work.atNode_yields h.works⟩

theorem lift {y : Except Failure α} (h : s.Inside R) (hy : Blames Failure.Spares y) :
    Behaves d R (Work.lift y) s fun _ s' => s' = s :=
  ⟨Work.lift_fails hy, Work.lift_yields fun _ _ => ⟨.refl h, rfl⟩⟩

theorem enqueueChildren (h : s.Inside R) (hR : R n) :
    Behaves d R (Work.enqueueChildren n) s (Next R) :=
  ⟨enqueueChildren_fails, enqueueChildren_works hR (.refl h)⟩

theorem setVisible {v : Bool} (h : s.Inside R) :
    Behaves d R (Work.setVisible n v) s fun _ s' => s'.store = s.store.setVisible n v :=
  ⟨Work.modifyStore_fails, Work.modifyStore_yields
    ⟨.of_descends h (.setVisible h.tidy h.labelled) rfl rfl, rfl⟩⟩

/-- A loop without result, for elements of a region. -/
theorem forM {g : α → Work Unit} {l : List α} {I : Session → Prop}
    (hg : ∀ a ∈ l, ∀ s, s.Ready d R → I s → Behaves d R (g a) s fun _ s' => I s') (h : s.Ready d R)
    (hI : I s) : Behaves d R (l.forM g) s fun _ s' => I s' := by
  induction l generalizing s with
  | nil => exact .pure h.inside hI
  | cons a l ih =>
    refine bind (hg a (by simp) s h hI) fun _ s' hw hI' => ?_
    exact ih (fun b hb => hg b (by simp [hb])) (hw.ready h) hI'

end Behaves

/-! ### Hooks -/

theorem useElement_works (h : s.Inside R) (he : s.store.isElement e) (hR : R e) :
    (useElement d e).Yields s fun r s' => s.Works d R s' ∧ Next R r s' := by
  refine .bind (Work.extract_yields fun attrs => .bind
    ((expand_works d h he hR).imp fun used s₁ h₁ => ?_))
  split
  · exact .bind (Work.requestReturn_yields (.bind (Work.setProperty_yields
      (enqueueChildren_works hR (Works.setProperty (Works.setProperty h₁))))))
  · exact enqueueChildren_works hR h₁

theorem useAttribute_works (d : Dialect) (h : s.Inside R) (he : s.store.isElement e) (hR : R e) :
    (useAttribute e a).Yields s fun _ s' => s.Works d R s' := by
  refine .bind (Work.store_yields ?_)
  dsimp only
  split
  · exact Work.fail_yields
  split
  · exact Work.fail_yields
  refine .bind ((expand_works d h he hR).imp fun used s₁ h₁ => ?_)
  split
  · exact .bind (Work.requestReturn_yields (Work.setProperty_yields h₁.setProperty.setProperty))
  · exact .pure h₁

theorem next_none : Next R none s := fun c hc => by simp at hc

theorem definitionElement_behaves (h : s.Ready d R) (hn : s.Holds R n) (he : s.store.isElement n) :
    Behaves d R ((definitionElement d).enter n) s (Next R) := by
  refine .store ?_
  dsimp only
  split
  · exact .bind ⟨define_fails, (define_works h.inside hn).imp fun _ _ hw => ⟨hw, trivial⟩⟩
      fun _ _ hw _ => .pure hw.inside next_none
  split
  · exact ⟨useElement_spares, useElement_works h.inside he hn.1⟩
  split
  · exact ⟨expandParent_fails, expandParent_works d h.inside he hn.1⟩
  · exact .pure h.inside next_none

theorem templateElement_behaves {data : Tree.ElementData} (h : s.Ready d R) (hn : s.Holds R n)
    (hdata : s.store.element? n = some data) (huri : data.uri = some (namespaceIdOf d)) :
    Behaves d R ((templateElement d).enter n) s (Next R) := by
  refine .store ?_
  rw [nameOf_eq hdata]
  split
  · rename_i hname
    refine ⟨load_spares h.stocked hn.1 ?_, load_works h.inside hn⟩
    simp [isNamed, hdata, huri, hname]
  · exact .enqueueChildren h.inside hn.1

theorem wrapCondition_behaves {test : Expression.Compiled} (h : s.Inside R) :
    Behaves d R (wrapCondition e test) s fun _ s' => s'.store = s.store :=
  (Behaves.modify h rfl rfl rfl).imp fun _ _ hs => by rw [hs]

theorem conditionElement_behaves (h : s.Ready d R) (hn : s.Holds R n) :
    Behaves d R ((conditionElement d).enter n) s (Next R) :=
  .bind (.extract h.inside) fun _ _ hw _ => .bind (wrapCondition_behaves hw.inside) fun _ _ hw _ =>
    .bind (.setVisible hw.inside) fun _ _ hw _ => .enqueueChildren hw.inside hn.1

theorem conditionAttribute_behaves (h : s.Inside R) :
    Behaves d R ((conditionAttribute d).enter e a) s fun _ s' => s'.store = s.store := by
  refine .store ?_
  dsimp only
  generalize d.expressionOf _ _ = expression
  have htest : ∀ s : Session, s.Inside R → Behaves d R (do
      wrapCondition e (← Work.lift (d.compile expression.2 expression.1)) : Work Unit) s
        fun _ s' => s'.store = s.store := fun s h =>
    .bind (.lift h blames_compile) fun _ s' hw hs => hs ▸ wrapCondition_behaves (hs ▸ hw.inside)
  split
  · exact .bind (.fail rfl) fun _ _ _ (hfalse : False) => hfalse.elim
  · exact htest s h

/-- All hooks that are registered work within regions. -/
structure Abides (env : Stage.Environment) : Prop where
  enter {k : StageKind} {data : Tree.ElementData} {hooks : ElementHooks} {R : NodeId → Prop}
    {s : Session} {n : NodeId} : env.registry.element? k data.uri data.name = some hooks →
    s.Ready env.dialect R → s.Holds R n → s.store.element? n = some data →
    Behaves env.dialect R (hooks.enter n) s (Next R)
  leave {k : StageKind} {uri : Option Int} {name : Text} {hooks : ElementHooks} {R : NodeId → Prop}
    {s : Session} {n : NodeId} : env.registry.element? k uri name = some hooks → s.Inside R →
    Behaves env.dialect R (hooks.leave n) s fun _ _ => True
  offer {uri : Option Int} {name : Text} {hooks : AttributeHooks} {R : NodeId → Prop} {s : Session}
    {e a : NodeId} : env.registry.attribute? .manipulation uri name = some hooks → s.Inside R →
    s.store.isElement e → R e → Behaves env.dialect R (hooks.enter e a) s fun _ _ => True
  /-- Attributes have no effect on the tree while code is generated. -/
  print {uri : Option Int} {name : Text} {hooks : AttributeHooks} {R : NodeId → Prop} {s : Session}
    {e a : NodeId} : env.registry.attribute? .processing uri name = some hooks → s.Inside R →
    Behaves env.dialect R (hooks.enter e a) s fun _ s' => s'.store = s.store
  withdraw {k : StageKind} {uri : Option Int} {name : Text} {hooks : AttributeHooks}
    {R : NodeId → Prop} {s : Session} {e a : NodeId} :
    env.registry.attribute? k uri name = some hooks → s.Inside R →
    Behaves env.dialect R (hooks.leave e a) s fun _ _ => True

theorem leaveExpansion_behaves (h : s.Inside R) :
    Behaves d R leaveExpansion s fun _ _ => True :=
  ⟨leaveExpansion_fails, (leaveExpansion_works d h).imp fun _ _ hw => ⟨hw, trivial⟩⟩

/-- Elements that only become visible. -/
theorem show_behaves (h : s.Inside R) (hn : s.Holds R n) :
    Behaves d R (do
      Work.setVisible n true
      Work.enqueueChildren n) s (Next R) :=
  .bind (.setVisible h) fun _ _ hw _ => .enqueueChildren hw.inside hn.1

theorem setProperty_behaves {v : Code.Property} (h : s.Inside R) :
    Behaves d R (Work.setProperty n name v) s fun _ _ => True :=
  (Behaves.modify h rfl rfl rfl).imp fun _ _ _ => trivial

/-- **The hooks of the language abide.** -/
theorem abides_of_setup [Encoding.Decoders] {config : Config} {c : Compiler} {r : Registry}
    (hc : Compiler.withLanguage config = .ok c) (hr : c.setup = .ok r) :
    Abides ⟨c.dialect, r⟩ where
  enter {k data hooks R s n} hh hs hn hdata := by
    have he : s.store.isElement n := by rw [Store.isElement, hdata]; rfl
    obtain ⟨i, hi, reg, hreg, id, f, hid, huri, hf, rfl⟩ := (brought_of_setup hr).element? hh
    have hnative := native_of_withLanguage hc hi
    rw [hnative.uri reg hreg] at hid
    obtain rfl | rfl | rfl | rfl := instruction_of_withLanguage hc hi <;> cases k <;> cases hf
    · exact templateElement_behaves hs hn hdata (huri.trans (congrArg some (namespaceIdOf_eq hid)))
    · exact show_behaves hs.inside hn
    · exact definitionElement_behaves hs hn he
    · exact show_behaves hs.inside hn
    · exact .enqueueChildren hs.inside hn.1
    · exact conditionElement_behaves hs hn
    · exact .enqueueChildren hs.inside hn.1
    · exact .bind (setProperty_behaves hs.inside) fun _ _ hw _ =>
        show_behaves hw.inside (hw.holds hn)
  leave {k uri name hooks R s n} hh hs := by
    obtain ⟨i, hi, -, -, -, f, -, -, hf, rfl⟩ := (brought_of_setup hr).element? hh
    obtain rfl | rfl | rfl | rfl := instruction_of_withLanguage hc hi <;> cases k <;> cases hf
    · exact .pure hs trivial
    · exact .pure hs trivial
    · exact leaveExpansion_behaves hs
    all_goals exact .pure hs trivial
  offer {uri name hooks R s e a} hh hs he hR := by
    obtain rfl := (spoken_of_setup hc hr).attributes uri name hooks hh
    exact ⟨useAttribute_spares, (useAttribute_works _ hs he hR).imp fun _ _ hw => ⟨hw, trivial⟩⟩
  print {uri name hooks R s e a} hh hs := by
    obtain ⟨i, hi, f, hf, rfl⟩ := (brought_of_setup hr).attribute? hh
    obtain rfl | rfl | rfl | rfl := instruction_of_withLanguage hc hi <;> cases hf
    exact conditionAttribute_behaves hs
  withdraw {k uri name hooks R s e a} hh hs := by
    obtain ⟨i, hi, f, hf, rfl⟩ := (brought_of_setup hr).attribute? hh
    obtain rfl | rfl | rfl | rfl := instruction_of_withLanguage hc hi <;> cases k <;> cases hf
    · exact leaveExpansion_behaves hs
    · exact .pure hs trivial

/-! ### Stages -/

variable {env : Stage.Environment} {k : StageKind}

theorem returnToElement_behaves (henv : Abides env) (h : s.Inside R) :
    Behaves env.dialect R (Stage.returnToElement env k n) s fun _ _ => True := by
  refine .bind (.takeReturn h) fun asked _ hw _ => ?_
  split
  · refine .elementHooks ?_
    split
    · rename_i hooks hhooks
      obtain ⟨data, -, hh⟩ := Option.bind_eq_some_iff.mp hhooks
      exact .atNode (henv.leave hh hw.inside)
    · exact .pure hw.inside trivial
  · exact .pure hw.inside trivial

theorem returnToAttribute_behaves (henv : Abides env) (h : s.Inside R) :
    Behaves env.dialect R (Stage.returnToAttribute env k n a) s fun _ _ => True := by
  refine .bind (.takeReturn h) fun asked _ hw _ => ?_
  split
  · refine .attributeHooks ?_
    split
    · rename_i hooks hhooks
      obtain ⟨data, -, hh⟩ := Option.bind_eq_some_iff.mp hhooks
      exact .atNode (henv.withdraw hh hw.inside)
    · exact .pure hw.inside trivial
  · exact .pure hw.inside trivial

/-- Leaving a node. -/
theorem leave_behaves (henv : Abides env) (h : s.Ready env.dialect R) :
    Behaves env.dialect R (Stage.leave env k n) s fun _ _ => True := by
  refine .store ?_
  split
  · exact .bind (returnToElement_behaves henv h.inside) fun _ _ hw _ => .store
      (.forM (fun _ _ _ hs _ => returnToAttribute_behaves henv hs.inside) (hw.ready h) trivial)
  · exact .pure h.inside trivial

/-- Entering an element of the language. -/
theorem enterInstruction_behaves {data : Tree.ElementData} (henv : Abides env)
    (h : s.Ready env.dialect R) (hn : s.Holds R n) (hdata : s.store.element? n = some data) :
    Behaves env.dialect R (Stage.enterInstruction env k n) s (Next R) := by
  refine .elementHooks ?_
  rw [hdata, Option.bind_some]
  split
  · exact .pure h.inside next_none
  · rename_i hooks hhooks
    exact .atNode (henv.enter hhooks h hn hdata)

/-- Entering a node to change the tree. -/
theorem manipulate_behaves (henv : Abides env) (h : s.Ready env.dialect R) (hn : s.Holds R n) :
    Behaves env.dialect R (Stage.manipulate env n) s (Next R) := by
  refine .store ?_
  split
  · exact .enqueueChildren h.inside hn.1
  · rename_i data hpay
    have hdata : s.store.element? n = some data := by rw [Store.element?, hpay]
    have he : s.store.isElement n := by rw [Store.isElement, hdata]; rfl
    split
    · exact enterInstruction_behaves henv h hn hdata
    · refine .bind (.store (.forM (I := fun s => s.store.isElement n) (fun a _ s hs he => ?_) h he))
        fun _ _ hw _ => .enqueueChildren hw.inside hn.1
      refine .attributeHooks ?_
      split
      · rename_i hooks hhooks
        obtain ⟨data, -, hh⟩ := Option.bind_eq_some_iff.mp hhooks
        refine .atNode (.keeps (henv.offer hh hs.inside he hn.1) fun hw => ?_)
        exact hw.descends.within.confined.isElement he
      · exact .pure hs.inside he
  · exact .pure h.inside next_none

/-- What generating code for the attributes of an ordinary element leaves alone. -/
def Ordinary (env : Stage.Environment) (n : NodeId) (attrs : List NodeId) (s : Session) : Prop :=
  s.store.attributes n = attrs ∧ ¬ isNamed s.store n (namespaceIdOf env.dialect) ["load"]

theorem processValue_behaves {attrs : List NodeId} (h : s.Inside R) (ha : a ∈ attrs)
    (hn : Ordinary env n attrs s) :
    Behaves env.dialect R (Stage.processValue env a) s fun _ => Ordinary env n attrs := by
  refine .store ?_
  split
  · refine .bind (.atNode (.lift h blames_compile)) fun compiled s₁ hw hs₁ => ?_
    subst hs₁
    refine .bind (.modify h rfl rfl rfl) fun _ s₂ hw hs₂ => ?_
    subst hs₂
    refine ⟨Work.modifyStore_fails, Work.modifyStore_yields ⟨.of_descends hw.inside
      (.setValue hw.inside.tidy hw.inside.labelled (hn.1.symm ▸ ha) hn.2) rfl rfl, ?_, ?_⟩⟩
    · exact Store.attributes_modifyAttr.trans hn.1
    · rw [isNamed_congr Store.tag?_setValue]
      exact hn.2
  · exact .pure h hn

/-- Entering a node to generate code. -/
theorem process_behaves (henv : Abides env) (h : s.Ready env.dialect R) (hn : s.Holds R n) :
    Behaves env.dialect R (Stage.process env n) s (Next R) := by
  have hvisible : ∀ {Q : Option (List NodeId) → Session → Prop} {x : Work (Option (List NodeId))},
      (∀ s', s.Works env.dialect R s' → s'.store = s.store.setVisible n true →
        Behaves env.dialect R x s' Q) →
      Behaves env.dialect R (do Work.setVisible n true; x) s Q := fun hx =>
    .bind (.setVisible h.inside) fun _ s' hw hs' => hx s' hw hs'
  refine .store ?_
  split
  · rename_i data hpay
    have hdata : s.store.element? n = some data := by rw [Store.element?, hpay]
    split
    · exact enterInstruction_behaves henv h hn hdata
    · rename_i huri
      refine hvisible fun s₁ hw hs₁ => ?_
      have hnamed : ¬ isNamed s₁.store n (namespaceIdOf env.dialect) ["load"] := by
        have htag : s₁.store.tag? n = s.store.tag? n := by
          rw [hs₁, Store.tag?, payload?_setVisible, Store.tag?]
        rw [isNamed_congr htag, isNamed, hdata]
        simp [Option.not_isSome_iff_eq_none.mp huri]
      refine .bind (.store (.forM (I := Ordinary env n (s₁.store.attributes n))
        (fun a ha s hs hI => .attributeHooks ?_) (hw.ready h) ⟨rfl, hnamed⟩))
        fun _ _ hw _ => .enqueueChildren hw.inside hn.1
      split
      · rename_i hooks hhooks
        obtain ⟨data, -, hh⟩ := Option.bind_eq_some_iff.mp hhooks
        refine .atNode ((henv.print hh hs.inside).imp fun _ s' hs' => ?_)
        rwa [Ordinary, hs']
      · exact processValue_behaves hs.inside ha hI
  · exact hvisible fun _ hw _ => .enqueueChildren hw.inside hn.1
  · exact hvisible fun _ hw _ => .enqueueChildren hw.inside hn.1
  · refine hvisible fun _ hw _ => .bind (.atNode (.lift hw.inside blames_compile))
      fun compiled _ hw _ => .bind (.modify hw.inside rfl rfl rfl) fun _ _ hw _ =>
        .pure hw.inside next_none
  · exact hvisible fun _ hw _ => .pure hw.inside next_none

/-- A stage at work on a document of the region. -/
theorem run_ends {steps : Nat} {doc : NodeId} (henv : Abides env) (h : s.Ready env.dialect R)
    (hdoc : s.Holds R doc) :
    (Stage.run env k steps doc).Ends Failure.Spares s fun _ s' => s.Works env.dialect R s' := by
  have hvisit : ∀ {x : Work (Option (List NodeId))} {s₁}, s.Works env.dialect R s₁ →
      Behaves env.dialect R x s₁ (Next R) → x.FailsOnly Failure.Spares s₁ ∧
        x.Yields s₁ fun r s' => s.Works env.dialect R s' ∧
          (∀ m, s₁.Holds R m → s'.Holds R m) ∧ ∀ m ∈ r.getD [], s'.Holds R m :=
    fun hw hx => ⟨hx.spares,
      hx.works.imp fun _ _ hs' => ⟨hw.trans hs'.1, fun _ => hs'.1.holds, hs'.2⟩⟩
  have hleave : ∀ n s₁, s.Works env.dialect R s₁ → s₁.Holds R n →
      (Stage.leave env k n).FailsOnly Failure.Spares s₁ ∧
        (Stage.leave env k n).Yields s₁ fun _ s' =>
          s.Works env.dialect R s' ∧ ∀ m, s₁.Holds R m → s'.Holds R m := fun n s₁ hw _ =>
    have hx := leave_behaves henv (hw.ready h)
    ⟨hx.spares, hx.works.imp fun _ _ hs' => ⟨hw.trans hs'.1, fun _ => hs'.1.holds⟩⟩
  have hwalk : ∀ s₁, s.Works env.dialect R s₁ →
      ((Stage.visitor env k).walk steps (some doc)).Ends Failure.Spares s₁
        fun _ s' => s.Works env.dialect R s' := by
    intro s₁ hw
    have hstart : Visitor.Holding (fun n s => s.Holds R n) [doc] [] s₁ := by
      refine ⟨fun n hn => ?_, by simp⟩
      rw [List.mem_singleton.mp hn]
      exact hw.holds hdoc
    cases k with
    | manipulation =>
      exact Visitor.loop_ends Failure.broad_ofTree
        (fun n s₁ hw hn => hvisit hw (manipulate_behaves henv (hw.ready h) hn)) hleave hw hstart
    | processing =>
      exact Visitor.loop_ends Failure.broad_ofTree
        (fun n s₁ hw hn => hvisit hw (process_behaves henv (hw.ready h) hn)) hleave hw hstart
  have hnote : ∀ {s₁ : Session} {trace : List TraceRecord}, s.Works env.dialect R s₁ →
      s.Works env.dialect R { s₁ with trace } := fun hw => hw.trans (.of_eq hw.inside rfl rfl rfl)
  constructor
  · intro u s' hs'
    rw [Stage.run] at hs'
    split at hs'
    · cases hs'
    · rename_i result s₁ hw
      cases hs'
      exact hnote ((hwalk _ (hnote (.refl h.inside))).ok _ _ hw)
  · intro f s' hs'
    rw [Stage.run] at hs'
    split at hs'
    · cases hs'
    · rename_i result s₁ hw
      cases hs'
      exact (hwalk _ (hnote (.refl h.inside))).error _ _ hw

variable {c : Compiler} {r : Registry} {config : Config} {steps : Nat} {doc : NodeId}

/-- **The stages of the language stay in a region and blame nobody for not being loaded there.** -/
theorem runStages_ends [Encoding.Decoders] (hc : Compiler.withLanguage config = .ok c)
    (hr : c.setup = .ok r)
    (h : s.Ready c.dialect R) (hdoc : s.Holds R doc) :
    (c.runStages ⟨c.dialect, r⟩ steps doc).Ends Failure.Spares s fun doc' s' =>
      doc' = doc ∧ s.Works c.dialect R s' := by
  have henv := abides_of_setup hc hr
  have hstage : ∀ k s, s.Ready c.dialect R → s.Holds R doc →
      (Compiler.runStage ⟨c.dialect, r⟩ steps doc (.standard k)).Ends Failure.Spares s
        fun doc' s' => doc' = doc ∧ s.Works c.dialect R s' := by
    intro k s h hdoc
    refine .bind (Work.checkCanceled_ends fun _ => .mapError (F := Failure.Spares) (.bind ?_)
      fun _ hf => Failure.broad_within hf)
    exact (run_ends henv h hdoc).imp fun _ _ hw => .pure ⟨rfl, hw⟩
  have hstages : ∀ (stages : List StageOf) s, (∀ stage ∈ stages, ∃ k, stage = .standard k) →
      s.Ready c.dialect R → s.Holds R doc →
      (stages.foldlM (Compiler.runStage ⟨c.dialect, r⟩ steps) doc).Ends Failure.Spares s
        fun doc' s' => doc' = doc ∧ s.Works c.dialect R s' := by
    intro stages
    induction stages with
    | nil => exact fun s _ h _ => .pure ⟨rfl, .refl h.inside⟩
    | cons stage stages ih =>
      intro s hstages h hdoc
      obtain ⟨k, rfl⟩ := hstages stage (by simp)
      rw [List.foldlM_cons]
      refine .bind ((hstage k s h hdoc).imp fun doc' s₁ hs₁ => ?_)
      obtain ⟨rfl, hw⟩ := hs₁
      exact (ih s₁ (fun t ht => hstages t (by simp [ht])) (hw.ready h) (hw.holds hdoc)).imp
        fun _ _ hs' => ⟨hs'.1, hw.trans hs'.2⟩
  exact hstages c.stages s (fun _ => standard_of_withLanguage hc) h hdoc

end Language

end Stencil
