import Stencil.Compiler.Session
import Stencil.Proofs.Data.Action
import Stencil.Proofs.Language.Registry
import Stencil.Proofs.Tree.Traversal

/-!
# What is recorded changes nothing

A session records what happens, for its user. Whether anything was recorded before must not change
what the work on a session does. Sessions that differ only in what was recorded are alike, and the
elementary actions respect that; so do the instructions of the language and the stages that call
them.

Along with it goes whose nodes may have stayed enqueued, because the end of a compilation has to
find somebody who forgets them: only nodes of given instructions may. Of the language, only the
instruction for templates enqueues nodes before it knows that it will succeed.

## Main definitions

* `Session.Alike` – sessions that differ only in what was recorded
* `Stage.Environment.Ignorant` – no hook depends on what was recorded

## Main results

* `Work.store_respects`, `Work.tree_respects`, `Work.atNode_respects` and others of that kind – the
  actions
* `Work.leaving_respects`, `Work.enqueueEach_respects` – those that enqueue nodes
* `Stage.run_respects` – a stage at work, with any instructions that ignore what was recorded
* `Language.ignorant_of_setup` – the instructions of the language
-/

namespace Stencil

open Stencil.Tree (NodeId Store)

/-! ### Actions -/

section Actions

open Code (Buffers Property)

/-- Sessions that differ only in what was recorded, and in which nodes of no other instructions than
the given ones have stayed enqueued. -/
structure Session.Alike (labels : List Text) (s t : Session) : Prop where
  records : ∃ trace journal, t = { s with trace, journal }
  tagged : ∀ e ∈ s.enqueued, e.1 ∈ labels

namespace Session.Alike

variable {labels : List Text} {s t : Session}

theorem store (h : s.Alike labels t) : s.store = t.store := by
  obtain ⟨⟨trace, journal, rfl⟩, -⟩ := h
  rfl

/-- What is recorded then makes no difference either. -/
theorem record (h : s.Alike labels t) (trace trace' : List TraceRecord) :
    Session.Alike labels { s with trace } { t with trace := trace' } := by
  obtain ⟨⟨_, journal, rfl⟩, htagged⟩ := h
  exact ⟨⟨trace', journal, rfl⟩, htagged⟩

end Session.Alike

namespace Work

variable {labels : List Text} {α β : Type} {w : Work α} {n : NodeId} {label : Text}

/-- A change that neither depends on what was recorded nor enqueues nodes. -/
theorem modify_respects {g : Session → Session}
    (h : ∀ s trace journal, g { s with trace, journal } = { g s with trace, journal })
    (hq : ∀ s, (g s).enqueued = s.enqueued) :
    (modify g : Work PUnit).Respects (Session.Alike labels) := by
  refine .modify fun s t hst => ?_
  obtain ⟨⟨trace, journal, rfl⟩, htagged⟩ := hst
  exact ⟨⟨trace, journal, h s trace journal⟩, by rwa [hq s]⟩

/-- Reading the session, if what follows does not depend on what was recorded. -/
theorem getBind_respects {g : Session → Work β}
    (hg : ∀ s trace journal, g { s with trace, journal } = g s)
    (h : ∀ s, (g s).Respects (Session.Alike labels)) :
    (get >>= g).Respects (Session.Alike labels) := by
  refine .getBind (fun s t hst => ?_) h
  obtain ⟨⟨trace, journal, rfl⟩, -⟩ := hst
  exact (hg s trace journal).symm

theorem store_respects : store.Respects (Session.Alike labels) :=
  getBind_respects (fun _ _ _ => rfl) fun _ => .pure

theorem modifyStore_respects {f : Store → Store} :
    (modifyStore f).Respects (Session.Alike labels) :=
  modify_respects (fun _ _ _ => rfl) fun _ => rfl

theorem modifyDefinitions_respects {f : Definitions → Definitions} :
    (modifyDefinitions f).Respects (Session.Alike labels) :=
  modify_respects (fun _ _ _ => rfl) fun _ => rfl

theorem modifyBuffers_respects {f : Buffers → Buffers} :
    (modifyBuffers n f).Respects (Session.Alike labels) :=
  modify_respects (fun _ _ _ => rfl) fun _ => rfl

theorem setProperty_respects {name : Text} {v : Property} :
    (setProperty n name v).Respects (Session.Alike labels) :=
  modify_respects (fun _ _ _ => rfl) fun _ => rfl

theorem lift_respects {x : Except Failure α} : (lift x).Respects (Session.Alike labels) := by
  cases x with
  | ok a => exact .pure
  | error f => exact .throw

theorem tree_respects {f : Store → Except Tree.TreeError Store} :
    (tree f).Respects (Session.Alike labels) := by
  refine store_respects.bind fun t => ?_
  split
  · exact modifyStore_respects
  · exact .throw

theorem fresh_respects {f : Store → NodeId × Store} :
    (fresh f).Respects (Session.Alike labels) :=
  store_respects.bind fun _ => modifyStore_respects.bind fun _ => .pure

theorem takeReturn_respects : (takeReturn n).Respects (Session.Alike labels) := by
  have hflag : (flag n Code.Properties.postprocess).Respects (Session.Alike labels) :=
    getBind_respects (fun _ _ _ => rfl) fun _ => .pure
  refine hflag.bind fun asked => ?_
  split
  · exact .bind (modify_respects (fun _ _ _ => rfl) fun _ => rfl) fun _ => .pure
  · exact .pure

theorem record_respects {r : TraceRecord} : (record r).Respects (Session.Alike labels) :=
  .modify fun _ _ hst => hst.record _ _

theorem checkCanceled_respects : checkCanceled.Respects (Session.Alike labels) := by
  refine getBind_respects (fun _ _ _ => rfl) fun s => ?_
  split
  · exact .throw
  · exact .pure

theorem children_respects : (children n).Respects (Session.Alike labels) :=
  store_respects.bind fun _ => .pure

theorem enqueueChildren_respects : (enqueueChildren n).Respects (Session.Alike labels) :=
  store_respects.bind fun _ => .pure

theorem extract_respects {d : Dialect} {specs : List AttributeSpec}
    {others : Option AttributeSpec} :
    (extract d n specs others).Respects (Session.Alike labels) :=
  store_respects.bind fun _ => lift_respects

/-- The node that a failure notes is the same, because the tree is. -/
theorem atNode_respects (h : w.Respects (Session.Alike labels)) :
    (atNode n w).Respects (Session.Alike labels) := by
  intro s t hst
  rw [atNode, atNode]
  obtain ⟨hr, hst'⟩ := h s t hst
  cases hs : w s with
  | mk r s' =>
    cases ht : w t with
    | mk r' t' =>
      rw [hs, ht] at hr hst'
      obtain rfl : r = r' := hr
      obtain ⟨⟨trace, journal, rfl⟩, htagged⟩ := hst'
      cases r <;> exact ⟨rfl, ⟨trace, journal, rfl⟩, htagged⟩

/-- Nodes stay enqueued under the name of the instruction. -/
theorem leaving_respects {nodes : List NodeId} (hl : label ∈ labels)
    (h : w.Respects (Session.Alike labels)) :
    (leaving label nodes w).Respects (Session.Alike labels) := by
  intro s t hst
  rw [leaving, leaving]
  obtain ⟨hr, hst'⟩ := h s t hst
  cases hs : w s with
  | mk r s' =>
    cases ht : w t with
    | mk r' t' =>
      rw [hs, ht] at hr hst'
      obtain rfl : r = r' := hr
      obtain ⟨⟨trace, journal, rfl⟩, htagged⟩ := hst'
      cases r with
      | ok a => exact ⟨rfl, ⟨trace, journal, rfl⟩, htagged⟩
      | error f =>
        refine ⟨rfl, ⟨trace, journal, rfl⟩, fun e he => ?_⟩
        rcases List.mem_append.mp he with he | he
        · exact htagged e he
        · obtain ⟨m, -, rfl⟩ := List.mem_map.mp he
          exact hl

theorem enqueueEach_respects {f : α → Work (Option NodeId)} (hl : label ∈ labels)
    (hf : ∀ a, (f a).Respects (Session.Alike labels)) (l : List α) (nodes : List NodeId) :
    (enqueueEach label f nodes l).Respects (Session.Alike labels) := by
  induction l generalizing nodes with
  | nil => exact .pure
  | cons a l ih => exact (leaving_respects hl (hf a)).bind fun node => ih _

end Work

end Actions

variable {labels : List Text} {d : Dialect} {doc e n a : NodeId} {name : Text}

/-! ### Stages -/

/-- Hooks for elements that do not depend on what was recorded. -/
def ElementHooks.Ignorant (labels : List Text) (hooks : ElementHooks) : Prop :=
  ∀ n, (hooks.enter n).Respects (Session.Alike labels) ∧
    (hooks.leave n).Respects (Session.Alike labels)

/-- Hooks for attributes that do not depend on what was recorded. -/
def AttributeHooks.Ignorant (labels : List Text) (hooks : AttributeHooks) : Prop :=
  ∀ n a, (hooks.enter n a).Respects (Session.Alike labels) ∧
    (hooks.leave n a).Respects (Session.Alike labels)

namespace Stage

/-- No registered hook depends on what was recorded, and only the given instructions leave nodes
enqueued. -/
structure Environment.Ignorant (labels : List Text) (env : Environment) : Prop where
  elements (k : StageKind) (uri : Option Int) (name : Text) (hooks : ElementHooks) :
    env.registry.element? k uri name = some hooks → hooks.Ignorant labels
  attributes (k : StageKind) (uri : Option Int) (name : Text) (hooks : AttributeHooks) :
    env.registry.attribute? k uri name = some hooks → hooks.Ignorant labels

variable {env : Environment} {k : StageKind}

/-- Calling the hooks of an element, if there are any. -/
theorem Environment.Ignorant.withElementHooks (henv : env.Ignorant labels) {α : Type}
    {f : Option ElementHooks → Work α} (hnone : (f none).Respects (Session.Alike labels))
    (hsome : ∀ hooks : ElementHooks, hooks.Ignorant labels →
      (f (some hooks)).Respects (Session.Alike labels)) :
    (elementHooks? env k n >>= f).Respects (Session.Alike labels) := by
  intro s t hst
  rw [Action.bind_ok Language.elementHooks?_apply, Action.bind_ok Language.elementHooks?_apply,
    hst.store]
  cases hh : (t.store.element? n).bind fun e => env.registry.element? k e.uri e.name with
  | none => exact hnone s t hst
  | some hooks =>
    obtain ⟨e, -, he⟩ := Option.bind_eq_some_iff.mp hh
    exact hsome hooks (henv.elements k e.uri e.name hooks he) s t hst

/-- Calling the hooks of an attribute, if there are any. -/
theorem Environment.Ignorant.withAttributeHooks (henv : env.Ignorant labels) {α : Type}
    {f : Option AttributeHooks → Work α} (hnone : (f none).Respects (Session.Alike labels))
    (hsome : ∀ hooks : AttributeHooks, hooks.Ignorant labels →
      (f (some hooks)).Respects (Session.Alike labels)) :
    (attributeHooks? env k a >>= f).Respects (Session.Alike labels) := by
  intro s t hst
  rw [Action.bind_ok Language.attributeHooks?_apply, Action.bind_ok Language.attributeHooks?_apply,
    hst.store]
  cases hh : (t.store.attr? a).bind fun d => env.registry.attribute? k d.uri d.name with
  | none => exact hnone s t hst
  | some hooks =>
    obtain ⟨d, -, hd⟩ := Option.bind_eq_some_iff.mp hh
    exact hsome hooks (henv.attributes k d.uri d.name hooks hd) s t hst

theorem enterInstruction_respects (henv : env.Ignorant labels) :
    (enterInstruction env k n).Respects (Session.Alike labels) :=
  henv.withElementHooks .pure fun _ hhooks => Work.atNode_respects (hhooks n).1

/-- Leaving a node. -/
theorem leave_respects (henv : env.Ignorant labels) :
    (leave env k n).Respects (Session.Alike labels) := by
  have helement : (returnToElement env k n).Respects (Session.Alike labels) := by
    refine Work.takeReturn_respects.bind fun asked => ?_
    split
    · exact henv.withElementHooks .pure fun _ hhooks => Work.atNode_respects (hhooks n).2
    · exact .pure
  have hattribute (a : NodeId) : (returnToAttribute env k n a).Respects (Session.Alike labels) := by
    refine Work.takeReturn_respects.bind fun asked => ?_
    split
    · exact henv.withAttributeHooks .pure fun _ hhooks => Work.atNode_respects (hhooks n a).2
    · exact .pure
  refine Work.store_respects.bind fun _ => ?_
  split
  · exact helement.bind fun _ => Work.store_respects.bind fun _ => .forM hattribute _
  · exact .pure

/-- Entering a node to change the tree. -/
theorem manipulate_respects (henv : env.Ignorant labels) :
    (manipulate env n).Respects (Session.Alike labels) := by
  have hoffer : (offerAttributes env n).Respects (Session.Alike labels) :=
    Work.store_respects.bind fun _ => .forM (fun a => henv.withAttributeHooks .pure
      fun _ hhooks => Work.atNode_respects (hhooks n a).1) _
  refine Work.store_respects.bind fun _ => ?_
  split
  · exact Work.enqueueChildren_respects
  · split
    · exact enterInstruction_respects henv
    · exact hoffer.bind fun _ => Work.enqueueChildren_respects
  · exact .pure

/-- Entering a node to generate code. -/
theorem process_respects (henv : env.Ignorant labels) :
    (process env n).Respects (Session.Alike labels) := by
  have hvalue (a : NodeId) : (processValue env a).Respects (Session.Alike labels) := by
    refine Work.store_respects.bind fun _ => ?_
    split
    · exact (Work.atNode_respects Work.lift_respects).bind fun _ =>
        Work.modifyBuffers_respects.bind fun _ => Work.modifyStore_respects
    · exact .pure
  have hattributes : (processAttributes env n).Respects (Session.Alike labels) :=
    Work.store_respects.bind fun _ => .forM (fun a => henv.withAttributeHooks (hvalue a)
      fun _ hhooks => Work.atNode_respects (hhooks n a).1) _
  have hvisible : (Work.setVisible n true).Respects (Session.Alike labels) :=
    Work.modifyStore_respects
  refine Work.store_respects.bind fun _ => ?_
  split
  · split
    · exact enterInstruction_respects henv
    · exact hvisible.bind fun _ => hattributes.bind fun _ => Work.enqueueChildren_respects
  · exact hvisible.bind fun _ => Work.enqueueChildren_respects
  · exact hvisible.bind fun _ => Work.enqueueChildren_respects
  · exact hvisible.bind fun _ => (Work.atNode_respects Work.lift_respects).bind fun _ =>
      Work.modifyBuffers_respects.bind fun _ => .pure
  · exact hvisible.bind fun _ => .pure

/-- A stage at work. -/
theorem run_respects (henv : env.Ignorant labels) (steps : Nat) :
    (run env k steps doc).Respects (Session.Alike labels) := by
  have hwalk : ((visitor env k).walk steps (some doc)).Respects (Session.Alike labels) := by
    cases k with
    | manipulation =>
      exact Tree.Visitor.loop_respects (v := manipulation env) (fun _ _ hst => hst.store)
        (fun _ => manipulate_respects henv) (fun _ => leave_respects henv) steps [doc] []
    | processing =>
      exact Tree.Visitor.loop_respects (v := processing env) (fun _ _ hst => hst.store)
        (fun _ => process_respects henv) (fun _ => leave_respects henv) steps [doc] []
  have heq : run env k steps doc = fun s =>
      ((visitor env k).walk steps (some doc) { s with trace := .start k.name :: s.trace }).map
        fun p => (p.1, { p.2 with trace := .finish k.name :: p.2.trace }) := by
    funext s
    rw [run]
    cases (visitor env k).walk steps (some doc) { s with trace := .start k.name :: s.trace } <;> rfl
  rw [heq]
  exact hwalk.around (fun _ _ hst => hst.record _ _) fun _ _ _ hst => ⟨rfl, hst.record _ _⟩

end Stage

/-! ### Instructions -/

namespace Language

variable {b : Bool}

theorem define_respects : (define d e).Respects (Session.Alike labels) := by
  refine Work.extract_respects.bind fun attrs =>
    Work.getBind_respects (fun _ _ _ => rfl) fun s => ?_
  have htable : (do
      Work.modifyDefinitions fun t =>
        t.setBodies (attrs.text "name") (t.bodiesOf (attrs.text "name") ++ [e])
      Work.modifyStore (noteDefinition e (attrs.text "name"))).Respects (Session.Alike labels) :=
    Work.modifyDefinitions_respects.bind fun _ => Work.modifyStore_respects
  dsimp only
  split
  · split
    · exact .throwBind
    · exact htable
  · exact Work.modifyDefinitions_respects.bind fun _ => htable

theorem appendCopies_respects {dst src : NodeId} :
    (appendCopies dst src).Respects (Session.Alike labels) :=
  Work.children_respects.bind fun _ => .forM (fun _ => Work.fresh_respects.bind fun _ =>
    Work.tree_respects) _

theorem setFallback_respects : (setFallback e name).Respects (Session.Alike labels) :=
  Work.fresh_respects.bind fun _ => Work.tree_respects.bind fun _ =>
    Work.modifyDefinitions_respects.bind fun _ => .pure

theorem discardChildren_respects : (discardChildren e).Respects (Session.Alike labels) :=
  Work.store_respects.bind fun _ => Work.modifyStore_respects

theorem expand_respects : (expand e name b).Respects (Session.Alike labels) := by
  have hbegin (first : NodeId) (fallback : Option NodeId) : (do
      discardChildren e
      appendCopies e first
      Work.modifyStore (openElement e)
      Work.modifyDefinitions fun t =>
        { t with uses := name :: t.uses
                 active := { name, index := 0, fallback, nested := false } :: t.active }
      return true : Work Bool).Respects (Session.Alike labels) :=
    discardChildren_respects.bind fun _ => appendCopies_respects.bind fun _ =>
      Work.modifyStore_respects.bind fun _ => Work.modifyDefinitions_respects.bind fun _ => .pure
  refine Work.getBind_respects (fun _ _ _ => rfl) fun s => ?_
  dsimp only
  split
  · exact .throwBind
  split
  · exact .pure
  refine Work.store_respects.bind fun _ => ?_
  split
  · exact (Action.Respects.map setFallback_respects).bind fun _ => hbegin _ _
  · exact .bind .pure fun _ => hbegin _ _

theorem expandParent_respects : (expandParent e).Respects (Session.Alike labels) := by
  refine Work.getBind_respects (fun _ _ _ => rfl) fun s => ?_
  dsimp only
  split
  · exact .pure
  split
  · exact .pure
  exact appendCopies_respects.bind fun _ => Work.modifyStore_respects.bind fun _ =>
    Work.modifyDefinitions_respects.bind fun _ => Work.setProperty_respects.bind fun _ =>
      Work.enqueueChildren_respects

theorem leaveExpansion_respects : leaveExpansion.Respects (Session.Alike labels) := by
  refine Work.getBind_respects (fun _ _ _ => rfl) fun s => ?_
  split
  · exact .pure
  refine Work.modifyDefinitions_respects.bind fun _ => ?_
  split
  · exact .pure
  · exact Work.modifyDefinitions_respects.bind fun _ => Work.modifyStore_respects

theorem useElement_respects : (useElement d e).Respects (Session.Alike labels) := by
  refine Work.extract_respects.bind fun attrs => expand_respects.bind fun found => ?_
  split
  · exact Work.setProperty_respects.bind fun _ => Work.setProperty_respects.bind fun _ =>
      Work.enqueueChildren_respects
  · exact Work.enqueueChildren_respects

theorem useAttribute_respects : (useAttribute e a).Respects (Session.Alike labels) := by
  refine Work.store_respects.bind fun s => ?_
  dsimp only
  split
  · exact .throw
  split
  · exact .throw
  refine expand_respects.bind fun found => ?_
  split
  · exact Work.setProperty_respects.bind fun _ => Work.setProperty_respects
  · exact .pure

theorem ignorant_definitionElement : (definitionElement d).Ignorant labels := by
  refine fun n => ⟨Work.store_respects.bind fun s => ?_, leaveExpansion_respects⟩
  dsimp only
  split
  · exact define_respects.bind fun _ => .pure
  split
  · exact useElement_respects
  split
  · exact expandParent_respects
  · exact .pure

theorem stripDefinitions_respects {id : Int} :
    (stripDefinitions id n).Respects (Session.Alike labels) := by
  refine Work.store_respects.bind fun _ => .forM (fun e => Work.store_respects.bind fun _ => ?_) _
  split
  · exact .pure
  · exact Work.tree_respects.bind fun _ => Work.modifyStore_respects

theorem insertCopy_respects {id : Int} {parent c : NodeId} :
    (insertCopy id parent e c).Respects (Session.Alike labels) := by
  refine Work.store_respects.bind fun _ => ?_
  split
  · exact .pure
  refine Work.fresh_respects.bind fun _ => Work.store_respects.bind fun _ => ?_
  split
  · exact stripDefinitions_respects.bind fun _ => Work.tree_respects.bind fun _ => .pure
  · exact Work.tree_respects.bind fun _ => .pure

theorem load_respects (hl : templateLabel ∈ labels) :
    (load d e).Respects (Session.Alike labels) := by
  refine Work.extract_respects.bind fun attrs =>
    Work.getBind_respects (fun _ _ _ => rfl) fun s => ?_
  dsimp only
  split
  · exact .throw
  refine Work.store_respects.bind fun _ => ?_
  split
  · exact .pure
  exact Work.store_respects.bind fun _ =>
    (Work.enqueueEach_respects hl (fun _ => insertCopy_respects) _ _).bind fun _ =>
      (Work.leaving_respects hl Work.tree_respects).bind fun _ =>
        Work.modifyStore_respects.bind fun _ => .pure

theorem ignorant_templateElement (hl : templateLabel ∈ labels) :
    (templateElement d).Ignorant labels := by
  refine fun n => ⟨Work.store_respects.bind fun s => ?_, .pure⟩
  split
  · exact load_respects hl
  · exact Work.enqueueChildren_respects

theorem wrapCondition_respects {test : Expression.Compiled} :
    (wrapCondition e test).Respects (Session.Alike labels) :=
  Work.modifyBuffers_respects

theorem ignorant_conditionElement : (conditionElement d).Ignorant labels :=
  fun _ => ⟨Work.extract_respects.bind fun _ => wrapCondition_respects.bind fun _ =>
    Work.modifyStore_respects.bind fun _ => Work.enqueueChildren_respects, .pure⟩

theorem ignorant_conditionAttribute : (conditionAttribute d).Ignorant labels := by
  refine fun n a => ⟨Work.store_respects.bind fun s => ?_, .pure⟩
  dsimp only
  split
  · exact .throwBind
  · exact Work.lift_respects.bind fun _ => wrapCondition_respects

/-- The elements of the language that only have their children visited. -/
theorem ignorant_enqueueChildren :
    ElementHooks.Ignorant labels { enter := Work.enqueueChildren } :=
  fun _ => ⟨Work.enqueueChildren_respects, .pure⟩

/-- The elements of the language that only become visible. -/
theorem ignorant_setVisible : ElementHooks.Ignorant labels
    { enter := fun e => do
        Work.setVisible e true
        Work.enqueueChildren e } :=
  fun _ => ⟨Work.modifyStore_respects.bind fun _ => Work.enqueueChildren_respects, .pure⟩

/-- **The instructions of the language ignore what was recorded.** The one for templates alone
leaves nodes enqueued when it fails. -/
theorem ignorant_of_setup [Encoding.Decoders] {config : Config} {c : Compiler} {r : Registry}
    (hc : Compiler.withLanguage config = .ok c) (hr : c.setup = .ok r) :
    Stage.Environment.Ignorant [templateLabel] ⟨c.dialect, r⟩ where
  elements k uri name hooks hh := by
    obtain ⟨i, hi, -, -, -, f, -, -, hf, rfl⟩ := (brought_of_setup hr).element? hh
    obtain rfl | rfl | rfl | rfl := instruction_of_withLanguage hc hi <;> cases k <;>
      obtain rfl := Option.some.inj hf
    · exact ignorant_templateElement List.mem_cons_self
    · exact ignorant_setVisible
    · exact ignorant_definitionElement
    · exact ignorant_setVisible
    · exact ignorant_enqueueChildren
    · exact ignorant_conditionElement
    · exact ignorant_enqueueChildren
    · exact fun _ =>
        ⟨Work.setProperty_respects.bind fun _ => Work.modifyStore_respects.bind fun _ =>
        Work.enqueueChildren_respects, .pure⟩
  attributes k uri name hooks hh := by
    obtain ⟨i, hi, f, hf, rfl⟩ := (brought_of_setup hr).attribute? hh
    obtain rfl | rfl | rfl | rfl := instruction_of_withLanguage hc hi <;> cases k <;> cases hf
    · exact fun _ _ => ⟨useAttribute_respects, leaveExpansion_respects⟩
    · exact ignorant_conditionAttribute

end Language

end Stencil
