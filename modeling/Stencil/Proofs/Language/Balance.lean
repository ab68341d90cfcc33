import Stencil.Proofs.Compiler.Session
import Stencil.Proofs.Language.Registry
import Stencil.Proofs.Tree.Traversal

/-!
# Expansions and the names in use

The names of the uses under way are kept beside the stack of expansions, and decide whether a
further use would stand in its own expansion. Nothing but the handlers of the language keeps the two
in step: one call of a handler begins an expansion, ends the innermost one, or leaves the stack
alone, and does the same to the names if the expansion is one of a use (`Language.Turn`). This holds
of handlers that fail as well.

So between any two calls of handlers the names in use are those of the expansions of uses on the
stack, in the same order, and none of them twice. That is stated by assertions: a stage whose
handlers check it before and after each call comes to the same as the stage itself
(`Language.run_asserting`).

## Main definitions

* `Session.Balanced` – the names in use are those on the stack
* `Language.Turn` – what a call of a handler does to both
* `Stage.Environment.asserting` – handlers that check an assertion

## Main results

* `Language.IsElementHook.turn`, `Language.IsAttributeHook.turn` – handlers of the language
* `Language.run_asserting`, `Language.run_balanced` – the assertion never fails
-/

namespace Stencil

open Stencil.Tree (NodeId Store)

variable {env : Stage.Environment} {s s' s'' : Session} {e n a : NodeId} {name : Text}

/-- The names in use are those of the expansions of uses that are under way, innermost first, and no
name is used within its own expansion. -/
structure Session.Balanced (s : Session) : Prop where
  uses : s.definitions.uses = (s.definitions.active.filter fun x => !x.nested).map (·.name)
  nodup : s.definitions.uses.Nodup

instance : DecidablePred Session.Balanced := fun s =>
  decidable_of_iff (s.definitions.uses =
    (s.definitions.active.filter fun x => !x.nested).map (·.name) ∧ s.definitions.uses.Nodup)
      ⟨fun h => ⟨h.1, h.2⟩, fun h => ⟨h.uses, h.nodup⟩⟩

namespace Language

/-! ### What a handler does -/

/-- The expansions under way and the names in use stay as they are. -/
def Stays (s s' : Session) : Prop :=
  s'.definitions.active = s.definitions.active ∧ s'.definitions.uses = s.definitions.uses

instance : Std.Refl Stays := ⟨fun _ => ⟨rfl, rfl⟩⟩

instance : Trans Stays Stays Stays := ⟨fun h₁ h₂ => ⟨h₂.1.trans h₁.1, h₂.2.trans h₁.2⟩⟩

/-- What one call of a handler makes of the expansions under way and the names in use. -/
inductive Turn (s s' : Session) : Prop
  /-- Nothing. -/
  | stays : Stays s s' → Turn s s'
  /-- An expansion begins. A name that is used was not in use. -/
  | begins (x : Expansion) : (x.nested = false → x.name ∉ s.definitions.uses) →
      s'.definitions.active = x :: s.definitions.active →
      (s'.definitions.uses = if x.nested then s.definitions.uses
        else x.name :: s.definitions.uses) →
      Turn s s'
  /-- The innermost expansion ends. -/
  | ends (x : Expansion) : s.definitions.active = x :: s'.definitions.active →
      (s'.definitions.uses = if x.nested then s.definitions.uses else s.definitions.uses.tail) →
      Turn s s'

end Language

/-- **Every turn preserves the balance.** -/
theorem Session.Balanced.turn (h : s.Balanced) (ht : Language.Turn s s') : s'.Balanced := by
  obtain ⟨huses, hnodup⟩ := h
  cases ht with
  | stays hs => exact ⟨by rw [hs.1, hs.2, huses], hs.2 ▸ hnodup⟩
  | begins x hnew hactive huses' =>
    cases hx : x.nested with
    | true =>
      rw [hx, if_pos rfl] at huses'
      exact ⟨by rw [hactive, huses', huses, List.filter_cons, hx]; rfl, huses' ▸ hnodup⟩
    | false =>
      rw [hx, if_neg Bool.false_ne_true] at huses'
      refine ⟨by rw [hactive, huses', huses, List.filter_cons, hx]; rfl, ?_⟩
      rw [huses']
      exact List.nodup_cons.mpr ⟨hnew hx, hnodup⟩
  | ends x hactive huses' =>
    rw [hactive, List.filter_cons] at huses
    cases hx : x.nested with
    | true =>
      rw [hx] at huses huses'
      exact ⟨huses'.trans huses, huses' ▸ hnodup⟩
    | false =>
      rw [hx] at huses huses'
      refine ⟨by rw [huses', if_neg Bool.false_ne_true, huses]; rfl, ?_⟩
      rw [huses']
      exact hnodup.tail

namespace Language

/-! ### The handlers -/

section Work

theorem modifyStore_stays {f : Store → Store} : (Work.modifyStore f).Keeps Stays s :=
  .modify ⟨rfl, rfl⟩

theorem tree_stays {f : Store → Except Tree.TreeError Store} : (Work.tree f).Keeps Stays s := by
  refine .bind Work.store_keeps fun t s _ => ?_
  split
  · exact modifyStore_stays
  · exact .throw

theorem fresh_stays {f : Store → NodeId × Store} : (Work.fresh f).Keeps Stays s :=
  .bind Work.store_keeps fun _ _ _ => .bind modifyStore_stays fun _ _ _ => .pure

theorem children_stays :
    (Work.children n).Keeps Stays s := .bind Work.store_keeps fun _ _ _ => .pure

theorem modifyDefinitions_stays {f : Definitions → Definitions}
    (h : ∀ d, (f d).active = d.active ∧ (f d).uses = d.uses) :
    (Work.modifyDefinitions f).Keeps Stays s :=
  .modify (h s.definitions)

theorem setProperty_stays {name : Text} {v : Code.Property} :
    (Work.setProperty n name v).Keeps Stays s :=
  .modify ⟨rfl, rfl⟩

theorem appendCopies_stays {src : NodeId} : (appendCopies e src).Keeps Stays s :=
  .bind children_stays fun _ _ _ => .forM fun _ _ _ => .bind fresh_stays fun _ _ _ => tree_stays

theorem discardChildren_stays : (discardChildren e).Keeps Stays s :=
  .bind Work.store_keeps fun _ _ _ => modifyStore_stays

theorem setFallback_stays : (setFallback e name).Keeps Stays s :=
  .bind fresh_stays fun _ _ _ => .bind tree_stays fun _ _ _ =>
    .bind (modifyDefinitions_stays fun _ => ⟨rfl, rfl⟩) fun _ _ _ => .pure

theorem define_stays {d : Dialect} : (define d n).Keeps Stays s := by
  have hrest {z : Text} {s : Session} : (do
      Work.modifyDefinitions fun t => t.setBodies z (t.bodiesOf z ++ [n])
      Work.modifyStore (noteDefinition n z) : Work Unit).Keeps Stays s :=
    .bind (modifyDefinitions_stays fun _ => ⟨rfl, rfl⟩) fun _ _ _ => modifyStore_stays
  refine .bind Work.extract_keeps fun attrs _ _ => .bind .get fun _ _ _ => ?_
  dsimp only
  split
  · split
    · exact .bind Work.fail_keeps fun _ _ _ => hrest
    · exact hrest
  · exact .bind (modifyDefinitions_stays fun _ => ⟨rfl, rfl⟩) fun _ _ _ => hrest

end Work

theorem Stays.turn (h : Stays s s') (ht : Turn s' s'') : Turn s s'' := by
  obtain ⟨hactive, huses⟩ := h
  cases ht with
  | stays hs => exact .stays (Trans.trans (show Stays s s' from ⟨hactive, huses⟩) hs)
  | begins x hnew hactive' huses' =>
    exact .begins x (huses ▸ hnew) (hactive ▸ hactive') (huses ▸ huses')
  | ends x hactive' huses' => exact .ends x (hactive ▸ hactive') (huses ▸ huses')

theorem Turn.stay (ht : Turn s s') (h : Stays s' s'') : Turn s s'' := by
  obtain ⟨hactive, huses⟩ := h
  cases ht with
  | stays hs => exact .stays (Trans.trans hs (show Stays s' s'' from ⟨hactive, huses⟩))
  | begins x hnew hactive' huses' =>
    exact .begins x hnew (hactive.trans hactive') (huses.trans huses')
  | ends x hactive' huses' => exact .ends x (hactive ▸ hactive') (huses.trans huses')

section

variable {α β : Type} {x : Work α} {f : α → Work β}

theorem keeps_turn (h : x.Keeps Stays s) : x.Keeps Turn s := .stays h

/-- Work that leaves the expansions alone, and then takes a turn. -/
theorem turn_after (hx : x.Keeps Stays s)
    (hf : ∀ a s', Stays s s' → (f a).Keeps Turn s') : (x >>= f).Keeps Turn s := by
  rw [Action.Keeps, Action.bind_apply]
  rw [Action.Keeps] at hx
  rcases hs : x s with ⟨e | a, s'⟩ <;> rw [hs] at hx
  · exact .stays hx
  · exact hx.turn (hf a s' hx)

/-- Work that takes a turn, and then leaves the expansions alone. -/
theorem turn_before (hx : x.Keeps Turn s) (hf : ∀ a s, (f a).Keeps Stays s) :
    (x >>= f).Keeps Turn s := by
  rw [Action.Keeps, Action.bind_apply]
  rw [Action.Keeps] at hx
  rcases hs : x s with ⟨e | a, s'⟩ <;> rw [hs] at hx
  · exact hx
  · exact hx.stay (hf a s')

end

/-- An expansion begins that no handler has under way. -/
theorem beginUse_turn {first : NodeId} {fallback : Option NodeId} (h : name ∉ s.definitions.uses) :
    (do
      discardChildren e
      appendCopies e first
      Work.modifyStore (openElement e)
      Work.modifyDefinitions fun t =>
        { t with uses := name :: t.uses
                 active := { name, index := 0, fallback, nested := false } :: t.active }
      return true : Work Bool).Keeps Turn s := by
  refine turn_after discardChildren_stays fun _ s₁ h₁ => ?_
  refine turn_after appendCopies_stays fun _ s₂ h₂ => ?_
  refine turn_after modifyStore_stays fun _ s₃ h₃ => turn_before ?_ fun _ _ => .pure
  have hstays : Stays s s₃ := Trans.trans (Trans.trans h₁ h₂) h₃
  exact .begins ⟨name, 0, fallback, false⟩ (fun _ => hstays.2 ▸ h) rfl rfl

theorem get_turn {α : Type} {f : Session → Work α} (h : (f s).Keeps Turn s) :
    (get >>= f).Keeps Turn s := by
  rwa [Action.Keeps, Action.bind_ok (Action.get_apply s)]

/-- What comes after a failure does not matter. -/
theorem fail_turn {α β : Type} {c : Cause} {f : α → Work β} : (Work.fail c >>= f).Keeps Turn s :=
  .stays ⟨rfl, rfl⟩

theorem expand_turn {ignore : Bool} : (expand e name ignore).Keeps Turn s := by
  refine get_turn ?_
  dsimp only
  split
  · exact fail_turn
  rename_i huses
  have huses : name ∉ s.definitions.uses := by simpa using huses
  split
  · exact keeps_turn .pure
  refine turn_after Work.store_keeps fun _ s₁ h₁ => ?_
  split
  · refine turn_after ?_ fun fallback s₂ h₂ => beginUse_turn (h₂.2 ▸ h₁.2 ▸ huses)
    rw [map_eq_pure_bind]
    exact .bind setFallback_stays fun _ _ _ => .pure
  · exact turn_after .pure fun fallback s₂ h₂ => beginUse_turn (h₂.2 ▸ h₁.2 ▸ huses)

theorem requestReturn_stays : (Work.requestReturn n).Keeps Stays s := setProperty_stays

theorem noteUse_stays : (noteUse e name).Keeps Stays s := setProperty_stays

theorem useElement_turn {d : Dialect} : (useElement d e).Keeps Turn s := by
  refine turn_after Work.extract_keeps fun attrs _ _ => turn_before expand_turn fun used _ => ?_
  dsimp only
  split
  · exact .bind requestReturn_stays fun _ _ _ => .bind noteUse_stays fun _ _ _ =>
      Work.enqueueChildren_keeps
  · exact Work.enqueueChildren_keeps

theorem useAttribute_turn : (useAttribute e a).Keeps Turn s := by
  refine turn_after Work.store_keeps fun t _ _ => ?_
  dsimp only
  split
  · exact keeps_turn Work.fail_keeps
  · split
    · exact keeps_turn Work.fail_keeps
    · refine turn_before expand_turn fun used _ => ?_
      split
      · exact .bind requestReturn_stays fun _ _ _ => noteUse_stays
      · exact .pure

theorem expandParent_turn : (expandParent e).Keeps Turn s := by
  refine get_turn ?_
  dsimp only
  split
  · exact keeps_turn .pure
  rename_i top rest hactive
  split
  · exact keeps_turn .pure
  refine turn_after appendCopies_stays fun _ s₁ h₁ => ?_
  refine turn_after modifyStore_stays fun _ s₂ h₂ => turn_before ?_ fun _ _ =>
    .bind setProperty_stays fun _ _ _ => Work.enqueueChildren_keeps
  exact .begins ⟨top.name, top.index + 1, none, true⟩ (fun h => nomatch h) rfl rfl

theorem leaveExpansion_turn : leaveExpansion.Keeps Turn s := by
  refine get_turn ?_
  split
  · exact keeps_turn .pure
  rename_i x rest hactive
  refine turn_before ?_ fun _ s' => ?_
  · exact .ends x hactive rfl
  · split
    · exact .pure
    · exact .bind (modifyDefinitions_stays fun _ => ⟨rfl, rfl⟩) fun _ _ _ => modifyStore_stays

theorem leaving_stays {α : Type} {label : Text} {nodes : List NodeId} {w : Work α}
    (h : w.Keeps Stays s) : (Work.leaving label nodes w).Keeps Stays s := by
  rw [Action.Keeps] at h ⊢
  rw [Work.leaving]
  rcases hw : w s with ⟨f | b, s'⟩ <;> rw [hw] at h <;> exact h

theorem enqueueEach_stays {α : Type} {label : Text} {f : α → Work (Option NodeId)}
    (hf : ∀ a s, (f a).Keeps Stays s) (l : List α) {nodes : List NodeId} :
    (Work.enqueueEach label f nodes l).Keeps Stays s := by
  induction l generalizing s nodes with
  | nil => exact .pure
  | cons a l ih => exact .bind (leaving_stays (hf a s)) fun _ _ _ => ih

theorem stripDefinitions_stays {id : Int} : (stripDefinitions id n).Keeps Stays s := by
  refine .bind Work.store_keeps fun _ _ _ => .forM fun m _ s =>
    .bind Work.store_keeps fun _ _ _ => ?_
  split
  · exact .pure
  · exact .bind tree_stays fun _ _ _ => modifyStore_stays

theorem insertCopy_stays {id : Int} {parent c : NodeId} :
    (insertCopy id parent e c).Keeps Stays s := by
  refine .bind Work.store_keeps fun _ _ _ => ?_
  split
  · exact .pure
  refine .bind fresh_stays fun _ _ _ => .bind Work.store_keeps fun _ _ _ => ?_
  dsimp only
  split
  · exact .bind stripDefinitions_stays fun _ _ _ => .bind tree_stays fun _ _ _ => .pure
  · exact .bind tree_stays fun _ _ _ => .pure

theorem load_stays {d : Dialect} : (load d e).Keeps Stays s := by
  refine .bind Work.extract_keeps fun _ _ _ => .bind .get fun _ _ _ => ?_
  dsimp only
  split
  · exact Work.fail_keeps
  refine .bind Work.store_keeps fun _ _ _ => ?_
  split
  · exact .pure
  refine .bind Work.store_keeps fun _ _ _ =>
    .bind (enqueueEach_stays (fun _ _ => insertCopy_stays) _)
    fun _ _ _ => .bind (leaving_stays tree_stays) fun _ _ _ =>
      .bind modifyStore_stays fun _ _ _ => .pure

theorem definitionElement_turn {d : Dialect} : ((definitionElement d).enter e).Keeps Turn s := by
  refine turn_after Work.store_keeps fun t _ _ => ?_
  dsimp only
  split
  · exact keeps_turn (.bind define_stays fun _ _ _ => .pure)
  split
  · exact useElement_turn
  split
  · exact expandParent_turn
  · exact keeps_turn .pure

theorem templateElement_turn {d : Dialect} : ((templateElement d).enter e).Keeps Turn s := by
  refine turn_after Work.store_keeps fun t _ _ => ?_
  split
  · exact keeps_turn load_stays
  · exact keeps_turn Work.enqueueChildren_keeps

/-- **A handler for elements** takes one turn. -/
theorem IsElementHook.turn {d : Dialect} {hooks : ElementHooks} (h : IsElementHook d hooks) :
    (hooks.enter e).Keeps Turn s ∧ (hooks.leave e).Keeps Turn s := by
  obtain rfl | rfl | rfl := h
  · exact ⟨definitionElement_turn, leaveExpansion_turn⟩
  · exact ⟨templateElement_turn, keeps_turn .pure⟩
  · exact ⟨keeps_turn Work.enqueueChildren_keeps, keeps_turn .pure⟩

/-- **A handler for attributes** takes one turn. -/
theorem IsAttributeHook.turn {hooks : AttributeHooks} (h : IsAttributeHook hooks) :
    (hooks.enter e a).Keeps Turn s ∧ (hooks.leave e a).Keeps Turn s := by
  obtain rfl := h
  exact ⟨useAttribute_turn, leaveExpansion_turn⟩

end Language

/-! ### Handlers with assertions -/

section Asserting

variable (P : Session → Prop) [DecidablePred P] (f : Failure)

/-- Handlers that fail with `f` if an assertion does not hold before they are called or after they
have returned. -/
def ElementHooks.asserting (hooks : ElementHooks) : ElementHooks where
  enter n := (hooks.enter n).asserting P f
  leave n := (hooks.leave n).asserting P f

@[inherit_doc ElementHooks.asserting]
def AttributeHooks.asserting (hooks : AttributeHooks) : AttributeHooks where
  enter n a := (hooks.enter n a).asserting P f
  leave n a := (hooks.leave n a).asserting P f

/-- The same registrations, of handlers that check an assertion. -/
def Stage.Environment.asserting (env : Stage.Environment) : Stage.Environment where
  dialect := env.dialect
  registry :=
    { elements := env.registry.elements.map fun e => (e.1, e.2.asserting P f)
      attributes := env.registry.attributes.map fun e => (e.1, e.2.asserting P f) }

variable {P} {f} {k : StageKind} {uri : Option Int}

namespace Stage.Environment

theorem element?_asserting : (env.asserting P f).registry.element? k uri name =
    (env.registry.element? k uri name).map (ElementHooks.asserting P f) := by
  cases uri with
  | none => rfl
  | some u =>
    simp only [Registry.element?, asserting, Option.bind_some, List.find?_map, Option.map_map]
    rfl

theorem attribute?_asserting : (env.asserting P f).registry.attribute? k uri name =
    (env.registry.attribute? k uri name).map (AttributeHooks.asserting P f) := by
  cases uri with
  | none => rfl
  | some u =>
    simp only [Registry.attribute?, asserting, Option.bind_some, List.find?_map, Option.map_map]
    rfl

end Stage.Environment

end Asserting

namespace Language

open Stencil.Action (Coincides)

variable {f : Failure}

theorem coincides_of_turn {α : Type} {x : Work α} (h : ∀ s, x.Keeps Turn s) :
    x.Coincides Session.Balanced x := .of_keeps fun s hs => hs.turn (h s)

theorem coincides_asserting_of_turn {α : Type} {x : Work α} (h : ∀ s, x.Keeps Turn s) :
    (x.asserting Session.Balanced f).Coincides Session.Balanced x :=
  Action.coincides_asserting fun s hs => hs.turn (h s)

theorem coincides_atNode {α : Type} {P : Session → Prop} {x y : Work α} (h : x.Coincides P y) :
    (Work.atNode n x).Coincides P (Work.atNode n y) := by
  intro s hs
  obtain ⟨heq, hP⟩ := h s hs
  refine ⟨by rw [Work.atNode, Work.atNode, heq], ?_⟩
  rw [Work.atNode]
  rcases hy : y s with ⟨e | b, s'⟩ <;> rw [hy] at hP <;> exact hP

section

variable (henv : Spoken env)

include henv

/-- Whoever is called for an element. -/
theorem coincides_elementHooks {α : Type} {g : Option ElementHooks → Work α}
    (hnone : ∀ s, (g none).Keeps Turn s)
    (hsome : ∀ hooks, IsElementHook env.dialect hooks →
      (g (some (hooks.asserting Session.Balanced f))).Coincides Session.Balanced (g (some hooks))) :
    (Stage.elementHooks? (env.asserting Session.Balanced f) .manipulation n >>= g).Coincides
      Session.Balanced (Stage.elementHooks? env .manipulation n >>= g) := by
  intro s hs
  have hasked : ((s.store.element? n).bind fun d =>
      (env.asserting Session.Balanced f).registry.element? .manipulation d.uri d.name) =
      ((s.store.element? n).bind fun d => env.registry.element? .manipulation d.uri d.name).map
        (ElementHooks.asserting Session.Balanced f) := by
    cases s.store.element? n with
    | none => rfl
    | some d => exact Stage.Environment.element?_asserting
  rw [Action.bind_ok elementHooks?_apply, Action.bind_ok elementHooks?_apply, hasked]
  rcases hhooks : (s.store.element? n).bind fun d =>
    env.registry.element? .manipulation d.uri d.name with _ | hooks
  · exact coincides_of_turn hnone s hs
  · obtain ⟨d, -, hhooks⟩ := Option.bind_eq_some_iff.mp hhooks
    exact hsome hooks (henv.elements _ _ hooks hhooks).2 s hs

/-- Whoever is called for an attribute. -/
theorem coincides_attributeHooks {α : Type} {g : Option AttributeHooks → Work α}
    (hnone : ∀ s, (g none).Keeps Turn s)
    (hsome : ∀ hooks, IsAttributeHook hooks →
      (g (some (hooks.asserting Session.Balanced f))).Coincides Session.Balanced (g (some hooks))) :
    (Stage.attributeHooks? (env.asserting Session.Balanced f) .manipulation a >>= g).Coincides
      Session.Balanced (Stage.attributeHooks? env .manipulation a >>= g) := by
  intro s hs
  have hasked : ((s.store.attr? a).bind fun d =>
      (env.asserting Session.Balanced f).registry.attribute? .manipulation d.uri d.name) =
      ((s.store.attr? a).bind fun d => env.registry.attribute? .manipulation d.uri d.name).map
        (AttributeHooks.asserting Session.Balanced f) := by
    cases s.store.attr? a with
    | none => rfl
    | some d => exact Stage.Environment.attribute?_asserting
  rw [Action.bind_ok attributeHooks?_apply, Action.bind_ok attributeHooks?_apply, hasked]
  rcases hhooks : (s.store.attr? a).bind fun d =>
    env.registry.attribute? .manipulation d.uri d.name with _ | hooks
  · exact coincides_of_turn hnone s hs
  · obtain ⟨d, -, hhooks⟩ := Option.bind_eq_some_iff.mp hhooks
    exact hsome hooks (henv.attributes _ _ hooks hhooks) s hs

theorem manipulate_coincides : (Stage.manipulate (env.asserting Session.Balanced f) n).Coincides
    Session.Balanced (Stage.manipulate env n) := by
  have hstore : Work.store.Coincides Session.Balanced Work.store := .of_keeps fun _ hs => hs
  have hqueue : (Work.enqueueChildren n).Coincides Session.Balanced (Work.enqueueChildren n) :=
    coincides_of_turn fun _ => keeps_turn Work.enqueueChildren_keeps
  refine .bind hstore fun t => ?_
  split
  · exact hqueue
  · split
    · refine coincides_elementHooks henv (fun _ => keeps_turn .pure) fun hooks hhooks => ?_
      exact coincides_atNode (coincides_asserting_of_turn fun _ => hhooks.turn.1)
    · refine .bind (.bind hstore fun t => .forM (fun a => ?_) _) fun _ => hqueue
      refine coincides_attributeHooks henv (fun _ => keeps_turn .pure) fun hooks hhooks => ?_
      exact coincides_atNode (coincides_asserting_of_turn fun _ => hhooks.turn.1)
  · exact .pure

theorem leave_coincides : (Stage.leave (env.asserting Session.Balanced f) .manipulation n).Coincides
    Session.Balanced (Stage.leave env .manipulation n) := by
  have hstore : Work.store.Coincides Session.Balanced Work.store := .of_keeps fun _ hs => hs
  have htake (m : NodeId) : (Work.takeReturn m).Coincides Session.Balanced (Work.takeReturn m) :=
    coincides_of_turn fun s => keeps_turn (by
      rw [Action.Keeps, Work.takeReturn_apply]
      exact ⟨by rw [Session.definitions_lower], by rw [Session.definitions_lower]⟩)
  refine .bind hstore fun t => ?_
  split
  · refine .bind (.bind (htake n) fun asked => ?_) fun _ => .bind hstore fun t => .forM (fun a =>
      .bind (htake a) fun asked => ?_) _
    · split
      · refine coincides_elementHooks henv (fun _ => keeps_turn .pure) fun hooks hhooks => ?_
        exact coincides_atNode (coincides_asserting_of_turn fun _ => hhooks.turn.2)
      · exact .pure
    · split
      · refine coincides_attributeHooks henv (fun _ => keeps_turn .pure) fun hooks hhooks => ?_
        exact coincides_atNode (coincides_asserting_of_turn fun _ => hhooks.turn.2)
      · exact .pure
  · exact .pure

/-- **The names in use are those on the stack**, before and after every call of a handler. -/
theorem run_asserting {steps : Nat} {doc : NodeId} (hs : s.Balanced) :
    Stage.run (env.asserting Session.Balanced f) .manipulation steps doc s =
      Stage.run env .manipulation steps doc s := by
  have hs' : Session.Balanced { s with trace := .start StageKind.manipulation.name :: s.trace } :=
    ⟨hs.uses, hs.nodup⟩
  have hloop := Tree.Visitor.loop_coincides (Stage.manipulation (env.asserting Session.Balanced f))
    (Stage.manipulation env) rfl rfl rfl (fun _ => manipulate_coincides henv)
    (fun _ => leave_coincides henv) steps [doc] [] hs'
  rw [Stage.run, Stage.run, Stage.visitor, Stage.visitor, Tree.Visitor.walk, Tree.Visitor.walk,
    hloop]

/-- **A run of the stage preserves the balance**, also if it fails. -/
theorem run_balanced {steps : Nat} {doc : NodeId} {r : Except Failure Unit} (hs : s.Balanced)
    (h : Stage.run env .manipulation steps doc s = some (r, s')) : s'.Balanced := by
  rw [Stage.run] at h
  split at h
  · cases h
  rename_i s₁ hwalk
  cases h
  let R : Session → Session → Prop := fun s s' => s.Balanced → s'.Balanced
  have : Std.Refl R := ⟨fun _ hs => hs⟩
  have : Trans R R R := ⟨fun h₁ h₂ hs => h₂ (h₁ hs)⟩
  have henter (n : NodeId) (s : Session) : (Stage.manipulate env n).Keeps R s := fun hs =>
    (manipulate_coincides (f := .of .noParser) henv s hs).2
  have hleave (n : NodeId) (s : Session) : (Stage.leave env .manipulation n).Keeps R s := fun hs =>
    (leave_coincides (f := .of .noParser) henv s hs).2
  have hkeeps : R _ s₁ := Tree.Visitor.loop_keeps (v := Stage.manipulation env) henter hleave hwalk
  obtain ⟨huses, hnodup⟩ := hkeeps ⟨hs.uses, hs.nodup⟩
  exact ⟨huses, hnodup⟩

end

end Language

end Stencil
