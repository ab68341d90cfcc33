import Stencil.Proofs.Language.Content
import Stencil.Proofs.Language.Definitions

/-!
# What instructions do to the definitions

Each part of the instruction for definitions, with all it changes: the tree, within the region it is
given, the expansions under way, and flags. An expansion begins with `push` and ends with `unwind`.

## Main results

* `Language.expand_yields`, `Language.expandParent_yields` – expansions begin
* `Language.leaveExpansion_yields` – the innermost expansion ends
* `Language.define_yields` – a definition is added
-/

namespace Stencil

open Stencil.Tree (NodeId Store)
open Stencil.Tree.Store (Tidy Within Growth)

variable {s s' : Session} {R : NodeId → Prop} {anchor : Option NodeId} {e n : NodeId} {name : Text}

namespace Language

/-! ### Changes that concern no links -/

theorem tidy_openElement {t : Store} (h : Tidy R anchor t) :
    Within R anchor t (openElement e t) := by
  refine h.growth_attributes (.modifyElement fun d => ⟨rfl, rfl⟩) fun m => ?_
  rw [openElement, Store.attributes_modifyElement]
  split
  · rename_i hm
    subst hm
    rw [Store.attributes, Store.attributeTable]
    cases t.element? m <;> rfl
  · rfl

theorem growth_noteDefinition {t : Store} : Growth t (noteDefinition e name t) := by
  rw [noteDefinition]
  split
  · exact .refl t
  · dsimp only
    split
    · exact .refl t
    · exact .trans .modifyDocument .modifyDocument

theorem tidy_noteDefinition {t : Store} (h : Tidy R anchor t) :
    Within R anchor t (noteDefinition e name t) := by
  refine h.growth_attributes growth_noteDefinition fun m => ?_
  rw [noteDefinition]
  split
  · rfl
  · dsimp only
    split
    · rfl
    · rw [Store.setExtra, Store.attributes_modifyDocument, Store.removeExtra,
        Store.attributes_modifyDocument]

/-- The children of an element stay in the region. -/
theorem children_within {t t' : Store} (h : Within R anchor t t')
    (hR : ∀ m, t.parent? m = some e → R m) (m : NodeId) (hm : t'.parent? m = some e) : R m := by
  by_contra hnot
  rw [h.confined.parent? m hnot] at hm
  exact hnot (hR m hm)

/-! ### Beginning an expansion -/

/-- Moving the children of an element to a new one. -/
theorem moveToNew {t t' : Store} {node : Tree.Node} (h : Tidy R anchor t) (he : t.Has e)
    (hR : ∀ m, t.parent? m = some e → R m) (hlinks : node.links = {})
    (hnode : ∃ d : Tree.ElementData, node.payload = .element { d with attrs := .empty })
    (ht : (t.add node).2.moveChildren e (some (t.add node).1) = .ok t') :
    Within R anchor t t' ∧ t'.Has (t.add node).1 := by
  have hadd := h.add hlinks (.inr hnode)
  obtain ⟨d, hd⟩ := hnode
  have hhas : (t.add node).2.Has (t.add node).1 := Store.has_of_tag? Store.tag?_add_self
  have hcont : (t.add node).2.isContainer (t.add node).1 := by
    rw [Store.isContainer, Store.payload?_add, if_pos rfl, hd]
    rfl
  have hmove := hadd.tidy.moveChildren (hadd.confined.has he) (children_within hadd hR) hcont
    (h.fresh _ Store.not_has_add) ht
  exact ⟨hadd.trans hmove, hmove.confined.has hhas⟩

theorem setFallback_yields (h : Tidy R anchor s.store) (he : s.store.Has e)
    (hR : ∀ m, s.store.parent? m = some e → R m) :
    (setFallback e name).Yields s fun f s' => ∃ t, Within R anchor s.store t ∧
      ¬ s.store.Has f ∧ t.Has f ∧ s' = { s with
        store := t
        definitions := s.definitions.setBodies name (s.definitions.bodiesOf name ++ [f]) } := by
  refine .bind (Work.fresh_yields (.bind (Work.tree_yields fun t ht => ?_)))
  obtain ⟨hw, hhas⟩ := moveToNew h he hR rfl ⟨{ qualifier := [], name := "default" }, rfl⟩ ht
  exact .bind (Work.modifyDefinitions_yields (.pure ⟨t, hw, Store.not_has_add, hhas, rfl⟩))

/-- What it takes to begin the expansion `x`: nodes change within a region, and default content is
new. -/
structure Began (R : NodeId → Prop) (anchor : Option NodeId) (x : Expansion) (s s' : Session) :
    Prop where
  within : Within R anchor s.store s'.store
  fallback (f : NodeId) : x.fallback = some f → ¬ s.store.Has f ∧ s'.store.Has f
  definitions : s'.definitions = s.definitions.push x

theorem Began.congr {x : Expansion} {s'' : Session} (h : Began R anchor x s s')
    (hstore : s''.store = s'.store) (hdefs : s''.definitions = s'.definitions) :
    Began R anchor x s s'' :=
  ⟨hstore ▸ h.within, fun f hf => hstore ▸ h.fallback f hf, hdefs.trans h.definitions⟩

/-- What follows the treatment of the default content, which led from `s` to `s'`. -/
theorem beginUse_yields {first : NodeId} (fallback : Option NodeId)
    (he : s.store.isElement e) (hR : ∀ m, s.store.parent? m = some e → R m)
    (hRe : R e ∨ anchor = some e) (hw : Within R anchor s.store s'.store)
    (hf : ∀ f, fallback = some f → ¬ s.store.Has f ∧ s'.store.Has f)
    (hdefs : s'.definitions = s.definitions.addFallback ⟨name, 0, fallback, false⟩)
    (hprops : s'.properties = s.properties) :
    (do
      discardChildren e
      appendCopies e first
      Work.modifyStore (openElement e)
      Work.modifyDefinitions fun t =>
        { t with uses := name :: t.uses
                 active := { name, index := 0, fallback, nested := false } :: t.active }
      return true : Work Bool).Yields s' fun r s'' =>
        r ∧ Began R anchor ⟨name, 0, fallback, false⟩ s s'' ∧ s''.properties = s.properties := by
  have hcont := Store.isContainer_of_isElement he
  refine .bind ((discardChildren_yields hw.tidy (hw.confined.has (Store.has_of_isContainer hcont))
    (children_within hw hR)).imp fun _ s₂ hs₂ => ?_)
  have hcont₂ := Store.isContainer_of_kind? hcont (hw.trans hs₂.within).confined.kind?
  refine .bind ((appendCopies_yields hs₂.within.tidy hcont₂ hRe).imp fun _ s₃ hs₃ => ?_)
  refine .bind (Work.modifyStore_yields (.bind (Work.modifyDefinitions_yields (.pure ?_))))
  have hw' := (hs₂.within.trans hs₃.within).trans (tidy_openElement (e := e) hs₃.within.tidy)
  obtain ⟨t₂, rfl, -⟩ := hs₂
  obtain ⟨t₃, rfl, -⟩ := hs₃
  refine ⟨rfl, ⟨hw.trans hw', fun f hx => ?_, ?_⟩, hprops⟩
  · obtain ⟨hnew, hhas⟩ := hf f hx
    exact ⟨hnew, hw'.confined.has hhas⟩
  · dsimp only
    rw [hdefs]
    cases fallback <;> rfl

/-- **A use.** Without a definition nothing changes; otherwise an expansion begins, and takes a name
that was available. -/
theorem expand_yields {ignore : Bool} (h : Tidy R anchor s.store) (he : s.store.isElement e)
    (hR : ∀ m, s.store.parent? m = some e → R m) (hRe : R e ∨ anchor = some e) :
    (expand e name ignore).Yields s fun r s' => if r then
      (∃ x, Began R anchor x s s' ∧ (x.nested = false ∧ x.index = 0) ∧
        x.name ∈ s.definitions.available) ∧
        s'.properties = s.properties
      else s' = s := by
  refine .bind (.get ?_)
  dsimp only
  split
  · exact .bind Work.fail_yields
  rename_i huses
  split
  · exact .pure rfl
  rename_i first rest hbodies
  have hname : name ∈ s.definitions.available :=
    Definitions.mem_available.mpr ⟨by simp [hbodies], by simpa using huses⟩
  refine .bind (Work.store_yields ?_)
  split
  · have hhas := Store.has_of_isContainer (Store.isContainer_of_isElement he)
    refine .bind (.map ((setFallback_yields h hhas hR).imp fun f s₁ hs₁ => ?_))
    obtain ⟨t, hw, hnew, hf, rfl⟩ := hs₁
    refine Action.Yields.imp (beginUse_yields (some f) he hR hRe hw ?_ ?_ rfl) fun r s' hs' => ?_
    · intro g hg
      obtain rfl := Option.some.inj hg
      exact ⟨hnew, hf⟩
    · rfl
    · rw [if_pos hs'.1]
      exact ⟨⟨_, hs'.2.1, ⟨rfl, rfl⟩, hname⟩, hs'.2.2⟩
  · refine .bind
      (.pure ((beginUse_yields none he hR hRe h.within ?_ rfl rfl).imp fun r s' hs' => ?_))
    · simp
    · rw [if_pos hs'.1]
      exact ⟨⟨_, hs'.2.1, ⟨rfl, rfl⟩, hname⟩, hs'.2.2⟩

/-- **A further definition.** Without one nothing changes; otherwise an expansion within the
innermost one begins, with the next definition of its name. -/
theorem expandParent_yields (h : Tidy R anchor s.store) (he : s.store.isElement e)
    (hRe : R e ∨ anchor = some e) :
    (expandParent e).Yields s fun r s' => (r = none ∧ s' = s) ∨
      ∃ x, Began R anchor x s s' ∧ (∀ m, s'.raised m = (m == e || s.raised m)) ∧
        r = s'.store.queue? e ∧ (s.definitions.push x).available = s.definitions.available ∧
        (s.definitions.push x).remaining < s.definitions.remaining := by
  refine .bind (.get ?_)
  dsimp only
  split
  · exact .pure (.inl ⟨rfl, rfl⟩)
  rename_i top active hactive
  split
  · exact .pure (.inl ⟨rfl, rfl⟩)
  rename_i next hnext
  refine .bind ((appendCopies_yields h (Store.isContainer_of_isElement he) hRe).imp
    fun _ s₁ hs₁ => ?_)
  refine .bind (Work.modifyStore_yields (.bind (Work.modifyDefinitions_yields ?_)))
  refine .bind (Work.requestReturn_yields (Work.enqueueChildren_yields (.inr ?_)))
  have hw := hs₁.within.trans (tidy_openElement (e := e) hs₁.within.tidy)
  obtain ⟨t₁, rfl, -⟩ := hs₁
  refine ⟨⟨top.name, top.index + 1, none, true⟩, ⟨hw, by simp, rfl⟩, fun m => ?_, rfl, ?_⟩
  · rw [Session.raised_raise]
    rfl
  have htop : s.definitions.active.head? = some top := by rw [hactive]; rfl
  exact Definitions.remaining_push rfl rfl htop rfl rfl (List.getElem?_eq_some_iff.mp hnext).1

/-! ### Ending an expansion -/

/-- **The innermost expansion ends.** Its default content is disposed of. -/
theorem leaveExpansion_yields (h : Tidy R anchor s.store)
    (hf : ∀ x ∈ s.definitions.active.head?, ∀ f ∈ x.fallback, R f ∧ s.store.Has f) :
    leaveExpansion.Yields s fun _ s' => Within R anchor s.store s'.store ∧
      s'.definitions = s.definitions.unwind ∧ s'.properties = s.properties := by
  refine .bind (.get ?_)
  split
  · rename_i hactive
    exact .pure ⟨h.within, (Definitions.unwind_of_nil hactive).symm, rfl⟩
  rename_i x active hactive
  refine .bind (Work.modifyDefinitions_yields ?_)
  have hunwind : s.definitions.unwind = Definitions.dropFallback x { s.definitions with
      active, uses := if x.nested then s.definitions.uses else s.definitions.uses.tail } := by
    rw [Definitions.unwind, hactive]
  split
  · rename_i hx
    refine .pure ⟨h.within, ?_, rfl⟩
    rw [hunwind, Definitions.dropFallback, hx]
  · rename_i f hx
    refine .bind (Work.modifyDefinitions_yields (Work.modifyStore_yields ⟨?_, ?_, rfl⟩))
    · obtain ⟨hR, hhas⟩ := hf x (by rw [hactive]; rfl) f hx
      exact h.dispose hhas hR
    · rw [hunwind, Definitions.dropFallback, hx]

/-! ### Definitions -/

/-- **A definition is added.** The expansions under way stay as they are. -/
theorem define_yields {d : Dialect} (h : Tidy R anchor s.store) :
    (define d e).Yields s fun _ s' => Within R anchor s.store s'.store ∧
      s'.properties = s.properties ∧ s'.definitions.active = s.definitions.active ∧
      s'.definitions.uses = s.definitions.uses ∧
      ∀ z b, b ∈ s'.definitions.bodiesOf z → b ∈ s.definitions.bodiesOf z ∨ b = e := by
  refine .bind (Work.extract_yields fun attrs => .bind (.get ?_))
  generalize attrs.text "name" = name
  have hadd : ∀ s₁ : Session, s₁.store = s.store → s₁.properties = s.properties →
      s₁.definitions.active = s.definitions.active → s₁.definitions.uses = s.definitions.uses →
      s₁.definitions.bodies = s.definitions.bodies →
      (do
        Work.modifyDefinitions fun t => t.setBodies name (t.bodiesOf name ++ [e])
        Work.modifyStore (noteDefinition e name) : Work Unit).Yields s₁ fun _ s' =>
          Within R anchor s.store s'.store ∧ s'.properties = s.properties ∧
          s'.definitions.active = s.definitions.active ∧ s'.definitions.uses = s.definitions.uses ∧
          ∀ z b, b ∈ s'.definitions.bodiesOf z → b ∈ s.definitions.bodiesOf z ∨ b = e := by
    intro s₁ hstore hprops hactive huses hbodies
    refine .bind (Work.modifyDefinitions_yields (Work.modifyStore_yields
      ⟨?_, hprops, hactive, huses, fun z b hb => ?_⟩))
    · dsimp only
      rw [hstore]
      exact tidy_noteDefinition h
    · have hsame : ∀ z, s₁.definitions.bodiesOf z = s.definitions.bodiesOf z := fun z => by
        rw [Definitions.bodiesOf, hbodies, Definitions.bodiesOf]
      dsimp only at hb
      rw [Definitions.bodiesOf_setBodies, hsame, hsame] at hb
      split at hb
      · rename_i hz
        subst hz
        simpa using hb
      · exact .inl hb
  split
  · split
    · exact .bind Work.fail_yields
    · exact hadd s rfl rfl rfl rfl rfl
  · exact .bind (Work.modifyDefinitions_yields (hadd _ rfl rfl rfl rfl rfl))

end Language

end Stencil
