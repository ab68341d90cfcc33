import Stencil.Proofs.Language.Filling
import Stencil.Proofs.Language.Termination

/-!
# Scenes in a session

A session stands for a scene if its table lists nodes that hold the definitions, in the same order,
and if the uses under way and the innermost expansion are those of the scene. That is an invariant
of the stage that changes the tree as long as definitions are out of the way of what the stage works
on: a definition is neither part of what is visited nor does it contain it.

Where an element was replaced by a definition, the session stands for the scene of that definition.
Default content is set aside in a node of its own, which stands nowhere; it is out of the way like
any other definition, until the expansion ends and it is disposed of.

## Main definitions

* `Session.Aside` – definitions are out of the way of a region
* `Session.Represents` – a session stands for a scene
* `Language.Opens` – an element goes on with a content in a scene

## Main results

* `Session.Aside.sibling` – what happens to a node is out of the way of its siblings
* `Session.Represents.untouched` – scenes do not change while definitions are out of the way
* `Language.opens_of_push` – an expansion begins
-/

namespace Stencil

open Stencil.Tree (NodeId Store Node Content)
open Stencil.Tree.Store (Tidy Within Untouched Placeable Labelled Refilled SetAside Filled Emptied)
open Definitions (Agrees)

variable {s s' s'' : Session} {R R' : NodeId → Prop} {anchor : Option NodeId} {n m e d p f : NodeId}
  {name : Text} {body content former : List Content} {form : Option Node} {c : Content}

/-! ### Definitions out of the way -/

namespace Session

/-- No definition belongs to a region, and none contains the place where the region is anchored. -/
def Aside (R : NodeId → Prop) (anchor : Option NodeId) (s : Session) : Prop :=
  ∀ z, ∀ b ∈ s.definitions.bodiesOf z, ¬ R b ∧ ∀ q, anchor = some q → ¬ s.store.Above b q

namespace Aside

/-- Nothing of a region is below a definition. -/
theorem not_above (h : s.Aside R anchor) (ht : Tidy R anchor s.store) {z : Text} {b : NodeId}
    (hb : b ∈ s.definitions.bodiesOf z) (hm : R m) : ¬ s.store.Above b m :=
  ht.not_above (h z b hb).1 (fun q hq _ => (h z b hb).2 q hq) hm

/-- What is out of the way of a region is out of the way of a node of it. -/
theorem inner (h : s.Aside R anchor) (ht : Tidy R anchor s.store) (hn : R n) :
    s.Aside (s.store.Region n) (s.store.parent? n) := fun z b hb => by
  refine ⟨fun hr => (h z b hb).1 (ht.region_le hn hr), fun q hq => ?_⟩
  rcases ht.up n q hq hn with hq' | hq'
  · exact h.not_above ht hb hq'
  · exact (h z b hb).2 q hq'

/-- What is out of the way of a node is out of the way of what is below it. -/
theorem interior (h : s.Aside (s.store.Region n) (s.store.parent? n)) :
    s.Aside (s.store.Interior n) (some n) := fun z b hb => by
  refine ⟨fun hI => (h z b hb).1 hI.1, fun q hq hup => ?_⟩
  obtain rfl := Option.some.inj hq
  rcases Store.above_iff.mp hup with rfl | ⟨q, hq, hup⟩
  · exact (h z _ hb).1 (.inl (.refl _))
  · exact (h z b hb).2 q hq hup

/-- Work on a node is out of the way of its siblings, and so are the definitions it brings. -/
theorem sibling (h : s.Aside (s.store.Region d) (s.store.parent? d)) (hwf : s.store.WellFormed)
    (ho : s.store.Owned) (hw : Within (s.store.Region n) (s.store.parent? n) s.store s'.store)
    (hk : s'.Known) (hn : s.store.parent? n = some p) (hd : s.store.parent? d = some p)
    (hne : d ≠ n) (hbodies : ∀ z, ∀ b ∈ s'.definitions.bodiesOf z,
      b ∈ s.definitions.bodiesOf z ∨ s.store.Region n b) :
    s'.Aside (s'.store.Region d) (s'.store.parent? d) := by
  have ht := hwf.tidy_region ho n
  have hout := hwf.not_region_sibling hn hd hne
  have hp : ¬ s.store.Region n p := by
    rintro (hup | hnew)
    · exact hwf.grounded.not_above_of_parent? hn hup
    · exact hnew (hwf.has_parent hn)
  have hd' : s'.store.parent? d = some p := (hw.confined.parent? d hout).trans hd
  have hanchor : ∀ q, s.store.parent? n = some q → ¬ s.store.Above d q := by
    intro q hq
    obtain rfl := Option.some.inj (hn.symm.trans hq)
    exact hwf.grounded.not_above_of_parent? hd
  intro z b hb
  have hhas := hk z b hb
  rw [hd']
  rcases hbodies z b hb with hold | hnew
  · obtain ⟨hbd, hbp⟩ := h z b hold
    refine ⟨?_, fun q hq hup => ?_⟩
    · rintro (hup | hgone)
      · exact hbd (.inl ((hw.above_iff ht hout hanchor).mp hup))
      · exact hgone hhas
    · obtain rfl := Option.some.inj hq
      exact hbp p hd ((hw.above_outside ht hp).mp hup)
  · refine ⟨?_, fun q hq hup => ?_⟩
    · rintro (hup | hgone)
      · refine hw.tidy.not_above hout (fun q hq _ hup' => ?_) hnew hup
        obtain rfl := Option.some.inj (hn.symm.trans hq)
        exact hw.tidy.wellFormed.grounded.not_above_of_parent? hd' hup'
      · exact hgone hhas
    · obtain rfl := Option.some.inj hq
      exact hp (hw.tidy.below hnew hup)

end Aside

end Session

/-! ### Representing scenes -/

/-- A node serves as a definition of the given content. -/
def Tree.Store.Defines (t : Store) (b : NodeId) (body : List Content) : Prop :=
  t.Placeable b ∧ (t.children b).Forall₂ t.Holds body

/-- A definition is what it was if it is out of the way. -/
theorem Tree.Store.Untouched.defines {t t' : Store} (hu : Untouched R t t') (h : t.WellFormed)
    (hout : ∀ m, t.Above f m → ¬ R m) (hf : t.Defines f body) : t'.Defines f body := by
  obtain ⟨hplace, hbody⟩ := hf
  refine ⟨hplace.mono hu.kind?, ?_⟩
  rw [show t'.children f = t.children f from
    congrArg Store.View.children (hu.view f hplace (hout f (.refl f)))]
  refine hu.holds_all h (fun c hc => ?_) hbody
  have hparent := h.mem_children.mp hc
  exact ⟨h.placeable hparent, fun m hm => hout m ((Store.Above.of_parent? hparent).trans hm)⟩

open Stencil.Language (Scene)

/-- A session stands for a scene. -/
structure Session.Represents (s : Session) (σ : Scene) : Prop where
  labelled : s.store.Labelled
  bodies (z : Text) : (s.definitions.bodiesOf z).Forall₂ s.store.Defines (σ.table.bodies z)
  arguments (z : Text) : s.definitions.arguments? z = σ.table.arguments z
  uses : s.definitions.uses = σ.uses
  frame : s.definitions.active.head?.map (fun x => (x.name, x.index)) = σ.frame

variable {σ σ' : Scene}

namespace Session.Represents

theorem congr (h : s.Represents σ) (hstore : s'.store = s.store)
    (hdefs : s'.definitions = s.definitions) : s'.Represents σ where
  labelled := hstore ▸ h.labelled
  bodies := hstore ▸ hdefs ▸ h.bodies
  arguments := hdefs ▸ h.arguments
  uses := hdefs ▸ h.uses
  frame := hdefs ▸ h.frame

theorem bodies_untouched (h : s.Represents σ) (ht : Tidy R anchor s.store) (ha : s.Aside R anchor)
    {t : Store} (hu : Untouched R s.store t) (z : Text) :
    (s.definitions.bodiesOf z).Forall₂ t.Defines (σ.table.bodies z) := by
  refine (List.forall₂_iff_get.mpr ⟨(h.bodies z).length_eq, fun i hi hi' => ?_⟩)
  refine hu.defines ht.wellFormed (fun m hm hR => ?_) ((h.bodies z).get hi hi')
  exact ha.not_above ht (List.get_mem _ _) hR hm

/-- **Scenes do not change** while definitions are out of the way. -/
theorem untouched (h : s.Represents σ) (ht : Tidy R anchor s.store) (ha : s.Aside R anchor)
    (hl : s'.store.Labelled) (hu : Untouched R s.store s'.store)
    (hd : Agrees True s.definitions s'.definitions)
    (hargs : ∀ z, s'.definitions.arguments? z = s.definitions.arguments? z) : s'.Represents σ where
  labelled := hl
  bodies z := hd.bodiesOf trivial z ▸ h.bodies_untouched ht ha hu z
  arguments z := (hargs z).trans (h.arguments z)
  uses := hd.uses.trans h.uses
  frame := by rw [hd.active, h.frame]

/-- A name is defined in the session if it is in the scene. -/
theorem bodiesOf_eq_nil (h : s.Represents σ) (hname : σ.table.bodies name = []) :
    s.definitions.bodiesOf name = [] := by
  have hbodies := h.bodies name
  rw [hname] at hbodies
  exact List.forall₂_nil_right_iff.mp hbodies

end Session.Represents

/-! ### Opening an element -/

namespace Language

/-- An element goes on with a content in a scene. -/
structure Opens (n : NodeId) (σ : Scene) (content : List Content) (form : Option Node)
    (s s' : Session) : Prop where
  within : Within (s.store.Interior n) (some n) s.store s'.store
  represents : s'.Represents σ
  aside : s'.Aside (s'.store.Interior n) (some n)
  untouched : Untouched (s.store.Region n) s.store s'.store
  self : s'.store.loose n = form
  attributes : (s'.store.attributes n).map s'.store.loose = (s.store.attributes n).map s.store.loose
  holds : (s'.store.children n).Forall₂ s'.store.Holds content
  /-- Definitions that are added are new nodes. -/
  bodies (z : Text) (b : NodeId) : b ∈ s'.definitions.bodiesOf z →
    b ∈ s.definitions.bodiesOf z ∨ ¬ s.store.Has b
  /-- Default content of the expansions that have begun stands nowhere. -/
  began : ∃ began, s'.definitions.active = began ++ s.definitions.active ∧
    ∀ x ∈ began, ∀ f ∈ x.fallback, s'.store.Placeable f ∧ s'.store.parent? f = none ∧
      ¬ s.store.Has f

/-- An element goes on as it is. -/
theorem Opens.refl (hs : Sound n s) (h : s.Represents σ)
    (ha : s.Aside (s.store.Region n) (s.store.parent? n)) (hc : s.store.Holds n c) :
    Opens n σ c.inner c.self s s :=
  let ⟨hself, _, hinner⟩ := Store.holds_iff.mp hc
  ⟨hs.tidy.within, h, ha.interior, .refl _, hself, rfl, hinner, fun _ _ => .inl, [], rfl, by simp⟩

theorem Opens.congr (h : Opens n σ content form s s') (hstore : s''.store = s'.store)
    (hdefs : s''.definitions = s'.definitions) : Opens n σ content form s s'' where
  within := hstore ▸ h.within
  represents := h.represents.congr hstore hdefs
  aside := by
    intro z b hb
    rw [hdefs] at hb
    rw [hstore]
    exact h.aside z b hb
  untouched := hstore ▸ h.untouched
  self := hstore ▸ h.self
  attributes := hstore ▸ h.attributes
  holds := hstore ▸ h.holds
  bodies z b hb := h.bodies z b (hdefs ▸ hb)
  began := by
    rw [hdefs, hstore]
    exact h.began

/-- **An expansion begins.** The element was filled, and default content is a last definition. -/
theorem opens_of_push {x : Expansion} {formers : List (List Content)} (hs : Sound n s)
    (h : s.Represents σ) (ha : s.Aside (s.store.Region n) (s.store.parent? n))
    (hfill : Refilled n content s.store s'.store) (hdefs : s'.definitions = s.definitions.push x)
    (hformer : x.fallback.toList.Forall₂ s'.store.Defines formers)
    (halone : ∀ f ∈ x.fallback, ¬ s.store.Has f ∧ s'.store.parent? f = none)
    (hbodies : ∀ z, σ'.table.bodies z =
      if z = x.name then σ.table.bodies z ++ formers else σ.table.bodies z)
    (harguments : σ'.table.arguments = σ.table.arguments)
    (huses : σ'.uses = if x.nested then σ.uses else x.name :: σ.uses)
    (hframe : σ'.frame = some (x.name, x.index)) :
    Opens n σ' content (opened (s.store.loose n)) s s' := by
  have ht := hs.tidy
  have hargs : s'.definitions.arguments = s.definitions.arguments := by
    rw [hdefs, Definitions.push, Definitions.addFallback]
    cases x.fallback <;> rfl
  have hplace : ∀ f ∈ x.fallback, s'.store.Placeable f := by
    intro f hf
    rw [Option.mem_def] at hf
    rw [hf] at hformer
    obtain ⟨_, _, hfirst, -, -⟩ := List.forall₂_cons_left_iff.mp hformer
    exact hfirst.1
  have hbodiesOf : ∀ z, ∀ b ∈ s'.definitions.bodiesOf z,
      b ∈ s.definitions.bodiesOf z ∨ b ∈ x.fallback := by
    intro z b hb
    rw [hdefs, Definitions.bodiesOf_push] at hb
    split at hb
    · exact (List.mem_append.mp hb).imp_right fun hb => by simpa using hb
    · exact .inl hb
  refine ⟨hfill.within, ⟨hfill.labelled, fun z => ?_, fun z => ?_, ?_, ?_⟩,
    fun z b hb => ?_, hfill.untouched, hfill.self, hfill.attributes, hfill.holds,
    fun z b hb => (hbodiesOf z b hb).imp_right fun hb => (halone b hb).1, [x], ?_, ?_⟩
  · have hkept := h.bodies_untouched (hs.wellFormed.tidy_region hs.owned n) ha hfill.untouched z
    rw [hdefs, Definitions.bodiesOf_push, hbodies]
    split
    · exact List.rel_append hkept hformer
    · exact hkept
  · rw [harguments, ← h.arguments, Definitions.arguments?, hargs, Definitions.arguments?]
  · rw [hdefs, Definitions.uses_push, huses, h.uses]
  · rw [hdefs, Definitions.active_push, hframe]
    rfl
  · -- a definition that was there is out of the way; default content stands nowhere, and is new
    rcases hbodiesOf z b hb with hold | hb
    · have hle : ∀ m, s'.store.Interior n m → s.store.Interior n m := fun m =>
        hfill.within.interior_le hs.wellFormed hs.owned hs.has
      obtain ⟨hout, hup⟩ := ha.interior z b hold
      exact ⟨fun hI => hout (hle b hI), fun q hq hup' =>
        hup q hq ((hfill.within.above_iff ht hout hup).mp hup')⟩
    · obtain ⟨hnew, hparent⟩ := halone b hb
      refine ⟨fun hI => ?_, fun q hq hup => ?_⟩
      · rcases hI.1 with hup | hgone
        · rcases Store.above_iff.mp hup with heq | ⟨q, hq, -⟩
          · exact hI.2 heq.symm
          · rw [hparent] at hq
            cases hq
        · exact hgone (hplace b hb).has
      · obtain rfl := Option.some.inj hq
        exact (hfill.within.tidy.below (ht.fresh b hnew) hup).2 rfl
  · rw [hdefs, Definitions.active_push]
    rfl
  · intro y hy f hf
    obtain rfl := List.mem_singleton.mp hy
    exact ⟨hplace f hf, (halone f hf).2, (halone f hf).1⟩

end Language

end Stencil
