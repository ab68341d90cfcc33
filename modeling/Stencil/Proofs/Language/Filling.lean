import Stencil.Proofs.Language.Expansion
import Stencil.Proofs.Language.Reference
import Stencil.Proofs.Tree.Views

/-!
# Filling elements

What becomes of an element that is replaced by a definition, in full: what it held before is set
aside or disposed of, copies of the definition are put below it, and it is no longer in the
self-closing form. Whatever is not below the element looks as it did, which is why definitions can
be used more than once.

## Main definitions

* `Store.Filled`, `Store.Emptied`, `Store.SetAside` – the single steps
* `Store.Refilled` – an element was filled with something else

## Main results

* `Language.appendCopies_gives`, `Language.discardChildren_gives`, `Language.setFallback_gives` –
  the steps succeed
-/

namespace Stencil

open Stencil.Tree (NodeId Store Node Content)
open Stencil.Tree.Store (Tidy Within Untouched Placeable Labelled)

namespace Tree.Store

variable {s s' s'' : Store} {n m e f b c : NodeId} {body body' inner : List Content} {x : Content}

/-! ### Work on an element -/

/-- Whatever is below an element after work on it belongs to its region. -/
theorem Within.region_of_above (hw : Within (s.Interior e) (some e) s s') (h : s.WellFormed)
    (ho : s.Owned) (he : s.Has e) (hm : s'.Above e m) : s.Region e m := by
  by_contra hout
  rw [hw.above_outside (h.tidy_interior ho he) fun hI => hout hI.1] at hm
  exact hout (.inl hm)

theorem Within.interior_le (hw : Within (s.Interior e) (some e) s s') (h : s.WellFormed)
    (ho : s.Owned) (he : s.Has e) (hm : s'.Interior e m) : s.Interior e m := by
  refine ⟨hm.1.elim (hw.region_of_above h ho he) fun hnew => ?_, hm.2⟩
  exact .inr fun hhas => hnew (hw.confined.has hhas)

/-- A tree that neither contains an element nor is part of it is out of the way of work on it. -/
theorem Within.not_region (hw : Within (s.Interior e) (some e) s s') (h : s.WellFormed)
    (ho : s.Owned) (he : s.Has e) (hb : s.Has b) (hdown : ¬ s.Above e b) (hup : ¬ s.Above b e)
    (hm : s'.Above b m) : ¬ s.Region e m := by
  have hout : ¬ s.Interior e b := fun hI => hI.1.elim hdown fun hnew => hnew hb
  have hbm : s.Above b m := by
    refine (hw.above_iff (h.tidy_interior ho he) hout fun q hq => ?_).mp hm
    obtain rfl := Option.some.inj hq
    exact hup
  rintro (hem | hnew)
  · exact (above_or_above hem hbm).elim hdown hup
  · rcases Store.above_iff.mp hbm with rfl | ⟨q, hq, -⟩
    · exact hnew hb
    · exact hnew (has_of_parent? hq)

/-- Work on an element is not noticed by trees out of the way. -/
theorem Untouched.holds_aside (hu : Untouched (s.Region e) s s') (h : s.WellFormed) (ho : s.Owned)
    (he : s.Has e) (hb : s.Placeable b) (hdown : ¬ s.Above e b) (hup : ¬ s.Above b e)
    (hx : s.Holds b x) : s'.Holds b x :=
  hu.holds h hb (fun _ => (h.tidy_interior ho he).within.not_region h ho he hb.has hdown hup) hx

/-- What is right below an element does not contain it. -/
theorem WellFormed.holds_children (h : s.WellFormed) (hu : Untouched (· = e) s s') {l : List NodeId}
    (hl : ∀ c ∈ l, s.parent? c = some e) (hbody : l.Forall₂ s.Holds body) :
    l.Forall₂ s'.Holds body := by
  refine hu.holds_all h (fun c hc => ⟨h.placeable (hl c hc), fun m hm hme => ?_⟩) hbody
  exact h.grounded.not_above_of_parent? (hl c hc) (hme ▸ hm)

/-! ### Putting copies below an element -/

/-- Copies of contents were put behind the children of an element. -/
structure Filled (e : NodeId) (body : List Content) (s s' : Store) : Prop where
  within : Within (fun m => ¬ s.Has m) (some e) s s'
  labelled : s'.Labelled
  untouched : Untouched (· = e) s s'
  view : ∃ copies, s'.view e = { s.view e with children := s.children e ++ copies } ∧
    copies.Forall₂ s'.Holds body

namespace Filled

protected theorem refl (h : s.WellFormed) (ho : s.Owned) (hl : s.Labelled) : Filled e [] s s :=
  ⟨(h.tidy_new ho _).within, hl, .refl s, [], by simp [Store.view], .nil⟩

protected theorem trans (h₁ : Filled e body s s') (h₂ : Filled e body' s' s'') :
    Filled e (body ++ body') s s'' := by
  have h' := h₁.within.tidy.wellFormed
  obtain ⟨l, hview, hholds⟩ := h₁.view
  obtain ⟨l', hview', hholds'⟩ := h₂.view
  have hchildren : s'.children e = s.children e ++ l := congrArg View.children hview
  refine ⟨h₁.within.trans (h₂.within.widen h₁.within.tidy h₁.within.tidy.fresh fun _ => .inr),
    h₂.labelled, h₁.untouched.trans h₂.untouched, l ++ l', ?_, ?_⟩
  · rw [hview', hview, hchildren, List.append_assoc]
  · refine List.rel_append (h'.holds_children h₂.untouched (fun c hc => ?_) hholds) hholds'
    rw [← h'.mem_children, hchildren]
    exact List.mem_append_right _ hc

/-- One copy. -/
theorem copy (h : s.WellFormed) (ho : s.Owned) (hl : s.Labelled) (he : s.isElement e)
    (hc : s.Placeable c) (hx : s.Holds c x) :
    ∃ t, (s.clone c).2.appendChild e (some (s.clone c).1) = .ok t ∧ Filled e [x] s t := by
  obtain ⟨hw, hnew, hhas⟩ := (h.tidy_new ho (some e)).clone hc.has
  obtain ⟨hholds, halone, hu⟩ := h.holds_clone (R := fun _ => False) ho hl hc.has hx
  have hl₁ : (s.clone c).2.Labelled := hl.clone
  generalize (s.clone c).1 = copy at *
  generalize (s.clone c).2 = s₁ at *
  have h₁ := hw.tidy.wellFormed
  have hup : ¬ s₁.Above copy e := fun hup => hw.tidy.below hnew hup (has_of_isElement he)
  have he₁ : s₁.isElement e := hw.confined.isElement he
  have hself : s₁.loose copy = s.loose c := (holds_iff.mp hholds).1.trans (holds_iff.mp hx).1.symm
  have hcopy : s₁.Placeable copy :=
    placeable_of_kind_ne hhas (by rw [kind?_eq_of_loose hself]; exact hc.kind_ne)
  have hok := h₁.appendChild_of_alone he₁ halone hcopy hup
  obtain ⟨hview, hu'⟩ := h₁.view_attachLast (has_of_isElement he₁) hhas halone
  have hsame : s₁.view e = s.view e := hu.view e (placeable_of_isElement he) id
  refine ⟨_, hok, hw.trans (hw.tidy.appendChild (isContainer_of_isElement he₁) hhas hnew (.inr rfl)
    hok), hl₁.attachLast, (hu.mono fun _ _ => False.elim).trans hu', [copy], ?_, .cons ?_ .nil⟩
  · rw [hview, hsame, show s₁.children e = s.children e from congrArg View.children hsame]
  · exact hu'.holds h₁ hcopy (fun m hm hme => hup (hme ▸ hm)) hholds

end Filled

/-! ### Taking the content of an element away -/

/-- What was below an element is gone. -/
structure Emptied (e : NodeId) (s s' : Store) : Prop where
  within : Within (s.Interior e) (some e) s s'
  labelled : s'.Labelled
  untouched : Untouched (s.Region e) s s'
  view : s'.view e = { s.view e with children := [] }

theorem WellFormed.emptied (h : s.WellFormed) (ho : s.Owned) (hl : s.Labelled)
    (he : s.isElement e) :
    Emptied e s ((s.children e).foldl (fun s c => s.dispose c) (s.removeChildren e).2) := by
  have hhas := has_of_isElement he
  have hR : ∀ m, s.parent? m = some e → s.Interior e m := fun m hm =>
    ⟨.inl (.of_parent? hm), fun eq => h.grounded.not_above_of_parent? hm (eq ▸ .refl m)⟩
  have hw := (h.tidy_interior ho hhas).removeChildren hhas hR
  obtain ⟨hview, hu⟩ := h.view_removeChildren (isContainer_of_isElement he)
  have hchild : ∀ c ∈ s.children e, s.parent? c = some e := fun c hc => h.mem_children.mp hc
  have halone : ∀ c ∈ s.children e,
      (s.removeChildren e).2.Placeable c ∧ (s.removeChildren e).2.parent? c = none := fun c hc =>
    ⟨(h.placeable (hchild c hc)).mono hu.kind?,
      by rw [h.parent?_removeChildren hhas, if_pos (hchild c hc)]⟩
  have habove : ∀ m, (∃ c ∈ s.children e, (s.removeChildren e).2.Above c m) →
      s.Above e m ∧ m ≠ e := by
    rintro m ⟨c, hc, hcm⟩
    have hcm' : s.Above c m := hcm.of_fewer fun _ _ hq => (h.parent?_of_removeChildren hhas hq).1
    refine ⟨(Above.of_parent? (hchild c hc)).trans hcm', ?_⟩
    rintro rfl
    exact h.grounded.not_above_of_parent? (hchild c hc) hcm'
  have hgone := hw.tidy.wellFormed.untouched_disposeAll hw.tidy.owned halone
  have hlabelled : (s.removeChildren e).2.Labelled :=
    hl.alike (.of_payload? fun _ => payload?_removeChildren)
  refine ⟨hw.trans (hw.tidy.disposeAll fun c hc => ⟨hR c (hchild c hc), (halone c hc).1.has⟩),
    hlabelled.shrink (.foldl (fun _ _ => .dispose) _), ?_, ?_⟩
  · refine (hu.mono fun m _ hm => ?_).trans (hgone.mono fun m _ hm => .inl (habove m hm).1)
    exact hm ▸ .inl (.refl m)
  · rw [hgone.view e ((placeable_of_isElement he).mono hu.kind?) fun hin => (habove e hin).2 rfl,
      hview]

/-- The content of an element is kept below another one, `f`, which is new and stands nowhere. -/
structure SetAside (e f : NodeId) (inner : List Content) (s s' : Store) : Prop where
  within : Within (s.Interior e) (some e) s s'
  labelled : s'.Labelled
  untouched : Untouched (· = e) s s'
  view : s'.view e = { s.view e with children := [] }
  new : ¬ s.Has f
  isElement : s'.isElement f
  unqualified : s'.Unqualified f
  alone : s'.parent? f = none
  holds : ∃ x, s'.Holds f x ∧ x.inner = inner

theorem WellFormed.setAside (h : s.WellFormed) (ho : s.Owned) (hl : s.Labelled) (he : s.isElement e)
    (hinner : (s.children e).Forall₂ s.Holds inner) (node : Node) (d : ElementData)
    (hlinks : node.links = {}) (hnode : node.payload = .element { d with attrs := .empty })
    (huri : d.uri = none) :
    ∃ t, (s.add node).2.moveChildren e (some (s.add node).1) = .ok t ∧
      SetAside e (s.add node).1 inner s t := by
  have hhas := has_of_isElement he
  have hR : ∀ m, s.parent? m = some e → s.Interior e m := fun m hm =>
    ⟨.inl (.of_parent? hm), fun eq => h.grounded.not_above_of_parent? hm (eq ▸ .refl m)⟩
  have hg : Growth s (s.add node).2 := .add hlinks
  have hnew : ¬ s.Has (s.add node).1 := not_has_add
  have hu : Untouched (fun _ => False) s (s.add node).2 :=
    .of_get? h ho.listed fun m => get?_add_of_has
  have hl₁ : (s.add node).2.Labelled := hl.shrink (.add (by rw [hnode]; rfl))
  have hf₁ : (s.add node).2.isElement (s.add node).1 := by
    rw [Store.isElement, element?, payload?_add, if_pos rfl, hnode]
    rfl
  have htag : (s.add node).2.tag? (s.add node).1 = some (.element, none, d.name) := by
    rw [tag?_add_self, hnode, Payload.tag, huri]
  have hmoveToNew := fun t (ht : (s.add node).2.moveChildren e (some (s.add node).1) = .ok t) =>
    Language.moveToNew (h.tidy_interior ho hhas) hhas hR hlinks ⟨d, hnode⟩ ht
  generalize (s.add node).1 = f at *
  generalize (s.add node).2 = s₁ at *
  have h₁ := h.growth hg
  have hne : e ≠ f := fun eq => hnew (eq ▸ hhas)
  obtain ⟨halone, hfree⟩ := h.fresh hg hnew
  have hempty : s₁.children f = [] := List.eq_nil_iff_forall_not_mem.mpr fun k hk => by
    have hk := h₁.mem_children.mp hk
    rw [hg.parent?] at hk
    exact hnew (h.has_parent hk)
  have he₁ : s₁.isContainer e := isContainer_of_kind? (isContainer_of_isElement he) hu.kind?
  obtain ⟨t, ht⟩ := h₁.moveChildren_to_element hf₁ hne halone hempty
  obtain ⟨hview, hview', hu'⟩ := h₁.view_moveChildren he₁ (isContainer_of_isElement hf₁) hne ht
  obtain ⟨-, hpay, hparent⟩ := h₁.moveChildren_spec (has_of_isContainer he₁)
    (by simpa using isContainer_of_isElement hf₁) ht
  have hsame : s₁.view e = s.view e := hu.view e (placeable_of_isElement he) id
  have hchildren : s₁.children e = s.children e := congrArg View.children hsame
  refine ⟨t, ht, (hmoveToNew t ht).1, hl₁.alike (.of_payload? hpay), ?_, ?_, hnew, ?_,
    ⟨_, d.name, by rw [tag?, hpay, ← tag?, htag]⟩, ?_, .node (t.loose f)
      ((t.attributes f).map t.loose) inner, holds_iff.mpr ⟨rfl, rfl, ?_⟩, rfl⟩
  · refine ((hu.mono fun _ _ => False.elim).trans hu').mono fun m hm hmef => ?_
    exact hmef.resolve_right fun hmf => hnew (hmf ▸ hm)
  · rw [hview, hsame]
  · rwa [Store.isElement, element?_congr (hpay f)]
  · rcases hparent f with hsame' | ⟨hfe, -⟩
    · rw [hsame', halone]
    · rw [halone] at hfe
      cases hfe
  · -- the children stand below `f` now, and none of them contains `e` or `f`
    have hto : t.children f = s.children e := (congrArg View.children hview').trans hchildren
    have hparent₁ : ∀ c ∈ s.children e, s₁.parent? c = some e := fun c hc =>
      h₁.mem_children.mp (hchildren ▸ hc)
    rw [hto]
    refine hu'.holds_all h₁ (fun c hc => ⟨h₁.placeable (hparent₁ c hc), fun m hm hmef => ?_⟩)
      (hu.holds_all h (fun c hc => ⟨h.placeable (h.mem_children.mp hc), fun _ _ => id⟩) hinner)
    rcases hmef with rfl | rfl
    · exact h₁.grounded.not_above_of_parent? (hparent₁ c hc) hm
    · rcases above_iff.mp hm with rfl | ⟨q, hq, -⟩
      · rw [hparent₁ c hc] at halone
        cases halone
      · rw [halone] at hq
        cases hq

/-! ### The form of an element -/

/-- Opening an element is noticed at the element. -/
theorem WellFormed.view_openElement (h : s.WellFormed) (ho : s.Owned) (he : s.isElement e) :
    (Language.openElement e s).view e = { s.view e with self := Language.opened (s.loose e) } ∧
      Untouched (· = e) s (Language.openElement e s) := by
  have hpay : ∀ n, n ≠ e → (Language.openElement e s).get? n = s.get? n := fun n hn =>
    get?_modifyElement_of_ne hn
  have halike : Alike s (Language.openElement e s) := .modifyElement fun d => ⟨rfl, rfl, rfl⟩
  obtain ⟨d, hd⟩ := Option.isSome_iff_exists.mp he
  have hself : (Language.openElement e s).get? e = (s.get? e).map fun node =>
      { node with payload := .element { d with selfClosing := false } } := by
    rw [Language.openElement, modifyElement, hd]
    exact (get?_modify ..).trans (if_pos rfl)
  have hlinks : ∀ n, (Language.openElement e s).links n = s.links n := by
    intro n
    by_cases hn : n = e
    · rw [hn, links, hself, links]
      cases s.get? e <;> rfl
    · rw [links, hpay n hn, links]
  have hchildren : (Language.openElement e s).children = s.children :=
    (h.linked.congr hlinks).children_eq
  have hattr : ∀ n, ∀ a ∈ s.attributes n, (Language.openElement e s).loose a = s.loose a := by
    intro n a ha
    refine loose_congr (hpay a fun hae => ?_)
    have hkind := ho.kind n a ha
    rw [hae, kind?_of_isElement he] at hkind
    cases hkind
  have hloose : (Language.openElement e s).loose e = Language.opened (s.loose e) := by
    have hnode := payload?_of_element? hd
    rw [payload?] at hnode
    rw [loose, hself, loose, Language.opened]
    cases hget : s.get? e with
    | none => rfl
    | some node =>
      rw [hget] at hnode
      have hnode : node.payload = .element d := Option.some.inj hnode
      simp [Node.loose, Payload.loose, Payload.mapElement, hnode]
  refine ⟨?_, .of_view (fun n k hk => ?_) fun n _ _ hn => ?_⟩
  · rw [view, view, hloose, halike.attributes, hchildren, List.map_congr_left (hattr e)]
  · rwa [kind?_eq_map_tag?, halike.tag?, ← kind?_eq_map_tag?]
  · exact view_congr (loose_congr (hpay n hn)) (halike.attributes n) (hattr n)
      (congrFun hchildren n)

/-- An element was filled with something else, and is no longer in the self-closing form. -/
structure Refilled (e : NodeId) (body : List Content) (s s' : Store) : Prop where
  within : Within (s.Interior e) (some e) s s'
  labelled : s'.Labelled
  untouched : Untouched (s.Region e) s s'
  self : s'.loose e = Language.opened (s.loose e)
  attributes : (s'.attributes e).map s'.loose = (s.attributes e).map s.loose
  holds : (s'.children e).Forall₂ s'.Holds body

/-- An element that was worked on, then filled and opened. -/
theorem Filled.refilled {s₁ : Store} (hf : Filled e body s₁ s') (he : s.isElement e)
    (hw : Within (s.Interior e) (some e) s s₁) (hu : Untouched (s.Region e) s s₁)
    (hview : s₁.view e = { s.view e with children := s₁.children e })
    (hinner : (s₁.children e).Forall₂ s₁.Holds inner) :
    Refilled e (inner ++ body) s (Language.openElement e s') := by
  have hw' := hw.trans (hf.within.widen hw.tidy hw.tidy.fresh fun _ => .inr)
  have h' := hw'.tidy.wellFormed
  have he' : s'.isElement e := hw'.confined.isElement he
  obtain ⟨copies, hfull, hcopies⟩ := hf.view
  obtain ⟨hopen, hu'⟩ := h'.view_openElement hw'.tidy.owned he'
  have hpay : (s'.loose e, (s'.attributes e).map s'.loose, s'.children e) =
      (s.loose e, (s.attributes e).map s.loose, s₁.children e ++ copies) := by
    have hself := congrArg View.self hfull
    have hattrs := congrArg View.attributes hfull
    have hchildren := congrArg View.children hfull
    rw [hview] at hself hattrs hchildren
    exact congrArg₂ Prod.mk hself (congrArg₂ Prod.mk hattrs hchildren)
  obtain ⟨hself, hattrs, hchildren⟩ : s'.loose e = s.loose e ∧ _ ∧ _ := by simpa using hpay
  have hin : (s'.children e).Forall₂ s'.Holds (inner ++ body) := by
    rw [hchildren]
    refine List.rel_append ?_ hcopies
    exact hw.tidy.wellFormed.holds_children hf.untouched
      (fun c hc => hw.tidy.wellFormed.mem_children.mp hc) hinner
  refine ⟨hw'.trans (Language.tidy_openElement hw'.tidy),
    hf.labelled.alike (.modifyElement fun d => ⟨rfl, rfl, rfl⟩), ?_, ?_, ?_, ?_⟩
  · refine hu.trans ((hf.untouched.trans hu').mono fun m _ hm => .inl (hm ▸ .refl m))
  · rw [show (Language.openElement e s').loose e = _ from congrArg View.self hopen, hself]
  · rw [show ((Language.openElement e s').attributes e).map (Language.openElement e s').loose =
      _ from congrArg View.attributes hopen]
    exact hattrs
  · rw [show (Language.openElement e s').children e = _ from congrArg View.children hopen]
    exact h'.holds_children hu' (fun c hc => h'.mem_children.mp hc) hin

theorem Emptied.refilled {s₁ : Store} (h₁ : Emptied e s s₁) (h₂ : Filled e body s₁ s')
    (he : s.isElement e) : Refilled e body s (Language.openElement e s') := by
  have hnil : s₁.children e = [] := congrArg View.children h₁.view
  have hview : s₁.view e = { s.view e with children := s₁.children e } := hnil ▸ h₁.view
  have hinner : (s₁.children e).Forall₂ s₁.Holds [] := hnil ▸ .nil
  exact h₂.refilled he h₁.within h₁.untouched hview hinner

/-- Whether the content of an element was set aside before does not matter. -/
theorem SetAside.refilled {s₁ : Store} (h₁ : SetAside e f inner s s₁) (h₂ : Refilled e body s₁ s')
    (h : s.WellFormed) (ho : s.Owned) (he : s.isElement e) : Refilled e body s s' := by
  have hhas := has_of_isElement he
  have hle : ∀ m, s₁.Interior e m → s.Interior e m := fun m => h₁.within.interior_le h ho hhas
  have hself : s₁.loose e = s.loose e := congrArg View.self h₁.view
  have hattrs : (s₁.attributes e).map s₁.loose = (s.attributes e).map s.loose :=
    congrArg View.attributes h₁.view
  refine ⟨h₁.within.trans (h₂.within.widen h₁.within.tidy hle fun _ => .inr), h₂.labelled, ?_,
    by rw [h₂.self, hself], h₂.attributes.trans hattrs, h₂.holds⟩
  refine (h₁.untouched.mono fun m _ hm => .inl (hm ▸ .refl m)).trans
    (h₂.untouched.mono fun m _ hm => ?_)
  by_cases hme : m = e
  · exact hme ▸ .inl (.refl m)
  · exact (hle m ⟨hm, hme⟩).1

end Tree.Store

/-! ### The steps succeed -/

namespace Language

open Stencil.Tree.Store (Filled Emptied SetAside)

variable {s : Session} {e src : NodeId} {name : Text} {body inner : List Content}

/-- Copying content to an element that is not part of it. -/
theorem appendCopies_gives (h : s.store.WellFormed) (ho : s.store.Owned) (hl : s.store.Labelled)
    (he : s.store.isElement e) (hbody : (s.store.children src).Forall₂ s.store.Holds body)
    (hup : ¬ s.store.Above src e) :
    (appendCopies e src).Gives s fun _ s' =>
      ∃ t, s' = { s with store := t } ∧ Filled e body s.store t := by
  have hall : ∀ (l : List NodeId) (body : List Content) (s : Session), s.store.WellFormed →
      s.store.Owned → s.store.Labelled → s.store.isElement e →
      (∀ c ∈ l, s.store.Placeable c ∧ ¬ s.store.Above c e) → l.Forall₂ s.store.Holds body →
      (l.forM fun c => do
        let copy ← Work.fresh (·.clone c)
        Work.tree (·.appendChild e (some copy)) : Work PUnit).Gives s fun _ s' =>
          ∃ t, s' = { s with store := t } ∧ Filled e body s.store t := by
    intro l
    induction l with
    | nil =>
      intro body s h ho hl he hc hbody
      cases hbody
      exact .pure ⟨s.store, rfl, .refl h ho hl⟩
    | cons c l ih =>
      intro body s h ho hl he hc hbody
      obtain ⟨x, body, hx, hrest, rfl⟩ := List.forall₂_cons_left_iff.mp hbody
      obtain ⟨⟨hplace, -⟩, hc⟩ := List.forall_mem_cons.mp hc
      obtain ⟨t, ht, hfirst⟩ := Filled.copy h ho hl he hplace hx
      refine .bind (.bind (Work.fresh_gives (Work.tree_gives ht ?_)))
      have hw := hfirst.within
      have he' : t.isElement e := hw.confined.isElement he
      have hothers :=
        ih body { s with store := t } hw.tidy.wellFormed hw.tidy.owned hfirst.labelled he'
        (fun d hd => ⟨(hc d hd).1.mono hw.confined.kind?, fun hup => (hc d hd).2 ?_⟩)
        (hfirst.untouched.holds_all h
          (fun d hd => ⟨(hc d hd).1, fun m hm hme => (hc d hd).2 (hme ▸ hm)⟩) hrest)
      · refine hothers.imp fun _ s' hs' => ?_
        obtain ⟨t', rfl, hothers⟩ := hs'
        exact ⟨t', rfl, hfirst.trans hothers⟩
      · refine (hw.above_iff (h.tidy_new ho _) (not_not.mpr (hc d hd).1.has) fun q hq => ?_).mp hup
        obtain rfl := Option.some.inj hq
        exact (hc d hd).2
  refine .bind (.bind (Work.store_gives (.pure ?_)))
  refine hall _ body s h ho hl he (fun c hc => ?_) hbody
  have hparent := h.mem_children.mp hc
  exact ⟨h.placeable hparent, fun hup' => hup ((Store.Above.of_parent? hparent).trans hup')⟩

/-- Discarding the content of an element. -/
theorem discardChildren_gives (h : s.store.WellFormed) (ho : s.store.Owned) (hl : s.store.Labelled)
    (he : s.store.isElement e) : (discardChildren e).Gives s fun _ s' =>
      ∃ t, s' = { s with store := t } ∧ Emptied e s.store t :=
  .bind (Work.store_gives (Work.modifyStore_gives ⟨_, rfl, h.emptied ho hl he⟩))

/-- Keeping the content of an element as a last definition. -/
theorem setFallback_gives (h : s.store.WellFormed) (ho : s.store.Owned) (hl : s.store.Labelled)
    (he : s.store.isElement e) (hinner : (s.store.children e).Forall₂ s.store.Holds inner) :
    (setFallback e name).Gives s fun f s' => ∃ t, SetAside e f inner s.store t ∧ s' = { s with
      store := t
      definitions := s.definitions.setBodies name (s.definitions.bodiesOf name ++ [f]) } := by
  obtain ⟨t, ht, haside⟩ := h.setAside ho hl he hinner
    { payload := .element { qualifier := [], name := "default" } }
    { qualifier := [], name := "default" } rfl rfl rfl
  exact .bind (Work.fresh_gives
    (.bind (Work.tree_gives ht (.bind ⟨_, _, rfl, .pure ⟨t, haside, rfl⟩⟩))))

end Language

end Stencil
