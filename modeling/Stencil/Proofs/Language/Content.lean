import Stencil.Language.Definition
import Stencil.Language.Template
import Stencil.Proofs.Compiler.Session
import Stencil.Proofs.Tree.Regions

/-!
# What instructions do to the tree

The parts of the instructions that change the tree and nothing else: copying content to a place of
use, discarding content, and replacing a `load` by copies of the content of another template. Each
stays within any region that contains what is copied to, or is anchored there.

## Main definitions

* `Session.OnTree` – only the nodes have changed, within a region

## Main results

* `Language.appendCopies_yields`, `Language.discardChildren_yields`, `Language.insertCopies_yields`
-/

namespace Stencil

open Stencil.Tree (NodeId Store NodeKind)
open Stencil.Tree.Store (Tidy Within Confined)

variable {s s' s'' : Session} {R R' : NodeId → Prop} {anchor anchor' : Option NodeId}
  {e n src dst parent : NodeId}

/-- Only the nodes have changed, and they have within a region. -/
def Session.OnTree (R : NodeId → Prop) (anchor : Option NodeId) (s s' : Session) : Prop :=
  ∃ t, s' = { s with store := t } ∧ Within R anchor s.store t

namespace Session.OnTree

theorem intro {t : Store} (h : Within R anchor s.store t) :
    s.OnTree R anchor { s with store := t } :=
  ⟨t, rfl, h⟩

protected theorem refl (h : Tidy R anchor s.store) : s.OnTree R anchor s := intro h.within

protected theorem trans (h₁ : s.OnTree R anchor s') (h₂ : s'.OnTree R anchor s'') :
    s.OnTree R anchor s'' := by
  obtain ⟨t, rfl, ht⟩ := h₁
  obtain ⟨t', rfl, ht'⟩ := h₂
  exact ⟨t', rfl, ht.trans ht'⟩

theorem within (h : s.OnTree R anchor s') : Within R anchor s.store s'.store := by
  obtain ⟨t, rfl, ht⟩ := h
  exact ht

theorem step {t : Store} (h : s.OnTree R anchor s') (ht : Within R anchor s'.store t) :
    s.OnTree R anchor { s' with store := t } :=
  h.trans (intro ht)

end Session.OnTree

namespace Language

/-- Copying one node into an element. -/
theorem appendCopy_yields {c : NodeId} (h : Tidy R anchor s.store) (hc : s.store.Has c)
    (hdst : s.store.isContainer dst) (hR : R dst ∨ anchor = some dst) :
    (do
      let copy ← Work.fresh (·.clone c)
      Work.tree (·.appendChild dst (some copy))).Yields s fun _ s' => s.OnTree R anchor s' := by
  obtain ⟨hw, hnew, hhas⟩ := h.clone hc
  refine .bind (Work.fresh_yields (Work.tree_yields fun t ht => ?_))
  have hdst' := Store.isContainer_of_kind? hdst hw.confined.kind?
  exact .intro (hw.trans (hw.tidy.appendChild hdst' hhas (h.fresh _ hnew) hR ht))

/-- Copying content into an element. -/
theorem appendCopies_yields (h : Tidy R anchor s.store) (hdst : s.store.isContainer dst)
    (hR : R dst ∨ anchor = some dst) :
    (appendCopies dst src).Yields s fun _ s' => s.OnTree R anchor s' := by
  refine .bind (Work.children_yields ?_)
  have hstart : s.OnTree R anchor s ∧ ∀ c ∈ s.store.children src, s.store.Has c :=
    ⟨.refl h, fun c hc => Store.has_of_parent? (h.wellFormed.mem_children.mp hc)⟩
  refine (Action.Yields.forM
    (I := fun rest s' => s.OnTree R anchor s' ∧ ∀ c ∈ rest, s'.store.Has c)
    (fun c rest s' hI => ?_) _ hstart).imp fun _ s' hs' => hs'.1
  obtain ⟨hon, hrest⟩ := hI
  have hdst' := Store.isContainer_of_kind? hdst hon.within.confined.kind?
  refine (appendCopy_yields hon.within.tidy (hrest c (by simp)) hdst' hR).imp fun _ s'' hs'' => ?_
  exact ⟨hon.trans hs'', fun c' hc' => hs''.within.confined.has (hrest c' (by simp [hc']))⟩

/-- Discarding the content of an element. -/
theorem discardChildren_yields (h : Tidy R anchor s.store) (he : s.store.Has e)
    (hR : ∀ m, s.store.parent? m = some e → R m) :
    (discardChildren e).Yields s fun _ s' => s.OnTree R anchor s' := by
  refine .bind (Work.store_yields (Work.modifyStore_yields ?_))
  have hw := h.removeChildren he hR
  refine .intro (hw.trans (hw.tidy.disposeAll fun c hc => ?_))
  have hc' : s.store.parent? c = some e := h.wellFormed.mem_children.mp hc
  exact ⟨hR c hc', hw.confined.has (Store.has_of_parent? hc')⟩

/-! ### Loading -/

theorem above_of_mem_elementsByName {t : Store} {id : Int} {name : Text} (h : t.WellFormed)
    (hn : t.Has n) (he : e ∈ t.elementsByName n id name) : t.Above n e := by
  have hmem : e ∈ t.subtree n := List.mem_of_mem_tail (List.mem_filter.mp he).1
  exact (h.linked.mem_subtree h.grounded hn).mp hmem

/-- Removing definitions from a copy. -/
theorem stripDefinitions_yields {id : Int} (h : Tidy R anchor s.store) (hn : s.store.Has n)
    (hR : R n) : (stripDefinitions id n).Yields s fun _ s' => s.OnTree R anchor s' := by
  refine .bind (Work.store_yields ?_)
  have hstart : s.OnTree R anchor s ∧ ∀ e ∈ s.store.elementsByName n id "macro", R e :=
    ⟨.refl h, fun e he => h.below hR (above_of_mem_elementsByName h.wellFormed hn he)⟩
  refine (Action.Yields.forM (I := fun rest s' => s.OnTree R anchor s' ∧ ∀ e ∈ rest, R e)
    (fun e rest s' hI => ?_) _ hstart).imp fun _ s' hs' => hs'.1
  obtain ⟨hon, hrest⟩ := hI
  refine .bind (Work.store_yields ?_)
  split
  · exact .pure ⟨hon, fun c hc => hrest c (by simp [hc])⟩
  · rename_i p hp
    refine .bind (Work.tree_yields fun t ht => Work.modifyStore_yields ?_)
    have hw := hon.within.tidy.removeChild (hrest e (by simp)) ht
    have hhas := hw.confined.has (Store.has_of_parent? hp)
    refine ⟨hon.step (hw.trans (hw.tidy.dispose hhas (hrest e (by simp)))), fun c hc => ?_⟩
    exact hrest c (by simp [hc])

/-- Putting a copy in front of an element. -/
theorem insertCopy_yields {id : Int} {c : NodeId} (h : Tidy R anchor s.store) (hc : s.store.Has c)
    (hp : s.store.isContainer parent) (hR : R parent ∨ anchor = some parent) :
    (do
      if isNamed (← Work.store) c id ["macro"] then return none
      else
        let copy ← Work.fresh (·.clone c)
        if (← Work.store).isElement copy then stripDefinitions id copy
        Work.tree (·.insertBefore parent (some copy) (some e))
        return some copy : Work (Option NodeId)).Yields s fun b s' => s.OnTree R anchor s' ∧
          ∀ copy ∈ b, ¬ s.store.Has copy ∧ s'.store.parent? copy = some parent := by
  refine .bind (Work.store_yields ?_)
  split
  · exact .pure ⟨.refl h, fun copy hcopy => by simp at hcopy⟩
  · obtain ⟨hw, hnew, hhas⟩ := h.clone hc
    generalize hcopy : (s.store.clone c).1 = copy at hnew hhas
    have hRcopy : R copy := h.fresh copy hnew
    have hinsert : ∀ s₁ : Session, s.OnTree R anchor s₁ → s₁.store.Has copy →
        (do
          Work.tree (·.insertBefore parent (some copy) (some e))
          return some copy : Work (Option NodeId)).Yields s₁ fun b s' => s.OnTree R anchor s' ∧
            ∀ copy ∈ b, ¬ s.store.Has copy ∧ s'.store.parent? copy = some parent := by
      intro s₁ hon hhas₁
      have hp₁ := Store.isContainer_of_kind? hp hon.within.confined.kind?
      refine .bind (Work.tree_yields fun t ht => .pure ⟨hon.step ?_, fun b hb => ?_⟩)
      · exact hon.within.tidy.insertBefore hp₁ hhas₁ hRcopy hR ht
      · obtain rfl := Option.some.inj hb
        obtain ⟨-, hparent⟩ := hon.within.tidy.wellFormed.insertBefore_parent? hp₁ hhas₁ ht
        exact ⟨hnew, by rw [hparent, if_pos rfl]⟩
    refine .bind (Work.fresh_yields (.bind (Work.store_yields ?_)))
    rw [hcopy]
    dsimp only
    split
    · refine .bind ((stripDefinitions_yields hw.tidy hhas hRcopy).imp fun _ s₁ hs₁ => ?_)
      exact hinsert s₁ ((Session.OnTree.intro hw).trans hs₁) (hs₁.within.confined.has hhas)
    · exact hinsert _ (.intro hw) hhas

/-- What the copies of the content of another template have in common: they are new, and next to
each other below one node. -/
structure Inserted (s : Session) (parent : NodeId) (copies : List NodeId) (s' : Session) :
    Prop where
  nodup : copies.Nodup
  new (c : NodeId) : c ∈ copies → ¬ s.store.Has c
  parent? (c : NodeId) : c ∈ copies → s'.store.parent? c = some parent

/-- **Copies of content.** Every copy is made of nodes that did not exist before it was made, so no
copy disturbs those made earlier. -/
theorem insertCopies_yields {id : Int} {content : List NodeId} (h : Tidy R anchor s.store)
    (hc : ∀ c ∈ content, s.store.Has c) (hp : s.store.isContainer parent)
    (hR : R parent ∨ anchor = some parent) :
    (insertCopies id parent e content).Yields s fun copies s' =>
      s.OnTree R anchor s' ∧ Inserted s parent copies s' := by
  have hstart : (s.OnTree R anchor s ∧ Inserted s parent [] s) ∧ ∀ c ∈ content, s.store.Has c :=
    ⟨⟨.refl h, List.nodup_nil, by simp, by simp⟩, hc⟩
  refine (Work.enqueueEach_yields
    (I := fun rest copies s' => (s.OnTree R anchor s' ∧ Inserted s parent copies s') ∧
      ∀ c ∈ rest, s'.store.Has c) (fun c rest copies s' hI => ?_) _ hstart).imp
    fun _ _ hs' => hs'.1
  obtain ⟨⟨hon, hins⟩, hrest⟩ := hI
  have hw := hon.within
  have hnew := hw.tidy.wellFormed.tidy_new hw.tidy.owned (some parent)
  have hp' := Store.isContainer_of_kind? hp hw.confined.kind?
  refine (insertCopy_yields hnew (hrest c (by simp)) hp' (.inr rfl)).imp fun b s'' hs'' => ?_
  obtain ⟨hon', hcopy⟩ := hs''
  have hkept : ∀ d ∈ copies, s''.store.parent? d = some parent := by
    intro d hd
    have hhas : s'.store.Has d := Store.has_of_parent? (hins.parent? d hd)
    rw [hon'.within.confined.parent? d (not_not.mpr hhas)]
    exact hins.parent? d hd
  refine ⟨⟨hon.trans ?_, ?_, ?_, ?_⟩, fun d hd => hon'.within.confined.has (hrest d (by simp [hd]))⟩
  · obtain ⟨t, rfl, ht⟩ := hon'
    refine .intro (ht.widen hw.tidy hw.tidy.fresh fun q hq => ?_)
    obtain rfl := Option.some.inj hq
    exact hR
  · refine List.nodup_append'.mpr ⟨hins.nodup, by cases b <;> simp, fun d hd hd' => ?_⟩
    exact (hcopy d (by simpa using hd')).1 (Store.has_of_parent? (hins.parent? d hd))
  · intro d hd
    rcases List.mem_append.mp hd with hd | hd
    · exact hins.new d hd
    · exact fun e => (hcopy d (by simpa using hd)).1 (hw.confined.has e)
  · intro d hd
    rcases List.mem_append.mp hd with hd | hd
    · exact hkept d hd
    · exact (hcopy d (by simpa using hd)).2

theorem has_of_mem_contentOf {t : Store} {id : Int} {doc c : NodeId} (h : t.WellFormed)
    (hc : c ∈ contentOf t id doc) : t.Has c := by
  rw [contentOf] at hc
  split at hc
  · simp at hc
  · rename_i root hroot
    split at hc
    · exact Store.has_of_parent? (h.mem_children.mp hc)
    · obtain rfl := List.mem_singleton.mp hc
      exact Store.has_of_parent? (h.mem_children.mp (List.mem_of_find?_eq_some hroot))

/-- **Loading.** The element is replaced by new nodes below its parent, which are visited next. -/
theorem load_yields {d : Dialect} (h : s.store.WellFormed) (ho : s.store.Owned) :
    (load d e).Yields s fun r s' => s.OnTree (s.store.Region e) (s.store.parent? e) s' ∧
      (r.getD []).Nodup ∧ ∀ c ∈ r.getD [], ¬ s.store.Has c ∧
        ∃ p, s.store.parent? e = some p ∧ s'.store.parent? c = some p := by
  have hR := h.tidy_region ho e
  refine .bind (Work.extract_yields fun attrs => .bind (.get ?_))
  split
  · exact Work.fail_yields
  refine .bind (Work.store_yields ?_)
  split
  · exact .pure ⟨.refl hR, List.nodup_nil, by simp⟩
  rename_i parent hparent
  have hnew := h.tidy_new ho (some parent)
  have hp : s.store.isContainer parent := (h.fits e parent hparent).isContainer
  refine .bind (Work.store_yields (.bind ((insertCopies_yields hnew
    (fun c hc => has_of_mem_contentOf h hc) hp (.inr rfl)).imp fun copies s₁ hs₁ => ?_)))
  obtain ⟨hon, hins⟩ := hs₁
  have hw := hon.within
  have he : s.store.Has e := Store.has_of_parent? hparent
  have hparent₁ : s₁.store.parent? e = some parent := by
    rw [hw.confined.parent? e (not_not.mpr he), hparent]
  refine .bind (Work.leaving_yields (Work.tree_yields fun t ht =>
    .bind (Work.modifyStore_yields (.pure ?_))))
  -- the element goes, and none of the copies is below it
  have hR₁ := hw.tidy.wellFormed.tidy_region hw.tidy.owned e
  have hgone := hR₁.removeChild (.inl (.refl e)) ht
  have hgone' := hgone.trans (hgone.tidy.dispose (hgone.confined.has (hw.confined.has he))
    (.inl (.refl e)))
  have hstays : s.OnTree (s.store.Region e) (s.store.parent? e) s₁ := by
    obtain ⟨t₁, rfl, ht₁⟩ := hon
    exact .intro (ht₁.widen hR (fun m hm => .inr hm) fun q hq => .inr (hparent.trans hq))
  refine ⟨hstays.step (hgone'.inner hstays.within.tidy (.inl (.refl e))), ?_, fun c hc => ?_⟩
  · split
    · exact List.nodup_nil
    · exact hins.nodup
  · have hc' : c ∈ copies := by
      split at hc
      · simp at hc
      · exact hc
    have hce : c ≠ e := fun heq => hins.new c hc' (heq ▸ he)
    refine ⟨hins.new c hc', parent, hparent, ?_⟩
    rw [hgone'.confined.parent? c
      (hw.tidy.wellFormed.not_region_sibling hparent₁ (hins.parent? c hc') hce)]
    exact hins.parent? c hc'

end Language

end Stencil
