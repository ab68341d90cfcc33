import Stencil.Proofs.Language.Visit
import Stencil.Proofs.Language.Loads

/-!
# Work within borders

While a template is worked on, others wait, and their trees must not change. Nothing in the work
knows of them: it follows the nodes it was given, the definitions that were collected, and the
documents that were finished. If all of these belong to a region, the work stays in it, whatever it
consists of, and everything it leaves behind belongs to the region again (`Session.Inside`). At the
same time no new names of templates come up (`Descends`), and no document is forgotten.

The lemmas follow the instructions of the language, one for each part; a part that only reads, or
that writes to nothing but properties, buffers and records, needs none.

## Main definitions

* `Session.Inside` – what a session refers to belongs to a region
* `Session.Works` – what work within a region leaves behind

## Main results

* `Language.expand_works`, `Language.expandParent_works`, `Language.leaveExpansion_works`,
  `Language.define_works`, `Language.load_works` – the instructions
-/

namespace Stencil

open Stencil.Tree (NodeId Store NodeKind)
open Stencil.Tree.Store (Tidy Within Confined Alike)
open Stencil.Language (Descends)

variable {d : Dialect} {R : NodeId → Prop} {s s' s'' : Session} {t : Store}
  {e n src dst parent : NodeId} {name : Text}

namespace Session

/-- A node of the region that exists. -/
def Holds (R : NodeId → Prop) (s : Session) (n : NodeId) : Prop := R n ∧ s.store.Has n

/-- What a session refers to beside the tree belongs to a region: definitions, default content and
finished documents. -/
structure Inside (R : NodeId → Prop) (s : Session) : Prop where
  tidy : Tidy R none s.store
  labelled : s.store.Labelled
  bodies (z : Text) (b : NodeId) : b ∈ s.definitions.bodiesOf z → s.Holds R b
  fallbacks (x : Expansion) (f : NodeId) : x ∈ s.definitions.active → f ∈ x.fallback → s.Holds R f
  documents (entry : Text × NodeId) : entry ∈ s.documents → s.Holds R entry.2

/-- What work within a region leaves behind: the region is as tidy as before, no name of a template
came up, and the finished documents are the same. -/
structure Works (d : Dialect) (R : NodeId → Prop) (s s' : Session) : Prop where
  inside : s'.Inside R
  descends : Descends d R s.store s'.store
  documents : s'.documents = s.documents

theorem Inside.children (h : s.Inside R) (hn : R n) {c : NodeId} (hc : c ∈ s.store.children n) :
    s.Holds R c := by
  have hparent := h.tidy.wellFormed.mem_children.mp hc
  exact ⟨h.tidy.down c n hparent hn, Store.has_of_parent? hparent⟩

namespace Works

protected theorem refl (h : s.Inside R) : s.Works d R s := ⟨h, .refl h.tidy h.labelled, rfl⟩

protected theorem trans (h₁ : s.Works d R s') (h₂ : s'.Works d R s'') : s.Works d R s'' :=
  ⟨h₂.inside, h₁.descends.trans h₂.descends, h₂.documents.trans h₁.documents⟩

theorem holds (h : s.Works d R s') (hn : s.Holds R n) : s'.Holds R n :=
  ⟨hn.1, h.descends.within.confined.has hn.2⟩

/-- Work on the tree alone, and on what is of no concern here. -/
theorem of_descends (h : s.Inside R) (hd : Descends d R s.store s'.store)
    (hdefs : s'.definitions = s.definitions) (hdocs : s'.documents = s.documents) :
    s.Works d R s' := by
  have hkeep : ∀ {n}, s.Holds R n → s'.Holds R n := fun hn =>
    ⟨hn.1, hd.within.confined.has hn.2⟩
  exact ⟨⟨hd.within.tidy, hd.labelled, fun z b hb => hkeep (h.bodies z b (hdefs ▸ hb)),
    fun x f hx hf => hkeep (h.fallbacks x f (hdefs ▸ hx) hf),
    fun entry he => hkeep (h.documents entry (hdocs ▸ he))⟩, hd, hdocs⟩

/-- Nothing that is of concern here has changed. -/
theorem of_eq (h : s.Inside R) (hstore : s'.store = s.store)
    (hdefs : s'.definitions = s.definitions) (hdocs : s'.documents = s.documents) :
    s.Works d R s' :=
  of_descends h (by rw [hstore]; exact .refl h.tidy h.labelled) hdefs hdocs

/-- A property was set after other work. -/
theorem setProperty {v : Code.Property} (h : s.Works d R s') :
    s.Works d R (s'.setProperty n name v) :=
  h.trans (of_eq h.inside store_setProperty definitions_setProperty rfl)

/-- Definitions come and go, and expansions begin and end. -/
theorem of_definitions (h : s.Inside R) (hstore : s'.store = s.store)
    (hdocs : s'.documents = s.documents)
    (hbodies : ∀ z b, b ∈ s'.definitions.bodiesOf z → s.Holds R b)
    (hfallbacks : ∀ x f, x ∈ s'.definitions.active → f ∈ x.fallback → s.Holds R f) :
    s.Works d R s' := by
  have hkeep : ∀ {n}, s.Holds R n → s'.Holds R n := fun hn => ⟨hn.1, hstore ▸ hn.2⟩
  exact ⟨⟨hstore ▸ h.tidy, hstore ▸ h.labelled, fun z b hb => hkeep (hbodies z b hb),
    fun x f hx hf => hkeep (hfallbacks x f hx hf),
    fun entry he => hkeep (h.documents entry (hdocs ▸ he))⟩,
    by rw [hstore]; exact .refl h.tidy h.labelled, hdocs⟩

/-- The tree changes after other work. -/
theorem step (h : s.Works d R s') (hd : Descends d R s'.store t) :
    s.Works d R { s' with store := t } :=
  h.trans (of_descends h.inside hd rfl rfl)

end Works

end Session

namespace Language

open Session (Holds Inside Works)

/-- The children of a node are visited next. -/
theorem enqueueChildren_works (hR : R n) (h : s.Works d R s') :
    (Work.enqueueChildren n).Yields s' fun r s'' =>
      s.Works d R s'' ∧ ∀ c ∈ r.getD [], s''.Holds R c := by
  refine Work.enqueueChildren_yields ⟨h, fun c hc => h.inside.children hR ?_⟩
  rw [Store.queue?] at hc
  split at hc
  · exact hc
  · simp at hc

/-! ### Content -/

/-- Copying content into an element. -/
theorem appendCopies_works (d : Dialect) (h : s.Inside R)
    (hdst : s.store.isContainer dst) (hR : R dst)
    (hsrc : R src) : (appendCopies dst src).Yields s fun _ s' => s.Works d R s' := by
  refine .bind (Work.children_yields ?_)
  refine (Action.Yields.forM (I := fun rest s' => s.Works d R s' ∧ ∀ c ∈ rest, s'.Holds R c)
    (fun c rest s' hI => ?_) _ ⟨.refl h, fun c hc => h.children hsrc hc⟩).imp fun _ s' hs' => hs'.1
  obtain ⟨hw, hrest⟩ := hI
  obtain ⟨hRc, hc⟩ := hrest c (by simp)
  have hclone : Descends d R s'.store (s'.store.clone c).2 :=
    .clone hw.inside.tidy hw.inside.labelled hc hRc
  obtain ⟨-, hnew, hhas⟩ := hw.inside.tidy.clone hc
  refine .bind (Work.fresh_yields (Work.tree_yields fun t ht => ?_))
  have hcont := Store.isContainer_of_kind? hdst
    (hw.descends.within.confined.trans hclone.within.confined).kind?
  have hattach :=
    hclone.within.tidy.appendChild hcont hhas (hw.inside.tidy.fresh _ hnew) (.inl hR) ht
  obtain ⟨_, -, hpay, -⟩ := hclone.within.tidy.wellFormed.appendChild_parent? hcont
    (by simpa using hhas) ht
  have hw' := hw.step (hclone.trans (.of_payload? hattach hclone.labelled hpay))
  exact ⟨hw', fun c' hc' =>
    ⟨(hrest c' (by simp [hc'])).1, (hclone.within.confined.trans hattach.confined).has
      (hrest c' (by simp [hc'])).2⟩⟩

/-- Discarding the content of an element. -/
theorem discardChildren_works (d : Dialect) (h : s.Inside R) (he : s.store.Has e) (hR : R e) :
    (discardChildren e).Yields s fun _ s' => s.Works d R s' := by
  refine .bind (Work.store_yields (Work.modifyStore_yields ?_))
  have hchildren : ∀ m, s.store.parent? m = some e → R m := fun m hm => h.tidy.down m e hm hR
  have hremove := h.tidy.removeChildren he hchildren
  have hd : Descends d R s.store (s.store.removeChildren e).2 :=
    .of_payload? hremove h.labelled fun _ => Store.payload?_removeChildren
  refine .of_descends h (hd.trans (.disposeAll hremove.tidy hd.labelled fun c hc => ?_)) rfl rfl
  obtain ⟨hRc, hhas⟩ := h.children hR hc
  exact ⟨hRc, hremove.confined.has hhas⟩

/-! ### Uses -/

theorem setFallback_works (d : Dialect) (h : s.Inside R) (he : s.store.Has e) (hR : R e) :
    (setFallback e name).Yields s fun f s' => s.Works d R s' ∧ s'.Holds R f := by
  have hnode : ∃ d : Tree.ElementData,
    (Tree.Payload.element { qualifier := [], name := "default" }) =
    .element { d with attrs := .empty } := ⟨{ qualifier := [], name := "default" }, rfl⟩
  refine .bind (Work.fresh_yields (.bind (Work.tree_yields fun t ht => ?_)))
  refine .bind (Work.modifyDefinitions_yields (.pure ?_))
  generalize hpayload : Tree.Payload.element { qualifier := [], name := "default" } =
    p at hnode ht ⊢
  have hchildren : ∀ m, s.store.parent? m = some e → R m := fun m hm => h.tidy.down m e hm hR
  have hadd : Descends d R s.store (s.store.add { payload := p }).2 :=
    .add h.tidy h.labelled rfl (by rw [← hpayload]; rfl) (by rw [← hpayload]; rfl) (.inr hnode)
  obtain ⟨hw, hhas⟩ := moveToNew h.tidy he hchildren rfl hnode ht
  have hcont : (s.store.add { payload := p }).2.isContainer (s.store.add { payload := p }).1 := by
    rw [Store.isContainer, Store.payload?_add, if_pos rfl, ← hpayload]
    rfl
  obtain ⟨-, hpay, -⟩ := hadd.within.tidy.wellFormed.moveChildren_spec
    (hadd.within.confined.has he) (by simpa using hcont) ht
  have hRf := h.tidy.fresh _ (@Store.not_has_add s.store { payload := p })
  have hmove : s.Works d R { s with store := t } :=
    .of_descends h (hadd.then_alike hw (.of_payload? hpay)) rfl rfl
  refine ⟨hmove.trans (.of_definitions hmove.inside rfl rfl (fun z b hb => ?_)
    hmove.inside.fallbacks), hRf, hhas⟩
  dsimp only at hb
  rw [Definitions.bodiesOf_setBodies] at hb
  split at hb
  · rcases List.mem_append.mp hb with hb | hb
    · exact hmove.inside.bodies _ b hb
    · obtain rfl := List.mem_singleton.mp hb
      exact ⟨hRf, hhas⟩
  · exact hmove.inside.bodies z b hb

/-- What follows the treatment of the default content. -/
theorem beginUse_works (d : Dialect) {first : NodeId} {fallback : Option NodeId} (h : s.Inside R)
    (he : s.store.isElement e) (hR : R e) (hfirst : R first)
    (hf : ∀ f, fallback = some f → s.Holds R f) :
    (do
      discardChildren e
      appendCopies e first
      Work.modifyStore (openElement e)
      Work.modifyDefinitions fun t =>
        { t with uses := name :: t.uses
                 active := { name, index := 0, fallback, nested := false } :: t.active }
      return true : Work Bool).Yields s fun _ s' => s.Works d R s' := by
  have hcont := Store.isContainer_of_isElement he
  refine .bind ((discardChildren_works d h (Store.has_of_isContainer hcont) hR).imp
    fun _ s₁ h₁ => ?_)
  have hcont₁ := Store.isContainer_of_kind? hcont h₁.descends.within.confined.kind?
  refine .bind ((appendCopies_works d h₁.inside hcont₁ hR hfirst).imp fun _ s₂ h₂ => ?_)
  refine .bind (Work.modifyStore_yields (.bind (Work.modifyDefinitions_yields (.pure ?_))))
  have hopen := (h₁.trans h₂).step (t := openElement e s₂.store) (.of_alike
    (tidy_openElement h₂.inside.tidy) h₂.inside.labelled (.modifyElement fun _ => ⟨rfl, rfl, rfl⟩))
  refine hopen.trans (.of_definitions hopen.inside rfl rfl hopen.inside.bodies fun x f hx hfx => ?_)
  rcases List.mem_cons.mp hx with rfl | hx
  · exact hopen.holds (hf f hfx)
  · exact hopen.inside.fallbacks x f hx hfx

/-- A use. -/
theorem expand_works (d : Dialect) {ignore : Bool} (h : s.Inside R)
    (he : s.store.isElement e) (hR : R e) :
    (expand e name ignore).Yields s fun _ s' => s.Works d R s' := by
  refine .bind (.get ?_)
  dsimp only
  split
  · exact .bind Work.fail_yields
  split
  · exact .pure (.refl h)
  rename_i first rest hbodies
  obtain ⟨hfirst, -⟩ := h.bodies name first (hbodies ▸ List.mem_cons_self)
  refine .bind (Work.store_yields ?_)
  split
  · have hhas := Store.has_of_isContainer (Store.isContainer_of_isElement he)
    refine .bind (.map ((setFallback_works d h hhas hR).imp fun f s₁ hs₁ => ?_))
    obtain ⟨h₁, hf⟩ := hs₁
    have he₁ := h₁.descends.within.confined.isElement he
    refine (beginUse_works d h₁.inside he₁ hR hfirst fun g hg => ?_).imp fun _ s' h' => h₁.trans h'
    obtain rfl := Option.some.inj hg
    exact hf
  · exact .bind (.pure (beginUse_works d h he hR hfirst (by simp)))

/-- A further definition. -/
theorem expandParent_works (d : Dialect) (h : s.Inside R) (he : s.store.isElement e) (hR : R e) :
    (expandParent e).Yields s fun r s' => s.Works d R s' ∧ ∀ c ∈ r.getD [], s'.Holds R c := by
  refine .bind (.get ?_)
  dsimp only
  split
  · exact .pure ⟨.refl h, by simp⟩
  rename_i top active hactive
  split
  · exact .pure ⟨.refl h, by simp⟩
  rename_i next hnext
  obtain ⟨hR', -⟩ := h.bodies _ next (List.mem_of_getElem? hnext)
  refine .bind ((appendCopies_works d h (Store.isContainer_of_isElement he) hR hR').imp
    fun _ s₁ h₁ => ?_)
  refine .bind (Work.modifyStore_yields (.bind (Work.modifyDefinitions_yields ?_)))
  have hopen := h₁.step (t := openElement e s₁.store) (.of_alike
    (tidy_openElement h₁.inside.tidy) h₁.inside.labelled (.modifyElement fun _ => ⟨rfl, rfl, rfl⟩))
  refine .bind (Work.requestReturn_yields (enqueueChildren_works (s := s) hR ?_))
  refine hopen.trans (.of_definitions hopen.inside rfl rfl hopen.inside.bodies fun x f hx hfx => ?_)
  rcases List.mem_cons.mp hx with rfl | hx
  · cases hfx
  · exact hopen.inside.fallbacks x f hx hfx

theorem leaveExpansion_works (d : Dialect) (h : s.Inside R) :
    leaveExpansion.Yields s fun _ s' => s.Works d R s' := by
  refine .bind (.get ?_)
  split
  · exact .pure (.refl h)
  rename_i x active hactive
  have htail : ∀ y ∈ active, y ∈ s.definitions.active := fun y hy =>
    hactive ▸ List.mem_cons_of_mem x hy
  refine .bind (Work.modifyDefinitions_yields ?_)
  split
  · exact .pure (.of_definitions h rfl rfl h.bodies fun y f hy => h.fallbacks y f (htail y hy))
  · rename_i f hf
    obtain ⟨hRf, hhas⟩ := h.fallbacks x f (hactive ▸ List.mem_cons_self) hf
    refine .bind (Work.modifyDefinitions_yields (Work.modifyStore_yields ?_))
    refine Works.step (.of_definitions h rfl rfl (fun z b hb => ?_) fun y f hy =>
      h.fallbacks y f (htail y hy)) (.dispose h.tidy h.labelled hhas hRf)
    dsimp only at hb
    rw [Definitions.bodiesOf_setBodies] at hb
    split at hb
    · exact h.bodies _ b (List.mem_of_mem_filter hb)
    · exact h.bodies z b hb

theorem alike_noteDefinition : Alike t (noteDefinition e name t) := by
  rw [noteDefinition]
  split
  · exact .of_payload? fun _ => rfl
  · dsimp only
    split
    · exact .of_payload? fun _ => rfl
    · exact Alike.modifyDocument.trans .modifyDocument

/-- A definition is added. -/
theorem define_works (h : s.Inside R) (he : s.Holds R e) :
    (define d e).Yields s fun _ s' => s.Works d R s' := by
  refine .bind (Work.extract_yields fun attrs => .bind (.get ?_))
  generalize attrs.text "name" = name
  have hadd : ∀ s₁ : Session, s₁.store = s.store → s₁.documents = s.documents →
      s₁.definitions.active = s.definitions.active → s₁.definitions.bodies = s.definitions.bodies →
      (do
        Work.modifyDefinitions fun t => t.setBodies name (t.bodiesOf name ++ [e])
        Work.modifyStore (noteDefinition e name) : Work Unit).Yields s₁ fun _ s' =>
          s.Works d R s' := by
    intro s₁ hstore hdocs hactive hbodies
    refine .bind (Work.modifyDefinitions_yields (Work.modifyStore_yields ?_))
    have hdefs : s.Works d R
        { s₁ with definitions :=
          s₁.definitions.setBodies name (s₁.definitions.bodiesOf name ++ [e]) } := by
      refine .of_definitions h hstore hdocs (fun z b hb => ?_) fun x f hx hf =>
        h.fallbacks x f (hactive ▸ hx) hf
      have hsame : ∀ z, s₁.definitions.bodiesOf z = s.definitions.bodiesOf z := fun z => by
        rw [Definitions.bodiesOf, hbodies, Definitions.bodiesOf]
      dsimp only at hb
      rw [Definitions.bodiesOf_setBodies, hsame, hsame] at hb
      split at hb
      · rcases List.mem_append.mp hb with hb | hb
        · exact h.bodies _ b hb
        · obtain rfl := List.mem_singleton.mp hb
          exact he
      · exact h.bodies z b hb
    exact hdefs.step (.of_alike (tidy_noteDefinition hdefs.inside.tidy) hdefs.inside.labelled
      alike_noteDefinition)
  split
  · split
    · exact .bind Work.fail_yields
    · exact hadd s rfl rfl rfl rfl
  · exact .bind (Work.modifyDefinitions_yields (hadd _ rfl rfl rfl rfl))

/-! ### Loading -/

/-- Removing definitions from a copy. -/
theorem stripDefinitions_works (d : Dialect) {id : Int} (h : s.Inside R) (hn : s.Holds R n) :
    (stripDefinitions id n).Yields s fun _ s' => s.Works d R s' := by
  refine .bind (Work.store_yields ?_)
  refine (Action.Yields.forM (I := fun rest s' => s.Works d R s' ∧ ∀ e ∈ rest, R e)
    (fun e rest s' hI => ?_) _ ⟨.refl h, fun e he => h.tidy.below hn.1
      (above_of_mem_elementsByName h.tidy.wellFormed hn.2 he)⟩).imp fun _ s' hs' => hs'.1
  obtain ⟨hw, hrest⟩ := hI
  have hRe := hrest e (by simp)
  refine .bind (Work.store_yields ?_)
  split
  · exact .pure ⟨hw, fun c hc => hrest c (by simp [hc])⟩
  · rename_i p hp
    refine .bind (Work.tree_yields fun t ht => Work.modifyStore_yields ?_)
    have hd : Descends d R s'.store t := .removeChild hw.inside.tidy hw.inside.labelled hRe ht
    have hhas := hd.within.confined.has (Store.has_of_parent? hp)
    exact ⟨hw.step (hd.trans (.dispose hd.within.tidy hd.labelled hhas hRe)),
      fun c hc => hrest c (by simp [hc])⟩

/-- Putting a copy in front of an element. -/
theorem insertCopy_works (d : Dialect) {id : Int} {c : NodeId} (h : s.Inside R)
    (hc : s.Holds R c) (hp : s.store.isContainer parent) (hR : R parent) :
    (do
      if isNamed (← Work.store) c id ["macro"] then return none
      else
        let copy ← Work.fresh (·.clone c)
        if (← Work.store).isElement copy then stripDefinitions id copy
        Work.tree (·.insertBefore parent (some copy) (some e))
        return some copy : Work (Option NodeId)).Yields s fun b s' =>
          s.Works d R s' ∧ ∀ copy ∈ b, s'.Holds R copy := by
  refine .bind (Work.store_yields ?_)
  split
  · exact .pure ⟨.refl h, by simp⟩
  obtain ⟨-, hnew, hhas⟩ := h.tidy.clone hc.2
  have hclone : s.Works d R { s with store := (s.store.clone c).2 } :=
    .of_descends h (.clone h.tidy h.labelled hc.2 hc.1) rfl rfl
  generalize hcopy : (s.store.clone c).1 = copy at hnew hhas
  have hRcopy : R copy := h.tidy.fresh copy hnew
  have hinsert : ∀ s₁ : Session, s.Works d R s₁ → s₁.Holds R copy →
      (do
        Work.tree (·.insertBefore parent (some copy) (some e))
        return some copy : Work (Option NodeId)).Yields s₁ fun b s' =>
          s.Works d R s' ∧ ∀ copy ∈ b, s'.Holds R copy := by
    intro s₁ hw hholds
    have hp₁ := Store.isContainer_of_kind? hp hw.descends.within.confined.kind?
    refine .bind (Work.tree_yields fun t ht => .pure ?_)
    obtain ⟨hpay, -⟩ := hw.inside.tidy.wellFormed.insertBefore_parent? hp₁ hholds.2 ht
    have hin := hw.inside.tidy.insertBefore hp₁ hholds.2 hholds.1 (.inl hR) ht
    have hd : Descends d R s₁.store t := .of_payload? hin hw.inside.labelled hpay
    refine ⟨hw.step hd, fun b hb => ?_⟩
    obtain rfl := Option.some.inj hb
    exact ⟨hholds.1, hin.confined.has hholds.2⟩
  refine .bind (Work.fresh_yields (.bind (Work.store_yields ?_)))
  rw [hcopy]
  dsimp only
  split
  · refine .bind ((stripDefinitions_works d hclone.inside ⟨hRcopy, hhas⟩).imp fun _ s₁ hs₁ => ?_)
    exact hinsert s₁ (hclone.trans hs₁) (hs₁.holds ⟨hRcopy, hhas⟩)
  · exact hinsert _ hclone ⟨hRcopy, hhas⟩

/-- Putting copies of content in front of an element. -/
theorem insertCopies_works (d : Dialect) {id : Int} {content : List NodeId} (h : s.Inside R)
    (hc : ∀ c ∈ content, s.Holds R c) (hp : s.store.isContainer parent) (hR : R parent) :
    (insertCopies id parent e content).Yields s fun copies s' =>
      s.Works d R s' ∧ ∀ copy ∈ copies, s'.Holds R copy := by
  refine (Work.enqueueEach_yields
    (I := fun rest copies s' => s.Works d R s' ∧ (∀ c ∈ rest, s'.Holds R c) ∧
      ∀ copy ∈ copies, s'.Holds R copy) (fun c rest copies s' hI => ?_) _
    ⟨.refl h, hc, by simp⟩).imp fun _ _ hs' => ⟨hs'.1, hs'.2.2⟩
  obtain ⟨hw, hrest, hcopies⟩ := hI
  have hp' := Store.isContainer_of_kind? hp hw.descends.within.confined.kind?
  refine (insertCopy_works d hw.inside (hrest c (by simp)) hp' hR).imp fun b s'' hs'' => ?_
  refine ⟨hw.trans hs''.1, fun c hc => hs''.1.holds (hrest c (by simp [hc])), fun copy hcopy => ?_⟩
  rcases List.mem_append.mp hcopy with hcopy | hcopy
  · exact hs''.1.holds (hcopies copy hcopy)
  · exact hs''.2 copy (by simpa using hcopy)

theorem mem_of_lookup {β : Type} {l : List (Text × β)} {x : β} (h : l.lookup name = some x) :
    (name, x) ∈ l := by
  obtain ⟨l₁, l₂, rfl, -⟩ := List.lookup_eq_some_iff.mp h
  simp

/-- The content of a document belongs to the region that the document belongs to. -/
theorem holds_of_mem_contentOf {id : Int} {doc c : NodeId} (h : s.Inside R) (hR : R doc)
    (hc : c ∈ contentOf s.store id doc) : s.Holds R c := by
  rw [contentOf] at hc
  split at hc
  · simp at hc
  · rename_i root hroot
    have hroot' : s.Holds R root := h.children hR (List.mem_of_find?_eq_some hroot)
    split at hc
    · exact h.children hroot'.1 hc
    · obtain rfl := List.mem_singleton.mp hc
      exact hroot'

/-- **Loading.** The copies come from a finished document. -/
theorem load_works (h : s.Inside R) (he : s.Holds R e) :
    (load d e).Yields s fun r s' => s.Works d R s' ∧ ∀ c ∈ r.getD [], s'.Holds R c := by
  refine .bind (Work.extract_yields fun attrs => .bind (.get ?_))
  split
  · exact Work.fail_yields
  rename_i doc hdoc
  obtain ⟨hRdoc, -⟩ := h.documents _ (mem_of_lookup hdoc)
  refine .bind (Work.store_yields ?_)
  split
  · exact .pure ⟨.refl h, by simp⟩
  rename_i parent hparent
  have hp : s.store.isContainer parent := (h.tidy.wellFormed.fits e parent hparent).isContainer
  have hRp : R parent := by simpa using h.tidy.up e parent hparent he.1
  refine .bind (Work.store_yields (.bind ((insertCopies_works d h
    (fun c hc => holds_of_mem_contentOf h hRdoc hc) hp hRp).imp fun copies s₁ hs₁ => ?_)))
  obtain ⟨hw, hcopies⟩ := hs₁
  refine .bind (Work.leaving_yields (Work.tree_yields fun t ht =>
    .bind (Work.modifyStore_yields (.pure ?_))))
  have hd : Descends d R s₁.store t := .removeChild hw.inside.tidy hw.inside.labelled he.1 ht
  have hd' := hd.trans (.dispose hd.within.tidy hd.labelled
    (hd.within.confined.has (hw.holds he).2) he.1)
  refine ⟨hw.step hd', fun c hc => ?_⟩
  split at hc
  · simp at hc
  · exact ⟨(hcopies c hc).1, hd'.within.confined.has (hcopies c hc).2⟩

end Language

end Stencil
