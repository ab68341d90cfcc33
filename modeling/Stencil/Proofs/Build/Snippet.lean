import Stencil.Compiler.Build
import Stencil.Proofs.Build.Course
import Stencil.Proofs.Code.Parts
import Stencil.Proofs.Language.Loads

/-!
# Snippets

A stage can leave a snippet on the document that is going to be the output. Then the children of the
snippet are moved to a new document, which takes the place of the finished one. That always
succeeds: the new document is empty and lets anything in.

Linking passes over whatever is invisible. Nodes become visible when code is generated for them, and
no code is generated for the new document any more, so nothing is written: the output of such a
build is empty, and so are its dynamic expressions (`Finishes.links_nothing`). Nothing else stands
in the way. Were the document visible, what is written would be what is written for the visible
children of the snippet, each linked alone.

## Main definitions

* `Session.Proper` – what operations on trees and tables keep
* `Compiler.Promotion` – what becomes of a snippet
* `Compiler.Finishes` – the document that a build finishes last, and the state then

## Main results

* `Compiler.promoteSnippet_promotes` – a snippet becomes a document
* `Compiler.Finishes.links_nothing` – what is linked then
-/

namespace Stencil

open Relation (ReflTransGen)
open Stencil.Code (Linkable LinkOutput)
open Stencil.Tree (NodeId Store Node DocumentData)

/-- The links of the nodes fit together, elements list attributes, and code is kept for nodes there
are. -/
structure Session.Proper (s : Session) : Prop where
  wellFormed : s.store.WellFormed
  listed : s.store.Listed
  coded (n : NodeId) : s.buffers.get? n ≠ none → s.store.Has n

namespace Compiler

variable {c : Compiler} {files : Files} {steps : Nat} {name : Text} {s s' : Session}
  {t t' : Store} {doc snippet out m e : NodeId}

/-! ### The new document -/

/-- What becomes of a snippet: a new document has the children that the snippet had, in order.
Unless attributes are shared, everything below them is as it was. -/
structure Promotion (t : Store) (snippet out : NodeId) (t' : Store) : Prop where
  new : ¬ t.Has out
  wellFormed : t'.WellFormed
  document : ∃ d, t'.payload? out = some (.document d)
  /-- The new document is invisible. -/
  isVisible : t'.isVisible out = false
  children : t'.children out = t.children snippet
  below (m : NodeId) : t.Owned → (∃ e ∈ t.children snippet, t.Above e m) → Linkable.Matches t t' m

/-- The children of a node can be moved to a new document. -/
theorem exists_moved (h : t.WellFormed) (hs : t.isContainer snippet) {d : DocumentData}
    (hd : d.singleRoot = false) :
    ∃ t', (t.add { payload := .document d }).2.moveChildren snippet
        (some (t.add { payload := .document d }).1) = .ok t' ∧
      Promotion t snippet (t.add { payload := .document d }).1 t' ∧
      (∀ n, t.Has n → t'.payload? n = t.payload? n) ∧
      (t.Listed → t'.Listed) ∧ (t.Owned → t'.Owned) ∧
      ∀ e ∈ t.children snippet, ∀ m, t.Above e m → t'.Above e m := by
  have hhas := Store.has_of_isContainer hs
  generalize hout : (t.add { payload := .document d }).1 = out
  generalize ht₁ : (t.add { payload := .document d }).2 = t₁
  have hnew : ¬ t.Has out := hout ▸ Store.not_has_add
  have hgrowth : Store.Growth t t₁ := ht₁ ▸ .add rfl
  have hw₁ : t₁.WellFormed := h.growth hgrowth
  have hchildren₁ : t₁.children = t.children := (h.linked.congr hgrowth.links).children_eq
  have hget : ∀ n, t.Has n → t₁.get? n = t.get? n := fun n hn => ht₁ ▸ Store.get?_add_of_has hn
  have hself : t₁.get? out = some { payload := .document d } := by
    rw [← ht₁, ← hout, Store.get?_add, if_pos rfl]
  have hdoc : t₁.payload? out = some (.document d) := by
    rw [Store.payload?, hself]
    rfl
  have hne : snippet ≠ out := fun e => hnew (e ▸ hhas)
  obtain ⟨halone, hchildless⟩ := h.fresh hgrowth hnew
  have hempty : t₁.children out = [] := List.eq_nil_iff_forall_not_mem.mpr fun m hm =>
    hchildless m (hw₁.mem_children.mp hm)
  obtain ⟨t', ht'⟩ := hw₁.moveChildren_to_document hdoc hd hne halone hempty
  have hs₁ : t₁.isContainer snippet := by
    rwa [Store.isContainer, Store.payload?_congr (hget snippet hhas)]
  have hcontainer : t₁.isContainer out := by
    rw [Store.isContainer, hdoc]
    rfl
  obtain ⟨hw', hpay', hparent'⟩ := hw₁.moveChildren_spec (Store.has_of_isContainer hs₁)
    (by simpa using hcontainer) ht'
  obtain ⟨_, hd', -, hout', -, hothers⟩ :=
    hw₁.lists_moveChildren hs₁ (by simpa using hcontainer) ht'
  obtain rfl := Option.mem_some_iff.mp hd'
  have hloose : ∀ n, t.Has n → t'.loose n = t.loose n := fun n hn =>
    (Store.loose_moveChildren ht').trans (Store.loose_congr (hget n hn))
  have hpay : ∀ n, t.Has n → t'.payload? n = t.payload? n := fun n hn =>
    (hpay' n).trans (Store.payload?_congr (hget n hn))
  have hkind : ∀ {n k}, t.kind? n = some k → t'.kind? n = t.kind? n := fun hk => by
    rw [Store.kind?, hpay _ (Store.has_of_kind? hk), Store.kind?]
  have hattrs : ∀ n, t'.attributes n = t.attributes n := by
    intro n
    rw [Store.attributes_congr (hpay' n)]
    by_cases hn : n = out
    · subst hn
      rw [Store.attributes_of_not_has hnew, Store.attributes, Store.attributeTable,
        Store.element?, hdoc]
      rfl
    · rw [← ht₁, Store.attributes_add_of_ne (hout ▸ hn)]
  -- the way up to a child of the snippet is as it was
  have habove : ∀ e ∈ t.children snippet, ∀ m, t.Above e m → t'.Above e m := by
    intro e he m hm
    have hsnippet : ¬ t.Above e snippet := h.grounded.not_above_of_parent? (h.mem_children.mp he)
    obtain ⟨k, hk⟩ := hm
    induction k generalizing m with
    | zero =>
      obtain rfl : m = e := Option.some.inj hk
      exact .refl m
    | succ k ih =>
      obtain ⟨q, hq, hk⟩ := Option.bind_eq_some_iff.mp hk
      refine (ih q hk).trans (.of_parent? ?_)
      rw [← hgrowth.parent? m] at hq
      obtain hsame | ⟨hmoved, -⟩ := hparent' m
      · rw [hsame, hq]
      · obtain rfl := Option.some.inj (hq.symm.trans hmoved)
        exact absurd ⟨k, hk⟩ hsnippet
  refine ⟨t', ht', ⟨hnew, hw', ⟨d, (hpay' out).trans hdoc⟩, ?_, ?_, fun m ho hm => ?_⟩, hpay,
    fun hl n a ha => ?_, fun ho => ?_, habove⟩
  · rw [Store.isVisible_eq_of_loose (Store.loose_moveChildren ht'), Store.isVisible, hself]
    rfl
  · rw [← hchildren₁, hout']
  · obtain ⟨e, he, hem⟩ := hm
    have hparent := h.mem_children.mp he
    have hplace : t.Placeable m := h.placeable_of_above (h.placeable hparent) hem
    refine ⟨hpay m hplace.has, Store.isVisible_eq_of_loose (hloose m hplace.has), ?_, fun a ha =>
      hpay a (Store.has_of_kind? (ho.kind m a ha))⟩
    rw [← hchildren₁]
    refine hothers m (fun heq => ?_) fun heq => hnew (heq ▸ hplace.has)
    exact h.grounded.not_above_of_parent? hparent (heq ▸ hem)
  · rw [hattrs] at ha
    rw [hkind (hl n a ha), hl n a ha]
  · refine ⟨fun n a ha => ?_, fun n => ?_, fun n n' a ha ha' => ?_⟩
    · rw [hattrs] at ha
      rw [hkind (ho.kind n a ha), ho.kind n a ha]
    · rw [hattrs]
      exact ho.nodup n
    · rw [hattrs] at ha ha'
      exact ho.unique n n' a ha ha'

/-- Then the finished document is disposed of, wherever the snippet stood. -/
theorem Promotion.dispose (h : Promotion t snippet out t') (hl : t'.Listed)
    (ho : t.Owned → t'.Owned)
    (habove : ∀ e ∈ t.children snippet, ∀ m, t.Above e m → t'.Above e m)
    (hdoc : t'.kind? doc = some .document) (hne : doc ≠ out) :
    Promotion t snippet out (t'.dispose doc) := by
  have hw := h.wellFormed
  have hhas := Store.has_of_kind? hdoc
  have halone := hw.alone_of_document hdoc
  obtain ⟨d, hout⟩ := h.document
  have houtkind : t'.kind? out = some .document := by
    rw [Store.kind?, hout]
    rfl
  have houtside : ¬ t'.Above doc out := fun hup => hne (hw.eq_of_above_document houtkind hup)
  -- nothing below the new document is below the old one
  have hbelow : ∀ m, t'.Above out m → ¬ t'.Above doc m := by
    intro m hm hup
    rcases Store.above_or_above hm hup with hup | hup
    · exact hne (hw.eq_of_above_document hdoc hup).symm
    · exact houtside hup
  have hself : (t'.dispose doc).get? out = t'.get? out :=
    hw.get?_dispose hhas halone houtside fun k _ hk => by
      rw [hl k out hk] at houtkind
      cases houtkind
  refine ⟨h.new, hw.dispose hhas, ⟨d, (Store.payload?_congr hself).trans hout⟩, ?_, ?_,
    fun m hown hm => ?_⟩
  · rw [Store.isVisible_eq_of_loose (Store.loose_congr hself), h.isVisible]
  · rw [hw.children_dispose_of_not_above hhas halone houtside, h.children]
  · obtain ⟨e, he, hem⟩ := hm
    have hmatches := h.below m hown ⟨e, he, hem⟩
    have hout : t'.Above out m := by
      rw [← h.children, hw.mem_children] at he
      exact (Store.Above.of_parent? he).trans (habove e (h.children ▸ hw.mem_children.mpr he) m hem)
    have ho := ho hown
    -- no attribute has a parent, so what is below the new document is none
    have hattr : ∀ k, m ∉ t'.attributes k := fun k hk => by
      have hkind := ho.kind k m hk
      rcases Store.above_iff.mp hout with rfl | ⟨q, hq, -⟩
      · rw [houtkind] at hkind
        cases hkind
      · rw [hw.parent?_of_attr hkind] at hq
        cases hq
    have hsame : (t'.dispose doc).get? m = t'.get? m :=
      hw.get?_dispose hhas halone (hbelow m hout) fun k _ => hattr k
    refine ⟨(Store.payload?_congr hsame).trans hmatches.payload?,
      (Store.isVisible_eq_of_loose (Store.loose_congr hsame)).trans hmatches.isVisible,
      (hw.children_dispose_of_not_above hhas halone (hbelow m hout)).trans hmatches.children,
      fun a ha => ?_⟩
    have ha' : a ∈ t'.attributes m := by rwa [Store.attributes_congr hmatches.payload?]
    refine (Store.payload?_congr
      (hw.get?_dispose hhas halone (fun hup => ?_) fun k hk hin => ?_)).trans
      (hmatches.attributes a ha)
    · rcases Store.above_iff.mp hup with rfl | ⟨q, hq, -⟩
      · rw [ho.kind m doc ha'] at hdoc
        cases hdoc
      · rw [hw.parent?_of_attr (ho.kind m a ha')] at hq
        cases hq
    · exact hbelow m hout (ho.unique m k a ha' hin ▸ hk)

/-- A snippet that was left on a document is a node that can have children. -/
theorem of_extraContainer {kind : Tree.ExtraKind} (h : t.extraContainer doc kind = .ok snippet) :
    t.hasExtra doc kind ∧ t.kind? doc = some .document ∧ t.isContainer snippet := by
  obtain ⟨v, hv, h⟩ := exists_of_bind_ok h
  have hextra : t.extra? doc kind = some v := by
    rw [Store.extra] at hv
    split at hv
    · rename_i hv'
      rw [hv', Except.ok.inj hv]
    · cases hv
  refine ⟨by rw [Store.hasExtra, hextra]; rfl, ?_, ?_⟩
  · cases hd : t.document? doc with
    | none => simp [Store.extra?, Store.extras, hd] at hextra
    | some d =>
      rw [Store.kind?, Store.payload?_of_document? hd]
      rfl
  · cases v with
    | node n =>
      dsimp only at h
      split at h
      · rename_i hn
        obtain rfl : n = snippet := Except.ok.inj h
        exact hn
      · cases h
    | _ => cases h

/-- **A snippet becomes a document**, in every proper state. -/
theorem promoteSnippet_promotes (h : s.Proper)
    (hs : s.store.extraContainer doc .snippet = .ok snippet) : ∃ out t',
      promoteSnippet doc s = (.ok out, { s with store := t' }) ∧
      Promotion s.store snippet out t' := by
  obtain ⟨hextra, hdoc, hcontainer⟩ := of_extraContainer hs
  let d : DocumentData :=
    { type := ((s.store.document? doc).map (·.type)).getD [], singleRoot := false }
  obtain ⟨t', hmove, hpromotion, hpay, hl, ho, habove⟩ :=
    exists_moved (d := d) h.wellFormed hcontainer rfl
  have hhas := Store.has_of_kind? hdoc
  refine ⟨(s.store.add { payload := .document d }).1, t'.dispose doc, ?_,
    hpromotion.dispose (hl h.listed) ho habove ?_ fun e => hpromotion.new (e ▸ hhas)⟩
  · suffices hgives : (promoteSnippet doc).Gives s fun out s' =>
        out = (s.store.add { payload := .document d }).1 ∧
          s' = { s with store := t'.dispose doc } by
      obtain ⟨_, _, hrun, rfl, rfl⟩ := hgives
      exact hrun
    refine .bind (Work.store_gives ?_)
    rw [if_neg (by simp [hextra]), hs]
    exact .bind (Work.fresh_gives (.bind (Work.tree_gives hmove (.bind (Work.modifyStore_gives
      (.pure ⟨rfl, rfl⟩))))))
  · rw [Store.kind?, hpay doc hhas, ← Store.kind?, hdoc]

/-! ### The build -/

/-- The document that a build finishes last, as the stages have made it, and the state then: the
template was not loaded, and extends none. -/
inductive Finishes (c : Compiler) (files : Files) (steps : Nat) (name : Text) (s : Session) :
    NodeId → Session → Prop
  | intro {p : Parser} {x : CompilerState} {y y' : Agenda × Session} {q : Request}
      {doc₀ doc : NodeId} {s' : Session} : c.parser = some p →
      c.prepare { session := Session.openUnit { s with trace := .start "build" :: s.trace } } =
        (.ok (), x) →
      ReflTransGen (c.Round p ⟨c.dialect, x.registry⟩ files steps)
        (.start name, { x.session with current := name }) y →
      c.Takes p files y q doc₀ [] y' → q.isLoaded = false →
      c.runStages ⟨c.dialect, x.registry⟩ steps doc₀ y'.2 = some (.ok doc, s') →
      Finishes c files steps name s doc s'

variable {p : Parser} {env : Stage.Environment} {n : Nat} {r : Except Failure NodeId × Session}

/-- The loop gives what becomes of the document that is finished last. -/
theorem rounds_eq_of_takes {x y y' : Agenda × Session} {q : Request} {doc₀ : NodeId}
    (hx : Moment.Ordered ⟨.idle x.1, x.2, []⟩)
    (hrounds : ReflTransGen (c.Round p env files steps) x y)
    (htakes : c.Takes p files y q doc₀ [] y') (hq : q.isLoaded = false)
    (hstages : c.runStages env steps doc₀ y'.2 = some (.ok doc, s))
    (hpromote : promoteSnippet doc s = (.ok out, s'))
    (hr : c.rounds p env files steps n x.1 x.2 = some r) : r = (.ok out, s') := by
  have hy : Moment.Ordered ⟨.idle y.1, y.2, []⟩ := by
    clear htakes hr
    induction hrounds with
    | refl => exact hx
    | tail _ hround ih => exact hround.ordered ih
  obtain ⟨r', hordered⟩ : ∃ r', y'.1.Ordered [q] r' := (htakes.step env steps).ordered hy
  obtain rfl := hordered.eq_of_extending hq
  obtain ⟨hqueue, hparked⟩ := hordered.alone
  have hfinish : c.finish env steps q doc₀ [] y'.1 y'.2 =
      some (.ok { y'.1 with finished := q.name :: y'.1.finished, output := some out }, s') := by
    rw [finish, Process.bind_ok hstages]
    dsimp only
    rw [if_neg (by simp [hq]), if_neg (by simp), if_neg (by simp [hordered.output]),
      Process.bind_ok (congrArg some hpromote)]
    rfl
  obtain ⟨k, hk⟩ := exists_rounds hrounds hr
  cases k with
  | zero => cases hk
  | succ k =>
    rw [htakes.rounds_eq, Process.bind_ok hfinish] at hk
    cases k with
    | zero => cases hk
    | succ k =>
      rw [rounds] at hk
      dsimp only at hk
      rw [hqueue, hparked] at hk
      exact (Option.some.inj hk).symm

/-- Linking what the loop gives. -/
theorem exists_artifact {registry : Registry} {l : Linker} {o : Text × List Text} {s₁ s₂ : Session}
    (hrounds : ∀ r, c.rounds p ⟨c.dialect, registry⟩ files steps steps (.start name)
      { s with current := name } = some r → r = (.ok out, s₁))
    (hcancel : s₁.canceled = false) (hlink : l.link out s₁ = some (.ok o, s₂))
    {r : Except Failure Artifact × Session}
    (hr : c.buildWith p l registry files steps name s = some r) :
    ∃ a, r.1 = .ok a ∧ a.output = o.1 ∧ a.dynamicBlocks = o.2 := by
  have hassemble : c.assemble p ⟨c.dialect, registry⟩ files steps name s = some (.ok out, s₁) := by
    cases hloop : c.rounds p ⟨c.dialect, registry⟩ files steps steps (.start name)
        { s with current := name } with
    | none =>
      have hnone : c.assemble p ⟨c.dialect, registry⟩ files steps name s = none := by
        rw [assemble, hloop]
      rw [buildWith, Process.bind_apply, hnone] at hr
      cases hr
    | some r' =>
      obtain rfl := hrounds r' hloop
      rw [assemble, hloop]
  rw [buildWith, Process.bind_ok hassemble,
    Process.bind_ok (congrArg some (checkCanceled_apply hcancel)), Process.bind_ok hlink] at hr
  obtain rfl := Option.some.inj hr
  exact ⟨_, rfl, rfl, rfl⟩

/-- What a build gives, once it has finished its last document. -/
theorem Finishes.exists_artifact {l : Linker} {o : Text × List Text} {s₁ s₂ : Session}
    (h : c.Finishes files steps name s doc s') (hl : c.linker = some l)
    (hpromote : promoteSnippet doc s' = (.ok out, s₁)) (hcancel : s₁.canceled = false)
    (hlink : l.link out s₁ = some (.ok o, s₂)) {r : Except Failure Artifact × Session}
    (hr : c.build files steps name s = some r) :
    ∃ a, r.1 = .ok a ∧ a.output = o.1 ∧ a.dynamicBlocks = o.2 := by
  obtain ⟨hp, hprepare, hrounds, htakes, hq, hstages⟩ := h
  rename_i p x y y' q doc₀
  have hstart : Moment.Ordered ⟨.idle (.start name), { x.session with current := name }, []⟩ :=
    .inr ⟨_, Agenda.ordered_start name⟩
  rw [build, buildIn, hp, hl] at hr
  dsimp only at hr
  rw [runBuild, hprepare] at hr
  dsimp only at hr
  cases hwith : c.buildWith p l x.registry files steps name x.session with
  | none =>
    rw [hwith] at hr
    cases hr
  | some r' =>
    rw [hwith] at hr
    obtain rfl := Option.some.inj hr
    obtain ⟨a, ha, hout⟩ := Compiler.exists_artifact
      (fun _ => rounds_eq_of_takes hstart hrounds htakes hq hstages hpromote) hcancel hlink hwith
    refine ⟨a, ?_, hout⟩
    dsimp only
    rw [ha]
    rfl

/-! ### What is linked -/

/-- Nothing but the node itself changes where it is made visible. -/
theorem matches_setVisible {v : Bool} (h : t.WellFormed) (hm : m ≠ out) :
    Linkable.Matches t (t.setVisible out v) m := by
  refine ⟨Language.payload?_setVisible, ?_, ?_, fun a _ => Language.payload?_setVisible⟩
  · rw [Store.isVisible, Store.setVisible, Store.get?_modify, if_neg (Ne.symm hm), Store.isVisible]
  · exact congrFun (h.linked.congr (Language.growth_setVisible (v := v)).links).children_eq m

/-- Were the new document visible, its visible children would be linked one after the other. -/
theorem Promotion.writes_of_visible {l : Linkable} {os : List LinkOutput}
    (h : Promotion t snippet out l.store) (hcode : l.buffers.get? out = none)
    (hos : ((l.store.children out).filter l.store.isVisible).Forall₂ l.Writes os) :
    ({ l with store := l.store.setVisible out true } : Linkable).Writes out
      ⟨os.flatMap (·.text), os.flatMap (·.dynamic)⟩ := by
  obtain ⟨d, hd⟩ := h.document
  have hw := h.wellFormed
  have hhas : l.store.Has out := Store.has_of_kind? (k := .document) (by
    rw [Store.kind?, hd]
    rfl)
  have hw' : (l.store.setVisible out true).WellFormed := hw.growth Language.growth_setVisible
  have hchildren : (l.store.setVisible out true).children out = l.store.children out :=
    congrFun (hw.linked.congr (Language.growth_setVisible (v := true)).links).children_eq out
  -- nothing below the document is the document itself
  have hne : ∀ n ∈ l.store.children out, ∀ m, l.store.Above n m → m ≠ out := by
    rintro n hn m hm rfl
    exact hw.grounded.not_above_of_parent? (hw.mem_children.mp hn) hm
  have hfilter : (l.store.children out).filter (l.store.setVisible out true).isVisible =
      (l.store.children out).filter l.store.isVisible :=
    List.filter_congr fun n hn => (matches_setVisible hw (hne n hn n (.refl n))).isVisible
  refine Linkable.writes_document (d := d) hw' (Language.payload?_setVisible.trans hd) ?_ hcode ?_
  · obtain ⟨node, hnode⟩ := hhas.exists_get?
    rw [Store.isVisible, Store.setVisible, Store.get?_modify, if_pos rfl, hnode]
    rfl
  · change ((l.store.setVisible out true).children out).filter _ |>.Forall₂ _ os
    rw [hchildren, hfilter]
    have hmem := (List.forall₂_and_left _ _).mpr ⟨fun n hn => (List.mem_filter.mp hn).1, hos⟩
    refine hmem.imp fun n o hn => ?_
    exact hn.2.congr hw hw' (hw.placeable (hw.mem_children.mp hn.1)) fun m hm =>
      matches_setVisible hw (hne n hn.1 m hm)

/-- The linker for markup gives what is written. -/
theorem exists_link {o : LinkOutput} (h : s.linkable.Writes out o) :
    ∃ s₂, xmlLinker.link out s = some (.ok (o.text, o.dynamic), s₂) := by
  obtain ⟨ps, h⟩ := h
  have hlinked : (Session.linkable { s with trace := .start "link" :: s.trace }).link out =
      some (.ok o, ps) := h
  simp only [xmlLinker, hlinked]
  exact ⟨_, rfl⟩

/-- **Nothing is written for a snippet**, because the new document is invisible. -/
theorem Finishes.links_nothing (h : c.Finishes files steps name s doc s')
    (hl : c.linker = some xmlLinker) (hproper : s'.Proper) (hcancel : s'.canceled = false)
    (hsnippet : s'.store.extraContainer doc .snippet = .ok snippet) :
    ∃ out t, promoteSnippet doc s' = (.ok out, { s' with store := t }) ∧
      t.children out = s'.store.children snippet ∧
      (∀ r, c.build files steps name s = some r →
        ∃ a, r.1 = .ok a ∧ a.output = [] ∧ a.dynamicBlocks = []) ∧
      ∃ os, ((s'.store.children snippet).filter t.isVisible).Forall₂
          (Session.linkable { s' with store := t }).Writes os ∧
        (Session.linkable { s' with store := t.setVisible out true }).Writes out
          ⟨os.flatMap (·.text), os.flatMap (·.dynamic)⟩ ∧
        (s'.store.Owned → ((s'.store.children snippet).filter s'.store.isVisible).Forall₂
          s'.linkable.Writes os) := by
  obtain ⟨out, t, hpromote, hp⟩ := promoteSnippet_promotes hproper hsnippet
  have hplace : ∀ n ∈ t.children out, t.Placeable n := fun n hn =>
    hp.wellFormed.placeable (hp.wellFormed.mem_children.mp hn)
  have hvisible : ∀ n ∈ (t.children out).filter t.isVisible, t.Placeable n := fun n hn =>
    hplace n (List.mem_filter.mp hn).1
  obtain ⟨os, hos⟩ := Linkable.exists_forall₂_writes (l := Session.linkable { s' with store := t })
    hp.wellFormed hvisible
  refine ⟨out, t, hpromote, hp.children, fun r hr => ?_, os, hp.children ▸ hos,
    Promotion.writes_of_visible (l := Session.linkable { s' with store := t }) hp ?_ hos,
    fun hown => ?_⟩
  · obtain ⟨s₂, hlink⟩ := exists_link (Linkable.writes_of_invisible
      (l := Session.linkable { s' with store := t }) hp.isVisible)
    exact h.exists_artifact hl hpromote hcancel hlink hr
  · exact Classical.not_not.mp fun hne => hp.new (hproper.coded out hne)
  · -- below the snippet everything is as it was
    have hmatches : ∀ n ∈ s'.store.children snippet, ∀ m, s'.store.Above n m →
        Linkable.Matches s'.store t m := fun n hn m hm => hp.below m hown ⟨n, hn, hm⟩
    have hfilter : (s'.store.children snippet).filter t.isVisible =
        (s'.store.children snippet).filter s'.store.isVisible :=
      List.filter_congr fun n hn => (hmatches n hn n (.refl n)).isVisible
    have hw := hproper.wellFormed
    rw [← hfilter]
    have hmem := (List.forall₂_and_left _ _).mpr ⟨fun n hn => (List.mem_filter.mp hn).1,
      hp.children ▸ hos⟩
    refine hmem.imp fun n o hn => ?_
    obtain ⟨u, rfl, hu⟩ := hw.exists_shaped n
    have hbefore := Linkable.writes_of_placeable (l := s'.linkable) hw hu
      (hw.placeable (hw.mem_children.mp hn.1))
    have hafter := hbefore.congr hw hp.wellFormed (hw.placeable (hw.mem_children.mp hn.1))
      (hmatches _ hn.1)
    obtain rfl := Linkable.Writes.unique hafter hn.2
    exact hbefore

/-! ### A page with a snippet -/

/-- A document whose root element was left on it as a snippet. That element has two visible
children. -/
def pageStore : Store :=
  (Store.run [.create (.document { type := "xml", singleRoot := true }) false 0,
    .create (.element { qualifier := [], name := "page" }) true 1,
    .create (.element { qualifier := [], name := "a", selfClosing := true }) true 1,
    .create (.element { qualifier := [], name := "b", selfClosing := true }) true 1,
    .appendChild 0 (some 1), .appendChild 1 (some 2), .appendChild 1 (some 3)]).setExtra 0 .snippet
      (.node 1)

/-- Reads any source as that document. -/
def pageParser : Parser where
  parse _ _ _ := do
    Work.modifyStore fun _ => pageStore
    return 0

/-- A compiler without stages. -/
def pageCompiler : Compiler :=
  { config := {}, limit := 0, streams := Config.toStreams {}, parser := some pageParser
    linker := some xmlLinker }

/-- Nothing is written for the page, although its elements are visible. -/
theorem links_nothing_page : ∃ s', s'.store = pageStore ∧
    pageCompiler.Finishes { entries := [("main", [])] } 9 "main" {} 0 s' ∧
    (∀ n ∈ pageStore.children 1, pageStore.isVisible n) ∧
    ∀ r, pageCompiler.build { entries := [("main", [])] } 9 "main" {} = some r →
      ∃ a, r.1 = .ok a ∧ a.output = [] ∧ a.dynamicBlocks = [] := by
  have hfinishes : ∃ s', s'.store = pageStore ∧ s'.buffers = {} ∧ s'.canceled = false ∧
      pageCompiler.Finishes { entries := [("main", [])] } 9 "main" {} 0 s' := by
    refine ⟨_, ?_, ?_, ?_,
      .intro (p := pageParser) (x := _) rfl rfl .refl (.read rfl rfl rfl rfl) rfl rfl⟩
    all_goals rfl
  obtain ⟨s', hstore, hbuffers, hcancel, hfinishes⟩ := hfinishes
  have hgrowth : ∀ t : Store, Store.Growth t (t.setExtra 0 .snippet (.node 1)) := fun t =>
    .trans .modifyDocument .modifyDocument
  have howned : pageStore.Owned := Store.owned_of_forall (by decide)
  have hproper : s'.Proper := by
    refine ⟨hstore ▸ (Store.wellFormed_run _).growth (hgrowth _), hstore ▸ howned.listed,
      fun n hn => absurd ?_ hn⟩
    rw [hbuffers]
    simp [Code.Table.get?]
  have hsnippet : s'.store.extraContainer 0 .snippet = .ok 1 := by
    rw [hstore]
    decide
  obtain ⟨out, t, -, -, hbuild, -⟩ := hfinishes.links_nothing rfl hproper hcancel hsnippet
  exact ⟨s', hstore, hfinishes, by decide, hbuild⟩

end Compiler

end Stencil
