import Stencil.Proofs.Build.Rounds
import Stencil.Proofs.Language.Inlining
import Stencil.Proofs.Language.Steady

/-!
# Finishing templates that only load others

While a build goes on, finished documents are kept, and others were read but are not finished yet.
Work on one of these leaves the others alone, because no node is below two documents. So the stages
do to a draft what they do to its content, whatever else there is: what is loaded takes the place of
what loads it, and all of it becomes visible.

## Main definitions

* `Shelf` – a session in which the contents of the documents that are kept are known
* `Drafted` – a document that is not kept, with a known content
* `finished` – what the stages make of a content

## Main results

* `Shelf.reworks`, `Drafted.reworks` – work that is noticed elsewhere only
* `Shelf.finish` – the stages, at work on a draft
-/

namespace Stencil

open Stencil.Tree (NodeId Store Content Shape)
open Stencil.Tree.Store (Untouched)
open Stencil.Language

variable {K : Text → List Content → Prop} {R : NodeId → Prop} {s s' s'' : Session}
  {D D' n m : NodeId}
  {cs cs' out : List Content} {z : Text} {env : Stage.Environment} {d : Dialect}
  {κ : Text → List Content}

/-! ### Documents -/

namespace Tree.Store

variable {t t' : Store}

/-- Two documents have nothing in common. -/
theorem WellFormed.eq_of_documents (h : t.WellFormed) (hD : t.kind? D = some .document)
    (hD' : t.kind? D' = some .document) (hm : t.Above D m) (hm' : t.Above D' m) : D = D' :=
  (above_or_above hm hm').elim (h.eq_of_above_document hD') fun hup =>
    (h.eq_of_above_document hD hup).symm

/-- Below a document there are no attributes. -/
theorem WellFormed.kind_ne_attr (h : t.WellFormed) (hD : t.kind? D = some .document)
    (hm : t.Above D m) : t.kind? m ≠ some .attr := by
  rcases above_iff.mp hm with rfl | ⟨q, hq, -⟩
  · rw [hD]
    decide
  · exact (h.placeable hq).kind_ne.2

/-- A document with these contents below it. -/
structure Stocks (t : Store) (D : NodeId) (cs : List Content) : Prop where
  document : t.kind? D = some .document
  holds : (t.children D).Forall₂ t.Holds cs

/-- Changes elsewhere. -/
theorem Stocks.untouched (h : t.Stocks D cs) (hw : t.WellFormed) (hu : Untouched R t t')
    (hout : ∀ m, t.Above D m → ¬ R m) : t'.Stocks D cs where
  document := hu.kind? D _ h.document
  holds := by
    rw [hu.children D (isContainer_of_document h.document) (hout D (.refl D))]
    refine hu.holds_all hw (fun c hc => ?_) h.holds
    have hp := hw.mem_children.mp hc
    exact ⟨hw.placeable hp, fun m hm => hout m ((Above.of_parent? hp).trans hm)⟩

end Tree.Store

/-! ### Sessions -/

/-- Finished documents are kept with contents of which it is known what they are, each document
under one name. Nobody has asked to be called again. -/
structure Shelf (K : Text → List Content → Prop) (s : Session) : Prop where
  wellFormed : s.store.WellFormed
  owned : s.store.Owned
  labelled : s.store.Labelled
  canceled : s.canceled = false
  raised (m : NodeId) : s.raised m = false
  kept (z : Text) (D : NodeId) : s.documents.lookup z = some D → ∃ cs, s.store.Stocks D cs ∧ K z cs
  unique (z z' : Text) (D : NodeId) :
    s.documents.lookup z = some D → s.documents.lookup z' = some D → z = z'

/-- A document that is not kept and is whole, with these contents below it. -/
structure Drafted (s : Session) (D : NodeId) (cs : List Content) : Prop where
  entire : s.store.Entire D
  holds : (s.store.children D).Forall₂ s.store.Holds cs
  apart (z : Text) : s.documents.lookup z ≠ some D

/-- Work on nodes that is noticed within a region only. -/
structure Session.Reworks (R : NodeId → Prop) (s s' : Session) : Prop where
  wellFormed : s'.store.WellFormed
  owned : s'.store.Owned
  labelled : s'.store.Labelled
  canceled : s'.canceled = s.canceled
  raised (m : NodeId) : s'.raised m = s.raised m
  documents : s'.documents = s.documents
  dependencies : s'.dependencies = s.dependencies
  untouched : Untouched R s.store s'.store

theorem Drafted.stocks (h : Drafted s D cs) : s.store.Stocks D cs := ⟨h.entire.1, h.holds⟩

/-- A draft has nothing to do with other documents. -/
theorem Drafted.not_above (h : Drafted s D cs) (hw : s.store.WellFormed)
    (hD' : s.store.kind? D' = some .document) (hne : D' ≠ D) (hm : s.store.Above D' m) :
    ¬ (s.store.Above D m ∨ ¬ s.store.Has m) := by
  rintro (hup | hgone)
  · exact hne (hw.eq_of_documents hD' h.entire.1 hm hup)
  · exact hgone (hm.has (Store.has_of_kind? hD'))

/-- **Documents that are kept** do not notice work elsewhere. -/
theorem Shelf.reworks (h : Shelf K s) (hr : s.Reworks R s')
    (hout : ∀ z D m, s.documents.lookup z = some D → s.store.Above D m → ¬ R m) : Shelf K s' where
  wellFormed := hr.wellFormed
  owned := hr.owned
  labelled := hr.labelled
  canceled := hr.canceled.trans h.canceled
  raised m := (hr.raised m).trans (h.raised m)
  kept z D hz := by
    rw [hr.documents] at hz
    obtain ⟨cs, hcs, hK⟩ := h.kept z D hz
    exact ⟨cs, hcs.untouched h.wellFormed hr.untouched (hout z D · hz), hK⟩
  unique := by
    rw [hr.documents]
    exact h.unique

/-- **A draft** does not notice work elsewhere. -/
theorem Drafted.reworks (h : Drafted s D cs) (hw : s.store.WellFormed) (hr : s.Reworks R s')
    (hout : ∀ m, s.store.Above D m → ¬ R m) : Drafted s' D cs where
  entire := hr.untouched.entire (hout D (.refl D)) h.entire
  holds := (h.stocks.untouched hw hr.untouched hout).holds
  apart z := by
    rw [hr.documents]
    exact h.apart z

/-- Work on one document: the other drafts stay as they are, and so do documents that are kept under
other names. -/
structure WorksOn (K : Text → List Content → Prop) (D : NodeId) (s s' : Session) : Prop where
  shelf : Shelf K s'
  drafted (D' : NodeId) (cs : List Content) : D' ≠ D → Drafted s D' cs → Drafted s' D' cs
  given (z : Text) : (s.documents.lookup z).isSome → (s'.documents.lookup z).isSome
  dependencies : s'.dependencies = s.dependencies

theorem WorksOn.trans (h : WorksOn K D s s') (h' : WorksOn K D s' s'') : WorksOn K D s s'' where
  shelf := h'.shelf
  drafted D' cs hne hd := h'.drafted D' cs hne (h.drafted D' cs hne hd)
  given z hz := h'.given z (h.given z hz)
  dependencies := h'.dependencies.trans h.dependencies

/-- **Work on a draft** leaves everything else alone. -/
theorem Shelf.worksOn (h : Shelf K s) (hd : Drafted s D cs)
    (hr : s.Reworks (fun m => s.store.Above D m ∨ ¬ s.store.Has m) s') : WorksOn K D s s' where
  shelf := h.reworks hr fun z D' m hz hm => by
    obtain ⟨cs', hcs', -⟩ := h.kept z D' hz
    exact hd.not_above h.wellFormed hcs'.document (fun e => hd.apart z (e ▸ hz)) hm
  drafted D' cs' hne hd' := hd'.reworks h.wellFormed hr fun m hm =>
    hd.not_above h.wellFormed hd'.entire.1 hne hm
  given z := by
    rw [hr.documents]
    exact id
  dependencies := hr.dependencies

section Notes

variable {current : Text} {dependencies : List Text} {trace : List TraceRecord}

/-- What is noted does not matter. -/
theorem Shelf.noted (h : Shelf K s) : Shelf K { s with current, dependencies, trace } :=
  ⟨h.wellFormed, h.owned, h.labelled, h.canceled, h.raised, h.kept, h.unique⟩

theorem Drafted.noted (h : Drafted s D cs) : Drafted { s with current, dependencies, trace } D cs :=
  ⟨h.entire, h.holds, h.apart⟩

theorem WorksOn.recorded (h : WorksOn K D s s') : WorksOn K D s { s' with trace } :=
  ⟨h.shelf.noted, fun D' cs hne hd => (h.drafted D' cs hne hd).noted, h.given, h.dependencies⟩

end Notes

/-- The contents of the documents that are kept. -/
theorem Shelf.exists_contents (h : Shelf K s) : ∃ κ : Text → List Content,
    (∀ z D, s.documents.lookup z = some D → s.store.Stocks D (κ z) ∧ K z (κ z)) ∧
      ∀ z, s.documents.lookup z = none → κ z = [] := by
  have hcontents : ∀ z, ∃ cs, (∀ D, s.documents.lookup z = some D → s.store.Stocks D cs ∧ K z cs) ∧
      (s.documents.lookup z = none → cs = []) := by
    intro z
    cases hz : s.documents.lookup z with
    | none => exact ⟨[], by simp, fun _ => rfl⟩
    | some D =>
      obtain ⟨cs, hcs⟩ := h.kept z D hz
      refine ⟨cs, fun D' hD' => ?_, by simp⟩
      obtain rfl := Option.some.inj hD'
      exact hcs
  choose κ hκ using hcontents
  exact ⟨κ, fun z => (hκ z).1, fun z => (hκ z).2⟩

/-! ### The stage that changes the tree -/

/-- A draft knows the finished templates. -/
theorem Shelf.knows (h : Shelf K s) (hd : Drafted s D cs)
    (hκ : ∀ z D, s.documents.lookup z = some D → s.store.Stocks D (κ z)) : Knows κ D s where
  wellFormed := h.wellFormed
  owned := h.owned
  labelled := h.labelled
  has := Store.has_of_kind? hd.entire.1
  raised := h.raised
  kept z D' hz := ⟨(hκ z D' hz).document, (hκ z D' hz).holds⟩
  apart z D' hz hup := by
    obtain rfl := h.wellFormed.eq_of_above_document hd.entire.1 hup
    exact hd.apart z hz

/-- The children of a document are exchanged. -/
theorem Language.Exchanged.reworks (h : Exchanged D (s.store.children D) out s s')
    (hw : s.store.WellFormed) : s.Reworks (fun m => s.store.Above D m ∨ ¬ s.store.Has m) s' where
  wellFormed := h.within.tidy.wellFormed
  owned := h.within.tidy.owned
  labelled := h.labelled
  canceled := by rw [h.rest]
  raised m := by
    rw [h.rest]
    rfl
  documents := by rw [h.rest]
  dependencies := by rw [h.rest]
  untouched := h.untouched.mono fun m _ hm => by
    rcases hm with rfl | ⟨c, hc, hup⟩ | hgone
    · exact .inl (.refl m)
    · exact .inl ((Store.Above.of_parent? (hw.mem_children.mp hc)).trans hup)
    · exact .inr hgone

theorem Drafted.exchanged (h : Drafted s D cs) (hr : Exchanged D (s.store.children D) out s s') :
    Drafted s' D out where
  entire := hr.entire D h.entire
  holds := by
    obtain ⟨new, hnew, hholds⟩ := hr.place [] [] (by simp)
    rw [List.nil_append, List.append_nil] at hnew
    exact hnew ▸ hholds
  apart z := by
    rw [show s'.documents = s.documents by rw [hr.rest]]
    exact h.apart z

/-! ### The stage that generates code -/

/-- Nothing is left to be done at the nodes of a draft with such a content. -/
theorem Drafted.isShown {id : Int} (h : Drafted s D cs) (hw : s.store.WellFormed)
    (hripe : ∀ c ∈ cs, Ripe id c) (hm : s.store.Above D m) : IsShown id s.store m := by
  have hD : s.store.Holds D
      (.node (s.store.loose D) ((s.store.attributes D).map s.store.loose) cs) :=
    Store.holds_iff.mpr ⟨rfl, rfl, h.holds⟩
  obtain ⟨x, hx, hholds⟩ := hD.exists_part hw hm
  rcases Content.mem_parts_node.mp hx with rfl | ⟨c, hc, hx⟩
  · -- the document itself, which is the only one
    have hself : s.store.loose m = s.store.loose D := (Store.holds_iff.mp hholds).1
    have hkind : s.store.kind? m = some .document := by
      rw [Store.kind?_eq_of_loose hself]
      exact h.entire.1
    obtain ⟨data, hdata⟩ := Store.payload?_of_document hkind
    exact .inl (.document hdata)
  · obtain ⟨hself, hattrs, -⟩ := Store.holds_iff.mp hholds
    obtain ⟨hsteady, hrole⟩ := hripe c hc x hx
    exact isShown_of_view (hself ▸ hattrs ▸ hsteady) (hself ▸ hrole)

/-- What a draft says, with its document. -/
theorem Drafted.content_eq (h : Drafted s D cs) {tree : Shape} (ht : s.store.Shaped tree)
    (hroot : tree.root = D) : tree.content s.store =
      .node (s.store.loose D) ((s.store.attributes D).map s.store.loose) cs :=
  Store.Holds.unique ⟨tree, hroot, ht, rfl⟩ (Store.holds_iff.mpr ⟨rfl, rfl, h.holds⟩)

/-- **All of a draft becomes visible.** -/
theorem Drafted.revealed (h : Drafted s D cs) (hw : s.store.WellFormed) (ho : s.store.Owned)
    (hl : s.store.Labelled) {tree : Shape} (ht : s.store.Shaped tree) (hroot : tree.root = D)
    (hs' : s' = { s with store := s.store.revealAll tree.ids, trace := s'.trace }) :
    s.Reworks (fun m => s.store.Above D m ∨ ¬ s.store.Has m) s' ∧
      Drafted s' D (cs.map Content.revealed) := by
  subst hroot
  have hgrowth : Store.Growth s.store (s.store.revealAll tree.ids) := Store.growth_revealAll
  have hpay : ∀ m, (s.store.revealAll tree.ids).payload? m = s.store.payload? m := fun _ =>
    Store.payload?_revealAll
  have hattr : ∀ m ∈ tree.ids, s.store.kind? m ≠ some .attr := fun m hm =>
    hw.kind_ne_attr h.entire.1 (ht.above hw hm)
  rw [hs']
  refine ⟨⟨hw.growth hgrowth, ho.congr hgrowth.kind? fun _ => Store.attributes_congr (hpay _),
    hl.alike (.of_payload? hpay), rfl, fun _ => rfl, rfl, rfl, ?_⟩,
    h.entire.of_payload? (hpay _), ?_, h.apart⟩
  · exact (Store.untouched_revealAll hw ho hattr).mono fun m _ hm => .inl (ht.above hw hm)
  · -- what a tree says depends on its form and on what is visible
    have hcontent := Store.Shaped.content_revealAll hw ho hattr fun m hm => hm
    rw [h.content_eq ht rfl, Content.revealed_node] at hcontent
    exact (Store.holds_iff.mp
      (⟨tree, rfl, ht.growth hw hgrowth, hcontent⟩ : (s.store.revealAll tree.ids).Holds
        tree.root _)).2.2

/-! ### Both stages -/

/-- What the stages make of the content of a template, given the contents of those that it loads. -/
def finished (d : Dialect) (κ : Text → List Content) (cs : List Content) : List Content :=
  (cs.flatMap (inlined d fun z => portion (namespaceIdOf d) (κ z))).map Content.revealed

/-- A content of which nothing is left to be done, and all is visible. -/
structure Final (id : Int) (cs : List Content) : Prop where
  ripe : ∀ c ∈ cs, Ripe id c
  revealed : cs.map Content.revealed = cs

theorem final_nil {id : Int} : Final id [] := ⟨by simp, rfl⟩

theorem Final.portion {id : Int} (h : Final id cs) :
    (portion id cs).map Content.revealed = portion id cs := by
  have hmem : ∀ c ∈ cs, c.revealed = c := fun c hc =>
    List.map_inj_left.mp (h.revealed.trans (List.map_id cs).symm) c hc
  rw [Language.portion]
  split
  · rfl
  · rename_i root hroot
    have hroot := hmem root (List.mem_of_find?_eq_some hroot)
    split
    · cases root with
      | node self attributes below =>
        rw [Content.revealed_node] at hroot
        exact (Content.node.inj hroot).2.2
    · exact congrArg (fun c => [c]) hroot

/-- **The stages make it final.** -/
theorem final_finished (hκ : ∀ z, Final (namespaceIdOf d) (κ z))
    (hcs : ∀ c ∈ cs, Steady (namespaceIdOf d) c) : Final (namespaceIdOf d) (finished d κ cs) where
  ripe x hx := by
    obtain ⟨y, hy, rfl⟩ := List.mem_map.mp hx
    obtain ⟨c, hc, hy⟩ := List.mem_flatMap.mp hy
    exact ripe_revealed
      (ripe_of_mem_inlined (fun z _ => ripe_of_mem_portion (hκ z).ripe) (hcs c hc) hy)
  revealed := by
    rw [finished, List.map_map]
    exact List.map_congr_left fun c _ => c.revealed_revealed

/-- What is visible makes no difference to what comes out. -/
theorem finished_revealed (hκ : ∀ z, Final (namespaceIdOf d) (κ z)) :
    finished d κ (cs.map Content.revealed) = finished d κ cs := by
  have hinlined : ∀ c,
      (inlined d (fun z => portion (namespaceIdOf d) (κ z)) c).map Content.revealed =
      inlined d (fun z => portion (namespaceIdOf d) (κ z)) c.revealed := fun _ =>
    revealed_inlined fun z => (hκ z).portion
  rw [finished, finished, List.map_flatMap, List.map_flatMap, List.flatMap_map]
  exact List.flatMap_congr fun c _ => by rw [hinlined, hinlined, Content.revealed_revealed]

/-- The contents of templates that are loaded are all that matters. -/
theorem finished_congr {ν : Text → List Content}
    (h : ∀ c ∈ cs, ∀ x ∈ c.parts, roleOf (namespaceIdOf d) x.self = .loads →
      ∃ z, loadOf d x.self x.attributes = some z ∧ κ z = ν z) :
    finished d κ cs = finished d ν cs := by
  have hinlined : ∀ c : Content, (∀ x ∈ c.parts, roleOf (namespaceIdOf d) x.self = .loads →
      ∃ z, loadOf d x.self x.attributes = some z ∧ κ z = ν z) →
      inlined d (fun z => portion (namespaceIdOf d) (κ z)) c =
        inlined d (fun z => portion (namespaceIdOf d) (ν z)) c := by
    intro c
    induction c with
    | node self attributes below ih =>
      intro h
      rw [inlined_node, inlined_node]
      split
      · rename_i hrole
        obtain ⟨z, hz, heq⟩ := h _ (Content.mem_parts _) hrole
        simp only [Content.self, Content.attributes] at hz
        rw [hz, Option.map_some, Option.map_some, heq]
      · congr 2
        exact List.flatMap_congr fun b hb => ih b hb fun x hx =>
          h x (Content.mem_parts_node.mpr (.inr ⟨b, hb, hx⟩))
  rw [finished, finished]
  congr 1
  exact List.flatMap_congr fun c hc => hinlined c (h c hc)

/-- A stage comes to what its walk comes to. -/
theorem runStage_reaches {k : StageKind} {Q : Session → Prop} (hs : s.canceled = false)
    (h : (Stage.visitor env k).Comes [D] { s with trace := .start k.name :: s.trace }
      (.ok () : Except Failure Unit) fun _ => Q) :
    ∃ s', Q s' ∧ Process.Reaches (fun steps => Compiler.runStage env steps D (.standard k)) s
      (.ok D, { s' with trace := .finish k.name :: s'.trace }) := by
  obtain ⟨depth, s', hwalk, hQ⟩ := h
  obtain ⟨enough, henough⟩ := Tree.Visitor.exists_walk_eq hwalk
  refine ⟨s', hQ, enough, fun steps hsteps => Compiler.runStage_standard hs ?_⟩
  rw [Stage.run, henough steps hsteps]

/-- What the stages record, the last first. -/
def stageRecords : List TraceRecord :=
  [.finish StageKind.processing.name, .start StageKind.processing.name,
    .finish StageKind.manipulation.name, .start StageKind.manipulation.name]

section Stages

variable (h : Shelf K s) (hd : Drafted s D cs)

include h hd

/-- **The stage that changes the tree**, at work on a draft whose loads are kept. -/
theorem Shelf.manipulate (henv : Fluent env)
    (hκ : ∀ z D, s.documents.lookup z = some D → s.store.Stocks D (κ z))
    (hripe : ∀ z, ∀ c ∈ κ z, Ripe (namespaceIdOf env.dialect) c)
    (hsteady : ∀ c ∈ cs, Steady (namespaceIdOf env.dialect) c)
    (hroots : ∀ c ∈ cs, roleOf (namespaceIdOf env.dialect) c.self ≠ .loads)
    (hloads : ∀ c ∈ cs, ∀ x ∈ c.parts, roleOf (namespaceIdOf env.dialect) x.self = .loads →
      ∃ z D, loadOf env.dialect x.self x.attributes = some z ∧ s.documents.lookup z = some D) :
    ∃ s', Process.Reaches (fun steps => Compiler.runStage env steps D (.standard .manipulation)) s
        (.ok D, s') ∧ WorksOn K D s s' ∧
      Drafted s' D (cs.flatMap (inlined env.dialect fun z =>
        portion (namespaceIdOf env.dialect) (κ z))) ∧
      s'.trace = .finish StageKind.manipulation.name :: .start StageKind.manipulation.name ::
        s.trace := by
  have hstart : Shelf K { s with trace := .start StageKind.manipulation.name :: s.trace } := h.noted
  obtain ⟨s', hexchanged, hreaches⟩ := runStage_reaches (k := .manipulation) h.canceled
    (manipulation_inlines henv hripe hd.entire.1 (hstart.knows hd.noted hκ) hd.holds hsteady
      hroots hloads)
  refine ⟨_, hreaches, ?_, (hd.noted.exchanged hexchanged).noted, by rw [hexchanged.rest]⟩
  have hworks := hstart.worksOn hd.noted (hexchanged.reworks h.wellFormed)
  exact .recorded ⟨hworks.shelf, fun D' cs' hne hd' => hworks.drafted D' cs' hne hd'.noted,
    hworks.given, hworks.dependencies⟩

/-- **The stage that generates code**, at work on a draft in which nothing is left to be done. -/
theorem Shelf.process (henv : Marking env)
    (hripe : ∀ c ∈ cs, Ripe (namespaceIdOf env.dialect) c) :
    ∃ s', Process.Reaches (fun steps => Compiler.runStage env steps D (.standard .processing)) s
        (.ok D, s') ∧ WorksOn K D s s' ∧
      Drafted s' D (cs.map Content.revealed) ∧
      s'.trace = .finish StageKind.processing.name :: .start StageKind.processing.name ::
        s.trace := by
  obtain ⟨tree, rfl, ht⟩ := h.wellFormed.exists_shaped D
  have hrun : ∀ steps, 2 * tree.ids.length < steps → _ :=
    fun steps => run_processing henv h.wellFormed
    h.raised ht fun m hm => hd.isShown h.wellFormed hripe (ht.above h.wellFormed hm)
  obtain ⟨s', hs'⟩ : ∃ s' : Session, s' = { s with
      store := s.store.revealAll tree.ids
      trace := .finish StageKind.processing.name :: .start StageKind.processing.name ::
        s.trace } := ⟨_, rfl⟩
  obtain ⟨hreworks, hrevealed⟩ := hd.revealed h.wellFormed h.owned h.labelled ht rfl
    (show s' = { s with store := s.store.revealAll tree.ids, trace := s'.trace } by rw [hs'])
  subst hs'
  exact ⟨_, ⟨2 * tree.ids.length + 1, fun steps hsteps =>
    Compiler.runStage_standard h.canceled (hrun steps hsteps)⟩,
      h.worksOn hd hreworks, hrevealed, rfl⟩

/-- **The stages finish a draft** whose loads are kept. -/
theorem Shelf.finish {c : Compiler} (henv : Fluent env) (hmark : Marking env)
    (hc : c.stages = [.standard .manipulation, .standard .processing])
    (hK : ∀ z xs, K z xs → Final (namespaceIdOf env.dialect) xs)
    (hsteady : ∀ c ∈ cs, Steady (namespaceIdOf env.dialect) c)
    (hroots : ∀ c ∈ cs, roleOf (namespaceIdOf env.dialect) c.self ≠ .loads)
    (hloads : ∀ c ∈ cs, ∀ x ∈ c.parts, roleOf (namespaceIdOf env.dialect) x.self = .loads →
      ∃ z, loadOf env.dialect x.self x.attributes = some z ∧ (s.documents.lookup z).isSome) :
    ∃ κ s', (∀ z, (s.documents.lookup z).isSome → K z (κ z)) ∧
      (∀ z, Final (namespaceIdOf env.dialect) (κ z)) ∧
      Process.Reaches (fun steps => c.runStages env steps D) s (.ok D, s') ∧ WorksOn K D s s' ∧
      Drafted s' D (finished env.dialect κ cs) ∧ s'.trace = stageRecords ++ s.trace := by
  obtain ⟨κ, hκ, hnone⟩ := h.exists_contents
  have hfinal : ∀ z, Final (namespaceIdOf env.dialect) (κ z) := by
    intro z
    cases hz : s.documents.lookup z with
    | none => exact hnone z hz ▸ final_nil
    | some D => exact hK z _ (hκ z D hz).2
  obtain ⟨s₁, hfirst, hworks₁, hd₁, htrace₁⟩ := h.manipulate hd henv (fun z D hz => (hκ z D hz).1)
    (fun z => (hfinal z).ripe) hsteady hroots fun c hc x hx hrole => by
      obtain ⟨z, hz, hsome⟩ := hloads c hc x hx hrole
      obtain ⟨D, hD⟩ := Option.isSome_iff_exists.mp hsome
      exact ⟨z, D, hz, hD⟩
  have hripe : ∀ x ∈ cs.flatMap
      (inlined env.dialect fun z => portion (namespaceIdOf env.dialect) (κ z)),
      Ripe (namespaceIdOf env.dialect) x := fun x hx => by
    obtain ⟨c, hc, hx⟩ := List.mem_flatMap.mp hx
    exact ripe_of_mem_inlined (fun z _ => ripe_of_mem_portion (hfinal z).ripe) (hsteady c hc) hx
  obtain ⟨s₂, hsecond, hworks₂, hd₂, htrace₂⟩ := hworks₁.shelf.process hd₁ hmark hripe
  refine ⟨κ, s₂, fun z hz => ?_, hfinal, ?_, hworks₁.trans hworks₂,
    hd₂, by rw [htrace₂, htrace₁]; rfl⟩
  · obtain ⟨D, hD⟩ := Option.isSome_iff_exists.mp hz
    exact (hκ z D hD).2
  · rw [show (fun steps => c.runStages env steps D) = fun steps =>
        Compiler.runStage env steps D (.standard .manipulation) >>= fun D =>
          Compiler.runStage env steps D (.standard .processing) >>= pure by
      funext steps
      rw [Compiler.runStages, hc]
      rfl]
    exact hfirst.bind_ok (hsecond.bind_ok (.of_eq fun _ => rfl))

end Stages

end Stencil
