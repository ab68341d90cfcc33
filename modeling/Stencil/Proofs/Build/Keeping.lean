import Stencil.Proofs.Build.Includes
import Stencil.Proofs.Build.Course
import Stencil.Proofs.Language.Marking

/-!
# How long definitions last

The table of definitions refers to elements of documents, and lives as long as a build. In every
state of every build, definitions are apart from what the stages are going to work on
(`Instant.Guarded`): from documents that are parked or were just read, from the nodes that a walk is
going to visit, and from the insides of documents that are kept. So no tick makes a definition lose
what it holds, with one exception. When a document is kept under a name, an earlier one under that
name is disposed of, and what it defined is empty then (`Session.Replaces`). Until that happens to
its document, every use of its name finds in the first definition what was written there
(`Compiler.definitions_last`).

## Main definitions

* `Session.Replaces` – the document of a node makes way for another one
* `Session.Keeps` – documents in hand and documents that are kept
* `Compiler.Instant.Guarded` – what holds in every state of a build

## Main results

* `Language.keepDocument_guards` – keeping a document
* `Compiler.Tick.guarded` – every tick preserves what holds
* `Compiler.definitions_last` – definitions last as long as their documents
-/

namespace Stencil

open Relation (ReflTransGen)
open Stencil.Tree (NodeId Store Content Walk ElementData Parsed)
open Stencil.Tree.Store (Untouched Tidy)
open Stencil.Language (isNamed namespaceIdOf)

variable {s s' s'' : Session} {id : Int} {l l' ds ds' : List NodeId} {doc b : NodeId} {name : Text}

/-! ### Documents -/

namespace Session

/-- The document of a node makes way for another one that is kept under the same name. -/
def Replaces (b : NodeId) (s s' : Session) : Prop :=
  ∃ z old new, s.documents.lookup z = some old ∧ s'.documents.lookup z = some new ∧ new ≠ old ∧
    s.store.Above old b

/-- Some documents are in hand, and are finished as a whole. Those that are kept are others. -/
structure Keeps (ds : List NodeId) (s : Session) : Prop where
  nodup : ds.Nodup
  entire (doc : NodeId) : doc ∈ ds → s.store.Entire doc
  kept (e : Text × NodeId) : e ∈ s.documents → s.store.kind? e.2 = some .document ∧ e.2 ∉ ds

/-- What happens to definitions: one whose document makes way becomes empty, and every other one is
remembered. -/
structure Carries (s s' : Session) : Prop where
  remembers (b : NodeId) : ¬ Replaces b s s' → Remembers b s s'
  empties (b : NodeId) : Replaces b s s' → s'.store.children b = []

theorem not_replaces_of_documents (h : s'.documents = s.documents) : ¬ Replaces b s s' := by
  rintro ⟨z, old, new, hold, hnew, hne, -⟩
  rw [h, hold] at hnew
  exact hne (Option.some.inj hnew).symm

theorem Carries.of_documents (h : s'.documents = s.documents) (hb : ∀ b, Remembers b s s') :
    s.Carries s' :=
  ⟨fun b _ => hb b, fun _ hreplaces => absurd hreplaces (not_replaces_of_documents h)⟩

theorem Spares.carries (h : s.Spares s') : s.Carries s' := .of_documents h.documents h.remembers

theorem Rests.carries (h : s.Rests s') : s.Carries s' :=
  .of_documents h.documents fun _ => .of_eq h.store h.definitions

namespace Keeps

theorem rests (h : s.Keeps ds) (hs : s.Rests s') : s'.Keeps ds :=
  ⟨h.nodup, hs.store ▸ h.entire, hs.store ▸ hs.documents ▸ h.kept⟩

theorem spares (h : s.Keeps ds) (hs : s.Spares s') : s'.Keeps ds := by
  refine ⟨h.nodup, fun doc hdoc => hs.entire doc (h.entire doc hdoc), fun e he => ?_⟩
  obtain ⟨hkind, hout⟩ := h.kept e (hs.documents ▸ he)
  exact ⟨Store.kind?_of_tag? (hs.remembers e.2).tag? hkind, hout⟩

theorem perm (h : s.Keeps ds) (hp : ds'.Perm ds) : s.Keeps ds' :=
  ⟨hp.nodup_iff.mpr h.nodup, fun doc hdoc => h.entire doc (hp.mem_iff.mp hdoc),
    fun e he => ⟨(h.kept e he).1, fun hmem => (h.kept e he).2 (hp.mem_iff.mp hmem)⟩⟩

theorem tail (h : s.Keeps (doc :: ds)) : s.Keeps ds :=
  ⟨(List.nodup_cons.mp h.nodup).2, fun d hd => h.entire d (List.mem_cons_of_mem doc hd),
    fun e he => ⟨(h.kept e he).1, fun hmem => (h.kept e he).2 (List.mem_cons_of_mem doc hmem)⟩⟩

end Keeps

theorem Guards.perm (g : s.Guards id l) (hp : l'.Perm l) : s.Guards id l' where
  wellFormed := g.wellFormed
  owned := g.owned
  labelled := g.labelled
  nodup := hp.nodup_iff.mpr g.nodup
  has n hn := g.has n (hp.mem_iff.mp hn)
  fresh n hn := g.fresh n (hp.mem_iff.mp hn)
  separate := g.separate.mono fun _ hm => hm.imp_left hp.mem_iff.mp
  bodies := g.bodies
  fallbacks := g.fallbacks

/-! ### Reading a document -/

section Reading

variable {data : ElementData} (hp : Parsed s.store s'.store doc data)

include hp

theorem Keeps.reads (h : s.Keeps ds) (hdocs : s'.documents = s.documents) :
    s'.Keeps (doc :: ds) := by
  have hpay : ∀ {m}, s.store.Has m → s'.store.payload? m = s.store.payload? m := fun hm =>
    Store.payload?_congr (hp.built.kept _ hm)
  refine ⟨List.nodup_cons.mpr ⟨fun hmem => ?_, h.nodup⟩, fun d hd => ?_, fun e he => ?_⟩
  · exact hp.new (Store.has_of_kind? (h.entire doc hmem).1)
  · rcases List.mem_cons.mp hd with rfl | hd
    · exact hp.entire
    · exact (h.entire d hd).of_payload? (hpay (Store.has_of_kind? (h.entire d hd).1))
  · obtain ⟨hkind, hout⟩ := h.kept e (hdocs ▸ he)
    have hhas := Store.has_of_kind? hkind
    refine ⟨by rw [Store.kind?, hpay hhas, ← Store.kind?, hkind], fun hmem => ?_⟩
    rcases List.mem_cons.mp hmem with heq | hmem
    · exact hp.new (heq ▸ hhas)
    · exact hout hmem

/-- **A document that was just read** is apart from definitions. -/
theorem Guards.reads (g : s.Guards id l) (hdefs : s'.definitions = s.definitions) :
    s'.Guards id (doc :: l) ∧ ∀ b, Remembers b s s' := by
  have htag : ∀ {m}, s.store.Has m → s'.store.tag? m = s.store.tag? m := fun hm => by
    rw [Store.tag?, Store.payload?_congr (hp.built.kept _ hm), Store.tag?]
  have hgrows : ∀ m tag, s.store.tag? m = some tag → s'.store.tag? m = some tag := fun m tag hm =>
    (htag (Store.has_of_tag? hm)).trans hm
  have hkind : ∀ m k, s.store.kind? m = some k → s'.store.kind? m = some k := fun m k =>
    Store.kind?_of_tag? (hgrows m)
  have hparent : ∀ {m}, s.store.Has m → s'.store.parent? m = s.store.parent? m := fun hm => by
    rw [Store.parent?, Store.links, hp.built.kept _ hm, Store.parent?, Store.links]
  have hdefined := defined_congr hdefs
  have hknown : ∀ {m}, m ∈ l ∨ s.Refers m → s.store.Has m := fun hm =>
    hm.elim (g.has _) fun hm => (g.placeable hm).has
  refine ⟨⟨hp.built.wellFormed, hp.built.owned, hp.built.labelled,
    List.nodup_cons.mpr ⟨fun hmem => hp.new (g.has doc hmem), g.nodup⟩,
    fun m hm => ?_, fun m hm => ?_,
    ?_, fun z b hb => ?_, fun x f hx hf => ?_⟩, fun b => ⟨hgrows b, fun _ hb => hdefined ▸ hb,
    fun _ hb => hdefined ▸ hb, fun c hb _ hc => ?_⟩⟩
  · rcases List.mem_cons.mp hm with rfl | hm
    · exact Store.has_of_kind? hp.entire.1
    · exact hp.built.has (g.has m hm)
  · rw [refers_congr hdefs]
    rcases List.mem_cons.mp hm with rfl | hm
    · exact fun hrefers => hp.new (g.placeable hrefers).has
    · exact g.fresh m hm
  · -- nothing is above the new document, and it is above nothing that was there
    have hold : s'.store.Separate fun m => m ∈ l ∨ s.Refers m := fun a c ha hc hup =>
      g.separate a c ha hc ((hp.built.above_iff (hknown ha)).mp hup)
    refine (hold.join (N := fun m => m = doc) (fun m hm => hm ▸ hp.alone) ?_).mono ?_
    · rintro m c rfl hc hup
      exact absurd hup (Store.not_above_new g.wellFormed (fun _ => hparent) (hknown hc) hp.new)
    · rintro m (hm | hm)
      · exact (List.mem_cons.mp hm).elim .inr fun hm => .inl (.inl hm)
      · exact .inl (.inr (refers_congr hdefs ▸ hm))
  · rw [hdefs] at hb ⊢
    obtain ⟨hplace, hor⟩ := g.bodies z b hb
    refine ⟨hplace.mono hkind, hor.imp_left fun hnamed => ?_⟩
    rwa [Language.isNamed_congr (htag hplace.has)]
  · rw [hdefs] at hx ⊢
    obtain ⟨hplace, hun, halone, hone⟩ := g.fallbacks x f hx hf
    exact ⟨hplace.mono hkind, hun.mono hgrows, (hparent hplace.has).trans halone, hone⟩
  · exact (Untouched.of_get? (R := fun _ => False) g.wellFormed g.owned.listed hp.built.kept).holds
      g.wellFormed
      (g.placeable (.inl hb)) (fun _ _ h => h) hc

end Reading

end Session

/-! ### Keeping a document -/

namespace Session

variable (h : s'.documents = (name, doc) :: s.documents.filter fun e => e.1 ≠ name)

include h

/-- When a document is kept, it takes the place of the one that was kept under its name. -/
theorem replaces_iff_of_kept : Replaces b s s' ↔
    ∃ old, s.documents.lookup name = some old ∧ doc ≠ old ∧ s.store.Above old b := by
  have hself : s'.documents.lookup name = some doc := by rw [h, List.lookup_cons_self]
  constructor
  · rintro ⟨z, old, new, hold, hnew, hne, hup⟩
    by_cases hz : z = name
    · subst hz
      obtain rfl := Option.some.inj (hself.symm.trans hnew)
      exact ⟨old, hold, hne, hup⟩
    · rw [h, List.lookup_cons, beq_false_of_ne hz] at hnew
      dsimp only at hnew
      rw [lookup_filter_ne hz, hold] at hnew
      exact absurd (Option.some.inj hnew).symm hne
  · rintro ⟨old, hold, hne, hup⟩
    exact ⟨name, old, doc, hold, hself, hne, hup⟩

theorem Keeps.kept_under (k : s.Keeps (doc :: ds))
    (hentire : ∀ n ∈ ds, s.store.Entire n → s'.store.Entire n)
    (hkind : ∀ n k, s.store.kind? n = some k → s'.store.kind? n = some k) : s'.Keeps ds := by
  refine ⟨k.tail.nodup, fun n hn => hentire n hn (k.tail.entire n hn), fun e he => ?_⟩
  rw [h] at he
  rcases List.mem_cons.mp he with rfl | he
  · exact ⟨hkind doc _ (k.entire doc List.mem_cons_self).1, (List.nodup_cons.mp k.nodup).1⟩
  · obtain ⟨hk, hout⟩ := k.tail.kept e (List.mem_filter.mp he).1
    exact ⟨hkind _ _ hk, hout⟩

end Session

/-- An earlier document makes way. -/
theorem Session.Guards.disposes {old : NodeId} (g : s.Guards id l)
    (hold : s.store.kind? old = some .document) (hstore : s'.store = s.store.dispose old)
    (hdefs : s'.definitions = s.definitions) : s'.Guards id l := by
  have hhas := Store.has_of_kind? hold
  have hw := hstore ▸ (g.wellFormed.tidy g.owned).dispose hhas trivial
  exact g.fewer hw.tidy.wellFormed hw.tidy.owned (hstore ▸ g.labelled.shrink .dispose)
    hw.confined.tag?
    (fun m q hq => g.wellFormed.parent?_of_dispose hhas (hstore ▸ hq)) hdefs

/-- **Keeping a document.** An earlier one under the same name makes way. -/
theorem Language.keepDocument_guards (g : s.Guards id l) (k : s.Keeps (doc :: ds)) :
    (Language.keepDocument name doc).Yields s fun _ s' =>
      s'.Guards id l ∧ s'.Keeps ds ∧ s.Carries s' := by
  refine .bind (.get ?_)
  split
  · rename_i old hold
    obtain ⟨hkind, hout⟩ : s.store.kind? old = some .document ∧ old ∉ doc :: ds :=
      k.kept _ (Language.mem_of_lookup hold)
    have hne : old ≠ doc := fun heq => hout (heq ▸ List.mem_cons_self)
    rw [if_pos hne]
    refine .bind (Work.modifyStore_yields (.modify ?_))
    have hhas := Store.has_of_kind? hkind
    have halone := g.wellFormed.alone_of_document hkind
    have hconfined := ((g.wellFormed.tidy g.owned).dispose hhas trivial).confined
    have hu := g.wellFormed.untouched_dispose g.owned hhas (by rw [hkind]; decide) halone
    refine ⟨g.disposes hkind rfl rfl, Session.Keeps.kept_under (s := s) rfl k
      (fun n hn hentire => hu.entire (fun hup => ?_) hentire) hconfined.kind?, fun b hb => ?_,
      fun b hb => ?_⟩
    · obtain rfl := g.wellFormed.eq_of_above_document hentire.1 hup
      exact hout (List.mem_cons_of_mem doc hn)
    · rw [Session.replaces_iff_of_kept (s := s) rfl] at hb
      refine ⟨hconfined.tag? b, fun _ h => h, fun _ h => h, fun c hdefined _ hc => ?_⟩
      have hplace := g.placeable (.inl hdefined)
      refine hu.holds g.wellFormed hplace (fun m hbm hm => ?_) hc
      -- nothing is above a document, so the definition would be below it
      rcases Store.above_or_above hm hbm with hup | hup
      · exact hb ⟨old, hold, hne.symm, hup⟩
      · exact hplace.kind_ne.1 (g.wellFormed.eq_of_above_document hkind hup ▸ hkind)
    · obtain ⟨old', hold', -, hup⟩ := (Session.replaces_iff_of_kept (s := s) rfl).mp hb
      obtain rfl := Option.some.inj (hold.symm.trans hold')
      exact g.wellFormed.children_dispose hhas halone hup
  · rename_i hnone
    refine .bind (.pure (.modify ?_))
    refine ⟨g.congr rfl rfl, k.kept_under rfl (fun _ _ h => h) fun _ _ h => h,
      fun b _ => .of_eq rfl rfl, fun b hreplaces => ?_⟩
    obtain ⟨old, hold, -⟩ := (Session.replaces_iff_of_kept rfl).mp hreplaces
    rw [hnone] at hold
    cases hold

/-! ### Every state of a build -/

/-- The documents that are parked. -/
def Agenda.docs (a : Agenda) : List NodeId := a.parked.map (·.doc)

namespace Compiler

/-- The document in hand and those that are parked. -/
def Job.docs (job : Job) : List NodeId := job.doc :: job.agenda.docs

/-- What holds in every state of a build. As long as the tree of the document in hand may change,
definitions are apart from what is to be visited in it. While code is generated for it, they may be
part of it, but they are not visited then. -/
inductive Instant.Guarded (id : Int) : Instant → Prop
  | idle {a : Agenda} {s : Session} : s.Guards id a.docs → s.Keeps a.docs → Guarded id (.idle a s)
  | fresh {job : Job} {s : Session} : s.Guards id job.docs → s.Keeps job.docs →
      Guarded id (.working job [.standard .manipulation, .standard .processing] s)
  | changing {job : Job} {w : Walk Session} : w.state.Guards id (w.pending ++ job.agenda.docs) →
      w.state.Keeps job.docs → Guarded id (.walking job .manipulation [.standard .processing] w)
  | changed {job : Job} {s : Session} : s.Guards id job.agenda.docs → s.Keeps job.docs →
      Guarded id (.working job [.standard .processing] s)
  | printing {job : Job} {w : Walk Session} : w.state.Guards id job.agenda.docs →
      w.state.Clears id w.pending → w.state.Keeps job.docs →
      Guarded id (.walking job .processing [] w)
  | printed {job : Job} {s : Session} : s.Guards id job.agenda.docs → s.Keeps job.docs →
      Guarded id (.working job [] s)

variable {config : Config} {c : Compiler} {reg : Registry} {files : Files}
  {steps : Nat} {i i' : Instant}

theorem Instant.Guarded.guards (g : i.Guarded id) : ∃ l, i.session.Guards id l := by
  cases g with
  | idle g _ => exact ⟨_, g⟩
  | fresh g _ => exact ⟨_, g⟩
  | changing g _ => exact ⟨_, g⟩
  | changed g _ => exact ⟨_, g⟩
  | printing g _ _ => exact ⟨_, g⟩
  | printed g _ => exact ⟨_, g⟩

/-- The output is the document in hand. -/
theorem promoteSnippet_entire (h : s.store.Entire doc) :
    (promoteSnippet doc).Yields s fun _ s' => s.Rests s' := by
  refine .bind (Work.store_yields ?_)
  rw [if_pos (by rw [h.2]; rfl)]
  exact .pure .refl

section Ticks

variable [Encoding.Decoders] (hc : withLanguage config = .ok c)

include hc

/-- A round begins. -/
theorem Step.guarded {a : Agenda} {handed : List (Text × NodeId)} {m : Moment}
    (h : c.Step xmlParser ⟨c.dialect, reg⟩ files steps ⟨.idle a, s, handed⟩ m)
    (g : s.Guards id a.docs) (k : s.Keeps a.docs) :
    (m.instant c).Guarded id ∧ s.Carries (m.instant c).session := by
  have hinherit := (parts_of_withLanguage hc).2.2
  have hstages := (Language.parts_of_withLanguage hc).2
  cases h with
  | take hq hcancel hread hreq =>
    obtain ⟨⟨data, hp⟩, hdefs, hdocs⟩ :=
      readTemplate_parsed hinherit g.wellFormed g.owned g.labelled hcancel _ _ hread
    obtain ⟨g', hb⟩ := g.reads hp hdefs
    obtain ⟨-, new, rfl, -⟩ := Agenda.requestLoads_ok hreq
    rw [Moment.instant]
    dsimp only
    rw [hstages]
    exact ⟨.fresh g' (k.reads hp hdocs), .of_documents hdocs hb⟩
  | park hq hcancel hread hreq hwaits =>
    obtain ⟨⟨data, hp⟩, hdefs, hdocs⟩ :=
      readTemplate_parsed hinherit g.wellFormed g.owned g.labelled hcancel _ _ hread
    obtain ⟨g', hb⟩ := g.reads hp hdefs
    obtain ⟨-, new, rfl, -⟩ := Agenda.requestLoads_ok hreq
    exact ⟨.idle g' (k.reads hp hdocs), .of_documents hdocs hb⟩
  | restore hq hcancel hfind hs =>
    rename_i q s'
    obtain ⟨before, after, hparked, hrest, -⟩ := Agenda.parked_of_find? hfind
    have hrests : s.Rests s' := ⟨by rw [hs], by rw [hs], by rw [hs]⟩
    have hperm : (q.doc :: Agenda.docs { a with parked := a.parked.eraseP a.isReady }).Perm
        a.docs := by
      rw [Agenda.docs, Agenda.docs, hrest, hparked, List.map_append, List.map_append, List.map_cons]
      exact List.perm_middle.symm
    rw [Moment.instant]
    dsimp only
    rw [hstages]
    exact ⟨.fresh ((g.rests hrests).1.perm hperm) ((k.rests hrests).perm hperm), hrests.carries⟩

/-- The stages are through. -/
theorem Step.guarded_finish {job : Job} {handed : List (Text × NodeId)} {m : Moment}
    (h : Step { c with stages := [] } xmlParser ⟨c.dialect, reg⟩ files steps
      ⟨.starting job.request job.doc job.extended job.agenda, s, handed⟩ m)
    (g : s.Guards id job.agenda.docs) (k : s.Keeps job.docs) :
    (m.instant c).Guarded id ∧ s.Carries (m.instant c).session := by
  have hhand : ∀ name doc, handOver { c with stages := [] } name doc =
      Language.keepDocument name doc :=
    fun _ _ => show c.handOver _ _ = _ from handOver_eq hc
  obtain ⟨request, doc, extended, a⟩ := job
  cases h with
  | load hl hstages hover =>
    cases hstages
    rw [hhand] at hover
    obtain ⟨g', k', hs'⟩ := Language.keepDocument_guards g k _ _ hover
    exact ⟨.idle g' k', hs'⟩
  | extend hl hext hchain hstages hover =>
    cases hstages
    rw [hhand] at hover
    obtain ⟨g', k', hs'⟩ := Language.keepDocument_guards g k _ _ hover
    exact ⟨.idle g' k', hs'⟩
  | output hl hout hstages hpromote =>
    cases hstages
    have hrests := promoteSnippet_entire (k.entire _ List.mem_cons_self) _ _ hpromote
    exact ⟨.idle (g.rests hrests).1 (k.tail.rests hrests), hrests.carries⟩

/-- **Every tick** preserves what holds, and makes definitions empty only if their document makes
way. -/
theorem Tick.guarded (hr : c.setup = .ok reg)
    (h : c.Tick xmlParser ⟨c.dialect, reg⟩ files steps i i')
    (g : i.Guarded (namespaceIdOf c.dialect)) :
    i'.Guarded (namespaceIdOf c.dialect) ∧ i.session.Carries i'.session := by
  have noted : ∀ (s : Session) (trace : List TraceRecord), s.Rests { s with trace } := fun _ _ =>
    ⟨rfl, rfl, rfl⟩
  cases h with
  | round hstep =>
    cases g with
    | idle g k => exact hstep.guarded hc g k
  | enter =>
    cases g with
    | fresh g k =>
      exact ⟨.changing (g.rests (noted _ _)).1 (k.rests (noted _ _)), (noted _ _).carries⟩
    | changed g k =>
      have hdoc := (k.entire _ List.mem_cons_self).1
      exact ⟨.printing (g.rests (noted _ _)).1 ((g.rests (noted _ _)).1.clears_document hdoc)
        (k.rests (noted _ _)), (noted _ _).carries⟩
  | walk hstep =>
    cases g with
    | changing g k =>
      obtain ⟨g', hs'⟩ := Language.manipulation_guards (Language.fluent_of_setup hc hr) g hstep
      exact ⟨.changing g' (k.spares hs'), hs'.carries⟩
    | printing g hl k =>
      obtain ⟨⟨g', hs'⟩, hl'⟩ :=
        Language.processing_guards (Language.marking_of_setup hc hr) g hl hstep
      exact ⟨.printing g' hl' (k.spares hs'), hs'.carries⟩
  | leave hstep =>
    obtain rfl := Tree.Visitor.eq_of_step_ok hstep
    cases g with
    | changing g k =>
      exact ⟨.changed (g.rests (noted _ _)).1 (k.rests (noted _ _)), (noted _ _).carries⟩
    | printing g hl k =>
      exact ⟨.printed (g.rests (noted _ _)).1 (k.rests (noted _ _)), (noted _ _).carries⟩
  | custom => cases g
  | finish hstep =>
    cases g with
    | printed g k => exact hstep.guarded_finish hc g k

/-! ### A whole build -/

theorem guarded_of_course (hr : c.setup = .ok reg)
    (h : ReflTransGen (c.Tick xmlParser ⟨c.dialect, reg⟩ files steps)
      ((opening name s).instant c) i) :
    i.Guarded (namespaceIdOf c.dialect) := by
  induction h with
  | refl =>
    have hnone : ∀ b, ¬ (opening name s).session.Refers b := by
      rintro b (⟨z, ⟨⟩⟩ | ⟨x, ⟨⟩, -⟩)
    refine .idle ⟨Store.wellFormed_empty, Store.owned_empty, Store.labelled_empty,
      List.nodup_nil, ?_, ?_, ?_, ?_, ?_⟩ ⟨List.nodup_nil, ?_, ?_⟩
    · rintro n ⟨⟩
    · rintro n ⟨⟩
    · rintro a b (⟨⟨⟩⟩ | ha)
      exact absurd ha (hnone a)
    · rintro z b ⟨⟩
    · rintro x f ⟨⟩
    · rintro n ⟨⟩
    · rintro e ⟨⟩
  | tail _ htick ih => exact (htick.guarded hc hr ih).1

/-- A definition is remembered as long as its document does not make way. -/
theorem remembers_of_course (hr : c.setup = .ok reg) (g : i.Guarded (namespaceIdOf c.dialect))
    (h : ReflTransGen (fun j j' => c.Tick xmlParser ⟨c.dialect, reg⟩ files steps j j' ∧
      ¬ Session.Replaces b j.session j'.session) i i') :
    i'.Guarded (namespaceIdOf c.dialect) ∧ Session.Remembers b i.session i'.session := by
  induction h with
  | refl => exact ⟨g, .of_eq rfl rfl⟩
  | tail _ htick ih =>
    obtain ⟨g', hi⟩ := ih
    obtain ⟨g'', hcarries⟩ := htick.1.guarded hc hr g'
    obtain ⟨l, gi⟩ := g.guards
    exact ⟨g'', hi.trans gi.has_of_defined (hcarries.remembers b htick.2)⟩

end Ticks

/-- **Definitions last as long as their documents.** From any state of a build on, until the
document of a definition makes way for another one that is kept under the same name, the definition
stays in the table and holds what it holds, and a use of its name is filled with that if it is the
first one. When its document makes way, it is empty. -/
theorem definitions_last [Encoding.Decoders] (hc : withLanguage config = .ok c)
    (hr : c.setup = .ok reg)
    (hi : ReflTransGen (c.Tick xmlParser ⟨c.dialect, reg⟩ files steps)
      ((opening name s).instant c) i)
    (hcourse : ReflTransGen (fun j j' => c.Tick xmlParser ⟨c.dialect, reg⟩ files steps j j' ∧
      ¬ Session.Replaces b j.session j'.session) i i') (hb : i.session.Defined b) :
    (isNamed i.session.store b (namespaceIdOf c.dialect) ["macro"] → i'.session.Defined b) ∧
      (∀ content, i'.session.Defined b → i.session.store.Holds b content →
        i'.session.store.Holds b content) ∧
      (∀ job stages w n rest use ignore bs content, i' = .walking job .manipulation stages w →
        w.queue = n :: rest → w.state.store.isElement n → use ∉ w.state.definitions.uses →
        w.state.definitions.bodiesOf use = b :: bs → i.session.store.Holds b content →
        (Language.expand n use ignore).Gives w.state fun used t => used = true ∧
          (t.store.children n).Forall₂ t.store.Holds content.inner) ∧
      ∀ i'', c.Tick xmlParser ⟨c.dialect, reg⟩ files steps i' i'' →
        Session.Replaces b i'.session i''.session → i''.session.store.children b = [] := by
  obtain ⟨g', hremembers⟩ := remembers_of_course hc hr (guarded_of_course hc hr hi) hcourse
  refine ⟨fun hnamed => hremembers.stays (Language.qualified_of_isNamed hnamed) hb,
    fun content hb' hcontent => hremembers.holds content hb hb' hcontent,
    fun job stages w n rest use ignore bs content hw hqueue hn huses hbodies hcontent => ?_,
    fun i'' htick => (htick.guarded hc hr g').2.empties b⟩
  subst hw
  have hcontent := hremembers.holds content hb ⟨use, hbodies ▸ List.mem_cons_self⟩ hcontent
  cases g' with
  | changing g _ =>
    rw [Walk.pending, hqueue] at g
    exact (Language.use_expands g hn huses hbodies hcontent).imp fun _ _ ht => ⟨ht.1, ht.2.2⟩

/-- A main template that refers to no other one is taken at once, and its stages begin. -/
theorem opening_ticks {p : Parser} {env : Stage.Environment}
    (hcanceled : (opening name s).session.canceled = false)
    (hread : c.readTemplate p files name name (opening name s).session = (.ok (doc, [], []), s')) :
    ReflTransGen (c.Tick p env files steps) ((opening name s).instant c)
      (.working ⟨⟨name, false, [name]⟩, doc, [],
        { Agenda.start name with queue := [] }⟩ c.stages s') := by
  have hstep : c.Step p env files steps (opening name s)
      ⟨.starting ⟨name, false, [name]⟩ doc [] { Agenda.start name with queue := [] }, s', []⟩ :=
    .take rfl hcanceled hread rfl
  exact hstep.ticks

/-- A template that uses what it defines. -/
def defining : Files where
  entries :=
    [("main", "<d:template xmlns:d=\"http://xml.invenzzia.org/declari\">" ++
        "<d:macro name=\"m\">x</d:macro><d:use macro=\"m\"/></d:template>")]

/-- The definition is in the table when the stages are through, and is still there after the
build. -/
theorem defining_lasts : ∃ c reg i i' b, withLanguage { maxSourceSize := [] } = .ok c ∧
    c.setup = .ok reg ∧
    ReflTransGen (c.Tick xmlParser ⟨c.dialect, reg⟩ defining 20) ((opening "main" {}).instant c) i ∧
    ReflTransGen (fun j j' => c.Tick xmlParser ⟨c.dialect, reg⟩ defining 20 j j' ∧
      ¬ Session.Replaces b j.session j'.session) i i' ∧
    i.session.Defined b ∧ i'.session.Defined b := by
  have hrun : (withLanguage { maxSourceSize := [] }).toOption.any fun c =>
    c.setup.toOption.any fun reg =>
      ((do
        let r ← (c.readTemplate xmlParser defining "main" "main").toProcess
        let doc ← c.runStages ⟨c.dialect, reg⟩ 20 r.1
        let s ← (get : Work Session).toProcess
        let _ ← (promoteSnippet doc).toProcess
        return (r.2, s) : Process Failure Session _) (opening "main" {}).session).any fun o =>
          o.1.toOption.any fun x => x.1 = ([], []) && o.2.documents = [] &&
            (x.2.definitions.bodiesOf "m").any fun b =>
              isNamed x.2.store b (namespaceIdOf c.dialect) ["macro"] := by
    decide +kernel
  obtain ⟨c, hc, hrun⟩ := exists_of_any hrun
  obtain ⟨reg, hr, hrun⟩ := exists_of_any hrun
  obtain ⟨⟨refs, s⟩, s₂, hrun, hfacts⟩ := Process.exists_of_any hrun
  simp only [Bool.and_eq_true, decide_eq_true_eq, List.any_eq_true] at hfacts
  obtain ⟨⟨rfl, hdocs⟩, b, hb, hnamed⟩ := hfacts
  -- the parts of the build
  obtain ⟨⟨doc₀, refs⟩, s₀, hread, hrun⟩ := Process.exists_of_bind_ok hrun
  obtain ⟨doc, s₁, hstages, hrun⟩ := Process.exists_of_bind_ok hrun
  obtain ⟨t, s₁', hget, hrun⟩ := Process.exists_of_bind_ok hrun
  cases hget
  obtain ⟨out, t₂, hpromote, hrun⟩ := Process.exists_of_bind_ok hrun
  obtain ⟨hs, rfl⟩ := Prod.mk.inj (Option.some.inj hrun)
  obtain ⟨rfl, rfl⟩ := Prod.mk.inj (Except.ok.inj hs)
  obtain ⟨a, ha⟩ : ∃ a, a = { Agenda.start "main" with queue := [] } := ⟨_, rfl⟩
  have htake : ReflTransGen (c.Tick xmlParser ⟨c.dialect, reg⟩ defining 20)
      ((opening "main" {}).instant c)
      (.working ⟨⟨"main", false, ["main"]⟩, doc₀, [], a⟩ c.stages s₀) := by
    rw [ha]
    exact opening_ticks rfl (Option.some.inj hread)
  have hfinish : Step { c with stages := [] } xmlParser ⟨c.dialect, reg⟩ defining 20
      ⟨.starting ⟨"main", false, ["main"]⟩ doc [] a, s₁, []⟩
      ⟨.idle { a with finished := "main" :: a.finished, output := some out }, t₂, []⟩ :=
    .output rfl (by rw [ha]; rfl) rfl (Option.some.inj hpromote)
  have hi : ReflTransGen (c.Tick xmlParser ⟨c.dialect, reg⟩ defining 20) _ _ :=
    htake.trans (stages_ticks hstages)
  have hlast : ¬ Session.Replaces b s₁ t₂ := by
    rintro ⟨z, old, new, -, hnew, -⟩
    rw [hdocs] at hnew
    cases hnew
  refine ⟨c, reg, _, _, b, hc, hr, hi, .single ⟨.finish hfinish, hlast⟩, ⟨_, hb⟩, ?_⟩
  exact (definitions_last hc hr hi (.single ⟨.finish hfinish, hlast⟩) ⟨_, hb⟩).1 hnamed

end Compiler

end Stencil
