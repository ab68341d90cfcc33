import Stencil.Proofs.Build.Order
import Stencil.Proofs.Build.Reading
import Stencil.Proofs.Language.Stages

/-!
# What a build has at hand

Between the rounds of a build, parked templates keep their trees, and everything else is free to be
worked on. Two facts about these parts are what a build rests on. Where work may be done, nothing is
loaded that is not finished. In the tree of a parked template something may be, but then the
template waits for it. Finished templates, except for the output, were handed over and are kept.

The stages move, copy and dispose of whatever they find where work may be done. They never touch a
parked tree, because nothing that is free refers to one, and they never make up the name of a
template. So both facts survive whatever the stages do.

## Main definitions

* `Agenda.Free` – the nodes that are not below a parked document
* `Provided` – what holds between the rounds, and when the stages start

## Main results

* `Provided.take`, `Provided.park`, `Provided.restore` – templates are read, parked and taken up
  again
* `Provided.handOver` – a template is finished and handed over
-/

namespace Stencil

open Stencil.Tree (NodeId Store)
open Stencil.Tree.Store (Tidy Within Built)
open Stencil.Language (loadName? isNamed namespaceIdOf Descends)

variable {d : Dialect} {a a' : Agenda} {s s' : Session} {t t' : Store} {doc n p e : NodeId}
  {r : Request} {hand hand' : List Request} {handed : List (Text × NodeId)} {name : Text}
  {loads waits : List Text}

/-! ### Trees that are kept -/

/-- What is below a node that was there before is what was below it. -/
theorem Tree.Store.Built.above_iff (h : Built t t') (hp : t.Has p) :
    t'.Above p n ↔ t.Above p n := by
  have hlinks : ∀ m, t.Has m → t'.links m = t.links m := fun m hm => by
    rw [links, h.kept m hm, links]
  have hchildren : ∀ m, t.Has m → t'.children m = t.children m := fun m hm =>
    h.base.children_congr (fun _ => h.has) (hlinks m hm) fun c hc =>
      hlinks c (has_of_parent? (h.base.mem_children.mp hc))
  constructor
  · rintro ⟨k, hk⟩
    induction k generalizing n with
    | zero => exact ⟨0, hk⟩
    | succ k ih =>
      obtain ⟨q, hq, hk⟩ := Option.bind_eq_some_iff.mp hk
      have hup := ih hk
      have hhas : t.Has q := by
        rcases Store.above_iff.mp hup with rfl | ⟨q', hq', -⟩
        · exact hp
        · exact has_of_parent? hq'
      have hchild : t.parent? n = some q := by
        rw [← h.base.mem_children, ← hchildren q hhas]
        exact h.wellFormed.mem_children.mpr hq
      exact hup.trans (.of_parent? hchild)
  · intro hup
    have hhas : t.Has n := by
      rcases Store.above_iff.mp hup with rfl | ⟨q, hq, -⟩
      · exact hp
      · exact has_of_parent? hq
    exact (Store.above_kept h.base (fun m hm => by rw [parent?, hlinks m hm, parent?]) hhas).mpr hup

namespace Agenda

/-- The nodes that are not below a parked document. -/
def Free (a : Agenda) (t : Store) (n : NodeId) : Prop := ∀ q ∈ a.parked, ¬ t.Above q.doc n

theorem free_congr (hp : a'.parked = a.parked)
    (h : ∀ q ∈ a.parked, ∀ n, t'.Above q.doc n ↔ t.Above q.doc n) : a'.Free t' = a.Free t := by
  funext n
  simp only [Free, hp, eq_iff_iff]
  exact forall₂_congr fun q hq => not_congr (h q hq n)

/-- Parked documents are there, and nothing is above them. -/
def Standing (a : Agenda) (t : Store) : Prop :=
  ∀ q ∈ a.parked, t.Has q.doc ∧ t.parent? q.doc = none

theorem Standing.tidy (h : a.Standing t) (hw : t.WellFormed) (ho : t.Owned) :
    Tidy (a.Free t) none t where
  wellFormed := hw
  owned := ho
  fresh n hn q hq hup := by
    rcases Store.above_iff.mp hup with rfl | ⟨p, hp, -⟩
    · exact hn (h q hq).1
    · exact hn (Store.has_of_parent? hp)
  down n p hp hR q hq hup := by
    rcases Store.above_iff.mp hup with rfl | ⟨p', hp', hup⟩
    · rw [(h q hq).2] at hp
      cases hp
    · rw [hp] at hp'
      obtain rfl := Option.some.inj hp'
      exact hR q hq hup
  up n p hp hR := .inl fun q hq hup => hR q hq (hup.trans (.of_parent? hp))

end Agenda

/-- What holds of a build between its rounds, and when the stages start on the request in hand. -/
structure Provided (d : Dialect) (hand : List Request) (a : Agenda) (s : Session)
    (handed : List (Text × NodeId)) : Prop where
  ordered : ∃ m, a.Ordered hand m
  standing : a.Standing s.store
  distinct : (a.parked.map (·.doc)).Nodup
  /-- What the session refers to can be worked on. -/
  inside : s.Inside (a.Free s.store)
  /-- A parked template waits for what it loads, unless that is finished. -/
  awaited (q : Parked) (e : NodeId) : q ∈ a.parked → s.store.Above q.doc e →
    isNamed s.store e (namespaceIdOf d) ["load"] →
      ∃ z, loadName? d s.store e = some z ∧ (z ∈ a.finished ∨ z ∈ q.waits)
  /-- What is loaded elsewhere is finished. -/
  stocked (e : NodeId) (z : Text) : a.Free s.store e →
    loadName? d s.store e = some z → z ∈ a.finished
  /-- What is finished was handed over and is kept. -/
  kept (z : Text) : z ∈ a.finished → ∃ doc, (z, doc) ∈ handed ∧ s.documents.lookup z = some doc

/-- The stages can start on a document: it can be worked on, and it is known what it loads. -/
structure Startable (d : Dialect) (r : Request) (doc : NodeId) (a : Agenda) (s : Session)
    (handed : List (Text × NodeId)) : Prop where
  provided : Provided d [r] a s handed
  holds : s.Holds (a.Free s.store) doc
  named (e : NodeId) : s.store.Above doc e → isNamed s.store e (namespaceIdOf d) ["load"] →
    ∃ z, loadName? d s.store e = some z

/-! ### Keeping documents -/

theorem lookup_filter_ne {l : List (Text × NodeId)} {z : Text} (h : z ≠ name) :
    (l.filter fun e => e.1 ≠ name).lookup z = l.lookup z := by
  induction l with
  | nil => rfl
  | cons e l ih =>
    by_cases he : e.1 = name
    · have hz : (z == e.1) = false := beq_false_of_ne (he ▸ h)
      rw [List.filter_cons_of_neg (by simp [he]), ih, List.lookup_cons, hz]
    · rw [List.filter_cons_of_pos (by simp [he]), List.lookup_cons, List.lookup_cons, ih]

theorem Language.keepDocument_yields (d : Dialect) {R : NodeId → Prop} (h : s.Inside R)
    (hdoc : s.Holds R doc) :
    (Language.keepDocument name doc).Yields s fun _ s' => s'.Inside R ∧
      Descends d R s.store s'.store ∧
      s'.documents = (name, doc) :: s.documents.filter fun e => e.1 ≠ name := by
  -- what is left of an earlier one does not matter
  have keep : ∀ s₁ : Session, s.Works d R s₁ →
      (modify fun s => { s with
        documents := (name, doc) :: s.documents.filter fun e => e.1 ≠ name } : Work Unit).Yields s₁
        fun _ s' => s'.Inside R ∧ Descends d R s.store s'.store ∧
          s'.documents = (name, doc) :: s.documents.filter fun e => e.1 ≠ name := by
    intro s₁ hw
    refine .modify ⟨⟨hw.inside.tidy, hw.inside.labelled, hw.inside.bodies, hw.inside.fallbacks,
      fun entry he => ?_⟩, hw.descends, by rw [hw.documents]⟩
    rcases List.mem_cons.mp he with rfl | he
    · exact hw.holds hdoc
    · exact hw.inside.documents entry (List.mem_filter.mp he).1
  refine .bind (.get ?_)
  split
  · rename_i old hold
    split
    · obtain ⟨hR, hhas⟩ := h.documents _ (Language.mem_of_lookup hold)
      exact .bind (Work.modifyStore_yields (keep _ (.of_descends h
        (.dispose h.tidy h.labelled hhas hR) rfl rfl)))
    · exact .bind (.pure (keep _ (.refl h)))
  · exact .bind (.pure (keep _ (.refl h)))

theorem Language.keepDocument_fails {F : Failure → Prop} :
    (Language.keepDocument name doc).FailsOnly F s := by
  refine .bind .get fun _ _ _ => ?_
  split
  · split
    · exact .bind Work.modifyStore_fails fun _ _ _ => .modify
    · exact .bind .pure fun _ _ _ => .modify
  · exact .bind .pure fun _ _ _ => .modify

namespace Provided

theorem ready (h : Provided d hand a s handed) : s.Ready d (a.Free s.store) := by
  refine ⟨h.inside, fun e z he hz => ?_⟩
  obtain ⟨doc, -, hdoc⟩ := h.kept z (h.stocked e z he hz)
  rw [hdoc]
  rfl

/-! ### Reading -/

theorem isNamed_brings (hb : s.Brings d s' doc loads) (hn : s.store.Has n) {names : List Text} :
    isNamed s'.store n (namespaceIdOf d) names = isNamed s.store n (namespaceIdOf d) names := by
  refine Language.isNamed_congr ?_
  rw [Store.tag?, Store.payload?_congr (hb.built.kept n hn), Store.tag?]

section Reading

variable (h : Provided d hand a s handed) (hb : s.Brings d s' doc loads)

include h hb

theorem above_brings {q : Parked} (hq : q ∈ a.parked) :
    s'.store.Above q.doc n ↔ s.store.Above q.doc n :=
  hb.built.above_iff (h.standing q hq).1

theorem loadName?_brings (hn : s.store.Has n) :
    loadName? d s'.store n = loadName? d s.store n := by
  refine Language.loadName?_of_payload? h.inside.labelled hb.built.labelled
    (Store.payload?_congr (hb.built.kept n hn)) fun x hx =>
      Store.payload?_congr (hb.built.kept x ?_)
  exact Store.has_of_kind? (h.inside.tidy.owned.kind n x hx)

/-- The fresh document is apart from those that are parked. -/
theorem free_brings : a.Free s'.store doc := by
  intro q hq hup
  rw [h.above_brings hb hq] at hup
  rcases Store.above_iff.mp hup with rfl | ⟨p, hp, -⟩
  · exact hb.new (h.standing q hq).1
  · exact hb.new (Store.has_of_parent? hp)

theorem standing_brings : a.Standing s'.store := fun q hq => by
  obtain ⟨hhas, halone⟩ := h.standing q hq
  refine ⟨hb.built.has hhas, ?_⟩
  rw [Store.parent?, Store.links, hb.built.kept _ hhas]
  exact halone

theorem free_eq_brings : a.Free s'.store = a.Free s.store :=
  Agenda.free_congr rfl fun _ hq _ => h.above_brings hb hq

theorem inside_brings : s'.Inside (a.Free s'.store) := by
  have hkeep : ∀ {n}, s.Holds (a.Free s.store) n → s'.Holds (a.Free s'.store) n := fun hn =>
    ⟨h.free_eq_brings hb ▸ hn.1, hb.built.has hn.2⟩
  exact ⟨(h.standing_brings hb).tidy hb.built.wellFormed hb.built.owned, hb.built.labelled,
    fun z b hz => hkeep (h.inside.bodies z b (hb.definitions ▸ hz)),
    fun x f hx hf => hkeep (h.inside.fallbacks x f (hb.definitions ▸ hx) hf),
    fun entry he => hkeep (h.inside.documents entry (hb.documents ▸ he))⟩

/-- What parked templates load is what it was. -/
theorem awaited_brings {q : Parked} (hq : q ∈ a.parked) (hup : s'.store.Above q.doc e)
    (he : isNamed s'.store e (namespaceIdOf d) ["load"]) :
    ∃ z, loadName? d s'.store e = some z ∧ (z ∈ a.finished ∨ z ∈ q.waits) := by
  rw [h.above_brings hb hq] at hup
  have hhas : s.store.Has e := by
    rcases Store.above_iff.mp hup with rfl | ⟨p, hp, -⟩
    · exact (h.standing q hq).1
    · exact Store.has_of_parent? hp
  rw [isNamed_brings hb hhas] at he
  rw [h.loadName?_brings hb hhas]
  exact h.awaited q e hq hup he

end Reading

/-- What is loaded by what was there before is finished. -/
theorem stocked_brings (h : Provided d hand a s handed) (hb : s.Brings d s' doc loads)
    (hhas : s.store.Has e) (he : a.Free s'.store e) {z : Text}
    (hz : loadName? d s'.store e = some z) : z ∈ a.finished := by
  rw [h.free_eq_brings hb] at he
  rw [h.loadName?_brings hb hhas] at hz
  exact h.stocked e z he hz

/-- A template is read that has nothing to wait for. -/
theorem take {queue : List Request} (h : Provided d [] a s handed) (hq : a.queue = r :: queue)
    (hb : s.Brings d s' doc loads)
    (hreq : Agenda.requestLoads r loads { a with queue } = .ok ([], a')) :
    Startable d r doc a' s' handed := by
  obtain ⟨rfl, hloads⟩ := Agenda.eq_of_requestLoads_nil hreq
  obtain ⟨m, hm⟩ := h.ordered
  refine ⟨⟨⟨m, hm.take hq⟩, h.standing_brings hb, h.distinct, h.inside_brings hb,
    fun q e hq hup he => h.awaited_brings hb hq hup he, fun e z he hz => ?_, fun z hz => ?_⟩,
    ⟨h.free_brings hb, hb.has⟩, fun e hup he => ?_⟩
  · by_cases hhas : s.store.Has e
    · exact h.stocked_brings hb hhas he hz
    · obtain ⟨u, hu, hname⟩ := hb.named e (hb.elements e hhas (Language.isElement_of_loadName? hz))
        (Language.isNamed_of_loadName? hz)
      rw [hname] at hz
      obtain rfl := Option.some.inj hz
      exact hloads u hu
  · rw [hb.documents]
    exact h.kept z hz
  · obtain ⟨u, -, hname⟩ := hb.named e hup he
    exact ⟨u, hname⟩

/-- A template is read and parked. -/
theorem park {queue : List Request} (h : Provided d [] a s handed) (hq : a.queue = r :: queue)
    (hb : s.Brings d s' doc loads) (extended : Text)
    (hreq : Agenda.requestLoads r loads { a with queue } = .ok (waits, a')) :
    Provided d [] { a' with parked := ⟨r, doc, extended, waits⟩ :: a'.parked } s' handed := by
  obtain ⟨m, hm⟩ := h.ordered
  have hordered := (hm.take hq).park hreq doc extended
  obtain ⟨hwaits, new, rfl, -⟩ := Agenda.requestLoads_ok hreq
  generalize ha' : ({ a with
    queue := queue ++ new, scheduled := (new.map (·.name)).reverse ++ a.scheduled
    parked := ⟨r, doc, extended, waits⟩ :: a.parked } : Agenda) = a' at hordered ⊢
  have hparked : a'.parked = ⟨r, doc, extended, waits⟩ :: a.parked := by rw [← ha']
  have hfinished : a'.finished = a.finished := by rw [← ha']
  have hstanding : a'.Standing s'.store := by
    rw [Agenda.Standing, hparked]
    rintro q (_ | ⟨_, hq⟩)
    · exact ⟨hb.has, hb.alone⟩
    · exact h.standing_brings hb q hq
  -- what was there before is not below the fresh document
  have hfree : ∀ {n}, s.store.Has n → a.Free s'.store n → a'.Free s'.store n := by
    intro n hn hfree
    rw [Agenda.Free, hparked]
    rintro q (_ | ⟨_, hq⟩)
    · exact Store.not_above_new h.inside.tidy.wellFormed (fun m hm => by
        rw [Store.parent?, Store.links, hb.built.kept m hm, ← Store.links, ← Store.parent?])
          hn hb.new
    · exact hfree q hq
  have hin := h.inside_brings hb
  have hkeep : ∀ {n}, s.Holds (a.Free s.store) n → s'.Holds (a'.Free s'.store) n := fun hn =>
    ⟨hfree hn.2 (h.free_eq_brings hb ▸ hn.1), hb.built.has hn.2⟩
  refine ⟨⟨m, hordered⟩, hstanding, ?_, ⟨hstanding.tidy hb.built.wellFormed hb.built.owned,
    hb.built.labelled, fun z b hz => hkeep (h.inside.bodies z b (hb.definitions ▸ hz)),
    fun x f hx hf => hkeep (h.inside.fallbacks x f (hb.definitions ▸ hx) hf),
    fun entry he => hkeep (h.inside.documents entry (hb.documents ▸ he))⟩, ?_, ?_, ?_⟩
  · rw [hparked, List.map_cons, List.nodup_cons]
    refine ⟨fun hmem => ?_, h.distinct⟩
    obtain ⟨q, hq, hdoc : q.doc = doc⟩ := List.mem_map.mp hmem
    exact hb.new (hdoc ▸ (h.standing q hq).1)
  · rw [hparked, hfinished]
    rintro q e (_ | ⟨_, hq⟩) hup he
    · obtain ⟨z, hz, hname⟩ := hb.named e hup he
      refine ⟨z, hname, ?_⟩
      by_cases hfin : z ∈ a.finished
      · exact .inl hfin
      · exact .inr (by rw [hwaits]; simpa [hfin] using hz)
    · exact h.awaited_brings hb hq hup he
  · rw [hfinished]
    intro e z he hz
    by_cases hhas : s.store.Has e
    · exact h.stocked_brings hb hhas (fun q hq => he q (hparked ▸ List.mem_cons_of_mem _ hq)) hz
    · exact absurd (hb.elements e hhas (Language.isElement_of_loadName? hz))
        (he ⟨r, doc, extended, waits⟩ (hparked ▸ List.mem_cons_self))
  · rw [hfinished, hb.documents]
    exact h.kept

/-! ### Taking up -/

/-- A parked template is taken up again. -/
theorem restore {q : Parked} (h : Provided d [] a s handed)
    (hfind : a.parked.find? a.isReady = some q)
    (hs : s' = { s with current := s'.current, trace := s'.trace }) :
    Startable d q.request q.doc { a with parked := a.parked.eraseP a.isReady } s' handed := by
  obtain ⟨before, after, hparked, hrest, hfinished⟩ := Agenda.parked_of_find? hfind
  have hmem : q ∈ a.parked := by simp [hparked]
  have hsub : ∀ b ∈ before ++ after, b ∈ a.parked := by
    intro b hb
    rw [hparked]
    rcases List.mem_append.mp hb with hb | hb
    · exact List.mem_append_left _ hb
    · exact List.mem_append_right _ (List.mem_cons_of_mem _ hb)
  have hdistinct := h.distinct
  rw [hparked, List.map_append, List.map_cons, List.nodup_middle, ← List.map_append,
    List.nodup_cons] at hdistinct
  obtain ⟨hother, hdistinct⟩ := hdistinct
  obtain ⟨m, hm⟩ := h.ordered
  have hstore : s'.store = s.store := by rw [hs]
  have hdefs : s'.definitions = s.definitions := by rw [hs]
  have hdocs : s'.documents = s.documents := by rw [hs]
  rw [hrest]
  have hfree : ∀ {n}, a.Free s.store n →
      Agenda.Free { a with parked := before ++ after } s'.store n :=
    fun hn b hb => hstore ▸ hn b (hsub b hb)
  have hstanding : Agenda.Standing { a with parked := before ++ after } s'.store :=
    fun b hb => hstore ▸ h.standing b (hsub b hb)
  have hkeep : ∀ {n}, s.Holds (a.Free s.store) n →
      s'.Holds (Agenda.Free { a with parked := before ++ after } s'.store) n := fun hn =>
    ⟨hfree hn.1, hstore ▸ hn.2⟩
  refine ⟨⟨⟨m, hm.unpark hparked hfinished⟩, hstanding, hdistinct,
    ⟨hstanding.tidy (hstore ▸ h.inside.tidy.wellFormed) (hstore ▸ h.inside.tidy.owned),
      hstore ▸ h.inside.labelled, fun z b hz => hkeep (h.inside.bodies z b (hdefs ▸ hz)),
      fun x f hx hf => hkeep (h.inside.fallbacks x f (hdefs ▸ hx) hf),
      fun entry he => hkeep (h.inside.documents entry (hdocs ▸ he))⟩,
    fun b e hb hup he => ?_, fun e z he hz => ?_, fun z hz => ?_⟩, ⟨fun b hb hup => ?_, ?_⟩,
    fun e hup he => ?_⟩
  · rw [hstore] at hup he ⊢
    exact h.awaited b e (hsub b hb) hup he
  · rw [hstore] at hz
    by_cases hup : s.store.Above q.doc e
    · -- the template has waited for it
      obtain ⟨u, hname, hu⟩ := h.awaited q e hmem hup (Language.isNamed_of_loadName? hz)
      rw [hz] at hname
      obtain rfl := Option.some.inj hname
      exact hu.elim id (hfinished z)
    · refine h.stocked e z (fun b hb => ?_) hz
      rw [hparked, List.mem_append, List.mem_cons] at hb
      rcases hb with hb | rfl | hb
      · exact hstore ▸ he b (List.mem_append_left _ hb)
      · exact hup
      · exact hstore ▸ he b (List.mem_append_right _ hb)
  · rw [hdocs]
    exact h.kept z hz
  · rw [hstore] at hup
    rcases Store.above_iff.mp hup with heq | ⟨p, hp, -⟩
    · exact hother (List.mem_map.mpr ⟨b, hb, heq⟩)
    · rw [(h.standing q hmem).2] at hp
      cases hp
  · rw [hstore]
    exact (h.standing q hmem).1
  · rw [hstore] at hup he ⊢
    obtain ⟨z, hz, -⟩ := h.awaited q e hmem hup he
    exact ⟨z, hz⟩

/-! ### Finishing -/

/-- After the stages a document is handed over. -/
theorem handOver {s₁ : Session} (h : Provided d hand a s handed)
    (hw : s.Works d (a.Free s.store) s₁) (hdoc : s₁.Holds (a.Free s.store) doc)
    (hkeep : Language.keepDocument name doc s₁ = (.ok (), s')) (hparked : a'.parked = a.parked)
    (hfinished : a'.finished = name :: a.finished) (hordered : ∃ m, a'.Ordered hand' m) :
    Provided d hand' a' s' ((name, doc) :: handed) := by
  obtain ⟨hin, hd, hdocs⟩ := Language.keepDocument_yields d hw.inside hdoc _ _ hkeep
  have hd := hw.descends.trans hd
  have hnot : ∀ {q n}, q ∈ a.parked → s.store.Above q.doc n → ¬ a.Free s.store n :=
    fun hq hup hfree => hfree _ hq hup
  have hup : ∀ {q n}, q ∈ a.parked → (s'.store.Above q.doc n ↔ s.store.Above q.doc n) := fun hq =>
    hd.within.above_iff h.inside.tidy (hnot hq (.refl _)) nofun
  have hfree : a'.Free s'.store = a.Free s.store := Agenda.free_congr hparked fun q hq n => hup hq
  refine ⟨hordered, fun q hq => ?_, hparked ▸ h.distinct, hfree ▸ hin, fun q e hq hup' he => ?_,
    fun e z he hz => ?_, fun z hz => ?_⟩
  · rw [hparked] at hq
    obtain ⟨hhas, halone⟩ := h.standing q hq
    refine ⟨hd.within.confined.has hhas, ?_⟩
    rw [hd.within.confined.parent? _ (hnot hq (.refl _)), halone]
  · rw [hparked] at hq
    rw [hup hq] at hup'
    have hhas : s.store.Has e := by
      rcases Store.above_iff.mp hup' with rfl | ⟨p, hp, -⟩
      · exact (h.standing q hq).1
      · exact Store.has_of_parent? hp
    rw [Language.isNamed_kept hhas (hd.within.confined.tag? e)] at he
    rw [hd.outside e (hnot hq hup'), hfinished]
    obtain ⟨z, hz, hor⟩ := h.awaited q e hq hup' he
    exact ⟨z, hz, hor.imp_left (List.mem_cons_of_mem _)⟩
  · rw [hfree] at he
    obtain ⟨e', he', hz'⟩ := hd.inside e z he hz
    rw [hfinished]
    exact List.mem_cons_of_mem _ (h.stocked e' z he' hz')
  · rw [hdocs, List.lookup_cons]
    by_cases hzn : z = name
    · exact ⟨doc, by simp [hzn], by simp [hzn]⟩
    · rw [hfinished] at hz
      obtain ⟨doc', hmem, hlookup⟩ := h.kept z ((List.mem_cons.mp hz).resolve_left hzn)
      refine ⟨doc', List.mem_cons_of_mem _ hmem, ?_⟩
      rw [beq_false_of_ne hzn, lookup_filter_ne hzn, hw.documents]
      exact hlookup

end Provided

end Stencil
