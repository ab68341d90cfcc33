import Stencil.Proofs.Build.Course
import Stencil.Proofs.Build.Provision

/-!
# Includes come first

If the root elements of all templates can refer to other templates, then what a template loads is
available whenever the stages start to run on it: it went through the stages before, was handed
over, and is still kept under its name. This holds of every `load` in the document, wherever it will
be moved to, and for every order in which templates are read, parked and taken up again. It follows
that no build fails because a template was not loaded, neither for a `load` in the template nor for
one that comes from a definition, from default content or from an extended template.

The assumption on the root elements cannot be dropped: nobody looks for the elements that load
something below another root element.

## Main results

* `Compiler.loads_come_first` – both facts
-/

namespace Stencil

open Relation (ReflTransGen)
open Stencil.Tree (NodeId Store)
open Stencil.Language (loadName? isNamed namespaceIdOf)

variable {d : Dialect} {config : Config} {c : Compiler} {reg : Registry}
  {files : Files} {steps : Nat}
  {name : Text} {s s' : Session} {a a' : Agenda} {r : Request} {doc : NodeId} {extended : Text}
  {handed : List (Text × NodeId)}

/-- What holds at every moment of a build. Once there is an output, nothing is left to be done. -/
def Compiler.Moment.Fits (d : Dialect) (m : Compiler.Moment) : Prop :=
  match m.point with
  | .idle a => Provided d [] a m.session m.handed ∨ a.queue = [] ∧ a.parked = []
  | .starting r doc _ a => Startable d r doc a m.session m.handed

section Blame

variable {F : Failure → Prop} [Failure.Broad F]

theorem promoteSnippet_fails : (Compiler.promoteSnippet doc).FailsOnly F s := by
  refine .bind Work.store_fails fun _ _ _ => ?_
  split
  · exact .pure
  · split
    · exact Work.fail_fails rfl
    · exact .bind Work.fresh_fails fun _ _ _ => .bind Work.tree_fails fun _ _ _ =>
        .bind Work.modifyStore_fails fun _ _ _ => .pure

theorem xmlLinker_ends : (xmlLinker.link doc).Ends F s fun _ _ => True := by
  refine ⟨fun _ _ _ => trivial, fun f s' h => ?_⟩
  rw [xmlLinker] at h
  dsimp only at h
  split at h
  · cases h
  · cases h
    exact Failure.broad_ofTree _
  · cases h

end Blame

theorem Agenda.deadlock_spares : a.deadlock.Spares := by
  rw [Agenda.deadlock]
  cases a.parked with
  | nil =>
    intro z hz
    cases hz
  | cons p parked =>
    intro z hz
    cases hz

namespace Compiler

theorem handOver_eq [Encoding.Decoders] (hc : withLanguage config = .ok c) :
    c.handOver name doc = Language.keepDocument name doc := by
  rw [handOver, (parts_of_withLanguage hc).2.2]
  rfl

/-! ### One step -/

/-- Every step preserves what holds. -/
theorem Step.fits [Encoding.Decoders] (hc : withLanguage config = .ok c) (hr : c.setup = .ok reg)
    (hfiles : c.Referring files) {m m' : Moment} (hm : m.Fits c.dialect)
    (hstep : c.Step xmlParser ⟨c.dialect, reg⟩ files steps m m') : m'.Fits c.dialect := by
  have hinherit := (parts_of_withLanguage hc).2.2
  cases hstep with
  | take hq hcancel hread hreq =>
    rcases hm with h | ⟨hnil, -⟩
    · exact h.take hq (readTemplate_yields hinherit hfiles h.inside.tidy.wellFormed
        h.inside.tidy.owned h.inside.labelled hcancel _ _ hread) hreq
    · rw [hq] at hnil
      cases hnil
  | park hq hcancel hread hreq hwaits =>
    rcases hm with h | ⟨hnil, -⟩
    · exact .inl (h.park hq (readTemplate_yields hinherit hfiles h.inside.tidy.wellFormed
        h.inside.tidy.owned h.inside.labelled hcancel _ _ hread) _ hreq)
    · rw [hq] at hnil
      cases hnil
  | restore hq hcancel hfind hs =>
    rcases hm with h | ⟨-, hnil⟩
    · exact h.restore hfind (by rw [hs])
    · rw [hnil] at hfind
      cases hfind
  | load hl hstages hhand =>
    have hm : Startable c.dialect _ _ _ _ _ := hm
    obtain ⟨m, hordered⟩ := hm.provided.ordered
    obtain ⟨rfl, hw⟩ := (Language.runStages_ends hc hr hm.provided.ready hm.holds).ok _ _ hstages
    rw [handOver_eq hc] at hhand
    exact .inl (hm.provided.handOver hw (hw.holds hm.holds) hhand rfl rfl
      ⟨m, hordered.finishLoaded hl⟩)
  | extend hl hext hchain hstages hhand =>
    have hm : Startable c.dialect _ _ _ _ _ := hm
    obtain ⟨m, hordered⟩ := hm.provided.ordered
    obtain ⟨rfl, hw⟩ := (Language.runStages_ends hc hr hm.provided.ready hm.holds).ok _ _ hstages
    rw [handOver_eq hc] at hhand
    obtain rfl := hordered.eq_of_extending hl
    exact .inl (hm.provided.handOver hw (hw.holds hm.holds) hhand rfl rfl
      ⟨_, hordered.finishExtending _⟩)
  | output hl hout hstages hpromote =>
    have hm : Startable c.dialect _ _ _ _ _ := hm
    obtain ⟨m, hordered⟩ := hm.provided.ordered
    obtain rfl := hordered.eq_of_extending hl
    exact .inr hordered.alone

/-! ### Failures -/

theorem handOver_ends [Encoding.Decoders] {F : Failure → Prop} (hc : withLanguage config = .ok c) :
    (c.handOver name doc).toProcess.Ends F s fun _ _ => True := by
  rw [handOver_eq hc]
  exact .toProcess (fun _ _ _ => trivial) Language.keepDocument_fails

/-- Finishing a template blames nobody for not being loaded. -/
theorem finish_ends [Encoding.Decoders] (hc : withLanguage config = .ok c) (hr : c.setup = .ok reg)
    (h : Startable c.dialect r doc a s handed) :
    (c.finish ⟨c.dialect, reg⟩ steps r doc extended a).Ends Failure.Spares s fun _ _ => True := by
  refine .bind ((Language.runStages_ends hc hr h.provided.ready h.holds).imp fun doc' s₁ _ => ?_)
  dsimp only
  split
  · exact .bind ((handOver_ends hc).imp fun _ _ _ => .pure trivial)
  split
  · split
    · exact .bind (.throw nofun)
    · exact .bind ((handOver_ends hc).imp fun _ _ _ => .pure trivial)
  split
  · exact .throw nofun
  · exact .bind ((Process.Ends.toProcess (fun _ _ _ => trivial) promoteSnippet_fails).imp
      fun _ _ _ => .pure trivial)

/-- No moment is one at which a build ends because a template was not loaded. -/
theorem Stops.spares [Encoding.Decoders] (hc : withLanguage config = .ok c)
    (hr : c.setup = .ok reg) {m : Moment}
    (hm : m.Fits c.dialect) {f : Failure}
    (h : c.Stops xmlParser ⟨c.dialect, reg⟩ files steps m (.error f) s') : f.Spares := by
  cases h with
  | noOutput => exact nofun
  | canceled hcheck => exact Work.checkCanceled_fails _ _ hcheck
  | unread _ _ hread => exact readTemplate_fails (parts_of_withLanguage hc).2.2 _ _ hread
  | refused _ _ _ hreq =>
    obtain ⟨u, -, -, rfl⟩ := Agenda.requestLoads_error hreq
    exact nofun
  | deadlock => exact Agenda.deadlock_spares
  | unfinished h => exact (finish_ends hc hr hm).error _ _ h

/-! ### A whole build -/

/-- The moment at which the build of a template begins. -/
def opening (name : Text) (s : Session) : Moment where
  point := .idle (.start name)
  session := { s.idle with trace := .start "build" :: s.trace, running := true, current := name }
  handed := []

theorem opening_fits : (opening name s).Fits d := by
  have hempty : ∀ n, ¬ Store.Has {} n := fun n hn => absurd hn (Nat.not_lt_zero n)
  have hstanding : (Agenda.start name).Standing {} := by
    intro q hq
    cases hq
  refine .inl ⟨⟨_, Agenda.ordered_start name⟩, hstanding, List.nodup_nil,
    ⟨hstanding.tidy Store.wellFormed_empty Store.owned_empty, Store.labelled_empty, ?_, ?_, ?_⟩,
    ?_, ?_, ?_⟩
  · rintro z b ⟨⟩
  · rintro x f ⟨⟩
  · rintro entry ⟨⟩
  · rintro q e ⟨⟩
  · intro e z _ hz
    exact absurd (Store.has_of_isElement (Language.isElement_of_loadName? hz)) (hempty e)
  · rintro z ⟨⟩

theorem fits_of_course [Encoding.Decoders] (hc : withLanguage config = .ok c)
    (hr : c.setup = .ok reg)
    (hfiles : c.Referring files) {m : Moment}
    (h : ReflTransGen (c.Step xmlParser ⟨c.dialect, reg⟩ files steps) (opening name s) m) :
    m.Fits c.dialect := by
  induction h with
  | refl => exact opening_fits
  | tail _ hstep ih => exact Step.fits hc hr hfiles ih hstep

theorem assemble_ends [Encoding.Decoders] (hc : withLanguage config = .ok c)
    (hr : c.setup = .ok reg)
    (hfiles : c.Referring files) :
    (c.assemble xmlParser ⟨c.dialect, reg⟩ files steps name).Ends Failure.Spares
      { s.idle with trace := .start "build" :: s.trace, running := true } fun _ _ => True := by
  refine ⟨fun _ _ _ => trivial, fun f s' h => ?_⟩
  rw [assemble] at h
  split at h
  · rename_i f' s₁ hrounds
    cases h
    obtain ⟨m, hcourse, hstops⟩ : ∃ m, ReflTransGen _ (opening name s) m ∧ c.Stops _ _ _ _ m _ _ :=
      rounds_follows hrounds
    intro t
    rw [Failure.cause_inTemplate]
    exact hstops.spares hc hr (fits_of_course hc hr hfiles hcourse) t
  · rename_i hrounds
    exact absurd h (hrounds f s')

/-- Building blames nobody for not being loaded. -/
theorem build_spares [Encoding.Decoders] (hc : withLanguage config = .ok c)
    (hfiles : c.Referring files) {f : Failure}
    (h : c.build files steps name s.idle = some (.error f, s')) : f.Spares := by
  obtain ⟨reg, hr⟩ := Language.exists_setup hc
  have hends : (c.buildWith xmlParser xmlLinker reg files steps name).Ends Failure.Spares
      { s.idle with trace := .start "build" :: s.trace, running := true } fun _ _ => True := by
    refine .bind ((assemble_ends hc hr hfiles).imp fun doc s₁ _ => ?_)
    exact .bind (Work.checkCanceled_ends fun _ => .bind (xmlLinker_ends.imp fun _ _ _ => .bind
      (.toProcess (.get (.pure trivial)) .get)))
  rw [build, buildIn_eq hc hr rfl, Option.map_map] at h
  obtain ⟨⟨outcome, s₁⟩, hbuild, heq⟩ := Option.map_eq_some_iff.mp h
  cases outcome with
  | ok a => cases heq
  | error f' =>
    obtain rfl := Except.error.inj (congrArg Prod.fst heq)
    intro t
    rw [Failure.cause_inTemplate]
    exact hends.error f' s₁ hbuild t

/-- **Includes come first.** Whenever the stages are about to run on a template, every template that
is loaded anywhere in its document went through the stages, was handed over and is kept under its
name. So no build fails because a template was not loaded. -/
theorem loads_come_first [Encoding.Decoders] (hc : withLanguage config = .ok c)
    (hfiles : c.Referring files)
    (steps : Nat) (name : Text) (s : Session) :
    (∀ reg, c.setup = .ok reg → ∀ r doc extended a t handed,
      ReflTransGen (c.Step xmlParser ⟨c.dialect, reg⟩ files steps) (opening name s)
        ⟨.starting r doc extended a, t, handed⟩ →
      ∀ e ∈ t.store.elementsByName doc (namespaceIdOf c.dialect) "load",
        ∃ z kept, loadName? c.dialect t.store e = some z ∧ (z, kept) ∈ handed ∧
          t.documents.lookup z = some kept) ∧
      ∀ f s', c.build files steps name s.idle = some (.error f, s') →
      ∀ z, f.cause ≠ .notLoaded z := by
  refine ⟨fun reg hr r doc extended a t handed hcourse e he => ?_,
    fun f s' h => build_spares hc hfiles h⟩
  have hfits : Startable c.dialect r doc a t handed := fits_of_course hc hr hfiles hcourse
  have hup := Language.above_of_mem_elementsByName hfits.provided.inside.tidy.wellFormed
    hfits.holds.2 he
  have hnamed : isNamed t.store e (namespaceIdOf c.dialect) ["load"] := by
    rw [isNamed]
    have := (List.mem_filter.mp he).2
    cases hdata : t.store.element? e with
    | none => simp [hdata] at this
    | some data => simpa [hdata] using this
  obtain ⟨z, hz⟩ := hfits.named e hup hnamed
  have hfree := hfits.provided.inside.tidy.below hfits.holds.1 hup
  obtain ⟨kept, hmem, hlookup⟩ := hfits.provided.kept z (hfits.provided.stocked e z hfree hz)
  exact ⟨z, kept, hz, hmem, hlookup⟩

/-- Two templates, one of which loads the other. -/
def loading : Files where
  entries :=
    [("main", "<d:template xmlns:d=\"http://xml.invenzzia.org/declari\">" ++
        "<d:load template=\"part\"/></d:template>"),
     ("part", "<d:template xmlns:d=\"http://xml.invenzzia.org/declari\">x</d:template>")]

theorem loading_builds : ∃ c reg, withLanguage { maxSourceSize := [] } = .ok c ∧
    c.setup = .ok reg ∧ c.Referring loading ∧
    ((c.build loading 12 "main" (Session.idle {})).any fun r =>
      r.1.toOption.any (·.output = ("x" : Text))) ∧
    ∀ r doc extended a t handed,
      ReflTransGen (c.Step xmlParser ⟨c.dialect, reg⟩ loading 12) (opening "main" {})
        ⟨.starting r doc extended a, t, handed⟩ →
      ∀ e ∈ t.store.elementsByName doc (namespaceIdOf c.dialect) "load",
        ∃ z kept, loadName? c.dialect t.store e = some z ∧ (z, kept) ∈ handed ∧
          t.documents.lookup z = some kept := by
  obtain ⟨c, hc⟩ : ∃ c, withLanguage { maxSourceSize := [] } = .ok c := ⟨_, rfl⟩
  obtain ⟨reg, hreg⟩ := Language.exists_setup hc
  have hfiles : c.Referring loading := by
    obtain rfl := Except.ok.inj hc
    exact referring_of_entries rfl (by decide +kernel)
  have hout : (c.build loading 12 "main" (Session.idle {})).any fun r =>
      r.1.toOption.any (·.output = ("x" : Text)) := by
    obtain rfl := Except.ok.inj hc
    decide +kernel
  exact ⟨c, reg, hc, hreg, hfiles, hout, (loads_come_first hc hfiles 12 "main" {}).1 reg hreg⟩

end Compiler

end Stencil
