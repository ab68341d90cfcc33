import Stencil.Proofs.Language.Records

/-!
# A compiler is as good as new after every build

A compiler can be used for any number of builds, one after the other. What a build leaves behind is
given up at its end, whether it succeeded, or failed at any point: half of an expansion, nodes that
no stage has taken, templates that wait for others. So the next build gives what it would give with
a new compiler.

Two facts make this up. The parts of a compiler for the language give up everything a session can
hold, provided that nodes stay enqueued only under the names of its instructions (`dispose_eq`).
What was recorded is not given up, but no part of a build depends on it (`buildWith_respects`).

## Main definitions

* `CompilerState.IsFresh` – nothing is left of earlier builds
* `Compiler.Call`, `Compiler.answer`, `Compiler.serve` – builds one after the other

## Main results

* `Compiler.dispose_eq` – what is left after the parts gave up what they remember
* `Compiler.buildWith_respects` – a build does not depend on what was recorded
* `Compiler.serve_carries_nothing` – nothing is carried over from one build to the next
-/

namespace Stencil

open Stencil.Tree (NodeId)
open Stencil.Language (templateLabel inheritance)

variable {labels : List Text} {d : Dialect} {doc : NodeId} {name : Text} {c : Compiler}
  {config : Config} {files : Files} {steps : Nat}

/-! ### Reading and writing -/

theorem parseSource_respects [Encoding.Decoders] {source : Text} :
    (parseSource d source).Respects (Session.Alike labels) := by
  intro s t hst
  obtain ⟨⟨trace, journal, rfl⟩, htagged⟩ := hst
  rw [parseSource, parseSource]
  dsimp only
  split
  · exact ⟨rfl, ⟨_, _, rfl⟩, htagged⟩
  · exact ⟨rfl, ⟨_, _, rfl⟩, htagged⟩

/-- The end of parsing is recorded. -/
def closeParse (span : Text) : Except Failure NodeId × Session → Except Failure NodeId × Session
  | (.ok doc, s) => (.ok doc, { s with trace := .finish span :: s.trace })
  | (.error f, s) =>
    (.error f, { s with trace := .finish span :: .failed "parse failed" [] f.message :: s.trace })

theorem xmlParser_respects [Encoding.Decoders] {source : Text} :
    (xmlParser.parse d name source).Respects (Session.Alike labels) := by
  have heq : xmlParser.parse d name source = fun s => closeParse ("parse " ++ name)
      (parseSource d source { s with trace := .start ("parse " ++ name) :: s.trace }) := rfl
  rw [heq]
  refine parseSource_respects.around (fun _ _ hst => hst.record _ _) fun r s t hst => ?_
  cases r <;> exact ⟨rfl, hst.record _ _⟩

theorem xmlLinker_respects : (xmlLinker.link doc).Respects (Session.Alike labels) := by
  intro s t hst
  obtain ⟨⟨trace, journal, rfl⟩, htagged⟩ := hst
  simp only [xmlLinker, Session.linkable]
  generalize Code.Linkable.link ⟨s.store, s.buffers, s.properties⟩ doc = result
  rcases result with _ | ⟨_ | o, properties⟩
  · exact .none
  · exact .some ⟨rfl, ⟨_, _, rfl⟩, htagged⟩
  · exact .some ⟨rfl, ⟨_, _, rfl⟩, htagged⟩

/-! ### What templates refer to -/

namespace Language

theorem checkInheritance_respects :
    (checkInheritance d doc).Respects (Session.Alike labels) := by
  refine Work.store_respects.bind fun _ => ?_
  split
  · exact .pure
  split
  · exact .pure
  refine Work.lift_respects.bind fun _ => Work.extract_respects.bind fun _ =>
    Work.modifyStore_respects.bind fun _ => ?_
  dsimp only
  split
  · exact Work.setProperty_respects.bind fun _ => Work.modifyStore_respects.bind fun _ => .pure
  · exact Work.modifyStore_respects.bind fun _ => .pure

theorem keepDocument_respects : (keepDocument name doc).Respects (Session.Alike labels) := by
  have hkeep : (modify fun s : Session => { s with
      documents := (name, doc) :: s.documents.filter fun e => e.1 ≠ name } : Work PUnit).Respects
      (Session.Alike labels) := Work.modify_respects (fun _ _ _ => rfl) fun _ => rfl
  refine Work.getBind_respects (fun _ _ _ => rfl) fun s => ?_
  split
  · split
    · exact Work.modifyStore_respects.bind fun _ => hkeep
    · exact hkeep
  · exact hkeep

end Language

theorem promoteSnippet_respects :
    (Compiler.promoteSnippet doc).Respects (Session.Alike labels) := by
  refine Work.store_respects.bind fun _ => ?_
  split
  · exact .pure
  split
  · exact .throw
  · exact Work.fresh_respects.bind fun _ => Work.tree_respects.bind fun _ =>
      Work.modifyStore_respects.bind fun _ => .pure

namespace Compiler

variable {env : Stage.Environment} {main extended : Text} {r : Request} {a : Agenda}

theorem loadTemplate_respects [Encoding.Decoders] :
    (c.loadTemplate xmlParser files name).Respects (Session.Alike labels) := by
  rw [loadTemplate]
  split
  · exact .bind .pure fun _ => Work.lift_respects.bind fun _ => xmlParser_respects
  · exact .throwBind

theorem readTemplate_respects [Encoding.Decoders]
    (hinherit : c.inheritance? = some (inheritance c.dialect)) :
    (c.readTemplate xmlParser files main name).Respects (Session.Alike labels) := by
  have hcurrent : (modify fun s : Session => { s with current := name } : Work PUnit).Respects
      (Session.Alike labels) := Work.modify_respects (fun _ _ _ => rfl) fun _ => rfl
  have hdepend : (addDependency main name).Respects (Session.Alike labels) := by
    refine Work.modify_respects (fun s _ _ => ?_) fun s => ?_ <;> split <;> rfl
  rw [readTemplate, hinherit]
  exact hcurrent.bind fun _ => hdepend.bind fun _ => loadTemplate_respects.bind fun _ =>
    Work.record_respects.bind fun _ => Language.checkInheritance_respects.bind fun _ => .pure

theorem handOver_respects (hinherit : c.inheritance? = some (inheritance c.dialect)) :
    (c.handOver name doc).Respects (Session.Alike labels) := by
  rw [handOver, hinherit]
  exact Language.keepDocument_respects

/-! ### Rounds -/

theorem runStages_respects (henv : env.Ignorant labels)
    (hstages : ∀ stage ∈ c.stages, ∃ k, stage = .standard k) :
    (c.runStages env steps doc).Respects (Session.Alike labels) := by
  refine .foldlM
    (fun stage hstage doc => .bind (.toProcess Work.checkCanceled_respects) fun _ => ?_) doc
  obtain ⟨k, rfl⟩ := hstages stage hstage
  exact .mapError (.bind (Stage.run_respects henv steps) fun _ => .pure)

theorem finish_respects (hinherit : c.inheritance? = some (inheritance c.dialect))
    (henv : env.Ignorant labels) (hstages : ∀ stage ∈ c.stages, ∃ k, stage = .standard k) :
    (c.finish env steps r doc extended a).Respects (Session.Alike labels) := by
  refine (runStages_respects henv hstages).bind fun doc => ?_
  dsimp only
  split
  · exact .bind (.toProcess (handOver_respects hinherit)) fun _ => .pure
  split
  · split
    · exact .throwBind
    · exact .bind (.toProcess (handOver_respects hinherit)) fun _ => .pure
  split
  · exact .throw
  · exact .bind (.toProcess promoteSnippet_respects) fun _ => .pure

theorem takeUp_respects [Encoding.Decoders]
    (hinherit : c.inheritance? = some (inheritance c.dialect))
    (henv : env.Ignorant labels) (hstages : ∀ stage ∈ c.stages, ∃ k, stage = .standard k) :
    (c.takeUp xmlParser env files steps r a).Respects (Session.Alike labels) := by
  refine .bind (.toProcess (readTemplate_respects hinherit)) fun read =>
    .bind (.toProcess Work.lift_respects) fun requested => ?_
  dsimp only
  split
  · exact finish_respects hinherit henv hstages
  · exact .pure

theorem restore_respects (hinherit : c.inheritance? = some (inheritance c.dialect))
    (henv : env.Ignorant labels) (hstages : ∀ stage ∈ c.stages, ∃ k, stage = .standard k) :
    (c.restore env steps a).Respects (Session.Alike labels) := by
  rw [restore]
  split
  · exact .throw
  · exact .bind (.toProcess (.bind (Work.modify_respects (fun _ _ _ => rfl) fun _ => rfl) fun _ =>
      Work.record_respects)) fun _ => finish_respects hinherit henv hstages

theorem rounds_respects [Encoding.Decoders]
    (hinherit : c.inheritance? = some (inheritance c.dialect))
    (henv : env.Ignorant labels) (hstages : ∀ stage ∈ c.stages, ∃ k, stage = .standard k)
    (n : Nat) (a : Agenda) :
    (c.rounds xmlParser env files steps n a).Respects (Session.Alike labels) := by
  induction n generalizing a with
  | zero => exact .unfinished
  | succ n ih =>
    rw [rounds]
    split
    · split
      · exact .pure
      · exact .throw
    · exact .bind (.toProcess Work.checkCanceled_respects) fun _ =>
        (takeUp_respects hinherit henv hstages).bind fun a => ih a
    · exact .bind (.toProcess Work.checkCanceled_respects) fun _ =>
        (restore_respects hinherit henv hstages).bind fun a => ih a

/-- A failure is recorded, and notes the template being worked on. -/
def closeRounds : Except Failure NodeId × Session → Except Failure NodeId × Session
  | (.ok doc, s) => (.ok doc, s)
  | (.error f, s) =>
    let r := TraceRecord.failed "compilation failed" [("template", s.current)] f.message
    (.error (f.inTemplate s.current), { s with trace := r :: s.trace })

theorem assemble_respects [Encoding.Decoders]
    (hinherit : c.inheritance? = some (inheritance c.dialect))
    (henv : env.Ignorant labels) (hstages : ∀ stage ∈ c.stages, ∃ k, stage = .standard k) :
    (c.assemble xmlParser env files steps name).Respects (Session.Alike labels) := by
  have heq : c.assemble xmlParser env files steps name = fun s =>
      (c.rounds xmlParser env files steps steps (.start name) { s with current := name }).map
        closeRounds := by
    funext s
    rw [assemble]
    rcases c.rounds xmlParser env files steps steps (.start name) { s with current := name } with
      _ | ⟨_ | _, _⟩ <;> rfl
  rw [heq]
  refine (rounds_respects hinherit henv hstages _ _).around (fun s t hst => ?_)
    fun o s t hst => ?_ <;>
    obtain ⟨⟨trace, journal, rfl⟩, htagged⟩ := hst
  · exact ⟨⟨_, _, rfl⟩, htagged⟩
  · cases o <;> exact ⟨rfl, ⟨_, _, rfl⟩, htagged⟩

/-- A build does not depend on what was recorded, and leaves nodes enqueued only for the instruction
for templates. -/
theorem buildWith_respects [Encoding.Decoders] {registry : Registry}
    (hc : withLanguage config = .ok c)
    (hr : c.setup = .ok registry) (files : Files) (steps : Nat) (name : Text) :
    (c.buildWith xmlParser xmlLinker registry files steps name).Respects
      (Session.Alike [templateLabel]) := by
  obtain ⟨-, -, hinherit⟩ := parts_of_withLanguage hc
  refine (assemble_respects hinherit (Language.ignorant_of_setup hc hr)
    fun _ => Language.standard_of_withLanguage hc).bind fun doc => ?_
  refine .bind (.toProcess Work.checkCanceled_respects) fun _ => xmlLinker_respects.bind fun _ =>
    .getBind (fun s t hst => ?_) fun _ => .pure
  obtain ⟨⟨trace, journal, rfl⟩, -⟩ := hst
  rfl

end Compiler

/-! ### The end of a build -/

/-- Nothing is left of earlier builds but what was recorded for the user. -/
structure CompilerState.IsFresh (x : CompilerState) : Prop where
  elementHooks : x.registry.elements = []
  attributeHooks : x.registry.attributes = []
  definitions : x.session.definitions = {}
  documents : x.session.documents = []
  enqueued : x.session.enqueued = []
  buffers : x.session.buffers = {}
  properties : x.session.properties = {}
  dependencies : x.session.dependencies = []
  fragments : x.session.fragments = []
  store : x.session.store = {}
  current : x.session.current = []
  running : x.session.running = false

namespace CompilerState

variable {x y : CompilerState}

theorem isFresh_idle {s : Session} : IsFresh { session := s.idle } :=
  ⟨rfl, rfl, rfl, rfl, rfl, rfl, rfl, rfl, rfl, rfl, rfl, rfl⟩

theorem isFresh_new : IsFresh {} := isFresh_idle (s := {})

theorem IsFresh.eq_idle (h : x.IsFresh) : x = { session := x.session.idle } := by
  obtain ⟨⟨_, _, _, _, _, _, _, _, _, _, _, _, _⟩, ⟨_, _⟩⟩ := x
  obtain ⟨rfl, rfl, rfl, rfl, rfl, rfl, rfl, rfl, rfl, rfl, rfl, rfl⟩ := h
  rfl

end CompilerState

theorem Registry.clear_clear {r : Registry} :
    (r.clear .manipulation).clear .processing = {} := by
  have hnone {H : Type} (l : List ((StageKind × Int × Text) × H)) :
      ((l.filter fun e => e.1.1 ≠ .manipulation).filter fun e => e.1.1 ≠ .processing) = [] := by
    rw [List.filter_filter, List.filter_eq_nil_iff]
    intro e _
    cases e.1.1 <;> decide
  rw [clear, clear, hnone, hnone]

namespace Compiler

/-- The parts of a compiler for the language give up all that a session can hold, if nodes stay
enqueued only under the name of the instruction for templates. -/
theorem dispose_eq [Encoding.Decoders] (hc : withLanguage config = .ok c) {x : CompilerState}
    (hq : ∀ e ∈ x.session.enqueued, e.1 ∈ [templateLabel]) :
    c.dispose x = { session := x.session.idle } := by
  obtain ⟨hparser, hlinker, -⟩ := parts_of_withLanguage hc
  obtain ⟨hinstructions, hstages⟩ := Language.parts_of_withLanguage hc
  have hforget : (x.session.enqueued.filter fun e => e.1 ≠ templateLabel) = [] := by
    simpa using hq
  -- what the instructions, the parser, the linker and the unit leave refers to no nodes
  have hsession : ((xmlLinker.dispose (xmlParser.dispose ([Language.template, Language.definition,
      Language.conditional, Language.dynamic].foldl (fun s i => i.dispose s)
        x.session))).closeUnit.sweep) = x.session.idle := by
    simp only [List.foldl_cons, List.foldl_nil, Instruction.dispose, Language.template,
      Language.definition, Language.conditional, Language.dynamic, xmlLinker, xmlParser, id,
      Session.forgetEnqueued, Language.forgetDocuments, Language.forgetDefinitions, hforget]
    rfl
  rw [dispose, hparser, hlinker, hinstructions, hstages]
  exact congrArg₂ CompilerState.mk hsession Registry.clear_clear

/-! ### Builds one after the other -/

/-- A demand for a build: the files that are there, the steps the work may take, the name of the
template, and whether the caller has given up. -/
structure Call where
  /-- The files. -/
  files : Files
  /-- The number of steps that may be taken. -/
  steps : Nat
  /-- The name of the template. -/
  name : Text
  /-- Whether the work is to be given up. -/
  canceled : Bool := false

/-- A build on demand, with a compiler in a given state. -/
def answer (c : Compiler) (call : Call) : Process Failure CompilerState Artifact := fun x =>
  c.buildIn call.files call.steps call.name
    { x with session := { x.session with canceled := call.canceled } }

/-- The state of a compiler after several builds, each of which ends, successfully or not. -/
def serve (c : Compiler) : List Call → CompilerState → Option CompilerState
  | [], x => some x
  | call :: calls, x => (c.answer call x).bind fun r => c.serve calls r.2

variable {call : Call} {calls : List Call} {x y : CompilerState}

/-- The session in which a build begins. -/
def openingSession (call : Call) (s : Session) : Session :=
  Session.openUnit { s.idle with canceled := call.canceled, trace := .start "build" :: s.trace }

theorem answer_eq [Encoding.Decoders] (hc : withLanguage config = .ok c) {registry : Registry}
    (hr : c.setup = .ok registry) (hx : x.IsFresh) :
    c.answer call x =
      (c.buildWith xmlParser xmlLinker registry call.files call.steps call.name
        (openingSession call x.session)).map fun o =>
          let y := c.dispose { session := o.2, registry }
          (o.1.mapError fun f => f.inTemplate call.name,
            { y with session :=
              { y.session with trace := .finish "build" :: y.session.trace } }) := by
  rw [hx.eq_idle]
  exact buildIn_eq hc hr rfl

theorem alike_openingSession (call : Call) (s t : Session) :
    (openingSession call s).Alike [templateLabel] (openingSession call t) :=
  ⟨⟨_, _, rfl⟩, by simp [openingSession, Session.openUnit, Session.idle]⟩

/-- A build with a fresh compiler leaves it fresh, whether it succeeds or fails. -/
theorem answer_isFresh [Encoding.Decoders] (hc : withLanguage config = .ok c) (hx : x.IsFresh)
    {o : Except Failure Artifact} (h : c.answer call x = some (o, y)) : y.IsFresh := by
  obtain ⟨registry, hr⟩ := Language.exists_setup hc
  rw [answer_eq hc hr hx] at h
  obtain ⟨⟨o', s⟩, hbuild, heq⟩ := Option.map_eq_some_iff.mp h
  have hrel := buildWith_respects hc hr call.files call.steps call.name _ _
    (alike_openingSession call x.session x.session)
  rw [hbuild] at hrel
  cases hrel with
  | some hrel =>
    obtain ⟨-, htagged⟩ := hrel.2
    rw [dispose_eq hc htagged] at heq
    obtain ⟨-, rfl⟩ := Prod.ext_iff.mp heq
    exact CompilerState.isFresh_idle (s := { s.idle with trace := .finish "build" :: s.trace })

/-- What a build gives is the same for all fresh compilers. -/
theorem answer_eq_of_isFresh [Encoding.Decoders] (hc : withLanguage config = .ok c)
    (hx : x.IsFresh) (hy : y.IsFresh) :
    (c.answer call x).map Prod.fst = (c.answer call y).map Prod.fst := by
  obtain ⟨registry, hr⟩ := Language.exists_setup hc
  rw [answer_eq hc hr hx, answer_eq hc hr hy, Option.map_map, Option.map_map]
  have hrel := buildWith_respects hc hr call.files call.steps call.name _ _
    (alike_openingSession call x.session y.session)
  generalize c.buildWith xmlParser xmlLinker registry call.files call.steps call.name
    (openingSession call x.session) = p at hrel ⊢
  generalize c.buildWith xmlParser xmlLinker registry call.files call.steps call.name
    (openingSession call y.session) = q at hrel ⊢
  cases hrel with
  | none => rfl
  | some hrel => exact congrArg some (congrArg (Except.mapError _) hrel.1)

theorem serve_isFresh [Encoding.Decoders] (hc : withLanguage config = .ok c) (hx : x.IsFresh)
    (h : c.serve calls x = some y) : y.IsFresh := by
  induction calls generalizing x with
  | nil => exact Option.some.inj h ▸ hx
  | cons call calls ih =>
    obtain ⟨⟨o, z⟩, hanswer, hrest⟩ := Option.bind_eq_some_iff.mp h
    exact ih (answer_isFresh hc hx hanswer) hrest

/-- **Nothing is carried over from one build to the next.** After any builds with a compiler for the
language, of which each may fail at any point, nothing is left in it but what was recorded, and the
next build gives what it gives with a new compiler: the same artifact, the same failure, or no
answer within the same number of steps. -/
theorem serve_carries_nothing [Encoding.Decoders] (hc : withLanguage config = .ok c)
    (calls : List Call)
    (h : c.serve calls {} = some x) :
    x.IsFresh ∧ ∀ call, (c.answer call x).map Prod.fst = (c.answer call {}).map Prod.fst := by
  have hx := serve_isFresh hc CompilerState.isFresh_new h
  exact ⟨hx, fun call => answer_eq_of_isFresh hc hx CompilerState.isFresh_new⟩

/-- A template that cannot be read, one that uses a definition inside itself while default content
is in place, and one without faults. -/
def failing : Files where
  entries :=
    [("broken", "<d:template xmlns:d=\"http://xml.invenzzia.org/declari\"><p>"),
     ("circle", "<d:template xmlns:d=\"http://xml.invenzzia.org/declari\">" ++
        "<d:macro name=\"a\"><d:use macro=\"a\"/></d:macro>" ++
        "<d:use macro=\"a\">x</d:use></d:template>"),
     ("main", "<d:template xmlns:d=\"http://xml.invenzzia.org/declari\"><p>y</p></d:template>")]

/-- Builds that fail, the last two because there is no such template and because the caller has
given up, and then one that does not. -/
theorem failing_then_serves : ∃ c x, withLanguage { maxSourceSize := [] } = .ok c ∧
    c.serve [⟨failing, 99, "broken", false⟩, ⟨failing, 99, "circle", false⟩,
      ⟨failing, 99, "gone", false⟩, ⟨failing, 99, "main", true⟩] {} = some x ∧
    ((c.answer ⟨failing, 99, "circle", false⟩ {}).any fun r => !r.1.isOk) ∧
    ((c.answer ⟨failing, 99, "main", false⟩ {}).any fun r =>
      r.1.toOption.any (·.output = ("<p>y</p>" : Text))) ∧
    x.IsFresh ∧ ∀ call, (c.answer call x).map Prod.fst = (c.answer call {}).map Prod.fst := by
  obtain ⟨c, hc⟩ : ∃ c, withLanguage { maxSourceSize := [] } = .ok c := ⟨_, rfl⟩
  have hserved : (c.serve [⟨failing, 99, "broken", false⟩, ⟨failing, 99, "circle", false⟩,
      ⟨failing, 99, "gone", false⟩, ⟨failing, 99, "main", true⟩] {}).isSome := by
    obtain rfl := Except.ok.inj hc
    decide +kernel
  have hfails : (c.answer ⟨failing, 99, "circle", false⟩ {}).any fun r => !r.1.isOk := by
    obtain rfl := Except.ok.inj hc
    decide +kernel
  have hbuilds : (c.answer ⟨failing, 99, "main", false⟩ {}).any fun r =>
      r.1.toOption.any (·.output = ("<p>y</p>" : Text)) := by
    obtain rfl := Except.ok.inj hc
    decide +kernel
  obtain ⟨x, hx⟩ := Option.isSome_iff_exists.mp hserved
  exact ⟨c, x, hc, hx, hfails, hbuilds, serve_carries_nothing hc _ hx⟩

end Compiler

end Stencil
