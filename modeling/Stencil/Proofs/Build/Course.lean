import Mathlib.Logic.Relation
import Stencil.Compiler.Build
import Stencil.Proofs.Build.Order
import Stencil.Proofs.Build.Rounds
import Stencil.Proofs.Data.Action
import Stencil.Proofs.Tree.Steps

/-!
# The course of a build

The loop of a build is a function that gives nothing but its outcome. To speak of what holds on the
way there, its rounds are taken apart into steps. A template is read, and then the stages are about
to run on it, or it is parked; or a parked one is taken up again, and the stages are about to run on
that one. Then they run, and what becomes of the document is the next step. Whatever the loop gives
is what comes of such a course (`rounds_follows`), so what every step preserves holds during every
build.

What was handed over is noted beside the state, because the state may forget it.

Between two moments of a build the stages run, and each of them walks over a document. To speak of
the states on the way, the steps of a build are taken apart further. One tick is a round without its
stages, the beginning or the end of a walk, one step of a walk, or what becomes of a document when
its stages are through. What every tick preserves holds in every state of every build
(`Compiler.rounds_ticks`), also of one that fails on the way.

## Main definitions

* `Compiler.Moment` – a moment of a build
* `Compiler.Step` – the steps from one moment to the next
* `Compiler.Stops` – how a build ends at a moment
* `Compiler.Instant` – a state of a build, and what is about to happen
* `Compiler.Tick` – what happens from one instant to the next
* `Compiler.Takes`, `Compiler.Round` – taking up a template; a round of the loop
* `Compiler.Moment.Ordered` – the order of a moment

## Main results

* `Compiler.rounds_follows` – the loop follows the steps
* `Compiler.Step.ticks` – the steps of a build consist of ticks
* `Compiler.rounds_ticks` – so does the loop
* `Compiler.Takes.rounds_eq`, `Compiler.Round.rounds_eq` – the loop goes on
* `Compiler.Step.ordered`, `Compiler.Round.ordered` – the order is kept
-/

namespace Stencil

open Relation (ReflTransGen)
open Stencil.Tree (NodeId)

namespace Compiler

/-- What a build is about to do. -/
inductive Point where
  /-- The next round. -/
  | idle (a : Agenda)
  /-- The stages run on the document of a request, which extends a template if the name is not
  empty. -/
  | starting (r : Request) (doc : NodeId) (extended : Text) (a : Agenda)

/-- A moment of a build. -/
structure Moment where
  /-- What comes next. -/
  point : Point
  /-- The state. -/
  session : Session
  /-- The templates that went through the stages and were handed over, with the documents that the
  stages made of them, latest first. -/
  handed : List (Text × NodeId)

variable {c : Compiler} {p : Parser} {env : Stage.Environment} {files : Files} {steps : Nat}

/-- The steps of a build. -/
inductive Step (c : Compiler) (p : Parser) (env : Stage.Environment) (files : Files) (steps : Nat) :
    Moment → Moment → Prop
  /-- A template is read, and all that it loads is finished. -/
  | take {a a' : Agenda} {r : Request} {queue : List Request} {s s' : Session} {doc : NodeId}
      {extended : Text} {loads : List Text} {handed : List (Text × NodeId)} :
      a.queue = r :: queue → s.canceled = false →
      c.readTemplate p files a.main r.name s = (.ok (doc, extended, loads), s') →
      Agenda.requestLoads r loads { a with queue } = .ok ([], a') →
      Step c p env files steps ⟨.idle a, s, handed⟩ ⟨.starting r doc extended a', s', handed⟩
  /-- A template is read and has to wait. -/
  | park {a a' : Agenda} {r : Request} {queue : List Request} {s s' : Session} {doc : NodeId}
      {extended : Text} {loads waits : List Text} {handed : List (Text × NodeId)} :
      a.queue = r :: queue → s.canceled = false →
      c.readTemplate p files a.main r.name s = (.ok (doc, extended, loads), s') →
      Agenda.requestLoads r loads { a with queue } = .ok (waits, a') → waits ≠ [] →
      Step c p env files steps ⟨.idle a, s, handed⟩
        ⟨.idle { a' with parked := ⟨r, doc, extended, waits⟩ :: a'.parked }, s', handed⟩
  /-- A parked template waits no longer. -/
  | restore {a : Agenda} {q : Parked} {s s' : Session} {handed : List (Text × NodeId)} :
      a.queue = [] → s.canceled = false → a.parked.find? a.isReady = some q →
      s' = { s with current := q.request.name, trace := s'.trace } →
      Step c p env files steps ⟨.idle a, s, handed⟩ ⟨.starting q.request q.doc q.extended
        { a with parked := a.parked.eraseP a.isReady }, s', handed⟩
  /-- A template that is loaded is finished. -/
  | load {a : Agenda} {r : Request} {s s₁ s₂ : Session} {doc doc' : NodeId} {extended : Text}
      {handed : List (Text × NodeId)} :
      r.isLoaded = true → c.runStages env steps doc s = some (.ok doc', s₁) →
      c.handOver r.name doc' s₁ = (.ok (), s₂) →
      Step c p env files steps ⟨.starting r doc extended a, s, handed⟩
        ⟨.idle { a with finished := r.name :: a.finished }, s₂, (r.name, doc') :: handed⟩
  /-- A template that extends another one is finished. -/
  | extend {a : Agenda} {r : Request} {s s₁ s₂ : Session} {doc doc' : NodeId} {extended : Text}
      {handed : List (Text × NodeId)} :
      r.isLoaded = false → extended ≠ [] → extended ∉ r.chain →
      c.runStages env steps doc s = some (.ok doc', s₁) →
      c.handOver r.name doc' s₁ = (.ok (), s₂) →
      Step c p env files steps ⟨.starting r doc extended a, s, handed⟩
        ⟨.idle { a with
            finished := r.name :: a.finished, scheduled := extended :: a.scheduled
            queue := a.queue ++ [{ name := extended, chain := r.chain ++ [extended] }] },
          s₂, (r.name, doc') :: handed⟩
  /-- The output is finished. -/
  | output {a : Agenda} {r : Request} {s s₁ s₂ : Session} {doc doc' out : NodeId}
      {handed : List (Text × NodeId)} :
      r.isLoaded = false → a.output = none →
      c.runStages env steps doc s = some (.ok doc', s₁) →
      promoteSnippet doc' s₁ = (.ok out, s₂) →
      Step c p env files steps ⟨.starting r doc [] a, s, handed⟩
        ⟨.idle { a with finished := r.name :: a.finished, output := some out }, s₂, handed⟩

/-- How a build ends at a moment. -/
inductive Stops (c : Compiler) (p : Parser) (env : Stage.Environment)
    (files : Files) (steps : Nat) :
    Moment → Except Failure NodeId → Session → Prop
  /-- Nothing is left to be done. -/
  | done {a : Agenda} {s : Session} {doc : NodeId} {handed : List (Text × NodeId)} :
      a.queue = [] → a.parked = [] → a.output = some doc →
      Stops c p env files steps ⟨.idle a, s, handed⟩ (.ok doc) s
  /-- Nothing is left to be done, and there is no output. -/
  | noOutput {a : Agenda} {s : Session} {handed : List (Text × NodeId)} :
      a.queue = [] → a.parked = [] → a.output = none →
      Stops c p env files steps ⟨.idle a, s, handed⟩ (.error (.of (.noOutput a.main))) s
  /-- The work is given up. -/
  | canceled {a : Agenda} {s s' : Session} {f : Failure} {handed : List (Text × NodeId)} :
      Work.checkCanceled s = (.error f, s') →
      Stops c p env files steps ⟨.idle a, s, handed⟩ (.error f) s'
  /-- A template cannot be read. -/
  | unread {a : Agenda} {r : Request} {queue : List Request} {s s' : Session} {f : Failure}
      {handed : List (Text × NodeId)} :
      a.queue = r :: queue → s.canceled = false →
      c.readTemplate p files a.main r.name s = (.error f, s') →
      Stops c p env files steps ⟨.idle a, s, handed⟩ (.error f) s'
  /-- A template loads one that led to it. -/
  | refused {a : Agenda} {r : Request} {queue : List Request} {s s' : Session} {doc : NodeId}
      {extended : Text} {loads : List Text} {f : Failure} {handed : List (Text × NodeId)} :
      a.queue = r :: queue → s.canceled = false →
      c.readTemplate p files a.main r.name s = (.ok (doc, extended, loads), s') →
      Agenda.requestLoads r loads { a with queue } = .error f →
      Stops c p env files steps ⟨.idle a, s, handed⟩ (.error f) s'
  /-- All parked templates wait for each other. -/
  | deadlock {a : Agenda} {s : Session} {handed : List (Text × NodeId)} :
      a.queue = [] → a.parked.find? a.isReady = none →
      Stops c p env files steps ⟨.idle a, s, handed⟩ (.error a.deadlock) s
  /-- A template cannot be finished. -/
  | unfinished {r : Request} {doc : NodeId} {extended : Text} {a : Agenda} {s s' : Session}
      {f : Failure} {handed : List (Text × NodeId)} :
      c.finish env steps r doc extended a s = some (.error f, s') →
      Stops c p env files steps ⟨.starting r doc extended a, s, handed⟩ (.error f) s'

variable {s s' : Session} {a a' : Agenda} {r : Request} {doc : NodeId} {extended : Text}
  {handed : List (Text × NodeId)} {f : Failure} {n : Nat} {x : Except Failure NodeId}

/-! ### One round -/

/-- Finishing a template. -/
theorem finish_step (h : c.finish env steps r doc extended a s = some (.ok a', s')) :
    ∃ handed', c.Step p env files steps ⟨.starting r doc extended a, s, handed⟩
      ⟨.idle a', s', handed'⟩ := by
  rw [finish] at h
  obtain ⟨doc', s₁, hstages, hrest⟩ := Process.exists_of_bind_ok h
  dsimp only at hrest
  split at hrest
  · rename_i hl
    obtain ⟨⟨⟩, s₂, hhand, hdone⟩ := Process.exists_of_bind_ok hrest
    cases hdone
    exact ⟨_, .load hl hstages (Option.some.inj hhand)⟩
  · rename_i hl
    have hl : r.isLoaded = false := by simpa using hl
    split at hrest
    · rename_i hext
      split at hrest
      · obtain ⟨_, _, hthrow, -⟩ := Process.exists_of_bind_ok hrest
        cases hthrow
      · rename_i hchain
        obtain ⟨⟨⟩, s₂, hhand, hdone⟩ := Process.exists_of_bind_ok hrest
        cases hdone
        exact ⟨_, .extend hl hext (by simpa using hchain) hstages (Option.some.inj hhand)⟩
    · rename_i hext
      obtain rfl : extended = [] := Decidable.not_not.mp hext
      split at hrest
      · cases hrest
      · rename_i hout
        obtain ⟨out, s₂, hpromote, hdone⟩ := Process.exists_of_bind_ok hrest
        cases hdone
        exact ⟨_, .output hl (by simpa using hout) hstages (Option.some.inj hpromote)⟩

/-- A course that leads to another round, or to a failure. -/
def Leads (c : Compiler) (p : Parser) (env : Stage.Environment) (files : Files) (steps : Nat)
    (m : Moment) : Except Failure Agenda → Session → Prop
  | .ok a, s => ∃ handed, ReflTransGen (c.Step p env files steps) m ⟨.idle a, s, handed⟩
  | .error f, s => ∃ m', ReflTransGen (c.Step p env files steps) m m' ∧
    c.Stops p env files steps m' (.error f) s

theorem finish_leads {y : Except Failure Agenda} {m : Moment}
    (hm : c.Step p env files steps m ⟨.starting r doc extended a, s, handed⟩)
    (h : c.finish env steps r doc extended a s = some (y, s')) :
    c.Leads p env files steps m y s' := by
  cases y with
  | error f => exact ⟨_, .single hm, .unfinished h⟩
  | ok a' =>
    obtain ⟨handed', hstep⟩ := finish_step h
    exact ⟨handed', .tail (.single hm) hstep⟩

/-- Taking up a template. -/
theorem takeUp_leads {queue : List Request} (hq : a.queue = r :: queue) (hc : s.canceled = false)
    {y : Except Failure Agenda}
    (h : c.takeUp p env files steps r { a with queue } s = some (y, s')) :
    c.Leads p env files steps ⟨.idle a, s, handed⟩ y s' := by
  rw [takeUp] at h
  rcases Process.bind_cases h with ⟨⟨doc, extended, loads⟩, s₁, hread, h⟩ | ⟨f, hread, rfl⟩
  · have hread := Option.some.inj hread
    dsimp only at h
    cases hreq : Agenda.requestLoads r loads { a with queue } with
    | error f =>
      rw [hreq] at h
      cases h
      exact ⟨_, .refl, .refused hq hc hread hreq⟩
    | ok requested =>
      obtain ⟨waits, a'⟩ := requested
      rw [hreq, Process.bind_ok (show (Work.lift (.ok (waits, a'))).toProcess s₁ =
        some (.ok (waits, a'), s₁) from rfl)] at h
      dsimp only at h
      split at h
      · rename_i hwaits
        obtain rfl : waits = [] := List.isEmpty_iff.mp hwaits
        exact finish_leads (.take hq hc hread hreq) h
      · rename_i hwaits
        cases h
        exact ⟨handed, .single (.park hq hc hread hreq (by simpa using hwaits))⟩
  · exact ⟨_, .refl, .unread hq hc (Option.some.inj hread)⟩

/-- Taking up a parked template. -/
theorem restore_leads (hq : a.queue = []) (hc : s.canceled = false) {y : Except Failure Agenda}
    (h : c.restore env steps a s = some (y, s')) :
    c.Leads p env files steps ⟨.idle a, s, handed⟩ y s' := by
  rw [restore] at h
  cases hfind : a.parked.find? a.isReady with
  | none =>
    rw [hfind] at h
    cases h
    exact ⟨_, .refl, .deadlock hq hfind⟩
  | some q =>
    rw [hfind] at h
    rcases Process.bind_cases h with ⟨⟨⟩, s₁, hnote, h⟩ | ⟨f, hnote, -⟩
    · cases hnote
      exact finish_leads (.restore hq hc hfind rfl) h
    · cases hnote

/-! ### The loop -/

theorem canceled_of_checkCanceled (h : Work.checkCanceled s = (.ok (), s')) :
    s.canceled = false ∧ s' = s := by
  rw [Work.checkCanceled, Action.bind_ok (Action.get_apply s)] at h
  cases hc : s.canceled with
  | false =>
    rw [hc] at h
    cases h
    exact ⟨rfl, rfl⟩
  | true =>
    rw [hc] at h
    cases h

/-- **The loop follows the steps.** What it gives is what comes of a course. -/
theorem rounds_follows (h : c.rounds p env files steps n a s = some (x, s')) :
    ∃ m, ReflTransGen (c.Step p env files steps) ⟨.idle a, s, handed⟩ m ∧
      c.Stops p env files steps m x s' := by
  induction n generalizing a s handed with
  | zero => cases h
  | succ n ih =>
    -- a round, and the rest
    have round : ∀ {work : Process Failure Session Agenda} {s},
        (∀ {y s'}, work s = some (y, s') → c.Leads p env files steps ⟨.idle a, s, handed⟩ y s') →
        (work >>= c.rounds p env files steps n) s = some (x, s') →
        ∃ m, ReflTransGen (c.Step p env files steps) ⟨.idle a, s, handed⟩ m ∧
          c.Stops p env files steps m x s' := by
      intro work s hwork h
      rcases Process.bind_cases h with ⟨a', s₁, hround, hrest⟩ | ⟨f, hround, rfl⟩
      · obtain ⟨handed', hcourse⟩ := hwork hround
        obtain ⟨m, hm, hstops⟩ := ih hrest
        exact ⟨m, hcourse.trans hm, hstops⟩
      · exact hwork hround
    have start : ∀ {work : Process Failure Session NodeId},
        (Work.checkCanceled.toProcess >>= fun _ => work) s = some (x, s') →
        (s.canceled = false → work s = some (x, s') →
          ∃ m, ReflTransGen (c.Step p env files steps) ⟨.idle a, s, handed⟩ m ∧
            c.Stops p env files steps m x s') →
        ∃ m, ReflTransGen (c.Step p env files steps) ⟨.idle a, s, handed⟩ m ∧
          c.Stops p env files steps m x s' := by
      intro work h hwork
      rcases Process.bind_cases h with ⟨⟨⟩, s₁, hcheck, hrest⟩ | ⟨f, hcheck, rfl⟩
      · obtain ⟨hc, rfl⟩ := canceled_of_checkCanceled (Option.some.inj hcheck)
        exact hwork hc hrest
      · exact ⟨_, .refl, .canceled (Option.some.inj hcheck)⟩
    rw [rounds] at h
    cases hq : a.queue with
    | cons r queue =>
      rw [hq] at h
      exact start h fun hc h => round (fun hround => takeUp_leads hq hc hround) h
    | nil =>
      cases hp : a.parked with
      | cons q parked =>
        rw [hq, hp] at h
        exact start h fun hc h => round (fun hround => restore_leads hq hc hround) h
      | nil =>
        rw [hq, hp] at h
        dsimp only at h
        cases hout : a.output with
        | some doc =>
          rw [hout] at h
          cases h
          exact ⟨_, .refl, .done hq hp hout⟩
        | none =>
          rw [hout] at h
          cases h
          exact ⟨_, .refl, .noOutput hq hp hout⟩

end Compiler

end Stencil

/-! ## Every state of a build -/

namespace Stencil

open Relation (ReflTransGen)
open Stencil.Tree (NodeId Visitor Walk)

theorem Process.eq_of_mapError_ok {ε δ σ α : Type} {f : ε → δ}
    {x : Process ε σ α} {s s' : σ} {a : α}
    (h : x.mapError f s = some (.ok a, s')) : x s = some (.ok a, s') := by
  rw [Process.mapError] at h
  split at h
  · cases h
  · rename_i hx
    cases h
    exact hx
  · cases h

/-- A walk that ends consists of steps. -/
theorem Tree.Visitor.exists_of_loop {ε σ : Type} {v : Visitor ε σ} {steps : Nat}
    {w : Walk σ} {s : σ}
    (h : v.loop steps w.queue w.stack w.state = some (.ok (), s)) :
    ∃ w', ReflTransGen (fun w w' => v.step w = .inr w') w w' ∧ v.step w' = .inl (.ok (), s) := by
  induction steps generalizing w with
  | zero => cases h
  | succ steps ih =>
    rw [loop_succ] at h
    cases hstep : v.step w with
    | inl r =>
      rw [hstep] at h
      cases h
      exact ⟨w, .refl, hstep⟩
    | inr w₁ =>
      rw [hstep] at h
      obtain ⟨w', hw, hlast⟩ := ih h
      exact ⟨w', .head hstep hw, hlast⟩

/-- Steps that come to the end of a walk make up the loop. -/
theorem Tree.Visitor.exists_loop {ε σ : Type} {v : Visitor ε σ} {w w' : Walk σ}
    {r : Except ε Unit × σ} (h : ReflTransGen (fun w w' => v.step w = .inr w') w w')
    (hlast : v.step w' = .inl r) : ∃ steps, v.loop steps w.queue w.stack w.state = some r := by
  induction h using ReflTransGen.head_induction_on with
  | refl => exact ⟨1, by rw [loop_succ, hlast]⟩
  | head hstep _ ih =>
    obtain ⟨steps, hsteps⟩ := ih
    exact ⟨steps + 1, by rw [loop_succ, hstep, ← hsteps]⟩

namespace Compiler

/-- A template in hand. -/
structure Job where
  /-- The request for it. -/
  request : Request
  /-- Its document. -/
  doc : NodeId
  /-- The template that it extends; empty if it extends none. -/
  extended : Text
  /-- What else is to be done. -/
  agenda : Agenda

/-- A state of a build, and what is about to happen. -/
inductive Instant where
  /-- The next round. -/
  | idle (a : Agenda) (s : Session)
  /-- The next stage. -/
  | working (job : Job) (stages : List StageOf) (s : Session)
  /-- The next step of a walk; some stages are left for later. -/
  | walking (job : Job) (k : StageKind) (stages : List StageOf) (w : Walk Session)

namespace Instant

/-- The state. -/
def session : Instant → Session
  | .idle _ s => s
  | .working _ _ s => s
  | .walking _ _ _ w => w.state

end Instant

/-- A moment as an instant. -/
def Moment.instant (c : Compiler) (m : Moment) : Instant :=
  match m.point with
  | .idle a => .idle a m.session
  | .starting r doc extended a => .working ⟨r, doc, extended, a⟩ c.stages m.session

variable {c : Compiler} {p : Parser} {env : Stage.Environment} {files : Files} {steps : Nat}

/-- What happens in a build. -/
inductive Tick (c : Compiler) (p : Parser) (env : Stage.Environment) (files : Files) (steps : Nat) :
    Instant → Instant → Prop
  /-- A template is read, or taken up again. -/
  | round {a : Agenda} {s : Session} {handed : List (Text × NodeId)} {m : Moment} :
      c.Step p env files steps ⟨.idle a, s, handed⟩ m →
      Tick c p env files steps (.idle a s) (m.instant c)
  /-- A walk begins. -/
  | enter {job : Job} {k : StageKind} {stages : List StageOf} {s : Session} : s.canceled = false →
      Tick c p env files steps (.working job (.standard k :: stages) s)
        (.walking job k stages ⟨[job.doc], [], { s with trace := .start k.name :: s.trace }⟩)
  /-- A walk goes on. -/
  | walk {job : Job} {k : StageKind} {stages : List StageOf} {w w' : Walk Session} :
      (Stage.visitor env k).step w = .inr w' →
      Tick c p env files steps (.walking job k stages w) (.walking job k stages w')
  /-- A walk ends. -/
  | leave {job : Job} {k : StageKind} {stages : List StageOf} {w : Walk Session} {s : Session} :
      (Stage.visitor env k).step w = .inl (.ok (), s) →
      Tick c p env files steps (.walking job k stages w)
        (.working job stages { s with trace := .finish k.name :: s.trace })
  /-- Another stage runs. -/
  | custom {job : Job} {stage : CustomStage} {stages : List StageOf}
      {s s' : Session} {doc : NodeId} :
      s.canceled = false → stage.process job.doc s = (.ok doc, s') →
      Tick c p env files steps (.working job (.custom stage :: stages) s)
        (.working { job with doc } stages s')
  /-- The stages are through, and the template is finished. -/
  | finish {job : Job} {s : Session} {handed : List (Text × NodeId)} {m : Moment} :
      Step { c with stages := [] } p env files steps
        ⟨.starting job.request job.doc job.extended job.agenda, s, handed⟩ m →
      Tick c p env files steps (.working job [] s) (m.instant c)

variable {s s' : Session} {job : Job} {doc : NodeId} {stage : StageOf} {stages : List StageOf}
  {m m' : Moment} {a : Agenda} {handed : List (Text × NodeId)} {x : Except Failure NodeId} {n : Nat}

/-- One stage. -/
theorem runStage_ticks (h : runStage env steps job.doc stage s = some (.ok doc, s')) :
    ReflTransGen (c.Tick p env files steps) (.working job (stage :: stages) s)
      (.working { job with doc } stages s') := by
  obtain ⟨⟨⟩, s₁, hcheck, hrest⟩ := Process.exists_of_bind_ok h
  obtain ⟨hcancel, rfl⟩ := canceled_of_checkCanceled (Option.some.inj hcheck)
  have hstage := Process.eq_of_mapError_ok hrest
  cases stage with
  | custom stage => exact .single (.custom hcancel (Option.some.inj hstage))
  | standard k =>
    obtain ⟨⟨⟩, s₃, hrun, hdone⟩ := Process.exists_of_bind_ok hstage
    cases hdone
    rw [Stage.run] at hrun
    split at hrun
    · cases hrun
    rename_i s₄ hwalk
    cases hrun
    obtain ⟨w, hwalks, hlast⟩ := Visitor.exists_of_loop (v := Stage.visitor env k)
      (w := ⟨[job.doc], [], { s₁ with trace := .start k.name :: s₁.trace }⟩) hwalk
    exact .head (.enter hcancel) (.tail (hwalks.lift _ fun _ _ => .walk) (.leave hlast))

/-- All stages. -/
theorem stages_ticks (h : stages.foldlM (runStage env steps) job.doc s = some (.ok doc, s')) :
    ReflTransGen (c.Tick p env files steps) (.working job stages s)
      (.working { job with doc } [] s') := by
  induction stages generalizing job s with
  | nil =>
    cases h
    exact .refl
  | cons stage stages ih =>
    rw [List.foldlM_cons] at h
    obtain ⟨doc₁, s₁, hstage, hrest⟩ := Process.exists_of_bind_ok h
    have hticks : ReflTransGen (c.Tick p env files steps)
      (.working { job with doc := doc₁ } stages s₁)
        (.working { job with doc } [] s') := ih hrest
    exact (runStage_ticks hstage).trans hticks

/-- **A step of a build** consists of ticks. -/
theorem Step.ticks (h : c.Step p env files steps m m') :
    ReflTransGen (c.Tick p env files steps) (m.instant c) (m'.instant c) := by
  have through : ∀ doc s, runStages { c with stages := [] } env steps doc s = some (.ok doc, s) :=
    fun _ _ => rfl
  cases h with
  | take hq hc hread hreq => exact .single (.round (.take hq hc hread hreq))
  | park hq hc hread hreq hwaits => exact .single (.round (.park hq hc hread hreq hwaits))
  | restore hq hc hfind hs => exact .single (.round (.restore hq hc hfind hs))
  | load hl hstages hhand =>
    exact .tail (stages_ticks hstages) (.finish (.load hl (through _ _) hhand))
  | extend hl hext hchain hstages hhand =>
    exact .tail (stages_ticks hstages)
      (.finish (.extend hl hext hchain (through _ _) hhand))
  | output hl hout hstages hpromote =>
    exact .tail (stages_ticks hstages) (.finish (.output hl hout (through _ _) hpromote))

/-- **The loop** consists of ticks. -/
theorem rounds_ticks (h : c.rounds p env files steps n a s = some (x, s')) :
    ∃ m, ReflTransGen (c.Tick p env files steps) (.idle a s) (m.instant c) ∧
      c.Stops p env files steps m x s' := by
  obtain ⟨m, hcourse, hstops⟩ :
      ∃ m, ReflTransGen (c.Step p env files steps) ⟨.idle a, s, []⟩ m ∧ _ := rounds_follows h
  exact ⟨m, ReflTransGen.lift' (Moment.instant c) (fun _ _ => Step.ticks) _ _ hcourse, hstops⟩

end Compiler

end Stencil

/-! ## The rounds of a build

What the loop of a build gives is what comes of a course of steps; here the loop is followed
forwards, round by round. A round takes up a template, from the queue or from those that were
parked, and finishes it, or parks it. Whatever the loop gives from the state before a round, it
gives from the state after it as well (`Round.rounds_eq`), so a state that rounds lead to decides
about the outcome.

On the way the bookkeeping stays in order (`Moment.Ordered`): all requests but one were made by
loading, and that one is finished alone. -/

namespace Stencil

open Relation (ReflTransGen)
open Stencil.Tree (NodeId)

namespace Compiler

variable {c : Compiler} {p : Parser} {env : Stage.Environment} {files : Files} {steps : Nat}
  {a a' a'' : Agenda} {s s' s'' : Session} {q : Request} {doc : NodeId} {extended : Text} {n : Nat}

/-! ### Rounds -/

/-- Taking up a template that is to be finished at once. -/
inductive Takes (c : Compiler) (p : Parser) (files : Files) :
    Agenda × Session → Request → NodeId → Text → Agenda × Session → Prop
  /-- A template is read, and all that it loads is finished. -/
  | read {a a' : Agenda} {s s' : Session} {q : Request} {queue : List Request} {doc : NodeId}
      {extended : Text} {loads : List Text} : a.queue = q :: queue → s.canceled = false →
      c.readTemplate p files a.main q.name s = (.ok (doc, extended, loads), s') →
      Agenda.requestLoads q loads { a with queue } = .ok ([], a') →
      Takes c p files (a, s) q doc extended (a', s')
  /-- A parked template waits no longer. -/
  | restore {a : Agenda} {s : Session} {q : Parked} : a.queue = [] → s.canceled = false →
      a.parked.find? a.isReady = some q →
      Takes c p files (a, s) q.request q.doc q.extended
        ({ a with parked := a.parked.eraseP a.isReady }, { s with
          current := q.request.name
          trace :=
            { message := "restoring template"
              fields := [("template", q.request.name),
                ("stack", Text.ofNat (a.parked.eraseP a.isReady).length)] } :: s.trace })

/-- A round of the loop. -/
inductive Round (c : Compiler) (p : Parser) (env : Stage.Environment)
    (files : Files) (steps : Nat) :
    Agenda × Session → Agenda × Session → Prop
  /-- A template is taken up and finished. -/
  | finish {x x' y : Agenda × Session} {q : Request} {doc : NodeId} {extended : Text} :
      Takes c p files x q doc extended x' →
      c.finish env steps q doc extended x'.1 x'.2 = some (.ok y.1, y.2) →
      Round c p env files steps x y
  /-- A template is read and has to wait. -/
  | park {a a' : Agenda} {s s' : Session} {q : Request} {queue : List Request} {doc : NodeId}
      {extended : Text} {loads waits : List Text} : a.queue = q :: queue → s.canceled = false →
      c.readTemplate p files a.main q.name s = (.ok (doc, extended, loads), s') →
      Agenda.requestLoads q loads { a with queue } = .ok (waits, a') → waits ≠ [] →
      Round c p env files steps (a, s)
        ({ a' with parked := ⟨q, doc, extended, waits⟩ :: a'.parked }, s')

/-- Reading a template, once its requests are made. -/
theorem takeUp_eq {loads waits : List Text}
    (hread : c.readTemplate p files a.main q.name s = (.ok (doc, extended, loads), s'))
    (hreq : a.requestLoads q loads = .ok (waits, a')) : c.takeUp p env files steps q a s =
      (if waits.isEmpty then c.finish env steps q doc extended a'
        else pure { a' with parked := ⟨q, doc, extended, waits⟩ :: a'.parked }) s' := by
  rw [takeUp, Process.bind_ok (congrArg some hread)]
  dsimp only
  rw [hreq, Process.bind_ok (show (Work.lift (.ok (waits, a'))).toProcess s' =
    some (.ok (waits, a'), s') from rfl)]

/-- A round that takes a request from the queue. -/
theorem rounds_request {queue : List Request} (hq : a.queue = q :: queue)
    (hc : s.canceled = false) :
    c.rounds p env files steps (n + 1) a s =
      (c.takeUp p env files steps q { a with queue } >>= c.rounds p env files steps n) s := by
  rw [rounds, hq]
  exact Process.bind_ok (congrArg some (checkCanceled_apply hc))

/-- **The loop goes on** with the template that is taken up. -/
theorem Takes.rounds_eq {x x' : Agenda × Session} (h : c.Takes p files x q doc extended x') :
    c.rounds p env files steps (n + 1) x.1 x.2 =
      (c.finish env steps q doc extended x'.1 >>= c.rounds p env files steps n) x'.2 := by
  cases h with
  | @read a a' s s' q queue doc extended loads hq hc hread hreq =>
    have htake : c.takeUp p env files steps q { a with queue } s =
        c.finish env steps q doc extended a' s' := takeUp_eq (a := { a with queue }) hread hreq
    rw [rounds_request hq hc, Process.bind_apply, htake, ← Process.bind_apply]
  | @restore a s q hq hc hfind =>
    have hround : c.rounds p env files steps (n + 1) a s =
        (c.restore env steps a >>= c.rounds p env files steps n) s := by
      cases hparked : a.parked with
      | nil =>
        rw [hparked] at hfind
        cases hfind
      | cons q' parked =>
        rw [rounds, hq, hparked]
        exact Process.bind_ok (congrArg some (checkCanceled_apply hc))
    rw [hround, Process.bind_apply, Process.bind_apply]
    congr 1
    rw [Compiler.restore, hfind]
    exact Process.bind_ok rfl

/-- **The loop goes on** after a round. -/
theorem Round.rounds_eq {x y : Agenda × Session} (h : c.Round p env files steps x y) :
    c.rounds p env files steps (n + 1) x.1 x.2 = c.rounds p env files steps n y.1 y.2 := by
  cases h with
  | finish htakes hfinish => rw [htakes.rounds_eq, Process.bind_ok hfinish]
  | @park a a' s s' q queue doc extended loads waits hq hc hread hreq hwaits =>
    have htake : c.takeUp p env files steps q { a with queue } s = some (.ok
        { a' with parked := ⟨q, doc, extended, waits⟩ :: a'.parked }, s') := by
      rw [takeUp_eq (a := { a with queue }) hread hreq, if_neg (by simpa using hwaits)]
      rfl
    rw [rounds_request hq hc, Process.bind_ok htake]

/-- What the loop gives, it gives after some rounds as well. -/
theorem exists_rounds {x y : Agenda × Session} (h : ReflTransGen (c.Round p env files steps) x y)
    {r : Except Failure NodeId × Session}
    (hr : c.rounds p env files steps n x.1 x.2 = some r) :
    ∃ n', c.rounds p env files steps n' y.1 y.2 = some r := by
  induction h using ReflTransGen.head_induction_on generalizing n with
  | refl => exact ⟨n, hr⟩
  | head hround _ ih =>
    cases n with
    | zero => cases hr
    | succ n => exact ih (hround.rounds_eq ▸ hr)

/-! ### Order -/

/-- Whatever comes next, the bookkeeping is in order: nothing is left to be done, or exactly one
request was not made by loading. -/
def Moment.Ordered (m : Moment) : Prop :=
  match m.point with
  | .idle a => (a.queue = [] ∧ a.parked = []) ∨ ∃ r, a.Ordered [] r
  | .starting q _ _ a => ∃ r, a.Ordered [q] r

/-- **Every step keeps the order.** -/
theorem Step.ordered {m m' : Moment} (h : c.Step p env files steps m m') (ho : m.Ordered) :
    m'.Ordered := by
  -- where there is something to be done, one request was not made by loading
  have busy : ∀ {a : Agenda}, (a.queue = [] ∧ a.parked = []) ∨ (∃ r, a.Ordered [] r) →
      (∃ r queue, a.queue = r :: queue) ∨ (∃ q, a.parked.find? a.isReady = some q) →
      ∃ r, a.Ordered [] r := by
    rintro a (⟨hqueue, hparked⟩ | ho) hwork
    · simp [hqueue, hparked] at hwork
    · exact ho
  cases h with
  | take hq _ _ hreq =>
    obtain ⟨r, ho⟩ := busy ho (.inl ⟨_, _, hq⟩)
    obtain ⟨rfl, -⟩ := Agenda.eq_of_requestLoads_nil hreq
    exact ⟨r, ho.take hq⟩
  | park hq _ _ hreq _ =>
    obtain ⟨r, ho⟩ := busy ho (.inl ⟨_, _, hq⟩)
    exact .inr ⟨r, (ho.take hq).park hreq _ _⟩
  | restore _ _ hfind _ =>
    obtain ⟨r, ho⟩ := busy ho (.inr ⟨_, hfind⟩)
    obtain ⟨before, after, hparked, herase, hready⟩ := Agenda.parked_of_find? hfind
    exact ⟨r, herase ▸ ho.unpark hparked hready⟩
  | load hl _ _ =>
    obtain ⟨r, ho⟩ := ho
    exact .inr ⟨r, ho.finishLoaded hl⟩
  | extend hl _ _ _ _ =>
    obtain ⟨r, ho⟩ := ho
    obtain rfl := ho.eq_of_extending hl
    exact .inr ⟨_, ho.finishExtending _⟩
  | output hl _ _ _ =>
    obtain ⟨r, ho⟩ := ho
    obtain rfl := ho.eq_of_extending hl
    exact .inl ho.alone

theorem Takes.step (env : Stage.Environment) (steps : Nat) {x x' : Agenda × Session}
    {handed : List (Text × NodeId)}
    (h : c.Takes p files x q doc extended x') : c.Step p env files steps ⟨.idle x.1, x.2, handed⟩
      ⟨.starting q doc extended x'.1, x'.2, handed⟩ := by
  cases h with
  | read hq hc hread hreq => exact .take hq hc hread hreq
  | restore hq hc hfind => exact .restore hq hc hfind rfl

/-- So does every round. -/
theorem Round.ordered {x y : Agenda × Session} (h : c.Round p env files steps x y)
    (ho : Moment.Ordered ⟨.idle x.1, x.2, []⟩) : Moment.Ordered ⟨.idle y.1, y.2, []⟩ := by
  cases h with
  | finish htakes hfinish =>
    obtain ⟨handed, hstep⟩ : ∃ handed, c.Step p env files steps ⟨.starting _ _ _ _, _, []⟩
      ⟨.idle y.1, y.2, handed⟩ := finish_step hfinish
    exact hstep.ordered ((htakes.step env steps).ordered ho)
  | park hq hc hread hreq hwaits =>
    exact (Step.park hq hc hread hreq hwaits : Step c p env files steps _ _).ordered ho

end Compiler

end Stencil
