import Stencil.Proofs.Build.Chains
import Stencil.Proofs.Build.Rest
import Stencil.Proofs.Language.Unending

/-!
# What is shown of names that lead back to themselves

A build that fails because names lead back to themselves shows a chain of names. There are four ways
to fail like that (`Compiler.Recurs`). In all of them each name of the chain was requested by the
one before it: a template that was read in this build extends or loads the next one, or the content
that took the place of a use holds the next use. The last name stands on the chain before, with one
exception: when parked templates wait for each other, the chain ends with a template that would have
closed no chain, and so it never shows the cycle that it leads to.

A use stands below the element of the use before it, or it is another attribute of the same element.
In the second case the content that took the place of the first use does not hold the second one.

## Main definitions

* `Compiler.Recurs` – the ways to fail

## Main results

* `Compiler.finish_error` – how finishing a template fails
* `Compiler.build_recurs` – nothing else happens in a build
-/

namespace Stencil

open Relation (ReflTransGen TransGen)
open Stencil.Tree (NodeId)

variable {s s' s₀ : Session} {doc : NodeId} {name extended : Text} {f : Failure} {k : Recursion}
  {r : Request} {steps : Nat}

namespace Process

variable {ε δ σ α β : Type} {x : Process ε σ α} {g : α → Process ε σ β} {t t' : σ} {e : ε}

/-- What fails after a first part failed in that part, or in what comes after it. -/
theorem error_of_bind_error (h : (x >>= g) t = some (.error e, t')) :
    x t = some (.error e, t') ∨ ∃ a t₁, x t = some (.ok a, t₁) ∧ g a t₁ = some (.error e, t') := by
  rcases bind_cases h with hrest | ⟨e', hx, he⟩
  · exact .inr hrest
  · cases he
    exact .inl hx

/-- A failure that was wrapped. -/
theorem error_of_mapError_error {w : ε → δ} {e : δ} (h : x.mapError w t = some (.error e, t')) :
    ∃ e', x t = some (.error e', t') ∧ w e' = e := by
  rw [mapError] at h
  split at h
  · cases h
  · cases h
  · rename_i hx
    cases h
    exact ⟨_, hx, rfl⟩

end Process

namespace Compiler

/-! ### Finishing a template -/

variable {config : Config} {c : Compiler} {reg : Registry} {files : Files} {a : Agenda} {m : Moment}
  {handed : List (Text × NodeId)} {doc' : NodeId} {j : StageKind} {stage : StageOf}

/-- How a stage fails. -/
theorem runStage_error {env : Stage.Environment}
    (h : runStage env steps doc (.standard j) s = some (.error f, s'))
    (hk : f.cause = .recursion k) :
    ∃ g, Stage.run env j steps doc s = some (.error g, s') ∧ g.cause = .recursion k := by
  rcases Process.error_of_bind_error h with hcheck | ⟨⟨⟩, s₁, hcheck, hrest⟩
  · exact absurd hk
      (Work.checkCanceled_fails (F := Failure.Straight) _ _ (Option.some.inj hcheck) k)
  obtain ⟨-, rfl⟩ := canceled_of_checkCanceled (Option.some.inj hcheck)
  obtain ⟨g, hstage, rfl⟩ := Process.error_of_mapError_error hrest
  rcases Process.error_of_bind_error hstage with hrun | ⟨⟨⟩, _, _, hdone⟩
  · exact ⟨g, hrun, hk⟩
  · cases hdone

/-- The stages of the language fail for a recursion only in the one that changes the tree. -/
theorem runStages_error [Encoding.Decoders] (hc : withLanguage config = .ok c)
    (hr : c.setup = .ok reg)
    (h : c.runStages ⟨c.dialect, reg⟩ steps doc s = some (.error f, s'))
    (hk : f.cause = .recursion k) :
    ∃ g, Stage.run ⟨c.dialect, reg⟩ .manipulation steps doc s = some (.error g, s') ∧
      g.cause = .recursion k := by
  rw [runStages, (Language.parts_of_withLanguage hc).2, List.foldlM_cons] at h
  rcases Process.error_of_bind_error h with hfirst | ⟨doc₁, s₁, -, hrest⟩
  · exact runStage_error hfirst hk
  rw [List.foldlM_cons] at hrest
  rcases Process.error_of_bind_error hrest with hsecond | ⟨doc₂, s₂, -, hdone⟩
  · obtain ⟨g, hrun, hg⟩ := runStage_error hsecond hk
    have hmarking := Language.marking_of_setup hc hr
    exact absurd hg (Language.processing_fails (F := Failure.Straight) hmarking hrun k)
  · cases hdone

/-- Finishing a template fails for a recursion in the stages, or because the template extends one
that led to it. -/
theorem finish_error [Encoding.Decoders] (hc : withLanguage config = .ok c) (hr : c.setup = .ok reg)
    (h : c.finish ⟨c.dialect, reg⟩ steps r doc extended a s = some (.error f, s'))
    (hk : f.cause = .recursion k) :
    (∃ g, Stage.run ⟨c.dialect, reg⟩ .manipulation steps doc s = some (.error g, s') ∧
      g.cause = .recursion k) ∨
    extended ≠ [] ∧ extended ∈ r.chain ∧ k = ⟨.extension, r.chain ++ [extended]⟩ := by
  have straight :
      ∀ {α : Type} {x : Process Failure Session α} {s : Session} {Q : α → Session → Prop},
      x.Ends Failure.Straight s Q → x s = some (.error f, s') → False := fun hx hs =>
    hx.error _ _ hs k hk
  have hhand : ∀ name doc s,
      (c.handOver name doc).toProcess.Ends Failure.Straight s fun _ _ => True :=
    fun _ _ _ => handOver_ends hc
  rw [finish] at h
  rcases Process.error_of_bind_error h with hstages | ⟨doc₁, s₁, -, hrest⟩
  · exact .inl (runStages_error hc hr hstages hk)
  dsimp only at hrest
  split at hrest
  · refine (straight (Q := fun _ _ => True) (.bind ((hhand _ _ _).imp fun _ _ _ => .pure trivial))
      hrest).elim
  split at hrest
  · rename_i hne
    split at hrest
    · rename_i hmem
      rcases Process.error_of_bind_error hrest with hthrow | ⟨_, _, hthrow, -⟩
      · cases hthrow
        exact .inr ⟨hne, by simpa using hmem, (Cause.recursion.inj hk).symm⟩
      · cases hthrow
    · exact (straight (Q := fun _ _ => True) (.bind ((hhand _ _ _).imp fun _ _ _ => .pure trivial))
        hrest).elim
  split at hrest
  · cases hrest
    cases hk
  · refine (straight (Q := fun _ _ => True) (.bind ?_) hrest).elim
    exact (Process.Ends.toProcess (fun _ _ _ => trivial) promoteSnippet_fails).imp fun _ _ _ =>
      .pure trivial

/-! ### A whole build -/

/-- How a build that begins at a moment fails for names that lead back to themselves, and what it
shows. -/
inductive Recurs [Encoding.Decoders] (c : Compiler) (reg : Registry) (files : Files)
    (steps : Nat) (m₀ : Moment) :
    Recursion → Prop
  /-- A template extends one that led to it. -/
  | extension {pre : List Text} {z : Text} :
      (pre ++ [z]).IsChain (c.Requests xmlParser ⟨c.dialect, reg⟩ files steps m₀) → z ∈ pre →
      Recurs c reg files steps m₀ ⟨.extension, pre ++ [z]⟩
  /-- A template loads one that led to it. -/
  | load {pre : List Text} {z : Text} :
      (pre ++ [z]).IsChain (c.Requests xmlParser ⟨c.dialect, reg⟩ files steps m₀) → z ∈ pre →
      Recurs c reg files steps m₀ ⟨.load, pre ++ [z]⟩
  /-- Nothing is queued, and every parked template waits for another one. The chain does not come
  back to itself; it ends with a template from which a cycle is reached. -/
  | deadlock {a : Agenda} {s : Session} {handed : List (Text × NodeId)}
      {pre : List Text} {z t : Text} :
      ReflTransGen (c.Step xmlParser ⟨c.dialect, reg⟩ files steps) m₀ ⟨.idle a, s, handed⟩ →
      a.queue = [] → a.parked.find? a.isReady = none →
      (pre ++ [z]).IsChain (c.Requests xmlParser ⟨c.dialect, reg⟩ files steps m₀) → z ∉ pre →
      ReflTransGen (c.Requests xmlParser ⟨c.dialect, reg⟩ files steps m₀) z t →
      TransGen (c.Requests xmlParser ⟨c.dialect, reg⟩ files steps m₀) t t →
      Recurs c reg files steps m₀ ⟨.load, pre ++ [z]⟩
  /-- A run of the stage that changes the tree comes to a use of a name that is in use. The other
  names are different. -/
  | expansion {job : Job} {stages : List StageOf} {s s' : Session} {f : Failure} {k : Recursion} :
      ReflTransGen (c.Tick xmlParser ⟨c.dialect, reg⟩ files steps) (m₀.instant c)
        (.working job (.standard .manipulation :: stages) s) →
      Stage.run ⟨c.dialect, reg⟩ .manipulation steps job.doc s = some (.error f, s') →
      f.cause = .recursion k → s'.Unending c.dialect k → s'.definitions.uses.Nodup →
      Recurs c reg files steps m₀ k

/-- What is shown at the moment at which a build ends. -/
theorem Stops.recurs [Encoding.Decoders] (hc : withLanguage config = .ok c) (hr : c.setup = .ok reg)
    (hcourse : ReflTransGen (c.Step xmlParser ⟨c.dialect, reg⟩ files steps) (opening name s₀) m)
    (h : c.Stops xmlParser ⟨c.dialect, reg⟩ files steps m (.error f) s')
    (hk : f.cause = .recursion k) :
    c.Recurs reg files steps (opening name s₀) k := by
  have hopening :
      (opening name s₀).Traced
        (c.Requests xmlParser ⟨c.dialect, reg⟩ files steps (opening name s₀)) :=
    Agenda.traced_start name
  have ht := traced_of_course hopening hcourse
  cases h with
  | noOutput => cases hk
  | canceled hcheck =>
    exact absurd hk (Work.checkCanceled_fails (F := Failure.Straight) _ _ hcheck k)
  | unread _ _ hread =>
    have hinherit := (parts_of_withLanguage hc).2.2
    exact absurd hk (readTemplate_fails (F := Failure.Straight) hinherit _ _ hread k)
  | @refused a r queue _ _ _ _ _ _ _ hq _ hread hreq =>
    obtain ⟨u, hu, hmem, rfl⟩ := Agenda.requestLoads_error hreq
    obtain rfl := Cause.recursion.inj hk
    have hreads : c.Reads xmlParser ⟨c.dialect, reg⟩ files steps (opening name s₀) _ _ _ :=
      ⟨_, _, _, _, _, _, _, hcourse, hq, rfl, hread⟩
    have ht : Agenda.Traced _ [] a := ht
    have hr : r ∈ a.live [] := by simp [Agenda.live, hq]
    exact .load (isChain_concat (ht.chain r hr) (ht.last r hr) (hreads.requests.1 u hu)) hmem
  | deadlock hq hwait =>
    obtain ⟨pre, z, t, rfl, hchain, hz, hzt, hcycle⟩ := Agenda.Traced.deadlock ht hq hwait hk
    exact .deadlock hcourse hq hwait hchain hz hzt hcycle
  | @unfinished r doc extended a s _ _ _ hfinish =>
    rcases finish_error hc hr hfinish hk with ⟨g, hrun, hg⟩ | ⟨hne, hmem, rfl⟩
    · have hticks : ReflTransGen (c.Tick xmlParser ⟨c.dialect, reg⟩ files steps)
          ((opening name s₀).instant c) (.working ⟨r, doc, extended, a⟩ c.stages s) :=
        ReflTransGen.lift' (Moment.instant c) (fun _ _ => Step.ticks) _ _ hcourse
      rw [(Language.parts_of_withLanguage hc).2] at hticks
      have hprepared := prepared_of_course hc hr hticks
      obtain ⟨hunending, hnodup⟩ :=
        Language.run_unending (Language.fluent_of_setup hc hr) hprepared hrun hg
      exact .expansion hticks hrun hg hunending hnodup
    · obtain ⟨ht, hextends⟩ := ht
      have hr : r ∈ a.live [r] := List.mem_cons_self
      exact .extension (isChain_concat (ht.chain r hr) (ht.last r hr) (hextends hne)) hmem

/-- **What is shown of a recursion.** Whatever templates there are, and whenever a build of them
fails for names that lead back to themselves: each name that is shown was requested by the one
before it, by a template that was read in this build, or by a use that holds the next one. The last
name stands on the chain before, unless the build ended because the parked templates wait for each
other. Then it never does, and a cycle of requests is reached from it. -/
theorem build_recurs [Encoding.Decoders] (hc : withLanguage config = .ok c) (hr : c.setup = .ok reg)
    (h : c.build files steps name s₀.idle = some (.error f, s')) (hk : f.cause = .recursion k) :
    c.Recurs reg files steps (opening name s₀) k := by
  rw [build, buildIn_eq hc hr rfl, Option.map_map] at h
  obtain ⟨⟨outcome, s₁⟩, hbuild, heq⟩ := Option.map_eq_some_iff.mp h
  cases outcome with
  | ok a => cases heq
  | error g =>
    obtain rfl := Except.error.inj (congrArg Prod.fst heq)
    rw [Failure.cause_inTemplate] at hk
    rcases Process.error_of_bind_error hbuild with hassemble | ⟨doc, s₂, -, hrest⟩
    · rw [assemble] at hassemble
      split at hassemble
      · rename_i f' s₂ hrounds
        cases hassemble
        rw [Failure.cause_inTemplate] at hk
        obtain ⟨m, hcourse, hstops⟩ : ∃ m, ReflTransGen _ (opening name s₀) m ∧
            c.Stops _ _ _ _ m _ _ :=
          rounds_follows hrounds
        exact hstops.recurs hc hr hcourse hk
      · rename_i hrounds
        exact absurd hassemble (hrounds _ _)
    · -- what comes after the document is finished fails for other causes
      have straight : ∀ {x : Process Failure Session Artifact}, x s₂ = some (.error g, s₁) →
          ¬ x.Ends Failure.Straight s₂ fun _ _ => True := fun hx hends => hends.error _ _ hx k hk
      refine absurd ?_ (straight hrest)
      exact .bind (Work.checkCanceled_ends fun _ => .bind (xmlLinker_ends.imp fun _ _ _ => .bind
        (.toProcess (.get (.pure trivial)) .get)))

/-- Two templates that load each other, and one that loads both. -/
def crossing : Files where
  entries :=
    [("main", "<d:template xmlns:d=\"http://xml.invenzzia.org/declari\">" ++
        "<d:load template=\"a\"/><d:load template=\"b\"/></d:template>"),
     ("a", "<d:template xmlns:d=\"http://xml.invenzzia.org/declari\">" ++
        "<d:load template=\"b\"/></d:template>"),
     ("b", "<d:template xmlns:d=\"http://xml.invenzzia.org/declari\">" ++
        "<d:load template=\"a\"/></d:template>")]

/-- They wait for each other, and no name of the chain that is shown occurs twice. -/
theorem crossing_recurs :
    ∃ c reg f s', withLanguage { maxSourceSize := [] } = .ok c ∧ c.setup = .ok reg ∧
    c.build crossing 12 "main" (Session.idle {}) = some (.error f, s') ∧
    f.cause = .recursion ⟨.load, ["main", "b", "a"]⟩ ∧
    c.Recurs reg crossing 12 (opening "main" {}) ⟨.load, ["main", "b", "a"]⟩ := by
  obtain ⟨c, hc⟩ : ∃ c, withLanguage { maxSourceSize := [] } = .ok c := ⟨_, rfl⟩
  obtain ⟨reg, hr⟩ := Language.exists_setup hc
  have hfails : (c.build crossing 12 "main" (Session.idle {})).any fun r =>
      match r.1 with
      | .error f => match f.cause with
        | .recursion k => k = ⟨.load, ["main", "b", "a"]⟩
        | _ => false
      | .ok _ => false := by
    obtain rfl := Except.ok.inj hc
    decide +kernel
  obtain ⟨⟨x, s'⟩, hbuild, hx⟩ := (Option.any_eq_true _ _).mp hfails
  dsimp only at hx
  split at hx
  · rename_i f
    split at hx
    · rename_i k hk
      obtain rfl : k = ⟨.load, ["main", "b", "a"]⟩ := by simpa using hx
      exact ⟨c, reg, f, s', hc, hr, hbuild, hk, build_recurs hc hr hbuild hk⟩
    · cases hx
  · cases hx

end Compiler

end Stencil
