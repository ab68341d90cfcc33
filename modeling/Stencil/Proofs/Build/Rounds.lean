import Stencil.Proofs.Build.Agenda
import Stencil.Proofs.Data.Action

/-!
# Working off an agenda

What a build makes of the references between templates, for any parser, stages and hook. These are
outside of this development, and `Cooperates` says what they are assumed to do: each of them
succeeds and keeps its hands off what belongs to the loop. The hook reports the references of a
graph. The stages may rely on what was handed over to the hook before: nothing is asked of them for
a template that loads another one as long as that one is not finished.

A round takes up a queued template or restores a parked one, and in both cases may finish it. What
comes of it is stated once for all three (`Advances`): a recursion, in which case the graph has a
cycle, or a sound agenda of less weight, or the output.

## Main definitions

* `View`, `Cooperates` – the assumptions
* `Advances`, `Complete` – what comes of a round

## Main results

* `Cooperates.rounds_outcome` – the loop ends, with the last extended template or a recursion
-/

namespace Stencil.Compiler

open Relation (ReflTransGen TransGen)
open Stencil.Tree (NodeId)

/-- How a state is looked at from outside the loop. -/
structure View where
  /-- The state is one in which everything works. -/
  Fine : Session → Prop
  /-- The document is that of the template, as it was read. -/
  Loaded : Session → Text → NodeId → Prop
  /-- The document is that of the template, and the hook was asked what it refers to. -/
  Asked : Session → Text → NodeId → Prop
  /-- The document is that of the template, as the stages made it. -/
  Made : Session → Text → NodeId → Prop
  /-- The template was handed over to the hook. -/
  Given : Session → Text → Prop
  /-- The templates that were read, in order. -/
  log : Session → List Text

namespace View

/-- Work on a document that leaves alone what belongs to the loop and to other documents. -/
structure Keeps (v : View) (doc : NodeId) (s s' : Session) : Prop where
  fine : v.Fine s'
  dependencies : s'.dependencies = s.dependencies
  asked : ∀ t d, d ≠ doc → v.Asked s t d → v.Asked s' t d
  given : ∀ t, v.Given s t → v.Given s' t

/-- A change that does not matter. -/
structure Spares (v : View) (s s' : Session) : Prop where
  fine : v.Fine s'
  loaded : ∀ t d, v.Loaded s t d → v.Loaded s' t d
  asked : ∀ t d, v.Asked s t d → v.Asked s' t d
  given : ∀ t, v.Given s t → v.Given s' t
  log : v.log s' = v.log s

end View

/-- What the loop records. -/
def notices : List Text := ["parsed template", "restoring template"]

/-- The states differ at most in what the loop notes in them. -/
def Alike (s s' : Session) : Prop :=
  ∃ records : List TraceRecord, (∀ r ∈ records, r.message ∈ notices) ∧
    s' = { s with
      current := s'.current, dependencies := s'.dependencies, trace := records ++ s.trace }

/-- What is called by the loop succeeds, and the hook reports the references of the graph. The
stages are run on documents whose loads were handed over. -/
structure Cooperates (v : View) (g : References) (hook : InheritanceHook) (c : Compiler)
    (p : Parser) (env : Stage.Environment) (files : Files) : Prop where
  installed : c.inheritance? = some hook
  canceled : ∀ s, v.Fine s → s.canceled = false
  /-- What the loop notes in the state does not matter. -/
  notes : ∀ s s', Alike s s' → v.Fine s → v.Spares s s'
  /-- Reading gives another document each time. -/
  load : ∀ t ∈ g.names, ∀ s, v.Fine s → ∃ doc s', c.loadTemplate p files t s = (.ok doc, s') ∧
    (∀ u d, v.Asked s u d → d ≠ doc) ∧ v.Keeps doc s s' ∧ v.Loaded s' t doc ∧
      v.log s' = v.log s ++ [t]
  check : ∀ t ∈ g.names, ∀ s doc, v.Fine s → v.Loaded s t doc →
    ∃ s', hook.check doc s = (.ok (g.extended t, g.loads t), s') ∧
      v.Keeps doc s s' ∧ v.Asked s' t doc ∧ v.log s' = v.log s
  stages : ∀ t ∈ g.names, ∀ s doc, v.Fine s → v.Asked s t doc → (∀ u, g.Loads t u → v.Given s u) →
    ∃ doc' s', Process.Reaches (fun steps => c.runStages env steps doc) s (.ok doc', s') ∧
      v.Keeps doc s s' ∧ v.Made s' t doc' ∧ (∀ u d, d ≠ doc → v.Asked s u d → d ≠ doc') ∧
        v.log s' = v.log s
  handOver : ∀ t ∈ g.names, ∀ s doc, v.Fine s → v.Made s t doc →
    ∃ s', hook.handle t doc s = (.ok (), s') ∧ v.Keeps doc s s' ∧ v.Given s' t ∧
      v.log s' = v.log s
  promote : ∀ t ∈ g.names, ∀ s doc, v.Fine s → v.Made s t doc →
    ∃ out s', promoteSnippet doc s = (.ok out, s') ∧
      v.Keeps doc s s' ∧ v.Made s' t out ∧ v.log s' = v.log s

variable {v : View} {g : References} {hook : InheritanceHook} {c : Compiler} {p : Parser}
  {env : Stage.Environment} {files : Files} {s₀ s s' : Session} {a : Agenda}
  {m r : Request} {doc : NodeId} {w : Nat}

/-! ### Dependencies -/

/-- Since the state `s₀`, exactly the templates that were read are noted as dependencies, in the
order in which they were read first. -/
def Noted (v : View) (g : References) (s₀ s : Session) : Prop :=
  ∃ loaded, v.log s = v.log s₀ ++ loaded ∧
    s.dependencies = (loaded.filter (· ≠ g.main)).eraseDups

theorem Noted.same (h : Noted v g s₀ s) (hd : s'.dependencies = s.dependencies)
    (hl : v.log s' = v.log s) : Noted v g s₀ s' := by
  obtain ⟨loaded, hlog, hdep⟩ := h
  exact ⟨loaded, hl.trans hlog, hd.trans hdep⟩

theorem eraseDups_concat (l : List Text) (x : Text) :
    (l ++ [x]).eraseDups = if x ∈ l then l.eraseDups else l.eraseDups ++ [x] := by
  rw [List.eraseDups_append]
  by_cases hx : x ∈ l
  · simp [List.removeAll, hx]
  · simp [List.removeAll, hx, List.eraseDups_cons]

theorem Noted.read (h : Noted v g s₀ s) {t : Text} (hl : v.log s' = v.log s ++ [t])
    (hd : s'.dependencies = if t = g.main ∨ t ∈ s.dependencies then s.dependencies
      else s.dependencies ++ [t]) : Noted v g s₀ s' := by
  obtain ⟨loaded, hlog, hdep⟩ := h
  refine ⟨loaded ++ [t], by rw [hl, hlog, List.append_assoc], ?_⟩
  rw [hd, List.filter_append]
  by_cases ht : t = g.main
  · simp [ht, hdep]
  · simp [ht, hdep, eraseDups_concat]

/-! ### Reading -/

theorem addDependency_apply (main t : Text) (s : Session) :
    addDependency main t s = (.ok ⟨⟩, { s with dependencies :=
      if t = main ∨ t ∈ s.dependencies then s.dependencies else s.dependencies ++ [t] }) := by
  rw [addDependency, Action.modify_apply]
  by_cases h : t = main ∨ t ∈ s.dependencies <;> simp [h]

/-- Reading a template gives a document of its own and its references, and notes it. -/
theorem Cooperates.readTemplate (h : Cooperates v g hook c p env files) (hs : v.Fine s)
    {t : Text} (ht : t ∈ g.names) (hn : Noted v g s₀ s) :
    ∃ doc s', c.readTemplate p files g.main t s = (.ok (doc, g.extended t, g.loads t), s') ∧
      v.Fine s' ∧ (∀ u d, v.Asked s u d → d ≠ doc ∧ v.Asked s' u d) ∧
        (∀ u, v.Given s u → v.Given s' u) ∧ v.Asked s' t doc ∧ Noted v g s₀ s' := by
  obtain ⟨s₁, hs₁⟩ : ∃ s₁, addDependency g.main t { s with current := t } = (.ok ⟨⟩, s₁) :=
    ⟨_, addDependency_apply ..⟩
  have hdep₁ : s₁ = { s with current := t, dependencies := if t = g.main ∨ t ∈ s.dependencies
      then s.dependencies else s.dependencies ++ [t] } := by
    rw [addDependency_apply] at hs₁
    exact (Prod.mk.inj hs₁).2.symm
  have hspare₁ := h.notes s s₁ ⟨[], by simp, by rw [hdep₁]; rfl⟩ hs
  obtain ⟨doc, s₂, hload, hnew, hkeep₂, hdoc₂, hlog₂⟩ := h.load t ht s₁ hspare₁.fine
  obtain ⟨record, hrecord⟩ : ∃ r : TraceRecord,
      r = { message := "parsed template", fields := [("template", t)] } := ⟨_, rfl⟩
  have hnote : Work.record record s₂ = (.ok ⟨⟩, { s₂ with trace := record :: s₂.trace }) := rfl
  have hspare₃ := h.notes s₂ { s₂ with trace := record :: s₂.trace }
    ⟨[record], by simp [hrecord, notices], rfl⟩ hkeep₂.fine
  obtain ⟨s₄, hcheck, hkeep₄, hdoc₄, hlog₄⟩ := h.check t ht _ doc hspare₃.fine
    (hspare₃.loaded t doc hdoc₂)
  refine ⟨doc, s₄, ?_, hkeep₄.fine, fun u d hd => ?_, fun u hu => ?_, hdoc₄,
    hn.read (t := t) ?_ ?_⟩
  · rw [Compiler.readTemplate, Action.bind_ok (Action.modify_apply _ s), Action.bind_ok hs₁,
      Action.bind_ok hload, ← hrecord, Action.bind_ok hnote, h.installed]
    exact Action.bind_ok hcheck
  · have hd₁ := hspare₁.asked u d hd
    have hne := hnew u d hd₁
    exact ⟨hne, hkeep₄.asked u d hne (hspare₃.asked u d (hkeep₂.asked u d hne hd₁))⟩
  · exact hkeep₄.given u (hspare₃.given u (hkeep₂.given u (hspare₁.given u hu)))
  · rw [hlog₄, hspare₃.log, hlog₂, hspare₁.log]
  · rw [hkeep₄.dependencies]
    exact hkeep₂.dependencies.trans (by rw [hdep₁])

/-! ### Stages -/

theorem checkCanceled_apply (hs : s.canceled = false) : Work.checkCanceled s = (.ok ⟨⟩, s) := by
  rw [Work.checkCanceled, Action.bind_ok (Action.get_apply s), hs]
  rfl

/-- A stage of the language that ends. -/
theorem runStage_standard {k : StageKind} {steps : Nat} (hs : s.canceled = false)
    (h : Stage.run env k steps doc s = some (.ok (), s')) :
    runStage env steps doc (.standard k) s = some (.ok doc, s') := by
  have hcheck : Work.checkCanceled.toProcess s = some (.ok ⟨⟩, s) :=
    congrArg some (checkCanceled_apply hs)
  rw [runStage, Process.bind_ok hcheck, Process.mapError]
  have hstage : (do
      Stage.run env k steps doc
      return doc : Process Failure Session NodeId) s = some (.ok doc, s') := Process.bind_ok h
  rw [hstage]

/-! ### What comes of a round -/

/-- The documents of the parked templates are there, each of them once, and what is finished was
handed over. -/
structure Kept (v : View) (s : Session) (a : Agenda) : Prop where
  asked : ∀ q ∈ a.parked, v.Asked s q.request.name q.doc
  nodup : (a.parked.map (·.doc)).Nodup
  given : ∀ x ∈ a.finished, v.Given s x

/-- Work on a document that is not parked. -/
theorem Kept.keeps (h : Kept v s a) (hdoc : ∀ q ∈ a.parked, q.doc ≠ doc) (hk : v.Keeps doc s s') :
    Kept v s' a :=
  ⟨fun q hq => hk.asked _ _ (hdoc q hq) (h.asked q hq), h.nodup,
    fun x hx => hk.given x (h.given x hx)⟩

/-- The last extended template is the output, and nothing is left to be done. -/
def Complete (v : View) (g : References) (a : Agenda) (s : Session) : Prop :=
  a.queue = [] ∧ a.parked = [] ∧
    ∃ doc last, a.output = some doc ∧ v.Made s last doc ∧ g.Settled last

/-- A failure that shows a cycle of the graph. -/
def ShowsCycle (g : References) (f : Failure) : Prop :=
  (∃ k, f = .of (.recursion k)) ∧ ∃ t, ReflTransGen g.Leads g.main t ∧ TransGen g.Leads t t

/-- A round fails because of a cycle, or leads to a sound agenda of less weight or to the output. -/
def Advances (v : View) (g : References) (s₀ : Session) (w : Nat) :
    Except Failure Agenda → Session → Prop
  | .error f, _ => ShowsCycle g f
  | .ok a, s => v.Fine s ∧ Noted v g s₀ s ∧
    (Complete v g a s ∨ ∃ m, a.Sound g [] m ∧ Kept v s a ∧ a.weight g m < w)

/-- Finishing a template. -/
theorem Cooperates.finish (h : Cooperates v g hook c p env files) (hs : v.Fine s)
    (hn : Noted v g s₀ s) (ha : a.Sound g [r] m) (hk : Kept v s a) (hr : v.Asked s r.name doc)
    (hdoc : ∀ q ∈ a.parked, q.doc ≠ doc) (hdone : ∀ u, g.Loads r.name u → u ∈ a.finished)
    (hw : a.weight g m < w) :
    ∃ out s', Process.Reaches (fun steps => c.finish env steps r doc (g.extended r.name) a) s
      (out, s') ∧ Advances v g s₀ w out s' := by
  have hlive : r ∈ a.live [r] := List.mem_cons_self
  have hname := ha.within r hlive
  obtain ⟨doc', s₁, hstages, hkeep₁, hmade, hother, hlog₁⟩ := h.stages _ hname s doc hs hr
    fun u hu => hk.given u (hdone u hu)
  have hk₁ := hk.keeps hdoc hkeep₁
  have hdoc₁ : ∀ q ∈ a.parked, q.doc ≠ doc' := fun q hq =>
    hother _ _ (hdoc q hq) (hk.asked q hq)
  obtain ⟨s₂, hover, hkeep₂, hgiven, hlog₂⟩ := h.handOver _ hname s₁ doc' hkeep₁.fine hmade
  have hn₁ := hn.same hkeep₁.dependencies hlog₁
  have hn₂ := hn₁.same hkeep₂.dependencies hlog₂
  have hk₂ := hk₁.keeps hdoc₁ hkeep₂
  have hgiven₂ : ∀ x ∈ r.name :: a.finished, v.Given s₂ x :=
    List.forall_mem_cons.mpr ⟨hgiven, hk₂.given⟩
  have hhand : (c.handOver r.name doc').toProcess s₁ = some (.ok (), s₂) := by
    rw [Compiler.handOver, h.installed]
    exact congrArg some hover
  by_cases hl : r.isLoaded = true
  · refine ⟨.ok { a with finished := r.name :: a.finished }, s₂,
      hstages.bind_ok (.of_eq fun _ => ?_), hkeep₂.fine, hn₂,
      .inr ⟨m, ha.finishLoaded hl hdone, ⟨hk₂.asked, hk₂.nodup, hgiven₂⟩, hw⟩⟩
    rw [if_pos hl, Process.bind_ok hhand]
    rfl
  obtain rfl : r = m := by
    by_contra hne
    exact hl (ha.loaded r hlive hne)
  by_cases hext : g.extended r.name = []
  · obtain ⟨out, s₃, hpromote, hkeep₃, hout, hlog₃⟩ :=
      h.promote _ hname s₁ doc' hkeep₁.fine hmade
    obtain ⟨hqueue, hparked⟩ := ha.ordered.alone
    refine ⟨.ok { a with finished := r.name :: a.finished, output := some out }, s₃,
      hstages.bind_ok (.of_eq fun _ => ?_), hkeep₃.fine, hn₁.same hkeep₃.dependencies hlog₃,
      .inl ⟨hqueue, hparked, out, r.name, rfl, hout, ha.finishOutput hdone hext⟩⟩
    rw [if_neg hl, if_neg (not_not.mpr hext), if_neg (by simp [ha.output]),
      Process.bind_ok (show (promoteSnippet doc').toProcess s₁ = _ from congrArg some hpromote)]
    rfl
  by_cases hchain : g.extended r.name ∈ r.chain
  · refine ⟨.error (.of (.recursion ⟨.extension, r.chain ++ [g.extended r.name]⟩)), s₁,
      hstages.bind_ok (.of_eq fun _ => ?_), ⟨_, rfl⟩,
      ha.exists_cycle_of_mem_chain hlive (.inl ⟨rfl, hext⟩) hchain⟩
    rw [if_neg hl, if_pos hext, if_pos (by simpa using hchain)]
    exact Process.bind_error rfl
  · obtain ⟨hsound, hweight⟩ := ha.finishExtending hdone ⟨rfl, hext⟩ hchain
    refine ⟨.ok _, s₂, hstages.bind_ok (.of_eq fun _ => ?_), hkeep₂.fine, hn₂,
      .inr ⟨_, hsound, ⟨hk₂.asked, hk₂.nodup, hgiven₂⟩, hweight.trans hw⟩⟩
    rw [if_neg hl, if_pos hext, if_neg (by simpa using hchain)]
    exact Process.bind_ok hhand

/-- Taking up a queued template. -/
theorem Cooperates.takeUp (h : Cooperates v g hook c p env files) (hs : v.Fine s)
    (hn : Noted v g s₀ s) (ha : a.Sound g [r] m) (hk : Kept v s a) (hw : a.weight g m + 1 < w) :
    ∃ out s', Process.Reaches (fun steps => c.takeUp p env files steps r a) s (out, s') ∧
      Advances v g s₀ w out s' := by
  have hlive : r ∈ a.live [r] := List.mem_cons_self
  obtain ⟨doc, s₁, hread, hs₁, hasked, hgiven, hdoc, hn₁⟩ :=
    h.readTemplate hs (ha.within r hlive) hn
  have hread' : (c.readTemplate p files a.main r.name).toProcess s =
      some (.ok (doc, g.extended r.name, g.loads r.name), s₁) := by
    rw [ha.main]
    exact congrArg some hread
  have hne : ∀ q ∈ a.parked, q.doc ≠ doc := fun q hq => (hasked _ _ (hk.asked q hq)).1
  have hk₁ : Kept v s₁ a :=
    ⟨fun q hq => (hasked _ _ (hk.asked q hq)).2, hk.nodup, fun x hx => hgiven x (hk.given x hx)⟩
  cases hreq : a.requestLoads r (g.loads r.name) with
  | error f =>
    obtain ⟨u, hu, hchain, hf⟩ := Agenda.requestLoads_error hreq
    refine ⟨.error f, s₁, .after hread' ?_, ⟨_, hf⟩, ?_⟩
    · exact .of_eq fun _ => by
        dsimp only
        rw [hreq]
        exact Process.bind_error rfl
    · exact ha.exists_cycle_of_mem_chain hlive (.inr hu) hchain
  | ok requested =>
    obtain ⟨waits, a'⟩ := requested
    have hlift : (Work.lift (a.requestLoads r (g.loads r.name))).toProcess s₁ =
        some (.ok (waits, a'), s₁) := by
      rw [hreq]
      rfl
    cases waits with
    | nil =>
      -- nothing to wait for means nothing was queued
      obtain ⟨rfl, hdone⟩ := Agenda.eq_of_requestLoads_nil hreq
      obtain ⟨out, s', hfinish, hadv⟩ := h.finish hs₁ hn₁ ha hk₁ hdoc hne hdone
        (Nat.lt_of_succ_lt hw)
      exact ⟨out, s', .after hread' (.after hlift hfinish), hadv⟩
    | cons u waits =>
      obtain ⟨hsound, hweight⟩ := ha.park hreq doc
      obtain ⟨hfinished, new, rfl, -⟩ := Agenda.requestLoads_ok hreq
      refine ⟨.ok _, s₁, .after hread' (.after hlift (.of_eq fun _ => rfl)), hs₁, hn₁,
        .inr ⟨m, hsound, ⟨?_, ?_, hk₁.given⟩, hweight ▸ hw⟩⟩
      · intro q hq
        rcases List.mem_cons.mp hq with rfl | hq
        · exact hdoc
        · exact hk₁.asked q hq
      · refine List.nodup_cons.mpr ⟨fun hmem => ?_, hk₁.nodup⟩
        obtain ⟨q, hq, hqdoc⟩ := List.mem_map.mp hmem
        exact hne q hq hqdoc

/-- Restoring a parked template. -/
theorem Cooperates.restore (h : Cooperates v g hook c p env files) (hs : v.Fine s)
    (hn : Noted v g s₀ s) (ha : a.Sound g [] m) (hk : Kept v s a) (hq : a.queue = [])
    (hw : a.weight g m ≤ w) :
    ∃ out s', Process.Reaches (fun steps => c.restore env steps a) s (out, s') ∧
      Advances v g s₀ w out s' := by
  cases hfind : a.parked.find? a.isReady with
  | none =>
    refine ⟨.error a.deadlock, s, .of_eq fun _ => ?_, ha.deadlock hq fun q hq => ?_⟩
    · rw [Compiler.restore, hfind]
      rfl
    · have hready := List.find?_eq_none.mp hfind q hq
      simpa [Agenda.isReady] using hready
  | some q =>
    obtain ⟨before, after, hparked, hrest, hfinished⟩ := Agenda.parked_of_find? hfind
    have hmem : q ∈ a.parked := by simp [hparked]
    have hsub : ∀ b ∈ before ++ after, b ∈ a.parked := by
      intro b hb
      rw [hparked]
      rcases List.mem_append.mp hb with hb | hb
      · exact List.mem_append_left _ hb
      · exact List.mem_append_right _ (List.mem_cons_of_mem _ hb)
    have hnodup : (q.doc :: (before ++ after).map (·.doc)).Nodup := by
      have hperm : (before ++ q :: after).Perm (q :: (before ++ after)) := List.perm_middle
      exact (hperm.map (·.doc)).nodup_iff.mp (hparked ▸ hk.nodup)
    have hdone : ∀ u, g.Loads q.request.name u → u ∈ a.finished := fun u hu =>
      (ha.awaited q hmem u hu).elim id (hfinished u)
    obtain ⟨record, hrecord⟩ : ∃ r : TraceRecord, r = {
        message := "restoring template"
        fields := [("template", q.request.name),
          ("stack", Text.ofNat (a.parked.eraseP a.isReady).length)] } := ⟨_, rfl⟩
    obtain ⟨s₁, hs₁⟩ : ∃ s₁ : Session,
        s₁ = { s with current := q.request.name, trace := record :: s.trace } := ⟨_, rfl⟩
    have hspare := h.notes s s₁
      ⟨[record], by simp [hrecord, notices], by rw [hs₁]; rfl⟩ hs
    have hstart : Action.toProcess (do
        modify fun s => { s with current := q.request.name }
        Work.record record : Work Unit) s = some (.ok ⟨⟩, s₁) := by
      rw [hs₁]
      rfl
    have hk₁ : Kept v s₁ { a with parked := before ++ after } :=
      ⟨fun b hb => hspare.asked _ _ (hk.asked b (hsub b hb)), (List.nodup_cons.mp hnodup).2,
        fun x hx => hspare.given x (hk.given x hx)⟩
    obtain ⟨out, s', hfinish, hadv⟩ := h.finish (w := w) hspare.fine
      (hn.same (by rw [hs₁]) hspare.log) (ha.unpark hparked hfinished) hk₁
      (hspare.asked _ _ (hk.asked q hmem))
      (fun b hb hdoc => (List.nodup_cons.mp hnodup).1 (List.mem_map.mpr ⟨b, hb, hdoc⟩)) hdone (by
        refine Nat.lt_of_lt_of_le ?_ hw
        simp only [Agenda.weight, hparked, List.length_append, List.length_cons]
        omega)
    refine ⟨out, s', ?_, hadv⟩
    have hrun : (fun steps => c.restore env steps a) = fun steps => Action.toProcess (do
        modify fun s => { s with current := q.request.name }
        Work.record record : Work Unit) >>= fun _ => c.finish env steps q.request q.doc
          (g.extended q.request.name) { a with parked := before ++ after } := by
      funext steps
      rw [Compiler.restore, hfind]
      dsimp only
      rw [← hrecord, hrest, ha.extended q hmem]
    rw [hrun]
    exact .after hstart hfinish

/-- The loop ends with the last extended template, or fails because of a cycle. -/
def Resolved (v : View) (g : References) (s₀ : Session) : Except Failure NodeId → Session → Prop
  | .error f, _ => ShowsCycle g f
  | .ok doc, s => Noted v g s₀ s ∧ ∃ last, v.Made s last doc ∧ g.Settled last

/-- With enough rounds and enough steps for each, the loop ends in a way that is right. -/
def Ends (v : View) (g : References) (s₀ : Session) (c : Compiler) (p : Parser)
    (env : Stage.Environment) (files : Files) (a : Agenda) (s : Session) : Prop :=
  ∃ bound out s', (∀ steps ≥ bound, ∀ n ≥ bound,
    c.rounds p env files steps n a s = some (out, s')) ∧ Resolved v g s₀ out s'

/-- A round that advances leaves the rest to further rounds. -/
theorem Advances.ends {round : Nat → Process Failure Session Agenda} {out : Except Failure Agenda}
    (hround : Process.Reaches round s (out, s')) (h : Advances v g s₀ w out s')
    (hrounds : ∀ steps n, c.rounds p env files steps (n + 1) a s =
      (round steps >>= c.rounds p env files steps n) s)
    (rest : ∀ {a s m}, v.Fine s → Noted v g s₀ s → a.Sound g [] m → Kept v s a →
      a.weight g m < w → Ends v g s₀ c p env files a s) : Ends v g s₀ c p env files a s := by
  obtain ⟨enough, hround⟩ := hround
  cases out with
  | error f =>
    refine ⟨enough + 1, .error f, s', fun steps hsteps n hn => ?_, h⟩
    obtain ⟨n, rfl⟩ := Nat.exists_eq_succ_of_ne_zero (Nat.ne_zero_of_lt hn)
    rw [hrounds, Process.bind_error (hround steps (Nat.le_of_succ_le hsteps))]
  | ok b =>
    obtain ⟨hs, hnoted, hcomplete | ⟨m, hb, hk, hw⟩⟩ := h
    · obtain ⟨hqueue, hparked, doc, last, hout, hmade, hsettled⟩ := hcomplete
      refine ⟨enough + 2, .ok doc, s', fun steps hsteps n hn => ?_, hnoted, last, hmade, hsettled⟩
      obtain ⟨n, rfl⟩ : ∃ k, n = k + 2 := ⟨n - 2, by omega⟩
      rw [hrounds, Process.bind_ok (hround steps (by omega)), rounds, hqueue, hparked, hout]
      rfl
    · obtain ⟨bound, out, s'', hrest, hres⟩ := rest hs hnoted hb hk hw
      refine ⟨max enough bound + 1, out, s'', fun steps hsteps n hn => ?_, hres⟩
      obtain ⟨n, rfl⟩ := Nat.exists_eq_succ_of_ne_zero (Nat.ne_zero_of_lt hn)
      rw [hrounds, Process.bind_ok (hround steps (by omega))]
      exact hrest steps (by omega) n (by omega)

/-- **The loop ends.** The number of rounds it takes is bounded by the weight of the agenda. -/
theorem Cooperates.rounds_outcome (h : Cooperates v g hook c p env files) (hs : v.Fine s)
    (hn : Noted v g s₀ s) (ha : a.Sound g [] m) (hk : Kept v s a) :
    Ends v g s₀ c p env files a s := by
  induction hweight : a.weight g m using Nat.strong_induction_on generalizing a s m with
  | _ w ih =>
  subst hweight
  have rest : ∀ {b s m'}, v.Fine s → Noted v g s₀ s → b.Sound g [] m' → Kept v s b →
      b.weight g m' < a.weight g m → Ends v g s₀ c p env files b s :=
    fun hs hn hb hk hlt => ih _ hlt hs hn hb hk rfl
  have hcancel : Work.checkCanceled.toProcess s = some (.ok ⟨⟩, s) :=
    congrArg some (checkCanceled_apply (h.canceled s hs))
  cases hqueue : a.queue with
  | cons r queue =>
    have hweight : ({ a with queue } : Agenda).weight g m + 2 = a.weight g m := by
      simp only [Agenda.weight, hqueue, List.length_cons]
      omega
    obtain ⟨out, s₁, hround, hadv⟩ := h.takeUp hs hn (ha.take hqueue) ⟨hk.asked, hk.nodup, hk.given⟩
      (w := a.weight g m) (by omega)
    refine hadv.ends hround (fun steps n => ?_) rest
    rw [rounds, hqueue]
    exact Process.bind_ok hcancel
  | nil =>
    have hparked : a.parked ≠ [] := by
      intro hnil
      simpa [Agenda.live, hqueue, hnil] using ha.mem
    obtain ⟨out, s₁, hround, hadv⟩ := h.restore hs hn ha hk hqueue le_rfl
    obtain ⟨q, parked, hq⟩ := List.exists_cons_of_ne_nil hparked
    refine hadv.ends hround (fun steps n => ?_) rest
    rw [rounds, hqueue, hq]
    exact Process.bind_ok hcancel

end Stencil.Compiler
