import Stencil.Proofs.Build.Keeping
import Stencil.Proofs.Language.Defaults
import Stencil.Proofs.Language.Frames

/-!
# Nothing is under way between the stages

Only the stage that changes the tree begins expansions and has its handlers called again. It ends
all expansions that it began and answers everybody who asked, so nothing of the kind is under way
when another stage runs, when a template is read, or when a document is handed over
(`Instant.Restful`). Each run of the stage in each build therefore begins with no expansion under
way and no name in use, on a document that is apart from the definitions
(`Compiler.prepared_of_course`), and what was shown for such runs holds of all of them
(`Compiler.expansions_balance`).

## Main definitions

* `Session.Lulls` – no expansion begins, and nobody asks to be called again
* `Compiler.Instant.Restful` – what holds in every state of a build

## Main results

* `Language.processing_lulls`, `Language.processing_fails` – the stage that generates code
* `Compiler.Tick.restful` – every tick preserves what holds
* `Compiler.expansions_balance` – the stage that changes the tree, in every build
* `Compiler.defaults_trail` – where default content stands, and who gets it
-/

namespace Stencil

open Relation (ReflTransGen)
open Stencil.Tree (NodeId Store Visitor Walk)
open Stencil.Language (Marking namespaceIdOf isNamed)

variable {s s' s₀ : Session} {n a e doc : NodeId} {name : Text}

/-- The expansions under way and the definitions are the same, and nobody has asked to be called
again. -/
structure Session.Lulls (s s' : Session) : Prop where
  definitions : s'.definitions = s.definitions
  raised (n : NodeId) : s'.raised n → s.raised n

namespace Session

theorem Lulls.of_eq (hdefs : s'.definitions = s.definitions)
    (hprops : s'.properties = s.properties) :
    s.Lulls s' :=
  ⟨hdefs, fun n hn => by rwa [Session.raised, hprops] at hn⟩

instance : Std.Refl Session.Lulls := ⟨fun _ => .of_eq rfl rfl⟩

instance : Trans Session.Lulls Session.Lulls Session.Lulls :=
  ⟨fun h₁ h₂ => ⟨h₂.definitions.trans h₁.definitions, fun n hn => h₁.raised n (h₂.raised n hn)⟩⟩

theorem AtRest.lulls (hs : s.AtRest) (h : s.Lulls s') : s'.AtRest where
  active := h.definitions ▸ hs.active
  uses := h.definitions ▸ hs.uses
  raised n := Bool.eq_false_iff.mpr fun hn => by simpa [hs.raised n] using h.raised n hn

/-- Fewer nodes are to be visited. -/
theorem Guards.sublist {id : Int} {l l' : List NodeId} (g : s.Guards id l) (h : l'.Sublist l) :
    s.Guards id l' where
  wellFormed := g.wellFormed
  owned := g.owned
  labelled := g.labelled
  nodup := g.nodup.sublist h
  has n hn := g.has n (h.subset hn)
  fresh n hn := g.fresh n (h.subset hn)
  separate := g.separate.mono fun _ hm => hm.imp_left fun hm => h.subset hm
  bodies := g.bodies
  fallbacks := g.fallbacks

end Session

/-! ### Single actions -/

namespace Work

theorem modifyStore_lulls {f : Store → Store} : (modifyStore f).Keeps Session.Lulls s :=
  .modify (.of_eq rfl rfl)

theorem modifyBuffers_lulls {f : Code.Buffers → Code.Buffers} :
    (modifyBuffers n f).Keeps Session.Lulls s :=
  .modify (.of_eq rfl rfl)

theorem tree_lulls {f : Store → Except Tree.TreeError Store} : (tree f).Keeps Session.Lulls s := by
  refine .bind store_keeps fun t _ _ => ?_
  split
  · exact modifyStore_lulls
  · exact .throw

theorem setProperty_lulls {v : Code.Property} (h : name ≠ Code.Properties.postprocess) :
    (setProperty n name v).Keeps Session.Lulls s :=
  .modify ⟨rfl, fun _ hm => (Session.raised_setProperty h).symm.trans hm⟩

theorem markDynamic_lulls :
    (setProperty n Code.Properties.dynamic (.flag true)).Keeps Session.Lulls s :=
  setProperty_lulls (by decide)

theorem takeReturn_lulls : (takeReturn n).Keeps Session.Lulls s := by
  rw [Action.Keeps, takeReturn_apply]
  refine ⟨Session.definitions_lower, fun m hm => ?_⟩
  rw [Session.raised_lower, Bool.and_eq_true] at hm
  exact hm.2

end Work

namespace Language

/-! ### Generating code -/

section Processing

variable {env : Stage.Environment} {d : Dialect} {k : StageKind} {α : Type}
  {R : Session → Session → Prop}
  {F : Failure → Prop}

theorem elementHooks?_tame {f : Option ElementHooks → Work α}
    (h : (f ((s.store.element? n).bind fun d => env.registry.element? k d.uri d.name)).Tame R F s) :
    (Stage.elementHooks? env k n >>= f).Tame R F s := by
  obtain ⟨hkeeps, hfails⟩ := h
  constructor
  · rwa [Action.Keeps, Action.bind_ok elementHooks?_apply]
  · rwa [Action.FailsOnly, Action.bind_ok elementHooks?_apply]

theorem attributeHooks?_tame {f : Option AttributeHooks → Work α}
    (h : (f ((s.store.attr? a).bind fun d => env.registry.attribute? k d.uri d.name)).Tame R F s) :
    (Stage.attributeHooks? env k a >>= f).Tame R F s := by
  obtain ⟨hkeeps, hfails⟩ := h
  constructor
  · rwa [Action.Keeps, Action.bind_ok attributeHooks?_apply]
  · rwa [Action.FailsOnly, Action.bind_ok attributeHooks?_apply]

theorem store_tame : Work.store.Tame Session.Lulls F s := ⟨Work.store_keeps, Work.store_fails⟩

theorem modifyStore_tame {f : Store → Store} : (Work.modifyStore f).Tame Session.Lulls F s :=
  ⟨Work.modifyStore_lulls, Work.modifyStore_fails⟩

theorem modifyBuffers_tame {f : Code.Buffers → Code.Buffers} :
    (Work.modifyBuffers n f).Tame Session.Lulls F s :=
  ⟨Work.modifyBuffers_lulls, .modify⟩

theorem takeReturn_tame : (Work.takeReturn n).Tame Session.Lulls F s := by
  refine ⟨Work.takeReturn_lulls, fun f s' h => ?_⟩
  rw [Work.takeReturn_apply] at h
  cases h

theorem enqueueChildren_tame : (Work.enqueueChildren n).Tame Session.Lulls F s :=
  ⟨Work.enqueueChildren_keeps, enqueueChildren_fails⟩

/-- A node is made visible, and its children are visited. -/
theorem show_tame : (do
    Work.setVisible n true
    Work.enqueueChildren n : Work (Option (List NodeId))).Tame Session.Lulls F s :=
  .bind modifyStore_tame fun _ _ _ => enqueueChildren_tame

variable [Failure.Broad F]

theorem compile_tame {source engine : Text} :
    (Work.lift (d.compile source engine)).Tame Session.Lulls F s :=
  ⟨Work.lift_keeps, Work.lift_fails blames_compile⟩

theorem atNode_tame {w : Work α} (h : w.Tame Session.Lulls F s) :
    (Work.atNode n w).Tame Session.Lulls F s :=
  ⟨Work.atNode_keeps h.keeps, Work.atNode_fails h.fails⟩

theorem printingTable_tame {hooks : ElementHooks} (h : (printingTable d).lookup name = some hooks) :
    (hooks.enter n).Tame Session.Lulls F s := by
  have hmem := mem_of_lookup h
  simp only [printingTable, List.mem_cons, List.not_mem_nil, or_false, Prod.mk.injEq] at hmem
  rcases hmem with ⟨-, rfl⟩ | ⟨-, rfl⟩ | ⟨-, rfl⟩ | ⟨-, rfl⟩ | ⟨-, rfl⟩ | ⟨-, rfl⟩
  · exact .bind ⟨Work.markDynamic_lulls, .modify⟩ fun _ _ _ => show_tame
  · exact .bind ⟨Work.extract_keeps, Work.extract_fails⟩ fun _ _ _ => .bind modifyBuffers_tame
      fun _ _ _ => show_tame
  all_goals exact show_tame

theorem conditionAttribute_tame : ((conditionAttribute d).enter e a).Tame Session.Lulls F s := by
  have hwrap {s : Session} {source engine : Text} : (do
      wrapCondition e (← Work.lift (d.compile source engine)) : Work Unit).Tame Session.Lulls F s :=
    .bind compile_tame fun _ _ _ => modifyBuffers_tame
  refine .bind store_tame fun _ _ _ => ?_
  dsimp only
  split
  · exact .bind ⟨Work.fail_keeps, Work.fail_fails rfl⟩ fun _ _ _ => hwrap
  · exact hwrap

theorem processValue_tame : (Stage.processValue env a).Tame Session.Lulls F s := by
  refine .bind store_tame fun _ _ _ => ?_
  split
  · exact .bind (atNode_tame compile_tame) fun _ _ _ => .bind modifyBuffers_tame
      fun _ _ _ => modifyStore_tame
  · exact .pure

variable (henv : Marking env)

include henv

theorem processAttributes_tame : (Stage.processAttributes env n).Tame Session.Lulls F s := by
  refine .bind store_tame fun _ _ _ => .forM fun a s => attributeHooks?_tame ?_
  split
  · rename_i hooks hhooks
    obtain ⟨d, -, hhooks⟩ := Option.bind_eq_some_iff.mp hhooks
    obtain rfl := henv.attributes d.uri d.name hooks hhooks
    exact atNode_tame conditionAttribute_tame
  · exact processValue_tame

/-- **Entering a node** to generate code. -/
theorem process_tame : (Stage.process env n).Tame Session.Lulls F s := by
  refine .bind store_tame fun _ s _ => ?_
  split
  · split
    · refine elementHooks?_tame ?_
      split
      · exact .pure
      · rename_i hooks hhooks
        obtain ⟨d, -, hhooks⟩ := Option.bind_eq_some_iff.mp hhooks
        rw [henv.element?] at hhooks
        split at hhooks
        · exact atNode_tame (printingTable_tame hhooks)
        · cases hhooks
    · exact .bind modifyStore_tame fun _ _ _ => .bind (processAttributes_tame henv)
        fun _ _ _ => enqueueChildren_tame
  · exact show_tame
  · exact show_tame
  · exact .bind modifyStore_tame fun _ _ _ => .bind (atNode_tame compile_tame)
      fun _ _ _ => .bind modifyBuffers_tame fun _ _ _ => .pure
  · exact .bind modifyStore_tame fun _ _ _ => .pure

/-- **Leaving a node** while code is generated: who had asked for it is called, but nobody had. -/
theorem printLeave_tame : (Stage.leave env .processing n).Tame Session.Lulls F s := by
  refine .bind store_tame fun _ s _ => ?_
  split
  · refine .bind (.bind takeReturn_tame fun asked s _ => ?_) fun _ _ _ =>
      .bind store_tame fun _ _ _ => .forM fun a s => .bind takeReturn_tame fun asked s _ => ?_
    · split
      · refine elementHooks?_tame ?_
        split
        · rename_i hooks hhooks
          obtain ⟨d, -, hhooks⟩ := Option.bind_eq_some_iff.mp hhooks
          rw [henv.element?] at hhooks
          split at hhooks
          · rw [printingTable_leave hhooks]
            exact atNode_tame .pure
          · cases hhooks
        · exact .pure
      · exact .pure
    · split
      · refine attributeHooks?_tame ?_
        split
        · rename_i hooks hhooks
          obtain ⟨d, -, hhooks⟩ := Option.bind_eq_some_iff.mp hhooks
          obtain rfl := henv.attributes d.uri d.name hooks hhooks
          exact atNode_tame .pure
        · exact .pure
      · exact .pure
  · exact .pure

/-- **The stage that generates code** begins no expansions. -/
theorem processing_lulls {steps : Nat} {r : Except Failure Unit}
    (h : Stage.run env .processing steps n s = some (r, s')) : s.Lulls s' := by
  rw [Stage.run] at h
  split at h
  · cases h
  rename_i hwalk
  cases h
  have hlulls := Visitor.loop_keeps (R := Session.Lulls)
    (fun _ _ => (process_tame (F := Failure.Spares) henv).keeps)
    (fun _ _ => (printLeave_tame (F := Failure.Spares) henv).keeps) hwalk
  exact ⟨hlulls.definitions, hlulls.raised⟩

/-- It fails neither for a recursion nor for a template that is missing. -/
theorem processing_fails {steps : Nat} {f : Failure}
    (h : Stage.run env .processing steps n s = some (.error f, s')) : F f := by
  rw [Stage.run] at h
  split at h
  · cases h
  rename_i hwalk
  cases h
  refine (Visitor.loop_ends (v := Stage.processing env) (I := fun _ => True) (P := fun _ _ => True)
    Failure.broad_ofTree (fun _ _ _ _ => ⟨(process_tame henv).fails, ?_⟩)
    (fun _ _ _ _ => ⟨(printLeave_tame henv).fails, ?_⟩) trivial ?_).error _ _ hwalk
  · exact fun _ _ _ => ⟨trivial, fun _ => id, fun _ _ => trivial⟩
  · exact fun _ _ _ => ⟨trivial, fun _ => id⟩
  · exact ⟨fun _ _ => trivial, fun _ _ => ⟨trivial, fun _ _ => trivial⟩⟩

end Processing

/-! ### Reading and handing over -/

theorem checkInheritance_lulls {d : Dialect} : (checkInheritance d doc).Keeps Session.Lulls s := by
  refine .bind Work.store_keeps fun _ _ _ => ?_
  split
  · exact .pure
  split
  · exact .pure
  refine .bind Work.lift_keeps fun _ _ _ => .bind Work.extract_keeps fun _ _ _ =>
    .bind Work.modifyStore_lulls fun _ _ _ => ?_
  have hrest {n : NodeId} {x : Text × List Text} {s : Session} : (do
      Work.setVisible n true
      return x : Work (Text × List Text)).Keeps Session.Lulls s :=
    .bind Work.modifyStore_lulls fun _ _ _ => .pure
  dsimp only
  split
  · exact .bind Work.markDynamic_lulls fun _ _ _ => hrest
  · exact hrest

theorem keepDocument_lulls : (keepDocument name doc).Keeps Session.Lulls s := by
  have hrest {s : Session} : (modify fun s : Session => { s with
      documents := (name, doc) :: s.documents.filter fun e => e.1 ≠ name } : Work Unit).Keeps
        Session.Lulls s :=
    .modify (.of_eq rfl rfl)
  refine .bind .get fun _ _ _ => ?_
  split
  · split
    · exact .bind Work.modifyStore_lulls fun _ _ _ => hrest
    · exact hrest
  · exact hrest

end Language

namespace Compiler

theorem promoteSnippet_lulls : (promoteSnippet doc).Keeps Session.Lulls s := by
  refine .bind Work.store_keeps fun _ _ _ => ?_
  split
  · exact .pure
  split
  · exact Work.fail_keeps
  · exact .bind
      (.bind Work.store_keeps fun _ _ _ => .bind Work.modifyStore_lulls fun _ _ _ => .pure)
      fun _ _ _ => .bind Work.tree_lulls fun _ _ _ =>
        .bind Work.modifyStore_lulls fun _ _ _ => .pure

section Ticks

variable {config : Config} {c : Compiler} {reg : Registry} {env : Stage.Environment} {files : Files}
  {steps : Nat} {i i' : Instant} {main : Text}

theorem readTemplate_lulls [Encoding.Decoders]
    (hinherit : c.inheritance? = some (Language.inheritance c.dialect)) :
    (c.readTemplate xmlParser files main name).Keeps Session.Lulls s := by
  have hparse {source : Text} {s : Session} :
      (xmlParser.parse c.dialect name source).Keeps Session.Lulls s := by
    rw [Action.Keeps]
    simp only [xmlParser, parseSource]
    split <;> rename_i hread <;> split at hread <;> cases hread <;> exact .of_eq rfl rfl
  have hload {s : Session} : (c.loadTemplate xmlParser files name).Keeps Session.Lulls s := by
    rw [loadTemplate]
    split
    · exact .bind .pure fun _ _ _ => .bind Work.lift_keeps fun _ _ _ => hparse
    · exact .bind Work.fail_keeps fun _ _ _ => .bind Work.lift_keeps fun _ _ _ => hparse
  refine .bind (.modify (.of_eq rfl rfl)) fun _ s _ => .bind (.modify ?_) fun _ _ _ => .bind hload
    fun _ _ _ => .bind (.modify (.of_eq rfl rfl)) fun _ _ _ => ?_
  · split <;> exact .of_eq rfl rfl
  · rw [hinherit]
    exact .bind Language.checkInheritance_lulls fun _ _ _ => .pure

/-! ### Every state of a build -/

/-- What holds in every state of a build: a walk began when nothing was under way, and apart from
walks nothing is. -/
def Instant.Restful (env : Stage.Environment) : Instant → Prop
  | .idle _ s => s.AtRest
  | .working _ _ s => s.AtRest
  | .walking job k _ w => ∃ s : Session, s.AtRest ∧
      (k = .manipulation → s.Guards (namespaceIdOf env.dialect) [job.doc]) ∧
      ReflTransGen (fun w w' => (Stage.visitor env k).step w = .inr w')
        ⟨[job.doc], [], { s with trace := .start k.name :: s.trace }⟩ w

/-- Steps that come to the end of a walk are a run of the stage. -/
theorem exists_run {k : StageKind} {w : Walk Session}
    (h : ReflTransGen (fun w w' => (Stage.visitor env k).step w = .inr w')
      ⟨[doc], [], { s with trace := .start k.name :: s.trace }⟩ w)
    (hlast : (Stage.visitor env k).step w = .inl (.ok (), s')) :
    ∃ steps, Stage.run env k steps doc s =
      some (.ok (), { s' with trace := .finish k.name :: s'.trace }) := by
  obtain ⟨steps, hsteps⟩ := Visitor.exists_loop h hlast
  have hwalk : (Stage.visitor env k).walk steps (some doc)
      { s with trace := .start k.name :: s.trace } = some (.ok (), s') := hsteps
  exact ⟨steps, by rw [Stage.run, hwalk]⟩

variable [Encoding.Decoders] (hc : withLanguage config = .ok c)

include hc

theorem Step.restful {a : Agenda} {handed : List (Text × NodeId)} {m : Moment}
    (h : c.Step xmlParser env files steps ⟨.idle a, s, handed⟩ m) (hs : s.AtRest) :
    (m.instant c).Restful env := by
  have hinherit := (parts_of_withLanguage hc).2.2
  cases h with
  | take hq hcancel hread hreq => exact hs.lulls ((readTemplate_lulls hinherit).yields _ _ hread)
  | park hq hcancel hread hreq hwaits =>
    exact hs.lulls ((readTemplate_lulls hinherit).yields _ _ hread)
  | restore hq hcancel hfind hs' =>
    rw [hs']
    exact hs.lulls (.of_eq rfl rfl)

theorem Step.restful_finish {job : Job} {handed : List (Text × NodeId)} {m : Moment}
    (h : Step { c with stages := [] } xmlParser env files steps
      ⟨.starting job.request job.doc job.extended job.agenda, s, handed⟩ m) (hs : s.AtRest) :
    (m.instant c).Restful env := by
  have hhand : ∀ name doc, handOver { c with stages := [] } name doc =
      Language.keepDocument name doc :=
    fun _ _ => show c.handOver _ _ = _ from handOver_eq hc
  obtain ⟨request, doc, extended, a⟩ := job
  cases h with
  | load hl hstages hover =>
    cases hstages
    rw [hhand] at hover
    exact hs.lulls (Language.keepDocument_lulls.yields _ _ hover)
  | extend hl hext hchain hstages hover =>
    cases hstages
    rw [hhand] at hover
    exact hs.lulls (Language.keepDocument_lulls.yields _ _ hover)
  | output hl hout hstages hpromote =>
    cases hstages
    exact hs.lulls (promoteSnippet_lulls.yields _ _ hpromote)

/-- **Every tick** preserves what holds. -/
theorem Tick.restful (hr : c.setup = .ok reg)
    (h : c.Tick xmlParser ⟨c.dialect, reg⟩ files steps i i')
    (g : i.Guarded (namespaceIdOf c.dialect))
    (hi : i.Restful ⟨c.dialect, reg⟩) : i'.Restful ⟨c.dialect, reg⟩ := by
  cases h with
  | round hstep => exact hstep.restful hc hi
  | enter =>
    refine ⟨_, hi, fun hk => ?_, .refl⟩
    cases g with
    | fresh g _ => exact g.sublist (List.singleton_sublist.mpr List.mem_cons_self)
    | changed _ _ => cases hk
  | walk hstep =>
    obtain ⟨s, hs, hguards, hwalk⟩ := hi
    exact ⟨s, hs, hguards, hwalk.tail hstep⟩
  | leave hstep =>
    rename_i job k stages w s
    obtain ⟨s₀, hs, hguards, hwalk⟩ := hi
    obtain ⟨n, hrun⟩ := exists_run hwalk hstep
    cases k with
    | manipulation =>
      exact Language.run_atRest (Language.fluent_of_setup hc hr) ⟨hguards rfl, hs⟩ hrun
    | processing =>
      exact hs.lulls (Language.processing_lulls (Language.marking_of_setup hc hr) hrun)
  | custom => cases g
  | finish hstep => exact hstep.restful_finish hc hi

theorem restful_of_course (hr : c.setup = .ok reg)
    (h : ReflTransGen (c.Tick xmlParser ⟨c.dialect, reg⟩ files steps)
      ((opening name s₀).instant c) i) :
    i.Restful ⟨c.dialect, reg⟩ := by
  induction h with
  | refl => exact ⟨rfl, rfl, fun _ => rfl⟩
  | tail hcourse htick ih => exact htick.restful hc hr (guarded_of_course hc hr hcourse) ih

/-- **Every run of the stage that changes the tree begins prepared.** -/
theorem prepared_of_course (hr : c.setup = .ok reg) {job : Job} {stages : List StageOf}
    (h : ReflTransGen (c.Tick xmlParser ⟨c.dialect, reg⟩ files steps) ((opening name s₀).instant c)
      (.working job (.standard .manipulation :: stages) s)) :
    s.Prepared (namespaceIdOf c.dialect) job.doc := by
  have hrest := restful_of_course hc hr h
  cases guarded_of_course hc hr h with
  | fresh g _ => exact ⟨g.sublist (List.singleton_sublist.mpr List.mem_cons_self), hrest⟩

end Ticks

/-- **What belongs to expansions balances.** Every run of the stage that changes the tree, in every
build, begins with nothing under way. A run in which every call of a handler is checked, before and
after, to find the names in use to be those of the expansions of uses under way, in order and none
twice, comes to the same as the run itself, whatever failure a check would give; so none ever fails.
And when a run succeeds, no expansion is under way, no name is in use, and nobody waits to be called
again. The table of definitions holds only elements that define something: those from before the run
and those that were entered, name by name in this order. Of the default content of every expansion
that was under way after some call, nothing is in the table, and everything in it is taken apart. -/
theorem expansions_balance [Encoding.Decoders] {config : Config} {c : Compiler} {reg : Registry}
    (hc : withLanguage config = .ok c) (hr : c.setup = .ok reg) :
    (∀ files steps name s₀ job stages s,
      ReflTransGen (c.Tick xmlParser ⟨c.dialect, reg⟩ files steps) ((opening name s₀).instant c)
        (.working job (.standard .manipulation :: stages) s) →
      s.Prepared (namespaceIdOf c.dialect) job.doc ∧ s.Balanced) ∧
    (∀ f steps doc s, s.Balanced →
      Stage.run (.asserting Session.Balanced f ⟨c.dialect, reg⟩) .manipulation steps doc s =
        Stage.run ⟨c.dialect, reg⟩ .manipulation steps doc s) ∧
    ∀ steps doc s s', s.Prepared (namespaceIdOf c.dialect) doc →
      Stage.run ⟨c.dialect, reg⟩ .manipulation steps doc s = some (.ok (), s') →
      s'.AtRest ∧
      (∀ z b, b ∈ s'.definitions.bodiesOf z →
        isNamed s'.store b (namespaceIdOf c.dialect) ["macro"]) ∧
      ∃ s₁ log, (Stage.manipulation ⟨c.dialect, reg⟩).logging.walk steps (some doc)
          ((Language.start doc s).state, []) = some (.ok (), s₁, log) ∧
        s' = { s₁ with trace := .finish StageKind.manipulation.name :: s₁.trace } ∧
        (∀ z, s'.definitions.bodiesOf z =
          s.definitions.bodiesOf z ++ Language.reached c.dialect z log) ∧
        ∀ call t x f m, (call, t) ∈ log → x ∈ t.definitions.active → x.fallback = some f →
          t.store.Above f m → (∀ z, f ∉ s'.definitions.bodiesOf z) ∧ s'.store.Lone m := by
  have henv := Language.fluent_of_setup hc hr
  refine ⟨fun files steps name s₀ job stages s hcourse => ?_, fun f steps doc s hs =>
    Language.run_asserting henv.toSpoken hs, fun steps doc s s' hs hrun => ?_⟩
  · have hs := prepared_of_course hc hr hcourse
    exact ⟨hs, hs.rest.balanced⟩
  have hrest := Language.run_atRest henv hs hrun
  obtain ⟨s₁, log, hwalk, hs', hp⟩ := Language.run_passes henv hs hrun
  have hnamed : ∀ z b, b ∈ s'.definitions.bodiesOf z →
      isNamed s'.store b (namespaceIdOf c.dialect) ["macro"] := fun z b hb => by
    rcases (hp.guards.bodies z b hb).2 with hnamed | ⟨x, hx, -⟩
    · exact hnamed
    · rw [hrest.active] at hx
      cases hx
  refine ⟨hrest, hnamed, s₁, log, hwalk, hs', hp.bodies, fun call t x f m hlog hx hf hm => ?_⟩
  rcases hp.fallbacks (call, t) x f m hlog hx hf hm with ⟨hx, -⟩ | ⟨hun, hlone⟩
  · rw [hs.rest.active] at hx
    cases hx
  · exact ⟨fun z hfz => (Language.qualified_of_isNamed (hnamed z f hfz)).not_unqualified hun, hlone⟩

/-- A template with a definition, and a place of use with default content. -/
def defaulting : Files where
  entries :=
    [("main", "<d:template xmlns:d=\"http://xml.invenzzia.org/declari\">" ++
        "<d:macro name=\"m\">x<d:parent/></d:macro><d:use macro=\"m\">y</d:use></d:template>")]

/-- The definition is all that is left in the table when the use is expanded. -/
theorem defaulting_balances :
    ∃ c reg job stages s s' b, withLanguage { maxSourceSize := [] } = .ok c ∧ c.setup = .ok reg ∧
    ReflTransGen (c.Tick xmlParser ⟨c.dialect, reg⟩ defaulting 30) ((opening "main" {}).instant c)
      (.working job (.standard .manipulation :: stages) s) ∧
    Stage.run ⟨c.dialect, reg⟩ .manipulation 30 job.doc s = some (.ok (), s') ∧ s'.AtRest ∧
    s'.definitions.bodiesOf "m" = [b] ∧ isNamed s'.store b (namespaceIdOf c.dialect) ["macro"] := by
  have hrun : (withLanguage { maxSourceSize := [] }).toOption.any fun c =>
    c.setup.toOption.any fun reg =>
      ((do
        let r ← (c.readTemplate xmlParser defaulting "main" "main").toProcess
        Stage.run ⟨c.dialect, reg⟩ .manipulation 30 r.1
        return r.2 : Process Failure Session _) (opening "main" {}).session).any fun o =>
          o.1.toOption.any fun x => x = ([], []) && (o.2.definitions.bodiesOf "m").length = 1 := by
    decide +kernel
  obtain ⟨c, hc, hrun⟩ := exists_of_any hrun
  obtain ⟨reg, hr, hrun⟩ := exists_of_any hrun
  obtain ⟨refs, s', hrun, hfacts⟩ := Process.exists_of_any hrun
  simp only [Bool.and_eq_true, decide_eq_true_eq] at hfacts
  obtain ⟨rfl, hone⟩ := hfacts
  obtain ⟨⟨doc, refs⟩, s, hread, hrun⟩ := Process.exists_of_bind_ok hrun
  obtain ⟨⟨⟩, t, hstage, hdone⟩ := Process.exists_of_bind_ok hrun
  obtain ⟨hrefs, rfl⟩ := Prod.mk.inj (Option.some.inj hdone)
  obtain rfl := Except.ok.inj hrefs
  have hcourse : ReflTransGen (c.Tick xmlParser ⟨c.dialect, reg⟩ defaulting 30)
      ((opening "main" {}).instant c)
      (.working ⟨⟨"main", false, ["main"]⟩, doc, [],
        { Agenda.start "main" with queue := [] }⟩ c.stages s) :=
    opening_ticks rfl (Option.some.inj hread)
  rw [(Language.parts_of_withLanguage hc).2] at hcourse
  obtain ⟨b, hb⟩ := List.length_eq_one_iff.mp hone
  obtain ⟨hprepared, -, hruns⟩ := expansions_balance hc hr
  have hs := (hprepared _ _ _ _ _ _ _ hcourse).1
  obtain ⟨hrest, hnamed, -⟩ := hruns _ _ _ _ hs hstage
  exact ⟨c, reg, _, _, s, t, b, hc, hr, hcourse, hstage, hrest, hb,
    hnamed "m" b (hb ▸ List.mem_cons_self)⟩

end Compiler

end Stencil

/-! ## Default content in every build

What was shown for one walk over a document that is apart from the definitions holds of every state
of every run of the stage that changes the tree, in every build: each such run begins prepared, and
its states are those of the walk that writes down which handlers are called. Default content
therefore never stands behind a definition that was entered since its expansion began
(`Compiler.defaults_trail`), and `redefining` is a template where one stands behind it. -/

namespace Stencil

open Relation (ReflTransGen)
open Stencil.Tree (NodeId Visitor Walk)
open Stencil.Language (namespaceIdOf isNamed reached Trails)

namespace Tree.Visitor

variable {ε σ : Type} {v : Visitor ε σ} {w w' : Walk σ} {k : Nat}

/-- The walk after some steps, unless it has come to its end. -/
def after (v : Visitor ε σ) : Nat → Walk σ → Option (Walk σ)
  | 0, w => some w
  | k + 1, w => (v.step w).getRight?.bind (v.after k)

theorem steps_of_after (h : v.after k w = some w') :
    ReflTransGen (fun w w' => v.step w = .inr w') w w' := by
  induction k generalizing w with
  | zero =>
    obtain rfl := Option.some.inj h
    exact .refl
  | succ k ih =>
    obtain ⟨w₁, hstep, hrest⟩ := Option.bind_eq_some_iff.mp h
    exact .head (Sum.getRight?_eq_some_iff.mp hstep) (ih hrest)

end Tree.Visitor

namespace Compiler

/-- **Where default content stands.** In every state of every run of the stage that changes the
tree, in every build, the default content of an expansion under way stands in the table of its name
between the definitions from before the expansion and those that were entered since. All of these
come from elements that define something. So it is the last one if and only if none was entered
since. A chain of requests for a further definition that starts from the expansion gets it after as
many as there were when the expansion began, no matter what stands behind it. -/
theorem defaults_trail [Encoding.Decoders] {config : Config} {c : Compiler} {reg : Registry}
    (hc : withLanguage config = .ok c) (hr : c.setup = .ok reg) {files : Files}
    {steps : Nat} {name : Text}
    {s₀ : Session} {job : Job} {stages : List StageOf} {w : Walk Session}
    (h : ReflTransGen (c.Tick xmlParser ⟨c.dialect, reg⟩ files steps) ((opening name s₀).instant c)
      (.walking job .manipulation stages w)) :
    ∃ s log, s.Prepared (namespaceIdOf c.dialect) job.doc ∧
      ReflTransGen (fun u u' => (Stage.manipulation ⟨c.dialect, reg⟩).logging.step u = .inr u')
        ⟨[job.doc], [], (Language.start job.doc s).state, []⟩ ⟨w.queue, w.stack, w.state, log⟩ ∧
      ∀ x f, x ∈ w.state.definitions.active → x.fallback = some f → ∃ before later,
        Trails c.dialect log w.state x f before later ∧
        (∀ b ∈ before ++ reached c.dialect x.name later,
          isNamed w.state.store b (namespaceIdOf c.dialect) ["macro"]) ∧
        ((w.state.definitions.bodiesOf x.name).getLast? = some f ↔
          reached c.dialect x.name later = []) ∧
        ∀ chain outer, w.state.definitions.active = chain ++ x :: outer → (∀ y ∈ chain, y.nested) →
          ∃ y ∈ w.state.definitions.active.head?, y.name = x.name ∧
            ((w.state.definitions.bodiesOf y.name)[y.index + 1]? = some f ↔
              chain.length + 1 = before.length) := by
  obtain ⟨s, hs, hguards, hwalk⟩ := restful_of_course hc hr h
  have henv := Language.fluent_of_setup hc hr
  obtain ⟨u, hu, rfl⟩ := Visitor.logging_covers.exists_steps
    (w := ⟨[job.doc], [], (Language.start job.doc s).state, []⟩) hwalk
  have hprepared : s.Prepared (namespaceIdOf c.dialect) job.doc := ⟨hguards rfl, hs⟩
  obtain ⟨g, horderly, htrails⟩ := Language.tracked_of_steps henv hprepared hu
  refine ⟨s, u.state.2, hprepared, hu, fun x f hx hf => ?_⟩
  obtain ⟨before, later, htrail⟩ := htrails x f hx hf
  refine ⟨before, later, htrail, fun b hb => htrail.isNamed_of_mem g horderly hx hf hb,
    htrail.getLast?_eq_iff, fun chain outer hactive hchain => ?_⟩
  have hlinked := horderly.linked
  have huse := horderly.nested_eq_false hx hf
  rw [show u.state.1.definitions.active = _ from hactive] at hlinked
  obtain ⟨y, hy, hname, hindex⟩ := hlinked.exists_head? huse hchain
  refine ⟨y, hactive ▸ hy, hname, ?_⟩
  rw [hname, hindex]
  exact htrail.getElem?_eq_iff _

/-- A template with a definition that defines the same name once more, and a place of use with
default content. -/
def redefining : Files where
  entries :=
    [("main", "<d:template xmlns:d=\"http://xml.invenzzia.org/declari\">" ++
        "<d:macro name=\"m\"><d:macro name=\"m\">inner</d:macro><d:parent/></d:macro>" ++
        "<d:use macro=\"m\">default</d:use></d:template>")]

/-- When the inner definition has been entered, it stands behind the default content. -/
theorem redefining_trails : ∃ c reg job stages w log x f before later,
    withLanguage { maxSourceSize := [] } = .ok c ∧ c.setup = .ok reg ∧
    ReflTransGen (c.Tick xmlParser ⟨c.dialect, reg⟩ redefining 30) ((opening "main" {}).instant c)
      (.walking job .manipulation stages w) ∧
    x ∈ w.state.definitions.active ∧ x.fallback = some f ∧
    Trails c.dialect log w.state x f before later ∧ reached c.dialect x.name later ≠ [] := by
  have hrun : (withLanguage { maxSourceSize := [] }).toOption.any fun c =>
    c.setup.toOption.any fun reg =>
      ((c.readTemplate xmlParser redefining "main" "main").toProcess
          (opening "main" {}).session).any fun o =>
        o.1.toOption.any fun x => x.2 = ([], []) && o.2.canceled = false &&
          ((Stage.manipulation ⟨c.dialect, reg⟩).after 5 (Language.start x.1 o.2)).any fun w =>
            w.state.definitions.active.any fun x =>
              x.fallback.isSome && (w.state.definitions.bodiesOf x.name).getLast? ≠ x.fallback := by
    decide +kernel
  obtain ⟨c, hc, hrun⟩ := exists_of_any hrun
  obtain ⟨reg, hr, hrun⟩ := exists_of_any hrun
  obtain ⟨⟨doc, refs⟩, s, hread, hfacts⟩ := Process.exists_of_any hrun
  simp only [Bool.and_eq_true, decide_eq_true_eq, Option.any_eq_true, List.any_eq_true] at hfacts
  obtain ⟨⟨rfl, hcanceled⟩, w, hw, x, hx, hsome, hlast⟩ := hfacts
  obtain ⟨f, hf⟩ := Option.isSome_iff_exists.mp hsome
  have hcourse : ReflTransGen (c.Tick xmlParser ⟨c.dialect, reg⟩ redefining 30)
      ((opening "main" {}).instant c)
      (.working ⟨⟨"main", false, ["main"]⟩, doc, [],
        { Agenda.start "main" with queue := [] }⟩ c.stages s) :=
    opening_ticks rfl (Option.some.inj hread)
  rw [(Language.parts_of_withLanguage hc).2] at hcourse
  have hwalk := (hcourse.tail (.enter hcanceled)).trans
    ((Visitor.steps_of_after hw).lift (Instant.walking _ .manipulation _) fun _ _ => Tick.walk)
  obtain ⟨s₁, log, -, -, htrails⟩ := defaults_trail hc hr hwalk
  obtain ⟨before, later, htrail, -, hbehind, -⟩ := htrails x f hx hf
  exact ⟨c, reg, _, _, w, log, x, f, before, later, hc, hr, hwalk, hx, hf, htrail,
    fun hnone => hlast (hf ▸ hbehind.mpr hnone)⟩

end Compiler

end Stencil
