import Stencil.Language.Basic
import Stencil.Proofs.Compiler.Session

/-!
# What failures blame

Most of what can fail fails for causes of its own. Two causes say more: one blames a template for
not being loaded, the other shows names that lead back to themselves. Each of them comes from few
places, which is a matter of what the work is made of, not of the state it finds. So the lemmas go
through the parts of a compilation, each of them for every state, and leave out the places in
question. They hold of every kind of failure that takes in all other causes and does not depend on
contexts (`Failure.Broad`).

## Main definitions

* `Action.FailsOnly` – all errors of an action are of a kind
* `Action.Tame` – they are, and something holds between the states before and after
* `Action.Ends` – what comes of an action
* `Process.Ends` – what holds when a process comes to an end
* `Failure.Broad` – kinds of failures that take in all ordinary ones
* `Failure.Spares` – a failure that does not blame a template for not being loaded
* `Failure.Straight` – a failure that does not show names that lead back to themselves
* `Blames` – an outcome that is no failure of another kind

## Main results

* `Action.FailsOnly.bind`, `Action.FailsOnly.forM`, `Action.Ends.bind`, `Action.Ends.forM` – the
  rules
* `blames_extractAttributes`, `blames_readSource` – outcomes
* `Work.extract_fails`, `Work.atNode_fails` – actions
-/

namespace Stencil

open Stencil.Tree (NodeId Store)

/-! ### Errors of actions -/

namespace Action

variable {ε σ α β : Type} {F : ε → Prop}

/-- If the action fails, `F` holds of the error. -/
def FailsOnly (F : ε → Prop) (x : Action ε σ α) (s : σ) : Prop := ∀ e s', x s = (.error e, s') → F e

namespace FailsOnly

variable {x : Action ε σ α} {f : α → Action ε σ β} {s : σ}

theorem bind (h : x.FailsOnly F s) (hf : ∀ a s', x s = (.ok a, s') → (f a).FailsOnly F s') :
    (x >>= f).FailsOnly F s := by
  intro e s' he
  rw [bind_apply] at he
  cases hx : x s with
  | mk r s₁ =>
    rw [hx] at he
    cases r with
    | error e' =>
      cases he
      exact h _ _ hx
    | ok a => exact hf a s₁ hx e s' he

theorem pure {a : α} : (pure a : Action ε σ α).FailsOnly F s := nofun

theorem throw {e : ε} (h : F e) : (throw e : Action ε σ α).FailsOnly F s := by
  intro e' s' he
  cases he
  exact h

theorem get : (get : Action ε σ σ).FailsOnly F s := nofun

theorem modify {g : σ → σ} : (modify g : Action ε σ PUnit).FailsOnly F s := nofun

theorem map {g : α → β} (h : x.FailsOnly F s) : (g <$> x).FailsOnly F s := by
  rw [map_eq_pure_bind]
  exact bind h fun _ _ _ => pure

/-- A loop without result. -/
theorem forM {g : α → Action ε σ PUnit} (hg : ∀ a s, (g a).FailsOnly F s) (l : List α) :
    (l.forM g).FailsOnly F s := by
  induction l generalizing s with
  | nil => exact pure
  | cons a l ih => exact bind (hg a s) fun _ _ _ => ih

end FailsOnly

/-- Whether the action succeeds or fails, `R` holds between the states before and after it, and if
it fails, `F` holds of the error. -/
structure Tame (R : σ → σ → Prop) (F : ε → Prop) (x : Action ε σ α) (s : σ) : Prop where
  keeps : x.Keeps R s
  fails : x.FailsOnly F s

namespace Tame

variable {R : σ → σ → Prop} {x : Action ε σ α} {f : α → Action ε σ β} {s : σ}

theorem bind [Trans R R R] (h : x.Tame R F s) (hf : ∀ a s', x s = (.ok a, s') → (f a).Tame R F s') :
    (x >>= f).Tame R F s :=
  ⟨h.keeps.bind fun a s' hx => (hf a s' hx).keeps, h.fails.bind fun a s' hx => (hf a s' hx).fails⟩

theorem pure [Std.Refl R] {a : α} : (pure a : Action ε σ α).Tame R F s := ⟨.pure, .pure⟩

theorem forM [Std.Refl R] [Trans R R R] {g : α → Action ε σ PUnit} {l : List α}
    (hg : ∀ a s, (g a).Tame R F s) : (l.forM g).Tame R F s :=
  ⟨.forM fun a _ s => (hg a s).keeps, .forM (fun a s => (hg a s).fails) l⟩

end Tame

/-- What comes of an action: if it succeeds, `Q` holds of its result and of the state after it, and
if it fails, `E` holds of the error and of the state after it. -/
structure Ends (E : ε → σ → Prop) (x : Action ε σ α) (s : σ) (Q : α → σ → Prop) : Prop where
  yields : x.Yields s Q
  fails (e : ε) (s' : σ) : x s = (.error e, s') → E e s'

namespace Ends

variable {E E' : ε → σ → Prop} {x y : Action ε σ α} {f : α → Action ε σ β}
  {s : σ} {Q Q' : α → σ → Prop}
  {P : β → σ → Prop}

/-- For errors of a kind the state after them does not matter. -/
theorem of_failsOnly (h : x.Yields s Q) (hF : x.FailsOnly F s) (hE : ∀ e s', F e → E e s') :
    x.Ends E s Q :=
  ⟨h, fun e s' he => hE e s' (hF e s' he)⟩

theorem imp (h : x.Ends E s Q) (hQ : ∀ a s', Q a s' → Q' a s') :
    x.Ends E s Q' := ⟨h.yields.imp hQ, h.fails⟩

theorem mono (h : x.Ends E s Q) (hE : ∀ e s', E e s' → E' e s') : x.Ends E' s Q :=
  ⟨h.yields, fun e s' he => hE e s' (h.fails e s' he)⟩

theorem congr (h : x s = y s) (hy : y.Ends E s Q) : x.Ends E s Q :=
  ⟨fun a s' ha => hy.yields a s' (h ▸ ha), fun e s' he => hy.fails e s' (h ▸ he)⟩

theorem bind (h : x.Ends E s fun a s' => (f a).Ends E s' P) : (x >>= f).Ends E s P := by
  refine ⟨.bind (h.yields.imp fun _ _ hf => hf.yields), fun e s' he => ?_⟩
  rw [bind_apply] at he
  rcases hx : x s with ⟨e' | a, s₁⟩ <;> rw [hx] at he
  · cases he
    exact h.fails _ _ hx
  · exact (h.yields a s₁ hx).fails e s' he

theorem pure {a : α} (h : Q a s) : (pure a : Action ε σ α).Ends E s Q := ⟨.pure h, nofun⟩

/-- A loop without result. -/
theorem forM {g : α → Action ε σ PUnit} {I : List α → σ → Prop}
    (hstep : ∀ a l s, I (a :: l) s → (g a).Ends E s fun _ s' => I l s') (l : List α) (h : I l s) :
    (l.forM g).Ends E s fun _ s' => I [] s' := by
  induction l generalizing s with
  | nil => exact pure h
  | cons a l ih => exact bind ((hstep a l s h).imp fun _ _ hs' => ih hs')

end Ends

end Action

/-! ### Ends of processes -/

namespace Process

variable {ε δ σ α β : Type} {F : ε → Prop} {Q : α → σ → Prop} {s : σ}

/-- If the process comes to an end, `Q` holds of the result and the state, or `F` of the error. -/
structure Ends (F : ε → Prop) (p : Process ε σ α) (s : σ) (Q : α → σ → Prop) : Prop where
  ok (a : α) (s' : σ) : p s = some (.ok a, s') → Q a s'
  error (e : ε) (s' : σ) : p s = some (.error e, s') → F e

namespace Ends

variable {p : Process ε σ α} {f : α → Process ε σ β} {P : β → σ → Prop} {Q' : α → σ → Prop}

theorem congr {q : Process ε σ α} (h : p s = q s) (hq : q.Ends F s Q) : p.Ends F s Q :=
  ⟨fun a s' hp => hq.ok a s' (h ▸ hp), fun e s' hp => hq.error e s' (h ▸ hp)⟩

theorem imp (h : p.Ends F s Q) (hQ : ∀ a s', Q a s' → Q' a s') : p.Ends F s Q' :=
  ⟨fun a s' hp => hQ a s' (h.ok a s' hp), h.error⟩

theorem bind (h : p.Ends F s fun a s' => (f a).Ends F s' P) : (p >>= f).Ends F s P := by
  constructor
  · intro b s' hb
    rw [bind_apply] at hb
    split at hb
    · cases hb
    · rename_i hp
      exact (h.ok _ _ hp).ok b s' hb
    · cases hb
  · intro e s' he
    rw [bind_apply] at he
    split at he
    · cases he
    · rename_i hp
      exact (h.ok _ _ hp).error e s' he
    · rename_i hp
      cases he
      exact h.error _ _ hp

theorem pure {a : α} (h : Q a s) : (pure a : Process ε σ α).Ends F s Q := by
  constructor
  · intro b s' hb
    cases hb
    exact h
  · exact nofun

theorem throw {e : ε} (h : F e) : (throw e : Process ε σ α).Ends F s Q := by
  constructor
  · exact nofun
  · intro e' s' he
    cases he
    exact h

theorem unfinished : (unfinished : Process ε σ α).Ends F s Q := ⟨nofun, nofun⟩

theorem toProcess {x : Action ε σ α} (h : x.Yields s Q) (hF : x.FailsOnly F s) :
    x.toProcess.Ends F s Q := by
  constructor
  · intro a s' ha
    exact h a s' (Option.some.inj ha)
  · intro e s' he
    exact hF e s' (Option.some.inj he)

theorem mapError {G : δ → Prop} {g : ε → δ} (h : p.Ends F s Q) (hg : ∀ e, F e → G (g e)) :
    (p.mapError g).Ends G s Q := by
  constructor
  · intro a s' ha
    rw [Process.mapError] at ha
    split at ha
    · cases ha
    · rename_i hp
      cases ha
      exact h.ok _ _ hp
    · cases ha
  · intro e s' he
    rw [Process.mapError] at he
    split at he
    · cases he
    · cases he
    · rename_i hp
      cases he
      exact hg _ (h.error _ _ hp)

end Ends

end Process

/-! ### Failures -/

/-- The cause neither blames a template for not being loaded nor shows names that lead back to
themselves. -/
def Cause.isPlain : Cause → Bool
  | .notLoaded _ | .recursion _ => false
  | _ => true

/-- A kind of failures that takes in all plain causes, in every context. -/
class Failure.Broad (F : Failure → Prop) : Prop where
  plain {f : Failure} : f.cause.isPlain → F f
  same {f f' : Failure} : f'.cause = f.cause → F f → F f'

/-- The failure does not blame a template for not being loaded. -/
def Failure.Spares (f : Failure) : Prop := ∀ t, f.cause ≠ .notLoaded t

/-- The failure does not show names that lead back to themselves. -/
def Failure.Straight (f : Failure) : Prop := ∀ r, f.cause ≠ .recursion r

namespace Failure

variable {F : Failure → Prop} {f : Failure}

instance : Broad Spares where
  plain h t ht := by
    rw [ht] at h
    cases h
  same h hf t ht := hf t (h ▸ ht)

instance : Broad Straight where
  plain h r hr := by
    rw [hr] at h
    cases h
  same h hf r hr := hf r (h ▸ hr)

theorem cause_atNode (f : Failure) (s : Store) (n : NodeId) : (f.atNode s n).cause = f.cause := by
  rw [atNode]
  split <;> rfl

theorem cause_inTemplate (f : Failure) (name : Text) : (f.inTemplate name).cause = f.cause := by
  rw [inTemplate]
  split <;> rfl

theorem isPlain_ofReadError (e : Markup.ReadError Tree.AssemblyError) :
    (ofReadError e).cause.isPlain := by
  cases e <;> rfl

variable [Broad F]

theorem broad {c : Cause} (h : c.isPlain) : F (of c) := Broad.plain h

theorem broad_ofTree (e : Tree.TreeError) : F (ofTree e) := broad rfl

theorem broad_within {c : Context} (h : F f) : F (f.within c) := Broad.same (f := f) rfl h

end Failure

/-- If the outcome is a failure, it is of a kind. -/
def Blames {α : Type} (F : Failure → Prop) (x : Except Failure α) : Prop := ∀ f, x = .error f → F f

namespace Blames

variable {α β : Type} {F : Failure → Prop} {x : Except Failure α} {g : α → Except Failure β}

theorem ok {a : α} : Blames F (.ok a) := nofun

theorem error {f : Failure} (h : F f) : Blames F (.error f : Except Failure α) := by
  intro f' hf
  cases hf
  exact h

/-- A plain failure is of every kind that matters here. -/
theorem plain [Failure.Broad F] {f : Failure} (h : f.cause.isPlain) :
    Blames F (.error f : Except Failure α) :=
  error (Failure.Broad.plain h)

theorem bind (h : Blames F x) (hg : ∀ a, Blames F (g a)) : Blames F (x >>= g) := by
  cases x with
  | error f => exact error (h f rfl)
  | ok a => exact hg a

theorem map {f : α → β} (h : Blames F x) : Blames F (x.map f) := by
  cases x with
  | error e => exact error (h e rfl)
  | ok a => exact ok

theorem mapM (hg : ∀ a, Blames F (g a)) (l : List α) : Blames F (l.mapM g) := by
  induction l with
  | nil => exact ok
  | cons a l ih =>
    rw [List.mapM_cons]
    exact bind (hg a) fun _ => bind ih fun _ => ok

end Blames

/-! ### Outcomes -/

section Outcomes

variable {F : Failure → Prop} [Failure.Broad F] {d : Dialect} {s : Store}
  {e : NodeId} {c : Compiler}

theorem blames_compile {source engine : Text} : Blames F (d.compile source engine) := by
  rw [Dialect.compile]
  split
  · rename_i f hf
    refine .plain ?_
    rw [Dialect.engine] at hf
    split at hf <;> cases hf
    rfl
  · split
    · exact .ok
    · exact .plain rfl

theorem blames_fixedValue {name element t : Text} {kind : AttributeKind} :
    Blames F (fixedValue name element kind t) := by
  unfold fixedValue
  dsimp only
  repeat' split
  all_goals first | exact .ok | exact .plain rfl

theorem blames_attributeValue {spec : AttributeSpec} {name element : Text} {v : Tree.Value} :
    Blames F (attributeValue d spec name element v) := by
  unfold attributeValue
  split
  · dsimp only
    split
    · exact .plain rfl
    · exact .map blames_compile
  · split
    · exact .plain rfl
    · exact blames_fixedValue

theorem blames_extractAttributes {specs : List AttributeSpec} {others : Option AttributeSpec} :
    Blames F (extractAttributes d s e specs others) := by
  have hdemanded : ∀ spec, Blames F (extractDemanded d s e spec) := by
    intro spec
    rw [extractDemanded]
    repeat' split
    all_goals first | exact .ok | exact .map blames_attributeValue | exact .plain rfl
  have hother : ∀ spec a, Blames F (extractOther d s e (specs.map (·.name)) spec a) := by
    intro spec a
    rw [extractOther]
    repeat' split
    all_goals first | exact .ok | exact .map blames_attributeValue
  refine .bind (.mapM hdemanded specs) fun values => ?_
  dsimp only
  split
  · exact .bind .ok fun _ => .ok
  · exact .bind (.mapM (hother _) _) fun _ => .ok

theorem blames_readSource {files : Files} {name path : Text} {limit : Nat} :
    Blames F (files.readSource name path limit) := by
  rw [Files.readSource]
  dsimp only
  repeat' split
  all_goals first | exact .ok | exact .plain rfl

end Outcomes

/-! ### Actions -/

namespace Work

variable {α : Type} {F : Failure → Prop} {s : Session} {n : NodeId}

theorem store_fails : store.FailsOnly F s := .bind .get fun _ _ _ => .pure

theorem modifyStore_fails {f : Store → Store} : (modifyStore f).FailsOnly F s := .modify

theorem fresh_fails {f : Store → NodeId × Store} : (fresh f).FailsOnly F s :=
  .bind store_fails fun _ _ _ => .bind modifyStore_fails fun _ _ _ => .pure

theorem lift_fails {x : Except Failure α} (h : Blames F x) : (lift x).FailsOnly F s := by
  cases x with
  | ok a => exact .pure
  | error f => exact .throw (h f rfl)

theorem leaving_fails {label : Text} {nodes : List NodeId} {w : Work α}
    (h : w.FailsOnly F s) : (leaving label nodes w).FailsOnly F s := by
  intro f s' hf
  rw [leaving] at hf
  split at hf
  · cases hf
  · rename_i hw
    cases hf
    exact h _ _ hw

theorem enqueueEach_fails {label : Text} {f : α → Work (Option NodeId)} {nodes : List NodeId}
    (hf : ∀ a s, (f a).FailsOnly F s) (l : List α) :
    (enqueueEach label f nodes l).FailsOnly F s := by
  induction l generalizing s nodes with
  | nil => exact .pure
  | cons a l ih => exact .bind (leaving_fails (hf a s)) fun _ _ _ => ih

section

variable [Failure.Broad F]

theorem tree_fails {f : Store → Except Tree.TreeError Store} : (tree f).FailsOnly F s := by
  refine .bind store_fails fun t _ _ => ?_
  split
  · exact modifyStore_fails
  · exact .throw (Failure.broad_ofTree _)

theorem extract_fails {d : Dialect} {e : NodeId} {specs : List AttributeSpec}
    {others : Option AttributeSpec} : (extract d e specs others).FailsOnly F s :=
  .bind store_fails fun _ _ _ => lift_fails blames_extractAttributes

theorem fail_fails {c : Cause} (h : c.isPlain) : (fail c : Work α).FailsOnly F s :=
  .throw (Failure.broad h)

theorem atNode_fails {w : Work α} (h : w.FailsOnly F s) : (atNode n w).FailsOnly F s := by
  intro f s' hf
  rw [atNode] at hf
  split at hf
  · cases hf
  · rename_i f' s₁ hw
    cases hf
    exact Failure.Broad.same (Failure.cause_atNode ..) (h _ _ hw)

theorem checkCanceled_fails : checkCanceled.FailsOnly F s := by
  refine .bind .get fun t _ _ => ?_
  split
  · exact fail_fails rfl
  · exact .pure

theorem checkCanceled_ends {Q : Unit → Session → Prop} (h : s.canceled = false → Q () s) :
    checkCanceled.toProcess.Ends F s Q := by
  refine .toProcess (.bind (.get ?_)) checkCanceled_fails
  split
  · exact .throw
  · rename_i hcanceled
    exact .pure (h (by simpa using hcanceled))

end

end Work

end Stencil
