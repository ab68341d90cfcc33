import Mathlib.Data.Option.Basic
import Stencil.Data.Action

/-!
# Running actions and processes

Work is a function of the state, written with the notation of monads. These lemmas say what the
parts of the notation do when they are applied to a state, so that proofs follow a piece of work
from state to state without opening the monads it is made of.

Where only success matters, `Action.Yields` says what holds then; its rules follow the notation too,
and loops have a rule with an invariant about what is left to be done. `Action.Gives` says in
addition that the action succeeds. What holds of the state after a failure as well is a relation
between states that every part of the work keeps (`Action.Keeps`).

## Main definitions

* `Action.Yields` – what holds if an action succeeds
* `Action.Gives` – an action succeeds, and what holds then
* `Action.Keeps` – what holds between the states before and after an action
* `Process.Reaches` – what a process comes to, if its bound is great enough
* `Action.Respects`, `Process.Respects` – work that cannot tell states apart

## Main results

* `Action.Yields.bind`, `Action.Yields.forM` – the rules for success
* `Action.Keeps.bind`, `Action.Keeps.forM` – the rules for states
* `Action.Respects.bind`, `Action.Respects.getBind`, `Action.Respects.around` – the rules for
  actions
* `Process.Respects.bind`, `Process.Respects.around` – the rules for processes
-/

namespace Stencil

variable {ε σ α β : Type}

/-! ### Outcomes -/

/-- What succeeds after a first part succeeded in that part. -/
theorem exists_of_bind_ok {x : Except ε α} {f : α → Except ε β} {b : β} (h : x >>= f = .ok b) :
    ∃ a, x = .ok a ∧ f a = .ok b := by
  cases x with
  | error e => cases h
  | ok a => exact ⟨a, rfl, h⟩

/-- What fails after a first part failed in that part, or in what comes after it. -/
theorem error_of_bind_error {x : Except ε α} {f : α → Except ε β} {e : ε} (h : x >>= f = .error e) :
    x = .error e ∨ ∃ a, x = .ok a ∧ f a = .error e := by
  cases x with
  | error e' =>
    cases h
    exact .inl rfl
  | ok a => exact .inr ⟨a, rfl, h⟩

theorem exists_of_mapM_ok {f : α → Except ε β} {l : List α} {bs : List β} (h : l.mapM f = .ok bs)
    {a : α} (ha : a ∈ l) : ∃ b ∈ bs, f a = .ok b := by
  induction l generalizing bs with
  | nil => cases ha
  | cons a' l ih =>
    rw [List.mapM_cons] at h
    obtain ⟨b, hb, h⟩ := exists_of_bind_ok h
    obtain ⟨rest, hrest, h⟩ := exists_of_bind_ok h
    obtain rfl := Except.ok.inj h
    rcases List.mem_cons.mp ha with rfl | ha
    · exact ⟨b, List.mem_cons_self, hb⟩
    · obtain ⟨b', hb', hab⟩ := ih hrest ha
      exact ⟨b', List.mem_cons_of_mem _ hb', hab⟩

/-- A list on which work fails has an item on which it fails. -/
theorem exists_of_forM_error {f : α → Except ε Unit} {l : List α} {e : ε}
    (h : l.forM f = .error e) : ∃ a ∈ l, f a = .error e := by
  induction l with
  | nil => cases h
  | cons a l ih =>
    change (f a >>= fun _ => l.forM f) = _ at h
    rcases error_of_bind_error h with h | ⟨-, -, h⟩
    · exact ⟨a, List.mem_cons_self, h⟩
    · obtain ⟨b, hb, hf⟩ := ih h
      exact ⟨b, List.mem_cons_of_mem _ hb, hf⟩

/-- Changing failures changes nothing about success. -/
theorem mapError_eq_ok {ε' : Type} {g : ε → ε'} {x : Except ε α} {a : α}
    (h : x.mapError g = .ok a) : x = .ok a := by
  cases x with
  | error e => cases h
  | ok b => exact congrArg Except.ok (Except.ok.inj h)

/-- A success that was computed. -/
theorem eq_ok_of_toOption {x : Except ε α} {a : α} (h : x.toOption = some a) : x = .ok a := by
  cases x with
  | error e => cases h
  | ok b => exact congrArg Except.ok (Option.some.inj h)

theorem exists_of_toOption {r : Except ε α × σ} {a : α} (h : r.1.toOption = some a) :
    ∃ s, r = (.ok a, s) :=
  ⟨r.2, Prod.ext (eq_ok_of_toOption h) rfl⟩

theorem exists_of_any {x : Except ε α} {p : α → Bool} (h : x.toOption.any p) :
    ∃ a, x = .ok a ∧ p a := by
  cases x with
  | error e => cases h
  | ok a => exact ⟨a, rfl, h⟩

namespace Action

theorem bind_apply (x : Action ε σ α) (f : α → Action ε σ β) (s : σ) :
    (x >>= f) s = match x s with
      | (.ok a, s') => f a s'
      | (.error e, s') => (.error e, s') := by
  change (match x s with | (r, s') => (ExceptT.bindCont f r : StateM σ (Except ε β)) s') = _
  rcases x s with ⟨r | r, s'⟩ <;> rfl

theorem bind_ok {x : Action ε σ α} {f : α → Action ε σ β} {s s' : σ} {a : α}
    (h : x s = (.ok a, s')) : (x >>= f) s = f a s' := by
  rw [bind_apply, h]

theorem bind_congr {x y : Action ε σ α} {f : α → Action ε σ β} {s : σ} (h : x s = y s) :
    (x >>= f) s = (y >>= f) s := by
  rw [bind_apply, bind_apply, h]

theorem get_apply (s : σ) : (get : Action ε σ σ) s = (.ok s, s) := rfl

theorem modify_apply (f : σ → σ) (s : σ) : (modify f : Action ε σ PUnit) s = (.ok ⟨⟩, f s) := rfl

/-- An action for each item that does nothing. -/
theorem forM_eq {w : α → Action ε σ PUnit} {l : List α} {s : σ}
    (h : ∀ a ∈ l, w a s = (.ok ⟨⟩, s)) : l.forM w s = (.ok ⟨⟩, s) := by
  induction l with
  | nil => rfl
  | cons a l ih =>
    obtain ⟨ha, h⟩ := List.forall_mem_cons.mp h
    change (w a >>= fun _ => l.forM w) s = _
    rw [bind_ok ha]
    exact ih h

/-- A loop whose first rounds do nothing. -/
theorem forM_append_of_eq {w : α → Action ε σ PUnit} {l l' : List α} {s : σ}
    (h : ∀ a ∈ l, w a s = (.ok ⟨⟩, s)) : (l ++ l').forM w s = l'.forM w s := by
  induction l with
  | nil => rfl
  | cons a l ih =>
    obtain ⟨ha, h⟩ := List.forall_mem_cons.mp h
    change (w a >>= fun _ => (l ++ l').forM w) s = _
    rw [bind_ok ha]
    exact ih h

/-- If the action succeeds, `Q` holds of its result and of the state after it. -/
def Yields (x : Action ε σ α) (s : σ) (Q : α → σ → Prop) : Prop :=
  ∀ a s', x s = (.ok a, s') → Q a s'

namespace Yields

variable {x : Action ε σ α} {f : α → Action ε σ β} {s : σ} {Q Q' : α → σ → Prop}
  {P : β → σ → Prop}

theorem imp (h : x.Yields s Q) (hQ : ∀ a s', Q a s' → Q' a s') : x.Yields s Q' :=
  fun a s' hx => hQ a s' (h a s' hx)

theorem bind (h : x.Yields s fun a s' => (f a).Yields s' P) : (x >>= f).Yields s P := by
  intro b s' hb
  rw [bind_apply] at hb
  cases hx : x s with
  | mk r t =>
    cases r with
    | error e =>
      rw [hx] at hb
      cases hb
    | ok a =>
      rw [hx] at hb
      exact h a t hx b s' hb

theorem pure {a : α} (h : Q a s) : (pure a : Action ε σ α).Yields s Q := by
  intro b s' hb
  cases hb
  exact h

theorem throw {e : ε} : (throw e : Action ε σ α).Yields s Q := by
  intro a s' ha
  cases ha

theorem get {Q : σ → σ → Prop} (h : Q s s) : (get : Action ε σ σ).Yields s Q := by
  intro a s' ha
  cases ha
  exact h

theorem modify {g : σ → σ} {Q : PUnit → σ → Prop} (h : Q ⟨⟩ (g s)) :
    (modify g : Action ε σ PUnit).Yields s Q := by
  intro a s' ha
  cases ha
  exact h

theorem map {g : α → β} (h : x.Yields s fun a s' => P (g a) s') : (g <$> x).Yields s P := by
  rw [map_eq_pure_bind]
  exact bind (h.imp fun a s' ha => pure ha)

/-- A loop without result. -/
theorem forM {g : α → Action ε σ PUnit} {I : List α → σ → Prop}
    (hstep : ∀ a l s, I (a :: l) s → (g a).Yields s fun _ s' => I l s') (l : List α) (h : I l s) :
    (l.forM g).Yields s fun _ s' => I [] s' := by
  induction l generalizing s with
  | nil => exact pure h
  | cons a l ih =>
    exact bind ((hstep a l s h).imp fun _ s' hs' => ih hs')

end Yields

/-- The action succeeds, and `Q` holds of its result and of the state after it. -/
def Gives (x : Action ε σ α) (s : σ) (Q : α → σ → Prop) : Prop :=
  ∃ a s', x s = (.ok a, s') ∧ Q a s'

namespace Gives

variable {x : Action ε σ α} {f : α → Action ε σ β} {s : σ} {Q Q' : α → σ → Prop}
  {P : β → σ → Prop}

theorem imp (h : x.Gives s Q) (hQ : ∀ a s', Q a s' → Q' a s') : x.Gives s Q' := by
  obtain ⟨a, s', hx, ha⟩ := h
  exact ⟨a, s', hx, hQ a s' ha⟩

theorem bind (h : x.Gives s fun a s' => (f a).Gives s' P) : (x >>= f).Gives s P := by
  obtain ⟨a, s', hx, b, s'', hf, hb⟩ := h
  exact ⟨b, s'', by rw [bind_ok hx, hf], hb⟩

theorem pure {a : α} (h : Q a s) : (pure a : Action ε σ α).Gives s Q := ⟨a, s, rfl, h⟩

theorem get {Q : σ → σ → Prop} (h : Q s s) : (get : Action ε σ σ).Gives s Q := ⟨s, s, rfl, h⟩

theorem map {g : α → β} (h : x.Gives s fun a s' => P (g a) s') : (g <$> x).Gives s P := by
  rw [map_eq_pure_bind]
  exact bind (h.imp fun a s' ha => pure ha)

/-- A loop without result. -/
theorem forM {g : α → Action ε σ PUnit} {I : σ → Prop} {l : List α}
    (hstep : ∀ a ∈ l, ∀ s, I s → (g a).Gives s fun _ s' => I s') (h : I s) :
    (l.forM g).Gives s fun _ s' => I s' := by
  induction l generalizing s with
  | nil => exact pure h
  | cons a l ih =>
    refine bind ((hstep a List.mem_cons_self s h).imp fun _ s' hs' => ih (fun b hb => ?_) hs')
    exact hstep b (List.mem_cons_of_mem a hb)

theorem yields (h : x.Gives s Q) : x.Yields s Q := by
  obtain ⟨a, s', hx, ha⟩ := h
  rintro b s'' hb
  cases hx.symm.trans hb
  exact ha

/-- What succeeds has what it yields. -/
theorem and_yields (h : x.Gives s Q) (hy : x.Yields s Q') :
    x.Gives s fun a s' => Q a s' ∧ Q' a s' := by
  obtain ⟨a, s', hx, ha⟩ := h
  exact ⟨a, s', hx, ha, hy a s' hx⟩

end Gives

/-- Whether the action succeeds or fails, `R` holds between the states before and after it. -/
def Keeps (R : σ → σ → Prop) (x : Action ε σ α) (s : σ) : Prop := R s (x s).2

namespace Keeps

variable {R : σ → σ → Prop} {x : Action ε σ α} {f : α → Action ε σ β} {s : σ}

theorem bind [Trans R R R] (h : x.Keeps R s)
    (hf : ∀ a s', x s = (.ok a, s') → (f a).Keeps R s') : (x >>= f).Keeps R s := by
  rw [Keeps, bind_apply]
  rw [Keeps] at h
  cases hx : x s with
  | mk r s' =>
    rw [hx] at h
    cases r with
    | error e => exact h
    | ok a => exact Trans.trans h (hf a s' hx)

theorem pure [Std.Refl R] {a : α} : (pure a : Action ε σ α).Keeps R s := Std.Refl.refl s

theorem throw [Std.Refl R] {e : ε} : (throw e : Action ε σ α).Keeps R s := Std.Refl.refl s

theorem get [Std.Refl R] : (get : Action ε σ σ).Keeps R s := Std.Refl.refl s

theorem modify {g : σ → σ} (h : R s (g s)) : (modify g : Action ε σ PUnit).Keeps R s := h

theorem ofExcept [Std.Refl R] {r : Except ε α} : (Action.ofExcept r : Action ε σ α).Keeps R s := by
  cases r <;> exact Std.Refl.refl s

theorem mapError {δ : Type} {g : ε → δ} (h : x.Keeps R s) : (x.mapError g).Keeps R s := by
  rw [Keeps] at h ⊢
  rw [Action.mapError]
  split
  · rename_i hx
    rwa [hx] at h
  · rename_i hx
    rwa [hx] at h

/-- A loop without result. -/
theorem forM [Std.Refl R] [Trans R R R] {g : α → Action ε σ PUnit} {l : List α}
    (hg : ∀ a ∈ l, ∀ s, (g a).Keeps R s) : (l.forM g).Keeps R s := by
  induction l generalizing s with
  | nil => exact pure
  | cons a l ih =>
    exact bind (hg a List.mem_cons_self s) fun _ _ _ => ih fun b hb =>
      hg b (List.mem_cons_of_mem a hb)

/-- What holds in any case holds if the action succeeds. -/
theorem yields (h : x.Keeps R s) : x.Yields s fun _ s' => R s s' := by
  intro a s' hx
  rw [Keeps, hx] at h
  exact h

end Keeps

theorem toProcess_apply (x : Action ε σ α) (s : σ) : x.toProcess s = some (x s) := rfl

end Action

namespace Process

theorem bind_apply (x : Process ε σ α) (f : α → Process ε σ β) (s : σ) :
    (x >>= f) s = match x s with
      | none => none
      | some (.ok a, s') => f a s'
      | some (.error e, s') => some (.error e, s') := by
  change (x s).bind (fun p => (ExceptT.bindCont f p.1 : StateT σ Option (Except ε β)) p.2) = _
  rcases x s with _ | ⟨r | r, s'⟩ <;> rfl

theorem bind_ok {x : Process ε σ α} {f : α → Process ε σ β} {s s' : σ} {a : α}
    (h : x s = some (.ok a, s')) : (x >>= f) s = f a s' := by
  rw [bind_apply, h]

theorem bind_error {x : Process ε σ α} {f : α → Process ε σ β} {s s' : σ} {e : ε}
    (h : x s = some (.error e, s')) : (x >>= f) s = some (.error e, s') := by
  rw [bind_apply, h]

/-- Actions in sequence, as processes. -/
theorem bind_eq_toProcess {x : Process ε σ α} {y : Action ε σ α} {f : α → Process ε σ β}
    {g : α → Action ε σ β} (hx : x = y.toProcess) (hf : ∀ a, f a = (g a).toProcess) :
    x >>= f = (y >>= g).toProcess := by
  funext s
  rw [bind_apply, hx, Action.toProcess, Action.toProcess, Action.bind_apply]
  rcases y s with ⟨e | a, s'⟩
  · rfl
  · exact congrFun (hf a) s'

section Bind

variable {x : Process ε σ α} {f : α → Process ε σ β} {s s' : σ}

theorem bind_cases {r : Except ε β} (h : (x >>= f) s = some (r, s')) :
    (∃ a s₁, x s = some (.ok a, s₁) ∧ f a s₁ = some (r, s')) ∨
      ∃ e, x s = some (.error e, s') ∧ r = .error e := by
  rw [bind_apply] at h
  split at h
  · cases h
  · exact .inl ⟨_, _, ‹_›, h⟩
  · rename_i hx
    cases h
    exact .inr ⟨_, hx, rfl⟩

theorem exists_of_bind_ok {b : β} (h : (x >>= f) s = some (.ok b, s')) :
    ∃ a s₁, x s = some (.ok a, s₁) ∧ f a s₁ = some (.ok b, s') := by
  rcases bind_cases h with h | ⟨e, -, he⟩
  · exact h
  · cases he

end Bind

/-- With a bound that is great enough, a process comes to an outcome. -/
def Reaches (f : Nat → Process ε σ α) (s : σ) (r : Except ε α × σ) : Prop :=
  ∃ enough, ∀ steps ≥ enough, f steps s = some r

namespace Reaches

variable {f : Nat → Process ε σ α} {g : α → Nat → Process ε σ β} {s s' : σ} {a : α} {e : ε}
  {r : Except ε β × σ}

theorem of_eq {r : Except ε α × σ} (h : ∀ steps, f steps s = some r) : Reaches f s r :=
  ⟨0, fun steps _ => h steps⟩

theorem bind_ok (h : Reaches f s (.ok a, s')) (hg : Reaches (g a) s' r) :
    Reaches (fun n => f n >>= fun a => g a n) s r := by
  obtain ⟨k, hk⟩ := h
  obtain ⟨k', hk'⟩ := hg
  refine ⟨max k k', fun steps hsteps => ?_⟩
  exact (Process.bind_ok (hk steps (Nat.le_trans (Nat.le_max_left ..) hsteps))).trans
    (hk' steps (Nat.le_trans (Nat.le_max_right ..) hsteps))

/-- A first part that needs no bound. -/
theorem after {x : Process ε σ α} (h : x s = some (.ok a, s')) (hg : Reaches (g a) s' r) :
    Reaches (fun n => x >>= fun a => g a n) s r :=
  bind_ok (.of_eq fun _ => h) hg

end Reaches

theorem exists_of_any {o : Option (Except ε α × σ)} {p : Except ε α × σ → α → Bool}
    (h : o.any fun r => r.1.toOption.any (p r)) : ∃ a s, o = some (.ok a, s) ∧ p (.ok a, s) a := by
  obtain ⟨⟨x, s⟩, ho, hx⟩ := (Option.any_eq_true _ _).mp h
  obtain ⟨a, rfl, ha⟩ := Stencil.exists_of_any hx
  exact ⟨a, s, ho, ha⟩

end Process

end Stencil

/-! ## Work that cannot tell states apart

A relation between states says what work may not depend on. Work that respects the relation has the
same outcome from related states, and leaves related states behind. The rules follow the notation of
monads; what is read from the state must be the same in related states. -/

namespace Stencil

variable {ε δ σ α β : Type} {R : σ → σ → Prop}

namespace Action

/-- From related states the outcome is the same, and the states afterwards are related. -/
def Respects (R : σ → σ → Prop) (x : Action ε σ α) : Prop :=
  ∀ s t, R s t → (x s).1 = (x t).1 ∧ R (x s).2 (x t).2

namespace Respects

variable {x : Action ε σ α} {f : α → Action ε σ β}

theorem pure {a : α} : (pure a : Action ε σ α).Respects R := fun _ _ h => ⟨rfl, h⟩

theorem throw {e : ε} : (throw e : Action ε σ α).Respects R := fun _ _ h => ⟨rfl, h⟩

/-- What would come after a failure does not matter. -/
theorem throwBind {e : ε} : ((MonadExcept.throw e : Action ε σ α) >>= f).Respects R :=
  fun _ _ h => ⟨rfl, h⟩

theorem modify {g : σ → σ} (h : ∀ s t, R s t → R (g s) (g t)) :
    (modify g : Action ε σ PUnit).Respects R :=
  fun s t hst => ⟨rfl, h s t hst⟩

theorem bind (h : x.Respects R) (hf : ∀ a, (f a).Respects R) : (x >>= f).Respects R := by
  intro s t hst
  rw [bind_apply, bind_apply]
  obtain ⟨hr, hst'⟩ := h s t hst
  cases hx : x s with
  | mk r s' =>
    cases hy : x t with
    | mk r' t' =>
      rw [hx, hy] at hr hst'
      obtain rfl : r = r' := hr
      cases r with
      | error e => exact ⟨rfl, hst'⟩
      | ok a => exact hf a s' t' hst'

/-- Reading the state, if what follows depends only on what related states have in common. -/
theorem getBind {g : σ → Action ε σ β} (hg : ∀ s t, R s t → g s = g t)
    (h : ∀ s, (g s).Respects R) : (get >>= g).Respects R := by
  intro s t hst
  rw [bind_ok (get_apply s), bind_ok (get_apply t), ← hg s t hst]
  exact h s s t hst

/-- Something is done before and after, which changes neither what related states have in common
nor, given that, the outcome. -/
theorem around {before : σ → σ} {after : Except ε α × σ → Except δ β × σ} (h : x.Respects R)
    (hbefore : ∀ s t, R s t → R (before s) (before t))
    (hafter : ∀ r s t, R s t → (after (r, s)).1 = (after (r, t)).1 ∧
      R (after (r, s)).2 (after (r, t)).2) :
    Action.Respects R fun s => after (x (before s)) := by
  intro s t hst
  dsimp only
  obtain ⟨hr, hst'⟩ := h _ _ (hbefore s t hst)
  generalize x (before s) = p at hr hst' ⊢
  generalize x (before t) = q at hr hst' ⊢
  obtain ⟨r, s'⟩ := p
  obtain ⟨r', t'⟩ := q
  obtain rfl : r = r' := hr
  exact hafter r s' t' hst'

theorem map {g : α → β} (h : x.Respects R) : (g <$> x).Respects R := by
  rw [map_eq_pure_bind]
  exact h.bind fun _ => pure

theorem forM {g : α → Action ε σ PUnit} (h : ∀ a, (g a).Respects R) (l : List α) :
    (l.forM g).Respects R := by
  induction l with
  | nil => exact pure
  | cons a l ih => exact (h a).bind fun _ => ih

end Respects

end Action

namespace Process

/-- From related states the outcome is the same, if any, and the states afterwards are related. -/
def Respects (R : σ → σ → Prop) (x : Process ε σ α) : Prop :=
  ∀ s t, R s t → Option.Rel (fun p q => p.1 = q.1 ∧ R p.2 q.2) (x s) (x t)

namespace Respects

variable {x : Process ε σ α} {f : α → Process ε σ β}

theorem toProcess {a : Action ε σ α} (h : a.Respects R) : a.toProcess.Respects R :=
  fun s t hst => .some (h s t hst)

theorem pure {a : α} : (pure a : Process ε σ α).Respects R := fun _ _ h => .some ⟨rfl, h⟩

theorem throw {e : ε} : (throw e : Process ε σ α).Respects R := fun _ _ h => .some ⟨rfl, h⟩

theorem throwBind {e : ε} : ((MonadExcept.throw e : Process ε σ α) >>= f).Respects R :=
  fun _ _ h => .some ⟨rfl, h⟩

theorem unfinished : (Process.unfinished : Process ε σ α).Respects R := fun _ _ _ => .none

theorem bind (h : x.Respects R) (hf : ∀ a, (f a).Respects R) : (x >>= f).Respects R := by
  intro s t hst
  rw [bind_apply, bind_apply]
  have hrel := h s t hst
  generalize x s = p at hrel ⊢
  generalize x t = q at hrel ⊢
  cases hrel with
  | none => exact .none
  | @some p q hrel =>
    obtain ⟨r, s'⟩ := p
    obtain ⟨r', t'⟩ := q
    obtain ⟨rfl, hst'⟩ : r = r' ∧ R s' t' := hrel
    cases r with
    | error e => exact .some ⟨rfl, hst'⟩
    | ok a => exact hf a s' t' hst'

theorem getBind {g : σ → Process ε σ β} (hg : ∀ s t, R s t → g s = g t)
    (h : ∀ s, (g s).Respects R) : (get >>= g).Respects R := by
  intro s t hst
  have hget : ∀ u, (get : Process ε σ σ) u = some (.ok u, u) := fun _ => rfl
  rw [bind_ok (hget s), bind_ok (hget t), ← hg s t hst]
  exact h s s t hst

/-- As for actions, something is done before and after. -/
theorem around {before : σ → σ} {after : Except ε α × σ → Except δ β × σ} (h : x.Respects R)
    (hbefore : ∀ s t, R s t → R (before s) (before t))
    (hafter : ∀ r s t, R s t → (after (r, s)).1 = (after (r, t)).1 ∧
      R (after (r, s)).2 (after (r, t)).2) :
    Process.Respects R fun s => (x (before s)).map after := by
  intro s t hst
  dsimp only
  have hrel := h _ _ (hbefore s t hst)
  generalize x (before s) = p at hrel ⊢
  generalize x (before t) = q at hrel ⊢
  cases hrel with
  | none => exact .none
  | @some p q hrel =>
    obtain ⟨r, s'⟩ := p
    obtain ⟨r', t'⟩ := q
    obtain ⟨rfl, hst'⟩ : r = r' ∧ R s' t' := hrel
    exact .some (hafter r s' t' hst')

theorem mapError {g : ε → δ} (h : x.Respects R) : (x.mapError g).Respects R := by
  have heq : x.mapError g = fun s => (x s).map fun p => (p.1.mapError g, p.2) := by
    funext s
    rw [Process.mapError]
    rcases x s with _ | ⟨_ | _, _⟩ <;> rfl
  rw [heq]
  exact h.around (fun _ _ hst => hst) fun _ _ _ hst => ⟨rfl, hst⟩

theorem foldlM {g : β → α → Process ε σ β} {l : List α} (h : ∀ a ∈ l, ∀ b, (g b a).Respects R)
    (b : β) : (l.foldlM g b).Respects R := by
  induction l generalizing b with
  | nil => exact pure
  | cons a l ih =>
    exact (h a List.mem_cons_self b).bind fun b' =>
      ih (fun a' ha' => h a' (List.mem_cons_of_mem a ha')) b'

end Respects

end Process

end Stencil
