import Stencil.Tree.Walk

/-!
# Walks step by step

The loop of a walk, taken apart into single steps. Some of the nodes are *marked*; what a marked
node means is up to the visitor. `Reaches` counts the marked nodes that a walk enters on its way.

A walk can only be said to end relative to a budget of marked nodes. `Leads` is the form in which
that is put together from parts: the walk ends, or it enters more marked nodes than the budget
allows, or it comes to where the next part begins, with what is left of the budget.

## Main definitions

* `Walk`, `Visitor.step` – a walk under way, and one step of it
* `Visitor.Ends` – the loop comes to an end
* `Visitor.Reaches` – where a walk comes, with the number of marked nodes entered on the way
* `Visitor.Leads` – a walk ends, exceeds a budget, or comes to a certain place

## Main results

* `Visitor.loop_succ` – the loop repeats the step
* `Visitor.step_cases`, `Visitor.eq_of_step_ok` – what a step can be, and how a walk ends
* `Visitor.Ends.bounded` – a walk that ends enters a bounded number of marked nodes
* `Visitor.Leads.bind` – parts of a walk follow each other
-/

namespace Stencil.Tree

/-- A walk under way. -/
structure Walk (σ : Type) where
  /-- The nodes to visit next. -/
  queue : List NodeId
  /-- The nodes still to be left, with the queues to go on with then. -/
  stack : List (NodeId × List NodeId)
  /-- The state. -/
  state : σ

namespace Visitor

variable {ε σ : Type} {v : Visitor ε σ} {marked : NodeId → σ → Bool} {w w' w'' : Walk σ}
  {B : Nat} {Q Q' : Nat → Walk σ → Prop}

/-- Goes on after a node was left. -/
def resume (queue : List NodeId) (stack : List (NodeId × List NodeId)) :
    Except ε Unit × σ → (Except ε Unit × σ) ⊕ Walk σ
  | (.error e, s) => .inl (.error e, s)
  | (.ok (), s) => .inr ⟨queue, stack, s⟩

/-- One step of a walk: it ends, or is somewhere else. -/
def step (v : Visitor ε σ) : Walk σ → (Except ε Unit × σ) ⊕ Walk σ
  | ⟨[], [], s⟩ => .inl (.ok (), s)
  | ⟨[], (n, queue) :: stack, s⟩ => resume queue stack (v.leave n s)
  | ⟨n :: queue, stack, s⟩ =>
    if v.skips n s then .inr ⟨queue, stack, s⟩
    else
      match v.visit n s with
      | (.error e, s) => .inl (.error e, s)
      | (.ok (some inner), s) => .inr ⟨inner, (n, queue) :: stack, s⟩
      | (.ok none, s) => resume queue stack (v.leave n s)

/-- The loop repeats the step. -/
theorem loop_succ (v : Visitor ε σ) (steps : Nat) (w : Walk σ) :
    v.loop (steps + 1) w.queue w.stack w.state = match v.step w with
      | .inl r => some r
      | .inr w' => v.loop steps w'.queue w'.stack w'.state := by
  obtain ⟨queue, stack, s⟩ := w
  cases queue with
  | nil =>
    cases stack with
    | nil => rfl
    | cons top stack =>
      rw [loop, step]
      rcases v.leave top.1 s with ⟨r | r, s⟩ <;> rfl
  | cons n queue =>
    rw [loop, step]
    split
    · rfl
    · rcases v.visit n s with ⟨r | r, s⟩
      · rfl
      · cases r with
        | some inner => rfl
        | none =>
          dsimp only
          rcases v.leave n s with ⟨r | r, s⟩ <;> rfl

theorem enter_of_visit {n : NodeId} {r : Option (List NodeId)} {s s' : σ}
    (h : v.visit n s = (.ok r, s')) : v.enter n s = (.ok r, s') := by
  rw [visit] at h
  split at h
  · cases h
  · exact h

/-- What a step can be: a node is left behind which nothing is left to visit, a node is passed over,
or a node is entered, and left at once if it asks for nothing. -/
theorem step_cases (h : v.step w = .inr w') :
    (∃ n s, w = ⟨[], (n, w'.queue) :: w'.stack, s⟩ ∧ v.leave n s = (.ok (), w'.state)) ∨
      (∃ n, w = ⟨n :: w'.queue, w'.stack, w'.state⟩ ∧ v.skips n w'.state) ∨
      (∃ n queue stack s, w = ⟨n :: queue, stack, s⟩ ∧
        v.visit n s = (.ok (some w'.queue), w'.state) ∧ w'.stack = (n, queue) :: stack) ∨
      ∃ n s s', w = ⟨n :: w'.queue, w'.stack, s⟩ ∧ v.visit n s = (.ok none, s') ∧
        v.leave n s' = (.ok (), w'.state) := by
  have left : ∀ {n queue stack s}, resume queue stack (v.leave n s) = .inr w' →
      v.leave n s = (.ok (), w'.state) ∧ queue = w'.queue ∧ stack = w'.stack := by
    intro n queue stack s h
    rcases hleave : v.leave n s with ⟨r | r, s'⟩ <;> rw [hleave] at h <;> cases h
    exact ⟨rfl, rfl, rfl⟩
  obtain ⟨queue, stack, s⟩ := w
  cases queue with
  | nil =>
    cases stack with
    | nil => cases h
    | cons top stack =>
      obtain ⟨hleave, htop, rfl⟩ := left h
      exact .inl ⟨top.1, s, by rw [← htop], hleave⟩
  | cons n queue =>
    rw [step] at h
    split at h
    · rename_i hskip
      cases h
      exact .inr (.inl ⟨n, rfl, hskip⟩)
    · rcases hvisit : v.visit n s with ⟨r | r, s'⟩ <;> rw [hvisit] at h
      · cases h
      · cases r with
        | some inner =>
          cases h
          exact .inr (.inr (.inl ⟨n, queue, stack, s, rfl, hvisit, rfl⟩))
        | none =>
          obtain ⟨hleave, rfl, rfl⟩ := left h
          exact .inr (.inr (.inr ⟨n, s, s', rfl, hvisit, hleave⟩))

/-- A walk that comes to its end has nothing left to visit. -/
theorem eq_of_step_ok {s' : σ} (h : v.step w = .inl (.ok (), s')) : w = ⟨[], [], s'⟩ := by
  have hresume : ∀ queue stack (r : Except ε Unit × σ),
      resume queue stack r ≠ .inl (.ok (), s') := by
    rintro queue stack ⟨r | r, s⟩ h <;> cases h
  obtain ⟨queue, stack, s⟩ := w
  cases queue with
  | nil =>
    cases stack with
    | nil =>
      cases h
      rfl
    | cons top stack => exact absurd h (hresume _ _ _)
  | cons n queue =>
    rw [step] at h
    split at h
    · cases h
    · rcases hvisit : v.visit n s with ⟨r | r, s₁⟩ <;> rw [hvisit] at h
      · cases h
      · cases r with
        | none => exact absurd h (hresume _ _ _)
        | some inner => cases h

/-- The walk comes to an end. -/
def Ends (v : Visitor ε σ) (w : Walk σ) : Prop :=
  ∃ steps, v.loop steps w.queue w.stack w.state ≠ none

theorem Ends.of_stop {r : Except ε Unit × σ} (h : v.step w = .inl r) : v.Ends w :=
  ⟨1, by rw [loop_succ, h]; simp⟩

theorem Ends.of_step (h : v.step w = .inr w') (hw : v.Ends w') : v.Ends w := by
  obtain ⟨steps, hsteps⟩ := hw
  exact ⟨steps + 1, by rw [loop_succ, h]; exact hsteps⟩

/-- The number of marked nodes that the next step enters. -/
def mark (marked : NodeId → σ → Bool) (w : Walk σ) : Nat :=
  match w.queue with
  | [] => 0
  | n :: _ => if marked n w.state then 1 else 0

theorem mark_le_one (w : Walk σ) : mark marked w ≤ 1 := by
  rw [mark]
  split
  · exact Nat.zero_le 1
  · split
    · exact Nat.le_refl 1
    · exact Nat.zero_le 1

/-- The walk comes from the first place to the second, and enters a number of marked nodes. -/
inductive Reaches (v : Visitor ε σ) (marked : NodeId → σ → Bool) : Walk σ → Nat → Walk σ → Prop
  | refl (w : Walk σ) : Reaches v marked w 0 w
  | step {w w' w'' : Walk σ} {k : Nat} : v.step w = .inr w' → Reaches v marked w' k w'' →
      Reaches v marked w (mark marked w + k) w''

namespace Reaches

variable {j k : Nat}

theorem trans (h₁ : v.Reaches marked w j w') (h₂ : v.Reaches marked w' k w'') :
    v.Reaches marked w (j + k) w'' := by
  induction h₁ with
  | refl => rwa [Nat.zero_add]
  | step hs _ ih =>
    rw [Nat.add_assoc]
    exact .step hs (ih h₂)

theorem ends (h : v.Reaches marked w k w') (hw : v.Ends w') : v.Ends w := by
  induction h with
  | refl => exact hw
  | step hs _ ih => exact .of_step hs (ih hw)

end Reaches

/-- A walk that ends enters no more marked nodes than it takes steps. -/
theorem Ends.bounded (h : v.Ends w) : ∃ B, ∀ k w', v.Reaches marked w k w' → k ≤ B := by
  obtain ⟨steps, hsteps⟩ := h
  refine ⟨steps, fun k w' hr => ?_⟩
  induction hr generalizing steps with
  | refl => exact Nat.zero_le steps
  | @step w _ _ k hs _ ih =>
    cases steps with
    | zero => simp [loop] at hsteps
    | succ steps =>
      rw [loop_succ, hs] at hsteps
      calc mark marked w + k ≤ 1 + steps := Nat.add_le_add (mark_le_one w) (ih steps hsteps)
        _ = steps + 1 := Nat.add_comm 1 steps

/-- The walk ends, or enters more than `B` marked nodes, or comes to a place where `Q` holds of it
and of what is left of the budget `B`. -/
def Leads (v : Visitor ε σ) (marked : NodeId → σ → Bool) (B : Nat) (w : Walk σ)
    (Q : Nat → Walk σ → Prop) : Prop :=
  v.Ends w ∨ (∃ k w', v.Reaches marked w k w' ∧ B < k) ∨
    ∃ k w', v.Reaches marked w k w' ∧ k ≤ B ∧ Q (B - k) w'

namespace Leads

theorem here (h : Q B w) : v.Leads marked B w Q := .inr (.inr ⟨0, w, .refl w, Nat.zero_le B, h⟩)

theorem stop {r : Except ε Unit × σ} (h : v.step w = .inl r) : v.Leads marked B w Q :=
  .inl (.of_stop h)

/-- Parts of a walk follow each other. -/
theorem bind (h : v.Leads marked B w Q)
    (hQ : ∀ B' w', B' ≤ B → Q B' w' → v.Leads marked B' w' Q') : v.Leads marked B w Q' := by
  rcases h with hends | ⟨k, w', hr, hk⟩ | ⟨k, w', hr, hk, hw⟩
  · exact .inl hends
  · exact .inr (.inl ⟨k, w', hr, hk⟩)
  · rcases hQ (B - k) w' (Nat.sub_le B k) hw with hends | ⟨j, w'', hr', hj⟩ | ⟨j, w'', hr', hj, hw'⟩
    · exact .inl (hr.ends hends)
    · exact .inr (.inl ⟨k + j, w'', hr.trans hr', by omega⟩)
    · refine .inr (.inr ⟨k + j, w'', hr.trans hr', by omega, ?_⟩)
      rwa [Nat.sub_sub] at hw'

theorem of_step (h : v.step w = .inr w')
    (hw : mark marked w ≤ B → v.Leads marked (B - mark marked w) w' Q) : v.Leads marked B w Q := by
  by_cases hB : mark marked w ≤ B
  · rcases hw hB with hends | ⟨k, w'', hr, hk⟩ | ⟨k, w'', hr, hk, hQ⟩
    · exact .inl (.of_step h hends)
    · exact .inr (.inl ⟨_, w'', .step h hr, by omega⟩)
    · refine .inr (.inr ⟨_, w'', .step h hr, by omega, ?_⟩)
      rwa [Nat.sub_sub] at hQ
  · exact .inr (.inl ⟨_, w', .step h (.refl w'), by omega⟩)

theorem of_leave {n : NodeId} {queue : List NodeId} {stack : List (NodeId × List NodeId)} {s : σ}
    (h : ∀ s', v.leave n s = (.ok (), s') → Q B ⟨queue, stack, s'⟩) :
    v.Leads marked B ⟨[], (n, queue) :: stack, s⟩ Q := by
  cases hleave : v.leave n s with
  | mk r s' =>
    cases r with
    | error e => exact stop (by rw [step, hleave]; rfl)
    | ok =>
      have hstep : v.step ⟨[], (n, queue) :: stack, s⟩ = .inr ⟨queue, stack, s'⟩ := by
        rw [step, hleave]
        rfl
      exact of_step hstep fun _ => here (h s' hleave)

/-- **Visiting a node.** It is entered, what it asks for is visited, and it is left. -/
theorem of_visit {n : NodeId} {queue : List NodeId} {stack : List (NodeId × List NodeId)} {s : σ}
    {P : Nat → σ → Prop} (hskip : v.skips n s = false)
    (hnone : ∀ s', v.visit n s = (.ok none, s') → mark marked ⟨n :: queue, stack, s⟩ ≤ B →
      P (B - mark marked ⟨n :: queue, stack, s⟩) s')
    (hsome : ∀ inner s', v.visit n s = (.ok (some inner), s') →
      mark marked ⟨n :: queue, stack, s⟩ ≤ B →
      v.Leads marked (B - mark marked ⟨n :: queue, stack, s⟩) ⟨inner, (n, queue) :: stack, s'⟩
        fun B' w => ∃ s', w = ⟨[], (n, queue) :: stack, s'⟩ ∧ P B' s')
    (hleave : ∀ B' s' s'', P B' s' → v.leave n s' = (.ok (), s'') → Q B' ⟨queue, stack, s''⟩) :
    v.Leads marked B ⟨n :: queue, stack, s⟩ Q := by
  cases hvisit : v.visit n s with
  | mk r s' =>
    cases r with
    | error e => exact stop (r := (.error e, s')) (by simp [step, hskip, hvisit])
    | ok r =>
      cases r with
      | some inner =>
        have hstep : v.step ⟨n :: queue, stack, s⟩ = .inr ⟨inner, (n, queue) :: stack, s'⟩ := by
          simp [step, hskip, hvisit]
        refine of_step hstep fun hB => ?_
        refine (hsome inner s' hvisit hB).bind fun B' w' _ hw => ?_
        obtain ⟨s'', rfl, hP⟩ := hw
        exact of_leave fun s₃ hs₃ => hleave B' s'' s₃ hP hs₃
      | none =>
        cases hleft : v.leave n s' with
        | mk r s'' =>
          cases r with
          | error e =>
            exact stop (r := (.error e, s'')) (by simp [step, hskip, hvisit, hleft, resume])
          | ok =>
            have hstep : v.step ⟨n :: queue, stack, s⟩ = .inr ⟨queue, stack, s''⟩ := by
              simp [step, hskip, hvisit, hleft, resume]
            exact of_step hstep fun hB => here (hleave _ s' s'' (hnone s' hvisit hB) hleft)

end Leads

/-- A walk that leads nowhere but to its end. -/
theorem Leads.ends_or_exceeds (h : v.Leads marked B w fun _ w' => w'.queue = [] ∧ w'.stack = []) :
    v.Ends w ∨ ∃ k w', v.Reaches marked w k w' ∧ B < k := by
  rcases h with hends | hmany | ⟨k, ⟨queue, stack, s⟩, hr, -, rfl, rfl⟩
  · exact .inl hends
  · exact .inr hmany
  · exact .inl (hr.ends (.of_stop rfl))

end Visitor

end Stencil.Tree
