import Stencil.Proofs.Data.Action
import Stencil.Proofs.Tree.Steps

/-!
# Walks as recursion

A walk is a loop over queues and a stack. It does what plain recursion does: a node is entered, the
nodes it asks for are visited one after the other in the same way, and the node is left. Nothing is
assumed about the visitor, so the nodes need not be children, handlers may change what is visible
while the walk is under way, and the recursion need not end. It ends exactly if the loop does, and
then both give the same error, the same state, and have called the same handlers in the same order.

The recursion has a bound on its depth in place of the number of steps of the loop. What the
recursion makes of a node, the loop makes of that node in front of any queue and above any stack,
after some number of steps (`loop_cons_of_traverse`). The way back is an induction on the
number of steps, some of which are used up by every node.

## Main definitions

* `Visitor.traverse`, `Visitor.traverseAll` – visiting a node, and a queue, by recursion
* `Visitor.proceed` – what is done after a part of the walk
* `Visitor.Covers` – a visitor does what another one does, on states that hold more
* `Call`, `Visitor.recording`, `Visitor.logging` – visitors that write down which handlers are
  called
* `Action.asserting` – an action with an assertion before it and after it
* `Action.Coincides` – two actions do the same where an assertion holds, and it holds afterwards

## Main results

* `Visitor.traverse_succ`, `Visitor.traverse_mono` – the recursion and its bound
* `Visitor.loop_keeps`, `Visitor.loop_respects` – what handlers keep, the loop keeps, and what they
  do not depend on, it does not depend on
* `Visitor.loop_cons_of_traverse`, `Visitor.exists_traverseAll_of_loop` – from the recursion to the
  loop and back
* `Visitor.Covers.loop`, `Visitor.Covers.traverse` – what is kept in addition makes no difference
* `Visitor.walk_eq_traverse` – loop and recursion agree
* `Action.coincides_asserting` – an assertion that an action keeps can be left out
* `Tree.Visitor.loop_coincides` – walks of two visitors whose handlers coincide
-/

namespace Stencil.Tree

/-- A call of a handler. -/
inductive Call where
  /-- A node is entered. -/
  | enter (n : NodeId)
  /-- A node is left. -/
  | leave (n : NodeId)
  deriving DecidableEq, Repr

namespace Visitor

variable {ε σ : Type}

/-- Visits a node, down to a depth. A node that is passed over is neither entered nor left. -/
def traverse (v : Visitor ε σ) : Nat → NodeId → Process ε σ Unit
  | 0, _ => Process.unfinished
  | depth + 1, n => do
    unless v.skips n (← get) do
      let queue ← (Action.of (v.visit n)).toProcess
      (queue.getD []).forM (v.traverse depth)
      (v.leave n).toProcess

/-- Visits the nodes of a queue one after the other. -/
def traverseAll (v : Visitor ε σ) (depth : Nat) (queue : List NodeId) : Process ε σ Unit :=
  queue.forM (v.traverse depth)

/-- The visitor that also writes down which handlers are called. -/
def recording (v : Visitor ε σ) : Visitor ε (σ × List Call) where
  store s := v.store s.1
  refuse := v.refuse
  skipInvisible := v.skipInvisible
  enter n := Action.of fun s => ((v.enter n s.1).1, (v.enter n s.1).2, s.2 ++ [.enter n])
  leave n := Action.of fun s => ((v.leave n s.1).1, (v.leave n s.1).2, s.2 ++ [.leave n])

/-- The visitor that also writes down which handlers are called, each with the state that it
leaves. -/
def logging (v : Visitor ε σ) : Visitor ε (σ × List (Call × σ)) where
  store u := v.store u.1
  refuse := v.refuse
  skipInvisible := v.skipInvisible
  enter n := Action.of fun u =>
    ((v.enter n u.1).1, (v.enter n u.1).2, u.2 ++ [(.enter n, (v.enter n u.1).2)])
  leave n := Action.of fun u =>
    ((v.leave n u.1).1, (v.leave n u.1).2, u.2 ++ [(.leave n, (v.leave n u.1).2)])

/-- Goes on after a part of the walk, unless that part failed. -/
def proceed (next : σ → Option (Except ε Unit × σ)) :
    Except ε Unit × σ → Option (Except ε Unit × σ)
  | (.ok _, s) => next s
  | (.error e, s) => some (.error e, s)

variable {v : Visitor ε σ} {n : NodeId} {queue inner : List NodeId}
  {stack : List (NodeId × List NodeId)} {s s' : σ} {depth depth' steps : Nat}
  {t r : Except ε Unit × σ}

/-! ### The recursion -/

theorem traverseAll_cons : v.traverseAll depth (n :: queue) s =
    (v.traverse depth n s).bind (proceed (v.traverseAll depth queue)) := by
  change (v.traverse depth n >>= fun _ => v.traverseAll depth queue) s = _
  rw [Process.bind_apply]
  rcases v.traverse depth n s with _ | ⟨_ | _, _⟩ <;> rfl

theorem traverseAll_singleton : v.traverseAll depth [n] s = v.traverse depth n s := by
  rw [traverseAll_cons]
  rcases v.traverse depth n s with _ | ⟨_ | _, _⟩ <;> rfl

/-- What visiting a node comes to. -/
theorem traverse_succ : v.traverse (depth + 1) n s =
    if v.skips n s then some (.ok (), s)
    else match v.visit n s with
      | (.error e, s₁) => some (.error e, s₁)
      | (.ok queue, s₁) =>
        (v.traverseAll depth (queue.getD []) s₁).bind (proceed fun s₂ => some (v.leave n s₂)) := by
  have hget : (get : Process ε σ σ) s = some (.ok s, s) := rfl
  rw [traverse, Process.bind_ok hget]
  split
  · rfl
  · rw [Process.bind_apply, Action.toProcess_apply, Action.of]
    rcases v.visit n s with ⟨e | queue, s₁⟩
    · rfl
    · dsimp only
      rw [Process.bind_apply, ← traverseAll]
      rcases v.traverseAll depth (queue.getD []) s₁ with _ | ⟨e | _, s₂⟩ <;> rfl

theorem traverseAll_of_traverse
    (hall : ∀ n s t, v.traverse depth n s = some t → v.traverse depth' n s = some t)
    (h : v.traverseAll depth queue s = some t) : v.traverseAll depth' queue s = some t := by
  induction queue generalizing s with
  | nil => exact h
  | cons c queue ih =>
    rw [traverseAll_cons] at h ⊢
    obtain ⟨u, hu, ht⟩ := Option.bind_eq_some_iff.mp h
    rw [hall c s u hu, Option.bind_some]
    rcases u with ⟨e | _, s'⟩
    · exact ht
    · exact ih ht

/-- A greater bound makes no difference once the recursion has ended. -/
theorem traverse_mono (hd : depth ≤ depth') (h : v.traverse depth n s = some t) :
    v.traverse depth' n s = some t := by
  induction depth generalizing depth' n s t with
  | zero => cases h
  | succ depth ih =>
    obtain ⟨depth', rfl⟩ := Nat.exists_eq_add_of_le' (Nat.le_trans (Nat.le_add_left 1 depth) hd)
    rw [traverse_succ] at h ⊢
    split
    · rwa [if_pos ‹_›] at h
    · rw [if_neg ‹_›] at h
      generalize v.visit n s = visited at h ⊢
      rcases visited with ⟨e | queue, s₁⟩
      · exact h
      · obtain ⟨u, hu, ht⟩ := Option.bind_eq_some_iff.mp h
        have hle : depth ≤ depth' := Nat.le_of_succ_le_succ hd
        refine Option.bind_eq_some_iff.mpr ⟨u, ?_, ht⟩
        exact traverseAll_of_traverse (fun n s t => ih hle) hu

theorem traverseAll_mono (hd : depth ≤ depth') (h : v.traverseAll depth queue s = some t) :
    v.traverseAll depth' queue s = some t :=
  traverseAll_of_traverse (fun _ _ _ => traverse_mono hd) h

/-! ### The loop -/

theorem loop_leave : v.loop (steps + 1) [] ((n, queue) :: stack) s =
    proceed (v.loop steps queue stack) (v.leave n s) := by
  rw [loop]
  rcases v.leave n s with ⟨_ | _, _⟩ <;> rfl

theorem loop_visit (hskip : ¬ v.skips n s) : v.loop (steps + 1) (n :: queue) stack s =
    match v.visit n s with
    | (.error e, s₁) => some (.error e, s₁)
    | (.ok (some inner), s₁) => v.loop steps inner ((n, queue) :: stack) s₁
    | (.ok none, s₁) => proceed (v.loop steps queue stack) (v.leave n s₁) := by
  rw [loop, if_neg hskip]
  rcases v.visit n s with ⟨_ | _ | _, s₁⟩
  · rfl
  · dsimp only
    rcases v.leave n s₁ with ⟨_ | _, _⟩ <;> rfl
  · rfl

theorem proceed_eq_bind {x : Action ε σ Unit} {next : Process ε σ Unit} :
    proceed next (x s) = (x.toProcess >>= fun _ => next) s := by
  rw [Process.bind_apply, Action.toProcess_apply]
  rcases x s with ⟨_ | _, _⟩ <;> rfl

theorem loop_visit_eq_bind {n : NodeId} (hskip : ¬ v.skips n s) :
    v.loop (steps + 1) (n :: queue) stack s =
      ((Action.of (v.visit n)).toProcess >>= fun r => match r with
        | some inner => v.loop steps inner ((n, queue) :: stack)
        | none => (v.leave n).toProcess >>= fun _ => v.loop steps queue stack :
          Process ε σ Unit) s := by
  rw [loop_visit hskip, Process.bind_apply, Action.toProcess_apply, Action.of]
  rcases v.visit n s with ⟨_ | _ | _, s₁⟩
  · rfl
  · exact proceed_eq_bind
  · rfl

theorem proceed_keeps {R : σ → σ → Prop} [Trans R R R] {next : σ → Option (Except ε Unit × σ)}
    (ht : R s t.2) (hnext : ∀ s₁ r, next s₁ = some r → R s₁ r.2) (h : proceed next t = some r) :
    R s r.2 := by
  rcases t with ⟨e | _, s₁⟩
  · cases h
    exact ht
  · exact Trans.trans ht (hnext s₁ r h)

/-- What entering and leaving keep, the loop keeps, whether or not it fails. -/
theorem loop_keeps {R : σ → σ → Prop} [Std.Refl R] [Trans R R R]
    (henter : ∀ n s, (v.enter n).Keeps R s) (hleave : ∀ n s, (v.leave n).Keeps R s)
    (h : v.loop steps queue stack s = some r) : R s r.2 := by
  induction steps generalizing queue stack s r with
  | zero => cases h
  | succ steps ih =>
    cases queue with
    | nil =>
      cases stack with
      | nil =>
        cases h
        exact Std.Refl.refl s
      | cons top stack =>
        rw [loop_leave] at h
        exact proceed_keeps (hleave top.1 s) (fun _ _ => ih) h
    | cons n queue =>
      by_cases hskip : v.skips n s
      · rw [loop, if_pos hskip] at h
        exact ih h
      · rw [loop_visit hskip] at h
        have hvisit : R s (v.visit n s).2 := by
          rw [visit]
          split
          · exact Std.Refl.refl s
          · exact henter n s
        generalize v.visit n s = visited at h hvisit
        rcases visited with ⟨e | _ | inner, s₁⟩
        · cases h
          exact hvisit
        · exact Trans.trans hvisit (proceed_keeps (hleave n s₁) (fun _ _ => ih) h)
        · exact Trans.trans hvisit (ih h)

/-- A walk sees of the state what its visitor sees of it. -/
theorem loop_respects {R : σ → σ → Prop} (hstore : ∀ s t, R s t → v.store s = v.store t)
    (henter : ∀ n, (v.enter n).Respects R) (hleave : ∀ n, (v.leave n).Respects R) (steps : Nat)
    (queue : List NodeId) (stack : List (NodeId × List NodeId)) :
    Process.Respects R (v.loop steps queue stack) := by
  have hvisit (n : NodeId) : (Action.of (v.visit n)).Respects R := by
    intro s t hst
    rw [Action.of, visit, visit, hstore s t hst]
    split
    · exact ⟨rfl, hst⟩
    · exact henter n s t hst
  have hleft (n : NodeId) {next : Process ε σ Unit} (hnext : next.Respects R) :
      ((v.leave n).toProcess >>= fun _ => next).Respects R :=
    .bind (.toProcess (hleave n)) fun _ => hnext
  induction steps generalizing queue stack with
  | zero => exact .unfinished
  | succ steps ih =>
    intro s t hst
    cases queue with
    | nil =>
      cases stack with
      | nil => exact .some ⟨rfl, hst⟩
      | cons entry stack =>
        rw [loop_leave, loop_leave, proceed_eq_bind, proceed_eq_bind]
        exact hleft entry.1 (ih entry.2 stack) s t hst
    | cons n queue =>
      by_cases hskip : v.skips n s
      · have hskip' : v.skips n t := by rwa [skips, ← hstore s t hst]
        rw [loop, loop, if_pos hskip, if_pos hskip']
        exact ih queue stack s t hst
      · have hskip' : ¬ v.skips n t := by rwa [skips, ← hstore s t hst]
        rw [loop_visit_eq_bind hskip, loop_visit_eq_bind hskip']
        refine Process.Respects.bind (.toProcess (hvisit n)) (fun inner => ?_) s t hst
        cases inner with
        | none => exact hleft n (ih queue stack)
        | some inner => exact ih inner _

/-! ### From the recursion to the loop -/

/-- What the recursion makes of a node, the loop makes of it in front of any queue. -/
theorem loop_cons_of_traverse (h : v.traverse depth n s = some t) (queue : List NodeId)
    (stack : List (NodeId × List NodeId)) :
    ∃ k, ∀ steps, v.loop (steps + k) (n :: queue) stack s = proceed
      (v.loop steps queue stack) t := by
  induction depth generalizing n s t queue stack with
  | zero => cases h
  | succ depth ih =>
    -- the nodes of a queue, one after the other
    have hall : ∀ (inner : List NodeId) (s : σ) (t : Except ε Unit × σ),
        v.traverseAll depth inner s = some t → ∀ stack, ∃ k, ∀ steps,
          v.loop (steps + k) inner stack s = proceed (v.loop steps [] stack) t := by
      intro inner
      induction inner with
      | nil =>
        intro s t h stack
        cases h
        exact ⟨0, fun steps => rfl⟩
      | cons c inner ihq =>
        intro s t h stack
        rw [traverseAll_cons] at h
        obtain ⟨u, hu, ht⟩ := Option.bind_eq_some_iff.mp h
        obtain ⟨j, hj⟩ := ih hu inner stack
        rcases u with ⟨e | _, s'⟩
        · cases ht
          exact ⟨j, hj⟩
        · obtain ⟨k, hk⟩ := ihq s' t ht stack
          refine ⟨k + j, fun steps => ?_⟩
          rw [← Nat.add_assoc, hj]
          exact hk steps
    rw [traverse_succ] at h
    split at h
    · rename_i hskip
      cases h
      refine ⟨1, fun steps => ?_⟩
      rw [loop, if_pos hskip]
      rfl
    · rename_i hskip
      cases hvisit : v.visit n s with
      | mk r s₁ =>
        rw [hvisit] at h
        cases r with
        | error e =>
          cases h
          refine ⟨1, fun steps => ?_⟩
          rw [loop_visit hskip, hvisit]
          rfl
        | ok asked =>
          obtain ⟨u, hu, ht⟩ := Option.bind_eq_some_iff.mp h
          cases asked with
          | none =>
            cases hu
            cases ht
            refine ⟨1, fun steps => ?_⟩
            rw [loop_visit hskip, hvisit]
          | some inner =>
            obtain ⟨k, hk⟩ := hall inner s₁ u hu ((n, queue) :: stack)
            refine ⟨1 + k + 1, fun steps => ?_⟩
            rw [← Nat.add_assoc, loop_visit hskip, hvisit, ← Nat.add_assoc]
            dsimp only
            rw [hk]
            rcases u with ⟨e | _, s₂⟩
            · cases ht
              rfl
            · cases ht
              exact loop_leave

/-! ### From the loop to the recursion -/

/-- A loop that ends has done with its queue what the recursion does with it. -/
theorem exists_traverseAll_of_loop (h : v.loop steps queue stack s = some r) :
    ∃ depth t, v.traverseAll depth queue s = some t ∧
      ∃ k ≤ steps, proceed (v.loop k [] stack) t = some r := by
  induction steps using Nat.strongRecOn generalizing queue stack s with
  | ind steps ih =>
    -- the rest of a queue, once its first node has been dealt with
    have hrest : ∀ (n : NodeId) (queue : List NodeId) (u : Except ε Unit × σ) (depth k : Nat),
        v.traverse depth n s = some u → k < steps → proceed (v.loop k queue stack) u = some r →
        ∃ depth t, v.traverseAll depth (n :: queue) s = some t ∧
          ∃ k ≤ steps, proceed (v.loop k [] stack) t = some r := by
      intro n queue u depth k hu hk hr
      rcases u with ⟨e | _, s'⟩
      · refine ⟨depth, (.error e, s'), ?_, k, Nat.le_of_lt hk, hr⟩
        rw [traverseAll_cons, hu]
        rfl
      · obtain ⟨depth', t, ht, j, hj, hr'⟩ := ih k hk hr
        refine ⟨max depth depth', t, ?_, j, by omega, hr'⟩
        rw [traverseAll_cons, traverse_mono (Nat.le_max_left depth depth') hu]
        exact traverseAll_mono (Nat.le_max_right depth depth') ht
    cases steps with
    | zero => simp [loop] at h
    | succ steps =>
      cases queue with
      | nil => exact ⟨0, (.ok (), s), rfl, steps + 1, Nat.le_refl _, h⟩
      | cons n queue =>
        by_cases hskip : v.skips n s
        · rw [loop, if_pos hskip] at h
          exact hrest n queue (.ok (), s) 1 steps (by rw [traverse_succ, if_pos hskip])
            (Nat.lt_succ_self steps) h
        · rw [loop_visit hskip] at h
          cases hvisit : v.visit n s with
          | mk asked s₁ =>
            rw [hvisit] at h
            rcases asked with e | _ | inner
            · refine hrest n queue (.error e, s₁) 1 steps ?_ (Nat.lt_succ_self steps) h
              rw [traverse_succ, if_neg hskip, hvisit]
            · refine hrest n queue (v.leave n s₁) 1 steps ?_ (Nat.lt_succ_self steps) h
              rw [traverse_succ, if_neg hskip, hvisit]
              rfl
            · obtain ⟨depth, t, ht, k, hk, hr⟩ := ih steps (Nat.lt_succ_self steps) h
              have hvisited : v.traverse (depth + 1) n s =
                  proceed (fun s₂ => some (v.leave n s₂)) t := by
                rw [traverse_succ, if_neg hskip, hvisit]
                exact congrArg (Option.bind · _) ht
              rcases t with ⟨e | _, s₂⟩
              · exact hrest n queue (.error e, s₂)
                  (depth + 1) steps hvisited (Nat.lt_succ_self steps) hr
              · cases k with
                | zero => simp [proceed, loop] at hr
                | succ k =>
                  rw [proceed, loop_leave] at hr
                  exact hrest n queue (v.leave n s₂) (depth + 1) k hvisited (by omega) hr

/-- The loop ends if and only if the recursion does, and with the same outcome. -/
theorem exists_walk_iff_exists_traverse : (∃ steps, v.walk steps (some n) s = some r) ↔
    ∃ depth, v.traverse depth n s = some r := by
  constructor
  · rintro ⟨steps, hsteps⟩
    obtain ⟨depth, t, ht, k, -, hr⟩ := exists_traverseAll_of_loop hsteps
    rw [traverseAll_singleton] at ht
    refine ⟨depth, ht.trans ?_⟩
    rcases t with ⟨e | _, s'⟩
    · exact hr
    · cases k with
      | zero => simp [proceed, loop] at hr
      | succ k => exact hr
  · rintro ⟨depth, hdepth⟩
    obtain ⟨k, hk⟩ := loop_cons_of_traverse hdepth [] []
    refine ⟨1 + k, (hk 1).trans ?_⟩
    rcases r with ⟨e | _, s'⟩ <;> rfl

/-! ### Visitors that keep more -/

/-- The visitor `v'` does what `v` does, on states that hold more than those of `v`. -/
structure Covers {τ : Type} (v' : Visitor ε τ) (π : τ → σ) (v : Visitor ε σ) : Prop where
  skips (n : NodeId) (u : τ) : v'.skips n u = v.skips n (π u)
  visit (n : NodeId) (u : τ) : (v'.visit n u).map id π = v.visit n (π u)
  leave (n : NodeId) (u : τ) : (v'.leave n u).map id π = v.leave n (π u)

namespace Covers

variable {τ : Type} {v' : Visitor ε τ} {π : τ → σ}

theorem proceed {next' : τ → Option (Except ε Unit × τ)} {next : σ → Option (Except ε Unit × σ)}
    (h : ∀ u, (next' u).map (Prod.map id π) = next (π u)) (t : Except ε Unit × τ) :
    (proceed next' t).map (Prod.map id π) = proceed next (t.map id π) := by
  rcases t with ⟨e | _, u⟩
  · rfl
  · exact h u

theorem loop (h : v'.Covers π v) (u : τ) :
    (v'.loop steps queue stack u).map (Prod.map id π) = v.loop steps queue stack (π u) := by
  induction steps generalizing queue stack u with
  | zero => rfl
  | succ steps ih =>
    cases queue with
    | nil =>
      cases stack with
      | nil => rfl
      | cons top stack => rw [loop_leave, loop_leave, proceed ih, h.leave]
    | cons n queue =>
      by_cases hskip : v.skips n (π u)
      · rw [Visitor.loop, Visitor.loop, if_pos hskip, if_pos ((h.skips n u).trans hskip), ih]
      · rw [loop_visit hskip, loop_visit (by rwa [h.skips]), ← h.visit]
        generalize v'.visit n u = visited
        rcases visited with ⟨e | _ | inner, u₁⟩
        · rfl
        · dsimp only [Prod.map, id]
          rw [← h.leave]
          exact proceed ih _
        · exact ih _

theorem traverse (h : v'.Covers π v) (u : τ) :
    (v'.traverse depth n u).map (Prod.map id π) = v.traverse depth n (π u) := by
  induction depth generalizing n u with
  | zero => rfl
  | succ depth ih =>
    have hall : ∀ (queue : List NodeId) (u : τ),
        (v'.traverseAll depth queue u).map (Prod.map id π) = v.traverseAll depth queue (π u) := by
      intro queue
      induction queue with
      | nil => exact fun u => rfl
      | cons c queue ihq =>
        intro u
        rw [traverseAll_cons, traverseAll_cons, ← ih u, Option.map_bind, Option.bind_map]
        exact congrArg _ (funext (proceed ihq))
    rw [traverse_succ, traverse_succ, h.skips, ← h.visit]
    split
    · rfl
    · generalize v'.visit n u = visited
      rcases visited with ⟨e | queue, u₁⟩
      · rfl
      · dsimp only [Prod.map, id]
        rw [← hall _ u₁, Option.map_bind, Option.bind_map]
        exact congrArg _ (funext (proceed fun u => congrArg some (h.leave n u)))

end Covers

/-! ### Which handlers are called -/

theorem recording_covers : v.recording.Covers Prod.fst v where
  skips _ _ := rfl
  visit n u := by
    rw [visit, visit, show v.recording.store u = v.store u.1 from rfl]
    split <;> rfl
  leave _ _ := rfl

theorem logging_covers : v.logging.Covers Prod.fst v where
  skips _ _ := rfl
  visit n u := by
    rw [visit, visit, show v.logging.store u = v.store u.1 from rfl]
    split <;> rfl
  leave _ _ := rfl

variable {u u' : σ × List (Call × σ)}

theorem logging_visit_ok {r : Option (List NodeId)} (h : v.logging.visit n u = (.ok r, u')) :
    v.visit n u.1 = (.ok r, u'.1) ∧ u'.2 = u.2 ++ [(.enter n, u'.1)] := by
  refine ⟨by rw [← logging_covers.visit, h]; rfl, ?_⟩
  obtain ⟨-, rfl⟩ := Prod.mk.inj (enter_of_visit h)
  rfl

theorem logging_leave_ok (h : v.logging.leave n u = (.ok (), u')) :
    v.leave n u.1 = (.ok (), u'.1) ∧ u'.2 = u.2 ++ [(.leave n, u'.1)] := by
  refine ⟨by rw [← logging_covers.leave, h]; rfl, ?_⟩
  obtain ⟨-, rfl⟩ := Prod.mk.inj h
  rfl

/-- **A walk is plain recursion.** For every visitor, root and state: the visitor that writes down
the calls of its handlers behaves as the visitor does, in the recursion as in the loop; and the loop
ends if and only if the recursion ends, and then with the same error or none, in the same state, and
after the same calls in the same order. -/
theorem walk_eq_traverse (v : Visitor ε σ) (root : NodeId) (s : σ) :
    (∀ depth, v.traverse depth root s =
      (v.recording.traverse depth root (s, [])).map fun t => (t.1, t.2.1)) ∧
    (∀ steps, v.walk steps (some root) s =
      (v.recording.walk steps (some root) (s, [])).map fun t => (t.1, t.2.1)) ∧
    ∀ (r : Except ε Unit) (s' : σ) (calls : List Call),
      (∃ depth, v.recording.traverse depth root (s, []) = some (r, s', calls)) ↔
        ∃ steps, v.recording.walk steps (some root) (s, []) = some (r, s', calls) :=
  ⟨fun _ => (recording_covers.traverse (s, [])).symm, fun _ => (recording_covers.loop (s, [])).symm,
    fun _ _ _ => exists_walk_iff_exists_traverse.symm⟩

end Visitor

end Stencil.Tree

/-! ## Assertions

What is said about the states between two calls of some functions can be put into the program: the
functions are wrapped so that they fail if it does not hold before they are called, or after they
have returned. If the program with these assertions comes to the same as the program without them,
no assertion has failed. Since the failure may be any, it cannot be mistaken for one of the
program's own. -/

namespace Stencil

variable {ε σ α β : Type} {P : σ → Prop}

namespace Action

/-- An action that fails with `e` if an assertion does not hold before it, or after it. -/
def asserting (P : σ → Prop) [DecidablePred P] (e : ε) (x : Action ε σ α) : Action ε σ α := fun s =>
  if P s then if P (x s).2 then x s else (.error e, (x s).2) else (.error e, s)

/-- Where `P` holds, both actions do the same, and `P` holds afterwards. -/
def Coincides (P : σ → Prop) (x y : Action ε σ α) : Prop := ∀ s, P s → x s = y s ∧ P (y s).2

/-- An assertion that an action keeps can be left out. -/
theorem coincides_asserting [DecidablePred P] {e : ε} {x : Action ε σ α}
    (h : ∀ s, P s → P (x s).2) :
    (x.asserting P e).Coincides P x := fun s hs =>
  ⟨by rw [asserting, if_pos hs, if_pos (h s hs)], h s hs⟩

namespace Coincides

variable {x y : Action ε σ α} {f g : α → Action ε σ β}

theorem of_keeps (h : ∀ s, P s → P (x s).2) : x.Coincides P x := fun s hs => ⟨rfl, h s hs⟩

theorem pure {a : α} : (pure a : Action ε σ α).Coincides P (pure a) := fun _ hs => ⟨rfl, hs⟩

theorem bind (h : x.Coincides P y) (hf : ∀ a, (f a).Coincides P (g a)) :
    (x >>= f).Coincides P (y >>= g) := by
  intro s hs
  obtain ⟨hxy, hP⟩ := h s hs
  rw [bind_apply, bind_apply, hxy]
  rcases hy : y s with ⟨e | a, s'⟩ <;> rw [hy] at hP
  · exact ⟨rfl, hP⟩
  · exact hf a s' hP

theorem forM {f g : α → Action ε σ PUnit} (h : ∀ a, (f a).Coincides P (g a)) (l : List α) :
    (l.forM f).Coincides P (l.forM g) := by
  induction l with
  | nil => exact pure
  | cons a l ih => exact (h a).bind fun _ => ih

end Coincides

end Action

namespace Tree.Visitor

/-- Walks of two visitors come to the same if their handlers do, as long as an assertion holds. -/
theorem loop_coincides (v v' : Visitor ε σ) (hstore : v.store = v'.store)
    (hrefuse : v.refuse = v'.refuse) (hskip : v.skipInvisible = v'.skipInvisible)
    (henter : ∀ n, Action.Coincides P (v.enter n) (v'.enter n))
    (hleave : ∀ n, Action.Coincides P (v.leave n) (v'.leave n)) (steps : Nat) (queue : List NodeId)
    (stack : List (NodeId × List NodeId)) {s : σ} (hs : P s) :
    v.loop steps queue stack s = v'.loop steps queue stack s := by
  have hvisit (n : NodeId) {s : σ} (hs : P s) : v.visit n s = v'.visit n s ∧
      P (v'.visit n s).2 := by
    rw [visit, visit, hstore, hrefuse]
    split
    · exact ⟨rfl, hs⟩
    · exact henter n s hs
  induction steps generalizing queue stack s with
  | zero => rfl
  | succ steps ih =>
    -- after a node was left
    have hleft (n : NodeId) (queue : List NodeId) (stack : List (NodeId × List NodeId)) {s : σ}
        (hs : P s) : proceed (v.loop steps queue stack) (v.leave n s) =
          proceed (v'.loop steps queue stack) (v'.leave n s) := by
      obtain ⟨heq, hP⟩ := hleave n s hs
      rw [heq]
      generalize v'.leave n s = left at hP
      rcases left with ⟨_ | _, s'⟩
      · rfl
      · exact ih queue stack hP
    cases queue with
    | nil =>
      cases stack with
      | nil => rfl
      | cons top stack =>
        rw [loop_leave, loop_leave]
        exact hleft top.1 top.2 stack hs
    | cons n queue =>
      have hskips : v'.skips n s = v.skips n s := by rw [skips, skips, hstore, hskip]
      by_cases hskipped : v.skips n s
      · rw [loop, loop, if_pos hskipped, if_pos (hskips ▸ hskipped)]
        exact ih _ _ hs
      · obtain ⟨heq, hP⟩ := hvisit n hs
        rw [loop_visit hskipped, loop_visit (hskips ▸ hskipped), heq]
        generalize v'.visit n s = visited at hP
        rcases visited with ⟨_ | _ | inner, s'⟩
        · rfl
        · exact hleft n queue stack hP
        · exact ih _ _ hP

end Tree.Visitor

end Stencil
