import Stencil.Compiler.Session
import Stencil.Tree.Walk
import Stencil.Proofs.Data.Action

/-!
# Work on a session

What the elementary actions on the state of a compilation do. An instruction asks to be called again
for a node by raising a flag on it; the flag is lowered when the node is left.

## Main definitions

* `Session.raised` – whether the flag of a node is raised
* `Session.raise`, `Session.lower` – the session with a flag raised or lowered

## Main results

* `Session.raised_raise`, `Session.raised_lower`
* `Work.takeReturn_apply` – asking for a flag lowers it
-/

namespace Stencil

open Stencil.Tree (NodeId Store)
open Code (Properties Property)

/-! ### Properties -/

namespace Code.Properties

variable {p : Properties} {name z : Text} {v : Property} {b : Bool}

theorem get?_set : (p.set name v).get? z = if z = name then some v else p.get? z := by
  rw [get?, set, List.find?_cons]
  by_cases h : name = z
  · simp [h]
  · have hne : z ≠ name := fun e => h e.symm
    simp only [h, decide_false, List.find?_filter, if_neg hne, get?]
    congr 2
    funext e
    by_cases he : e.1 = z <;> simp [he, hne]

theorem get?_erase : (p.erase name).get? z = if z = name then none else p.get? z := by
  rw [get?, erase, List.find?_filter]
  by_cases h : z = name
  · subst h
    simp
  · rw [if_neg h, get?]
    congr 2
    funext e
    by_cases he : e.1 = z <;> simp [he, h]

theorem flag_set_self : (p.set name (.flag b)).flag name = b := by rw [flag, get?_set, if_pos rfl]

theorem flag_set_of_ne (h : z ≠ name) : (p.set name v).flag z = p.flag z := by
  rw [flag, get?_set, if_neg h, flag]

theorem flag_erase_self : (p.erase name).flag name = false := by rw [flag, get?_erase, if_pos rfl]

end Code.Properties

/-! ### Flags -/

namespace Session

variable {s : Session} {n m : NodeId} {name : Text} {v : Property}

/-- Whether the running stage was asked to come back to a node. -/
def raised (s : Session) (n : NodeId) : Bool :=
  ((s.properties.get? n).map (·.flag Properties.postprocess)).getD false

/-- The session with a property of a node set. -/
def setProperty (s : Session) (n : NodeId) (name : Text) (v : Property) : Session :=
  { s with properties := s.properties.modify n {} (·.set name v) }

/-- The session with the flag of a node raised. -/
def raise (s : Session) (n : NodeId) :
    Session := s.setProperty n Properties.postprocess (.flag true)

/-- The session with the flag of a node lowered. -/
def lower (s : Session) (n : NodeId) : Session :=
  if s.raised n then
    { s with properties := s.properties.modify n {} (·.erase Properties.postprocess) }
  else s

theorem raised_setProperty (h : name ≠ Properties.postprocess) :
    (s.setProperty n name v).raised m = s.raised m := by
  rw [raised, setProperty, Code.Table.modify, Code.Table.get?_put]
  split
  · rename_i hm
    subst hm
    rw [raised]
    cases s.properties.get? m with
    | none =>
      rw [Option.map_some, Option.getD_some, Properties.flag_set_of_ne (fun e => h e.symm)]
      rfl
    | some p =>
      rw [Option.map_some, Option.getD_some, Properties.flag_set_of_ne (fun e => h e.symm)]
      rfl
  · rfl

@[simp] theorem raised_raise : (s.raise n).raised m = (m == n || s.raised m) := by
  rw [raised, raise, setProperty, Code.Table.modify, Code.Table.get?_put]
  by_cases h : m = n
  · rw [if_pos h, Option.map_some, Option.getD_some, Properties.flag_set_self]
    simp [h]
  · simp [h, raised]

@[simp] theorem raised_lower : (s.lower n).raised m = (m != n && s.raised m) := by
  rw [lower]
  split
  · rw [raised, Code.Table.modify, Code.Table.get?_put]
    by_cases h : m = n
    · rw [if_pos h, Option.map_some, Option.getD_some, Properties.flag_erase_self]
      simp [h]
    · simp [h, raised]
  · rename_i hn
    by_cases h : m = n
    · subst h
      simpa using hn
    · simp [h]

@[simp] theorem store_setProperty : (s.setProperty n name v).store = s.store := rfl

@[simp] theorem definitions_setProperty :
    (s.setProperty n name v).definitions = s.definitions := rfl

@[simp] theorem documents_setProperty : (s.setProperty n name v).documents = s.documents := rfl

@[simp] theorem store_raise : (s.raise n).store = s.store := rfl

@[simp] theorem definitions_raise : (s.raise n).definitions = s.definitions := rfl

@[simp] theorem documents_raise : (s.raise n).documents = s.documents := rfl

@[simp] theorem store_lower : (s.lower n).store = s.store := by
  rw [lower]
  split <;> rfl

@[simp] theorem definitions_lower : (s.lower n).definitions = s.definitions := by
  rw [lower]
  split <;> rfl

@[simp] theorem documents_lower : (s.lower n).documents = s.documents := by
  rw [lower]
  split <;> rfl

end Session

/-! ### Actions -/

namespace Work

variable {α : Type} {s : Session} {n : NodeId}

theorem store_yields {Q : Store → Session → Prop} (h : Q s.store s) : store.Yields s Q := by
  intro a s' ha
  cases ha
  exact h

theorem modifyStore_yields {f : Store → Store} {Q : Unit → Session → Prop}
    (h : Q () { s with store := f s.store }) : (modifyStore f).Yields s Q :=
  .modify h

theorem modifyDefinitions_yields {f : Definitions → Definitions} {Q : Unit → Session → Prop}
    (h : Q () { s with definitions := f s.definitions }) : (modifyDefinitions f).Yields s Q :=
  .modify h

theorem fail_yields {c : Cause} {Q : α → Session → Prop} : (fail c : Work α).Yields s Q :=
  .throw

theorem lift_yields {x : Except Failure α} {Q : α → Session → Prop} (h : ∀ a, x = .ok a → Q a s) :
    (lift x).Yields s Q := by
  cases x with
  | ok a => exact .pure (h a rfl)
  | error f => exact .throw

theorem extract_yields {d : Dialect} {e : NodeId} {specs : List AttributeSpec}
    {others : Option AttributeSpec} {Q : Extracted → Session → Prop} (h : ∀ a, Q a s) :
    (extract d e specs others).Yields s Q :=
  .bind (store_yields (lift_yields fun a _ => h a))

theorem tree_yields {f : Store → Except Tree.TreeError Store} {Q : Unit → Session → Prop}
    (h : ∀ t, f s.store = .ok t → Q () { s with store := t }) : (tree f).Yields s Q := by
  refine .bind (store_yields ?_)
  split
  · rename_i t ht
    exact modifyStore_yields (h t ht)
  · exact .throw

theorem fresh_yields {f : Store → NodeId × Store} {Q : NodeId → Session → Prop}
    (h : Q (f s.store).1 { s with store := (f s.store).2 }) : (fresh f).Yields s Q :=
  .bind (store_yields (.bind (modifyStore_yields (.pure h))))

theorem setProperty_yields {name : Text} {v : Property} {Q : Unit → Session → Prop}
    (h : Q () (s.setProperty n name v)) : (setProperty n name v).Yields s Q :=
  .modify h

theorem requestReturn_yields {Q : Unit → Session → Prop} (h : Q () (s.raise n)) :
    (requestReturn n).Yields s Q :=
  .modify h

/-- Asking for a flag lowers it. -/
theorem takeReturn_apply (n : NodeId) (s : Session) :
    takeReturn n s = (.ok (s.raised n), s.lower n) := by
  have hflag : flag n Properties.postprocess s = (.ok (s.raised n), s) := rfl
  rw [takeReturn, Action.bind_ok hflag, Session.lower]
  cases s.raised n <;> rfl

theorem takeReturn_yields {Q : Bool → Session → Prop} (h : Q (s.raised n) (s.lower n)) :
    (takeReturn n).Yields s Q := by
  intro a s' ha
  rw [takeReturn_apply] at ha
  cases ha
  exact h

theorem atNode_yields {w : Work α} {Q : α → Session → Prop} (h : w.Yields s Q) :
    (atNode n w).Yields s Q := by
  intro a s' ha
  rw [atNode] at ha
  split at ha
  · rename_i hw
    cases ha
    exact h _ _ hw
  · cases ha

theorem leaving_yields {label : Text} {nodes : List NodeId} {w : Work α} {Q : α → Session → Prop}
    (h : w.Yields s Q) : (leaving label nodes w).Yields s Q := by
  intro a s' ha
  rw [leaving] at ha
  split at ha
  · rename_i hw
    cases ha
    exact h _ _ hw
  · cases ha

/-- A loop that enqueues nodes; the invariant knows what was enqueued so far. -/
theorem enqueueEach_yields {label : Text} {f : α → Work (Option NodeId)}
    {I : List α → List NodeId → Session → Prop}
    (hstep : ∀ a l nodes s, I (a :: l) nodes s →
      (f a).Yields s fun b s' => I l (nodes ++ b.toList) s') (l : List α) {nodes : List NodeId}
    (h : I l nodes s) :
    (enqueueEach label f nodes l).Yields s fun nodes s' => I [] nodes s' := by
  induction l generalizing s nodes with
  | nil => exact .pure h
  | cons a l ih => exact .bind (leaving_yields ((hstep a l nodes s h).imp fun _ _ hs' => ih hs'))

theorem children_yields {Q : List NodeId → Session → Prop} (h : Q (s.store.children n) s) :
    (children n).Yields s Q :=
  .bind (store_yields (.pure h))

theorem enqueueChildren_yields {Q : Option (List NodeId) → Session → Prop}
    (h : Q (s.store.queue? n) s) : (enqueueChildren n).Yields s Q :=
  .bind (store_yields (.pure h))

/-! ### Actions that succeed -/

theorem atNode_gives {w : Work α} {Q : α → Session → Prop} (h : w.Gives s Q) :
    (atNode n w).Gives s Q := by
  obtain ⟨a, s', hw, ha⟩ := h
  exact ⟨a, s', by rw [atNode, hw], ha⟩

theorem store_gives {Q : Store → Session → Prop} (h : Q s.store s) : store.Gives s Q :=
  ⟨_, _, rfl, h⟩

theorem modifyStore_gives {f : Store → Store} {Q : Unit → Session → Prop}
    (h : Q () { s with store := f s.store }) : (modifyStore f).Gives s Q :=
  ⟨_, _, rfl, h⟩

theorem fresh_gives {f : Store → NodeId × Store} {Q : NodeId → Session → Prop}
    (h : Q (f s.store).1 { s with store := (f s.store).2 }) : (fresh f).Gives s Q :=
  ⟨_, _, rfl, h⟩

theorem tree_gives {f : Store → Except Tree.TreeError Store} {t : Store}
    {Q : Unit → Session → Prop} (ht : f s.store = .ok t) (h : Q () { s with store := t }) :
    (tree f).Gives s Q := by
  refine .bind (store_gives ?_)
  rw [ht]
  exact modifyStore_gives h

theorem leaving_gives {label : Text} {nodes : List NodeId} {w : Work α} {Q : α → Session → Prop}
    (h : w.Gives s Q) : (leaving label nodes w).Gives s Q := by
  obtain ⟨a, s', hw, ha⟩ := h
  exact ⟨a, s', by rw [leaving, hw], ha⟩

/-- A loop that enqueues nodes; the invariant knows what was enqueued so far. -/
theorem enqueueEach_gives {label : Text} {f : α → Work (Option NodeId)}
    {I : List α → List NodeId → Session → Prop}
    (hstep : ∀ a l nodes s, I (a :: l) nodes s →
      (f a).Gives s fun b s' => I l (nodes ++ b.toList) s') (l : List α) {nodes : List NodeId}
    (h : I l nodes s) : (enqueueEach label f nodes l).Gives s fun nodes s' => I [] nodes s' := by
  induction l generalizing s nodes with
  | nil => exact .pure h
  | cons a l ih => exact .bind (leaving_gives ((hstep a l nodes s h).imp fun _ _ hs' => ih hs'))

theorem extract_gives {d : Dialect} {e : NodeId} {specs : List AttributeSpec}
    {others : Option AttributeSpec} {a : Extracted} {Q : Extracted → Session → Prop}
    (ha : extractAttributes d s.store e specs others = .ok a) (h : Q a s) :
    (extract d e specs others).Gives s Q := by
  refine .bind (store_gives ?_)
  rw [ha]
  exact .pure h

/-! ### Actions that may fail -/

section Keeps

variable {R : Session → Session → Prop} [Std.Refl R]

theorem store_keeps : store.Keeps R s := Std.Refl.refl s

theorem fail_keeps {c : Cause} : (fail c : Work α).Keeps R s := Std.Refl.refl s

theorem lift_keeps {x : Except Failure α} : (lift x).Keeps R s := by
  cases x <;> exact Std.Refl.refl s

theorem extract_keeps [Trans R R R] {d : Dialect} {e : NodeId} {specs : List AttributeSpec}
    {others : Option AttributeSpec} : (extract d e specs others).Keeps R s :=
  .bind store_keeps fun _ _ _ => lift_keeps

theorem enqueueChildren_keeps : (enqueueChildren n).Keeps R s := Std.Refl.refl s

omit [Std.Refl R] in
theorem atNode_keeps {w : Work α} (h : w.Keeps R s) : (atNode n w).Keeps R s := by
  rw [Action.Keeps] at h ⊢
  rw [atNode]
  split
  · rename_i hw
    rwa [hw] at h
  · rename_i hw
    rwa [hw] at h

theorem lift_ok {x : Except Failure α} {a : α} {s' : Session} (h : lift x s = (.ok a, s')) :
    x = .ok a ∧ s' = s := by
  cases x <;> cases h
  exact ⟨rfl, rfl⟩

theorem atNode_ok {w : Work α} {a : α} {s' : Session} (h : atNode n w s = (.ok a, s')) :
    w s = (.ok a, s') := by
  rw [atNode] at h
  split at h
  · rename_i hw
    rw [hw, h]
  · cases h

end Keeps

end Work

end Stencil
