import Mathlib.Data.Finset.Card
import Mathlib.Data.Prod.Lex
import Stencil.Compiler.Session

/-!
# Expansions under way

Expansions begin and end like calls: the one that began last ends first. Beginning one (`push`) adds
it to those under way and, with default content at the place of use, a last definition of its name.
Ending one (`unwind`) takes both back, so the two cancel out.

Two numbers bound how deep expansions can be nested as long as no definition is added. A use needs a
name that is defined and not in use yet, and takes it; an expansion within an expansion needs a
further definition of the same name. Together, in this order, they go down with every expansion.

## Main definitions

* `Definitions.push`, `Definitions.unwind` – beginning and ending an expansion
* `Definitions.Agrees` – the same expansions are under way, possibly with the same definitions
* `Definitions.available` – the names that can be used
* `Definitions.remaining` – the number of definitions that the innermost expansion can go on to

## Main results

* `Definitions.unwind_push` – an expansion that ends leaves things as they were
* `Definitions.bodiesOf_iterate_unwind_append` – definitions that are added stay
* `Definitions.card_available_push`, `Definitions.remaining_push` – expansions use things up
-/

namespace Stencil

open Stencil.Tree (NodeId)

namespace Definitions

variable {d d' d'' : Definitions} {x : Expansion} {z name : Text}
  {bodies : List NodeId} {b b' : Prop}

/-! ### The table of definitions -/

theorem bodiesOf_setBodies :
    (d.setBodies name bodies).bodiesOf z = if z = name then bodies else d.bodiesOf z := by
  rw [bodiesOf, setBodies, List.find?_cons]
  by_cases h : name = z
  · simp [h]
  · have hne : z ≠ name := fun e => h e.symm
    simp only [h, decide_false, List.find?_filter, if_neg hne, bodiesOf]
    congr 3
    funext e
    by_cases he : e.1 = z <;> simp [he, hne]

theorem name_mem_of_bodiesOf (h : d.bodiesOf z ≠ []) : z ∈ d.bodies.map Prod.fst := by
  rw [bodiesOf] at h
  cases hfind : d.bodies.find? fun e => e.1 = z with
  | none => simp [hfind] at h
  | some e =>
    have he : e.1 = z := by simpa using List.find?_some hfind
    exact List.mem_map.mpr ⟨e, List.mem_of_find?_eq_some hfind, he⟩

/-! ### Beginning and ending an expansion -/

/-- The definitions with the default content of a place of use added. -/
def addFallback (x : Expansion) (d : Definitions) : Definitions :=
  match x.fallback with
  | none => d
  | some f => d.setBodies x.name (d.bodiesOf x.name ++ [f])

/-- The definitions without the default content of a place of use. -/
def dropFallback (x : Expansion) (d : Definitions) : Definitions :=
  match x.fallback with
  | none => d
  | some f => d.setBodies x.name ((d.bodiesOf x.name).filter (· ≠ f))

/-- The definitions after an expansion has begun. -/
def push (x : Expansion) (d : Definitions) : Definitions :=
  { d.addFallback x with
    active := x :: d.active
    uses := if x.nested then d.uses else x.name :: d.uses }

/-- The definitions after the innermost expansion has ended. -/
def unwind (d : Definitions) : Definitions :=
  match d.active with
  | [] => d
  | x :: active =>
    dropFallback x { d with active, uses := if x.nested then d.uses else d.uses.tail }

@[simp] theorem active_push : (d.push x).active = x :: d.active := rfl

@[simp] theorem uses_push :
    (d.push x).uses = if x.nested then d.uses else x.name :: d.uses := rfl

theorem bodiesOf_push : (d.push x).bodiesOf z =
    if z = x.name then d.bodiesOf z ++ x.fallback.toList else d.bodiesOf z := by
  have h : (d.push x).bodiesOf z = (d.addFallback x).bodiesOf z := rfl
  rw [h, addFallback]
  cases x.fallback with
  | none => simp
  | some f =>
    rw [bodiesOf_setBodies]
    split
    · rename_i hz
      rw [hz]
      rfl
    · rfl

theorem dropFallback_active : (d.dropFallback x).active = d.active := by
  rw [dropFallback]
  split <;> rfl

theorem dropFallback_uses : (d.dropFallback x).uses = d.uses := by
  rw [dropFallback]
  split <;> rfl

theorem bodiesOf_dropFallback : (d.dropFallback x).bodiesOf z =
    if z = x.name then (d.bodiesOf z).filter fun b => some b ≠ x.fallback else d.bodiesOf z := by
  rw [dropFallback]
  cases hf : x.fallback with
  | none => simp
  | some f =>
    dsimp only
    rw [bodiesOf_setBodies]
    split
    · rename_i hz
      simp [hz]
    · rfl

/-- What is left when the expansion `x` ends. -/
theorem unwind_of_active {rest : List Expansion} (h : d.active = x :: rest) :
    d.unwind.active = rest ∧ (d.unwind.uses = if x.nested then d.uses else d.uses.tail) ∧
      ∀ z, d.unwind.bodiesOf z =
        if z = x.name then (d.bodiesOf z).filter fun b =>
          some b ≠ x.fallback else d.bodiesOf z := by
  rw [unwind, h]
  exact ⟨dropFallback_active, dropFallback_uses, fun z => bodiesOf_dropFallback⟩

theorem unwind_of_nil (h : d.active = []) : d.unwind = d := by rw [unwind, h]

theorem mem_bodiesOf_unwind {n : NodeId} (h : n ∈ d.unwind.bodiesOf z) : n ∈ d.bodiesOf z := by
  cases hactive : d.active with
  | nil => rwa [unwind_of_nil hactive] at h
  | cons x rest =>
    rw [(unwind_of_active hactive).2.2] at h
    split at h
    · exact (List.mem_filter.mp h).1
    · exact h

/-! ### Agreement -/

/-- The same expansions are under way; the definitions are the same if `b` holds. -/
structure Agrees (b : Prop) (d d' : Definitions) : Prop where
  active : d'.active = d.active
  uses : d'.uses = d.uses
  bodiesOf : b → ∀ z, d'.bodiesOf z = d.bodiesOf z

namespace Agrees

@[refl] protected theorem refl (d : Definitions) : Agrees b d d := ⟨rfl, rfl, fun _ _ => rfl⟩

protected theorem trans (h₁ : Agrees b d d') (h₂ : Agrees b' d' d'') : Agrees (b ∧ b') d d'' :=
  ⟨h₂.active.trans h₁.active, h₂.uses.trans h₁.uses,
    fun hb z => (h₂.bodiesOf hb.2 z).trans (h₁.bodiesOf hb.1 z)⟩

theorem mono (h : Agrees b d d') (hb : b' → b) : Agrees b' d d' :=
  ⟨h.active, h.uses, fun e => h.bodiesOf (hb e)⟩

theorem unwind (h : Agrees b d d') : Agrees b d.unwind d'.unwind := by
  cases hactive : d.active with
  | nil => rwa [unwind_of_nil hactive, unwind_of_nil (h.active.trans hactive)]
  | cons x rest =>
    obtain ⟨ha, hu, hb⟩ := unwind_of_active hactive
    obtain ⟨ha', hu', hb'⟩ := unwind_of_active (h.active.trans hactive)
    refine ⟨ha'.trans ha.symm, ?_, fun hsame z => ?_⟩
    · rw [hu, hu', h.uses]
    · rw [hb, hb', h.bodiesOf hsame]

theorem iterate_unwind (h : Agrees b d d') (k : Nat) :
    Agrees b (Definitions.unwind^[k] d) (Definitions.unwind^[k] d') := by
  induction k generalizing d d' with
  | zero => exact h
  | succ k ih => exact ih h.unwind

end Agrees

/-- **An expansion that ends leaves things as they were.** -/
theorem unwind_push (hf : ∀ f ∈ x.fallback, f ∉ d.bodiesOf x.name) :
    Agrees True d (d.push x).unwind := by
  obtain ⟨hactive, huses, hbodies⟩ := unwind_of_active (active_push (d := d) (x := x))
  refine ⟨hactive, ?_, fun _ z => ?_⟩
  · rw [huses, uses_push]
    cases x.nested <;> rfl
  · rw [hbodies, bodiesOf_push]
    split
    · rename_i hname
      subst hname
      cases hx : x.fallback with
      | none => simp
      | some f =>
        have hkept : ∀ a ∈ d.bodiesOf x.name, decide (some a ≠ some f) = true := by
          intro a ha
          simpa using fun e : a = f => hf f hx (e ▸ ha)
        rw [List.filter_append, List.filter_eq_self.mpr hkept]
        simp
    · rfl

/-- Definitions that are added while expansions are under way stay when these end. -/
theorem bodiesOf_iterate_unwind_append {l : Text → List NodeId} (hactive : d'.active = d.active)
    (hbodies : ∀ z, d'.bodiesOf z = d.bodiesOf z ++ l z)
    (hl : ∀ z, ∀ b ∈ l z, ∀ x ∈ d.active, x.fallback ≠ some b) (k : Nat) (z : Text) :
    (Definitions.unwind^[k] d').bodiesOf z = (Definitions.unwind^[k] d).bodiesOf z ++ l z := by
  induction k generalizing d d' with
  | zero => exact hbodies z
  | succ k ih =>
    rw [Function.iterate_succ_apply, Function.iterate_succ_apply]
    cases h : d.active with
    | nil =>
      rw [unwind_of_nil h, unwind_of_nil (hactive.trans h)]
      exact ih hactive hbodies hl
    | cons x rest =>
      obtain ⟨ha, -, hb⟩ := unwind_of_active h
      obtain ⟨ha', -, hb'⟩ := unwind_of_active (hactive.trans h)
      refine ih (ha'.trans ha.symm) (fun z => ?_) fun z b hbl y hy => hl z b hbl y ?_
      · rw [hb, hb', hbodies]
        split
        · rw [List.filter_append]
          congr 1
          refine List.filter_eq_self.mpr fun b hbl => ?_
          simpa using fun e => hl z b hbl x (h ▸ List.mem_cons_self) e.symm
        · rfl
      · rw [ha] at hy
        exact h ▸ List.mem_cons_of_mem x hy

/-! ### What expansions use up -/

/-- The names that are defined and not in use. -/
def available (d : Definitions) : Finset Text :=
  (d.bodies.map Prod.fst).toFinset.filter fun z => d.bodiesOf z ≠ [] ∧ z ∉ d.uses

theorem mem_available : z ∈ d.available ↔ d.bodiesOf z ≠ [] ∧ z ∉ d.uses := by
  rw [available, Finset.mem_filter, List.mem_toFinset]
  exact and_iff_right_of_imp fun h => name_mem_of_bodiesOf h.1

/-- The number of definitions that the innermost expansion can go on to. -/
def remaining (d : Definitions) : Nat :=
  match d.active with
  | [] => 0
  | x :: _ => (d.bodiesOf x.name).length - x.index

theorem Agrees.available_eq (h : Agrees b d d') (hb : b) : d'.available = d.available := by
  ext z
  rw [mem_available, mem_available, h.bodiesOf hb, h.uses]

theorem Agrees.remaining_eq (h : Agrees b d d') (hb : b) : d'.remaining = d.remaining := by
  rw [remaining, remaining, h.active]
  split
  · rfl
  · rw [h.bodiesOf hb]

theorem push_ne_nil (h : d.bodiesOf x.name ≠ []) :
    (d.push x).bodiesOf z ≠ [] ↔ d.bodiesOf z ≠ [] := by
  rw [bodiesOf_push]
  split
  · rename_i hz
    subst hz
    simp [h]
  · rfl

/-- A use takes a name. -/
theorem card_available_push (hx : x.nested = false) (hname : x.name ∈ d.available) :
    (d.push x).available.card < d.available.card := by
  refine Finset.card_lt_card (Finset.ssubset_iff_of_subset ?_ |>.mpr ⟨x.name, hname, ?_⟩)
  · intro z hz
    obtain ⟨hbodies, huses⟩ := mem_available.mp hz
    refine mem_available.mpr ⟨(push_ne_nil (mem_available.mp hname).1).mp hbodies, fun hmem => ?_⟩
    exact huses (by simp [hx, hmem])
  · rw [mem_available]
    simp [hx]

/-- An expansion within an expansion goes on to a further definition and takes no name. -/
theorem remaining_push {top : Expansion} (hx : x.nested = true) (hf : x.fallback = none)
    (htop : d.active.head? = some top) (hname : x.name = top.name)
    (hindex : x.index = top.index + 1) (hlt : top.index + 1 < (d.bodiesOf top.name).length) :
    (d.push x).available = d.available ∧ (d.push x).remaining < d.remaining := by
  have hbodies : ∀ z, (d.push x).bodiesOf z = d.bodiesOf z := fun z => by
    rw [bodiesOf_push, hf]
    simp
  constructor
  · ext z
    rw [mem_available, mem_available, hbodies, uses_push, if_pos hx]
  · obtain ⟨rest, hactive⟩ : ∃ rest, d.active = top :: rest := by
      cases h : d.active with
      | nil => simp [h] at htop
      | cons y rest => exact ⟨rest, by simpa [h] using htop⟩
    rw [remaining, remaining, hactive, active_push]
    dsimp only
    rw [hbodies, hname, hindex]
    omega

end Definitions

end Stencil
