import Mathlib.Data.Finset.Card
import Mathlib.Data.Set.Finite.Basic
import Mathlib.Logic.Relation
import Mathlib.Order.WellFounded
import Stencil.Compiler.Build

/-!
# References between templates

What the templates of a finite set say about each other, as a graph: a template may extend one other
and load any number. A build starts at one of them.

## Main definitions

* `References` – the graph
* `References.Extends`, `References.Loads`, `References.Leads` – its edges
* `References.Settled` – a build can come to its end

## Main results

* `exists_cycle` – where nobody is last, somebody leads back to themselves
* `not_cycle_of_acc` – what can be worked off has no cycle below it
-/

namespace Stencil

open Relation (ReflTransGen TransGen)

/-- What the templates of a finite set say about each other. -/
structure References where
  /-- The templates. -/
  names : Finset Text
  /-- The template that is built. -/
  main : Text
  /-- The template that each one extends; empty if it extends none. -/
  extended : Text → Text
  /-- The templates that each one loads. -/
  loads : Text → List Text
  main_mem : main ∈ names
  extended_mem : ∀ t ∈ names, extended t ≠ [] → extended t ∈ names
  loads_mem : ∀ t ∈ names, ∀ u ∈ loads t, u ∈ names

namespace References

variable {g : References} {t u v : Text}

/-- The first template extends the second. -/
def Extends (g : References) (t u : Text) : Prop := g.extended t = u ∧ u ≠ []

/-- The first template loads the second. -/
def Loads (g : References) (t u : Text) : Prop := u ∈ g.loads t

/-- The first template extends or loads the second. -/
def Leads (g : References) (t u : Text) : Prop := g.Extends t u ∨ g.Loads t u

/-- The chain of extensions from the main template ends with `last`, and no template of the chain
has a cycle of loads below it. -/
structure Settled (g : References) (last : Text) : Prop where
  reached : ReflTransGen g.Extends g.main last
  last : g.extended last = []
  grounded : ∀ t, ReflTransGen g.Extends g.main t →
    ¬ TransGen g.Extends t t ∧ Acc (fun u t => g.Loads t u) t

theorem Extends.unique (h : g.Extends t u) (h' : g.Extends t v) : u = v := h.1.symm.trans h'.1

theorem Extends.leads (h : ReflTransGen g.Extends t u) : ReflTransGen g.Leads t u :=
  ReflTransGen.mono (fun _ _ => .inl) _ _ h

/-- From a cycle of extensions one cannot get away. -/
theorem Extends.back (hc : TransGen g.Extends t t) (h : ReflTransGen g.Extends t u) :
    ReflTransGen g.Extends u t := by
  induction h with
  | refl => exact .refl
  | tail _ hbc ih =>
    rcases ih.cases_head with rfl | ⟨d, hbd, hd⟩
    · obtain ⟨d, htd, hd⟩ := TransGen.head'_iff.mp hc
      exact hbc.unique htd ▸ hd
    · exact hbc.unique hbd ▸ hd

/-- A template that extends none is not reached from a cycle of extensions. -/
theorem Extends.not_cycle (h : ReflTransGen g.Extends t u) (hu : g.extended u = []) :
    ¬ TransGen g.Extends t t := by
  intro hc
  have successor : ∃ v, g.Extends u v := by
    rcases (Extends.back hc h).cases_head with rfl | ⟨v, huv, -⟩
    · obtain ⟨v, huv, -⟩ := TransGen.head'_iff.mp hc
      exact ⟨v, huv⟩
    · exact ⟨v, huv⟩
  obtain ⟨v, huv, hv⟩ := successor
  exact hv (huv.symm.trans hu)

end References

section Cycles

variable {α : Type} {R : α → α → Prop} {x y : α}

/-- Where everybody in a list leads to somebody in it, somebody leads back to themselves. -/
theorem exists_cycle {l : List α} (hne : l ≠ []) (h : ∀ x ∈ l, ∃ y ∈ l, R x y) :
    ∃ x ∈ l, TransGen R x x := by
  by_contra hno
  -- otherwise `R` would be a well-founded relation on the list, with somebody last
  let below : {x // x ∈ l} → {x // x ∈ l} → Prop := fun y x => TransGen R x y
  have : Finite {x // x ∈ l} := l.finite_toSet
  have : IsTrans _ below := ⟨fun _ _ _ h₁ h₂ => h₂.trans h₁⟩
  have : Std.Irrefl below := ⟨fun x hx => hno ⟨x, x.2, hx⟩⟩
  have hwf : WellFounded below := Finite.wellFounded_of_trans_of_irrefl below
  obtain ⟨a, ha⟩ := List.exists_mem_of_ne_nil l hne
  obtain ⟨m, -, hm⟩ := hwf.has_min Set.univ ⟨⟨a, ha⟩, trivial⟩
  obtain ⟨y, hy, hmy⟩ := h m m.2
  exact hm ⟨y, hy⟩ trivial (.single hmy)

/-- No cycle is below somebody from whom every descent ends. -/
theorem not_cycle_of_acc (h : Acc (fun y x => R x y) x) (hxy : ReflTransGen R x y) :
    ¬ TransGen R y y := by
  induction h generalizing y with
  | intro x _ ih =>
    rcases hxy.cases_head with rfl | ⟨z, hxz, hzy⟩
    · intro hc
      obtain ⟨z, hxz, hzx⟩ := TransGen.head'_iff.mp hc
      exact ih z hxz .refl (TransGen.tail' hzx hxz)
    · exact ih z hxz hzy

end Cycles

end Stencil
