/-!
# Actions

Work on a state that can fail comes in two strengths. An `Action` always ends, with a result or an
error; the state survives an error, because what was done before it can still be asked for. A
`Process` may in addition not come to an end within the steps it was given, in which case there is
no answer at all.

## Main definitions

* `Action`, `Process` – the two kinds of work;
* `Action.ofExcept` – an outcome as an action; `Action.mapError`, `Process.mapError`;
* `Action.toProcess` – an action as a process; `Process.unfinished`.
-/

namespace Stencil

/-- Work on a state of type `σ` that ends with a result or an error. -/
abbrev Action (ε σ α : Type) := ExceptT ε (StateM σ) α

/-- Work on a state of type `σ` that may run out of steps. -/
abbrev Process (ε σ α : Type) := ExceptT ε (StateT σ Option) α

namespace Action

variable {ε σ α : Type}

/-- The action with the given effect. -/
def of (f : σ → Except ε α × σ) : Action ε σ α := f

/-- The effect of an action on a state. -/
def run (a : Action ε σ α) (s : σ) : Except ε α × σ := a s

/-- An outcome as an action. -/
def ofExcept : Except ε α → Action ε σ α
  | .ok a => pure a
  | .error e => throw e

/-- The action with its errors changed. -/
def mapError {δ : Type} (f : ε → δ) (a : Action ε σ α) : Action δ σ α := fun s =>
  match a s with
  | (.ok a, s) => (.ok a, s)
  | (.error e, s) => (.error (f e), s)

/-- The action as a process that never runs out of steps. -/
def toProcess (a : Action ε σ α) : Process ε σ α := fun s => some (a s)

instance : MonadLift (Action ε σ) (Process ε σ) := ⟨toProcess⟩

end Action

namespace Process

variable {ε σ α : Type}

/-- The process that has run out of steps. -/
def unfinished : Process ε σ α := fun _ => none

/-- The effect of a process on a state. -/
def run (p : Process ε σ α) (s : σ) : Option (Except ε α × σ) := p s

/-- The process with its errors changed. -/
def mapError {δ : Type} (f : ε → δ) (p : Process ε σ α) : Process δ σ α := fun s =>
  match p s with
  | none => none
  | some (.ok a, s) => some (.ok a, s)
  | some (.error e, s) => some (.error (f e), s)

end Process

end Stencil
