import Stencil.Text.Basic

/-!
# Files and paths

The files a compiler reads and writes, as a map from cleaned relative paths to their contents,
together with the directories that exist. A directory exists also when something below it does.

## Main definitions

* `Path.components` – the parts between slashes;
* `Path.clean` – the shortest equivalent path; `Path.join` – several paths one below the other;
* `Path.parent`, `Path.ancestors` – the directories above a path;
* `Files` – the files; `Files.get?`, `Files.write`, `Files.isDirectory`;
* `Files.makeDirectory`, `Files.remove`, `Files.below` – directories, removal and listing.
-/

/-! ## File paths

Paths are texts with slashes between their components. Cleaning a path is lexical: empty components
and single dots are dropped, and a component is dropped together with the double dot behind it. A
double dot that has nothing to cancel stays in front of a relative path and vanishes from an
absolute one. -/

namespace Stencil.Path

/-- The parts of a text between occurrences of a byte. -/
def splitAt (b : UInt8) : Text → List Text
  | [] => [[]]
  | c :: t =>
    if c = b then [] :: splitAt b t
    else
      match splitAt b t with
      | [] => [[c]]
      | part :: parts => (c :: part) :: parts

/-- The components of a path. -/
def components (p : Text) : List Text := splitAt 0x2f p

/-- Whether a path starts at the root. -/
def isAbsolute (p : Text) : Bool := p.head? == some 0x2f

/-- Adds a component to a cleaned path, given as the stack of its components, last first. -/
def descend (absolute : Bool) (stack : List Text) (c : Text) : List Text :=
  if c = [] ∨ c = "." then stack
  else if c = ".." then
    match stack with
    | [] => if absolute then [] else [c]
    | top :: rest => if top = ".." then c :: stack else rest
  else c :: stack

/-- The components of the cleaned path. -/
def cleanComponents (p : Text) : List Text :=
  ((components p).foldl (descend (isAbsolute p)) []).reverse

/-- The shortest path that is lexically equivalent. -/
def clean (p : Text) : Text :=
  let rest := Text.join "/" (cleanComponents p)
  if isAbsolute p then "/" ++ rest else if rest = [] then "." else rest

/-- The given paths one below the other, without empty ones in front, cleaned. -/
def join (ps : List Text) : Text :=
  match ps.dropWhile (· = []) with
  | [] => []
  | ps => clean (Text.join "/" ps)

/-- The directory of a cleaned path. -/
def parent (p : Text) : Text :=
  match (components p).reverse with
  | [] | [_] => "."
  | _ :: rest =>
    let dir := Text.join "/" rest.reverse
    if dir = [] then "/" else dir

/-- The directories above a cleaned path. The current directory is above every relative path. -/
def ancestors (p : Text) : List Text :=
  let cs := components p
  (List.range cs.length).filterMap fun n =>
    if n = 0 then (if isAbsolute p then none else some ".") else some (Text.join "/" (cs.take n))

end Stencil.Path

/-! ## Sets of files -/

namespace Stencil

/-- A set of files. -/
structure Files where
  /-- The files under their cleaned paths. -/
  entries : List (Text × Text) := []
  /-- The directories that exist even if they are empty. -/
  directories : List Text := []
  deriving DecidableEq, Repr

namespace Files

/-- The content of the file at a path. -/
def get? (f : Files) (path : Text) : Option Text :=
  (f.entries.find? fun e => e.1 = Path.clean path).map Prod.snd

/-- Whether there is a directory at a path. -/
def isDirectory (f : Files) (path : Text) : Bool :=
  let p := Path.clean path
  p = "." || f.directories.any (fun d => d = p || (Path.ancestors d).contains p) ||
    f.entries.any fun e => (Path.ancestors e.1).contains p

/-- Whether a directory above a path is an ordinary file. -/
def isBlocked (f : Files) (path : Text) : Bool :=
  (Path.ancestors (Path.clean path)).any fun a => f.entries.any fun e => e.1 = a

/-- Creates or replaces the file at a path. -/
def write (f : Files) (path data : Text) : Files :=
  let p := Path.clean path
  { f with entries := (p, data) :: f.entries.filter fun e => e.1 ≠ p }

/-- Creates a directory and those above it. -/
def makeDirectory (f : Files) (path : Text) : Files :=
  { f with directories := f.directories ++ [Path.clean path] }

/-- Removes the file at a path, if there is one. -/
def remove (f : Files) (path : Text) : Files :=
  let p := Path.clean path
  { f with entries := f.entries.filter fun e => e.1 ≠ p }

/-- The files below a directory, in ascending order of their paths. -/
def below (f : Files) (dir : Text) : List (Text × Text) :=
  (f.entries.filter fun e => (Path.ancestors e.1).contains dir).mergeSort fun a b => Text.le a.1 b.1

/-- Reading a file after writing one. -/
theorem get?_write (f : Files) (p q data : Text) :
    (f.write p data).get? q = if Path.clean p = Path.clean q then some data else f.get? q := by
  by_cases h : Path.clean p = Path.clean q
  · simp [write, get?, h]
  · have hq : Path.clean q ≠ Path.clean p := fun e => h e.symm
    simp only [write, get?, List.find?_cons, h, decide_false, if_false, List.find?_filter]
    congr 2
    funext e
    by_cases he : e.1 = Path.clean q <;> simp [he, hq]

end Files

end Stencil
