import Stencil.Files.Basic

/-!
# Template names

A template is named by a path within a stream, where a stream is a name for a directory. A name
without a colon belongs to the default stream; otherwise the stream stands before the first colon.
Unless it is allowed, no component of the path may be a double dot, with slashes and backslashes
taken alike, so that a name cannot leave its stream.

The compiled form of a template is stored under a path made of the names of the templates it was
assembled from and its own name, each as a single component. The list is sorted, so that the same
set of templates always leads to the same path.

## Main definitions

* `Streams` – the streams and the directory of compiled templates;
* `Streams.sourcePath`, `Streams.compiledPath` – where templates are read from and written to;
* `StreamError` – refused names, and `StreamError.message`.
-/

namespace Stencil

/-- The streams of a compiler. -/
structure Streams where
  /-- The directories of the streams under their names. -/
  directories : List (Text × Text)
  /-- The directory of compiled templates. -/
  compileDir : Text
  /-- Whether names may contain double dots. -/
  allowRelative : Bool := false
  deriving DecidableEq, Repr

/-- Why a name of a stream or a template was refused. -/
inductive StreamError where
  /-- There is a stream of that name already. -/
  | nameInUse (name : Text)
  /-- There is no stream of that name. -/
  | unknown (name : Text)
  /-- The template names a stream that does not exist. -/
  | unknownFor (path stream : Text)
  /-- The template's path contains a double dot. -/
  | relative (path : Text)
  deriving DecidableEq, Repr

/-- The wording of a refusal. -/
def StreamError.message : StreamError → Text
  | nameInUse name =>
    "the stream name " ++ name.quoted ++ " is already in use: invalid configuration"
  | unknown name => "stream " ++ name.quoted ++ ": unknown template stream"
  | unknownFor path stream =>
    "cannot load " ++ path.quoted ++ ": stream " ++ stream.quoted ++ ": unknown template stream"
  | relative path => "cannot load " ++ path.quoted ++ ": relative paths are not allowed"

namespace Streams

/-- The name of the stream of templates that name none. -/
def defaultName : Text := "default"

/-- The streams with only the default one. -/
def ofDirectories (sourceDir compileDir : Text) : Streams :=
  ⟨[(defaultName, sourceDir)], compileDir, false⟩

/-- The directory of a stream. -/
def get? (s : Streams) (name : Text) : Option Text :=
  (s.directories.find? fun e => e.1 = name).map Prod.snd

/-- Whether there is a stream of that name. -/
def contains (s : Streams) (name : Text) : Bool := (s.get? name).isSome

/-- The directory of a stream, or a refusal. -/
def directory (s : Streams) (name : Text) : Except StreamError Text :=
  match s.get? name with
  | some dir => .ok dir
  | none => .error (.unknown name)

/-- Adds a stream under a new name. -/
def add (s : Streams) (name dir : Text) : Except StreamError Streams :=
  if s.contains name then .error (.nameInUse name)
  else .ok { s with directories := s.directories ++ [(name, dir)] }

/-- Removes a stream. -/
def remove (s : Streams) (name : Text) : Except StreamError Streams :=
  if s.contains name then .ok { s with directories := s.directories.filter fun e => e.1 ≠ name }
  else .error (.unknown name)

/-- The stream and the path of a template name. -/
def splitName (name : Text) : Text × Text := (Text.cut? 0x3a name).getD (defaultName, name)

/-- Slashes and backslashes as slashes. -/
def unifySlashes (path : Text) : Text := path.map fun b => if b = 0x5c then 0x2f else b

/-- Whether a path contains a double dot as a component. -/
def hasDoubleDot (path : Text) : Bool := (Path.components (unifySlashes path)).contains ".."

/-- The path of the source of a template. -/
def sourcePath (s : Streams) (name : Text) : Except StreamError Text :=
  let (stream, path) := splitName name
  match s.get? stream with
  | none => .error (.unknownFor path stream)
  | some dir =>
    if !s.allowRelative && hasDoubleDot path then .error (.relative path)
    else .ok (Path.join [dir, path])

/-- A name as a single component of a path. -/
def flatten (name : Text) : Text :=
  name.map fun b => if b = 0x2f ∨ b = 0x3a ∨ b = 0x5c then 0x5f else b

/-- The path of the compiled form of a template that was assembled from the given other ones. -/
def compiledPath (s : Streams) (name : Text) (inheritance : List Text) : Text :=
  Path.join ([s.compileDir] ++ (Text.sort inheritance).map flatten ++ [flatten name ++ ".php"])

end Streams

end Stencil
