import Stencil.Command.Basic

/-!
# The executable

The executable runs the command on the files of the current directory. A file is read when the
command misses it, after which the command is run again with it; when nothing more can be supplied,
the compiled templates are written and the output is printed.

## Main definitions

* `Terminal` – how output is printed;
* `supply` – running the command until no file is missing;
* `main` – the entry point.
-/

namespace Stencil.Command

/-- The number of steps after which a compilation is given up. -/
def stepLimit : Nat := 1000000000000

/-! ### Printing -/

/-- Where output goes. -/
structure Terminal where
  /-- Standard output. -/
  output : IO.FS.Stream
  /-- Standard error. -/
  error : IO.FS.Stream
  /-- Whether colours are used. -/
  colours : Bool

namespace Terminal

/-- The bytes of a text. -/
def bytes (t : Text) : ByteArray := ⟨t.toArray⟩

/-- The sequence that switches to a colour, or back. -/
def colourCode (n : Nat) : Text := "\x1b[" ++ Text.ofNat n ++ "m"

/-- A text in the colour of a tone. -/
def paint (term : Terminal) (tone : Tone) (t : Text) : Text :=
  if !term.colours then t
  else
    match tone with
    | .plain => t
    | .bad => colourCode 31 ++ t ++ colourCode 0
    | .notable => colourCode 33 ++ t ++ colourCode 0
    | .good => colourCode 32 ++ t ++ colourCode 0

/-- How many items two lists have in common at their heads. -/
def commonLength : Text → Text → Nat
  | a :: t, b :: u => if a = b then commonLength t u + 1 else 0
  | _, _ => 0

/-- Two texts as one: what they share at both ends, and between that what the old one had, in the
colour of failures, and what the new one has, in that of successes. -/
def difference (old new : Text) : Text :=
  let start := commonLength old new
  let old' := old.drop start
  let new' := new.drop start
  let tail := commonLength old'.reverse new'.reverse
  old.take start ++ colourCode 31 ++ old'.take (old'.length - tail) ++ colourCode 0 ++
    colourCode 32 ++ new'.take (new'.length - tail) ++ colourCode 0 ++
    new'.drop (new'.length - tail) ++ "\n"

/-- Prints a piece of output. -/
def print (term : Terminal) : Line → IO Unit
  | .output tone t => term.output.write (bytes (term.paint tone t))
  | .error tone t => term.error.write (bytes (term.paint tone t))
  | .difference old new => term.output.write (bytes (difference old new))

/-- Prints a record of the work. -/
def printRecord (term : Terminal) (r : TraceRecord) : IO Unit := do
  let level : Text := if r.level = .debug then "DEBUG" else "ERROR"
  let shown : List (Text × Text) := ("level", level) :: ("msg", r.message) :: r.fields
  let line := Text.join " " (shown.map fun (k, v) => k ++ Text.ofString "=" ++ v)
  term.error.write (bytes (line ++ Text.ofString "\n"))

end Terminal

/-! ### Files -/

/-- A path as a string. -/
def pathString (path : Text) : String := (Text.toString? path).getD ""

/-- Reads a file into the set of files, and tells whether there is one. A directory counts as
one. -/
def fetch (files : Files) (path : Text) : IO (Option Files) := do
  let at_ := (← IO.currentDir) / pathString path
  if ← at_.isDir then return some (files.makeDirectory path)
  if ← at_.pathExists then
    let data ← IO.FS.readBinFile at_
    return some (files.write path data.toList)
  return none

/-- Reads those of the given files that exist and are not known yet. -/
def fetchAll (files : Files) (paths : List Text) : IO Files :=
  paths.foldlM (fun files path => do
    if (files.get? path).isSome || files.isDirectory path then return files
    return (← fetch files path).getD files) files

/-- Writes the file at a path as it is in the set of files, or removes it. -/
def store (files : Files) (path : Text) : IO Unit := do
  let at_ := (← IO.currentDir) / pathString path
  match files.get? path with
  | some data =>
    if let some dir := at_.parent then IO.FS.createDirAll dir
    IO.FS.writeBinFile at_ ⟨data.toArray⟩
  | none => if ← at_.pathExists then IO.FS.removeFile at_

/-- Runs the command, supplying files for as long as it misses some that exist. -/
partial def supply (i : Invocation) (input : Option Text) (files : Files) :
    IO (Option (Outcome × Files)) := do
  match i.run input files stepLimit with
  | none => return none
  | some (outcome, after) =>
    let more ← fetchAll files outcome.missing
    if more = files then return some (outcome, after) else supply i input more

/-! ### The entry point -/

/-- All that can be read from a stream, behind the pieces read so far, latest first. -/
partial def readAll (stream : IO.FS.Stream) (pieces : List Text) : IO Text := do
  let piece ← stream.read 65536
  if piece.isEmpty then return pieces.reverse.flatten else readAll stream (piece.toList :: pieces)

/-- Runs a call and gives its exit status. -/
def execute (i : Invocation) : IO UInt32 := do
  let stdin ← IO.getStdin
  let term : Terminal :=
    { output := ← IO.getStdout, error := ← IO.getStderr
      colours := !i.options.noColor && (← (← IO.getStdout).isTty) }
  let readsInput := i.names.isEmpty && !i.options.version
  let input ← if !readsInput then pure (some [])
    else if ← stdin.isTty then pure none
    else some <$> readAll stdin []
  match ← supply i input {} with
  | none =>
    term.print (.error .bad "the compilation does not come to an end\n")
    return 1
  | some (outcome, files) =>
    for path in outcome.stored do
      store files path
      store files (Artifact.dynamicPath path)
    if i.options.verbose then outcome.trace.forM term.printRecord
    outcome.lines.forM term.print
    return outcome.status.toUInt32

end Stencil.Command

/-- Runs the command with the words of the command line. -/
def main (words : List String) : IO UInt32 := do
  match Stencil.Command.Invocation.parse (words.map Stencil.Text.ofString) with
  | .ok i => Stencil.Command.execute i
  | .error e =>
    (← IO.getStderr).write (Stencil.Command.Terminal.bytes (e.message ++ "\n"))
    (← IO.getStdout).write (Stencil.Command.Terminal.bytes Stencil.Command.usage)
    return 1
