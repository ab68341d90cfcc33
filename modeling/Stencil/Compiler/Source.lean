import Stencil.Compiler.Basic
import Stencil.Number.Literal

/-!
# Reading templates

A template is read from the file that its name stands for. The file must not be larger than the
limit of the configuration, if there is one. One byte more than the limit is asked for when it is
read, so that a file which grows meanwhile is noticed; the count is a signed 64-bit word, and a
count that is not positive reads nothing.

## Main definitions

* `Files.readSource` – the content of a source file;
* `Compiler.loadTemplate` – the document of a template;
* `xmlParser` – the parser for templates in markup.
-/

namespace Stencil

open Stencil.Tree (NodeId)

/-- The number of bytes to ask for, as a signed 64-bit word. -/
def readCount (limit : Nat) : Int := (limit + 1 : Int).bmod Number.wordCount

/-- As many bytes of the data as are asked for. -/
def readLimited (limit : Nat) (data : Text) : Text :=
  if limit = 0 then data else data.take (readCount limit).toNat

/-- The content of the source file of a template. -/
def Files.readSource (f : Files) (name path : Text) (limit : Nat) : Except Failure Text :=
  let refuse (p : SourceProblem) : Except Failure Text := .error (.of (.source name p))
  match f.get? path with
  | some data =>
    if 0 < limit ∧ limit < data.length then refuse (.tooLarge data.length limit)
    else .ok (readLimited limit data)
  | none =>
    if f.isDirectory path then refuse .directory
    else if f.isBlocked path then refuse (.notADirectory path)
    else refuse (.notFound path)

/-- Reads and parses a template. -/
def Compiler.loadTemplate (c : Compiler) (p : Parser) (f : Files) (name : Text) : Work NodeId := do
  let path ← match c.streams.sourcePath name with
    | .ok path => pure path
    | .error e => Work.fail (.stream e)
  let source ← Work.lift (f.readSource name path c.limit)
  p.parse c.dialect name source

variable [Encoding.Decoders]

/-- Parses a source within a session. -/
def parseSource (d : Dialect) (source : Text) : Work NodeId := fun s =>
  match Tree.ofSource (some d.resolver) s.canceled source s.store with
  | (.error e, _) => (.error (.ofReadError e), s)
  | (.ok (), a) => (.ok (a.document.getD 0), { s with store := a.store })

/-- The parser for templates in markup. -/
def xmlParser : Parser where
  parse d name source := fun s =>
    let span := "parse " ++ name
    match parseSource d source { s with trace := .start span :: s.trace } with
    | (.ok doc, s) => (.ok doc, { s with trace := .finish span :: s.trace })
    | (.error f, s) =>
      (.error f, { s with trace := .finish span :: .failed "parse failed" [] f.message :: s.trace })

/-- Reads and parses a template without compiling it. -/
def Compiler.parse (c : Compiler) (f : Files) (name : Text) : Work NodeId := fun s =>
  match c.parser with
  | none => (.error ((Failure.of .noParser).inTemplate name), s)
  | some p =>
    match c.loadTemplate p f name s with
    | (.ok doc, s) => (.ok doc, p.dispose s)
    | (.error failure, s) => (.error (failure.inTemplate name), p.dispose s)

end Stencil
