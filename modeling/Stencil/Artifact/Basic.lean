import Stencil.Artifact.Block
import Stencil.Artifact.StringList
import Stencil.Files.Basic

/-!
# Compiled templates

A compiled template consists of its text and of the fragments of it that must not be cached. The
text is stored with a comment in front that lists the other templates it was made from, so that a
reader can tell when it is out of date. The fragments go to a file beside it, if there are any,
possibly compressed; a file that is left from an earlier compilation is removed.

## Main definitions

* `Artifact` – a compiled template; `Artifact.content` – its stored form;
* `Artifact.readDependencies` – reading the comment back;
* `Artifact.encodeBlocks`, `Artifact.decodeBlocks` – the stored form of the fragments;
* `Artifact.write` – storing a compiled template.
-/

namespace Stencil

/-- A compiled template. -/
structure Artifact where
  /-- The name of the template. -/
  template : Text
  /-- Where it is stored; empty if it is not. -/
  path : Text := []
  /-- The text. -/
  output : Text
  /-- The other templates it was made from. -/
  dependencies : List Text := []
  /-- The fragments that must not be cached. -/
  dynamicBlocks : List Text := []
  deriving DecidableEq, Repr

/-- Why a stored template could not be read. -/
inductive ArtifactError where
  /-- The comment has no end. -/
  | unterminatedHeader
  /-- The stored list is no list of texts. -/
  | malformedList
  /-- The file of fragments ends too early. -/
  | truncated
  /-- The file of fragments claims more than it can hold. -/
  | impossibleSize (compressed size : Nat)
  /-- The compressed block is damaged. -/
  | damagedBlock
  deriving DecidableEq, Repr

/-- The wording of an error. -/
def ArtifactError.message : ArtifactError → Text
  | unterminatedHeader => "unterminated dependency header"
  | malformedList => "cannot decode a list of strings"
  | truncated => "corrupt compiled artifact: truncated dynamic block file"
  | impossibleSize compressed size =>
    "corrupt compiled artifact: " ++ Text.ofNat compressed ++ " compressed bytes cannot hold " ++
      Text.ofNat size ++ " bytes of dynamic blocks"
  | damagedBlock => "cannot decompress dynamic blocks"

namespace Artifact

/-- The beginning of the comment. -/
def headerStart : Text := "<?php /* declari:dependencies "

/-- The end of the comment. -/
def headerEnd : Text := " */ ?>"

/-- The stored form of the text. -/
def content (a : Artifact) : Text :=
  if a.dependencies = [] then a.output
  else headerStart ++ StringList.render a.dependencies ++ headerEnd ++ a.output

/-- The list of other templates in the stored form of a text; nothing if there is no comment. -/
def readDependencies (t : Text) : Except ArtifactError (Option (List Text)) :=
  match Text.dropStart? headerStart t with
  | none => .ok none
  | some rest =>
    match Text.find? headerEnd rest with
    | none => .error .unterminatedHeader
    | some n =>
      match StringList.parse? (rest.take n) with
      | none => .error .malformedList
      | some list => .ok list

/-! ### Fragments -/

/-- The mark of compressed fragments. -/
def magic : Text := "DLZ4"

/-- No compressed block holds more than this many times its size. -/
def maxRatio : Nat := 255

/-- A number below 2^32 as four bytes, most significant first. -/
def sizeBytes (n : Nat) : Text := [24, 16, 8, 0].map fun k => UInt8.ofNat (n / Nat.pow 2 k % 256)

/-- The number written as four bytes, most significant first. -/
def sizeOf (a b c d : UInt8) : Nat := ((a.toNat * 256 + b.toNat) * 256 + c.toNat) * 256 + d.toNat

/-- The uncompressed form of fragments, or of there being no list of them. -/
def encodeList (blocks : Option (List Text)) : Text :=
  (blocks.map StringList.render).getD StringList.absent

/-- The stored form of fragments. They stay uncompressed if there is no block for them. -/
def encodeBlocks (blocks : Option (List Text)) (compress : Bool)
    (codec : Block.Codec := Block.literals) : Text :=
  let data := encodeList blocks
  if compress then
    let block := codec.compress data
    if block = [] then data else magic ++ sizeBytes data.length ++ block
  else data

/-- The list of fragments in uncompressed form. -/
def decodeList (data : Text) : Except ArtifactError (Option (List Text)) :=
  match StringList.parse? data with
  | none => .error .malformedList
  | some list => .ok list

/-- Reads fragments from their stored form. -/
def decodeBlocks (t : Text) (codec : Block.Codec := Block.literals) :
    Except ArtifactError (Option (List Text)) :=
  match Text.dropStart? magic t with
  | none => decodeList t
  | some (a :: b :: c :: d :: block) =>
    let size := sizeOf a b c d
    if block.length * maxRatio < size then .error (.impossibleSize block.length size)
    else
      match codec.decompress size block with
      | none => .error .damagedBlock
      | some data => decodeList data
  | some _ => .error .truncated

/-! ### Storing -/

/-- The path of the file of fragments that belongs to a path. -/
def dynamicPath (path : Text) : Text := path ++ ".dyn"

/-- Stores a compiled template. -/
def write (a : Artifact) (compress : Bool) (f : Files) (codec : Block.Codec := Block.literals) :
    Files :=
  let f := f.makeDirectory (Path.parent (Path.clean a.path))
  let f := if a.dynamicBlocks = [] then f.remove (dynamicPath a.path)
    else f.write (dynamicPath a.path) (encodeBlocks (some a.dynamicBlocks) compress codec)
  f.write a.path a.content

end Artifact

end Stencil
