import Stencil.Text.Space
import Stencil.Tree.Children

/-!
# Character data

Character data is a byte string and is edited by byte offsets. An offset has to lie within the data
or at its end; a count that reaches beyond the end means the rest.

A run of text collects character data: data added to it joins the character data at its end, so that
two neighbours never hold parts of one run.

## Main definitions

* `CharacterData.insert`, `CharacterData.replace`, `CharacterData.slice` – edits of a byte string;
* `Store.appendData` – adding data to a run of text;
* `Store.isWhiteSpace` – whether a run of text is blank.
-/

namespace Stencil.Tree

namespace CharacterData

/-- The offset as a position in the data. -/
def checkOffset (data : Text) (offset : Int) : Except TreeError Nat :=
  if offset < 0 || offset > data.length then .error (.offsetOutOfRange offset data.length)
  else .ok offset.toNat

/-- The position behind `count` bytes from `start`, at most the end of the data. -/
def checkCount (data : Text) (start : Nat) (count : Int) : Except TreeError Nat :=
  if count < 0 then .error (.countOutOfRange count) else .ok (min data.length (start + count.toNat))

/-- The data with `new` inserted at an offset. -/
def insert (data : Text) (offset : Int) (new : Text) : Except TreeError Text := do
  let start ← checkOffset data offset
  return data.take start ++ new ++ data.drop start

/-- The data with `count` bytes from an offset replaced by `new`. -/
def replace (data : Text) (offset count : Int) (new : Text) : Except TreeError Text := do
  let start ← checkOffset data offset
  let stop ← checkCount data start count
  return data.take start ++ new ++ data.drop stop

/-- The data without `count` bytes from an offset. -/
def delete (data : Text) (offset count : Int) : Except TreeError Text :=
  replace data offset count []

/-- The `count` bytes from an offset. -/
def slice (data : Text) (offset count : Int) : Except TreeError Text := do
  let start ← checkOffset data offset
  let stop ← checkCount data start count
  return (data.take stop).drop start

end CharacterData

namespace Store

/-- The character data of a node; empty for a node of any other kind. -/
def data (s : Store) (n : NodeId) : Text :=
  match s.payload? n with
  | some (.cdata t) => t
  | _ => []

/-- A new run of text, with the given character data in it unless that is empty. -/
def newText (s : Store) (data : Text) : NodeId × Store :=
  let (t, s) := s.add { payload := .text }
  if data = [] then (t, s)
  else
    let (c, s) := s.add { payload := .cdata data }
    (t, s.attachLast t c)

/-- Adds character data at the end of a run of text. -/
def appendData (s : Store) (t : NodeId) (data : Text) : Store :=
  let last := s.lastChild? t
  match last, last.bind s.payload? with
  | some c, some (.cdata old) => s.setPayload c (.cdata (old ++ data))
  | _, _ =>
    let (c, s) := s.add { payload := .cdata data }
    s.attachLast t c

/-- Whether a run of text holds nothing but blank character data. -/
def isWhiteSpace (s : Store) (t : NodeId) : Bool :=
  (s.children t).all fun c =>
    match s.payload? c with
    | some (.cdata d) => d.isBlank
    | _ => false

end Store

end Stencil.Tree
