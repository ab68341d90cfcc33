import Stencil.Code.Buffers
import Stencil.Text.Basic
import Stencil.Tree.Node

/-!
# Tables beside the tree

Code buffers and properties are kept beside the tree, in tables from nodes to values. A node gets
its entry with the first change; whether it has one can be asked. Because identifiers are small
numbers that are never reused, a table is an array with the identifiers as positions.

## Main definitions

* `Property` – the values; `Property.print` – their printed form;
* `Properties` – the properties of a node; `Properties.get?`, `set`, `erase`, `names`;
* `Table` – the tables; `Table.get?`, `Table.modify`, `Table.forget`, `Table.size`.
-/

namespace Stencil.Code

/-! ## Properties

Stages leave properties on nodes, under names. A property is a value of any simple type; reading it
as a type it does not have gives that type's neutral value. Names are listed in ascending order. -/

/-- The value of a property. -/
inductive Property where
  /-- No value. -/
  | nothing
  /-- A truth value. -/
  | flag (b : Bool)
  /-- A number. -/
  | number (n : Int)
  /-- A text. -/
  | text (t : Text)
  /-- A list of values. -/
  | list (vs : List Property)
  /-- Values under names. -/
  | record (fields : List (Text × Property))
  deriving Repr, Inhabited

/-- The printed form of a value. -/
def Property.print : Property → Text
  | nothing => "<nil>"
  | flag b => Text.ofBool b
  | number n => Text.ofInt n
  | text t => t
  | list vs => "[" ++ Text.join " " (printAll vs) ++ "]"
  | record fields => "map[" ++ Text.join " " (inOrder (printFields fields)) ++ "]"
where
  /-- The printed forms of values. -/
  printAll : List Property → List Text
    | [] => []
    | v :: vs => v.print :: printAll vs
  /-- The printed forms of named values. -/
  printFields : List (Text × Property) → List (Text × Text)
    | [] => []
    | (n, v) :: fs => (n, v.print) :: printFields fs
  /-- Printed forms with their names in front, in ascending order of the names. -/
  inOrder (fields : List (Text × Text)) : List Text :=
    (fields.mergeSort fun a b => Text.le a.1 b.1).map fun f => f.1 ++ ":" ++ f.2

/-- The properties of a node. -/
structure Properties where
  /-- The values under their names. -/
  entries : List (Text × Property) := []
  deriving Repr

namespace Properties

/-- The property that asks a stage to come back to a node when it leaves it. -/
def postprocess : Text := "postprocess"

/-- The property of elements whose expressions must not be cached. -/
def dynamic : Text := "dynamic"

/-- The property in which the linker keeps the name of an element. -/
def linkName : Text := "link:name"

/-- The value of a property. -/
def get? (p : Properties) (name : Text) : Option Property :=
  (p.entries.find? fun e => e.1 = name).map Prod.snd

/-- Sets a property. -/
def set (p : Properties) (name : Text) (v : Property) : Properties :=
  ⟨(name, v) :: p.entries.filter fun e => e.1 ≠ name⟩

/-- Removes a property. -/
def erase (p : Properties) (name : Text) : Properties := ⟨p.entries.filter fun e => e.1 ≠ name⟩

/-- The number of properties. -/
def size (p : Properties) : Nat := p.entries.length

/-- The names in ascending order. -/
def names (p : Properties) : List Text := Text.sort (p.entries.map Prod.fst)

/-- The property as a text. -/
def text (p : Properties) (name : Text) : Text :=
  match p.get? name with
  | some (.text t) => t
  | _ => []

/-- The property as a truth value. -/
def flag (p : Properties) (name : Text) : Bool :=
  match p.get? name with
  | some (.flag b) => b
  | _ => false

/-- The property as a number. -/
def number (p : Properties) (name : Text) : Int :=
  match p.get? name with
  | some (.number n) => n
  | _ => 0

end Properties

/-! ## Tables -/

open Stencil.Tree (NodeId)

/-- A table from nodes to values. -/
structure Table (α : Type) where
  /-- The entry of each node. -/
  entries : Array (Option α) := #[]

namespace Table

variable {α : Type}

/-- The entry of a node. -/
def get? (t : Table α) (n : NodeId) : Option α := (t.entries[n]?).join

/-- Replaces or removes the entry of a node. -/
def put (t : Table α) (n : NodeId) (v : Option α) : Table α :=
  ⟨(t.entries ++ Array.replicate (n + 1 - t.entries.size) none).setIfInBounds n v⟩

/-- Changes the entry of a node, starting from `new` if it has none. -/
def modify (t : Table α) (n : NodeId) (new : α) (f : α → α) : Table α :=
  t.put n (some (f ((t.get? n).getD new)))

/-- Removes the entry of a node. -/
def forget (t : Table α) (n : NodeId) : Table α := t.put n none

/-- The number of nodes with an entry. -/
def size (t : Table α) : Nat := t.entries.countP Option.isSome

/-- Reading an entry after a change. -/
theorem get?_put (t : Table α) (n m : NodeId) (v : Option α) :
    (t.put n v).get? m = if m = n then v else t.get? m := by
  unfold put get?
  rw [Array.getElem?_setIfInBounds]
  by_cases h : m = n
  · subst h
    simp only [if_true, Array.size_append, Array.size_replicate]
    rw [if_pos (by omega)]
    simp
  · rw [if_neg (fun e => h e.symm), if_neg h, Array.getElem?_append]
    split
    · rfl
    · rename_i hm
      rw [Array.getElem?_eq_none (Nat.not_lt.1 hm), Array.getElem?_replicate]
      split <;> rfl

end Table

end Stencil.Code
