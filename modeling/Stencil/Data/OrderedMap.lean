import Stencil.Text.Basic

/-!
# Maps that keep the order of insertion

A finite map whose entries are listed in the order in which their keys were inserted. Inserting
never overwrites: a key that is already there is refused, and so is the removal of a key that is
not there. A key that was removed and inserted again stands at the end.

The map is the list of its entries. No operation adds a key twice, so the first entry of a key is
its only one.

## Main definitions

* `OrderedMap` – the maps; `OrderedMap.entries`, `OrderedMap.get?` – its views;
* `OrderedMap.insert?`, `OrderedMap.erase?`, `OrderedMap.empty` – the operations;
* `EntryError` – why an insertion or a removal is refused.
-/

namespace Stencil

/-- Why an operation on a map or a stack with distinct keys is refused. -/
inductive EntryError where
  /-- The key of an insertion is there already. -/
  | duplicate
  /-- The key of a removal is not there. -/
  | missing
  /-- The key of an item to push is on the stack already. -/
  | duplicateItem
  deriving DecidableEq, Repr

/-- The wording of a refusal. -/
def EntryError.message : EntryError → Text
  | duplicate => "duplicate entry"
  | missing => "entry not found"
  | duplicateItem => "item already exists"

/-- A finite map with its entries in insertion order. -/
structure OrderedMap (α β : Type) where
  /-- The entries, earliest first. -/
  entries : List (α × β)
  deriving DecidableEq, Repr

namespace OrderedMap

variable {α β : Type} [DecidableEq α]

/-- The map without entries. -/
def empty : OrderedMap α β := ⟨[]⟩

/-- The value of a key. -/
def get? (m : OrderedMap α β) (k : α) : Option β :=
  (m.entries.find? fun e => e.1 = k).map Prod.snd

/-- Whether a key has a value. -/
def contains (m : OrderedMap α β) (k : α) : Bool := (m.get? k).isSome

/-- The keys in order. -/
def keys (m : OrderedMap α β) : List α := m.entries.map Prod.fst

/-- The values in the order of their keys. -/
def values (m : OrderedMap α β) : List β := m.entries.map Prod.snd

/-- The number of entries. -/
def size (m : OrderedMap α β) : Nat := m.entries.length

/-- The map with a further entry at the end, unless the key is there already. -/
def insert? (m : OrderedMap α β) (k : α) (v : β) : Option (OrderedMap α β) :=
  if m.contains k then none else some ⟨m.entries ++ [(k, v)]⟩

/-- The map without a key, if the key is there. -/
def erase? (m : OrderedMap α β) (k : α) : Option (OrderedMap α β) :=
  if m.contains k then some ⟨m.entries.filter fun e => e.1 ≠ k⟩ else none

/-- A key has a value exactly if it is one of the keys. -/
theorem contains_iff_mem_keys (m : OrderedMap α β) (k : α) : m.contains k = true ↔ k ∈ m.keys := by
  simp [contains, get?, keys]

end OrderedMap

end Stencil
