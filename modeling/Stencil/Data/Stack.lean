/-!
# Stacks

A stack is the list of its items, top first. Two variants of lookup go with it: by key from the top
downwards, and a push that refuses an item whose key is already on the stack.

## Main definitions

* `Stack` – the stacks; `Stack.push`, `Stack.pop`, `Stack.popTop`, `Stack.peek`;
* `Stack.find?` – the topmost item with a key;
* `Stack.pushNew?` – a push that keeps keys distinct.
-/

namespace Stencil

/-- A stack, as the list of its items from the top down. -/
structure Stack (α : Type) where
  /-- The items, top first. -/
  items : List α
  deriving DecidableEq, Repr

namespace Stack

variable {α κ : Type} [DecidableEq κ]

/-- The stack without items. -/
def empty : Stack α := ⟨[]⟩

/-- The stack with a further item on top. -/
def push (s : Stack α) (a : α) : Stack α := ⟨a :: s.items⟩

/-- The stack without its top `n` items. -/
def pop (s : Stack α) (n : Nat) : Stack α := ⟨s.items.drop n⟩

/-- The top item. -/
def top? (s : Stack α) : Option α := s.items.head?

/-- The top item, and the stack without it. -/
def popTop (s : Stack α) : Option α × Stack α := (s.top?, s.pop 1)

/-- The items from the bottom up, which is the order in which they were pushed. -/
def toList (s : Stack α) : List α := s.items.reverse

/-- The top `n` items, or all if there are fewer, from the bottom up. -/
def peek (s : Stack α) (n : Nat) : List α := (s.items.take n).reverse

/-- The topmost item with the given key. -/
def find? (key : α → κ) (s : Stack α) (k : κ) : Option α := s.items.find? fun a => key a = k

/-- The stack with a further item on top, unless an item with its key is there. -/
def pushNew? (key : α → κ) (s : Stack α) (a : α) : Option (Stack α) :=
  if (s.find? key (key a)).isSome then none else some (s.push a)

end Stack

end Stencil
