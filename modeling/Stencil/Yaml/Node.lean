import Stencil.Yaml.Token

/-!
# Documents as graphs

A document is read from its tokens as a tree in which an alias refers to a named node by its number.
The name is known from where the node begins, so an alias may refer to a node that contains it. A
name that is given again refers to the later node from there on.

Only the first document of a source is read. Of what follows it, as much is looked at as the reader
of tokens reads ahead for the token behind the document.

The readers are mutually recursive and bounded by the number of tokens: each of them uses a token
before it is called again.

## Main definitions

* `Node` – the trees; `Document` – a tree and its named nodes;
* `Document.ofText` – the first document of a source, if there is a document.
-/

namespace Stencil.Yaml

/-- The tree of a document. -/
inductive Node where
  /-- A scalar with its type, if one is given. -/
  | scalar (style : Style) (type : Option Text) (text : List Char)
  /-- A sequence. -/
  | sequence (items : List Node)
  /-- A mapping, as written. -/
  | mapping (entries : List (Node × Node))
  /-- The alias with a number of its own and a name, which refers to a named node by its number. -/
  | reference (number : Nat) (name : List Char) (target : Nat)
  deriving Repr, Inhabited

/-- The node that stands where nothing is written. -/
def Node.empty : Node := .scalar .plain none []

/-- A document. -/
structure Document where
  /-- The tree. -/
  root : Node
  /-- The named nodes by their numbers. -/
  named : Array Node := #[]
  /-- The number of aliases. -/
  aliases : Nat := 0
  deriving Repr

/-- What the written out types of the format begin with. -/
def formatTypes : Text := "tag:yaml.org,2002:"

/-- The short form of a type. -/
def shortType (t : Text) : Text :=
  match Text.dropStart? formatTypes t with
  | some rest => "!!" ++ rest
  | none => t

/-- The handles that are known without a directive. -/
def standardHandles : List (Text × Text) := [("!", "!"), ("!!", formatTypes)]

/-- The state of reading nodes. -/
structure Builder where
  /-- The tokens. -/
  lexer : Lexer
  /-- What the handles of types stand for. -/
  handles : List (Text × Text) := standardHandles
  /-- The names of nodes with their numbers, latest first. -/
  names : List (List Char × Nat) := []
  /-- The named nodes by their numbers. -/
  named : Array Node := #[]
  /-- The number of aliases so far. -/
  aliases : Nat := 0

/-- A computation on the tokens of a document. -/
abbrev Build := StateT Builder (Except Malformed)

namespace Build

/-- Stops, because the document is malformed. -/
def fail {α : Type} : Build α := fun _ => .error .malformed

/-- Works on the tokens. -/
def lex {α : Type} (r : Lex α) : Build α := fun b => do
  let (a, lexer) ← r b.lexer
  return (a, { b with lexer })

/-- The next token. -/
def peek : Build Token := lex Lex.peek

/-- Takes a token. -/
def next : Build Unit := lex Lex.drop

/-- Takes the token `t` if it is next, and tells whether it was. -/
def accept (t : Token) : Build Bool := do
  if (← peek) == t then
    next
    return true
  else return false

/-- Whether one of the given tokens is next. -/
def isBefore (ts : List Token) : Build Bool := do return ts.contains (← peek)

/-! ### Names and types -/

/-- The type that is written with a handle and a suffix. -/
def type (t : Tag) : Build Text := do
  if t.handle.isEmpty then return t.suffix
  match (← get).handles.lookup t.handle with
  | some start => return start ++ t.suffix
  | none => fail

/-- The name and the type in front of a node, in either order. -/
def marks : Build (Option (List Char) × Option Text) := do
  match ← peek with
  | .anchor name =>
    next
    match ← peek with
    | .tag t =>
      next
      return (some name, some (← type t))
    | _ => return (some name, none)
  | .tag t =>
    next
    match ← peek with
    | .anchor name =>
      next
      return (some name, some (← type t))
    | _ => return (none, some (← type t))
  | _ => return (none, none)

/-- Reads a node and gives it its name, which is known inside of it. -/
def named (name : Option (List Char)) (read : Build Node) : Build Node := do
  match name with
  | none => read
  | some name =>
    let number := (← get).named.size
    modify fun b => { b with names := (name, number) :: b.names, named := b.named.push .empty }
    let n ← read
    modify fun b => { b with named := b.named.setIfInBounds number n }
    return n

/-- The node that an alias refers to. -/
def reference (name : List Char) : Build Node := do
  let b ← get
  match b.names.lookup name with
  | some target =>
    set { b with aliases := b.aliases + 1 }
    return .reference b.aliases name target
  | none => fail

/-- A scalar. An exclamation mark alone is no type. -/
def scalar (style : Style) (type : Option Text) (text : List Char) : Node :=
  .scalar style ((type.filter fun t => t != ("!" : Text)).map shortType) text

/-! ### Nodes -/

mutual

/-- Reads a node. An indented one is read only if `blocks` is set, and a sequence that is not
indented more than its key only if `level` is set. -/
def node (blocks level : Bool) : Nat → Build Node
  | 0 => fail
  | bound + 1 => do
    if let .reference name ← peek then
      next
      return ← reference name
    let (name, type) ← marks
    let t ← peek
    match t with
    | .scalar style text =>
      next
      named name (return scalar style type text)
    | .flowSequence =>
      next
      named name (return .sequence (← flowItems true [] bound))
    | .flowMapping =>
      next
      named name (return .mapping (← flowEntries true [] bound))
    | _ =>
      if level && t == .blockEntry then
        named name (return .sequence (← levelItems [] bound))
      else if blocks && t == .blockSequence then
        next
        named name (return .sequence (← blockItems [] bound))
      else if blocks && t == .blockMapping then
        next
        named name (return .mapping (← blockEntries [] bound))
      else if name.isNone && type.isNone then fail
      else named name (return scalar .plain type [])

/-- Reads a node, unless one of the given tokens is next: then nothing is written here. -/
def nodeUnless (ts : List Token) (blocks level : Bool) : Nat → Build Node
  | 0 => fail
  | bound + 1 => do
    if ← isBefore ts then return .empty else node blocks level bound

/-- Reads the items of an indented sequence up to its end, after those in `items`, latest first. -/
def blockItems (items : List Node) : Nat → Build (List Node)
  | 0 => fail
  | bound + 1 => do
    if ← accept .blockEnd then return items.reverse
    if !(← accept .blockEntry) then fail
    let item ← nodeUnless [.blockEntry, .blockEnd] true false bound
    blockItems (item :: items) bound

/-- Reads the items of a sequence at the indentation of its key, after those in `items`, latest
first. -/
def levelItems (items : List Node) : Nat → Build (List Node)
  | 0 => fail
  | bound + 1 => do
    if !(← accept .blockEntry) then return items.reverse
    let item ← nodeUnless [.blockEntry, .key, .value, .blockEnd] true false bound
    levelItems (item :: items) bound

/-- Reads the entries of an indented mapping up to its end, after those in `entries`, latest
first. -/
def blockEntries (entries : List (Node × Node)) : Nat → Build (List (Node × Node))
  | 0 => fail
  | bound + 1 => do
    if ← accept .blockEnd then return entries.reverse
    if !(← accept .key) then fail
    let k ← nodeUnless [.key, .value, .blockEnd] true true bound
    let v ← if ← accept .value then nodeUnless [.key, .value, .blockEnd] true true bound
      else pure .empty
    blockEntries ((k, v) :: entries) bound

/-- Reads the value of a key inside brackets or braces, which end with `closing`. -/
def flowValue (closing : Token) : Nat → Build Node
  | 0 => fail
  | bound + 1 => do
    if ← accept .value then nodeUnless [.flowEntry, closing] false false bound else return .empty

/-- Reads the items of a sequence in brackets up to its end, after those in `items`, latest first.
An item can be a key with a value; if nothing is written for the key, the token in its place is
passed over. -/
def flowItems (first : Bool) (items : List Node) : Nat → Build (List Node)
  | 0 => fail
  | bound + 1 => do
    if ← accept .flowSequenceEnd then return items.reverse
    if !first then
      if !(← accept .flowEntry) then fail
      if ← accept .flowSequenceEnd then return items.reverse
    let item ←
      if ← accept .key then do
        let k ←
          if ← isBefore [.value, .flowEntry, .flowSequenceEnd] then do
            next
            pure Node.empty
          else node false false bound
        pure (Node.mapping [(k, ← flowValue .flowSequenceEnd bound)])
      else node false false bound
    flowItems false (item :: items) bound

/-- Reads the entries of a mapping in braces up to its end, after those in `entries`, latest
first. -/
def flowEntries (first : Bool) (entries : List (Node × Node)) : Nat → Build (List (Node × Node))
  | 0 => fail
  | bound + 1 => do
    if ← accept .flowMappingEnd then return entries.reverse
    if !first then
      if !(← accept .flowEntry) then fail
      if ← accept .flowMappingEnd then return entries.reverse
    let entry ←
      if ← accept .key then do
        let k ← nodeUnless [.value, .flowEntry, .flowMappingEnd] false false bound
        pure (k, ← flowValue .flowMappingEnd bound)
      else do pure (← node false false bound, Node.empty)
    flowEntries false (entry :: entries) bound

end

/-! ### Documents -/

/-- Reads directives, at most `bound` of them. The version may be given once and has to be 1.1, and
each handle may be given once; `version` and `handles` are what has been given so far. -/
def directives (version : Bool) (handles : List (Text × Text)) : Nat → Build (List (Text × Text))
  | 0 => return handles
  | bound + 1 => do
    match ← peek with
    | .directive (.version major minor) =>
      if version || major != 1 || minor != 1 then fail
      next
      directives true handles bound
    | .directive (.handle name start) =>
      if (handles.lookup name).isSome then fail
      next
      directives version ((name, start) :: handles) bound
    | _ => return handles

/-- Reads the first document. -/
def document (bound : Nat) : Build (Option Node) := do
  let _ ← peek
  next
  let root ← match ← peek with
    | .finish => return none
    | .directive _ | .documentStart =>
      let handles ← directives false [] bound
      modify fun b => { b with handles := handles ++ standardHandles }
      if !(← accept .documentStart) then fail
      match ← peek with
      | .directive _ | .documentStart | .documentEnd | .finish => pure Node.empty
      | _ => node true false bound
    | _ => node true false bound
  let _ ← peek
  return some root

end Build

/-- The first document of a source, if there is a document. -/
def Document.ofText (t : Text) : Except Malformed (Option Document) := do
  let size := t.length
  let (root, b) ← (Build.document (8 * size + 64)).run { lexer := .start size (pieces t) }
  return root.map fun root => { root, named := b.named, aliases := b.aliases }

end Stencil.Yaml
