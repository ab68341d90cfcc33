import Stencil.Config.Basic
import Stencil.Yaml.Value

/-!
# Settings documents

Settings are read from a YAML document whose root is a mapping. Each setting has a key; settings
without one, or with a null, keep their defaults, and other keys are ignored. A key that is given
twice is a fault.

A mapping may take over the entries of others with the key `<<`. Its own entries win, and so do
those taken over first. But an own key only counts if it is a text by its look: a key that looks
like a number, say, loses against the same one taken over.

Aliases may repeat large parts of a document many times over. So the nodes that are visited are
counted, and too large a share of them reached through aliases is a fault.

## Main definitions

* `Tally`, `Tally.isExcessive` – counting visits; `Settings.Read` – reading with a tally;
* `Settings.Target`, `Settings.entries` – where the entries of a mapping go, and the way there;
* `Config.ofDocument` – the settings of a document;
* `Config.ofYaml` – reading and checking settings.
-/

namespace Stencil

open Yaml (Node Document Value Malformed)

namespace Settings

/-! ### Visits -/

/-- Counts of visited nodes. -/
structure Tally where
  /-- All visits. -/
  visits : Nat := 0
  /-- The visits below an alias. -/
  aliased : Nat := 0
  /-- The numbers of the aliases that are being followed. -/
  followed : List Nat := []
  deriving Repr

/-- Whether too many visits come from aliases: more than 99 of 100 in a document with few visits,
and from 400000 visits on fewer with every visit, down to 10 of 100 at 4000000 visits. -/
def Tally.isExcessive (t : Tally) : Bool :=
  100 < t.aliased && 1000 < t.visits &&
    let excess := min t.visits 4000000 - 400000
    (99 * 3600000 - 89 * excess) * t.visits < 100 * 3600000 * t.aliased

/-- Reading with a tally. -/
abbrev Read := StateT Tally (Except Malformed)

/-- Stops, because the document is malformed. -/
def fail {α : Type} : Read α := fun _ => .error .malformed

/-- Counts a visit. -/
def visit : Read Unit := do
  let t ← get
  let t := { t with visits := t.visits + 1
                    aliased := t.aliased + if t.followed.isEmpty then 0 else 1 }
  if t.isExcessive then fail
  set t

/-- Visits a node and reads it, or the node that it refers to if it is an alias. An alias cannot be
followed while it is being followed. -/
def visiting {α : Type} (d : Document) (n : Node) (read : Node → Read α) : Read α := do
  visit
  match n with
  | .reference number _ target =>
    let followed := (← get).followed
    if followed.contains number then fail
    modify fun t => { t with followed := number :: followed }
    visit
    let a ← read (d.named[target]?.getD .empty)
    modify fun t => { t with followed }
    return a
  | n => read n

/-! ### Scalars -/

/-- Reads a scalar with its value. -/
def scalar {α : Type} (d : Document) (n : Node) (read : List Char → Value → Read α) : Read α :=
  visiting d n fun
    | .scalar style type t =>
      match Value.ofScalar style type t with
      | .ok v => read t v
      | .error _ => fail
    | _ => fail

/-- A scalar as a text, or nothing for a null. -/
def text? (d : Document) (n : Node) : Read (Option Text) :=
  scalar d n fun cs v =>
    match v with
    | .null => return none
    | .text t => return some t
    | _ => return some (Text.ofChars cs)

/-- The words for truth values that are only understood where a truth value is expected. -/
def flagWords : List (Text × Bool) :=
  let all (words : List Text) (b : Bool) : List (Text × Bool) := words.map (·, b)
  all ["y", "Y", "yes", "Yes", "YES", "on", "On", "ON"] true ++
    all ["n", "N", "no", "No", "NO", "off", "Off", "OFF"] false

/-- A scalar as a truth value, or nothing for a null. -/
def flag? (d : Document) (n : Node) : Read (Option Bool) :=
  scalar d n fun _ v =>
    match v with
    | .null => return none
    | .flag b => return some b
    | .text t =>
      match flagWords.lookup t with
      | some b => return some b
      | none => fail
    | _ => fail

/-- A scalar as a whole number, or nothing for a null. -/
def number? (d : Document) (n : Node) : Read (Option Int) :=
  scalar d n fun _ v =>
    match v with
    | .null => return none
    | .integer n => if n ≤ Value.maxInteger then return some n else fail
    | .decimal (some n) => return some n
    | _ => fail

/-- A key as it is compared with those taken over: nothing unless its value is a text. -/
def ownKey? (d : Document) (n : Node) : Read (Option Text) :=
  scalar d n fun _ v =>
    match v with
    | .text t => return some t
    | _ => return none

/-! ### Mappings -/

/-- Whether two nodes count as the same key. -/
def sameKey : Node → Node → Bool
  | .scalar _ _ a, .scalar _ _ b => a == b
  | .reference _ a _, .reference _ b _ => a == b
  | .sequence _, .sequence _ => true
  | .mapping _, .mapping _ => true
  | _, _ => false

/-- Whether no key is given twice. -/
def keysDistinct : List (Node × Node) → Bool
  | [] => true
  | (k, _) :: es => !es.any (fun e => sameKey k e.1) && keysDistinct es

/-- Whether a key stands for entries of other mappings. -/
def isMerge : Node → Bool
  | .scalar style type t =>
    t == ['<', '<'] &&
      match type with
      | some type => type == "!!merge"
      | none => style == .plain
  | _ => false

/-- Where the entries of a mapping go. -/
structure Target (σ : Type) where
  /-- Whether a key may be given only once in a mapping, however it is written. -/
  isSingle : Text → Bool
  /-- Takes the entry with a key, which is `own` unless it is taken over. -/
  put : σ → (own : Bool) → Text → Node → Read σ

/-- What is known while the entries of a mapping are read. -/
structure Progress (σ : Type) where
  /-- What the entries have been put into. -/
  result : σ
  /-- The keys that are not taken over again, if entries are being taken over. -/
  blocked : Option (List Text)
  /-- The keys of this mapping so far that may be given only once. -/
  given : List Text := []

/-- Reads one entry, unless it stands for other entries, has no key, or its key is blocked. -/
def entry {σ : Type} (d : Document) (target : Target σ) (own : Bool) (p : Progress σ)
    (e : Node × Node) : Read (Progress σ) := do
  if isMerge e.1 then return p
  let some key ← text? d e.1 | return p
  if (p.blocked.getD []).contains key then return p
  let p := { p with blocked := p.blocked.map (key :: ·) }
  if target.isSingle key && p.given.contains key then fail
  return { p with given := key :: p.given, result := ← target.put p.result own key e.2 }

/-- The mappings whose entries are taken over, or aliases of mappings. -/
def mergedNodes : Node → List Node
  | .sequence items => items
  | n => [n]

/-- Reads the entries of a mapping, and then those that it takes over. Mappings can be nested in
this way at most `bound` times. -/
def entries {σ : Type} (d : Document) (target : Target σ) :
    Nat → (own : Bool) → Option (List Text) → List (Node × Node) → σ → Read (σ × Option (List Text))
  | 0, _, _, _, _ => fail
  | bound + 1, own, blocked, es, s => do
    if !keysDistinct es then fail
    let p ← es.foldlM (entry d target own) { result := s, blocked }
    match es.find? fun e => isMerge e.1 with
    | none => return (p.result, p.blocked)
    | some (_, merged) =>
      let keys ← match p.blocked with
        | some keys => pure keys
        | none => es.filterMapM fun e => ownKey? d e.1
      let (s, keys) ← (mergedNodes merged).foldlM (fun (s, keys) n =>
        visiting d n fun
          | .mapping es => entries d target bound false keys es s
          | _ => fail) (p.result, some keys)
      return (s, if blocked.isSome then keys else none)

/-- How deeply mappings of a document can take over others: each alias is followed once at a time,
and between two aliases there is at most the depth of the document. -/
def depth (d : Document) (size : Nat) : Nat := (d.aliases + 1) * (size + 1)

/-! ### Settings -/

/-- The map with a key set to a value. -/
def insert (m : List (Text × Text)) (key value : Text) : List (Text × Text) :=
  if m.any (·.1 == key) then m.map fun e => if e.1 == key then (key, value) else e
  else (key, value) :: m

/-- The streams take every key. A null directory is an empty one, and does not replace another if it
is taken over. -/
def streamsTarget (d : Document) : Target (List (Text × Text)) where
  isSingle _ := false
  put m own key n := do
    match ← text? d n with
    | some t => return insert m key t
    | none => return if own || !m.any (·.1 == key) then insert m key [] else m

/-- Reads the streams from a mapping of names to directories; a null stands for none. -/
def streams (d : Document) (size : Nat) (n : Node) : Read (List (Text × Text)) :=
  visiting d n fun
    | .mapping es => do
      let (m, _) ← entries d (streamsTarget d) (depth d size) true none es []
      return m.mergeSort fun a b => Text.le a.1 b.1
    | .scalar style type t =>
      match Value.ofScalar style type t with
      | .ok .null => return []
      | _ => fail
    | _ => fail

/-- The keys of settings. -/
def keys : List Text :=
  ["source_dir", "compile_dir", "streams", "allow_relative_paths", "expression_engine",
   "max_source_size", "workers", "compress_dynamic"]

/-- Sets one setting. -/
def set (d : Document) (size : Nat) (c : Config) (key : Text) (n : Node) : Read Config := do
  if key = "source_dir" then return { c with sourceDir := (← text? d n).getD c.sourceDir }
  else if key = "compile_dir" then return { c with compileDir := (← text? d n).getD c.compileDir }
  else if key = "streams" then return { c with streams := ← streams d size n }
  else if key = "allow_relative_paths" then
    return { c with allowRelative := (← flag? d n).getD c.allowRelative }
  else if key = "expression_engine" then return { c with engine := (← text? d n).getD c.engine }
  else if key = "max_source_size" then
    return { c with maxSourceSize := (← text? d n).getD c.maxSourceSize }
  else if key = "workers" then return { c with workers := (← number? d n).getD c.workers }
  else if key = "compress_dynamic" then
    return { c with compressDynamic := (← flag? d n).getD c.compressDynamic }
  else return c

/-- The settings of the root of a document, of a source of the given size. A null has the
defaults. -/
def root (d : Document) (size : Nat) : Read Config := do
  visit
  visiting d d.root fun
    | .mapping es => do
      let target : Target Config := ⟨keys.contains, fun c _ key n => set d size c key n⟩
      return (← entries d target (depth d size) true none es {}).1
    | .scalar style type t =>
      match Value.ofScalar style type t with
      | .ok .null => return {}
      | _ => fail
    | _ => fail

end Settings

/-- The settings of a document, of a source of the given size. A document that is not there has the
defaults. -/
def Config.ofDocument (size : Nat) : Option Document → Except Malformed Config
  | none => .ok {}
  | some d => ((Settings.root d size).run {}).map Prod.fst

/-- Reads settings and checks them. -/
def Config.ofYaml (t : Text) : Except ConfigError Config :=
  match Document.ofText t >>= Config.ofDocument t.length with
  | .error _ => .error .malformed
  | .ok c => c.validate.map fun _ => c

end Stencil
