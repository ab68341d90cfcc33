import Mathlib.Data.Prod.Lex
import Stencil.Compiler.Session
import Stencil.Language.Basic
import Stencil.Proofs.Data.Action
import Stencil.Proofs.Tree.Content
import Stencil.Proofs.Tree.Labels

/-!
# What expansion means

The stage that changes the tree keeps two stacks and a table that it changes on the way, and moves
and copies nodes. What comes out of it can be said without any of that, by recursion over contents.
A *scene* is all that matters at a place: the definitions, the names of the uses around it, and the
*frame*, which is the definition that the place was copied from. `opening` says in which scene the
content of an element goes on, and what that content is; `expanded` repeats this down the tree. A
use that stands in its own expansion is refused, so every use takes a name, and an element `parent`
goes on to a later definition: this is why the recursion ends.

Definitions are collected in document order where no use is around (`collected`). In the content of
a definition or of a use there are none, so an expansion goes on with the definitions it began with;
the former content of the place of use is one more of them, for as long as that use lasts.

## Main definitions

* `Language.extractOf` – extraction from what a node and its attributes say
* `Failure.atSelf` – noting a node of which only the content is known
* `Language.Role`, `Language.roleOf` – what a node is for the stage
* `Language.Table`, `Language.Scene` – the definitions, and what matters at a place
* `Language.opening`, `Language.expanded` – expansion in a scene
* `Language.collected` – expansion that collects definitions
* `Language.Plain`, `Language.Closed` – contents that need no more than that

## Main results

* `Language.extractAttributes_eq` – extraction is a function of contents
-/

/-! ## Extraction from contents

What an instruction is told about the attributes of its element depends on what the element and its
attributes say, and on nothing else: not on the identifiers of nodes, and not on the rest of the
tree. So extraction can be read as a function of contents. That needs that attributes are listed
under the names they have (`Labelled`), because extraction looks for names in the table of an
element. -/

namespace Stencil

open Stencil.Tree (Node NodeId Store AttributeData)

variable {s : Store} {n e a : NodeId}

namespace Tree

/-- The name in messages of a node of which only the content is known. -/
def labelOf (self : Option Node) : Text :=
  (self.map fun node => node.payload.label).getD (Text.ofString "#unknown")

/-- The source line of a node of which only the content is known. -/
def lineOf (self : Option Node) : Int := (self.map fun node => node.line).getD 0

/-- What the attributes of a node say. -/
def facetsOf (attributes : List (Option Node)) : List AttributeData :=
  attributes.filterMap fun node => node.bind fun node => node.payload.facet?

theorem labelOf_loose (s : Store) (n : NodeId) : labelOf (s.loose n) = s.label n :=
  (Store.label_eq_loose s n).symm

theorem lineOf_loose (s : Store) (n : NodeId) : lineOf (s.loose n) = s.line n := by
  rw [lineOf, Store.loose, Store.line, Option.map_map]
  rfl

theorem facetsOf_loose (s : Store) (l : List NodeId) :
    facetsOf (l.map s.loose) = l.filterMap s.facet? := by
  rw [facetsOf, List.filterMap_map]
  exact List.filterMap_congr fun a _ => (Store.facet?_eq_loose s a).symm

end Tree

/-- Notes a node of which only the content is known, unless a node was noted before. -/
def Failure.atSelf (self : Option Node) (f : Failure) : Failure :=
  if f.node?.isSome then f else f.within (.node (Tree.labelOf self) (Tree.lineOf self))

theorem Failure.atNode_eq (f : Failure) : f.atNode s n = f.atSelf (s.loose n) := by
  rw [Failure.atNode, Failure.atSelf, Tree.labelOf_loose, Tree.lineOf_loose]

theorem Work.atNode_error {α : Type} {w : Work α} {σ σ' : Session} {f : Failure}
    (h : w σ = (.error f, σ')) (hstore : σ'.store = σ.store) :
    Work.atNode n w σ = (.error (f.atSelf (σ.store.loose n)), σ') := by
  rw [Work.atNode, h]
  dsimp only
  rw [Failure.atNode_eq, hstore]

namespace Language

variable {d : Dialect} {element : Text} {facets : List AttributeData} {spec : AttributeSpec}

/-- The value of a demanded attribute, among the attributes of an element. -/
def demandedOf (d : Dialect) (element : Text) (facets : List AttributeData) (spec : AttributeSpec) :
    Except Failure (Option (Text × AttributeValue)) :=
  match facets.find? fun a => a.full = spec.name with
  | none =>
    if spec.required then .error (.of (.requiredAttribute spec.name element))
    else .ok (some (spec.name, spec.default))
  | some a =>
    if a.uri.isSome then .ok none
    else (attributeValue d spec a.full element a.value).map fun v => some (spec.name, v)

/-- The value of another attribute of an element. -/
def otherOf (d : Dialect) (element : Text) (demanded : List Text) (spec : AttributeSpec)
    (a : AttributeData) : Except Failure (Option (Text × AttributeValue)) :=
  if a.uri.isSome || demanded.contains a.full then .ok none
  else (attributeValue d spec a.full element a.value).map fun v => some (a.full, v)

/-- Extraction from what an element and its attributes say. -/
def extractOf (d : Dialect) (self : Option Node) (attributes : List (Option Node))
    (specs : List AttributeSpec) (others : Option AttributeSpec) : Except Failure Extracted := do
  let values ← specs.mapM (demandedOf d (Tree.labelOf self) (Tree.facetsOf attributes))
  let rest ← match others with
    | none => pure []
    | some spec =>
      (Tree.facetsOf attributes).mapM (otherOf d (Tree.labelOf self) (specs.map (·.name)) spec)
  return ⟨values.filterMap id, rest.filterMap id⟩

/-- Looking for an attribute by name is looking among what the attributes say. -/
theorem find?_facets {α β γ : Type} [DecidableEq γ] (l : List α) (f : α → Option β) (g : β → γ)
    (z : γ) : (l.find? fun a => (f a).map g = some z).bind f =
      (l.filterMap f).find? fun b => g b = z := by
  induction l with
  | nil => rfl
  | cons a l ih =>
    rw [List.find?_cons, List.filterMap_cons]
    cases hf : f a with
    | none => simpa using ih
    | some b =>
      by_cases hb : g b = z
      · simp [hb, hf]
      · simpa [hb] using ih

theorem mapM_facets {ε α β γ : Type} {l : List α} {f : α → Option β} {g : α → Except ε γ}
    {g' : β → Except ε γ} (h : ∀ a ∈ l, ∃ b, f a = some b ∧ g a = g' b) :
    l.mapM g = (l.filterMap f).mapM g' := by
  induction l with
  | nil => rfl
  | cons a l ih =>
    obtain ⟨b, hb, hg⟩ := h a List.mem_cons_self
    rw [List.filterMap_cons, hb, List.mapM_cons, List.mapM_cons, hg,
      ih fun a ha => h a (List.mem_cons_of_mem _ ha)]

theorem demandedOf_eq (h : s.Labelled) : extractDemanded d s e spec =
    demandedOf d (s.label e) ((s.attributes e).filterMap s.facet?) spec := by
  have hfind : s.facetOf? e spec.name =
      ((s.attributes e).filterMap s.facet?).find? fun a => a.full = spec.name := by
    rw [Store.facetOf?, h.attribute?_eq]
    exact find?_facets (s.attributes e) s.facet? AttributeData.full spec.name
  rw [demandedOf, ← hfind, extractDemanded, Store.facetOf?]
  cases ha : s.attribute? e spec.name with
  | none => rfl
  | some a =>
    rw [Option.bind_some]
    have hname : s.attrName? a = some spec.name := by
      rw [h.attribute?_eq] at ha
      simpa using List.find?_some ha
    obtain ⟨data, hdata⟩ := Store.exists_attr?_of_attrName? hname
    rw [Store.facet?_of_attr? hdata]
    simp only [hdata]
    rfl

/-- **Extraction is a function of contents.** -/
theorem extractAttributes_eq (h : s.Labelled) {specs : List AttributeSpec}
    {others : Option AttributeSpec} : extractAttributes d s e specs others =
      extractOf d (s.loose e) ((s.attributes e).map s.loose) specs others := by
  rw [extractAttributes, extractOf, Tree.labelOf_loose, Tree.facetsOf_loose,
    show extractDemanded d s e = demandedOf d (s.label e) ((s.attributes e).filterMap s.facet?) from
      funext fun spec => demandedOf_eq h]
  congr 1
  funext values
  cases others with
  | none => rfl
  | some spec =>
    dsimp only
    rw [mapM_facets fun a ha => ?_]
    obtain ⟨entry, hentry, rfl⟩ := List.mem_map.mp ha
    obtain ⟨data, hdata⟩ := Store.exists_attr?_of_attrName? (h.name e entry hentry)
    refine ⟨_, Store.facet?_of_attr? hdata, ?_⟩
    rw [extractOther, hdata]
    rfl

end Language

end Stencil

/-! ## Expansion -/

namespace Stencil

namespace Language

open Stencil.Tree (Content Node)

/-! ### What nodes are for -/

/-- What the stage that changes the tree does with a node. -/
inductive Role where
  /-- It leaves it alone, with everything below it. -/
  | passed
  /-- It visits the children. -/
  | entered
  /-- It replaces it by another template. -/
  | loads
  /-- It takes it into the table of definitions. -/
  | defines
  /-- It replaces the content by a definition. -/
  | uses
  /-- It adds the next definition to the content. -/
  | continues
  /-- It looks for a use among the attributes, and visits the children. -/
  | ordinary
  deriving DecidableEq, Repr

/-- What the elements of the language are. -/
def roles : List (Text × Role) :=
  [("dynamic", .entered), ("if", .entered), ("parent", .continues), ("use", .uses),
   ("macro", .defines), ("load", .loads), ("extend", .entered), ("template", .entered)]

/-- What a node is, where `id` is the namespace of the language. Nobody is called for elements of
other namespaces. -/
def roleOf (id : Int) (self : Option Node) : Role :=
  match self.map Node.payload with
  | some (.element e) =>
    match e.uri with
    | none => .ordinary
    | some u => if u = id then (roles.lookup e.name).getD .passed else .passed
  | some (.document _) => .entered
  | _ => .passed

/-- Whether an attribute is a use. -/
def isUse (id : Int) (a : Option Node) : Bool :=
  match a.map Node.payload with
  | some (.attr data) => data.uri == some id && data.name == "use"
  | _ => false

/-- An element that is not in the self-closing form. -/
def opened (self : Option Node) : Option Node :=
  self.map fun node =>
    { node with payload := node.payload.mapElement fun e => { e with selfClosing := false } }

/-! ### Scenes -/

/-- Definitions. A definition is the list of what is below the defining element. -/
structure Table where
  /-- Names, with all that are defined among them. -/
  names : List Text
  /-- The definitions of each name, in order. -/
  bodies : Text → List (List Content)
  /-- The arguments of each name that is defined. -/
  arguments : Text → Option (List (Text × AttributeValue))
  listed (z : Text) : bodies z ≠ [] → z ∈ names

namespace Table

/-- No definitions. -/
def empty : Table := ⟨[], fun _ => [], fun _ => none, fun _ h => absurd rfl h⟩

/-- The table with a further definition of a name. -/
def add (t : Table) (name : Text) (body : List Content) : Table where
  names := name :: t.names
  bodies z := if z = name then t.bodies z ++ [body] else t.bodies z
  arguments := t.arguments
  listed z h := by
    by_cases hz : z = name
    · exact hz ▸ List.mem_cons_self
    · rw [if_neg hz] at h
      exact List.mem_cons_of_mem _ (t.listed z h)

/-- The table with a further definition of a name with arguments. -/
def define (t : Table) (name : Text) (arguments : List (Text × AttributeValue))
    (body : List Content) : Table :=
  { t.add name body with
    arguments z := if z = name then some arguments else t.arguments z }

end Table

/-- What matters at a place. -/
structure Scene where
  /-- The definitions. -/
  table : Table
  /-- The names of the uses around the place, innermost first. -/
  uses : List Text := []
  /-- The definition that the place was copied from: its name, and which one of that name it is. -/
  frame : Option (Text × Nat) := none

/-- An element is left alone, or goes on with a content in a scene. -/
abbrev Opening := Option (Scene × List Content × Option Node)

namespace Scene

/-- The number of names that can still be used. -/
def free (σ : Scene) : Nat := (σ.table.names.filter fun z => !σ.uses.contains z).length

/-- The number of definitions that elements `parent` can still go on to. -/
def left (σ : Scene) : Nat :=
  match σ.frame with
  | none => 0
  | some (z, i) => (σ.table.bodies z).length - i

/-- The scene in the expansion of a name, with the former content of the place. -/
def inside (σ : Scene) (name : Text) (former : List Content) (ignore : Bool) : Scene where
  table := if former.isEmpty || ignore then σ.table else σ.table.add name former
  uses := name :: σ.uses
  frame := some (name, 0)

/-- A use of a name at the element `c`. -/
def use (σ : Scene) (name : Text) (c : Content) (ignore : Bool) : Except Failure Opening :=
  if σ.uses.contains name then .error (.of (.recursion ⟨.expansion, σ.uses.reverse ++ [name]⟩))
  else
    match σ.table.bodies name with
    | [] => .ok (some (σ, c.inner, c.self))
    | first :: _ => .ok (some (σ.inside name c.inner ignore, first, opened c.self))

/-- An element `parent`. -/
def next (σ : Scene) (c : Content) : Opening :=
  match σ.frame with
  | none => none
  | some (z, i) => (σ.table.bodies z)[i + 1]?.map fun body =>
    ({ σ with frame := some (z, i + 1) }, c.inner ++ body, opened c.self)

/-- What goes down in a scene, whatever the content. -/
def room (σ : Scene) : ℕ ×ₗ ℕ := toLex (σ.free, σ.left)

end Scene

/-! ### Expansion -/

/-- The demands on the attributes of the element `use`. -/
def useSpecs : List AttributeSpec :=
  [{ name := "macro", required := true, kind := .identifier },
   { name := "ignore-default", kind := .truth, default := .flag false }]

/-- The demand on the name of a definition. -/
def nameSpec : AttributeSpec := { name := "name", required := true, kind := .identifier }

/-- The name that the attribute `a`, a use, of an element gives. -/
def usedName (self a : Option Node) : Except Failure Text :=
  let refuse : Except Failure Text := .error (.of
    (.attributeValue (Tree.labelOf a) (Tree.labelOf self) .identifier))
  match ((a.bind fun node => node.payload.facet?).map Tree.AttributeData.value).getD
      (.literal []) with
  | .expression .. => refuse
  | .literal name => if isIdentifier name then .ok name else refuse

/-- How an element goes on in a scene. -/
def opening (d : Dialect) (σ : Scene) (c : Content) : Except Failure Opening :=
  match roleOf (namespaceIdOf d) c.self with
  | .passed | .loads | .defines => .ok none
  | .entered => .ok (some (σ, c.inner, c.self))
  | .continues => .ok (σ.next c)
  | .uses => Except.mapError (Failure.atSelf c.self) do
    let attrs ← extractOf d c.self c.attributes useSpecs (some anyText)
    σ.use (attrs.text "macro") c (attrs.flag "ignore-default")
  | .ordinary =>
    match c.attributes.find? (isUse (namespaceIdOf d)) with
    | none => .ok (some (σ, c.inner, c.self))
    | some a => Except.mapError (Failure.atSelf a) do
      let name ← usedName c.self a
      σ.use name c false

theorem Scene.next_eq_some {σ σ' : Scene} {c : Content} {content : List Content}
    {self : Option Node} (h : σ.next c = some (σ', content, self)) :
    σ'.room < σ.room ∧ self = opened c.self := by
  rw [Scene.next] at h
  split at h
  · cases h
  · rename_i z i hframe
    obtain ⟨body, hbody, h⟩ := Option.map_eq_some_iff.mp h
    cases h
    obtain ⟨hlt, -⟩ := List.getElem?_eq_some_iff.mp hbody
    refine ⟨Prod.Lex.toLex_lt_toLex.mpr (.inr ⟨rfl, ?_⟩), rfl⟩
    rw [Scene.left, Scene.left, hframe]
    dsimp only
    omega

theorem Scene.room_inside {σ : Scene} {name : Text} {former : List Content} {ignore : Bool}
    (hname : σ.table.bodies name ≠ []) (huses : name ∉ σ.uses) :
    (σ.inside name former ignore).room < σ.room := by
  have hmem : name ∈ σ.table.names.filter fun z => !σ.uses.contains z :=
    List.mem_filter.mpr ⟨σ.table.listed name hname, by simpa using huses⟩
  have hsub : (σ.table.names.filter fun z => !(name :: σ.uses).contains z).length <
      (σ.table.names.filter fun z => !σ.uses.contains z).length := by
    have heq : (σ.table.names.filter fun z => !(name :: σ.uses).contains z) =
        (σ.table.names.filter fun z => !σ.uses.contains z).filter fun z => z ≠ name := by
      rw [List.filter_filter]
      exact List.filter_congr fun z _ => by simp
    rw [heq]
    exact List.length_filter_lt_length_iff_exists.mpr ⟨name, hmem, by simp⟩
  refine Prod.Lex.toLex_lt_toLex.mpr (.inl ?_)
  rw [Scene.free, Scene.free, Scene.inside]
  dsimp only
  split
  · exact hsub
  · rw [Table.add]
    simpa using hsub

/-- Going on takes something away: from what a scene leaves room for, or from the content. -/
theorem opening_cases {d : Dialect} {σ σ' : Scene} {c : Content} {content : List Content}
    {self : Option Node} (h : opening d σ c = .ok (some (σ', content, self))) :
    σ' = σ ∧ content = c.inner ∧ self = c.self ∨ σ'.room < σ.room ∧ self = opened c.self := by
  have huse : ∀ {name ignore}, σ.use name c ignore = .ok (some (σ', content, self)) →
      σ' = σ ∧ content = c.inner ∧ self = c.self ∨ σ'.room < σ.room ∧ self = opened c.self := by
    intro name ignore h
    rw [Scene.use] at h
    split at h
    · cases h
    rename_i huses
    split at h
    · cases h
      exact .inl ⟨rfl, rfl, rfl⟩
    · rename_i hbodies
      cases h
      exact .inr ⟨Scene.room_inside (by simp [hbodies]) (by simpa using huses), rfl⟩
  rw [opening] at h
  split at h
  · cases h
  · cases h
  · cases h
  · cases h
    exact .inl ⟨rfl, rfl, rfl⟩
  · exact .inr (Scene.next_eq_some (Except.ok.inj h))
  · obtain ⟨attrs, -, h⟩ := exists_of_bind_ok (mapError_eq_ok h)
    exact huse h
  · split at h
    · cases h
      exact .inl ⟨rfl, rfl, rfl⟩
    · obtain ⟨name, -, h⟩ := exists_of_bind_ok (mapError_eq_ok h)
      exact huse h

/-- What goes down in an expansion: what the scene leaves room for, then the content. -/
def extent {α : Type} [SizeOf α] (σ : Scene) (content : α) : (ℕ ×ₗ ℕ) ×ₗ ℕ :=
  toLex (σ.room, sizeOf content)

theorem extent_lt_of_room {α β : Type} [SizeOf α] [SizeOf β] {σ σ' : Scene} {a : α} {b : β}
    (h : σ'.room < σ.room) : extent σ' a < extent σ b :=
  Prod.Lex.toLex_lt_toLex.mpr (.inl h)

theorem extent_lt_of_size {α β : Type} [SizeOf α] [SizeOf β] {σ : Scene} {a : α} {b : β}
    (h : sizeOf a < sizeOf b) : extent σ a < extent σ b :=
  Prod.Lex.toLex_lt_toLex.mpr (.inr ⟨rfl, h⟩)

theorem extent_lt_of_opening {d : Dialect} {σ σ' : Scene} {c : Content} {content : List Content}
    {self : Option Node} (h : opening d σ c = .ok (some (σ', content, self))) :
    extent σ' content < extent σ c := by
  rcases opening_cases h with ⟨rfl, rfl, -⟩ | ⟨hroom, -⟩
  · exact extent_lt_of_size c.sizeOf_inner_lt
  · exact extent_lt_of_room hroom

mutual

/-- The expansion of a content in a scene. -/
def expanded (d : Dialect) (σ : Scene) (c : Content) : Except Failure Content :=
  match _h : opening d σ c with
  | .error f => .error f
  | .ok none => .ok c
  | .ok (some (σ', content, self)) =>
    match expandedAll d σ' content with
    | .error f => .error f
    | .ok inner => .ok (.node self c.attributes inner)
termination_by extent σ c
decreasing_by exact extent_lt_of_opening ‹_›

/-- The expansions of several contents in a scene. -/
def expandedAll (d : Dialect) (σ : Scene) (cs : List Content) : Except Failure (List Content) :=
  match cs with
  | [] => .ok []
  | c :: cs =>
    match expanded d σ c with
    | .error f => .error f
    | .ok c =>
      match expandedAll d σ cs with
      | .error f => .error f
      | .ok cs => .ok (c :: cs)
termination_by extent σ cs
decreasing_by
  · exact extent_lt_of_size (by rw [List.cons.sizeOf_spec]; omega)
  · exact extent_lt_of_size (by rw [List.cons.sizeOf_spec]; omega)

end

/-! ### Collecting definitions -/

mutual

/-- The expansion of a content that no use is around, and the definitions after it. -/
def collected (d : Dialect) (t : Table) : Content → Except Failure (Content × Table)
  | .node self attributes inner =>
    let unused (c : Content) : Except Failure (Content × Table) :=
      (expanded d ⟨t, [], none⟩ c).map fun c => (c, t)
    let within : Except Failure (Content × Table) := do
      let (inner, t) ← collectedAll d t inner
      return (.node self attributes inner, t)
    match roleOf (namespaceIdOf d) self with
    | .defines => Except.mapError (Failure.atSelf self) do
      let attrs ← extractOf d self attributes [nameSpec] (some anyText)
      let name := attrs.text "name"
      match t.arguments name with
      | some arguments => if arguments ≠ attrs.others then throw (.of (.incompatible name))
      | none => pure ()
      return (.node self attributes inner, t.define name attrs.others inner)
    | .entered => within
    | .ordinary =>
      if attributes.any (isUse (namespaceIdOf d)) then unused (.node self attributes inner)
        else within
    | .passed | .loads | .uses | .continues => unused (.node self attributes inner)

/-- The expansions of several contents that no use is around, and the definitions after them. -/
def collectedAll (d : Dialect) (t : Table) : List Content → Except Failure (List Content × Table)
  | [] => .ok ([], t)
  | c :: cs => do
    let (c, t) ← collected d t c
    let (cs, t) ← collectedAll d t cs
    return (c :: cs, t)

end

/-! ### What contents have to be like -/

/-- Whether an element is replaced by a definition. -/
def isPlaceOfUse (id : Int) (c : Content) : Bool :=
  roleOf id c.self = .uses || roleOf id c.self = .ordinary && c.attributes.any (isUse id)

/-- A content without `load`s, in which every ordinary element has one attribute `use` at most. -/
structure Plain (id : Int) (c : Content) : Prop where
  loads (x : Content) : x ∈ c.parts → roleOf id x.self ≠ .loads
  single (x : Content) : x ∈ c.parts → roleOf id x.self = .ordinary →
    x.attributes.countP (isUse id) ≤ 1

/-- A plain content without definitions. -/
structure Closed (id : Int) (c : Content) : Prop extends Plain id c where
  defines (x : Content) : x ∈ c.parts → roleOf id x.self ≠ .defines

/-- A plain content with definitions only where no use and no other definition is around. -/
structure Flat (id : Int) (c : Content) : Prop extends Plain id c where
  defines (x : Content) : x ∈ c.parts → isPlaceOfUse id x ∨ roleOf id x.self = .defines →
    ∀ y ∈ x.inner, Closed id y

/-- All definitions are closed contents. -/
def Table.Closed (id : Int) (t : Table) : Prop :=
  ∀ z, ∀ body ∈ t.bodies z, ∀ c ∈ body, Language.Closed id c

variable {id : Int} {self : Option Node} {attributes : List (Option Node)}
  {inner : List Content} {c x : Content}

theorem Closed.below (h : Closed id c) (hx : x ∈ c.inner) : Closed id x where
  loads y hy := h.loads y (Content.mem_parts_of_mem_inner hx hy)
  single y hy := h.single y (Content.mem_parts_of_mem_inner hx hy)
  defines y hy := h.defines y (Content.mem_parts_of_mem_inner hx hy)

theorem Flat.below (h : Flat id c) (hx : x ∈ c.inner) : Flat id x where
  loads y hy := h.loads y (Content.mem_parts_of_mem_inner hx hy)
  single y hy := h.single y (Content.mem_parts_of_mem_inner hx hy)
  defines y hy := h.defines y (Content.mem_parts_of_mem_inner hx hy)

/-- Whether a content is plain can be seen node by node. -/
theorem plain_node : Plain id (.node self attributes inner) ↔ roleOf id self ≠ .loads ∧
    (roleOf id self = .ordinary → attributes.countP (isUse id) ≤ 1) ∧ ∀ c ∈ inner, Plain id c := by
  constructor
  · intro h
    refine ⟨h.loads _ (Content.mem_parts _), h.single _ (Content.mem_parts _), fun c hc => ?_⟩
    have hparts : ∀ x ∈ c.parts, x ∈ (Content.node self attributes inner).parts :=
      fun x => Content.mem_parts_of_mem_inner hc
    exact ⟨fun x hx => h.loads x (hparts x hx), fun x hx => h.single x (hparts x hx)⟩
  · rintro ⟨hloads, hsingle, hbelow⟩
    constructor <;> intro x hx <;> rcases Content.mem_parts_node.mp hx with rfl | ⟨c, hc, hx⟩
    · exact hloads
    · exact (hbelow c hc).loads x hx
    · exact hsingle
    · exact (hbelow c hc).single x hx

/-- Whether a content is closed can be seen node by node. -/
theorem closed_node : Closed id (.node self attributes inner) ↔
    Plain id (.node self attributes inner) ∧ roleOf id self ≠ .defines ∧
      ∀ c ∈ inner, Closed id c := by
  constructor
  · exact fun h => ⟨h.toPlain, h.defines _ (Content.mem_parts _), fun c hc => h.below hc⟩
  · rintro ⟨hplain, hdefines, hbelow⟩
    refine ⟨hplain, fun x hx => ?_⟩
    rcases Content.mem_parts_node.mp hx with rfl | ⟨c, hc, hx⟩
    · exact hdefines
    · exact (hbelow c hc).defines x hx

/-- Whether a content is flat can be seen node by node. -/
theorem flat_node : Flat id (.node self attributes inner) ↔
    Plain id (.node self attributes inner) ∧
      (isPlaceOfUse id (.node self attributes inner) ∨ roleOf id self = .defines →
        ∀ c ∈ inner, Closed id c) ∧ ∀ c ∈ inner, Flat id c := by
  constructor
  · exact fun h => ⟨h.toPlain, h.defines _ (Content.mem_parts _), fun c hc => h.below hc⟩
  · rintro ⟨hplain, hdefines, hbelow⟩
    refine ⟨hplain, fun x hx => ?_⟩
    rcases Content.mem_parts_node.mp hx with rfl | ⟨c, hc, hx⟩
    · exact hdefines
    · exact (hbelow c hc).defines x hx

end Language

end Stencil
