import Stencil.Language.Namespace

/-!
# Definitions and their uses

The element `macro` defines content under a name, and `use`, as an element or as an attribute of an
ordinary element, is replaced by that content. A name can be defined several times, for instance by
a template and by those it extends: the first definition is the one that is used, and `parent`
inside its content stands for the next one. Content that stands at the place of use is the last
definition, for the duration of that use.

A defining element is not visited; a use copies the content of the definition and visits the copy.
A use inside its own expansion would never end and is refused. The uses under way are kept for that
purpose; expansions of `parent` are not among them, because they go to another definition each time.

## Main definitions

* `Language.define`, `Language.expand`, `Language.expandParent`, `Language.leaveExpansion`;
* `Language.forgetDefinitions`, `Language.definition` – the instruction.
-/

namespace Stencil.Language

open Stencil.Tree (NodeId ExtraKind Store)

/-- The document that a node belongs to. -/
def ownerDocument? (s : Store) (n : NodeId) : Option NodeId :=
  (s.selfAndAncestors n).tail.find? fun a => (s.document? a).isSome

/-- Notes the name of a definition on its document. -/
def noteDefinition (e : NodeId) (name : Text) (s : Store) : Store :=
  match ownerDocument? s e with
  | none => s
  | some doc =>
    let names := s.extraNames doc .definitions
    if names.contains name then s else s.setExtra doc .definitions (.names (names ++ [name]))

/-- Takes a defining element into the table. Definitions of one name have the same arguments. -/
def define (d : Dialect) (e : NodeId) : Work Unit := do
  let attrs ← Work.extract d e [{ name := "name", required := true, kind := .identifier }]
    (some anyText)
  let name := attrs.text "name"
  match (← get).definitions.arguments? name with
  | some arguments => if arguments ≠ attrs.others then Work.fail (.incompatible name)
  | none => Work.modifyDefinitions (·.setArguments name attrs.others)
  Work.modifyDefinitions fun t => t.setBodies name (t.bodiesOf name ++ [e])
  Work.modifyStore (noteDefinition e name)

/-- Copies the children of `src` to the end of `dst`. -/
def appendCopies (dst src : NodeId) : Work Unit := do
  (← Work.children src).forM fun c => do
    let copy ← Work.fresh (·.clone c)
    Work.tree (·.appendChild dst (some copy))

/-- The store with an element that is not in the self-closing form. -/
def openElement (e : NodeId) (s : Store) : Store :=
  s.modifyElement e fun d => { d with selfClosing := false }

/-- Moves the children of a place of use into a definition of their own. -/
def setFallback (e : NodeId) (name : Text) : Work NodeId := do
  let f ← Work.fresh fun s => s.add { payload := .element { qualifier := [], name := "default" } }
  Work.tree (·.moveChildren e (some f))
  Work.modifyDefinitions fun t => t.setBodies name (t.bodiesOf name ++ [f])
  return f

/-- Removes and disposes of the children of a node. -/
def discardChildren (e : NodeId) : Work Unit := do
  let (cs, s) := (← Work.store).removeChildren e
  Work.modifyStore fun _ => cs.foldl (fun s c => s.dispose c) s

/-- Replaces the content of a place of use by the first definition of the name. Without a definition
nothing changes. The answer says whether there was one. -/
def expand (e : NodeId) (name : Text) (ignoreFallback : Bool) : Work Bool := do
  let t := (← get).definitions
  if t.uses.contains name then
    Work.fail (.recursion ⟨.expansion, t.uses.reverse ++ [name]⟩)
  match t.bodiesOf name with
  | [] => return false
  | first :: _ =>
    let fallback ←
      if (← Work.store).hasChildren e && !ignoreFallback then some <$> setFallback e name
      else pure none
    discardChildren e
    appendCopies e first
    Work.modifyStore (openElement e)
    Work.modifyDefinitions fun t =>
      { t with uses := name :: t.uses
               active := { name, index := 0, fallback, nested := false } :: t.active }
    return true

/-- Adds the next definition of the name under expansion to an element, and gives its children to
visit. Without a next definition the element is left alone. -/
def expandParent (e : NodeId) : Work (Option (List NodeId)) := do
  let t := (← get).definitions
  match t.active with
  | [] => return none
  | top :: _ =>
    match (t.bodiesOf top.name)[top.index + 1]? with
    | none => return none
    | some next =>
      appendCopies e next
      Work.modifyStore (openElement e)
      Work.modifyDefinitions fun t =>
        { t with
          active := { name := top.name, index := top.index + 1, fallback := none, nested := true }
            :: t.active }
      Work.requestReturn e
      Work.enqueueChildren e

/-- Ends the innermost expansion. -/
def leaveExpansion : Work Unit := do
  match (← get).definitions.active with
  | [] => pure ()
  | x :: active =>
    Work.modifyDefinitions fun t =>
      { t with active, uses := if x.nested then t.uses else t.uses.tail }
    match x.fallback with
    | none => pure ()
    | some f =>
      Work.modifyDefinitions fun t => t.setBodies x.name ((t.bodiesOf x.name).filter (· ≠ f))
      Work.modifyStore (·.dispose f)

/-- Notes on a place of use which definition it was expanded from. -/
def noteUse (e : NodeId) (name : Text) : Work Unit := Work.setProperty e "macro:used" (.text name)

/-- The element `use`. -/
def useElement (d : Dialect) (e : NodeId) : Work (Option (List NodeId)) := do
  let attrs ← Work.extract d e
    [{ name := "macro", required := true, kind := .identifier },
     { name := "ignore-default", kind := .truth, default := .flag false }] (some anyText)
  let name := attrs.text "macro"
  if ← expand e name (attrs.flag "ignore-default") then
    Work.requestReturn e
    noteUse e name
  Work.enqueueChildren e

/-- The attribute `use`. -/
def useAttribute (e a : NodeId) : Work Unit := do
  let s ← Work.store
  let refuse : Work Unit := Work.fail (.attributeValue (s.label a) (s.label e) .identifier)
  match ((s.attr? a).map Tree.AttributeData.value).getD (.literal []) with
  | .expression .. => refuse
  | .literal name =>
    if !isIdentifier name then refuse
    else if ← expand e name false then
      Work.requestReturn a
      noteUse e name

/-- The elements in the stage that changes the tree. -/
def definitionElement (d : Dialect) : ElementHooks where
  enter e := do
    let name := nameOf (← Work.store) e
    if name = "macro" then
      define d e
      return none
    else if name = "use" then useElement d e
    else if name = "parent" then expandParent e
    else return none
  leave _ := leaveExpansion

/-- Forgets all definitions and expansions. The default contents of expansions under way are
disposed of. -/
def forgetDefinitions (s : Session) : Session :=
  let fallbacks := s.definitions.active.filterMap (·.fallback)
  { s with store := fallbacks.foldl (fun t f => t.dispose f) s.store, definitions := {} }

/-- The instruction for definitions and their uses. -/
def definition : Instruction where
  label := "*instruction.Macro"
  prepare := forgetDefinitions
  release := forgetDefinitions
  registrations :=
    [on .manipulation .elements ["macro", "use", "parent"], on .manipulation .attributes ["use"],
     on .processing .elements ["use", "parent"]]
  elements
    | .manipulation => some definitionElement
    | .processing => some fun _ =>
      { enter := fun e => do
          Work.setVisible e true
          Work.enqueueChildren e }
  attributes
    | .manipulation => some fun _ => { enter := useAttribute, leave := fun _ _ => leaveExpansion }
    | .processing => none

end Stencil.Language
