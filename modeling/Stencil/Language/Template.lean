import Stencil.Language.Namespace

/-!
# Templates that refer to each other

The root element of a template is `template`, or `extend` if the template extends another one. Such
a template may load others: each `load` is replaced by a copy of the content of the loaded template,
without the definitions in it. The templates that are loaded have to be finished before; finished
templates are kept under their names for that purpose.

## Main definitions

* `Language.checkInheritance` – what a template refers to;
* `Language.keepDocument` – keeping a finished template;
* `Language.load` – replacing a `load` by content;
* `Language.forgetDocuments`, `Language.template` – the instruction.
-/

namespace Stencil.Language

open Stencil.Tree (NodeId ExtraKind Store)

/-- Whether an element is the root of a template that can refer to others. -/
def isRoot (s : Store) (id : Int) (n : NodeId) : Bool := isNamed s n id ["template", "extend"]

/-- The demand for the name of a loaded template. -/
def loadSpec : AttributeSpec := { name := "template", required := true, kind := .text }

/-- The demands on the attributes of a root element. -/
def rootSpecs (name : Text) : List AttributeSpec :=
  [{ name := "dynamic", kind := .truth, default := .flag false },
   { name := "escaping", kind := .truth, default := .flag true }] ++
    if name = "extend" then [{ name := "file", required := true, kind := .text }] else []

/-- The identifier of the namespace of the language. -/
def namespaceIdOf (d : Dialect) : Int := ((d.namespaceId? uri).map Int.ofNat).getD (-1)

/-- The names of the templates that are loaded below a root element. -/
def loadedNames (d : Dialect) (s : Store) (root : NodeId) : Except Failure (List Text) :=
  (s.elementsByName root (namespaceIdOf d) "load").mapM fun e => do
    let attrs ← extractAttributes d s e [loadSpec] none
    return attrs.text "template"

/-- What a fresh document refers to: the template it extends, and those it loads. -/
def checkInheritance (d : Dialect) (doc : NodeId) : Work (Text × List Text) := do
  let s ← Work.store
  match s.rootElement? doc with
  | none => return ([], [])
  | some root =>
    if !isRoot s (namespaceIdOf d) root then return ([], [])
    else
      let loads ← Work.lift (loadedNames d s root)
      let attrs ← Work.extract d root (rootSpecs (nameOf s root)) (some anyText)
      let info : Tree.Inheritance :=
        { extended := attrs.text "file", loads, dynamic := attrs.flag "dynamic"
          escaping := attrs.flag "escaping" }
      Work.modifyStore (·.setExtra doc .inheritance (.inheritance info))
      if info.dynamic then Work.setProperty root Code.Properties.dynamic (.flag true)
      Work.setVisible root true
      return (info.extended, loads)

/-- Keeps a finished document under its name, in place of an earlier one. -/
def keepDocument (name : Text) (doc : NodeId) : Work Unit := do
  match (← get).documents.lookup name with
  | some old => if old ≠ doc then Work.modifyStore (·.dispose old)
  | none => pure ()
  modify fun s => { s with documents := (name, doc) :: s.documents.filter fun e => e.1 ≠ name }

/-- The content of a finished document: what is below its root element, or the root element itself
if that is none of the language. -/
def contentOf (s : Store) (id : Int) (doc : NodeId) : List NodeId :=
  match s.rootElement? doc with
  | none => []
  | some root => if isRoot s id root then s.children root else [root]

/-- Removes the definitions below a node. -/
def stripDefinitions (id : Int) (n : NodeId) : Work Unit := do
  ((← Work.store).elementsByName n id "macro").forM fun e => do
    match (← Work.store).parent? e with
    | none => pure ()
    | some p =>
      Work.tree (·.removeChild p (some e))
      Work.modifyStore (·.dispose e)

/-- The name of the instruction. -/
def templateLabel : Text := "*instruction.Template"

/-- Copies a node in front of an element, without definitions, unless it is one itself. -/
def insertCopy (id : Int) (parent e c : NodeId) : Work (Option NodeId) := do
  if isNamed (← Work.store) c id ["macro"] then return none
  else
    let copy ← Work.fresh (·.clone c)
    if (← Work.store).isElement copy then stripDefinitions id copy
    Work.tree (·.insertBefore parent (some copy) (some e))
    return some copy

/-- Copies content in front of an element and enqueues the copies. -/
def insertCopies (id : Int) (parent e : NodeId) (content : List NodeId) : Work (List NodeId) :=
  Work.enqueueEach templateLabel (insertCopy id parent e) [] content

/-- Replaces a `load` by the content of the loaded template, which is visited next. -/
def load (d : Dialect) (e : NodeId) : Work (Option (List NodeId)) := do
  let attrs ← Work.extract d e [loadSpec] none
  let name := attrs.text "template"
  match (← get).documents.lookup name with
  | none => Work.fail (.notLoaded name)
  | some doc =>
    match (← Work.store).parent? e with
    | none => return none
    | some parent =>
      let id := namespaceIdOf d
      let copies ← insertCopies id parent e (contentOf (← Work.store) id doc)
      Work.leaving templateLabel copies (Work.tree (·.removeChild parent (some e)))
      Work.modifyStore (·.dispose e)
      return if copies.isEmpty then none else some copies

/-- The elements in the stage that changes the tree. -/
def templateElement (d : Dialect) : ElementHooks where
  enter e := do
    if nameOf (← Work.store) e = "load" then load d e else Work.enqueueChildren e

/-- Forgets the finished documents, which are disposed of. -/
def forgetDocuments (s : Session) : Session :=
  { s with store := s.documents.foldl (fun t e => t.dispose e.2) s.store, documents := [] }

/-- The instruction for templates that refer to each other. -/
def template : Instruction where
  label := templateLabel
  release := forgetDocuments
  namespaces := [uri]
  registrations :=
    [on .manipulation .elements ["template", "extend", "load"],
     on .processing .elements ["template", "extend"]]
  elements
    | .manipulation => some templateElement
    | .processing => some fun _ =>
      { enter := fun e => do
          Work.setVisible e true
          Work.enqueueChildren e }
  inheritance := some fun d => { check := checkInheritance d, handle := keepDocument }

end Stencil.Language
