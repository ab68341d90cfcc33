import Stencil.Tree.Error

/-!
# Elements and their attributes

New elements and attributes, and the attribute table of an element. The table lists attributes in
the order in which they were added, under the full name each had at that moment; two attributes of
one name are refused. Adding an attribute makes the element its owner.

## Main definitions

* `Store.newElement`, `Store.newAttribute` – detached nodes with a name;
* `Store.addAttribute`, `Store.setAttribute`, `Store.removeAttribute`, `Store.removeAttributes`;
* `Store.attributes`, `Store.attribute?` – the table.
-/

namespace Stencil.Tree.Store

/-- A new, detached element. -/
def newElement (s : Store) (qualifier name : Text) : Except TreeError (NodeId × Store) :=
  if name = [] then .error .emptyElementName
  else .ok (s.add { payload := .element { qualifier, name } })

/-- The store with an element renamed. -/
def renameElement (s : Store) (e : NodeId) (name : Text) : Except TreeError Store :=
  if name = [] then .error .emptyElementName
  else .ok (s.modifyElement e fun d => { d with name })

/-- A new attribute without owner and with an empty value. -/
def newAttribute (s : Store) (qualifier name : Text) : Except TreeError (NodeId × Store) :=
  if name = [] then .error .emptyAttributeName
  else .ok (s.add { payload := .attr { qualifier, name } })

/-- The store with the value of an attribute replaced. -/
def setValue (s : Store) (a : NodeId) (v : Value) : Store :=
  s.modifyAttr a fun d => { d with value := v }

/-- The attribute table of an element. -/
def attributeTable (s : Store) (e : NodeId) : OrderedMap Text NodeId :=
  ((s.element? e).map (·.attrs)).getD .empty

/-- The attributes of an element in order. -/
def attributes (s : Store) (e : NodeId) : List NodeId := (s.attributeTable e).values

/-- The attribute of an element with the given full name. -/
def attribute? (s : Store) (e : NodeId) (name : Text) : Option NodeId :=
  (s.attributeTable e).get? name

/-- The attribute of an element with the given full name, or a refusal. -/
def getAttribute (s : Store) (e : NodeId) (name : Text) : Except TreeError NodeId :=
  match s.attribute? e name with
  | some a => .ok a
  | none => .error (.attributeNotFound name (s.label e))

/-- Adds an attribute at the end of the table of an element. -/
def addAttribute (s : Store) (e : NodeId) (attr : Option NodeId) : Except TreeError Store :=
  match attr with
  | none => .error .missingNode
  | some a =>
    match (s.attributeTable e).insert? (s.label a) a with
    | none => .error (.duplicateAttribute (s.label e) (s.label a))
    | some attrs =>
      let s := s.modifyElement e fun d => { d with attrs }
      .ok (s.modifyAttr a fun d => { d with owner := some e })

/-- Adds a new attribute with a fixed value. -/
def setAttribute (s : Store) (e : NodeId) (qualifier name value : Text) :
    Except TreeError (NodeId × Store) := do
  let (a, s) ← s.newAttribute qualifier name
  let s ← (s.setValue a (.literal value)).addAttribute e (some a)
  return (a, s)

/-- The store with an attribute that belongs to no element. -/
def disown (s : Store) (a : NodeId) : Store := s.modifyAttr a fun d => { d with owner := none }

/-- Removes the attribute with the given full name from an element. -/
def removeAttribute (s : Store) (e : NodeId) (name : Text) : Except TreeError Store := do
  let a ← s.getAttribute e name
  let attrs := ((s.attributeTable e).erase? name).getD (s.attributeTable e)
  return (s.modifyElement e fun d => { d with attrs }).disown a

/-- Removes all attributes from an element. -/
def removeAttributes (s : Store) (e : NodeId) : Store :=
  ((s.attributes e).foldl disown s).modifyElement e fun d => { d with attrs := .empty }

/-- Removes all attributes from an element and clears their values. -/
def discardAttributes (s : Store) (e : NodeId) : Store :=
  ((s.attributes e).foldl (fun s a => (s.disown a).setValue a (.literal [])) s).modifyElement e
    fun d => { d with attrs := .empty }

end Stencil.Tree.Store
