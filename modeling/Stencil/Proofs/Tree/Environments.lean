import Mathlib.Logic.Function.Basic
import Stencil.Proofs.Data.Action
import Stencil.Tree.Assembly

/-!
# Namespaces by scope

What a name before a colon stands for depends on the declarations of the element it occurs in and of
the elements around that, the innermost last; within one element, later declarations hide earlier
ones. An `Environment` is the outcome of that rule, whatever data structure is used to implement it.
The assembly of trees keeps one list of bindings for all open elements; here a single start tag is
considered, and what it stands for is described by its environment alone.

## Main definitions

* `Environment`, `Environment.inside` – what names before colons stand for, and in an element
* `Environment.identifier?` – the registered namespace of such a name
* `Environment.Closes` – the environment has all names that a tag uses
* `Environment.elementOf`, `Environment.attributeOf`, `keptAttributes` – what a tag stands for in an
  environment
* `Bindings.Says` – bindings implement an environment

## Main results

* `Assembly.openingOf_ok` – what an accepted tag stands for
* `Assembly.not_closes_of_openingOf` – which tags are refused for a name without binding
-/

namespace Stencil.Tree

open Markup (Attr Tag)

/-- What the names before colons stand for; the empty one stands for the default namespace. -/
abbrev Environment := Text → Option Text

namespace Environment

variable (r : Option Resolver) (line : Nat) (env : Environment)

/-- Inside of a document. -/
def document :
    Environment := Function.update env "xml" (some "http://www.w3.org/XML/1998/namespace")

/-- Outside of all elements. -/
def initial : Environment := document fun _ => none

/-- Behind an attribute, if that is a declaration. -/
def declare (a : Attr) : Environment :=
  if a.name.qualifier = [] ∧ a.name.name = "xmlns" then Function.update env [] (some a.value)
  else if a.name.qualifier = "xmlns" then Function.update env a.name.name (some a.value)
  else env

/-- In an element, for its own name and attributes too. -/
def inside (tag : Tag) : Environment := tag.attrs.foldl declare env

/-- The identifier of what a name before a colon stands for; nothing if it stands for nothing, for
the empty namespace or for one that is not registered. -/
def identifier? (q : Text) : Option Int := (env q).bind (namespaceId? r)

/-- All names before colons have a meaning: that of the element and those of its attributes, except
for declarations. -/
structure Closes (tag : Tag) : Prop where
  element : tag.name.qualifier ≠ [] → (env tag.name.qualifier).isSome
  attrs (a : Attr) : a ∈ tag.attrs → isDeclaration a.name = false → a.name.qualifier ≠ [] →
    (env a.name.qualifier).isSome

/-- The element of a tag. -/
def elementOf (tag : Tag) : ElementData :=
  { qualifier := tag.name.qualifier, name := tag.name.name
    uri := env.identifier? r tag.name.qualifier, selfClosing := tag.selfClosing }

/-- The attribute of an element for an attribute of its tag. Declarations belong to no namespace and
are literal. Without a name before a colon, an attribute belongs to no namespace either. -/
def attributeOf (a : Attr) : AttributeData :=
  if isDeclaration a.name then
    { qualifier := a.name.qualifier, name := a.name.name, value := .literal a.value }
  else
    { qualifier := a.name.qualifier, name := a.name.name
      uri := if a.name.qualifier = [] then none else env.identifier? r a.name.qualifier
      value := attributeValue r line a.value }

end Environment

/-- A name before a colon has no binding. -/
def AssemblyError.IsUnbound : AssemblyError → Prop
  | .unboundElement _ | .unboundAttribute .. => True
  | _ => False

/-- The attribute declares a namespace that is registered. -/
def declaresRegistered (r : Option Resolver) (a : Attr) : Bool :=
  isDeclaration a.name && (namespaceId? r a.value).isSome

/-- The attributes that are kept: all but the declarations of registered namespaces. -/
def keptAttributes (r : Option Resolver) (tag : Tag) : List Attr :=
  tag.attrs.filter fun a => !declaresRegistered r a

/-- The bindings implement an environment. -/
def Bindings.Says (b : Bindings) (env : Environment) : Prop := ∀ q, b.get? q = env q

variable {r : Option Resolver} {line : Nat} {env : Environment} {b b' : Bindings} {n m : Nat}
  {element : Text} {seen : List Text} {attrs : List Attr} {ds : List AttributeData} {tag : Tag}
  {e : AssemblyError}

/-! ### Declarations -/

theorem Bindings.Says.cons (h : b.Says env) (q uri : Text) :
    Bindings.Says ((q, uri) :: b) (Function.update env q (some uri)) := by
  intro p
  by_cases hp : p = q
  · subst hp
    simp [Bindings.get?]
  · rw [Function.update_of_ne hp, ← h p, Bindings.get?, Bindings.get?, List.find?_cons_of_neg]
    simpa using Ne.symm hp

theorem Bindings.says_nil : Bindings.Says [] fun _ => none := fun _ => rfl

theorem Bindings.Says.document (h : b.Says env) : Bindings.Says (.initial ++ b) env.document :=
  h.cons "xml" "http://www.w3.org/XML/1998/namespace"

/-- The binding that a declaration makes. -/
theorem Environment.declare_eq {a : Attr} {entry : Option (Text × Text)}
    (h : binding? a = .ok entry) :
    env.declare a = entry.elim env fun b => Function.update env b.1 (some b.2) := by
  rw [binding?] at h
  rw [Environment.declare]
  split at h
  · rename_i hdefault
    cases h
    rw [if_pos hdefault]
    rfl
  · rename_i hdefault
    rw [if_neg hdefault]
    split at h
    · rename_i hnamed
      rw [if_pos hnamed]
      split at h
      · cases h
      · cases h
        rfl
    · rename_i hnamed
      cases h
      rw [if_neg hnamed]
      rfl

/-- Bindings are added in front of those there were, and they are counted. -/
theorem declare_ok (h : declare n b attrs = .ok (m, b')) (hb : b.Says env) :
    ∃ new : Bindings, b' = new ++ b ∧ m = n + new.length ∧
      b'.Says (attrs.foldl Environment.declare env) := by
  induction attrs generalizing n b env with
  | nil =>
    cases h
    exact ⟨[], rfl, rfl, hb⟩
  | cons a attrs ih =>
    rw [declare] at h
    rw [List.foldl_cons]
    split at h
    · cases h
    · rename_i ha
      rw [Environment.declare_eq ha]
      exact ih h hb
    · rename_i entry ha
      rw [Environment.declare_eq ha]
      obtain ⟨new, rfl, rfl, hsays⟩ := ih h (hb.cons entry.1 entry.2)
      exact ⟨new ++ [entry], by simp, by simp; omega, hsays⟩

theorem not_isUnbound_of_declare (h : declare n b attrs = .error e) : ¬ e.IsUnbound := by
  induction attrs generalizing n b with
  | nil => cases h
  | cons a attrs ih =>
    rw [declare] at h
    split at h
    · rename_i err ha
      cases h
      rw [binding?] at ha
      split at ha
      · cases ha
      · split at ha
        · split at ha
          · cases ha
            exact id
          · cases ha
        · cases ha
    · exact ih h
    · exact ih h

/-! ### Attributes -/

namespace Assembly

/-- What becomes of an attribute of an accepted tag. -/
theorem attributeOf_ok {a : Attr} {d : Option AttributeData} (hb : b.Says env)
    (h : attributeOf r b element line a = .ok d) :
    d = (if declaresRegistered r a then none else some (env.attributeOf r line a)) ∧
      (isDeclaration a.name = false → a.name.qualifier ≠ [] → (env a.name.qualifier).isSome) := by
  rw [attributeOf] at h
  rw [declaresRegistered, Environment.attributeOf]
  by_cases hdecl : isDeclaration a.name
  · rw [if_pos hdecl] at h
    rw [hdecl, Bool.true_and, if_pos rfl]
    refine ⟨?_, fun h => absurd h Bool.noConfusion⟩
    split at h
    · rename_i hregistered
      cases h
      rw [if_pos hregistered]
    · rename_i hregistered
      cases h
      rw [if_neg hregistered]
  · rw [if_neg hdecl] at h
    rw [if_neg hdecl, Bool.not_eq_true] at *
    rw [hdecl, Bool.false_and, if_neg Bool.false_ne_true]
    by_cases hq : a.name.qualifier = []
    · rw [if_pos hq] at h ⊢
      cases h
      exact ⟨rfl, fun _ hne => absurd hq hne⟩
    · rw [if_neg hq] at h ⊢
      cases hget : b.get? a.name.qualifier with
      | none =>
        rw [hget] at h
        cases h
      | some uri =>
        rw [hget] at h
        cases h
        rw [hb] at hget
        rw [Environment.identifier?, hget]
        exact ⟨rfl, fun _ _ => rfl⟩

/-- The attributes of an accepted tag. -/
theorem attributesOf_ok (hb : b.Says env) (h : attributesOf r b element line seen attrs = .ok ds) :
    ds = (attrs.filter fun a => !declaresRegistered r a).map (env.attributeOf r line) ∧
      ∀ a ∈ attrs, isDeclaration a.name = false → a.name.qualifier ≠ [] →
        (env a.name.qualifier).isSome := by
  induction attrs generalizing seen ds with
  | nil =>
    cases h
    simp
  | cons a attrs ih =>
    rw [attributesOf] at h
    obtain ⟨found, hfound, h⟩ := exists_of_bind_ok h
    obtain ⟨rfl, hbound⟩ := attributeOf_ok hb hfound
    rw [List.filter_cons]
    by_cases hdrop : declaresRegistered r a
    · rw [if_pos hdrop] at h
      obtain ⟨rfl, hrest⟩ := ih h
      rw [hdrop]
      exact ⟨rfl, List.forall_mem_cons.mpr ⟨hbound, hrest⟩⟩
    · rw [if_neg hdrop] at h
      dsimp only at h
      split at h
      · cases h
      · obtain ⟨rest, hok, h⟩ := exists_of_bind_ok h
        cases h
        obtain ⟨rfl, hrest⟩ := ih hok
        rw [if_pos (by simpa using hdrop)]
        exact ⟨rfl, List.forall_mem_cons.mpr ⟨hbound, hrest⟩⟩

theorem attributeOf_unbound {a : Attr} (hb : b.Says env)
    (h : attributeOf r b element line a = .error e) :
    isDeclaration a.name = false ∧ a.name.qualifier ≠ [] ∧ env a.name.qualifier = none := by
  rw [attributeOf] at h
  by_cases hdecl : isDeclaration a.name
  · rw [if_pos hdecl] at h
    split at h <;> cases h
  · rw [if_neg hdecl] at h
    by_cases hq : a.name.qualifier = []
    · rw [if_pos hq] at h
      cases h
    · rw [if_neg hq] at h
      cases hget : b.get? a.name.qualifier with
      | none => exact ⟨by simpa using hdecl, hq, (hb _).symm.trans hget⟩
      | some uri =>
        rw [hget] at h
        cases h

/-- An attribute of the tag has a name without binding. -/
theorem attributesOf_unbound (hb : b.Says env)
    (h : attributesOf r b element line seen attrs = .error e) (he : e.IsUnbound) : ∃ a ∈ attrs,
      isDeclaration a.name = false ∧ a.name.qualifier ≠ [] ∧ env a.name.qualifier = none := by
  induction attrs generalizing seen with
  | nil => cases h
  | cons a attrs ih =>
    rw [attributesOf] at h
    cases ha : attributeOf r b element line a with
    | error err =>
      rw [ha] at h
      cases h
      exact ⟨a, List.mem_cons_self, attributeOf_unbound hb ha⟩
    | ok found =>
      rw [ha] at h
      have htail {seen : List Text} (h : attributesOf r b element line seen attrs = .error e) :
          ∃ a' ∈ a :: attrs, isDeclaration a'.name = false ∧ a'.name.qualifier ≠ [] ∧
            env a'.name.qualifier = none := by
        obtain ⟨a', ha', hunbound⟩ := ih h
        exact ⟨a', List.mem_cons_of_mem _ ha', hunbound⟩
      cases found with
      | none => exact htail h
      | some d =>
        simp only [bind, Except.bind] at h
        split at h
        · cases h
          exact he.elim
        · split at h
          · rename_i hrest
            cases h
            exact htail hrest
          · cases h

/-! ### Tags -/

/-- **What an accepted tag stands for.** Its own declarations are added to the bindings in front of
those there were, and with them every name has a meaning. -/
theorem openingOf_ok {o : Opening} (hb : b.Says env) (h : openingOf r line tag b = .ok o) :
    ∃ new : Bindings, o = ⟨new.length, new ++ b, (env.inside tag).elementOf r tag,
        (keptAttributes r tag).map ((env.inside tag).attributeOf r line)⟩ ∧
      (new ++ b).Says (env.inside tag) ∧ (env.inside tag).Closes tag := by
  rw [openingOf] at h
  obtain ⟨⟨count, b'⟩, hdeclare, h⟩ := exists_of_bind_ok h
  obtain ⟨new, rfl, rfl, hsays⟩ := declare_ok hdeclare hb
  obtain ⟨uri, huri, h⟩ := exists_of_bind_ok h
  obtain ⟨attrs, hattrs, h⟩ := exists_of_bind_ok h
  obtain ⟨rfl, hbound⟩ := attributesOf_ok hsays hattrs
  cases h
  have hget : Bindings.get? (new ++ b) tag.name.qualifier = env.inside tag tag.name.qualifier :=
    hsays tag.name.qualifier
  rw [elementNamespace, hget] at huri
  have helement : namespaceId? r uri = (env.inside tag).identifier? r tag.name.qualifier ∧
      (tag.name.qualifier ≠ [] → (env.inside tag tag.name.qualifier).isSome) := by
    rw [Environment.identifier?]
    cases hget : env.inside tag tag.name.qualifier with
    | some uri' =>
      rw [hget] at huri
      cases huri
      exact ⟨rfl, fun _ => rfl⟩
    | none =>
      rw [hget] at huri
      dsimp only at huri
      split at huri
      · rename_i hq
        cases huri
        exact ⟨rfl, fun hne => absurd hq hne⟩
      · cases huri
  refine ⟨new, ?_, hsays, helement.2, hbound⟩
  rw [Environment.elementOf, ← helement.1, Nat.zero_add]
  rfl

/-- A tag that is refused for a name without binding uses one. -/
theorem not_closes_of_openingOf (hb : b.Says env) (h : openingOf r line tag b = .error e)
    (he : e.IsUnbound) : ¬ (env.inside tag).Closes tag := by
  intro hcloses
  rw [openingOf] at h
  cases hdeclare : declare 0 b tag.attrs with
  | error err =>
    rw [hdeclare] at h
    cases h
    exact not_isUnbound_of_declare hdeclare he
  | ok p =>
    obtain ⟨new, hb', -, hsays⟩ := declare_ok hdeclare hb
    rw [hdeclare] at h
    change (elementNamespace p.2 tag.name >>= _) = _ at h
    cases hname : elementNamespace p.2 tag.name with
    | error err =>
      rw [elementNamespace, hsays] at hname
      split at hname
      · cases hname
      · rename_i hnone
        split at hname
        · cases hname
        · rename_i hq
          have hsome := hcloses.element hq
          rw [Environment.inside, hnone] at hsome
          cases hsome
    | ok uri =>
      rw [hname] at h
      change (attributesOf r p.2 tag.name.full line [] tag.attrs >>= _) = _ at h
      cases hattrs : attributesOf r p.2 tag.name.full line [] tag.attrs with
      | error err =>
        rw [hattrs] at h
        cases h
        obtain ⟨a, ha, hdecl, hq, hnone⟩ := attributesOf_unbound hsays hattrs he
        have hsome := hcloses.attrs a ha hdecl hq
        rw [Environment.inside, hnone] at hsome
        cases hsome
      | ok attrs =>
        rw [hattrs] at h
        cases h

end Assembly

end Stencil.Tree
