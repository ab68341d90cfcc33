import Stencil.Proofs.Tree.Assembling

/-!
# Namespaces are scoped by nesting

While a source is read there is one list of bindings, and an end tag takes back as many of them as
its start tag has added. That this is the same as an environment of its own for every element, made
from the environment of the parent, needs both lists to be in step (`Assembly.Scoped`). From there
on nothing about them matters: the tree of a source says of each element and attribute what the name
before the colon stands for in the environment of the element, all names have a meaning there, and a
source is refused for a name without binding only if there is one.

## Main definitions

* `scopedTags` – the start tags among events, each with the environment of its element
* `Assembly.Scoped` – bindings and counts for the environments of the open elements
* `Store.Resolves` – an element and its attributes are in the namespaces of its environment

## Main results

* `Assembly.deliver_scoped` – the lists stay in step
* `ofSource_resolves` – elements and attributes are in the namespaces of their names
-/

namespace Stencil.Tree

open Markup (Event Located Tag Forest)

/-! ### Environments of elements -/

/-- A start tag, with the environment of its element. -/
structure ScopedTag where
  env : Environment
  line : Nat
  tag : Tag

/-- What names stand for in the innermost element; there are none outside of the document. -/
def innermost (envs : List Environment) : Environment := envs.headD fun _ => none

/-- The environments of what is open behind an event, innermost first. That of an element is made
from that of its parent. -/
def scopesBehind (envs : List Environment) : Event → List Environment
  | .startDocument => (innermost envs).document :: envs
  | .startTag tag => (innermost envs).inside tag :: envs
  | .endTag _ | .endDocument => envs.tail
  | _ => envs

/-- The start tags among events in order. -/
def scopedTags : List Environment → List Located → List ScopedTag
  | _, [] => []
  | envs, l :: ls =>
    match l.event with
    | .startTag tag => ⟨(innermost envs).inside tag, l.position.line, tag⟩ ::
        scopedTags (scopesBehind envs l.event) ls
    | _ => scopedTags (scopesBehind envs l.event) ls

variable {r : Option Resolver} {env : Environment} {envs : List Environment} {l : Located}
  {ls ls' run : List Located} {f : Forest}

theorem scopedTags_cons (h : ∀ tag, l.event ≠ .startTag tag) :
    scopedTags envs (l :: ls) = scopedTags (scopesBehind envs l.event) ls := by
  rw [scopedTags]
  split
  · rename_i tag he
    exact absurd he (h tag)
  · rfl

theorem scopedTags_append : scopedTags envs (ls ++ ls') = scopedTags envs ls ++
    scopedTags (ls.foldl (fun envs l => scopesBehind envs l.event) envs) ls' := by
  induction ls generalizing envs with
  | nil => rfl
  | cons l ls ih =>
    rw [List.cons_append, scopedTags, scopedTags, List.foldl_cons, ih]
    split <;> rfl

theorem scopedTags_single (h : Markup.IsSingle l.event) :
    scopedTags envs (l :: ls) = scopedTags envs ls := by
  rw [scopedTags_cons (by rintro tag he; rw [he] at h; exact h)]
  cases he : l.event <;> first | rfl | (rw [he] at h; exact h.elim)

theorem scopedTags_element {start stop : Markup.Position} {tag tag' : Tag} {inner rest : Forest} :
    scopedTags (env :: envs) ((Forest.element start tag inner stop tag' rest).events ++ ls) =
      ⟨env.inside tag, start.line, tag⟩ :: scopedTags (env.inside tag :: env :: envs)
        (inner.events ++ ⟨stop, .endTag tag'⟩ :: (rest.events ++ ls)) := by
  rw [Markup.Forest.events, List.cons_append, List.append_assoc]
  rfl

theorem scopedTags_endTag {stop : Markup.Position} {tag : Tag} :
    scopedTags (env :: envs) (⟨stop, .endTag tag⟩ :: ls) = scopedTags envs ls :=
  scopedTags_cons (by simp)

/-! ### Elements of the tree that events stand for -/

/-- The topmost node is an element. -/
def Content.isElement (c : Content) : Bool :=
  ((c.self.map fun node => node.payload.isElement).getD false)

/-- What the elements of trees and their attributes say, in document order. -/
def elementsIn (cs : List Content) : List (Option Node × List (Option Node)) :=
  ((cs.flatMap Content.parts).filter Content.isElement).map fun c => (c.self, c.attributes)

/-- What the element of a tag and its attributes say. -/
def ScopedTag.element (r : Option Resolver) (x : ScopedTag) : Option Node × List (Option Node) :=
  (some { payload := .element (x.env.elementOf r x.tag), line := x.line },
    (keptAttributes r x.tag).map fun a =>
      some { payload := .attr (x.env.attributeOf r x.line a), line := x.line })

theorem elementsIn_append (cs ds : List Content) :
    elementsIn (cs ++ ds) = elementsIn cs ++ elementsIn ds := by
  rw [elementsIn, List.flatMap_append, List.filter_append, List.map_append, elementsIn, elementsIn]

theorem elementsIn_leaf {node : Node} {cs : List Content} (h : node.payload.isElement = false) :
    elementsIn (.leaf node :: cs) = elementsIn cs := by
  rw [elementsIn, Content.leaf, List.flatMap_cons, Content.parts_node, List.flatMap_nil,
    List.singleton_append, List.filter_cons_of_neg, elementsIn]
  simpa [Content.isElement, Content.self] using h

theorem elementsIn_textContent : elementsIn (textContent r run) = [] := by
  rw [textContent]
  split
  · rw [elementsIn, List.flatMap_cons, List.flatMap_nil, List.append_nil, Content.ofScraps,
      Content.parts_node, List.map_eq_nil_iff, List.filter_eq_nil_iff, List.forall_mem_cons]
    refine ⟨by simp [Content.isElement, Content.self, Payload.isElement], fun c hc => ?_⟩
    obtain ⟨d, hd, hc⟩ := List.mem_flatMap.mp hc
    obtain ⟨node, hnode, rfl⟩ := List.mem_map.mp hd
    have hfits := fits_of_mem_foldl_join fits_of_mem_scrapsOfRun (by simp) node hnode
    rw [Content.leaf, Content.parts_node, List.flatMap_nil, List.mem_singleton] at hc
    simp [hc, Content.isElement, Content.self, hfits.isElement]
  · rfl

/-- The elements are those of the start tags, each with the environment that the nesting gives. -/
theorem elementsIn_contentsOf (run : List Located) :
    (scopedTags (env :: envs) (f.events ++ ls)).map (ScopedTag.element r) =
      elementsIn (contentsOf r env run f) ++
        (scopedTags (env :: envs) ls).map (ScopedTag.element r) := by
  induction f generalizing env envs ls run with
  | nil => rw [contentsOf, elementsIn_textContent, Markup.Forest.events,
    List.nil_append, List.nil_append]
  | single l h rest ih =>
    rw [Markup.Forest.events, List.cons_append, scopedTags_single h, contentsOf]
    split
    · exact ih _
    · exact ih _
    · exact ih _
    · rw [elementsIn_append, elementsIn_textContent, elementsIn_leaf rfl]
      exact ih _
    · rw [elementsIn_append, elementsIn_textContent, elementsIn_leaf]
      · exact ih _
      · rw [Assembly.instructionPayload]
        repeat' split
        all_goals rfl
    · exact ih _
  | element start tag inner stop tag' rest ihinner ih =>
    rw [scopedTags_element, List.map_cons, ihinner [], scopedTags_endTag, ih [], contentsOf,
      elementsIn_append, elementsIn_textContent, List.nil_append]
    have helement :
        Content.isElement (.node
          (some { payload := .element ((env.inside tag).elementOf r tag), line := start.line })
          ((keptAttributes r tag).map fun a => some {
            payload := .attr ((env.inside tag).attributeOf r start.line a), line := start.line })
          (contentsOf r (env.inside tag) [] inner)) = true := rfl
    simp only [elementsIn, List.flatMap_cons, Content.parts_node, List.cons_append,
      List.filter_cons_of_pos helement, List.filter_append, List.map_cons,
      List.map_append, List.append_assoc]
    rfl

/-! ### Bindings in step -/

namespace Assembly

/-- Bindings and counts for the environments of what is open: without the bindings that the
innermost element has declared, which are as many as the first count says, there are left those of
its parent. -/
inductive Scoped : List Environment → List Nat → Bindings → Prop
  | nil : Scoped [] [] []
  | cons {env : Environment} {envs : List Environment} {counts : List Nat} {new b : Bindings}
      (meaning : Bindings.Says (new ++ b) env) (rest : Scoped envs counts b) :
      Scoped (env :: envs) (new.length :: counts) (new ++ b)

variable {a a' : Assembly} {counts : List Nat} {b : Bindings} {e : AssemblyError}

namespace Scoped

theorem innermost (h : Scoped envs counts b) : b.Says (innermost envs) := by
  cases h with
  | nil => exact fun _ => rfl
  | cons meaning _ => exact meaning

theorem leave (h : Scoped envs counts b) :
    Scoped envs.tail counts.tail (b.drop (counts.headD 0)) := by
  cases h with
  | nil => exact .nil
  | cons _ rest =>
    rw [List.headD_cons, List.drop_left]
    exact rest

end Scoped

theorem bindings_flush : (a.flush r).declared = a.declared ∧ (a.flush r).bindings = a.bindings := by
  rw [flush]
  split <;> exact ⟨rfl, rfl⟩

theorem bindings_place {payload : Payload} {line : Nat} :
    (a.place payload line).declared = a.declared ∧
    (a.place payload line).bindings = a.bindings := by
  rw [place]
  split <;> exact ⟨rfl, rfl⟩

/-- An accepted start tag adds what it declares, and all its names have a meaning. -/
theorem startElement_scoped {line : Nat} {tag : Tag} (h : Scoped envs a.declared a.bindings)
    (hok : a.startElement r line tag = (.ok (), a')) :
    Scoped ((innermost envs).inside tag :: envs) a'.declared a'.bindings ∧
      ((innermost envs).inside tag).Closes tag := by
  rw [startElement] at hok
  split at hok
  · cases hok
  rename_i o ho
  obtain ⟨new, rfl, hsays, hcloses⟩ := openingOf_ok h.innermost ho
  split at hok
  · cases hok
    exact ⟨.cons hsays h, hcloses⟩
  · split at hok
    · cases hok
    · cases hok
      exact ⟨.cons hsays h, hcloses⟩

/-- **One event keeps the lists in step**, and only a start tag whose names have a meaning is
accepted. -/
theorem receive_scoped (h : Scoped envs a.declared a.bindings)
    (hok : receive r l a = (.ok (), a')) :
    Scoped (scopesBehind envs l.event) a'.declared a'.bindings ∧
      ∀ tag, l.event = .startTag tag → ((innermost envs).inside tag).Closes tag := by
  rw [receive] at hok
  have h' : Scoped envs (if endsText l.event then a.flush r else a).declared
      (if endsText l.event then a.flush r else a).bindings := by
    split
    · rw [bindings_flush.1, bindings_flush.2]
      exact h
    · exact h
  generalize (if endsText l.event then a.flush r else a) = x at h' hok
  cases he : l.event with
  | startTag tag =>
    rw [he] at hok
    obtain ⟨hscoped, hcloses⟩ := startElement_scoped h' hok
    exact ⟨hscoped, fun tag' ht => by cases ht; exact hcloses⟩
  | startDocument =>
    rw [he] at hok
    cases hok
    exact ⟨.cons h'.innermost.document h', by simp⟩
  | endTag tag =>
    rw [he] at hok
    cases hok
    exact ⟨h'.leave, by simp⟩
  | endDocument =>
    rw [he] at hok
    cases hok
    exact ⟨h'.leave, by simp⟩
  | cdata t =>
    rw [he, take] at hok
    split at hok <;> cases hok <;> exact ⟨h', by simp⟩
  | doctype raw =>
    rw [he] at hok
    cases hok
    refine ⟨?_, by simp⟩
    rw [bindings_place.1, bindings_place.2]
    exact h'
  | instruction target data =>
    rw [he] at hok
    cases hok
    refine ⟨?_, by simp⟩
    rw [bindings_place.1, bindings_place.2]
    exact h'
  | _ =>
    rw [he] at hok
    cases hok
    exact ⟨h', by simp⟩

/-- **Accepted events keep the lists in step**, and the names of all start tags among them have a
meaning. -/
theorem deliver_scoped (h : Scoped envs a.declared a.bindings)
    (hok : Markup.deliver (receive r) ls a = (none, a')) :
    Scoped (ls.foldl (fun envs l => scopesBehind envs l.event) envs) a'.declared a'.bindings ∧
      ∀ x ∈ scopedTags envs ls, x.env.Closes x.tag := by
  induction ls generalizing envs a with
  | nil =>
    cases hok
    exact ⟨h, by simp [scopedTags]⟩
  | cons l ls ih =>
    obtain ⟨x, hx, hrest⟩ := Markup.deliver_cons hok
    obtain ⟨hscoped, hcloses⟩ := receive_scoped h hx
    obtain ⟨hscoped', hcloses'⟩ := ih hscoped hrest
    refine ⟨hscoped', ?_⟩
    rw [scopedTags]
    split
    · rename_i tag he
      exact List.forall_mem_cons.mpr ⟨hcloses tag he, hcloses'⟩
    · exact hcloses'

/-- An event that is refused for a name without binding is a start tag with one. -/
theorem not_closes_of_receive (h : Scoped envs a.declared a.bindings)
    (hfail : receive r l a = (.error e, a')) (he : e.IsUnbound) :
    ∃ tag, l.event = .startTag tag ∧ ¬ ((innermost envs).inside tag).Closes tag := by
  rw [receive] at hfail
  cases hevent : l.event with
  | startTag tag =>
    rw [hevent] at hfail
    change (a.flush r).startElement r _ tag = _ at hfail
    rw [startElement, bindings_flush.2] at hfail
    cases ho : openingOf r l.position.line tag a.bindings with
    | error err =>
      rw [ho] at hfail
      cases hfail
      exact ⟨tag, rfl, not_closes_of_openingOf h.innermost ho he⟩
    | ok o =>
      rw [ho] at hfail
      dsimp only at hfail
      split at hfail
      · cases hfail
      · split at hfail
        · cases hfail
          exact he.elim
        · cases hfail
  | cdata t =>
    rw [hevent, take] at hfail
    split at hfail <;> cases hfail
  | _ =>
    rw [hevent] at hfail
    cases hfail

end Assembly

/-! ### Trees -/

/-- The names of an element and of its attributes are those of the tag, without the declarations of
registered namespaces, and they are in the namespaces that they have in its environment. Without a
name before the colon, an attribute is in none. -/
structure Store.Resolves (r : Option Resolver) (s : Store) (e : NodeId) (x : ScopedTag) : Prop where
  element : ∃ d, s.element? e = some d ∧ d.qualifier = x.tag.name.qualifier ∧
    d.name = x.tag.name.name ∧ d.uri = x.env.identifier? r x.tag.name.qualifier
  attributes : (s.attributes e).Forall₂ (fun n a => ∃ d, s.attr? n = some d ∧
    d.qualifier = a.name.qualifier ∧ d.name = a.name.name ∧ (isDeclaration a.name = false →
      d.uri = if a.name.qualifier = [] then none else x.env.identifier? r a.name.qualifier))
    (x.tag.attrs.filter fun a => !declaresRegistered r a)

theorem Store.exists_element?_of_loose {s : Store} {n : NodeId} {d : ElementData} {line : Int}
    (h : s.loose n = some { payload := .element d, line }) :
    ∃ d', s.element? n = some d' ∧ { d' with attrs := .empty } = d := by
  obtain ⟨p, hp, hloose⟩ := Option.map_eq_some_iff.mp (payload?_of_loose h)
  cases p with
  | element d' => exact ⟨d', by rw [element?, hp], Payload.element.inj hloose⟩
  | _ => cases hloose

theorem Store.exists_attr?_of_loose {s : Store} {n : NodeId} {d : AttributeData} {line : Int}
    (h : s.loose n = some { payload := .attr d, line }) :
    ∃ d', s.attr? n = some d' ∧ { d' with owner := none } = d := by
  obtain ⟨p, hp, hloose⟩ := Option.map_eq_some_iff.mp (payload?_of_loose h)
  cases p with
  | attr d' => exact ⟨d', by rw [attr?, hp], Payload.attr.inj hloose⟩
  | _ => cases hloose

/-- What the element of a tag says has the namespaces of the tag. -/
theorem Store.resolves_of_loose {s : Store} {e : NodeId} {x : ScopedTag}
    (hself : s.loose e = (x.element r).1)
    (hattrs : (s.attributes e).map s.loose = (x.element r).2) :
    s.Resolves r e x := by
  refine ⟨?_, ?_⟩
  · obtain ⟨d, hd, hloose⟩ := exists_element?_of_loose hself
    exact ⟨d, hd, (congrArg ElementData.qualifier hloose :), (congrArg ElementData.name hloose :),
      (congrArg ElementData.uri hloose :)⟩
  · have hall : (s.attributes e).Forall₂ (fun n a => s.loose n = some
        { payload := .attr (x.env.attributeOf r x.line a), line := x.line })
        (keptAttributes r x.tag) := by
      have hmap : ((s.attributes e).map s.loose).Forall₂ (fun node a => node = some
          { payload := .attr (x.env.attributeOf r x.line a), line := x.line })
          (keptAttributes r x.tag) := by
        rw [hattrs, ScopedTag.element, List.forall₂_map_left_iff]
        exact List.forall₂_same.mpr fun _ _ => rfl
      exact List.forall₂_map_left_iff.mp hmap
    refine hall.imp fun n a hn => ?_
    obtain ⟨d, hd, hloose⟩ := exists_attr?_of_loose hn
    have hname : d.qualifier = a.name.qualifier ∧ d.name = a.name.name := by
      rw [Environment.attributeOf] at hloose
      split at hloose <;>
        exact ⟨(congrArg AttributeData.qualifier hloose :), (congrArg AttributeData.name hloose :)⟩
    refine ⟨d, hd, hname.1, hname.2, fun hdecl => ?_⟩
    rw [Environment.attributeOf, hdecl, if_neg Bool.false_ne_true] at hloose
    exact (congrArg AttributeData.uri hloose :)

theorem Store.Holds.isElement_eq {s : Store} {n : NodeId} {c : Content} (h : s.Holds n c) :
    s.isElement n = c.isElement := by
  obtain ⟨hself, -⟩ := Store.holds_iff.mp h
  rw [Store.isElement_eq_payload?, Content.isElement, ← hself, Store.loose, Store.payload?]
  cases s.get? n with
  | none => rfl
  | some node => cases hp : node.payload <;> simp [Node.loose, hp, Payload.loose, Payload.isElement]

/-- The elements of a tree in document order, and what is said of them. -/
theorem Store.Shaped.elements {s : Store} {t : Shape} (ht : s.Shaped t) :
    (t.ids.filter s.isElement).Forall₂ s.Holds ((t.content s).parts.filter Content.isElement) := by
  refine List.rel_filter (fun n c hc => ?_) ht.forall₂_parts
  exact Bool.eq_iff_iff.mp hc.isElement_eq

theorem Store.resolves_all {s : Store} {es : List NodeId} {cs : List Content} {xs : List ScopedTag}
    (hholds : es.Forall₂ s.Holds cs)
    (hsay : (cs.map fun c => (c.self, c.attributes)) = xs.map (ScopedTag.element r)) :
    es.Forall₂ (s.Resolves r) xs := by
  induction hholds generalizing xs with
  | nil =>
    obtain rfl := List.map_eq_nil_iff.mp hsay.symm
    exact .nil
  | cons hc _ ih =>
    obtain ⟨x, xs, rfl, hx, hrest⟩ := List.map_eq_cons_iff.mp hsay.symm
    obtain ⟨hself, hattrs, -⟩ := Store.holds_iff.mp hc
    exact .cons (resolves_of_loose (hself.trans (congrArg Prod.fst hx.symm :))
      (hattrs.trans (congrArg Prod.snd hx.symm :))) (ih hrest.symm)

theorem scopedTags_document {first second last : Located} (hfirst : first.event = .locator)
    (hsecond : second.event = .startDocument) :
    scopedTags [] (first :: second :: (f.events ++ [last])) =
      scopedTags [.initial] (f.events ++ [last]) := by
  rw [scopedTags_cons (by simp [hfirst]), scopedTags_cons (by simp [hsecond]), hfirst, hsecond]
  rfl

/-- **Namespaces are scoped by nesting.** In the tree of a source that is read to its end, the
elements in document order are those of the start tags, and each of them and each of its attributes
is in the namespace that its name has in the environment of the element. There, all names before
colons have a meaning. An event is refused for a name without binding only if there is a start tag
with such a name. -/
theorem ofSource_resolves [Encoding.Decoders] (r : Option Resolver) (source : Text) :
    (∀ s₀ a, s₀.WellFormed → s₀.Owned → s₀.Labelled → ofSource r false source s₀ = (.ok (), a) →
      ∃ t : Shape, a.document = some t.root ∧ a.store.Shaped t ∧
        (t.ids.filter a.store.isElement).Forall₂ (a.store.Resolves r)
          (scopedTags [] (Markup.events source))) ∧
    (∀ s₀ a, ofSource r false source s₀ = (.ok (), a) →
      ∀ x ∈ scopedTags [] (Markup.events source), x.env.Closes x.tag) ∧
    ∀ s₀ a p e, ofSource r false source s₀ = (.error (.refused p e), a) → e.IsUnbound →
      ∃ x ∈ scopedTags [] (Markup.events source), ¬ x.env.Closes x.tag := by
  refine ⟨fun s₀ a hw ho hl h => ?_, fun s₀ a h => ?_, fun s₀ a p e h he => ?_⟩
  · obtain ⟨hcomplete, hok⟩ := Markup.deliver_of_read_ok h
    obtain ⟨first, second, f, last, hevents, hfirst, hsecond, hlast⟩ :=
      Markup.exists_forest_of_complete hcomplete
    rw [hevents] at hok
    have hf : Full f := fun l hl => by
      have hmem : l ∈ Markup.events source := by simp [hevents, hl]
      exact Markup.isFull_of_mem_events hmem
    obtain ⟨doc, hdoc, -, -, t, rfl, ht, hcontent⟩ :=
      Assembly.holds_of_deliver hw ho hl hfirst hsecond hlast hf hok
    refine ⟨t, hdoc, ht, ?_⟩
    -- what the elements say is what the tags stand for
    have hsay : ((t.content a.store).parts.filter Content.isElement).map
        (fun c => (c.self, c.attributes)) = (scopedTags [] (Markup.events source)).map
          (ScopedTag.element r) := by
      have hlast' : scopedTags [Environment.initial] [last] = [] := by
        rw [scopedTags_cons (by simp [hlast])]
        rfl
      rw [hcontent, hevents, scopedTags_document hfirst hsecond,
        elementsIn_contentsOf [], hlast', List.map_nil, List.append_nil, documentContent,
        Content.parts_node, List.filter_cons_of_neg (by simp [Content.isElement, Content.self,
          Payload.isElement]), elementsIn]
    exact Store.resolves_all ht.elements hsay
  · obtain ⟨-, hok⟩ := Markup.deliver_of_read_ok h
    exact (Assembly.deliver_scoped .nil hok).2
  · obtain ⟨pre, l, post, x, hevents, hpre, hfail⟩ := Markup.deliver_of_read_refused h
    obtain ⟨tag, htag, hopen⟩ :=
      Assembly.not_closes_of_receive (Assembly.deliver_scoped .nil hpre).1 hfail he
    refine ⟨⟨_, l.position.line, tag⟩, ?_, hopen⟩
    rw [hevents, scopedTags_append, scopedTags, htag]
    exact List.mem_append_right _ List.mem_cons_self

/-- Where and why the receiver refused an event, if it did. -/
def refusal? {ε : Type} : Except (Markup.ReadError ε) Unit → Option (Markup.Position × ε)
  | .error (.refused position e) => some (position, e)
  | _ => none

theorem eq_of_refusal? {ε : Type} {result : Except (Markup.ReadError ε) Unit} {p : Markup.Position}
    {e : ε} (h : refusal? result = some (p, e)) : result = .error (.refused p e) := by
  rcases result with (_ | _ | _ | _) | _ <;> cases h
  rfl

/-- A default namespace is undone below the element that declares it, and `p` has no meaning. -/
theorem undone_default_resolves :
    (∃ (r : Resolver) (a : Assembly) (t : Shape),
      ofSource (some r) false ("<a xmlns='u'><b xmlns='' q='1'/><c/></a>" : Text) {} = (.ok (), a) ∧
      a.document = some t.root ∧ a.store.Shaped t ∧
      (t.ids.filter a.store.isElement).Forall₂ (a.store.Resolves r)
        (scopedTags [] (Markup.events ("<a xmlns='u'><b xmlns='' q='1'/><c/></a>" : Text))) ∧
      ((scopedTags [] (Markup.events ("<a xmlns='u'><b xmlns='' q='1'/><c/></a>" : Text))).map
        fun x => x.env.identifier? r x.tag.name.qualifier) = [some 7, none, some 7]) ∧
    ∃ x ∈ scopedTags [] (Markup.events ("<a><p:b/></a>" : Text)), ¬ x.env.Closes x.tag := by
  have hok {α β : Type} {r : Except α Unit × β} (h : r.1.toOption.isSome) : r = (.ok (), r.2) := by
    obtain ⟨_ | _, _⟩ := r
    · cases h
    · rfl
  refine ⟨⟨⟨fun t => if t = "u" then some 7 else none, fun _ => false, []⟩, ?_⟩, ?_⟩
  · obtain ⟨t, hdoc, ht, hresolves⟩ := (ofSource_resolves
      (some ⟨fun t => if t = "u" then some 7 else none, fun _ => false, []⟩)
      ("<a xmlns='u'><b xmlns='' q='1'/><c/></a>" : Text)).1 {} _ Store.wellFormed_empty
      Store.owned_empty Store.labelled_empty (hok (by decide +kernel))
    exact ⟨_, t, hok (by decide +kernel), hdoc, ht, hresolves, by decide +kernel⟩
  · have hrefused : ((refusal? (ofSource none false ("<a><p:b/></a>" : Text) {}).1).map Prod.snd) =
        some (.unboundElement "p:b") := by decide +kernel
    obtain ⟨⟨p, e⟩, hp, rfl⟩ := Option.map_eq_some_iff.mp hrefused
    have hp := eq_of_refusal? hp
    exact (ofSource_resolves none ("<a><p:b/></a>" : Text)).2.2 {} _ p _ (Prod.ext hp rfl) trivial

end Stencil.Tree
