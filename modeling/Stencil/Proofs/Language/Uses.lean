import Stencil.Proofs.Language.Guarding
import Stencil.Proofs.Language.Stages

/-!
# Places of use

A name is used at an element, which asks for it itself or by one of its attributes. While the
content that takes its place is visited, the use is under way. The table of definitions remembers
the names of the uses under way and nothing else about them; who asked for them has to be found in
the tree. A use is found there as long as nobody rewrites its element or the attributes of it
(`Use.Asks.kept`).

Entering a node begins uses at this node only, which all ask for their names there
(`Language.Begins`). It fails with names that lead back to themselves only if one more use at this
node asks for a name that is in use (`Language.Refuses`).

## Main definitions

* `Use`, `Use.Asks` – a place of use, and that it asks for its name
* `Language.Begins` – uses begin at a node
* `Language.Follows`, `Language.Refuses` – one more use, and that it is refused
* `Language.Enters` – what entering a node leaves behind

## Main results

* `Language.expand_ends` – one use
* `Language.manipulate_ends` – entering a node
-/

namespace Stencil

open Stencil.Tree (NodeId Store AttributeData)
open Stencil.Tree.Store (Tidy Within Confined Untouched Labelled Verbatim)
open Stencil.Language (isNamed namespaceIdOf)

/-- A place of use. -/
structure Use where
  /-- The element. -/
  element : NodeId
  /-- Who asks for the name: the element, or one of its attributes. -/
  node : NodeId
  /-- The name that is used. -/
  name : Text

variable {env : Stage.Environment} {d : Dialect} {s s' s₁ s₂ : Session} {t t' : Store}
  {R : NodeId → Prop} {id : Int} {e n m a : NodeId} {l : List NodeId} {name : Text} {ignore : Bool}
  {u : Use} {new : List Use}

/-! ### What asks for a name -/

namespace Language

/-- The name that an element of the language uses. -/
def usedName? (d : Dialect) (t : Store) (e : NodeId) : Option Text :=
  if isNamed t e (namespaceIdOf d) ["use"] then
    (extractAttributes d t e useSpecs (some anyText)).toOption.map (·.text "macro")
  else none

/-- What is extracted depends on the name of the element and on what its attributes say. -/
theorem extractAttributes_congr {specs : List AttributeSpec} {others : Option AttributeSpec}
    (hl : t.Labelled) (hl' : t'.Labelled) (hlabel : t'.label e = t.label e)
    (hfacets : (t'.attributes e).map t'.facet? = (t.attributes e).map t.facet?) :
    extractAttributes d t' e specs others = extractAttributes d t e specs others := by
  have hsame : (t'.attributes e).filterMap t'.facet? = (t.attributes e).filterMap t.facet? := by
    have := congrArg (List.filterMap id) hfacets
    rwa [List.filterMap_map, List.filterMap_map] at this
  rw [extractAttributes_eq hl', extractAttributes_eq hl, extractOf, extractOf, Tree.labelOf_loose,
    Tree.labelOf_loose, Tree.facetsOf_loose, Tree.facetsOf_loose, hlabel, hsame]

end Language

/-- A use asks for its name in a tree. -/
inductive Use.Asks (d : Dialect) (t : Store) (u : Use) : Prop
  /-- The element is one of the language that uses the name. -/
  | byElement : u.node = u.element → Language.usedName? d t u.element = some u.name → Asks d t u
  /-- An attribute of the language says the name. -/
  | byAttribute (x : AttributeData) : u.node ∈ t.attributes u.element → t.attr? u.node = some x →
      x.uri = some (namespaceIdOf d) → x.name = "use" → x.value = .literal u.name → Asks d t u

namespace Use.Asks

theorem isElement (h : u.Asks d t) : t.isElement u.element := by
  cases h with
  | byElement _ hname =>
    rw [Language.usedName?] at hname
    split at hname
    · exact Language.isElement_of_isNamed ‹_›
    · cases hname
  | byAttribute x hmem =>
    by_contra hel
    rw [Store.attributes_of_not_element (by simpa [Store.isElement] using hel)] at hmem
    cases hmem

/-- **A use keeps asking** while nobody rewrites its element. -/
theorem kept (h : u.Asks d t) (hl : t.Labelled) (hl' : t'.Labelled) (hc : Confined R t t')
    (hv : Verbatim R t t') (hR : ¬ R u.element) : u.Asks d t' := by
  have hplace := Store.placeable_of_isElement h.isElement
  have hattrs := hc.attributes u.element hR
  cases h with
  | byElement hnode hname =>
    refine .byElement hnode ?_
    rw [Language.usedName?] at hname ⊢
    split at hname
    · rename_i hnamed
      rwa [if_pos ((Language.isNamed_kept hplace.has (hc.tag? u.element)).trans hnamed),
        Language.extractAttributes_congr hl hl' (hv.label _ hplace hR) (hv.facets _ hplace hR)]
    · cases hname
  | byAttribute x hmem hx huri hname hvalue =>
    have hfacet := (hv.facet? hplace hR hattrs hmem).trans (Store.facet?_of_attr? hx)
    obtain ⟨y, hy⟩ := Store.exists_attr?_of_attrName? (s := t') (a := u.node) (by
      rw [Store.attrName?, hfacet]; rfl)
    rw [Store.facet?_of_attr? hy] at hfacet
    have hsame := Option.some.inj hfacet
    refine .byAttribute y (hattrs ▸ hmem) hy ?_ ?_ ?_
    · exact (congrArg AttributeData.uri hsame).trans huri
    · exact (congrArg AttributeData.name hsame).trans hname
    · exact (congrArg AttributeData.value hsame).trans hvalue

end Use.Asks

/-! ### One use -/

/-- Opening an element does not rename it. -/
theorem Language.labelOf_opened (self : Option Tree.Node) :
    Tree.labelOf (opened self) = Tree.labelOf self := by
  cases self with
  | none => rfl
  | some node =>
    rw [Tree.labelOf, Tree.labelOf, opened, Option.map_map]
    cases node with
    | mk payload links visible line => cases payload <;> rfl

/-- Filling an element rewrites nothing but what is below it. -/
theorem Tree.Store.Refilled.verbatim {body : List Tree.Content} (h : t.Refilled n body t') :
    Verbatim (t.Interior n) t t' where
  kind? := h.untouched.kind?
  label m hm hR := by
    by_cases hmn : m = n
    · rw [hmn, ← Tree.labelOf_loose, h.self, Language.labelOf_opened, Tree.labelOf_loose]
    · exact h.untouched.verbatim.label m hm fun hin => hR ⟨hin, hmn⟩
  facets m hm hR := by
    by_cases hmn : m = n
    · rw [hmn]
      exact Store.map_facet?_of_map_loose h.attributes
    · exact h.untouched.verbatim.facets m hm fun hin => hR ⟨hin, hmn⟩

namespace Language

/-- The content of an element gave way to a definition of a name, which is in use now. -/
structure Used (n : NodeId) (name : Text) (s s' : Session) : Prop where
  within : Within (s.store.Interior n) (some n) s.store s'.store
  verbatim : Verbatim (s.store.Interior n) s.store s'.store
  labelled : s'.store.Labelled
  uses : s'.definitions.uses = name :: s.definitions.uses
  properties : s'.properties = s.properties

/-- **One use.** It fails for a name that leads back to itself only if the name is in use, and has
changed nothing then. -/
theorem expand_ends (g : s.Guards id (n :: l)) (hn : s.store.isElement n) :
    (expand n name ignore).Ends (fun f s' => ∀ r, f.cause = .recursion r → s' = s ∧
        name ∈ s.definitions.uses ∧ r = ⟨.expansion, s.definitions.uses.reverse ++ [name]⟩) s
      fun used s' => if used then Used n name s s' else s' = s := by
  by_cases huses : name ∈ s.definitions.uses
  · have hrun : expand n name ignore s =
        (.error (.of (.recursion ⟨.expansion, s.definitions.uses.reverse ++ [name]⟩)), s) := by
      rw [expand, Action.bind_ok (Action.get_apply s)]
      dsimp only
      rw [if_pos (by simpa using huses)]
      rfl
    refine ⟨fun r s' h => ?_, fun f s' h r hr => ?_⟩
    · rw [hrun] at h
      cases h
    · rw [hrun] at h
      cases h
      cases hr
      exact ⟨rfl, huses, rfl⟩
  refine .of_failsOnly ?_ (F := Failure.Straight) (expand_fails fun h => absurd h huses)
    fun f s' hf r hr => absurd hr (hf r)
  cases hdefs : s.definitions.bodiesOf name with
  | nil =>
    refine .bind (.get ?_)
    dsimp only
    rw [if_neg (by simpa using huses), hdefs]
    exact .pure rfl
  | cons b bs =>
    have hb : s.Refers b := .inl ⟨name, hdefs ▸ List.mem_cons_self⟩
    obtain ⟨body, hbody⟩ := g.exists_defines hb
    obtain ⟨c, hc⟩ := g.wellFormed.exists_holds n
    have ht := g.wellFormed.tidy_interior g.owned g.has_head
    intro used s' h
    have hprops := expand_yields ht hn (fun m => interior_of_parent? g.wellFormed)
      (.inr rfl) used s' h
    obtain ⟨rfl, fallback, -, hreplaced⟩ :=
      (expand_gives g.wellFormed g.owned g.labelled hn hc huses hdefs hbody (g.not_below hb)
        (g.not_above hb)).yields used s' h
    rw [if_pos rfl] at hprops ⊢
    refine ⟨hreplaced.refilled.within, hreplaced.refilled.verbatim, hreplaced.refilled.labelled, ?_,
      hprops.2⟩
    rw [hreplaced.definitions]
    cases fallback <;> rfl

/-! ### Uses that begin at a node -/

/-- Uses begin at a node, innermost first. -/
structure Begins (d : Dialect) (n : NodeId) (new : List Use) (s s' : Session) : Prop where
  within : Within (s.store.Interior n) (some n) s.store s'.store
  verbatim : Verbatim (s.store.Interior n) s.store s'.store
  labelled : s'.store.Labelled
  /-- Only the flags of the node and its attributes are touched. -/
  raised (m : NodeId) : m ∉ n :: s.store.attributes n → s'.raised m = s.raised m
  uses : s'.definitions.uses = new.map (·.name) ++ s.definitions.uses
  own (u : Use) : u ∈ new → u.element = n ∧ u.node ∈ n :: s.store.attributes n ∧
    u.Asks d s'.store ∧ s'.raised u.node
  distinct : (new.map (·.node)).Nodup

/-- One more use at a node where uses have begun. -/
structure Follows (d : Dialect) (n : NodeId) (new : List Use) (s s' : Session) (u : Use) :
    Prop where
  element : u.element = n
  node : u.node ∈ n :: s.store.attributes n
  fresh : u.node ∉ new.map (·.node)
  asks : u.Asks d s'.store

/-- A failure for a name that leads back to itself comes from a use at a node, of a name in use. -/
def Refuses (d : Dialect) (n : NodeId) (s : Session) (f : Failure) (s' : Session) : Prop :=
  ∀ r, f.cause = .recursion r → ∃ new u, Begins d n new s s' ∧ Follows d n new s s' u ∧
    u.name ∈ s'.definitions.uses ∧ r = ⟨.expansion, s'.definitions.uses.reverse ++ [u.name]⟩

theorem refuses_of_straight {f : Failure} (hf : f.Straight) : Refuses d n s f s' := fun r hr =>
  absurd hr (hf r)

/-- Work that fails for other causes only. -/
theorem straight_ends {α : Type} {x : Work α} {Q : α → Session → Prop} (h : x.Yields s₁ Q)
    (hF : x.FailsOnly Failure.Straight s₁) : x.Ends (Refuses d n s) s₁ Q :=
  .of_failsOnly h hF fun _ _ => refuses_of_straight

/-- Noting a node in a failure does not change what it is for. -/
theorem atNode_refuses {α : Type} {x : Work α} {Q : α → Session → Prop}
    (h : x.Ends (Refuses d n s) s₁ Q) :
    (Work.atNode m x).Ends (Refuses d n s) s₁ Q := by
  refine ⟨Work.atNode_yields h.yields, fun f s' hf => ?_⟩
  rw [Work.atNode] at hf
  split at hf
  · cases hf
  · rename_i hx
    cases hf
    exact fun r hr => h.fails _ _ hx r ((Failure.cause_atNode ..).symm.trans hr)

namespace Begins

protected theorem refl (g : s.Guards id (n :: l)) : Begins d n [] s s :=
  ⟨(g.wellFormed.tidy_interior g.owned g.has_head).within, .refl _, g.labelled, fun _ _ => rfl, rfl,
    fun _ hu => (nomatch hu), List.nodup_nil⟩

/-- **One more use begins.** -/
theorem push (h : Begins d n new s s₁) (g : s.Guards id (n :: l)) (hu : Follows d n new s s₁ u)
    (hused : Used n u.name s₁ s₂) (hstore : s'.store = s₂.store)
    (hdefs : s'.definitions = s₂.definitions)
    (hraised : ∀ m, s'.raised m = (m == u.node || s₁.raised m)) : Begins d n (u :: new) s s' := by
  have hle : ∀ m, s₁.store.Interior n m → s.store.Interior n m := fun m hm =>
    h.within.interior_le g.wellFormed g.owned g.has_head hm
  have hwithin := hused.within.widen h.within.tidy hle fun _ => .inr
  have kept : ∀ v : Use, v.element = n → v.Asks d s₁.store → v.Asks d s'.store :=
    fun v hv hasks => by
    rw [hstore]
    exact hasks.kept h.labelled hused.labelled hwithin.confined
      (hused.verbatim.mono fun m _ => hle m)
      (hv ▸ fun hR => hR.2 rfl)
  refine ⟨hstore ▸ h.within.trans hwithin,
    hstore ▸ h.verbatim.trans (hused.verbatim.mono fun m _ => hle m), hstore ▸ hused.labelled,
    fun m hm => ?_, ?_, fun v hv => ?_, List.nodup_cons.mpr ⟨hu.fresh, h.distinct⟩⟩
  · have hne : m ≠ u.node := fun e => hm (e ▸ hu.node)
    rw [hraised, ← h.raised m hm]
    simp [hne]
  · rw [hdefs, hused.uses, h.uses]
    rfl
  · rcases List.mem_cons.mp hv with rfl | hv
    · exact ⟨hu.element, hu.node, kept v hu.element hu.asks, by simp [hraised]⟩
    · obtain ⟨helement, hnode, hasks, hup⟩ := h.own v hv
      exact ⟨helement, hnode, kept v helement hasks, by simp [hraised, hup]⟩

/-- What is noted beside the nodes when a use begins. -/
theorem noted (h : Begins d n new s s₁) (g : s.Guards id (n :: l)) (hu : Follows d n new s s₁ u)
    (hused : Used n u.name s₁ s₂) :
    Begins d n (u :: new) s ((s₂.raise u.node).setProperty n "macro:used" (.text u.name)) := by
  refine h.push g hu hused (by simp) (by simp) fun m => ?_
  rw [Session.raised_setProperty usedProperty_ne, Session.raised_raise,
    Session.raised, hused.properties, Session.raised]

/-- Where uses have begun, one more is refused or begins. -/
theorem use_ends (h : Begins d n new s s₁) (g₁ : s₁.Guards id (n :: l))
    (hn : s₁.store.isElement n) (hu : Follows d n new s s₁ u) :
    (expand n u.name ignore).Ends (Refuses d n s) s₁
      fun used s' => if used then Used n u.name s₁ s' else s' = s₁ := by
  refine (expand_ends g₁ hn).mono fun f s' hf r hr => ?_
  obtain ⟨rfl, hmem, hr⟩ := hf r hr
  exact ⟨new, u, h, hu, hmem, hr⟩

end Begins

theorem useElement_begins (g : s.Guards id (n :: l))
    (hnamed : isNamed s.store n (namespaceIdOf d) ["use"]) :
    (useElement d n).Ends (Refuses d n s) s fun _ s' => ∃ new, Begins d n new s s' := by
  have hstart : Begins d n [] s s := .refl g
  have hextract : useElement d n s =
      (Work.lift (extractAttributes d s.store n useSpecs (some anyText)) >>= fun attrs => do
        if ← expand n (attrs.text "macro") (attrs.flag "ignore-default") then
          Work.requestReturn n
          noteUse n (attrs.text "macro")
        Work.enqueueChildren n) s := rfl
  refine .congr hextract ?_
  cases hattrs : extractAttributes d s.store n useSpecs (some anyText) with
  | error f =>
    refine straight_ends (.bind (Work.lift_yields nofun)) (.bind (Work.lift_fails ?_) nofun)
    exact hattrs ▸ blames_extractAttributes
  | ok attrs =>
    have hu : Follows d n [] s s ⟨n, n, attrs.text "macro"⟩ :=
      ⟨rfl, List.mem_cons_self, List.not_mem_nil, .byElement rfl (by
        rw [usedName?, if_pos hnamed, hattrs]; rfl)⟩
    refine .bind (.pure (.bind ((hstart.use_ends g (isElement_of_isNamed hnamed) hu).imp
      fun used s₁ hs₁ => ?_)))
    cases used with
    | true =>
      have hnoted := hstart.noted g hu hs₁
      refine straight_ends (.bind (Work.requestReturn_yields (.bind (Work.setProperty_yields
        (Work.enqueueChildren_yields ⟨_, hnoted⟩))))) ?_
      exact .bind .modify fun _ _ _ => .bind .modify fun _ _ _ => enqueueChildren_fails
    | false =>
      obtain rfl : s₁ = s := hs₁
      exact straight_ends (Work.enqueueChildren_yields ⟨_, hstart⟩) enqueueChildren_fails

/-- Where uses have begun, one more begins at an attribute. -/
theorem useAttribute_begins {x : AttributeData} (g : s.Guards id (n :: l)) (h : Begins d n new s s₁)
    (g₁ : s₁.Guards id (n :: l)) (hn : s₁.store.isElement n) (ha : a ∈ s.store.attributes n)
    (hfresh : a ∉ new.map (·.node)) (hx : s₁.store.attr? a = some x)
    (huri : x.uri = some (namespaceIdOf d)) (hname : x.name = "use") :
    (useAttribute n a).Ends (Refuses d n s) s₁ fun _ s' =>
      ∃ new', Begins d n new' s s' ∧ ∀ m ∈ new'.map (·.node), m = a ∨ m ∈ new.map (·.node) := by
  have ha₁ : a ∈ s₁.store.attributes n := by rwa [h.within.confined.attributes n (not_interior n _)]
  rw [useAttribute]
  refine .congr (Action.bind_ok rfl) ?_
  rw [hx, Option.map_some, Option.getD_some]
  split
  · exact straight_ends Work.fail_yields (Work.fail_fails rfl)
  rename_i name hvalue
  split
  · exact straight_ends Work.fail_yields (Work.fail_fails rfl)
  have hu : Follows d n new s s₁ ⟨n, a, name⟩ :=
    ⟨rfl, List.mem_cons_of_mem n ha, hfresh, .byAttribute x ha₁ hx huri hname hvalue⟩
  refine .bind ((h.use_ends g₁ hn hu).imp fun used s₂ hs₂ => ?_)
  cases used with
  | true =>
    have hnoted := h.noted g hu hs₂
    exact straight_ends (.bind (Work.requestReturn_yields (Work.setProperty_yields
      ⟨_, hnoted, fun m hm => List.mem_cons.mp hm⟩))) (.bind .modify fun _ _ _ => .modify)
  | false =>
    obtain rfl : s₂ = s₁ := hs₂
    exact .pure ⟨new, h, fun _ => .inr⟩

/-! ### Entering a node -/

/-- What entering a node leaves behind: uses begin at it, or other nodes take its place. -/
def Enters (d : Dialect) (n : NodeId) (s s' : Session) : Prop :=
  (∃ new, Begins d n new s s') ∨ s.Handles (s.store.Region n) (s.store.parent? n) s'

/-- Nothing is rewritten outside. -/
theorem Enters.verbatim (h : Enters d n s s') : Verbatim (s.store.Region n) s.store s'.store := by
  rcases h with ⟨new, h⟩ | h
  · exact h.verbatim.mono fun m _ hm => hm.1
  · exact h.verbatim

theorem define_begins (g : s.Guards id (n :: l)) :
    (define d n).Yields s fun _ s' => Begins d n [] s s' := by
  intro _ s' hs'
  obtain ⟨hw, hprops, -, huses, -⟩ :=
    define_yields (g.wellFormed.tidy_interior g.owned g.has_head) _ _ hs'
  rcases define_cases (d := d) (n := n) (t := { Table.empty with
    arguments := s.definitions.arguments? }) g.labelled fun _ =>
      rfl with ⟨f, -, hfail⟩ | ⟨x, -, -, hdone⟩
  · cases hfail.symm.trans hs'
  cases hdone.symm.trans hs'
  have hu : Untouched (fun _ => False) s.store (s.defining n x).store :=
    g.wellFormed.untouched_noteDefinition g.owned
  exact ⟨hw, hu.verbatim.mono fun _ _ => False.elim, g.labelled.alike alike_noteDefinition,
    fun m _ => by rw [Session.raised, hprops, Session.raised], huses,
    fun _ hv => (nomatch hv), List.nodup_nil⟩

theorem expandParent_begins (g : s.Guards id (n :: l)) (hn : s.store.isElement n) :
    (expandParent n).Yields s fun _ s' => Begins d n [] s s' := by
  have hstart : Begins d n [] s s := .refl g
  cases hactive : s.definitions.active with
  | nil =>
    refine .bind (.get ?_)
    simp only [hactive]
    exact .pure hstart
  | cons top rest =>
    cases hnext : (s.definitions.bodiesOf top.name)[top.index + 1]? with
    | none =>
      refine .bind (.get ?_)
      simp only [hactive, hnext]
      exact .pure hstart
    | some b =>
      have hb : s.Refers b := .inl ⟨top.name, List.mem_of_getElem? hnext⟩
      obtain ⟨body, hbody⟩ := g.exists_defines hb
      obtain ⟨c, hc⟩ := g.wellFormed.exists_holds n
      intro r s' hs'
      obtain ⟨-, hreplaced⟩ := (expandParent_gives g.wellFormed g.owned g.labelled hn
        (Store.holds_iff.mp hc).2.2 hactive hnext hbody (g.not_above hb)).yields r s' hs'
      have hraised : ∀ m, m ≠ n → s'.raised m = s.raised m := by
        rcases expandParent_yields (g.wellFormed.tidy_interior g.owned g.has_head) hn
            (.inr rfl) r s' hs' with
          ⟨-, rfl⟩ | ⟨x, -, hraised, -⟩
        · exact fun _ _ => rfl
        · exact fun m hm => by simp [hraised, hm]
      refine ⟨hreplaced.refilled.within, hreplaced.refilled.verbatim, hreplaced.refilled.labelled,
        fun m hm => hraised m fun e => hm (e ▸ List.mem_cons_self), ?_,
        fun _ hv => (nomatch hv), List.nodup_nil⟩
      rw [hreplaced.definitions]
      rfl

theorem enqueueChildren_enters (g : s.Guards id (n :: l)) :
    (Work.enqueueChildren n).Ends (Refuses d n s) s fun _ s' => Enters d n s s' :=
  straight_ends (Work.enqueueChildren_yields (.inl ⟨[], .refl g⟩)) enqueueChildren_fails

section Hooks

variable {data : Tree.ElementData}

theorem definitionElement_enters (g : s.Guards id (n :: l)) (hdata : s.store.element? n = some data)
    (hid : data.uri = some (namespaceIdOf d)) :
    ((definitionElement d).enter n).Ends (Refuses d n s) s fun _ s' => Enters d n s s' := by
  have hn : s.store.isElement n := by rw [Store.isElement, hdata]; rfl
  refine .congr (Action.bind_ok rfl) ?_
  rw [nameOf_eq hdata]
  split
  · refine .bind (straight_ends ((define_begins g).imp fun _ s' hs' => ?_) define_fails)
    exact .pure (.inl ⟨[], hs'⟩)
  split
  · rename_i hname
    have hnamed : isNamed s.store n (namespaceIdOf d)
      ["use"] := by simp [isNamed, hdata, hid, hname]
    exact (useElement_begins g hnamed).imp fun _ _ => .inl
  split
  · exact straight_ends ((expandParent_begins g hn).imp fun _ _ hs' => .inl ⟨[], hs'⟩)
      expandParent_fails
  · exact .pure (.inl ⟨[], .refl g⟩)

theorem templateElement_enters (g : s.Guards id (n :: l)) (hdata : s.store.element? n = some data)
    (hid : data.uri = some (namespaceIdOf d)) :
    ((templateElement d).enter n).Ends (Refuses d n s) s fun _ s' => Enters d n s s' := by
  refine .congr (Action.bind_ok rfl) ?_
  rw [nameOf_eq hdata]
  split
  · rename_i hname
    refine straight_ends ((load_handles g.wellFormed g.owned g.labelled).imp fun _ _ => .inr)
      (load_fails (fun _ _ _ => nofun) ?_)
    simp [isNamed, hdata, hid, hname]
  · exact enqueueChildren_enters g

end Hooks

/-- **Offering attributes.** The uses that begin are those of different attributes. -/
theorem offerAttributes_begins (henv : Fluent env)
    (g : s.Guards (namespaceIdOf env.dialect) (n :: l))
    (hn : s.store.isElement n) : (Stage.offerAttributes env n).Ends (Refuses env.dialect n s) s
      fun _ s' => ∃ new, Begins env.dialect n new s s' := by
  refine .congr (Action.bind_ok rfl) ?_
  refine (Action.Ends.forM (I := fun rest s₁ => ∃ new, Begins env.dialect n new s s₁ ∧
    (s₁.Guards (namespaceIdOf env.dialect) (n :: l) ∧ s₁.store.isElement n) ∧ rest.Nodup ∧
    ∀ a ∈ rest, a ∈ s.store.attributes n ∧ a ∉ new.map (·.node)) (fun a rest s₁ hI => ?_) _
    ⟨[], .refl g, ⟨g, hn⟩, g.owned.nodup n, fun a ha => ⟨ha, List.not_mem_nil⟩⟩).imp
    fun _ s' ⟨new, hnew, _⟩ => ⟨new, hnew⟩
  obtain ⟨new, hnew, ⟨g₁, hn₁⟩, hnodup, hrest⟩ := hI
  obtain ⟨ha, hfresh⟩ := hrest a List.mem_cons_self
  obtain ⟨hna, hnodup⟩ := List.nodup_cons.mp hnodup
  refine .congr (Action.bind_ok attributeHooks?_apply) ?_
  split
  · rename_i hooks hhooks
    obtain ⟨x, hx, hhooks⟩ := Option.bind_eq_some_iff.mp hhooks
    obtain ⟨huri, hname⟩ : x.uri = some (namespaceIdOf env.dialect) ∧ x.name = "use" := by
      rw [henv.attribute?] at hhooks
      split at hhooks
      · rename_i huri
        have hmem := mem_of_lookup hhooks
        simp only [attributeTable, List.mem_singleton, Prod.mk.injEq] at hmem
        exact ⟨huri, hmem.1⟩
      · cases hhooks
    obtain rfl := henv.attributes x.uri x.name hooks hhooks
    have hends := useAttribute_begins g hnew g₁ hn₁ ha hfresh hx huri hname
    refine atNode_refuses ⟨fun r s₂ hs₂ => ?_, hends.fails⟩
    obtain ⟨new', hnew', hown⟩ := hends.yields r s₂ hs₂
    have g₂ := (useAttribute_guards g₁ hn₁ r s₂ hs₂).1
    have hn₂ := hnew'.within.confined.isElement hn
    refine ⟨new', hnew', ⟨g₂, hn₂⟩, hnodup, fun c hc => ?_⟩
    obtain ⟨hmem, hout⟩ := hrest c (List.mem_cons_of_mem a hc)
    exact ⟨hmem, fun hin => (hown c hin).elim (fun heq => hna (heq ▸ hc)) hout⟩
  · exact .pure ⟨new, hnew, ⟨g₁, hn₁⟩, hnodup, fun c hc => hrest c (List.mem_cons_of_mem a hc)⟩

/-- **Entering a node.** Uses begin at it, or other nodes take its place. It fails for a name that
leads back to itself only where one more use at this node would do so. -/
theorem manipulate_ends (henv : Fluent env) (g : s.Guards (namespaceIdOf env.dialect) (n :: l)) :
    (Stage.manipulate env n).Ends (Refuses env.dialect n s) s fun _ s' =>
      Enters env.dialect n s s' := by
  have hstart : Enters env.dialect n s s := .inl ⟨[], .refl g⟩
  refine .congr (Action.bind_ok rfl) ?_
  split
  · exact enqueueChildren_enters g
  · rename_i data hpay
    have hdata : s.store.element? n = some data := by rw [Store.element?, hpay]
    split
    · refine .congr (Action.bind_ok elementHooks?_apply) ?_
      split
      · exact .pure hstart
      · rename_i hooks hhooks
        rw [hdata, Option.bind_some] at hhooks
        obtain ⟨hid, rfl | rfl | rfl⟩ := henv.elements data.uri data.name hooks hhooks
        · exact atNode_refuses (definitionElement_enters g hdata hid)
        · exact atNode_refuses (templateElement_enters g hdata hid)
        · exact atNode_refuses (enqueueChildren_enters g)
    · have hn : s.store.isElement n := by rw [Store.isElement, hdata]; rfl
      refine .bind ((offerAttributes_begins henv g hn).imp fun _ s₁ hs₁ => ?_)
      exact straight_ends (Work.enqueueChildren_yields (.inl hs₁)) enqueueChildren_fails
  · exact .pure hstart

end Language

end Stencil
