import Stencil.Proofs.Language.Borders
import Stencil.Proofs.Language.Visiting

/-!
# Collecting definitions

Where no use is around, the stage that changes the tree takes definitions into its table and goes on
with what is behind them. So a document is expanded with the definitions that it has had so far
(`collected`). This module carries the comparison on from contents without definitions to whole
documents.

## Main definitions

* `Language.declaration` – what an element defines
* `Session.defining` – a session with a further definition

## Main results

* `Language.define_cases` – taking a definition into the table
* `Language.collected_comes` – visiting a node that no use is around
* `Language.manipulation_expands` – what the stage makes of a document
-/

namespace Stencil

open Stencil.Tree (NodeId Store Node Content Visitor)
open Stencil.Tree.Store (Tidy Within Untouched Placeable Labelled Alike Growth)
open Definitions (Agrees)

/-! ### Notes on documents -/

namespace Tree.Store

variable {t t' : Store} {R : NodeId → Prop} {d e : NodeId} {name : Text}

theorem WellFormed.untouched_noteDefinition (h : t.WellFormed) (ho : t.Owned) :
    Untouched R t (Language.noteDefinition e name t) := by
  rw [Language.noteDefinition]
  split
  · rfl
  · dsimp only
    split
    · rfl
    · exact h.untouched_setExtra ho (by decide)

end Tree.Store

variable {env : Stage.Environment} {s s' s'' s₃ : Session} {n doc : NodeId} {b : Prop}
  {σ τ : Language.Scene} {c : Content} {cs inner : List Content} {self : Option Node}
  {attributes : List (Option Node)} {t : Language.Table} {d : Dialect}
  {x : Text × List (Text × AttributeValue)} {z : Text}

/-! ### Definitions -/

theorem Definitions.arguments?_setArguments {d : Definitions} {name : Text}
    {arguments : List (Text × AttributeValue)} : (d.setArguments name arguments).arguments? z =
      if z = name then some arguments else d.arguments? z := by
  rw [arguments?, setArguments, List.find?_cons]
  by_cases h : name = z
  · simp [h]
  · have hne : z ≠ name := fun e => h e.symm
    simp only [h, decide_false, List.find?_filter, if_neg hne, arguments?]
    congr 2
    funext e
    by_cases he : e.1 = z <;> simp [he, hne]

/-- The session with a further definition, and its arguments if there were none of its name. -/
def Session.defining (s : Session) (n : NodeId) (x : Text × List (Text × AttributeValue)) :
    Session :=
  let known := (s.definitions.arguments? x.1).isSome
  let definitions := if known then s.definitions else s.definitions.setArguments x.1 x.2
  { s with
    store := Language.noteDefinition n x.1 s.store
    definitions := definitions.setBodies x.1 (s.definitions.bodiesOf x.1 ++ [n]) }

namespace Language

/-- The name and the arguments of what an element defines, unless they contradict an earlier
definition. -/
def declaration (d : Dialect) (t : Table) (self : Option Node) (attributes : List (Option Node)) :
    Except Failure (Text × List (Text × AttributeValue)) := do
  let attrs ← extractOf d self attributes [nameSpec] (some anyText)
  match t.arguments (attrs.text "name") with
  | some arguments =>
    if arguments ≠ attrs.others then throw (.of (.incompatible (attrs.text "name")))
  | none => pure ()
  return (attrs.text "name", attrs.others)

/-- **Taking a definition into the table** fails where the declaration does, and then changes
nothing. -/
theorem define_cases (hl : s.store.Labelled)
    (hargs : ∀ z, s.definitions.arguments? z = t.arguments z) :
    let declared := declaration d t (s.store.loose n) ((s.store.attributes n).map s.store.loose)
    (∃ f, declared = .error f ∧ define d n s = (.error f, s)) ∨
      ∃ x, declared = .ok x ∧ (∀ arguments ∈ t.arguments x.1, arguments = x.2) ∧
        define d n s = (.ok (), s.defining n x) := by
  intro declared
  have hextract : Work.extract d n [nameSpec] (some anyText) s =
      Work.lift (extractOf d (s.store.loose n) ((s.store.attributes n).map s.store.loose) [nameSpec]
        (some anyText)) s := by
    rw [Work.extract, Action.bind_ok (show Work.store s = (.ok s.store, s) from rfl),
      extractAttributes_eq hl]
  have hdefine : define d n s = _ := Action.bind_congr hextract
  rw [hdefine]
  simp only [declared, declaration]
  cases extractOf d (s.store.loose n) ((s.store.attributes n).map s.store.loose) [nameSpec]
      (some anyText) with
  | error f => exact .inl ⟨f, rfl, rfl⟩
  | ok attrs =>
    rw [Action.bind_ok (show Work.lift (.ok attrs) s = (.ok attrs, s) from rfl)]
    rw [Action.bind_ok (Action.get_apply s)]
    have hknown := hargs (attrs.text "name")
    cases harguments : t.arguments (attrs.text "name") with
    | none =>
      rw [harguments] at hknown
      refine .inr ⟨(attrs.text "name", attrs.others), ?_, ?_, ?_⟩
      · simp only [bind, Except.bind, harguments]
        rfl
      · simp [harguments]
      · rw [hknown, Session.defining, hknown]
        rfl
    | some arguments =>
      rw [harguments] at hknown
      by_cases hsame : arguments = attrs.others
      · refine .inr ⟨(attrs.text "name", attrs.others), ?_, ?_, ?_⟩
        · simp only [bind, Except.bind, harguments]
          rw [if_neg (not_not.mpr hsame)]
          rfl
        · simp [harguments, hsame]
        · rw [hknown, Session.defining, hknown]
          dsimp only
          rw [if_neg (not_not.mpr hsame)]
          rfl
      · refine .inl ⟨.of (.incompatible (attrs.text "name")), ?_, ?_⟩
        · simp only [bind, Except.bind, harguments]
          rw [if_pos hsame]
          rfl
        · rw [hknown]
          dsimp only
          rw [if_pos hsame]
          rfl

end Language

theorem Session.bodiesOf_defining {n : NodeId} : (s.defining n x).definitions.bodiesOf z =
    if z = x.1 then s.definitions.bodiesOf z ++ [n] else s.definitions.bodiesOf z := by
  rw [Session.defining]
  dsimp only
  rw [Definitions.bodiesOf_setBodies]
  split
  · rename_i hz
    rw [hz]
  · split <;> rfl

/-- The session stands for the scene with the further definition. -/
theorem Session.Represents.defining {n : NodeId} (h : s.Represents σ) (hwf : s.store.WellFormed)
    (ho : s.store.Owned) (hn : s.store.Placeable n)
    (hinner : (s.store.children n).Forall₂ s.store.Holds inner)
    (hx : ∀ arguments ∈ σ.table.arguments x.1, arguments = x.2) :
    (s.defining n x).Represents { σ with table := σ.table.define x.1 x.2 inner } := by
  have hu : Untouched (fun _ => False) s.store (s.defining n x).store :=
    hwf.untouched_noteDefinition ho
  have hdefines : ∀ {f body}, s.store.Defines f body → (s.defining n x).store.Defines f body :=
    fun hf => hu.defines hwf (fun _ _ => id) hf
  refine ⟨h.labelled.alike Language.alike_noteDefinition, fun z => ?_, fun z => ?_, ?_, ?_⟩
  · have hold := (h.bodies z).imp fun _ _ hf => hdefines hf
    rw [Session.bodiesOf_defining, Language.Table.define, Language.Table.add]
    dsimp only
    split
    · exact List.rel_append hold (.cons (hdefines ⟨hn, hinner⟩) .nil)
    · exact hold
  · rw [Session.defining, Language.Table.define]
    dsimp only
    cases hknown : s.definitions.arguments? x.1 with
    | none =>
      rw [if_neg (by simp)]
      exact Definitions.arguments?_setArguments.trans (by rw [h.arguments])
    | some arguments =>
      rw [if_pos Option.isSome_some]
      refine (h.arguments z).trans ?_
      split
      · rename_i hz
        rw [h.arguments] at hknown
        rw [hz, hknown, hx arguments hknown]
      · rfl
  · rw [← h.uses, Session.defining]
    dsimp only
    split <;> rfl
  · rw [← h.frame, Session.defining]
    dsimp only
    split <;> rfl

namespace Language

theorem lookup_eq_defines (d : Dialect) {z : Text}
    (h : (roles.lookup z).getD .passed = .defines) : z = "macro" := by
  rcases lookup_cases d z with hmem | ⟨hnone, -⟩
  · simp only [roles, List.map_cons, List.map_nil, List.mem_cons,
      List.not_mem_nil, or_false] at hmem
    rcases hmem with hz | hz | hz | hz | hz | hz | hz | hz <;> rw [hz] at h ⊢ <;> cases h
  · rw [hnone] at h
    cases h

/-- What defines something is an element of the language. -/
theorem exists_of_defines
    (h : roleOf (namespaceIdOf env.dialect) (s.store.loose n) = .defines) :
    ∃ e, s.store.element? n = some e ∧ e.uri = some (namespaceIdOf env.dialect) ∧
      (elementTable env.dialect).lookup e.name = some (definitionElement env.dialect) ∧
      e.name = "macro" := by
  rw [roleOf, payload_loose] at h
  cases hpay : s.store.payload? n with
  | none =>
    rw [hpay] at h
    cases h
  | some payload =>
    rw [hpay] at h
    cases payload with
    | element e =>
      simp only [Option.map_some, Tree.Payload.loose] at h
      split at h
      · cases h
      · rename_i u huri
        split at h
        · rename_i hu
          have hname := lookup_eq_defines env.dialect h
          exact ⟨e, by rw [Store.element?, hpay],
            huri.trans (congrArg some hu), by rw [hname]; rfl, hname⟩
        · cases h
    | _ => cases h

/-- What is called for a definition. -/
theorem manipulate_eq_define (henv : Fluent env)
    (h : roleOf (namespaceIdOf env.dialect) (s.store.loose n) = .defines) :
    Stage.manipulate env n s = Work.atNode n (do
      define env.dialect n
      return none : Work (Option (List NodeId))) s := by
  obtain ⟨e, he, huri, hlookup, hname⟩ := exists_of_defines h
  have hhooks : Stage.elementHooks? env .manipulation n s =
      (.ok (some (definitionElement env.dialect)), s) := by
    rw [elementHooks?_apply, he, Option.bind_some, henv.element?, if_pos huri, hlookup]
  have henter : (definitionElement env.dialect).enter n s = (do
      define env.dialect n
      return none : Work (Option (List NodeId))) s := by
    change (if nameOf s.store n = "macro" then _ else _ : Work _) s = _
    rw [nameOf_eq he, if_pos hname]
  rw [Stage.manipulate, Action.bind_ok (show Work.store s = (.ok s.store, s) from rfl),
    Store.payload?_of_element? he]
  dsimp only
  rw [if_pos (by rw [huri]; rfl), Stage.enterInstruction, Action.bind_ok hhooks]
  dsimp only
  rw [Work.atNode.eq_1, Work.atNode.eq_1, henter]

/-- A node was taken into the table, and left. -/
theorem visited_defining (hs : Sound n s) (h : s.Represents σ) (hn : s.store.isElement n)
    (hc : s.store.Holds n c) (hx : ∀ arguments ∈ σ.table.arguments x.1, arguments = x.2)
    (hl : (s.defining n x).Closes s₃)
    (hset : Settled (s.store.Region n) (s.store.parent? n) b s s₃) :
    Visited n b { σ with table := σ.table.define x.1 x.2 c.inner } c s s₃ := by
  have hplace := Store.placeable_of_isElement hn
  have hinner := (Store.holds_iff.mp hc).2.2
  have hu : Untouched (fun _ => False) s.store (s.defining n x).store :=
    hs.wellFormed.untouched_noteDefinition hs.owned
  have hactive : (s.defining n x).definitions.active = s.definitions.active := by
    rw [Session.defining]
    dsimp only
    split <;> rfl
  obtain ⟨hstore, hdefs⟩ := hl.eq_of_active (hset.agrees.active.trans hactive.symm)
  have hholds : s₃.store.Holds n c :=
    hstore ▸ hu.holds hs.wellFormed hplace (fun _ _ => id) hc
  refine ⟨hset, hstore ▸ hu.mono fun _ _ => False.elim, ?_, ?_, fun _ => hholds,
    (Store.holds_iff.mp hholds).2.2, fun z y hy => ?_⟩
  · rw [hstore]
    exact (tidy_noteDefinition hs.tidy).confined.parent? n (not_interior n s.store)
  · exact (h.defining hs.wellFormed hs.owned hplace hinner hx).congr hstore hdefs
  · rw [hdefs, Session.bodiesOf_defining] at hy
    split at hy
    · rcases List.mem_append.mp hy with hy | hy
      · exact .inl hy
      · obtain rfl := List.mem_singleton.mp hy
        exact .inr (.inl (.refl y))
    · exact .inl hy

/-- **A node that defines something.** -/
theorem comes_of_define (henv : Fluent env) (hs : Sound n s) (h : s.Represents σ)
    (hkind : s.store.kind? n ≠ some .attr) (hc : s.store.Holds n c)
    (hrole : roleOf (namespaceIdOf env.dialect) c.self = .defines) :
    (Stage.manipulation env).Comes [n] s
      (((declaration env.dialect σ.table c.self c.attributes).mapError (Failure.atSelf c.self)).map
        fun x => (c, { σ with table := σ.table.define x.1 x.2 c.inner }))
      fun y s' => Visited n False y.2 y.1 s s' := by
  obtain ⟨hself, hattrs, -⟩ := Store.holds_iff.mp hc
  rw [← hself] at hrole ⊢
  rw [← hattrs]
  have hmanipulate := (visit_eq_manipulate hkind).trans (manipulate_eq_define henv hrole)
  rcases define_cases h.labelled h.arguments with ⟨f, hf, hdefine⟩ | ⟨x, hx, hagree, hdefine⟩
  · rw [hf]
    refine .refused Bool.false_ne_true (hmanipulate.trans (Work.atNode_error ?_ rfl))
    rw [Action.bind_apply, hdefine]
  · rw [hx]
    obtain ⟨e, he, -⟩ := exists_of_defines hrole
    have hn : s.store.isElement n := by
      rw [Store.isElement, he]
      rfl
    have hent : Entered env False n s (s.defining n x) := macroElement_yields hs hkind () _ hdefine
    have hstay : Settled (s.store.Interior n) (some n) True (s.defining n x) (s.defining n x) :=
      .refl hent.within.tidy hent.known
    have hvisit : (Stage.manipulation env).visit n s = (.ok none, s.defining n x) := by
      rw [hmanipulate, Work.atNode, Action.bind_ok hdefine]
      rfl
    refine .map (.visit Bool.false_ne_true hvisit
      (.nil (Q := fun y s' => y = x ∧ s' = s.defining n x) ⟨rfl, rfl⟩) fun y s' _ hy => ?_)
    obtain ⟨rfl, rfl⟩ := hy
    refine ((leave_gives henv).and_yields (hent.leave hs hkind hstay)).imp fun _ s₃ h₃ => ?_
    exact visited_defining hs h hn hc hagree h₃.1 (h₃.2.mono False.elim)


/-! ### Documents -/

theorem exists_of_map_ok {ε α β : Type} {r : Except ε α} {f : α → β} {y : β} (h : r.map f = .ok y) :
    ∃ a, r = .ok a ∧ f a = y := by
  cases r <;> cases h
  exact ⟨_, rfl, rfl⟩

/-- A scene where no use is around. -/
def outside (t : Table) : Scene := ⟨t, [], none⟩

theorem collected_of_defines (h : roleOf (namespaceIdOf d) c.self = .defines) :
    collected d t c =
      ((declaration d t c.self c.attributes).mapError (Failure.atSelf c.self)).map
        fun x => (c, t.define x.1 x.2 c.inner) := by
  obtain ⟨self, attributes, inner⟩ := c
  rw [Content.self] at h
  rw [collected, declaration]
  dsimp only [Content.self, Content.attributes, Content.inner]
  rw [h]
  dsimp only
  cases extractOf d self attributes [nameSpec] (some anyText) with
  | error f => rfl
  | ok attrs =>
    simp only [bind, Except.bind]
    cases t.arguments (attrs.text "name") with
    | none => rfl
    | some arguments =>
      dsimp only
      split <;> rfl

/-- Elements that are entered without a use. -/
theorem collected_of_entered (h : roleOf (namespaceIdOf d) c.self = .entered ∨
    roleOf (namespaceIdOf d) c.self = .ordinary ∧ ¬ c.attributes.any (isUse (namespaceIdOf d))) :
    collected d t c = (collectedAll d t c.inner).map fun y =>
      (.node c.self c.attributes y.1, y.2) := by
  obtain ⟨self, attributes, inner⟩ := c
  dsimp only [Content.self, Content.attributes, Content.inner] at h ⊢
  rw [collected]
  rcases h with hrole | ⟨hrole, huse⟩ <;> rw [hrole] <;> dsimp only
  · cases collectedAll d t inner <;> rfl
  · rw [if_neg huse]
    cases collectedAll d t inner <;> rfl

/-- Everything else is expanded where it is. -/
theorem collected_of_unused (hdefines : roleOf (namespaceIdOf d) c.self ≠ .defines)
    (hentered : roleOf (namespaceIdOf d) c.self ≠ .entered)
    (hordinary : roleOf (namespaceIdOf d) c.self = .ordinary →
      c.attributes.any (isUse (namespaceIdOf d))) :
    collected d t c = (expanded d (outside t) c).map fun c => (c, t) := by
  obtain ⟨self, attributes, inner⟩ := c
  dsimp only [Content.self, Content.attributes] at hdefines hentered hordinary
  rw [collected]
  cases hrole : roleOf (namespaceIdOf d) self with
  | defines => exact absurd hrole hdefines
  | entered => exact absurd hrole hentered
  | ordinary =>
    dsimp only
    rw [if_pos (hordinary hrole), outside]
  | _ => rfl

theorem collectedAll_eq_inOrder : (collectedAll d t cs).map (fun y => (y.1, outside y.2)) =
    inOrder (fun σ c => (collected d σ.table c).map fun y => (y.1, outside y.2))
      (outside t) cs := by
  induction cs generalizing t with
  | nil => rfl
  | cons c cs ih =>
    rw [collectedAll, inOrder]
    simp only [show (outside t).table = t from rfl]
    cases collected d t c with
    | error f => rfl
    | ok y =>
      change _ = (inOrder _ (outside y.2) cs).map _
      rw [← ih]
      simp only [bind, Except.bind]
      cases collectedAll d y.2 cs <;> rfl

theorem inOrder_keeps {E : Scene → Content → Except Failure (Content × Scene)} {P : Scene → Prop}
    (hkeep : ∀ c ∈ cs, ∀ σ y, P σ → E σ c = .ok y → P y.2) (hP : P σ)
    {y : List Content × Scene} (h : inOrder E σ cs = .ok y) : P y.2 := by
  induction cs generalizing σ y with
  | nil =>
    cases h
    exact hP
  | cons c cs ih =>
    obtain ⟨hc, hcs⟩ := List.forall_mem_cons.mp hkeep
    obtain ⟨w, hw, hrest⟩ := exists_of_bind_ok h
    obtain ⟨v, hv, hvy⟩ := exists_of_map_ok hrest
    subst hvy
    exact (ih hcs (hc σ w hP hw) hv : P v.2)

/-- In a flat content that defines nothing and is not entered without a use, nothing is defined. -/
theorem Flat.closed {id : Int} (h : Flat id c) (hdefines : roleOf id c.self ≠ .defines)
    (huse : isPlaceOfUse id c) : Closed id c := by
  cases c with
  | node self attributes inner =>
    exact closed_node.mpr ⟨h.toPlain, hdefines, h.defines _ (Content.mem_parts _) (.inl huse)⟩

/-- The tables that are collected from flat contents are closed. -/
theorem closed_of_collected (hflat : Flat (namespaceIdOf d) c) (ht : t.Closed (namespaceIdOf d))
    {y : Content × Table} (h : collected d t c = .ok y) : y.2.Closed (namespaceIdOf d) := by
  induction hM : sizeOf c using WellFoundedLT.induction generalizing c t y with
  | ind M ih =>
    subst hM
    by_cases hdefines : roleOf (namespaceIdOf d) c.self = .defines
    · rw [collected_of_defines hdefines] at h
      obtain ⟨x, -, rfl⟩ := exists_of_map_ok h
      exact ht.add (hflat.defines c c.mem_parts (.inr hdefines))
    by_cases hentered : roleOf (namespaceIdOf d) c.self = .entered ∨
        roleOf (namespaceIdOf d) c.self = .ordinary ∧ ¬ c.attributes.any (isUse (namespaceIdOf d))
    · rw [collected_of_entered hentered] at h
      obtain ⟨v, hv, rfl⟩ := exists_of_map_ok h
      have hall := congrArg (Except.map fun y : List Content × Table => (y.1, outside y.2)) hv
      rw [collectedAll_eq_inOrder] at hall
      refine inOrder_keeps (P := fun σ => σ.table.Closed (namespaceIdOf d)) ?_ ht hall
      intro x hx σ w hσ hw
      obtain ⟨u, hu, rfl⟩ := exists_of_map_ok hw
      refine ih (sizeOf x) ?_ (hflat.below hx) hσ hu rfl
      exact (List.sizeOf_lt_of_mem hx).trans c.sizeOf_inner_lt
    · rw [not_or, not_and_not_right] at hentered
      rw [collected_of_unused hdefines hentered.1 hentered.2] at h
      obtain ⟨v, -, rfl⟩ := exists_of_map_ok h
      exact ht

theorem opening_of_entered (h : roleOf (namespaceIdOf d) c.self = .entered ∨
    roleOf (namespaceIdOf d) c.self = .ordinary ∧ ¬ c.attributes.any (isUse (namespaceIdOf d))) :
    opening d σ c = .ok (some (σ, c.inner, c.self)) := by
  rw [opening]
  rcases h with hrole | ⟨hrole, huse⟩ <;> rw [hrole]
  have hfind : c.attributes.find? (isUse (namespaceIdOf d)) = none := by simpa using huse
  rw [hfind]

/-- Where no use is around, everything else is left alone or replaced by a definition. -/
theorem opening_outside (hdefines : roleOf (namespaceIdOf d) c.self ≠ .defines)
    (hentered : roleOf (namespaceIdOf d) c.self ≠ .entered)
    (hordinary : roleOf (namespaceIdOf d) c.self = .ordinary →
      c.attributes.any (isUse (namespaceIdOf d))) :
    isPlaceOfUse (namespaceIdOf d) c ∨ opening d (outside t) c = .ok none := by
  rw [isPlaceOfUse, opening]
  cases hrole : roleOf (namespaceIdOf d) c.self with
  | defines => exact absurd hrole hdefines
  | entered => exact absurd hrole hentered
  | ordinary => exact .inl (by simp [hordinary hrole])
  | uses => exact .inl (by simp)
  | passed => exact .inr rfl
  | loads => exact .inr rfl
  | continues => exact .inr rfl

theorem Visited.mono {b' : Prop} (h : Visited n b τ c s s') (hb : b' → b) : Visited n b' τ c s s' :=
  { h with settled := h.settled.mono hb }

theorem active_of_represents_outside (h : s.Represents (outside t)) :
    s.definitions.active = [] := by
  have hframe := h.frame
  cases hactive : s.definitions.active with
  | nil => rfl
  | cons top active =>
    rw [hactive] at hframe
    cases hframe

/-- Where no use is around, no expansion is under way, and none ends. -/
theorem represents_of_closes (h : s.Represents (outside t)) (hactive : s'.definitions.active = [])
    (hl : s.Closes s') : s'.Represents (outside t) := by
  obtain ⟨hstore, hdefs⟩ := hl.eq_of_active (hactive.trans (active_of_represents_outside h).symm)
  exact h.congr hstore hdefs

/-- **A node that no use is around.** -/
theorem collected_comes (henv : Fluent env) (hflat : Flat (namespaceIdOf env.dialect) c)
    (ht : t.Closed (namespaceIdOf env.dialect)) :
    Delivers env False (outside t) c
      ((collected env.dialect t c).map fun y => (y.1, outside y.2)) := by
  induction hM : sizeOf c using WellFoundedLT.induction generalizing c t with
  | ind M ih =>
    subst hM
    intro n s hs h ha hkind hc
    obtain ⟨hself, hattrs, -⟩ := Store.holds_iff.mp hc
    have hloads := hflat.loads c c.mem_parts
    have hsingle := hflat.single c c.mem_parts
    by_cases hdefines : roleOf (namespaceIdOf env.dialect) c.self = .defines
    · rw [collected_of_defines hdefines]
      exact .map (.map (.of_map (comes_of_define henv hs h hkind hc hdefines)))
    by_cases hentered : roleOf (namespaceIdOf env.dialect) c.self = .entered ∨
        roleOf (namespaceIdOf env.dialect) c.self = .ordinary ∧
          ¬ c.attributes.any (isUse (namespaceIdOf env.dialect))
    · have ho : opening env.dialect (outside t) c = _ := opening_of_entered hentered
      have hrow : ∀ s', Opens n (outside t) c.inner c.self s s' →
          Row (s'.store.Interior n) (some n) n (s'.store.children n) s' →
          (Stage.manipulation env).Comes (s'.store.children n) s'
            ((collectedAll env.dialect t c.inner).map fun y => (y.1, outside y.2)) fun x s'' =>
              Traversed (s'.store.Interior n) (some n)
                (s'.store.children n) False x.2 x.1 s' s'' := by
        intro s' hopens hrow
        rw [collectedAll_eq_inOrder]
        refine (row_comes (P := fun σ => ∃ t : Table, t.Closed (namespaceIdOf env.dialect) ∧
          σ = outside t) (fun x hx ρ hρ => ?_) (fun x hx ρ y hρ hy => ?_) ⟨t, ht, rfl⟩ hrow
          hopens.represents (fun d hd => ?_) hopens.holds).imp fun _ _ _ hx => hx.1
        · obtain ⟨u, hu, rfl⟩ := hρ
          exact ih _ ((List.sizeOf_lt_of_mem hx).trans c.sizeOf_inner_lt) (hflat.below hx) hu rfl
        · obtain ⟨u, hu, rfl⟩ := hρ
          obtain ⟨v, hv, rfl⟩ := exists_of_map_ok hy
          exact ⟨v.2, closed_of_collected (hflat.below hx) hu hv, rfl⟩
        · exact hopens.aside.inner hrow.tidy (hrow.mem d hd)
      have hcomes := comes_of_some henv hs h ha hkind hc hloads hdefines hsingle ho hrow
      rw [collected_of_entered hentered]
      have hafter : (Stage.manipulation env).Comes [n] s
          ((collectedAll env.dialect t c.inner).map fun y => (y.1, outside y.2)) fun x s₃ =>
            Visited n False x.2 (.node c.self c.attributes x.1) s s₃ := by
        refine hcomes.imp fun x s₃ hx hleft => ?_
        obtain ⟨v, -, rfl⟩ := exists_of_map_ok hx
        obtain ⟨s', s'', hopens, hcont, hr, hl, hset⟩ := hleft
        have hn : s.store.isContainer n :=
          isContainer_of_roleOf (namespaceIdOf env.dialect) (hself ▸ roleOf_of_opening ho)
        have hactive := hset.agrees.active.trans (active_of_represents_outside h)
        exact hopens.visited hs hcont hn hattrs hl hset (represents_of_closes hr hactive hl)
      exact .map (.map hafter.of_map)
    · rw [not_or, not_and_not_right] at hentered
      rw [collected_of_unused hdefines hentered.1 hentered.2]
      rcases opening_outside hdefines hentered.1 hentered.2 with huse | ho
      · have hcomes := expanded_comes henv (hflat.closed hdefines huse) (σ := outside t) ht
        have hafter : (Stage.manipulation env).Comes [n] s
            ((expanded env.dialect (outside t) c).map fun c => (c, outside t)) fun x s₃ =>
              Visited n False x.2 x.1 s s₃ :=
          (hcomes n s hs h ha hkind hc).imp fun x s₃ _ hx => hx.mono False.elim
        exact .map (.map hafter.of_map)
      · rw [expanded_of_none ho]
        refine .map (.map ((comes_of_none henv hs h ha hkind hc hloads hdefines hsingle ho).imp ?_))
        exact fun x s₃ _ hx => hx.mono False.elim


/-! ### The stage -/

/-- What the stage has made of a document: a content, and definitions. -/
structure Expanded (doc : NodeId) (y : Content × Table) (s : Session) : Prop where
  content : (s.store.children doc).Forall₂ s.store.Holds y.1.inner
  represents : s.Represents (outside y.2)

/-- With enough steps, the stage fails as expansion fails, or makes of a document what expansion
makes of it. -/
def Performs (env : Stage.Environment) (doc : NodeId) (s : Session) :
    Except Failure (Content × Table) → Prop
  | .error f => ∃ k, ∀ steps, k ≤ steps → ∃ s',
      Stage.run env .manipulation steps doc s = some (.error f, s')
  | .ok y => ∃ k, ∀ steps, k ≤ steps → ∃ s',
      Stage.run env .manipulation steps doc s = some (.ok (), s') ∧ Expanded doc y s'

theorem performs_of_comes {r : Except Failure (Content × Table)}
    (h : (Stage.manipulation env).Comes [doc] (start doc s).state r fun y s' => Expanded doc y s') :
    Performs env doc s r := by
  have hrun : ∀ {steps o s'}, (Stage.manipulation env).walk steps (some doc) (start doc s).state =
      some (o, s') → Stage.run env .manipulation steps doc s =
        some (o, { s' with trace := .finish StageKind.manipulation.name :: s'.trace }) := by
    intro steps o s' hwalk
    dsimp only [start] at hwalk
    rw [Stage.run]
    dsimp only [Stage.visitor]
    rw [hwalk]
  cases r with
  | error f =>
    obtain ⟨depth, s', hdepth⟩ := h
    obtain ⟨k, hk⟩ := Visitor.exists_walk_eq hdepth
    exact ⟨k, fun steps hsteps => ⟨_, hrun (hk steps hsteps)⟩⟩
  | ok y =>
    obtain ⟨depth, s', hdepth, hcontent, hr⟩ := h
    obtain ⟨k, hk⟩ := Visitor.exists_walk_eq hdepth
    exact ⟨k, fun steps hsteps => ⟨_, hrun (hk steps hsteps), hcontent, hr.congr rfl rfl⟩⟩

/-- **What the stage makes of a document.** -/
theorem manipulation_expands [Encoding.Decoders] {config : Config} {x : Compiler} {r : Registry}
    (hx : Compiler.withLanguage config = .ok x) (hr : x.setup = .ok r) (hs : Sound doc s)
    (hdoc : s.store.kind? doc = some .document) (h : s.Represents (outside t))
    (ha : s.Aside (s.store.Region doc) none) (hc : s.store.Holds doc c)
    (hflat : Flat (namespaceIdOf x.dialect) c) (ht : t.Closed (namespaceIdOf x.dialect)) :
    Performs ⟨x.dialect, r⟩ doc s (collected x.dialect t c) := by
  have hkind : s.store.kind? doc ≠ some .attr := by simp [hdoc]
  have hparent : s.store.parent? doc = none := by
    rw [Option.eq_none_iff_forall_ne_some]
    exact fun p hp => (hs.wellFormed.placeable hp).kind_ne.1 hdoc
  have hs' : Sound doc (start doc s).state := ⟨hs.wellFormed, hs.owned, hs.has, hs.known, hs.quiet⟩
  have hcomes := collected_comes (fluent_of_setup hx hr) hflat ht doc (start doc s).state hs'
    (h.congr rfl rfl) (hparent.symm ▸ ha) hkind hc
  exact performs_of_comes (hcomes.of_map.imp fun y s' _ hy => ⟨hy.inner, hy.represents⟩)

/-! ### A definition that is used -/

/-- A template that defines `a` as an element, and uses it. -/
def definedAndUsed : Session where
  store := Store.run [.create (.document { type := "xml", singleRoot := true }) false 0,
    newElement "template" [],
    newElement "macro" [("name", 3)], newAttribute "name" "a",
    .create (.element { qualifier := [], name := "b", uri := none, attrs := .empty }) false 0,
    newElement "use" [("macro", 6)], newAttribute "macro" "a",
    .appendChild 0 (some 1), .appendChild 1 (some 2), .appendChild 2 (some 4),
    .appendChild 1 (some 5)]

theorem sound_definedAndUsed : Sound 0 definedAndUsed where
  wellFormed := Store.wellFormed_run _
  owned := Store.owned_of_forall (by decide)
  has := by decide
  known z b hb := by cases hb
  quiet m hm := by simp [definedAndUsed, Session.raised, Code.Table.get?] at hm

theorem represents_definedAndUsed : definedAndUsed.Represents (outside .empty) where
  labelled := Store.labelled_of_forall (by decide)
  bodies _ := .nil
  arguments _ := rfl
  uses := rfl
  frame := rfl

/-- The tree of the template. -/
def shapeOfUse : Tree.Shape := .node 0 [.node 1 [.node 2 [.node 4 []], .node 5 []]]

theorem shaped_definedAndUsed : definedAndUsed.store.Shaped shapeOfUse := by
  have hleaf : ∀ n, definedAndUsed.store.children n = [] →
      definedAndUsed.store.Shaped (.node n []) := fun n hn => .node hn.symm (List.forall_mem_nil _)
  have hdefinition : definedAndUsed.store.Shaped (.node 2 [.node 4 []]) :=
    .node (by decide) (List.forall_mem_singleton.mpr (hleaf 4 (by decide)))
  have htemplate : definedAndUsed.store.Shaped (.node 1 [.node 2 [.node 4 []], .node 5 []]) :=
    .node (by decide)
      (List.forall_mem_cons.mpr ⟨hdefinition, List.forall_mem_singleton.mpr (hleaf 5 (by decide))⟩)
  exact .node (by decide) (List.forall_mem_singleton.mpr htemplate)

/-- The template with one use is one the theorem is about. -/
theorem definedAndUsed_expands : ∃ x r, Compiler.withLanguage { maxSourceSize := [] } = .ok x ∧
    x.setup = .ok r ∧ Performs ⟨x.dialect, r⟩ 0 definedAndUsed
      (collected x.dialect .empty (shapeOfUse.content definedAndUsed.store)) := by
  obtain ⟨x, hx, hid⟩ : ∃ x, Compiler.withLanguage { maxSourceSize := [] } = .ok x ∧
      namespaceIdOf x.dialect = 0 := ⟨_, rfl, by decide⟩
  obtain ⟨r, hr⟩ := exists_setup hx
  refine ⟨x, r, hx, hr, ?_⟩
  refine manipulation_expands hx hr sound_definedAndUsed (by decide)
    represents_definedAndUsed (fun z b hb => by cases hb) ?_ ?_ ?_
  · exact ⟨shapeOfUse, rfl, shaped_definedAndUsed, rfl⟩
  · rw [hid]
    have h₀ : roleOf 0 (definedAndUsed.store.view 0).self = .entered := by decide
    have h₁ : roleOf 0 (definedAndUsed.store.view 1).self = .entered := by decide
    have h₂ : roleOf 0 (definedAndUsed.store.view 2).self = .defines := by decide
    have h₄ : roleOf 0 (definedAndUsed.store.view 4).self = .ordinary := by decide
    have h₅ : roleOf 0 (definedAndUsed.store.view 5).self = .uses := by decide
    have hattrs : (definedAndUsed.store.view 4).attributes = [] := by decide
    simp [shapeOfUse, Tree.Shape.content_node, flat_node, closed_node, plain_node, isPlaceOfUse,
      Content.self, Content.attributes, h₀, h₁, h₂, h₄, h₅, hattrs]
  · intro z body hbody
    cases hbody

end Language

end Stencil
