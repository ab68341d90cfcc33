import Stencil.Proofs.Language.Scenes

/-!
# Entering elements in a scene
-/

namespace Stencil

open Stencil.Tree (NodeId Store Node Content)
open Stencil.Tree.Store (Tidy Within Untouched Placeable Labelled Refilled SetAside Filled Emptied)
open Definitions (Agrees)

namespace Language

variable {env : Stage.Environment} {s s' s'' : Session} {e n a src f : NodeId} {name : Text}
  {ignore : Bool} {c : Content} {σ σ' : Scene} {first body inner : List Content}

/-! ### Uses -/

/-- Replacing the content of an element by a definition. -/
theorem replaceContent_gives {α : Type} {w : Work α} {Q : α → Session → Prop}
    (h : s.store.WellFormed) (ho : s.store.Owned) (hl : s.store.Labelled)
    (he : s.store.isElement e) (hsrc : s.store.Defines src body) (hdown : ¬ s.store.Above e src)
    (hup : ¬ s.store.Above src e)
    (hw : ∀ t, Refilled e body s.store t → w.Gives { s with store := t } Q) :
    (do
      discardChildren e
      appendCopies e src
      Work.modifyStore (openElement e)
      w : Work α).Gives s Q := by
  refine .bind ((discardChildren_gives h ho hl he).imp fun _ s₁ hs₁ => ?_)
  obtain ⟨t₁, rfl, hempty⟩ := hs₁
  have hhas := Store.has_of_isElement he
  have hsrc' : t₁.Defines src body := by
    refine hempty.untouched.defines h (fun m hm => ?_) hsrc
    exact (h.tidy_interior ho hhas).within.not_region h ho hhas hsrc.1.has hdown hup hm
  have hup' : ¬ t₁.Above src e := by
    refine fun hup' => hup ((hempty.within.above_outside (h.tidy_interior ho hhas) ?_).mp hup')
    exact not_interior e s.store
  refine .bind ((appendCopies_gives (s := { s with store := t₁ }) hempty.within.tidy.wellFormed
    hempty.within.tidy.owned hempty.labelled (hempty.within.confined.isElement he) hsrc'.2 hup').imp
    fun _ s₂ hs₂ => ?_)
  obtain ⟨t₂, rfl, hfill⟩ := hs₂
  exact .bind (Work.modifyStore_gives (hw _ (hempty.refilled hfill he)))

theorem hasChildren_eq (h : s.store.WellFormed) (hc : s.store.Holds e c) :
    s.store.hasChildren e = !c.inner.isEmpty := by
  rw [Store.hasChildren, h.linked.count, (Store.holds_iff.mp hc).2.2.length_eq]
  cases c.inner <;> rfl

/-- A use in its own expansion is refused. -/
theorem expand_of_mem (h : s.Represents σ) (hname : name ∈ σ.uses) : expand e name ignore s =
    (.error (.of (.recursion ⟨.expansion, σ.uses.reverse ++ [name]⟩)), s) := by
  have huses : s.definitions.uses.contains name := by simpa [h.uses] using hname
  rw [expand, Action.bind_ok (Action.get_apply s)]
  dsimp only
  rw [if_pos huses, h.uses]
  rfl

/-- A use without definitions changes nothing. -/
theorem expand_of_nil (h : s.Represents σ) (hname : name ∉ σ.uses)
    (hnil : σ.table.bodies name = []) : expand e name ignore s = (.ok false, s) := by
  have huses : ¬ s.definitions.uses.contains name := by simpa [h.uses] using hname
  rw [expand, Action.bind_ok (Action.get_apply s)]
  dsimp only
  rw [if_neg huses, h.bodiesOf_eq_nil hnil]
  rfl

/-- What takes the place of an element's content when its default content `f` was set aside. -/
theorem defines_setAside {t t' t'' : Store} (h : t.WellFormed) (ho : t.Owned) (he : t.isElement e)
    (haside : SetAside e f inner t t') (hfill : Refilled e body t' t'') :
    t''.Defines f inner ∧ t''.parent? f = none := by
  have hw' := haside.within.tidy
  have he' := haside.within.confined.isElement he
  have hhas' := Store.has_of_isElement he'
  have hhas := Store.has_of_isElement he
  have hplace := Store.placeable_of_isElement haside.isElement
  have hdown : ¬ t'.Above e f := by
    intro hup
    rcases Store.above_iff.mp hup with rfl | ⟨q, hq, -⟩
    · exact haside.new hhas
    · rw [haside.alone] at hq
      cases hq
  have hup : ¬ t'.Above f e := fun hup =>
    (hw'.below ((h.tidy_interior ho hhas).fresh f haside.new) hup).2 rfl
  obtain ⟨x, hx, rfl⟩ := haside.holds
  have hdefines : t'.Defines f x.inner := ⟨hplace, (Store.holds_iff.mp hx).2.2⟩
  refine ⟨hfill.untouched.defines hw'.wellFormed (fun m hm => ?_) hdefines, ?_⟩
  · exact (hw'.wellFormed.tidy_interior hw'.owned hhas').within.not_region hw'.wellFormed hw'.owned
      hhas' hplace.has hdown hup hm
  · rw [hfill.within.confined.parent? f fun hI => hI.1.elim hdown fun hnew => hnew hplace.has]
    exact haside.alone

/-- The content of an element gave way to a definition, and the expansion `x` began. The former
content may be kept as a last definition. -/
structure Replaced (e : NodeId) (x : Expansion) (body former : List Content) (s s' : Session) :
    Prop where
  refilled : Refilled e body s.store s'.store
  definitions : s'.definitions = s.definitions.push x
  documents : s'.documents = s.documents
  former (f : NodeId) : f ∈ x.fallback →
    ¬ s.store.Has f ∧ s'.store.Unqualified f ∧ s'.store.parent? f = none ∧ s'.store.Defines f former

/-- **Replacing the content of an element by the first definition of a name.** -/
theorem expand_gives {b : NodeId} {bs : List NodeId} {body : List Content} (h : s.store.WellFormed)
    (ho : s.store.Owned) (hl : s.store.Labelled) (he : s.store.isElement e) (hc : s.store.Holds e c)
    (huses : name ∉ s.definitions.uses) (hdefs : s.definitions.bodiesOf name = b :: bs)
    (hb : s.store.Defines b body) (hdown : ¬ s.store.Above e b) (hup : ¬ s.store.Above b e) :
    (expand e name ignore).Gives s fun r s' => r = true ∧ ∃ fallback : Option NodeId,
      (fallback = none ↔ (c.inner.isEmpty || ignore) = true) ∧
        Replaced e ⟨name, 0, fallback, false⟩ body c.inner s s' := by
  have ht := h.tidy_interior ho (Store.has_of_isElement he)
  have huses : ¬ s.definitions.uses.contains name := by simpa using huses
  refine .bind (.get ?_)
  dsimp only
  rw [if_neg huses, hdefs]
  refine .bind (Work.store_gives ?_)
  rw [hasChildren_eq h hc]
  split
  · -- the former content becomes a last definition
    rename_i hkept
    refine .bind (.map
      ((setFallback_gives h ho hl he (Store.holds_iff.mp hc).2.2).imp fun f s₁ hs₁ => ?_))
    obtain ⟨t, haside, rfl⟩ := hs₁
    have hw := haside.within
    have hout : ¬ s.store.Interior e b := fun hI => hI.1.elim hdown fun hnew => hnew hb.1.has
    have hsrc : t.Defines b body := haside.untouched.defines h (fun m hm hme => hup (hme ▸ hm)) hb
    have hdown' : ¬ t.Above e b := fun hup' => hdown ((hw.above_outside ht hout).mp hup')
    have hup' : ¬ t.Above b e := fun hup' =>
      hup ((hw.above_outside ht (not_interior e s.store)).mp hup')
    refine replaceContent_gives hw.tidy.wellFormed hw.tidy.owned haside.labelled
      (hw.confined.isElement he) hsrc hdown' hup' fun t' hfill => ?_
    refine .bind ⟨_, _, rfl, .pure ⟨rfl, some f, by simpa using hkept, ?_⟩⟩
    obtain ⟨hformer, halone⟩ := defines_setAside h ho he haside hfill
    refine ⟨haside.refilled hfill h ho he, rfl, rfl, fun g hg => ?_⟩
    obtain rfl := Option.some.inj hg
    exact ⟨haside.new, haside.unqualified.mono hfill.within.confined.tag?, halone, hformer⟩
  · rename_i hkept
    refine .bind (.pure (replaceContent_gives h ho hl he hb hdown hup fun t' hfill => ?_))
    refine .bind ⟨_, _, rfl, .pure ⟨rfl, none, ?_, hfill, rfl, rfl, by simp⟩⟩
    simpa [Classical.or_iff_not_imp_left] using hkept

/-- **Adding the next definition to an element.** -/
theorem expandParent_gives {b : NodeId} {top : Expansion} {active : List Expansion}
    {body inner : List Content} (h : s.store.WellFormed) (ho : s.store.Owned)
    (hl : s.store.Labelled) (he : s.store.isElement e)
    (hinner : (s.store.children e).Forall₂ s.store.Holds inner)
    (hactive : s.definitions.active = top :: active)
    (hnext : (s.definitions.bodiesOf top.name)[top.index + 1]? = some b)
    (hb : s.store.Defines b body) (hup : ¬ s.store.Above b e) :
    (expandParent e).Gives s fun r s' => r = s'.store.queue? e ∧
      Replaced e ⟨top.name, top.index + 1, none, true⟩ (inner ++ body) [] s s' := by
  refine .bind (.get ?_)
  simp only [hactive, hnext]
  refine .bind ((appendCopies_gives h ho hl he hb.2 hup).imp fun _ s₁ hs₁ => ?_)
  obtain ⟨t, rfl, hfill⟩ := hs₁
  have ht := h.tidy_interior ho (Store.has_of_isElement he)
  refine .bind (Work.modifyStore_gives (.bind ⟨_, _, rfl, .bind ⟨_, _, rfl, ⟨_, _, rfl, rfl, ?_⟩⟩⟩))
  exact ⟨hfill.refilled he ht.within (.refl _) rfl hinner, rfl, rfl, by simp⟩

/-- **A use of a defined name.** -/
theorem expand_opens {rest : List (List Content)} (hs : Sound e s) (h : s.Represents σ)
    (ha : s.Aside (s.store.Region e) (s.store.parent? e)) (he : s.store.isElement e)
    (hc : s.store.Holds e c) (hname : name ∉ σ.uses)
    (hbodies : σ.table.bodies name = first :: rest) :
    (expand e name ignore).Gives s fun r s' =>
      r = true ∧ Opens e (σ.inside name c.inner ignore) first (opened c.self) s s' := by
  obtain ⟨b, bs, hfirst, hrest, hdefs⟩ :=
    List.forall₂_cons_right_iff.mp (hbodies ▸ h.bodies name)
  have hb : b ∈ s.definitions.bodiesOf name := hdefs ▸ List.mem_cons_self
  refine (expand_gives hs.wellFormed hs.owned h.labelled he hc (h.uses ▸ hname) hdefs hfirst
    (fun hup => (ha name b hb).1 (.inl hup)) ((ha.interior name b hb).2 e rfl)).imp fun r s' hs' =>
      ?_
  obtain ⟨hr, fallback, hnone, hreplaced⟩ := hs'
  refine ⟨hr, ?_⟩
  rw [← show s.store.loose e = c.self from (Store.holds_iff.mp hc).1]
  cases fallback with
  | none =>
    have hinside : σ.inside name c.inner ignore = ⟨σ.table, name :: σ.uses, some (name, 0)⟩ := by
      rw [Scene.inside, if_pos (hnone.mp rfl)]
    exact opens_of_push hs h ha hreplaced.refilled hreplaced.definitions .nil (by simp)
      (by simp [hinside]) (by simp [hinside]) (by simp [hinside]) (by simp [hinside])
  | some f =>
    have hinside : σ.inside name c.inner ignore =
        ⟨σ.table.add name c.inner, name :: σ.uses, some (name, 0)⟩ := by
      rw [Scene.inside, if_neg fun hkept => by simpa using hnone.mpr hkept]
    obtain ⟨hnew, -, halone, hformer⟩ := hreplaced.former f rfl
    exact opens_of_push hs h ha hreplaced.refilled hreplaced.definitions (.cons hformer .nil)
      (fun g hg => Option.some.inj hg ▸ ⟨hnew, halone⟩) (by simp [hinside, Table.add])
      (by simp [hinside, Table.add]) (by simp [hinside]) (by simp [hinside])

/-! ### What entering comes to -/

/-- What work at a node comes to, compared with how the node should go on: it fails without having
changed anything, or leaves the node alone, or opens it. -/
def Meets {α : Type} (n : NodeId) (s : Session) (passed : α) (entered : Store → α) (w : Work α) :
    Except Failure Opening → Prop
  | .error f => w s = (.error f, s)
  | .ok none => w s = (.ok passed, s)
  | .ok (some (σ, content, form)) =>
    w.Gives s fun r s' => r = entered s'.store ∧ Opens n σ content form s s'

namespace Meets

variable {α β : Type} {passed : α} {entered : Store → α} {w : Work α} {r : Except Failure Opening}

theorem congr {w' : Work α} (h : Meets n s passed entered w r) (hw : w' s = w s) :
    Meets n s passed entered w' r := by
  match r with
  | .error f => exact hw.trans h
  | .ok none => exact hw.trans h
  | .ok (some (σ, content, form)) =>
    obtain ⟨r, s', hws, hr⟩ := h
    exact ⟨r, s', hw.trans hws, hr⟩

theorem atNode (h : Meets n s passed entered w r) (m : NodeId) :
    Meets n s passed entered (Work.atNode m w) (r.mapError (Failure.atSelf (s.store.loose m))) := by
  match r with
  | .error f => exact Work.atNode_error h rfl
  | .ok none =>
    have hw : w s = (.ok passed, s) := h
    change Work.atNode m w s = _
    rw [Work.atNode, hw]
  | .ok (some (σ, content, form)) =>
    obtain ⟨r, s', hws, hr⟩ := h
    exact ⟨r, s', by rw [Work.atNode, hws], hr⟩

/-- What is computed first may fail. -/
theorem lift {x : Except Failure β} {k : β → Work α} {g : β → Except Failure Opening}
    (h : ∀ b, x = .ok b → Meets n s passed entered (k b) (g b)) :
    Meets n s passed entered (Work.lift x >>= k) (x >>= g) := by
  cases x with
  | error f => rfl
  | ok b => exact (h b rfl).congr (Action.bind_ok rfl)

/-- What follows work at an attribute, which never leaves the element alone. -/
theorem followed {w : Work Unit} {k : Work α} (h : Meets n s () (fun _ => ()) w r)
    (hr : r ≠ .ok none)
    (hk : ∀ σ content form s', Opens n σ content form s s' → k s' = (.ok (entered s'.store), s')) :
    Meets n s passed entered (w >>= fun _ => k) r := by
  match r with
  | .error f =>
    have hw : w s = (.error f, s) := h
    change (w >>= fun _ => k) s = _
    rw [Action.bind_apply, hw]
  | .ok none => exact absurd rfl hr
  | .ok (some (σ, content, form)) =>
    obtain ⟨_, s', hws, -, hopens⟩ := h
    exact ⟨_, s', (Action.bind_ok hws).trans (hk σ content form s' hopens), rfl, hopens⟩

end Meets

/-- A use never leaves its element alone. -/
theorem Scene.use_ne_none : σ.use name c ignore ≠ .ok none := by
  rw [Scene.use]
  split
  · simp
  · split <;> simp

section Uses

variable {α : Type} {passed : α} {entered : Store → α} {k : Bool → Work α}

/-- **A use**, with what follows when the content was replaced or not. -/
theorem use_meets (hs : Sound n s) (h : s.Represents σ)
    (ha : s.Aside (s.store.Region n) (s.store.parent? n)) (hn : s.store.isElement n)
    (hc : s.store.Holds n c) (hk : ∀ b s', (k b).Gives s' fun r s'' =>
      r = entered s'.store ∧ s''.store = s'.store ∧ s''.definitions = s'.definitions) :
    Meets n s passed entered (expand n name ignore >>= k) (σ.use name c ignore) := by
  rw [Scene.use]
  split
  · rename_i hname
    change (expand n name ignore >>= k) s = _
    rw [Action.bind_apply, expand_of_mem h (by simpa using hname)]
  rename_i hname
  have hname : name ∉ σ.uses := by simpa using hname
  split
  · rename_i hnil
    refine .bind ⟨false, s, expand_of_nil h hname hnil, (hk false s).imp fun r s' hs' => ?_⟩
    exact ⟨hs'.2.1 ▸ hs'.1, (Opens.refl hs h ha hc).congr hs'.2.1 hs'.2.2⟩
  · rename_i first rest hbodies
    refine .bind ((expand_opens hs h ha hn hc hname hbodies).imp fun b s' hs' => ?_)
    exact (hk b s').imp fun r s'' hs'' => ⟨hs''.2.1 ▸ hs''.1, hs'.2.congr hs''.2.1 hs''.2.2⟩

end Uses

/-- **The element `use`.** -/
theorem useElement_meets {d : Dialect} (hs : Sound n s) (h : s.Represents σ)
    (ha : s.Aside (s.store.Region n) (s.store.parent? n)) (hn : s.store.isElement n)
    (hc : s.store.Holds n c) :
    Meets n s none (·.queue? n) (useElement d n) (do
      let attrs ← extractOf d c.self c.attributes useSpecs (some anyText)
      σ.use (attrs.text "macro") c (attrs.flag "ignore-default")) := by
  obtain ⟨hself, hattrs, -⟩ := Store.holds_iff.mp hc
  rw [← hself, ← hattrs, ← extractAttributes_eq h.labelled]
  refine Meets.congr (Meets.lift fun attrs _ => use_meets hs h ha hn hc
    (k := fun b => do
      if b then
        Work.requestReturn n
        noteUse n (attrs.text "macro")
      Work.enqueueChildren n) fun b s' => ?_) rfl
  cases b
  · exact ⟨_, _, rfl, rfl, rfl, rfl⟩
  · exact ⟨_, _, rfl, rfl, rfl, rfl⟩

theorem value_facet? (t : Store) (a : NodeId) :
    (((t.loose a).bind fun node => node.payload.facet?).map Tree.AttributeData.value) =
      (t.attr? a).map Tree.AttributeData.value := by
  rw [← Store.facet?_eq_loose, Store.facet?, Store.attr?]
  cases t.payload? a with
  | none => rfl
  | some p => cases p <;> rfl

/-- **The attribute `use`.** -/
theorem useAttribute_meets (hs : Sound n s) (h : s.Represents σ)
    (ha : s.Aside (s.store.Region n) (s.store.parent? n)) (hn : s.store.isElement n)
    (hc : s.store.Holds n c) :
    Meets n s () (fun _ => ()) (useAttribute n a) (do
      let name ← usedName c.self (s.store.loose a)
      σ.use name c false) := by
  have hself := (Store.holds_iff.mp hc).1
  have hlift : useAttribute n a s =
    (Work.lift (usedName c.self (s.store.loose a)) >>= fun name => do
      if ← expand n name false then
        Work.requestReturn a
        noteUse n name : Work Unit) s := by
    rw [useAttribute, Action.bind_ok (show Work.store s = (.ok s.store, s) from rfl), usedName,
      value_facet?, ← hself, Tree.labelOf_loose, Tree.labelOf_loose]
    cases ((s.store.attr? a).map Tree.AttributeData.value).getD (.literal []) with
    | expression => rfl
    | literal name =>
      dsimp only
      cases isIdentifier name <;> rfl
  refine Meets.congr (Meets.lift fun name _ => use_meets hs h ha hn hc fun b s' => ?_) hlift
  cases b
  · exact ⟨_, _, rfl, rfl, rfl, rfl⟩
  · exact ⟨_, _, rfl, rfl, rfl, rfl⟩

/-- **The element `parent`.** -/
theorem expandParent_meets (hs : Sound n s) (h : s.Represents σ)
    (ha : s.Aside (s.store.Region n) (s.store.parent? n)) (hn : s.store.isElement n)
    (hc : s.store.Holds n c) : Meets n s none (·.queue? n) (expandParent n) (.ok (σ.next c)) := by
  have hframe := h.frame
  obtain ⟨hself, -, hinner⟩ := Store.holds_iff.mp hc
  rw [Scene.next, ← hframe]
  cases hactive : s.definitions.active with
  | nil =>
    change expandParent n s = _
    rw [expandParent, Action.bind_ok (Action.get_apply s)]
    simp only [hactive]
    rfl
  | cons top active =>
    have hbodies := h.bodies top.name
    rw [List.head?_cons, Option.map_some]
    dsimp only
    cases hnext : (s.definitions.bodiesOf top.name)[top.index + 1]? with
    | none =>
      have hnone : (σ.table.bodies top.name)[top.index + 1]? = none := by
        rw [List.getElem?_eq_none_iff] at hnext ⊢
        exact hbodies.length_eq ▸ hnext
      rw [hnone]
      change expandParent n s = _
      rw [expandParent, Action.bind_ok (Action.get_apply s)]
      simp only [hactive, hnext]
      rfl
    | some b =>
      obtain ⟨hlt, hb⟩ := List.getElem?_eq_some_iff.mp hnext
      have hlt' : top.index + 1 < (σ.table.bodies top.name).length := hbodies.length_eq ▸ hlt
      have hdefines : s.store.Defines b (σ.table.bodies top.name)[top.index + 1] :=
        hb ▸ hbodies.get hlt hlt'
      have hmem : b ∈ s.definitions.bodiesOf top.name := List.mem_of_getElem? hnext
      rw [List.getElem?_eq_getElem hlt', Option.map_some]
      refine (expandParent_gives hs.wellFormed hs.owned h.labelled hn hinner hactive hnext hdefines
        ((ha.interior top.name b hmem).2 n rfl)).imp fun r s' hs' => ⟨hs'.1, ?_⟩
      rw [← hself]
      exact opens_of_push hs h ha hs'.2.refilled hs'.2.definitions .nil (by simp)
        (by simp) rfl rfl rfl

/-! ### Entering a node -/

/-- In the stage that changes the tree the instructions of the language are called, and no
others. -/
structure Fluent (env : Stage.Environment) : Prop extends Spoken env where
  element? (uri : Option Int) (name : Text) : env.registry.element? .manipulation uri name =
    if uri = some (namespaceIdOf env.dialect) then (elementTable env.dialect).lookup name else none
  attribute? (uri : Option Int) (name : Text) : env.registry.attribute? .manipulation uri name =
    if uri = some (namespaceIdOf env.dialect) then attributeTable.lookup name else none

theorem fluent_of_setup [Encoding.Decoders] {config : Config} {x : Compiler} {r : Registry}
    (hx : Compiler.withLanguage config = .ok x) (hr : x.setup = .ok r) : Fluent ⟨x.dialect, r⟩ :=
  ⟨spoken_of_setup hx hr, fun _ _ => element?_of_setup hx hr, fun _ _ => attribute?_of_setup hx hr⟩

theorem payload_loose (t : Store) (n : NodeId) :
    (t.loose n).map Node.payload = (t.payload? n).map Tree.Payload.loose := by
  rw [Store.loose, Store.payload?, Option.map_map, Option.map_map]
  rfl

/-- Attributes are offered to the attribute `use` only. -/
theorem offer_apply (henv : Fluent env) : (do
      match ← Stage.attributeHooks? env .manipulation a with
      | some hooks => Work.atNode a (hooks.enter n a)
      | none => pure () : Work Unit) s =
    (if isUse (namespaceIdOf env.dialect) (s.store.loose a) then Work.atNode a (useAttribute n a)
      else pure ()) s := by
  rw [Action.bind_ok attributeHooks?_apply, isUse, payload_loose, Store.attr?]
  cases s.store.payload? a with
  | none => rfl
  | some p =>
    cases p with
    | attr d =>
      simp only [Option.map_some, Option.bind_some, Tree.Payload.loose, henv.attribute?]
      by_cases huri : d.uri = some (namespaceIdOf env.dialect)
      · by_cases hname : d.name = "use"
        · simp [huri, hname, attributeTable]
        · have hlookup : (d.name == "use") = false := by simpa using hname
          simp [huri, hlookup, attributeTable, List.lookup_cons]
      · simp [huri]
    | _ => rfl

/-- **An ordinary element** with one use at most. -/
theorem offerAttributes_meets (henv : Fluent env) (hs : Sound n s) (h : s.Represents σ)
    (ha : s.Aside (s.store.Region n) (s.store.parent? n)) (hn : s.store.isElement n)
    (hc : s.store.Holds n c)
    (hsingle : c.attributes.countP (isUse (namespaceIdOf env.dialect)) ≤ 1) :
    Meets n s none (·.queue? n) (do
        Stage.offerAttributes env n
        Work.enqueueChildren n)
      (match c.attributes.find? (isUse (namespaceIdOf env.dialect)) with
        | none => .ok (some (σ, c.inner, c.self))
        | some a => Except.mapError (Failure.atSelf a) do
          let name ← usedName c.self a
          σ.use name c false) := by
  obtain ⟨-, hattrs, -⟩ := Store.holds_iff.mp hc
  have hskip : ∀ (l : List NodeId) (s : Session),
      (∀ a ∈ l, isUse (namespaceIdOf env.dialect) (s.store.loose a) = false) → ∀ a ∈ l, (do
        match ← Stage.attributeHooks? env .manipulation a with
        | some hooks => Work.atNode a (hooks.enter n a)
        | none => pure () : Work Unit) s = (.ok (), s) := by
    intro l s hl a ha
    rw [offer_apply henv, hl a ha]
    rfl
  rw [← hattrs, List.countP_map] at hsingle
  rw [← hattrs, List.find?_map]
  cases hfind :
      (s.store.attributes n).find? (isUse (namespaceIdOf env.dialect) ∘ s.store.loose) with
  | none =>
    have hnone := List.find?_eq_none.mp hfind
    have hoffer : Stage.offerAttributes env n s = (.ok (), s) :=
      Action.forM_eq (hskip _ s fun a ha => by simpa using hnone a ha)
    exact ⟨_, s, Action.bind_ok hoffer, rfl, .refl hs h ha hc⟩
  | some a =>
    obtain ⟨huse, before, behind, hsplit, hbefore⟩ := List.find?_eq_some_iff_append.mp hfind
    have hbehind : ∀ b ∈ behind, isUse (namespaceIdOf env.dialect) (s.store.loose b) = false := by
      rw [hsplit, List.countP_append, List.countP_cons, if_pos huse] at hsingle
      have hzero : behind.countP (isUse (namespaceIdOf env.dialect) ∘ s.store.loose) = 0 := by omega
      intro b hb
      simpa using List.countP_eq_zero.mp hzero b hb
    have hmeets := (useAttribute_meets (a := a) hs h ha hn hc).atNode a
    have hoffer : (do
        Stage.offerAttributes env n
        Work.enqueueChildren n : Work (Option (List NodeId))) s = (do
        Work.atNode a (useAttribute n a)
        behind.forM fun b => do
          match ← Stage.attributeHooks? env .manipulation b with
          | some hooks => Work.atNode b (hooks.enter n b)
          | none => pure ()
        Work.enqueueChildren n : Work (Option (List NodeId))) s := by
      rw [← bind_assoc]
      refine Action.bind_congr ?_
      rw [Stage.offerAttributes, Action.bind_ok (show Work.store s = (.ok s.store, s) from rfl),
        hsplit]
      refine (Action.forM_append_of_eq (hskip before s fun b hb => ?_)).trans (Action.bind_congr ?_)
      · simpa using hbefore b hb
      exact (offer_apply henv).trans (by rw [if_pos (show isUse _ (s.store.loose a) from huse)])
    refine Meets.congr (hmeets.followed ?_ fun σ' content form s' hopens => ?_) hoffer
    · intro hnone
      obtain ⟨name, -, hnone⟩ := exists_of_bind_ok (mapError_eq_ok hnone)
      exact Scene.use_ne_none hnone
    · have hattrs' : s'.store.attributes n = s.store.attributes n :=
        hopens.within.confined.attributes n (not_interior n s.store)
      have hsame := hopens.attributes
      rw [hattrs', List.map_inj_left] at hsame
      rw [Action.bind_ok (Action.forM_eq (hskip behind s' fun b hb => ?_))]
      · rfl
      · rw [hsame b (by simp [hsplit, hb])]
        exact hbehind b hb

/-- Elements that only ask for their children. -/
theorem enqueueChildren_meets (hs : Sound n s) (h : s.Represents σ)
    (ha : s.Aside (s.store.Region n) (s.store.parent? n)) (hc : s.store.Holds n c) :
    Meets n s none (·.queue? n) (Work.enqueueChildren n) (.ok (some (σ, c.inner, c.self))) :=
  ⟨_, _, rfl, rfl, .refl hs h ha hc⟩

/-- The names that have a role are those that someone is called for. -/
theorem lookup_cases (d : Dialect) (z : Text) : z ∈ roles.map Prod.fst ∨
    roles.lookup z = none ∧ (elementTable d).lookup z = none := by
  refine or_iff_not_imp_left.mpr fun hz => ?_
  rw [List.lookup_eq_none_iff, List.lookup_eq_none_iff]
  have hnames : (elementTable d).map Prod.fst = roles.map Prod.fst := rfl
  have hne : ∀ y ∈ roles.map Prod.fst, (z != y) = true := by
    intro y hy
    simpa using fun hzy : z = y => hz (hzy ▸ hy)
  exact ⟨fun p hp => hne _ (List.mem_map_of_mem hp),
    fun p hp => hne _ (hnames ▸ List.mem_map_of_mem hp)⟩

/-- **An element of the language.** -/
theorem enterInstruction_meets {d : Tree.ElementData} (henv : Fluent env) (hs : Sound n s)
    (h : s.Represents σ) (ha : s.Aside (s.store.Region n) (s.store.parent? n))
    (hc : s.store.Holds n c) (hd : s.store.element? n = some d)
    (hid : d.uri = some (namespaceIdOf env.dialect))
    (hloads : roleOf (namespaceIdOf env.dialect) c.self ≠ .loads)
    (hdefines : roleOf (namespaceIdOf env.dialect) c.self ≠ .defines)
    (hrole : roleOf (namespaceIdOf env.dialect) c.self = (roles.lookup d.name).getD .passed) :
    Meets n s none (·.queue? n) (Stage.enterInstruction env .manipulation n)
      (opening env.dialect σ c) := by
  have hn : s.store.isElement n := by rw [Store.isElement, hd]; rfl
  have hself : s.store.loose n = c.self := (Store.holds_iff.mp hc).1
  have hhooks : Stage.elementHooks? env .manipulation n s =
      (.ok ((elementTable env.dialect).lookup d.name), s) := by
    rw [elementHooks?_apply, hd, Option.bind_some, henv.element?, if_pos hid]
  have hentered := (enqueueChildren_meets hs h ha hc).atNode n
  have hdefinition : (definitionElement env.dialect).enter n s = (if d.name = "macro" then (do
      define env.dialect n
      return none)
    else if d.name = "use" then useElement env.dialect n
    else if d.name = "parent" then expandParent n
    else return none : Work (Option (List NodeId))) s := by
    rw [← nameOf_eq hd]
    rfl
  have htemplate : (templateElement env.dialect).enter n s =
      (if d.name = "load" then load env.dialect n else Work.enqueueChildren n) s := by
    rw [← nameOf_eq hd]
    rfl
  refine Meets.congr ?_ (Action.bind_ok hhooks)
  rw [opening]
  rw [hrole] at hloads hdefines ⊢
  rcases lookup_cases env.dialect d.name with hmem | ⟨hnone, hnone'⟩
  · simp only [roles, List.map_cons, List.map_nil, List.mem_cons,
      List.not_mem_nil, or_false] at hmem
    rcases hmem with hz | hz | hz | hz | hz | hz | hz | hz <;>
      rw [hz] at hdefinition htemplate hloads hdefines ⊢
    · exact hentered
    · exact hentered
    · exact ((expandParent_meets hs h ha hn hc).congr (by
        rw [hdefinition, if_neg (by decide), if_neg (by decide), if_pos rfl])).atNode n
    · have huse : (definitionElement env.dialect).enter n s = useElement env.dialect n s := by
        rw [hdefinition, if_neg (by decide), if_pos rfl]
      have hmeets := ((useElement_meets hs h ha hn hc).congr huse).atNode n
      rw [hself] at hmeets
      exact hmeets
    · exact absurd rfl hdefines
    · exact absurd rfl hloads
    · exact ((enqueueChildren_meets hs h ha hc).congr (by
        rw [htemplate, if_neg (by decide)])).atNode n
    · exact ((enqueueChildren_meets hs h ha hc).congr (by
        rw [htemplate, if_neg (by decide)])).atNode n
  · rw [hnone, hnone']
    rfl

/-- **Entering a node** of a scene, unless it brings something new. -/
theorem manipulate_meets (henv : Fluent env) (hs : Sound n s) (h : s.Represents σ)
    (ha : s.Aside (s.store.Region n) (s.store.parent? n)) (hc : s.store.Holds n c)
    (hloads : roleOf (namespaceIdOf env.dialect) c.self ≠ .loads)
    (hdefines : roleOf (namespaceIdOf env.dialect) c.self ≠ .defines)
    (hsingle : roleOf (namespaceIdOf env.dialect) c.self = .ordinary →
      c.attributes.countP (isUse (namespaceIdOf env.dialect)) ≤ 1) :
    Meets n s none (·.queue? n) (Stage.manipulate env n) (opening env.dialect σ c) := by
  have hpayload : c.self.map Node.payload = (s.store.payload? n).map Tree.Payload.loose := by
    rw [← (Store.holds_iff.mp hc).1, payload_loose]
  refine Meets.congr ?_ (Action.bind_ok (show Work.store s = (.ok s.store, s) from rfl))
  cases hpay : s.store.payload? n with
  | none =>
    rw [hpay] at hpayload
    rw [opening, roleOf, hpayload]
    rfl
  | some payload =>
    rw [hpay] at hpayload
    cases payload with
    | document d =>
      rw [opening, roleOf, hpayload]
      exact enqueueChildren_meets hs h ha hc
    | element d =>
      have hd : s.store.element? n = some d := by rw [Store.element?, hpay]
      have hn : s.store.isElement n := by rw [Store.isElement, hd]; rfl
      dsimp only
      cases huri : d.uri with
      | none =>
        have hrole : roleOf (namespaceIdOf env.dialect) c.self = .ordinary := by
          rw [roleOf, hpayload]
          simp [Tree.Payload.loose, huri]
        rw [opening, hrole, if_neg (by simp)]
        exact offerAttributes_meets henv hs h ha hn hc (hsingle hrole)
      | some u =>
        rw [if_pos Option.isSome_some]
        by_cases hid : u = namespaceIdOf env.dialect
        · refine enterInstruction_meets henv hs h ha hc hd (huri.trans (congrArg some hid)) hloads
            hdefines ?_
          rw [roleOf, hpayload]
          simp [Tree.Payload.loose, huri, hid]
        · -- elements of other namespaces concern nobody
          have hrole : roleOf (namespaceIdOf env.dialect) c.self = .passed := by
            rw [roleOf, hpayload]
            simp [Tree.Payload.loose, huri, hid]
          have hhooks : Stage.elementHooks? env .manipulation n s = (.ok none, s) := by
            rw [elementHooks?_apply, hd, Option.bind_some, henv.element?, huri,
              if_neg (by simpa using hid)]
          rw [opening, hrole]
          exact Action.bind_ok hhooks
    | _ =>
      rw [opening, roleOf, hpayload]
      rfl

end Language

end Stencil
