import Stencil.Proofs.Language.Balance
import Stencil.Proofs.Language.Uses

/-!
# Expansions begin and end with visits

The stage that changes the tree keeps a stack of expansions and a table of definitions. Both are
changed when nodes are entered and left, and the walk decides when that happens. This module says
what a whole visit to a node leaves behind, whatever is expanded, loaded or defined in between: the
expansions and the flags are those from before, the table has grown by the definitions that were
entered on the way, in this order, and the default content of every place of use that was expanded
on the way is taken apart (`Language.Passed`).

To say that, the walk writes down each call of a handler with the state that it leaves. Since the
walk is plain recursion, the statement follows by induction on the depth: a node is entered, a row
of nodes is visited, and the node is left.

## Main definitions

* `Tree.Store.Lone` – a node that stands nowhere and holds nothing
* `Language.definedName?`, `Language.reached` – the definitions that were entered
* `Language.Passed` – what a visit leaves behind

## Main results

* `Session.Guards.lone_of_ended` – expansions that end leave nothing of their default content
* `Language.passes` – visiting a node
-/

namespace Stencil

open Stencil.Tree (NodeId Store Visitor Call)
open Stencil.Tree.Store (Tidy Within Placeable Verbatim)

/-! ### Nodes that were taken apart -/

namespace Tree.Store

variable {s s' : Store} {R : NodeId → Prop} {anchor : Option NodeId} {e m n : NodeId}

/-- A node stands nowhere and holds nothing. -/
structure Lone (s : Store) (m : NodeId) : Prop where
  has : s.Has m
  parent? : s.parent? m = none
  children : s.children m = []

/-- A node that does not take part in some work stays alone. -/
theorem Lone.within (h : s.Lone m) (ht : Tidy R anchor s) (hw : Within R anchor s s') (hm : ¬ R m)
    (ha : anchor ≠ some m) : s'.Lone m := by
  refine ⟨hw.confined.has h.has, (hw.confined.parent? m hm).trans h.parent?, ?_⟩
  refine List.eq_nil_iff_forall_not_mem.mpr fun c hc => ?_
  have hcm := hw.tidy.wellFormed.mem_children.mp hc
  by_cases hR : R c
  · exact (hw.tidy.up c m hcm hR).elim hm ha
  · rw [hw.confined.parent? c hR, ← ht.wellFormed.mem_children, h.children] at hcm
    cases hcm

/-- Disposing of nodes gives nothing a place. -/
theorem Lone.dispose (h : s.Lone m) (hw : s.WellFormed) (ho : s.Owned) (he : s.Has e) :
    (s.dispose e).Lone m := by
  refine ⟨((hw.tidy ho).dispose he trivial).confined.has h.has, ?_, ?_⟩
  · refine Option.eq_none_iff_forall_ne_some.mpr fun q hq => ?_
    have hq := hw.parent?_of_dispose he hq
    rw [h.parent?] at hq
    cases hq
  · refine List.eq_nil_iff_forall_not_mem.mpr fun c hc => ?_
    have hc := hw.parent?_of_dispose he ((hw.dispose he).mem_children.mp hc)
    rw [← hw.mem_children, h.children] at hc
    cases hc

/-- Whatever is below a node that is disposed of is alone then. -/
theorem WellFormed.lone_dispose (hw : s.WellFormed) (ho : s.Owned) (he : s.Has e)
    (halone : s.parent? e = none) (hm : s.Above e m) : (s.dispose e).Lone m := by
  refine ⟨((hw.tidy ho).dispose he trivial).confined.has (hm.has he), ?_,
    hw.children_dispose he halone hm⟩
  refine Option.eq_none_iff_forall_ne_some.mpr fun q hq => ?_
  have hmq := (hw.dispose he).mem_children.mpr hq
  rcases above_iff.mp hm with rfl | ⟨p, hp, hup⟩
  · rw [hw.parent?_of_dispose he hq] at halone
    cases halone
  · obtain rfl := Option.some.inj (hp.symm.trans (hw.parent?_of_dispose he hq))
    rw [hw.children_dispose he halone hup] at hmq
    cases hmq

end Tree.Store

/-! ### Ending expansions -/

namespace Session.Guards

variable {s s' : Session} {id : Int} {l : List NodeId} {ended : List Expansion} {f m : NodeId}
  {x : Expansion} {rest : List Expansion}

/-- **Expansions that end** leave nothing of their default content, and give nothing a place. -/
theorem lone_of_ended (g : s.Guards id l) (hactive : s.definitions.active = ended ++ rest)
    (hstore : s'.store = (ended.filterMap (·.fallback)).foldl (fun t f => t.dispose f) s.store) :
    (∀ m, s.store.Lone m → s'.store.Lone m) ∧
      ∀ x ∈ ended, ∀ f ∈ x.fallback, ∀ m, s.store.Above f m → s'.store.Lone m := by
  induction ended generalizing s with
  | nil => exact ⟨fun m hm => hstore ▸ hm, by simp⟩
  | cons x ended ih =>
    obtain ⟨g₁, -⟩ : Session.Guards id l { s with
        definitions := s.definitions.unwind
        store := x.fallback.toList.foldl (fun t f => t.dispose f) s.store } ∧ s.Releases _ :=
      g.unwind hactive rfl rfl rfl
    have hrest := (Definitions.unwind_of_active hactive).1
    have hx : x ∈ s.definitions.active := hactive ▸ List.mem_cons_self
    obtain ⟨hkept, hgone⟩ := ih g₁ hrest (by rw [hstore, foldl_dispose_cons])
    dsimp only at hkept hgone
    cases hf : x.fallback with
    | none =>
      rw [hf, Option.toList_none, List.foldl_nil] at hkept hgone
      refine ⟨hkept, fun y hy f hyf m hm => ?_⟩
      rcases List.mem_cons.mp hy with rfl | hy
      · rw [hf] at hyf
        cases hyf
      · exact hgone y hy f hyf m hm
    | some e =>
      rw [hf, Option.toList_some, List.foldl_cons, List.foldl_nil] at hkept hgone
      obtain ⟨hplace, -, halone, -⟩ := g.fallbacks x e hx hf
      have hlone : ∀ m, s.store.Above e m → (s.store.dispose e).Lone m := fun m =>
        g.wellFormed.lone_dispose g.owned hplace.has halone
      refine ⟨fun m hm => hkept m (hm.dispose g.wellFormed g.owned hplace.has),
        fun y hy f hyf m hm => ?_⟩
      by_cases hem : s.store.Above e m
      · exact hkept m (hlone m hem)
      · rcases List.mem_cons.mp hy with rfl | hy
        · obtain rfl := Option.some.inj (hf.symm.trans hyf)
          exact absurd hm hem
        · -- what is not below the first one is left where it is
          refine hgone y hy f hyf m ?_
          have ht := g.wellFormed.tidy_region g.owned e
          have hw := ht.dispose hplace.has (.inl (.refl e))
          refine (hw.above_outside ht (fun hR => hR.elim hem fun hnew => hnew ?_)).mpr hm
          exact hm.has (g.fallbacks y f
            (hactive ▸ List.mem_cons_of_mem x (List.mem_append_left rest hy)) hyf).1.has

/-- Expansions that end rewrite nothing but their default content. -/
theorem verbatim_of_ended {R : NodeId → Prop} {anchor : Option NodeId} (g : s.Guards id l)
    (ht : Tidy R anchor s.store) (hactive : s.definitions.active = ended ++ rest)
    (hstore : s'.store = (ended.filterMap (·.fallback)).foldl (fun t f => t.dispose f) s.store)
    (hR : ∀ x ∈ ended, ∀ f ∈ x.fallback, R f) : Verbatim R s.store s'.store := by
  rw [hstore]
  refine (g.wellFormed.untouched_disposeAll g.owned fun f hf => ?_).verbatim.mono ?_
  · obtain ⟨x, hx, hxf⟩ := List.mem_filterMap.mp hf
    obtain ⟨hplace, -, halone, -⟩ := g.fallbacks x f (hactive ▸ List.mem_append_left rest hx) hxf
    exact ⟨hplace, halone⟩
  · rintro m - ⟨f, hf, hup⟩
    obtain ⟨x, hx, hxf⟩ := List.mem_filterMap.mp hf
    exact ht.below (hR x hx f hxf) hup

end Session.Guards

namespace Language

variable {env : Stage.Environment} {s s' s'' : Session} {R : NodeId → Prop} {anchor : Option NodeId}
  {id : Int} {n m p f : NodeId} {b : Prop} {l row : List NodeId} {log log' : List (Call × Session)}
  {z : Text} {x : Expansion} {depth : Nat}

/-! ### Definitions that were entered -/

/-- The name that an element defines something under. -/
def definedName? (d : Dialect) (t : Store) (n : NodeId) : Option Text :=
  if isNamed t n (namespaceIdOf d) ["macro"] then
    (extractAttributes d t n [nameSpec] (some anyText)).toOption.map (·.text "name")
  else none

/-- The definitions of a name that were entered, in order. -/
def reached (d : Dialect) (z : Text) (log : List (Call × Session)) : List NodeId :=
  log.filterMap fun
    | (.enter n, t) => if definedName? d t.store n = some z then some n else none
    | (.leave _, _) => none

theorem reached_append {d : Dialect} :
    reached d z (log ++ log') = reached d z log ++ reached d z log' := List.filterMap_append

@[simp] theorem reached_leave {d : Dialect} : reached d z [(.leave n, s)] = [] := rfl

theorem reached_enter {d : Dialect} : reached d z [(.enter n, s)] =
    if definedName? d s.store n = some z then [n] else [] := by
  rw [reached, List.filterMap_cons]
  dsimp only
  split_ifs <;> rfl

theorem exists_of_declaration {d : Dialect} {t : Table} {self : Option Tree.Node}
    {attributes : List (Option Tree.Node)} {y : Text × List (Text × AttributeValue)}
    (h : declaration d t self attributes = .ok y) :
    ∃ attrs, extractOf d self attributes [nameSpec] (some anyText) = .ok attrs ∧
      attrs.text "name" = y.1 := by
  obtain ⟨attrs, hattrs, h⟩ := exists_of_bind_ok h
  refine ⟨attrs, hattrs, ?_⟩
  split at h
  · split at h
    · obtain ⟨_, hthrow, -⟩ := exists_of_bind_ok h
      cases hthrow
    · exact congrArg Prod.fst (Except.ok.inj h)
  · exact congrArg Prod.fst (Except.ok.inj h)

/-- **An element that defines something** is taken into the table under its name. -/
theorem define_reaches (henv : Fluent env) (g : s.Guards (namespaceIdOf env.dialect) (n :: l))
    (hnamed : isNamed s.store n (namespaceIdOf env.dialect) ["macro"]) :
    (Stage.manipulate env n).Yields s fun r s' => r = none ∧
      ∃ y : Text × List (Text × AttributeValue), s' = s.defining n y ∧
        definedName? env.dialect s'.store n = some y.1 := by
  have hrole : roleOf (namespaceIdOf env.dialect) (s.store.loose n) = .defines := by
    obtain ⟨data, hdata, huri, hname⟩ : ∃ data, s.store.element? n = some data ∧
        data.uri = some (namespaceIdOf env.dialect) ∧ data.name = "macro" := by
      rw [isNamed] at hnamed
      split at hnamed
      · rename_i data hdata
        exact ⟨data, hdata, by simpa using hnamed⟩
      · cases hnamed
    rw [roleOf_of_instruction hdata huri, hname]
    rfl
  intro r s' h
  rw [manipulate_eq_define henv hrole] at h
  have h := Work.atNode_ok h
  rcases define_cases (d := env.dialect) (n := n) (t := { Table.empty with
    arguments := s.definitions.arguments? }) g.labelled fun _ => rfl with
    ⟨f, -, hfail⟩ | ⟨y, hy, -, hdone⟩
  · rw [Action.bind_apply, hfail] at h
    cases h
  · rw [Action.bind_ok hdone] at h
    cases h
    refine ⟨rfl, y, rfl, ?_⟩
    have hu : Store.Untouched (fun _ => False) s.store (s.defining n y).store :=
      g.wellFormed.untouched_noteDefinition g.owned
    have halike : Store.Alike s.store (s.defining n y).store := alike_noteDefinition
    have hview := hu.view n (Store.placeable_of_isElement (isElement_of_isNamed hnamed)) id
    obtain ⟨attrs, hattrs, hname⟩ := exists_of_declaration hy
    rw [definedName?, if_pos ((isNamed_congr (halike.tag? n)).trans hnamed),
      extractAttributes_eq (g.labelled.alike halike)]
    have hself : (s.defining n y).store.loose n = s.store.loose n := congrArg Store.View.self hview
    have hattributes := congrArg Store.View.attributes hview
    rw [hself, show ((s.defining n y).store.attributes n).map (s.defining n y).store.loose =
      (s.store.attributes n).map s.store.loose from hattributes, hattrs]
    exact congrArg some hname

/-! ### What a part of a walk leaves behind -/

/-- A part of a walk over some nodes has come to its end, with these calls of handlers. -/
structure Passed (env : Stage.Environment) (R : NodeId → Prop) (anchor : Option NodeId)
    (l : List NodeId) (s : Session) (log : List (Call × Session)) (s' : Session) : Prop where
  settled : Settled R anchor False s s'
  /-- Outside everything says what it said. -/
  verbatim : Verbatim R s.store s'.store
  guards : s'.Guards (namespaceIdOf env.dialect) l
  /-- The definitions that were entered were added, each at the end. -/
  bodies (z : Text) :
    s'.definitions.bodiesOf z = s.definitions.bodiesOf z ++ reached env.dialect z log
  /-- They are elements that define something. -/
  named (z : Text) (b : NodeId) : b ∈ reached env.dialect z log →
    isNamed s'.store b (namespaceIdOf env.dialect) ["macro"]
  /-- The default content of expansions that were under way is as it was. -/
  aside (x : Expansion) (f m : NodeId) : x ∈ s.definitions.active → x.fallback = some f →
    (s'.store.Above f m ↔ s.store.Above f m)
  /-- The default content of all other expansions is taken apart. -/
  fallbacks (e : Call × Session) (x : Expansion) (f m : NodeId) : e ∈ log →
    x ∈ e.2.definitions.active → x.fallback = some f → e.2.store.Above f m →
    (x ∈ s.definitions.active ∧ s.store.Above f m) ∨ (s'.store.Unqualified f ∧ s'.store.Lone m)

/-- What the definitions refer to is not noticed by work on the node that is visited. -/
theorem above_fallback_iff (g : s.Guards id (n :: l)) (ht : Tidy R anchor s.store)
    (hw : Within R anchor s.store s'.store) (hR : ∀ m, R m → s.store.Region n m)
    (ha : ∀ q, anchor = some q → q = n ∨ s.store.parent? n = some q)
    (hx : x ∈ s.definitions.active) (hf : x.fallback = some f) :
    s'.store.Above f m ↔ s.store.Above f m := by
  have hrefers : s.Refers f := .inr ⟨x, hx, hf⟩
  refine hw.above_iff ht (fun h => g.not_region (.inr hrefers) (hR f h)) fun q hq hup => ?_
  rcases ha q hq with rfl | hp
  · exact g.not_above hrefers hup
  · exact g.not_above hrefers (hup.trans (.of_parent? hp))

namespace Passed

/-- Nothing is visited. -/
theorem nil (ht : Tidy R anchor s.store) (hk : s.Known)
    (g : s.Guards (namespaceIdOf env.dialect) l) : Passed env R anchor l s [] s :=
  ⟨.refl ht hk, .refl _, g, fun _ => (List.append_nil _).symm, fun _ _ hb => (nomatch hb),
    fun _ _ _ _ _ => Iff.rfl, fun _ _ _ _ he => (nomatch he)⟩

/-- A node of a row is visited, and then the others. -/
theorem cons (hrow : Row R anchor p (n :: row) s)
    (h₁ : Passed env (s.store.Region n) (s.store.parent? n) (row ++ l) s log s')
    (h₂ : Passed env R anchor l s' log' s'') (hlone : ∀ m, s'.store.Lone m → s''.store.Lone m) :
    Passed env R anchor l s (log ++ log') s'' := by
  have hn := hrow.mem n List.mem_cons_self
  have hactive := h₁.settled.agrees.active
  have htag := h₂.settled.within.confined.tag?
  refine ⟨((h₁.settled.inner hrow.tidy hn).trans h₂.settled).mono (fun h => h.elim),
    (h₁.verbatim.mono fun m _ => hrow.tidy.region_le hn).trans h₂.verbatim, h₂.guards, fun z => ?_,
    fun z b hb => ?_, fun x f m hx hf => ?_, fun e x f m he hx hf hm => ?_⟩
  · rw [h₂.bodies, h₁.bodies, reached_append, List.append_assoc]
  · rw [reached_append] at hb
    rcases List.mem_append.mp hb with hb | hb
    · have hnamed := h₁.named z b hb
      exact (isNamed_kept (Store.has_of_isElement (isElement_of_isNamed hnamed)) (htag b)).trans
        hnamed
    · exact h₂.named z b hb
  · rw [h₂.aside x f m (hactive ▸ hx) hf, h₁.aside x f m hx hf]
  · rcases List.mem_append.mp he with he | he
    · exact (h₁.fallbacks e x f m he hx hf hm).imp_right fun h => ⟨h.1.mono htag, hlone m h.2⟩
    · exact (h₂.fallbacks e x f m he hx hf hm).imp_left fun h =>
        ⟨hactive ▸ h.1, (h₁.aside x f m (hactive ▸ h.1) hf).mp h.2⟩

end Passed

/-! ### Visits -/

/-- Visiting a node, down to a depth, leaves behind what it should. -/
def Passes (env : Stage.Environment) (depth : Nat) : Prop :=
  ∀ ⦃n l s log u⦄, Sound n s → s.Guards (namespaceIdOf env.dialect) (n :: l) →
    (Stage.manipulation env).logging.traverse depth n (s, log) = some (.ok (), u) →
    ∃ new, u.2 = log ++ new ∧ Passed env (s.store.Region n) (s.store.parent? n) l s new u.1

/-- **Siblings are visited one after the other.** Those that were taken apart on the way stay so. -/
theorem Row.passes (h : Passes env depth) (hrow : Row R anchor p row s)
    (g : s.Guards (namespaceIdOf env.dialect) (row ++ l)) {u : Session × List (Call × Session)}
    (hrun : (Stage.manipulation env).logging.traverseAll depth row (s, log) = some (.ok (), u)) :
    ∃ new, u.2 = log ++ new ∧ Passed env R anchor l s new u.1 ∧
      ∀ m, s.store.Lone m → u.1.store.Lone m := by
  induction row generalizing s log with
  | nil =>
    cases hrun
    exact ⟨[], (List.append_nil _).symm, .nil hrow.tidy hrow.known g, fun _ hm => hm⟩
  | cons n row ih =>
    rw [Visitor.traverseAll_cons] at hrun
    obtain ⟨⟨r, s₁, log₁⟩, hfirst, hrest⟩ := Option.bind_eq_some_iff.mp hrun
    cases r with
    | error e => cases hrest
    | ok _ =>
      obtain ⟨new₁, hlog₁, h₁⟩ := h (hrow.sound List.mem_cons_self) g hfirst
      obtain ⟨new₂, hlog₂, h₂, hlone⟩ := ih (hrow.tail h₁.settled).1 h₁.guards hrest
      have hnp := hrow.parent? n List.mem_cons_self
      -- what stands nowhere is no sibling, and none has its place below it
      have hlone₁ : ∀ m, s.store.Lone m → s₁.store.Lone m := fun m hm => by
        refine hm.within (hrow.tidy.wellFormed.tidy_region hrow.tidy.owned n)
          h₁.settled.within ?_ ?_
        · rintro (hup | hnew)
          · rcases Store.above_iff.mp hup with rfl | ⟨q, hq, -⟩
            · rw [hm.parent?] at hnp
              cases hnp
            · rw [hm.parent?] at hq
              cases hq
          · exact hnew hm.has
        · intro hnm
          have hmem := hrow.tidy.wellFormed.mem_children.mpr hnm
          rw [hm.children] at hmem
          cases hmem
      have hlog₁ : log₁ = log ++ new₁ := hlog₁
      exact ⟨new₁ ++ new₂, by rw [hlog₂, hlog₁, List.append_assoc], .cons hrow h₁ h₂ hlone,
        fun m hm => hlone m (hlone₁ m hm)⟩

/-- A node was entered, what it asked for was visited, and it was left. -/
theorem Passed.around {s₁ s₂ s₃ : Session} (g : s.Guards (namespaceIdOf env.dialect) (n :: l))
    (hin : ∀ x f m, x ∈ s.definitions.active → x.fallback = some f →
      (s₁.store.Above f m ↔ s.store.Above f m))
    (h : Passed env R anchor l s₁ log s₂) (hclose : s₂.Closes s₃)
    (hset : Settled (s.store.Region n) (s.store.parent? n) False s s₃)
    (hver : Verbatim (s.store.Region n) s.store s₃.store)
    (hbodies : ∀ z, s₃.definitions.bodiesOf z = s.definitions.bodiesOf z ++
      (reached env.dialect z [(.enter n, s₁)] ++ reached env.dialect z log)) :
    Passed env (s.store.Region n) (s.store.parent? n) l s
      ((.enter n, s₁) :: (log ++ [(.leave n, s₃)])) s₃ := by
  obtain ⟨g₃, hreleases⟩ := h.guards.closes hclose
  obtain ⟨ended, hended, -, hstore, -⟩ := hclose
  have htag := hreleases.tag?
  have hw := hset.within
  have ht := g.wellFormed.tidy_region g.owned n
  obtain ⟨hlone, hgone⟩ := h.guards.lone_of_ended hended hstore
  have haside : ∀ x f m, x ∈ s.definitions.active → x.fallback = some f →
      (s₃.store.Above f m ↔ s.store.Above f m) := fun x f m hx hf =>
    above_fallback_iff g ht hw (fun _ hR => hR) (fun _ => .inr) hx hf
  -- what was under way after the node was entered was under way before, or ends when it is left
  have hbegan : ∀ x f m, x ∈ s₁.definitions.active → x.fallback = some f → s₁.store.Above f m →
      (x ∈ s.definitions.active ∧ s.store.Above f m) ∨
      (s₃.store.Unqualified f ∧ s₃.store.Lone m) := by
    intro x f m hx hf hm
    have hx₂ : x ∈ s₂.definitions.active := h.settled.agrees.active ▸ hx
    have hcases := hx₂
    rw [hended, hset.agrees.active] at hcases
    rcases List.mem_append.mp hcases with hx' | hx'
    · refine .inr ⟨(h.guards.fallbacks x f hx₂ hf).2.1.mono htag, ?_⟩
      exact hgone x hx' f hf m ((h.aside x f m hx hf).mpr hm)
    · exact .inl ⟨hx', (hin x f m hx' hf).mp hm⟩
  have hlog : ∀ z, reached env.dialect z ((.enter n, s₁) :: (log ++ [(.leave n, s₃)])) =
      reached env.dialect z [(.enter n, s₁)] ++ reached env.dialect z log := fun z => by
    rw [← List.singleton_append, reached_append, reached_append, reached_leave, List.append_nil]
  refine ⟨hset, hver, g₃, fun z => by rw [hbodies, hlog], fun z b hb => ?_, haside,
    fun e x f m he hx hf hm => ?_⟩
  · rw [hlog] at hb
    have hkept : ∀ {t : Session},
        (∀ m tag, t.store.tag? m = some tag → s₃.store.tag? m = some tag) →
        isNamed t.store b (namespaceIdOf env.dialect) ["macro"] →
        isNamed s₃.store b (namespaceIdOf env.dialect) ["macro"] := fun htag hnamed =>
      (isNamed_kept (Store.has_of_isElement (isElement_of_isNamed hnamed)) (htag b)).trans hnamed
    rcases List.mem_append.mp hb with hb | hb
    · rw [reached_enter] at hb
      split at hb
      · rename_i hname
        obtain rfl := List.mem_singleton.mp hb
        rw [definedName?] at hname
        split at hname
        · rename_i hnamed
          exact hkept (fun m tag hm => htag m tag (h.settled.within.confined.tag? m tag hm)) hnamed
        · cases hname
      · cases hb
    · exact hkept htag (h.named z b hb)
  · rcases List.mem_cons.mp he with rfl | he
    · exact hbegan x f m hx hf hm
    rcases List.mem_append.mp he with he | he
    · rcases h.fallbacks e x f m he hx hf hm with ⟨hx, hm⟩ | ⟨hun, hm⟩
      · exact hbegan x f m hx hf hm
      · exact .inr ⟨hun.mono htag, hlone m hm⟩
    · obtain rfl := List.mem_singleton.mp he
      have hx : x ∈ s.definitions.active := hset.agrees.active ▸ hx
      exact .inl ⟨hx, (haside x f m hx hf).mp hm⟩

/-- The nodes that an entered node asks for are its children, if any. -/
theorem Entered.row_of_asked {r : Option (List NodeId)} (h : Entered env b n s s') (hs : Sound n s)
    (hkind : s.store.kind? n ≠ some .attr) (hr : r = none ∨ r = s'.store.queue? n) :
    Row (s.store.Interior n) (some n) n (r.getD []) s' := by
  have hrow := h.row hs hkind
  rcases hr with rfl | rfl
  · exact { hrow with
      nodup := .nil
      mem := fun _ hc => (nomatch hc)
      parent? := fun _ hc => (nomatch hc) }
  · rwa [getD_queue? hrow.tidy.wellFormed]

/-- Nothing is defined by an element that is named otherwise. -/
theorem reached_enter_eq_nil (hhas : s.store.Has n)
    (htag : ∀ tag, s.store.tag? n = some tag → s'.store.tag? n = some tag)
    (hnamed : isNamed s.store n (namespaceIdOf env.dialect) ["macro"] = false) :
    reached env.dialect z [(.enter n, s')] = [] := by
  rw [reached_enter, definedName?, isNamed_kept hhas htag, hnamed]
  rfl

/-- **What entering a node adds to the table** of what does not end with the node. -/
theorem Entered.bodiesOf_reached {r : Option (List NodeId)} (h : Entered env
      (isNamed s.store n (namespaceIdOf env.dialect) ["macro"] = false) n s s') (hs : Sound n s)
    (hkind : s.store.kind? n ≠ some .attr) (henv : Fluent env)
    (g : s.Guards (namespaceIdOf env.dialect) (n :: l))
    (hman : Stage.manipulate env n s = (.ok r, s')) (z : Text) :
    (Definitions.unwind^[s'.pending n] s'.definitions).bodiesOf z =
      s.definitions.bodiesOf z ++ reached env.dialect z [(.enter n, s')] := by
  cases hnamed : isNamed s.store n (namespaceIdOf env.dialect) ["macro"] with
  | false =>
    rw [h.agrees.bodiesOf hnamed, reached_enter_eq_nil hs.has (h.within.confined.tag? n) hnamed,
      List.append_nil]
  | true =>
    obtain ⟨-, y, rfl, hname⟩ := define_reaches henv g hnamed _ _ hman
    -- no expansion begins at such an element
    have hpending : (s.defining n y).pending n = 0 := by
      rw [Session.pending, h.attributes_eq, List.countP_eq_zero]
      intro m hm
      rw [show (s.defining n y).raised m = s.raised m from rfl, hs.not_raised hkind hm]
      exact Bool.false_ne_true
    rw [hpending, Function.iterate_zero_apply, Session.bodiesOf_defining, reached_enter, hname]
    by_cases hz : z = y.1
    · rw [if_pos hz, if_pos (congrArg some hz.symm)]
    · rw [if_neg hz, if_neg fun e => hz (Option.some.inj e).symm, List.append_nil]

/-- A `load` defines nothing. -/
theorem Loaded.reached_eq_nil {r : Option (List NodeId)} {inner : List NodeId}
    (h : Loaded n s inner s') (hs : Sound n s) (henv : Fluent env)
    (g : s.Guards (namespaceIdOf env.dialect) (n :: l))
    (hman : Stage.manipulate env n s = (.ok r, s')) (z : Text) :
    reached env.dialect z [(.enter n, s')] = [] := by
  refine reached_enter_eq_nil hs.has (h.onTree.within.confined.tag? n)
    (Bool.eq_false_iff.mpr fun hnamed => ?_)
  obtain ⟨-, y, rfl, -⟩ := define_reaches henv g hnamed _ _ hman
  have hsame := congrArg (fun d => d.bodiesOf y.1) h.definitions
  simp only [Session.bodiesOf_defining, if_true, List.append_right_eq_self] at hsame
  cases hsame

/-- **An entered node is left** after what it asked for was visited. -/
theorem Entered.passes {s₁ s₂ : Session} (h : Entered env b n s s₁) (hs : Sound n s)
    (hkind : s.store.kind? n ≠ some .attr) (henv : Fluent env)
    (g : s.Guards (namespaceIdOf env.dialect) (n :: l))
    (hentry : ∀ z, (Definitions.unwind^[s₁.pending n] s₁.definitions).bodiesOf z =
      s.definitions.bodiesOf z ++ reached env.dialect z [(.enter n, s₁)])
    (hver : Verbatim (s.store.Region n) s.store s₁.store)
    (hrow : Passed env (s.store.Interior n) (some n) l s₁ log s₂) :
    (Stage.leave env .manipulation n).Yields s₂ fun _ s₃ =>
      Passed env (s.store.Region n) (s.store.parent? n) l s
        ((.enter n, s₁) :: (log ++ [(.leave n, s₃)])) s₃ := by
  intro _ s₃ hleave
  have hset := h.leave hs hkind hrow.settled _ s₃ hleave
  have hl := h.leaving hs hkind hrow.settled _ s₃ hleave
  have hdefs : s₃.definitions = Definitions.unwind^[s₁.pending n] s₂.definitions := by
    rw [hl.definitions, ← hrow.settled.pending_eq]
    rfl
  have hclose := (leave_gives henv).yields _ s₃ hleave
  have hgone : Verbatim (s.store.Interior n) s₂.store s₃.store := by
    -- the expansions that end are those that began when the node was entered
    obtain ⟨ended, hended, -, hstore, -⟩ := hclose
    refine hrow.guards.verbatim_of_ended hrow.settled.within.tidy hended hstore fun x hx f hf => ?_
    refine (h.leavable.fallback x ?_ f hf).1
    have hactive := h.agrees.active
    rw [active_iterate_unwind] at hactive
    have hbegun : s₁.definitions.active.take (s₁.pending n) ++ s.definitions.active =
        s₁.definitions.active := hactive ▸ List.take_append_drop ..
    rw [hset.agrees.active, hrow.settled.agrees.active, ← hbegun, List.append_left_inj] at hended
    exact hended ▸ hx
  refine .around g (fun x f m hx hf => ?_) hrow hclose (hset.mono fun h => h.elim)
    ((hver.trans (hrow.verbatim.mono fun _ _ hm => hm.1)).trans (hgone.mono fun _ _ hm => hm.1))
      fun z => ?_
  · exact above_fallback_iff g (g.wellFormed.tidy_interior g.owned g.has_head) h.within
      (fun _ hR => hR.1) (fun q hq => .inl (Option.some.inj hq).symm) hx hf
  · rw [hdefs, Definitions.bodiesOf_iterate_unwind_append hrow.settled.agrees.active hrow.bodies,
      hentry, List.append_assoc]
    -- definitions that were entered are no default content
    intro z c hc x hx hxc
    have hnamed := hrow.named z c hc
    have hx₂ : x ∈ s₂.definitions.active := hrow.settled.agrees.active ▸ hx
    exact (qualified_of_isNamed hnamed).not_unqualified (hrow.guards.fallbacks x c hx₂ hxc).2.1

/-- **In place of a `load`** what was loaded is visited. -/
theorem Loaded.passes {s₁ s₂ : Session} {inner : List NodeId} (h : Loaded n s inner s₁)
    (hs : Sound n s) (hkind : s.store.kind? n ≠ some .attr) (henv : Fluent env)
    (g : s.Guards (namespaceIdOf env.dialect) (n :: l))
    (hentry : ∀ z, reached env.dialect z [(.enter n, s₁)] = [])
    (hver : Verbatim (s.store.Region n) s.store s₁.store)
    (hrow : Passed env (s.store.Region n) (s.store.parent? n) l s₁ log s₂) :
    (Stage.leave env .manipulation n).Yields s₂ fun _ s₃ =>
      Passed env (s.store.Region n) (s.store.parent? n) l s
        ((.enter n, s₁) :: (log ++ [(.leave n, s₃)])) s₃ := by
  intro _ s₃ hleave
  have hset₂ := (h.settled (b := True) hs).trans hrow.settled
  have hset := leave_settled hs hkind hset₂ _ s₃ hleave
  have hclose := (leave_gives henv).yields _ s₃ hleave
  obtain ⟨hstore, hdefs⟩ := hclose.eq_of_active (hset.agrees.active.trans hset₂.agrees.active.symm)
  refine .around g (fun x f m hx hf => ?_) hrow hclose (hset.mono fun h => h.elim)
    (hstore ▸ hver.trans hrow.verbatim) fun z => ?_
  · exact above_fallback_iff g (g.wellFormed.tidy_region g.owned n) h.onTree.within (fun _ hR => hR)
      (fun _ => .inr) hx hf
  · rw [hdefs, hrow.bodies, h.definitions, hentry, List.nil_append]

/-- **Visiting a node**, whatever comes of it. -/
theorem passes (henv : Fluent env) (depth : Nat) : Passes env depth := by
  induction depth with
  | zero =>
    intro n l s log u hs g hrun
    cases hrun
  | succ depth ih =>
    intro n l s log u hs g hrun
    rw [Visitor.traverse_succ,
      if_neg (by simp [Visitor.skips, Visitor.logging, Stage.manipulation])] at hrun
    rcases hvisit : (Stage.manipulation env).logging.visit n (s, log) with ⟨e | r, s₁, log₁⟩
    · rw [hvisit] at hrun
      cases hrun
    rw [hvisit] at hrun
    obtain ⟨⟨r₂, s₂, log₂⟩, hrow, hleft⟩ := Option.bind_eq_some_iff.mp hrun
    cases r₂ with
    | error e => cases hleft
    | ok _ =>
      obtain ⟨hleave, hlog⟩ := Visitor.logging_leave_ok (Option.some.inj hleft)
      obtain ⟨hvisit, hlog₁⟩ := Visitor.logging_visit_ok hvisit
      obtain ⟨hkind, hman⟩ := visit_ok hvisit
      have g₁ := (manipulate_guards henv.toSpoken g _ _ hman).1
      have hver := ((manipulate_ends henv g).yields _ _ hman).verbatim
      -- what is written down about the visit
      have hfinish : ∀ {R anchor q}, Row R anchor q (r.getD []) s₁ →
          (∀ {new}, Passed env R anchor l s₁ new s₂ →
            Passed env (s.store.Region n) (s.store.parent? n) l s
              ((.enter n, s₁) :: (new ++ [(.leave n, u.1)])) u.1) →
          ∃ new, u.2 = log ++ new ∧
          Passed env (s.store.Region n) (s.store.parent? n) l s new u.1 := by
        intro R anchor q hsiblings hpassed
        obtain ⟨new, hnew, hp, -⟩ := hsiblings.passes ih g₁ hrow
        refine ⟨_, ?_, hpassed hp⟩
        dsimp only at hlog hlog₁ hnew
        rw [hlog, hnew, hlog₁]
        simp
      rcases manipulate_enters henv.toSpoken hs hkind _ _ hman with ⟨hent, hr⟩ | ⟨-, hload⟩
      · refine hfinish (hent.row_of_asked hs hkind hr) fun hp => ?_
        exact hent.passes hs hkind henv g (hent.bodiesOf_reached hs hkind henv g hman)
          hver hp _ _ hleave
      · obtain ⟨q, hsiblings⟩ := hload.exists_row hs
        refine hfinish hsiblings fun hp => ?_
        exact hload.passes hs hkind henv g (hload.reached_eq_nil hs henv g hman) hver hp _ _ hleave

end Language

/-! ### The stage -/

namespace Session

variable {s : Session} {id : Int} {n : NodeId}

/-- No expansion is under way, and nobody has asked to be called again. -/
structure AtRest (s : Session) : Prop where
  active : s.definitions.active = []
  uses : s.definitions.uses = []
  raised (n : NodeId) : s.raised n = false

/-- The stage that changes the tree can begin at a node: nothing is under way, and definitions are
apart from what is below the node. -/
structure Prepared (id : Int) (n : NodeId) (s : Session) : Prop where
  guards : s.Guards id [n]
  rest : s.AtRest

theorem AtRest.balanced (h : s.AtRest) : s.Balanced :=
  ⟨by rw [h.uses, h.active]; rfl, h.uses ▸ List.nodup_nil⟩

theorem Prepared.sound (h : s.Prepared id n) : Language.Sound n s where
  wellFormed := h.guards.wellFormed
  owned := h.guards.owned
  has := h.guards.has n List.mem_cons_self
  known z b hb := (h.guards.bodies z b hb).1.has
  quiet m hm := absurd (h.rest.raised m) (by rw [hm]; exact Bool.noConfusion)

end Session

namespace Language

variable {env : Stage.Environment} {s s' : Session} {n : NodeId} {steps : Nat}

/-- **A run of the stage** is the visit to its node. -/
theorem run_passes (henv : Fluent env) (hs : s.Prepared (namespaceIdOf env.dialect) n)
    (h : Stage.run env .manipulation steps n s = some (.ok (), s')) :
    ∃ s₁ log, (Stage.manipulation env).logging.walk steps (some n) ((start n s).state, []) =
        some (.ok (), s₁, log) ∧
      s' = { s₁ with trace := .finish StageKind.manipulation.name :: s₁.trace } ∧
      Passed env (s.store.Region n) (s.store.parent? n) [] s log s' := by
  rw [Stage.run] at h
  split at h
  · cases h
  rename_i s₁ hrun
  cases h
  obtain ⟨⟨r, s₁, log⟩, hlog, heq⟩ := Option.map_eq_some_iff.mp
    ((Visitor.logging_covers.loop ((start n s).state, [])).trans hrun)
  cases heq
  have hwalk : (Stage.manipulation env).logging.walk steps (some n) ((start n s).state, []) =
      some (.ok (), s₁, log) := hlog
  obtain ⟨depth, hvisit⟩ := Visitor.exists_walk_iff_exists_traverse.mp ⟨steps, hwalk⟩
  have hsound := hs.sound
  obtain ⟨new, hnew, hp⟩ := passes henv depth (s := (start n s).state) (l := [])
    ⟨hsound.wellFormed, hsound.owned, hsound.has, hsound.known, hsound.quiet⟩
    (hs.guards.congr rfl rfl) hvisit
  rw [List.nil_append] at hnew
  subst hnew
  exact ⟨s₁, log, hwalk, rfl,
    ⟨hp.settled.within, hp.settled.agrees, hp.settled.known, hp.settled.raised⟩, hp.verbatim,
    hp.guards.congr rfl rfl, hp.bodies, hp.named, hp.aside, hp.fallbacks⟩

theorem run_atRest (henv : Fluent env) (hs : s.Prepared (namespaceIdOf env.dialect) n)
    (h : Stage.run env .manipulation steps n s = some (.ok (), s')) : s'.AtRest := by
  obtain ⟨_, _, -, -, hp⟩ := run_passes henv hs h
  exact ⟨hp.settled.agrees.active.trans hs.rest.active, hp.settled.agrees.uses.trans hs.rest.uses,
    fun m => (hp.settled.raised m).trans (hs.rest.raised m)⟩

end Language

end Stencil
