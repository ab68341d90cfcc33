import Stencil.Proofs.Language.Frames

/-!
# Default content and the definitions behind it

While a use is under way, what stood at its place serves as a definition of the name as well. When
the expansion begins it is the last one. Nothing keeps it there: the content that is expanded may
define the same name, and such a definition is added behind it. So in the table of the name the
default content stands between the definitions from before the expansion and those that were entered
since (`Language.Trails`), and remains there until the expansion ends. It is the last one as long as
none was entered.

Of the expansions under way, at most one of a name has default content (`Session.Orderly.single`),
because a name that is in use cannot be used again. Whatever begins or ends besides it adds nothing
to the table of the name and takes nothing away. The rest is an induction on the steps of the walk.

## Main definitions

* `Session.Orderly` – uses are of different names, and only uses have default content
* `Language.Stacked`, `Language.Gains` – what entering a node makes of the expansions and the table
* `Language.Trails` – where default content stands

## Main results

* `Language.manipulate_gains` – entering a node
* `Language.Tracked.enter`, `Language.Tracked.leave` – what one call of a handler preserves
* `Language.tracked_of_steps` – every state of a walk
-/

namespace Stencil

open Relation (ReflTransGen)
open Stencil.Tree (NodeId Store Visitor Walk Call)

/-! ### Walks that keep more -/

namespace Tree

variable {ε σ τ : Type} {v : Visitor ε σ} {v' : Visitor ε τ} {π : τ → σ} {w : Walk τ} {w' : Walk σ}

/-- The same place of a walk, with another state. -/
def Walk.map (π : τ → σ) (w : Walk τ) : Walk σ := ⟨w.queue, w.stack, π w.state⟩

namespace Visitor

theorem map_resume (queue : List NodeId) (stack : List (NodeId × List NodeId))
    (r : Except ε Unit × τ) :
    (resume queue stack r).map (Prod.map id π) (Walk.map π) = resume queue stack (r.map id π) := by
  rcases r with ⟨e | _, u⟩ <;> rfl

/-- What is kept in addition makes no difference to a step. -/
theorem Covers.step (h : v'.Covers π v) (w : Walk τ) :
    (v'.step w).map (Prod.map id π) (Walk.map π) = v.step (w.map π) := by
  obtain ⟨queue, stack, u⟩ := w
  cases queue with
  | nil =>
    cases stack with
    | nil => rfl
    | cons top stack => exact (map_resume _ _ _).trans (congrArg _ (h.leave top.1 u))
  | cons n queue =>
    rw [Walk.map, Visitor.step, Visitor.step, h.skips]
    split
    · rfl
    · rw [← h.visit]
      rcases v'.visit n u with ⟨e | _ | inner, u'⟩
      · rfl
      · exact (map_resume _ _ _).trans (congrArg _ (h.leave n u'))
      · rfl

/-- Every state of a walk is one of the walk that keeps more. -/
theorem Covers.exists_steps (h : v'.Covers π v)
    (hsteps : ReflTransGen (fun w w' => v.step w = .inr w') (w.map π) w') :
    ∃ u, ReflTransGen (fun w w' => v'.step w = .inr w') w u ∧ u.map π = w' := by
  induction hsteps with
  | refl => exact ⟨w, .refl, rfl⟩
  | tail _ hstep ih =>
    obtain ⟨u, hu, rfl⟩ := ih
    rw [← h.step] at hstep
    cases hnext : v'.step u with
    | inl r =>
      rw [hnext] at hstep
      cases hstep
    | inr u' =>
      rw [hnext] at hstep
      exact ⟨u', hu.tail hnext, Sum.inr.inj hstep⟩

end Visitor

end Tree

variable {env : Stage.Environment} {d : Dialect} {s s' s'' : Session} {id : Int} {n a f : NodeId}
  {l : List NodeId} {x : Expansion} {z name : Text} {log later : List (Call × Session)}
    {ignore : Bool}

/-! ### One default content for each name -/

namespace Definitions

variable {t : Definitions} {new ended rest : List Expansion}

/-- Expansions that have default content are of different names. -/
def Single (active : List Expansion) : Prop :=
  active.Pairwise fun x y => x.fallback ≠ none → y.fallback ≠ none → x.name ≠ y.name

theorem active_foldr_push : (new.foldr push t).active = new ++ t.active := by
  induction new with
  | nil => rfl
  | cons x new ih => rw [List.foldr_cons, active_push, ih, List.cons_append]

/-- Expansions without default content of a name add no definition of it. -/
theorem bodiesOf_foldr_push (h : ∀ y ∈ new, y.name = z → y.fallback = none) :
    (new.foldr push t).bodiesOf z = t.bodiesOf z := by
  induction new with
  | nil => rfl
  | cons x new ih =>
    rw [List.forall_mem_cons] at h
    rw [List.foldr_cons, bodiesOf_push, ih h.2]
    split
    · rename_i hz
      rw [h.1 hz.symm]
      exact List.append_nil _
    · rfl

/-- They take none away when they end. -/
theorem bodiesOf_iterate_unwind (hactive : t.active = ended ++ rest)
    (h : ∀ y ∈ ended, y.name = z → y.fallback = none) :
    (unwind^[ended.length] t).bodiesOf z = t.bodiesOf z := by
  induction ended generalizing t with
  | nil => rfl
  | cons x ended ih =>
    rw [List.forall_mem_cons] at h
    obtain ⟨hrest, -, hbodies⟩ := unwind_of_active hactive
    rw [List.length_cons, Function.iterate_succ_apply, ih hrest h.2, hbodies]
    split
    · rename_i hz
      rw [h.1 hz.symm]
      exact List.filter_eq_self.mpr fun _ _ => rfl
    · rfl

/-- Around default content of a name there is no other. -/
theorem Single.fallback_eq_none {l₁ l₂ : List Expansion} (h : Single (l₁ ++ l₂)) (hx : x ∈ l₂)
    (hf : x.fallback = some f) (y : Expansion) (hy : y ∈ l₁) (hname : y.name = x.name) :
    y.fallback = none := by
  by_contra hne
  exact (List.pairwise_append.mp h).2.2 y hy x hx hne (by simp [hf]) hname

theorem Single.fallback_eq {active : List Expansion} {b : NodeId}
    {y : Expansion} (h : Single active)
    (hx : x ∈ active) (hf : x.fallback = some f) (hy : y ∈ active) (hb : y.fallback = some b)
    (hname : y.name = x.name) : b = f := by
  obtain ⟨l₁, l₂, rfl⟩ := List.append_of_mem hx
  rcases List.mem_append.mp hy with hy | hy
  · have hnone := h.fallback_eq_none List.mem_cons_self hf y hy hname
    rw [hb] at hnone
    cases hnone
  rcases List.mem_cons.mp hy with rfl | hy
  · exact Option.some.inj (hb.symm.trans hf)
  · have hpair := (List.pairwise_append.mp h).2.1
    exact absurd hname.symm ((List.pairwise_cons.mp hpair).1 y hy (by simp [hf]) (by simp [hb]))

/-- A use begins with the first definition of its name. Asking for a further one goes on from the
expansion around it, and nothing stands at its place as default content. -/
def Linked : List Expansion → Prop
  | [] => True
  | x :: outer => Linked outer ∧ if x.nested then
      x.fallback = none ∧ ∃ y ∈ outer.head?, x.name = y.name ∧ x.index = y.index + 1
    else x.index = 0

theorem Linked.of_append {inner outer : List Expansion} (h : Linked (inner ++ outer)) :
    Linked outer := by
  induction inner with
  | nil => exact h
  | cons y inner ih => exact ih h.1

theorem Linked.fallback_eq_none {active : List Expansion} (h : Linked active) (hx : x ∈ active)
    (hnested : x.nested) : x.fallback = none := by
  obtain ⟨inner, outer, rfl⟩ := List.append_of_mem hx
  have hlinked := h.of_append.2
  rw [if_pos hnested] at hlinked
  exact hlinked.1

/-- The innermost expansion tells how many have been asked for, one within the other, since the
use. -/
theorem Linked.exists_head? {chain outer : List Expansion} (h : Linked (chain ++ x :: outer))
    (huse : x.nested = false) (hchain : ∀ y ∈ chain, y.nested) :
    ∃ y ∈ (chain ++ x :: outer).head?, y.name = x.name ∧ y.index = chain.length := by
  induction chain with
  | nil =>
    have hindex := h.2
    rw [huse, if_neg Bool.false_ne_true] at hindex
    exact ⟨x, rfl, rfl, hindex⟩
  | cons y chain ih =>
    rw [List.forall_mem_cons] at hchain
    have hlinked := h.2
    rw [if_pos hchain.1] at hlinked
    obtain ⟨-, next, hnext, hname, hindex⟩ := hlinked
    obtain ⟨next', hnext', hname', hindex'⟩ := ih h.1 hchain.2
    obtain rfl := Option.mem_unique hnext hnext'
    exact ⟨y, rfl, hname.trans hname', by rw [hindex, hindex', List.length_cons]⟩

end Definitions

namespace Session

open Definitions (Single Linked)

/-- Uses are of different names, and begin with the first definition; whoever asks for a further one
gets the next. -/
structure Orderly (s : Session) : Prop where
  balanced : s.Balanced
  linked : Linked s.definitions.active

theorem Orderly.single (h : s.Orderly) : Single s.definitions.active := by
  have hnodup := h.balanced.nodup
  rw [h.balanced.uses, List.Nodup, List.pairwise_map, List.pairwise_filter] at hnodup
  refine hnodup.imp_of_mem fun hx hy hxy hfx hfy => ?_
  have huse {x : Expansion} (hx : x ∈ s.definitions.active) (hf : x.fallback ≠ none) :
      (!x.nested) = true := by
    rw [Bool.not_eq_true']
    exact Bool.eq_false_iff.mpr fun hn => hf (h.linked.fallback_eq_none hx hn)
  exact hxy (huse hx hfx) (huse hy hfy)

theorem Orderly.nested_eq_false (h : s.Orderly) (hx : x ∈ s.definitions.active)
    (hf : x.fallback = some f) : x.nested = false := by
  refine Bool.eq_false_iff.mpr fun hn => ?_
  rw [h.linked.fallback_eq_none hx hn] at hf
  cases hf

theorem AtRest.orderly (h : s.AtRest) : s.Orderly :=
  ⟨h.balanced, by rw [h.active]; trivial⟩

end Session

namespace Language

open Definitions (Single Linked)
open Stencil.Tree.Store (Tidy)

/-! ### Entering a node -/

/-- Expansions have begun, the last of them first, each as it should. Their default content is
new. -/
def Stacked (s s' : Session) : Prop :=
  ∃ new : List Expansion, s'.definitions = new.foldr Definitions.push s.definitions ∧
    (Linked s.definitions.active → Linked s'.definitions.active) ∧
    ∀ x ∈ new, ∀ f, x.fallback = some f → ¬ s.store.Has f

theorem Stacked.of_eq (h : s'.definitions = s.definitions) : Stacked s s' :=
  ⟨[], h, fun hl => h ▸ hl, fun _ hx => absurd hx List.not_mem_nil⟩

theorem Stacked.trans (hhas : ∀ m, s.store.Has m → s'.store.Has m) (h : Stacked s s')
    (h' : Stacked s' s'') : Stacked s s'' := by
  obtain ⟨new, hdefs, hlinked, hnew⟩ := h
  obtain ⟨new', hdefs', hlinked', hnew'⟩ := h'
  refine ⟨new' ++ new, by rw [List.foldr_append, ← hdefs, hdefs'],
    hlinked' ∘ hlinked, fun x hx => ?_⟩
  rcases List.mem_append.mp hx with hx | hx
  · exact fun f hf hm => hnew' x hx f hf (hhas f hm)
  · exact hnew x hx

theorem Stacked.congr (h : Stacked s s') (hdefs : s''.definitions = s'.definitions) :
    Stacked s s'' := by
  obtain ⟨new, hnew, hlinked, hall⟩ := h
  exact ⟨new, hdefs.trans hnew, fun hl => hdefs ▸ hlinked hl, hall⟩

/-- One expansion has begun. -/
theorem Stacked.of_push (h : s'.definitions = s.definitions.push x)
    (hlinked : Linked s.definitions.active → Linked (x :: s.definitions.active))
    (hf : ∀ f, x.fallback = some f → ¬ s.store.Has f) : Stacked s s' := by
  refine ⟨[x], h, fun hl => ?_, fun y hy => ?_⟩
  · rw [h, Definitions.active_push]
    exact hlinked hl
  · obtain rfl := List.mem_singleton.mp hy
    exact hf

theorem expand_stacks (g : s.Guards id (n :: l)) (hn : s.store.isElement n) :
    (expand n name ignore).Yields s fun _ s' => Stacked s s' := by
  have ht := g.wellFormed.tidy_interior g.owned g.has_head
  refine (expand_yields ht hn (fun m => interior_of_parent? g.wellFormed) (.inr rfl)).imp
    fun used s' hs' => ?_
  split at hs'
  · obtain ⟨⟨x, hx, ⟨huse, hindex⟩, -⟩, -⟩ := hs'
    refine .of_push hx.definitions (fun hl => ⟨hl, ?_⟩) fun f hf => (hx.fallback f hf).1
    rw [huse, if_neg Bool.false_ne_true]
    exact hindex
  · exact .of_eq (congrArg Session.definitions hs')

theorem useElement_stacks (g : s.Guards id (n :: l)) (hn : s.store.isElement n) :
    (useElement d n).Yields s fun _ s' => Stacked s s' := by
  refine .bind (Work.extract_yields fun attrs => .bind
    ((expand_stacks g hn).imp fun used s₁ hs₁ => ?_))
  split
  · exact .bind (Work.requestReturn_yields (.bind (Work.setProperty_yields
      (Work.enqueueChildren_yields (hs₁.congr (by simp))))))
  · exact Work.enqueueChildren_yields hs₁

theorem useAttribute_stacks (g : s.Guards id (n :: l)) (hn : s.store.isElement n) :
    (useAttribute n a).Yields s fun _ s' => Stacked s s' := by
  refine .bind (Work.store_yields ?_)
  dsimp only
  split
  · exact Work.fail_yields
  split
  · exact Work.fail_yields
  refine .bind ((expand_stacks g hn).imp fun used s₁ hs₁ => ?_)
  split
  · exact .bind (Work.requestReturn_yields (Work.setProperty_yields (hs₁.congr (by simp))))
  · exact .pure hs₁

theorem expandParent_stacks (g : s.Guards id (n :: l)) (hn : s.store.isElement n) :
    (expandParent n).Yields s fun _ s' => Stacked s s' := by
  cases hactive : s.definitions.active with
  | nil =>
    refine .bind (.get ?_)
    simp only [hactive]
    exact .pure (.of_eq rfl)
  | cons top rest =>
    cases hnext : (s.definitions.bodiesOf top.name)[top.index + 1]? with
    | none =>
      refine .bind (.get ?_)
      simp only [hactive, hnext]
      exact .pure (.of_eq rfl)
    | some b =>
      have hb : s.Refers b := .inl ⟨top.name, List.mem_of_getElem? hnext⟩
      obtain ⟨body, hbody⟩ := g.exists_defines hb
      obtain ⟨c, hc⟩ := g.wellFormed.exists_holds n
      refine (expandParent_gives g.wellFormed g.owned g.labelled hn
        (Store.holds_iff.mp hc).2.2 hactive hnext hbody (g.not_above hb)).yields.imp fun r s' hs' =>
          ?_
      refine .of_push hs'.2.definitions (fun hl => ⟨hl, ?_⟩) fun f hf => by cases hf
      rw [if_pos rfl, hactive]
      exact ⟨rfl, top, rfl, rfl, rfl⟩

section Hooks

variable {data : Tree.ElementData}

theorem definitionElement_stacks (g : s.Guards id (n :: l)) (hdata : s.store.element? n = some data)
    (hid : data.uri = some id) (hnamed : isNamed s.store n id ["macro"] = false) :
    ((definitionElement d).enter n).Yields s fun _ s' => Stacked s s' := by
  have hn : s.store.isElement n := by rw [Store.isElement, hdata]; rfl
  refine .bind (Work.store_yields ?_)
  dsimp only
  rw [nameOf_eq hdata]
  split
  · rename_i hname
    simp [isNamed, hdata, hid, hname] at hnamed
  split
  · exact useElement_stacks g hn
  split
  · exact expandParent_stacks g hn
  · exact .pure (.of_eq rfl)

theorem templateElement_stacks (g : s.Guards id (n :: l)) :
    ((templateElement d).enter n).Yields s fun _ s' => Stacked s s' := by
  refine .bind (Work.store_yields ?_)
  split
  · refine (load_handles g.wellFormed g.owned g.labelled).imp fun _ s' hs' => ?_
    obtain ⟨t, rfl, -⟩ := hs'.onTree
    exact .of_eq rfl
  · exact Work.enqueueChildren_yields (.of_eq rfl)

end Hooks

theorem offerAttributes_stacks (henv : Spoken env) (g : s.Guards id (n :: l))
    (hn : s.store.isElement n) :
    (Stage.offerAttributes env n).Yields s fun _ s' => Stacked s s' := by
  refine .bind (Work.store_yields ?_)
  refine (Action.Yields.forM (I := fun _ s' => Stacked s s' ∧
    (s'.Guards id (n :: l) ∧ s.Retains s') ∧ s'.store.isElement n) (fun a _ s₁ hI => ?_) _
      ⟨.of_eq rfl, ⟨g, .refl s⟩, hn⟩).imp
    fun _ _ hs' => hs'.1
  obtain ⟨hs₁, ⟨g₁, hkept⟩, hn₁⟩ := hI
  refine .bind (attributeHooks?_gives ?_).yields
  split
  · rename_i hooks hhooks
    obtain ⟨x, -, hhooks⟩ := Option.bind_eq_some_iff.mp hhooks
    obtain rfl := henv.attributes x.uri x.name hooks hhooks
    refine Work.atNode_yields fun r s₂ hs₂ => ?_
    obtain ⟨g₂, hkept₂⟩ := useAttribute_guards g₁ hn₁ r s₂ hs₂
    obtain ⟨tag, htag⟩ := Store.isElement_iff_tag?.mp hn₁
    have hhas : ∀ m, s.store.Has m → s₁.store.Has m := fun m hm => by
      obtain ⟨tag, htag⟩ := hm.exists_tag?
      exact Store.has_of_tag? (hkept.tag? m tag htag)
    exact ⟨hs₁.trans hhas (useAttribute_stacks g₁ hn₁ r s₂ hs₂), ⟨g₂, hkept.trans hkept₂⟩,
      Store.isElement_iff_tag?.mpr ⟨tag, hkept₂.tag? n _ htag⟩⟩
  · exact .pure ⟨hs₁, ⟨g₁, hkept⟩, hn₁⟩

/-- **Entering a node** that defines nothing begins expansions, if it does anything to the table. -/
theorem manipulate_stacks (henv : Spoken env) (g : s.Guards (namespaceIdOf env.dialect) (n :: l))
    (hnamed : isNamed s.store n (namespaceIdOf env.dialect) ["macro"] = false) :
    (Stage.manipulate env n).Yields s fun _ s' => Stacked s s' := by
  refine .bind (Work.store_yields ?_)
  split
  · exact Work.enqueueChildren_yields (.of_eq rfl)
  · rename_i data hpay
    have hdata : s.store.element? n = some data := by rw [Store.element?, hpay]
    split
    · refine .bind (elementHooks?_gives ?_).yields
      split
      · exact .pure (.of_eq rfl)
      · rename_i hooks hhooks
        rw [hdata, Option.bind_some] at hhooks
        refine Work.atNode_yields ?_
        obtain ⟨hid, rfl | rfl | rfl⟩ := henv.elements data.uri data.name hooks hhooks
        · exact definitionElement_stacks g hdata hid hnamed
        · exact templateElement_stacks g
        · exact Work.enqueueChildren_yields (.of_eq rfl)
    · have hn : s.store.isElement n := by rw [Store.isElement, hdata]; rfl
      exact .bind ((offerAttributes_stacks henv g hn).imp
        fun _ s₁ hs₁ => Work.enqueueChildren_yields hs₁)
  · exact .pure (.of_eq rfl)

/-- What entering a node makes of the expansions and the table. -/
structure Gains (d : Dialect) (n : NodeId) (new : List Expansion) (s s' : Session) : Prop where
  active : s'.definitions.active = new ++ s.definitions.active
  bodiesOf (z : Text) : s'.definitions.bodiesOf z =
    (new.foldr Definitions.push s.definitions).bodiesOf z ++ reached d z [(.enter n, s')]
  linked : Linked s.definitions.active → Linked s'.definitions.active
  fresh (x : Expansion) (f : NodeId) : x ∈ new → x.fallback = some f → ¬ s.store.Has f
  /-- What defines something begins nothing. -/
  reached (z : Text) : new ≠ [] → reached d z [(.enter n, s')] = []

/-- **Entering a node** begins expansions, or adds one definition. -/
theorem manipulate_gains (henv : Fluent env) (g : s.Guards (namespaceIdOf env.dialect) (n :: l))
    {r : Option (List NodeId)} (h : Stage.manipulate env n s = (.ok r, s')) :
    ∃ new, Gains env.dialect n new s s' := by
  cases hnamed : isNamed s.store n (namespaceIdOf env.dialect) ["macro"] with
  | true =>
    obtain ⟨-, y, rfl, hname⟩ := define_reaches henv g hnamed _ _ h
    have hactive : (s.defining n y).definitions.active = s.definitions.active := by
      rw [Session.defining]
      dsimp only
      split <;> rfl
    refine ⟨[], hactive, fun z => ?_, fun hl => hactive ▸ hl,
      fun _ _ hx => absurd hx List.not_mem_nil, fun _ hne => absurd rfl hne⟩
    · rw [List.foldr_nil, Session.bodiesOf_defining, reached_enter, hname]
      by_cases hz : z = y.1
      · rw [if_pos hz, if_pos (congrArg some hz.symm)]
      · rw [if_neg hz, if_neg fun e => hz (Option.some.inj e).symm, List.append_nil]
  | false =>
    obtain ⟨new, hdefs, hlinked, hnew⟩ := manipulate_stacks henv.toSpoken g hnamed _ _ h
    have hkept := (manipulate_guards henv.toSpoken g _ _ h).2
    have hnone (z : Text) : reached env.dialect z [(.enter n, s')] = [] :=
      reached_enter_eq_nil g.has_head (hkept.tag? n) hnamed
    refine ⟨new, ?_, fun z => ?_, hlinked, fun x f hx => hnew x hx f, fun z _ => hnone z⟩
    · rw [hdefs, Definitions.active_foldr_push]
    · rw [hdefs, hnone, List.append_nil]

/-! ### Where default content stands -/

/-- The default content `f` of an expansion stands in the table of its name between the definitions
from before the expansion and those that were entered since. -/
structure Trails (d : Dialect) (log : List (Call × Session)) (s : Session)
    (x : Expansion) (f : NodeId)
    (before : List NodeId) (later : List (Call × Session)) : Prop where
  /-- It was the last one when the expansion began. -/
  began : ∃ earlier n s₁, log = earlier ++ (.enter n, s₁) :: later ∧ x ∈ s₁.definitions.active ∧
    s₁.definitions.bodiesOf x.name = before ++ [f]
  /-- The expansion is under way since. -/
  lasts (e : Call × Session) : e ∈ later → x ∈ e.2.definitions.active
  bodiesOf : s.definitions.bodiesOf x.name = before ++ f :: reached d x.name later
  /-- It stands nowhere else. -/
  apart : f ∉ before ∧ f ∉ reached d x.name later

/-- One more call of a handler. -/
theorem Trails.snoc {before : List NodeId} {call : Call} (h : Trails d log s x f before later)
    (hx : x ∈ s'.definitions.active) (hbodies : s'.definitions.bodiesOf x.name =
      s.definitions.bodiesOf x.name ++ reached d x.name [(call, s')])
    (hf : f ∉ reached d x.name [(call, s')]) :
    Trails d (log ++ [(call, s')]) s' x f before (later ++ [(call, s')]) where
  began := by
    obtain ⟨earlier, n, s₁, rfl, hx₁, hbodies₁⟩ := h.began
    exact ⟨earlier, n, s₁, by rw [List.append_assoc, List.cons_append], hx₁, hbodies₁⟩
  lasts e he := by
    rcases List.mem_append.mp he with he | he
    · exact h.lasts e he
    · obtain rfl := List.mem_singleton.mp he
      exact hx
  bodiesOf := by rw [hbodies, h.bodiesOf, reached_append, List.append_assoc, List.cons_append]
  apart := by
    refine ⟨h.apart.1, fun hmem => ?_⟩
    rw [reached_append] at hmem
    exact (List.mem_append.mp hmem).elim h.apart.2 hf

/-- The expansions under way are in order, and their default content stands where it should. -/
structure Tracked (d : Dialect) (u : Session × List (Call × Session)) : Prop where
  orderly : u.1.Orderly
  trails (x : Expansion) (f : NodeId) : x ∈ u.1.definitions.active → x.fallback = some f →
    ∃ before later, Trails d u.2 u.1 x f before later

/-- **Entering a node.** -/
theorem Tracked.enter {r : Option (List NodeId)} (henv : Fluent env)
    (g : s.Guards (namespaceIdOf env.dialect) (n :: l)) (h : Tracked env.dialect (s, log))
    (hman : Stage.manipulate env n s = (.ok r, s')) :
    Tracked env.dialect (s', log ++ [(.enter n, s')]) := by
  obtain ⟨new, hgains⟩ := manipulate_gains henv g hman
  have horderly : s'.Orderly := by
    refine ⟨?_, hgains.linked h.orderly.linked⟩
    have hbalanced :=
      (manipulate_coincides (n := n) (f := .of .noParser) henv.toSpoken s h.orderly.balanced).2
    rwa [hman] at hbalanced
  have hsingle := horderly.single
  rw [hgains.active] at hsingle
  refine ⟨horderly, fun x f hx hf => ?_⟩
  have hx' := hx
  rw [hgains.active] at hx
  rcases List.mem_append.mp hx with hx | hx
  · -- the expansion begins, and its default content is new
    obtain ⟨inner, outer, rfl⟩ := List.append_of_mem hx
    rw [List.append_assoc] at hsingle
    have hinner := hsingle.fallback_eq_none (List.mem_cons_self) hf
    have houter : ∀ y ∈ outer, y.name = x.name → y.fallback = none := by
      intro y hy hname
      by_contra hne
      have hpair := (List.pairwise_append.mp hsingle).2.1
      exact (List.pairwise_cons.mp hpair).1 y (List.mem_append_left _ hy)
        (by simp [hf]) hne hname.symm
    have hbodies : s'.definitions.bodiesOf x.name = s.definitions.bodiesOf x.name ++ [f] := by
      rw [hgains.bodiesOf, hgains.reached _ (by simp), List.append_nil, List.foldr_append,
        Definitions.bodiesOf_foldr_push hinner, List.foldr_cons,
        Definitions.bodiesOf_push, if_pos rfl,
        Definitions.bodiesOf_foldr_push houter, hf]
      rfl
    refine ⟨s.definitions.bodiesOf x.name, [], ⟨log, n, s', rfl, hx', hbodies⟩,
      fun _ he => absurd he List.not_mem_nil, hbodies, fun hmem => ?_, List.not_mem_nil⟩
    exact hgains.fresh x f (List.mem_append_right _ List.mem_cons_self) hf
      (g.bodies x.name f hmem).1.has
  · obtain ⟨before, later, htrails⟩ := h.trails x f hx hf
    refine ⟨before, _, htrails.snoc hx' ?_ fun hmem => ?_⟩
    · rw [hgains.bodiesOf, Definitions.bodiesOf_foldr_push (hsingle.fallback_eq_none hx hf)]
    · -- what is visited is no default content
      rw [reached_enter] at hmem
      split at hmem
      · obtain rfl := List.mem_singleton.mp hmem
        exact g.fresh f List.mem_cons_self (.inr ⟨x, hx, hf⟩)
      · cases hmem

/-- **Leaving a node.** -/
theorem Tracked.leave (henv : Fluent env) (h : Tracked env.dialect (s, log))
    (hleave : Stage.leave env .manipulation n s = (.ok (), s')) :
    Tracked env.dialect (s', log ++ [(.leave n, s')]) := by
  obtain ⟨ended, hended, hdefs, -, -⟩ := (leave_gives henv).yields _ _ hleave
  have hactive (x : Expansion) (hx : x ∈ s'.definitions.active) : x ∈ s.definitions.active :=
    hended ▸ List.mem_append_right ended hx
  have hlinked := h.orderly.linked
  rw [hended] at hlinked
  refine ⟨⟨?_, hlinked.of_append⟩, fun x f hx hf => ?_⟩
  · have hbalanced :=
      (leave_coincides (n := n) (f := .of .noParser) henv.toSpoken s h.orderly.balanced).2
    rwa [hleave] at hbalanced
  · obtain ⟨before, later, htrails⟩ := h.trails x f (hactive x hx) hf
    have hsingle := h.orderly.single
    rw [hended] at hsingle
    refine ⟨before, _, htrails.snoc hx ?_ List.not_mem_nil⟩
    rw [reached_leave, List.append_nil, hdefs,
      Definitions.bodiesOf_iterate_unwind hended (hsingle.fallback_eq_none hx hf)]

/-- **One step of a walk.** -/
theorem Tracked.step {w w' : Walk (Session × List (Call × Session))} (henv : Fluent env)
    (g : w.state.1.Guards (namespaceIdOf env.dialect) (w.pending ++ l))
    (h : Tracked env.dialect w.state) (hstep : (Stage.manipulation env).logging.step w = .inr w') :
    w'.state.1.Guards (namespaceIdOf env.dialect) (w'.pending ++ l) ∧
    Tracked env.dialect w'.state := by
  have hcovered : (Stage.manipulation env).step (w.map Prod.fst) = .inr (w'.map Prod.fst) := by
    rw [← Visitor.logging_covers.step, hstep]
    rfl
  refine ⟨(manipulation_guards henv (w := w.map Prod.fst) g hcovered).1, ?_⟩
  have hlogged {call : Call} {log : List (Call × Session)} {u : Session × List (Call × Session)}
      (hu : u.2 = log ++ [(call, u.1)]) (ht : Tracked env.dialect (u.1, log ++ [(call, u.1)])) :
      Tracked env.dialect u := by
    rwa [← hu] at ht
  obtain ⟨n, u, rfl, hleave⟩ | ⟨n, rfl, -⟩ | ⟨n, queue, stack, u, rfl, hvisit, -⟩ |
    ⟨n, u, u', rfl, hvisit, hleave⟩ := Visitor.step_cases hstep
  · obtain ⟨hleave, hlog⟩ := Visitor.logging_leave_ok hleave
    exact hlogged hlog (Tracked.leave henv h hleave)
  · exact h
  · obtain ⟨hvisit, hlog⟩ := Visitor.logging_visit_ok hvisit
    exact hlogged hlog (Tracked.enter henv g h (Visitor.enter_of_visit hvisit))
  · obtain ⟨hvisit, hlog⟩ := Visitor.logging_visit_ok hvisit
    obtain ⟨hleave, hlog'⟩ := Visitor.logging_leave_ok hleave
    have h' : Tracked env.dialect u' :=
      hlogged hlog (Tracked.enter henv g h (Visitor.enter_of_visit hvisit))
    exact hlogged hlog' (Tracked.leave henv h' hleave)

/-- **Every state of a walk** over a document at which nothing was under way. -/
theorem tracked_of_steps {w : Walk (Session × List (Call × Session))} (henv : Fluent env)
    (hs : s.Prepared (namespaceIdOf env.dialect) n)
    (h : ReflTransGen (fun w w' => (Stage.manipulation env).logging.step w = .inr w')
      ⟨[n], [], (start n s).state, []⟩ w) :
    w.state.1.Guards (namespaceIdOf env.dialect) w.pending ∧ Tracked env.dialect w.state := by
  induction h with
  | refl =>
    have hrest : Session.AtRest (start n s).state := ⟨hs.rest.active, hs.rest.uses, hs.rest.raised⟩
    exact ⟨hs.guards.congr rfl rfl, hrest.orderly,
      fun x f hx => absurd hx (hs.rest.active ▸ List.not_mem_nil)⟩
  | tail _ hstep ih =>
    have hnext := ih.2.step (l := []) henv (by simpa using ih.1) hstep
    simpa using hnext

/-! ### What comes before and after -/

namespace Trails

variable {before : List NodeId} (h : Trails d log s x f before later)

include h

/-- Default content is the last definition exactly as long as none was entered since. -/
theorem getLast?_eq_iff :
    (s.definitions.bodiesOf x.name).getLast? = some f ↔ reached d x.name later = [] := by
  rw [h.bodiesOf, List.getLast?_append_cons]
  cases hreached : reached d x.name later with
  | nil => simp
  | cons b bs =>
    rw [List.getLast?_cons_cons]
    refine ⟨fun hlast => absurd ?_ h.apart.2, fun hnil => by cases hnil⟩
    rw [hreached]
    exact List.mem_of_getLast? hlast

/-- As many definitions come before it as there were when the expansion began. -/
theorem getElem?_eq_iff (k : Nat) :
    (s.definitions.bodiesOf x.name)[k]? = some f ↔ k = before.length := by
  rw [h.bodiesOf]
  rcases Nat.lt_trichotomy k before.length with hlt | rfl | hlt
  · refine ⟨fun hk => absurd ?_ h.apart.1, fun hk => absurd hk hlt.ne⟩
    rw [List.getElem?_append_left hlt] at hk
    exact List.mem_of_getElem? hk
  · simp
  · refine ⟨fun hk => absurd ?_ h.apart.2, fun hk => absurd hk hlt.ne'⟩
    obtain ⟨j, rfl⟩ := Nat.exists_eq_add_of_lt hlt
    rw [List.getElem?_append_right (by omega), Nat.add_assoc, Nat.add_sub_cancel_left,
      List.getElem?_cons_succ] at hk
    exact List.mem_of_getElem? hk

/-- All other definitions of the name come from elements that define something. -/
theorem isNamed_of_mem (g : s.Guards id l) (ho : s.Orderly) (hx : x ∈ s.definitions.active)
    (hf : x.fallback = some f) {b : NodeId} (hb : b ∈ before ++ reached d x.name later) :
    isNamed s.store b id ["macro"] := by
  have hmem : b ∈ s.definitions.bodiesOf x.name := by
    rw [h.bodiesOf]
    exact (List.mem_append.mp hb).elim (List.mem_append_left _) fun hb =>
      List.mem_append_right _ (List.mem_cons_of_mem f hb)
  refine (g.bodies x.name b hmem).2.resolve_right ?_
  rintro ⟨y, hy, hname, hyb⟩
  obtain rfl := ho.single.fallback_eq hx hf hy hyb hname
  exact (List.mem_append.mp hb).elim h.apart.1 h.apart.2

end Trails

end Language

end Stencil
