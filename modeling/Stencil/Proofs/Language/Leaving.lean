import Stencil.Proofs.Language.Opening

/-!
# Leaving elements in a scene

Leaving a node never fails. It ends the expansions that began when the node was entered, and
disposes of their default content; this stands nowhere, so nobody notices. A visit to a node thus
comes to what its opening says, with the content that was visited in between.

## Main definitions

* `Session.Closes` – some expansions have ended
* `Language.Continued` – what is below a node was visited
* `Language.Visited` – what a visit to a node has made of it

## Main results

* `Language.leave_gives` – leaving a node succeeds
* `Language.Opens.visited` – a node that was opened, and left after what is below it was visited
* `Language.visited_alone` – a node that was left alone
-/

namespace Stencil

open Stencil.Tree (NodeId Store Node Content)
open Stencil.Tree.Store (Tidy Within Untouched Placeable Labelled)
open Definitions (Agrees)

variable {env : Stage.Environment} {s s' s'' s₃ : Session} {n m a : NodeId} {b b' : Prop}

/-! ### Ending expansions -/

namespace Session

/-- Some expansions have ended, and their default content was disposed of. -/
def Closes (s s' : Session) : Prop :=
  ∃ ended : List Expansion, s.definitions.active = ended ++ s'.definitions.active ∧
    s'.definitions = Definitions.unwind^[ended.length] s.definitions ∧
    s'.store = (ended.filterMap (·.fallback)).foldl (fun t f => t.dispose f) s.store ∧
    s'.documents = s.documents

/-- The innermost expansion ends first. -/
theorem foldl_dispose_cons (store : Store) (x : Expansion) (ended : List Expansion) :
    ((x :: ended).filterMap (·.fallback)).foldl (fun t f => t.dispose f) store =
      (ended.filterMap (·.fallback)).foldl (fun t f => t.dispose f)
        (x.fallback.toList.foldl (fun t f => t.dispose f) store) := by
  rw [List.filterMap_cons]
  cases x.fallback with
  | none => rw [Option.toList_none, List.foldl_nil]
  | some f => rw [Option.toList_some, List.foldl_cons, List.foldl_cons, List.foldl_nil]

namespace Closes

theorem of_eq (hstore : s'.store = s.store) (hdefs : s'.definitions = s.definitions)
    (hdocs : s'.documents = s.documents) : s.Closes s' :=
  ⟨[], by rw [hdefs]; rfl, hdefs, hstore, hdocs⟩

@[refl] protected theorem refl (s : Session) : s.Closes s := .of_eq rfl rfl rfl

protected theorem trans (h₁ : s.Closes s') (h₂ : s'.Closes s'') : s.Closes s'' := by
  obtain ⟨ended, hactive, hdefs, hstore, hdocs⟩ := h₁
  obtain ⟨ended', hactive', hdefs', hstore', hdocs'⟩ := h₂
  refine ⟨ended ++ ended', by rw [hactive, hactive', List.append_assoc], ?_, ?_, hdocs'.trans hdocs⟩
  · rw [hdefs', hdefs, ← Function.iterate_add_apply, List.length_append, Nat.add_comm]
  · rw [hstore', hstore, List.filterMap_append, List.foldl_append]

/-- If the same expansions are under way, none has ended. -/
theorem eq_of_active (h : s.Closes s') (hactive : s'.definitions.active = s.definitions.active) :
    s'.store = s.store ∧ s'.definitions = s.definitions := by
  obtain ⟨ended, hended, hdefs, hstore, -⟩ := h
  obtain rfl : ended = [] := by
    rw [hactive] at hended
    exact List.self_eq_append_left.mp hended
  exact ⟨hstore, hdefs⟩

theorem labelled (h : s.Closes s') (hl : s.store.Labelled) : s'.store.Labelled := by
  obtain ⟨ended, -, -, hstore, -⟩ := h
  exact hstore ▸ hl.shrink (.foldl (fun _ _ => .dispose) _)

end Closes

end Session

namespace Language

theorem leaveExpansion_gives : leaveExpansion.Gives s fun _ s' => s.Closes s' := by
  refine .bind (.get ?_)
  cases hactive : s.definitions.active with
  | nil => exact .pure (.refl s)
  | cons x rest =>
    dsimp only
    have hended : ∀ s' : Session, s'.definitions = s.definitions.unwind →
        s.definitions.active = [x] ++ s'.definitions.active := by
      intro s' hs'
      rw [hs', (Definitions.unwind_of_active hactive).1, hactive]
      rfl
    have hdefs := Definitions.unwind.eq_1 s.definitions
    rw [hactive] at hdefs
    dsimp only [Definitions.dropFallback] at hdefs
    cases hf : x.fallback with
    | none =>
      rw [hf] at hdefs
      exact .bind ⟨_, _, rfl, .pure ⟨[x], hended _ hdefs.symm, hdefs.symm, by simp [hf], rfl⟩⟩
    | some f =>
      rw [hf] at hdefs
      refine .bind ⟨_, _, rfl, .bind ⟨_, _, rfl, Work.modifyStore_gives ?_⟩⟩
      exact ⟨[x], hended _ hdefs.symm, hdefs.symm, by simp [hf], rfl⟩

theorem takeReturn_gives {Q : Bool → Session → Prop} (h : Q (s.raised n) (s.lower n)) :
    (Work.takeReturn n).Gives s Q :=
  ⟨_, _, Work.takeReturn_apply n s, h⟩

theorem elementHooks?_gives {k : StageKind} {Q : Option ElementHooks → Session → Prop}
    (h : Q ((s.store.element? n).bind fun e => env.registry.element? k e.uri e.name) s) :
    (Stage.elementHooks? env k n).Gives s Q :=
  ⟨_, _, elementHooks?_apply, h⟩

theorem attributeHooks?_gives {k : StageKind} {Q : Option AttributeHooks → Session → Prop}
    (h : Q ((s.store.attr? a).bind fun e => env.registry.attribute? k e.uri e.name) s) :
    (Stage.attributeHooks? env k a).Gives s Q :=
  ⟨_, _, attributeHooks?_apply, h⟩

/-- The hooks of the language end expansions or do nothing. -/
theorem returnToElement_gives (henv : Fluent env) :
    (Stage.returnToElement env .manipulation n).Gives s fun _ s' => s.Closes s' := by
  have hlow : s.Closes (s.lower n) :=
    .of_eq Session.store_lower Session.definitions_lower Session.documents_lower
  refine .bind (takeReturn_gives ?_)
  split
  · refine .bind (elementHooks?_gives ?_)
    split
    · rename_i hooks hhooks
      obtain ⟨d, -, hhooks⟩ := Option.bind_eq_some_iff.mp hhooks
      refine Work.atNode_gives ?_
      obtain ⟨-, rfl | rfl | rfl⟩ := henv.elements d.uri d.name hooks hhooks
      · exact leaveExpansion_gives.imp fun _ s' hs' => hlow.trans hs'
      · exact .pure hlow
      · exact .pure hlow
    · exact .pure hlow
  · exact .pure hlow

theorem returnToAttribute_gives (henv : Fluent env) :
    (Stage.returnToAttribute env .manipulation n a).Gives s fun _ s' => s.Closes s' := by
  have hlow : s.Closes (s.lower a) :=
    .of_eq Session.store_lower Session.definitions_lower Session.documents_lower
  refine .bind (takeReturn_gives ?_)
  split
  · refine .bind (attributeHooks?_gives ?_)
    split
    · rename_i hooks hhooks
      obtain ⟨d, -, hhooks⟩ := Option.bind_eq_some_iff.mp hhooks
      obtain rfl := henv.attributes d.uri d.name hooks hhooks
      exact Work.atNode_gives (leaveExpansion_gives.imp fun _ s' hs' => hlow.trans hs')
    · exact .pure hlow
  · exact .pure hlow

/-- **Leaving a node succeeds**, and ends expansions. -/
theorem leave_gives (henv : Fluent env) :
    (Stage.leave env .manipulation n).Gives s fun _ s' => s.Closes s' := by
  refine .bind (Work.store_gives ?_)
  split
  · refine .bind ((returnToElement_gives henv).imp fun _ s₁ hs₁ => .bind (Work.store_gives ?_))
    exact .forM (fun a _ s' hs' => (returnToAttribute_gives henv).imp fun _ _ => hs'.trans) hs₁
  · exact .pure (.refl s)

/-! ### Visits -/

variable {σ τ : Scene} {content inner : List Content} {form : Option Node} {c : Content}
  {l : List NodeId}

/-- What is below a node was visited. -/
structure Continued (n : NodeId) (b : Prop) (inner : List Content) (s s' : Session) : Prop where
  settled : Settled (s.store.Interior n) (some n) b s s'
  untouched : Untouched (s.store.Interior n) s.store s'.store
  inner : (s'.store.children n).Forall₂ s'.store.Holds inner
  /-- Definitions that are added belong to what was visited. -/
  bodies (z : Text) (x : NodeId) : x ∈ s'.definitions.bodiesOf z →
    x ∈ s.definitions.bodiesOf z ∨ s.store.Interior n x

/-- A node was visited, and holds this now. Of a document, on which notes are taken, that is said of
the children only. -/
structure Visited (n : NodeId) (b : Prop) (τ : Scene) (c : Content) (s s' : Session) : Prop where
  settled : Settled (s.store.Region n) (s.store.parent? n) b s s'
  untouched : Untouched (s.store.Region n) s.store s'.store
  parent? : s'.store.parent? n = s.store.parent? n
  represents : s'.Represents τ
  holds : s.store.Placeable n → s'.store.Holds n c
  inner : (s'.store.children n).Forall₂ s'.store.Holds c.inner
  bodies (z : Text) (x : NodeId) : x ∈ s'.definitions.bodiesOf z →
    x ∈ s.definitions.bodiesOf z ∨ s.store.Region n x

/-- Default content that was disposed of when a node was left: it stood nowhere, and was new when
the node was entered. -/
structure Dropped (n : NodeId) (l : List NodeId) (s s' s'' : Session) : Prop where
  store : s''.store = l.foldl (fun t f => t.dispose f) s'.store
  placeable (f : NodeId) : f ∈ l → s'.store.Placeable f
  alone (f : NodeId) : f ∈ l → s'.store.parent? f = none
  new (f : NodeId) : f ∈ l → s.store.Interior n f

theorem Opens.interior_le (ho : Opens n σ content form s s') (hs : Sound n s)
    (hm : s'.store.Interior n m) : s.store.Interior n m :=
  ho.within.interior_le hs.wellFormed hs.owned hs.has hm

section Closing

variable (hs : Sound n s) (ho : Opens n σ content form s s') (hc : Continued n b' inner s' s'')

include hs ho hc

theorem Opens.settled_continued : Settled (s.store.Interior n) (some n) b' s' s'' :=
  ⟨hc.settled.within.widen ho.within.tidy (fun _ => ho.interior_le hs) fun _ => .inr,
    hc.settled.agrees, hc.settled.known, hc.settled.raised⟩

/-- What happened between entering a node and leaving it. -/
theorem Opens.within_continued : Within (s.store.Interior n) (some n) s.store s''.store :=
  ho.within.trans (ho.settled_continued hs hc).within

theorem Opens.untouched_continued : Untouched (s.store.Region n) s.store s''.store :=
  ho.untouched.trans (hc.untouched.mono fun _ _ hm => (ho.interior_le hs hm).1)

/-- What is dropped when the node is left is the default content of the expansions that began when
it was entered. -/
theorem Opens.exists_dropped (hl : s''.Closes s₃)
    (hactive : s₃.definitions.active = s.definitions.active) : ∃ l, Dropped n l s s'' s₃ := by
  obtain ⟨ended, hended, -, hstore, -⟩ := hl
  obtain ⟨began, hbegan, hfallback⟩ := ho.began
  obtain rfl : began = ended := by
    refine (List.append_left_inj s.definitions.active).mp ?_
    rw [← hbegan, ← hc.settled.agrees.active, hended, hactive]
  refine ⟨_, hstore, fun f hf => ?_, fun f hf => ?_, fun f hf => ?_⟩ <;>
    obtain ⟨x, hx, hxf⟩ := List.mem_filterMap.mp hf <;>
    obtain ⟨hplace, halone, hnew⟩ := hfallback x hx f hxf
  · exact hplace.mono hc.settled.within.confined.kind?
  · have hout : ¬ s'.store.Interior n f := by
      rintro ⟨hup | hgone, hne⟩
      · rcases Store.above_iff.mp hup with heq | ⟨q, hq, -⟩
        · exact hne heq.symm
        · rw [halone] at hq
          cases hq
      · exact hgone hplace.has
    rw [hc.settled.within.confined.parent? f hout, halone]
  · exact hs.tidy.fresh f hnew

/-- Dropping default content is noticed below it only. -/
theorem Opens.untouched_dropped (hd : Dropped n l s s'' s₃) :
    Untouched (fun m => ∃ f ∈ l, s''.store.Above f m) s''.store s₃.store := by
  have hw := (ho.within_continued hs hc).tidy
  rw [hd.store]
  exact hw.wellFormed.untouched_disposeAll hw.owned fun f hf => ⟨hd.placeable f hf, hd.alone f hf⟩

theorem Opens.interior_of_dropped (hd : Dropped n l s s'' s₃) {f : NodeId} (hf : f ∈ l)
    (hm : s''.store.Above f m) : s.store.Interior n m :=
  (ho.within_continued hs hc).tidy.below (hd.new f hf) hm

/-- The node is where it was. -/
theorem Opens.parent?_dropped (hd : Dropped n l s s'' s₃) :
    s₃.store.parent? n = s.store.parent? n := by
  have hw := ho.within_continued hs hc
  have hgone := hw.tidy.disposeAll fun f hf => ⟨hd.new f hf, (hd.placeable f hf).has⟩
  rw [hd.store, hgone.confined.parent? n (not_interior n s.store)]
  exact hw.confined.parent? n (not_interior n s.store)

/-- Default content has nothing to do with what is below the node. -/
theorem Opens.not_dropped (hd : Dropped n l s s'' s₃) {k : NodeId}
    (hk : s''.store.parent? k = some n) (hm : s''.store.Above k m) :
    ¬ ∃ f ∈ l, s''.store.Above f m := by
  rintro ⟨f, hf, hfm⟩
  have halone := hd.alone f hf
  rcases Store.above_or_above hfm hm with hfk | hkf
  · rcases Store.above_iff.mp hfk with heq | ⟨q, hq, hup⟩
    · rw [← heq, halone] at hk
      cases hk
    · obtain rfl := Option.some.inj (hq.symm.trans hk)
      exact not_interior q s.store (ho.interior_of_dropped hs hc hd hf hup)
  · rcases Store.above_iff.mp hkf with heq | ⟨q, hq, -⟩
    · rw [heq, halone] at hk
      cases hk
    · rw [halone] at hq
      cases hq

/-- Whatever is not below the node looks as it did before it was entered. -/
theorem Opens.untouched_closed (hl : s''.Closes s₃)
    (hactive : s₃.definitions.active = s.definitions.active) :
    Untouched (s.store.Region n) s.store s₃.store := by
  obtain ⟨l, hd⟩ := ho.exists_dropped hs hc hl hactive
  refine (ho.untouched_continued hs hc).trans ((ho.untouched_dropped hs hc hd).mono ?_)
  rintro m - ⟨f, hf, hup⟩
  exact (ho.interior_of_dropped hs hc hd hf hup).1

/-- **A node was opened, what is below it was visited, and it was left.** -/
theorem Opens.visited (hn : s.store.isContainer n)
    (hattrs : (s.store.attributes n).map s.store.loose = c.attributes) (hl : s''.Closes s₃)
    (hset : Settled (s.store.Region n) (s.store.parent? n) b s s₃) (hr : s₃.Represents τ) :
    Visited n b τ (.node form c.attributes inner) s s₃ := by
  obtain ⟨l, hd⟩ := ho.exists_dropped hs hc hl hset.agrees.active
  have hw := ho.within_continued hs hc
  have hgone := ho.untouched_dropped hs hc hd
  have hkept : ¬ ∃ f ∈ l, s''.store.Above f n := fun ⟨f, hf, hup⟩ =>
    not_interior n s.store (ho.interior_of_dropped hs hc hd hf hup)
  have hchildren : s₃.store.children n = s''.store.children n :=
    hgone.children n (Store.isContainer_of_kind? hn hw.confined.kind?) hkept
  have hinner : (s₃.store.children n).Forall₂ s₃.store.Holds inner := by
    rw [hchildren]
    refine hgone.holds_all hw.tidy.wellFormed (fun k hk => ?_) hc.inner
    have hk := hw.tidy.wellFormed.mem_children.mp hk
    exact ⟨hw.tidy.wellFormed.placeable hk, fun m hm => ho.not_dropped hs hc hd hk hm⟩
  refine ⟨hset, ho.untouched_closed hs hc hl hset.agrees.active, ho.parent?_dropped hs hc hd, hr,
    fun hplace => ?_, hinner, ?_⟩
  · have hplace' := hplace.mono ho.within.confined.kind?
    have hplace'' := hplace'.mono hc.settled.within.confined.kind?
    have hview : s₃.store.view n = s'.store.view n :=
      (hgone.view n hplace'' hkept).trans (hc.untouched.view n hplace' (not_interior n s'.store))
    refine Store.holds_iff.mpr ⟨?_, ?_, hinner⟩
    · exact (congrArg Store.View.self hview).trans ho.self
    · exact (congrArg Store.View.attributes hview).trans (ho.attributes.trans hattrs)
  · intro z x hx
    obtain ⟨ended, -, hdefs, -⟩ := hl
    rw [hdefs] at hx
    rcases hc.bodies z x (mem_bodiesOf_iterate_unwind hx) with hx | hx
    · exact (ho.bodies z x hx).imp_right .inr
    · exact .inr (ho.interior_le hs hx).1

end Closing

/-- **A node was left alone.** -/
theorem visited_alone (h : s.Represents σ) (hc : s.store.Holds n c)
    (hl : s.Closes s₃) (hset : Settled (s.store.Region n) (s.store.parent? n) b s s₃) :
    Visited n b σ c s s₃ := by
  obtain ⟨hstore, hdefs⟩ := hl.eq_of_active hset.agrees.active
  refine ⟨hset, hstore ▸ .refl _, by rw [hstore], h.congr hstore hdefs, fun _ => hstore ▸ hc, ?_,
    fun z x hx => ?_⟩
  · rw [hstore]
    exact (Store.holds_iff.mp hc).2.2
  · exact .inl (hdefs ▸ hx)

end Language

end Stencil
