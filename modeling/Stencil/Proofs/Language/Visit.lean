import Stencil.Proofs.Language.Expansion
import Stencil.Proofs.Language.Registry

/-!
# Visiting a node

What the stage that changes the tree does when it enters a node and when it leaves it. On entering,
an element or its attributes may begin expansions, each of which raises the flag of the node that
began it. On leaving, every flag that is still raised on the element or its attributes is lowered
and ends one expansion. As long as nobody else touches these flags, a visit therefore ends as many
expansions as it began.

## Main definitions

* `Session.Known` – definitions exist; `Session.Quiet` – no flag is raised in a region
* `Session.pending` – the number of expansions that leaving a node will end
* `Language.Entered` – what holds after a node was entered

## Main results

* `Language.leave_yields` – leaving a node ends the pending expansions
* `Language.manipulate_yields` – entering a node
-/

namespace Stencil

open Stencil.Tree (NodeId Store NodeKind)
open Stencil.Tree.Store (Tidy Within Confined)
open Definitions (Agrees)

variable {env : Stage.Environment} {s s' s'' : Session} {R R' : NodeId → Prop}
  {anchor anchor' : Option NodeId} {e n m a : NodeId} {b : Prop}

/-! ### Flags and definitions -/

namespace Session

/-- Every definition exists. -/
def Known (s : Session) : Prop := ∀ z b, b ∈ s.definitions.bodiesOf z → s.store.Has b

/-- Every raised flag belongs to an element outside of a region, or to an attribute of one. -/
def Quiet (R : NodeId → Prop) (s : Session) : Prop :=
  ∀ m, s.raised m → ∃ e, ¬ R e ∧ s.store.isElement e ∧ (m = e ∨ m ∈ s.store.attributes e)

/-- The number of expansions that leaving a node will end. -/
def pending (s : Session) (n : NodeId) : Nat := (n :: s.store.attributes n).countP s.raised

theorem Quiet.mono (h : s.Quiet R) (hR : ∀ m, R' m → R m) : s.Quiet R' := fun m hm =>
  let ⟨e, he, h⟩ := h m hm
  ⟨e, fun e' => he (hR e e'), h⟩

/-- Work within a region that raises no flag keeps it quiet. -/
theorem Quiet.within (h : s.Quiet R) (hw : Within R anchor s.store s'.store)
    (hr : ∀ m, s'.raised m = s.raised m) : s'.Quiet R := by
  intro m hm
  obtain ⟨e, he, hel, hme⟩ := h m (hr m ▸ hm)
  refine ⟨e, he, hw.confined.isElement hel, ?_⟩
  rwa [hw.confined.attributes e he]

/-- In a quiet region neither a node nor an attribute of it has its flag raised. -/
theorem Quiet.not_raised (h : s.Quiet R) (ho : s.store.Owned) (hn : R n)
    (hkind : s.store.kind? n ≠ some .attr) (hm : m ∈ n :: s.store.attributes n) :
    s.raised m = false := by
  by_contra hraised
  obtain ⟨e, he, hel, hme⟩ := h m (by simpa using hraised)
  rcases List.mem_cons.mp hm with rfl | hm
  · rcases hme with rfl | hme
    · exact he hn
    · exact hkind (ho.kind e m hme)
  · rcases hme with rfl | hme
    · have hattr := ho.kind n m hm
      simp [Store.kind?_of_isElement hel] at hattr
    · exact he (ho.unique e n m hme hm ▸ hn)

theorem Quiet.pending_eq_zero (h : s.Quiet R) (ho : s.store.Owned) (hn : R n)
    (hkind : s.store.kind? n ≠ some .attr) : s.pending n = 0 :=
  List.countP_eq_zero.mpr fun m hm => by simp [h.not_raised ho hn hkind hm]

end Session

/-! ### The instructions of the language -/

namespace Language

/-- Leaving a node ends an expansion, if its flag is raised. -/
inductive Returns (env : Stage.Environment) (t : Store) (m : NodeId) : Prop
  | ofElement (uri : Option Int) (name : Text) (hooks : ElementHooks) :
      t.tag? m = some (.element, uri, name) →
      env.registry.element? .manipulation uri name = some hooks →
      (∀ n, hooks.leave n = leaveExpansion) → Returns env t m
  | ofAttribute (uri : Option Int) (name : Text) (hooks : AttributeHooks) :
      t.tag? m = some (.attr, uri, name) →
      env.registry.attribute? .manipulation uri name = some hooks →
      (∀ e a, hooks.leave e a = leaveExpansion) → Returns env t m

theorem Returns.mono {t t' : Store} (h : Returns env t m) (hc : Confined R t t') :
    Returns env t' m := by
  cases h with
  | ofElement uri name hooks ht hh hl => exact .ofElement uri name hooks (hc.tag? m _ ht) hh hl
  | ofAttribute uri name hooks ht hh hl => exact .ofAttribute uri name hooks (hc.tag? m _ ht) hh hl

theorem element?_of_tag? {t : Store} {uri : Option Int} {name : Text}
    (h : t.tag? n = some (.element, uri, name)) :
    ∃ d, t.element? n = some d ∧ d.uri = uri ∧ d.name = name := by
  obtain ⟨p, hp, htag⟩ := Option.map_eq_some_iff.mp h
  cases p with
  | element d =>
    obtain ⟨rfl, rfl⟩ : d.uri = uri ∧ d.name = name := by simpa [Tree.Payload.tag] using htag
    exact ⟨d, by rw [Store.element?, hp], rfl, rfl⟩
  | _ => simp [Tree.Payload.tag, Tree.Payload.nodeKind] at htag

theorem attr?_of_tag? {t : Store} {uri : Option Int} {name : Text}
    (h : t.tag? n = some (.attr, uri, name)) :
    ∃ d, t.attr? n = some d ∧ d.uri = uri ∧ d.name = name := by
  obtain ⟨p, hp, htag⟩ := Option.map_eq_some_iff.mp h
  cases p with
  | attr d =>
    obtain ⟨rfl, rfl⟩ : d.uri = uri ∧ d.name = name := by simpa [Tree.Payload.tag] using htag
    exact ⟨d, by rw [Store.attr?, hp], rfl, rfl⟩
  | _ => simp [Tree.Payload.tag, Tree.Payload.nodeKind] at htag

/-! ### Leaving a node -/

theorem active_iterate_unwind (d : Definitions) (k : Nat) :
    (Definitions.unwind^[k] d).active = d.active.drop k := by
  induction k generalizing d with
  | zero => rfl
  | succ k ih =>
    rw [Function.iterate_succ_apply, ih]
    cases h : d.active with
    | nil => rw [Definitions.unwind_of_nil h, h, List.drop_nil, List.drop_nil]
    | cons x rest => rw [(Definitions.unwind_of_active h).1, List.drop_succ_cons]

/-- The session after one node was asked for its flag: if it was raised, it is lowered, and the
innermost expansion has ended. -/
structure TakenBack (R : NodeId → Prop) (anchor : Option NodeId) (m : NodeId) (s s' : Session) :
    Prop where
  within : Within R anchor s.store s'.store
  definitions : s'.definitions = Definitions.unwind^[if s.raised m then 1 else 0] s.definitions
  raised (k : NodeId) : s'.raised k = (k != m && s.raised k)

/-- Asking for a flag, and ending an expansion if it was raised. -/
theorem takeBack_yields {w : Work Unit} (h : Tidy R anchor s.store)
    (hf : s.raised m → ∀ x ∈ s.definitions.active.head?, ∀ f ∈ x.fallback, R f ∧ s.store.Has f)
    (hw : ∀ s₁ : Session, s.raised m → s₁.store = s.store → s₁.definitions = s.definitions →
      ∀ Q : Unit → Session → Prop, leaveExpansion.Yields s₁ Q → w.Yields s₁ Q) :
    (do if ← Work.takeReturn m then w : Work Unit).Yields s fun _ s' =>
      TakenBack R anchor m s s' := by
  refine .bind (Work.takeReturn_yields ?_)
  split
  · rename_i hm
    refine hw _ hm Session.store_lower Session.definitions_lower _ ?_
    refine (leaveExpansion_yields (s := s.lower m) (by simpa using h) ?_).imp fun _ s' hs' => ?_
    · simpa using hf hm
    · obtain ⟨hwithin, hdefs, hprops⟩ := hs'
      refine ⟨by simpa using hwithin, ?_, fun k => ?_⟩
      · rw [if_pos hm, hdefs, Session.definitions_lower]
        rfl
      · rw [← Session.raised_lower, Session.raised, hprops, Session.raised]
  · rename_i hm
    exact .pure ⟨by simpa using h.within, by simp [hm], fun k => Session.raised_lower⟩

theorem elementHooks?_yields {t : Option ElementHooks} {Q : Option ElementHooks → Session → Prop}
    {uri : Option Int} {name : Text} (htag : s.store.tag? n = some (.element, uri, name))
    (ht : env.registry.element? .manipulation uri name = t) (h : Q t s) :
    (Stage.elementHooks? env .manipulation n).Yields s Q := by
  obtain ⟨d, hd, rfl, rfl⟩ := element?_of_tag? htag
  refine .bind (Work.store_yields ?_)
  rw [hd]
  exact .pure (ht ▸ h)

theorem attributeHooks?_yields {t : Option AttributeHooks}
    {Q : Option AttributeHooks → Session → Prop} {uri : Option Int} {name : Text}
    (htag : s.store.tag? n = some (.attr, uri, name))
    (ht : env.registry.attribute? .manipulation uri name = t) (h : Q t s) :
    (Stage.attributeHooks? env .manipulation n).Yields s Q := by
  obtain ⟨d, hd, rfl, rfl⟩ := attr?_of_tag? htag
  refine .bind (Work.store_yields ?_)
  rw [hd]
  exact .pure (ht ▸ h)

/-- Calling the instruction of an element again ends an expansion, if the flag is raised. -/
theorem returnToElement_yields (h : Tidy R anchor s.store) (hn : s.store.isElement n)
    (hret : s.raised n → Returns env s.store n)
    (hf : s.raised n → ∀ x ∈ s.definitions.active.head?, ∀ f ∈ x.fallback, R f ∧ s.store.Has f) :
    (Stage.returnToElement env .manipulation n).Yields s fun _ s' => TakenBack R anchor n s s' := by
  refine takeBack_yields h hf fun s₁ hm hstore _ Q hQ => ?_
  cases hret hm with
  | ofElement uri name hooks htag hhooks hl =>
    refine .bind (elementHooks?_yields (hstore ▸ htag) hhooks ?_)
    dsimp only
    rw [hl]
    exact Work.atNode_yields hQ
  | ofAttribute uri name hooks htag =>
    have hkind := Store.kind?_of_isElement hn
    rw [Store.kind?_eq_map_tag?, htag] at hkind
    cases hkind

/-- Calling the instruction of an attribute again ends an expansion, if the flag is raised. -/
theorem returnToAttribute_yields (h : Tidy R anchor s.store) (ha : s.store.kind? a = some .attr)
    (hret : s.raised a → Returns env s.store a)
    (hf : s.raised a → ∀ x ∈ s.definitions.active.head?, ∀ f ∈ x.fallback, R f ∧ s.store.Has f) :
    (Stage.returnToAttribute env .manipulation n a).Yields s fun _ s' =>
      TakenBack R anchor a s s' := by
  refine takeBack_yields h hf fun s₁ hm hstore _ Q hQ => ?_
  cases hret hm with
  | ofElement uri name hooks htag =>
    rw [Store.kind?_eq_map_tag?, htag] at ha
    cases ha
  | ofAttribute uri name hooks htag hhooks hl =>
    refine .bind (attributeHooks?_yields (hstore ▸ htag) hhooks ?_)
    dsimp only
    rw [hl]
    exact Work.atNode_yields hQ

/-- The session after a list of nodes was asked for their flags. -/
structure Leaving (R : NodeId → Prop) (anchor : Option NodeId) (done : List NodeId)
    (s s' : Session) : Prop where
  within : Within R anchor s.store s'.store
  definitions : s'.definitions = Definitions.unwind^[done.countP s.raised] s.definitions
  raised (k : NodeId) : s'.raised k = (decide (k ∉ done) && s.raised k)

theorem Leaving.step {done : List NodeId} (h : Leaving R anchor done s s') (hm : m ∉ done)
    (ht : TakenBack R anchor m s' s'') : Leaving R anchor (done ++ [m]) s s'' where
  within := h.within.trans ht.within
  definitions := by
    have hraised : s'.raised m = s.raised m := by rw [h.raised]; simp [hm]
    rw [ht.definitions, h.definitions, ← Function.iterate_add_apply, hraised, List.countP_append,
      List.countP_singleton, Nat.add_comm]
  raised k := by
    rw [ht.raised, h.raised]
    by_cases hk : k = m <;> by_cases hd : k ∈ done <;> simp [hk, hd]

/-- Which nodes are asked for their flags when `n` is left, and what they need for it. -/
structure Leavable (env : Stage.Environment) (R : NodeId → Prop) (n : NodeId) (s : Session) :
    Prop where
  returns (m : NodeId) : m ∈ n :: s.store.attributes n → s.raised m → Returns env s.store m
  fallback (x : Expansion) : x ∈ s.definitions.active.take (s.pending n) →
    ∀ f ∈ x.fallback, R f ∧ s.store.Has f

/-- The innermost expansion, at the time the flag of `m` is asked for, is among those pending. -/
theorem Leavable.innermost (h : Leavable env R n s) (done : List NodeId) {rest : List NodeId}
    (hsplit : done ++ m :: rest = n :: s.store.attributes n) (hl : Leaving R anchor done s s')
    (hm : s.raised m) (x : Expansion) (hx : x ∈ s'.definitions.active.head?) (f : NodeId)
    (hf : f ∈ x.fallback) : R f ∧ s'.store.Has f := by
  rw [hl.definitions, active_iterate_unwind, List.head?_drop] at hx
  have hlt : done.countP s.raised < s.pending n := by
    rw [Session.pending, ← hsplit, List.countP_append, List.countP_cons, hm]
    simp
  have hmem : x ∈ s.definitions.active.take (s.pending n) := by
    refine List.mem_of_getElem? (i := done.countP s.raised) ?_
    rw [List.getElem?_take, if_pos hlt]
    exact hx
  obtain ⟨hR, hhas⟩ := h.fallback x hmem f hf
  exact ⟨hR, hl.within.confined.has hhas⟩

/-- **Leaving a node.** Every pending expansion ends, and all flags of the node and its attributes
are lowered. -/
theorem leave_yields (h : Tidy R anchor s.store) (hR : ¬ R n)
    (hkind : s.store.kind? n ≠ some .attr) (hl : Leavable env R n s) :
    (Stage.leave env .manipulation n).Yields s fun _ s' =>
      Leaving R anchor (n :: s.store.attributes n) s s' := by
  have hstart : Leaving R anchor [] s s := ⟨h.within, rfl, fun k => by simp⟩
  refine .bind (Work.store_yields ?_)
  split
  · rename_i hel
    have hnodup : (n :: s.store.attributes n).Nodup :=
      List.nodup_cons.mpr ⟨fun hmem => hkind (h.owned.kind n n hmem), h.owned.nodup n⟩
    refine .bind ((returnToElement_yields h hel (hl.returns n (by simp))
      fun hm => hl.innermost [] rfl hstart hm).imp fun _ s₁ hs₁ => ?_)
    refine .bind (Work.store_yields ?_)
    rw [hs₁.within.confined.attributes n hR]
    refine (Action.Yields.forM (I := fun rest s' => ∃ done,
      done ++ rest = s.store.attributes n ∧ Leaving R anchor (n :: done) s s')
      (fun a rest s' hI => ?_) _ ⟨[], rfl, hstart.step (by simp) hs₁⟩).imp fun _ s' hs' => ?_
    · obtain ⟨done, hsplit, hleaving⟩ := hI
      have hmem : a ∈ s.store.attributes n := by simp [← hsplit]
      have hnot : a ∉ n :: done := by
        rw [← hsplit, ← List.cons_append] at hnodup
        exact fun hdone => (List.nodup_append'.mp hnodup).2.2 hdone (by simp)
      have hw := hleaving.within
      have hraised : s'.raised a = s.raised a := by rw [hleaving.raised]; simp [hnot]
      refine (returnToAttribute_yields hw.tidy (hw.confined.kind? a _ (h.owned.kind n a hmem))
        (fun ha => ?_) fun ha => ?_).imp fun _ s'' hs'' => ?_
      · exact (hl.returns a (by simp [hmem]) (hraised ▸ ha)).mono hw.confined
      · exact hl.innermost (n :: done) (by rw [← hsplit, List.cons_append]) hleaving (hraised ▸ ha)
      · exact ⟨done ++ [a], by simpa using hsplit, hleaving.step hnot hs''⟩
    · obtain ⟨done, hsplit, hleaving⟩ := hs'
      rw [List.append_nil] at hsplit
      exact hsplit ▸ hleaving
  · rename_i hel
    have hraised : s.raised n = false := by
      by_contra hm
      cases hl.returns n (by simp) (by simpa using hm) with
      | ofElement uri name hooks htag => exact hel (Store.isElement_iff_tag?.mpr ⟨_, htag⟩)
      | ofAttribute uri name hooks htag =>
        exact hkind (by rw [Store.kind?_eq_map_tag?, htag]; rfl)
    have hattrs : s.store.attributes n = [] :=
      Store.attributes_of_not_element (by simpa [Store.isElement] using hel)
    rw [hattrs]
    refine .pure ⟨h.within, by simp [hraised], fun k => ?_⟩
    by_cases hk : k = n <;> simp [hk, hraised]

/-! ### Entering a node -/

/-- How much there is left for expansions to use up. -/
def depth (d : Definitions) : ℕ ×ₗ ℕ := toLex (d.available.card, d.remaining)

theorem depth_eq {d d' : Definitions} (h : Agrees b d d') (hb : b) : depth d' = depth d := by
  rw [depth, depth, h.available_eq hb, h.remaining_eq hb]

/-- What a visit needs: a well-formed tree, definitions that exist, and no raised flag in the
region of the node. -/
structure Sound (n : NodeId) (s : Session) : Prop where
  wellFormed : s.store.WellFormed
  owned : s.store.Owned
  has : s.store.Has n
  known : s.Known
  quiet : s.Quiet (s.store.Region n)

/-- What holds after a node was entered. Expansions that began can be ended again, and use something
up; without any, the tree is as before. The definitions are the same if `b` holds. -/
structure Entered (env : Stage.Environment) (b : Prop) (n : NodeId) (s s' : Session) : Prop where
  within : Within (s.store.Interior n) (some n) s.store s'.store
  agrees : Agrees b s.definitions (Definitions.unwind^[s'.pending n] s'.definitions)
  known : s'.Known
  raised (m : NodeId) : m ∉ n :: s.store.attributes n → s'.raised m = s.raised m
  leavable : Leavable env (s.store.Interior n) n s'
  cheaper : b → depth s'.definitions < depth s.definitions ∨
    s'.store = s.store ∧ Agrees True s.definitions s'.definitions

theorem Entered.mono {b' : Prop} (h : Entered env b n s s') (hb : b' → b) : Entered env b' n s s' :=
  ⟨h.within, h.agrees.mono hb, h.known, h.raised, h.leavable, fun e => h.cheaper (hb e)⟩

theorem Sound.tidy (h : Sound n s) : Tidy (s.store.Interior n) (some n) s.store :=
  h.wellFormed.tidy_interior h.owned h.has

theorem Sound.nodup (h : Sound n s) (hkind : s.store.kind? n ≠ some .attr) :
    (n :: s.store.attributes n).Nodup :=
  List.nodup_cons.mpr ⟨fun hmem => hkind (h.owned.kind n n hmem), h.owned.nodup n⟩

theorem Sound.not_raised (h : Sound n s) (hkind : s.store.kind? n ≠ some .attr)
    (hm : m ∈ n :: s.store.attributes n) : s.raised m = false :=
  h.quiet.not_raised h.owned (.inl (.refl n)) hkind hm

/-- Nothing has begun. -/
theorem Entered.refl (h : Sound n s) (hkind : s.store.kind? n ≠ some .attr) :
    Entered env b n s s := by
  have hpending := h.quiet.pending_eq_zero h.owned (.inl (.refl n)) hkind
  refine ⟨h.tidy.within, ?_, h.known, fun _ _ => rfl, ⟨fun m hm hr => ?_, ?_⟩,
    fun _ => .inr ⟨rfl, .refl _⟩⟩
  · rw [hpending]
    exact .refl _
  · rw [h.not_raised hkind hm] at hr
    cases hr
  · rw [hpending]
    simp

theorem countP_raise {l : List NodeId} {p q : NodeId → Bool} (hl : l.Nodup) (hm : m ∈ l)
    (hp : p m = false) (hq : ∀ k, q k = (k == m || p k)) : l.countP q = l.countP p + 1 := by
  obtain ⟨l₁, l₂, rfl⟩ := List.append_of_mem hm
  have hne : ∀ k, k ∈ l₁ ∨ k ∈ l₂ → q k = p k := by
    intro k hk
    have hkm : k ≠ m := by
      rintro rfl
      rw [List.nodup_append', List.nodup_cons] at hl
      rcases hk with hk | hk
      · exact hl.2.2 hk (by simp)
      · exact hl.2.1.1 hk
    rw [hq]
    simp [hkm]
  have hcount₁ : l₁.countP q = l₁.countP p := List.countP_congr fun k hk => by rw [hne k (.inl hk)]
  have hcount₂ : l₂.countP q = l₂.countP p := List.countP_congr fun k hk => by rw [hne k (.inr hk)]
  simp only [List.countP_append, List.countP_cons, hcount₁, hcount₂, hp, hq m]
  simp
  omega

/-- **An expansion begins** at the node or one of its attributes. -/
theorem Entered.push {x : Expansion} (h : Entered env True n s s') (hs : Sound n s)
    (hkind : s.store.kind? n ≠ some .attr) (hm : m ∈ n :: s.store.attributes n)
    (hlow : s'.raised m = false) (hret : Returns env s'.store m)
    (hb : Began (s.store.Interior n) (some n) x s' s'')
    (hr : ∀ k, s''.raised k = (k == m || s'.raised k))
    (hdepth : depth (s'.definitions.push x) < depth s'.definitions) : Entered env True n s s'' := by
  have hw := h.within.trans hb.within
  have hattrs' : s'.store.attributes n = s.store.attributes n :=
    h.within.confined.attributes n fun hI => hI.2 rfl
  have hattrs'' : s''.store.attributes n = s.store.attributes n :=
    hw.confined.attributes n fun hI => hI.2 rfl
  have hpending : s''.pending n = s'.pending n + 1 := by
    rw [Session.pending, Session.pending, hattrs', hattrs'']
    exact countP_raise (hs.nodup hkind) hm hlow hr
  have hfresh : ∀ f ∈ x.fallback, f ∉ s'.definitions.bodiesOf x.name := fun f hf hmem =>
    (hb.fallback f hf).1 (h.known x.name f hmem)
  refine ⟨hw, ?_, fun z c hc => ?_, fun k hk => ?_, ⟨fun k hk hkr => ?_, fun y hy f hf => ?_⟩,
    fun _ => .inl ?_⟩
  · rw [hpending, Function.iterate_succ_apply, hb.definitions]
    exact ((h.agrees.trans ((Definitions.unwind_push hfresh).iterate_unwind _))).mono
      fun _ => ⟨trivial, trivial⟩
  · rw [hb.definitions, Definitions.bodiesOf_push] at hc
    split at hc
    · rcases List.mem_append.mp hc with hc | hc
      · exact hb.within.confined.has (h.known z c hc)
      · exact (hb.fallback c (by simpa using hc)).2
    · exact hb.within.confined.has (h.known z c hc)
  · have hkm : k ≠ m := fun e => hk (e ▸ hm)
    rw [hr, ← h.raised k hk]
    simp [hkm]
  · rw [hr, Bool.or_eq_true] at hkr
    rcases hkr with hkm | hkr
    · obtain rfl : k = m := by simpa using hkm
      exact hret.mono hb.within.confined
    · refine (h.leavable.returns k ?_ hkr).mono hb.within.confined
      rwa [hattrs', ← hattrs'']
  · rw [hpending, hb.definitions, Definitions.active_push, List.take_succ_cons] at hy
    rcases List.mem_cons.mp hy with rfl | hy
    · obtain ⟨hnew, hhas⟩ := hb.fallback f hf
      exact ⟨hs.tidy.fresh f fun e => hnew (h.within.confined.has e), hhas⟩
    · obtain ⟨hR, hhas⟩ := h.leavable.fallback y hy f hf
      exact ⟨hR, hb.within.confined.has hhas⟩
  · rw [hb.definitions]
    rcases h.cheaper trivial with hlt | ⟨-, hagree⟩
    · exact hdepth.trans hlt
    · exact depth_eq hagree trivial ▸ hdepth

theorem interior_of_parent? (hw : s.store.WellFormed) (h : s.store.parent? m = some n) :
    s.store.Interior n m :=
  ⟨.inl (.of_parent? h), fun e => hw.grounded.not_above_of_parent? h (e ▸ .refl _)⟩

theorem depth_use {d : Definitions} {x : Expansion} (hx : x.nested = false)
    (hname : x.name ∈ d.available) : depth (d.push x) < depth d :=
  Prod.Lex.toLex_lt_toLex.mpr (.inl (Definitions.card_available_push hx hname))

theorem depth_parent {d : Definitions} {x : Expansion} (ha : (d.push x).available = d.available)
    (hr : (d.push x).remaining < d.remaining) : depth (d.push x) < depth d :=
  Prod.Lex.toLex_lt_toLex.mpr (.inr ⟨congrArg Finset.card ha, hr⟩)

theorem usedProperty_ne : ("macro:used" : Text) ≠ Code.Properties.postprocess := by decide

theorem useElement_yields {d : Dialect} (hs : Sound n s) (hel : s.store.isElement n)
    (hret : Returns env s.store n) :
    (useElement d n).Yields s fun r s' => Entered env True n s s' ∧ r = s'.store.queue? n := by
  have hkind : s.store.kind? n ≠ some .attr := by simp [Store.kind?_of_isElement hel]
  have hstart : Entered env True n s s := .refl hs hkind
  refine .bind (Work.extract_yields fun attrs => .bind ?_)
  refine (expand_yields hs.tidy hel (fun m => interior_of_parent? hs.wellFormed) (.inr rfl)).imp
    fun r s₁ hs₁ => ?_
  split
  · rename_i hr
    rw [if_pos hr] at hs₁
    obtain ⟨⟨x, hb, ⟨hx, -⟩, hname⟩, hprops⟩ := hs₁
    refine .bind (Work.requestReturn_yields (.bind (Work.setProperty_yields ?_)))
    refine Work.enqueueChildren_yields ⟨?_, rfl⟩
    refine hstart.push hs hkind (by simp) (hs.not_raised hkind (by simp)) hret
      (hb.congr (by simp) (by simp)) (fun k => ?_) (depth_use hx hname)
    rw [Session.raised_setProperty usedProperty_ne, Session.raised_raise, Session.raised, hprops,
      Session.raised]
  · rename_i hr
    rw [if_neg hr] at hs₁
    subst hs₁
    exact Work.enqueueChildren_yields ⟨hstart, rfl⟩

theorem parentElement_yields (hs : Sound n s) (hel : s.store.isElement n)
    (hret : Returns env s.store n) : (expandParent n).Yields s fun r s' =>
      Entered env True n s s' ∧ (r = none ∨ r = s'.store.queue? n) := by
  have hkind : s.store.kind? n ≠ some .attr := by simp [Store.kind?_of_isElement hel]
  have hstart : Entered env True n s s := .refl hs hkind
  refine (expandParent_yields hs.tidy hel (.inr rfl)).imp fun r s' hs' => ?_
  rcases hs' with ⟨rfl, rfl⟩ | ⟨x, hb, hr, hq, ha, hrem⟩
  · exact ⟨hstart, .inl rfl⟩
  · exact ⟨hstart.push hs hkind (by simp) (hs.not_raised hkind (by simp)) hret hb hr
      (depth_parent ha hrem), .inr hq⟩

theorem macroElement_yields {d : Dialect} (hs : Sound n s) (hkind : s.store.kind? n ≠ some .attr) :
    (define d n).Yields s fun _ s' => Entered env False n s s' := by
  refine (define_yields hs.tidy).imp fun _ s' hs' => ?_
  obtain ⟨hw, hprops, hactive, huses, hbodies⟩ := hs'
  have hraised : ∀ m, s'.raised m = s.raised m := fun m => by
    rw [Session.raised, hprops, Session.raised]
  have hattrs : s'.store.attributes n = s.store.attributes n :=
    hw.confined.attributes n fun hI => hI.2 rfl
  have hpending : s'.pending n = 0 := by
    rw [Session.pending, hattrs, List.countP_eq_zero]
    intro m hm
    rw [hraised, hs.not_raised hkind hm]
    simp
  refine ⟨hw, ?_, fun z c hc => ?_, fun m _ => hraised m, ⟨fun m hm hr => ?_, ?_⟩,
    fun hfalse => hfalse.elim⟩
  · rw [hpending]
    exact ⟨hactive, huses, fun hfalse => hfalse.elim⟩
  · rcases hbodies z c hc with hc | rfl
    · exact hw.confined.has (hs.known z c hc)
    · exact hw.confined.has hs.has
  · rw [hraised, hs.not_raised hkind (hattrs ▸ hm)] at hr
    cases hr
  · rw [hpending]
    simp

theorem useAttribute_yields (h : Entered env True n s s') (hs : Sound n s)
    (hel : s.store.isElement n) (ha : a ∈ s.store.attributes n) (hlow : s'.raised a = false)
    (hret : Returns env s'.store a) : (useAttribute n a).Yields s' fun _ s'' =>
      Entered env True n s s'' ∧ ∀ k, k ≠ a → s''.raised k = s'.raised k := by
  have hkind : s.store.kind? n ≠ some .attr := by simp [Store.kind?_of_isElement hel]
  refine .bind (Work.store_yields ?_)
  dsimp only
  split
  · exact Work.fail_yields
  split
  · exact Work.fail_yields
  refine .bind ((expand_yields h.within.tidy
    (h.within.confined.isElement hel)
    (children_within h.within fun m => interior_of_parent? hs.wellFormed) (.inr rfl)).imp
    fun r s₁ hs₁ => ?_)
  split
  · rename_i hr
    rw [if_pos hr] at hs₁
    obtain ⟨⟨x, hb, ⟨hx, -⟩, hname⟩, hprops⟩ := hs₁
    refine .bind (Work.requestReturn_yields (Work.setProperty_yields ?_))
    have hraised : ∀ t k, ((s₁.raise a).setProperty n "macro:used" (.text t)).raised k =
        (k == a || s'.raised k) := fun t k => by
      rw [Session.raised_setProperty usedProperty_ne, Session.raised_raise, Session.raised, hprops,
        Session.raised]
    refine ⟨h.push hs hkind (by simp [ha]) hlow hret (hb.congr (by simp) (by simp)) (hraised _)
      (depth_use hx hname), fun k hk => ?_⟩
    rw [hraised]
    simp [hk]
  · rename_i hr
    rw [if_neg hr] at hs₁
    subst hs₁
    exact .pure ⟨h, fun _ _ => rfl⟩

/-- Offering the attributes of an ordinary element. -/
theorem offerAttributes_yields (henv : Spoken env) (hs : Sound n s) (hel : s.store.isElement n) :
    (Stage.offerAttributes env n).Yields s fun _ s' => Entered env True n s s' := by
  have hkind : s.store.kind? n ≠ some .attr := by simp [Store.kind?_of_isElement hel]
  refine .bind (Work.store_yields ?_)
  refine (Action.Yields.forM (I := fun rest s' => Entered env True n s s' ∧
    rest.Nodup ∧ ∀ a ∈ rest, a ∈ s.store.attributes n ∧ s'.raised a = false)
    (fun a rest s' hI => ?_) _ ⟨.refl hs hkind, hs.owned.nodup n, fun a ha => ⟨ha, ?_⟩⟩).imp
    fun _ s' hs' => hs'.1
  · obtain ⟨hentered, hnodup, hrest⟩ := hI
    obtain ⟨ha, hlow⟩ := hrest a (by simp)
    have hkept : ∀ c ∈ rest, c ∈ s.store.attributes n ∧ s'.raised c = false := fun c hc =>
      hrest c (by simp [hc])
    have hattr := hentered.within.confined.kind? a _ (hs.owned.kind n a ha)
    rw [Store.kind?_eq_map_tag?] at hattr
    obtain ⟨⟨kind, uri, name⟩, htag, rfl⟩ := Option.map_eq_some_iff.mp hattr
    refine .bind (attributeHooks?_yields htag rfl ?_)
    split
    · rename_i hooks hhooks
      obtain rfl := henv.attributes uri name hooks hhooks
      refine Work.atNode_yields ((useAttribute_yields hentered hs hel ha hlow
        (.ofAttribute uri name _ htag hhooks fun _ _ => rfl)).imp fun _ s'' hs'' => ?_)
      refine ⟨hs''.1, (List.nodup_cons.mp hnodup).2, fun c hc => ⟨(hkept c hc).1, ?_⟩⟩
      rw [hs''.2 c fun e => (List.nodup_cons.mp hnodup).1 (e ▸ hc)]
      exact (hkept c hc).2
    · exact .pure ⟨hentered, (List.nodup_cons.mp hnodup).2, hkept⟩
  · exact hs.not_raised hkind (by simp [ha])

/-- The elements that bring something new: definitions, or the content of other templates. -/
def brings (id : Int) (n : NodeId) (s : Session) : Bool := isNamed s.store n id ["macro", "load"]

theorem isNamed_macro_of_brings {id : Int} (h : brings id n s = false) :
    isNamed s.store n id ["macro"] = false := by
  rw [brings, isNamed] at h
  rw [isNamed]
  cases hd : s.store.element? n with
  | none => rfl
  | some d =>
    rw [hd] at h
    by_contra hmacro
    obtain ⟨huri, hname⟩ : d.uri = some id ∧ d.name = "macro" := by simpa using hmacro
    simp [huri, hname] at h

/-- What holds after a `load` was replaced by other nodes, which are visited next. -/
structure Loaded (n : NodeId) (s : Session) (inner : List NodeId) (s' : Session) : Prop where
  onTree : s.OnTree (s.store.Region n) (s.store.parent? n) s'
  nodup : inner.Nodup
  new (c : NodeId) : c ∈ inner → ¬ s.store.Has c
  parent? (c : NodeId) : c ∈ inner →
    ∃ p, s.store.parent? n = some p ∧ s'.store.parent? c = some p

section Hooks

variable {d : Tree.ElementData}

theorem nameOf_eq (hd : s.store.element? n = some d) : nameOf s.store n = d.name := by
  rw [nameOf, hd]
  rfl

theorem brings_of_name {id : Int} (hd : s.store.element? n = some d) (hid : d.uri = some id)
    (hname : d.name = "macro" ∨ d.name = "load") : brings id n s = true := by
  rw [brings, isNamed, hd]
  rcases hname with hname | hname <;> simp [hid, hname]

theorem definitionElement_yields (hs : Sound n s) (hd : s.store.element? n = some d)
    (hid : d.uri = some (namespaceIdOf env.dialect)) (hret : Returns env s.store n) :
    ((definitionElement env.dialect).enter n).Yields s fun r s' =>
      Entered env (isNamed s.store n (namespaceIdOf env.dialect) ["macro"] = false) n s s' ∧
        (r = none ∨ r = s'.store.queue? n) := by
  have hel : s.store.isElement n := by rw [Store.isElement, hd]; rfl
  have hkind : s.store.kind? n ≠ some .attr := by simp [Store.kind?_of_isElement hel]
  refine .bind (Work.store_yields ?_)
  dsimp only
  rw [nameOf_eq hd]
  split
  · rename_i hname
    refine .bind ((macroElement_yields hs hkind).imp fun _ s' hs' => .pure ⟨hs'.mono ?_, .inl rfl⟩)
    simp [isNamed, hd, hid, hname]
  split
  · exact (useElement_yields hs hel hret).imp fun r s' hs' =>
      ⟨hs'.1.mono fun _ => trivial, .inr hs'.2⟩
  split
  · exact (parentElement_yields hs hel hret).imp fun r s' hs' =>
      ⟨hs'.1.mono fun _ => trivial, hs'.2⟩
  · exact .pure ⟨.refl hs hkind, .inl rfl⟩

theorem templateElement_yields (hs : Sound n s) (hd : s.store.element? n = some d)
    (hid : d.uri = some (namespaceIdOf env.dialect)) :
    ((templateElement env.dialect).enter n).Yields s fun r s' =>
      (s' = s ∧ r = s'.store.queue? n) ∨
        brings (namespaceIdOf env.dialect) n s = true ∧ Loaded n s (r.getD []) s' := by
  refine .bind (Work.store_yields ?_)
  rw [nameOf_eq hd]
  split
  · rename_i hname
    refine (load_yields hs.wellFormed hs.owned).imp fun r s' hs' => .inr ⟨?_, ?_⟩
    · exact brings_of_name hd hid (.inr hname)
    · exact ⟨hs'.1, hs'.2.1, fun c hc => (hs'.2.2 c hc).1, fun c hc => (hs'.2.2 c hc).2⟩
  · exact Work.enqueueChildren_yields (.inl ⟨rfl, rfl⟩)

end Hooks

/-- **Entering a node.** Only elements that define something add a definition that stays. -/
theorem manipulate_enters (henv : Spoken env) (hs : Sound n s)
    (hkind : s.store.kind? n ≠ some .attr) :
    (Stage.manipulate env n).Yields s fun r s' =>
      (Entered env (isNamed s.store n (namespaceIdOf env.dialect) ["macro"] = false) n s s' ∧
        (r = none ∨ r = s'.store.queue? n)) ∨
      brings (namespaceIdOf env.dialect) n s = true ∧ Loaded n s (r.getD []) s' := by
  have hstart : ∀ b, Entered env b n s s := fun b => .refl hs hkind
  refine .bind (Work.store_yields ?_)
  split
  · exact Work.enqueueChildren_yields (.inl ⟨hstart _, .inr rfl⟩)
  · rename_i d hpay
    have hd : s.store.element? n = some d := by rw [Store.element?, hpay]
    split
    · have htag : s.store.tag? n = some (.element, d.uri, d.name) := by
        rw [Store.tag?, hpay]
        rfl
      refine .bind (elementHooks?_yields htag rfl ?_)
      split
      · exact .pure (.inl ⟨hstart _, .inl rfl⟩)
      · rename_i hooks hhooks
        refine Work.atNode_yields ?_
        obtain ⟨hid, rfl | rfl | rfl⟩ := henv.elements d.uri d.name hooks hhooks
        · exact (definitionElement_yields hs hd hid
            (.ofElement _ _ _ htag hhooks fun _ => rfl)).imp fun _ _ hs' => .inl hs'
        · refine (templateElement_yields hs hd hid).imp fun r s' hs' => ?_
          rcases hs' with ⟨rfl, hr⟩ | hs'
          · exact .inl ⟨hstart _, .inr hr⟩
          · exact .inr hs'
        · exact Work.enqueueChildren_yields (.inl ⟨hstart _, .inr rfl⟩)
    · have hel : s.store.isElement n := by rw [Store.isElement, hd]; rfl
      refine .bind ((offerAttributes_yields henv hs hel).imp fun _ s' hs' => ?_)
      exact Work.enqueueChildren_yields (.inl ⟨hs'.mono fun _ => trivial, .inr rfl⟩)
  · exact .pure (.inl ⟨hstart _, .inl rfl⟩)

/-- Only elements that bring something new change the definitions. -/
theorem manipulate_yields (henv : Spoken env) (hs : Sound n s)
    (hkind : s.store.kind? n ≠ some .attr) :
    (Stage.manipulate env n).Yields s fun r s' =>
      (Entered env (brings (namespaceIdOf env.dialect) n s = false) n s s' ∧
        (r = none ∨ r = s'.store.queue? n)) ∨
      brings (namespaceIdOf env.dialect) n s = true ∧ Loaded n s (r.getD []) s' :=
  (manipulate_enters henv hs hkind).imp fun _ _ hs' => hs'.imp_left fun hent =>
    ⟨hent.1.mono isNamed_macro_of_brings, hent.2⟩

end Language

end Stencil
