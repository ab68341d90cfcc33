import Stencil.Proofs.Language.Visit
import Stencil.Proofs.Tree.Consistency
import Stencil.Proofs.Tree.Steps

/-!
# When expansion ends

Expanding definitions adds content to a tree while it is walked over, and content may define
something again. The stage that changes the tree ends if and only if the walk meets a bounded number
of elements that bring something new: definitions and `load`s (`manipulation_ends_iff`). With no
more of them, every expansion uses something up, and without expansions the walk goes down a tree.

The proof follows the walk. Visiting a node leaves things as they were, up to what is below the node
(`Settled`), or the walk ends on the way, or it meets more new elements than a given budget allows.
That is shown by induction on the budget, on what is left for expansions to use up, and on the
number of nodes below the node, in this order.

## Main definitions

* `Language.Settled` – what a visit leaves as it was
* `Language.cost` – what goes down from a visit to those within it

## Main results

* `Language.row_leads`, `Language.visit_leads` – visiting siblings, and a node
* `Language.manipulation_ends_iff` – when the stage ends
-/

namespace Stencil

open Stencil.Tree (NodeId Operation Store Visitor Walk)
open Stencil.Tree.Store (Tidy Within)
open Definitions (Agrees)

namespace Language

variable {env : Stage.Environment} {s s' s'' : Session} {R R' : NodeId → Prop}
  {anchor anchor' : Option NodeId} {n m p : NodeId} {b b' : Prop} {B : Nat}

/-! ### What a visit leaves as it was -/

/-- Nodes have changed within a region, the same expansions are under way, and the same flags are
raised. The definitions are the same if `b` holds. -/
structure Settled (R : NodeId → Prop) (anchor : Option NodeId) (b : Prop) (s s' : Session) :
    Prop where
  within : Within R anchor s.store s'.store
  agrees : Agrees b s.definitions s'.definitions
  known : s'.Known
  raised (m : NodeId) : s'.raised m = s.raised m

namespace Settled

protected theorem refl (h : Tidy R anchor s.store) (hk : s.Known) : Settled R anchor b s s :=
  ⟨h.within, .refl _, hk, fun _ => rfl⟩

protected theorem trans (h₁ : Settled R anchor b s s') (h₂ : Settled R anchor b' s' s'') :
    Settled R anchor (b ∧ b') s s'' :=
  ⟨h₁.within.trans h₂.within, h₁.agrees.trans h₂.agrees, h₂.known,
    fun m => (h₂.raised m).trans (h₁.raised m)⟩

theorem mono (h : Settled R anchor b s s') (hb : b' → b) : Settled R anchor b' s s' :=
  ⟨h.within, h.agrees.mono hb, h.known, h.raised⟩

/-- A visit to a node of a region stays in the region. -/
theorem inner (h : Settled (s.store.Region n) (s.store.parent? n) b s s')
    (ht : Tidy R anchor s.store) (hn : R n) : Settled R anchor b s s' :=
  ⟨h.within.inner ht hn, h.agrees, h.known, h.raised⟩

end Settled

/-- What goes down from a visit to those within it: the budget, then what expansions can use up,
then the extent of the node. -/
noncomputable def cost (B : Nat) (s : Session) (n : NodeId) : ℕ ×ₗ ((ℕ ×ₗ ℕ) ×ₗ ℕ) :=
  toLex (B, toLex (depth s.definitions, s.store.extent n))

theorem cost_lt_of_budget {B' : Nat} (h : B' < B) : cost B' s' m < cost B s n :=
  Prod.Lex.toLex_lt_toLex.mpr (.inl h)

theorem cost_lt_of_depth (h : depth s'.definitions < depth s.definitions) :
    cost B s' m < cost B s n :=
  Prod.Lex.toLex_lt_toLex.mpr (.inr ⟨rfl, Prod.Lex.toLex_lt_toLex.mpr (.inl h)⟩)

theorem cost_lt_of_extent (h : depth s'.definitions = depth s.definitions)
    (he : s'.store.extent m < s.store.extent n) : cost B s' m < cost B s n :=
  Prod.Lex.toLex_lt_toLex.mpr (.inr ⟨rfl, Prod.Lex.toLex_lt_toLex.mpr (.inr ⟨h, he⟩)⟩)

/-- A visit leads to where it began, one node further, with things as they were. -/
def Visits (env : Stage.Environment) (B : Nat) (s : Session) (n : NodeId) : Prop :=
  ∀ queue stack, (Stage.manipulation env).Leads (brings (namespaceIdOf env.dialect)) B
    ⟨n :: queue, stack, s⟩ fun B' w => ∃ s', w = ⟨queue, stack, s'⟩ ∧
      Settled (s.store.Region n) (s.store.parent? n) (B' = B) s s'

/-! ### Siblings -/

/-- What is needed to visit siblings one after the other. -/
structure Row (R : NodeId → Prop) (anchor : Option NodeId) (p : NodeId) (row : List NodeId)
    (s : Session) : Prop where
  tidy : Tidy R anchor s.store
  known : s.Known
  quiet : s.Quiet R
  nodup : row.Nodup
  mem (c : NodeId) : c ∈ row → R c
  parent? (c : NodeId) : c ∈ row → s.store.parent? c = some p

theorem Row.sound {row : List NodeId} (h : Row R anchor p row s) (hn : n ∈ row) : Sound n s where
  wellFormed := h.tidy.wellFormed
  owned := h.tidy.owned
  has := Store.has_of_parent? (h.parent? n hn)
  known := h.known
  quiet := h.quiet.mono fun _ => h.tidy.region_le (h.mem n hn)

/-- After the first sibling was visited, the others are as they were. -/
theorem Row.tail {row : List NodeId} (h : Row R anchor p (n :: row) s)
    (hs : Settled (s.store.Region n) (s.store.parent? n) b s s') :
    Row R anchor p row s' ∧ ∀ c ∈ row, s'.store.extent c = s.store.extent c := by
  have hR := hs.inner h.tidy (h.mem n (by simp))
  have hnp := h.parent? n (by simp)
  have hne : ∀ c ∈ row, c ≠ n := fun c hc e => (List.nodup_cons.mp h.nodup).1 (e ▸ hc)
  refine ⟨⟨hR.within.tidy, hR.known, h.quiet.within hR.within hR.raised,
    (List.nodup_cons.mp h.nodup).2, fun c hc => h.mem c (by simp [hc]), fun c hc => ?_⟩,
    fun c hc => ?_⟩
  · have hcp := h.parent? c (by simp [hc])
    rw [hs.within.confined.parent? c
      (h.tidy.wellFormed.not_region_sibling hnp hcp (hne c hc)), hcp]
  · exact hs.within.extent_eq h.tidy.wellFormed h.tidy.owned hnp (h.parent? c (by simp [hc]))
      (hne c hc)

/-- **Siblings are visited one after the other.** -/
theorem row_leads {M : ℕ ×ₗ ((ℕ ×ₗ ℕ) ×ₗ ℕ)} {row : List NodeId}
    {stack : List (NodeId × List NodeId)}
    (ih : ∀ B s n, cost B s n < M → Sound n s → Visits env B s n) (h : Row R anchor p row s)
    (hcost : ∀ c ∈ row, cost B s c < M) :
    (Stage.manipulation env).Leads (brings (namespaceIdOf env.dialect)) B ⟨row, stack, s⟩
      fun B' w => ∃ s', w = ⟨[], stack, s'⟩ ∧ B' ≤ B ∧ Settled R anchor (B' = B) s s' := by
  induction row generalizing B s with
  | nil => exact .here ⟨s, rfl, Nat.le_refl B, .refl h.tidy h.known⟩
  | cons n row ihrow =>
    refine (ih B s n (hcost n (by simp)) (h.sound (by simp)) row stack).bind fun B' w hB hw => ?_
    obtain ⟨s', rfl, hs'⟩ := hw
    obtain ⟨hrow, hextent⟩ := h.tail hs'
    have hcost' : ∀ c ∈ row, cost B' s' c < M := by
      intro c hc
      refine lt_of_le_of_lt ?_ (hcost c (by simp [hc]))
      rcases Nat.lt_or_eq_of_le hB with hlt | rfl
      · exact (cost_lt_of_budget hlt).le
      · rw [cost, cost, hextent c hc, depth_eq hs'.agrees rfl]
    refine (ihrow hrow hcost').bind fun B'' w _ hw => .here ?_
    obtain ⟨s'', rfl, hB', hs''⟩ := hw
    refine ⟨s'', rfl, hB'.trans hB, ((hs'.inner h.tidy (h.mem n (by simp))).trans hs'').mono ?_⟩
    omega

/-! ### Within an entered node -/

theorem not_interior (n : NodeId) (t : Store) : ¬ t.Interior n n := fun h => h.2 rfl

theorem Entered.attributes_eq (h : Entered env b n s s') :
    s'.store.attributes n = s.store.attributes n :=
  h.within.confined.attributes n (not_interior n s.store)

/-- The flags that were raised on entering a node are its own. -/
theorem Entered.quiet (h : Entered env b n s s') (hs : Sound n s)
    (hkind : s.store.kind? n ≠ some .attr) : s'.Quiet (s.store.Interior n) := by
  intro m hm
  by_cases hmem : m ∈ n :: s.store.attributes n
  · refine ⟨n, not_interior n s.store, ?_, ?_⟩
    · rcases List.mem_cons.mp hmem with rfl | hmem'
      · cases h.leavable.returns m (by simp) hm with
        | ofElement uri name hooks htag => exact Store.isElement_iff_tag?.mpr ⟨_, htag⟩
        | ofAttribute uri name hooks htag =>
          obtain ⟨tag, htag'⟩ := hs.has.exists_tag?
          have htags := h.within.confined.tag? m tag htag'
          rw [htag] at htags
          refine absurd ?_ hkind
          rw [Store.kind?_eq_map_tag?, htag', ← Option.some.inj htags]
          rfl
      · refine h.within.confined.isElement ?_
        by_contra hel
        rw [Store.attributes_of_not_element (by simpa [Store.isElement] using hel)] at hmem'
        cases hmem'
    · rwa [h.attributes_eq, ← List.mem_cons]
  · obtain ⟨e, he, hel, hme⟩ := hs.quiet m (h.raised m hmem ▸ hm)
    have he' : ¬ s.store.Interior n e := fun hI => he hI.1
    refine ⟨e, he', h.within.confined.isElement hel, ?_⟩
    rwa [h.within.confined.attributes e he']

/-- The children of an entered node can be visited. -/
theorem Entered.row (h : Entered env b n s s') (hs : Sound n s)
    (hkind : s.store.kind? n ≠ some .attr) :
    Row (s.store.Interior n) (some n) n (s'.store.children n) s' where
  tidy := h.within.tidy
  known := h.known
  quiet := h.quiet hs hkind
  nodup := h.within.tidy.wellFormed.linked.nodup n
  mem c hc := children_within h.within (fun _ => interior_of_parent? hs.wellFormed) c
    (h.within.tidy.wellFormed.mem_children.mp hc)
  parent? _ hc := h.within.tidy.wellFormed.mem_children.mp hc

theorem Entered.cost_lt (h : Entered env True n s s') (hs : Sound n s) {c : NodeId}
    (hc : c ∈ s'.store.children n) : cost B s' c < cost B s n := by
  rcases h.cheaper trivial with hlt | ⟨hstore, hagree⟩
  · exact cost_lt_of_depth hlt
  · refine cost_lt_of_extent (depth_eq hagree trivial) ?_
    have hc' := h.within.tidy.wellFormed.mem_children.mp hc
    rw [hstore] at hc' ⊢
    exact hs.wellFormed.extent_lt hc'

theorem mem_bodiesOf_iterate_unwind {d : Definitions} {z : Text} {k : Nat}
    (h : m ∈ (Definitions.unwind^[k] d).bodiesOf z) : m ∈ d.bodiesOf z := by
  induction k generalizing d with
  | zero => exact h
  | succ k ih => exact Definitions.mem_bodiesOf_unwind (ih h)

/-- What is visited below a node does not change which flags are raised on it. -/
theorem Settled.pending_eq (hset : Settled (s.store.Interior n) (some n) b s' s'') :
    s''.pending n = s'.pending n := by
  have hattrs : s''.store.attributes n = s'.store.attributes n :=
    hset.within.confined.attributes n (not_interior n s.store)
  rw [Session.pending, hattrs, Session.pending]
  exact List.countP_congr fun m _ => by rw [hset.raised]

/-- When an entered node is left, it and its attributes are asked for their flags. -/
theorem Entered.leaving (h : Entered env b n s s') (hs : Sound n s)
    (hkind : s.store.kind? n ≠ some .attr)
    (hset : Settled (s.store.Interior n) (some n) b' s' s'') :
    (Stage.leave env .manipulation n).Yields s'' fun _ s₃ =>
      Leaving (s.store.Interior n) (some n) (n :: s''.store.attributes n) s'' s₃ := by
  have hw := h.within.trans hset.within
  have hkind' : s''.store.kind? n ≠ some .attr := by
    obtain ⟨k, hk⟩ := hs.has.exists_kind?
    rw [hw.confined.kind? n k hk, ← hk]
    exact hkind
  refine leave_yields hw.tidy (not_interior n s.store) hkind' ⟨fun m hm hr => ?_,
    fun x hx f hf => ?_⟩
  · rw [hset.within.confined.attributes n (not_interior n s.store)] at hm
    exact (h.leavable.returns m hm (hset.raised m ▸ hr)).mono hset.within.confined
  · rw [hset.pending_eq, hset.agrees.active] at hx
    obtain ⟨hR, hhas⟩ := h.leavable.fallback x hx f hf
    exact ⟨hR, hset.within.confined.has hhas⟩

/-- Leaving a node ends what began when it was entered. -/
theorem Entered.leave (h : Entered env b n s s') (hs : Sound n s)
    (hkind : s.store.kind? n ≠ some .attr)
    (hset : Settled (s.store.Interior n) (some n) b' s' s'') :
    (Stage.leave env .manipulation n).Yields s'' fun _ s₃ =>
      Settled (s.store.Region n) (s.store.parent? n) (b ∧ b') s s₃ := by
  have hattrs : s''.store.attributes n = s.store.attributes n :=
    (hset.within.confined.attributes n (not_interior n s.store)).trans h.attributes_eq
  have hw := h.within.trans hset.within
  refine (h.leaving hs hkind hset).imp fun _ s₃ hl => ?_
  refine ⟨(hw.trans hl.within).widen (hs.wellFormed.tidy_region hs.owned n) (fun m hm => hm.1)
    fun q hq => .inl ?_, ?_, fun z c hc => ?_, fun m => ?_⟩
  · obtain rfl := Option.some.inj hq
    exact .inl (.refl n)
  · have hd : s₃.definitions = Definitions.unwind^[s'.pending n] s''.definitions := by
      rw [hl.definitions, ← hset.pending_eq]
      rfl
    rw [hd]
    exact h.agrees.trans (hset.agrees.iterate_unwind _)
  · rw [hl.definitions] at hc
    exact hl.within.confined.has (hset.known z c (mem_bodiesOf_iterate_unwind hc))
  · rw [hl.raised, hset.raised, hattrs]
    by_cases hm : m ∈ n :: s.store.attributes n
    · rw [hs.not_raised hkind hm]
      simp [hm]
    · rw [h.raised m hm]
      simp [hm]

/-! ### In place of a `load` -/

theorem Loaded.raised {inner : List NodeId} (h : Loaded n s inner s') (m : NodeId) :
    s'.raised m = s.raised m := by
  obtain ⟨t, rfl, -⟩ := h.onTree
  rfl

theorem Loaded.definitions {inner : List NodeId} (h : Loaded n s inner s') :
    s'.definitions = s.definitions := by
  obtain ⟨t, rfl, -⟩ := h.onTree
  rfl

theorem Loaded.settled {inner : List NodeId} (h : Loaded n s inner s') (hs : Sound n s) :
    Settled (s.store.Region n) (s.store.parent? n) b s s' where
  within := h.onTree.within
  agrees := h.definitions ▸ .refl _
  known z c hc := h.onTree.within.confined.has (hs.known z c (h.definitions ▸ hc))
  raised := h.raised

/-- What took the place of a `load` can be visited. -/
theorem Loaded.exists_row {inner : List NodeId} (h : Loaded n s inner s') (hs : Sound n s) :
    ∃ p, Row (s.store.Region n) (s.store.parent? n) p inner s' := by
  obtain ⟨p, hp⟩ : ∃ p, ∀ c ∈ inner, s'.store.parent? c = some p := by
    cases inner with
    | nil => exact ⟨n, by simp⟩
    | cons c inner =>
      obtain ⟨p, hp, -⟩ := h.parent? c (by simp)
      refine ⟨p, fun d hd => ?_⟩
      obtain ⟨q, hq, hdq⟩ := h.parent? d hd
      rw [hdq, ← hq, hp]
  exact ⟨p, h.onTree.within.tidy, (h.settled (b := True) hs).known,
    hs.quiet.within h.onTree.within h.raised, h.nodup, fun c hc => .inr (h.new c hc), hp⟩

/-- Leaving a `load` that is no longer there changes nothing. -/
theorem leave_settled (hs : Sound n s) (hkind : s.store.kind? n ≠ some .attr)
    (hset : Settled (s.store.Region n) (s.store.parent? n) b s s') :
    (Stage.leave env .manipulation n).Yields s' fun _ s'' =>
      Settled (s.store.Region n) (s.store.parent? n) b s s'' := by
  have hw := hset.within
  have hquiet : s'.Quiet (s.store.Region n) := hs.quiet.within hw hset.raised
  have hn : s.store.Region n n := .inl (.refl n)
  have hkind' : s'.store.kind? n ≠ some .attr := by
    obtain ⟨k, hk⟩ := hs.has.exists_kind?
    rw [hw.confined.kind? n k hk, ← hk]
    exact hkind
  have hlow : ∀ m ∈ n :: s'.store.attributes n, s'.raised m = false := fun m hm =>
    hquiet.not_raised hw.tidy.owned hn hkind' hm
  have hpending := hquiet.pending_eq_zero hw.tidy.owned hn hkind'
  have hleavable : Leavable env (fun m => ¬ s'.store.Has m) n s' := by
    refine ⟨fun m hm hr => ?_, fun x hx => ?_⟩
    · rw [hlow m hm] at hr
      cases hr
    · rw [hpending] at hx
      simp at hx
  refine (leave_yields (hw.tidy.wellFormed.tidy_new hw.tidy.owned none)
    (not_not.mpr (hw.confined.has hs.has)) hkind' hleavable).imp fun _ s'' hl => ?_
  have hd : s''.definitions = s'.definitions := by
    rw [hl.definitions]
    exact congrArg (fun k => Definitions.unwind^[k] s'.definitions) hpending
  refine ⟨hw.trans (hl.within.widen hw.tidy hw.tidy.fresh (by simp)), hd ▸ hset.agrees,
    fun z c hc => hl.within.confined.has (hset.known z c (hd ▸ hc)), fun m => ?_⟩
  rw [hl.raised, ← hset.raised]
  by_cases hm : m ∈ n :: s'.store.attributes n
  · rw [hlow m hm, Bool.and_false]
  · simp [hm]

/-! ### Visiting a node -/

/-- Attributes are refused, and all other nodes are entered. -/
theorem visit_cases (env : Stage.Environment) (n : NodeId) (s : Session) :
    (∃ e, (Stage.manipulation env).visit n s = (.error (.ofTree e), s)) ∨
    s.store.kind? n ≠ some .attr ∧
    (Stage.manipulation env).visit n s = Stage.manipulate env n s := by
  rw [Visitor.visit]
  split
  · exact .inl ⟨_, rfl⟩
  · rename_i hattr
    refine .inr ⟨fun hk => ?_, rfl⟩
    obtain ⟨payload, hpay, hkind⟩ := Option.map_eq_some_iff.mp hk
    cases payload with
    | attr a => exact hattr a hpay
    | _ => simp [Tree.Payload.nodeKind] at hkind

/-- What is entered is no attribute. -/
theorem visit_ok {r : Option (List NodeId)}
    (h : (Stage.manipulation env).visit n s = (.ok r, s')) :
    s.store.kind? n ≠ some .attr ∧ Stage.manipulate env n s = (.ok r, s') := by
  rcases visit_cases env n s with ⟨e, hfail⟩ | ⟨hkind, hman⟩
  · cases hfail.symm.trans h
  · exact ⟨hkind, hman ▸ h⟩

/-- The number of new elements that a visit meets at the node itself. -/
def brought (env : Stage.Environment) (n : NodeId) (s : Session) : Nat :=
  if brings (namespaceIdOf env.dialect) n s then 1 else 0

/-- A node was entered with the budget `B`, what it asked for was visited, and the budget `B'` is
left. -/
structure Inside (env : Stage.Environment) (B : Nat) (n : NodeId) (s : Session) (B' : Nat)
    (s'' : Session) : Prop where
  kind? : s.store.kind? n ≠ some .attr
  enough : brought env n s ≤ B
  budget : B' ≤ B - brought env n s
  settled : (∃ s', Entered env (brings (namespaceIdOf env.dialect) n s = false) n s s' ∧
      Settled (s.store.Interior n) (some n) (B' = B - brought env n s) s' s'') ∨
    brings (namespaceIdOf env.dialect) n s = true ∧
      Settled (s.store.Region n) (s.store.parent? n) False s s''

/-- Leaving the node completes the visit. -/
theorem Inside.leave {B' : Nat} (h : Inside env B n s B' s') (hs : Sound n s) :
    (Stage.leave env .manipulation n).Yields s' fun _ s'' =>
      Settled (s.store.Region n) (s.store.parent? n) (B' = B) s s'' := by
  have henough := h.enough
  have hbudget := h.budget
  rcases h.settled with ⟨s₁, hent, hset⟩ | ⟨hbrings, hset⟩
  · refine (hent.leave hs h.kind? hset).imp fun _ s'' hs'' => hs''.mono fun hB => ?_
    cases hb : brings (namespaceIdOf env.dialect) n s <;>
      simp [brought, hb] at henough hbudget ⊢ <;>
      omega
  · refine (leave_settled hs h.kind? hset).imp fun _ s'' hs'' => hs''.mono fun hB => ?_
    simp only [brought, hbrings, if_true] at henough hbudget
    omega

/-- Visiting what an entered node asks for. -/
theorem inside_leads {inner : List NodeId} {stack : List (NodeId × List NodeId)}
    (henv : Spoken env) (hs : Sound n s)
    (ih : ∀ B' s' m, cost B' s' m < cost B s n → Sound m s' → Visits env B' s' m)
    (hvisit : (Stage.manipulation env).visit n s = (.ok (some inner), s'))
    (hB : brought env n s ≤ B) :
    (Stage.manipulation env).Leads (brings (namespaceIdOf env.dialect)) (B - brought env n s)
      ⟨inner, stack, s'⟩ fun B' w => ∃ s'', w = ⟨[], stack, s''⟩ ∧ Inside env B n s B' s'' := by
  obtain ⟨hkind, hman⟩ := visit_ok hvisit
  have hless : brings (namespaceIdOf env.dialect) n s = true → B - brought env n s < B := by
    intro hb
    simp only [brought, hb, if_true] at hB ⊢
    omega
  rcases manipulate_yields henv hs hkind _ _ hman with ⟨hent, hr⟩ | ⟨hbrings, hload⟩
  · obtain rfl : inner = s'.store.children n := by
      rcases hr with hr | hr
      · cases hr
      · rw [Store.queue?] at hr
        split at hr
        · exact Option.some.inj hr
        · cases hr
    refine (row_leads ih (hent.row hs hkind) fun c hc => ?_).bind fun B' w _ hw => .here ?_
    · cases hb : brings (namespaceIdOf env.dialect) n s with
      | true => exact cost_lt_of_budget (hless hb)
      | false =>
        simp only [brought, hb]
        exact (hent.mono fun _ => hb).cost_lt hs hc
    · obtain ⟨s'', rfl, hle, hset⟩ := hw
      exact ⟨s'', rfl, hkind, hB, hle, .inl ⟨s', hent, hset⟩⟩
  · obtain ⟨p, hrow⟩ := hload.exists_row hs
    refine (row_leads ih hrow fun c hc => cost_lt_of_budget (hless hbrings)).bind
      fun B' w _ hw => .here ?_
    obtain ⟨s'', rfl, hle, hset⟩ := hw
    refine ⟨s'', rfl, hkind, hB, hle, .inr ⟨hbrings, ?_⟩⟩
    exact ((hload.settled (b := True) hs).trans hset).mono False.elim

/-- **A visit leaves things as they were**, or the walk ends or exceeds the budget on the way. -/
theorem visit_leads (henv : Spoken env) (B : Nat) (s : Session) (n : NodeId) (hs : Sound n s) :
    Visits env B s n := by
  -- from a visit to those within it the cost goes down
  induction hM : cost B s n using WellFoundedLT.induction generalizing B s n with
  | ind M ih =>
    subst hM
    intro queue stack
    refine Visitor.Leads.of_visit (P := fun B' s' => Inside env B n s B' s') rfl ?_ ?_ ?_
    · intro s' hvisit hB
      obtain ⟨hkind, hman⟩ := visit_ok hvisit
      refine ⟨hkind, hB, Nat.le_refl _, ?_⟩
      rcases manipulate_yields henv hs hkind _ _ hman with ⟨hent, -⟩ | ⟨hbrings, hload⟩
      · exact .inl ⟨s', hent, .refl hent.within.tidy hent.known⟩
      · exact .inr ⟨hbrings, hload.settled hs⟩
    · intro inner s' hvisit hB
      exact inside_leads henv hs (fun B' s' m hlt hs' => ih _ hlt B' s' m hs' rfl) hvisit hB
    · intro B' s' s'' hinside hleave
      exact ⟨s'', rfl, hinside.leave hs () s'' hleave⟩

/-! ### The stage -/

/-- The walk of the stage at its start. -/
def start (doc : NodeId) (s : Session) : Walk Session :=
  ⟨[doc], [], { s with trace := .start StageKind.manipulation.name :: s.trace }⟩

theorem exists_run_iff {doc : NodeId} :
    (∃ steps, Stage.run env .manipulation steps doc s ≠ none) ↔
      (Stage.manipulation env).Ends (start doc s) := by
  refine exists_congr fun steps => not_congr ?_
  rw [Stage.run, Visitor.walk]
  dsimp only [Stage.visitor, start]
  cases (Stage.manipulation env).loop steps [doc] []
    { s with trace := .start StageKind.manipulation.name :: s.trace } <;> simp

/-- **When the stage ends.** In a compiler for the language, the stage that changes the tree ends if
and only if the number of definitions and `load`s that its walk enters is bounded. -/
theorem manipulation_ends_iff [Encoding.Decoders] {config : Config} {c : Compiler}
    {r : Registry} {doc : NodeId}
    (hc : Compiler.withLanguage config = .ok c) (hr : c.setup = .ok r) (hs : Sound doc s) :
    (∃ steps, Stage.run ⟨c.dialect, r⟩ .manipulation steps doc s ≠ none) ↔
      ∃ B, ∀ k w, (Stage.manipulation ⟨c.dialect, r⟩).Reaches (brings (namespaceIdOf c.dialect))
        (start doc s) k w → k ≤ B := by
  rw [exists_run_iff]
  constructor
  · exact fun h => h.bounded
  · rintro ⟨B, hB⟩
    have hs' : Sound doc (start doc s).state :=
      ⟨hs.wellFormed, hs.owned, hs.has, hs.known, hs.quiet⟩
    have hleads := visit_leads (spoken_of_setup hc hr) B _ doc hs' [] []
    have hlast :=
      hleads.bind fun B' w _ hw => .here (Q := fun _ w => w.queue = [] ∧ w.stack = []) (by
      obtain ⟨s', rfl, -⟩ := hw
      exact ⟨rfl, rfl⟩)
    rcases hlast.ends_or_exceeds with hends | ⟨k, w, hreach, hk⟩
    · exact hends
    · exact absurd (hB k w hreach) (Nat.not_le.mpr hk)

/-! ### Definitions that bring themselves back -/

/-- A new element of the language. -/
def newElement (name : Text) (attrs : List (Text × NodeId)) : Operation :=
  .create (.element { qualifier := "d", name, uri := some 0, attrs := ⟨attrs⟩ }) false 0

/-- A new attribute with a fixed value. -/
def newAttribute (name value : Text) : Operation :=
  .create (.attr { qualifier := [], name, value := .literal value }) false 0

/-- A template that defines `b` as a definition of `a`, whose content uses `b` before `parent`:
every expansion of `a` adds the definition that its `parent` asks for. -/
def selfDefining : Session where
  store := Store.run [.create (.document { type := "xml", singleRoot := true }) false 0,
    newElement "template" [],
    newElement "macro" [("name", 3)], newAttribute "name" "b",
    newElement "macro" [("name", 5)], newAttribute "name" "a",
    newElement "use" [("macro", 7)], newAttribute "macro" "b", newElement "parent" [],
    newElement "use" [("macro", 10)], newAttribute "macro" "b",
    newElement "use" [("macro", 12)], newAttribute "macro" "a",
    .appendChild 0 (some 1), .appendChild 1 (some 2), .appendChild 2 (some 4),
    .appendChild 4 (some 6), .appendChild 4 (some 8), .appendChild 1 (some 9),
    .appendChild 1 (some 11)]

theorem sound_selfDefining : Sound 0 selfDefining where
  wellFormed := Store.wellFormed_run _
  owned := Store.owned_of_forall (by decide)
  has := by decide
  known z b hb := by cases hb
  quiet m hm := by simp [selfDefining, Session.raised, Code.Table.get?] at hm

/-- The template that brings its definitions back is one the theorem is about. -/
theorem selfDefining_ends_iff : ∃ c r, Compiler.withLanguage { maxSourceSize := [] } = .ok c ∧
    c.setup = .ok r ∧ Sound 0 selfDefining ∧
    ((∃ steps, Stage.run ⟨c.dialect, r⟩ .manipulation steps 0 selfDefining ≠ none) ↔
      ∃ B, ∀ k w, (Stage.manipulation ⟨c.dialect, r⟩).Reaches (brings (namespaceIdOf c.dialect))
        (start 0 selfDefining) k w → k ≤ B) := by
  obtain ⟨c, hc⟩ : ∃ c, Compiler.withLanguage { maxSourceSize := [] } = .ok c := ⟨_, rfl⟩
  obtain ⟨r, hr⟩ := exists_setup hc
  exact ⟨c, r, hc, hr, sound_selfDefining, manipulation_ends_iff hc hr sound_selfDefining⟩

end Language

end Stencil
