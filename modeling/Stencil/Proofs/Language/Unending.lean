import Stencil.Proofs.Language.Frames
import Mathlib.Data.List.Chain

/-!
# Names that lead back to themselves

While the stage that changes the tree is under way, the table of definitions lists the names in use.
Each of them is asked for by a use in the tree, and each use stands inside the one before it: in the
content that took the place of what the other element held, or at the same element, if several of
its attributes use something (`Session.Nests`). So the list is a path down the tree, from the use
that began first to the innermost one.

A walk fails for a name that leads back to itself only at a use which is the next on this path and
asks for a name that is on it already (`Session.Unending`). As the path is kept by every visit to a
node, whatever is expanded, loaded or defined in between, this follows by the same induction on the
depth as what a visit leaves behind (`Language.Passed`). Visits that have come to an end give the
path back as it was, so only the visit that fails has to be followed.

## Main definitions

* `Use.Inside` – a use is made inside another one
* `Session.Nests` – uses are under way, each inside the next
* `Session.Covering` – all of them are above a node that is going to be visited
* `Session.Unending` – one more use asks for a name that is in use

## Main results

* `Session.Nests.kept`, `Session.Nests.begins` – the path of uses, and what is added to it
* `Language.stumbles` – a visit that fails
* `Language.run_unending` – the stage
-/

namespace Stencil

open Stencil.Tree (NodeId Store Visitor Call)
open Stencil.Tree.Store (Tidy Within Labelled Verbatim)

variable {env : Stage.Environment} {d : Dialect} {s s' s₁ : Session} {t : Store} {R : NodeId → Prop}
  {anchor : Option NodeId} {id : Int} {n p : NodeId} {l row : List NodeId}
    {u v : Use} {us new : List Use}
  {r : Recursion} {f : Failure} {depth steps : Nat} {log : List (Call × Session)}

/-! ### Uses inside uses -/

/-- A use is made inside another one: below its element, or at its element by somebody else. -/
def Use.Inside (t : Store) (u v : Use) : Prop :=
  t.Above v.element u.element ∧ (u.element = v.element → u.node ≠ v.node)

/-- Different uses at one node are inside of those that are made above the node. -/
theorem isChain_inside_append (hus : us.IsChain (Use.Inside t))
    (hover : ∀ v ∈ us, t.Above v.element n ∧ v.element ≠ n) (hown : ∀ u ∈ new, u.element = n)
    (hnew : (new.map (·.node)).Nodup) : (new ++ us).IsChain (Use.Inside t) := by
  refine List.isChain_append.mpr ⟨?_, hus, fun u hu v hv => ?_⟩
  · refine (List.pairwise_map.mp hnew).isChain.imp_of_mem_imp fun u v hu hv hne => ?_
    exact ⟨(hown v hv).trans (hown u hu).symm ▸ .refl _, fun _ => hne⟩
  · have hun := hown u (List.mem_of_getLast? hu)
    obtain ⟨hup, hne⟩ := hover v (List.mem_of_head? hv)
    exact ⟨hun ▸ hup, fun h => absurd (h.symm.trans hun) hne⟩

namespace Session

/-- Uses are under way, innermost first. -/
structure Nests (d : Dialect) (us : List Use) (s : Session) : Prop where
  /-- Their names are the names in use. -/
  uses : s.definitions.uses = us.map (·.name)
  /-- Each is made in the tree, and ends when its element is left. -/
  made (u : Use) : u ∈ us → u.Asks d s.store ∧ s.raised u.node
  /-- Each is made inside the next one. -/
  nested : us.IsChain (Use.Inside s.store)

/-- Uses are made above a node. -/
def Covering (us : List Use) (n : NodeId) (s : Session) : Prop :=
  ∀ v ∈ us, s.store.Above v.element n ∧ v.element ≠ n

/-- Inside the uses under way there is one more, which asks for a name that is in use. The recursion
lists the names from the outermost use to this one. -/
def Unending (d : Dialect) (r : Recursion) (s : Session) : Prop :=
  ∃ us u, s.Nests d us ∧ u.Asks d s.store ∧ (u :: us).IsChain (Use.Inside s.store) ∧
    u.name ∈ us.map (·.name) ∧ r = ⟨.expansion, ((u :: us).map (·.name)).reverse⟩

/-- What is above a node is strictly above its children. -/
theorem Covering.of_parent? (hw : s.store.WellFormed) (hc : ∀ v ∈ us, s.store.Above v.element p)
    (hn : s.store.parent? n = some p) : s.Covering us n := by
  intro v hv
  refine ⟨(hc v hv).trans (.of_parent? hn), ?_⟩
  rintro rfl
  exact hw.grounded.not_above_of_parent? hn (hc v hv)

namespace Nests

/-- Work that leaves the uses alone. -/
theorem kept (h : s.Nests d us) (ht : Tidy R anchor s.store) (hw : Within R anchor s.store s'.store)
    (hv : Verbatim R s.store s'.store) (hl : s.store.Labelled) (hl' : s'.store.Labelled)
    (hout : ∀ u ∈ us, ¬ R u.element) (huses : s'.definitions.uses = s.definitions.uses)
    (hraised : ∀ u ∈ us, s'.raised u.node = s.raised u.node) : s'.Nests d us where
  uses := huses.trans h.uses
  made u hu := by
    obtain ⟨hasks, hup⟩ := h.made u hu
    exact ⟨hasks.kept hl hl' hw.confined hv (hout u hu), (hraised u hu).trans hup⟩
  nested := h.nested.imp_of_mem_imp fun u v hu _ hin =>
    ⟨(hw.above_outside ht (hout u hu)).mpr hin.1, hin.2⟩

/-- Work on the node that is visited is not on a use under way. -/
theorem not_region (h : s.Nests d us) (hw : s.store.WellFormed)
    (hc : s.Covering us n) (hu : u ∈ us) :
    ¬ s.store.Region n u.element := by
  obtain ⟨hup, hne⟩ := hc u hu
  rintro (hdown | hnew)
  · exact hne (hw.grounded.antisymm hup hdown)
  · exact hnew (Store.has_of_isElement (h.made u hu).1.isElement)

section Begins

variable (h : s.Nests d us) (g : s.Guards id (n :: l)) (hs : Language.Sound n s)
  (hkind : s.store.kind? n ≠ some .attr) (hc : s.Covering us n) (hb : Language.Begins d n new s s')

include h g hs hkind hc hb

/-- Uses that begin at the node leave the others as they are, but for the names in use. -/
theorem outer_kept : (∀ u ∈ us, u.Asks d s'.store ∧ s'.raised u.node) ∧
    us.IsChain (Use.Inside s'.store) ∧ s'.Covering us n := by
  have ht := g.wellFormed.tidy_interior g.owned g.has_head
  have hout : ∀ u ∈ us, ¬ s.store.Interior n u.element := fun u hu hR =>
    h.not_region g.wellFormed hc hu hR.1
  -- the flags of the node are not raised before
  have hraised : ∀ u ∈ us, s'.raised u.node = s.raised u.node := fun u hu => by
    refine hb.raised u.node fun hmem => ?_
    have hup := (h.made u hu).2
    rw [hs.not_raised hkind hmem] at hup
    cases hup
  have hkept : Session.Nests d us { s' with definitions := s.definitions } :=
    h.kept ht hb.within hb.verbatim g.labelled hb.labelled hout rfl hraised
  refine ⟨hkept.made, hkept.nested, fun v hv => ?_⟩
  rw [hb.within.above_outside ht fun hR => hR.2 rfl]
  exact hc v hv

/-- **Uses begin**, inside of those that are under way. -/
theorem begins : s'.Nests d (new ++ us) := by
  obtain ⟨hmade, hnested, hcover⟩ := h.outer_kept g hs hkind hc hb
  refine ⟨by rw [hb.uses, h.uses, List.map_append], fun u hu => ?_, ?_⟩
  · rcases List.mem_append.mp hu with hu | hu
    · exact (hb.own u hu).2.2
    · exact hmade u hu
  · exact isChain_inside_append hnested hcover (fun u hu => (hb.own u hu).1) hb.distinct

/-- **One more use is refused**, because its name is in use. -/
theorem unending (hf : Language.Follows d n new s s' u) (hmem : u.name ∈ s'.definitions.uses) :
    s'.Unending d ⟨.expansion, s'.definitions.uses.reverse ++ [u.name]⟩ := by
  have hnests := h.begins g hs hkind hc hb
  obtain ⟨-, hnested, hcover⟩ := h.outer_kept g hs hkind hc hb
  rw [hnests.uses] at hmem
  refine ⟨new ++ us, u, hnests, hf.asks, ?_,
    hmem, by rw [hnests.uses, List.map_cons, List.reverse_cons]⟩
  rw [← List.cons_append]
  refine isChain_inside_append hnested hcover (fun w hw => ?_)
    (List.nodup_cons.mpr ⟨hf.fresh, hb.distinct⟩)
  exact (List.mem_cons.mp hw).elim (fun e => e ▸ hf.element) fun hw => (hb.own w hw).1

end Begins

end Nests

end Session

namespace Language

open Session (Covering Unending)

/-! ### Visits -/

/-- A node that cannot be entered at all is not refused for a name. -/
theorem visit_error (h : (Stage.manipulation env).visit n s = (.error f, s'))
    (hr : f.cause = .recursion r) :
    s.store.kind? n ≠ some .attr ∧ Stage.manipulate env n s = (.error f, s') := by
  rcases visit_cases env n s with ⟨e, hfail⟩ | ⟨hkind, hman⟩
  · cases hfail.symm.trans h
    exact absurd hr (Failure.broad_ofTree (F := Failure.Straight) e r)
  · exact ⟨hkind, hman ▸ h⟩

/-- What was visited gives the uses under way back. -/
theorem Passed.nests (hp : Passed env R anchor l s log s') (h : s.Nests env.dialect us)
    (ht : Tidy R anchor s.store) (hl : s.store.Labelled) (hout : ∀ u ∈ us, ¬ R u.element) :
    s'.Nests env.dialect us :=
  h.kept ht hp.settled.within hp.verbatim hl hp.guards.labelled hout hp.settled.agrees.uses
    fun u _ => hp.settled.raised u.node

/-- A visit to a node, down to a depth, fails for a name that leads back to itself only at a use
that asks for it inside of itself. -/
def Stumbles (env : Stage.Environment) (depth : Nat) : Prop :=
  ∀ ⦃n l us s log f u r⦄, Sound n s → s.Guards (namespaceIdOf env.dialect) (n :: l) →
    s.Nests env.dialect us → s.Covering us n →
    (Stage.manipulation env).logging.traverse depth n (s, log) = some (.error f, u) →
    f.cause = .recursion r → u.1.Unending env.dialect r

/-- Siblings are visited until one of the visits fails. -/
theorem Row.stumbles (ih : Stumbles env depth) (henv : Fluent env) (hrow : Row R anchor p row s)
    (g : s.Guards (namespaceIdOf env.dialect) (row ++ l)) (h : s.Nests env.dialect us)
    (hc : ∀ c ∈ row, s.Covering us c) {w : Session × List (Call × Session)}
    (hrun : (Stage.manipulation env).logging.traverseAll depth row (s, log) = some (.error f, w))
    (hr : f.cause = .recursion r) : w.1.Unending env.dialect r := by
  induction row generalizing s log with
  | nil => cases hrun
  | cons n row ihrow =>
    rw [Visitor.traverseAll_cons] at hrun
    obtain ⟨⟨x, s₁, log₁⟩, hfirst, hrest⟩ := Option.bind_eq_some_iff.mp hrun
    have hs := hrow.sound List.mem_cons_self
    have hcn := hc n List.mem_cons_self
    cases x with
    | error e =>
      cases hrest
      exact ih hs g h hcn hfirst hr
    | ok _ =>
      obtain ⟨new, -, hp⟩ := Language.passes henv depth hs g hfirst
      have ht := g.wellFormed.tidy_region g.owned n
      have hnests := hp.nests h ht g.labelled fun u hu => h.not_region g.wellFormed hcn hu
      refine ihrow (hrow.tail hp.settled).1 hp.guards hnests (fun c hcr v hv => ?_) hrest
      -- the others are not below the first one
      have hnp := hrow.parent? n List.mem_cons_self
      have hcp := hrow.parent? c (List.mem_cons_of_mem n hcr)
      have hne : c ≠ n := fun e => (List.nodup_cons.mp hrow.nodup).1 (e ▸ hcr)
      rw [hp.settled.within.above_outside ht (g.wellFormed.not_region_sibling hnp hcp hne)]
      exact hc c (List.mem_cons_of_mem n hcr) v hv

/-- Entering a node begins uses at it, inside of those that are under way, or none. -/
theorem Enters.exists_nests (he : Enters d n s s₁) (h : s.Nests d us) (g : s.Guards id (n :: l))
    (hs : Sound n s) (hkind : s.store.kind? n ≠ some .attr) (hc : s.Covering us n) :
    ∃ new, s₁.Nests d (new ++ us) ∧ ∀ v ∈ new, v.element = n := by
  rcases he with ⟨new, hb⟩ | hh
  · exact ⟨new, h.begins g hs hkind hc hb, fun v hv => (hb.own v hv).1⟩
  · obtain ⟨t, rfl, hw⟩ := hh.onTree
    exact ⟨[], h.kept (g.wellFormed.tidy_region g.owned n) hw hh.verbatim g.labelled hh.labelled
      (fun u hu => h.not_region g.wellFormed hc hu) rfl fun _ _ => rfl, fun _ hv => (nomatch hv)⟩

/-- **A visit that fails** for a name that leads back to itself. -/
theorem stumbles (henv : Fluent env) (depth : Nat) : Stumbles env depth := by
  induction depth with
  | zero =>
    intro n l us s log f u r hs g h hc hrun
    cases hrun
  | succ depth ih =>
    intro n l us s log f u r hs g h hc hrun hr
    rw [Visitor.traverse_succ,
      if_neg (by simp [Visitor.skips, Visitor.logging, Stage.manipulation])] at hrun
    rcases hvisit : (Stage.manipulation env).logging.visit n (s, log) with ⟨e | q, s₁, log₁⟩
    · -- the node itself asks for the name
      rw [hvisit] at hrun
      cases hrun
      have hcover := Visitor.logging_covers.visit (v := Stage.manipulation env) n (s, log)
      rw [hvisit] at hcover
      obtain ⟨hkind, hman⟩ := visit_error hcover.symm hr
      obtain ⟨new, v, hb, hfollows, hmem, rfl⟩ := (manipulate_ends henv g).fails _ _ hman r hr
      exact h.unending g hs hkind hc hb hfollows hmem
    rw [hvisit] at hrun
    obtain ⟨⟨x, s₂, log₂⟩, hrow, hleft⟩ := Option.bind_eq_some_iff.mp hrun
    obtain ⟨hvisit, -⟩ := Visitor.logging_visit_ok hvisit
    obtain ⟨hkind, hman⟩ := visit_ok hvisit
    cases x with
    | ok _ =>
      -- leaving a node does not fail
      obtain ⟨_, s₃, hleave, -⟩ := leave_gives (n := n) (s := s₂) henv
      have hcover := Visitor.logging_covers.leave (v := Stage.manipulation env) n (s₂, log₂)
      rw [Option.some.inj hleft] at hcover
      cases hcover.trans hleave
    | error e =>
      cases hleft
      have g₁ := (manipulate_guards henv.toSpoken g _ _ hman).1
      obtain ⟨new, hnests, hown⟩ :=
        ((manipulate_ends henv g).yields _ _ hman).exists_nests h g hs hkind hc
      rcases manipulate_enters henv.toSpoken hs hkind _ _ hman with ⟨hent, hq⟩ | ⟨-, hload⟩
      · have hsiblings := hent.row_of_asked hs hkind hq
        refine hsiblings.stumbles ih henv g₁ hnests (fun c hcq => ?_) hrow hr
        refine .of_parent? hsiblings.tidy.wellFormed (fun v hv => ?_) (hsiblings.parent? c hcq)
        rcases List.mem_append.mp hv with hv | hv
        · rw [hown v hv]
          exact .refl n
        · rw [hent.within.above_outside hs.tidy (not_interior n s.store)]
          exact (hc v hv).1
      · -- a `load` uses nothing
        obtain rfl : new = [] := by
          have huses := hnests.uses
          rw [hload.definitions, h.uses, List.map_append] at huses
          exact List.map_eq_nil_iff.mp (List.self_eq_append_left.mp huses)
        obtain ⟨p, hsiblings⟩ := hload.exists_row hs
        have ht := g.wellFormed.tidy_region g.owned n
        refine hsiblings.stumbles ih henv g₁ hnests (fun c hcq => ?_) hrow hr
        obtain ⟨q, hnq, hcq⟩ := hload.parent? c hcq
        refine .of_parent? hsiblings.tidy.wellFormed (fun v hv => ?_) hcq
        rw [hload.onTree.within.above_outside ht (g.wellFormed.not_region_parent hnq)]
        obtain ⟨hup, hne⟩ := hc v hv
        obtain ⟨q', hq', hup⟩ := (Store.above_iff.mp hup).resolve_left hne
        exact Option.some.inj (hnq.symm.trans hq') ▸ hup

/-! ### The stage -/

/-- **A run of the stage** fails for a name that leads back to itself only at a use that asks for it
inside of itself, and the names of the other uses are different. -/
theorem run_unending (henv : Fluent env) (hs : s.Prepared (namespaceIdOf env.dialect) n)
    (h : Stage.run env .manipulation steps n s = some (.error f, s'))
    (hr : f.cause = .recursion r) :
    s'.Unending env.dialect r ∧ s'.definitions.uses.Nodup := by
  refine ⟨?_, (run_balanced henv.toSpoken hs.rest.balanced h).nodup⟩
  rw [Stage.run] at h
  split at h
  · cases h
  rename_i s₁ hrun
  cases h
  obtain ⟨⟨x, s₁, log⟩, hlog, heq⟩ := Option.map_eq_some_iff.mp
    ((Visitor.logging_covers.loop ((start n s).state, [])).trans hrun)
  cases heq
  have hwalk : (Stage.manipulation env).logging.walk steps (some n) ((start n s).state, []) =
      some (.error f, s₁, log) := hlog
  obtain ⟨depth, hvisit⟩ := Visitor.exists_walk_iff_exists_traverse.mp ⟨steps, hwalk⟩
  have hsound := hs.sound
  have hnone : Session.Nests env.dialect [] (start n s).state :=
    ⟨hs.rest.uses, fun _ hu => absurd hu List.not_mem_nil, .nil⟩
  obtain ⟨us, u, hnests, hasks, hchain, hmem, hr⟩ := stumbles henv depth (s := (start n s).state)
    (l := []) ⟨hsound.wellFormed, hsound.owned, hsound.has, hsound.known, hsound.quiet⟩
    (hs.guards.congr rfl rfl) hnone (fun _ hv => absurd hv List.not_mem_nil) hvisit hr
  exact ⟨us, u, ⟨hnests.uses, hnests.made, hnests.nested⟩, hasks, hchain, hmem, hr⟩

end Language

end Stencil
