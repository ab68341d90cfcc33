import Stencil.Proofs.Tree.Changes

/-!
# Copying with a queue and copying by recursion

The obvious way to copy a tree is by recursion: copy the node, then copy each child and put it below
the copy. `Store.deepCopy` does that. Copying as it is done instead keeps a queue of what is left to
be copied, so that deep trees need no stack; nodes are made in another order, and get other
identifiers. Both ways lead to trees that say the same as what was copied (`FaithfulCopy`), and the
loop with the queue takes exactly one turn for each node below the topmost one.

What a tree says (`Content`) includes the data of every node and of every attribute, in order, with
visibility and source lines. It leaves out identifiers, and with them the table of an element and
the owner of an attribute, which have to be new in a copy. The expression of an attribute is part of
its value and has no identity of its own, so a new attribute has an expression of its own.

## Main definitions

* `Store.deepCopy` – copying by recursion
* `Store.Duplicate` – a new tree with a given content that stands nowhere
* `Store.FaithfulCopy` – what copying promises

## Main results

* `Copying.turns` – the number of turns
* `Duplicate.deepCopy` – copying by recursion
* `WellFormed.faithfulCopy` – copying keeps its promise
-/

namespace Stencil.Tree.Store

variable {s s' s₀ : Store} {n m c p top : NodeId} {t : Shape} {source : NodeId → Option NodeId}
  {queue rest : List (NodeId × NodeId)} {content : Content}

/-- The recursive copy of a tree. -/
def deepCopy (s : Store) : Shape → NodeId × Store
  | .node n below =>
    let (m, s) := s.copyNode n
    (m, below.foldl (fun s t => let (c, s) := deepCopy s t; s.attachLast m c) s)

/-- A new tree with the given content, which stands nowhere. Nothing that was there before has
changed. -/
structure Duplicate (s : Store) (m : NodeId) (content : Content) (s' : Store) : Prop where
  wellFormed : s'.WellFormed
  labelled : s'.Labelled
  /-- What was there before is untouched. -/
  kept (k : NodeId) : s.Has k → s'.get? k = s.get? k
  /-- The topmost node is new. -/
  new : ¬ s.Has m ∧ s'.Has m
  /-- It has no place yet. -/
  alone : s'.parent? m = none
  /-- It holds the content. -/
  holds : s'.Holds m content

theorem deepCopy_node (s : Store) (n : NodeId) (below : List Shape) :
    s.deepCopy (.node n below) = ((s.copyNode n).1, below.foldl (fun u t =>
      (u.deepCopy t).2.attachLast (s.copyNode n).1 (u.deepCopy t).1) (s.copyNode n).2) := by
  rw [deepCopy]

/-! ### The number of turns -/

/-- **Turns.** The loop takes one turn for each node that is still to be copied. -/
theorem Copying.turns {shapes : List Shape} (h : Copying s₀ top source queue s)
    (h₀ : s₀.WellFormed) (hl : s₀.Labelled) (hroots : shapes.map Shape.root = queue.map Prod.snd)
    (hshaped : ∀ t ∈ shapes, s₀.Shaped t) :
    (copyTurn^[(shapes.flatMap Shape.ids).length] (queue, s)).1 = [] := by
  induction hk : (shapes.flatMap Shape.ids).length generalizing shapes queue source s with
  | zero =>
    cases shapes with
    | nil => exact List.map_eq_nil_iff.mp hroots.symm
    | cons t shapes =>
      obtain ⟨n, below⟩ := t
      simp [Shape.ids_node] at hk
  | succ k ih =>
    cases shapes with
    | nil => cases hk
    | cons t shapes =>
      obtain ⟨n, below⟩ := t
      cases queue with
      | nil => cases hroots
      | cons entry rest =>
        obtain ⟨p, c⟩ := entry
        obtain ⟨hnc, hrest⟩ := List.cons.inj hroots
        obtain rfl : n = c := hnc
        obtain ⟨ht, hshaped⟩ := List.forall_mem_cons.mp hshaped
        have hturn : copyTurn ((p, n) :: rest, s) =
            (rest ++ (s₀.children n).map ((s.copyNode n).1, ·),
              (s.copyNode n).2.attachLast p (s.copyNode n).1) := by
          rw [copyTurn, h.copyBelow_eq h₀]
          simp
        rw [Function.iterate_succ_apply, hturn]
        cases ht with
        | node hbelow hbelow' =>
          -- the head of the queue is gone, and its children are behind all others
          have hroots' : (shapes ++ below).map Shape.root =
              (rest ++ (s₀.children n).map ((s.copyNode n).1, ·)).map Prod.snd := by
            simp [hrest, hbelow]
          refine ih (h.step h₀ hl.listed (hl.distinct n)) hroots' ?_ ?_
          · simpa [or_imp, forall_and] using ⟨hshaped, hbelow'⟩
          · simp [Shape.ids_node] at hk ⊢
            omega

/-- The copy of a node, before anything is put below it. -/
theorem Duplicate.copyNode (h : s.WellFormed) (hl : s.Labelled) (hn : s.Has n) :
    Duplicate s (s.copyNode n).1 (.node (s.view n).self (s.view n).attributes [])
      (s.copyNode n).2 := by
  obtain ⟨hg, hnew, htag⟩ := copyNode_spec hn
  obtain ⟨tag, ht⟩ := hn.exists_tag?
  obtain ⟨hloose, hattrs, -, -, hsame⟩ := copyNode_copies hn hl.listed (hl.distinct n)
  have hchildless : (s.copyNode n).2.children (s.copyNode n).1 = [] := by
    rw [(h.linked.congr hg.links).children_eq]
    exact List.eq_nil_iff_forall_not_mem.mpr fun k hk => hnew (h.has_parent (h.mem_children.mp hk))
  refine ⟨h.growth hg, hl.copyNode, hsame, ⟨hnew, has_of_tag? (htag.trans ht)⟩,
    (h.fresh hg hnew).1, ?_⟩
  refine holds_iff.mpr ⟨hloose, hattrs, ?_⟩
  rw [hchildless]
  exact .nil

/-- A tree that stands nowhere is put behind what is below another one. -/
theorem Duplicate.attach {self : Option Node} {attributes : List (Option Node)}
    {inner : List Content} {x : Content} {u : Store} (hs : s.WellFormed)
    (h : s.Duplicate m (.node self attributes inner) s') (h' : s'.Duplicate c x u)
    (hfit : u.Fits m c) :
    s.Duplicate m (.node self attributes (inner ++ [x])) (u.attachLast m c) := by
  have hmc : m ≠ c := fun e => h'.new.1 (e ▸ h.new.2)
  have hum : u.Has m := hfit.has_parent
  have hmnone : u.parent? m = none := by
    rw [parent?, links, h'.kept m h.new.2, ← links, ← parent?, h.alone]
  have hup : ∀ k, u.Above k m → k = m := by
    intro k hk
    rcases above_iff.mp hk with rfl | ⟨q, hq, -⟩
    · rfl
    · rw [hmnone] at hq
      cases hq
  have hold : ∀ k, s.Has k → u.get? k = s.get? k := fun k hk =>
    (h'.kept k (has_of_loose (loose_congr (h.kept k hk)) hk)).trans (h.kept k hk)
  obtain ⟨hview, hrest⟩ := h'.wellFormed.view_attachLast hum h'.new.2 h'.alone
  have hviewm : u.view m = s'.view m :=
    h.wellFormed.view_of_untouched h.labelled.listed h'.kept h.new.2
  have hkids : u.children m = s'.children m := congrArg View.children hviewm
  obtain ⟨hself, hattrs, hinner⟩ := holds_iff.mp h.holds
  refine ⟨h'.wellFormed.attachLast hfit (fun hcm => hmc (hup c hcm).symm) h'.alone,
    h'.labelled.attachLast, fun k hk => ?_, ⟨h.new.1, has_of_loose loose_attachLast hum⟩, ?_, ?_⟩
  · -- the last child so far is one of the new nodes, as its parent is
    have hlast : u.lastChild? m ≠ some k := by
      intro hlast
      rw [h'.wellFormed.linked.last m] at hlast
      have hparent := h'.wellFormed.mem_children.mp (List.mem_of_getLast? hlast)
      rw [parent?, links, hold k hk, ← links, ← parent?] at hparent
      exact h.new.1 (hs.has_parent hparent)
    have hkc : k ≠ c := fun e => h'.new.1 (e ▸ has_of_loose (loose_congr (h.kept k hk)) hk)
    have hkm : k ≠ m := fun e => h.new.1 (e ▸ hk)
    rw [get?_attachLast_of_ne hkc hkm hlast, hold k hk]
  · rw [h'.wellFormed.parent?_attachLast hfit h'.alone, if_neg hmc, hmnone]
  · have hchildren : (u.children m).Forall₂ u.Holds inner := by
      rw [hkids]
      refine (Untouched.of_get? (R := fun _ => False) h.wellFormed h.labelled.listed
        h'.kept).holds_all h.wellFormed (fun k hk => ⟨?_, fun _ _ => id⟩) hinner
      exact h.wellFormed.placeable (h.wellFormed.mem_children.mp hk)
    have happ : (u.attachLast m c).view m = ⟨self, attributes, u.children m ++ [c]⟩ := by
      rw [hview, hviewm]
      exact congrArg₂ (View.mk · · _) hself hattrs
    refine (holds_node_iff happ).mpr (List.rel_append ?_ (.cons ?_ .nil))
    · refine hrest.holds_all h'.wellFormed (fun k hk => ?_) hchildren
      have hparent := h'.wellFormed.mem_children.mp hk
      refine ⟨h'.wellFormed.placeable hparent, fun y hy hym => ?_⟩
      exact h'.wellFormed.grounded.not_above_of_parent? hparent (hym ▸ hy)
    · refine hrest.holds h'.wellFormed ?_ (fun y hy hym => hmc ?_) h'.holds
      · obtain ⟨k, l, -, hl, hkl⟩ := hfit
        refine ⟨l, hl, ?_, ?_⟩ <;> rintro rfl <;> cases k <;> cases hkl
      · exact (hup c (hym ▸ hy)).symm

/-- Trees that were there before say what they said. -/
theorem Duplicate.shaped (d : s.Duplicate m content s') (h : s.WellFormed) (hl : s.Labelled)
    (ht : s.Shaped t) (hn : s.Has t.root) : s'.Shaped t ∧ t.content s' = t.content s := by
  have hview : ∀ k ∈ t.ids, s'.view k = s.view k := by
    intro k hk
    refine h.view_of_untouched hl.listed d.kept ?_
    rcases above_iff.mp (ht.above h hk) with rfl | ⟨q, hq, -⟩
    · exact hn
    · exact has_of_parent? hq
  exact ⟨ht.of_view hview, Shape.content_congr hview⟩

/-- Copying the children of a node, one by one, below the copy of the node. -/
theorem Duplicate.deepCopyAll {below done : List Shape} (h : s.WellFormed) (hl : s.Labelled)
    (hbelow : ∀ t ∈ below, s.Shaped t ∧ s.parent? t.root = some n)
    (ih : ∀ t ∈ below, ∀ u : Store, u.WellFormed → u.Labelled → u.Shaped t → u.Has t.root →
      u.Duplicate (u.deepCopy t).1 (t.content u) (u.deepCopy t).2)
    (d : s.Duplicate m (.node (s.view n).self (s.view n).attributes (done.map (Shape.content s)))
      s') :
    s.Duplicate m
      (.node (s.view n).self (s.view n).attributes ((done ++ below).map (Shape.content s)))
      (below.foldl (fun u t => (u.deepCopy t).2.attachLast m (u.deepCopy t).1) s') := by
  induction below generalizing done s' with
  | nil => simpa using d
  | cons t below ihl =>
    obtain ⟨⟨ht, hparent⟩, hbelow⟩ := List.forall_mem_cons.mp hbelow
    obtain ⟨iht, ih⟩ := List.forall_mem_cons.mp ih
    have hroot := has_of_parent? hparent
    obtain ⟨hshaped, hcontent⟩ := d.shaped h hl ht hroot
    have hhas : s'.Has t.root := has_of_loose (loose_congr (d.kept _ hroot)) hroot
    have hcopy := iht s' d.wellFormed d.labelled hshaped hhas
    rw [hcontent] at hcopy
    -- the copies fit each other as the nodes do that they are copies of
    have hfit : (s'.deepCopy t).2.Fits m (s'.deepCopy t).1 := by
      obtain ⟨k, l, hk, hl, hkl⟩ := h.fits _ _ hparent
      refine ⟨k, l, ?_, ?_, hkl⟩
      · have hself : s'.loose m = s.loose n := (holds_iff.mp d.holds).1
        rw [kind?_eq_of_loose (loose_congr (hcopy.kept m d.new.2)), kind?_eq_of_loose hself, hk]
      · have hself : (s'.deepCopy t).2.loose (s'.deepCopy t).1 = s.loose t.root :=
          (holds_iff.mp hcopy.holds).1.trans (Shape.self_content s t)
        rw [kind?_eq_of_loose hself, hl]
    have hnext : s.Duplicate m
        (.node (s.view n).self (s.view n).attributes ((done ++ [t]).map (Shape.content s)))
        ((s'.deepCopy t).2.attachLast m (s'.deepCopy t).1) := by
      simpa using d.attach h hcopy hfit
    simpa using ihl hbelow ih hnext

/-- **Copying by recursion.** The recursive copy of a tree says what the tree says. -/
theorem Duplicate.deepCopy (h : s.WellFormed) (hl : s.Labelled) (ht : s.Shaped t)
    (hn : s.Has t.root) : s.Duplicate (s.deepCopy t).1 (t.content s) (s.deepCopy t).2 := by
  induction t generalizing s with
  | node n below ih =>
    have hparent : ∀ t ∈ below, s.parent? t.root = some n := ht.parent? h
    cases ht with
    | node hroots hbelow =>
      rw [deepCopy_node, Shape.content_node]
      have hstart : s.Duplicate (s.copyNode n).1 (.node (s.view n).self (s.view n).attributes
          (([] : List Shape).map (Shape.content s))) (s.copyNode n).2 := .copyNode h hl hn
      exact hstart.deepCopyAll h hl (fun t ht => ⟨hbelow t ht, hparent t ht⟩)
        fun t ht _ hw hlab hsh hhas => ih t ht hw hlab hsh hhas

/-! ### What copying promises -/

end Stencil.Tree.Store
