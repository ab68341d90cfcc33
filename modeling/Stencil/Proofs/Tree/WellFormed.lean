import Stencil.Proofs.Tree.Ancestors

/-!
# Well-formed stores

A store is well-formed when its links are those of lists of children, every path upwards ends, and
every child is of a kind that its parent may hold. The operations on children keep it so.

An operation checks first and then changes links. The check gives two facts about the node that is
to be placed (`checkChild_ok`): it fits its new parent, and is not above it. The change takes it out
of its old place, which keeps these facts, and then attaches it. The three ways of attaching differ
in the lists only, so that a single lemma (`WellFormed.place`) treats what they have in common.

## Main definitions

* `NodeKind`, `Store.kind?`, `NodeKind.admits` – kinds of nodes, and what may be a child of what
* `Store.Fits` – a node is of a kind that another may hold
* `Store.WellFormed` – the invariant

## Main results

* `WellFormed.appendChild`, `WellFormed.insertBefore`, `WellFormed.replaceChild`,
  `WellFormed.removeChild`, `WellFormed.removeChildren`, `WellFormed.moveChildren`
-/

namespace Stencil.Tree

/-- The kinds of nodes. -/
inductive NodeKind where
  | document | element | attr | text | cdata | expression | code
  deriving DecidableEq, Repr

/-- The kind of a node. -/
def Payload.nodeKind : Payload → NodeKind
  | document _ => .document
  | element _ => .element
  | attr _ => .attr
  | text => .text
  | cdata _ => .cdata
  | expression .. => .expression
  | code .. => .code

/-- Whether a node of the first kind may hold one of the second. -/
def NodeKind.admits : NodeKind → NodeKind → Bool
  | _, document | _, attr => false
  | document, _ | element, _ => true
  | text, cdata | text, expression => true
  | _, _ => false

namespace Store

variable {s s' : Store} {n m p q c r : NodeId} {kids : NodeId → List NodeId}
  {child ref replaced dst : Option NodeId}

/-- The kind of a node of the store. -/
def kind? (s : Store) (n : NodeId) : Option NodeKind := (s.payload? n).map Payload.nodeKind

/-- The node `p` may hold `n`. -/
def Fits (s : Store) (p n : NodeId) : Prop :=
  ∃ k l, s.kind? p = some k ∧ s.kind? n = some l ∧ k.admits l

/-- The links are those of trees, in which every node fits its parent. -/
structure WellFormed (s : Store) : Prop where
  /-- The links agree with each other. -/
  linked : Linked s s.children
  /-- Every path upwards ends. -/
  grounded : s.Grounded
  /-- Every node fits its parent. -/
  fits (n p : NodeId) : s.parent? n = some p → s.Fits p n

/-! ### Kinds -/

theorem has_of_kind? {k : NodeKind} (h : s.kind? n = some k) : s.Has n := by
  by_contra hn
  simp [kind?, payload?, get?_eq_none_iff.mpr hn] at h

theorem Has.exists_kind? (h : s.Has n) : ∃ k, s.kind? n = some k := by
  obtain ⟨node, hnode⟩ := h.exists_get?
  exact ⟨node.payload.nodeKind, by simp [kind?, payload?, hnode]⟩

theorem Fits.has_parent (h : s.Fits p n) : s.Has p := by
  obtain ⟨k, l, hk, -⟩ := h
  exact has_of_kind? hk

theorem Fits.has_child (h : s.Fits p n) : s.Has n := by
  obtain ⟨k, l, -, hl, -⟩ := h
  exact has_of_kind? hl

/-- A node goes on fitting as long as no kind changes. -/
theorem Fits.mono (h : s.Fits p n) (hk : ∀ m k, s.kind? m = some k → s'.kind? m = some k) :
    s'.Fits p n := by
  obtain ⟨k, l, hp, hn, hkl⟩ := h
  exact ⟨k, l, hk p k hp, hk n l hn, hkl⟩

theorem Fits.congr (h : s.Fits p n) (hk : ∀ m, s'.payload? m = s.payload? m) : s'.Fits p n :=
  h.mono fun m k hm => by rw [kind?, hk m]; exact hm

theorem Fits.isContainer (h : s.Fits p n) : s.isContainer p := by
  obtain ⟨k, l, hp, -, hkl⟩ := h
  obtain ⟨payload, hpay, rfl⟩ := Option.map_eq_some_iff.mp hp
  rw [Store.isContainer, hpay]
  cases payload <;> cases l <;> simp_all [Payload.nodeKind, NodeKind.admits, Payload.isContainer]

theorem has_of_isContainer (h : s.isContainer p) : s.Has p := by
  by_contra hp
  simp [isContainer, payload?, get?_eq_none_iff.mpr hp] at h

theorem isContainer_of_kind? (h : s.isContainer n)
    (hk : ∀ m k, s.kind? m = some k → s'.kind? m = some k) : s'.isContainer n := by
  obtain ⟨k, hk'⟩ := (has_of_isContainer h).exists_kind?
  obtain ⟨p, hp, rfl⟩ := Option.map_eq_some_iff.mp hk'
  obtain ⟨q, hq, hpq⟩ := Option.map_eq_some_iff.mp (hk n _ hk')
  rw [isContainer, hp] at h
  rw [isContainer, hq]
  cases p <;> cases q <;> simp_all [Payload.nodeKind, Payload.isContainer]

/-! ### Links do not change payloads -/

@[simp] theorem payload?_relink {f : Links → Links} :
    (s.relink n f).payload? m = s.payload? m := by
  rw [relink, payload?, payload?, get?_modify]
  split
  · cases s.get? m <;> rfl
  · rfl

@[simp] theorem payload?_relink? {o : Option NodeId} {f : Links → Links} :
    (s.relink? o f).payload? m = s.payload? m := by
  cases o <;> simp [relink?]

@[simp] theorem payload?_detach : (s.detach n).payload? m = s.payload? m := by
  rw [detach]
  split <;> simp

@[simp] theorem payload?_attachLast : (s.attachLast p n).payload? m = s.payload? m := by
  simp [attachLast]

@[simp] theorem payload?_attachBefore : (s.attachBefore p n r).payload? m = s.payload? m := by
  simp [attachBefore]

@[simp] theorem payload?_attachInstead : (s.attachInstead p n r).payload? m = s.payload? m := by
  simp [attachInstead]

@[simp] theorem payload?_removeChildren :
    (s.removeChildren p).2.payload? m = s.payload? m := by
  rw [removeChildren, payload?_relink]
  induction s.children p generalizing s with
  | nil => rfl
  | cons c l ih => rw [List.foldl_cons, ih, payload?_relink]

/-! ### Elementary changes -/

namespace WellFormed

theorem of_linked (h : Linked s kids) (hg : s.Grounded)
    (hf : ∀ n p, s.parent? n = some p → s.Fits p n) : s.WellFormed :=
  ⟨h.children_eq ▸ h, hg, hf⟩

theorem has_parent (h : s.WellFormed) (hp : s.parent? n = some p) : s.Has p :=
  (h.fits n p hp).has_parent

theorem mem_children (h : s.WellFormed) : m ∈ s.children p ↔ s.parent? m = some p :=
  h.linked.mem_children

/-- A child with what stands in front of it and behind it. -/
theorem exists_split (h : s.WellFormed) (hp : s.parent? n = some p) :
    ∃ l₁ l₂, s.children p = l₁ ++ n :: l₂ :=
  List.append_of_mem (h.mem_children.mpr hp)

theorem parent?_detach (h : s.WellFormed) :
    (s.detach n).parent? m = if m = n then none else s.parent? m := by
  cases hp : s.parent? n with
  | none =>
    have hdetach : s.detach n = s := by rw [Store.detach, show (s.links n).parent = none from hp]
    rw [hdetach]
    split
    · simp_all
    · rfl
  | some p =>
    obtain ⟨l₁, l₂, hk⟩ := h.exists_split hp
    obtain ⟨hprev, hnext⟩ := h.linked.neighbours hk
    rw [parent?, links_detach hp (has_of_parent? hp) (h.has_parent hp)
      (hprev ▸ h.linked.has_getLast? (p := p) fun m hm => by simp [hk, hm])
      (hnext ▸ h.linked.has_head? (p := p) fun m hm => by simp [hk, hm])]

theorem parent?_of_detach (h : s.WellFormed) (hq : (s.detach n).parent? m = some q) :
    s.parent? m = some q := by
  rw [h.parent?_detach] at hq
  split at hq
  · cases hq
  · exact hq

/-- Nodes may be taken out of their parents at any time. -/
theorem of_fewer (h : s.WellFormed) (hl : Linked s' kids)
    (hs : ∀ m q, s'.parent? m = some q → s.parent? m = some q)
    (hk : ∀ m, s'.payload? m = s.payload? m) : s'.WellFormed :=
  of_linked hl (h.grounded.of_fewer hs) fun n p hp => (h.fits n p (hs n p hp)).congr hk

protected theorem detach (h : s.WellFormed) (n : NodeId) : (s.detach n).WellFormed := by
  cases hp : s.parent? n with
  | none =>
    rw [Store.detach, show (s.links n).parent = none from hp]
    exact h
  | some p =>
    obtain ⟨l₁, l₂, hk⟩ := h.exists_split hp
    exact h.of_fewer (h.linked.detach hk) (fun m q => h.parent?_of_detach) fun m => payload?_detach

/-- **Placing a node.** What attaching a node at any place in a list has in common: the node fits
its parent, is not above it, and no other node gets a new parent. -/
theorem place (h : s.WellFormed) (hl : Linked s' kids) (hfit : s.Fits p n) (hup : ¬ s.Above n p)
    (hn : s'.parent? n = some p)
    (hs : ∀ m q, m ≠ n → s'.parent? m = some q → s.parent? m = some q)
    (hk : ∀ m, s'.payload? m = s.payload? m) : s'.WellFormed := by
  refine of_linked hl (h.grounded.graft hup hs fun q hq => ?_) fun m q hq => ?_
  · simpa [hn, eq_comm] using hq
  · by_cases hm : m = n
    · subst hm
      obtain rfl : p = q := by simpa [hn] using hq
      exact hfit.congr hk
    · exact (h.fits m q (hs m q hm hq)).congr hk

theorem parent?_attachLast (h : s.WellFormed) (hfit : s.Fits p n) (hfree : s.parent? n = none) :
    (s.attachLast p n).parent? m = if m = n then some p else s.parent? m := by
  have hnk := h.linked.not_mem_of_parent? (p := p) hfree
  rw [parent?, links_attachLast hfit.has_child hfit.has_parent
    (h.linked.last p ▸ h.linked.has_getLast? (p := p) fun _ hm => hm)
    (h.linked.last p ▸ fun e => hnk (List.mem_of_getLast? e))]

protected theorem attachLast (h : s.WellFormed) (hfit : s.Fits p n) (hup : ¬ s.Above n p)
    (hfree : s.parent? n = none) : (s.attachLast p n).WellFormed := by
  refine h.place (h.linked.attachLast hfit.has_child hfit.has_parent hfree) hfit hup ?_ ?_
    fun m => payload?_attachLast
  · rw [h.parent?_attachLast hfit hfree, if_pos rfl]
  · intro m q hm hq
    rwa [h.parent?_attachLast hfit hfree, if_neg hm] at hq

theorem parent?_attachBefore (h : s.WellFormed) (hfit : s.Fits p n) (hfree : s.parent? n = none)
    (hr : s.parent? r = some p) :
    (s.attachBefore p n r).parent? m = if m = n then some p else s.parent? m := by
  obtain ⟨l₁, l₂, hk⟩ := h.exists_split hr
  obtain ⟨hprev, -⟩ := h.linked.neighbours hk
  have hnk := h.linked.not_mem_of_parent? (p := p) hfree
  have hnr : n ≠ r := fun e => hnk (h.mem_children.mpr (e ▸ hr))
  rw [parent?, links_attachBefore hfit.has_child hfit.has_parent (has_of_parent? hr)
    (hprev ▸ h.linked.has_getLast? (p := p) fun m hm => by simp [hk, hm]) hnr
    (hprev ▸ fun e => hnk (by simp [hk, List.mem_of_getLast? e]))]

protected theorem attachBefore (h : s.WellFormed) (hfit : s.Fits p n) (hup : ¬ s.Above n p)
    (hfree : s.parent? n = none) (hr : s.parent? r = some p) :
    (s.attachBefore p n r).WellFormed := by
  obtain ⟨l₁, l₂, hk⟩ := h.exists_split hr
  refine h.place (h.linked.attachBefore hfit.has_child hfree hk) hfit hup ?_ ?_
    fun m => payload?_attachBefore
  · rw [h.parent?_attachBefore hfit hfree hr, if_pos rfl]
  · intro m q hm hq
    rwa [h.parent?_attachBefore hfit hfree hr, if_neg hm] at hq

protected theorem attachInstead (h : s.WellFormed) (hfit : s.Fits p n) (hup : ¬ s.Above n p)
    (hfree : s.parent? n = none) (hr : s.parent? r = some p) :
    (s.attachInstead p n r).WellFormed := by
  obtain ⟨l₁, l₂, hk⟩ := h.exists_split hr
  have hl := h.linked.attachInstead hfit.has_child hfree hk
  refine h.place hl hfit hup ?_ ?_ fun m => payload?_attachInstead
  · rw [hl.parent_iff]
    simp
  · intro m q hm hq
    rw [hl.parent_iff] at hq
    rw [h.linked.parent_iff]
    by_cases hqp : q = p
    · subst hqp
      simp only [Function.update_self, List.mem_append, List.mem_cons, hm, false_or] at hq
      simp only [hk, List.mem_append, List.mem_cons]
      tauto
    · simpa [hqp] using hq

/-! ### What the check gives -/

/-- What a node has passed when the check lets it through. -/
theorem checkChild_cases (h : s.checkChild p child replaced = .ok c) :
    child = some c ∧ s.kind? c ≠ some .document ∧ s.kind? c ≠ some .attr ∧
      ¬ (s.isContainer c ∧ c ∈ s.selfAndAncestors p) ∧ s.checkContainer p c replaced = .ok () := by
  unfold Store.checkChild at h
  split at h
  · cases h
  · rename_i d
    split at h
    · cases h
    · cases h
    · rename_i hdoc hattr
      split at h
      · cases h
      · rename_i hcycle
        split at h
        · cases h
        · rename_i hcont
          obtain rfl : d = c := by simpa using h
          refine ⟨rfl, fun hk => ?_, fun hk => ?_, by simpa using hcycle, hcont⟩ <;>
            obtain ⟨payload, hpay, hk⟩ := Option.map_eq_some_iff.mp hk <;>
            cases payload <;> simp_all [Payload.nodeKind]

theorem fits_of_checkContainer (hp : s.isContainer p) (hc : s.Has c)
    (hdoc : s.kind? c ≠ some .document) (hattr : s.kind? c ≠ some .attr)
    (h : s.checkContainer p c replaced = .ok ()) : s.Fits p c := by
  obtain ⟨l, hl⟩ := hc.exists_kind?
  obtain ⟨k, hk⟩ := (has_of_isContainer hp).exists_kind?
  refine ⟨k, l, hk, hl, ?_⟩
  obtain ⟨parent, hparent, rfl⟩ := Option.map_eq_some_iff.mp hk
  obtain ⟨child, hchild, rfl⟩ := Option.map_eq_some_iff.mp hl
  rw [Store.isContainer, hparent] at hp
  rw [Store.checkContainer, hparent] at h
  cases parent with
  | document | element | text => cases child <;> simp_all [Payload.nodeKind, NodeKind.admits]
  | attr | cdata | expression | code => simp [Payload.isContainer] at hp

/-- **The check.** A node that passes it fits its new parent and is not above it. -/
theorem checkChild_ok (h : s.WellFormed) (hp : s.isContainer p) (hc : ∀ c ∈ child, s.Has c)
    (hok : s.checkChild p child replaced = .ok c) :
    child = some c ∧ s.Fits p c ∧ ¬ s.Above c p := by
  obtain ⟨rfl, hdoc, hattr, hcycle, hcont⟩ := checkChild_cases hok
  refine ⟨rfl, fits_of_checkContainer hp (hc c rfl) hdoc hattr hcont, fun hup => hcycle ⟨?_, ?_⟩⟩
  · -- what is above a container is a container itself
    by_contra hnot
    obtain rfl := hup.eq_of_childless fun m hm => hnot (h.fits m c hm).isContainer
    exact hnot hp
  · exact (h.linked.mem_selfAndAncestors h.grounded (has_of_isContainer hp)).mpr hup

/-- After a node was taken out of its parent, it fits where it fitted before and is above no more
nodes than before. -/
theorem ready (h : s.WellFormed) (hfit : s.Fits p c) (hup : ¬ s.Above c p) :
    (s.detach c).Fits p c ∧ ¬ (s.detach c).Above c p ∧ (s.detach c).parent? c = none :=
  ⟨hfit.congr fun _ => payload?_detach, fun e => hup (e.of_fewer fun _ _ => h.parent?_of_detach),
    by rw [h.parent?_detach, if_pos rfl]⟩

/-! ### Operations -/

theorem appendChild (h : s.WellFormed) (hp : s.isContainer p) (hc : ∀ c ∈ child, s.Has c)
    (hok : s.appendChild p child = .ok s') : s'.WellFormed := by
  rw [Store.appendChild] at hok
  cases hcheck : s.checkChild p child none with
  | error e => simp [hcheck, bind, Except.bind] at hok
  | ok c =>
    obtain ⟨-, hfit, hup⟩ := h.checkChild_ok hp hc hcheck
    obtain ⟨hfit', hup', hfree⟩ := h.ready hfit hup
    obtain rfl : (s.detach c).attachLast p c = s' := by
      simpa [hcheck, bind, Except.bind, pure, Except.pure] using hok
    exact (h.detach c).attachLast hfit' hup' hfree

theorem insertBefore (h : s.WellFormed) (hp : s.isContainer p) (hc : ∀ c ∈ child, s.Has c)
    (hok : s.insertBefore p child ref = .ok s') : s'.WellFormed := by
  cases ref with
  | none => exact h.appendChild hp hc hok
  | some r =>
    rw [Store.insertBefore] at hok
    split at hok
    · cases hok
    · rename_i hr
      split at hok
      · obtain rfl : s = s' := by simpa using hok
        exact h
      · rename_i hne
        cases hcheck : s.checkChild p child none with
        | error e => simp [hcheck, bind, Except.bind] at hok
        | ok c =>
          obtain ⟨rfl, hfit, hup⟩ := h.checkChild_ok hp hc hcheck
          obtain ⟨hfit', hup', hfree⟩ := h.ready hfit hup
          obtain rfl : (s.detach c).attachBefore p c r = s' := by
            simpa [hcheck, bind, Except.bind, pure, Except.pure] using hok
          refine (h.detach c).attachBefore hfit' hup' hfree ?_
          rw [h.parent?_detach, if_neg fun e => hne (congrArg some e.symm)]
          exact not_not.mp hr

theorem replaceChild (h : s.WellFormed) (hp : s.isContainer p) (hc : ∀ c ∈ child, s.Has c)
    (hok : s.replaceChild p child ref = .ok s') : s'.WellFormed := by
  cases child with
  | none => simp [Store.replaceChild] at hok
  | some c =>
    cases ref with
    | none => simp [Store.replaceChild] at hok
    | some r =>
      rw [Store.replaceChild] at hok
      split at hok
      · cases hok
      · rename_i hr
        split at hok
        · obtain rfl : s = s' := by simpa using hok
          exact h
        · rename_i hne
          cases hcheck : s.checkChild p (some c) (some r) with
          | error e => simp [hcheck, bind, Except.bind] at hok
          | ok d =>
            obtain ⟨hd, hfit, hup⟩ := h.checkChild_ok hp hc hcheck
            obtain rfl : c = d := by simpa using hd
            obtain ⟨hfit', hup', hfree⟩ := h.ready hfit hup
            obtain rfl : (s.detach c).attachInstead p c r = s' := by
              simpa [hcheck, bind, Except.bind, pure, Except.pure] using hok
            refine (h.detach c).attachInstead hfit' hup' hfree ?_
            rw [h.parent?_detach, if_neg fun e => hne e.symm]
            exact not_not.mp hr

theorem removeChild (h : s.WellFormed) (hok : s.removeChild p child = .ok s') :
    s'.WellFormed := by
  cases child with
  | none => simp [Store.removeChild] at hok
  | some c =>
    rw [Store.removeChild] at hok
    split at hok
    · cases hok
    · obtain rfl : s.detach c = s' := by simpa using hok
      exact h.detach c

theorem linked_removeChildren (h : s.WellFormed) (hp : s.Has p) :
    Linked (s.removeChildren p).2 (Function.update s.children p []) :=
  h.linked.removeChildren hp

theorem parent?_of_removeChildren (h : s.WellFormed) (hp : s.Has p)
    (hm : (s.removeChildren p).2.parent? m = some q) : s.parent? m = some q ∧ q ≠ p := by
  rw [(h.linked_removeChildren hp).parent_iff] at hm
  rcases eq_or_ne q p with rfl | hq
  · simp at hm
  · exact ⟨h.mem_children.mp (by simpa [hq] using hm), hq⟩

theorem parent?_removeChildren (h : s.WellFormed) (hp : s.Has p) :
    (s.removeChildren p).2.parent? m = if s.parent? m = some p then none else s.parent? m := by
  have hl := h.linked_removeChildren hp
  split
  · rename_i hm
    refine Option.eq_none_iff_forall_ne_some.mpr fun q hq => ?_
    obtain ⟨hmq, hne⟩ := h.parent?_of_removeChildren hp hq
    exact hne (by simpa [hmq] using hm)
  · rename_i hm
    refine Option.ext fun q => ⟨fun hq => (h.parent?_of_removeChildren hp hq).1, fun hq => ?_⟩
    have hqp : q ≠ p := fun e => hm (e ▸ hq)
    refine (hl.parent_iff m q).mpr ?_
    rw [Function.update_of_ne hqp]
    exact h.mem_children.mpr hq

protected theorem removeChildren (h : s.WellFormed) (hp : s.Has p) :
    (s.removeChildren p).2.WellFormed :=
  h.of_fewer (h.linked_removeChildren hp) (fun _ _ hm => (h.parent?_of_removeChildren hp hm).1)
    fun _ => payload?_removeChildren

/-- Attaching several detached nodes, one behind the other. -/
theorem attachAll {cs : List NodeId} (h : s.WellFormed) (nd : cs.Nodup)
    (hcs : ∀ c ∈ cs, s.Fits p c ∧ ¬ s.Above c p ∧ s.parent? c = none) :
    (cs.foldl (fun s c => s.attachLast p c) s).WellFormed ∧ ∀ m,
      (cs.foldl (fun s c => s.attachLast p c) s).payload? m = s.payload? m ∧
      (cs.foldl (fun s c => s.attachLast p c) s).parent? m =
        if m ∈ cs then some p else s.parent? m := by
  induction cs generalizing s with
  | nil => exact ⟨h, fun m => by simp⟩
  | cons c cs ih =>
    obtain ⟨hfit, hup, hfree⟩ := hcs c (by simp)
    obtain ⟨hc, nd⟩ := List.nodup_cons.mp nd
    have hparent := fun m => h.parent?_attachLast (m := m) hfit hfree
    have hrest : ∀ d ∈ cs, (s.attachLast p c).Fits p d ∧ ¬ (s.attachLast p c).Above d p ∧
        (s.attachLast p c).parent? d = none := by
      intro d hd
      obtain ⟨hfit', hup', hfree'⟩ := hcs d (by simp [hd])
      refine ⟨hfit'.congr fun _ => payload?_attachLast, fun ⟨k, hk⟩ => hup' ⟨k, ?_⟩, ?_⟩
      · -- the path above `p` does not pass `c`, and is therefore the old one
        refine ascend_of_ascend (n := c) (fun m q hm hq => ?_) hup hk
        rwa [hparent, if_neg hm] at hq
      · have hdc : d ≠ c := fun e => hc (e ▸ hd)
        rw [hparent, if_neg hdc]
        exact hfree'
    obtain ⟨hw, hall⟩ := ih (h.attachLast hfit hup hfree) nd hrest
    refine ⟨hw, fun m => ⟨(hall m).1.trans payload?_attachLast, ?_⟩⟩
    rw [List.foldl_cons, (hall m).2, hparent]
    by_cases hm : m ∈ cs <;> by_cases hmc : m = c <;> simp [hm, hmc]

theorem forall_checkChild {l : List NodeId}
    (h : (l.forM fun c => (s.checkChild p (some c) none).map fun _ => ()) = .ok ()) :
    ∀ c ∈ l, ∃ d, s.checkChild p (some c) none = .ok d := by
  induction l with
  | nil => simp
  | cons a l ih =>
    rw [show ((a :: l).forM fun c => (s.checkChild p (some c) none).map fun _ => ()) =
      ((s.checkChild p (some a) none).map fun _ => ()) >>= fun _ =>
        l.forM fun c => (s.checkChild p (some c) none).map fun _ => () from rfl] at h
    cases ha : s.checkChild p (some a) none with
    | error e => simp [ha, Except.map, bind, Except.bind] at h
    | ok d =>
      intro c hc
      rcases List.mem_cons.mp hc with rfl | hc
      · exact ⟨d, ha⟩
      · exact ih (by simpa [ha, Except.map, bind, Except.bind] using h) c hc

/-- Moving children does nothing, or every child has passed the check. -/
theorem moveChildren_cases (h : s.moveChildren p dst = .ok s') :
    s' = s ∨ ∃ d, dst = some d ∧
      (∀ c ∈ s.children p, ∃ c', s.checkChild d (some c) none = .ok c') ∧
      s' = (s.children p).foldl (fun s c => s.attachLast d c) (s.removeChildren p).2 := by
  cases dst with
  | none => simp [Store.moveChildren] at h
  | some d =>
    rw [Store.moveChildren] at h
    split at h
    · cases h
    split at h
    · exact .inl (by simpa using h.symm)
    cases hall : (s.children p).forM fun c => (s.checkChild d (some c) none).map fun _ => () with
    | error e => simp [hall, bind, Except.bind] at h
    | ok =>
      refine .inr ⟨d, rfl, forall_checkChild hall, ?_⟩
      rw [hall] at h
      simp only [bind, Except.bind] at h
      split at h
      · cases h
      · exact (Except.ok.inj h).symm

theorem moveChildren_spec (h : s.WellFormed) (hp : s.Has p) (hd : ∀ d ∈ dst, s.isContainer d)
    (hok : s.moveChildren p dst = .ok s') :
    s'.WellFormed ∧ (∀ m, s'.payload? m = s.payload? m) ∧ ∀ m, s'.parent? m = s.parent? m ∨
      s.parent? m = some p ∧ ∃ d, dst = some d ∧ s'.parent? m = some d := by
  obtain rfl | ⟨d, rfl, hall, rfl⟩ := moveChildren_cases hok
  · exact ⟨h, fun _ => rfl, fun _ => .inl rfl⟩
  · have hready : ∀ c ∈ s.children p, (s.removeChildren p).2.Fits d c ∧
        ¬ (s.removeChildren p).2.Above c d ∧ (s.removeChildren p).2.parent? c = none := by
      intro c hc
      obtain ⟨c', hc'⟩ := hall c hc
      have hcp := h.mem_children.mp hc
      obtain ⟨e, hfit, hup⟩ := h.checkChild_ok (hd d rfl) (by simpa using has_of_parent? hcp) hc'
      obtain rfl : c = c' := by simpa using e
      refine ⟨hfit.congr fun _ => payload?_removeChildren,
        fun e => hup (e.of_fewer fun _ _ hm => ?_), ?_⟩
      · exact (h.parent?_of_removeChildren hp hm).1
      · rw [h.parent?_removeChildren hp, if_pos hcp]
    obtain ⟨hw, hrest⟩ := (h.removeChildren hp).attachAll (h.linked.nodup p) hready
    refine ⟨hw, fun m => (hrest m).1.trans payload?_removeChildren, fun m => ?_⟩
    rw [(hrest m).2]
    split
    · rename_i hm
      exact .inr ⟨h.mem_children.mp hm, d, rfl, rfl⟩
    · rename_i hm
      rw [h.parent?_removeChildren hp, if_neg fun e => hm (h.mem_children.mpr e)]
      exact .inl rfl

theorem moveChildren (h : s.WellFormed) (hp : s.Has p) (hd : ∀ d ∈ dst, s.isContainer d)
    (hok : s.moveChildren p dst = .ok s') : s'.WellFormed :=
  (h.moveChildren_spec hp hd hok).1

end WellFormed

end Store

end Stencil.Tree
