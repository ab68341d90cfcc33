import Mathlib.Data.Set.Card
import Stencil.Proofs.Tree.Attributes

/-!
# Changes within a region

Work on one node of a tree may rebuild everything below it, and adds nodes. A *region* is the set of
nodes that such work may touch. It is fixed when the work begins, contains all nodes that do not
exist yet, and is connected to the rest of the store at one node only, the anchor. Two regions
matter: what is strictly below a node, with the node itself as its anchor, and a node with what is
below it, with its parent as its anchor.

What is gained is a frame: siblings of the node worked on keep the subtrees they have, and therefore
their extents (`Within.extent_eq`).

## Main definitions

* `Store.Region`, `Store.Interior` – what is below a node, with and without the node itself
* `Store.Tidy` – the links that cross the border of a region
* `Store.Confined` – nothing outside of a region has changed
* `Store.Within` – both, after some work
* `Store.extent` – the number of nodes below a node

## Main results

* `Tidy.appendChild`, `Tidy.insertBefore`, `Tidy.removeChild`, `Tidy.removeChildren`,
  `Tidy.moveChildren`, `Tidy.clone`, `Tidy.dispose` – the operations stay within a region
* `Within.widen` – work within a part of a region is work within the region
* `Within.extent_eq`, `WellFormed.extent_lt` – the frame, and the descent to children
-/

namespace Stencil.Tree.Store

variable {s s' s'' : Store} {n m p q c d e a r x : NodeId} {R R' : NodeId → Prop}
  {anchor anchor' : Option NodeId} {node : Node} {child ref dst : Option NodeId}

/-- A node with what is below it, and all nodes that do not exist. -/
def Region (s : Store) (n m : NodeId) : Prop := s.Above n m ∨ ¬ s.Has m

/-- What is strictly below a node, and all nodes that do not exist. -/
def Interior (s : Store) (n m : NodeId) : Prop := s.Region n m ∧ m ≠ n

/-- A well-formed store, and a region of it that is connected to the rest by the anchor only. -/
structure Tidy (R : NodeId → Prop) (anchor : Option NodeId) (s : Store) : Prop where
  wellFormed : s.WellFormed
  owned : s.Owned
  /-- New nodes belong to the region. -/
  fresh (n : NodeId) : ¬ s.Has n → R n
  /-- What is below a node of the region belongs to it. -/
  down (n p : NodeId) : s.parent? n = some p → R p → R n
  /-- What is above a node of the region belongs to it, up to the anchor. -/
  up (n p : NodeId) : s.parent? n = some p → R n → R p ∨ anchor = some p

/-- Nothing outside of a region has changed, and no tag anywhere. -/
structure Confined (R : NodeId → Prop) (s s' : Store) : Prop where
  tag? (n : NodeId) (tag : NodeKind × Option Int × Text) : s.tag? n = some tag →
    s'.tag? n = some tag
  parent? (n : NodeId) : ¬ R n → s'.parent? n = s.parent? n
  attributes (n : NodeId) : ¬ R n → s'.attributes n = s.attributes n

/-- What work within a region leaves behind. -/
structure Within (R : NodeId → Prop) (anchor : Option NodeId) (s s' : Store) : Prop where
  tidy : Tidy R anchor s'
  confined : Confined R s s'

namespace Confined

@[refl] protected theorem refl (s : Store) : Confined R s s :=
  ⟨fun _ _ h => h, fun _ _ => rfl, fun _ _ => rfl⟩

protected theorem trans (h₁ : Confined R s s') (h₂ : Confined R s' s'') : Confined R s s'' where
  tag? n tag h := h₂.tag? n tag (h₁.tag? n tag h)
  parent? n h := (h₂.parent? n h).trans (h₁.parent? n h)
  attributes n h := (h₂.attributes n h).trans (h₁.attributes n h)

theorem mono (h : Confined R s s') (hR : ∀ n, R n → R' n) : Confined R' s s' where
  tag? := h.tag?
  parent? n hn := h.parent? n fun e => hn (hR n e)
  attributes n hn := h.attributes n fun e => hn (hR n e)

theorem has (h : Confined R s s') (hn : s.Has n) : s'.Has n := by
  obtain ⟨tag, htag⟩ := hn.exists_tag?
  exact has_of_tag? (h.tag? n tag htag)

theorem isElement (h : Confined R s s') (he : s.isElement e) : s'.isElement e := by
  obtain ⟨tag, htag⟩ := isElement_iff_tag?.mp he
  exact isElement_iff_tag?.mpr ⟨tag, h.tag? e _ htag⟩

theorem kind? (h : Confined R s s') (n : NodeId) (k : NodeKind) (hk : s.kind? n = some k) :
    s'.kind? n = some k := by
  rw [kind?_eq_map_tag?] at hk ⊢
  obtain ⟨tag, htag, rfl⟩ := Option.map_eq_some_iff.mp hk
  rw [h.tag? n tag htag]
  rfl

end Confined

theorem Tidy.within (h : Tidy R anchor s) : Within R anchor s s := ⟨h, .refl s⟩

theorem Within.trans (h₁ : Within R anchor s s') (h₂ : Within R anchor s' s'') :
    Within R anchor s s'' :=
  ⟨h₂.tidy, h₁.confined.trans h₂.confined⟩

/-! ### Regions -/

/-- All nodes together. -/
theorem WellFormed.tidy (h : s.WellFormed) (ho : s.Owned) : Tidy (fun _ => True) none s :=
  ⟨h, ho, fun _ _ => trivial, fun _ _ _ _ => trivial, fun _ _ _ _ => .inl trivial⟩

theorem WellFormed.tidy_region (h : s.WellFormed) (ho : s.Owned) (n : NodeId) :
    Tidy (s.Region n) (s.parent? n) s where
  wellFormed := h
  owned := ho
  fresh m hm := .inr hm
  down m p hp hR := by
    rcases hR with hup | hnew
    · exact .inl (hup.trans (.of_parent? hp))
    · exact absurd (h.has_parent hp) hnew
  up m p hp hR := by
    rcases hR with hup | hnew
    · rcases above_iff.mp hup with rfl | ⟨q, hq, hup⟩
      · exact .inr hp
      · obtain rfl : q = p := by simpa [hq] using hp
        exact .inl (.inl hup)
    · exact absurd (has_of_parent? hp) hnew

/-- The interior of a node is connected to the rest by the node itself. -/
theorem WellFormed.tidy_interior (h : s.WellFormed) (ho : s.Owned) (hn : s.Has n) :
    Tidy (s.Interior n) (some n) s where
  wellFormed := h
  owned := ho
  fresh m hm := ⟨.inr hm, fun e => hm (e ▸ hn)⟩
  down m p hp hR := by
    refine ⟨(h.tidy_region ho n).down m p hp hR.1, ?_⟩
    rintro rfl
    rcases hR.1 with hup | hnew
    · exact h.grounded.not_above_of_parent? hp hup
    · exact hnew (h.has_parent hp)
  up m p hp hR := by
    rcases (h.tidy_region ho n).up m p hp hR.1 with hp' | hp'
    · by_cases hpn : p = n
      · exact .inr (congrArg some hpn.symm)
      · exact .inl ⟨hp', hpn⟩
    · rcases hR.1 with hup | hnew
      · rcases above_iff.mp hup with rfl | ⟨q, hq, hup⟩
        · exact absurd rfl hR.2
        · obtain rfl : q = p := by simpa [hq] using hp
          exact absurd hup (h.grounded.not_above_of_parent? hp')
      · exact absurd (has_of_parent? hp) hnew

/-- The nodes that do not exist are a region of their own, wherever they will be attached. -/
theorem WellFormed.tidy_new (h : s.WellFormed) (ho : s.Owned) (anchor : Option NodeId) :
    Tidy (fun m => ¬ s.Has m) anchor s where
  wellFormed := h
  owned := ho
  fresh _ hm := hm
  down _ _ hp hR := absurd (h.has_parent hp) hR
  up _ _ hp hR := absurd (has_of_parent? hp) hR

/-- The nodes above one outside of a region are outside too. -/
theorem Tidy.not_of_above (h : Tidy R anchor s) (hn : ¬ R n) (hup : s.Above m n) : ¬ R m := by
  obtain ⟨k, hk⟩ := hup
  induction k generalizing n with
  | zero =>
    obtain rfl : n = m := by simpa [ascend] using hk
    exact hn
  | succ k ih =>
    obtain ⟨p, hp, hk⟩ := Option.bind_eq_some_iff.mp hk
    exact ih (fun hR => hn (h.down n p hp hR)) hk

theorem Tidy.below (h : Tidy R anchor s) (hn : R n) (hup : s.Above n m) : R m := by
  by_contra hm
  exact h.not_of_above hm hup hn

/-- The region of a node of a region is part of it. -/
theorem Tidy.region_le (h : Tidy R anchor s) (hn : R n) (hm : s.Region n m) : R m :=
  hm.elim (h.below hn) (h.fresh m)

/-- Work within a part of a region is work within the region. -/
theorem Within.widen (hw : Within R' anchor' s s') (h : Tidy R anchor s) (hR : ∀ m, R' m → R m)
    (ha : ∀ q, anchor' = some q → R q ∨ anchor = some q) : Within R anchor s s' := by
  have hconf : Confined R s s' := hw.confined.mono hR
  refine ⟨⟨hw.tidy.wellFormed, hw.tidy.owned, fun m hm => ?_, fun m q hq hRq => ?_,
    fun m q hq hRm => ?_⟩, hconf⟩
  · exact hR m (hw.tidy.fresh m hm)
  · by_contra hm
    rw [hconf.parent? m hm] at hq
    exact hm (h.down m q hq hRq)
  · by_cases hm : R' m
    · rcases hw.tidy.up m q hq hm with hq' | hq'
      · exact .inl (hR q hq')
      · exact ha q hq'
    · rw [hw.confined.parent? m hm] at hq
      exact h.up m q hq hRm

/-- Work on a node of the region stays in the region. -/
theorem Within.inner (hw : Within (s.Region n) (s.parent? n) s s') (h : Tidy R anchor s)
    (hn : R n) : Within R anchor s s' :=
  hw.widen h (fun _ => h.region_le hn) fun q hq => h.up n q hq hn

/-! ### Changes of links -/

/-- A change that moves nodes of the region only. -/
theorem Tidy.changed (h : Tidy R anchor s) (hw : s'.WellFormed) (ho : s'.Owned)
    (htag : ∀ m tag, s.tag? m = some tag → s'.tag? m = some tag)
    (hattr : ∀ m, ¬ R m → s'.attributes m = s.attributes m)
    (hout : ∀ m, ¬ R m → s'.parent? m = s.parent? m)
    (hin : ∀ m q, R m → s'.parent? m = some q → s.parent? m = some q ∨ R q ∨ anchor = some q) :
    Within R anchor s s' := by
  have hconf : Confined R s s' := ⟨htag, hout, hattr⟩
  refine ⟨⟨hw, ho, fun m hm => h.fresh m fun e => hm (hconf.has e), fun m q hq hR => ?_,
    fun m q hq hR => ?_⟩, hconf⟩
  · by_contra hm
    rw [hout m hm] at hq
    exact hm (h.down m q hq hR)
  · rcases hin m q hR hq with hq' | hq'
    · exact h.up m q hq' hR
    · exact hq'

/-- A change of links that moves nodes of the region only. -/
theorem Tidy.relinked (h : Tidy R anchor s) (hw : s'.WellFormed)
    (hpay : ∀ m, s'.payload? m = s.payload? m) (hout : ∀ m, ¬ R m → s'.parent? m = s.parent? m)
    (hin : ∀ m q, R m → s'.parent? m = some q → s.parent? m = some q ∨ R q ∨ anchor = some q) :
    Within R anchor s s' := by
  have hattr : ∀ m, s'.attributes m = s.attributes m := fun m => attributes_congr (hpay m)
  have hkind : ∀ m k, s.kind? m = some k → s'.kind? m = some k := fun m k hm => by
    rwa [kind?, hpay]
  exact h.changed hw (h.owned.congr hkind hattr) (fun m tag ht => by rwa [tag?, hpay])
    (fun m _ => hattr m) hout hin

theorem WellFormed.appendChild_parent? (h : s.WellFormed) (hp : s.isContainer p)
    (hc : ∀ c ∈ child, s.Has c) (hok : s.appendChild p child = .ok s') :
    ∃ c, child = some c ∧ (∀ m, s'.payload? m = s.payload? m) ∧
      ∀ m, s'.parent? m = if m = c then some p else s.parent? m := by
  rw [Store.appendChild] at hok
  cases hcheck : s.checkChild p child none with
  | error e => simp [hcheck, bind, Except.bind] at hok
  | ok c =>
    obtain ⟨hchild, hfit, hup⟩ := h.checkChild_ok hp hc hcheck
    obtain ⟨hfit', hup', hfree⟩ := h.ready hfit hup
    obtain rfl : (s.detach c).attachLast p c = s' := by
      simpa [hcheck, bind, Except.bind, pure, Except.pure] using hok
    refine ⟨c, hchild, fun m => by simp, fun m => ?_⟩
    rw [(h.detach c).parent?_attachLast hfit' hfree, h.parent?_detach]
    split <;> rfl

theorem Tidy.appendChild (h : Tidy R anchor s) (hp : s.isContainer p) (hc : s.Has c) (hR : R c)
    (hpR : R p ∨ anchor = some p) (hok : s.appendChild p (some c) = .ok s') :
    Within R anchor s s' := by
  have hc' : ∀ d ∈ some c, s.Has d := by simpa using hc
  obtain ⟨d, hd, hpay, hparent⟩ := h.wellFormed.appendChild_parent? hp hc' hok
  obtain rfl := Option.some.inj hd
  refine h.relinked (h.wellFormed.appendChild hp hc' hok) hpay (fun m hm => ?_) fun m q hm hq => ?_
  · have hmc : m ≠ c := fun e => hm (e ▸ hR)
    rw [hparent, if_neg hmc]
  · rw [hparent] at hq
    split at hq
    · obtain rfl := Option.some.inj hq
      exact .inr hpR
    · exact .inl hq

theorem WellFormed.insertBefore_parent? (h : s.WellFormed) (hp : s.isContainer p) (hc : s.Has c)
    (hok : s.insertBefore p (some c) (some r) = .ok s') :
    (∀ m, s'.payload? m = s.payload? m) ∧
      ∀ m, s'.parent? m = if m = c then some p else s.parent? m := by
  rw [Store.insertBefore] at hok
  split at hok
  · cases hok
  · rename_i hr
    split at hok
    · rename_i hcr
      obtain rfl := Except.ok.inj hok
      obtain rfl := Option.some.inj hcr
      refine ⟨fun _ => rfl, fun m => ?_⟩
      split
      · rename_i hm
        rw [hm]
        exact not_not.mp hr
      · rfl
    · rename_i hne
      cases hcheck : s.checkChild p (some c) none with
      | error e => simp [hcheck, bind, Except.bind] at hok
      | ok d =>
        obtain ⟨hd, hfit, hup⟩ := h.checkChild_ok hp (by simpa using hc) hcheck
        obtain rfl := Option.some.inj hd
        obtain ⟨hfit', hup', hfree⟩ := h.ready hfit hup
        obtain rfl : (s.detach c).attachBefore p c r = s' := by
          simpa [hcheck, bind, Except.bind, pure, Except.pure] using hok
        have hr' : (s.detach c).parent? r = some p := by
          have hrc : r ≠ c := fun e => hne (congrArg some e.symm)
          rw [h.parent?_detach, if_neg hrc]
          exact not_not.mp hr
        refine ⟨fun m => by simp, fun m => ?_⟩
        rw [(h.detach c).parent?_attachBefore hfit' hfree hr', h.parent?_detach]
        split <;> rfl

theorem Tidy.insertBefore (h : Tidy R anchor s) (hp : s.isContainer p) (hc : s.Has c) (hR : R c)
    (hpR : R p ∨ anchor = some p) (hok : s.insertBefore p (some c) (some r) = .ok s') :
    Within R anchor s s' := by
  obtain ⟨hpay, hparent⟩ := h.wellFormed.insertBefore_parent? hp hc hok
  refine h.relinked (h.wellFormed.insertBefore hp (by simpa using hc) hok) hpay (fun m hm => ?_)
    fun m q hm hq => ?_
  · have hmc : m ≠ c := fun e => hm (e ▸ hR)
    rw [hparent, if_neg hmc]
  · rw [hparent] at hq
    split at hq
    · obtain rfl := Option.some.inj hq
      exact .inr hpR
    · exact .inl hq

theorem Tidy.detach (h : Tidy R anchor s) (hR : R n) :
    Within R anchor s (s.detach n) := by
  refine h.relinked (h.wellFormed.detach n) (fun _ => payload?_detach) (fun m hm => ?_)
    fun m q _ hq => .inl (h.wellFormed.parent?_of_detach hq)
  have hmn : m ≠ n := fun e => hm (e ▸ hR)
  rw [h.wellFormed.parent?_detach, if_neg hmn]

theorem Tidy.removeChild (h : Tidy R anchor s) (hR : R c)
    (hok : s.removeChild p (some c) = .ok s') : Within R anchor s s' := by
  rw [Store.removeChild] at hok
  split at hok
  · cases hok
  · obtain rfl := Except.ok.inj hok
    exact h.detach hR

theorem Tidy.removeChildren (h : Tidy R anchor s) (hp : s.Has p)
    (hR : ∀ m, s.parent? m = some p → R m) : Within R anchor s (s.removeChildren p).2 := by
  refine h.relinked (h.wellFormed.removeChildren hp) (fun _ => payload?_removeChildren)
    (fun m hm => ?_) fun m q _ hq => .inl (h.wellFormed.parent?_of_removeChildren hp hq).1
  rw [h.wellFormed.parent?_removeChildren hp, if_neg fun e => hm (hR m e)]

theorem Tidy.moveChildren (h : Tidy R anchor s) (hp : s.Has p)
    (hR : ∀ m, s.parent? m = some p → R m) (hd : s.isContainer n) (hdR : R n)
    (hok : s.moveChildren p (some n) = .ok s') : Within R anchor s s' := by
  obtain ⟨hw, hpay, hparent⟩ := h.wellFormed.moveChildren_spec hp (by simpa using hd) hok
  refine h.relinked hw hpay (fun m hm => ?_) fun m q _ hq => ?_
  · rcases hparent m with hsame | ⟨hmp, -⟩
    · exact hsame
    · exact absurd (hR m hmp) hm
  · rcases hparent m with hsame | ⟨-, d, hdn, hmd⟩
    · exact .inl (hsame ▸ hq)
    · obtain rfl := Option.some.inj hdn
      obtain rfl : n = q := by simpa [hmd] using hq
      exact .inr (.inl hdR)

/-! ### New nodes and copies -/

theorem Tidy.growth (h : Tidy R anchor s) (hg : Growth s s') (ho : s'.Owned)
    (hattr : ∀ m, ¬ R m → s'.attributes m = s.attributes m) : Within R anchor s s' :=
  h.changed (h.wellFormed.growth hg) ho hg.tag? hattr (fun m _ => hg.parent? m) fun m q _ hq =>
    .inl (by rwa [hg.parent?] at hq)

/-- Growth that writes to no attribute table. -/
theorem Tidy.growth_attributes (h : Tidy R anchor s) (hg : Growth s s')
    (hattr : ∀ m, s'.attributes m = s.attributes m) : Within R anchor s s' :=
  h.growth hg (h.owned.congr hg.kind? hattr) fun m _ => hattr m

/-- A new node without attributes. -/
theorem Tidy.add (h : Tidy R anchor s) (hl : node.links = {})
    (hn : node.payload.isElement = false ∨
      ∃ d : ElementData, node.payload = .element { d with attrs := .empty }) :
    Within R anchor s (s.add node).2 := by
  have hnew : (s.add node).2.attributes (s.add node).1 = [] := by
    rw [attributes, attributeTable, element?, payload?_add, if_pos rfl]
    rcases hn with hn | ⟨d, hd⟩
    · cases hpay : node.payload with
      | element d => simp [hpay, Payload.isElement] at hn
      | _ => rfl
    · rw [hd]
      rfl
  refine h.growth_attributes (.add hl) fun m => ?_
  by_cases hm : m = (s.add node).1
  · rw [hm, hnew, attributes_of_not_has not_has_add]
  · exact attributes_add_of_ne hm

theorem Tidy.copyNode (h : Tidy R anchor s) (hn : s.Has n) :
    Within R anchor s (s.copyNode n).2 ∧ R (s.copyNode n).1 := by
  obtain ⟨⟨payload, links, visible, line⟩, hnode⟩ := hn.exists_get?
  rw [Store.copyNode, hnode]
  cases payload with
  | element d =>
    dsimp only
    generalize hcopy : ({ payload := .element { d with attrs := .empty }, visible, line } : Node) =
      copy
    have hw : Within R anchor s (s.add copy).2 :=
      h.add (by rw [← hcopy]) (.inr ⟨d, by rw [← hcopy]⟩)
    have hR : R (s.add copy).1 := h.fresh _ not_has_add
    have he : (s.add copy).2.isElement (s.add copy).1 :=
      isElement_iff_tag?.mpr ⟨(d.uri, d.name), by rw [tag?_add_self, ← hcopy]; rfl⟩
    obtain ⟨ho, hattr⟩ := copyAttributes_spec d.attrs.values hw.tidy.owned he
    refine ⟨hw.trans (hw.tidy.growth .copyAttributes ho fun m hm => ?_), hR⟩
    by_cases hhas : (s.add copy).2.Has m
    · exact hattr m (fun e => hm (e ▸ hR)) hhas
    · exact absurd (hw.tidy.fresh m hhas) hm
  | _ => exact ⟨h.add rfl (.inl rfl), h.fresh _ not_has_add⟩

/-- What is to be copied fits the new parents, and those belong to the region. -/
def Pending (R : NodeId → Prop) (s : Store) (level : List (NodeId × NodeId)) : Prop :=
  ∀ e ∈ level, R e.1 ∧ s.Fits e.1 e.2

theorem Pending.mono {level : List (NodeId × NodeId)} (h : Pending R s level)
    (hc : Confined R s s') : Pending R s' level := by
  intro e he
  exact ⟨(h e he).1, (h e he).2.mono hc.kind?⟩

theorem Tidy.copyBelow {next : Array (NodeId × NodeId)} {entry : NodeId × NodeId}
    (h : Tidy R anchor s) (hnext : Pending R s next.toList) (hR : R entry.1)
    (hfit : s.Fits entry.1 entry.2) :
    Within R anchor s (Store.copyBelow (next, s) entry).2 ∧
      Pending R (Store.copyBelow (next, s) entry).2 (Store.copyBelow (next, s) entry).1.toList := by
  obtain ⟨k, l, hk, hl, hkl⟩ := hfit
  have hhas := has_of_kind? hl
  obtain ⟨hg, hnew, -⟩ := copyNode_spec hhas
  have hkind := (kind?_copyNode hhas).trans hl
  obtain ⟨hw, hRnew⟩ := h.copyNode hhas
  have hfit' : (s.copyNode entry.2).2.Fits entry.1 (s.copyNode entry.2).1 :=
    ⟨k, l, hg.kind? _ k hk, hkind, hkl⟩
  have hfree := (h.wellFormed.fresh hg hnew).1
  have hparent := fun m => hw.tidy.wellFormed.parent?_attachLast (m := m) hfit' hfree
  have hattach : Within R anchor (s.copyNode entry.2).2
      ((s.copyNode entry.2).2.attachLast entry.1 (s.copyNode entry.2).1) := by
    refine hw.tidy.relinked (h.wellFormed.attachNew hg (has_of_kind? hk) hnew hfit')
      (fun _ => payload?_attachLast) (fun m hm => ?_) fun m q hm hq => ?_
    · have hmn : m ≠ (s.copyNode entry.2).1 := fun e => hm (e ▸ hRnew)
      rw [hparent, if_neg hmn]
    · rw [hparent] at hq
      split at hq
      · obtain rfl := Option.some.inj hq
        exact .inr (.inl hR)
      · exact .inl hq
  refine ⟨hw.trans hattach, fun e he => ?_⟩
  have he' : e ∈ next.toList ∨ e ∈ ((s.copyNode entry.2).2.children entry.2).map
      ((s.copyNode entry.2).1, ·) := by
    simpa [Store.copyBelow] using he
  rcases he' with he | he
  · exact hnext.mono (hw.trans hattach).confined e he
  · obtain ⟨c, hc, rfl⟩ := List.mem_map.mp he
    have hcopyable := Copyable.children hw.tidy.wellFormed (hkind.trans (hg.kind? _ l hl).symm)
    exact ⟨hRnew, (hcopyable _ he).congr fun _ => payload?_attachLast⟩

theorem Tidy.copyLevel {level : List (NodeId × NodeId)} {next : Array (NodeId × NodeId)}
    (h : Tidy R anchor s) (hnext : Pending R s next.toList) (hlevel : Pending R s level) :
    Within R anchor s (level.foldl Store.copyBelow (next, s)).2 ∧
      Pending R (level.foldl Store.copyBelow (next, s)).2
        (level.foldl Store.copyBelow (next, s)).1.toList := by
  induction level generalizing next s with
  | nil => exact ⟨h.within, hnext⟩
  | cons entry level ih =>
    obtain ⟨hR, hfit⟩ := hlevel entry (by simp)
    obtain ⟨hw, hn⟩ := h.copyBelow hnext hR hfit
    have hrest : Pending R s level := fun e he => hlevel e (by simp [he])
    obtain ⟨hw', hn'⟩ := ih hw.tidy hn (hrest.mono hw.confined)
    exact ⟨hw.trans hw', hn'⟩

theorem Tidy.copyLevels {limit : Nat} {level : List (NodeId × NodeId)} (h : Tidy R anchor s)
    (hlevel : Pending R s level) : Within R anchor s (Store.copyLevels limit level s) := by
  induction limit generalizing level s with
  | zero => exact h.within
  | succ limit ih =>
    cases level with
    | nil => exact h.within
    | cons entry level =>
      have hnil : Pending R s (#[] : Array (NodeId × NodeId)).toList := fun e he => by simp at he
      obtain ⟨hw, hn⟩ := h.copyLevel hnil hlevel
      exact hw.trans (ih hw.tidy hn)

/-- A copy of a subtree is made of new nodes. -/
theorem Tidy.clone (h : Tidy R anchor s) (hn : s.Has n) :
    Within R anchor s (s.clone n).2 ∧ ¬ s.Has (s.clone n).1 ∧ (s.clone n).2.Has (s.clone n).1 := by
  obtain ⟨hg, hnew, htag⟩ := copyNode_spec hn
  obtain ⟨hw, hR⟩ := h.copyNode hn
  have hpending : Pending R (s.copyNode n).2 ((s.children n).map ((s.copyNode n).1, ·)) := by
    intro e he
    obtain ⟨c, hc, rfl⟩ := List.mem_map.mp he
    obtain ⟨k, l, hk, hl, hkl⟩ := h.wellFormed.fits c n (h.wellFormed.mem_children.mp hc)
    exact ⟨hR, k, l, (kind?_copyNode hn).trans hk, hg.kind? c l hl, hkl⟩
  have hw' : Within R anchor (s.copyNode n).2 (s.clone n).2 := hw.tidy.copyLevels hpending
  obtain ⟨tag, ht⟩ := hn.exists_tag?
  exact ⟨hw.trans hw', hnew, hw'.confined.has (has_of_tag? (htag.trans ht))⟩

/-! ### Disposal -/

theorem tag?_clearNode {tag : NodeKind × Option Int × Text} (h : s.tag? m = some tag) :
    (s.clearNode n).tag? m = some tag := by
  rw [clearNode]
  refine (Growth.trans .discardAttributes .modifyDocument).tag? m tag ?_
  rwa [tag?, payload?_relink]

theorem attributes_clearNode :
    (s.clearNode n).attributes m = if m = n then [] else s.attributes m := by
  rw [clearNode, attributes_modifyDocument, attributes_discardAttributes]
  split
  · rfl
  · exact attributes_congr payload?_relink

theorem foldl_clearNode_tables (l : List NodeId) :
    (∀ m tag, s.tag? m = some tag → (l.foldl clearNode s).tag? m = some tag) ∧
      ∀ m, (l.foldl clearNode s).attributes m = if m ∈ l then [] else s.attributes m := by
  induction l generalizing s with
  | nil => exact ⟨fun _ _ h => h, fun m => by simp⟩
  | cons n l ih =>
    obtain ⟨htags, hattributes⟩ := ih (s := s.clearNode n)
    rw [List.foldl_cons]
    refine ⟨fun m tag h => htags m tag (tag?_clearNode h), fun m => ?_⟩
    rw [hattributes, attributes_clearNode]
    by_cases hm : m ∈ l <;> by_cases hmn : m = n <;> simp [hm, hmn]

theorem Tidy.dispose (h : Tidy R anchor s) (hn : s.Has n) (hR : R n) :
    Within R anchor s (s.dispose n) := by
  have hd := h.detach hR
  have hn' := hd.confined.has hn
  have hw := hd.tidy.wellFormed
  have hmem := fun m => hw.linked.mem_subtree (m := m) hw.grounded hn'
  have hsub : ∀ m ∈ (s.detach n).subtree n, R m ∧ (s.detach n).Has m := by
    intro m hm
    refine ⟨hd.tidy.below hR ((hmem m).mp hm), ?_⟩
    rcases above_iff.mp ((hmem m).mp hm) with rfl | ⟨q, hq, -⟩
    · exact hn'
    · exact has_of_parent? hq
  obtain ⟨hlinks, -⟩ := foldl_clearNode fun m hm => (hsub m hm).2
  obtain ⟨htag, hattr⟩ := foldl_clearNode_tables (s := s.detach n) ((s.detach n).subtree n)
  have hparent : ∀ m q, (s.dispose n).parent? m = some q → (s.detach n).parent? m = some q := by
    intro m q hq
    rw [Store.dispose, parent?, hlinks] at hq
    split at hq
    · cases hq
    · exact hq
  refine hd.trans (hd.tidy.changed (h.wellFormed.dispose hn) ?_ htag (fun m hm => ?_)
    (fun m hm => ?_) fun m q _ hq => .inl (hparent m q hq))
  · refine hd.tidy.owned.of_sublist (fun m k hk => ?_) fun m => ?_
    · rw [kind?_eq_map_tag?] at hk ⊢
      obtain ⟨tag, ht, rfl⟩ := Option.map_eq_some_iff.mp hk
      exact congrArg (Option.map _) (htag m tag ht)
    · rw [Store.dispose, hattr]
      split
      · exact List.nil_sublist _
      · exact .refl _
  · rw [Store.dispose, hattr, if_neg fun hin => hm (hsub m hin).1]
  · rw [Store.dispose, parent?, hlinks, if_neg fun hin => hm (hsub m hin).1, ← parent?]

theorem Tidy.disposeAll {l : List NodeId} (h : Tidy R anchor s) (hl : ∀ c ∈ l, R c ∧ s.Has c) :
    Within R anchor s (l.foldl (fun s c => s.dispose c) s) := by
  induction l generalizing s with
  | nil => exact h.within
  | cons c l ih =>
    obtain ⟨hR, hhas⟩ := hl c (by simp)
    have hw := h.dispose hhas hR
    refine hw.trans (ih hw.tidy fun d hd => ?_)
    obtain ⟨hR', hhas'⟩ := hl d (by simp [hd])
    exact ⟨hR', hw.confined.has hhas'⟩

/-! ### The frame -/

/-- Outside of the region nothing is above a node that was not above it before. -/
theorem Within.above_outside (hw : Within R anchor s s') (h : Tidy R anchor s) (hx : ¬ R x) :
    s'.Above a x ↔ s.Above a x := by
  have hpath : ∀ k, s'.ascend k x = s.ascend k x := by
    intro k
    induction k generalizing x with
    | zero => rfl
    | succ k ih =>
      rw [ascend, ascend, hw.confined.parent? x hx]
      cases hp : s.parent? x with
      | none => rfl
      | some p => exact ih fun hR => hx (h.down x p hp hR)
  simp only [Above, hpath]

/-- A node outside of the region that is not above the anchor is above nothing of the region. -/
theorem Tidy.not_above (h : Tidy R anchor s) (hd : ¬ R d)
    (ha : ∀ q, anchor = some q → ¬ R q → ¬ s.Above d q) (hx : R x) : ¬ s.Above d x := by
  rintro ⟨k, hk⟩
  induction k generalizing x with
  | zero =>
    obtain rfl : x = d := by simpa [ascend] using hk
    exact hd hx
  | succ k ih =>
    obtain ⟨q, hq, hk⟩ := Option.bind_eq_some_iff.mp hk
    by_cases hR : R q
    · exact ih hR hk
    · rcases h.up x q hq hx with hq' | hq'
      · exact hR hq'
      · exact ha q hq' hR ⟨k, hk⟩

/-- **Frame.** A node outside of the region that is not above the anchor keeps what is below it. -/
theorem Within.above_iff (hw : Within R anchor s s') (h : Tidy R anchor s) (hd : ¬ R d)
    (ha : ∀ q, anchor = some q → ¬ s.Above d q) : s'.Above d x ↔ s.Above d x := by
  by_cases hx : R x
  · refine iff_of_false (hw.tidy.not_above hd (fun q hq hR => ?_) hx)
      (h.not_above hd (fun q hq _ => ha q hq) hx)
    rw [hw.above_outside h hR]
    exact ha q hq
  · exact hw.above_outside h hx

/-- The number of nodes below a node, itself included. -/
noncomputable def extent (s : Store) (n : NodeId) : Nat := {x | s.Above n x}.ncard

theorem finite_above (s : Store) (n : NodeId) : {x | s.Above n x}.Finite := by
  refine ((Set.finite_lt_nat s.nodes.size).union (Set.finite_singleton n)).subset fun x hx => ?_
  rcases above_iff.mp hx with rfl | ⟨q, hq, -⟩
  · exact .inr rfl
  · exact .inl (has_of_parent? hq)

/-- A child has fewer nodes below it than its parent. -/
theorem WellFormed.extent_lt (h : s.WellFormed) (hp : s.parent? c = some p) :
    s.extent c < s.extent p := by
  refine Set.ncard_lt_ncard ⟨fun x hx => (Above.of_parent? hp).trans hx, fun hsub => ?_⟩
    (s.finite_above p)
  exact h.grounded.not_above_of_parent? hp (hsub (Above.refl p))

/-- A node is apart from the nodes below it. -/
theorem WellFormed.not_region_parent (h : s.WellFormed) (hc : s.parent? c = some p) :
    ¬ s.Region c p := by
  rintro (hup | hnew)
  · exact h.grounded.not_above_of_parent? hc hup
  · exact hnew (h.has_parent hc)

/-- Two children of one node are apart. -/
theorem WellFormed.not_region_sibling (h : s.WellFormed) (hc : s.parent? c = some p)
    (hd : s.parent? d = some p) (hne : d ≠ c) : ¬ s.Region c d := by
  rintro (hup | hnew)
  · rcases above_iff.mp hup with rfl | ⟨q, hq, hup⟩
    · exact hne rfl
    · obtain rfl : q = p := by simpa [hq] using hd
      exact h.grounded.not_above_of_parent? hc hup
  · exact hnew (has_of_parent? hd)

/-- **Siblings keep their subtrees.** -/
theorem Within.extent_eq (hw : Within (s.Region c) (s.parent? c) s s') (h : s.WellFormed)
    (ho : s.Owned) (hc : s.parent? c = some p) (hd : s.parent? d = some p) (hne : d ≠ c) :
    s'.extent d = s.extent d := by
  have hout := h.not_region_sibling hc hd hne
  have hanchor : ∀ q, s.parent? c = some q → ¬ s.Above d q := by
    intro q hq
    obtain rfl : p = q := by simpa [hc] using hq
    exact h.grounded.not_above_of_parent? hd
  rw [extent, extent]
  congr 1
  ext x
  exact hw.above_iff (h.tidy_region ho c) hout hanchor

end Stencil.Tree.Store
