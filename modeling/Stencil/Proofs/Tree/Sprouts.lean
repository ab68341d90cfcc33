import Stencil.Proofs.Tree.Additions
import Stencil.Proofs.Tree.Folding
import Stencil.Proofs.Tree.Views

/-!
# What children hold while a tree is built

A tree is built by adding nodes at the end of one node at a time. What the children of that node
hold is known (`Store.Under`), and each addition makes the list one longer or replaces its last
entry: a new tree that stood nowhere becomes the last child (`Sprout.attach`), or the last child is
a text and grows (`Under.grow`). Outside of that node nothing changes (`Store.Tends`), so what was
built before stays as it is.

## Main definitions

* `Store.Under` – what the children of a node hold
* `Store.Sprout` – a new tree that stands nowhere
* `Store.Tends` – changes below one node

## Main results

* `Sprout.attach`, `Sprout.element` – a new tree becomes the last child, and new elements
* `Tends.under` – the last child is replaced
* `Under.appendToText`, `Under.appendPieces` – adding to the text at the end
-/

namespace Stencil.Tree

namespace Store

variable {s₀ s s' s₁ s₂ : Store} {p q n c : NodeId} {cs : List Content} {x y : Content}

/-! ### Children -/

/-- What the children of a node hold. -/
def Under (s : Store) (p : NodeId) (cs : List Content) : Prop := (s.children p).Forall₂ s.Holds cs

/-- The last child of a node, if its children hold anything. -/
theorem Under.exists_last (h : s.WellFormed) (hu : s.Under p (cs ++ [x])) : ∃ l t,
    s.children p = l ++ [t] ∧ l.Forall₂ s.Holds cs ∧ s.Holds t x ∧ s.lastChild? p = some t ∧
      s.parent? t = some p := by
  have hfront := List.forall₂_take_append _ _ _ hu
  have hback := List.forall₂_drop_append _ _ _ hu
  obtain ⟨t, l', ht, hnil, hl'⟩ := List.forall₂_cons_right_iff.mp hback
  obtain rfl := List.forall₂_nil_right_iff.mp hnil
  have hchildren : s.children p = (s.children p).take cs.length ++ [t] := by
    rw [← hl', List.take_append_drop]
  refine ⟨_, t, hchildren, hfront, ht, ?_, h.mem_children.mp ?_⟩
  · rw [h.linked.last, hchildren, List.getLast?_concat]
  · rw [hchildren]
    exact List.mem_append_right _ (List.mem_singleton_self t)

theorem Under.lastChild?_eq_none (h : s.WellFormed) (hu : s.Under p []) :
    s.lastChild? p = none := by
  rw [h.linked.last, List.forall₂_nil_right_iff.mp hu]
  rfl

/-- What children hold as long as nothing happens in the region of the node. -/
theorem Under.untouched {R : NodeId → Prop} (h : s.WellFormed) (hu : s.Under p cs)
    (hs : Untouched R s s') (hchildren : s'.children p = s.children p)
    (hout : ∀ m, m ≠ p → s.Above p m → ¬ R m) : s'.Under p cs := by
  rw [Under, hchildren]
  refine hs.holds_all h (fun c hc => ?_) hu
  have hparent := h.mem_children.mp hc
  refine ⟨h.placeable hparent, fun m hm => hout m ?_ ((Above.of_parent? hparent).trans hm)⟩
  rintro rfl
  exact h.grounded.not_above_of_parent? hparent hm

/-- Something happens to the last child only. -/
theorem Under.replace_last (hw : s.WellFormed) (hu : s.Under p (cs ++ [x]))
    (hq : s.lastChild? p = some q) (hs : Untouched (s.Above q) s s')
    (hchildren : s'.children p = s.children p) (hy : s'.Holds q y) : s'.Under p (cs ++ [y]) := by
  obtain ⟨l, t, hlist, hl, -, hlast, hparent⟩ := hu.exists_last hw
  obtain rfl : q = t := Option.some.inj (hq.symm.trans hlast)
  rw [Under, hchildren, hlist]
  refine List.rel_append (hs.holds_all hw (fun c hc => ?_) hl) (.cons hy .nil)
  have hmem : c ∈ s.children p := hlist ▸ List.mem_append_left _ hc
  have hc' := hw.mem_children.mp hmem
  refine ⟨hw.placeable hc', fun m hcm hqm => hw.not_above_siblings hc' hparent ?_ hcm hqm⟩
  rintro rfl
  have hnodup := hw.linked.nodup p
  rw [hlist] at hnodup
  exact (List.nodup_append.mp hnodup).2.2 _ hc _ (List.mem_singleton_self _) rfl

/-- A node that stands nowhere becomes the last child. -/
theorem Under.attachLast (h : s.WellFormed) (hfit : s.Fits p n) (halone : s.parent? n = none)
    (hn : s.Placeable n) (hup : ¬ s.Above n p) (hu : s.Under p cs) (hx : s.Holds n x) :
    (s.attachLast p n).Under p (cs ++ [x]) := by
  obtain ⟨k, l, hk, hl, -⟩ := hfit
  obtain ⟨hview, hs⟩ := h.view_attachLast (has_of_kind? hk) (has_of_kind? hl) halone
  have hchildren : (s.attachLast p n).children p = s.children p ++ [n] :=
    congrArg View.children hview
  rw [Under, hchildren]
  refine hs.holds_all h (fun c hc => ?_) (List.rel_append hu (.cons hx .nil))
  rcases List.mem_append.mp hc with hc | hc
  · have hparent := h.mem_children.mp hc
    refine ⟨h.placeable hparent, ?_⟩
    rintro m hm rfl
    exact h.grounded.not_above_of_parent? hparent hm
  · obtain rfl := List.mem_singleton.mp hc
    refine ⟨hn, ?_⟩
    rintro m hm rfl
    exact hup hm

theorem WellFormed.lastChild?_attachLast (h : s.WellFormed) (hp : s.Has p) (hn : s.Has n)
    (halone : s.parent? n = none) : (s.attachLast p n).lastChild? p = some n := by
  rw [(h.linked.attachLast hn hp halone).last, Function.update_self, List.getLast?_concat]

/-! ### New trees -/

/-- A tree was added that stands nowhere. -/
structure Sprout (s s' : Store) (n : NodeId) (x : Content) : Prop where
  wellFormed : s'.WellFormed
  kept (m : NodeId) : s.Has m → s'.get? m = s.get? m
  new : ¬ s.Has n
  placeable : s'.Placeable n
  alone : s'.parent? n = none
  holds : s'.Holds n x

/-- Changes below one node: what was there has not moved, and looks as it did unless it is below
that node. -/
structure Tends (p : NodeId) (s s' : Store) : Prop where
  parent? (n : NodeId) : s.Has n → s'.parent? n = s.parent? n
  kind? (n : NodeId) (k : NodeKind) : s.kind? n = some k → s'.kind? n = some k
  view (n : NodeId) : s.Has n → s.kind? n ≠ some .attr → ¬ s.Above p n → s'.view n = s.view n
  loose : s'.loose p = s.loose p
  attributes : (s'.attributes p).map s'.loose = (s.attributes p).map s.loose

namespace Tends

protected theorem refl (s : Store) : Tends p s s :=
  ⟨fun _ _ => rfl, fun _ _ h => h, fun _ _ _ _ => rfl, rfl, rfl⟩

theorem has (h : Tends p s s') (hn : s.Has n) : s'.Has n := by
  obtain ⟨k, hk⟩ := hn.exists_kind?
  exact has_of_kind? (h.kind? n k hk)

protected theorem trans (hw : s.WellFormed) (h : Tends p s s₁) (h' : Tends p s₁ s₂) :
    Tends p s s₂ where
  parent? n hn := (h'.parent? n (h.has hn)).trans (h.parent? n hn)
  kind? n k hk := h'.kind? n k (h.kind? n k hk)
  view n hn hkind hout := by
    refine (h'.view n (h.has hn) ?_ ?_).trans (h.view n hn hkind hout)
    · obtain ⟨k, hk⟩ := hn.exists_kind?
      rw [h.kind? n k hk, ← hk]
      exact hkind
    · rwa [above_kept hw h.parent? hn]
  loose := h'.loose.trans h.loose
  attributes := h'.attributes.trans h.attributes

theorem untouched (h : Tends p s s') : Untouched (s.Above p) s s' := .of_view h.kind? h.view

/-- Changes below a child are changes below the parent, which itself looks as it did. -/
theorem of_child (hw : s.WellFormed) (hq : s.parent? q = some p) (h : Tends q s s') :
    Tends p s s' ∧ s'.view p = s.view p := by
  have hp : s.Has p := hw.has_parent hq
  have hview : s'.view p = s.view p := by
    refine h.view p hp ?_ (hw.grounded.not_above_of_parent? hq)
    obtain ⟨k, l, hk, -, hkl⟩ := hw.fits q p hq
    rw [hk]
    rintro ⟨⟩
    cases l <;> cases hkl
  refine ⟨⟨h.parent?, h.kind?, fun n hn hkind hout => ?_, congrArg View.self hview,
    congrArg View.attributes hview⟩, hview⟩
  exact h.view n hn hkind fun hup => hout ((Above.of_parent? hq).trans hup)

/-- The content of the last child is replaced. -/
theorem under (hw : s.WellFormed) (hu : s.Under p (cs ++ [x])) (hq : s.lastChild? p = some q)
    (h : Tends q s s') (hy : s'.Holds q y) : s'.Under p (cs ++ [y]) := by
  obtain ⟨-, t, -, -, -, hlast, hparent⟩ := hu.exists_last hw
  obtain rfl : q = t := Option.some.inj (hq.symm.trans hlast)
  exact hu.replace_last hw hq h.untouched (congrArg View.children (h.of_child hw hparent).2) hy

end Tends

namespace Sprout

theorem parent?_kept (h : Sprout s s' n x) {m : NodeId} (hm : s.Has m) :
    s'.parent? m = s.parent? m := by
  rw [Store.parent?, links, h.kept m hm, Store.parent?, links]

theorem kind?_kept (h : Sprout s s' n x) {m : NodeId} (hm : s.Has m) : s'.kind? m = s.kind? m :=
  kind?_eq_of_loose (loose_congr (h.kept m hm))

theorem not_above (hw : s.WellFormed) (h : Sprout s s' n x) (hp : s.Has p) : ¬ s'.Above n p :=
  not_above_new hw (fun _ => h.parent?_kept) hp h.new

theorem under (hw : s.WellFormed) (ho : s.Owned) (h : Sprout s s' n x) (hp : s.Has p)
    (hu : s.Under p cs) : s'.Under p cs := by
  refine hu.untouched hw (.of_get? hw ho.listed h.kept (R := fun _ => False)) ?_ fun _ _ _ => id
  exact congrArg View.children (hw.view_of_untouched ho.listed h.kept hp)

/-- The new tree becomes the last child of a node. -/
theorem attach (hw : s.WellFormed) (ho : s.Owned) (h : Sprout s s' n x) (hfit : s'.Fits p n)
    (hp : s.Has p) (hu : s.Under p cs) :
    Tends p s (s'.attachLast p n) ∧ (s'.attachLast p n).Under p (cs ++ [x]) := by
  refine ⟨⟨fun m hm => ?_, fun m k hk => ?_, fun m hm hkind hout => ?_, ?_, ?_⟩,
    (h.under hw ho hp hu).attachLast h.wellFormed hfit h.alone h.placeable
      (h.not_above hw hp) h.holds⟩
  · have hne : m ≠ n := fun e => h.new (e ▸ hm)
    rw [h.wellFormed.parent?_attachLast hfit h.alone, if_neg hne, h.parent?_kept hm]
  · rw [Store.kind?, payload?_attachLast, ← Store.kind?, h.kind?_kept (has_of_kind? hk), hk]
  · have hne : m ≠ p := by
      rintro rfl
      exact hout (.refl m)
    have hkids := (h.wellFormed.linked.attachLast h.placeable.has
      (has_of_kind? hfit.choose_spec.choose_spec.1) h.alone).children_eq
    refine (view_congr loose_attachLast (attributes_congr payload?_attachLast)
      (fun _ _ => loose_attachLast) ?_).trans (hw.view_of_untouched ho.listed h.kept hm)
    rw [hkids, Function.update_of_ne hne]
  · rw [loose_attachLast, loose_congr (h.kept p hp)]
  · have hview := hw.view_of_untouched ho.listed h.kept hp
    rw [attributes_congr payload?_attachLast,
      List.map_congr_left fun a _ => loose_attachLast (m := a)]
    exact congrArg View.attributes hview

end Sprout

/-- A new node that is no element has neither attributes nor children. -/
theorem WellFormed.holds_add {node : Node} (hw : s.WellFormed) (hlinks : node.links = {})
    (helement : node.payload.isElement = false) :
    (s.add node).2.Holds (s.add node).1 (.node (some node.loose) [] []) := by
  have hnew : ¬ s.Has (s.add node).1 := not_has_add
  obtain ⟨-, hchildless⟩ := hw.fresh (.add hlinks) hnew
  have hnone : (s.add node).2.element? (s.add node).1 = none := by
    rw [element?, payload?_add, if_pos rfl]
    cases hpay : node.payload <;> simp_all [Payload.isElement]
  have hchildren : (s.add node).2.children (s.add node).1 = [] :=
    List.eq_nil_iff_forall_not_mem.mpr fun c hc =>
      hchildless c ((hw.growth (.add hlinks)).mem_children.mp hc)
  refine holds_iff.mpr ⟨loose_add_self, ?_, ?_⟩
  · rw [attributes_of_not_element hnone]
    rfl
  · rw [hchildren]
    exact .nil

/-- A new node without attributes and children. -/
theorem Sprout.leaf {node : Node} (hw : s.WellFormed) (hlinks : node.links = {})
    (helement : node.payload.isElement = false)
    (hkind : node.payload.nodeKind ≠ .document ∧ node.payload.nodeKind ≠ .attr) :
    Sprout s (s.add node).2 (s.add node).1 (.node (some node.loose) [] []) where
  wellFormed := hw.growth (.add hlinks)
  kept _ hm := get?_add_of_has hm
  new := not_has_add
  placeable := ⟨_, kind?_add_self, hkind⟩
  alone := (hw.fresh (.add hlinks) not_has_add).1
  holds := hw.holds_add hlinks helement

/-! ### Texts -/

/-- Other character data at a node is noticed by those who look at the node. -/
theorem view_setCdata (hw : s.WellFormed) (ho : s.Owned) {old new : Text}
    (hc : s.payload? c = some (.cdata old)) (hn : n ≠ c) :
    (s.setPayload c (.cdata new)).view n = s.view n := by
  have hg : Growth s (s.setPayload c (.cdata new)) := .setPayload (by rw [tag?, hc]; rfl)
  have hget : ∀ m, m ≠ c → (s.setPayload c (.cdata new)).get? m = s.get? m := fun m hm => by
    rw [setPayload, get?_modify, if_neg (Ne.symm hm)]
  refine view_congr (loose_congr (hget n hn)) (attributes_congr (payload?_congr (hget n hn)))
    (fun a ha => loose_congr (hget a ?_))
    (hw.children_congr (fun _ => hg.has) (hg.links n) fun m _ => hg.links m)
  rintro rfl
  have hkind := ho.kind n a ha
  rw [kind?, hc] at hkind
  cases hkind

/-- A node that says something without ties is of that kind. -/
theorem payload?_of_loose {node : Node} (h : s.loose n = some node) :
    (s.payload? n).map Payload.loose = some node.payload := by
  obtain ⟨found, hfound, rfl⟩ := Option.map_eq_some_iff.mp h
  rw [payload?, hfound]
  rfl

theorem payload?_eq_cdata_iff {node : Node} (h : s.loose n = some node) {old : Text} :
    s.payload? n = some (.cdata old) ↔ node.payload = .cdata old := by
  have hloose := payload?_of_loose h
  cases hp : s.payload? n with
  | none => simp [hp] at hloose
  | some p =>
    rw [hp, Option.map_some, Option.some.injEq] at hloose
    rw [← hloose]
    cases p <;> simp [Payload.loose]

variable {t : NodeId} {ns : List Node} {node : Node} {data : Text} {line : Nat}

/-- A new node in a text. -/
theorem Under.addLeaf (hw : s.WellFormed) (ho : s.Owned) (ht : s.kind? t = some .text)
    (hu : s.Under t (ns.map .leaf)) (hlinks : node.links = {})
    (hloose : node.payload.loose = node.payload)
    (hfit : NodeKind.text.admits node.payload.nodeKind) :
    Tends t s ((s.add node).2.attachLast t (s.add node).1) ∧
      ((s.add node).2.attachLast t (s.add node).1).Under t ((ns ++ [node]).map .leaf) := by
  have hself : node.loose = node := by rw [Node.loose, hloose, ← hlinks]
  have hsprout : Sprout s (s.add node).2 (s.add node).1 (.node (some node.loose) [] []) := by
    refine .leaf hw hlinks ?_ ?_
    · cases hpay : node.payload <;>
        simp_all [Payload.isElement, NodeKind.admits, Payload.nodeKind]
    · cases hpay : node.payload <;> simp_all [NodeKind.admits, Payload.nodeKind]
  rw [hself] at hsprout
  rw [List.map_append]
  refine hsprout.attach hw ho ⟨_, _, ?_, kind?_add_self, hfit⟩ (has_of_kind? ht) hu
  rw [hsprout.kind?_kept (has_of_kind? ht), ht]

/-- Output at the end of a text that is not empty. -/
theorem Under.appendData (hw : s.WellFormed) (ho : s.Owned) (ht : s.kind? t = some .text)
    (hne : ns ≠ []) (hu : s.Under t (ns.map .leaf)) :
    Tends t s (s.appendData t data) ∧
      (s.appendData t data).Under t ((join ns (.data line data)).map .leaf) := by
  obtain ⟨ns, node, rfl⟩ := (List.eq_nil_or_concat ns).resolve_left hne
  rw [List.concat_eq_append] at hu ⊢
  rw [List.map_append] at hu
  obtain ⟨l, c, hchildren, hl, hc, hlast, hparent⟩ := hu.exists_last hw
  obtain ⟨hself, hattrs, hinner⟩ := holds_iff.mp hc
  have hpay (old : Text) : s.payload? c = some (.cdata old) ↔ node.payload = .cdata old :=
    payload?_eq_cdata_iff hself
  rw [Store.appendData, hlast, Option.bind_some, join, List.getLast?_concat]
  dsimp only
  split
  · rename_i c' old hc' hold
    obtain rfl := Option.some.inj hc'
    have hnode := (hpay old).mp hold
    rw [hnode, List.dropLast_concat, List.map_append]
    have hg : Growth s (s.setPayload c (.cdata (old ++ data))) :=
      .setPayload (by rw [tag?, hold]; rfl)
    have hview : ∀ n, n ≠ c → (s.setPayload c (.cdata (old ++ data))).view n = s.view n :=
      fun n => view_setCdata hw ho hold
    have htc : t ≠ c := by
      rintro rfl
      exact hw.grounded.not_above_of_parent? hparent (.refl t)
    have hs : Untouched (s.Above c) s (s.setPayload c (.cdata (old ++ data))) :=
      .of_view hg.kind? fun n _ _ hout => hview n fun e => hout (e ▸ .refl n)
    refine ⟨⟨fun n _ => hg.parent? n, hg.kind?, fun n _ _ hout => hview n ?_,
      congrArg View.self (hview t htc), congrArg View.attributes (hview t htc)⟩,
      hu.replace_last hw hlast hs (congrArg View.children (hview t htc))
        (holds_iff.mpr ⟨?_, ?_, ?_⟩)⟩
    · rintro rfl
      exact hout (.of_parent? hparent)
    · obtain ⟨found, hfound, hfound'⟩ := Option.map_eq_some_iff.mp hself
      rw [setPayload, Store.loose, get?_modify, if_pos rfl, hfound, ← hfound']
      rfl
    · rw [attributes_of_not_element]
      · rfl
      · rw [element?, payload?_setPayload (has_of_payload? hold), if_pos rfl]
    · rw [hw.children_congr (fun _ => hg.has) (hg.links c) fun m _ => hg.links m,
        List.forall₂_nil_right_iff.mp hinner]
      exact .nil
  · rename_i hnot
    split
    · rename_i old hnode
      exact absurd ((hpay old).mpr hnode) (hnot c old rfl)
    · rw [← List.map_append] at hu
      exact hu.addLeaf hw ho ht rfl rfl rfl

/-! ### What a node ends with -/

/-- The text of some scraps, if there are any. -/
def textsOf (scraps : List Scrap) : List Content :=
  if scraps = [] then [] else [.ofScraps scraps]

@[simp] theorem textsOf_nil : textsOf [] = [] := rfl

theorem textsOf_of_ne_nil {scraps : List Scrap} (h : scraps ≠ []) :
    textsOf scraps = [.ofScraps scraps] := if_neg h

/-- There is no text at the end. -/
def Apart (cs : List Content) : Prop := ∀ c ∈ cs.getLast?, c.isText = false

variable {scraps : List Scrap} {payload : Payload}

/-- Without scraps of a text, a node does not end with one. -/
theorem Under.not_text (hw : s.WellFormed) (hapart : Apart cs) (hu : s.Under p cs)
    (hlast : s.lastChild? p = some t) : s.payload? t ≠ some .text := by
  rcases List.eq_nil_or_concat cs with rfl | ⟨cs, x, rfl⟩
  · rw [hu.lastChild?_eq_none hw] at hlast
    cases hlast
  · rw [List.concat_eq_append] at hapart hu
    obtain ⟨-, t', -, -, ht', hlast', -⟩ := hu.exists_last hw
    obtain rfl : t = t' := Option.some.inj (hlast.symm.trans hlast')
    intro hpay
    obtain ⟨node, hnode, hpayload⟩ := Option.map_eq_some_iff.mp hpay
    have hself : x.self = some node.loose := by
      rw [← (holds_iff.mp ht').1, Store.loose, hnode]
      rfl
    have hnot := hapart x (List.getLast?_concat ..)
    simp [Content.isText, hself, Node.loose, hpayload, Payload.loose] at hnot

/-- A new text with one node that was added before. -/
theorem Sprout.text (line : Nat) (h : Sprout s s₁ c (.leaf node)) (ho₁ : s₁.Owned)
    (hfit : ∃ k, s₁.kind? c = some k ∧ NodeKind.text.admits k) :
    Sprout s ((s₁.add { payload := .text, line }).2.attachLast
      (s₁.add { payload := .text, line }).1 c)
      (s₁.add { payload := .text, line }).1
      (.node (some { payload := .text, line }) [] [.leaf node]) := by
  have htext : Sprout s₁ (s₁.add { payload := .text, line }).2 (s₁.add { payload := .text, line }).1
      (.node (some { payload := .text, line }) [] []) :=
    .leaf h.wellFormed rfl rfl ⟨by simp [Payload.nodeKind], by simp [Payload.nodeKind]⟩
  have hkind : (s₁.add { payload := .text, line }).2.kind? (s₁.add { payload := .text, line }).1 =
      some .text := kind?_add_self
  generalize (s₁.add { payload := .text, line }).2 = s₂ at htext hkind ⊢
  generalize (s₁.add { payload := .text, line }).1 = t at htext hkind ⊢
  obtain ⟨hself, hattrs, hinner⟩ := holds_iff.mp htext.holds
  obtain ⟨k, hk, hadmits⟩ := hfit
  have hc : s₁.Has c := h.placeable.has
  have hct : c ≠ t := fun e => htext.new (e ▸ hc)
  have hnew : ∀ m, s.Has m → s₁.Has m := fun m hm => has_of_loose (loose_congr (h.kept m hm)) hm
  have hfits : s₂.Fits t c := ⟨_, _, hkind, (htext.kind?_kept hc).trans hk, hadmits⟩
  have halone : s₂.parent? c = none := (htext.parent?_kept hc).trans h.alone
  have hholds : s₂.Holds c (.leaf node) :=
    (Untouched.of_get? h.wellFormed ho₁.listed htext.kept (R := fun _ => False)).holds h.wellFormed
      h.placeable (fun _ _ => id) h.holds
  have hup : ¬ s₂.Above c t := by
    rw [above_iff]
    rintro (he | ⟨q, hq, -⟩)
    · exact hct he
    · rw [htext.alone] at hq
      cases hq
  have hlast : s₂.lastChild? t = none := Under.lastChild?_eq_none htext.wellFormed hinner
  have hplaceable : s₂.Placeable c := h.placeable.mono fun m k hk =>
    (htext.kind?_kept (has_of_kind? hk)).trans hk
  refine ⟨htext.wellFormed.attachLast hfits hup halone, fun m hm => ?_,
    fun hm => htext.new (hnew t hm),
    htext.placeable.mono fun m k hk => by rwa [Store.kind?, payload?_attachLast, ← Store.kind?], ?_,
    holds_iff.mpr ⟨loose_attachLast.trans hself, ?_, ?_⟩⟩
  · rw [get?_attachLast_of_ne _ _ (by simp [hlast]), htext.kept m (hnew m hm), h.kept m hm]
    · exact fun e => h.new (e ▸ hm)
    · exact fun e => htext.new (e ▸ hnew m hm)
  · rw [htext.wellFormed.parent?_attachLast hfits halone, if_neg hct.symm, htext.alone]
  · rw [attributes_congr payload?_attachLast,
      List.map_congr_left fun a _ => loose_attachLast (m := a)]
    exact hattrs
  · have hempty : s₂.Under t [] := hinner
    exact hempty.attachLast htext.wellFormed hfits halone hplaceable hup hholds

theorem payload?_add_of_has (hn : s.Has n) : (s.add node).2.payload? n = s.payload? n :=
  payload?_congr (get?_add_of_has hn)

theorem lastChild?_add (hlinks : node.links = {}) :
    (s.add node).2.lastChild? n = s.lastChild? n := by
  rw [lastChild?, (Growth.add hlinks).links, ← lastChild?]

theorem IsOpen.admits (hp : s.IsOpen p) : ∃ k, s.kind? p = some k ∧ k.admits .text ∧
    k.admits .element ∧ k.admits .code := by
  rcases hp with hk | hk <;> exact ⟨_, hk, rfl, rfl, rfl⟩

/-- A node in a new text. -/
theorem Under.appendToText_new (hb : Built s₀ s) (hp : s.IsOpen p) (hapart : Apart cs)
    (hu : s.Under p cs) (hloose : payload.loose = payload) (htable : payload.table = .empty)
    (hfit : NodeKind.text.admits payload.nodeKind) :
    Tends p s (appendToText (s.add { payload, line }).2 p (s.add { payload, line }).1 line) ∧
      (appendToText (s.add { payload, line }).2 p (s.add { payload, line }).1 line).Under p
        (cs ++ [.ofScraps [.node line payload]]) := by
  have helement : payload.isElement = false := by
    cases payload <;> simp_all [Payload.isElement, NodeKind.admits, Payload.nodeKind]
  have hadd : Adds s₀ s (s.add { payload, line }).2 := (Adds.refl hb).add rfl htable helement
  have hleaf : Sprout s (s.add { payload, line }).2 (s.add { payload, line }).1
      (.leaf { payload, line }) := by
    have h : Sprout s (s.add { payload, line }).2 (s.add { payload, line }).1
        (.node (some (Node.loose { payload, line })) [] []) := by
      refine .leaf hb.wellFormed rfl helement ?_
      cases payload <;> simp_all [NodeKind.admits, Payload.nodeKind]
    rwa [Node.loose, hloose] at h
  have hlast : (s.add { payload, line }).2.lastChild? p = s.lastChild? p := lastChild?_add rfl
  have htext := hleaf.text line hadd.after.owned ⟨_, kind?_add_self, hfit⟩
  have hopen := hadd.isOpen hp
  rw [appendToText]
  split
  · rename_i t hlast' htext'
    rw [hlast'] at hlast
    rw [hlast', Option.bind_some] at htext'
    have hhas : s.Has t := by
      rw [hb.wellFormed.linked.last] at hlast
      exact has_of_parent? (hb.wellFormed.mem_children.mp (List.mem_of_getLast? hlast.symm))
    rw [payload?_add_of_has hhas] at htext'
    exact absurd htext' (hu.not_text hb.wellFormed hapart hlast.symm)
  · dsimp only
    obtain ⟨k, hk, hadmits, -⟩ := hp.admits
    refine htext.attach hb.wellFormed hb.owned ⟨k, .text, ?_, ?_, hadmits⟩ hp.has hu
    · exact (htext.kind?_kept hp.has).trans hk
    · rw [kind?, payload?_attachLast, ← kind?, kind?_add_self]
      rfl

/-- A text at the end has grown. -/
theorem Under.grow (hb : Built s₀ s) (hne : scraps ≠ []) {scrap : Scrap}
    (hu : s.Under p (cs ++ [.ofScraps scraps])) (ht : s.lastChild? p = some t)
    (h : Tends t s s' ∧ s'.Under t ((join (scraps.foldl join []) scrap).map .leaf)) :
    Tends p s s' ∧ s'.Under p (cs ++ [.ofScraps (scraps ++ [scrap])]) := by
  obtain ⟨-, t', -, -, hholds, hlast, hparent⟩ := hu.exists_last hb.wellFormed
  obtain rfl : t = t' := Option.some.inj (ht.symm.trans hlast)
  obtain ⟨htends, hunder⟩ := h
  obtain ⟨hself, hattrs, -⟩ := holds_iff.mp hholds
  refine ⟨(htends.of_child hb.wellFormed hparent).1, htends.under hb.wellFormed hu ht ?_⟩
  refine holds_iff.mpr ⟨htends.loose.trans (hself.trans ?_), htends.attributes.trans hattrs, ?_⟩
  · obtain ⟨first, rest, rfl⟩ := List.exists_cons_of_ne_nil hne
    rfl
  · rw [Content.ofScraps, Content.inner, List.foldl_append]
    exact hunder

/-- The text at the end and its nodes. -/
theorem Under.exists_text (hb : Built s₀ s) (hu : s.Under p (cs ++ [.ofScraps scraps])) : ∃ t,
    s.lastChild? p = some t ∧ s.parent? t = some p ∧ s.payload? t = some .text ∧
      s.Under t ((scraps.foldl join []).map .leaf) := by
  obtain ⟨-, t, -, -, hholds, hlast, hparent⟩ := hu.exists_last hb.wellFormed
  obtain ⟨hself, -, hinner⟩ := holds_iff.mp hholds
  refine ⟨t, hlast, hparent, ?_, hinner⟩
  have hpay := payload?_of_loose hself
  cases hp : s.payload? t with
  | none => simp [hp] at hpay
  | some q =>
    rw [hp] at hpay
    cases q <;> simp_all [Payload.loose]

/-- A node is added to the text at the end, which is started if there is none. -/
theorem Under.appendToText (hb : Built s₀ s) (hp : s.IsOpen p) (hapart : Apart cs)
    (hu : s.Under p (cs ++ textsOf scraps)) (hloose : payload.loose = payload)
    (htable : payload.table = .empty) (hfit : NodeKind.text.admits payload.nodeKind) :
    Tends p s (Tree.appendToText (s.add { payload, line }).2 p (s.add { payload, line }).1 line) ∧
      (Tree.appendToText (s.add { payload, line }).2 p (s.add { payload, line }).1 line).Under p
        (cs ++ textsOf (scraps ++ [.node line payload])) := by
  rw [textsOf_of_ne_nil (by simp)]
  by_cases hne : scraps = []
  · subst hne
    rw [textsOf, if_pos rfl, List.append_nil] at hu
    exact hu.appendToText_new hb hp hapart hloose htable hfit
  · rw [textsOf_of_ne_nil hne] at hu
    obtain ⟨t, hlast, hparent, htext, hinner⟩ := hu.exists_text hb
    have hhas : s.Has t := has_of_parent? hparent
    rw [Tree.appendToText, lastChild?_add rfl, hlast, Option.bind_some,
      payload?_add_of_has hhas, htext]
    exact hu.grow hb hne hlast (hinner.addLeaf hb.wellFormed hb.owned
      (by rw [kind?, htext]; rfl) rfl hloose hfit)

/-- Output is added to the text at the end, which is started if there is none. -/
theorem Under.appendText (hb : Built s₀ s) (hp : s.IsOpen p) (hapart : Apart cs)
    (hu : s.Under p (cs ++ textsOf scraps)) (hdata : data ≠ []) :
    Tends p s (Tree.appendText s p data line) ∧ (Tree.appendText s p data line).Under p
      (cs ++ textsOf (scraps ++ [.data line data.escapeContent])) := by
  rw [textsOf_of_ne_nil (by simp), Tree.appendText, if_neg hdata]
  by_cases hne : scraps = []
  · subst hne
    rw [textsOf, if_pos rfl, List.append_nil] at hu
    dsimp only
    split
    · rename_i t hlast htext
      rw [hlast, Option.bind_some] at htext
      exact absurd htext (hu.not_text hb.wellFormed hapart hlast)
    · exact hu.appendToText_new hb hp hapart rfl rfl rfl
  · rw [textsOf_of_ne_nil hne] at hu
    obtain ⟨t, hlast, hparent, htext, hinner⟩ := hu.exists_text hb
    rw [hlast]
    dsimp only [Option.bind_some]
    rw [htext]
    exact hu.grow hb hne hlast (hinner.appendData hb.wellFormed hb.owned
      (by rw [kind?, htext]; rfl) (foldl_join_ne_nil hne))

/-- Scraps are added one after the other. -/
theorem Under.appendPiece {r : Option Resolver} (piece : TextPiece) (line : Nat) (hb : Built s₀ s)
    (hp : s.IsOpen p) (hapart : Apart cs) (hu : s.Under p (cs ++ textsOf scraps)) :
    Tends p s (Tree.appendPiece r p line s piece) ∧ (Tree.appendPiece r p line s piece).Under p
      (cs ++ textsOf (scraps ++ scrapsOfPiece r line piece)) := by
  have hnone : Tends p s s ∧ s.Under p (cs ++ textsOf (scraps ++ [])) :=
    ⟨.refl s, by rwa [List.append_nil]⟩
  cases piece with
  | plain t =>
    rw [Tree.appendPiece, scrapsOfPiece]
    split
    · rename_i ht
      rw [Tree.appendText, if_pos ht]
      exact hnone
    · rename_i ht
      exact hu.appendText hb hp hapart ht
  | braced t =>
    rw [Tree.appendPiece, scrapsOfPiece]
    split
    · exact hu.appendText hb hp hapart (List.append_ne_nil_of_right_ne_nil _ (by decide))
    · generalize (splitExpression? r t).getD ((r.map (·.defaultEngine)).getD [], t) = found
      obtain ⟨engine, source⟩ := found
      dsimp only
      by_cases hnull : engine = nullEngine
      · rw [if_pos hnull, if_neg (not_not.mpr hnull)]
        split
        · rename_i hsource
          rw [Tree.appendText, if_pos hsource]
          exact hnone
        · rename_i hsource
          exact hu.appendText hb hp hapart hsource
      · rw [if_neg hnull, if_pos hnull]
        exact hu.appendToText hb hp hapart rfl rfl rfl

theorem Under.appendPieces {r : Option Resolver} {pieces : List TextPiece} (hb : Built s₀ s)
    (hp₀ : ¬ s₀.Has p) (hp : s.IsOpen p) (hapart : Apart cs)
    (hu : s.Under p (cs ++ textsOf scraps)) :
    Tends p s (Tree.appendPieces r p line s pieces) ∧ (Tree.appendPieces r p line s pieces).Under p
      (cs ++ textsOf (scraps ++ scrapsOfPieces r line pieces)) := by
  induction pieces generalizing s line scraps with
  | nil => exact ⟨.refl s, by rwa [scrapsOfPieces, List.append_nil]⟩
  | cons piece pieces ih =>
    have hadds : Adds s₀ s (Tree.appendPiece r p line s piece) := .appendPiece hb hp₀ hp
    obtain ⟨htends, hunder⟩ := hu.appendPiece (r := r) piece line hb hp hapart
    obtain ⟨htends', hunder'⟩ :
        Tends p _ (Tree.appendPieces r p (line + lineFeeds piece.text) _ pieces) ∧ _ :=
      ih hadds.after (hadds.isOpen hp) hunder
    rw [scrapsOfPieces, ← List.append_assoc]
    have hline : Tree.appendPieces r p line s (piece :: pieces) =
        Tree.appendPieces r p (line + lineFeeds piece.text) (Tree.appendPiece r p line s piece)
          pieces := by
      cases piece <;> rfl
    rw [hline]
    exact ⟨htends.trans hb.wellFormed htends', hunder'⟩

/-! ### Elements -/

variable {o : Assembly.Opening}

/-- A new element with its attributes. -/
theorem Sprout.element (hb : Built s₀ s) (hnames : (o.attrs.map AttributeData.full).Nodup)
    (hempty : o.element.attrs = .empty) (howner : ∀ d ∈ o.attrs, d.owner = none) :
    Sprout s (Assembly.addElement s o line).2 (Assembly.addElement s o line).1
      (.node (some { payload := .element o.element, line })
        (o.attrs.map fun d => some { payload := .attr d, line }) []) := by
  obtain ⟨hb', hg⟩ := hb.withElement o line hnames
  have hnew : ¬ s.Has s.nodes.size := lt_irrefl _
  have hself : (Assembly.addElement s o line).1 = s.nodes.size := rfl
  rw [hself] at hg ⊢
  refine ⟨hb'.wellFormed, fun m => get?_addElement_of_has, hnew,
    ⟨_, hg.kind?, by simp, by simp⟩, hg.parent?, holds_iff.mpr ⟨?_, ?_, ?_⟩⟩
  · rw [loose, get?_addElement_of_not_has hnew, Nat.sub_self, elementNodes]
    rw [List.getElem?_cons_zero, Option.map_some, Node.loose, Payload.loose, ← hempty]
    rfl
  · rw [attributes_addElement_self]
    refine List.ext_getElem (by simp [Content.attributes]) fun i hi hi' => ?_
    have hlt : i < o.attrs.length := by simpa [Content.attributes] using hi'
    have hindex : s.nodes.size + 1 + i - s.nodes.size = i + 1 := by omega
    have hloose (d : AttributeData) (hd : d.owner = none) : { d with owner := none } = d := by
      cases d
      cases hd
      rfl
    simp only [Content.attributes, List.getElem_map, List.getElem_range, loose,
      get?_addElement_of_not_has (not_has_behind i), hindex, elementNodes, List.getElem?_cons_succ,
      List.getElem?_map, List.getElem?_eq_getElem hlt, Option.map_some]
    exact congrArg (fun d => some ({ payload := .attr d, line } : Node))
      (hloose _ (howner _ (List.getElem_mem hlt)))
  · have hchildren : (Assembly.addElement s o line).2.children s.nodes.size = [] :=
      List.eq_nil_iff_forall_not_mem.mpr fun c hc =>
        (hb.wellFormed.fresh growth_addElement hnew).2 c (hb'.wellFormed.mem_children.mp hc)
    rw [hchildren]
    exact .nil

end Store

end Stencil.Tree
