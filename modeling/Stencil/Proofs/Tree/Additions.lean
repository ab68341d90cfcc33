import Stencil.Proofs.Tree.Labels
import Stencil.Proofs.Tree.Regions
import Stencil.Tree.Assembly

/-!
# Trees added to a store

A tree is assembled in a store that may hold other trees. Nodes are added one after the other, and
only new nodes are linked to each other, so the other trees are not touched at all (`Built`). What
is added between two elements are leaves: text, character data, expressions and code. They change
neither the elements nor where nodes stand that were there before (`Adds`).

## Main definitions

* `Store.Built` – a store to which nodes were added
* `Store.Adds` – leaves were added in addition

## Main results

* `Store.Adds.appendPieces` – adding character data
* `Store.Built.withElement` – adding an element with its attributes
-/

namespace Stencil.Tree

namespace Store

variable {s₀ s s' s₁ s₂ : Store} {n m p c t : NodeId} {node : Node}

/-- A sound store to which nodes were added, without a change to the nodes that it had. -/
structure Built (s₀ s : Store) : Prop where
  base : s₀.WellFormed
  wellFormed : s.WellFormed
  owned : s.Owned
  labelled : s.Labelled
  kept (n : NodeId) : s₀.Has n → s.get? n = s₀.get? n

theorem isElement_eq_payload? :
    s.isElement n = ((s.payload? n).map Payload.isElement).getD false := by
  rw [isElement, element?]
  cases s.payload? n with
  | none => rfl
  | some p => cases p <;> rfl

/-- A node to which elements and character data can be added. -/
def IsOpen (s : Store) (p : NodeId) : Prop := s.kind? p = some .document ∨ s.kind? p = some .element

theorem IsOpen.has (h : s.IsOpen p) : s.Has p := h.elim has_of_kind? has_of_kind?

namespace Built

protected theorem refl (h : s.WellFormed) (ho : s.Owned) (hl : s.Labelled) : Built s s :=
  ⟨h, h, ho, hl, fun _ _ => rfl⟩

theorem has (h : Built s₀ s) (hn : s₀.Has n) : s.Has n := by
  by_contra hne
  have hget := h.kept n hn
  rw [get?_eq_none_iff.mpr hne] at hget
  exact (get?_eq_none_iff.mp hget.symm) hn

/-- New nodes have new children. -/
theorem new_child (h : Built s₀ s) (hp : ¬ s₀.Has p) (hn : s.parent? n = some p) : ¬ s₀.Has n := by
  intro hhas
  rw [parent?, links, h.kept n hhas] at hn
  exact hp (h.base.has_parent hn)

theorem new_lastChild? (h : Built s₀ s) (hp : ¬ s₀.Has p) (hc : s.lastChild? p = some c) :
    s.parent? c = some p ∧ ¬ s₀.Has c := by
  have hmem : c ∈ s.children p := by
    rw [h.wellFormed.linked.last] at hc
    exact List.mem_of_getLast? hc
  have hparent := h.wellFormed.mem_children.mp hmem
  exact ⟨hparent, h.new_child hp hparent⟩

/-- A new node is put below a new node. -/
theorem attachLast (h : Built s₀ s) (hp : ¬ s₀.Has p) (hn : ¬ s₀.Has n) (hfree : s.parent? n = none)
    (hfit : s.Fits p n) (hup : ¬ s.Above n p) : Built s₀ (s.attachLast p n) := by
  have hpay : ∀ m, (s.attachLast p n).payload? m = s.payload? m := fun _ => payload?_attachLast
  refine ⟨h.base, h.wellFormed.attachLast hfit hup hfree,
    h.owned.congr (fun m k hk => by rwa [Store.kind?, hpay, ← Store.kind?])
      fun m => attributes_congr (hpay m), h.labelled.attachLast, fun m hm => ?_⟩
  rw [get?_attachLast_of_ne, h.kept m hm]
  · rintro rfl
    exact hn hm
  · rintro rfl
    exact hp hm
  · intro hlast
    exact (h.new_lastChild? hp hlast).2 hm

end Built

/-! ### Leaves -/

/-- Leaves were added: no element, and nothing has moved. -/
structure Adds (s₀ s s' : Store) : Prop where
  before : Built s₀ s
  after : Built s₀ s'
  tag? (n : NodeId) (tag : NodeKind × Option Int × Text) : s.tag? n = some tag →
    s'.tag? n = some tag
  parent? (n : NodeId) : s.Has n → s'.parent? n = s.parent? n
  document? (n : NodeId) : s.Has n → s'.document? n = s.document? n
  leaf (n : NodeId) : ¬ s.Has n → ¬ s'.isElement n

/-- A path in what was there before is still the same. -/
theorem ascend_kept (h : s.WellFormed) (hkept : ∀ n, s.Has n → s'.parent? n = s.parent? n) {k : Nat}
    (hn : s.Has n) : s'.ascend k n = s.ascend k n := by
  induction k generalizing n with
  | zero => rfl
  | succ k ih =>
    rw [ascend, ascend, hkept n hn]
    cases hp : s.parent? n with
    | none => rfl
    | some p => exact ih (h.has_parent hp)

theorem above_kept (h : s.WellFormed) (hkept : ∀ n, s.Has n → s'.parent? n = s.parent? n)
    (hn : s.Has n) : s'.Above m n ↔ s.Above m n := by
  simp only [Above, ascend_kept h hkept hn]

/-- Nothing that was there before is below a new node. -/
theorem not_above_new (h : s.WellFormed) (hkept : ∀ n, s.Has n → s'.parent? n = s.parent? n)
    (hn : s.Has n) (hm : ¬ s.Has m) : ¬ s'.Above m n := by
  rw [above_kept h hkept hn]
  rintro ⟨k, hk⟩
  exact hm (h.linked.has_ascend hn hk)

namespace Adds

protected theorem refl (h : Built s₀ s) : Adds s₀ s s :=
  ⟨h, h, fun _ _ h => h, fun _ _ => rfl, fun _ _ => rfl, fun _ hn he => hn (has_of_isElement he)⟩

theorem has (h : Adds s₀ s s') (hn : s.Has n) : s'.Has n := by
  obtain ⟨tag, htag⟩ := hn.exists_tag?
  exact has_of_tag? (h.tag? n tag htag)

theorem kind? (h : Adds s₀ s s') {k : NodeKind} (hk : s.kind? n = some k) :
    s'.kind? n = some k := by
  rw [kind?_eq_map_tag?] at hk ⊢
  obtain ⟨tag, htag, rfl⟩ := Option.map_eq_some_iff.mp hk
  rw [h.tag? n tag htag]
  rfl

theorem isOpen (h : Adds s₀ s s') (hp : s.IsOpen p) : s'.IsOpen p := hp.imp h.kind? h.kind?

theorem above_iff (h : Adds s₀ s s') (hn : s.Has n) : s'.Above m n ↔ s.Above m n :=
  above_kept h.before.wellFormed h.parent? hn

theorem isElement_iff (h : Adds s₀ s s') (hn : s.Has n) : s'.isElement n ↔ s.isElement n := by
  obtain ⟨tag, htag⟩ := hn.exists_tag?
  rw [isElement_iff_tag?, isElement_iff_tag?, htag, h.tag? n tag htag]

protected theorem trans (h : Adds s₀ s s₁) (h' : Adds s₀ s₁ s₂) : Adds s₀ s s₂ where
  before := h.before
  after := h'.after
  tag? n tag htag := h'.tag? n tag (h.tag? n tag htag)
  parent? n hn := (h'.parent? n (h.has hn)).trans (h.parent? n hn)
  document? n hn := (h'.document? n (h.has hn)).trans (h.document? n hn)
  leaf n hn he := by
    by_cases hhas : s₁.Has n
    · exact h.leaf n hn ((h'.isElement_iff hhas).mp he)
    · exact h'.leaf n hhas he

/-- A new leaf. -/
theorem add (h : Adds s₀ s s₁) (hlinks : node.links = {}) (htable : node.payload.table = .empty)
    (hleaf : node.payload.isElement = false) : Adds s₀ s (s₁.add node).2 := by
  have hw : Within (fun n => ¬ s₁.Has n) none s₁ (s₁.add node).2 :=
    (h.after.wellFormed.tidy_new h.after.owned none).add hlinks (.inl hleaf)
  have hnew : ∀ {n}, s₁.Has n → n ≠ (s₁.add node).1 := fun hn e => not_has_add (e ▸ hn)
  refine ⟨h.before, ⟨h.before.base, hw.tidy.wellFormed, hw.tidy.owned,
    h.after.labelled.shrink (.add htable), fun n hn => ?_⟩, fun n tag htag => ?_, fun n hn => ?_,
    fun n hn => ?_, fun n hn he => ?_⟩
  · rw [get?_add_of_has (h.after.has hn)]
    exact h.after.kept n hn
  · exact hw.confined.tag? n tag (h.tag? n tag htag)
  · rw [hw.confined.parent? n (not_not.mpr (h.has hn)), h.parent? n hn]
  · rw [Store.document?, payload?_add, if_neg (hnew (h.has hn)),
      ← Store.document?, h.document? n hn]
  · by_cases hnew : n = (s₁.add node).1
    · rw [isElement_eq_payload?, payload?_add, if_pos hnew, Option.map_some, Option.getD_some,
        hleaf] at he
      cases he
    · rw [isElement_eq_payload?, payload?_add, if_neg hnew, ← isElement_eq_payload?] at he
      exact h.leaf n hn he

/-- A new leaf is put into the tree. -/
theorem attachLast (h : Adds s₀ s s₁) (hp : ¬ s₀.Has p) (hn : ¬ s.Has n)
    (hfree : s₁.parent? n = none)
    (hfit : s₁.Fits p n) (hup : ¬ s₁.Above n p) : Adds s₀ s (s₁.attachLast p n) := by
  have hpay : ∀ m, (s₁.attachLast p n).payload? m = s₁.payload? m := fun _ => payload?_attachLast
  refine ⟨h.before, h.after.attachLast hp (fun hhas => hn (h.before.has hhas)) hfree hfit hup,
    fun m tag hm => ?_, fun m hm => ?_, fun m hm => ?_, fun m hm he => ?_⟩
  · rw [Store.tag?, hpay]
    exact h.tag? m tag hm
  · have hmn : m ≠ n := fun e => hn (e ▸ hm)
    rw [h.after.wellFormed.parent?_attachLast hfit hfree, if_neg hmn, h.parent? m hm]
  · rw [Store.document?, hpay, ← Store.document?, h.document? m hm]
  · rw [isElement, element?_congr (hpay m)] at he
    exact h.leaf m hm he

/-- A new leaf below a node. -/
theorem addBelow (h : Adds s₀ s s₁) (hp : ¬ s₀.Has p) (hlinks : node.links = {})
    (htable : node.payload.table = .empty) (hleaf : node.payload.isElement = false)
    {k : NodeKind} (hk : s₁.kind? p = some k) (hfit : k.admits node.payload.nodeKind) :
    Adds s₀ s ((s₁.add node).2.attachLast p (s₁.add node).1) := by
  have hadd := h.add hlinks htable hleaf
  have hnew : ¬ s₁.Has (s₁.add node).1 := not_has_add
  obtain ⟨hfree, hchildless⟩ := h.after.wellFormed.fresh (.add hlinks) hnew
  have hk' : (s₁.add node).2.kind? p = some k := (Growth.add hlinks).kind? p k hk
  refine hadd.attachLast hp (fun hn => hnew (h.has hn)) hfree ⟨k, _, hk', kind?_add_self, hfit⟩ ?_
  intro hup
  rw [hup.eq_of_childless hchildless] at hnew
  exact hnew (has_of_kind? hk)

/-- Character data at the end of text. -/
theorem appendData (h : Built s₀ s) (ht : ¬ s₀.Has t) (htext : s.payload? t = some .text)
    (data : Text) : Adds s₀ s (s.appendData t data) := by
  have hkind : s.kind? t = some .text := by rw [Store.kind?, htext]; rfl
  rw [Store.appendData]
  split
  · rename_i c old hc hold
    rw [hc, Option.bind_some] at hold
    have hnew := (h.new_lastChild? ht hc).2
    have hpay : ∀ m, (s.setPayload c (.cdata (old ++ data))).payload? m =
        if m = c then some (.cdata (old ++ data)) else s.payload? m := fun m =>
      payload?_setPayload (has_of_payload? hold)
    have hgrowth : Growth s (s.setPayload c (.cdata (old ++ data))) :=
      .setPayload (by rw [Store.tag?, hold]; rfl)
    have halike : Alike s (s.setPayload c (.cdata (old ++ data))) := fun m => by
      rw [hpay]
      split
      · rename_i hm
        rw [hm, hold]
        rfl
      · rfl
    refine ⟨h, ⟨h.base, h.wellFormed.growth hgrowth, h.owned.congr hgrowth.kind? halike.attributes,
      h.labelled.alike halike, fun m hm => ?_⟩, hgrowth.tag?, fun m _ => hgrowth.parent? m,
      fun m _ => ?_, fun m hm he => hm ?_⟩
    · have hne : c ≠ m := fun e => hnew (e ▸ hm)
      rw [setPayload, get?_modify, if_neg hne, h.kept m hm]
    · by_cases hm : m = c
      · simp [Store.document?, hpay, hm, hold]
      · simp [Store.document?, hpay, hm]
    · obtain ⟨tag, htag⟩ := isElement_iff_tag?.mp he
      rw [halike.tag?] at htag
      exact has_of_tag? htag
  · exact (Adds.refl h).addBelow ht rfl rfl rfl hkind rfl

/-- A leaf that was added comes to stand in text. -/
theorem appendToText {line : Nat} (h : Built s₀ s) (hp : ¬ s₀.Has p) (hopen : s.IsOpen p)
    (hlinks : node.links = {}) (htable : node.payload.table = .empty)
    (hleaf : NodeKind.text.admits node.payload.nodeKind) :
    Adds s₀ s (Tree.appendToText (s.add node).2 p (s.add node).1 line) := by
  have hadd : Adds s₀ s (s.add node).2 := (Adds.refl h).add hlinks htable (by
    cases hpay : node.payload <;> simp [hpay, Payload.nodeKind, NodeKind.admits] at hleaf ⊢ <;> rfl)
  have hc : ¬ s.Has (s.add node).1 := not_has_add
  have hkind : (s.add node).2.kind? (s.add node).1 = some node.payload.nodeKind := kind?_add_self
  obtain ⟨hfree, hchildless⟩ := h.wellFormed.fresh (.add hlinks) hc
  generalize (s.add node).1 = c at hc hkind hfree hchildless ⊢
  generalize (s.add node).2 = s₁ at hadd hkind hfree hchildless ⊢
  rw [Tree.appendToText]
  split
  · rename_i t hlast htext
    rw [hlast, Option.bind_some] at htext
    have htkind : s₁.kind? t = some .text := by rw [Store.kind?, htext]; rfl
    obtain ⟨hparent, ht⟩ := hadd.after.new_lastChild? hp hlast
    refine hadd.attachLast ht hc hfree ⟨_, _, htkind, hkind, hleaf⟩ fun hup => ?_
    rw [hup.eq_of_childless hchildless, hparent] at hfree
    cases hfree
  · have hhas : s₁.Has c := has_of_kind? hkind
    have hadd₂ : Adds s₀ s (s₁.add { payload := .text, line }).2 := hadd.add rfl rfl rfl
    have hgrowth : Growth s₁ (s₁.add { payload := .text, line }).2 := .add rfl
    have ht : ¬ s₁.Has (s₁.add { payload := .text, line }).1 := not_has_add
    have htkind :
        (s₁.add { payload := .text, line }).2.kind? (s₁.add { payload := .text, line }).1 =
        some .text := kind?_add_self
    obtain ⟨htfree, -⟩ := hadd.after.wellFormed.fresh hgrowth ht
    dsimp only
    generalize (s₁.add { payload := .text, line }).1 = t at ht htkind htfree ⊢
    generalize (s₁.add { payload := .text, line }).2 = s₂ at hadd₂ hgrowth htkind htfree ⊢
    have hct : c ≠ t := fun e => ht (e ▸ hhas)
    have hfit : s₂.Fits t c := ⟨_, _, htkind, hgrowth.kind? c _ hkind, hleaf⟩
    have hfree₂ : s₂.parent? c = none := by rw [hgrowth.parent?, hfree]
    have ht₀ : ¬ s.Has t := fun hn => ht (hadd.has hn)
    have hadd₃ : Adds s₀ s (s₂.attachLast t c) := by
      refine hadd₂.attachLast (fun hn => ht₀ (h.has hn)) hc hfree₂ hfit fun hup => hct ?_
      exact hup.eq_of_childless fun m => by rw [hgrowth.parent?]; exact hchildless m
    have hphas : s.Has p := hopen.has
    have htfree₃ : (s₂.attachLast t c).parent? t = none := by
      rw [hadd₂.after.wellFormed.parent?_attachLast hfit hfree₂, if_neg (Ne.symm hct), htfree]
    have htkind₃ : (s₂.attachLast t c).kind? t = some .text := by
      rw [Store.kind?, payload?_attachLast, ← Store.kind?, htkind]
    refine hadd₃.attachLast hp ht₀ htfree₃ ?_ (not_above_new h.wellFormed hadd₃.parent? hphas ht₀)
    rcases hadd₃.isOpen hopen with hk | hk
    · exact ⟨_, _, hk, htkind₃, rfl⟩
    · exact ⟨_, _, hk, htkind₃, rfl⟩

/-- Character data. -/
theorem appendText {line : Nat} {data : Text} (h : Built s₀ s) (hp : ¬ s₀.Has p)
    (hopen : s.IsOpen p) : Adds s₀ s (Tree.appendText s p data line) := by
  rw [Tree.appendText]
  split
  · exact .refl h
  · dsimp only
    split
    · rename_i t hlast htext
      rw [hlast, Option.bind_some] at htext
      exact appendData h (h.new_lastChild? hp hlast).2 htext _
    · exact appendToText h hp hopen rfl rfl rfl

theorem appendPiece {r : Option Resolver} {line : Nat} {piece : TextPiece} (h : Built s₀ s)
    (hp : ¬ s₀.Has p) (hopen : s.IsOpen p) : Adds s₀ s (Tree.appendPiece r p line s piece) := by
  cases piece with
  | plain t => exact appendText h hp hopen
  | braced t =>
    rw [Tree.appendPiece]
    split
    · exact appendText h hp hopen
    · dsimp only
      split
      · exact appendText h hp hopen
      · exact appendToText h hp hopen rfl rfl rfl

/-- The pieces of character data. -/
theorem appendPieces {r : Option Resolver} {line : Nat} {pieces : List TextPiece} (h : Built s₀ s)
    (hp : ¬ s₀.Has p) (hopen : s.IsOpen p) : Adds s₀ s (Tree.appendPieces r p line s pieces) := by
  induction pieces generalizing line s with
  | nil => exact .refl h
  | cons piece pieces ih =>
    have hpiece : Adds s₀ s (Tree.appendPiece r p line s piece) := appendPiece h hp hopen
    exact hpiece.trans (ih hpiece.after (hpiece.isOpen hopen))

end Adds

/-! ### Elements -/

open Assembly (Opening addElement)

variable {o : Opening} {line : Nat}

/-- The nodes of an element and its attributes. -/
def elementNodes (s : Store) (o : Opening) (line : Nat) : List Node :=
  { payload := .element { o.element with
      attrs := ⟨o.attrs.mapIdx fun i d => (d.full, s.nodes.size + 1 + i)⟩ }, line } ::
    o.attrs.map fun d => { payload := .attr { d with owner := some s.nodes.size }, line }

theorem nodes_foldl_add {α : Type} (f : α → Node) (l : List α) (s : Store) :
    (l.foldl (fun s d => (s.add (f d)).2) s).nodes.toList = s.nodes.toList ++ l.map f := by
  induction l generalizing s with
  | nil => simp
  | cons d l ih =>
    rw [List.foldl_cons, ih]
    simp [Store.add]

theorem nodes_addElement : (addElement s o line).2.nodes.toList =
    s.nodes.toList ++ s.elementNodes o line := by
  rw [addElement, nodes_foldl_add]
  simp [Store.add, elementNodes]

theorem get?_addElement_of_has (hn : s.Has n) : (addElement s o line).2.get? n = s.get? n := by
  have hlt : n < s.nodes.toList.length := by simpa [Has] using hn
  rw [get?, get?, ← Array.getElem?_toList, nodes_addElement, List.getElem?_append_left hlt,
    Array.getElem?_toList]

theorem get?_addElement_of_not_has (hn : ¬ s.Has n) :
    (addElement s o line).2.get? n = (s.elementNodes o line)[n - s.nodes.size]? := by
  have hle : s.nodes.toList.length ≤ n := by simpa [Has] using hn
  rw [get?, ← Array.getElem?_toList, nodes_addElement, List.getElem?_append_right hle]
  simp

/-- The new nodes are the element and its attributes, behind it. -/
theorem payload?_addElement_of_not_has (hn : ¬ s.Has n) : (addElement s o line).2.payload? n =
    if n = s.nodes.size then
      some (.element { o.element with
        attrs := ⟨o.attrs.mapIdx fun i d => (d.full, s.nodes.size + 1 + i)⟩ })
    else (o.attrs[n - s.nodes.size - 1]?).map fun d =>
      .attr { d with owner := some s.nodes.size } := by
  rw [payload?, get?_addElement_of_not_has hn, elementNodes]
  split
  · rename_i h
    simp [h]
  · rename_i h
    have hlt : s.nodes.size < n := lt_of_le_of_ne (not_lt.mp hn) (Ne.symm h)
    obtain ⟨k, rfl⟩ := Nat.exists_eq_add_of_lt hlt
    rw [show s.nodes.size + k + 1 - s.nodes.size = k + 1 by omega, List.getElem?_cons_succ,
      List.getElem?_map, Option.map_map]
    rfl

theorem attributes_addElement_self : (addElement s o line).2.attributes s.nodes.size =
    (List.range o.attrs.length).map (s.nodes.size + 1 + ·) := by
  have hn : ¬ s.Has s.nodes.size := lt_irrefl _
  rw [attributes, attributeTable, element?, payload?_addElement_of_not_has hn, if_pos rfl]
  exact List.ext_getElem (by simp [OrderedMap.values]) fun i _ _ => by simp [OrderedMap.values]

theorem not_has_behind (i : Nat) : ¬ s.Has (s.nodes.size + 1 + i) := by
  have hle : s.nodes.size ≤ s.nodes.size + 1 + i := by omega
  exact not_lt.mpr hle

/-- What an attribute says. -/
theorem payload?_addElement_attr {i : Nat} {d : AttributeData} (hd : o.attrs[i]? = some d) :
    (addElement s o line).2.payload? (s.nodes.size + 1 + i) =
      some (.attr { d with owner := some s.nodes.size }) := by
  have hn : ¬ s.Has (s.nodes.size + 1 + i) := not_has_behind i
  have hne : ¬ (s.nodes.size + 1 + i : Nat) = s.nodes.size := by omega
  have hi : (s.nodes.size + 1 + i : Nat) - s.nodes.size - 1 = i := by omega
  rw [payload?_addElement_of_not_has hn, if_neg hne, hi, hd]
  rfl

/-- The tables of other nodes are as they were. -/
theorem attributes_addElement_of_ne (hn : n ≠ s.nodes.size) :
    (addElement s o line).2.attributes n = s.attributes n := by
  by_cases hhas : s.Has n
  · exact attributes_congr (payload?_congr (get?_addElement_of_has hhas))
  · rw [attributes_of_not_has hhas]
    refine attributes_of_not_element ?_
    rw [element?, payload?_addElement_of_not_has hhas, if_neg hn]
    cases o.attrs[n - s.nodes.size - 1]? <;> rfl

/-- The new nodes stand nowhere. -/
theorem growth_addElement : Growth s (addElement s o line).2 where
  links n := by
    by_cases hn : s.Has n
    · rw [links, get?_addElement_of_has hn, links]
    · rw [links_of_not_has hn, links, get?_addElement_of_not_has hn]
      cases hk : n - s.nodes.size with
      | zero => rfl
      | succ k =>
        rw [elementNodes, List.getElem?_cons_succ, List.getElem?_map]
        cases o.attrs[k]? <;> rfl
  tag? n tag htag := by
    rwa [Store.tag?, payload?_congr (get?_addElement_of_has (has_of_tag? htag)), ← Store.tag?]

/-- One element was added, and nothing has moved. -/
structure Gains (s s' : Store) (parent : Option NodeId) (o : Opening) (n : NodeId) : Prop where
  new : ¬ s.Has n
  tag? : s'.tag? n = some (.element, o.element.uri, o.element.name)
  parent? : s'.parent? n = parent
  kept (m : NodeId) : s.Has m → s'.payload? m = s.payload? m
  standing (m : NodeId) : s.Has m → s'.parent? m = s.parent? m
  only (m : NodeId) : ¬ s.Has m → s'.isElement m → m = n

/-- An element with attributes of different names. -/
theorem Built.withElement (h : Built s₀ s) (o : Opening) (line : Nat)
    (hnames : (o.attrs.map AttributeData.full).Nodup) :
    Built s₀ (addElement s o line).2 ∧
      Gains s (addElement s o line).2 none o (addElement s o line).1 := by
  have hself : (addElement s o line).1 = s.nodes.size := rfl
  have hnew : ¬ s.Has s.nodes.size := lt_irrefl _
  rw [hself]
  have hgrowth : Growth s (addElement s o line).2 := growth_addElement
  have htable : (addElement s o line).2.attributeTable s.nodes.size =
      ⟨o.attrs.mapIdx fun i d => (d.full, s.nodes.size + 1 + i)⟩ := by
    rw [attributeTable_eq, payload?_addElement_of_not_has hnew, if_pos rfl]
    rfl
  have htable' : ∀ e, e ≠ s.nodes.size →
      (addElement s o line).2.attributeTable e = s.attributeTable e := by
    intro e he
    by_cases hhas : s.Has e
    · rw [attributeTable_eq, payload?_congr (get?_addElement_of_has hhas), attributeTable_eq]
    · rw [attributeTable_eq, attributeTable_eq, payload?_addElement_of_not_has hhas, if_neg he,
        payload?, get?_eq_none_iff.mpr hhas]
      cases o.attrs[e - s.nodes.size - 1]? <;> rfl
  have hattr : ∀ a ∈ (addElement s o line).2.attributes s.nodes.size,
      ∃ i, a = s.nodes.size + 1 + i ∧ ∃ d, o.attrs[i]? = some d := by
    intro a ha
    rw [attributes_addElement_self] at ha
    obtain ⟨i, hi, rfl⟩ := List.mem_map.mp ha
    exact ⟨i, rfl, _, List.getElem?_eq_getElem (List.mem_range.mp hi)⟩
  have hfresh : ∀ a ∈ (addElement s o line).2.attributes s.nodes.size, ¬ s.Has a := by
    intro a ha
    obtain ⟨i, rfl, -⟩ := hattr a ha
    exact not_has_behind i
  refine ⟨⟨h.base, h.wellFormed.growth hgrowth,
    ⟨fun e a ha => ?_, fun e => ?_, fun e e' a ha ha' => ?_⟩,
    ⟨fun e entry hentry => ?_, fun e => ?_⟩, fun n hn => ?_⟩, hnew, ?_,
    (h.wellFormed.fresh hgrowth hnew).1, fun n hn => payload?_congr (get?_addElement_of_has hn),
    fun n _ => hgrowth.parent? n, fun n hn he => ?_⟩
  · by_cases he : e = s.nodes.size
    · rw [he] at ha
      obtain ⟨i, rfl, d, hd⟩ := hattr a ha
      rw [Store.kind?, payload?_addElement_attr hd]
      rfl
    · rw [attributes_addElement_of_ne he] at ha
      exact hgrowth.kind? a _ (h.owned.kind e a ha)
  · by_cases he : e = s.nodes.size
    · rw [he, attributes_addElement_self]
      exact List.nodup_range.map fun i j hij => by simpa using hij
    · rw [attributes_addElement_of_ne he]
      exact h.owned.nodup e
  · by_cases he : e = s.nodes.size <;> by_cases he' : e' = s.nodes.size
    · rw [he, he']
    · rw [attributes_addElement_of_ne he'] at ha'
      exact absurd (has_of_kind? (h.owned.kind e' a ha')) (hfresh a (he ▸ ha))
    · rw [attributes_addElement_of_ne he] at ha
      exact absurd (has_of_kind? (h.owned.kind e a ha)) (hfresh a (he' ▸ ha'))
    · rw [attributes_addElement_of_ne he] at ha
      rw [attributes_addElement_of_ne he'] at ha'
      exact h.owned.unique e e' a ha ha'
  · by_cases he : e = s.nodes.size
    · rw [he, htable] at hentry
      obtain ⟨i, hi, rfl⟩ := List.mem_mapIdx.mp hentry
      rw [attrName?, facet?, payload?_addElement_attr (List.getElem?_eq_getElem hi)]
      rfl
    · rw [htable' e he] at hentry
      have hname := h.labelled.name e entry hentry
      obtain ⟨d, hd⟩ := exists_attr?_of_attrName? hname
      rw [attrName?, facet?, payload?_congr (get?_addElement_of_has
        (has_of_payload? (payload?_of_attr? hd)))]
      exact hname
  · by_cases he : e = s.nodes.size
    · have hkeys : (o.attrs.mapIdx fun i d => (d.full, s.nodes.size + 1 + i)).map Prod.fst =
          o.attrs.map AttributeData.full := List.ext_getElem (by simp) fun i _ _ => by simp
      rw [he, htable, OrderedMap.keys, hkeys]
      exact hnames
    · rw [htable' e he]
      exact h.labelled.nodup e
  · rw [get?_addElement_of_has (h.has hn), h.kept n hn]
  · rw [Store.tag?, payload?_addElement_of_not_has hnew, if_pos rfl]
    rfl
  · by_contra hne
    rw [isElement_eq_payload?, payload?_addElement_of_not_has hn, if_neg hne] at he
    cases hd : o.attrs[n - s.nodes.size - 1]? <;> simp [hd, Payload.isElement] at he

namespace Gains

variable {parent : Option NodeId} {m : NodeId}

theorem tag?_kept (h : Gains s s' parent o n) (hm : s.Has m) : s'.tag? m = s.tag? m := by
  rw [Store.tag?, h.kept m hm, Store.tag?]

theorem kind?_kept (h : Gains s s' parent o n) (hm : s.Has m) : s'.kind? m = s.kind? m := by
  rw [Store.kind?, h.kept m hm, Store.kind?]

theorem isElement_iff (h : Gains s s' parent o n) (hm : s.Has m) :
    s'.isElement m ↔ s.isElement m := by
  rw [isElement_iff_tag?, isElement_iff_tag?, h.tag?_kept hm]

theorem above_iff {x : NodeId} (h : Gains s s' parent o n) (hb : Built s₀ s) (hm : s.Has m) :
    s'.Above x m ↔ s.Above x m :=
  above_kept hb.wellFormed h.standing hm

theorem isOpen (h : Gains s s' parent o n) (hp : s.IsOpen p) : s'.IsOpen p := by
  rcases hp with hk | hk
  · exact .inl ((h.kind?_kept (has_of_kind? hk)).trans hk)
  · exact .inr ((h.kind?_kept (has_of_kind? hk)).trans hk)

theorem kind? (h : Gains s s' parent o n) : s'.kind? n = some .element := by
  rw [kind?_eq_map_tag?, h.tag?]
  rfl

/-- The element is put below a node that is open. -/
theorem attachLast (h : Gains s s₁ none o n) (hb : Built s₀ s) (hb₁ : Built s₀ s₁) (hp : ¬ s₀.Has p)
    (hopen : s.IsOpen p) :
    Built s₀ (s₁.attachLast p n) ∧ Gains s (s₁.attachLast p n) (some p) o n := by
  have hpay : ∀ m, (s₁.attachLast p n).payload? m = s₁.payload? m := fun _ => payload?_attachLast
  have hhas : s.Has p := hopen.has
  have hfit : s₁.Fits p n := by
    rcases h.isOpen hopen with hk | hk
    · exact ⟨_, _, hk, h.kind?, rfl⟩
    · exact ⟨_, _, hk, h.kind?, rfl⟩
  have hup : ¬ s₁.Above n p := not_above_new hb.wellFormed h.standing hhas h.new
  refine ⟨hb₁.attachLast hp (fun hn => h.new (hb.has hn)) h.parent? hfit hup, h.new, ?_, ?_,
    fun m hm => (hpay m).trans (h.kept m hm), fun m hm => ?_, fun m hm he => ?_⟩
  · rw [Store.tag?, hpay]
    exact h.tag?
  · rw [hb₁.wellFormed.parent?_attachLast hfit h.parent?, if_pos rfl]
  · have hne : m ≠ n := fun e => h.new (e ▸ hm)
    rw [hb₁.wellFormed.parent?_attachLast hfit h.parent?, if_neg hne, h.standing m hm]
  · rw [isElement, element?_congr (hpay m)] at he
    exact h.only m hm he

end Gains

end Store

end Stencil.Tree
