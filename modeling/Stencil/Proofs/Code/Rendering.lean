import Stencil.Code.Link
import Stencil.Proofs.Compiler.Session
import Stencil.Proofs.Tree.Consistency
import Stencil.Proofs.Tree.Content
import Stencil.Proofs.Tree.Traversal

/-!
# What linking writes

Linking walks over a tree, writes on entering and on leaving a node, counts the open elements that
are marked as dynamic, and hands the name of an element from its opening tag to its closing tag
through a property. This module says what comes of it without any of that: the text is given by
recursion on the shape of the tree, and the dynamic expressions are those that stand below an
element marked as dynamic, by a condition on the nodes above them.

The walk over one node is followed from any state (`Wrote`). It adds its text and its expressions,
leaves the count as it found it, and keeps every name that was left on an element. It takes at most
two steps a node, so the number of steps that linking is given suffices.

## Main definitions

* `Linkable.render` – the text of a tree
* `Linkable.dynamicBlocks` – the dynamic expressions of a tree
* `Linkable.Wrote` – what the walk over a part of a tree does to the state

## Main results

* `Linkable.walked_shape` – the walk over a tree
* `Linkable.link_eq_render` – linking, also a second time
-/

namespace Stencil.Code

open Stencil.Tree (NodeId Store Shape Payload DocumentData ElementData TreeError Visitor)

namespace Linkable

/-! ### The text and the dynamic expressions of a tree -/

section Meaning

variable (l : Linkable)

/-- The text of an element, given what is inside. The code in front of an element and behind it
stands outside its tags. -/
def elementText (n : NodeId) (e : ElementData) (childless : Bool) (inner : Text) : Text :=
  match e.uri.isSome, childless && e.selfClosing with
  | true, true => l.code n [.before, .singleBefore, .singleAfter, .after]
  | true, false =>
    l.code n [.before, .openingBefore, .openingAfter, .contentBefore] ++ inner ++
      l.code n [.contentAfter, .closingBefore, .closingAfter, .after]
  | false, true =>
    l.code n [.before, .singleBefore] ++ "<" ++ l.tagName n ++ l.attributesText n ++ " />" ++
      l.code n [.singleAfter, .after]
  | false, false =>
    l.code n [.before, .openingBefore] ++ "<" ++ l.tagName n ++ l.attributesText n ++ ">" ++
      l.code n [.openingAfter, .contentBefore] ++ inner ++
      l.code n [.contentAfter, .closingBefore] ++ "</" ++ l.tagName n ++ ">" ++
      l.code n [.closingAfter, .after]

/-- The text of a node, given what is inside. -/
def nodeText (n : NodeId) (childless : Bool) (inner : Text) : Text :=
  match l.store.payload? n with
  | some (.document _) | some .text => l.code n [.before] ++ inner ++ l.code n [.after]
  | some (.element e) => l.elementText n e childless inner
  | some (.cdata t) => l.code n [.before] ++ t ++ l.code n [.after]
  | some (.expression ..) => l.code n [.content]
  | some (.code true t) => t
  | some (.code false t) => openDelimiter ++ t.trim ++ closeDelimiter
  | some (.attr _) | none => []

/-- The text of a tree. Nothing is written for an invisible node and what is below it. -/
def render : Shape → Text
  | .node n below =>
    if l.store.isVisible n then l.nodeText n below.isEmpty (below.flatMap render) else []

/-- Whether a node is an element that is marked as dynamic. -/
def isDynamicElement (n : NodeId) : Bool :=
  l.store.isElement n && ((l.properties.get? n).map (·.flag Properties.dynamic)).getD false

/-- Whether a node is an expression whose code is there and may give another result every time. -/
def isChanging (n : NodeId) : Bool :=
  match l.store.payload? n with
  | some (.expression ..) => l.code n [.content] != [] && !(l.buffersOf n).isStatic
  | _ => false

/-- Whether the expression at a node below the given ones is a dynamic one: all these nodes are
visible, and one above it is an element that is marked as dynamic. -/
def isBlock (p : List NodeId × NodeId) : Bool :=
  p.1.all l.store.isVisible && l.store.isVisible p.2 && p.1.any l.isDynamicElement &&
    l.isChanging p.2

/-- The dynamic expressions of a tree in document order. -/
def dynamicBlocks (t : Shape) : List Text :=
  (t.places.filter l.isBlock).map fun p => l.code p.2 [.content]

end Meaning

theorem render_node (l : Linkable) (n : NodeId) (below : List Shape) : l.render (.node n below) =
    if l.store.isVisible n then l.nodeText n below.isEmpty (below.flatMap l.render) else [] := by
  rw [render]

/-! ### Properties -/

end Linkable

namespace LinkState

variable {s : LinkState} {n m : NodeId} {name : Text}

theorem isDynamic_setName : (s.setName n name).isDynamic m = s.isDynamic m := by
  have hne : Properties.dynamic ≠ Properties.linkName := by decide
  rw [isDynamic, setName, Table.modify, Table.get?_put]
  split
  · subst m
    rw [isDynamic, Option.map_some, Option.getD_some, Properties.flag_set_of_ne hne]
    cases s.properties.get? n <;> rfl
  · rfl

theorem nameOf_setName : (s.setName n name).nameOf m = if m = n then name else s.nameOf m := by
  rw [nameOf, setName, Table.modify, Table.get?_put]
  split
  · rw [Option.getD_some, Properties.text, Properties.get?_set, if_pos rfl]
  · rfl

end LinkState

namespace Linkable

variable {l : Linkable} {s s' s'' : LinkState} {n m : NodeId} {t t' : Text} {bs bs' : List Text}

/-- A part of the walk has written the given text and expressions. -/
structure Wrote (l : Linkable) (t : Text) (bs : List Text) (s s' : LinkState) : Prop where
  /-- The text was added. -/
  text : s'.pieces.reverse.flatten = s.pieces.reverse.flatten ++ t
  /-- The expressions were added. -/
  blocks : s'.blocks.reverse = s.blocks.reverse ++ bs
  /-- As many dynamic elements are open as before. -/
  depth : s'.depth = s.depth
  /-- The same nodes are marked as dynamic. -/
  isDynamic (n : NodeId) : s'.isDynamic n = s.isDynamic n
  /-- The names that were left are still there. -/
  nameOf (n : NodeId) : s.nameOf n = l.tagName n → s'.nameOf n = l.tagName n

theorem Wrote.refl (l : Linkable) (s : LinkState) : Wrote l [] [] s s where
  text := (List.append_nil _).symm
  blocks := (List.append_nil _).symm
  depth := rfl
  isDynamic _ := rfl
  nameOf _ h := h

theorem Wrote.trans (h : Wrote l t bs s s') (h' : Wrote l t' bs' s' s'') :
    Wrote l (t ++ t') (bs ++ bs') s s'' where
  text := by rw [h'.text, h.text, List.append_assoc]
  blocks := by rw [h'.blocks, h.blocks, List.append_assoc]
  depth := h'.depth.trans h.depth
  isDynamic n := (h'.isDynamic n).trans (h.isDynamic n)
  nameOf n hn := h'.nameOf n (h.nameOf n hn)

/-! ### One node -/

/-- The number of open dynamic elements once a node is entered. -/
theorem depth_enter :
    (l.enter n s).depth = if l.opensDynamic n s then s.depth + 1 else s.depth := by
  rw [enter]
  split <;> rfl

theorem pieces_enter : (l.enter n s).pieces = l.enterText n :: s.pieces := by
  rw [enter]
  split <;> rfl

theorem blocks_enter :
    (l.enter n s).blocks = l.blockOf n (l.enter n s).depth ++ s.blocks := by
  rw [depth_enter, enter]
  split <;> rfl

theorem isDynamic_enter : (l.enter n s).isDynamic m = s.isDynamic m := by
  rw [enter]
  split
  · rw [LinkState.isDynamic_setName]
    rfl
  · rfl

theorem nameOf_enter (h : s.nameOf m = l.tagName m) : (l.enter n s).nameOf m = l.tagName m := by
  rw [enter]
  split
  · rw [LinkState.nameOf_setName]
    split
    · subst m
      rfl
    · exact h
  · exact h

theorem nameOf_enter_self (h : l.hasTags n) : (l.enter n s).nameOf n = l.tagName n := by
  rw [enter, if_pos h, LinkState.nameOf_setName, if_pos rfl]

theorem opensDynamic_congr (h : s'.isDynamic n = s.isDynamic n) :
    l.opensDynamic n s' = l.opensDynamic n s := by
  rw [opensDynamic, opensDynamic, h]

/-- Only a closing tag depends on the name that was left. -/
theorem leaveText_congr {name name' : Text} (h : l.hasTags n → name = name') :
    l.leaveText n name = l.leaveText n name' := by
  cases hp : l.store.payload? n with
  | none => simp only [leaveText, hp]
  | some p =>
    cases p with
    | element e =>
      simp only [leaveText, hp]
      split
      · rfl
      · rename_i huri
        rw [closingText, closingText]
        split
        · rfl
        · rename_i hsingle
          have htags : l.hasTags n := by
            simp [hasTags, Store.element?, hp, hsingle, Option.not_isSome_iff_eq_none.mp huri]
          rw [h htags]
    | _ => simp only [leaveText, hp]

theorem reverse_blockOf {depth : Nat} : (l.blockOf n depth).reverse = l.blockOf n depth := by
  rw [blockOf]
  split
  · split <;> rfl
  · rfl

/-- Entering a node, writing what is inside, and leaving it. -/
theorem Wrote.leave (h : Wrote l t bs (l.enter n s) s') :
    Wrote l (l.enterText n ++ t ++ l.leaveText n (l.tagName n))
      (l.blockOf n (l.enter n s).depth ++ bs) s (l.leave n s') where
  text := by
    have hname : l.leaveText n (s'.nameOf n) = l.leaveText n (l.tagName n) :=
      leaveText_congr fun htags => h.nameOf n (nameOf_enter_self htags)
    rw [Linkable.leave, hname, List.reverse_cons, List.flatten_append, h.text, pieces_enter]
    simp
  blocks := by
    change s'.blocks.reverse = _
    rw [h.blocks, blocks_enter, List.reverse_append, reverse_blockOf, List.append_assoc]
  depth := by
    have hopens : l.opensDynamic n s' = l.opensDynamic n s :=
      opensDynamic_congr ((h.isDynamic n).trans isDynamic_enter)
    rw [Linkable.leave, hopens, h.depth, depth_enter]
    split
    · rfl
    · rfl
  isDynamic m := (h.isDynamic m).trans isDynamic_enter
  nameOf m hm := h.nameOf m (nameOf_enter hm)

/-! ### The text of a node -/

theorem isSingle_eq {e : ElementData} (he : l.store.payload? n = some (.element e)) :
    l.isSingle n = (!l.store.hasChildren n && e.selfClosing) := by
  rw [isSingle, Store.element?, he]
  rfl

/-- What is written on entering and on leaving a node makes up its text. There is nothing inside a
node without children. -/
theorem nodeText_eq (hcontainer : l.store.hasChildren n → l.store.isContainer n)
    (hinner : l.store.hasChildren n = false → t = []) :
    l.nodeText n (!l.store.hasChildren n) t =
      l.enterText n ++ t ++ l.leaveText n (l.tagName n) := by
  have hempty (hn : l.store.isContainer n = false) : t = [] := by
    refine hinner (Bool.eq_false_iff.mpr fun hc => ?_)
    rw [hcontainer hc] at hn
    cases hn
  cases hp : l.store.payload? n with
  | none =>
    rw [hempty (by rw [Store.isContainer, hp]; rfl)]
    simp only [nodeText, enterText, leaveText, hp]
    rfl
  | some p =>
    cases p with
    | document d => simp only [nodeText, enterText, leaveText, hp]
    | text => simp only [nodeText, enterText, leaveText, hp]
    | element e =>
      simp only [nodeText, enterText, leaveText, hp, elementText]
      rw [← isSingle_eq hp]
      cases hsingle : l.isSingle n with
      | false => cases e.uri.isSome <;>
        simp [openingText, closingText, openingCode, closingCode, hsingle]
      | true =>
        have hchildless : l.store.hasChildren n = false := by
          rw [isSingle_eq hp, Bool.and_eq_true, Bool.not_eq_true'] at hsingle
          exact hsingle.1
        rw [hinner hchildless]
        cases e.uri.isSome <;> simp [openingText, closingText, openingCode, closingCode, hsingle]
    | attr a =>
      rw [hempty (by rw [Store.isContainer, hp]; rfl)]
      simp only [nodeText, enterText, leaveText, hp]
      rfl
    | cdata data =>
      rw [hempty (by rw [Store.isContainer, hp]; rfl)]
      simp only [nodeText, enterText, leaveText, hp, List.append_nil]
    | expression source engine =>
      rw [hempty (by rw [Store.isContainer, hp]; rfl)]
      simp only [nodeText, enterText, leaveText, hp, List.append_nil]
    | code plain content =>
      rw [hempty (by rw [Store.isContainer, hp]; rfl)]
      cases plain <;> simp only [nodeText, enterText, leaveText, hp, List.append_nil]

/-! ### The dynamic expressions of a node -/

/-- The dynamic expressions of a tree that stands below the given nodes. -/
def blocksBelow (l : Linkable) (above : List NodeId) (t : Shape) : List Text :=
  ((t.places.map fun p => (above ++ p.1, p.2)).filter l.isBlock).map fun p => l.code p.2 [.content]

theorem blocksBelow_nil (l : Linkable) (t : Shape) : l.blocksBelow [] t = l.dynamicBlocks t := by
  simp [blocksBelow, dynamicBlocks]

theorem blocksBelow_node (l : Linkable) (above : List NodeId) (n : NodeId) (below : List Shape) :
    l.blocksBelow above (.node n below) =
      (if l.isBlock (above, n) then [l.code n [.content]] else []) ++
        below.flatMap (l.blocksBelow (above ++ [n])) := by
  have hbelow : ((below.flatMap Shape.places).map fun p => (n :: p.1, p.2)).map
      (fun p => (above ++ p.1, p.2)) =
      below.flatMap fun t => t.places.map fun p => (above ++ [n] ++ p.1, p.2) := by
    rw [List.map_map, List.map_flatMap]
    simp only [Function.comp_def, List.append_assoc, List.singleton_append]
  rw [blocksBelow, Shape.places_node, List.map_cons, List.filter_cons, hbelow, List.append_nil,
    List.filter_flatMap]
  split
  · rw [List.map_cons, List.map_flatMap]
    rfl
  · rw [List.map_flatMap]
    rfl

/-- An invisible node hides everything below it. -/
theorem blocksBelow_of_invisible {above : List NodeId} {n : NodeId}
    (hn : n ∈ above ∧ l.store.isVisible n = false) (t : Shape) : l.blocksBelow above t = [] := by
  rw [blocksBelow, List.map_eq_nil_iff, List.filter_eq_nil_iff]
  intro p hp
  obtain ⟨q, -, rfl⟩ := List.mem_map.mp hp
  have hall : (above ++ q.1).all l.store.isVisible = false := by
    rw [List.all_eq_false]
    exact ⟨n, List.mem_append_left _ hn.1, by rw [hn.2]; exact Bool.false_ne_true⟩
  simp [isBlock, hall]

/-- The walk stands below the given nodes, all of which were entered. -/
structure Stands (l : Linkable) (above : List NodeId) (s : LinkState) : Prop where
  /-- Only visible nodes are entered. -/
  visible : above.all l.store.isVisible
  /-- The open dynamic elements are counted. -/
  depth : s.depth = above.countP l.isDynamicElement
  /-- The marks are the original ones. -/
  opensDynamic (n : NodeId) : l.opensDynamic n s = l.isDynamicElement n

theorem Stands.wrote {above : List NodeId} (hs : Stands l above s) (h : Wrote l t bs s s') :
    Stands l above s' where
  visible := hs.visible
  depth := h.depth.trans hs.depth
  opensDynamic n := (opensDynamic_congr (h.isDynamic n)).trans (hs.opensDynamic n)

theorem Stands.enter {above : List NodeId} (hs : Stands l above s) (hn : l.store.isVisible n) :
    Stands l (above ++ [n]) (l.enter n s) where
  visible := by rw [List.all_append, hs.visible]; simp [hn]
  depth := by
    rw [depth_enter, hs.opensDynamic, List.countP_append, hs.depth, List.countP_singleton]
    split <;> rfl
  opensDynamic m := (opensDynamic_congr isDynamic_enter).trans (hs.opensDynamic m)

/-- The expression that is collected on entering a node is its own, if that is a dynamic one. -/
theorem Stands.blockOf_eq {above : List NodeId} (hs : Stands l above s) (hn : l.store.isVisible n) :
    l.blockOf n (l.enter n s).depth =
      if l.isBlock (above, n) then [l.code n [.content]] else [] := by
  cases hp : l.store.payload? n with
  | none => simp [blockOf, isBlock, isChanging, hp]
  | some p =>
    cases p with
    | expression source engine =>
      have hopens : l.opensDynamic n s = false := by
        simp [Linkable.opensDynamic, Store.isElement, Store.element?, hp]
      have hdepth : (l.enter n s).depth = above.countP l.isDynamicElement := by
        rw [depth_enter, hopens, if_neg Bool.false_ne_true, hs.depth]
      have hany : decide (0 < above.countP l.isDynamicElement) = above.any l.isDynamicElement := by
        rw [Bool.eq_iff_iff, decide_eq_true_iff, List.countP_pos_iff, List.any_eq_true]
      simp only [hdepth, blockOf, isBlock, isChanging, hp, hany, hs.visible, hn, Bool.true_and,
        Bool.and_assoc]
    | _ => simp only [blockOf, isBlock, isChanging, hp, Bool.and_false,
      Bool.false_eq_true, if_false]

/-! ### The walk over a tree -/

/-- The walk over some nodes, in front of any queue and above any stack, writes the given text and
expressions. -/
def Walked (l : Linkable) (roots : List NodeId) (size : Nat) (t : Text) (bs : List Text)
    (s : LinkState) : Prop :=
  ∃ s' k, Wrote l t bs s s' ∧ k ≤ 2 * size ∧
    ∀ steps queue stack, l.visitor.loop (steps + k) (roots ++ queue) stack s =
      l.visitor.loop steps queue stack s'

theorem walked_nil (l : Linkable) (s : LinkState) : Walked l [] 0 [] [] s :=
  ⟨s, 0, .refl l s, Nat.zero_le _, fun _ _ _ => rfl⟩

theorem Walked.append {roots roots' : List NodeId} {size size' : Nat}
    (h : Walked l roots size t bs s)
    (h' : ∀ s', Wrote l t bs s s' → Walked l roots' size' t' bs' s') :
    Walked l (roots ++ roots') (size + size') (t ++ t') (bs ++ bs') s := by
  obtain ⟨s₁, k, hwrote, hk, hloop⟩ := h
  obtain ⟨s₂, k', hwrote', hk', hloop'⟩ := h' s₁ hwrote
  refine ⟨s₂, k' + k, hwrote.trans hwrote', by omega, fun steps queue stack => ?_⟩
  rw [← Nat.add_assoc, List.append_assoc, hloop, hloop']

/-- The walk over the children of a node, given what the walk over each of them does. -/
theorem walked_all {above : List NodeId} {below : List Shape}
    (hall : ∀ t ∈ below, ∀ s, Stands l above s →
      Walked l [t.root] t.ids.length (l.render t) (l.blocksBelow above t) s)
    (hs : Stands l above s) :
    Walked l (below.map Shape.root) (below.flatMap Shape.ids).length (below.flatMap l.render)
      (below.flatMap (l.blocksBelow above)) s := by
  induction below generalizing s with
  | nil => exact walked_nil l s
  | cons t below ih =>
    rw [List.map_cons, List.flatMap_cons, List.flatMap_cons, List.flatMap_cons, List.length_append]
    have hfirst := hall t List.mem_cons_self s hs
    refine hfirst.append fun s' hwrote => ?_
    exact ih (fun t ht => hall t (List.mem_cons_of_mem _ ht)) (hs.wrote hwrote)

theorem walked_invisible {above : List NodeId} {below : List Shape}
    (hn : l.store.isVisible n = false) :
    Walked l [n] (Shape.node n below).ids.length (l.render (.node n below))
      (l.blocksBelow above (.node n below)) s := by
  have hskip : l.visitor.skips n s := by
    change (true && !l.store.isVisible n) = true
    rw [hn]
    rfl
  have hblocks : l.blocksBelow above (.node n below) = [] := by
    have hhidden : below.flatMap (l.blocksBelow (above ++ [n])) = [] := by
      rw [List.flatMap_eq_nil_iff]
      intro t _
      exact blocksBelow_of_invisible ⟨List.mem_append_right _ (List.mem_singleton_self n), hn⟩ t
    rw [blocksBelow_node, hhidden, isBlock, hn]
    simp
  rw [render_node, hn, if_neg Bool.false_ne_true, hblocks]
  refine ⟨s, 1, .refl l s, ?_, fun steps queue stack => ?_⟩
  · rw [Shape.ids_node, List.length_cons]
    omega
  · rw [List.singleton_append, Visitor.loop, if_pos hskip]

/-- Entering a node gives its children, if it has any. -/
theorem visit_eq (hattr : ∀ a, l.store.payload? n ≠ some (.attr a)) :
    l.visitor.visit n s = (.ok (l.store.queue? n), l.enter n s) := by
  rw [Visitor.visit]
  split
  · rename_i a ha
    exact absurd ha (hattr a)
  · rfl

theorem walked_visible {above : List NodeId} {below : List Shape} (h : l.store.WellFormed)
    (ht : l.store.Shaped (.node n below)) (hattr : ∀ a, l.store.payload? n ≠ some (.attr a))
    (hn : l.store.isVisible n) (hs : Stands l above s)
    (hinner : Walked l (below.map Shape.root) (below.flatMap Shape.ids).length
      (below.flatMap l.render) (below.flatMap (l.blocksBelow (above ++ [n]))) (l.enter n s)) :
    Walked l [n] (Shape.node n below).ids.length (l.render (.node n below))
      (l.blocksBelow above (.node n below)) s := by
  have hskip : ¬ l.visitor.skips n s := by
    change ¬ (true && !l.store.isVisible n) = true
    rw [hn]
    exact Bool.false_ne_true
  have hroots : below.map Shape.root = l.store.children n := by
    cases ht with
    | node hroots _ => exact hroots
  have hcount : l.store.hasChildren n = !below.isEmpty := by
    rw [Store.hasChildren, h.linked.count, ← hroots]
    cases below <;> rfl
  have hcontainer : l.store.hasChildren n → l.store.isContainer n := by
    intro hc
    cases below with
    | nil => simp [hcount] at hc
    | cons t below => exact (h.fits _ _ (ht.parent? h t List.mem_cons_self)).isContainer
  have hempty : l.store.hasChildren n = false → below = [] := by
    intro hc
    rw [hcount, Bool.not_eq_false', List.isEmpty_iff] at hc
    exact hc
  obtain ⟨s', k, hwrote, hk, hloop⟩ := hinner
  have htext : l.render (.node n below) =
      l.enterText n ++ below.flatMap l.render ++ l.leaveText n (l.tagName n) := by
    rw [render_node, if_pos hn, ← nodeText_eq hcontainer fun hc => by rw [hempty hc]; rfl, hcount,
      Bool.not_not]
  rw [htext, blocksBelow_node, ← hs.blockOf_eq hn, Shape.ids_node, List.length_cons]
  by_cases hc : l.store.hasChildren n
  · -- the children are visited, and then the node is left
    refine ⟨l.leave n s', k + 2, hwrote.leave, by omega, fun steps queue stack => ?_⟩
    rw [List.singleton_append, show steps + (k + 2) = (steps + 1 + k) + 1 by omega,
      Visitor.loop_visit hskip, visit_eq hattr, Store.queue?, if_pos hc]
    dsimp only
    rw [← hroots, ← List.append_nil (below.map Shape.root), hloop, Visitor.loop_leave]
    rfl
  · -- the node is left at once
    obtain rfl := hempty (Bool.eq_false_iff.mpr hc)
    refine ⟨l.leave n (l.enter n s), 1, Wrote.leave (.refl l _), by omega,
      fun steps queue stack => ?_⟩
    rw [List.singleton_append, Visitor.loop_visit hskip, visit_eq hattr, Store.queue?, if_neg hc]
    rfl

/-- The walk over a tree writes what the recursion over its shape gives. -/
theorem walked_shape {above : List NodeId} {t : Shape} (h : l.store.WellFormed)
    (ht : l.store.Shaped t) (hattr : ∀ a, l.store.payload? t.root ≠ some (.attr a))
    (hs : Stands l above s) :
    Walked l [t.root] t.ids.length (l.render t) (l.blocksBelow above t) s := by
  induction t generalizing above s with
  | node n below ih =>
    cases hn : l.store.isVisible n with
    | false => exact walked_invisible hn
    | true =>
      refine walked_visible h ht hattr hn hs (walked_all (fun t hmem s hs => ?_) (hs.enter hn))
      have hparent : l.store.parent? t.root = some n := ht.parent? h t hmem
      have hshaped : l.store.Shaped t := by
        cases ht with
        | node _ hbelow => exact hbelow t hmem
      refine ih t hmem hshaped (fun a ha => ?_) hs
      rw [h.consistent.attr t.root a ha] at hparent
      cases hparent

/-! ### Linking -/

/-- No property but the marks matters for what is written. -/
theorem link_shaped {t : Shape} (ps : Table Properties) (h : l.store.WellFormed)
    (ht : l.store.Shaped t) (hhas : l.store.Has t.root)
    (hattr : ∀ a, l.store.payload? t.root ≠ some (.attr a))
    (hmarks : ∀ n, LinkState.isDynamic { properties := ps } n =
      LinkState.isDynamic { properties := l.properties } n) :
    ∃ s' : LinkState, ({ l with properties := ps } : Linkable).link t.root =
        some (.ok ⟨l.render t, l.dynamicBlocks t⟩, s'.properties) ∧
      ∀ n, s'.isDynamic n = LinkState.isDynamic { properties := l.properties } n := by
  have hstands : Stands l [] { properties := ps } :=
    { visible := rfl, depth := rfl, opensDynamic := fun n => congrArg _ (hmarks n) }
  have hsize : t.ids.length ≤ l.store.nodes.size := ht.length_ids_le h hhas
  obtain ⟨s', k, hwrote, hk, hloop⟩ := walked_shape h ht hattr hstands
  refine ⟨s', ?_, fun n => (hwrote.isDynamic n).trans (hmarks n)⟩
  have hwalk : l.visitor.walk l.store.walkLimit (some t.root) { properties := ps } =
      some (.ok (), s') := by
    obtain ⟨rest, hrest⟩ : ∃ rest, l.store.walkLimit = rest + 1 + k :=
      ⟨2 * l.store.nodes.size + 1 - k, by rw [Store.walkLimit]; omega⟩
    rw [Visitor.walk, hrest]
    exact hloop (rest + 1) [] []
  have htext : s'.pieces.reverse.flatten = l.render t := hwrote.text
  have hblocks : s'.blocks.reverse = l.dynamicBlocks t := by
    rw [hwrote.blocks, blocksBelow_nil]
    rfl
  rw [link, show ({ l with properties := ps } : Linkable).visitor = l.visitor from rfl, hwalk]
  dsimp only
  rw [output, htext, hblocks]

/-- A document is a node there is, and not an attribute. -/
theorem link_of_shaped {t : Shape} {d : DocumentData} (ps : Table Properties)
    (h : l.store.WellFormed) (ht : l.store.Shaped t)
    (hroot : l.store.payload? t.root = some (.document d))
    (hmarks : ∀ n, LinkState.isDynamic { properties := ps } n =
      LinkState.isDynamic { properties := l.properties } n) :
    ∃ s' : LinkState, ({ l with properties := ps } : Linkable).link t.root =
        some (.ok ⟨l.render t, l.dynamicBlocks t⟩, s'.properties) ∧
      ∀ n, s'.isDynamic n = LinkState.isDynamic { properties := l.properties } n := by
  refine link_shaped ps h ht (Store.has_of_kind? (k := .document) ?_) (fun a ha => ?_) hmarks
  · rw [Store.kind?, hroot]
    rfl
  · rw [hroot] at ha
    cases ha

/-- **Linking writes the recursive rendering of a tree.** The text is that of the visible nodes, by
recursion on the shape of the tree, the dynamic expressions are those below an element that is
marked as dynamic, and linking once more, with what the first time has left behind, gives the same
again. -/
theorem link_eq_render (l : Linkable) (h : l.store.WellFormed) {root : NodeId} {d : DocumentData}
    (hroot : l.store.payload? root = some (.document d)) :
    ∃ t : Shape, t.root = root ∧ l.store.Shaped t ∧ ∃ ps ps' : Table Properties,
      l.link root = some (.ok ⟨l.render t, l.dynamicBlocks t⟩, ps) ∧
      ({ l with properties := ps } : Linkable).link root =
        some (.ok ⟨l.render t, l.dynamicBlocks t⟩, ps') := by
  obtain ⟨t, rfl, ht⟩ := h.exists_shaped root
  obtain ⟨s, hfirst, hmarks⟩ := link_of_shaped l.properties h ht hroot fun _ => rfl
  obtain ⟨s', hsecond, -⟩ := link_of_shaped s.properties h ht hroot hmarks
  exact ⟨t, rfl, ht, s.properties, s'.properties, hfirst, hsecond⟩

/-- A document with an element that is marked as dynamic and takes its name from code, in which an
expression stands. -/
theorem link_eq_render_dynamic_element :
    let store := Store.run [.create (.document { type := "xml", singleRoot := true }) true 0,
      .create (.element { qualifier := [], name := "a" }) true 1, .createText [],
      .create (.expression "x" "parse") true 1, .appendChild 0 (some 1), .appendChild 1 (some 2),
      .appendChild 2 (some 3)]
    let l : Linkable := {
      store := store
      buffers := .put (.put {} 1 (Buffers.append {} .name "b")) 3 (Buffers.append {} .content "c")
      properties := .put {} 1 (Properties.set {} Properties.dynamic (.flag true)) }
    ∃ t : Shape, t.root = 0 ∧ l.store.Shaped t ∧ ∃ ps ps' : Table Properties,
      l.link 0 = some (.ok ⟨l.render t, l.dynamicBlocks t⟩, ps) ∧
      ({ l with properties := ps } : Linkable).link 0 =
        some (.ok ⟨l.render t, l.dynamicBlocks t⟩, ps') :=
  link_eq_render _ (Store.wellFormed_run _) (d := { type := "xml", singleRoot := true })
    (by decide)

end Linkable

end Stencil.Code
