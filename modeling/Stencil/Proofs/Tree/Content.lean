import Mathlib.Data.List.Flatten
import Stencil.Proofs.Tree.Regions

/-!
# The content of a tree

Two trees say the same if they have the same nodes in the same order, whatever the identifiers of
these nodes are and wherever the trees stand. The content of a tree is what such trees have in
common: a value without identifiers. It is made of the views of the nodes, and a view consists of
what a node and its attributes say by themselves and of the list of its children.

## Main definitions

* `Shape`, `Shape.ids`, `Shape.places` – trees of nodes; their nodes, alone and with the nodes above
  them, in document order
* `Store.Shaped` – a shape is that of its root
* `Node.loose` – what a node says by itself, without ties to other nodes
* `Store.View`, `Store.view` – what is seen at a node
* `Content`, `Shape.content` – what a tree says
* `Shape.prune`, `Content.prune` – a tree without some of its subtrees
* `Store.Holds` – the content of a node

## Main results

* `WellFormed.exists_shaped` – every node has a shape
* `WellFormed.length_ids_le` – a shape has no more nodes than the store
* `Shaped.forall₂_parts` – the nodes of a tree hold the parts of its content
* `Shaped.of_view`, `Shape.content_congr` – contents depend on views only
* `Shaped.prune`, `Shape.content_prune`
-/

/-! ## Shapes

A store holds the links of trees. For definitions by recursion over a tree, which need no bound, a
`Shape` is the same thing as a value: a node with the shapes of its children. Every node of a
well-formed store has a shape, and that lists each node of the tree once, so it has no more nodes
than the store. -/

namespace Stencil.Tree

/-- A node and what is below it. -/
inductive Shape where
  | node (n : NodeId) (below : List Shape)

namespace Shape

/-- The topmost node. -/
def root : Shape → NodeId
  | node n _ => n

/-- What holds of a node if it holds of all its children, holds of all nodes. -/
@[induction_eliminator]
theorem inductionOn {P : Shape → Prop}
    (node : ∀ n below, (∀ t ∈ below, P t) → P (node n below)) : ∀ t, P t
  | .node n below => node n below fun t _ => inductionOn node t

/-- All nodes in document order. -/
def ids : Shape → List NodeId
  | node n below => n :: below.flatMap ids

/-- All nodes in document order, each with the nodes above it, the topmost first. -/
def places : Shape → List (List NodeId × NodeId)
  | node n below => ([], n) :: (below.flatMap places).map fun p => (n :: p.1, p.2)

theorem ids_node (n : NodeId) (below : List Shape) :
    (node n below).ids = n :: below.flatMap ids := by
  rw [ids]

theorem places_node (n : NodeId) (below : List Shape) : (node n below).places =
    ([], n) :: (below.flatMap places).map fun p => (n :: p.1, p.2) := by
  rw [places]

end Shape

namespace Store

variable {s : Store} {n m : NodeId} {t : Shape}

/-- The shape is that of its root: the children are those of the store, in order. -/
inductive Shaped (s : Store) : Shape → Prop
  | node {n : NodeId} {below : List Shape} : below.map Shape.root = s.children n →
      (∀ t ∈ below, s.Shaped t) → s.Shaped (.node n below)

theorem exists_shaped_list {l : List NodeId} (h : ∀ c ∈ l, ∃ t : Shape, t.root = c ∧ s.Shaped t) :
    ∃ below : List Shape, below.map Shape.root = l ∧ ∀ t ∈ below, s.Shaped t := by
  induction l with
  | nil => exact ⟨[], rfl, by simp⟩
  | cons c l ih =>
    obtain ⟨t, rfl, ht⟩ := h c List.mem_cons_self
    obtain ⟨below, rfl, hbelow⟩ := ih fun d hd => h d (List.mem_cons_of_mem _ hd)
    exact ⟨t :: below, rfl, by simpa using ⟨ht, hbelow⟩⟩

/-- Every node has a shape. -/
theorem WellFormed.exists_shaped (h : s.WellFormed) (n : NodeId) :
    ∃ t : Shape, t.root = n ∧ s.Shaped t := by
  -- a child has fewer nodes below it than its parent
  induction hn : s.extent n using Nat.strongRecOn generalizing n with
  | ind k ih =>
    have hchildren : ∀ c ∈ s.children n, ∃ t : Shape, t.root = c ∧ s.Shaped t := by
      intro c hc
      have hlt : s.extent c < s.extent n := h.extent_lt (h.mem_children.mp hc)
      exact ih (s.extent c) (hn ▸ hlt) c rfl
    obtain ⟨below, hroots, hbelow⟩ := exists_shaped_list hchildren
    exact ⟨.node n below, rfl, .node hroots hbelow⟩

theorem Shaped.parent? {below : List Shape} (h : s.WellFormed) (ht : s.Shaped (.node n below)) :
    ∀ c ∈ below, s.parent? c.root = some n := by
  cases ht with
  | node hroots _ =>
    intro c hc
    refine h.mem_children.mp ?_
    rw [← hroots]
    exact List.mem_map_of_mem hc

/-- The nodes of a shape are those below its root. -/
theorem Shaped.above (h : s.WellFormed) (ht : s.Shaped t) (hm : m ∈ t.ids) : s.Above t.root m := by
  induction t with
  | node n below ih =>
    rw [Shape.ids_node, List.mem_cons, List.mem_flatMap] at hm
    rcases hm with rfl | ⟨c, hc, hm⟩
    · exact .refl m
    · have hparent : s.parent? c.root = some n := ht.parent? h c hc
      cases ht with
      | node _ hbelow => exact (Above.of_parent? hparent).trans (ih c hc (hbelow c hc) hm)

theorem above_or_above {a b : NodeId} (ha : s.Above a n) (hb : s.Above b n) :
    s.Above a b ∨ s.Above b a := by
  obtain ⟨j, hj⟩ := ha
  obtain ⟨k, hk⟩ := hb
  rcases Nat.le_total j k with hjk | hjk
  · obtain ⟨i, rfl⟩ := Nat.exists_eq_add_of_le hjk
    rw [ascend_add, hj] at hk
    exact .inr ⟨i, hk⟩
  · obtain ⟨i, rfl⟩ := Nat.exists_eq_add_of_le hjk
    rw [ascend_add, hk] at hj
    exact .inl ⟨i, hj⟩

/-- Two children of one node have nothing below them in common. -/
theorem WellFormed.not_above_siblings (h : s.WellFormed) {c d p : NodeId}
    (hc : s.parent? c = some p) (hd : s.parent? d = some p) (hne : d ≠ c) (hcm : s.Above c m) :
    ¬ s.Above d m := by
  intro hdm
  rcases above_or_above hcm hdm with hcd | hdc
  · exact h.not_region_sibling hc hd hne (.inl hcd)
  · exact h.not_region_sibling hd hc hne.symm (.inl hdc)

/-- A shape lists every node once. -/
theorem Shaped.nodup_ids (h : s.WellFormed) (ht : s.Shaped t) : t.ids.Nodup := by
  induction t with
  | node n below ih =>
    have hparent : ∀ c ∈ below, s.parent? c.root = some n := ht.parent? h
    cases ht with
    | node hroots hbelow =>
      rw [Shape.ids_node, List.nodup_cons]
      constructor
      · intro hn
        obtain ⟨c, hc, hn⟩ := List.mem_flatMap.mp hn
        exact h.grounded.not_above_of_parent? (hparent c hc) ((hbelow c hc).above h hn)
      · rw [List.nodup_flatMap]
        refine ⟨fun c hc => ih c hc (hbelow c hc), ?_⟩
        have hdistinct : (below.map Shape.root).Nodup := hroots ▸ h.linked.nodup n
        have hpair := List.pairwise_map.mp hdistinct
        refine hpair.imp_of_mem fun {c d} hc hd hne => ?_
        intro m hcm hdm
        exact h.not_above_siblings (hparent c hc) (hparent d hd) (Ne.symm hne)
          ((hbelow c hc).above h hcm) ((hbelow d hd).above h hdm)

/-- A shape has no more nodes than the store. -/
theorem Shaped.length_ids_le (h : s.WellFormed) (ht : s.Shaped t) (hroot : s.Has t.root) :
    t.ids.length ≤ s.nodes.size := by
  have hsub : t.ids ⊆ List.range s.nodes.size := by
    intro m hm
    rw [List.mem_range]
    rcases above_iff.mp (ht.above h hm) with hm | ⟨p, hp, -⟩
    · exact hm ▸ hroot
    · exact has_of_parent? hp
  simpa using (List.subperm_of_subset (ht.nodup_ids h) hsub).length_le

end Store

end Stencil.Tree

/-! ## Contents -/

namespace Stencil.Tree

/-- A payload without its ties to other nodes: the attributes of an element, the owner of an
attribute. -/
def Payload.loose : Payload → Payload
  | element d => element { d with attrs := .empty }
  | attr a => attr { a with owner := none }
  | p => p

/-- What a node says by itself, wherever it stands. -/
def Node.loose (node : Node) : Node := { node with payload := node.payload.loose, links := {} }

/-- What a tree says. -/
inductive Content where
  /-- What a node and its attributes say, and what is below. -/
  | node (self : Option Node) (attributes : List (Option Node)) (below : List Content)

namespace Content

/-- What holds of a content if it holds of all that is directly below, holds of all contents. -/
@[induction_eliminator]
theorem inductionOn {P : Content → Prop} (node : ∀ self attributes below,
    (∀ c ∈ below, P c) → P (node self attributes below)) : ∀ c, P c
  | .node self attributes below => node self attributes below fun c _ => inductionOn node c

/-- What the topmost node says. -/
def self : Content → Option Node
  | node n _ _ => n

/-- What the attributes of the topmost node say. -/
def attributes : Content → List (Option Node)
  | node _ attributes _ => attributes

/-- What is directly below the topmost node. -/
def inner : Content → List Content
  | node _ _ below => below

/-- All contents within a content, in document order. -/
def parts : Content → List Content
  | node n attributes below => node n attributes below :: below.flatMap parts

theorem parts_node (n : Option Node) (attributes : List (Option Node)) (below : List Content) :
    (node n attributes below).parts = node n attributes below :: below.flatMap parts := by
  rw [parts]

theorem mem_parts_node {n : Option Node} {attributes : List (Option Node)} {below : List Content}
    {x : Content} : x ∈ (node n attributes below).parts ↔
      x = node n attributes below ∨ ∃ b ∈ below, x ∈ b.parts := by
  rw [parts_node, List.mem_cons, List.mem_flatMap]

theorem mem_parts (c : Content) : c ∈ c.parts := by
  cases c
  exact mem_parts_node.mpr (.inl rfl)

theorem mem_parts_of_mem_inner {b c x : Content} (hb : b ∈ c.inner) (hx : x ∈ b.parts) :
    x ∈ c.parts := by
  cases c
  exact mem_parts_node.mpr (.inr ⟨b, hb, hx⟩)

theorem sizeOf_inner_lt (c : Content) : sizeOf c.inner < sizeOf c := by
  cases c
  rw [inner, node.sizeOf_spec]
  omega

/-- The content without the subtrees of certain nodes. -/
def prune (drop : Option Node → Bool) : Content → Content
  | node n attributes below =>
    node n attributes ((below.map (prune drop)).filter fun c => !drop c.self)

theorem self_prune (drop : Option Node → Bool) (c : Content) : (c.prune drop).self = c.self := by
  cases c
  rw [prune, self, self]

/-- Nodes are dropped before or after what is below them is pruned. -/
theorem prune_node (drop : Option Node → Bool) (n : Option Node) (attributes : List (Option Node))
    (below : List Content) : (node n attributes below).prune drop =
      node n attributes ((below.filter fun c => !drop c.self).map (prune drop)) := by
  rw [prune, List.filter_map]
  congr 2
  exact List.filter_congr fun c _ => by rw [Function.comp, self_prune]

end Content

namespace Store

/-- What is seen at a node. -/
@[ext] structure View where
  /-- What the node says. -/
  self : Option Node
  /-- What its attributes say. -/
  attributes : List (Option Node)
  /-- Its children. -/
  children : List NodeId

/-- What a node of the store says by itself. -/
def loose (s : Store) (n : NodeId) : Option Node := (s.get? n).map Node.loose

/-- What is seen at a node of the store. -/
def view (s : Store) (n : NodeId) : View := ⟨s.loose n, (s.attributes n).map s.loose, s.children n⟩

end Store

namespace Shape

/-- What a tree says in a store. -/
def content (s : Store) : Shape → Content
  | node n below => .node (s.view n).self (s.view n).attributes (below.map (content s))

theorem content_node (s : Store) (n : NodeId) (below : List Shape) : (node n below).content s =
    .node (s.view n).self (s.view n).attributes (below.map (content s)) := by
  rw [content]

/-- The tree without the subtrees of certain nodes. -/
def prune (drop : NodeId → Bool) : Shape → Shape
  | node n below => node n ((below.map (prune drop)).filter fun t => !drop t.root)

@[simp] theorem root_prune (drop : NodeId → Bool) (t : Shape) : (t.prune drop).root = t.root := by
  cases t
  rw [prune, root, root]

theorem prune_node (drop : NodeId → Bool) (n : NodeId) (below : List Shape) :
    (node n below).prune drop = node n ((below.filter fun t => !drop t.root).map (prune drop)) := by
  rw [prune, List.filter_map]
  congr 2
  exact List.filter_congr fun t _ => by rw [Function.comp, root_prune]

theorem root_mem_ids (t : Shape) : t.root ∈ t.ids := by
  cases t
  rw [ids_node, root]
  exact List.mem_cons_self

theorem self_content (s : Store) (t : Shape) : (t.content s).self = s.loose t.root := by
  cases t
  rw [content_node, Content.self, root, Store.view]

theorem mem_tail_of_mem_below {n m : NodeId} {below : List Shape} {t : Shape} (ht : t ∈ below)
    (hm : m ∈ t.ids) : m ∈ (node n below).ids.tail := by
  rw [ids_node, List.tail_cons]
  exact List.mem_flatMap.mpr ⟨t, ht, hm⟩

theorem mem_ids_of_mem_below {n m : NodeId} {below : List Shape} {t : Shape} (ht : t ∈ below)
    (hm : m ∈ t.ids) : m ∈ (node n below).ids :=
  List.mem_of_mem_tail (mem_tail_of_mem_below ht hm)

theorem mem_ids_of_mem_prune {drop : NodeId → Bool} {t : Shape} {m : NodeId}
    (hm : m ∈ (t.prune drop).ids) : m ∈ t.ids := by
  induction t with
  | node n below ih =>
    rw [prune_node, ids_node, List.mem_cons, List.mem_flatMap] at hm
    rcases hm with rfl | ⟨u, hu, hm⟩
    · exact root_mem_ids (node m below)
    · obtain ⟨c, hc, rfl⟩ := List.mem_map.mp hu
      have hc' := List.mem_of_mem_filter hc
      exact mem_ids_of_mem_below hc' (ih c hc' hm)

end Shape

namespace Store

variable {s s' : Store} {n m e : NodeId} {t : Shape} {drop : NodeId → Bool}

theorem view_eq_of {v : List NodeId} (hself : s'.loose n = s.loose n)
    (hattrs : s'.attributes n = s.attributes n)
    (hsay : ∀ a ∈ s.attributes n, s'.loose a = s.loose a) (hchildren : s'.children n = v) :
    s'.view n = { s.view n with children := v } := by
  rw [view, hself, hattrs, hchildren, List.map_congr_left hsay, view]

theorem view_congr (hself : s'.loose n = s.loose n) (hattrs : s'.attributes n = s.attributes n)
    (hsay : ∀ a ∈ s.attributes n, s'.loose a = s.loose a)
    (hchildren : s'.children n = s.children n) :
    s'.view n = s.view n :=
  view_eq_of hself hattrs hsay hchildren

/-- The nodes below the root of a shape are its nodes. -/
theorem Shaped.mem_ids_of_above (h : s.WellFormed) (ht : s.Shaped t) (hm : s.Above t.root m) :
    m ∈ t.ids := by
  induction t with
  | node n below ih =>
    obtain ⟨k, hk⟩ := hm
    cases k with
    | zero =>
      obtain rfl : m = n := by simpa [ascend, Shape.root] using hk
      exact Shape.root_mem_ids (.node m below)
    | succ k =>
      -- the last step down leads to a child of the root
      rw [ascend_succ] at hk
      obtain ⟨q, hq, hparent⟩ := Option.bind_eq_some_iff.mp hk
      cases ht with
      | node hroots hbelow =>
        have hmem : q ∈ below.map Shape.root := hroots ▸ h.mem_children.mpr hparent
        obtain ⟨c, hc, rfl⟩ := List.mem_map.mp hmem
        exact Shape.mem_ids_of_mem_below hc (ih c hc (hbelow c hc) ⟨k, hq⟩)

/-- The content of a node. -/
def Holds (s : Store) (n : NodeId) (c : Content) : Prop :=
  ∃ t : Shape, t.root = n ∧ s.Shaped t ∧ t.content s = c

/-- The nodes of a tree hold the parts of its content, in document order. -/
theorem Shaped.forall₂_parts (ht : s.Shaped t) : t.ids.Forall₂ s.Holds (t.content s).parts := by
  induction t with
  | node n below ih =>
    have hself : s.Holds n ((Shape.node n below).content s) := ⟨.node n below, rfl, ht, rfl⟩
    cases ht with
    | node hroots hbelow =>
      rw [Shape.content_node] at hself ⊢
      rw [Shape.ids_node, Content.parts_node, List.flatMap_map]
      refine .cons hself ?_
      clear hself hroots
      induction below with
      | nil => exact .nil
      | cons u below ih' =>
        obtain ⟨hu, hbelow⟩ := List.forall_mem_cons.mp hbelow
        rw [List.flatMap_cons, List.flatMap_cons]
        exact List.rel_append (ih u List.mem_cons_self hu)
          (ih' (fun t ht => ih t (List.mem_cons_of_mem _ ht)) hbelow)

/-- A node has one shape. -/
theorem Shaped.eq_of_root {t' : Shape} (h : s.Shaped t) (h' : s.Shaped t')
    (hroot : t.root = t'.root) :
    t = t' := by
  induction t generalizing t' with
  | node n below ih =>
    cases t' with
    | node n' below' =>
    obtain rfl : n = n' := hroot
    cases h with
    | node hroots hbelow =>
    cases h' with
    | node hroots' hbelow' =>
    have hmap := hroots.trans hroots'.symm
    congr 1
    refine List.ext_getElem (by simpa using congrArg List.length hmap) fun i hi hi' => ?_
    refine ih _ (List.getElem_mem hi) (hbelow _ (List.getElem_mem hi))
      (hbelow' _ (List.getElem_mem hi')) ?_
    simpa [hi, hi'] using congrArg (·[i]?) hmap

/-- A node holds one content. -/
theorem Holds.unique {c c' : Content} (h : s.Holds n c) (h' : s.Holds n c') : c = c' := by
  obtain ⟨t, hroot, ht, rfl⟩ := h
  obtain ⟨t', hroot', ht', rfl⟩ := h'
  rw [ht.eq_of_root ht' (hroot.trans hroot'.symm)]

theorem rightUnique_holds : Relator.RightUnique s.Holds := fun _ _ _ h h' => h.unique h'

/-- All nodes of a tree hold a part of its content. -/
theorem Holds.exists_part {c : Content} (hw : s.WellFormed) (h : s.Holds n c) (hm : s.Above n m) :
    ∃ x ∈ c.parts, s.Holds m x := by
  obtain ⟨t, rfl, ht, rfl⟩ := h
  obtain ⟨i, hi, rfl⟩ := List.mem_iff_getElem.mp (ht.mem_ids_of_above hw hm)
  have hparts := ht.forall₂_parts
  exact ⟨_, List.getElem_mem (hparts.length_eq ▸ hi), hparts.get hi _⟩

/-- A tree keeps its shape as long as its nodes keep their children. -/
theorem Shaped.of_children (ht : s.Shaped t) (h : ∀ n ∈ t.ids, s'.children n = s.children n) :
    s'.Shaped t := by
  induction t with
  | node n below ih =>
    cases ht with
    | node hroots hbelow =>
      have hn : s'.children n = s.children n := h n (Shape.root_mem_ids (.node n below))
      refine .node (hroots.trans hn.symm) fun t ht => ih t ht (hbelow t ht) fun m hm => ?_
      exact h m (Shape.mem_ids_of_mem_below ht hm)

theorem Shaped.of_view (ht : s.Shaped t) (h : ∀ n ∈ t.ids, s'.view n = s.view n) : s'.Shaped t :=
  ht.of_children fun n hn => congrArg View.children (h n hn)

theorem Shape.content_congr (h : ∀ n ∈ t.ids, s'.view n = s.view n) :
    t.content s' = t.content s := by
  induction t with
  | node n below ih =>
    rw [Shape.content_node, Shape.content_node, h n (Shape.root_mem_ids (.node n below))]
    congr 1
    refine List.map_congr_left fun t ht => ih t ht fun m hm => ?_
    exact h m (Shape.mem_ids_of_mem_below ht hm)

/-! ### Pruning -/

/-- What is seen at a node when some of its children are gone. -/
def View.without (v : View) (drop : NodeId → Bool) : View :=
  { v with children := v.children.filter fun c => !drop c }

/-- If the nodes that are left have lost the children to be dropped, the tree is pruned. -/
theorem Shaped.prune (ht : s.Shaped t)
    (h : ∀ n ∈ (t.prune drop).ids, s'.view n = (s.view n).without drop) :
    s'.Shaped (t.prune drop) := by
  induction t with
  | node n below ih =>
    rw [Shape.prune_node] at h ⊢
    cases ht with
    | node hroots hbelow =>
      refine .node ?_ fun t ht => ?_
      · have hn : s'.children n = (s.children n).filter fun c => !drop c :=
          congrArg View.children (h n (Shape.root_mem_ids (.node n _)))
        rw [hn, ← hroots, List.filter_map, List.map_map]
        exact List.map_congr_left fun t _ => Shape.root_prune drop t
      · obtain ⟨u, hu, rfl⟩ := List.mem_map.mp ht
        have hu' := List.mem_of_mem_filter hu
        exact ih u hu' (hbelow u hu') fun m hm => h m (Shape.mem_ids_of_mem_below ht hm)

/-- The content of a pruned tree is the pruned content, if what is dropped can be told from what
nodes say. -/
theorem Shape.content_prune {tell : Option Node → Bool}
    (hdrop : ∀ n ∈ t.ids.tail, drop n = tell (s.loose n))
    (h : ∀ n ∈ (t.prune drop).ids, s'.view n = (s.view n).without drop) :
    (t.prune drop).content s' = (t.content s).prune tell := by
  induction t with
  | node n below ih =>
    rw [Shape.prune_node] at h ⊢
    rw [Shape.content_node, Shape.content_node, Content.prune_node,
      h n (Shape.root_mem_ids (.node n _))]
    have hkept : (below.filter fun t => !drop t.root) =
        below.filter fun t => !tell (t.content s).self := by
      refine List.filter_congr fun t ht => ?_
      rw [Shape.self_content, hdrop t.root (Shape.mem_tail_of_mem_below ht t.root_mem_ids)]
    congr 1
    rw [List.filter_map, List.map_map, List.map_map, hkept]
    refine List.map_congr_left fun t ht => ?_
    have ht' := List.mem_of_mem_filter ht
    refine ih t ht'
      (fun m hm => hdrop m (Shape.mem_tail_of_mem_below ht' (List.mem_of_mem_tail hm)))
      fun m hm => ?_
    rw [hkept] at h
    exact h m (Shape.mem_ids_of_mem_below (List.mem_map_of_mem ht) hm)

end Store

end Stencil.Tree
