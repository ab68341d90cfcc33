import Stencil.Proofs.Tree.Copies
import Stencil.Proofs.Tree.Roots
import Stencil.Proofs.Tree.Content

/-!
# Searching for elements

A search below an element reads a queue that grows meanwhile: an element at its head puts its own
children at the end. Any other node is passed over with what is below it. The model lists every node
level by level instead and picks those it looks for.

Both find the same elements, because no element stands below what is neither an element nor a
document: level for level, the queue and the tree have the same elements, although not the same
nodes. A level is a part of the document order, so that what is found is in order of depth, and in
document order at each depth.

## Main definitions

* `Shape.level` – the nodes of a shape at a depth
* `Store.searchTurn` – a turn of the loop that searches
* `Store.Nearer`, `Store.Finds` – the order of what is found; what searching promises

## Main results

* `WellFormed.exists_searchTurn` – the loop ends, with what the levels have
* `WellFormed.pairwise_breadthFirst` – levels follow each other in document order
* `WellFormed.finds` – searching keeps its promise
-/

namespace Stencil.Tree

/-- The nodes at a depth, in document order. -/
def Shape.level : Nat → Shape → List NodeId
  | 0, node n _ => [n]
  | k + 1, node _ below => below.flatMap (level k)

/-- A level is a part of the document order. -/
theorem Shape.level_sublist (k : Nat) (t : Shape) : (t.level k).Sublist t.ids := by
  induction k generalizing t with
  | zero =>
    obtain ⟨n, below⟩ := t
    rw [level, ids_node]
    exact List.singleton_sublist.mpr List.mem_cons_self
  | succ k ih =>
    obtain ⟨n, below⟩ := t
    rw [level, ids_node]
    exact (List.Sublist.flatMap_right below fun c _ => ih c).trans (List.sublist_cons_self n _)

namespace Store

variable {s : Store} {n m e a b r : NodeId} {t : Shape} {uri : Int} {name : Text}
  {level queue next found : List NodeId} {i j k limit : Nat}

/-- Whether a node is an element in the given namespace with the given name. -/
def isCalled (s : Store) (uri : Int) (name : Text) (n : NodeId) : Bool :=
  match s.element? n with
  | some d => d.uri = some uri && d.name = name
  | none => false

/-- A turn of the loop that searches: an element at the head of the queue is found or not, and its
children go to the end. Any other node is dropped. Nothing is left to be done when the queue is
empty. -/
def searchTurn (s : Store) (uri : Int) (name : Text) :
    List NodeId × List NodeId → List NodeId × List NodeId
  | ([], found) => ([], found)
  | (m :: queue, found) =>
    if s.isElement m then
      (queue ++ s.children m, if s.isCalled uri name m then found ++ [m] else found)
    else (queue, found)

/-- The node `a` is less deep in the shape than `b`, or as deep and in front of it. -/
def Nearer (s : Store) (t : Shape) (a b : NodeId) : Prop :=
  ∃ i j, s.ascend i a = some t.root ∧ s.ascend j b = some t.root ∧
    (i < j ∨ i = j ∧ [a, b].Sublist t.ids)

/-- What searching below the root of a shape promises of the nodes that it finds. -/
structure Finds (s : Store) (t : Shape) (uri : Int) (name : Text) (found : List NodeId) : Prop where
  /-- The loop ends with them. It begins with the children in the queue. -/
  searches : ∃ turns, (s.searchTurn uri name)^[turns] (s.children t.root, []) = ([], found)
  /-- They are the elements in question below the root, at any depth. -/
  mem (n : NodeId) : n ∈ found ↔ n ≠ t.root ∧ s.Above t.root n ∧
    ∃ d, s.element? n = some d ∧ d.uri = some uri ∧ d.name = name
  /-- Each is found once. -/
  once : found.Nodup
  /-- They are ordered by depth and, within one depth, as in the document. -/
  ordered : found.Pairwise (s.Nearer t)

theorem isCalled_iff : s.isCalled uri name n ↔
    ∃ d, s.element? n = some d ∧ d.uri = some uri ∧ d.name = name := by
  rw [isCalled]
  cases s.element? n <;> simp

theorem elementsByName_eq :
    s.elementsByName e uri name = (s.subtree e).tail.filter (s.isCalled uri name) := by
  rfl

theorem breadthFirst_succ : s.breadthFirst (limit + 1) level =
    level ++ s.breadthFirst limit (level.flatMap s.children) := by
  cases level with
  | nil => cases limit <;> simp [breadthFirst]
  | cons m level =>
    rw [breadthFirst]
    simp

/-! ### The loop -/

/-- Reading a level takes a turn for each node of it. -/
theorem searchTurn_level (uri : Int) (name : Text) (level next found : List NodeId) :
    (s.searchTurn uri name)^[level.length] (level ++ next, found) =
      (next ++ (level.filter s.isElement).flatMap s.children,
        found ++ level.filter (s.isCalled uri name)) := by
  induction level generalizing next found with
  | nil => simp
  | cons m level ih =>
    rw [List.length_cons, Function.iterate_succ_apply, List.cons_append, searchTurn]
    by_cases hm : s.isElement m
    · rw [if_pos hm, List.append_assoc, ih]
      by_cases hcalled : s.isCalled uri name m <;> simp [hm, hcalled]
    · have hcalled : ¬ s.isCalled uri name m := by
        rw [isCalled_iff]
        rintro ⟨d, hd, -⟩
        exact hm (by rw [isElement, hd]; rfl)
      rw [if_neg hm, ih]
      simp [hm, hcalled]

/-- No document stands below another node. -/
theorem WellFormed.kind?_ne_document (h : s.WellFormed) (hp : s.parent? n = some r) :
    s.kind? n ≠ some .document := by
  obtain ⟨parent, child, -, hchild, hadmits⟩ := h.fits n r hp
  rw [hchild]
  rintro ⟨⟩
  cases parent <;> cases hadmits

/-- No element stands below what is neither an element nor a document. -/
theorem WellFormed.filter_isElement_children (h : s.WellFormed) (hnot : ¬ s.isElement m)
    (hkind : s.kind? m ≠ some .document) : (s.children m).filter s.isElement = [] := by
  refine List.filter_eq_nil_iff.mpr fun c hc helement => ?_
  obtain ⟨parent, child, hparent, hchild, hadmits⟩ := h.fits c m (h.mem_children.mp hc)
  rw [isElement_iff_kind?] at hnot helement
  obtain rfl : child = .element := by simpa [helement] using hchild.symm
  cases parent with
  | document => exact hkind hparent
  | element => exact hnot hparent
  | _ => cases hadmits

/-- The next level has the same elements as what the queue gets from this one. -/
theorem WellFormed.filter_isElement_flatMap (h : s.WellFormed)
    (hlevel : ∀ m ∈ level, s.kind? m ≠ some .document) :
    ((level.filter s.isElement).flatMap s.children).filter s.isElement =
      (level.flatMap s.children).filter s.isElement := by
  induction level with
  | nil => rfl
  | cons m level ih =>
    have hrest := ih fun c hc => hlevel c (List.mem_cons_of_mem m hc)
    by_cases hm : s.isElement m
    · simp [hm, List.filter_append, hrest]
    · have hnone := h.filter_isElement_children hm (hlevel m List.mem_cons_self)
      simp [hm, List.filter_append, hrest, hnone]

theorem filter_isCalled_congr (hsame : queue.filter s.isElement = level.filter s.isElement) :
    queue.filter (s.isCalled uri name) = level.filter (s.isCalled uri name) := by
  have hboth : ∀ l : List NodeId,
      l.filter (s.isCalled uri name) = (l.filter s.isElement).filter (s.isCalled uri name) := by
    intro l
    rw [List.filter_filter]
    refine List.filter_congr fun m _ => ?_
    rw [isCalled, isElement]
    cases s.element? m <;> simp
  rw [hboth queue, hsame, ← hboth level]

/-- **The loop ends.** It has found what the levels have: the queue may lack nodes of a level, but
no elements. -/
theorem WellFormed.exists_searchTurn (h : s.WellFormed) (uri : Int) (name : Text)
    (found : List NodeId) (hsub : queue ⊆ level)
    (hsame : queue.filter s.isElement = level.filter s.isElement)
    (hlevel : ∀ m ∈ level, s.Has m ∧ s.kind? m ≠ some .document ∧ s.ascend k m = some r)
    (hlimit : s.nodes.size ≤ limit + k) :
    ∃ turns, (s.searchTurn uri name)^[turns] (queue, found) =
      ([], found ++ (s.breadthFirst limit level).filter (s.isCalled uri name)) := by
  induction limit generalizing queue level found k with
  | zero =>
    have hnil : queue = [] := List.eq_nil_iff_forall_not_mem.mpr fun m hm => by
      obtain ⟨hhas, -, hup⟩ := hlevel m (hsub hm)
      have hlt := h.linked.ascend_lt h.grounded hhas hup
      omega
    exact ⟨0, by simp [hnil, breadthFirst]⟩
  | succ limit ih =>
    have hfirst := s.searchTurn_level uri name queue [] found
    rw [List.append_nil, List.nil_append, hsame, filter_isCalled_congr hsame] at hfirst
    have hbelow : ∀ c ∈ level.flatMap s.children,
        s.Has c ∧ s.kind? c ≠ some .document ∧ s.ascend (k + 1) c = some r := by
      intro c hc
      obtain ⟨q, hq, hc⟩ := List.mem_flatMap.mp hc
      have hparent := h.mem_children.mp hc
      refine ⟨has_of_parent? hparent, h.kind?_ne_document hparent, ?_⟩
      rw [ascend, hparent]
      exact (hlevel q hq).2.2
    have hsub' : (level.filter s.isElement).flatMap s.children ⊆ level.flatMap s.children :=
      (List.filter_sublist.flatMap s.children).subset
    obtain ⟨turns, hrest⟩ := ih (found ++ level.filter (s.isCalled uri name)) hsub'
      (h.filter_isElement_flatMap fun m hm => (hlevel m hm).2.1) hbelow (by omega)
    refine ⟨turns + queue.length, ?_⟩
    rw [Function.iterate_add_apply, hfirst, hrest, breadthFirst_succ, List.filter_append,
      List.append_assoc]

/-! ### Depth and document order -/

/-- A node is at one depth only. -/
theorem Grounded.ascend_inj (h : s.Grounded) (hi : s.ascend i n = some a)
    (hj : s.ascend j n = some a) : i = j := by
  wlog hij : i ≤ j generalizing i j
  · exact (this hj hi (Nat.le_of_not_le hij)).symm
  obtain ⟨d, rfl⟩ := Nat.exists_eq_add_of_le hij
  rw [ascend_add, hi] at hj
  cases d with
  | zero => rfl
  | succ d => exact absurd hj (h.irrefl a d)

theorem Shaped.flatMap_level (ht : s.Shaped t) :
    (t.level k).flatMap s.children = t.level (k + 1) := by
  induction k generalizing t with
  | zero =>
    cases ht with
    | @node n below hroots _ =>
      have hlevel : below.flatMap (Shape.level 0) = below.map Shape.root := by
        rw [← List.flatMap_pure_eq_map]
        refine List.flatMap_congr fun c _ => ?_
        cases c
        rfl
      rw [Shape.level, Shape.level, hlevel, hroots, List.flatMap_singleton]
  | succ k ih =>
    cases ht with
    | @node n below _ hbelow =>
      rw [Shape.level, List.flatMap_assoc, Shape.level]
      exact List.flatMap_congr fun c hc => ih (hbelow c hc)

theorem Shaped.ascend_of_mem_level (h : s.WellFormed) (ht : s.Shaped t) (hm : m ∈ t.level k) :
    s.ascend k m = some t.root := by
  induction k generalizing m with
  | zero =>
    obtain ⟨n, below⟩ := t
    obtain rfl := List.mem_singleton.mp hm
    rfl
  | succ k ih =>
    rw [← ht.flatMap_level] at hm
    obtain ⟨q, hq, hm⟩ := List.mem_flatMap.mp hm
    rw [ascend, h.mem_children.mp hm]
    exact ih hq

/-- **Levels.** What is visited level by level is in order of depth, and in document order at each
depth. -/
theorem WellFormed.pairwise_breadthFirst (h : s.WellFormed) (ht : s.Shaped t) :
    (s.breadthFirst limit (t.level k)).Pairwise (s.Nearer t) := by
  induction limit generalizing k with
  | zero => exact .nil
  | succ limit ih =>
    rw [breadthFirst_succ, ht.flatMap_level, List.pairwise_append]
    refine ⟨?_, ih, fun a ha b hb => ?_⟩
    · refine List.pairwise_iff_forall_sublist.mpr fun {a b} hab => ?_
      have ha : a ∈ t.level k := hab.subset (by simp)
      have hb : b ∈ t.level k := hab.subset (by simp)
      exact ⟨k, k, ht.ascend_of_mem_level h ha, ht.ascend_of_mem_level h hb,
        .inr ⟨rfl, hab.trans (t.level_sublist k)⟩⟩
    · -- what comes later has levels above it that end in the next one
      obtain ⟨i, -, q, hq, hup⟩ := h.linked.mem_breadthFirst.mp hb
      have hdeep : s.ascend (i + (k + 1)) b = some t.root := by
        rw [ascend_add, hup]
        exact ht.ascend_of_mem_level h hq
      exact ⟨k, i + (k + 1), ht.ascend_of_mem_level h ha, hdeep, .inl (by omega)⟩

/-- What is ordered in this way has no repetition. -/
theorem WellFormed.not_nearer_self (h : s.WellFormed) (ht : s.Shaped t) : ¬ s.Nearer t a a := by
  rintro ⟨i, j, hi, hj, hlt | ⟨-, htwice⟩⟩
  · exact absurd (h.grounded.ascend_inj hi hj) (Nat.ne_of_lt hlt)
  · exact List.nodup_iff_sublist.mp (ht.nodup_ids h) a htwice

/-! ### What searching promises -/

/-- **Searching.** Below an element of a well-formed store, it finds every element with the given
namespace and name at any depth, each of them once and nothing else, the less deep ones first and
those of one depth in document order. -/
theorem WellFormed.finds (h : s.WellFormed) (he : s.isElement e) (uri : Int) (name : Text) :
    ∃ t : Shape, t.root = e ∧ s.Shaped t ∧ s.Finds t uri name (s.elementsByName e uri name) := by
  obtain ⟨t, rfl, ht⟩ := h.exists_shaped e
  have hhas : s.Has t.root := has_of_isElement he
  obtain ⟨limit, hsize⟩ : ∃ limit, s.nodes.size = limit + 1 :=
    Nat.exists_eq_succ_of_ne_zero (Nat.ne_of_gt (Nat.zero_lt_of_lt hhas))
  have hsubtree : s.subtree t.root = t.root :: s.breadthFirst limit (s.children t.root) := by
    rw [subtree, hsize, breadthFirst_succ, List.flatMap_singleton, List.singleton_append]
  have hfound : s.elementsByName t.root uri name =
      (s.breadthFirst limit (s.children t.root)).filter (s.isCalled uri name) := by
    rw [elementsByName_eq, hsubtree, List.tail_cons]
  have hordered : (s.subtree t.root).Pairwise (s.Nearer t) := by
    have hroot : t.level 0 = [t.root] := by
      cases t
      rfl
    rw [subtree, ← hroot]
    exact h.pairwise_breadthFirst ht
  rw [hsubtree, List.pairwise_cons] at hordered
  have hdistinct : (s.breadthFirst limit (s.children t.root)).Nodup := by
    refine hordered.2.imp fun {a b} hab => ?_
    rintro rfl
    exact h.not_nearer_self ht hab
  have hmem (n : NodeId) :
      n ∈ s.breadthFirst limit (s.children t.root) ↔ n ≠ t.root ∧ s.Above t.root n := by
    rw [← h.linked.mem_subtree h.grounded hhas, hsubtree, List.mem_cons]
    constructor
    · exact fun hn => ⟨fun e => h.not_nearer_self ht (e ▸ hordered.1 n hn), .inr hn⟩
    · exact fun hn => hn.2.resolve_left hn.1
  have hlevel : ∀ m ∈ s.children t.root,
      s.Has m ∧ s.kind? m ≠ some .document ∧ s.ascend 1 m = some t.root := by
    intro m hm
    have hparent := h.mem_children.mp hm
    exact ⟨has_of_parent? hparent, h.kind?_ne_document hparent, by rw [ascend, hparent]; rfl⟩
  obtain ⟨turns, hturns⟩ := h.exists_searchTurn uri name [] (List.Subset.refl _) rfl hlevel
    (Nat.le_of_eq hsize)
  rw [hfound]
  refine ⟨t, rfl, ht, ⟨turns, hturns⟩, fun n => ?_, hdistinct.filter _, hordered.2.filter _⟩
  rw [List.mem_filter, hmem, isCalled_iff, and_assoc]

/-- Elements are found at two depths below an element, one of them below another one and one behind
a text. -/
theorem finds_nested :
    let s := reach [.tree (.create (.element { qualifier := [], name := "p" }) true 1),
      .tree (.create (.element { qualifier := [], name := "b" }) true 1),
      .tree (.create (.element { qualifier := [], name := "a", uri := some 1 }) true 1),
      .tree (.createText "t"),
      .tree (.create (.element { qualifier := [], name := "a", uri := some 1 }) true 1),
      .tree (.create (.element { qualifier := [], name := "a", uri := some 1 }) true 1),
      .tree (.appendChild 0 (some 1)), .tree (.appendChild 1 (some 2)),
      .tree (.appendChild 0 (some 3)), .tree (.appendChild 0 (some 5)),
      .tree (.appendChild 5 (some 6))]
    s.elementsByName 0 1 "a" = [5, 2, 6] ∧
      ∃ t : Shape, t.root = 0 ∧ s.Shaped t ∧ s.Finds t 1 "a" (s.elementsByName 0 1 "a") :=
  ⟨by decide, (wellFormed_reach _).finds (by decide) 1 "a"⟩

end Store

end Stencil.Tree
