import Stencil.Proofs.Tree.Links

/-!
# Ancestors

The path from a node to its parent, the parent of that and so on. A store is `Grounded` when every
such path ends; together with `Linked` this makes the links those of a forest.

The model follows paths only as far as there are nodes in the store. In a grounded store that is
far enough: a path never visits a node twice. Both of its searches therefore have a description
without a limit, one upwards (`mem_selfAndAncestors`) and one downwards (`mem_subtree`).

## Main definitions

* `Store.ascend` – the node a number of levels above a node
* `Store.Above` – one node is another or an ancestor of it
* `Store.Grounded` – every path upwards ends

## Main results

* `Grounded.graft` – a node may be placed anywhere but below itself
* `mem_selfAndAncestors`, `mem_subtree` – the searches of the model see everything
-/

namespace Stencil.Tree.Store

variable {s s' : Store} {n m p a b : NodeId} {j k : Nat}

/-- The node `k` levels above a node, if there are that many. -/
def ascend (s : Store) : Nat → NodeId → Option NodeId
  | 0, n => some n
  | k + 1, n => (s.parent? n).bind (s.ascend k)

/-- The node `a` is `n` or an ancestor of it. -/
def Above (s : Store) (a n : NodeId) : Prop := ∃ k, s.ascend k n = some a

/-- Every path upwards ends. -/
def Grounded (s : Store) : Prop := ∀ n, ∃ k, s.ascend k n = none

/-! ### Paths -/

theorem ascend_add (j k : Nat) (n : NodeId) :
    s.ascend (j + k) n = (s.ascend j n).bind (s.ascend k) := by
  induction j generalizing n with
  | zero => simp [ascend]
  | succ j ih =>
    rw [Nat.succ_add, ascend, ascend]
    cases s.parent? n with
    | none => rfl
    | some p => exact ih p

theorem ascend_succ (k : Nat) (n : NodeId) :
    s.ascend (k + 1) n = (s.ascend k n).bind s.parent? := by
  rw [ascend_add]
  congr 1
  funext m
  rw [ascend]
  cases s.parent? m <;> rfl

theorem ascend_eq_none_of_le (h : s.ascend j n = none) (hjk : j ≤ k) : s.ascend k n = none := by
  obtain ⟨i, rfl⟩ := Nat.exists_eq_add_of_le hjk
  rw [ascend_add, h]
  rfl

@[simp] theorem Above.refl (n : NodeId) : s.Above n n := ⟨0, rfl⟩

theorem Above.trans (h₁ : s.Above a b) (h₂ : s.Above b n) : s.Above a n := by
  obtain ⟨j, hj⟩ := h₁
  obtain ⟨k, hk⟩ := h₂
  exact ⟨k + j, by rw [ascend_add, hk]; exact hj⟩

theorem Above.of_parent? (h : s.parent? n = some p) : s.Above p n :=
  ⟨1, by rw [ascend, h]; rfl⟩

/-- What is above a node is the node or above its parent. -/
theorem above_iff : s.Above a n ↔ a = n ∨ ∃ p, s.parent? n = some p ∧ s.Above a p := by
  constructor
  · rintro ⟨k, hk⟩
    cases k with
    | zero => exact .inl (by simpa [ascend, eq_comm] using hk)
    | succ k =>
      obtain ⟨p, hp, hk⟩ := Option.bind_eq_some_iff.mp hk
      exact .inr ⟨p, hp, k, hk⟩
  · rintro (rfl | ⟨p, hp, h⟩)
    · exact .refl a
    · exact h.trans (.of_parent? hp)

/-- Only the node itself is below a node without children. -/
theorem Above.eq_of_childless (h : s.Above a n) (ha : ∀ m, s.parent? m ≠ some a) : a = n := by
  obtain ⟨k, hk⟩ := h
  cases k with
  | zero => simpa [ascend, eq_comm] using hk
  | succ k =>
    rw [ascend_succ] at hk
    obtain ⟨m, -, hm⟩ := Option.bind_eq_some_iff.mp hk
    exact absurd hm (ha m)

/-! ### Grounded stores -/

namespace Grounded

/-- No node is its own ancestor. -/
theorem irrefl (h : s.Grounded) (n : NodeId) (k : Nat) : s.ascend (k + 1) n ≠ some n := by
  intro e
  have cycle : ∀ i, s.ascend (i * (k + 1)) n = some n := by
    intro i
    induction i with
    | zero => simp [ascend]
    | succ i ih => rw [Nat.succ_mul, ascend_add, ih, Option.bind_some, e]
  obtain ⟨i, hi⟩ := h n
  have hle : i ≤ i * (k + 1) := Nat.le_mul_of_pos_right i (Nat.succ_pos k)
  simpa [ascend_eq_none_of_le hi hle] using cycle i

theorem antisymm (h : s.Grounded) (h₁ : s.Above a b) (h₂ : s.Above b a) : a = b := by
  obtain ⟨j, hj⟩ := h₁
  obtain ⟨k, hk⟩ := h₂
  cases j with
  | zero => simpa [ascend, eq_comm] using hj
  | succ j =>
    have hcycle : s.ascend (j + 1 + k) b = some b := by rw [ascend_add, hj]; exact hk
    rw [show j + 1 + k = j + k + 1 by omega] at hcycle
    exact absurd hcycle (h.irrefl b _)

theorem not_above_of_parent? (h : s.Grounded) (hp : s.parent? n = some p) : ¬ s.Above n p := by
  rintro ⟨k, hk⟩
  exact h.irrefl n k (by rw [ascend, hp]; exact hk)

end Grounded

/-- A path that does not pass `n` is the same in a store that links every other node as before, or
not at all. -/
theorem ascend_of_ascend (hs : ∀ m q, m ≠ n → s'.parent? m = some q → s.parent? m = some q)
    (hn : ¬ s.Above n m) (h : s'.ascend k m = some a) : s.ascend k m = some a := by
  induction k generalizing m with
  | zero => exact h
  | succ k ih =>
    obtain ⟨q, hq, hk⟩ := Option.bind_eq_some_iff.mp h
    have hm : s.parent? m = some q := hs m q (fun e => hn (e ▸ .refl m)) hq
    rw [ascend, hm]
    exact ih (fun e => hn (e.trans (.of_parent? hm))) hk

theorem Above.of_fewer (hs : ∀ m q, s'.parent? m = some q → s.parent? m = some q)
    (h : s'.Above a m) : s.Above a m := by
  obtain ⟨k, hk⟩ := h
  induction k generalizing m with
  | zero => exact ⟨0, hk⟩
  | succ k ih =>
    obtain ⟨q, hq, hk⟩ := Option.bind_eq_some_iff.mp hk
    exact (ih hk).trans (.of_parent? (hs m q hq))

/-- **Placing a node.** Where every path ends, it still does after one node was given a parent that
is not below it. Other nodes may have lost theirs. -/
theorem Grounded.graft (h : s.Grounded) (hp : ¬ s.Above n p)
    (hs : ∀ m q, m ≠ n → s'.parent? m = some q → s.parent? m = some q)
    (hn : ∀ q, s'.parent? n = some q → q = p) : s'.Grounded := by
  have apart : ∀ m, ¬ s.Above n m → ∃ k, s'.ascend k m = none := by
    intro m hm
    obtain ⟨k, hk⟩ := h m
    refine ⟨k, Option.eq_none_iff_forall_not_mem.mpr fun a ha => ?_⟩
    simpa [hk] using ascend_of_ascend hs hm ha
  have self : ∃ k, s'.ascend k n = none := by
    cases hpar : s'.parent? n with
    | none => exact ⟨1, by rw [ascend, hpar]; rfl⟩
    | some q =>
      obtain ⟨k, hk⟩ := apart p hp
      exact ⟨k + 1, by rw [ascend, hpar, hn q hpar]; exact hk⟩
  -- a path below `n` reaches it, or was cut off on the way
  have below : ∀ k m, s.ascend k m = some n → ∃ k, s'.ascend k m = none := by
    intro k
    induction k with
    | zero =>
      intro m hm
      obtain rfl : m = n := by simpa [ascend] using hm
      exact self
    | succ k ih =>
      intro m hm
      rcases eq_or_ne m n with rfl | hne
      · exact self
      · cases hpar : s'.parent? m with
        | none => exact ⟨1, by rw [ascend, hpar]; rfl⟩
        | some q =>
          rw [ascend, hs m q hne hpar] at hm
          obtain ⟨i, hi⟩ := ih q hm
          exact ⟨i + 1, by rw [ascend, hpar]; exact hi⟩
  intro m
  by_cases hm : s.Above n m
  · obtain ⟨k, hk⟩ := hm
    exact below k m hk
  · exact apart m hm

/-- Taking nodes out of their parents keeps a store grounded. -/
theorem Grounded.of_fewer (h : s.Grounded)
    (hs : ∀ m q, s'.parent? m = some q → s.parent? m = some q) : s'.Grounded := by
  intro m
  obtain ⟨k, hk⟩ := h m
  refine ⟨k, ?_⟩
  induction k generalizing m with
  | zero => simp [ascend] at hk
  | succ k ih =>
    cases hpar : s'.parent? m with
    | none => rw [ascend, hpar]; rfl
    | some q =>
      rw [ascend, hs m q hpar] at hk
      rw [ascend, hpar]
      exact ih q hk

/-! ### The searches of the model -/

theorem mem_pathUp : a ∈ s.pathUp k n ↔ ∃ j < k, s.ascend j n = some a := by
  induction k generalizing n with
  | zero => simp [pathUp]
  | succ k ih =>
    rw [pathUp, List.mem_cons]
    constructor
    · rintro (rfl | h)
      · exact ⟨0, Nat.succ_pos k, rfl⟩
      · cases hp : s.parent? n with
        | none => simp [hp] at h
        | some p =>
          obtain ⟨j, hj, hup⟩ := ih.mp (by simpa [hp] using h)
          exact ⟨j + 1, Nat.succ_lt_succ hj, by rw [ascend, hp]; exact hup⟩
    · rintro ⟨j, hj, hup⟩
      cases j with
      | zero => exact .inl (by simpa [ascend, eq_comm] using hup)
      | succ j =>
        obtain ⟨p, hp, hup⟩ := Option.bind_eq_some_iff.mp hup
        right
        rw [hp]
        exact ih.mpr ⟨j, Nat.lt_of_succ_lt_succ hj, hup⟩

theorem Grounded.nodup_pathUp (h : s.Grounded) : (s.pathUp k n).Nodup := by
  induction k generalizing n with
  | zero => simp [pathUp]
  | succ k ih =>
    rw [pathUp, List.nodup_cons]
    cases hp : s.parent? n with
    | none => simp
    | some p =>
      refine ⟨fun hmem => ?_, ih⟩
      obtain ⟨j, -, hup⟩ := mem_pathUp.mp (show n ∈ s.pathUp k p from hmem)
      exact h.irrefl n j (by rw [ascend, hp]; exact hup)

theorem length_pathUp (h : s.ascend k n = some a) : (s.pathUp (k + 1) n).length = k + 1 := by
  induction k generalizing n with
  | zero => cases hp : s.parent? n <;> simp [pathUp, hp]
  | succ k ih =>
    obtain ⟨p, hp, hk⟩ := Option.bind_eq_some_iff.mp h
    rw [pathUp, hp, List.length_cons]
    exact congrArg (· + 1) (ih hk)

section Bounded

variable {kids : NodeId → List NodeId}

theorem Linked.has_ascend (h : Linked s kids) (hn : s.Has n) (ha : s.ascend k n = some a) :
    s.Has a := by
  cases k with
  | zero =>
    obtain rfl : n = a := by simpa [ascend] using ha
    exact hn
  | succ k =>
    rw [ascend_succ] at ha
    obtain ⟨m, -, hm⟩ := Option.bind_eq_some_iff.mp ha
    exact h.has_parent ((h.parent_iff m a).mp hm)

/-- A path upwards is shorter than the number of nodes. -/
theorem Linked.ascend_lt (h : Linked s kids) (hg : s.Grounded) (hn : s.Has n)
    (ha : s.ascend k n = some a) : k < s.nodes.size := by
  have hsub : s.pathUp (k + 1) n ⊆ List.range s.nodes.size := by
    intro m hm
    obtain ⟨j, -, hj⟩ := mem_pathUp.mp hm
    exact List.mem_range.mpr (h.has_ascend hn hj)
  have hle := (List.subperm_of_subset hg.nodup_pathUp hsub).length_le
  rw [length_pathUp ha, List.length_range] at hle
  exact hle

/-- The search upwards finds every ancestor. -/
theorem Linked.mem_selfAndAncestors (h : Linked s kids) (hg : s.Grounded) (hn : s.Has n) :
    a ∈ s.selfAndAncestors n ↔ s.Above a n := by
  rw [selfAndAncestors, mem_pathUp]
  constructor
  · rintro ⟨k, -, hk⟩
    exact ⟨k, hk⟩
  · rintro ⟨k, hk⟩
    exact ⟨k, h.ascend_lt hg hn hk, hk⟩

theorem Linked.mem_children (h : Linked s kids) : m ∈ s.children p ↔ s.parent? m = some p := by
  rw [h.children_eq, h.parent_iff]

theorem Linked.mem_breadthFirst (h : Linked s kids) {level : List NodeId} :
    m ∈ s.breadthFirst k level ↔ ∃ j < k, ∃ r ∈ level, s.ascend j m = some r := by
  induction k generalizing level with
  | zero => simp [breadthFirst]
  | succ k ih =>
    have unfolded : m ∈ s.breadthFirst (k + 1) level ↔
        m ∈ level ∨ m ∈ s.breadthFirst k (level.flatMap s.children) := by
      cases level with
      | nil => simp [breadthFirst, ih]
      | cons r level => rw [breadthFirst, List.mem_append]; simp
    rw [unfolded, ih]
    constructor
    · rintro (hm | ⟨j, hj, r, hr, hup⟩)
      · exact ⟨0, Nat.succ_pos k, m, hm, rfl⟩
      · obtain ⟨q, hq, hrq⟩ := List.mem_flatMap.mp hr
        refine ⟨j + 1, Nat.succ_lt_succ hj, q, hq, ?_⟩
        rw [ascend_succ, hup]
        exact h.mem_children.mp hrq
    · rintro ⟨j, hj, q, hq, hup⟩
      cases j with
      | zero =>
        obtain rfl : m = q := by simpa [ascend] using hup
        exact .inl hq
      | succ j =>
        rw [ascend_succ] at hup
        obtain ⟨r, hr, hrq⟩ := Option.bind_eq_some_iff.mp hup
        exact .inr ⟨j, Nat.lt_of_succ_lt_succ hj, r,
          List.mem_flatMap.mpr ⟨q, hq, h.mem_children.mpr hrq⟩, hr⟩

/-- The search downwards finds everything below. -/
theorem Linked.mem_subtree (h : Linked s kids) (hg : s.Grounded) (hn : s.Has n) :
    m ∈ s.subtree n ↔ s.Above n m := by
  rw [subtree, h.mem_breadthFirst]
  constructor
  · rintro ⟨k, -, r, hr, hk⟩
    obtain rfl := List.mem_singleton.mp hr
    exact ⟨k, hk⟩
  · rintro ⟨k, hk⟩
    refine ⟨k, ?_, n, List.mem_singleton.mpr rfl, hk⟩
    -- a node below an existing one exists
    cases k with
    | zero => exact Nat.zero_lt_of_lt hn
    | succ i =>
      obtain ⟨p, hp, -⟩ := Option.bind_eq_some_iff.mp hk
      exact h.ascend_lt hg (has_of_parent? hp) hk

end Bounded

/-- The search begins with the node itself. -/
theorem mem_tail_subtree (hm : m ∈ s.subtree n) (hne : m ≠ n) : m ∈ (s.subtree n).tail := by
  rw [subtree] at hm ⊢
  cases hsize : s.nodes.size with
  | zero => simp [hsize, breadthFirst] at hm
  | succ k =>
    rw [hsize, breadthFirst, List.singleton_append] at hm
    case x_2 => simp
    rw [breadthFirst, List.singleton_append, List.tail_cons]
    case x_2 => simp
    exact (List.mem_cons.mp hm).resolve_left hne

end Stencil.Tree.Store
