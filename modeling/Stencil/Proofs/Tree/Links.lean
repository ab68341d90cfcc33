import Mathlib.Data.List.Nodup
import Mathlib.Data.List.Perm.Subperm
import Mathlib.Logic.Function.Basic
import Stencil.Tree.Subtree

/-!
# Linked lists of children

The children of a node are a list linked in both directions, with its ends and its length noted at
the node. `Linked` says that all of these links agree with one list per node; everything else about
children is said about those lists.

Each of the four elementary changes (`detach`, `attachLast`, `attachBefore`, `attachInstead`) writes
to at most five nodes, and some of these may coincide. What it does is stated twice. The lemmas
`links_detach` and so on give the links of every node afterwards; they follow the writes and know
nothing about lists. `Linked.detach` and so on say which list is replaced by which. All four are
cases of `Linked.splice`: a stretch in the middle of one list is replaced by another stretch, and
only the two nodes next to it see the difference.

## Main results

* `Linked.children_eq` – the lists are those that the model itself reads off the links
* `Linked.detach`, `Linked.attachLast`, `Linked.attachBefore`, `Linked.attachInstead`,
  `Linked.removeChildren` – the changes as changes of lists
-/

namespace Stencil.Tree.Store

variable {s s' : Store} {n m p r : NodeId}

/-! ### Existing nodes -/

/-- The store has a node with the given identifier. -/
def Has (s : Store) (n : NodeId) : Prop := n < s.nodes.size

instance : DecidablePred s.Has := fun n => inferInstanceAs (Decidable (n < s.nodes.size))

theorem get?_eq_none_iff : s.get? n = none ↔ ¬ s.Has n := by simp [get?, Has]

theorem Has.exists_get? (h : s.Has n) : ∃ node, s.get? n = some node :=
  Option.ne_none_iff_exists'.mp fun e => get?_eq_none_iff.mp e h

theorem links_of_not_has (h : ¬ s.Has n) : s.links n = {} := by
  simp [links, get?_eq_none_iff.mpr h]

/-- Only existing nodes have a parent. -/
theorem has_of_parent? (h : s.parent? n = some p) : s.Has n := by
  by_contra hn
  simp [parent?, links_of_not_has hn] at h

@[simp] theorem has_relink {f : Links → Links} : (s.relink n f).Has m ↔ s.Has m := by
  simp [Has, relink, modify]

theorem links_relink (h : s.Has n) (f : Links → Links) :
    (s.relink n f).links = Function.update s.links n (f (s.links n)) := by
  funext m
  obtain ⟨node, hn⟩ := h.exists_get?
  by_cases e : n = m
  · subst e
    simp [links, relink, hn]
  · simp [links, relink, e, Function.update_of_ne (Ne.symm e)]

/-! ### The links after one change

The nodes that are written to may coincide: the neighbour in front of a node can be the one behind
another, and nothing is assumed here about how lists hang together. That is why these are proved by
running through the writes. -/

theorem links_detach (hp : s.parent? n = some p) (hasn : s.Has n) (hasp : s.Has p)
    (hprev : ∀ b, s.previous? n = some b → s.Has b) (hnext : ∀ b, s.next? n = some b → s.Has b)
    (m : NodeId) :
    (s.detach n).links m =
      { parent := if m = n then none else s.parent? m
        previous := if m = n then none
          else if s.next? n = some m then s.previous? n else s.previous? m
        next := if m = n then none
          else if s.previous? n = some m then s.next? n else s.next? m
        first := if m = p ∧ s.firstChild? p = some n then s.next? n else s.firstChild? m
        last := if m = p ∧ s.lastChild? p = some n then s.previous? n else s.lastChild? m
        count := if m = p then s.childCount m - 1 else s.childCount m } := by
  unfold detach
  simp only [show (s.links n).parent = some p from hp,
    show (s.links n).previous = s.previous? n from rfl, show (s.links n).next = s.next? n from rfl]
  generalize s.previous? n = b at *
  generalize s.next? n = c at *
  cases b <;> cases c <;> apply Links.ext <;>
    simp only [parent?, previous?, next?, firstChild?, lastChild?, childCount, relink?,
      links_relink, has_relink, hasn, hasp, hprev, hnext, Function.update_apply, Links.alone] <;>
    grind

theorem links_attachLast (hasn : s.Has n) (hasp : s.Has p)
    (hlast : ∀ b, s.lastChild? p = some b → s.Has b) (hne : s.lastChild? p ≠ some n)
    (m : NodeId) :
    (s.attachLast p n).links m =
      { parent := if m = n then some p else s.parent? m
        previous := if m = n then s.lastChild? p else s.previous? m
        next := if s.lastChild? p = some m then some n else s.next? m
        first := if m = p ∧ s.lastChild? p = none then some n else s.firstChild? m
        last := if m = p then some n else s.lastChild? m
        count := if m = p then s.childCount m + 1 else s.childCount m } := by
  unfold attachLast
  generalize s.lastChild? p = b at *
  cases b <;> apply Links.ext <;>
    simp only [parent?, previous?, next?, firstChild?, lastChild?, childCount, relink?,
      links_relink, has_relink, hasn, hasp, hlast, Function.update_apply] <;>
    grind

theorem links_attachBefore (hasn : s.Has n) (hasp : s.Has p) (hasr : s.Has r)
    (hprev : ∀ b, s.previous? r = some b → s.Has b) (hne : n ≠ r) (hpr : s.previous? r ≠ some n)
    (m : NodeId) :
    (s.attachBefore p n r).links m =
      { parent := if m = n then some p else s.parent? m
        previous := if m = n then s.previous? r else if m = r then some n else s.previous? m
        next := if m = n then some r else if s.previous? r = some m then some n else s.next? m
        first := if m = p ∧ s.previous? r = none then some n else s.firstChild? m
        last := s.lastChild? m
        count := if m = p then s.childCount m + 1 else s.childCount m } := by
  unfold attachBefore
  generalize s.previous? r = b at *
  cases b <;> apply Links.ext <;>
    simp only [parent?, previous?, next?, firstChild?, lastChild?, childCount, relink?,
      links_relink, has_relink, hasn, hasp, hasr, hprev, Function.update_apply] <;>
    grind

theorem links_attachInstead (hasn : s.Has n) (hasp : s.Has p) (hasr : s.Has r)
    (hprev : ∀ b, s.previous? r = some b → s.Has b) (hnext : ∀ b, s.next? r = some b → s.Has b)
    (hne : n ≠ r) (hpr : s.previous? r ≠ some n) (hnr : s.next? r ≠ some n) (m : NodeId) :
    (s.attachInstead p n r).links m =
      { parent := if m = r then none else if m = n then some p else s.parent? m
        previous := if m = r then none else if m = n then s.previous? r
          else if s.next? r = some m then some n else s.previous? m
        next := if m = r then none else if m = n then s.next? r
          else if s.previous? r = some m then some n else s.next? m
        first := if m = p ∧ s.previous? r = none then some n else s.firstChild? m
        last := if m = p ∧ s.next? r = none then some n else s.lastChild? m
        count := s.childCount m } := by
  unfold attachInstead
  simp only [show (s.links r).previous = s.previous? r from rfl,
    show (s.links r).next = s.next? r from rfl]
  generalize s.previous? r = b at *
  generalize s.next? r = c at *
  cases b <;> cases c <;> apply Links.ext <;>
    simp only [parent?, previous?, next?, firstChild?, lastChild?, childCount, relink?,
      links_relink, has_relink, hasn, hasp, hasr, hprev, hnext, Function.update_apply,
      Links.alone] <;>
    grind

/-! ### Rows -/

/-- The nodes of the list are linked to each other in both directions, and the ends of the list to
the given nodes. -/
def Row (s : Store) : Option NodeId → List NodeId → Option NodeId → Prop
  | _, [], _ => True
  | before, n :: l, after =>
    s.previous? n = before ∧ s.next? n = l.head?.or after ∧ s.Row (some n) l after

section Row

variable {before before' after after' : Option NodeId} {l l₁ l₂ : List NodeId}

theorem row_append : s.Row before (l₁ ++ l₂) after ↔
    s.Row before l₁ (l₂.head?.or after) ∧ s.Row (l₁.getLast?.or before) l₂ after := by
  induction l₁ generalizing before with
  | nil => simp [Row]
  | cons n l ih =>
    have hlast : ((n :: l).getLast?.or before) = l.getLast?.or (some n) := by
      cases l <;> simp [List.getLast?_cons]
    simp only [List.cons_append, Row, ih, hlast, List.head?_append, Option.or_assoc, and_assoc]

theorem Row.congr (h : s.Row before l after) (hp : ∀ n ∈ l, s'.previous? n = s.previous? n)
    (hn : ∀ n ∈ l, s'.next? n = s.next? n) : s'.Row before l after := by
  induction l generalizing before with
  | nil => trivial
  | cons n l ih =>
    obtain ⟨h₁, h₂, h₃⟩ := h
    refine ⟨by rw [hp n (by simp), h₁], by rw [hn n (by simp), h₂], ih h₃ ?_ ?_⟩
    · exact fun m hm => hp m (by simp [hm])
    · exact fun m hm => hn m (by simp [hm])

/-- The last node of a row gets another successor. -/
theorem Row.setAfter (h : s.Row before l after) (nd : l.Nodup)
    (hp : ∀ n ∈ l, s'.previous? n = s.previous? n)
    (hn : ∀ n ∈ l, s'.next? n = if l.getLast? = some n then after' else s.next? n) :
    s'.Row before l after' := by
  induction l generalizing before with
  | nil => trivial
  | cons n l ih =>
    obtain ⟨h₁, h₂, h₃⟩ := h
    obtain ⟨hnl, nd⟩ := List.nodup_cons.mp nd
    cases l with
    | nil => exact ⟨by rw [hp n (by simp), h₁], by simpa using hn n, trivial⟩
    | cons m l =>
      have hlast : (m :: l).getLast? ≠ some n := fun e => hnl (List.mem_of_getLast? e)
      refine ⟨by rw [hp n (by simp), h₁], ?_, ih h₃ nd ?_ ?_⟩
      · rw [hn n (by simp), List.getLast?_cons_cons, if_neg hlast, h₂]
        rfl
      · exact fun k hk => hp k (by simp [hk])
      · intro k hk
        rw [hn k (List.mem_cons_of_mem _ hk), List.getLast?_cons_cons]

/-- The first node of a row gets another predecessor. -/
theorem Row.setBefore (h : s.Row before l after) (nd : l.Nodup)
    (hp : ∀ n ∈ l, s'.previous? n = if l.head? = some n then before' else s.previous? n)
    (hn : ∀ n ∈ l, s'.next? n = s.next? n) : s'.Row before' l after := by
  cases l with
  | nil => trivial
  | cons n l =>
    obtain ⟨-, h₂, h₃⟩ := h
    obtain ⟨hnl, -⟩ := List.nodup_cons.mp nd
    refine ⟨by simpa using hp n (by simp), by rw [hn n (by simp), h₂], h₃.congr ?_ ?_⟩
    · intro m hm
      have : n ≠ m := fun e => hnl (e ▸ hm)
      simpa [this] using hp m (by simp [hm])
    · exact fun m hm => hn m (by simp [hm])

/-- Following the links from the first node of a row gives the row, and ends. -/
theorem Row.nextChain_eq (h : s.Row before l none) {limit : Nat} (hl : l.length ≤ limit) :
    s.nextChain limit l.head? = l := by
  induction l generalizing before limit with
  | nil => cases limit <;> rfl
  | cons n l ih =>
    obtain ⟨-, h₂, h₃⟩ := h
    cases limit with
    | zero => simp at hl
    | succ limit =>
      rw [Option.or_none] at h₂
      rw [List.head?_cons, nextChain, h₂, ih h₃ (by simpa using hl)]

end Row

/-! ### Lists of children -/

/-- The links of the store say that the children of each node are those in its list. -/
structure Linked (s : Store) (kids : NodeId → List NodeId) : Prop where
  /-- No node is listed twice. -/
  nodup (p : NodeId) : (kids p).Nodup
  /-- The children know their parent, and no other node claims it. -/
  parent_iff (n p : NodeId) : s.parent? n = some p ↔ n ∈ kids p
  /-- The parent knows its first child. -/
  first (p : NodeId) : s.firstChild? p = (kids p).head?
  /-- The parent knows its last child. -/
  last (p : NodeId) : s.lastChild? p = (kids p).getLast?
  /-- The parent knows how many they are. -/
  count (p : NodeId) : s.childCount p = (kids p).length
  /-- The children know their neighbours. -/
  row (p : NodeId) : s.Row none (kids p) none
  /-- Nodes without a parent have no neighbours. -/
  alone (n : NodeId) : s.parent? n = none → s.previous? n = none ∧ s.next? n = none

variable {kids : NodeId → List NodeId} {l l₁ l₂ mid mid' : List NodeId}

namespace Linked

theorem has (h : Linked s kids) (hn : n ∈ kids p) : s.Has n :=
  has_of_parent? ((h.parent_iff n p).mpr hn)

theorem has_parent (h : Linked s kids) (hn : n ∈ kids p) : s.Has p := by
  by_contra hc
  have hcount := h.count p
  simp only [childCount, links_of_not_has hc] at hcount
  rw [List.eq_nil_of_length_eq_zero hcount.symm] at hn
  cases hn

theorem eq_parent (h : Linked s kids) {q : NodeId} (hp : n ∈ kids p) (hq : n ∈ kids q) :
    p = q := by
  have := ((h.parent_iff n p).mpr hp).symm.trans ((h.parent_iff n q).mpr hq)
  simpa using this

/-- The neighbours of a child are those in the list. -/
theorem neighbours (h : Linked s kids) (hk : kids p = l₁ ++ n :: l₂) :
    s.previous? n = l₁.getLast? ∧ s.next? n = l₂.head? := by
  have row := h.row p
  rw [hk, row_append] at row
  obtain ⟨-, h₁, h₂, -⟩ := row
  exact ⟨by simpa using h₁, by simpa using h₂⟩

theorem length_le (h : Linked s kids) (p : NodeId) : (kids p).length ≤ s.nodes.size := by
  have hsub : kids p ⊆ List.range s.nodes.size := fun n hn => List.mem_range.mpr (h.has hn)
  simpa using (List.subperm_of_subset (h.nodup p) hsub).length_le

/-- The lists are those that following the links gives. -/
theorem children_eq (h : Linked s kids) : s.children = kids := by
  funext p
  rw [children, h.first p]
  exact (h.row p).nextChain_eq (h.length_le p)

theorem congr (h : Linked s kids) (hl : ∀ n, s'.links n = s.links n) : Linked s' kids where
  nodup := h.nodup
  parent_iff n p := by rw [← h.parent_iff, parent?, hl, ← parent?]
  first p := by rw [← h.first, firstChild?, hl, ← firstChild?]
  last p := by rw [← h.last, lastChild?, hl, ← lastChild?]
  count p := by rw [← h.count, childCount, hl, ← childCount]
  row p := (h.row p).congr (fun n _ => by rw [previous?, hl, ← previous?])
    (fun n _ => by rw [next?, hl, ← next?])
  alone n hn := by
    rw [parent?, hl, ← parent?] at hn
    rw [previous?, next?, hl]
    exact h.alone n hn

/-- Replacing the list of one node: those that leave end up alone, those that come were alone, and
nothing changes elsewhere. -/
theorem update (h : Linked s kids) (nd : l.Nodup)
    (free : ∀ n ∈ l, n ∈ kids p ∨ s.parent? n = none)
    (inside : ∀ n ∈ l, s'.parent? n = some p) (row : s'.Row none l none)
    (out : ∀ n ∈ kids p, n ∉ l →
      s'.parent? n = none ∧ s'.previous? n = none ∧ s'.next? n = none)
    (same : ∀ n, n ∉ kids p → n ∉ l → s'.parent? n = s.parent? n ∧
      s'.previous? n = s.previous? n ∧ s'.next? n = s.next? n)
    (ends : s'.firstChild? p = l.head? ∧ s'.lastChild? p = l.getLast? ∧ s'.childCount p = l.length)
    (others : ∀ q, q ≠ p → s'.firstChild? q = s.firstChild? q ∧ s'.lastChild? q = s.lastChild? q ∧
      s'.childCount q = s.childCount q) :
    Linked s' (Function.update kids p l) := by
  have away : ∀ q, q ≠ p → ∀ n ∈ kids q, n ∉ kids p ∧ n ∉ l := by
    intro q hq n hn
    have hnp : n ∉ kids p := fun e => hq (h.eq_parent hn e)
    refine ⟨hnp, fun e => ?_⟩
    have hpar := (h.parent_iff n q).mpr hn
    rw [(free n e).resolve_left hnp] at hpar
    cases hpar
  constructor
  case nodup =>
    intro q
    rcases eq_or_ne q p with rfl | hq
    · simpa using nd
    · simpa [hq] using h.nodup q
  case parent_iff =>
    intro n q
    by_cases hl : n ∈ l
    · rw [inside n hl]
      rcases eq_or_ne q p with rfl | hq
      · simp [hl]
      · simpa [hq, hq.symm] using fun e => (away q hq n e).2 hl
    · by_cases hk : n ∈ kids p
      · rw [(out n hk hl).1]
        rcases eq_or_ne q p with rfl | hq
        · simp [hl]
        · simpa [hq] using fun e => (away q hq n e).1 hk
      · rw [(same n hk hl).1, h.parent_iff]
        rcases eq_or_ne q p with rfl | hq
        · simp [hl, hk]
        · simp [hq]
  case first =>
    intro q
    rcases eq_or_ne q p with rfl | hq
    · simpa using ends.1
    · simpa [hq, (others q hq).1] using h.first q
  case last =>
    intro q
    rcases eq_or_ne q p with rfl | hq
    · simpa using ends.2.1
    · simpa [hq, (others q hq).2.1] using h.last q
  case count =>
    intro q
    rcases eq_or_ne q p with rfl | hq
    · simpa using ends.2.2
    · simpa [hq, (others q hq).2.2] using h.count q
  case row =>
    intro q
    rcases eq_or_ne q p with rfl | hq
    · simpa using row
    · rw [Function.update_of_ne hq]
      refine (h.row q).congr ?_ ?_
      · exact fun n hn => (same n (away q hq n hn).1 (away q hq n hn).2).2.1
      · exact fun n hn => (same n (away q hq n hn).1 (away q hq n hn).2).2.2
  case alone =>
    intro n hn
    by_cases hl : n ∈ l
    · rw [inside n hl] at hn
      cases hn
    · by_cases hk : n ∈ kids p
      · exact (out n hk hl).2
      · obtain ⟨h₁, h₂, h₃⟩ := same n hk hl
        rw [h₂, h₃]
        exact h.alone n (h₁ ▸ hn)

/-- **Replacing a stretch.** The stretch `mid` of a list of children is replaced by `mid'`. Of the
nodes that stay only the two next to it get another neighbour. -/
theorem splice (h : Linked s kids) (hk : kids p = l₁ ++ mid ++ l₂) (nd : mid'.Nodup)
    (free : ∀ n ∈ mid', s.parent? n = none) (come : ∀ n ∈ mid', s'.parent? n = some p)
    (row : s'.Row l₁.getLast? mid' l₂.head?)
    (gone : ∀ n ∈ mid, s'.parent? n = none ∧ s'.previous? n = none ∧ s'.next? n = none)
    (keep : ∀ n, n ∉ mid → n ∉ mid' → s'.parent? n = s.parent? n ∧
      s'.previous? n = (if l₂.head? = some n then (l₁ ++ mid').getLast? else s.previous? n) ∧
      s'.next? n = (if l₁.getLast? = some n then (mid' ++ l₂).head? else s.next? n))
    (ends : s'.firstChild? p = (l₁ ++ mid' ++ l₂).head? ∧
      s'.lastChild? p = (l₁ ++ mid' ++ l₂).getLast? ∧
      s'.childCount p = (l₁ ++ mid' ++ l₂).length)
    (others : ∀ q, q ≠ p → s'.firstChild? q = s.firstChild? q ∧ s'.lastChild? q = s.lastChild? q ∧
      s'.childCount q = s.childCount q) :
    Linked s' (Function.update kids p (l₁ ++ mid' ++ l₂)) := by
  have hmem : ∀ n, n ∈ kids p ↔ n ∈ l₁ ∨ n ∈ mid ∨ n ∈ l₂ := by simp [hk]
  have hnew : ∀ n ∈ mid', n ∉ kids p := by
    intro n hn e
    have hpar := (h.parent_iff n p).mpr e
    rw [free n hn] at hpar
    cases hpar
  have ndk := h.nodup p
  have rows := h.row p
  rw [hk] at ndk rows
  obtain ⟨nd₁, nd₂, d₂⟩ := List.nodup_append'.mp ndk
  obtain ⟨nd₁, -, d₁⟩ := List.nodup_append'.mp nd₁
  rw [List.disjoint_append_left] at d₂
  obtain ⟨rows, row₂⟩ := row_append.mp rows
  obtain ⟨row₁, -⟩ := row_append.mp rows
  -- the nodes that stay, in front of the stretch and behind it
  have stay₁ : ∀ n ∈ l₁, n ∉ mid ∧ n ∉ mid' ∧ l₂.head? ≠ some n := fun n hn =>
    ⟨d₁ hn, fun e => hnew n e ((hmem n).mpr (.inl hn)), fun e => d₂.1 hn (List.mem_of_head? e)⟩
  have stay₂ : ∀ n ∈ l₂, n ∉ mid ∧ n ∉ mid' ∧ l₁.getLast? ≠ some n := fun n hn =>
    ⟨fun e => d₂.2 e hn, fun e => hnew n e ((hmem n).mpr (.inr (.inr hn))),
      fun e => d₂.1 (List.mem_of_getLast? e) hn⟩
  apply h.update
  case nd =>
    refine List.nodup_append'.mpr ⟨List.nodup_append'.mpr ⟨nd₁, nd, ?_⟩, nd₂, ?_⟩
    · exact fun n hn e => (stay₁ n hn).2.1 e
    · rw [List.disjoint_append_left]
      exact ⟨d₂.1, fun n hn e => (stay₂ n e).2.1 hn⟩
  case free =>
    intro n hn
    simp only [List.mem_append] at hn
    rcases hn with (hn | hn) | hn
    · exact .inl ((hmem n).mpr (.inl hn))
    · exact .inr (free n hn)
    · exact .inl ((hmem n).mpr (.inr (.inr hn)))
  case inside =>
    intro n hn
    simp only [List.mem_append] at hn
    rcases hn with (hn | hn) | hn
    · rw [(keep n (stay₁ n hn).1 (stay₁ n hn).2.1).1]
      exact (h.parent_iff n p).mpr ((hmem n).mpr (.inl hn))
    · exact come n hn
    · rw [(keep n (stay₂ n hn).1 (stay₂ n hn).2.1).1]
      exact (h.parent_iff n p).mpr ((hmem n).mpr (.inr (.inr hn)))
  case row =>
    simp only [row_append, Option.or_none, ← List.head?_append]
    refine ⟨⟨row₁.setAfter nd₁ ?_ ?_, row⟩, row₂.setBefore nd₂ ?_ ?_⟩
    · intro n hn
      obtain ⟨h₁, h₂, h₃⟩ := stay₁ n hn
      rw [(keep n h₁ h₂).2.1, if_neg h₃]
    · exact fun n hn => (keep n (stay₁ n hn).1 (stay₁ n hn).2.1).2.2
    · exact fun n hn => (keep n (stay₂ n hn).1 (stay₂ n hn).2.1).2.1
    · intro n hn
      obtain ⟨h₁, h₂, h₃⟩ := stay₂ n hn
      rw [(keep n h₁ h₂).2.2, if_neg h₃]
  case out =>
    intro n hn hout
    simp only [List.mem_append, not_or] at hout
    rcases (hmem n).mp hn with e | e | e
    · exact absurd e hout.1.1
    · exact gone n e
    · exact absurd e hout.2
  case same =>
    intro n hn hout
    simp only [hmem, not_or] at hn
    simp only [List.mem_append, not_or] at hout
    have hl : l₁.getLast? ≠ some n := fun e => hn.1 (List.mem_of_getLast? e)
    have hh : l₂.head? ≠ some n := fun e => hn.2.2 (List.mem_of_head? e)
    simpa [hl, hh] using keep n hn.2.1 hout.1.2
  case ends => exact ends
  case others => exact others

/-! ### The elementary changes -/

theorem has_getLast? (h : Linked s kids) (hl : ∀ m ∈ l, m ∈ kids p) :
    ∀ b, l.getLast? = some b → s.Has b :=
  fun b hb => h.has (hl b (List.mem_of_getLast? hb))

theorem has_head? (h : Linked s kids) (hl : ∀ m ∈ l, m ∈ kids p) :
    ∀ b, l.head? = some b → s.Has b :=
  fun b hb => h.has (hl b (List.mem_of_head? hb))

theorem not_mem_of_parent? (h : Linked s kids) (hn : s.parent? n = none) : n ∉ kids p :=
  fun e => by simpa [hn] using (h.parent_iff n p).mpr e

/-- Taking out a child. -/
theorem detach (h : Linked s kids) (hk : kids p = l₁ ++ n :: l₂) :
    Linked (s.detach n) (Function.update kids p (l₁ ++ l₂)) := by
  have hn : n ∈ kids p := by simp [hk]
  obtain ⟨hprev, hnext⟩ := h.neighbours hk
  have links := links_detach ((h.parent_iff n p).mpr hn) (h.has hn) (h.has_parent hn)
    (hprev ▸ h.has_getLast? (p := p) fun m hm => by simp [hk, hm])
    (hnext ▸ h.has_head? (p := p) fun m hm => by simp [hk, hm])
  rw [hprev, hnext, h.first, h.last, hk] at links
  have hnl : n ∉ l₁ ++ l₂ := (List.nodup_cons.mp (List.nodup_middle.mp (hk ▸ h.nodup p))).1
  rw [List.mem_append, not_or] at hnl
  have hcount := h.count p
  rw [hk] at hcount
  rw [← List.append_nil l₁]
  apply h.splice (show kids p = l₁ ++ [n] ++ l₂ by simpa using hk) List.nodup_nil
  case free | come => exact fun _ hm => absurd hm List.not_mem_nil
  case row => trivial
  case gone =>
    intro m hm
    simp [parent?, previous?, next?, links, List.mem_singleton.mp hm]
  case keep =>
    intro m hm _
    have hmn : m ≠ n := fun e => hm (by simp [e])
    simp [parent?, previous?, next?, links, hmn]
  case ends =>
    refine ⟨?_, ?_, ?_⟩
    · cases l₁ with
      | nil => simp [firstChild?, links]
      | cons a l =>
        have ha : a ≠ n := fun e => hnl.1 (by simp [e])
        simp [firstChild?, links, ha, hk, show (s.links p).first = _ from h.first p]
    · rcases List.eq_nil_or_concat l₂ with rfl | ⟨l, a, rfl⟩
      · simp [lastChild?, links]
      · have ha : a ≠ n := fun e => hnl.2 (by simp [e])
        simp [lastChild?, links, ha, hk, show (s.links p).last = _ from h.last p,
          List.getLast?_append, List.getLast?_cons]
    · simp [childCount, links, show (s.links p).count = _ from hcount]
  case others =>
    intro q hq
    simp [firstChild?, lastChild?, childCount, links, hq]

/-- Adding a detached node at the end. -/
theorem attachLast (h : Linked s kids) (hn : s.Has n) (hp : s.Has p) (hfree : s.parent? n = none) :
    Linked (s.attachLast p n) (Function.update kids p (kids p ++ [n])) := by
  have hnk : n ∉ kids p := h.not_mem_of_parent? hfree
  have hlast : (kids p).getLast? ≠ some n := fun e => hnk (List.mem_of_getLast? e)
  have links := links_attachLast hn hp (h.last p ▸ h.has_getLast? (p := p) fun _ hm => hm)
    (h.last p ▸ hlast)
  rw [h.last] at links
  rw [← List.append_nil (kids p ++ [n])]
  apply h.splice (show kids p = kids p ++ [] ++ [] by simp) (List.nodup_singleton n)
  case free => simpa using hfree
  case come => simp [parent?, links]
  case row =>
    simp [Row, previous?, next?, links, hlast, show (s.links n).next = _ from (h.alone n hfree).2]
  case gone => exact fun _ hm => absurd hm List.not_mem_nil
  case keep =>
    intro m _ hm
    have hmn : m ≠ n := fun e => hm (by simp [e])
    simp [parent?, previous?, next?, links, hmn]
  case ends =>
    refine ⟨?_, ?_, ?_⟩
    · cases hk : kids p with
      | nil => simp [firstChild?, links, hk]
      | cons a l => simp [firstChild?, links, hk, show (s.links p).first = _ from h.first p]
    · simp [lastChild?, links]
    · simp [childCount, links, show (s.links p).count = _ from h.count p]
  case others =>
    intro q hq
    simp [firstChild?, lastChild?, childCount, links, hq]

/-- Adding a detached node in front of a child. -/
theorem attachBefore (h : Linked s kids) (hn : s.Has n) (hfree : s.parent? n = none)
    (hk : kids p = l₁ ++ r :: l₂) :
    Linked (s.attachBefore p n r) (Function.update kids p (l₁ ++ n :: r :: l₂)) := by
  have hr : r ∈ kids p := by simp [hk]
  have hnk : n ∉ kids p := h.not_mem_of_parent? hfree
  obtain ⟨hprev, -⟩ := h.neighbours hk
  have hnr : n ≠ r := fun e => hnk (e ▸ hr)
  have hlast : l₁.getLast? ≠ some n := fun e => hnk (by simp [hk, List.mem_of_getLast? e])
  have links := links_attachBefore hn (h.has_parent hr) (h.has hr)
    (hprev ▸ h.has_getLast? (p := p) fun m hm => by simp [hk, hm]) hnr (hprev ▸ hlast)
  rw [hprev] at links
  have hfirst := h.first p
  have hlst := h.last p
  have hcount := h.count p
  rw [hk] at hfirst hlst hcount
  rw [show l₁ ++ n :: r :: l₂ = l₁ ++ [n] ++ r :: l₂ by simp]
  apply h.splice (show kids p = l₁ ++ [] ++ r :: l₂ by simpa using hk) (List.nodup_singleton n)
  case free => simpa using hfree
  case come => simp [parent?, links]
  case row => simp [Row, previous?, next?, links]
  case gone => exact fun _ hm => absurd hm List.not_mem_nil
  case keep =>
    intro m _ hm
    have hmn : m ≠ n := fun e => hm (by simp [e])
    simp [parent?, previous?, next?, links, hmn, eq_comm (a := r)]
  case ends =>
    refine ⟨?_, ?_, ?_⟩
    · cases l₁ with
      | nil => simp [firstChild?, links]
      | cons a l => simp [firstChild?, links, show (s.links p).first = _ from hfirst]
    · simp [lastChild?, links, show (s.links p).last = _ from hlst, List.getLast?_append,
        List.getLast?_cons]
    · simp [childCount, links, show (s.links p).count = _ from hcount, Nat.add_assoc]
  case others =>
    intro q hq
    simp [firstChild?, lastChild?, childCount, links, hq]

/-- Putting a detached node in the place of a child. -/
theorem attachInstead (h : Linked s kids) (hn : s.Has n) (hfree : s.parent? n = none)
    (hk : kids p = l₁ ++ r :: l₂) :
    Linked (s.attachInstead p n r) (Function.update kids p (l₁ ++ n :: l₂)) := by
  have hr : r ∈ kids p := by simp [hk]
  have hnk : n ∉ kids p := h.not_mem_of_parent? hfree
  obtain ⟨hprev, hnext⟩ := h.neighbours hk
  have hnr : n ≠ r := fun e => hnk (e ▸ hr)
  have hlast : l₁.getLast? ≠ some n := fun e => hnk (by simp [hk, List.mem_of_getLast? e])
  have hhead : l₂.head? ≠ some n := fun e => hnk (by simp [hk, List.mem_of_head? e])
  have links := links_attachInstead hn (h.has_parent hr) (h.has hr)
    (hprev ▸ h.has_getLast? (p := p) fun m hm => by simp [hk, hm])
    (hnext ▸ h.has_head? (p := p) fun m hm => by simp [hk, hm]) hnr (hprev ▸ hlast) (hnext ▸ hhead)
  rw [hprev, hnext] at links
  have hfirst := h.first p
  have hlst := h.last p
  have hcount := h.count p
  rw [hk] at hfirst hlst hcount
  rw [show l₁ ++ n :: l₂ = l₁ ++ [n] ++ l₂ by simp]
  apply h.splice (show kids p = l₁ ++ [r] ++ l₂ by simpa using hk) (List.nodup_singleton n)
  case free => simpa using hfree
  case come => simp [parent?, links, hnr]
  case row => simp [Row, previous?, next?, links, hnr]
  case gone =>
    intro m hm
    simp [parent?, previous?, next?, links, List.mem_singleton.mp hm]
  case keep =>
    intro m hm hm'
    have hmr : m ≠ r := fun e => hm (by simp [e])
    have hmn : m ≠ n := fun e => hm' (by simp [e])
    simp [parent?, previous?, next?, links, hmn, hmr]
  case ends =>
    refine ⟨?_, ?_, ?_⟩
    · cases l₁ with
      | nil => simp [firstChild?, links]
      | cons a l => simp [firstChild?, links, show (s.links p).first = _ from hfirst]
    · rcases List.eq_nil_or_concat l₂ with rfl | ⟨l, a, rfl⟩
      · simp [lastChild?, links]
      · simp [lastChild?, links, show (s.links p).last = _ from hlst, List.getLast?_append,
          List.getLast?_cons]
    · simp [childCount, links, show (s.links p).count = _ from hcount]
  case others =>
    intro q hq
    simp [firstChild?, lastChild?, childCount, links, hq]

end Linked

/-! ### All children at once -/

theorem has_foldl_alone : (l.foldl (fun s c => s.relink c Links.alone) s).Has m ↔ s.Has m := by
  induction l generalizing s with
  | nil => rfl
  | cons c l ih => rw [List.foldl_cons, ih, has_relink]

theorem links_foldl_alone (hl : ∀ c ∈ l, s.Has c) (m : NodeId) :
    (l.foldl (fun s c => s.relink c Links.alone) s).links m =
      if m ∈ l then (s.links m).alone else s.links m := by
  induction l generalizing s with
  | nil => simp
  | cons c l ih =>
    rw [List.foldl_cons, ih fun d hd => has_relink.mpr (hl d (by simp [hd])),
      links_relink (hl c (by simp))]
    by_cases hmc : m = c
    · subst hmc
      simp [Links.alone]
    · simp [hmc]

/-- Taking out all children. -/
theorem Linked.removeChildren (h : Linked s kids) (hp : s.Has p) :
    Linked (s.removeChildren p).2 (Function.update kids p []) := by
  have links : ∀ m, (s.removeChildren p).2.links m =
      { parent := if m ∈ kids p then none else s.parent? m
        previous := if m ∈ kids p then none else s.previous? m
        next := if m ∈ kids p then none else s.next? m
        first := if m = p then none else s.firstChild? m
        last := if m = p then none else s.lastChild? m
        count := if m = p then 0 else s.childCount m } := by
    intro m
    rw [Store.removeChildren, h.children_eq]
    simp only [links_relink (has_foldl_alone.mpr hp), Function.update_apply,
      links_foldl_alone fun c hc => h.has hc]
    apply Links.ext <;>
      simp only [Links.alone, Links.childless, parent?, previous?, next?, firstChild?, lastChild?,
        childCount] <;> split_ifs <;> simp_all
  apply h.update List.nodup_nil
  case free | inside => exact fun _ hm => absurd hm List.not_mem_nil
  case row => trivial
  case out =>
    intro m hm _
    simp [parent?, previous?, next?, links, hm]
  case same =>
    intro m hm _
    simp [parent?, previous?, next?, links, hm]
  case ends => simp [firstChild?, lastChild?, childCount, links]
  case others =>
    intro q hq
    simp [firstChild?, lastChild?, childCount, links, hq]

end Stencil.Tree.Store
