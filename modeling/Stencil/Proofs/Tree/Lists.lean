import Stencil.Proofs.Data.Action
import Stencil.Proofs.Tree.Consistency
import Stencil.Proofs.Tree.Pruning

/-!
# Operations on children as operations on lists

Whoever uses a tree thinks of the children of a node as a list, and of an operation as a change of
that list. `ActsOnLists` is this view: it says, operation by operation, which list comes out of
which, and mentions links nowhere. An operation that places a node first takes it out of the list it
stands in, which may be the list it goes to. So the place is always described in the old list
*without* that node, where a neighbour of the node, or the node at an end, is nothing special.

All placing operations change the store in two steps, `detach` and then one of three ways to attach.
What they do to lists is `Put`, and `Put.of_update` derives it for all of them.

## Main definitions

* `Store.Put` – a node was put into the list of a container
* `Store.ActsOnLists` – what each operation does, on plain lists

## Main results

* `WellFormed.actsOnLists` – the operations do this in a well-formed store
* `actsOnLists_run` – hence in every state that is reached
-/

namespace Stencil.Tree.Store

variable {s s' : Store} {n m p q c r d : NodeId} {l l₁ l₂ : List NodeId}
  {child ref dst : Option NodeId} {index : Int}

/-! ### The lists -/

/-- The node `c` was put into the list of `p`, which is now `l`. The former parent of `c`, if that
is another node, lost exactly `c`; no other list changed. -/
structure Put (s s' : Store) (p c : NodeId) (l : List NodeId) : Prop where
  /-- The list of the new parent. -/
  target : s'.children p = l
  /-- The list of the former parent. -/
  former (q : NodeId) : q ≠ p → s.parent? c = some q → s'.children q = (s.children q).erase c
  /-- All other lists. -/
  others (q : NodeId) : q ≠ p → s.parent? c ≠ some q → s'.children q = s.children q

/-- What the operations on children do to the lists of children. Every argument is such that the
call can be made: the receiver is a container and the nodes that are named exist. -/
structure ActsOnLists (s : Store) : Prop where
  /-- The node is the last one, and does not stand where it was. -/
  appendChild (p : NodeId) (child : Option NodeId) (s' : Store) :
    s.isContainer p → (∀ c ∈ child, s.Has c) → s.appendChild p child = .ok s' →
      ∃ c ∈ child, s.Put s' p c ((s.children p).erase c ++ [c])
  /-- Without a reference the node is the last one. -/
  insertLast (p : NodeId) (child : Option NodeId) (s' : Store) :
    s.isContainer p → (∀ c ∈ child, s.Has c) → s.insertBefore p child none = .ok s' →
      ∃ c ∈ child, s.Put s' p c ((s.children p).erase c ++ [c])
  /-- The node stands directly in front of the reference, which may have been its neighbour. -/
  insertBefore (p : NodeId) (child : Option NodeId) (r : NodeId) (s' : Store) :
    s.isContainer p → (∀ c ∈ child, s.Has c) → s.insertBefore p child (some r) = .ok s' →
      ∃ c ∈ child, (c = r → s' = s) ∧ (c ≠ r → ∃ l₁ l₂ : List NodeId,
        (s.children p).erase c = l₁ ++ r :: l₂ ∧ s.Put s' p c (l₁ ++ c :: r :: l₂))
  /-- The node stands where the reference stood, and the reference nowhere. -/
  replaceChild (p : NodeId) (child ref : Option NodeId) (s' : Store) :
    s.isContainer p → (∀ c ∈ child, s.Has c) → s.replaceChild p child ref = .ok s' →
      ∃ c ∈ child, ∃ r ∈ ref, (c = r → s' = s) ∧ (c ≠ r → s'.isDetached r ∧
        ∃ l₁ l₂ : List NodeId, (s.children p).erase c = l₁ ++ r :: l₂ ∧
          s.Put s' p c (l₁ ++ c :: l₂))
  /-- The node is gone, and nothing else. -/
  removeChild (p : NodeId) (child : Option NodeId) (s' : Store) :
    s.removeChild p child = .ok s' →
      ∃ c ∈ child, c ∈ s.children p ∧ s'.children p = (s.children p).erase c ∧ s'.isDetached c ∧
        ∀ q, q ≠ p → s'.children q = s.children q
  /-- All children are given, in order, and nothing is left. -/
  removeChildren (p : NodeId) (cs : List NodeId) (s' : Store) :
    s.isContainer p → s.removeChildren p = (cs, s') →
      cs = s.children p ∧ s'.children p = [] ∧ (∀ c ∈ cs, s'.isDetached c) ∧
        ∀ q, q ≠ p → s'.children q = s.children q
  /-- The list of one container becomes that of another, which had none. -/
  moveChildren (p : NodeId) (dst : Option NodeId) (s' : Store) :
    s.isContainer p → (∀ d ∈ dst, s.isContainer d) → s.moveChildren p dst = .ok s' →
      ∃ d ∈ dst, s.children d = [] ∧ s'.children d = s.children p ∧ s'.children p = [] ∧
        ∀ q, q ≠ p → q ≠ d → s'.children q = s.children q
  /-- A position means the node that stands there before anything moves. -/
  insertAt (p : NodeId) (child : Option NodeId) (index : Int) (s' : Store) :
    s.insertAt p child index = .ok s' → ∃ r, 0 ≤ index ∧ (s.children p)[index.toNat]? = some r ∧
      s.insertBefore p child (some r) = .ok s'
  /-- A position means the node that stands there before anything moves. -/
  replaceAt (p : NodeId) (child : Option NodeId) (index : Int) (s' : Store) :
    s.replaceAt p child index = .ok s' → ∃ r, 0 ≤ index ∧ (s.children p)[index.toNat]? = some r ∧
      s.replaceChild p child (some r) = .ok s'
  /-- A position means the node that stands there before anything moves. -/
  removeAt (p : NodeId) (index : Int) (s' : Store) :
    s.removeAt p index = .ok s' → ∃ c, 0 ≤ index ∧ (s.children p)[index.toNat]? = some c ∧
      s.removeChild p (some c) = .ok s'

/-! ### Taking a node out -/

/-- Every list loses the node, if it has it. -/
theorem WellFormed.children_detach_eq_erase (h : s.WellFormed) :
    (s.detach c).children q = (s.children q).erase c := by
  rw [h.children_detach, (h.linked.nodup q).erase_eq_filter]
  refine List.filter_congr fun m _ => ?_
  simp [bne, BEq.beq]

/-- A list that does not have the node does not change. -/
theorem WellFormed.erase_children_of_parent?_ne (h : s.WellFormed) (hc : s.parent? c ≠ some q) :
    (s.children q).erase c = s.children q :=
  List.erase_of_not_mem fun hmem => hc (h.mem_children.mp hmem)

theorem WellFormed.isDetached_of_parent? (h : s.WellFormed) (hn : s.parent? n = none) :
    s.isDetached n := by
  obtain ⟨hprevious, hnext⟩ := h.linked.alone n hn
  simp [isDetached, hn, hprevious, hnext]

theorem isDetached_relink_alone : (s.relink n Links.alone).isDetached n := by
  by_cases hn : s.Has n
  · simp [isDetached, parent?, next?, previous?, links_relink hn, Links.alone]
  · simp [isDetached, parent?, next?, previous?, links_of_not_has fun e => hn (has_relink.mp e)]

theorem isDetached_attachInstead : (s.attachInstead p c r).isDetached r := isDetached_relink_alone

/-- The reference still stands in the list when the node to be placed is taken out. -/
theorem WellFormed.exists_split_erase (h : s.WellFormed) (hr : s.parent? r = some p) (hcr : c ≠ r) :
    ∃ l₁ l₂, (s.detach c).children p = l₁ ++ r :: l₂ := by
  refine (h.detach c).exists_split ?_
  rw [h.parent?_detach, if_neg (Ne.symm hcr)]
  exact hr

/-! ### Placing a node -/

/-- **Placing.** Attaching a node that was taken out changes one list only. -/
theorem Put.of_update (h : s.WellFormed)
    (hs' : s'.children = Function.update (s.detach c).children p l) : s.Put s' p c l where
  target := by rw [hs', Function.update_self]
  former q hq _ := by rw [hs', Function.update_of_ne hq, h.children_detach_eq_erase]
  others q hq hc := by
    rw [hs', Function.update_of_ne hq, h.children_detach_eq_erase,
      h.erase_children_of_parent?_ne hc]

/-- What is known of a node that passed the check and was taken out. -/
theorem WellFormed.linked_detach (h : s.WellFormed) (hfit : s.Fits p c) (hup : ¬ s.Above c p) :
    Linked (s.detach c) (s.detach c).children ∧ (s.detach c).Has c ∧ (s.detach c).Has p ∧
      (s.detach c).parent? c = none := by
  obtain ⟨hfit', -, hfree⟩ := h.ready hfit hup
  exact ⟨(h.detach c).linked, hfit'.has_child, hfit'.has_parent, hfree⟩

theorem WellFormed.put_attachLast (h : s.WellFormed) (hfit : s.Fits p c) (hup : ¬ s.Above c p) :
    s.Put ((s.detach c).attachLast p c) p c ((s.children p).erase c ++ [c]) := by
  obtain ⟨hlinked, hhas, hhasp, hfree⟩ := h.linked_detach hfit hup
  refine .of_update h ?_
  rw [(hlinked.attachLast hhas hhasp hfree).children_eq, h.children_detach_eq_erase]

theorem WellFormed.put_attachBefore (h : s.WellFormed) (hfit : s.Fits p c) (hup : ¬ s.Above c p)
    (hr : s.parent? r = some p) (hcr : c ≠ r) : ∃ l₁ l₂ : List NodeId,
      (s.children p).erase c = l₁ ++ r :: l₂ ∧
        s.Put ((s.detach c).attachBefore p c r) p c (l₁ ++ c :: r :: l₂) := by
  obtain ⟨hlinked, hhas, -, hfree⟩ := h.linked_detach hfit hup
  obtain ⟨l₁, l₂, hsplit⟩ := h.exists_split_erase hr hcr
  refine ⟨l₁, l₂, ?_, .of_update h (hlinked.attachBefore hhas hfree hsplit).children_eq⟩
  rw [← h.children_detach_eq_erase, hsplit]

theorem WellFormed.put_attachInstead (h : s.WellFormed) (hfit : s.Fits p c) (hup : ¬ s.Above c p)
    (hr : s.parent? r = some p) (hcr : c ≠ r) : ∃ l₁ l₂ : List NodeId,
      (s.children p).erase c = l₁ ++ r :: l₂ ∧
        s.Put ((s.detach c).attachInstead p c r) p c (l₁ ++ c :: l₂) := by
  obtain ⟨hlinked, hhas, -, hfree⟩ := h.linked_detach hfit hup
  obtain ⟨l₁, l₂, hsplit⟩ := h.exists_split_erase hr hcr
  refine ⟨l₁, l₂, ?_, .of_update h (hlinked.attachInstead hhas hfree hsplit).children_eq⟩
  rw [← h.children_detach_eq_erase, hsplit]

theorem appendChild_ok (hok : s.appendChild p child = .ok s') :
    ∃ c, s.checkChild p child none = .ok c ∧ s' = (s.detach c).attachLast p c := by
  obtain ⟨c, hcheck, hok⟩ := exists_of_bind_ok hok
  exact ⟨c, hcheck, (Except.ok.inj hok).symm⟩

/-- The reference is a child. If it is the node itself, that stays where it is. -/
theorem insertBefore_ok (hok : s.insertBefore p child (some r) = .ok s') : s.parent? r = some p ∧
    (child = some r ∧ s' = s ∨ ∃ c, c ≠ r ∧ s.checkChild p child none = .ok c ∧
      s' = (s.detach c).attachBefore p c r) := by
  rw [Store.insertBefore] at hok
  split_ifs at hok with hr hself
  · exact ⟨not_not.mp hr, .inl ⟨hself, (Except.ok.inj hok).symm⟩⟩
  · obtain ⟨c, hcheck, hdone⟩ := exists_of_bind_ok hok
    obtain ⟨rfl, -⟩ := WellFormed.checkChild_cases hcheck
    exact ⟨not_not.mp hr, .inr ⟨c, fun e => hself (congrArg some e), hcheck,
      (Except.ok.inj hdone).symm⟩⟩

/-- The reference is a child. If it is the node itself, that stays where it is. -/
theorem replaceChild_ok (hok : s.replaceChild p child ref = .ok s') : ∃ c ∈ child, ∃ r ∈ ref,
    s.parent? r = some p ∧ (c = r ∧ s' = s ∨ c ≠ r ∧ s.checkChild p child ref = .ok c ∧
      s' = (s.detach c).attachInstead p c r) := by
  unfold Store.replaceChild at hok
  split at hok
  · rename_i c r
    split_ifs at hok with hr hself
    · exact ⟨c, rfl, r, rfl, not_not.mp hr, .inl ⟨hself, (Except.ok.inj hok).symm⟩⟩
    · obtain ⟨d, hcheck, hok⟩ := exists_of_bind_ok hok
      obtain ⟨hd, -⟩ := WellFormed.checkChild_cases hcheck
      obtain rfl := Option.some.inj hd
      exact ⟨c, rfl, r, rfl, not_not.mp hr, .inr ⟨hself, hcheck, (Except.ok.inj hok).symm⟩⟩
  · cases hok

theorem WellFormed.put_appendChild (h : s.WellFormed) (hp : s.isContainer p)
    (hc : ∀ c ∈ child, s.Has c) (hok : s.appendChild p child = .ok s') :
    ∃ c ∈ child, s.Put s' p c ((s.children p).erase c ++ [c]) := by
  obtain ⟨c, hcheck, rfl⟩ := appendChild_ok hok
  obtain ⟨rfl, hfit, hup⟩ := h.checkChild_ok hp hc hcheck
  exact ⟨c, rfl, h.put_attachLast hfit hup⟩

theorem WellFormed.put_insertBefore (h : s.WellFormed) (hp : s.isContainer p)
    (hc : ∀ c ∈ child, s.Has c) (hok : s.insertBefore p child (some r) = .ok s') :
    ∃ c ∈ child, (c = r → s' = s) ∧ (c ≠ r → ∃ l₁ l₂ : List NodeId,
      (s.children p).erase c = l₁ ++ r :: l₂ ∧ s.Put s' p c (l₁ ++ c :: r :: l₂)) := by
  obtain ⟨hr, ⟨hself, rfl⟩ | ⟨c, hcr, hcheck, rfl⟩⟩ := insertBefore_ok hok
  · exact ⟨r, hself, fun _ => rfl, fun hne => absurd rfl hne⟩
  · obtain ⟨rfl, hfit, hup⟩ := h.checkChild_ok hp hc hcheck
    exact ⟨c, rfl, fun e => absurd e hcr, fun _ => h.put_attachBefore hfit hup hr hcr⟩

theorem WellFormed.put_replaceChild (h : s.WellFormed) (hp : s.isContainer p)
    (hc : ∀ c ∈ child, s.Has c) (hok : s.replaceChild p child ref = .ok s') :
    ∃ c ∈ child, ∃ r ∈ ref, (c = r → s' = s) ∧ (c ≠ r → s'.isDetached r ∧
      ∃ l₁ l₂ : List NodeId, (s.children p).erase c = l₁ ++ r :: l₂ ∧
        s.Put s' p c (l₁ ++ c :: l₂)) := by
  obtain ⟨c, hcc, r, hrr, hr, ⟨hself, rfl⟩ | ⟨hcr, hcheck, rfl⟩⟩ := replaceChild_ok hok
  · exact ⟨c, hcc, r, hrr, fun _ => rfl, fun hne => absurd hself hne⟩
  · obtain ⟨-, hfit, hup⟩ := h.checkChild_ok hp hc hcheck
    exact ⟨c, hcc, r, hrr, fun e => absurd e hcr, fun _ =>
      ⟨isDetached_attachInstead, h.put_attachInstead hfit hup hr hcr⟩⟩

/-! ### The other operations -/

theorem WellFormed.lists_removeChild (h : s.WellFormed) (hok : s.removeChild p child = .ok s') :
    ∃ c ∈ child, c ∈ s.children p ∧ s'.children p = (s.children p).erase c ∧ s'.isDetached c ∧
      ∀ q, q ≠ p → s'.children q = s.children q := by
  cases child with
  | none => cases hok
  | some c =>
    rw [Store.removeChild] at hok
    split_ifs at hok with hparent
    obtain rfl := Except.ok.inj hok
    have hparent : s.parent? c = some p := not_not.mp hparent
    have hfree : (s.detach c).parent? c = none := by rw [h.parent?_detach, if_pos rfl]
    refine ⟨c, rfl, h.mem_children.mpr hparent, h.children_detach_eq_erase,
      (h.detach c).isDetached_of_parent? hfree, fun q hq => ?_⟩
    have hother : s.parent? c ≠ some q := by
      rw [hparent]
      exact fun e => hq (Option.some.inj e).symm
    rw [h.children_detach_eq_erase, h.erase_children_of_parent?_ne hother]

theorem has_removeChildren : (s.removeChildren p).2.Has n ↔ s.Has n :=
  has_relink.trans has_foldl_alone

theorem WellFormed.lists_removeChildren (h : s.WellFormed) (hp : s.isContainer p) :
    (s.removeChildren p).2.children p = [] ∧
      (∀ c ∈ s.children p, (s.removeChildren p).2.isDetached c) ∧
        ∀ q, q ≠ p → (s.removeChildren p).2.children q = s.children q := by
  have hhas := has_of_isContainer hp
  have hnew := h.linked_removeChildren hhas
  refine ⟨?_, fun c hc => ?_, fun q hq => ?_⟩
  · rw [hnew.children_eq, Function.update_self]
  · refine (h.removeChildren hhas).isDetached_of_parent? ?_
    rw [h.parent?_removeChildren hhas, if_pos (h.mem_children.mp hc)]
  · rw [hnew.children_eq, Function.update_of_ne hq]

/-- Attaching detached nodes one by one appends them in order. -/
theorem Linked.attachAll {kids : NodeId → List NodeId} {cs : List NodeId} (h : Linked s kids)
    (nd : cs.Nodup) (hd : s.Has d) (hcs : ∀ c ∈ cs, s.Has c ∧ s.parent? c = none) :
    Linked (cs.foldl (fun s c => s.attachLast d c) s) (Function.update kids d (kids d ++ cs)) := by
  induction cs generalizing s kids with
  | nil => simpa using h
  | cons c cs ih =>
    obtain ⟨hc, nd⟩ := List.nodup_cons.mp nd
    obtain ⟨hhas, hfree⟩ := hcs c (by simp)
    have hstep := h.attachLast hhas hd hfree
    have hrest : ∀ e ∈ cs, (s.attachLast d c).Has e ∧ (s.attachLast d c).parent? e = none := by
      intro e he
      obtain ⟨hhas', hfree'⟩ := hcs e (by simp [he])
      refine ⟨has_of_loose loose_attachLast hhas', ?_⟩
      have hec : e ≠ c := fun eq => hc (eq ▸ he)
      refine Option.eq_none_iff_forall_ne_some.mpr fun q hq => ?_
      have hmem := (hstep.parent_iff e q).mp hq
      have hout : ∀ q, e ∉ kids q := fun q => h.not_mem_of_parent? hfree'
      rcases eq_or_ne q d with rfl | hqd
      · simp [hout, hec] at hmem
      · simp [hqd, hout] at hmem
    have hall := ih hstep nd (has_of_loose loose_attachLast hd) hrest
    simpa using hall

theorem WellFormed.children_eq_nil (h : s.WellFormed) (hd : ¬ s.hasChildren d) :
    s.children d = [] := by
  rw [← List.length_eq_zero_iff, ← h.linked.count d]
  simpa [hasChildren] using hd

/-- Moving children checks that the destination is empty; then there is nothing to move, or the
children are taken out and attached to it one by one. Not more than one of them is an element if the
destination asks for that. -/
theorem moveChildren_ok (h : s.moveChildren p dst = .ok s') :
    ∃ d ∈ dst, ¬ s.hasChildren d ∧ (p = d ∧ s' = s ∨
      p ≠ d ∧ (s.hasSingleRoot d → (s.children p).countP s.isElement ≤ 1) ∧
        s' = (s.children p).foldl (fun s c => s.attachLast d c) (s.removeChildren p).2) := by
  cases dst with
  | none => cases h
  | some d =>
    rw [Store.moveChildren] at h
    split_ifs at h with hempty hself hroots
    · exact ⟨d, rfl, hempty, .inl ⟨hself, (Except.ok.inj h).symm⟩⟩
    · obtain ⟨-, -, h⟩ := exists_of_bind_ok h
      cases h
    · obtain ⟨-, -, h⟩ := exists_of_bind_ok h
      refine ⟨d, rfl, hempty, .inr ⟨hself, fun hd => ?_, (Except.ok.inj h).symm⟩⟩
      simpa [hd] using hroots

/-- **Moving children.** The list of one node becomes that of another, which had none. -/
theorem WellFormed.children_moveAll (h : s.WellFormed) (hp : s.isContainer p) (hd : s.Has d)
    (hpd : p ≠ d) (hnil : s.children d = []) :
    ((s.children p).foldl (fun s c => s.attachLast d c) (s.removeChildren p).2).children =
      Function.update (Function.update s.children p []) d (s.children p) := by
  have hhas := has_of_isContainer hp
  have hready : ∀ c ∈ s.children p,
      (s.removeChildren p).2.Has c ∧ (s.removeChildren p).2.parent? c = none := by
    intro c hc
    have hcp := h.mem_children.mp hc
    refine ⟨has_removeChildren.mpr (has_of_parent? hcp), ?_⟩
    rw [h.parent?_removeChildren hhas, if_pos hcp]
  have hnew := (h.linked_removeChildren hhas).attachAll (h.linked.nodup p)
    (has_removeChildren.mpr hd) hready
  rw [hnew.children_eq, Function.update_of_ne (Ne.symm hpd), hnil, List.nil_append]

theorem WellFormed.lists_moveChildren (h : s.WellFormed) (hp : s.isContainer p)
    (hd : ∀ d ∈ dst, s.isContainer d) (hok : s.moveChildren p dst = .ok s') :
    ∃ d ∈ dst, s.children d = [] ∧ s'.children d = s.children p ∧ s'.children p = [] ∧
      ∀ q, q ≠ p → q ≠ d → s'.children q = s.children q := by
  obtain ⟨d, hdst, hempty, hcases⟩ := moveChildren_ok hok
  have hnil := h.children_eq_nil hempty
  refine ⟨d, hdst, hnil, ?_⟩
  rcases hcases with ⟨rfl, rfl⟩ | ⟨hpd, -, rfl⟩
  · exact ⟨rfl, hnil, fun q _ _ => rfl⟩
  · rw [h.children_moveAll hp (has_of_isContainer (hd d hdst)) hpd hnil]
    refine ⟨Function.update_self .., ?_, fun q hqp hqd => ?_⟩
    · rw [Function.update_of_ne hpd, Function.update_self]
    · rw [Function.update_of_ne hqd, Function.update_of_ne hqp]

/-- A position that is found is that of a child. -/
theorem childAt_ok {op : ChildOperation} (h : s.childAt p index op = .ok c) :
    0 ≤ index ∧ (s.children p)[index.toNat]? = some c := by
  rw [childAt] at h
  split at h
  · rename_i hfound
    split_ifs at hfound with hneg
    obtain rfl := Except.ok.inj h
    exact ⟨not_lt.mp hneg, hfound⟩
  · cases h

/-! ### All operations -/

theorem WellFormed.actsOnLists (h : s.WellFormed) : s.ActsOnLists where
  appendChild _ _ _ hp hc hok := h.put_appendChild hp hc hok
  insertLast _ _ _ hp hc hok := h.put_appendChild hp hc hok
  insertBefore _ _ _ _ hp hc hok := h.put_insertBefore hp hc hok
  replaceChild _ _ _ _ hp hc hok := h.put_replaceChild hp hc hok
  removeChild _ _ _ hok := h.lists_removeChild hok
  removeChildren p cs s' hp hok := by
    obtain ⟨rfl, rfl⟩ := Prod.mk.inj hok
    exact ⟨rfl, h.lists_removeChildren hp⟩
  moveChildren _ _ _ hp hd hok := h.lists_moveChildren hp hd hok
  insertAt p child index s' hok := by
    obtain ⟨r, hr, hok⟩ := exists_of_bind_ok hok
    exact ⟨r, (childAt_ok hr).1, (childAt_ok hr).2, hok⟩
  replaceAt p child index s' hok := by
    obtain ⟨r, hr, hok⟩ := exists_of_bind_ok hok
    exact ⟨r, (childAt_ok hr).1, (childAt_ok hr).2, hok⟩
  removeAt p index s' hok := by
    obtain ⟨c, hc, hok⟩ := exists_of_bind_ok hok
    exact ⟨c, (childAt_ok hc).1, (childAt_ok hc).2, hok⟩

/-- **Linked children are plain lists.** In every state that any calls lead to, an operation on
children that succeeds does to the lists of children what it says, and nothing else. -/
theorem actsOnLists_run (ops : List Operation) : (run ops).ActsOnLists :=
  (wellFormed_run ops).actsOnLists

/-- A node takes the place of its right neighbour, and is put in front of its left one. -/
example :
    let s := run [.createText "a", .createText "b", .createText "c",
      .create (.element { qualifier := [], name := "p" }) true 1,
      .appendChild 6 (some 0), .appendChild 6 (some 2), .appendChild 6 (some 4)]
    s.children 6 = [0, 2, 4] ∧
      (s.replaceChild 6 (some 2) (some 4)).toOption.map (·.children 6) = some [0, 2] ∧
      (s.insertAt 6 (some 2) 0).toOption.map (·.children 6) = some [2, 0, 4] := by
  decide

end Stencil.Tree.Store
