import Stencil.Proofs.Tree.Copies

/-!
# Taking subtrees out

A node that is taken out and disposed of leaves the rest of the store as it was, except that its
parent has one child less. Taking out several nodes, one after the other, leaves a tree without
their subtrees; it does not matter whether one of them stands below another and went with it.

## Main definitions

* `Store.discard` – taking out a node that has a parent, and disposing of it
* `Store.Without` – some subtrees were taken out

## Main results

* `WellFormed.discard`, `WellFormed.discardAll` – what is seen at the nodes that are left
* `Without.holds` – the content of a tree without some subtrees
-/

namespace Stencil.Tree.Store

variable {s s' : Store} {n m e a p : NodeId} {l : List NodeId}

@[simp] theorem loose_detach : (s.detach n).loose m = s.loose m := by
  rw [detach]
  dsimp only
  split <;> simp

theorem detach_of_alone (h : s.parent? e = none) : s.detach e = s := by
  rw [detach, show (s.links e).parent = none from h]

/-- The children of a node after a node was taken out. -/
theorem WellFormed.children_detach (h : s.WellFormed) :
    (s.detach e).children n = (s.children n).filter fun c => !decide (c = e) := by
  have hwithout : ∀ l : List NodeId, e ∉ l → l.filter (fun c => !decide (c = e)) = l := by
    refine fun l he => List.filter_eq_self.mpr fun c hc => ?_
    have hce : c ≠ e := by
      rintro rfl
      exact he hc
    simp [hce]
  have hother : s.parent? e ≠ some n →
      (s.children n).filter (fun c => !decide (c = e)) = s.children n :=
    fun hne => hwithout _ fun he => hne (h.mem_children.mp he)
  cases hp : s.parent? e with
  | none => rw [detach_of_alone hp, hother (by simp [hp])]
  | some p =>
    obtain ⟨l₁, l₂, hl⟩ := h.exists_split hp
    rw [(h.linked.detach hl).children_eq, Function.update_apply]
    split
    · rename_i hnp
      have hnodup : (l₁ ++ e :: l₂).Nodup := hl ▸ h.linked.nodup p
      have he : e ∉ l₁ ++ l₂ := (List.nodup_cons.mp (List.nodup_middle.mp hnodup)).1
      have hmiddle : (l₁ ++ e :: l₂).filter (fun c => !decide (c = e)) =
          (l₁ ++ l₂).filter fun c => !decide (c = e) := by simp
      rw [hnp, hl, hmiddle, hwithout _ he]
    · rename_i hnp
      rw [hother (by rw [hp]; exact fun e => hnp (Option.some.inj e).symm)]

/-! ### Disposal -/

theorem get?_foldl_of_not_mem {f : Store → NodeId → Store}
    (hf : ∀ s k, m ≠ k → (f s k).get? m = s.get? m) (hm : m ∉ l) :
    (l.foldl f s).get? m = s.get? m := by
  induction l generalizing s with
  | nil => rfl
  | cons k l ih =>
    rw [List.foldl_cons, ih (List.not_mem_of_not_mem_cons hm), hf s k (List.ne_of_not_mem_cons hm)]

/-- Clearing a node writes to it and to its attributes. -/
theorem get?_clearNode (hmn : m ≠ n) (hattr : m ∉ s.attributes n) :
    (s.clearNode n).get? m = s.get? m := by
  have hdoc : ∀ t : Store, (t.modifyDocument n fun d => { d with extras := [] }).get? m =
      t.get? m := by
    intro t
    rw [modifyDocument]
    split
    · rw [setPayload, get?_modify, if_neg (Ne.symm hmn)]
    · rfl
  have hattr' : m ∉ (s.relink n fun l => l.alone.childless).attributes n := by
    rwa [attributes_congr payload?_relink]
  rw [clearNode, hdoc, discardAttributes, get?_modifyElement_of_ne hmn,
    get?_foldl_of_not_mem (fun t k hmk => ?_) hattr', get?_relink_of_ne hmn]
  rw [setValue, get?_modifyAttr_of_ne hmk, disown, get?_modifyAttr_of_ne hmk]

theorem get?_foldl_clearNode (hm : m ∉ l) (hattr : ∀ n ∈ l, m ∉ s.attributes n) :
    (l.foldl clearNode s).get? m = s.get? m := by
  induction l generalizing s with
  | nil => rfl
  | cons n l ih =>
    rw [List.foldl_cons, ih (List.not_mem_of_not_mem_cons hm) fun k hk => ?_,
      get?_clearNode (List.ne_of_not_mem_cons hm) (hattr n (by simp))]
    rw [attributes_clearNode]
    split
    · exact List.not_mem_nil
    · exact hattr k (by simp [hk])

/-- Attributes have no place among children. -/
theorem WellFormed.parent?_of_attr (h : s.WellFormed) (ha : s.kind? a = some .attr) :
    s.parent? a = none := by
  cases hp : s.parent? a with
  | none => rfl
  | some p =>
    obtain ⟨k, l, -, hl, hkl⟩ := h.fits a p hp
    rw [ha] at hl
    obtain rfl := Option.some.inj hl
    cases k <;> cases hkl

theorem WellFormed.parent?_of_dispose (h : s.WellFormed) (hn : s.Has n) {q : NodeId}
    (hq : (s.dispose n).parent? m = some q) : s.parent? m = some q := by
  have hw := h.detach n
  have hn' : (s.detach n).Has n := has_of_loose loose_detach hn
  have hhas : ∀ k ∈ (s.detach n).subtree n, (s.detach n).Has k := by
    intro k hk
    rcases above_iff.mp ((hw.linked.mem_subtree hw.grounded hn').mp hk) with rfl | ⟨q, hq, -⟩
    · exact hn'
    · exact has_of_parent? hq
  refine h.parent?_of_detach (n := n) ?_
  rw [Store.dispose, parent?, (foldl_clearNode hhas).1] at hq
  split at hq
  · cases hq
  · exact hq

/-- Disposing of a node without parent leaves nothing below any node of its tree. -/
theorem WellFormed.children_dispose (h : s.WellFormed) (he : s.Has e) (halone : s.parent? e = none)
    (hn : s.Above e n) : (s.dispose e).children n = [] := by
  have hmem := fun m => h.linked.mem_subtree (m := m) h.grounded he
  have hhas : ∀ m ∈ s.subtree e, s.Has m := by
    intro m hm
    rcases above_iff.mp ((hmem m).mp hm) with rfl | ⟨q, hq, -⟩
    · exact he
    · exact has_of_parent? hq
  refine List.eq_nil_iff_forall_not_mem.mpr fun c hc => ?_
  rw [(h.dispose he).mem_children] at hc
  have hcn := h.parent?_of_dispose he hc
  rw [Store.dispose, detach_of_alone halone, parent?, (foldl_clearNode hhas).1,
    if_pos ((hmem c).mpr (hn.trans (.of_parent? hcn)))] at hc
  cases hc

/-- Disposing of a node without parent writes to its subtree and to the attributes of that. -/
theorem WellFormed.get?_dispose (h : s.WellFormed) (he : s.Has e) (halone : s.parent? e = none)
    (hn : ¬ s.Above e n) (hattr : ∀ k, s.Above e k → n ∉ s.attributes k) :
    (s.dispose e).get? n = s.get? n := by
  have hmem := fun m => h.linked.mem_subtree (m := m) h.grounded he
  rw [Store.dispose, detach_of_alone halone]
  exact get?_foldl_clearNode (fun hin => hn ((hmem n).mp hin)) fun k hk => hattr k ((hmem k).mp hk)

/-- Disposing of a node without parent leaves the children of all nodes outside of its tree. -/
theorem WellFormed.children_dispose_of_not_above (h : s.WellFormed) (he : s.Has e)
    (halone : s.parent? e = none) (hn : ¬ s.Above e n) :
    (s.dispose e).children n = s.children n := by
  have hmem := fun m => h.linked.mem_subtree (m := m) h.grounded he
  have hhas : ∀ m ∈ s.subtree e, s.Has m := by
    intro m hm
    rcases above_iff.mp ((hmem m).mp hm) with rfl | ⟨q, hq, -⟩
    · exact he
    · exact has_of_parent? hq
  obtain ⟨hlinks, hkept⟩ := foldl_clearNode hhas
  rw [Store.dispose, detach_of_alone halone]
  refine h.children_congr (fun m hm => ?_) ?_ fun c hc => ?_
  · obtain ⟨k, hk⟩ := hm.exists_kind?
    exact has_of_kind? (hkept m k hk)
  · rw [hlinks, if_neg fun hin => hn ((hmem n).mp hin)]
  · rw [hlinks, if_neg fun hin => ?_]
    rcases above_iff.mp ((hmem c).mp hin) with rfl | ⟨q, hq, hup⟩
    · rw [h.mem_children, halone] at hc
      cases hc
    · rw [h.mem_children, hq] at hc
      exact hn (Option.some.inj hc ▸ hup)

/-- Disposing of a node without parent writes to nothing outside of its subtree. -/
theorem WellFormed.dispose_view (h : s.WellFormed) (ho : s.Owned) (he : s.Has e)
    (halone : s.parent? e = none) (hn : ¬ s.Above e n) (hke : s.kind? e ≠ some .attr)
    (hkn : s.kind? n ≠ some .attr) :
    (s.dispose e).view n = s.view n := by
  have hself : (s.dispose e).get? n = s.get? n :=
    h.get?_dispose he halone hn fun k _ hin => hkn (ho.kind k n hin)
  have hattrs : (s.dispose e).attributes n = s.attributes n :=
    attributes_congr (payload?_congr hself)
  refine view_congr (loose_congr hself) hattrs (fun a ha => loose_congr ?_)
    (h.children_dispose_of_not_above he halone hn)
  refine h.get?_dispose he halone (fun hup => ?_) fun k hk hin => ?_
  · rcases above_iff.mp hup with rfl | ⟨q, hq, -⟩
    · exact hke (ho.kind n e ha)
    · rw [h.parent?_of_attr (ho.kind n a ha)] at hq
      cases hq
  · exact hn (ho.unique n k a ha hin ▸ hk)

/-! ### Taking out nodes -/

/-- Takes out a node that has a parent, and disposes of it. -/
def discard (s : Store) (e : NodeId) : Store :=
  if (s.parent? e).isSome then (s.detach e).dispose e else s

/-- What is left when certain nodes were taken out, and went with everything below them. -/
structure Without (l : List NodeId) (s s' : Store) : Prop where
  wellFormed : s'.WellFormed
  owned : s'.Owned
  /-- No node changes its tag. -/
  tag? (n : NodeId) (tag : NodeKind × Option Int × Text) : s.tag? n = some tag →
    s'.tag? n = some tag
  /-- No node gets another attribute. -/
  attributes (n : NodeId) : s'.attributes n ⊆ s.attributes n
  /-- No node gets another parent. -/
  parent? (n q : NodeId) : s'.parent? n = some q → s.parent? n = some q
  /-- The nodes that are left have lost the children that were taken out. -/
  view (n : NodeId) : s.Has n → (∀ e ∈ l, ¬ s.Above e n) → s.kind? n ≠ some .attr →
    s'.view n = (s.view n).without fun c => decide (c ∈ l)

namespace Without

variable {l' : List NodeId} {s'' : Store}

theorem refl (h : s.WellFormed) (ho : s.Owned) : Without [] s s where
  wellFormed := h
  owned := ho
  tag? _ _ ht := ht
  attributes _ _ ha := ha
  parent? _ _ hq := hq
  view n _ _ _ := by simp [View.without]

theorem kind? (h : Without l s s') {k : NodeKind} (hk : s.kind? n = some k) :
    s'.kind? n = some k := by
  rw [kind?_eq_map_tag?] at hk ⊢
  obtain ⟨tag, htag, rfl⟩ := Option.map_eq_some_iff.mp hk
  rw [h.tag? n tag htag]
  rfl

theorem has (h : Without l s s') (hn : s.Has n) : s'.Has n := by
  obtain ⟨k, hk⟩ := hn.exists_kind?
  exact has_of_kind? (h.kind? hk)

theorem not_above (h : Without l s s') (hn : ¬ s.Above e n) : ¬ s'.Above e n :=
  fun hup => hn (hup.of_fewer h.parent?)

theorem kind_ne (h : Without l s s') (hn : s.Has n) (hk : s.kind? n ≠ some .attr) :
    s'.kind? n ≠ some .attr := by
  obtain ⟨k, hk'⟩ := hn.exists_kind?
  rw [h.kind? hk']
  rwa [hk'] at hk

theorem trans (h : Without l s s') (h' : Without l' s' s'') : Without (l ++ l') s s'' where
  wellFormed := h'.wellFormed
  owned := h'.owned
  tag? n tag ht := h'.tag? n tag (h.tag? n tag ht)
  attributes n _ ha := h.attributes n (h'.attributes n ha)
  parent? n q hq := h.parent? n q (h'.parent? n q hq)
  view n hn hout hk := by
    rw [h'.view n (h.has hn) (fun e he => h.not_above (hout e (by simp [he]))) (h.kind_ne hn hk),
      h.view n hn (fun e he => hout e (by simp [he])) hk]
    simp [View.without, Bool.and_comm]

end Without

theorem WellFormed.discard (h : s.WellFormed) (ho : s.Owned) (he : s.Has e)
    (hke : s.kind? e ≠ some .attr) : Without [e] s (s.discard e) := by
  rw [Store.discard]
  split
  · have hd := (h.tidy ho).detach (n := e) trivial
    have hw := hd.trans (hd.tidy.dispose (hd.confined.has he) trivial)
    have halone : (s.detach e).parent? e = none := by rw [h.parent?_detach, if_pos rfl]
    refine ⟨hw.tidy.wellFormed, hw.tidy.owned, hw.confined.tag?, fun n a ha => ?_,
      fun n q hq => ?_, fun n _ hout hk => ?_⟩
    · rw [Store.dispose, (foldl_clearNode_tables _).2] at ha
      split at ha
      · cases ha
      · rw [attributes_congr payload?_detach, attributes_congr payload?_detach] at ha
        exact ha
    · exact h.parent?_of_detach (hd.tidy.wellFormed.parent?_of_dispose (hd.confined.has he) hq)
    · have hn' : ¬ (s.detach e).Above e n := fun hup =>
        hout e (by simp) (hup.of_fewer fun m q => h.parent?_of_detach)
      have hkd : ∀ m, (s.detach e).kind? m = s.kind? m := fun m => by
        rw [kind?, payload?_detach, kind?]
      rw [hd.tidy.wellFormed.dispose_view hd.tidy.owned (hd.confined.has he) halone hn'
        (by rwa [hkd]) (by rwa [hkd])]
      refine view_eq_of loose_detach (attributes_congr payload?_detach) (fun a _ => loose_detach) ?_
      rw [h.children_detach]
      simp [view]
  · rename_i hnone
    refine ⟨h, ho, fun _ _ ht => ht, fun _ _ ha => ha, fun _ _ hq => hq, fun n _ _ _ => ?_⟩
    refine View.ext rfl rfl ?_
    change s.children n = (s.children n).filter _
    have halone : s.parent? e = none := by simpa using hnone
    have hchildren := h.children_detach (n := n) (e := e)
    rw [detach_of_alone halone] at hchildren
    simpa using hchildren

/-- Taking out several nodes. -/
theorem WellFormed.discardAll (h : s.WellFormed) (ho : s.Owned)
    (hl : ∀ e ∈ l, s.Has e ∧ s.kind? e ≠ some .attr) : Without l s (l.foldl Store.discard s) := by
  induction l generalizing s with
  | nil => exact .refl h ho
  | cons e l ih =>
    obtain ⟨he, hke⟩ := hl e (by simp)
    have hfirst := h.discard ho he hke
    refine hfirst.trans (ih hfirst.wellFormed hfirst.owned fun d hd => ?_)
    obtain ⟨hdhas, hkd⟩ := hl d (by simp [hd])
    exact ⟨hfirst.has hdhas, hfirst.kind_ne hdhas hkd⟩

/-! ### The content that is left -/

/-- Nothing of a pruned tree stands below a node that was dropped. -/
theorem not_above_of_mem_prune {t : Shape} {drop : NodeId → Bool} (h : s.WellFormed)
    (ht : s.Shaped t) (hn : n ∈ (t.prune drop).ids) (he : drop e) (hroot : s.Above t.root e)
    (hne : e ≠ t.root) : ¬ s.Above e n := by
  intro hup
  induction t with
  | node r below ih =>
    rw [Shape.prune_node, Shape.ids_node, List.mem_cons, List.mem_flatMap] at hn
    rcases hn with rfl | ⟨u, hu, hn⟩
    · exact hne (h.grounded.antisymm hup hroot)
    · obtain ⟨c, hc, rfl⟩ := List.mem_map.mp hu
      obtain ⟨hc, hkept⟩ := List.mem_filter.mp hc
      have hparent : s.parent? c.root = some r := ht.parent? h c hc
      have hshaped : s.Shaped c := by
        cases ht with
        | node _ hbelow => exact hbelow c hc
      have hce : e ≠ c.root := by
        rintro rfl
        simp [he] at hkept
      rcases above_or_above hup (hshaped.above h (Shape.mem_ids_of_mem_prune hn)) with hec | hce'
      · rcases above_iff.mp hec with rfl | ⟨q, hq, hq'⟩
        · exact hce rfl
        · obtain rfl : r = q := by simpa [hparent] using hq
          exact hne (h.grounded.antisymm hq' hroot)
      · exact ih c hc hshaped hn hce' hce

/-- **Pruning.** If nodes were taken out of a tree, all those that what they say tells to be
dropped, the tree has the content that is left. -/
theorem Without.holds {t : Shape} {tell : Option Node → Bool} (hw : Without l s s')
    (h : s.WellFormed) (ht : s.Shaped t) (hhas : s.Has t.root) (hk : s.kind? t.root ≠ some .attr)
    (hl : ∀ e ∈ l, s.Above t.root e ∧ e ≠ t.root)
    (htell : ∀ n ∈ t.ids.tail, decide (n ∈ l) = tell (s.loose n)) :
    s'.Shaped (t.prune fun n => decide (n ∈ l)) ∧
      (t.prune fun n => decide (n ∈ l)).content s' = (t.content s).prune tell := by
  have hview : ∀ n ∈ (t.prune fun n => decide (n ∈ l)).ids,
      s'.view n = (s.view n).without fun c => decide (c ∈ l) := by
    intro n hn
    have hout : ∀ e ∈ l, ¬ s.Above e n := fun e he =>
      not_above_of_mem_prune h ht hn (decide_eq_true he) (hl e he).1 (hl e he).2
    rcases above_iff.mp (ht.above h (Shape.mem_ids_of_mem_prune hn)) with rfl | ⟨q, hq, -⟩
    · exact hw.view _ hhas hout hk
    · refine hw.view n (has_of_parent? hq) hout fun ha => ?_
      rw [h.parent?_of_attr ha] at hq
      cases hq
  exact ⟨ht.prune hview, Shape.content_prune htell hview⟩

end Stencil.Tree.Store
