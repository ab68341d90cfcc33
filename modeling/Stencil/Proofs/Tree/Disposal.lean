import Stencil.Proofs.Tree.Changes

/-!
# Taking a subtree apart

Disposing of a node takes it out of its parent, gathers what is below it with a queue, and clears
one node after the other. The links that lead through the subtree are needed to gather it, and are
gone afterwards. So everything is gathered first.

What is outside of the subtree is not cleared. Its links change only where the node stood: its
parent loses a child, and its two neighbours become neighbours. An attribute that other elements
list as well is cleared all the same, and they still list it.

## Main definitions

* `Store.gatherTurn` – a turn of the loop that gathers a subtree
* `AttributeData.cleared` – an attribute of an element that was disposed of
* `Store.TakenApart` – what disposal promises

## Main results

* `WellFormed.gatherTurn_iterate` – the loop ends, with the subtree
* `attr?_foldl_clearNode` – what is left of attributes
* `WellFormed.takenApart` – disposal keeps its promise
-/

namespace Stencil.Tree

/-- The attribute without owner and value. -/
def AttributeData.cleared (d : AttributeData) : AttributeData :=
  { d with owner := none, value := .literal [] }

namespace Store

variable {s s' : Store} {n m p e a r : NodeId} {l level next done : List NodeId} {k limit : Nat}

/-- A turn of the loop that gathers a subtree: the node at the head of the queue is gathered, and
its children go to the end. Nothing is left to be done when the queue is empty. -/
def gatherTurn (s : Store) : List NodeId × List NodeId → List NodeId × List NodeId
  | ([], done) => ([], done)
  | (m :: queue, done) => (queue ++ s.children m, done ++ [m])

/-- What disposing of a node promises. -/
structure TakenApart (s : Store) (n : NodeId) (s' : Store) : Prop where
  wellFormed : s'.WellFormed
  /-- The loop ends. It has gathered the subtree, in one turn for each node. -/
  gathers : (s.detach n).gatherTurn^[((s.detach n).subtree n).length] ([n], []) =
    ([], (s.detach n).subtree n)
  /-- Nothing else was gathered. -/
  subtree (m : NodeId) : m ∈ (s.detach n).subtree n ↔ s.Above n m
  /-- No node of the subtree has a parent, siblings or children. -/
  links (m : NodeId) : s.Above n m → s'.links m = {}
  /-- No element of the subtree has attributes. -/
  attributeTable (m : NodeId) : s.Above n m → s'.attributeTable m = .empty
  /-- Their attributes are cleared. -/
  cleared (e a : NodeId) (d : AttributeData) : s.Above n e → a ∈ s.attributes e →
    s.attr? a = some d → s'.attr? a = some d.cleared
  /-- Nothing is left on documents. -/
  extras (m : NodeId) : s.Above n m → s'.extras m = []
  /-- The former parent has lost the node. -/
  parent (p : NodeId) : s.parent? n = some p → s'.children p = (s.children p).erase n
  /-- All other nodes outside of the subtree have the children they had. -/
  children (m : NodeId) : ¬ s.Above n m → s.parent? n ≠ some m → s'.children m = s.children m
  /-- All nodes outside of the subtree, but the parent and the neighbours, have the links they
  had. -/
  others (m : NodeId) : ¬ s.Above n m → s.parent? n ≠ some m → s.previous? n ≠ some m →
    s.next? n ≠ some m → s'.links m = s.links m
  /-- Outside of the subtree, nodes that are no attributes of it are what they were. -/
  payload? (m : NodeId) : ¬ s.Above n m → (∀ e, s.Above n e → m ∉ s.attributes e) →
    s'.payload? m = s.payload? m

/-! ### Gathering -/

/-- Gathering a level takes a turn for each node of it. -/
theorem gatherTurn_level (level next done : List NodeId) : s.gatherTurn^[level.length]
    (level ++ next, done) = (next ++ level.flatMap s.children, done ++ level) := by
  induction level generalizing next done with
  | nil => simp
  | cons m level ih =>
    rw [List.length_cons, Function.iterate_succ_apply, List.cons_append, gatherTurn,
      List.append_assoc, ih]
    simp

/-- Gathering all levels: there are no more of them than nodes. -/
theorem WellFormed.gatherTurn_breadthFirst (h : s.WellFormed)
    (hlevel : ∀ m ∈ level, s.Has m ∧ s.ascend k m = some r) (hlimit : s.nodes.size ≤ limit + k) :
    s.gatherTurn^[(s.breadthFirst limit level).length] (level, done) =
      ([], done ++ s.breadthFirst limit level) := by
  induction limit generalizing level done k with
  | zero =>
    have hnil : level = [] := List.eq_nil_iff_forall_not_mem.mpr fun m hm => by
      obtain ⟨hhas, hup⟩ := hlevel m hm
      have hlt := h.linked.ascend_lt h.grounded hhas hup
      omega
    simp [hnil, breadthFirst]
  | succ limit ih =>
    cases level with
    | nil => simp [breadthFirst]
    | cons m level =>
      have hfirst := s.gatherTurn_level (m :: level) [] done
      rw [List.append_nil, List.nil_append] at hfirst
      have hbelow : ∀ c ∈ (m :: level).flatMap s.children, s.Has c ∧
          s.ascend (k + 1) c = some r := by
        intro c hc
        obtain ⟨q, hq, hc⟩ := List.mem_flatMap.mp hc
        have hparent := h.mem_children.mp hc
        refine ⟨has_of_parent? hparent, ?_⟩
        rw [ascend, hparent]
        exact (hlevel q hq).2
      have hrest : s.gatherTurn^[(s.breadthFirst limit ((m :: level).flatMap s.children)).length]
          ((m :: level).flatMap s.children, done ++ m :: level) =
            ([], done ++ m :: level ++ s.breadthFirst limit ((m :: level).flatMap s.children)) :=
        ih hbelow (by omega)
      rw [breadthFirst, List.length_append, Nat.add_comm, Function.iterate_add_apply, hfirst, hrest]
      · simp
      · simp

/-- **The loop ends.** What it has gathered is the subtree, level by level. -/
theorem WellFormed.gatherTurn_iterate (h : s.WellFormed) (hn : s.Has n) :
    s.gatherTurn^[(s.subtree n).length] ([n], []) = ([], s.subtree n) := by
  refine (h.gatherTurn_breadthFirst (k := 0) (r := n) (fun m hm => ?_) ?_).trans ?_
  · obtain rfl := List.mem_singleton.mp hm
    exact ⟨hn, rfl⟩
  · exact Nat.le_refl _
  · rfl

/-! ### Clearing -/

theorem attr?_modifyElement {f : ElementData → ElementData} :
    (s.modifyElement n f).attr? a = s.attr? a := by
  ext d
  rw [attr?_eq_some_iff, attr?_eq_some_iff]
  exact payload?_eq_some_of_map (fun p => by cases p <;> simp [Payload.mapElement])
    fun _ => payload?_modifyElement

theorem attr?_modifyDocument {f : DocumentData → DocumentData} :
    (s.modifyDocument n f).attr? a = s.attr? a := by
  ext d
  rw [attr?_eq_some_iff, attr?_eq_some_iff]
  exact payload?_eq_some_of_map (fun p => by cases p <;> simp [Payload.mapDocument])
    fun _ => payload?_modifyDocument

theorem attr?_modifyAttr {f : AttributeData → AttributeData} :
    (s.modifyAttr n f).attr? a = if a = n then (s.attr? a).map f else s.attr? a := by
  by_cases ha : a = n
  · rw [if_pos ha, attr?, payload?_modifyAttr, if_pos ha, ha, attr?]
    cases s.payload? n with
    | none => rfl
    | some p => cases p <;> rfl
  · rw [if_neg ha, attr?, payload?_modifyAttr, if_neg ha, attr?]

/-- Clearing an attribute again does nothing. -/
theorem map_cleared_cleared (o : Option AttributeData) :
    (o.map AttributeData.cleared).map AttributeData.cleared = o.map AttributeData.cleared := by
  cases o <;> rfl

/-- Clearing attributes one after the other. -/
theorem attr?_foldl_discard :
    (l.foldl (fun s a => (s.disown a).setValue a (.literal [])) s).attr? a =
    if a ∈ l then (s.attr? a).map AttributeData.cleared else s.attr? a := by
  induction l generalizing s with
  | nil => rfl
  | cons b l ih =>
    have hfirst : ((s.disown b).setValue b (.literal [])).attr? a =
        if a = b then (s.attr? a).map AttributeData.cleared else s.attr? a := by
      rw [setValue, attr?_modifyAttr, disown, attr?_modifyAttr]
      split
      · rw [Option.map_map]
        rfl
      · rfl
    rw [List.foldl_cons, ih, hfirst]
    by_cases hb : a = b
    · rw [if_pos hb, map_cleared_cleared, ite_self, if_pos (hb ▸ List.mem_cons_self)]
    · simp [hb]

theorem attr?_clearNode : (s.clearNode n).attr? a =
    if a ∈ s.attributes n then (s.attr? a).map AttributeData.cleared else s.attr? a := by
  have hattrs : (s.relink n fun l => l.alone.childless).attributes n = s.attributes n :=
    attributes_congr payload?_relink
  have hself : (s.relink n fun l => l.alone.childless).attr? a = s.attr? a := by
    rw [attr?, payload?_relink, attr?]
  rw [clearNode, attr?_modifyDocument, discardAttributes, attr?_modifyElement, attr?_foldl_discard,
    hattrs, hself]

/-- **Attributes.** Clearing nodes clears the attributes that they list, and no others. -/
theorem attr?_foldl_clearNode : (l.foldl clearNode s).attr? a =
    if ∃ e ∈ l, a ∈ s.attributes e then (s.attr? a).map AttributeData.cleared else s.attr? a := by
  induction l generalizing s with
  | nil => simp
  | cons n l ih =>
    rw [List.foldl_cons, ih, attr?_clearNode]
    by_cases ha : a ∈ s.attributes n
    · -- another node that lists it clears it again
      rw [if_pos ha, map_cleared_cleared, ite_self, if_pos ⟨n, List.mem_cons_self, ha⟩]
    · have hiff : (∃ e ∈ l, a ∈ (s.clearNode n).attributes e) ↔
        ∃ e ∈ n :: l, a ∈ s.attributes e := by
        simp only [attributes_clearNode, List.exists_mem_cons_iff, ha, false_or]
        refine exists_congr fun e => and_congr_right fun _ => ?_
        split
        · rename_i he
          simp [he, ha]
        · rfl
      rw [if_neg ha]
      exact if_congr hiff rfl rfl

theorem document?_foldl_discard :
    (l.foldl (fun s a => (s.disown a).setValue a (.literal [])) s).document? m = s.document? m := by
  induction l generalizing s with
  | nil => rfl
  | cons b l ih =>
    rw [List.foldl_cons, ih, setValue, document?_modifyAttr, disown, document?_modifyAttr]

theorem document?_clearNode : (s.clearNode n).document? m =
    if m = n then (s.document? m).map fun d => { d with extras := [] } else s.document? m := by
  have hself (k : NodeId) :
      (s.relink n fun l => l.alone.childless).document? k = s.document? k := by
    rw [document?, payload?_relink, document?]
  simp only [clearNode, document?_modifyDocument, discardAttributes, document?_modifyElement,
    document?_foldl_discard, hself]
  split
  · rename_i hm
    rw [hm]
  · rfl

theorem extras_clearNode : (s.clearNode n).extras m = if m = n then [] else s.extras m := by
  rw [extras, document?_clearNode, extras]
  split
  · cases s.document? m <;> rfl
  · rfl

theorem extras_foldl_clearNode : (l.foldl clearNode s).extras m =
    if m ∈ l then [] else s.extras m := by
  induction l generalizing s with
  | nil => rfl
  | cons n l ih =>
    rw [List.foldl_cons, ih, extras_clearNode]
    by_cases hl : m ∈ l <;> by_cases hn : m = n <;> simp [hl, hn]

/-- What is no attribute that is listed, and is not cleared itself, keeps its payload. -/
theorem payload?_foldl_clearNode (hm : m ∉ l) (hattr : ∀ n ∈ l, m ∉ s.attributes n) :
    (l.foldl clearNode s).payload? m = s.payload? m :=
  payload?_congr (get?_foldl_clearNode hm hattr)

/-! ### The rest of the store -/

/-- Taking a node out does not change what is below it. -/
theorem WellFormed.above_detach (h : s.WellFormed) : (s.detach n).Above n m ↔ s.Above n m := by
  refine ⟨fun hm => hm.of_fewer fun _ _ => h.parent?_of_detach, ?_⟩
  rintro ⟨k, hk⟩
  induction k generalizing m with
  | zero =>
    obtain rfl : m = n := Option.some.inj hk
    exact .refl m
  | succ k ih =>
    by_cases hmn : m = n
    · rw [hmn]
      exact .refl n
    · obtain ⟨q, hq, hk⟩ := Option.bind_eq_some_iff.mp hk
      refine (ih hk).trans (.of_parent? ?_)
      rw [h.parent?_detach, if_neg hmn, hq]

/-- Taking a node out writes to its parent and its neighbours only. -/
theorem WellFormed.links_detach_of_ne (h : s.WellFormed) (hn : m ≠ n) (hp : s.parent? n ≠ some m)
    (hprevious : s.previous? n ≠ some m) (hnext : s.next? n ≠ some m) :
    (s.detach n).links m = s.links m := by
  cases hparent : s.parent? n with
  | none => rw [detach_of_alone hparent]
  | some p =>
    have hmp : m ≠ p := fun e => hp (by rw [hparent, e])
    obtain ⟨l₁, l₂, hk⟩ := h.exists_split hparent
    obtain ⟨hprev, hnxt⟩ := h.linked.neighbours hk
    rw [links_detach hparent (has_of_parent? hparent) (h.has_parent hparent)
      (hprev ▸ h.linked.has_getLast? (p := p) fun m hm => by simp [hk, hm])
      (hnxt ▸ h.linked.has_head? (p := p) fun m hm => by simp [hk, hm])]
    simp only [hn, hmp, hprevious, hnext, false_and, if_false]
    rfl

/-! ### What disposal promises -/

theorem WellFormed.takenApart (h : s.WellFormed) (hn : s.Has n) : s.TakenApart n (s.dispose n) := by
  have hw := h.detach n
  have hn' : (s.detach n).Has n := has_of_loose loose_detach hn
  have hmem (m : NodeId) : m ∈ (s.detach n).subtree n ↔ s.Above n m :=
    (hw.linked.mem_subtree hw.grounded hn').trans h.above_detach
  have hhas : ∀ m ∈ (s.detach n).subtree n, (s.detach n).Has m := by
    intro m hm
    rcases above_iff.mp ((hmem m).mp hm) with rfl | ⟨q, hq, -⟩
    · exact hn'
    · exact has_of_loose loose_detach (has_of_parent? hq)
  have hlinks := (foldl_clearNode hhas).1
  have hkept (m : NodeId) (hm : (s.detach n).Has m) : (s.dispose n).Has m := by
    obtain ⟨k, hk⟩ := hm.exists_kind?
    exact has_of_kind? ((foldl_clearNode hhas).2 m k hk)
  have hattrs (m : NodeId) : (s.detach n).attributes m = s.attributes m :=
    attributes_congr payload?_detach
  have hchildren (m : NodeId) (hm : ¬ s.Above n m) :
      (s.dispose n).children m = (s.children m).erase n := by
    rw [← h.children_detach_eq_erase]
    refine hw.children_congr hkept ?_ fun c hc => ?_
    · rw [Store.dispose, hlinks, if_neg (mt (hmem m).mp hm)]
    · -- a child of a node outside is the node itself, which is taken out already, or outside
      have hparent := hw.mem_children.mp hc
      have hout : c ∉ (s.detach n).subtree n := fun hin => by
        rcases above_iff.mp (h.above_detach.mpr ((hmem c).mp hin)) with rfl | ⟨q, hq, hup⟩
        · rw [h.parent?_detach, if_pos rfl] at hparent
          cases hparent
        · rw [hparent] at hq
          exact hm (h.above_detach.mp (Option.some.inj hq ▸ hup))
      rw [Store.dispose, hlinks, if_neg hout]
  refine
    { wellFormed := h.dispose hn
      gathers := hw.gatherTurn_iterate hn'
      subtree := hmem
      links := fun m hm => by rw [Store.dispose, hlinks, if_pos ((hmem m).mpr hm)]
      attributeTable := fun m hm => ?_
      cleared := fun e a d he ha hd => ?_
      extras := fun m hm => by rw [Store.dispose, extras_foldl_clearNode, if_pos ((hmem m).mpr hm)]
      parent := fun p hp => hchildren p (h.grounded.not_above_of_parent? hp)
      children := fun m hm hp => by rw [hchildren m hm, h.erase_children_of_parent?_ne hp]
      others := fun m hm hp hprevious hnext => ?_
      payload? := fun m hm hattr => ?_ }
  · have hnone : (s.dispose n).attributes m = [] := by
      rw [Store.dispose, (foldl_clearNode_tables _).2, if_pos ((hmem m).mpr hm)]
    exact congrArg OrderedMap.mk (List.map_eq_nil_iff.mp hnone)
  · have hself : (s.detach n).attr? a = some d := by rw [attr?, payload?_detach, ← attr?, hd]
    rw [Store.dispose, attr?_foldl_clearNode,
      if_pos ⟨e, (hmem e).mpr he, by rw [hattrs]; exact ha⟩, hself]
    rfl
  · have hmn : m ≠ n := fun e => hm (by rw [e]; exact .refl n)
    rw [Store.dispose, hlinks, if_neg (mt (hmem m).mp hm),
      h.links_detach_of_ne hmn hp hprevious hnext]
  · rw [Store.dispose, payload?_foldl_clearNode (mt (hmem m).mp hm), payload?_detach]
    intro e he
    rw [hattrs]
    exact hattr e ((hmem e).mp he)

/-- An element is disposed of that has an attribute and a child, and stands between two others. -/
theorem takenApart_element :
    let s := reach [.tree (.create (.element { qualifier := [], name := "p" }) true 1),
      .tree (.create (.element { qualifier := [], name := "a" }) true 1),
      .tree (.create (.element { qualifier := [], name := "b" }) true 1),
      .tree (.create (.element { qualifier := [], name := "c" }) true 1),
      .setAttribute 2 "x" "id" "1", .tree (.createText "t"), .tree (.appendChild 0 (some 1)),
      .tree (.appendChild 0 (some 2)), .tree (.appendChild 0 (some 3)),
      .tree (.appendChild 2 (some 5))]
    s.TakenApart 2 (s.dispose 2) :=
  (wellFormed_reach _).takenApart (by decide)

end Store

end Stencil.Tree
