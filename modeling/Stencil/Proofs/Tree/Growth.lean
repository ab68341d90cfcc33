import Stencil.Proofs.Tree.WellFormed

/-!
# New nodes, copies and disposal

What the operations beyond those on children do to a well-formed store. Most of them change no
links: they add nodes, which have none, or write to a payload without changing what the node is
called, its tag. Such a change is a `Growth`, and keeps a store well-formed. Copying a subtree
alternates growth with attaching a new node, which has no children and therefore fits anywhere its
kind does. Disposal removes all links of a part of the store that is closed under them.

## Main definitions

* `Payload.tag`, `Store.tag?` – the kind of a node and its name
* `Store.Qualified`, `Store.Unqualified` – whether the name belongs to a namespace
* `Store.Growth` – no link and no tag changes

## Main results

* `WellFormed.growth`, `WellFormed.newText`, `WellFormed.appendData`, `WellFormed.clone`,
  `WellFormed.dispose`
-/

namespace Stencil.Tree

/-- The kind of a node and, for elements and attributes, the namespace and the name. -/
def Payload.tag : Payload → NodeKind × Option Int × Text
  | element e => (.element, e.uri, e.name)
  | attr a => (.attr, a.uri, a.name)
  | p => (p.nodeKind, none, [])

theorem Payload.tag_fst (p : Payload) : p.tag.1 = p.nodeKind := by cases p <;> rfl

namespace Store

variable {s s' s'' : Store} {n m p q c e : NodeId} {k : NodeKind} {node : Node}
  {tag : NodeKind × Option Int × Text}

/-- The tag of a node of the store. -/
def tag? (s : Store) (n : NodeId) : Option (NodeKind × Option Int × Text) :=
  (s.payload? n).map Payload.tag

theorem kind?_eq_map_tag? : s.kind? n = (s.tag? n).map (·.1) := by
  rw [kind?, tag?, Option.map_map]
  congr 1
  funext p
  exact p.tag_fst.symm

theorem kind?_of_tag? (htag : ∀ tag, s.tag? n = some tag → s'.tag? n = some tag)
    (h : s.kind? n = some k) : s'.kind? n = some k := by
  rw [kind?_eq_map_tag?] at h ⊢
  obtain ⟨tag, hn, rfl⟩ := Option.map_eq_some_iff.mp h
  rw [htag tag hn]
  rfl

theorem has_of_tag? (h : s.tag? n = some tag) : s.Has n :=
  has_of_kind? (by rw [kind?_eq_map_tag?, h]; rfl)

theorem Has.exists_tag? (h : s.Has n) : ∃ tag, s.tag? n = some tag := by
  obtain ⟨node, hnode⟩ := h.exists_get?
  exact ⟨node.payload.tag, by simp [tag?, payload?, hnode]⟩

/-- A node whose name belongs to a namespace. -/
def Qualified (s : Store) (n : NodeId) : Prop := ∃ k u name, s.tag? n = some (k, some u, name)

/-- A node whose name belongs to no namespace. -/
def Unqualified (s : Store) (n : NodeId) : Prop := ∃ k name, s.tag? n = some (k, none, name)

theorem Qualified.not_unqualified (h : s.Qualified n) : ¬ s.Unqualified n := by
  obtain ⟨k, u, name, h⟩ := h
  rintro ⟨k', name', h'⟩
  rw [h] at h'
  cases h'

theorem Has.qualified_or_unqualified (h : s.Has n) : s.Qualified n ∨ s.Unqualified n := by
  obtain ⟨⟨k, u, name⟩, htag⟩ := h.exists_tag?
  cases u with
  | none => exact .inr ⟨k, name, htag⟩
  | some u => exact .inl ⟨k, u, name, htag⟩

theorem Unqualified.has (h : s.Unqualified n) : s.Has n := by
  obtain ⟨k, name, h⟩ := h
  exact has_of_tag? h

theorem Qualified.mono (h : s.Qualified n)
    (htag : ∀ n tag, s.tag? n = some tag → s'.tag? n = some tag) : s'.Qualified n := by
  obtain ⟨k, u, name, h⟩ := h
  exact ⟨k, u, name, htag n _ h⟩

theorem Unqualified.mono (h : s.Unqualified n)
    (htag : ∀ n tag, s.tag? n = some tag → s'.tag? n = some tag) : s'.Unqualified n := by
  obtain ⟨k, name, h⟩ := h
  exact ⟨k, name, htag n _ h⟩

/-- The links stay as they are, and so do the tags of nodes. Nodes may come. -/
structure Growth (s s' : Store) : Prop where
  /-- The links stay as they are. -/
  links (n : NodeId) : s'.links n = s.links n
  /-- No node changes its tag. -/
  tag? (n : NodeId) (tag : NodeKind × Option Int × Text) : s.tag? n = some tag →
    s'.tag? n = some tag

/-! ### Changes that are growth -/

namespace Growth

@[refl] protected theorem refl (s : Store) : Growth s s := ⟨fun _ => rfl, fun _ _ h => h⟩

protected theorem trans (h₁ : Growth s s') (h₂ : Growth s' s'') : Growth s s'' :=
  ⟨fun n => (h₂.links n).trans (h₁.links n), fun n tag h => h₂.tag? n tag (h₁.tag? n tag h)⟩

theorem has (h : Growth s s') (hn : s.Has n) : s'.Has n := by
  obtain ⟨tag, htag⟩ := hn.exists_tag?
  exact has_of_tag? (h.tag? n tag htag)

theorem kind? (h : Growth s s') (n : NodeId) (k : NodeKind) (hk : s.kind? n = some k) :
    s'.kind? n = some k := by
  rw [kind?_eq_map_tag?] at hk ⊢
  obtain ⟨tag, htag, rfl⟩ := Option.map_eq_some_iff.mp hk
  rw [h.tag? n tag htag]
  rfl

theorem parent? (h : Growth s s') (n : NodeId) : s'.parent? n = s.parent? n := by
  rw [Store.parent?, h.links, ← Store.parent?]

protected theorem add (hl : node.links = {}) : Growth s (s.add node).2 where
  links n := by
    by_cases hn : n = (s.add node).1
    · have : ¬ s.Has n := by simp [Has, hn, Store.add]
      rw [links_of_not_has this, Store.links, get?_add, if_pos hn]
      exact hl
    · rw [Store.links, get?_add, if_neg hn, Store.links]
  tag? n tag htag := by
    have hn : n ≠ (s.add node).1 := fun e =>
      absurd (has_of_tag? htag) (by simp [Has, e, Store.add])
    rwa [Store.tag?, payload?, get?_add, if_neg hn]

protected theorem setPayload {new : Payload} (hk : s.tag? n = some new.tag) :
    Growth s (s.setPayload n new) where
  links m := by
    rw [setPayload, Store.links, Store.links, get?_modify]
    split
    · cases s.get? m <;> rfl
    · rfl
  tag? m tag hm := by
    rw [setPayload, Store.tag?, payload?, get?_modify]
    split
    · rename_i e
      subst e
      obtain ⟨node, hnode⟩ := (has_of_tag? hm).exists_get?
      rw [hk] at hm
      simpa [hnode] using hm
    · exact hm

theorem modifyElement {f : ElementData → ElementData}
    (hf : ∀ d, (f d).uri = d.uri ∧ (f d).name = d.name) : Growth s (s.modifyElement n f) := by
  rw [Store.modifyElement]
  split
  · rename_i d hd
    refine .setPayload ?_
    rw [element?] at hd
    split at hd
    · rename_i hpay
      obtain rfl := Option.some.inj hd
      rw [Store.tag?, hpay, Option.map_some, Payload.tag, Payload.tag, (hf _).1, (hf _).2]
    · cases hd
  · rfl

theorem modifyAttr {f : AttributeData → AttributeData}
    (hf : ∀ d, (f d).uri = d.uri ∧ (f d).name = d.name) : Growth s (s.modifyAttr n f) := by
  rw [Store.modifyAttr]
  split
  · rename_i d hd
    refine .setPayload ?_
    rw [attr?] at hd
    split at hd
    · rename_i hpay
      obtain rfl := Option.some.inj hd
      rw [Store.tag?, hpay, Option.map_some, Payload.tag, Payload.tag, (hf _).1, (hf _).2]
    · cases hd
  · rfl

theorem modifyDocument {f : DocumentData → DocumentData} : Growth s (s.modifyDocument n f) := by
  rw [Store.modifyDocument]
  split
  · rename_i d hd
    refine .setPayload ?_
    rw [document?] at hd
    split at hd
    · rename_i hpay
      rw [Store.tag?, hpay]
      rfl
    · cases hd
  · rfl

theorem addAttribute {a : Option NodeId} (h : s.addAttribute e a = .ok s') : Growth s s' := by
  unfold Store.addAttribute at h
  split at h
  · cases h
  · split at h
    · cases h
    · obtain rfl := Except.ok.inj h
      refine (modifyElement ?_).trans (modifyAttr ?_)
      · exact fun d => ⟨rfl, rfl⟩
      · exact fun d => ⟨rfl, rfl⟩

theorem copyAttributes {as : List NodeId} : Growth s (copyAttributes e as s) := by
  induction as generalizing s with
  | nil => rfl
  | cons a as ih =>
    rw [Store.copyAttributes]
    split
    · rename_i node d hnode hd
      have hadd : Growth s (s.add
          { node with payload := .attr { d with owner := none }, links := {} }).2 := .add rfl
      refine hadd.trans (Growth.trans ?_ ih)
      cases hadd : Store.addAttribute _ e _ with
      | error => rfl
      | ok => exact addAttribute hadd
    · exact ih

theorem foldl {f : Store → NodeId → Store} (hf : ∀ s n, Growth s (f s n)) (l : List NodeId) :
    Growth s (l.foldl f s) := by
  induction l generalizing s with
  | nil => rfl
  | cons n l ih => exact (hf s n).trans ih

theorem discardAttributes : Growth s (s.discardAttributes n) := by
  refine (foldl (fun s a => (modifyAttr ?_).trans (modifyAttr ?_)) _).trans (modifyElement ?_)
  · exact fun d => ⟨rfl, rfl⟩
  · exact fun d => ⟨rfl, rfl⟩
  · exact fun d => ⟨rfl, rfl⟩

end Growth

/-- Growth keeps a store well-formed. -/
theorem WellFormed.growth (h : s.WellFormed) (hg : Growth s s') : s'.WellFormed := by
  refine .of_linked (h.linked.congr hg.links)
    (h.grounded.of_fewer fun m q hq => ?_) fun m q hq => ?_
  · rwa [hg.parent?] at hq
  · rw [hg.parent?] at hq
    exact (h.fits m q hq).mono hg.kind?

/-! ### Attaching new nodes -/

/-- A new node has neither parent nor children. -/
theorem WellFormed.fresh (h : s.WellFormed) (hg : Growth s s') (hn : ¬ s.Has n) :
    s'.parent? n = none ∧ ∀ m, s'.parent? m ≠ some n := by
  refine ⟨?_, fun m hm => hn (h.has_parent (by rwa [hg.parent?] at hm))⟩
  rw [hg.parent?, parent?, links_of_not_has hn]

/-- A new node may be attached wherever its kind fits. -/
theorem WellFormed.attachNew (h : s.WellFormed) (hg : Growth s s') (hp : s.Has p)
    (hn : ¬ s.Has n) (hfit : s'.Fits p n) : (s'.attachLast p n).WellFormed := by
  obtain ⟨hfree, hchildless⟩ := h.fresh hg hn
  refine (h.growth hg).attachLast hfit (fun hup => hn ?_) hfree
  rw [hup.eq_of_childless hchildless]
  exact hp

theorem not_has_add : ¬ s.Has (s.add node).1 := by simp [Has, add]

theorem tag?_add_self : (s.add node).2.tag? (s.add node).1 = some node.payload.tag := by
  rw [tag?, payload?, get?_add, if_pos rfl]
  rfl

theorem kind?_add_self : (s.add node).2.kind? (s.add node).1 = some node.payload.nodeKind := by
  rw [kind?, payload?, get?_add, if_pos rfl]
  rfl

/-- Adding a node below an existing one. -/
theorem WellFormed.addBelow (h : s.WellFormed) (hl : node.links = {}) (hp : s.kind? p = some k)
    (hk : k.admits node.payload.nodeKind) :
    ((s.add node).2.attachLast p (s.add node).1).WellFormed :=
  h.attachNew (.add hl) (has_of_kind? hp) not_has_add
    ⟨k, _, (Growth.add hl).kind? p k hp, kind?_add_self, hk⟩

theorem WellFormed.newText (h : s.WellFormed) (data : Text) : (s.newText data).2.WellFormed := by
  have ht : (s.add { payload := .text }).2.WellFormed := h.growth (.add rfl)
  unfold Store.newText
  dsimp only
  split
  · exact ht
  · exact ht.addBelow rfl kind?_add_self rfl

theorem WellFormed.appendData (h : s.WellFormed) (ht : s.payload? n = some .text) (data : Text) :
    (s.appendData n data).WellFormed := by
  rw [Store.appendData]
  split
  · rename_i c old hc hold
    refine h.growth (.setPayload ?_)
    rw [hc, Option.bind_some] at hold
    rw [tag?, hold]
    rfl
  · exact h.addBelow rfl (show s.kind? n = some .text by rw [kind?, ht]; rfl) rfl

/-! ### Copies -/

/-- The copy of a single node is new and has the same tag. -/
theorem copyNode_spec (hn : s.Has n) :
    Growth s (s.copyNode n).2 ∧ ¬ s.Has (s.copyNode n).1 ∧
      (s.copyNode n).2.tag? (s.copyNode n).1 = s.tag? n := by
  obtain ⟨⟨payload, links, visible, line⟩, hnode⟩ := hn.exists_get?
  have htag : s.tag? n = some payload.tag := by simp [tag?, payload?, hnode]
  rw [copyNode, hnode, htag]
  cases payload with
  | element d =>
    dsimp only
    refine ⟨(Growth.add rfl).trans .copyAttributes, not_has_add, Growth.copyAttributes.tag? _ _ ?_⟩
    exact tag?_add_self
  | _ => exact ⟨.add rfl, not_has_add, tag?_add_self⟩

theorem kind?_copyNode (hn : s.Has n) :
    (s.copyNode n).2.kind? (s.copyNode n).1 = s.kind? n := by
  rw [kind?_eq_map_tag?, (copyNode_spec hn).2.2, ← kind?_eq_map_tag?]

/-- The nodes of a level can be copied below the copies of their parents. -/
def Copyable (s : Store) (level : List (NodeId × NodeId)) : Prop := ∀ e ∈ level, s.Fits e.1 e.2

theorem Copyable.children (h : s.WellFormed) (hm : s.kind? m = s.kind? n) :
    s.Copyable ((s.children n).map (m, ·)) := by
  intro e he
  obtain ⟨c, hc, rfl⟩ := List.mem_map.mp he
  obtain ⟨k, l, hk, hl, hkl⟩ := h.fits c n (h.mem_children.mp hc)
  exact ⟨k, l, hm ▸ hk, hl, hkl⟩

/-- Copying one node of a level. -/
theorem copyBelow_spec {next : Array (NodeId × NodeId)} {entry : NodeId × NodeId}
    (h : s.WellFormed) (hnext : s.Copyable next.toList) (hentry : s.Fits entry.1 entry.2) :
    (copyBelow (next, s) entry).2.WellFormed ∧
      (copyBelow (next, s) entry).2.Copyable (copyBelow (next, s) entry).1.toList ∧
      ∀ n k, s.kind? n = some k → (copyBelow (next, s) entry).2.kind? n = some k := by
  obtain ⟨k, l, hk, hl, hkl⟩ := hentry
  obtain ⟨hg, hnew, -⟩ := copyNode_spec (has_of_kind? hl)
  have hkind := (kind?_copyNode (has_of_kind? hl)).trans hl
  have hkeep : ∀ n k, s.kind? n = some k → (copyBelow (next, s) entry).2.kind? n = some k := by
    intro n k hn
    rw [copyBelow, kind?, payload?_attachLast]
    exact hg.kind? n k hn
  have hw := h.growth hg
  refine ⟨?_, fun e he => ?_, hkeep⟩
  · exact h.attachNew hg (has_of_kind? hk) hnew ⟨k, l, hg.kind? _ k hk, hkind, hkl⟩
  · have he' : e ∈ next.toList ∨ e ∈ ((s.copyNode entry.2).2.children entry.2).map
        ((s.copyNode entry.2).1, ·) := by
      simpa [copyBelow] using he
    rcases he' with he | he
    · exact (hnext e he).mono hkeep
    · exact (Copyable.children hw (hkind.trans (hg.kind? _ l hl).symm) e he).congr
        fun _ => payload?_attachLast

theorem copyLevel_spec {level : List (NodeId × NodeId)} {next : Array (NodeId × NodeId)}
    (h : s.WellFormed) (hnext : s.Copyable next.toList) (hlevel : s.Copyable level) :
    (level.foldl copyBelow (next, s)).2.WellFormed ∧
      (level.foldl copyBelow (next, s)).2.Copyable (level.foldl copyBelow (next, s)).1.toList := by
  induction level generalizing next s with
  | nil => exact ⟨h, hnext⟩
  | cons entry level ih =>
    obtain ⟨hw, hn, hkeep⟩ := copyBelow_spec h hnext (hlevel entry (by simp))
    exact ih hw hn fun e he => (hlevel e (by simp [he])).mono hkeep

theorem WellFormed.copyLevels {limit : Nat} {level : List (NodeId × NodeId)} (h : s.WellFormed)
    (hlevel : s.Copyable level) : (copyLevels limit level s).WellFormed := by
  induction limit generalizing level s with
  | zero => exact h
  | succ limit ih =>
    cases level with
    | nil => exact h
    | cons entry level =>
      have hnil : s.Copyable (#[] : Array (NodeId × NodeId)).toList := fun e he => by simp at he
      obtain ⟨hw, hn⟩ := copyLevel_spec h hnil hlevel
      exact ih hw hn

theorem WellFormed.clone (h : s.WellFormed) (hn : s.Has n) : (s.clone n).2.WellFormed := by
  obtain ⟨k, hk⟩ := hn.exists_kind?
  obtain ⟨hg, -, -⟩ := copyNode_spec hn
  have hkind := (kind?_copyNode hn).trans hk
  refine (h.growth hg).copyLevels fun e he => ?_
  -- the children to copy are read before the copy is made
  obtain ⟨c, hc, rfl⟩ := List.mem_map.mp he
  obtain ⟨k', l, hk', hl, hkl⟩ := h.fits c n (h.mem_children.mp hc)
  obtain rfl : k' = k := by simpa [hk] using hk'.symm
  exact ⟨k', l, hkind, hg.kind? c l hl, hkl⟩

/-! ### Disposal -/

theorem kind?_clearNode (hk : s.kind? m = some k) : (s.clearNode n).kind? m = some k := by
  rw [clearNode]
  refine (Growth.trans .discardAttributes .modifyDocument).kind? m k ?_
  rwa [kind?, payload?_relink]

theorem links_clearNode (hn : s.Has n) (m : NodeId) :
    (s.clearNode n).links m = if m = n then {} else s.links m := by
  rw [clearNode, (Growth.trans .discardAttributes .modifyDocument).links, links_relink hn,
    Function.update_apply]
  split
  · apply Links.ext <;> rfl
  · rfl

/-- Clearing nodes takes away their links, and nothing else that matters here. -/
theorem foldl_clearNode {l : List NodeId} (hl : ∀ n ∈ l, s.Has n) :
    (∀ m, (l.foldl clearNode s).links m = if m ∈ l then {} else s.links m) ∧
      ∀ m k, s.kind? m = some k → (l.foldl clearNode s).kind? m = some k := by
  induction l generalizing s with
  | nil => exact ⟨fun m => by simp, fun m k h => h⟩
  | cons n l ih =>
    have hcleared : ∀ d ∈ l, (s.clearNode n).Has d := by
      intro d hd
      obtain ⟨k, hk⟩ := (hl d (by simp [hd])).exists_kind?
      exact has_of_kind? (kind?_clearNode hk)
    obtain ⟨hlinks, hkind⟩ := ih hcleared
    rw [List.foldl_cons]
    refine ⟨fun m => ?_, fun m k h => hkind m k (kind?_clearNode h)⟩
    rw [hlinks, links_clearNode (hl n (by simp))]
    by_cases hm : m ∈ l <;> by_cases hmn : m = n <;> simp [hm, hmn]

/-- Removing all links within a part of the store that no link leads into or out of. -/
theorem WellFormed.clear {l : List NodeId} (h : s.WellFormed)
    (hclosed : ∀ n p, s.parent? n = some p → (n ∈ l ↔ p ∈ l))
    (hlinks : ∀ m, s'.links m = if m ∈ l then {} else s.links m)
    (hkind : ∀ m k, s.kind? m = some k → s'.kind? m = some k) : s'.WellFormed := by
  have hparent : ∀ m, s'.parent? m = if m ∈ l then none else s.parent? m := by
    intro m
    rw [parent?, hlinks]
    split <;> rfl
  have hfewer : ∀ m q, s'.parent? m = some q → s.parent? m = some q := by
    intro m q hq
    rw [hparent] at hq
    split at hq
    · cases hq
    · exact hq
  suffices hlinked : Linked s' fun p => if p ∈ l then [] else s.children p from
    .of_linked hlinked (h.grounded.of_fewer hfewer) fun m q hq =>
      (h.fits m q (hfewer m q hq)).mono hkind
  have hlink := h.linked
  constructor
  case nodup =>
    intro p
    split
    · exact List.nodup_nil
    · exact hlink.nodup p
  case parent_iff =>
    intro n p
    rw [hparent]
    by_cases hp : p ∈ l
    · by_cases hn : n ∈ l
      · simp [hn, hp]
      · simpa [hn, hp] using fun e => hn ((hclosed n p e).mpr hp)
    · by_cases hn : n ∈ l
      · simpa [hn, hp, h.mem_children] using fun e => hp ((hclosed n p e).mp hn)
      · simp [hn, hp, h.mem_children]
  case first =>
    intro p
    rw [firstChild?, hlinks]
    split
    · rfl
    · exact hlink.first p
  case last =>
    intro p
    rw [lastChild?, hlinks]
    split
    · rfl
    · exact hlink.last p
  case count =>
    intro p
    rw [childCount, hlinks]
    split
    · rfl
    · exact hlink.count p
  case row =>
    intro p
    split
    · trivial
    · rename_i hp
      have hout : ∀ n ∈ s.children p, n ∉ l := fun n hn e =>
        hp ((hclosed n p (h.mem_children.mp hn)).mp e)
      refine (hlink.row p).congr (fun n hn => ?_) fun n hn => ?_
      · rw [previous?, hlinks, if_neg (hout n hn), ← previous?]
      · rw [next?, hlinks, if_neg (hout n hn), ← next?]
  case alone =>
    intro n hn
    rw [hparent] at hn
    rw [previous?, next?, hlinks]
    split
    · exact ⟨rfl, rfl⟩
    · rename_i hnl
      exact hlink.alone n (by simpa [hnl] using hn)

theorem WellFormed.dispose (h : s.WellFormed) (hn : s.Has n) : (s.dispose n).WellFormed := by
  have hw := h.detach n
  have hn' : (s.detach n).Has n := by
    obtain ⟨k, hk⟩ := hn.exists_kind?
    exact has_of_kind? (show (s.detach n).kind? n = some k by rw [kind?, payload?_detach]; exact hk)
  have hfree : (s.detach n).parent? n = none := by rw [h.parent?_detach, if_pos rfl]
  have hmem := fun m => hw.linked.mem_subtree (m := m) hw.grounded hn'
  have hhas : ∀ m ∈ (s.detach n).subtree n, (s.detach n).Has m := by
    intro m hm
    rcases above_iff.mp ((hmem m).mp hm) with rfl | ⟨q, hq, -⟩
    · exact hn'
    · exact has_of_parent? hq
  obtain ⟨hlinks, hkind⟩ := foldl_clearNode hhas
  refine hw.clear (fun m q hq => ?_) hlinks hkind
  rw [hmem, hmem]
  constructor
  · intro hm
    rcases above_iff.mp hm with rfl | ⟨q', hq', hup⟩
    · simp [hfree] at hq
    · obtain rfl : q' = q := by simpa [hq'] using hq
      exact hup
  · exact fun hm => hm.trans (.of_parent? hq)

end Store

end Stencil.Tree
