import Stencil.Proofs.Tree.Assembling

/-!
# Character data between braces and around them

When character data is put into the tree, what stands between braces becomes an expression and the
rest becomes output. Neither is lost or doubled on the way, whatever mixture of blank braces, braces
for the engine `null`, neighbouring pairs and unbalanced braces it is made of.

On the side of the text, the pairs of braces are described without a word on how they are found
(`Leftmost`, `Matches`): each is the leftmost match behind the one before, and there is none behind
the last. On the side of the tree, putting items at the end of a node (`Store.Grown`) lets the text
at its end grow, or adds one where it does not end with a text, and changes nothing else. Both sides
meet in the items (`itemsOf`), which are put there one by one.

## Main definitions

* `Braces`, `Leftmost`, `Matches` – pairs of braces in a text, and all of them in order
* `Item`, `itemsOf` – the pieces of character data, and how they are written
* `Store.Grown` – items at the end of a node

## Main results

* `matches_textPieces` – texts are taken apart at the leftmost pairs of braces
* `flatMap_written_itemsOf`, `filterMap_expression?_itemsOf` – what the items of a text are
* `Assembly.flush_keeps_characters` – character data is put into the tree as it is written
-/

namespace Stencil

namespace Tree

variable {r : Option Resolver} {s pre inner post last : Text} {ms : List (Text × Text)}

/-! ### Pairs of braces -/

/-- The text between braces, with them. -/
def braced (inner : Text) : Text := 0x7b :: inner ++ [0x7d]

/-- Behind `pre` and in front of `post` stands a pair of braces: one that opens, other characters
than one that closes, and one that closes. -/
structure Braces (s pre inner post : Text) : Prop where
  split : s = pre ++ braced inner ++ post
  open_inside : 0x7d ∉ inner

/-- No pair of braces begins further to the left. -/
structure Leftmost (s pre inner post : Text) : Prop extends Braces s pre inner post where
  first (pre' inner' post' : Text) : Braces s pre' inner' post' → pre.length ≤ pre'.length

/-- All pairs of braces from the left to the right, none of which overlap: what stands between each
and the one before, and inside of it. Behind the last one there are no more. -/
inductive Matches : Text → List (Text × Text) → Text → Prop
  | none {s : Text} : (∀ pre inner post, ¬ Braces s pre inner post) → Matches s [] s
  | next {s pre inner post last : Text} {ms : List (Text × Text)} : Leftmost s pre inner post →
      Matches post ms last → Matches s ((pre, inner) :: ms) last

/-- A pair of braces does not begin in front of the first one that opens. -/
theorem Braces.exists_append {before rest : Text}
    (h : Braces (before ++ 0x7b :: rest) pre inner post)
    (hb : 0x7b ∉ before) : ∃ mid, pre = before ++ mid := by
  have hsplit := h.split
  rw [List.append_assoc] at hsplit
  rcases List.append_eq_append_iff.mp hsplit with ⟨mid, hpre, -⟩ | ⟨mid, rfl, hmid⟩
  · exact ⟨mid, hpre⟩
  · cases mid with
    | nil => exact ⟨[], by simp⟩
    | cons b mid =>
      obtain ⟨rfl, -⟩ := List.cons.inj hmid
      exact absurd (by simp) hb

theorem textPieces_of_not_open (h : Text.cut? 0x7b s = none) : textPieces s = [.plain s] := by
  rw [textPieces]
  split
  · rfl
  · rename_i hsome
    cases h.symm.trans hsome

theorem textPieces_of_not_closed {before rest : Text} (h : Text.cut? 0x7b s = some (before, rest))
    (h' : Text.cut? 0x7d rest = none) : textPieces s = [.plain s] := by
  rw [textPieces]
  split
  · rfl
  · rename_i hopen
    cases h.symm.trans hopen
    split
    · rfl
    · rename_i hclosed
      cases h'.symm.trans hclosed

theorem textPieces_of_closed {before rest after : Text} (h : Text.cut? 0x7b s = some (before, rest))
    (h' : Text.cut? 0x7d rest = some (inner, after)) :
    textPieces s = .plain before :: .braced inner :: textPieces after := by
  rw [textPieces]
  split
  · rename_i hopen
    cases h.symm.trans hopen
  · rename_i hopen
    cases h.symm.trans hopen
    split
    · rename_i hclosed
      cases h'.symm.trans hclosed
    · rename_i hclosed
      cases h'.symm.trans hclosed
      rfl

/-- **Texts are taken apart at the leftmost pairs of braces.** Each of them gives two pieces, and
what is behind the last gives another one. -/
theorem matches_textPieces (s : Text) : ∃ ms last, Matches s ms last ∧ textPieces s =
    (ms.flatMap fun m => [.plain m.1, .braced m.2]) ++ [.plain last] := by
  induction s using textPieces.induct with
  | case1 s hopen =>
    refine ⟨[], s, .none fun pre inner post h => ?_, textPieces_of_not_open hopen⟩
    refine Text.cut?_eq_none_iff.mp hopen ?_
    rw [h.split, braced]
    simp
  | case2 s before rest hopen hclose =>
    refine ⟨[], s, .none fun pre inner post h => ?_, textPieces_of_not_closed hopen hclose⟩
    obtain ⟨rfl, hb⟩ := Text.cut?_eq_some hopen
    refine Text.cut?_eq_none_iff.mp hclose ?_
    obtain ⟨mid, rfl⟩ := h.exists_append hb
    have hsplit := h.split
    rw [List.append_assoc, List.append_assoc, List.append_cancel_left_eq] at hsplit
    -- what opens last in front of the closing brace is inside of the rest
    cases mid with
    | nil =>
      obtain rfl := (List.cons.inj hsplit).2
      simp
    | cons b mid =>
      obtain rfl := (List.cons.inj hsplit).2
      simp [braced]
  | case3 s before rest hopen inner after hclose ih =>
    obtain ⟨ms, last, hms, hpieces⟩ := ih
    refine ⟨(before, inner) :: ms, last, .next ⟨⟨?_, ?_⟩, fun pre' inner' post' h => ?_⟩ hms, ?_⟩
    · rw [(Text.cut?_eq_some hopen).1, (Text.cut?_eq_some hclose).1, braced]
      simp
    · exact (Text.cut?_eq_some hclose).2
    · obtain ⟨rfl, hb⟩ := Text.cut?_eq_some hopen
      obtain ⟨mid, rfl⟩ := h.exists_append hb
      rw [List.length_append]
      exact Nat.le_add_right _ _
    · rw [textPieces_of_closed hopen hclose, hpieces]
      rfl

/-! ### Items -/

/-- A piece of character data as it goes into the tree. -/
inductive Item where
  /-- Output. -/
  | literal (t : Text)
  /-- An expression for an engine, which was written as `inner`. -/
  | expression (inner engine source : Text)

namespace Item

/-- The item as it was written. -/
def written : Item → Text
  | literal t => t
  | expression inner _ _ => braced inner

/-- What an expression was written as, its engine and its source. -/
def expression? : Item → Option (Text × Text × Text)
  | literal _ => none
  | expression inner engine source => some (inner, engine, source)

/-- The nodes of a text with one more item. Output joins the output in front of it. -/
def put (ps : List Payload) : Item → List Payload
  | literal t =>
    match ps.getLast? with
    | some (.cdata old) => ps.dropLast ++ [.cdata (old ++ t.escapeContent)]
    | _ => ps ++ [.cdata t.escapeContent]
  | expression _ engine source => ps ++ [.expression source engine]

/-- The item as a scrap. -/
def scrap (line : Nat) : Item → Scrap
  | literal t => .data line t.escapeContent
  | expression _ engine source => .node line (.expression source engine)

end Item

/-- The engine of what stands between braces, and its source. -/
def engineOf (r : Option Resolver) (inner : Text) : Text × Text :=
  (splitExpression? r inner).getD ((r.map (·.defaultEngine)).getD [], inner)

/-- What stands between braces is an expression: it is not blank, and has another engine than the
one that marks a literal. -/
def IsExpression (r : Option Resolver) (inner : Text) : Prop :=
  ¬ inner.isBlank ∧ (engineOf r inner).1 ≠ nullEngine

instance (r : Option Resolver) (inner : Text) : Decidable (IsExpression r inner) :=
  inferInstanceAs (Decidable (_ ∧ _))

/-- What is read where braces were written: without them for the engine that marks a literal. -/
def shown (r : Option Resolver) (inner : Text) : Text :=
  if ¬ inner.isBlank ∧ (engineOf r inner).1 = nullEngine then (engineOf r inner).2 else braced inner

/-- The item for a pair of braces. -/
def itemOf (r : Option Resolver) (inner : Text) : Item :=
  if IsExpression r inner then .expression inner (engineOf r inner).1 (engineOf r inner).2
  else .literal (shown r inner)

/-- Output, if there is any. -/
def literals (t : Text) : List Item := if t = [] then [] else [.literal t]

/-- The items of a text with the given pairs of braces. -/
def itemsOf (r : Option Resolver) (ms : List (Text × Text)) (last : Text) : List Item :=
  (ms.flatMap fun m => literals m.1 ++ [itemOf r m.2]) ++ literals last

/-- There is always a source. -/
theorem engineOf_ne_nil (h : ¬ inner.isBlank) : (engineOf r inner).2 ≠ [] := by
  rw [engineOf]
  cases hsplit : splitExpression? r inner with
  | some found => exact source_ne_nil_of_splitExpression? hsplit
  | none =>
    intro hnil
    obtain rfl : inner = [] := hnil
    exact h rfl

theorem itemOf_of_blank (h : inner.isBlank) : itemOf r inner = .literal (braced inner) := by
  rw [itemOf, if_neg fun hexp : IsExpression r inner => hexp.1 h, shown,
    if_neg fun hshown => hshown.1 h]

theorem itemOf_of_null (h : ¬ inner.isBlank) (hnull : (engineOf r inner).1 = nullEngine) :
    itemOf r inner = .literal (engineOf r inner).2 := by
  rw [itemOf, if_neg fun hexp : IsExpression r inner => hexp.2 hnull, shown, if_pos ⟨h, hnull⟩]

theorem itemOf_of_isExpression (h : IsExpression r inner) :
    itemOf r inner = .expression inner (engineOf r inner).1 (engineOf r inner).2 := if_pos h

theorem written_itemOf : (itemOf r inner).written = shown r inner := by
  rw [itemOf]
  split
  · rename_i h
    rw [shown, if_neg fun h' => h.2 h'.2]
    rfl
  · rfl

theorem expression?_itemOf : (itemOf r inner).expression? =
    if IsExpression r inner then some (inner, engineOf r inner) else none := by
  rw [itemOf]
  split <;> rfl

theorem flatMap_written_literals (t : Text) : (literals t).flatMap Item.written = t := by
  rw [literals]
  split
  · rename_i h
    rw [h]
    rfl
  · exact List.flatMap_singleton ..

theorem filterMap_expression?_literals (t : Text) :
    (literals t).filterMap Item.expression? = [] := by
  rw [literals]
  split <;> rfl

/-- The items of a text are written one after the other as the text is, with the sources of literals
in place of their braces. -/
theorem flatMap_written_itemsOf : (itemsOf r ms last).flatMap Item.written =
    (ms.flatMap fun m => m.1 ++ shown r m.2) ++ last := by
  rw [itemsOf, List.flatMap_append, flatMap_written_literals, List.flatMap_assoc]
  congr 2
  funext m
  rw [List.flatMap_append, flatMap_written_literals, List.flatMap_singleton, written_itemOf]

/-- The expressions of a text are those between its braces, in order. -/
theorem filterMap_expression?_itemsOf : (itemsOf r ms last).filterMap Item.expression? =
    ((ms.map Prod.snd).filter (IsExpression r ·)).map fun inner => (inner, engineOf r inner) := by
  rw [itemsOf, List.filterMap_append, filterMap_expression?_literals, List.append_nil]
  induction ms with
  | nil => rfl
  | cons m ms ih =>
    rw [List.flatMap_cons, List.filterMap_append, List.filterMap_append,
      filterMap_expression?_literals, List.nil_append, ih, List.filterMap_cons, expression?_itemOf,
      List.map_cons, List.filter_cons]
    by_cases h : IsExpression r m.2
    · simp [h]
    · simp [h]

/-- The item that a piece of character data becomes. -/
def TextPiece.items (r : Option Resolver) : TextPiece → List Item
  | plain t => literals t
  | braced t => [itemOf r t]

/-- The pieces of a text become its items. -/
theorem flatMap_items_textPieces (s : Text) : ∃ ms last, Matches s ms last ∧
    (textPieces s).flatMap (·.items r) = itemsOf r ms last := by
  obtain ⟨ms, last, hms, hpieces⟩ := matches_textPieces s
  refine ⟨ms, last, hms, ?_⟩
  rw [hpieces, List.flatMap_append, List.flatMap_assoc, itemsOf]
  simp [TextPiece.items]

/-! ### Nodes of a text -/

namespace Store

open Item (put)

variable {s s' s₀ s₁ : Store} {p t c : NodeId} {ps : List Payload} {ns : List Node} {item : Item}
  {items : List Item} {line : Nat}

/-- The children of a node are, in order, what is listed. -/
def Consists (s : Store) (t : NodeId) (ps : List Payload) : Prop :=
  (s.children t).map s.payload? = ps.map some

theorem Consists.unique {ps' : List Payload} (h : s.Consists t ps) (h' : s.Consists t ps') :
    ps = ps' :=
  List.map_injective_iff.mpr (Option.some_injective _) (h.symm.trans h')

/-- What can stand in a text has no ties. -/
theorem loose_eq_of_fits {q : Payload} (h : NodeKind.text.admits q.nodeKind) : q.loose = q := by
  cases q <;> simp_all [NodeKind.admits, Payload.nodeKind, Payload.loose]

theorem Holds.payload?_leaf {node : Node} (h : s.Holds c (.leaf node)) (hfit : node.Fits) :
    s.payload? c = some node.payload := by
  obtain ⟨q, hq, hloose⟩ := Option.map_eq_some_iff.mp (payload?_of_loose (holds_iff.mp h).1)
  have hkind : NodeKind.text.admits q.nodeKind := by
    rw [← Payload.nodeKind_loose, hloose]
    exact hfit
  rw [hq, ← hloose, loose_eq_of_fits hkind]

theorem Under.consists (h : s.Under t (ns.map .leaf)) (hfit : ∀ node ∈ ns, node.Fits) :
    s.Consists t (ns.map (·.payload)) := by
  rw [Consists]
  rw [Under, List.forall₂_map_right_iff] at h
  generalize s.children t = l at h ⊢
  induction h with
  | nil => rfl
  | cons hc _ ih =>
    rw [List.forall_mem_cons] at hfit
    rw [List.map_cons, List.map_cons, List.map_cons, ih hfit.2, hc.payload?_leaf hfit.1]

theorem not_admits_of_text {k l : NodeKind} (h : NodeKind.text.admits k) : ¬ k.admits l := by
  cases k <;> cases l <;> simp_all [NodeKind.admits]

/-- A text has no content but the nodes in it. -/
theorem WellFormed.exists_leaves (h : s.WellFormed) (ht : s.kind? t = some .text) :
    ∃ ns : List Node, (∀ node ∈ ns, node.Fits) ∧ s.Under t (ns.map .leaf) := by
  have hleaf : ∀ c ∈ s.children t, ∃ node : Node, node.Fits ∧ s.Holds c (.leaf node) := by
    intro c hc
    obtain ⟨k, l, hk, hl, hadmits⟩ := h.fits c t (h.mem_children.mp hc)
    obtain rfl := Option.some.inj (ht.symm.trans hk)
    obtain ⟨q, hq, rfl⟩ := Option.map_eq_some_iff.mp hl
    obtain ⟨node, hnode, rfl⟩ := Option.map_eq_some_iff.mp hq
    refine ⟨node.loose, ?_, holds_iff.mpr ⟨?_, ?_, ?_⟩⟩
    · rw [Node.Fits, Node.loose, Payload.nodeKind_loose]
      exact hadmits
    · rw [loose, hnode]
      rfl
    · rw [attributes_of_not_element]
      · rfl
      · rw [element?, hq]
        cases hp : node.payload <;> simp_all [NodeKind.admits, Payload.nodeKind]
    · have hnone : s.children c = [] := by
        refine List.eq_nil_iff_forall_not_mem.mpr fun d hd => ?_
        obtain ⟨k, l, hk, -, hbelow⟩ := h.fits d c (h.mem_children.mp hd)
        obtain rfl := Option.some.inj (hl.symm.trans hk)
        exact not_admits_of_text hadmits hbelow
      rw [hnone]
      exact .nil
  change ∃ ns : List Node, (∀ node ∈ ns, node.Fits) ∧ (s.children t).Forall₂ s.Holds (ns.map .leaf)
  generalize s.children t = l at hleaf ⊢
  induction l with
  | nil => exact ⟨[], by simp, .nil⟩
  | cons c l ih =>
    rw [List.forall_mem_cons] at hleaf
    obtain ⟨node, hfit, hc⟩ := hleaf.1
    obtain ⟨ns, hfits, hns⟩ := ih hleaf.2
    exact ⟨node :: ns, List.forall_mem_cons.mpr ⟨hfit, hfits⟩, .cons hc hns⟩

/-- Nodes of a text with one more item. -/
theorem payloads_join (line : Nat) :
    (join ns (item.scrap line)).map (·.payload) = put (ns.map (·.payload)) item := by
  cases item with
  | expression inner engine source => simp [join, Item.scrap, put]
  | literal t =>
    rw [Item.scrap, join, put, List.getLast?_map]
    cases hlast : ns.getLast? with
    | none => simp [List.getLast?_eq_none_iff.mp hlast]
    | some node => cases hp : node.payload <;> simp [hp, List.map_dropLast]

theorem fits_scrap : (item.scrap line).Fits := by cases item <;> trivial

/-- An item was put at the end of a text. -/
structure Puts (t : NodeId) (item : Item) (s s' : Store) : Prop where
  tends : Tends t s s'
  consists : ∃ ps, s.Consists t ps ∧ s'.Consists t (put ps item)

theorem Puts.of_under (line : Nat) (hu : s.Under t (ns.map .leaf)) (hfit : ∀ node ∈ ns, node.Fits)
    (h : Tends t s s' ∧ s'.Under t ((join ns (item.scrap line)).map .leaf)) : Puts t item s s' where
  tends := h.1
  consists := by
    refine ⟨_, hu.consists hfit, ?_⟩
    rw [← payloads_join line]
    exact h.2.consists (fits_of_mem_join hfit fits_scrap)

/-- Output is put at the end of a text. -/
theorem Puts.appendData (hw : s.WellFormed) (ho : s.Owned)
    (ht : s.kind? t = some .text) (data : Text) :
    Puts t (.literal data) s (s.appendData t data.escapeContent) := by
  obtain ⟨ns, hfit, hu⟩ := hw.exists_leaves ht
  by_cases hns : ns = []
  · subst hns
    have hlast : s.lastChild? t = none := hu.lastChild?_eq_none hw
    rw [Store.appendData, hlast, Option.bind_none]
    exact .of_under 0 hu hfit (hu.addLeaf hw ho ht rfl rfl rfl)
  · exact .of_under 0 hu hfit (hu.appendData hw ho ht hns)

/-- A node is put at the end of a text. -/
theorem Puts.addLeaf {payload : Payload} (hw : s.WellFormed) (ho : s.Owned)
    (ht : s.kind? t = some .text)
    (hscrap : item.scrap line = .node line payload) (hfit : NodeKind.text.admits payload.nodeKind) :
    Puts t item s ((s.add { payload, line }).2.attachLast t (s.add { payload, line }).1) := by
  obtain ⟨ns, hfits, hu⟩ := hw.exists_leaves ht
  refine .of_under line hu hfits ?_
  rw [hscrap]
  exact hu.addLeaf hw ho ht rfl (loose_eq_of_fits hfit) hfit

/-! ### The end of a node -/

/-- Items were put at the end of a node: in the text that it ended with or, where it did not end
with a text, in a new one. Nothing else has changed. -/
inductive Grown (p : NodeId) (items : List Item) (s s' : Store) : Prop
  | nothing (hitems : items = []) (hsame : s' = s)
  | text (t : NodeId) (ps : List Payload)
      (hlast : s.lastChild? p = some t) (htext : s.payload? t = some .text)
      (hchildren : s'.children p = s.children p) (htends : Tends t s s')
      (hbefore : s.Consists t ps) (hafter : s'.Consists t (items.foldl put ps))
  | new (t : NodeId) (hnew : ¬ s.Has t)
      (hlast : ∀ last, s.lastChild? p = some last → s.payload? last ≠ some .text)
      (htext : s'.payload? t = some .text) (hchildren : s'.children p = s.children p ++ [t])
      (htends : Tends p s s')
      (hview : ∀ n, s.Has n → s.kind? n ≠ some .attr → n ≠ p → s'.view n = s.view n)
      (hafter : s'.Consists t (items.foldl put []))

theorem payload?_eq_text_iff : s.payload? t = some .text ↔ s.kind? t = some .text := by
  rw [kind?]
  cases hp : s.payload? t with
  | none => simp
  | some q => cases q <;> simp [Payload.nodeKind]

/-- Changes below a text leave it one. -/
theorem Tends.payload?_text (h : Tends t s s') (ht : s.payload? t = some .text) :
    s'.payload? t = some .text :=
  payload?_eq_text_iff.mpr (h.kind? t .text (payload?_eq_text_iff.mp ht))

theorem WellFormed.parent?_lastChild? (h : s.WellFormed) (ht : s.lastChild? p = some t) :
    s.parent? t = some p := by
  rw [h.linked.last] at ht
  exact h.mem_children.mp (List.mem_of_getLast? ht)

theorem Grown.of_text (hw : s.WellFormed) (hlast : s.lastChild? p = some t)
    (htext : s.payload? t = some .text) (h : Puts t item s s') : Grown p [item] s s' := by
  obtain ⟨ps, hbefore, hafter⟩ := h.consists
  exact .text t ps hlast htext
    (congrArg View.children (h.tends.of_child hw (hw.parent?_lastChild? hlast)).2)
      h.tends hbefore hafter

/-- Items are put behind items. -/
theorem Grown.trans {items' : List Item} {s'' : Store} (hw : s.WellFormed) (hw' : s'.WellFormed)
    (h : Grown p items s s') (h' : Grown p items' s' s'') : Grown p (items ++ items') s s'' := by
  cases h with
  | nothing hitems hsame =>
    subst hitems hsame
    exact h'
  | text t ps hlast htext hchildren htends hbefore hafter =>
    have hlast' : s'.lastChild? p = some t := by
      rw [hw'.linked.last, hchildren, ← hw.linked.last, hlast]
    cases h' with
    | nothing hitems hsame =>
      subst hitems hsame
      rw [List.append_nil]
      exact .text t ps hlast htext hchildren htends hbefore hafter
    | text t' ps' hlast'' htext' hchildren' htends' hbefore' hafter' =>
      obtain rfl := Option.some.inj (hlast'.symm.trans hlast'')
      obtain rfl := hafter.unique hbefore'
      refine .text t ps hlast htext (hchildren'.trans hchildren)
        (htends.trans hw htends') hbefore ?_
      rw [List.foldl_append]
      exact hafter'
    | new t' _ hnot => exact absurd (htends.payload?_text htext) (hnot t hlast')
  | new t hnew hlast htext hchildren htends hview hafter =>
    have hlast' : s'.lastChild? p = some t := by
      rw [hw'.linked.last, hchildren, List.getLast?_concat]
    cases h' with
    | nothing hitems hsame =>
      subst hitems hsame
      rw [List.append_nil]
      exact .new t hnew hlast htext hchildren htends hview hafter
    | text t' ps' hlast'' htext' hchildren' htends' hbefore' hafter' =>
      obtain rfl := Option.some.inj (hlast'.symm.trans hlast'')
      obtain rfl := hafter.unique hbefore'
      have hbelow := (htends'.of_child hw' (hw'.parent?_lastChild? hlast')).1
      refine .new t hnew hlast (htends'.payload?_text htext) (hchildren'.trans hchildren)
        (htends.trans hw hbelow) (fun n hn hkind hne => ?_) ?_
      · -- the new text is not above anything that was there before
        have hkind' : s'.kind? n ≠ some .attr := by
          obtain ⟨k, hk⟩ := hn.exists_kind?
          rw [htends.kind? n k hk, ← hk]
          exact hkind
        exact (htends'.view n (htends.has hn) hkind'
          (not_above_new hw htends.parent? hn hnew)).trans
          (hview n hn hkind hne)
      · rw [List.foldl_append]
        exact hafter'
    | new t' _ hnot => exact absurd htext (hnot t hlast')

/-- What is seen elsewhere when a node is attached. -/
theorem WellFormed.view_attachLast_of_ne {n : NodeId} (h : s.WellFormed)
    (hc : s.Has c) (hp : s.Has p)
    (halone : s.parent? c = none) (hn : n ≠ p) : (s.attachLast p c).view n = s.view n := by
  refine view_congr loose_attachLast (attributes_congr payload?_attachLast)
    (fun _ _ => loose_attachLast) ?_
  rw [(h.linked.attachLast hc hp halone).children_eq, Function.update_of_ne hn]

/-- A new node that can stand in a text. -/
theorem Sprout.of_fits {payload : Payload} (line : Nat) (hw : s.WellFormed)
    (hfit : NodeKind.text.admits payload.nodeKind) :
    Sprout s (s.add { payload, line }).2 (s.add { payload, line }).1 (.leaf { payload, line }) := by
  have h : Sprout s (s.add { payload, line }).2 (s.add { payload, line }).1
      (.node (some (Node.loose { payload, line })) [] []) := by
    refine .leaf hw rfl ?_ ?_
    · cases payload <;> simp_all [Payload.isElement, NodeKind.admits, Payload.nodeKind]
    · cases payload <;> simp_all [NodeKind.admits, Payload.nodeKind]
  rwa [Node.loose, loose_eq_of_fits hfit] at h

/-- A new text becomes the last child of a node. -/
theorem Grown.attachLast {node : Node} {textLine : Nat} (hw : s.WellFormed) (ho : s.Owned)
    (hp : s.IsOpen p) (hlast : ∀ last, s.lastChild? p = some last → s.payload? last ≠ some .text)
    (h : Sprout s s₁ t (.node (some { payload := .text, line := textLine }) [] [.leaf node]))
    (hfit : node.Fits) (hput : put [] item = [node.payload]) :
    Grown p [item] s (s₁.attachLast p t) := by
  have hpay : s₁.payload? t = some .text := by
    obtain ⟨q, hq, hloose⟩ := Option.map_eq_some_iff.mp (payload?_of_loose (holds_iff.mp h.holds).1)
    rw [hq]
    cases q <;> simp_all [Payload.loose]
  obtain ⟨k, hk, hadmits, -⟩ := hp.admits
  have hk' : s₁.kind? p = some k := (h.kind?_kept hp.has).trans hk
  have hfits : s₁.Fits p t := ⟨k, .text, hk', payload?_eq_text_iff.mp hpay, hadmits⟩
  have hkept {n : NodeId} (hn : s.Has n) : s₁.view n = s.view n :=
    hw.view_of_untouched ho.listed h.kept hn
  obtain ⟨cs, hu⟩ : ∃ cs, s.Under p cs := by
    obtain ⟨c, hc⟩ := hw.exists_holds p
    exact ⟨_, (holds_iff.mp hc).2.2⟩
  obtain ⟨htends, hunder⟩ := h.attach hw ho hfits hp.has hu
  have hview := (h.wellFormed.view_attachLast (has_of_kind? hk') h.placeable.has h.alone).1
  refine .new t h.new hlast (payload?_attachLast.trans hpay) ?_ htends (fun n hn _ hne => ?_) ?_
  · have hchildren : s₁.children p = s.children p := congrArg View.children (hkept hp.has)
    rw [← hchildren]
    exact congrArg View.children hview
  · rw [h.wellFormed.view_attachLast_of_ne h.placeable.has (has_of_kind? hk') h.alone hne, hkept hn]
  · -- the node that stood in the text still does
    have hw' := h.wellFormed.attachLast hfits (h.not_above hw hp.has) h.alone
    obtain ⟨-, t', -, -, hholds, hlast', -⟩ := hunder.exists_last hw'
    have hlastChild := h.wellFormed.lastChild?_attachLast (has_of_kind? hk') h.placeable.has h.alone
    obtain rfl := Option.some.inj (hlastChild.symm.trans hlast')
    have hinner : (s₁.attachLast p t).Under t ([node].map .leaf) := (holds_iff.mp hholds).2.2
    rw [List.foldl_cons, List.foldl_nil, hput]
    exact hinner.consists (by simpa using hfit)

/-! ### Character data -/

variable {payload : Payload}

theorem lastChild?_add_eq (hw : s.WellFormed) {node : Node} (hlinks : node.links = {}) :
    ((s.add node).2.lastChild? p).bind (s.add node).2.payload? =
    (s.lastChild? p).bind s.payload? := by
  rw [lastChild?_add hlinks]
  cases hlast : s.lastChild? p with
  | none => rfl
  | some t => exact payload?_add_of_has (has_of_parent? (hw.parent?_lastChild? hlast))

/-- A node is put at the end of a node that does not end with a text. -/
theorem Grown.appendToText_new (hb : Built s₀ s) (hp : s.IsOpen p)
    (hlast : ∀ last, s.lastChild? p = some last → s.payload? last ≠ some .text)
    (hput : put [] item = [payload]) (hfit : NodeKind.text.admits payload.nodeKind) :
    Grown p [item] s
      (Tree.appendToText (s.add { payload, line }).2 p (s.add { payload, line }).1 line) := by
  rw [Tree.appendToText, lastChild?_add_eq hb.wellFormed rfl, lastChild?_add rfl]
  split
  · rename_i t hlast' htext
    rw [hlast', Option.bind_some] at htext
    exact absurd htext (hlast t hlast')
  · have hsprout := Sprout.of_fits line hb.wellFormed hfit
    have hadd : Adds s₀ s (s.add { payload, line }).2 := (Adds.refl hb).add rfl
      (by cases payload <;> simp_all [NodeKind.admits, Payload.nodeKind, Payload.table])
      (by cases payload <;> simp_all [NodeKind.admits, Payload.nodeKind, Payload.isElement])
    exact .attachLast hb.wellFormed hb.owned hp hlast
      (hsprout.text line hadd.after.owned ⟨_, kind?_add_self, hfit⟩) hfit hput

/-- An expression is put at the end of a node. -/
theorem Grown.appendToText {inner engine source : Text} (hb : Built s₀ s) (hp : s.IsOpen p) :
    Grown p [.expression inner engine source] s
      (Tree.appendToText (s.add { payload := .expression source engine, line }).2 p
        (s.add { payload := .expression source engine, line }).1 line) := by
  by_cases hlast : ∃ t, s.lastChild? p = some t ∧ s.payload? t = some .text
  · obtain ⟨t, hlast, htext⟩ := hlast
    rw [Tree.appendToText, lastChild?_add_eq hb.wellFormed rfl, lastChild?_add rfl, hlast,
      Option.bind_some, htext]
    exact .of_text hb.wellFormed hlast htext
      (.addLeaf hb.wellFormed hb.owned (payload?_eq_text_iff.mp htext) rfl rfl)
  · exact .appendToText_new hb hp (fun t ht htext => hlast ⟨t, ht, htext⟩) rfl rfl

/-- Output is put at the end of a node. -/
theorem Grown.appendText (hb : Built s₀ s) (hp : s.IsOpen p) (data : Text) :
    Grown p (literals data) s (Tree.appendText s p data line) := by
  rw [Tree.appendText, literals]
  split
  · exact .nothing rfl rfl
  · dsimp only
    split
    · rename_i t hlast htext
      rw [hlast, Option.bind_some] at htext
      exact .of_text hb.wellFormed hlast htext
        (.appendData hb.wellFormed hb.owned (payload?_eq_text_iff.mp htext) data)
    · rename_i hnot
      refine .appendToText_new hb hp (fun t hlast htext => hnot t hlast ?_) rfl rfl
      rw [hlast, Option.bind_some, htext]

theorem Grown.appendPiece {piece : TextPiece} (hb : Built s₀ s) (hp : s.IsOpen p) :
    Grown p (piece.items r) s (Tree.appendPiece r p line s piece) := by
  cases piece with
  | plain t => exact .appendText hb hp t
  | braced t =>
    have hliteral {u : Text} (hu : u ≠ []) :
        Grown p [.literal u] s (Tree.appendText s p u line) := by
      have h : Grown p (literals u) s (Tree.appendText s p u line) := .appendText hb hp u
      rwa [literals, if_neg hu] at h
    rw [Tree.appendPiece, TextPiece.items]
    by_cases hblank : t.isBlank
    · rw [if_pos hblank, itemOf_of_blank hblank]
      exact hliteral (List.cons_ne_nil _ _)
    · rw [if_neg hblank]
      change Grown p _ s (if (engineOf r t).1 = nullEngine then
        Tree.appendText s p (engineOf r t).2 line else _)
      by_cases hnull : (engineOf r t).1 = nullEngine
      · rw [if_pos hnull, itemOf_of_null hblank hnull]
        exact hliteral (engineOf_ne_nil hblank)
      · rw [if_neg hnull, itemOf_of_isExpression ⟨hblank, hnull⟩]
        exact .appendToText hb hp

theorem Grown.appendPieces {pieces : List TextPiece} (hb : Built s₀ s) (hp₀ : ¬ s₀.Has p)
    (hp : s.IsOpen p) :
    Grown p (pieces.flatMap (·.items r)) s (Tree.appendPieces r p line s pieces) := by
  induction pieces generalizing s line with
  | nil => exact .nothing rfl rfl
  | cons piece pieces ih =>
    have hadds : Adds s₀ s (Tree.appendPiece r p line s piece) := .appendPiece hb hp₀ hp
    rw [List.flatMap_cons]
    exact .trans hb.wellFormed hadds.after.wellFormed (.appendPiece hb hp)
      (ih hadds.after (hadds.isOpen hp))

end Store

/-! ### Assemblies -/

/-- **No character data is lost or doubled.** Whatever was collected inside of a node, as events
leave it behind (`Assembly.Inside`), goes into the tree as the items of its text, in order: the
leftmost pairs of braces that do not overlap, each of them an expression unless it is blank or marks
a literal, and what stands between. Written one after the other the items are what was collected,
with the sources of literals in place of their braces, and they grow the text at the end of the
node, output being escaped. -/
theorem Assembly.flush_keeps_characters {a : Assembly} {p : NodeId} (hw : a.store.WellFormed)
    (ho : a.store.Owned) (hl : a.store.Labelled) (hcurrent : a.current? = some p)
    (hopen : a.store.IsOpen p) : ∃ ms last,
      Matches a.pending.reverse.flatten ms last ∧
      (itemsOf r ms last).flatMap Item.written = (ms.flatMap fun m => m.1 ++ shown r m.2) ++ last ∧
      (itemsOf r ms last).filterMap Item.expression? =
        ((ms.map Prod.snd).filter (IsExpression r ·)).map (fun inner => (inner, engineOf r inner)) ∧
      Store.Grown p (itemsOf r ms last) a.store (a.flush r).store ∧ (a.flush r).pending = [] := by
  obtain ⟨ms, last, hms, hitems⟩ := flatMap_items_textPieces (r := r) a.pending.reverse.flatten
  refine ⟨ms, last, hms, flatMap_written_itemsOf, filterMap_expression?_itemsOf, ?_, ?_⟩
  · have hempty (n : NodeId) : ¬ Store.Has {} n := Nat.not_lt_zero n
    have hb : Store.Built {} a.store :=
      ⟨Store.wellFormed_empty, hw, ho, hl, fun n hn => absurd hn (hempty n)⟩
    rw [← hitems, Assembly.flush, hcurrent]
    exact .appendPieces hb (hempty p) hopen
  · rw [Assembly.flush, hcurrent]

/-- A blank pair of braces, a literal and an expression inside of an element. -/
theorem exists_flush_keeps_characters : ∃ (a : Assembly) (p : NodeId),
    a.pending.reverse.flatten = "a\x7b \x7d\x7bnull:b\x7d\x7b$c\x7dd" ∧ a.store.WellFormed ∧
      a.store.Owned ∧ a.store.Labelled ∧ a.current? = some p ∧ a.store.IsOpen p ∧ ∃ ms last,
        Matches a.pending.reverse.flatten ms last ∧
        (itemsOf none ms last).flatMap Item.written =
          (ms.flatMap fun m => m.1 ++ shown none m.2) ++ last ∧
        (itemsOf none ms last).filterMap Item.expression? = ((ms.map Prod.snd).filter
          (IsExpression none ·)).map (fun inner => (inner, engineOf none inner)) ∧
        Store.Grown p (itemsOf none ms last) a.store (a.flush none).store ∧
        (a.flush none).pending = [] := by
  obtain ⟨doc, -, -, hdoc⟩ :=
    Assembly.startDocument_inside 1 Store.wellFormed_empty Store.owned_empty
    Store.labelled_empty
  let opened := ((Assembly.startDocument 1 { store := {} }).flush none).startElement none 1
    ⟨⟨[], "p"⟩, [], false⟩
  have hflush : (Assembly.startDocument 1 { store := {} }).flush none =
      Assembly.startDocument 1 {} := by
    have hpieces : textPieces ([] : List Text).reverse.flatten = [.plain []] :=
      textPieces_of_not_open rfl
    simp only [Assembly.flush, Assembly.current?, Assembly.startDocument, List.head?_cons, hpieces]
    rfl
  have haccepted : opened.1 = .ok () := by
    change (((Assembly.startDocument 1 { store := {} }).flush none).startElement none 1 _).1 =
      .ok ()
    rw [hflush]
    rfl
  obtain ⟨p, h, -⟩ := hdoc.startElement (Prod.ext haccepted rfl)
  let text : Text := "a\x7b \x7d\x7bnull:b\x7d\x7b$c\x7dd"
  have hb := h.built
  refine ⟨{ opened.2 with pending := [text] }, p, List.append_nil _, hb.wellFormed,
    hb.owned, hb.labelled, h.current, h.isOpen, ?_⟩
  exact Assembly.flush_keeps_characters hb.wellFormed hb.owned hb.labelled h.current h.isOpen

end Tree
end Stencil
