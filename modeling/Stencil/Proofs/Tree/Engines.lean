import Stencil.Proofs.Text.Pieces
import Stencil.Proofs.Tree.Braces

/-!
# Engines named in character data

The name of an engine in front of what stands between braces is taken for one if at least two
letters, digits or underscores stand in front of the first colon, and no second colon behind it.
What stands between braces may have several lines, but a name is recognised only in front of a
source of one line: if a line ends behind the first character of the source, then the name and its
colon become part of it, and it goes to the engine of expressions that name none.

## Main results

* `Expression.splitEngine?_named` – when a name is split off
* `Tree.engineOf_named` – the engine of what stands between braces
* `Tree.Assembly.flush_named_iff` – what becomes of character data that names an engine
-/

namespace Stencil

/-! ### Names in front of sources -/

namespace Expression

variable {b : UInt8} {e x : Text}

theorem isEngineSource_iff : isEngineSource x ↔ x ≠ [] ∧ x.head? ≠ some 0x3a ∧ 0xa ∉ x.tail := by
  cases x <;> simp [isEngineSource]

/-- The bytes of names are ASCII characters, and neither colons nor braces nor blanks. -/
theorem of_isEngineByte (h : isEngineByte b) : b.toNat < 128 ∧ b ≠ 0x3a ∧ b ≠ 0x7d ∧
    isSpace (Char.ofNat b.toNat) = false := by
  have hall : ∀ n < 256, isEngineByte (UInt8.ofNat n) → n < 128 ∧ UInt8.ofNat n ≠ 0x3a ∧
      UInt8.ofNat n ≠ 0x7d ∧ isSpace (Char.ofNat n) = false := by
    decide +kernel
  have hb := hall b.toNat b.toNat_lt
  rw [UInt8.ofNat_toNat] at hb
  exact hb h

/-- **A name is split off** if it is long enough and what follows its colon can be a source. -/
theorem splitEngine?_named (he : e.all isEngineByte) : splitEngine? (e ++ 0x3a :: x) =
    if 2 ≤ e.length ∧ x ≠ [] ∧ x.head? ≠ some 0x3a ∧ 0xa ∉ x.tail then some (e, x) else none := by
  have hcolon : 0x3a ∉ e := fun h => (of_isEngineByte (List.all_eq_true.mp he _ h)).2.1 rfl
  rw [splitEngine?, Text.cut?_append hcolon]
  simp only [he, Bool.and_eq_true, Bool.and_true, decide_eq_true_eq, isEngineSource_iff]

end Expression

namespace Tree

open Expression

variable {r : Resolver} {s s' : Store} {p : NodeId} {e x inner : Text} {i j : Item}

/-- A name that is followed by a colon is not blank. -/
theorem not_isBlank_named (he : e.all isEngineByte) (hne : e ≠ []) :
    (e ++ x).isBlank = false := by
  obtain ⟨b, e, rfl⟩ := List.exists_cons_of_ne_nil hne
  obtain ⟨hascii, -, -, hspace⟩ := of_isEngineByte (List.all_eq_true.mp he b List.mem_cons_self)
  rw [Text.isBlank, List.cons_append, Text.pieces_cons_of_ascii hascii, List.all_cons,
    Text.Piece.isSpace, hspace, Bool.false_and]

/-- **The engine of what stands between braces** behind the name of a registered engine. -/
theorem engineOf_named (hengine : r.hasEngine e) (hlength : 2 ≤ e.length) (he : e.all isEngineByte)
    (hx : x ≠ []) (hcolon : x.head? ≠ some 0x3a) : engineOf (some r) (e ++ 0x3a :: x) =
      if 0xa ∈ x.tail then (r.defaultEngine, e ++ 0x3a :: x) else (e, x) := by
  rw [engineOf, splitExpression?, splitEngine?_named he]
  by_cases hline : 0xa ∈ x.tail
  · rw [if_neg fun h => h.2.2.2 hline, if_pos hline]
    rfl
  · rw [if_pos ⟨hlength, hx, hcolon, hline⟩, if_neg hline]
    simp [hengine]

/-- A single pair of braces is a single item. -/
theorem flatMap_items_braced (h : 0x7d ∉ inner) :
    (textPieces (braced inner)).flatMap (·.items (some r)) = [itemOf (some r) inner] := by
  have hopen : Text.cut? 0x7b (braced inner) = some ([], inner ++ [0x7d]) := by
    rw [braced, List.cons_append, Text.cut?, if_pos rfl]
  have hnone : textPieces [] = [.plain []] := textPieces_of_not_open rfl
  rw [textPieces_of_closed hopen (Text.cut?_append h), hnone]
  rfl

/-! ### What was put into the tree -/

/-- The node that an item ends up in. -/
def Item.last (old : Text) : Item → Payload
  | .literal t => .cdata (old ++ t.escapeContent)
  | .expression _ engine source => .expression source engine

theorem Item.getLast?_put (ps : List Payload) (i : Item) :
    ∃ old, (put ps i).getLast? = some (i.last old) := by
  cases i with
  | expression inner engine source => exact ⟨[], by rw [put, List.getLast?_concat]; rfl⟩
  | literal t =>
    rw [put]
    split
    · rename_i old _
      exact ⟨old, List.getLast?_concat⟩
    · exact ⟨[], List.getLast?_concat⟩

/-- What grew by a single item grew by it alone. -/
theorem Store.Grown.unique (h : Grown p [i] s s') (h' : Grown p [j] s s') :
    ∃ ps, Item.put ps i = Item.put ps j := by
  cases h with
  | nothing hitems => exact absurd hitems (List.cons_ne_nil _ _)
  | text t ps hlast htext hchildren htends hbefore hafter =>
    cases h' with
    | nothing hitems => exact absurd hitems (List.cons_ne_nil _ _)
    | text t' ps' hlast' htext' hchildren' htends' hbefore' hafter' =>
      obtain rfl := Option.some.inj (hlast.symm.trans hlast')
      obtain rfl := hbefore.unique hbefore'
      exact ⟨ps, hafter.unique hafter'⟩
    | new t' _ hnot => exact absurd htext (hnot t hlast)
  | new t hnew hlast htext hchildren htends hview hafter =>
    cases h' with
    | nothing hitems => exact absurd hitems (List.cons_ne_nil _ _)
    | text t' ps' hlast' htext' => exact absurd htext' (hlast t' hlast')
    | new t' hnew' hlast' htext' hchildren' htends' hview' hafter' =>
      have hsame := List.append_cancel_left (hchildren.symm.trans hchildren')
      obtain rfl := (List.cons.inj hsame).1
      exact ⟨[], hafter.unique hafter'⟩

/-- An expression is told from output and from other expressions. -/
theorem Store.Grown.eq_expression {inner engine source : Text}
    (h : Grown p [.expression inner engine source] s s') (h' : Grown p [i] s s') :
    ∃ inner', i = .expression inner' engine source := by
  obtain ⟨ps, heq⟩ := h.unique h'
  obtain ⟨old, hlast⟩ := Item.getLast?_put ps i
  rw [← heq, Item.put, List.getLast?_concat] at hlast
  cases i with
  | literal t => cases hlast
  | expression inner' engine' source' =>
    cases hlast
    exact ⟨inner', rfl⟩

/-- **A name of an engine is recognised in front of a source of one line.** Then character data that
consists of a name and a source between braces becomes exactly one expression, for that engine and
with that source. If a line ends behind the first character of the source, then it becomes one for
the default engine, or output if that engine is the one that marks a literal, with the name and the
colon as part of it. -/
theorem Assembly.flush_named_iff {a : Assembly} (hw : a.store.WellFormed) (ho : a.store.Owned)
    (hl : a.store.Labelled) (hcurrent : a.current? = some p) (hopen : a.store.IsOpen p)
    (hengine : r.hasEngine e) (hnull : e ≠ nullEngine) (hlength : 2 ≤ e.length)
    (he : e.all isEngineByte) (hx : x ≠ []) (hcolon : x.head? ≠ some 0x3a) (hclose : 0x7d ∉ x)
    (hpending : a.pending.reverse.flatten = braced (e ++ 0x3a :: x)) :
    (Store.Grown p [.expression (e ++ 0x3a :: x) e x] a.store (a.flush (some r)).store ↔
        0xa ∉ x.tail) ∧
      (0xa ∈ x.tail → Store.Grown p [if r.defaultEngine = nullEngine then .literal (e ++ 0x3a :: x)
        else .expression (e ++ 0x3a :: x) r.defaultEngine (e ++ 0x3a :: x)]
          a.store (a.flush (some r)).store) := by
  have hgrown : Store.Grown p [itemOf (some r) (e ++ 0x3a :: x)] a.store
      (a.flush (some r)).store := by
    have hempty (n : NodeId) : ¬ Store.Has {} n := Nat.not_lt_zero n
    have hb : Store.Built {} a.store :=
      ⟨Store.wellFormed_empty, hw, ho, hl, fun n hn => absurd hn (hempty n)⟩
    have hclose' : 0x7d ∉ e ++ 0x3a :: x := fun h => by
      rcases List.mem_append.mp h with h | h
      · exact (of_isEngineByte (List.all_eq_true.mp he _ h)).2.2.1 rfl
      · exact hclose ((List.mem_cons.mp h).resolve_left (by decide))
    rw [← flatMap_items_braced hclose', ← hpending, Assembly.flush, hcurrent]
    exact .appendPieces hb (hempty p) hopen
  have hblank : ¬ (e ++ 0x3a :: x).isBlank := by
    rw [not_isBlank_named he
      (List.ne_nil_of_length_pos (Nat.lt_of_lt_of_le Nat.zero_lt_two hlength))]
    exact Bool.false_ne_true
  have hof := engineOf_named hengine hlength he hx hcolon
  by_cases hline : 0xa ∈ x.tail
  · rw [if_pos hline] at hof
    have hitem : itemOf (some r) (e ++ 0x3a :: x) =
        if r.defaultEngine = nullEngine then .literal (e ++ 0x3a :: x)
        else .expression (e ++ 0x3a :: x) r.defaultEngine (e ++ 0x3a :: x) := by
      split
      · rename_i hdefault
        rw [itemOf_of_null hblank (by rw [hof]; exact hdefault), hof]
      · rename_i hdefault
        rw [itemOf_of_isExpression ⟨hblank, by rw [hof]; exact hdefault⟩, hof]
    rw [hitem] at hgrown
    refine ⟨iff_of_false (fun h => ?_) fun h => h hline, fun _ => hgrown⟩
    -- the source would be the same with the name as without it
    obtain ⟨inner, hsame⟩ := h.eq_expression hgrown
    split at hsame
    · cases hsame
    · have hlengths := congrArg List.length (Item.expression.inj hsame).2.2
      simp only [List.length_append, List.length_cons] at hlengths
      omega
  · rw [if_neg hline] at hof
    rw [itemOf_of_isExpression ⟨hblank, by rw [hof]; exact hnull⟩, hof] at hgrown
    exact ⟨iff_of_true hgrown hline, fun h => absurd h hline⟩

/-- Character data inside of an element. -/
theorem Assembly.exists_collecting (text : Text) :
    ∃ (a : Assembly) (p : NodeId), a.pending = [text] ∧
    a.store.WellFormed ∧ a.store.Owned ∧ a.store.Labelled ∧
    a.current? = some p ∧ a.store.IsOpen p := by
  obtain ⟨doc, -, -, hdoc⟩ :=
    Assembly.startDocument_inside 1 Store.wellFormed_empty Store.owned_empty
    Store.labelled_empty
  let opened := ((Assembly.startDocument 1 { store := {} }).flush none).startElement none 1
    ⟨⟨[], "p"⟩, [], false⟩
  have haccepted : opened.1 = .ok () := by
    have hflush : (Assembly.startDocument 1 { store := {} }).flush none =
        Assembly.startDocument 1 {} := by
      have hpieces : textPieces ([] : List Text).reverse.flatten = [.plain []] :=
        textPieces_of_not_open rfl
      simp only [Assembly.flush, Assembly.current?, Assembly.startDocument,
        List.head?_cons, hpieces]
      rfl
    change (((Assembly.startDocument 1 { store := {} }).flush none).startElement none 1 _).1 =
      .ok ()
    rw [hflush]
    rfl
  obtain ⟨p, h, -⟩ := hdoc.startElement (Prod.ext haccepted rfl)
  exact ⟨{ opened.2 with pending := [text] }, p, rfl, h.built.wellFormed, h.built.owned,
    h.built.labelled, h.current, h.isOpen⟩

/-- An engine in front of a source of two lines, inside of an element. -/
theorem exists_flush_named : ∃ (a : Assembly) (p : NodeId) (r : Resolver) (x : Text),
    x = "$a\n+ 1" ∧ a.pending.reverse.flatten = braced (("parse" : Text) ++ 0x3a :: x) ∧
      a.store.WellFormed ∧ a.store.Owned ∧ a.store.Labelled ∧ a.current? = some p ∧
      a.store.IsOpen p ∧ r.hasEngine "parse" ∧
      ¬ Store.Grown p [.expression (("parse" : Text) ++ 0x3a :: x) "parse" x] a.store
        (a.flush (some r)).store := by
  obtain ⟨a, p, hpending, hw, ho, hl, hcurrent, hopen⟩ :=
    Assembly.exists_collecting (braced (("parse" : Text) ++ 0x3a :: ("$a\n+ 1" : Text)))
  have hflatten : a.pending.reverse.flatten =
      braced (("parse" : Text) ++ 0x3a :: ("$a\n+ 1" : Text)) := by
    rw [hpending]
    exact List.append_nil _
  let r : Resolver :=
    { namespaceId := fun _ => none, hasEngine := (· == "parse"), defaultEngine := "str" }
  obtain ⟨hiff, -⟩ := Assembly.flush_named_iff (r := r) hw ho hl hcurrent hopen (e := "parse")
    (x := "$a\n+ 1") (by decide) (by decide) (by decide) (by decide) (by decide) (by decide)
    (by decide) hflatten
  exact ⟨a, p, r, _, rfl, hflatten, hw, ho, hl, hcurrent, hopen, by decide,
    fun h => hiff.mp h (by decide)⟩

end Tree
end Stencil
