import Stencil.Proofs.Markup.Runs
import Stencil.Proofs.Tree.Braces

/-!
# Lines of expressions

An expression in character data says on which line it stands. When character data is put into the
tree, nothing is known any more of how it was written: there is the line on which a run began and
the text of the run, and lines are counted by the line feeds of that text. The stray ones among them
are no lines of the source. So an expression is on the line of the brace that opens it if there are
no stray line feeds in front of it in its run, and otherwise it is too far down by their number.

## Main definitions

* `Content.expressions` – the expressions of a tree, in document order
* `Gathering.next` – the scraps of a whole document, event by event
* `runExpressions` – the expressions of a run of character data

## Main results

* `expressions_contentsOf` – the expressions of a tree in terms of its events
* `expressionsIn_scrapsOfPieces` – the expressions of a text
* `expressionsOf_located` – the expressions among the events of pieces
* `ofSource_lines` – the expressions of a source and their lines
-/

namespace Stencil.Tree

open Markup

/-! ### Expressions of a tree -/

/-- Whether a node is an expression. -/
def Node.isExpression (node : Node) : Bool :=
  match node.payload with
  | .expression .. => true
  | _ => false

/-- The expressions of a tree, in document order. -/
def Content.expressions (c : Content) : List Node :=
  (c.parts.filterMap Content.self).filter Node.isExpression

/-- The node that a scrap adds to a text. -/
def Scrap.node? : Scrap → Option Node
  | data .. => none
  | node line payload => some { payload, line }

/-- The expressions among some scraps. -/
def expressionsIn (scraps : List Scrap) : List Node :=
  (scraps.filterMap Scrap.node?).filter Node.isExpression

variable {r : Option Resolver} {scraps scraps' : List Scrap} {ns : List Node}
  {ls run : List Located}
  {env : Environment} {f : Forest} {g : Gathering} {l : Located} {line : Nat}

@[simp] theorem expressionsIn_append (scraps scraps' : List Scrap) :
    expressionsIn (scraps ++ scraps') = expressionsIn scraps ++ expressionsIn scraps' := by
  rw [expressionsIn, List.filterMap_append, List.filter_append]
  rfl

theorem Content.expressions_node (n : Option Node) (attributes : List (Option Node))
    (below : List Content) : (node n attributes below).expressions =
      n.toList.filter Node.isExpression ++ below.flatMap expressions := by
  have hbelow : ((below.flatMap parts).filterMap self).filter Node.isExpression =
      below.flatMap expressions := by
    rw [List.filterMap_flatMap, List.filter_flatMap]
    rfl
  have hself : [node n attributes below].filterMap self = n.toList := by cases n <;> rfl
  rw [expressions, parts_node, ← List.singleton_append, List.filterMap_append, List.filter_append,
    hself, hbelow]

/-- Joining output to a text does nothing to its expressions. -/
theorem filter_join (scrap : Scrap) : (join ns scrap).filter Node.isExpression =
    ns.filter Node.isExpression ++ expressionsIn [scrap] := by
  cases scrap with
  | node line payload => exact List.filter_append ..
  | data line t =>
    rw [join]
    split
    · rename_i hlast
      rw [List.getLast?_eq_none_iff.mp hlast]
      rfl
    · rename_i node hlast
      split
      · rename_i old hold
        obtain ⟨front, rfl⟩ := List.getLast?_eq_some_iff.mp hlast
        have hnode : [node].filter Node.isExpression = [] := by simp [Node.isExpression, hold]
        rw [List.dropLast_concat, List.filter_append, List.filter_append, hnode, List.append_nil]
        rfl
      · exact List.filter_append ..

theorem filter_foldl_join : (scraps.foldl join ns).filter Node.isExpression =
    ns.filter Node.isExpression ++ expressionsIn scraps := by
  induction scraps generalizing ns with
  | nil => exact (List.append_nil _).symm
  | cons scrap scraps ih =>
    rw [List.foldl_cons, ih, filter_join, List.append_assoc, ← expressionsIn_append,
      List.singleton_append]

theorem Content.expressions_ofScraps : (ofScraps scraps).expressions = expressionsIn scraps := by
  have hleaves (ns : List Node) : (ns.map leaf).flatMap expressions =
      ns.filter Node.isExpression := by
    induction ns with
    | nil => rfl
    | cons node ns ih =>
      rw [List.map_cons, List.flatMap_cons, ih, leaf, expressions_node, List.flatMap_nil,
        List.append_nil, ← List.singleton_append, List.filter_append]
      rfl
  rw [ofScraps, expressions_node, hleaves, filter_foldl_join]
  rfl

theorem expressions_textContent (hfull : ∀ l ∈ run, l.event.IsFull) :
    (textContent r run).flatMap Content.expressions = expressionsIn (scrapsOfRun r run) := by
  rw [textContent]
  split
  · rw [List.flatMap_singleton, Content.expressions_ofScraps]
  · rename_i hany
    rw [(scrapsOfRun_eq_nil_iff hfull).mpr (by simpa using hany)]
    rfl

/-! ### Expressions of events -/

namespace Gathering

/-- One more event of a document. Character data ends with whatever interrupts it. -/
def next (r : Option Resolver) (g : Gathering) (l : Located) : Gathering :=
  if Assembly.endsText l.event then { scraps := (g.add r l).finish r } else g.add r l

/-- What was gathered behind other scraps. -/
def behind (scraps : List Scrap) (g : Gathering) :
    Gathering := { g with scraps := scraps ++ g.scraps }

theorem finish_of_settled (scraps : List Scrap) : ({ scraps } : Gathering).finish r = scraps := by
  have hnone : scrapsOf r 0 [] = [] := scrapsOf_eq_nil_iff.mpr rfl
  rw [finish, List.reverse_nil, List.flatten_nil, hnone, List.append_nil]

@[simp] theorem finish_behind : (g.behind scraps).finish r = scraps ++ g.finish r :=
  List.append_assoc ..

/-- What was gathered before changes nothing. -/
theorem next_behind : (g.behind scraps).next r l = (g.next r l).behind scraps := by
  have hadd : (g.behind scraps).add r l = (g.add r l).behind scraps := by
    rw [add, add]
    split
    · rfl
    · rw [finish_behind, List.append_assoc]
      rfl
    · rw [finish_behind]
      rfl
    · rfl
  rw [next, next, hadd, finish_behind]
  split <;> rfl

theorem foldl_next_behind :
    ls.foldl (next r) (g.behind scraps) = (ls.foldl (next r) g).behind scraps := by
  induction ls generalizing g with
  | nil => rfl
  | cons l ls ih => rw [List.foldl_cons, next_behind, ih, List.foldl_cons]

/-- Where nothing is left to be taken apart, the scraps stay in front. -/
theorem foldl_next_of_settled (scraps : List Scrap) :
    ls.foldl (next r) { scraps } = (ls.foldl (next r) {}).behind scraps := by
  rw [← foldl_next_behind, behind, List.append_nil]

/-- An event of a text is an event of the document. -/
theorem next_of_settled (h : Assembly.endsText l.event → ∃ scraps, g.add r l = { scraps }) :
    g.next r l = g.add r l := by
  rw [next]
  split
  · rename_i hends
    obtain ⟨scraps, hadd⟩ := h hends
    rw [hadd, finish_of_settled]
  · rfl

end Gathering

/-- The expressions among the events of a document. -/
def expressionsOf (r : Option Resolver) (g : Gathering) (ls : List Located) : List Node :=
  expressionsIn ((ls.foldl (Gathering.next r) g).finish r)

/-- What interrupts character data is no expression. -/
theorem expressionsIn_finish_add (hends : Assembly.endsText l.event) :
    expressionsIn ((g.add r l).finish r) = expressionsIn (g.finish r) := by
  rw [Gathering.add]
  cases he : l.event with
  | characters t =>
    rw [he] at hends
    cases hends
  | cdata t =>
    dsimp only
    rw [Gathering.finish_of_settled, expressionsIn_append]
    exact List.append_nil _
  | comment t =>
    dsimp only
    rw [Gathering.finish_of_settled]
  | _ => rfl

/-- What is behind an interruption has nothing to do with what is in front of it. -/
theorem expressionsOf_append_cons {ls' : List Located} (hends : Assembly.endsText l.event) :
    expressionsOf r g (ls ++ l :: ls') = expressionsOf r g ls ++ expressionsOf r {} ls' := by
  rw [expressionsOf, List.foldl_append, List.foldl_cons, Gathering.next, if_pos hends,
    Gathering.foldl_next_of_settled, Gathering.finish_behind, expressionsIn_append,
    expressionsIn_finish_add hends]
  rfl

theorem expressionsOf_cons_of_ends (hends : Assembly.endsText l.event) :
    expressionsOf r g (l :: ls) = expressionsIn (g.finish r) ++ expressionsOf r {} ls := by
  rw [← List.nil_append (l :: ls), expressionsOf_append_cons hends]
  rfl

/-- An event that does not end a text, or whose place in it is known. -/
theorem expressionsOf_cons_of_settled
    (h : Assembly.endsText l.event → ∃ scraps, g.add r l = { scraps }) :
    expressionsOf r g (l :: ls) = expressionsOf r (g.add r l) ls := by
  rw [expressionsOf, List.foldl_cons, Gathering.next_of_settled h]
  rfl

/-- **The expressions of a tree** are those among its events. -/
theorem expressions_contentsOf (hf : Full f) (hrun : ∀ l ∈ run, l.event.IsFull) :
    (contentsOf r env run f).flatMap Content.expressions =
      expressionsOf r (run.foldl (Gathering.add r) {}) f.events := by
  induction f generalizing env run with
  | nil =>
    rw [contentsOf, expressions_textContent hrun]
    rfl
  | single l h rest ih =>
    obtain ⟨hl, hrest⟩ := hf.rest_single
    have hmore : ∀ m ∈ run ++ [l], m.event.IsFull := by
      rw [List.forall_mem_append]
      exact ⟨hrun, by simpa using hl⟩
    have htext (hends : Assembly.endsText l.event → ∃ scraps : List Scrap,
        (run.foldl (Gathering.add r) {}).add r l = { scraps }) :
        (contentsOf r env (run ++ [l]) rest).flatMap Content.expressions =
          expressionsOf r (run.foldl (Gathering.add r) {}) (l :: rest.events) := by
      rw [ih hrest hmore, expressionsOf_cons_of_settled hends, List.foldl_append]
      rfl
    have hcode {node : Node} (hnode : node.isExpression = false)
      (hends : Assembly.endsText l.event) :
        (textContent r run ++ .leaf node :: contentsOf r env [] rest).flatMap Content.expressions =
          expressionsOf r (run.foldl (Gathering.add r) {}) (l :: rest.events) := by
      rw [expressionsOf_cons_of_ends hends, List.flatMap_append, List.flatMap_cons,
        expressions_textContent hrun, ih hrest (by simp), Content.leaf, Content.expressions_node]
      simp [hnode, scrapsOfRun]
    rw [contentsOf, Forest.events]
    cases he : l.event with
    | characters t => exact htext fun hends => by simp [he, Assembly.endsText] at hends
    | cdata t => exact htext fun _ => ⟨_, by rw [Gathering.add, he]⟩
    | comment t => exact htext fun _ => ⟨_, by rw [Gathering.add, he]⟩
    | doctype raw => exact hcode rfl (by rw [he]; rfl)
    | instruction target data =>
      refine hcode ?_ (by rw [he]; rfl)
      rw [Assembly.instructionPayload]
      split <;> try split
      all_goals rfl
    | startTag tag => exact absurd h (by rw [he]; exact id)
    | endTag tag => exact absurd h (by rw [he]; exact id)
    | endDocument => exact absurd h (by rw [he]; exact id)
    | _ =>
      rw [expressionsOf_cons_of_settled fun hends => by simp [he, Assembly.endsText] at hends,
        Gathering.add, he]
      exact ih hrest hrun
  | element start tag inner stop tag' rest ihinner ih =>
    obtain ⟨hinner, hrest⟩ := hf.parts_element
    rw [contentsOf, List.flatMap_append, List.flatMap_cons, expressions_textContent hrun,
      Content.expressions_node, ihinner hinner (by simp), ih hrest (by simp), Forest.events,
      expressionsOf_cons_of_ends rfl, expressionsOf_append_cons rfl]
    rfl

/-! ### Expressions of a text -/

/-- The expression for what stands between braces. -/
def expressionNode (r : Option Resolver) (line : Nat) (inner : Text) : Node :=
  { payload := .expression (engineOf r inner).2 (engineOf r inner).1, line }

/-- The expressions for some pairs of braces, on the lines they are given. -/
def pairExpressions (r : Option Resolver) (lineOf : BracePair → Nat) (bs : List BracePair) :
    List Node :=
  (bs.filter (IsExpression r ·.text)).map fun b => expressionNode r (lineOf b) b.text

theorem pairExpressions_cons {lineOf : BracePair → Nat} {b : BracePair} {bs : List BracePair} :
    pairExpressions r lineOf (b :: bs) =
      (if IsExpression r b.text then [expressionNode r (lineOf b) b.text] else []) ++
        pairExpressions r lineOf bs := by
  rw [pairExpressions, ← List.singleton_append, List.filter_append,
    List.map_append, pairExpressions, List.append_cancel_right_eq]
  by_cases h : IsExpression r b.text <;> simp [h]

theorem expressionsIn_scrapsOfPiece_plain (t : Text) :
    expressionsIn (scrapsOfPiece r line (.plain t)) = [] := by
  rw [scrapsOfPiece]
  split <;> rfl

theorem expressionsIn_scrapsOfPiece_braced (t : Text) :
    expressionsIn (scrapsOfPiece r line (.braced t)) =
      if IsExpression r t then [expressionNode r line t] else [] := by
  rw [scrapsOfPiece]
  by_cases hblank : t.isBlank
  · rw [if_pos hblank, if_neg fun h : IsExpression r t => h.1 hblank]
    rfl
  rw [if_neg hblank]
  change expressionsIn (if (engineOf r t).1 ≠ nullEngine then _ else _) = _
  by_cases hnull : (engineOf r t).1 = nullEngine
  · rw [if_neg (not_not.mpr hnull), if_neg fun h : IsExpression r t => h.2 hnull,
      apply_ite expressionsIn]
    exact ite_self _
  · rw [if_pos hnull, if_pos ⟨hblank, hnull⟩]
    rfl

/-- The first of some characters. -/
theorem exists_first_mark {c : Char} {ms : List Mark} (h : c ∈ ms.map Mark.char) : ∃ pre m post,
    ms = pre ++ m :: post ∧ c ∉ pre.map Mark.char ∧ m.char = c := by
  obtain ⟨front, back, hms, hnot⟩ := List.eq_append_cons_of_mem h
  obtain ⟨pre, rest, rfl, rfl, hrest⟩ := List.map_eq_append_iff.mp hms
  obtain ⟨m, post, rfl, hm, -⟩ := List.map_eq_cons_iff.mp hrest
  exact ⟨pre, m, post, rfl, hnot, hm⟩

theorem cut?_markText {c : Char} {b : UInt8} {pre post : List Mark} {m : Mark}
    (hc : c.toNat = b.toNat)
    (hb : b.toNat < 128) (hpre : c ∉ pre.map Mark.char) (hm : m.char = c) :
    Text.cut? b (markText (pre ++ m :: post)) = some (markText pre, markText post) := by
  rw [markText, List.map_append, List.map_cons, hm]
  exact Text.cut?_ofChars hc hb hpre

theorem cut?_markText_eq_none {c : Char} {b : UInt8} {ms : List Mark} (hc : c.toNat = b.toNat)
    (hb : b.toNat < 128) (h : c ∉ ms.map Mark.char) : Text.cut? b (markText ms) = none :=
  Text.cut?_eq_none_iff.mpr fun hmem => h ((Text.ascii_mem_ofChars_iff hc hb).mp hmem)

theorem lineFeeds_markText (ms : List Mark) :
    lineFeeds (markText ms) = (ms.map Mark.char).count '\n' :=
  Text.count_ofChars rfl (by decide) _

/-- **The expressions of a text** are the pairs of its braces, each as many lines down as there are
line feeds in front of it. -/
theorem expressionsIn_scrapsOfPieces (line : Nat) (ahead ms : List Mark) :
    expressionsIn (scrapsOfPieces r (line + (ahead.map Mark.char).count '\n')
      (textPieces (markText ms))) =
        pairExpressions r (fun b => line + (b.ahead.map Mark.char).count '\n')
          (bracePairs ahead none ms) := by
  -- As the text is cut: at the first brace that opens and the first one behind it that closes. What
  -- is behind both is shorter, and what is in front of it then has the pair as well.
  induction hlength : ms.length using Nat.strongRecOn generalizing ahead ms with
  | ind n ih =>
    subst hlength
    have hplain : expressionsIn (scrapsOfPieces r (line + (ahead.map Mark.char).count '\n')
        [.plain (markText ms)]) = [] := by
      rw [scrapsOfPieces, scrapsOfPieces, List.append_nil, expressionsIn_scrapsOfPiece_plain]
    by_cases hopen : '\x7b' ∈ ms.map Mark.char
    · obtain ⟨pre, o, rest, rfl, hpre, ho⟩ := exists_first_mark hopen
      have hcut : Text.cut? 0x7b (markText (pre ++ o :: rest)) =
          some (markText pre, markText rest) :=
        cut?_markText rfl (by decide) hpre ho
      by_cases hclose : '\x7d' ∈ rest.map Mark.char
      · obtain ⟨inner, c, post, rfl, hinner, hc⟩ := exists_first_mark hclose
        have hcut' : Text.cut? 0x7d (markText (inner ++ c :: post)) =
            some (markText inner, markText post) := cut?_markText rfl (by decide) hinner hc
        have hlines : line + (ahead.map Mark.char).count '\n' + lineFeeds (markText pre) +
            lineFeeds (markText inner) =
              line + ((ahead ++ (pre ++ o :: (inner ++ [c]))).map Mark.char).count '\n' := by
          simp [lineFeeds_markText, ho, hc]
          omega
        have hahead : line + (ahead.map Mark.char).count '\n' + lineFeeds (markText pre) =
            line + ((ahead ++ pre).map Mark.char).count '\n' := by
          rw [lineFeeds_markText, List.map_append, List.count_append, Nat.add_assoc]
        have hrest :=
          ih post.length (by simp; omega) (ahead ++ (pre ++ o :: (inner ++ [c]))) post rfl
        rw [textPieces_of_closed hcut hcut', bracePairs_of_closed hpre ho hinner hc, scrapsOfPieces,
          scrapsOfPieces, expressionsIn_append, expressionsIn_append,
          expressionsIn_scrapsOfPiece_plain,
          expressionsIn_scrapsOfPiece_braced, TextPiece.text, TextPiece.text, hlines, hrest, hahead,
          pairExpressions_cons]
        rfl
      · have hnone := cut?_markText_eq_none (b := 0x7d) rfl (by decide) hclose
        rw [textPieces_of_not_closed hcut hnone, hplain, bracePairs_of_not_closed hpre ho hclose]
        rfl
    · have hnone := cut?_markText_eq_none (b := 0x7b) rfl (by decide) hopen
      rw [textPieces_of_not_open hnone, hplain, bracePairs_of_not_open hopen]
      rfl

/-! ### Expressions of a source -/

/-- The expressions of a run of character data. -/
def runExpressions (r : Option Resolver) (run : List Mark) : List Node :=
  pairExpressions r (fun b => b.opening.place.line + b.ahead.countP Mark.isStray)
    (bracePairs [] none run)

/-- The character data at the end of what was gathered is a run, behind which the given line is
reached. -/
structure Gathering.Covers (g : Gathering) (run : List Mark) (line : Nat) : Prop where
  text : g.data.reverse.flatten = markText run
  empty : g.data = [] ↔ run = []
  spans : run ≠ [] → Spans g.line run line

variable {cur : Cursor} {ps : List Piece} {p : Piece} {rest : List Char} {marks : List Mark}

theorem Gathering.Covers.expressions_finish (h : g.Covers marks line) :
    expressionsIn (g.finish r) = expressionsIn g.scraps ++ runExpressions r marks := by
  rw [finish, expressionsIn_append, h.text, List.append_cancel_left_eq]
  have hpieces := expressionsIn_scrapsOfPieces (r := r) g.line [] marks
  rw [List.map_nil, List.count_nil, Nat.add_zero] at hpieces
  rw [scrapsOf, hpieces, runExpressions]
  refine List.map_congr_left fun b hb => ?_
  obtain ⟨-, rest, hrest⟩ := exists_of_mem_bracePairs (List.mem_of_mem_filter hb)
  rw [List.nil_append] at hrest
  have hspans := h.spans (by rw [hrest]; simp)
  rw [hrest] at hspans
  exact congrArg (expressionNode r · b.text) hspans.line_eq.symm

theorem Gathering.covers_nil (line : Nat) : ({} : Gathering).Covers [] line :=
  ⟨rfl, iff_of_true rfl rfl, absurd rfl⟩

/-- Character data and references go on with a run. -/
theorem Gathering.Covers.add (h : g.Covers marks cur.line) (hp : p.IsInner)
    (hne : ∀ raw es, p ≠ .markup raw es) (hclean : Clean p.raw) (hrest : cur.rest = p.raw ++ rest) :
    ∃ l, p.located cur = [l] ∧ Assembly.endsText l.event = false ∧ (g.add r l).scraps = g.scraps ∧
      (g.add r l).Covers (marks ++ p.marks cur) (cur.advance p.raw.length).line := by
  have hspans := spans_marks hp hne hclean hrest
  obtain ⟨t, hevents, ht, hmarks⟩ : ∃ t, p.events = [.characters t] ∧ t = markText (p.marks cur) ∧
      p.marks cur ≠ [] := by
    cases p with
    | text raw =>
      have hchars : (textMarks cur raw).map Mark.char = unifyLineEnds raw := map_char_textMarks
      refine ⟨_, rfl, by rw [Piece.marks, markText, hchars], fun hnil => ?_⟩
      rw [Piece.marks] at hnil
      rw [hnil] at hchars
      exact unifyLineEnds_ne_nil hp.1 hchars.symm
    | reference raw c => exact ⟨_, rfl, rfl, List.cons_ne_nil _ _⟩
    | markup raw es => exact absurd rfl (hne raw es)
  refine ⟨_, by rw [Piece.located, hevents]; rfl, rfl, rfl, ?_, ?_, fun _ => ?_⟩
  · change (t :: g.data).reverse.flatten = _
    rw [List.reverse_cons, List.flatten_append, h.text, markText_append, ht]
    simp
  · exact iff_of_false (List.cons_ne_nil _ _) (by simp [hmarks])
  · change Spans (if g.data = [] then cur.line else g.line) _ _
    by_cases hdata : g.data = []
    · rw [if_pos hdata, h.empty.mp hdata, List.nil_append]
      exact hspans
    · rw [if_neg hdata]
      exact (h.spans (mt h.empty.mpr hdata)).append hspans

/-- Markup between character data. -/
theorem endsText_of_interrupts {e : Event} (h : e.Interrupts) : Assembly.endsText e := by
  cases e <;> first | rfl | exact h.elim

theorem expressionsOf_markup (hls : ∀ l ∈ ls, l.event.Interrupts) (hne : ls ≠ [])
    {ls' : List Located} :
    expressionsOf r g (ls ++ ls') = expressionsIn (g.finish r) ++ expressionsOf r {} ls' := by
  induction ls generalizing g with
  | nil => exact absurd rfl hne
  | cons l ls ih =>
    obtain ⟨hl, hls⟩ := List.forall_mem_cons.mp hls
    rw [List.cons_append, expressionsOf_cons_of_ends (endsText_of_interrupts hl),
      List.append_cancel_left_eq]
    by_cases hnil : ls = []
    · rw [hnil, List.nil_append]
    · rw [ih hls hnil, Gathering.finish_of_settled]
      rfl

/-- An event that is no character data and does not interrupt it either is of no use for a text. -/
theorem Gathering.add_of_silent (hl : l.event.IsSilent)
    (hends : Assembly.endsText l.event = false) :
    g.add r l = g := by
  rw [add]
  cases he : l.event with
  | characters t => exact absurd he (hl t)
  | cdata t =>
    rw [he] at hends
    cases hends
  | comment t =>
    rw [he] at hends
    cases hends
  | _ => rfl

/-- There are no expressions where there is no character data. -/
theorem expressionsOf_silent (hls : ∀ l ∈ ls, l.event.IsSilent) :
    expressionsOf r g ls = expressionsIn (g.finish r) := by
  induction ls generalizing g with
  | nil => rfl
  | cons l ls ih =>
    obtain ⟨hl, hls⟩ := List.forall_mem_cons.mp hls
    by_cases hends : Assembly.endsText l.event
    · rw [expressionsOf_cons_of_ends hends, ih hls, Gathering.finish_of_settled]
      exact List.append_nil _
    · rw [expressionsOf_cons_of_settled (absurd · hends),
        Gathering.add_of_silent hl (Bool.eq_false_iff.mpr hends), ih hls]

theorem expressionsOf_silent_append (hls : ∀ l ∈ ls, l.event.IsSilent) {ls' : List Located} :
    expressionsOf r {} (ls ++ ls') = expressionsOf r {} ls' := by
  induction ls with
  | nil => rfl
  | cons l ls ih =>
    obtain ⟨hl, hls⟩ := List.forall_mem_cons.mp hls
    by_cases hends : Assembly.endsText l.event
    · rw [List.cons_append, expressionsOf_cons_of_ends hends, ih hls, Gathering.finish_of_settled]
      rfl
    · rw [List.cons_append, expressionsOf_cons_of_settled (absurd · hends),
        Gathering.add_of_silent hl (Bool.eq_false_iff.mpr hends), ih hls]

/-- The events around the root element. -/
theorem isSilent_of_mem_located {l : Located} (hps : ∀ p ∈ ps, p.IsOuter) (h : l ∈ located cur ps) :
    l.event.IsSilent := by
  obtain ⟨p, hp, he⟩ := exists_of_mem_located h
  exact (hps p hp).isSilent _ he

/-- **The expressions among the events of pieces** are those of the runs of character data. -/
theorem expressionsOf_located (hps : ∀ p ∈ ps, p.IsInner) (hclean : Clean cur.rest)
    (hrest : cur.rest = raws ps ++ rest) (hg : g.Covers marks cur.line)
    (hls : ∀ l ∈ ls, l.event.IsSilent) : expressionsOf r g (located cur ps ++ ls) =
      expressionsIn g.scraps ++ (runs cur marks ps).flatMap (runExpressions r) := by
  -- Piece by piece; that the run so far is what was gathered (`Covers`) carries over to the next
  -- one.
  induction ps generalizing cur g marks with
  | nil => rw [located, List.nil_append, expressionsOf_silent hls, hg.expressions_finish, runs,
      List.flatMap_singleton]
  | cons p ps ih =>
    obtain ⟨hp, hmore⟩ := List.forall_mem_cons.mp hps
    rw [raws_cons, List.append_assoc] at hrest
    obtain ⟨hraw, hbehind⟩ := Clean.append.mp (hrest ▸ hclean)
    have hnext := Cursor.rest_advance_length hclean hrest
    rw [located, List.append_assoc]
    have htext (hne : ∀ raw es, p ≠ .markup raw es) :
        expressionsOf r g (p.located cur ++ (located (cur.advance p.raw.length) ps ++ ls)) =
          expressionsIn g.scraps ++
          (runs (cur.advance p.raw.length) (marks ++ p.marks cur) ps).flatMap
            (runExpressions r) := by
      obtain ⟨l, hl, hends, hscraps, hcovers⟩ := hg.add (r := r) hp hne hraw hrest
      rw [hl, List.singleton_append, expressionsOf_cons_of_settled (by simp [hends]),
        ih hmore (hnext ▸ hbehind) hnext hcovers, hscraps]
    cases p with
    | markup raw es =>
      have hes : ∀ l ∈ (Piece.markup raw es).located cur, l.event.Interrupts := by
        intro l hl
        obtain ⟨e, he, rfl⟩ := List.mem_map.mp hl
        exact hp.2 e he
      have hne : (Piece.markup raw es).located cur ≠ [] := by
        simpa [Piece.located, Piece.events] using hp.1
      rw [expressionsOf_markup hes hne, hg.expressions_finish, runs, List.flatMap_cons,
        ih hmore (hnext ▸ hbehind) hnext (Gathering.covers_nil _), List.append_assoc]
      rfl
    | text raw => exact htext (by simp)
    | reference raw c => exact htext (by simp)

/-- The expressions of a document are those of the runs of its character data. -/
theorem expressionsOf_layout {source : List Char} {L : Layout source} (hclean : Clean source) :
    expressionsOf r {} L.events = L.runs.flatMap (runExpressions r) := by
  obtain ⟨hbefore, hafter⟩ := List.forall_mem_append.mp L.outer
  have hraws := L.raws_eq
  rw [raws_append, raws_append, List.append_assoc] at hraws
  have hstart : (Cursor.start source).rest = raws L.before ++ (raws L.root ++ raws L.after) :=
    hraws.symm
  have hroot : L.rootStart.rest = raws L.root ++ raws L.after :=
    Cursor.rest_advance_length hclean hstart
  have hclean' : Clean L.rootStart.rest := by
    rw [hroot]
    rw [← hraws] at hclean
    exact (Clean.append.mp hclean).2
  rw [Layout.events, List.append_assoc, located_append, located_append,
    expressionsOf_silent_append (fun _ => isSilent_of_mem_located hbefore), Layout.runs]
  exact expressionsOf_located L.inner hclean' hroot (Gathering.covers_nil _)
    (fun _ => isSilent_of_mem_located hafter)

/-- The expressions of a document are those among its events. -/
theorem expressions_documentContent {first second last : Located} (hf : Full f)
    (hls : ls = first :: second :: (f.events ++ [last])) (hfirst : first.event = .locator)
    (hsecond : second.event = .startDocument) (hlast : last.event = .endDocument) :
    (documentContent line (contentsOf r .initial [] f)).expressions = expressionsOf r {} ls := by
  have hsilent : ∀ l ∈ [first, second], l.event.IsSilent := by
    simp [hfirst, hsecond, Event.IsSilent]
  have hends : Assembly.endsText last.event := by rw [hlast]; rfl
  have hnone : expressionsOf r {} [] = [] := congrArg expressionsIn (Gathering.finish_of_settled [])
  have hbegin : ls = [first, second] ++ (f.events ++ [last]) := hls
  rw [hbegin, expressionsOf_silent_append hsilent, expressionsOf_append_cons hends, documentContent,
    Content.expressions_node, expressions_contentsOf hf (by simp), hnone, List.append_nil]
  rfl

/-- **Lines of expressions are wrong behind stray line feeds.** A source that is parsed is laid out
in pieces, with the events that were reported. The expressions of its tree are the pairs of braces
in the runs of its character data, in order, other than blank ones and literals. Each is said to
stand on the line of the character or reference that stands for its opening brace, plus the number
of line feeds in front of it in its run that are none in the source. -/
theorem ofSource_lines [Encoding.Decoders] {canceled : Bool} {source : Text}
    {s₀ : Store} {a : Assembly}
    (hw : s₀.WellFormed) (ho : s₀.Owned) (hl : s₀.Labelled)
    (h : ofSource r canceled source s₀ = (.ok (), a)) : ∃ cs, ∃ L : Layout cs, ∃ doc c,
      (decodeSource source : Except (ReadError AssemblyError) (List Char)) = .ok cs ∧
      L.events = (scan canceled cs).1 ∧ a.document = some doc ∧ a.store.Holds doc c ∧
      c.expressions =
      ((L.runs.flatMap (bracePairs [] none)).filter (IsExpression r ·.text)).map fun b =>
        { payload := .expression (engineOf r b.text).2 (engineOf r b.text).1
          line := b.opening.place.line + b.ahead.countP Mark.isStray } := by
  obtain ⟨cs, ls, hcs, hscan, hok⟩ := exists_scan_of_read_ok h
  obtain ⟨L, rfl⟩ := exists_layout_of_scan hscan
  obtain ⟨-, hcomplete, -⟩ | ⟨hne, -⟩ := scan_shape hscan
  · obtain ⟨first, second, f, last, hforest, hfirst, hsecond, hlast⟩ :=
      Markup.exists_forest_of_complete hcomplete
    have hf : Full f := fun l hl => Layout.isFull_of_mem (L := L) (by simp [hforest, hl])
    obtain ⟨doc, hdoc, -, -, hholds⟩ :=
      Assembly.holds_of_deliver hw ho hl hfirst hsecond hlast hf (hforest ▸ hok)
    refine ⟨cs, L, doc, _, hcs, by rw [hscan], hdoc, hholds, ?_⟩
    rw [expressions_documentContent hf hforest hfirst hsecond hlast,
      expressionsOf_layout (clean_of_scan hscan), List.filter_flatMap, List.map_flatMap]
    rfl
  · exact absurd rfl hne

/-- A reference to a line feed. The source has one line, and its expression is said to stand on the
second one. -/
theorem referenced_lineFeed_lines :
    let source : Text := "<p>&#10;\x7b$a\x7d</p>"
    ∃ a, ofSource none false source {} = (.ok (), a) ∧ 0xa ∉ source ∧
      (a.store.nodes.toList.filter Node.isExpression).map (·.line) = [2] ∧
      ∃ cs, ∃ L : Layout cs, ∃ doc c,
        (decodeSource source : Except (ReadError AssemblyError) (List Char)) = .ok cs ∧
        L.events = (scan false cs).1 ∧ a.document = some doc ∧ a.store.Holds doc c ∧
        c.expressions =
          ((L.runs.flatMap (bracePairs [] none)).filter (IsExpression none ·.text)).map fun b =>
            { payload := .expression (engineOf none b.text).2 (engineOf none b.text).1
              line := b.opening.place.line + b.ahead.countP Mark.isStray } := by
  intro source
  have hok : (ofSource none false source {}).1.toOption = some () := by decide +kernel
  obtain ⟨a, ha⟩ := exists_of_toOption hok
  have hlines : ((ofSource none false source {}).2.store.nodes.toList.filter Node.isExpression).map
      (·.line) = [2] := by decide +kernel
  rw [ha] at hlines
  exact ⟨a, ha, by decide, hlines,
    ofSource_lines Store.wellFormed_empty Store.owned_empty Store.labelled_empty ha⟩

end Stencil.Tree
