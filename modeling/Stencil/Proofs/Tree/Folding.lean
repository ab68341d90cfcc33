import Stencil.Proofs.Markup.Nesting
import Stencil.Proofs.Tree.Content
import Stencil.Proofs.Tree.Environments

/-!
# The tree that events stand for

What a tree of nested events should be, by recursion over their nesting and without a word on how it
is put together: an element for every pair of tags, a fragment of code for a document type and for
an instruction, and one text for what stands between two of these, unless there is nothing but
comments.

Within a text, character data that is not interrupted is taken apart as a whole: what stands between
braces becomes expressions, and all else is output. A CDATA section is kept as it is. Neighbouring
output is joined, also behind a section.

## Main definitions

* `Scrap`, `scrapsOf` – what character data is taken apart to
* `Gathering` – the events of one text
* `textContent` – the text for a run of events
* `contentsOf`, `documentContent` – the tree for nested events, and for a document

## Main results

* `contentsOf_apart`, `contentsOf_sound` – there are no texts next to each other and none without
  content
-/

namespace Stencil.Tree

open Markup (Located Event Tag Forest)

/-! ### Text -/

/-- What can be added at the end of a text. -/
inductive Scrap where
  /-- Output, which joins character data in front of it. -/
  | data (line : Nat) (t : Text)
  /-- A node of its own. -/
  | node (line : Nat) (p : Payload)

/-- The line on which it stands. -/
def Scrap.line : Scrap → Nat
  | data line _ => line
  | node line _ => line

/-- The nodes of a text with one more scrap. Only the first node of a text gets a line from
output. -/
def join (ns : List Node) : Scrap → List Node
  | .node line payload => ns ++ [{ payload, line }]
  | .data line t =>
    match ns.getLast? with
    | none => [{ payload := .cdata t, line }]
    | some node =>
      match node.payload with
      | .cdata old => ns.dropLast ++ [{ node with payload := .cdata (old ++ t) }]
      | _ => ns ++ [{ payload := .cdata t }]

/-- The text of a piece. -/
def TextPiece.text : TextPiece → Text
  | plain t => t
  | braced t => t

variable (r : Option Resolver)

/-- What a piece of character data stands for. -/
def scrapsOfPiece (line : Nat) : TextPiece → List Scrap
  | .plain t => if t = [] then [] else [.data line t.escapeContent]
  | .braced t =>
    if t.isBlank then [.data line (Text.escapeContent ("\x7b" ++ t ++ "\x7d"))]
    else
      match (splitExpression? r t).getD ((r.map (·.defaultEngine)).getD [], t) with
      | (engine, source) =>
        if engine ≠ nullEngine then [.node line (.expression source engine)]
        else if source = [] then []
        else [.data line source.escapeContent]

/-- What pieces of character data stand for, of which the first stands on the given line. -/
def scrapsOfPieces : Nat → List TextPiece → List Scrap
  | _, [] => []
  | line, piece :: pieces =>
    scrapsOfPiece r line piece ++ scrapsOfPieces (line + lineFeeds piece.text) pieces

/-- What character data stands for. -/
def scrapsOf (line : Nat) (data : Text) : List Scrap := scrapsOfPieces r line (textPieces data)

/-- The events of a text up to some point. -/
structure Gathering where
  /-- What was taken apart. -/
  scraps : List Scrap := []
  /-- Character data since then, latest first. -/
  data : List Text := []
  /-- The line on which that started. -/
  line : Nat := 0

namespace Gathering

/-- All that was gathered. -/
def finish (g : Gathering) : List Scrap := g.scraps ++ scrapsOf r g.line g.data.reverse.flatten

/-- One more event. Character data ends with a section or a comment. -/
def add (g : Gathering) (l : Located) : Gathering :=
  match l.event with
  | .characters t =>
    { g with data := t :: g.data, line := if g.data = [] then l.position.line else g.line }
  | .cdata t => { scraps := g.finish r ++ [.node l.position.line (.cdata t)] }
  | .comment _ => { scraps := g.finish r }
  | _ => g

end Gathering

/-- What a run of events stands for. -/
def scrapsOfRun (run : List Located) : List Scrap := (run.foldl (Gathering.add r) {}).finish r

/-- The event adds to a text. -/
def carriesText : Event → Bool
  | .characters _ | .cdata _ => true
  | _ => false

/-- A node without attributes and children. -/
def Content.leaf (node : Node) : Content := .node (some node) [] []

/-- The text of some scraps; it stands where the first of them does. -/
def Content.ofScraps (scraps : List Scrap) : Content :=
  .node (some { payload := .text, line := (scraps.head?.map Scrap.line).getD 0 }) []
    ((scraps.foldl join []).map .leaf)

/-- The text for a run of character data, sections and comments; none if there are only comments. -/
def textContent (run : List Located) : List Content :=
  if run.any fun l => carriesText l.event then [.ofScraps (scrapsOfRun r run)] else []

/-! ### Nested events -/

/-- The trees for nested events next to each other, behind a run of events of one text. -/
def contentsOf : Environment → List Located → Forest → List Content
  | _, run, .nil => textContent r run
  | env, run, .single l _ rest =>
    match l.event with
    | .characters _ | .cdata _ | .comment _ => contentsOf env (run ++ [l]) rest
    | .doctype raw =>
      textContent r run ++
        .leaf { payload := .code true raw, line := l.position.line } :: contentsOf env [] rest
    | .instruction target data =>
      textContent r run ++
        .leaf { payload := Assembly.instructionPayload target data, line := l.position.line } ::
          contentsOf env [] rest
    | _ => contentsOf env run rest
  | env, run, .element start tag inner _ _ rest =>
    textContent r run ++
      .node (some { payload := .element ((env.inside tag).elementOf r tag), line := start.line })
        ((keptAttributes r tag).map fun a =>
          some {
            payload := .attr ((env.inside tag).attributeOf r start.line a), line := start.line })
        (contentsOf (env.inside tag) [] inner) :: contentsOf env [] rest

/-- A document with the given content that begins on the given line. -/
def documentContent (line : Nat) (below : List Content) : Content :=
  .node (some { payload := .document { type := "xml", singleRoot := true }, line }) [] below

/-! ### Texts are not empty -/

variable {r} {line : Nat} {run : List Located} {ns : List Node} {t : Text} {env : Environment}
  {f : Forest} {scraps : List Scrap} {c : Content}

theorem join_ne_nil (scrap : Scrap) : join ns scrap ≠ [] := by
  cases scrap with
  | node line payload => simp [join]
  | data line t =>
    rw [join]
    split
    · simp
    · split <;> simp

theorem foldl_join_ne_nil (h : scraps ≠ []) : scraps.foldl join ns ≠ [] := by
  induction scraps generalizing ns with
  | nil => exact absurd rfl h
  | cons scrap scraps ih =>
    rw [List.foldl_cons]
    cases scraps with
    | nil => exact join_ne_nil scrap
    | cons _ _ => exact ih (List.cons_ne_nil _ _)

/-- An engine is named in front of something. -/
theorem source_ne_nil_of_splitExpression? {engine source : Text}
    (h : splitExpression? r t = some (engine, source)) : source ≠ [] := by
  have hsplit : Expression.splitEngine? t = some (engine, source) := by
    rw [splitExpression?] at h
    split at h
    · cases h
    · rename_i hsplit
      split at h
      · rw [← h, hsplit]
      · split at h
        · rw [← h, hsplit]
        · cases h
  rw [Expression.splitEngine?] at hsplit
  split at hsplit
  · split at hsplit
    · rename_i hvalid
      cases hsplit
      rintro rfl
      simp [Expression.isEngineSource] at hvalid
    · cases hsplit
  · cases hsplit

/-- What stands between braces is never lost. -/
theorem scrapsOfPiece_braced_ne_nil : scrapsOfPiece r line (.braced t) ≠ [] := by
  rw [scrapsOfPiece]
  split
  · exact List.cons_ne_nil _ _
  · rename_i hblank
    split
    rename_i engine source hsplit
    split
    · exact List.cons_ne_nil _ _
    · have hne : source ≠ [] := by
        cases hfound : splitExpression? r t with
        | some p =>
          rw [hfound, Option.getD_some] at hsplit
          exact source_ne_nil_of_splitExpression? (hsplit ▸ hfound)
        | none =>
          rw [hfound, Option.getD_none] at hsplit
          obtain ⟨-, rfl⟩ := Prod.mk.inj hsplit
          rintro rfl
          exact hblank rfl
      rw [if_neg hne]
      exact List.cons_ne_nil _ _

theorem scrapsOf_eq_nil_iff : scrapsOf r line t = [] ↔ t = [] := by
  constructor
  · rw [scrapsOf, textPieces]
    split
    · intro h
      by_contra hne
      simp [scrapsOfPieces, scrapsOfPiece, hne] at h
    · split
      · intro h
        by_contra hne
        simp [scrapsOfPieces, scrapsOfPiece, hne] at h
      · intro h
        simp only [scrapsOfPieces, List.append_eq_nil_iff] at h
        exact absurd h.2.1 scrapsOfPiece_braced_ne_nil
  · rintro rfl
    rw [scrapsOf, textPieces]
    rfl

theorem Gathering.finish_eq_nil_iff {g : Gathering} :
    g.finish r = [] ↔ g.scraps = [] ∧ g.data.reverse.flatten = [] := by
  rw [finish, List.append_eq_nil_iff, scrapsOf_eq_nil_iff]

/-- There is something to be put into a text exactly if an event of the run adds to it. -/
theorem scrapsOfRun_eq_nil_iff (hfull : ∀ l ∈ run, l.event.IsFull) :
    scrapsOfRun r run = [] ↔ (run.any fun l => carriesText l.event) = false := by
  have hall : ∀ (run : List Located) (g : Gathering), (∀ l ∈ run, l.event.IsFull) →
      ((run.foldl (Gathering.add r) g).finish r = [] ↔
        g.finish r = [] ∧ (run.any fun l => carriesText l.event) = false) := by
    intro run
    induction run with
    | nil => simp
    | cons l run ih =>
      intro g hfull
      obtain ⟨hl, hrest⟩ := List.forall_mem_cons.mp hfull
      rw [List.foldl_cons, ih _ hrest, List.any_cons, Bool.or_eq_false_iff, ← and_assoc]
      refine and_congr_left fun _ => ?_
      rw [Gathering.add]
      cases he : l.event with
      | characters t =>
        rw [he] at hl
        have ht : t ≠ [] := hl
        simp [Gathering.finish_eq_nil_iff, carriesText, ht]
      | cdata t => simp [Gathering.finish_eq_nil_iff, carriesText]
      | comment t =>
        simp only [Gathering.finish_eq_nil_iff (g := { scraps := g.finish r }), carriesText]
        simp
      | _ => simp [carriesText]
  rw [scrapsOfRun, hall run {} hfull]
  simp [Gathering.finish_eq_nil_iff]

/-- All character data among nested events is not empty. -/
def Full (f : Forest) : Prop := ∀ l ∈ f.events, l.event.IsFull

theorem Full.rest_single {l : Located} {h : Markup.IsSingle l.event}
    (hf : Full (.single l h f)) : l.event.IsFull ∧ Full f :=
  List.forall_mem_cons.mp hf

theorem Full.parts_element {start stop : Markup.Position} {tag tag' : Tag} {inner : Forest}
    (hf : Full (.element start tag inner stop tag' f)) : Full inner ∧ Full f :=
  ⟨fun l hl => hf l (List.mem_cons_of_mem _ (List.mem_append_left _ hl)),
    fun l hl => hf l (List.mem_cons_of_mem _ (List.mem_append_right _ (List.mem_cons_of_mem _ hl)))⟩

/-! ### Texts are apart -/

/-- The topmost node is a text. -/
def Content.isText (c : Content) : Bool := (c.self.map (·.payload)) = some .text

/-- Texts have content and do not stand next to each other. -/
structure Content.Sound (c : Content) : Prop where
  apart : c.inner.IsChain fun x y => ¬ (x.isText ∧ y.isText)
  filled : c.isText → c.inner ≠ []

theorem Content.leaf_sound {node : Node} (h : node.payload ≠ .text) :
    ∀ x ∈ (leaf node).parts, x.Sound := by
  intro x hx
  rw [leaf, parts_node] at hx
  obtain rfl := List.mem_singleton.mp (by simpa using hx)
  refine ⟨.nil, fun htext => absurd ?_ h⟩
  simpa [isText, self] using htext

/-- A node that can stand in a text. -/
def Node.Fits (node : Node) : Prop := NodeKind.text.admits node.payload.nodeKind

/-- A scrap that can be a node of a text. -/
def Scrap.Fits : Scrap → Prop
  | data .. => True
  | node line payload => Node.Fits { payload, line }

theorem Node.Fits.ne_text {node : Node} (h : node.Fits) : node.payload ≠ .text := by
  intro htext
  rw [Node.Fits, htext] at h
  cases h

theorem Node.Fits.isElement {node : Node} (h : node.Fits) : node.payload.isElement = false := by
  cases hp : node.payload <;> first | rfl | (rw [Node.Fits, hp] at h; cases h)

theorem fits_of_mem_join {scrap : Scrap} (h : ∀ node ∈ ns, node.Fits) (hscrap : scrap.Fits) :
    ∀ node ∈ join ns scrap, node.Fits := by
  have happend {node : Node} (hnode : node.Fits) : ∀ node' ∈ ns ++ [node], node'.Fits := by
    rw [List.forall_mem_append]
    exact ⟨h, by simpa using hnode⟩
  have hdata {line : Nat} {t : Text} : Node.Fits { payload := .cdata t, line } := rfl
  cases scrap with
  | node line payload => exact happend hscrap
  | data line t =>
    rw [join]
    split
    · simpa using hdata
    · split
      · rw [List.forall_mem_append]
        refine ⟨fun node hnode => h node (List.mem_of_mem_dropLast hnode), ?_⟩
        simp [Node.Fits, NodeKind.admits, Payload.nodeKind]
      · exact happend hdata

theorem fits_of_mem_foldl_join (hscraps : ∀ scrap ∈ scraps, scrap.Fits)
    (h : ∀ node ∈ ns, node.Fits) : ∀ node ∈ scraps.foldl join ns, node.Fits := by
  induction scraps generalizing ns with
  | nil => exact h
  | cons scrap scraps ih =>
    obtain ⟨hscrap, hrest⟩ := List.forall_mem_cons.mp hscraps
    exact ih hrest (fits_of_mem_join h hscrap)

theorem fits_of_mem_scrapsOf : ∀ scrap ∈ scrapsOf r line t, scrap.Fits := by
  have hpiece : ∀ (line : Nat) (piece : TextPiece), ∀ scrap ∈ scrapsOfPiece r line piece,
      scrap.Fits := by
    intro line piece
    cases piece with
    | plain t =>
      rw [scrapsOfPiece]
      split <;> simp [Scrap.Fits]
    | braced t =>
      rw [scrapsOfPiece]
      repeat' split
      all_goals simp [Scrap.Fits, Node.Fits, NodeKind.admits, Payload.nodeKind]
  have hall : ∀ (pieces : List TextPiece) (line : Nat), ∀ scrap ∈ scrapsOfPieces r line pieces,
      scrap.Fits := by
    intro pieces
    induction pieces with
    | nil => simp [scrapsOfPieces]
    | cons piece pieces ih =>
      intro line
      rw [scrapsOfPieces, List.forall_mem_append]
      exact ⟨hpiece line piece, ih _⟩
  exact hall _ line

theorem fits_of_mem_scrapsOfRun : ∀ scrap ∈ scrapsOfRun r run, scrap.Fits := by
  have hfinish {g : Gathering} (hg : ∀ scrap ∈ g.scraps, scrap.Fits) :
      ∀ scrap ∈ g.finish r, scrap.Fits := by
    rw [Gathering.finish, List.forall_mem_append]
    exact ⟨hg, fits_of_mem_scrapsOf⟩
  have hall : ∀ (run : List Located) (g : Gathering), (∀ scrap ∈ g.scraps, scrap.Fits) →
      ∀ scrap ∈ (run.foldl (Gathering.add r) g).finish r, scrap.Fits := by
    intro run
    induction run with
    | nil => exact fun g hg => hfinish hg
    | cons l run ih =>
      intro g hg
      refine ih _ ?_
      rw [Gathering.add]
      split
      · exact hg
      · rw [List.forall_mem_append]
        exact ⟨hfinish hg, by simp [Scrap.Fits, Node.Fits, NodeKind.admits, Payload.nodeKind]⟩
      · exact hfinish hg
      · exact hg
  exact hall run {} (by simp)

/-- Every node of a text that has scraps, and the text itself. -/
theorem Content.ofScraps_sound (hne : scraps ≠ []) (hscraps : ∀ scrap ∈ scraps, scrap.Fits) :
    ∀ x ∈ (ofScraps scraps).parts, x.Sound := by
  have hnodes : ∀ node ∈ scraps.foldl join [], node.Fits := fits_of_mem_foldl_join hscraps (by simp)
  intro x hx
  rw [ofScraps, parts_node, List.mem_cons] at hx
  rcases hx with rfl | hx
  · refine ⟨?_, fun _ => ?_⟩
    · rw [inner, List.isChain_map]
      refine List.Pairwise.isChain (List.pairwise_of_forall_mem_list fun node hnode _ _ htext => ?_)
      have hself : node.payload = .text := by simpa [isText, self, leaf] using htext.1
      exact (hnodes node hnode).ne_text hself
    · rw [inner, ne_eq, List.map_eq_nil_iff]
      exact foldl_join_ne_nil hne
  · obtain ⟨y, hy, hx⟩ := List.mem_flatMap.mp hx
    obtain ⟨node, hnode, rfl⟩ := List.mem_map.mp hy
    exact leaf_sound (hnodes node hnode).ne_text x hx

theorem textContent_apart {cs : List Content}
    (h : cs.IsChain fun x y => ¬ (x.isText ∧ y.isText)) (hc : c.isText = false) :
    (textContent r run ++ c :: cs).IsChain fun x y => ¬ (x.isText ∧ y.isText) := by
  have hcs : (c :: cs).IsChain fun x y => ¬ (x.isText ∧ y.isText) := by
    cases cs with
    | nil => exact .singleton c
    | cons d cs => exact .cons_cons (by simp [hc]) h
  rw [textContent]
  split
  · exact .cons_cons (by simp [hc]) hcs
  · exact hcs

/-- Texts do not stand next to each other. -/
theorem contentsOf_apart : (contentsOf r env run f).IsChain fun x y => ¬ (x.isText ∧ y.isText) := by
  induction f generalizing env run with
  | nil =>
    rw [contentsOf, textContent]
    split
    · exact .singleton _
    · exact .nil
  | single l h rest ih =>
    rw [contentsOf]
    split
    · exact ih
    · exact ih
    · exact ih
    · exact textContent_apart ih rfl
    · refine textContent_apart ih ?_
      rw [Assembly.instructionPayload]
      repeat' split
      all_goals rfl
    · exact ih
  | element start tag inner stop tag' rest _ ih =>
    rw [contentsOf]
    exact textContent_apart ih rfl

theorem textContent_sound (hfull : ∀ l ∈ run, l.event.IsFull) :
    ∀ x ∈ (textContent r run).flatMap Content.parts, x.Sound := by
  rw [textContent]
  split
  · rename_i hany
    have hne : scrapsOfRun r run ≠ [] := fun h => by
      rw [(scrapsOfRun_eq_nil_iff hfull).mp h] at hany
      cases hany
    simpa using Content.ofScraps_sound hne fits_of_mem_scrapsOfRun
  · simp

/-- **Texts are never empty and never next to each other**, however deep in the tree. -/
theorem contentsOf_sound (hf : Full f) (hrun : ∀ l ∈ run, l.event.IsFull) :
    ∀ x ∈ (contentsOf r env run f).flatMap Content.parts, x.Sound := by
  have hcode {run : List Located} {node : Node} {cs : List Content}
      (hrun : ∀ l ∈ run, l.event.IsFull) (hnode : node.payload ≠ .text)
      (h : ∀ x ∈ cs.flatMap Content.parts, x.Sound) :
      ∀ x ∈ (textContent r run ++ .leaf node :: cs).flatMap Content.parts, x.Sound := by
    rw [List.flatMap_append, List.flatMap_cons, List.forall_mem_append, List.forall_mem_append]
    exact ⟨textContent_sound hrun, Content.leaf_sound hnode, h⟩
  induction f generalizing env run with
  | nil => exact textContent_sound hrun
  | single l h rest ih =>
    obtain ⟨hl, hrest⟩ := hf.rest_single
    have hrun' : ∀ m ∈ run ++ [l], m.event.IsFull := by
      rw [List.forall_mem_append]
      exact ⟨hrun, by simpa using hl⟩
    rw [contentsOf]
    split
    · exact ih hrest hrun'
    · exact ih hrest hrun'
    · exact ih hrest hrun'
    · exact hcode hrun (by simp) (ih hrest (by simp))
    · refine hcode hrun ?_ (ih hrest (by simp))
      rw [Assembly.instructionPayload]
      repeat' split
      all_goals simp
    · exact ih hrest hrun
  | element start tag inner stop tag' rest ihinner ih =>
    obtain ⟨hinner, hrest⟩ := hf.parts_element
    rw [contentsOf, List.flatMap_append, List.flatMap_cons, List.forall_mem_append,
      List.forall_mem_append, Content.parts_node, List.forall_mem_cons]
    exact ⟨textContent_sound hrun,
      ⟨⟨contentsOf_apart, fun h => Bool.noConfusion h⟩, ihinner hinner (by simp)⟩,
      ih hrest (by simp)⟩

end Stencil.Tree
