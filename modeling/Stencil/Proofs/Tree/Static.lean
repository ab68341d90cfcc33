import Stencil.Proofs.Markup.Plain
import Stencil.Proofs.Tree.Namespaces

/-!
# Static markup

Markup with elements, comments and character data alone, in which no braces stand around anything
but blanks, leaves a tree that is determined by its elements and its character data: neither the
lines matter nor how the character data was spread over events. Each run of character data becomes
one text with one piece of output.

## Main definitions

* `Plain.All` – a condition on all tags and on all runs of character data
* `Content.unlined` – what a tree says, but for the lines
* `IsStatic` – character data without expressions
* `Plain.contents` – the trees of elements and character data

## Main results

* `contentsOf_unlined` – events give the trees of what is left of them
-/

namespace Stencil

open Markup (Event Located Tag Forest Plain)

namespace Markup.Plain

open Stencil.Tree (Environment)

/-- A condition on every tag in the environment of its element, and one on every run of character
data. -/
def All (onTag : Environment → Tag → Prop) (onText : Text → Prop) : Environment → Plain → Prop
  | _, nil => True
  | env, text t rest => onText t ∧ rest.All onTag onText env
  | env, element tag inner rest =>
    onTag (env.inside tag) tag ∧ inner.All onTag onText (env.inside tag) ∧ rest.All onTag onText env

variable {P Q : Environment → Tag → Prop} {T U : Text → Prop} {env : Environment}
  {p : Plain} {t : Text}

theorem All.imp (h : p.All P T env) (hP : ∀ env tag, P env tag → Q env tag) (hT : ∀ t, T t → U t) :
    p.All Q U env := by
  induction p generalizing env with
  | nil => trivial
  | text t rest ih => exact ⟨hT _ h.1, ih h.2⟩
  | element tag inner rest ih ih' => exact ⟨hP _ _ h.1, ih h.2.1, ih' h.2.2⟩

theorem All.and (h : p.All P T env) (h' : p.All Q U env) :
    p.All (fun env tag => P env tag ∧ Q env tag) (fun t => T t ∧ U t) env := by
  induction p generalizing env with
  | nil => trivial
  | text t rest ih => exact ⟨⟨h.1, h'.1⟩, ih h.2 h'.2⟩
  | element tag inner rest ih ih' => exact ⟨⟨h.1, h'.1⟩, ih h.2.1 h'.2.1, ih' h.2.2 h'.2.2⟩

/-- What holds behind character data, if it holds of parts of character data. -/
theorem All.of_prepend (h : (p.prepend t).All P T env) (hT : ∀ u v, T (u ++ v) → T v) :
    p.All P T env := by
  cases p with
  | nil => trivial
  | text u rest => exact ⟨hT t u h.1, h.2⟩
  | element tag inner rest =>
    rw [prepend] at h
    split at h
    · exact h
    · exact h.2

/-- What holds of character data in front, if it holds of parts of character data. -/
theorem All.start (h : (p.prepend t).All P T env) (hnil : T [])
    (hT : ∀ u v, T (u ++ v) → T u) : T t := by
  cases p with
  | nil =>
    rw [prepend] at h
    split at h
    · rename_i ht
      exact ht ▸ hnil
    · exact h.1
  | text u rest => exact hT t u h.1
  | element tag inner rest =>
    rw [prepend] at h
    split at h
    · rename_i ht
      exact ht ▸ hnil
    · exact h.1

/-- Character data in front. -/
theorem All.prepend (h : p.All P T env) (ht : T t) (hT : ∀ u v, T u → T v → T (u ++ v)) :
    (p.prepend t).All P T env := by
  cases p with
  | nil =>
    rw [Plain.prepend]
    split
    · exact h
    · exact ⟨ht, h⟩
  | text u rest => exact ⟨hT t u ht h.1, h.2⟩
  | element tag inner rest =>
    rw [Plain.prepend]
    split
    · exact h
    · exact ⟨ht, h⟩

end Markup.Plain

namespace Tree

/-! ### Lines -/

/-- The value without the line of an expression. -/
def Value.unlined : Value → Value
  | .literal t => .literal t
  | .expression source engine _ => .expression source engine 0

/-- The payload without the line of an expression. -/
def Payload.unlined : Payload → Payload
  | .attr a => .attr { a with value := a.value.unlined }
  | p => p

/-- The node without its line. -/
def Node.unlined (node : Node) : Node := { node with payload := node.payload.unlined, line := 0 }

/-- What a tree says, but for the lines. -/
def Content.unlined : Content → Content
  | .node self attributes below =>
    .node (self.map Node.unlined) (attributes.map (·.map Node.unlined)) (below.map unlined)

theorem Content.unlined_node (n : Option Node) (attributes : List (Option Node))
    (below : List Content) : (node n attributes below).unlined =
      .node (n.map Node.unlined) (attributes.map (·.map Node.unlined)) (below.map unlined) := by
  rw [unlined]

theorem Content.unlined_leaf (node : Node) : (leaf node).unlined = leaf node.unlined := by
  rw [leaf, unlined_node]
  rfl

/-! ### Character data without expressions -/

/-- Braces stand around nothing but blanks. -/
def IsStatic (t : Text) : Prop :=
  ∀ u x v : Text, t = u ++ 0x7b :: (x ++ 0x7d :: v) → 0x7d ∉ x → x.isBlank

variable {r : Option Resolver} {env : Environment} {t u v : Text} {scraps scraps' : List Scrap}
  {run : List Located} {f : Forest} {p : Plain} {line : Nat}

theorem isStatic_nil : IsStatic [] := fun u x v h => by simp at h

theorem IsStatic.left (h : IsStatic (t ++ u)) : IsStatic t := fun a x v ht hx =>
  h a x (v ++ u) (by simp [ht]) hx

theorem IsStatic.right (h : IsStatic (t ++ u)) : IsStatic u := fun a x v hu hx =>
  h (t ++ a) x v (by simp [hu]) hx

/-- The scraps are output, of the given text. -/
def Outputs (scraps : List Scrap) (t : Text) : Prop := ∃ ps : List (Nat × Text),
  scraps = ps.map (fun p => Scrap.data p.1 p.2) ∧ t = ps.flatMap Prod.snd

theorem Outputs.nil : Outputs [] [] := ⟨[], rfl, rfl⟩

theorem Outputs.single (line : Nat) (t : Text) : Outputs [.data line t] t :=
  ⟨[(line, t)], rfl, (List.append_nil t).symm⟩

theorem Outputs.append (h : Outputs scraps t) (h' : Outputs scraps' u) :
    Outputs (scraps ++ scraps') (t ++ u) := by
  obtain ⟨ps, rfl, rfl⟩ := h
  obtain ⟨qs, rfl, rfl⟩ := h'
  exact ⟨ps ++ qs, (List.map_append ..).symm, (List.flatMap_append ..).symm⟩

/-- Output joins to one node. -/
theorem Outputs.foldl_join (h : Outputs scraps t) (hne : scraps ≠ []) :
    ∃ line, scraps.foldl join [] = [{ payload := .cdata t, line }] := by
  obtain ⟨ps, rfl, rfl⟩ := h
  have hjoin : ∀ (ps : List (Nat × Text)) (line : Int) (u : Text),
      (ps.map fun p => Scrap.data p.1 p.2).foldl join [{ payload := .cdata u, line }] =
        [{ payload := .cdata (u ++ ps.flatMap Prod.snd), line }] := by
    intro ps
    induction ps with
    | nil => simp
    | cons p ps ih =>
      intro line u
      rw [List.map_cons, List.foldl_cons, List.flatMap_cons, ← List.append_assoc]
      exact ih line (u ++ p.2)
  cases ps with
  | nil => exact absurd rfl hne
  | cons p ps => exact ⟨p.1, hjoin ps p.1 p.2⟩

/-- Character data without expressions is output as a whole. -/
theorem scrapsOf_outputs (h : IsStatic t) : Outputs (scrapsOf r line t) t.escapeContent := by
  have hplain {line : Nat} {t : Text} :
      Outputs (scrapsOfPiece r line (.plain t)) t.escapeContent := by
    rw [scrapsOfPiece]
    split
    · rename_i ht
      rw [ht]
      exact .nil
    · exact .single line _
  rw [scrapsOf]
  fun_induction textPieces t generalizing line with
  | case1 t hcut => simpa [scrapsOfPieces] using hplain
  | case2 t before rest hcut hcut' => simpa [scrapsOfPieces] using hplain
  | case3 t before rest hcut inner after hcut' ih =>
    obtain ⟨rfl, -⟩ := Text.cut?_eq_some hcut
    obtain ⟨rfl, hinner⟩ := Text.cut?_eq_some hcut'
    have hblank : inner.isBlank := h before inner after rfl hinner
    have hafter : IsStatic after := by
      have h' : IsStatic ((before ++ 0x7b :: (inner ++ [0x7d])) ++ after) := by simpa using h
      exact h'.right
    have hbraced {line : Nat} : Outputs (scrapsOfPiece r line (.braced inner))
        (Text.escapeContent ("\x7b" ++ inner ++ "\x7d")) := by
      rw [scrapsOfPiece, if_pos hblank]
      exact .single line _
    have hall : (before ++ 0x7b :: (inner ++ 0x7d :: after)).escapeContent =
        before.escapeContent ++ (Text.escapeContent ("\x7b" ++ inner ++ "\x7d") ++
          after.escapeContent) := by
      rw [Text.escapeContent, Text.escapeContent, Text.escapeContent, Text.escapeContent,
        ← Text.substitute_append, ← Text.substitute_append]
      congr 1
      rw [List.append_assoc]
      rfl
    rw [hall]
    exact hplain.append (hbraced.append (ih hafter))

/-- The character data of events. -/
def runText (run : List Located) : Text :=
  run.flatMap fun l =>
    match l.event with
    | .characters t => t
    | _ => []

/-- The event is one of a text without sections. -/
def IsRun (e : Event) : Prop := (∃ t, e = .characters t) ∨ ∃ t, e = .comment t

/-- What was gathered from a run without expressions is output as a whole. -/
theorem finish_outputs {g : Gathering} (hrun : ∀ l ∈ run, IsRun l.event)
    (hg : Outputs g.scraps t.escapeContent)
    (h : IsStatic (t ++ g.data.reverse.flatten ++ runText run)) :
    Outputs ((run.foldl (Gathering.add r) g).finish r)
      (t ++ g.data.reverse.flatten ++ runText run).escapeContent := by
  have hfinish {g : Gathering} {t : Text} (hg : Outputs g.scraps t.escapeContent)
      (h : IsStatic (t ++ g.data.reverse.flatten)) :
      Outputs (g.finish r) (t ++ g.data.reverse.flatten).escapeContent := by
    rw [Gathering.finish, Text.escapeContent, Text.substitute_append]
    exact hg.append (scrapsOf_outputs h.right)
  induction run generalizing t g with
  | nil =>
    rw [runText, List.flatMap_nil, List.append_nil] at h ⊢
    exact hfinish hg h
  | cons l run ih =>
    obtain ⟨hl, hrest⟩ := List.forall_mem_cons.mp hrun
    rw [List.foldl_cons]
    rcases hl with ⟨u, hu⟩ | ⟨u, hu⟩
    · have htext : t ++ g.data.reverse.flatten ++ runText (l :: run) =
          t ++ (u :: g.data).reverse.flatten ++ runText run := by
        simp [runText, hu]
      rw [htext] at h ⊢
      rw [Gathering.add, hu]
      exact ih hrest hg h
    · have htext : t ++ g.data.reverse.flatten ++ runText (l :: run) =
          t ++ g.data.reverse.flatten ++ ([] : List Text).reverse.flatten ++ runText run := by
        simp [runText, hu]
      rw [htext] at h ⊢
      rw [Gathering.add, hu]
      exact ih hrest (hfinish hg (by simpa using h.left)) h

theorem scrapsOfRun_outputs (hrun : ∀ l ∈ run, IsRun l.event) (h : IsStatic (runText run)) :
    Outputs (scrapsOfRun r run) (runText run).escapeContent :=
  finish_outputs (t := []) hrun .nil h

/-- The text with one piece of output; none for nothing. -/
def staticText (t : Text) : List Content :=
  if t = [] then []
    else [.node (some { payload := .text }) [] [.leaf { payload := .cdata t.escapeContent }]]

/-- A run without expressions is one piece of output. -/
theorem textContent_unlined (hrun : ∀ l ∈ run, IsRun l.event) (hfull : ∀ l ∈ run, l.event.IsFull)
    (h : IsStatic (runText run)) :
    (textContent r run).map Content.unlined = staticText (runText run) := by
  have hcarries : (run.any fun l => carriesText l.event) = true ↔ runText run ≠ [] := by
    rw [runText, ne_eq, List.flatMap_eq_nil_iff, List.any_eq_true]
    push Not
    refine exists_congr fun l => and_congr_right fun hl => ?_
    have hl' := hfull l hl
    rcases hrun l hl with ⟨u, hu⟩ | ⟨u, hu⟩
    · rw [hu] at hl' ⊢
      exact ⟨fun _ => hl', fun _ => rfl⟩
    · rw [hu]
      simp [carriesText]
  rw [textContent, staticText]
  by_cases hany : (run.any fun l => carriesText l.event) = true
  · rw [if_pos hany, if_neg (hcarries.mp hany)]
    have hne : scrapsOfRun r run ≠ [] := fun hnil => by
      rw [(scrapsOfRun_eq_nil_iff hfull).mp hnil] at hany
      cases hany
    obtain ⟨line, hjoin⟩ := (scrapsOfRun_outputs hrun h).foldl_join hne
    rw [Content.ofScraps, hjoin, List.map_singleton, Content.unlined_node]
    simp [Content.unlined_leaf, Node.unlined, Payload.unlined]
  · rw [if_neg hany, if_pos (not_not.mp fun hne => hany (hcarries.mpr hne))]
    rfl

end Tree

/-! ### Elements and character data -/

namespace Markup.Plain

open Stencil.Tree

variable (r : Option Resolver)

/-- The trees of elements and character data, without lines. -/
def contents : Environment → Plain → List Content
  | _, nil => []
  | env, text t rest => staticText t ++ rest.contents env
  | env, element tag inner rest =>
    .node (some { payload := .element ((env.inside tag).elementOf r tag) })
      ((keptAttributes r tag).map fun a =>
        some { payload := .attr ((env.inside tag).attributeOf r 0 a) })
      (inner.contents (env.inside tag)) :: rest.contents env

variable {r} {env : Environment} {p : Plain} {t : Text}

theorem contents_prepend (hp : ¬ p.IsText) :
    (p.prepend t).contents r env = staticText t ++ p.contents r env := by
  by_cases ht : t = []
  · rw [ht, prepend_nil, staticText, if_pos rfl, List.nil_append]
  · rw [prepend_of_ne_nil ht hp, contents]

end Markup.Plain

namespace Tree

variable {r : Option Resolver} {env : Environment} {run : List Located} {f : Forest}

theorem Environment.attributeOf_unlined (line : Nat) (a : Markup.Attr) :
    Payload.unlined (.attr (env.attributeOf r line a)) = .attr (env.attributeOf r 0 a) := by
  have hvalue : (attributeValue r line a.value).unlined = attributeValue r 0 a.value := by
    rw [attributeValue, attributeValue]
    split
    · rfl
    · split <;> rfl
  rw [Environment.attributeOf, Environment.attributeOf, Payload.unlined]
  split
  · rfl
  · rw [hvalue]

/-- **Static markup leaves the trees of its elements and its character data.** -/
theorem contentsOf_unlined (hf : Full f) (hplain : ∀ l ∈ f.events, l.event.IsPlain)
    (hrun : ∀ l ∈ run, IsRun l.event) (hfull : ∀ l ∈ run, l.event.IsFull)
    {P : Environment → Tag → Prop} (h : (f.plain.prepend (runText run)).All P IsStatic env) :
    (contentsOf r env run f).map Content.unlined =
      (f.plain.prepend (runText run)).contents r env := by
  induction f generalizing env run with
  | nil =>
    have hstatic : IsStatic (runText run) := h.start isStatic_nil fun _ _ => IsStatic.left
    rw [contentsOf, textContent_unlined hrun hfull hstatic, Forest.plain,
      Plain.contents_prepend id, Plain.contents, List.append_nil]
  | single l hsingle rest ih =>
    obtain ⟨hl, hrest⟩ := hf.rest_single
    obtain ⟨hl', hplain⟩ := List.forall_mem_cons.mp hplain
    have hmore (hl' : IsRun l.event) : ∀ m ∈ run ++ [l], IsRun m.event :=
      List.forall_mem_append.mpr ⟨hrun, by simpa using hl'⟩
    have hmore' : ∀ m ∈ run ++ [l], m.event.IsFull :=
      List.forall_mem_append.mpr ⟨hfull, by simpa using hl⟩
    rw [contentsOf, Forest.plain] at *
    cases he : l.event with
    | characters t =>
      have htext : runText (run ++ [l]) = runText run ++ t := by simp [runText, he]
      rw [he] at h
      dsimp only at h ⊢
      rw [← Plain.prepend_append, ← htext] at h ⊢
      exact ih hrest hplain (hmore (.inl ⟨t, he⟩)) hmore' h
    | comment t =>
      have htext : runText (run ++ [l]) = runText run := by simp [runText, he]
      rw [he] at h
      dsimp only at h ⊢
      rw [← htext] at h ⊢
      exact ih hrest hplain (hmore (.inr ⟨t, he⟩)) hmore' h
    | declaration version encoding standalone =>
      rw [he] at h
      exact ih hrest hplain hrun hfull h
    | cdata _ => exact absurd hl' (by rw [he]; exact id)
    | doctype _ => exact absurd hl' (by rw [he]; exact id)
    | instruction _ _ => exact absurd hl' (by rw [he]; exact id)
    | _ =>
      rw [he] at hsingle
      exact hsingle.elim
  | element start tag inner stop tag' rest ih ih' =>
    obtain ⟨hinner, hrest⟩ := hf.parts_element
    obtain ⟨-, hbelow⟩ := List.forall_mem_cons.mp hplain
    obtain ⟨hplain, hbehind⟩ := List.forall_mem_append.mp hbelow
    obtain ⟨-, hplain'⟩ := List.forall_mem_cons.mp hbehind
    have hstatic : IsStatic (runText run) := h.start isStatic_nil fun _ _ => IsStatic.left
    obtain ⟨-, hall, hall'⟩ : (Plain.element tag inner.plain rest.plain).All P IsStatic env :=
      h.of_prepend fun _ _ => IsStatic.right
    have hbetween : (contentsOf r (env.inside tag) [] inner).map Content.unlined = _ :=
      ih hinner hplain (by simp) (by simp) (by rwa [runText, List.flatMap_nil, Plain.prepend_nil])
    have hbehind : (contentsOf r env [] rest).map Content.unlined = _ :=
      ih' hrest hplain' (by simp) (by simp) (by rwa [runText, List.flatMap_nil, Plain.prepend_nil])
    rw [runText, List.flatMap_nil, Plain.prepend_nil] at hbetween hbehind
    have hattrs : ((keptAttributes r tag).map fun a => (some ({
        payload := .attr ((env.inside tag).attributeOf r start.line a), line :=
          start.line } : Node))).map
          (·.map Node.unlined) = (keptAttributes r tag).map fun a =>
            some { payload := .attr ((env.inside tag).attributeOf r 0 a) } := by
      rw [List.map_map]
      refine List.map_congr_left fun a _ => ?_
      simp only [Function.comp, Option.map_some, Node.unlined, Environment.attributeOf_unlined]
    rw [contentsOf, List.map_append, List.map_cons, textContent_unlined hrun hfull hstatic,
      Forest.plain, Plain.contents_prepend id, Plain.contents,
      Content.unlined_node, hattrs, hbetween,
      hbehind]
    rfl

end Tree

end Stencil
