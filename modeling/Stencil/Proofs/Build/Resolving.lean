import Stencil.Proofs.Build.Drafting

/-!
# What a build makes of references

For every graph of references the loop ends. Without cycles it gives the last extended template, and
otherwise it fails with a recursion. This holds of any parser, hook and stages that do their part
(`Compiler.Cooperates`), and in particular of those of the language, for templates that contain
nothing of it but what refers to other templates.

## Main definitions

* `Compiler.Supplies` – the sources of templates that only load and extend others
* `Compiler.refers` – a check for this
* `Compiler.Makes` – what becomes of the content of a template
* `Compiler.languageView` – a build, seen through contents

## Main results

* `Compiler.exists_supplies` – the check is enough
* `Compiler.language_cooperates` – the hook and the stages of the language do their part
* `Compiler.rounds_resolves` – the loop resolves references
-/

namespace Stencil.Compiler

open Relation (ReflTransGen TransGen)
open Stencil.Tree (NodeId Content Store Assembly)
open Stencil.Language (Steady Ripe roleOf loadOf namespaceIdOf isSteadyNode references)

variable {g : References} {c : Compiler} {files : Files} {reads : Text → List Content} {t z : Text}
  {cs : List Content} {d : Dialect} {config : Config} {r : Registry} {s s' : Session} {doc : NodeId}

/-! ### Templates that only load and extend others -/

/-- The templates of a graph have sources with these contents. There is nothing of the language in
them but what refers to other templates, as the graph has it. -/
structure Supplies [Encoding.Decoders] (c : Compiler) (files : Files) (g : References)
    (reads : Text → List Content) : Prop where
  read (t : Text) : t ∈ g.names → c.Provides files t (reads t) (g.extended t, g.loads t)
  steady (t : Text) : t ∈ g.names → ∀ x ∈ reads t, Steady (namespaceIdOf c.dialect) x
  /-- What loads something stands below an element. -/
  roots (t : Text) : t ∈ g.names → ∀ x ∈ reads t, roleOf (namespaceIdOf c.dialect) x.self ≠ .loads
  loads (t : Text) : t ∈ g.names → ∀ x ∈ reads t, ∀ y ∈ x.parts,
    roleOf (namespaceIdOf c.dialect) y.self = .loads →
      ∃ z, g.Loads t z ∧ loadOf c.dialect y.self y.attributes = some z

/-- Whether a node that stands below a document is nothing of the language but what refers to other
templates. What it loads is one of these, and it stands below an element then. -/
def refersAt (d : Dialect) (t : Store) (doc : NodeId) (loads : List Text) (n : NodeId) : Bool :=
  let self := t.loose n
  let attributes := (t.attributes n).map t.loose
  isSteadyNode (namespaceIdOf d) self attributes && (roleOf (namespaceIdOf d) self != .loads ||
    t.parent? n != some doc && (loadOf d self attributes).any loads.contains)

/-- Whether a template has a source that only loads and extends others, and these. -/
def refers [Encoding.Decoders] (c : Compiler) (files : Files) (name : Text) (r : Text × List Text) :
    Bool :=
  match c.streams.sourcePath name with
  | .error _ => false
  | .ok path =>
    match files.readSource name path c.limit with
    | .error _ => false
    | .ok source =>
      match Tree.ofSource (some c.dialect.resolver) false source {} with
      | (.error _, _) => false
      | (.ok (), a) => a.document.any fun doc =>
          (references c.dialect a.store doc).toOption == some r &&
            (List.range a.store.nodes.size).all fun n =>
              (a.store.parent? n).isNone || refersAt c.dialect a.store doc r.2 n

theorem refersAt_iff {t : Store} {loads : List Text} {n : NodeId} :
    refersAt d t doc loads n ↔
      isSteadyNode (namespaceIdOf d) (t.loose n) ((t.attributes n).map t.loose) ∧
        (roleOf (namespaceIdOf d) (t.loose n) = .loads → t.parent? n ≠ some doc ∧
          ∃ z ∈ loads, loadOf d (t.loose n) ((t.attributes n).map t.loose) = some z) := by
  simp only [refersAt, Bool.and_eq_true, Bool.or_eq_true, bne_iff_ne, Option.any_eq_true,
    List.contains_iff_mem, ne_eq]
  refine and_congr_right fun _ => ?_
  rw [← imp_iff_not_or]
  exact imp_congr_right fun _ => and_congr_right fun _ =>
    exists_congr fun z => and_comm

/-- A template that passes the check has a source that is read to a document, below which every
node passes it. -/
theorem exists_of_refers [Encoding.Decoders] {name : Text} {r : Text × List Text}
    (h : c.refers files name r) :
    ∃ path source a doc, c.streams.sourcePath name = .ok path ∧
      files.readSource name path c.limit = .ok source ∧
      Tree.ofSource (some c.dialect.resolver) false source {} = (.ok (), a) ∧
      a.document = some doc ∧ references c.dialect a.store doc = .ok r ∧
      ∀ m p, a.store.parent? m = some p → refersAt c.dialect a.store doc r.2 m := by
  rw [refers] at h
  split at h
  · cases h
  rename_i path hpath
  split at h
  · cases h
  rename_i source hfile
  split at h
  · cases h
  rename_i a hparse
  obtain ⟨doc, hdoc, h⟩ := (Option.any_eq_true ..).mp h
  obtain ⟨href, hall⟩ := Bool.and_eq_true_iff.mp h
  refine ⟨path, source, a, doc, hpath, hfile, hparse, hdoc, ?_, fun m p hp => ?_⟩
  · cases hr : references c.dialect a.store doc with
    | error f => simp [hr, Except.toOption] at href
    | ok r' => simpa [hr, Except.toOption] using href
  · have hmem : m ∈ List.range a.store.nodes.size := List.mem_range.mpr (Store.has_of_parent? hp)
    simpa [hp] using List.all_eq_true.mp hall m hmem

/-- A template that passes the check can be read. -/
theorem exists_reads [Encoding.Decoders] {name : Text} {r : Text × List Text}
    (h : c.refers files name r) : ∃ cs, c.Provides files name cs r ∧
      ∀ x ∈ cs, roleOf (namespaceIdOf c.dialect) x.self ≠ .loads ∧ ∀ y ∈ x.parts,
        isSteadyNode (namespaceIdOf c.dialect) y.self y.attributes ∧
          (roleOf (namespaceIdOf c.dialect) y.self = .loads →
            ∃ z ∈ r.2, loadOf c.dialect y.self y.attributes = some z) := by
  obtain ⟨path, source, a, doc, hpath, hfile, hparse, hdoc, href, hnode⟩ := exists_of_refers h
  obtain ⟨_, e, -, -, hparsed⟩ := Tree.parsed_of_ofSource Store.wellFormed_empty Store.owned_empty
    Store.labelled_empty hparse
  have hw := hparsed.built.wellFormed
  obtain ⟨x, hx⟩ := hw.exists_holds doc
  refine ⟨x.inner,
    ⟨path, source, a, doc, hpath, hfile, hparse, hdoc, (Store.holds_iff.mp hx).2.2, href⟩,
    fun y hy => ?_⟩
  obtain ⟨n, hn, hholds⟩ := Language.exists_of_forall₂ (Store.holds_iff.mp hx).2.2.flip hy
  have hparent := hw.mem_children.mp hn
  refine ⟨fun hrole => ?_, fun w hwy => ?_⟩
  · rw [← (Store.holds_iff.mp hholds).1] at hrole
    exact ((refersAt_iff.mp (hnode n doc hparent)).2 hrole).1 hparent
  · obtain ⟨m, hm, hw'⟩ := Language.exists_of_mem_parts hw hholds hwy
    obtain ⟨q, hq⟩ : ∃ q, a.store.parent? m = some q := by
      rcases Store.above_iff.mp hm with rfl | ⟨q, hq, -⟩
      · exact ⟨doc, hparent⟩
      · exact ⟨q, hq⟩
    have hrefers := refersAt_iff.mp (hnode m q hq)
    obtain ⟨hself, hattrs, -⟩ := Store.holds_iff.mp hw'
    rw [hself, hattrs] at hrefers
    exact ⟨hrefers.1, fun hrole => (hrefers.2 hrole).2⟩

/-- The check is enough. -/
theorem exists_supplies [Encoding.Decoders]
    (h : ∀ t ∈ g.names, c.refers files t (g.extended t, g.loads t)) :
    ∃ reads, Supplies c files g reads := by
  have hreads : ∀ t, ∃ cs, t ∈ g.names → c.Provides files t cs (g.extended t, g.loads t) ∧
      ∀ x ∈ cs, roleOf (namespaceIdOf c.dialect) x.self ≠ .loads ∧ ∀ y ∈ x.parts,
        isSteadyNode (namespaceIdOf c.dialect) y.self y.attributes ∧
          (roleOf (namespaceIdOf c.dialect) y.self = .loads →
            ∃ z ∈ g.loads t, loadOf c.dialect y.self y.attributes = some z) := by
    intro t
    by_cases ht : t ∈ g.names
    · obtain ⟨cs, hcs⟩ := exists_reads (h t ht)
      exact ⟨cs, fun _ => hcs⟩
    · exact ⟨[], fun h => absurd h ht⟩
  choose reads hreads using hreads
  exact ⟨reads, fun t ht => (hreads t ht).1,
    fun t ht x hx y hy => (((hreads t ht).2 x hx).2 y hy).1,
    fun t ht x hx => ((hreads t ht).2 x hx).1, fun t ht x hx y hy hrole =>
      (((hreads t ht).2 x hx).2 y hy).2 hrole⟩

/-- What becomes of the content of a template, once all templates are finished that it loads. -/
inductive Makes (d : Dialect) (g : References) (reads : Text → List Content) :
    Text → List Content → Prop
  | finish {t : Text} (κ : Text → List Content) : t ∈ g.names →
      (∀ z, g.Loads t z → Makes d g reads z (κ z)) → Makes d g reads t (finished d κ (reads t))

/-- Nothing is left to be done in what was made. -/
theorem Supplies.final [Encoding.Decoders] (h : Supplies c files g reads)
    (hm : Makes c.dialect g reads t cs) : Final (namespaceIdOf c.dialect) cs := by
  classical
  induction hm with
  | @finish t κ ht _ ih =>
    -- only what is loaded matters
    rw [finished_congr (ν := fun z => if g.Loads t z then κ z else []) fun x hx y hy hrole => ?_]
    · refine final_finished (fun z => ?_) (h.steady t ht)
      split
      · exact ih z ‹_›
      · exact final_nil
    · obtain ⟨z, hz, hload⟩ := h.loads t ht x hx y hy hrole
      exact ⟨z, hload, (if_pos hz).symm⟩

/-- What else is visible makes no difference. -/
theorem Supplies.of_revealed [Encoding.Decoders] (h : Supplies c files g reads) (ht : t ∈ g.names)
    (hcs : cs.map Content.revealed = (reads t).map Content.revealed) :
    (∀ x ∈ cs, Steady (namespaceIdOf c.dialect) x) ∧
      (∀ x ∈ cs, roleOf (namespaceIdOf c.dialect) x.self ≠ .loads) ∧
      ∀ x ∈ cs, ∀ y ∈ x.parts, roleOf (namespaceIdOf c.dialect) y.self = .loads →
        ∃ z, g.Loads t z ∧ loadOf c.dialect y.self y.attributes = some z := by
  have hread : ∀ x ∈ cs, ∃ x' ∈ reads t, x'.revealed = x.revealed := fun x hx => by
    have hmem : x.revealed ∈ (reads t).map Content.revealed := hcs ▸ List.mem_map_of_mem hx
    exact List.mem_map.mp hmem
  have hpart : ∀ x ∈ cs, ∀ y ∈ x.parts, ∃ x' ∈ reads t, ∃ w ∈ x'.parts,
      roleOf (namespaceIdOf c.dialect) w.self = roleOf (namespaceIdOf c.dialect) y.self ∧
      isSteadyNode (namespaceIdOf c.dialect) w.self w.attributes =
        isSteadyNode (namespaceIdOf c.dialect) y.self y.attributes ∧
      loadOf c.dialect w.self w.attributes = loadOf c.dialect y.self y.attributes :=
    fun x hx y hy => by
      obtain ⟨x', hx', heq⟩ := hread x hx
      obtain ⟨w, hw, hrole, -, hsteady, hload⟩ :=
        Language.exists_part_of_revealed c.dialect (namespaceIdOf c.dialect) heq hy
      exact ⟨x', hx', w, hw, hrole, hsteady, hload⟩
  refine ⟨fun x hx y hy => ?_, fun x hx => ?_, fun x hx y hy hrole => ?_⟩
  · obtain ⟨x', hx', w, hw, -, hsteady, -⟩ := hpart x hx y hy
    exact hsteady ▸ h.steady t ht x' hx' w hw
  · obtain ⟨x', hx', heq⟩ := hread x hx
    have hself := congrArg Content.self heq
    rw [Content.self_revealed, Content.self_revealed] at hself
    rw [← Language.roleOf_visible, ← hself, Language.roleOf_visible]
    exact h.roots t ht x' hx'
  · obtain ⟨x', hx', w, hw, hsame, -, hload⟩ := hpart x hx y hy
    obtain ⟨z, hz, hname⟩ := h.loads t ht x' hx' w hw (hsame.trans hrole)
    exact ⟨z, hz, hload ▸ hname⟩

/-! ### A build of such templates -/

/-- The template whose reading is recorded. -/
def readName (r : TraceRecord) : Option Text :=
  if r.message = "start" then
    match r.fields with
    | [(_, span)] => if span.take 6 = "parse " then some (span.drop 6) else none
    | _ => none
  else none

theorem readName_stages : stageRecords.filterMap readName = [] := by decide

theorem readName_of_mem_notices {r : TraceRecord} (h : r.message ∈ notices) :
    readName r = none := by
  have hne : r.message ≠ "start" := by
    rintro heq
    rw [heq] at h
    exact absurd h (by decide)
  rw [readName, if_neg hne]

/-- A build, seen through the contents of its documents. -/
def languageView (d : Dialect) (g : References) (reads : Text → List Content) : View where
  Fine := Shelf (Makes d g reads)
  Loaded s t doc := Drafted s doc (reads t)
  Asked s t doc := ∃ cs, Drafted s doc cs ∧ cs.map Content.revealed = (reads t).map Content.revealed
  Made s t doc := ∃ cs, Drafted s doc cs ∧ Makes d g reads t cs
  Given s t := (s.documents.lookup t).isSome
  log s := s.trace.reverse.filterMap readName

theorem keeps_of_worksOn {d : Dialect} (h : WorksOn (Makes d g reads) doc s s') :
    (languageView d g reads).Keeps doc s s' where
  fine := h.shelf
  dependencies := h.dependencies
  asked _ D hne := fun ⟨cs, hd, hcs⟩ => ⟨cs, h.drafted D cs hne hd, hcs⟩
  given := h.given

/-- **The hook and the stages of the language do their part** for templates that only load and
extend others. -/
theorem language_cooperates [Encoding.Decoders] (h : Supplies c files g reads)
    (hc : withLanguage config = .ok c) (hr : c.setup = .ok r) :
    Cooperates (languageView c.dialect g reads) g (Language.inheritance c.dialect) c xmlParser
      ⟨c.dialect, r⟩ files where
  installed := (parts_of_withLanguage hc).2.2
  canceled s hs := hs.canceled
  notes s s' hss' hs := by
    obtain ⟨records, hrecords, hs'⟩ := hss'
    rw [hs']
    refine ⟨hs.noted, fun u D hd => hd.noted, fun u D ⟨cs, hd, hcs⟩ => ⟨cs, hd.noted, hcs⟩,
      fun u => id, ?_⟩
    have hnone : records.filterMap readName = [] :=
      List.filterMap_eq_nil_iff.mpr fun r hr => readName_of_mem_notices (hrecords r hr)
    simp only [languageView, List.reverse_append, List.filterMap_append,
      List.filterMap_reverse, hnone]
    exact List.append_nil _
  load t ht s hs := by
    obtain ⟨doc, s', hload, hworks, hd, hnew, htrace⟩ := Shelf.load hs (h.read t ht)
    refine ⟨doc, s', hload, fun u D ⟨cs, hD, _⟩ => hnew D cs hD, keeps_of_worksOn hworks, hd, ?_⟩
    simp only [languageView, htrace, List.reverse_cons, List.append_assoc, List.filterMap_append]
    rfl
  check t ht s doc hs hd := by
    obtain ⟨s', cs, hcheck, hworks, hd', hrevealed, htrace⟩ := Shelf.check hs hd (h.read t ht)
    exact ⟨s', hcheck, keeps_of_worksOn hworks, ⟨cs, hd', hrevealed⟩,
      congrArg (·.reverse.filterMap readName) htrace⟩
  stages t ht s doc hs hasked hgiven := by
    obtain ⟨cs, hd, hcs⟩ := hasked
    obtain ⟨hsteady, hroots, hloads⟩ := h.of_revealed ht hcs
    obtain ⟨κ, s', hκ, hfinal, hstages, hworks, hd', htrace⟩ := Shelf.finish hs hd
      (Language.fluent_of_setup hc hr) (Language.marking_of_setup hc hr)
      (Language.parts_of_withLanguage hc).2 (fun z xs => h.final) hsteady hroots
      fun x hx y hy hrole => by
        obtain ⟨z, hz, hname⟩ := hloads x hx y hy hrole
        exact ⟨z, hname, hgiven z hz⟩
    refine ⟨doc, s', hstages, keeps_of_worksOn hworks, ⟨_, hd', ?_⟩, fun _ _ hne _ => hne, ?_⟩
    · rw [← finished_revealed hfinal, hcs, finished_revealed hfinal]
      exact .finish κ ht fun z hz => hκ z (hgiven z hz)
    · simp only [languageView, htrace, List.reverse_append, List.filterMap_append,
        List.filterMap_reverse, readName_stages]
      exact List.append_nil _
  handOver t ht s doc hs hmade := by
    obtain ⟨cs, hd, hcs⟩ := hmade
    obtain ⟨s', hkeep, hworks, hgiven, htrace⟩ := Shelf.keep hs hd hcs
    exact ⟨s', hkeep, keeps_of_worksOn hworks, hgiven,
      congrArg (·.reverse.filterMap readName) htrace⟩
  promote t ht s doc hs hmade := by
    obtain ⟨cs, hd, hcs⟩ := hmade
    exact ⟨doc, s, hd.promoteSnippet, ⟨hs, rfl, fun _ _ _ => id, fun _ => id⟩, ⟨cs, hd, hcs⟩, rfl⟩

/-- The empty session, in which nothing is kept. -/
theorem shelf_empty {K : Text → List Content → Prop} : Shelf K {} where
  wellFormed := Store.wellFormed_empty
  owned := Store.owned_empty
  labelled := Store.labelled_empty
  canceled := rfl
  raised _ := rfl
  kept _ _ h := nomatch h
  unique _ _ _ h := nomatch h

/-! ### A diamond -/

/-- One template extends another and loads a third; these and the third load a fourth. -/
def diamond : References where
  names := (["a", "b", "c", "d"] : List Text).toFinset
  main := "a"
  extended t := if t = "a" then "b" else []
  loads t := if t = "a" then ["c", "d"] else if t = "d" then [] else ["d"]
  main_mem := by decide
  extended_mem := by simp only [List.mem_toFinset]; decide
  loads_mem := by simp only [List.mem_toFinset]; decide

/-- A number that falls along every edge. -/
def diamondRank (t : Text) : Nat := if t = "a" then 2 else if t = "d" then 0 else 1

theorem diamondRank_lt {u : Text} (h : diamond.Leads t u) : diamondRank u < diamondRank t := by
  have hda : Text.ofString "d" ≠ "a" := by decide
  rcases h with ⟨rfl, hu⟩ | hu
  · by_cases ht : t = "a"
    · subst ht
      decide
    · simp [diamond, ht] at hu
  · by_cases ht : t = "a"
    · subst ht
      have hall : ∀ u ∈ diamond.loads "a", diamondRank u < diamondRank "a" := by decide
      exact hall u hu
    · by_cases hd : t = "d"
      · simp [References.Loads, diamond, hd, hda] at hu
      · have hud : u = "d" := by simpa [References.Loads, diamond, ht, hd] using hu
        simp [diamondRank, hud, ht, hd, hda]

theorem diamond_acyclic (t : Text) : ¬ TransGen diamond.Leads t t := by
  intro h
  have hlift : diamond.Leads ≤ Function.onFun (· > ·) diamondRank := fun _ _ => diamondRank_lt
  have hfalls := TransGen.lift diamondRank hlift t t h
  rw [Function.onFun, Relation.transGen_eq_self] at hfalls
  exact lt_irrefl _ hfalls

/-- Nothing but `b` stands at the end of the extensions. -/
theorem eq_of_diamond_last {last : Text} (h : ReflTransGen diamond.Extends "a" last)
    (hlast : ∀ t, ¬ diamond.Extends last t) : last = "b" := by
  have hab : ∀ t, diamond.Extends "a" t → t = "b" := by
    rintro t ⟨rfl, -⟩
    decide
  have hb : ∀ t, ¬ diamond.Extends "b" t := by
    rintro t ⟨rfl, ht⟩
    exact ht (by decide)
  rcases h.cases_head with rfl | ⟨t, ht, hrest⟩
  · exact absurd ⟨rfl, by decide⟩ (hlast "b")
  · obtain rfl := hab t ht
    rcases hrest.cases_head with h | ⟨u, hu, -⟩
    · exact h.symm
    · exact absurd hu (hb u)

/-- Sources of the templates. -/
def diamondFiles : Files where
  entries :=
    [("a", "<d:extend xmlns:d='http://xml.invenzzia.org/declari' file='b'><d:load template='c'/>" ++
        "<d:load template='d'/></d:extend>"),
      ("b", "<d:template xmlns:d='http://xml.invenzzia.org/declari'><p><d:load template='d'/></p>"
        ++ "</d:template>"),
      ("c", "<d:template xmlns:d='http://xml.invenzzia.org/declari'><p><d:load template='d'/></p>"
        ++ "<q/></d:template>"),
      ("d", "<d:template xmlns:d='http://xml.invenzzia.org/declari'><i>x</i></d:template>")]

/-- The language reads them as a diamond. -/
theorem diamond_refers (hc : withLanguage { maxSourceSize := [] } = .ok c) :
    ∀ t ∈ diamond.names, c.refers diamondFiles t (diamond.extended t, diamond.loads t) := by
  obtain rfl := Except.ok.inj hc
  simp only [diamond, List.mem_toFinset]
  decide +kernel

/-! ### What a build gives -/

variable {v : View} {hook : InheritanceHook} {p : Parser} {env : Stage.Environment}

/-- **Resolving references.** For every graph of references and every main template the loop ends.
Without cycles it gives the tree of the last extended template, and the other templates that were
read are the dependencies, each once and in the order of reading. With a repeated name in the chain
of extensions, or a cycle of loads below it, it fails with a recursion. It never misses an output
and never finds a second one. -/
theorem rounds_resolves (h : Cooperates v g hook c p env files) (hs : v.Fine s)
    (hd : s.dependencies = []) :
    ∃ bound out s', (∀ steps ≥ bound, ∀ n ≥ bound,
        c.rounds p env files steps n (.start g.main) s = some (out, s')) ∧
      ((∀ t, ¬ TransGen g.Leads t t) → ∃ doc last loaded, out = .ok doc ∧ v.Made s' last doc ∧
        ReflTransGen g.Extends g.main last ∧ (∀ t, ¬ g.Extends last t) ∧
        v.log s' = v.log s ++ loaded ∧
        s'.dependencies = (loaded.filter (· ≠ g.main)).eraseDups) ∧
      ((∃ t, ReflTransGen g.Extends g.main t ∧ (TransGen g.Extends t t ∨
        ∃ u, ReflTransGen g.Loads t u ∧ TransGen g.Loads u u)) →
          ∃ k, out = .error (.of (.recursion k))) ∧
      ∀ f, out = .error f →
        (∀ t, f.cause ≠ .noOutput t) ∧ ∀ t main, f.cause ≠ .duplicateOutput t main := by
  have hnoted : Noted v g s s := ⟨[], by simp, by simpa using hd⟩
  have hkept : Kept v s (.start g.main) :=
    ⟨fun _ hq => absurd hq List.not_mem_nil, List.nodup_nil, fun _ hx => absurd hx List.not_mem_nil⟩
  obtain ⟨bound, out, s', hrounds, hres⟩ := h.rounds_outcome hs hnoted (Agenda.sound_start g) hkept
  refine ⟨bound, out, s', hrounds, fun hacyclic => ?_, fun hcycle => ?_, fun f hf => ?_⟩
  · cases out with
    | error f =>
      obtain ⟨-, t, -, ht⟩ := hres
      exact absurd ht (hacyclic t)
    | ok doc =>
      obtain ⟨⟨loaded, hlog, hdep⟩, last, hmade, hsettled⟩ := hres
      refine ⟨doc, last, loaded, rfl, hmade, hsettled.reached, fun t ht => ?_, hlog, hdep⟩
      exact ht.2 (ht.1.symm.trans hsettled.last)
  · cases out with
    | error f =>
      obtain ⟨⟨k, rfl⟩, -⟩ := hres
      exact ⟨k, rfl⟩
    | ok doc =>
      obtain ⟨-, last, -, hsettled⟩ := hres
      obtain ⟨t, ht, hext | ⟨u, htu, hu⟩⟩ := hcycle
      · exact absurd hext (hsettled.grounded t ht).1
      · exact absurd hu (not_cycle_of_acc (hsettled.grounded t ht).2 htu)
  · subst hf
    obtain ⟨⟨k, rfl⟩, -⟩ := hres
    constructor
    · intro t ht
      cases ht
    · intro t main ht
      cases ht

/-- The parser, the hook and the stages of the language resolve the diamond. What is loaded is put
in place of what loads it, and the output is the tree of the template that the main one extends. -/
theorem diamond_resolves : ∃ c r reads, withLanguage { maxSourceSize := [] } = .ok c ∧
    c.setup = .ok r ∧ Supplies c diamondFiles diamond reads ∧ ∃ bound doc s' cs,
      (∀ steps ≥ bound, ∀ n ≥ bound,
        c.rounds xmlParser ⟨c.dialect, r⟩ diamondFiles steps n (.start "a") {} =
          some (.ok doc, s')) ∧
      Drafted s' doc cs ∧ Makes c.dialect diamond reads "b" cs := by
  obtain ⟨c, hc⟩ : ∃ c, withLanguage { maxSourceSize := [] } = .ok c := ⟨_, rfl⟩
  obtain ⟨r, hr⟩ := Language.exists_setup hc
  obtain ⟨reads, hreads⟩ := exists_supplies (diamond_refers hc)
  obtain ⟨bound, out, s', hrounds, hok, -⟩ :=
    rounds_resolves (language_cooperates hreads hc hr) (s := {}) shelf_empty rfl
  obtain ⟨doc, last, loaded, rfl, ⟨cs, hd, hcs⟩, hreached, hlast, -⟩ := hok diamond_acyclic
  rw [eq_of_diamond_last hreached hlast] at hcs
  exact ⟨c, r, reads, hc, hr, hreads, bound, doc, s', cs, hrounds, hd, hcs⟩

end Stencil.Compiler
