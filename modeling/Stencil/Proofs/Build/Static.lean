import Stencil.Proofs.Build.Rounds
import Stencil.Proofs.Code.Static

/-!
# Compiling plain markup

A template of plain markup uses nothing of the language: its elements and attributes are outside of
all registered namespaces, its braces stand around nothing but blanks, no value begins with the name
of an engine, and there are no sections, processing instructions or document types. Compiling such a
template keeps what it says: the output can be read again, and the tree is the same but for line
numbers.

One kind of white space is lost on the way. A reference can put tabs and line ends into a value, and
carriage returns into character data. They are written as they are, not as references, and a reader
takes them for other white space.

## Main definitions

* `IsPlainMarkup` – plain markup without such white space

## Main results

* `Compiler.build_static` – the output of a template whose tree concerns no instruction
* `Compiler.build_rereads` – the output of plain markup has the same tree
-/

namespace Stencil

open Stencil.Code (Linkable)
open Stencil.Markup (Located Forest Plain Tag)
open Stencil.Tree (NodeId Store Shape Assembly Environment)

namespace Tree.Store

variable {t : Store} {l : List NodeId} {n : NodeId} {tree : Shape}

theorem isVisible_setVisible {m : NodeId} : (t.setVisible n true).isVisible m =
    if n = m then (t.payload? m).isSome else t.isVisible m := by
  rw [setVisible, isVisible, isVisible, payload?, get?_modify]
  split
  · cases t.get? m <;> rfl
  · rfl

theorem isVisible_revealAll_of_isVisible (h : t.isVisible n) : (t.revealAll l).isVisible n := by
  induction l generalizing t with
  | nil => exact h
  | cons m l ih =>
    refine ih ?_
    rw [isVisible_setVisible]
    split
    · rw [isVisible] at h
      rw [payload?]
      cases hn : t.get? n with
      | none => simp [hn] at h
      | some node => rfl
    · exact h

theorem isVisible_revealAll {p : Payload} (hn : n ∈ l) (h : t.payload? n = some p) :
    (t.revealAll l).isVisible n := by
  induction l generalizing t with
  | nil => cases hn
  | cons m l ih =>
    rcases List.mem_cons.mp hn with rfl | hn
    · change ((t.setVisible n true).revealAll l).isVisible n
      refine isVisible_revealAll_of_isVisible ?_
      rw [isVisible_setVisible, if_pos rfl, h]
      rfl
    · exact ih hn (Language.payload?_setVisible.trans h)

end Tree.Store

theorem Session.Bare.linkable {s : Session} {t : Store} (hs : s.Bare t) :
    s.linkable = ⟨t, {}, {}⟩ := by
  rw [Session.linkable, hs.store, hs.buffers, hs.properties]

namespace Compiler

variable {c : Compiler} {config : Config} {files : Files} {steps : Nat} {name path source : Text}
  {a : Assembly} {s : Session} {t : Store} {tree : Shape} {doc : NodeId} {d : Dialect}
  {env : Stage.Environment}

/-! ### Reading -/

theorem parse_bare [Encoding.Decoders]
    (h : Tree.ofSource (some d.resolver) false source {} = (.ok (), a))
    (hs : s.Bare {}) :
    (xmlParser.parse d name source).Gives s fun doc s' =>
      doc = a.document.getD 0 ∧ s'.Bare a.store := by
  obtain ⟨hstore, hbuffers, hproperties, hcanceled⟩ := hs
  have hparse : parseSource d source { s with trace := .start ("parse " ++ name) :: s.trace } =
      (.ok (a.document.getD 0), { s with
        store := a.store
        trace := .start ("parse " ++ name) :: s.trace }) := by
    rw [parseSource]
    simp only [hstore, hcanceled, h]
  refine ⟨a.document.getD 0, { s with
    store := a.store
    trace := .finish ("parse " ++ name) :: .start ("parse " ++ name) :: s.trace }, ?_, rfl, rfl,
    hbuffers, hproperties, hcanceled⟩
  simp only [xmlParser, hparse]

/-- A document whose root element is in no registered namespace refers to no other. -/
theorem checkInheritance_eq (h : ∀ root, s.store.rootElement? doc = some root →
    ∃ e, s.store.payload? root = some (.element e) ∧ e.uri = none) :
    Language.checkInheritance d doc s = (.ok ([], []), s) := by
  rw [Language.checkInheritance, Action.bind_ok (show Work.store s = (.ok s.store, s) from rfl)]
  cases hroot : s.store.rootElement? doc with
  | none => rfl
  | some root =>
    obtain ⟨e, he, huri⟩ := h root hroot
    have hnot : Language.isRoot s.store (Language.namespaceIdOf d) root = false := by
      rw [Language.isRoot, Language.isNamed, Store.element?, he]
      dsimp only
      rw [huri]
      rfl
    dsimp only
    rw [hnot]
    rfl

theorem loadTemplate_bare [Encoding.Decoders] (hpath : c.streams.sourcePath name = .ok path)
    (hfile : files.readSource name path c.limit = .ok source)
    (h : Tree.ofSource (some c.dialect.resolver) false source {} = (.ok (), a)) (hs : s.Bare {}) :
    (c.loadTemplate xmlParser files name).Gives s fun doc s' =>
      doc = a.document.getD 0 ∧ s'.Bare a.store := by
  have hlift : Work.lift (files.readSource name path c.limit) s = (.ok source, s) := by
    rw [hfile]
    rfl
  rw [loadTemplate, hpath]
  exact .bind (.pure (.bind ⟨source, s, hlift, parse_bare h hs⟩))

/-- The root element of the document is in no registered namespace. -/
def Rootless (t : Store) (doc : NodeId) : Prop :=
  ∀ root, t.rootElement? doc = some root → ∃ e, t.payload? root = some (.element e) ∧ e.uri = none

theorem rootless_of_isInert (ht : t.Shaped tree) (hinert : ∀ n ∈ tree.ids, t.IsInert n) :
    Rootless t tree.root := by
  intro root hroot
  have helement : t.isElement root := List.find?_some hroot
  have hmem : root ∈ tree.ids := by
    have hchild := List.mem_of_find?_eq_some hroot
    cases ht with
    | node hroots _ =>
      rw [Shape.root, ← hroots] at hchild
      obtain ⟨u, hu, rfl⟩ := List.mem_map.mp hchild
      exact Shape.mem_ids_of_mem_below hu u.root_mem_ids
  rw [Store.isElement_eq_payload?] at helement
  cases hinert root hmem with
  | element h huri _ => exact ⟨_, h, huri⟩
  | document h | text h | cdata h =>
    rw [h] at helement
    cases helement

theorem readTemplate_bare [Encoding.Decoders] (main : Text) (hc : withLanguage config = .ok c)
    (hpath : c.streams.sourcePath name = .ok path)
    (hfile : files.readSource name path c.limit = .ok source)
    (h : Tree.ofSource (some c.dialect.resolver) false source {} = (.ok (), a))
    (hroot : Rootless a.store (a.document.getD 0)) (hs : s.Bare {}) :
    (c.readTemplate xmlParser files main name).Gives s fun r s' =>
      r = (a.document.getD 0, [], []) ∧ s'.Bare a.store := by
  obtain ⟨-, -, hinherit⟩ := parts_of_withLanguage hc
  rw [readTemplate]
  refine .bind ⟨_, _, Action.modify_apply _ s, .bind ⟨_, _, addDependency_apply .., .bind ?_⟩⟩
  obtain ⟨doc, s', hload, rfl, hs'⟩ := loadTemplate_bare hpath hfile h
    (s := { ({ s with current := name } : Session) with dependencies := _ })
    ⟨hs.store, hs.buffers, hs.properties, hs.canceled⟩
  refine ⟨_, s', hload, .bind ⟨⟨⟩, _, rfl, ?_⟩⟩
  rw [hinherit]
  have hroot' : Rootless s'.store (a.document.getD 0) := hs'.store ▸ hroot
  refine .bind ⟨_, _, checkInheritance_eq hroot', .pure ⟨rfl, ?_⟩⟩
  exact hs'.recorded _

/-! ### Finishing -/

section Finishing

variable [Encoding.Decoders] (hc : withLanguage config = .ok c)
  (hw : t.WellFormed) (ht : t.Shaped tree) (hinert : ∀ n ∈ tree.ids, t.IsInert n)
  (hsteps : 2 * tree.ids.length < steps)

include hc hw ht hinert hsteps

variable (env) in
/-- The stages make the tree visible. -/
theorem runStages_bare (hs : s.Bare t) : ∃ s', c.runStages env steps tree.root s =
    some (.ok tree.root, s') ∧ s'.Bare (t.revealAll tree.ids) := by
  obtain ⟨s₁, hfirst, hs₁⟩ := Stage.run_manipulation env hs hw ht hinert hsteps
  obtain ⟨s₂, hsecond, hs₂⟩ := Stage.run_processing env hs₁ hw ht hinert hsteps
  refine ⟨s₂, ?_, hs₂⟩
  rw [runStages, (Language.parts_of_withLanguage hc).2, List.foldlM_cons,
    Process.bind_ok (runStage_standard hs.canceled hfirst), List.foldlM_cons,
    Process.bind_ok (runStage_standard hs₁.canceled hsecond)]
  rfl

variable (hdoc : t.payload? tree.root = some (.document { type := "xml", singleRoot := true }))

include hdoc

omit [Encoding.Decoders] hc hw ht hinert hsteps in
theorem promoteSnippet_bare (hs : s.Bare (t.revealAll tree.ids)) :
    promoteSnippet tree.root s = (.ok tree.root, s) := by
  have hextra : s.store.hasExtra tree.root .snippet = false := by
    rw [hs.store, Store.hasExtra, Store.extra?, Store.extras, Store.document?,
      Store.payload?_revealAll, hdoc]
    rfl
  rw [promoteSnippet, Action.bind_ok (show Work.store s = (.ok s.store, s) from rfl), hextra]
  rfl

variable (env) in
/-- A template that nobody loads and that extends none is the output. -/
theorem finish_bare {r : Request} {agenda : Agenda} (hr : r.isLoaded = false)
    (hout : agenda.output = none) (hs : s.Bare t) :
    ∃ s', c.finish env steps r tree.root [] agenda s = some (.ok { agenda with
      finished := r.name :: agenda.finished, output := some tree.root }, s') ∧
        s'.Bare (t.revealAll tree.ids) := by
  obtain ⟨s', hstages, hs'⟩ := runStages_bare env hc hw ht hinert hsteps hs
  refine ⟨s', ?_, hs'⟩
  rw [finish, Process.bind_ok hstages]
  dsimp only
  rw [hr, hout, if_neg Bool.false_ne_true, if_neg (not_not.mpr rfl), if_neg (by simp),
    Process.bind_ok (show (promoteSnippet tree.root).toProcess s' = _ from
      congrArg some (promoteSnippet_bare hdoc hs'))]
  rfl

end Finishing

section Building

variable [Encoding.Decoders] (hc : withLanguage config = .ok c)
  (hpath : c.streams.sourcePath name = .ok path)
  (hfile : files.readSource name path c.limit = .ok source)
  (hparse : Tree.ofSource (some c.dialect.resolver) false source {} = (.ok (), a))
  (hdoc : a.document = some tree.root)
  (hpay : a.store.payload? tree.root = some (.document { type := "xml", singleRoot := true }))
  (hw : a.store.WellFormed) (ht : a.store.Shaped tree) (hinert : ∀ n ∈ tree.ids, a.store.IsInert n)
  (hsteps : 2 * tree.ids.length < steps)

include hc hpath hfile hparse hdoc hpay hw ht hinert hsteps

variable (env) in
/-- The template is read and is the output. -/
theorem assemble_bare (hs : s.Bare {}) : ∃ s', c.assemble xmlParser env files steps name s =
    some (.ok tree.root, s') ∧ s'.Bare (a.store.revealAll tree.ids) := by
  obtain ⟨n, rfl⟩ : ∃ n, steps = n + 2 := by
    refine ⟨steps - 2, ?_⟩
    have hpos := List.length_pos_of_mem tree.root_mem_ids
    omega
  have hstart : ({ s with current := name } : Session).Bare {} :=
    ⟨hs.store, hs.buffers, hs.properties, hs.canceled⟩
  have hroot : Rootless a.store (a.document.getD 0) := by
    rw [hdoc]
    exact rootless_of_isInert ht hinert
  obtain ⟨-, s₁, hread, rfl, hs₁⟩ := readTemplate_bare name hc hpath hfile hparse hroot hstart
  rw [hdoc, Option.getD_some] at hread
  obtain ⟨s₂, hfinish, hs₂⟩ := finish_bare env (r := { name, chain := [name] }) hc hw ht hinert
    hsteps hpay rfl
    (show ({ Agenda.start name with queue := [] } : Agenda).output = none from rfl) hs₁
  refine ⟨s₂, ?_, hs₂⟩
  have htake : c.takeUp xmlParser env files (n + 2) { name, chain := [name] }
      { Agenda.start name with queue := [] } { s with current := name } =
        some (.ok { Agenda.start name with
          queue := [], finished := [name], output := some tree.root }, s₂) := by
    rw [takeUp, Process.bind_ok (congrArg some hread)]
    exact hfinish
  have hrounds : c.rounds xmlParser env files (n + 2) (n + 2) (.start name)
      { s with current := name } = some (.ok tree.root, s₂) := by
    have hcheck : Work.checkCanceled.toProcess { s with current := name } =
        some (.ok ⟨⟩, { s with current := name }) :=
      congrArg some (checkCanceled_apply hs.canceled)
    rw [rounds]
    change (Work.checkCanceled.toProcess >>= fun _ => _) _ = _
    rw [Process.bind_ok hcheck, Process.bind_ok htake, rounds]
    rfl
  rw [assemble, hrounds]

/-- **The output of a template whose tree concerns no instruction** is what is written of that tree,
once all of it is visible. -/
theorem build_static : ∃ artifact s, c.build files steps name {} = some (.ok artifact, s) ∧
    artifact.output = Linkable.render ⟨a.store.revealAll tree.ids, {}, {}⟩ tree := by
  obtain ⟨r, hr⟩ := Language.exists_setup hc
  have hstart : (Session.openUnit { ({} : Session) with trace := .start "build" :: [] }).Bare {} :=
    ⟨rfl, rfl, rfl, rfl⟩
  obtain ⟨s₁, hassemble, hs₁⟩ := assemble_bare ⟨c.dialect, r⟩ hc hpath hfile hparse hdoc
    hpay hw ht hinert hsteps hstart
  have hcheck : Work.checkCanceled.toProcess s₁ = some (.ok ⟨⟩, s₁) :=
    congrArg some (checkCanceled_apply hs₁.canceled)
  -- the linker meets the visible tree
  have hgrowth : Store.Growth a.store (a.store.revealAll tree.ids) := Store.growth_revealAll
  obtain ⟨ps, hlink, -⟩ := Linkable.link_of_shaped (l := ⟨a.store.revealAll tree.ids, {}, {}⟩) {}
    (hw.growth hgrowth) (ht.growth hw hgrowth) (Store.payload?_revealAll.trans hpay) fun _ => rfl
  obtain ⟨blocks, s₂, hlinked⟩ : ∃ blocks s₂, xmlLinker.link tree.root s₁ =
      some (.ok (Linkable.render ⟨a.store.revealAll tree.ids, {}, {}⟩ tree, blocks), s₂) := by
    simp only [xmlLinker, (hs₁.recorded _).linkable, hlink]
    exact ⟨_, _, rfl⟩
  have hwith : c.buildWith xmlParser xmlLinker r files steps name
      (Session.openUnit { ({} : Session) with trace := .start "build" :: [] }) = some (.ok
        { template := name, output := Linkable.render ⟨a.store.revealAll tree.ids, {}, {}⟩ tree
          dependencies := s₂.dependencies, dynamicBlocks := blocks }, s₂) := by
    rw [buildWith, Process.bind_ok hassemble, Process.bind_ok hcheck, Process.bind_ok hlinked]
    rfl
  have hbuild : c.buildIn files steps name { session := {} } = _ := buildIn_eq hc hr rfl
  rw [hwith] at hbuild
  exact ⟨_, _, by rw [build, hbuild]; rfl, rfl⟩

end Building

/-! ### Plain markup -/

/-- The template is plain markup with the given events between its start and its end: nothing is in
a registered namespace, there are no sections, instructions or document types, braces stand around
nothing but blanks, and no value begins with the name of an engine. -/
structure IsPlainMarkup [Encoding.Decoders] (r : Tree.Resolver) (source : Text) (f : Forest) :
    Prop where
  events : ∃ first second last, Markup.events source = first :: second :: (f.events ++ [last])
  plain (l : Located) : l ∈ f.events → l.event.IsPlain
  unregistered : f.plain.All (Tree.IsUnregistered (some r)) (fun _ => True) .initial
  literal : f.plain.All (fun _ tag => tag.IsLiteral r) Tree.IsStatic .initial

/-- Two assemblies hold the same document but for line numbers. -/
def SameDocument (a b : Assembly) : Prop := ∃ doc doc' x y, a.document = some doc ∧
  b.document = some doc' ∧ a.store.Holds doc x ∧ b.store.Holds doc' y ∧ x.unlined = y.unlined

/-- **Compiling plain markup keeps its meaning.** The output can be read again, and gives the same
tree but for line numbers, unless white space has got into values, or carriage returns into
character data, by way of references. -/
theorem build_rereads [Encoding.Decoders] {f : Forest} (hc : withLanguage config = .ok c)
    (hpath : c.streams.sourcePath name = .ok path)
    (hfile : files.readSource name path c.limit = .ok source)
    (hparse : Tree.ofSource (some c.dialect.resolver) false source {} = (.ok (), a))
    (hplain : IsPlainMarkup c.dialect.resolver source f)
    (hstable : f.plain.All (fun _ tag => tag.IsStable) Markup.IsStable .initial) :
    ∃ enough, ∀ steps ≥ enough, ∃ artifact s, c.build files steps name {} = some (.ok artifact, s) ∧
      ∃ a', Tree.ofSource (some c.dialect.resolver) false artifact.output {} = (.ok (), a') ∧
        SameDocument a a' := by
  obtain ⟨first, second, last, hevents⟩ := hplain.events
  have hstatic := (hplain.unregistered.and hplain.literal).imp (Q := Tree.IsUnregistered _)
    (U := Tree.IsStatic) (fun _ _ h => h.1) fun _ h => h.2
  obtain ⟨-, -, -, hprintable⟩ := Tree.exists_element_of_ofSource hparse hevents
  obtain ⟨doc, x, hdoc, hx, hsays⟩ := Tree.static_source_holds hparse hevents hplain.plain hstatic
  obtain ⟨_, _, -, -, hparsed⟩ := Tree.parsed_of_ofSource Store.wellFormed_empty Store.owned_empty
    Store.labelled_empty hparse
  have hw : a.store.WellFormed := hparsed.built.wellFormed
  obtain ⟨⟨n, below⟩, rfl, ht, rfl⟩ := hx
  obtain ⟨hself, -, hbelow⟩ := Store.unlined_content_node.mp hsays
  have hpay := Store.payload?_eq_document_of_unlined hself
  have hdepicts :=
    Tree.depicts_of_contents hprintable (hplain.unregistered.and hplain.literal) hbelow
  have hinert : ∀ m ∈ (Shape.node n below).ids, a.store.IsInert m := by
    rw [Shape.ids_node, List.forall_mem_cons]
    exact ⟨.document hpay, hdepicts.isInert⟩
  obtain ⟨a', doc', y, hagain, hdoc', hy, hsays'⟩ :=
    Tree.exists_ofSource_print hparse hevents hstatic hstable
  refine ⟨2 * (Shape.node n below).ids.length + 1, fun steps hsteps => ?_⟩
  obtain ⟨artifact, s, hbuild, houtput⟩ := build_static hc hpath hfile hparse hdoc hpay hw ht hinert
    (show 2 * (Shape.node n below).ids.length < steps by omega)
  -- what is written is the markup without the declarations of registered namespaces
  have hwritten : artifact.output = (f.plain.kept (some c.dialect.resolver)).print := by
    rw [houtput]
    refine (hdepicts.congr fun _ => Store.payload?_revealAll).render_document
      (Store.payload?_revealAll.trans hpay) rfl fun m hm => ?_
    cases hinert m hm with
    | _ h => exact Store.isVisible_revealAll hm h
  exact ⟨artifact, s, hbuild, a', hwritten ▸ hagain, _, doc', _, y, hdoc,
    hdoc', ⟨_, rfl, ht, rfl⟩, hy, hsays.trans hsays'.symm⟩

/-- A template with a reference, a pair of braces and an element that closes itself. -/
def sober : Text := "<p a=\"1 &amp; 2\">x\x7b \x7d<b/></p>"

/-- The position after so many bytes of it, at the given column. -/
def inSober (column n : Nat) : Markup.Position :=
  { line := 1, column, location := n, consumed := (sober.chars.take n).reverse }

/-- What is between its start and its end. -/
def soberForest : Forest :=
  let p : Tag := { name := ⟨[], "p"⟩, attrs := [⟨⟨[], "a"⟩, "1 & 2"⟩], selfClosing := false }
  let b : Tag := { name := ⟨[], "b"⟩, attrs := [], selfClosing := true }
  .element (inSober 1 17) p (.single ⟨inSober 18 21, .characters "x\x7b \x7d"⟩ trivial
    (.element (inSober 22 25) b .nil (inSober 22 25) b .nil)) (inSober 26 29)
    { p with attrs := [] } .nil

theorem isPlainMarkup_sober (r : Tree.Resolver) : IsPlainMarkup r sober soberForest where
  events := ⟨⟨inSober 1 0, .locator⟩, ⟨inSober 1 0, .startDocument⟩, ⟨inSober 30 29, .endDocument⟩,
    by decide +kernel⟩
  plain := by decide +kernel
  unregistered := by
    have hfree {env : Environment} {tag : Tag} (henv : env [] = none)
      (htag : tag.name.qualifier = [])
        (hattrs : ∀ a ∈ tag.attrs, a.name.qualifier = []) : Tree.IsUnregistered (some r) env tag :=
      ⟨by rw [htag, Environment.identifier?, henv]; rfl, fun a ha _ hq => absurd (hattrs a ha) hq⟩
    exact ⟨hfree rfl rfl (by decide),
      ⟨trivial, hfree rfl rfl (by decide), trivial, trivial⟩, trivial⟩
  literal := by
    have hliteral {tag : Tag} (htag : ∀ a ∈ tag.attrs, 0x3a ∉ a.value) : tag.IsLiteral r :=
      fun a ha engine source hvalue => absurd (by simp [hvalue]) (htag a ha)
    refine ⟨hliteral (by decide), ⟨fun u x v h _ => ?_, hliteral (by decide), trivial, trivial⟩,
      trivial⟩
    -- there is one pair of braces
    have hsplit : ("x\x7b \x7d" : Text) = [0x78, 0x7b, 0x20, 0x7d] := by decide
    rw [hsplit] at h
    have hinside : [0x20, 0x7d] = x ++ 0x7d :: v := by
      obtain _ | ⟨b, _ | ⟨b', u⟩⟩ := u
      · simp at h
      · simpa using (List.cons.inj h).2
      · have hmem : 0x7b ∈ ([0x20, 0x7d] : Text) := by
          rw [(List.cons.inj (List.cons.inj h).2).2]
          simp
        exact absurd hmem (by decide)
    obtain _ | ⟨d, x⟩ := x
    · simp at hinside
    · obtain ⟨rfl, hrest⟩ := List.cons.inj hinside
      obtain _ | ⟨d', x⟩ := x
      · decide
      · simp at hrest

/-- The template is compiled and read again. -/
theorem sober_rereads : ∃ c f a, withLanguage { maxSourceSize := [] } = .ok c ∧
    c.streams.sourcePath "main" = .ok "main" ∧ IsPlainMarkup c.dialect.resolver sober f ∧
    Tree.ofSource (some c.dialect.resolver) false sober {} = (.ok (), a) ∧
    ∃ enough, ∀ steps ≥ enough, ∃ artifact s,
      c.build { entries := [("main", sober)] } steps "main" {} = some (.ok artifact, s) ∧
        ∃ a', Tree.ofSource (some c.dialect.resolver) false artifact.output {} = (.ok (), a') ∧
          SameDocument a a' := by
  obtain ⟨c, hc⟩ : ∃ c, withLanguage { maxSourceSize := [] } = .ok c := ⟨_, rfl⟩
  have hparse : (Tree.ofSource (some c.dialect.resolver) false sober {}).1.isOk := by
    obtain rfl := Except.ok.inj hc
    decide +kernel
  obtain ⟨a, ha⟩ : ∃ a, Tree.ofSource (some c.dialect.resolver) false sober {} = (.ok (), a) := by
    cases h : Tree.ofSource (some c.dialect.resolver) false sober {} with
    | mk result a =>
      cases result with
      | ok _ => exact ⟨a, rfl⟩
      | error e =>
        rw [h] at hparse
        cases hparse
  have hpath : c.streams.sourcePath "main" = .ok "main" := by
    obtain rfl := Except.ok.inj hc
    decide +kernel
  have hfile : Files.readSource { entries := [("main", sober)] } "main" "main" c.limit =
      .ok sober := by
    obtain rfl := Except.ok.inj hc
    rfl
  have hstable : soberForest.plain.All (fun _ tag => tag.IsStable) Markup.IsStable .initial := by
    refine ⟨?_, ⟨?_, ?_, trivial, trivial⟩, trivial⟩ <;> beta_reduce <;> decide
  exact ⟨c, soberForest, a, hc, hpath, isPlainMarkup_sober _, ha,
    build_rereads hc hpath hfile ha (isPlainMarkup_sober _) hstable⟩

end Compiler

end Stencil
