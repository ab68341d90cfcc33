import Stencil.Proofs.Compiler.Blame
import Stencil.Proofs.Compiler.Session
import Stencil.Proofs.Language.Loads
import Stencil.Proofs.Language.Registry
import Stencil.Proofs.Tree.Parsing

/-!
# What reading a template leaves behind

Reading a template adds its tree to the session and asks what it refers to. Nothing else changes:
what other templates have brought is as it was. If the root element is one that can refer to other
templates, then all elements that load something are found, because the search covers everything
below the root element, and nothing but the root element is directly below the document.

## Main definitions

* `Session.Brings` – a fresh tree, with the templates that are loaded in it
* `Language.Asked`, `Compiler.Loaded` – a document that was asked what it refers to, and one that
  was read

## Main results

* `Language.checkInheritance_yields` – what is found
* `Compiler.readTemplate_parsed`, `Compiler.readTemplate_yields`, `Compiler.readTemplate_fails` –
  reading
-/

namespace Stencil

open Stencil.Tree (NodeId NodeKind Store ElementData Parsed)
open Stencil.Tree.Store (Built Alike Growth Rooted)
open Stencil.Language (loadName? isNamed isRoot namespaceIdOf)

variable {d : Dialect} {s₀ s s' : Session} {doc root e n p : NodeId} {loads : List Text}

/-! ### Below a document -/

namespace Tree.Store

variable {t₀ t t' : Store} {data : ElementData}

/-- What holds an element is an element, or a document at the top. -/
theorem WellFormed.holder_of_element (h : t.WellFormed) (he : t.isElement n)
    (hp : t.parent? n = some p) : t.isElement p ∨ t.parent? p = none := by
  obtain ⟨k, l, hk, hl, hadmits⟩ := h.fits n p hp
  obtain ⟨tag, htag⟩ := isElement_iff_tag?.mp he
  obtain rfl : l = .element := by simpa [kind?_eq_map_tag?, htag] using hl.symm
  cases k with
  | element =>
    rw [kind?_eq_map_tag?] at hk
    obtain ⟨⟨_, tag⟩, htag, rfl⟩ := Option.map_eq_some_iff.mp hk
    exact .inl (isElement_iff_tag?.mpr ⟨tag, htag⟩)
  | document =>
    refine .inr (Option.eq_none_iff_forall_ne_some.mpr fun q hq => ?_)
    obtain ⟨k, l, -, hl, hadmits⟩ := h.fits p q hq
    obtain rfl : l = .document := by simpa [hk] using hl.symm
    cases k <;> cases hadmits
  | _ => cases hadmits

/-- Elements of a document are its root element or below it. -/
theorem Rooted.above (hr : t.Rooted doc root) (h : t.WellFormed)
    (hdoc : t.kind? doc = some .document)
    (he : t.isElement e) (hup : t.Above doc e) : t.Above root e := by
  obtain ⟨k, hk⟩ := hup
  induction k generalizing e with
  | zero =>
    obtain rfl := Option.some.inj hk
    obtain ⟨tag, htag⟩ := isElement_iff_tag?.mp he
    simp [kind?_eq_map_tag?, htag] at hdoc
  | succ k ih =>
    obtain ⟨p, hp, hk⟩ := Option.bind_eq_some_iff.mp hk
    rcases h.holder_of_element he hp with hel | htop
    · exact (ih hel hk).trans (.of_parent? hp)
    · -- nothing is above the holder, so it is the document
      obtain rfl : doc = p := by
        rcases above_iff.mp ⟨k, hk⟩ with heq | ⟨q, hq, -⟩
        · exact heq
        · rw [htop] at hq
          cases hq
      rw [hr.only e hp he]
      exact .refl root

theorem Rooted.rootElement? (hr : t.Rooted doc root) (h : t.WellFormed) :
    t.rootElement? doc = some root := by
  rw [Store.rootElement?]
  have hmem := h.mem_children.mpr hr.parent?
  cases hfind : (t.children doc).find? t.isElement with
  | none => exact absurd hr.isElement (List.find?_eq_none.mp hfind root hmem)
  | some c =>
    rw [hr.only c (h.mem_children.mp (List.mem_of_find?_eq_some hfind)) (List.find?_some hfind)]

/-- What was parsed can be changed where that does not matter. -/
theorem parsed_touched (h : Parsed t₀ t doc data) (hg : Growth t t') (ha : Alike t t')
    (hentire : t'.Entire doc) (hkept : ∀ n, t₀.Has n → t'.get? n = t.get? n) :
    Parsed t₀ t' doc data := by
  have hel : ∀ m, t'.isElement m ↔ t.isElement m := fun m => by
    rw [isElement_iff_tag?, isElement_iff_tag?, ha.tag?]
  obtain ⟨root, hr, htag⟩ := h.root
  exact
    { built := ⟨h.built.base, h.built.wellFormed.growth hg,
        h.built.owned.congr hg.kind? ha.attributes, h.built.labelled.alike ha,
        fun n hn => (hkept n hn).trans (h.built.kept n hn)⟩
      new := h.new
      alone := (hg.parent? doc).trans h.alone
      entire := hentire
      elements := fun n hn he => (above_kept h.built.wellFormed (fun m _ => hg.parent? m)
        (has_of_isElement ((hel n).mp he))).mpr (h.elements n hn ((hel n).mp he))
      root := ⟨root, ⟨(hg.parent? root).trans hr.parent?, (hel root).mpr hr.isElement,
        fun c hp he => hr.only c ((hg.parent? c).symm.trans hp) ((hel c).mp he)⟩,
        (ha.tag? root).trans htag⟩ }

theorem parsed_setExtra {kind : Tree.ExtraKind} {value : Tree.Extra} (h : Parsed t₀ t doc data)
    (hkind : kind ≠ .snippet) : Parsed t₀ (t.setExtra doc kind value) doc data := by
  have hg : Growth t (t.setExtra doc kind value) := .trans .modifyDocument .modifyDocument
  refine parsed_touched h hg (.trans .modifyDocument .modifyDocument)
    ⟨hg.kind? doc _ h.entire.1, (hasExtra_setExtra hkind.symm).trans h.entire.2⟩ fun n hn => ?_
  have hne : n ≠ doc := fun e => h.new (e ▸ hn)
  rw [setExtra, get?_modifyDocument_of_ne hne, removeExtra, get?_modifyDocument_of_ne hne]

theorem parsed_setVisible {v : Bool} (h : Parsed t₀ t doc data) (hnew : ¬ t₀.Has root) :
    Parsed t₀ (t.setVisible root v) doc data := by
  refine parsed_touched h Language.growth_setVisible
    (.of_payload? fun _ => Language.payload?_setVisible)
    (h.entire.of_payload? Language.payload?_setVisible) fun n hn => ?_
  have hne : root ≠ n := fun e => hnew (e ▸ hn)
  rw [Store.setVisible, get?_modify, if_neg hne]

end Tree.Store

/-! ### What is found -/

/-- A session brings a fresh tree, and the templates that are loaded in it are known. -/
structure Session.Brings (d : Dialect) (s s' : Session) (doc : NodeId) (loads : List Text) :
    Prop where
  built : Built s.store s'.store
  new : ¬ s.store.Has doc
  has : s'.store.Has doc
  alone : s'.store.parent? doc = none
  elements (n : NodeId) : ¬ s.store.Has n → s'.store.isElement n → s'.store.Above doc n
  named (e : NodeId) : s'.store.Above doc e →
    isNamed s'.store e (namespaceIdOf d) ["load"] → ∃ z ∈ loads, loadName? d s'.store e = some z
  definitions : s'.definitions = s.definitions
  documents : s'.documents = s.documents

namespace Language

/-- The names of all elements that load something are given. -/
theorem exists_loadName? {t : Store} (h : t.WellFormed) (hroot : t.Has root)
    (hloads : loadedNames d t root = .ok loads) (hup : t.Above root e) (hne : e ≠ root)
    (he : isNamed t e (namespaceIdOf d) ["load"]) : ∃ z ∈ loads, loadName? d t e = some z := by
  have hmem : e ∈ t.elementsByName root (namespaceIdOf d) "load" := by
    refine List.mem_filter.mpr ⟨Store.mem_tail_subtree
      ((h.linked.mem_subtree h.grounded hroot).mpr hup) hne, ?_⟩
    rw [isNamed] at he
    cases hdata : t.element? e with
    | none => simp [hdata] at he
    | some data => simpa [hdata] using he
  obtain ⟨z, hz, hname⟩ := exists_of_mapM_ok hloads hmem
  obtain ⟨attrs, hattrs, hname⟩ := exists_of_bind_ok hname
  refine ⟨z, hz, ?_⟩
  rw [loadName?, if_pos he, hattrs]
  exact congrArg some (Except.ok.inj hname)

/-- What comes of asking a document what it refers to. If the root element can refer to other
templates, it becomes visible, the answer is left on the document, and the names of the templates
that are loaded are found. Otherwise nothing happens. -/
structure Asked (d : Dialect) (doc : NodeId) (s : Session) (loads : List Text) (s' : Session) :
    Prop where
  rest : s' = { s with store := s'.store, properties := s'.properties }
  raised (n : NodeId) : s'.raised n = s.raised n
  store : (∀ root, s.store.rootElement? doc = some root → ¬ isRoot s.store (namespaceIdOf d) root) ∧
      s'.store = s.store ∨
    ∃ root value, s.store.rootElement? doc = some root ∧ loadedNames d s.store root = .ok loads ∧
      s'.store = (s.store.setExtra doc .inheritance value).setVisible root true

theorem Asked.definitions (h : Asked d doc s loads s') : s'.definitions = s.definitions := by
  rw [h.rest]

theorem Asked.documents (h : Asked d doc s loads s') : s'.documents = s.documents := by
  rw [h.rest]

theorem Asked.growth (h : Asked d doc s loads s') : Growth s.store s'.store := by
  obtain ⟨-, hstore⟩ | ⟨root, value, -, -, hstore⟩ := h.store
  · exact hstore ▸ .refl _
  · exact hstore ▸ (Growth.modifyDocument.trans .modifyDocument).trans growth_setVisible

theorem Asked.alike (h : Asked d doc s loads s') : Alike s.store s'.store := by
  obtain ⟨-, hstore⟩ | ⟨root, value, -, -, hstore⟩ := h.store
  · exact .of_payload? fun _ => by rw [hstore]
  · exact hstore ▸ (Alike.modifyDocument.trans .modifyDocument).trans
      (.of_payload? fun _ => payload?_setVisible)

theorem checkInheritance_asked :
    (checkInheritance d doc).Yields s fun r s' => Asked d doc s r.2 s' := by
  refine .bind (Work.store_yields ?_)
  split
  · rename_i hnone
    exact .pure ⟨rfl, fun _ => rfl, .inl ⟨fun root hroot => by simp [hnone] at hroot, rfl⟩⟩
  rename_i root hroot
  split
  · rename_i hnot
    refine .pure ⟨rfl, fun _ => rfl, .inl ⟨fun root' hroot' => ?_, rfl⟩⟩
    obtain rfl := Option.some.inj (hroot.symm.trans hroot')
    simpa using hnot
  refine .bind (Work.lift_yields fun loads hloads => .bind (Work.extract_yields fun attrs => .bind
    (Work.modifyStore_yields ?_)))
  have marks : ∀ (value : Tree.Extra) (s₁ : Session),
      s₁ = { s with store := s₁.store, properties := s₁.properties } →
      (∀ n, s₁.raised n = s.raised n) → s₁.store = s.store.setExtra doc .inheritance value →
      (do
        Work.setVisible root true
        return (attrs.text "file", loads) : Work (Text × List Text)).Yields s₁
          fun r s' => Asked d doc s r.2 s' := by
    intro value s₁ hrest hraised hstore
    exact .bind (Work.modifyStore_yields
      (.pure ⟨by rw [hrest], hraised,
        .inr ⟨root, value, hroot, hloads, congrArg (·.setVisible root true) hstore⟩⟩))
  dsimp only
  split
  · exact .bind
      (Work.setProperty_yields
        (marks _ _ rfl (fun _ => Session.raised_setProperty (by decide)) rfl))
  · exact marks _ _ rfl (fun _ => rfl) rfl

/-- Reading what a fresh document refers to leaves its tree fresh. -/
theorem checkInheritance_parsed {data : ElementData} (hp : Parsed s₀.store s.store doc data) :
    (checkInheritance d doc).Yields s fun _ s' => Parsed s₀.store s'.store doc data ∧
      s'.definitions = s.definitions ∧ s'.documents = s.documents := by
  refine checkInheritance_asked.imp fun r s' hs' => ?_
  have hdefs := hs'.definitions
  have hdocs := hs'.documents
  obtain ⟨-, hstore⟩ | ⟨root, value, hroot, -, hstore⟩ := hs'.store
  · exact ⟨hstore ▸ hp, hdefs, hdocs⟩
  · obtain ⟨x, hx, -⟩ := hp.root
    obtain rfl := Option.some.inj ((hx.rootElement? hp.built.wellFormed).symm.trans hroot)
    rw [hstore]
    exact ⟨Store.parsed_setVisible (Store.parsed_setExtra hp (by decide))
      (hp.built.new_child hp.new hx.parent?), hdefs, hdocs⟩

/-- What a fresh document refers to. -/
theorem checkInheritance_yields {data : ElementData} (hp : Parsed s₀.store s.store doc data)
    (huri : data.uri = some (namespaceIdOf d))
    (hname : data.name ∈ (["template", "extend"] : List Text))
    (hdefs : s.definitions = s₀.definitions) (hdocs : s.documents = s₀.documents) :
    (checkInheritance d doc).Yields s fun r s' => s₀.Brings d s' doc r.2 := by
  have hw := hp.built.wellFormed
  obtain ⟨root, hrooted, htag⟩ := hp.root
  have hroot : isRoot s.store (namespaceIdOf d) root := by
    rw [isRoot, isNamed_eq_tag?, htag]
    simpa [huri] using hname
  intro r s' hr
  obtain ⟨hmarked, hdefs', hdocs'⟩ := checkInheritance_parsed hp r s' hr
  refine ⟨hmarked.built, hp.new, Store.has_of_kind? hmarked.entire.1,
    hmarked.alone, hmarked.elements, fun e hup he => ?_, hdefs'.trans hdefs, hdocs'.trans hdocs⟩
  have hasked := checkInheritance_asked r s' hr
  have halike := hasked.alike
  have hgrowth := hasked.growth
  obtain ⟨hnot, -⟩ | ⟨x, value, hx, hloads, -⟩ := hasked.store
  · exact absurd hroot (hnot root (hrooted.rootElement? hw))
  obtain rfl := Option.some.inj ((hrooted.rootElement? hw).symm.trans hx)
  rw [isNamed_congr (halike.tag? e)] at he
  rw [loadName?_alike hp.built.labelled halike]
  have hel := isElement_of_isNamed he
  rw [Store.above_kept hw (fun m _ => hgrowth.parent? m) (Store.has_of_isElement hel)] at hup
  refine exists_loadName? hw (Store.has_of_isElement hrooted.isElement) hloads
    (hrooted.above hw hp.entire.1 hel hup) (fun heq => ?_) he
  -- the root element loads nothing itself
  rw [heq, isNamed_eq_tag?, htag] at he
  have hload : data.name = "load" := by simpa [huri] using he
  rw [hload] at hname
  revert hname
  decide

end Language

/-! ### Reading -/

theorem xmlParser_yields [Encoding.Decoders] {name source : Text} (hw : s.store.WellFormed)
    (ho : s.store.Owned)
    (hl : s.store.Labelled) (hc : s.canceled = false) :
    (xmlParser.parse d name source).Yields s fun doc s' =>
      Tree.Parses d source ∧ ∃ data, Tree.rootOf? d source = some data ∧
        Parsed s.store s'.store doc data ∧
        s'.definitions = s.definitions ∧ s'.documents = s.documents := by
  intro doc s' h
  rw [xmlParser] at h
  dsimp only at h
  split at h
  · rename_i doc s₁ hparse
    cases h
    obtain ⟨hparses, data, hroot, hparsed, hs₁⟩ := parseSource_yields (s := { s with
      trace := .start ("parse " ++ name) :: s.trace }) hw ho hl hc _ _ hparse
    exact ⟨hparses, data, hroot, hparsed, by rw [hs₁], by rw [hs₁]⟩
  · cases h

section Blame

variable {F : Failure → Prop} [Failure.Broad F]

theorem xmlParser_fails [Encoding.Decoders] {name source : Text} :
    (xmlParser.parse d name source).FailsOnly F s := by
  intro f s' h
  rw [xmlParser] at h
  dsimp only at h
  split at h
  · cases h
  · rename_i hparse
    cases h
    rw [parseSource] at hparse
    split at hparse
    · cases hparse
      exact Failure.Broad.plain (Failure.isPlain_ofReadError _)
    · cases hparse

theorem Language.checkInheritance_fails :
    (Language.checkInheritance d doc).FailsOnly F s := by
  refine .bind Work.store_fails fun _ _ _ => ?_
  split
  · exact .pure
  split
  · exact .pure
  refine .bind (Work.lift_fails (.mapM (fun _ => .bind blames_extractAttributes fun _ => .ok) _))
    fun _ _ _ => .bind Work.extract_fails fun _ _ _ => .bind Work.modifyStore_fails fun _ _ _ => ?_
  dsimp only
  split
  · exact .bind .modify fun _ _ _ => .bind Work.modifyStore_fails fun _ _ _ => .pure
  · exact .bind Work.modifyStore_fails fun _ _ _ => .pure

end Blame

namespace Compiler

variable {c : Compiler} {files : Files} {main name : Text}

section Blame

variable {F : Failure → Prop} [Failure.Broad F]

theorem loadTemplate_fails [Encoding.Decoders] :
    (c.loadTemplate xmlParser files name).FailsOnly F s := by
  rw [loadTemplate]
  split
  · exact .bind .pure fun _ _ _ => .bind (Work.lift_fails blames_readSource) fun _ _ _ =>
      xmlParser_fails
  · exact .bind (Work.fail_fails rfl) fun _ _ _ =>
      .bind (Work.lift_fails blames_readSource) fun _ _ _ =>
      xmlParser_fails

theorem readTemplate_fails [Encoding.Decoders]
    (hinherit : c.inheritance? = some (Language.inheritance c.dialect)) :
    (c.readTemplate xmlParser files main name).FailsOnly F s := by
  rw [readTemplate, hinherit]
  exact .bind .modify fun _ _ _ => .bind .modify fun _ _ _ => .bind loadTemplate_fails fun _ _ _ =>
    .bind .modify fun _ _ _ => .bind Language.checkInheritance_fails fun _ _ _ => .pure

end Blame

/-- The root elements of all templates that can be read can refer to other templates. -/
def Referring [Encoding.Decoders] (c : Compiler) (files : Files) : Prop :=
  ∀ name path source, files.readSource name path c.limit = .ok source →
    Tree.Parses c.dialect source → ∀ data ∈ Tree.rootOf? c.dialect source,
      data.uri = some (namespaceIdOf c.dialect) ∧ data.name ∈ (["template", "extend"] : List Text)

/-- Only the files matter if the size of sources is not limited. -/
theorem referring_of_entries [Encoding.Decoders] (hlimit : c.limit = 0)
    (h : ∀ entry ∈ files.entries, ∀ data ∈ Tree.rootOf? c.dialect entry.2,
      data.uri = some (namespaceIdOf c.dialect) ∧
      data.name ∈ (["template", "extend"] : List Text)) :
    c.Referring files := by
  intro name path source hsource _
  rw [Files.readSource, hlimit] at hsource
  dsimp only at hsource
  split at hsource
  · rename_i content hget
    obtain ⟨entry, hentry, rfl⟩ := Option.map_eq_some_iff.mp hget
    rw [if_neg fun hlt => Nat.lt_irrefl 0 hlt.1, readLimited, if_pos rfl] at hsource
    obtain rfl := Except.ok.inj hsource
    exact h entry (List.mem_of_find?_eq_some hentry)
  · split at hsource
    · cases hsource
    · split at hsource <;> cases hsource

/-- A template that was loaded: the tree of a source that can be read, in a session that is
otherwise as it was. -/
structure Loaded [Encoding.Decoders] (c : Compiler) (files : Files) (name : Text)
    (s s' : Session) (doc : NodeId)
    (path source : Text) (data : ElementData) : Prop where
  reads : files.readSource name path c.limit = .ok source
  parses : Tree.Parses c.dialect source
  root : Tree.rootOf? c.dialect source = some data
  parsed : Parsed s.store s'.store doc data
  definitions : s'.definitions = s.definitions
  documents : s'.documents = s.documents

theorem loadTemplate_yields [Encoding.Decoders] (hw : s.store.WellFormed) (ho : s.store.Owned)
    (hl : s.store.Labelled)
    (hc : s.canceled = false) : (c.loadTemplate xmlParser files name).Yields s fun doc s' =>
      ∃ path source data, c.Loaded files name s s' doc path source data := by
  have hparse : ∀ path, (do
      let source ← Work.lift (files.readSource name path c.limit)
      xmlParser.parse c.dialect name source : Work NodeId).Yields s fun doc s' =>
        ∃ path source data, c.Loaded files name s s' doc path source data := by
    intro path
    refine .bind (Work.lift_yields fun source hsource => ?_)
    refine (xmlParser_yields hw ho hl hc).imp fun doc s' hs' => ?_
    obtain ⟨hparses, data, hroot, hparsed, hdefs, hdocs⟩ := hs'
    exact ⟨path, source, data, hsource, hparses, hroot, hparsed, hdefs, hdocs⟩
  rw [loadTemplate]
  split
  · exact .bind (.pure (hparse _))
  · exact .bind .throw

section Reading

variable (hinherit : c.inheritance? = some (Language.inheritance c.dialect))
  (hw : s.store.WellFormed)
  (ho : s.store.Owned) (hl : s.store.Labelled) (hc : s.canceled = false)

include hinherit hw ho hl hc

/-- Reading a template means to load it and to ask it what it refers to. -/
theorem readTemplate_loaded [Encoding.Decoders] :
    (c.readTemplate xmlParser files main name).Yields s fun r s' => ∃ path source data s₁,
      c.Loaded files name s s₁ r.1 path source data ∧
        Language.checkInheritance c.dialect r.1 s₁ = (.ok r.2, s') := by
  rw [readTemplate, hinherit]
  refine .bind (.modify (.bind (.modify ?_)))
  -- what was noted so far is of no concern
  obtain ⟨deps, hdeps⟩ : ∃ deps, (if name = main || s.dependencies.contains name then
      { s with current := name }
        else { s with current := name, dependencies := s.dependencies ++ [name] } :
        Session) = { s with current := name, dependencies := deps } := by
    split
    · exact ⟨_, rfl⟩
    · exact ⟨_, rfl⟩
  dsimp only
  rw [hdeps]
  refine .bind ((loadTemplate_yields
    (s := { s with current := name, dependencies := deps }) hw ho hl hc).imp
      fun doc s' hs' => .bind (.modify ?_))
  obtain ⟨path, source, data, hloaded⟩ := hs'
  refine .bind fun r s'' hs'' => .pure ⟨path, source, data, _, ?_, hs''⟩
  exact ⟨hloaded.reads, hloaded.parses, hloaded.root, hloaded.parsed, hloaded.definitions,
    hloaded.documents⟩

/-- Reading a template adds a fresh tree. -/
theorem readTemplate_parsed [Encoding.Decoders] :
    (c.readTemplate xmlParser files main name).Yields s fun r s' =>
      (∃ data, Parsed s.store s'.store r.1 data) ∧ s'.definitions = s.definitions ∧
        s'.documents = s.documents := by
  refine (readTemplate_loaded hinherit hw ho hl hc).imp fun r s' hs' => ?_
  obtain ⟨path, source, data, s₁, hloaded, hcheck⟩ := hs'
  obtain ⟨hparsed, hdefs, hdocs⟩ := Language.checkInheritance_parsed hloaded.parsed _ _ hcheck
  exact ⟨⟨data, hparsed⟩, hdefs.trans hloaded.definitions, hdocs.trans hloaded.documents⟩

end Reading

/-- If the root elements of all templates can refer to other templates, it is known what is loaded
in the tree. -/
theorem readTemplate_yields [Encoding.Decoders]
    (hinherit : c.inheritance? = some (Language.inheritance c.dialect))
    (hfiles : c.Referring files) (hw : s.store.WellFormed) (ho : s.store.Owned)
    (hl : s.store.Labelled) (hc : s.canceled = false) :
    (c.readTemplate xmlParser files main name).Yields s fun r s' =>
      s.Brings c.dialect s' r.1 r.2.2 := by
  refine (readTemplate_loaded hinherit hw ho hl hc).imp fun r s' hs' => ?_
  obtain ⟨path, source, data, s₁, hloaded, hcheck⟩ := hs'
  obtain ⟨huri, hname⟩ := hfiles name path source hloaded.reads hloaded.parses data hloaded.root
  exact Language.checkInheritance_yields hloaded.parsed huri hname
    hloaded.definitions hloaded.documents
    _ _ hcheck

end Compiler

end Stencil
