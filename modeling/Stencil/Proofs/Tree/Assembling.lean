import Stencil.Proofs.Tree.Parsing
import Stencil.Proofs.Tree.Sprouts

/-!
# Trees are assembled as their events say

The tree of a source is put together node by node while its events come in: character data is held
back until something else follows, and is then added to whatever the innermost open node ends with.
Here the tree is compared with the one that the nested events stand for, which is defined without a
word on any of this.

The comparison follows the nesting. While the content of a node is taken in, what its children hold
is known, up to a text at the end that may still grow (`Assembly.Inside`); the list of bindings and
the counts of declarations are those of the node. Between the tags of an element the same holds of
the element, and behind its end tag the list is back at what it was.

## Main definitions

* `Assembly.Inside` – an assembly inside of a node
* `Store.SoundAt` – texts at a node are apart and not empty

## Main results

* `Assembly.Inside.deliver` – nested events give the trees they stand for
* `ofSource_holds` – a source gives the document that its events stand for, with texts that are
  apart and not empty
-/

namespace Stencil.Tree

open Markup (Located Event Tag Forest)
open Store (Built Adds Tends Under Sprout Apart textsOf)

variable {s₀ : Store} {r : Option Resolver} {a a' : Assembly} {p : NodeId} {env : Environment}
  {cs : List Content} {g : Gathering} {l : Located} {run : List Located} {f : Forest}

/-- The text for a run of events that are not empty. -/
theorem textContent_eq (hfull : ∀ l ∈ run, l.event.IsFull) :
    textContent r run = textsOf (scrapsOfRun r run) := by
  rw [textContent, textsOf]
  by_cases hnil : scrapsOfRun r run = []
  · rw [if_pos hnil, (scrapsOfRun_eq_nil_iff hfull).mp hnil, if_neg Bool.false_ne_true]
  · rw [if_neg hnil, if_pos]
    by_contra hany
    exact hnil ((scrapsOfRun_eq_nil_iff hfull).mpr (Bool.not_eq_true _ ▸ hany))

namespace Assembly

/-- An assembly inside of a node, whose children hold `cs` and the text of what was gathered, less
the character data that is held back. -/
structure Inside (s₀ : Store) (p : NodeId) (env : Environment) (cs : List Content) (g : Gathering)
    (a : Assembly) : Prop where
  built : Built s₀ a.store
  new : ¬ s₀.Has p
  isOpen : a.store.IsOpen p
  current : a.current? = some p
  scope : a.bindings.Says env
  apart : Apart cs
  under : a.store.Under p (cs ++ textsOf g.scraps)
  pending : a.pending = g.data
  line : g.data ≠ [] → a.pendingLine = g.line

/-- The same nodes are open, with the same bindings. -/
structure Level (a a' : Assembly) : Prop where
  document : a'.document = a.document
  opened : a'.opened = a.opened
  bindings : a'.bindings = a.bindings
  declared : a'.declared = a.declared

protected theorem Level.refl (a : Assembly) : Level a a := ⟨rfl, rfl, rfl, rfl⟩

protected theorem Level.trans {a'' : Assembly} (h : Level a a') (h' : Level a' a'') : Level a a'' :=
  ⟨h'.document.trans h.document, h'.opened.trans h.opened, h'.bindings.trans h.bindings,
    h'.declared.trans h.declared⟩

/-- Closing a node on the same level leads to the same level. -/
theorem Level.leave (h : Level a a') : Level a.leave a'.leave where
  document := h.document
  opened := congrArg List.tail h.opened
  bindings := by rw [Assembly.leave, Assembly.leave, h.bindings, h.declared]
  declared := congrArg List.tail h.declared

/-- What changes while events are taken in inside of a node: nothing outside of it. -/
structure Onward (p : NodeId) (a a' : Assembly) : Prop where
  level : Level a a'
  tends : Tends p a.store a'.store

protected theorem Onward.refl (a : Assembly) : Onward p a a := ⟨.refl a, .refl a.store⟩

protected theorem Onward.trans {a'' : Assembly} (hw : a.store.WellFormed) (h : Onward p a a')
    (h' : Onward p a' a'') : Onward p a a'' :=
  ⟨h.level.trans h'.level, h.tends.trans hw h'.tends⟩

/-- Character data that was held back is put into the tree. -/
theorem Inside.flush (h : Inside s₀ p env cs g a) :
    Inside s₀ p env cs { scraps := g.finish r } (a.flush r) ∧ Onward p a (a.flush r) := by
  have hcurrent := h.current
  rw [Assembly.flush, hcurrent]
  dsimp only
  have hadds : Adds s₀ a.store (appendPieces r p a.pendingLine a.store
      (textPieces a.pending.reverse.flatten)) := .appendPieces h.built h.new h.isOpen
  obtain ⟨htends, hunder⟩ : Tends p a.store (appendPieces r p a.pendingLine a.store _) ∧ _ :=
    h.under.appendPieces h.built h.new h.isOpen h.apart
  refine ⟨⟨hadds.after, h.new, hadds.isOpen h.isOpen, hcurrent, h.scope,
    h.apart, ?_, rfl, absurd rfl⟩, ⟨rfl, rfl, rfl, rfl⟩, htends⟩
  rw [Gathering.finish]
  have hline : scrapsOf r g.line g.data.reverse.flatten =
      scrapsOf r a.pendingLine a.pending.reverse.flatten := by
    rw [h.pending]
    by_cases hdata : g.data = []
    · rw [hdata]
      exact (scrapsOf_eq_nil_iff.mpr rfl).trans (scrapsOf_eq_nil_iff.mpr rfl).symm
    · rw [h.line hdata]
  rw [hline]
  exact hunder

/-! ### Events by themselves -/

/-- Events of a text. -/
theorem Inside.receive_text (h : Inside s₀ p env cs (run.foldl (Gathering.add r) {}) a)
    (hok : receive r l a = (.ok (), a')) (hl : carriesText l.event ∨ ∃ t, l.event = .comment t) :
    Inside s₀ p env cs ((run ++ [l]).foldl (Gathering.add r) {}) a' ∧ Onward p a a' := by
  obtain ⟨hflush, honward⟩ := h.flush (r := r)
  rw [List.foldl_append, List.foldl_cons, List.foldl_nil, Gathering.add]
  rw [receive] at hok
  generalize run.foldl (Gathering.add r) {} = g at h hflush ⊢
  cases he : l.event with
  | characters t =>
    rw [he] at hok
    change a.take r _ (.characters t) = _ at hok
    cases hok
    refine ⟨{ h with pending := congrArg (t :: ·) h.pending, line := fun _ => ?_ },
      ⟨rfl, rfl, rfl, rfl⟩, .refl _⟩
    dsimp only
    rw [h.pending]
    split
    · rfl
    · rename_i hdata
      exact h.line hdata
  | cdata t =>
    rw [he] at hok
    change (a.flush r).take r _ (.cdata t) = _ at hok
    rw [take, hflush.current] at hok
    cases hok
    let added := (a.flush r).store.add { payload := .cdata t, line := l.position.line }
    have hadds : Adds s₀ (a.flush r).store (appendToText added.2 p added.1 l.position.line) :=
      .appendToText hflush.built h.new hflush.isOpen rfl rfl rfl
    obtain ⟨htends, hunder⟩ :
        Tends p (a.flush r).store (appendToText added.2 p added.1 l.position.line) ∧ _ :=
      hflush.under.appendToText hflush.built hflush.isOpen hflush.apart rfl rfl rfl
    exact ⟨⟨hadds.after, h.new, hadds.isOpen hflush.isOpen, hflush.current, hflush.scope, h.apart,
      hunder, hflush.pending, absurd rfl⟩,
      honward.trans h.built.wellFormed ⟨⟨rfl, rfl, rfl, rfl⟩, htends⟩⟩
  | comment t =>
    rw [he] at hok
    cases hok
    exact ⟨hflush, honward⟩
  | _ => simp [he, carriesText] at hl

theorem apart_concat {c : Content} (hc : c.isText = false) : Apart (cs ++ [c]) := by
  intro d hd
  rw [List.getLast?_concat, Option.mem_some_iff] at hd
  exact hd ▸ hc

/-- A fragment of code. -/
theorem Inside.place {payload : Payload} (line : Nat) (h : Inside s₀ p env cs g a)
    (hcode : payload.nodeKind = .code) :
    Inside s₀ p env (cs ++ textsOf (g.finish r) ++ [.leaf { payload, line }]) {}
        ((a.flush r).place payload line) ∧ Onward p a ((a.flush r).place payload line) := by
  obtain ⟨hflush, honward⟩ := h.flush (r := r)
  obtain ⟨plain, t, rfl⟩ : ∃ plain t, payload = .code plain t := by
    cases payload <;> first | exact ⟨_, _, rfl⟩ | cases hcode
  rw [Assembly.place, hflush.current]
  have hw := hflush.built.wellFormed
  have hsprout :
    Sprout (a.flush r).store ((a.flush r).store.add { payload := .code plain t, line }).2
      ((a.flush r).store.add { payload := .code plain t, line }).1
      (.leaf { payload := .code plain t, line }) :=
    .leaf hw rfl rfl ⟨by simp [hcode], by simp [hcode]⟩
  obtain ⟨k, hk, -, -, hadmits⟩ := hflush.isOpen.admits
  obtain ⟨htends, hunder⟩ := hsprout.attach hw hflush.built.owned
    ⟨k, .code, (hsprout.kind?_kept hflush.isOpen.has).trans hk, Store.kind?_add_self, hadmits⟩
    hflush.isOpen.has hflush.under
  let added := (a.flush r).store.add { payload := .code plain t, line }
  have hadds : Adds s₀ (a.flush r).store (added.2.attachLast p added.1) :=
    (Adds.refl hflush.built).addBelow h.new rfl rfl rfl hk hadmits
  refine ⟨⟨hadds.after, h.new, hadds.isOpen hflush.isOpen, hflush.current, hflush.scope,
    apart_concat rfl, ?_, hflush.pending, absurd rfl⟩,
    honward.trans h.built.wellFormed ⟨⟨rfl, rfl, rfl, rfl⟩, htends⟩⟩
  rw [Store.textsOf_nil, List.append_nil]
  exact hunder

/-! ### Elements -/

/-- The element of an accepted start tag. -/
def elementContent (r : Option Resolver) (env : Environment) (line : Nat) (tag : Tag)
    (below : List Content) : Content :=
  .node (some { payload := .element ((env.inside tag).elementOf r tag), line })
    ((keptAttributes r tag).map fun a =>
      some { payload := .attr ((env.inside tag).attributeOf r line a), line }) below

/-- A start tag opens a new element at the end of the node. -/
theorem Inside.startElement {tag : Tag} {line : Nat} (h : Inside s₀ p env cs g a)
    (hok : (a.flush r).startElement r line tag = (.ok (), a')) : ∃ e,
      Inside s₀ e (env.inside tag) [] {} a' ∧
      a'.store.Under p (cs ++ textsOf (g.finish r) ++ [elementContent r env line tag []]) ∧
      Tends p a.store a'.store ∧ a'.store.lastChild? p = some e ∧ Level a a'.leave := by
  obtain ⟨hflush, honward⟩ := h.flush (r := r)
  have hw := hflush.built.wellFormed
  rw [Assembly.startElement] at hok
  cases ho : openingOf r line tag (a.flush r).bindings with
  | error err => simp [ho] at hok
  | ok o =>
    rw [ho, hflush.current] at hok
    dsimp only at hok
    split at hok
    · cases hok
    rename_i hroot
    obtain ⟨new, ho', hscope, -⟩ := openingOf_ok hflush.scope ho
    have hdeclared : o.declared = new.length := congrArg Opening.declared ho'
    have hbindings : o.bindings = new ++ (a.flush r).bindings := congrArg Opening.bindings ho'
    have helement : o.element = _ := congrArg Opening.element ho'
    have hattrs : o.attrs = _ := congrArg Opening.attrs ho'
    have howner : ∀ d ∈ o.attrs, d.owner = none := by
      rw [hattrs]
      intro d hd
      obtain ⟨b, -, rfl⟩ := List.mem_map.mp hd
      rw [Environment.attributeOf]
      split <;> rfl
    have hnames := openingOf_names ho
    obtain ⟨hb, hg⟩ := hflush.built.withElement o line hnames
    obtain ⟨hb', hg'⟩ := hg.attachLast hflush.built hb h.new hflush.isOpen
    have hsprout : Sprout (a.flush r).store (addElement (a.flush r).store o line).2
        (addElement (a.flush r).store o line).1 (elementContent r env line tag []) := by
      have hs : Sprout _ (addElement (a.flush r).store o line).2 _ _ :=
        .element hflush.built hnames (by rw [helement]; rfl) howner
      rwa [hattrs, helement, List.map_map] at hs
    obtain ⟨k, hk, -, hadmits, -⟩ := hflush.isOpen.admits
    obtain ⟨htends, hunder⟩ := hsprout.attach hw hflush.built.owned
      ⟨k, .element, (hsprout.kind?_kept hflush.isOpen.has).trans hk, hg.kind?, hadmits⟩
      hflush.isOpen.has hflush.under
    cases hok
    have hlast := hsprout.wellFormed.lastChild?_attachLast
      (Store.has_of_kind? ((hsprout.kind?_kept hflush.isOpen.has).trans hk)) hsprout.placeable.has
      hsprout.alone
    have hinner : Under ((addElement (a.flush r).store o line).2.attachLast p
        (addElement (a.flush r).store o line).1) (addElement (a.flush r).store o line).1 [] := by
      obtain ⟨-, t, -, -, ht, hlast', -⟩ := hunder.exists_last hb'.wellFormed
      obtain rfl := Option.some.inj (hlast.symm.trans hlast')
      exact (Store.holds_iff.mp ht).2.2
    refine ⟨(addElement (a.flush r).store o line).1, ⟨hb', fun hn => hg'.new (hflush.built.has hn),
      .inr hg'.kind?, rfl, ?_, by simp [Apart], hinner, hflush.pending, absurd rfl⟩, hunder,
      honward.tends.trans h.built.wellFormed htends, hlast,
      honward.level.trans ⟨rfl, rfl, ?_, rfl⟩⟩
    · rw [← hbindings] at hscope
      exact hscope
    · rw [leave, enter, hbindings, hdeclared]
      exact List.drop_left ..

/-- An end tag puts the content of the element into the node around it. -/
theorem Inside.endTag {tag : Tag} (h : Inside s₀ p env cs g a) (he : l.event = .endTag tag)
    (hok : receive r l a = (.ok (), a')) :
    Built s₀ a'.store ∧ a'.store.Under p (cs ++ textsOf (g.finish r)) ∧ Tends p a.store a'.store ∧
      Level a.leave a' ∧ a'.pending = [] := by
  obtain ⟨hflush, honward⟩ := h.flush (r := r)
  rw [receive, he] at hok
  cases hok
  exact ⟨hflush.built, hflush.under, honward.tends, honward.level.leave, hflush.pending⟩

/-- Between the tags of an element its content is taken in, and behind it the assembly is inside of
the node around it again. -/
theorem Inside.closeElement {e : NodeId} {tag tag' : Tag} {line : Nat} {x y z : Assembly}
    {trees : List Content} (h : Inside s₀ p env cs g a)
    (hunder : x.store.Under p (trees ++ [elementContent r env line tag []]))
    (htends : Tends p a.store x.store) (hlast : x.store.lastChild? p = some e)
    (hlevel : Level a x.leave) {below : List Content} {g' : Gathering}
    (hx : Built s₀ x.store)
    (hinner : Inside s₀ e (env.inside tag) below g' y) (honward : Onward e x y)
    (he : l.event = .endTag tag') (hok : receive r l y = (.ok (), z)) :
    Inside s₀ p env
        (trees ++ [elementContent r env line tag (below ++ textsOf (g'.finish r))]) {} z ∧
      Onward p a z := by
  obtain ⟨hbuilt, hbelow, htends', hlevel', hpending⟩ := hinner.endTag he hok
  obtain ⟨-, t, -, -, hholds, hlast', hparent⟩ := hunder.exists_last hx.wellFormed
  obtain rfl : e = t := Option.some.inj (hlast.symm.trans hlast')
  have hback : Level a z := hlevel.trans (honward.level.leave.trans hlevel')
  have hchild : Tends e x.store z.store := honward.tends.trans hx.wellFormed htends'
  have htends : Tends p a.store z.store :=
    htends.trans h.built.wellFormed (hchild.of_child hx.wellFormed hparent).1
  obtain ⟨hself, hattrs, -⟩ := Store.holds_iff.mp hholds
  have hz := hchild.under hx.wellFormed hunder hlast (y := elementContent r env line tag
      (below ++ textsOf (g'.finish r)))
    (Store.holds_iff.mpr ⟨hchild.loose.trans hself, hchild.attributes.trans hattrs, hbelow⟩)
  refine ⟨⟨hbuilt, h.new, h.isOpen.imp (htends.kind? _ _) (htends.kind? _ _),
    ?_, ?_, apart_concat rfl, ?_, hpending, absurd rfl⟩, hback, htends⟩
  · rw [current?, hback.opened]
    exact h.current
  · rw [hback.bindings]
    exact h.scope
  · rw [Store.textsOf_nil, List.append_nil]
    exact hz

/-! ### Nested events -/

/-- **Nested events give the trees they stand for.** Inside of a node, behind a run of events of one
text, accepted events make the children of the node hold the trees that the events stand for; the
last text may still be incomplete. Nothing happens outside of the node, and the bindings are those
there were. -/
theorem Inside.deliver (h : Inside s₀ p env cs (run.foldl (Gathering.add r) {}) a)
    (hrun : ∀ l ∈ run, l.event.IsFull) (hf : Full f)
    (hok : Markup.deliver (receive r) f.events a = (none, a')) : ∃ cs' run',
      Inside s₀ p env cs' (run'.foldl (Gathering.add r) {}) a' ∧ Onward p a a' ∧
        (∀ l ∈ run', l.event.IsFull) ∧ cs' ++ textContent r run' =
        cs ++ contentsOf r env run f := by
  induction f generalizing a a' p env cs run with
  | nil =>
    cases hok
    exact ⟨cs, run, h, .refl a, hrun, rfl⟩
  | single l hsingle rest ih =>
    obtain ⟨hfull, hrest⟩ := hf.rest_single
    obtain ⟨x, hx, hok⟩ := Markup.deliver_cons hok
    have hrun' : ∀ m ∈ run ++ [l], m.event.IsFull := by
      rw [List.forall_mem_append]
      exact ⟨hrun, by simpa using hfull⟩
    -- an event of a text only adds to what was gathered
    have htext (hl : carriesText l.event ∨ ∃ t, l.event = .comment t)
        (hcontents : contentsOf r env run (.single l hsingle rest) =
          contentsOf r env (run ++ [l]) rest) :
        ∃ cs' run', Inside s₀ p env cs' (run'.foldl (Gathering.add r) {}) a' ∧ Onward p a a' ∧
          (∀ l ∈ run', l.event.IsFull) ∧
            cs' ++ textContent r run' = cs ++ contentsOf r env run (.single l hsingle rest) := by
      obtain ⟨hx', honward⟩ := h.receive_text hx hl
      obtain ⟨cs', run', ha', honward', hfull', heq⟩ := ih hx' hrun' hrest hok
      exact ⟨cs', run', ha', honward.trans h.built.wellFormed honward', hfull',
        heq.trans (by rw [hcontents])⟩
    -- code ends the text
    have hcode {payload : Payload} (hkind : payload.nodeKind = .code)
        (hplace : x = (a.flush r).place payload l.position.line)
        (hcontents : contentsOf r env run (.single l hsingle rest) =
          textContent r run ++ .leaf { payload, line := l.position.line } ::
            contentsOf r env [] rest) :
        ∃ cs' run', Inside s₀ p env cs' (run'.foldl (Gathering.add r) {}) a' ∧ Onward p a a' ∧
          (∀ l ∈ run', l.event.IsFull) ∧
            cs' ++ textContent r run' = cs ++ contentsOf r env run (.single l hsingle rest) := by
      obtain ⟨hx', honward⟩ := h.place (r := r) l.position.line hkind
      rw [← hplace] at hx' honward
      have hnew : Inside s₀ p env _ (List.foldl (Gathering.add r) {} []) x := hx'
      obtain ⟨cs', run', ha', honward', hfull', heq⟩ := ih hnew (by simp) hrest hok
      refine ⟨cs', run', ha', honward.trans h.built.wellFormed honward', hfull', heq.trans ?_⟩
      rw [hcontents, textContent_eq hrun, scrapsOfRun]
      simp
    cases he : l.event with
    | characters t => exact htext (.inl (by simp [he, carriesText])) (by rw [contentsOf, he])
    | cdata t => exact htext (.inl (by simp [he, carriesText])) (by rw [contentsOf, he])
    | comment t => exact htext (.inr ⟨t, he⟩) (by rw [contentsOf, he])
    | doctype raw =>
      rw [receive, he] at hx
      cases hx
      exact hcode rfl rfl (by rw [contentsOf, he])
    | instruction target data =>
      rw [receive, he] at hx
      cases hx
      refine hcode ?_ rfl (by rw [contentsOf, he])
      rw [instructionPayload]
      repeat' split
      all_goals rfl
    | declaration version encoding standalone =>
      rw [receive, he] at hx
      cases hx
      obtain ⟨cs', run', ha', honward, hfull', heq⟩ := ih h hrun hrest hok
      exact ⟨cs', run', ha', honward, hfull', heq.trans (by rw [contentsOf, he])⟩
    | _ =>
      rw [he] at hsingle
      exact hsingle.elim
  | element start tag inner stop tag' rest ih ih' =>
    obtain ⟨hinner, hrest⟩ := hf.parts_element
    obtain ⟨x, hx, hok⟩ := Markup.deliver_cons hok
    obtain ⟨y, hy, hok⟩ := Markup.deliver_append hok
    obtain ⟨z, hz, hok⟩ := Markup.deliver_cons hok
    obtain ⟨e, hopened, hunder, htends, hlast, hlevel⟩ := h.startElement hx
    have hnew : Inside s₀ e (env.inside tag) [] (List.foldl (Gathering.add r) {} []) x := hopened
    obtain ⟨below, run₁, hinner', honward, hfull, heq⟩ := ih hnew (by simp) hinner hy
    obtain ⟨hz', honward'⟩ :=
      h.closeElement hunder htends hlast hlevel hopened.built hinner' honward
      rfl hz
    have hnew' : Inside s₀ p env _ (List.foldl (Gathering.add r) {} []) z := hz'
    obtain ⟨cs', run', ha', honward₂, hfull', heq'⟩ := ih' hnew' (by simp) hrest hok
    refine ⟨cs', run', ha', honward'.trans h.built.wellFormed honward₂, hfull', heq'.trans ?_⟩
    rw [textContent_eq hfull, List.nil_append] at heq
    rw [contentsOf, textContent_eq hrun, scrapsOfRun, ← heq, scrapsOfRun]
    simp [elementContent]

/-! ### Documents -/

/-- A document that was started holds nothing yet. -/
theorem startDocument_inside (line : Nat) (hw : s₀.WellFormed) (ho : s₀.Owned) (hl : s₀.Labelled) :
    ∃ doc, (startDocument line { store := s₀ }).document = some doc ∧
      (startDocument line { store := s₀ }).store.Holds doc (documentContent line []) ∧
      Inside s₀ doc .initial [] {} (startDocument line { store := s₀ }) := by
  have hdoc : (s₀.add { payload := .document { type := "xml", singleRoot := true }, line }).2.Holds
    _
      (documentContent line []) := hw.holds_add rfl rfl
  have hadd : Adds s₀ s₀
      (s₀.add { payload := .document { type := "xml", singleRoot := true }, line }).2 :=
    (Adds.refl (.refl hw ho hl)).add rfl rfl rfl
  exact ⟨_, rfl, hdoc, hadd.after, lt_irrefl _, .inl Store.kind?_add_self, rfl,
    Bindings.says_nil.document, by simp [Apart], (Store.holds_iff.mp hdoc).2.2, rfl, absurd rfl⟩

/-- The events of a document give the tree that they stand for. -/
theorem holds_of_deliver {first second last : Located} (hw : s₀.WellFormed) (ho : s₀.Owned)
    (hl : s₀.Labelled) (hfirst : first.event = .locator) (hsecond : second.event = .startDocument)
    (hlast : last.event = .endDocument) (hf : Full f)
    (hok : Markup.deliver (receive r) (first :: second :: (f.events ++ [last])) { store := s₀ } =
      (none, a)) :
    ∃ doc, a.document = some doc ∧ ¬ s₀.Has doc ∧ Built s₀ a.store ∧
      a.store.Holds doc (documentContent second.position.line (contentsOf r .initial [] f)) := by
  obtain ⟨x, hx, hrest⟩ := Markup.deliver_cons hok
  rw [receive, hfirst] at hx
  cases hx
  obtain ⟨y, hy, hrest⟩ := Markup.deliver_cons hrest
  rw [receive, hsecond] at hy
  cases hy
  obtain ⟨z, hz, hend⟩ := Markup.deliver_append hrest
  obtain ⟨z', hz', hnil⟩ := Markup.deliver_cons hend
  cases hnil
  obtain ⟨doc, hdocument, hholds, hinside⟩ :=
    startDocument_inside second.position.line hw ho hl
  have hnew : Inside s₀ doc .initial [] (List.foldl (Gathering.add r) {} []) _ := hinside
  obtain ⟨cs, run, hinside', honward, hfull, heq⟩ := hnew.deliver (by simp) hf hz
  obtain ⟨hflush, honward'⟩ := hinside'.flush (r := r)
  rw [receive, hlast] at hz'
  cases hz'
  have htends := honward.tends.trans hinside.built.wellFormed honward'.tends
  obtain ⟨hself, hattrs, -⟩ := Store.holds_iff.mp hholds
  rw [List.nil_append, textContent_eq hfull] at heq
  refine ⟨doc, honward'.level.document.trans (honward.level.document.trans hdocument), hflush.new,
    hflush.built,
    Store.holds_iff.mpr ⟨htends.loose.trans hself, htends.attributes.trans hattrs, ?_⟩⟩
  rw [documentContent, Content.inner, ← heq]
  exact hflush.under

end Assembly

/-! ### Sources -/

/-- Texts among the children of a node are apart, and if it is a text it has children. -/
structure Store.SoundAt (s : Store) (n : NodeId) : Prop where
  apart : (s.children n).IsChain fun x y => ¬ (s.kind? x = some .text ∧ s.kind? y = some .text)
  filled : s.kind? n = some .text → s.children n ≠ []

theorem Store.Holds.isText_iff {s : Store} {n : NodeId} {c : Content} (h : s.Holds n c) :
    c.isText ↔ s.kind? n = some .text := by
  obtain ⟨hself, -⟩ := Store.holds_iff.mp h
  rw [Content.isText, ← hself, Store.loose, Store.kind?, Store.payload?]
  cases s.get? n with
  | none => simp
  | some node => cases hp : node.payload <;> simp [hp, Node.loose, Payload.loose, Payload.nodeKind]

theorem Store.Holds.soundAt {s : Store} {n : NodeId} {c : Content} (h : s.Holds n c)
    (hc : c.Sound) : s.SoundAt n := by
  obtain ⟨-, -, hinner⟩ := Store.holds_iff.mp h
  refine ⟨?_, fun htext hnil => hc.filled (h.isText_iff.mpr htext) ?_⟩
  · rw [List.isChain_iff_getElem]
    intro i hi htexts
    have hlt : i + 1 < c.inner.length := hinner.length_eq ▸ hi
    refine List.isChain_iff_getElem.mp hc.apart i hlt ⟨?_, ?_⟩
    · exact (hinner.get (by omega) (by omega)).isText_iff.mpr htexts.1
    · exact (hinner.get hi hlt).isText_iff.mpr htexts.2
  · rw [hnil] at hinner
    exact List.forall₂_nil_left_iff.mp hinner

/-- **A source is parsed to the tree that its nested events stand for.** The events of a source that
is read to its end are nested between those that begin and end the document, and the document holds
what they stand for. Nowhere in the tree are two texts next to each other, or is a text empty. -/
theorem ofSource_holds [Encoding.Decoders] {source : Text} (hw : s₀.WellFormed)
    (ho : s₀.Owned) (hl : s₀.Labelled)
    (h : ofSource r false source s₀ = (.ok (), a)) : ∃ first second f last doc,
      Markup.events source = first :: second :: (f.events ++ [last]) ∧ first.event = .locator ∧
        second.event = .startDocument ∧ last.event = .endDocument ∧ a.document = some doc ∧
        a.store.Holds doc (documentContent second.position.line (contentsOf r .initial [] f)) ∧
        ∀ n, a.store.Above doc n → a.store.SoundAt n := by
  obtain ⟨hcomplete, hok⟩ := Markup.deliver_of_read_ok h
  obtain ⟨first, second, f, last, hevents, hfirst, hsecond, hlast⟩ :=
    Markup.exists_forest_of_complete hcomplete
  rw [hevents] at hok
  have hf : Full f := fun l hl => by
    have hmem : l ∈ Markup.events source := by simp [hevents, hl]
    exact Markup.isFull_of_mem_events hmem
  obtain ⟨doc, hdoc, -, hbuilt, hholds⟩ :=
    Assembly.holds_of_deliver hw ho hl hfirst hsecond hlast hf hok
  refine ⟨first, second, f, last, doc, hevents, hfirst, hsecond, hlast, hdoc,
    hholds, fun n hn => ?_⟩
  obtain ⟨c, hc, hpart⟩ := hholds.exists_part hbuilt.wellFormed hn
  refine hpart.soundAt ?_
  rw [documentContent, Content.parts_node, List.mem_cons] at hc
  rcases hc with rfl | hc
  · exact ⟨contentsOf_apart, fun h => Bool.noConfusion h⟩
  · exact contentsOf_sound hf (by simp) c hc

/-- Output, a section behind a comment and an expression become one text between two elements. -/
theorem mixed_source_holds : ∃ a first second f last doc,
    ofSource none false ("<a><b/>x<!--c--><![CDATA[y]]>\x7bz\x7d<b/></a>" : Text) {} = (.ok (), a) ∧
      Markup.events ("<a><b/>x<!--c--><![CDATA[y]]>\x7bz\x7d<b/></a>" : Text) =
        first :: second :: (f.events ++ [last]) ∧
      a.document = some doc ∧
      a.store.Holds doc (documentContent second.position.line (contentsOf none .initial [] f)) ∧
      ∀ n, a.store.Above doc n → a.store.SoundAt n := by
  have hok {α β : Type} {r : Except α Unit × β} (h : r.1.toOption.isSome) : r = (.ok (), r.2) := by
    obtain ⟨_ | _, _⟩ := r
    · cases h
    · rfl
  have haccepted :
      ofSource none false ("<a><b/>x<!--c--><![CDATA[y]]>\x7bz\x7d<b/></a>" : Text)
        {} = (.ok (), _) :=
    hok (by decide +kernel)
  obtain ⟨first, second, f, last, doc, hevents, -, -, -, hdoc, hholds, hsound⟩ :=
    ofSource_holds Store.wellFormed_empty Store.owned_empty Store.labelled_empty haccepted
  exact ⟨_, first, second, f, last, doc, haccepted, hevents, hdoc, hholds, hsound⟩

end Stencil.Tree
