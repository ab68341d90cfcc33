import Stencil.Proofs.Markup.Writing
import Stencil.Proofs.Tree.Accepting

/-!
# Static markup that was written and read again

Static markup that is written without the declarations of registered namespaces stands for the same
tree, as long as no element and no attribute is in such a namespace. The bindings are not the same
any more, but they differ only in names that nothing uses. What comes back is what was read, unless
character data has a carriage return or a value has white space other than blanks. Neither can stand
there but through a reference, and neither is written as one.

## Main definitions

* `IsUnregistered` – a tag with no name in a registered namespace
* `Environment.Forgets` – an environment without registered namespaces
* `Plain.kept` – elements without the declarations of registered namespaces
* `IsStable` – white space is read as it was written

## Main results

* `Plain.contents_kept`, `Plain.all_accepts_kept` – declarations that nothing uses do not matter
* `exists_ofSource_print` – a source and what was written of it give the same tree
-/

namespace Stencil

open Markup (Attr Tag Located Forest Plain)

namespace Tree

/-! ### Names outside of registered namespaces -/

variable {r : Option Resolver} {env env' : Environment} {tag : Tag} {p : Plain}

/-- Neither the element nor one of its attributes is in a registered namespace. -/
structure IsUnregistered (r : Option Resolver) (env : Environment) (tag : Tag) : Prop where
  element : env.identifier? r tag.name.qualifier = none
  attrs (a : Attr) : a ∈ tag.attrs → isDeclaration a.name = false → a.name.qualifier ≠ [] →
    env.identifier? r a.name.qualifier = none

/-- In the second environment, names mean what they mean in the first one, but for those that stand
for registered namespaces there. -/
def Environment.Forgets (r : Option Resolver) (env env' : Environment) : Prop :=
  ∀ q, env.identifier? r q = none → env' q = env q

/-- An attribute that declares a namespace changes the meaning of one name. -/
theorem Environment.exists_declare_eq {a : Attr} (h : isDeclaration a.name) :
    ∃ q, ∀ env : Environment, env.declare a = Function.update env q (some a.value) := by
  by_cases hdefault : a.name.qualifier = [] ∧ a.name.name = "xmlns"
  · exact ⟨[], fun env => if_pos hdefault⟩
  · have hq : a.name.qualifier = "xmlns" := by
      rw [isDeclaration, Bool.or_eq_true, Bool.and_eq_true, beq_iff_eq, beq_iff_eq, beq_iff_eq] at h
      exact h.resolve_right hdefault
    exact ⟨a.name.name, fun env => by rw [declare, if_neg hdefault, if_pos hq]⟩

theorem Environment.Forgets.declare {a : Attr} (h : Forgets r env env') :
    Forgets r (env.declare a) (env'.declare a) := by
  intro q hq
  by_cases hdecl : isDeclaration a.name
  · obtain ⟨k, hk⟩ := exists_declare_eq hdecl
    rw [hk] at hq ⊢
    rw [hk]
    by_cases hqk : q = k
    · rw [hqk, Function.update_self, Function.update_self]
    · rw [identifier?, Function.update_of_ne hqk] at hq
      rw [Function.update_of_ne hqk, Function.update_of_ne hqk]
      exact h q hq
  · have hsame (env : Environment) : env.declare a = env := by
      rw [isDeclaration, Bool.or_eq_true, Bool.and_eq_true, beq_iff_eq, beq_iff_eq, beq_iff_eq,
        not_or] at hdecl
      rw [Environment.declare, if_neg hdecl.2, if_neg hdecl.1]
    rw [hsame] at hq ⊢
    rw [hsame]
    exact h q hq

theorem Environment.Forgets.declareRegistered {a : Attr} (h : Forgets r env env')
    (ha : declaresRegistered r a) : Forgets r (env.declare a) env' := by
  intro q hq
  rw [declaresRegistered, Bool.and_eq_true] at ha
  obtain ⟨k, hk⟩ := exists_declare_eq ha.1
  rw [hk, identifier?] at hq
  rw [hk]
  by_cases hqk : q = k
  · rw [hqk, Function.update_self, Option.bind_some] at hq
    rw [hq] at ha
    cases ha.2
  · rw [Function.update_of_ne hqk] at hq ⊢
    exact h q hq

end Tree

namespace Markup

open Stencil.Tree

/-- The tag without declarations of registered namespaces. -/
def Tag.kept (r : Option Resolver) (tag : Tag) : Tag := { tag with attrs := keptAttributes r tag }

/-- Elements without the declarations of registered namespaces. -/
def Plain.kept (r : Option Resolver) : Plain → Plain
  | nil => nil
  | text t rest => text t (rest.kept r)
  | element tag inner rest => element (tag.kept r) (inner.kept r) (rest.kept r)

end Markup

namespace Tree

variable {r : Option Resolver} {env env' : Environment} {tag : Tag} {p : Plain}

theorem keptAttributes_kept : keptAttributes r (tag.kept r) = keptAttributes r tag := by
  rw [keptAttributes, Markup.Tag.kept, keptAttributes, List.filter_filter]
  simp

theorem Environment.Forgets.inside (h : Forgets r env env') :
    Forgets r (env.inside tag) (env'.inside (tag.kept r)) := by
  rw [Environment.inside, Environment.inside, Markup.Tag.kept, keptAttributes]
  generalize tag.attrs = attrs
  induction attrs generalizing env env' with
  | nil => exact h
  | cons a attrs ih =>
    rw [List.foldl_cons, List.filter_cons]
    by_cases ha : declaresRegistered r a
    · rw [if_neg (by simpa using ha)]
      exact ih (h.declareRegistered ha)
    · rw [Bool.not_eq_true] at ha
      rw [if_pos (by simpa using ha), List.foldl_cons]
      exact ih h.declare

/-- An unregistered tag stands for the same element in both environments. -/
theorem IsUnregistered.elementOf_kept (h : IsUnregistered r env tag) (hf : env.Forgets r env') :
    env'.elementOf r (tag.kept r) = env.elementOf r tag := by
  have hq := hf _ h.element
  rw [Environment.elementOf, Environment.elementOf, Environment.identifier?,
    Environment.identifier?, ← hq]
  rfl

theorem IsUnregistered.attributeOf_eq (h : IsUnregistered r env tag) (hf : env.Forgets r env')
    {a : Attr} (ha : a ∈ tag.attrs) (line : Nat) :
    env'.attributeOf r line a = env.attributeOf r line a := by
  rw [Environment.attributeOf, Environment.attributeOf]
  split
  · rfl
  · rename_i hdecl
    by_cases hq : a.name.qualifier = []
    · rw [if_pos hq, if_pos hq]
    · rw [Bool.not_eq_true] at hdecl
      have hmeaning := hf _ (h.attrs a ha hdecl hq)
      rw [if_neg hq, if_neg hq, Environment.identifier?, Environment.identifier?, hmeaning]

theorem IsUnregistered.accepts_kept (h : IsUnregistered r env tag) (hf : env.Forgets r env')
    (haccepts : Accepts r env tag) : Accepts r env' (tag.kept r) where
  declarations a ha := haccepts.declarations a (List.mem_of_mem_filter ha)
  closes :=
    { element := fun hq => by
        rw [show (tag.kept r).name = tag.name from rfl, hf _ h.element]
        exact haccepts.closes.element hq
      attrs := fun a ha hdecl hq => by
        have ha := List.mem_of_mem_filter ha
        rw [hf _ (h.attrs a ha hdecl hq)]
        exact haccepts.closes.attrs a ha hdecl hq }
  names := by
    rw [keptAttributes_kept]
    exact haccepts.names

end Tree

namespace Markup.Plain

open Stencil.Tree

variable {r : Option Resolver} {env env' : Environment} {tag : Tag} {p : Plain} {T U : Text → Prop}

/-- **Declarations that nothing uses do not matter** for the tree. -/
theorem contents_kept (h : p.All (IsUnregistered r) T env) (hf : env.Forgets r env') :
    (p.kept r).contents r env' = p.contents r env := by
  induction p generalizing env env' with
  | nil => rfl
  | text t rest ih => rw [kept, contents, contents, ih h.2 hf]
  | element tag inner rest ih ih' =>
    have hinside : (env.inside tag).Forgets r (env'.inside (tag.kept r)) := hf.inside
    have hattrs : (keptAttributes r (tag.kept r)).map (fun a => (some ({
        payload := .attr ((env'.inside (tag.kept r)).attributeOf r 0 a) } : Node))) =
        (keptAttributes r tag).map fun a =>
          some { payload := .attr ((env.inside tag).attributeOf r 0 a) } := by
      rw [keptAttributes_kept]
      refine List.map_congr_left fun a ha => ?_
      rw [h.1.attributeOf_eq hinside (List.mem_of_mem_filter ha)]
    rw [kept, contents, contents, ih h.2.1 hinside, ih' h.2.2 hf,
      h.1.elementOf_kept hinside, hattrs]

/-- Nor do they matter for what is accepted. -/
theorem all_accepts_kept (h : p.All (IsUnregistered r) T env) (hf : env.Forgets r env')
    (haccepts : p.All (Accepts r) U env) : (p.kept r).All (Accepts r) (fun _ => True) env' := by
  induction p generalizing env env' with
  | nil => trivial
  | text t rest ih => exact ⟨trivial, ih h.2 hf haccepts.2⟩
  | element tag inner rest ih ih' =>
    exact ⟨h.1.accepts_kept hf.inside haccepts.1, ih h.2.1 hf.inside haccepts.2.1,
      ih' h.2.2 hf haccepts.2.2⟩

theorem not_isText_kept (h : ¬ p.IsText) : ¬ (p.kept r).IsText := by
  cases p <;> exact h

theorem Printable.kept (h : p.Printable) : (p.kept r).Printable := by
  induction h with
  | nil => exact .nil
  | text ht hne hstart _ ih => exact .text ht hne (not_isText_kept hstart) ih
  | element htag hclose _ _ ih ih' =>
    exact .element ⟨htag.name, fun a ha => htag.attrs a (List.mem_of_mem_filter ha)⟩
      (fun h => by rw [hclose h]; rfl) ih ih'

theorem All.kept {P Q : Environment → Tag → Prop} (h : p.All P T env)
    (hP : ∀ env tag, P env tag → ∀ env', Q env' (tag.kept r)) : (p.kept r).All Q T env' := by
  induction p generalizing env env' with
  | nil => trivial
  | text t rest ih => exact ⟨h.1, ih h.2⟩
  | element tag inner rest ih ih' => exact ⟨hP _ _ h.1 _, ih h.2.1, ih' h.2.2⟩

end Markup.Plain

/-! ### White space -/

namespace Markup

/-- Character data without carriage returns. -/
def IsStable (t : Text) : Prop := 0xd ∉ t

/-- The values of a tag hold no white space but blanks. -/
def Tag.IsStable (tag : Tag) :
    Prop := ∀ a ∈ tag.attrs, 0x9 ∉ a.value ∧ 0xa ∉ a.value ∧ 0xd ∉ a.value

instance (t : Text) : Decidable (IsStable t) := inferInstanceAs (Decidable (0xd ∉ t))

instance (tag : Tag) : Decidable tag.IsStable := inferInstanceAs (Decidable (∀ a ∈ tag.attrs, _))

variable {t : Text} {tag : Tag} {p : Plain} {env : Tree.Environment}

theorem not_mem_of_not_mem_ofChars {c : Char} {b : UInt8} {cs : List Char}
    (hc : String.utf8EncodeChar c = [b]) (h : b ∉ Text.ofChars cs) : c ∉ cs := fun hmem => by
  induction cs with
  | nil => cases hmem
  | cons d cs ih =>
    rw [Text.ofChars_cons, List.mem_append, not_or] at h
    rcases List.mem_cons.mp hmem with rfl | hmem
    · rw [hc] at h
      exact h.1 (List.mem_singleton_self b)
    · exact ih h.2 hmem

theorem unified_eq_self (ht : Legible t) (h : IsStable t) : unified t = t := by
  obtain ⟨cs, rfl, -⟩ := ht
  have hreturn : '\r' ∉ cs := not_mem_of_not_mem_ofChars rfl h
  rw [unified, Text.chars_ofChars, Spelling.unifyLineEnds_eq_self]
  rintro c hc rfl
  exact hreturn hc

theorem Tag.asRead_eq_self (htag : tag.Written) (h : tag.IsStable) : tag.asRead = tag := by
  have hattr : ∀ a ∈ tag.attrs, a.asRead = a := by
    intro a ha
    obtain ⟨cs, hcs, -⟩ := (htag.attrs a ha).2
    obtain ⟨htab, hfeed, hreturn⟩ := hcs ▸ h a ha
    have htab : '\t' ∉ cs := not_mem_of_not_mem_ofChars rfl htab
    have hfeed : '\n' ∉ cs := not_mem_of_not_mem_ofChars rfl hfeed
    have hreturn : '\r' ∉ cs := not_mem_of_not_mem_ofChars rfl hreturn
    rw [Attr.asRead, flattened, hcs, Text.chars_ofChars, Spelling.flattenBlanks_eq_self, ← hcs]
    intro c hc hblank
    rw [isBlankChar] at hblank
    simp only [Bool.or_eq_true, decide_eq_true_eq] at hblank
    obtain ((rfl | rfl) | rfl) | rfl := hblank
    · rfl
    · exact absurd hc htab
    · exact absurd hc hfeed
    · exact absurd hc hreturn
  rw [Tag.asRead, List.map_congr_left hattr, List.map_id']

theorem Plain.asRead_eq_self (hp : p.Printable)
    (h : p.All (fun _ tag => tag.IsStable) IsStable env) :
    p.asRead = p := by
  induction hp generalizing env with
  | nil => rfl
  | text ht _ _ _ ih => rw [asRead, unified_eq_self ht h.1, ih h.2]
  | element htag _ _ _ ih ih' => rw [asRead, Tag.asRead_eq_self htag h.1, ih h.2.1, ih' h.2.2]

end Markup

/-! ### Sources -/

namespace Tree

variable {r : Option Resolver} {source : Text} {a : Assembly} {first second last : Located}
  {f : Forest} {s₀ : Store}

/-- What stands around the nested events of a source. -/
theorem events_around [Encoding.Decoders] (h : ofSource r false source s₀ = (.ok (), a))
    (hevents : Markup.events source = first :: second :: (f.events ++ [last])) :
    first.event = .locator ∧ second.event = .startDocument ∧ last.event = .endDocument := by
  obtain ⟨hcomplete, -⟩ := Markup.deliver_of_read_ok h
  obtain ⟨first', second', f', last', hevents', hfirst, hsecond, hlast⟩ :=
    Markup.exists_forest_of_complete hcomplete
  rw [hevents, List.cons.injEq, List.cons.injEq] at hevents'
  obtain ⟨rfl, rfl, hrest⟩ := hevents'
  obtain ⟨-, hend⟩ := List.append_inj' hrest rfl
  obtain rfl := (List.cons.inj hend).1
  exact ⟨hfirst, hsecond, hlast⟩

theorem full_of_events [Encoding.Decoders]
    (hevents : Markup.events source = first :: second :: (f.events ++ [last])) :
    Full f := fun l hl => by
  have hmem : l ∈ Markup.events source := by simp [hevents, hl]
  exact Markup.isFull_of_mem_events hmem

/-- A source of static markup gives the trees of its elements and its character data. -/
theorem static_source_holds [Encoding.Decoders] {P : Environment → Tag → Prop}
    (h : ofSource r false source {} = (.ok (), a))
    (hevents : Markup.events source = first :: second :: (f.events ++ [last]))
    (hplain : ∀ l ∈ f.events, l.event.IsPlain) (hstatic : f.plain.All P IsStatic .initial) :
    ∃ doc c, a.document = some doc ∧ a.store.Holds doc c ∧
      c.unlined = documentContent 0 (f.plain.contents r .initial) := by
  obtain ⟨hfirst, hsecond, hlast⟩ := events_around h hevents
  have hok := (Markup.deliver_of_read_ok h).2
  rw [hevents] at hok
  obtain ⟨doc, hdoc, -, -, hholds⟩ := Assembly.holds_of_deliver Store.wellFormed_empty
    Store.owned_empty Store.labelled_empty hfirst hsecond hlast (full_of_events hevents) hok
  have hcontents : (contentsOf r .initial [] f).map Content.unlined = _ :=
    contentsOf_unlined (full_of_events hevents) hplain (by simp) (by simp) (P := P)
      (by rwa [runText, List.flatMap_nil, Plain.prepend_nil])
  rw [runText, List.flatMap_nil, Plain.prepend_nil] at hcontents
  refine ⟨doc, _, hdoc, hholds, ?_⟩
  rw [documentContent, Content.unlined_node, hcontents]
  rfl

/-- The events of one element are accepted if its tags are. -/
theorem exists_deliver {tag : Tag} {inner : Plain}
    (hfirst : first.event = .locator) (hsecond : second.event = .startDocument)
    (hlast : last.event = .endDocument) (hf : Full f) (hplain : f.plain = .element tag inner .nil)
    (htags : f.plain.All (Accepts r) (fun _ => True) .initial) (hw : s₀.WellFormed) (ho : s₀.Owned)
    (hl : s₀.Labelled) : ∃ a, Markup.deliver (Assembly.receive r)
      (first :: second :: (f.events ++ [last])) { store := s₀ } = (none, a) := by
  obtain ⟨doc, -, -, hinside⟩ := Assembly.startDocument_inside second.position.line hw ho hl
  have hnew : Assembly.Inside s₀ doc .initial [] (List.foldl (Gathering.add r) {} []) _ := hinside
  obtain ⟨x, hx⟩ := hnew.accepts (by simp) hf htags (.inr (by simp [hplain, Plain.roots]))
  have hfirst' : Assembly.receive r first { store := s₀ } = (.ok (), { store := s₀ }) := by
    rw [Assembly.receive, hfirst]
    rfl
  have hsecond' : Assembly.receive r second { store := s₀ } =
      (.ok (), Assembly.startDocument second.position.line { store := s₀ }) := by
    rw [Assembly.receive, hsecond]
    rfl
  have hlast' : Assembly.receive r last x = (.ok (), (x.flush r).leave) := by
    rw [Assembly.receive, hlast]
    rfl
  refine ⟨(x.flush r).leave, ?_⟩
  rw [Markup.deliver, hfirst']
  dsimp only
  rw [Markup.deliver, hsecond']
  dsimp only
  rw [Markup.deliver_append_of hx, Markup.deliver, hlast']
  rfl

/-- A source is one element, which can be written. -/
theorem exists_element_of_ofSource [Encoding.Decoders]
    (h : ofSource r false source s₀ = (.ok (), a))
    (hevents : Markup.events source = first :: second :: (f.events ++ [last])) :
    ∃ tag inner, f.plain = .element tag inner .nil ∧ f.plain.Printable := by
  obtain ⟨-, -, hlast⟩ := events_around h hevents
  obtain ⟨hcomplete, -⟩ := Markup.deliver_of_read_ok h
  have hlegible : ∀ l ∈ f.events, l.event.IsLegible := fun l hl => by
    have hmem : l ∈ Markup.events source := by simp [hevents, hl]
    exact Markup.reported_isLegible.of_mem_events (fun _ _ _ => trivial) hmem
  rw [hevents] at hcomplete
  obtain ⟨hproper, tag, inner, hroot⟩ := Forest.exists_element_of_complete hcomplete hlast
  exact ⟨tag, inner, hroot, Forest.printable hproper hlegible⟩

/-- The tags of a source that is read to its end are accepted. -/
theorem all_accepts_of_ofSource [Encoding.Decoders] (h : ofSource r false source s₀ = (.ok (), a))
    (hevents : Markup.events source = first :: second :: (f.events ++ [last])) :
    f.plain.All (Accepts r) (fun _ => True) .initial := by
  obtain ⟨hfirst, hsecond, -⟩ := events_around h hevents
  have hok := (Markup.deliver_of_read_ok h).2
  rw [hevents] at hok
  have hall := Assembly.accepts_of_deliver .nil hok
  rw [scopedTags_document hfirst hsecond] at hall
  exact (all_of_scopedTags hall).1

/-- **Where a source is read to makes no difference.** What is read there is accepted elsewhere, and
gives a document that says the same. -/
theorem exists_ofSource [Encoding.Decoders] {s₁ : Store}
    (h : ofSource r false source s₀ = (.ok (), a))
    (hw₀ : s₀.WellFormed) (ho₀ : s₀.Owned) (hl₀ : s₀.Labelled) (hw : s₁.WellFormed) (ho : s₁.Owned)
    (hl : s₁.Labelled) : ∃ a' doc doc' c, a.document = some doc ∧ a.store.Holds doc c ∧
      ofSource r false source s₁ = (.ok (), a') ∧ a'.document = some doc' ∧
      a'.store.Holds doc' c := by
  obtain ⟨first, second, f, last, -, hevents, -⟩ := ofSource_holds hw₀ ho₀ hl₀ h
  obtain ⟨hfirst, hsecond, hlast⟩ := events_around h hevents
  obtain ⟨tag, inner, hroot, -⟩ := exists_element_of_ofSource h hevents
  have hfull := full_of_events hevents
  have hok := (Markup.deliver_of_read_ok h).2
  rw [hevents] at hok
  obtain ⟨a', ha'⟩ := exists_deliver hfirst hsecond hlast hfull hroot
    (all_accepts_of_ofSource h hevents) hw ho hl
  obtain ⟨doc, hdoc, -, -, hholds⟩ :=
    Assembly.holds_of_deliver hw₀ ho₀ hl₀ hfirst hsecond hlast hfull hok
  obtain ⟨doc', hdoc', -, -, hholds'⟩ :=
    Assembly.holds_of_deliver hw ho hl hfirst hsecond hlast hfull ha'
  exact ⟨a', doc, doc', _, hdoc, hholds,
    Markup.read_of_deliver h (by rw [hevents]; exact ha'), hdoc', hholds'⟩

/-- **Static markup that is written and read again gives the same tree**, if no name of it is in a
registered namespace and white space is read as it was written. -/
theorem exists_ofSource_print [Encoding.Decoders] (h : ofSource r false source {} = (.ok (), a))
    (hevents : Markup.events source = first :: second :: (f.events ++ [last]))
    (hstatic : f.plain.All (IsUnregistered r) IsStatic .initial)
    (hstable : f.plain.All (fun _ tag => tag.IsStable) Markup.IsStable .initial) :
    ∃ a' doc c, ofSource r false (f.plain.kept r).print {} = (.ok (), a') ∧
      a'.document = some doc ∧ a'.store.Holds doc c ∧
        c.unlined = documentContent 0 (f.plain.contents r .initial) := by
  obtain ⟨hfirst, hsecond, hlast⟩ := events_around h hevents
  -- the source is one element, and all its tags were accepted
  obtain ⟨tag, inner, hroot, hprintable⟩ := exists_element_of_ofSource h hevents
  have haccepts := all_accepts_of_ofSource h hevents
  have hforget : Environment.Forgets r .initial .initial := fun _ _ => rfl
  have htags : (f.plain.kept r).All (Accepts r) (fun _ => True) .initial :=
    Plain.all_accepts_kept hstatic hforget haccepts
  have hstable' : (f.plain.kept r).All (fun _ tag => tag.IsStable) Markup.IsStable .initial :=
    hstable.kept fun _ tag htag _ a ha => htag a (List.mem_of_mem_filter ha)
  have hread : (f.plain.kept r).asRead = f.plain.kept r :=
    Plain.asRead_eq_self hprintable.kept hstable'
  have hcontents : (f.plain.kept r).contents r .initial = f.plain.contents r .initial :=
    Plain.contents_kept hstatic hforget
  have hstatic' : (f.plain.kept r).All (fun _ _ => True) IsStatic .initial :=
    hstatic.kept fun _ _ _ _ => trivial
  have hprintable' := hprintable.kept (r := r)
  rw [hroot, Plain.kept, Plain.kept] at hprintable' hread htags
  obtain ⟨htag, hclose, hinner⟩ : (tag.kept r).Written ∧
      ((tag.kept r).selfClosing → inner.kept r = .nil) ∧ (inner.kept r).Printable := by
    cases hprintable' with
    | element htag hclose hinner _ => exact ⟨htag, hclose, hinner⟩
  obtain ⟨first', second', f', last', hevents', hfirst', hsecond', hlast',
      hplain', hforest, hparse⟩ :=
    Markup.exists_events_print htag hclose hinner
  rw [hread] at hforest
  have hfull' := full_of_events hevents'
  obtain ⟨a', ha'⟩ := exists_deliver (r := r) hfirst' hsecond' hlast' hfull' hforest
    (hforest ▸ htags) Store.wellFormed_empty Store.owned_empty Store.labelled_empty
  have hsource' : ofSource r false (Plain.element (tag.kept r) (inner.kept r) .nil).print {} =
      (.ok (), a') := hparse (by rw [hevents']; exact ha')
  have hkept : f.plain.kept r = .element (tag.kept r) (inner.kept r) .nil := by
    rw [hroot]
    rfl
  rw [hkept] at hstatic' hcontents ⊢
  obtain ⟨doc, c, hdoc, hc, hunlined⟩ := static_source_holds hsource' hevents' hplain'
    (by rw [hforest]; exact hstatic')
  rw [hforest, hcontents] at hunlined
  exact ⟨a', doc, c, hsource', hdoc, hc, hunlined⟩

end Tree

end Stencil
