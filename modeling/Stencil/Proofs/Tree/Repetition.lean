import Stencil.Proofs.Tree.Accepting

/-!
# Repeated attributes

Reading does not compare the attributes of a start tag. It is the assembly of the tree that refuses
a tag with two attributes of one name, and it looks only at the attributes that are kept:
declarations of registered namespaces are left out before. So a name may be repeated in an accepted
source, but then at most one of the attributes with that name is something else than such a
declaration.

## Main definitions

* `Repeats` – two attributes of a tag have one name
* `AssemblyError.IsRepetition` – the refusal of a repeated attribute

## Main results

* `Assembly.repeats_of_receive` – a repetition is reported only where there is one
* `ofSource_repeats` – which attributes are repeated in sources that are accepted or refused
-/

namespace Stencil.Tree

open Markup (Attr Located Tag)

/-- Two attributes of the tag, one behind the other, have one name. -/
def Repeats (tag : Tag) (a a' : Attr) :
    Prop := [a, a'].Sublist tag.attrs ∧ a.name.full = a'.name.full

/-- The element cannot have another attribute of that name. -/
def AssemblyError.IsRepetition (element name : Text) (e : AssemblyError) : Prop :=
  e = .tree (.duplicateAttribute element name)

variable {r : Option Resolver} {env : Environment} {envs : List Environment} {b b' : Bindings}
  {line n m : Nat} {tag : Tag} {attrs : List Attr} {element name : Text} {seen : List Text}
  {l : Located} {e : AssemblyError}

/-- What is kept of an accepted tag has no repetitions. -/
theorem Accepts.declares_of_repeats {a a' : Attr} (h : Accepts r env tag) (ha : Repeats tag a a') :
    declaresRegistered r a ∨ declaresRegistered r a' := by
  by_contra hkept
  obtain ⟨hfirst, hsecond⟩ := not_or.mp hkept
  have hsub : [a, a'].Sublist (keptAttributes r tag) := by
    have hfilter := ha.1.filter fun x => !declaresRegistered r x
    rwa [List.filter_cons_of_pos (by simpa using hfirst),
      List.filter_cons_of_pos (by simpa using hsecond)] at hfilter
  have hnames : ([a, a'].map fun x => x.name.full).Nodup := h.names.sublist (hsub.map _)
  simp [ha.2] at hnames

/-! ### Reported repetitions -/

theorem not_isRepetition_of_declare (h : declare n b attrs = .error e) :
    ¬ e.IsRepetition element name := by
  induction attrs generalizing n b with
  | nil => cases h
  | cons a attrs ih =>
    rw [declare] at h
    split at h
    · rename_i err ha
      cases h
      rw [binding?] at ha
      split at ha
      · cases ha
      · split at ha
        · split at ha
          · cases ha
            rintro ⟨⟩
          · cases ha
        · cases ha
    · exact ih h
    · exact ih h

namespace Assembly

theorem not_isRepetition_of_attributeOf {a : Attr} {element' : Text}
    (h : attributeOf r b element' line a = .error e) : ¬ e.IsRepetition element name := by
  rw [attributeOf] at h
  split at h
  · split at h <;> cases h
  · split at h
    · cases h
    · split at h
      · cases h
      · cases h
        rintro ⟨⟩

/-- The attribute that is reported is kept and has the name of one that was seen, or of one before
it that is kept too. -/
theorem repeated_of_attributesOf {element' : Text} (hb : b.Says env)
    (h : attributesOf r b element' line seen attrs = .error e) (he : e.IsRepetition element name) :
    element' = element ∧ ∃ before a after, attrs = before ++ a :: after ∧ a.name.full = name ∧
      declaresRegistered r a = false ∧
      (name ∈ seen ∨ ∃ a' ∈ before, a'.name.full = name ∧ declaresRegistered r a' = false) := by
  induction attrs generalizing seen with
  | nil => cases h
  | cons a attrs ih =>
    rw [attributesOf] at h
    cases ha : attributeOf r b element' line a with
    | error err =>
      rw [ha] at h
      cases h
      exact absurd he (not_isRepetition_of_attributeOf ha)
    | ok found =>
      rw [ha] at h
      obtain ⟨rfl, -⟩ := attributeOf_ok hb ha
      by_cases hdrop : declaresRegistered r a
      · rw [if_pos hdrop] at h
        obtain ⟨hname, before, x, after, rfl, hx, hkept, hseen⟩ := ih h
        refine ⟨hname, a :: before, x, after, rfl, hx, hkept, hseen.imp_right ?_⟩
        rintro ⟨y, hy, hboth⟩
        exact ⟨y, List.mem_cons_of_mem a hy, hboth⟩
      · rw [if_neg hdrop] at h
        rw [Bool.not_eq_true] at hdrop
        have hfull : (env.attributeOf r line a).full = a.name.full := Environment.full_attributeOf a
        simp only [bind, Except.bind, hfull] at h
        split at h
        · rename_i hcontains
          cases h
          cases he
          exact ⟨rfl, [], a, attrs, rfl, rfl, hdrop, .inl (by simpa using hcontains)⟩
        · split at h
          · rename_i hrest
            cases h
            obtain ⟨hname, before, x, after, rfl, hx, hkept, hseen⟩ := ih hrest
            refine ⟨hname, a :: before, x, after, rfl, hx, hkept, ?_⟩
            rcases hseen with hseen | ⟨y, hy, hboth⟩
            · rcases List.mem_cons.mp hseen with heq | hseen
              · exact .inr ⟨a, List.mem_cons_self, heq.symm, hdrop⟩
              · exact .inl hseen
            · exact .inr ⟨y, List.mem_cons_of_mem a hy, hboth⟩
          · cases h

/-- A tag that is refused for a repeated attribute has one, which is kept both times. -/
theorem repeats_of_openingOf (hb : b.Says env) (h : openingOf r line tag b = .error e)
    (he : e.IsRepetition element name) : tag.name.full = element ∧ ∃ a a', Repeats tag a a' ∧
      a.name.full = name ∧ declaresRegistered r a = false ∧ declaresRegistered r a' = false := by
  rw [openingOf] at h
  cases hdeclare : declare 0 b tag.attrs with
  | error err =>
    rw [hdeclare] at h
    cases h
    exact absurd he (not_isRepetition_of_declare hdeclare)
  | ok p =>
    obtain ⟨-, -, -, hsays⟩ := declare_ok hdeclare hb
    rw [hdeclare] at h
    change (elementNamespace p.2 tag.name >>= _) = _ at h
    cases hname : elementNamespace p.2 tag.name with
    | error err =>
      rw [hname] at h
      cases h
      rw [elementNamespace] at hname
      split at hname
      · cases hname
      · split at hname
        · cases hname
        · cases hname
          cases he
    | ok uri =>
      rw [hname] at h
      change (attributesOf r p.2 tag.name.full line [] tag.attrs >>= _) = _ at h
      cases hattrs : attributesOf r p.2 tag.name.full line [] tag.attrs with
      | error err =>
        rw [hattrs] at h
        cases h
        obtain ⟨helement, before, a, after, hsplit, ha, hkept, hseen⟩ :=
          repeated_of_attributesOf hsays hattrs he
        obtain ⟨a', ha', hfull, hkept'⟩ := hseen.resolve_left List.not_mem_nil
        refine ⟨helement, a', a, ⟨?_, hfull.trans ha.symm⟩, hfull, hkept', hkept⟩
        rw [hsplit]
        exact (List.singleton_sublist.mpr ha').append
          (List.singleton_sublist.mpr List.mem_cons_self)
      | ok attrs =>
        rw [hattrs] at h
        cases h

/-- **A repetition is reported only where there is one.** -/
theorem repeats_of_receive {a a' : Assembly} (h : Scoped envs a.declared a.bindings)
    (hfail : receive r l a = (.error e, a')) (he : e.IsRepetition element name) :
    ∃ tag, l.event = .startTag tag ∧ tag.name.full = element ∧ ∃ x x', Repeats tag x x' ∧
      x.name.full = name ∧ declaresRegistered r x = false ∧ declaresRegistered r x' = false := by
  rw [receive] at hfail
  cases hevent : l.event with
  | startTag tag =>
    rw [hevent] at hfail
    change (a.flush r).startElement r _ tag = _ at hfail
    rw [startElement, bindings_flush.2] at hfail
    cases ho : openingOf r l.position.line tag a.bindings with
    | error err =>
      rw [ho] at hfail
      cases hfail
      exact ⟨tag, rfl, repeats_of_openingOf h.innermost ho he⟩
    | ok o =>
      rw [ho] at hfail
      dsimp only at hfail
      split at hfail
      · cases hfail
      · split at hfail
        · cases hfail
          cases he
        · cases hfail
  | cdata t =>
    rw [hevent, take] at hfail
    split at hfail <;> cases hfail
  | _ =>
    rw [hevent] at hfail
    cases hfail

end Assembly

/-! ### Sources -/

/-- **Only declarations of registered namespaces are repeated in an accepted source**: of two
attributes of a start tag that have one name, one is such a declaration. A source is refused for a
repeated attribute only if the start tag that is named in the refusal has two attributes of the
name, neither of which is such a declaration. -/
theorem ofSource_repeats [Encoding.Decoders] (r : Option Resolver) (source : Text) :
    (∀ s₀ a, ofSource r false source s₀ = (.ok (), a) →
      ∀ x ∈ scopedTags [] (Markup.events source), ∀ y y', Repeats x.tag y y' →
        declaresRegistered r y ∨ declaresRegistered r y') ∧
    ∀ s₀ a p e element name, ofSource r false source s₀ = (.error (.refused p e), a) →
      e.IsRepetition element name →
      ∃ x ∈ scopedTags [] (Markup.events source), x.tag.name.full = element ∧
        ∃ y y', Repeats x.tag y y' ∧ y.name.full = name ∧
          declaresRegistered r y = false ∧ declaresRegistered r y' = false := by
  refine ⟨fun s₀ a h x hx y y' => ?_, fun s₀ a p e element name h he => ?_⟩
  · obtain ⟨-, hok⟩ := Markup.deliver_of_read_ok h
    exact (Assembly.accepts_of_deliver .nil hok x hx).declares_of_repeats
  · obtain ⟨pre, l, post, x, hevents, hpre, hfail⟩ := Markup.deliver_of_read_refused h
    obtain ⟨tag, htag, hrepeats⟩ :=
      Assembly.repeats_of_receive (Assembly.deliver_scoped .nil hpre).1 hfail he
    obtain ⟨env, hmem⟩ : ∃ env, ScopedTag.mk env l.position.line tag ∈
        scopedTags [] (Markup.events source) := by
      rw [hevents, scopedTags_append, scopedTags, htag]
      exact ⟨_, List.mem_append_right _ List.mem_cons_self⟩
    exact ⟨_, hmem, hrepeats⟩

/-- A registered namespace is declared twice, and an ordinary attribute is given twice. -/
theorem ofSource_repeats_declaration :
    let r : Resolver := ⟨fun t => if t = "urn:d" then some 7 else none, fun _ => false, []⟩
    let twice : Text := "<d:t xmlns:d='urn:d' xmlns:d='urn:d'/>"
    (∃ a, ofSource (some r) false twice {} = (.ok (), a)) ∧
    (∃ x ∈ scopedTags [] (Markup.events twice), ∃ y y', Repeats x.tag y y' ∧
      (declaresRegistered r y ∨ declaresRegistered r y')) ∧
    ∃ x ∈ scopedTags [] (Markup.events ("<a b='1' b='2'/>" : Text)), ∃ y y', Repeats x.tag y y' ∧
      y.name.full = ("b" : Text) := by
  intro r twice
  have hok {α β : Type} {r : Except α Unit × β} (h : r.1.toOption.isSome) : r = (.ok (), r.2) := by
    obtain ⟨_ | _, _⟩ := r
    · cases h
    · rfl
  have haccepted :=
    hok (show (ofSource (some r) false twice {}).1.toOption.isSome by decide +kernel)
  refine ⟨⟨_, haccepted⟩, ?_, ?_⟩
  · -- the two declarations are all there is in the only tag
    have hcount : ((scopedTags [] (Markup.events twice)).map fun x =>
        x.tag.attrs.map fun y => y.name.full) = [[("xmlns:d" : Text), "xmlns:d"]] := by decide
    obtain ⟨x, xs, hx, hattrs, -⟩ := List.map_eq_cons_iff.mp hcount
    obtain ⟨y, ys, hy, hname, hys⟩ := List.map_eq_cons_iff.mp hattrs
    obtain ⟨y', ys', rfl, hname', hys'⟩ := List.map_eq_cons_iff.mp hys
    have hmem : x ∈ scopedTags [] (Markup.events twice) := hx ▸ List.mem_cons_self
    have hrepeats : Repeats x.tag y y' :=
      ⟨by rw [hy]; exact ((List.nil_sublist ys').cons_cons y').cons_cons y, hname.trans hname'.symm⟩
    exact ⟨x, hmem, y, y', hrepeats,
      (ofSource_repeats r twice).1 {} _ haccepted x hmem y y' hrepeats⟩
  · have hrefused : ((refusal? (ofSource (some r) false ("<a b='1' b='2'/>" : Text) {}).1).map
        Prod.snd) = some (.tree (.duplicateAttribute "a" "b")) := by decide
    obtain ⟨⟨p, e⟩, hp, rfl⟩ := Option.map_eq_some_iff.mp hrefused
    obtain ⟨x, hx, -, y, y', hrepeats, hname, -⟩ :=
      (ofSource_repeats r ("<a b='1' b='2'/>" : Text)).2
      {} _ p _ _ _ (Prod.ext (eq_of_refusal? hp) rfl) rfl
    exact ⟨x, hx, y, y', hrepeats, hname⟩

end Stencil.Tree
