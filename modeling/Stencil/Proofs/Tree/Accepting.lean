import Stencil.Proofs.Tree.Static

/-!
# Which events are accepted

While a tree is assembled, only a start tag can be refused: for its declarations, for a name without
binding, for two attributes of one name, or because it would be a second root element. All but the
last can be told from the tag and the environment of its element (`Accepts`), and if a source is
accepted, so is every other one with the same elements.

## Main definitions

* `Accepts` – the tag can be opened in the environment of its element
* `Plain.roots` – the number of elements next to each other

## Main results

* `exists_openingOf_iff` – a tag can be opened exactly if it is accepted in its environment
* `Assembly.accepts_of_deliver` – accepted events have accepted tags
* `Assembly.Inside.accepts` – events with accepted tags are accepted
-/

namespace Stencil.Tree

open Markup (Attr Event Located Tag Forest Plain)
open Store (Under)

/-! ### Tags -/

/-- The declarations of a tag are valid, its names have a meaning, and no two of the attributes that
are kept have one name. -/
structure Accepts (r : Option Resolver) (env : Environment) (tag : Tag) : Prop where
  declarations : ∀ a ∈ tag.attrs, ∃ entry, binding? a = .ok entry
  closes : env.Closes tag
  names : ((keptAttributes r tag).map fun a => a.name.full).Nodup

variable {r : Option Resolver} {env : Environment} {envs : List Environment} {b : Bindings}
  {line : Nat} {tag : Tag} {attrs : List Attr} {element : Text} {seen : List Text} {l : Located}
  {ls run : List Located} {f : Forest} {s₀ : Store} {p : NodeId} {cs : List Content}

theorem exists_declare_iff {n : Nat} :
    (∃ x, declare n b attrs = .ok x) ↔ ∀ a ∈ attrs, ∃ entry, binding? a = .ok entry := by
  induction attrs generalizing n b with
  | nil => simp [declare]
  | cons a attrs ih =>
    rw [declare, List.forall_mem_cons]
    cases binding? a with
    | error e => simp
    | ok entry =>
      cases entry with
      | none => simpa using ih
      | some entry => simpa using ih

theorem Environment.full_attributeOf (a : Attr) :
    (env.attributeOf r line a).full = a.name.full := by
  rw [attributeOf]
  split <;> rfl

namespace Assembly

theorem exists_attributesOf (hb : b.Says env)
    (hclosed : ∀ a ∈ attrs, isDeclaration a.name = false → a.name.qualifier ≠ [] →
      (env a.name.qualifier).isSome)
    (hnames : ((attrs.filter fun a => !declaresRegistered r a).map fun a => a.name.full).Nodup)
    (hseen : ∀ a ∈ attrs, declaresRegistered r a = false → a.name.full ∉ seen) :
    ∃ ds, attributesOf r b element line seen attrs = .ok ds := by
  induction attrs generalizing seen with
  | nil => exact ⟨[], rfl⟩
  | cons a attrs ih =>
    obtain ⟨ha, hclosed⟩ := List.forall_mem_cons.mp hclosed
    obtain ⟨hnew, hseen⟩ := List.forall_mem_cons.mp hseen
    rw [attributesOf]
    cases hfound : attributeOf r b element line a with
    | error e =>
      obtain ⟨hdecl, hq, hnone⟩ := attributeOf_unbound hb hfound
      have hsome := ha hdecl hq
      rw [hnone] at hsome
      cases hsome
    | ok found =>
      obtain ⟨rfl, -⟩ := attributeOf_ok hb hfound
      rw [List.filter_cons] at hnames
      by_cases hdrop : declaresRegistered r a
      · rw [if_neg (by simpa using hdrop)] at hnames
        rw [if_pos hdrop]
        exact ih hclosed hnames hseen
      · rw [Bool.not_eq_true] at hdrop
        rw [if_pos (by simpa using hdrop), List.map_cons, List.nodup_cons] at hnames
        rw [hdrop, if_neg Bool.false_ne_true]
        have hseen' : ∀ b ∈ attrs, declaresRegistered r b = false →
            b.name.full ∉ a.name.full :: seen := by
          intro b hb hkept hmem
          rcases List.mem_cons.mp hmem with heq | hmem
          · exact hnames.1 (List.mem_map.mpr ⟨b, List.mem_filter.mpr ⟨hb, by rw [hkept]; rfl⟩, heq⟩)
          · exact hseen b hb hkept hmem
        obtain ⟨ds, hds⟩ := ih hclosed hnames.2 hseen'
        refine ⟨env.attributeOf r line a :: ds, ?_⟩
        have hfull : (env.attributeOf r line a).full = a.name.full := Environment.full_attributeOf a
        have hcontains : seen.contains a.name.full = false := by simpa using hnew hdrop
        simp only [bind, Except.bind, hfull, hcontains, hds]
        rfl

/-- **A tag can be opened exactly if it is accepted in the environment of its element.** -/
theorem exists_openingOf_iff (line : Nat) (hb : b.Says env) :
    (∃ o, openingOf r line tag b = .ok o) ↔ Accepts r (env.inside tag) tag := by
  constructor
  · rintro ⟨o, ho⟩
    obtain ⟨new, rfl, -, hcloses⟩ := openingOf_ok hb ho
    refine ⟨?_, hcloses, ?_⟩
    · rw [openingOf] at ho
      obtain ⟨x, hx, -⟩ := exists_of_bind_ok ho
      exact exists_declare_iff.mp ⟨x, hx⟩
    · have hnames := openingOf_names ho
      rw [List.map_map] at hnames
      exact (List.map_congr_left fun a _ => Environment.full_attributeOf a) ▸ hnames
  · rintro ⟨hdeclarations, hcloses, hnames⟩
    obtain ⟨⟨count, b'⟩, hdeclare⟩ := (exists_declare_iff (n := 0) (b := b)).mpr hdeclarations
    obtain ⟨-, -, -, hsays⟩ := declare_ok hdeclare hb
    have hget : b'.get? tag.name.qualifier = env.inside tag tag.name.qualifier := hsays _
    obtain ⟨uri, huri⟩ : ∃ uri, elementNamespace b' tag.name = .ok uri := by
      rw [elementNamespace, hget]
      cases hmeaning : env.inside tag tag.name.qualifier with
      | some uri => exact ⟨uri, rfl⟩
      | none =>
        by_cases hq : tag.name.qualifier = []
        · exact ⟨[], if_pos hq⟩
        · have hsome := hcloses.element hq
          rw [hmeaning] at hsome
          cases hsome
    obtain ⟨ds, hds⟩ : ∃ ds, attributesOf r b' tag.name.full line [] tag.attrs = .ok ds :=
      exists_attributesOf hsays hcloses.attrs hnames (by simp)
    rw [openingOf, hdeclare]
    simp only [bind, Except.bind, huri, hds]
    exact ⟨_, rfl⟩

/-! ### Accepted events -/

variable {a a' : Assembly}

/-- The tag of an accepted start tag is accepted in the environment of its element. -/
theorem accepts_of_receive (h : Scoped envs a.declared a.bindings) (hl : l.event = .startTag tag)
    (hok : receive r l a = (.ok (), a')) : Accepts r ((innermost envs).inside tag) tag := by
  rw [receive, hl] at hok
  change (a.flush r).startElement r l.position.line tag = _ at hok
  rw [startElement, bindings_flush.2] at hok
  refine (exists_openingOf_iff l.position.line h.innermost).mp ?_
  split at hok
  · cases hok
  · rename_i o ho
    exact ⟨o, ho⟩

/-- The start tags among accepted events are accepted in the environments of their elements. -/
theorem accepts_of_deliver (h : Scoped envs a.declared a.bindings)
    (hok : Markup.deliver (receive r) ls a = (none, a')) :
    ∀ x ∈ scopedTags envs ls, Accepts r x.env x.tag := by
  induction ls generalizing envs a with
  | nil => simp [scopedTags]
  | cons l ls ih =>
    obtain ⟨x, hx, hrest⟩ := Markup.deliver_cons hok
    have hrest := ih (receive_scoped h hx).1 hrest
    rw [scopedTags]
    split
    · rename_i tag hl
      exact List.forall_mem_cons.mpr ⟨accepts_of_receive h hl hx, hrest⟩
    · exact hrest

end Assembly

/-- What holds of the start tags among nested events holds of what is left of these. -/
theorem all_of_scopedTags {P : Environment → Tag → Prop}
    (h : ∀ x ∈ scopedTags (env :: envs) (f.events ++ ls), P x.env x.tag) :
    f.plain.All P (fun _ => True) env ∧ ∀ x ∈ scopedTags (env :: envs) ls, P x.env x.tag := by
  induction f generalizing env envs ls with
  | nil => exact ⟨trivial, h⟩
  | single l hsingle rest ih =>
    rw [Forest.events, List.cons_append, scopedTags_single hsingle] at h
    obtain ⟨hrest, hbehind⟩ := ih h
    refine ⟨?_, hbehind⟩
    rw [Forest.plain]
    split
    · exact hrest.prepend trivial fun _ _ _ _ => trivial
    · exact hrest
  | element start tag inner stop tag' rest ih ih' =>
    rw [scopedTags_element, List.forall_mem_cons] at h
    obtain ⟨hinner, hbelow⟩ := ih h.2
    rw [scopedTags_endTag] at hbelow
    obtain ⟨hrest, hbehind⟩ := ih' hbelow
    exact ⟨⟨h.1, hinner, hrest⟩, hbehind⟩

/-! ### Room for elements -/

end Stencil.Tree

namespace Stencil.Markup.Plain

/-- The number of elements next to each other. -/
def roots : Plain → Nat
  | nil => 0
  | text _ rest => rest.roots
  | element _ _ rest => rest.roots + 1

theorem roots_prepend {t : Text} {p : Plain} : (p.prepend t).roots = p.roots := by
  cases p with
  | nil =>
    rw [prepend]
    split <;> rfl
  | text u rest => rfl
  | element tag inner rest =>
    rw [prepend]
    split <;> rfl

end Stencil.Markup.Plain

namespace Stencil.Tree

open Markup (Attr Event Located Tag Forest Plain)
open Store (Under)

variable {r : Option Resolver} {env : Environment} {line : Nat} {tag : Tag} {l : Located}
  {ls run : List Located} {f : Forest} {s₀ s : Store} {p n : NodeId}
    {cs : List Content} {c : Content}

theorem Store.Under.countP_isElement (h : s.Under p cs) :
    (s.children p).countP s.isElement = cs.countP Content.isElement := by
  rw [Store.Under] at h
  generalize s.children p = ns at h
  induction h with
  | nil => rfl
  | cons hc _ ih => rw [List.countP_cons, List.countP_cons, ih, hc.isElement_eq]

theorem Store.Under.rootElement?_eq_none (h : s.Under p cs)
    (hcs : cs.countP Content.isElement = 0) :
    s.rootElement? p = none := by
  rw [rootElement?, List.find?_eq_none]
  exact List.countP_eq_zero.mp (h.countP_isElement.trans hcs)

theorem countP_textContent : (textContent r run).countP Content.isElement = 0 := by
  rw [textContent]
  split <;> simp [Content.isElement, Content.ofScraps, Content.self, Payload.isElement]

/-- Events next to each other give as many elements as there are among them. -/
theorem countP_contentsOf :
    (contentsOf r env run f).countP Content.isElement = f.plain.roots := by
  induction f generalizing env run with
  | nil => rw [contentsOf, countP_textContent, Forest.plain, Plain.roots]
  | single l h rest ih =>
    have hleaf {node : Node} {cs : List Content} (hnode : node.payload.isElement = false) :
        (textContent r run ++ .leaf node :: cs).countP Content.isElement =
          cs.countP Content.isElement := by
      rw [List.countP_append, countP_textContent, List.countP_cons]
      simp [Content.isElement, Content.leaf, Content.self, hnode]
    rw [contentsOf, Forest.plain]
    cases he : l.event with
    | characters t => exact ih.trans Plain.roots_prepend.symm
    | doctype raw => exact (hleaf rfl).trans ih
    | instruction target data =>
      refine (hleaf ?_).trans ih
      rw [Assembly.instructionPayload]
      repeat' split
      all_goals rfl
    | _ => exact ih
  | element start tag inner stop tag' rest _ ih =>
    rw [contentsOf, List.countP_append, countP_textContent, List.countP_cons, ih, Forest.plain,
      Plain.roots, Nat.zero_add]
    rfl

namespace Assembly

variable {a a' : Assembly} {g : Gathering}

/-- An event by itself is never refused. -/
theorem exists_receive_single (h : Markup.IsSingle l.event) : ∃ x, receive r l a = (.ok (), x) := by
  rw [receive]
  cases he : l.event with
  | cdata t =>
    rw [take]
    split <;> exact ⟨_, rfl⟩
  | startTag _ => exact absurd h (by rw [he]; exact id)
  | _ => exact ⟨_, rfl⟩

/-- An accepted start tag can be opened where there is room for an element. -/
theorem Inside.exists_startElement (h : Inside s₀ p env cs g a) (line : Nat)
    (htag : Accepts r (env.inside tag) tag) (hroom : a.store.kind? p = some .element ∨
      cs.countP Content.isElement = 0) :
    ∃ x, (a.flush r).startElement r line tag = (.ok (), x) := by
  obtain ⟨hflush, honward⟩ := h.flush (r := r)
  obtain ⟨o, ho⟩ := (exists_openingOf_iff line hflush.scope).mpr htag
  have honly : hasOnlyRoot (a.flush r).store p = false := by
    rw [hasOnlyRoot]
    rcases hroom with hkind | hcount
    · have hkind := honward.tends.kind? _ _ hkind
      have hsingle : (a.flush r).store.hasSingleRoot p = false := by
        rw [Store.hasSingleRoot, Store.document?]
        rw [Store.kind?] at hkind
        cases hp : (a.flush r).store.payload? p with
        | none => rfl
        | some q =>
          cases q <;> first | rfl | (rw [hp] at hkind; cases hkind)
      rw [hsingle, Bool.false_and]
    · have htexts : (Store.textsOf (g.finish r)).countP Content.isElement = 0 := by
        rw [Store.textsOf]
        split <;> simp [Content.isElement, Content.ofScraps, Content.self, Payload.isElement]
      rw [hflush.under.rootElement?_eq_none (by rw [List.countP_append, hcount, htexts])]
      simp
  rw [Assembly.startElement, ho, hflush.current]
  dsimp only
  rw [honly]
  exact ⟨_, rfl⟩

/-- Behind accepted events there is room for as many elements as were not among them. -/
theorem Inside.more (rest : Forest) (h : Inside s₀ p env cs (run.foldl (Gathering.add r) {}) a)
    (hrun : ∀ l ∈ run, l.event.IsFull) (hf : Full f)
    (hok : Markup.deliver (receive r) f.events a = (none, a'))
    (hroom : a.store.kind? p = some .element ∨
      cs.countP Content.isElement + (f.plain.roots + rest.plain.roots) ≤ 1) :
    ∃ (cs' : List Content) (run' : List Located),
      Inside s₀ p env cs' (run'.foldl (Gathering.add r) {}) a' ∧ (∀ l ∈ run', l.event.IsFull) ∧
        (a'.store.kind? p = some .element ∨
          cs'.countP Content.isElement + rest.plain.roots ≤ 1) := by
  obtain ⟨cs', run', hx, honward, hrun', heq⟩ := h.deliver hrun hf hok
  refine ⟨cs', run', hx, hrun', hroom.imp (honward.tends.kind? _ _) fun hcount => ?_⟩
  have hcounts := congrArg (List.countP Content.isElement) heq
  rw [List.countP_append, List.countP_append, countP_textContent, countP_contentsOf] at hcounts
  omega

/-- **Events with accepted tags are accepted**, where there is room for the elements among them. -/
theorem Inside.accepts (h : Inside s₀ p env cs (run.foldl (Gathering.add r) {}) a)
    (hrun : ∀ l ∈ run, l.event.IsFull) (hf : Full f)
    (htags : f.plain.All (Accepts r) (fun _ => True) env)
    (hroom : a.store.kind? p = some .element ∨ cs.countP Content.isElement + f.plain.roots ≤ 1) :
    ∃ a', Markup.deliver (receive r) f.events a = (none, a') := by
  induction f generalizing a p env cs run with
  | nil => exact ⟨a, rfl⟩
  | single l hsingle rest ih =>
    obtain ⟨x, hx⟩ := exists_receive_single (r := r) (a := a) hsingle
    obtain ⟨hl, hrest⟩ := hf.rest_single
    have hfirst : Markup.deliver (receive r)
        (Forest.single l hsingle .nil).events a = (none, x) := by
      rw [Forest.events, Markup.deliver, hx]
      rfl
    have hroots : (Forest.single l hsingle rest).plain.roots =
        (Forest.single l hsingle .nil).plain.roots + rest.plain.roots := by
      rw [Forest.plain, Forest.plain]
      split <;> simp [Plain.roots_prepend, Forest.plain, Plain.roots]
    have htags : rest.plain.All (Accepts r) (fun _ => True) env := by
      rw [Forest.plain] at htags
      split at htags
      · exact htags.of_prepend fun _ _ _ => trivial
      · exact htags
    rw [hroots] at hroom
    obtain ⟨cs', run', hx', hrun', hroom'⟩ :=
      h.more rest hrun (by simpa [Full, Forest.events] using hl) hfirst hroom
    obtain ⟨a', ha'⟩ := ih hx' hrun' hrest htags hroom'
    exact ⟨a', by rw [Forest.events, Markup.deliver, hx]; exact ha'⟩
  | element start tag inner stop tag' rest ih ih' =>
    obtain ⟨hinner, hrest⟩ := hf.parts_element
    obtain ⟨htag, htags, htags'⟩ := htags
    have hroom' : a.store.kind? p = some .element ∨ cs.countP Content.isElement = 0 := by
      refine hroom.imp id fun hcount => ?_
      rw [Forest.plain, Plain.roots] at hcount
      omega
    -- the element is opened, filled and closed
    obtain ⟨x, hx⟩ := h.exists_startElement start.line htag hroom'
    obtain ⟨e, hopened, hunder, -, hlast, -⟩ := h.startElement hx
    have helement : x.store.isElement e := by
      obtain ⟨-, e', -, -, hholds, hlast', -⟩ := hunder.exists_last hopened.built.wellFormed
      obtain rfl : e = e' := Option.some.inj (hlast.symm.trans hlast')
      exact hholds.isElement_eq
    have hnew : Inside s₀ e (env.inside tag) [] (List.foldl (Gathering.add r) {} []) x := hopened
    obtain ⟨y, hy⟩ := ih hnew (by simp) hinner htags (.inl (Store.kind?_of_isElement helement))
    obtain ⟨z, hz⟩ : ∃ z, receive r ⟨stop, .endTag tag'⟩ y = (.ok (), z) := ⟨_, rfl⟩
    have hstart : receive r ⟨start, .startTag tag⟩ a = (.ok (), x) := hx
    have hfirst {rest : List Located} : Markup.deliver (receive r)
        (⟨start, .startTag tag⟩ :: (inner.events ++ ⟨stop, .endTag tag'⟩ :: rest)) a =
          Markup.deliver (receive r) rest z := by
      rw [Markup.deliver, hstart]
      dsimp only
      rw [Markup.deliver_append_of hy, Markup.deliver, hz]
    have hfull : Full (Forest.element start tag inner stop tag' .nil) := by
      rw [Full, Forest.events, List.forall_mem_cons, List.forall_mem_append]
      exact ⟨trivial, hinner, by simp [Forest.events, Event.IsFull]⟩
    obtain ⟨cs', run', hz', hrun', hroom'⟩ := h.more rest hrun hfull hfirst
      (hroom.imp id fun hcount => by
        simp only [Forest.plain, Plain.roots] at hcount ⊢
        omega)
    obtain ⟨a', ha'⟩ := ih' hz' hrun' hrest htags' hroom'
    exact ⟨a', hfirst.trans ha'⟩

end Assembly

end Stencil.Tree
