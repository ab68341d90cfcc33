import Stencil.Proofs.Language.Reference
import Stencil.Proofs.Tree.Changes

/-!
# Extraction and instructions among the attributes

Attributes in a registered namespace are instructions of their own, and extraction takes nothing
from them. One would expect it to be as if they were not there. That is so for attributes that are
not demanded. But a demand that names an instruction is met by it and dropped: it gives no value,
not even the default, and it is no fault if the demand was a strict one. So extraction from an
element is extraction from the element without its instructions, for those demands only that name no
instruction.

## Main definitions

* `Store.facets` – what the attributes of an element say
* `Store.isInstruction` – whether the attribute of a name is an instruction
* `Store.removeInstructions` – an element without instructions among its attributes

## Main results

* `Store.exists_removeInstructions` – what is left of the attributes
* `Language.extractFrom_filter` – extraction without instructions
* `Language.extractAttributes_ordinary` – what instructions change
-/

namespace Stencil

open Stencil.Tree (Node NodeId Store AttributeData Payload)

/-! ### Elements without instructions -/

namespace Tree.Store

variable {s s' : Store} {e a b : NodeId} {name : Text} {names : List Text}

/-- What the attributes of an element say. -/
def facets (s : Store) (e : NodeId) : List AttributeData := (s.attributes e).filterMap s.facet?

/-- Whether the attribute of an element with the given name is an instruction. -/
def isInstruction (s : Store) (e : NodeId) (name : Text) : Bool :=
  ((s.attribute? e name).bind s.uri?).isSome

/-- Removes the attributes of an element that are instructions. -/
def removeInstructions (s : Store) (e : NodeId) : Except TreeError Store :=
  (((s.facets e).filter (·.uri.isSome)).map (·.full)).foldlM (·.removeAttribute e ·) s

theorem uri?_eq_bind (ha : s.attr? a ≠ none) : s.uri? a = (s.facet? a).bind (·.uri) := by
  obtain ⟨data, hdata⟩ := Option.ne_none_iff_exists'.mp ha
  rw [uri?, payload?_of_attr? hdata, facet?_of_attr? hdata]
  rfl

/-- Entries are listed under what they say. -/
theorem map_full_entries {l : List (Text × NodeId)}
    (h : ∀ entry ∈ l, s.attrName? entry.2 = some entry.1) :
    ((l.map (·.2)).filterMap s.facet?).map (·.full) = l.map (·.1) := by
  induction l with
  | nil => rfl
  | cons entry l ih =>
    obtain ⟨hentry, hl⟩ := List.forall_mem_cons.mp h
    obtain ⟨data, hdata, hname⟩ := Option.map_eq_some_iff.mp hentry
    rw [List.map_cons, List.filterMap_cons, hdata, List.map_cons, List.map_cons, ih hl, hname]

/-- Choosing entries by name is choosing what they say by name. -/
theorem facets_entries {l : List (Text × NodeId)}
    (h : ∀ entry ∈ l, s.attrName? entry.2 = some entry.1) (name : Text) :
    ((l.filter fun entry => entry.1 ≠ name).map (·.2)).filterMap s.facet? =
      ((l.map (·.2)).filterMap s.facet?).filter fun a => a.full ≠ name := by
  induction l with
  | nil => rfl
  | cons entry l ih =>
    obtain ⟨hentry, hl⟩ := List.forall_mem_cons.mp h
    obtain ⟨data, hdata, hname⟩ := Option.map_eq_some_iff.mp hentry
    specialize ih hl
    by_cases heq : entry.1 = name
    · rw [List.filter_cons_of_neg (by simpa using heq), ih, List.map_cons,
        List.filterMap_cons, hdata, List.filter_cons_of_neg (by simpa [hname] using heq)]
    · rw [List.filter_cons_of_pos (by simpa using heq), List.map_cons,
        List.filterMap_cons, hdata, ih, List.map_cons, List.filterMap_cons, hdata,
        List.filter_cons_of_pos (by simpa [hname] using heq)]

theorem label_of_map {g : Payload → Payload} {n m : NodeId}
    (h : ∀ m, s'.payload? m = if m = n then (s.payload? n).map g else s.payload? m)
    (hg : ∀ p, (g p).label = p.label) : s'.label m = s.label m := by
  rw [label, h, label]
  split
  · rename_i hm
    rw [hm, Option.map_map, show Payload.label ∘ g = Payload.label from funext hg]
  · rfl

namespace Labelled

/-- Attributes are listed with what they say. -/
theorem exists_facet (h : s.Labelled) (ha : a ∈ s.attributes e) :
    ∃ data, s.attr? a = some data ∧ s.facet? a = some { data with owner := none } := by
  obtain ⟨entry, hentry, rfl⟩ := List.mem_map.mp ha
  obtain ⟨data, hdata⟩ := exists_attr?_of_attrName? (h.name e entry hentry)
  exact ⟨data, hdata, facet?_of_attr? hdata⟩

/-- No two attributes say the same name. -/
theorem nodup_facets (h : s.Labelled) (e : NodeId) : ((s.facets e).map (·.full)).Nodup := by
  have hkeys := map_full_entries (h.name e)
  rw [facets, attributes, OrderedMap.values, hkeys]
  exact h.nodup e

theorem facetOf?_eq_find? (h : s.Labelled) (e : NodeId) (name : Text) :
    s.facetOf? e name = (s.facets e).find? fun a => a.full = name := by
  rw [facetOf?, h.attribute?_eq]
  exact Language.find?_facets (s.attributes e) s.facet? AttributeData.full name

theorem isInstruction_eq (h : s.Labelled) : s.isInstruction e name =
    (((s.facets e).find? fun a => a.full = name).bind (·.uri)).isSome := by
  rw [← h.facetOf?_eq_find?, isInstruction, facetOf?, Option.bind_assoc]
  cases ha : s.attribute? e name with
  | none => rfl
  | some a =>
    have hmem : a ∈ s.attributes e := by
      rw [h.attribute?_eq] at ha
      exact List.mem_of_find?_eq_some ha
    obtain ⟨data, hdata, -⟩ := h.exists_facet hmem
    rw [Option.bind_some, Option.bind_some, uri?_eq_bind (hdata ▸ Option.some_ne_none data)]

end Labelled

/-- What is left of an element when an attribute is removed. -/
theorem exists_removeAttribute (h : s.Labelled) (hname : name ∈ (s.facets e).map (·.full)) :
    ∃ s', s.removeAttribute e name = .ok s' ∧ s'.Labelled ∧ s'.label e = s.label e ∧
      s'.facets e = (s.facets e).filter fun a => a.full ≠ name := by
  have hcontains : (s.attributeTable e).contains name := by
    rw [OrderedMap.contains_iff_mem_keys]
    rwa [facets, attributes, OrderedMap.values, map_full_entries (h.name e)] at hname
  obtain ⟨a, ha⟩ : ∃ a, s.attribute? e name = some a := Option.isSome_iff_exists.mp hcontains
  obtain ⟨d, hd⟩ : ∃ d, s.element? e = some d := by
    cases helement : s.element? e with
    | some d => exact ⟨d, rfl⟩
    | none => simp [attributeTable, helement, OrderedMap.contains,
      OrderedMap.get?, OrderedMap.empty]
      at hcontains
  let attrs : OrderedMap Text NodeId :=
    ⟨(s.attributeTable e).entries.filter fun entry => entry.1 ≠ name⟩
  have hok : s.removeAttribute e name =
      .ok ((s.modifyElement e fun d => { d with attrs }).disown a) := by
    rw [removeAttribute, getAttribute, ha, OrderedMap.erase?, if_pos hcontains]
    rfl
  have htable (m : NodeId) := payload?_modifyElement (s := s) (n := e) (m := m)
    (f := fun d => { d with attrs })
  have howner (m : NodeId) := payload?_modifyAttr (s := s.modifyElement e fun d => { d with attrs })
    (n := a) (m := m) (f := fun d => { d with owner := none })
  refine ⟨_, hok, h.shrink ((Shrinks.setTable List.filter_sublist).trans .disown), ?_, ?_⟩
  · exact (label_of_map howner fun p => by cases p <;> rfl).trans
      (label_of_map htable fun p => by cases p <;> rfl)
  · have hfacet : ((s.modifyElement e fun d => { d with attrs }).disown a).facet? = s.facet? :=
      funext fun b => (facet?_of_map howner fun p => by cases p <;> rfl).trans
        (facet?_of_map htable fun p => by cases p <;> rfl)
    rw [facets, hfacet, disown, attributes_modifyAttr, attributes_modifyElement, if_pos rfl, hd]
    exact facets_entries (h.name e) name

/-- What is left when several are removed. -/
theorem exists_foldlM_removeAttribute (h : s.Labelled) (hnodup : names.Nodup)
    (hnames : ∀ name ∈ names, name ∈ (s.facets e).map (·.full)) :
    ∃ s', names.foldlM (·.removeAttribute e ·) s = .ok s' ∧ s'.Labelled ∧ s'.label e = s.label e ∧
      s'.facets e = (s.facets e).filter fun a => a.full ∉ names := by
  induction names generalizing s with
  | nil => exact ⟨s, rfl, h, rfl, by simp⟩
  | cons name names ih =>
    obtain ⟨hname, hrest⟩ := List.forall_mem_cons.mp hnames
    obtain ⟨hfresh, hnodup⟩ := List.nodup_cons.mp hnodup
    obtain ⟨t, hok, ht, hlabel, hfacets⟩ := exists_removeAttribute h hname
    obtain ⟨s', hok', hs', hlabel', hfacets'⟩ := ih ht hnodup fun other hother => by
      obtain ⟨a, ha, rfl⟩ := List.mem_map.mp (hrest other hother)
      have hne : a.full ≠ name := fun heq => hfresh (heq ▸ hother)
      rw [hfacets]
      exact List.mem_map_of_mem (List.mem_filter.mpr ⟨ha, by simpa using hne⟩)
    refine ⟨s', ?_, hs', hlabel'.trans hlabel, ?_⟩
    · rw [List.foldlM_cons, hok]
      exact hok'
    · rw [hfacets', hfacets, List.filter_filter]
      simp only [List.mem_cons, not_or, Bool.decide_and, ne_eq, Bool.and_comm]

/-- **What is left of the attributes** when instructions are removed are all others. -/
theorem exists_removeInstructions (h : s.Labelled) (e : NodeId) :
    ∃ s', s.removeInstructions e = .ok s' ∧ s'.Labelled ∧ s'.label e = s.label e ∧
      s'.facets e = (s.facets e).filter (·.uri.isNone) := by
  have hnodup := h.nodup_facets e
  have hnames : (((s.facets e).filter (·.uri.isSome)).map (·.full)).Nodup :=
    hnodup.sublist (List.filter_sublist.map _)
  obtain ⟨s', hok, hs', hlabel, hfacets⟩ := exists_foldlM_removeAttribute (e := e) h hnames
    fun name hname => by
      obtain ⟨a, ha, rfl⟩ := List.mem_map.mp hname
      exact List.mem_map_of_mem (List.mem_filter.mp ha).1
  refine ⟨s', hok, hs', hlabel, hfacets.trans (List.filter_congr fun a ha => ?_)⟩
  -- an attribute has the name of an instruction only if it is one
  have hmem : a.full ∈ ((s.facets e).filter (·.uri.isSome)).map (·.full) ↔ a.uri.isSome := by
    refine ⟨fun hname => ?_, fun huri => List.mem_map_of_mem (List.mem_filter.mpr ⟨ha, huri⟩)⟩
    obtain ⟨b, hb, heq⟩ := List.mem_map.mp hname
    obtain ⟨hb, huri⟩ := List.mem_filter.mp hb
    exact List.inj_on_of_nodup_map hnodup hb ha heq ▸ huri
  rw [Bool.eq_iff_iff, decide_eq_true_iff, hmem]
  cases a.uri <;> simp

end Tree.Store

/-! ### Extraction -/

namespace Language

variable {ε α β : Type} {d : Dialect} {s : Store} {e : NodeId} {element name : Text}
  {facets : List AttributeData} {specs : List AttributeSpec} {others : Option AttributeSpec}
  {spec : AttributeSpec} {r : Extracted}

/-- What work yields for the items of a list, where it yields something. -/
def collect (f : α → Except ε (Option β)) (l : List α) : Except ε (List β) :=
  (·.filterMap id) <$> l.mapM f

theorem collect_cons (f : α → Except ε (Option β)) (a : α) (l : List α) : collect f (a :: l) = do
    let b ← f a
    return b.toList ++ (← collect f l) := by
  rw [collect, List.mapM_cons, collect]
  cases f a with
  | error err => rfl
  | ok b =>
    cases l.mapM f with
    | error err => rfl
    | ok bs => cases b <;> rfl

/-- Items that yield nothing can be left out. -/
theorem collect_filter {f g : α → Except ε (Option β)} {p : α → Bool} {l : List α}
    (hkeep : ∀ a ∈ l, p a → f a = g a) (hdrop : ∀ a ∈ l, p a = false → f a = .ok none) :
    collect f l = collect g (l.filter p) := by
  induction l with
  | nil => rfl
  | cons a l ih =>
    obtain ⟨hkeep, hkeeps⟩ := List.forall_mem_cons.mp hkeep
    obtain ⟨hdrop, hdrops⟩ := List.forall_mem_cons.mp hdrop
    specialize ih hkeeps hdrops
    cases hp : p a with
    | true => rw [List.filter_cons_of_pos hp, collect_cons, collect_cons, hkeep hp, ih]
    | false =>
      rw [List.filter_cons_of_neg (by simp [hp]), collect_cons, hdrop hp, ih]
      cases collect g (l.filter p) <;> rfl

/-- What is collected is what was yielded. -/
theorem mem_of_collect {f : α → Except ε (Option β)} {l : List α} {bs : List β}
    (h : collect f l = .ok bs) :
    (∀ a ∈ l, ∃ o, f a = .ok o ∧ ∀ b ∈ o, b ∈ bs) ∧ ∀ b ∈ bs, ∃ a ∈ l, f a = .ok (some b) := by
  induction l generalizing bs with
  | nil =>
    cases h
    exact ⟨nofun, nofun⟩
  | cons a l ih =>
    rw [collect_cons] at h
    obtain ⟨o, ho, h⟩ := exists_of_bind_ok h
    obtain ⟨rest, hrest, rfl⟩ : ∃ rest, collect f l = .ok rest ∧ o.toList ++ rest = bs := by
      cases hcollect : collect f l with
      | error err => simp [hcollect, Functor.map, Except.map] at h
      | ok rest => exact ⟨rest, rfl, by simpa [hcollect, Functor.map, Except.map] using h⟩
    obtain ⟨hall, hsome⟩ := ih hrest
    refine ⟨List.forall_mem_cons.mpr ⟨⟨o, ho, fun b hb => ?_⟩, fun a ha => ?_⟩, fun b hb => ?_⟩
    · exact List.mem_append_left _ (Option.mem_toList.mpr hb)
    · obtain ⟨o', ho', hmem⟩ := hall a ha
      exact ⟨o', ho', fun b hb => List.mem_append_right _ (hmem b hb)⟩
    · rcases List.mem_append.mp hb with hb | hb
      · exact ⟨a, List.mem_cons_self, (Option.mem_toList.mp hb) ▸ ho⟩
      · obtain ⟨a', ha', heq⟩ := hsome b hb
        exact ⟨a', List.mem_cons_of_mem _ ha', heq⟩

/-- Extraction from what the attributes of an element say. -/
def extractFrom (d : Dialect) (element : Text) (facets : List AttributeData)
    (specs : List AttributeSpec) (others : Option AttributeSpec) : Except Failure Extracted := do
  let values ← collect (demandedOf d element facets) specs
  let rest ← match others with
    | none => pure []
    | some spec => collect (otherOf d element (specs.map (·.name)) spec) facets
  return ⟨values, rest⟩

theorem extractAttributes_eq_extractFrom (h : s.Labelled) : extractAttributes d s e specs others =
    extractFrom d (s.label e) (s.facets e) specs others := by
  rw [extractAttributes_eq h, extractOf, Tree.labelOf_loose, Tree.facetsOf_loose,
    extractFrom, collect, bind_map_left]
  cases others with
  | none => rfl
  | some spec =>
    simp only [collect, bind_map_left]
    rfl

/-- Whether a name is that of an instruction. -/
def namesInstruction (facets : List AttributeData) (name : Text) : Bool :=
  ((facets.find? fun a => a.full = name).bind (·.uri)).isSome

/-- A demand for an instruction is met by it. -/
theorem demandedOf_instruction (h : namesInstruction facets spec.name) :
    demandedOf d element facets spec = .ok none := by
  rw [namesInstruction] at h
  rw [demandedOf]
  cases hfind : facets.find? fun a => a.full = spec.name with
  | none => simp [hfind] at h
  | some a =>
    rw [hfind] at h
    exact if_pos h

/-- Any other demand does not see instructions. -/
theorem demandedOf_ordinary (h : namesInstruction facets spec.name = false) :
    demandedOf d element facets spec = demandedOf d element
      (facets.filter (·.uri.isNone)) spec := by
  have hfind : (facets.filter (·.uri.isNone)).find? (fun a => a.full = spec.name) =
      facets.find? fun a => a.full = spec.name := by
    rw [namesInstruction] at h
    cases hfind : facets.find? fun a => a.full = spec.name with
    | none =>
      rw [List.find?_eq_none] at hfind ⊢
      exact fun a ha => hfind a (List.mem_filter.mp ha).1
    | some a =>
      rw [hfind, Option.bind_some] at h
      obtain ⟨hname, before, after, rfl, hbefore⟩ := List.find?_eq_some_iff_append.mp hfind
      refine List.find?_eq_some_iff_append.mpr ⟨hname, before.filter (·.uri.isNone),
        after.filter (·.uri.isNone), ?_, fun b hb => hbefore b (List.mem_filter.mp hb).1⟩
      rw [List.filter_append, List.filter_cons_of_pos (by simpa using h)]
  rw [demandedOf, demandedOf, hfind]

theorem otherOf_instruction {a : AttributeData} {demanded : List Text} (h : a.uri.isNone = false) :
    otherOf d element demanded spec a = .ok none := by
  have huri : a.uri.isSome := by
    cases hcase : a.uri <;> simp_all
  rw [otherOf, huri]
  rfl

/-- Attributes that are no instructions are demanded by demands that name no instruction. -/
theorem contains_ordinary {a : AttributeData} (hnodup : (facets.map (·.full)).Nodup)
    (ha : a ∈ facets) (huri : a.uri.isNone) : (specs.map (·.name)).contains a.full =
      ((specs.filter fun spec => !namesInstruction facets spec.name).map (·.name)).contains
        a.full := by
  have hordinary : namesInstruction facets a.full = false := by
    rw [namesInstruction]
    cases hfind : facets.find? fun b => b.full = a.full with
    | none => rfl
    | some b =>
      have hname : b.full = a.full := by simpa using List.find?_some hfind
      rw [List.inj_on_of_nodup_map hnodup (List.mem_of_find?_eq_some hfind) ha hname]
      simpa using huri
  rw [Bool.eq_iff_iff, List.contains_iff_mem, List.contains_iff_mem, List.mem_map, List.mem_map]
  refine exists_congr fun spec => and_congr_left fun hname => ?_
  rw [List.mem_filter, hname, hordinary]
  simp

/-- **Extraction without instructions.** Demands that name an instruction are dropped. -/
theorem extractFrom_filter (hnodup : (facets.map (·.full)).Nodup) :
    extractFrom d element facets specs others =
      extractFrom d element (facets.filter (·.uri.isNone))
        (specs.filter fun spec => !namesInstruction facets spec.name) others := by
  have hvalues : collect (demandedOf d element facets) specs =
      collect (demandedOf d element (facets.filter (·.uri.isNone)))
        (specs.filter fun spec => !namesInstruction facets spec.name) :=
    collect_filter (fun spec _ h => demandedOf_ordinary (by simpa using h))
      fun spec _ h => demandedOf_instruction (by simpa using h)
  rw [extractFrom, hvalues, extractFrom]
  congr 1
  funext values
  cases others with
  | none => rfl
  | some spec =>
    dsimp only
    rw [collect_filter (p := (·.uri.isNone)) (fun a ha huri => ?_) fun a _ => otherOf_instruction]
    rw [otherOf, otherOf, contains_ordinary hnodup ha huri]

/-! ### What is there after extraction -/

theorem get?_eq_none_iff : r.get? name = none ↔ ∀ v ∈ r.values, v.1 ≠ name := by
  simp [Extracted.get?]

/-- A demand yields a value under its name, unless it names an instruction. -/
theorem demandedOf_eq_ok {o : Option (Text × AttributeValue)}
    (h : demandedOf d element facets spec = .ok o) :
    if namesInstruction facets spec.name then o = none
    else ∃ v, o = some (spec.name, v) := by
  split
  · rename_i hinstruction
    exact (Except.ok.inj ((demandedOf_instruction hinstruction).symm.trans h)).symm
  · rename_i hordinary
    rw [namesInstruction] at hordinary
    rw [demandedOf] at h
    split at h
    · split at h
      · cases h
      · exact ⟨_, (Except.ok.inj h).symm⟩
    · rename_i a hfind
      rw [hfind] at hordinary
      rw [Option.bind_some] at hordinary
      rw [if_neg hordinary] at h
      cases hvalue : attributeValue d spec a.full element a.value with
      | error err => simp [hvalue, Except.map] at h
      | ok v =>
        rw [hvalue] at h
        exact ⟨v, (Except.ok.inj h).symm⟩

theorem collect_of_extractFrom (h : extractFrom d element facets specs others = .ok r) :
    collect (demandedOf d element facets) specs = .ok r.values := by
  obtain ⟨values, hvalues, h⟩ := exists_of_bind_ok h
  cases others with
  | none =>
    obtain rfl := Except.ok.inj h
    exact hvalues
  | some spec =>
    obtain ⟨rest, -, h⟩ := exists_of_bind_ok h
    obtain rfl := Except.ok.inj h
    exact hvalues

/-- Values are there for all demands but those that name instructions. -/
theorem get?_extractFrom (h : extractFrom d element facets specs others = .ok r)
    (hspec : spec ∈ specs) : r.get? spec.name = none ↔ namesInstruction facets spec.name := by
  obtain ⟨hall, hsome⟩ := mem_of_collect (collect_of_extractFrom h)
  rw [get?_eq_none_iff]
  constructor
  · intro hnone
    by_contra hordinary
    obtain ⟨o, ho, hmem⟩ := hall spec hspec
    have hvalue := demandedOf_eq_ok ho
    rw [if_neg hordinary] at hvalue
    obtain ⟨v, rfl⟩ := hvalue
    exact hnone _ (hmem _ rfl) rfl
  · intro hinstruction v hv hname
    obtain ⟨other, -, hother⟩ := hsome v hv
    have hvalue := demandedOf_eq_ok hother
    split at hvalue
    · cases hvalue
    · rename_i hordinary
      obtain ⟨w, hw⟩ := hvalue
      obtain rfl := Option.some.inj hw
      have hname : other.name = spec.name := hname
      exact hordinary (by rwa [hname])

/-- Where no attribute has the name of a demand, the demand was no strict one, and its default is
there. -/
theorem mem_extractFrom (h : extractFrom d element facets specs others = .ok r)
    (hspec : spec ∈ specs) (hnone : ∀ a ∈ facets, a.full ≠ spec.name) :
    spec.required = false ∧ (spec.name, spec.default) ∈ r.values := by
  obtain ⟨o, ho, hmem⟩ := (mem_of_collect (collect_of_extractFrom h)).1 spec hspec
  have hfind : facets.find? (fun a => a.full = spec.name) = none := by
    simpa [List.find?_eq_none] using hnone
  rw [demandedOf, hfind] at ho
  dsimp only at ho
  split at ho
  · cases ho
  · rename_i hrequired
    obtain rfl := Except.ok.inj ho
    exact ⟨by simpa using hrequired, hmem _ rfl⟩

/-- **What instructions change.** Extraction from an element is extraction from the element without
its instructions, for the demands that name none of them: those demands are dropped. So if it
succeeds, it is the same as if the instructions were not there exactly if no demand names one.
Values are there for all other demands, and defaults for those of them whose attribute is
missing. -/
theorem extractAttributes_ordinary (h : s.Labelled) : ∃ s', s.removeInstructions e = .ok s' ∧
    extractAttributes d s e specs others = extractAttributes d s' e
      (specs.filter fun spec => !s.isInstruction e spec.name) others ∧
    ∀ r, extractAttributes d s e specs others = .ok r →
      (extractAttributes d s' e specs others = .ok r ↔
        ∀ spec ∈ specs, s.isInstruction e spec.name = false) ∧
      ∀ spec ∈ specs, (r.get? spec.name = none ↔ s.isInstruction e spec.name) ∧
        (s.attribute? e spec.name = none →
          spec.required = false ∧ (spec.name, spec.default) ∈ r.values) := by
  obtain ⟨s', hok, hs', hlabel, hfacets⟩ := Store.exists_removeInstructions h e
  have hnames (name : Text) : s.isInstruction e name = namesInstruction (s.facets e) name :=
    h.isInstruction_eq
  have hsame : extractAttributes d s e specs others = extractAttributes d s' e
      (specs.filter fun spec => !s.isInstruction e spec.name) others := by
    simp only [hnames]
    rw [extractAttributes_eq_extractFrom h, extractAttributes_eq_extractFrom hs', hlabel, hfacets]
    exact extractFrom_filter (h.nodup_facets e)
  refine ⟨s', hok, hsame, fun r hr => ?_⟩
  have hvalue (spec : AttributeSpec) (hspec : spec ∈ specs) :
      r.get? spec.name = none ↔ s.isInstruction e spec.name := by
    rw [hnames]
    exact get?_extractFrom ((extractAttributes_eq_extractFrom h).symm.trans hr) hspec
  refine ⟨⟨fun hr' spec hspec => ?_, fun hall => ?_⟩,
    fun spec hspec => ⟨hvalue spec hspec, fun hnone => ?_⟩⟩
  · -- without instructions, all demands have values
    rw [extractAttributes_eq_extractFrom hs', hfacets] at hr'
    rw [← Bool.not_eq_true, ← hvalue spec hspec, get?_extractFrom hr' hspec, namesInstruction]
    cases hfind : ((s.facets e).filter (·.uri.isNone)).find? fun a => a.full = spec.name with
    | none => exact nofun
    | some a =>
      have huri := (List.mem_filter.mp (List.mem_of_find?_eq_some hfind)).2
      simpa using huri
  · rw [← hr, hsame, List.filter_eq_self.mpr]
    simpa using hall
  · have hfind := h.facetOf?_eq_find? e spec.name
    rw [Store.facetOf?, hnone] at hfind
    refine mem_extractFrom ((extractAttributes_eq_extractFrom h).symm.trans hr) hspec ?_
    simpa using List.find?_eq_none.mp hfind.symm

/-- An element with a single attribute, which is an instruction. -/
def instructed : Store :=
  let element : Payload := .element { qualifier := [], name := "e", attrs := ⟨[("d:v", 1)]⟩ }
  let instruction : Payload :=
    .attr { qualifier := "d", name := "v", uri := some 0, value := .literal "x", owner := some 0 }
  ((({} : Store).add { payload := element }).2.add { payload := instruction }).2

/-- A strict demand for that attribute. -/
def demand : AttributeSpec := { name := "d:v", required := true, kind := .text }

/-- The demand is met by the instruction, and by nothing without it. -/
theorem extractAttributes_instructed : instructed.Labelled ∧
    extractAttributes {} instructed 0 [demand] none = .ok {} ∧
    ∃ s', instructed.removeInstructions 0 = .ok s' ∧
      extractAttributes {} s' 0 [demand] none ≠ .ok {} := by
  have hlabelled : instructed.Labelled := Store.labelled_of_forall (by decide)
  have hok : extractAttributes {} instructed 0 [demand] none = .ok {} := by rfl
  obtain ⟨s', hs', -, hr⟩ : ∃ s', instructed.removeInstructions 0 = .ok s' ∧ _ :=
    extractAttributes_ordinary hlabelled
  refine ⟨hlabelled, hok, s', hs', fun h => ?_⟩
  have hnone := (hr _ hok).1.mp h _ List.mem_cons_self
  exact absurd hnone (by decide)

end Language
end Stencil
