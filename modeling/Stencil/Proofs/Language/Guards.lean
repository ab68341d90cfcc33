import Stencil.Proofs.Language.Collecting
import Stencil.Proofs.Language.Loads

/-!
# Definitions and what is still to be visited

The table of definitions refers to elements of documents that others move, copy and take apart. What
protects them is that they are apart from all nodes that the stage that changes the tree is still
going to visit. A definition is not visited any more: it joins the table when it is visited, and
nothing below it ever is. Default content of an expansion under way stands nowhere.

This module says what the single steps of the stage mean for definitions and for the nodes to visit:
filling a node, going on with its children, passing it over, taking it into the table, replacing it
by the content of a template, and ending expansions. Steps of the first kind only add to the table,
and what was defined keeps what it holds. Ending an expansion takes default content out of the table
and disposes of it; what is left in the table keeps what it holds.

## Main definitions

* `Session.Defined`, `Session.Refers` – definitions, with and without default content that is set
  aside
* `Session.Guards` – definitions are apart from the nodes to visit
* `Session.Retains`, `Session.Releases` – what was defined, or is still defined, keeps what it holds

## Main results

* `Session.Guards.replaced`, `Session.Guards.children`, `Session.Guards.defining`,
  `Session.Guards.loaded`, `Session.Guards.closes` – the single steps
-/

namespace Stencil

open Stencil.Tree (NodeId Store NodeKind Content)
open Stencil.Tree.Store (Tidy Within Untouched Placeable Labelled Separate Growth)
open Stencil.Language (isNamed)

variable {s s' s'' : Session} {R : NodeId → Prop} {anchor : Option NodeId} {id : Int}
  {l new : List NodeId} {n m b f p : NodeId} {z : Text} {c : Content}

namespace Session

/-- A node is a definition. -/
def Defined (s : Session) (b : NodeId) : Prop := ∃ z, b ∈ s.definitions.bodiesOf z

/-- A node is a definition, or the default content of an expansion under way. -/
def Refers (s : Session) (b : NodeId) : Prop :=
  s.Defined b ∨ ∃ x ∈ s.definitions.active, x.fallback = some b

theorem defined_congr (h : s'.definitions = s.definitions) : s'.Defined = s.Defined := by
  funext b
  rw [Defined, h, Defined]

theorem refers_congr (h : s'.definitions = s.definitions) : s'.Refers = s.Refers := by
  funext b
  rw [Refers, defined_congr h, h, Refers]

/-- Definitions are apart from each other and from the nodes that are still to be visited. -/
structure Guards (id : Int) (l : List NodeId) (s : Session) : Prop where
  wellFormed : s.store.WellFormed
  owned : s.store.Owned
  labelled : s.store.Labelled
  nodup : l.Nodup
  has (n : NodeId) : n ∈ l → s.store.Has n
  /-- What is to be visited is no definition. -/
  fresh (n : NodeId) : n ∈ l → ¬ s.Refers n
  separate : s.store.Separate fun m => m ∈ l ∨ s.Refers m
  /-- Definitions come from elements that define something, and from default content. -/
  bodies (z : Text) (b : NodeId) : b ∈ s.definitions.bodiesOf z → s.store.Placeable b ∧
    (isNamed s.store b id ["macro"] ∨ ∃ x ∈ s.definitions.active, x.name = z ∧ x.fallback = some b)
  /-- Default content is in no namespace, stands nowhere, and serves as a definition of one name
  only. -/
  fallbacks (x : Expansion) (f : NodeId) : x ∈ s.definitions.active → x.fallback = some f →
    s.store.Placeable f ∧ s.store.Unqualified f ∧ s.store.parent? f = none ∧
      ∀ z, f ∈ s.definitions.bodiesOf z → z = x.name

/-- Definitions may come, and those that were there keep what they hold. -/
structure Retains (s s' : Session) : Prop where
  tag? (n : NodeId) (tag : NodeKind × Option Int × Text) :
    s.store.tag? n = some tag → s'.store.tag? n = some tag
  entire (n : NodeId) : s.store.Entire n → s'.store.Entire n
  documents : s'.documents = s.documents
  defined (b : NodeId) : s.Defined b → s'.Defined b
  /-- What was there and is in no namespace does not become a definition. -/
  known (b : NodeId) : s.store.Unqualified b → s'.Defined b → s.Defined b
  holds (b : NodeId) (c : Content) : s.Defined b → s.store.Holds b c → s'.store.Holds b c

/-- Definitions may go, and those that are left keep what they hold. -/
structure Releases (s s' : Session) : Prop where
  tag? (n : NodeId) (tag : NodeKind × Option Int × Text) :
    s.store.tag? n = some tag → s'.store.tag? n = some tag
  entire (n : NodeId) : s.store.Entire n → s'.store.Entire n
  documents : s'.documents = s.documents
  defined (b : NodeId) : s'.Defined b → s.Defined b
  /-- Nothing but default content goes. -/
  stays (b : NodeId) : s.store.Qualified b → s.Defined b → s'.Defined b
  holds (b : NodeId) (c : Content) : s'.Defined b → s.store.Holds b c → s'.store.Holds b c

namespace Retains

@[refl] protected theorem refl (s : Session) : s.Retains s :=
  ⟨fun _ _ h => h, fun _ h => h, rfl, fun _ h => h, fun _ _ h => h, fun _ _ _ h => h⟩

protected theorem trans (h₁ : s.Retains s') (h₂ : s'.Retains s'') : s.Retains s'' where
  tag? n tag h := h₂.tag? n tag (h₁.tag? n tag h)
  entire n h := h₂.entire n (h₁.entire n h)
  documents := h₂.documents.trans h₁.documents
  defined b h := h₂.defined b (h₁.defined b h)
  known b hu h := h₁.known b hu (h₂.known b (hu.mono h₁.tag?) h)
  holds b c hb h := h₂.holds b c (h₁.defined b hb) (h₁.holds b c hb h)

theorem congr (h : s.Retains s') (hstore : s''.store = s'.store)
    (hdefs : s''.definitions = s'.definitions) (hdocs : s''.documents = s'.documents) :
    s.Retains s'' := by
  have hdefined := defined_congr hdefs
  exact ⟨hstore ▸ h.tag?, hstore ▸ h.entire, hdocs.trans h.documents, hdefined ▸ h.defined,
    hdefined ▸ h.known, hstore ▸ h.holds⟩

end Retains

namespace Releases

protected theorem trans (h₁ : s.Releases s') (h₂ : s'.Releases s'') : s.Releases s'' where
  tag? n tag h := h₂.tag? n tag (h₁.tag? n tag h)
  entire n h := h₂.entire n (h₁.entire n h)
  documents := h₂.documents.trans h₁.documents
  defined b h := h₁.defined b (h₂.defined b h)
  stays b hq h := h₂.stays b (hq.mono h₁.tag?) (h₁.stays b hq h)
  holds b c hb h := h₂.holds b c hb (h₁.holds b c (h₂.defined b hb) h)

theorem of_eq (hstore : s'.store = s.store) (hdefs : s'.definitions = s.definitions)
    (hdocs : s'.documents = s.documents) : s.Releases s' := by
  have hdefined := defined_congr hdefs
  exact ⟨fun _ _ h => hstore ▸ h, fun _ h => hstore ▸ h, hdocs, fun b h => hdefined ▸ h,
    fun b _ h => hdefined ▸ h, fun b c _ h => hstore ▸ h⟩

end Releases

namespace Guards

/-- Only the nodes and the definitions matter. -/
theorem congr (g : s.Guards id l) (hstore : s'.store = s.store)
    (hdefs : s'.definitions = s.definitions) : s'.Guards id l := by
  have hrefers := refers_congr hdefs
  refine ⟨hstore ▸ g.wellFormed, hstore ▸ g.owned, hstore ▸ g.labelled, g.nodup, hstore ▸ g.has,
    hrefers ▸ g.fresh, ?_, ?_, ?_⟩
  · rw [hstore, hrefers]
    exact g.separate
  · rw [hstore, hdefs]
    exact g.bodies
  · rw [hstore, hdefs]
    exact g.fallbacks

theorem placeable (g : s.Guards id l) (hb : s.Refers b) : s.store.Placeable b := by
  rcases hb with ⟨z, hb⟩ | ⟨x, hx, hxf⟩
  · exact (g.bodies z b hb).1
  · exact (g.fallbacks x b hx hxf).1

/-- Nodes lose their places, and nothing else changes that matters here. -/
theorem fewer (g : s.Guards id l) (hw : s'.store.WellFormed) (ho : s'.store.Owned)
    (hl : s'.store.Labelled) (htag : ∀ m tag, s.store.tag? m = some tag →
      s'.store.tag? m = some tag)
    (hfewer : ∀ m q, s'.store.parent? m = some q → s.store.parent? m = some q)
    (hdefs : s'.definitions = s.definitions) : s'.Guards id l := by
  have hkind : ∀ m k, s.store.kind? m = some k → s'.store.kind? m = some k := fun m k =>
    Store.kind?_of_tag? (htag m)
  have hhas : ∀ m, s.store.Has m → s'.store.Has m := by
    intro m hm
    obtain ⟨k, hk⟩ := hm.exists_kind?
    exact Store.has_of_kind? (hkind m k hk)
  refine ⟨hw, ho, hl, g.nodup, fun m hm => hhas m (g.has m hm),
    fun m hm => refers_congr hdefs ▸ g.fresh m hm, ?_, fun z b hb => ?_, fun x f hx hf => ?_⟩
  · rw [refers_congr hdefs]
    exact g.separate.of_fewer hfewer
  · rw [hdefs] at hb ⊢
    obtain ⟨hb, hor⟩ := g.bodies z b hb
    exact ⟨hb.mono hkind, hor.imp_left (Language.isNamed_kept hb.has (htag b)).trans⟩
  · rw [hdefs] at hx ⊢
    obtain ⟨hf, hun, halone, hone⟩ := g.fallbacks x f hx hf
    refine ⟨hf.mono hkind, hun.mono htag,
      Option.eq_none_iff_forall_ne_some.mpr fun q hq => ?_, hone⟩
    rw [hfewer f q hq] at halone
    cases halone

/-- A node passes out of sight. -/
theorem tail (g : s.Guards id (n :: l)) : s.Guards id l where
  wellFormed := g.wellFormed
  owned := g.owned
  labelled := g.labelled
  nodup := (List.nodup_cons.mp g.nodup).2
  has m hm := g.has m (List.mem_cons_of_mem n hm)
  fresh m hm := g.fresh m (List.mem_cons_of_mem n hm)
  separate := g.separate.mono fun _ hm => hm.imp_left (List.mem_cons_of_mem n)
  bodies := g.bodies
  fallbacks := g.fallbacks

section Node

variable (g : s.Guards id (n :: l))

include g

theorem has_head : s.store.Has n := g.has n List.mem_cons_self

/-- No other node of concern is part of the node that is visited. -/
theorem not_region (hm : m ∈ l ∨ s.Refers m) : ¬ s.store.Region n m := by
  have hmem : m ∈ n :: l ∨ s.Refers m := hm.imp_left (List.mem_cons_of_mem n)
  refine g.separate.not_region (.inl List.mem_cons_self) hmem ?_ ?_
  · exact hm.elim (fun hm => g.has m (List.mem_cons_of_mem n hm)) fun hm => (g.placeable hm).has
  · rintro rfl
    exact hm.elim (List.nodup_cons.mp g.nodup).1 (g.fresh m List.mem_cons_self)

theorem not_interior (hm : m ∈ n :: l ∨ s.Refers m) : ¬ s.store.Interior n m := by
  rintro ⟨hR, hne⟩
  exact g.not_region (hm.imp_left fun hm => (List.mem_cons.mp hm).resolve_left hne) hR

/-- No definition contains the node that is visited. -/
theorem not_above (hb : s.Refers b) : ¬ s.store.Above b n := by
  intro hup
  have heq := g.separate b n (.inr hb) (.inl List.mem_cons_self) hup
  exact g.fresh n List.mem_cons_self (heq ▸ hb)

theorem not_below (hb : s.Refers b) : ¬ s.store.Above n b := fun hup =>
  g.not_region (.inr hb) (.inl hup)

/-! ### Filling a node -/

variable {x : Expansion} {body former : List Content}

/-- **An expansion begins** at the node that is visited. -/
theorem replaced (hn : s.store.isElement n) (h : Language.Replaced n x body former s s') :
    s'.Guards id (n :: l) ∧ s.Retains s' := by
  have ht := g.wellFormed.tidy_interior g.owned g.has_head
  have hw := h.refilled.within
  have hkind := hw.confined.kind?
  have hbodies : ∀ z, s'.definitions.bodiesOf z =
      if z = x.name then s.definitions.bodiesOf z ++ x.fallback.toList
        else s.definitions.bodiesOf z :=
    fun z => h.definitions ▸ Definitions.bodiesOf_push
  have hactive : s'.definitions.active = x :: s.definitions.active := by
    rw [h.definitions, Definitions.active_push]
  have hmem : ∀ {z b}, b ∈ s'.definitions.bodiesOf z →
      b ∈ s.definitions.bodiesOf z ∨ (z = x.name ∧ x.fallback = some b) := by
    intro z b hb
    rw [hbodies] at hb
    split at hb
    · rename_i hz
      exact (List.mem_append.mp hb).imp_right fun hb => ⟨hz, by simpa using hb⟩
    · exact .inl hb
  have hrefers : ∀ {m}, s'.Refers m → s.Refers m ∨ x.fallback = some m := by
    rintro m (⟨z, hm⟩ | ⟨y, hy, hym⟩)
    · exact (hmem hm).imp (fun hm => .inl ⟨z, hm⟩) fun hm => hm.2
    · rw [hactive] at hy
      rcases List.mem_cons.mp hy with rfl | hy
      · exact .inr hym
      · exact .inl (.inr ⟨y, hy, hym⟩)
  have hold : ∀ {m}, m ∈ n :: l ∨ s.Refers m → ¬ x.fallback = some m := by
    intro m hm hxm
    refine (h.former m hxm).1 ?_
    exact hm.elim (g.has m) fun hm => (g.placeable hm).has
  refine ⟨⟨hw.tidy.wellFormed, hw.tidy.owned, h.refilled.labelled, g.nodup,
    fun m hm => hw.confined.has (g.has m hm), fun m hm hm' => ?_, ?_, fun z b hb => ?_,
    fun y f hy hyf => ?_⟩, hw.confined.tag?, fun m hm => ?_, h.documents, ?_,
    ?_, fun b c hb hc => ?_⟩
  · exact (hrefers hm').elim (g.fresh m hm) (hold (.inl hm))
  · -- default content that is set aside stands nowhere, and is new
    have hseparate := hw.separate ht g.separate fun m hm => g.not_interior hm
    refine (hseparate.join (N := fun m => x.fallback = some m)
      (fun f hf => (h.former f hf).2.2.1) ?_).mono ?_
    · exact fun f m hf hm hup =>
        absurd hup (hw.not_above_new ht (h.former f hf).1 (g.not_interior hm))
    · exact fun m hm => hm.elim (fun hm => .inl (.inl hm)) fun hm => (hrefers hm).imp_left .inr
  · rw [hactive]
    rcases hmem hb with hb | ⟨rfl, hxb⟩
    · obtain ⟨hplace, hor⟩ := g.bodies z b hb
      exact ⟨hplace.mono hkind,
        hor.imp (Language.isNamed_kept hplace.has (hw.confined.tag? b)).trans
        fun ⟨y, hy, hyb⟩ => ⟨y, List.mem_cons_of_mem x hy, hyb⟩⟩
    · exact ⟨(h.former b hxb).2.2.2.1, .inr ⟨x, List.mem_cons_self, rfl, hxb⟩⟩
  · rw [hactive] at hy
    rcases List.mem_cons.mp hy with rfl | hy
    · obtain ⟨hnew, hun, halone, hplace, -⟩ := h.former f hyf
      refine ⟨hplace, hun, halone, fun z hz => (hmem hz).elim (fun hz => ?_) fun hz => hz.1⟩
      exact absurd (g.bodies z f hz).1.has hnew
    · obtain ⟨hplace, hun, halone, hone⟩ := g.fallbacks y f hy hyf
      have href : s.Refers f := .inr ⟨y, hy, hyf⟩
      refine ⟨hplace.mono hkind, hun.mono hw.confined.tag?, ?_, fun z hz => (hmem hz).elim (hone z)
        fun hz => ?_⟩
      · rw [hw.confined.parent? f (g.not_interior (.inr href)), halone]
      · exact absurd hz.2 (hold (.inr href))
  · -- a document is no element, and not below one
    refine h.refilled.untouched.entire (fun hR => hR.elim (fun hup => ?_) fun hnew => ?_) hm
    · have heq := g.wellFormed.eq_of_above_document hm.1 hup
      exact (Store.placeable_of_isElement hn).kind_ne.1 (heq ▸ hm.1)
    · exact hnew (Store.has_of_kind? hm.1)
  · rintro b ⟨z, hb⟩
    refine ⟨z, ?_⟩
    rw [hbodies]
    split
    · exact List.mem_append_left _ hb
    · exact hb
  · rintro b hun ⟨z, hb⟩
    exact (hmem hb).elim (fun hb => ⟨z, hb⟩) fun hb => absurd hun.has (h.former b hb.2).1
  · exact h.refilled.untouched.holds_aside g.wellFormed g.owned g.has_head (g.placeable (.inl hb))
      (g.not_below (.inl hb)) (g.not_above (.inl hb)) hc

/-! ### Going on with the children -/

/-- **The children of the node are visited next.** -/
theorem children : s.Guards id (s.store.children n ++ l) := by
  have hchild : ∀ {k}, k ∈ s.store.children n → s.store.parent? k = some n := fun hk =>
    g.wellFormed.mem_children.mp hk
  have hin : ∀ {k}, k ∈ s.store.children n → s.store.Region n k := fun hk =>
    .inl (.of_parent? (hchild hk))
  refine ⟨g.wellFormed, g.owned, g.labelled, ?_, fun m hm => ?_, fun m hm hm' => ?_, ?_, g.bodies,
    g.fallbacks⟩
  · refine List.nodup_append'.mpr ⟨g.wellFormed.linked.nodup n, (List.nodup_cons.mp g.nodup).2, ?_⟩
    exact fun k hk hkl => g.not_region (.inl hkl) (hin hk)
  · rcases List.mem_append.mp hm with hm | hm
    · exact Store.has_of_parent? (hchild hm)
    · exact g.has m (List.mem_cons_of_mem n hm)
  · rcases List.mem_append.mp hm with hm | hm
    · exact g.not_region (.inr hm') (hin hm)
    · exact g.fresh m (List.mem_cons_of_mem n hm) hm'
  · refine (g.separate.children g.wellFormed (.inl List.mem_cons_self)).mono fun m hm => ?_
    have hother : m ∈ l ∨ s.Refers m → (m ∈ n :: l ∨ s.Refers m) ∧ m ≠ n := by
      intro hother
      refine ⟨hother.imp_left (List.mem_cons_of_mem n), ?_⟩
      rintro rfl
      exact g.not_region hother (.inl (.refl m))
    rcases hm with hm | hm
    · rcases List.mem_append.mp hm with hm | hm
      · exact .inr (hchild hm)
      · exact .inl (hother (.inl hm))
    · exact .inl (hother (.inr hm))

/-! ### Taking a node into the table -/

/-- **The node becomes a definition.** -/
theorem defining {x : Text × List (Text × AttributeValue)} (hplace : s.store.Placeable n)
    (hnamed : isNamed s.store n id ["macro"]) :
    (s.defining n x).Guards id l ∧ s.Retains (s.defining n x) := by
  have ht := g.wellFormed.tidy_interior g.owned g.has_head
  have hg : Growth s.store (s.defining n x).store := Language.growth_noteDefinition
  have hw : Within (s.store.Interior n) (some n) s.store (s.defining n x).store :=
    Language.tidy_noteDefinition ht
  have hu : Untouched (fun _ => False) s.store (s.defining n x).store :=
    g.wellFormed.untouched_noteDefinition g.owned
  have hactive : (s.defining n x).definitions.active = s.definitions.active := by
    rw [Session.defining]
    dsimp only
    split <;> rfl
  have hbodies : ∀ {z b}, b ∈ (s.defining n x).definitions.bodiesOf z →
      b ∈ s.definitions.bodiesOf z ∨ b = n := by
    intro z b hb
    rw [bodiesOf_defining] at hb
    split at hb
    · simpa using hb
    · exact .inl hb
  have hrefers : ∀ {m}, (s.defining n x).Refers m → s.Refers m ∨ m = n := by
    rintro m (⟨z, hm⟩ | ⟨y, hy, hym⟩)
    · exact (hbodies hm).imp_left fun hm => .inl ⟨z, hm⟩
    · exact .inl (.inr ⟨y, hactive ▸ hy, hym⟩)
  have halike : Store.Alike s.store (s.defining n x).store := Language.alike_noteDefinition
  refine ⟨⟨hw.tidy.wellFormed, hw.tidy.owned, g.labelled.alike halike,
    (List.nodup_cons.mp g.nodup).2, fun m hm => hg.has (g.has m (List.mem_cons_of_mem n hm)),
    fun m hm hm' => ?_, ?_, fun z b hb => ?_, fun y f hy hyf => ?_⟩, hg.tag?,
    fun _ => hu.entire fun h => h,
    rfl, ?_, ?_, fun b c hb hc => hu.holds g.wellFormed (g.placeable (.inl hb)) (fun _ _ h => h) hc⟩
  · rcases hrefers hm' with hm' | rfl
    · exact g.fresh m (List.mem_cons_of_mem n hm) hm'
    · exact (List.nodup_cons.mp g.nodup).1 hm
  · refine (g.separate.of_fewer fun m q hq => (hg.parent? m).symm.trans hq).mono fun m hm => ?_
    rcases hm with hm | hm
    · exact .inl (List.mem_cons_of_mem n hm)
    · exact (hrefers hm).elim .inr fun hm => .inl (hm ▸ List.mem_cons_self)
  · rw [hactive, Language.isNamed_congr (halike.tag? b)]
    rcases hbodies hb with hb | rfl
    · exact ⟨(g.bodies z b hb).1.mono hg.kind?, (g.bodies z b hb).2⟩
    · exact ⟨hplace.mono hg.kind?, .inl hnamed⟩
  · rw [hactive] at hy
    obtain ⟨hf, hun, halone, hone⟩ := g.fallbacks y f hy hyf
    refine ⟨hf.mono hg.kind?, hun.mono hg.tag?, (hg.parent? f).trans halone, fun z hz => ?_⟩
    rcases hbodies hz with hz | rfl
    · exact hone z hz
    · exact absurd (.inr ⟨y, hy, hyf⟩) (g.fresh f List.mem_cons_self)
  · rintro b ⟨z, hb⟩
    refine ⟨z, ?_⟩
    rw [bodiesOf_defining]
    split
    · exact List.mem_append_left _ hb
    · exact hb
  · rintro b hun ⟨z, hb⟩
    refine (hbodies hb).elim (fun hb => ⟨z, hb⟩) ?_
    rintro rfl
    exact absurd hun (Language.qualified_of_isNamed hnamed).not_unqualified

/-! ### Replacing a node by others -/

/-- **The node is replaced by new ones**, which are visited next. -/
theorem loaded (h : s.Handles (s.store.Region n) (s.store.parent? n) s') (hnodup : new.Nodup)
    (hnew : ∀ c ∈ new, ¬ s.store.Has c ∧
      ∃ p, s.store.parent? n = some p ∧ s'.store.parent? c = some p) :
    s'.Guards id (new ++ l) ∧ s.Retains s' := by
  have ht := g.wellFormed.tidy_region g.owned n
  have hw := h.onTree.within
  obtain ⟨hdefs, hdocs⟩ : s'.definitions = s.definitions ∧ s'.documents = s.documents := by
    obtain ⟨t, rfl, -⟩ := h.onTree
    exact ⟨rfl, rfl⟩
  have hrefers : ∀ {m}, s'.Refers m ↔ s.Refers m := by
    intro m
    rw [refers_congr hdefs]
  have hhas : ∀ {m}, m ∈ l ∨ s.Refers m → s.store.Has m := fun hm =>
    hm.elim (fun hm => g.has _ (List.mem_cons_of_mem n hm)) fun hm => (g.placeable hm).has
  refine ⟨⟨hw.tidy.wellFormed, hw.tidy.owned, h.labelled, ?_, fun m hm => ?_,
    fun m hm hm' => ?_, ?_,
    fun z b hb => ?_, fun y f hy hyf => ?_⟩, hw.confined.tag?, h.entire, hdocs, ?_, ?_,
    fun b c hb hc => ?_⟩
  · refine List.nodup_append'.mpr ⟨hnodup, (List.nodup_cons.mp g.nodup).2, fun c hc hcl => ?_⟩
    exact (hnew c hc).1 (hhas (.inl hcl))
  · rcases List.mem_append.mp hm with hm | hm
    · obtain ⟨-, p, -, hp⟩ := hnew m hm
      exact Store.has_of_parent? hp
    · exact hw.confined.has (hhas (.inl hm))
  · rw [hrefers] at hm'
    rcases List.mem_append.mp hm with hm | hm
    · exact (hnew m hm).1 (hhas (.inr hm'))
    · exact g.fresh m (List.mem_cons_of_mem n hm) hm'
  · have hseparate : s'.store.Separate fun m => m ∈ l ∨ s.Refers m :=
      hw.separate ht (g.separate.mono fun m hm => hm.imp_left (List.mem_cons_of_mem n)) fun m =>
        g.not_region
    have hjoined : s'.store.Separate fun m => (m ∈ l ∨ s.Refers m) ∨ m ∈ new := by
      cases new with
      | nil => exact hseparate.mono fun m hm => hm.resolve_right (by simp)
      | cons c₀ new =>
        obtain ⟨-, p, hp, -⟩ := hnew c₀ List.mem_cons_self
        refine hseparate.adjoin (p := p) hw.tidy.wellFormed (fun c hc => ?_)
            (fun m hm hup => ?_) fun c m hc hm =>
          hw.not_above_new ht (hnew c hc).1 (g.not_region hm)
        · obtain ⟨-, q, hq, hqc⟩ := hnew c hc
          rw [hqc, ← hq, hp]
        · -- what is above the place of the node is above the node
          have hup := (hw.above_outside ht (g.wellFormed.not_region_parent hp)).mp hup
          refine g.not_region hm (.inl ?_)
          rw [← g.separate m n (hm.imp_left (List.mem_cons_of_mem n)) (.inl List.mem_cons_self)
            (hup.trans (.of_parent? hp))]
          exact .refl m
    refine hjoined.mono fun m hm => ?_
    rw [hrefers, List.mem_append] at hm
    tauto
  · rw [hdefs] at hb ⊢
    obtain ⟨hplace, hor⟩ := g.bodies z b hb
    exact ⟨hplace.mono hw.confined.kind?,
      hor.imp_left (Language.isNamed_kept hplace.has (hw.confined.tag? b)).trans⟩
  · rw [hdefs] at hy ⊢
    obtain ⟨hf, hun, halone, hone⟩ := g.fallbacks y f hy hyf
    refine ⟨hf.mono hw.confined.kind?, hun.mono hw.confined.tag?, ?_, hone⟩
    rw [hw.confined.parent? f (g.not_region (.inr (.inr ⟨y, hy, hyf⟩))), halone]
  · intro b hb
    rwa [Defined, hdefs]
  · intro b _ hb
    rwa [Defined, hdefs] at hb
  · refine h.untouched.holds_separate g.wellFormed g.separate (.inl List.mem_cons_self)
      (.inr (.inl hb)) ?_
      (g.placeable (.inl hb)) hc
    rintro rfl
    exact g.fresh b List.mem_cons_self (.inl hb)

end Node

/-! ### Ending expansions -/

/-- When the innermost expansion ends, its default content is taken out of the table. -/
theorem mem_of_unwind {x : Expansion} {rest : List Expansion} (g : s.Guards id l)
    (hactive : s.definitions.active = x :: rest) (hb : b ∈ s.definitions.unwind.bodiesOf z) :
    b ∈ s.definitions.bodiesOf z ∧ ¬ x.fallback = some b := by
  rw [(Definitions.unwind_of_active hactive).2.2] at hb
  split at hb
  · obtain ⟨hb, hne⟩ := List.mem_filter.mp hb
    exact ⟨hb, fun heq => by simp [heq] at hne⟩
  · -- it was a definition of that name only
    rename_i hz
    exact ⟨hb, fun heq => hz ((g.fallbacks x b (hactive ▸ List.mem_cons_self) heq).2.2.2 z hb)⟩

theorem forgets {x : Expansion} {rest : List Expansion} (g : s.Guards id l)
    (hactive : s.definitions.active = x :: rest) (hdefs : s'.definitions = s.definitions.unwind)
    (hstore : s'.store = s.store) : s'.Guards id l := by
  have hactive' : s'.definitions.active = rest := hdefs ▸ (Definitions.unwind_of_active hactive).1
  have hmem : ∀ {z b}, b ∈ s'.definitions.bodiesOf z →
      b ∈ s.definitions.bodiesOf z ∧ ¬ x.fallback = some b := fun hb =>
    g.mem_of_unwind hactive (hdefs ▸ hb)
  have hrefers : ∀ {m}, s'.Refers m → s.Refers m := by
    rintro m (⟨z, hm⟩ | ⟨y, hy, hym⟩)
    · exact .inl ⟨z, (hmem hm).1⟩
    · exact .inr ⟨y, hactive ▸ List.mem_cons_of_mem x (hactive' ▸ hy), hym⟩
  refine ⟨hstore ▸ g.wellFormed, hstore ▸ g.owned, hstore ▸ g.labelled, g.nodup, hstore ▸ g.has,
    fun m hm hm' => g.fresh m hm (hrefers hm'), ?_, fun z b hb => ?_, fun y f hy hyf => ?_⟩
  · exact hstore ▸ g.separate.mono fun m hm => hm.imp_right hrefers
  · obtain ⟨hb, hne⟩ := hmem hb
    rw [hstore, hactive']
    refine ⟨(g.bodies z b hb).1, (g.bodies z b hb).2.imp_right ?_⟩
    rintro ⟨y, hy, hyz, hyb⟩
    rw [hactive] at hy
    exact ⟨y, (List.mem_cons.mp hy).resolve_left fun heq => hne (heq ▸ hyb), hyz, hyb⟩
  · have hy : y ∈ s.definitions.active := hactive ▸ List.mem_cons_of_mem x (hactive' ▸ hy)
    obtain ⟨hplace, hun, halone, hone⟩ := g.fallbacks y f hy hyf
    rw [hstore]
    exact ⟨hplace, hun, halone, fun z hz => hone z (hmem hz).1⟩

/-- The innermost expansion ends, and its default content is disposed of. -/
theorem unwind {x : Expansion} {rest : List Expansion} (g : s.Guards id l)
    (hactive : s.definitions.active = x :: rest) (hdefs : s'.definitions = s.definitions.unwind)
    (hstore : s'.store = x.fallback.toList.foldl (fun t f => t.dispose f) s.store)
    (hdocs : s'.documents = s.documents) : s'.Guards id l ∧ s.Releases s' := by
  have hx : x ∈ s.definitions.active := hactive ▸ List.mem_cons_self
  have hfallback : ∀ f ∈ x.fallback.toList, s.store.Placeable f ∧ s.store.parent? f = none := by
    intro f hf
    obtain ⟨hplace, -, halone, -⟩ := g.fallbacks x f hx (by simpa using hf)
    exact ⟨hplace, halone⟩
  have hw := (g.wellFormed.tidy g.owned).disposeAll fun f hf => ⟨trivial, (hfallback f hf).1.has⟩
  have hu := g.wellFormed.untouched_disposeAll g.owned hfallback
  have hl : (x.fallback.toList.foldl (fun t f => t.dispose f) s.store).Labelled :=
    g.labelled.shrink (.foldl (fun _ _ => .dispose) _)
  have hfewer : ∀ m q, s'.store.parent? m = some q → s.store.parent? m = some q := by
    intro m q hq
    rw [hstore] at hq
    cases hxf : x.fallback with
    | none => simpa [hxf] using hq
    | some f =>
      rw [hxf, Option.toList_some, List.foldl_cons, List.foldl_nil] at hq
      exact g.wellFormed.parent?_of_dispose (hfallback f (by simp [hxf])).1.has hq
  rw [← hstore] at hw hu hl
  have g' : Session.Guards id l { s with store := s'.store } :=
    g.fewer hw.tidy.wellFormed hw.tidy.owned hl hw.confined.tag? hfewer rfl
  refine ⟨g'.forgets hactive hdefs rfl, hw.confined.tag?, fun m hm => ?_, hdocs, ?_, ?_, ?_⟩
  · -- default content is no document
    refine hu.entire ?_ hm
    rintro ⟨f, hf, hup⟩
    exact (hfallback f hf).1.kind_ne.1 (g.wellFormed.eq_of_above_document hm.1 hup ▸ hm.1)
  · rintro b ⟨z, hb⟩
    exact ⟨z, (g.mem_of_unwind hactive (hdefs ▸ hb)).1⟩
  · rintro b hq ⟨z, hb⟩
    have hne : ¬ x.fallback = some b := fun hxb =>
      hq.not_unqualified (g.fallbacks x b hx hxb).2.1
    refine ⟨z, ?_⟩
    rw [hdefs, (Definitions.unwind_of_active hactive).2.2]
    split
    · exact List.mem_filter.mpr ⟨hb, by simpa using fun heq => hne heq.symm⟩
    · exact hb
  · rintro b c ⟨z, hb⟩ hc
    obtain ⟨hb, hne⟩ := g.mem_of_unwind hactive (hdefs ▸ hb)
    refine hu.holds g.wellFormed (g.bodies z b hb).1 (fun m hbm hm => ?_) hc
    obtain ⟨f, hf, hfm⟩ := hm
    have hxf : x.fallback = some f := by simpa using hf
    have hrf : s.Refers f := .inr ⟨x, hx, hxf⟩
    have hrb : s.Refers b := .inl ⟨z, hb⟩
    refine hne (hxf.trans (congrArg some ?_))
    rcases Store.above_or_above hfm hbm with hup | hup
    · exact g.separate f b (.inr hrf) (.inr hrb) hup
    · exact (g.separate b f (.inr hrb) (.inr hrf) hup).symm

/-- **Expansions end.** -/
theorem closes (g : s.Guards id l) (h : s.Closes s') : s'.Guards id l ∧ s.Releases s' := by
  obtain ⟨ended, hactive, hdefs, hstore, hdocs⟩ := h
  induction ended generalizing s with
  | nil => exact ⟨g.congr hstore hdefs, .of_eq hstore hdefs hdocs⟩
  | cons x ended ih =>
    obtain ⟨g₁, h₁⟩ : Session.Guards id l { s with
        definitions := s.definitions.unwind
        store := x.fallback.toList.foldl (fun t f => t.dispose f) s.store } ∧ s.Releases _ :=
      g.unwind hactive rfl rfl rfl
    have hrest := (Definitions.unwind_of_active hactive).1
    obtain ⟨g₂, h₂⟩ := ih g₁ hrest hdefs (by rw [hstore, foldl_dispose_cons]) hdocs
    exact ⟨g₂, h₁.trans h₂⟩

end Guards

end Session

end Stencil
