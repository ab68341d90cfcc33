import Stencil.Proofs.Language.Leaving
import Stencil.Proofs.Tree.Traversal

/-!
# Visits in a scene

The stage that changes the tree walks over it with a queue and a stack. It does what plain recursion
does, and here that recursion is compared with the one that says what expansion means. A visit fails
with the failure that expansion has at the place, or ends with a node that holds the expansion
(`expanded_comes`).

Siblings are visited one after the other, in the scenes that those before them have left
(`row_comes`). That is proved once, for whatever is made of a sibling in a scene.

## Main definitions

* `Tree.Visitor.Comes` – what a recursion that may not end comes to
* `Language.inOrder` – contents one after the other, where the scene may change
* `Language.Delivers` – a visit makes of a node what is said of its content

## Main results

* `Language.row_comes` – visiting siblings
* `Language.expanded_comes` – visiting a node whose content brings no definitions
-/

namespace Stencil

open Stencil.Tree (NodeId Store Node Content Visitor)
open Stencil.Tree.Store (Tidy Within Untouched Placeable Labelled)
open Definitions (Agrees)

/-! ### Outcomes -/

namespace Tree.Visitor

variable {ε σ α β : Type} {v : Visitor ε σ} {s s' : σ} {r : Except ε α} {Q Q' : α → σ → Prop}
  {P : β → σ → Prop} {n : NodeId} {queue : List NodeId} {depth : Nat}

/-- With a bound that is great enough, the recursion over a queue fails as it should, or ends in a
state of which `Q` holds. -/
def Comes (v : Visitor ε σ) (queue : List NodeId) (s : σ) (r : Except ε α) (Q : α → σ → Prop) :
    Prop :=
  match r with
  | .error e => ∃ depth s', v.traverseAll depth queue s = some (.error e, s')
  | .ok a => ∃ depth s', v.traverseAll depth queue s = some (.ok (), s') ∧ Q a s'

namespace Comes

theorem imp (h : v.Comes queue s r Q) (hQ : ∀ a s', r = .ok a → Q a s' → Q' a s') :
    v.Comes queue s r Q' := by
  match r with
  | .error e => exact h
  | .ok a =>
    obtain ⟨depth, s', hx, ha⟩ := h
    exact ⟨depth, s', hx, hQ a s' rfl ha⟩

theorem map {g : α → β} (h : v.Comes queue s r fun a s' => P (g a) s') :
    v.Comes queue s (r.map g) P := by
  match r with
  | .error e => exact h
  | .ok a => exact h

theorem of_map {g : α → β} (h : v.Comes queue s (r.map g) P) :
    v.Comes queue s r fun a s' => P (g a) s' := by
  match r with
  | .error e => exact h
  | .ok a => exact h

theorem nil {a : α} (h : Q a s) : v.Comes [] s (.ok a) Q := ⟨0, s, rfl, h⟩

theorem traverseAll_cons_of {t : Except ε Unit × σ} {depth' : Nat}
    (h : v.traverseAll depth [n] s = some (.ok (), s'))
    (ht : v.traverseAll depth' queue s' = some t) :
    v.traverseAll (max depth depth') (n :: queue) s = some t := by
  rw [traverseAll_singleton] at h
  rw [traverseAll_cons, traverse_mono (Nat.le_max_left _ _) h]
  exact traverseAll_mono (Nat.le_max_right _ _) ht

/-- Nodes are visited one after the other. -/
theorem cons {f : α → Except ε β} (h : v.Comes [n] s r Q)
    (hf : ∀ a s', r = .ok a → Q a s' → v.Comes queue s' (f a) P) :
    v.Comes (n :: queue) s (r >>= f) P := by
  match r with
  | .error e =>
    obtain ⟨depth, s', hx⟩ := h
    rw [traverseAll_singleton] at hx
    exact ⟨depth, s', by rw [traverseAll_cons, hx]; rfl⟩
  | .ok a =>
    obtain ⟨depth, s', hx, ha⟩ := h
    have hrest := hf a s' rfl ha
    change v.Comes _ s (f a) P
    match f a, hrest with
    | .error e, ⟨depth', s'', hx'⟩ => exact ⟨_, s'', traverseAll_cons_of hx hx'⟩
    | .ok b, ⟨depth', s'', hx', hb⟩ => exact ⟨_, s'', traverseAll_cons_of hx hx', hb⟩

/-- A node that cannot be entered. -/
theorem refused {e : ε} (hskip : ¬ v.skips n s) (h : v.visit n s = (.error e, s')) :
    v.Comes [n] s (.error e : Except ε α) Q :=
  ⟨1, s', by rw [traverseAll_singleton, traverse_succ, if_neg hskip, h]⟩

/-- A node is entered, what it asks for is visited, and it is left. -/
theorem visit {asked : Option (List NodeId)} (hskip : ¬ v.skips n s)
    (h : v.visit n s = (.ok asked, s')) (hin : v.Comes (asked.getD []) s' r Q)
    (hleave : ∀ a s'', r = .ok a → Q a s'' → (v.leave n).Gives s'' fun _ => Q' a) :
    v.Comes [n] s r Q' := by
  have hvisit : ∀ {depth t}, v.traverseAll depth (asked.getD []) s' = some t →
      v.traverseAll (depth + 1) [n] s = proceed (fun s₂ => some (v.leave n s₂)) t := by
    intro depth t ht
    rw [traverseAll_singleton, traverse_succ, if_neg hskip, h]
    exact congrArg (Option.bind · _) ht
  match r with
  | .error e =>
    obtain ⟨depth, s'', hx⟩ := hin
    exact ⟨depth + 1, s'', hvisit hx⟩
  | .ok a =>
    obtain ⟨depth, s'', hx, ha⟩ := hin
    obtain ⟨_, s₃, hleft, hQ⟩ := hleave a s'' rfl ha
    exact ⟨depth + 1, s₃, (hvisit hx).trans (congrArg some hleft), hQ⟩

end Comes

/-- The loop comes to what the recursion comes to. -/
theorem exists_walk_eq {t : Except ε Unit × σ} (h : v.traverseAll depth [n] s = some t) :
    ∃ k, ∀ steps, k ≤ steps → v.walk steps (some n) s = some t := by
  rw [traverseAll_singleton] at h
  obtain ⟨k, hk⟩ := loop_cons_of_traverse h [] []
  refine ⟨1 + k, fun steps hsteps => ?_⟩
  obtain ⟨more, rfl⟩ := Nat.exists_eq_add_of_le hsteps
  rw [Visitor.walk, show 1 + k + more = more + 1 + k by omega, hk]
  rcases t with ⟨e | _, s'⟩ <;> rfl

end Tree.Visitor


namespace Language

variable {env : Stage.Environment} {s s' s'' s₃ : Session} {R : NodeId → Prop}
  {anchor : Option NodeId} {n m d p : NodeId} {b : Prop} {σ τ : Scene} {c : Content}
  {cs inner content : List Content} {row : List NodeId} {form : Option Node}

/-! ### Siblings -/

/-- What is made of contents one after the other, where the scene may change. -/
def inOrder (E : Scene → Content → Except Failure (Content × Scene)) (σ : Scene) :
    List Content → Except Failure (List Content × Scene)
  | [] => .ok ([], σ)
  | c :: cs => do
    let x ← E σ c
    (inOrder E x.2 cs).map fun y => (x.1 :: y.1, y.2)

/-- In a scene, the stage makes of a node what is said of its content. -/
def Delivers (env : Stage.Environment) (b : Prop) (σ : Scene) (c : Content)
    (r : Except Failure (Content × Scene)) : Prop :=
  ∀ n s, Sound n s → s.Represents σ → s.Aside (s.store.Region n) (s.store.parent? n) →
    s.store.kind? n ≠ some .attr → s.store.Holds n c →
    (Stage.manipulation env).Comes [n] s r fun x s' => Visited n b x.2 x.1 s s'

/-- Siblings were visited, and hold this now. -/
structure Traversed (R : NodeId → Prop) (anchor : Option NodeId) (row : List NodeId) (b : Prop)
    (τ : Scene) (cs : List Content) (s s' : Session) : Prop where
  settled : Settled R anchor b s s'
  untouched : Untouched (fun m => ∃ n ∈ row, s.store.Region n m) s.store s'.store
  represents : s'.Represents τ
  holds : row.Forall₂ s'.store.Holds cs
  bodies (z : Text) (x : NodeId) : x ∈ s'.definitions.bodiesOf z →
    x ∈ s.definitions.bodiesOf z ∨ ∃ n ∈ row, s.store.Region n x

/-- Siblings have nothing in common. -/
theorem not_region_below (h : s.store.WellFormed) (hn : s.store.parent? n = some p)
    (hd : s.store.parent? d = some p) (hne : d ≠ n) (hm : s.store.Above d m) :
    ¬ s.store.Region n m := by
  rintro (hup | hgone)
  · exact h.not_above_siblings hd hn hne.symm hm hup
  · exact hgone (h.placeable_of_above (h.placeable hd) hm).has

/-- What is below a sibling of a node that was visited, or new, was so before. -/
theorem Settled.region_sibling (hs : Settled (s.store.Region n) (s.store.parent? n) b s s')
    (hwf : s.store.WellFormed) (ho : s.store.Owned) (hn : s.store.parent? n = some p)
    (hd : s.store.parent? d = some p) (hne : d ≠ n) (hm : s'.store.Region d m) :
    s.store.Region d m := by
  refine hm.imp (fun hup => ?_) fun hgone has => hgone (hs.within.confined.has has)
  refine (hs.within.above_iff (hwf.tidy_region ho n) (hwf.not_region_sibling hn hd hne) ?_).mp hup
  intro q hq
  obtain rfl := Option.some.inj (hn.symm.trans hq)
  exact hwf.grounded.not_above_of_parent? hd

/-- The first of several siblings was visited, then the others. -/
theorem Visited.traversed (hv : Visited n b σ c s s') (hrow : Row R anchor p (n :: row) s)
    (ht : Traversed R anchor row b τ cs s' s'') :
    Traversed R anchor (n :: row) b τ (c :: cs) s s'' := by
  have hwf := hrow.tidy.wellFormed
  have hn := hrow.parent? n List.mem_cons_self
  have hset := hv.settled.inner hrow.tidy (hrow.mem n List.mem_cons_self)
  have hregion : ∀ d ∈ row, ∀ m, s'.store.Region d m → s.store.Region d m := by
    intro d hd m
    refine hv.settled.region_sibling hwf hrow.tidy.owned hn
      (hrow.parent? d (List.mem_cons_of_mem n hd)) ?_
    exact fun hdn => (List.nodup_cons.mp hrow.nodup).1 (hdn ▸ hd)
  have hrest := (hrow.tail hv.settled).1
  refine ⟨(hset.trans ht.settled).mono fun hb => ⟨hb, hb⟩, ?_, ht.represents, .cons ?_ ht.holds,
    fun z x hx => ?_⟩
  · refine (hv.untouched.mono fun m _ hm => ⟨n, List.mem_cons_self, hm⟩).trans
      (ht.untouched.mono ?_)
    rintro m - ⟨d, hd, hm⟩
    exact ⟨d, List.mem_cons_of_mem n hd, hregion d hd m hm⟩
  · have hwf' := hrest.tidy.wellFormed
    have hn' : s'.store.parent? n = some p := hv.parent?.trans hn
    refine ht.untouched.holds hwf' (hwf'.placeable hn') ?_ (hv.holds (hwf.placeable hn))
    rintro m hm ⟨d, hd, hregion⟩
    refine not_region_below hwf' (hrest.parent? d hd) hn' (fun hnd => ?_) hm hregion
    exact (List.nodup_cons.mp hrow.nodup).1 (hnd ▸ hd)
  · rcases ht.bodies z x hx with hx | ⟨d, hd, hm⟩
    · exact (hv.bodies z x hx).imp_right fun hm => ⟨n, List.mem_cons_self, hm⟩
    · exact .inr ⟨d, List.mem_cons_of_mem n hd, hregion d hd x hm⟩

section Rows

variable {E : Scene → Content → Except Failure (Content × Scene)} {P : Scene → Prop}

/-- **Siblings are visited one after the other.** -/
theorem row_comes (hdeliver : ∀ c ∈ cs, ∀ σ, P σ → Delivers env b σ c (E σ c))
    (hkeep : ∀ c ∈ cs, ∀ σ x, P σ → E σ c = .ok x → P x.2) (hP : P σ)
    (hrow : Row R anchor p row s) (h : s.Represents σ)
    (ha : ∀ n ∈ row, s.Aside (s.store.Region n) (s.store.parent? n))
    (hc : row.Forall₂ s.store.Holds cs) :
    (Stage.manipulation env).Comes row s (inOrder E σ cs) fun x s' =>
      Traversed R anchor row b x.2 x.1 s s' ∧ P x.2 := by
  induction row generalizing cs σ s with
  | nil =>
    cases hc
    exact .nil ⟨⟨.refl hrow.tidy hrow.known, .refl _, h, .nil, fun _ _ => .inl⟩, hP⟩
  | cons n row ih =>
    obtain ⟨c, cs, hn, hothers, rfl⟩ := List.forall₂_cons_left_iff.mp hc
    obtain ⟨hfirst, hdeliver⟩ := List.forall_mem_cons.mp hdeliver
    obtain ⟨hkeepc, hkeep⟩ := List.forall_mem_cons.mp hkeep
    have hwf := hrow.tidy.wellFormed
    have hparent := hrow.parent? n List.mem_cons_self
    have hplace := hwf.placeable hparent
    rw [inOrder]
    refine .cons (hfirst σ hP n s (hrow.sound List.mem_cons_self) h (ha n List.mem_cons_self)
      hplace.kind_ne.2 hn) fun x s' hx hv => ?_
    have hrest := (hrow.tail hv.settled).1
    have hother : ∀ d ∈ row, s.store.parent? d = some p ∧ d ≠ n := fun d hd =>
      ⟨hrow.parent? d (List.mem_cons_of_mem n hd),
        fun hdn => (List.nodup_cons.mp hrow.nodup).1 (hdn ▸ hd)⟩
    have haside : ∀ d ∈ row, s'.Aside (s'.store.Region d) (s'.store.parent? d) := fun d hd =>
      (ha d (List.mem_cons_of_mem n hd)).sibling hwf hrow.tidy.owned hv.settled.within
        hv.settled.known hparent (hother d hd).1 (hother d hd).2 hv.bodies
    have hholds : row.Forall₂ s'.store.Holds cs := by
      refine hv.untouched.holds_all hwf (fun d hd => ⟨hwf.placeable (hother d hd).1, ?_⟩) hothers
      exact fun m => not_region_below hwf hparent (hother d hd).1 (hother d hd).2
    have hcomes := ih hdeliver hkeep (hkeepc σ x hP hx) hrest hv.represents haside hholds
    refine .map (hcomes.imp fun y s'' _ hy => ?_)
    exact ⟨hv.traversed hrow hy.1, hy.2⟩

end Rows

/-! ### A node and what is below it -/

theorem roleOf_of_instruction {id : Int} {e : Tree.ElementData} (he : s.store.element? n = some e)
    (huri : e.uri = some id) :
    roleOf id (s.store.loose n) = (roles.lookup e.name).getD .passed := by
  rw [roleOf, payload_loose, Store.payload?_of_element? he]
  simp [Tree.Payload.loose, huri]

/-- Nodes that neither load nor define bring nothing new. -/
theorem brings_eq_false {id : Int} (hloads : roleOf id (s.store.loose n) ≠ .loads)
    (hdefines : roleOf id (s.store.loose n) ≠ .defines) : brings id n s = false := by
  rw [brings, isNamed]
  split
  · rename_i e he
    by_contra hbrings
    simp only [Bool.not_eq_false, Bool.and_eq_true, beq_iff_eq, List.contains_iff_mem,
      List.mem_cons, List.not_mem_nil, or_false] at hbrings
    obtain ⟨huri, hname⟩ := hbrings
    rw [roleOf_of_instruction he huri] at hloads hdefines
    rcases hname with hname | hname <;> rw [hname] at hloads hdefines
    · exact hdefines rfl
    · exact hloads rfl
  · rfl

theorem isContainer_of_roleOf (id : Int) (h : roleOf id (s.store.loose n) ≠ .passed) :
    s.store.isContainer n := by
  rw [roleOf, payload_loose] at h
  rw [Store.isContainer]
  cases hpay : s.store.payload? n with
  | none => simp [hpay] at h
  | some payload => cases payload <;> simp_all [Tree.Payload.loose, Tree.Payload.isContainer]

theorem getD_queue? {t : Store} (h : t.WellFormed) : (t.queue? n).getD [] = t.children n := by
  rw [Store.queue?]
  split
  · rfl
  · rename_i hnone
    rw [Store.hasChildren, h.linked.count, decide_eq_true_iff] at hnone
    exact (List.eq_nil_of_length_eq_zero (Nat.eq_zero_of_not_pos hnone)).symm

/-- A node that goes on with something has a role. -/
theorem roleOf_of_opening {x : Scene × List Content × Option Node}
    (h : opening env.dialect σ c = .ok (some x)) :
    roleOf (namespaceIdOf env.dialect) c.self ≠ .passed := by
  intro hpassed
  rw [opening, hpassed] at h
  cases h

/-- All children of a node were visited. -/
theorem Traversed.continued
    (h : Traversed (s.store.Interior n) (some n) (s.store.children n) b τ inner s s')
    (hwf : s.store.WellFormed) (ho : s.store.Owned) (hn : s.store.isContainer n) :
    Continued n b inner s s' := by
  have hhas := Store.has_of_isContainer hn
  have hregion : ∀ m, (∃ d ∈ s.store.children n, s.store.Region d m) → s.store.Interior n m := by
    rintro m ⟨d, hd, hm⟩
    have hchild := interior_of_parent? hwf (hwf.mem_children.mp hd)
    exact (hwf.tidy_interior ho hhas).region_le hchild hm
  refine ⟨h.settled, h.untouched.mono fun m _ => hregion m, ?_, fun z x hx => ?_⟩
  · rw [h.untouched.children n hn fun hin => not_interior n s.store (hregion n hin)]
    exact h.holds
  · exact (h.bodies z x hx).imp_right (hregion x)

section Visit

variable (henv : Fluent env) (hs : Sound n s) (h : s.Represents σ)
  (ha : s.Aside (s.store.Region n) (s.store.parent? n)) (hkind : s.store.kind? n ≠ some .attr)
  (hc : s.store.Holds n c) (hloads : roleOf (namespaceIdOf env.dialect) c.self ≠ .loads)
  (hdefines : roleOf (namespaceIdOf env.dialect) c.self ≠ .defines)
  (hsingle : roleOf (namespaceIdOf env.dialect) c.self = .ordinary →
    c.attributes.countP (isUse (namespaceIdOf env.dialect)) ≤ 1)

include hkind in
theorem visit_eq_manipulate : (Stage.manipulation env).visit n s = Stage.manipulate env n s := by
  rw [Visitor.visit]
  split
  · rename_i d hd
    refine absurd ?_ hkind
    rw [Store.kind?, show s.store.payload? n = some (.attr d) from hd]
    rfl
  · rfl

include henv hs h ha hkind hc hloads hdefines hsingle

theorem comes_of_error {f : Failure} {α : Type} {Q : α → Session → Prop}
    (ho : opening env.dialect σ c = .error f) :
    (Stage.manipulation env).Comes [n] s (.error f : Except Failure α) Q := by
  have hmeets := manipulate_meets henv hs h ha hc hloads hdefines hsingle
  rw [ho] at hmeets
  exact .refused Bool.false_ne_true ((visit_eq_manipulate hkind).trans hmeets)

/-- **A node that is left alone.** -/
theorem comes_of_none (ho : opening env.dialect σ c = .ok none) :
    (Stage.manipulation env).Comes [n] s (.ok c) fun c s' => Visited n True σ c s s' := by
  have hmeets := manipulate_meets henv hs h ha hc hloads hdefines hsingle
  rw [ho] at hmeets
  have hstart : Entered env True n s s := .refl hs hkind
  have hstay : Settled (s.store.Interior n) (some n) True s s := .refl hs.tidy hs.known
  have hleft := hstart.leave hs hkind hstay
  refine .visit Bool.false_ne_true ((visit_eq_manipulate hkind).trans hmeets)
    (.nil (Q := fun x s' => x = c ∧ s' = s) ⟨rfl, rfl⟩) fun x s' _ hx => ?_
  obtain ⟨rfl, rfl⟩ := hx
  refine ((leave_gives henv).and_yields hleft).imp fun _ s₃ h₃ => ?_
  exact visited_alone h hc h₃.1 (h₃.2.mono fun _ => ⟨trivial, trivial⟩)

/-- **A node that is opened.** What is below it is visited, and it is left. -/
theorem comes_of_some {r : Except Failure (List Content × Scene)}
    (ho : opening env.dialect σ c = .ok (some (τ, content, form)))
    (hin : ∀ s', Opens n τ content form s s' →
      Row (s'.store.Interior n) (some n) n (s'.store.children n) s' →
      (Stage.manipulation env).Comes (s'.store.children n) s' r fun x s'' =>
        Traversed (s'.store.Interior n) (some n) (s'.store.children n) b x.2 x.1 s' s'') :
    (Stage.manipulation env).Comes [n] s r fun x s₃ => ∃ s' s'', Opens n τ content form s s' ∧
      Continued n b x.1 s' s'' ∧ s''.Represents x.2 ∧ s''.Closes s₃ ∧
      Settled (s.store.Region n) (s.store.parent? n) b s s₃ := by
  have hself := (Store.holds_iff.mp hc).1
  have hmeets := manipulate_meets henv hs h ha hc hloads hdefines hsingle
  rw [ho] at hmeets
  obtain ⟨asked, s', hentered, ⟨hasked, hopens⟩, hyields⟩ :=
    Action.Gives.and_yields hmeets (manipulate_yields henv.toSpoken hs hkind)
  have hbrings : brings (namespaceIdOf env.dialect) n s = false :=
    brings_eq_false (hself ▸ hloads) (hself ▸ hdefines)
  have hent : Entered env True n s s' := by
    rcases hyields with ⟨hent, -⟩ | ⟨hyes, -⟩
    · exact hent.mono fun _ => hbrings
    · rw [hbrings] at hyes
      cases hyes
  have hw := hopens.within.tidy
  have hn : s'.store.isContainer n := by
    refine Store.isContainer_of_kind? (isContainer_of_roleOf (namespaceIdOf env.dialect) ?_)
      hopens.within.confined.kind?
    exact hself ▸ roleOf_of_opening ho
  have hrow : Row (s'.store.Interior n) (some n) n (s'.store.children n) s' := by
    have hrow := hent.row hs hkind
    have htidy := hw.wellFormed.tidy_interior hw.owned (Store.has_of_isContainer hn)
    refine ⟨htidy, hrow.known, hrow.quiet.mono fun m => hopens.interior_le hs, hrow.nodup,
      fun d hd => ?_, hrow.parent?⟩
    exact interior_of_parent? hw.wellFormed (hrow.parent? d hd)
  have hqueue : asked.getD [] = s'.store.children n := by rw [hasked, getD_queue? hw.wellFormed]
  have hbelow := hin s' hopens hrow
  rw [← hqueue] at hbelow
  refine .visit Bool.false_ne_true ((visit_eq_manipulate hkind).trans hentered) hbelow
    fun x s'' _ hx => ?_
  rw [hqueue] at hx
  have hcont := hx.continued hw.wellFormed hw.owned hn
  have hleft := hent.leave hs hkind (hopens.settled_continued hs hcont)
  refine ((leave_gives henv).and_yields hleft).imp fun _ s₃ h₃ => ?_
  exact ⟨s', s'', hopens, hcont, hx.represents, h₃.1, h₃.2.mono fun hb => ⟨trivial, hb⟩⟩

end Visit

/-! ### Closed contents -/

variable {id : Int} {z : Text} {d₁ d₂ : Definitions}

/-- The content an element goes on with is closed, and so are the definitions. -/
structure Enclosed (id : Int) (σ τ : Scene) (content : List Content) : Prop where
  content (x : Content) : x ∈ content → Closed id x
  table : τ.table.Closed id
  arguments : τ.table.arguments = σ.table.arguments

theorem Enclosed.refl (h : Closed id c) (ht : σ.table.Closed id) : Enclosed id σ σ c.inner :=
  ⟨fun _ => h.below, ht, rfl⟩

theorem Table.Closed.add {t : Table} {name : Text} {body : List Content} (h : t.Closed id)
    (hbody : ∀ x ∈ body, Language.Closed id x) : (t.add name body).Closed id := by
  intro z l hl
  rw [Table.add] at hl
  dsimp only at hl
  split at hl
  · rcases List.mem_append.mp hl with hl | hl
    · exact h z l hl
    · exact List.mem_singleton.mp hl ▸ hbody
  · exact h z l hl

/-- What a use goes on with is closed. -/
theorem Enclosed.use {name : Text} {ignore : Bool} (h : Closed id c) (ht : σ.table.Closed id)
    (huse : σ.use name c ignore = .ok (some (τ, content, form))) : Enclosed id σ τ content := by
  rw [Scene.use] at huse
  split at huse
  · cases huse
  split at huse
  · cases huse
    exact .refl h ht
  · rename_i hbodies
    cases huse
    refine ⟨ht name _ (hbodies ▸ List.mem_cons_self), ?_, ?_⟩
    · rw [Scene.inside]
      split
      · exact ht
      · exact ht.add fun _ => h.below
    · rw [Scene.inside]
      split <;> rfl

/-- What an element `parent` goes on with is closed. -/
theorem Enclosed.next (h : Closed id c) (ht : σ.table.Closed id)
    (hnext : σ.next c = some (τ, content, form)) : Enclosed id σ τ content := by
  rw [Scene.next] at hnext
  split at hnext
  · cases hnext
  · rename_i z i hframe
    obtain ⟨body, hbody, hnext⟩ := Option.map_eq_some_iff.mp hnext
    cases hnext
    refine ⟨fun x hx => ?_, ht, rfl⟩
    rcases List.mem_append.mp hx with hx | hx
    · exact h.below hx
    · exact ht z body (List.mem_of_getElem? hbody) x hx

theorem enclosed_of_opening {d : Dialect} (h : Closed id c) (ht : σ.table.Closed id)
    (ho : opening d σ c = .ok (some (τ, content, form))) : Enclosed id σ τ content := by
  rw [opening] at ho
  split at ho
  · cases ho
  · cases ho
  · cases ho
  · cases ho
    exact .refl h ht
  · exact .next h ht (Except.ok.inj ho)
  · obtain ⟨attrs, -, huse⟩ := exists_of_bind_ok (mapError_eq_ok ho)
    exact .use h ht huse
  · split at ho
    · cases ho
      exact .refl h ht
    · obtain ⟨name, -, huse⟩ := exists_of_bind_ok (mapError_eq_ok ho)
      exact .use h ht huse

/-! ### Visits without definitions -/

theorem arguments?_iterate_unwind {d : Definitions} {k : Nat} :
    (Definitions.unwind^[k] d).arguments? z = d.arguments? z := by
  induction k generalizing d with
  | zero => rfl
  | succ k ih =>
    rw [Function.iterate_succ_apply, ih, Definitions.unwind]
    split
    · rfl
    · rw [Definitions.dropFallback]
      split <;> rfl

theorem snd_of_map {ε α β : Type} {r : Except ε α} {b : β} {x : α × β}
    (h : r.map (fun a => (a, b)) = .ok x) : x.2 = b := by
  cases r <;> cases h
  rfl

theorem expanded_of_error {d : Dialect} {f : Failure} (ho : opening d σ c = .error f) :
    expanded d σ c = .error f := by
  rw [expanded]
  split <;> rename_i h <;> cases ho.symm.trans h
  rfl

theorem expanded_of_none {d : Dialect} (ho : opening d σ c = .ok none) :
    expanded d σ c = .ok c := by
  rw [expanded]
  split <;> rename_i h <;> cases ho.symm.trans h
  rfl

theorem expanded_of_some {d : Dialect} (ho : opening d σ c = .ok (some (τ, content, form))) :
    expanded d σ c = (expandedAll d τ content).map (Content.node form c.attributes) := by
  rw [expanded]
  split <;> rename_i h <;> cases ho.symm.trans h
  cases expandedAll d τ content <;> rfl

theorem expandedAll_eq_inOrder (d : Dialect) (σ : Scene) (cs : List Content) :
    (expandedAll d σ cs).map (fun cs => (cs, σ)) =
      inOrder (fun σ c => (expanded d σ c).map fun c => (c, σ)) σ cs := by
  induction cs with
  | nil =>
    rw [expandedAll]
    rfl
  | cons c cs ih =>
    rw [expandedAll, inOrder]
    cases expanded d σ c with
    | error f => rfl
    | ok c =>
      change _ = (inOrder _ σ cs).map _
      rw [← ih]
      cases expandedAll d σ cs <;> rfl

/-- Afterwards the session stands for the same scene. -/
theorem Opens.represents_closed (hs : Sound n s) (ho : Opens n τ content form s s')
    (hc : Continued n b inner s' s'') (h : s.Represents σ)
    (ha : s.Aside (s.store.Region n) (s.store.parent? n)) (hr : s''.Represents τ)
    (harguments : τ.table.arguments = σ.table.arguments) (hl : s''.Closes s₃)
    (hset : Settled (s.store.Region n) (s.store.parent? n) True s s₃) : s₃.Represents σ := by
  refine h.untouched (hs.wellFormed.tidy_region hs.owned n) ha (hl.labelled hr.labelled)
    (ho.untouched_closed hs hc hl hset.agrees.active) hset.agrees fun z => ?_
  obtain ⟨ended, -, hdefs, -⟩ := hl
  rw [hdefs, arguments?_iterate_unwind, hr.arguments, harguments, h.arguments]

/-- **A visit to a node whose content brings no definitions.** -/
theorem expanded_comes (henv : Fluent env) (hclosed : Closed (namespaceIdOf env.dialect) c)
    (htable : σ.table.Closed (namespaceIdOf env.dialect)) :
    Delivers env True σ c ((expanded env.dialect σ c).map fun c => (c, σ)) := by
  -- from an element to what it goes on with, the extent goes down
  induction hM : extent σ c using WellFoundedLT.induction generalizing σ c with
  | ind M ih =>
    subst hM
    intro n s hs h ha hkind hc
    obtain ⟨hself, hattrs, -⟩ := Store.holds_iff.mp hc
    have hloads := hclosed.loads c c.mem_parts
    have hdefines := hclosed.defines c c.mem_parts
    have hsingle := hclosed.single c c.mem_parts
    rcases ho : opening env.dialect σ c with f | _ | ⟨τ, content, form⟩
    · rw [expanded_of_error ho]
      exact comes_of_error henv hs h ha hkind hc hloads hdefines hsingle ho
    · rw [expanded_of_none ho]
      exact .map (comes_of_none henv hs h ha hkind hc hloads hdefines hsingle ho)
    · rw [expanded_of_some ho]
      have hin := enclosed_of_opening hclosed htable ho
      have hrow : ∀ s', Opens n τ content form s s' →
          Row (s'.store.Interior n) (some n) n (s'.store.children n) s' →
          (Stage.manipulation env).Comes (s'.store.children n) s'
            ((expandedAll env.dialect τ content).map fun cs => (cs, τ)) fun x s'' =>
              Traversed (s'.store.Interior n) (some n)
                (s'.store.children n) True x.2 x.1 s' s'' := by
        intro s' hopens hrow
        rw [expandedAll_eq_inOrder]
        refine (row_comes (P := (· = τ)) (fun x hx ρ hρ => ?_) (fun x _ ρ y hρ hy => ?_) rfl hrow
          hopens.represents (fun d hd => ?_) hopens.holds).imp fun _ _ _ hx => hx.1
        · subst hρ
          refine ih _ ?_ (hin.content x hx) hin.table rfl
          exact (extent_lt_of_size (List.sizeOf_lt_of_mem hx)).trans (extent_lt_of_opening ho)
        · exact (snd_of_map hy).trans hρ
        · exact hopens.aside.inner hrow.tidy (hrow.mem d hd)
      have hcomes := comes_of_some henv hs h ha hkind hc hloads hdefines hsingle ho hrow
      have hresult : ((expandedAll env.dialect τ content).map
          (Content.node form c.attributes)).map (fun c => (c, σ)) =
          ((expandedAll env.dialect τ content).map fun cs => (cs, τ)).map fun x =>
            (Content.node form c.attributes x.1, σ) := by
        cases expandedAll env.dialect τ content <;> rfl
      rw [hresult]
      refine .map (hcomes.imp fun x s₃ hx hleft => ?_)
      obtain ⟨s', s'', hopens, hcont, hr, hl, hset⟩ := hleft
      rw [snd_of_map hx] at hr
      have hn : s.store.isContainer n :=
        isContainer_of_roleOf (namespaceIdOf env.dialect) (hself ▸ roleOf_of_opening ho)
      exact hopens.visited hs hcont hn hattrs hl hset
        (hopens.represents_closed hs hcont h ha hr hin.arguments hl hset)

end Language

end Stencil
