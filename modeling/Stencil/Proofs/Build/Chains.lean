import Mathlib.Data.List.Chain
import Stencil.Proofs.Build.Course
import Stencil.Proofs.Build.Order
import Stencil.Proofs.Build.References

/-!
# Chains of requests

Every request carries the names of the templates that led to it. These chains are made when a
template was read, from what it extends and loads, and are only ever made longer, so throughout a
build each name of a chain was requested by the one before it (`Agenda.Traced`). The build may be of
any parser, hook and stages, and nothing is assumed about what the templates refer to; "requested"
means that in this very build the template was read, and said so (`Compiler.Requests`).

A chain that is shown by a failure is such a chain with one more name. Where a template is refused
because it led to the one that asks for it, the name is on the chain already. Where parked templates
wait for each other it is not (`Agenda.Traced.deadlock`): the chain of the last one is followed by a
template that it waits for, which would have been refused if it were on the chain. From there some
cycle is reached, but the chain does not show it.

## Main definitions

* `Compiler.Reads`, `Compiler.Requests` – what is read in a build, and asked for
* `Agenda.Traced`, `Compiler.Moment.Traced` – the invariant

## Main results

* `Agenda.Traced.deadlock` – parked templates that wait for each other
* `Compiler.Step.traced` – every step preserves the invariant
-/

namespace Stencil

open Relation (ReflTransGen TransGen)
open Stencil.Tree (NodeId)

section Chains

variable {α : Type} {R : α → α → Prop} {l : List α} {x y : α}

/-- A chain goes on at its end. -/
theorem isChain_concat (h : l.IsChain R) (hlast : l.getLast? = some x) (hxy : R x y) :
    (l ++ [y]).IsChain R := by
  refine List.isChain_append.mpr ⟨h, .singleton y, fun u hu v hv => ?_⟩
  obtain rfl := Option.some.inj (hlast.symm.trans hu)
  obtain rfl := Option.some.inj hv
  exact hxy

/-- Where everybody in a list leads to somebody in it, everybody in it leads to a cycle. -/
theorem exists_reachable_cycle (hx : x ∈ l) (h : ∀ x ∈ l, ∃ y ∈ l, R x y) :
    ∃ y, ReflTransGen R x y ∧ TransGen R y y := by
  classical
  -- those who are reached lead to somebody who is reached
  obtain ⟨y, hy, hcycle⟩ := exists_cycle (l := l.filter (ReflTransGen R x ·)) (R := R)
    (List.ne_nil_of_mem (List.mem_filter.mpr ⟨hx, by simpa using .refl⟩)) fun y hy => by
      obtain ⟨hy, hreach⟩ := List.mem_filter.mp hy
      obtain ⟨z, hz, hyz⟩ := h y hy
      exact ⟨z, List.mem_filter.mpr ⟨hz, by simpa using .tail (by simpa using hreach) hyz⟩, hyz⟩
  exact ⟨y, by simpa using (List.mem_filter.mp hy).2, hcycle⟩

end Chains

namespace Agenda

variable {a a' : Agenda} {r : Request} {p : Parked} {hand : List Request} {Q : Text → Text → Prop}
  {loads waits : List Text} {u : Text}

/-- What is known about an agenda and the templates that were read. -/
structure Traced (Q : Text → Text → Prop) (hand : List Request) (a : Agenda) : Prop where
  /-- Each name of a chain was requested by the one before it. -/
  chain (r : Request) : r ∈ a.live hand → r.chain.IsChain Q
  /-- The last one is the template itself. -/
  last (r : Request) : r ∈ a.live hand → r.chain.getLast? = some r.name
  /-- What a parked template waits for was requested by it, and did not lead to it. -/
  waits (p : Parked) (u : Text) : p ∈ a.parked → u ∈ p.waits →
    Q p.request.name u ∧ u ∉ p.request.chain ∧ u ∈ a.scheduled
  extended (p : Parked) : p ∈ a.parked → p.extended ≠ [] → Q p.request.name p.extended
  /-- What was requested is finished, or will be. -/
  covered (x : Text) : x ∈ a.scheduled → x ∈ a.finished ∨ ∃ r ∈ a.live hand, r.name = x

theorem traced_start (main : Text) : (start main).Traced Q [] where
  chain r hr := by simp_all [live, start]
  last r hr := by simp_all [live, start]
  waits p u hp := by simp [start] at hp
  extended p hp := by simp [start] at hp
  covered x hx := by simp_all [live, start]

/-- Requesting is refused for whatever led to the request. -/
theorem not_mem_chain_of_requestLoads (h : requestLoads r loads a = .ok (waits, a')) :
    ∀ u ∈ loads, u ∉ r.chain := by
  induction loads generalizing a a' waits with
  | nil => exact fun u hu => (nomatch hu)
  | cons v loads ih =>
    rw [requestLoads] at h
    split at h
    · cases h
    rename_i hv
    have hrest : ∀ {b b' : Agenda} {w}, requestLoads r loads b = .ok (w, b') →
        ∀ u ∈ v :: loads, u ∉ r.chain := fun hb =>
      List.forall_mem_cons.mpr ⟨by simpa using hv, ih hb⟩
    split at h
    · exact hrest h
    · dsimp only at h
      split at h
      · cases h
      · rename_i hrec
        exact hrest hrec

namespace Traced

/-- Only who is live, parked, scheduled and finished matters. -/
theorem anew {hand' : List Request} (h : a.Traced Q hand)
    (hlive : ∀ r ∈ a'.live hand', r ∈ a.live hand)
    (hparked : ∀ p ∈ a'.parked, p ∈ a.parked) (hscheduled : a'.scheduled = a.scheduled)
    (hcovered : ∀ x ∈ a.scheduled, x ∈ a'.finished ∨ ∃ r ∈ a'.live hand', r.name = x) :
    a'.Traced Q hand' where
  chain r hr := h.chain r (hlive r hr)
  last r hr := h.last r (hlive r hr)
  waits p u hp hu := hscheduled ▸ h.waits p u (hparked p hp) hu
  extended p hp := h.extended p (hparked p hp)
  covered x hx := hcovered x (hscheduled ▸ hx)

/-- Taking a request from the queue. -/
theorem take {queue : List Request} (h : a.Traced Q []) (hq : a.queue = r :: queue) :
    Traced Q [r] { a with queue } := by
  have hlive : live [r] { a with queue } = a.live [] := by simp [live, hq]
  exact h.anew (fun q hq => hlive ▸ hq) (fun _ hp => hp) rfl fun x hx => hlive ▸ h.covered x hx

/-- Taking a parked template that waits no longer. -/
theorem unpark {before after : List Parked} (h : a.Traced Q [])
    (hp : a.parked = before ++ p :: after) :
    Traced Q [p.request] { a with parked := before ++ after } := by
  have hlive : ∀ r, r ∈ live [p.request] { a with parked := before ++ after } ↔ r ∈ a.live [] := by
    intro r
    simp only [live, hp, List.map_append, List.map_cons, List.mem_append,
      List.mem_cons, List.not_mem_nil]
    tauto
  refine h.anew (fun r => (hlive r).mp) (fun q hq => ?_) rfl fun x hx => ?_
  · rw [hp, List.mem_append, List.mem_cons]
    exact (List.mem_append.mp hq).imp_right .inr
  · obtain hfin | ⟨r, hr, hx⟩ := h.covered x hx
    · exact .inl hfin
    · exact .inr ⟨r, (hlive r).mpr hr, hx⟩

/-- Parking a request in hand, with its loads requested. -/
theorem park {extended : Text} (h : a.Traced Q [r])
    (hreq : requestLoads r loads a = .ok (waits, a'))
    (hloads : ∀ u ∈ loads, Q r.name u) (hextended : extended ≠ [] → Q r.name extended)
    (doc : NodeId) :
    Traced Q [] { a' with parked := ⟨r, doc, extended, waits⟩ :: a'.parked } := by
  have hchain := not_mem_chain_of_requestLoads hreq
  obtain ⟨hwaits, new, rfl, -, hnew, hsched⟩ := requestLoads_ok hreq
  have hr : r ∈ live [r] a := List.mem_cons_self
  have hmem : ∀ {u}, u ∈ waits → u ∈ loads := fun hu => (List.mem_filter.mp (hwaits ▸ hu)).1
  have hlive : ∀ q, q ∈ live [] { a with
      scheduled := (new.map (·.name)).reverse ++ a.scheduled, queue := a.queue ++ new
      parked := ⟨r, doc, extended, waits⟩ :: a.parked } ↔ q ∈ new ∨ q ∈ live [r] a := by
    intro q
    simp only [live, List.map_cons, List.mem_append, List.mem_cons, List.not_mem_nil]
    tauto
  refine ⟨fun q hq => ?_, fun q hq => ?_, fun p u hp hu => ?_, fun p hp => ?_, fun x hx => ?_⟩
  · rcases (hlive q).mp hq with hq | hq
    · obtain ⟨-, hqchain, hqwaits, -⟩ := hnew q hq
      rw [hqchain]
      exact isChain_concat (h.chain r hr) (h.last r hr) (hloads _ (hmem hqwaits))
    · exact h.chain q hq
  · rcases (hlive q).mp hq with hq | hq
    · rw [(hnew q hq).2.1, List.getLast?_concat]
    · exact h.last q hq
  · rcases List.mem_cons.mp hp with rfl | hp
    · exact ⟨hloads u (hmem hu), hchain u (hmem hu), hsched u hu⟩
    · obtain ⟨hq, hout, hs⟩ := h.waits p u hp hu
      exact ⟨hq, hout, List.mem_append_right _ hs⟩
  · rcases List.mem_cons.mp hp with rfl | hp
    · exact hextended
    · exact h.extended p hp
  · rcases List.mem_append.mp hx with hx | hx
    · obtain ⟨q, hq, hqx⟩ := List.mem_map.mp (List.mem_reverse.mp hx)
      exact .inr ⟨q, (hlive q).mpr (.inl hq), hqx⟩
    · obtain hfin | ⟨q, hq, hqx⟩ := h.covered x hx
      · exact .inl hfin
      · exact .inr ⟨q, (hlive q).mpr (.inr hq), hqx⟩

/-- Finishing a request in hand. -/
theorem finish (h : a.Traced Q [r]) (output : Option NodeId) :
    Traced Q [] { a with finished := r.name :: a.finished, output } := by
  refine h.anew (fun q hq => List.mem_cons_of_mem r hq) (fun _ hp => hp) rfl fun x hx => ?_
  rcases h.covered x hx with hfin | ⟨q, hq, rfl⟩
  · exact .inl (List.mem_cons_of_mem _ hfin)
  · rcases List.mem_cons.mp hq with rfl | hq
    · exact .inl List.mem_cons_self
    · exact .inr ⟨q, hq, rfl⟩

/-- Finishing a request in hand that extends a template. -/
theorem finishExtending (h : a.Traced Q [r]) (hru : Q r.name u) :
    Traced Q [] { a with finished := r.name :: a.finished, scheduled := u :: a.scheduled
                         queue := a.queue ++ [{ name := u, chain := r.chain ++ [u] }] } := by
  have hfinish := h.finish a.output
  have hr : r ∈ live [r] a := List.mem_cons_self
  have hlive : ∀ q, q ∈ live [] { a with
      finished := r.name :: a.finished, scheduled := u :: a.scheduled
      queue := a.queue ++ [{ name := u, chain := r.chain ++ [u] }] } ↔
      q ∈ live [] { a with finished := r.name :: a.finished } ∨
        q = { name := u, chain := r.chain ++ [u] } := by
    intro q
    simp only [live, List.mem_append, List.mem_cons, List.not_mem_nil]
    tauto
  refine ⟨fun q hq => ?_, fun q hq => ?_, fun p v hp hv => ?_, h.extended, fun x hx => ?_⟩
  · rcases (hlive q).mp hq with hq | rfl
    · exact hfinish.chain q hq
    · exact isChain_concat (h.chain r hr) (h.last r hr) hru
  · rcases (hlive q).mp hq with hq | rfl
    · exact hfinish.last q hq
    · exact List.getLast?_concat
  · obtain ⟨hq, hout, hs⟩ := h.waits p v hp hv
    exact ⟨hq, hout, List.mem_cons_of_mem u hs⟩
  · rcases List.mem_cons.mp hx with rfl | hx
    · exact .inr ⟨_, (hlive _).mpr (.inr rfl), rfl⟩
    · obtain hfin | ⟨q, hq, hqx⟩ := hfinish.covered x hx
      · exact .inl hfin
      · exact .inr ⟨q, (hlive q).mpr (.inl hq), hqx⟩

/-- **Parked templates that wait for each other.** The chain that is shown ends with a template that
is not on it before. It was requested, and leads to a cycle of requests. -/
theorem deadlock {k : Recursion} (h : a.Traced Q []) (hq : a.queue = [])
    (hwait : a.parked.find? a.isReady = none) (hk : a.deadlock.cause = .recursion k) :
    ∃ pre z t, k = ⟨.load, pre ++ [z]⟩ ∧ (pre ++ [z]).IsChain Q ∧ z ∉ pre ∧ ReflTransGen Q z t ∧
      TransGen Q t t := by
  have hwaits : ∀ p ∈ a.parked, ∃ u ∈ p.waits, u ∉ a.finished := by
    intro p hp
    simpa [isReady] using List.find?_eq_none.mp hwait p hp
  -- whoever is waited for is parked, too
  have hparked : ∀ p ∈ a.parked, ∀ u ∈ p.waits, u ∉ a.finished →
      ∃ q ∈ a.parked, q.request.name = u := by
    intro p hp u hu hfin
    obtain ⟨r, hr, hru⟩ := (h.covered u (h.waits p u hp hu).2.2).resolve_left hfin
    obtain ⟨q, hq, rfl⟩ : ∃ q ∈ a.parked, q.request = r := by simpa [live, hq] using hr
    exact ⟨q, hq, hru⟩
  rw [Agenda.deadlock] at hk
  split at hk
  · cases hk
  rename_i p rest hrest
  have hp : p ∈ a.parked := hrest ▸ List.mem_cons_self
  have hlive : p.request ∈ a.live [] := by simpa [live, hq] using ⟨p, hp, rfl⟩
  cases hz : p.waits.find? fun n => !a.finished.contains n with
  | none =>
    obtain ⟨u, hu, hfin⟩ := hwaits p hp
    exact absurd (List.find?_eq_none.mp hz u hu) (by simpa using hfin)
  | some z =>
    rw [hz] at hk
    have hmem := List.mem_of_find?_eq_some hz
    have hfin : z ∉ a.finished := by simpa using List.find?_some hz
    obtain ⟨hpz, hout, -⟩ := h.waits p z hp hmem
    obtain ⟨q, hqp, hqz⟩ := hparked p hp z hmem hfin
    obtain ⟨t, hzt, hcycle⟩ := exists_reachable_cycle (l := a.parked.map (·.request.name)) (R := Q)
      (List.mem_map.mpr ⟨q, hqp, hqz⟩) fun x hx => by
        obtain ⟨p, hp, rfl⟩ := List.mem_map.mp hx
        obtain ⟨u, hu, hfin⟩ := hwaits p hp
        obtain ⟨q, hq, rfl⟩ := hparked p hp u hu hfin
        exact ⟨_, List.mem_map.mpr ⟨q, hq, rfl⟩, (h.waits p _ hp hu).1⟩
    exact ⟨p.request.chain, z, t, (Cause.recursion.inj hk).symm,
      isChain_concat (h.chain _ hlive) (h.last _ hlive) hpz, hout, hzt, hcycle⟩

end Traced

end Agenda

namespace Compiler

variable {c : Compiler} {p : Parser} {env : Stage.Environment} {files : Files} {steps : Nat}
  {m₀ m m' : Moment} {x y extended : Text} {loads : List Text}

/-- In the course of a build a template is read, and this is what it extends and loads. -/
def Reads (c : Compiler) (p : Parser) (env : Stage.Environment) (files : Files)
    (steps : Nat) (m₀ : Moment)
    (x extended : Text) (loads : List Text) : Prop :=
  ∃ a s handed r queue doc s',
    ReflTransGen (c.Step p env files steps) m₀ ⟨.idle a, s, handed⟩ ∧
      a.queue = r :: queue ∧ r.name = x ∧
      c.readTemplate p files a.main x s = (.ok (doc, extended, loads), s')

/-- In the course of a build a template is read that extends or loads another one. -/
def Requests (c : Compiler) (p : Parser) (env : Stage.Environment) (files : Files) (steps : Nat)
    (m₀ : Moment) (x y : Text) : Prop :=
  ∃ extended loads, c.Reads p env files steps m₀ x extended loads ∧
    (y ∈ loads ∨ y ≠ [] ∧ y = extended)

/-- What is known at a moment of a build. -/
def Moment.Traced (Q : Text → Text → Prop) (m : Moment) : Prop :=
  match m.point with
  | .idle a => a.Traced Q []
  | .starting r _ extended a => a.Traced Q [r] ∧ (extended ≠ [] → Q r.name extended)

theorem Reads.requests (h : c.Reads p env files steps m₀ x extended loads) :
    (∀ y ∈ loads, c.Requests p env files steps m₀ x y) ∧
      (extended ≠ [] → c.Requests p env files steps m₀ x extended) :=
  ⟨fun _ hy => ⟨extended, loads, h, .inl hy⟩, fun hne => ⟨extended, loads, h, .inr ⟨hne, rfl⟩⟩⟩

/-- **Every step preserves what is known.** -/
theorem Step.traced (hcourse : ReflTransGen (c.Step p env files steps) m₀ m)
    (h : c.Step p env files steps m m') (ht : m.Traced (c.Requests p env files steps m₀)) :
    m'.Traced (c.Requests p env files steps m₀) := by
  cases h with
  | take hq _ hread hreq =>
    have hreads : c.Reads p env files steps m₀ _ _ _ :=
      ⟨_, _, _, _, _, _, _, hcourse, hq, rfl, hread⟩
    obtain ⟨rfl, -⟩ := Agenda.eq_of_requestLoads_nil hreq
    exact ⟨Agenda.Traced.take ht hq, hreads.requests.2⟩
  | park hq _ hread hreq _ =>
    have hreads : c.Reads p env files steps m₀ _ _ _ :=
      ⟨_, _, _, _, _, _, _, hcourse, hq, rfl, hread⟩
    exact (Agenda.Traced.take ht hq).park hreq hreads.requests.1 hreads.requests.2 _
  | restore _ _ hfind _ =>
    have ht : Agenda.Traced _ [] _ := ht
    obtain ⟨before, after, hparked, herase, -⟩ := Agenda.parked_of_find? hfind
    exact ⟨herase ▸ ht.unpark hparked, ht.extended _ (List.mem_of_find?_eq_some hfind)⟩
  | load _ _ _ => exact ht.1.finish _
  | extend _ hext _ _ _ => exact ht.1.finishExtending (ht.2 hext)
  | output _ _ _ _ => exact ht.1.finish _

theorem traced_of_course (ht : m₀.Traced (c.Requests p env files steps m₀))
    (h : ReflTransGen (c.Step p env files steps) m₀ m) :
    m.Traced (c.Requests p env files steps m₀) := by
  induction h with
  | refl => exact ht
  | tail hcourse hstep ih => exact hstep.traced hcourse ih

end Compiler

end Stencil
