import Mathlib.Data.Finset.Dedup
import Mathlib.Data.List.Nodup
import Stencil.Proofs.Build.Order
import Stencil.Proofs.Build.References

/-!
# The agenda of a build

Where the references between templates are those of a graph, the order of a build (`Ordered`) has
consequences for the graph. A finished template has all of its loads finished before it, and so has
no cycle of loads below it (`Sound.grounded`); the chain of the request that was not made by loading
follows the extensions.

Every change of an agenda is stated as a lemma about `Sound`, and `weight` bounds how many more
changes there can be: a request is taken up once and restored once, a name is requested by loading
once, and no name is extended twice.

## Main definitions

* `Agenda.Sound` – the invariant; `Agenda.weight` – the bound

## Main results

* `Sound.park`, `Sound.unpark`, `Sound.finishLoaded`, `Sound.finishExtending` – the changes
* `Sound.deadlock` – parked templates that wait for each other form a cycle
-/

namespace Stencil

open Relation (ReflTransGen TransGen)

namespace Agenda

variable {g : References} {a a' : Agenda} {m r : Request} {p : Parked} {hand : List Request}

/-- What holds of an agenda while the request `m` is the one that was not made by loading. -/
structure Sound (g : References) (hand : List Request) (a : Agenda) (m : Request) : Prop where
  main : a.main = g.main
  output : a.output = none
  /-- There is one request that was not made by loading. -/
  mem : m ∈ a.live hand
  extending : m.isLoaded = false
  loaded : ∀ r ∈ a.live hand, r ≠ m → r.isLoaded = true
  /-- No template is requested twice at a time. -/
  nodup : ((a.live hand).map (·.name)).Nodup
  within : ∀ r ∈ a.live hand, r.name ∈ g.names
  scheduled : ∀ r ∈ a.live hand, r.name ∈ a.scheduled
  covered : ∀ x ∈ a.scheduled, x ∈ a.finished ∨ ∃ r ∈ a.live hand, r.name = x
  /-- Who was requested by loading is not finished, and a parked template waits for it. -/
  requested : ∀ r ∈ a.live hand, r.isLoaded = true → r.name ∉ a.finished ∧
    ∃ p ∈ a.parked, r.chain = p.request.chain ++ [r.name] ∧ r.name ∈ p.waits
  extended : ∀ p ∈ a.parked, p.extended = g.extended p.request.name
  waits : ∀ p ∈ a.parked, ∀ u ∈ p.waits, g.Loads p.request.name u ∧ u ∈ a.scheduled
  awaited : ∀ p ∈ a.parked, ∀ u, g.Loads p.request.name u → u ∈ a.finished ∨ u ∈ p.waits
  /-- The chain of a request leads to it. -/
  reached : ∀ r ∈ a.live hand, ReflTransGen g.Leads g.main r.name
  path : ∀ r ∈ a.live hand, ∀ x ∈ r.chain, ReflTransGen g.Leads x r.name
  /-- From a finished template, every descent along loads ends. -/
  grounded : ∀ x ∈ a.finished, Acc (fun u t => g.Loads t u) x
  /-- The chain of `m` consists of the extended templates so far, all finished but the last. -/
  chain_nodup : m.chain.Nodup
  chain_within : ∀ x ∈ m.chain, x ∈ g.names
  chain_self : m.name ∈ m.chain
  chain_extends : ∀ x ∈ m.chain, ReflTransGen g.Extends x m.name
  chain_finished : ∀ x ∈ m.chain, x = m.name ∨ x ∈ a.finished
  main_extends : ReflTransGen g.Extends g.main m.name
  ahead : ∀ t, ReflTransGen g.Extends g.main t → t ∈ m.chain ∨ ReflTransGen g.Extends m.name t

/-- A bound for the number of changes to come. -/
def weight (g : References) (a : Agenda) (m : Request) : Nat :=
  3 * (g.names.card - m.chain.length) + 2 * (g.names \ a.scheduled.toFinset).card +
    2 * a.queue.length + a.parked.length

theorem sound_start (g : References) :
    Sound g [] (start g.main) { name := g.main, chain := [g.main] } where
  main := rfl
  output := rfl
  mem := by simp [live, start]
  extending := rfl
  loaded r hr hne := by simp_all [live, start]
  nodup := by simp [live, start]
  within r hr := by simp_all [live, start, g.main_mem]
  scheduled r hr := by simp_all [live, start]
  covered x hx := by simp_all [live, start]
  requested r hr hl := by simp_all [live, start]
  extended p hp := by simp [start] at hp
  waits p hp := by simp [start] at hp
  awaited p hp := by simp [start] at hp
  reached r hr := by
    obtain rfl : r = { name := g.main, chain := [g.main] } := by simpa [live, start] using hr
    exact .refl
  path r hr x hx := by
    obtain rfl : r = { name := g.main, chain := [g.main] } := by simpa [live, start] using hr
    rw [List.mem_singleton.mp hx]
  grounded x hx := by simp [start] at hx
  chain_nodup := List.nodup_singleton _
  chain_within x hx := by rw [List.mem_singleton.mp hx]; exact g.main_mem
  chain_self := List.mem_singleton.mpr rfl
  chain_extends x hx := by rw [List.mem_singleton.mp hx]
  chain_finished x hx := .inl (List.mem_singleton.mp hx)
  main_extends := .refl
  ahead t ht := .inr ht

/-- The order does not depend on the graph. -/
theorem Sound.ordered (h : Sound g hand a m) : Ordered hand a m :=
  ⟨h.output, h.mem, h.extending, h.loaded, h.nodup, h.scheduled, h.requested⟩

/-! ### The changes -/

namespace Sound

/-- A request that leads back to a template of its chain closes a cycle. -/
theorem exists_cycle_of_mem_chain (h : Sound g hand a m) (hr : r ∈ a.live hand) {u : Text}
    (hru : g.Leads r.name u) (hu : u ∈ r.chain) :
    ∃ t, ReflTransGen g.Leads g.main t ∧ TransGen g.Leads t t :=
  ⟨u, (h.reached r hr).tail hru, TransGen.tail' (h.path r hr u hu) hru⟩

/-- Taking a request from the queue. -/
theorem take {queue : List Request} (h : Sound g [] a m) (hq : a.queue = r :: queue) :
    Sound g [r] { a with queue } m := by
  obtain ⟨main, queue', parked, scheduled, finished, output⟩ := a
  obtain rfl : queue' = r :: queue := hq
  exact { h with }

/-- Taking a parked template that waits no longer. -/
theorem unpark {before after : List Parked} (h : Sound g [] a m)
    (hp : a.parked = before ++ p :: after) (hready : ∀ u ∈ p.waits, u ∈ a.finished) :
    Sound g [p.request] { a with parked := before ++ after } m := by
  have hperm : (live [p.request] { a with parked := before ++ after }).Perm (live [] a) := by
    have hmiddle := @List.perm_middle _ p.request (a.queue ++ before.map (·.request))
      (after.map (·.request))
    simpa [live, hp] using hmiddle.symm
  have hsub : ∀ q ∈ before ++ after, q ∈ a.parked := by
    intro q hq
    rw [hp]
    rcases List.mem_append.mp hq with hq | hq
    · exact List.mem_append_left _ hq
    · exact List.mem_append_right _ (List.mem_cons_of_mem _ hq)
  have ho := h.ordered.unpark hp hready
  exact
    { h with
      mem := ho.mem
      loaded := ho.loaded
      nodup := ho.nodup
      within := fun r hr => h.within r (hperm.mem_iff.mp hr)
      scheduled := ho.scheduled
      covered := by
        intro x hx
        rcases h.covered x hx with hfin | ⟨r, hr, hrx⟩
        · exact .inl hfin
        · exact .inr ⟨r, hperm.mem_iff.mpr hr, hrx⟩
      requested := ho.requested
      extended := fun q hq => h.extended q (hsub q hq)
      waits := fun q hq => h.waits q (hsub q hq)
      awaited := fun q hq => h.awaited q (hsub q hq)
      reached := fun r hr => h.reached r (hperm.mem_iff.mp hr)
      path := fun r hr => h.path r (hperm.mem_iff.mp hr) }

/-- Parking a request in hand, with its loads requested. -/
theorem park {waits : List Text} (h : Sound g [r] a m)
    (hreq : requestLoads r (g.loads r.name) a = .ok (waits, a')) (doc : Tree.NodeId) :
    Sound g [] { a' with parked := ⟨r, doc, g.extended r.name, waits⟩ :: a'.parked } m ∧
      weight g { a' with parked := ⟨r, doc, g.extended r.name, waits⟩ :: a'.parked } m =
        weight g a m + 1 := by
  have ho := h.ordered.park hreq doc (g.extended r.name)
  obtain ⟨hwaits, new, rfl, hnodup, hnew, hsched⟩ := requestLoads_ok hreq
  have hr : r ∈ live [r] a := List.mem_cons_self
  have hload : ∀ u ∈ waits, g.Loads r.name u ∧ u ∉ a.finished := by
    intro u hu
    simpa [hwaits, References.Loads] using hu
  have hperm : (live [] { a with
      scheduled := (new.map (·.name)).reverse ++ a.scheduled, queue := a.queue ++ new
      parked := ⟨r, doc, g.extended r.name, waits⟩ :: a.parked }).Perm (new ++ live [r] a) := by
    simp only [live, List.map_cons, List.nil_append, List.append_assoc, List.singleton_append]
    refine (List.perm_append_comm_assoc _ _ _).trans (List.Perm.append_left _ ?_)
    exact List.perm_middle
  have hmem : ∀ q, q ∈ live [] { a with
      scheduled := (new.map (·.name)).reverse ++ a.scheduled, queue := a.queue ++ new
      parked := ⟨r, doc, g.extended r.name, waits⟩ :: a.parked } ↔ q ∈ new ∨ q ∈ live [r] a := by
    intro q
    rw [hperm.mem_iff, List.mem_append]
  have hlater : ∀ q ∈ new, g.Loads r.name q.name ∧ q.name ∉ a.finished :=
    fun q hq => hload _ (hnew q hq).2.2.1
  refine ⟨?_, ?_⟩
  · exact
      { h with
        mem := ho.mem
        loaded := ho.loaded
        nodup := ho.nodup
        within := fun q hq => ((hmem q).mp hq).elim
          (fun hq => g.loads_mem _ (h.within r hr) _ (hlater q hq).1) (h.within q)
        scheduled := ho.scheduled
        covered := by
          intro x hx
          rcases List.mem_append.mp hx with hx | hx
          · obtain ⟨q, hq, rfl⟩ := List.mem_map.mp (List.mem_reverse.mp hx)
            exact .inr ⟨q, (hmem q).mpr (.inl hq), rfl⟩
          · rcases h.covered x hx with hfin | ⟨q, hq, hqx⟩
            · exact .inl hfin
            · exact .inr ⟨q, (hmem q).mpr (.inr hq), hqx⟩
        requested := ho.requested
        extended := by
          intro p hp
          rcases List.mem_cons.mp hp with rfl | hp
          · rfl
          · exact h.extended p hp
        waits := by
          intro p hp u hu
          rcases List.mem_cons.mp hp with rfl | hp
          · exact ⟨(hload u hu).1, hsched u hu⟩
          · exact ⟨(h.waits p hp u hu).1, List.mem_append_right _ (h.waits p hp u hu).2⟩
        awaited := by
          intro p hp u hu
          rcases List.mem_cons.mp hp with rfl | hp
          · by_cases hfin : u ∈ a.finished
            · exact .inl hfin
            · exact .inr (by simpa [hwaits, hfin, References.Loads] using hu)
          · exact h.awaited p hp u hu
        reached := by
          intro q hq
          rcases (hmem q).mp hq with hq | hq
          · exact (h.reached r hr).tail (.inr (hlater q hq).1)
          · exact h.reached q hq
        path := by
          intro q hq x hx
          rcases (hmem q).mp hq with hq | hq
          · rw [(hnew q hq).2.1, List.mem_append, List.mem_singleton] at hx
            rcases hx with hx | rfl
            · exact (h.path r hr x hx).tail (.inr (hlater q hq).1)
            · exact .refl
          · exact h.path q hq x hx }
  · -- every new request uses up a name
    have hcard : (g.names \ ((new.map (·.name)).reverse ++ a.scheduled).toFinset).card +
        new.length = (g.names \ a.scheduled.toFinset).card := by
      have hsub : (new.map (·.name)).toFinset ⊆ g.names \ a.scheduled.toFinset := by
        intro x hx
        obtain ⟨q, hq, rfl⟩ := List.mem_map.mp (List.mem_toFinset.mp hx)
        rw [Finset.mem_sdiff, List.mem_toFinset]
        exact ⟨g.loads_mem _ (h.within r hr) _ (hlater q hq).1, (hnew q hq).2.2.2⟩
      have hused := Finset.card_sdiff_add_card_eq_card hsub
      rw [List.toFinset_card_of_nodup hnodup, List.length_map] at hused
      rw [List.toFinset_append, List.toFinset_reverse, Finset.union_comm,
        Finset.sdiff_union_distrib, ← Finset.sdiff_sdiff_left', hused]
    simp only [weight, List.length_append, List.length_cons]
    omega

/-- From a template whose loads are all finished, every descent along loads ends. -/
theorem acc (h : Sound g hand a m) {t : Text} (ht : ∀ u, g.Loads t u → u ∈ a.finished) :
    Acc (fun u t => g.Loads t u) t :=
  .intro t fun u hu => h.grounded u (ht u hu)

/-- Finishing a request in hand that was made by loading. -/
theorem finishLoaded (h : Sound g [r] a m) (hl : r.isLoaded = true)
    (hdone : ∀ u, g.Loads r.name u → u ∈ a.finished) :
    Sound g [] { a with finished := r.name :: a.finished } m := by
  have ho := h.ordered.finishLoaded hl
  have hlive : ∀ q ∈ live [] a, q ∈ live [r] a := fun q hq => List.mem_cons_of_mem _ hq
  exact
    { h with
      mem := ho.mem
      loaded := ho.loaded
      nodup := ho.nodup
      within := fun q hq => h.within q (hlive q hq)
      scheduled := ho.scheduled
      covered := by
        intro x hx
        rcases h.covered x hx with hfin | ⟨q, hq, rfl⟩
        · exact .inl (List.mem_cons_of_mem _ hfin)
        · rcases List.mem_cons.mp hq with rfl | hq
          · exact .inl List.mem_cons_self
          · exact .inr ⟨q, hq, rfl⟩
      requested := ho.requested
      awaited := fun p hp u hu => (h.awaited p hp u hu).imp_left (List.mem_cons_of_mem _)
      reached := fun q hq => h.reached q (hlive q hq)
      path := fun q hq => h.path q (hlive q hq)
      grounded := by
        intro x hx
        rcases List.mem_cons.mp hx with rfl | hx
        · exact h.acc hdone
        · exact h.grounded x hx
      chain_finished := fun x hx => (h.chain_finished x hx).imp_right (List.mem_cons_of_mem _) }

/-- Finishing the request `m` when it extends a template: that one takes its place. -/
theorem finishExtending (h : Sound g [m] a m) (hdone : ∀ u, g.Loads m.name u → u ∈ a.finished)
    {u : Text} (hu : g.Extends m.name u) (hnew : u ∉ m.chain) :
    Sound g [] { a with finished := m.name :: a.finished, scheduled := u :: a.scheduled
                        queue := a.queue ++ [{ name := u, chain := m.chain ++ [u] }] }
        { name := u, chain := m.chain ++ [u] } ∧
      weight g { a with finished := m.name :: a.finished, scheduled := u :: a.scheduled
                        queue := a.queue ++ [{ name := u, chain := m.chain ++ [u] }] }
        { name := u, chain := m.chain ++ [u] } < weight g a m := by
  have ho := h.ordered.finishExtending u
  obtain ⟨hqueue, hparked⟩ := h.ordered.alone
  have hm : m ∈ live [m] a := List.mem_cons_self
  have hnames : u ∈ g.names := by
    have := g.extended_mem m.name (h.within m hm)
    rw [hu.1] at this
    exact this hu.2
  have hmem : ∀ r, r ∈ live [] { a with
      finished := m.name :: a.finished, scheduled := u :: a.scheduled
      queue := a.queue ++ [{ name := u, chain := m.chain ++ [u] }] } ↔
      r = { name := u, chain := m.chain ++ [u] } := by
    simp [live, hqueue, hparked]
  have hchain : (m.chain ++ [u]).Nodup := by
    rw [List.nodup_append']
    exact ⟨h.chain_nodup, List.nodup_singleton u, by simpa using hnew⟩
  have hwithin : ∀ x ∈ m.chain ++ [u], x ∈ g.names := by
    intro x hx
    rcases List.mem_append.mp hx with hx | hx
    · exact h.chain_within x hx
    · exact List.mem_singleton.mp hx ▸ hnames
  have hpath : ∀ x ∈ m.chain ++ [u], ReflTransGen g.Extends x u := by
    intro x hx
    rcases List.mem_append.mp hx with hx | hx
    · exact (h.chain_extends x hx).tail hu
    · rw [List.mem_singleton.mp hx]
  refine ⟨?_, ?_⟩
  · exact
      { main := h.main
        output := h.output
        mem := ho.mem
        extending := rfl
        loaded := ho.loaded
        nodup := ho.nodup
        within := fun r hr => by rw [(hmem r).mp hr]; exact hnames
        scheduled := ho.scheduled
        covered := by
          intro x hx
          rcases List.mem_cons.mp hx with rfl | hx
          · exact .inr ⟨_, (hmem _).mpr rfl, rfl⟩
          · rcases h.covered x hx with hfin | ⟨r, hr, rfl⟩
            · exact .inl (List.mem_cons_of_mem _ hfin)
            · obtain rfl : r = m := by simpa [live, hqueue, hparked] using hr
              exact .inl List.mem_cons_self
        requested := ho.requested
        extended := by simp [hparked]
        waits := by simp [hparked]
        awaited := by simp [hparked]
        reached := by
          intro r hr
          rw [(hmem r).mp hr]
          exact (h.reached m hm).tail (.inl hu)
        path := by
          intro r hr x hx
          rw [(hmem r).mp hr] at hx ⊢
          exact References.Extends.leads (hpath x hx)
        grounded := by
          intro x hx
          rcases List.mem_cons.mp hx with rfl | hx
          · exact h.acc hdone
          · exact h.grounded x hx
        chain_nodup := hchain
        chain_within := hwithin
        chain_self := List.mem_append_right _ (List.mem_singleton.mpr rfl)
        chain_extends := hpath
        chain_finished := by
          intro x hx
          rcases List.mem_append.mp hx with hx | hx
          · rcases h.chain_finished x hx with rfl | hx
            · exact .inr List.mem_cons_self
            · exact .inr (List.mem_cons_of_mem _ hx)
          · exact .inl (List.mem_singleton.mp hx)
        main_extends := h.main_extends.tail hu
        ahead := by
          intro t ht
          rcases h.ahead t ht with ht | ht
          · exact .inl (List.mem_append_left _ ht)
          · rcases ht.cases_head with rfl | ⟨v, hv, ht⟩
            · exact .inl (List.mem_append_left _ h.chain_self)
            · exact .inr (hu.unique hv ▸ ht) }
  · have hlength : (m.chain ++ [u]).length ≤ g.names.card := by
      rw [← List.toFinset_card_of_nodup hchain]
      exact Finset.card_le_card fun x hx => hwithin x (List.mem_toFinset.mp hx)
    have hunscheduled : (g.names \ (u :: a.scheduled).toFinset).card ≤
        (g.names \ a.scheduled.toFinset).card := by
      refine Finset.card_le_card (Finset.sdiff_subset_sdiff subset_rfl ?_)
      rw [List.toFinset_cons]
      exact Finset.subset_insert _ _
    simp only [weight, hqueue, hparked, List.length_append, List.length_cons, List.length_nil] at *
    omega

/-- When `m` is finished and extends no other template, the chain of extensions has come to its end,
and no cycle of loads is below it. -/
theorem finishOutput (h : Sound g [m] a m) (hdone : ∀ u, g.Loads m.name u → u ∈ a.finished)
    (hlast : g.extended m.name = []) : g.Settled m.name := by
  refine ⟨h.main_extends, hlast, fun t ht => ?_⟩
  have hend : ∀ x, ReflTransGen g.Extends m.name x → x = m.name := by
    intro x hx
    rcases hx.cases_head with rfl | ⟨v, hv, -⟩
    · rfl
    · exact absurd (hv.1.symm.trans hlast) hv.2
  have hchain : t ∈ m.chain := (h.ahead t ht).elim id fun hx => hend t hx ▸ h.chain_self
  refine ⟨References.Extends.not_cycle (h.chain_extends t hchain) hlast, ?_⟩
  rcases h.chain_finished t hchain with rfl | hfin
  · exact h.acc hdone
  · exact h.grounded t hfin

/-- Where nothing is queued and all parked templates wait, they wait for each other. -/
theorem deadlock (h : Sound g [] a m) (hq : a.queue = [])
    (hwait : ∀ p ∈ a.parked, ∃ u ∈ p.waits, u ∉ a.finished) :
    (∃ k, a.deadlock = .of (.recursion k)) ∧
      ∃ t, ReflTransGen g.Leads g.main t ∧ TransGen g.Leads t t := by
  have hne : a.parked ≠ [] := by
    intro hnil
    simpa [live, hq, hnil] using h.mem
  refine ⟨?_, ?_⟩
  · obtain ⟨p, rest, hp⟩ := List.exists_cons_of_ne_nil hne
    rw [Agenda.deadlock, hp]
    exact ⟨_, rfl⟩
  · have hnext : ∀ x ∈ a.parked.map (·.request.name), ∃ y ∈ a.parked.map (·.request.name),
        g.Leads x y := by
      intro x hx
      obtain ⟨p, hp, rfl⟩ := List.mem_map.mp hx
      obtain ⟨u, hu, hfin⟩ := hwait p hp
      obtain ⟨hload, hsched⟩ := h.waits p hp u hu
      obtain ⟨r, hr, rfl⟩ := (h.covered u hsched).resolve_left hfin
      obtain ⟨p', hp', rfl⟩ : ∃ p' ∈ a.parked, p'.request = r := by simpa [live, hq] using hr
      exact ⟨_, List.mem_map.mpr ⟨p', hp', rfl⟩, .inr hload⟩
    obtain ⟨x, hx, hcycle⟩ := exists_cycle (by simpa using hne) hnext
    obtain ⟨p, hp, rfl⟩ := List.mem_map.mp hx
    exact ⟨_, h.reached p.request (by simpa [live, hq] using ⟨p, hp, rfl⟩), hcycle⟩

end Sound

end Agenda

end Stencil
