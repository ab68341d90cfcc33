import Mathlib.Data.List.Nodup
import Mathlib.Data.List.Perm.Basic
import Stencil.Compiler.Build

/-!
# The order of a build

A build works on one template after the other along the extensions; everything else is loaded, for
that template or for one that was loaded for it. The requests that were made and are not finished
are *live*. Among them is exactly one that was not made by loading, called `m` below, and every
other one was made by a parked template that waits for it.

The second fact is what keeps the bookkeeping simple: nothing that waits can be finished before what
it waits for, so that when `m` is taken up to be finished, nothing else is live (`Ordered.alone`).
All of this holds whatever the templates refer to, and also where they refer to each other in
circles. Every change of an agenda is stated as a lemma about `Ordered`.

## Main definitions

* `Agenda.live` – the requests that are not finished
* `Agenda.Ordered` – the invariant

## Main results

* `requestLoads_ok`, `requestLoads_error` – what requesting does
* `Ordered.park`, `Ordered.unpark`, `Ordered.finishLoaded`, `Ordered.finishExtending` – the changes
* `Ordered.alone` – what is finished last is finished alone
-/

namespace Stencil.Agenda

variable {a a' : Agenda} {m r : Request} {p : Parked} {hand : List Request}

/-- The requests that are not finished: those in hand, those in the queue and those parked. -/
def live (hand : List Request) (a : Agenda) : List Request :=
  hand ++ a.queue ++ a.parked.map (·.request)

/-- What holds of an agenda while the request `m` is the one that was not made by loading. -/
structure Ordered (hand : List Request) (a : Agenda) (m : Request) : Prop where
  output : a.output = none
  /-- There is one request that was not made by loading. -/
  mem : m ∈ a.live hand
  extending : m.isLoaded = false
  loaded : ∀ r ∈ a.live hand, r ≠ m → r.isLoaded = true
  /-- No template is requested twice at a time. -/
  nodup : ((a.live hand).map (·.name)).Nodup
  scheduled : ∀ r ∈ a.live hand, r.name ∈ a.scheduled
  /-- Who was requested by loading is not finished, and a parked template waits for it. -/
  requested : ∀ r ∈ a.live hand, r.isLoaded = true → r.name ∉ a.finished ∧
    ∃ p ∈ a.parked, r.chain = p.request.chain ++ [r.name] ∧ r.name ∈ p.waits

theorem ordered_start (main : Text) :
    Ordered [] (start main) { name := main, chain := [main] } where
  output := rfl
  mem := by simp [live, start]
  extending := rfl
  loaded r hr hne := by simp_all [live, start]
  nodup := by simp [live, start]
  scheduled r hr := by simp_all [live, start]
  requested r hr hl := by simp_all [live, start]

/-! ### Who is live -/

namespace Ordered

/-- Where a loaded request is live, `m` is parked and waits for somebody. -/
theorem blocked (h : Ordered hand a m) (hr : r ∈ a.live hand) (hl : r.isLoaded = true) :
    ∃ p ∈ a.parked, p.request = m ∧ ∃ u ∈ p.waits, u ∉ a.finished := by
  induction hn : r.chain.length using Nat.strongRecOn generalizing r with
  | _ n ih =>
    obtain ⟨hfin, p, hp, hchain, hwait⟩ := h.requested r hr hl
    by_cases hpm : p.request = m
    · exact ⟨p, hp, hpm, r.name, hwait, hfin⟩
    · -- the template that waits was loaded itself, over a shorter chain
      have hlive : p.request ∈ a.live hand := by simp [live]; exact .inr (.inr ⟨p, hp, rfl⟩)
      refine ih p.request.chain.length ?_ hlive (h.loaded _ hlive hpm) rfl
      rw [← hn, hchain, List.length_append]
      exact Nat.lt_succ_self _

theorem eq_of_extending (h : Ordered [r] a m) (hr : r.isLoaded = false) : r = m := by
  by_contra hne
  have hl := h.loaded r List.mem_cons_self hne
  rw [hr] at hl
  cases hl

/-- When the request `m` is in hand, nothing else is live. -/
theorem alone (h : Ordered [m] a m) : a.queue = [] ∧ a.parked = [] := by
  have hnodup := h.nodup
  rw [live, List.singleton_append, List.cons_append, List.map_cons, List.nodup_cons] at hnodup
  suffices hrest : a.queue ++ a.parked.map (·.request) = [] by
    simpa using hrest
  refine List.eq_nil_iff_forall_not_mem.mpr fun r hr => hnodup.1 ?_
  have hlive : r ∈ a.live [m] := List.mem_cons_of_mem _ hr
  by_cases hrm : r = m
  · exact List.mem_map.mpr ⟨r, hr, by rw [hrm]⟩
  · obtain ⟨p, hp, hpm, -⟩ := h.blocked hlive (h.loaded r hlive hrm)
    refine List.mem_map.mpr ⟨m, List.mem_append_right _ ?_, rfl⟩
    exact List.mem_map.mpr ⟨p, hp, hpm⟩

end Ordered

/-- The parked template that is taken up again, and those that are left. -/
theorem parked_of_find? (h : a.parked.find? a.isReady = some p) : ∃ before after,
    a.parked = before ++ p :: after ∧ a.parked.eraseP a.isReady = before ++ after ∧
      ∀ u ∈ p.waits, u ∈ a.finished := by
  obtain ⟨hready, before, after, hparked, hbefore⟩ := List.find?_eq_some_iff_append.mp h
  refine ⟨before, after, hparked, ?_, by simpa [isReady] using hready⟩
  rw [hparked, List.eraseP_append_right _ fun b hb => by simpa using hbefore b hb,
    List.eraseP_cons_of_pos hready]

/-! ### Requesting -/

/-- Requesting loads queues those that were never requested, and gives those that are not finished
to wait for. -/
theorem requestLoads_ok {loads waits : List Text} (h : requestLoads r loads a = .ok (waits, a')) :
    waits = loads.filter (fun u => u ∉ a.finished) ∧ ∃ new : List Request,
      a' = { a with scheduled := (new.map (·.name)).reverse ++ a.scheduled
                    queue := a.queue ++ new } ∧
      (new.map (·.name)).Nodup ∧
      (∀ q ∈ new, q.isLoaded = true ∧ q.chain = r.chain ++ [q.name] ∧ q.name ∈ waits ∧
        q.name ∉ a.scheduled) ∧
      ∀ u ∈ waits, u ∈ a'.scheduled := by
  induction loads generalizing a a' waits with
  | nil =>
    obtain ⟨rfl, rfl⟩ : [] = waits ∧ a = a' := by simpa [requestLoads] using h
    exact ⟨rfl, [], by simp⟩
  | cons u loads ih =>
    rw [requestLoads] at h
    split at h
    · cases h
    split at h
    · rename_i hfin
      obtain ⟨rfl, hnew⟩ := ih h
      have hu : u ∈ a.finished := by simpa using hfin
      exact ⟨by simp [hu], hnew⟩
    · rename_i hfin
      have hu : u ∉ a.finished := by simpa using hfin
      dsimp only at h
      split at h
      · cases h
      · rename_i waits' a'' hrec
        obtain ⟨rfl, rfl⟩ : u :: waits' = waits ∧ a'' = a' := by simpa using h
        obtain ⟨hwaits, new, ha', hnodup, hnew, hsched⟩ := ih hrec
        split at hwaits <;> rename_i hs
        · have hu' : u ∈ a.scheduled := by simpa using hs
          simp only [hs, if_true] at ha' hnew
          refine ⟨by simp [hu, hwaits], new, ha', hnodup, fun q hq => ?_, fun w hw => ?_⟩
          · obtain ⟨h₁, h₂, h₃, h₄⟩ := hnew q hq
            exact ⟨h₁, h₂, List.mem_cons_of_mem _ h₃, h₄⟩
          · rcases List.mem_cons.mp hw with rfl | hw
            · rw [ha']
              exact List.mem_append_right _ hu'
            · exact hsched w hw
        · have hu' : u ∉ a.scheduled := by simpa using hs
          simp only [hs] at ha' hnew
          refine ⟨by simp [hu, hwaits], ⟨u, true, r.chain ++ [u]⟩ :: new, ?_, ?_, ?_, ?_⟩
          · simp [ha']
          · refine List.nodup_cons.mpr ⟨fun hmem => ?_, hnodup⟩
            obtain ⟨q, hq, hqu⟩ := List.mem_map.mp hmem
            exact (hnew q hq).2.2.2 (by simp [hqu])
          · intro q hq
            rcases List.mem_cons.mp hq with rfl | hq
            · exact ⟨rfl, rfl, List.mem_cons_self, hu'⟩
            · obtain ⟨h₁, h₂, h₃, h₄⟩ := hnew q hq
              exact ⟨h₁, h₂, List.mem_cons_of_mem _ h₃, fun e => h₄ (List.mem_cons_of_mem _ e)⟩
          · intro w hw
            rcases List.mem_cons.mp hw with rfl | hw
            · simp [ha']
            · exact hsched w hw

/-- Requesting fails only for a load that led to the request. -/
theorem requestLoads_error {loads : List Text} {f : Failure}
    (h : requestLoads r loads a = .error f) :
    ∃ u ∈ loads, u ∈ r.chain ∧ f = .of (.recursion ⟨.load, r.chain ++ [u]⟩) := by
  induction loads generalizing a with
  | nil => cases h
  | cons u loads ih =>
    rw [requestLoads] at h
    split at h
    · rename_i hu
      exact ⟨u, List.mem_cons_self, by simpa using hu, (Except.error.inj h).symm⟩
    have later : ∀ {b : Agenda}, requestLoads r loads b = .error f →
        ∃ v ∈ u :: loads, v ∈ r.chain ∧ f = .of (.recursion ⟨.load, r.chain ++ [v]⟩) := by
      intro b hb
      obtain ⟨v, hv, hf⟩ := ih hb
      exact ⟨v, List.mem_cons_of_mem _ hv, hf⟩
    split at h
    · exact later h
    · dsimp only at h
      split at h
      · rename_i hrec
        obtain rfl := Except.error.inj h
        exact later hrec
      · cases h

/-- Who has to wait for nobody has requested nothing. -/
theorem eq_of_requestLoads_nil {loads : List Text}
    (h : requestLoads r loads a = .ok ([], a')) : a' = a ∧ ∀ u ∈ loads, u ∈ a.finished := by
  obtain ⟨hwaits, new, rfl, -, hnew, -⟩ := requestLoads_ok h
  obtain rfl : new = [] := List.eq_nil_iff_forall_not_mem.mpr fun q hq => by
    simpa using (hnew q hq).2.2.1
  refine ⟨by simp, fun u hu => ?_⟩
  simpa using List.filter_eq_nil_iff.mp hwaits.symm u hu

/-! ### The changes -/

namespace Ordered

/-- Taking a request from the queue. -/
theorem take {queue : List Request} (h : Ordered [] a m) (hq : a.queue = r :: queue) :
    Ordered [r] { a with queue } m := by
  obtain ⟨main, queue', parked, scheduled, finished, output⟩ := a
  obtain rfl : queue' = r :: queue := hq
  exact { h with }

/-- Taking a parked template that waits no longer. -/
theorem unpark {before after : List Parked} (h : Ordered [] a m)
    (hp : a.parked = before ++ p :: after) (hready : ∀ u ∈ p.waits, u ∈ a.finished) :
    Ordered [p.request] { a with parked := before ++ after } m := by
  have hperm : (live [p.request] { a with parked := before ++ after }).Perm (live [] a) := by
    have hmiddle := @List.perm_middle _ p.request (a.queue ++ before.map (·.request))
      (after.map (·.request))
    simpa [live, hp] using hmiddle.symm
  exact
    { output := h.output
      mem := hperm.mem_iff.mpr h.mem
      extending := h.extending
      loaded := fun r hr => h.loaded r (hperm.mem_iff.mp hr)
      nodup := (hperm.map _).nodup_iff.mpr h.nodup
      scheduled := fun r hr => h.scheduled r (hperm.mem_iff.mp hr)
      requested := by
        intro r hr hl
        obtain ⟨hfin, q, hq, hchain, hwait⟩ := h.requested r (hperm.mem_iff.mp hr) hl
        refine ⟨hfin, q, ?_, hchain, hwait⟩
        rw [hp, List.mem_append, List.mem_cons] at hq
        rcases hq with hq | rfl | hq
        · exact List.mem_append_left _ hq
        · exact absurd (hready _ hwait) hfin
        · exact List.mem_append_right _ hq }

/-- Parking a request in hand, with its loads requested. -/
theorem park {loads waits : List Text} (h : Ordered [r] a m)
    (hreq : requestLoads r loads a = .ok (waits, a')) (doc : Tree.NodeId) (extended : Text) :
    Ordered [] { a' with parked := ⟨r, doc, extended, waits⟩ :: a'.parked } m := by
  obtain ⟨hwaits, new, rfl, hnodup, hnew, hsched⟩ := requestLoads_ok hreq
  have hr : r ∈ live [r] a := List.mem_cons_self
  have hperm : (live [] { a with
      scheduled := (new.map (·.name)).reverse ++ a.scheduled, queue := a.queue ++ new
      parked := ⟨r, doc, extended, waits⟩ :: a.parked }).Perm (new ++ live [r] a) := by
    simp only [live, List.map_cons, List.nil_append, List.append_assoc, List.singleton_append]
    refine (List.perm_append_comm_assoc _ _ _).trans (List.Perm.append_left _ ?_)
    exact List.perm_middle
  have hmem : ∀ q, q ∈ live [] { a with
      scheduled := (new.map (·.name)).reverse ++ a.scheduled, queue := a.queue ++ new
      parked := ⟨r, doc, extended, waits⟩ :: a.parked } ↔ q ∈ new ∨ q ∈ live [r] a := by
    intro q
    rw [hperm.mem_iff, List.mem_append]
  have hlater : ∀ q ∈ new, q.name ∉ a.finished := by
    intro q hq
    have hwait := (hnew q hq).2.2.1
    rw [hwaits, List.mem_filter] at hwait
    simpa using hwait.2
  exact
    { output := h.output
      mem := (hmem m).mpr (.inr h.mem)
      extending := h.extending
      loaded := fun q hq hqm => ((hmem q).mp hq).elim (fun hq => (hnew q hq).1)
        fun hq => h.loaded q hq hqm
      nodup := by
        rw [(hperm.map _).nodup_iff, List.map_append, List.nodup_append']
        refine ⟨hnodup, h.nodup, fun x hx hx' => ?_⟩
        obtain ⟨q, hq, rfl⟩ := List.mem_map.mp hx
        obtain ⟨q', hq', hqq'⟩ := List.mem_map.mp hx'
        exact (hnew q hq).2.2.2 (hqq' ▸ h.scheduled q' hq')
      scheduled := fun q hq => ((hmem q).mp hq).elim
        (fun hq => hsched _ (hnew q hq).2.2.1) fun hq => List.mem_append_right _ (h.scheduled q hq)
      requested := by
        intro q hq hl
        rcases (hmem q).mp hq with hq | hq
        · obtain ⟨-, hchain, hwait, -⟩ := hnew q hq
          exact ⟨hlater q hq, _, List.mem_cons_self, hchain, hwait⟩
        · obtain ⟨hfin, p, hp, hrest⟩ := h.requested q hq hl
          exact ⟨hfin, p, List.mem_cons_of_mem _ hp, hrest⟩ }

/-- Finishing a request in hand that was made by loading. -/
theorem finishLoaded (h : Ordered [r] a m) (hl : r.isLoaded = true) :
    Ordered [] { a with finished := r.name :: a.finished } m := by
  have hlive : ∀ q ∈ live [] a, q ∈ live [r] a := fun q hq => List.mem_cons_of_mem _ hq
  obtain ⟨hr, hnodup⟩ := List.nodup_cons.mp h.nodup
  exact
    { output := h.output
      mem := by
        rcases List.mem_cons.mp h.mem with rfl | hm
        · simp [h.extending] at hl
        · exact hm
      extending := h.extending
      loaded := fun q hq => h.loaded q (hlive q hq)
      nodup := hnodup
      scheduled := fun q hq => h.scheduled q (hlive q hq)
      requested := by
        intro q hq hl
        obtain ⟨hfin, hp⟩ := h.requested q (hlive q hq) hl
        refine ⟨fun hmem => ?_, hp⟩
        rcases List.mem_cons.mp hmem with hname | hmem
        · exact hr (List.mem_map.mpr ⟨q, hq, hname⟩)
        · exact hfin hmem }

/-- Finishing the request `m` when it extends a template: that one takes its place. -/
theorem finishExtending (h : Ordered [m] a m) (u : Text) :
    Ordered [] { a with finished := m.name :: a.finished, scheduled := u :: a.scheduled
                        queue := a.queue ++ [{ name := u, chain := m.chain ++ [u] }] }
      { name := u, chain := m.chain ++ [u] } := by
  obtain ⟨hqueue, hparked⟩ := h.alone
  have hmem : ∀ r, r ∈ live [] { a with
      finished := m.name :: a.finished, scheduled := u :: a.scheduled
      queue := a.queue ++ [{ name := u, chain := m.chain ++ [u] }] } ↔
      r = { name := u, chain := m.chain ++ [u] } := by
    simp [live, hqueue, hparked]
  exact
    { output := h.output
      mem := (hmem _).mpr rfl
      extending := rfl
      loaded := fun r hr hne => absurd ((hmem r).mp hr) hne
      nodup := by simp [live, hqueue, hparked]
      scheduled := fun r hr => by rw [(hmem r).mp hr]; exact List.mem_cons_self
      requested := fun r hr hl => by rw [(hmem r).mp hr] at hl; cases hl }

end Ordered

end Stencil.Agenda
