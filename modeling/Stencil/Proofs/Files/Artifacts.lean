import Stencil.Streams
import Stencil.Proofs.Files.Cleaning

/-!
# Where compiled templates are kept

The path of a compiled template has one component for each template it was assembled from, in the
order of the sorted names, and one for its own name. The names are flattened to be single
components, and flattening is many-to-one: `a/b` and `a:b` end up in the same place. So two compiled
templates are kept apart as far as their flattened names tell them apart. A dependency with an empty
name or one called `.` is no component at all, since cleaning drops both.

## Main definitions

* `Streams.segments` – the components that stand for the dependencies

## Main results

* `Text.sort_eq_sort_iff` – sorting forgets the order and nothing else
* `Streams.compiledPath_eq_iff` – when two compiled templates are kept in the same place
-/

namespace Stencil

/-! ### Sorted texts -/

namespace Text

variable {t u v : Text} {ts us : List Text}

theorem le_total (t u : Text) : le t u || le u t := by
  induction t generalizing u with
  | nil => rfl
  | cons a t ih =>
    cases u with
    | nil => rfl
    | cons b u =>
      have hrest := ih u
      simp only [le, Bool.or_eq_true, Bool.and_eq_true, decide_eq_true_eq, beq_iff_eq] at hrest ⊢
      by_cases heq : a = b
      · exact hrest.imp (fun h => .inr ⟨heq, h⟩) fun h => .inr ⟨heq.symm, h⟩
      · exact (UInt8.lt_or_lt_of_ne heq).imp .inl .inl

theorem le_trans (htu : le t u) (huv : le u v) : le t v := by
  induction t generalizing u v with
  | nil => rfl
  | cons a t ih =>
    cases u with
    | nil => cases htu
    | cons b u =>
      cases v with
      | nil => cases huv
      | cons c v =>
        simp only [le, Bool.or_eq_true, Bool.and_eq_true, decide_eq_true_eq,
          beq_iff_eq] at htu huv ⊢
        rcases htu with hab | ⟨rfl, htu⟩ <;> rcases huv with hbc | ⟨rfl, huv⟩
        · exact .inl (UInt8.lt_trans hab hbc)
        · exact .inl hab
        · exact .inl hbc
        · exact .inr ⟨rfl, ih htu huv⟩

theorem le_antisymm (htu : le t u) (hut : le u t) : t = u := by
  induction t generalizing u with
  | nil =>
    cases u with
    | nil => rfl
    | cons b u => cases hut
  | cons a t ih =>
    cases u with
    | nil => cases htu
    | cons b u =>
      simp only [le, Bool.or_eq_true, Bool.and_eq_true, decide_eq_true_eq, beq_iff_eq] at htu hut
      rcases htu with hab | ⟨rfl, htu⟩
      · rcases hut with hba | ⟨rfl, -⟩
        · exact absurd hba (UInt8.lt_asymm hab)
        · exact absurd hab (UInt8.lt_irrefl _)
      · exact congrArg _ (ih htu (hut.resolve_left (UInt8.lt_irrefl _)).2)

theorem sort_perm (ts : List Text) : (sort ts).Perm ts := List.mergeSort_perm ts le

theorem sort_sorted (ts : List Text) : (sort ts).Pairwise fun t u => le t u :=
  @List.pairwise_mergeSort _ le (fun _ _ _ => le_trans) le_total ts

/-- **Sorting forgets the order** and nothing else. -/
theorem sort_eq_sort_iff : sort ts = sort us ↔ ts.Perm us := by
  constructor
  · intro h
    exact (sort_perm ts).symm.trans (h ▸ sort_perm us)
  · intro h
    exact ((sort_perm ts).trans (h.trans (sort_perm us).symm)).eq_of_pairwise
      (fun _ _ _ _ => le_antisymm) (sort_sorted ts) (sort_sorted us)

end Text

namespace Path

variable {dir : Text} {p : Text} {ps qs : List Text}

theorem clean_ne_nil (p : Text) : clean p ≠ [] := by
  rw [clean]
  split
  · exact List.cons_ne_nil _ _
  · split
    · decide
    · assumption

theorem join_ne_nil (hmem : p ∈ ps) (hp : p ≠ []) : join ps ≠ [] := by
  induction ps with
  | nil => cases hmem
  | cons q ps ih =>
    by_cases hq : q = []
    · subst hq
      rw [join_nil_cons]
      exact ih ((List.mem_cons.mp hmem).resolve_left hp)
    · rw [join_cons hq]
      exact clean_ne_nil _

/-- Behind a directory, single components that do not go back up tell paths apart, as far as they go
anywhere. -/
theorem join_cons_eq_iff (hps : ∀ c ∈ ps, 0x2f ∉ c ∧ c ≠ "..") (hqs : ∀ c ∈ qs, 0x2f ∉ c ∧ c ≠ "..")
    (hp : join (dir :: ps) ≠ []) (hq : join (dir :: qs) ≠ []) :
    join (dir :: ps) = join (dir :: qs) ↔ ps.filter isProper = qs.filter isProper := by
  have hcs {rs : List Text} (h : ∀ c ∈ rs, 0x2f ∉ c ∧ c ≠ "..") :
      cleanComponents (join (dir :: rs)) = cleanComponents dir ++ rs.filter isProper := by
    rw [cleanComponents_join_cons, flatMap_components fun c hc => (h c hc).1]
    intro c hc hup
    rw [components_of_not_mem (h c hc).1, List.mem_singleton] at hup
    exact (h c hc).2 hup.symm
  have habsolute {rs : List Text} (h : ∀ c ∈ rs, 0x2f ∉ c ∧ c ≠ "..") :
      isAbsolute (join (dir :: rs)) = isAbsolute dir := by
    by_cases hdir : dir = []
    · rw [hdir, join_nil_cons, isAbsolute_join_of_not_mem fun c hc => (h c hc).1]
      rfl
    · exact isAbsolute_join_cons hdir
  rw [← clean_join _ hp, ← clean_join _ hq, clean_eq_clean_iff, habsolute hps,
    habsolute hqs, hcs hps, hcs hqs, List.append_cancel_left_eq]
  exact and_iff_right rfl

end Path

namespace Streams

variable {s : Streams} {name n₁ n₂ d : Text} {D D₁ D₂ : List Text}

/-! ### Flattened names -/

theorem not_mem_flatten (name : Text) : 0x2f ∉ flatten name := by
  rw [flatten, List.mem_map]
  rintro ⟨b, -, hb⟩
  split at hb
  · exact absurd hb (by decide)
  · rename_i hno
    exact hno (.inl hb)

/-- Flattening makes no dots. -/
theorem flatten_eq_dots_iff {n : Nat} :
    flatten name = List.replicate n 0x2e ↔ name = List.replicate n 0x2e := by
  induction name generalizing n with
  | nil => rfl
  | cons b name ih =>
    cases n with
    | zero => simp [flatten]
    | succ n =>
      rw [List.replicate_succ, List.cons.injEq, ← ih, flatten, List.map_cons, List.cons.injEq]
      refine and_congr ?_ Iff.rfl
      by_cases hb : b = 0x2f ∨ b = 0x3a ∨ b = 0x5c
      · rw [if_pos hb]
        rcases hb with rfl | rfl | rfl <;> decide
      · rw [if_neg hb]

/-- What a dependency is a component for. -/
theorem isProper_flatten_iff : Path.isProper (flatten d) ↔ d ≠ [] ∧ d ≠ "." := by
  have hempty : flatten d = [] ↔ d = [] := flatten_eq_dots_iff (n := 0)
  have hdot : flatten d = "." ↔ d = "." := flatten_eq_dots_iff (n := 1)
  simp [Path.isProper, hempty, hdot]

/-- A name that is accepted is not the parent directory. -/
theorem ne_up_of_sourcePath {path : Text}
    (h : ({ s with allowRelative := false } : Streams).sourcePath d = .ok path) : d ≠ ".." := by
  rintro rfl
  have hup : splitName ".." = (defaultName, (".." : Text)) := by decide
  have hdots : hasDoubleDot ".." := by decide
  rw [sourcePath, hup] at h
  dsimp only at h
  split at h
  · cases h
  · rw [if_pos (by simp [hdots])] at h
    cases h

/-! ### Compiled templates -/

/-- The components that stand for the dependencies of a compiled template. -/
def segments (D : List Text) : List Text := ((Text.sort D).map flatten).filter Path.isProper

theorem segments_congr (h : D₁.Perm D₂) : segments D₁ = segments D₂ := by
  rw [segments, segments, Text.sort_eq_sort_iff.mpr h]

/-- Names that flattening tells apart are told apart by their components. -/
theorem perm_of_segments_eq (h : segments D₁ = segments D₂)
    (hnames : ∀ d ∈ D₁ ++ D₂, d ≠ [] ∧ d ≠ ".")
    (hflatten : ∀ d ∈ D₁, ∀ e ∈ D₂, flatten d = flatten e → d = e) : D₁.Perm D₂ := by
  have hall {D : List Text} (hD : ∀ d ∈ D, d ≠ [] ∧ d ≠ ".") :
      segments D = (Text.sort D).map flatten := by
    refine List.filter_eq_self.mpr fun c hc => ?_
    obtain ⟨d, hd, rfl⟩ := List.mem_map.mp hc
    exact isProper_flatten_iff.mpr (hD d ((Text.sort_perm D).mem_iff.mp hd))
  rw [hall fun d hd => hnames d (List.mem_append_left _ hd),
    hall fun d hd => hnames d (List.mem_append_right _ hd)] at h
  refine Text.sort_eq_sort_iff.mp (List.ext_getElem (by simpa using congrArg List.length h)
    fun i h₁ h₂ => ?_)
  refine hflatten _ ((Text.sort_perm D₁).mem_iff.mp (List.getElem_mem h₁)) _
    ((Text.sort_perm D₂).mem_iff.mp (List.getElem_mem h₂)) ?_
  simpa [h₁, h₂] using congrArg (·[i]?) h

/-- The last component of the path of a compiled template, which stands for its own name. -/
def fileName (name : Text) : Text := flatten name ++ ".php"

theorem fileName_ne {t : Text} (h : t.length < 4) : fileName name ≠ t := by
  rintro rfl
  rw [fileName, List.length_append] at h
  exact absurd h (by simp [show (".php" : Text).length = 4 from by decide])

theorem isProper_fileName (name : Text) : Path.isProper (fileName name) := by
  have hempty : fileName name ≠ [] := fileName_ne (by decide)
  have hdot : fileName name ≠ "." := fileName_ne (by decide)
  simp [Path.isProper, hempty, hdot]

/-- The components behind the directory of compiled templates are single, and none goes back up. -/
theorem component_of_compiledPath
    (h : ∀ d ∈ D, ∃ path, ({ s with allowRelative := false } : Streams).sourcePath d = .ok path) :
    ∀ c ∈ (Text.sort D).map flatten ++ [fileName name], 0x2f ∉ c ∧ c ≠ ".." := by
  intro c hc
  rcases List.mem_append.mp hc with hc | hc
  · obtain ⟨d, hd, rfl⟩ := List.mem_map.mp hc
    obtain ⟨path, hpath⟩ := h d ((Text.sort_perm D).mem_iff.mp hd)
    exact ⟨not_mem_flatten d, fun hup =>
      ne_up_of_sourcePath hpath ((flatten_eq_dots_iff (n := 2)).mp hup)⟩
  · obtain rfl := List.mem_singleton.mp hc
    refine ⟨fun hmem => ?_, fileName_ne (by decide)⟩
    exact (List.mem_append.mp hmem).elim (not_mem_flatten name) (by decide)

/-- **Compiled templates are kept apart as far as their flattened names are.** -/
theorem compiledPath_eq_iff
    (h₁ : ∀ d ∈ D₁, ∃ path, ({ s with allowRelative := false } : Streams).sourcePath d = .ok path)
    (h₂ : ∀ d ∈ D₂, ∃ path, ({ s with allowRelative := false } : Streams).sourcePath d = .ok path) :
    (s.compiledPath n₁ D₁ = s.compiledPath n₂ D₂ ↔
      flatten n₁ = flatten n₂ ∧ segments D₁ = segments D₂) ∧
    (n₁ = n₂ → D₁.Perm D₂ → s.compiledPath n₁ D₁ = s.compiledPath n₂ D₂) ∧
    ((flatten n₁ = flatten n₂ → n₁ = n₂) →
      (∀ d ∈ D₁, ∀ e ∈ D₂, flatten d = flatten e → d = e) → (∀ d ∈ D₁ ++ D₂, d ≠ [] ∧ d ≠ ".") →
      s.compiledPath n₁ D₁ = s.compiledPath n₂ D₂ → n₁ = n₂ ∧ D₁.Perm D₂) := by
  have hkept : s.compiledPath n₁ D₁ = s.compiledPath n₂ D₂ ↔
      flatten n₁ = flatten n₂ ∧ segments D₁ = segments D₂ := by
    have hne (n : Text) (D : List Text) :
        Path.join (s.compileDir :: ((Text.sort D).map flatten ++ [fileName n])) ≠ [] :=
      Path.join_ne_nil (by simp) (fileName_ne (by decide) : fileName n ≠ [])
    have hfile (n : Text) : [fileName n].filter Path.isProper = [fileName n] := by
      simp [isProper_fileName n]
    change Path.join (s.compileDir :: ((Text.sort D₁).map flatten ++ [fileName n₁])) =
      Path.join (s.compileDir :: ((Text.sort D₂).map flatten ++ [fileName n₂])) ↔ _
    rw [Path.join_cons_eq_iff (component_of_compiledPath h₁) (component_of_compiledPath h₂)
      (hne n₁ D₁) (hne n₂ D₂), List.filter_append, List.filter_append, hfile, hfile,
      List.append_singleton_inj, and_comm]
    exact and_congr_left' (List.append_left_inj _)
  refine ⟨hkept, ?_, ?_⟩
  · rintro rfl hperm
    exact hkept.mpr ⟨rfl, segments_congr hperm⟩
  · intro hname hflatten hnames heq
    obtain ⟨hfile, hsegments⟩ := hkept.mp heq
    exact ⟨hname hfile, perm_of_segments_eq hsegments hnames hflatten⟩

/-- Two templates that are accepted and kept in one place. -/
theorem compiledPath_collides :
    let s := ofDirectories "src" "out"
    s.allowRelative = false ∧
    (s.sourcePath "a/b").toOption = some ("src/a/b" : Text) ∧
    (s.sourcePath "a_b").toOption = some ("src/a_b" : Text) ∧
    s.compiledPath "a/b" [] = s.compiledPath "a_b" [] ∧ ("a/b" : Text) ≠ "a_b" := by
  decide +kernel

/-- A page with two layouts, listed in either order; one that leaves a layout out; and one whose
layout is flattened to the name of another. -/
theorem compiledPath_eq_iff_layouts :
    let s : Streams := ⟨[("default", "src"), ("layouts", "shared")], "out", false⟩
    s.compiledPath "page" ["layouts:main", "base"] =
      s.compiledPath "page" ["base", "layouts:main"] ∧
    s.compiledPath "page" ["base"] ≠ s.compiledPath "page" ["base", "layouts:main"] ∧
    s.compiledPath "page" ["layouts:main"] = s.compiledPath "page" ["layouts/main"] := by
  intro s
  have haccepts {D : List Text}
      (h : D.all fun d => ((s.sourcePath d).toOption).isSome) :
      ∀ d ∈ D, ∃ path, ({ s with allowRelative := false } : Streams).sourcePath d = .ok path := by
    intro d hd
    have hd := List.all_eq_true.mp h d hd
    cases hpath : s.sourcePath d with
    | error e =>
      rw [hpath] at hd
      cases hd
    | ok path => exact ⟨path, rfl⟩
  have hone := haccepts (D := ["layouts:main", "base"]) (by decide)
  have hother := haccepts (D := ["base", "layouts:main"]) (by decide)
  have hbase := haccepts (D := ["base"]) (by decide)
  have hstream := haccepts (D := ["layouts:main"]) (by decide)
  have hfolder := haccepts (D := ["layouts/main"]) (by decide)
  refine ⟨(compiledPath_eq_iff hone hother).2.1 rfl (List.Perm.swap _ _ _), fun heq => ?_,
    (compiledPath_eq_iff hstream hfolder).1.mpr (by decide +kernel)⟩
  obtain ⟨-, hperm⟩ := (compiledPath_eq_iff hbase hother).2.2 (fun _ => rfl) (by decide)
    (by decide) heq
  exact absurd hperm.length_eq (by decide)

end Streams

end Stencil
