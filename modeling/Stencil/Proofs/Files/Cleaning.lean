import Stencil.Proofs.Artifact.Lists
import Stencil.Files.Basic

/-!
# Cleaned paths

Cleaning a path leaves components that are *settled*: none is empty or a single dot, and double dots
stand in front, where there is nothing to cancel, and only in relative paths. Settled components are
left alone when they are cleaned again, so a cleaned path is told from others by its components and
by whether it starts at the root, and by nothing else.

Joining paths adds up their components. If nothing that is joined to a directory goes back up, the
components of the directory stay in front.

## Main definitions

* `Path.Settled` – components that cleaning leaves alone
* `Path.Below` – a path is a directory, or lies below it

## Main results

* `Path.cleanComponents_clean`, `Path.clean_clean` – cleaning twice is cleaning once
* `Path.clean_eq_clean_iff` – when two paths are the same
* `Path.cleanComponents_join_cons` – what is joined to a directory stands behind it
-/

namespace Stencil.Path

variable {p q dir c : Text} {cs ps stack : List Text} {absolute : Bool}

/-! ### Components -/

theorem splitAt_eq_splitOn (b : UInt8) (t : Text) : splitAt b t = t.splitOn b := by
  induction t with
  | nil => rfl
  | cons c t ih =>
    rw [splitAt, List.splitOn_cons_eq_if_modifyHead, ih]
    by_cases h : c = b
    · rw [if_pos h, if_pos (by simpa using h)]
    · rw [if_neg h, if_neg (by simpa using h)]
      cases hparts : t.splitOn b with
      | nil => exact absurd hparts (List.splitOn_ne_nil b t)
      | cons part parts => rfl

theorem components_ne_nil (p : Text) : components p ≠ [] := by
  rw [components, splitAt_eq_splitOn]
  exact List.splitOn_ne_nil 0x2f p

/-- A slash separates the components before it from those behind it. -/
theorem components_append (p q : Text) :
    components (p ++ 0x2f :: q) = components p ++ components q := by
  simp only [components, splitAt_eq_splitOn]
  exact List.splitOn_append_cons_self p q

theorem components_slash (p : Text) : components (0x2f :: p) = [] :: components p :=
  components_append [] p

/-- A text without slashes is a single component. -/
theorem components_of_not_mem (h : 0x2f ∉ c) : components c = [c] := by
  rw [components, splitAt_eq_splitOn]
  exact List.splitOn_eq_singleton h

theorem not_mem_of_mem_components (h : c ∈ components p) : 0x2f ∉ c := by
  rw [components] at h
  induction p generalizing c with
  | nil =>
    obtain rfl := List.mem_singleton.mp h
    exact List.not_mem_nil
  | cons b p ih =>
    rw [splitAt] at h
    split at h
    · rcases List.mem_cons.mp h with rfl | h
      · exact List.not_mem_nil
      · exact ih h
    · rename_i hb
      split at h
      · rename_i hparts
        exact absurd hparts (components_ne_nil p)
      · rename_i part parts hparts
        rw [hparts] at ih
        rcases List.mem_cons.mp h with rfl | h
        · rw [List.mem_cons, not_or]
          exact ⟨fun heq => hb heq.symm, ih List.mem_cons_self⟩
        · exact ih (List.mem_cons_of_mem part h)

/-- The components of texts with slashes between them are those of the texts. -/
theorem components_join (h : ps ≠ []) : components (Text.join "/" ps) = ps.flatMap components := by
  induction ps with
  | nil => exact absurd rfl h
  | cons p ps ih =>
    cases ps with
    | nil => simp [Text.join, List.intercalate]
    | cons q ps =>
      have hsep : Text.join "/" (p :: q :: ps) = p ++ 0x2f :: Text.join "/" (q :: ps) := by
        rw [Text.join_cons_cons, List.append_assoc]
        rfl
      rw [hsep, components_append, ih (List.cons_ne_nil q ps)]
      rfl

theorem join_components (p : Text) : Text.join "/" (components p) = p := by
  rw [components, splitAt_eq_splitOn]
  exact List.intercalate_splitOn 0x2f

theorem flatMap_components (h : ∀ c ∈ cs, 0x2f ∉ c) : cs.flatMap components = cs := by
  induction cs with
  | nil => rfl
  | cons c cs ih =>
    obtain ⟨hc, hcs⟩ := List.forall_mem_cons.mp h
    rw [List.flatMap_cons, components_of_not_mem hc, ih hcs, List.singleton_append]

/-! ### Settled components -/

/-- The components, last first, that cleaning leaves alone. -/
inductive Settled (absolute : Bool) : List Text → Prop
  /-- There are none. -/
  | nil : Settled absolute []
  /-- A name. -/
  | name {c : Text} {stack : List Text} : Settled absolute stack → c ≠ [] → c ≠ "." → c ≠ ".." →
      Settled absolute (c :: stack)
  /-- A double dot that has nothing to cancel. -/
  | up {stack : List Text} : Settled absolute stack → absolute = false → (∀ d ∈ stack, d = "..") →
      Settled absolute (".." :: stack)

namespace Settled

theorem tail (h : Settled absolute (c :: stack)) : Settled absolute stack := by
  cases h <;> assumption

theorem ne_nil (h : Settled absolute stack) : ∀ c ∈ stack, c ≠ [] := by
  induction h with
  | nil => exact List.forall_mem_nil _
  | name _ hc _ _ ih => exact List.forall_mem_cons.mpr ⟨hc, ih⟩
  | up _ _ _ ih => exact List.forall_mem_cons.mpr ⟨by decide, ih⟩

/-- Going on from settled components leads to settled components. -/
theorem descend (h : Settled absolute stack) (c : Text) :
    Settled absolute (descend absolute stack c) := by
  rw [Path.descend.eq_def]
  split
  · exact h
  rename_i hc
  obtain ⟨hempty, hdot⟩ := not_or.mp hc
  split
  · rename_i hup
    cases h with
    | nil =>
      dsimp only
      split
      · exact .nil
      · rename_i hrelative
        exact hup ▸ .up .nil (by simpa using hrelative) (List.forall_mem_nil _)
    | name hstack _ _ htop =>
      dsimp only
      rw [if_neg htop]
      exact hstack
    | up hstack hrelative hall =>
      dsimp only
      rw [if_pos rfl, hup]
      exact .up (.up hstack hrelative hall) hrelative (List.forall_mem_cons.mpr ⟨rfl, hall⟩)
  · rename_i hup
    exact .name h hempty hdot hup

theorem foldl (h : Settled absolute stack) (cs : List Text) :
    Settled absolute (cs.foldl (Path.descend absolute) stack) := by
  induction cs generalizing stack with
  | nil => exact h
  | cons c cs ih => exact ih (h.descend c)

theorem descend_eq (h : Settled absolute (c :: stack)) :
    Path.descend absolute stack c = c :: stack := by
  rw [Path.descend.eq_def]
  cases h with
  | name _ hempty hdot hup => rw [if_neg (not_or.mpr ⟨hempty, hdot⟩), if_neg hup]
  | up hstack hrelative hall =>
    rw [if_neg (by decide), if_pos rfl]
    cases stack with
    | nil => simp [hrelative]
    | cons top rest => simp [hall top List.mem_cons_self]

/-- **Settled components are left alone.** -/
theorem foldl_reverse (h : Settled absolute stack) :
    stack.reverse.foldl (Path.descend absolute) [] = stack := by
  induction stack with
  | nil => rfl
  | cons c stack ih =>
    rw [List.reverse_cons, List.foldl_append, ih h.tail, List.foldl_cons,
      h.descend_eq, List.foldl_nil]

end Settled

theorem mem_of_mem_foldl_descend (h : c ∈ cs.foldl (descend absolute) stack) :
    c ∈ cs ∨ c ∈ stack := by
  induction cs generalizing stack with
  | nil => exact .inr h
  | cons d cs ih =>
    rcases ih h with h | h
    · exact .inl (List.mem_cons_of_mem d h)
    · have hstep : c = d ∨ c ∈ stack := by
        rw [descend.eq_def] at h
        split at h
        · exact .inr h
        split at h
        · split at h
          · split at h
            · cases h
            · exact .inl (List.mem_singleton.mp h)
          · split at h
            · exact List.mem_cons.mp h
            · exact .inr (List.mem_cons_of_mem _ h)
        · exact List.mem_cons.mp h
      rcases hstep with rfl | h
      · exact .inl List.mem_cons_self
      · exact .inr h

theorem settled_cleanComponents (p : Text) :
    Settled (isAbsolute p) (cleanComponents p).reverse := by
  rw [cleanComponents, List.reverse_reverse]
  exact Settled.nil.foldl _

theorem ne_nil_of_mem_cleanComponents (h : c ∈ cleanComponents p) : c ≠ [] :=
  (settled_cleanComponents p).ne_nil c (List.mem_reverse.mpr h)

theorem not_mem_of_mem_cleanComponents (h : c ∈ cleanComponents p) : 0x2f ∉ c := by
  rw [cleanComponents, List.mem_reverse] at h
  exact (mem_of_mem_foldl_descend h).elim not_mem_of_mem_components (absurd · List.not_mem_nil)

/-! ### Cleaning -/

theorem join_cleanComponents_eq_nil_iff :
    Text.join "/" (cleanComponents p) = [] ↔ cleanComponents p = [] := by
  refine ⟨fun h => ?_, fun h => by rw [h]; rfl⟩
  cases hcs : cleanComponents p with
  | nil => rfl
  | cons c cs =>
    have hc : c ≠ [] := ne_nil_of_mem_cleanComponents (hcs ▸ List.mem_cons_self)
    rw [hcs] at h
    cases cs with
    | nil => exact absurd (by simpa [Text.join, List.intercalate] using h) hc
    | cons d cs =>
      rw [Text.join_cons_cons] at h
      exact absurd (List.append_eq_nil_iff.mp (List.append_eq_nil_iff.mp h).1).1 hc

theorem isAbsolute_join_cleanComponents :
    isAbsolute (Text.join "/" (cleanComponents p)) = false := by
  cases hcs : cleanComponents p with
  | nil => rfl
  | cons c cs =>
    have hmem : c ∈ cleanComponents p := hcs ▸ List.mem_cons_self
    have hc := not_mem_of_mem_cleanComponents hmem
    cases c with
    | nil => exact absurd rfl (ne_nil_of_mem_cleanComponents hmem)
    | cons b c =>
      have hb : b ≠ 0x2f := fun heq => hc (heq ▸ List.mem_cons_self)
      cases cs <;> simp [isAbsolute, Text.join, List.intercalate, hb]

/-- Cleaning keeps whether a path starts at the root. -/
theorem isAbsolute_clean (p : Text) : isAbsolute (clean p) = isAbsolute p := by
  rw [clean]
  split
  · rename_i h
    rw [h]
    rfl
  · rename_i h
    rw [Bool.not_eq_true] at h
    rw [h]
    split
    · rfl
    · exact isAbsolute_join_cleanComponents

theorem foldl_components_clean (p : Text) :
    (components (clean p)).foldl (descend (isAbsolute p)) [] = (cleanComponents p).reverse := by
  have hsettled := settled_cleanComponents p
  have hslash : ∀ c ∈ cleanComponents p, 0x2f ∉ c := fun c => not_mem_of_mem_cleanComponents
  have hrest : (components (Text.join "/" (cleanComponents p))).foldl (descend (isAbsolute p)) [] =
      (cleanComponents p).reverse := by
    by_cases hcs : cleanComponents p = []
    · rw [hcs]
      rfl
    · rw [components_join hcs, flatMap_components hslash]
      simpa using hsettled.foldl_reverse
  rw [clean]
  split
  · change (components (0x2f :: Text.join "/" (cleanComponents p))).foldl _ _ = _
    rw [components_slash, List.foldl_cons]
    exact hrest
  · split
    · rename_i hempty
      rw [join_cleanComponents_eq_nil_iff.mp hempty]
      rfl
    · exact hrest

/-- Cleaning keeps the components that are left of a path. -/
theorem cleanComponents_clean (p : Text) : cleanComponents (clean p) = cleanComponents p := by
  rw [cleanComponents, isAbsolute_clean, foldl_components_clean, List.reverse_reverse]

/-- **Two paths are the same** if both or none start at the root, and the same components are left
of them. -/
theorem clean_eq_clean_iff :
    clean p = clean q ↔ isAbsolute p = isAbsolute q ∧ cleanComponents p = cleanComponents q := by
  constructor
  · intro h
    exact ⟨by rw [← isAbsolute_clean p, h, isAbsolute_clean],
      by rw [← cleanComponents_clean p, h, cleanComponents_clean]⟩
  · rintro ⟨habsolute, hcs⟩
    rw [clean, clean, habsolute, hcs]

/-- Cleaning a path twice is cleaning it once. -/
theorem clean_clean (p : Text) : clean (clean p) = clean p :=
  clean_eq_clean_iff.mpr ⟨isAbsolute_clean p, cleanComponents_clean p⟩

/-! ### Joining -/

theorem join_nil_cons (ps : List Text) : join ([] :: ps) = join ps := rfl

theorem join_cons (h : p ≠ []) : join (p :: ps) = clean (Text.join "/" (p :: ps)) := by
  rw [join, List.dropWhile_cons_of_neg (by simpa using h)]

theorem clean_join (ps : List Text) (h : join ps ≠ []) : clean (join ps) = join ps := by
  rw [join] at h ⊢
  split
  · rename_i hnone
    rw [hnone] at h
    exact absurd rfl h
  · exact clean_clean _

theorem isAbsolute_join_cons (h : p ≠ []) : isAbsolute (join (p :: ps)) = isAbsolute p := by
  rw [join_cons h, isAbsolute_clean]
  cases p with
  | nil => exact absurd rfl h
  | cons b p => cases ps <;> simp [isAbsolute, Text.join, List.intercalate]

/-- What is left of a component that goes nowhere else. -/
def isProper (c : Text) : Bool := c ≠ [] && c ≠ "."

theorem foldl_descend_of_not_up (h : (".." : Text) ∉ cs) :
    cs.foldl (descend absolute) stack = (cs.filter isProper).reverse ++ stack := by
  induction cs generalizing stack with
  | nil => rfl
  | cons c cs ih =>
    obtain ⟨hc, hcs⟩ := not_or.mp (mt List.mem_cons.mpr h)
    rw [List.foldl_cons, ih hcs, descend.eq_def]
    by_cases hproper : c = [] ∨ c = "."
    · have hskip : isProper c = false := by rcases hproper with rfl | rfl <;> decide
      rw [if_pos hproper, List.filter_cons_of_neg (by simp [hskip])]
    · obtain ⟨hempty, hdot⟩ := not_or.mp hproper
      rw [if_neg hproper, if_neg (Ne.symm hc),
        List.filter_cons_of_pos (by simp [isProper, hempty, hdot])]
      simp

/-- **What is joined to a directory stands behind it**, if none of it goes back up. -/
theorem cleanComponents_join_cons (h : ∀ p ∈ ps, (".." : Text) ∉ components p) :
    cleanComponents (join (dir :: ps)) =
      cleanComponents dir ++ (ps.flatMap components).filter isProper := by
  have hup : (".." : Text) ∉ ps.flatMap components := by
    rw [List.mem_flatMap]
    rintro ⟨p, hp, hmem⟩
    exact h p hp hmem
  by_cases hdir : dir = []
  · subst hdir
    rw [join_nil_cons]
    change _ = [] ++ _
    rw [List.nil_append]
    clear h
    -- empty texts in front are left out
    induction ps with
    | nil => rfl
    | cons p ps ih =>
      by_cases hp : p = []
      · subst hp
        rw [join_nil_cons, ih fun hmem => hup (by simp [hmem]), List.flatMap_cons]
        rfl
      · rw [join_cons hp, cleanComponents_clean, cleanComponents,
          components_join (List.cons_ne_nil p ps), foldl_descend_of_not_up hup, List.append_nil,
          List.reverse_reverse]
  · have habsolute : isAbsolute (Text.join "/" (dir :: ps)) = isAbsolute dir := by
      rw [← isAbsolute_clean, ← join_cons hdir, isAbsolute_join_cons hdir]
    rw [join_cons hdir, cleanComponents_clean, cleanComponents, habsolute,
      components_join (List.cons_ne_nil dir ps), List.flatMap_cons, List.foldl_append,
      foldl_descend_of_not_up hup, List.reverse_append, List.reverse_reverse]
    rfl

/-- A text that starts at no root does not lead there. -/
theorem isAbsolute_join_of_not_mem (h : ∀ p ∈ ps, 0x2f ∉ p) : isAbsolute (join ps) = false := by
  induction ps with
  | nil => rfl
  | cons p ps ih =>
    obtain ⟨hp, hps⟩ := List.forall_mem_cons.mp h
    cases p with
    | nil => exact ih hps
    | cons b p =>
      rw [isAbsolute_join_cons (List.cons_ne_nil b p)]
      have hb : b ≠ 0x2f := fun heq => hp (heq ▸ List.mem_cons_self)
      simpa [isAbsolute] using hb

/-! ### Directories -/

/-- A path is a directory, or lies below it: behind the components of the directory it has others,
none of which goes back up. The empty path is the current directory. -/
def Below (dir p : Text) : Prop :=
  isAbsolute p = isAbsolute dir ∧ ∃ rest, (".." : Text) ∉ rest ∧
    cleanComponents p = cleanComponents dir ++ rest

end Stencil.Path
