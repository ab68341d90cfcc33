import Mathlib.Tactic.SplitIfs
import Stencil.Compiler.Source
import Stencil.Config.Basic
import Stencil.Proofs.Data.Action
import Stencil.Proofs.Files.Cleaning

/-!
# Where sources are read, and how much of them

A name without double dots is joined to the directory of its stream, and its components stand behind
those of the directory: the path is below the directory. There is one exception. An empty directory
is left out when paths are joined, so that nothing is in front of the name any more, and a name that
starts with a slash is then a path from the root. The default stream of a valid configuration has a
directory, but further streams may have none.

A source above the size limit is refused, and one below it is read as it stands if the limit fits
into a signed word. Above that the count of bytes to ask for is negative and nothing is read at all.
The largest signed word itself, for which the count would leave the signed words by one, is the
limit of no configuration: sizes are computed with 53 binary digits, and larger ones are even.

## Main results

* `Path.below_join_iff` – when a path without double dots stays in a directory
* `Streams.sourcePath_below_iff` – sources of a valid configuration
* `Number.Fraction.floor_nearest` – rounded fractions are small or even
* `Files.readSource_of_validate` – what is read under the limit of a valid configuration
-/

namespace Stencil

namespace Path

variable {dir p : Text} {ps : List Text}

/-- A path without double dots stays in the directory it is joined to, unless it starts at the root
and the directory is left out. -/
theorem below_join_iff (h : (".." : Text) ∉ components p) :
    Below dir (join [dir, p]) ↔ ¬ (dir = [] ∧ isAbsolute p) := by
  have hcs : cleanComponents (join [dir, p]) =
      cleanComponents dir ++ ([p].flatMap components).filter isProper :=
    cleanComponents_join_cons (by simpa using h)
  have hrest : ∃ rest, (".." : Text) ∉ rest ∧
      cleanComponents (join [dir, p]) = cleanComponents dir ++ rest := by
    refine ⟨_, fun hmem => h ?_, hcs⟩
    simpa using (List.mem_filter.mp hmem).1
  by_cases hdir : dir = []
  · subst hdir
    have habsolute : isAbsolute (join [[], p]) = isAbsolute p := by
      by_cases hp : p = []
      · rw [hp]
        rfl
      · rw [join_nil_cons, isAbsolute_join_cons hp]
    rw [Below, habsolute]
    change isAbsolute p = false ∧ _ ↔ _
    simp [hrest]
  · refine iff_of_true ⟨isAbsolute_join_cons hdir, hrest⟩ fun hno => hdir hno.1

/-! ### Double dots -/

/-- Unifying slashes may only divide components further. -/
theorem components_unifySlashes (p : Text) : components (Streams.unifySlashes p) =
    (components p).flatMap fun c => components (Streams.unifySlashes c) := by
  have hjoin (ps : List Text) : Streams.unifySlashes (Text.join "/" ps) =
      Text.join "/" (ps.map Streams.unifySlashes) := by
    induction ps with
    | nil => rfl
    | cons p ps ih =>
      cases ps with
      | nil => simp [Text.join, List.intercalate]
      | cons q ps =>
        rw [Text.join_cons_cons, List.map_cons, List.map_cons, Text.join_cons_cons, ← List.map_cons,
          ← ih]
        simp only [Streams.unifySlashes, List.map_append]
        rfl
  have hparts : (components p).map Streams.unifySlashes ≠ [] := by
    simpa using components_ne_nil p
  calc components (Streams.unifySlashes p)
      = components (Streams.unifySlashes (Text.join "/" (components p))) := by rw [join_components]
    _ = ((components p).map Streams.unifySlashes).flatMap components := by
      rw [hjoin, components_join hparts]
    _ = _ := List.flatMap_map ..

theorem not_mem_components (h : Streams.hasDoubleDot p = false) : (".." : Text) ∉ components p := by
  intro hmem
  have hfound : Streams.hasDoubleDot p := by
    rw [Streams.hasDoubleDot, List.contains_iff_mem, components_unifySlashes, List.mem_flatMap]
    exact ⟨_, hmem, by decide⟩
  rw [h] at hfound
  cases hfound

end Path

namespace Streams

variable {s : Streams} {c : Config} {name path : Text}

/-- The directory and the path of a source that is accepted. -/
theorem exists_of_sourcePath_ok (hrelative : s.allowRelative = false)
    (h : s.sourcePath name = .ok path) : ∃ dir, s.get? (splitName name).1 = some dir ∧
      path = Path.join [dir, (splitName name).2] ∧
      (".." : Text) ∉ Path.components (splitName name).2 := by
  rw [sourcePath] at h
  dsimp only at h
  split at h
  · cases h
  · rename_i dir hdir
    rw [hrelative] at h
    split at h
    · cases h
    · rename_i hdots
      cases h
      exact ⟨dir, hdir, rfl, Path.not_mem_components (by simpa using hdots)⟩

/-- The stream of a directory. -/
theorem mem_of_get? {stream dir : Text} (h : s.get? stream = some dir) :
    (stream, dir) ∈ s.directories := by
  rw [get?, Option.map_eq_some_iff] at h
  obtain ⟨e, he, rfl⟩ := h
  have hname : e.1 = stream := by simpa using List.find?_some he
  exact hname ▸ List.mem_of_find?_eq_some he

/-- **A template name cannot leave its stream**, unless it starts with a slash and names a further
stream whose directory is empty. -/
theorem sourcePath_below_iff {limit : Nat} (hvalid : c.validate = .ok limit)
    (hrelative : c.allowRelative = false) (h : c.toStreams.sourcePath name = .ok path) :
    ∃ dir, c.toStreams.get? (splitName name).1 = some dir ∧
      (Path.Below dir path ↔ ¬ (dir = [] ∧ Path.isAbsolute (splitName name).2)) ∧
      (dir = [] → ((splitName name).1, dir) ∈ c.streams) := by
  obtain ⟨dir, hdir, rfl, hup⟩ := exists_of_sourcePath_ok hrelative h
  refine ⟨dir, hdir, Path.below_join_iff hup, fun hempty => ?_⟩
  refine (List.mem_cons.mp (mem_of_get? hdir)).resolve_left fun hdefault => ?_
  -- the source directory of a valid configuration is not empty
  have hsource : c.sourceDir = [] := (congrArg Prod.snd hdefault).symm.trans hempty
  rw [Config.validate, if_pos hsource] at hvalid
  cases hvalid

/-- A name in a stream, with slashes and dots of all kinds, and one that leaves a stream without
directory. -/
theorem sourcePath_below_iff_layouts :
    let c : Config := { streams := [("bare", []), ("layouts", "../shared/./layouts")] }
    (∃ limit, c.validate = .ok limit) ∧
    (∃ dir path, c.toStreams.sourcePath "layouts:/a//./b:c\\d" = .ok path ∧
      path = ("../shared/layouts/a/b:c\\d" : Text) ∧ Path.Below dir path) ∧
    ∃ dir path, c.toStreams.sourcePath "bare:/etc/passwd" = .ok path ∧
      path = ("/etc/passwd" : Text) ∧ (("bare" : Text), dir) ∈ c.streams ∧
      ¬ Path.Below dir path := by
  intro c
  have hvalid : c.validate = .ok 4194304 := eq_ok_of_toOption (by decide)
  refine ⟨⟨_, hvalid⟩, ?_, ?_⟩
  · have h : c.toStreams.sourcePath "layouts:/a//./b:c\\d" =
        .ok ("../shared/layouts/a/b:c\\d" : Text) :=
      eq_ok_of_toOption (by decide)
    obtain ⟨dir, hdir, hbelow, -⟩ := sourcePath_below_iff hvalid rfl h
    refine ⟨dir, _, h, rfl, hbelow.mpr fun hno => ?_⟩
    rw [hno.1] at hdir
    exact absurd hdir (by decide)
  · have h : c.toStreams.sourcePath "bare:/etc/passwd" = .ok ("/etc/passwd" : Text) :=
      eq_ok_of_toOption (by decide)
    obtain ⟨dir, hdir, hbelow, hmem⟩ := sourcePath_below_iff hvalid rfl h
    have hempty : dir = [] := by
      have hbare : c.toStreams.get? (splitName "bare:/etc/passwd").1 = some [] := by decide
      exact Option.some.inj (hdir.symm.trans hbare)
    refine ⟨dir, _, h, rfl, hmem hempty, fun hb => hbelow.mp hb ⟨hempty, by decide⟩⟩

end Streams

/-! ### Limits -/

namespace Number

theorem roundDiv_le (n d : Nat) : roundDiv n d ≤ n / d + 1 := by
  rw [roundDiv]
  split_ifs <;> omega

theorem shifted_div_lt {n d k : Nat} (hd : d ≠ 0) (h : n.log2 + k ≤ 52 + d.log2) :
    n * Nat.pow 2 k / d < Nat.pow 2 53 := by
  refine Nat.div_lt_of_lt_mul ?_
  calc n * Nat.pow 2 k < 2 ^ (n.log2 + 1) * 2 ^ k :=
        Nat.mul_lt_mul_of_pos_right Nat.lt_log2_self (Nat.two_pow_pos k)
    _ = 2 ^ (n.log2 + 1 + k) := (Nat.pow_add ..).symm
    _ ≤ 2 ^ (d.log2 + 53) := Nat.pow_le_pow_right Nat.two_pos (by omega)
    _ = 2 ^ d.log2 * 2 ^ 53 := Nat.pow_add ..
    _ ≤ d * 2 ^ 53 := Nat.mul_le_mul_right _ (Nat.log2_self_le hd)

namespace Fraction

/-- Rounding makes a whole number of a fraction that is scaled by a power of two. A fraction that is
not scaled down is then at most of 53 binary digits. -/
theorem exists_nearest_eq {a : Fraction} (h : ¬ (a.num = 0 ∨ a.den = 0)) : ∃ k : Int,
    (0 ≤ k → a.num * Nat.pow 2 k.toNat / a.den < Nat.pow 2 53) ∧
      a.nearest =
        if 0 ≤ k then ⟨roundDiv (a.num * Nat.pow 2 k.toNat) a.den, Nat.pow 2 k.toNat⟩
        else ⟨roundDiv a.num (a.den * Nat.pow 2 (-k).toNat) * Nat.pow 2 (-k).toNat, 1⟩ := by
  rw [nearest, if_neg h]
  dsimp only
  generalize hshift : (53 - (a.num.log2 : Int) + a.den.log2) = shift
  by_cases hs : 0 ≤ shift
  · simp only [if_pos hs]
    split
    · rename_i hlt
      refine ⟨shift, fun _ => hlt, ?_⟩
      simp only [if_pos hs]
    · refine ⟨shift - 1, fun hk => shifted_div_lt (not_or.mp h).2 (by omega), ?_⟩
      split <;> rfl
  · simp only [if_neg hs]
    split
    · refine ⟨shift, fun hk => absurd hk hs, ?_⟩
      simp only [if_neg hs]
    · refine ⟨shift - 1, fun hk => shifted_div_lt (not_or.mp h).2 (by omega), ?_⟩
      split <;> rfl

/-- **The whole part of a rounded fraction is even unless it has at most 53 binary digits.** -/
theorem floor_nearest (a : Fraction) : a.nearest.floor ≤ Nat.pow 2 53 ∨ 2 ∣ a.nearest.floor := by
  by_cases h : a.num = 0 ∨ a.den = 0
  · exact .inl (by rw [nearest, if_pos h]; decide)
  obtain ⟨k, hk, heq⟩ := exists_nearest_eq h
  rw [heq]
  split
  · rename_i hpos
    exact .inl (Nat.le_trans (Nat.div_le_self ..) (Nat.le_trans (roundDiv_le ..) (hk hpos)))
  · rename_i hneg
    obtain ⟨j, hj⟩ : ∃ j, (-k).toNat = j + 1 := ⟨(-k).toNat - 1, by omega⟩
    refine .inr ?_
    rw [floor, Nat.div_one, hj]
    exact Nat.dvd_mul_left_of_dvd (Nat.dvd_mul_left 2 (2 ^ j)) _

end Fraction

end Number

/-- A size that can be read is a word, and not the largest signed one. -/
theorem Size.parse?_bounds {t : Text} {n : Nat} (h : Size.parse? t = some n) :
    n < Number.wordCount ∧ n + 1 ≠ Number.signBit := by
  rw [Size.parse?] at h
  obtain ⟨number, -, h⟩ := Option.bind_eq_some_iff.mp h
  obtain ⟨cs, -, h⟩ := Option.bind_eq_some_iff.mp h
  obtain ⟨bytes, -, h⟩ := Option.bind_eq_some_iff.mp h
  obtain ⟨hlt, hn⟩ := Option.ite_none_right_eq_some.mp h
  obtain rfl := Option.some.inj hn
  refine ⟨hlt, fun heq => ?_⟩
  have hsign : Number.signBit = 2 ^ 63 := rfl
  have hdigits : Nat.pow 2 53 = 2 ^ 53 := rfl
  rcases Number.Fraction.floor_nearest (number.nearest.mul (.ofNat bytes)) with hsmall | heven <;>
    omega

theorem Config.limit_bounds {c : Config} {limit : Nat} (h : c.validate = .ok limit) :
    limit < Number.wordCount ∧ limit + 1 ≠ Number.signBit := by
  rw [validate] at h
  repeat' split at h
  all_goals try cases h
  rename_i hlimit
  rw [limit?] at hlimit
  split at hlimit
  · cases hlimit
    decide
  · exact Size.parse?_bounds hlimit

/-- As many bytes are asked for as the limit and one more, unless that is no signed word: then the
count is not positive. -/
theorem readCount_eq {limit : Nat} (hword : limit < Number.wordCount)
    (hne : limit + 1 ≠ Number.signBit) :
    (readCount limit).toNat = if limit < Number.signBit then limit + 1 else 0 := by
  have hsign : Number.signBit = 2 ^ 63 := rfl
  have hcount : Number.wordCount = 2 ^ 64 := rfl
  rw [hcount] at hword
  rw [readCount, Int.bmod_def, hcount]
  split <;> split <;> omega

namespace Files

variable {c : Config} {f : Files} {name path data : Text} {limit : Nat}

/-- **What is read of a source** under the limit of a valid configuration. A source above the limit
is refused. Any other is read as it stands if the limit is a signed word, and else nothing is read
of it, and that is no error. -/
theorem readSource_of_validate (hvalid : c.validate = .ok limit) (hfile : f.get? path = some data) :
    f.readSource name path limit =
      if 0 < limit ∧ limit < data.length then
        .error (.of (.source name (.tooLarge data.length limit)))
      else if limit < Number.signBit then .ok data
      else .ok [] := by
  obtain ⟨hword, hne⟩ := Config.limit_bounds hvalid
  rw [readSource, hfile]
  dsimp only
  split
  · rfl
  · rename_i hsmall
    rw [readLimited, readCount_eq hword hne]
    by_cases hzero : limit = 0
    · subst hzero
      rfl
    · rw [if_neg hzero]
      split
      · rw [List.take_of_length_le (by omega)]
      · rfl

/-- Under a limit of eight exbibytes a file is read as if it were empty. -/
theorem readSource_of_validate_eight :
    let c : Config := { maxSourceSize := "8EiB" }
    let f : Files := { entries := [("a", "<p/>")] }
    c.validate = .ok Number.signBit ∧ f.get? "a" = some ("<p/>" : Text) ∧
      f.readSource "a" "a" Number.signBit = .ok [] := by
  intro c f
  have hvalid : c.validate = .ok Number.signBit := eq_ok_of_toOption (by decide)
  have hfile : f.get? "a" = some ("<p/>" : Text) := by decide
  refine ⟨hvalid, hfile, ?_⟩
  rw [readSource_of_validate hvalid hfile, if_neg (by decide), if_neg (by decide)]

end Files

end Stencil
