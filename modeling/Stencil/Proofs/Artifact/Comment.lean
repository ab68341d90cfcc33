import Stencil.Artifact.Basic
import Stencil.Proofs.Artifact.Lists
import Stencil.Proofs.Text.Pieces

/-!
# The comment in front of a compiled template

The names of the templates that a compiled template was made from stand in a comment of the language
that the compiled template is read as. Such a comment ends at the first `*/`. Writing the list
escapes the characters of markup, but neither of these two: a name is written with its asterisks and
slashes as they are, and nothing is written in between that was not there. So the comment ends where
it should as long as no name contains `*/`, and only then. Otherwise the rest of the name is read as
code.

Finding the list again is another matter. It looks for the whole end of the comment, which contains
`>`, and that is never written in a list.

## Main definitions

* `Artifact.comment` – what stands between `/*` and `*/`

## Main results

* `Text.find?_pair` – where two bytes follow each other for the first time
* `StringList.closer_infix_render_iff` – a list contains `*/` if one of its texts does
* `Artifact.comment_ends_iff` – where the comment ends
-/

namespace Stencil

namespace Text

/-! ### Two bytes in a row -/

variable {α : Type} {a d : UInt8} {p q : α} {u v : Text} {f : α → Text} {xs : List α}

/-- Two bytes follow each other in one of two parts, or where these meet. -/
theorem pair_infix_append_iff : [a, d] <:+: u ++ v ↔
    [a, d] <:+: u ∨ [a, d] <:+: v ∨ (u.getLast? = some a ∧ v.head? = some d) := by
  rw [List.infix_append_iff_ne_nil]
  refine or_congr_right (or_congr_right ⟨?_, ?_⟩)
  · rintro ⟨l₁, l₂, h₁, h₂, heq, hend, hstart⟩
    obtain ⟨rfl, rfl⟩ : l₁ = [a] ∧ l₂ = [d] := by
      obtain ⟨x, l₁, rfl⟩ := List.exists_cons_of_ne_nil h₁
      obtain ⟨y, l₂, rfl⟩ := List.exists_cons_of_ne_nil h₂
      cases l₁ <;> simp_all
    exact ⟨List.singleton_suffix_iff_getLast?_eq_some.mp hend,
      List.singleton_prefix_iff_head?_eq_some.mp hstart⟩
  · rintro ⟨hlast, hhead⟩
    exact ⟨[a], [d], nofun, nofun, rfl, List.singleton_suffix_iff_getLast?_eq_some.mpr hlast,
      List.singleton_prefix_iff_head?_eq_some.mpr hhead⟩

theorem pair_infix_append_left_iff (ha : a ∉ v) (hd : d ∉ v) :
    [a, d] <:+: u ++ v ↔ [a, d] <:+: u := by
  rw [pair_infix_append_iff]
  refine or_iff_left ?_
  rintro (hpair | ⟨-, hhead⟩)
  · exact ha (hpair.subset List.mem_cons_self)
  · exact hd (List.mem_of_head? hhead)

theorem pair_infix_append_right_iff (ha : a ∉ u) : [a, d] <:+: u ++ v ↔ [a, d] <:+: v := by
  rw [pair_infix_append_iff]
  refine ⟨?_, fun h => .inr (.inl h)⟩
  rintro (hpair | hpair | ⟨hlast, -⟩)
  · exact absurd (hpair.subset List.mem_cons_self) ha
  · exact hpair
  · exact absurd (List.mem_of_getLast? hlast) ha

/-- What is written between texts is no part of a pair. -/
theorem pair_infix_join_iff {sep : Text} {ts : List Text} (hne : sep ≠ []) (ha : a ∉ sep)
    (hd : d ∉ sep) : [a, d] <:+: join sep ts ↔ ∃ t ∈ ts, [a, d] <:+: t := by
  induction ts with
  | nil => simp [join, List.intercalate]
  | cons t ts ih =>
    cases ts with
    | nil => simp [join, List.intercalate]
    | cons u ts =>
      have hlast : (t ++ sep).getLast? ≠ some a := fun h => by
        rw [List.getLast?_append_of_ne_nil _ hne] at h
        exact ha (List.mem_of_getLast? h)
      rw [join_cons_cons, pair_infix_append_iff, pair_infix_append_left_iff ha hd, ih,
        or_iff_left (a := ∃ t ∈ u :: ts, _) fun h => hlast h.1]
      simp only [List.mem_cons, or_and_right, exists_or, exists_eq_left]

theorem head?_flatMap_iff (hp : f p = [a]) (hq : f q = [d]) (hne : a ≠ d)
    (hother : ∀ x ∈ xs, x ≠ p → x ≠ q → f x ≠ [] ∧ a ∉ f x ∧ d ∉ f x) :
    (xs.flatMap f).head? = some d ↔ xs.head? = some q := by
  cases xs with
  | nil => simp
  | cons x xs =>
    rw [List.flatMap_cons, List.head?_cons, Option.some.injEq]
    by_cases hx : x = q
    · simp [hx, hq]
    refine iff_of_false (fun hhead => ?_) hx
    by_cases hx' : x = p
    · rw [hx', hp] at hhead
      exact hne (Option.some.inj hhead)
    · obtain ⟨hnil, -, hd⟩ := hother x List.mem_cons_self hx' hx
      rw [List.head?_append_of_ne_nil _ hnil] at hhead
      exact hd (List.mem_of_head? hhead)

/-- Where two bytes are written each for one thing only, and nothing in between, they follow each
other if these things do. -/
theorem pair_infix_flatMap_iff (hp : f p = [a]) (hq : f q = [d]) (hne : a ≠ d)
    (hother : ∀ x ∈ xs, x ≠ p → x ≠ q → f x ≠ [] ∧ a ∉ f x ∧ d ∉ f x) :
    [a, d] <:+: xs.flatMap f ↔ [p, q] <:+: xs := by
  induction xs with
  | nil => simp
  | cons x xs ih =>
    obtain ⟨hx, hxs⟩ := List.forall_mem_cons.mp hother
    have hinside : ¬ [a, d] <:+: f x := fun hpair => by
      by_cases hxp : x = p
      · simpa [hxp, hp] using hpair.length_le
      by_cases hxq : x = q
      · simpa [hxq, hq] using hpair.length_le
      · exact (hx hxp hxq).2.1 (hpair.subset List.mem_cons_self)
    have hlast : (f x).getLast? = some a ↔ p = x := by
      refine ⟨fun hlast => ?_, fun hxp => by rw [← hxp, hp]; rfl⟩
      by_contra hxp
      by_cases hxq : x = q
      · rw [hxq, hq] at hlast
        exact hne (Option.some.inj hlast).symm
      · exact (hx (Ne.symm hxp) hxq).2.1 (List.mem_of_getLast? hlast)
    rw [List.flatMap_cons, pair_infix_append_iff, ih hxs, hlast, head?_flatMap_iff hp hq hne hxs,
      List.infix_cons_iff, List.cons_prefix_cons, List.singleton_prefix_iff_head?_eq_some,
      or_iff_right hinside, or_comm]

/-- The first place where two bytes follow each other, in a text that is known to contain them. -/
theorem find?_pair (hne : a ≠ d) (u v : Text) : ∃ n, find? [a, d] (u ++ [a, d] ++ v) = some n ∧
    n ≤ u.length ∧ (n = u.length ↔ ¬ [a, d] <:+: u) := by
  induction u with
  | nil => exact ⟨0, by simp [find?], Nat.le_refl 0, by simp⟩
  | cons c u ih =>
    obtain ⟨n, hfind, hle, hn⟩ := ih
    have hstart : [a, d] <+: c :: (u ++ [a, d] ++ v) ↔ [a, d] <+: c :: u := by
      cases u with
      | nil => simp [hne.symm]
      | cons e u => simp
    rw [List.cons_append, List.cons_append, find?, List.infix_cons_iff]
    split
    · rename_i hfirst
      have hfirst := hstart.mp (List.isPrefixOf_iff_prefix.mp hfirst)
      exact ⟨0, rfl, Nat.zero_le _, iff_of_false nofun fun h => h (.inl hfirst)⟩
    · rename_i hlater
      have hlater := fun h => hlater (List.isPrefixOf_iff_prefix.mpr (hstart.mpr h))
      refine ⟨n + 1, by rw [hfind]; rfl, Nat.succ_le_succ hle, ?_⟩
      rw [List.length_cons, Nat.add_right_cancel_iff, hn, or_iff_right hlater]

end Text

/-! ### Lists of texts -/

namespace StringList

open Text

variable {b : UInt8} {c d : Char} {p : Piece} {t : Text} {ts : List Text}

/-- An asterisk or a slash is written for no other character. -/
theorem eq_of_mem_charForm (hd : d = '*' ∨ d = '/') (h : d ∈ charForm c) : d = c := by
  rcases charForm_cases c with ⟨l, hform, hl, -, -⟩ | ⟨hunit, hform⟩ | ⟨hform, -, -, -⟩
  · rw [hform, List.mem_cons, List.mem_singleton] at h
    rcases hd with rfl | rfl
    all_goals
      obtain rfl := h.resolve_left (by decide)
      cases hl
    rfl
  · have hdigits : ∀ n ∈ unitCodes, '*' ∉ unitDigits n ∧ '/' ∉ unitDigits n := by decide
    have hdigits := hdigits _ (toNat_mem_unitCodes hunit)
    rw [hform, List.mem_cons, List.mem_cons] at h
    rcases hd with rfl | rfl
    · exact absurd ((h.resolve_left (by decide)).resolve_left (by decide)) hdigits.1
    · exact absurd ((h.resolve_left (by decide)).resolve_left (by decide)) hdigits.2
  · rw [hform, List.mem_singleton] at h
    exact h

theorem charForm_ne_nil (c : Char) : charForm c ≠ [] := by
  rcases charForm_cases c with ⟨l, hform, -⟩ | ⟨-, hform⟩ | ⟨hform, -⟩ <;> simp [hform]

/-- What is written for other pieces contains neither. -/
theorem renderPiece_other (hstar : p ≠ .char '*') (hslash : p ≠ .char '/') :
    renderPiece p ≠ [] ∧ 0x2a ∉ renderPiece p ∧ 0x2f ∉ renderPiece p := by
  cases p with
  | stray b =>
    have hescape : unitEscape 0xfffd ≠ [] ∧ 0x2a ∉ unitEscape 0xfffd ∧
        0x2f ∉ unitEscape 0xfffd := by
      decide
    exact hescape
  | char c =>
    have hother {b : UInt8} {d : Char} (hd : d = '*' ∨ d = '/') (hb : d.toNat = b.toNat)
      (hlt : b.toNat < 128)
        (hne : Piece.char c ≠ .char d) : b ∉ renderPiece (.char c) := fun hmem => by
      rw [renderPiece, renderChar_eq, mem_ofChars_iff hlt] at hmem
      obtain ⟨e, he, hcode⟩ := hmem
      obtain rfl : e = d := Char.toNat_inj.mp (hcode.trans hb.symm)
      exact hne (congrArg _ (eq_of_mem_charForm hd he).symm)
    refine ⟨?_, hother (.inl rfl) rfl (by decide) hstar, hother (.inr rfl) rfl (by decide) hslash⟩
    rw [renderPiece, renderChar_eq, Ne, ofChars_eq_nil_iff]
    exact charForm_ne_nil c

/-- A string contains `*/` if its text does. -/
theorem closer_infix_renderString_iff (t : Text) :
    ("*/" : Text) <:+: renderString t ↔ ("*/" : Text) <:+: t := by
  obtain ⟨hbytes, hstray⟩ := ofPieces_pieces t
  have hother {p : Piece} (hmem : p ∈ t.pieces) (hstar : p ≠ .char '*') (hslash : p ≠ .char '/') :
      p.bytes ≠ [] ∧ 0x2a ∉ p.bytes ∧ 0x2f ∉ p.bytes := by
    cases p with
    | stray b =>
      have hb := hstray b hmem
      refine ⟨List.cons_ne_nil _ _, fun h => ?_, fun h => ?_⟩
      · exact hb (List.mem_singleton.mp h ▸ by decide)
      · exact hb (List.mem_singleton.mp h ▸ by decide)
    | char c =>
      have hne (d : Char) (hd : Piece.char c ≠ .char d) : c ≠ d := fun h => hd (h ▸ rfl)
      refine ⟨?_, fun h => ne_of_mem_utf8EncodeChar (hne '*' hstar) rfl (by decide) h rfl,
        fun h => ne_of_mem_utf8EncodeChar (hne '/' hslash) rfl (by decide) h rfl⟩
      exact String.utf8EncodeChar_ne_nil
  change [0x2a, 0x2f] <:+: _ ↔ [0x2a, 0x2f] <:+: _
  rw [renderString, pair_infix_append_left_iff (by decide) (by decide),
    pair_infix_append_right_iff (by decide),
    pair_infix_flatMap_iff (p := .char '*') (q := .char '/') rfl rfl (by decide)
      fun p _ => renderPiece_other]
  conv_rhs => rw [← hbytes]
  exact (pair_infix_flatMap_iff (f := Piece.bytes) rfl rfl (by decide) fun p => hother).symm

/-- **A list contains `*/` if one of its texts does**, whatever bytes these consist of. -/
theorem closer_infix_render_iff (ts : List Text) :
    ("*/" : Text) <:+: render ts ↔ ∃ t ∈ ts, ("*/" : Text) <:+: t := by
  have hstrings : ("*/" : Text) <:+: join "," (ts.map renderString) ↔
      ∃ u ∈ ts.map renderString, ("*/" : Text) <:+: u :=
    pair_infix_join_iff (by decide) (by decide) (by decide)
  have hlist : ("*/" : Text) <:+: render ts ↔ ("*/" : Text) <:+: join "," (ts.map renderString) :=
    (pair_infix_append_left_iff (by decide) (by decide)).trans
      (pair_infix_append_right_iff (by decide))
  rw [hlist, hstrings]
  simp only [List.mem_map, exists_exists_and_eq_and, closer_infix_renderString_iff]

end StringList

/-! ### The comment -/

namespace Artifact

/-- What stands between `/*` and `*/` in front of a compiled template. -/
def comment (names : List Text) : Text :=
  " declari:dependencies " ++ StringList.render names ++ " "

theorem closer_infix_comment_iff (names : List Text) :
    ("*/" : Text) <:+: comment names ↔ ∃ t ∈ names, ("*/" : Text) <:+: t := by
  rw [← StringList.closer_infix_render_iff]
  exact (Text.pair_infix_append_left_iff (by decide) (by decide)).trans
    (Text.pair_infix_append_right_iff (by decide))

/-- **The comment in front of a compiled template ends** no later than it should, and it ends there
exactly if no name contains `*/`. -/
theorem comment_ends_iff (a : Artifact) (hne : a.dependencies ≠ []) :
    a.content = "<?php /*" ++ (comment a.dependencies ++ "*/" ++ (" ?>" ++ a.output)) ∧
      ∃ n, Text.find? "*/" (comment a.dependencies ++ "*/" ++ (" ?>" ++ a.output)) = some n ∧
        n ≤ (comment a.dependencies).length ∧
        (n = (comment a.dependencies).length ↔ ∀ t ∈ a.dependencies, ¬ ("*/" : Text) <:+: t) := by
  have hcontent : a.content =
      headerStart ++ StringList.render a.dependencies ++ headerEnd ++ a.output := if_neg hne
  have hstart : headerStart = ("<?php /*" : Text) ++ (" declari:dependencies " : Text) := by decide
  have hend : headerEnd = (" " : Text) ++ ("*/" : Text) ++ (" ?>" : Text) := by decide
  obtain ⟨n, hfind, hle, hn⟩ := Text.find?_pair (a := 0x2a) (d := 0x2f) (by decide)
    (comment a.dependencies) (" ?>" ++ a.output)
  have hclean := (closer_infix_comment_iff a.dependencies).not
  push Not at hclean
  refine ⟨?_, n, hfind, hle, hn.trans hclean⟩
  rw [hcontent, hstart, hend, comment]
  simp only [List.append_assoc]

/-- A template with the name of a file in a directory whose name ends with an asterisk. -/
def starred : Artifact where
  template := "main"
  output := "text"
  dependencies := ["a*/b"]

/-- Its comment ends inside that name. -/
theorem comment_ends_starred : starred.dependencies ≠ [] ∧
    ∃ n, Text.find? "*/" (comment ["a*/b"] ++ "*/" ++ (" ?>" ++ "text")) = some n ∧
      n < (comment ["a*/b"]).length := by
  have hne : starred.dependencies ≠ [] := List.cons_ne_nil _ _
  obtain ⟨-, n, hfind, hle, hn⟩ := comment_ends_iff starred hne
  refine ⟨hne, n, hfind, Nat.lt_of_le_of_ne hle fun h => ?_⟩
  exact hn.mp h "a*/b" List.mem_cons_self ⟨"a", "b", by decide⟩

end Artifact

end Stencil
