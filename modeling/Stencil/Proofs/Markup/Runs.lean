import Stencil.Proofs.Markup.Layout

/-!
# Runs of character data

Character data comes in runs, which are interrupted by markup. A run has pieces that are written as
they are and pieces that are references, and line ends are unified on the way. So a character of its
text is kept together with what it was written as and with the cursor in front of that (`Mark`).

The lines of a run can be counted in the source or in the text. The text has a line feed for each
one of the source, but it has more: a carriage return that no line feed follows becomes one, and so
does a reference to one. These are stray, and they make the whole difference (`Spans.line_eq`).

## Main definitions

* `Mark`, `Mark.isStray` – a character of a text and how it was written
* `runs`, `Layout.runs` – the runs of character data of a document
* `BracePair`, `bracePairs` – the pairs of braces in a run
* `Spans` – characters that stand behind each other

## Main results

* `spans_marks` – the characters of a piece stand behind each other
* `Spans.line_eq` – lines as they are counted in the source and in the text
* `exists_of_mem_bracePairs` – where a pair of braces stands
-/

namespace Stencil.Markup

/-! ### Characters and how they were written -/

/-- A character of a text and how it was written. -/
structure Mark where
  /-- The character. -/
  char : Char
  /-- What it was written as. -/
  raw : List Char
  /-- The cursor in front of that. -/
  place : Cursor
  deriving DecidableEq, Repr

/-- The character is a line feed, but there is none in what it was written as. -/
def Mark.isStray (m : Mark) : Bool := m.char = '\n' && !m.raw.contains '\n'

/-- The text of some characters. -/
def markText (ms : List Mark) : Text := Text.ofChars (ms.map Mark.char)

/-- The characters of character data that begins at the cursor. -/
def textMarks : Cursor → List Char → List Mark
  | _, [] => []
  | cur, '\r' :: '\n' :: cs => ⟨'\n', ['\r', '\n'], cur⟩ :: textMarks (cur.advance 2) cs
  | cur, '\r' :: cs => ⟨'\n', ['\r'], cur⟩ :: textMarks (cur.advance 1) cs
  | cur, c :: cs => ⟨c, [c], cur⟩ :: textMarks (cur.advance 1) cs

/-- The characters of a piece that begins at the cursor. -/
def Piece.marks (cur : Cursor) : Piece → List Mark
  | text raw => textMarks cur raw
  | reference raw c => [⟨c, raw, cur⟩]
  | markup .. => []

/-- The runs of character data among pieces that begin at the cursor, behind the given run. -/
def runs : Cursor → List Mark → List Piece → List (List Mark)
  | _, run, [] => [run]
  | cur, run, .markup raw _ :: ps => run :: runs (cur.advance raw.length) [] ps
  | cur, run, p :: ps => runs (cur.advance p.raw.length) (run ++ p.marks cur) ps

/-- The runs of character data of a document. -/
def Layout.runs {source : List Char} (L : Layout source) : List (List Mark) :=
  Markup.runs L.rootStart [] L.root

@[simp] theorem markText_append (ms ms' : List Mark) :
    markText (ms ++ ms') = markText ms ++ markText ms' := by
  rw [markText, List.map_append, Text.ofChars_append]
  rfl

/-- The characters of character data are those of the text that it stands for. -/
theorem map_char_textMarks {cur : Cursor} {raw : List Char} :
    (textMarks cur raw).map Mark.char = unifyLineEnds raw := by
  fun_induction textMarks with
  | case1 => rfl
  | case2 cur cs ih => rw [List.map_cons, ih, unifyLineEnds]
  | case3 cur cs hfeed ih => rw [List.map_cons, ih, unifyLineEnds]; exact hfeed
  | case4 cur c cs hreturn hfeed ih =>
    rw [List.map_cons, ih, unifyLineEnds]
    · exact hreturn
    · exact hfeed

/-! ### Lines -/

/-- What a line feed was written as has one line feed at most, and what another character was
written as has none. -/
def Mark.Sound (m : Mark) : Prop := m.raw.count '\n' + m.isStray.toNat = [m.char].count '\n'

/-- The characters stand behind each other in the source, from the first to the second line. -/
inductive Spans : Nat → List Mark → Nat → Prop
  | nil {line : Nat} : Spans line [] line
  | cons {m : Mark} {ms : List Mark} {line : Nat} : m.Sound →
      Spans (m.place.line + m.raw.count '\n') ms line → Spans m.place.line (m :: ms) line

namespace Spans

variable {ms ms' ahead rest : List Mark} {m : Mark} {line line' line'' : Nat}

theorem append (h : Spans line ms line') (h' : Spans line' ms' line'') :
    Spans line (ms ++ ms') line'' := by
  induction h with
  | nil => exact h'
  | cons hm _ ih => exact .cons hm (ih h')

/-- **Lines of the source and line feeds of the text** in front of a character differ by the stray
ones. -/
theorem line_eq (h : Spans line (ahead ++ m :: rest) line') :
    m.place.line + ahead.countP Mark.isStray = line + (ahead.map Mark.char).count '\n' := by
  induction ahead generalizing line with
  | nil =>
    cases h
    rfl
  | cons a ahead ih =>
    cases h with
    | cons ha hrest =>
      have hmore := ih hrest
      rw [Mark.Sound] at ha
      rw [List.countP_cons, List.map_cons, ← List.singleton_append, List.count_append, ← ha]
      cases a.isStray <;> simp at hmore ⊢ <;> omega

end Spans

/-- A character that is written in front of others. -/
theorem Spans.step {cur : Cursor} {c : Char} {t u rest : List Char} {ms : List Mark}
    (hclean : Clean (t ++ u)) (h : cur.rest = t ++ u ++ rest) (hm : Mark.Sound ⟨c, t, cur⟩)
    (hms : (cur.advance t.length).rest = u ++ rest → Spans (cur.advance t.length).line ms
      ((cur.advance t.length).advance u.length).line) :
    Spans cur.line (⟨c, t, cur⟩ :: ms) (cur.advance (t ++ u).length).line := by
  obtain ⟨ht, -⟩ := Clean.append.mp hclean
  rw [List.append_assoc] at h
  have hrest := hms (Cursor.rest_advance_append ht h)
  rw [Cursor.line_advance ht h, Cursor.advance_advance, ← List.length_append] at hrest
  exact .cons hm hrest

/-- The characters of character data stand behind each other. -/
theorem spans_textMarks {cur : Cursor} {raw rest : List Char} (hclean : Clean raw)
    (h : cur.rest = raw ++ rest) :
    Spans cur.line (textMarks cur raw) (cur.advance raw.length).line := by
  have hrest {t u : List Char} (h : Clean (t ++ u)) : Clean u := (Clean.append.mp h).2
  fun_induction textMarks with
  | case1 => exact .nil
  | case2 cur cs ih =>
    exact .step (t := ['\r', '\n']) hclean h (by rfl) (ih (hrest (t := ['\r', '\n']) hclean))
  | case3 cur cs hfeed ih =>
    exact .step (t := ['\r']) hclean h (by rfl) (ih (hrest (t := ['\r']) hclean))
  | case4 cur c cs hreturn hfeed ih =>
    refine .step (t := [c]) hclean h ?_ (ih (hrest (t := [c]) hclean))
    by_cases hc : c = '\n' <;> simp [Mark.Sound, Mark.isStray, hc]

/-- References are written on one line. -/
theorem Grammar.Reference.count_lineFeed {raw : List Char} {c : Char}
    (h : Grammar.Reference raw c) :
    raw.count '\n' = 0 := by
  have hdigits {ds : List Char} (hds : ∀ d ∈ ds, Grammar.isHexDigit d) : '\n' ∉ ds :=
    fun hmem => absurd (hds _ hmem) (by decide)
  rw [List.count_eq_zero]
  cases h with
  | entity hn =>
    simp only [Grammar.entities, List.mem_cons, Prod.mk.injEq, List.not_mem_nil, or_false] at hn
    rcases hn with ⟨rfl, -⟩ | ⟨rfl, -⟩ | ⟨rfl, -⟩ | ⟨rfl, -⟩ | ⟨rfl, -⟩ <;> decide
  | @decimal ds _ _ hds =>
    have hnot : '\n' ∉ ds := hdigits fun d hd => by simp [Grammar.isHexDigit, hds d hd]
    simp [hnot]
  | hexadecimal _ hds =>
    have hnot := hdigits hds
    simp [hnot]

/-- The characters of a piece stand behind each other. -/
theorem spans_marks {cur : Cursor} {p : Piece} {rest : List Char} (hp : p.IsInner)
    (hne : ∀ raw es, p ≠ .markup raw es) (hclean : Clean p.raw) (h : cur.rest = p.raw ++ rest) :
    Spans cur.line (p.marks cur) (cur.advance p.raw.length).line := by
  cases p with
  | text raw => exact spans_textMarks hclean h
  | reference raw c =>
    have hcount : raw.count '\n' = 0 := Grammar.Reference.count_lineFeed hp
    have hnot : '\n' ∉ raw := List.count_eq_zero.mp hcount
    have hm : Mark.Sound ⟨c, raw, cur⟩ := by
      by_cases hc : c = '\n' <;> simp [Mark.Sound, Mark.isStray, hc, hcount, hnot]
    rw [Piece.raw, ← List.append_nil raw] at hclean h
    have hstep := Spans.step hclean h hm fun _ => .nil
    rwa [List.append_nil] at hstep
  | markup raw es => exact absurd rfl (hne raw es)

/-! ### Pairs of braces -/

/-- A pair of braces in a run of character data. -/
structure BracePair where
  /-- What stands in front of it in its run. -/
  ahead : List Mark
  /-- The brace that opens. -/
  opening : Mark
  /-- What stands between the braces. -/
  inner : List Mark
  deriving DecidableEq, Repr

/-- The text between the braces. -/
def BracePair.text (b : BracePair) : Text := markText b.inner

/-- The pairs of braces in a run: each from a brace that opens to the next one that closes. The
first list is what stands in front; a brace may have been opened behind it. -/
def bracePairs : List Mark → Option (Mark × List Mark) → List Mark → List BracePair
  | _, _, [] => []
  | ahead, none, m :: ms =>
    if m.char = '\x7b' then bracePairs ahead (some (m, [])) ms
      else bracePairs (ahead ++ [m]) none ms
  | ahead, some (o, inner), m :: ms =>
    if m.char = '\x7d' then ⟨ahead, o, inner⟩ :: bracePairs (ahead ++ o :: inner ++ [m]) none ms
    else bracePairs ahead (some (o, inner ++ [m])) ms

section Pairs

variable {ahead inner pre ms : List Mark} {o c m : Mark} {b : BracePair}

theorem bracePairs_skip (h : '\x7b' ∉ pre.map Mark.char) :
    bracePairs ahead none (pre ++ ms) = bracePairs (ahead ++ pre) none ms := by
  induction pre generalizing ahead with
  | nil => rw [List.nil_append, List.append_nil]
  | cons m pre ih =>
    rw [List.map_cons, List.mem_cons, not_or] at h
    rw [List.cons_append, bracePairs, if_neg (Ne.symm h.1), ih h.2, List.append_assoc,
      List.singleton_append]

theorem bracePairs_fill (h : '\x7d' ∉ pre.map Mark.char) :
    bracePairs ahead (some (o, inner)) (pre ++ ms) =
    bracePairs ahead (some (o, inner ++ pre)) ms := by
  induction pre generalizing inner with
  | nil => rw [List.nil_append, List.append_nil]
  | cons m pre ih =>
    rw [List.map_cons, List.mem_cons, not_or] at h
    rw [List.cons_append, bracePairs, if_neg (Ne.symm h.1), ih h.2, List.append_assoc,
      List.singleton_append]

/-- There is no pair if no brace opens. -/
theorem bracePairs_of_not_open (h : '\x7b' ∉ ms.map Mark.char) : bracePairs ahead none ms = [] := by
  rw [← List.append_nil ms, bracePairs_skip h, bracePairs]

/-- There is no pair if the first brace that opens is not closed. -/
theorem bracePairs_of_not_closed (h : '\x7b' ∉ pre.map Mark.char) (ho : o.char = '\x7b')
    (hms : '\x7d' ∉ ms.map Mark.char) : bracePairs ahead none (pre ++ o :: ms) = [] := by
  rw [bracePairs_skip h, bracePairs, if_pos ho, ← List.append_nil ms,
    bracePairs_fill hms, bracePairs]

/-- The first brace that opens and the first one behind it that closes are a pair. -/
theorem bracePairs_of_closed (h : '\x7b' ∉ pre.map Mark.char) (ho : o.char = '\x7b')
    (hinner : '\x7d' ∉ inner.map Mark.char) (hc : c.char = '\x7d') :
    bracePairs ahead none (pre ++ o :: (inner ++ c :: ms)) = ⟨ahead ++ pre, o, inner⟩ ::
      bracePairs (ahead ++ (pre ++ o :: (inner ++ [c]))) none ms := by
  rw [bracePairs_skip h, bracePairs, if_pos ho, bracePairs_fill hinner, bracePairs, if_pos hc,
    List.nil_append]
  simp

/-- Where a pair of braces stands. -/
theorem exists_of_mem_bracePairs (hb : b ∈ bracePairs ahead none ms) :
    b.opening.char = '\x7b' ∧ ∃ rest, ahead ++ ms = b.ahead ++ b.opening :: rest := by
  have hall (open? : Option (Mark × List Mark)) (hopen : ∀ p ∈ open?, p.1.char = '\x7b')
      (hb : b ∈ bracePairs ahead open? ms) : b.opening.char = '\x7b' ∧ ∃ rest,
        ahead ++ (open?.elim [] fun p => p.1 :: p.2) ++ ms = b.ahead ++ b.opening :: rest := by
    clear * - hopen hb
    fun_induction bracePairs with
    | case1 => cases hb
    | case2 ahead m ms hm ih =>
      obtain ⟨hchar, rest, hrest⟩ := ih (by simpa using hm) hb
      exact ⟨hchar, rest, by simpa using hrest⟩
    | case3 ahead m ms hm ih =>
      obtain ⟨hchar, rest, hrest⟩ := ih (by simp) hb
      exact ⟨hchar, rest, by simpa using hrest⟩
    | case4 ahead o inner m ms hm ih =>
      rcases List.mem_cons.mp hb with rfl | hb
      · exact ⟨hopen _ rfl, inner ++ m :: ms, by simp⟩
      · obtain ⟨hchar, rest, hrest⟩ := ih (by simp) hb
        exact ⟨hchar, rest, by simpa using hrest⟩
    | case5 ahead o inner m ms hm ih =>
      obtain ⟨hchar, rest, hrest⟩ := ih (by simpa using hopen) hb
      exact ⟨hchar, rest, by simpa using hrest⟩
  simpa using hall none (by simp) hb

end Pairs

end Stencil.Markup
