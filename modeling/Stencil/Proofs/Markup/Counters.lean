import Stencil.Proofs.Markup.Legality
import Stencil.Proofs.Markup.Moves
import Stencil.Proofs.Text.Pieces

/-!
# The counters of a tokenizer

A cursor over a list of characters knows what is left of it. A tokenizer that has its source as
bytes, and looks at it through a cursor that gives neither a byte offset nor the number of
characters left, counts these by itself. It has two routines that consume input. One moves over a
number of characters, decodes as many from the bytes behind the offset, and adds up their sizes. The
other moves over a text that is next and adds the size of that text, without a look at the source.
If the cursor underneath gives up, which it does at U+FFFD, everything counts as consumed.

The cursor underneath may be any that keeps a few rules: it looks ahead as far as U+FFFD, it moves
character by character, and a line feed begins a line (`RuneCursor.Rules`).

The counters are in step with `Cursor`: the offset with the bytes that were consumed, the number of
characters left with those that are left (`InStep`). Either routine keeps them so (`InStep.move`),
and with it any sequence of moves (`InStep.run`). Since a scan does nothing to the cursor but move
it, the counters are right at every point of every scan, and a fault is reported where they stand.

## Main definitions

* `RuneCursor`, `RuneCursor.Rules` – the cursor underneath and its rules; `Runes.cursor` – one that
  keeps them
* `Tally` – the counters; `Move.tally`, `Tally.run` – the counters after moves
* `InStep` – counters and cursor agree on what was consumed
* `Counted` – the counters are right throughout a scan

## Main results

* `InStep.advance`, `InStep.take` – both routines keep the counters in step
* `counted` – the counters of every scan are right
-/

namespace Stencil.Markup

/-! ### The cursor underneath -/

/-- A cursor that the counters rest on, with states of a type of its own. -/
structure RuneCursor (κ : Type) where
  start : List Char → κ
  /-- Moves over a number of characters, and tells whether it got that far. -/
  move : Nat → κ → κ × Bool
  /-- Moves over a text if it is next, and gives nothing otherwise. -/
  consume? : List Char → κ → Option κ
  line : κ → Nat
  column : κ → Nat

/-- The rules of such a cursor, where `ahead` gives the characters in front of it. -/
structure RuneCursor.Rules {κ : Type} (runes : RuneCursor κ) (ahead : κ → List Char) : Prop where
  /-- Lines and columns are counted from 1. -/
  start (source : List Char) : ahead (runes.start source) = source ∧
    runes.line (runes.start source) = 1 ∧ runes.column (runes.start source) = 1
  /-- It moves character by character, and a line feed begins a line. -/
  pass {r : κ} {c : Char} {rest : List Char} (h : ahead r = c :: rest) (hc : c ≠ Text.replacement) :
    ∃ r', ahead r' = rest ∧ runes.line r' = (if c = '\n' then runes.line r + 1 else runes.line r) ∧
      runes.column r' = (if c = '\n' then 1 else runes.column r + 1) ∧
      ∀ n, runes.move (n + 1) r = runes.move n r'
  arrive (r : κ) : runes.move 0 r = (r, true)
  /-- It stops in front of U+FFFD, which it cannot tell from input that could not be decoded. -/
  stop {r : κ} {rest : List Char} (h : ahead r = Text.replacement :: rest) (n : Nat) :
    ∃ r', runes.move (n + 1) r = (r', false) ∧ ahead r' = Text.replacement :: rest ∧
      runes.line r' = runes.line r ∧ runes.column r' = runes.column r
  /-- No look ahead passes U+FFFD. -/
  consume (s : List Char) (r : κ) : runes.consume? s r =
    if s.isPrefixOf ((ahead r).takeWhile (· != Text.replacement)) then some
      (runes.move s.length r).1
    else none

/-- The characters in front of a cursor, and the line and column of the first of them. -/
structure Runes where
  pending : List Char
  line : Nat := 1
  column : Nat := 1
  deriving DecidableEq, Repr

namespace Runes

/-- Behind the character `c`, with `rest` in front. -/
def pass (r : Runes) (c : Char) (rest : List Char) : Runes :=
  if c = '\n' then ⟨rest, r.line + 1, 1⟩ else ⟨rest, r.line, r.column + 1⟩

/-- Moves over `n` characters and tells whether it got that far. -/
def move : Nat → Runes → Runes × Bool
  | 0, r => (r, true)
  | n + 1, r =>
    match r.pending with
    | [] => (r, false)
    | c :: rest => if c = Text.replacement then (r, false) else move n (r.pass c rest)

/-- A cursor over characters in memory. -/
def cursor : RuneCursor Runes where
  start source := { pending := source }
  move := move
  consume? s r :=
    if s.isPrefixOf (r.pending.takeWhile (· != Text.replacement)) then some (r.move s.length).1
    else none
  line := Runes.line
  column := Runes.column

theorem rules_cursor : cursor.Rules pending where
  start _ := ⟨rfl, rfl, rfl⟩
  pass {r c rest} h hc := by
    refine ⟨r.pass c rest, ?_, ?_, ?_, fun n => ?_⟩
    · rw [pass]
      split <;> rfl
    · rw [cursor, pass]
      split <;> rfl
    · rw [cursor, pass]
      split <;> rfl
    · change move (n + 1) r = move n (r.pass c rest)
      rw [move, h]
      exact if_neg hc
  arrive _ := rfl
  stop {r rest} h n := by
    refine ⟨r, ?_, h, rfl, rfl⟩
    change move (n + 1) r = (r, false)
    rw [move, h]
    exact if_pos rfl
  consume _ _ := rfl

end Runes

/-! ### The counters -/

/-- The counters of a tokenizer that has its source as bytes. -/
structure Tally (κ : Type) where
  source : Text
  /-- The number of bytes consumed. -/
  offset : Nat
  /-- The number of characters that are left. -/
  left : Int
  /-- The cursor underneath, which counts lines and columns. -/
  under : κ

namespace Tally

variable {κ : Type}

/-- The counters at the beginning of a source. -/
def start (runes : RuneCursor κ) (source : List Char) : Tally κ where
  source := Text.ofChars source
  offset := 0
  left := (Text.ofChars source).chars.length
  under := runes.start source

/-- The offset behind the character that begins at an offset. -/
def behind (source : Text) (offset : Nat) : Nat :=
  offset + ((Text.pieces (source.drop offset)).head?.map fun p => p.bytes.length).getD 0

/-- Moves over `n` characters, or over what is left if that is less. If the cursor gives up, all of
the source counts as consumed. -/
def advance (runes : RuneCursor κ) (n : Nat) (t : Tally κ) : Tally κ :=
  let n := min (n : Int) t.left
  if n ≤ 0 then t
  else
    match runes.move n.toNat t.under with
    | (r, true) =>
      { t with under := r, offset := (behind t.source)^[n.toNat] t.offset, left := t.left - n }
    | (r, false) => { t with under := r, offset := t.source.length, left := 0 }

/-- Moves over `s` if it is next, and tells whether it was. -/
def take (runes : RuneCursor κ) (s : String) (t : Tally κ) : Tally κ × Bool :=
  match runes.consume? s.toList t.under with
  | some r =>
    ({ t with
      under := r
      offset := t.offset + (Text.ofString s).length
      left := t.left - s.length }, true)
  | none => (t, false)

end Tally

/-- The move as it is made by the counters. -/
def Move.tally {κ : Type} (runes : RuneCursor κ) : Move → Tally κ → Tally κ
  | past n, t => t.advance runes n
  | text s, t => (t.take runes s).1

/-- The counters after some moves. -/
def Tally.run {κ : Type} (runes : RuneCursor κ) (t : Tally κ) (moves : List Move) : Tally κ :=
  moves.foldl (fun t m => m.tally runes t) t

/-! ### Counters in step -/

/-- The place of the cursor is that behind the given characters. -/
structure Cursor.Behind (consumed : List Char) (cur : Cursor) : Prop where
  line : cur.line = 1 + consumed.count '\n'
  column : cur.column = 1 + (consumed.reverse.takeWhile (· ≠ '\n')).length

section Steps

variable {κ : Type} (runes : RuneCursor κ) (ahead : κ → List Char)

/-- The cursor underneath is where the cursor is. -/
structure RuneCursor.Level (r : κ) (cur : Cursor) : Prop where
  ahead : ahead r = cur.rest
  line : cur.line = runes.line r
  column : cur.column = runes.column r

/-- The counters count what was consumed, and agree with the cursor. -/
structure InStep (source consumed : List Char) (t : Tally κ) (cur : Cursor) : Prop where
  bytes : t.source = Text.ofChars source
  split : source = consumed ++ cur.rest
  /-- The offset is the number of bytes consumed. -/
  offset : t.offset = (Text.ofChars consumed).length
  /-- What is left is the number of characters behind them. -/
  left : t.left = cur.rest.length
  location : cur.offset = t.offset
  line : cur.line = runes.line t.under
  column : cur.column = runes.column t.under
  /-- The cursor underneath has the rest in front of it, unless it has given up. -/
  ahead : ahead t.under = cur.rest ∨ cur.rest = [] ∧ (ahead t.under).head? = some Text.replacement
  place : Clean source → cur.Behind consumed

variable {runes ahead} {source consumed u v : List Char} {t : Tally κ}
  {cur : Cursor} {r : κ} {n : Nat}
  {c : Char} {s : String}

/-! ### Bytes -/

/-- Behind a character, its bytes are counted. -/
theorem Tally.behind_iterate (u v w : List Char) :
    (behind (Text.ofChars (u ++ v ++ w)))^[v.length] (Text.ofChars u).length =
      (Text.ofChars (u ++ v)).length := by
  induction v generalizing u with
  | nil => simp
  | cons c v ih =>
    have hdrop : (Text.ofChars (u ++ c :: v ++ w)).drop (Text.ofChars u).length =
        String.utf8EncodeChar c ++ Text.ofChars (v ++ w) := by
      rw [List.append_assoc, Text.ofChars_append, List.drop_left, List.cons_append,
        Text.ofChars_cons]
    have hbehind : behind (Text.ofChars (u ++ c :: v ++ w)) (Text.ofChars u).length =
        (Text.ofChars (u ++ [c])).length := by
      rw [behind, hdrop, Text.pieces_utf8EncodeChar_append, Text.ofChars_append]
      simp [Text.Piece.bytes, Text.ofChars_cons]
    have hassoc : u ++ c :: v = u ++ [c] ++ v := by simp
    rw [List.length_cons, Function.iterate_succ_apply, hbehind, hassoc]
    exact ih (u ++ [c])

/-- What was consumed and what is left of a source determine the offset of a cursor. -/
theorem Cursor.offset_of_extent (hextent : cur.extent = (Text.ofChars (u ++ cur.rest)).length) :
    cur.offset = (Text.ofChars u).length := by
  rw [extent, Text.ofChars_append, List.length_append] at hextent
  exact Nat.add_right_cancel hextent

theorem Cursor.rest_advance_of_length_le (h : cur.rest.length ≤ n) : (cur.advance n).rest = [] := by
  induction n generalizing cur with
  | zero => exact List.eq_nil_of_length_eq_zero (Nat.le_zero.mp h)
  | succ n ih =>
    rw [advance]
    split
    · assumption
    · rename_i c rest hrest
      split
      · rfl
      · exact ih (by simpa [hrest] using h)

/-- A cursor does not move over more than is left. -/
theorem Cursor.advance_min (n : Nat) (cur : Cursor) :
    cur.advance (min n cur.rest.length) = cur.advance n := by
  rcases Nat.le_total n cur.rest.length with h | h
  · rw [Nat.min_eq_left h]
  · obtain ⟨m, rfl⟩ := Nat.exists_eq_add_of_le h
    rw [Nat.min_eq_right h, ← advance_advance, advance_of_done (rest_advance_of_length_le le_rfl)]

/-! ### Lines and columns -/

theorem Cursor.Behind.pass (h : cur.Behind consumed) (c : Char) (rest : List Char) :
    (cur.pass c rest).Behind (consumed ++ [c]) := by
  rw [Cursor.pass]
  split
  · rename_i hc
    refine ⟨?_, ?_⟩
    · simp [hc, h.line, Nat.add_assoc]
    · simp [hc]
  · rename_i hc
    refine ⟨?_, ?_⟩
    · simp [hc, h.line]
    · simp [hc, h.column, Nat.add_assoc]

theorem Cursor.advance_cons {rest : List Char} (hc : c ≠ Text.replacement)
    (h : cur.rest = c :: rest) : cur.advance (n + 1) = (cur.pass c rest).advance n := by
  rw [advance, h]
  exact if_neg hc

theorem Cursor.Behind.advance (h : cur.Behind consumed) (hu : Clean u) (hrest : cur.rest = u ++ v) :
    (cur.advance u.length).Behind (consumed ++ u) := by
  induction u generalizing consumed cur with
  | nil => simpa using h
  | cons c u ih =>
    obtain ⟨hc, hu⟩ := List.ne_and_not_mem_of_not_mem_cons hu
    have hassoc : consumed ++ c :: u = consumed ++ [c] ++ u := by simp
    rw [List.length_cons, Cursor.advance_cons hc.symm hrest, hassoc]
    exact ih (h.pass c _) hu (rest_pass _ _ _)

/-! ### The cursor underneath -/

namespace RuneCursor

theorem Rules.level_start (rules : runes.Rules ahead) (source : List Char) :
    runes.Level ahead (runes.start source) (Cursor.start source) := by
  obtain ⟨hahead, hline, hcolumn⟩ := rules.start source
  exact ⟨hahead, hline.symm, hcolumn.symm⟩

namespace Level

theorem pass {rest : List Char} (rules : runes.Rules ahead) (h : runes.Level ahead r cur)
    (hc : c ≠ Text.replacement) (hrest : cur.rest = c :: rest) :
    ∃ r', runes.Level ahead r' (cur.pass c rest) ∧ ∀ n, runes.move (n + 1) r = runes.move n r' := by
  obtain ⟨r', hahead, hline, hcolumn, hmove⟩ := rules.pass (h.ahead.trans hrest) hc
  refine ⟨r', ⟨?_, ?_, ?_⟩, hmove⟩
  · rw [hahead, Cursor.rest_pass]
  · rw [hline, ← h.line, Cursor.pass]
    split <;> rfl
  · rw [hcolumn, ← h.column, Cursor.pass]
    split <;> rfl

/-- Characters that could be decoded are passed. -/
theorem move (rules : runes.Rules ahead) (h : runes.Level ahead r cur) (hu : Clean u)
    (hrest : cur.rest = u ++ v) :
    ∃ r', runes.move u.length r = (r', true) ∧ runes.Level ahead r' (cur.advance u.length) := by
  induction u generalizing r cur with
  | nil => exact ⟨r, rules.arrive r, h⟩
  | cons c u ih =>
    obtain ⟨hc, hu⟩ := List.ne_and_not_mem_of_not_mem_cons hu
    obtain ⟨r', hlevel, hmove⟩ := h.pass rules hc.symm hrest
    rw [List.length_cons, hmove, Cursor.advance_cons hc.symm hrest]
    exact ih hlevel hu (Cursor.rest_pass _ _ _)

/-- At U+FFFD a move ends early, and the rest of the input is given up. -/
theorem stop (rules : runes.Rules ahead) (h : runes.Level ahead r cur) (hu : Clean u)
    (hrest : cur.rest = u ++ Text.replacement :: v) (hn : u.length < n) :
    ∃ r', runes.move n r = (r', false) ∧ (ahead r').head? = some Text.replacement ∧
      (cur.advance n).rest = [] ∧ (cur.advance n).line = runes.line r' ∧
      (cur.advance n).column = runes.column r' := by
  obtain ⟨n, rfl⟩ := Nat.exists_eq_succ_of_ne_zero (Nat.ne_of_gt (Nat.zero_lt_of_lt hn))
  induction u generalizing r cur n with
  | nil =>
    obtain ⟨r', hmove, hahead, hline, hcolumn⟩ := rules.stop (h.ahead.trans hrest) n
    have hgiven : cur.advance (n + 1) = cur.giveUp := by
      rw [Cursor.advance, hrest]
      exact if_pos rfl
    rw [Nat.succ_eq_add_one, hgiven]
    exact ⟨r', hmove, by rw [hahead]; rfl, rfl, h.line.trans hline.symm,
      h.column.trans hcolumn.symm⟩
  | cons c u ih =>
    obtain ⟨hc, hu⟩ := List.ne_and_not_mem_of_not_mem_cons hu
    obtain ⟨r', hlevel, hmove⟩ := h.pass rules hc.symm hrest
    have hn' : u.length < n := Nat.lt_of_succ_lt_succ hn
    obtain ⟨n, rfl⟩ := Nat.exists_eq_succ_of_ne_zero (Nat.ne_of_gt (Nat.zero_lt_of_lt hn'))
    rw [Nat.succ_eq_add_one, hmove, Cursor.advance_cons hc.symm hrest]
    exact ih hlevel hu (Cursor.rest_pass _ _ _) n hn'

end Level

end RuneCursor

/-- Looking for a text that could be decoded is not disturbed by U+FFFD. -/
theorem Clean.isPrefixOf_takeWhile {w : List Char} (hw : Clean w) (l : List Char) :
    w.isPrefixOf (l.takeWhile (· != Text.replacement)) = w.isPrefixOf l := by
  induction w generalizing l with
  | nil => rw [List.isPrefixOf_nil_left, List.isPrefixOf_nil_left]
  | cons c w ih =>
    obtain ⟨hc, hw⟩ := List.ne_and_not_mem_of_not_mem_cons hw
    cases l with
    | nil => rfl
    | cons d l =>
      rw [List.isPrefixOf_cons_cons, ← ih hw l]
      by_cases hd : d = Text.replacement
      · simp [hd, hc.symm]
      · simp [hd, List.isPrefixOf_cons_cons]

/-! ### Steps -/

namespace InStep

theorem extent_eq (h : InStep runes ahead source consumed t cur) :
    cur.extent = (Text.ofChars source).length := by
  rw [Cursor.extent, h.location, h.offset, h.split, Text.ofChars_append, List.length_append]

theorem level (h : InStep runes ahead source consumed t cur) (hrest : cur.rest ≠ []) :
    runes.Level ahead t.under cur :=
  ⟨h.ahead.resolve_right fun hgiven => hrest hgiven.1, h.line, h.column⟩

theorem min_left (h : InStep runes ahead source consumed t cur) (hn : n ≤ cur.rest.length) :
    min (n : Int) t.left = n := by
  rw [h.left]
  omega

/-- Counters do not move over more than is left. -/
theorem advance_min (h : InStep runes ahead source consumed t cur) (n : Nat) :
    t.advance runes (min n cur.rest.length) = t.advance runes n := by
  have hmin : min ((min n cur.rest.length : Nat) : Int) t.left = min (n : Int) t.left := by
    rw [h.left]
    omega
  rw [Tally.advance, Tally.advance, hmin]

/-- Behind characters that could be decoded. -/
theorem behind {t' : Tally κ} (h : InStep runes ahead source consumed t cur) (hu : Clean u)
    (hrest : cur.rest = u ++ v) (hbytes : t'.source = t.source)
    (hoffset : t'.offset = (Text.ofChars (consumed ++ u)).length)
    (hleft : t'.left = t.left - u.length)
    (hlevel : runes.Level ahead t'.under (cur.advance u.length)) :
    InStep runes ahead source (consumed ++ u) t' (cur.advance u.length) := by
  have hbehind := Cursor.rest_advance_append hu hrest
  have hsplit : source = consumed ++ u ++ (cur.advance u.length).rest := by
    rw [hbehind, h.split, hrest, List.append_assoc]
  have hlocation : (cur.advance u.length).offset = (Text.ofChars (consumed ++ u)).length := by
    refine Cursor.offset_of_extent ?_
    rw [Cursor.extent_advance, h.extent_eq, ← hsplit]
  exact {
    bytes := hbytes.trans h.bytes
    split := hsplit
    offset := hoffset
    left := by
      rw [hleft, h.left, hbehind, hrest, List.length_append]
      omega
    location := hlocation.trans hoffset.symm
    line := hlevel.line
    column := hlevel.column
    ahead := .inl hlevel.ahead
    place := fun hsource => (h.place hsource).advance hu hrest }

/-- Moving over characters that could be decoded. -/
theorem advance_clean (rules : runes.Rules ahead) (h : InStep runes ahead source consumed t cur)
    (hu : Clean u) (hne : u ≠ []) (hrest : cur.rest = u ++ v) :
    InStep runes ahead source (consumed ++ u) (t.advance runes u.length)
      (cur.advance u.length) := by
  have hpos : 0 < u.length := List.length_pos_iff.mpr hne
  have hle : u.length ≤ cur.rest.length := by
    rw [hrest, List.length_append]
    exact Nat.le_add_right _ _
  obtain ⟨r', hmove, hlevel⟩ := (h.level (by simp [hrest, hne])).move rules hu hrest
  have hadvance : t.advance runes u.length = { t with
      under := r'
      offset := (Tally.behind t.source)^[u.length] t.offset
      left := t.left - u.length } := by
    rw [Tally.advance, h.min_left hle, if_neg (by omega), Int.toNat_natCast, hmove]
  have hoffset : (Tally.behind t.source)^[u.length] t.offset =
      (Text.ofChars (consumed ++ u)).length := by
    rw [h.bytes, h.offset, h.split, hrest, ← List.append_assoc]
    exact Tally.behind_iterate _ _ _
  rw [hadvance]
  exact h.behind hu hrest rfl hoffset rfl hlevel

/-- Moving up to U+FFFD. Everything counts as consumed then. -/
theorem advance_stop (rules : runes.Rules ahead) (h : InStep runes ahead source consumed t cur)
    (hu : Clean u) (hrest : cur.rest = u ++ Text.replacement :: v) (hn : u.length < n)
    (hle : n ≤ cur.rest.length) :
    InStep runes ahead source source (t.advance runes n) (cur.advance n) := by
  obtain ⟨r', hmove, hhead, hnil, hline, hcolumn⟩ :=
    (h.level (by simp [hrest])).stop rules hu hrest hn
  have hadvance : t.advance runes n =
      { t with under := r', offset := t.source.length, left := 0 } := by
    rw [Tally.advance, h.min_left hle, if_neg (by omega), Int.toNat_natCast, hmove]
  have hsplit : source = source ++ (cur.advance n).rest := by
    rw [hnil, List.append_nil]
  have hlocation : (cur.advance n).offset = (Text.ofChars source).length := by
    refine Cursor.offset_of_extent ?_
    rw [Cursor.extent_advance, h.extent_eq, ← hsplit]
  rw [hadvance]
  exact {
    bytes := h.bytes
    split := hsplit
    offset := congrArg List.length h.bytes
    left := by simp [hnil]
    location := hlocation.trans (congrArg List.length h.bytes).symm
    line := hline
    column := hcolumn
    ahead := .inr ⟨hnil, hhead⟩
    place := fun hsource => absurd (by simp [h.split, hrest]) hsource }

/-- **Moving over characters** keeps the counters in step. -/
theorem advance (rules : runes.Rules ahead) (h : InStep runes ahead source consumed t cur)
    (n : Nat) :
    ∃ consumed', InStep runes ahead source consumed' (t.advance runes n) (cur.advance n) := by
  rw [← h.advance_min n, ← Cursor.advance_min n cur]
  generalize hm : min n cur.rest.length = m
  have hle : m ≤ cur.rest.length := hm ▸ Nat.min_le_right _ _
  by_cases hu : Clean (cur.rest.take m)
  · have hlength : (cur.rest.take m).length = m := List.length_take_of_le hle
    rcases eq_or_ne (cur.rest.take m) [] with hnil | hne
    · obtain rfl : 0 = m := by rw [← hlength, hnil, List.length_nil]
      have hzero : t.advance runes 0 = t := if_pos (min_le_left 0 t.left)
      exact ⟨consumed, by rwa [hzero]⟩
    · have hstep := h.advance_clean rules hu hne (List.take_append_drop m cur.rest).symm
      rw [hlength] at hstep
      exact ⟨_, hstep⟩
  · -- U+FFFD is among the characters to move over, so there is a first one.
    obtain ⟨u, v, htake, hu⟩ := List.eq_append_cons_of_mem (not_not.mp hu)
    have hrest : cur.rest = u ++ Text.replacement :: (v ++ cur.rest.drop m) := by
      conv_lhs => rw [← List.take_append_drop m cur.rest, htake]
      simp
    have hlt : u.length < m := by
      rw [← List.length_take_of_le hle, htake]
      simp
    exact ⟨source, h.advance_stop rules hu hrest hlt hle⟩

/-- What is next for the cursor underneath is next for the cursor. -/
theorem isPrefixOf_ahead (h : InStep runes ahead source consumed t cur) (hs : Clean s.toList) :
    s.toList.isPrefixOf ((ahead t.under).takeWhile (· != Text.replacement)) =
      cur.startsWith s := by
  rw [Cursor.startsWith]
  rcases h.ahead with hahead | ⟨hrest, hhead⟩
  · rw [hahead, hs.isPrefixOf_takeWhile]
  · obtain ⟨l, hl⟩ := List.head?_eq_some_iff.mp hhead
    rw [hrest, hl]
    rfl

/-- The counters find a text where the cursor does. -/
theorem take_snd (rules : runes.Rules ahead) (h : InStep runes ahead source consumed t cur)
    (hs : Clean s.toList) : (t.take runes s).2 = cur.startsWith s := by
  rw [Tally.take, rules.consume, h.isPrefixOf_ahead hs]
  cases cur.startsWith s <;> rfl

/-- **Moving over a text** keeps the counters in step. -/
theorem take (rules : runes.Rules ahead) (h : InStep runes ahead source consumed t cur)
    (hs : Clean s.toList) : ∃ consumed',
      InStep runes ahead source consumed' (t.take runes s).1 ((Move.text s).cursor cur) := by
  rw [Tally.take, rules.consume, h.isPrefixOf_ahead hs, Move.cursor, ← String.length_toList]
  cases hstarts : cur.startsWith s with
  | false => exact ⟨consumed, h⟩
  | true =>
    obtain ⟨v, hrest⟩ := List.isPrefixOf_iff_prefix.mp hstarts
    rcases eq_or_ne s.toList [] with hnil | hne
    · refine ⟨consumed, ?_⟩
      simpa [hnil, Text.ofString_eq, rules.arrive] using h
    · have hmoved := (h.level (by simp [← hrest, hne])).move rules hs hrest.symm
      obtain ⟨r', hmove, hlevel⟩ := hmoved
      refine ⟨consumed ++ s.toList, h.behind hs hrest.symm rfl ?_ rfl ?_⟩
      · simp [h.offset, Text.ofString_eq]
      · rw [hmove]
        exact hlevel

/-- **A move** keeps the counters in step. -/
theorem move (rules : runes.Rules ahead) (h : InStep runes ahead source consumed t cur) (m : Move)
    (hm : m.IsClean) :
    ∃ consumed', InStep runes ahead source consumed' (m.tally runes t) (m.cursor cur) := by
  cases m with
  | past n => exact h.advance rules n
  | text s => exact h.take rules hm

protected theorem start (rules : runes.Rules ahead) (source : List Char) :
    InStep runes ahead source [] (Tally.start runes source) (Cursor.start source) := by
  have hlevel := rules.level_start source
  exact {
    bytes := rfl
    split := rfl
    offset := rfl
    left := by rw [Tally.start, Text.chars_ofChars, Cursor.start]
    location := rfl
    line := hlevel.line
    column := hlevel.column
    ahead := .inl hlevel.ahead
    place := fun _ => ⟨rfl, rfl⟩ }

/-- **Moves** keep the counters in step. -/
theorem run (rules : runes.Rules ahead) (h : InStep runes ahead source consumed t cur)
    {moves : List Move} (hclean : ∀ m ∈ moves, m.IsClean) :
    ∃ consumed', InStep runes ahead source consumed' (t.run runes moves) (cur.run moves) := by
  induction moves generalizing consumed t cur with
  | nil => exact ⟨consumed, h⟩
  | cons m moves ih =>
    obtain ⟨hm, hclean⟩ := List.forall_mem_cons.mp hclean
    obtain ⟨consumed', h'⟩ := h.move rules m hm
    exact ih h' hclean

/-- Behind a letter of two bytes, a line feed and a bracket. -/
example :
    let t := (Tally.start Runes.cursor "é\n<a/>".toList).run Runes.cursor
      [.past 2, .text "</", .text "<"]
    (t.offset, t.left, t.under.line, t.under.column) = (4, 3, 2, 2) := by
  decide +kernel

end InStep

end Steps

/-! ### Counting -/

section Counting

variable {κ : Type}

/-- A part of the source counts as consumed, and what is behind it as left. -/
structure Tally.Counts (t : Tally κ) (source consumed rest : List Char) : Prop where
  split : source = consumed ++ rest
  offset : t.offset = (Text.ofChars consumed).length
  left : t.left = rest.length
  left_nonneg : 0 ≤ t.left
  offset_le : t.offset ≤ (Text.ofChars source).length

/-- A position is the one that the counters have. -/
structure Tally.Locates (runes : RuneCursor κ) (t : Tally κ) (source : List Char) (p : Position) :
    Prop where
  location : p.location = t.offset
  line : p.line = runes.line t.under
  column : p.column = runes.column t.under
  /-- Lines are counted from the line feeds that were consumed, and columns from the last one. -/
  place : Clean source → ∃ consumed rest, t.Counts source consumed rest ∧
    p.line = 1 + consumed.count '\n' ∧
    p.column = 1 + (consumed.reverse.takeWhile (· ≠ '\n')).length

namespace InStep

variable {runes : RuneCursor κ} {ahead : κ → List Char} {source consumed : List Char} {t : Tally κ}
  {cur : Cursor}

theorem counts (h : InStep runes ahead source consumed t cur) :
    t.Counts source consumed cur.rest where
  split := h.split
  offset := h.offset
  left := h.left
  left_nonneg := by
    rw [h.left]
    exact Int.natCast_nonneg _
  offset_le := by
    rw [h.offset, h.split, Text.ofChars_append, List.length_append]
    exact Nat.le_add_right _ _

theorem locates (h : InStep runes ahead source consumed t cur) :
    t.Locates runes source cur.position where
  location := h.location
  line := h.line
  column := h.column
  place hsource := ⟨consumed, cur.rest, h.counts, (h.place hsource).line, (h.place hsource).column⟩

end InStep

/-- **The counters of a tokenizer** count what was consumed of the source, at every point of a
scan. -/
structure Counted (runes : RuneCursor κ) (canceled : Bool) (source : List Char) : Prop where
  /-- Whatever is done to the cursor is done by moves. -/
  scans : ∃ moves, Scans canceled source moves
  /-- After any number of them, the counters are right, and so is the cursor. -/
  counts {moves : List Move} (h : Scans canceled source moves) (n : Nat) : ∃ consumed,
    ((Tally.start runes source).run runes (moves.take n)).Counts source consumed
        ((Cursor.start source).run (moves.take n)).rest ∧
      ((Cursor.start source).run (moves.take n)).offset =
        ((Tally.start runes source).run runes (moves.take n)).offset
  /-- Looking for a text, the counters find it where the cursor does. -/
  agrees {moves : List Move} {n : Nat} {s : String} (h : Scans canceled source moves)
    (hs : moves[n]? = some (.text s)) :
    (((Tally.start runes source).run runes (moves.take n)).take runes s).2 =
      ((Cursor.start source).run (moves.take n)).startsWith s
  /-- The locator is reported before any move. -/
  locator : ∃ p ls, (scan canceled source).1 = ⟨p, .locator⟩ :: ls ∧
    (Tally.start runes source).Locates runes source p
  /-- A fault is found where the moves end. -/
  fault {moves : List Move} {stop : Stop} (h : Scans canceled source moves)
    (hstop : (scan canceled source).2 = .fault stop) :
    ((Tally.start runes source).run runes moves).Locates runes source stop.position

/-- **Counters stay in step** on any cursor that keeps the rules. -/
theorem counted {runes : RuneCursor κ} {ahead : κ → List Char} (rules : runes.Rules ahead)
    (canceled : Bool) (source : List Char) : Counted runes canceled source := by
  have hstep {moves : List Move} (h : Scans canceled source moves) (n : Nat) : ∃ consumed,
      InStep runes ahead source consumed ((Tally.start runes source).run runes (moves.take n))
        ((Cursor.start source).run (moves.take n)) :=
    (InStep.start rules source).run rules fun m hm => h.isClean m (List.mem_of_mem_take hm)
  refine ⟨Scanner.document_moves _, fun h n => ?_, fun {moves n s} h hs => ?_, ?_,
    fun {moves stop} h hstop => ?_⟩
  · obtain ⟨consumed, hconsumed⟩ := hstep h n
    exact ⟨consumed, hconsumed.counts, hconsumed.location⟩
  · obtain ⟨consumed, hconsumed⟩ := hstep h n
    exact hconsumed.take_snd rules (h.isClean _ (List.mem_of_getElem? hs))
  · obtain ⟨ls, hls⟩ := exists_locator canceled source
    exact ⟨_, ls, hls, (InStep.start rules source).locates⟩
  · obtain ⟨consumed, hconsumed⟩ := hstep h moves.length
    rw [List.take_length] at hconsumed
    obtain ⟨s, hs⟩ := exists_of_scan_fault hstop
    have hends := h.endsAt
    rw [hs] at hends
    have hposition : stop.position = ((Cursor.start source).run moves).position := hends
    rw [hposition]
    exact hconsumed.locates

/-- A fault on the second line, behind a letter of two bytes. -/
theorem counted_second_line :
    let source := "<p>é\n&x;</p>".toList
    (scan false source).2 = .fault ⟨⟨2, 4, 9, [';', 'x', '&', '\n']⟩, .undeclaredEntity "x"⟩ ∧
      Runes.cursor.Rules Runes.pending ∧ Counted Runes.cursor false source :=
  ⟨by decide +kernel, Runes.rules_cursor, counted Runes.rules_cursor false _⟩

end Counting

end Stencil.Markup
