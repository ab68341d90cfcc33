import Stencil.Proofs.Markup.Legality

/-!
# The layout of a source

A source that is read to its end is laid out in pieces: runs of character data, references, and
everything else, which was read as other events or as none. One behind the other the pieces are the
source, and each event belongs to the piece it was read from. It is found at the line and column
where that piece begins, and reading has come as far as to the end of the piece; both are counted by
a cursor that moves over the pieces in front.

Character data stands in the root element only, and whatever interrupts it there is reported. Events
do not say how character data was written, so what is counted in the source cannot be found from
them: the pieces keep it.

## Main definitions

* `Piece`, `Piece.located` – pieces of a source and their events
* `located` – the events of pieces behind each other
* `Layout`, `Layout.events` – the pieces of a document
* `Scan.Laid`, `Scanner.Lays` – what a scanner reads is laid out in pieces

## Main results

* `Cursor.line_advance` – a cursor counts the line feeds it moves over
* `exists_layout_of_scan` – a source that is scanned to its end has a layout
-/

namespace Stencil.Markup

/-! ### Lines -/

/-- A cursor counts the line feeds it moves over. -/
theorem Cursor.line_advance {cur : Cursor} {t rest : List Char} (ht : Clean t)
    (h : cur.rest = t ++ rest) : (cur.advance t.length).line = cur.line + t.count '\n' := by
  induction t generalizing cur with
  | nil => rfl
  | cons c t ih =>
    have hc : c ≠ Text.replacement := fun heq => ht (heq ▸ List.mem_cons_self)
    have hpass : (cur.pass c (t ++ rest)).line = cur.line + [c].count '\n' := by
      rw [pass]
      split
      · rename_i hfeed
        rw [hfeed]
        rfl
      · rename_i hfeed
        rw [List.count_singleton, if_neg (by simpa using hfeed)]
        rfl
    rw [List.length_cons, advance, h, List.cons_append]
    dsimp only
    rw [if_neg hc, ih (fun hmem => ht (List.mem_cons_of_mem c hmem)) (rest_pass _ _ _), hpass,
      Nat.add_assoc, ← List.count_append, List.singleton_append]

theorem Cursor.advance_of_length_le {cur : Cursor} {n : Nat} (hclean : Clean cur.rest)
    (h : cur.rest.length ≤ n) : cur.advance n = cur.advance cur.rest.length := by
  obtain ⟨k, rfl⟩ := Nat.exists_eq_add_of_le h
  rw [← advance_advance, advance_of_done (by rw [rest_advance hclean, List.drop_length])]

/-! ### Pieces -/

/-- A piece of a source and what it was read as. -/
inductive Piece where
  /-- Character data. -/
  | text (raw : List Char)
  /-- A reference and the character it stands for. -/
  | reference (raw : List Char) (c : Char)
  /-- Anything else and its events. -/
  | markup (raw : List Char) (events : List Event)
  deriving DecidableEq, Repr

/-- The events that are reported for markup between character data. -/
def Event.Interrupts : Event → Prop
  | .startTag _ | .endTag _ | .instruction .. | .cdata _ | .comment _ => True
  | _ => False

/-- The event reports no character data. -/
def Event.IsSilent (e : Event) : Prop := ∀ t, e ≠ .characters t

theorem Event.Interrupts.isSilent {e : Event} (h : e.Interrupts) : e.IsSilent := by
  rintro t rfl
  exact h

namespace Piece

/-- The piece as it is written. -/
def raw : Piece → List Char
  | text raw | reference raw _ | markup raw _ => raw

/-- What the piece was read as. -/
def events : Piece → List Event
  | text raw => [.characters (Text.ofChars (unifyLineEnds raw))]
  | reference _ c => [.characters (Text.ofChars [c])]
  | markup _ events => events

/-- The events where they were found, if the piece begins at the cursor. -/
def located (cur : Cursor) (p : Piece) : List Located :=
  p.events.map fun e =>
    ⟨{ (cur.advance p.raw.length).position with line := cur.line, column := cur.column }, e⟩

/-- A piece around the root element. -/
def IsOuter : Piece → Prop
  | markup _ events => ∀ e ∈ events, e.IsSilent
  | _ => False

/-- A piece of the root element. -/
def IsInner : Piece → Prop
  | text raw => raw ≠ [] ∧ ∀ c ∈ raw, c ≠ '<' ∧ c ≠ '&'
  | reference raw c => Grammar.Reference raw c
  | markup _ events => events ≠ [] ∧ ∀ e ∈ events, e.Interrupts

end Piece

/-- The pieces as they are written. -/
def raws (ps : List Piece) : List Char := ps.flatMap Piece.raw

/-- The events of pieces behind each other, the first of which begins at the cursor. -/
def located : Cursor → List Piece → List Located
  | _, [] => []
  | cur, p :: ps => p.located cur ++ located (cur.advance p.raw.length) ps

variable {ps qs : List Piece} {cur : Cursor}

@[simp] theorem raws_nil : raws [] = [] := rfl

@[simp] theorem raws_cons (p : Piece) (ps : List Piece) : raws (p :: ps) = p.raw ++ raws ps :=
  List.flatMap_cons

@[simp] theorem raws_append (ps qs : List Piece) : raws (ps ++ qs) = raws ps ++ raws qs :=
  List.flatMap_append

@[simp] theorem located_append : located cur (ps ++ qs) =
    located cur ps ++ located (cur.advance (raws ps).length) qs := by
  induction ps generalizing cur with
  | nil => rfl
  | cons p ps ih =>
    rw [List.cons_append, located, located, ih, Cursor.advance_advance,
      raws_cons, List.length_append, List.append_assoc]

/-- Each event belongs to a piece. -/
theorem exists_of_mem_located {l : Located} (h : l ∈ located cur ps) :
    ∃ p ∈ ps, l.event ∈ p.events := by
  induction ps generalizing cur with
  | nil => cases h
  | cons p ps ih =>
    rcases List.mem_append.mp h with h | h
    · obtain ⟨e, he, rfl⟩ := List.mem_map.mp h
      exact ⟨p, List.mem_cons_self, he⟩
    · obtain ⟨q, hq, he⟩ := ih h
      exact ⟨q, List.mem_cons_of_mem p hq, he⟩

theorem Piece.IsOuter.isSilent {p : Piece} (h : p.IsOuter) : ∀ e ∈ p.events, e.IsSilent := by
  cases p with
  | markup raw events => exact h
  | text raw => exact h.elim
  | reference raw c => exact h.elim

theorem Event.IsSilent.isFull {e : Event} (h : e.IsSilent) : e.IsFull := by
  cases e with
  | characters t => exact absurd rfl (h t)
  | _ => trivial

/-- Character data is not empty. -/
theorem Piece.IsInner.isFull {p : Piece} (h : p.IsInner) : ∀ e ∈ p.events, e.IsFull := by
  cases p with
  | markup raw events => exact fun e he => (h.2 e he).isSilent.isFull
  | text raw =>
    refine List.forall_mem_singleton.mpr fun hempty => unifyLineEnds_ne_nil h.1 ?_
    rwa [Text.ofChars_eq_nil_iff] at hempty
  | reference raw c => exact List.forall_mem_singleton.mpr (by simp [Event.IsFull])

/-- The pieces of a document: those of its root element, and what stands around it. -/
structure Layout (source : List Char) where
  /-- What stands in front of the root element. -/
  before : List Piece
  /-- The root element. -/
  root : List Piece
  /-- What stands behind the root element. -/
  after : List Piece
  /-- Nothing of the source is left out. -/
  raws_eq : raws (before ++ root ++ after) = source
  /-- There is no character data around the root element. -/
  outer : ∀ p ∈ before ++ after, p.IsOuter
  /-- There is nothing in the root element but character data, references and markup between
  them. -/
  inner : ∀ p ∈ root, p.IsInner

namespace Layout

variable {source : List Char}

/-- The events of the document. -/
def events (L : Layout source) : List Located :=
  located (Cursor.start source) (L.before ++ L.root ++ L.after)

theorem isFull_of_mem {L : Layout source} {l : Located} (h : l ∈ L.events) : l.event.IsFull := by
  obtain ⟨p, hp, he⟩ := exists_of_mem_located h
  rw [List.append_assoc, List.mem_append, List.mem_append] at hp
  rcases hp with hp | hp | hp
  · exact ((L.outer p (List.mem_append_left _ hp)).isSilent _ he).isFull
  · exact (L.inner p hp).isFull _ he
  · exact ((L.outer p (List.mem_append_right _ hp)).isSilent _ he).isFull

/-- The cursor in front of the root element. -/
def rootStart (L : Layout source) : Cursor := (Cursor.start source).advance (raws L.before).length

end Layout

/-! ### Character data -/

namespace Reader

/-- Character data does not begin markup or a reference. -/
theorem ne_of_mem_dataRun {n : Nat} {cs : List Char} :
    ∀ c ∈ (dataRun n cs).1, c ≠ '<' ∧ c ≠ '&' := by
  induction n generalizing cs with
  | zero => simp [dataRun]
  | succ n ih =>
    cases cs with
    | nil => simp [dataRun]
    | cons c cs =>
      rw [dataRun]
      repeat' split
      · simp
      · simp
      · simp
      · rename_i hdelimiter _ _ _ run e hrun
        have hmore : ∀ c ∈ (dataRun n cs).1, c ≠ '<' ∧ c ≠ '&' := ih
        rw [hrun] at hmore
        rw [List.forall_mem_cons]
        exact ⟨by simpa using hdelimiter, hmore⟩

/-- A run of character data is what was consumed. -/
theorem characterRun_spec {chunk n : Nat} {cur cur' : Cursor} {run : List Char}
    (hclean : Clean cur.rest) (h : characterRun chunk n cur = .ok (run, cur')) :
    cur.rest = run ++ cur'.rest ∧ ∀ c ∈ run, c ≠ '<' ∧ c ≠ '&' := by
  induction n generalizing cur run with
  | zero =>
    cases h
    exact ⟨rfl, List.forall_mem_nil _⟩
  | succ n ih =>
    obtain ⟨rest, hrest⟩ := exists_dataRun_append chunk cur.rest
    have hfirst : ∀ c ∈ (dataRun chunk cur.rest).1, c ≠ '<' ∧ c ≠ '&' := ne_of_mem_dataRun
    have hnext := Cursor.rest_advance_length hclean hrest
    -- A full chunk is followed by more of the run, and any other one is its last.
    rw [characterRun, cursor_bind] at h
    cases hdata : dataRun chunk cur.rest with
    | mk first e =>
      rw [hdata] at h hrest hfirst hnext
      dsimp only at h
      rw [← hnext] at hrest
      have hadvance : advance first.length cur = .ok ((), cur.advance first.length) := rfl
      rw [bind_apply, hadvance] at h
      cases e with
      | full =>
        dsimp only at h
        rw [bind_apply] at h
        split at h
        · rename_i more cur'' hmore
          cases h
          rw [hrest] at hclean
          obtain ⟨hmore', hne⟩ := ih (Clean.append.mp hclean).2 hmore
          exact ⟨by rw [hrest, hmore', List.append_assoc], List.forall_mem_append.mpr ⟨hfirst, hne⟩⟩
        · cases h
      | markup | exhausted =>
        cases h
        exact ⟨hrest, hfirst⟩
      | cdataEnd | illegal _ => cases h

end Reader

/-! ### Scanners -/

/-- From the first to the second state, pieces of the given kind were consumed and their events were
reported. -/
def Scan.Laid (P : Piece → Prop) (s s' : Scan) : Prop :=
  ∃ ps, (∀ p ∈ ps, P p) ∧ s.cursor.rest = raws ps ++ s'.cursor.rest ∧
    s'.cursor = s.cursor.advance (raws ps).length ∧
    s'.events.reverse = s.events.reverse ++ located s.cursor ps

/-- From the first to the second state, a root element and what stands around it were read to the
end of the source. -/
def Scan.LaidOut (s s' : Scan) : Prop :=
  ∃ t u, s.Laid Piece.IsOuter t ∧ t.Laid Piece.IsInner u ∧ u.Laid Piece.IsOuter s' ∧
    s'.cursor.rest = []

namespace Scan.Laid

variable {P : Piece → Prop} {s s' s'' : Scan} {p : Piece}

protected theorem refl :
    s.Laid P s := ⟨[], List.forall_mem_nil _, rfl, rfl, (List.append_nil _).symm⟩

protected theorem trans (h : s.Laid P s') (h' : s'.Laid P s'') : s.Laid P s'' := by
  obtain ⟨ps, hps, hrest, hcursor, hevents⟩ := h
  obtain ⟨qs, hqs, hrest', hcursor', hevents'⟩ := h'
  refine ⟨ps ++ qs, List.forall_mem_append.mpr ⟨hps, hqs⟩, ?_, ?_, ?_⟩
  · rw [hrest, hrest', raws_append, List.append_assoc]
  · rw [hcursor', hcursor, Cursor.advance_advance, raws_append, List.length_append]
  · rw [hevents', hevents, located_append, List.append_assoc, hcursor]

/-- One piece is read. -/
theorem one (hp : P p) (hrest : s.cursor.rest = p.raw ++ s'.cursor.rest)
    (hcursor : s'.cursor = s.cursor.advance p.raw.length)
    (hevents : s'.events = (p.located s.cursor).reverse ++ s.events) : s.Laid P s' := by
  refine ⟨[p], List.forall_mem_singleton.mpr hp, ?_, ?_, ?_⟩
  · rw [hrest, raws_cons, raws_nil, List.append_nil]
  · rw [hcursor, raws_cons, raws_nil, List.append_nil]
  · rw [hevents, List.reverse_append, List.reverse_reverse, located, located, List.append_nil]

theorem clean (h : s.Laid P s') (hclean : Clean s.cursor.rest) : Clean s'.cursor.rest := by
  obtain ⟨ps, -, hrest, -⟩ := h
  rw [hrest] at hclean
  exact (Clean.append.mp hclean).2

/-- Something was read in front of a document. -/
theorem laidOut (h : s.Laid Piece.IsOuter s') (h' : s'.LaidOut s'') : s.LaidOut s'' := by
  obtain ⟨t, u, ht, hu⟩ := h'
  exact ⟨t, u, h.trans ht, hu⟩

end Scan.Laid

namespace Scanner

open Stencil.Action (Yields)

variable {α β : Type} {P : Piece → Prop} {s : Scan} {r : Reader α} {V : α → Prop}

/-- Wherever the scanner succeeds, it has read pieces of the given kind. -/
def Lays (P : Piece → Prop) (m : Scanner α) : Prop :=
  ∀ s, Clean s.cursor.rest → Yields m s fun _ => s.Laid P

namespace Lays

variable {m : Scanner α} {f : α → Scanner β}

theorem pure {a : α} : Lays P (pure a : Scanner α) := fun _ _ => .pure .refl

theorem bind (h : Lays P m) (hf : ∀ a, Lays P (f a)) : Lays P (m >>= f) := by
  intro s hclean
  refine .bind ((h s hclean).imp fun a s' hs' => ?_)
  exact (hf a s' (hs'.clean hclean)).imp fun _ _ => hs'.trans

theorem cursor : Lays P cursor := fun _ _ => .bind (.get (.pure .refl))

theorem get : Lays P (get : Scanner Scan) := fun _ _ => .get .refl

theorem fail {fault : Fault} : Lays P (fail fault : Scanner α) := by
  intro s _ a s' h
  cases h

theorem throw {e : Ending} : Lays P (throw e : Scanner α) := fun _ _ => .throw

theorem ite {c : Prop} [Decidable c] {k : Scanner α} (h : Lays P m) (h' : Lays P k) :
    Lays P (if c then m else k) := by
  split
  · exact h
  · exact h'

end Lays

/-- A reader of a scan takes something from what is left. -/
theorem read_yields (hr : r.Counts V) (hclean : Clean s.cursor.rest) :
    Yields (read r) s fun a s' => V a ∧ ∃ raw, s.cursor.rest = raw ++ s'.cursor.rest ∧
      s' = { s with cursor := s.cursor.advance raw.length } ∧ r s.cursor = .ok (a, s'.cursor) := by
  intro a s' h
  rw [read] at h
  split at h
  · rename_i b cur hread
    cases h
    obtain ⟨⟨n, rfl⟩, ha⟩ := hr _ _ _ hread
    -- The reader may have counted on behind the end, where the cursor does not move any more.
    have hlength : s.cursor.advance (s.cursor.rest.take n).length = s.cursor.advance n := by
      rcases Nat.le_total n s.cursor.rest.length with hle | hle
      · rw [List.length_take, Nat.min_eq_left hle]
      · rw [List.take_of_length_le hle, Cursor.advance_of_length_le hclean hle]
    refine ⟨ha, s.cursor.rest.take n, ?_, by rw [hlength], hread⟩
    rw [Cursor.rest_advance hclean, List.take_append_drop]
  · cases h

/-- A construct is a piece with one event. -/
theorem construct_lays {event : α → Event} (hr : r.Counts V)
    (hP : ∀ cur raw a, Clean cur.rest → cur.rest = raw ++ (cur.advance raw.length).rest →
      r cur = .ok (a, cur.advance raw.length) → ∃ p, P p ∧ p.raw = raw ∧ p.events = [event a]) :
    Lays P (construct r event) := by
  intro s hclean
  refine .bind (.bind
    (.get (.pure (.bind ((read_yields hr hclean).imp fun a s' hs' => .modify ?_)))))
  obtain ⟨-, raw, hrest, rfl, hread⟩ := hs'
  obtain ⟨p, hp, rfl, hevents⟩ := hP s.cursor raw a hclean hrest hread
  exact .one hp hrest rfl (by rw [Piece.located, hevents]; rfl)

/-- A construct that is markup. -/
theorem markup_lays {event : α → Event} (hr : r.Counts V)
    (hP : ∀ raw a, P (.markup raw [event a])) : Lays P (construct r event) :=
  construct_lays hr fun _ raw a _ _ _ => ⟨_, hP raw a, rfl, rfl⟩

/-! ### Around the root element -/

theorem misc_lays {n : Nat} : Lays Piece.IsOuter (misc n) := by
  have hblank : Lays Piece.IsOuter (read Reader.skipBlanks) := by
    intro s hclean
    refine (read_yields Reader.skipBlanks_counts hclean).imp ?_
    rintro _ _ ⟨-, raw, hrest, rfl, -⟩
    exact .one (p := .markup raw []) (List.forall_mem_nil _) hrest rfl rfl
  have hsilent {e : Event} (raw : List Char) (he : e.Interrupts) :
      Piece.IsOuter (.markup raw [e]) :=
    List.forall_mem_singleton.mpr he.isSilent
  induction n with
  | zero => exact .pure
  | succ n ih =>
    refine .bind hblank fun _ => .bind .cursor fun cur => .ite ?_ (.ite ?_ .pure)
    · exact .bind (markup_lays Reader.instruction_counts fun raw _ => hsilent raw trivial) fun _ =>
        ih
    · exact .bind (markup_lays Reader.comment_counts fun raw _ => hsilent raw trivial) fun _ => ih

theorem miscs_lays : Lays Piece.IsOuter miscs := .bind .cursor fun _ => misc_lays

/-! ### The root element -/

theorem startTag_lays {bound : Nat} : Lays Piece.IsInner (startTag bound) := by
  intro s hclean
  refine .bind (.bind (.get (.pure (.bind ((read_yields Reader.startTag_counts hclean).imp
    fun tag s' hs' => .bind (.modify ?_))))))
  obtain ⟨-, raw, hrest, rfl, -⟩ := hs'
  split
  · refine .modify (.one (p := .markup raw [.startTag tag, .endTag tag]) ?_ hrest rfl rfl)
    simp [Piece.IsInner, Event.Interrupts]
  · refine .modify (.one (p := .markup raw [.startTag tag]) ?_ hrest rfl rfl)
    simp [Piece.IsInner, Event.Interrupts]

theorem endTag_lays : Lays Piece.IsInner endTag := by
  intro s hclean
  refine .bind (.get
    (.bind (.bind (.get (.pure (.bind ((read_yields Reader.endTag_counts hclean).imp
    fun tag s' hs' => .bind (.modify (.modify ?_)))))))))
  obtain ⟨-, raw, hrest, rfl, -⟩ := hs'
  refine .one (p := .markup raw [.endTag tag]) ?_ hrest rfl rfl
  simp [Piece.IsInner, Event.Interrupts]

theorem reference_lays : Lays Piece.IsInner
    (construct Reader.reference fun c => .characters (Text.ofChars [c])) := by
  refine construct_lays Reader.reference_counts fun cur raw c hclean hrest hread => ?_
  obtain ⟨t, ht, href⟩ := (Reader.reference_reads cur hclean le_rfl).rest hread
  obtain rfl : t = raw := List.append_cancel_right (ht.symm.trans hrest)
  exact ⟨.reference t c, href, rfl, rfl⟩

theorem characters_lays {bound : Nat} : Lays Piece.IsInner (characters bound) := by
  intro s hclean
  refine .bind (.bind (.get (.pure (.bind ((read_yields Reader.characterRun_counts hclean).imp
    fun run s' hs' => ?_)))))
  obtain ⟨-, raw, hrest, rfl, hread⟩ := hs'
  obtain ⟨hrun, hne⟩ := Reader.characterRun_spec hclean hread
  obtain rfl : raw = run := List.append_cancel_right (hrest.symm.trans hrun)
  split
  · rename_i hempty
    rw [List.isEmpty_iff.mp hempty]
    exact .pure .refl
  · rename_i hempty
    refine .modify (.one (p := .text raw) ⟨?_, hne⟩ hrest rfl rfl)
    simpa using hempty

theorem contentItem_lays {canceled : Bool} {bound : Nat} :
    Lays Piece.IsInner (contentItem canceled bound) := by
  have hleaf {e : Event} (raw : List Char) (he : e.Interrupts) : Piece.IsInner (.markup raw [e]) :=
    ⟨List.cons_ne_nil _ _, List.forall_mem_singleton.mpr he⟩
  refine .bind .cursor fun cur =>
    .ite endTag_lays (.ite ?_ (.ite ?_ (.ite ?_ (.ite ?_ (.ite ?_ ?_)))))
  · exact markup_lays Reader.instruction_counts fun raw _ => hleaf raw trivial
  · exact markup_lays Reader.comment_counts fun raw _ => hleaf raw trivial
  · exact markup_lays Reader.cdataSection_counts fun raw _ => hleaf raw trivial
  · exact .ite (.bind .throw fun _ => startTag_lays) startTag_lays
  · exact reference_lays
  · exact characters_lays

theorem content_lays {canceled : Bool} {n : Nat} : Lays Piece.IsInner (content canceled n) := by
  induction n with
  | zero => exact .bind .get fun _ => .ite .pure .fail
  | succ n ih =>
    refine .bind .get fun _ => .ite .pure ?_
    exact .ite (.bind .fail fun _ => .bind contentItem_lays fun _ => ih)
      (.bind contentItem_lays fun _ => ih)

/-! ### Documents -/

/-- Something was read in front of the root element. -/
theorem laidOut_bind {m : Scanner α} {f : α → Scanner β} (h : Lays Piece.IsOuter m)
    (hclean : Clean s.cursor.rest)
    (hf : ∀ a t, Clean t.cursor.rest → Yields (f a) t fun _ => t.LaidOut) :
    Yields (m >>= f) s fun _ => s.LaidOut :=
  .bind ((h s hclean).imp fun a t ht => (hf a t (ht.clean hclean)).imp fun _ _ => ht.laidOut)

/-- Nothing is left behind a document. -/
theorem finish_lays :
    Yields finish s fun _ s' => s.Laid Piece.IsOuter s' ∧ s'.cursor.rest = [] := by
  refine .bind (.bind (.get (.pure ?_)))
  split
  · exact .bind fun _ _ h => by cases h
  · rename_i hdone
    refine .modify ⟨.one (p := .markup [] [.endDocument]) ?_ rfl rfl rfl, ?_⟩
    · simp [Piece.IsOuter, Event.IsSilent]
    · simpa [Cursor.done] using hdone

theorem fromContent_lays {canceled : Bool} (hclean : Clean s.cursor.rest) :
    Yields (fromContent canceled) s fun _ s' =>
      ∃ t, s.Laid Piece.IsInner t ∧ t.Laid Piece.IsOuter s' ∧ s'.cursor.rest = [] := by
  refine .bind (.bind (.get (.pure (.bind ((content_lays s hclean).imp fun _ t ht => ?_)))))
  refine .bind ((miscs_lays t (ht.clean hclean)).imp fun _ u hu => finish_lays.imp ?_)
  rintro - s' ⟨hs', hend⟩
  exact ⟨t, ht, hu.trans hs', hend⟩

theorem fromRoot_lays {canceled : Bool} (hclean : Clean s.cursor.rest) :
    Yields (fromRoot canceled) s fun _ => s.LaidOut := by
  have htag {s : Scan} {n : Nat} (hclean : Clean s.cursor.rest) :
      Yields (do startTag n; fromContent canceled : Scanner Unit) s fun _ => s.LaidOut := by
    refine .bind ((startTag_lays s hclean).imp fun _ t ht => ?_)
    refine (fromContent_lays (ht.clean hclean)).imp ?_
    rintro - s' ⟨u, hu, hs'⟩
    exact ⟨s, u, .refl, ht.trans hu, hs'⟩
  refine laidOut_bind .cursor hclean fun cur s hclean => ?_
  split
  · exact laidOut_bind .fail hclean fun _ _ => htag
  · exact htag hclean

theorem fromProlog_lays {canceled : Bool} (hclean : Clean s.cursor.rest) :
    Yields (fromProlog canceled) s fun _ => s.LaidOut := by
  refine laidOut_bind miscs_lays hclean fun _ s hclean => laidOut_bind .cursor hclean
    fun cur s hclean => ?_
  split
  · refine laidOut_bind (markup_lays Reader.doctype_counts fun raw _ => ?_) hclean
      fun _ s hclean => laidOut_bind miscs_lays hclean fun _ _ => fromRoot_lays
    simp [Piece.IsOuter, Event.IsSilent]
  · exact fromRoot_lays hclean

/-- A document is laid out in front of, in and behind its root element. -/
theorem document_lays {canceled : Bool} (hclean : Clean s.cursor.rest) :
    Yields (document canceled) s fun _ => s.LaidOut := by
  -- The first two events are read from nothing, which is a piece, too.
  let first : Piece := .markup [] [.locator, .startDocument]
  have hfirst : first.IsOuter := by simp [first, Piece.IsOuter, Event.IsSilent]
  have hstart :
      s.Laid Piece.IsOuter ⟨s.cursor, s.opened, (first.located s.cursor).reverse ++ s.events⟩ :=
    .one hfirst rfl rfl rfl
  rw [document_eq]
  refine .bind (.bind (.get (.pure (.bind (.modify (.bind (.modify ?_)))))))
  refine Yields.imp ?_ fun _ _ => hstart.laidOut
  split
  · refine laidOut_bind (markup_lays Reader.declaration_counts fun raw _ => ?_) hclean
      fun _ _ => fromProlog_lays
    simp [Piece.IsOuter, Event.IsSilent]
  · exact fromProlog_lays hclean

end Scanner

/-! ### Sources -/

/-- **A source is laid out in pieces.** If it is scanned to its end, then it is made of pieces whose
events are those that were reported. -/
theorem exists_layout_of_scan {canceled : Bool} {source : List Char} {ls : List Located}
    (h : scan canceled source = (ls, .complete)) : ∃ L : Layout source, L.events = ls := by
  obtain ⟨s, hdocument, rfl⟩ := exists_document_of_scan h
  have hclean : Clean ({ cursor := Cursor.start source } : Scan).cursor.rest := clean_of_scan h
  obtain ⟨t, u, ⟨before, hbefore, hrest, hcursor, hevents⟩,
    ⟨root, hroot, hrest', hcursor', hevents'⟩,
    ⟨after, hafter, hrest'', hcursor'', hevents''⟩, hend⟩ :=
    Scanner.document_lays hclean _ _ hdocument
  refine ⟨⟨before, root, after, ?_, List.forall_mem_append.mpr ⟨hbefore, hafter⟩, hroot⟩, ?_⟩
  · change Cursor.rest (Cursor.start source) = _ at hrest
    rw [raws_append, raws_append, List.append_assoc, ← List.append_nil (raws after),
      ← hend, ← hrest'', ← hrest', ← hrest]
    rfl
  · change located (Cursor.start source) (before ++ root ++ after) = _
    change t.cursor = (Cursor.start source).advance _ at hcursor
    rw [hevents'', hevents', hevents, located_append, located_append,
      raws_append, List.length_append, ← Cursor.advance_advance, ← hcursor, ← hcursor']
    rfl

end Stencil.Markup
