import Stencil.Proofs.Markup.Legality

/-!
# Character data in chunks

A run of character data is scanned a chunk at a time: so many characters are looked at, what was
found is consumed, and the scan goes on behind it. The border of a chunk may fall anywhere, between
the two characters of a line end or inside the end of a CDATA section. It makes no difference,
because every character is judged together with what follows it, whether or not that is part of the
same chunk, and because line ends are unified only when the run is complete.

So scanning in chunks of any size is the same as scanning the whole run at once
(`Reader.characterRun_eq_atOnce`): the same run is found, the cursor comes to stand in the same
place, and a fault is the same one at the same place. Neither has the source to be legal, nor
decodable. What is true of one run is true of the content of elements and of documents, because the
bound on the characters of a run that is carried along is always large enough
(`Scanner.contentItem_shortens`).

## Main definitions

* `wholeRun`, `Reader.characterRunAtOnce` – the run that is found when there are no chunks
* `Scanner.charactersAtOnce`, `Scanner.contentAtOnce`, `scanAtOnce` – scanning without chunks

## Main results

* `Reader.characterRun_eq_atOnce` – a run does not depend on the chunks
* `Scanner.content_eq_atOnce`, `scan_eq_atOnce` – neither does a document
* `characters_unchunked` – nor what is read at any place, and a run is one event
-/

namespace Stencil.Markup

variable {cs run rest : List Char} {n : Nat} {cur : Cursor}

/-! ### Runs -/

/-- The whole run of character data at the head of a text, and what ends it. -/
def wholeRun : List Char → List Char × RunEnd
  | [] => ([], .exhausted)
  | c :: cs =>
    if c = '<' || c = '&' then ([], .markup)
    else if [']', ']', '>'].isPrefixOf (c :: cs) then ([], .cdataEnd)
    else if !isLegalChar c then ([], .illegal c)
    else (c :: (wholeRun cs).1, (wholeRun cs).2)

/-- What is found within a bound is the whole run, or as much of it as the bound allows. -/
theorem dataRun_eq (n : Nat) (cs : List Char) : dataRun n cs =
    if (wholeRun cs).1.length < n then wholeRun cs else ((wholeRun cs).1.take n, .full) := by
  induction n generalizing cs with
  | zero => rw [dataRun, if_neg (Nat.not_lt_zero _), List.take_zero]
  | succ n ih =>
    have hstop (e : RunEnd) : (([], e) : List Char × RunEnd) =
        if ([] : List Char).length < n + 1 then ([], e)
          else (([] : List Char).take (n + 1), .full) :=
      (if_pos (Nat.succ_pos n)).symm
    cases cs with
    | nil => exact hstop .exhausted
    | cons c cs =>
      rw [dataRun, wholeRun]
      split
      · exact hstop .markup
      split
      · exact hstop .cdataEnd
      split
      · exact hstop (.illegal c)
      rw [ih, List.length_cons, List.take_succ_cons]
      by_cases hlt : (wholeRun cs).1.length < n
      · rw [if_pos hlt, if_pos (Nat.succ_lt_succ hlt)]
      · rw [if_neg hlt, if_neg fun h => hlt (Nat.lt_of_succ_lt_succ h)]

theorem length_wholeRun_le (cs : List Char) : (wholeRun cs).1.length ≤ cs.length := by
  have hwhole : dataRun ((wholeRun cs).1.length + 1) cs = wholeRun cs := by
    rw [dataRun_eq, if_pos (Nat.lt_succ_self _)]
  obtain ⟨rest, hrest⟩ := Reader.exists_dataRun_append ((wholeRun cs).1.length + 1) cs
  rw [hwhole] at hrest
  conv_rhs => rw [hrest, List.length_append]
  exact Nat.le_add_right _ _

/-- Behind the first characters of a run is the rest of it. -/
theorem wholeRun_drop (h : n ≤ (wholeRun cs).1.length) :
    wholeRun (cs.drop n) = ((wholeRun cs).1.drop n, (wholeRun cs).2) := by
  induction n generalizing cs with
  | zero => rfl
  | succ n ih =>
    cases cs with
    | nil => exact absurd h (Nat.not_succ_le_zero n)
    | cons c cs =>
      rw [wholeRun] at h ⊢
      split at h
      · exact absurd h (Nat.not_succ_le_zero n)
      split at h
      · exact absurd h (Nat.not_succ_le_zero n)
      split at h
      · exact absurd h (Nat.not_succ_le_zero n)
      · rename_i hmarkup hend hlegal
        rw [if_neg hmarkup, if_neg hend, if_neg hlegal]
        exact ih (Nat.le_of_succ_le_succ h)

/-- The end of a run is not a bound on its length. -/
theorem wholeRun_ne_full (cs : List Char) : (wholeRun cs).2 ≠ .full := by
  induction cs with
  | nil => nofun
  | cons c cs ih =>
    rw [wholeRun]
    split
    · nofun
    split
    · nofun
    split
    · nofun
    · exact ih

/-- A run that ends at markup, at a reference or with the input. -/
theorem wholeRun_append (hrun : Reader.RunBefore rest run) (hstop : Reader.RunStops rest) :
    ∃ e, wholeRun (run ++ rest) = (run, e) ∧ (e = .markup ∨ e = .exhausted) := by
  induction run with
  | nil =>
    cases rest with
    | nil => exact ⟨.exhausted, rfl, .inr rfl⟩
    | cons c rest =>
      refine ⟨.markup, ?_, .inl rfl⟩
      rw [List.nil_append, wholeRun, if_pos (by simpa using hstop c rfl)]
  | cons c run ih =>
    obtain ⟨⟨hlt, hamp⟩, hend, hlegal, hrun⟩ := hrun
    obtain ⟨e, hwhole, he⟩ := ih hrun
    refine ⟨e, ?_, he⟩
    rw [List.cons_append, ← List.isPrefixOf_iff_prefix] at hend
    rw [List.cons_append, wholeRun, if_neg (by simp [hlt, hamp]), if_neg hend,
      if_neg (by simp [hlegal]), hwhole]

/-! ### Scanning at once -/

namespace Reader

/-- A run of character data, scanned to its end before anything is consumed. -/
def characterRunAtOnce : Reader (List Char) := do
  let (run, e) := wholeRun (← cursor).rest
  advance run.length
  match e with
  | .cdataEnd => fail .strayCdataEnd
  | .illegal c => fail (.illegalChar c)
  | _ => return run

/-- What comes of a run that has been consumed. -/
def concludeRun (run : List Char) (e : RunEnd) (cur : Cursor) : Except Stop (List Char × Cursor) :=
  match e with
  | .cdataEnd => .error ⟨cur.position, .strayCdataEnd⟩
  | .illegal c => .error ⟨cur.position, .illegalChar c⟩
  | _ => .ok (run, cur)

theorem characterRunAtOnce_apply (cur : Cursor) : characterRunAtOnce cur =
    concludeRun (wholeRun cur.rest).1 (wholeRun cur.rest).2
      (cur.advance (wholeRun cur.rest).1.length) := by
  rw [characterRunAtOnce, cursor_bind]
  rcases wholeRun cur.rest with ⟨run, e⟩
  cases e <;> rfl

/-- The legal characters of a run are passed one by one. -/
theorem rest_advance_wholeRun (h : n ≤ (wholeRun cur.rest).1.length) :
    (cur.advance n).rest = cur.rest.drop n := by
  obtain ⟨rest, hrest⟩ := exists_dataRun_append n cur.rest
  have hrun : (dataRun n cur.rest).1 = (wholeRun cur.rest).1.take n := by
    rw [dataRun_eq, if_neg (Nat.not_lt.mpr h)]
  have hlength : (dataRun n cur.rest).1.length = n := by
    rw [hrun, List.length_take, Nat.min_eq_left h]
  have hclean : Clean (dataRun n cur.rest).1 := clean_of_legal isLegalChar_of_mem_dataRun
  have hnext := Cursor.rest_advance_append hclean hrest
  rw [hlength] at hnext
  rw [hnext]
  conv_rhs => rw [hrest]
  rw [List.drop_left' hlength]

/-- **A run of character data does not depend on the chunks** in which it is scanned, and neither
does a fault that is found, nor its place. -/
theorem characterRun_eq_atOnce {chunk : Nat} (hchunk : 0 < chunk) (hlen : cur.rest.length < n) :
    characterRun chunk n cur = characterRunAtOnce cur := by
  induction n generalizing cur with
  | zero => exact absurd hlen (Nat.not_lt_zero _)
  | succ n ih =>
    rw [characterRunAtOnce_apply, characterRun, cursor_bind, dataRun_eq]
    by_cases hshort : (wholeRun cur.rest).1.length < chunk
    · rw [if_pos hshort]
      have hfull := wholeRun_ne_full cur.rest
      generalize wholeRun cur.rest = whole at hfull ⊢
      obtain ⟨run, e⟩ := whole
      cases e with
      | full => exact absurd rfl hfull
      | _ => rfl
    · -- the first chunk is full of the run; what is behind it is scanned like a run of its own
      have hle : chunk ≤ (wholeRun cur.rest).1.length := Nat.not_lt.mp hshort
      have hrest := rest_advance_wholeRun hle
      have hnext : characterRun chunk n (cur.advance chunk) = concludeRun
          ((wholeRun cur.rest).1.drop chunk) (wholeRun cur.rest).2
          (cur.advance (wholeRun cur.rest).1.length) := by
        rw [ih (by rw [hrest, List.length_drop]; have := length_wholeRun_le cur.rest; omega),
          characterRunAtOnce_apply, hrest, wholeRun_drop hle, Cursor.advance_advance,
          List.length_drop, Nat.add_sub_cancel' hle]
      rw [if_neg hshort]
      dsimp only
      rw [bind_apply]
      change (characterRun chunk n >>= fun more => pure (_ ++ more))
        (cur.advance ((wholeRun cur.rest).1.take chunk).length) = _
      rw [List.length_take, Nat.min_eq_left hle, bind_apply, hnext]
      have happend := List.take_append_drop chunk (wholeRun cur.rest).1
      cases hend : (wholeRun cur.rest).2 with
      | cdataEnd => rfl
      | illegal c => rfl
      | _ => exact congrArg (fun run => Except.ok (run, cur.advance _)) happend

/-! ### Progress -/

variable {α β : Type} {r : Reader α} {f : α → Reader β} {s : String} {W : β → Prop}

/-- Where the reader succeeds, it has consumed something. -/
def Shortens (r : Reader α) : Prop :=
  ∀ cur a cur', r cur = .ok (a, cur') → cur'.rest.length < cur.rest.length

theorem accept_shortens {f : Bool → Reader β} (hs : s.toList ≠ []) (htrue : (f true).Counts W)
    (hfalse : (f false).Shortens) : (accept s >>= f).Shortens := by
  intro cur b cur' h
  rw [bind_apply, accept_apply] at h
  by_cases hstart : cur.startsWith s
  · rw [if_pos hstart] at h
    obtain ⟨⟨n, rfl⟩, -⟩ := htrue _ _ _ h
    rw [Cursor.startsWith, List.isPrefixOf_iff_prefix] at hstart
    rw [Cursor.advance_advance]
    refine Cursor.length_rest_advance_lt ?_ fun hrest => hs (List.prefix_nil.mp (hrest ▸ hstart))
    rw [← String.length_toList]
    exact Nat.lt_add_right n (List.length_pos_iff.mpr hs)
  · rw [if_neg hstart] at h
    exact hfalse _ _ _ h

theorem demand_shortens {f : Unit → Reader β} {fault : Fault} (hs : s.toList ≠ [])
    (hf : (f ⟨⟩).Counts W) : (demand s fault >>= f).Shortens := by
  rw [demand, bind_assoc]
  exact accept_shortens hs hf fun cur a cur' h => nomatch h

theorem startTag_shortens {bound : Nat} : (startTag bound).Shortens :=
  demand_shortens (by decide) (qname_counts.bind fun _ _ =>
    (attributes_counts (by simp)).bind fun _ _ => .pure (V := fun _ => True) trivial)

theorem endTag_shortens {opened : Text} : (endTag opened).Shortens :=
  demand_shortens (by decide) (qname_counts.bind fun _ _ => .guard fun _ =>
    skipBlanks_counts.andThen fun _ => demand_counts.andThen fun _ =>
      .pure (V := fun _ => True) trivial)

theorem comment_shortens : comment.Shortens := by
  refine demand_shortens (W := fun _ => True) (by decide) (scanTo_counts.andThen fun text => ?_)
  split
  · exact .fail
  · exact demand_counts.andThen fun _ => .pure trivial

theorem instruction_shortens : instruction.Shortens := by
  refine demand_shortens (W := fun _ => True) (by decide)
      (name_counts.bind fun _ _ => .guard fun _ =>
    accept_counts.andThen fun _ => .ite (fun _ => .pure trivial) fun _ =>
      skipBlanks_counts.andThen fun _ => .required fun _ => scanTo_counts.andThen fun data => ?_)
  split
  · exact .fail
  · exact .pure trivial

theorem cdataSection_shortens : cdataSection.Shortens := by
  refine demand_shortens (W := fun _ => True) (by decide) (scanTo_counts.andThen fun text => ?_)
  split
  · exact .fail
  · exact .pure trivial

theorem reference_shortens : reference.Shortens := by
  refine accept_shortens (by decide) charReferenceBody_counts (accept_shortens (by decide)
    charReferenceBody_counts (demand_shortens (W := fun _ => True) (by decide)
      (name_counts.bind fun _ _ => demand_counts.andThen fun _ => ?_)))
  split
  · exact .pure trivial
  · exact .fail

/-- Where neither markup nor a reference is next, something is consumed. -/
theorem characterRunAtOnce_shortens {cur' : Cursor} (hne : ¬ RunStops cur.rest)
    (h : characterRunAtOnce cur = .ok (run, cur')) : cur'.rest.length < cur.rest.length := by
  rw [characterRunAtOnce_apply] at h
  cases hrest : cur.rest with
  | nil => exact absurd (fun c hc => nomatch hrest ▸ hc) hne
  | cons c cs =>
    have hmarkup : ¬ (c = '<' || c = '&') := fun hc => hne fun d hd => by
      rw [hrest] at hd
      obtain rfl := Option.some.inj hd
      simpa using hc
    rw [hrest, wholeRun, if_neg hmarkup] at h
    split at h
    · cases h
    split at h
    · cases h
    · have hcur : cur' = cur.advance ((wholeRun cs).1.length + 1) := by
        unfold concludeRun at h
        split at h
        · cases h
        · cases h
        · cases h
          rfl
      rw [hcur, ← hrest]
      exact Cursor.length_rest_advance_lt (Nat.succ_pos _) (hrest ▸ List.cons_ne_nil c cs)

end Reader

namespace Scanner

open Stencil.Action (Yields)

variable {α : Type} {r : Reader α} {s : Scan} {bound : Nat} {canceled : Bool}

/-- A run of character data that is scanned at once. -/
def charactersAtOnce : Scanner Unit := do
  let mark ← cursor
  let run ← read Reader.characterRunAtOnce
  unless run.isEmpty do emit mark (.characters (Text.ofChars (unifyLineEnds run)))

theorem characters_eq_atOnce (hlen : s.cursor.rest.length ≤ bound) :
    characters bound s = charactersAtOnce s := by
  have hread : read (Reader.characterRun chunkSize (bound + 1)) s =
      read Reader.characterRunAtOnce s := by
    rw [read, read, Reader.characterRun_eq_atOnce (by decide) (Nat.lt_succ_of_le hlen)]
  exact Action.bind_congr hread

/-- **A run of character data is one event.** -/
theorem charactersAtOnce_append (hrest : s.cursor.rest = run ++ rest)
    (hrun : Reader.RunBefore rest run) (hstop : Reader.RunStops rest) (hne : run ≠ []) :
    charactersAtOnce s = (.ok (), { s with
      cursor := s.cursor.advance run.length
      events := ⟨{ (s.cursor.advance run.length).position with
          line := s.cursor.line, column := s.cursor.column },
        .characters (Text.ofChars (unifyLineEnds run))⟩ :: s.events }) := by
  obtain ⟨e, hwhole, he⟩ := wholeRun_append hrun hstop
  have hread : Reader.characterRunAtOnce s.cursor = .ok (run, s.cursor.advance run.length) := by
    rw [Reader.characterRunAtOnce_apply, hrest, hwhole]
    rcases he with rfl | rfl
    · rfl
    · rfl
  change (read Reader.characterRunAtOnce >>= _) s = _
  rw [read_bind_apply, hread]
  dsimp only
  rw [if_neg (by simpa using hne)]
  rfl

/-! ### The content of elements -/

theorem read_shortens (hr : r.Shortens) :
    Yields (read r) s fun _ s' => s'.cursor.rest.length < s.cursor.rest.length := by
  intro a s' h
  rw [read] at h
  split at h
  · rename_i hread
    cases h
    exact hr _ _ _ hread
  · cases h

theorem construct_shortens {event : α → Event} (hr : r.Shortens) :
    Yields (construct r event) s fun _ s' => s'.cursor.rest.length < s.cursor.rest.length :=
  .bind (.bind (.get (.pure (.bind ((read_shortens hr).imp fun _ _ hs' => .modify hs')))))

theorem startTag_shortens :
    Yields (startTag bound) s fun _ s' => s'.cursor.rest.length < s.cursor.rest.length := by
  refine .bind (.bind (.get (.pure (.bind ((read_shortens Reader.startTag_shortens).imp
    fun tag s' hs' => .bind (.modify ?_))))))
  split
  · exact .modify hs'
  · exact .modify hs'

theorem endTag_shortens :
    Yields endTag s fun _ s' => s'.cursor.rest.length < s.cursor.rest.length :=
  .bind (.get (.bind (.bind (.get (.pure (.bind ((read_shortens Reader.endTag_shortens).imp
    fun _ _ hs' => .bind (.modify (.modify hs')))))))))

theorem charactersAtOnce_shortens (hne : ¬ Reader.RunStops s.cursor.rest) :
    Yields charactersAtOnce s fun _ s' => s'.cursor.rest.length < s.cursor.rest.length := by
  refine .bind (.bind (.get (.pure (.bind fun run s' h => ?_))))
  rw [read] at h
  split at h
  · rename_i hread
    cases h
    have hshorter := Reader.characterRunAtOnce_shortens hne hread
    split
    · exact .pure hshorter
    · exact .modify hshorter
  · cases h

/-- **Every item of content consumes something**, so what is left of a bound on the characters that
are left is still one. -/
theorem contentItem_shortens (hlen : s.cursor.rest.length ≤ bound) (hrest : s.cursor.rest ≠ []) :
    Yields (contentItem canceled bound) s
      fun _ s' => s'.cursor.rest.length < s.cursor.rest.length := by
  refine .bind (.bind (.get (.pure ?_)))
  split
  · exact endTag_shortens
  split
  · exact construct_shortens Reader.instruction_shortens
  split
  · exact construct_shortens Reader.comment_shortens
  split
  · exact construct_shortens Reader.cdataSection_shortens
  split
  · split
    · exact .bind .throw
    · exact startTag_shortens
  split
  · exact construct_shortens Reader.reference_shortens
  · rename_i hlt hamp
    rw [Yields, characters_eq_atOnce hlen]
    exact charactersAtOnce_shortens (not_runStops hrest hlt hamp)

/-- One construct of the content of an element, character data at once. -/
def contentItemAtOnce (canceled : Bool) (bound : Nat) : Scanner Unit := do
  let cur ← cursor
  if cur.startsWith "<" || cur.startsWith "&" then contentItem canceled bound else charactersAtOnce

/-- Content until every open element is closed, character data at once. -/
def contentAtOnce (canceled : Bool) : Nat → Scanner Unit
  | 0 => do unless (← get).opened.isEmpty do fail .unexpectedEnd
  | n + 1 => do
    let s ← get
    unless s.opened.isEmpty do
      if s.cursor.done then fail .unexpectedEnd
      contentItemAtOnce canceled (n + 1)
      contentAtOnce canceled n

theorem contentItem_eq_atOnce (hlen : s.cursor.rest.length ≤ bound) :
    contentItem canceled bound s = contentItemAtOnce canceled bound s := by
  change _ = (if s.cursor.startsWith "<" || s.cursor.startsWith "&" then contentItem canceled bound
    else charactersAtOnce : Scanner Unit) s
  split
  · rfl
  · rename_i hstart
    obtain ⟨hlt, hamp⟩ := not_or.mp fun h => hstart ((Bool.or_eq_true _ _).mpr h)
    have hmarkup {w : String} (hw : "<".toList <+: w.toList) : ¬ s.cursor.startsWith w := fun h =>
      hlt (List.isPrefixOf_iff_prefix.mpr (hw.trans (List.isPrefixOf_iff_prefix.mp h)))
    change (if s.cursor.startsWith "</" then _ else _ : Scanner Unit) s = _
    rw [if_neg (hmarkup (by decide)), if_neg (hmarkup (by decide)), if_neg (hmarkup (by decide)),
      if_neg (hmarkup (by decide)), if_neg hlt, if_neg hamp, characters_eq_atOnce hlen]

/-- Content does not depend on the chunks. -/
theorem content_eq_atOnce (hlen : s.cursor.rest.length ≤ n) :
    content canceled n s = contentAtOnce canceled n s := by
  induction n generalizing s with
  | zero => rfl
  | succ n ih =>
    change (if s.opened.isEmpty then pure () else _ : Scanner Unit) s =
      (if s.opened.isEmpty then pure () else _ : Scanner Unit) s
    by_cases hopened : s.opened.isEmpty
    · rw [if_pos hopened, if_pos hopened]
    rw [if_neg hopened, if_neg hopened]
    by_cases hdone : s.cursor.done
    · rw [if_pos hdone, if_pos hdone]
      rfl
    rw [if_neg hdone, if_neg hdone]
    change (contentItem canceled (n + 1) >>= fun _ => content canceled n) s =
      (contentItemAtOnce canceled (n + 1) >>= fun _ => contentAtOnce canceled n) s
    have hshorter : Yields (contentItem canceled (n + 1)) s
        fun _ s' => s'.cursor.rest.length < s.cursor.rest.length :=
      contentItem_shortens hlen (by simpa [Cursor.done] using hdone)
    rw [bind_apply, bind_apply, ← contentItem_eq_atOnce hlen]
    split
    · rename_i hitem
      have hless := hshorter _ _ hitem
      exact ih (by omega)
    · rfl

/-- A document with a root element that has the given content. -/
def documentAround (inner : Scanner Unit) : Scanner Unit := do
  let start ← cursor
  emit start .locator
  emit start .startDocument
  if atDeclaration start then construct Reader.declaration fun d => .declaration d.1 d.2.1 d.2.2
  miscs
  if (← cursor).startsWith "<!DOCTYPE" then
    construct Reader.doctype .doctype
    miscs
  let cur ← cursor
  if !cur.startsWith "<" then fail .rootRequired
  startTag cur.rest.length
  inner
  miscs
  finish

/-- A document, with its content apart. -/
theorem document_eq_around (canceled : Bool) :
    document canceled = documentAround (do content canceled (← cursor).rest.length) := rfl

end Scanner

/-- The events of a decoded source, and how reading it ended, if character data is scanned at
once. -/
def scanAtOnce (canceled : Bool) (source : List Char) : List Located × Ending :=
  match (Scanner.documentAround (do
      Scanner.contentAtOnce canceled (← Scanner.cursor).rest.length)).run
    { cursor := Cursor.start source } with
  | (.ok (), s) => (s.events.reverse, .complete)
  | (.error e, s) => (s.events.reverse, e)

/-- **A document does not depend on the chunks.** The same events are reported for it, and reading
it ends in the same way. -/
theorem scan_eq_atOnce (canceled : Bool) (source : List Char) :
    scan canceled source = scanAtOnce canceled source := by
  have hcontent : (do Scanner.content canceled (← Scanner.cursor).rest.length : Scanner Unit) =
      (do Scanner.contentAtOnce canceled (← Scanner.cursor).rest.length) :=
    funext fun _ => Scanner.content_eq_atOnce (Nat.le_refl _)
  rw [scan, Scanner.document_eq_around, hcontent]
  rfl

/-- **Scanning in chunks changes nothing**: not for a document, and not at any place for the
character data that is next, and a run of character data is one event. -/
theorem characters_unchunked (canceled : Bool) (source : List Char) :
    scan canceled source = scanAtOnce canceled source ∧
    ∀ (s : Scan) (bound : Nat), s.cursor.rest.length ≤ bound →
      Scanner.characters bound s = Scanner.charactersAtOnce s ∧
      ∀ run rest, run ≠ [] → s.cursor.rest = run ++ rest → Reader.RunBefore rest run →
        Reader.RunStops rest → Scanner.characters bound s = (.ok (), { s with
          cursor := s.cursor.advance run.length
          events := ⟨{ (s.cursor.advance run.length).position with
              line := s.cursor.line, column := s.cursor.column },
            .characters (Text.ofChars (unifyLineEnds run))⟩ :: s.events }) := by
  refine ⟨scan_eq_atOnce canceled source, fun s bound hlen => ?_⟩
  have hsame := Scanner.characters_eq_atOnce hlen
  refine ⟨hsame, fun run rest hne hrest hrun hstop => ?_⟩
  rw [hsame, Scanner.charactersAtOnce_append hrest hrun hstop hne]

theorem unifyLineEnds_replicate_append (n : Nat) (cs : List Char) :
    unifyLineEnds (List.replicate n 'a' ++ cs) = List.replicate n 'a' ++ unifyLineEnds cs := by
  induction n with
  | zero => rfl
  | succ n ih =>
    rw [List.replicate_succ, List.cons_append, unifyLineEnds, ih, List.cons_append]
    all_goals simp

/-- Letters with a line end and two brackets behind them are character data, of any length. -/
theorem letters_run (n : Nat) :
    let run := List.replicate n 'a' ++ ['\r', '\n', ']', ']']
    run.length = n + 4 ∧ (∀ k, run[n + k]? = ['\r', '\n', ']', ']'][k]?) ∧
      Grammar.CharacterData run ∧ unifyLineEnds run = List.replicate n 'a' ++ ['\n', ']', ']'] := by
  intro run
  refine ⟨by simp [run], fun k => ?_, ⟨fun c hc => ?_, fun h => ?_⟩, ?_⟩
  · rw [List.getElem?_append_right (by simp), List.length_replicate, Nat.add_sub_cancel_left]
  · rcases List.mem_append.mp hc with hc | hc
    · rw [List.eq_of_mem_replicate hc]
      decide
    · simp only [List.mem_cons, List.not_mem_nil, or_false] at hc
      rcases hc with rfl | rfl | rfl | rfl <;> decide
  · rcases List.mem_append.mp (h.mem (a := '>') (by decide)) with hc | hc
    · cases List.eq_of_mem_replicate hc
    · exact absurd hc (by decide)
  · exact unifyLineEnds_replicate_append n ['\r', '\n', ']', ']']

/-- The border of the first chunk is inside of a line end, and behind it comes what could be the
beginning of the end of a CDATA section. -/
theorem characters_unchunked_straddling :
    let run := List.replicate 255 'a' ++ ['\r', '\n', ']', ']']
    let s : Scan := { cursor := Cursor.start (run ++ ['<']), opened := ["p"] }
    chunkSize = 256 ∧ run[chunkSize - 1]? = some '\r' ∧ run[chunkSize]? = some '\n' ∧
    s.cursor.rest.length ≤ 260 ∧ Scanner.characters 260 s = Scanner.charactersAtOnce s ∧
    Scanner.characters 260 s = (.ok (), { s with
      cursor := s.cursor.advance run.length
      events := [⟨{ (s.cursor.advance run.length).position with line := 1, column := 1 },
        .characters (Text.ofChars (List.replicate 255 'a' ++ ['\n', ']', ']']))⟩] }) := by
  intro run s
  obtain ⟨hlength, hat, hdata, hunified⟩ := letters_run 255
  have hlen : s.cursor.rest.length ≤ 260 := by
    change (run ++ ['<']).length ≤ 260
    rw [List.length_append, hlength]
    decide
  have hstop : Reader.RunStops ['<'] := by simp [Reader.RunStops]
  have hrun : Reader.RunBefore ['<'] run := (Reader.runBefore_iff_characterData hstop).mpr hdata
  obtain ⟨hsame, hone⟩ := (characters_unchunked false []).2 s 260 hlen
  refine ⟨rfl, hat 0, hat 1, hlen, hsame, ?_⟩
  rw [hone run ['<'] (List.append_ne_nil_of_right_ne_nil _ (List.cons_ne_nil _ _)) rfl hrun hstop,
    hunified]
  rfl

end Stencil.Markup
