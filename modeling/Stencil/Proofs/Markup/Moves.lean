import Stencil.Proofs.Data.Action
import Stencil.Proofs.Markup.Scanners

/-!
# The moves of a scan

A scan does nothing to its cursor but move it, in one of two ways: past a number of characters, or
past a text if that is next. `Reader.Runs` and `Scanner.Runs` say which moves are made when a reader
or a scanner runs. They follow the primitives and the ways of putting them together, so that the
moves are those that are really made, one after the other, up to the place where the work is done or
stops.

Every reader and every scanner runs by moves, wherever it begins. Where they lead is where it ends,
and a fault that it finds is located there.

## Main definitions

* `Move`, `Cursor.run` – what is done to a cursor; the cursor after some moves
* `Reader.Runs`, `Scanner.Runs` – the moves that are made
* `Reader.Moves`, `Scanner.Moves` – whatever is done to the cursor is done by moves
* `Scans` – the moves that are made when a source is scanned

## Main results

* `Reader.Runs.endsAt`, `Scanner.Runs.endsAt` – where the moves lead
* `Reader.Moves.bind`, `Scanner.Moves.bind` and one lemma for every construct
* `Scanner.document_moves` – a document is read by moves
-/

namespace Stencil.Markup

/-! ### Moves -/

/-- What is done to a cursor. -/
inductive Move where
  /-- Moving over a number of characters. -/
  | past (n : Nat)
  /-- Moving over a text if it is next. -/
  | text (s : String)
  deriving DecidableEq, Repr

namespace Move

/-- The cursor behind the move. -/
def cursor : Move → Cursor → Cursor
  | past n, cur => cur.advance n
  | text s, cur => if cur.startsWith s then cur.advance s.length else cur

/-- The text that is looked for has no U+FFFD. -/
def IsClean : Move → Prop
  | past _ => True
  | text s => Clean s.toList

end Move

/-- The cursor after some moves. -/
def Cursor.run (cur : Cursor) (moves : List Move) : Cursor :=
  moves.foldl (fun cur m => m.cursor cur) cur

theorem Cursor.run_append (cur : Cursor) (moves moves' : List Move) :
    cur.run (moves ++ moves') = (cur.run moves).run moves' :=
  List.foldl_append

/-! ### The moves of a reader -/

namespace Reader

variable {α β : Type} {r : Reader α} {f : α → Reader β} {cur : Cursor} {moves : List Move}

/-- The moves that a reader makes from a cursor. -/
inductive Runs : {α : Type} → Reader α → Cursor → List Move → Prop
  | pure {α : Type} (a : α) (cur : Cursor) : Runs (pure a) cur []
  | fail {α : Type} (fault : Fault) (cur : Cursor) : Runs (fail fault : Reader α) cur []
  | cursor (cur : Cursor) : Runs Reader.cursor cur []
  | advance (n : Nat) (cur : Cursor) : Runs (advance n) cur [.past n]
  | accept {s : String} (cur : Cursor) (hs : Clean s.toList) : Runs (accept s) cur [.text s]
  /-- A reader is followed by another, -/
  | bind {α β : Type} {r : Reader α} {f : α → Reader β} {cur cur' : Cursor} {a : α}
      {moves moves' : List Move} (h : Runs r cur moves) (hr : r cur = .ok (a, cur'))
      (h' : Runs (f a) cur' moves') : Runs (r >>= f) cur (moves ++ moves')
  /-- unless it stops. -/
  | stop {α β : Type} {r : Reader α} {f : α → Reader β} {cur : Cursor} {stop : Stop}
      {moves : List Move} (h : Runs r cur moves) (hr : r cur = .error stop) :
      Runs (r >>= f) cur moves

/-- A reader with the given result is done at the cursor, or stopped there with a fault. -/
def EndsAt (cur : Cursor) : Except Stop (α × Cursor) → Prop
  | .ok (_, cur') => cur' = cur
  | .error stop => stop.position = cur.position

namespace Runs

theorem isClean (h : r.Runs cur moves) : ∀ m ∈ moves, m.IsClean := by
  induction h with
  | pure | fail | cursor => exact List.forall_mem_nil _
  | advance => exact List.forall_mem_singleton.mpr trivial
  | accept cur hs => exact List.forall_mem_singleton.mpr hs
  | bind _ _ _ ih ih' => exact List.forall_mem_append.mpr ⟨ih, ih'⟩
  | stop _ _ ih => exact ih

/-- A reader ends where its moves lead. -/
theorem endsAt (h : r.Runs cur moves) : EndsAt (cur.run moves) (r cur) := by
  induction h with
  | pure | fail | cursor | advance => rfl
  | @accept s cur hs =>
    have haccept : Reader.accept s cur = .ok (cur.startsWith s, (Move.text s).cursor cur) := by
      rw [Reader.accept, cursor_bind, Move.cursor]
      cases cur.startsWith s <;> rfl
    rw [haccept]
    rfl
  | bind _ hr _ ih ih' =>
    rw [hr] at ih
    obtain rfl := ih
    rw [bind_apply, hr, Cursor.run_append]
    exact ih'
  | stop _ hr ih =>
    rw [hr] at ih
    rw [bind_apply, hr]
    exact ih

end Runs

/-- Whatever the reader does to a cursor is done by moves. -/
def Moves (r : Reader α) : Prop := ∀ cur, ∃ moves, r.Runs cur moves

namespace Moves

theorem pure {a : α} : (pure a : Reader α).Moves := fun cur => ⟨[], .pure a cur⟩

theorem fail {fault : Fault} : (fail fault : Reader α).Moves := fun cur => ⟨[], .fail fault cur⟩

theorem bind (h : r.Moves) (hf : ∀ a, (f a).Moves) : (r >>= f).Moves := by
  intro cur
  obtain ⟨moves, hmoves⟩ := h cur
  cases hr : r cur with
  | ok found =>
    obtain ⟨moves', hmoves'⟩ := hf found.1 found.2
    exact ⟨moves ++ moves', .bind hmoves hr hmoves'⟩
  | error stop => exact ⟨moves, .stop hmoves hr⟩

theorem cursor {g : Cursor → Reader β} (h : ∀ cur, (g cur).Moves) : (Reader.cursor >>= g).Moves :=
  bind (fun cur => ⟨[], .cursor cur⟩) h

theorem ite {c : Prop} [Decidable c] {r' : Reader α} (h : r.Moves) (h' : r'.Moves) :
    (if c then r else r').Moves := by
  split
  · exact h
  · exact h'

/-- A check that stops the reader. -/
theorem guard {c : Prop} [Decidable c] {fault : Fault} {k : PUnit → Reader β} (h : (k ⟨⟩).Moves) :
    (if c then Reader.fail fault >>= k else k ⟨⟩).Moves :=
  ite (fail.bind fun _ => h) h

/-- A check that the reader has to pass. -/
theorem required {c : Prop} [Decidable c] {fault : Fault} {k : PUnit → Reader β}
    (h : (k ⟨⟩).Moves) : (if c then k ⟨⟩ else Reader.fail fault >>= k).Moves :=
  ite h (fail.bind fun _ => h)

end Moves

theorem advance_moves {n : Nat} : (advance n).Moves := fun cur => ⟨[.past n], .advance n cur⟩

/-- Texts that are looked for could be decoded. -/
theorem accept_moves {s : String} (hs : Clean s.toList) : (accept s).Moves :=
  fun cur => ⟨[.text s], .accept cur hs⟩

theorem demand_moves {s : String} {fault : Fault} (hs : Clean s.toList) : (demand s fault).Moves :=
  (accept_moves hs).bind fun _ => .ite .pure .fail

theorem takeWhile_moves {p : Char → Bool} : (takeWhile p).Moves :=
  .cursor fun _ => advance_moves.bind fun _ => .pure

theorem skipBlanks_moves : skipBlanks.Moves := takeWhile_moves.bind fun _ => .pure

theorem scanTo_moves {term : String} : (scanTo term).Moves := by
  refine .cursor fun cur => ?_
  dsimp only
  refine advance_moves.bind fun _ => ?_
  split
  · exact advance_moves.bind fun _ => .pure
  · exact .pure
  · exact .fail

theorem name_moves : name.Moves := by
  refine .cursor fun cur => ?_
  split
  · exact .fail
  · exact .guard (.guard (advance_moves.bind fun _ => .pure))

theorem qname_moves : qname.Moves := by
  refine name_moves.bind fun n => ?_
  dsimp only
  split
  · exact .pure
  · exact .guard .pure

theorem charReferenceBody_moves {base : Nat} {isDigit : Char → Bool} :
    (charReferenceBody base isDigit).Moves := by
  refine takeWhile_moves.bind fun digits => .guard ((demand_moves (by decide)).bind fun _ => ?_)
  split
  · exact .pure
  · exact .fail

theorem reference_moves : reference.Moves := by
  refine (accept_moves (by decide)).bind fun _ => .ite charReferenceBody_moves ?_
  refine (accept_moves (by decide)).bind fun _ => .ite charReferenceBody_moves ?_
  refine (demand_moves (by decide)).bind fun _ => name_moves.bind fun n =>
    (demand_moves (by decide)).bind fun _ => ?_
  split
  · exact .pure
  · exact .fail

theorem valueRest_moves {q : Char} {n : Nat} {value : List Char} : (valueRest q n value).Moves := by
  induction n generalizing value with
  | zero => exact .fail
  | succ n ih =>
    have hnext {m : Nat} {c : Char} :
        (do advance m; valueRest q n (c :: value) : Reader Text).Moves :=
      advance_moves.bind fun _ => ih
    refine .cursor fun cur => ?_
    split
    · exact .fail
    · refine .ite (advance_moves.bind fun _ => .pure) (.ite .fail ?_)
      refine .ite (reference_moves.bind fun _ => ih) ?_
      exact .ite hnext (.ite hnext (.ite .fail hnext))

theorem attributeValue_moves {bound : Nat} : (attributeValue bound).Moves := by
  refine .cursor fun cur => ?_
  split
  · exact .guard (advance_moves.bind fun _ => valueRest_moves)
  · exact .fail

theorem attr_moves {bound : Nat} : (attr bound).Moves :=
  qname_moves.bind fun _ => skipBlanks_moves.bind fun _ => (demand_moves (by decide)).bind fun _ =>
    skipBlanks_moves.bind fun _ => attributeValue_moves.bind fun _ => .pure

theorem attributes_moves {n : Nat} {attrs : List Attr} : (attributes n attrs).Moves := by
  induction n generalizing attrs with
  | zero => exact .fail
  | succ n ih =>
    refine skipBlanks_moves.bind fun blank => .cursor fun cur => .guard ?_
    refine (accept_moves (by decide)).bind fun _ => .ite .pure ?_
    refine (accept_moves (by decide)).bind fun _ => .ite .pure ?_
    exact .guard (attr_moves.bind fun _ => ih)

theorem startTag_moves {bound : Nat} : (startTag bound).Moves :=
  (demand_moves (by decide)).bind fun _ => qname_moves.bind fun _ =>
    attributes_moves.bind fun _ => .pure

theorem endTag_moves {opened : Text} : (endTag opened).Moves :=
  (demand_moves (by decide)).bind fun _ => qname_moves.bind fun _ => .guard
    (skipBlanks_moves.bind fun _ => (demand_moves (by decide)).bind fun _ => .pure)

theorem comment_moves : comment.Moves := by
  refine (demand_moves (by decide)).bind fun _ => scanTo_moves.bind fun text => ?_
  split
  · exact .fail
  · exact (demand_moves (by decide)).bind fun _ => .pure

theorem instruction_moves : instruction.Moves := by
  refine (demand_moves (by decide)).bind fun _ => name_moves.bind fun target => .guard ?_
  refine (accept_moves (by decide)).bind fun _ => .ite .pure ?_
  refine skipBlanks_moves.bind fun _ => .required (scanTo_moves.bind fun data => ?_)
  split
  · exact .fail
  · exact .pure

theorem cdataSection_moves : cdataSection.Moves := by
  refine (demand_moves (by decide)).bind fun _ => scanTo_moves.bind fun text => ?_
  split
  · exact .fail
  · exact .pure

theorem characterRun_moves {chunk n : Nat} : (characterRun chunk n).Moves := by
  induction n with
  | zero => exact .pure
  | succ n ih =>
    refine .cursor fun cur => ?_
    dsimp only
    refine advance_moves.bind fun _ => ?_
    split
    · exact ih.bind fun _ => .pure
    · exact .pure
    · exact .pure
    · exact .fail
    · exact .fail

theorem quotedText_moves : quotedText.Moves := by
  refine .cursor fun cur => ?_
  split
  · refine .guard (advance_moves.bind fun _ => scanTo_moves.bind fun text => ?_)
    split
    · exact .pure
    · exact .fail
  · exact .fail

theorem pseudoAttribute_moves {label : String} (h : Clean label.toList) :
    (pseudoAttribute label).Moves :=
  (accept_moves h).bind fun _ => .ite
    (skipBlanks_moves.bind fun _ => (demand_moves (by decide)).bind fun _ =>
      skipBlanks_moves.bind fun _ => quotedText_moves.bind fun _ => .pure) .pure

theorem declaredEncoding_moves : Reader.declaredEncoding.Moves := by
  refine (pseudoAttribute_moves (by decide)).bind fun value => ?_
  split
  · exact .pure
  · exact .guard (skipBlanks_moves.bind fun _ => .pure)

theorem declaredStandalone_moves : declaredStandalone.Moves := by
  refine (pseudoAttribute_moves (by decide)).bind fun value => ?_
  split
  · exact .pure
  · exact .guard (skipBlanks_moves.bind fun _ => .pure)

theorem declaration_moves : declaration.Moves := by
  refine (demand_moves (by decide)).bind fun _ => skipBlanks_moves.bind fun _ => .required ?_
  refine (pseudoAttribute_moves (by decide)).bind fun version => ?_
  split
  · exact .fail
  · exact .guard (skipBlanks_moves.bind fun _ => declaredEncoding_moves.bind fun _ =>
      declaredStandalone_moves.bind fun _ => (demand_moves (by decide)).bind fun _ => .pure)

theorem doctype_moves : doctype.Moves := by
  refine .cursor fun cur => ?_
  dsimp only
  split
  · exact advance_moves.bind fun _ => .pure
  · exact advance_moves.bind fun _ => .fail

end Reader

/-! ### The moves of a scan -/

namespace Scanner

variable {α β : Type} {x : Scanner α} {f : α → Scanner β} {s : Scan} {moves : List Move}

/-- The moves that a scanner makes from a state. What it changes besides does not touch the cursor,
and what was reported stays reported. -/
inductive Runs : {α : Type} → Scanner α → Scan → List Move → Prop
  | pure {α : Type} (a : α) (s : Scan) : Runs (pure a) s []
  | get (s : Scan) : Runs get s []
  | modify {g : Scan → Scan} (s : Scan) (hcursor : (g s).cursor = s.cursor)
      (hevents : s.events <:+ (g s).events) : Runs (modify g) s []
  | canceled (s : Scan) : Runs (throw .canceled : Scanner PUnit) s []
  | read {α : Type} {r : Reader α} {s : Scan} {moves : List Move} (h : r.Runs s.cursor moves) :
      Runs (read r) s moves
  /-- A scanner is followed by another, -/
  | bind {α β : Type} {x : Scanner α} {f : α → Scanner β} {s s' : Scan} {a : α}
      {moves moves' : List Move} (h : Runs x s moves) (hx : x s = (.ok a, s'))
      (h' : Runs (f a) s' moves') : Runs (x >>= f) s (moves ++ moves')
  /-- unless it ends the scan. -/
  | stop {α β : Type} {x : Scanner α} {f : α → Scanner β} {s s' : Scan} {e : Ending}
      {moves : List Move} (h : Runs x s moves) (hx : x s = (.error e, s')) : Runs (x >>= f) s moves

/-- A scanner with the given result is done at the cursor, or the fault is there that ended it. -/
def EndsAt (cur : Cursor) : Except Ending α × Scan → Prop
  | (.ok _, s') => s'.cursor = cur
  | (.error (.fault stop), _) => stop.position = cur.position
  | (.error _, _) => True

namespace Runs

theorem isClean (h : x.Runs s moves) : ∀ m ∈ moves, m.IsClean := by
  induction h with
  | pure | get | modify | canceled => exact List.forall_mem_nil _
  | read h => exact h.isClean
  | bind _ _ _ ih ih' => exact List.forall_mem_append.mpr ⟨ih, ih'⟩
  | stop _ _ ih => exact ih

/-- A scan ends where its moves lead. -/
theorem endsAt (h : x.Runs s moves) : EndsAt (s.cursor.run moves) (x s) := by
  induction h with
  | pure | get => rfl
  | modify s hcursor => exact hcursor
  | canceled => trivial
  | @read α r s moves h =>
    have hends := h.endsAt
    rw [Scanner.read]
    cases hr : r s.cursor with
    | ok found =>
      rw [hr] at hends
      exact hends
    | error stop =>
      rw [hr] at hends
      exact hends
  | @bind _ _ _ _ s s' _ moves _ _ hx _ ih ih' =>
    rw [hx] at ih
    have hcursor : s'.cursor = s.cursor.run moves := ih
    rw [Action.bind_apply, hx, Cursor.run_append, ← hcursor]
    exact ih'
  | @stop _ _ _ _ _ _ e _ _ hx ih =>
    rw [hx] at ih
    rw [Action.bind_apply, hx]
    cases e <;> exact ih

theorem events_suffix (h : x.Runs s moves) : s.events <:+ (x s).2.events := by
  induction h with
  | pure | get | canceled => exact List.suffix_refl _
  | modify s _ hevents => exact hevents
  | @read α r s moves h =>
    rw [Scanner.read]
    cases r s.cursor <;> exact List.suffix_refl _
  | bind _ hx _ ih ih' =>
    rw [hx] at ih
    rw [Action.bind_apply, hx]
    exact ih.trans ih'
  | stop _ hx ih =>
    rw [hx] at ih
    rw [Action.bind_apply, hx]
    exact ih

end Runs

/-- Whatever the scanner does to the cursor is done by moves. -/
def Moves (x : Scanner α) : Prop := ∀ s, ∃ moves, x.Runs s moves

namespace Moves

theorem pure {a : α} : (pure a : Scanner α).Moves := fun s => ⟨[], .pure a s⟩

theorem get : (get : Scanner Scan).Moves := fun s => ⟨[], .get s⟩

theorem modify {g : Scan → Scan} (h : ∀ s, (g s).cursor = s.cursor ∧ s.events <:+ (g s).events) :
    (modify g : Scanner PUnit).Moves := fun s => ⟨[], .modify s (h s).1 (h s).2⟩

theorem bind (h : x.Moves) (hf : ∀ a, (f a).Moves) : (x >>= f).Moves := by
  intro s
  obtain ⟨moves, hmoves⟩ := h s
  rcases hx : x s with ⟨e | a, s'⟩
  · exact ⟨moves, .stop hmoves hx⟩
  · obtain ⟨moves', hmoves'⟩ := hf a s'
    exact ⟨moves ++ moves', .bind hmoves hx hmoves'⟩

end Moves

theorem canceled_moves : (throw .canceled : Scanner PUnit).Moves := fun s => ⟨[], .canceled s⟩

theorem read_moves {r : Reader α} (h : r.Moves) : (read r).Moves := fun s =>
  (h s.cursor).imp fun _ => .read

theorem cursor_moves : cursor.Moves := .bind .get fun _ => .pure

theorem fail_moves {fault : Fault} : (fail fault : Scanner α).Moves := read_moves .fail

theorem emit_moves {mark : Cursor} {event : Event} : (emit mark event).Moves :=
  .modify fun _ => ⟨rfl, List.suffix_cons _ _⟩

theorem construct_moves {r : Reader α} {event : α → Event} (h : r.Moves) :
    (construct r event).Moves :=
  .bind cursor_moves fun _ => .bind (read_moves h) fun _ => emit_moves

theorem startTag_moves {bound : Nat} : (startTag bound).Moves := by
  refine .bind cursor_moves fun _ => .bind (read_moves Reader.startTag_moves) fun tag =>
    .bind emit_moves fun _ => ?_
  split
  · exact emit_moves
  · exact .modify fun _ => ⟨rfl, List.suffix_refl _⟩

theorem endTag_moves : endTag.Moves :=
  .bind .get fun _ => .bind cursor_moves fun _ => .bind (read_moves Reader.endTag_moves) fun _ =>
    .bind (.modify fun _ => ⟨rfl, List.suffix_refl _⟩) fun _ => emit_moves

theorem characters_moves {bound : Nat} : (characters bound).Moves := by
  refine .bind cursor_moves fun _ => .bind (read_moves Reader.characterRun_moves) fun run => ?_
  split
  · exact .pure
  · exact emit_moves

theorem contentItem_moves {canceled : Bool} {bound : Nat} : (contentItem canceled bound).Moves := by
  refine .bind cursor_moves fun _ => ?_
  repeat' split
  · exact endTag_moves
  · exact construct_moves Reader.instruction_moves
  · exact construct_moves Reader.comment_moves
  · exact construct_moves Reader.cdataSection_moves
  · exact .bind canceled_moves fun _ => startTag_moves
  · exact startTag_moves
  · exact construct_moves Reader.reference_moves
  · exact characters_moves

theorem content_moves {canceled : Bool} {bound : Nat} : (content canceled bound).Moves := by
  induction bound with
  | zero =>
    refine .bind .get fun _ => ?_
    split
    · exact .pure
    · exact fail_moves
  | succ bound ih =>
    have hitem :
        (do contentItem canceled (bound + 1); content canceled bound : Scanner Unit).Moves :=
      .bind contentItem_moves fun _ => ih
    refine .bind .get fun _ => ?_
    repeat' split
    · exact .pure
    · exact .bind fail_moves fun _ => hitem
    · exact hitem

theorem misc_moves {bound : Nat} : (misc bound).Moves := by
  induction bound with
  | zero => exact .pure
  | succ bound ih =>
    refine .bind (read_moves Reader.skipBlanks_moves) fun _ => .bind cursor_moves fun _ => ?_
    repeat' split
    · exact .bind (construct_moves Reader.instruction_moves) fun _ => ih
    · exact .bind (construct_moves Reader.comment_moves) fun _ => ih
    · exact .pure

theorem miscs_moves : miscs.Moves := .bind cursor_moves fun _ => misc_moves

theorem finish_moves : finish.Moves := by
  refine .bind cursor_moves fun last => ?_
  split
  · exact .bind fail_moves fun _ => emit_moves
  · exact emit_moves

theorem fromRoot_moves {canceled : Bool} : (fromRoot canceled).Moves := by
  have htag {n : Nat} : (do startTag n; fromContent canceled : Scanner Unit).Moves :=
    .bind startTag_moves fun _ => .bind cursor_moves fun _ => .bind content_moves fun _ =>
      .bind miscs_moves fun _ => finish_moves
  refine .bind cursor_moves fun cur => ?_
  split
  · exact .bind fail_moves fun _ => htag
  · exact htag

theorem fromProlog_moves {canceled : Bool} : (fromProlog canceled).Moves := by
  refine .bind miscs_moves fun _ => .bind cursor_moves fun cur => ?_
  split
  · exact .bind (construct_moves Reader.doctype_moves) fun _ => .bind miscs_moves fun _ =>
      fromRoot_moves
  · exact fromRoot_moves

/-- What comes behind the start of a document. -/
theorem declared_moves (canceled : Bool) (start : Cursor) :
    (do if atDeclaration start then
          construct Reader.declaration fun d => .declaration d.1 d.2.1 d.2.2
        fromProlog canceled : Scanner Unit).Moves := by
  split
  · exact .bind (construct_moves Reader.declaration_moves) fun _ => fromProlog_moves
  · exact fromProlog_moves

theorem document_moves {canceled : Bool} : (document canceled).Moves := by
  rw [document_eq]
  exact .bind cursor_moves fun _ => .bind emit_moves fun _ => .bind emit_moves fun _ =>
    declared_moves _ _

end Scanner

/-! ### Sources -/

/-- The moves that are made when a source is scanned. -/
def Scans (canceled : Bool) (source : List Char) (moves : List Move) : Prop :=
  (Scanner.document canceled).Runs { cursor := Cursor.start source } moves

theorem scan_fst (canceled : Bool) (source : List Char) : (scan canceled source).1 =
    (Scanner.document canceled { cursor := Cursor.start source }).2.events.reverse := by
  rw [scan, ExceptT.run]
  rcases Scanner.document canceled { cursor := Cursor.start source } with ⟨_ | _, s⟩ <;> rfl

theorem exists_of_scan_fault {canceled : Bool} {source : List Char} {stop : Stop}
    (h : (scan canceled source).2 = .fault stop) : ∃ s,
      Scanner.document canceled { cursor := Cursor.start source } = (.error (.fault stop), s) := by
  rw [scan, ExceptT.run] at h
  split at h
  · cases h
  · rename_i e s hs
    obtain rfl : e = .fault stop := h
    exact ⟨s, hs⟩

/-- The locator is reported first, at the start of the source. -/
theorem exists_locator (canceled : Bool) (source : List Char) : ∃ ls,
    (scan canceled source).1 = ⟨(Cursor.start source).position, .locator⟩ :: ls := by
  let cur := Cursor.start source
  let s : Scan := {
    cursor := cur
    events := [⟨cur.position, .startDocument⟩, ⟨cur.position, .locator⟩] }
  obtain ⟨moves, hmoves⟩ := Scanner.declared_moves canceled cur s
  obtain ⟨es, hes⟩ := hmoves.events_suffix
  refine ⟨⟨cur.position, .startDocument⟩ :: es.reverse, ?_⟩
  rw [scan_fst, Scanner.document_eq]
  refine (congrArg List.reverse hes.symm).trans ?_
  rw [List.reverse_append]
  rfl

end Stencil.Markup
