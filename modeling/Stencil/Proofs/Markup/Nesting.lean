import Stencil.Proofs.Data.Action
import Stencil.Proofs.Markup.Protocol

/-!
# Nested events

Events come one after the other, but what they say is nested: between a start tag and its end tag
stands what is in the element. A `Forest` is a list of events with that structure made explicit, so
that functions of a document can be defined by recursion over its elements. The events of every
document that is read to its end are those of a forest, between the events that begin and end the
document, and no other forest has the same events.

What holds of every event that a reader makes holds of all events of a source, by an invariant of
the scan; for instance, reading reports no empty character data.

## Main definitions

* `Markup.events` – the events of a source
* `Forest`, `Forest.events` – nested events, and the same without structure
* `Reported` – a property of all events that readers make
* `Event.IsFull` – character data is not empty

## Main results

* `exists_forest_of_complete`, `Forest.eq_of_events_append`
* `Reported.of_mem_events`, `isFull_of_mem_events` – what holds of all events of a source
* `deliver_of_read_ok`, `deliver_of_read_refused` – reading in terms of the events of the source
-/

namespace Stencil.Markup

/-! ### Around the root element -/

/-- What stands before the root element. -/
def IsProlog : Event → Prop
  | .declaration .. | .doctype _ => True
  | e => Trace.IsMisc e

theorem isProlog_of_isMisc {e : Event} (h : Trace.IsMisc e) : IsProlog e := by
  cases e <;> trivial

theorem forall_of_mem_miscs {es : List Event} (h : es ∈ Trace.miscs) :
    ∀ e ∈ es, Trace.IsMisc e := by
  obtain ⟨l, rfl, hl⟩ := Language.mem_kstar.mp h
  intro e he
  obtain ⟨w, hw, hew⟩ := List.mem_flatten.mp he
  obtain ⟨e', he', rfl⟩ := Trace.mem_one.mp (hl w hw)
  rwa [List.mem_singleton.mp hew]

/-- The root element begins with the first start tag. -/
theorem exists_root_of_complete {es : List Event} (h : es ∈ Trace.complete) :
    ∃ pre tag inner tag' after, es = .locator :: .startDocument :: (pre ++ .startTag tag ::
        (inner ++ .endTag tag' :: (after ++ [.endDocument]))) ∧
      (∀ e ∈ pre, IsProlog e) ∧ Trace.Content inner ∧ (tag.selfClosing → inner = []) ∧
      ∀ e ∈ after, Trace.IsMisc e := by
  obtain ⟨b₁, h₁, -, ⟨_, rfl, rfl⟩, rfl⟩ := Language.mem_mul.mp h
  obtain ⟨b₂, h₂, after, hafter, rfl⟩ := Language.mem_mul.mp h₁
  obtain ⟨b₃, h₃, root, hroot, rfl⟩ := Language.mem_mul.mp h₂
  obtain ⟨b₄, h₄, type, htype, rfl⟩ := Language.mem_mul.mp h₃
  obtain ⟨b₅, h₅, misc, hmisc, rfl⟩ := Language.mem_mul.mp h₄
  obtain ⟨b₆, h₆, decl, hdecl, rfl⟩ := Language.mem_mul.mp h₅
  obtain ⟨-, ⟨_, rfl, rfl⟩, -, ⟨_, rfl, rfl⟩, rfl⟩ := Language.mem_mul.mp h₆
  have hdecl' : ∀ e ∈ decl, IsProlog e := by
    rcases (Language.mem_add _ _ _).mp hdecl with hdecl | ⟨_, ⟨v, enc, alone, rfl⟩, rfl⟩
    · simp [(Language.mem_one _).mp hdecl]
    · simp [IsProlog]
  have hmisc' : ∀ {es : List Event}, es ∈ Trace.miscs → ∀ e ∈ es, IsProlog e := by
    intro es hes e he
    exact isProlog_of_isMisc (forall_of_mem_miscs hes e he)
  have htype' : ∀ e ∈ type, IsProlog e := by
    rcases (Language.mem_add _ _ _).mp htype with htype | htype
    · simp [(Language.mem_one _).mp htype]
    · obtain ⟨-, ⟨_, ⟨raw, rfl⟩, rfl⟩, rest, hrest, rfl⟩ := Language.mem_mul.mp htype
      intro e he
      rcases List.mem_cons.mp he with rfl | he
      · trivial
      · exact hmisc' hrest e he
  obtain ⟨tag, inner, tag', rfl, hinner, hclose⟩ : ∃ tag inner tag',
      root = .startTag tag :: (inner ++ [.endTag tag']) ∧ Trace.Content inner ∧
        (tag.selfClosing → inner = []) := by
    rcases Trace.mem_element.mp hroot with ⟨-⟩ | ⟨hopen, -, hcontent⟩
    · exact ⟨_, [], _, rfl, .nil, fun _ => rfl⟩
    · exact ⟨_, _, _, rfl, hcontent, fun h => absurd h hopen⟩
  refine ⟨decl ++ misc ++ type, tag, inner, tag', after, by simp, fun e he => ?_, hinner, hclose,
    forall_of_mem_miscs hafter⟩
  simp only [List.mem_append] at he
  rcases he with (he | he) | he
  · exact hdecl' e he
  · exact hmisc' hmisc e he
  · exact htype' e he

/-! ### Events that are accepted -/

theorem deliver_cons {σ ε : Type} {receive : Located → σ → Except ε Unit × σ} {l : Located}
    {ls : List Located} {x x' : σ} (h : deliver receive (l :: ls) x = (none, x')) :
    ∃ y, receive l x = (.ok (), y) ∧ deliver receive ls y = (none, x') := by
  rw [deliver] at h
  split at h
  · rename_i y hy
    exact ⟨y, hy, h⟩
  · cases h

theorem deliver_append {σ ε : Type} {receive : Located → σ → Except ε Unit × σ}
    {l₁ l₂ : List Located}
    {x x' : σ} (h : deliver receive (l₁ ++ l₂) x = (none, x')) :
    ∃ y, deliver receive l₁ x = (none, y) ∧ deliver receive l₂ y = (none, x') := by
  induction l₁ generalizing x with
  | nil => exact ⟨x, rfl, h⟩
  | cons e l₁ ih =>
    obtain ⟨y, hy, hrest⟩ := deliver_cons h
    obtain ⟨z, hz, hrest⟩ := ih hrest
    exact ⟨z, by rw [deliver, hy]; exact hz, hrest⟩

/-- Events behind accepted ones. -/
theorem deliver_append_of {σ ε : Type} {receive : Located → σ → Except ε Unit × σ}
    {l₁ l₂ : List Located} {x y : σ} (h : deliver receive l₁ x = (none, y)) :
    deliver receive (l₁ ++ l₂) x = deliver receive l₂ y := by
  induction l₁ generalizing x with
  | nil => exact congrArg (deliver receive l₂) (congrArg Prod.snd h)
  | cons e l₁ ih =>
    obtain ⟨z, hz, hrest⟩ := deliver_cons h
    rw [List.cons_append, deliver, hz]
    exact ih hrest

/-! ### The events of a source -/

/-- The events of a source, as far as it can be read. -/
def events [Encoding.Decoders] (source : Text) : List Located :=
  match (decodeSource source : Except (ReadError Empty) (List Char)) with
  | .error _ => []
  | .ok cs => (scan false cs).1

/-- What a source is decoded to has nothing to do with what is made of it. -/
theorem decodeSource_eq_ok [Encoding.Decoders] {ε δ : Type} {source : Text} {cs : List Char}
    (h : (decodeSource source : Except (ReadError ε) (List Char)) = .ok cs) :
    (decodeSource source : Except (ReadError δ) (List Char)) = .ok cs := by
  rw [decodeSource] at h ⊢
  dsimp only at h ⊢
  split at h
  · cases h
  · split at h
    · cases h
    · cases h
      rfl

theorem events_eq [Encoding.Decoders] {ε : Type} {source : Text} {cs : List Char}
    (h : (decodeSource source : Except (ReadError ε) (List Char)) = .ok cs) :
    events source = (scan false cs).1 := by
  rw [events, decodeSource_eq_ok h]

variable {σ ε : Type} {receive : Located → σ → Except ε Unit × σ} {source : Text} {s s' : σ}

/-- A source that is read to its end is scanned to its end, and all events are accepted. -/
theorem exists_scan_of_read_ok [Encoding.Decoders] {canceled : Bool}
    (h : read receive canceled source s = (.ok (), s')) : ∃ cs ls,
    (decodeSource source : Except (ReadError ε) (List Char)) = .ok cs ∧
      scan canceled cs = (ls, .complete) ∧ deliver receive ls s = (none, s') := by
  rw [read] at h
  split at h
  · cases h
  rename_i cs hcs
  dsimp only at h
  split at h
  · cases h
  rename_i x hdeliver
  cases hscan : scan canceled cs with
  | mk ls ending =>
    rw [hscan] at h hdeliver
    cases ending with
    | complete =>
      cases h
      exact ⟨cs, ls, hcs, hscan, hdeliver⟩
    | canceled => cases h
    | fault stop => cases h

/-- A source that is read to its end has the events of a document, and all of them are accepted. -/
theorem deliver_of_read_ok [Encoding.Decoders] (h : read receive false source s = (.ok (), s')) :
    (events source).map Located.event ∈ Trace.complete ∧
      deliver receive (events source) s = (none, s') := by
  obtain ⟨cs, ls, hcs, hscan, hdeliver⟩ := exists_scan_of_read_ok h
  have hevents : events source = ls := by rw [events_eq hcs, hscan]
  rw [hevents]
  obtain ⟨-, hcomplete, -⟩ | ⟨hne, -⟩ := scan_shape hscan
  · exact ⟨hcomplete, hdeliver⟩
  · exact absurd rfl hne

/-- A source that was read to its end is read to its end wherever its events are accepted. -/
theorem read_of_deliver [Encoding.Decoders] {t t' : σ}
    (h : read receive false source s = (.ok (), s'))
    (hdeliver : deliver receive (events source) t = (none, t')) :
    read receive false source t = (.ok (), t') := by
  obtain ⟨cs, ls, hcs, hscan, -⟩ := exists_scan_of_read_ok h
  rw [events_eq hcs, hscan] at hdeliver
  rw [read, hcs]
  simp only [hscan, hdeliver]

/-- What is delivered before an event is refused. -/
theorem deliver_refused {ls : List Located} {l : Located} {e : ε}
    (h : deliver receive ls s = (some (l, e), s')) : ∃ pre post x, ls = pre ++ l :: post ∧
      deliver receive pre s = (none, x) ∧ receive l x = (.error e, s') := by
  induction ls generalizing s with
  | nil => cases h
  | cons m ls ih =>
    rw [deliver] at h
    split at h
    · rename_i x hx
      obtain ⟨pre, post, y, rfl, hpre, hl⟩ := ih h
      exact ⟨m :: pre, post, y, rfl, by rw [deliver, hx]; exact hpre, hl⟩
    · rename_i err x hx
      cases h
      exact ⟨[], ls, s, rfl, rfl, hx⟩

/-- The events of a source up to the one that is refused. -/
theorem deliver_of_read_refused [Encoding.Decoders] {p : Position} {e : ε}
    (h : read receive false source s = (.error (.refused p e), s')) : ∃ pre l post x,
      events source = pre ++ l :: post ∧ deliver receive pre s = (none, x) ∧
        receive l x = (.error e, s') := by
  rw [read] at h
  split at h
  · rename_i err herr
    rw [decodeSource] at herr
    dsimp only at herr
    split at herr
    · cases herr
      cases h
    · split at herr
      · cases herr
        cases h
      · cases herr
  rename_i cs hcs
  rw [events_eq hcs]
  dsimp only at h
  generalize scan false cs = result at h ⊢
  obtain ⟨ls, ending⟩ := result
  dsimp only at h
  split at h
  · rename_i l err x hdeliver
    cases h
    obtain ⟨pre, post, y, hls, hpre, hl⟩ := deliver_refused hdeliver
    exact ⟨pre, l, post, y, hls, hpre, hl⟩
  · cases ending <;> cases h

/-! ### Nested events -/

/-- An event that neither begins nor ends anything. -/
def IsSingle : Event → Prop
  | .locator | .startDocument | .endDocument | .startTag _ | .endTag _ => False
  | _ => True

theorem isSingle_of_isMisc {e : Event} (h : Trace.IsMisc e) : IsSingle e := by
  cases e <;> trivial

theorem isSingle_of_isProlog {e : Event} (h : IsProlog e) : IsSingle e := by
  cases e <;> trivial

theorem isSingle_of_isLeaf {e : Event} (h : Trace.IsLeaf e) : IsSingle e := by
  cases e <;> trivial

/-- Nested events next to each other. -/
inductive Forest where
  /-- There are no more. -/
  | nil
  /-- An event by itself, and those behind it. -/
  | single (l : Located) (h : IsSingle l.event) (rest : Forest)
  /-- An element with its tags and the events between them, and those behind it. -/
  | element (start : Position) (tag : Tag) (inner : Forest) (stop : Position) (tag' : Tag)
      (rest : Forest)

namespace Forest

/-- The events in the order of reading. -/
def events : Forest → List Located
  | nil => []
  | single l _ rest => l :: rest.events
  | element start tag inner stop tag' rest =>
    ⟨start, .startTag tag⟩ :: (inner.events ++ ⟨stop, .endTag tag'⟩ :: rest.events)

/-- The one behind the other. -/
def append : Forest → Forest → Forest
  | nil, g => g
  | single l h rest, g => single l h (rest.append g)
  | element start tag inner stop tag' rest, g =>
    element start tag inner stop tag' (rest.append g)

@[simp] theorem events_append (f g : Forest) : (f.append g).events = f.events ++ g.events := by
  induction f with
  | nil => rfl
  | single l h rest ih => simp [append, events, ih]
  | element start tag inner stop tag' rest _ ih => simp [append, events, ih]

/-- Events by themselves. -/
theorem exists_of_single {ls : List Located} (h : ∀ l ∈ ls, IsSingle l.event) :
    ∃ f : Forest, f.events = ls := by
  induction ls with
  | nil => exact ⟨nil, rfl⟩
  | cons l ls ih =>
    obtain ⟨f, rfl⟩ := ih fun m hm => h m (List.mem_cons_of_mem _ hm)
    exact ⟨single l (h l List.mem_cons_self) f, rfl⟩

/-- The events between the tags of an element. -/
theorem exists_of_content {es : List Event} (h : Trace.Content es) {ls : List Located}
    (hls : ls.map Located.event = es) : ∃ f : Forest, f.events = ls := by
  induction h generalizing ls with
  | nil =>
    obtain rfl := List.map_eq_nil_iff.mp hls
    exact ⟨nil, rfl⟩
  | leaf he _ ih =>
    obtain ⟨l, ls, rfl, rfl, hrest⟩ := List.map_eq_cons_iff.mp hls
    obtain ⟨f, rfl⟩ := ih hrest
    exact ⟨single l (isSingle_of_isLeaf he) f, rfl⟩
  | empty _ _ ih =>
    obtain ⟨⟨start, _⟩, ls₁, rfl, rfl, hls₁⟩ := List.map_eq_cons_iff.mp hls
    obtain ⟨⟨stop, _⟩, ls₂, rfl, rfl, hls₂⟩ := List.map_eq_cons_iff.mp hls₁
    obtain ⟨f, rfl⟩ := ih hls₂
    exact ⟨element start _ nil stop _ f, rfl⟩
  | element _ _ _ _ ih ih' =>
    rw [List.cons_append] at hls
    obtain ⟨⟨start, _⟩, ls₁, rfl, rfl, hls₁⟩ := List.map_eq_cons_iff.mp hls
    obtain ⟨inner, ls₂, rfl, hinner, hls₂⟩ := List.map_eq_append_iff.mp hls₁
    obtain ⟨⟨stop, _⟩, ls₃, rfl, rfl, hls₃⟩ := List.map_eq_cons_iff.mp hls₂
    obtain ⟨f, rfl⟩ := ih hinner
    obtain ⟨g, rfl⟩ := ih' hls₃
    exact ⟨element start _ f stop _ g, rfl⟩

/-- What cannot go on with an event of a forest. -/
def Stops (ls : List Located) : Prop :=
  ∀ l ∈ ls.head?, ¬ IsSingle l.event ∧ ∀ tag, l.event ≠ .startTag tag

/-- A forest can be told from its events, whatever ends them. -/
theorem eq_of_events_append {f g : Forest} {ls ms : List Located} (hls : Stops ls) (hms : Stops ms)
    (h : f.events ++ ls = g.events ++ ms) : f = g ∧ ls = ms := by
  have hend (p : Position) (tag : Tag) (ls : List Located) : Stops (⟨p, .endTag tag⟩ :: ls) := by
    intro l hl
    obtain rfl := Option.some.inj hl
    exact ⟨id, nofun⟩
  have hnil {f : Forest} {ls ms : List Located} (hms : Stops ms) (h : ms = f.events ++ ls) :
      nil = f ∧ ms = ls := by
    cases f with
    | nil => exact ⟨rfl, h⟩
    | single l hl rest => exact absurd hl (hms l (by rw [h]; rfl)).1
    | element start tag inner stop tag' rest =>
      exact absurd rfl ((hms ⟨start, .startTag tag⟩ (by rw [h]; rfl)).2 tag)
  induction f generalizing g ls ms with
  | nil => exact hnil hls h
  | single l hl rest ih =>
    cases g with
    | nil => exact absurd hl (hms l (by rw [show ms = _ from h.symm]; rfl)).1
    | single m hm rest' =>
      obtain ⟨rfl, hrest⟩ := List.cons.inj h
      obtain ⟨rfl, rfl⟩ := ih hls hms hrest
      exact ⟨rfl, rfl⟩
    | element start tag inner stop tag' rest' =>
      obtain ⟨rfl, -⟩ := List.cons.inj h
      exact hl.elim
  | element start tag inner stop tag' rest ih ih' =>
    cases g with
    | nil =>
      exact absurd rfl ((hms ⟨start, .startTag tag⟩ (by rw [show ms = _ from h.symm]; rfl)).2 tag)
    | single m hm rest' =>
      obtain ⟨rfl, -⟩ := List.cons.inj h
      exact hm.elim
    | element start' tag₂ inner' stop' tag₂' rest' =>
      obtain ⟨hstart, hinner⟩ : (start = start' ∧ tag = tag₂) ∧
          inner.events ++ ⟨stop, .endTag tag'⟩ :: (rest.events ++ ls) =
            inner'.events ++ ⟨stop', .endTag tag₂'⟩ :: (rest'.events ++ ms) := by
        simpa [events] using h
      obtain ⟨rfl, hrest⟩ := ih (hend _ _ _) (hend _ _ _) hinner
      obtain ⟨hstop, hrest⟩ : (stop = stop' ∧ tag' = tag₂') ∧
          rest.events ++ ls = rest'.events ++ ms := by
        simpa using hrest
      obtain ⟨rfl, rfl⟩ := ih' hls hms hrest
      obtain ⟨rfl, rfl⟩ := hstart
      obtain ⟨rfl, rfl⟩ := hstop
      exact ⟨rfl, rfl⟩

end Forest

/-- The events of a document are nested. -/
theorem exists_forest_of_complete {ls : List Located}
    (h : ls.map Located.event ∈ Trace.complete) : ∃ first second, ∃ f : Forest, ∃ last,
      ls = first :: second :: (f.events ++ [last]) ∧ first.event = .locator ∧
        second.event = .startDocument ∧ last.event = .endDocument := by
  obtain ⟨pre, tag, inner, tag', after, hevents, hpre, hinner, -, hafter⟩ :=
    exists_root_of_complete h
  obtain ⟨first, ls₁, rfl, hfirst, hls₁⟩ := List.map_eq_cons_iff.mp hevents
  obtain ⟨second, ls₂, rfl, hsecond, hls₂⟩ := List.map_eq_cons_iff.mp hls₁
  obtain ⟨pre, ls₃, rfl, rfl, hls₃⟩ := List.map_eq_append_iff.mp hls₂
  obtain ⟨⟨start, _⟩, ls₄, rfl, rfl, hls₄⟩ := List.map_eq_cons_iff.mp hls₃
  obtain ⟨inner, ls₅, rfl, rfl, hls₅⟩ := List.map_eq_append_iff.mp hls₄
  obtain ⟨⟨stop, _⟩, ls₆, rfl, rfl, hls₆⟩ := List.map_eq_cons_iff.mp hls₅
  obtain ⟨after, ls₇, rfl, rfl, hls₇⟩ := List.map_eq_append_iff.mp hls₆
  obtain ⟨last, ls₈, rfl, hlast, hls₈⟩ := List.map_eq_cons_iff.mp hls₇
  obtain rfl := List.map_eq_nil_iff.mp hls₈
  obtain ⟨f, rfl⟩ := Forest.exists_of_single fun l hl =>
    isSingle_of_isProlog (hpre _ (List.mem_map_of_mem hl))
  obtain ⟨g, rfl⟩ := Forest.exists_of_content hinner rfl
  obtain ⟨k, rfl⟩ := Forest.exists_of_single fun l hl =>
    isSingle_of_isMisc (hafter _ (List.mem_map_of_mem hl))
  exact ⟨first, second, f.append (.element start _ g stop _ k), last,
    by rw [Forest.events_append, Forest.events, List.append_assoc, List.cons_append,
      List.append_assoc, List.cons_append], hfirst, hsecond, hlast⟩

/-! ### What is reported -/

/-- The encoding that a declaration names; empty if it names none. -/
def Event.declared? : Event → Option Text
  | .declaration _ encoding _ => some encoding
  | _ => none

/-- A property of all events that readers make behind the declaration. Nothing is known of the texts
of instructions, sections and comments. -/
structure Reported (P : Event → Prop) : Prop where
  startTag {bound : Nat} {cur cur' : Cursor} {tag : Tag} :
    Reader.startTag bound cur = .ok (tag, cur') → P (.startTag tag)
  reference {cur cur' : Cursor} {c : Char} :
    Reader.reference cur = .ok (c, cur') → P (.characters (Text.ofChars [c]))
  run {chunk bound : Nat} {cur cur' : Cursor} {run : List Char} :
    Reader.characterRun chunk bound cur = .ok (run, cur') → run ≠ [] →
      P (.characters (Text.ofChars (unifyLineEnds run)))
  other (e : Event) : (∀ tag, e ≠ .startTag tag) → (∀ t, e ≠ .characters t) →
    e.declared? = none → P e

/-- Only events with the property are added to what was reported. -/
def Scan.Stays (P : Event → Prop) (s s' : Scan) : Prop :=
  ∃ ls, s'.events = ls ++ s.events ∧ ∀ l ∈ ls, P l.event

namespace Scan.Stays

variable {P : Event → Prop} {s s' : Scan}

instance : Std.Refl (Scan.Stays P) := ⟨fun _ => ⟨[], rfl, List.forall_mem_nil _⟩⟩

instance : Trans (Scan.Stays P) (Scan.Stays P) (Scan.Stays P) := ⟨by
  rintro s s' s'' ⟨ls, hs, hls⟩ ⟨ls', hs', hls'⟩
  exact ⟨ls' ++ ls, by rw [hs', hs, List.append_assoc], List.forall_mem_append.mpr ⟨hls', hls⟩⟩⟩

theorem of_events (h : s'.events = s.events) : s.Stays P s' := ⟨[], h, List.forall_mem_nil _⟩

end Scan.Stays

namespace Scanner

variable {α : Type} {s : Scan} {P : Event → Prop}

open Stencil.Action (Keeps)

theorem cursor_stays : Keeps (Scan.Stays P) cursor s := .of_events rfl

theorem read_stays {r : Reader α} : Keeps (Scan.Stays P) (read r) s := by
  rw [Keeps, read]
  split <;> exact .of_events rfl

theorem exists_of_read {r : Reader α} {a : α} {s' : Scan} (h : read r s = (.ok a, s')) :
    ∃ cur, r s.cursor = .ok (a, cur) := by
  rw [read] at h
  split at h
  · rename_i b cur hr
    cases h
    exact ⟨cur, hr⟩
  · cases h

theorem emit_stays {mark : Cursor} {event : Event} (h : P event) :
    Keeps (Scan.Stays P) (emit mark event) s :=
  ⟨[_], rfl, List.forall_mem_singleton.mpr h⟩

theorem construct_stays {r : Reader α} {event : α → Event}
    (h : ∀ cur a cur', r cur = .ok (a, cur') → P (event a)) :
    Keeps (Scan.Stays P) (construct r event) s := by
  refine .bind cursor_stays fun _ _ _ => .bind read_stays fun a _ ha => ?_
  obtain ⟨cur, hr⟩ := exists_of_read ha
  exact emit_stays (h _ a cur hr)

theorem fail_stays {fault : Fault} : Keeps (Scan.Stays P) (fail fault : Scanner α) s := read_stays

theorem startTag_stays (h : Reported P) {bound : Nat} :
    Keeps (Scan.Stays P) (startTag bound) s := by
  refine .bind cursor_stays fun _ _ _ => .bind read_stays fun tag _ htag => ?_
  obtain ⟨cur, hr⟩ := exists_of_read htag
  refine .bind (emit_stays (h.startTag hr)) fun _ _ _ => ?_
  split
  · exact emit_stays (h.other _ (by simp) (by simp) rfl)
  · exact .of_events rfl

theorem endTag_stays (h : Reported P) : Keeps (Scan.Stays P) endTag s :=
  .bind .get fun _ _ _ => .bind cursor_stays fun _ _ _ => .bind read_stays fun _ _ _ =>
    .bind (Scan.Stays.of_events rfl) fun _ _ _ => emit_stays (h.other _ (by simp) (by simp) rfl)

theorem characters_stays (h : Reported P) {bound : Nat} :
    Keeps (Scan.Stays P) (characters bound) s := by
  refine .bind cursor_stays fun _ _ _ => .bind read_stays fun run _ hrun => ?_
  obtain ⟨cur, hr⟩ := exists_of_read hrun
  split
  · exact .pure
  · rename_i hne
    exact emit_stays (h.run hr (by simpa using hne))

theorem contentItem_stays (h : Reported P) {canceled : Bool} {bound : Nat} :
    Keeps (Scan.Stays P) (contentItem canceled bound) s := by
  refine .bind cursor_stays fun _ _ _ => ?_
  repeat' split
  · exact endTag_stays h
  · exact construct_stays fun _ _ _ _ => h.other _ (by simp) (by simp) rfl
  · exact construct_stays fun _ _ _ _ => h.other _ (by simp) (by simp) rfl
  · exact construct_stays fun _ _ _ _ => h.other _ (by simp) (by simp) rfl
  · exact .throw
  · exact startTag_stays h
  · exact construct_stays fun _ _ _ hr => h.reference hr
  · exact characters_stays h

theorem content_stays (h : Reported P) {canceled : Bool} {bound : Nat} :
    Keeps (Scan.Stays P) (content canceled bound) s := by
  induction bound generalizing s with
  | zero =>
    refine .bind .get fun _ _ _ => ?_
    split
    · exact .pure
    · exact fail_stays
  | succ bound ih =>
    refine .bind .get fun _ _ _ => ?_
    split
    · exact .pure
    · split
      · exact .bind fail_stays fun _ _ _ => .bind (contentItem_stays h) fun _ _ _ => ih
      · exact .bind (contentItem_stays h) fun _ _ _ => ih

theorem misc_stays (h : Reported P) {bound : Nat} : Keeps (Scan.Stays P) (misc bound) s := by
  induction bound generalizing s with
  | zero => exact .pure
  | succ bound ih =>
    refine .bind read_stays fun _ _ _ => .bind cursor_stays fun _ _ _ => ?_
    repeat' split
    · exact .bind (construct_stays fun _ _ _ _ => h.other _ (by simp) (by simp) rfl) fun _ _ _ => ih
    · exact .bind (construct_stays fun _ _ _ _ => h.other _ (by simp) (by simp) rfl) fun _ _ _ => ih
    · exact .pure

theorem miscs_stays (h : Reported P) : Keeps (Scan.Stays P) miscs s :=
  .bind cursor_stays fun _ _ _ => misc_stays h

theorem fromRoot_stays (h : Reported P) {canceled : Bool} :
    Keeps (Scan.Stays P) (fromRoot canceled) s := by
  have hfinish {s : Scan} : Keeps (Scan.Stays P) finish s := by
    refine .bind cursor_stays fun _ _ _ => ?_
    split
    · exact .bind fail_stays fun _ _ _ => emit_stays (h.other _ (by simp) (by simp) rfl)
    · exact emit_stays (h.other _ (by simp) (by simp) rfl)
  have htag {s : Scan} {n : Nat} :
      Keeps (Scan.Stays P) (do startTag n; fromContent canceled : Scanner Unit) s :=
    .bind (startTag_stays h) fun _ _ _ => .bind cursor_stays fun _ _ _ =>
      .bind (content_stays h) fun _ _ _ => .bind (miscs_stays h) fun _ _ _ => hfinish
  refine .bind cursor_stays fun _ _ _ => ?_
  split
  · exact .bind fail_stays fun _ _ _ => htag
  · exact htag

/-- What is reported behind the declaration. -/
theorem fromProlog_stays (h : Reported P) {canceled : Bool} :
    Keeps (Scan.Stays P) (fromProlog canceled) s := by
  refine .bind (miscs_stays h) fun _ _ _ => .bind cursor_stays fun _ _ _ => ?_
  split
  · exact .bind (construct_stays fun _ _ _ _ => h.other _ (by simp) (by simp) rfl) fun _ _ _ =>
      .bind (miscs_stays h) fun _ _ _ => fromRoot_stays h
  · exact fromRoot_stays h

theorem document_stays (h : Reported P) (hd : ∀ v e sa, P (.declaration v e sa)) {canceled : Bool} :
    Keeps (Scan.Stays P) (document canceled) s := by
  rw [document_eq]
  refine .bind cursor_stays fun _ _ _ => .bind (emit_stays (h.other _ (by simp) (by simp) rfl))
    fun _ _ _ => .bind (emit_stays (h.other _ (by simp) (by simp) rfl)) fun _ _ _ => ?_
  split
  · exact .bind (construct_stays fun _ _ _ _ => hd _ _ _) fun _ _ _ => fromProlog_stays h
  · exact fromProlog_stays h

end Scanner

/-- Only such events are reported of a source. -/
theorem Reported.of_mem_events [Encoding.Decoders] {P : Event → Prop} (h : Reported P)
    (hd : ∀ v e sa, P (.declaration v e sa)) {source : Text} {l : Located}
    (hl : l ∈ events source) :
    P l.event := by
  have hall {cs : List Char} : ∀ l ∈ (scan false cs).1, P l.event := by
    have hkeeps : Action.Keeps (Scan.Stays P) (Scanner.document false)
      { cursor := Cursor.start cs } := Scanner.document_stays h hd
    obtain ⟨added, hevents, hadded⟩ := hkeeps
    rw [List.append_nil] at hevents
    rw [scan, ExceptT.run]
    split
    · rename_i s hs
      rw [hs] at hevents
      rw [hevents]
      simpa using hadded
    · rename_i s hs
      rw [hs] at hevents
      rw [hevents]
      simpa using hadded
  rw [events] at hl
  split at hl
  · cases hl
  · exact hall l hl

/-! ### Character data -/

/-- Character data is not empty. -/
def Event.IsFull : Event → Prop
  | .characters t => t ≠ []
  | _ => True

theorem unifyLineEnds_ne_nil {cs : List Char} (h : cs ≠ []) : unifyLineEnds cs ≠ [] := by
  unfold unifyLineEnds
  split
  · exact absurd rfl h
  · exact List.cons_ne_nil _ _
  · exact List.cons_ne_nil _ _
  · exact List.cons_ne_nil _ _

theorem reported_isFull : Reported Event.IsFull where
  startTag _ := trivial
  reference _ := by simp [Event.IsFull]
  run _ hne hempty := by
    rw [Text.ofChars_eq_nil_iff] at hempty
    exact unifyLineEnds_ne_nil hne hempty
  other e _ hcharacters _ := by
    cases e with
    | characters t => exact absurd rfl (hcharacters t)
    | _ => trivial

/-- Reading reports no empty character data. -/
theorem isFull_of_mem_events [Encoding.Decoders] {source : Text} {l : Located}
    (h : l ∈ events source) :
    l.event.IsFull :=
  reported_isFull.of_mem_events (fun _ _ _ => trivial) h

end Stencil.Markup
