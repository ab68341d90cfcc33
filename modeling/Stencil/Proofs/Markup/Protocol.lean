import Stencil.Markup.Source
import Stencil.Proofs.Data.Action
import Stencil.Proofs.Markup.Consumption
import Stencil.Proofs.Markup.Scanners
import Stencil.Proofs.Markup.Trace

/-!
# What a receiver sees

A receiver of events can rely on their order, whatever the source is and whatever the receiver
answers: it sees the beginning of the events of a document, and it sees all of them exactly if the
source was read to its end and nothing was refused.

While a document is scanned, the language of what may still follow is known (`Scan.Follows`): with
every report it loses the reported event. A scan that stops early stops in front of a word of that
language that is not empty; so the end of the document was not reported. How much of the source was
consumed is carried along, because the end of the document is reported where nothing is left.

That a receiver refuses an event does not change the scan; it just does not see what comes after.

## Main definitions

* `Scan.Follows`, `Scanner.Meets` – what may follow, and what a scanner makes of it
* `recording` – a receiver that notes what it was given and what it answered
* `Protocol` – what a receiver can rely on

## Main results

* `Scanner.document_meets` – what is reported when a document was scanned, or when that stopped
* `protocol_read` – what is given to a receiver
-/

namespace Stencil.Markup

/-! ### What may follow -/

open Trace

/-- The extent of the source, and what may follow the events that were reported. -/
structure Scan.Follows (s : Scan) (n : Nat) (K : Language Event) : Prop where
  /-- The bytes consumed and those left are `n`. -/
  extent : s.cursor.extent = n
  /-- Every word of the language makes the events complete. -/
  complete : ∀ es ∈ K, s.reported ++ es ∈ complete

/-- The events that were reported are not all there could be. -/
def Scan.Stopped (s : Scan) : Prop := ∃ es, es ≠ [] ∧ s.reported ++ es ∈ complete

variable {s s' : Scan} {n : Nat} {K K' : Language Event}

theorem Scan.Follows.stopped (h : s.Follows n K) (hK : Live K) : s.Stopped := by
  obtain ⟨es, hes, hne⟩ := hK
  exact ⟨es, hne, h.complete es hes⟩

theorem Scan.Follows.mono (h : s.Follows n K) (hle : ∀ es ∈ K', es ∈ K) : s.Follows n K' :=
  ⟨h.extent, fun es hes => h.complete es (hle es hes)⟩

namespace Scanner

variable {α β : Type} {m : Scanner α} {f : α → Scanner β} {r : Reader α} {V : α → Prop}
  {Q Q' : α → Scan → Prop} {W : β → Scan → Prop} {mark : Cursor} {event : Event}

/-- The scanner succeeds with what `Q` says, or it stops before the events are complete. -/
def Meets (m : Scanner α) (s : Scan) (Q : α → Scan → Prop) : Prop :=
  match m s with
  | (.ok a, s') => Q a s'
  | (.error ending, s') => ending ≠ .complete ∧ s'.Stopped

namespace Meets

theorem imp (h : m.Meets s Q) (hQ : ∀ a s', Q a s' → Q' a s') : m.Meets s Q' := by
  unfold Meets at h ⊢
  split
  · rename_i hm
    rw [hm] at h
    exact hQ _ _ h
  · rename_i hm
    rw [hm] at h
    exact h

theorem pure {a : α} (h : Q a s) : (pure a : Scanner α).Meets s Q := h

theorem bind (h : m.Meets s fun a s' => (f a).Meets s' W) : (m >>= f).Meets s W := by
  unfold Meets at h ⊢
  rw [Action.bind_apply]
  cases hm : m s with
  | mk result s' =>
    rw [hm] at h
    cases result with
    | ok a => exact h
    | error e => exact h

theorem cursor {g : Cursor → Scanner β} (h : (g s.cursor).Meets s W) :
    (Scanner.cursor >>= g).Meets s W := h

theorem get {g : Scan → Scanner β} (h : (g s).Meets s W) : (get >>= g).Meets s W := h

theorem modify {g : Scan → Scan} {m : Scanner α} (h : m.Meets (g s) Q) :
    (modify g >>= fun _ => m).Meets s Q := h

theorem ite {c : Prop} [Decidable c] {m' : Scanner α} (h : c → m.Meets s Q)
    (h' : ¬ c → m'.Meets s Q) : (if c then m else m').Meets s Q := by
  split
  · rename_i hc
    exact h hc
  · rename_i hc
    exact h' hc

theorem throw {ending : Ending} (hending : ending ≠ .complete) (h : s.Stopped) :
    (throw ending : Scanner α).Meets s Q := ⟨hending, h⟩

theorem fail {fault : Fault} (h : s.Stopped) : (fail fault : Scanner α).Meets s Q := ⟨nofun, h⟩

theorem read (h : s.Follows n K) (hK : Live K) (hr : r.Counts V)
    (hQ : ∀ a s', s'.Follows n K → s'.opened = s.opened → V a → Q a s') :
    (read r).Meets s Q := by
  unfold Meets Scanner.read
  cases hread : r s.cursor with
  | error stop => exact ⟨nofun, h.stopped hK⟩
  | ok p =>
    obtain ⟨-, ha⟩ := hr s.cursor p.1 p.2 hread
    exact hQ _ _ ⟨(hr.extent_eq hread).trans h.extent, h.complete⟩ rfl ha

theorem emit (h : s.Follows n K) (hK' : ∀ es ∈ K', event :: es ∈ K)
    {Q : Unit → Scan → Prop} (hQ : ∀ s', s'.Follows n K' → s'.opened = s.opened → Q () s') :
    (emit mark event).Meets s Q := by
  refine hQ _ ⟨h.extent, fun es hes => ?_⟩ rfl
  have hcomplete := h.complete _ (hK' es hes)
  simpa [Scan.reported] using hcomplete

theorem construct {g : α → Event} (h : s.Follows n K) (hK : Live K) (hr : r.Counts V)
    (hK' : ∀ a, ∀ es ∈ K', g a :: es ∈ K) {Q : Unit → Scan → Prop}
    (hQ : ∀ s', s'.Follows n K' → s'.opened = s.opened → Q () s') :
    (construct r g).Meets s Q :=
  .cursor (.bind (.read h hK hr fun a _ hs' hopened _ =>
    .emit hs' (hK' a) fun s'' hs'' hopened' => hQ s'' hs'' (hopened'.trans hopened)))

end Meets

/-! ### Around the root element -/

theorem misc_meets {bound : Nat} (h : s.Follows n (Trace.miscs * K)) (hK : Live K) :
    (misc bound).Meets s fun _ s' => s'.Follows n K ∧ s'.opened = s.opened := by
  induction bound generalizing s with
  | zero => exact .pure ⟨h.mono fun _ => mem_miscs_mul, rfl⟩
  | succ bound ih =>
    have hlive := hK.miscs_mul
    refine .bind (.read h hlive Reader.skipBlanks_counts fun _ s₁ h₁ hopened₁ _ => .cursor ?_)
    refine .ite (fun _ => ?_) fun _ => .ite (fun _ => ?_) fun _ => ?_
    · refine .bind (.construct h₁ hlive Reader.instruction_counts
        (fun _ _ => by exact misc_cons_mem trivial) fun s₂ h₂ hopened₂ => (ih h₂).imp ?_)
      exact fun _ s₃ h₃ => ⟨h₃.1, h₃.2.trans (hopened₂.trans hopened₁)⟩
    · refine .bind (.construct h₁ hlive Reader.comment_counts
        (fun _ _ => by exact misc_cons_mem trivial) fun s₂ h₂ hopened₂ => (ih h₂).imp ?_)
      exact fun _ s₃ h₃ => ⟨h₃.1, h₃.2.trans (hopened₂.trans hopened₁)⟩
    · exact .pure ⟨h₁.mono fun _ => mem_miscs_mul, hopened₁⟩

theorem miscs_meets (h : s.Follows n (Trace.miscs * K)) (hK : Live K) :
    miscs.Meets s fun _ s' => s'.Follows n K ∧ s'.opened = s.opened :=
  .cursor (misc_meets h hK)

/-! ### Inside of elements -/

/-- Some elements are open, and what closes them may follow. -/
def Inside (s : Scan) (n : Nat) (K : Language Event) : Prop :=
  ∃ names : List QName, s.opened = names.map QName.full ∧ (∀ q ∈ names, q.Written) ∧
    s.Follows n (closing names * K)

/-- A start tag where an element may follow: the element has ended, or it is open. -/
theorem startTag_meets {bound : Nat} (h : s.Follows n K) (hK : Live K)
    (hempty : ∀ tag : Tag, tag.selfClosing → ∀ es ∈ K', .startTag tag :: .endTag tag :: es ∈ K)
    (hopen : ∀ tag : Tag, ¬ tag.selfClosing →
      ∀ es ∈ closing [tag.name] * K', .startTag tag :: es ∈ K) :
    (startTag bound).Meets s fun _ s' => s'.Follows n K' ∧ s'.opened = s.opened ∨
      ∃ q : QName, q.Written ∧ s'.opened = q.full :: s.opened ∧
        s'.Follows n (closing [q] * K') := by
  refine .cursor (.bind (.read h hK Reader.startTag_counts fun tag s₁ h₁ hopened₁ htag' => ?_))
  have hname := htag'.name
  by_cases htag : tag.selfClosing
  · have hend : ∀ es ∈ one (· = .endTag tag) * K', .startTag tag :: es ∈ K := by
      rintro es ⟨_, ⟨e, rfl, rfl⟩, w, hw, rfl⟩
      exact hempty tag htag w hw
    refine .bind (.emit h₁ hend fun s₂ h₂ hopened₂ => ?_)
    rw [if_pos htag]
    refine .emit h₂ (fun es hes => cons_mem rfl hes) fun s₃ h₃ hopened₃ => .inl ⟨h₃, ?_⟩
    rw [hopened₃, hopened₂, hopened₁]
  · refine .bind (.emit h₁ (hopen tag htag) fun s₂ h₂ hopened₂ => ?_)
    rw [if_neg htag]
    refine .inr ⟨tag.name, hname, ?_, h₂.extent, h₂.complete⟩
    show tag.name.full :: s₂.opened = _
    rw [hopened₂, hopened₁]

theorem endTag_meets (h : Inside s n K) (hK : Live K) (hopened : s.opened ≠ []) :
    endTag.Meets s fun _ s' => Inside s' n K := by
  obtain ⟨names, hnames, hwritten, hs⟩ := h
  cases names with
  | nil => exact absurd hnames hopened
  | cons q names =>
    refine .get (.cursor (.bind (.read hs hK.closing_mul Reader.endTag_counts
      fun tag s₁ h₁ hopened₁ htag => ?_)))
    have hfull : tag.name.full = q.full := by simpa [hnames] using htag.2
    have hname : tag.name = q := htag.1.eq_of_full (hwritten q (by simp)) hfull
    have h₁' : ({ s₁ with opened := s₁.opened.tail } : Scan).Follows n (closing (q :: names) * K) :=
      ⟨h₁.extent, h₁.complete⟩
    refine .modify (.emit h₁' (fun _ => end_cons_mem hname) fun s₂ h₂ hopened₂ =>
      ⟨names, ?_, ?_, h₂⟩)
    · rw [hopened₂]
      show s₁.opened.tail = _
      rw [hopened₁, hnames]
      rfl
    · exact fun p hp => hwritten p (by simp [hp])

theorem contentItem_meets {canceled : Bool} {bound : Nat} (h : Inside s n K) (hK : Live K)
    (hopened : s.opened ≠ []) : (contentItem canceled bound).Meets s fun _ s' => Inside s' n K := by
  have hend := endTag_meets h hK hopened
  obtain ⟨names, hnames, hwritten, hs⟩ := h
  cases names with
  | nil => exact absurd hnames hopened
  | cons q names =>
    have hlive : Live (closing (q :: names) * K) := hK.closing_mul
    have hleaf {s' : Scan} (h' : s'.Follows n (closing (q :: names) * K))
        (hopened' : s'.opened = s.opened) : Inside s' n K :=
      ⟨q :: names, hopened'.trans hnames, hwritten, h'⟩
    refine .cursor (.ite (fun _ => hend) fun _ => ?_)
    refine .ite (fun _ => .construct hs hlive Reader.instruction_counts
      (fun _ _ => by exact leaf_cons_mem trivial) fun _ => hleaf) fun _ => ?_
    refine .ite (fun _ => .construct hs hlive Reader.comment_counts
      (fun _ _ => by exact leaf_cons_mem trivial) fun _ => hleaf) fun _ => ?_
    refine .ite (fun _ => .construct hs hlive Reader.cdataSection_counts
      (fun _ _ => by exact leaf_cons_mem trivial) fun _ => hleaf) fun _ => ?_
    refine .ite (fun _ => ?_) fun _ => .ite (fun _ => .construct hs hlive Reader.reference_counts
      (fun _ _ => by exact leaf_cons_mem trivial) fun _ => hleaf) fun _ => ?_
    · refine .ite (fun _ => .throw nofun (hs.stopped hlive)) fun _ => (startTag_meets hs hlive
        (fun _ htag _ => empty_cons_mem htag) fun _ htag _ => start_cons_mem htag).imp ?_
      rintro - s' (⟨h', hopened'⟩ | ⟨p, hp, hopened', h'⟩)
      · exact hleaf h' hopened'
      · rw [← mul_assoc, closing_singleton_mul] at h'
        refine ⟨p :: q :: names, ?_, ?_, h'⟩
        · rw [hopened', hnames]
          rfl
        · simpa [hp] using hwritten
    · refine .cursor (.bind (.read hs hlive Reader.characterRun_counts
        fun run s₁ h₁ hopened₁ _ => ?_))
      exact .ite (fun _ => .pure (hleaf h₁ hopened₁)) fun _ => .emit h₁
        (fun _ => by exact leaf_cons_mem trivial) fun _ h₂ hopened₂ =>
          hleaf h₂ (hopened₂.trans hopened₁)

theorem Inside.stopped (h : Inside s n K) (hK : Live K) : s.Stopped := by
  obtain ⟨names, -, -, hs⟩ := h
  exact hs.stopped hK.closing_mul

theorem Inside.follows (h : Inside s n K) (hopened : s.opened = []) : s.Follows n K := by
  obtain ⟨names, hnames, -, hs⟩ := h
  obtain rfl : names = [] := List.map_eq_nil_iff.mp (hnames.symm.trans hopened)
  simpa [closing] using hs

theorem content_meets {canceled : Bool} {bound : Nat} (h : Inside s n K) (hK : Live K) :
    (content canceled bound).Meets s fun _ s' => s'.Follows n K := by
  induction bound generalizing s with
  | zero =>
    exact .get (.ite (fun hempty => .pure (h.follows (List.isEmpty_iff.mp hempty)))
      fun _ => .fail (h.stopped hK))
  | succ bound ih =>
    refine .get (.ite (fun hempty => .pure (h.follows (List.isEmpty_iff.mp hempty)))
      fun hopened => ?_)
    have hne : s.opened ≠ [] := fun e => hopened (by rw [e]; rfl)
    exact .ite (fun _ => .bind (.fail (h.stopped hK))) fun _ =>
      .bind ((contentItem_meets h hK hne).imp fun _ _ h' => ih h')

/-! ### Documents -/

/-- What is known when a document was scanned: the events are complete, and the last one was
reported when nothing was left of the source. -/
def Finished (s : Scan) (n : Nat) : Prop :=
  s.reported ∈ complete ∧ ∃ e es, s.events = e :: es ∧ e.position.location = n

/-- The root element, and what follows it. -/
theorem fromRoot_meets {canceled : Bool} (hopened : s.opened = [])
    (h : s.Follows n (element * (Trace.miscs * one (· = .endDocument)))) :
    (fromRoot canceled).Meets s fun _ s' => Finished s' n := by
  have hlive := live_end.miscs_mul
  refine .cursor (.ite (fun _ => .bind (.fail (h.stopped hlive.element_mul))) fun _ => ?_)
  refine .bind ((startTag_meets h hlive.element_mul (fun _ htag _ => root_empty_mem htag)
    fun _ htag _ => root_cons_mem htag).imp fun _ s₁ h₁ => .cursor ?_)
  have hinside : Inside s₁ n (Trace.miscs * one (· = .endDocument)) := by
    rcases h₁ with ⟨h₁, hopened₁⟩ | ⟨q, hq, hopened₁, h₁⟩
    · exact ⟨[], by rw [hopened₁, hopened]; rfl, by simp, by simpa [closing] using h₁⟩
    · exact ⟨[q], by rw [hopened₁, hopened]; rfl, by simpa using hq, h₁⟩
  refine .bind ((content_meets hinside hlive).imp fun _ s₂ h₂ =>
    .bind ((miscs_meets h₂ live_end).imp fun _ s₃ h₃ =>
      .cursor (.ite (fun _ => .bind (.fail (h₃.1.stopped live_end))) fun hdone => ?_)))
  have hextent := h₃.1.extent
  rw [Cursor.extent, show s₃.cursor.rest = [] by simpa [Cursor.done] using hdone] at hextent
  have hlocation : s₃.cursor.offset = n := by simpa using hextent
  refine ⟨?_, _, _, rfl, hlocation⟩
  have hcomplete := h₃.1.complete [.endDocument] (mem_one.mpr ⟨_, rfl, rfl⟩)
  simpa [Scan.reported] using hcomplete

/-- What stands in front of the root element, and everything behind it. -/
theorem fromProlog_meets {canceled : Bool} (hopened : s.opened = [])
    (h : s.Follows n (Trace.miscs * ((1 + Trace.doctype * Trace.miscs) *
      (element * (Trace.miscs * one (· = .endDocument)))))) :
    (fromProlog canceled).Meets s fun _ s' => Finished s' n := by
  have hlive := live_end.miscs_mul.element_mul
  refine .bind ((miscs_meets h hlive.one_add_mul).imp fun _ s₁ h₁ => .cursor (.ite (fun _ => ?_)
    fun _ => ?_))
  · have h₁' := h₁.1.mono fun _ => mem_one_add_mul_of_mem
    rw [mul_assoc] at h₁'
    refine .bind (.construct h₁' (live_one_mul ⟨[], rfl⟩ hlive.miscs_mul) Reader.doctype_counts
      (fun raw _ => by exact cons_mem ⟨raw, rfl⟩) fun s₂ h₂ hopened₂ => ?_)
    refine .bind ((miscs_meets h₂ hlive).imp fun _ s₃ h₃ => fromRoot_meets ?_ h₃.1)
    rw [h₃.2, hopened₂, h₁.2, hopened]
  · exact fromRoot_meets (h₁.2.trans hopened) (h₁.1.mono fun _ => mem_one_add_mul)

/-- **The shape of a scan.** A scan to the end reports the events of a whole document, the last of
them when everything was consumed; one that stops early reports a beginning of such events. -/
theorem document_meets {canceled : Bool} {source : List Char} :
    (document canceled).Meets { cursor := Cursor.start source } fun _ s' =>
      Finished s' (Text.ofChars source).length := by
  have hlive := live_end.miscs_mul.element_mul.one_add_mul (L := Trace.doctype * Trace.miscs)
  have h : ({ cursor := Cursor.start source } : Scan).Follows (Text.ofChars source).length
      complete :=
    ⟨by simp [Cursor.extent, Cursor.start], fun _ hes => hes⟩
  rw [complete, body] at h
  simp only [mul_assoc] at h
  rw [document_eq]
  refine .cursor (.bind (.emit h (fun _ => by exact cons_mem rfl) fun s₁ h₁ hopened₁ =>
    .bind (.emit h₁ (fun _ => by exact cons_mem rfl) fun s₂ h₂ hopened₂ => ?_)))
  have hopened : s₂.opened = [] := by rw [hopened₂, hopened₁]
  refine .ite (fun _ => ?_) fun _ => fromProlog_meets hopened (h₂.mono fun _ => mem_one_add_mul)
  have h₂' := h₂.mono fun _ => mem_one_add_mul_of_mem
  exact .bind (.construct h₂' (live_one_mul ⟨[], [], false, rfl⟩ hlive.miscs_mul)
    Reader.declaration_counts (fun _ _ => by exact cons_mem ⟨_, _, _, rfl⟩)
    fun s₃ h₃ hopened₃ => fromProlog_meets (hopened₃.trans hopened) h₃)

end Scanner

/-- The events of a scan. -/
theorem scan_shape {canceled : Bool} {source : List Char} {events : List Located} {ending : Ending}
    (h : scan canceled source = (events, ending)) :
    (ending = .complete ∧ events.map Located.event ∈ complete ∧
      ∀ e ∈ events.getLast?, e.position.location = (Text.ofChars source).length) ∨
      ending ≠ .complete ∧ ∃ es, es ≠ [] ∧ events.map Located.event ++ es ∈ complete := by
  have hmeets := @Scanner.document_meets canceled source
  rw [Scanner.Meets] at hmeets
  rw [scan, ExceptT.run] at h
  split at h
  · rename_i s hs
    rw [hs] at hmeets
    obtain ⟨rfl, rfl⟩ := Prod.mk.inj h
    obtain ⟨hcomplete, e, es, hevents, hlocation⟩ := hmeets
    refine .inl ⟨rfl, by rwa [List.map_reverse], ?_⟩
    simpa [hevents] using hlocation
  · rename_i ending s hs
    rw [hs] at hmeets
    obtain ⟨rfl, rfl⟩ := Prod.mk.inj h
    obtain ⟨hending, es, hne, hes⟩ := hmeets
    exact .inr ⟨hending, es, hne, by rwa [List.map_reverse]⟩

/-- The events of a scan are the beginning of those of a document. -/
theorem scan_begins {canceled : Bool} {source : List Char} {events : List Located} {ending : Ending}
    (h : scan canceled source = (events, ending)) :
    ∃ es, events.map Located.event ++ es ∈ complete := by
  obtain ⟨-, hcomplete, -⟩ | ⟨-, es, -, hcomplete⟩ := scan_shape h
  · exact ⟨[], by rwa [List.append_nil]⟩
  · exact ⟨es, hcomplete⟩

/-- The end of the document is reported last, when the whole source was consumed. -/
theorem scan_ends {canceled : Bool} {source : List Char} {events before after : List Located}
    {ending : Ending} {e : Located} (h : scan canceled source = (events, ending))
    (hevents : events = before ++ e :: after) (he : e.event = .endDocument) :
    after = [] ∧ e.position.location = (Text.ofChars source).length ∧ ending = .complete := by
  have hnot {es : List Event} (hcomplete : events.map Located.event ++ es ∈ complete) :
      after.map Located.event ++ es = [] := by
    by_contra hne
    have hmem : Event.endDocument ∉ before.map Located.event ++ [e.event] :=
      not_endDocument_of_append (by simpa [hevents] using hcomplete) hne
    simp [he] at hmem
  obtain ⟨hending, hcomplete, hlocation⟩ | ⟨-, es, hne, hcomplete⟩ := scan_shape h
  · have hafter : after.map Located.event ++ [] = [] := hnot (by simpa using hcomplete)
    obtain rfl : after = [] := by simpa using hafter
    exact ⟨rfl, hlocation e (by simp [hevents]), hending⟩
  · exact absurd (List.append_eq_nil_iff.mp (hnot hcomplete)).2 hne

/-- A scan to the end reports the end of the document. -/
theorem scan_complete {canceled : Bool} {source : List Char} {events : List Located}
    (h : scan canceled source = (events, .complete)) : ∃ e ∈ events, e.event = .endDocument := by
  obtain ⟨-, hcomplete, -⟩ | ⟨hending, -⟩ := scan_shape h
  · obtain ⟨b, -, _, ⟨e, rfl, rfl⟩, heq⟩ := Language.mem_mul.mp hcomplete
    have hmem : Event.endDocument ∈ events.map Located.event := by simp [← heq]
    simpa using hmem
  · exact absurd rfl hending

/-! ### Receivers -/

variable {σ ε : Type}

/-- A receiver that notes what it was given and what it answered, in order. -/
def recording (receive : Located → σ → Except ε Unit × σ) (e : Located)
    (s : σ × List (Located × Except ε Unit)) :
    Except ε Unit × σ × List (Located × Except ε Unit) :=
  ((receive e s.1).1, (receive e s.1).2, s.2 ++ [(e, (receive e s.1).1)])

/-- What a receiver can rely on, whatever it answers: the events it is given when a source is read,
with its answers, and how reading ends. -/
structure Protocol [Encoding.Decoders] (t : Text) (calls : List (Located × Except ε Unit))
    (result : Except (ReadError ε) Unit) : Prop where
  /-- The events are the beginning of the events of a document. -/
  shape : ∃ es ∈ complete, calls.map (·.1.event) <+: es
  /-- The end of the document is the last event. It comes when the whole source was consumed, and
  after nothing was refused. -/
  ending : ∀ before call after, calls = before ++ call :: after → call.1.event = .endDocument →
    after = [] ∧ (∀ c ∈ before, c.2 = .ok ()) ∧ ∃ source : List Char,
      (decodeSource t : Except (ReadError ε) (List Char)) = .ok source ∧
        call.1.position.location = (Text.ofChars source).length
  /-- Reading succeeds exactly if the end of the document was accepted. -/
  success : result = .ok () ↔ ∃ call ∈ calls, call.1.event = .endDocument ∧ call.2 = .ok ()
  /-- After a refusal there are no more events. -/
  refusal : ∀ before call after e, calls = before ++ call :: after → call.2 = .error e → after = []

variable {receive : Located → σ → Except ε Unit × σ} {events : List Located} {x : σ}

/-- Events are handed over in order, all of them or up to the one that is refused. Noting them
changes nothing else. -/
theorem deliver_recording (log : List (Located × Except ε Unit)) :
    ∃ calls, deliver (recording receive) events (x, log) =
        ((deliver receive events x).1, (deliver receive events x).2, log ++ calls) ∧
      ((deliver receive events x).1 = none ∧ calls = events.map (·, .ok ()) ∨
        ∃ before e after err, (deliver receive events x).1 = some (e, err) ∧
          events = before ++ e :: after ∧ calls = before.map (·, .ok ()) ++ [(e, .error err)]) := by
  induction events generalizing x log with
  | nil => exact ⟨[], by simp [deliver], .inl ⟨rfl, rfl⟩⟩
  | cons e events ih =>
    cases hr : receive e x with
    | mk answer x' =>
      cases answer with
      | error err =>
        refine ⟨[(e, .error err)], ?_, .inr ⟨[], e, events, err, ?_, rfl, rfl⟩⟩ <;>
          simp [deliver, recording, hr]
      | ok =>
        obtain ⟨calls, heq, hcases⟩ := ih (x := x') (log ++ [(e, .ok ())])
        refine ⟨(e, .ok ()) :: calls, ?_, ?_⟩
        · simp [deliver, recording, hr, heq]
        · rcases hcases with ⟨hnone, rfl⟩ | ⟨before, e', after, err, hsome, rfl, rfl⟩
          · exact .inl ⟨by simpa [deliver, hr] using hnone, rfl⟩
          · exact .inr ⟨e :: before, e', after, err, by simpa [deliver, hr] using hsome, rfl, rfl⟩

/-- Nothing was given to the receiver. -/
theorem Protocol.nil [Encoding.Decoders] {t : Text} {error : ReadError ε} :
    Protocol t [] (.error error) where
  shape := by
    obtain ⟨es, hes, -⟩ := live_complete
    exact ⟨es, hes, List.nil_prefix⟩
  ending before call after h := by simp at h
  success := by simp
  refusal before call after e h _ := by simp at h

/-- All events of the scan were accepted. -/
theorem Protocol.of_accepted [Encoding.Decoders] {canceled : Bool} {t : Text}
    {source : List Char} {ending : Ending}
    {result : Except (ReadError ε) Unit}
    (hsource : (decodeSource t : Except (ReadError ε) (List Char)) = .ok source)
    (hscan : scan canceled source = (events, ending))
    (hresult : result = .ok () ↔ ending = .complete) :
    Protocol t (events.map (·, .ok ())) result where
  shape := by
    obtain ⟨es, hes⟩ := scan_begins hscan
    exact ⟨_, hes, by simp [Function.comp_def]⟩
  ending before call after hcalls hend := by
    obtain ⟨before, rest, rfl, rfl, hrest⟩ := List.map_eq_append_iff.mp hcalls
    obtain ⟨e, after, rfl, rfl, rfl⟩ := List.map_eq_cons_iff.mp hrest
    obtain ⟨rfl, hlocation, -⟩ := scan_ends hscan rfl hend
    exact ⟨rfl, by simp, source, hsource, hlocation⟩
  success := by
    rw [hresult]
    constructor
    · rintro rfl
      obtain ⟨e, he, hend⟩ := scan_complete hscan
      exact ⟨(e, .ok ()), List.mem_map_of_mem he, hend, rfl⟩
    · rintro ⟨call, hcall, hend, -⟩
      obtain ⟨e, he, rfl⟩ := List.mem_map.mp hcall
      obtain ⟨before, after, rfl⟩ := List.append_of_mem he
      exact (scan_ends hscan rfl hend).2.2
  refusal before call after err hcalls herror := by
    have hmem : call ∈ events.map (·, .ok ()) := by rw [hcalls]; simp
    obtain ⟨d, -, rfl⟩ := List.mem_map.mp hmem
    cases herror

/-- The refused event is the last one, and all others were accepted. -/
theorem cases_of_refused {before : List Located} {e : Located} {err : ε}
    {l m : List (Located × Except ε Unit)} {call : Located × Except ε Unit}
    (h : before.map (·, .ok ()) ++ [(e, .error err)] = l ++ call :: m) :
    m = [] ∧ l = before.map (·, .ok ()) ∧ call = (e, .error err) ∨
      ∃ u d v, before = u ++ d :: v ∧ call = (d, .ok ()) := by
  obtain rfl | ⟨m, a, rfl⟩ := List.eq_nil_or_concat m
  · obtain ⟨rfl, hcall⟩ := List.append_inj' h rfl
    exact .inl ⟨rfl, rfl, (List.singleton_inj.mp hcall).symm⟩
  · rw [List.concat_eq_append, ← List.cons_append, ← List.append_assoc] at h
    obtain ⟨hbefore, -⟩ := List.append_inj' h rfl
    obtain ⟨u, rest, rfl, -, hrest⟩ := List.map_eq_append_iff.mp hbefore
    obtain ⟨d, v, rfl, rfl, -⟩ := List.map_eq_cons_iff.mp hrest
    exact .inr ⟨u, d, v, rfl, rfl⟩

/-- The receiver refused an event of the scan. -/
theorem Protocol.of_refused [Encoding.Decoders] {canceled : Bool} {t : Text}
    {source : List Char} {ending : Ending}
    {before after : List Located} {e : Located} {err : ε}
    (hsource : (decodeSource t : Except (ReadError ε) (List Char)) = .ok source)
    (hscan : scan canceled source = (before ++ e :: after, ending)) :
    Protocol t (before.map (·, .ok ()) ++ [(e, .error err)])
      (.error (.refused e.position err)) where
  shape := by
    obtain ⟨es, hes⟩ := scan_begins hscan
    exact ⟨_, hes, by simp [Function.comp_def]⟩
  ending l call m hcalls hend := by
    obtain ⟨rfl, rfl, rfl⟩ | ⟨u, d, v, rfl, rfl⟩ := cases_of_refused hcalls
    · obtain ⟨-, hlocation, -⟩ := scan_ends hscan rfl hend
      exact ⟨rfl, by simp, source, hsource, hlocation⟩
    · exact absurd (scan_ends hscan (List.append_assoc u (d :: v) _) hend).1 (by simp)
  success := by
    constructor
    · intro h
      cases h
    · rintro ⟨call, hcall, hend, hok⟩
      obtain ⟨l, m, hcalls⟩ := List.append_of_mem hcall
      obtain ⟨-, -, rfl⟩ | ⟨u, d, v, rfl, rfl⟩ := cases_of_refused hcalls
      · cases hok
      · exact absurd (scan_ends hscan (List.append_assoc u (d :: v) _) hend).1 (by simp)
  refusal l call m err' hcalls herror := by
    obtain ⟨rfl, -, -⟩ | ⟨u, d, v, -, rfl⟩ := cases_of_refused hcalls
    · rfl
    · cases herror

/-- **What a receiver sees.** Whatever the source is, canceled or not, and whatever the receiver
answers, noting its calls changes nothing, and they follow the protocol. -/
theorem protocol_read [Encoding.Decoders] (receive : Located → σ → Except ε Unit × σ)
    (canceled : Bool) (t : Text)
    (x : σ) : ∃ calls, read (recording receive) canceled t (x, []) =
        ((read receive canceled t x).1, (read receive canceled t x).2, calls) ∧
      Protocol t calls (read receive canceled t x).1 := by
  cases hsource : (decodeSource t : Except (ReadError ε) (List Char)) with
  | error error => exact ⟨[], by simp [read, hsource], by simpa [read, hsource] using Protocol.nil⟩
  | ok source =>
    obtain ⟨events, ending, hscan⟩ : ∃ events ending, scan canceled source = (events, ending) :=
      ⟨_, _, rfl⟩
    obtain ⟨calls, hrecording, hcases⟩ :=
      @deliver_recording σ ε receive events x []
    refine ⟨calls, ?_⟩
    simp only [read, hsource, hscan, hrecording, List.nil_append]
    cases hdeliver : deliver receive events x with
    | mk refused x' =>
      rw [hdeliver] at hcases
      rcases hcases with ⟨rfl, rfl⟩ | ⟨before, e, after, err, rfl, rfl, rfl⟩
      · cases ending with
        | complete => exact ⟨rfl, .of_accepted hsource hscan (by simp)⟩
        | canceled => exact ⟨rfl, .of_accepted hsource hscan (by simp)⟩
        | fault stop => exact ⟨rfl, .of_accepted hsource hscan (by simp)⟩
      · exact ⟨rfl, .of_refused hsource hscan⟩

/-- A canceled reading stops in front of the first nested element, with the root element open. -/
example : (read (recording fun _ n => (.ok (), n + 1) : Located → ℕ × _ → Except Unit Unit × ℕ × _)
    true ("<a>x<b/></a>" : Text) (0, [])).2.2.map (·.1.event) =
      [.locator, .startDocument, .startTag ⟨⟨[], "a"⟩, [], false⟩, .characters "x"] := by
  decide

end Stencil.Markup
