import Stencil.Markup.Source
import Stencil.Proofs.Data.Action
import Stencil.Proofs.Markup.Scanners

/-!
# Reading accepts exactly the documents

A source that begins with no declaration is read to its end exactly if it is a document of the
grammar, and then the receiver gets the events that the document stands for.

The scan of a document is a sequence of scanners. What it takes is put together from its end: the
end of the document, the items that close the root element, the root element itself, and what stands
in front of it.

## Main results

* `Scanner.document_takes` – the scan of a document takes documents
* `scan_eq_complete_iff` – which sources are scanned to their end, and with which events
* `read_eq_ok_iff_document` – the same for reading with a receiver
-/

namespace Stencil.Markup

open Grammar

variable {source : List Char}

namespace Scanner

variable {s : Scan}

/-- A scanner behind a report. -/
theorem emit_bind_takes {mark : Cursor} {event : Event} {k : Scanner Unit} {P : Effect}
    (h : ∀ s', s'.cursor = s.cursor → s'.opened = s.opened → k.TakesAt s' P) :
    (emit mark event >>= fun _ => k).TakesAt s fun t opened es rest =>
      ∃ es', P t opened es' rest ∧ es = event :: es' := by
  refine TakesAt.congr (emit_takes.bind (Q := fun _ => P) fun s' hs' => ?_)
    fun t opened es rest _ => ?_
  · obtain rfl := (Prod.mk.inj hs').2
    exact h _ rfl rfl
  · constructor
    · rintro ⟨-, t, o, -, es', rfl, rfl, ⟨rfl, rfl, rfl⟩, h⟩
      exact ⟨es', h, rfl⟩
    · rintro ⟨es', h, rfl⟩
      exact ⟨[], t, _, [event], es', rfl, rfl, ⟨rfl, rfl, rfl⟩, h⟩

theorem miscStops_openingTag {c : Char} {rest : List Char} (hc : isNameStart c) :
    MiscStops ('<' :: c :: rest) := by
  have hquestion : '?' ≠ c := Reader.ne_of_isNameStart hc (by simp [Reader.delimiters])
  have hexclamation : '!' ≠ c := Reader.ne_of_isNameStart hc (by simp [Reader.delimiters])
  refine ⟨Reader.ends_cons (by decide), ?_, ?_⟩
  · simp [hquestion]
  · simp [hexclamation]

/-- The end of the document. -/
def Finish (o : List Text) : Effect := fun t opened es rest =>
  t = [] ∧ rest = [] ∧ opened = o ∧ es = [.endDocument]

/-- The items that close the root element, what follows them, and the end of the document. -/
def Closing (o : List Text) : Effect := fun t opened es rest =>
  rest = [] ∧ opened = [] ∧ ∃ u v es₁ es₂, Items o u es₁ (v ++ rest) ∧ Miscs v es₂ ∧ t = u ++ v ∧
    es = es₁ ++ es₂ ++ [.endDocument]

/-- The root element, what follows it, and the end of the document. -/
def Root : Effect := fun t opened es rest =>
  rest = [] ∧ opened = [] ∧ ∃ u v es₁ es₂, Derives .element u es₁ ∧ Miscs v es₂ ∧ t = u ++ v ∧
    es = es₁ ++ es₂ ++ [.endDocument]

theorem finish_takes : finish.TakesAt s (Finish s.opened) := by
  refine TakesAt.cursor ?_
  by_cases hdone : s.cursor.done
  · simp only [hdone, Bool.not_true]
    refine TakesAt.congr emit_takes fun t opened es rest ht => ?_
    rw [List.isEmpty_iff.mp hdone] at ht
    obtain ⟨rfl, rfl⟩ := List.append_eq_nil_iff.mp ht.symm
    rw [Finish]
    tauto
  · simp only [hdone, Bool.not_false, if_true]
    refine TakesAt.congr TakesAt.fail_bind fun t opened es rest ht => iff_of_false id ?_
    rintro ⟨rfl, rfl, -⟩
    exact hdone (List.isEmpty_iff.mpr ht)

theorem fromContent_takes (hclean : Clean s.cursor.rest) :
    (fromContent false).TakesAt s (Closing s.opened) := by
  refine TakesAt.cursor ?_
  have hcontent := content_takes hclean (Nat.le_refl s.cursor.rest.length)
  refine TakesAt.congr (hcontent.bind (Q := fun o t opened es rest => opened = o ∧ rest = [] ∧
    ∃ es', Miscs t es' ∧ es = es' ++ [.endDocument]) fun s' hs' => ?_) fun t opened es rest _ => ?_
  · have hmiscs := miscs_takes (hcontent.clean hclean hs')
    refine TakesAt.congr (hmiscs.bind (Q := Finish) fun s'' _ => finish_takes)
      fun t opened es rest _ => ?_
    constructor
    · rintro ⟨t, -, o, es, -, rfl, rfl, ⟨rfl, ht, -⟩, rfl, rfl, rfl, rfl⟩
      exact ⟨rfl, rfl, es, by simpa using ht, rfl⟩
    · rintro ⟨rfl, rfl, es', ht, rfl⟩
      refine ⟨t, [], _, es', _, (List.append_nil t).symm, rfl, ⟨rfl, ht, ?_⟩, rfl, rfl, rfl, rfl⟩
      simp [MiscStops, Reader.Ends]
  · constructor
    · rintro ⟨u, v, o, es₁, -, rfl, rfl, ⟨rfl, hu⟩, rfl, rfl, es₂, hv, rfl⟩
      exact ⟨rfl, rfl, u, v, es₁, es₂, hu, hv, rfl, by simp⟩
    · rintro ⟨rfl, rfl, u, v, es₁, es₂, hu, hv, rfl, rfl⟩
      exact ⟨u, v, [], es₁, es₂ ++ [.endDocument], rfl, by simp, ⟨rfl, hu⟩, rfl, rfl, es₂, hv, rfl⟩

theorem fromRoot_takes (hclean : Clean s.cursor.rest) (hopened : s.opened = []) :
    (fromRoot false).TakesAt s Root := by
  refine TakesAt.cursor ?_
  by_cases hstart : s.cursor.startsWith "<"
  · simp only [hstart, Bool.not_true]
    have htag := startTag_takes hclean (Nat.le_refl s.cursor.rest.length)
    refine TakesAt.congr (htag.bind (Q := Closing) fun s' hs' =>
      fromContent_takes (htag.clean hclean hs')) fun t opened es rest _ => ?_
    rw [hopened]
    constructor
    · rintro ⟨t, -, o, es, -, rfl, rfl, ht, rfl, rfl, u, v, es₁, es₂, hu, hv, rfl, rfl⟩
      refine ⟨rfl, rfl, t ++ u, v, es ++ es₁, es₂, ?_, hv, by simp, by simp⟩
      exact (derives_element_iff (v ++ [])).mpr
        ⟨t, u, o, es, es₁, rfl, rfl, by simpa using ht, hu⟩
    · rintro ⟨rfl, rfl, u, v, es₁, es₂, hu, hv, rfl, rfl⟩
      obtain ⟨t, w, o, es, es', rfl, rfl, ht, hw⟩ := (derives_element_iff (v ++ [])).mp hu
      exact ⟨t, w ++ v, o, es, es' ++ es₂ ++ [.endDocument], by simp, by simp, by simpa using ht,
        rfl, rfl, w, v, es', es₂, hw, hv, rfl, rfl⟩
  · simp only [hstart, Bool.not_false, if_true]
    refine TakesAt.congr TakesAt.fail_bind fun t opened es rest ht => iff_of_false id ?_
    rintro ⟨-, -, u, v, es₁, es₂, hu, -, rfl, -⟩
    obtain ⟨c, u, rfl, -⟩ := hu.element_head
    refine hstart ?_
    rw [Cursor.startsWith, ht]
    rfl

/-- A document, less the events at its very beginning. -/
theorem fromProlog_takes (hclean : Clean s.cursor.rest) (hopened : s.opened = [])
    (hdoctype : NoDoctype s.cursor.rest) : (fromProlog false).TakesAt s fun t opened es rest =>
      rest = [] ∧ opened = [] ∧ Document t ([.locator, .startDocument] ++ es) := by
  have hmiscs := miscs_takes hclean
  refine TakesAt.congr (hmiscs.bind (Q := fun _ => Root) fun s' hs' => TakesAt.cursor ?_)
    fun t opened es rest _ => ?_
  · obtain ⟨m, es, hm, -, hopened', hes, -⟩ := hmiscs.sound s' hs'
    have hnot : ¬ s'.cursor.startsWith "<!DOCTYPE" := by
      rw [Cursor.startsWith, List.isPrefixOf_iff_prefix]
      rintro ⟨rest, hrest⟩
      refine hdoctype m es rest hes ?_
      rw [hm, ← hrest, List.append_assoc]
      rfl
    simp only [hnot]
    exact fromRoot_takes (hmiscs.clean hclean hs') (hopened'.trans hopened)
  · constructor
    · rintro ⟨m, -, o, es, -, rfl, rfl, ⟨-, hm, -⟩, rfl, rfl, u, v, es₁, es₂, hu, hv, rfl, rfl⟩
      exact ⟨rfl, rfl, m, u, v, es, es₁, es₂, hm, hu, hv, by simp, by simp⟩
    · rintro ⟨rfl, rfl, m, u, v, es₀, es₁, es₂, hm, hu, hv, rfl, hes⟩
      have hstop : MiscStops (u ++ v ++ []) := by
        obtain ⟨c, u, rfl, hc⟩ := hu.element_head
        exact miscStops_openingTag hc
      have hes' : es = es₀ ++ (es₁ ++ es₂ ++ [.endDocument]) := by simpa using hes
      exact ⟨m, u ++ v, _, es₀, _, by simp, hes', ⟨rfl, hm, hstop⟩, rfl, rfl,
        u, v, es₁, es₂, hu, hv, rfl, rfl⟩

theorem atDeclaration_eq_false (h : NoDeclaration source) :
    atDeclaration (Cursor.start source) = false := by
  rw [atDeclaration, Bool.and_eq_false_imp]
  intro hstart
  rw [Cursor.startsWith, List.isPrefixOf_iff_prefix] at hstart
  obtain ⟨u, hu⟩ := hstart
  obtain rfl : "<?xml".toList ++ u = source := hu
  cases u with
  | nil => rfl
  | cons c u => exact h c u rfl

/-- A whole document. -/
theorem document_takes (hclean : Clean source) (hdeclaration : NoDeclaration source)
    (hdoctype : NoDoctype source) :
    (document false).TakesAt { cursor := Cursor.start source } fun t opened es rest =>
      rest = [] ∧ opened = [] ∧ Document t es := by
  rw [document_eq]
  refine TakesAt.cursor (TakesAt.congr (emit_bind_takes fun s₁ hcursor₁ hopened₁ =>
    emit_bind_takes (P := fun t opened es rest => rest = [] ∧ opened = [] ∧
      Document t ([.locator, .startDocument] ++ es)) fun s₂ hcursor₂ hopened₂ => ?_)
    fun t opened es rest _ => ?_)
  · have hcursor : s₂.cursor.rest = source := by rw [hcursor₂, hcursor₁]; rfl
    have hopened : s₂.opened = [] := hopened₂.trans hopened₁
    have hdeclaration' := atDeclaration_eq_false hdeclaration
    rw [if_neg (by rw [hdeclaration']; exact Bool.false_ne_true)]
    exact fromProlog_takes (hcursor ▸ hclean) hopened (hcursor ▸ hdoctype)
  · constructor
    · rintro ⟨-, ⟨es, h, rfl⟩, rfl⟩
      exact h
    · rintro ⟨rfl, rfl, m, u, v, es₀, es₁, es₂, hm, hu, hv, rfl, rfl⟩
      exact ⟨_, ⟨_, ⟨rfl, rfl, m, u, v, es₀, es₁, es₂, hm, hu, hv, rfl, by simp⟩, rfl⟩, rfl⟩

end Scanner

variable {σ ε : Type} {receive : Located → σ → Except ε Unit × σ}

/-- A scan comes to its end exactly on documents, and then its events are those of the document. -/
theorem scan_eq_complete_iff {e : List Event} (hclean : Clean source)
    (hdeclaration : NoDeclaration source) (hdoctype : NoDoctype source) :
    (∃ events, scan false source = (events, .complete) ∧ events.map Located.event = e) ↔
      Document source e := by
  have htakes := Scanner.document_takes hclean hdeclaration hdoctype
  constructor
  · rintro ⟨events, hscan, rfl⟩
    rw [scan] at hscan
    split at hscan
    · rename_i s hs
      obtain ⟨t, es, ht, hes, hrest, -, hdocument⟩ := htakes.sound s hs
      obtain rfl := (Prod.mk.inj hscan).1
      rw [hrest, List.append_nil] at ht
      rw [List.map_reverse, show (s.events.map Located.event).reverse = es from hes]
      exact (show source = t from ht) ▸ hdocument
    · rename_i e s hs
      obtain ⟨stop, rfl⟩ := htakes.fault e s hs
      cases hscan
  · intro h
    obtain ⟨s, hs, -, -, hes⟩ :=
      htakes.complete source [] e [] (List.append_nil source).symm ⟨rfl, rfl, h⟩
    refine ⟨s.events.reverse, ?_, ?_⟩
    · rw [scan, ExceptT.run, hs]
    · rw [List.map_reverse]
      exact hes

/-- A receiver that accepts every event gets them all. -/
theorem deliver_of_accepting (haccept : ∀ e s, (receive e s).1 = .ok ()) (events : List Located)
    (s : σ) : deliver receive events s = (none, events.foldl (fun s e => (receive e s).2) s) := by
  induction events generalizing s with
  | nil => rfl
  | cons e events ih =>
    have h := haccept e s
    rw [deliver]
    cases hr : receive e s with
    | mk result s' =>
      rw [hr] at h
      obtain rfl : result = .ok () := h
      dsimp only
      rw [ih, List.foldl_cons, hr]

/-- What becomes of a source whose events are all accepted. -/
theorem read_of_accepting [Encoding.Decoders] {t : Text} {s : σ}
    (hsource : (decodeSource t : Except (ReadError ε) (List Char)) = .ok source)
    (haccept : ∀ e s, (receive e s).1 = .ok ()) : read receive false t s =
      (match (scan false source).2 with
        | .complete => .ok ()
        | .canceled => .error .canceled
        | .fault stop => .error (.fault stop),
        (scan false source).1.foldl (fun s e => (receive e s).2) s) := by
  rw [read, hsource]
  dsimp only
  rw [deliver_of_accepting haccept]
  cases (scan false source).2 <;> rfl

/-- **Reading accepts exactly the documents.** A source without declarations is read to its end if
and only if it is a document, and then the receiver gets the events of the document in order. -/
theorem read_eq_ok_iff_document [Encoding.Decoders] (receive : Located → σ → Except ε Unit × σ)
    (t : Text) (s : σ)
    (hsource : (decodeSource t : Except (ReadError ε) (List Char)) = .ok source)
    (hclean : Text.replacement ∉ source) (hdeclaration : NoDeclaration source)
    (hdoctype : NoDoctype source) (haccept : ∀ e s, (receive e s).1 = .ok ()) :
    ((read receive false t s).1 = .ok () ↔ ∃ es, Document source es) ∧
      ∀ es, Document source es → ∃ events : List Located, events.map Located.event = es ∧
        read receive false t s = (.ok (), events.foldl (fun s e => (receive e s).2) s) := by
  have hscan {es : List Event} := scan_eq_complete_iff (e := es) hclean hdeclaration hdoctype
  rw [read_of_accepting hsource haccept]
  refine ⟨⟨fun hok => ?_, ?_⟩, ?_⟩
  · cases h : scan false source with
    | mk events ending =>
      rw [h] at hok
      cases ending with
      | complete => exact ⟨_, hscan.mp ⟨events, h, rfl⟩⟩
      | canceled => cases hok
      | fault stop => cases hok
  · rintro ⟨es, hdocument⟩
    obtain ⟨events, h, -⟩ := hscan.mpr hdocument
    rw [h]
  · intro es hdocument
    obtain ⟨events, h, hes⟩ := hscan.mpr hdocument
    exact ⟨events, hes, by rw [h]⟩

/-- A comment, and an element with an attribute, references and an element inside. -/
theorem document_of_read_ok : ∃ es, Document
    "<!--i--><a n='&lt;'>x&#9;<b/></a>".toList es := by
  refine (read_eq_ok_iff_document
    (fun _ n => (.ok (), n + 1) : Located → Nat → Except Unit Unit × Nat)
    ("<!--i--><a n='&lt;'>x&#9;<b/></a>" : Text) 0
    (eq_ok_of_toOption ?_) ?_ ?_ ?_ fun _ _ => rfl).1.mp (eq_ok_of_toOption ?_)
  · decide +kernel
  · decide +kernel
  · rintro c u h
    simp at h
  · rintro m es u - h
    have hnot : ¬ ['<', '!', 'D', 'O', 'C', 'T', 'Y', 'P', 'E'] <:+:
        "<!--i--><a n='&lt;'>x&#9;<b/></a>".toList := by decide +kernel
    exact hnot ⟨m, u, h.symm⟩
  · decide +kernel

end Stencil.Markup
