import Mathlib.Tactic.Tauto
import Stencil.Markup.Scan
import Stencil.Proofs.Markup.Items

/-!
# What scanners take

A scanner takes text like a reader, reports events, and opens and closes elements. `TakesAt` says
which effects it can have: what it does from a state is an effect of the given relation, and every
effect of the relation that the text allows is what it does.

Scanners for single constructs take the items of content. The loop over content takes items until no
element is open, and the loop around the root element takes white space, comments and instructions;
both bounds suffice, because an item is never empty.

## Main definitions

* `Scanner.TakesAt` – the effects of a scanner from a state
* `Scanner.fromProlog`, `Scanner.fromRoot`, `Scanner.fromContent`, `Scanner.finish` – the stages of
  a document

## Main results

* `Scanner.TakesAt.bind`, `Scanner.TakesAt.read_bind` – scanners in sequence
* `Scanner.content_takes` – items until every element is closed
* `Scanner.misc_takes` – what stands around the root element
-/

namespace Stencil.Markup

open Grammar

/-- The events that were reported, in the order of reading. -/
def Scan.reported (s : Scan) : List Event := (s.events.map Located.event).reverse

namespace Scanner

/-- What a scanner takes, the elements that are open then, the events it reports and what is
left. -/
abbrev Effect := List Char → List Text → List Event → List Char → Prop

/-- From the given state, the scanner has exactly the effects of a relation, or it finds a fault. -/
structure TakesAt (m : Scanner Unit) (s : Scan) (P : Effect) : Prop where
  /-- What the scanner does is an effect of the relation. -/
  sound : ∀ s', m s = (.ok (), s') → ∃ t es, s.cursor.rest = t ++ s'.cursor.rest ∧
    s'.reported = s.reported ++ es ∧ P t s'.opened es s'.cursor.rest
  /-- The scanner has every effect of the relation that the text allows. -/
  complete : ∀ t opened es rest, s.cursor.rest = t ++ rest → P t opened es rest →
    ∃ s', m s = (.ok (), s') ∧ s'.cursor.rest = rest ∧ s'.opened = opened ∧
      s'.reported = s.reported ++ es
  /-- Nothing but a fault ends the scanner early. -/
  fault : ∀ e s', m s = (.error e, s') → ∃ stop, e = .fault stop

variable {α : Type} {m k : Scanner Unit} {r : Reader α} {f : α → Scanner Unit} {s s' : Scan}
  {P P' : Effect}

theorem bind_apply {m : Scanner α} : (m >>= f) s = match m s with
    | (.ok a, s') => f a s'
    | (.error e, s') => (.error e, s') := by
  change ExceptT.bindCont f (m s).1 (m s).2 = _
  rcases m s with ⟨_ | _, s'⟩ <;> rfl

theorem read_bind_apply : (read r >>= f) s = match r s.cursor with
    | .ok (a, cur) => f a { s with cursor := cur }
    | .error stop => (.error (.fault stop), s) := by
  rw [bind_apply, read]
  cases r s.cursor <;> rfl

namespace TakesAt

theorem congr (h : m.TakesAt s P) (hP : ∀ t opened es rest, s.cursor.rest = t ++ rest →
    (P t opened es rest ↔ P' t opened es rest)) : m.TakesAt s P' where
  sound s' hs' := by
    obtain ⟨t, es, ht, hes, hP'⟩ := h.sound s' hs'
    exact ⟨t, es, ht, hes, (hP _ _ _ _ ht).mp hP'⟩
  complete t opened es rest ht hP' := h.complete t opened es rest ht ((hP _ _ _ _ ht).mpr hP')
  fault := h.fault

theorem congr_apply (h : m.TakesAt s P) (heq : k s = m s) : k.TakesAt s P where
  sound s' hs' := h.sound s' (heq.symm.trans hs')
  complete t opened es rest ht hP := by
    rw [heq]
    exact h.complete t opened es rest ht hP
  fault e s' hs' := h.fault e s' (heq.symm.trans hs')

theorem fail {fault : Fault} : (fail fault : Scanner Unit).TakesAt s fun _ _ _ _ => False where
  sound _ hs' := nomatch hs'
  complete _ _ _ _ _ h := h.elim
  fault e s' hs' := by
    cases hs'
    exact ⟨_, rfl⟩

theorem fail_bind {fault : Fault} :
    ((Scanner.fail fault : Scanner α) >>= f).TakesAt s fun _ _ _ _ => False where
  sound _ hs' := nomatch hs'
  complete _ _ _ _ _ h := h.elim
  fault e s' hs' := by
    cases hs'
    exact ⟨_, rfl⟩

theorem cursor {g : Cursor → Scanner Unit} (h : (g s.cursor).TakesAt s P) :
    (Scanner.cursor >>= g).TakesAt s P := h.congr_apply rfl

/-- What is left is clean if the whole was. -/
theorem clean (h : m.TakesAt s P) (hclean : Clean s.cursor.rest) (hs' : m s = (.ok (), s')) :
    Clean s'.cursor.rest := by
  obtain ⟨t, es, ht, -, -⟩ := h.sound s' hs'
  rw [ht] at hclean
  exact (Clean.append.mp hclean).2

/-- A scanner that takes nothing. -/
theorem idle {opened : List Text} {es : List Event} (h : m s = (.ok (), s'))
    (hrest : s'.cursor.rest = s.cursor.rest) (hopened : s'.opened = opened)
    (hreported : s'.reported = s.reported ++ es) :
    m.TakesAt s fun t opened' es' _ => t = [] ∧ opened' = opened ∧ es' = es where
  sound s'' hs'' := by
    obtain rfl := (Prod.mk.inj (h.symm.trans hs'')).2
    exact ⟨[], es, hrest.symm, hreported, rfl, hopened, rfl⟩
  complete := by
    rintro t opened' es' rest ht ⟨rfl, rfl, rfl⟩
    exact ⟨s', h, hrest.trans ht, hopened, hreported⟩
  fault e s'' hs'' := nomatch h.symm.trans hs''

/-- Scanners in sequence. -/
theorem bind {Q : List Text → Effect} (h : m.TakesAt s P)
    (hk : ∀ s', m s = (.ok (), s') → k.TakesAt s' (Q s'.opened)) :
    (m >>= fun _ => k).TakesAt s fun t opened es rest => ∃ t₁ t₂ opened' es₁ es₂, t = t₁ ++ t₂ ∧
      es = es₁ ++ es₂ ∧ P t₁ opened' es₁ (t₂ ++ rest) ∧ Q opened' t₂ opened es₂ rest where
  sound s'' hs'' := by
    rw [bind_apply] at hs''
    split at hs''
    · rename_i s' hs'
      obtain ⟨t₁, es₁, ht₁, hes₁, hP⟩ := h.sound s' hs'
      obtain ⟨t₂, es₂, ht₂, hes₂, hQ⟩ := (hk s' hs').sound s'' hs''
      rw [ht₂] at ht₁ hP
      refine ⟨t₁ ++ t₂, es₁ ++ es₂, ?_, ?_, t₁, t₂, s'.opened, es₁, es₂, rfl, rfl, hP, hQ⟩
      · rw [ht₁, List.append_assoc]
      · rw [hes₂, hes₁, List.append_assoc]
    · cases hs''
  complete := by
    rintro t opened es rest ht ⟨t₁, t₂, opened', es₁, es₂, rfl, rfl, hP, hQ⟩
    rw [List.append_assoc] at ht
    obtain ⟨s', hs', hrest, rfl, hes₁⟩ := h.complete t₁ opened' es₁ (t₂ ++ rest) ht hP
    obtain ⟨s'', hs'', hrest', hopened, hes₂⟩ := (hk s' hs').complete t₂ opened es₂ rest hrest hQ
    refine ⟨s'', by rw [bind_apply, hs']; exact hs'', hrest', hopened, ?_⟩
    rw [hes₂, hes₁, List.append_assoc]
  fault e s'' hs'' := by
    rw [bind_apply] at hs''
    split at hs''
    · rename_i s' hs'
      exact (hk s' hs').fault e s'' hs''
    · rename_i e' s' hs'
      cases hs''
      exact h.fault e s'' hs'

/-- A scanner that reads and goes on with the value. -/
theorem read_bind {R : List Char → α → List Char → Prop} {Q : α → Effect}
    (h : r.ReadsAt s.cursor R)
    (hf : ∀ a cur, r s.cursor = .ok (a, cur) → (f a).TakesAt { s with cursor := cur } (Q a)) :
    (read r >>= f).TakesAt s fun t opened es rest =>
      ∃ t₁ t₂ a, t = t₁ ++ t₂ ∧ R t₁ a (t₂ ++ rest) ∧ Q a t₂ opened es rest where
  sound s' hs' := by
    rw [read_bind_apply] at hs'
    split at hs'
    · rename_i a cur hr
      obtain ⟨t₁, ht₁, hR⟩ := h.rest hr
      obtain ⟨t₂, es, ht₂, hes, hQ⟩ := (hf a cur hr).sound s' hs'
      change cur.rest = _ at ht₂
      rw [ht₂] at ht₁ hR
      exact ⟨t₁ ++ t₂, es, by rw [ht₁, List.append_assoc], hes, t₁, t₂, a, rfl, hR, hQ⟩
    · cases hs'
  complete := by
    rintro t opened es rest ht ⟨t₁, t₂, a, rfl, hR, hQ⟩
    rw [List.append_assoc] at ht
    obtain ⟨cur, hr, hrest⟩ := (h a (t₂ ++ rest)).mpr ⟨t₁, ht, hR⟩
    obtain ⟨s', hs', hres⟩ := (hf a cur hr).complete t₂ opened es rest hrest hQ
    exact ⟨s', by rw [read_bind_apply, hr]; exact hs', hres⟩
  fault e s' hs' := by
    rw [read_bind_apply] at hs'
    split at hs'
    · rename_i a cur hr
      exact (hf a cur hr).fault e s' hs'
    · cases hs'
      exact ⟨_, rfl⟩

/-- A scanner that reads a construct and only reports it then. -/
theorem read_report {R : List Char → α → List Char → Prop} {o : α → List Text}
    {e : α → List Event} (h : r.ReadsAt s.cursor R)
    (hf : ∀ a cur, ∃ s', f a { s with cursor := cur } = (.ok (), s') ∧ s'.cursor = cur ∧
      s'.opened = o a ∧ s'.reported = s.reported ++ e a) :
    (read r >>= f).TakesAt s fun t opened es rest =>
      ∃ a, R t a rest ∧ opened = o a ∧ es = e a := by
  have hreport (a : α) (cur : Cursor) (_ : r s.cursor = .ok (a, cur)) :
      (f a).TakesAt { s with cursor := cur }
        fun t opened es _ => t = [] ∧ opened = o a ∧ es = e a := by
    obtain ⟨s', hs', hcursor, hopened, hreported⟩ := hf a cur
    exact idle hs' (congrArg Cursor.rest hcursor) hopened hreported
  refine TakesAt.congr (read_bind h hreport) fun t opened es rest _ => ?_
  constructor
  · rintro ⟨t, -, a, rfl, hR, rfl, rfl, rfl⟩
    exact ⟨a, by simpa using hR, rfl, rfl⟩
  · rintro ⟨a, hR, rfl, rfl⟩
    exact ⟨t, [], a, (List.append_nil t).symm, by simpa using hR, rfl, rfl, rfl⟩

end TakesAt

theorem emit_apply {mark : Cursor} {event : Event} : ∃ s', emit mark event s = (.ok (), s') ∧
    s'.cursor = s.cursor ∧ s'.opened = s.opened ∧ s'.reported = s.reported ++ [event] := by
  refine ⟨_, rfl, rfl, rfl, ?_⟩
  simp [Scan.reported]

theorem emit_takes {mark : Cursor} {event : Event} : (emit mark event).TakesAt s
    fun t opened es _ => t = [] ∧ opened = s.opened ∧ es = [event] := by
  refine TakesAt.idle rfl rfl rfl ?_
  simp [Scan.reported]

/-! ### Constructs -/

/-- A construct that neither opens nor closes an element. -/
theorem construct_takes {R : List Char → α → List Char → Prop} {event : α → Event}
    (h : r.ReadsAt s.cursor R) : (construct r event).TakesAt s fun t opened es rest =>
      ∃ a, R t a rest ∧ opened = s.opened ∧ es = [event a] :=
  TakesAt.cursor (TakesAt.read_report h fun _ _ => emit_apply)

variable {bound : Nat}

theorem instruction_takes (hclean : Clean s.cursor.rest) :
    instruction.TakesAt s fun t opened es rest => Item s.opened t opened es rest .instruction := by
  refine TakesAt.congr (construct_takes (Reader.instruction_reads s.cursor hclean (Nat.le_refl _)))
    fun t opened es rest _ => ?_
  constructor
  · rintro ⟨p, hp, rfl, rfl⟩
    exact ⟨_, hp, rfl, rfl⟩
  · rintro ⟨e, he, rfl, rfl⟩
    obtain ⟨target, data, rfl⟩ : ∃ target data, e = .instruction target data := by
      obtain ⟨n, -, -, ⟨-, hevent⟩ | ⟨s', u, -, -, -, hevent⟩⟩ := he <;> exact ⟨_, _, hevent⟩
    exact ⟨(target, data), he, rfl, rfl⟩

theorem comment_takes (hclean : Clean s.cursor.rest) :
    comment.TakesAt s fun t opened es rest => Item s.opened t opened es rest .comment := by
  refine TakesAt.congr (construct_takes (Reader.comment_reads s.cursor hclean (Nat.le_refl _)))
    fun t opened es rest _ => ?_
  constructor
  · rintro ⟨text, htext, rfl, rfl⟩
    exact ⟨_, htext, rfl, rfl⟩
  · rintro ⟨e, he, rfl, rfl⟩
    obtain ⟨u, -, -, rfl⟩ := id he
    exact ⟨_, he, rfl, rfl⟩

theorem cdata_takes (hclean : Clean s.cursor.rest) :
    (construct Reader.cdataSection .cdata).TakesAt s fun t opened es rest =>
      Item s.opened t opened es rest .cdata := by
  refine TakesAt.congr (construct_takes (Reader.cdataSection_reads s.cursor hclean (Nat.le_refl _)))
    fun t opened es rest _ => ?_
  constructor
  · rintro ⟨text, htext, rfl, rfl⟩
    exact ⟨_, htext, rfl, rfl⟩
  · rintro ⟨e, he, rfl, rfl⟩
    obtain ⟨u, -, -, rfl⟩ := id he
    exact ⟨_, he, rfl, rfl⟩

theorem reference_takes (hclean : Clean s.cursor.rest) :
    (construct Reader.reference fun c => .characters (Text.ofChars [c])).TakesAt s
      fun t opened es rest => Item s.opened t opened es rest .reference :=
  construct_takes (Reader.reference_reads s.cursor hclean (Nat.le_refl _))

theorem startTag_takes (hclean : Clean s.cursor.rest) (hlen : s.cursor.rest.length ≤ bound) :
    (startTag bound).TakesAt s fun t opened es rest =>
      Item s.opened t opened es rest .startTag := by
  refine TakesAt.cursor (TakesAt.congr (TakesAt.read_report
    (o := fun tag => if tag.selfClosing then s.opened else tag.name.full :: s.opened)
    (e := fun tag => if tag.selfClosing then [.startTag tag, .endTag tag] else [.startTag tag])
    (Reader.startTag_reads s.cursor hclean hlen) fun tag cur => ?_) fun t opened es rest _ => ?_)
  · cases hclosing : tag.selfClosing with
    | true =>
      refine ⟨_, rfl, rfl, rfl, ?_⟩
      simp [Scan.reported]
    | false =>
      refine ⟨_, rfl, rfl, rfl, ?_⟩
      simp [Scan.reported]
  · constructor
    · rintro ⟨tag, ⟨n, h | h⟩, rfl, rfl⟩
      · obtain ⟨as, s, hn, -, -, hclosing, -⟩ := id h
        rw [hclosing]
        refine ⟨n, tag, .inl ⟨h, ?_, rfl⟩⟩
        rw [Reader.full_eq_of_splits hn.2]
        rfl
      · obtain ⟨as, s, hn, -, -, hclosing, -⟩ := id h
        rw [hclosing]
        exact ⟨n, tag, .inr ⟨h, rfl, rfl⟩⟩
    · rintro ⟨n, tag, ⟨h, rfl, rfl⟩ | ⟨h, rfl, rfl⟩⟩
      · obtain ⟨as, s, hn, -, -, hclosing, -⟩ := id h
        refine ⟨tag, ⟨n, .inl h⟩, ?_⟩
        rw [hclosing, Reader.full_eq_of_splits hn.2]
        exact ⟨rfl, rfl⟩
      · obtain ⟨as, s, hn, -, -, hclosing, -⟩ := id h
        refine ⟨tag, ⟨n, .inr h⟩, ?_⟩
        rw [hclosing]
        exact ⟨rfl, rfl⟩

theorem endTag_takes (hclean : Clean s.cursor.rest) (hne : s.opened ≠ []) :
    endTag.TakesAt s fun t opened es rest => Item s.opened t opened es rest .endTag := by
  obtain ⟨name, outer, hopened⟩ := List.exists_cons_of_ne_nil hne
  have hread : (read (Reader.endTag name) >>= fun tag => do
      modify fun s => { s with opened := s.opened.tail }
      emit s.cursor (.endTag tag) : Scanner Unit).TakesAt s _ :=
    TakesAt.read_report (o := fun _ => outer) (e := fun tag => [.endTag tag])
      (Reader.endTag_reads s.cursor hclean (Nat.le_refl _)) fun tag cur => by
        refine ⟨_, rfl, rfl, ?_, ?_⟩
        · change s.opened.tail = outer
          rw [hopened, List.tail_cons]
        · simp [Scan.reported]
  refine TakesAt.congr (hread.congr_apply ?_) fun t opened es rest _ => ?_
  · change (read (Reader.endTag (s.opened.headD [])) >>= _) s = _
    rw [hopened, List.headD_cons]
  · rw [hopened]
    constructor
    · rintro ⟨tag, ⟨n, htag, rfl⟩, rfl, rfl⟩
      exact ⟨n, tag, htag, rfl, rfl⟩
    · rintro ⟨n, tag, htag, heq, rfl⟩
      obtain ⟨rfl, rfl⟩ := List.cons.inj heq
      exact ⟨tag, ⟨n, htag, rfl⟩, rfl, rfl⟩

theorem characters_takes (hclean : Clean s.cursor.rest) (hlen : s.cursor.rest.length ≤ bound)
    (hne : ¬ Reader.RunStops s.cursor.rest) : (characters bound).TakesAt s fun t opened es rest =>
      Item s.opened t opened es rest .characters := by
  refine TakesAt.cursor (TakesAt.congr (TakesAt.read_report (o := fun _ => s.opened)
    (e := characterEvents) ((Reader.characterRun_reads (by decide) (bound + 1)).mono
      (Nat.le_succ bound) s.cursor hclean hlen) fun run cur => ?_) fun t opened es rest ht => ?_)
  · cases run with
    | nil =>
      refine ⟨_, rfl, rfl, rfl, ?_⟩
      simp [Scan.reported, characterEvents]
    | cons c run =>
      refine ⟨_, rfl, rfl, rfl, ?_⟩
      simp [Scan.reported, characterEvents]
  · constructor
    · rintro ⟨run, ⟨rfl, hrun, hstop⟩, rfl, rfl⟩
      refine ⟨?_, hrun, hstop, rfl, rfl⟩
      rintro rfl
      exact hne (ht ▸ hstop)
    · rintro ⟨-, hrun, hstop, rfl, rfl⟩
      exact ⟨t, ⟨rfl, hrun, hstop⟩, rfl, rfl⟩

/-! ### The content of elements -/

theorem ruleOf_rest {cur : Cursor} : ruleOf cur.rest =
    if cur.startsWith "</" then .endTag
    else if cur.startsWith "<?" then .instruction
    else if cur.startsWith "<!--" then .comment
    else if cur.startsWith "<![CDATA[" then .cdata
    else if cur.startsWith "<" then .startTag
    else if cur.startsWith "&" then .reference
    else .characters := rfl

theorem not_runStops {cur : Cursor} (hne : cur.rest ≠ []) (hlt : ¬ cur.startsWith "<")
    (hamp : ¬ cur.startsWith "&") : ¬ Reader.RunStops cur.rest := by
  obtain ⟨c, u, hrest⟩ := List.exists_cons_of_ne_nil hne
  intro hstop
  rcases hstop c (by rw [hrest]; rfl) with rfl | rfl
  · exact hlt (by rw [Cursor.startsWith, hrest]; rfl)
  · exact hamp (by rw [Cursor.startsWith, hrest]; rfl)

/-- One item of content: the one that begins here. -/
theorem contentItem_takes (hclean : Clean s.cursor.rest) (hlen : s.cursor.rest.length ≤ bound)
    (hopened : s.opened ≠ []) (hrest : s.cursor.rest ≠ []) :
    (contentItem false bound).TakesAt s fun t opened es rest =>
      ∃ rule, Item s.opened t opened es rest rule := by
  have hitem : (contentItem false bound).TakesAt s fun t opened es rest =>
      Item s.opened t opened es rest (ruleOf s.cursor.rest) := by
    refine TakesAt.cursor ?_
    rw [ruleOf_rest]
    by_cases hend : s.cursor.startsWith "</"
    · simp only [hend, if_true]
      exact endTag_takes hclean hopened
    simp only [hend]
    by_cases hinstruction : s.cursor.startsWith "<?"
    · simp only [hinstruction, if_true]
      exact instruction_takes hclean
    simp only [hinstruction]
    by_cases hcomment : s.cursor.startsWith "<!--"
    · simp only [hcomment, if_true]
      exact comment_takes hclean
    simp only [hcomment]
    by_cases hcdata : s.cursor.startsWith "<![CDATA["
    · simp only [hcdata, if_true]
      exact cdata_takes hclean
    simp only [hcdata]
    by_cases htag : s.cursor.startsWith "<"
    · simp only [htag, if_true]
      exact startTag_takes hclean hlen
    simp only [htag]
    by_cases hreference : s.cursor.startsWith "&"
    · simp only [hreference, if_true]
      exact reference_takes hclean
    · simp only [hreference]
      exact characters_takes hclean hlen (not_runStops hrest htag hreference)
  refine hitem.congr fun t opened es rest ht => ?_
  constructor
  · exact fun h => ⟨_, h⟩
  · rintro ⟨rule, h⟩
    rw [ht, h.ruleOf_eq]
    exact h

theorem content_takes_of_closed {n : Nat} (hopened : s.opened = []) : (content false n).TakesAt s
    fun t opened es rest => opened = [] ∧ Items s.opened t es rest := by
  have happly : content false n s = (.ok (), s) := by
    cases n with
    | zero =>
      change (if s.opened.isEmpty then pure () else _ : Scanner Unit) s = _
      rw [hopened]
      rfl
    | succ n =>
      change (if s.opened.isEmpty then pure () else _ : Scanner Unit) s = _
      rw [hopened]
      rfl
  have hidle := TakesAt.idle happly rfl hopened (List.append_nil s.reported).symm
  refine hidle.congr fun t opened es rest _ => ?_
  rw [hopened, items_nil_iff]
  tauto

theorem content_zero_of_opened (hopened : s.opened ≠ []) :
    content false 0 s = (fail .unexpectedEnd : Scanner Unit) s := by
  change (if s.opened.isEmpty then pure () else _ : Scanner Unit) s = _
  rw [if_neg (by simpa using hopened)]

theorem content_succ_of_opened {n : Nat} (hopened : s.opened ≠ []) : content false (n + 1) s =
    (do if s.cursor.done then fail .unexpectedEnd
        contentItem false (n + 1)
        content false n : Scanner Unit) s := by
  change (if s.opened.isEmpty then pure () else _ : Scanner Unit) s = _
  rw [if_neg (by simpa using hopened)]

/-- Items until every element is closed. -/
theorem content_takes {n : Nat} (hclean : Clean s.cursor.rest) (hlen : s.cursor.rest.length ≤ n) :
    (content false n).TakesAt s fun t opened es rest => opened = [] ∧ Items s.opened t es rest := by
  induction n generalizing s with
  | zero =>
    by_cases hopened : s.opened = []
    · exact content_takes_of_closed hopened
    · refine TakesAt.congr (TakesAt.fail.congr_apply (content_zero_of_opened hopened))
        fun t opened es rest ht => iff_of_false id fun h => h.2.ne_nil hopened ?_
      rw [List.length_eq_zero_iff.mp (Nat.le_zero.mp hlen)] at ht
      exact (List.append_eq_nil_iff.mp ht.symm).1
  | succ n ih =>
    by_cases hopened : s.opened = []
    · exact content_takes_of_closed hopened
    · refine TakesAt.congr_apply ?_ (content_succ_of_opened hopened)
      by_cases hdone : s.cursor.done
      · simp only [hdone, if_true]
        refine TakesAt.congr TakesAt.fail_bind fun t opened es rest ht =>
          iff_of_false id fun h => h.2.ne_nil hopened ?_
        rw [List.isEmpty_iff.mp hdone] at ht
        exact (List.append_eq_nil_iff.mp ht.symm).1
      · simp only [hdone]
        have hitem := contentItem_takes hclean hlen hopened (by simpa [Cursor.done] using hdone)
        refine TakesAt.congr (hitem.bind
          (Q := fun o t opened es rest => opened = [] ∧ Items o t es rest) fun s' hs' => ?_)
          fun t opened es rest _ => ?_
        · obtain ⟨t, es, ht, -, rule, hrule⟩ := hitem.sound s' hs'
          rw [ht] at hclean hlen
          refine ih (Clean.append.mp hclean).2 ?_
          have hpos := List.length_pos_iff.mpr hrule.ne_nil
          rw [List.length_append] at hlen
          omega
        · rw [items_iff_of_ne_nil hopened]
          constructor
          · rintro ⟨t₁, t₂, opened', es₁, es₂, rfl, rfl, h, rfl, h'⟩
            exact ⟨rfl, t₁, t₂, opened', es₁, es₂, rfl, rfl, h, h'⟩
          · rintro ⟨rfl, t₁, t₂, opened', es₁, es₂, rfl, rfl, h, h'⟩
            exact ⟨t₁, t₂, opened', es₁, es₂, rfl, rfl, h, rfl, h'⟩

/-! ### Around the root element -/

/-- What follows is neither white space nor an instruction nor a comment. -/
def MiscStops (rest : List Char) : Prop :=
  Reader.Ends isBlankChar rest ∧ ¬ ['<', '?'] <+: rest ∧ ¬ ['<', '!', '-', '-'] <+: rest

/-- What stands around the root element, when the white space at its front is taken. -/
def MiscsNext (t : List Char) (es : List Event) (rest : List Char) : Prop :=
  t = [] ∧ es = [] ∧ ¬ ['<', '?'] <+: rest ∧ ¬ ['<', '!', '-', '-'] <+: rest ∨
    ∃ u v e es', (Instruction u e ∨ Comment u e) ∧ Miscs v es' ∧ MiscStops rest ∧ t = u ++ v ∧
      es = e :: es'

theorem miscs_and_stops_iff {t rest : List Char} {es : List Event} : Miscs t es ∧ MiscStops rest ↔
    ∃ s u, Blank s ∧ Reader.Ends isBlankChar (u ++ rest) ∧ MiscsNext u es rest ∧ t = s ++ u := by
  constructor
  · rintro ⟨h, hstop⟩
    induction h with
    | nil => exact ⟨[], [], by simp [Blank], hstop.1, .inl ⟨rfl, rfl, hstop.2⟩, rfl⟩
    | @blanks t u es ht _ ih =>
      obtain ⟨s, v, hs, hends, hnext, rfl⟩ := ih
      exact ⟨t ++ s, v, List.forall_mem_append.mpr ⟨ht.2, hs⟩, hends, hnext, by simp⟩
    | @comment t u e es ht hu _ =>
      refine ⟨[], t ++ u, by simp [Blank], ?_,
        .inr ⟨t, u, e, es, .inr ht, hu, hstop, rfl, rfl⟩, rfl⟩
      obtain ⟨t, rfl⟩ := ht.exists_cons
      exact Reader.ends_cons (by decide)
    | @instruction t u e es ht hu _ =>
      refine ⟨[], t ++ u, by simp [Blank], ?_,
        .inr ⟨t, u, e, es, .inl ht, hu, hstop, rfl, rfl⟩, rfl⟩
      obtain ⟨t, rfl⟩ := ht.exists_cons
      exact Reader.ends_cons (by decide)
  · rintro ⟨s, u, hs, hends, hnext, rfl⟩
    have hu : Miscs u es ∧ MiscStops rest := by
      rcases hnext with ⟨rfl, rfl, hstop⟩ | ⟨u, v, e, es', hu | hu, hv, hstop, rfl, rfl⟩
      · exact ⟨.nil, hends, hstop⟩
      · exact ⟨.instruction hu hv, hstop⟩
      · exact ⟨.comment hu hv, hstop⟩
    by_cases hempty : s = []
    · subst hempty
      exact hu
    · exact ⟨.blanks ⟨hempty, hs⟩ hu.1, hu.2⟩

theorem miscs_nil_iff {es : List Event} : Miscs [] es ↔ es = [] := by
  constructor
  · generalize ht : ([] : List Char) = t
    intro h
    cases h with
    | nil => rfl
    | blanks h _ => exact absurd (List.append_eq_nil_iff.mp ht.symm).1 h.1
    | comment h _ =>
      obtain ⟨u, rfl⟩ := h.exists_cons
      cases ht
    | instruction h _ =>
      obtain ⟨u, rfl⟩ := h.exists_cons
      cases ht
  · rintro rfl
    exact .nil

/-- One construct and what follows it, up to the bound that is left. -/
theorem miscItem_takes {n : Nat} {C : List Char → Event → Prop} (hclean : Clean s.cursor.rest)
    (hlen : s.cursor.rest.length ≤ n + 1) (hC : ∀ t e, C t e → t ≠ [])
    (hm : m.TakesAt s fun t opened es _ => ∃ e, C t e ∧ opened = s.opened ∧ es = [e])
    (ih : ∀ {s : Scan}, Clean s.cursor.rest → s.cursor.rest.length ≤ n → (misc n).TakesAt s
      fun t opened es rest => opened = s.opened ∧ Miscs t es ∧ MiscStops rest) :
    (m >>= fun _ => misc n).TakesAt s fun t opened es rest => opened = s.opened ∧ ∃ u v e es',
      C u e ∧ Miscs v es' ∧ MiscStops rest ∧ t = u ++ v ∧ es = e :: es' := by
  refine TakesAt.congr (hm.bind (Q := fun o t opened es rest =>
    opened = o ∧ Miscs t es ∧ MiscStops rest) fun s' hs' => ?_) fun t opened es rest _ => ?_
  · obtain ⟨t, es, ht, -, e, he, -, -⟩ := hm.sound s' hs'
    rw [ht] at hclean hlen
    refine ih (Clean.append.mp hclean).2 ?_
    have hpos := List.length_pos_iff.mpr (hC t e he)
    rw [List.length_append] at hlen
    omega
  · constructor
    · rintro ⟨u, v, opened', es₁, es', rfl, rfl, ⟨e, he, rfl, rfl⟩, rfl, hv, hstop⟩
      exact ⟨rfl, u, v, e, es', he, hv, hstop, rfl, rfl⟩
    · rintro ⟨rfl, u, v, e, es', he, hv, hstop, rfl, rfl⟩
      exact ⟨u, v, s.opened, [e], es', rfl, rfl, ⟨e, he, rfl, rfl⟩, rfl, hv, hstop⟩

/-- What follows white space around the root element. -/
theorem miscsNext_takes {n : Nat} (hclean : Clean s.cursor.rest)
    (hlen : s.cursor.rest.length ≤ n + 1)
    (ih : ∀ {s : Scan}, Clean s.cursor.rest → s.cursor.rest.length ≤ n → (misc n).TakesAt s
      fun t opened es rest => opened = s.opened ∧ Miscs t es ∧ MiscStops rest) : (do
      let cur ← cursor
      if cur.startsWith "<?" then
        instruction
        misc n
      else if cur.startsWith "<!--" then
        comment
        misc n : Scanner Unit).TakesAt s fun t opened es rest =>
        opened = s.opened ∧ MiscsNext t es rest := by
  refine TakesAt.cursor ?_
  by_cases hinstruction : s.cursor.startsWith "<?"
  · simp only [hinstruction, if_true]
    rw [Cursor.startsWith, List.isPrefixOf_iff_prefix] at hinstruction
    refine TakesAt.congr
      (miscItem_takes hclean hlen (fun t e h => ?_) (instruction_takes hclean) ih)
      fun t opened es rest ht => and_congr_right fun _ => ?_
    · obtain ⟨u, rfl⟩ := h.exists_cons
      exact List.cons_ne_nil _ _
    rw [ht] at hinstruction
    constructor
    · rintro ⟨u, v, e, es', hu, hv, hstop, rfl, rfl⟩
      exact .inr ⟨u, v, e, es', .inl hu, hv, hstop, rfl, rfl⟩
    · rintro (⟨rfl, rfl, hnot, -⟩ | ⟨u, v, e, es', hu | hu, hv, hstop, rfl, rfl⟩)
      · exact absurd hinstruction hnot
      · exact ⟨u, v, e, es', hu, hv, hstop, rfl, rfl⟩
      · obtain ⟨u, rfl⟩ := hu.exists_cons
        simp at hinstruction
  simp only [hinstruction]
  rw [Cursor.startsWith, List.isPrefixOf_iff_prefix] at hinstruction
  by_cases hcomment : s.cursor.startsWith "<!--"
  · simp only [hcomment, if_true]
    rw [Cursor.startsWith, List.isPrefixOf_iff_prefix] at hcomment
    refine TakesAt.congr (miscItem_takes hclean hlen (fun t e h => ?_) (comment_takes hclean) ih)
      fun t opened es rest ht => and_congr_right fun _ => ?_
    · obtain ⟨u, rfl⟩ := h.exists_cons
      exact List.cons_ne_nil _ _
    rw [ht] at hcomment hinstruction
    constructor
    · rintro ⟨u, v, e, es', hu, hv, hstop, rfl, rfl⟩
      exact .inr ⟨u, v, e, es', .inr hu, hv, hstop, rfl, rfl⟩
    · rintro (⟨rfl, rfl, -, hnot⟩ | ⟨u, v, e, es', hu | hu, hv, hstop, rfl, rfl⟩)
      · exact absurd hcomment hnot
      · obtain ⟨u, rfl⟩ := hu.exists_cons
        simp at hinstruction
      · exact ⟨u, v, e, es', hu, hv, hstop, rfl, rfl⟩
  · simp only [hcomment]
    rw [Cursor.startsWith, List.isPrefixOf_iff_prefix] at hcomment
    refine TakesAt.congr (TakesAt.idle (s := s) rfl rfl rfl (List.append_nil s.reported).symm)
      fun t opened es rest ht => ?_
    rw [ht] at hcomment hinstruction
    constructor
    · rintro ⟨rfl, rfl, rfl⟩
      exact ⟨rfl, .inl ⟨rfl, rfl, hinstruction, hcomment⟩⟩
    · rintro ⟨rfl, ⟨rfl, rfl, -, -⟩ | ⟨u, v, e, es', hu | hu, hv, hstop, rfl, rfl⟩⟩
      · exact ⟨rfl, rfl, rfl⟩
      · obtain ⟨u, rfl⟩ := hu.exists_cons
        simp at hinstruction
      · obtain ⟨u, rfl⟩ := hu.exists_cons
        simp at hcomment

/-- White space, comments and instructions, as far as they go. -/
theorem misc_takes {n : Nat} (hclean : Clean s.cursor.rest) (hlen : s.cursor.rest.length ≤ n) :
    (misc n).TakesAt s fun t opened es rest => opened = s.opened ∧ Miscs t es ∧ MiscStops rest := by
  induction n generalizing s with
  | zero =>
    have hidle := TakesAt.idle (m := misc 0) (s := s) rfl rfl rfl (List.append_nil s.reported).symm
    refine hidle.congr fun t opened es rest ht => ?_
    rw [List.length_eq_zero_iff.mp (Nat.le_zero.mp hlen)] at ht
    obtain ⟨rfl, rfl⟩ := List.append_eq_nil_iff.mp ht.symm
    have hstop : MiscStops [] := by simp [MiscStops, Reader.Ends]
    rw [miscs_nil_iff]
    tauto
  | succ n ih =>
    have hblanks := Reader.skipBlanks_reads s.cursor hclean hlen
    refine TakesAt.congr (TakesAt.read_bind
      (Q := fun _ t opened es rest => opened = s.opened ∧ MiscsNext t es rest) hblanks
      fun b cur hr => ?_) fun t opened es rest _ => ?_
    · obtain ⟨t, ht, -⟩ := hblanks.rest hr
      rw [ht] at hclean hlen
      rw [List.length_append] at hlen
      exact miscsNext_takes (s := { s with cursor := cur }) (Clean.append.mp hclean).2
        (Nat.le_trans (Nat.le_add_left _ _) hlen) ih
    · rw [miscs_and_stops_iff]
      constructor
      · rintro ⟨t₁, t₂, b, rfl, ⟨hs, hends, -⟩, rfl, hnext⟩
        exact ⟨rfl, t₁, t₂, hs, hends, hnext, rfl⟩
      · rintro ⟨rfl, t₁, t₂, hs, hends, hnext, rfl⟩
        exact ⟨t₁, t₂, _, rfl, ⟨hs, hends, rfl⟩, rfl, hnext⟩

theorem miscs_takes (hclean : Clean s.cursor.rest) : miscs.TakesAt s fun t opened es rest =>
    opened = s.opened ∧ Miscs t es ∧ MiscStops rest :=
  TakesAt.cursor (misc_takes hclean (Nat.le_succ _))

/-! ### The stages of a document -/

/-- The end of a document. Nothing is left behind it. -/
def finish : Scanner Unit := do
  let last ← cursor
  if !last.done then fail .trailingContent
  emit last .endDocument

/-- What comes behind the tag of the root element. -/
def fromContent (canceled : Bool) : Scanner Unit := do
  content canceled (← cursor).rest.length
  miscs
  finish

/-- The root element and what comes behind it. -/
def fromRoot (canceled : Bool) : Scanner Unit := do
  let cur ← cursor
  if !cur.startsWith "<" then fail .rootRequired
  startTag cur.rest.length
  fromContent canceled

/-- What comes behind the declaration. -/
def fromProlog (canceled : Bool) : Scanner Unit := do
  miscs
  if (← cursor).startsWith "<!DOCTYPE" then
    construct Reader.doctype .doctype
    miscs
  fromRoot canceled

/-- A document, stage by stage. -/
theorem document_eq (canceled : Bool) : document canceled = (do
    let start ← cursor
    emit start .locator
    emit start .startDocument
    if atDeclaration start then construct Reader.declaration fun d => .declaration d.1 d.2.1 d.2.2
    fromProlog canceled) := rfl

end Scanner

end Stencil.Markup
