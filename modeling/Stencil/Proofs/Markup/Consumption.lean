import Stencil.Proofs.Markup.Constructs

/-!
# Counting what is consumed

A cursor counts the bytes that were consumed. However much of a source was read, what was consumed
and what is left make up the whole of it (`Cursor.extent`); also where input could not be decoded,
because the rest that is given up counts as consumed. So a cursor behind which nothing is left has
counted the whole source.

A reader touches the cursor in one way only, by moving it over the characters in front of it.
`Reader.Counts` says this of a reader, together with what is known of the values it gives: names are
names of the grammar, and the texts of attribute values and of character data are of legal
characters, also where they were written as references. A name is split at its colon in one way, so
that two names written alike are the same name.

## Main definitions

* `Cursor.extent` – the bytes consumed and those left
* `Reader.Counts` – a reader moves the cursor and gives values with a property
* `QName.Written`, `Legible`, `Tag.Written` – names, texts and tags that can be written

## Main results

* `Reader.startTag_counts`, `Reader.endTag_counts` and one lemma for every other construct
-/

namespace Stencil.Markup

/-- The number of bytes consumed and of those left. -/
def Cursor.extent (cur : Cursor) : Nat := cur.offset + (Text.ofChars cur.rest).length

theorem Cursor.extent_giveUp (cur : Cursor) : cur.giveUp.extent = cur.extent := by
  simp [extent, giveUp]

theorem Cursor.extent_pass {cur : Cursor} {c : Char} {rest : List Char} (h : cur.rest = c :: rest) :
    (cur.pass c rest).extent = cur.extent := by
  rw [extent, extent, rest_pass, h, Text.ofChars_cons, List.length_append, pass]
  split
  · rename_i hc
    have hsize : (String.utf8EncodeChar c).length = 1 := by rw [hc]; rfl
    rw [hsize]
    exact Nat.add_assoc _ _ _
  · rw [String.length_utf8EncodeChar]
    exact Nat.add_assoc _ _ _

@[simp] theorem Cursor.extent_advance (n : Nat) (cur : Cursor) :
    (cur.advance n).extent = cur.extent := by
  induction n generalizing cur with
  | zero => rfl
  | succ n ih =>
    rw [advance]
    split
    · rfl
    · rename_i c rest hrest
      split
      · exact extent_giveUp cur
      · rw [ih, extent_pass hrest]

theorem Cursor.advance_of_done {cur : Cursor} (h : cur.rest = []) (n : Nat) :
    cur.advance n = cur := by
  cases n with
  | zero => rfl
  | succ n => rw [advance, h]

/-- Two moves in sequence are one. -/
theorem Cursor.advance_advance (m n : Nat) (cur : Cursor) :
    (cur.advance m).advance n = cur.advance (m + n) := by
  induction m generalizing cur with
  | zero => rw [advance_zero, Nat.zero_add]
  | succ m ih =>
    rw [Nat.succ_add, advance, advance]
    split
    · rename_i hrest
      exact advance_of_done hrest n
    · split
      · exact advance_of_done rfl n
      · exact ih _

/-- The name is what some name of the grammar reads as, split at its colon. -/
def QName.Written (q : QName) : Prop := ∃ n, Grammar.QualifiedName n q

/-- The text is made of legal characters. -/
def Legible (t : Text) : Prop := ∃ cs, t = Text.ofChars cs ∧ ∀ c ∈ cs, isLegalChar c

/-- The names of a tag and of its attributes can be written, and so can the values of these. -/
structure Tag.Written (tag : Tag) : Prop where
  name : tag.name.Written
  attrs (a : Attr) : a ∈ tag.attrs → a.name.Written ∧ Legible a.value

/-- Two names that are written alike are the same. -/
theorem QName.Written.eq_of_full {p q : QName} (hp : p.Written) (hq : q.Written)
    (h : p.full = q.full) : p = q := by
  obtain ⟨n, -, hp⟩ := hp
  obtain ⟨m, -, hq⟩ := hq
  rw [Reader.full_eq_of_splits hp, Reader.full_eq_of_splits hq] at h
  obtain rfl := Text.ofChars_injective h
  rw [splits_iff] at hp hq
  cases hcut : (Text.ofChars n).cut? 0x3a with
  | none =>
    rw [hcut] at hp hq
    exact hp.trans hq.symm
  | some parts =>
    rw [hcut] at hp hq
    exact hp.2.2.2.trans hq.2.2.2.symm

namespace Reader

variable {α β : Type} {r : Reader α} {f : α → Reader β} {V V' : α → Prop} {W : β → Prop}

/-- Where the reader succeeds, it has moved the cursor, and the value has a property. -/
def Counts (r : Reader α) (V : α → Prop) : Prop :=
  ∀ cur a cur', r cur = .ok (a, cur') → (∃ n, cur' = cur.advance n) ∧ V a

namespace Counts

/-- What a reader consumes is not lost. -/
theorem extent_eq {cur cur' : Cursor} {a : α} (h : r.Counts V) (hr : r cur = .ok (a, cur')) :
    cur'.extent = cur.extent := by
  obtain ⟨⟨n, rfl⟩, -⟩ := h cur a cur' hr
  exact Cursor.extent_advance n cur

theorem imp (h : r.Counts V) (hV : ∀ a, V a → V' a) : r.Counts V' :=
  fun cur a cur' hr => ⟨(h cur a cur' hr).1, hV a (h cur a cur' hr).2⟩

theorem pure {a : α} (h : V a) : (pure a : Reader α).Counts V := by
  intro cur b cur' hr
  cases hr
  exact ⟨⟨0, rfl⟩, h⟩

theorem fail {fault : Fault} : (fail fault : Reader α).Counts V := by
  intro cur a cur' hr
  cases hr

theorem bind (h : r.Counts V) (hf : ∀ a, V a → (f a).Counts W) : (r >>= f).Counts W := by
  intro cur b cur'' hb
  rw [bind_apply] at hb
  split at hb
  · rename_i a cur' hr
    obtain ⟨⟨m, rfl⟩, ha⟩ := h cur a cur' hr
    obtain ⟨⟨n, rfl⟩, hw⟩ := hf a ha _ b cur'' hb
    exact ⟨⟨m + n, Cursor.advance_advance m n cur⟩, hw⟩
  · cases hb

/-- A reader whose value does not matter is followed by another. -/
theorem andThen (h : r.Counts fun _ => True) (hf : ∀ a, (f a).Counts W) : (r >>= f).Counts W :=
  h.bind fun a _ => hf a

theorem cursor {g : Cursor → Reader β} (h : ∀ cur, (g cur).Counts W) :
    (Reader.cursor >>= g).Counts W :=
  fun cur => h cur cur

theorem ite {c : Prop} [Decidable c] {r' : Reader α} (h : c → r.Counts V) (h' : ¬ c → r'.Counts V) :
    (if c then r else r').Counts V := by
  split
  · rename_i hc
    exact h hc
  · rename_i hc
    exact h' hc

/-- A check that stops the reader. -/
theorem guard {c : Prop} [Decidable c] {fault : Fault} {k : PUnit → Reader β}
    (h : ¬ c → (k ⟨⟩).Counts W) :
    (if c then Reader.fail fault >>= k else k ⟨⟩).Counts W :=
  ite (fun _ => fail.bind (V := fun _ => False) fun _ => False.elim) h

/-- A check that the reader has to pass. -/
theorem required {c : Prop} [Decidable c] {fault : Fault} {k : PUnit → Reader β}
    (h : c → (k ⟨⟩).Counts W) : (if c then k ⟨⟩ else Reader.fail fault >>= k).Counts W :=
  ite h fun _ => fail.bind (V := fun _ => False) fun _ => False.elim

end Counts

/-! ### Primitives -/

theorem advance_counts {n : Nat} : (advance n).Counts fun _ => True := by
  intro cur a cur' hr
  cases hr
  exact ⟨⟨n, rfl⟩, trivial⟩

theorem accept_counts {s : String} : (accept s).Counts fun _ => True :=
  .cursor fun _ => .ite (fun _ => advance_counts.andThen fun _ => .pure trivial)
    fun _ => .pure trivial

theorem demand_counts {s : String} {fault : Fault} : (demand s fault).Counts fun _ => True :=
  accept_counts.andThen fun _ => .ite (fun _ => .pure trivial) fun _ => .fail

theorem takeWhile_counts {p : Char → Bool} : (takeWhile p).Counts fun _ => True :=
  .cursor fun _ => advance_counts.andThen fun _ => .pure trivial

theorem skipBlanks_counts : skipBlanks.Counts fun _ => True :=
  takeWhile_counts.andThen fun _ => .pure trivial

theorem scanTo_counts {term : String} : (scanTo term).Counts fun _ => True := by
  refine .cursor fun cur => ?_
  dsimp only
  refine advance_counts.andThen fun _ => ?_
  split
  · exact advance_counts.andThen fun _ => .pure trivial
  · exact .pure trivial
  · exact .fail

/-! ### Names and references -/

theorem name_counts : name.Counts Grammar.Name := by
  refine .cursor fun cur => ?_
  split
  · exact .fail
  · rename_i c rest _
    refine .guard fun hstart => .guard fun hlong => advance_counts.andThen fun _ => .pure ?_
    refine ⟨c, _, rfl, by simpa using hstart, List.all_eq_true.mp List.all_takeWhile, ?_⟩
    simpa using hlong

theorem qname_counts : qname.Counts QName.Written := by
  refine name_counts.bind fun n hn => ?_
  dsimp only
  cases hcut : (Text.ofChars n).cut? 0x3a with
  | none => exact .pure ⟨n, hn, by rw [splits_iff, hcut]⟩
  | some parts =>
    refine .guard fun h => .pure ⟨n, hn, ?_⟩
    rw [splits_iff, hcut]
    simpa [and_assoc] using h

theorem charReferenceBody_counts {base : Nat} {isDigit : Char → Bool} :
    (charReferenceBody base isDigit).Counts fun c => isLegalChar c := by
  refine takeWhile_counts.andThen fun digits => .guard fun _ => demand_counts.andThen fun _ => ?_
  split
  · rename_i c hc
    exact .pure (charOfCode?_eq_some_iff.mp hc).1
  · exact .fail

theorem isLegalChar_of_predefinedEntity? {n : Text} {c : Char} (h : predefinedEntity? n = some c) :
    isLegalChar c := by
  rw [predefinedEntity?] at h
  repeat' split at h
  all_goals cases h
  all_goals decide

theorem reference_counts : reference.Counts fun c => isLegalChar c := by
  refine accept_counts.andThen fun _ => .ite (fun _ => charReferenceBody_counts) fun _ => ?_
  refine accept_counts.andThen fun _ => .ite (fun _ => charReferenceBody_counts) fun _ => ?_
  refine demand_counts.andThen fun _ => (name_counts.imp fun _ _ => trivial).andThen fun _ =>
    demand_counts.andThen fun _ => ?_
  split
  · rename_i c hc
    exact .pure (isLegalChar_of_predefinedEntity? hc)
  · exact .fail

/-! ### Tags -/

theorem valueRest_counts {q : Char} {n : Nat} {value : List Char}
    (hvalue : ∀ c ∈ value, isLegalChar c) : (valueRest q n value).Counts Legible := by
  induction n generalizing value with
  | zero => exact .fail
  | succ n ih =>
    refine .cursor fun cur => ?_
    split
    · exact .fail
    · have hmore {c : Char} (hc : isLegalChar c) : ∀ d ∈ c :: value, isLegalChar d :=
        List.forall_mem_cons.mpr ⟨hc, hvalue⟩
      refine .ite (fun _ => advance_counts.andThen fun _ => .pure ⟨_, rfl, ?_⟩) fun _ => ?_
      · exact fun c hc => hvalue c (List.mem_reverse.mp hc)
      refine .ite (fun _ => .fail) fun _ => ?_
      refine .ite (fun _ => reference_counts.bind fun _ hd => ih (hmore hd)) fun _ => ?_
      refine .ite (fun _ => advance_counts.andThen fun _ => ih (hmore (by decide))) fun _ => ?_
      refine .ite (fun _ => advance_counts.andThen fun _ => ih (hmore (by decide))) fun _ => ?_
      exact .ite (fun _ => .fail) fun hc => advance_counts.andThen fun _ =>
        ih (hmore (by simpa using hc))

theorem attributeValue_counts {bound : Nat} : (attributeValue bound).Counts Legible := by
  refine .cursor fun cur => ?_
  split
  · exact .guard fun _ => advance_counts.andThen fun _ => valueRest_counts (by simp)
  · exact .fail

theorem attr_counts {bound : Nat} :
    (attr bound).Counts fun a => a.name.Written ∧ Legible a.value :=
  qname_counts.bind fun _ hn => skipBlanks_counts.andThen fun _ =>
    demand_counts.andThen fun _ => skipBlanks_counts.andThen fun _ =>
      attributeValue_counts.bind fun _ hv => .pure ⟨hn, hv⟩

theorem attributes_counts {n : Nat} {attrs : List Attr}
    (hattrs : ∀ a ∈ attrs, a.name.Written ∧ Legible a.value) :
    (attributes n attrs).Counts fun found => ∀ a ∈ found.1, a.name.Written ∧ Legible a.value := by
  induction n generalizing attrs with
  | zero => exact .fail
  | succ n ih =>
    have hfound : ∀ a ∈ attrs.reverse, a.name.Written ∧ Legible a.value :=
      fun a ha => hattrs a (List.mem_reverse.mp ha)
    refine skipBlanks_counts.andThen fun blank => .cursor fun cur => .guard fun _ => ?_
    refine accept_counts.andThen fun _ => .ite (fun _ => .pure hfound) fun _ => ?_
    refine accept_counts.andThen fun _ => .ite (fun _ => .pure hfound) fun _ => ?_
    exact .guard fun _ => attr_counts.bind fun a ha => ih (List.forall_mem_cons.mpr ⟨ha, hattrs⟩)

theorem startTag_counts {bound : Nat} : (startTag bound).Counts Tag.Written :=
  demand_counts.andThen fun _ => qname_counts.bind fun _ hn =>
    (attributes_counts (by simp)).bind fun _ hattrs => .pure ⟨hn, hattrs⟩

/-- An end tag has the name of the element it closes. -/
theorem endTag_counts {opened : Text} : (endTag opened).Counts fun tag =>
    tag.name.Written ∧ tag.name.full = opened := by
  refine demand_counts.andThen fun _ => qname_counts.bind fun n hn => .guard fun hfull => ?_
  refine skipBlanks_counts.andThen fun _ => demand_counts.andThen fun _ => .pure ⟨hn, ?_⟩
  simpa using hfull

/-! ### Comments, instructions, CDATA sections and character data -/

theorem comment_counts : comment.Counts fun _ => True := by
  refine demand_counts.andThen fun _ => scanTo_counts.andThen fun text => ?_
  split
  · exact .fail
  · exact demand_counts.andThen fun _ => .pure trivial

theorem instruction_counts : instruction.Counts fun _ => True := by
  refine demand_counts.andThen fun _ => (name_counts.imp fun _ _ => trivial).andThen fun target =>
    .guard fun _ => ?_
  refine accept_counts.andThen fun _ => .ite (fun _ => .pure trivial) fun _ => ?_
  refine skipBlanks_counts.andThen fun _ => .required fun _ => scanTo_counts.andThen fun data => ?_
  split
  · exact .fail
  · exact .pure trivial

theorem cdataSection_counts : cdataSection.Counts fun _ => True := by
  refine demand_counts.andThen fun _ => scanTo_counts.andThen fun text => ?_
  split
  · exact .fail
  · exact .pure trivial

theorem isLegalChar_of_mem_dataRun {n : Nat} {cs : List Char} :
    ∀ c ∈ (dataRun n cs).1, isLegalChar c := by
  induction n generalizing cs with
  | zero => simp [dataRun]
  | succ n ih =>
    cases cs with
    | nil => simp [dataRun]
    | cons c cs =>
      rw [dataRun]
      repeat' split
      · simp
      · simp
      · simp
      · rename_i hlegal _ run e hrun
        have hmore : ∀ c ∈ (dataRun n cs).1, isLegalChar c := ih
        rw [hrun] at hmore
        rw [List.forall_mem_cons]
        exact ⟨by simpa using hlegal, hmore⟩

theorem characterRun_counts {chunk n : Nat} :
    (characterRun chunk n).Counts fun run => ∀ c ∈ run, isLegalChar c := by
  induction n with
  | zero => exact .pure (by simp)
  | succ n ih =>
    refine .cursor fun cur => ?_
    dsimp only
    refine advance_counts.andThen fun _ => ?_
    split
    · refine ih.bind fun more hmore => .pure ?_
      rw [List.forall_mem_append]
      exact ⟨isLegalChar_of_mem_dataRun, hmore⟩
    · exact .pure isLegalChar_of_mem_dataRun
    · exact .pure isLegalChar_of_mem_dataRun
    · exact .fail
    · exact .fail

/-! ### Declarations -/

theorem quotedText_counts : quotedText.Counts fun _ => True := by
  refine .cursor fun cur => ?_
  split
  · refine .guard fun _ => advance_counts.andThen fun _ => scanTo_counts.andThen fun text => ?_
    split
    · exact .pure trivial
    · exact .fail
  · exact .fail

theorem pseudoAttribute_counts {label : String} : (pseudoAttribute label).Counts fun _ => True :=
  accept_counts.andThen fun _ => .ite
    (fun _ => skipBlanks_counts.andThen fun _ => demand_counts.andThen fun _ =>
      skipBlanks_counts.andThen fun _ => quotedText_counts.andThen fun _ => .pure trivial)
    fun _ => .pure trivial

theorem declaredEncoding_counts : Reader.declaredEncoding.Counts fun _ => True := by
  refine pseudoAttribute_counts.andThen fun value => ?_
  split
  · exact .pure trivial
  · exact .guard fun _ => skipBlanks_counts.andThen fun _ => .pure trivial

theorem declaredStandalone_counts : declaredStandalone.Counts fun _ => True := by
  refine pseudoAttribute_counts.andThen fun value => ?_
  split
  · exact .pure trivial
  · exact .guard fun _ => skipBlanks_counts.andThen fun _ => .pure trivial

theorem declaration_counts : declaration.Counts fun _ => True := by
  refine demand_counts.andThen fun _ => skipBlanks_counts.andThen fun _ => .required fun _ => ?_
  refine pseudoAttribute_counts.andThen fun version => ?_
  split
  · exact .fail
  · exact .guard fun _ => skipBlanks_counts.andThen fun _ =>
      declaredEncoding_counts.andThen fun _ => declaredStandalone_counts.andThen fun _ =>
        demand_counts.andThen fun _ => .pure trivial

theorem doctype_counts : doctype.Counts fun _ => True := by
  refine .cursor fun cur => ?_
  dsimp only
  split
  · exact advance_counts.andThen fun _ => .pure trivial
  · exact advance_counts.andThen fun _ => .fail

end Reader

end Stencil.Markup
