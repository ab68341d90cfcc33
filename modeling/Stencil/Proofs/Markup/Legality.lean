import Stencil.Proofs.Markup.Nesting

/-!
# Only legal characters are read

No place checks all characters. Every reader consumes characters under a test of its own: names and
white space are of classes that hold legal characters only, texts are searched for their end and for
characters that may not occur, and everything else is compared with what has to stand there. So
whatever a reader consumes is legal (`Reader.SiftsAt`), with one exception: the document type
declaration is skipped to its end, and nothing is asked of its characters but that they could be
decoded.

## Main definitions

* `Cursor.Sifted` – the characters between two cursors are legal
* `Reader.SiftsAt` – what a reader consumes is legal
* `Scan.Sifted` – what a scan has consumed is legal, and what was reported stays reported

## Main results

* `legal_of_read_ok` – an accepted source has illegal characters in its document type declaration
  at most
-/

namespace Stencil.Markup

/-! ### Classes of characters -/

theorem isLegalChar_of_bounds {c : Char} (h : 0x20 ≤ c.toNat) (h' : c.toNat ≤ 0xd7ff) :
    isLegalChar c := by
  have hne : c ≠ Text.replacement := by
    rintro rfl
    exact absurd h' (by decide)
  simp [isLegalChar, isMarkupChar, h, h', hne]

/-- Whether a range of code points holds legal characters only. -/
def isLegalRange (r : Nat × Nat) : Bool :=
  0x20 ≤ r.1 && r.2 ≤ 0xd7ff || 0xe000 ≤ r.1 && r.2 < 0xfffd || 0x10000 ≤ r.1 && r.2 ≤ 0x10ffff

theorem isLegalChar_of_contains {rs : CodeRanges} (hrs : rs.all isLegalRange) {c : Char}
    (hc : rs.contains c.toNat) : isLegalChar c := by
  obtain ⟨r, hr, hc⟩ := List.any_eq_true.mp hc
  have hlegal := List.all_eq_true.mp hrs r hr
  simp only [isLegalRange, Bool.or_eq_true, Bool.and_eq_true, decide_eq_true_eq] at hlegal hc
  have hne : c ≠ Text.replacement := by
    rintro rfl
    have hcode : Text.replacement.toNat = 0xfffd := rfl
    omega
  simp only [isLegalChar, isMarkupChar, Bool.and_eq_true, Bool.or_eq_true, decide_eq_true_eq,
    bne_iff_ne]
  refine ⟨?_, hne⟩
  omega

theorem isLegalChar_of_isLetter {c : Char} (h : isLetter c) : isLegalChar c := by
  rw [isLetter] at h
  split at h
  · exact isLegalChar_of_contains (by decide +kernel) h
  · exact isLegalChar_of_contains (by decide +kernel) h

theorem isLegalChar_of_isNameChar {c : Char} (h : isNameChar c) : isLegalChar c := by
  simp only [isNameChar, Bool.or_eq_true, decide_eq_true_eq] at h
  rcases h with (((((rfl | rfl) | rfl) | rfl) | h) | h) | h
  · decide
  · decide
  · decide
  · decide
  · exact isLegalChar_of_isLetter h
  · exact isLegalChar_of_contains (by decide +kernel) h
  · exact isLegalChar_of_contains (by decide +kernel) h

/-! ### Cursors -/

/-- A cursor that passes characters that could be decoded is behind them. -/
theorem Cursor.rest_advance_append {cur : Cursor} {t rest : List Char} (ht : Clean t)
    (h : cur.rest = t ++ rest) : (cur.advance t.length).rest = rest := by
  induction t generalizing cur with
  | nil => exact h
  | cons c t ih =>
    rw [List.length_cons, advance, h, List.cons_append]
    dsimp only
    have hc : c ≠ Text.replacement := fun heq => ht (heq ▸ List.mem_cons_self)
    rw [if_neg hc]
    exact ih (fun hmem => ht (List.mem_cons_of_mem c hmem)) (rest_pass _ _ _)

theorem clean_of_legal {t : List Char} (h : ∀ c ∈ t, isLegalChar c) : Clean t :=
  fun hmem => absurd (h _ hmem) (by decide)

/-- The second cursor is behind the first one, and the characters between them are legal. -/
def Cursor.Sifted (cur cur' : Cursor) : Prop :=
  ∃ t, cur.rest = t ++ cur'.rest ∧ ∀ c ∈ t, isLegalChar c

namespace Cursor.Sifted

variable {cur cur' cur'' : Cursor}

protected theorem refl : cur.Sifted cur := ⟨[], rfl, List.forall_mem_nil _⟩

protected theorem trans (h : cur.Sifted cur') (h' : cur'.Sifted cur'') : cur.Sifted cur'' := by
  obtain ⟨t, hrest, ht⟩ := h
  obtain ⟨u, hrest', hu⟩ := h'
  exact ⟨t ++ u, by rw [hrest, hrest', List.append_assoc], List.forall_mem_append.mpr ⟨ht, hu⟩⟩

theorem advance {t rest : List Char} (h : cur.rest = t ++ rest) (ht : ∀ c ∈ t, isLegalChar c) :
    cur.Sifted (cur.advance t.length) :=
  ⟨t, by rw [rest_advance_append (clean_of_legal ht) h, h], ht⟩

end Cursor.Sifted

/-! ### Readers -/

namespace Reader

variable {α β : Type} {r : Reader α} {f : α → Reader β} {cur : Cursor}

/-- If the reader succeeds at the cursor, it has consumed legal characters. -/
def SiftsAt (r : Reader α) (cur : Cursor) : Prop :=
  ∀ a cur', r cur = .ok (a, cur') → cur.Sifted cur'

namespace SiftsAt

theorem pure {a : α} : (pure a : Reader α).SiftsAt cur := by
  intro b cur' hb
  cases hb
  exact .refl

theorem fail {fault : Fault} : (fail fault : Reader α).SiftsAt cur := by
  intro a cur' ha
  cases ha

theorem fail_bind {fault : Fault} {k : α → Reader β} :
    (Reader.fail fault >>= k).SiftsAt cur := fail

theorem bind (h : r.SiftsAt cur) (hf : ∀ a cur', (f a).SiftsAt cur') : (r >>= f).SiftsAt cur := by
  intro b cur'' hb
  rw [bind_apply] at hb
  split at hb
  · rename_i a cur' ha
    exact (h a cur' ha).trans (hf a cur' b cur'' hb)
  · cases hb

theorem cursor {g : Cursor → Reader β} (h : (g cur).SiftsAt cur) :
    (Reader.cursor >>= g).SiftsAt cur := h

theorem ite {c : Prop} [Decidable c] {r' : Reader α} (h : c → r.SiftsAt cur)
    (h' : ¬ c → r'.SiftsAt cur) : (if c then r else r').SiftsAt cur := by
  split
  · rename_i hc
    exact h hc
  · rename_i hc
    exact h' hc

/-- A check that stops the reader. -/
theorem guard {c : Prop} [Decidable c] {fault : Fault} {k : PUnit → Reader β}
    (h : ¬ c → (k ⟨⟩).SiftsAt cur) :
    (if c then Reader.fail fault >>= k else k ⟨⟩).SiftsAt cur :=
  ite (fun _ => fail_bind) h

/-- A check that the reader has to pass. -/
theorem required {c : Prop} [Decidable c] {fault : Fault} {k : PUnit → Reader β}
    (h : c → (k ⟨⟩).SiftsAt cur) : (if c then k ⟨⟩ else Reader.fail fault >>= k).SiftsAt cur :=
  ite h fun _ => fail_bind

end SiftsAt

/-! ### Primitives -/

theorem advance_sifts {t rest : List Char} (h : cur.rest = t ++ rest)
    (ht : ∀ c ∈ t, isLegalChar c) : (advance t.length).SiftsAt cur := by
  intro a cur' ha
  cases ha
  exact .advance h ht

theorem accept_sifts {s : String} (hs : s.toList.all isLegalChar) : (accept s).SiftsAt cur := by
  refine .cursor (.ite (fun hstarts => ?_) fun _ => .pure)
  obtain ⟨rest, hrest⟩ := List.isPrefixOf_iff_prefix.mp hstarts
  rw [← String.length_toList]
  exact .bind (advance_sifts hrest.symm (List.all_eq_true.mp hs)) fun _ _ => .pure

theorem demand_sifts {s : String} {fault : Fault} (hs : s.toList.all isLegalChar) :
    (demand s fault).SiftsAt cur :=
  .bind (accept_sifts hs) fun _ _ => .ite (fun _ => .pure) fun _ => .fail

theorem takeWhile_sifts {p : Char → Bool} (hp : ∀ c, p c → isLegalChar c) :
    (takeWhile p).SiftsAt cur := by
  have hrest : cur.rest = cur.rest.takeWhile p ++ cur.rest.dropWhile p :=
    List.takeWhile_append_dropWhile.symm
  have hrun : ∀ c ∈ cur.rest.takeWhile p, isLegalChar c :=
    fun c hc => hp c (List.all_eq_true.mp List.all_takeWhile c hc)
  exact .cursor (.bind (advance_sifts hrest hrun) fun _ _ => .pure)

theorem isLegalChar_of_blank {c : Char} (h : isBlankChar c) : isLegalChar c := by
  simp only [isBlankChar, Bool.or_eq_true, decide_eq_true_eq] at h
  rcases h with ((rfl | rfl) | rfl) | rfl <;> decide

theorem skipBlanks_sifts : skipBlanks.SiftsAt cur :=
  .bind (takeWhile_sifts fun _ => isLegalChar_of_blank) fun _ _ => .pure

/-- A search passes legal characters only, and stops in front of the rest. -/
theorem upTo_spec {term l u : List Char} {e : ScanEnd} (h : upTo term l = (u, e)) :
    (∀ c ∈ u, isLegalChar c) ∧ ∃ rest, l = u ++ rest ∧ (e = .found → term <+: rest) := by
  fun_induction upTo term l generalizing u e with
  | case1 =>
    cases h
    exact ⟨List.forall_mem_nil _, [], rfl, by simp⟩
  | case2 c cs hterm =>
    cases h
    exact ⟨List.forall_mem_nil _, _, rfl, fun _ => List.isPrefixOf_iff_prefix.mp hterm⟩
  | case3 c cs =>
    cases h
    exact ⟨List.forall_mem_nil _, _, rfl, by simp⟩
  | case4 c cs _ hc before e' hmore ih =>
    cases h
    obtain ⟨hbefore, rest, rfl, hfound⟩ := ih hmore
    exact ⟨List.forall_mem_cons.mpr ⟨by simpa using hc, hbefore⟩, rest, rfl, hfound⟩

theorem scanTo_sifts {term : String} (hterm : term.toList.all isLegalChar) :
    (scanTo term).SiftsAt cur := by
  intro a cur' ha
  rw [scanTo_apply] at ha
  cases hup : upTo term.toList cur.rest with
  | mk before e =>
    obtain ⟨hbefore, rest, hrest, hfound⟩ := upTo_spec hup
    rw [hup] at ha
    cases e with
    | found =>
      obtain ⟨rest', rfl⟩ := hfound rfl
      cases ha
      rw [← String.length_toList]
      have hnext := Cursor.rest_advance_append (clean_of_legal hbefore) hrest
      exact (Cursor.Sifted.advance hrest hbefore).trans (.advance hnext (List.all_eq_true.mp hterm))
    | exhausted =>
      cases ha
      exact .advance hrest hbefore
    | illegal c => cases ha

/-! ### Names and references -/

theorem name_sifts : name.SiftsAt cur := by
  refine .cursor ?_
  cases hrest : cur.rest with
  | nil => exact .fail
  | cons c rest =>
    refine .guard fun hstart => .guard fun _ => ?_
    have hname : ∀ d ∈ c :: rest.takeWhile isNameChar, isLegalChar d := by
      rw [List.forall_mem_cons]
      refine ⟨isLegalChar_of_isNameChar (isNameChar_of_isNameStart (by simpa using hstart)), ?_⟩
      exact fun d hd => isLegalChar_of_isNameChar (List.all_eq_true.mp List.all_takeWhile d hd)
    have hsplit : cur.rest = (c :: rest.takeWhile isNameChar) ++ rest.dropWhile isNameChar := by
      rw [hrest, List.cons_append, List.takeWhile_append_dropWhile]
    exact .bind (advance_sifts hsplit hname) fun _ _ => .pure

theorem qname_sifts : qname.SiftsAt cur := by
  refine .bind name_sifts fun n _ => ?_
  dsimp only
  split
  · exact .pure
  · exact .guard fun _ => .pure

theorem charReferenceBody_sifts {base : Nat} {isDigit : Char → Bool}
    (h : ∀ c, isDigit c → isLegalChar c) : (charReferenceBody base isDigit).SiftsAt cur := by
  refine .bind (takeWhile_sifts h) fun digits _ => .guard fun _ =>
    .bind (demand_sifts (by decide)) fun _ _ => ?_
  split
  · exact .pure
  · exact .fail

theorem isLegalChar_of_isHexDigit {c : Char}
    (h : c.isDigit || ('a' ≤ c && c ≤ 'f') || ('A' ≤ c && c ≤ 'F')) : isLegalChar c := by
  simp only [Char.isDigit, Bool.or_eq_true, Bool.and_eq_true, decide_eq_true_eq, Char.le_def,
    UInt32.le_iff_toNat_le, ge_iff_le] at h
  rcases h with (⟨h, h'⟩ | ⟨h, h'⟩) | ⟨h, h'⟩ <;>
    exact isLegalChar_of_bounds (le_trans (by decide) h) (le_trans h' (by decide))

theorem reference_sifts : reference.SiftsAt cur := by
  refine .bind (accept_sifts (by decide)) fun _ _ => .ite
    (fun _ => charReferenceBody_sifts fun _ => isLegalChar_of_isHexDigit) fun _ => ?_
  refine .bind (accept_sifts (by decide)) fun _ _ => .ite
    (fun _ => charReferenceBody_sifts fun c hc => isLegalChar_of_isHexDigit (by simp [hc]))
    fun _ => ?_
  refine .bind (demand_sifts (by decide)) fun _ _ => .bind name_sifts fun _ _ =>
    .bind (demand_sifts (by decide)) fun _ _ => ?_
  split
  · exact .pure
  · exact .fail

/-! ### Tags -/

/-- One legal character is consumed. -/
theorem advance_one_sifts {c : Char} {rest : List Char} (h : cur.rest = c :: rest)
    (hc : isLegalChar c) : (advance 1).SiftsAt cur :=
  advance_sifts (t := [c]) h (by simpa using hc)

theorem valueRest_sifts {q : Char} (hq : isLegalChar q) {n : Nat} {value : List Char} :
    (valueRest q n value).SiftsAt cur := by
  induction n generalizing cur value with
  | zero => exact .fail
  | succ n ih =>
    refine .cursor ?_
    cases hrest : cur.rest with
    | nil => exact .fail
    | cons c rest =>
      refine .ite (fun heq => ?_) fun _ => .ite (fun _ => .fail) fun _ => ?_
      · exact .bind (advance_one_sifts hrest (heq ▸ hq)) fun _ _ => .pure
      refine .ite (fun _ => .bind reference_sifts fun _ _ => ih) fun _ => ?_
      refine .ite (fun hends => .bind ?_ fun _ _ => ih) fun _ => ?_
      · obtain ⟨rfl, hnext⟩ := by simpa using hends
        obtain ⟨rest, rfl⟩ : ∃ rest', rest = '\n' :: rest' := by
          cases rest with
          | nil => cases hnext
          | cons d rest => exact ⟨rest, by simpa using hnext⟩
        exact advance_sifts (t := ['\r', '\n']) hrest (List.all_eq_true.mp (by decide))
      refine .ite (fun hblank => .bind (advance_one_sifts hrest ?_) fun _ _ => ih) fun _ => ?_
      · have hc : isBlankChar c := by
          simp only [isBlankChar, Bool.or_eq_true, decide_eq_true_eq] at hblank ⊢
          rcases hblank with (rfl | rfl) | rfl <;> simp
        exact isLegalChar_of_blank hc
      exact .ite (fun _ => .fail) fun hc =>
        .bind (advance_one_sifts hrest (by simpa using hc)) fun _ _ => ih

theorem isLegalChar_of_quote {q : Char} (h : ¬ (q != '"' && q != '\'')) : isLegalChar q := by
  simp only [Bool.and_eq_true, bne_iff_ne, ne_eq, not_and, Decidable.not_not] at h
  by_cases hdouble : q = '"'
  · rw [hdouble]
    decide
  · rw [h hdouble]
    decide

theorem attributeValue_sifts {bound : Nat} : (attributeValue bound).SiftsAt cur := by
  refine .cursor ?_
  cases hrest : cur.rest with
  | nil => exact .fail
  | cons q rest =>
    refine .guard fun hq => .bind (advance_one_sifts hrest ?_) fun _ _ => valueRest_sifts ?_
    · exact isLegalChar_of_quote hq
    · exact isLegalChar_of_quote hq

theorem attr_sifts {bound : Nat} : (attr bound).SiftsAt cur :=
  .bind qname_sifts fun _ _ => .bind skipBlanks_sifts fun _ _ =>
    .bind (demand_sifts (by decide)) fun _ _ => .bind skipBlanks_sifts fun _ _ =>
      .bind attributeValue_sifts fun _ _ => .pure

theorem attributes_sifts {n : Nat} {attrs : List Attr} : (attributes n attrs).SiftsAt cur := by
  induction n generalizing cur attrs with
  | zero => exact .fail
  | succ n ih =>
    refine .bind skipBlanks_sifts fun _ _ => .cursor (.guard fun _ => ?_)
    refine .bind (accept_sifts (by decide)) fun _ _ => .ite (fun _ => .pure) fun _ => ?_
    refine .bind (accept_sifts (by decide)) fun _ _ => .ite (fun _ => .pure) fun _ => ?_
    exact .guard fun _ => .bind attr_sifts fun _ _ => ih

theorem startTag_sifts {bound : Nat} : (startTag bound).SiftsAt cur :=
  .bind (demand_sifts (by decide)) fun _ _ => .bind qname_sifts fun _ _ =>
    .bind attributes_sifts fun _ _ => .pure

theorem endTag_sifts {opened : Text} : (endTag opened).SiftsAt cur :=
  .bind (demand_sifts (by decide)) fun _ _ => .bind qname_sifts fun _ _ => .guard fun _ =>
    .bind skipBlanks_sifts fun _ _ => .bind (demand_sifts (by decide)) fun _ _ => .pure

/-! ### Comments, instructions, CDATA sections and character data -/

theorem comment_sifts : comment.SiftsAt cur := by
  refine .bind (demand_sifts (by decide)) fun _ _ => .bind (scanTo_sifts (by decide)) fun _ _ => ?_
  split
  · exact .fail
  · exact .bind (demand_sifts (by decide)) fun _ _ => .pure

theorem instruction_sifts : instruction.SiftsAt cur := by
  refine .bind (demand_sifts (by decide)) fun _ _ => .bind name_sifts fun _ _ => .guard fun _ => ?_
  refine .bind (accept_sifts (by decide)) fun _ _ => .ite (fun _ => .pure) fun _ => ?_
  refine .bind skipBlanks_sifts fun _ _ => .required fun _ =>
    .bind (scanTo_sifts (by decide)) fun _ _ => ?_
  split
  · exact .fail
  · exact .pure

theorem cdataSection_sifts : cdataSection.SiftsAt cur := by
  refine .bind (demand_sifts (by decide)) fun _ _ => .bind (scanTo_sifts (by decide)) fun _ _ => ?_
  split
  · exact .fail
  · exact .pure

theorem exists_dataRun_append (n : Nat) (cs : List Char) :
    ∃ rest, cs = (dataRun n cs).1 ++ rest := by
  induction n generalizing cs with
  | zero => exact ⟨cs, rfl⟩
  | succ n ih =>
    cases cs with
    | nil => exact ⟨[], rfl⟩
    | cons c cs =>
      rw [dataRun]
      repeat' split
      · exact ⟨_, rfl⟩
      · exact ⟨_, rfl⟩
      · exact ⟨_, rfl⟩
      · rename_i run e hrun
        obtain ⟨rest, hrest⟩ := ih cs
        rw [hrun] at hrest
        exact ⟨rest, congrArg (c :: ·) hrest⟩

theorem characterRun_sifts {chunk n : Nat} : (characterRun chunk n).SiftsAt cur := by
  induction n generalizing cur with
  | zero => exact .pure
  | succ n ih =>
    obtain ⟨rest, hrest⟩ := exists_dataRun_append chunk cur.rest
    refine .cursor (.bind (advance_sifts hrest isLegalChar_of_mem_dataRun) fun _ _ => ?_)
    split
    · exact .bind ih fun _ _ => .pure
    · exact .pure
    · exact .pure
    · exact .fail
    · exact .fail

/-! ### Declarations -/

theorem quotedText_sifts : quotedText.SiftsAt cur := by
  refine .cursor ?_
  cases hrest : cur.rest with
  | nil => exact .fail
  | cons q rest =>
    refine .guard fun hq => ?_
    have hlegal := isLegalChar_of_quote hq
    refine .bind (advance_one_sifts hrest hlegal) fun _ _ =>
      .bind (scanTo_sifts (by simpa using hlegal)) fun text _ => ?_
    split
    · exact .pure
    · exact .fail

theorem pseudoAttribute_sifts {label : String} (h : label.toList.all isLegalChar) :
    (pseudoAttribute label).SiftsAt cur :=
  .bind (accept_sifts h) fun _ _ => .ite
    (fun _ => .bind skipBlanks_sifts fun _ _ => .bind (demand_sifts (by decide)) fun _ _ =>
      .bind skipBlanks_sifts fun _ _ => .bind quotedText_sifts fun _ _ => .pure)
    fun _ => .pure

theorem declaredEncoding_sifts : Reader.declaredEncoding.SiftsAt cur := by
  refine .bind (pseudoAttribute_sifts (by decide)) fun value _ => ?_
  split
  · exact .pure
  · exact .guard fun _ => .bind skipBlanks_sifts fun _ _ => .pure

theorem declaredStandalone_sifts : declaredStandalone.SiftsAt cur := by
  refine .bind (pseudoAttribute_sifts (by decide)) fun value _ => ?_
  split
  · exact .pure
  · exact .guard fun _ => .bind skipBlanks_sifts fun _ _ => .pure

theorem declaration_sifts : declaration.SiftsAt cur := by
  refine .bind (demand_sifts (by decide)) fun _ _ => .bind skipBlanks_sifts fun _ _ =>
    .required fun _ => .bind (pseudoAttribute_sifts (by decide)) fun version _ => ?_
  split
  · exact .fail
  · exact .guard fun _ => .bind skipBlanks_sifts fun _ _ => .bind declaredEncoding_sifts fun _ _ =>
      .bind declaredStandalone_sifts fun _ _ => .bind (demand_sifts (by decide)) fun _ _ => .pure

/-! ### The document type declaration -/

theorem length_le_of_doctypeLength? {quote : Option Char} {depth : Int} {cs : List Char} {n : Nat}
    (h : doctypeLength? quote depth cs = some n) : n ≤ cs.length := by
  -- In every case but that of the end itself, the length is counted behind the first character.
  have hnext {l : List Char} {o : Option Nat} {n : Nat} (ho : ∀ m, o = some m → m ≤ l.length)
      (h : o.map (· + 1) = some n) : n ≤ l.length + 1 := by
    obtain ⟨m, hm, rfl⟩ := Option.map_eq_some_iff.mp h
    exact Nat.succ_le_succ (ho m hm)
  fun_induction doctypeLength? quote depth cs generalizing n with
  | case1 => cases h
  | case2 _ _ _ _ ih => exact hnext (fun _ => ih) h
  | case3 =>
    cases h
    exact Nat.succ_le_succ (Nat.zero_le _)
  | case4 _ _ _ _ _ ih => exact hnext (fun _ => ih) h
  | case5 _ _ _ _ ih => exact hnext (fun _ => ih) h
  | case6 _ _ _ _ _ ih => exact hnext (fun _ => ih) h
  | case7 _ _ _ _ _ _ _ ih => exact hnext (fun _ => ih) h

/-- Of a document type declaration only that much is known: it could be decoded. -/
theorem doctype_takes {raw : Text} {cur' : Cursor} (h : doctype cur = .ok (raw, cur')) :
    ∃ t, cur.rest = t ++ cur'.rest ∧ Clean t ∧ raw = Text.ofChars (unifyLineEnds t) := by
  rw [doctype, cursor_bind] at h
  cases hn : doctypeLength? none 0 (cur.rest.takeWhile (· != Text.replacement)) with
  | none =>
    simp only [hn] at h
    cases h
  | some n =>
    simp only [hn] at h
    have hle : n ≤ (cur.rest.takeWhile (· != Text.replacement)).length :=
      length_le_of_doctypeLength? hn
    have htake : cur.rest.take n = (cur.rest.takeWhile (· != Text.replacement)).take n := by
      rw [← List.take_append_of_le_length hle, List.takeWhile_append_dropWhile]
    have hclean : Clean (cur.rest.take n) := by
      rw [htake]
      intro hmem
      have hreadable := List.all_eq_true.mp List.all_takeWhile _ (List.mem_of_mem_take hmem)
      exact absurd hreadable (by decide)
    have hlength : (cur.rest.take n).length = n := by
      rw [htake, List.length_take, Nat.min_eq_left hle]
    have hrest : (cur.advance n).rest = cur.rest.drop n := by
      conv_lhs => rw [← hlength]
      exact Cursor.rest_advance_append hclean (List.take_append_drop n cur.rest).symm
    cases h
    exact ⟨cur.rest.take n, by rw [hrest, List.take_append_drop], hclean, rfl⟩

end Reader

/-! ### Scans -/

/-- What was consumed between the scans is legal, and what had been reported stays reported. -/
structure Scan.Sifted (s s' : Scan) : Prop where
  consumed : s.cursor.Sifted s'.cursor
  reported (l : Located) : l ∈ s.events → l ∈ s'.events

instance : Std.Refl Scan.Sifted := ⟨fun _ => ⟨.refl, fun _ hl => hl⟩⟩

instance : Trans Scan.Sifted Scan.Sifted Scan.Sifted :=
  ⟨fun h h' => ⟨h.consumed.trans h'.consumed, fun l hl => h'.reported l (h.reported l hl)⟩⟩

/-- Everything that was left is consumed. It is made of legal characters, but for a document type
declaration that was reported. -/
def Scan.Spent (s s' : Scan) : Prop :=
  ∃ before doctype after, s.cursor.rest = before ++ doctype ++ after ∧
    (∀ c ∈ before ++ after, isLegalChar c) ∧ Clean doctype ∧
    (doctype = [] ∨
      Event.doctype (Text.ofChars (unifyLineEnds doctype)) ∈ s'.events.map Located.event)

theorem Scan.Sifted.spent {s s' s'' : Scan} (h : s.Sifted s') (h' : s'.Spent s'') :
    s.Spent s'' := by
  obtain ⟨t, hrest, ht⟩ := h.consumed
  obtain ⟨before, doctype, after, hrest', hlegal, hclean, hreported⟩ := h'
  obtain ⟨hbefore, hafter⟩ := List.forall_mem_append.mp hlegal
  refine ⟨t ++ before, doctype, after, by simp [hrest, hrest'], ?_, hclean, hreported⟩
  exact List.forall_mem_append.mpr ⟨List.forall_mem_append.mpr ⟨ht, hbefore⟩, hafter⟩

namespace Scanner

open Stencil.Action (Keeps Yields)

variable {α β : Type} {s : Scan}

theorem cursor_sifts : Keeps Scan.Sifted cursor s := Std.Refl.refl s

theorem read_sifts {r : Reader α} (h : r.SiftsAt s.cursor) : Keeps Scan.Sifted (read r) s := by
  rw [Keeps, read]
  split
  · rename_i a cur hr
    exact ⟨h a cur hr, fun _ hl => hl⟩
  · exact Std.Refl.refl s

theorem emit_sifts {mark : Cursor} {event : Event} : Keeps Scan.Sifted (emit mark event) s :=
  ⟨.refl, fun _ hl => List.mem_cons_of_mem _ hl⟩

theorem construct_sifts {r : Reader α} {event : α → Event} (h : ∀ cur, r.SiftsAt cur) :
    Keeps Scan.Sifted (construct r event) s :=
  .bind cursor_sifts fun _ _ _ => .bind (read_sifts (h _)) fun _ _ _ => emit_sifts

theorem fail_sifts {fault : Fault} : Keeps Scan.Sifted (fail fault : Scanner α) s :=
  read_sifts .fail

theorem startTag_sifts {bound : Nat} : Keeps Scan.Sifted (startTag bound) s := by
  refine .bind cursor_sifts fun _ _ _ => .bind (read_sifts Reader.startTag_sifts) fun tag _ _ =>
    .bind emit_sifts fun _ _ _ => ?_
  split
  · exact emit_sifts
  · exact ⟨.refl, fun _ hl => hl⟩

theorem endTag_sifts : Keeps Scan.Sifted endTag s :=
  .bind .get fun _ _ _ => .bind cursor_sifts fun _ _ _ => .bind (read_sifts Reader.endTag_sifts)
    fun _ _ _ => .bind (.modify ⟨.refl, fun _ hl => hl⟩) fun _ _ _ => emit_sifts

theorem characters_sifts {bound : Nat} : Keeps Scan.Sifted (characters bound) s := by
  refine .bind cursor_sifts fun _ _ _ => .bind (read_sifts Reader.characterRun_sifts)
    fun run _ _ => ?_
  split
  · exact .pure
  · exact emit_sifts

theorem contentItem_sifts {canceled : Bool} {bound : Nat} :
    Keeps Scan.Sifted (contentItem canceled bound) s := by
  refine .bind cursor_sifts fun _ _ _ => ?_
  repeat' split
  · exact endTag_sifts
  · exact construct_sifts fun _ => Reader.instruction_sifts
  · exact construct_sifts fun _ => Reader.comment_sifts
  · exact construct_sifts fun _ => Reader.cdataSection_sifts
  · exact .throw
  · exact startTag_sifts
  · exact construct_sifts fun _ => Reader.reference_sifts
  · exact characters_sifts

theorem content_sifts {canceled : Bool} {bound : Nat} :
    Keeps Scan.Sifted (content canceled bound) s := by
  induction bound generalizing s with
  | zero =>
    refine .bind .get fun _ _ _ => ?_
    split
    · exact .pure
    · exact fail_sifts
  | succ bound ih =>
    refine .bind .get fun _ _ _ => ?_
    split
    · exact .pure
    · split
      · exact .bind fail_sifts fun _ _ _ => .bind contentItem_sifts fun _ _ _ => ih
      · exact .bind contentItem_sifts fun _ _ _ => ih

theorem misc_sifts {bound : Nat} : Keeps Scan.Sifted (misc bound) s := by
  induction bound generalizing s with
  | zero => exact .pure
  | succ bound ih =>
    refine .bind (read_sifts Reader.skipBlanks_sifts) fun _ _ _ => .bind cursor_sifts
      fun _ _ _ => ?_
    repeat' split
    · exact .bind (construct_sifts fun _ => Reader.instruction_sifts) fun _ _ _ => ih
    · exact .bind (construct_sifts fun _ => Reader.comment_sifts) fun _ _ _ => ih
    · exact .pure

theorem miscs_sifts : Keeps Scan.Sifted miscs s := .bind cursor_sifts fun _ _ _ => misc_sifts

section Document

variable {R : Scan → Scan → Prop}

/-- Legal characters are consumed in front of something else. -/
theorem sifts_bind {x : Scanner α} {f : α → Scanner β} (h : Keeps Scan.Sifted x s)
    (hR : ∀ s' s'', s.Sifted s' → R s' s'' → R s s'')
    (hf : ∀ a s', Yields (f a) s' fun _ => R s') : Yields (x >>= f) s fun _ => R s := by
  exact .bind (h.yields.imp fun a s' hs' => (hf a s').imp fun _ s'' => hR s' s'' hs')

/-- A construct that was read is reported last. -/
theorem construct_yields {r : Reader α} {event : α → Event} :
    Yields (construct r event) s fun _ s' => ∃ a l, r s.cursor = .ok (a, s'.cursor) ∧
      l.event = event a ∧ s'.events = l :: s.events := by
  refine .bind (.bind (.get (.pure (.bind fun a s' hread => .modify ?_))))
  rw [read] at hread
  split at hread
  · rename_i cur hr
    cases hread
    exact ⟨a, _, hr, rfl, rfl⟩
  · cases hread

theorem doctype_yields : Yields (construct Reader.doctype .doctype) s fun _ s' =>
    ∃ t, s.cursor.rest = t ++ s'.cursor.rest ∧ Clean t ∧
      Event.doctype (Text.ofChars (unifyLineEnds t)) ∈ s'.events.map Located.event := by
  refine construct_yields.imp ?_
  rintro - s' ⟨raw, l, hread, hevent, hevents⟩
  obtain ⟨t, hrest, ht, rfl⟩ := Reader.doctype_takes hread
  exact ⟨t, hrest, ht, hevents ▸ List.mem_map.mpr ⟨l, List.mem_cons_self, hevent⟩⟩

/-- Everything is consumed in the end, and it is legal. -/
theorem finish_empties : Yields finish s fun _ s' => s.Sifted s' ∧ s'.cursor.rest = [] := by
  refine .bind (.bind (.get (.pure ?_)))
  split
  · exact .bind fun a s' h => nomatch h
  · rename_i hdone
    refine .modify ⟨⟨.refl, fun _ hl => List.mem_cons_of_mem _ hl⟩, ?_⟩
    simpa [Cursor.done] using hdone

theorem fromRoot_empties {canceled : Bool} :
    Yields (fromRoot canceled) s fun _ s' => s.Sifted s' ∧ s'.cursor.rest = [] := by
  have hafter (s' s'' t : Scan) (h : s'.Sifted s'') (h' : s''.Sifted t ∧ t.cursor.rest = []) :
      s'.Sifted t ∧ t.cursor.rest = [] := ⟨Trans.trans h h'.1, h'.2⟩
  have htag {s : Scan} {n : Nat} : Yields (do startTag n; fromContent canceled : Scanner Unit) s
      fun _ s' => s.Sifted s' ∧ s'.cursor.rest = [] :=
    sifts_bind startTag_sifts (hafter s) fun _ s => sifts_bind cursor_sifts (hafter s) fun _ s =>
      sifts_bind content_sifts (hafter s) fun _ s => sifts_bind miscs_sifts (hafter s) fun _ _ =>
        finish_empties
  refine sifts_bind cursor_sifts (hafter s) fun cur s => ?_
  split
  · exact sifts_bind fail_sifts (hafter s) fun _ _ => htag
  · exact htag

theorem fromProlog_spends {canceled : Bool} : Yields (fromProlog canceled) s fun _ => s.Spent := by
  have hbefore (s' s'' t : Scan) : s'.Sifted s'' → s''.Spent t → s'.Spent t := Scan.Sifted.spent
  refine sifts_bind miscs_sifts (hbefore s) fun _ s => sifts_bind cursor_sifts (hbefore s)
    fun cur s => ?_
  split
  · refine .bind (doctype_yields.imp fun _ s' hdoctype => ?_)
    have hafter (t u : Scan) (h : s'.Sifted t) (h' : t.Sifted u ∧ u.cursor.rest = []) :
        s'.Sifted u ∧ u.cursor.rest = [] := ⟨Trans.trans h h'.1, h'.2⟩
    refine (sifts_bind miscs_sifts hafter fun _ _ => fromRoot_empties).imp fun _ t ht => ?_
    obtain ⟨doctype, hrest, hclean, hreported⟩ := hdoctype
    obtain ⟨after, hrest', hafter⟩ := ht.1.consumed
    obtain ⟨l, hl, hevent⟩ := List.mem_map.mp hreported
    refine ⟨[], doctype, after, ?_, by simpa using hafter, hclean, .inr ?_⟩
    · rw [hrest, hrest', ht.2, List.append_nil, List.nil_append]
    · exact List.mem_map.mpr ⟨l, ht.1.reported l hl, hevent⟩
  · refine fromRoot_empties.imp fun _ s' h => ?_
    obtain ⟨t, hrest, ht⟩ := h.1.consumed
    exact ⟨t, [], [], by simp [hrest, h.2], by simpa using ht, by simp [Clean], .inl rfl⟩

theorem document_spends {canceled : Bool} : Yields (document canceled) s fun _ => s.Spent := by
  have hbefore (s' s'' t : Scan) : s'.Sifted s'' → s''.Spent t → s'.Spent t := Scan.Sifted.spent
  rw [document_eq]
  refine sifts_bind cursor_sifts (hbefore s) fun _ s => sifts_bind emit_sifts (hbefore s)
    fun _ s => sifts_bind emit_sifts (hbefore s) fun _ s => ?_
  split
  · exact sifts_bind (construct_sifts fun _ => Reader.declaration_sifts) (hbefore s)
      fun _ _ => fromProlog_spends
  · exact fromProlog_spends

end Document

end Scanner

/-! ### Sources -/

/-- What was reported when a source is scanned to its end. -/
theorem exists_document_of_scan {canceled : Bool} {source : List Char} {ls : List Located}
    (h : scan canceled source = (ls, .complete)) : ∃ s,
      Scanner.document canceled { cursor := Cursor.start source } = (.ok (), s) ∧
        ls = s.events.reverse := by
  have hmeets := @Scanner.document_meets canceled source
  rw [Scanner.Meets] at hmeets
  rw [scan, ExceptT.run] at h
  split at h
  · rename_i s hs
    cases h
    exact ⟨s, hs, rfl⟩
  · rename_i s hs
    cases h
    rw [hs] at hmeets
    exact absurd rfl hmeets.1

/-- What a source is made of that is scanned to its end. -/
theorem exists_parts_of_scan {canceled : Bool} {source : List Char} {ls : List Located}
    (h : scan canceled source = (ls, .complete)) : ∃ before doctype after,
      source = before ++ doctype ++ after ∧ (∀ c ∈ before ++ after, isLegalChar c) ∧
      Clean doctype ∧ (doctype = [] ∨
        Event.doctype (Text.ofChars (unifyLineEnds doctype)) ∈ ls.map Located.event) := by
  obtain ⟨s, hdocument, rfl⟩ := exists_document_of_scan h
  obtain ⟨before, doctype, after, hrest, hlegal, hclean, hreported⟩ :=
    Scanner.document_spends _ _ hdocument
  refine ⟨before, doctype, after, hrest, hlegal, hclean, hreported.imp_right fun hmem => ?_⟩
  simpa using hmem

theorem clean_of_scan {canceled : Bool} {source : List Char} {ls : List Located}
    (h : scan canceled source = (ls, .complete)) : Clean source := by
  obtain ⟨before, doctype, after, rfl, hlegal, hclean, -⟩ := exists_parts_of_scan h
  obtain ⟨hbefore, hafter⟩ := List.forall_mem_append.mp hlegal
  exact Clean.append.mpr ⟨Clean.append.mpr ⟨clean_of_legal hbefore, hclean⟩, clean_of_legal hafter⟩

/-- **Only legal characters pass**, but for one place. Every character of an accepted source is
legal unless it stands in the document type declaration that was reported. -/
theorem legal_of_read_ok [Encoding.Decoders] {σ ε : Type}
    {receive : Located → σ → Except ε Unit × σ} {canceled : Bool}
    {t : Text} {s s' : σ} (h : read receive canceled t s = (.ok (), s')) :
    ∃ before doctype after : List Char,
      (decodeSource t : Except (ReadError ε) (List Char)) = .ok (before ++ doctype ++ after) ∧
      (∀ c ∈ before ++ after, isLegalChar c) ∧ Clean doctype ∧
      (doctype = [] ∨ Event.doctype (Text.ofChars (unifyLineEnds doctype)) ∈
        (scan canceled (before ++ doctype ++ after)).1.map Located.event) := by
  obtain ⟨cs, ls, hcs, hscan, -⟩ := exists_scan_of_read_ok h
  obtain ⟨before, doctype, after, rfl, hlegal, hclean, hreported⟩ := exists_parts_of_scan hscan
  exact ⟨before, doctype, after, hcs, hlegal, hclean, by rwa [hscan]⟩

/-- A control character in the document type declaration, which is read to its end. -/
theorem legal_of_read_ok_control :
    let cs := "<!DOCTYPE a \x01><a/>".toList
    let receive : Located → Nat → Except Unit Unit × Nat := fun _ n => (.ok (), n + 1)
    (∃ s', read receive false (Text.ofChars cs) 0 = (.ok (), s')) ∧ '\x01' ∈ cs ∧
    ¬ isLegalChar '\x01' ∧ ∃ before doctype after : List Char,
      (decodeSource (Text.ofChars cs) : Except (ReadError Unit) (List Char)) =
        .ok (before ++ doctype ++ after) ∧
      (∀ c ∈ before ++ after, isLegalChar c) ∧ Clean doctype ∧
      (doctype = [] ∨ Event.doctype (Text.ofChars (unifyLineEnds doctype)) ∈
        (scan false (before ++ doctype ++ after)).1.map Located.event) := by
  intro cs receive
  have hok : (read receive false (Text.ofChars cs) 0).1.toOption = some () := by decide +kernel
  obtain ⟨s', hread⟩ := exists_of_toOption hok
  exact ⟨⟨s', hread⟩, by decide, by decide, legal_of_read_ok hread⟩

end Stencil.Markup
