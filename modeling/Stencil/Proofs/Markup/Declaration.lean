import Mathlib.Data.Bool.AllAny
import Stencil.Markup.Source
import Stencil.Proofs.Markup.Constructs
import Stencil.Proofs.Text.Characters

/-!
# The declaration at the start of a source

The encoding of a source is looked up in its bytes, by a search that knows nothing of the grammar.
Later the declaration is read from the characters. What is read that way leaves the search no
choice: the first end in sight is the end of the declaration, because no question mark stands
inside, and the first place where the encoding seems to be named is the place where it is named.

## Main definitions

* `Grammar.Declaration` – the declaration, as a text
* `Reader.Takes` – what a reader has taken if it succeeds
* `declaredIn?` – the search behind the opening, when the end is known

## Main results

* `Reader.declaration_takes` – what is read is a declaration
* `declaredEncoding_declaration` – the search finds what a declaration says
-/

namespace Stencil

namespace Text

variable {b : UInt8} {sub t u : Text}

/-! ### Searching -/

/-- A text is not found where its first byte does not occur. -/
theorem find?_append_skip (h : b ∉ u) :
    find? (b :: sub) (u ++ t) = (find? (b :: sub) t).map (· + u.length) := by
  induction u with
  | nil => simp
  | cons c u ih =>
    rw [List.mem_cons, not_or] at h
    have hnot : ¬ (b :: sub).isPrefixOf (c :: (u ++ t)) := by
      rw [List.isPrefixOf_iff_prefix, List.cons_prefix_cons]
      exact fun heq => h.1 heq.1
    rw [List.cons_append, find?, if_neg hnot, ih h.2, Option.map_map]
    rfl

theorem find?_self_append : find? (b :: sub) (b :: sub ++ t) = some 0 := by
  have hprefix : (b :: sub).isPrefixOf (b :: (sub ++ t)) :=
    List.isPrefixOf_iff_prefix.mpr (List.prefix_append (b :: sub) t)
  rw [List.cons_append, find?, if_pos hprefix]

/-- The first byte occurs once before, but not as the beginning of the text. -/
theorem find?_append_once {c d : UInt8} {v : Text} (hu : b ∉ u) (hd : d ≠ c) (hv : b ∉ d :: v) :
    find? (b :: c :: sub) ((u ++ b :: d :: v) ++ (b :: c :: sub ++ t)) =
      some (u ++ b :: d :: v).length := by
  have hnot : ¬ (b :: c :: sub).isPrefixOf (b :: ((d :: v) ++ (b :: c :: sub ++ t))) := by
    rw [List.isPrefixOf_iff_prefix]
    exact fun hprefix => hd (List.cons_prefix_cons.mp (List.cons_prefix_cons.mp hprefix).2).1.symm
  rw [List.append_assoc, find?_append_skip hu, List.cons_append, find?, if_neg hnot,
    find?_append_skip hv, find?_self_append]
  simp only [Option.map_some, List.length_append, List.length_cons, Option.some.injEq]
  omega

/-- A text is not found where one of its bytes does not occur. -/
theorem find?_eq_none (hb : b ∈ sub) (ht : b ∉ t) : find? sub t = none := by
  have hnot {u : Text} (hu : b ∉ u) : ¬ sub.isPrefixOf u := fun hprefix =>
    hu ((List.isPrefixOf_iff_prefix.mp hprefix).mem hb)
  induction t with
  | nil =>
    rw [find?, if_neg]
    cases sub with
    | nil => cases hb
    | cons c sub => exact Bool.false_ne_true
  | cons c t ih =>
    rw [find?, if_neg (hnot ht), ih fun hmem => ht (List.mem_cons_of_mem c hmem)]
    rfl

end Text

namespace Markup

/-- What the declaration up to its end says about the encoding. -/
def declaredIn? (decl : Text) : Option Text := do
  let rest := decl.drop ((← Text.find? "encoding" decl) + 8)
  let rest ← Text.dropStart? "=" (rest.dropWhile isBlankByte)
  quotedValue? (rest.dropWhile isBlankByte)

variable {t u v w e : Text}

/-- A declaration ends at its first question mark. -/
theorem declaredEncoding_eq (h : 0x3f ∉ u) :
    declaredEncoding ("<?xml" ++ (u ++ ("?>" ++ t))) = (declaredIn? ("<?xml" ++ u)).getD [] := by
  have hopening : Text.dropStart? "<?xml" ("<?xml" ++ (u ++ ("?>" ++ t))) =
      some (u ++ ("?>" ++ t)) := by
    rw [Text.dropStart?, if_pos (List.isPrefixOf_iff_prefix.mpr (List.prefix_append _ _)),
      List.drop_left]
  -- the question mark of the opening is not the end
  have hbehind : (0x3f : UInt8) ∉ ([0x78, 0x6d, 0x6c] ++ u : Text) := by
    rw [List.mem_append, not_or]
    exact ⟨by decide, h⟩
  have hfind : Text.find? "?>" ("<?xml" ++ (u ++ ("?>" ++ t))) =
      some ("<?xml" ++ u : Text).length := by
    have hlater : Text.find? [0x3f, 0x3e] (([0x78, 0x6d, 0x6c] ++ u) ++ ([0x3f, 0x3e] ++ t)) =
        some (([0x78, 0x6d, 0x6c] ++ u : Text).length) := by
      rw [Text.find?_append_skip hbehind, Text.find?_self_append]
      simp
    change Text.find? [0x3f, 0x3e]
      (0x3c :: 0x3f :: (0x78 :: 0x6d :: 0x6c :: (u ++ ([0x3f, 0x3e] ++ t)))) = _
    rw [Text.find?, if_neg (by simp), Text.find?, if_neg (by simp)]
    exact congrArg (fun o => (o.map (· + 1)).map (· + 1)) hlater
  have htake : ("<?xml" ++ (u ++ ("?>" ++ t))).take ("<?xml" ++ u : Text).length =
      ("<?xml" ++ u : Text) := by
    rw [← List.append_assoc, List.take_left]
  rw [declaredEncoding, hopening, hfind]
  simp only [Option.bind_eq_bind, Option.bind_some, htake]
  rfl

theorem declaredIn?_eq_none (h : 0x63 ∉ u) : declaredIn? u = none := by
  rw [declaredIn?, Text.find?_eq_none (b := 0x63) (by decide) h]
  rfl

theorem dropWhile_append_cons {p : UInt8 → Bool} {b : UInt8} (hv : ∀ c ∈ v, p c)
    (hb : p b = false) :
    (v ++ b :: t).dropWhile p = b :: t := by
  rw [List.dropWhile_append_of_pos hv, List.dropWhile_cons_of_neg (by simp [hb])]

/-- The encoding that is named first. -/
theorem declaredIn?_eq_some {q : UInt8}
    (hfirst : ∀ r, Text.find? "encoding" (u ++ ("encoding" ++ r)) =
    some u.length) (hv : ∀ b ∈ v, isBlankByte b) (hw : ∀ b ∈ w, isBlankByte b)
    (hq : q = 0x22 ∨ q = 0x27) (he : q ∉ e) :
    declaredIn? (u ++ ("encoding" ++ (v ++ 0x3d :: (w ++ q :: (e ++ q :: t))))) = some e := by
  have hdrop : (u ++ ("encoding" ++ (v ++ 0x3d :: (w ++ q :: (e ++ q :: t))))).drop (u.length + 8) =
      v ++ 0x3d :: (w ++ q :: (e ++ q :: t)) := by
    rw [← List.append_assoc]
    exact List.drop_left' (by simp; rfl)
  have hequals : Text.dropStart? "=" (0x3d :: (w ++ q :: (e ++ q :: t))) =
      some (w ++ q :: (e ++ q :: t)) := rfl
  have hquote : isBlankByte q = false := by
    rcases hq with rfl | rfl <;> decide
  rw [declaredIn?, hfirst]
  simp only [Option.bind_eq_bind, Option.bind_some, hdrop]
  rw [dropWhile_append_cons hv (by decide), hequals, Option.bind_some,
    dropWhile_append_cons hw hquote, quotedValue?, if_pos (by simpa using hq), Text.cut?_append he]
  rfl

/-! ### The declaration as a text -/

namespace Grammar

/-- `S? '=' S?` and a value in quotes. -/
def Assigned (t value : List Char) : Prop :=
  ∃ s s' q, Blank s ∧ Blank s' ∧ (q = '"' ∨ q = '\'') ∧ q ∉ value ∧
    t = s ++ '=' :: (s' ++ q :: (value ++ [q]))

/-- `('encoding' S? '=' S? EncName S?)?`, where no name is an empty one. -/
def EncodingPart (t name : List Char) : Prop :=
  t = [] ∧ name = [] ∨ ∃ u s, Assigned u name ∧ isEncodingName name ∧ Blank s ∧
    t = "encoding".toList ++ (u ++ s)

/-- `('standalone' S? '=' S? ('yes' | 'no') S?)?`. -/
def StandalonePart (t : List Char) : Prop :=
  t = [] ∨ ∃ u v s, Assigned u v ∧ (v = "yes".toList ∨ v = "no".toList) ∧ Blank s ∧
    t = "standalone".toList ++ (u ++ s)

/-- `'<?xml' S 'version' S? '=' S? VersionNum S?`, then what may be said about the encoding and
about standing alone, then `'?>'`. -/
def Declaration (t name : List Char) : Prop :=
  ∃ s u v s' e r, Blanks s ∧ Assigned u v ∧ isVersion v ∧ Blank s' ∧ EncodingPart e name ∧
    StandalonePart r ∧
    t = "<?xml".toList ++ (s ++ ("version".toList ++ (u ++ (s' ++ (e ++ (r ++ "?>".toList))))))

end Grammar

open Grammar

/-! ### What values are made of -/

theorem mem_version {v : List Char} (h : isVersion v) : ∀ c ∈ v, c = '.' ∨ c.isDigit := by
  rw [isVersion.eq_def] at h
  split at h
  · rename_i d ds
    intro c hc
    simp only [List.mem_cons] at hc
    rcases hc with rfl | rfl | hc
    · exact .inr (by decide)
    · exact .inl rfl
    · exact .inr (List.all_eq_true.mp h c (List.mem_cons.mpr hc))
  · cases h

theorem mem_encodingName {name : List Char} (h : isEncodingName name) :
    ∀ c ∈ name, c.isAlphanum ∨ c = '.' ∨ c = '_' ∨ c = '-' := by
  rw [isEncodingName.eq_def] at h
  split at h
  · cases h
  · rename_i c cs
    simp only [Bool.and_eq_true, List.all_eq_true, Bool.or_eq_true, decide_eq_true_eq] at h
    rw [List.forall_mem_cons]
    refine ⟨.inl (by simp [Char.isAlphanum, h.1]), fun d hd => ?_⟩
    simpa only [or_assoc] using h.2 d hd

/-! ### Reading a declaration -/

namespace Reader

variable {α β : Type} {r : Reader α} {f : α → Reader β} {P P' : List Char → α → Prop}
  {Q : List Char → β → Prop}

/-- If everything can be decoded and the reader succeeds, it has taken a text of the relation. -/
def Takes (r : Reader α) (P : List Char → α → Prop) : Prop :=
  ∀ cur a cur', Clean cur.rest → r cur = .ok (a, cur') → ∃ t, cur.rest = t ++ cur'.rest ∧ P t a

theorem Reads.takes {R : List Char → α → List Char → Prop} (h : ∀ bound, r.Reads bound R)
    (hP : ∀ t a rest, R t a rest → P t a) : r.Takes P := by
  intro cur a cur' hclean hr
  obtain ⟨t, hrest, ht⟩ := (h cur.rest.length cur hclean le_rfl).rest hr
  exact ⟨t, hrest, hP t a _ ht⟩

namespace Takes

theorem pure {a : α} (h : P [] a) : (pure a : Reader α).Takes P := by
  intro cur b cur' _ hb
  cases hb
  exact ⟨[], rfl, h⟩

theorem fail {fault : Fault} : (fail fault : Reader α).Takes P := by
  intro cur b cur' _ hb
  cases hb

theorem bind (h : r.Takes P) (hf : ∀ t a, P t a → (f a).Takes fun u b => Q (t ++ u) b) :
    (r >>= f).Takes Q := by
  intro cur b cur'' hclean hb
  rw [bind_apply] at hb
  split at hb
  · rename_i a cur' ha
    obtain ⟨t, hrest, ht⟩ := h cur a cur' hclean ha
    obtain ⟨u, hrest', hu⟩ := hf t a ht cur' b cur'' (Clean.append.mp (hrest ▸ hclean)).2 hb
    exact ⟨t ++ u, by rw [hrest, hrest', List.append_assoc], hu⟩
  · cases hb

theorem ite {c : Prop} [Decidable c] {r' : Reader α} (h : c → r.Takes P) (h' : ¬ c → r'.Takes P) :
    (if c then r else r').Takes P := by
  split
  · rename_i hc
    exact h hc
  · rename_i hc
    exact h' hc

theorem guard {c : Prop} [Decidable c] {fault : Fault} {k : PUnit → Reader β}
    (h : ¬ c → (k ⟨⟩).Takes Q) : (if c then Reader.fail fault >>= k else k ⟨⟩).Takes Q :=
  ite (fun _ => (fail : (Reader.fail fault : Reader β).Takes Q)) h

theorem required {c : Prop} [Decidable c] {fault : Fault} {k : PUnit → Reader β}
    (h : c → (k ⟨⟩).Takes Q) : (if c then k ⟨⟩ else Reader.fail fault >>= k).Takes Q :=
  ite h fun _ => (fail : (Reader.fail fault : Reader β).Takes Q)

end Takes

theorem demand_takes {s : String} {fault : Fault} :
    (demand s fault).Takes fun t _ => t = s.toList :=
  Reads.takes (fun _ => demand_reads) fun _ _ _ h => h

theorem skipBlanks_takes : skipBlanks.Takes fun t b => Blank t ∧ b = !t.isEmpty :=
  Reads.takes (fun _ => skipBlanks_reads) fun _ _ _ h => ⟨h.1, h.2.2⟩

theorem not_mem_of_until {q : Char} {u : List Char} (h : Until [q] u) : q ∉ u := by
  induction u with
  | nil => exact List.not_mem_nil
  | cons c u ih =>
    obtain ⟨-, hstart, hu⟩ := h
    rw [List.mem_cons, not_or]
    refine ⟨?_, ih hu⟩
    rintro rfl
    exact hstart ⟨u ++ [q], rfl⟩

theorem accept_takes {s : String} : (accept s).Takes fun t b =>
    t = s.toList ∧ b = true ∨ t = [] ∧ b = false :=
  Reads.takes (fun _ => accept_reads) fun _ _ _ h => h.imp_right fun h => ⟨h.1, h.2.1⟩

/-- What is behind an opening quote, up to the closing one. -/
theorem quotation_takes {q : Char} : (scanTo (String.singleton q)).Takes fun t o =>
    (∃ u, q ∉ u ∧ t = u ++ [q] ∧ o = some (Text.ofChars (unifyLineEnds u))) ∨ o = none := by
  refine Reads.takes (fun _ => scanTo_reads (by simp)) fun t o _ h => h.imp (fun h => ?_) And.left
  obtain ⟨u, rfl, hu, rfl⟩ := h
  have hterm : (String.singleton q).toList = [q] := by simp
  rw [hterm] at hu ⊢
  exact ⟨u, not_mem_of_until hu, by simp, rfl⟩

theorem quotedText_takes : quotedText.Takes fun t v => ∃ q u, (q = '"' ∨ q = '\'') ∧ q ∉ u ∧
    t = q :: (u ++ [q]) ∧ v = Text.ofChars (unifyLineEnds u) := by
  intro cur v cur' hclean hv
  rw [quotedText, cursor_bind] at hv
  cases hrest : cur.rest with
  | nil =>
    rw [hrest] at hv
    cases hv
  | cons q rest =>
    rw [hrest] at hv hclean
    have hnext : (cur.advance 1).rest = rest := Cursor.rest_advance_length (t := [q])
      (hrest ▸ hclean) hrest
    dsimp only at hv
    split at hv
    · cases hv
    rename_i hq
    have hquote : q = '"' ∨ q = '\'' := by
      by_cases hdouble : q = '"'
      · exact .inl hdouble
      · exact .inr (by simpa [hdouble] using hq)
    rw [bind_apply, show advance 1 cur = .ok ((), cur.advance 1) from rfl] at hv
    dsimp only at hv
    rw [bind_apply] at hv
    split at hv
    swap
    · cases hv
    rename_i o cur₁ hscan
    obtain ⟨t, hbehind, ht⟩ := quotation_takes (cur.advance 1) o cur₁
      (hnext ▸ fun hmem => hclean (List.mem_cons_of_mem q hmem)) hscan
    rcases ht with ⟨u, hu, rfl, rfl⟩ | rfl
    · cases hv
      exact ⟨q :: (u ++ [q]), by rw [List.cons_append, ← hbehind, hnext], q,
        u, hquote, hu, rfl, rfl⟩
    · cases hv

theorem pseudoAttribute_takes {label : String} : (pseudoAttribute label).Takes fun t o =>
    t = [] ∧ o = none ∨ ∃ u w, Assigned u w ∧ t = label.toList ++ u ∧
      o = some (Text.ofChars (unifyLineEnds w)) := by
  refine .bind accept_takes fun t b ht => ?_
  refine .ite (fun hb => ?_) fun hb => .pure ?_
  · obtain ⟨rfl, -⟩ : t = label.toList ∧ b = true := by
      rcases ht with ht | ⟨-, rfl⟩
      · exact ht
      · cases hb
    refine .bind skipBlanks_takes fun s _ hs => .bind demand_takes fun e _ he =>
      .bind skipBlanks_takes fun s' _ hs' => .bind quotedText_takes fun v _ hv => .pure ?_
    obtain ⟨q, w, hq, hw, rfl, rfl⟩ := hv
    obtain rfl : e = ['='] := he
    exact .inr ⟨s ++ '=' :: (s' ++ q :: (w ++ [q])), w,
      ⟨s, s', q, hs.1, hs'.1, hq, hw, rfl⟩, by simp, rfl⟩
  · rcases ht with ⟨-, rfl⟩ | ⟨rfl, -⟩
    · exact absurd rfl hb
    · exact .inl ⟨rfl, rfl⟩

theorem declaredEncoding_takes : Reader.declaredEncoding.Takes fun t e =>
    ∃ name, EncodingPart t name ∧ e = Text.ofChars name := by
  refine .bind pseudoAttribute_takes fun t o ht => ?_
  rcases ht with ⟨rfl, rfl⟩ | ⟨u, w, hu, rfl, rfl⟩
  · exact .pure ⟨[], .inl ⟨rfl, rfl⟩, rfl⟩
  · refine .guard fun hname => .bind skipBlanks_takes fun s _ hs => .pure ?_
    have hname : isEncodingName (unifyLineEnds w) := by simpa using hname
    have hw : unifyLineEnds w = w := by
      refine unifyLineEnds_eq_of_not_mem fun hmem => ?_
      rcases mem_encodingName hname _ hmem with h | h | h | h
      · exact absurd h (by decide)
      · cases h
      · cases h
      · cases h
    rw [hw] at hname ⊢
    exact ⟨w, .inr ⟨u, s, hu, hname, hs.1, by simp⟩, rfl⟩

theorem declaredStandalone_takes : declaredStandalone.Takes fun t _ => StandalonePart t := by
  refine .bind pseudoAttribute_takes fun t o ht => ?_
  rcases ht with ⟨rfl, rfl⟩ | ⟨u, w, hu, rfl, rfl⟩
  · exact .pure (.inl rfl)
  · refine .guard fun hvalue => .bind skipBlanks_takes fun s _ hs => .pure ?_
    have hvalue : unifyLineEnds w = "yes".toList ∨ unifyLineEnds w = "no".toList := by
      simp only [Bool.and_eq_true, bne_iff_ne, ne_eq, not_and, Decidable.not_not] at hvalue
      by_cases hyes : Text.ofChars (unifyLineEnds w) = "yes"
      · exact .inl (Text.ofChars_injective hyes)
      · exact .inr (Text.ofChars_injective (hvalue hyes))
    have hw : unifyLineEnds w = w := by
      refine unifyLineEnds_eq_of_not_mem fun hmem => ?_
      rcases hvalue with h | h
      · rw [h] at hmem
        exact absurd hmem (by decide)
      · rw [h] at hmem
        exact absurd hmem (by decide)
    rw [hw] at hvalue
    exact .inr ⟨u, w, s, hu, hvalue, hs.1, by simp⟩

theorem declaration_takes : declaration.Takes fun t d =>
    ∃ name, Grammar.Declaration t name ∧ d.2.1 = Text.ofChars name := by
  refine .bind demand_takes fun t _ ht => .bind skipBlanks_takes fun s blank hs =>
    .required fun hblank => .bind pseudoAttribute_takes fun a o ha => ?_
  rcases ha with ⟨rfl, rfl⟩ | ⟨u, w, hu, rfl, rfl⟩
  · exact .fail
  · refine .guard fun hversion => .bind skipBlanks_takes fun s' _ hs' =>
      .bind declaredEncoding_takes fun e _ he => .bind declaredStandalone_takes fun r _ hr =>
      .bind demand_takes fun close _ hclose => .pure ?_
    obtain ⟨name, he, rfl⟩ := he
    have hversion : isVersion (unifyLineEnds w) := by simpa using hversion
    have hw : unifyLineEnds w = w := by
      refine unifyLineEnds_eq_of_not_mem fun hmem => ?_
      rcases mem_version hversion _ hmem with h | h
      · cases h
      · exact absurd h (by decide)
    rw [hw] at hversion
    have hblanks : Blanks s := by
      refine ⟨?_, hs.1⟩
      rintro rfl
      rw [hs.2] at hblank
      cases hblank
    exact ⟨name, ⟨s, u, w, s', e, r, hblanks, hu, hversion, hs'.1, he, hr, by simp [ht, hclose]⟩,
      rfl⟩

end Reader

/-! ### Searching a declaration -/

section Search

variable {p : Char → Prop} {cs s u v e r d name : List Char}

/-- The characters between words. -/
def punctuation : List Char := [' ', '\t', '\n', '\r', '=', '"', '\'']

theorem Grammar.Blank.forall (h : Blank s) (hp : ∀ c ∈ punctuation, p c) : ∀ c ∈ s, p c := by
  intro c hc
  have hblank := h c hc
  simp only [isBlankChar, Bool.or_eq_true, decide_eq_true_eq] at hblank
  refine hp c ?_
  rcases hblank with ((rfl | rfl) | rfl) | rfl <;> decide

theorem Grammar.Assigned.forall (h : Assigned u v) (hp : ∀ c ∈ punctuation, p c)
    (hv : ∀ c ∈ v, p c) : ∀ c ∈ u, p c := by
  obtain ⟨s, s', q, hs, hs', hq, -, rfl⟩ := h
  have hquote : p q := by
    rcases hq with rfl | rfl <;> exact hp _ (by decide)
  simp only [List.forall_mem_append, List.forall_mem_cons]
  exact ⟨hs.forall hp, hp _ (by decide), hs'.forall hp, hquote, hv, hquote, List.forall_mem_nil _⟩

theorem Grammar.StandalonePart.forall (h : StandalonePart r) (hp : ∀ c ∈ punctuation, p c)
    (hword : ∀ c ∈ "standalone".toList ++ ("yes".toList ++ "no".toList), p c) : ∀ c ∈ r, p c := by
  rcases h with rfl | ⟨u, v, s, hu, hv, hs, rfl⟩
  · exact List.forall_mem_nil _
  simp only [List.forall_mem_append] at hword ⊢
  obtain ⟨hname, hyes, hno⟩ := hword
  have hvalue : ∀ c ∈ v, p c := by
    rcases hv with rfl | rfl
    · exact hyes
    · exact hno
  exact ⟨hname, hu.forall hp hvalue, hs.forall hp⟩

/-- A byte does not occur if no character has its code. -/
theorem not_mem_ofChars {b : UInt8} (hb : b.toNat < 128) (h : ∀ c ∈ cs, c.toNat ≠ b.toNat) :
    b ∉ Text.ofChars cs := by
  rw [Text.mem_ofChars_iff hb]
  rintro ⟨c, hc, heq⟩
  exact h c hc heq

theorem Grammar.Blank.bytes (h : Blank s) : ∀ b ∈ Text.ofChars s, isBlankByte b := by
  intro b hb
  obtain ⟨c, hc, hb⟩ := List.mem_flatMap.mp hb
  have hblank := h c hc
  simp only [isBlankChar, Bool.or_eq_true, decide_eq_true_eq] at hblank
  rcases hblank with ((rfl | rfl) | rfl) | rfl <;>
    (obtain rfl := List.mem_singleton.mp hb; decide)

/-- In front of the encoding, a declaration has one `e` only, and that is not the beginning of its
name. -/
theorem find?_encoding (hs : Blank s) (hu : Assigned u v) (hv : isVersion v) {s' : List Char}
    (hs' : Blank s') (t : Text) :
    let head := Text.ofChars ("<?xml".toList ++ (s ++ ("version".toList ++ (u ++ s'))))
    Text.find? "encoding" (head ++ ("encoding" ++ t)) = some head.length := by
  intro head
  have hvalue : ∀ c ∈ v, c.toNat ≠ (0x65 : UInt8).toNat := by
    intro c hc heq
    have hcode : c = 'e' := Char.toNat_inj.mp heq
    rcases mem_version hv c hc with rfl | hdigit
    · cases hcode
    · rw [hcode] at hdigit
      exact absurd hdigit (by decide)
  have hpunctuation : ∀ c ∈ punctuation, c.toNat ≠ (0x65 : UInt8).toNat :=
    List.all_iff_forall_prop.mp (by decide)
  have hbefore : 0x65 ∉ Text.ofChars ("<?xml".toList ++ (s ++ ['v'])) := by
    refine not_mem_ofChars (by decide) ?_
    simp only [List.forall_mem_append]
    exact ⟨List.all_iff_forall_prop.mp (by decide), hs.forall hpunctuation,
      List.all_iff_forall_prop.mp (by decide)⟩
  have hbehind : 0x65 ∉ 0x72 :: Text.ofChars ("sion".toList ++ (u ++ s')) := by
    change 0x65 ∉ Text.ofChars ('r' :: ("sion".toList ++ (u ++ s')))
    refine not_mem_ofChars (by decide) ?_
    simp only [List.forall_mem_append, List.forall_mem_cons]
    exact ⟨by decide, List.all_iff_forall_prop.mp (by decide), hu.forall hpunctuation hvalue,
      hs'.forall hpunctuation⟩
  have hhead : head = Text.ofChars ("<?xml".toList ++ (s ++ ['v'])) ++
      (0x65 :: 0x72 :: Text.ofChars ("sion".toList ++ (u ++ s'))) := by
    have hword : Text.ofChars "version".toList =
        Text.ofChars ['v'] ++ (0x65 :: 0x72 :: Text.ofChars "sion".toList) := rfl
    simp only [head, Text.ofChars_append, hword, List.append_assoc, List.cons_append]
  rw [hhead]
  exact Text.find?_append_once hbefore (by decide) hbehind

theorem Grammar.EncodingPart.forall (h : EncodingPart e name) (hp : ∀ c ∈ punctuation, p c)
    (hword : ∀ c ∈ "encoding".toList, p c)
    (hname : ∀ c, c.isAlphanum ∨ c = '.' ∨ c = '_' ∨ c = '-' → p c) : ∀ c ∈ e, p c := by
  rcases h with ⟨rfl, -⟩ | ⟨u, s, hu, hvalue, hs, rfl⟩
  · exact List.forall_mem_nil _
  · simp only [List.forall_mem_append]
    exact ⟨hword, hu.forall hp fun c hc => hname c (mem_encodingName hvalue c hc), hs.forall hp⟩

/-- Letters and digits of ASCII. -/
theorem toNat_of_isAlphanum {c : Char} (h : c.isAlphanum) :
    65 ≤ c.toNat ∧ c.toNat ≤ 90 ∨ 97 ≤ c.toNat ∧ c.toNat ≤ 122 ∨ 48 ≤ c.toNat ∧ c.toNat ≤ 57 := by
  rcases (Bool.or_eq_true _ _).mp h with halpha | hdigit
  · rcases (Bool.or_eq_true _ _).mp halpha with hupper | hlower
    · exact .inl (of_decide_eq_true hupper)
    · exact .inr (.inl (((Bool.and_eq_true _ _).mp hlower).imp of_decide_eq_true of_decide_eq_true))
  · exact .inr (.inr (((Bool.and_eq_true _ _).mp hdigit).imp of_decide_eq_true of_decide_eq_true))

theorem ascii_of_isAlphanum {c : Char} (h : c.isAlphanum) : c.toNat < 128 ∧ c ≠ '?' := by
  have hbounds := toNat_of_isAlphanum h
  refine ⟨by omega, ?_⟩
  rintro rfl
  revert hbounds
  decide

/-- All of a declaration is ASCII, and there is no question mark inside. -/
theorem Grammar.Declaration.exists_inside (h : Grammar.Declaration d name) :
    ∃ s u v s' e r, Blanks s ∧ Assigned u v ∧ isVersion v ∧ Blank s' ∧ EncodingPart e name ∧
      StandalonePart r ∧
      d = "<?xml".toList ++ ((s ++ ("version".toList ++ (u ++ (s' ++ (e ++ r))))) ++ "?>".toList) ∧
      ∀ c ∈ s ++ ("version".toList ++ (u ++ (s' ++ (e ++ r)))), c.toNat < 128 ∧ c ≠ '?' := by
  obtain ⟨s, u, v, s', e, r, hs, hu, hv, hs', he, hr, rfl⟩ := h
  refine ⟨s, u, v, s', e, r, hs, hu, hv, hs', he, hr, by simp, ?_⟩
  have hpunctuation : ∀ c ∈ punctuation, c.toNat < 128 ∧ c ≠ '?' :=
    List.all_iff_forall_prop.mp (by decide)
  have hversion : ∀ c ∈ v, c.toNat < 128 ∧ c ≠ '?' := by
    intro c hc
    rcases mem_version hv c hc with rfl | hdigit
    · decide
    · exact ascii_of_isAlphanum (by simp [Char.isAlphanum, hdigit])
  have hname (c : Char) (hc : c.isAlphanum ∨ c = '.' ∨ c = '_' ∨ c = '-') :
      c.toNat < 128 ∧ c ≠ '?' := by
    rcases hc with hc | rfl | rfl | rfl
    · exact ascii_of_isAlphanum hc
    · decide
    · decide
    · decide
  simp only [List.forall_mem_append]
  exact ⟨hs.2.forall hpunctuation, List.all_iff_forall_prop.mp (by decide),
    hu.forall hpunctuation hversion, hs'.forall hpunctuation,
    he.forall hpunctuation (List.all_iff_forall_prop.mp (by decide)) hname,
    hr.forall hpunctuation (List.all_iff_forall_prop.mp (by decide))⟩

theorem ascii_declaration (h : Grammar.Declaration d name) : ∀ c ∈ d, c.toNat < 128 := by
  obtain ⟨s, u, v, s', e, r, -, -, -, -, -, -, rfl, hinside⟩ := h.exists_inside
  rw [List.forall_mem_append, List.forall_mem_append]
  exact ⟨List.all_iff_forall_prop.mp (by decide), fun c hc => (hinside c hc).1,
    List.all_iff_forall_prop.mp (by decide)⟩

/-- **The search and the declaration.** Whatever follows a declaration, the search finds the
encoding that the declaration names, and nothing if it names none. -/
theorem declaredEncoding_declaration (h : Grammar.Declaration d name) (t : Text) :
    declaredEncoding (Text.ofChars d ++ t) = Text.ofChars name := by
  obtain ⟨s, u, v, s', e, r, hs, hu, hv, hs', he, hr, rfl, hinside⟩ := h.exists_inside
  have hquestion : 0x3f ∉
      Text.ofChars (s ++ ("version".toList ++ (u ++ (s' ++ (e ++ r))))) := by
    refine not_mem_ofChars (by decide) fun c hc heq => (hinside c hc).2 ?_
    exact Char.toNat_inj.mp heq
  rw [Text.ofChars_append, Text.ofChars_append, List.append_assoc, List.append_assoc]
  refine (declaredEncoding_eq hquestion).trans ?_
  rcases he with ⟨rfl, rfl⟩ | ⟨u', s₁, hu', -, hs₁, rfl⟩
  · have hnone : 0x63 ∉
        Text.ofChars ("<?xml".toList ++ (s ++ ("version".toList ++ (u ++ (s' ++ ([] ++ r)))))) := by
      refine not_mem_ofChars (by decide) ?_
      have hvalue : ∀ c ∈ v, c.toNat ≠ (0x63 : UInt8).toNat := by
        intro c hc heq
        obtain rfl : c = 'c' := Char.toNat_inj.mp heq
        rcases mem_version hv _ hc with hdot | hdigit
        · cases hdot
        · exact absurd hdigit (by decide)
      have hpunctuation : ∀ c ∈ punctuation, c.toNat ≠ (0x63 : UInt8).toNat :=
        List.all_iff_forall_prop.mp (by decide)
      simp only [List.forall_mem_append]
      exact ⟨List.all_iff_forall_prop.mp (by decide), hs.2.forall hpunctuation,
        List.all_iff_forall_prop.mp (by decide), hu.forall hpunctuation hvalue,
        hs'.forall hpunctuation, List.forall_mem_nil _,
        hr.forall hpunctuation (List.all_iff_forall_prop.mp (by decide))⟩
    rw [Text.ofChars_append] at hnone
    exact congrArg (Option.getD · []) (declaredIn?_eq_none hnone)
  · obtain ⟨b, b', q, hb, hb', hq, hqname, rfl⟩ := hu'
    have hbyte : ∃ k : UInt8, String.utf8EncodeChar q = [k] ∧ (k = 0x22 ∨ k = 0x27) ∧
        k ∉ Text.ofChars name := by
      have hcode : ∀ c ∈ name, c.toNat ≠ q.toNat := by
        intro c hc heq
        exact hqname (Char.toNat_inj.mp heq ▸ hc)
      rcases hq with rfl | rfl
      · exact ⟨0x22, rfl, .inl rfl, not_mem_ofChars (by decide) hcode⟩
      · exact ⟨0x27, rfl, .inr rfl, not_mem_ofChars (by decide) hcode⟩
    obtain ⟨k, hk, hquote, hkname⟩ := hbyte
    have hsome := declaredIn?_eq_some (t := Text.ofChars (s₁ ++ r)) (find?_encoding hs.2 hu hv hs')
      hb.bytes hb'.bytes hquote hkname
    refine congrArg (Option.getD · []) (Eq.trans (congrArg declaredIn? ?_) hsome)
    have hopening : ("<?xml" : Text) = Text.ofChars "<?xml".toList := rfl
    have hword : ("encoding" : Text) = Text.ofChars "encoding".toList := rfl
    have hequals : String.utf8EncodeChar '=' = [0x3d] := rfl
    simp only [hopening, hword, Text.ofChars_append, Text.ofChars_cons, hequals, hk,
      List.append_assoc, List.cons_append, List.nil_append]

end Search

end Markup

end Stencil
