import Stencil.Proofs.Markup.Grammar
import Stencil.Proofs.Text.Characters

/-!
# What readers read

A reader takes some text from the front of what is left. `Reads` says which: it gives a value and
leaves a rest exactly if what was left is a text of the given relation with that rest behind it. The
relation may depend on the rest, because names, numbers and white space are read as far as they go.

## Main definitions

* `Reader.ReadsAt`, `Reader.Reads` – what a reader takes, at one cursor and at all
* `Reader.Then` – one text behind another

## Main results

* `Reader.Reads.bind'`, `Reader.Reads.bind`, `Reader.Reads.ite` – readers put together
* `Reader.accept_reads`, `Reader.takeWhile_reads`, `Reader.scanTo_reads`, `Reader.name_reads` – what
  the primitives take
-/

namespace Stencil.Markup

/-- The text holds no mark of input that could not be decoded. -/
def Clean (t : List Char) : Prop := Text.replacement ∉ t

instance (t : List Char) : Decidable (Clean t) := inferInstanceAs (Decidable (_ ∉ t))

theorem Clean.append {t u : List Char} : Clean (t ++ u) ↔ Clean t ∧ Clean u := by
  simp [Clean]

theorem Cursor.rest_advance {n : Nat} {cur : Cursor} (h : Clean cur.rest) :
    (cur.advance n).rest = cur.rest.drop n := by
  induction n generalizing cur with
  | zero => rfl
  | succ n ih =>
    rw [advance]
    split
    · rename_i hrest
      rw [hrest, List.drop_nil]
    · rename_i c rest hrest
      have hc : c ≠ Text.replacement := by
        rintro rfl
        exact h (hrest ▸ List.mem_cons_self)
      have hclean : Clean (cur.pass c rest).rest := by
        rw [rest_pass]
        exact fun hmem => h (hrest ▸ List.mem_cons_of_mem c hmem)
      rw [if_neg hc, ih hclean, rest_pass, hrest, List.drop_succ_cons]

theorem Cursor.rest_advance_length {cur : Cursor} {t rest : List Char} (h : Clean cur.rest)
    (ht : cur.rest = t ++ rest) : (cur.advance t.length).rest = rest := by
  rw [rest_advance h, ht, List.drop_left]

namespace Reader

open Grammar

variable {α β : Type}

/-- At the cursor, the reader gives the value and leaves the rest. -/
def Gives (r : Reader α) (cur : Cursor) (a : α) (rest : List Char) : Prop :=
  ∃ cur', r cur = .ok (a, cur') ∧ cur'.rest = rest

/-- At the cursor, the reader takes exactly the texts of a relation. -/
def ReadsAt (r : Reader α) (cur : Cursor) (P : List Char → α → List Char → Prop) : Prop :=
  ∀ a rest, r.Gives cur a rest ↔ ∃ t, cur.rest = t ++ rest ∧ P t a rest

/-- The reader takes exactly the texts of a relation, wherever no more than a number of characters
is left. -/
def Reads (r : Reader α) (bound : Nat) (P : List Char → α → List Char → Prop) : Prop :=
  ∀ cur, Clean cur.rest → cur.rest.length ≤ bound → r.ReadsAt cur P

/-- A text of the first relation with one of the second behind it. -/
def Then (P : List Char → α → List Char → Prop) (Q : α → List Char → β → List Char → Prop)
    (t : List Char) (b : β) (rest : List Char) : Prop :=
  ∃ t₁ t₂ a, t = t₁ ++ t₂ ∧ P t₁ a (t₂ ++ rest) ∧ Q a t₂ b rest

variable {r : Reader α} {f : α → Reader β} {cur : Cursor} {bound bound' : Nat}
  {P P' : List Char → α → List Char → Prop} {Q : α → List Char → β → List Char → Prop}

theorem bind_apply : (r >>= f) cur = match r cur with
    | .ok (a, cur') => f a cur'
    | .error e => .error e := by
  change (r cur).bind _ = _
  cases r cur <;> rfl

theorem cursor_bind {g : Cursor → Reader β} : (cursor >>= g) cur = g cur cur := rfl

namespace ReadsAt

theorem congr (h : r.ReadsAt cur P)
    (hP : ∀ t a rest, cur.rest = t ++ rest → (P t a rest ↔ P' t a rest)) : r.ReadsAt cur P' := by
  intro a rest
  rw [h a rest]
  refine exists_congr fun t => and_congr_right fun ht => hP t a rest ht

theorem pure {a : α} : (pure a : Reader α).ReadsAt cur fun t b _ => t = [] ∧ b = a := by
  intro b rest
  constructor
  · rintro ⟨cur', h, rfl⟩
    cases h
    exact ⟨[], rfl, rfl, rfl⟩
  · rintro ⟨t, ht, rfl, rfl⟩
    exact ⟨cur, rfl, ht⟩

theorem fail {fault : Fault} : (fail fault : Reader α).ReadsAt cur fun _ _ _ => False := by
  intro b rest
  constructor
  · rintro ⟨cur', h, -⟩
    cases h
  · rintro ⟨t, -, h⟩
    exact h.elim

theorem fail_bind {fault : Fault} {k : β → Reader α} :
    (Reader.fail fault >>= k).ReadsAt cur fun _ _ _ => False := by
  intro b rest
  constructor
  · rintro ⟨cur', h, -⟩
    cases h
  · rintro ⟨t, -, h⟩
    exact h.elim

/-- What is left is a part of what was left. -/
theorem rest {a : α} {cur' : Cursor} (h : r.ReadsAt cur P) (hr : r cur = .ok (a, cur')) :
    ∃ t, cur.rest = t ++ cur'.rest ∧ P t a cur'.rest :=
  (h a cur'.rest).mp ⟨cur', hr, rfl⟩

/-- Looking at the cursor takes nothing. -/
theorem cursor {g : Cursor → Reader α} (h : (g cur).ReadsAt cur P) :
    (Reader.cursor >>= g).ReadsAt cur P := h

/-- Readers in sequence. -/
theorem bind (h : r.ReadsAt cur P)
    (hf : ∀ a cur', r cur = .ok (a, cur') → (f a).ReadsAt cur' (Q a)) :
    (r >>= f).ReadsAt cur (Then P Q) := by
  intro b rest
  constructor
  · rintro ⟨cur'', hb, hrest⟩
    rw [bind_apply] at hb
    cases hr : r cur with
    | error e =>
      rw [hr] at hb
      cases hb
    | ok p =>
      obtain ⟨a, cur'⟩ := p
      rw [hr] at hb
      obtain ⟨t₁, ht₁, hP⟩ := h.rest hr
      obtain ⟨t₂, ht₂, hQ⟩ := (hf a cur' hr b rest).mp ⟨cur'', hb, hrest⟩
      rw [ht₂] at ht₁ hP
      exact ⟨t₁ ++ t₂, by rw [ht₁, List.append_assoc], t₁, t₂, a, rfl, hP, hQ⟩
  · rintro ⟨t, ht, t₁, t₂, a, rfl, hP, hQ⟩
    rw [List.append_assoc] at ht
    obtain ⟨cur', hr, hrest⟩ := (h a (t₂ ++ rest)).mpr ⟨t₁, ht, hP⟩
    obtain ⟨cur'', hb, hrest'⟩ := (hf a cur' hr b rest).mpr ⟨t₂, hrest, hQ⟩
    exact ⟨cur'', by rw [bind_apply, hr]; exact hb, hrest'⟩

end ReadsAt

namespace Reads

theorem congr (h : r.Reads bound P) (hP : ∀ t a rest, P t a rest ↔ P' t a rest) :
    r.Reads bound P' :=
  fun cur hclean hlen => (h cur hclean hlen).congr fun t a rest _ => hP t a rest

theorem mono (h : r.Reads bound P) (hb : bound' ≤ bound) : r.Reads bound' P :=
  fun cur hclean hlen => h cur hclean (Nat.le_trans hlen hb)

theorem pure {a : α} : (pure a : Reader α).Reads bound fun t b _ => t = [] ∧ b = a :=
  fun _ _ _ => ReadsAt.pure

theorem fail {fault : Fault} : (Reader.fail fault : Reader α).Reads bound fun _ _ _ => False :=
  fun _ _ _ => ReadsAt.fail

/-- Readers in sequence, where the second one has no more than `bound'` characters left. -/
theorem bind' (h : r.Reads bound P) (hf : ∀ a, (f a).Reads bound' (Q a))
    (hb : ∀ t a rest, P t a rest → (t ++ rest).length ≤ bound → rest.length ≤ bound') :
    (r >>= f).Reads bound (Then P Q) := by
  intro cur hclean hlen
  refine (h cur hclean hlen).bind fun a cur' hr => ?_
  obtain ⟨t, ht, hP⟩ := (h cur hclean hlen).rest hr
  rw [ht] at hclean hlen
  exact hf a cur' (Clean.append.mp hclean).2 (hb t a cur'.rest hP hlen)

/-- Readers in sequence. -/
theorem bind (h : r.Reads bound P) (hf : ∀ a, (f a).Reads bound (Q a)) :
    (r >>= f).Reads bound (Then P Q) :=
  h.bind' hf fun t a rest _ hlen => by
    rw [List.length_append] at hlen
    omega

/-- One of two readers. -/
theorem ite {c : Prop} [Decidable c] {r' : Reader α} (h : c → r.Reads bound P)
    (h' : ¬ c → r'.Reads bound P') :
    (if c then r else r').Reads bound fun t a rest => c ∧ P t a rest ∨ ¬ c ∧ P' t a rest := by
  split
  · rename_i hc
    exact (h hc).congr fun t a rest => by simp [hc]
  · rename_i hc
    exact (h' hc).congr fun t a rest => by simp [hc]

/-- A reader behind a check. -/
theorem guard {c : Prop} [Decidable c] {fault : Fault} {k : PUnit → Reader α}
    (h : ¬ c → (k ⟨⟩).Reads bound P) :
    (if c then Reader.fail fault >>= k else k ⟨⟩).Reads bound fun t a rest => ¬ c ∧ P t a rest := by
  split
  · rename_i hc
    intro cur _ _
    exact ReadsAt.fail_bind.congr fun t a rest _ => iff_of_false id fun h => h.1 hc
  · rename_i hc
    exact (h hc).congr fun t a rest => (and_iff_right hc).symm

/-- A reader behind something required. -/
theorem require {c : Prop} [Decidable c] {fault : Fault} {k : PUnit → Reader α}
    (h : c → (k ⟨⟩).Reads bound P) :
    (if c then k ⟨⟩ else Reader.fail fault >>= k).Reads bound fun t a rest => c ∧ P t a rest := by
  split
  · rename_i hc
    exact (h hc).congr fun t a rest => (and_iff_right hc).symm
  · rename_i hc
    intro cur _ _
    exact ReadsAt.fail_bind.congr fun t a rest _ => iff_of_false id fun h => hc h.1

end Reads

/-! ### Primitives -/

variable {s : String}

/-- The characters that end names. -/
def delimiters : List Char := [' ', '\t', '\n', '\r', '=', '/', '>', '?', '!', ';']

theorem isNameChar_of_mem_delimiters {c : Char} (hc : c ∈ delimiters) : isNameChar c = false := by
  have hall : (delimiters.all fun c => !isNameChar c) = true := by decide
  simpa using List.all_eq_true.mp hall c hc

theorem isNameChar_of_isNameStart {c : Char} (hc : isNameStart c) : isNameChar c := by
  simp only [isNameStart, Bool.or_eq_true] at hc
  simp only [isNameChar, Bool.or_eq_true]
  rcases hc with (hc | hc) | hc <;> simp [hc]

theorem ne_of_isNameStart {c d : Char} (hc : isNameStart c) (hd : d ∈ delimiters) : d ≠ c := by
  rintro rfl
  have h := isNameChar_of_isNameStart hc
  rw [isNameChar_of_mem_delimiters hd] at h
  cases h

theorem mem_delimiters_of_blank {c : Char} (hc : isBlankChar c) : c ∈ delimiters := by
  simp only [isBlankChar, Bool.or_eq_true, decide_eq_true_eq] at hc
  rcases hc with ((rfl | rfl) | rfl) | rfl <;> simp [delimiters]

theorem accept_apply : accept s cur =
    if cur.startsWith s then .ok (true, cur.advance s.length) else .ok (false, cur) := by
  rw [accept, bind_apply]
  change (if cur.startsWith s then _ else _ : Reader Bool) cur = _
  split <;> rfl

/-- Accepting a text takes it, or nothing if it is not there. -/
theorem accept_reads : (accept s).Reads bound fun t b rest =>
    t = s.toList ∧ b = true ∨ t = [] ∧ b = false ∧ ¬ s.toList <+: rest := by
  intro cur hclean _ b rest
  rw [Gives, accept_apply, Cursor.startsWith]
  split
  · rename_i hs
    rw [List.isPrefixOf_iff_prefix] at hs
    obtain ⟨u, hu⟩ := hs
    have hrest : (cur.advance s.length).rest = u := by
      rw [← String.length_toList]
      exact Cursor.rest_advance_length hclean hu.symm
    constructor
    · rintro ⟨cur', h, rfl⟩
      cases h
      exact ⟨s.toList, by rw [hrest, hu], .inl ⟨rfl, rfl⟩⟩
    · rintro ⟨t, ht, ⟨rfl, rfl⟩ | ⟨rfl, rfl, hnot⟩⟩
      · rw [← hu] at ht
        exact ⟨_, rfl, hrest.trans (List.append_cancel_left ht)⟩
      · exact absurd ⟨u, by rw [hu, ht]; rfl⟩ hnot
  · rename_i hs
    rw [List.isPrefixOf_iff_prefix] at hs
    constructor
    · rintro ⟨cur', h, rfl⟩
      cases h
      exact ⟨[], rfl, .inr ⟨rfl, rfl, hs⟩⟩
    · rintro ⟨t, ht, ⟨rfl, rfl⟩ | ⟨rfl, rfl, hnot⟩⟩
      · exact absurd ⟨rest, ht.symm⟩ hs
      · exact ⟨cur, rfl, ht⟩

/-- Demanding a text takes it. -/
theorem demand_reads {fault : Fault} : (demand s fault).Reads bound fun t _ _ => t = s.toList := by
  have h : (demand s fault).Reads bound _ :=
    accept_reads.bind (Q := fun b t _ _ => b = true ∧ t = []) fun b => by
      cases b
      · exact Reads.fail.congr fun t a rest => by simp
      · exact Reads.pure.congr fun t a rest => by simp
  refine h.congr fun t a rest => ?_
  constructor
  · rintro ⟨t₁, t₂, b, rfl, ⟨rfl, rfl⟩ | ⟨rfl, rfl, -⟩, hb, rfl⟩
    · exact List.append_nil _
    · cases hb
  · rintro rfl
    exact ⟨s.toList, [], true, (List.append_nil _).symm, .inl ⟨rfl, rfl⟩, rfl, rfl⟩

/-- Moving over characters that are there, and reading on. -/
theorem advance_readsAt {k : Reader α} {t u : List Char}
    (hclean : Clean cur.rest) (h : cur.rest = t ++ u) (hk : k.Reads u.length P) :
    (advance t.length >>= fun _ => k).ReadsAt cur fun s a rest =>
      ∃ s', s = t ++ s' ∧ P s' a rest := by
  have hnext := Cursor.rest_advance_length hclean h
  have hk' : k.ReadsAt (cur.advance t.length) P := by
    refine hk _ ?_ (Nat.le_of_eq (congrArg List.length hnext))
    rw [hnext]
    exact (Clean.append.mp (h ▸ hclean)).2
  intro a rest
  change k.Gives (cur.advance t.length) a rest ↔ _
  rw [hk' a rest, hnext]
  constructor
  · rintro ⟨s', rfl, hP⟩
    exact ⟨t ++ s', by rw [h, List.append_assoc], s', rfl, hP⟩
  · rintro ⟨s, hs, s', rfl, hP⟩
    rw [h, List.append_assoc] at hs
    exact ⟨s', List.append_cancel_left hs, hP⟩

/-- What follows does not begin with a character of a class. -/
def Ends (p : Char → Bool) (rest : List Char) : Prop := ∀ c ∈ rest.head?, p c = false

theorem ends_cons {p : Char → Bool} {c : Char} {rest : List Char} (hc : p c = false) :
    Ends p (c :: rest) := by
  intro d hd
  obtain rfl := Option.some.inj hd
  exact hc

theorem ends_delimiter {c : Char} {rest : List Char} (hc : c ∈ delimiters) :
    Ends isNameChar (c :: rest) :=
  ends_cons (isNameChar_of_mem_delimiters hc)

theorem Ends.takeWhile_append {p : Char → Bool} {t rest : List Char} (h : Ends p rest)
    (ht : ∀ c ∈ t, p c) : (t ++ rest).takeWhile p = t := by
  have hrest : rest.takeWhile p = [] := by
    cases rest with
    | nil => rfl
    | cons c rest => rw [List.takeWhile_cons_of_neg (by rw [h c rfl]; exact Bool.false_ne_true)]
  rw [List.takeWhile_append_of_pos ht, hrest, List.append_nil]

theorem ends_dropWhile {p : Char → Bool} {l : List Char} : Ends p (l.dropWhile p) := by
  intro c hc
  have h := List.head?_dropWhile_not p l
  rw [Option.mem_def.mp hc] at h
  exact h

/-- The longest run of characters of a class. -/
theorem takeWhile_reads {p : Char → Bool} : (takeWhile p).Reads bound fun t run rest =>
    t = run ∧ (∀ c ∈ run, p c) ∧ Ends p rest := by
  intro cur hclean _ run rest
  have happly : takeWhile p cur =
      .ok (cur.rest.takeWhile p, cur.advance (cur.rest.takeWhile p).length) := rfl
  have hrest : (cur.advance (cur.rest.takeWhile p).length).rest = cur.rest.dropWhile p :=
    Cursor.rest_advance_length hclean List.takeWhile_append_dropWhile.symm
  rw [Gives, happly]
  constructor
  · rintro ⟨cur', h, rfl⟩
    cases h
    refine ⟨_, ?_, rfl, fun c hc => List.all_eq_true.mp List.all_takeWhile c hc, ?_⟩
    · rw [hrest, List.takeWhile_append_dropWhile]
    · rw [hrest]
      exact ends_dropWhile
  · rintro ⟨t, ht, rfl, hall, hends⟩
    have hrun : cur.rest.takeWhile p = t := by rw [ht, hends.takeWhile_append hall]
    refine ⟨_, by rw [hrun], ?_⟩
    rw [Cursor.rest_advance_length hclean ht]

/-- White space, as far as it goes. -/
theorem skipBlanks_reads : skipBlanks.Reads bound fun t b rest =>
    Blank t ∧ Ends isBlankChar rest ∧ b = !t.isEmpty := by
  have h : skipBlanks.Reads bound _ :=
    takeWhile_reads.bind (Q := fun run t b _ => t = [] ∧ b = !run.isEmpty) fun _ => Reads.pure
  refine h.congr fun t b rest => ?_
  constructor
  · rintro ⟨t₁, t₂, run, rfl, ⟨rfl, hall, hends⟩, rfl, rfl⟩
    rw [List.append_nil]
    exact ⟨hall, hends, rfl⟩
  · rintro ⟨hall, hends, rfl⟩
    exact ⟨t, [], t, (List.append_nil t).symm, ⟨rfl, hall, hends⟩, rfl, rfl⟩

/-- A legal text with a terminator behind it that does not occur any earlier. -/
def Until (term : List Char) : List Char → Prop
  | [] => True
  | c :: u => isLegalChar c ∧ ¬ term <+: c :: u ++ term ∧ Until term u

theorem upTo_eq_found_iff {term l u : List Char} (hterm : term ≠ []) :
    upTo term l = (u, .found) ↔ ∃ rest, l = u ++ term ++ rest ∧ Until term u := by
  induction l generalizing u with
  | nil => simp [upTo, hterm]
  | cons c l ih =>
    rw [upTo]
    split
    · rename_i hstart
      rw [List.isPrefixOf_iff_prefix] at hstart
      constructor
      · intro h
        obtain rfl : [] = u := congrArg Prod.fst h
        obtain ⟨rest, hrest⟩ := hstart
        exact ⟨rest, hrest.symm, trivial⟩
      · rintro ⟨rest, heq, huntil⟩
        cases u with
        | nil => rfl
        | cons d u =>
          refine absurd ?_ huntil.2.1
          rw [heq] at hstart
          exact List.prefix_of_prefix_length_le hstart (List.prefix_append _ _)
            (by simp only [List.length_append]; omega)
    · rename_i hstart
      rw [List.isPrefixOf_iff_prefix] at hstart
      constructor
      · intro h
        split at h
        · cases h
        · rename_i hlegal
          obtain ⟨before, hbefore⟩ : ∃ before, upTo term l = (before, .found) := by
            cases hl : upTo term l with
            | mk before e =>
              rw [hl] at h
              cases h
              exact ⟨before, rfl⟩
          rw [hbefore] at h
          obtain rfl : c :: before = u := congrArg Prod.fst h
          obtain ⟨rest, rfl, huntil⟩ := ih.mp hbefore
          refine ⟨rest, by simp, by simpa using hlegal, fun hearly => hstart ?_, huntil⟩
          exact hearly.trans ⟨rest, by simp⟩
      · rintro ⟨rest, heq, huntil⟩
        cases u with
        | nil => exact absurd ⟨rest, heq.symm⟩ hstart
        | cons d u =>
          obtain ⟨rfl, rfl⟩ := List.cons.inj heq
          rw [if_neg (by simpa using huntil.1), ih.mpr ⟨rest, rfl, huntil.2.2⟩]

theorem eq_of_upTo_exhausted {term l u : List Char} (h : upTo term l = (u, .exhausted)) :
    u = l := by
  induction l generalizing u with
  | nil =>
    cases h
    rfl
  | cons c l ih =>
    rw [upTo] at h
    split at h
    · cases h
    · split at h
      · cases h
      · cases hl : upTo term l with
        | mk before e =>
          rw [hl] at h
          cases h
          rw [ih hl]

theorem scanTo_apply : scanTo s cur = match upTo s.toList cur.rest with
    | (before, .found) => .ok (some (Text.ofChars (unifyLineEnds before)),
        (cur.advance before.length).advance s.length)
    | (before, .exhausted) => .ok (none, cur.advance before.length)
    | (before, .illegal c) => .error ⟨(cur.advance before.length).position, .illegalChar c⟩ := by
  rw [scanTo, cursor_bind]
  cases h : upTo s.toList cur.rest with
  | mk before e => cases e <;> rfl

/-- Everything up to a terminator. -/
theorem scanTo_reads (hs : s.toList ≠ []) : (scanTo s).Reads bound fun t o rest =>
    (∃ u, t = u ++ s.toList ∧ Until s.toList u ∧ o = some (Text.ofChars (unifyLineEnds u))) ∨
      o = none ∧ rest = [] ∧ upTo s.toList t = (t, .exhausted) := by
  intro cur hclean _ o rest
  rw [Gives, scanTo_apply]
  constructor
  · rintro ⟨cur', h, rfl⟩
    split at h
    · rename_i before hfound
      obtain ⟨rest, hrest, huntil⟩ := (upTo_eq_found_iff hs).mp hfound
      cases h
      refine ⟨before ++ s.toList, ?_, .inl ⟨before, rfl, huntil, rfl⟩⟩
      rw [List.append_assoc] at hrest
      have hnext := Cursor.rest_advance_length hclean hrest
      have hclean' : Clean (cur.advance before.length).rest := by
        rw [hnext]
        exact (Clean.append.mp (hrest ▸ hclean)).2
      rw [← String.length_toList, Cursor.rest_advance_length hclean' hnext,
        hrest, List.append_assoc]
    · rename_i before hexhausted
      cases h
      obtain rfl := eq_of_upTo_exhausted hexhausted
      have hnext := Cursor.rest_advance_length hclean (List.append_nil cur.rest).symm
      exact ⟨cur.rest, by rw [hnext, List.append_nil], .inr ⟨rfl, hnext, hexhausted⟩⟩
    · cases h
  · rintro ⟨t, ht, ⟨u, rfl, huntil, rfl⟩ | ⟨rfl, rfl, hexhausted⟩⟩
    · rw [(upTo_eq_found_iff hs).mpr ⟨rest, ht, huntil⟩]
      refine ⟨_, rfl, ?_⟩
      rw [List.append_assoc] at ht
      have hnext := Cursor.rest_advance_length hclean ht
      have hclean' : Clean (cur.advance u.length).rest := by
        rw [hnext]
        exact (Clean.append.mp (ht ▸ hclean)).2
      rw [← String.length_toList, Cursor.rest_advance_length hclean' hnext]
    · rw [ht, List.append_nil, hexhausted]
      exact ⟨_, rfl, Cursor.rest_advance_length hclean ht⟩

/-- A name, as far as it goes. -/
theorem name_reads : name.Reads bound fun t n rest => t = n ∧ Name n ∧ Ends isNameChar rest := by
  intro cur hclean _
  refine ReadsAt.cursor ?_
  cases hrest : cur.rest with
  | nil =>
    refine ReadsAt.fail.congr fun t n rest ht => iff_of_false id ?_
    rintro ⟨rfl, ⟨c, cs, rfl, -⟩, -⟩
    rw [hrest] at ht
    cases ht
  | cons c more =>
    -- a name that is there consists of the next character and all name characters behind it
    have hname {n rest : List Char} (h : cur.rest = n ++ rest) (hn : Name n)
        (hends : Ends isNameChar rest) : isNameStart c ∧ n = c :: more.takeWhile isNameChar ∧
          (more.takeWhile isNameChar).length + 1 ≤ maxNameLength := by
      obtain ⟨d, cs, rfl, hd, hcs, hlength⟩ := hn
      rw [hrest, List.cons_append] at h
      obtain ⟨rfl, rfl⟩ := List.cons.inj h
      rw [hends.takeWhile_append hcs]
      exact ⟨hd, rfl, hlength⟩
    dsimp only
    split
    · rename_i hstart
      refine ReadsAt.fail_bind.congr fun t n rest ht => iff_of_false id ?_
      rintro ⟨rfl, hn, hends⟩
      simp [(hname ht hn hends).1] at hstart
    rename_i hstart
    split
    · rename_i hlong
      refine ReadsAt.fail_bind.congr fun t n rest ht => iff_of_false id ?_
      rintro ⟨rfl, hn, hends⟩
      exact Nat.not_lt.mpr (hname ht hn hends).2.2 hlong
    · rename_i hshort
      have hsplit : cur.rest =
          (c :: more.takeWhile isNameChar) ++ more.dropWhile isNameChar := by
        rw [hrest, List.cons_append, List.takeWhile_append_dropWhile]
      refine ReadsAt.congr (advance_readsAt hclean hsplit Reads.pure) fun t n rest ht => ?_
      constructor
      · rintro ⟨s, rfl, rfl, rfl⟩
        rw [List.append_nil] at ht ⊢
        obtain rfl := List.append_cancel_left (hsplit.symm.trans ht)
        refine ⟨rfl, ⟨c, _, rfl, by simpa using hstart, ?_, Nat.not_lt.mp hshort⟩, ends_dropWhile⟩
        exact fun d hd => List.all_eq_true.mp List.all_takeWhile d hd
      · rintro ⟨rfl, hn, hends⟩
        obtain ⟨-, rfl, -⟩ := hname ht hn hends
        exact ⟨[], (List.append_nil _).symm, rfl, rfl⟩

end Reader

end Stencil.Markup
