import Mathlib.Tactic.FinCases
import Mathlib.Tactic.Tauto
import Stencil.Proofs.Markup.Readers

/-!
# Reading names, references and attribute values

What the readers of the smallest constructs take, as relations of the grammar. A name goes as far as
it can, so its reader also says that no name character follows; references and attribute values end
by themselves.

The loop over an attribute value takes one character, one reference or one line end per round. The
grammar splits a value into runs of characters and references instead. `valueText_append_iff` and
`valueText_reference_iff` take a value of the grammar apart the way the loop does.

## Main results

* `Reader.qname_reads`, `Reader.reference_reads`, `Reader.attributeValue_reads`
-/

namespace Stencil.Markup

open Grammar

/-! ### Names -/

theorem splits_iff {n : List Char} {q : QName} : Splits n q ↔
    match (Text.ofChars n).cut? 0x3a with
    | none => q = ⟨[], Text.ofChars n⟩
    | some (a, b) => a ≠ [] ∧ b ≠ [] ∧ 0x3a ∉ b ∧ q = ⟨a, b⟩ := by
  by_cases hmem : ':' ∈ n
  · obtain ⟨p, l, rfl, hp⟩ := List.eq_append_cons_of_mem hmem
    rw [Text.cut?_ofChars_colon hp]
    constructor
    · rintro (⟨hnot, -⟩ | ⟨p', l', heq, hp', hl', hnotp, hnotl, rfl⟩)
      · exact absurd hmem hnot
      · have hcut : (Text.ofChars (p' ++ ':' :: l')).cut? 0x3a = _ := Text.cut?_ofChars_colon hnotp
        rw [← heq, Text.cut?_ofChars_colon hp] at hcut
        obtain ⟨h₁, h₂⟩ := Prod.mk.inj (Option.some.inj hcut)
        dsimp only
        rw [h₁, h₂, ne_eq, Text.ofChars_eq_nil_iff, ne_eq, Text.ofChars_eq_nil_iff,
          Text.colon_mem_ofChars_iff]
        exact ⟨hp', hl', hnotl, rfl⟩
    · rintro ⟨ha, hb, hnot, rfl⟩
      rw [ne_eq, Text.ofChars_eq_nil_iff] at ha hb
      rw [Text.colon_mem_ofChars_iff] at hnot
      exact .inr ⟨p, l, rfl, ha, hb, hp, hnot, rfl⟩
  · have hcut : (Text.ofChars n).cut? 0x3a = none := by
      rw [Text.cut?_eq_none_iff, Text.colon_mem_ofChars_iff]
      exact hmem
    rw [hcut]
    constructor
    · rintro (⟨-, rfl⟩ | ⟨p, l, rfl, -⟩)
      · rfl
      · simp at hmem
    · rintro rfl
      exact .inl ⟨hmem, rfl⟩

namespace Reader

variable {bound : Nat}

/-- A qualified name, as far as it goes. -/
theorem qname_reads : qname.Reads bound fun t q rest =>
    QualifiedName t q ∧ Ends isNameChar rest := by
  have h : qname.Reads bound _ :=
    name_reads.bind (Q := fun n t q _ => t = [] ∧ Splits n q) fun n => by
      dsimp only
      cases hcut : (Text.ofChars n).cut? 0x3a with
      | none => exact Reads.pure.congr fun t q rest => by rw [splits_iff, hcut]
      | some parts =>
        obtain ⟨a, b⟩ := parts
        refine Reads.congr (Reads.guard fun _ => Reads.pure) fun t q rest => ?_
        rw [splits_iff, hcut]
        simp only [Bool.or_eq_true, decide_eq_true_eq, List.contains_iff_mem, not_or]
        tauto
  refine h.congr fun t q rest => ?_
  constructor
  · rintro ⟨t₁, t₂, n, rfl, ⟨rfl, hname, hends⟩, rfl, hsplits⟩
    rw [List.append_nil]
    exact ⟨⟨hname, hsplits⟩, hends⟩
  · rintro ⟨⟨hname, hsplits⟩, hends⟩
    exact ⟨t, [], t, (List.append_nil t).symm, ⟨rfl, hname, hends⟩, rfl, hsplits⟩

/-! ### References -/

theorem charOfCode?_eq_some_iff {n : Nat} {c : Char} :
    charOfCode? n = some c ↔ isLegalChar c ∧ c.toNat = n := by
  rw [charOfCode?]
  constructor
  · intro h
    by_cases hvalid : n.isValidChar
    · rw [dif_pos hvalid] at h
      obtain ⟨hlegal, hc⟩ := Option.ite_none_right_eq_some.mp h
      obtain rfl := Option.some.inj hc
      exact ⟨hlegal, rfl⟩
    · rw [dif_neg hvalid] at h
      cases h
  · rintro ⟨hlegal, rfl⟩
    have hvalid : c.toNat.isValidChar := c.valid
    rw [dif_pos hvalid, if_pos]
    · rfl
    · exact hlegal

theorem charReferenceBody_reads {base : Nat} {isDigit : Char → Bool} (hsemi : isDigit ';' = false) :
    (charReferenceBody base isDigit).Reads bound fun t c _ => ∃ ds, ds ≠ [] ∧
      (∀ d ∈ ds, isDigit d) ∧ isLegalChar c ∧ c.toNat = numeral base ds ∧ t = ds ++ [';'] := by
  refine Reads.congr (takeWhile_reads.bind fun ds => Reads.guard fun _ => demand_reads.bind
    (Q := fun _ t c _ => t = [] ∧ charOfCode? (numeral base ds) = some c) fun _ => ?_)
    fun t c rest => ?_
  · cases charOfCode? (numeral base ds) with
    | none => exact Reads.fail.congr fun t c rest => by simp
    | some d => exact Reads.pure.congr fun t c rest => by simp [eq_comm]
  · constructor
    · rintro ⟨t₁, -, ds, rfl, ⟨rfl, hall, -⟩, hne, -, -, -, rfl, rfl, rfl, hcode⟩
      obtain ⟨hlegal, hcode⟩ := charOfCode?_eq_some_iff.mp hcode
      exact ⟨t₁, by simpa using hne, hall, hlegal, hcode, rfl⟩
    · rintro ⟨ds, hne, hall, hlegal, hcode, rfl⟩
      exact ⟨ds, [';'], ds, rfl, ⟨rfl, hall, ends_cons hsemi⟩, by simpa using hne,
        [';'], [], (), rfl, rfl, rfl, charOfCode?_eq_some_iff.mpr ⟨hlegal, hcode⟩⟩

theorem predefinedEntity?_eq_some_iff {n : List Char} {c : Char} :
    predefinedEntity? (Text.ofChars n) = some c ↔ (n, c) ∈ entities := by
  have hname (s : String) (l : List Char) (hs : (s : Text) = Text.ofChars l) :
      Text.ofChars n = (s : Text) ↔ n = l := by
    rw [hs]
    exact ⟨Text.ofChars_injective, fun h => h ▸ rfl⟩
  simp only [predefinedEntity?, hname "lt" ['l', 't'] (by decide),
    hname "gt" ['g', 't'] (by decide), hname "amp" ['a', 'm', 'p'] (by decide),
    hname "apos" ['a', 'p', 'o', 's'] (by decide),
    hname "quot" ['q', 'u', 'o', 't'] (by decide)]
  constructor
  · intro h
    repeat' split at h
    all_goals cases h
    all_goals subst n; decide
  · intro h
    simp only [entities, List.mem_cons, Prod.mk.injEq, List.not_mem_nil, or_false] at h
    rcases h with ⟨rfl, rfl⟩ | ⟨rfl, rfl⟩ | ⟨rfl, rfl⟩ | ⟨rfl, rfl⟩ | ⟨rfl, rfl⟩ <;> rfl

theorem name_of_mem_entities {n : List Char} {c : Char} (h : (n, c) ∈ entities) : Name n := by
  have hall : ∀ p ∈ entities, ∃ d ds, p.1 = d :: ds ∧ isNameStart d ∧ ds.all isNameChar ∧
      p.1.length ≤ maxNameLength := by
    intro p hp
    fin_cases hp
    all_goals
      refine ⟨_, _, rfl, by decide, by decide, ?_⟩
      rw [maxNameLength]
      simp
  obtain ⟨d, ds, hn, hd, hds, hlength⟩ := hall (n, c) h
  exact ⟨d, ds, hn, hd, List.all_eq_true.mp hds, hlength⟩

/-- An entity reference. -/
theorem entityReference_reads : (do
    demand "&" (.undeclaredEntity [])
    let n := Text.ofChars (← name)
    demand ";" .semicolonRequired
    match predefinedEntity? n with
    | some c => return c
    | none => fail (.undeclaredEntity n) : Reader Char).Reads bound fun t c _ =>
      ∃ n, (n, c) ∈ entities ∧ t = ['&'] ++ n ++ [';'] := by
  refine Reads.congr (demand_reads.bind fun _ => name_reads.bind fun n => demand_reads.bind
    (Q := fun _ t c _ => t = [] ∧ (n, c) ∈ entities) fun _ => ?_) fun t c rest => ?_
  · simp only [← predefinedEntity?_eq_some_iff]
    cases predefinedEntity? (Text.ofChars n) with
    | none => exact Reads.fail.congr fun t c rest => by simp
    | some d => exact Reads.pure.congr fun t c rest => by simp [eq_comm]
  · constructor
    · rintro ⟨t₁, t₂, -, rfl, rfl, t₃, t₄, n, rfl, ⟨rfl, hname, -⟩, t₅, t₆, -, rfl, rfl, rfl, hc⟩
      exact ⟨t₃, hc, rfl⟩
    · rintro ⟨n, hc, rfl⟩
      exact ⟨['&'], n ++ [';'], (), rfl, rfl, n, [';'], n, rfl,
        ⟨rfl, name_of_mem_entities hc, ends_delimiter (by simp [delimiters])⟩,
        [';'], [], (), rfl, rfl, rfl, hc⟩

/-- A reference. -/
theorem reference_reads : reference.Reads bound fun t c _ => Reference t c := by
  refine Reads.congr (accept_reads.bind fun b => Reads.ite
    (fun _ => charReferenceBody_reads (by decide)) fun _ => accept_reads.bind fun b => Reads.ite
    (fun _ => charReferenceBody_reads (by decide)) fun _ => entityReference_reads) fun t c rest =>
      ?_
  constructor
  · rintro ⟨t₁, t₂, b, rfl, ⟨rfl, rfl⟩ | ⟨rfl, rfl, -⟩, ⟨hb, h⟩ | ⟨hb, t₃, t₄, b', rfl, hacc, h⟩⟩
    · obtain ⟨ds, hne, hall, hlegal, hcode, rfl⟩ := h
      exact .hexadecimal hne hall hlegal hcode
    · exact absurd rfl hb
    · cases hb
    · rcases hacc with ⟨rfl, rfl⟩ | ⟨rfl, rfl, -⟩ <;> rcases h with ⟨hb', h⟩ | ⟨hb', h⟩
      · obtain ⟨ds, hne, hall, hlegal, hcode, rfl⟩ := h
        exact .decimal hne hall hlegal hcode
      · exact absurd rfl hb'
      · cases hb'
      · obtain ⟨n, hn, rfl⟩ := h
        exact .entity hn
  · intro h
    cases h with
    | @entity n _ hn =>
      have hstart : ¬ ['&', '#'] <+: ['&'] ++ n ++ [';'] ++ rest := by
        simp only [entities, List.mem_cons, Prod.mk.injEq, List.not_mem_nil, or_false] at hn
        rcases hn with ⟨rfl, -⟩ | ⟨rfl, -⟩ | ⟨rfl, -⟩ | ⟨rfl, -⟩ | ⟨rfl, -⟩ <;> simp
      have hstart' : ¬ ['&', '#', 'x'] <+: ['&'] ++ n ++ [';'] ++ rest :=
        fun h => hstart (List.IsPrefix.trans ⟨['x'], rfl⟩ h)
      refine ⟨[], _, false, rfl, .inr ⟨rfl, rfl, hstart'⟩, .inr ⟨Bool.false_ne_true, ?_⟩⟩
      exact ⟨[], _, false, rfl, .inr ⟨rfl, rfl, hstart⟩, .inr ⟨Bool.false_ne_true, n, hn, rfl⟩⟩
    | @decimal ds _ hne hall hlegal hcode =>
      have hstart : ¬ ['&', '#', 'x'] <+: ['&', '#'] ++ ds ++ [';'] ++ rest := by
        cases ds with
        | nil => exact absurd rfl hne
        | cons d ds =>
          have hd : d ≠ 'x' := by
            rintro rfl
            exact absurd (hall 'x' List.mem_cons_self) (by decide)
          simpa using hd.symm
      refine ⟨[], _, false, rfl, .inr ⟨rfl, rfl, hstart⟩, .inr ⟨Bool.false_ne_true, ?_⟩⟩
      refine ⟨['&', '#'], ds ++ [';'], true, rfl, .inl ⟨rfl, rfl⟩, .inl ⟨rfl, ?_⟩⟩
      exact ⟨ds, hne, hall, hlegal, hcode, rfl⟩
    | @hexadecimal ds _ hne hall hlegal hcode =>
      refine ⟨['&', '#', 'x'], ds ++ [';'], true, rfl, .inl ⟨rfl, rfl⟩, .inl ⟨rfl, ?_⟩⟩
      exact ⟨ds, hne, hall, hlegal, hcode, rfl⟩

end Reader

/-! ### Attribute values -/

namespace Grammar

variable {q c : Char} {t u v w : List Char}

theorem flattenBlanks_cons (hc : c ≠ '\r') :
    flattenBlanks (c :: t) = (if isBlankChar c then ' ' else c) :: flattenBlanks t := by
  rw [flattenBlanks, flattenBlanks, unifyLineEnds, List.map_cons]
  · exact fun _ h => absurd h hc
  · exact hc

theorem flattenBlanks_return_newline :
    flattenBlanks ('\r' :: '\n' :: t) = ' ' :: flattenBlanks t := by
  rw [flattenBlanks, flattenBlanks, unifyLineEnds, List.map_cons]
  rfl

theorem flattenBlanks_return (ht : t.head? ≠ some '\n') :
    flattenBlanks ('\r' :: t) = ' ' :: flattenBlanks t := by
  rw [flattenBlanks, flattenBlanks, unifyLineEnds, List.map_cons]
  · rfl
  · rintro cs rfl
    exact ht rfl

theorem Reference.exists_cons {r : List Char} (h : Reference r c) : ∃ r', r = '&' :: r' := by
  cases h <;> exact ⟨_, rfl⟩

theorem ValueRun.append : ValueRun q (t ++ u) ↔ ValueRun q t ∧ ValueRun q u :=
  List.forall_mem_append

theorem valueText_iff : ValueText q t w ↔ ValueRun q t ∧ w = flattenBlanks t ∨
    ∃ s r u v c, t = s ++ '&' :: r ++ u ∧ ValueRun q s ∧ Reference ('&' :: r) c ∧ ValueText q u v ∧
      w = flattenBlanks s ++ c :: v := by
  constructor
  · intro h
    cases h with
    | run h => exact .inl ⟨h, rfl⟩
    | reference hs hr hu =>
      obtain ⟨r', rfl⟩ := hr.exists_cons
      exact .inr ⟨_, r', _, _, _, rfl, hs, hr, hu, rfl⟩
  · rintro (⟨h, rfl⟩ | ⟨s, r, u, v, c, rfl, hs, hr, hu, rfl⟩)
    · exact .run h
    · exact .reference hs hr hu

theorem valueText_nil_iff : ValueText q [] w ↔ w = [] := by
  rw [valueText_iff]
  constructor
  · rintro (⟨-, rfl⟩ | ⟨s, r, u, v, c, h, -⟩)
    · rfl
    · simp at h
  · rintro rfl
    exact .inl ⟨fun c hc => (List.not_mem_nil hc).elim, rfl⟩

/-- The inside of a value begins with a reference or with one of its characters. -/
theorem ValueText.head (h : ValueText q (c :: t) w) : c = '&' ∨ ValueRun q [c] := by
  rcases valueText_iff.mp h with ⟨hrun, -⟩ | ⟨s, r, u, v, d, heq, hs, -⟩
  · exact .inr (ValueRun.append.mp hrun).1
  · cases s with
    | nil => exact .inl (List.cons.inj heq).1
    | cons d s =>
      rw [(List.cons.inj heq).1]
      exact .inr (ValueRun.append.mp hs).1

/-- The inside of a value that begins with a reference. -/
theorem valueText_reference_iff : ValueText q ('&' :: t) w ↔
    ∃ r u v c, '&' :: t = r ++ u ∧ Reference r c ∧ ValueText q u v ∧ w = c :: v := by
  constructor
  · intro h
    rcases valueText_iff.mp h with ⟨hrun, -⟩ | ⟨s, r, u, v, c, heq, hs, hr, hu, rfl⟩
    · exact absurd rfl (hrun '&' List.mem_cons_self).2.2.1
    · cases s with
      | nil => exact ⟨'&' :: r, u, v, c, heq, hr, hu, rfl⟩
      | cons d s =>
        obtain ⟨rfl, -⟩ := List.cons.inj heq
        exact absurd rfl (hs '&' List.mem_cons_self).2.2.1
  · rintro ⟨r, u, v, c, heq, hr, hu, rfl⟩
    rw [heq]
    exact .reference (t := []) (fun d hd => (List.not_mem_nil hd).elim) hr hu

/-- The inside of a value that begins with characters, which stand for `x` whatever follows. -/
theorem valueText_append_iff {x : List Char} (ht : ValueRun q t)
    (hflat : ∀ s, s <+: u → flattenBlanks (t ++ s) = x ++ flattenBlanks s) :
    ValueText q (t ++ u) w ↔ ∃ v, ValueText q u v ∧ w = x ++ v := by
  constructor
  · intro h
    rcases valueText_iff.mp h with ⟨hrun, rfl⟩ | ⟨s, r, u', v, c, heq, hs, hr, hu, rfl⟩
    · exact ⟨_, .run (ValueRun.append.mp hrun).2, hflat u (List.prefix_refl u)⟩
    · -- the reference begins behind the characters
      obtain ⟨s', rfl, rfl⟩ : ∃ s', s = t ++ s' ∧ u = s' ++ '&' :: r ++ u' := by
        rw [List.append_assoc, List.append_eq_append_iff] at heq
        rcases heq with ⟨s', rfl, hu'⟩ | ⟨s', rfl, hu'⟩
        · exact ⟨s', rfl, by rw [hu', List.append_assoc]⟩
        · cases s' with
          | nil => exact ⟨[], by simp, by simpa using hu'.symm⟩
          | cons d s' =>
            obtain ⟨rfl, -⟩ := List.cons.inj hu'
            exact absurd rfl (ht '&' (by simp)).2.2.1
      refine ⟨flattenBlanks s' ++ c :: v, .reference (ValueRun.append.mp hs).2 hr hu, ?_⟩
      rw [hflat s' (by rw [List.append_assoc]; exact List.prefix_append _ _), List.append_assoc]
  · rintro ⟨v, hv, rfl⟩
    rcases valueText_iff.mp hv with ⟨hrun, rfl⟩ | ⟨s, r, u', v, c, rfl, hs, hr, hu, rfl⟩
    · rw [← hflat u (List.prefix_refl u)]
      exact .run (ValueRun.append.mpr ⟨ht, hrun⟩)
    · have htext : t ++ (s ++ '&' :: r ++ u') = t ++ s ++ '&' :: r ++ u' := by simp
      have hvalue : x ++ (flattenBlanks s ++ c :: v) = flattenBlanks (t ++ s) ++ c :: v := by
        rw [hflat s (by rw [List.append_assoc]; exact List.prefix_append _ _), List.append_assoc]
      rw [htext, hvalue]
      exact .reference (ValueRun.append.mpr ⟨ht, hs⟩) hr hu

end Grammar

namespace Reader

variable {α : Type} {cur : Cursor} {bound : Nat} {c : Char} {t : List Char}

/-- The rest of an attribute value in the quotes `q`, when its first characters are known. -/
def ValueEnd (q : Char) (value t : List Char) (v : Text) (_ : List Char) : Prop :=
  ∃ u w, t = u ++ [q] ∧ ValueText q u w ∧ v = Text.ofChars (value.reverse ++ w)

/-- Characters of a value that stand for one character. -/
theorem valueChars_readsAt {q d : Char} {n : Nat} {value p u : List Char}
    (ih : ∀ value, (valueRest q n value).Reads n (ValueEnd q value)) (hclean : Clean cur.rest)
    (hlen : cur.rest.length ≤ n + 1) (h : cur.rest = p ++ u) (hne : p ≠ []) (hp : ValueRun q p)
    (hflat : ∀ s, s <+: u → flattenBlanks (p ++ s) = d :: flattenBlanks s) :
    (advance p.length >>= fun _ => valueRest q n (d :: value)).ReadsAt cur (ValueEnd q value) := by
  have hu : u.length ≤ n := by
    have hp' := List.length_pos_iff.mpr hne
    rw [h, List.length_append] at hlen
    omega
  refine ReadsAt.congr (advance_readsAt hclean h ((ih _).mono hu)) fun t v rest ht => ?_
  rw [h] at ht
  constructor
  · rintro ⟨s', rfl, u', w, rfl, hw, rfl⟩
    refine ⟨p ++ u', d :: w, by rw [List.append_assoc], ?_, by simp⟩
    rw [List.append_assoc] at ht
    have hprefix : u' <+: u := ⟨[q] ++ rest, by rw [List.append_cancel_left ht, List.append_assoc]⟩
    rw [valueText_append_iff (x := [d]) hp fun s hs => hflat s (hs.trans hprefix)]
    exact ⟨w, hw, rfl⟩
  · rintro ⟨u', w, rfl, hw, rfl⟩
    -- the quote stands behind the characters, because they hold none
    obtain ⟨s, rfl, hs⟩ : ∃ s, u' = p ++ s ∧ u = s ++ [q] ++ rest := by
      rw [List.append_assoc, List.append_eq_append_iff] at ht
      rcases ht with ⟨s, rfl, hs⟩ | ⟨s, rfl, hs⟩
      · exact ⟨s, rfl, by rw [hs, List.append_assoc]⟩
      · cases s with
        | nil => exact ⟨[], by simp, by simpa using hs.symm⟩
        | cons d s =>
          obtain ⟨rfl, -⟩ := List.cons.inj hs
          exact absurd rfl (hp q (by simp)).2.2.2
    have hprefix : s <+: u := ⟨[q] ++ rest, by rw [hs, List.append_assoc]⟩
    rw [valueText_append_iff (x := [d]) hp fun s' hs' => hflat s' (hs'.trans hprefix)] at hw
    obtain ⟨v, hv, rfl⟩ := hw
    exact ⟨s ++ [q], by rw [List.append_assoc], s, v, rfl, hv, by simp⟩

/-- What begins with neither a quote nor a character of a value is not the rest of one. -/
theorem not_valueEnd {q : Char} {value : List Char} {rest : List Char} {v : Text}
    (hc : ∀ c, (t ++ rest).head? = some c → c ≠ q ∧ c ≠ '&' ∧ ¬ ValueRun q [c])
    (h : ValueEnd q value t v rest) : False := by
  obtain ⟨u, w, rfl, hw, -⟩ := h
  cases u with
  | nil => exact (hc q rfl).1 rfl
  | cons c u =>
    obtain ⟨-, hamp, hrun⟩ := hc c rfl
    exact hw.head.elim hamp hrun

/-- The closing quote of a value. -/
theorem valueQuote_readsAt {q : Char} {value u : List Char} (hq : q = '"' ∨ q = '\'')
    (hclean : Clean cur.rest) (h : cur.rest = q :: u) :
    (advance 1 >>= fun _ => pure (Text.ofChars value.reverse)).ReadsAt cur (ValueEnd q value) := by
  refine ReadsAt.congr (advance_readsAt (t := [q]) hclean h Reads.pure) fun t v rest ht => ?_
  constructor
  · rintro ⟨s, rfl, rfl, rfl⟩
    exact ⟨[], [], rfl, valueText_nil_iff.mpr rfl, by rw [List.append_nil]⟩
  · rintro ⟨u', w, rfl, hw, rfl⟩
    cases u' with
    | nil =>
      rw [valueText_nil_iff.mp hw, List.append_nil]
      exact ⟨[], rfl, rfl, rfl⟩
    | cons d u' =>
      obtain ⟨rfl, -⟩ := List.cons.inj (h.symm.trans ht)
      rcases hw.head with rfl | hrun
      · exact absurd hq (by decide)
      · exact absurd rfl (hrun q List.mem_cons_self).2.2.2

/-- A reference in a value. -/
theorem valueReference_readsAt {q : Char} {n : Nat} {value u : List Char} (hq : q = '"' ∨ q = '\'')
    (ih : ∀ value, (valueRest q n value).Reads n (ValueEnd q value)) (hclean : Clean cur.rest)
    (hlen : cur.rest.length ≤ n + 1) (h : cur.rest = '&' :: u) :
    (reference >>= fun d => valueRest q n (d :: value)).ReadsAt cur (ValueEnd q value) := by
  refine ReadsAt.congr (Reads.bind' reference_reads (fun d => ih (d :: value)) ?_ cur hclean hlen)
    fun t v rest ht => ?_
  · intro t d rest hr hlen
    obtain ⟨r, rfl⟩ := hr.exists_cons
    simp only [List.cons_append, List.length_cons, List.length_append] at hlen
    omega
  · constructor
    · rintro ⟨r, s, d, rfl, hr, u', w, rfl, hw, rfl⟩
      obtain ⟨r, rfl⟩ := hr.exists_cons
      refine ⟨'&' :: r ++ u', d :: w, by rw [List.append_assoc], ?_, by simp⟩
      exact valueText_reference_iff.mpr ⟨'&' :: r, u', w, d, rfl, hr, hw, rfl⟩
    · rintro ⟨u', w, rfl, hw, rfl⟩
      cases u' with
      | nil =>
        obtain ⟨rfl, -⟩ := List.cons.inj (h.symm.trans ht)
        exact absurd hq (by decide)
      | cons e u' =>
        obtain ⟨rfl, -⟩ := List.cons.inj (h.symm.trans ht)
        obtain ⟨r, u'', w', d, heq, hr, hw', rfl⟩ := valueText_reference_iff.mp hw
        refine ⟨r, u'' ++ [q], d, by rw [heq, List.append_assoc], hr, u'', w', rfl, hw', ?_⟩
        simp

/-- The rest of an attribute value, behind some of its characters. -/
theorem valueRest_reads {q : Char} (hq : q = '"' ∨ q = '\'') (n : Nat) (value : List Char) :
    (valueRest q n value).Reads n (ValueEnd q value) := by
  induction n generalizing value with
  | zero =>
    intro cur hclean hlen
    refine ReadsAt.fail.congr fun t v rest ht => iff_of_false id (not_valueEnd ?_)
    rw [← ht, List.length_eq_zero_iff.mp (Nat.le_zero.mp hlen)]
    exact fun c hc => nomatch hc
  | succ n ih =>
    intro cur hclean hlen
    refine ReadsAt.cursor ?_
    cases hrest : cur.rest with
    | nil =>
      refine ReadsAt.fail.congr fun t v rest ht => iff_of_false id (not_valueEnd ?_)
      rw [← ht, hrest]
      exact fun c hc => nomatch hc
    | cons c more =>
      have hfail {fault : Fault} (hc : c ≠ q ∧ c ≠ '&' ∧ ¬ ValueRun q [c]) :
          (fail fault : Reader Text).ReadsAt cur (ValueEnd q value) := by
        refine ReadsAt.fail.congr fun t v rest ht => iff_of_false id (not_valueEnd ?_)
        rw [← ht, hrest]
        rintro d hd
        obtain rfl := Option.some.inj hd
        exact hc
      dsimp only
      split
      · rename_i hc
        subst hc
        exact valueQuote_readsAt hq hclean hrest
      rename_i hc
      split
      · rename_i hlt
        exact hfail ⟨hc, by rw [hlt]; decide, fun h => (h c List.mem_cons_self).2.1 hlt⟩
      rename_i hlt
      split
      · rename_i hamp
        subst hamp
        exact valueReference_readsAt hq ih hclean hlen hrest
      rename_i hamp
      have hrun (hlegal : isLegalChar c) : ValueRun q [c] := by
        intro d hd
        obtain rfl := List.mem_singleton.mp hd
        exact ⟨hlegal, hlt, hamp, hc⟩
      split
      · rename_i hcrlf
        simp only [Bool.and_eq_true, decide_eq_true_eq] at hcrlf
        obtain ⟨rfl, hhead⟩ := hcrlf
        obtain ⟨more, rfl⟩ : ∃ more', more = '\n' :: more' := by
          cases more with
          | nil => cases hhead
          | cons d more => exact ⟨more, by rw [Option.some.inj hhead]⟩
        have hnewline : ValueRun q ['\n'] := by
          intro d hd
          obtain rfl := List.mem_singleton.mp hd
          rcases hq with rfl | rfl <;> decide
        exact valueChars_readsAt (p := ['\r', '\n']) ih hclean hlen hrest (by simp)
          (ValueRun.append.mpr ⟨hrun (by decide), hnewline⟩)
          fun s _ => flattenBlanks_return_newline
      rename_i hcrlf
      split
      · rename_i hblank
        simp only [Bool.or_eq_true, decide_eq_true_eq] at hblank
        refine valueChars_readsAt (p := [c]) ih hclean hlen hrest (by simp) (hrun ?_) fun s hs => ?_
        · rcases hblank with (rfl | rfl) | rfl <;> decide
        · rw [List.singleton_append]
          rcases hblank with (rfl | rfl) | rfl
          · exact flattenBlanks_cons (by decide)
          · exact flattenBlanks_cons (by decide)
          · refine flattenBlanks_return fun hnewline => hcrlf ?_
            obtain ⟨more', rfl⟩ := hs
            rw [List.head?_append, hnewline]
            rfl
      rename_i hblank
      simp only [Bool.or_eq_true, decide_eq_true_eq, not_or] at hblank
      split
      · rename_i hillegal
        refine hfail ⟨hc, hamp, fun h => ?_⟩
        simp [(h c List.mem_cons_self).1] at hillegal
      · rename_i hlegal
        refine valueChars_readsAt (p := [c]) ih hclean hlen hrest (by simp)
          (hrun (by simpa using hlegal)) fun s hs => ?_
        rw [List.singleton_append, flattenBlanks_cons hblank.2]
        split
        · rename_i hspace
          simp only [isBlankChar, Bool.or_eq_true, decide_eq_true_eq, hblank, or_false] at hspace
          rw [hspace]
        · rfl

/-- An attribute value. -/
theorem attributeValue_reads : (attributeValue bound).Reads bound fun t v _ =>
    AttributeValue t v := by
  intro cur hclean hlen
  refine ReadsAt.cursor ?_
  cases hrest : cur.rest with
  | nil =>
    refine ReadsAt.fail.congr fun t v rest ht => iff_of_false id ?_
    rintro ⟨q, u, w, -, -, rfl, -⟩
    rw [hrest] at ht
    cases ht
  | cons q more =>
    dsimp only
    split
    · rename_i hq
      simp only [Bool.and_eq_true, bne_iff_ne, ne_eq] at hq
      refine ReadsAt.fail_bind.congr fun t v rest ht => iff_of_false id ?_
      rintro ⟨q', u, w, hq', -, rfl, -⟩
      rw [hrest] at ht
      obtain ⟨rfl, -⟩ := List.cons.inj ht
      exact absurd hq' (not_or.mpr hq)
    · rename_i hq
      have hq' : q = '"' ∨ q = '\'' := by
        simp only [Bool.and_eq_true, bne_iff_ne, ne_eq] at hq
        tauto
      have hmore : more.length ≤ bound := by
        rw [hrest, List.length_cons] at hlen
        omega
      refine ReadsAt.congr (advance_readsAt (t := [q]) hclean hrest
        ((valueRest_reads hq' bound []).mono hmore)) fun t v rest ht => ?_
      constructor
      · rintro ⟨s, rfl, u, w, rfl, hw, rfl⟩
        exact ⟨q, u, w, hq', hw, by simp, rfl⟩
      · rintro ⟨q', u, w, -, hw, rfl, rfl⟩
        rw [hrest] at ht
        obtain ⟨rfl, -⟩ := List.cons.inj ht
        exact ⟨u ++ [q], by simp, u, w, rfl, hw, rfl⟩

end Reader

end Stencil.Markup
