import Mathlib.Computability.Language
import Stencil.Proofs.Expression.Delimiters
import Stencil.Proofs.Expression.Engine

/-!
# The lexemes of expressions

What the engine for expressions over the data of a template accepts, without the lexer. Each kind of
lexemes is a regular language, and a source is split by longest match: from the left, each lexeme is
the longest word of all these languages at the front of what is left. No two kinds have words with
the same first character, so a kind has to be compared with itself only, and a source is split in at
most one way.

A comparison takes up to two equality signs along. What is left is an equality sign by itself, which
assigns; all other ones are part of a longer lexeme.

## Main definitions

* `Lexeme`, `Lexeme.Kind.language` – the lexemes, and the words of a kind
* `Splits` – a source split by longest match
* `Assigned` – where equality signs by themselves may stand
* `Lexeme.code` – what becomes of a lexeme

## Main results

* `Token.reads_of_next`, `Token.not_mem_of_next` – the lexer takes the longest lexeme, if there is
  one
* `compileVariables_eq_ok_iff` – what is compiled, and to what
-/

namespace Stencil.Expression

open scoped Computability

/-- The kinds of lexemes. -/
inductive Lexeme.Kind where
  /-- A single blank. -/
  | blank
  /-- A quoted literal. -/
  | literal
  /-- A variable with the names of its parts. -/
  | entry
  /-- A name or a keyword. -/
  | word
  /-- A number. -/
  | number
  /-- A comparison, or an equality sign by itself. -/
  | comparison
  /-- Any other operator or separator. -/
  | operator
  deriving DecidableEq, Repr

/-- A lexeme: a word of a kind. -/
structure Lexeme where
  /-- The kind. -/
  kind : Lexeme.Kind
  /-- The word. -/
  text : List Char
  deriving DecidableEq, Repr

/-! ### Languages -/

/-- One character of a class. -/
def one (p : Char → Prop) : Language Char := {l | ∃ c, p c ∧ l = [c]}

/-- Names. -/
def names : Language Char := one (isNameStart ·) * (one (isNameChar ·))∗

/-- What stands in a literal: any character behind a backslash, and any other one than that and the
quote. -/
def piece (quote : Char) : Language Char :=
  one (· = '\\') * one (fun _ => True) + one fun c => c ≠ quote ∧ c ≠ '\\'

/-- A literal behind its first quote. -/
def literalEnd (quote : Char) : Language Char := (piece quote)∗ * one (· = quote)

/-- Names behind dots. -/
def parts : Language Char := (one (· = '.') * names)∗

namespace Lexeme.Kind

/-- The words of a kind. -/
def language : Kind → Language Char
  | blank => one (isBlank ·)
  | literal => one (· = '\'') * literalEnd '\'' + one (· = '"') * literalEnd '"'
  | entry => one (· = '$') * (names * parts)
  | word => names
  | number => one (isDigit ·) * (one (isNumberChar ·))∗
  | comparison => one (isComparison ·) * (1 + {['=']} + {['=', '=']})
  | operator => one (isOperator ·)

/-- The first characters of the words of a kind. -/
def heads : Kind → Char → Bool
  | blank => isBlank
  | literal => fun c => c == '\'' || c == '"'
  | entry => (· == '$')
  | word => isNameStart
  | number => isDigit
  | comparison => isComparison
  | operator => isOperator

end Lexeme.Kind

/-! ### Longest match -/

/-- A lexeme at the front of a source, which is longer than any other one there. -/
structure Lexeme.Leads (l : Lexeme) (cs rest : List Char) : Prop where
  mem : l.text ∈ l.kind.language
  split : cs = l.text ++ rest
  longest : ∀ k : Kind, ∀ m ∈ k.language, m <+: cs → m.length ≤ l.text.length

/-- A source and its lexemes, by longest match from the left. -/
inductive Splits : List Char → List Lexeme → Prop
  | nil : Splits [] []
  | cons {l : Lexeme} {ls : List Lexeme} {cs rest : List Char} :
      l.Leads cs rest → Splits rest ls → Splits cs (l :: ls)

/-- An equality sign by itself. -/
def Lexeme.assign : Lexeme := ⟨.comparison, ['=']⟩

/-- An equality sign by itself occurs at most once, and only as the second lexeme other than blanks,
directly behind a variable. -/
structure Assigned (ls : List Lexeme) : Prop where
  once : ls.count .assign ≤ 1
  second : ∀ before after, ls.filter (·.kind ≠ .blank) = before ++ .assign :: after →
    ∃ v : Lexeme, v.kind = .entry ∧ before = [v]

/-- What becomes of a lexeme. A variable is an entry of the data, its parts are entries of entries,
and three words, in any case, are logical operators. -/
def Lexeme.code (l : Lexeme) : List Char :=
  match l.kind with
  | .entry =>
    "$this->data".toList ++ (l.text.tail.splitOn '.').flatMap fun n =>
      "['".toList ++ n ++ "']".toList
  | .word =>
    if l.text.map Char.toLower = "and".toList then "&&".toList
    else if l.text.map Char.toLower = "or".toList then "||".toList
    else if l.text.map Char.toLower = "not".toList then "!".toList
    else l.text
  | _ => l.text

variable {c d quote : Char} {cs rest l m text : List Char} {K : Language Char} {p : Char → Bool}

/-! ### Words of the languages -/

theorem cons_mem_one_mul {p : Char → Prop} : c :: l ∈ one p * K ↔ p c ∧ l ∈ K := by
  rw [Language.mem_mul]
  constructor
  · rintro ⟨_, ⟨d, hd, rfl⟩, m, hm, heq⟩
    obtain ⟨rfl, rfl⟩ := List.cons.inj heq
    exact ⟨hd, hm⟩
  · rintro ⟨hc, hl⟩
    exact ⟨[c], ⟨c, hc, rfl⟩, l, hl, rfl⟩

theorem exists_of_mem_one_mul {p : Char → Prop} (h : l ∈ one p * K) :
    ∃ c m, l = c :: m ∧ p c ∧ m ∈ K := by
  obtain ⟨_, ⟨c, hc, rfl⟩, m, hm, rfl⟩ := Language.mem_mul.mp h
  exact ⟨c, m, rfl, hc, hm⟩

/-- The words over a class of characters. -/
theorem mem_run : l ∈ (one (p ·))∗ ↔ ∀ c ∈ l, p c := by
  rw [Language.mem_kstar]
  constructor
  · rintro ⟨L, rfl, hL⟩ c hc
    obtain ⟨y, hy, hc⟩ := List.mem_flatten.mp hc
    obtain ⟨d, hd, rfl⟩ := hL y hy
    exact List.mem_singleton.mp hc ▸ hd
  · intro h
    refine ⟨l.map ([·]), (List.flatMap_singleton' l).symm, fun y hy => ?_⟩
    obtain ⟨c, hc, rfl⟩ := List.mem_map.mp hy
    exact ⟨c, h c hc, rfl⟩

theorem literalEnd_eq : literalEnd quote = one (· = quote) + piece quote * literalEnd quote := by
  conv_lhs => rw [literalEnd, ← Language.one_add_self_mul_kstar_eq_kstar]
  rw [add_mul, one_mul, mul_assoc, ← literalEnd]

theorem mem_literalEnd : l ∈ literalEnd quote ↔ l = [quote] ∨
    (∃ c m, l = '\\' :: c :: m ∧ m ∈ literalEnd quote) ∨
      ∃ c m, l = c :: m ∧ (c ≠ quote ∧ c ≠ '\\') ∧ m ∈ literalEnd quote := by
  conv_lhs => rw [literalEnd_eq, piece, add_mul, mul_assoc]
  rw [Language.mem_add, Language.mem_add]
  refine or_congr ⟨?_, ?_⟩ (or_congr ⟨fun h => ?_, ?_⟩ ⟨exists_of_mem_one_mul, ?_⟩)
  · rintro ⟨c, rfl, rfl⟩
    rfl
  · rintro rfl
    exact ⟨quote, rfl, rfl⟩
  · obtain ⟨_, l, rfl, rfl, hl⟩ := exists_of_mem_one_mul h
    obtain ⟨c, m, rfl, -, hm⟩ := exists_of_mem_one_mul hl
    exact ⟨c, m, rfl, hm⟩
  · rintro ⟨c, m, rfl, hm⟩
    exact cons_mem_one_mul.mpr ⟨rfl, cons_mem_one_mul.mpr ⟨trivial, hm⟩⟩
  · rintro ⟨c, m, rfl, hc, hm⟩
    exact cons_mem_one_mul.mpr ⟨hc, hm⟩

theorem parts_eq : parts = 1 + one (· = '.') * (names * parts) := by
  conv_lhs => rw [parts, ← Language.one_add_self_mul_kstar_eq_kstar]
  rw [mul_assoc, ← parts]

theorem mem_parts (h : l ∈ parts) : l = [] ∨ ∃ d m, l = '.' :: d :: m ∧ isNameStart d := by
  rw [parts_eq, Language.mem_add] at h
  refine h.imp_right fun h => ?_
  obtain ⟨_, l, rfl, rfl, hl⟩ := exists_of_mem_one_mul h
  rw [names, mul_assoc] at hl
  obtain ⟨d, m, rfl, hd, -⟩ := exists_of_mem_one_mul hl
  exact ⟨d, m, rfl, hd⟩

/-- The dot of a part does not belong to the name in front of it. -/
theorem isNameChar_of_cons_mem_parts (h : c :: m ∈ parts) : isNameChar c = false := by
  rcases mem_parts h with h | ⟨_, _, h, -⟩
  · cases h
  · obtain ⟨rfl, -⟩ := List.cons.inj h
    decide

namespace Lexeme.Kind

variable {k k' : Kind}

/-- A word of a kind begins with one of its characters. -/
theorem exists_of_mem_language (h : l ∈ k.language) : ∃ c m, l = c :: m ∧ k.heads c := by
  cases k with
  | blank | operator =>
    obtain ⟨c, hc, rfl⟩ := h
    exact ⟨c, [], rfl, hc⟩
  | literal =>
    rcases (Language.mem_add _ _ _).mp h with h | h <;>
      (obtain ⟨c, m, rfl, rfl, -⟩ := exists_of_mem_one_mul h; exact ⟨_, m, rfl, rfl⟩)
  | entry =>
    obtain ⟨c, m, rfl, rfl, -⟩ := exists_of_mem_one_mul h
    exact ⟨_, m, rfl, rfl⟩
  | word | number | comparison =>
    obtain ⟨c, m, rfl, hc, -⟩ := exists_of_mem_one_mul h
    exact ⟨c, m, rfl, hc⟩

theorem mem_literal (hc : literal.heads c) : c :: m ∈ literal.language ↔ m ∈ literalEnd c := by
  rw [language, Language.mem_add, cons_mem_one_mul, cons_mem_one_mul]
  rcases (by simpa [heads] using hc : c = '\'' ∨ c = '"') with rfl | rfl <;> simp

/-- The codes of the first characters of a kind. -/
def codes : Kind → Nat → Prop
  | blank, n => n = 9 ∨ n = 10 ∨ n = 13 ∨ n = 32
  | literal, n => n = 34 ∨ n = 39
  | entry, n => n = 36
  | word, n => n = 95 ∨ 97 ≤ n ∧ n ≤ 122 ∨ 65 ≤ n ∧ n ≤ 90
  | number, n => 48 ≤ n ∧ n ≤ 57
  | comparison, n => n = 33 ∨ 60 ≤ n ∧ n ≤ 62
  | operator, n => n = 37 ∨ n = 38 ∨ 40 ≤ n ∧ n ≤ 47 ∨ n = 58 ∨ n = 63 ∨ n = 91 ∨ n = 93 ∨ n = 124

theorem codes_of_heads (h : k.heads c) : k.codes c.toNat := by
  cases k <;>
    · simp [heads, isBlank, isNameStart, isDigit, isComparison, isOperator,
        Char.le_def, Char.ext_iff, UInt32.le_iff_toNat_le, ← UInt32.toNat_inj] at h
      simp only [codes]
      omega

/-- No two kinds have words with the same first character. -/
theorem heads_unique (h : k.heads c) (h' : k'.heads c) : k = k' := by
  have hcodes := codes_of_heads h
  have hcodes' := codes_of_heads h'
  cases k <;> cases k' <;> first
    | rfl
    | simp only [codes] at hcodes hcodes'
      omega

end Lexeme.Kind

/-! ### The longest word of a language -/

/-- The longest word of a language at the front of a source. -/
structure Longest (K : Language Char) (l cs : List Char) : Prop where
  mem : l ∈ K
  front : l <+: cs
  le : ∀ m ∈ K, m <+: cs → m.length ≤ l.length

namespace Longest

theorem one : Longest 1 [] cs where
  mem := Language.nil_mem_one
  front := List.nil_prefix
  le m hm _ := by rw [(Language.mem_one m).mp hm]

/-- A character of a class, and what may follow it. -/
theorem cons {p : Char → Prop} (hc : p c) (h : Longest K l cs) :
    Longest (Expression.one p * K) (c :: l) (c :: cs) where
  mem := cons_mem_one_mul.mpr ⟨hc, h.mem⟩
  front := List.cons_prefix_cons.mpr ⟨rfl, h.front⟩
  le m hm hfront := by
    obtain ⟨d, m, rfl, -, hm⟩ := exists_of_mem_one_mul hm
    exact Nat.succ_le_succ (h.le m hm (List.cons_prefix_cons.mp hfront).2)

/-- What may be left out. -/
theorem one_add (h : Longest K l cs) : Longest (1 + K) l cs where
  mem := (Language.mem_add _ _ _).mpr (.inr h.mem)
  front := h.front
  le m hm hfront := by
    rcases (Language.mem_add _ _ _).mp hm with hm | hm
    · rw [(Language.mem_one m).mp hm]
      exact Nat.zero_le _
    · exact h.le m hm hfront

/-- All characters of a class, and what may follow them if it does not begin with such a
character. -/
theorem run_mul (hK : ∀ c m, c :: m ∈ K → p c = false) (h : Longest K l (cs.dropWhile p)) :
    Longest ((Expression.one (p ·))∗ * K) (cs.takeWhile p ++ l) cs where
  mem := Language.append_mem_mul (mem_run.mpr (List.all_eq_true.mp List.all_takeWhile)) h.mem
  front := by
    obtain ⟨after, hafter⟩ := h.front
    exact ⟨after, by rw [List.append_assoc, hafter, List.takeWhile_append_dropWhile]⟩
  le m hm hfront := by
    obtain ⟨u, hu, v, hv, rfl⟩ := Language.mem_mul.mp hm
    obtain ⟨after, rfl⟩ := hfront
    rw [List.append_assoc, List.takeWhile_append_of_pos (mem_run.mp hu)]
    cases v with
    | nil => simp
    | cons c v =>
      have hc := hK c v hv
      have hle := h.le _ hv (by
        rw [List.append_assoc, List.dropWhile_append_of_pos (mem_run.mp hu), List.cons_append,
          List.dropWhile_cons_of_neg (by simp [hc])]
        exact ⟨after, rfl⟩)
      simp only [List.length_append]
      omega

theorem run : Longest ((Expression.one (p ·))∗) (cs.takeWhile p) cs := by
  have h : Longest ((Expression.one (p ·))∗ * 1) (cs.takeWhile p ++ []) cs :=
    run_mul (fun c m hm => absurd hm (by simp [Language.mem_one])) one
  rwa [mul_one, List.append_nil] at h

/-- The words of a language are as long as the longest one. -/
theorem unique (h : Longest K l cs) (h' : Longest K m cs) : l = m :=
  (List.prefix_of_prefix_length_le h.front h'.front (h'.le l h.mem h.front)).eq_of_length
    (Nat.le_antisymm (h'.le l h.mem h.front) (h.le m h'.mem h'.front))

end Longest

/-! ### Parts of variables, literals and comparisons -/

/-- The parts of a variable are all names behind dots. -/
theorem longest_parts (cs : List Char) :
    Longest parts ((Token.path cs).1.flatMap ('.' :: ·)) cs := by
  have hstop (cs : List Char) (h : ∀ d ds, cs = '.' :: d :: ds → isNameStart d = false) :
      Longest parts [] cs := by
    refine ⟨Language.nil_mem_kstar _, List.nil_prefix, fun m hm hfront => ?_⟩
    rcases mem_parts hm with rfl | ⟨d, m, rfl, hd⟩
    · exact Nat.le_refl _
    · obtain ⟨after, rfl⟩ := hfront
      rw [h d _ rfl] at hd
      cases hd
  fun_induction Token.path cs with
  | case1 c cs hc names rest hpath ih =>
    rw [hpath] at ih
    rw [parts_eq, Expression.names, mul_assoc]
    exact .one_add (.cons rfl (.cons hc (.run_mul (fun _ _ => isNameChar_of_cons_mem_parts) ih)))
  | case2 c cs hc => exact hstop _ fun d ds h => by simp_all
  | case3 cs h => exact hstop cs fun d ds heq => (h d ds heq).elim

/-- A literal is read up to its closing quote, if it has one. -/
theorem literalTail_eq_some_iff (hquote : quote ≠ '\\') :
    Token.literalTail quote cs = some (text, rest) ↔ cs = text ++ rest ∧
    text ∈ literalEnd quote := by
  have hslash {d : Char} {ds : List Char} (h₁ : d = '\\' → ds = [] → False)
      (h₂ : ∀ e es, d = '\\' → ds = e :: es → False) : d ≠ '\\' := fun hd => by
    cases ds with
    | nil => exact h₁ hd rfl
    | cons e es => exact h₂ e es hd rfl
  fun_induction Token.literalTail quote cs generalizing text with
  | case1 =>
    refine iff_of_false (by simp) ?_
    rintro ⟨heq, htext⟩
    obtain ⟨rfl, -⟩ := List.append_eq_nil_iff.mp heq.symm
    rcases mem_literalEnd.mp htext with h | ⟨_, _, h, -⟩ | ⟨_, _, h, -⟩ <;> cases h
  | case2 =>
    refine iff_of_false (by simp) ?_
    rintro ⟨heq, htext⟩
    rcases mem_literalEnd.mp htext with rfl | ⟨c, m, rfl, -⟩ | ⟨c, m, rfl, ⟨-, hc⟩, -⟩
    · exact absurd (List.cons.inj heq).1.symm hquote
    · simp at heq
    · exact absurd (List.cons.inj heq).1.symm hc
  | case3 c cs ih =>
    constructor
    · intro h
      obtain ⟨⟨m, after⟩, hread, heq⟩ := Option.map_eq_some_iff.mp h
      obtain ⟨rfl, rfl⟩ := Prod.mk.inj heq
      obtain ⟨rfl, hm⟩ := ih.mp hread
      exact ⟨rfl, mem_literalEnd.mpr (.inr (.inl ⟨c, m, rfl, hm⟩))⟩
    · rintro ⟨heq, htext⟩
      rcases mem_literalEnd.mp htext with rfl | ⟨c', m, rfl, hm⟩ | ⟨c', m, rfl, ⟨-, hc⟩, -⟩
      · exact absurd (List.cons.inj heq).1.symm hquote
      · obtain ⟨rfl, rfl⟩ : c = c' ∧ cs = m ++ rest := by simpa using heq
        rw [ih.mpr ⟨rfl, hm⟩]
        rfl
      · exact absurd (List.cons.inj heq).1.symm hc
  | case4 cs h₁ h₂ =>
    constructor
    · intro h
      obtain ⟨rfl, rfl⟩ := Prod.mk.inj (Option.some.inj h)
      exact ⟨rfl, mem_literalEnd.mpr (.inl rfl)⟩
    · rintro ⟨heq, htext⟩
      rcases mem_literalEnd.mp htext with rfl | ⟨c', m, rfl, -⟩ | ⟨c', m, rfl, ⟨hc, -⟩, -⟩
      · rw [(List.cons.inj heq).2]
        rfl
      · exact absurd (List.cons.inj heq).1 hquote
      · exact absurd (List.cons.inj heq).1.symm hc
  | case5 c cs h₁ h₂ hc ih =>
    constructor
    · intro h
      obtain ⟨⟨m, after⟩, hread, heq⟩ := Option.map_eq_some_iff.mp h
      obtain ⟨rfl, rfl⟩ := Prod.mk.inj heq
      obtain ⟨rfl, hm⟩ := ih.mp hread
      exact ⟨rfl, mem_literalEnd.mpr (.inr (.inr ⟨c, m, rfl, ⟨hc, hslash h₁ h₂⟩, hm⟩))⟩
    · rintro ⟨heq, htext⟩
      rcases mem_literalEnd.mp htext with rfl | ⟨c', m, rfl, -⟩ | ⟨c', m, rfl, -, hm⟩
      · exact absurd (List.cons.inj heq).1 hc
      · exact absurd (List.cons.inj heq).1 (hslash h₁ h₂)
      · obtain ⟨rfl, rfl⟩ := List.cons.inj heq
        rw [ih.mpr ⟨rfl, hm⟩]
        rfl

/-- A literal is the only one that begins where it begins. -/
theorem longest_literal (hc : Lexeme.Kind.literal.heads c)
    (h : Token.literalTail c cs = some (text, rest)) :
    Longest Lexeme.Kind.literal.language (c :: text) (c :: cs) := by
  have hslash : c ≠ '\\' := by
    rintro rfl
    cases hc
  obtain ⟨heq, htext⟩ := (literalTail_eq_some_iff hslash).mp h
  refine ⟨(Lexeme.Kind.mem_literal hc).mpr htext, ⟨rest, by rw [heq]; rfl⟩, fun m hm hfront => ?_⟩
  obtain ⟨d, m, rfl, -⟩ := Lexeme.Kind.exists_of_mem_language hm
  obtain ⟨rfl, after, hafter⟩ := List.cons_prefix_cons.mp hfront
  rw [(literalTail_eq_some_iff hslash).mpr ⟨hafter.symm, (Lexeme.Kind.mem_literal hc).mp hm⟩] at h
  exact Nat.le_of_eq (congrArg (·.1.length + 1) (Option.some.inj h))

/-- A comparison takes as many equality signs along as it can. -/
theorem longest_equalsTail (cs : List Char) :
    Longest (1 + {['=']} + {['=', '=']}) (Token.equalsTail cs).1 cs := by
  have hmem : ∀ m, m ∈ (1 + {['=']} + {['=', '=']} : Language Char) ↔
      m = [] ∨ m = ['='] ∨ m = ['=', '='] := fun m => by
    rw [Language.mem_add, Language.mem_add, or_assoc]
    rfl
  fun_cases Token.equalsTail cs with
  | case1 cs =>
    refine ⟨(hmem _).mpr (.inr (.inr rfl)), ⟨cs, rfl⟩, fun m hm _ => ?_⟩
    rcases (hmem m).mp hm with rfl | rfl | rfl <;> simp
  | case2 cs h =>
    refine ⟨(hmem _).mpr (.inr (.inl rfl)), ⟨cs, rfl⟩, fun m hm hfront => ?_⟩
    rcases (hmem m).mp hm with rfl | rfl | rfl
    · simp
    · simp
    · obtain ⟨after, hafter⟩ := hfront
      exact absurd (List.cons.inj hafter).2.symm (h after)
  | case3 =>
    rename_i h
    refine ⟨(hmem _).mpr (.inl rfl), List.nil_prefix, fun m hm hfront => ?_⟩
    obtain ⟨after, hafter⟩ := hfront
    rcases (hmem m).mp hm with rfl | rfl | rfl
    · simp
    · exact (h _ hafter.symm).elim
    · exact (h _ hafter.symm).elim

theorem equalsTail_eq_nil_iff : (Token.equalsTail cs).1 = [] ↔ cs.head? ≠ some '=' := by
  fun_cases Token.equalsTail cs with
  | case1 | case2 => simp
  | case3 =>
    rename_i h
    cases cs with
    | nil => simp
    | cons c cs =>
      have hc : c ≠ '=' := by
        rintro rfl
        exact h cs rfl
      simpa using hc

theorem equalsTail_append (cs : List Char) :
    (Token.equalsTail cs).1 ++ (Token.equalsTail cs).2 = cs := by
  fun_cases Token.equalsTail cs <;> rfl

/-! ### Tokens -/

namespace Token

/-- The lexeme of a token. -/
def lexeme : Token → Lexeme
  | blank c => ⟨.blank, [c]⟩
  | quoted text => ⟨.literal, text⟩
  | entry path => ⟨.entry, '$' :: ['.'].intercalate path⟩
  | word name => ⟨.word, name⟩
  | number text => ⟨.number, text⟩
  | assign => .assign
  | operator text => ⟨if text.head?.any isComparison then .comparison else .operator, text⟩

/-- What is known about a token that was read. -/
structure Reads (t : Token) (cs rest : List Char) : Prop where
  leads : t.lexeme.Leads cs rest
  code : t.lexeme.code = t.code
  ne : t ≠ .operator ['=']

/-- A kind has to be compared with itself only. -/
theorem leads_of_longest {k : Lexeme.Kind} (hc : k.heads c) (h : Longest k.language l (c :: cs))
    (hsplit : c :: cs = l ++ rest) : Lexeme.Leads ⟨k, l⟩ (c :: cs) rest where
  mem := h.mem
  split := hsplit
  longest k' m hm hfront := by
    obtain ⟨d, m, rfl, hd⟩ := Lexeme.Kind.exists_of_mem_language hm
    obtain ⟨rfl, -⟩ := List.cons_prefix_cons.mp hfront
    obtain rfl := Lexeme.Kind.heads_unique hc hd
    exact h.le _ hm hfront

/-- The names of a variable. -/
theorem entry_text (name : List Char) (path : List (List Char)) :
    ['.'].intercalate (name :: path) = name ++ path.flatMap ('.' :: ·) := by
  induction path generalizing name with
  | nil => simp [List.intercalate]
  | cons n path ih =>
    rw [List.flatMap_cons, List.cons_append, ← ih]
    rfl

theorem code_lexeme_entry {path : List (List Char)} (hne : path ≠ [])
    (h : ∀ name ∈ path, ∀ c ∈ name, isNameChar c) :
    (entry path).lexeme.code = (entry path).code := by
  have hdot : ∀ name ∈ path, '.' ∉ name := fun name hname hmem => by
    have hchar := h name hname _ hmem
    revert hchar
    decide
  have hsplit : (['.'].intercalate path).splitOn '.' = path := List.splitOn_intercalate '.' hdot hne
  exact congrArg (fun path => "$this->data".toList ++
    path.flatMap fun n : List Char => "['".toList ++ n ++ "']".toList) hsplit

theorem code_lexeme_word (name : List Char) : (word name).lexeme.code = (word name).code := by
  change _ = (keyword? name).getD name
  dsimp only [keyword?]
  split
  · rename_i h
    exact if_pos h
  split
  · rename_i h₁ h
    exact (if_neg h₁).trans (if_pos h)
  split
  · rename_i h₁ h₂ h
    exact (if_neg h₁).trans ((if_neg h₂).trans (if_pos h))
  · rename_i h₁ h₂ h
    exact (if_neg h₁).trans ((if_neg h₂).trans (if_neg h))

theorem code_lexeme_operator (text : List Char) :
    (operator text).lexeme.code = (operator text).code := by
  rw [lexeme]
  split <;> rfl

/-- A variable with all of its parts. -/
theorem reads_entry (hd : isNameStart d) : Reads
    (.entry ((d :: cs.takeWhile isNameChar) :: (path (cs.dropWhile isNameChar)).1))
    ('$' :: d :: cs) (path (cs.dropWhile isNameChar)).2 := by
  obtain ⟨hsplit, hnames⟩ := path_spec (cs.dropWhile isNameChar)
  have hname : ∀ c ∈ d :: cs.takeWhile isNameChar, isNameChar c :=
    List.forall_mem_cons.mpr ⟨by rw [isNameChar, hd]; rfl, List.all_eq_true.mp List.all_takeWhile⟩
  have hwhole : Longest (names * parts) (d :: (cs.takeWhile isNameChar ++
      (path (cs.dropWhile isNameChar)).1.flatMap ('.' :: ·))) (d :: cs) := by
    rw [names, mul_assoc]
    exact .cons (p := (isNameStart ·)) hd (.run_mul (fun _ _ => isNameChar_of_cons_mem_parts)
      (longest_parts (cs.dropWhile isNameChar)))
  have hall := List.forall_mem_cons.mpr ⟨hname, hnames⟩
  refine ⟨?_, code_lexeme_entry (List.cons_ne_nil _ _) hall, by simp⟩
  rw [lexeme, entry_text]
  refine leads_of_longest (k := .entry) rfl (.cons (p := (· = '$')) rfl hwhole) ?_
  rw [List.cons_append, List.cons_append, List.cons_append, List.append_assoc, ← hsplit,
    List.takeWhile_append_dropWhile]

/-- A comparison, or an operator of one character. -/
theorem reads_operator {k : Lexeme.Kind} (hk : k = .comparison ∨ k = .operator) (hc : k.heads c)
    (h : Longest k.language (c :: text) (c :: cs)) (hsplit : cs = text ++ rest)
    (hne : c :: text ≠ ['=']) : Reads (.operator (c :: text)) (c :: cs) rest := by
  have hkind : (operator (c :: text)).lexeme = ⟨k, c :: text⟩ := by
    have hif : (if isComparison c then Lexeme.Kind.comparison else .operator) = k := by
      split
      · rename_i hcomparison
        exact Lexeme.Kind.heads_unique (k := .comparison) hcomparison hc
      · rename_i hcomparison
        rcases hk with rfl | rfl
        · exact absurd hc hcomparison
        · rfl
    exact congrArg (Lexeme.mk · (c :: text)) hif
  refine ⟨?_, code_lexeme_operator _, fun h => hne (operator.inj h)⟩
  rw [hkind]
  exact leads_of_longest hc h (by rw [hsplit]; rfl)

/-- The lexer takes the longest lexeme, and keeps what its code needs. -/
theorem reads_of_next {t : Token} (h : next c cs = .ok (t, rest)) : t.Reads (c :: cs) rest := by
  unfold next at h
  split at h
  · rename_i hc
    obtain ⟨rfl, rfl⟩ := Prod.mk.inj (Except.ok.inj h)
    have hone : Longest (Expression.one (Expression.isBlank ·) * 1) [c] (c :: cs) := .cons hc .one
    rw [mul_one] at hone
    exact ⟨leads_of_longest (k := .blank) hc hone rfl, rfl, by simp⟩
  split at h
  · rename_i hc
    split at h
    · rename_i text rest' htail
      obtain ⟨rfl, rfl⟩ := Prod.mk.inj (Except.ok.inj h)
      refine ⟨leads_of_longest (k := .literal) hc (longest_literal hc htail) ?_, rfl, by simp⟩
      rw [(breaks_literalTail htail).1]
      rfl
    · cases h
  split at h
  · rename_i hdollar
    obtain rfl := eq_of_beq hdollar
    split at h
    · rename_i d ds
      split at h
      · rename_i hd
        obtain ⟨rfl, rfl⟩ := Prod.mk.inj (Except.ok.inj h)
        exact reads_entry hd
      · cases h
    · cases h
  split at h
  · rename_i hc
    obtain ⟨rfl, rfl⟩ := Prod.mk.inj (Except.ok.inj h)
    refine ⟨leads_of_longest (k := .word) hc (.cons hc .run) ?_, code_lexeme_word _, by simp⟩
    rw [List.cons_append, List.takeWhile_append_dropWhile]
  split at h
  · rename_i hc
    obtain ⟨rfl, rfl⟩ := Prod.mk.inj (Except.ok.inj h)
    refine ⟨leads_of_longest (k := .number) hc (.cons hc .run) ?_, rfl, by simp⟩
    rw [List.cons_append, List.takeWhile_append_dropWhile]
  split at h
  · rename_i hassign
    obtain ⟨rfl, rfl⟩ := Prod.mk.inj (Except.ok.inj h)
    obtain ⟨rfl, hnext⟩ : c = '=' ∧ cs.head? ≠ some '=' := by simpa using hassign
    have hlongest := Longest.cons (p := (isComparison ·)) (by decide : isComparison '=')
      (longest_equalsTail cs)
    rw [equalsTail_eq_nil_iff.mpr hnext] at hlongest
    exact ⟨leads_of_longest (k := .comparison) rfl hlongest rfl, rfl, by simp⟩
  have hlone : c :: (equalsTail cs).1 ≠ ['='] := by
    intro heq
    obtain ⟨rfl, hnil⟩ := List.cons.inj heq
    simp_all [equalsTail_eq_nil_iff]
  split at h
  · rename_i hc
    obtain ⟨rfl, rfl⟩ := Prod.mk.inj (Except.ok.inj h)
    exact reads_operator (.inl rfl) hc (.cons hc (longest_equalsTail cs))
      (equalsTail_append cs).symm hlone
  split at h
  · rename_i hc
    obtain ⟨rfl, rfl⟩ := Prod.mk.inj (Except.ok.inj h)
    have hone : Longest (Expression.one (isOperator ·) * 1) [c] (c :: cs) := .cons hc .one
    rw [mul_one] at hone
    exact reads_operator (.inr rfl) hc hone rfl (by rintro ⟨⟩; cases hc)
  · cases h

/-- Where the lexer stops, there is no lexeme. -/
theorem not_mem_of_next {problem : Problem} (h : next c cs = .error problem) (k : Lexeme.Kind)
    (hfront : m <+: c :: cs) : m ∉ k.language := by
  intro hmem
  obtain ⟨d, m, rfl, hd⟩ := Lexeme.Kind.exists_of_mem_language hmem
  obtain ⟨rfl, after, rfl⟩ := List.cons_prefix_cons.mp hfront
  unfold next at h
  split at h
  · cases h
  rename_i hblank
  split at h
  · rename_i hquote
    obtain rfl : k = .literal := Lexeme.Kind.heads_unique hd hquote
    split at h
    · cases h
    · rename_i hnone
      have hslash : d ≠ '\\' := by
        rintro rfl
        cases hquote
      rw [(literalTail_eq_some_iff hslash).mpr ⟨rfl,
        (Lexeme.Kind.mem_literal hquote).mp hmem⟩] at hnone
      cases hnone
  rename_i hquote
  split at h
  · rename_i hdollar
    obtain rfl : k = .entry := Lexeme.Kind.heads_unique hd hdollar
    have hrest := (cons_mem_one_mul.mp hmem).2
    rw [names, mul_assoc] at hrest
    obtain ⟨c, m, rfl, hstart, -⟩ := exists_of_mem_one_mul hrest
    dsimp only [List.cons_append] at h
    rw [if_pos hstart] at h
    cases h
  rename_i hdollar
  split at h
  · cases h
  split at h
  · cases h
  split at h
  · cases h
  split at h
  · cases h
  split at h
  · cases h
  cases k <;> contradiction

end Token

/-! ### Sources -/

/-- There is no lexeme at the end. -/
theorem Lexeme.Leads.ne_nil {l : Lexeme} (h : l.Leads cs rest) : cs ≠ [] := by
  obtain ⟨c, m, htext, -⟩ := Lexeme.Kind.exists_of_mem_language h.mem
  rw [h.split, htext]
  exact List.cons_ne_nil c _

theorem Lexeme.Leads.unique {l l' : Lexeme} {rest'} (h : l.Leads cs rest) (h' : l'.Leads cs rest') :
    l = l' ∧ rest = rest' := by
  have hlength : l.text.length = l'.text.length :=
    Nat.le_antisymm (h'.longest _ _ h.mem ⟨rest, h.split.symm⟩)
      (h.longest _ _ h'.mem ⟨rest', h'.split.symm⟩)
  obtain ⟨htext, hrest⟩ := List.append_inj (h.split.symm.trans h'.split) hlength
  refine ⟨?_, hrest⟩
  obtain ⟨k, text⟩ := l
  obtain ⟨k', text'⟩ := l'
  obtain rfl : text = text' := htext
  obtain ⟨c, m, rfl, hc⟩ := Lexeme.Kind.exists_of_mem_language h.mem
  obtain ⟨_, _, heq, hc'⟩ := Lexeme.Kind.exists_of_mem_language h'.mem
  obtain ⟨rfl, -⟩ := List.cons.inj heq
  exact congrArg (Lexeme.mk · (c :: m)) (Lexeme.Kind.heads_unique hc hc')

/-- **A source is split in at most one way.** -/
theorem Splits.unique {ls ls' : List Lexeme} (h : Splits cs ls) (h' : Splits cs ls') :
    ls = ls' := by
  induction h generalizing ls' with
  | nil =>
    cases h' with
    | nil => rfl
    | cons hl _ => exact absurd rfl hl.ne_nil
  | cons hl _ ih =>
    cases h' with
    | nil => exact absurd rfl hl.ne_nil
    | cons hl' hrest =>
      obtain ⟨rfl, rfl⟩ := hl.unique hl'
      rw [ih hrest]

namespace Token

/-- The lexer reaches the end exactly where the source can be split. -/
theorem splits_iff (ls : List Lexeme) :
    Splits cs ls ↔ (lex cs).2 = none ∧ ls = (lex cs).1.map fun t => t.2.lexeme := by
  fun_induction lex cs generalizing ls with
  | case1 =>
    constructor
    · intro h
      cases h with
      | nil => exact ⟨rfl, rfl⟩
      | cons hl _ => exact absurd rfl hl.ne_nil
    · rintro ⟨-, rfl⟩
      exact .nil
  | case2 c cs problem hnext =>
    refine iff_of_false (fun h => ?_) (by simp)
    cases h with
    | cons hl _ => exact not_mem_of_next hnext _ ⟨_, hl.split.symm⟩ hl.mem
  | case3 c cs t rest hnext tokens stop hlex ih =>
    rw [hlex] at ih
    have hread := reads_of_next hnext
    constructor
    · intro h
      cases h with
      | cons hl hrest =>
        obtain ⟨rfl, rfl⟩ := hl.unique hread.leads
        obtain ⟨hstop, rfl⟩ := (ih _).mp hrest
        exact ⟨hstop, rfl⟩
    · rintro ⟨hstop, rfl⟩
      exact .cons hread.leads ((ih _).mpr ⟨hstop, rfl⟩)

/-- What the lexer has read. -/
theorem reads_of_mem_lex {left : List Char} {t : Token} (h : (left, t) ∈ (lex cs).1) :
    ∃ rest, t.Reads left rest := by
  fun_induction lex cs with
  | case1 => cases h
  | case2 => cases h
  | case3 c cs t' rest hnext tokens stop hlex ih =>
    rw [hlex] at ih
    rcases List.mem_cons.mp h with heq | h
    · obtain ⟨rfl, rfl⟩ := Prod.mk.inj heq
      exact ⟨rest, reads_of_next hnext⟩
    · exact ih h

theorem lexeme_eq_assign_iff {t : Token} (h : t ≠ .operator ['=']) :
    t.lexeme = .assign ↔ t = .assign := by
  refine ⟨fun heq => ?_, fun heq => heq ▸ rfl⟩
  have htext := congrArg Lexeme.text heq
  have hkind := congrArg Lexeme.kind heq
  cases t with
  | assign => rfl
  | operator text => exact absurd (congrArg operator htext) h
  | _ => cases hkind

theorem kind_eq_blank_iff {t : Token} : t.lexeme.kind = .blank ↔ t.isBlank := by
  cases t with
  | operator text =>
    refine iff_of_false ?_ (by simp [isBlank])
    simp only [lexeme]
    split <;> decide
  | _ => simp [lexeme, isBlank, Lexeme.assign]

theorem kind_eq_entry_iff {t : Token} : t.lexeme.kind = .entry ↔ ∃ path, t = .entry path := by
  cases t with
  | operator text =>
    refine iff_of_false ?_ (by simp)
    simp only [lexeme]
    split <;> decide
  | _ => simp [lexeme, Lexeme.assign]

/-- What stands in front of an element of a list, if there is one element more in front. -/
theorem forall_append_cons {α : Type} {a x : α} {xs : List α} {P : List α → Prop} :
    (∀ pre post, x :: xs = pre ++ a :: post → P pre) ↔
      (x = a → P []) ∧ ∀ pre post, xs = pre ++ a :: post → P (x :: pre) := by
  constructor
  · intro h
    refine ⟨?_, fun pre post heq => h (x :: pre) post (by rw [heq]; rfl)⟩
    rintro rfl
    exact h [] xs rfl
  · rintro ⟨hnil, hcons⟩ pre post heq
    cases pre with
    | nil => exact hnil (List.cons.inj heq).1
    | cons y pre =>
      obtain ⟨rfl, htail⟩ := List.cons.inj heq
      exact hcons pre post htail

/-- All signs of assignments are allowed where each is the second lexeme other than blanks, behind a
variable. -/
theorem badAssignment?_eq_none_iff {before : List Token} {tokens : List (List Char × Token)}
    (hne : ∀ t ∈ tokens, t.2 ≠ .operator ['=']) :
    badAssignment? before tokens = none ↔ ∀ pre post,
      (tokens.map (·.2.lexeme)).filter (·.kind ≠ .blank) = pre ++ .assign :: post →
        ∃ v : Lexeme, v.kind = .entry ∧ (before.map lexeme).reverse ++ pre = [v] := by
  have hpush (t : Token) (before : List Token) (pre : List Lexeme) :
      ((t :: before).map lexeme).reverse ++ pre =
      (before.map lexeme).reverse ++ t.lexeme :: pre := by
    rw [List.map_cons, List.reverse_cons, List.append_assoc]
    rfl
  fun_induction badAssignment? before tokens with
  | case1 => simp
  | case2 left rest path ih =>
    refine (ih (List.forall_mem_cons.mp hne).2).trans ?_
    rw [List.map_cons (l := rest), List.filter_cons_of_pos (by simp [lexeme, Lexeme.assign]),
      forall_append_cons]
    simp only [hpush]
    exact (and_iff_right fun _ => ⟨_, rfl, rfl⟩).symm
  | case3 left rest before hbefore =>
    refine iff_of_false (by simp) fun h => ?_
    obtain ⟨v, hv, heq⟩ := h [] _ (List.filter_cons_of_pos (by simp [lexeme, Lexeme.assign]))
    rw [List.append_nil, List.reverse_eq_iff] at heq
    obtain ⟨t, rfl, rfl⟩ := List.map_eq_singleton_iff.mp heq
    obtain ⟨path, rfl⟩ := kind_eq_entry_iff.mp hv
    exact hbefore path rfl
  | case4 before left t rest ht ih =>
    obtain ⟨hop, hrest⟩ := List.forall_mem_cons.mp hne
    refine (ih hrest).trans ?_
    rw [List.map_cons]
    by_cases hblank : t.isBlank
    · rw [if_pos hblank, List.filter_cons_of_neg (by simpa using kind_eq_blank_iff.mpr hblank)]
    · have hkind : t.lexeme.kind ≠ .blank := fun h => hblank (kind_eq_blank_iff.mp h)
      rw [if_neg hblank, List.filter_cons_of_pos (by simpa using hkind), forall_append_cons]
      simp only [hpush]
      exact (and_iff_right fun h => absurd ((lexeme_eq_assign_iff hop).mp h) fun e => ht e).symm

end Token

/-- An equality sign that is the second lexeme other than blanks is the only one. -/
theorem Assigned.of_second {ls : List Lexeme} (h : ∀ before after,
    ls.filter (·.kind ≠ .blank) = before ++ .assign :: after →
      ∃ v : Lexeme, v.kind = .entry ∧ before = [v]) : Assigned ls where
  once := by
    by_contra hcount
    have hcount : 1 < (ls.filter (·.kind ≠ .blank)).count .assign := by
      rw [List.count_filter (by decide)]
      omega
    obtain ⟨before, after, heq⟩ :=
      List.append_of_mem (List.count_pos_iff.mp (Nat.zero_lt_of_lt hcount))
    obtain ⟨v, hv, rfl⟩ := h before after heq
    have hne : v ≠ .assign := by
      rintro rfl
      cases hv
    rw [heq, List.singleton_append, List.count_cons_of_ne hne, List.count_cons_self] at hcount
    -- a second one has two lexemes in front of it
    have hmore := List.count_pos_iff.mp (Nat.lt_of_succ_lt_succ hcount)
    obtain ⟨between, after, rfl⟩ := List.append_of_mem hmore
    obtain ⟨_, -, hbefore⟩ := h (v :: .assign :: between) after heq
    cases hbefore
  second := h

/-! ### Compilation -/

theorem isBlank_ofChars (cs : List Char) : (Text.ofChars cs).isBlank = cs.all isSpace := by
  rw [Text.isBlank, Text.pieces_ofChars, List.all_map]
  rfl

/-- What the lexer has read, as lexemes. -/
def lexemes (cs : List Char) : List Lexeme := (Token.lex cs).1.map (·.2.lexeme)

theorem flatMap_code_lexemes (cs : List Char) :
    (lexemes cs).flatMap Lexeme.code = (Token.lex cs).1.flatMap (·.2.code) := by
  rw [lexemes, List.flatMap_map]
  refine List.flatMap_congr fun t ht => ?_
  obtain ⟨rest, hread⟩ := Token.reads_of_mem_lex ht
  exact hread.code

theorem assign_mem_lexemes : .assign ∈ lexemes cs ↔ (Token.lex cs).1.any (·.2 == .assign) := by
  rw [lexemes, List.mem_map, List.any_eq_true]
  refine exists_congr fun t => and_congr_right fun ht => ?_
  obtain ⟨rest, hread⟩ := Token.reads_of_mem_lex ht
  rw [Token.lexeme_eq_assign_iff hread.ne, beq_iff_eq]

theorem assigned_lexemes :
    Assigned (lexemes cs) ↔ Token.badAssignment? [] (Token.lex cs).1 = none := by
  have hne : ∀ t ∈ (Token.lex cs).1, t.2 ≠ .operator ['='] := fun t ht => by
    obtain ⟨rest, hread⟩ := Token.reads_of_mem_lex ht
    exact hread.ne
  rw [Token.badAssignment?_eq_none_iff hne]
  exact ⟨fun h => h.second, .of_second⟩

/-- **What is compiled, and to what.** A source that is not blank is compiled if longest match
splits it into lexemes, and an equality sign by itself stands at most once, behind a variable at the
beginning. The code is that of the lexemes, and it is an assignment if there is such a sign. There
is no code for any other source. -/
theorem compileVariables_eq_ok_iff {compiled : Compiled} (hne : ∃ c ∈ cs, ¬ isSpace c) :
    compileVariables (.ofChars cs) = .ok compiled ↔ ∃ ls, Splits cs ls ∧ Assigned ls ∧
      compiled.bare = .ofChars (ls.flatMap Lexeme.code) ∧
      if .assign ∈ ls then compiled.kind = .assignment ∧ compiled.escaped = compiled.bare
      else compiled.kind = .value ∧ compiled.escaped = escapeCall compiled.bare := by
  have hblank : ¬ (Text.ofChars cs).isBlank := by
    rw [isBlank_ofChars, List.all_eq_true]
    exact fun h => hne.elim fun c hc => hc.2 (h c hc.1)
  have hsplits (ls : List Lexeme) : Splits cs ls ↔ (Token.lex cs).2 = none ∧ ls = lexemes cs :=
    Token.splits_iff ls
  simp only [hsplits, and_assoc, exists_and_left, exists_eq_left, assigned_lexemes,
    flatMap_code_lexemes, assign_mem_lexemes]
  rw [compileVariables, if_neg hblank, Text.chars_ofChars]
  dsimp only
  split
  · rename_i left _ hbad
    simp [hbad]
  · rename_i stop hgood hstop
    simp [hstop]
  · rename_i hgood hstop
    rw [hstop, hgood, and_iff_right rfl, and_iff_right rfl]
    obtain ⟨bare, escaped, kind⟩ := compiled
    dsimp only
    split
    · constructor
      · rintro ⟨⟩
        exact ⟨rfl, rfl, rfl⟩
      · rintro ⟨rfl, rfl, rfl⟩
        rfl
    · constructor
      · rintro ⟨⟩
        exact ⟨rfl, rfl, rfl⟩
      · rintro ⟨rfl, rfl, rfl⟩
        rfl

/-- An assignment, with a literal that contains a quote. -/
theorem exists_splits_assignment :
    let cs := "$a.b = NOT 'it\\'s'".toList
    let code := "$this->data['a']['b'] = ! 'it\\'s'".toList
    (∃ c ∈ cs, ¬ isSpace c) ∧
      compileVariables (.ofChars cs) = .ok ⟨.ofChars code, .ofChars code, .assignment⟩ ∧
        ∃ ls, Splits cs ls ∧ Assigned ls ∧ .assign ∈ ls ∧ ls.flatMap Lexeme.code = code := by
  intro cs code
  have hne : ∃ c ∈ cs, ¬ isSpace c := ⟨'$', by decide, by decide⟩
  have hsome : (compileVariables (.ofChars cs)).toOption =
      some ⟨.ofChars code, .ofChars code, .assignment⟩ := by decide +kernel
  have hok : compileVariables (.ofChars cs) = .ok ⟨.ofChars code, .ofChars code, .assignment⟩ := by
    cases h : compileVariables (.ofChars cs) with
    | error e => rw [h] at hsome; cases hsome
    | ok c => rw [h] at hsome; rw [Option.some.inj hsome]
  obtain ⟨ls, hsplits, hassigned, hbare, hkind⟩ := (compileVariables_eq_ok_iff hne).mp hok
  refine ⟨hne, hok, ls, hsplits, hassigned, ?_, (Text.ofChars_injective hbare).symm⟩
  by_contra hnot
  rw [if_neg hnot] at hkind
  cases hkind.1

end Stencil.Expression
