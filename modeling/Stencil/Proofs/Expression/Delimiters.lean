import Mathlib.Data.Bool.AllAny
import Stencil.Expression.Engine
import Stencil.Proofs.Text.Characters

/-!
# What ends code early

Code of an expression is put between delimiters and followed by the end of a statement. Whether it
ends there, and not before, depends on what stands outside of its string literals: a semicolon ends
the statement, `?>` ends the code, and a comment hides what follows.

The engine for expressions over the data of a template looks at single characters. It lets neither a
semicolon nor a number sign through, but a question mark, a slash, an asterisk and a greater-than
sign are operators, and it does not look at what stands next to them. So code of an expression
contains exactly those of the other sequences that its source contains, in the same order, and
nothing that the engine adds (an entry of the data, an operator for a word) makes a further one.

The relation between source and code is kept by every token. It speaks about code with something
behind it, because a sequence may begin with the last character of one token and end with the first
character of the next.

## Main definitions

* `Break`, `breaks` – what ends code early outside of its literals
* `Renders` – code with the same such sequences as its source

## Main results

* `Token.renders_lex` – the code of all tokens renders the source
* `breaks_compileVariables` – code is ended early exactly where its source is
-/

namespace Stencil.Expression

/-- What ends a statement or the code, or hides what follows. -/
inductive Break where
  /-- A semicolon. -/
  | statementEnd
  /-- A number sign, which begins a comment. -/
  | numberSign
  /-- A question mark and a greater-than sign. -/
  | codeEnd
  /-- A slash and an asterisk, which begin a comment. -/
  | blockComment
  /-- Two slashes, which begin a comment. -/
  | lineComment
  deriving DecidableEq, Repr

/-- The one that begins with a character, given the character behind it. -/
def breakAt? (c : Char) (next : Option Char) : Option Break :=
  if c = ';' then some .statementEnd
  else if c = '#' then some .numberSign
  else if c = '?' ∧ next = some '>' then some .codeEnd
  else if c = '/' ∧ next = some '*' then some .blockComment
  else if c = '/' ∧ next = some '/' then some .lineComment
  else none

/-- The quotes of string literals. -/
def isQuote (c : Char) : Bool := c == '\'' || c == '"'

/-- All of them in code, in order. In a literal, which is open if its quote is given, there are
none; a backslash there takes the next character along. -/
def breaks : Option Char → List Char → List Break
  | _, [] => []
  | none, c :: cs =>
    if isQuote c then breaks (some c) cs else (breakAt? c cs.head?).toList ++ breaks none cs
  | some quote, '\\' :: _ :: cs => breaks (some quote) cs
  | some quote, c :: cs => breaks (if c = quote then none else some quote) cs

/-- The quotes and the two characters that the engine never lets through outside of literals. -/
def excluded : List Char := ['\'', '"', ';', '#']

/-- The characters with which a sequence of two can begin. -/
def firsts : List Char := ['?', '/']

/-- The characters with which a sequence of two can end. -/
def seconds : List Char := ['>', '*', '/']

/-- The same sequences end the code as end the source, whatever is put behind the code, unless it
completes one. -/
structure Renders (source code : List Char) : Prop where
  /-- They complete the same sequences with what stands in front of them. -/
  heads : ∀ d ∈ seconds, source.head? = some d ↔ code.head? = some d
  /-- They contain the same sequences. -/
  breaks_append : ∀ after : List Char, (∀ d ∈ seconds, after.head? ≠ some d) →
    breaks none (code ++ after) = breaks none source ++ breaks none after
  /-- Each of these has two characters. -/
  allowed : ∀ b ∈ breaks none source, b ≠ .statementEnd ∧ b ≠ .numberSign

variable {c d quote : Char} {cs rest source code text : List Char}

/-! ### Characters -/

theorem breakAt?_congr {next next' : Option Char}
    (h : ∀ d ∈ seconds, next = some d ↔ next' = some d) : breakAt? c next = breakAt? c next' := by
  have h₁ := h '>' (by decide)
  have h₂ := h '*' (by decide)
  have h₃ := h '/' (by decide)
  simp only [breakAt?, h₁, h₂, h₃]

theorem not_mem_of {p : Char → Bool} {l : List Char} (hl : l.all fun d => !p d) (h : p c) :
    c ∉ l := fun hmem => by simpa [h] using List.all_eq_true.mp hl c hmem

theorem isQuote_eq_false (hc : c ∉ excluded) : isQuote c = false := by
  simp only [excluded, List.mem_cons, not_or] at hc
  simp [isQuote, hc]

theorem breaks_cons (hc : c ∉ excluded) :
    breaks none (c :: cs) = (breakAt? c cs.head?).toList ++ breaks none cs := by
  rw [breaks, isQuote_eq_false hc]
  rfl

/-- Characters with which nothing begins have no effect. -/
theorem breaks_inert_append (h : ∀ c ∈ text, c ∉ excluded ∧ c ∉ firsts) :
    breaks none (text ++ cs) = breaks none cs := by
  induction text with
  | nil => rfl
  | cons c text ih =>
    obtain ⟨⟨hc, hc'⟩, hrest⟩ := List.forall_mem_cons.mp h
    have hnone (next : Option Char) : breakAt? c next = none := by
      simp only [excluded, firsts, List.mem_cons, not_or] at hc hc'
      simp [breakAt?, hc, hc']
    rw [List.cons_append, breaks_cons hc, hnone, ih hrest]
    rfl

theorem breaks_literal_cons (hslash : c ≠ '\\') :
    breaks (some quote) (c :: cs) = breaks (if c = quote then none else some quote) cs := by
  rw [breaks]
  exact fun _ _ h _ => hslash h

/-- A literal is skipped up to its closing quote. -/
theorem breaks_literalTail (h : Token.literalTail quote cs = some (text, rest)) :
    cs = text ++ rest ∧ ∀ t, breaks (some quote) (text ++ t) = breaks none t := by
  have not_slash {d : Char} {ds : List Char} (h₁ : d = '\\' → ds = [] → False)
      (h₂ : ∀ e es, d = '\\' → ds = e :: es → False) : d ≠ '\\' := fun hd => by
    cases ds with
    | nil => exact h₁ hd rfl
    | cons e es => exact h₂ e es hd rfl
  fun_induction Token.literalTail quote cs generalizing text with
  | case1 => cases h
  | case2 => cases h
  | case3 c cs ih =>
    obtain ⟨⟨text', rest'⟩, hread, heq⟩ := Option.map_eq_some_iff.mp h
    obtain ⟨rfl, rfl⟩ := Prod.mk.inj heq
    obtain ⟨rfl, hskip⟩ := ih hread
    exact ⟨rfl, hskip⟩
  | case4 cs hslash hslash' =>
    obtain ⟨rfl, rfl⟩ := Prod.mk.inj (Option.some.inj h)
    refine ⟨rfl, fun t => ?_⟩
    rw [List.singleton_append, breaks_literal_cons (not_slash hslash hslash'), if_pos rfl]
  | case5 c cs hslash hslash' hc ih =>
    obtain ⟨⟨text', rest'⟩, hread, heq⟩ := Option.map_eq_some_iff.mp h
    obtain ⟨rfl, rfl⟩ := Prod.mk.inj heq
    obtain ⟨rfl, hskip⟩ := ih hread
    refine ⟨rfl, fun t => ?_⟩
    rw [List.cons_append, breaks_literal_cons (not_slash hslash hslash'), if_neg hc, hskip]

/-- A name between single quotes and brackets. -/
theorem breaks_part (h : ∀ c ∈ text, isNameChar c) :
    breaks none ("['".toList ++ text ++ "']".toList ++ cs) = breaks none cs := by
  have hname : breaks (some '\'') (text ++ '\'' :: (']' :: cs)) = breaks none (']' :: cs) := by
    induction text with
    | nil => rfl
    | cons c text ih =>
      obtain ⟨hc, hrest⟩ := List.forall_mem_cons.mp h
      have hslash : c ≠ '\\' := by
        rintro rfl
        exact absurd hc (by decide)
      have hquote : c ≠ '\'' := by
        rintro rfl
        exact absurd hc (by decide)
      rw [List.cons_append, breaks_literal_cons hslash, if_neg hquote, ih hrest]
  rw [List.append_assoc, List.append_assoc]
  exact hname

namespace Renders

theorem nil : Renders [] [] where
  heads _ _ := Iff.rfl
  breaks_append _ _ := rfl
  allowed _ h := absurd h List.not_mem_nil

/-- A character that is kept. -/
theorem cons (h : Renders source code) (hc : c ∉ excluded) : Renders (c :: source) (c :: code) where
  heads _ _ := Iff.rfl
  breaks_append after hafter := by
    have hnext : breakAt? c (code ++ after).head? = breakAt? c source.head? := by
      refine breakAt?_congr fun d hd => ?_
      cases code with
      | nil => simp [hafter d hd, h.heads d hd]
      | cons _ _ => exact (h.heads d hd).symm
    rw [List.cons_append, breaks_cons hc, breaks_cons hc, hnext, h.breaks_append after hafter,
      List.append_assoc]
  allowed b hb := by
    rw [breaks_cons hc, List.mem_append] at hb
    rcases hb with hb | hb
    · simp only [excluded, List.mem_cons, not_or] at hc
      simp only [breakAt?, hc, if_false] at hb
      split at hb
      · obtain rfl : b = .codeEnd := by simpa using hb
        decide
      split at hb
      · obtain rfl : b = .blockComment := by simpa using hb
        decide
      split at hb
      · obtain rfl : b = .lineComment := by simpa using hb
        decide
      · simp at hb
    · exact h.allowed b hb

/-- Characters that are kept. -/
theorem keep (h : Renders source code) (htext : ∀ c ∈ text, c ∉ excluded) :
    Renders (text ++ source) (text ++ code) := by
  induction text with
  | nil => exact h
  | cons c text ih =>
    obtain ⟨hc, hrest⟩ := List.forall_mem_cons.mp htext
    exact (ih hrest).cons hc

/-- Text in which nothing begins may be replaced, as long as it does not complete anything. -/
theorem replace {new : List Char} (h : Renders source code)
    (htext : breaks none (text ++ source) = breaks none source)
    (hnew : ∀ after, breaks none (new ++ (code ++ after)) = breaks none (code ++ after))
    (hhead : ∃ c, text.head? = some c ∧ c ∉ seconds)
    (hhead' : ∃ c, new.head? = some c ∧ c ∉ seconds) :
    Renders (text ++ source) (new ++ code) where
  heads d hd := by
    have hne {t u : List Char} (ht : ∃ c, t.head? = some c ∧ c ∉ seconds) :
        (t ++ u).head? ≠ some d := by
      obtain ⟨c, hc, hnot⟩ := ht
      rw [List.head?_append, hc]
      exact fun h => hnot (Option.some.inj h ▸ hd)
    exact iff_of_false (hne hhead) (hne hhead')
  breaks_append after hafter := by
    rw [List.append_assoc, hnew, htext, h.breaks_append after hafter]
  allowed b hb := h.allowed b (htext ▸ hb)

/-- A literal that is kept. -/
theorem literal (h : Renders rest code) (hquote : isQuote quote)
    (htext : ∀ t, breaks (some quote) (text ++ t) = breaks none t) :
    Renders (quote :: text ++ rest) (quote :: text ++ code) := by
  have hskip (t : List Char) : breaks none (quote :: text ++ t) = breaks none t := by
    rw [List.cons_append, breaks, if_pos hquote, htext]
  have hhead : ∃ c, (quote :: text).head? = some c ∧ c ∉ seconds := by
    refine ⟨quote, rfl, ?_⟩
    rcases (by simpa [isQuote] using hquote : quote = '\'' ∨ quote = '"') with rfl | rfl <;> decide
  exact h.replace (hskip rest) (fun after => hskip _) hhead hhead

end Renders

/-! ### Tokens -/

namespace Token

theorem code_entry (path : List (List Char)) : (entry path).code =
    "$this->data".toList ++ path.flatMap fun n => "['".toList ++ n ++ "']".toList := rfl

theorem code_word (name : List Char) : (word name).code = (keyword? name).getD name := rfl

theorem path_spec (cs : List Char) : cs = (path cs).1.flatMap ('.' :: ·) ++ (path cs).2 ∧
    ∀ name ∈ (path cs).1, ∀ c ∈ name, isNameChar c := by
  fun_induction path cs with
  | case1 c cs hc names rest hpath ih =>
    rw [hpath] at ih
    obtain ⟨heq, hnames⟩ := ih
    refine ⟨?_, List.forall_mem_cons.mpr ⟨List.forall_mem_cons.mpr ⟨?_, ?_⟩, hnames⟩⟩
    · rw [List.flatMap_cons, List.append_assoc, ← heq]
      simp
    · rw [isNameChar, hc]
      rfl
    · exact List.all_eq_true.mp List.all_takeWhile
  | case2 => exact ⟨rfl, by simp⟩
  | case3 => exact ⟨rfl, by simp⟩

theorem not_mem_of_isNameChar (h : isNameChar c) : (c ∉ excluded ∧ c ∉ firsts) ∧ c ∉ seconds :=
  ⟨⟨not_mem_of (by decide) h, not_mem_of (by decide) h⟩, not_mem_of (by decide) h⟩

/-- An entry of the data. -/
theorem renders_entry {path : List (List Char)} (h : Renders rest code)
    (htext : ∀ c ∈ text, c ∉ excluded ∧ c ∉ firsts)
    (hpath : ∀ name ∈ path, ∀ c ∈ name, isNameChar c) :
    Renders ('$' :: text ++ rest) ((entry path).code ++ code) := by
  have hparts (t : List Char) :
      breaks none ((path.flatMap fun n => "['".toList ++ n ++ "']".toList) ++ t) =
      breaks none t := by
    induction path with
    | nil => rfl
    | cons name path ih =>
      obtain ⟨hname, hrest⟩ := List.forall_mem_cons.mp hpath
      rw [List.flatMap_cons, List.append_assoc, breaks_part hname, ih hrest]
  have hstart : "$this->data".toList.head? = some '$' := by decide
  refine h.replace (breaks_inert_append (List.forall_mem_cons.mpr ⟨by decide, htext⟩))
    (fun after => ?_)
    ⟨'$', rfl, by decide⟩ ⟨'$', ?_, by decide⟩
  · rw [code_entry, List.append_assoc,
      breaks_inert_append (List.all_iff_forall_prop.mp (by decide)), hparts]
  · rw [code_entry, List.head?_append, hstart]
    rfl

/-- A variable with the names of its parts. -/
theorem renders_variable {ds : List Char} (hd : isNameStart d)
    (h : Renders (path (ds.dropWhile isNameChar)).2 code) :
    Renders ('$' :: d :: ds) ((entry ((d :: ds.takeWhile isNameChar) ::
      (path (ds.dropWhile isNameChar)).1)).code ++ code) := by
  obtain ⟨hsplit, hnames⟩ := path_spec (ds.dropWhile isNameChar)
  have hfirst : ∀ c ∈ d :: ds.takeWhile isNameChar, isNameChar c :=
    List.forall_mem_cons.mpr ⟨by rw [isNameChar, hd]; rfl, List.all_eq_true.mp List.all_takeWhile⟩
  have hds : d :: ds = (d :: ds.takeWhile isNameChar) ++
      (path (ds.dropWhile isNameChar)).1.flatMap ('.' :: ·) ++
      (path (ds.dropWhile isNameChar)).2 := by
    rw [List.append_assoc, ← hsplit, List.cons_append, List.takeWhile_append_dropWhile]
  rw [hds]
  refine renders_entry h (fun c hc => ?_) (List.forall_mem_cons.mpr ⟨hfirst, hnames⟩)
  rcases List.mem_append.mp hc with hc | hc
  · exact (not_mem_of_isNameChar (hfirst c hc)).1
  · obtain ⟨name, hname, hc⟩ := List.mem_flatMap.mp hc
    rcases List.mem_cons.mp hc with rfl | hc
    · decide
    · exact (not_mem_of_isNameChar (hnames name hname c hc)).1

/-- A word, or the operator it stands for. -/
theorem renders_word {name : List Char} (h : Renders rest code) (hne : name ≠ [])
    (hname : ∀ c ∈ name, isNameChar c) : Renders (name ++ rest) ((word name).code ++ code) := by
  have hskip (t : List Char) : breaks none (name ++ t) = breaks none t :=
    breaks_inert_append fun c hc => (not_mem_of_isNameChar (hname c hc)).1
  have hhead : ∃ c, name.head? = some c ∧ c ∉ seconds := by
    cases name with
    | nil => exact absurd rfl hne
    | cons c name => exact ⟨c, rfl, (not_mem_of_isNameChar (hname c List.mem_cons_self)).2⟩
  have hoperator (new : List Char) (hnew : ∀ c ∈ new, c ∉ excluded ∧ c ∉ firsts)
      (hhead' : ∃ c, new.head? = some c ∧ c ∉ seconds) : Renders (name ++ rest) (new ++ code) :=
    h.replace (hskip rest) (fun _ => breaks_inert_append hnew) hhead hhead'
  rw [code_word, keyword?]
  split
  · exact hoperator "&&".toList (List.all_iff_forall_prop.mp (by decide)) ⟨'&', by decide⟩
  split
  · exact hoperator "||".toList (List.all_iff_forall_prop.mp (by decide)) ⟨'|', by decide⟩
  split
  · exact hoperator "!".toList (List.all_iff_forall_prop.mp (by decide)) ⟨'!', by decide⟩
  · exact h.replace (hskip rest) (fun _ => hskip _) hhead hhead

theorem equalsTail_spec (cs : List Char) : cs = (equalsTail cs).1 ++ (equalsTail cs).2 ∧
    ∀ c ∈ (equalsTail cs).1, c ∉ excluded := by
  have hequals : '=' ∉ excluded := by decide
  fun_cases equalsTail cs
  · exact ⟨rfl, by simpa using hequals⟩
  · exact ⟨rfl, by simpa using hequals⟩
  · exact ⟨rfl, by simp⟩

/-- The code of a token renders what it was read from. -/
theorem renders_next {t : Token} (h : next c cs = .ok (t, rest)) (hrest : Renders rest code) :
    Renders (c :: cs) (t.code ++ code) := by
  have takeWhile_spec (p : Char → Bool) (cs : List Char) : ∀ d ∈ cs.takeWhile p, p d :=
    List.all_eq_true.mp List.all_takeWhile
  unfold next at h
  split at h
  · rename_i hblank
    obtain ⟨rfl, rfl⟩ := Prod.mk.inj (Except.ok.inj h)
    exact hrest.cons (not_mem_of (p := Expression.isBlank) (by decide) hblank)
  split at h
  · rename_i hquote
    split at h
    · rename_i text rest' htail
      obtain ⟨rfl, rfl⟩ := Prod.mk.inj (Except.ok.inj h)
      obtain ⟨rfl, hskip⟩ := breaks_literalTail htail
      exact hrest.literal hquote hskip
    · cases h
  split at h
  · rename_i hdollar
    obtain rfl := eq_of_beq hdollar
    split at h
    · rename_i d ds
      split at h
      · rename_i hd
        obtain ⟨rfl, rfl⟩ := Prod.mk.inj (Except.ok.inj h)
        exact renders_variable hd hrest
      · cases h
    · cases h
  split at h
  · rename_i hname
    obtain ⟨rfl, rfl⟩ := Prod.mk.inj (Except.ok.inj h)
    have hall : ∀ d ∈ c :: cs.takeWhile isNameChar, isNameChar d :=
      List.forall_mem_cons.mpr ⟨by rw [isNameChar, hname]; rfl, takeWhile_spec _ _⟩
    have hwhole := renders_word hrest (List.cons_ne_nil c _) hall
    rwa [List.cons_append, List.takeWhile_append_dropWhile] at hwhole
  split at h
  · rename_i hdigit
    obtain ⟨rfl, rfl⟩ := Prod.mk.inj (Except.ok.inj h)
    have hkept := (hrest.keep fun d hd => not_mem_of (p := isNumberChar) (by decide)
      (takeWhile_spec isNumberChar cs d hd)).cons (not_mem_of (p := isDigit) (by decide) hdigit)
    rwa [List.takeWhile_append_dropWhile] at hkept
  split at h
  · rename_i hassign
    obtain ⟨rfl, rfl⟩ := Prod.mk.inj (Except.ok.inj h)
    obtain rfl : c = '=' := by simpa using (Bool.and_eq_true_iff.mp hassign).1
    exact hrest.cons (by decide)
  split at h
  · rename_i hcomparison
    obtain ⟨rfl, rfl⟩ := Prod.mk.inj (Except.ok.inj h)
    obtain ⟨hsplit, hequals⟩ := equalsTail_spec cs
    have hkept := (hrest.keep hequals).cons (not_mem_of (p := isComparison) (by decide) hcomparison)
    rwa [← hsplit] at hkept
  split at h
  · rename_i hoperator
    obtain ⟨rfl, rfl⟩ := Prod.mk.inj (Except.ok.inj h)
    exact hrest.cons (not_mem_of (p := isOperator) (by decide) hoperator)
  · cases h

/-- **The code of all tokens renders the source.** -/
theorem renders_lex (h : (lex cs).2 = none) :
    Renders cs ((lex cs).1.flatMap fun t => t.2.code) := by
  fun_induction lex cs with
  | case1 => exact .nil
  | case2 => cases h
  | case3 c cs token rest hnext tokens stop hlex ih =>
    rw [hlex] at ih
    exact renders_next hnext (ih h)

end Token

/-! ### Code of an expression -/

/-- **Code is ended early exactly where its source is**, and nothing ends it early but two operators
next to each other. What is put behind it to end it does so. -/
theorem breaks_compileVariables {source : Text} {c : Compiled}
    (h : compileVariables source = .ok c) :
    breaks none c.bare.chars = breaks none source.chars ∧
      (∀ b ∈ breaks none source.chars, b ≠ .statementEnd ∧ b ≠ .numberSign) ∧
        breaks none (c.bare ++ "; ?>").chars =
          breaks none source.chars ++ [.statementEnd, .codeEnd] := by
  obtain ⟨hbare, hstop⟩ : c.bare = .ofChars ((Token.lex source.chars).1.flatMap fun t => t.2.code) ∧
      (Token.lex source.chars).2 = none := by
    rw [compileVariables] at h
    split at h
    · cases h
    dsimp only at h
    split at h
    · cases h
    · cases h
    · rename_i hstop
      split at h <;> obtain rfl := Except.ok.inj h <;> exact ⟨rfl, hstop⟩
  have hrenders := Token.renders_lex hstop
  have hend : c.bare ++ "; ?>" = .ofChars
      (((Token.lex source.chars).1.flatMap fun t => t.2.code) ++ "; ?>".toList) := by
    rw [hbare, Text.ofChars_append]
    rfl
  refine ⟨?_, hrenders.allowed, ?_⟩
  · have hplain := hrenders.breaks_append [] (by simp)
    rw [hbare, Text.chars_ofChars]
    simpa [breaks] using hplain
  · rw [hend, Text.chars_ofChars,
      hrenders.breaks_append _ (List.all_iff_forall_prop.mp (by decide))]
    congr 1

/-- Two operators that end the code. -/
theorem breaks_codeEnd : ∃ c, compileVariables "$a ?> $b" = .ok c ∧
    c.bare = "$this->data['a'] ?> $this->data['b']" ∧ breaks none c.bare.chars = [.codeEnd] := by
  have hsome : ((compileVariables "$a ?> $b").toOption.map (·.bare)) =
      some "$this->data['a'] ?> $this->data['b']" := by decide +kernel
  cases h : compileVariables "$a ?> $b" with
  | error e => rw [h] at hsome; cases hsome
  | ok c =>
    rw [h] at hsome
    have hsource : breaks none (Text.chars "$a ?> $b") = [.codeEnd] := by decide
    exact ⟨c, rfl, Option.some.inj hsome, (breaks_compileVariables h).1.trans hsource⟩

end Stencil.Expression
