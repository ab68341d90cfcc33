import Stencil.Expression.Basic

/-!
# Tokens of variable expressions

A source is split into tokens from left to right. Blanks are tokens of their own because they are
kept in the output. The lexer never looks back, so it can be described by what it takes from the
front of a list of characters; it stops at the first problem and gives the tokens before it as well,
since an assignment among those tokens may be at fault earlier in the source.

## Main definitions

* `Token` – the tokens;
* `Token.next` – the first token of a source;
* `Token.lex` – all tokens up to the first problem.
-/

namespace Stencil.Expression

/-- Characters at which a name can start. -/
def isNameStart (c : Char) : Bool :=
  c == '_' || ('a' ≤ c && c ≤ 'z') || ('A' ≤ c && c ≤ 'Z')

/-- Decimal digits. -/
def isDigit (c : Char) : Bool := '0' ≤ c && c ≤ '9'

/-- Characters of names. -/
def isNameChar (c : Char) : Bool := isNameStart c || isDigit c

/-- Characters of numbers behind the first digit. Letters are included, for other bases. -/
def isNumberChar (c : Char) : Bool := isNameChar c || c == '.'

/-- The blanks between tokens. -/
def isBlank (c : Char) : Bool := c == ' ' || c == '\t' || c == '\n' || c == '\r'

/-- Operators and separators of one character. -/
def isOperator (c : Char) : Bool := "+-*/%.,()[]&|?:".toList.contains c

/-- The first characters of comparisons. -/
def isComparison (c : Char) : Bool := c == '=' || c == '!' || c == '<' || c == '>'

/-- The pieces of a source. -/
inductive Token where
  /-- A blank. -/
  | blank (c : Char)
  /-- A string literal, with its quotes. -/
  | quoted (text : List Char)
  /-- A variable, which is an entry of the data: its name, then the names of its parts. -/
  | entry (path : List (List Char))
  /-- A name or a keyword. -/
  | word (name : List Char)
  /-- A number. -/
  | number (text : List Char)
  /-- The sign of an assignment. -/
  | assign
  /-- Any other operator or separator. -/
  | operator (text : List Char)
  deriving DecidableEq, Repr

namespace Token

/-- The rest of a string literal up to and with its closing quote, and what follows it. A backslash
takes the next character along. -/
def literalTail (quote : Char) : List Char → Option (List Char × List Char)
  | [] => none
  | ['\\'] => none
  | '\\' :: c :: cs => (literalTail quote cs).map fun p => ('\\' :: c :: p.1, p.2)
  | c :: cs =>
    if c = quote then some ([c], cs) else (literalTail quote cs).map fun p => (c :: p.1, p.2)

/-- The names behind dots at the front of a source, and what follows them. -/
def path : List Char → List (List Char) × List Char
  | '.' :: c :: cs =>
    if isNameStart c then
      let (names, rest) := path (cs.dropWhile isNameChar)
      ((c :: cs.takeWhile isNameChar) :: names, rest)
    else ([], '.' :: c :: cs)
  | cs => ([], cs)
termination_by cs => cs.length
decreasing_by
  have := (List.dropWhile_sublist isNameChar (l := cs)).length_le
  simp only [List.length_cons]
  omega

/-- A comparison takes at most two equality signs along. -/
def equalsTail : List Char → List Char × List Char
  | '=' :: '=' :: cs => (['=', '='], cs)
  | '=' :: cs => (['='], cs)
  | cs => ([], cs)

/-- The first token of the source `c :: cs`, and what follows it. -/
def next (c : Char) (cs : List Char) : Except Problem (Token × List Char) :=
  if isBlank c then .ok (.blank c, cs)
  else if c == '\'' || c == '"' then
    match literalTail c cs with
    | some (text, rest) => .ok (.quoted (c :: text), rest)
    | none => .error .unterminatedString
  else if c == '$' then
    match cs with
    | d :: ds =>
      if isNameStart d then
        let parts := path (ds.dropWhile isNameChar)
        .ok (.entry ((d :: ds.takeWhile isNameChar) :: parts.1), parts.2)
      else .error .invalidVariable
    | [] => .error .invalidVariable
  else if isNameStart c then .ok (.word (c :: cs.takeWhile isNameChar), cs.dropWhile isNameChar)
  else if isDigit c then .ok (.number (c :: cs.takeWhile isNumberChar), cs.dropWhile isNumberChar)
  else if c == '=' && cs.head? != some '=' then .ok (.assign, cs)
  else if isComparison c then
    .ok (.operator (c :: (equalsTail cs).1), (equalsTail cs).2)
  else if isOperator c then .ok (.operator [c], cs)
  else .error (.unexpected c)

/-! ### Progress -/

theorem length_literalTail {quote : Char} {cs : List Char} {p : List Char × List Char}
    (h : literalTail quote cs = some p) : p.2.length ≤ cs.length := by
  fun_induction literalTail quote cs generalizing p with
  | case1 => simp at h
  | case2 => simp at h
  | case3 c cs ih =>
    obtain ⟨q, hq, rfl⟩ := Option.map_eq_some_iff.1 h
    have := ih hq
    simp only [List.length_cons]; omega
  | case4 cs => simp at h; subst h; simp
  | case5 c cs _ _ _ ih =>
    obtain ⟨q, hq, rfl⟩ := Option.map_eq_some_iff.1 h
    have := ih hq
    simp only [List.length_cons]; omega

theorem length_path (cs : List Char) : (path cs).2.length ≤ cs.length := by
  fun_induction path cs with
  | case1 c cs _ names rest h ih =>
    have := (List.dropWhile_sublist isNameChar (l := cs)).length_le
    simp [h] at ih
    simp only [List.length_cons]; omega
  | case2 => simp
  | case3 => simp

theorem length_equalsTail (cs : List Char) : (equalsTail cs).2.length ≤ cs.length := by
  fun_cases equalsTail cs <;> grind

/-- What follows a token is not longer than what follows its first character. -/
theorem length_next {c : Char} {cs : List Char} {p : Token × List Char} (h : next c cs = .ok p) :
    p.2.length ≤ cs.length := by
  have drop (f : Char → Bool) (l : List Char) : (l.dropWhile f).length ≤ l.length :=
    (List.dropWhile_sublist f).length_le
  unfold next at h
  repeat' split at h
  all_goals first | (cases h; done) | (cases h)
  all_goals try simp
  · rename_i hp; exact length_literalTail hp
  · exact Nat.le_trans (length_path _) (Nat.le_trans (drop _ _) (Nat.le_succ _))
  · exact drop _ _
  · exact drop _ _
  · exact length_equalsTail cs

/-- A problem and what was left of the source when it was met. -/
structure Stop where
  /-- The problem. -/
  problem : Problem
  /-- How many characters were left. -/
  left : Nat
  deriving DecidableEq, Repr

/-- How many characters are left at a problem with the first token of the source `c :: cs`. A dollar
sign counts as taken. -/
def leftAt (cs : List Char) : Problem → Nat
  | .invalidVariable => cs.length
  | _ => cs.length + 1

/-- The tokens of a source up to the first problem, each with what was left of the source before
it. -/
def lex : List Char → List (List Char × Token) × Option Stop
  | [] => ([], none)
  | c :: cs =>
    match _h : next c cs with
    | .error problem => ([], some ⟨problem, leftAt cs problem⟩)
    | .ok (token, rest) =>
      let (tokens, stop) := lex rest
      ((c :: cs, token) :: tokens, stop)
termination_by cs => cs.length
decreasing_by
  exact Nat.lt_succ_of_le (length_next _h)

end Token

end Stencil.Expression
