import Stencil.Compiler.Dialect
import Stencil.Expression.Engine
import Stencil.Proofs.Text.Characters

/-!
# What engines make of expressions

Two of the three kinds of expressions are printed, and the code for their values made safe for
markup is a call around the code for the values as they are. An assignment is executed for its
effect; its safe form is no such call but the assignment itself.

An assignment is allowed only behind a variable, so in front of it there is a variable with nothing
but blanks before it. Its code is therefore never mistaken for a statement that prints something.

The engine for fixed texts writes its source as a literal between single quotes. In such a literal a
backslash is special only in front of a backslash or a quote, and these are the two bytes that have
to be written with a backslash. The engine writes four of them so. The literal never ends early, but
a double quote and a NUL keep the backslash: between single quotes it stands for itself.

## Main definitions

* `Expression.Compiled.Proper` – the forms of a compiled expression fit its kind
* `Expression.readLiteral?`, `Expression.denoted?` – what a literal between single quotes denotes

## Main results

* `Expression.proper_compile` – the forms that engines produce fit the kind
* `Expression.denoted?_compileLiteral` – what the code of a fixed text denotes
-/

namespace Stencil

namespace Expression

namespace Token

/-- A sign of an assignment behind some tokens is allowed only if the first of them is a
variable. -/
theorem getLast?_of_badAssignment? {before : List Token} {tokens : List (List Char × Token)}
    (hgood : badAssignment? before tokens = none) (hassign : tokens.any (·.2 == .assign))
    (hbefore : before ≠ []) : ∃ path, before.getLast? = some (.entry path) := by
  fun_induction badAssignment? before tokens with
  | case1 => simp at hassign
  | case2 => exact ⟨_, rfl⟩
  | case3 => cases hgood
  | case4 before left t rest hne ih =>
    have ht : t ≠ .assign := fun e => hne e
    have hrest : rest.any (·.2 == .assign) := by simpa [ht] using hassign
    by_cases hblank : t.isBlank
    · rw [if_pos hblank] at ih hgood
      exact ih hgood hrest hbefore
    · rw [if_neg hblank] at ih hgood
      obtain ⟨path, hpath⟩ := ih hgood hrest (List.cons_ne_nil _ _)
      refine ⟨path, ?_⟩
      rwa [List.getLast?_cons_of_ne_nil hbefore] at hpath

/-- The first token of an assignment other than a blank is a variable. -/
theorem exists_entry_of_badAssignment? {tokens : List (List Char × Token)}
    (hgood : badAssignment? [] tokens = none) (hassign : tokens.any (·.2 == .assign)) :
    ∃ blanks path rest, tokens.map Prod.snd = blanks ++ .entry path :: rest ∧
      ∀ t ∈ blanks, t.isBlank := by
  induction tokens with
  | nil => simp at hassign
  | cons head rest ih =>
    obtain ⟨left, t⟩ := head
    by_cases ht : t = .assign
    · subst ht
      simp [badAssignment?] at hgood
    · have hrest : rest.any (·.2 == .assign) := by simpa [ht] using hassign
      rw [badAssignment?] at hgood
      · split at hgood
        · rename_i hblank
          obtain ⟨blanks, path, after, heq, hall⟩ := ih hgood hrest
          refine ⟨t :: blanks, path, after, by rw [List.map_cons, heq]; rfl, ?_⟩
          simpa using ⟨hblank, hall⟩
        · obtain ⟨path, hpath⟩ := getLast?_of_badAssignment? hgood hrest (List.cons_ne_nil _ _)
          obtain rfl : t = .entry path := by simpa using hpath
          exact ⟨[], path, rest.map Prod.snd, rfl, by simp⟩
      · exact ht

theorem isBlank_of_next {c d : Char} {cs rest : List Char} (h : next c cs = .ok (.blank d, rest)) :
    Expression.isBlank d := by
  unfold next at h
  repeat' split at h
  all_goals first | (cases h; done) | (cases h; assumption)

/-- The blanks among the tokens of a source are blanks. -/
theorem isBlank_of_mem_lex {cs : List Char} {d : Char}
    (h : .blank d ∈ (lex cs).1.map Prod.snd) : Expression.isBlank d := by
  fun_induction lex cs with
  | case1 => simp at h
  | case2 => simp at h
  | case3 c cs token rest hnext tokens stop hlex ih =>
    rw [hlex] at ih
    rcases List.mem_cons.mp h with hd | hd
    · dsimp only at hd
      exact isBlank_of_next (hd ▸ hnext)
    · exact ih hd

end Token

/-- The forms of a compiled expression fit its kind: what is printed can be made safe, and an
assignment, which is not, is not taken for a statement that prints something. -/
def Compiled.Proper (c : Compiled) : Prop :=
  if c.kind = .assignment then c.escaped = c.bare ∧ ¬ ("echo " : Text) <+: c.bare ++ ";"
  else c.escaped = escapeCall c.bare

/-- Blanks and the sign of a variable are single bytes, and none of them is a letter. -/
theorem exists_byte {c : Char} (h : isBlank c ∨ c = '$') :
    ∃ b, String.utf8EncodeChar c = [b] ∧ b ≠ 0x65 := by
  simp only [isBlank, Bool.or_eq_true, beq_iff_eq] at h
  rcases h with (((rfl | rfl) | rfl) | rfl) | rfl
  · exact ⟨0x20, by decide⟩
  · exact ⟨0x09, by decide⟩
  · exact ⟨0x0a, by decide⟩
  · exact ⟨0x0d, by decide⟩
  · exact ⟨0x24, by decide⟩

/-- Code that starts with a variable behind blanks does not start with a letter. -/
theorem head?_code_of_entry {blanks rest : List Token} {path : List (List Char)}
    (hall : ∀ t ∈ blanks, ∃ d, t = .blank d ∧ isBlank d) (after : Text) :
    (Text.ofChars ((blanks ++ .entry path :: rest).flatMap Token.code) ++ after).head? ≠
      some 0x65 := by
  obtain ⟨c, cs, hcs, hc⟩ : ∃ c cs, (blanks ++ .entry path :: rest).flatMap Token.code = c :: cs ∧
      (isBlank c ∨ c = '$') := by
    cases blanks with
    | nil => exact ⟨'$', _, rfl, .inr rfl⟩
    | cons t blanks =>
      obtain ⟨d, rfl, hd⟩ := hall t List.mem_cons_self
      exact ⟨d, _, rfl, .inl hd⟩
  obtain ⟨b, hb, hne⟩ := exists_byte hc
  rw [hcs, Text.ofChars_cons, hb]
  exact fun h => hne (Option.some.inj h)

theorem proper_compileVariables {source : Text} {c : Compiled}
    (h : compileVariables source = .ok c) : c.Proper := by
  rw [compileVariables] at h
  split at h
  · cases h
  · dsimp only at h
    split at h
    · cases h
    · cases h
    · rename_i hgood _
      split at h
      · rename_i hassign
        obtain rfl := Except.ok.inj h
        obtain ⟨blanks, path, rest, heq, hall⟩ := Token.exists_entry_of_badAssignment? hgood hassign
        have hblanks : ∀ t ∈ blanks, ∃ d, t = .blank d ∧ isBlank d := by
          intro t ht
          have hblank := hall t ht
          cases t with
          | blank d => exact ⟨d, rfl, Token.isBlank_of_mem_lex (by rw [heq]; simp [ht])⟩
          | _ => cases hblank
        refine ⟨rfl, ?_⟩
        rintro ⟨after, hafter⟩
        rw [← List.flatMap_map, heq] at hafter
        exact head?_code_of_entry hblanks ";" ((congrArg List.head? hafter.symm).trans rfl)
      · obtain rfl := Except.ok.inj h
        rfl

/-- **The forms that engines produce fit the kind.** -/
theorem Engine.proper_compile {e : Engine} {source : Text} {c : Compiled}
    (h : e.compile source = .ok c) : c.Proper := by
  cases e with
  | references => exact proper_compileVariables h
  | literal =>
    obtain rfl := Except.ok.inj h
    rfl

end Expression

theorem Dialect.proper_compile {d : Dialect} {source name : Text} {c : Expression.Compiled}
    (h : d.compile source name = .ok c) : c.Proper := by
  rw [compile] at h
  split at h
  · cases h
  · split at h
    · rename_i hc
      obtain rfl := Except.ok.inj h
      exact Expression.Engine.proper_compile hc
    · cases h

end Stencil

/-! ## Fixed texts as literals -/

namespace Stencil.Expression

/-- Reads a literal behind its first quote: what it denotes, and what follows its last quote. A
backslash in front of a backslash or a quote stands for that byte, and any other one for itself. -/
def readLiteral? : Text → Option (Text × Text)
  | [] => none
  | 0x5c :: b :: t =>
    if b = 0x5c ∨ b = 0x27 then (readLiteral? t).map fun p => (b :: p.1, p.2)
    else (readLiteral? (b :: t)).map fun p => (0x5c :: p.1, p.2)
  | b :: t => if b = 0x27 then some ([], t) else (readLiteral? t).map fun p => (b :: p.1, p.2)

/-- What code denotes that is one literal between single quotes, and nothing else. -/
def denoted? (code : Text) : Option Text :=
  if code.head? = some 0x27 then
    (readLiteral? code.tail).bind fun p => if p.2 = [] then some p.1 else none
  else none

/-- What the literal of a fixed text denotes for a byte of it. -/
def denotedByte (b : UInt8) : Text :=
  if b = 0x22 then [0x5c, 0x22] else if b = 0 then [0x5c, 0x30] else [b]

variable {b : UInt8} {s t : Text}

/-- A backslash in front of a byte. -/
theorem readLiteral?_slash (hb : b = 0x5c ∨ b = 0x27) :
    readLiteral? (0x5c :: b :: t) = (readLiteral? t).map fun p => (b :: p.1, p.2) := by
  rw [readLiteral?, if_pos hb]

/-- A backslash that stands for itself. -/
theorem readLiteral?_slash_of_ne (hb : ¬ (b = 0x5c ∨ b = 0x27)) :
    readLiteral? (0x5c :: b :: t) = (readLiteral? t).map fun p => (0x5c :: b :: p.1, p.2) := by
  have hnext : readLiteral? (b :: t) = (readLiteral? t).map fun p => (b :: p.1, p.2) := by
    rw [readLiteral?, if_neg fun h => hb (.inr h)]
    exact fun d u h _ => hb (.inl h)
  rw [readLiteral?, if_neg hb, hnext, Option.map_map]
  rfl

/-- Any other byte. -/
theorem readLiteral?_cons (hb : ¬ (b = 0x5c ∨ b = 0x27)) :
    readLiteral? (b :: t) = (readLiteral? t).map fun p => (b :: p.1, p.2) := by
  rw [readLiteral?, if_neg fun h => hb (.inr h)]
  exact fun d u h _ => hb (.inl h)

/-- A byte as it is written. -/
theorem readLiteral?_slashed (b : UInt8) (t : Text) : readLiteral? ((slashed? b).getD [b] ++ t) =
    (readLiteral? t).map fun p => (denotedByte b ++ p.1, p.2) := by
  rw [slashed?, denotedByte]
  split
  · rename_i h
    subst h
    exact readLiteral?_slash (.inl rfl)
  split
  · rename_i h
    subst h
    exact readLiteral?_slash (.inr rfl)
  split
  · exact readLiteral?_slash_of_ne (by decide)
  split
  · exact readLiteral?_slash_of_ne (by decide)
  · rename_i h₁ h₂ _ _
    exact readLiteral?_cons (by simp [h₁, h₂])

/-- A source as it is written. -/
theorem readLiteral?_substitute (s t : Text) : readLiteral? (s.substitute slashed? ++ t) =
    (readLiteral? t).map fun p => (s.flatMap denotedByte ++ p.1, p.2) := by
  induction s with
  | nil => simp
  | cons b s ih =>
    rw [Text.substitute, List.flatMap_cons, ← Text.substitute, List.append_assoc,
      readLiteral?_slashed, ih, Option.map_map, List.flatMap_cons]
    simp only [Function.comp_def, List.append_assoc]

theorem flatMap_denotedByte_eq_iff : s.flatMap denotedByte = s ↔ 0x22 ∉ s ∧ 0 ∉ s := by
  induction s with
  | nil => simp
  | cons b s ih =>
    rw [List.flatMap_cons, denotedByte]
    split
    · rename_i h
      simp [h]
    split
    · rename_i h
      simp [h]
    · rename_i h₁ h₂
      simp [ih, Ne.symm h₁, Ne.symm h₂]

/-- **What the code of a fixed text denotes.** The code is one literal. It denotes the source with a
backslash in front of each double quote, and a backslash and a zero for each NUL. So it denotes the
source exactly where there are none of them. -/
theorem denoted?_compileLiteral (s : Text) : ∃ v, denoted? (compileLiteral s).bare = some v ∧
    v = s.flatMap denotedByte ∧ (v = s ↔ 0x22 ∉ s ∧ 0 ∉ s) := by
  refine ⟨_, ?_, rfl, flatMap_denotedByte_eq_iff⟩
  have hread : readLiteral? (s.substitute slashed? ++ [0x27]) =
      some (s.flatMap denotedByte, []) := by
    rw [readLiteral?_substitute]
    simp [readLiteral?]
  have hcode : (compileLiteral s).bare = 0x27 :: (s.substitute slashed? ++ [0x27]) := rfl
  rw [denoted?, hcode, List.head?_cons, if_pos rfl, List.tail_cons, hread]
  rfl

/-- A double quote comes back with its backslash, and so does a NUL. -/
theorem denoted?_compileLiteral_ne : denoted? (compileLiteral "\"").bare ≠ some "\"" ∧
    denoted? (compileLiteral [0]).bare ≠ some [0] := by decide

example : denoted? (compileLiteral "say \"it's\"").bare = some "say \\\"it's\\\"" := by decide

end Stencil.Expression
