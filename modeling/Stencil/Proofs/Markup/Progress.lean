import Mathlib.Data.PFun
import Stencil.Proofs.Markup.Chunks

/-!
# Progress

Reading is bounded in the model: a loop is given the number of characters that are left, and has an
answer also when that is used up. Here the same loops are written without a bound. A loop is nothing
but a pass that is made again and again, as `PFun.fix` has it; it may have no outcome at all.

A pass ends the loop, or fails, or leaves fewer characters than it found. That is so at every
cursor, also in front of U+FFFD, where every look ahead fails and a move gives up the rest of the
input. Each case of a pass moves over a character that it has seen, or over markup that it has
accepted, and character data is never empty where neither `<` nor `&` is next. So every loop ends,
and its outcome is the one that the bounded reading has, for any bound that is large enough; and so
does the whole of a document. A pass that reads something with a loop of its own, as a start tag
does for the values of its attributes, gives it what is left as the bound, with which that reads the
same as with its loop.

## Main definitions

* `loop`, `Advances` – a loop, which may go on for ever; a pass that makes progress
* `Reader.turn`, `Scanner.turn` – a pass of a reader or scanner, as the loop sees it
* `Reader.valuePass`, `Reader.attributesPass`, `Reader.scanPass`, `Reader.doctypePass`,
  `Reader.chunkPass`, `Scanner.contentPass`, `Scanner.miscPass` – the passes
* `parse` – reading a source, with loops
* `Progressive` – what is promised of all this

## Main results

* `loop_eq` – a loop that makes progress ends, with what any description of it says
* `progressive` – every pass makes progress, every loop ends, and so does reading a source
-/

namespace Stencil.Markup

/-! ### Loops -/

section Loops

variable {σ ο ι : Type} {pass : σ → ο ⊕ σ} {left : σ → Nat}

open scoped Classical in
/-- A loop: one pass after the other, until one has an outcome. There is none if they go on for
ever. -/
noncomputable def loop (pass : σ → ο ⊕ σ) (s : σ) : Option ο :=
  ((pass : σ →. ο ⊕ σ).fix s).toOption

open scoped Classical in
/-- What a loop does after its first pass. -/
theorem loop_eq_elim (pass : σ → ο ⊕ σ) (s : σ) :
    loop pass s = (pass s).elim some (loop pass) := by
  have hmem : pass s ∈ (pass : σ →. ο ⊕ σ) s := Part.mem_some _
  cases hs : pass s with
  | inl o =>
    rw [hs] at hmem
    exact Part.toOption_eq_some_iff.mpr (PFun.fix_stop hmem)
  | inr s' =>
    rw [hs] at hmem
    rw [loop, PFun.fix_fwd_eq hmem]
    rfl

/-- A pass without an outcome leaves less than it found. -/
def Advances (left : σ → Nat) (pass : σ → ο ⊕ σ) : Prop :=
  ∀ s s', pass s = .inr s' → left s' < left s

/-- **A loop that makes progress ends.** Its outcome is what functions with a bound give that follow
it pass by pass, wherever the bound suffices. -/
theorem loop_eq {f : ι → σ → ο} {P : ι → Nat → Prop} (hpass : Advances left pass)
    (hf : ∀ i s, P i (left s) → ∃ j, f i s = (pass s).elim id (f j) ∧ ∀ k < left s, P j k)
    {i : ι} {s : σ} (h : P i (left s)) : loop pass s = some (f i s) := by
  induction hk : left s using Nat.strongRecOn generalizing i s with
  | ind k ih =>
    obtain ⟨j, hstep, hj⟩ := hf i s h
    rw [loop_eq_elim, hstep]
    cases hs : pass s with
    | inl o => rfl
    | inr s' =>
      have hlt : left s' < left s := hpass s s' hs
      exact ih (left s') (hk ▸ hlt) (hj _ hlt) rfl

end Loops

/-! ### Loops of readers -/

namespace Reader

variable {α β ι : Type} {r : Reader α} {pass : β → Reader (α ⊕ β)} {cur cur' : Cursor} {b : β}
  {q : Char} {n m : Nat} {term : String}

/-- A pass with what it knows and its cursor as the state: it ends the loop with a value or a fault,
or goes on. -/
def turn (pass : β → Reader (α ⊕ β)) (s : β × Cursor) : Except Stop (α × Cursor) ⊕ β × Cursor :=
  match pass s.1 s.2 with
  | .error stop => .inl (.error stop)
  | .ok (.inl a, cur) => .inl (.ok (a, cur))
  | .ok (.inr b, cur) => .inr (b, cur)

/-- The characters that are left when the cursor is a part of the state. -/
def leftover (s : β × Cursor) : Nat := s.2.rest.length

theorem bind_turn {g : β → Reader α} : (pass b >>= Sum.elim pure g) cur =
    (turn pass (b, cur)).elim id fun s => g s.1 s.2 := by
  rw [bind_apply, turn]
  rcases pass b cur with stop | ⟨a | b, cur'⟩ <;> rfl

/-- If the reader goes on, fewer than `k` characters are left. -/
def Proceeds (k : Nat) (r : Reader (α ⊕ β)) (cur : Cursor) : Prop :=
  ∀ b cur', r cur = .ok (.inr b, cur') → cur'.rest.length < k

theorem advances_turn (h : ∀ b cur, (pass b).Proceeds cur.rest.length cur) :
    Advances leftover (turn pass) := by
  rintro ⟨b, cur⟩ ⟨b', cur'⟩ hs
  rw [turn] at hs
  split at hs
  · cases hs
  · cases hs
  · rename_i hpass
    cases hs
    exact h b cur b' cur' hpass

/-- A loop of a reader ends like a bounded function that follows it. -/
theorem loop_turn {f : ι → β → Reader α} {P : ι → Nat → Prop} {i : ι}
    (hpass : Advances leftover (turn pass))
    (hf : ∀ i b cur, P i cur.rest.length →
      ∃ j, f i b cur = (pass b >>= Sum.elim pure (f j)) cur ∧ ∀ k < cur.rest.length, P j k)
    (h : P i cur.rest.length) : loop (turn pass) (b, cur) = some (f i b cur) := by
  refine loop_eq (f := fun i s => f i s.1 s.2) (s := (b, cur)) hpass (fun i s hs => ?_) h
  obtain ⟨j, hstep, hj⟩ := hf i s.1 s.2 hs
  exact ⟨j, hstep.trans bind_turn, hj⟩

namespace Proceeds

variable {γ : Type} {k : Nat} {x : Reader γ} {f : γ → Reader (α ⊕ β)} {r r' : Reader (α ⊕ β)}

theorem fail {fault : Fault} : (fail fault : Reader (α ⊕ β)).Proceeds k cur := nofun

theorem done {a : α} : (pure (.inl a) : Reader (α ⊕ β)).Proceeds k cur := nofun

theorem on (h : cur.rest.length < k) : (pure (.inr b) : Reader (α ⊕ β)).Proceeds k cur := by
  intro b' cur' hr
  cases hr
  exact h

theorem bind (h : ∀ a cur', x cur = .ok (a, cur') → (f a).Proceeds k cur') :
    (x >>= f).Proceeds k cur := by
  intro b cur' hr
  rw [bind_apply] at hr
  split at hr
  · rename_i hx
    exact h _ _ hx b cur' hr
  · cases hr

theorem ite {c : Prop} [Decidable c] (h : c → r.Proceeds k cur) (h' : ¬ c → r'.Proceeds k cur) :
    (if c then r else r').Proceeds k cur := by
  split
  · rename_i hc
    exact h hc
  · rename_i hc
    exact h' hc

/-- A check that stops the reader. -/
theorem guard {c : Prop} [Decidable c] {fault : Fault} {f : PUnit → Reader (α ⊕ β)}
    (h : ¬ c → (f ⟨⟩).Proceeds k cur) :
    (if c then Reader.fail fault >>= f else f ⟨⟩).Proceeds k cur :=
  ite (fun _ => .bind nofun) h

/-- Moving over something when something is left. -/
theorem advance {f : PUnit → Reader (α ⊕ β)} (h : (f ⟨⟩).Proceeds k (cur.advance n)) :
    (advance n >>= f).Proceeds k cur :=
  .bind fun _ _ hx => by
    cases hx
    exact h

end Proceeds

/-! ### The rest of an attribute value -/

/-- A pass through the rest of an attribute value, with what there is of the value. -/
def valuePass (q : Char) (value : List Char) : Reader (Text ⊕ List Char) := do
  match (← cursor).rest with
  | [] => fail .valueUnfinished
  | c :: rest =>
    if c = q then
      advance 1
      return .inl (Text.ofChars value.reverse)
    else if c = '<' then fail .lessThanInValue
    else if c = '&' then
      let d ← reference
      return .inr (d :: value)
    else if c = '\r' && rest.head? = some '\n' then
      advance 2
      return .inr (' ' :: value)
    else if c = '\t' || c = '\n' || c = '\r' then
      advance 1
      return .inr (' ' :: value)
    else if !isLegalChar c then fail (.illegalChar c)
    else
      advance 1
      return .inr (c :: value)

theorem advances_valuePass (q : Char) : Advances leftover (turn (valuePass q)) := by
  refine advances_turn fun value cur => ?_
  change Proceeds _ (match cur.rest with | [] => _ | _ :: _ => _) cur
  cases hrest : cur.rest with
  | nil => exact .fail
  | cons c rest =>
    have hmove {n : Nat} (hn : 0 < n) : (cur.advance n).rest.length < (c :: rest).length := by
      rw [← hrest]
      exact Cursor.length_rest_advance_lt hn (hrest ▸ List.cons_ne_nil c rest)
    refine .ite (fun _ => .bind fun _ _ _ => .done) fun _ => ?_
    refine .ite (fun _ => .fail) fun _ => ?_
    refine .ite (fun _ => .bind fun d cur' hd => .on ?_) fun _ => ?_
    · rw [← hrest]
      exact reference_shortens cur d cur' hd
    refine .ite (fun _ => .advance (.on (hmove Nat.two_pos))) fun _ => ?_
    refine .ite (fun _ => .advance (.on (hmove Nat.one_pos))) fun _ => ?_
    exact .ite (fun _ => .fail) fun _ => .advance (.on (hmove Nat.one_pos))

theorem valueRest_succ (q : Char) (n : Nat) (value : List Char) :
    valueRest q (n + 1) value = valuePass q value >>= Sum.elim pure (valueRest q n) := by
  rw [valueRest, valuePass, bind_assoc]
  congr 1
  funext cur
  cases cur.rest with
  | nil => rfl
  | cons c rest =>
    dsimp only
    repeat' split
    all_goals try rfl
    rw [bind_assoc]
    rfl

/-- The loop over the rest of a value ends, with any bound that suffices. -/
theorem loop_valuePass {value : List Char} (h : cur.rest.length ≤ n) :
    loop (turn (valuePass q)) (value, cur) = some (valueRest q n value cur) := by
  refine loop_turn (P := fun n k => k ≤ n) (advances_valuePass q) (fun n value cur h => ?_) h
  cases n with
  | zero =>
    refine ⟨0, ?_, fun k hk => absurd hk (by omega)⟩
    have hrest : cur.rest = [] := List.eq_nil_of_length_eq_zero (Nat.le_zero.mp h)
    rw [valuePass, bind_assoc, cursor_bind, hrest]
    rfl
  | succ n => exact ⟨n, congrFun (valueRest_succ q n value) cur, fun k hk => by omega⟩

/-! ### The attributes of a start tag -/

variable {W : α → Prop}

theorem Counts.length_le {a : α} (h : r.Counts W) (hr : r cur = .ok (a, cur')) :
    cur'.rest.length ≤ cur.rest.length := by
  obtain ⟨⟨n, rfl⟩, -⟩ := h cur a cur' hr
  exact Cursor.length_rest_advance_le n cur

theorem Shortens.bind {f : α → Reader β} {V : β → Prop} (h : r.Shortens)
    (hf : ∀ a, (f a).Counts V) : (r >>= f).Shortens := by
  intro cur b cur'' hb
  rw [bind_apply] at hb
  split at hb
  · rename_i a cur' hr
    exact Nat.lt_of_le_of_lt ((hf a).length_le hb) (h cur a cur' hr)
  · cases hb

theorem name_shortens : name.Shortens := by
  intro cur a cur' h
  rw [name, cursor_bind] at h
  cases hrest : cur.rest with
  | nil =>
    rw [hrest] at h
    cases h
  | cons c rest =>
    rw [hrest] at h
    dsimp only at h
    split at h
    · cases h
    split at h
    · cases h
    · cases h
      rw [← hrest]
      exact Cursor.length_rest_advance_lt (Nat.succ_pos _) (hrest ▸ List.cons_ne_nil c rest)

theorem qname_shortens : qname.Shortens := by
  refine name_shortens.bind (V := fun _ => True) fun n => ?_
  dsimp only
  split
  · exact .pure trivial
  · exact .guard fun _ => .pure trivial

theorem attr_shortens : (attr n).Shortens :=
  qname_shortens.bind (V := fun _ => True) fun _ => skipBlanks_counts.andThen fun _ =>
    demand_counts.andThen fun _ => skipBlanks_counts.andThen fun _ =>
      attributeValue_counts.bind fun _ _ => .pure trivial

/-- What comes behind a reader may depend on what is left there. -/
theorem bind_congr_of_counts {f g : α → Reader β} (h : r.Counts W)
    (hfg : ∀ a cur', cur'.rest.length ≤ cur.rest.length → f a cur' = g a cur') :
    (r >>= f) cur = (r >>= g) cur := by
  rw [bind_apply, bind_apply]
  split
  · rename_i a cur' hr
    exact hfg a cur' (h.length_le hr)
  · rfl

theorem valueRest_congr {value : List Char} (hn : cur.rest.length ≤ n) (hm : cur.rest.length ≤ m) :
    valueRest q n value cur = valueRest q m value cur :=
  Option.some.inj ((loop_valuePass hn).symm.trans (loop_valuePass hm))

theorem attributeValue_congr (hn : cur.rest.length ≤ n) (hm : cur.rest.length ≤ m) :
    attributeValue n cur = attributeValue m cur := by
  rw [attributeValue, attributeValue, cursor_bind, cursor_bind]
  cases cur.rest with
  | nil => rfl
  | cons q rest =>
    dsimp only
    split
    · rfl
    · exact bind_congr_of_counts advance_counts fun _ cur' h' =>
        valueRest_congr (h'.trans hn) (h'.trans hm)

/-- An attribute does not depend on the bound for its value. -/
theorem attr_congr (hn : cur.rest.length ≤ n) (hm : cur.rest.length ≤ m) :
    attr n cur = attr m cur := by
  refine bind_congr_of_counts qname_counts fun _ cur₁ h₁ => ?_
  refine bind_congr_of_counts skipBlanks_counts fun _ cur₂ h₂ => ?_
  refine bind_congr_of_counts demand_counts fun _ cur₃ h₃ => ?_
  refine bind_congr_of_counts skipBlanks_counts fun _ cur₄ h₄ => ?_
  rw [bind_apply, bind_apply, attributeValue_congr (n := n) (m := m) (by omega) (by omega)]

/-- A pass through a start tag, with the attributes so far. -/
def attributesPass (attrs : List Attr) : Reader ((List Attr × Bool) ⊕ List Attr) := do
  let blank ← skipBlanks
  if (← cursor).done then fail .unexpectedEnd
  if ← accept "/>" then return .inl (attrs.reverse, true)
  if ← accept ">" then return .inl (attrs.reverse, false)
  if !blank then fail .spaceRequired
  let a ← attr (← cursor).rest.length
  return .inr (a :: attrs)

theorem advances_attributesPass : Advances leftover (turn attributesPass) := by
  refine advances_turn fun attrs cur => .bind fun blank cur₁ h₁ =>
      .bind fun _ cur₂ h₂ => .guard fun _ =>
    .bind fun _ cur₃ h₃ => .ite (fun _ => .done) fun _ => .bind fun _ cur₄ h₄ =>
      .ite (fun _ => .done)
      fun _ => .guard fun _ => .bind fun _ cur₅ h₅ => .bind fun a cur₆ h₆ => .on ?_
  cases h₂
  cases h₅
  have hblanks := skipBlanks_counts.length_le h₁
  have hclosing := accept_counts.length_le h₃
  have hend := accept_counts.length_le h₄
  have hattr := attr_shortens _ _ _ h₆
  omega

theorem attributes_succ {attrs : List Attr} (h : cur.rest.length ≤ n) :
    attributes (n + 1) attrs cur = (attributesPass attrs >>= Sum.elim pure (attributes n)) cur := by
  rw [attributes, attributesPass, bind_assoc]
  refine bind_congr_of_counts skipBlanks_counts fun blank cur₁ h₁ => ?_
  rw [bind_assoc, cursor_bind, cursor_bind]
  by_cases hdone : cur₁.done
  · rw [if_pos hdone, if_pos hdone]
    rfl
  rw [if_neg hdone, if_neg hdone, bind_assoc]
  refine bind_congr_of_counts accept_counts fun closing cur₂ h₂ => ?_
  cases closing with
  | true => rfl
  | false =>
    refine (bind_congr_of_counts accept_counts fun ending cur₃ h₃ => ?_).trans
      (congrFun (bind_assoc _ _ _) cur₂).symm
    cases ending with
    | true => rfl
    | false =>
      cases blank with
      | false => rfl
      | true =>
        have hattr : attr n cur₃ = attr cur₃.rest.length cur₃ :=
          attr_congr (by omega) (Nat.le_refl _)
        simp only [Bool.not_true, Bool.false_eq_true, if_false, bind_assoc, pure_bind]
        rw [cursor_bind, bind_apply, bind_apply, hattr]
        rfl

/-- The loop over the attributes ends, with any bound that suffices. -/
theorem loop_attributesPass {attrs : List Attr} (h : cur.rest.length < n) :
    loop (turn attributesPass) (attrs, cur) = some (attributes n attrs cur) := by
  refine loop_turn (P := fun n k => k < n) advances_attributesPass (fun n attrs cur h => ?_) h
  cases n with
  | zero => exact absurd h (Nat.not_lt_zero _)
  | succ n => exact ⟨n, attributes_succ (Nat.le_of_lt_succ h), fun k hk => by omega⟩

theorem startTag_congr (hn : cur.rest.length ≤ n) (hm : cur.rest.length ≤ m) :
    startTag n cur = startTag m cur := by
  refine bind_congr_of_counts demand_counts fun _ cur₁ h₁ => ?_
  refine bind_congr_of_counts qname_counts fun _ cur₂ h₂ => ?_
  have hattrs : attributes (n + 1) [] cur₂ = attributes (m + 1) [] cur₂ :=
    Option.some.inj ((loop_attributesPass (by omega)).symm.trans (loop_attributesPass (by omega)))
  rw [bind_apply, bind_apply, hattrs]

/-! ### Searching for a terminator -/

/-- A pass of the search for a terminator, with the characters before it so far, the latest
first. -/
def scanPass (term : String) (before : List Char) : Reader (Option Text ⊕ List Char) := do
  match (← cursor).rest with
  | [] => return .inl none
  | c :: _ =>
    if ← accept term then return .inl (some (Text.ofChars (unifyLineEnds before.reverse)))
    if !isLegalChar c then fail (.illegalChar c)
    advance 1
    return .inr (c :: before)

theorem advances_scanPass (term : String) : Advances leftover (turn (scanPass term)) := by
  refine advances_turn fun before cur => ?_
  change Proceeds _ (match cur.rest with | [] => _ | _ :: _ => _) cur
  cases hrest : cur.rest with
  | nil => exact .done
  | cons c rest =>
    have hne : cur.rest ≠ [] := hrest ▸ List.cons_ne_nil c rest
    refine .bind fun found cur₁ h₁ => ?_
    rw [accept_apply] at h₁
    split at h₁
    · cases h₁
      exact .done
    · cases h₁
      rw [← hrest]
      exact .ite nofun fun _ => .guard fun _ =>
        .advance (.on (Cursor.length_rest_advance_lt Nat.one_pos hne))

/-- The search for a terminator behind characters that were passed already. -/
def scanRest (term : String) (before : List Char) : Reader (Option Text) := fun cur =>
  match upTo term.toList cur.rest with
  | (more, .found) => .ok (some (Text.ofChars (unifyLineEnds (before.reverse ++ more))),
      (cur.advance more.length).advance term.length)
  | (more, .exhausted) => .ok (none, cur.advance more.length)
  | (more, .illegal c) => .error ⟨(cur.advance more.length).position, .illegalChar c⟩

theorem scanTo_eq_scanRest : scanTo term = scanRest term [] := by
  funext cur
  rw [scanTo_apply]
  rfl

theorem scanRest_eq {before : List Char} : scanRest term before cur =
    (scanPass term before >>= Sum.elim pure (scanRest term)) cur := by
  rw [scanPass, bind_assoc, cursor_bind, scanRest]
  cases hrest : cur.rest with
  | nil => rfl
  | cons c rest =>
    dsimp only
    rw [bind_assoc, bind_apply, accept_apply, Cursor.startsWith, hrest, upTo]
    by_cases hterm : term.toList.isPrefixOf (c :: rest)
    · rw [if_pos hterm, if_pos hterm]
      simp only [List.append_nil]
      rfl
    rw [if_neg hterm, if_neg hterm]
    by_cases hlegal : !isLegalChar c
    · rw [if_pos hlegal]
      simp only [hlegal, Bool.false_eq_true, if_false, if_true]
      rfl
    -- a legal character is passed, and what is found behind it is found from here
    have hclean : Clean [c] := clean_of_legal (by simpa using hlegal)
    have hnext : (cur.advance 1).rest = rest := Cursor.rest_advance_append hclean hrest
    rw [if_neg hlegal]
    simp only [Bool.false_eq_true, if_false, hlegal]
    change _ = scanRest term (c :: before) (cur.advance 1)
    rw [scanRest, hnext]
    rcases upTo term.toList rest with ⟨more, e⟩
    cases e <;> simp [Cursor.advance_advance, Nat.add_comm 1]

/-- The loop of the search ends. -/
theorem loop_scanPass {before : List Char} :
    loop (turn (scanPass term)) (before, cur) = some (scanRest term before cur) :=
  loop_turn (ι := Unit) (f := fun _ => scanRest term) (P := fun _ _ => True) (i := ())
    (advances_scanPass term) (fun _ _ _ _ => ⟨(), scanRest_eq, fun _ _ => trivial⟩) trivial

/-! ### The document type declaration -/

/-- A pass through a document type declaration, with the quote that is open, the number of brackets
that are open, and the characters so far, the latest first. -/
def doctypePass (state : Option Char × Int × List Char) :
    Reader (Text ⊕ Option Char × Int × List Char) := do
  let (quote, depth, text) := state
  match (← cursor).rest with
  | [] => fail .doctypeUnfinished
  | c :: _ =>
    advance 1
    match quote with
    | some q => return .inr (if c = q then none else some q, depth, c :: text)
    | none =>
      if c = '"' || c = '\'' then return .inr (some c, depth, c :: text)
      else if c = '[' then return .inr (none, depth + 1, c :: text)
      else if c = ']' then return .inr (none, depth - 1, c :: text)
      else if c = '>' && depth = 0 then
        return .inl (Text.ofChars (unifyLineEnds (c :: text).reverse))
      else return .inr (none, depth, c :: text)

theorem advances_doctypePass : Advances leftover (turn doctypePass) := by
  refine advances_turn fun state cur => ?_
  change Proceeds _ (match cur.rest with | [] => _ | _ :: _ => _) cur
  cases hrest : cur.rest with
  | nil => exact .fail
  | cons c rest =>
    have hmove : (cur.advance 1).rest.length < (c :: rest).length := by
      rw [← hrest]
      exact Cursor.length_rest_advance_lt Nat.one_pos (hrest ▸ List.cons_ne_nil c rest)
    refine .advance ?_
    cases state.1 with
    | some q => exact .on hmove
    | none =>
      exact .ite (fun _ => .on hmove) fun _ => .ite (fun _ => .on hmove) fun _ =>
        .ite (fun _ => .on hmove) fun _ => .ite (fun _ => .done) fun _ => .on hmove

/-- The rest of a document type declaration behind characters that were passed already. -/
def doctypeRest (state : Option Char × Int × List Char) : Reader Text := fun cur =>
  match doctypeLength? state.1 state.2.1 (cur.rest.takeWhile (· != Text.replacement)) with
  | some n => .ok (Text.ofChars (unifyLineEnds (state.2.2.reverse ++ cur.rest.take n)),
    cur.advance n)
  | none => .error ⟨(cur.advance cur.rest.length).position, .doctypeUnfinished⟩

theorem doctype_eq_doctypeRest : doctype = doctypeRest (none, 0, []) := by
  funext cur
  rw [doctype, cursor_bind, doctypeRest]
  dsimp only
  cases doctypeLength? none 0 (cur.rest.takeWhile (· != Text.replacement)) <;> rfl

theorem doctypeLength?_nil (quote : Option Char) (depth : Int) :
    doctypeLength? quote depth [] = none := by
  cases quote <;> rfl

/-- A character that does not end the declaration. -/
theorem doctypeRest_advance {quote quote' : Option Char} {depth depth' : Int}
    {text rest : List Char}
    {c : Char} (hrest : cur.rest = c :: rest)
    (hlength : ∀ cs, doctypeLength? quote depth (c :: cs) =
      (doctypeLength? quote' depth' cs).map (· + 1)) :
    doctypeRest (quote, depth, text) cur = doctypeRest
      (quote', depth', c :: text) (cur.advance 1) := by
  have hmoves (n : Nat) : (cur.advance 1).advance n = cur.advance (n + 1) := by
    rw [Cursor.advance_advance, Nat.add_comm]
  rw [doctypeRest, doctypeRest]
  dsimp only
  by_cases hc : c = Text.replacement
  · -- the rest of the input is given up
    have hgone : (cur.advance 1).rest = [] := by
      rw [Cursor.advance, hrest]
      simp [hc, Cursor.giveUp]
    have hnone : (c :: rest).takeWhile (· != Text.replacement) = [] := by simp [hc]
    rw [hrest, hnone, hgone, List.takeWhile_nil, doctypeLength?_nil, doctypeLength?_nil]
    dsimp only
    rw [List.length_nil, hmoves, List.length_cons, ← hmoves, Cursor.advance_of_done hgone]
  · have hnext : (cur.advance 1).rest = rest := by
      have hclean : Clean [c] := by simpa [Clean] using Ne.symm hc
      exact Cursor.rest_advance_append hclean hrest
    rw [hrest, hnext, List.takeWhile_cons_of_pos (by simpa using hc), hlength]
    cases doctypeLength? quote' depth' (rest.takeWhile (· != Text.replacement)) with
    | none =>
      dsimp only [Option.map_none]
      rw [hmoves]
      rfl
    | some n =>
      dsimp only [Option.map_some]
      rw [hmoves, List.take_succ_cons, List.reverse_cons, List.append_assoc]
      rfl

theorem doctypeRest_eq {state : Option Char × Int × List Char} : doctypeRest state cur =
    (doctypePass state >>= Sum.elim pure doctypeRest) cur := by
  obtain ⟨quote, depth, text⟩ := state
  rw [doctypePass, bind_assoc, cursor_bind]
  cases hrest : cur.rest with
  | nil =>
    rw [doctypeRest, hrest, List.takeWhile_nil, doctypeLength?_nil]
    rfl
  | cons c rest =>
    cases quote with
    | some q => exact doctypeRest_advance hrest fun cs => rfl
    | none =>
      change _ = ((if c = '"' || c = '\'' then pure (.inr (some c, depth, c :: text))
        else if c = '[' then pure (.inr (none, depth + 1, c :: text))
        else if c = ']' then pure (.inr (none, depth - 1, c :: text))
        else if c = '>' && depth =
          0 then pure (.inl (Text.ofChars (unifyLineEnds (c :: text).reverse)))
        else pure (.inr (none, depth, c :: text)) : Reader _) >>= Sum.elim pure doctypeRest)
          (cur.advance 1)
      by_cases hend : c = '>' && depth = 0
      · obtain ⟨rfl, rfl⟩ : c = '>' ∧ depth = 0 := by simpa using hend
        have hone : doctypeLength? none 0 (('>' :: rest).takeWhile (· != Text.replacement)) =
            some 1 :=
          rfl
        rw [doctypeRest, hrest, hone, List.reverse_cons]
        rfl
      · split
        · rename_i hquote
          exact doctypeRest_advance hrest fun cs => by rw [doctypeLength?,
            if_neg hend, if_pos hquote]
        rename_i hquote
        split
        · rename_i hopen
          exact doctypeRest_advance hrest fun cs => by
            rw [doctypeLength?, if_neg hend, if_neg hquote, if_pos hopen]
        rename_i hopen
        split
        · rename_i hclose
          exact doctypeRest_advance hrest fun cs => by
            rw [doctypeLength?, if_neg hend, if_neg hquote, if_neg hopen, if_pos hclose]
        rename_i hclose
        exact doctypeRest_advance hrest fun cs => by
          rw [doctypeLength?, if_neg hend, if_neg hquote, if_neg hopen, if_neg hclose]

/-- The loop through a document type declaration ends. -/
theorem loop_doctypePass {state : Option Char × Int × List Char} :
    loop (turn doctypePass) (state, cur) = some (doctypeRest state cur) :=
  loop_turn (ι := Unit) (f := fun _ => doctypeRest) (P := fun _ _ => True) (i := ())
    advances_doctypePass (fun _ _ _ _ => ⟨(), doctypeRest_eq, fun _ _ => trivial⟩) trivial

/-! ### Character data -/

/-- A pass through character data: a chunk, with the run so far. -/
def chunkPass (run : List Char) : Reader (List Char ⊕ List Char) := do
  let (more, e) := dataRun chunkSize (← cursor).rest
  advance more.length
  match e with
  | .full => return .inr (run ++ more)
  | .markup | .exhausted => return .inl (run ++ more)
  | .cdataEnd => fail .strayCdataEnd
  | .illegal c => fail (.illegalChar c)

theorem length_of_dataRun_full {cs run : List Char} (h : dataRun n cs = (run, .full)) :
    run.length = n ∧ n ≤ cs.length := by
  rw [dataRun_eq] at h
  split at h
  · exact absurd (congrArg Prod.snd h) (wholeRun_ne_full cs)
  · rename_i hlong
    have hle := Nat.le_of_not_lt hlong
    cases h
    exact ⟨by rw [List.length_take, Nat.min_eq_left hle], hle.trans (length_wholeRun_le cs)⟩

theorem advances_chunkPass : Advances leftover (turn chunkPass) := by
  refine advances_turn fun run cur => .bind fun _ cur' h => ?_
  cases h
  rcases hdata : dataRun chunkSize cur.rest with ⟨more, e⟩
  refine .advance ?_
  cases e with
  | full =>
    obtain ⟨hlength, hle⟩ := length_of_dataRun_full hdata
    have hpos : 0 < more.length := hlength ▸ by decide
    have hne : cur.rest ≠ [] := List.ne_nil_of_length_pos (by omega)
    exact .on (Cursor.length_rest_advance_lt hpos hne)
  | markup | exhausted => exact .done
  | cdataEnd => exact .fail
  | illegal c => exact .fail

/-- The run of character data behind one that was consumed already. -/
def moreCharacters (n : Nat) (run : List Char) : Reader (List Char) := do
  return run ++ (← characterRun chunkSize n)

theorem moreCharacters_succ (n : Nat) (run : List Char) : moreCharacters (n + 1) run =
    chunkPass run >>= Sum.elim pure (moreCharacters n) := by
  rw [moreCharacters, characterRun, chunkPass, bind_assoc, bind_assoc]
  congr 1
  funext cur
  rcases dataRun chunkSize cur.rest with ⟨more, e⟩
  cases e with
  | full => simp only [bind_assoc, pure_bind, Sum.elim_inr, moreCharacters, List.append_assoc]
  | markup | exhausted => rfl
  | cdataEnd => rfl
  | illegal c => rfl

/-- The loop through character data ends, with any bound that suffices. -/
theorem loop_chunkPass {run : List Char} (h : cur.rest.length < n) :
    loop (turn chunkPass) (run, cur) = some (moreCharacters n run cur) := by
  refine loop_turn (P := fun n k => k < n) advances_chunkPass (fun n run cur h => ?_) h
  cases n with
  | zero => exact absurd h (Nat.not_lt_zero _)
  | succ n => exact ⟨n, congrFun (moreCharacters_succ n run) cur, fun k hk => by omega⟩

end Reader

/-! ### Loops of scanners -/

namespace Scanner

open Stencil.Action (Yields)

variable {s s' : Scan} {n m : Nat} {canceled : Bool} {pass : Scanner Bool}

/-- A pass with the scan as the state: it goes on if its value says so. -/
def turn (pass : Scanner Bool) (s : Scan) : (Except Ending Unit × Scan) ⊕ Scan :=
  match pass s with
  | (.error e, s) => .inl (.error e, s)
  | (.ok false, s) => .inl (.ok (), s)
  | (.ok true, s) => .inr s

/-- The characters that are left to a scan. -/
def leftover (s : Scan) : Nat := s.cursor.rest.length

theorem advances_turn
    (h : ∀ s, Yields pass s fun more s' => more → s'.cursor.rest.length < s.cursor.rest.length) :
    Advances leftover (turn pass) := by
  intro s s' hs
  rw [turn] at hs
  split at hs
  · cases hs
  · cases hs
  · rename_i hpass
    cases hs
    exact h s true _ hpass rfl

theorem bind_turn {k : Scanner Unit} : (pass >>= fun more => if more then k else pure ()) s =
    (turn pass s).elim id k := by
  rw [bind_apply, turn]
  rcases pass s with ⟨e | more, s'⟩
  · rfl
  · cases more <;> rfl

/-- A loop of a scanner ends like a bounded function that follows it. -/
theorem loop_turn {f : Nat → Scanner Unit} {P : Nat → Nat → Prop}
    (hpass : Advances leftover (turn pass))
    (hf : ∀ n s, P n s.cursor.rest.length →
      ∃ m, f n s = (pass >>= fun more => if more then f m else pure ()) s ∧
        ∀ k < s.cursor.rest.length, P m k)
    (h : P n s.cursor.rest.length) : loop (turn pass) s = some (f n s) := by
  refine loop_eq (f := f) hpass (fun n s hs => ?_) h
  obtain ⟨m, hstep, hm⟩ := hf n s hs
  exact ⟨m, hstep.trans bind_turn, hm⟩

/-- A pass through what stands around the root element. -/
def miscPass : Scanner Bool := do
  let _ ← read Reader.skipBlanks
  let cur ← cursor
  if cur.startsWith "<?" then
    instruction
    return true
  else if cur.startsWith "<!--" then
    comment
    return true
  else return false

/-- A pass through the content of elements. -/
def contentPass (canceled : Bool) : Scanner Bool := do
  let s ← get
  if s.opened.isEmpty then return false
  if s.cursor.done then fail .unexpectedEnd
  contentItem canceled s.cursor.rest.length
  return true

theorem read_length_le {α : Type} {r : Reader α} {W : α → Prop} (hr : r.Counts W) :
    Yields (read r) s fun _ s' => s'.cursor.rest.length ≤ s.cursor.rest.length := by
  intro a s' h
  rw [read] at h
  split at h
  · rename_i hread
    cases h
    exact hr.length_le hread
  · cases h

theorem advances_miscPass : Advances leftover (turn miscPass) := by
  refine advances_turn fun s => .bind ((read_length_le Reader.skipBlanks_counts).imp
    fun _ s₁ h₁ => .bind (.bind (.get (.pure ?_))))
  split
  · exact .bind ((construct_shortens Reader.instruction_shortens).imp fun _ s₂ h₂ =>
      .pure fun _ => Nat.lt_of_lt_of_le h₂ h₁)
  split
  · exact .bind ((construct_shortens Reader.comment_shortens).imp fun _ s₂ h₂ =>
      .pure fun _ => Nat.lt_of_lt_of_le h₂ h₁)
  · exact .pure nofun

theorem misc_succ (n : Nat) :
    misc (n + 1) = miscPass >>= fun more => if more then misc n else pure () := by
  rw [misc, miscPass, bind_assoc]
  congr 1
  funext _
  rw [bind_assoc]
  congr 1
  funext cur
  split
  · rw [bind_assoc]
    rfl
  split
  · rw [bind_assoc]
    rfl
  · rfl

/-- The loop around the root element ends, with any bound that suffices. -/
theorem loop_miscPass (h : s.cursor.rest.length < n) :
    loop (turn miscPass) s = some (misc n s) := by
  refine loop_turn (P := fun n k => k < n) advances_miscPass (fun n s h => ?_) h
  cases n with
  | zero => exact absurd h (Nat.not_lt_zero _)
  | succ n => exact ⟨n, congrFun (misc_succ n) s, fun k hk => by omega⟩

theorem advances_contentPass : Advances leftover (turn (contentPass canceled)) := by
  refine advances_turn fun s => .bind (.get ?_)
  split
  · exact .pure nofun
  split
  · exact .bind nofun
  · rename_i hdone
    have hrest : s.cursor.rest ≠ [] := by simpa [Cursor.done] using hdone
    exact .bind ((contentItem_shortens (Nat.le_refl _) hrest).imp fun _ _ h => .pure fun _ => h)

/-- An item of content does not depend on the bound. -/
theorem contentItem_congr (hn : s.cursor.rest.length ≤ n) (hm : s.cursor.rest.length ≤ m) :
    contentItem canceled n s = contentItem canceled m s := by
  have hcursor : cursor s = (.ok s.cursor, s) := rfl
  have hread : read (Reader.startTag n) s = read (Reader.startTag m) s := by
    rw [read, read, Reader.startTag_congr hn hm]
  have htag : startTag n s = startTag m s := by
    rw [startTag, startTag, bind_apply, bind_apply, hcursor]
    exact Action.bind_congr hread
  have hcharacters : characters n s = characters m s :=
    (characters_eq_atOnce hn).trans (characters_eq_atOnce hm).symm
  have hthrow (k : PUnit → Scanner Unit) :
      (throw .canceled >>= k) s = ((.error .canceled, s) : Except Ending Unit × Scan) := rfl
  rw [contentItem, contentItem, bind_apply, bind_apply, hcursor]
  dsimp only
  split
  · rfl
  split
  · rfl
  split
  · rfl
  split
  · rfl
  split
  · split
    · rw [hthrow, hthrow]
    · exact htag
  split
  · rfl
  · exact hcharacters

theorem content_succ (h : s.cursor.rest.length ≤ n + 1) : content canceled (n + 1) s =
    (contentPass canceled >>= fun more => if more then content canceled n else pure ()) s := by
  change (if s.opened.isEmpty then pure () else _ : Scanner Unit) s =
    ((if s.opened.isEmpty then pure false else _ : Scanner Bool) >>= _) s
  by_cases hopened : s.opened.isEmpty
  · rw [if_pos hopened, if_pos hopened]
    rfl
  rw [if_neg hopened, if_neg hopened]
  by_cases hdone : s.cursor.done
  · rw [if_pos hdone, if_pos hdone]
    rfl
  rw [if_neg hdone, if_neg hdone, bind_assoc]
  exact Action.bind_congr (contentItem_congr h (Nat.le_refl _))

/-- The loop through the content of elements ends, with any bound that suffices. -/
theorem loop_contentPass (h : s.cursor.rest.length ≤ n) :
    loop (turn (contentPass canceled)) s = some (content canceled n s) := by
  refine loop_turn (P := fun n k => k ≤ n) advances_contentPass (fun n s h => ?_) h
  cases n with
  | zero =>
    refine ⟨0, ?_, fun k hk => absurd hk (by omega)⟩
    have hdone : s.cursor.done := by simpa [Cursor.done] using h
    rw [content, contentPass, bind_assoc]
    change (if s.opened.isEmpty then _ else _ : Scanner Unit) s =
      ((if s.opened.isEmpty then _ else if s.cursor.done then _ else _ : Scanner Bool) >>= _) s
    rw [if_pos hdone]
    split <;> rfl
  | succ n => exact ⟨n, content_succ h, fun k hk => by omega⟩

/-! ### Documents -/

/-- The root element and what comes behind it, with loops. -/
noncomputable def rootLoop (canceled : Bool) : Process Ending Scan Unit := do
  let cur ← cursor
  if !cur.startsWith "<" then fail .rootRequired
  startTag cur.rest.length
  loop (turn (contentPass canceled))
  loop (turn miscPass)
  finish

/-- What comes behind the declaration, with loops. -/
noncomputable def prologLoop (canceled : Bool) : Process Ending Scan Unit := do
  loop (turn miscPass)
  if (← cursor).startsWith "<!DOCTYPE" then
    construct Reader.doctype .doctype
    loop (turn miscPass)
  rootLoop canceled

/-- A document, with loops. -/
noncomputable def documentLoop (canceled : Bool) : Process Ending Scan Unit := do
  let start ← cursor
  emit start .locator
  emit start .startDocument
  if atDeclaration start then construct Reader.declaration fun d => .declaration d.1 d.2.1 d.2.2
  prologLoop canceled

section Bounded

variable {α : Type} {x : Scanner α} {f : α → Process Ending Scan Unit} {g : α → Scanner Unit}

theorem lift_bind (h : ∀ a, f a = Action.toProcess (g a)) :
    Action.toProcess x >>= f = Action.toProcess (x >>= g) :=
  Process.bind_eq_toProcess rfl h

theorem loop_miscPass_bind {f : Unit → Process Ending Scan Unit} {g : Unit → Scanner Unit}
    (h : ∀ a, f a = Action.toProcess (g a)) :
    loop (turn miscPass) >>= f = Action.toProcess (miscs >>= g) :=
  Process.bind_eq_toProcess (funext fun _ => loop_miscPass (Nat.lt_succ_self _)) h

theorem rootLoop_eq : rootLoop canceled = Action.toProcess (fromRoot canceled) := by
  have hcontent : loop (turn (contentPass canceled)) =
      Action.toProcess (do content canceled (← cursor).rest.length) :=
    funext fun _ => loop_contentPass (Nat.le_refl _)
  refine lift_bind fun cur => ?_
  split
  · exact lift_bind fun _ => lift_bind fun _ => Process.bind_eq_toProcess hcontent fun _ =>
      loop_miscPass_bind fun _ => rfl
  · exact lift_bind fun _ => Process.bind_eq_toProcess hcontent fun _ =>
      loop_miscPass_bind fun _ => rfl

theorem prologLoop_eq : prologLoop canceled = Action.toProcess (fromProlog canceled) := by
  refine loop_miscPass_bind fun _ => lift_bind fun cur => ?_
  split
  · exact lift_bind fun _ => loop_miscPass_bind fun _ => rootLoop_eq
  · exact rootLoop_eq

/-- What is read with loops is what is read with bounds. -/
theorem documentLoop_eq : documentLoop canceled = Action.toProcess (document canceled) := by
  rw [documentLoop, document_eq]
  refine lift_bind fun start => lift_bind fun _ => lift_bind fun _ => ?_
  split
  · exact lift_bind fun _ => prologLoop_eq
  · exact prologLoop_eq

end Bounded

end Scanner

/-- The events of a decoded source, and how reading it ended, if reading with loops comes to an
end. -/
noncomputable def parse (canceled : Bool) (source : List Char) : Option (List Located × Ending) :=
  match Scanner.documentLoop canceled { cursor := Cursor.start source } with
  | none => none
  | some (.ok (), s) => some (s.events.reverse, .complete)
  | some (.error e, s) => some (s.events.reverse, e)

/-- **Reading a source ends**, with the events and the ending of the bounded scan. -/
theorem parse_eq_scan (canceled : Bool) (source : List Char) :
    parse canceled source = some (scan canceled source) := by
  rw [parse, scan, Scanner.documentLoop_eq, Action.toProcess, ExceptT.run]
  rcases Scanner.document canceled { cursor := Cursor.start source } with ⟨e | a, s⟩
  · rfl
  · rfl

/-- What is promised of the loops: a pass ends its loop, fails, or leaves fewer characters than it
found; a loop has an outcome, which is what is read with any bound that suffices; and so has reading
a source. -/
structure Progressive (canceled : Bool) : Prop where
  /-- The content of elements. -/
  content : Advances Scanner.leftover (Scanner.turn (Scanner.contentPass canceled))
  content_ends (n : Nat) (s : Scan) : s.cursor.rest.length ≤ n →
    loop (Scanner.turn (Scanner.contentPass canceled)) s = some (Scanner.content canceled n s)
  /-- What stands around the root element. -/
  misc : Advances Scanner.leftover (Scanner.turn Scanner.miscPass)
  misc_ends (n : Nat) (s : Scan) : s.cursor.rest.length < n →
    loop (Scanner.turn Scanner.miscPass) s = some (Scanner.misc n s)
  /-- The attributes of a start tag. -/
  attributes : Advances Reader.leftover (Reader.turn Reader.attributesPass)
  attributes_ends (n : Nat) (attrs : List Attr) (cur : Cursor) : cur.rest.length < n →
    loop (Reader.turn Reader.attributesPass) (attrs, cur) = some (Reader.attributes n attrs cur)
  /-- The value of an attribute. -/
  value (q : Char) : Advances Reader.leftover (Reader.turn (Reader.valuePass q))
  value_ends (q : Char) (n : Nat) (value : List Char) (cur : Cursor) : cur.rest.length ≤ n →
    loop (Reader.turn (Reader.valuePass q)) (value, cur) = some (Reader.valueRest q n value cur)
  /-- The search for a terminator. -/
  scan (term : String) : Advances Reader.leftover (Reader.turn (Reader.scanPass term))
  scan_ends (term : String) (cur : Cursor) :
    loop (Reader.turn (Reader.scanPass term)) ([], cur) = some (Reader.scanTo term cur)
  /-- The document type declaration. -/
  doctype : Advances Reader.leftover (Reader.turn Reader.doctypePass)
  doctype_ends (cur : Cursor) :
    loop (Reader.turn Reader.doctypePass) ((none, 0, []), cur) = some (Reader.doctype cur)
  /-- A run of character data. -/
  characters : Advances Reader.leftover (Reader.turn Reader.chunkPass)
  characters_ends (n : Nat) (cur : Cursor) : cur.rest.length < n →
    loop (Reader.turn Reader.chunkPass) ([], cur) = some (Reader.characterRun chunkSize n cur)
  /-- A whole source. -/
  source_ends (source : List Char) : parse canceled source = some (Markup.scan canceled source)

/-- **Reading makes progress**, at every cursor of every source, whether or not it could be
decoded. -/
theorem progressive (canceled : Bool) : Progressive canceled where
  content := Scanner.advances_contentPass
  content_ends _ _ := Scanner.loop_contentPass
  misc := Scanner.advances_miscPass
  misc_ends _ _ := Scanner.loop_miscPass
  attributes := Reader.advances_attributesPass
  attributes_ends _ _ _ := Reader.loop_attributesPass
  value := Reader.advances_valuePass
  value_ends _ _ _ _ := Reader.loop_valuePass
  scan := Reader.advances_scanPass
  scan_ends term cur := by rw [Reader.loop_scanPass, Reader.scanTo_eq_scanRest]
  doctype := Reader.advances_doctypePass
  doctype_ends cur := by rw [Reader.loop_doctypePass, Reader.doctype_eq_doctypeRest]
  characters := Reader.advances_chunkPass
  characters_ends n cur h := by
    have hall : Reader.moreCharacters n [] = Reader.characterRun chunkSize n := bind_pure _
    rw [Reader.loop_chunkPass h, hall]
  source_ends := parse_eq_scan canceled

end Stencil.Markup
