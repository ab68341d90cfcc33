import Mathlib.Data.List.Induction
import Mathlib.Logic.Function.Basic
import Stencil.Code.Buffers
import Stencil.Proofs.Text.Pieces

/-!
# What is linked after any calls

A place of a node counts as used from the first call that writes to it until the node is emptied,
and linking writes a literal exactly behind a place that counts as used. That is not the same as a
place that holds code: copying from a place that is empty writes nothing, and yet the place it is
copied to counts as used from then on. Such a place is hollow. A literal behind it is written
although nothing stands in front of it, and it is the only reason why a link can be more than the
contents of its places and the literals behind those that hold something.

## Main definitions

* `Call` – the calls that change code buffers; `Call.run` – the buffers of all nodes after some
  calls
* `Call.Written`, `Call.Filled` – a place was written to, or code was added to it, and the node was
  not emptied since
* `Buffers.emission` – the parts of a link one after the other
* `Buffers.Hollow` – used and empty

## Main results

* `Call.isUsed_run`, `Call.hasContent_run` – what the calls before have to do with a place
* `Buffers.emission_eq_iff` – when it makes no difference whether a place is used or holds code
* `Call.link_run` – linking after any calls
-/

namespace Stencil.Code

variable {ι : Type*} {b : Buffers} {s r : Slot} {o : ι}

namespace Buffers

/-! ### What a call does to the places of a node -/

theorem isUsed_write (b : Buffers) (s r : Slot) (ps : List Piece) :
    (b.write s ps).isUsed r ↔ r = s ∨ b.isUsed r := by
  rw [isUsed, get?_write]
  by_cases h : r = s <;> simp [h, isUsed]

theorem content_write (b : Buffers) (s r : Slot) (ps : List Piece) :
    (b.write s ps).content r = if r = s then ps.flatMap Piece.text else b.content r := by
  rw [content, pieces, get?_write]
  split <;> rfl

theorem content_append (b : Buffers) (s r : Slot) (code : Text) :
    (b.append s code).content r = if r = s then b.content s ++ (" " ++ code) else b.content r := by
  rw [append, content_write, List.flatMap_append, List.flatMap_singleton]
  rfl

theorem content_prepend (b : Buffers) (s r : Slot) (code : Text) :
    (b.prepend s code).content r = if r = s then code ++ " " ++ b.content s else b.content r := by
  rw [prepend, content_write, List.flatMap_cons]
  rfl

theorem content_copy (b source : Buffers) (src dst r : Slot) :
    (b.copy source src dst).content r =
      if r = dst then b.content dst ++ source.content src else b.content r := by
  rw [copy, content_write, List.flatMap_append]
  rfl

@[simp] theorem isUsed_append (b : Buffers) (s r : Slot) (code : Text) :
    (b.append s code).isUsed r ↔ r = s ∨ b.isUsed r :=
  isUsed_write ..

@[simp] theorem isUsed_prepend (b : Buffers) (s r : Slot) (code : Text) :
    (b.prepend s code).isUsed r ↔ r = s ∨ b.isUsed r :=
  isUsed_write ..

@[simp] theorem isUsed_copy (b source : Buffers) (src dst r : Slot) :
    (b.copy source src dst).isUsed r ↔ r = dst ∨ b.isUsed r :=
  isUsed_write ..

@[simp] theorem isUsed_setStatic (b : Buffers) (v : Bool) (s : Slot) :
    (b.setStatic v).isUsed s = b.isUsed s := rfl

@[simp] theorem isUsed_clear (b : Buffers) (s : Slot) : b.clear.isUsed s = false := rfl

theorem hasContent_iff : b.hasContent s ↔ b.content s ≠ [] := by
  rw [hasContent, bne_iff_ne]

@[simp] theorem hasContent_append (b : Buffers) (s r : Slot) (code : Text) :
    (b.append s code).hasContent r ↔ r = s ∨ b.hasContent r := by
  rw [hasContent_iff, hasContent_iff, content_append]
  split
  · rename_i h
    -- the blank in front is there in any case
    exact iff_of_true (List.append_ne_nil_of_right_ne_nil _ (List.cons_ne_nil _ _)) (.inl h)
  · rename_i h
    rw [or_iff_right h]

@[simp] theorem hasContent_prepend (b : Buffers) (s r : Slot) (code : Text) :
    (b.prepend s code).hasContent r ↔ r = s ∨ b.hasContent r := by
  rw [hasContent_iff, hasContent_iff, content_prepend]
  split
  · rename_i h
    exact iff_of_true (List.append_ne_nil_of_left_ne_nil
      (List.append_ne_nil_of_right_ne_nil _ (List.cons_ne_nil _ _)) _) (.inl h)
  · rename_i h
    rw [or_iff_right h]

@[simp] theorem hasContent_copy (b source : Buffers) (src dst r : Slot) :
    (b.copy source src dst).hasContent r ↔ r = dst ∧ source.hasContent src ∨ b.hasContent r := by
  rw [hasContent_iff, hasContent_iff, hasContent_iff, content_copy]
  split
  · rename_i h
    rw [h, ne_eq, List.append_eq_nil_iff, not_and_or, eq_self_iff_true, true_and, or_comm]
  · rename_i h
    rw [or_iff_right fun hr => h hr.1]

@[simp] theorem hasContent_setStatic (b : Buffers) (v : Bool) (s : Slot) :
    (b.setStatic v).hasContent s = b.hasContent s := rfl

@[simp] theorem hasContent_clear (b : Buffers) (s : Slot) : b.clear.hasContent s = false := rfl

theorem isUsed_of_hasContent (h : b.hasContent s) : b.isUsed s := by
  rw [hasContent_iff, content, pieces] at h
  rw [isUsed]
  cases hget : b.get? s with
  | none => rw [hget] at h; exact absurd rfl h
  | some ps => rfl

end Buffers

/-! ### Calls -/

/-- A call that changes the buffers of the node `o`. -/
inductive Call (ι : Type*) where
  | append (o : ι) (s : Slot) (code : Text)
  | prepend (o : ι) (s : Slot) (code : Text)
  /-- Adds the content of the place `src` of a node behind that of the place `dst`. -/
  | copy (o source : ι) (src dst : Slot)
  | setStatic (o : ι) (v : Bool)
  | clear (o : ι)
  | dispose (o : ι)

namespace Call

/-- The node that a call is for. -/
def node : Call ι → ι
  | append o .. | prepend o .. | copy o .. | setStatic o _ | clear o | dispose o => o

/-- What a call makes of the buffers it is for. -/
def effect (f : ι → Buffers) : Call ι → Buffers
  | append o s code => (f o).append s code
  | prepend o s code => (f o).prepend s code
  | copy o source src dst => (f o).copy (f source) src dst
  | setStatic o v => (f o).setStatic v
  | clear o => (f o).clear
  | dispose o => (f o).clear.setStatic false

/-- Whether the call empties all places of the node. -/
def Empties (o : ι) (c : Call ι) : Prop := c = clear o ∨ c = dispose o

/-- Whether the call writes to the place of the node, be it nothing. -/
def Writes (o : ι) (s : Slot) : Call ι → Prop
  | append o' s' _ | prepend o' s' _ | copy o' _ _ s' => o = o' ∧ s = s'
  | setStatic .. | clear _ | dispose _ => False

/-- Whether the call adds code to the place of the node. -/
def Fills (f : ι → Buffers) (o : ι) (s : Slot) : Call ι → Prop
  | append o' s' _ | prepend o' s' _ => o = o' ∧ s = s'
  | copy o' source src s' => (o = o' ∧ s = s') ∧ (f source).hasContent src
  | setStatic .. | clear _ | dispose _ => False

/-- Some call was as described, where the calls before it are given, and none behind it emptied the
node. -/
def Since (P : List (Call ι) → Call ι → Prop) (calls : List (Call ι)) (o : ι) : Prop :=
  ∃ before c after, calls = before ++ c :: after ∧ P before c ∧ ∀ d ∈ after, ¬ d.Empties o

variable {f : ι → Buffers} {c : Call ι} {calls : List (Call ι)}

theorem node_of_writes (h : c.Writes o s) : o = c.node := by
  cases c with
  | append | prepend | copy => exact h.1
  | setStatic | clear | dispose => exact h.elim

theorem writes_of_fills (h : c.Fills f o s) : c.Writes o s := by
  cases c with
  | append | prepend => exact h
  | copy => exact h.1
  | setStatic | clear | dispose => exact h.elim

theorem node_of_empties (h : c.Empties o) : o = c.node := by
  rcases h with rfl | rfl <;> rfl

theorem not_since_nil {P : List (Call ι) → Call ι → Prop} : ¬ Since P [] o := by
  rintro ⟨before, c, after, h, -⟩
  exact List.append_ne_nil_of_right_ne_nil _ (List.cons_ne_nil _ _) h.symm

theorem since_concat {P : List (Call ι) → Call ι → Prop} :
    Since P (calls ++ [c]) o ↔ P calls c ∨ ¬ c.Empties o ∧ Since P calls o := by
  constructor
  · rintro ⟨before, d, after, h, hd, hafter⟩
    induction after using List.reverseRecOn with
    | nil =>
      obtain ⟨rfl, hc⟩ := List.append_inj' h rfl
      obtain rfl := List.singleton_inj.mp hc
      exact .inl hd
    | append_singleton after e _ =>
      rw [← List.cons_append, ← List.append_assoc] at h
      obtain ⟨hcalls, hc⟩ := List.append_inj' h rfl
      obtain rfl := List.singleton_inj.mp hc
      exact .inr ⟨hafter c (List.mem_append_right _ List.mem_cons_self),
        before, d, after, hcalls, hd, fun e he => hafter e (List.mem_append_left _ he)⟩
  · rintro (hc | ⟨hc, before, d, after, rfl, hd, hafter⟩)
    · exact ⟨calls, c, [], rfl, hc, fun e he => absurd he List.not_mem_nil⟩
    · refine ⟨before, d, after ++ [c], by rw [List.append_assoc, List.cons_append],
        hd, fun e he => ?_⟩
      rcases List.mem_append.mp he with he | he
      · exact hafter e he
      · rwa [List.mem_singleton.mp he]

variable [DecidableEq ι]

/-- The buffers of all nodes after a call. -/
def step (f : ι → Buffers) (c : Call ι) : ι → Buffers := Function.update f c.node (c.effect f)

/-- The buffers of all nodes after some calls, from new ones. -/
def run (calls : List (Call ι)) : ι → Buffers := calls.foldl step fun _ => {}

/-- The place was written to, and the node was not emptied since. -/
def Written (calls : List (Call ι)) (o : ι) (s : Slot) :
    Prop := Since (fun _ c => c.Writes o s) calls o

/-- Code was added to the place, and the node was not emptied since. -/
def Filled (calls : List (Call ι)) (o : ι) (s : Slot) : Prop :=
  Since (fun before c => c.Fills (run before) o s) calls o

theorem step_apply (f : ι → Buffers) (c : Call ι) (o : ι) :
    step f c o = if o = c.node then c.effect f else f o :=
  Function.update_apply ..

/-- A place is used after a call if the call wrote to it, or if it was and the call did not empty
it. -/
theorem isUsed_step (f : ι → Buffers) (c : Call ι) (o : ι) (s : Slot) :
    (step f c o).isUsed s ↔ c.Writes o s ∨ ¬ c.Empties o ∧ (f o).isUsed s := by
  rw [step_apply]
  split
  · rename_i ho
    subst ho
    cases c <;> simp [effect, node, Writes, Empties]
  · rename_i ho
    simp [mt node_of_writes ho, mt node_of_empties ho]

/-- A place holds code after a call if the call added some, or if it did and the call did not empty
it. -/
theorem hasContent_step (f : ι → Buffers) (c : Call ι) (o : ι) (s : Slot) :
    (step f c o).hasContent s ↔ c.Fills f o s ∨ ¬ c.Empties o ∧ (f o).hasContent s := by
  rw [step_apply]
  split
  · rename_i ho
    subst ho
    cases c <;> simp [effect, node, Fills, Empties]
  · rename_i ho
    simp [mt (node_of_writes ∘ writes_of_fills) ho, mt node_of_empties ho]

theorem run_concat (calls : List (Call ι)) (c : Call ι) :
    run (calls ++ [c]) = step (run calls) c := by
  rw [run, List.foldl_concat]
  rfl

/-- **A place is used if it was written to since the node was last emptied.** -/
theorem isUsed_run (calls : List (Call ι)) (o : ι) (s : Slot) :
    (run calls o).isUsed s ↔ Written calls o s := by
  induction calls using List.reverseRecOn with
  | nil => exact iff_of_false Bool.false_ne_true not_since_nil
  | append_singleton calls c ih => rw [run_concat, isUsed_step, ih, Written, Written, since_concat]

/-- **A place holds code if code was added to it since the node was last emptied.** -/
theorem hasContent_run (calls : List (Call ι)) (o : ι) (s : Slot) :
    (run calls o).hasContent s ↔ Filled calls o s := by
  induction calls using List.reverseRecOn with
  | nil => exact iff_of_false Bool.false_ne_true not_since_nil
  | append_singleton calls c ih =>
    rw [run_concat, hasContent_step, ih, Filled, Filled, since_concat]

end Call

namespace Buffers

/-! ### Linking -/

/-- How a literal is written between code. -/
def echoed (t : Text) : Text := " echo '" ++ t ++ "'"

/-- What a part gives behind another one, where `counts` says behind which places a literal is
written. -/
def contribution (b : Buffers) (counts : Slot → Bool) (write : Text → Text) :
    Option Part → Part → Text
  | _, .slot s => b.content s
  | some (.slot s), .literal t => if counts s then write t else []
  | _, .literal _ => []

/-- Every part with the part right before it. -/
def neighbours (before : Option Part) (parts : List Part) : List (Option Part × Part) :=
  (before :: parts.map some).zip parts

/-- What the parts give, one after the other. -/
def emission (b : Buffers) (counts : Slot → Bool) (write : Text → Text) (parts : List Part) :
    Text :=
  (neighbours none parts).flatMap fun p => b.contribution counts write p.1 p.2

variable {counts : Slot → Bool} {write : Text → Text} {before : Option Part} {parts : List Part}

theorem linkParts_eq_flatMap (b : Buffers) (write : Text → Text) (before : Option Part)
    (parts : List Part) :
    b.linkParts write (match before with | some (.slot s) => b.isUsed s | _ => false) parts =
      (neighbours before parts).flatMap fun p => b.contribution b.isUsed write p.1 p.2 := by
  induction parts generalizing before with
  | nil => rw [linkParts]; rfl
  | cons p parts ih =>
    have hrest := ih (some p)
    cases p with
    | slot s => rw [linkParts, hrest]; rfl
    | literal t =>
      rw [linkParts, hrest]
      obtain _ | _ | _ := before <;> rfl

theorem linkCode_eq (b : Buffers) (parts : List Part) :
    b.linkCode parts = delimited (b.emission b.isUsed echoed parts) :=
  congrArg delimited (linkParts_eq_flatMap b echoed none parts)

theorem linkText_eq (b : Buffers) (parts : List Part) :
    b.linkText parts = (b.emission b.isUsed id parts).trim :=
  congrArg Text.trim (linkParts_eq_flatMap b id none parts)

theorem mem_neighbours_iff {p q : Part} : (some p, q) ∈ neighbours before parts ↔
    before = some p ∧ parts.head? = some q ∨ [p, q] <:+: parts := by
  induction parts generalizing before with
  | nil => simp [neighbours]
  | cons r parts ih =>
    have hcons : neighbours before (r :: parts) = (before, r) :: neighbours (some r) parts := rfl
    have hstart : [p, q] <+: r :: parts ↔ r = p ∧ parts.head? = some q := by
      cases parts with
      | nil => simp
      | cons a parts => simp [List.cons_prefix_cons, eq_comm]
    rw [hcons, List.mem_cons, ih, List.infix_cons_iff, hstart, Prod.mk.injEq, List.head?_cons,
      Option.some.injEq, Option.some.injEq, eq_comm (a := q), eq_comm (a := some p)]

theorem exists_mem_neighbours (before : Option Part) {p : Part} (h : p ∈ parts) :
    ∃ q, (q, p) ∈ neighbours before parts := by
  induction parts generalizing before with
  | nil => cases h
  | cons r parts ih =>
    rcases List.mem_cons.mp h with rfl | h
    · exact ⟨before, List.mem_cons_self⟩
    · obtain ⟨q, hq⟩ := ih (some r) h
      exact ⟨q, List.mem_cons_of_mem _ hq⟩

theorem mem_of_mem_neighbours {p : Option Part × Part} (h : p ∈ neighbours before parts) :
    p.2 ∈ parts :=
  (List.of_mem_zip h).2

theorem length_flatMap_le {α β : Type*} {l : List α} {f g : α → List β}
    (h : ∀ a ∈ l, g a = f a ∨ g a = []) : (l.flatMap g).length ≤ (l.flatMap f).length := by
  induction l with
  | nil => exact Nat.le_refl _
  | cons a l ih =>
    have hrest := ih fun x hx => h x (List.mem_cons_of_mem a hx)
    rw [List.flatMap_cons, List.flatMap_cons, List.length_append, List.length_append]
    rcases h a List.mem_cons_self with hsame | hnone
    · rw [hsame]
      omega
    · rw [hnone, List.length_nil]
      omega

/-- Texts from which parts are left out are the same only if these are empty. -/
theorem flatMap_eq_flatMap_iff {α β : Type*} {l : List α} {f g : α → List β}
    (h : ∀ a ∈ l, g a = f a ∨ g a = []) : l.flatMap f = l.flatMap g ↔ ∀ a ∈ l, f a = g a := by
  induction l with
  | nil => simp
  | cons a l ih =>
    have hl := fun x hx => h x (List.mem_cons_of_mem a hx)
    rw [List.flatMap_cons, List.flatMap_cons, List.forall_mem_cons]
    refine Iff.trans ?_ (and_congr_right fun _ => ih hl)
    constructor
    · intro heq
      have hfirst : f a = g a := by
        rcases h a List.mem_cons_self with hsame | hnone
        · exact hsame.symm
        · -- the rest is not longer, so nothing was left out in front of it
          have hle := length_flatMap_le hl
          have htotal := congrArg List.length heq
          rw [List.length_append, List.length_append, hnone, List.length_nil] at htotal
          rw [hnone]
          exact List.length_eq_zero_iff.mp (by omega)
      exact ⟨hfirst, List.append_cancel_left (hfirst ▸ heq)⟩
    · rintro ⟨hfirst, hrest⟩
      rw [hfirst, hrest]

/-- A place is used although nothing is in it. -/
def Hollow (b : Buffers) (s : Slot) : Prop := b.isUsed s ∧ ¬ b.hasContent s

theorem contribution_hasContent (b : Buffers) (write : Text → Text) (p : Option Part) (q : Part) :
    b.contribution b.hasContent write p q = b.contribution b.isUsed write p q ∨
      b.contribution b.hasContent write p q = [] := by
  obtain _ | t := q
  · exact .inl rfl
  obtain _ | s | t' := p
  · exact .inl rfl
  · by_cases hs : b.hasContent s
    · exact .inl (by rw [contribution, contribution, if_pos hs, if_pos (isUsed_of_hasContent hs)])
    · exact .inr (by rw [contribution, if_neg hs])
  · exact .inl rfl

theorem contribution_eq_iff {p : Option Part} {q : Part} :
    b.contribution b.isUsed write p q = b.contribution b.hasContent write p q ↔
      ∀ s t, p = some (.slot s) → q = .literal t → b.Hollow s → write t = [] := by
  obtain _ | t := q
  · exact iff_of_true rfl fun _ _ _ h => nomatch h
  obtain _ | s | t' := p
  · exact iff_of_true rfl fun _ _ h => nomatch h
  · rw [contribution, contribution]
    constructor
    · rintro h _ _ ⟨⟩ ⟨⟩ ⟨hused, hempty⟩
      rwa [if_pos hused, if_neg hempty] at h
    · intro h
      by_cases hcontent : b.hasContent s
      · rw [if_pos hcontent, if_pos (isUsed_of_hasContent hcontent)]
      · rw [if_neg hcontent]
        split
        · rename_i hused
          exact h s t rfl rfl ⟨hused, hcontent⟩
        · rfl
  · exact iff_of_true rfl fun _ _ h => nomatch h

/-- **It makes no difference whether a place is used or holds code exactly if no literal stands
directly behind a hollow place**, but for literals of which nothing is written. -/
theorem emission_eq_iff (b : Buffers) (write : Text → Text) (parts : List Part) :
    b.emission b.isUsed write parts = b.emission b.hasContent write parts ↔
      ∀ s t, [.slot s, .literal t] <:+: parts → b.Hollow s → write t = [] := by
  rw [emission, emission, flatMap_eq_flatMap_iff fun p _ => b.contribution_hasContent write p.1 p.2]
  constructor
  · intro h s t hnext
    exact contribution_eq_iff.mp (h _ (mem_neighbours_iff.mpr (.inr hnext))) s t rfl rfl
  · rintro h ⟨p, q⟩ hmem
    refine contribution_eq_iff.mpr ?_
    rintro s t rfl rfl
    exact h s t ((mem_neighbours_iff.mp hmem).resolve_left fun hstart => nomatch hstart.1)

theorem emission_eq_nil_iff (b : Buffers) (counts : Slot → Bool) (write : Text → Text)
    (parts : List Part) : b.emission counts write parts = [] ↔
      (∀ s, .slot s ∈ parts → ¬ b.hasContent s) ∧
        ∀ s t, [.slot s, .literal t] <:+: parts → counts s → write t = [] := by
  rw [emission, List.flatMap_eq_nil_iff]
  constructor
  · intro h
    refine ⟨fun s hs => ?_, fun s t hnext hcounts => ?_⟩
    · obtain ⟨q, hq⟩ := exists_mem_neighbours none hs
      rw [hasContent_iff, not_not]
      simpa only [contribution] using h _ hq
    · have hnone := h _ (mem_neighbours_iff.mpr (.inr hnext))
      rwa [contribution, if_pos hcounts] at hnone
  · rintro ⟨hslots, hliterals⟩ ⟨p, q⟩ hmem
    obtain s | t := q
    · have hs := hslots s (mem_of_mem_neighbours hmem)
      rw [hasContent_iff, not_not] at hs
      simpa only [contribution] using hs
    obtain _ | s | t' := p
    · rfl
    · rw [contribution]
      split
      · rename_i hcounts
        exact hliterals s t
          ((mem_neighbours_iff.mp hmem).resolve_left fun hstart => nomatch hstart.1)
          hcounts
      · rfl
    · rfl

theorem delimited_eq_nil_iff {t : Text} : delimited t = [] ↔ t = [] := by
  rw [delimited]
  split
  · rename_i h
    exact iff_of_true rfl h
  · rename_i h
    refine iff_of_false (List.append_ne_nil_of_right_ne_nil _ ?_) h
    decide

theorem delimited_inj {t u : Text} : delimited t = delimited u ↔ t = u := by
  refine ⟨fun h => ?_, congrArg delimited⟩
  have hnil := delimited_eq_nil_iff (t := t)
  rw [h, delimited_eq_nil_iff] at hnil
  by_cases ht : t = []
  · rw [ht, hnil.mpr ht]
  · rw [delimited, delimited, if_neg ht, if_neg (mt hnil.mp ht)] at h
    exact List.append_cancel_left (List.append_cancel_right h)

theorem echoed_ne_nil (t : Text) : echoed t ≠ [] :=
  List.append_ne_nil_of_right_ne_nil _ (List.cons_ne_nil _ _)

theorem linkCode_eq_iff (b : Buffers) (parts : List Part) :
    b.linkCode parts = delimited (b.emission b.hasContent echoed parts) ↔
      ∀ s t, [.slot s, .literal t] <:+: parts → ¬ b.Hollow s := by
  rw [linkCode_eq, delimited_inj, emission_eq_iff]
  exact forall₂_congr fun s t => forall_congr' fun _ => imp_congr_right fun _ =>
    iff_false_intro (echoed_ne_nil t)

theorem linkCode_eq_nil_iff (b : Buffers) (parts : List Part) : b.linkCode parts = [] ↔
    (∀ s, .slot s ∈ parts → ¬ b.hasContent s) ∧
      ∀ s t, [.slot s, .literal t] <:+: parts → ¬ b.isUsed s := by
  rw [linkCode_eq, delimited_eq_nil_iff, emission_eq_nil_iff]
  exact and_congr_right fun _ => forall₂_congr fun s t => forall_congr' fun _ =>
      imp_congr_right fun _ =>
    iff_false_intro (echoed_ne_nil t)

end Buffers

namespace Call

open Buffers (delimited echoed)

variable [DecidableEq ι]

/-- **What is linked after any calls.** The contents of the places are written in order, and a
literal exactly if the part right before it is a place that was written to since the node was last
emptied. The outcome is put between delimiters unless it is empty, or trimmed. A literal is written
exactly behind the places that hold code, if every place with a literal behind it that was written
to has had code added to it. Only then, too, is the linked code empty exactly if no place among the
parts holds any. -/
theorem link_run (calls : List (Call ι)) (o : ι) (parts : List Part) :
    let b := run calls o
    let sound := ∀ s t, [.slot s, .literal t] <:+: parts → Written calls o s → Filled calls o s
    (∀ s, (b.isUsed s ↔ Written calls o s) ∧ (b.hasContent s ↔ Filled calls o s)) ∧
      b.linkCode parts = delimited (b.emission b.isUsed echoed parts) ∧
      Text.Trimmed (b.emission b.isUsed id parts) (b.linkText parts) ∧
      (b.linkCode parts = delimited (b.emission b.hasContent echoed parts) ↔ sound) ∧
      (sound → Text.Trimmed (b.emission b.hasContent id parts) (b.linkText parts)) ∧
      (b.linkCode parts = [] ↔ (∀ s, .slot s ∈ parts → ¬ b.hasContent s) ∧ sound) := by
  intro b sound
  have hused (s : Slot) : b.isUsed s ↔ Written calls o s := isUsed_run calls o s
  have hcontent (s : Slot) : b.hasContent s ↔ Filled calls o s := hasContent_run calls o s
  have hsound : sound ↔ ∀ s t, [.slot s, .literal t] <:+: parts → ¬ b.Hollow s := by
    refine forall₂_congr fun s t => imp_congr_right fun _ => ?_
    rw [Buffers.Hollow, hused, hcontent, not_and, not_not]
  have htext := Text.trimmed_trim (b.emission b.isUsed id parts)
  rw [← Buffers.linkText_eq] at htext
  refine ⟨fun s => ⟨hused s, hcontent s⟩, b.linkCode_eq parts, htext, ?_, fun h => ?_, ?_⟩
  · rw [Buffers.linkCode_eq_iff, hsound]
  · rwa [(b.emission_eq_iff id parts).mpr fun s t hnext hhollow =>
      absurd hhollow (hsound.mp h s t hnext)] at htext
  · rw [Buffers.linkCode_eq_nil_iff]
    refine and_congr_right fun hnone => forall₂_congr fun s t => forall_congr' fun hnext => ?_
    have hs := hnone s (hnext.mem List.mem_cons_self)
    rw [hcontent] at hs
    rw [hused]
    exact ⟨fun h h' => absurd h' h, fun h h' => hs (h h')⟩

example : (run [copy 0 1 .before .after] 0).linkCode [.slot .after, .literal "x"] =
    Text.ofString "<?php  echo 'x' ?>" := by
  decide

end Call
end Stencil.Code
