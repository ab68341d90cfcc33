import Mathlib.Data.List.Induction
import Mathlib.Data.List.Nodup
import Mathlib.Logic.Function.Basic
import Stencil.Data.OrderedMap

/-!
# Keys in a list and values in a table

Entries in order can be kept in two places: the keys in a list, because of their order, and the
values in a table, because of looking them up. Every call then changes both, one after the other,
and nothing in their types makes them agree. An ordered map keeps the entries in one list and has no
table.

After any calls, refused ones among them, both are the same association list: the keys of the list
are those of the table, each of them once, and the entries stand in the order in which their keys
were inserted. A key may have been inserted several times, because it may have been removed in
between; what counts is the last time that it was not refused (`Call.Sets`).

## Main definitions

* `OrderedMap.Indexed` – a list of keys beside a table
* `OrderedMap.Call` – the calls that change a map; `Indexed.run`, `OrderedMap.run` – some calls
* `OrderedMap.Call.Sets` – the call that set the value a key has
* `OrderedMap.Associates` – what can be relied on after some calls

## Main results

* `OrderedMap.Indexed.agrees_call` – every call keeps list, table and map in agreement
* `OrderedMap.associates_run` – after any calls there is one association list
-/

namespace Stencil.OrderedMap

variable {α β : Type}

/-- A call that changes a map. -/
inductive Call (α β : Type) where
  /-- Gives a value to a key that has none. -/
  | set (k : α) (v : β)
  /-- Takes its value from a key that has one. -/
  | delete (k : α)
  /-- Takes their values from all keys. -/
  | clear
  deriving DecidableEq, Repr

/-- Whether a key has no value after the call. -/
def Call.Removes (k : α) (c : Call α β) : Prop := c = .delete k ∨ c = .clear

/-- A list of keys and a table of values. -/
structure Indexed (α β : Type) where
  /-- The keys, earliest first. -/
  order : List α := []
  /-- The value of a key, if it has one. -/
  table : α → Option β := fun _ => none

variable [DecidableEq α]

namespace Indexed

/-- A call gives the reason why it was refused, if it was, and what there is afterwards. -/
def call (d : Indexed α β) : Call α β → Option EntryError × Indexed α β
  | .set k v =>
    if (d.table k).isSome then (some .duplicate, d)
    else (none, { order := d.order ++ [k], table := Function.update d.table k (some v) })
  | .delete k =>
    if (d.table k).isSome then
      (none, { order := d.order.erase k, table := Function.update d.table k none })
    else (some .missing, d)
  | .clear => (none, {})

/-- What there is after some calls, from nothing. -/
def run (calls : List (Call α β)) : Indexed α β := calls.foldl (fun d c => (d.call c).2) {}

/-- The keys in order, each with what the table says. -/
def range (d : Indexed α β) : List (α × Option β) := d.order.map fun k => (k, d.table k)

end Indexed

/-- A call gives the reason why it was refused, if it was, and the map afterwards. -/
def call (m : OrderedMap α β) : Call α β → Option EntryError × OrderedMap α β
  | .set k v =>
    match m.insert? k v with
    | some m' => (none, m')
    | none => (some .duplicate, m)
  | .delete k =>
    match m.erase? k with
    | some m' => (none, m')
    | none => (some .missing, m)
  | .clear => (none, empty)

/-- The map after some calls, from the empty one. -/
def run (calls : List (Call α β)) : OrderedMap α β := calls.foldl (fun m c => (m.call c).2) empty

/-- The call with the number `n` set the value of a key: it was not refused, and no later call
removed the key. -/
def Call.Sets (calls : List (Call α β)) (n : Nat) (k : α) (v : β) : Prop :=
  calls[n]? = some (.set k v) ∧ ((Indexed.run (calls.take n)).call (.set k v)).1 = none ∧
    ∀ j > n, ∀ c, calls[j]? = some c → ¬ c.Removes k

/-- What can be relied on after some calls. -/
structure Associates (calls : List (Call α β)) (d : Indexed α β) (m : OrderedMap α β) : Prop where
  /-- No key is listed twice. -/
  nodup : d.order.Nodup
  /-- The listed keys are those of the table. -/
  listed (k : α) : k ∈ d.order ↔ (d.table k).isSome
  /-- Going over the keys gives the entries of the map. -/
  range : d.range = m.entries.map fun e => (e.1, some e.2)
  /-- Every key that is held has the value it was set to. -/
  holds (k : α) (v : β) : (k, v) ∈ m.entries ↔ ∃ n, Call.Sets calls n k v
  /-- The entries are in the order in which they were set. -/
  sorted : m.entries.Pairwise fun e f => ∀ i j, Call.Sets calls i e.1 e.2 →
    Call.Sets calls j f.1 f.2 → i < j
  /-- Looking up a key in the table, in the map and among the entries is the same. -/
  get (k : α) (v : β) : (d.table k = some v ↔ (k, v) ∈ m.entries) ∧ m.get? k = d.table k
  /-- The keys that have a value are the listed ones. -/
  has (k : α) : m.contains k = true ↔ k ∈ d.order
  /-- There are as many entries as keys. -/
  size : m.size = d.order.length
  /-- A further call is refused by both or by none of them, for the same reason. -/
  refuses (c : Call α β) : (d.call c).1 = (m.call c).1
  /-- Setting a key that has a value is refused and changes nothing; any other key can be set. -/
  set (k : α) (v : β) : if k ∈ d.order
    then d.call (.set k v) = (some .duplicate, d) ∧ m.call (.set k v) = (some .duplicate, m)
    else (d.call (.set k v)).1 = none
  /-- Deleting a key that has no value is refused and changes nothing; any other key can be
  deleted. -/
  delete (k : α) : if k ∈ d.order then (d.call (.delete k)).1 = none
    else d.call (.delete k) = (some .missing, d) ∧ m.call (.delete k) = (some .missing, m)

variable {m : OrderedMap α β} {d : Indexed α β} {c : Call α β}
  {calls : List (Call α β)} {k : α} {v : β}
  {n : Nat}

/-! ### Looking up -/

theorem get?_concat (h : m.get? k = none) (v : β) (l : α) :
    (⟨m.entries ++ [(k, v)]⟩ : OrderedMap α β).get? l = if l = k then some v else m.get? l := by
  rw [get?, List.find?_append, Option.map_or]
  change (m.get? l).or _ = _
  by_cases hl : l = k
  · subst hl
    rw [h, if_pos rfl, Option.none_or, List.find?_cons_of_pos (by simp)]
    rfl
  · rw [if_neg hl, List.find?_cons_of_neg (by simpa using Ne.symm hl)]
    exact Option.or_none

theorem get?_filter (m : OrderedMap α β) (k l : α) :
    (⟨m.entries.filter fun e => e.1 ≠ k⟩ : OrderedMap α β).get? l = if l =
    k then none else m.get? l := by
  rw [get?, List.find?_filter]
  split
  · rename_i hl
    simp [hl]
  · rename_i hl
    rw [get?]
    congr 2
    funext e
    by_cases he : e.1 = l <;> simp [he, hl]

/-- In a map without repetition an entry is found under its key. -/
theorem mem_entries_iff (h : m.keys.Nodup) : (k, v) ∈ m.entries ↔ m.get? k = some v := by
  constructor
  · intro hmem
    obtain ⟨before, after, hsplit⟩ := List.append_of_mem hmem
    have hbefore : before.find? (fun e => e.1 = k) = none := by
      rw [keys, hsplit, List.map_append, List.map_cons, List.nodup_append] at h
      refine List.find?_eq_none.mpr fun e he heq => ?_
      exact h.2.2 _ (List.mem_map_of_mem he) _ List.mem_cons_self (by simpa using heq)
    rw [get?, hsplit, List.find?_append, hbefore, Option.none_or, List.find?_cons_of_pos (by simp)]
    rfl
  · intro hget
    obtain ⟨e, he, rfl⟩ := Option.map_eq_some_iff.mp hget
    obtain rfl : e.1 = k := by simpa using List.find?_some he
    exact List.mem_of_find?_eq_some he

/-! ### List, table and map -/

namespace Indexed

/-- The list and the table are those of the map, and no key is repeated. -/
structure Agrees (d : Indexed α β) (m : OrderedMap α β) : Prop where
  order : d.order = m.keys
  nodup : m.keys.Nodup
  table (k : α) : d.table k = m.get? k

theorem Agrees.isSome_table (h : d.Agrees m) (k : α) : (d.table k).isSome = m.contains k := by
  rw [h.table, contains]

/-- **Every call keeps list, table and map in agreement**, and is refused by all or by none. -/
theorem agrees_call (h : d.Agrees m) (c : Call α β) :
    (d.call c).1 = (m.call c).1 ∧ (d.call c).2.Agrees (m.call c).2 := by
  cases c with
  | set k v =>
    rw [Indexed.call, OrderedMap.call, insert?, h.isSome_table]
    by_cases hk : m.contains k
    · rw [if_pos hk, if_pos hk]
      exact ⟨rfl, h⟩
    · rw [if_neg hk, if_neg hk]
      have hnone : m.get? k = none := by simpa [contains] using hk
      rw [contains_iff_mem_keys] at hk
      refine ⟨rfl, ?_, ?_, fun l => ?_⟩
      · simp [h.order, keys]
      · rw [keys, List.map_append]
        refine h.nodup.append (List.nodup_singleton k) ?_
        simpa [keys] using hk
      · rw [get?_concat hnone, ← h.table l]
        exact Function.update_apply ..
  | delete k =>
    rw [Indexed.call, OrderedMap.call, erase?, h.isSome_table]
    by_cases hk : m.contains k
    · rw [if_pos hk, if_pos hk]
      have hkeys : (⟨m.entries.filter fun e => e.1 ≠ k⟩ : OrderedMap α β).keys =
          m.keys.erase k := by
        rw [h.nodup.erase_eq_filter, keys, keys, List.filter_map]
        congr 1
        exact List.filter_congr fun e _ => by simp [bne, beq_eq_decide]
      refine ⟨rfl, ?_, ?_, fun l => ?_⟩
      · rw [hkeys, h.order]
      · rw [hkeys]
        exact h.nodup.erase k
      · rw [get?_filter, ← h.table l]
        exact Function.update_apply ..
    · rw [if_neg hk, if_neg hk]
      exact ⟨rfl, h⟩
  | clear => exact ⟨rfl, rfl, List.nodup_nil, fun _ => rfl⟩

theorem run_concat (calls : List (Call α β)) (c : Call α β) :
    run (calls ++ [c]) = ((run calls).call c).2 := by
  rw [run, List.foldl_concat]
  rfl

end Indexed

theorem run_concat (calls : List (Call α β)) (c : Call α β) :
    run (calls ++ [c]) = ((run calls).call c).2 := by
  rw [run, List.foldl_concat]
  rfl

theorem agrees_run (calls : List (Call α β)) : (Indexed.run calls).Agrees (run calls) := by
  induction calls using List.reverseRecOn with
  | nil => exact ⟨rfl, List.nodup_nil, fun _ => rfl⟩
  | append_singleton calls c ih =>
    rw [Indexed.run_concat, run_concat]
    exact (Indexed.agrees_call ih c).2

/-! ### The last insertion of a key -/

theorem Call.Sets.lt (h : Call.Sets calls n k v) : n < calls.length :=
  (List.getElem?_eq_some_iff.mp h.1).1

/-- A value was set by the last call, or it was set before and not removed by the last call. -/
theorem Call.sets_concat : Call.Sets (calls ++ [c]) n k v ↔
    n = calls.length ∧ c = .set k v ∧ ((Indexed.run calls).call c).1 = none ∨
      ¬ c.Removes k ∧ Call.Sets calls n k v := by
  have hlast {j : Nat} (hj : calls.length ≤ j) {c' : Call α β}
    (hc' : (calls ++ [c])[j]? = some c') :
      j = calls.length ∧ c' = c := by
    rw [List.getElem?_append_right hj, List.getElem?_singleton] at hc'
    split at hc'
    · exact ⟨by omega, (Option.some.inj hc').symm⟩
    · cases hc'
  constructor
  · rintro ⟨hn, hfree, hafter⟩
    rcases Nat.lt_or_ge n calls.length with hlt | hge
    · refine .inr ⟨hafter calls.length hlt c (by simp), ?_, ?_, fun j hj c' hc' => ?_⟩
      · rwa [List.getElem?_append_left hlt] at hn
      · rwa [List.take_append_of_le_length (Nat.le_of_lt hlt)] at hfree
      · refine hafter j hj c' ?_
        rwa [List.getElem?_append_left (List.getElem?_eq_some_iff.mp hc').1]
    · obtain ⟨rfl, rfl⟩ := hlast hge hn
      exact .inl ⟨rfl, rfl, by simpa using hfree⟩
  · rintro (⟨rfl, rfl, hfree⟩ | ⟨hc, hsets⟩)
    · refine ⟨by simp, by simpa using hfree, fun j hj c' hc' => ?_⟩
      exact absurd (hlast (Nat.le_of_lt hj) hc').1 (Nat.ne_of_gt hj)
    · have hlt := hsets.lt
      obtain ⟨hn, hfree, hafter⟩ := hsets
      refine ⟨by rwa [List.getElem?_append_left hlt], ?_, fun j hj c' hc' => ?_⟩
      · rwa [List.take_append_of_le_length (Nat.le_of_lt hlt)]
      · rcases Nat.lt_or_ge j calls.length with hjlt | hjge
        · rw [List.getElem?_append_left hjlt] at hc'
          exact hafter j hj c' hc'
        · rwa [(hlast hjge hc').2]

/-- A key has a value after a call that set it, or if it had one and the call did not remove it. -/
theorem get?_call (m : OrderedMap α β) (c : Call α β) (k : α) (v : β) :
    (m.call c).2.get? k = some v ↔
      c = .set k v ∧ (m.call c).1 = none ∨ ¬ c.Removes k ∧ m.get? k = some v := by
  cases c with
  | set l w =>
    rw [OrderedMap.call, insert?]
    by_cases hl : m.contains l
    · rw [if_pos hl]
      simp [Call.Removes]
    · rw [if_neg hl]
      have hnone : m.get? l = none := by simpa [contains] using hl
      dsimp only
      rw [get?_concat hnone]
      by_cases hkl : k = l
      · subst hkl
        simp [Call.Removes, hnone]
      · simp [Call.Removes, hkl, Ne.symm hkl]
  | delete l =>
    rw [OrderedMap.call, erase?]
    by_cases hl : m.contains l
    · rw [if_pos hl]
      dsimp only
      rw [get?_filter]
      by_cases hkl : k = l
      · simp [Call.Removes, hkl]
      · simp [Call.Removes, hkl, Ne.symm hkl]
    · rw [if_neg hl]
      by_cases hkl : k = l
      · subst hkl
        simpa [Call.Removes, contains] using fun h => by simp [contains, h] at hl
      · simp [Call.Removes, Ne.symm hkl]
  | clear => simp [OrderedMap.call, Call.Removes, get?, empty]

/-- **A key has the value that it was set to**, if it was not removed since. -/
theorem get?_run (calls : List (Call α β)) (k : α) (v : β) :
    (run calls).get? k = some v ↔ ∃ n, Call.Sets calls n k v := by
  induction calls using List.reverseRecOn with
  | nil => exact iff_of_false nofun fun ⟨_, h⟩ => Nat.not_lt_zero _ h.lt
  | append_singleton calls c ih =>
    have hanswer := (Indexed.agrees_call (agrees_run calls) c).1
    rw [run_concat, get?_call, ih]
    simp only [Call.sets_concat, hanswer]
    constructor
    · rintro (h | ⟨hc, n, h⟩)
      · exact ⟨calls.length, .inl ⟨rfl, h⟩⟩
      · exact ⟨n, .inr ⟨hc, h⟩⟩
    · rintro ⟨n, ⟨-, h⟩ | ⟨hc, h⟩⟩
      · exact .inl h
      · exact .inr ⟨hc, n, h⟩

/-! ### Order -/

/-- A call leaves out entries, or it adds one at the end. -/
theorem entries_call (m : OrderedMap α β) (c : Call α β) : (m.call c).2.entries.Sublist m.entries ∨
    ∃ k v, c = .set k v ∧ (m.call c).1 = none ∧ (m.call c).2.entries = m.entries ++ [(k, v)] := by
  cases c with
  | set k v =>
    rw [OrderedMap.call, insert?]
    by_cases hk : m.contains k
    · rw [if_pos hk]
      exact .inl (.refl _)
    · rw [if_neg hk]
      exact .inr ⟨k, v, rfl, rfl, rfl⟩
  | delete k =>
    rw [OrderedMap.call, erase?]
    by_cases hk : m.contains k
    · rw [if_pos hk]
      exact .inl List.filter_sublist
    · rw [if_neg hk]
      exact .inl (.refl _)
  | clear => exact .inl (List.nil_sublist _)

/-- Entries stand in the order in which they were set. -/
theorem sorted_run (calls : List (Call α β)) : (run calls).entries.Pairwise fun e f =>
    ∀ i j, Call.Sets calls i e.1 e.2 → Call.Sets calls j f.1 f.2 → i < j := by
  induction calls using List.reverseRecOn with
  | nil => exact .nil
  | append_singleton calls c ih =>
    have hagrees := agrees_run calls
    have hanswer := (Indexed.agrees_call hagrees c).1
    -- what was held before was not set by the last call
    have hbefore : ∀ e ∈ (run calls).entries, ∀ i, Call.Sets (calls ++ [c]) i e.1 e.2 →
        Call.Sets calls i e.1 e.2 := by
      rintro ⟨k, v⟩ he i hsets
      rcases Call.sets_concat.mp hsets with ⟨-, rfl, hfree⟩ | ⟨-, h⟩
      · have hget : (run calls).get? k = some v := (mem_entries_iff hagrees.nodup).mp he
        simp [Indexed.call, hagrees.table, hget] at hfree
      · exact h
    have hold : (run calls).entries.Pairwise fun e f => ∀ i j, Call.Sets (calls ++ [c]) i e.1 e.2 →
        Call.Sets (calls ++ [c]) j f.1 f.2 → i < j :=
      ih.imp_of_mem fun he hf h i j hi hj => h i j (hbefore _ he i hi) (hbefore _ hf j hj)
    rw [run_concat]
    rcases (run calls).entries_call c with hsub | ⟨k, v, rfl, hfree, hentries⟩
    · exact hold.sublist hsub
    · rw [hentries, List.pairwise_append]
      refine ⟨hold, List.pairwise_singleton _ _, fun e he f hf i j hi hj => ?_⟩
      obtain rfl := List.mem_singleton.mp hf
      rcases Call.sets_concat.mp hj with ⟨rfl, -⟩ | ⟨-, hj⟩
      · exact (hbefore e he i hi).lt
      · have hget := (get?_run calls k v).mpr ⟨j, hj⟩
        rw [← hanswer] at hfree
        simp [Indexed.call, hagrees.table, hget] at hfree

/-! ### Any calls -/

/-- **After any calls there is one association list**, in the list of keys with the table as in the
map. -/
theorem associates_run (calls : List (Call α β)) :
    Associates calls (Indexed.run calls) (run calls) := by
  have h := agrees_run calls
  have hlisted (k : α) : k ∈ (Indexed.run calls).order ↔ ((Indexed.run calls).table k).isSome := by
    rw [h.order, h.isSome_table, contains_iff_mem_keys]
  have hget (k : α) (v : β) : (Indexed.run calls).table k = some v ↔
      (k, v) ∈ (run calls).entries := by
    rw [h.table, mem_entries_iff h.nodup]
  refine
    { nodup := h.order ▸ h.nodup
      listed := hlisted
      range := ?_
      holds := fun k v => by rw [mem_entries_iff h.nodup, get?_run]
      sorted := sorted_run calls
      get := fun k v => ⟨hget k v, (h.table k).symm⟩
      has := fun k => by rw [hlisted, h.isSome_table]
      size := by rw [h.order, keys, List.length_map, size]
      refuses := fun c => (Indexed.agrees_call h c).1
      set := fun k v => ?_
      delete := fun k => ?_ }
  · rw [Indexed.range, h.order, keys, List.map_map]
    exact List.map_congr_left fun e he => congrArg (e.1, ·) ((hget e.1 e.2).mpr he)
  · have hcontains := (h.isSome_table k).symm
    split
    · rename_i hk
      rw [hlisted] at hk
      rw [hk] at hcontains
      simp [Indexed.call, OrderedMap.call, insert?, hk, hcontains]
    · rename_i hk
      rw [hlisted] at hk
      simp [Indexed.call, hk]
  · have hcontains := (h.isSome_table k).symm
    split
    · rename_i hk
      rw [hlisted] at hk
      simp [Indexed.call, hk]
    · rename_i hk
      rw [hlisted] at hk
      simp [Indexed.call, OrderedMap.call, erase?, hk, hcontains]

end Stencil.OrderedMap
