import Mathlib.Data.List.Induction
import Stencil.Proofs.Tree.Growth

/-!
# Runs of operations

Whatever is done to a tree, in whatever order and whether or not it is refused, the links stay
consistent. An `Operation` is a call with its arguments. It can be made when its receiver is of the
right kind and the nodes it names exist; there is nothing else to assume about the arguments. A call
that is refused leaves the store as it was, and so does, by convention, one that cannot be made. A
run starts without nodes and makes all the calls of a list; its first calls may create any nodes.

## Main definitions

* `Operation`, `Operation.Callable`, `Operation.perform` – calls
* `Store.run` – a list of calls
* `Store.Consistent` – what the links of a tree promise, in terms of following them

## Main results

* `WellFormed.perform` – one call keeps a store well-formed
* `consistent_run` – the links are consistent in every state that is reached
-/

namespace Stencil.Tree

/-- A call of one of the operations on trees. Nodes that may be missing are optional. -/
inductive Operation where
  | create (payload : Payload) (visible : Bool) (line : Int)
  | createText (data : Text)
  | appendChild (p : NodeId) (child : Option NodeId)
  | insertBefore (p : NodeId) (child ref : Option NodeId)
  | insertAt (p : NodeId) (child : Option NodeId) (index : Int)
  | removeChild (p : NodeId) (child : Option NodeId)
  | removeAt (p : NodeId) (index : Int)
  | removeChildren (p : NodeId)
  | replaceChild (p : NodeId) (child ref : Option NodeId)
  | replaceAt (p : NodeId) (child : Option NodeId) (index : Int)
  | moveChildren (p : NodeId) (dst : Option NodeId)
  | appendData (t : NodeId) (data : Text)
  | unmount (n : Option NodeId)
  | clone (n : Option NodeId)
  | dispose (n : Option NodeId)
  deriving DecidableEq, Repr

namespace Operation

/-- The receiver is of the right kind and the nodes that are named exist. -/
def Callable (s : Store) : Operation → Prop
  | create .. | createText _ => True
  | appendChild p child | insertAt p child _ | removeChild p child | replaceAt p child _ =>
    s.isContainer p ∧ ∀ c ∈ child, s.Has c
  | insertBefore p child ref | replaceChild p child ref =>
    s.isContainer p ∧ (∀ c ∈ child, s.Has c) ∧ ∀ r ∈ ref, s.Has r
  | removeAt p _ | removeChildren p => s.isContainer p
  | moveChildren p dst => s.isContainer p ∧ ∀ d ∈ dst, s.isContainer d
  | appendData t _ => s.payload? t = some .text
  | unmount n | clone n | dispose n => ∀ m ∈ n, s.Has m

instance (s : Store) : (op : Operation) → Decidable (op.Callable s)
  | create .. | createText _ => .isTrue trivial
  | appendChild .. | insertAt .. | removeChild .. | replaceAt .. =>
    inferInstanceAs (Decidable (_ ∧ _))
  | insertBefore .. | replaceChild .. => inferInstanceAs (Decidable (_ ∧ _ ∧ _))
  | removeAt .. | removeChildren _ => inferInstanceAs (Decidable (_ = _))
  | moveChildren .. => inferInstanceAs (Decidable (_ ∧ _))
  | appendData .. => inferInstanceAs (Decidable (_ = _))
  | unmount n | clone n | dispose n => inferInstanceAs (Decidable (∀ m ∈ n, s.Has m))

/-- What a call gives, or why it is refused. -/
def call (s : Store) : Operation → Except TreeError Store
  | create payload visible line => .ok (s.add { payload, visible, line }).2
  | createText data => .ok (s.newText data).2
  | appendChild p child => s.appendChild p child
  | insertBefore p child ref => s.insertBefore p child ref
  | insertAt p child index => s.insertAt p child index
  | removeChild p child => s.removeChild p child
  | removeAt p index => s.removeAt p index
  | removeChildren p => .ok (s.removeChildren p).2
  | replaceChild p child ref => s.replaceChild p child ref
  | replaceAt p child index => s.replaceAt p child index
  | moveChildren p dst => s.moveChildren p dst
  | appendData t data => .ok (s.appendData t data)
  | unmount n => s.unmount n
  | clone n => .ok ((n.map fun n => (s.clone n).2).getD s)
  | dispose n => .ok ((n.map s.dispose).getD s)

/-- The store after a call. -/
def perform (s : Store) (op : Operation) : Store :=
  if op.Callable s then (op.call s).toOption.getD s else s

end Operation

namespace Store

/-- The store after the calls of a list, one after the other, from one without nodes. -/
def run (ops : List Operation) : Store := ops.foldl Operation.perform {}

/-- Following `step` visits exactly the nodes of the list, and ends. -/
def Visits (step : NodeId → Option NodeId) : Option NodeId → List NodeId → Prop
  | start, [] => start = none
  | start, n :: l => start = some n ∧ Visits step (step n) l

/-- What the links promise. -/
structure Consistent (s : Store) : Prop where
  /-- From the first child on, the links to the next node lead through as many distinct nodes as
  there are children, up to the last child; the links to the previous node lead back the same way.
  The nodes on the way are those that have the container as their parent. -/
  children (c : NodeId) : s.isContainer c → ∃ l : List NodeId,
    Visits s.next? (s.firstChild? c) l ∧ Visits s.previous? (s.lastChild? c) l.reverse ∧
      l.length = s.childCount c ∧ l.Nodup ∧ ∀ n, n ∈ l ↔ s.parent? n = some c
  /-- A node without a parent has no siblings. -/
  alone (n : NodeId) : s.parent? n = none → s.previous? n = none ∧ s.next? n = none
  /-- The path to the parent, its parent and so on ends. -/
  ends (n : NodeId) : ∃ l : List NodeId, Visits s.parent? (some n) l
  /-- Documents are not children. -/
  document (n : NodeId) (d : DocumentData) : s.payload? n = some (.document d) → s.parent? n = none
  /-- Attributes are not children. -/
  attr (n : NodeId) (a : AttributeData) : s.payload? n = some (.attr a) → s.parent? n = none
  /-- A run of text holds character data and expressions. -/
  text (n t : NodeId) : s.parent? n = some t → s.payload? t = some .text →
    (∃ data, s.payload? n = some (.cdata data)) ∨
      ∃ source engine, s.payload? n = some (.expression source engine)

variable {s s' : Store} {n m p : NodeId}

/-! ### One call -/

theorem WellFormed.call {op : Operation} (h : s.WellFormed) (hop : op.Callable s)
    (hok : op.call s = .ok s') : s'.WellFormed := by
  cases op with
  | create payload visible line =>
    obtain rfl := Except.ok.inj hok
    exact h.growth (.add rfl)
  | createText data =>
    obtain rfl := Except.ok.inj hok
    exact h.newText data
  | appendChild p child => exact h.appendChild hop.1 hop.2 hok
  | insertBefore p child ref => exact h.insertBefore hop.1 hop.2.1 hok
  | insertAt p child index =>
    cases hr : s.childAt p index .insert with
    | error e => simp [Operation.call, insertAt, hr, bind, Except.bind] at hok
    | ok r =>
      have hins : s.insertBefore p child (some r) = .ok s' := by
        simpa [Operation.call, insertAt, hr, bind, Except.bind] using hok
      exact h.insertBefore hop.1 hop.2 hins
  | removeChild p child => exact h.removeChild hok
  | removeAt p index =>
    cases hr : s.childAt p index .remove with
    | error e => simp [Operation.call, removeAt, hr, bind, Except.bind] at hok
    | ok r =>
      have hrem : s.removeChild p (some r) = .ok s' := by
        simpa [Operation.call, removeAt, hr, bind, Except.bind] using hok
      exact h.removeChild hrem
  | removeChildren p =>
    obtain rfl := Except.ok.inj hok
    exact h.removeChildren (has_of_isContainer hop)
  | replaceChild p child ref => exact h.replaceChild hop.1 hop.2.1 hok
  | replaceAt p child index =>
    cases hr : s.childAt p index .replace with
    | error e => simp [Operation.call, replaceAt, hr, bind, Except.bind] at hok
    | ok r =>
      have hrep : s.replaceChild p child (some r) = .ok s' := by
        simpa [Operation.call, replaceAt, hr, bind, Except.bind] using hok
      exact h.replaceChild hop.1 hop.2 hrep
  | moveChildren p dst => exact h.moveChildren (has_of_isContainer hop.1) hop.2 hok
  | appendData t data =>
    obtain rfl := Except.ok.inj hok
    exact h.appendData hop data
  | unmount n =>
    cases n with
    | none => cases hok
    | some n =>
      obtain rfl := Except.ok.inj hok
      exact h.detach n
  | clone n =>
    obtain rfl := Except.ok.inj hok
    cases n with
    | none => exact h
    | some n => exact h.clone (hop n rfl)
  | dispose n =>
    obtain rfl := Except.ok.inj hok
    cases n with
    | none => exact h
    | some n => exact h.dispose (hop n rfl)

/-- One call keeps a store well-formed, whether or not it is refused. -/
theorem WellFormed.perform (h : s.WellFormed) (op : Operation) : (op.perform s).WellFormed := by
  rw [Operation.perform]
  split
  · rename_i hop
    cases hok : op.call s with
    | error e => exact h
    | ok s' => exact h.call hop hok
  · exact h

/-! ### All calls -/

theorem links_empty : links {} n = {} := by simp [links, get?]

theorem wellFormed_empty : WellFormed {} := by
  have hparent : ∀ n, parent? {} n = none := fun n => by rw [parent?, links_empty]
  have hlinked : Linked {} fun _ => [] := by
    constructor <;>
      simp [parent?, previous?, next?, firstChild?, lastChild?, childCount, links_empty, Row]
  refine .of_linked hlinked (fun n => ⟨1, ?_⟩) fun n p h => ?_
  · rw [ascend, hparent]
    rfl
  · simp [hparent] at h

theorem wellFormed_run (ops : List Operation) : (run ops).WellFormed := by
  suffices ∀ s : Store, s.WellFormed → (ops.foldl Operation.perform s).WellFormed from
    this {} wellFormed_empty
  induction ops with
  | nil => exact fun s h => h
  | cons op ops ih => exact fun s h => ih _ (h.perform op)

/-! ### Following the links -/

theorem Row.visits_next {before : Option NodeId} {l : List NodeId} (h : s.Row before l none) :
    Visits s.next? l.head? l := by
  induction l generalizing before with
  | nil => rfl
  | cons n l ih =>
    obtain ⟨-, hnext, hrow⟩ := h
    refine ⟨rfl, ?_⟩
    rw [hnext, Option.or_none]
    exact ih hrow

theorem Row.visits_previous {after : Option NodeId} {l : List NodeId} (h : s.Row none l after) :
    Visits s.previous? l.getLast? l.reverse := by
  induction l using List.reverseRecOn generalizing after with
  | nil => rfl
  | append_singleton l n ih =>
    obtain ⟨hrow, hprevious, -⟩ := row_append.mp h
    rw [List.reverse_concat, List.getLast?_concat]
    refine ⟨rfl, ?_⟩
    rw [hprevious, Option.or_none]
    exact ih hrow

theorem exists_visits_parent? {k : Nat} (h : s.ascend k n = none) :
    ∃ l, Visits s.parent? (some n) l := by
  induction k generalizing n with
  | zero => cases h
  | succ k ih =>
    cases hp : s.parent? n with
    | none => exact ⟨[n], rfl, hp⟩
    | some p =>
      rw [ascend, hp] at h
      obtain ⟨l, hl⟩ := ih h
      exact ⟨n :: l, rfl, hp ▸ hl⟩

theorem WellFormed.consistent (h : s.WellFormed) : s.Consistent where
  children c _ := by
    refine ⟨s.children c, ?_, ?_, (h.linked.count c).symm, h.linked.nodup c, ?_⟩
    · rw [h.linked.first]
      exact (h.linked.row c).visits_next
    · rw [h.linked.last]
      exact (h.linked.row c).visits_previous
    · exact fun n => h.mem_children
  alone := h.linked.alone
  ends n := by
    obtain ⟨k, hk⟩ := h.grounded n
    exact exists_visits_parent? hk
  document n d hd := by
    cases hp : s.parent? n with
    | none => rfl
    | some p =>
      obtain ⟨k, l, -, hl, hkl⟩ := h.fits n p hp
      rw [kind?, hd] at hl
      obtain rfl := Option.some.inj hl
      cases k <;> cases hkl
  attr n a ha := by
    cases hp : s.parent? n with
    | none => rfl
    | some p =>
      obtain ⟨k, l, -, hl, hkl⟩ := h.fits n p hp
      rw [kind?, ha] at hl
      obtain rfl := Option.some.inj hl
      cases k <;> cases hkl
  text n t hp ht := by
    obtain ⟨k, l, hk, hl, hkl⟩ := h.fits n t hp
    rw [kind?, ht] at hk
    obtain rfl := Option.some.inj hk
    obtain ⟨payload, hpay, rfl⟩ := Option.map_eq_some_iff.mp hl
    cases payload with
    | cdata data => exact .inl ⟨data, hpay⟩
    | expression source engine => exact .inr ⟨source, engine, hpay⟩
    | _ => cases hkl

/-- **Consistency of the links.** In every state that any calls with any arguments lead to, whether
or not they were refused, all links agree with each other and nothing is where it must not be. -/
theorem consistent_run (ops : List Operation) : (run ops).Consistent :=
  (wellFormed_run ops).consistent

/-- Among the calls are such that would close a cycle, put a node in front of itself or replace it
by its neighbour, and those that take a node from one list to another. -/
example : (run [.create (.element { qualifier := [], name := "a" }) true 1,
      .create (.element { qualifier := [], name := "b" }) true 1,
      .createText "t", .appendChild 0 (some 1), .appendChild 1 (some 2), .appendChild 1 (some 0),
      .insertBefore 0 (some 2) (some 1), .insertBefore 0 (some 1) (some 1),
      .replaceAt 0 (some 1) 0, .clone (some 0), .moveChildren 1 (some 0)]).children 0 = [1] := by
  decide

end Store

end Stencil.Tree
