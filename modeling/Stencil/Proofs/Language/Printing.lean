import Stencil.Proofs.Compiler.Session
import Stencil.Proofs.Expression.Engine
import Stencil.Proofs.Language.Registry
import Stencil.Proofs.Tree.Consistency
import Stencil.Proofs.Tree.Traversal

/-!
# What is printed is escaped

The stage that generates code writes code that prints the values of expressions. This module says
which code that is, for every run of the stage, whether or not it fails. The code buffers only grow,
and a piece that is added to them and prints something belongs to the expression at its node. The
value is made safe for markup, with one exception: for an assignment as the value of an attribute
the code prints what is assigned as it is. In character data an assignment is executed and not
printed.

Everything follows from one relation between the states before and after (`Session.Escapes`). It is
kept by each hook of the language, by each part of the stage, and so by a walk of any length.

## Main definitions

* `Session.piecesAt`, `Tree.Store.expressionAt?` – the code at a node, and its expression
* `Session.Escapes` – what was added and prints something comes from the expressions of the nodes

## Main results

* `Language.process_keeps` – entering a node
* `Language.processing_escapes` – the stage
-/

namespace Stencil

open Stencil.Tree (NodeId Store)
open Code (Buffers Piece Slot Table)
open Expression (escapeCall)

/-- The source and the engine of the expression that a node holds, as the value of an attribute or
in character data. -/
def Tree.Payload.expression? : Tree.Payload → Option (Text × Text)
  | expression source engine => some (source, engine)
  | attr d =>
    match d.value with
    | .expression source engine _ => some (source, engine)
    | .literal _ => none
  | _ => none

/-- The expression at a node of the store. -/
def Tree.Store.expressionAt? (t : Store) (n : NodeId) : Option (Text × Text) :=
  (t.payload? n).bind Tree.Payload.expression?

/-! ### Pieces of code -/

namespace Code.Buffers

variable {b : Buffers} {slot slot' : Slot} {code : Text}

theorem pieces_append : (b.append slot code).pieces slot' =
    b.pieces slot' ++ if slot' = slot then [.behind code] else [] := by
  rw [append, pieces, get?_write]
  split
  · rename_i h
    rw [h]
    rfl
  · rw [List.append_nil]
    rfl

theorem pieces_prepend : (b.prepend slot code).pieces slot' =
    (if slot' = slot then [.ahead code] else []) ++ b.pieces slot' := by
  rw [prepend, pieces, get?_write]
  split
  · rename_i h
    rw [h]
    rfl
  · rfl

end Code.Buffers

namespace Session

/-- The pieces of code in a place of a node. -/
def piecesAt (s : Session) (n : NodeId) (slot : Slot) : List Piece :=
  ((s.buffers.get? n).getD {}).pieces slot

/-- The code prints the value of the expression at a node, and makes it safe unless the expression
is an assignment as the value of an attribute. -/
def Prints (d : Dialect) (t : Store) (n : NodeId) (slot : Slot) (code : Text) : Prop :=
  ∃ source engine c, t.expressionAt? n = some (source, engine) ∧ d.compile source engine = .ok c ∧
    code = "echo " ++ (if c.kind = .assignment then c.bare else escapeCall c.bare) ++ ";" ∧
    (c.kind = .assignment → slot = .attributeValue)

/-- No node gets an expression, and a piece of code that was added and prints something prints the
value of the expression at its node. -/
structure Escapes (d : Dialect) (s s' : Session) : Prop where
  expressionAt? (n : NodeId) (x : Text × Text) :
    s'.store.expressionAt? n = some x → s.store.expressionAt? n = some x
  pieces (n : NodeId) (slot : Slot) : ∃ front back,
    s'.piecesAt n slot = front ++ s.piecesAt n slot ++ back ∧
      ∀ p ∈ front ++ back, ("echo " : Text) <+: p.code → Prints d s.store n slot p.code

namespace Escapes

variable {d : Dialect} {s s' s'' : Session} {n : NodeId} {slot : Slot}

/-- Nothing was written. -/
theorem of_buffers_eq (hb : s'.buffers = s.buffers)
    (he : ∀ n x, s'.store.expressionAt? n = some x → s.store.expressionAt? n = some x) :
    Escapes d s s' where
  expressionAt? := he
  pieces n slot := ⟨[], [], by rw [piecesAt, piecesAt, hb]; simp, by simp⟩

instance : Std.Refl (Escapes d) := ⟨fun _ => of_buffers_eq rfl fun _ _ h => h⟩

theorem trans (h : Escapes d s s') (h' : Escapes d s' s'') : Escapes d s s'' where
  expressionAt? n x hx := h.expressionAt? n x (h'.expressionAt? n x hx)
  pieces n slot := by
    obtain ⟨front, back, heq, hnew⟩ := h.pieces n slot
    obtain ⟨front', back', heq', hnew'⟩ := h'.pieces n slot
    refine ⟨front' ++ front, back ++ back', by rw [heq', heq]; simp, fun p hp hecho => ?_⟩
    have hmem : p ∈ front ++ back ∨ p ∈ front' ++ back' := by
      simp only [List.mem_append] at hp ⊢
      grind
    rcases hmem with hp | hp
    · exact hnew p hp hecho
    · obtain ⟨source, engine, c, hx, hc⟩ := hnew' p hp hecho
      exact ⟨source, engine, c, h.expressionAt? n _ hx, hc⟩

instance : Trans (Escapes d) (Escapes d) (Escapes d) := ⟨trans⟩

/-- Writing to the buffers of a node. -/
theorem of_modify {f : Buffers → Buffers}
    (hf : ∀ b slot, ∃ front back, (f b).pieces slot = front ++ b.pieces slot ++ back ∧
      ∀ p ∈ front ++ back, ("echo " : Text) <+: p.code → Prints d s.store n slot p.code) :
    Escapes d s { s with buffers := s.buffers.modify n {} f } where
  expressionAt? _ _ h := h
  pieces m slot := by
    rw [piecesAt, Table.modify, Table.get?_put]
    split
    · rename_i hm
      subst hm
      exact hf _ slot
    · exact ⟨[], [], by simp [piecesAt], by simp⟩

/-- Adding a piece behind the others. -/
theorem of_append (slot : Slot) (code : Text) {f : Buffers → Buffers}
    (hf : ∀ b slot', (f b).pieces slot' = (b.append slot code).pieces slot')
    (h : ("echo " : Text) <+: code → Prints d s.store n slot code) :
    Escapes d s { s with buffers := s.buffers.modify n {} f } := by
  refine of_modify fun b slot' =>
    ⟨[], _, by rw [hf, Buffers.pieces_append]; rfl, fun p hp hecho => ?_⟩
  rw [List.nil_append] at hp
  split at hp
  · rename_i hslot
    obtain rfl := List.mem_singleton.mp hp
    exact hslot ▸ h hecho
  · cases hp

end Escapes

end Session

namespace Tree.Store

variable {t : Store} {n a : NodeId}

theorem expressionAt?_setVisible {v : Bool} :
    (t.setVisible n v).expressionAt? a = t.expressionAt? a := by
  have hpayload : (t.setVisible n v).payload? a = t.payload? a := by
    rw [setVisible, payload?, payload?, get?_modify]
    split
    · cases t.get? a <;> rfl
    · rfl
  rw [expressionAt?, expressionAt?, hpayload]

/-- An attribute with a fixed value holds no expression. -/
theorem expressionAt?_of_setValue {v : Text} {x : Text × Text}
    (h : (t.setValue a (.literal v)).expressionAt? n = some x) : t.expressionAt? n = some x := by
  rw [setValue, modifyAttr] at h
  split at h
  · rename_i d hd
    rw [expressionAt?, setPayload, payload?, get?_modify] at h
    split at h
    · cases hn : t.get? n <;> rw [hn] at h <;> cases h
    · exact h
  · exact h

end Tree.Store

namespace Work

variable {d : Dialect} {s : Session} {n : NodeId}

theorem setVisible_keeps {v : Bool} : (setVisible n v).Keeps (Session.Escapes d) s :=
  .of_buffers_eq rfl fun _ _ h => Tree.Store.expressionAt?_setVisible ▸ h

theorem setProperty_keeps {name : Text} {v : Code.Property} :
    (setProperty n name v).Keeps (Session.Escapes d) s :=
  .of_buffers_eq rfl fun _ _ h => h

theorem takeReturn_keeps : (takeReturn n).Keeps (Session.Escapes d) s := by
  rw [Action.Keeps, takeReturn_apply]
  refine .of_buffers_eq ?_ fun _ _ h => Session.store_lower ▸ h
  rw [Session.lower]
  split <;> rfl

end Work

namespace Language

variable {env : Stage.Environment} {d : Dialect} {s : Session} {n : NodeId}

/-! ### The hooks of the language -/

/-- The code of a condition prints nothing. -/
theorem wrapCondition_keeps {e : NodeId} {test : Expression.Compiled} :
    (wrapCondition e test).Keeps (Session.Escapes d) s := by
  refine .of_modify fun b slot => ⟨_, _, by rw [Buffers.pieces_append, Buffers.pieces_prepend], ?_⟩
  intro p hp
  have hcode : p.code = "if(" ++ test.bare ++ ")\x7b" ∨ p.code = "\x7d" := by
    rcases List.mem_append.mp hp with hp | hp <;> split at hp <;>
      simp only [List.mem_singleton, List.not_mem_nil] at hp
    · exact .inl (hp ▸ rfl)
    · exact .inr (hp ▸ rfl)
  rintro ⟨rest, hrest⟩
  have hhead := congrArg List.head? hrest
  rcases hcode with hcode | hcode <;> rw [hcode] at hhead <;> cases hhead

theorem conditionElement_keeps {e : NodeId} :
    ((conditionElement d).enter e).Keeps (Session.Escapes d) s :=
  .bind Work.extract_keeps fun _ _ _ => .bind wrapCondition_keeps fun _ _ _ =>
    .bind Work.setVisible_keeps fun _ _ _ => Work.enqueueChildren_keeps

theorem conditionAttribute_keeps {e a : NodeId} :
    ((conditionAttribute d).enter e a).Keeps (Session.Escapes d) s := by
  refine .bind Work.store_keeps fun _ _ _ => ?_
  dsimp only
  split
  · exact .bind Work.fail_keeps fun _ _ _ => .bind Work.lift_keeps fun _ _ _ => wrapCondition_keeps
  · exact .bind Work.lift_keeps fun _ _ _ => wrapCondition_keeps

/-- What the language does at elements while code is generated. -/
theorem elementHooks_keep [Encoding.Decoders] {config : Config} {c : Compiler}
    {r : Registry} {uri : Option Int}
    {name : Text} {hooks : ElementHooks} (hc : Compiler.withLanguage config = .ok c)
    (hr : c.setup = .ok r) (hh : r.element? .processing uri name = some hooks) (n : NodeId)
    (s : Session) : (hooks.enter n).Keeps (Session.Escapes c.dialect) s ∧
      (hooks.leave n).Keeps (Session.Escapes c.dialect) s := by
  obtain ⟨i, hi, -, -, -, f, -, -, hf, rfl⟩ := (brought_of_setup hr).element? hh
  obtain rfl | rfl | rfl | rfl := instruction_of_withLanguage hc hi
  · cases hf
    exact ⟨.bind Work.setVisible_keeps fun _ _ _ => Work.enqueueChildren_keeps, .pure⟩
  · cases hf
    exact ⟨.bind Work.setVisible_keeps fun _ _ _ => Work.enqueueChildren_keeps, .pure⟩
  · cases hf
    exact ⟨conditionElement_keeps, .pure⟩
  · cases hf
    exact ⟨.bind Work.setProperty_keeps fun _ _ _ => .bind Work.setVisible_keeps fun _ _ _ =>
      Work.enqueueChildren_keeps, .pure⟩

/-- What the language does at attributes while code is generated. -/
theorem attributeHooks_keep [Encoding.Decoders] {config : Config} {c : Compiler}
    {r : Registry} {uri : Option Int}
    {name : Text} {hooks : AttributeHooks} (hc : Compiler.withLanguage config = .ok c)
    (hr : c.setup = .ok r) (hh : r.attribute? .processing uri name = some hooks) (n a : NodeId)
    (s : Session) : (hooks.enter n a).Keeps (Session.Escapes c.dialect) s ∧
      (hooks.leave n a).Keeps (Session.Escapes c.dialect) s := by
  obtain ⟨i, hi, f, hf, rfl⟩ := (brought_of_setup hr).attribute? hh
  obtain rfl | rfl | rfl | rfl := instruction_of_withLanguage hc hi
  · cases hf
  · cases hf
  · cases hf
    exact ⟨conditionAttribute_keeps, .pure⟩
  · cases hf

/-! ### The stage -/

/-- The hooks of the stage that generates code print nothing but what they may. -/
structure Discreet (env : Stage.Environment) : Prop where
  elements (uri : Option Int) (name : Text) (hooks : ElementHooks) :
    env.registry.element? .processing uri name = some hooks → ∀ n s,
      (hooks.enter n).Keeps (Session.Escapes env.dialect) s ∧
        (hooks.leave n).Keeps (Session.Escapes env.dialect) s
  attributes (uri : Option Int) (name : Text) (hooks : AttributeHooks) :
    env.registry.attribute? .processing uri name = some hooks → ∀ n a s,
      (hooks.enter n a).Keeps (Session.Escapes env.dialect) s ∧
        (hooks.leave n a).Keeps (Session.Escapes env.dialect) s

/-- Calling the hooks of an element, if there are any. -/
theorem Discreet.withElementHooks (henv : Discreet env) {α : Type}
    {f : Option ElementHooks → Work α} (hnone : ∀ s, (f none).Keeps (Session.Escapes env.dialect) s)
    (hsome : ∀ hooks : ElementHooks, (∀ n s, (hooks.enter n).Keeps (Session.Escapes env.dialect) s ∧
      (hooks.leave n).Keeps (Session.Escapes env.dialect) s) →
      ∀ s, (f (some hooks)).Keeps (Session.Escapes env.dialect) s) :
    (Stage.elementHooks? env .processing n >>= f).Keeps (Session.Escapes env.dialect) s := by
  rw [Action.Keeps, Action.bind_ok elementHooks?_apply]
  cases hh : (s.store.element? n).bind fun e => env.registry.element? .processing e.uri e.name with
  | none => exact hnone s
  | some hooks =>
    obtain ⟨e, -, he⟩ := Option.bind_eq_some_iff.mp hh
    exact hsome hooks (henv.elements e.uri e.name hooks he) s

/-- Calling the hooks of an attribute, if there are any. -/
theorem Discreet.withAttributeHooks (henv : Discreet env) {α : Type}
    {f : Option AttributeHooks → Work α}
    (hnone : ∀ s, (f none).Keeps (Session.Escapes env.dialect) s)
    (hsome : ∀ hooks : AttributeHooks,
      (∀ n a s, (hooks.enter n a).Keeps (Session.Escapes env.dialect) s ∧
        (hooks.leave n a).Keeps (Session.Escapes env.dialect) s) →
      ∀ s, (f (some hooks)).Keeps (Session.Escapes env.dialect) s) :
    (Stage.attributeHooks? env .processing n >>= f).Keeps (Session.Escapes env.dialect) s := by
  rw [Action.Keeps, Action.bind_ok attributeHooks?_apply]
  cases hh : (s.store.attr? n).bind fun d => env.registry.attribute? .processing d.uri d.name with
  | none => exact hnone s
  | some hooks =>
    obtain ⟨d, -, hd⟩ := Option.bind_eq_some_iff.mp hh
    exact hsome hooks (henv.attributes d.uri d.name hooks hd) s

/-- A printed value is made safe unless it is that of an assignment. -/
theorem prints_escaped {t : Store} {source engine : Text} {slot : Slot} {c : Expression.Compiled}
    (hx : t.expressionAt? n = some (source, engine)) (hc : d.compile source engine = .ok c)
    (hslot : c.kind = .assignment → slot = .attributeValue) :
    Session.Prints d t n slot ("echo " ++ c.escaped ++ ";") := by
  refine ⟨source, engine, c, hx, hc, ?_, hslot⟩
  have hproper := Dialect.proper_compile hc
  rw [Expression.Compiled.Proper] at hproper
  split at hproper
  · rw [if_pos ‹_›, hproper.1]
  · rw [if_neg ‹_›, hproper]

/-- The code for the value of an attribute. -/
theorem processValue_keeps {a : NodeId} :
    (Stage.processValue env a).Keeps (Session.Escapes env.dialect) s := by
  refine .bind Work.store_keeps fun t s₁ hs₁ => ?_
  cases hs₁
  split
  · rename_i source engine line hvalue
    refine .bind (Work.atNode_keeps Work.lift_keeps) fun compiled s₂ hs₂ => ?_
    obtain ⟨hcompile, rfl⟩ := Work.lift_ok (Work.atNode_ok hs₂)
    refine .bind (.of_append .attributeValue _ (fun _ _ => rfl) fun _ => prints_escaped ?_ hcompile
        fun _ => rfl) fun _ _ _ =>
      .of_buffers_eq rfl fun _ _ => Tree.Store.expressionAt?_of_setValue
    obtain ⟨data, hdata, hvalue⟩ := Option.map_eq_some_iff.mp hvalue
    rw [Tree.Store.attr?] at hdata
    split at hdata
    · rename_i hpayload
      cases hdata
      rw [Tree.Store.expressionAt?, hpayload]
      simp [Tree.Payload.expression?, hvalue]
    · cases hdata
  · exact .pure

/-- The code for an expression in character data. An assignment does not look like a statement that
prints something. -/
theorem expressionCode_keeps {source engine : Text} {c : Expression.Compiled}
    (hx : s.store.expressionAt? n = some (source, engine)) (hc : d.compile source engine = .ok c) :
    (Work.modifyBuffers n (Stage.expressionCode c)).Keeps (Session.Escapes d) s := by
  cases hkind : c.kind with
  | assignment =>
    have hproper := Dialect.proper_compile hc
    rw [Expression.Compiled.Proper, if_pos hkind] at hproper
    refine .of_append .content (c.bare ++ ";") (fun b slot => ?_) fun hecho =>
      absurd hecho hproper.2
    rw [Stage.expressionCode, hkind]
  | scalar =>
    refine .of_append .content _ (fun b slot => ?_) fun _ => prints_escaped hx hc fun h => ?_
    · rw [Stage.expressionCode, hkind]
      rfl
    · rw [hkind] at h
      cases h
  | value =>
    refine .of_append .content _ (fun b slot => ?_) fun _ => prints_escaped hx hc fun h => ?_
    · rw [Stage.expressionCode, hkind]
      rfl
    · rw [hkind] at h
      cases h

/-- The code for the attributes of an ordinary element. -/
theorem processAttributes_keeps (henv : Discreet env) :
    (Stage.processAttributes env n).Keeps (Session.Escapes env.dialect) s :=
  .bind Work.store_keeps fun _ _ _ => .forM fun a _ _ => henv.withAttributeHooks
    (fun _ => processValue_keeps) fun _ hhooks s => Work.atNode_keeps (hhooks n a s).1

/-- Entering a node. -/
theorem process_keeps (henv : Discreet env) :
    (Stage.process env n).Keeps (Session.Escapes env.dialect) s := by
  refine .bind Work.store_keeps fun t s₁ hs₁ => ?_
  cases hs₁
  split
  · split
    · exact henv.withElementHooks (fun _ => .pure) fun _ hhooks s =>
        Work.atNode_keeps (hhooks n s).1
    · exact .bind Work.setVisible_keeps fun _ _ _ =>
        .bind (processAttributes_keeps henv) fun _ _ _ =>
        Work.enqueueChildren_keeps
  · exact .bind Work.setVisible_keeps fun _ _ _ => Work.enqueueChildren_keeps
  · exact .bind Work.setVisible_keeps fun _ _ _ => Work.enqueueChildren_keeps
  · rename_i source engine hpayload
    refine .bind Work.setVisible_keeps fun _ s₁ hs₁ => ?_
    cases hs₁
    refine .bind (Work.atNode_keeps Work.lift_keeps) fun compiled s₂ hs₂ => ?_
    obtain ⟨hcompile, rfl⟩ := Work.lift_ok (Work.atNode_ok hs₂)
    refine .bind (expressionCode_keeps ?_ hcompile) fun _ _ _ => .pure
    refine Tree.Store.expressionAt?_setVisible.trans ?_
    rw [Tree.Store.expressionAt?, hpayload]
    rfl
  · exact .bind Work.setVisible_keeps fun _ _ _ => .pure

/-- Leaving a node. -/
theorem leave_keeps (henv : Discreet env) :
    (Stage.leave env .processing n).Keeps (Session.Escapes env.dialect) s := by
  have helement : ∀ s, (Stage.returnToElement env .processing n).Keeps
      (Session.Escapes env.dialect) s := by
    refine fun s => .bind Work.takeReturn_keeps fun asked _ _ => ?_
    split
    · exact henv.withElementHooks (fun _ => .pure) fun _ hhooks s =>
        Work.atNode_keeps (hhooks n s).2
    · exact .pure
  have hattribute : ∀ a s, (Stage.returnToAttribute env .processing n a).Keeps
      (Session.Escapes env.dialect) s := by
    refine fun a s => .bind Work.takeReturn_keeps fun asked _ _ => ?_
    split
    · exact henv.withAttributeHooks (fun _ => .pure) fun _ hhooks s =>
        Work.atNode_keeps (hhooks n a s).2
    · exact .pure
  refine .bind Work.store_keeps fun _ _ _ => ?_
  split
  · exact .bind (helement _) fun _ _ _ => .bind Work.store_keeps fun _ _ _ =>
      .forM fun a _ s => hattribute a s
  · exact .pure

/-- **What is printed is escaped, except for assignments in attribute values.** For every run of the
stage that generates code, whether or not it fails: a piece that it adds to a code buffer and that
prints something prints the value of the expression at that node. The value is escaped unless the
expression is an assignment; that is printed as it is, and only as the value of an attribute. -/
theorem processing_escapes [Encoding.Decoders] {config : Config} {c : Compiler}
    {r : Registry} {steps : Nat}
    {doc : NodeId} {s s' : Session} {result : Except Failure Unit}
    (hc : Compiler.withLanguage config = .ok c) (hr : c.setup = .ok r)
    (hrun : Stage.run ⟨c.dialect, r⟩ .processing steps doc s = some (result, s')) (n : NodeId)
    (slot : Slot) :
    ∃ front back, s'.piecesAt n slot = front ++ s.piecesAt n slot ++ back ∧
      ∀ p ∈ front ++ back, ("echo " : Text) <+: p.code →
        ∃ source engine e, s.store.expressionAt? n = some (source, engine) ∧
          c.dialect.compile source engine = .ok e ∧
          p.code = "echo " ++ (if e.kind = .assignment then e.bare else escapeCall e.bare) ++ ";" ∧
          (e.kind = .assignment → slot = .attributeValue) := by
  have henv : Discreet ⟨c.dialect, r⟩ :=
    ⟨fun _ _ _ => elementHooks_keep hc hr, fun _ _ _ => attributeHooks_keep hc hr⟩
  rw [Stage.run] at hrun
  split at hrun
  · cases hrun
  · rename_i s₁ hwalk
    cases hrun
    have hloop := Tree.Visitor.loop_keeps (fun _ _ => process_keeps henv)
      (fun _ _ => leave_keeps henv) hwalk
    exact hloop.pieces n slot

/-- A document with an element that has an assignment as the value of an attribute. -/
def assigning : Session where
  store := Store.run [.create (.document { type := "xml", singleRoot := true }) false 0,
    .create (.element { qualifier := [], name := "p", attrs := ⟨[("title", 2)]⟩ }) false 1,
    .create (.attr { qualifier := [], name := "title", value := .expression "$x = 1" "parse" 1 })
      false 1,
    .appendChild 0 (some 1)]

/-- The assignment is printed as it is. -/
theorem assigning_prints : ∃ c r s', Compiler.withLanguage { maxSourceSize := [] } = .ok c ∧
    c.setup = .ok r ∧ Stage.run ⟨c.dialect, r⟩ .processing 9 0 assigning = some (.ok (), s') ∧
    s'.piecesAt 2 .attributeValue = [.behind "echo $this->data['x'] = 1;"] ∧
    ∃ front back, s'.piecesAt 2 .attributeValue =
        front ++ assigning.piecesAt 2 .attributeValue ++ back ∧
      ∀ p ∈ front ++ back, ("echo " : Text) <+: p.code →
        ∃ source engine e, assigning.store.expressionAt? 2 = some (source, engine) ∧
          c.dialect.compile source engine = .ok e ∧
          p.code = "echo " ++ (if e.kind = .assignment then e.bare else escapeCall e.bare) ++ ";" ∧
          (e.kind = .assignment → Slot.attributeValue = .attributeValue) := by
  obtain ⟨c, hc⟩ : ∃ c, Compiler.withLanguage { maxSourceSize := [] } = .ok c := ⟨_, rfl⟩
  obtain ⟨r, hr⟩ := exists_setup hc
  have hany : (Stage.run ⟨c.dialect, r⟩ .processing 9 0 assigning).any fun p => p.1.isOk &&
      p.2.piecesAt 2 .attributeValue == [.behind "echo $this->data['x'] = 1;"] := by
    obtain rfl := Except.ok.inj hc
    rw [Compiler.setup_eq] at hr
    obtain rfl := Except.ok.inj hr
    decide +kernel
  cases hrun : Stage.run ⟨c.dialect, r⟩ .processing 9 0 assigning with
  | none => simp [hrun] at hany
  | some outcome =>
    obtain ⟨_ | ⟨⟩, s'⟩ := outcome
    · simp [hrun, Except.isOk, Except.toBool] at hany
    · have hpieces : s'.piecesAt 2 .attributeValue = [.behind "echo $this->data['x'] = 1;"] := by
        simpa [hrun, Except.isOk, Except.toBool] using hany
      exact ⟨c, r, s', hc, hr, hrun, hpieces, processing_escapes hc hr hrun 2 .attributeValue⟩

end Language

end Stencil
