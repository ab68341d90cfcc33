import Stencil.Language.Basic
import Stencil.Proofs.Data.Action

/-!
# Who is called for what

Registering the instructions changes the session and the registry, and a failure leaves both half
way. What is registered if all goes well depends on the registry alone, and is a fold over the
instructions and what they ask for.

A compiler for the language registers the instructions of the language and no others, so in the
stage that changes the tree only a handful of hooks can be called.

## Main definitions

* `Compiler.enrolled`, `Compiler.enrolledAll` – registries with the registrations of instructions
* `Compiler.registryOf` – the registry after an action
* `Language.Native` – an instruction brings hooks of the language
* `Language.Spoken` – the instructions of the language, and no others, are registered
* `Language.Brought` – what is registered comes from given instructions
* `Language.elementTable`, `Language.attributeTable`, `Language.printingTable` – the hooks of the
  language by name
* `Language.inheritance` – what resolves references

## Main results

* `Compiler.registryOf_prepare`, `Compiler.setup_eq` – registering is that fold
* `Compiler.prepare_eq` – if nothing has to be prepared, registering changes the registry alone
* `Language.brought_of_setup` – what a compiler registers comes from its instructions
* `Language.exists_setup` – a compiler for the language can register its instructions
* `Language.spoken_of_setup` – a compiler for the language speaks it
* `Language.element?_of_setup`, `Language.attribute?_of_setup`, `Language.printing?_of_setup` – who
  is called, name by name
* `Language.elementHooks?_apply`, `Language.attributeHooks?_apply` – asking for that
* `Compiler.buildIn_eq` – a build begins with nothing but the registrations
-/

namespace Stencil.Compiler

variable {c : Compiler} {i : Instruction} {x : CompilerState}

/-- A registry with one more registration. -/
def enrolledFor (c : Compiler) (i : Instruction) (r : Registry) (reg : Registration) :
    Except Failure Registry := do
  let _ ← c.stageOfKind reg.stage.name reg.stage
  r.register c.dialect i reg

/-- A registry with all registrations of an instruction. -/
def enrolled (c : Compiler) (r : Registry) (i : Instruction) : Except Failure Registry := do
  i.namespaces.forM fun uri => (c.dialect.namespaceId uri).map fun _ => ()
  i.registrations.foldlM (c.enrolledFor i) r

/-- A registry with the registrations of several instructions. -/
def enrolledAll (c : Compiler) (r : Registry) (is : List Instruction) : Except Failure Registry :=
  is.foldlM (fun r i => (c.enrolled r i).mapError fun f => f.within (.configuration i.label)) r

/-- The registry after an action on the state of a compiler, if that succeeds. -/
def registryOf (w : Action Failure CompilerState Unit) (x : CompilerState) :
    Except Failure Registry :=
  (w x).1.map fun _ => (w x).2.registry

theorem registryOf_bind {w : Action Failure CompilerState Unit}
    {v : Unit → Action Failure CompilerState Unit} (next : Registry → Except Failure Registry)
    (h : ∀ y, registryOf (v ()) y = next y.registry) :
    registryOf (w >>= v) x = registryOf w x >>= next := by
  rw [registryOf, registryOf, Action.bind_apply]
  cases w x with
  | mk r y =>
    cases r with
    | error f => rfl
    | ok u => exact h y

theorem registryOf_forM {α : Type} {w : α → Action Failure CompilerState Unit}
    {step : Registry → α → Except Failure Registry}
    (h : ∀ a x, registryOf (w a) x = step x.registry a) (l : List α) (x : CompilerState) :
    registryOf (l.forM w) x = l.foldlM step x.registry := by
  induction l generalizing x with
  | nil => rfl
  | cons a l ih =>
    have hbind := registryOf_bind (w := w a) (x := x) (v := fun _ => l.forM w)
      (fun r => l.foldlM step r) ih
    rwa [h] at hbind

theorem registryOf_mapError {w : Action Failure CompilerState Unit} {g : Failure → Failure} :
    registryOf (w.mapError g) x = (registryOf w x).mapError g := by
  rw [registryOf, registryOf, Action.mapError]
  cases hw : w x with
  | mk r y => cases r <;> rfl

theorem registryOf_register {reg : Registration} :
    registryOf (c.register i reg) x = c.enrolledFor i x.registry reg := by
  rw [registryOf, register, enrolledFor]
  cases c.stageOfKind reg.stage.name reg.stage with
  | error f => rfl
  | ok stage =>
    have hstage : (Action.ofExcept (.ok stage) : Action Failure CompilerState StageOf) x =
        (.ok stage, x) := rfl
    rw [Action.bind_ok hstage, Action.bind_ok (Action.get_apply x)]
    change _ = x.registry.register c.dialect i reg
    cases x.registry.register c.dialect i reg <;> rfl

theorem registryOf_configure : registryOf (c.configure i) x = c.enrolled x.registry i := by
  have hnames (r : Except Failure Unit) (y : CompilerState) :
      registryOf (.ofExcept r >>= fun _ => i.registrations.forM (c.register i)) y =
        r >>= fun _ => i.registrations.foldlM (c.enrolledFor i) y.registry := by
    cases r with
    | error f => rfl
    | ok u => exact registryOf_forM (fun _ _ => registryOf_register) _ y
  exact hnames _ _

/-- What is registered in addition to what there is. -/
theorem registryOf_prepare (x : CompilerState) :
    registryOf c.prepare x = c.enrolledAll x.registry c.instructions := by
  refine registryOf_forM (fun i x => ?_) _ _
  rw [registryOf_mapError, registryOf_configure]

theorem setup_eq : c.setup = c.enrolledAll {} c.instructions := by
  have hprepare := registryOf_prepare (c := c) {}
  rw [← hprepare, registryOf, setup]
  cases c.prepare {} with
  | mk r x => cases r <;> rfl

/-! ### The session -/

/-- If the session was the given one before, it is still the given one. -/
def Rests (s : Session) (x y : CompilerState) : Prop := x.session = s → y.session = s

instance {s : Session} : Std.Refl (Rests s) := ⟨fun _ hx => hx⟩

instance {s : Session} : Trans (Rests s) (Rests s) (Rests s) := ⟨fun hxy hyz hx => hyz (hxy hx)⟩

/-- A session for which the instructions have nothing to prepare stays as it is. -/
theorem prepare_rests {s : Session} (h : ∀ i ∈ c.instructions, i.prepare s = s) :
    c.prepare.Keeps (Rests s) x := by
  refine .forM fun i hi x => .mapError (.bind (.modify fun hx => ?_) fun _ _ _ =>
    .bind .ofExcept fun _ _ _ => .forM fun reg _ x => ?_)
  · exact (congrArg i.prepare hx).trans (h i hi)
  · exact .bind .ofExcept fun _ _ _ => .bind .get fun _ _ _ =>
      .bind .ofExcept fun _ _ _ => .modify id

/-- If nothing has to be prepared, registering changes the registry alone. -/
theorem prepare_eq {s : Session} {reg : Registry} (hr : c.setup = .ok reg)
    (h : ∀ i ∈ c.instructions, i.prepare s = s) :
    c.prepare { session := s } = (.ok (), { session := s, registry := reg }) := by
  have hregistry := registryOf_prepare (c := c) { session := s }
  have hsession : (c.prepare { session := s }).2.session = s := prepare_rests h rfl
  rw [← setup_eq, hr, registryOf] at hregistry
  cases hx : c.prepare { session := s } with
  | mk r x =>
    rw [hx] at hregistry hsession
    cases r with
    | error f => cases hregistry
    | ok _ =>
      obtain rfl := Except.ok.inj hregistry
      obtain rfl := hsession
      rfl

end Stencil.Compiler

/-! ## The instructions of the language -/

namespace Stencil

/-- What holds at the start and is kept by every step holds at the end of a fold that succeeds. -/
theorem foldlM_induction {α β ε : Type} {P : β → Prop} {f : β → α → Except ε β}
    {l : List α} {x y : β}
    (hf : ∀ a ∈ l, ∀ x y, P x → f x a = .ok y → P y) (hx : P x) (h : l.foldlM f x = .ok y) :
    P y := by
  induction l generalizing x with
  | nil =>
    cases h
    exact hx
  | cons a l ih =>
    rw [List.foldlM_cons] at h
    cases ha : f x a with
    | error e => simp [ha, bind, Except.bind] at h
    | ok z =>
      rw [ha] at h
      exact ih (fun b hb => hf b (by simp [hb])) (hf a (by simp) x z hx ha) h

namespace Language

/-- The hooks of the language for elements, in the stage that changes the tree. -/
def IsElementHook (d : Dialect) (hooks : ElementHooks) : Prop :=
  hooks = definitionElement d ∨ hooks = templateElement d ∨
    hooks = { enter := Work.enqueueChildren }

/-- The hooks of the language for attributes, in the stage that changes the tree. -/
def IsAttributeHook (hooks : AttributeHooks) : Prop :=
  hooks = { enter := useAttribute, leave := fun _ _ => leaveExpansion }

/-- What is registered for the stage that changes the tree belongs to the language. -/
structure Spoken (env : Stage.Environment) : Prop where
  elements (uri : Option Int) (name : Text) (hooks : ElementHooks) :
    env.registry.element? .manipulation uri name = some hooks →
      uri = some (namespaceIdOf env.dialect) ∧ IsElementHook env.dialect hooks
  attributes (uri : Option Int) (name : Text) (hooks : AttributeHooks) :
    env.registry.attribute? .manipulation uri name = some hooks → IsAttributeHook hooks

/-- An instruction registers in the namespace of the language, with hooks of the language. -/
structure Native (i : Instruction) : Prop where
  uri (reg : Registration) : reg ∈ i.registrations → reg.uri = Language.uri
  elements (d : Dialect) (hooks : Dialect → ElementHooks) :
    i.elements .manipulation = some hooks → IsElementHook d (hooks d)
  attributes (d : Dialect) (hooks : Dialect → AttributeHooks) :
    i.attributes .manipulation = some hooks → IsAttributeHook (hooks d)

theorem native_template : Native template where
  uri := by decide
  elements d hooks h := by
    obtain rfl := Option.some.inj h
    exact .inr (.inl rfl)
  attributes _ _ h := by cases h

theorem native_definition : Native definition where
  uri := by decide
  elements d hooks h := by
    obtain rfl := Option.some.inj h
    exact .inl rfl
  attributes d hooks h := by
    obtain rfl := Option.some.inj h
    rfl

theorem native_conditional : Native conditional where
  uri := by decide
  elements d hooks h := by
    obtain rfl := Option.some.inj h
    exact .inr (.inr rfl)
  attributes _ _ h := by cases h

theorem native_dynamic : Native dynamic where
  uri := by decide
  elements d hooks h := by
    obtain rfl := Option.some.inj h
    exact .inr (.inr rfl)
  attributes _ _ h := by cases h

/-! ### Where hooks come from -/

/-- Every entry of a registry was brought by one of the instructions, for a namespace it has asked
for. -/
structure Brought (is : List Instruction) (d : Dialect) (r : Registry) : Prop where
  elements (e : (StageKind × Int × Text) × ElementHooks) : e ∈ r.elements →
    ∃ i ∈ is, ∃ reg ∈ i.registrations, ∃ id hooks, d.namespaceId reg.uri = .ok id ∧
      e.1.2.1 = Int.ofNat id ∧ i.elements e.1.1 = some hooks ∧ e.2 = hooks d
  attributes (e : (StageKind × Int × Text) × AttributeHooks) : e ∈ r.attributes →
    ∃ i ∈ is, ∃ hooks, i.attributes e.1.1 = some hooks ∧ e.2 = hooks d

namespace Brought

variable {is : List Instruction} {d : Dialect} {r r' : Registry} {i : Instruction}
  {reg : Registration} {k : StageKind} {uri : Option Int} {name : Text}

theorem element? {hooks : ElementHooks} (h : Brought is d r)
    (hh : r.element? k uri name = some hooks) :
    ∃ i ∈ is, ∃ reg ∈ i.registrations, ∃ id f, d.namespaceId reg.uri = .ok id ∧
      uri = some (Int.ofNat id) ∧ i.elements k = some f ∧ hooks = f d := by
  obtain ⟨u, rfl, hfind⟩ := Option.bind_eq_some_iff.mp hh
  obtain ⟨e, he, rfl⟩ := Option.map_eq_some_iff.mp hfind
  have hkey : e.1 = (k, u, name) := by simpa using List.find?_some he
  obtain ⟨i, hi, reg, hreg, id, f, hid, hu, hf, heq⟩ := h.elements e (List.mem_of_find?_eq_some he)
  rw [hkey] at hu hf
  exact ⟨i, hi, reg, hreg, id, f, hid, congrArg some hu, hf, heq⟩

theorem attribute? {hooks : AttributeHooks} (h : Brought is d r)
    (hh : r.attribute? k uri name = some hooks) :
    ∃ i ∈ is, ∃ f, i.attributes k = some f ∧ hooks = f d := by
  obtain ⟨u, rfl, hfind⟩ := Option.bind_eq_some_iff.mp hh
  obtain ⟨e, he, rfl⟩ := Option.map_eq_some_iff.mp hfind
  have hkey : e.1 = (k, u, name) := by simpa using List.find?_some he
  obtain ⟨i, hi, f, hf, heq⟩ := h.attributes e (List.mem_of_find?_eq_some he)
  rw [hkey] at hf
  exact ⟨i, hi, f, hf, heq⟩

theorem register (h : Brought is d r) (hi : i ∈ is) (hreg : reg ∈ i.registrations)
    (hr : r.register d i reg = .ok r') : Brought is d r' := by
  rw [Registry.register] at hr
  cases hid : d.namespaceId reg.uri with
  | error f => split at hr <;> split at hr <;> simp [hid, bind, Except.bind] at hr
  | ok id =>
    rw [hid] at hr
    split at hr <;> split at hr
    · cases hr
    · rename_i hooks hhooks
      obtain rfl := Except.ok.inj hr
      refine ⟨fun e he => ?_, h.attributes⟩
      rcases List.mem_append.mp he with he | he
      · obtain ⟨n, -, rfl⟩ := List.mem_map.mp (List.mem_reverse.mp he)
        exact ⟨i, hi, reg, hreg, id, hooks, hid, rfl, hhooks, rfl⟩
      · exact h.elements e he
    · cases hr
    · rename_i hooks hhooks
      obtain rfl := Except.ok.inj hr
      refine ⟨h.elements, fun e he => ?_⟩
      rcases List.mem_append.mp he with he | he
      · obtain ⟨n, -, rfl⟩ := List.mem_map.mp (List.mem_reverse.mp he)
        exact ⟨i, hi, hooks, hhooks, rfl⟩
      · exact h.attributes e he

end Brought

variable {c : Compiler} {r r' : Registry} {i : Instruction}

theorem brought_enrolled (h : Brought c.instructions c.dialect r) (hi : i ∈ c.instructions)
    (hr : c.enrolled r i = .ok r') : Brought c.instructions c.dialect r' := by
  rw [Compiler.enrolled] at hr
  cases hns : i.namespaces.forM fun uri => (c.dialect.namespaceId uri).map fun _ => () with
  | error f => simp [hns, bind, Except.bind] at hr
  | ok =>
    rw [hns] at hr
    refine foldlM_induction (fun reg hreg x y hx hy => ?_) h hr
    rw [Compiler.enrolledFor] at hy
    cases hstage : c.stageOfKind reg.stage.name reg.stage with
    | error f => simp [hstage, bind, Except.bind] at hy
    | ok _ =>
      rw [hstage] at hy
      exact hx.register hi hreg hy

/-- What a compiler registers comes from its instructions. -/
theorem brought_of_setup (hr : c.setup = .ok r) : Brought c.instructions c.dialect r := by
  rw [Compiler.setup_eq, Compiler.enrolledAll] at hr
  refine foldlM_induction (fun i hi x y hx hy => ?_) ⟨by simp, by simp⟩ hr
  cases hy' : c.enrolled x i with
  | error f =>
    rw [hy'] at hy
    cases hy
  | ok z =>
    rw [hy'] at hy
    obtain rfl := Except.ok.inj hy
    exact brought_enrolled hx hi hy'

/-! ### The language -/

/-- The instructions and the stages of a compiler for the language. -/
theorem parts_of_withLanguage [Encoding.Decoders] {config : Config}
    (hc : Compiler.withLanguage config = .ok c) :
    c.instructions = [template, definition, conditional, dynamic] ∧
      c.stages = [.standard .manipulation, .standard .processing] := by
  rw [Compiler.withLanguage, Compiler.new] at hc
  split at hc
  · cases hc
  · obtain rfl := Except.ok.inj hc
    exact ⟨rfl, rfl⟩

theorem instruction_of_withLanguage [Encoding.Decoders] {config : Config}
    (hc : Compiler.withLanguage config = .ok c)
    (hi : i ∈ c.instructions) : i = template ∨ i = definition ∨ i = conditional ∨ i = dynamic := by
  rw [(parts_of_withLanguage hc).1] at hi
  simpa using hi

theorem standard_of_withLanguage [Encoding.Decoders] {config : Config}
    (hc : Compiler.withLanguage config = .ok c)
    {stage : StageOf} (hstage : stage ∈ c.stages) : ∃ k, stage = .standard k := by
  have hmem : stage = .standard .manipulation ∨ stage = .standard .processing := by
    simpa [(parts_of_withLanguage hc).2] using hstage
  rcases hmem with rfl | rfl
  · exact ⟨_, rfl⟩
  · exact ⟨_, rfl⟩

/-- The instructions of the language find what they need. -/
theorem exists_setup [Encoding.Decoders] {config : Config}
    (hc : Compiler.withLanguage config = .ok c) :
    ∃ r, c.setup = .ok r := by
  rw [Compiler.setup_eq]
  rw [Compiler.withLanguage, Compiler.new] at hc
  split at hc
  · cases hc
  · obtain rfl := Except.ok.inj hc
    exact ⟨_, rfl⟩

theorem native_of_withLanguage [Encoding.Decoders] {config : Config}
    (hc : Compiler.withLanguage config = .ok c)
    (hi : i ∈ c.instructions) : Native i := by
  obtain rfl | rfl | rfl | rfl := instruction_of_withLanguage hc hi
  · exact native_template
  · exact native_definition
  · exact native_conditional
  · exact native_dynamic

theorem namespaceIdOf_eq {d : Dialect} {id : Nat} (h : d.namespaceId Language.uri = .ok id) :
    Int.ofNat id = namespaceIdOf d := by
  rw [Dialect.namespaceId] at h
  split at h
  · rename_i hid
    obtain rfl := Except.ok.inj h
    rw [namespaceIdOf, hid]
    rfl
  · cases h

/-- **A compiler for the language speaks it.** -/
theorem spoken_of_setup [Encoding.Decoders] {config : Config}
    (hc : Compiler.withLanguage config = .ok c)
    (hr : c.setup = .ok r) : Spoken ⟨c.dialect, r⟩ where
  elements uri name hooks hh := by
    obtain ⟨i, hi, reg, hreg, id, f, hid, rfl, hf, rfl⟩ := (brought_of_setup hr).element? hh
    have hi := native_of_withLanguage hc hi
    rw [hi.uri reg hreg] at hid
    exact ⟨congrArg some (namespaceIdOf_eq hid), hi.elements c.dialect f hf⟩
  attributes uri name hooks hh := by
    obtain ⟨i, hi, f, hf, rfl⟩ := (brought_of_setup hr).attribute? hh
    exact (native_of_withLanguage hc hi).attributes c.dialect f hf

/-! ### Who is called -/

variable {config : Config} {uri : Option Int} {name : Text}

/-- The hooks for the elements of the language, in the stage that changes the tree. -/
def elementTable (d : Dialect) : List (Text × ElementHooks) :=
  [("dynamic", { enter := Work.enqueueChildren }), ("if", { enter := Work.enqueueChildren }),
   ("parent", definitionElement d), ("use", definitionElement d), ("macro", definitionElement d),
   ("load", templateElement d), ("extend", templateElement d), ("template", templateElement d)]

/-- The hooks for the attributes of the language, in the stage that changes the tree. -/
def attributeTable : List (Text × AttributeHooks) :=
  [("use", { enter := useAttribute, leave := fun _ _ => leaveExpansion })]

/-- The hooks for the elements of the language, in the stage that generates code. -/
def printingTable (d : Dialect) : List (Text × ElementHooks) :=
  let shown : ElementHooks :=
    { enter := fun e => do
        Work.setVisible e true
        Work.enqueueChildren e }
  [("dynamic", { enter := fun e => do
      Work.setProperty e Code.Properties.dynamic (.flag true)
      Work.setVisible e true
      Work.enqueueChildren e }),
   ("if", conditionElement d), ("parent", shown), ("use", shown), ("extend", shown),
   ("template", shown)]

/-- Looking for an entry of one stage and one namespace. -/
theorem find?_of_filter {H : Type} {k : StageKind} {id u : Int} {table : List (Text × H)}
    {l : List ((StageKind × Int × Text) × H)}
    (h : (l.filter fun e => e.1.1 = k) = table.map fun e => ((k, id, e.1), e.2)) :
    (l.find? fun e => e.1 = (k, u, name)).map Prod.snd =
      if u = id then table.lookup name else none := by
  have hfind : (l.find? fun e => e.1 = (k, u, name)) =
      (l.filter fun e => e.1.1 = k).find? fun e => e.1 = (k, u, name) := by
    rw [List.find?_filter]
    congr 1
    funext e
    by_cases he : e.1 = (k, u, name) <;> simp [he]
  rw [hfind, h]
  clear h hfind
  induction table with
  | nil => simp
  | cons e table ih =>
    rw [List.map_cons, List.find?_cons, List.lookup_cons]
    by_cases hu : u = id <;> by_cases hn : name = e.1
    · simp [hu, hn]
    · have hbeq : (name == e.1) = false := by simpa using hn
      have hne : ¬ e.1 = name := fun h => hn h.symm
      rw [hbeq]
      simpa [hu, hne] using ih
    · simp [Ne.symm hu, hu]
    · simp [Ne.symm hu, hu]

theorem tables_of_setup [Encoding.Decoders] (hc : Compiler.withLanguage config = .ok c)
    (hr : c.setup = .ok r) :
    (r.elements.filter fun e => e.1.1 = .manipulation) = (elementTable c.dialect).map
        (fun e => ((.manipulation, namespaceIdOf c.dialect, e.1), e.2)) ∧
      (r.attributes.filter fun e => e.1.1 = .manipulation) = attributeTable.map
        fun e => ((.manipulation, namespaceIdOf c.dialect, e.1), e.2) := by
  rw [Compiler.setup_eq] at hr
  rw [Compiler.withLanguage, Compiler.new] at hc
  split at hc
  · cases hc
  · obtain rfl := Except.ok.inj hc
    obtain rfl := Except.ok.inj hr
    exact ⟨rfl, rfl⟩

/-- Who is called for an element. -/
theorem element?_of_setup [Encoding.Decoders] (hc : Compiler.withLanguage config = .ok c)
    (hr : c.setup = .ok r) :
    r.element? .manipulation uri name =
      if uri = some (namespaceIdOf c.dialect) then
        (elementTable c.dialect).lookup name else none := by
  cases uri with
  | none => rfl
  | some u =>
    rw [Registry.element?, Option.bind_some, find?_of_filter (tables_of_setup hc hr).1]
    simp

/-- Who is called for an element while code is generated. -/
theorem printing?_of_setup [Encoding.Decoders] (hc : Compiler.withLanguage config = .ok c)
    (hr : c.setup = .ok r) :
    r.element? .processing uri name =
      if uri = some (namespaceIdOf c.dialect) then (printingTable c.dialect).lookup name
        else none := by
  have htable : (r.elements.filter fun e => e.1.1 = .processing) = (printingTable c.dialect).map
      fun e => ((.processing, namespaceIdOf c.dialect, e.1), e.2) := by
    rw [Compiler.setup_eq] at hr
    rw [Compiler.withLanguage, Compiler.new] at hc
    split at hc
    · cases hc
    · obtain rfl := Except.ok.inj hc
      obtain rfl := Except.ok.inj hr
      rfl
  cases uri with
  | none => rfl
  | some u =>
    rw [Registry.element?, Option.bind_some, find?_of_filter htable]
    simp

/-- Who is called for an attribute. -/
theorem attribute?_of_setup [Encoding.Decoders] (hc : Compiler.withLanguage config = .ok c)
    (hr : c.setup = .ok r) :
    r.attribute? .manipulation uri name =
      if uri = some (namespaceIdOf c.dialect) then attributeTable.lookup name else none := by
  cases uri with
  | none => rfl
  | some u =>
    rw [Registry.attribute?, Option.bind_some, find?_of_filter (tables_of_setup hc hr).2]
    simp

/-- Asking for the hooks of an element. -/
theorem elementHooks?_apply {env : Stage.Environment} {k : StageKind}
    {n : Tree.NodeId} {s : Session} :
    Stage.elementHooks? env k n s =
      (.ok ((s.store.element? n).bind fun e => env.registry.element? k e.uri e.name), s) := by
  rw [Stage.elementHooks?, Action.bind_ok (show Work.store s = _ from rfl)]
  cases s.store.element? n <;> rfl

/-- Asking for the hooks of an attribute. -/
theorem attributeHooks?_apply {env : Stage.Environment} {k : StageKind} {a : Tree.NodeId}
    {s : Session} :
    Stage.attributeHooks? env k a s =
      (.ok ((s.store.attr? a).bind fun d => env.registry.attribute? k d.uri d.name), s) := by
  rw [Stage.attributeHooks?, Action.bind_ok (show Work.store s = _ from rfl)]
  cases s.store.attr? a <;> rfl

/-- The language has nothing to prepare when there are no definitions. -/
theorem prepare_of_withLanguage [Encoding.Decoders] (hc : Compiler.withLanguage config = .ok c)
    {s : Session}
    (hs : s.definitions = {}) : ∀ i ∈ c.instructions, i.prepare s = s := by
  have hforget : forgetDefinitions s = s := by
    cases s
    cases hs
    rfl
  intro i hi
  obtain rfl | rfl | rfl | rfl := instruction_of_withLanguage hc hi
  · rfl
  · exact hforget
  · rfl
  · rfl

/-- What resolves references in the language. -/
def inheritance (d : Dialect) : InheritanceHook where
  check := checkInheritance d
  handle := keepDocument

end Language

namespace Compiler

variable {c : Compiler} {r : Registry} {config : Config} {files : Files} {steps : Nat} {name : Text}

/-- The parts that the language brings. -/
theorem parts_of_withLanguage [Encoding.Decoders] (hc : withLanguage config = .ok c) :
    c.parser = some xmlParser ∧ c.linker = some xmlLinker ∧
      c.inheritance? = some (Language.inheritance c.dialect) := by
  rw [withLanguage, new] at hc
  split at hc
  · cases hc
  · obtain rfl := Except.ok.inj hc
    exact ⟨rfl, rfl, rfl⟩

/-- A build without definitions left over begins with nothing but the registrations. -/
theorem buildIn_eq [Encoding.Decoders] (hc : withLanguage config = .ok c)
    (hr : c.setup = .ok r) {s : Session}
    (hs : s.definitions = {}) :
    c.buildIn files steps name { session := s } =
      (c.buildWith xmlParser xmlLinker r files steps name
        (Session.openUnit { s with trace := .start "build" :: s.trace })).map fun o =>
          let x := c.dispose { session := o.2, registry := r }
          (o.1.mapError fun f => f.inTemplate name,
            { x with session :=
              { x.session with trace := .finish "build" :: x.session.trace } }) := by
  obtain ⟨hparser, hlinker, -⟩ := parts_of_withLanguage hc
  have hrun (s : Session) (hs : s.definitions = {}) :
      c.runBuild xmlParser xmlLinker files steps name { session := s } =
        (c.buildWith xmlParser xmlLinker r files steps name s).map fun o =>
          (o.1, { session := o.2, registry := r }) := by
    rw [runBuild, prepare_eq hr (Language.prepare_of_withLanguage hc hs)]
  rw [buildIn, hparser, hlinker]
  dsimp only
  rw [hrun (Session.openUnit { s with trace := .start "build" :: s.trace }) hs]
  cases c.buildWith xmlParser xmlLinker r files steps name
    (Session.openUnit { s with trace := .start "build" :: s.trace }) <;> rfl

end Compiler

end Stencil
