import Stencil.Language.Namespace

/-!
# Conditions

The element `if` shows its content, and the attribute `if` its element, only if a condition holds
when the compiled template runs. Code for the test goes in front of the element and code for its end
behind it. Code that is already in front of the element is inside the test, because the test is put
in front of it.

## Main definitions

* `Language.conditional` – the instruction.
-/

namespace Stencil.Language

open Stencil.Tree (NodeId)

/-- Puts an element under a condition. -/
def wrapCondition (e : NodeId) (test : Expression.Compiled) : Work Unit :=
  Work.modifyBuffers e fun b =>
    (b.prepend .before ("if(" ++ test.bare ++ ")\x7b")).append .after "\x7d"

/-- The demand for the condition of the element. -/
def testSpec : AttributeSpec :=
  { name := "test", required := true, kind := .expression, engine := referenceEngine }

/-- The element in the stage that generates code. -/
def conditionElement (d : Dialect) : ElementHooks where
  enter e := do
    let attrs ← Work.extract d e [testSpec] none
    wrapCondition e ((attrs.expression? "test").getD ⟨[], [], .value⟩)
    Work.setVisible e true
    Work.enqueueChildren e

/-- The attribute in the stage that generates code. -/
def conditionAttribute (d : Dialect) : AttributeHooks where
  enter e a := do
    let s ← Work.store
    let value := ((s.attr? a).map (·.value)).getD (.literal [])
    let (engine, source) := d.expressionOf referenceEngine value
    if source.isBlank then Work.fail (.emptyCondition (s.label e))
    wrapCondition e (← Work.lift (d.compile source engine))

/-- The instruction for conditions. -/
def conditional : Instruction where
  label := "*instruction.If"
  registrations :=
    [on .manipulation .elements ["if"], on .processing .elements ["if"],
     on .processing .attributes ["if"]]
  elements
    | .manipulation => some fun _ => { enter := Work.enqueueChildren }
    | .processing => some conditionElement
  attributes
    | .manipulation => none
    | .processing => some conditionAttribute

end Stencil.Language
