import Stencil.Compiler.Build
import Stencil.Language.Condition
import Stencil.Language.Definition
import Stencil.Language.Namespace
import Stencil.Language.Template

/-!
# The template language

The language brings everything a compiler needs: a parser and a linker for markup, the two stages,
its namespace, the two expression engines and the instructions. It can be installed only in a
compiler that has neither parser nor linker, and only one language can be selected.

## Main definitions

* `Language.dynamic` – the instruction for dynamic content;
* `Compiler.installLanguage`, `Compiler.selectLanguage` – installing the language;
* `Compiler.withLanguage` – a compiler for the language.
-/

/-! ## Dynamic content

The element `dynamic` marks content whose expressions must be evaluated each time the compiled
template is used, even if the rest of its output is cached. -/

namespace Stencil.Language

/-- The instruction for dynamic content. -/
def dynamic : Instruction where
  label := "*instruction.Dynamic"
  registrations := [on .manipulation .elements ["dynamic"], on .processing .elements ["dynamic"]]
  elements
    | .manipulation => some fun _ => { enter := Work.enqueueChildren }
    | .processing => some fun _ =>
      { enter := fun e => do
          Work.setProperty e Code.Properties.dynamic (.flag true)
          Work.setVisible e true
          Work.enqueueChildren e }

end Stencil.Language

/-! ## The language -/

namespace Stencil

namespace Compiler

variable [Encoding.Decoders]

/-- Installs the language. -/
def installLanguage (c : Compiler) : Except Failure Compiler :=
  if c.parser.isSome || c.linker.isSome then .error (.of .languageSelected)
  else
    let c := (c.addStage (.standard .manipulation)).addStage (.standard .processing)
    let dialect := (c.dialect.addNamespace Language.uri).2
    let dialect := (dialect.addEngine Language.referenceEngine .references).addEngine
      Language.literalEngine .literal
    .ok { c with
      parser := some xmlParser
      linker := some xmlLinker
      dialect := { dialect with languageEngine := Language.referenceEngine }
      instructions := c.instructions ++
        [Language.template, Language.definition, Language.conditional, Language.dynamic] }

/-- Selects the language for a compiler that has none. -/
def selectLanguage (c : Compiler) : Except Failure Compiler :=
  if c.hasLanguage then .error (.of .languageSelected)
  else
    match c.installLanguage with
    | .error f => .error (f.within .language)
    | .ok c => .ok { c with hasLanguage := true }

/-- A compiler for the language. -/
def withLanguage (config : Config) : Except Failure Compiler := do (← new config).selectLanguage

end Compiler

end Stencil
