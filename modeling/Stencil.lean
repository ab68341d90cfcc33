import Stencil.Artifact.Basic
import Stencil.Artifact.Block
import Stencil.Artifact.StringList
import Stencil.Code.Buffers
import Stencil.Code.Link
import Stencil.Code.Table
import Stencil.Command.Basic
import Stencil.Command.Options
import Stencil.Compiler.Attributes
import Stencil.Compiler.Basic
import Stencil.Compiler.Build
import Stencil.Compiler.Dialect
import Stencil.Compiler.Instruction
import Stencil.Compiler.Session
import Stencil.Compiler.Source
import Stencil.Compiler.Stage
import Stencil.Config.Basic
import Stencil.Config.Document
import Stencil.Data.Action
import Stencil.Data.OrderedMap
import Stencil.Data.Stack
import Stencil.Encoding.Base64
import Stencil.Encoding.Basic
import Stencil.Encoding.CodeTable
import Stencil.Encoding.Utf16
import Stencil.Expression.Basic
import Stencil.Expression.Engine
import Stencil.Expression.Token
import Stencil.Failure
import Stencil.Files.Basic
import Stencil.Language.Basic
import Stencil.Language.Condition
import Stencil.Language.Definition
import Stencil.Language.Namespace
import Stencil.Language.Template
import Stencil.Main
import Stencil.Markup.Construct
import Stencil.Markup.Cursor
import Stencil.Markup.Event
import Stencil.Markup.Fault
import Stencil.Markup.Reader
import Stencil.Markup.Scan
import Stencil.Markup.Source
import Stencil.Number.Binary64
import Stencil.Number.Literal
import Stencil.Proofs.Artifact.Comment
import Stencil.Proofs.Artifact.Lists
import Stencil.Proofs.Artifact.Storage
import Stencil.Proofs.Build.Agenda
import Stencil.Proofs.Build.Course
import Stencil.Proofs.Build.Includes
import Stencil.Proofs.Build.Keeping
import Stencil.Proofs.Build.Recursions
import Stencil.Proofs.Build.References
import Stencil.Proofs.Build.Resolving
import Stencil.Proofs.Build.Rest
import Stencil.Proofs.Build.Reuse
import Stencil.Proofs.Build.Rounds
import Stencil.Proofs.Build.Snippet
import Stencil.Proofs.Build.Static
import Stencil.Proofs.Code.Buffers
import Stencil.Proofs.Code.Parts
import Stencil.Proofs.Code.Rendering
import Stencil.Proofs.Code.Static
import Stencil.Proofs.Command.Checking
import Stencil.Proofs.Compiler.Session
import Stencil.Proofs.Data.Action
import Stencil.Proofs.Data.OrderedMap
import Stencil.Proofs.Expression.Delimiters
import Stencil.Proofs.Expression.Engine
import Stencil.Proofs.Expression.Lexemes
import Stencil.Proofs.Files.Artifacts
import Stencil.Proofs.Files.Sources
import Stencil.Proofs.Language.Collecting
import Stencil.Proofs.Language.Content
import Stencil.Proofs.Language.Defaults
import Stencil.Proofs.Language.Definitions
import Stencil.Proofs.Language.Expansion
import Stencil.Proofs.Language.Extraction
import Stencil.Proofs.Language.Filling
import Stencil.Proofs.Language.Guarding
import Stencil.Proofs.Language.Inert
import Stencil.Proofs.Language.Loading
import Stencil.Proofs.Language.Loads
import Stencil.Proofs.Language.Printing
import Stencil.Proofs.Language.Reference
import Stencil.Proofs.Language.Registry
import Stencil.Proofs.Language.Termination
import Stencil.Proofs.Language.Visit
import Stencil.Proofs.Markup.Acceptance
import Stencil.Proofs.Markup.Constructs
import Stencil.Proofs.Markup.Consumption
import Stencil.Proofs.Markup.Counters
import Stencil.Proofs.Markup.Encodings
import Stencil.Proofs.Markup.Grammar
import Stencil.Proofs.Markup.Items
import Stencil.Proofs.Markup.Moves
import Stencil.Proofs.Markup.Plain
import Stencil.Proofs.Markup.Progress
import Stencil.Proofs.Markup.Protocol
import Stencil.Proofs.Markup.Readers
import Stencil.Proofs.Markup.Scanners
import Stencil.Proofs.Markup.Values
import Stencil.Proofs.Markup.Writing
import Stencil.Proofs.Text.Characters
import Stencil.Proofs.Tree.Accepting
import Stencil.Proofs.Tree.Ancestors
import Stencil.Proofs.Tree.Assembling
import Stencil.Proofs.Tree.Attributes
import Stencil.Proofs.Tree.Braces
import Stencil.Proofs.Tree.Cloning
import Stencil.Proofs.Tree.Consistency
import Stencil.Proofs.Tree.Content
import Stencil.Proofs.Tree.Dumps
import Stencil.Proofs.Tree.Engines
import Stencil.Proofs.Tree.Environments
import Stencil.Proofs.Tree.Folding
import Stencil.Proofs.Tree.Growth
import Stencil.Proofs.Tree.Lines
import Stencil.Proofs.Tree.Links
import Stencil.Proofs.Tree.Lists
import Stencil.Proofs.Tree.Namespaces
import Stencil.Proofs.Tree.Owners
import Stencil.Proofs.Tree.Portrait
import Stencil.Proofs.Tree.Refusals
import Stencil.Proofs.Tree.Regions
import Stencil.Proofs.Tree.Repetition
import Stencil.Proofs.Tree.Rereading
import Stencil.Proofs.Tree.Roots
import Stencil.Proofs.Tree.Search
import Stencil.Proofs.Tree.Sprouts
import Stencil.Proofs.Tree.Static
import Stencil.Proofs.Tree.Steps
import Stencil.Proofs.Tree.Traversal
import Stencil.Proofs.Tree.WellFormed
import Stencil.Streams
import Stencil.Text.Basic
import Stencil.Text.Escape
import Stencil.Text.Letters
import Stencil.Text.Space
import Stencil.Text.Utf8
import Stencil.Tree.Assembly
import Stencil.Tree.Attributes
import Stencil.Tree.Characters
import Stencil.Tree.Children
import Stencil.Tree.Dump
import Stencil.Tree.Error
import Stencil.Tree.Extras
import Stencil.Tree.Node
import Stencil.Tree.Subtree
import Stencil.Tree.Walk
import Stencil.Yaml.Mark
import Stencil.Yaml.Node
import Stencil.Yaml.Scalar
import Stencil.Yaml.Scan
import Stencil.Yaml.Source
import Stencil.Yaml.Token
import Stencil.Yaml.Value
