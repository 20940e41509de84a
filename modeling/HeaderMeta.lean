import HeaderMeta.Artifact
import HeaderMeta.Artifact.Generate
import HeaderMeta.Artifact.Prototype
import HeaderMeta.Artifact.Reflector
import HeaderMeta.Artifact.Stem
import HeaderMeta.Code.Writer
import HeaderMeta.CommandLine
import HeaderMeta.Config
import HeaderMeta.Config.Document
import HeaderMeta.Config.Document.Scalar
import HeaderMeta.Config.Document.Tree
import HeaderMeta.Config.File
import HeaderMeta.Config.Setting
import HeaderMeta.Declaration
import HeaderMeta.Declaration.Index
import HeaderMeta.Declaration.Namespace
import HeaderMeta.Diagnostic
import HeaderMeta.Diagnostic.Snippet
import HeaderMeta.Glob
import HeaderMeta.Guard
import HeaderMeta.Header.AttributeList
import HeaderMeta.Header.Bases
import HeaderMeta.Header.Cursor
import HeaderMeta.Header.Declarator
import HeaderMeta.Header.Members
import HeaderMeta.Header.Record
import HeaderMeta.Header.Scope
import HeaderMeta.Header.SmallDecl
import HeaderMeta.Header.Tokens
import HeaderMeta.HeaderTree
import HeaderMeta.Log.Calendar
import HeaderMeta.Log.Event
import HeaderMeta.Log.File
import HeaderMeta.Log.Level
import HeaderMeta.Main
import HeaderMeta.Pass
import HeaderMeta.Path
import HeaderMeta.Pattern
import HeaderMeta.Proofs.Emission
import HeaderMeta.Proofs.Grammar
import HeaderMeta.Proofs.Grammar.Fields
import HeaderMeta.Proofs.Grammar.Forest
import HeaderMeta.Proofs.Grammar.Lexing
import HeaderMeta.Proofs.Grammar.Parts
import HeaderMeta.Proofs.Grammar.Records
import HeaderMeta.Proofs.Linking
import HeaderMeta.Proofs.Merge
import HeaderMeta.Proofs.Naming
import HeaderMeta.Proofs.Naming.Words
import HeaderMeta.Proofs.NestedCycle
import HeaderMeta.Proofs.Output
import HeaderMeta.Proofs.Output.Clearing
import HeaderMeta.Proofs.Output.Edits
import HeaderMeta.Proofs.Output.Files
import HeaderMeta.Proofs.Output.Finishing
import HeaderMeta.Proofs.Output.Overrides
import HeaderMeta.Proofs.Output.Paths
import HeaderMeta.Proofs.Output.Places
import HeaderMeta.Proofs.Output.Settled
import HeaderMeta.Proofs.Output.Writing
import HeaderMeta.Proofs.Progress
import HeaderMeta.Proofs.Progress.Members
import HeaderMeta.Proofs.Progress.Records
import HeaderMeta.Proofs.Progress.Tokens
import HeaderMeta.Reflection.Annotated
import HeaderMeta.Reflection.Cycle
import HeaderMeta.Reflection.Member
import HeaderMeta.Reflection.Resolve
import HeaderMeta.Reflection.Verdict
import HeaderMeta.Report
import HeaderMeta.Report.Json
import HeaderMeta.Report.Styled
import HeaderMeta.Scan
import HeaderMeta.SourceModule
import HeaderMeta.Symbol
import HeaderMeta.Text.Affix
import HeaderMeta.Text.Blank
import HeaderMeta.Text.CaseFold
import HeaderMeta.Text.Comments
import HeaderMeta.Text.Width
import HeaderMeta.Text.Word
import HeaderMeta.Token
import HeaderMeta.Token.Lexeme
import HeaderMeta.Token.Scan
import HeaderMeta.Tool
import HeaderMeta.Umbrella
import HeaderMeta.Volume
import HeaderMeta.Volume.Changes
import HeaderMeta.Volume.Edit
import HeaderMeta.Proofs.Including
import HeaderMeta.Proofs.Comments
import HeaderMeta.Proofs.Seating
import HeaderMeta.Proofs.Bodies
import HeaderMeta.Proofs.FileNames
import HeaderMeta.Proofs.Batch
import HeaderMeta.Proofs.Footprint
import HeaderMeta.Proofs.Origin
import HeaderMeta.Proofs.Tally
import HeaderMeta.Proofs.Coverage
import HeaderMeta.Proofs.Aliases
import HeaderMeta.Proofs.Resolution
import HeaderMeta.Proofs.Resolution.Reading
import HeaderMeta.Proofs.Promotion
import HeaderMeta.Proofs.Traversal
import HeaderMeta.Proofs.Initializers
import HeaderMeta.Proofs.Positions.Tokens
import HeaderMeta.Proofs.Positions.Declarators
import HeaderMeta.Proofs.Positions.Walk
import HeaderMeta.Proofs.Positions.Attributes
import HeaderMeta.Proofs.Positions.Records
import HeaderMeta.Proofs.Positions.Members
import HeaderMeta.Proofs.Positions
import HeaderMeta.Proofs.Nesting
import HeaderMeta.Proofs.NormalForms
import HeaderMeta.Proofs.Functions
import HeaderMeta.Proofs.Decorators
import HeaderMeta.Proofs.Relexing
import HeaderMeta.Proofs.Relexing.Splicing
import HeaderMeta.Proofs.Spelling
import HeaderMeta.Proofs.Attribution
import HeaderMeta.Proofs.Attribution.Written
import HeaderMeta.Proofs.Attribution.Emitted
import HeaderMeta.Proofs.Resolution.Arguments
import HeaderMeta.Proofs.Bases
import HeaderMeta.Proofs.Scanning.Lookup
import HeaderMeta.Proofs.Scanning.Complete
import HeaderMeta.Proofs.Relative
import HeaderMeta.Proofs.Globs
import HeaderMeta.Proofs.LineTable
import HeaderMeta.Proofs.Attribution.Variables
import HeaderMeta.Proofs.Comments.Lines
import HeaderMeta.Proofs.Nesting.Scopes
import HeaderMeta.Proofs.Output.Again
import HeaderMeta.Proofs.Regeneration
import HeaderMeta.Proofs.Settling
import HeaderMeta.Proofs.Annotations
