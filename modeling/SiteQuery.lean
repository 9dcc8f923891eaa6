import SiteQuery.Artifact
import SiteQuery.Artifact.Extraction
import SiteQuery.Artifact.Writer
import SiteQuery.CommandLine.Arguments
import SiteQuery.CommandLine.Help
import SiteQuery.CommandLine.Places
import SiteQuery.CommandLine.Problem
import SiteQuery.CommandLine.Run
import SiteQuery.Compilation.Documents
import SiteQuery.Compilation.Project
import SiteQuery.Compilation.SchemaCache
import SiteQuery.Config
import SiteQuery.Config.Loading
import SiteQuery.Decimal.Binary64
import SiteQuery.Files.Basic
import SiteQuery.Files.Snapshot
import SiteQuery.Files.System
import SiteQuery.Glob
import SiteQuery.Grammar.Basic
import SiteQuery.Grammar.Run
import SiteQuery.Graphql.Context
import SiteQuery.Graphql.Document
import SiteQuery.Graphql.Document.Reader
import SiteQuery.Graphql.Grammar
import SiteQuery.Graphql.IndexedContext
import SiteQuery.Graphql.Node.Basic
import SiteQuery.Graphql.Node.OfDocument
import SiteQuery.Graphql.Node.Text
import SiteQuery.Graphql.ReadError
import SiteQuery.Graphql.Schema.Basic
import SiteQuery.Graphql.Schema.Definition
import SiteQuery.Graphql.Selection.Basic
import SiteQuery.Graphql.Selection.Normal
import SiteQuery.Graphql.TypeReference
import SiteQuery.Graphql.Validation.Basic
import SiteQuery.Graphql.Validation.Literal
import SiteQuery.Graphql.Validation.Walk
import SiteQuery.Graphql.Value
import SiteQuery.Graphql.Violation
import SiteQuery.Json.Basic
import SiteQuery.Json.Reader
import SiteQuery.Main
import SiteQuery.Path
import SiteQuery.Proofs.Compilation.CompiledQueries
import SiteQuery.Proofs.Compilation.Documents
import SiteQuery.Proofs.Compilation.SchemaCache
import SiteQuery.Proofs.Compilation.Places
import SiteQuery.Proofs.Compilation.VariablePositions
import SiteQuery.Proofs.Grammar.Matching
import SiteQuery.Proofs.Grammar.Spacing
import SiteQuery.Proofs.Grammar.Trees
import SiteQuery.Proofs.Graphql.Built
import SiteQuery.Proofs.Graphql.Clauses
import SiteQuery.Proofs.Graphql.Collected
import SiteQuery.Proofs.Graphql.Conversion
import SiteQuery.Proofs.Graphql.Definitions
import SiteQuery.Proofs.Graphql.Flattening
import SiteQuery.Proofs.Graphql.Grammatical
import SiteQuery.Proofs.Graphql.Merging
import SiteQuery.Proofs.Graphql.Nodes
import SiteQuery.Proofs.Graphql.Normalization
import SiteQuery.Proofs.Graphql.Parsed
import SiteQuery.Proofs.Graphql.Printing
import SiteQuery.Proofs.Graphql.Reachable
import SiteQuery.Proofs.Graphql.ReadBack
import SiteQuery.Proofs.Graphql.Requests
import SiteQuery.Proofs.Graphql.Sameness
import SiteQuery.Proofs.Path
import SiteQuery.Proofs.Watch.Components
import SiteQuery.Proofs.Watch.Consistency
import SiteQuery.Proofs.Watch.LiveProject
import SiteQuery.Script.Grammar
import SiteQuery.Script.Lexical
import SiteQuery.Script.Module
import SiteQuery.Script.Replacement
import SiteQuery.Script.Rule
import SiteQuery.Script.Tag
import SiteQuery.Sorting
import SiteQuery.Sources.Filter
import SiteQuery.Sources.Scan
import SiteQuery.Text.Blank
import SiteQuery.Text.Escaped
import SiteQuery.Text.Identifier
import SiteQuery.Text.Position
import SiteQuery.Text.Quoted
import SiteQuery.Text.Utf8
import SiteQuery.Text.Visible
import SiteQuery.Watch.Host
import SiteQuery.Watch.Loop
import SiteQuery.Watch.Reaction
import SiteQuery.Watch.Store
import SiteQuery.Watch.Timer
import SiteQuery.Proofs.Compilation.Completeness
import SiteQuery.Proofs.Graphql.BuiltSchema
import SiteQuery.Proofs.Graphql.VariableUses
import SiteQuery.Proofs.Graphql.Acceptance
import SiteQuery.Proofs.Watch.Updates
import SiteQuery.Proofs.Watch.Reruns
import SiteQuery.Proofs.Watch.Bootstrap
import SiteQuery.Proofs.Watch.FirstPasses
import SiteQuery.Proofs.Files.Following
import SiteQuery.Proofs.Files.Spelling
import SiteQuery.Proofs.Files.Writing
import SiteQuery.Proofs.Artifact.Writing
import SiteQuery.Proofs.Compilation.Sources
import SiteQuery.Proofs.Artifact.Extraction
import SiteQuery.Proofs.Artifact.PageQuery
import SiteQuery.Proofs.Artifact.Exactness
import SiteQuery.Proofs.Compilation.FileOrder
import SiteQuery.Proofs.Compilation.Independence
import SiteQuery.Proofs.Compilation.FixedPoint
import SiteQuery.Proofs.Watch.SourceChange
import SiteQuery.Proofs.Watch.Coverage
import SiteQuery.Proofs.Graphql.References
import SiteQuery.Proofs.Graphql.NormalForm
import SiteQuery.Proofs.Graphql.Assignment
import SiteQuery.Proofs.Graphql.DefinitionOrder
import SiteQuery.Proofs.Compilation.SchemaLoads
import SiteQuery.Proofs.Sources.Walk
import SiteQuery.Proofs.Sources.Agreement
import SiteQuery.Proofs.Sources.Listing
import SiteQuery.Proofs.Script.SourceOrder
import SiteQuery.Proofs.Script.Replacement
import SiteQuery.Proofs.Compilation.TextFilter
import SiteQuery.Proofs.Graphql.ParsedValues
import SiteQuery.Proofs.Graphql.SpreadGraph
import SiteQuery.Proofs.Watch.Debounce
import SiteQuery.Proofs.Watch.Broadcast
import SiteQuery.Proofs.Graphql.Listing
import SiteQuery.Proofs.Graphql.Indexing
import SiteQuery.Proofs.Script.Ancestors
