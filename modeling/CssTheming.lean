import CssTheming.CommandLine.Arguments
import CssTheming.CommandLine.Config
import CssTheming.CommandLine.Console
import CssTheming.CommandLine.Run
import CssTheming.Compile.Argument
import CssTheming.Compile.Basic
import CssTheming.Compile.Component
import CssTheming.Compile.Context
import CssTheming.Compile.File
import CssTheming.Compile.Reference
import CssTheming.ContextClass
import CssTheming.CustomProperty
import CssTheming.Decimal.Layout
import CssTheming.Decimal.Read
import CssTheming.Decimal.Shortest
import CssTheming.Document.Basic
import CssTheming.Error
import CssTheming.Fallback
import CssTheming.Identifier
import CssTheming.Json.Basic
import CssTheming.Json.Decode
import CssTheming.Json.Document
import CssTheming.Json.Numeral
import CssTheming.Json.Parser
import CssTheming.Json.Printer
import CssTheming.Json.Schema
import CssTheming.Json.Theme
import CssTheming.Json.Usage
import CssTheming.Key
import CssTheming.Main
import CssTheming.Options
import CssTheming.Path
import CssTheming.Program
import CssTheming.Proofs.Compile.Acceptance
import CssTheming.Proofs.Compile.Argument
import CssTheming.Proofs.Compile.Basic
import CssTheming.Proofs.Compile.Colon
import CssTheming.Proofs.Compile.Component
import CssTheming.Proofs.Compile.Context
import CssTheming.Proofs.Compile.Expansion
import CssTheming.Proofs.Compile.InPlace
import CssTheming.Proofs.Compile.Keys
import CssTheming.Proofs.Compile.Misplaced
import CssTheming.Proofs.Compile.Prepared
import CssTheming.Proofs.Compile.Reference
import CssTheming.Proofs.Compile.Scope
import CssTheming.Proofs.Compile.Settled
import CssTheming.Proofs.ContextClass
import CssTheming.Proofs.CustomProperty
import CssTheming.Proofs.Fallback.Collected
import CssTheming.Proofs.Fallback.Contents
import CssTheming.Proofs.Fallback.Faults
import CssTheming.Proofs.Fallback.Nesting
import CssTheming.Proofs.Fallback.Order
import CssTheming.Proofs.Fallback.Rules
import CssTheming.Proofs.Identifier
import CssTheming.Proofs.Progress
import CssTheming.Proofs.Resolver.Agreement
import CssTheming.Proofs.Resolver.Attachment
import CssTheming.Proofs.Resolver.Cascade
import CssTheming.Proofs.Resolver.ClassNames
import CssTheming.Proofs.Resolver.Consistent
import CssTheming.Proofs.Resolver.Declarations
import CssTheming.Proofs.Resolver.Declared
import CssTheming.Proofs.Resolver.Emptied
import CssTheming.Proofs.Resolver.Forgetting
import CssTheming.Proofs.Resolver.History
import CssTheming.Proofs.Resolver.Host
import CssTheming.Proofs.Resolver.Notified
import CssTheming.Proofs.Resolver.Overlay
import CssTheming.Proofs.Resolver.Run
import CssTheming.Proofs.Resolver.Shared
import CssTheming.Proofs.Resolver.Skipping
import CssTheming.Proofs.Resolver.Unchanged
import CssTheming.Proofs.Schema
import CssTheming.Proofs.Sheet.Authored
import CssTheming.Proofs.Sheet.Changes
import CssTheming.Proofs.Sheet.Closed
import CssTheming.Proofs.Sheet.Ends
import CssTheming.Proofs.Sheet.Formed
import CssTheming.Proofs.Sheet.Links
import CssTheming.Proofs.Sheet.Locations
import CssTheming.Proofs.Sheet.Lookahead
import CssTheming.Proofs.Sheet.Names
import CssTheming.Proofs.Sheet.Parsed
import CssTheming.Proofs.Sheet.Placement
import CssTheming.Proofs.Sheet.Printing
import CssTheming.Proofs.Sheet.Reading
import CssTheming.Proofs.Sheet.Rejoining
import CssTheming.Proofs.Sheet.Removal
import CssTheming.Proofs.Sheet.Scan.Block
import CssTheming.Proofs.Sheet.Scan.Lexical
import CssTheming.Proofs.Sheet.SelectorList
import CssTheming.Proofs.Sheet.SelectorText
import CssTheming.Proofs.Sheet.Stability
import CssTheming.Proofs.Sheet.Tree
import CssTheming.Proofs.Sheet.Walks
import CssTheming.Proofs.Success
import CssTheming.Proofs.Table
import CssTheming.Proofs.Text.Lexeme
import CssTheming.Proofs.Text.Scan
import CssTheming.Proofs.Text.Whitespace
import CssTheming.Proofs.Theme.Accepted
import CssTheming.Proofs.Theme.ContextKeys
import CssTheming.Proofs.Theme.Flatten
import CssTheming.Proofs.Theme.Interpolation
import CssTheming.Proofs.Theme.Locality
import CssTheming.Proofs.Theme.Merging
import CssTheming.Proofs.Theme.Slots
import CssTheming.Proofs.Theme.Stylesheet
import CssTheming.Proofs.Theme.Walk
import CssTheming.Proofs.Value.Calls
import CssTheming.Proofs.Value.Entering
import CssTheming.Proofs.Value.Frame
import CssTheming.Proofs.Value.Frayed
import CssTheming.Proofs.Value.Lexing
import CssTheming.Proofs.Value.Padding
import CssTheming.Proofs.Value.Parsed
import CssTheming.Proofs.Value.Places
import CssTheming.Proofs.Value.Quiet
import CssTheming.Proofs.Value.Reading
import CssTheming.Proofs.Value.Replacement
import CssTheming.Proofs.Value.Scan
import CssTheming.Proofs.Value.SoleArgument
import CssTheming.Proofs.Value.Token
import CssTheming.Proofs.Value.Unclosed
import CssTheming.Proofs.Value.Walk
import CssTheming.Resolver.Basic
import CssTheming.Resolver.Host
import CssTheming.Resolver.Listeners
import CssTheming.Resolver.Properties
import CssTheming.Schema
import CssTheming.Sheet.Basic
import CssTheming.Sheet.Kind
import CssTheming.Sheet.Lexical
import CssTheming.Sheet.Parser
import CssTheming.Sheet.Selectors
import CssTheming.Sheet.Statement
import CssTheming.Storage.Basic
import CssTheming.Storage.FileSystem
import CssTheming.Storage.Outline
import CssTheming.Table
import CssTheming.Text.Hex
import CssTheming.Text.Lexeme
import CssTheming.Text.Part
import CssTheming.Text.Position
import CssTheming.Text.Whitespace
import CssTheming.Theme.Basic
import CssTheming.Theme.Flatten
import CssTheming.Theme.Interpolation
import CssTheming.Theme.Load
import CssTheming.Theme.Merge
import CssTheming.Theme.Source
import CssTheming.Theme.Stylesheet
import CssTheming.Toml.Basic
import CssTheming.Toml.Parser
import CssTheming.Toml.Scalar
import CssTheming.Usage
import CssTheming.Value.Node
import CssTheming.Value.Parser
import CssTheming.Value.Walk
import CssTheming.Yaml.Block
import CssTheming.Yaml.Cursor
import CssTheming.Yaml.Document
import CssTheming.Yaml.Event
import CssTheming.Yaml.Gap
import CssTheming.Yaml.Name
import CssTheming.Yaml.Plain
import CssTheming.Yaml.Quoted
import CssTheming.Yaml.Resolution
import CssTheming.Yaml.Token
import CssTheming.Yaml.Tokens
