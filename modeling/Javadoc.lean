import Javadoc.CommandLine.Command
import Javadoc.CommandLine.Outcome
import Javadoc.Comment.Markup
import Javadoc.Declaration.Basic
import Javadoc.Declaration.Lookup
import Javadoc.Declaration.Role
import Javadoc.Edit
import Javadoc.Error
import Javadoc.Files.Configuration
import Javadoc.Files.Ignore
import Javadoc.Files.Listing
import Javadoc.Files.Path
import Javadoc.Files.Tree
import Javadoc.Java.Forest
import Javadoc.Java.Lexeme
import Javadoc.Java.Member
import Javadoc.Java.Outline
import Javadoc.Java.Piece
import Javadoc.Java.Token
import Javadoc.Main
import Javadoc.OrderedMap
import Javadoc.Pass
import Javadoc.Plan
import Javadoc.Proofs.Agreement
import Javadoc.Proofs.Batch
import Javadoc.Proofs.Comment.Layout
import Javadoc.Proofs.Files.Ignore
import Javadoc.Proofs.Files.Listing
import Javadoc.Proofs.Files.Place
import Javadoc.Proofs.Files.Writing
import Javadoc.Proofs.Independence
import Javadoc.Proofs.Java.Alone
import Javadoc.Proofs.Java.Brackets
import Javadoc.Proofs.Java.Breaks
import Javadoc.Proofs.Java.Contents
import Javadoc.Proofs.Java.Heads
import Javadoc.Proofs.Java.Insertion
import Javadoc.Proofs.Java.Marks
import Javadoc.Proofs.Java.Names
import Javadoc.Proofs.Java.Nodes
import Javadoc.Proofs.Java.Offsets
import Javadoc.Proofs.Java.Outlines
import Javadoc.Proofs.Java.Positions
import Javadoc.Proofs.Java.Reading
import Javadoc.Proofs.Java.Returns
import Javadoc.Proofs.Java.Swaps
import Javadoc.Proofs.Java.Tokens
import Javadoc.Proofs.Java.Tree
import Javadoc.Proofs.OrderedMap
import Javadoc.Proofs.Pass
import Javadoc.Proofs.Plan.Completion
import Javadoc.Proofs.Plan.Idempotence
import Javadoc.Proofs.Plan.Layout
import Javadoc.Proofs.Plan.LineBreaks
import Javadoc.Proofs.Plan.Sites
import Javadoc.Proofs.Splice
import Javadoc.Proofs.Sync.Application
import Javadoc.Proofs.Sync.Convergence
import Javadoc.Proofs.Sync.Decoding
import Javadoc.Proofs.Sync.Descriptions
import Javadoc.Proofs.Sync.Encoding
import Javadoc.Proofs.Sync.Entries
import Javadoc.Proofs.Sync.Exactness
import Javadoc.Proofs.Sync.Generated
import Javadoc.Proofs.Sync.Lifecycle
import Javadoc.Proofs.Sync.Owners
import Javadoc.Proofs.Sync.Pairing
import Javadoc.Proofs.Sync.Registry
import Javadoc.Proofs.Sync.Relaid
import Javadoc.Proofs.Sync.Renewal
import Javadoc.Proofs.Sync.Rereading
import Javadoc.Proofs.Sync.Segments
import Javadoc.Proofs.Sync.Shelter
import Javadoc.Proofs.Sync.Simultaneous
import Javadoc.Proofs.Sync.Steady
import Javadoc.Proofs.Sync.Stretches
import Javadoc.Proofs.Sync.Tiling
import Javadoc.Proofs.Sync.Untouched
import Javadoc.Proofs.Template.Arrangement
import Javadoc.Proofs.Template.Assignments
import Javadoc.Proofs.Template.Braces
import Javadoc.Proofs.Template.Closed
import Javadoc.Proofs.Template.ConfigText
import Javadoc.Proofs.Template.Directives
import Javadoc.Proofs.Template.Enclosure
import Javadoc.Proofs.Template.Ends
import Javadoc.Proofs.Template.Leftover
import Javadoc.Proofs.Template.LineBreaks
import Javadoc.Proofs.Template.Linewise
import Javadoc.Proofs.Template.Markers
import Javadoc.Proofs.Template.Names
import Javadoc.Proofs.Template.ParamLines
import Javadoc.Proofs.Template.ParameterWords
import Javadoc.Proofs.Template.Places
import Javadoc.Proofs.Template.Reload
import Javadoc.Proofs.Template.Removal
import Javadoc.Proofs.Template.Returns
import Javadoc.Proofs.Template.Store
import Javadoc.Proofs.Template.Types
import Javadoc.Proofs.Template.Untagged
import Javadoc.Proofs.Template.Values
import Javadoc.Proofs.Text.Line
import Javadoc.Proofs.Text.LineBreaks
import Javadoc.Proofs.Text.Pattern
import Javadoc.Proofs.Text.Pieces
import Javadoc.Proofs.Text.Seam
import Javadoc.Proofs.Text.Trim
import Javadoc.Proofs.Toml.Outline
import Javadoc.Proofs.Toml.Quoted
import Javadoc.Proofs.Toml.Statements
import Javadoc.Proofs.ToolServer.Interleaving
import Javadoc.Proofs.ToolServer.Phases
import Javadoc.Proofs.ToolServer.Serialization
import Javadoc.Proofs.TypeExpr.Links
import Javadoc.Proofs.TypeExpr.Primitive
import Javadoc.Proofs.TypeExpr.Spelling
import Javadoc.Proofs.Watcher
import Javadoc.Sync.Entry
import Javadoc.Sync.Registry
import Javadoc.Sync.Snapshot
import Javadoc.Sync.Synchronizer
import Javadoc.Template.Assignment
import Javadoc.Template.Config
import Javadoc.Template.ConfigText
import Javadoc.Template.Directive
import Javadoc.Template.Resolve
import Javadoc.Template.Store
import Javadoc.Template.Tag
import Javadoc.Text.Basic
import Javadoc.Text.Case
import Javadoc.Text.Offset
import Javadoc.Text.Search
import Javadoc.Text.Word
import Javadoc.Toml.Node
import Javadoc.Toml.Quoted
import Javadoc.Toml.Scalar
import Javadoc.Toml.Statement
import Javadoc.ToolServer
import Javadoc.TypeExpr
import Javadoc.Watcher
