import DataModel.CommandLine.Arguments
import DataModel.CommandLine.Run
import DataModel.Configuration
import DataModel.Console
import DataModel.Debounce
import DataModel.FileTree
import DataModel.FileTree.Edit
import DataModel.Grammar.File
import DataModel.Grammar.Property
import DataModel.Grammar.Section
import DataModel.Log
import DataModel.Main
import DataModel.Model.Diagnostic
import DataModel.Model.Entity
import DataModel.Model.Graph
import DataModel.Model.Property
import DataModel.Model.Reference
import DataModel.Model.Version
import DataModel.Path
import DataModel.Path.Fault
import DataModel.Proofs.CommandLine.Checking
import DataModel.Proofs.CommandLine.Reporting
import DataModel.Proofs.Configuration
import DataModel.Proofs.FileTree.Clearing
import DataModel.Proofs.FileTree.Editing
import DataModel.Proofs.FileTree.Faults
import DataModel.Proofs.FileTree.Lexical
import DataModel.Proofs.FileTree.Resolving
import DataModel.Proofs.FileTree.Spelling
import DataModel.Proofs.FileTree.Standing
import DataModel.Proofs.FileTree.Walking
import DataModel.Proofs.Grammar.Commuting
import DataModel.Proofs.Grammar.Describing
import DataModel.Proofs.Grammar.Documents
import DataModel.Proofs.Grammar.Entries
import DataModel.Proofs.Grammar.KeyOrder
import DataModel.Proofs.Grammar.Loading
import DataModel.Proofs.Grammar.Refusing
import DataModel.Proofs.Grammar.Taking
import DataModel.Proofs.Graph.Affected
import DataModel.Proofs.Graph.InputOrder
import DataModel.Proofs.Graph.Sorting
import DataModel.Proofs.Model.Bound
import DataModel.Proofs.Model.Complete
import DataModel.Proofs.Model.Evolution
import DataModel.Proofs.Model.Keys
import DataModel.Proofs.Model.Likeness
import DataModel.Proofs.Model.Linked
import DataModel.Proofs.Model.Names
import DataModel.Proofs.Model.Reach
import DataModel.Proofs.Model.Rearranging
import DataModel.Proofs.Model.Relinking
import DataModel.Proofs.Model.Renaming
import DataModel.Proofs.Model.Version
import DataModel.Proofs.Model.Wording
import DataModel.Proofs.Resolution.Agreement
import DataModel.Proofs.Resolution.Answers
import DataModel.Proofs.Resolution.Binding
import DataModel.Proofs.Resolution.BoundFile
import DataModel.Proofs.Resolution.Checks
import DataModel.Proofs.Resolution.Codes
import DataModel.Proofs.Resolution.Collapsing
import DataModel.Proofs.Resolution.Completion
import DataModel.Proofs.Resolution.Duplicates
import DataModel.Proofs.Resolution.Effect
import DataModel.Proofs.Resolution.Expanding
import DataModel.Proofs.Resolution.Expansion
import DataModel.Proofs.Resolution.Knowing
import DataModel.Proofs.Resolution.Layering
import DataModel.Proofs.Resolution.Leaving
import DataModel.Proofs.Resolution.LookingUp
import DataModel.Proofs.Resolution.Looping
import DataModel.Proofs.Resolution.Meaning
import DataModel.Proofs.Resolution.MirroredBinding
import DataModel.Proofs.Resolution.MirroredChecks
import DataModel.Proofs.Resolution.MirroredExpansion
import DataModel.Proofs.Resolution.Mirroring
import DataModel.Proofs.Resolution.Naming
import DataModel.Proofs.Resolution.Noting
import DataModel.Proofs.Resolution.Offering
import DataModel.Proofs.Resolution.Placeholders
import DataModel.Proofs.Resolution.Quoting
import DataModel.Proofs.Resolution.Recopying
import DataModel.Proofs.Resolution.Reexporting
import DataModel.Proofs.Resolution.Repeating
import DataModel.Proofs.Resolution.Resolve
import DataModel.Proofs.Resolution.Running
import DataModel.Proofs.Resolution.Sections
import DataModel.Proofs.Resolution.Selecting
import DataModel.Proofs.Resolution.Sharing
import DataModel.Proofs.Resolution.Sparing
import DataModel.Proofs.Resolution.Splicing
import DataModel.Proofs.Resolution.Spreading
import DataModel.Proofs.Resolution.Stages
import DataModel.Proofs.Resolution.Taking
import DataModel.Proofs.Resolution.Targets
import DataModel.Proofs.Resolution.Turns
import DataModel.Proofs.Resolution.UsesOrder
import DataModel.Proofs.Source.Collecting
import DataModel.Proofs.Source.Consuming
import DataModel.Proofs.Source.Decoding
import DataModel.Proofs.Source.Giving
import DataModel.Proofs.Source.Grouping
import DataModel.Proofs.Source.Nesting
import DataModel.Proofs.Source.Reading
import DataModel.Proofs.Store.Applying
import DataModel.Proofs.Store.Arrival
import DataModel.Proofs.Store.Atomic
import DataModel.Proofs.Store.Attempts
import DataModel.Proofs.Store.Batch
import DataModel.Proofs.Store.Committing
import DataModel.Proofs.Store.Determined
import DataModel.Proofs.Store.Gathering
import DataModel.Proofs.Store.Growing
import DataModel.Proofs.Store.History
import DataModel.Proofs.Store.Isolation
import DataModel.Proofs.Store.Keys
import DataModel.Proofs.Store.Labels
import DataModel.Proofs.Store.Lasting
import DataModel.Proofs.Store.Links
import DataModel.Proofs.Store.Ordering
import DataModel.Proofs.Store.Rebuild
import DataModel.Proofs.Store.Refusing
import DataModel.Proofs.Store.Remembering
import DataModel.Proofs.Store.Resolving
import DataModel.Proofs.Store.Separating
import DataModel.Proofs.Store.Settled
import DataModel.Proofs.Store.Settling
import DataModel.Proofs.Store.Silencing
import DataModel.Proofs.Store.Sound
import DataModel.Proofs.Store.Sources
import DataModel.Proofs.Store.Steady
import DataModel.Proofs.Store.Telling
import DataModel.Proofs.Store.View
import DataModel.Proofs.Store.Visible
import DataModel.Proofs.Table
import DataModel.Proofs.Text.Coding
import DataModel.Proofs.Text.Decoding
import DataModel.Proofs.Watch.Debouncing
import DataModel.Proofs.Watch.Delivery
import DataModel.Proofs.Watch.Polling
import DataModel.Proofs.Watch.Scanning
import DataModel.Proofs.Watch.Schedule
import DataModel.Proofs.Watch.Superseding
import DataModel.Proofs.Yaml.Building
import DataModel.Proofs.Yaml.Composing
import DataModel.Proofs.Yaml.Course
import DataModel.Proofs.Yaml.Lexing
import DataModel.Proofs.Yaml.Parsing
import DataModel.Proofs.Yaml.Scanning
import DataModel.Resolution.Binding
import DataModel.Resolution.Checks
import DataModel.Resolution.Expansion
import DataModel.Resolution.Resolve
import DataModel.Resolution.Scope
import DataModel.Settings
import DataModel.Source.Encoding
import DataModel.Source.Event
import DataModel.Source.Reader
import DataModel.Store.Basic
import DataModel.Store.Batch
import DataModel.Store.Load
import DataModel.Store.Session
import DataModel.Store.Update
import DataModel.Store.View
import DataModel.Table
import DataModel.Text.Base64
import DataModel.Text.Case
import DataModel.Text.Casing
import DataModel.Text.Character
import DataModel.Text.Integer
import DataModel.Text.Number
import DataModel.Text.Pattern
import DataModel.Text.Position
import DataModel.Text.Quoted
import DataModel.Text.Quotient
import DataModel.Text.Surrogate
import DataModel.Text.Template
import DataModel.Text.Utf8
import DataModel.Time
import DataModel.Watch.FileWatcher
import DataModel.Watch.Session
import DataModel.Yaml.Calendar
import DataModel.Yaml.Event
import DataModel.Yaml.Fault
import DataModel.Yaml.Node
import DataModel.Yaml.Tag
import DataModel.Yaml.Token
import DataModel.Yaml.Token.Property
import DataModel.Yaml.Token.Scalar
import DataModel.Yaml.Token.Stream
import DataModel.Yaml.Value
