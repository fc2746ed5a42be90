import PropStories.Cli.Command
import PropStories.Cli.Error
import PropStories.Cli.Option
import PropStories.Cli.Report
import PropStories.Cli.Run
import PropStories.Cli.Style
import PropStories.Cli.Usage
import PropStories.Component.Error
import PropStories.Component.Filter
import PropStories.Component.Pattern
import PropStories.Component.Scan
import PropStories.Config.Error
import PropStories.Config.Load
import PropStories.Config.Project
import PropStories.Config.Settings
import PropStories.Config.Toml.Document
import PropStories.Config.Toml.Scalar
import PropStories.Config.Value
import PropStories.Contract.Analysis
import PropStories.Contract.Classify
import PropStories.Contract.Documentation
import PropStories.Contract.Lower
import PropStories.Contract.Service
import PropStories.Contract.Type
import PropStories.Disk.Basic
import PropStories.Disk.Error
import PropStories.Event
import PropStories.Identity
import PropStories.Ignore.Disk
import PropStories.Ignore.Pattern
import PropStories.Ignore.Rules
import PropStories.Log
import PropStories.Main
import PropStories.Path
import PropStories.Program.Basic
import PropStories.Program.Script
import PropStories.Program.Standard
import PropStories.Session
import PropStories.Story.Decision
import PropStories.Story.Diagnostic
import PropStories.Story.Edit
import PropStories.Story.Error
import PropStories.Story.Formatter
import PropStories.Story.Keeper
import PropStories.Story.Locate
import PropStories.Story.Reconcile
import PropStories.Story.Region
import PropStories.Story.Template
import PropStories.Story.Writer
import PropStories.Synth.Prop
import PropStories.Synth.Value
import PropStories.Text.Blank
import PropStories.Text.Bytes
import PropStories.Text.Letter
import PropStories.Text.Lossy
import PropStories.Text.Quoted
import PropStories.Text.UpperCase
import PropStories.Tsx.Cursor
import PropStories.Tsx.Grammar.Basic
import PropStories.Tsx.Grammar.Expressions
import PropStories.Tsx.Grammar.Statements
import PropStories.Tsx.Grammar.Types
import PropStories.Tsx.Lexeme
import PropStories.Tsx.Parse
import PropStories.Tsx.Rule
import PropStories.Tsx.Tree
import PropStories.Watch.Error
import PropStories.Watch.Known
import PropStories.Watch.Start
import PropStories.Proofs.Tsx.Accepting
import PropStories.Proofs.Tsx.Gaps
import PropStories.Proofs.Tsx.Nesting
import PropStories.Proofs.Story.Splice
import PropStories.Proofs.Tsx.Reading
import PropStories.Proofs.Tsx.Refusal
import PropStories.Proofs.Story.Lines
import PropStories.Proofs.Story.Literals
import PropStories.Proofs.Story.Plans
import PropStories.Proofs.Story.Isolation
import PropStories.Proofs.Story.Places
import PropStories.Proofs.Tsx.Substitution
import PropStories.Proofs.Story.Reparse
import PropStories.Proofs.Story.Renewal
import PropStories.Proofs.Story.Entries
import PropStories.Proofs.Story.Courses
import PropStories.Proofs.Story.Rereading
import PropStories.Proofs.Story.Repetition
import PropStories.Proofs.Disk
import PropStories.Proofs.Story.Keeping
import PropStories.Proofs.Story.Pairing
import PropStories.Proofs.Watch.Known
import PropStories.Proofs.Watch.Stream
import PropStories.Proofs.Watch.Deletion
import PropStories.Proofs.Component.Scan
import PropStories.Proofs.Story.Independence
import PropStories.Proofs.Story.Runs
import PropStories.Proofs.Story.Preview
import PropStories.Proofs.Story.Targets
import PropStories.Proofs.Disk.Extension
import PropStories.Proofs.Story.Sheets
import PropStories.Proofs.Story.Filling
import PropStories.Proofs.Component.Rescan
import PropStories.Proofs.Story.Resync
import PropStories.Proofs.Tsx.Lexemes
import PropStories.Proofs.Tsx.Tokens
import PropStories.Proofs.Identity.Modules
import PropStories.Proofs.Identity.Names
import PropStories.Proofs.Identity.Titles
import PropStories.Proofs.Tsx.Values
import PropStories.Proofs.Tsx.Patterns
import PropStories.Proofs.Tsx.Programs
import PropStories.Proofs.Tsx.Literals
import PropStories.Proofs.Contract.Merge
import PropStories.Proofs.Contract.Lowering
import PropStories.Proofs.Contract.Forms
import PropStories.Proofs.Contract.Written
import PropStories.Proofs.Synth.Defaults
import PropStories.Proofs.Tsx.Layouts
import PropStories.Proofs.Story.Contracts
import PropStories.Proofs.Story.Definitions
import PropStories.Proofs.Story.Separation
import PropStories.Proofs.Contract.Resolution
import PropStories.Proofs.Contract.Inheritance
import PropStories.Proofs.Contract.Choices
import PropStories.Proofs.Tsx.Views
import PropStories.Proofs.Contract.Bodies
import PropStories.Proofs.Contract.Statements
import PropStories.Proofs.Contract.DefaultExports
import PropStories.Proofs.Contract.Reordering
import PropStories.Proofs.Identity.Identifiers
import PropStories.Proofs.Contract.Keys
import PropStories.Proofs.Text.Quoting
import PropStories.Proofs.Component.Extensions
import PropStories.Proofs.Contract.Documentation
import PropStories.Proofs.Story.Actions
import PropStories.Proofs.Tsx.Faultless
import PropStories.Proofs.Tsx.Types
import PropStories.Proofs.Tsx.Modules
import PropStories.Proofs.Story.Bindings
