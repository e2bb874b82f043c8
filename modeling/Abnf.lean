import Abnf.Build
import Abnf.CharSet
import Abnf.CharSet.Test
import Abnf.Command
import Abnf.Command.Arguments
import Abnf.Command.Check
import Abnf.Command.Configuration
import Abnf.Command.FileTree
import Abnf.Command.Generation
import Abnf.Command.Inspection
import Abnf.Command.Likeness
import Abnf.Command.Path
import Abnf.Command.Report
import Abnf.Command.Session
import Abnf.Command.World
import Abnf.CoreRules
import Abnf.Element
import Abnf.Element.Normal
import Abnf.Element.Text
import Abnf.Grammar
import Abnf.Grammar.Assembly
import Abnf.Grammar.Error
import Abnf.Grammar.Note
import Abnf.Grammar.Rules
import Abnf.Grammar.Value
import Abnf.Log
import Abnf.Main
import Abnf.Node
import Abnf.Pattern
import Abnf.Pattern.Expr
import Abnf.Pattern.Named
import Abnf.Pattern.Reader
import Abnf.Pattern.Size
import Abnf.Pattern.Spans
import Abnf.Pool
import Abnf.Program
import Abnf.Proofs.Attempts
import Abnf.Proofs.BigStep
import Abnf.Proofs.ByteTest
import Abnf.Proofs.ElementRun
import Abnf.Proofs.Evaluation
import Abnf.Proofs.Exploration
import Abnf.Proofs.GrammarAttempts
import Abnf.Proofs.GrammarRuns
import Abnf.Proofs.Lowering
import Abnf.Proofs.Normalization
import Abnf.Proofs.Nullability
import Abnf.Proofs.Openings
import Abnf.Proofs.Pruning
import Abnf.Proofs.PublicRules
import Abnf.Proofs.Resolution
import Abnf.Proofs.Selection
import Abnf.Proofs.Termination
import Abnf.Routine
import Abnf.Rule
import Abnf.Scope
import Abnf.Scope.LeftRecursion
import Abnf.Scope.References
import Abnf.Source.Code
import Abnf.Source.Writer
import Abnf.Text.Category
import Abnf.Text.Folding
import Abnf.Text.Hexadecimal
import Abnf.Text.Lines
import Abnf.Text.Literal
import Abnf.Text.Property
import Abnf.Text.Runs
import Abnf.Text.Shown
import Abnf.Text.Writing
import Abnf.Trace
import Abnf.Yaml
import Abnf.Yaml.Cursor
import Abnf.Yaml.Layout
import Abnf.Yaml.Node
import Abnf.Yaml.Scalar
import Abnf.Yaml.Tag
import Abnf.Yaml.Token
import Abnf.Proofs.ContextFree
import Abnf.Proofs.Prediction
import Abnf.Proofs.GrammarReading
import Abnf.Proofs.GrammarDerivations
import Abnf.Proofs.GrammarTexts
import Abnf.Proofs.Frames
import Abnf.Proofs.GrammarFrames
import Abnf.Proofs.GrammarSafety
import Abnf.Proofs.Flattening
import Abnf.Proofs.GrammarTrees
import Abnf.Proofs.RoundTrip
import Abnf.Proofs.PublicWords
import Abnf.Proofs.Reachability
import Abnf.Proofs.Acceptance
import Abnf.Proofs.RoutineTable
import Abnf.Proofs.Events
import Abnf.Proofs.Rust.Term
import Abnf.Proofs.Rust.Machine
import Abnf.Proofs.Rust.Spelling
import Abnf.Proofs.Rust.Parsing
import Abnf.Proofs.Rust.Evaluation
import Abnf.Proofs.Rust.Running
import Abnf.Proofs.Rust.Iteration
import Abnf.Proofs.Rust.Nodes
import Abnf.Proofs.Rust.Functions
import Abnf.Proofs.Rust.Text
import Abnf.Proofs.Rust.Calls
import Abnf.Proofs.Rust.Writing
import Abnf.Proofs.Rust.Generation
import Abnf.Proofs.CheckedRules
import Abnf.Proofs.Definitions
import Abnf.Proofs.Offsets
import Abnf.Proofs.Pool.Steps
import Abnf.Proofs.Pool.Order
import Abnf.Proofs.Pool.Jobs
import Abnf.Proofs.Pool.Runs
import Abnf.Proofs.NormalForms
import Abnf.Proofs.EmptyMatches
import Abnf.Proofs.ReferenceOrder
import Abnf.Proofs.Pool.Length
import Abnf.Proofs.Targets
import Abnf.Proofs.Inspections
import Abnf.Proofs.KeptNames
import Abnf.Proofs.Iterations
import Abnf.Proofs.Spans
import Abnf.Proofs.QuotedTexts
import Abnf.Proofs.GrammarForms
import Abnf.Proofs.DefinitionSigns
import Abnf.Proofs.Numbers
import Abnf.Proofs.ViablePrefixes
import Abnf.Proofs.Signs
import Abnf.Proofs.Rereading
import Abnf.Proofs.Positions
import Abnf.Proofs.Members
import Abnf.Proofs.WrittenRuns
import Abnf.Proofs.Zones
import Abnf.Proofs.LetterCase
import Abnf.Proofs.LineEndings
