import LazySession.Cache
import LazySession.Check.Diagnostic
import LazySession.Check.Program
import LazySession.Check.Scopes
import LazySession.Check.Types
import LazySession.CommandLine
import LazySession.Error
import LazySession.Eval.Apply
import LazySession.Eval.Fault
import LazySession.Eval.Halting
import LazySession.Eval.Machine
import LazySession.Eval.Primitive
import LazySession.Eval.Run
import LazySession.Eval.State
import LazySession.Eval.Thunk
import LazySession.Heap
import LazySession.Host.Craft
import LazySession.Host.Data
import LazySession.Host.Double
import LazySession.Host.Library
import LazySession.Host.Sample
import LazySession.Host.Type
import LazySession.Interpreter
import LazySession.Lang.Cursor
import LazySession.Lang.Fragment
import LazySession.Lang.Grammar
import LazySession.Lang.Lexeme
import LazySession.Lang.Operator
import LazySession.Lang.Token
import LazySession.Lang.Tree
import LazySession.Loader
import LazySession.Locate.FileTree
import LazySession.Locate.Locator
import LazySession.Locate.Path
import LazySession.Main
import LazySession.Proofs.Act
import LazySession.Proofs.Eval.Course
import LazySession.Proofs.Eval.Growth
import LazySession.Proofs.Eval.Primitive
import LazySession.Proofs.Eval.Settled
import LazySession.Proofs.Interpreter.Outcome
import LazySession.Proofs.Interpreter.Reading
import LazySession.Proofs.Lang.Declarations
import LazySession.Proofs.Lang.Layout
import LazySession.Proofs.Lang.Reader
import LazySession.Proofs.Lang.Scanning
import LazySession.Proofs.Lang.Tidy
import LazySession.Proofs.Lang.Types
import LazySession.Proofs.Loader.Cells
import LazySession.Proofs.Loader.Coherence
import LazySession.Proofs.Loader.Linking
import LazySession.Proofs.Loader.Names
import LazySession.Proofs.Loader.Preserved
import LazySession.Proofs.Loader.Sharing
import LazySession.Proofs.Scope.Accepted
import LazySession.Proofs.Scope.Application
import LazySession.Proofs.Scope.Checked
import LazySession.Proofs.Scope.Evaluation
import LazySession.Proofs.Scope.Ground
import LazySession.Proofs.Scope.Linking
import LazySession.Proofs.Scope.Replacement
import LazySession.Proofs.Scope.Scoped
import LazySession.Proofs.Scope.Search
import LazySession.Proofs.Scope.Soundness
import LazySession.Proofs.Session.Generated
import LazySession.Proofs.Session.Injection
import LazySession.Proofs.Session.Interference
import LazySession.Proofs.Session.Legible
import LazySession.Proofs.Session.Requests
import LazySession.Proofs.Session.RoundTrip
import LazySession.Proofs.Session.Script
import LazySession.Proofs.Table
import LazySession.Repl
import LazySession.Session.Operation
import LazySession.Session.Prelude
import LazySession.Session.State
import LazySession.Table
import LazySession.Text.Bytes
import LazySession.Text.Class
import LazySession.Text.Class.Digit
import LazySession.Text.Class.Graphic
import LazySession.Text.Class.Letter
import LazySession.Text.Class.Lower
import LazySession.Text.Class.Upper
import LazySession.Text.Decimal
import LazySession.Text.Digest
import LazySession.Text.Parts
import LazySession.Text.Quoted
import LazySession.Text.Shortest
import LazySession.Value
import LazySession.World
import LazySession.Proofs.Loader.Forcings
import LazySession.Proofs.Session.Freshness
import LazySession.Proofs.Session.Service
import LazySession.Proofs.Session.Log
import LazySession.Proofs.Session.Parts
import LazySession.Proofs.Lang.Printing
import LazySession.Proofs.Lang.Lexing
import LazySession.Proofs.Lang.TypeReading
import LazySession.Proofs.Lang.Reparsing
import LazySession.Proofs.Interpreter.Transparent
import LazySession.Proofs.Interpreter.Widened
import LazySession.Proofs.Session.Judged
import LazySession.Proofs.Session.Intact
import LazySession.Proofs.Twin.Value
import LazySession.Proofs.Twin.Heap
import LazySession.Proofs.Twin.Calls
import LazySession.Proofs.Twin.Craft
import LazySession.Proofs.Twin.Machine
import LazySession.Proofs.Twin.World
import LazySession.Proofs.Twin.Session
import LazySession.Proofs.Session.Isolation
import LazySession.Proofs.Lang.Spans
import LazySession.Proofs.Eval.Slack
import LazySession.Proofs.Eval.Crossing
import LazySession.Proofs.Eval.Tasks
import LazySession.Proofs.Eval.Nesting
import LazySession.Proofs.Eval.Portions
import LazySession.Proofs.Eval.Evaluated
import LazySession.Proofs.Eval.Framing
import LazySession.Proofs.Session.Limits
import LazySession.Proofs.Scope.Closure
import LazySession.Proofs.Lang.Places
import LazySession.Proofs.Lang.Fuel
import LazySession.Proofs.Lang.Grouping
import LazySession.Proofs.Lang.Precedence
import LazySession.Proofs.Lang.Moved
import LazySession.Proofs.Lang.Pairs
import LazySession.Proofs.Lang.Abreast
import LazySession.Proofs.Lang.Appending
import LazySession.Proofs.Lang.Sufficiency
import LazySession.Proofs.Lang.Standing
import LazySession.Proofs.Lang.Drawing
import LazySession.Proofs.Lang.Classification
import LazySession.Proofs.Lang.Faults
import LazySession.Proofs.Interpreter.Reports
import LazySession.Proofs.Wrapped.Heap
import LazySession.Proofs.Wrapped.Machine
import LazySession.Proofs.Unordered.Check
import LazySession.Proofs.Unordered.Search
import LazySession.Proofs.Unordered.Alike
import LazySession.Proofs.Unordered.Marking
import LazySession.Proofs.Unordered.Relinking
import LazySession.Proofs.Unordered.Linking
import LazySession.Proofs.Unordered.Runs
import LazySession.Proofs.Unordered.Independence
import LazySession.Proofs.Scope.Loadable
import LazySession.Proofs.Interpreter.Acceptance
import LazySession.Proofs.Session.Monotone
import LazySession.Proofs.Renaming.Heap
import LazySession.Proofs.Renaming.Machine
import LazySession.Proofs.Renaming.Module
import LazySession.Proofs.Session.Reordering
import LazySession.Proofs.Origin.Marks
import LazySession.Proofs.Origin.Evaluation
import LazySession.Proofs.Origin.Linking
import LazySession.Proofs.Origin.Texts
import LazySession.Proofs.Origin.Errors
import LazySession.Proofs.Eval.Division
import LazySession.Proofs.Cache.Arrivals
import LazySession.Proofs.Lang.Ends
import LazySession.Proofs.Locate.Lookup
import LazySession.Proofs.Eval.Patience
import LazySession.Proofs.Session.Patience
import LazySession.Proofs.Repl
import LazySession.Proofs.Indexed.Total
import LazySession.Proofs.Session.Purity
