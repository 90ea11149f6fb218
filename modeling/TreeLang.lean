import TreeLang.Command.Address
import TreeLang.Command.Console
import TreeLang.Command.Entry
import TreeLang.Command.Options
import TreeLang.Command.Repl
import TreeLang.Command.Run
import TreeLang.Decimal.Binary
import TreeLang.Decimal.General
import TreeLang.Decimal.Reading
import TreeLang.Decimal.Shortest
import TreeLang.Decimal.Written
import TreeLang.Diagnostic
import TreeLang.Document.Comment
import TreeLang.Document.Cursor
import TreeLang.Document.Item
import TreeLang.Document.Meaning
import TreeLang.Document.Node
import TreeLang.Document.Property
import TreeLang.Document.Scalar
import TreeLang.Document.Scan
import TreeLang.Document.Token
import TreeLang.Eval.Basic
import TreeLang.Eval.Builtins
import TreeLang.Eval.Environment
import TreeLang.Eval.Machine
import TreeLang.Eval.Operators
import TreeLang.Files.Path
import TreeLang.Files.Tree
import TreeLang.Host.Convert
import TreeLang.Host.Function
import TreeLang.Host.Type
import TreeLang.Host.Value
import TreeLang.Main
import TreeLang.Pipeline
import TreeLang.Program.Basic
import TreeLang.Program.Dump
import TreeLang.Program.Printer
import TreeLang.Program.Reader
import TreeLang.Program.Writer
import TreeLang.Proofs.Command.Entry
import TreeLang.Proofs.Decimal.Shortest
import TreeLang.Proofs.Decimal.Written
import TreeLang.Proofs.Document.Anchors
import TreeLang.Proofs.Document.Denotation
import TreeLang.Proofs.Eval.Agreement
import TreeLang.Proofs.Eval.Depth
import TreeLang.Proofs.Eval.Erasure
import TreeLang.Proofs.Eval.Hearing
import TreeLang.Proofs.Eval.Hereditary
import TreeLang.Proofs.Eval.Lockstep
import TreeLang.Proofs.Eval.Places
import TreeLang.Proofs.Eval.Reports
import TreeLang.Proofs.Eval.Scoping
import TreeLang.Proofs.Eval.Tracking
import TreeLang.Proofs.Eval.Triples
import TreeLang.Proofs.Eval.Writes
import TreeLang.Proofs.Except
import TreeLang.Proofs.Host.Calls
import TreeLang.Proofs.Host.MapOrder
import TreeLang.Proofs.Host.RoundTrip
import TreeLang.Proofs.Names.Closed
import TreeLang.Proofs.Names.Flow
import TreeLang.Proofs.Names.Programs
import TreeLang.Proofs.Nesting
import TreeLang.Proofs.Pipeline.Gate
import TreeLang.Proofs.Program.Ending
import TreeLang.Proofs.Program.Expressions
import TreeLang.Proofs.Program.Functions
import TreeLang.Proofs.Program.Grouping
import TreeLang.Proofs.Program.Reading
import TreeLang.Proofs.Program.Saying
import TreeLang.Proofs.Program.Structure
import TreeLang.Proofs.Sample.Reading
import TreeLang.Proofs.Sample.Runs
import TreeLang.Proofs.Sample.Shape
import TreeLang.Proofs.Sample.Typing
import TreeLang.Proofs.Session.AssignedTypes
import TreeLang.Proofs.Session.Input
import TreeLang.Proofs.Session.Prediction
import TreeLang.Proofs.Session.Recheck
import TreeLang.Proofs.Session.Refusal
import TreeLang.Proofs.Session.Registration
import TreeLang.Proofs.Session.RollBack
import TreeLang.Proofs.Session.SetTypes
import TreeLang.Proofs.Soundness.Calls
import TreeLang.Proofs.Soundness.Core
import TreeLang.Proofs.Soundness.Programs
import TreeLang.Proofs.Table
import TreeLang.Proofs.Text.Json
import TreeLang.Proofs.Text.Lines
import TreeLang.Proofs.Text.Pieces
import TreeLang.Proofs.Text.Quoted
import TreeLang.Proofs.Ty.Applying
import TreeLang.Proofs.Ty.Constants
import TreeLang.Proofs.Ty.Copies
import TreeLang.Proofs.Ty.Ending
import TreeLang.Proofs.Ty.Matching
import TreeLang.Proofs.Ty.Renaming
import TreeLang.Proofs.Ty.Solutions
import TreeLang.Proofs.Ty.Structure
import TreeLang.Proofs.Ty.Supply
import TreeLang.Proofs.Ty.Unifying
import TreeLang.Proofs.Typing.Bodies
import TreeLang.Proofs.Typing.Calls
import TreeLang.Proofs.Typing.Ending
import TreeLang.Proofs.Typing.Frame
import TreeLang.Proofs.Typing.Globals
import TreeLang.Proofs.Typing.Instances
import TreeLang.Proofs.Typing.Judgement
import TreeLang.Proofs.Typing.Order
import TreeLang.Proofs.Typing.Programs
import TreeLang.Proofs.Typing.Record
import TreeLang.Proofs.Typing.Renaming
import TreeLang.Proofs.Typing.Resolution
import TreeLang.Proofs.Typing.Sites
import TreeLang.Proofs.Typing.Verdict
import TreeLang.Proofs.Value.Equality
import TreeLang.Proofs.Value.Fits
import TreeLang.Proofs.Value.KeyText
import TreeLang.Proofs.Value.Keys
import TreeLang.Proofs.Value.Merge
import TreeLang.Proofs.Value.Proper
import TreeLang.Proofs.Value.Recast
import TreeLang.Proofs.Value.Repr
import TreeLang.Proofs.Value.Shown
import TreeLang.Proofs.Value.Store
import TreeLang.Proofs.Value.Structure
import TreeLang.Proofs.Value.Union
import TreeLang.Sample
import TreeLang.Scope
import TreeLang.Service
import TreeLang.Session
import TreeLang.Settings.Basic
import TreeLang.Settings.Decode
import TreeLang.Settings.Duration
import TreeLang.Settings.Find
import TreeLang.Table
import TreeLang.Text.Base64
import TreeLang.Text.Lines
import TreeLang.Text.Octets
import TreeLang.Text.Pieces
import TreeLang.Text.Printable
import TreeLang.Text.Quoted
import TreeLang.Text.Space
import TreeLang.Text.Template
import TreeLang.Text.Upper
import TreeLang.Ty.Basic
import TreeLang.Ty.Subst
import TreeLang.Typing
import TreeLang.Value.Basic
import TreeLang.Value.Primitive
import TreeLang.Value.Store
