import TypeRecovery.CommandLine.Command
import TypeRecovery.CommandLine.Flag
import TypeRecovery.CommandLine.Options
import TypeRecovery.CommandLine.Run
import TypeRecovery.CommandLine.Topic
import TypeRecovery.Config
import TypeRecovery.Diagnostic
import TypeRecovery.Document
import TypeRecovery.Document.Printer
import TypeRecovery.Document.Reader
import TypeRecovery.Document.Token
import TypeRecovery.Files
import TypeRecovery.Graph.Basic
import TypeRecovery.Graph.Edit
import TypeRecovery.Graph.Opcode
import TypeRecovery.Graph.Printer
import TypeRecovery.Hierarchy.Basic
import TypeRecovery.Hierarchy.Catalogue
import TypeRecovery.Hierarchy.Document
import TypeRecovery.Hierarchy.Generics
import TypeRecovery.Hierarchy.Store
import TypeRecovery.Hierarchy.Walk
import TypeRecovery.Inference.Bounds
import TypeRecovery.Inference.Context
import TypeRecovery.Inference.Engine
import TypeRecovery.Inference.Finish
import TypeRecovery.Inference.Propagation
import TypeRecovery.Inference.Proposal
import TypeRecovery.Inference.Resolve.Casts
import TypeRecovery.Inference.Resolve.Constants
import TypeRecovery.Inference.Resolve.Deduction
import TypeRecovery.Inference.Resolve.Moves
import TypeRecovery.Inference.Resolve.Primitives
import TypeRecovery.Inference.Resolve.Search
import TypeRecovery.Inference.Search.Candidates
import TypeRecovery.Inference.Search.Wheel
import TypeRecovery.Inference.Session
import TypeRecovery.Kind
import TypeRecovery.Listing.Basic
import TypeRecovery.Listing.Build
import TypeRecovery.Main
import TypeRecovery.Path
import TypeRecovery.Run.Method
import TypeRecovery.Run.Report
import TypeRecovery.Text.Blank
import TypeRecovery.Text.LetterCase
import TypeRecovery.Text.Numeral
import TypeRecovery.Text.Printable
import TypeRecovery.Text.Quoted
import TypeRecovery.Text.Split
import TypeRecovery.Text.Style
import TypeRecovery.Text.Template
import TypeRecovery.Ty.Basic
import TypeRecovery.Ty.Merge
import TypeRecovery.Ty.Printer
import TypeRecovery.Ty.Reader
import TypeRecovery.Ty.Relation
import TypeRecovery.Ty.Substitution
import TypeRecovery.Proofs.Ty.Relation
import TypeRecovery.Proofs.Graph.Tables
import TypeRecovery.Proofs.Inference.Runs
import TypeRecovery.Proofs.Inference.Attempts
import TypeRecovery.Proofs.Graph.Edits
import TypeRecovery.Proofs.Graph.Supply
import TypeRecovery.Proofs.Graph.Wiring
import TypeRecovery.Proofs.Graph.Rewiring
import TypeRecovery.Proofs.Graph.Construction
import TypeRecovery.Proofs.Graph.Lines
import TypeRecovery.Proofs.Graph.Contraction
import TypeRecovery.Proofs.Listing.Build
import TypeRecovery.Proofs.Inference.Advance
import TypeRecovery.Proofs.Inference.Wheels
import TypeRecovery.Proofs.Inference.Agreement
import TypeRecovery.Proofs.Inference.Resolvers
import TypeRecovery.Proofs.Inference.Finishing
import TypeRecovery.Proofs.Inference.Engine
import TypeRecovery.Proofs.Inference.Rewrites
import TypeRecovery.Proofs.Inference.Ends
import TypeRecovery.Proofs.Inference.Copies
import TypeRecovery.Proofs.Inference.Upkeep
import TypeRecovery.Proofs.Listing.Wiring
import TypeRecovery.Proofs.Inference.Reached
import TypeRecovery.Proofs.Inference.Composition
import TypeRecovery.Proofs.Inference.Reports
import TypeRecovery.Proofs.Inference.Verdict
import TypeRecovery.Proofs.Inference.Repeated
import TypeRecovery.Proofs.Inference.Settling
import TypeRecovery.Proofs.Inference.Converged
import TypeRecovery.Proofs.Inference.Leftover
import TypeRecovery.Proofs.Inference.Sharing
import TypeRecovery.Proofs.Text.Split
import TypeRecovery.Proofs.Ty.Merging
import TypeRecovery.Proofs.Ty.Comparison
import TypeRecovery.Proofs.Ty.RoundTrip
import TypeRecovery.Proofs.Ty.Parts
import TypeRecovery.Proofs.Ty.Reading
import TypeRecovery.Proofs.Ty.Substitution
import TypeRecovery.Proofs.Hierarchy.Walk
import TypeRecovery.Proofs.Hierarchy.History
import TypeRecovery.Proofs.Hierarchy.Ancestors
import TypeRecovery.Proofs.Hierarchy.CommonAncestor
import TypeRecovery.Proofs.Hierarchy.Converse
import TypeRecovery.Proofs.Hierarchy.Store
import TypeRecovery.Proofs.Inference.Passing
import TypeRecovery.Proofs.Inference.Returns
import TypeRecovery.Proofs.Inference.Odometer
import TypeRecovery.Proofs.Inference.Routing
import TypeRecovery.Proofs.Inference.Endless
import TypeRecovery.Proofs.Inference.MoveSteps
import TypeRecovery.Proofs.Inference.PhiMoves
import TypeRecovery.Proofs.Inference.Success
import TypeRecovery.Proofs.Run.Report
import TypeRecovery.Proofs.Graph.Sequences
import TypeRecovery.Proofs.Graph.Tracking
import TypeRecovery.Proofs.Graph.Shape
import TypeRecovery.Proofs.Inference.BlockShape
