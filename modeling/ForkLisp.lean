import ForkLisp.Source.Offset
import ForkLisp.Reader.Parse
import ForkLisp.Code.Operands
import ForkLisp.Code.Builder
import ForkLisp.Settings.Environment
import ForkLisp.Diagnostic
import ForkLisp.Compile.Context
import ForkLisp.Compile.Builtin
import ForkLisp.Compile.Generate
import ForkLisp.Optimize.Rounds
import ForkLisp.Compile.Compile
import ForkLisp.Schedule.Crew
import ForkLisp.Session.Evaluate
import ForkLisp.Schedule.Workers
import ForkLisp.Session.Parallel
import ForkLisp.Session.Littered
import ForkLisp.Shell.Completion
import ForkLisp.Shell.Conversation
import ForkLisp.Main
import ForkLisp.Proofs.Behaviour.Agreement
import ForkLisp.Proofs.Optimize.Constants
import ForkLisp.Proofs.Optimize.LiveRegisters
import ForkLisp.Proofs.Optimize.Rewriting
import ForkLisp.Proofs.Optimize.ExactLiveness
import ForkLisp.Proofs.Optimize.Fusing
import ForkLisp.Proofs.Optimize.Drafting
import ForkLisp.Proofs.Optimize.PassRules
import ForkLisp.Proofs.Optimize.Placing
import ForkLisp.Proofs.Optimize.Walking
import ForkLisp.Proofs.Optimize.Copies
import ForkLisp.Proofs.Optimize.Soundness
import ForkLisp.Proofs.Terms.Term
import ForkLisp.Proofs.Terms.Running
import ForkLisp.Proofs.Terms.Emitted
import ForkLisp.Proofs.Reference.Evaluator
import ForkLisp.Proofs.Terms.Resolve
import ForkLisp.Proofs.Terms.Generated
import ForkLisp.Proofs.Machine.Activations
import ForkLisp.Proofs.Machine.Frames
import ForkLisp.Proofs.Machine.Conduct
import ForkLisp.Proofs.Schedule.Alone
import ForkLisp.Proofs.Schedule.Idle
import ForkLisp.Proofs.Reference.Equations
import ForkLisp.Proofs.Reference.Simulation
import ForkLisp.Proofs.Reference.Arithmetic
import ForkLisp.Proofs.Compile.Matching
import ForkLisp.Proofs.Reference.Sequential
import ForkLisp.Proofs.Reference.Steady
import ForkLisp.Proofs.Compile.Origin
import ForkLisp.Proofs.Compile.Linking
import ForkLisp.Proofs.Compile.Successors
import ForkLisp.Proofs.Session.Running
import ForkLisp.Proofs.Session.Reference
import ForkLisp.Proofs.Session.Optimizing
import ForkLisp.Proofs.Reference.Loose
import ForkLisp.Proofs.Reference.Forking
import ForkLisp.Proofs.Reference.Kinds
import ForkLisp.Proofs.Session.Kinds
import ForkLisp.Proofs.Machine.Pooling
import ForkLisp.Proofs.Schedule.Custody
import ForkLisp.Proofs.Schedule.Handing
import ForkLisp.Proofs.Schedule.Governing
import ForkLisp.Proofs.Schedule.Ledger
import ForkLisp.Proofs.Session.Parallel
import ForkLisp.Proofs.Session.Forking
import ForkLisp.Proofs.Session.Fallback
import ForkLisp.Proofs.Schedule.Contents
import ForkLisp.Proofs.Session.Progress
import ForkLisp.Proofs.Behaviour.Outline
import ForkLisp.Proofs.Behaviour.Paths
import ForkLisp.Proofs.Compile.Outlined
import ForkLisp.Proofs.Machine.Layers
import ForkLisp.Proofs.Machine.Lockstep
import ForkLisp.Proofs.Schedule.Lockstep
import ForkLisp.Proofs.Session.Lockstep
import ForkLisp.Proofs.Session.Discipline
import ForkLisp.Proofs.Pairing
import ForkLisp.Proofs.Session.Leftovers
import ForkLisp.Proofs.Session.Refusal
import ForkLisp.Proofs.Compile.Callees
import ForkLisp.Proofs.Machine.Tables
import ForkLisp.Proofs.Schedule.Tables
import ForkLisp.Proofs.Session.Identity
import ForkLisp.Proofs.Reader.Pieces
import ForkLisp.Proofs.Reader.Tokens
import ForkLisp.Proofs.Reader.Nesting
import ForkLisp.Proofs.Reader.Balance
import ForkLisp.Proofs.Source.Offsets
import ForkLisp.Proofs.Reader.Grammar
import ForkLisp.Proofs.Compile.Judgement
import ForkLisp.Proofs.Compile.Judging
import ForkLisp.Proofs.Compile.Blame
import ForkLisp.Proofs.Reader.Extents
import ForkLisp.Proofs.Reader.Slices
import ForkLisp.Proofs.Session.Locations
import ForkLisp.Proofs.Session.Room
import ForkLisp.Proofs.Schedule.Watch
import ForkLisp.Proofs.Numeric.Nearest
import ForkLisp.Proofs.Numeric.Written
import ForkLisp.Proofs.Text.Lowercase
import ForkLisp.Proofs.Reader.Lowering
import ForkLisp.Proofs.Reader.Rereading
import ForkLisp.Proofs.Reader.Cutting
import ForkLisp.Proofs.Compile.Ranges
import ForkLisp.Proofs.Session.Batches
import ForkLisp.Proofs.Shell.Lines
import ForkLisp.Proofs.Shell.Entries
import ForkLisp.Proofs.Shell.Replies
import ForkLisp.Proofs.Code.WellFormed
import ForkLisp.Proofs.Optimize.Totality
import ForkLisp.Proofs.Optimize.Forming
import ForkLisp.Proofs.Compile.Formed
import ForkLisp.Proofs.Machine.Completion
import ForkLisp.Proofs.Optimize.Cleaning
import ForkLisp.Proofs.Machine.Footprint
import ForkLisp.Proofs.Machine.Raising
import ForkLisp.Proofs.Schedule.Fifo
import ForkLisp.Proofs.Shell.Completion
import ForkLisp.Proofs.Machine.Stretch
import ForkLisp.Proofs.Terms.Registers
import ForkLisp.Proofs.Session.Registers
