import Scripting.Node.Equality
import Scripting.Host.Run
import Scripting.Proofs.Structured.Outcome
import Scripting.Proofs.Structured.Position
import Scripting.Proofs.Environment.Marks
import Scripting.Proofs.Store.Trees
import Scripting.Proofs.Structured.Matching
import Scripting.Proofs.Structured.Primitives
import Scripting.Proofs.Structured.Operands
import Scripting.Proofs.Structured.Marking
import Scripting.Proofs.Structured.Statements
import Scripting.Proofs.Structured.Loops
import Scripting.Proofs.Structured.Refinement
import Scripting.Proofs.Environment.Slots
import Scripting.Proofs.Eval.Step
import Scripting.Proofs.Eval.Landing
import Scripting.Proofs.Eval.Decomposition
import Scripting.Proofs.Store.Reaping
import Scripting.Proofs.Store.Sweeping
import Scripting.Proofs.Eval.Soundness
import Scripting.Proofs.Host.Invisibility
import Scripting.Proofs.Host.Moment
import Scripting.Proofs.Host.Collector
import Scripting.Proofs.Host.Bindings
import Scripting.Proofs.Eval.Aliasing
import Scripting.Proofs.Host.ValueSemantics
import Scripting.Proofs.Environment.Balance
import Scripting.Proofs.Environment.Nesting
import Scripting.Proofs.Eval.Routine
import Scripting.Proofs.Eval.Congruence
import Scripting.Proofs.Eval.Tracking
import Scripting.Proofs.Eval.Discipline
import Scripting.Proofs.Eval.Change
import Scripting.Proofs.Eval.Course
import Scripting.Proofs.Eval.Places
import Scripting.Proofs.Eval.Memo
import Scripting.Proofs.Eval.Settling
import Scripting.Proofs.Eval.Termination
import Scripting.Proofs.Host.Stacks
import Scripting.Proofs.Store.Tables
import Scripting.Proofs.Store.Registry
import Scripting.Proofs.Store.Completeness
import Scripting.Proofs.Host.Tables
import Scripting.Proofs.Host.Twins
import Scripting.Proofs.Host.Completeness
import Scripting.Proofs.Host.Memo
import Scripting.Proofs.Host.Termination
import Scripting.Proofs.Store.Acyclic
import Scripting.Proofs.Renaming.Stores
import Scripting.Proofs.Renaming.Environments
import Scripting.Proofs.Renaming.Forms
import Scripting.Proofs.Renaming.Operands
import Scripting.Proofs.Renaming.Parallel
import Scripting.Proofs.Renaming.Requests
import Scripting.Proofs.Renaming.Copies
import Scripting.Proofs.Host.Copies
import Scripting.Proofs.Eval.Recording
import Scripting.Proofs.Eval.Calls
import Scripting.Proofs.Eval.Observing
import Scripting.Proofs.Host.Reached
import Scripting.Proofs.Eval.Traversal
import Scripting.Proofs.Host.Loops
import Scripting.Proofs.Host.RangeLoops
import Scripting.Proofs.Store.Passes
import Scripting.Proofs.Eval.Chains
import Scripting.Proofs.Builtin.Calls
import Scripting.Proofs.Builtin.Templates
import Scripting.Proofs.Builtin.Effects
import Scripting.Proofs.Eval.Echoes
import Scripting.Proofs.Operator.Comparison
import Scripting.Proofs.Operator.Integers
import Scripting.Proofs.Operator.Repetition
import Scripting.Proofs.Host.References
import Scripting.Proofs.Environment.Resolution
import Scripting.Proofs.Eval.Declarations
import Scripting.Proofs.Eval.Levels
import Scripting.Proofs.Host.Unwinding
import Scripting.Proofs.Builtin.Limits
