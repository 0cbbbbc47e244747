import Letrec.Compilation
import Letrec.Demo
import Letrec.Evaluation.Fuel
import Letrec.Expr.Printer
import Letrec.Main
import Letrec.Scope.Outline
import Letrec.Session
import Letrec.Proofs.ByName.Sharing
import Letrec.Proofs.Meaning
import Letrec.Proofs.Recursion
import Letrec.Proofs.Scope.Lexical
import Letrec.Proofs.Evaluation.Once
import Letrec.Proofs.Safety
import Letrec.Proofs.Lowering.Failure
import Letrec.Proofs.Evaluation.Congruence
import Letrec.Proofs.Evaluation.Threshold
import Letrec.Proofs.Evaluation.Termination
import Letrec.Proofs.Unshared.Evaluation
import Letrec.Proofs.Unshared.World
import Letrec.Proofs.Unshared.Simulation
import Letrec.Proofs.Unshared.Session
import Letrec.Proofs.Retry
import Letrec.Proofs.Dispatch
import Letrec.Proofs.Reorder.Program
import Letrec.Proofs.Renaming.Program
import Letrec.Proofs.Sharing.Program
import Letrec.Proofs.CallGraph.Additions
import Letrec.Proofs.Relevance
import Letrec.Proofs.Currying
import Letrec.Proofs.FixedPoint
import Letrec.Proofs.Scope.Faithful
import Letrec.Proofs.Renumbering.Program
import Letrec.Proofs.Expr.Printer
import Letrec.Proofs.Heap.Sameness
import Letrec.Proofs.Lowering.Foreign
import Letrec.Proofs.Lowering.Order
import Letrec.Proofs.Passing
