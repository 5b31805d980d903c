import Shooting.Model.Symbolic
import Shooting.Solver.Solve
import Shooting.Report.Line
import Shooting.Proofs.Exact
import Shooting.Proofs.Dense
import Shooting.Proofs.Cholesky
import Shooting.Proofs.RangeSpace
import Shooting.Proofs.Layout
import Shooting.Proofs.Evaluation
import Shooting.Proofs.System
import Shooting.Proofs.Curvature
import Shooting.Proofs.History
import Shooting.Proofs.Blocks
import Shooting.Proofs.Relinearization
import Shooting.Proofs.Assembly
import Shooting.Proofs.Optimality
import Shooting.Proofs.Direction
import Shooting.Proofs.Independence
import Shooting.Proofs.Integrator
import Shooting.Proofs.LinearQuadratic
import Shooting.Proofs.QuadraticProgram
import Shooting.Proofs.Residual
import Shooting.Proofs.FullStep
import Shooting.Proofs.Acceptance
import Shooting.Proofs.Escalation
import Shooting.Proofs.Iteration
import Shooting.Proofs.Convergence
import Shooting.Proofs.Accounting
import Shooting.Proofs.Course
import Shooting.Proofs.Outcome
import Shooting.Proofs.Faults
import Shooting.Proofs.Gaps
import Shooting.Proofs.Descent
import Shooting.Proofs.WarmStart
import Shooting.Proofs.LastLinearization
import Shooting.Proofs.Measure
import Shooting.Proofs.Criterion
import Shooting.Proofs.Feasibility
import Shooting.Proofs.Presentation
import Shooting.Proofs.Observers
import Shooting.Proofs.Statistics
import Shooting.Proofs.Weights
import Shooting.Proofs.Rejection
import Shooting.Proofs.Trail
import Shooting.Proofs.Confinement
import Shooting.Proofs.Verbosity
import Shooting.Proofs.Differentiation
import Shooting.Proofs.Retraction
import Shooting.Proofs.Displacement
import Shooting.Proofs.Linearization
import Shooting.Proofs.Shapes
import Shooting.Proofs.Manifold
import Shooting.Proofs.Rotation
import Shooting.Proofs.SaddlePoint
import Shooting.Proofs.FirstStep
import Shooting.Proofs.Costs
import Shooting.Proofs.Isolation
import Shooting.Proofs.Refusal
import Shooting.Proofs.Rollout
import Shooting.Proofs.Contraction
import Shooting.Proofs.Chaining
import Shooting.Proofs.Construction
import Shooting.Proofs.Double
import Shooting.Proofs.Validation
import Shooting.Proofs.Tiling
