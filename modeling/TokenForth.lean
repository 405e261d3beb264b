import TokenForth.Proofs.Steps
import TokenForth.Main
import TokenForth.Proofs.Effects
import TokenForth.Proofs.Bookkeeping
import TokenForth.Proofs.Simulation
import TokenForth.Proofs.Sources
import TokenForth.Proofs.Names
import TokenForth.Proofs.Frame
import TokenForth.Proofs.Termination
import TokenForth.Proofs.Program
import TokenForth.Proofs.Evaluation
import TokenForth.Proofs.Structured
import TokenForth.Proofs.Locations
import TokenForth.Proofs.Rendering
import TokenForth.Proofs.Failure
import TokenForth.Proofs.CallLimit
import TokenForth.Proofs.Course
import TokenForth.Proofs.Drivers
import TokenForth.Proofs.Balance
import TokenForth.Proofs.Identity
import TokenForth.Proofs.Forgetting
import TokenForth.Proofs.Splitting
import TokenForth.Proofs.Comments
import TokenForth.Proofs.Origins
import TokenForth.Proofs.Stray
import TokenForth.Proofs.Footprint
import TokenForth.Proofs.Scanning
import TokenForth.Proofs.Counting
import TokenForth.Proofs.Partition
import TokenForth.Proofs.Continuation
import TokenForth.Proofs.Canonical
import TokenForth.Proofs.DigitRuns
import TokenForth.Proofs.Substitution
import TokenForth.Proofs.Division
import TokenForth.Proofs.Visibility
import TokenForth.Proofs.Positions
import TokenForth.Proofs.CallTraces
import TokenForth.Proofs.Lookahead
