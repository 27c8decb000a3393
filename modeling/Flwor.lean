import Flwor.Clause
import Flwor.Main
import Flwor.Stage.Consumer
import Flwor.Proofs.Joins.Unnesting
import Flwor.Proofs.Lockstep.Compiled
import Flwor.Proofs.MatchOrder.Elimination
import Flwor.Proofs.Partition
import Flwor.Proofs.Redaction.Disclosure
import Flwor.Proofs.Safety.Compiled
import Flwor.Proofs.Protocol.Sessions
import Flwor.Proofs.Arena.Cycles
import Flwor.Proofs.Arena.Confinement
import Flwor.Proofs.Hoisting.Evaluation
import Flwor.Proofs.Lifting.Evaluation
import Flwor.Proofs.Convergence.Fixpoints
import Flwor.Proofs.Items.Ordering
import Flwor.Proofs.Items.Keys
import Flwor.Proofs.Items.Integers
import Flwor.Proofs.Sorting
import Flwor.Proofs.Items.Quotients
import Flwor.Proofs.Functions.Distinct
import Flwor.Proofs.Functions.Extremes
import Flwor.Proofs.Functions.Positions
import Flwor.Proofs.Liveness.Lookups
import Flwor.Proofs.Safety.Contexts
import Flwor.Proofs.Convergence.Canonical
import Flwor.Proofs.Regroupings.HandOff
import Flwor.Proofs.Arena.Documents
import Flwor.Proofs.Building
import Flwor.Proofs.Liveness.Projecting
import Flwor.Proofs.Walking.Rounds
import Flwor.Proofs.Arena.Naming
