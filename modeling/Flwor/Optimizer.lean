import Flwor.Pass.Grouping
import Flwor.Pass.LetLift
import Flwor.Pass.MatchOrder
import Flwor.Pass.Steps
import Flwor.Pass.Unnest

/-
  This file defines the settings of the optimizer and the
  sequence of passes that they ask for.

  Key definitions include:
    * `Settings`
    * `Settings.passes`
    * `optimize`
-/

------------------------------------------------------------
-- Settings
------------------------------------------------------------

namespace Flwor

/- What the optimizer does, and within which bound. -/
structure Settings where
  unnest : Bool
  projection : Bool
  maxTraversals : Nat
  orderBlind : OrderBlind
deriving DecidableEq, Repr

namespace Settings

/- The settings that hold unless others are given. -/
def standard : Settings where
  unnest := false
  projection := true
  maxTraversals := 64
  orderBlind := ["count", "distinct"]

/- The passes in the order in which they run. -/
def passes
    (settings : Settings) : List Pass :=
  Pass.stepMerge
    :: (if settings.unnest then
          [Pass.unnest, Pass.letLift, Pass.groupEmission,
           Pass.joinSortElimination settings.orderBlind]
        else [])

end Settings

end Flwor

------------------------------------------------------------
-- Optimizing
------------------------------------------------------------

namespace Flwor

/- Run passes one after the other, up to the first failure. -/
def runPasses
    (maxTraversals : Nat) :
    List Pass → Plan →
      Except Failure (List WalkReport × Plan)
  | [], plan => .ok ([], plan)
  | pass :: rest, plan =>
      match pass.run maxTraversals plan with
      | (.error e, _) => .error e
      | (.ok report, plan) => do
          let (reports, plan) ←
            runPasses maxTraversals rest plan
          return (report :: reports, plan)

/- Run the passes that the settings ask for. -/
def optimize
    (settings : Settings)
    (plan : Plan) :
    Except Failure (List WalkReport × Plan) :=
  runPasses settings.maxTraversals settings.passes plan

end Flwor
