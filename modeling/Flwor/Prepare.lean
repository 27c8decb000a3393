import Flwor.Liveness.Analysis
import Flwor.Optimizer
import Flwor.Query
import Flwor.Validity

/-
  This file defines the way from a plan to an executable
  query: the passes, the annotation of live bindings, and the
  compilation.

  Key definitions include:
    * `Prepared`
    * `Plan.prepare`
-/

------------------------------------------------------------
-- Preparation
------------------------------------------------------------

namespace Flwor

/-
  A plan after its passes, with their reports, the number of
  stages annotated, and the executable query.
-/
structure Prepared where
  plan : Plan
  reports : List WalkReport
  projected : Nat
  query : Query

namespace Plan

/- Annotate live bindings where the settings ask for it. -/
def projectIf
    (plan : Plan)
    (wanted : Bool) : Except Failure (Nat × Plan) :=
  if wanted then
    let (result, projected) := plan.project
    result.map (fun count => (count, projected))
  else .ok (0, plan)

/- Prepare a plan whose caller supplies the externals. -/
def prepare
    (plan : Plan)
    (settings : Settings)
    (library : Library)
    (externals : List String) :
    Except Failure Prepared := do
  let (reports, optimized) ← optimize settings plan
  optimized.validate
  let (projected, final) ←
    optimized.projectIf settings.projection
  let query ← Query.ofPlan library final externals
  return { plan := final, reports, projected, query }

end Plan

end Flwor
