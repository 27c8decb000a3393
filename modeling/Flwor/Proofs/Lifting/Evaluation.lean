import Flwor.Clause
import Flwor.Prepare
import Flwor.Proofs.Convergence.Fixpoints
import Flwor.Proofs.Lifting.Moves

/-
  Plans evaluate alike before and after bindings are moved.

  A run of the pass keeps what a plan returns if each binding
  in an expression is the only one of its name, which is no
  external, and if no left join pads its rows: the pass looks
  at none of this.  It may still come to fail, since a value
  is computed before a loop, even if that has no rows.

  Key definitions include:
    * `Plan.Narrows`
    * `Plan.Movable`

  Key theorems include:
    * `Pass.preserves_movable`
    * `Query.evaluate_letLift`
-/

------------------------------------------------------------
-- Plans That Return No More
------------------------------------------------------------

namespace Flwor

namespace Plan

variable {library : Library}
variable {externals : List String}
variable {plan middle after : Plan}

/-
  One plan compiles if another one does, and the sequence
  that it returns is then what the other one returns.
-/
def Narrows
    (library : Library)
    (externals : List String)
    (plan after : Plan) : Prop :=
  ∀ query, Query.ofPlan library plan externals = .ok query →
    ∃ query',
      Query.ofPlan library after externals = .ok query' ∧
        ∀ (bindings : Bindings) (items : Sequence),
          (query'.evaluate bindings).result = .ok items →
            (query.evaluate bindings).result = .ok items

theorem Narrows.refl
    (plan : Plan) :
    plan.Narrows library externals plan :=
  fun query hQuery => ⟨query, hQuery, fun _ _ h => h⟩

theorem Narrows.trans
    (hFirst : plan.Narrows library externals middle)
    (hSecond : middle.Narrows library externals after) :
    plan.Narrows library externals after := by
  intro query hQuery
  rcases hFirst query hQuery with ⟨next, hNext, hFirst⟩
  rcases hSecond next hNext with ⟨last, hLast, hSecond⟩
  exact ⟨last, hLast, fun bindings items hItems =>
    hFirst bindings items (hSecond bindings items hItems)⟩

/- A tree that serves instead of another one narrows it. -/
theorem narrows_of_serves
    (hShaped : plan.rootTree.Shaped)
    (hLacks : plan.rootTree.Lacks Properties.project)
    (hServes :
      Tree.ReadsFrom library False {n | n ∈ externals}
        plan.rootTree →
        Tree.Serves library .onlyRight {n | n ∈ externals}
          plan.rootTree after.rootTree) :
    plan.Narrows library externals after := by
  intro query hQuery
  rcases Query.meets_evaluate hShaped hLacks hServes hQuery with
    ⟨query', hQuery', hMeets⟩
  refine ⟨query', hQuery', fun bindings items hItems => ?_⟩
  have hBound := Query.isSome_lookup_of_evaluate hItems
  rw [(Query.ofPlan_eq_ok hQuery').2] at hBound
  rcases (hMeets bindings hBound).exists_of_onlyRight
      (except_toOption_eq_some_iff.mpr hItems) with
    ⟨_, hBefore, rfl⟩
  exact except_toOption_eq_some_iff.mp hBefore

end Plan

end Flwor

------------------------------------------------------------
-- The Pass
------------------------------------------------------------

namespace Flwor

/- A plan in which all bindings are safe to move. -/
structure Plan.Movable
    (externals : List String)
    (plan : Plan) : Prop where
  wellFormed : plan.WellFormed
  lacks : plan.rootTree.Lacks Properties.project
  liftable : plan.rootTree.Liftable externals

variable {externals : List String}
variable {plan after : Plan}

namespace Plan.Movable

variable (hMovable : plan.Movable externals)

include hMovable

theorem sound :
    plan.Sound :=
  ⟨hMovable.wellFormed.linked, hMovable.wellFormed.root_lt⟩

theorem straight :
    plan.Straight :=
  ⟨hMovable.sound,
    shaped_of_validate hMovable.wellFormed.validate⟩

/- A binding is moved: all are as safe, and nothing is new. -/
theorem lifted
    (library : Library)
    (hSwaps : Pass.LiftedTo plan true after)
    (hFormed : after.WellFormed) :
    after.Movable externals ∧
      plan.Narrows library externals after := by
  have hSound := hMovable.sound
  have hValid := hMovable.wellFormed.validate
  rcases hSwaps.swapped rfl with
    ⟨s, u, hS, ⟨hLifted, _⟩, _, hTree⟩
  have hLacks : u.Lacks Properties.project :=
    hLifted.lacks (fun r hR =>
      hMovable.lacks r (Tree.mem_subtrees_trans hR hS))
  refine ⟨⟨hFormed, ?_, ?_⟩, narrows_of_serves
    hMovable.straight.shaped hMovable.lacks ?_⟩
  · rw [hTree]
    exact Tree.lacks_mapAt hMovable.lacks
      (fun _ _ _ => hLacks)
  · rw [hTree]
    exact (hSound.settles_lifted hValid hS hLifted).liftable
      hMovable.liftable
  · rw [hTree]
    exact hSound.serves_lifted library hValid hMovable.lacks
      hMovable.liftable hS hLifted

end Plan.Movable

namespace Pass

/- One visit of a node keeps all bindings safe. -/
theorem preserves_movable
    (library : Library)
    (start : Plan) :
    letLift.Preserves (fun plan => plan.Movable externals ∧
      start.Narrows library externals plan) := by
  rintro plan bind ⟨hMovable, hNarrows⟩ hReach
  have hBoth := (achieves_lifted hMovable.straight
    hReach).and (keeps_letLift plan bind hMovable.wellFormed
      hReach)
  refine Edit.Achieves.ensures (hBoth.mono ?_)
  rintro done after ⟨hSwaps, hRewritten⟩
  refine ⟨hSwaps.kept, ?_⟩
  rintro rfl
  rcases hMovable.lifted library hSwaps hRewritten.wellFormed
    with ⟨hAfter, hStep⟩
  exact ⟨hAfter, hNarrows.trans hStep⟩

end Pass

end Flwor

------------------------------------------------------------
-- Evaluation
------------------------------------------------------------

namespace Flwor

namespace Query

variable {library : Library}
variable {externals : List String}
variable {plan : Plan}
variable {query : Query}

/-
  Moving bindings is sound where it is safe.  If each binding
  in an expression is the only one of its name, which is no
  external, and no left join pads its rows, then the pass
  reaches its fixpoint, the plan there compiles, and with any
  values of the externals it fails or returns what the plan
  before returns.
-/
theorem evaluate_letLift
    (hLinked : plan.Linked)
    (hValid : plan.validate = .ok ())
    (hReturns : plan.rootTree.ReturnsNoStage)
    (hProject : plan.rootTree.Lacks Properties.project)
    (hLiftable : plan.rootTree.Liftable externals)
    (hQuery : ofPlan library plan externals = .ok query) :
    ∃ changes after query',
      Pass.letLift.Converges plan changes after ∧
        ofPlan library after externals = .ok query' ∧
        ∀ (bindings : Bindings) (items : Sequence),
          (query'.evaluate bindings).result = .ok items →
            (query.evaluate bindings).result = .ok items := by
  have hMovable : plan.Movable externals :=
    ⟨Plan.wellFormed_of_validate hLinked hValid hReturns,
      hProject, hLiftable⟩
  have hRoot : plan.rootTree.kind.isStage = false := hReturns.1
  rw [Plan.rootTree, Plan.tree, Plan.kind_treeWithin] at hRoot
  rcases Pass.descends_letLift.converges_within
      (Plan.upright_of_validate hLinked hValid hRoot) with
    ⟨changes, after, hConverges, _⟩
  have hReaches := (Pass.preserves_movable library plan).of_run
    (fun _ h => h.1.wellFormed.linked)
    ⟨hMovable, .refl plan⟩
    (hConverges.succeeds (changes + 1) (Nat.lt_succ_self _))
  have hAfter := (Pass.preserves_movable library
    plan).of_sequence ⟨hMovable, .refl plan⟩ hReaches.changes
  rcases hAfter.2 query hQuery with ⟨query', hQuery', hSame⟩
  exact ⟨changes, after, query', hConverges, hQuery', hSame⟩

/-
  The document of two loops, over `(1, 2)` and `(3, 4)`, a
  binding of `$w` to the item of the first, and a result in
  which a pipeline binds `$v` to `7` and returns `($v, $w)`.
-/
def boundInside : Document :=
  .branch .pipeExpr
    [.branch .finish
      [Clause.stage .letBind
        (Clause.stage .forBind
          (Clause.stage .forBind (.leaf .start)
            [.declaration .variable "x",
             .sequence [.literal (.int 1), .literal (.int 2)]])
          [.declaration .variable "y",
           .sequence [.literal (.int 3), .literal (.int 4)]])
        [.declaration .variable "w", .reference "x"],
       .branch .pipeExpr
         [.branch .finish
           [Clause.stage .letBind (.leaf .start)
             [.declaration .variable "v", .literal (.int 7)],
            .sequence [.reference "v", .reference "w"]]]]]

/- The plan of these loops. -/
def boundInsidePlan : Plan :=
  ((Edit.install boundInside).run Plan.empty).2

/- What the pass makes of it. -/
def boundBeforePlan : Plan :=
  (Pass.letLift.run 64 boundInsidePlan).2

/- `$w` hops a loop, and `$v` leaves its pipeline and both. -/
theorem evaluate_letLift_boundInsidePlan :
    ∃ query query',
      Plan.ofDocument boundInside = .ok boundInsidePlan ∧
        Pass.letLift.run 64 boundInsidePlan =
          (.ok ⟨"let-lift", 4, true⟩, boundBeforePlan) ∧
        ofPlan Library.standard boundInsidePlan [] =
          .ok query ∧
        ofPlan Library.standard boundBeforePlan [] =
          .ok query' ∧
        (query'.evaluate []).result =
          .ok [.int 7, .int 1, .int 7, .int 1,
            .int 7, .int 2, .int 7, .int 2] ∧
        (query.evaluate []).result =
          .ok [.int 7, .int 1, .int 7, .int 1,
            .int 7, .int 2, .int 7, .int 2] := by
  have hPlan :
      Plan.ofDocument boundInside = .ok boundInsidePlan := by
    decide +kernel
  have hLinked := Plan.linked_of_ofDocument hPlan
  have hValid : boundInsidePlan.validate = .ok () := by
    decide +kernel
  have hReturns : boundInsidePlan.rootTree.ReturnsNoStage := by
    decide +kernel
  have hProject :
      boundInsidePlan.rootTree.Lacks Properties.project := by
    decide +kernel
  have hLiftable : boundInsidePlan.rootTree.Liftable [] := by
    decide +kernel
  have hCompiles : (ofPlan Library.standard boundInsidePlan
      []).toOption.isSome := by
    decide +kernel
  rcases Option.isSome_iff_exists.mp hCompiles with
    ⟨query, hQuery⟩
  rw [except_toOption_eq_some_iff] at hQuery
  have hReport : (Pass.letLift.run 64 boundInsidePlan).1 =
      .ok ⟨"let-lift", 4, true⟩ := by
    decide +kernel
  have hRun : Pass.letLift.run 64 boundInsidePlan =
      (.ok ⟨"let-lift", 4, true⟩, boundBeforePlan) := by
    rw [boundBeforePlan, ← hReport]
  rcases evaluate_letLift hLinked hValid hReturns hProject
      hLiftable hQuery with
    ⟨changes, after, query', hConverges, hQuery', hSame⟩
  have hAfter : boundBeforePlan = after := by
    rcases lt_or_ge changes 64 with hLt | hGe
    · rw [boundBeforePlan, hConverges.succeeds 64 hLt]
    · cases hReport.symm.trans (hConverges.fails 64 hGe)
  subst hAfter
  have hItems : (query'.evaluate []).result =
      .ok [.int 7, .int 1, .int 7, .int 1,
        .int 7, .int 2, .int 7, .int 2] := by
    rw [← except_toOption_eq_some_iff,
      toOption_evaluate (Plan.shaped_of_validate
        (by decide +kernel)) (by decide +kernel) hQuery'
        (by simp)]
    decide +kernel
  exact ⟨query, query', hPlan, hRun, hQuery, hQuery', hItems,
    hSame [] _ hItems⟩

/-
  The document of a loop over `(1, 2)` whose result returns
  `($v, 0)` for the row of a left join that matches nothing;
  the right input binds `$v`.
-/
def boundRight : Document :=
  .branch .pipeExpr
    [.branch .finish
      [Clause.stage .forBind (.leaf .start)
        [.declaration .variable "x",
         .sequence [.literal (.int 1), .literal (.int 2)]],
       .branch .pipeExpr
         [.branch .finish
           [.node .join .none
             [Clause.stage .forBind (.leaf .start)
               [.declaration .variable "a",
                .literal (.int 1)],
              .node .joinExpr (.cmp (.general .eq))
                [.literal (.int 1), .literal (.int 2)] [],
              Clause.stage .forBind
                (Clause.stage .letBind (.leaf .start)
                  [.declaration .variable "v",
                   .literal (.int 7)])
                [.declaration .variable "b",
                 .literal (.int 1)]]
             [(Properties.leftJoin, .flag true)],
            .sequence [.reference "v", .literal (.int 0)]]]]]

/- The plan of this loop. -/
def boundRightPlan : Plan :=
  ((Edit.install boundRight).run Plan.empty).2

/- What the pass makes of it. -/
def boundOutsidePlan : Plan :=
  (Pass.letLift.run 64 boundRightPlan).2

/- Outside of the join the padded rows see what was bound. -/
theorem letLift_boundRightPlan :
    ∃ query query',
      Plan.ofDocument boundRight = .ok boundRightPlan ∧
        boundRightPlan.validate = .ok () ∧
        (∀ key ∈ [Properties.check, Properties.project,
            Properties.regroup, Properties.skipSort],
          boundRightPlan.rootTree.Lacks key) ∧
        Pass.letLift.run 64 boundRightPlan =
          (.ok ⟨"let-lift", 3, true⟩, boundOutsidePlan) ∧
        ofPlan Library.standard boundRightPlan [] =
          .ok query ∧
        ofPlan Library.standard boundOutsidePlan [] =
          .ok query' ∧
        (query.evaluate []).result = .ok [.int 0, .int 0] ∧
        (query'.evaluate []).result =
          .ok [.int 7, .int 0, .int 7, .int 0] := by
  have hPlan :
      Plan.ofDocument boundRight = .ok boundRightPlan := by
    decide +kernel
  have hValid : boundRightPlan.validate = .ok () := by
    decide +kernel
  have hBare : ∀ key ∈ [Properties.check, Properties.project,
      Properties.regroup, Properties.skipSort],
        boundRightPlan.rootTree.Lacks key := by
    decide +kernel
  have hReport : (Pass.letLift.run 64 boundRightPlan).1 =
      .ok ⟨"let-lift", 3, true⟩ := by
    decide +kernel
  have hRun : Pass.letLift.run 64 boundRightPlan =
      (.ok ⟨"let-lift", 3, true⟩, boundOutsidePlan) := by
    rw [boundOutsidePlan, ← hReport]
  have hCompiles : (ofPlan Library.standard boundRightPlan
      []).toOption.isSome := by
    decide +kernel
  have hCompiles' : (ofPlan Library.standard boundOutsidePlan
      []).toOption.isSome := by
    decide +kernel
  rcases Option.isSome_iff_exists.mp hCompiles with
    ⟨query, hQuery⟩
  rcases Option.isSome_iff_exists.mp hCompiles' with
    ⟨query', hQuery'⟩
  rw [except_toOption_eq_some_iff] at hQuery hQuery'
  refine ⟨query, query', hPlan, hValid, hBare, hRun, hQuery,
    hQuery', ?_, ?_⟩
  · rw [← except_toOption_eq_some_iff,
      toOption_evaluate (Plan.shaped_of_validate hValid)
        (hBare _ (by simp)) hQuery (by simp)]
    decide +kernel
  · rw [← except_toOption_eq_some_iff,
      toOption_evaluate (Plan.shaped_of_validate
        (by decide +kernel)) (by decide +kernel) hQuery'
        (by simp)]
    decide +kernel

/-
  The document of a loop over nothing, whose body binds `$c`
  to `1 idiv 0` and returns it.
-/
def boundNever : Document :=
  .branch .pipeExpr
    [.branch .finish
      [Clause.stage .letBind
        (Clause.stage .forBind (.leaf .start)
          [.declaration .variable "x", .emptySequence])
        [.declaration .variable "c",
         .arithmetic .idiv (.literal (.int 1))
           (.literal (.int 0))],
       .reference "c"]]

/- The plan of this loop. -/
def boundNeverPlan : Plan :=
  ((Edit.install boundNever).run Plan.empty).2

/- Before the loop the division is evaluated, and fails. -/
theorem prepare_boundNeverPlan :
    ∃ prepared prepared' : Prepared,
      Plan.ofDocument boundNever = .ok boundNeverPlan ∧
        boundNeverPlan.validate = .ok () ∧
        (∀ s ∈ boundNeverPlan.rootTree.subtrees,
          s.properties = []) ∧
        boundNeverPlan.prepare
            { Settings.standard with unnest := false }
            Library.standard [] = .ok prepared ∧
        boundNeverPlan.prepare
            { Settings.standard with unnest := true }
            Library.standard [] = .ok prepared' ∧
        (prepared.query.evaluate []).result = .ok [] ∧
        (prepared'.query.evaluate []).result =
          .error (.evaluation .divisionByZero) := by
  have hPlan :
      Plan.ofDocument boundNever = .ok boundNeverPlan := by
    decide +kernel
  have hValid : boundNeverPlan.validate = .ok () := by
    decide +kernel
  have hBare : ∀ s ∈ boundNeverPlan.rootTree.subtrees,
      s.properties = [] := by
    decide +kernel
  have hGuarded : ((boundNeverPlan.prepare
      { Settings.standard with unnest := false }
      Library.standard []).map (fun prepared =>
        (prepared.query.evaluate []).result)).toOption =
          some (.ok []) := by
    decide +kernel
  have hLifted : ((boundNeverPlan.prepare
      { Settings.standard with unnest := true }
      Library.standard []).map (fun prepared =>
        (prepared.query.evaluate []).result)).toOption =
          some (.error (.evaluation .divisionByZero)) := by
    decide +kernel
  rw [except_toOption_eq_some_iff] at hGuarded hLifted
  rcases except_map_eq_ok_iff.mp hGuarded with
    ⟨prepared, hPrepared, hResult⟩
  rcases except_map_eq_ok_iff.mp hLifted with
    ⟨prepared', hPrepared', hResult'⟩
  exact ⟨prepared, prepared', hPlan, hValid, hBare, hPrepared,
    hPrepared', hResult, hResult'⟩

end Query

end Flwor
