import Flwor.Proofs.Regroupings.Groups

/-
  No regrouping is lost.

  A plan is unnested, bindings are moved, and the regroupings
  that are pending are emitted, each time up to a fixpoint.
  Then none is left, and each left join that was made of a
  `let` comes to a grouping that collects for its variable.
  The grouping is keyed on all that is visible in the left
  input of the join, the number of the row included.

  Key definitions include:
    * `Plan.GroupedBy`
    * `Pass.JoinsLet`

  Key theorems include:
    * `Plan.Orderly.lacks_of_still`
    * `Pass.regroupings_emitted`
-/

------------------------------------------------------------
-- Fixpoints of the Emission
------------------------------------------------------------

namespace Flwor

namespace Plan

/-
  The next stage after another one is a binding that is
  guarded by a check.
-/
def GuardedBy
    (plan : Plan)
    (stage next : NodeId) : Prop :=
  plan.consumer stage = .ok (.stage next) ∧
    plan.kind next = .letBind ∧ plan.isChecked next

/- After such bindings only, a stage comes to a grouping. -/
def GroupedBy
    (plan : Plan)
    (stage group : NodeId) : Prop :=
  ∃ last, Relation.ReflTransGen plan.GuardedBy stage last ∧
    plan.consumer last = .ok (.stage group) ∧
      plan.kind group = .groupBy

end Plan

namespace Pass

open Plan

/-
  A step of unnesting at a `let` of a variable makes a join
  that was not in the plan before.
-/
structure JoinsLet
    (plan : Plan)
    (stage : NodeId)
    (target : String)
    (join : NodeId)
    (after : Plan) : Prop where
  reach : plan.Reaches stage
  kind : plan.kind stage = .letBind
  binding : (plan.tree stage).binding? = some target
  run : (unnest.transform stage).run plan =
    (.ok true, after)
  old : ¬ plan.Reaches join
  new : after.Reaches join
  kind_join : after.kind join = .join

end Pass

namespace Plan

open Pass

variable {plan : Plan}
variable {j c : NodeId}
variable {q : Payload}
variable {ps qs : Properties}
variable {target source number : String}
variable {cs : List Tree}
variable {s t : Tree}

/- A join with nothing pending in its left input is emitted. -/
theorem Sound.ensures_regroupJoin
    (hSound : plan.Sound)
    (hJoin : .node j .join q qs cs ∈ plan.rootTree.subtrees)
    (hLeft : qs.flag Properties.leftJoin)
    (hVars : qs.vars? Properties.regroup =
      some [target, source])
    (hDone : ∀ left, cs[0]? = some left →
      left.Lacks Properties.regroup) :
    (regroupJoin j).Ensures plan
      (fun done _ => done = true) := by
  have hHere := hSound.holds_rootTree.2.1 _ hJoin
  have hKind : plan.kind j = .join := hHere.kind
  have hProperties : plan.properties j = qs :=
    hHere.properties
  refine Edit.ensures_get_bind ?_
  dsimp only
  rw [hKind, hProperties, if_neg (by simp [hLeft]), hVars,
    hSound.map_tree_child? hJoin 0]
  dsimp only
  split
  · next hPending =>
    rcases cs with _ | ⟨left, more⟩
    · cases hPending
    -- Nothing is pending in the left input.
    rcases List.any_eq_true.mp hPending with ⟨s, hS, hJoin⟩
    rw [Tree.isPendingJoin, hDone left rfl s hS] at hJoin
    simp at hJoin
  · have hEmit : (emitGroup j target source).Ensures plan
        (fun _ _ => True) := fun _ _ _ => trivial
    exact hEmit.bind (fun _ _ _ => Edit.ensures_return rfl)

/- Where nothing changes any more no regrouping is pending. -/
theorem Orderly.lacks_of_still
    (hOrderly : plan.Orderly)
    (hStill : ∀ id, plan.Reaches id →
      groupEmission.Still plan id) :
    plan.rootTree.Lacks Properties.regroup := by
  have hSound := hOrderly.straight.sound
  have hAll (t : Tree) (hT : t ∈ plan.rootTree.subtrees) :
      t.Lacks Properties.regroup := by
    induction t using Tree.induction with
    | node i k p ps cs ih =>
        have hParts (c : Tree) (hC : c ∈ cs) :
            c.Lacks Properties.regroup :=
          ih c hC (Tree.mem_subtrees_trans
            (Tree.mem_subtrees_of_child hC
              (Tree.mem_subtrees_self c)) hT)
        refine Tree.lacks_node ?_ hParts
        by_contra hPending
        have hTidy := hOrderly.tidy _ hT
        cases hTidy.join hPending
        rcases hTidy.named hPending with
          ⟨target, source, hVars⟩
        have hDone := hSound.ensures_regroupJoin hT
          (hTidy.left hPending) hVars
          (fun left hC => hParts left
            (List.mem_of_getElem? hC)) false plan
          (hStill i (hSound.reaches_of_subtree hT))
        cases hDone
  exact hAll _ (Tree.mem_subtrees_self _)

/- A grouping of a tree is one of the arena. -/
theorem Sound.groupedBy_of_groups
    (hSound : plan.Sound)
    (hT : t ∈ plan.rootTree.subtrees)
    (hGroups : Tree.Groups j target source c number t) :
    plan.GroupedBy j t.id ∧
      plan.child? j 0 = some c ∧
      (plan.tree t.id).groupAggregates = [(target, source)] ∧
      (∀ name ∈ plan.visible c,
        name ∈ (plan.tree t.id).groupKeys) ∧
      number ∈ (plan.tree t.id).groupKeys := by
  rcases hSound.holds_rootTree with ⟨hTop, hHolds, _⟩
  rcases hGroups with
    @⟨g, q, qs, top, left, more, specs, keys, hTops, _, _,
      ⟨rfl, hCount, hNumber⟩, hKeys, hSpecs⟩
  have hTopMem : top ∈ plan.rootTree.subtrees :=
    Tree.mem_subtrees_trans (Tree.mem_subtrees_of_child
      List.mem_cons_self (Tree.mem_subtrees_self top)) hT
  have hJoin := Tree.mem_subtrees_trans hTops.mem_subtrees
    hTopMem
  have hLeft : left ∈ plan.rootTree.subtrees :=
    Tree.mem_subtrees_trans (Tree.mem_subtrees_of_child
      List.mem_cons_self (Tree.mem_subtrees_self left)) hJoin
  have hTree := hHolds.tree_eq hSound.linked hTop hT
  have hVisible : plan.visible left.id = left.visible :=
    congrArg Tree.visible
      (hHolds.tree_eq hSound.linked hTop hLeft)
  have hAll : (plan.tree (Tree.node g .groupBy .none []
      (top :: specs)).id).groupKeys = keys := by
    rw [hTree]
    exact hSpecs.keys_eq g top
  refine ⟨⟨top.id, ?_, ?_, (hHolds _ hT).kind⟩, ?_, ?_, ?_,
    ?_⟩
  · cases hTops with
    | bare => exact .refl
    | @guarded i p ps rest hCheck =>
        have hGuard := hHolds _ hTopMem
        refine .single ⟨hSound.consumer_of_head hTopMem rfl
          rfl (by simp), hGuard.kind, ?_⟩
        rw [isChecked, hGuard.properties]
        exact Option.isSome_iff_ne_none.mpr hCheck
  · exact hSound.consumer_of_head hT rfl rfl (by simp)
  · rw [child?, (hHolds _ hJoin).links]
    rfl
  · rw [hTree]
    exact hSpecs.aggregates_eq g top
  · rw [hAll, hVisible]
    exact hKeys
  · rw [hAll]
    refine hKeys number ?_
    rcases left with ⟨i, k, p, ps, cs⟩
    cases hCount
    simp [Tree.visible, Tree.bound, hNumber]

/- The left input of a join that waits numbers the rows. -/
theorem Sound.child?_of_awaiting
    (hSound : plan.Sound)
    (hLabel : .awaiting j target source c number ∈
      plan.rootTree.labels) :
    plan.child? j 0 = some c ∧ plan.kind c = .count ∧
      (plan.tree c).binding? = some number := by
  rcases hSound.holds_rootTree with ⟨hTop, hHolds, _⟩
  rcases hLabel with ⟨_, s, hS, hEq⟩
  rcases Label.exists_of_awaiting hEq with
    ⟨left, hHead, rfl, hCount, hNumber⟩
  have hId : s.id = j := congrArg Label.id hEq
  have hLeft : left ∈ plan.rootTree.subtrees :=
    Tree.mem_subtrees_trans (Tree.mem_subtrees_of_child
      (List.mem_of_head? hHead)
      (Tree.mem_subtrees_self left)) hS
  refine ⟨?_, (hHolds left hLeft).kind.trans hCount, ?_⟩
  · rw [child?, ← hId, (hHolds s hS).children,
      List.getElem?_map, ← List.head?_eq_getElem?, hHead]
    rfl
  · rw [hHolds.tree_eq hSound.linked hTop hLeft]
    exact hNumber

/- A join that still waited would be pending. -/
theorem Orderly.exists_groups
    (hOrderly : plan.Orderly)
    (hLacks : plan.rootTree.Lacks Properties.regroup)
    (hAnswers : plan.Answers j target source c number)
    (hReach : plan.Reaches j) :
    ∃ t ∈ plan.rootTree.subtrees,
      Tree.Groups j target source c number t := by
  refine hAnswers.resolve_left (fun hAwaits => ?_)
  have hSound := hOrderly.straight.sound
  rcases hSound.exists_of_reaches hReach with ⟨s, hS, hId⟩
  have hKind : s.kind = .join := by
    rw [← (hSound.holds_rootTree.2.1 s hS).kind, hId]
    exact hAwaits.kind
  have hEq := hAwaits.only s.label ⟨.inl hKind, s, hS, rfl⟩
    hKind hId
  have hNone := hLacks s hS
  rw [show s.properties = _ from
    congrArg Label.properties hEq] at hNone
  cases hNone

end Plan

end Flwor

------------------------------------------------------------
-- The Hand-Off
------------------------------------------------------------

namespace Flwor

namespace Pass

open Plan

variable {plan unnested lifted emitted : Plan}

/-
  After all three passes have succeeded, no regrouping is
  pending on a node that is reached.  Each join that a step
  of unnesting has made of a `let`, and that unnesting has
  left in the plan, comes to a grouping after guarded
  bindings only.  It collects for the variable of the `let`,
  by all that is visible in the left input of the join and
  the number that the rows there have had from the start.
-/
theorem regroupings_emitted
    {first second third : Nat}
    {report report' report'' : WalkReport}
    (hLinked : plan.Linked)
    (hValid : plan.validate = .ok ())
    (hPlain : plan.Plain)
    (hUnnest : unnest.run first plan =
      (.ok report, unnested))
    (hLift : letLift.run second unnested =
      (.ok report', lifted))
    (hEmit : groupEmission.run third lifted =
      (.ok report'', emitted)) :
    Relation.ReflTransGen unnest.Changes plan unnested ∧
      (∀ id, emitted.Reaches id →
        (emitted.properties id).get? Properties.regroup =
          none) ∧
      ∀ middle stage target join next,
        Relation.ReflTransGen unnest.Changes plan middle →
        JoinsLet middle stage target join next →
        Relation.ReflTransGen unnest.Changes next unnested →
        unnested.Reaches join →
          ∃ source count number group,
            (next.child? join 0 = some count ∧
              next.kind count = .count ∧
              (next.tree count).binding? = some number) ∧
            emitted.GroupedBy join group ∧
            emitted.child? join 0 = some count ∧
            (emitted.tree group).groupAggregates =
              [(target, source)] ∧
            (∀ name ∈ emitted.visible count,
              name ∈ (emitted.tree group).groupKeys) ∧
            number ∈ (emitted.tree group).groupKeys := by
  have hStart : plan.Orderly :=
    .of_validate hLinked hValid hPlain
  have hOrdered (plan : Plan) (hOrderly : plan.Orderly) :=
    hOrderly.straight.sound.linked
  have hToUnnested := (preserves_unnest_orderly.of_run
    hOrdered hStart hUnnest).changes
  have hUnnested := preserves_unnest_orderly.of_sequence
    hStart hToUnnested
  have hToLifted := (preserves_letLift_orderly.of_run
    hOrdered hUnnested hLift).changes
  have hLifted := preserves_letLift_orderly.of_sequence
    hUnnested hToLifted
  have hToEmitted := preserves_groupEmission_orderly.of_run
    hOrdered hLifted hEmit
  have hEmitted := preserves_groupEmission_orderly.of_sequence
    hLifted hToEmitted.changes
  have hSound := hEmitted.straight.sound
  have hLacks := hEmitted.lacks_of_still hToEmitted.still
  refine ⟨hToUnnested, fun id hReach => ?_, ?_⟩
  · rcases hSound.exists_of_reaches hReach with ⟨s, hS, rfl⟩
    rw [(hSound.holds_rootTree.2.1 s hS).properties]
    exact hLacks s hS
  intro middle stage target join next hToMiddle hJoins hToEnd
    hReach
  have hMiddle := preserves_unnest_orderly.of_sequence hStart
    hToMiddle
  have hNext := preserves_unnest_orderly.of_changes hMiddle
    ⟨stage, hJoins.reach, hJoins.run⟩
  rcases awaits_of_unnested hMiddle hJoins.reach hJoins.kind
      hJoins.binding hJoins.run hJoins.old hJoins.new
      hJoins.kind_join with
    ⟨source, count, number, hLabel, hAwaits⟩
  have hInput := hNext.straight.sound.child?_of_awaiting hLabel
  have hAwaits := ((preserves_unnest _).of_sequence
    ⟨hNext, hAwaits⟩ hToEnd).2
  rcases (preserves_letLift _).of_sequence
      ⟨hUnnested, hAwaits, hReach⟩ hToLifted with
    ⟨_, hAwaits, hReach⟩
  rcases (preserves_groupEmission join target source count
      number).of_sequence ⟨hLifted, .inl hAwaits, hReach⟩
      hToEmitted.changes with ⟨_, hAnswers, hReach⟩
  rcases hEmitted.exists_groups hLacks hAnswers hReach with
    ⟨t, hT, hGroups⟩
  rcases hSound.groupedBy_of_groups hT hGroups with
    ⟨hGrouped, hChild, hAggregates, hKeys, hNumber⟩
  exact ⟨source, count, number, t.id, hInput, hGrouped, hChild,
    hAggregates, hKeys, hNumber⟩

/- The nested loop as a left join, and with its grouping. -/
def waitingPlan : Plan :=
  ((unnest.transform 2).run Plan.nestedPlan).2

def answeredPlan : Plan :=
  (groupEmission.run 2 waitingPlan).2

/- The join of a nested loop is grouped by both variables. -/
theorem regroupings_emitted_nestedPlan :
    (∀ id, answeredPlan.Reaches id →
      (answeredPlan.properties id).get? Properties.regroup =
        none) ∧
      ∃ source number group,
        answeredPlan.GroupedBy 23 group ∧
          (answeredPlan.tree group).groupAggregates =
            [("y", source)] ∧
          "x" ∈ (answeredPlan.tree group).groupKeys ∧
          number ∈ (answeredPlan.tree group).groupKeys := by
  have hPlan : Plan.ofDocument Plan.nestedLoop =
      .ok Plan.nestedPlan := by
    decide +kernel
  have hLinked := Plan.linked_of_ofDocument hPlan
  have hValid : Plan.nestedPlan.validate = .ok () := by
    decide +kernel
  have hPlain : Plan.nestedPlan.Plain :=
    ⟨by decide +kernel, by decide +kernel, by decide +kernel⟩
  have hUnnest : unnest.run 2 Plan.nestedPlan =
      (.ok ⟨"unnest", 2, true⟩, waitingPlan) := by
    decide +kernel
  have hLift : letLift.run 1 waitingPlan =
      (.ok ⟨"let-lift", 1, false⟩, waitingPlan) := by
    decide +kernel
  have hEmit : groupEmission.run 2 waitingPlan =
      (.ok ⟨"group-emission", 2, true⟩, answeredPlan) := by
    decide +kernel
  have hEnd : 1 ∈ Plan.nestedPlan.children
      Plan.nestedPlan.root := by
    decide +kernel
  have hStage : 2 ∈ Plan.nestedPlan.children 1 := by
    decide +kernel
  have hNewEnd : 1 ∈ waitingPlan.children waitingPlan.root := by
    decide +kernel
  have hJoin : 23 ∈ waitingPlan.children 1 := by
    decide +kernel
  have hReach : waitingPlan.Reaches 23 :=
    (Plan.Reaches.root.child hNewEnd).child hJoin
  have hSound : Plan.nestedPlan.Sound :=
    ⟨hLinked, root_lt_of_validate hValid⟩
  have hIds : 23 ∉ Plan.nestedPlan.rootTree.ids := by
    decide +kernel
  have hOld : ¬ Plan.nestedPlan.Reaches 23 := by
    intro hOldReach
    rcases hSound.exists_of_reaches hOldReach with
      ⟨s, hS, hId⟩
    exact hIds (Tree.mem_ids_iff.mpr ⟨s, hS, hId⟩)
  have hJoins : JoinsLet Plan.nestedPlan 2 "y" 23
      waitingPlan := {
    reach := (Plan.Reaches.root.child hEnd).child hStage
    kind := by decide +kernel
    binding := by decide +kernel
    run := by decide +kernel
    old := hOld
    new := hReach
    kind_join := by decide +kernel }
  rcases regroupings_emitted hLinked hValid hPlain hUnnest
      hLift hEmit with ⟨_, hNone, hAll⟩
  rcases hAll _ _ _ _ _ .refl hJoins .refl hReach with
    ⟨source, count, number, group, _, hGrouped, hCount,
      hAggregates, hKeys, hNumber⟩
  have hCounted : answeredPlan.child? 23 0 = some 21 := by
    decide +kernel
  cases hCount.symm.trans hCounted
  have hVisible : "x" ∈ answeredPlan.visible 21 := by
    decide +kernel
  exact ⟨hNone, source, number, group, hGrouped, hAggregates,
    hKeys _ hVisible, hNumber⟩

end Pass

end Flwor
