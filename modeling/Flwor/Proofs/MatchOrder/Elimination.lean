import Flwor.Clause
import Flwor.Optimizer
import Flwor.Proofs.MatchOrder.Hiding

/-
  When the pass that lets joins give their matches in any
  order is sound.

  The pass follows names only.  Its answer can be relied on
  if the right input hides no further names, if no stage
  before the grouping counts rows or drops some by the names
  that tell them apart, and if there is a grouping at all or
  a result that reads none of them.  The functions that it
  trusts must not hand on the order of their argument.

  Key definitions include:
    * `Library.Trusts`
    * `Plan.joinDependents?`
    * `Plan.hidesOrder`

  Key theorems include:
    * `Library.trusts_standard`
    * `Plan.serves_marked`
    * `Query.evaluate_joinSortElimination`
-/

------------------------------------------------------------
-- Trusted Functions
------------------------------------------------------------

namespace Flwor

/-
  The functions of a list have one outcome on arguments with
  the same items, whatever their order.
-/
def Library.Trusts
    (library : Library)
    (trusted : OrderBlind) : Prop :=
  ∀ label f, trusted.holds label →
    library.resolve label 1 = .ok f →
      f.TreatsAlike .reordered

namespace Library

variable {library : Library}
variable {trusted : OrderBlind}

theorem Trusts.callsAlike
    (hTrusted : library.Trusts trusted)
    (t : Tree) :
    t.CallsAlike library trusted .reordered := by
  intro s _ hShields label f hLabel hFunction
  refine hTrusted label f ?_ hFunction
  simp only [Tree.shields, hLabel, Option.map_some,
    Option.getD_some, Bool.and_eq_true] at hShields
  exact hShields.2

/- A function that is the same for the same items. -/
theorem treatsAlike_unary
    {name : String}
    {apply : Sequence → Except EvaluationError Sequence}
    (hApply : ∀ s s' : Sequence, s.Perm s' →
      apply s = apply s') :
    (unary name apply).TreatsAlike .reordered := by
  rintro _ _ (hPerm | _)
  · exact congrArg Except.toOption (hApply _ _ hPerm)
  · rfl

/- The number of items does not depend on their order. -/
theorem trusts_standard :
    standard.Trusts ["count"] := by
  intro label f hHolds hFunction
  have hName : localName label = "count" := by
    simp only [OrderBlind.holds, List.any_cons, List.any_nil,
      Bool.or_false, beq_iff_eq] at hHolds
    exact hHolds.symm
  have hCount : standard.resolve label 1 =
      .ok (unary "count" countItems) := by
    rw [resolve, hName]
    rfl
  cases hFunction.symm.trans hCount
  refine treatsAlike_unary (fun s s' hPerm => ?_)
  rw [countItems, countItems, hPerm.length_eq]

end Library

end Flwor

------------------------------------------------------------
-- Joins Whose Order Is Hidden
------------------------------------------------------------

namespace Flwor

namespace Plan

/-
  The names that the pass takes for those of the right input
  of a join.
-/
def joinDependents?
    (plan : Plan)
    (join : NodeId) : Option (List String) := do
  let right ← plan.lastChild? join
  match (plan.tree right).stages.reverse with
  | _ :: first :: _ =>
      let run ← first.binding?
      return run :: (plan.tree right).stages.flatMap Tree.bound
  | _ => none

/-
  Whether the order of a join's matches can be told by names
  that the pass knows of and that get out of sight, and read
  by trusted functions only.
-/
def hidesOrder
    (plan : Plan)
    (trusted : OrderBlind)
    (join : NodeId) : Bool :=
  match plan.lastChild? join, plan.joinDependents? join with
  | some right, some names =>
      (plan.tree right).visible.all names.contains
        && plan.hidesWithin plan.size true names join
        && plan.orderMatters? trusted join = some false
  | _, _ => false

/- What the pass decides by these names. -/
theorem orderMatters?_eq
    {plan : Plan}
    {join : NodeId}
    {names : List String}
    (hNames : plan.joinDependents? join = some names)
    (blind : OrderBlind) :
    plan.orderMatters? blind join =
      some (plan.orderMattersAfter blind names
        (plan.stagesAfter join)) := by
  unfold joinDependents? at hNames
  unfold orderMatters?
  simp only [Option.bind_eq_bind, Option.bind_eq_some_iff]
    at hNames
  rcases hNames with ⟨right, hRight, hNames⟩
  rw [hRight]
  simp only [Option.bind_eq_bind, Option.bind_some]
  generalize (plan.tree right).stages.reverse = reversed
    at hNames ⊢
  rcases reversed with _ | ⟨start, _ | ⟨first, rest⟩⟩
  · cases hNames
  · cases hNames
  · simp only [Option.bind_eq_some_iff] at hNames
    rcases hNames with ⟨run, hRun, hEq⟩
    cases hEq
    simp [hRun]

end Plan

namespace Tree

@[simp] theorem dependsOn_unmark
    (names : List String)
    (t : Tree) :
    t.unmark.dependsOn names = t.dependsOn names := by
  simp [dependsOn]

@[simp] theorem blurredAfter?_unmark
    (even : Bool)
    (names : List String)
    (t : Tree) :
    t.unmark.blurredAfter? even names =
      t.blurredAfter? even names := by
  simp [blurredAfter?]

end Tree

namespace Plan

section Unmarked

variable (plan : Plan)

@[simp] theorem hidesWithin_unmark
    (steps : Nat)
    (even : Bool)
    (names : List String)
    (stage : NodeId) :
    plan.unmark.hidesWithin steps even names stage =
      plan.hidesWithin steps even names stage := by
  induction steps generalizing even names stage with
  | zero => rfl
  | succ steps ih =>
      simp only [hidesWithin, consumer, parent?_unmark,
        kind_unmark, child?_unmark, lastChild?_unmark,
        tree_unmark, Tree.dependsOn_unmark,
        Tree.blurredAfter?_unmark, ih]

/- Marks do not decide about what is hidden. -/
@[simp] theorem hidesOrder_unmark
    (trusted : OrderBlind)
    (join : NodeId) :
    plan.unmark.hidesOrder trusted join =
      plan.hidesOrder trusted join := by
  have hDependents : plan.unmark.joinDependents? join =
      plan.joinDependents? join := by
    unfold joinDependents?
    simp only [lastChild?_unmark, tree_unmark,
      Tree.stages_unmark, ← List.map_reverse,
      List.flatMap_map, Tree.bound_unmark]
    congr 1
    funext right
    rcases (plan.tree right).stages.reverse with
      _ | ⟨start, _ | ⟨first, rest⟩⟩
    · rfl
    · rfl
    · simp
  unfold hidesOrder
  rw [hDependents]
  simp only [lastChild?_unmark, tree_unmark,
    Tree.visible_unmark, hidesWithin_unmark, size_unmark,
    orderMatters?_unmark]

end Unmarked

theorem MarkedFrom.hidesOrder
    {before after : Plan}
    (hMarked : before.MarkedFrom after)
    (trusted : OrderBlind)
    (join : NodeId) :
    after.hidesOrder trusted join =
      before.hidesOrder trusted join := by
  rw [← hidesOrder_unmark, hMarked.unmark,
    hidesOrder_unmark]

end Plan

end Flwor

------------------------------------------------------------
-- A Mark
------------------------------------------------------------

namespace Flwor

namespace Plan

variable {library : Library}
variable {blind trusted : OrderBlind}
variable {plan : Plan}
variable {join : NodeId}

/- A join to be marked, in the tree of its plan. -/
theorem exists_join
    (hSound : plan.Sound)
    (hValid : plan.validate = .ok ())
    (hReach : plan.Reaches join)
    (hMark : Pass.isToBeMarked blind plan join) :
    ∃ p ps left j q qs keys right,
      .node join .join p ps
          [left, .node j .joinExpr q qs keys, right] ∈
        plan.rootTree.subtrees ∧
      ps.get? Properties.skipSort = none := by
  rcases hSound.exists_of_reaches hReach with
    ⟨⟨i, k, p, ps, cs⟩, hS, rfl⟩
  have hHere := hSound.holds_rootTree.2.1 _ hS
  simp only [Pass.isToBeMarked, hHere.kind, hHere.properties,
    Bool.and_eq_true, decide_eq_true_eq,
    Option.isNone_iff_eq_none] at hMark
  have hKind : k = .join := hMark.1.1.1
  subst hKind
  have hShaped : (Tree.node i .join p ps cs).Shaped :=
    (shaped_of_validate hValid).subtree hS
  rcases hShaped.join with
    ⟨left, j, q, qs, leftKey, rightKey, right, rfl, _⟩
  exact ⟨p, ps, left, j, q, qs, _, right, hS, hMark.1.2⟩

/- A join whose order is hidden, and the one with a mark. -/
theorem Remarks.confines_marked
    {j : NodeId}
    {k : Kind}
    {p q : Payload}
    {ps qs : Properties}
    {left right : Tree}
    {keys : List Tree}
    (hRemarks : Remarks library trusted plan join
      (.node join .join p
        (Properties.put Properties.skipSort (.flag true) ps)
        [left, .node j k q qs keys, right]))
    (hS : .node join .join p ps
        [left, .node j k q qs keys, right] ∈
      plan.rootTree.subtrees)
    (hUnmarked : ps.get? Properties.skipSort = none)
    (hHides : plan.hidesOrder trusted join) :
    plan.Confines library join (.node join .join p
      (Properties.put Properties.skipSort (.flag true) ps)
      [left, .node j k q qs keys, right]) := by
  rcases hRemarks.sound.holds_rootTree with
    ⟨hTop, hHolds, _⟩
  have hRight : plan.lastChild? join = some right.id := by
    rw [lastChild?, (hHolds _ hS).links]
    rfl
  have hTree : plan.tree right.id = right := by
    refine hHolds.tree_eq hRemarks.sound.linked hTop
      (Tree.mem_subtrees_trans (Tree.mem_subtrees_of_child ?_
        (Tree.mem_subtrees_self right)) hS)
    simp
  rw [hidesOrder, hRight] at hHides
  cases hNames : plan.joinDependents? join with
  | none =>
      rw [hNames] at hHides
      cases hHides
  | some names =>
      simp only [hNames, hTree, orderMatters?_eq hNames,
        Bool.and_eq_true, List.all_eq_true,
        decide_eq_true_eq, Option.some.injEq] at hHides
      refine hRemarks.confines_of_hidden plan.size hS rfl
        (Tree.id_mem_ids _) hHides.1.2 hHides.2
        (fun context => ?_)
      have hFlag : ps.flag Properties.skipSort = false := by
        simp [Properties.flag, hUnmarked]
      have hMarked : (Properties.put Properties.skipSort
          (.flag true) ps).flag Properties.skipSort = true := by
        simp [Properties.flag, Properties.get?_put_self]
      have hLeftJoin : (Properties.put Properties.skipSort
            (.flag true) ps).flag Properties.leftJoin =
          ps.flag Properties.leftJoin := by
        rw [Properties.flag, Properties.flag,
          Properties.get?_put_of_ne (by decide)]
      rw [Tree.mapAt_self]
      refine (Tree.blocks_join hLeftJoin hFlag hMarked).mono
        (fun _ _ hBlocks => hBlocks.mono (fun name hName => ?_))
      simpa using hHides.1.1 name hName

/-
  A mark that the pass sets has no effect, if the order of
  the matches is hidden.
-/
theorem serves_marked
    (hSound : plan.Sound)
    (hValid : plan.validate = .ok ())
    (hRoot : plan.rootTree.kind.isStage = false)
    (hProject : plan.rootTree.Lacks Properties.project)
    (hTrusted : library.Trusts trusted)
    (hReach : plan.Reaches join)
    (hMark : Pass.isToBeMarked blind plan join)
    (hHides : plan.hidesOrder trusted join) :
    let after := plan.setProperty join Properties.skipSort
      (.flag true)
    after.Sound ∧ ∀ names,
      Tree.ReadsFrom library False names plan.rootTree →
        Tree.Serves library False names plan.rootTree
          after.rootTree := by
  intro after
  rcases exists_join hSound hValid hReach hMark with
    ⟨p, ps, left, j, q, qs, keys, right, hS, hUnmarked⟩
  rcases hSound.holds_rootTree with ⟨hTop, hHolds, hNodup⟩
  let marked : Tree := .node join .join p
    (Properties.put Properties.skipSort (.flag true) ps)
    [left, .node j .joinExpr q qs keys, right]
  rcases Edit.ensures_setProperty_tree hSound hS
      Properties.skipSort (.flag true) () after rfl with
    ⟨hAfter, _, hTree⟩
  refine ⟨hAfter, ?_⟩
  have hRemarks : Remarks library trusted plan join marked := by
    refine ⟨hSound, hValid, hRoot, hTrusted.callsAlike _,
      fun r hR hId => ?_⟩
    rw [Tree.eq_of_id_eq hNodup hR hS hId]
    simp only [Tree.SameButMarks, marked, Tree.unmark,
      Properties.unmark_put]
  -- Some pipeline around the join hides its order.
  rcases hRemarks.confines_marked hS hUnmarked hHides with
    ⟨pipe, hPipe, hKind, hId, hReplaces⟩
  rw [hTree, Tree.mapAt_of_below hNodup hPipe hId]
  refine (Tree.Replaces.above (shaped_of_validate hValid)
    hProject hNodup hPipe hKind ?_ ?_ hReplaces).serves
  · rw [← hKind]
    exact (hRemarks.same hPipe).congr Tree.kind_unmark
  · exact (hRemarks.same hPipe).lacks (by decide)
      (fun r hR => hProject r (Tree.mem_subtrees_trans hR hPipe))

end Plan

end Flwor

------------------------------------------------------------
-- The Pass
------------------------------------------------------------

namespace Flwor

namespace Query

variable {library : Library}
variable {blind trusted : OrderBlind}
variable {plan after : Plan}
variable {externals : List String}
variable {query : Query}

/-
  Marks that the pass sets one after the other have no
  effect.  No mark decides about the next one, so it is
  enough to look at the plan before all of them.
-/
theorem same_evaluate_of_marks
    (hMarks : Pass.Marks blind plan after)
    (hSound : plan.Sound)
    (hValid : plan.validate = .ok ())
    (hProject : plan.rootTree.Lacks Properties.project)
    (hTrusted : library.Trusts trusted)
    (hHides : ∀ join, plan.Reaches join →
      Pass.isToBeMarked blind plan join →
        plan.hidesOrder trusted join)
    (hQuery : ofPlan library plan externals = .ok query) :
    ∃ query',
      ofPlan library after externals = .ok query' ∧
        ∀ bindings : Bindings,
          (query'.evaluate bindings).result.toOption =
            (query.evaluate bindings).result.toOption := by
  induction hMarks generalizing query with
  | refl plan => exact ⟨query, hQuery, fun _ => rfl⟩
  | @mark plan after join hReach hMark _ ih =>
      have hShaped := Plan.shaped_of_validate hValid
      have hRoot : plan.rootTree.kind.isStage = false :=
        ((Tree.scoped_of_compiled _ hProject hShaped).1
          (Layout.ofContext externals) _
            (ofPlan_eq_ok hQuery).1).isStage_eq
      rcases Plan.serves_marked hSound hValid hRoot hProject
          hTrusted hReach hMark (hHides join hReach hMark) with
        ⟨hMiddle, hServes⟩
      rcases same_evaluate hShaped hProject hServes hQuery with
        ⟨middle, hCompiled, hSame⟩
      have hMarked := Plan.markedFrom_setProperty plan join
        (.flag true)
      -- The mark decides about no join that is left.
      have hRestHides : ∀ next,
          (plan.setProperty join Properties.skipSort
            (.flag true)).Reaches next →
          Pass.isToBeMarked blind (plan.setProperty join
            Properties.skipSort (.flag true)) next →
          (plan.setProperty join Properties.skipSort
            (.flag true)).hidesOrder trusted next := by
        intro next hNext hToMark
        rw [hMarked.hidesOrder]
        exact hHides next
          (hMarked.sameLinks.reaches_iff.mp hNext)
          (Pass.isToBeMarked_of_markedFrom hMarked hToMark)
      rcases ih hMiddle (hMarked.validate hValid)
          (hMarked.rootTree.lacks (by decide) hProject)
          hRestHides hCompiled with
        ⟨query', hQuery', hRest⟩
      exact ⟨query', hQuery', fun bindings =>
        (hRest bindings).trans (hSame bindings)⟩

/-
  The elimination is sound where the order is hidden.  If
  this is so of each join that the pass marks, a run of the
  pass leaves a plan that compiles, and that fails or yields
  the same sequence with any values of the externals.
-/
theorem evaluate_joinSortElimination
    (hLinked : plan.Linked)
    (hValid : plan.validate = .ok ())
    (hProject : plan.rootTree.Lacks Properties.project)
    (hTrusted : library.Trusts trusted)
    (hHides : ∀ join ∈ plan.rootTree.ids,
      Pass.isToBeMarked blind plan join →
        plan.hidesOrder trusted join)
    (hQuery : ofPlan library plan externals = .ok query)
    (bound : Nat)
    (hBound : 0 < bound) :
    ∃ report after query',
      (Pass.joinSortElimination blind).run bound plan =
          (.ok report, after) ∧
        ofPlan library after externals = .ok query' ∧
        ∀ bindings : Bindings,
          (query'.evaluate bindings).result.toOption =
            (query.evaluate bindings).result.toOption := by
  have hSound : plan.Sound :=
    ⟨hLinked, Plan.root_lt_of_validate hValid⟩
  rcases Pass.converges_joinSortElimination blind plan with
    ⟨after, hMarks, hConverges⟩
  have hReached (join : NodeId) (hReach : plan.Reaches join) :
      join ∈ plan.rootTree.ids := by
    rcases hSound.exists_of_reaches hReach with ⟨s, hS, rfl⟩
    exact Tree.mem_ids_iff.mpr ⟨s, hS, rfl⟩
  rcases same_evaluate_of_marks hMarks hSound hValid hProject
      hTrusted (fun join hReach =>
        hHides join (hReached join hReach)) hQuery with
    ⟨query', hQuery', hSame⟩
  exact ⟨_, after, query', hConverges.succeeds bound hBound,
    hQuery', hSame⟩

/-
  The document of a pipeline over the left join of
  `for $x in 1` and `for $y in (3, 2)` on `$x < $y`, with
  what comes after the join and with a result.
-/
def matching
    (onTop : Document → Document)
    (result : Document) : Document :=
  .branch .pipeExpr
    [.branch .finish
      [onTop (.node .join .none
        [Clause.stage .forBind (.leaf .start)
          [.declaration .variable "x", .literal (.int 1)],
         .node .joinExpr (.cmp (.general .lt))
          [.reference "x", .reference "y"] [],
         Clause.stage .forBind (.leaf .start)
          [.declaration .variable "y",
           .sequence [.literal (.int 3), .literal (.int 2)]]]
        [(Properties.leftJoin, .flag true)]),
       result]]

/- The number of the matches of each value of `$x`. -/
def countedMatches : Document :=
  matching
    (fun join => Clause.stage .groupBy join
      [Clause.groupSpec "x", Clause.aggregateSpec ⟨"v", "y"⟩])
    (.call "count" [.reference "v"])

/- The plan of that number. -/
def countingPlan : Plan :=
  ((Edit.install countedMatches).run Plan.empty).2

/- The join is marked, and counts the same matches. -/
theorem evaluate_joinSortElimination_countingPlan :
    ∃ report after query',
      Plan.ofDocument countedMatches = .ok countingPlan ∧
        (Pass.joinSortElimination
          Settings.standard.orderBlind).run 64 countingPlan =
            (.ok report, after) ∧
        (after.properties 3).flag Properties.skipSort =
          true ∧
        ofPlan Library.standard after [] = .ok query' ∧
        (query'.evaluate []).result = .ok [.int 2] := by
  have hPlan : Plan.ofDocument countedMatches =
      .ok countingPlan := by
    decide +kernel
  have hLinked := Plan.linked_of_ofDocument hPlan
  have hValid : countingPlan.validate = .ok () := by
    decide +kernel
  have hProject :
      countingPlan.rootTree.Lacks Properties.project := by
    decide +kernel
  have hHides : ∀ join ∈ countingPlan.rootTree.ids,
      Pass.isToBeMarked Settings.standard.orderBlind
          countingPlan join →
        countingPlan.hidesOrder ["count"] join := by
    decide +kernel
  have hCompiles : (ofPlan Library.standard countingPlan
      []).toOption.isSome := by
    decide +kernel
  rcases Option.isSome_iff_exists.mp hCompiles with
    ⟨query, hQuery⟩
  rw [except_toOption_eq_some_iff] at hQuery
  have hItems : (query.evaluate []).result.toOption =
      some [.int 2] := by
    rw [toOption_evaluate (Plan.shaped_of_validate hValid)
      hProject hQuery (by simp)]
    decide +kernel
  rcases evaluate_joinSortElimination hLinked hValid hProject
      Library.trusts_standard hHides hQuery 64 (by decide) with
    ⟨report, after, query', hRun, hQuery', hSame⟩
  have hMarked : (((Pass.joinSortElimination
      Settings.standard.orderBlind).run 64
        countingPlan).2.properties 3).flag
          Properties.skipSort = true := by
    decide +kernel
  rw [hRun] at hMarked
  refine ⟨report, after, query', hPlan, hRun, hMarked,
    hQuery', ?_⟩
  rw [← except_toOption_eq_some_iff, hSame, hItems]

/- The plan that returns the matches themselves. -/
def unhiddenPlan : Plan :=
  ((Edit.install (matching id (.reference "y"))).run
    Plan.empty).2

/- What the pass makes of it. -/
def reorderedPlan : Plan :=
  ((Pass.joinSortElimination
    Settings.standard.orderBlind).run 64 unhiddenPlan).2

/-
  Without a grouping the pass takes the order for hidden,
  whatever the result reads.
-/
theorem joinSortElimination_unhiddenPlan :
    ∃ query query',
      Plan.ofDocument (matching id (.reference "y")) =
          .ok unhiddenPlan ∧
        ofPlan Library.standard unhiddenPlan [] =
          .ok query ∧
        ofPlan Library.standard reorderedPlan [] =
          .ok query' ∧
        (query.evaluate []).result = .ok [.int 3, .int 2] ∧
        (query'.evaluate []).result =
          .ok [.int 2, .int 3] := by
  have hPlan :
      Plan.ofDocument (matching id (.reference "y")) =
        .ok unhiddenPlan := by
    decide +kernel
  have hCompiles : (ofPlan Library.standard unhiddenPlan
      []).toOption.isSome := by
    decide +kernel
  have hCompiles' : (ofPlan Library.standard reorderedPlan
      []).toOption.isSome := by
    decide +kernel
  rcases Option.isSome_iff_exists.mp hCompiles with
    ⟨query, hQuery⟩
  rcases Option.isSome_iff_exists.mp hCompiles' with
    ⟨query', hQuery'⟩
  rw [except_toOption_eq_some_iff] at hQuery hQuery'
  refine ⟨query, query', hPlan, hQuery, hQuery', ?_, ?_⟩
  · rw [← except_toOption_eq_some_iff,
      toOption_evaluate (Plan.shaped_of_validate
        (by decide +kernel)) (by decide +kernel) hQuery
        (by simp)]
    decide +kernel
  · rw [← except_toOption_eq_some_iff,
      toOption_evaluate (Plan.shaped_of_validate
        (by decide +kernel)) (by decide +kernel) hQuery'
        (by simp)]
    cbv

end Query

end Flwor
