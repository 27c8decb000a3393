import Mathlib
import Flwor.Proofs.Compilation
import Flwor.Proofs.Liveness.Coverage
import Flwor.Proofs.Liveness.Walks

/-
  Projection keeps the results of a plan in which every
  wanted name comes from where the analysis looks for it.

  Where a name comes from elsewhere, projection can change a
  result.  A plan is given that no longer compiles because a
  grouping drops a variable that hides another one.

  Key definitions include:
    * `Tree.IsTraced`
    * `Plan.noted`

  Key theorems include:
    * `Plan.rootTree_annotate`
    * `Plan.exists_annotated`
    * `Query.evaluate_project`
-/

------------------------------------------------------------
-- Annotated Plans
------------------------------------------------------------

namespace Flwor

namespace Properties

/- The later annotation wins. -/
theorem put_put
    (key : String)
    (first second : Property)
    (ps : Properties) :
    put key second (put key first ps) = put key second ps := by
  induction ps with
  | nil => simp [put]
  | cons entry rest ih =>
      rcases entry with ⟨k, v⟩
      by_cases hKey : k = key
      · simp [put, hKey]
      · by_cases hLess : key < k
        · simp [put, hKey, hLess]
        · simp [put, hKey, hLess, ih]

end Properties

namespace Plan

/- The last names that a stage is annotated with. -/
def lastNote :
    List Annotation → NodeId → Option (List String)
  | [], _ => none
  | a :: rest, id =>
      (lastNote rest id).or
        (if a.stage = id then some a.names else none)

/- The annotations of nodes that a plan has. -/
def noted
    (plan : Plan)
    (annotations : List Annotation) : Notes :=
  fun id =>
    if id < plan.size then lastNote annotations id else none

theorem lastNote_eq_some
    {annotations : List Annotation}
    {id : NodeId}
    {names : List String}
    (hNote : lastNote annotations id = some names) :
    ∃ a ∈ annotations, a.stage = id ∧ a.names = names := by
  induction annotations with
  | nil => cases hNote
  | cons a rest ih =>
      rw [lastNote] at hNote
      cases hRest : lastNote rest id with
      | some others =>
          rw [hRest] at hNote
          cases hNote
          rcases ih hRest with ⟨b, hB, hBoth⟩
          exact ⟨b, List.mem_cons_of_mem a hB, hBoth⟩
      | none =>
          rw [hRest, Option.none_or] at hNote
          split at hNote
          · rename_i hStage
            cases hNote
            exact ⟨a, List.mem_cons_self, hStage, rfl⟩
          · cases hNote

theorem exists_lastNote
    {annotations : List Annotation}
    {a : Annotation}
    (hA : a ∈ annotations) :
    ∃ names, lastNote annotations a.stage = some names := by
  induction annotations with
  | nil => cases hA
  | cons b rest ih =>
      cases hRest : lastNote rest a.stage with
      | some names => exact ⟨names, by simp [lastNote, hRest]⟩
      | none =>
          rcases List.mem_cons.mp hA with rfl | hA
          · exact ⟨a.names, by simp [lastNote, hRest]⟩
          · rcases ih hA with ⟨names, hNames⟩
            rw [hNames] at hRest
            cases hRest

theorem node_setProperty
    (plan : Plan)
    (stage id : NodeId)
    (value : Property) :
    (plan.setProperty stage Properties.project value).node
        id =
      if stage = id ∧ id < plan.size then
        { plan.node id with
          properties := Properties.put Properties.project
            value (plan.properties id) }
      else plan.node id := by
  unfold setProperty modify node properties size
  simp only [Array.getD_eq_getD_getElem?,
    Array.getElem?_modify]
  by_cases hStage : stage = id
  · subst hStage
    by_cases hSize : stage < plan.nodes.size
    · simp [hSize, node]
    · simp [hSize]
  · simp [hStage]

theorem size_setProperty
    (plan : Plan)
    (stage : NodeId)
    (key : String)
    (value : Property) :
    (plan.setProperty stage key value).size = plan.size := by
  simp [setProperty, modify, size]

theorem size_annotate
    (plan : Plan)
    (annotations : List Annotation) :
    (plan.annotate annotations).size = plan.size := by
  induction annotations generalizing plan with
  | nil => rfl
  | cons a rest ih =>
      have hRest := ih (plan.setProperty a.stage
        Properties.project (.vars a.names))
      rw [size_setProperty] at hRest
      exact hRest

/- Annotations change nothing but properties. -/
theorem node_annotate
    (plan : Plan)
    (annotations : List Annotation)
    (id : NodeId) :
    (plan.annotate annotations).node id =
      { plan.node id with
        properties := (plan.properties id).annotate
          (plan.noted annotations id) } := by
  induction annotations generalizing plan with
  | nil =>
      simp [annotate, noted, lastNote, properties,
        Properties.annotate]
  | cons a rest ih =>
      have hRest := ih (plan.setProperty a.stage
        Properties.project (.vars a.names))
      rw [annotate, List.foldl_cons]
      rw [annotate] at hRest
      rw [hRest]
      simp only [properties, noted, size_setProperty,
        node_setProperty, lastNote]
      by_cases hSize : id < plan.size
      · by_cases hStage : a.stage = id
        · cases lastNote rest id <;>
            simp [hSize, hStage, Properties.annotate,
              Properties.put_put]
        · simp [hSize, hStage]
      · simp [hSize]

theorem treeWithin_annotate
    (plan : Plan)
    (annotations : List Annotation)
    (depth : Nat)
    (id : NodeId) :
    (plan.annotate annotations).treeWithin depth id =
      (plan.treeWithin depth id).annotate
        (plan.noted annotations) := by
  induction depth generalizing id with
  | zero =>
      simp [treeWithin, Tree.annotate, Tree.annotateAll,
        kind, payload, properties, node_annotate]
  | succ depth ih =>
      simp [treeWithin, Tree.annotate, Tree.annotateAll_eq,
        kind, payload, properties, children, node_annotate,
        ih]

theorem rootTree_annotate
    (plan : Plan)
    (annotations : List Annotation) :
    (plan.annotate annotations).rootTree =
      plan.rootTree.annotate (plan.noted annotations) := by
  have hRoot : (plan.annotate annotations).root =
      plan.root := by
    induction annotations generalizing plan with
    | nil => rfl
    | cons a rest ih =>
        exact ih (plan.setProperty a.stage
          Properties.project (.vars a.names))
  rw [rootTree, tree, hRoot, size_annotate,
    treeWithin_annotate]
  rfl

end Plan

end Flwor

------------------------------------------------------------
-- Nodes of Valid Plans
------------------------------------------------------------

namespace Flwor

namespace Tree

mutual

/- Each index is that of a subtree. -/
theorem exists_subtree_of_mem_ids :
    ∀ {t : Tree} {id : NodeId}, id ∈ t.ids →
      ∃ s ∈ t.subtrees, s.id = id
  | .node i k p ps cs, id, hId => by
      rw [ids, List.mem_cons] at hId
      rcases hId with rfl | hId
      · exact ⟨_, mem_subtrees_self _, rfl⟩
      · rcases exists_subtree_of_mem_idsAll hId with
          ⟨s, hS, hEq⟩
        refine ⟨s, ?_, hEq⟩
        rw [subtrees]
        exact List.mem_cons_of_mem _ hS

theorem exists_subtree_of_mem_idsAll :
    ∀ {ts : List Tree} {id : NodeId}, id ∈ idsAll ts →
      ∃ s ∈ subtreesAll ts, s.id = id
  | [], id, hId => by
      rw [idsAll] at hId
      cases hId
  | t :: ts, id, hId => by
      rw [idsAll, List.mem_append] at hId
      rw [subtreesAll]
      rcases hId with hId | hId
      · rcases exists_subtree_of_mem_ids hId with
          ⟨s, hS, hEq⟩
        exact ⟨s, List.mem_append_left _ hS, hEq⟩
      · rcases exists_subtree_of_mem_idsAll hId with
          ⟨s, hS, hEq⟩
        exact ⟨s, List.mem_append_right _ hS, hEq⟩

end

end Tree

namespace Plan

/- A subtree has the kind and some children of its node. -/
theorem node_of_mem_subtrees
    (plan : Plan)
    (depth : Nat)
    (id : NodeId)
    {s : Tree}
    (hS : s ∈ (plan.treeWithin depth id).subtrees) :
    s.kind = plan.kind s.id ∧
      s.children.length ≤ (plan.children s.id).length := by
  induction depth generalizing id with
  | zero =>
      rw [treeWithin, Tree.subtrees, Tree.subtreesAll,
        List.mem_singleton] at hS
      subst hS
      simp [Tree.kind, Tree.id, Tree.children]
  | succ depth ih =>
      rw [treeWithin, Tree.subtrees, List.mem_cons] at hS
      rcases hS with rfl | hS
      · simp [Tree.kind, Tree.id, Tree.children]
      · rw [Tree.mem_subtreesAll_iff] at hS
        rcases hS with ⟨t, hT, hS⟩
        rcases List.mem_map.mp hT with ⟨c, _, rfl⟩
        exact ih c hS

/- A valid plan has all of its nodes in its arena. -/
theorem lt_size_of_shaped
    {plan : Plan}
    (hShaped : plan.rootTree.Shaped)
    {id : NodeId}
    (hId : id ∈ plan.rootTree.ids) :
    id < plan.size := by
  by_contra hSize
  rcases Tree.exists_subtree_of_mem_ids hId with ⟨s, hS, hEq⟩
  rcases node_of_mem_subtrees plan _ _ hS with
    ⟨hKind, hLength⟩
  have hNode : plan.node s.id = default := by
    unfold node
    rw [hEq, Array.getD_eq_getD_getElem?,
      Array.getElem?_eq_none (by simpa [size] using hSize)]
    rfl
  rw [kind, hNode] at hKind
  rw [children, hNode] at hLength
  rcases hShaped s hS with ⟨place, hRule⟩
  rcases s with ⟨i, k, p, ps, cs⟩
  have hPipe : k = .pipeExpr := hKind
  have hChildren : cs = [] :=
    List.eq_nil_of_length_eq_zero (Nat.le_zero.mp hLength)
  subst hPipe
  subst hChildren
  cases hRule

end Plan

end Flwor

------------------------------------------------------------
-- Projection
------------------------------------------------------------

namespace Flwor

namespace Tree

/-
  After every stage, wanted names come from where the
  analysis looks for them.
-/
def IsTraced
    (t : Tree) : Prop :=
  ∀ s demand, t.ExprDemands s demand → s.Traced demand

end Tree

namespace Plan

/-
  The projection of a valid plan succeeds, and it annotates
  every stage with the names that are wanted from it.
-/
theorem exists_annotated
    {plan : Plan}
    (hShaped : plan.rootTree.Shaped)
    (hNodup : plan.rootTree.ids.Nodup) :
    ∃ annotations,
      plan.project =
          (.ok annotations.length,
            plan.annotate annotations) ∧
        ∀ s demand, plan.rootTree.ExprDemands s demand →
          (plan.noted annotations).Records s.id demand := by
  rcases Tree.does_outermost hShaped with ⟨names, hDoes⟩
  rcases hDoes ⟨[], []⟩ with
    ⟨looked, annotations, _, hNoted, hEnds⟩
  refine ⟨annotations, ?_, fun s demand hDemand => ?_⟩
  · have hAfter : (AnalysisState.after ⟨[], []⟩ looked
        annotations).annotations = annotations := by
      simp [AnalysisState.after, ScopeStack.isCommitted]
    rw [project]
    rw [Analysis.Ends] at hEnds
    rw [hEnds]
    simp only [hAfter]
    rfl
  · have hDemands : plan.rootTree.exprDemands s.id demand :=
      ⟨s, rfl, hDemand⟩
    rcases hNoted.complete s.id demand hDemands with
      ⟨a, hA, hStage⟩
    rcases exists_lastNote hA with ⟨found, hFound⟩
    rcases lastNote_eq_some hFound with
      ⟨b, hB, hSame, rfl⟩
    refine ⟨b.names, ?_, ?_⟩
    · rw [noted, if_pos (lt_size_of_shaped hShaped
        (hNoted.mem_ids hDemands)), ← hStage]
      exact hFound
    · refine hNoted.right hNodup b hB demand ?_
      rw [hSame, hStage]
      exact hDemands

end Plan

namespace Query

/- A query whose root compiles is made. -/
theorem exists_ofPlan
    {library : Library}
    {plan : Plan}
    {externals : List String}
    {e : Expr}
    (hCompile : Compile.expr library plan.rootTree
      (Layout.ofContext externals) = .ok e) :
    ∃ query, ofPlan library plan externals = .ok query := by
  have hRoot : ∃ compiled,
      compileRoot library plan.rootTree externals =
        .ok compiled := by
    rcases hTree : plan.rootTree with ⟨i, k, p, ps, cs⟩
    rw [hTree] at hCompile
    rw [compileRoot]
    by_cases hPipe : k = .pipeExpr
    · subst hPipe
      simp only [Compile.expr, except_bind_eq_ok_iff]
        at hCompile
      rcases hCompile with ⟨⟨tail, result⟩, hPipeline, _⟩
      simp only [Tree.kind, if_true, Tree.children,
        hPipeline]
      exact ⟨_, rfl⟩
    · simp only [Tree.kind, if_neg hPipe, hCompile]
      exact ⟨_, rfl⟩
  rcases hRoot with ⟨⟨root, explain⟩, hRoot⟩
  rw [ofPlan, hRoot]
  exact ⟨_, rfl⟩

/- Where there is a result, all externals are bound. -/
theorem isSome_lookup_of_evaluate
    {query : Query}
    {bindings : Bindings}
    {items : Sequence}
    (hEvaluate : (query.evaluate bindings).result = .ok items) :
    ∀ name ∈ query.externals,
      (bindings.lookup name).isSome := by
  have hValue : (query.evaluate bindings).value? =
      some items := by
    rw [Answer.value?, hEvaluate]
    rfl
  rw [evaluate, Answer.value?_bind,
    Answer.value?_ofExcept] at hValue
  cases hRow : contextRow query.externals bindings with
  | error e =>
      rw [hRow] at hValue
      cases hValue
  | ok row =>
      rw [contextRow, except_mapM_eq_ok_iff] at hRow
      intro name hName
      rcases List.mem_iff_getElem.mp hName with
        ⟨n, hN, rfl⟩
      rcases List.forall₂_iff_get.mp hRow with
        ⟨hLength, hEach⟩
      have hLookup := hEach n hN (by omega)
      simp only [List.get_eq_getElem] at hLookup
      cases hFound : bindings.lookup query.externals[n] with
      | some value => rfl
      | none =>
          rw [hFound] at hLookup
          cases hLookup

/-
  Projection keeps results.  A plan in which every wanted
  name comes from where the analysis looks for it compiles
  after its projection, and it evaluates to what it evaluated
  to before.
-/
theorem evaluate_project
    {library : Library}
    {plan : Plan}
    {externals : List String}
    {query : Query}
    {bindings : Bindings}
    {items : Sequence}
    (hValid : plan.validate = .ok ())
    (hNodup : plan.rootTree.ids.Nodup)
    (hLacks : plan.rootTree.Lacks Properties.project)
    (hTraced : plan.rootTree.IsTraced)
    (hQuery : ofPlan library plan externals = .ok query)
    (hEvaluate :
      (query.evaluate bindings).result = .ok items) :
    ∃ count projected after,
      plan.project = (.ok count, projected) ∧
        ofPlan library projected externals = .ok after ∧
          (after.evaluate bindings).result = .ok items := by
  have hShaped := Plan.shaped_of_validate hValid
  rcases ofPlan_eq_ok hQuery with ⟨hCompile, hExternals⟩
  have hBound := isSome_lookup_of_evaluate hEvaluate
  rw [hExternals] at hBound
  rcases Plan.exists_annotated hShaped hNodup with
    ⟨annotations, hProject, hRecords⟩
  -- The annotated tree follows the scoping rules.
  have hReads : Tree.ReadsFrom library True
      {n | n ∈ externals}
      (plan.annotate annotations).rootTree := by
    rw [Plan.rootTree_annotate]
    have hScoped := (Tree.scoped_of_compiled _ hLacks
      hShaped).1 (Layout.ofContext externals) _ hCompile
    exact (Tree.covered plan.rootTree hShaped).1 _ _ hScoped
      (fun s demand hDemand =>
        ⟨hRecords s demand hDemand,
          hTraced s demand hDemand⟩)
      (fun name _ hName => hName)
  rcases hReads.simulated (Layout.ofContext externals)
      (fun _ hName => hName) with ⟨e, hExpr, _⟩
  rcases exists_ofPlan hExpr with ⟨after, hAfter⟩
  refine ⟨annotations.length, plan.annotate annotations,
    after, hProject, hAfter, ?_⟩
  -- Its value is the meaning of the plan, which is the same.
  have hMeaning : plan.rootTree.value library
      (Env.ofBindings externals bindings) = some items := by
    rw [← toOption_evaluate hShaped hLacks hQuery hBound,
      hEvaluate]
    rfl
  have hRefines := refines_evaluate hReads hAfter hBound
  rw [Plan.rootTree_annotate, Tree.value_annotate] at hRefines
  exact except_toOption_eq_some_iff.mp
    (hRefines.eq_some hMeaning)

end Query

end Flwor

------------------------------------------------------------
-- Traced Trees
------------------------------------------------------------

namespace Flwor

namespace Tree

/- The same, for a stage and what comes before it. -/
def StageTraced
    (wanted : Set String)
    (t : Tree) : Prop :=
  ∀ s demand, t.StageDemands wanted s demand →
    s.Traced demand

variable {i : NodeId}
variable {k : Kind}
variable {p : Payload}
variable {ps : Properties}
variable {cs : List Tree}

theorem isTraced_of_plain
    (hOperands : k.hasOperands = false)
    (hPipe : k ≠ .pipeExpr) :
    IsTraced (.node i k p ps cs) := by
  intro s demand hDemand
  have hSome := (exprDemands_of_plain hPipe
    ⟨s, rfl, hDemand⟩).1
  rw [hOperands] at hSome
  cases hSome

theorem isTraced_pipe
    {j : NodeId}
    {q : Payload}
    {qs : Properties}
    {tail result : Tree}
    (hTail : StageTraced result.reads tail)
    (hResult : result.IsTraced) :
    IsTraced (.node i .pipeExpr p ps
      [.node j .finish q qs [tail, result]]) := by
  intro s demand hDemand
  cases hDemand with
  | operand hKind _ _ => cases hKind
  | tail hBelow =>
      rw [readsAt] at hBelow
      exact hTail s demand hBelow
  | result hFirst hBelow =>
      cases hFirst
      exact hResult s demand hBelow

theorem stageTraced_start
    {wanted : Set String} :
    StageTraced wanted (.node i .start p ps cs) := by
  intro s demand hDemand
  cases hDemand with
  | self => trivial
  | input hKind _ => cases hKind
  | own hOwn _ => exact hOwn.elim

theorem stageTraced_input
    {wanted : Set String}
    {source : Tree}
    {rest : List Tree}
    (hKind : k.hasInput)
    (hSelf : Traced wanted (.node i k p ps (source :: rest)))
    (hSource : StageTraced
      (wants (.node i k p ps (source :: rest)) wanted) source)
    (hOwn : ∀ c,
      Evaluates wanted (.node i k p ps (source :: rest)) c →
        c.IsTraced) :
    StageTraced wanted (.node i k p ps (source :: rest)) := by
  intro s demand hDemand
  cases hDemand with
  | self => exact hSelf
  | input _ hBelow => exact hSource s demand hBelow
  | own hC hBelow => exact hOwn _ hC s demand hBelow
  | left _ => cases hKind
  | right _ => cases hKind
  | joinKey _ _ => cases hKind

end Tree

end Flwor

------------------------------------------------------------
-- Groupings That Drop a Variable
------------------------------------------------------------

namespace Flwor

namespace Query

/-
  The plan that binds `$x`, sorts its only row, and then
  evaluates a pipeline that groups the values of a variable
  and returns `$x`:
  `let $x := 5 order by 1 return
    (for $v in 1 let $y := 1 group by $y return $x)`.
-/
def groupingPlan
    (var : String) : Plan where
  nodes := #[
    ⟨.pipeExpr, .none, none, [1], []⟩,
    ⟨.finish, .none, some 0, [2, 9], []⟩,
    ⟨.orderBy, .none, some 1, [3, 7], []⟩,
    ⟨.letBind, .none, some 2, [4, 5, 6], []⟩,
    ⟨.start, .none, some 3, [], []⟩,
    ⟨.variable, .var "x", some 3, [], []⟩,
    ⟨.literal, .int 5, some 3, [], []⟩,
    ⟨.orderSpec, .order .ascending, some 2, [8], []⟩,
    ⟨.literal, .int 1, some 7, [], []⟩,
    ⟨.pipeExpr, .none, some 1, [10], []⟩,
    ⟨.finish, .none, some 9, [11, 21], []⟩,
    ⟨.groupBy, .none, some 10, [12, 19], []⟩,
    ⟨.letBind, .none, some 11, [13, 17, 18], []⟩,
    ⟨.forBind, .none, some 12, [14, 15, 16], []⟩,
    ⟨.start, .none, some 13, [], []⟩,
    ⟨.variable, .var var, some 13, [], []⟩,
    ⟨.literal, .int 1, some 13, [], []⟩,
    ⟨.variable, .var "y", some 12, [], []⟩,
    ⟨.literal, .int 1, some 12, [], []⟩,
    ⟨.groupSpec, .none, some 11, [20], []⟩,
    ⟨.variableRef, .var "y", some 19, [], []⟩,
    ⟨.variableRef, .var "x", some 10, [], []⟩]
  root := 0
  counter := 0

theorem isTraced_groupingPlan :
    (groupingPlan "v").rootTree.IsTraced := by
  have hPlain (i : NodeId) (p : Payload)
      (ps : Properties) (cs : List Tree) :
      Tree.IsTraced (.node i .literal p ps cs) :=
    Tree.isTraced_of_plain rfl (by simp)
  refine Tree.isTraced_pipe
    (Tree.stageTraced_input rfl trivial
      (Tree.stageTraced_input rfl trivial
        Tree.stageTraced_start ?_) ?_)
    (Tree.isTraced_pipe
      (Tree.stageTraced_input rfl ?_
        (Tree.stageTraced_input rfl trivial
          (Tree.stageTraced_input rfl trivial
            Tree.stageTraced_start ?_) ?_) ?_)
      (Tree.isTraced_of_plain rfl (by decide)))
  · rintro c ⟨_, hC⟩
    cases hC
    exact hPlain _ _ _ _
  · rintro c ⟨spec, hSpec, hC⟩
    cases hSpec with
    | head =>
        cases hC
        exact hPlain _ _ _ _
    | tail _ hSpec => cases hSpec
  · intro name hName hBound
    have hX : name = "x" := by
      cases hName
      rfl
    subst hX
    refine .inl ⟨.inl ⟨.inl ⟨hName, hBound⟩, ?_⟩, ?_⟩
    · decide
    · decide
  · intro c hC
    cases hC
    exact hPlain _ _ _ _
  · rintro c ⟨_, hC⟩
    cases hC
    exact hPlain _ _ _ _
  · exact fun c hC => hC.elim

/- A grouping that drops a variable of its own name. -/
theorem evaluate_project_groupingPlan :
    ∃ count projected after,
      (groupingPlan "v").project = (.ok count, projected) ∧
        ofPlan Library.standard projected [] = .ok after ∧
          (after.evaluate []).result = .ok [.int 5] := by
  have hCompiles : ∃ query,
      ofPlan Library.standard (groupingPlan "v") [] =
        .ok query :=
    ⟨_, rfl⟩
  rcases hCompiles with ⟨query, hQuery⟩
  have hEvaluate :
      (query.evaluate []).result.toOption =
        some [.int 5] := by
    rw [toOption_evaluate (Plan.shaped_of_validate rfl)
      (by decide) hQuery (by simp)]
    cbv
  rw [except_toOption_eq_some_iff] at hEvaluate
  exact evaluate_project rfl (by decide) (by decide)
    isTraced_groupingPlan hQuery hEvaluate

/-
  A grouping that drops a variable which hides the one that
  is read after it: the plan does not compile any more.
-/
theorem project_groupingPlan_capturing :
    ∃ query,
      (groupingPlan "x").validate = .ok () ∧
        (groupingPlan "x").rootTree.ids.Nodup ∧
        (groupingPlan "x").rootTree.Lacks
          Properties.project ∧
        ofPlan Library.standard (groupingPlan "x") [] =
          .ok query ∧
        (query.evaluate []).result.toOption =
          some [.int 5] ∧
        ofPlan Library.standard (groupingPlan "x").project.2
            [] =
          .error (.evaluation (.undefinedVariable "x")) := by
  have hCompiles : ∃ query,
      ofPlan Library.standard (groupingPlan "x") [] =
        .ok query :=
    ⟨_, rfl⟩
  rcases hCompiles with ⟨query, hQuery⟩
  refine ⟨query, rfl, by decide, by decide, hQuery, ?_, rfl⟩
  rw [toOption_evaluate (Plan.shaped_of_validate rfl)
    (by decide) hQuery (by simp)]
  cbv

end Query

end Flwor
