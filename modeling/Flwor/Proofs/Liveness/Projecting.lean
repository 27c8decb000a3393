import Flwor.Proofs.Liveness.Marking
import Flwor.Proofs.Projection

/-
  Projection annotates each live stage of a plan once, and
  changes nothing else.

  The names of a projection are written into the plan after
  the walk.  As no stage is annotated twice, what is written
  is what the walk has noted.

  Key definitions include:
    * `Plan.AnnotatedAt`

  Key theorems include:
    * `Plan.annotatedAt_annotate`
    * `Plan.project_annotates_live`
-/

------------------------------------------------------------
-- Annotated Nodes
------------------------------------------------------------

namespace Flwor

namespace Plan

/-
  A plan in which some nodes are annotated with projections,
  and which is as before otherwise.
-/
structure AnnotatedAt
    (before : Plan)
    (stages : List NodeId)
    (after : Plan) : Prop where
  size : after.size = before.size
  root : after.root = before.root
  counter : after.counter = before.counter
  node :
    ∀ id, after.node id =
      { before.node id with
        properties := after.properties id }
  property :
    ∀ id key, key ≠ Properties.project →
      (after.properties id).get? key =
        (before.properties id).get? key
  annotated :
    ∀ id ∈ stages, ∃ names,
      (after.properties id).vars? Properties.project =
        some names
  other :
    ∀ id, id ∉ stages → after.node id = before.node id

theorem root_annotate
    (plan : Plan)
    (annotations : List Annotation) :
    (plan.annotate annotations).root = plan.root ∧
      (plan.annotate annotations).counter =
        plan.counter := by
  induction annotations generalizing plan with
  | nil => exact ⟨rfl, rfl⟩
  | cons a rest ih =>
      exact ih (plan.setProperty a.stage
        Properties.project (.vars a.names))

theorem lastNote_of_not_mem
    {annotations : List Annotation}
    {id : NodeId}
    (hId : id ∉ annotations.map Annotation.stage) :
    lastNote annotations id = none := by
  cases hNote : lastNote annotations id with
  | none => rfl
  | some names =>
      rcases lastNote_eq_some hNote with ⟨a, hA, rfl, _⟩
      exact (hId (List.mem_map_of_mem hA)).elim

/- Where no stage is annotated twice, all notes are last. -/
theorem agrees_lastNote
    {annotations : List Annotation}
    (hNodup : (annotations.map Annotation.stage).Nodup) :
    Notes.Agrees (lastNote annotations) annotations := by
  intro a hA
  rcases exists_lastNote hA with ⟨names, hNames⟩
  rcases lastNote_eq_some hNames with ⟨b, hB, hStage, rfl⟩
  rw [hNames, List.inj_on_of_nodup_map hNodup hB hA hStage]

/- Annotations of nodes of a plan are made there. -/
theorem annotatedAt_annotate
    {plan : Plan}
    {annotations : List Annotation}
    (hSize : ∀ a ∈ annotations, a.stage < plan.size) :
    plan.AnnotatedAt (annotations.map Annotation.stage)
      (plan.annotate annotations) := by
  have hProperties (id : NodeId) :
      (plan.annotate annotations).properties id =
        (plan.properties id).annotate
          (plan.noted annotations id) := by
    rw [properties, node_annotate]
  have hRoot := root_annotate plan annotations
  refine ⟨size_annotate plan annotations, hRoot.1, hRoot.2,
    fun id => ?_, fun id key hKey => ?_, fun id hId => ?_,
    fun id hId => ?_⟩
  · rw [hProperties, node_annotate]
  · rw [hProperties, Properties.get?_annotate hKey]
  · rcases List.mem_map.mp hId with ⟨a, hA, rfl⟩
    rcases exists_lastNote hA with ⟨names, hNames⟩
    refine ⟨names, ?_⟩
    rw [hProperties, noted, if_pos (hSize a hA), hNames,
      Properties.vars?_annotate]
  · rw [node_annotate, noted, lastNote_of_not_mem hId, ite_self]
    rfl

end Plan

end Flwor

------------------------------------------------------------
-- Projection
------------------------------------------------------------

namespace Flwor

namespace Plan

/-
  Projection annotates each live stage of a valid plan once:
  each stage that is reached, but for those in the expression
  of a `let` whose annotation lacks its variable.  It counts
  these stages, and changes nothing else, whatever has been
  annotated before.

  As in any plan that operations make, no node occurs twice
  in the tree (`Sound.holds_rootTree`).
-/
theorem project_annotates_live
    {plan : Plan}
    (hValid : plan.validate = .ok ())
    (hNodup : plan.rootTree.ids.Nodup)
    (hCompiled : plan.rootTree.kind.isCompiled)
    (hSlots : plan.rootTree.KeepsSlots) :
    ∃ stages projected,
      plan.project = (.ok stages.length, projected) ∧
        stages.Nodup ∧
        (∀ id, id ∈ stages ↔
          projected.rootTree.IsLive id) ∧
        plan.AnnotatedAt stages projected := by
  have hShaped := shaped_of_validate hValid
  rcases Tree.makes_outermost _ hShaped hSlots hCompiled
      ⟨[], []⟩ with
    ⟨_, annotations, ending, hMarks, hAdds, hEnds⟩
  have hAnnotations : ending.annotations = annotations := by
    simpa [ScopeStack.isCommitted] using hAdds.annotations
  have hInside {id : NodeId}
      (hId : id ∈ annotations.map Annotation.stage) :
      id ∈ plan.rootTree.ids := by
    have hCount := List.count_pos_iff.mpr hId
    exact List.count_pos_iff.mp
      (Nat.lt_of_lt_of_le hCount (hMarks.inside id))
  have hOnce : (annotations.map Annotation.stage).Nodup := by
    rw [List.nodup_iff_count_le_one] at hNodup ⊢
    exact fun id => (hMarks.inside id).trans (hNodup id)
  have hSize (a : Annotation) (hA : a ∈ annotations) :
      a.stage < plan.size :=
    lt_size_of_shaped hShaped
      (hInside (List.mem_map_of_mem hA))
  have hAgrees :
      Notes.Agrees (plan.noted annotations) annotations := by
    intro a hA
    rw [noted, if_pos (hSize a hA)]
    exact agrees_lastNote hOnce a hA
  refine ⟨annotations.map Annotation.stage,
    plan.annotate annotations, ?_, hOnce, fun id => ?_,
    annotatedAt_annotate hSize⟩
  · rw [List.length_map, project]
    rw [Analysis.Ends] at hEnds
    rw [hEnds]
    simp only [hAnnotations]
    rfl
  · rw [rootTree_annotate, ← Tree.mem_liveStages_iff
      (by rwa [Tree.ids_annotate])]
    exact (hMarks.stages _ hAgrees).mem_iff

/-
  The plan that joins two loops and binds two pipelines, of
  which it returns one:
  `for $a in 1 join (for $b in 1) on $a = $b
    let $kept := (for $c in 2 return $c)
    let $dropped := (for $d in 3 return $d)
    return $kept`.
-/
def droppingPlan : Plan where
  nodes := #[
    ⟨.pipeExpr, .none, none, [1], []⟩,
    ⟨.finish, .none, some 0, [2, 32], []⟩,
    ⟨.letBind, .none, some 1, [3, 24, 25], []⟩,
    ⟨.letBind, .none, some 2, [4, 16, 17], []⟩,
    ⟨.join, .none, some 3, [5, 9, 12], []⟩,
    ⟨.forBind, .none, some 4, [6, 7, 8], []⟩,
    ⟨.start, .none, some 5, [], []⟩,
    ⟨.variable, .var "a", some 5, [], []⟩,
    ⟨.literal, .int 1, some 5, [], []⟩,
    ⟨.joinExpr, .cmp (.general .eq), some 4, [10, 11],
      []⟩,
    ⟨.variableRef, .var "a", some 9, [], []⟩,
    ⟨.variableRef, .var "b", some 9, [], []⟩,
    ⟨.forBind, .none, some 4, [13, 14, 15], []⟩,
    ⟨.start, .none, some 12, [], []⟩,
    ⟨.variable, .var "b", some 12, [], []⟩,
    ⟨.literal, .int 1, some 12, [], []⟩,
    ⟨.variable, .var "kept", some 3, [], []⟩,
    ⟨.pipeExpr, .none, some 3, [18], []⟩,
    ⟨.finish, .none, some 17, [19, 23], []⟩,
    ⟨.forBind, .none, some 18, [20, 21, 22], []⟩,
    ⟨.start, .none, some 19, [], []⟩,
    ⟨.variable, .var "c", some 19, [], []⟩,
    ⟨.literal, .int 2, some 19, [], []⟩,
    ⟨.variableRef, .var "c", some 18, [], []⟩,
    ⟨.variable, .var "dropped", some 2, [], []⟩,
    ⟨.pipeExpr, .none, some 2, [26], []⟩,
    ⟨.finish, .none, some 25, [27, 31], []⟩,
    ⟨.forBind, .none, some 26, [28, 29, 30], []⟩,
    ⟨.start, .none, some 27, [], []⟩,
    ⟨.variable, .var "d", some 27, [], []⟩,
    ⟨.literal, .int 3, some 27, [], []⟩,
    ⟨.variableRef, .var "d", some 26, [], []⟩,
    ⟨.variableRef, .var "kept", some 1, [], []⟩]
  root := 0
  counter := 0

/- The two stages of the dropped pipeline are left out. -/
theorem project_annotates_live_dropping :
    ∃ stages projected,
      droppingPlan.project = (.ok 9, projected) ∧
        stages.length = 9 ∧ stages.Nodup ∧
        (∀ id, id ∈ stages ↔
          projected.rootTree.IsLive id) ∧
        droppingPlan.AnnotatedAt stages projected := by
  have hValid : droppingPlan.validate = .ok () := rfl
  have hCount : droppingPlan.project.1 = .ok 9 := by
    decide +kernel
  rcases project_annotates_live hValid (by decide) rfl
      (by decide) with
    ⟨stages, projected, hProject, hRest⟩
  rw [hProject] at hCount
  have hLength : stages.length = 9 := Except.ok.inj hCount
  rw [hLength] at hProject
  exact ⟨stages, projected, hProject, hLength, hRest⟩

end Plan

end Flwor
