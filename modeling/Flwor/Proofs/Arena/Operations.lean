import Flwor.Proofs.Arena.Calls

/-
  All operations on a plan: the calls that change its shape,
  and those that change what one node carries or the number
  of the last generated name.

  Key definitions include:
    * `PlanOperation`
    * `PlanOperation.run`
    * `Plan.Operated`

  Key theorems include:
    * `Plan.Operated.sound`
-/

------------------------------------------------------------
-- Operations
------------------------------------------------------------

namespace Flwor

/- The operations that lead from one plan to another. -/
inductive PlanOperation where
  | call (step : PlanCall)
  | setPayload
      (id : NodeId)
      (payload : Payload)
  | setProperty
      (id : NodeId)
      (key : String)
      (value : Property)
  | eraseProperty
      (id : NodeId)
      (key : String)
  | fresh (hint : String)

namespace PlanOperation

/- What an operation leaves, also if it fails. -/
def run : PlanOperation → Plan → Plan
  | .call step, plan => (step.run plan).2
  | .setPayload id payload, plan =>
      plan.setPayload id payload
  | .setProperty id key value, plan =>
      plan.setProperty id key value
  | .eraseProperty id key, plan => plan.eraseProperty id key
  | .fresh hint, plan => ((Edit.fresh hint).run plan).2

/- The nodes that an operation names. -/
def ids : PlanOperation → List NodeId
  | .call step => step.ids
  | .setPayload id _ => [id]
  | .setProperty id _ _ => [id]
  | .eraseProperty id _ => [id]
  | .fresh _ => []

end PlanOperation

namespace Plan

/-
  Plans of one node, plans of documents, and what operations
  make of them.  An operation names nodes of the arena.
-/
inductive Operated : Plan → Prop where
  | ofNode
      (kind : Kind)
      (payload : Payload) :
      Operated (ofNode kind payload)
  | ofDocument
      {document : Document}
      {plan : Plan}
      (hPlan : ofDocument document = .ok plan) :
      Operated plan
  | operation
      {plan : Plan}
      (hPlan : Operated plan)
      (operation : PlanOperation)
      (hIds : ∀ id ∈ operation.ids, id < plan.size) :
      Operated (operation.run plan)

variable {plan : Plan}

/- What a node carries besides its links is of no account. -/
theorem Sound.modify
    (hSound : plan.Sound)
    (id : NodeId)
    {change : Node → Node}
    (hParent : ∀ n, (change n).parent = n.parent)
    (hChildren : ∀ n, (change n).children = n.children) :
    (plan.modify id change).Sound := by
  have hUp (x : NodeId) :
      (plan.modify id change).parent? x = plan.parent? x := by
    rw [parent?, node_modify]
    split
    · exact hParent _
    · rfl
  have hDown (x : NodeId) :
      (plan.modify id change).children x =
        plan.children x := by
    rw [children, node_modify]
    split
    · exact hChildren _
    · rfl
  refine ⟨⟨fun p c => ?_, fun p => ?_, ?_⟩, ?_⟩
  · rw [hDown, hUp]
    exact hSound.linked.mem_children_iff p c
  · rw [hDown]
    exact hSound.linked.nodup p
  · rw [hUp]
    exact hSound.linked.root
  · rw [size_modify]
    exact hSound.root_lt

/- The links stay in order, whatever is done. -/
theorem Sound.operation
    (hSound : plan.Sound)
    (operation : PlanOperation)
    (hIds : ∀ id ∈ operation.ids, id < plan.size) :
    (operation.run plan).Sound := by
  cases operation with
  | call step =>
      exact (step.moves_run fitsTop_true hSound hIds
        (fun _ _ _ _ => trivial)).sound hSound
  | setPayload id payload =>
      exact hSound.modify id (fun _ => rfl) (fun _ => rfl)
  | setProperty id key value =>
      exact hSound.modify id (fun _ => rfl) (fun _ => rfl)
  | eraseProperty id key =>
      exact hSound.modify id (fun _ => rfl) (fun _ => rfl)
  | fresh hint =>
      exact ⟨⟨hSound.linked.mem_children_iff,
        hSound.linked.nodup, hSound.linked.root⟩,
        hSound.root_lt⟩

theorem Operated.sound
    (hPlan : plan.Operated) :
    plan.Sound := by
  induction hPlan with
  | ofNode k p => exact sound_grow_empty k p []
  | ofDocument hPlan =>
      exact (Built.ofDocument hPlan :
        Built (fun _ _ => True) _).sound
  | operation _ operation hIds ih =>
      exact ih.operation operation hIds

end Plan

end Flwor
