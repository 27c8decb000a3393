import Flwor.Proofs.Convergence.Grouping
import Flwor.Proofs.Convergence.Lifting
import Flwor.Proofs.Convergence.Unnesting

/-
  What no pass ever changes.

  Nodes are added to an arena and linked in other ways, but
  none is taken out of it, and none becomes one of another
  kind.  This holds of any plan, in order or not.

  Key definitions include:
    * `Plan.Retains`
    * `Edit.Retains`

  Key theorems include:
    * `Pass.retains_unnest`
    * `Pass.retains_letLift`
    * `Pass.retains_groupEmission`
-/

------------------------------------------------------------
-- Kept Nodes
------------------------------------------------------------

namespace Flwor

namespace Plan

/- All nodes are still there, and of the same kind. -/
structure Retains
    (before after : Plan) : Prop where
  size : before.size ≤ after.size
  kind : ∀ x < before.size, after.kind x = before.kind x

namespace Retains

variable {before middle after : Plan}

theorem refl
    (plan : Plan) :
    plan.Retains plan :=
  ⟨le_rfl, fun _ _ => rfl⟩

theorem trans
    (hFirst : before.Retains middle)
    (hSecond : middle.Retains after) :
    before.Retains after :=
  ⟨hFirst.size.trans hSecond.size, fun x hX =>
    (hSecond.kind x (hX.trans_le hFirst.size)).trans
      (hFirst.kind x hX)⟩

theorem of_eq
    (hSize : after.size = before.size)
    (hKind : ∀ x, after.kind x = before.kind x) :
    before.Retains after :=
  ⟨hSize.ge, fun x _ => hKind x⟩

end Retains

/- The annotations of a node are not its kind. -/
theorem retains_modify
    {change : Node → Node}
    (plan : Plan)
    (id : NodeId)
    (hKind : ∀ n, (change n).kind = n.kind) :
    plan.Retains (plan.modify id change) := by
  refine .of_eq (size_modify ..) (fun x => ?_)
  rw [kind, node_modify]
  split
  · exact hKind _
  · rfl

end Plan

namespace Edit

variable {α β : Type}

/- An edit that succeeds has kept all nodes. -/
def Retains
    (edit : Edit α) : Prop :=
  ∀ plan, edit.Ensures plan (fun _ after => plan.Retains after)

theorem retains_bind
    {edit : Edit α}
    {next : α → Edit β}
    (hEdit : edit.Retains)
    (hNext : ∀ x, (next x).Retains) :
    (edit >>= next).Retains := by
  intro plan
  refine (hEdit plan).bind (fun x middle hMiddle => ?_)
  exact (hNext x middle).mono
    (fun _ _ hAfter => hMiddle.trans hAfter)

theorem retains_return
    (x : α) :
    Retains (pure x : Edit α) :=
  fun plan => ensures_return (.refl plan)

theorem retains_fail
    (d : Defect) :
    Retains (fail d : Edit α) :=
  fun _ => ensures_fail d

theorem retains_get_bind
    {next : Plan → Edit α}
    (hNext : ∀ plan, (next plan).Retains) :
    Retains (get >>= next) :=
  fun plan => ensures_get_bind (hNext plan plan)

/- A plan that is made of the present one is put in place. -/
theorem ensures_set_bind
    {plan middle : Plan}
    {next : Unit → Edit α}
    (hMiddle : plan.Retains middle)
    (hNext : (next ()).Retains) :
    Ensures (set middle >>= next) plan
      (fun _ after => plan.Retains after) :=
  fun x after hRun => hMiddle.trans
    (hNext middle x after hRun)

theorem ensures_set
    {plan middle : Plan}
    (hMiddle : plan.Retains middle) :
    Ensures (set middle : Edit Unit) plan
      (fun _ after => plan.Retains after) := by
  rintro _ _ ⟨⟩
  exact hMiddle

end Edit

end Flwor

------------------------------------------------------------
-- Single Edits
------------------------------------------------------------

namespace Flwor

namespace Edit

variable {α : Type}

theorem retains_add
    (kind : Kind)
    (payload : Payload)
    (properties : Properties) :
    (add kind payload properties).Retains := by
  intro plan
  refine ensures_get_bind (ensures_set_bind ⟨?_, ?_⟩
    (retains_return _))
  · exact (Plan.edited_grow plan kind payload properties).size
  · exact (Plan.edited_grow plan kind payload properties).kind

theorem retains_requireDetached
    (id : NodeId) :
    (requireDetached id).Retains := by
  refine retains_get_bind (fun plan => ?_)
  split
  · exact retains_fail _
  · exact retains_return _

theorem retains_insert
    (parent : NodeId)
    (index : Nat)
    (child : NodeId) :
    (insert parent index child).Retains := by
  refine retains_bind (retains_requireDetached child)
    (fun _ plan => ensures_get_bind ?_)
  dsimp only
  split
  · exact ensures_fail _
  · exact ensures_set (.of_eq (by simp) (by simp))

theorem retains_append
    (parent child : NodeId) :
    (append parent child).Retains :=
  retains_get_bind (fun _ => retains_insert parent _ child)

theorem retains_remove
    (parent : NodeId)
    (index : Nat) :
    (remove parent index).Retains := by
  intro plan
  refine ensures_get_bind ?_
  dsimp only
  split
  · exact ensures_fail _
  · exact ensures_set_bind (.of_eq (by simp) (by simp))
      (retains_return _)

theorem retains_replaceChild
    (parent : NodeId)
    (index : Nat)
    (new : NodeId) :
    (replaceChild parent index new).Retains := by
  refine retains_bind (retains_requireDetached new)
    (fun _ plan => ensures_get_bind ?_)
  dsimp only
  split
  · exact ensures_fail _
  · exact ensures_set_bind (.of_eq (by simp) (by simp))
      (retains_return _)

theorem retains_replace
    (old new : NodeId) :
    (replace old new).Retains := by
  intro plan
  refine ensures_get_bind ?_
  split
  · refine (retains_requireDetached new plan).bind ?_
    rintro _ middle _ _ _ ⟨⟩
    exact .of_eq rfl (fun _ => rfl)
  split
  · exact ensures_fail _
  split
  · exact ensures_fail _
  · exact retains_bind (retains_replaceChild _ _ new)
      (fun _ => retains_return _) plan

theorem retains_forM
    {next : α → Edit Unit}
    (hNext : ∀ x, (next x).Retains)
    (xs : List α) :
    Retains (xs.forM next) := by
  induction xs with
  | nil => exact retains_return ()
  | cons x rest ih =>
      rw [List.forM]
      exact retains_bind (hNext x) (fun _ => ih)

theorem retains_addWith
    (kind : Kind)
    (payload : Payload)
    (children : List NodeId) :
    (addWith kind payload children).Retains :=
  retains_bind (retains_add kind payload []) (fun id =>
    retains_bind (retains_forM (retains_append id) children)
      (fun _ => retains_return id))

theorem retains_setProperty
    (id : NodeId)
    (key : String)
    (value : Property) :
    (setProperty id key value).Retains := by
  rintro plan _ _ ⟨⟩
  exact plan.retains_modify id (fun _ => rfl)

theorem retains_eraseProperty
    (id : NodeId)
    (key : String) :
    (eraseProperty id key).Retains := by
  rintro plan _ _ ⟨⟩
  exact plan.retains_modify id (fun _ => rfl)

theorem retains_fresh
    (hint : String) :
    (fresh hint).Retains :=
  fun _ => ensures_get_bind (ensures_set_bind
    (.of_eq rfl (fun _ => rfl)) (retains_return _))

theorem retains_interpose
    (consumer stage : NodeId) :
    (interpose consumer stage).Retains :=
  retains_bind (retains_remove consumer 0) (fun feeder =>
    retains_bind (retains_insert stage 0 feeder)
      (fun _ => retains_insert consumer 0 stage))

theorem retains_bypass
    (stage : NodeId) :
    (bypass stage).Retains :=
  retains_bind (retains_remove stage 0)
    (fun feeder => retains_replace stage feeder)

end Edit

end Flwor

------------------------------------------------------------
-- The Passes
------------------------------------------------------------

namespace Flwor

namespace Pass

open Edit

variable {plan after : Plan}

/- The parts of a pipeline are kept. -/
theorem retains_takeApart
    (candidate : Candidate) :
    (takeApart candidate).Retains := by
  refine retains_get_bind (fun plan => ?_)
  dsimp only
  split
  · exact retains_fail _
  · exact retains_bind (retains_remove _ _) (fun _ =>
      retains_bind (retains_remove _ _) (fun _ =>
        retains_bind (retains_addWith _ _ _) (fun _ =>
          retains_bind (retains_bypass _) (fun _ =>
            retains_bind (retains_remove _ _) (fun _ =>
              retains_bind (retains_remove _ _) (fun _ =>
                retains_return _))))))

theorem retains_extractPipe
    (stage : NodeId) :
    (extractPipe stage).Retains := by
  refine retains_get_bind (fun plan => ?_)
  split
  · exact retains_return _
  split
  case h_2 => exact retains_return _
  dsimp only
  split
  · exact retains_return _
  refine retains_bind (retains_fresh _) (fun name => ?_)
  refine retains_bind (retains_add _ _ _) (fun _ => ?_)
  refine retains_bind (retains_replace _ _) (fun _ => ?_)
  refine retains_bind (retains_add _ _ _) (fun _ => ?_)
  refine retains_bind (retains_addWith _ _ _) (fun _ => ?_)
  exact retains_bind (retains_interpose _ _)
    (fun _ => retains_return _)

theorem retains_leftJoinLet
    (stage : NodeId) :
    (leftJoinLet stage).Retains := by
  refine retains_get_bind (fun plan => ?_)
  dsimp only
  split
  · exact retains_return _
  split
  · exact retains_return _
  split
  · exact retains_fail _
  refine retains_bind (retains_remove _ _) (fun _ => ?_)
  refine retains_bind (retains_fresh _) (fun _ => ?_)
  refine retains_bind (retains_add _ _ _) (fun _ => ?_)
  refine retains_bind (retains_addWith _ _ _) (fun _ => ?_)
  refine retains_bind (retains_takeApart _) (fun _ => ?_)
  refine retains_bind (retains_addWith _ _ _) (fun _ => ?_)
  refine retains_bind (retains_setProperty _ _ _) (fun _ => ?_)
  refine retains_get_bind (fun plan => ?_)
  split
  · refine retains_bind (retains_setProperty _ _ _)
      (fun _ => ?_)
    exact retains_bind (retains_replace _ _)
      (fun _ => retains_return _)
  · refine retains_bind (retains_fresh _) (fun _ => ?_)
    refine retains_bind (retains_add _ _ _) (fun _ => ?_)
    refine retains_bind (retains_addWith _ _ _) (fun _ => ?_)
    refine retains_bind (retains_setProperty _ _ _)
      (fun _ => ?_)
    refine retains_bind (retains_setProperty _ _ _)
      (fun _ => ?_)
    exact retains_bind (retains_replace _ _)
      (fun _ => retains_return _)

theorem retains_innerJoinFor
    (stage : NodeId) :
    (innerJoinFor stage).Retains := by
  refine retains_get_bind (fun plan => ?_)
  dsimp only
  split
  · exact retains_return _
  split
  · exact retains_return _
  split
  · exact retains_fail _
  split
  · exact retains_return _
  refine retains_bind (retains_remove _ _) (fun _ => ?_)
  refine retains_bind (retains_takeApart _) (fun _ => ?_)
  refine retains_bind (retains_addWith _ _ _) (fun _ => ?_)
  refine retains_bind (retains_add _ _ _) (fun _ => ?_)
  refine retains_bind (retains_addWith _ _ _) (fun _ => ?_)
  exact retains_bind (retains_replace _ _)
    (fun _ => retains_return _)

theorem retains_orElse
    {first second : Edit Bool}
    (hFirst : first.Retains)
    (hSecond : second.Retains) :
    Edit.Retains (do
      if ← first then return true
      else second) := by
  refine retains_bind hFirst (fun done => ?_)
  split
  · exact retains_return _
  · exact hSecond

/- A change of the pass keeps all nodes. -/
theorem retains_unnest
    (hChanges : unnest.Changes plan after) :
    plan.Retains after := by
  rcases hChanges with ⟨stage, _, hRun⟩
  have hStage : (unnestStage stage).Retains := by
    refine retains_get_bind (fun plan => ?_)
    split
    · exact retains_extractPipe stage
    · exact retains_extractPipe stage
    · exact retains_orElse (retains_extractPipe stage)
        (retains_leftJoinLet stage)
    · exact retains_orElse (retains_extractPipe stage)
        (retains_innerJoinFor stage)
    · exact retains_return _
  exact hStage plan _ _ hRun

theorem retains_letLift
    (hChanges : letLift.Changes plan after) :
    plan.Retains after := by
  rcases hChanges with ⟨bind, _, hRun⟩
  have hMove (consumer : NodeId) : Edit.Retains (do
      bypass bind
      interpose consumer bind
      return true) :=
    retains_bind (retains_bypass bind) (fun _ =>
      retains_bind (retains_interpose consumer bind)
        (fun _ => retains_return true))
  have hBind : (liftBinding bind).Retains := by
    refine retains_get_bind (fun plan => ?_)
    split
    · exact retains_return _
    dsimp only
    split
    · refine retains_orElse
        (retains_get_bind (fun plan => ?_))
        (retains_get_bind (fun plan => ?_)) <;>
      · split
        · exact retains_return _
        · exact hMove _
    · exact retains_return _
  exact hBind plan _ _ hRun

theorem retains_groupEmission
    (hChanges : groupEmission.Changes plan after) :
    plan.Retains after := by
  rcases hChanges with ⟨join, _, hRun⟩
  have hKey (group : NodeId)
      (name : String) :
      (addGroupKey group name).Retains :=
    retains_bind (retains_add _ _ _) (fun _ =>
      retains_bind (retains_addWith _ _ _)
        (fun _ => retains_append _ _))
  have hEmit (target source : String) :
      (emitGroup join target source).Retains := by
    refine retains_get_bind (fun plan => ?_)
    dsimp only
    split
    · exact retains_fail _
    · exact retains_fail _
    refine retains_bind (retains_remove _ _) (fun _ => ?_)
    refine retains_bind (retains_addWith _ _ _)
      (fun group => ?_)
    refine retains_bind (retains_forM (hKey group) _)
      (fun _ => ?_)
    refine retains_bind (retains_add _ _ _) (fun _ => ?_)
    refine retains_bind (retains_add _ _ _) (fun _ => ?_)
    refine retains_bind (retains_addWith _ _ _) (fun _ => ?_)
    refine retains_bind (retains_append _ _) (fun _ => ?_)
    exact retains_bind (retains_insert _ _ _)
      (fun _ => retains_eraseProperty _ _)
  have hJoin : (regroupJoin join).Retains := by
    refine retains_get_bind (fun plan => ?_)
    dsimp only
    split
    · exact retains_return _
    split
    · split
      · exact retains_return _
      · exact retains_bind (hEmit _ _)
          (fun _ => retains_return _)
    · exact retains_return _
  exact hJoin plan _ _ hRun

end Pass

end Flwor
