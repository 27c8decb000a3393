import Flwor.Optimizer
import Flwor.Proofs.Redaction.Veil

/-
  Passes on plans behind the veil.

  Every edit that a pass makes of a plan, it also makes of
  the plan behind the veil: it succeeds or fails alike, with
  the same answer, and leaves the other plan behind the veil.

  Key definitions include:
    * `Plan.veil`
    * `Mirrors`, `Edit.Mirrors`

  Key theorems include:
    * `Mirrors.bind`, `Mirrors.get_bind`
    * `Plan.tree_veil`
    * `Edit.mirrors_copy`, `Edit.mirrors_replace`
    * `optimize_veil`
-/

------------------------------------------------------------
-- Mirrored Actions
------------------------------------------------------------

namespace Flwor

variable {σ α β : Type}
variable {mirror : σ → σ}

/-
  An action on a state and its image on the mirrored state
  have the same answer, and the states that they leave
  mirror each other.
-/
def Mirrors
    (mirror : σ → σ)
    (action image : ExceptT Failure (StateM σ) α) : Prop :=
  ∀ s, StateT.run (ExceptT.run image) (mirror s) =
    ((StateT.run (ExceptT.run action) s).1,
      mirror (StateT.run (ExceptT.run action) s).2)

namespace Mirrors

theorem of_pure
    (x : α) :
    Mirrors mirror (pure x) (pure x) :=
  fun _ => rfl

theorem of_throw
    (e : Failure) :
    Mirrors mirror
      (throw e : ExceptT Failure (StateM σ) α) (throw e) :=
  fun _ => rfl

theorem of_set
    {s t : σ}
    (hStates : t = mirror s) :
    Mirrors mirror
      (set s : ExceptT Failure (StateM σ) PUnit)
      (set t) := by
  subst hStates
  exact fun _ => rfl

theorem of_modify
    {change change' : σ → σ}
    (hChange : ∀ s, change' (mirror s) = mirror (change s)) :
    Mirrors mirror
      (modify change : ExceptT Failure (StateM σ) PUnit)
      (modify change') := by
  intro s
  change (Except.ok (), change' (mirror s)) =
    (Except.ok (), mirror (change s))
  rw [hChange s]

/- One action after the other. -/
theorem bind
    {action image : ExceptT Failure (StateM σ) α}
    {next next' : α → ExceptT Failure (StateM σ) β}
    (hAction : Mirrors mirror action image)
    (hNext : ∀ x, Mirrors mirror (next x) (next' x)) :
    Mirrors mirror (action >>= next) (image >>= next') := by
  intro s
  have hFirst := hAction s
  rw [ExceptT.run_bind, ExceptT.run_bind, StateT.run_bind,
    StateT.run_bind, hFirst]
  rcases StateT.run (ExceptT.run action) s with
    ⟨e | x, middle⟩
  · rfl
  · exact hNext x middle

/- An action that looks at the state first. -/
theorem get_bind
    {next next' : σ → ExceptT Failure (StateM σ) α}
    (hNext : ∀ s,
      Mirrors mirror (next s) (next' (mirror s))) :
    Mirrors mirror (get >>= next) (get >>= next') := by
  intro s
  exact hNext s s

/- The same action on each element of a list. -/
theorem forM
    {action image : α → ExceptT Failure (StateM σ) PUnit}
    (hEach : ∀ a,
      Mirrors mirror (action a) (image a))
    (as : List α) :
    Mirrors mirror (as.forM action) (as.forM image) := by
  induction as with
  | nil => exact of_pure ()
  | cons a rest ih =>
      exact (hEach a).bind (fun _ => ih)

end Mirrors

end Flwor

------------------------------------------------------------
-- Arenas
------------------------------------------------------------

namespace Flwor

/- A node without the value of its literal. -/
def Node.veil
    (n : Node) : Node :=
  { n with payload := n.payload.veil }

namespace Plan

/- A plan without the values of its literals. -/
def veil
    (plan : Plan) : Plan :=
  { plan with nodes := plan.nodes.map Node.veil }

variable (plan : Plan)

@[simp] theorem root_veil :
    plan.veil.root = plan.root :=
  rfl

@[simp] theorem counter_veil :
    plan.veil.counter = plan.counter :=
  rfl

@[simp] theorem size_veil :
    plan.veil.size = plan.size :=
  Array.size_map

@[simp] theorem node_veil
    (id : NodeId) :
    plan.veil.node id = (plan.node id).veil := by
  simp only [node, veil, Array.getD_eq_getD_getElem?,
    Array.getElem?_map]
  cases plan.nodes[id]? <;> rfl

@[simp] theorem kind_veil
    (id : NodeId) :
    plan.veil.kind id = plan.kind id := by
  rw [kind, node_veil]
  rfl

@[simp] theorem payload_veil
    (id : NodeId) :
    plan.veil.payload id = (plan.payload id).veil := by
  rw [payload, node_veil]
  rfl

@[simp] theorem parent?_veil
    (id : NodeId) :
    plan.veil.parent? id = plan.parent? id := by
  rw [parent?, node_veil]
  rfl

@[simp] theorem children_veil
    (id : NodeId) :
    plan.veil.children id = plan.children id := by
  rw [children, node_veil]
  rfl

@[simp] theorem properties_veil
    (id : NodeId) :
    plan.veil.properties id = plan.properties id := by
  rw [properties, node_veil]
  rfl

@[simp] theorem var?_veil
    (id : NodeId) :
    plan.veil.var? id = plan.var? id := by
  simp [var?]

@[simp] theorem child?_veil
    (id : NodeId)
    (index : Nat) :
    plan.veil.child? id index = plan.child? id index := by
  simp [child?]

@[simp] theorem lastChild?_veil
    (id : NodeId) :
    plan.veil.lastChild? id = plan.lastChild? id := by
  simp [lastChild?]

@[simp] theorem indexInParent?_veil
    (id : NodeId) :
    plan.veil.indexInParent? id = plan.indexInParent? id := by
  simp [indexInParent?]

@[simp] theorem isAttached_veil
    (id : NodeId) :
    plan.veil.isAttached id = plan.isAttached id := by
  simp [isAttached]

@[simp] theorem usedNames_veil :
    plan.veil.usedNames = plan.usedNames := by
  unfold usedNames veil
  rw [Array.toList_map, List.filterMap_map]
  simp [Function.comp_def, Node.veil]

@[simp] theorem freshNumber_veil
    (hint : String) :
    plan.veil.freshNumber hint = plan.freshNumber hint := by
  simp [freshNumber]

theorem treeWithin_veil
    (depth : Nat)
    (id : NodeId) :
    plan.veil.treeWithin depth id =
      (plan.treeWithin depth id).veil := by
  induction depth generalizing id with
  | zero => simp [treeWithin, Tree.veil, Tree.veilAll]
  | succ depth ih =>
      simp [treeWithin, Tree.veil, Tree.veilAll_eq,
        Function.comp_def, ih]

@[simp] theorem tree_veil
    (id : NodeId) :
    plan.veil.tree id = (plan.tree id).veil := by
  rw [tree, size_veil, treeWithin_veil, tree]

@[simp] theorem rootTree_veil :
    plan.veil.rootTree = plan.rootTree.veil :=
  tree_veil plan plan.root

@[simp] theorem document_veil
    (id : NodeId) :
    plan.veil.document id = (plan.document id).veil := by
  rw [document, tree_veil, Tree.document_veil, document]

@[simp] theorem visible_veil
    (id : NodeId) :
    plan.veil.visible id = plan.visible id := by
  rw [visible, tree_veil, Tree.visible_veil, visible]

@[simp] theorem validate_veil :
    plan.veil.validate = plan.validate := by
  rw [validate, rootTree_veil, Tree.firstDefect?_veil,
    validate]

/- A change of a node that does not see its literal. -/
theorem modify_veil
    {change : Node → Node}
    (hChange : ∀ n, change n.veil = (change n).veil)
    (id : NodeId) :
    plan.veil.modify id change =
      (plan.modify id change).veil := by
  have hNodes :
      (plan.nodes.map Node.veil).modify id change =
        (plan.nodes.modify id change).map Node.veil := by
    apply Array.ext_getElem?
    intro i
    rw [Array.getElem?_modify, Array.getElem?_map,
      Array.getElem?_map, Array.getElem?_modify]
    split
    · cases plan.nodes[i]? with
      | none => rfl
      | some n => exact congrArg some (hChange n)
    · rfl
  exact congrArg (fun nodes =>
    (⟨nodes, plan.root, plan.counter⟩ : Plan)) hNodes

@[simp] theorem setParent_veil
    (id : NodeId)
    (parent : Option NodeId) :
    plan.veil.setParent id parent =
      (plan.setParent id parent).veil := by
  unfold setParent
  apply plan.modify_veil
  exact fun _ => rfl

@[simp] theorem setChildren_veil
    (id : NodeId)
    (children : List NodeId) :
    plan.veil.setChildren id children =
      (plan.setChildren id children).veil := by
  unfold setChildren
  apply plan.modify_veil
  exact fun _ => rfl

@[simp] theorem setProperty_veil
    (id : NodeId)
    (key : String)
    (value : Property) :
    plan.veil.setProperty id key value =
      (plan.setProperty id key value).veil := by
  unfold setProperty
  apply plan.modify_veil
  exact fun _ => rfl

@[simp] theorem eraseProperty_veil
    (id : NodeId)
    (key : String) :
    plan.veil.eraseProperty id key =
      (plan.eraseProperty id key).veil := by
  unfold eraseProperty
  apply plan.modify_veil
  exact fun _ => rfl

end Plan

end Flwor

------------------------------------------------------------
-- Edits
------------------------------------------------------------

namespace Flwor

namespace Edit

variable {α : Type}

/- An edit and its image on plans behind the veil. -/
abbrev Mirrors
    (edit image : Edit α) : Prop :=
  Flwor.Mirrors Plan.veil edit image

theorem mirrors_fail
    (defect : Defect) :
    Mirrors (fail defect : Edit α) (fail defect) :=
  .of_throw _

theorem mirrors_add
    (kind : Kind)
    (payload : Payload)
    (properties : Properties) :
    Mirrors (add kind payload properties)
      (add kind payload.veil properties) := by
  unfold add
  apply Mirrors.get_bind
  intro plan
  rw [Plan.size_veil]
  refine Mirrors.bind (.of_set ?_) (fun _ => .of_pure _)
  simp [Plan.veil, Node.veil]

theorem mirrors_requireDetached
    (id : NodeId) :
    Mirrors (requireDetached id) (requireDetached id) := by
  unfold requireDetached
  apply Mirrors.get_bind
  intro plan
  rw [Plan.isAttached_veil, Plan.kind_veil]
  split
  · exact mirrors_fail _
  · exact .of_pure ()

theorem mirrors_insert
    (parent : NodeId)
    (index : Nat)
    (child : NodeId) :
    Mirrors (insert parent index child)
      (insert parent index child) := by
  unfold insert
  apply (mirrors_requireDetached child).bind
  intro _
  apply Mirrors.get_bind
  intro plan
  dsimp only
  rw [Plan.children_veil]
  have hInserted : Mirrors
      (set ((plan.setChildren parent
        ((plan.children parent).insertIdx index
          child)).setParent child (some parent)))
      (set ((plan.veil.setChildren parent
        ((plan.children parent).insertIdx index
          child)).setParent child (some parent))) := by
    apply Mirrors.of_set
    simp
  split
  · exact (mirrors_fail _).bind (fun _ => hInserted)
  · exact hInserted

theorem mirrors_append
    (parent child : NodeId) :
    Mirrors (append parent child) (append parent child) := by
  unfold append
  apply Mirrors.get_bind
  intro plan
  rw [Plan.children_veil]
  exact mirrors_insert parent _ child

theorem mirrors_remove
    (parent : NodeId)
    (index : Nat) :
    Mirrors (remove parent index) (remove parent index) := by
  unfold remove
  apply Mirrors.get_bind
  intro plan
  rw [Plan.child?_veil, Plan.children_veil]
  cases plan.child? parent index with
  | none => exact mirrors_fail _
  | some child =>
      refine Mirrors.bind (.of_set ?_) (fun _ => .of_pure _)
      simp

theorem mirrors_replaceChild
    (parent : NodeId)
    (index : Nat)
    (new : NodeId) :
    Mirrors (replaceChild parent index new)
      (replaceChild parent index new) := by
  unfold replaceChild
  apply (mirrors_requireDetached new).bind
  intro _
  apply Mirrors.get_bind
  intro plan
  rw [Plan.child?_veil, Plan.children_veil]
  cases plan.child? parent index with
  | none => exact mirrors_fail _
  | some old =>
      refine Mirrors.bind (.of_set ?_) (fun _ => .of_pure _)
      simp

theorem mirrors_replace
    (old new : NodeId) :
    Mirrors (replace old new) (replace old new) := by
  unfold replace
  apply Mirrors.get_bind
  intro plan
  rw [Plan.root_veil, Plan.parent?_veil,
    Plan.indexInParent?_veil]
  split
  · apply (mirrors_requireDetached new).bind
    intro _
    exact .of_set rfl
  · cases plan.parent? old with
    | none => exact mirrors_fail _
    | some parent =>
        cases plan.indexInParent? old with
        | none => exact mirrors_fail _
        | some index =>
            exact (mirrors_replaceChild parent index
              new).bind (fun _ => .of_pure ())

theorem mirrors_addWith
    (kind : Kind)
    (payload : Payload)
    (children : List NodeId) :
    Mirrors (addWith kind payload children)
      (addWith kind payload.veil children) := by
  unfold addWith
  apply (mirrors_add kind payload []).bind
  intro id
  exact (Mirrors.forM (mirrors_append id) children).bind
    (fun _ => .of_pure id)

theorem mirrors_setProperty
    (id : NodeId)
    (key : String)
    (value : Property) :
    Mirrors (setProperty id key value)
      (setProperty id key value) :=
  .of_modify (fun plan => plan.setProperty_veil id key value)

theorem mirrors_eraseProperty
    (id : NodeId)
    (key : String) :
    Mirrors (eraseProperty id key) (eraseProperty id key) :=
  .of_modify (fun plan => plan.eraseProperty_veil id key)

theorem mirrors_fresh
    (hint : String) :
    Mirrors (fresh hint) (fresh hint) := by
  unfold fresh
  apply Mirrors.get_bind
  intro plan
  rw [Plan.freshNumber_veil]
  exact Mirrors.bind (.of_set rfl) (fun _ => .of_pure _)

mutual

theorem mirrors_install :
    ∀ d : Document,
      Mirrors (install d) (install d.veil)
  | .node k p cs ps => by
      rw [Document.veil, install, install]
      apply (mirrors_add k p ps).bind
      intro id
      exact (mirrors_installAll id cs).bind
        (fun _ => .of_pure id)

theorem mirrors_installAll :
    ∀ (parent : NodeId) (ds : List Document),
      Mirrors (installAll parent ds)
        (installAll parent (Document.veilAll ds))
  | parent, [] => .of_pure ()
  | parent, d :: ds => by
      rw [Document.veilAll, installAll, installAll]
      apply (mirrors_install d).bind
      intro child
      apply (mirrors_append parent child).bind
      intro _
      exact mirrors_installAll parent ds

end

theorem mirrors_copy
    (id : NodeId) :
    Mirrors (copy id) (copy id) := by
  unfold copy
  apply Mirrors.get_bind
  intro plan
  rw [Plan.document_veil]
  exact mirrors_install (plan.document id)

theorem mirrors_interpose
    (consumer stage : NodeId) :
    Mirrors (interpose consumer stage)
      (interpose consumer stage) := by
  unfold interpose
  apply (mirrors_remove consumer 0).bind
  intro feeder
  apply (mirrors_insert stage 0 feeder).bind
  intro _
  exact mirrors_insert consumer 0 stage

theorem mirrors_bypass
    (stage : NodeId) :
    Mirrors (bypass stage) (bypass stage) := by
  unfold bypass
  apply (mirrors_remove stage 0).bind
  intro feeder
  exact mirrors_replace stage feeder

end Edit

end Flwor

------------------------------------------------------------
-- Looking Around in an Arena
------------------------------------------------------------

namespace Flwor

namespace Plan

variable (plan : Plan)

@[simp] theorem isChecked_veil
    (id : NodeId) :
    plan.veil.isChecked id = plan.isChecked id := by
  simp [isChecked]

@[simp] theorem rowExpr?_veil
    (stage : NodeId) :
    plan.veil.rowExpr? stage = plan.rowExpr? stage := by
  simp [rowExpr?]

@[simp] theorem consumer_veil
    (stage : NodeId) :
    plan.veil.consumer stage = plan.consumer stage := by
  simp [consumer]

@[simp] theorem stagesAfter_veil
    (stage : NodeId) :
    plan.veil.stagesAfter stage = plan.stagesAfter stage := by
  have hWithin (steps : Nat) (stage : NodeId) :
      plan.veil.stagesAfterWithin steps stage =
        plan.stagesAfterWithin steps stage := by
    induction steps generalizing stage with
    | zero => rfl
    | succ steps ih => simp [stagesAfterWithin, ih]
  rw [stagesAfter, size_veil, hWithin, stagesAfter]

@[simp] theorem enclosingFinish?_veil
    (stage : NodeId) :
    plan.veil.enclosingFinish? stage =
      plan.enclosingFinish? stage := by
  have hWithin (steps : Nat) (id : NodeId) :
      plan.veil.enclosingFinishWithin steps id =
        plan.enclosingFinishWithin steps id := by
    induction steps generalizing id with
    | zero => rfl
    | succ steps ih => simp [enclosingFinishWithin, ih]
  rw [enclosingFinish?, size_veil, hWithin,
    enclosingFinish?]

@[simp] theorem regroupPoint_veil
    (join : NodeId) :
    plan.veil.regroupPoint join = plan.regroupPoint join := by
  have hWithin (steps : Nat) (stage : NodeId) :
      plan.veil.regroupPointWithin steps stage =
        plan.regroupPointWithin steps stage := by
    induction steps generalizing stage with
    | zero => rfl
    | succ steps ih => simp [regroupPointWithin, ih]
  rw [regroupPoint, size_veil, hWithin, regroupPoint]

@[simp] theorem rowExprOwner?_veil
    (node : NodeId) :
    plan.veil.rowExprOwner? node =
      plan.rowExprOwner? node := by
  have hWithin (steps : Nat) (node : NodeId) :
      plan.veil.rowExprOwnerWithin steps node =
        plan.rowExprOwnerWithin steps node := by
    induction steps generalizing node with
    | zero => rfl
    | succ steps ih => simp [rowExprOwnerWithin, ih]
  rw [rowExprOwner?, size_veil, hWithin, rowExprOwner?]

@[simp] theorem readsOrder_veil
    (blind : OrderBlind)
    (group : NodeId)
    (names : List String) :
    plan.veil.readsOrder blind group names =
      plan.readsOrder blind group names := by
  have hWithin (steps : Nat) (node : NodeId) :
      plan.veil.readsOrderWithin blind names steps node =
        plan.readsOrderWithin blind names steps node := by
    induction steps generalizing node with
    | zero => rfl
    | succ steps ih => simp [readsOrderWithin, ih]
  rw [readsOrder, size_veil, hWithin, readsOrder]

@[simp] theorem orderMatters?_veil
    (blind : OrderBlind)
    (join : NodeId) :
    plan.veil.orderMatters? blind join =
      plan.orderMatters? blind join := by
  have hAfter (dependents : List String)
      (stages : List NodeId) :
      plan.veil.orderMattersAfter blind dependents stages =
        plan.orderMattersAfter blind dependents stages := by
    induction stages generalizing dependents with
    | nil => rfl
    | cons stage rest ih => simp [orderMattersAfter, ih]
  unfold orderMatters?
  simp only [lastChild?_veil, tree_veil, Tree.stages_veil,
    ← List.map_reverse, stagesAfter_veil, hAfter,
    List.flatMap_map, Tree.bound_veil]
  congr 1
  funext right
  rcases (plan.tree right).stages.reverse with
    _ | ⟨start, _ | ⟨first, rest⟩⟩
  · rfl
  · rfl
  · simp

@[simp] theorem mergeable?_veil
    (steps : List NodeId) :
    plan.veil.mergeable? steps = plan.mergeable? steps := by
  simp [mergeable?, isAnyDescendantStep, isChildStep,
    stepsAlong]

@[simp] theorem candidate?_veil
    (stage pipe : NodeId) :
    plan.veil.candidate? stage pipe =
      (plan.candidate? stage pipe).map Candidate.veil := by
  unfold candidate?
  simp only [child?_veil, tree_veil, Tree.candidate?_veil,
    visible_veil, enclosingFinish?_veil,
    Tree.referencesOutside_veil, Option.bind_eq_bind,
    Option.bind_map, Option.map_bind, Function.comp_def]
  rfl

end Plan

end Flwor

------------------------------------------------------------
-- Passes at One Node
------------------------------------------------------------

namespace Flwor

namespace Pass

open Edit

theorem mirrors_mergeSteps
    (path : NodeId) :
    Edit.Mirrors (mergeSteps path) (mergeSteps path) := by
  unfold mergeSteps
  apply Mirrors.get_bind
  intro plan
  rw [Plan.kind_veil, Plan.children_veil,
    Plan.mergeable?_veil]
  split
  · exact .of_pure false
  · rcases plan.mergeable? (plan.children path) with
      _ | ⟨index, test⟩
    · exact .of_pure false
    · apply (mirrors_copy test).bind
      intro test
      apply (mirrors_add .axisSpec _ []).bind
      intro axis
      apply (mirrors_addWith .stepExpr .none _).bind
      intro merged
      apply (mirrors_remove path (index + 1)).bind
      intro _
      exact (mirrors_replaceChild path index merged).bind
        (fun _ => .of_pure true)

/- The key of an inner row is not asked for. -/
theorem mirrors_takeApart
    (candidate : Candidate) :
    Edit.Mirrors (takeApart candidate)
      (takeApart candidate.veil) := by
  unfold takeApart
  apply Mirrors.get_bind
  intro plan
  have hSelection : candidate.veil.correlation.selection =
      candidate.correlation.selection := rfl
  rw [Plan.child?_veil, hSelection]
  cases plan.child? candidate.correlation.selection 1 with
  | none => exact mirrors_fail _
  | some predicate =>
      apply (mirrors_remove predicate _).bind
      intro outerKey
      apply (mirrors_remove predicate 0).bind
      intro innerKey
      apply (mirrors_addWith .joinExpr (.cmp _) _).bind
      intro keys
      apply (mirrors_bypass _).bind
      intro _
      apply (mirrors_remove candidate.finish 1).bind
      intro result
      exact (mirrors_remove candidate.finish 0).bind
        (fun tail => .of_pure _)

theorem mirrors_extractPipe
    (stage : NodeId) :
    Edit.Mirrors (extractPipe stage)
      (extractPipe stage) := by
  unfold extractPipe
  apply Mirrors.get_bind
  intro plan
  have hBinds :
      bindsSlot plan.veil stage = bindsSlot plan stage := by
    simp [bindsSlot]
  simp only [Plan.isChecked_veil, Plan.rowExpr?_veil,
    Plan.child?_veil, Plan.visible_veil, Plan.tree_veil,
    Tree.eagerPipes_veil, Tree.candidate?_veil,
    Option.isSome_map, hBinds]
  split
  · exact .of_pure false
  · split
    · split
      · exact .of_pure false
      · rename_i pipe _
        apply (mirrors_fresh "n").bind
        intro name
        apply (mirrors_add .variableRef (.var name) []).bind
        intro reference
        apply (mirrors_replace pipe reference).bind
        intro _
        apply (mirrors_add .variable (.var name) []).bind
        intro declared
        apply (mirrors_addWith .letBind .none _).bind
        intro bind
        exact (mirrors_interpose stage bind).bind
          (fun _ => .of_pure true)
    · exact .of_pure false

theorem mirrors_leftJoinLet
    (stage : NodeId) :
    Edit.Mirrors (leftJoinLet stage)
      (leftJoinLet stage) := by
  unfold leftJoinLet
  apply Mirrors.get_bind
  intro plan
  have hCandidate :
      (plan.veil.child? stage 2).bind
          (plan.veil.candidate? stage) =
        ((plan.child? stage 2).bind
          (plan.candidate? stage)).map Candidate.veil := by
    rw [Plan.child?_veil, Option.map_bind]
    congr 1
    funext pipe
    exact plan.candidate?_veil stage pipe
  dsimp only
  rw [Plan.isChecked_veil, hCandidate, Plan.tree_veil,
    Tree.binding?_veil]
  split
  · exact .of_pure false
  · cases (plan.child? stage 2).bind
        (plan.candidate? stage) with
    | none => exact .of_pure false
    | some candidate =>
        cases (plan.tree stage).binding? with
        | none => exact mirrors_fail _
        | some target =>
            apply (mirrors_remove stage 0).bind
            intro feeder
            apply (mirrors_fresh "pos").bind
            intro number
            apply (mirrors_add .variable
              (.var number) []).bind
            intro declared
            apply (mirrors_addWith .count .none _).bind
            intro count
            apply (mirrors_takeApart candidate).bind
            intro inner
            apply (mirrors_addWith .join .none _).bind
            intro join
            apply (mirrors_setProperty join _ _).bind
            intro _
            apply Mirrors.get_bind
            intro plan
            have hBound :
                candidate.veil.bound = candidate.bound := rfl
            rw [Plan.kind_veil, Plan.var?_veil, hBound]
            split
            · apply (mirrors_setProperty join _ _).bind
              intro _
              exact (mirrors_replace stage join).bind
                (fun _ => .of_pure true)
            · apply (mirrors_fresh "r").bind
              intro source
              apply (mirrors_add .variable
                (.var source) []).bind
              intro declared
              apply (mirrors_addWith .letBind .none _).bind
              intro bind
              apply (mirrors_setProperty bind _ _).bind
              intro _
              apply (mirrors_setProperty join _ _).bind
              intro _
              exact (mirrors_replace stage bind).bind
                (fun _ => .of_pure true)

theorem mirrors_innerJoinFor
    (stage : NodeId) :
    Edit.Mirrors (innerJoinFor stage)
      (innerJoinFor stage) := by
  unfold innerJoinFor
  apply Mirrors.get_bind
  intro plan
  have hCandidate :
      (plan.veil.lastChild? stage).bind
          (plan.veil.candidate? stage) =
        ((plan.lastChild? stage).bind
          (plan.candidate? stage)).map Candidate.veil := by
    rw [Plan.lastChild?_veil, Option.map_bind]
    congr 1
    funext pipe
    exact plan.candidate?_veil stage pipe
  dsimp only
  rw [Plan.isChecked_veil, hCandidate, Plan.tree_veil,
    Tree.binding?_veil, Tree.position?_veil]
  split
  · exact .of_pure false
  · cases (plan.lastChild? stage).bind
        (plan.candidate? stage) with
    | none => exact .of_pure false
    | some candidate =>
        cases (plan.tree stage).binding? with
        | none => exact mirrors_fail _
        | some target =>
            change Edit.Mirrors
              (if candidate.bound.contains target then _
                else _)
              (if candidate.bound.contains target then _
                else _)
            split
            · exact .of_pure false
            · apply (mirrors_remove stage 0).bind
              intro feeder
              apply (mirrors_takeApart candidate).bind
              intro inner
              apply (mirrors_addWith .join .none _).bind
              intro join
              apply (mirrors_add .variable
                (.var target) []).bind
              intro declared
              apply (mirrors_addWith .forBind .none _).bind
              intro bind
              exact (mirrors_replace stage bind).bind
                (fun _ => .of_pure true)

theorem mirrors_unnestStage
    (stage : NodeId) :
    Edit.Mirrors (unnestStage stage) (unnestStage stage) := by
  unfold unnestStage
  apply Mirrors.get_bind
  intro plan
  rw [Plan.kind_veil]
  cases plan.kind stage
  case finish => exact mirrors_extractPipe stage
  case selection => exact mirrors_extractPipe stage
  case letBind =>
    apply (mirrors_extractPipe stage).bind
    intro extracted
    cases extracted with
    | true => exact .of_pure true
    | false => exact mirrors_leftJoinLet stage
  case forBind =>
    apply (mirrors_extractPipe stage).bind
    intro extracted
    cases extracted with
    | true => exact .of_pure true
    | false => exact mirrors_innerJoinFor stage
  all_goals exact .of_pure false

theorem mirrors_emitGroup
    (join : NodeId)
    (target source : String) :
    Edit.Mirrors (emitGroup join target source)
      (emitGroup join target source) := by
  have hKey (group : NodeId) (name : String) :
      Edit.Mirrors (addGroupKey group name)
        (addGroupKey group name) := by
    unfold addGroupKey
    apply (mirrors_add .variableRef (.var name) []).bind
    intro reference
    apply (mirrors_addWith .groupSpec .none _).bind
    intro spec
    exact mirrors_append group spec
  unfold emitGroup
  apply Mirrors.get_bind
  intro plan
  have hVisible : plan.veil.visible = plan.visible :=
    funext plan.visible_veil
  dsimp only
  rw [Plan.child?_veil, hVisible, Plan.regroupPoint_veil,
    Plan.parent?_veil, Plan.indexInParent?_veil]
  split
  · exact mirrors_fail _
  · exact mirrors_fail _
  · rename_i consumer index _ _
    apply (mirrors_remove consumer index).bind
    intro _
    apply (mirrors_addWith .groupBy .none _).bind
    intro group
    apply (Mirrors.forM (hKey group) _).bind
    intro _
    apply (mirrors_add .variable (.var target) []).bind
    intro declared
    apply (mirrors_add .variableRef (.var source) []).bind
    intro reference
    apply (mirrors_addWith .aggregateSpec .none _).bind
    intro aggregate
    apply (mirrors_append group aggregate).bind
    intro _
    apply (mirrors_insert consumer index group).bind
    intro _
    exact mirrors_eraseProperty join _

theorem mirrors_regroupJoin
    (join : NodeId) :
    Edit.Mirrors (regroupJoin join) (regroupJoin join) := by
  unfold regroupJoin
  apply Mirrors.get_bind
  intro plan
  have hPending :
      ((plan.veil.child? join 0).map plan.veil.tree).map
          (fun t => t.subtrees.any Tree.isPendingJoin) =
        ((plan.child? join 0).map plan.tree).map
          (fun t => t.subtrees.any Tree.isPendingJoin) := by
    simp [Function.comp_def]
  dsimp only
  rw [Plan.kind_veil, Plan.properties_veil, hPending]
  split
  · exact .of_pure false
  · split
    · split
      · exact .of_pure false
      · exact (mirrors_emitGroup join _ _).bind
          (fun _ => .of_pure true)
    · exact .of_pure false

theorem mirrors_liftLocally
    (bind : NodeId)
    (name : String)
    (reads : List String) :
    Edit.Mirrors (liftLocally bind name reads)
      (liftLocally bind name reads) := by
  unfold liftLocally
  apply Mirrors.get_bind
  intro plan
  rw [Plan.tree_veil, Tree.loopExit?_veil]
  split
  · exact .of_pure false
  · rename_i target _
    apply (mirrors_bypass bind).bind
    intro _
    exact (mirrors_interpose target bind).bind
      (fun _ => .of_pure true)

theorem outwardTarget?_veil
    (plan : Plan)
    (bind : NodeId)
    (name : String)
    (reads : List String) :
    outwardTarget? plan.veil bind name reads =
      outwardTarget? plan bind name reads := by
  have hParent : plan.veil.parent? = plan.parent? :=
    funext plan.parent?_veil
  simp only [outwardTarget?, Plan.tree_veil,
    Tree.input?_veil, Option.bind_eq_bind, Option.bind_map,
    Function.comp_def, Tree.kind_veil,
    Plan.enclosingFinish?_veil, hParent,
    Plan.rowExprOwner?_veil, Plan.isChecked_veil,
    Plan.child?_veil, Plan.kind_veil, Tree.letsPass_veil,
    Tree.referencesOutside_veil]

theorem mirrors_liftOutward
    (bind : NodeId)
    (name : String)
    (reads : List String) :
    Edit.Mirrors (liftOutward bind name reads)
      (liftOutward bind name reads) := by
  unfold liftOutward
  apply Mirrors.get_bind
  intro plan
  rw [outwardTarget?_veil]
  split
  · exact .of_pure false
  · rename_i owner _
    apply (mirrors_bypass bind).bind
    intro _
    exact (mirrors_interpose owner bind).bind
      (fun _ => .of_pure true)

theorem mirrors_liftBinding
    (bind : NodeId) :
    Edit.Mirrors (liftBinding bind) (liftBinding bind) := by
  unfold liftBinding
  apply Mirrors.get_bind
  intro plan
  dsimp only
  rw [Plan.kind_veil, Plan.isChecked_veil, Plan.tree_veil,
    Tree.binding?_veil, Tree.children_veil,
    List.getElem?_map]
  split
  · exact .of_pure false
  · cases (plan.tree bind).binding? with
    | none => exact .of_pure false
    | some name =>
        cases (plan.tree bind).children[2]? with
        | none => exact .of_pure false
        | some value =>
            simp only [Option.map_some,
              Tree.references_veil]
            apply (mirrors_liftLocally bind name _).bind
            intro lifted
            cases lifted with
            | true => exact .of_pure true
            | false => exact mirrors_liftOutward bind name _

theorem mirrors_markJoin
    (blind : OrderBlind)
    (join : NodeId) :
    Edit.Mirrors (markJoin blind join)
      (markJoin blind join) := by
  unfold markJoin
  apply Mirrors.get_bind
  intro plan
  dsimp only
  rw [Plan.kind_veil, Plan.properties_veil,
    Plan.orderMatters?_veil]
  split
  · exact (mirrors_setProperty join _ _).bind
      (fun _ => .of_pure false)
  · exact .of_pure false

/- Every pass that settings ask for. -/
theorem mirrors_of_mem_passes
    {settings : Settings}
    {pass : Pass}
    (hMem : pass ∈ settings.passes)
    (id : NodeId) :
    Edit.Mirrors (pass.transform id) (pass.transform id) := by
  unfold Settings.passes at hMem
  rcases List.mem_cons.mp hMem with rfl | hMem
  · exact mirrors_mergeSteps id
  · split at hMem
    · simp only [List.mem_cons, List.not_mem_nil, or_false]
        at hMem
      rcases hMem with rfl | rfl | rfl | rfl
      · exact mirrors_unnestStage id
      · exact mirrors_liftBinding id
      · exact mirrors_regroupJoin id
      · exact mirrors_markJoin settings.orderBlind id
    · cases hMem

end Pass

end Flwor

------------------------------------------------------------
-- Walks
------------------------------------------------------------

namespace Flwor

/- The state of a walk over a plan behind the veil. -/
def WalkState.veil
    (state : WalkState Unit) : WalkState Unit :=
  { state with plan := state.plan.veil }

namespace Walk

variable {α : Type}

/- A step of a walk and its image behind the veil. -/
abbrev Mirrors
    (step image : Walk Unit α) : Prop :=
  Flwor.Mirrors WalkState.veil step image

theorem mirrors_edit
    {e image : Edit α}
    (hEdit : Edit.Mirrors e image) :
    Mirrors (edit e) (edit image) := by
  unfold edit
  apply Mirrors.get_bind
  intro state
  have hRun : image.run state.veil.plan =
      ((e.run state.plan).1, (e.run state.plan).2.veil) :=
    hEdit state.plan
  rw [hRun]
  rcases e.run state.plan with ⟨e | x, plan⟩
  · exact Mirrors.bind (.of_set rfl) (fun _ => .of_throw e)
  · exact Mirrors.bind (.of_set rfl) (fun _ => .of_pure x)

theorem mirrors_recordChange :
    Mirrors recordChange recordChange :=
  .of_modify (fun _ => rfl)

theorem mirrors_hasChanged :
    Mirrors hasChanged hasChanged := by
  unfold hasChanged
  exact Mirrors.get_bind (fun _ => .of_pure _)

/- A step that looks at the plan first. -/
theorem mirrors_plan_bind
    {next next' : Plan → Walk Unit α}
    (hNext : ∀ plan,
      Mirrors (next plan) (next' plan.veil)) :
    Mirrors (Walk.plan >>= next) (Walk.plan >>= next') := by
  unfold Walk.plan
  simp only [bind_assoc, pure_bind]
  exact Mirrors.get_bind (fun state => hNext state.plan)

end Walk

namespace Pass

open Walk

variable {pass : Pass}

/- A traversal makes the same visits behind the veil. -/
theorem mirrors_traverse
    (hPass : ∀ id,
      Edit.Mirrors (pass.transform id) (pass.transform id))
    (depth : Nat)
    (id : NodeId) :
    Walk.Mirrors (pass.walker.traverse depth id)
      (pass.walker.traverse depth id) := by
  have hVisit (id : NodeId) :
      Walk.Mirrors (pass.walker.visit id)
        (pass.walker.visit id) := by
    unfold walker
    apply (mirrors_edit (hPass id)).bind
    intro changed
    dsimp only
    split
    · exact mirrors_recordChange.bind
        (fun _ => .of_pure _)
    · exact .of_pure _
  induction depth generalizing id with
  | zero => exact .of_pure ()
  | succ depth ih =>
      unfold Walker.traverse
      apply (hVisit id).bind
      intro next
      apply mirrors_hasChanged.bind
      intro changed
      split
      · exact .of_pure ()
      · cases next with
        | skip => exact .of_pure ()
        | descend node =>
            apply mirrors_plan_bind
            intro plan
            rw [Plan.children_veil]
            apply Mirrors.forM
            intro child
            apply mirrors_hasChanged.bind
            intro changed
            split
            · exact ih child
            · exact .of_pure ()

theorem mirrors_traverseRoot
    (hPass : ∀ id,
      Edit.Mirrors (pass.transform id)
        (pass.transform id)) :
    Walk.Mirrors pass.walker.traverseRoot
      pass.walker.traverseRoot := by
  unfold Walker.traverseRoot
  apply Mirrors.bind (.of_pure ())
  intro _
  apply Mirrors.bind
  · apply Mirrors.of_modify
    exact fun _ => rfl
  intro _
  apply mirrors_plan_bind
  intro plan
  rw [Plan.size_veil, Plan.root_veil]
  exact mirrors_traverse hPass _ plan.root

theorem mirrors_walkFrom
    (hPass : ∀ id,
      Edit.Mirrors (pass.transform id) (pass.transform id))
    (left traversals : Nat) :
    Walk.Mirrors (pass.walker.walkFrom left traversals)
      (pass.walker.walkFrom left traversals) := by
  induction left generalizing traversals with
  | zero => exact .of_throw _
  | succ left ih =>
      unfold Walker.walkFrom
      apply (mirrors_traverseRoot hPass).bind
      intro _
      apply mirrors_hasChanged.bind
      intro changed
      split
      · exact ih (traversals + 1)
      · exact .of_pure _

/- A pass walks a plan and the plan behind the veil alike. -/
theorem run_veil
    (hPass : ∀ id,
      Edit.Mirrors (pass.transform id) (pass.transform id))
    (maxTraversals : Nat)
    (plan : Plan) :
    pass.run maxTraversals plan.veil =
      ((pass.run maxTraversals plan).1,
        (pass.run maxTraversals plan).2.veil) := by
  have hWalk := mirrors_walkFrom hPass maxTraversals 0
    { plan := plan, own := (), changed := false }
  unfold run Walker.walk
  change
    (((pass.walker.walkFrom maxTraversals 0).run.run
        (WalkState.veil ⟨plan, (), false⟩)).1,
      ((pass.walker.walkFrom maxTraversals 0).run.run
        (WalkState.veil ⟨plan, (), false⟩)).2.plan) = _
  rw [hWalk]
  rfl

end Pass

/- A sequence of passes. -/
theorem runPasses_veil
    (maxTraversals : Nat)
    (passes : List Pass)
    (hPasses : ∀ pass ∈ passes, ∀ id,
      Edit.Mirrors (pass.transform id) (pass.transform id))
    (plan : Plan) :
    runPasses maxTraversals passes plan.veil =
      (runPasses maxTraversals passes plan).map (fun r =>
        (r.1, r.2.veil)) := by
  induction passes generalizing plan with
  | nil => rfl
  | cons pass rest ih =>
      rw [List.forall_mem_cons] at hPasses
      rw [runPasses, runPasses,
        Pass.run_veil hPasses.1 maxTraversals plan]
      rcases pass.run maxTraversals plan with
        ⟨e | report, after⟩
      · rfl
      · dsimp only
        rw [ih hPasses.2 after]
        cases runPasses maxTraversals rest after <;> rfl

/-
  The optimizer makes the same reports of a plan and of the
  plan behind the veil, and rewrites them alike.
-/
theorem optimize_veil
    (settings : Settings)
    (plan : Plan) :
    optimize settings plan.veil =
      (optimize settings plan).map (fun r =>
        (r.1, r.2.veil)) :=
  runPasses_veil settings.maxTraversals settings.passes
    (fun _ hMem id => Pass.mirrors_of_mem_passes hMem id) plan

end Flwor
