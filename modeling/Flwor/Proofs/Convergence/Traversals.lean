import Flwor.Proofs.Arena.Alterations
import Flwor.Proofs.Rewriting.Fixpoints

/-
  Passes that reach their fixpoint.

  If a visit either leaves the plan as it is or records a
  change, then so does a traversal, and it ends with the
  first change.  If every change descends along a
  well-founded relation, some traversal finds nothing more
  to change.  Where visits may fail, a run that succeeds has
  still made one change after the other up to a fixpoint.

  Key definitions include:
    * `Pass.Changes`, `Pass.ChangesTo`
    * `Pass.Traverses`
    * `Pass.Converges`, `Pass.ConvergesWithin`
    * `Attempts`
    * `Pass.Steps`, `Pass.StepsUnless`, `Pass.Still`
    * `Pass.Preserves`, `Pass.Reaches`
    * `Edit.Descends`, `Pass.Descends`

  Key theorems include:
    * `Pass.Converges.of_traversals`
    * `Pass.StepsUnless.attempts_traverse`
    * `Pass.Steps.still_of_traverses`
    * `Pass.Preserves.of_run`
    * `Pass.Descends.converges_within`
-/

------------------------------------------------------------
-- Traversals of a Pass
------------------------------------------------------------

namespace Flwor

namespace Pass

/- The one change that a visit of a reached node makes. -/
def Changes
    (pass : Pass)
    (plan after : Plan) : Prop :=
  ∃ id, plan.Reaches id ∧
    (pass.transform id).run plan = (.ok true, after)

/-
  What a traversal from the root leaves, and whether it
  records a change, whatever was recorded before.
-/
def Traverses
    (pass : Pass)
    (plan : Plan)
    (changed : Bool)
    (after : Plan) : Prop :=
  ∀ before, StateT.run (ExceptT.run pass.walker.traverseRoot)
    ⟨plan, (), before⟩ = (.ok (), ⟨after, (), changed⟩)

/- A number of traversals that make exactly one change each. -/
inductive ChangesTo
    (pass : Pass) : Nat → Plan → Plan → Prop where
  | refl (plan : Plan) : ChangesTo pass 0 plan plan
  | step
      {changes : Nat}
      {plan middle after : Plan}
      (hTraverses : pass.Traverses plan true middle)
      (hChanges : pass.Changes plan middle)
      (hRest : ChangesTo pass changes middle after) :
      ChangesTo pass (changes + 1) plan after

/-
  The walk of a pass reaches its fixpoint after a number of
  changes: it succeeds if it may make one more traversal
  than that, and only then.  Another walk changes nothing.
-/
structure Converges
    (pass : Pass)
    (plan : Plan)
    (changes : Nat)
    (result : Plan) : Prop where
  traversals : ∃ last, pass.ChangesTo changes plan last ∧
    pass.Traverses last false result
  succeeds : ∀ bound, changes < bound →
    pass.run bound plan =
      (.ok ⟨pass.name, changes + 1, changes != 0⟩, result)
  fails : ∀ bound, bound ≤ changes →
    (pass.run bound plan).1 =
      .error (.noFixpoint pass.name bound)
  settled : ∀ bound, 0 < bound →
    pass.run bound result =
      (.ok ⟨pass.name, 1, false⟩, result)

/- The same, where no more than some changes are made. -/
def ConvergesWithin
    (pass : Pass)
    (plan : Plan)
    (most : Nat) : Prop :=
  ∃ changes result, pass.Converges plan changes result ∧
    changes ≤ most

variable {pass : Pass}
variable {plan middle last result : Plan}
variable {changes : Nat}

theorem walkFrom_of_traverses
    {changed : Bool}
    (hTraverses : pass.Traverses plan changed middle)
    (left traversals : Nat)
    (before : Bool) :
    StateT.run (ExceptT.run
        (pass.walker.walkFrom (left + 1) traversals))
        ⟨plan, (), before⟩ =
      if changed then
        StateT.run (ExceptT.run
          (pass.walker.walkFrom left (traversals + 1)))
          ⟨middle, (), true⟩
      else
        (.ok ⟨pass.name, traversals + 1, traversals != 0⟩,
          ⟨middle, (), false⟩) := by
  rw [Walker.walkFrom, ExceptT.run_bind, StateT.run_bind,
    hTraverses before]
  cases changed <;> rfl

/- With enough traversals left the fixpoint is reached. -/
theorem ChangesTo.walkFrom_ok
    (hChanges : pass.ChangesTo changes plan last)
    (hLast : pass.Traverses last false result)
    {left : Nat}
    (hLeft : changes < left)
    (traversals : Nat)
    (before : Bool) :
    StateT.run (ExceptT.run
        (pass.walker.walkFrom left traversals))
        ⟨plan, (), before⟩ =
      (.ok ⟨pass.name, traversals + changes + 1,
          traversals + changes != 0⟩,
        ⟨result, (), false⟩) := by
  induction hChanges generalizing left traversals before with
  | refl plan =>
      rcases left with _ | left
      · exact (Nat.not_lt_zero _ hLeft).elim
      rw [walkFrom_of_traverses hLast]
      rfl
  | @step changes plan middle after hTraverses _ _ ih =>
      rcases left with _ | left
      · exact (Nat.not_lt_zero _ hLeft).elim
      rw [walkFrom_of_traverses hTraverses, if_pos rfl,
        ih hLast (Nat.lt_of_succ_lt_succ hLeft),
        show traversals + 1 + changes =
          traversals + (changes + 1) by omega]

/- Otherwise the bound is reached first. -/
theorem ChangesTo.walkFrom_error
    (hChanges : pass.ChangesTo changes plan last)
    {left : Nat}
    (hLeft : left ≤ changes)
    (traversals : Nat)
    (before : Bool) :
    (StateT.run (ExceptT.run
        (pass.walker.walkFrom left traversals))
        ⟨plan, (), before⟩).1 =
      .error (.noFixpoint pass.name (traversals + left)) := by
  induction hChanges generalizing left traversals before with
  | refl plan =>
      rw [Nat.le_zero.mp hLeft]
      rfl
  | @step changes plan middle after hTraverses _ _ ih =>
      rcases left with _ | left
      · rfl
      rw [walkFrom_of_traverses hTraverses, if_pos rfl,
        ih (Nat.le_of_succ_le_succ hLeft),
        show traversals + 1 + left =
          traversals + (left + 1) by omega]

/-
  A walk is determined by its traversals: those that make a
  change, the last one, and the one of another walk.
-/
theorem Converges.of_traversals
    (hChanges : pass.ChangesTo changes plan last)
    (hLast : pass.Traverses last false result)
    (hSettled : pass.Traverses result false result) :
    pass.Converges plan changes result := by
  refine ⟨⟨last, hChanges, hLast⟩, fun bound hBound => ?_,
    fun bound hBound => ?_, fun bound hBound => ?_⟩
  · rw [run, Walker.walk,
      hChanges.walkFrom_ok hLast hBound, Nat.zero_add]
  · have hRun := hChanges.walkFrom_error hBound 0 false
    rw [Nat.zero_add] at hRun
    exact hRun
  · have hRun := (ChangesTo.refl result).walkFrom_ok hSettled
      hBound 0 false
    rw [run, Walker.walk, hRun]
    rfl

end Pass

end Flwor

------------------------------------------------------------
-- Actions That May Fail
------------------------------------------------------------

namespace Flwor

variable {σ α β : Type}
variable {s : σ}
variable {mayFail : Prop}

/-
  An action succeeds, with an answer and a state as stated,
  unless it is one that may fail.
-/
def Attempts
    (action : ExceptT Failure (StateM σ) α)
    (before : σ)
    (mayFail : Prop)
    (post : α → σ → Prop) : Prop :=
  Achieves action before post ∨ mayFail ∧ ∃ e after,
    StateT.run (ExceptT.run action) before = (.error e, after)

theorem Achieves.attempts
    {action : ExceptT Failure (StateM σ) α}
    {post : α → σ → Prop}
    (hAction : Achieves action s post) :
    Attempts action s mayFail post :=
  .inl hAction

namespace Attempts

variable {action : ExceptT Failure (StateM σ) α}
variable {post : α → σ → Prop}

theorem achieves
    (hAction : Attempts action s False post) :
    Achieves action s post := by
  rcases hAction with hAction | ⟨hFail, _⟩
  · exact hAction
  · exact hFail.elim

/- What is known after success. -/
theorem of_run
    {x : α}
    {after : σ}
    (hAction : Attempts action s mayFail post)
    (hRun : StateT.run (ExceptT.run action) s =
      (.ok x, after)) :
    post x after := by
  rcases hAction with
    ⟨y, last, hRun', hPost⟩ | ⟨_, e, last, hRun'⟩
  · cases hRun.symm.trans hRun'
    exact hPost
  · cases hRun.symm.trans hRun'

theorem mono
    {post' : α → σ → Prop}
    (hAction : Attempts action s mayFail post)
    (hMono : ∀ x after, post x after → post' x after) :
    Attempts action s mayFail post' :=
  hAction.imp_left (fun h => h.mono hMono)

/- One action after the other. -/
theorem bind
    {next : α → ExceptT Failure (StateM σ) β}
    {post' : β → σ → Prop}
    (hAction : Attempts action s mayFail post)
    (hNext : ∀ x middle, post x middle →
      Attempts (next x) middle mayFail post') :
    Attempts (action >>= next) s mayFail post' := by
  rcases hAction with
    ⟨x, middle, hRun, hPost⟩ | ⟨hFail, e, after, hRun⟩
  · unfold Attempts Achieves
    rw [ExceptT.run_bind, StateT.run_bind, hRun]
    exact hNext x middle hPost
  · refine .inr ⟨hFail, e, after, ?_⟩
    rw [ExceptT.run_bind, StateT.run_bind, hRun]
    rfl

end Attempts

theorem attempts_get_bind
    {next : σ → ExceptT Failure (StateM σ) α}
    {post : α → σ → Prop}
    (hNext : Attempts (next s) s mayFail post) :
    Attempts (get >>= next) s mayFail post :=
  hNext

namespace Walk

variable {state : WalkState σ}
variable {post : α → WalkState σ → Prop}

/- Steps that look at the record or at the plan first. -/
theorem attempts_hasChanged_bind
    {next : Bool → Walk σ α}
    (hNext : Attempts (next state.changed) state mayFail post) :
    Attempts (hasChanged >>= next) state mayFail post :=
  hNext

theorem attempts_plan_bind
    {next : Plan → Walk σ α}
    (hNext : Attempts (next state.plan) state mayFail post) :
    Attempts (Walk.plan >>= next) state mayFail post :=
  hNext

/- An edit changes nothing but the plan. -/
theorem attempts_edit
    {e : Edit α}
    {kept : α → Plan → Prop}
    (hEdit : Attempts e state.plan mayFail kept) :
    Attempts (Walk.edit e : Walk σ α) state mayFail
      (fun x after =>
        e.run state.plan = (.ok x, after.plan) ∧
          kept x after.plan ∧
            after.changed = state.changed) := by
  refine attempts_get_bind ?_
  rcases hEdit with
    ⟨x, plan, hRun, hPost⟩ | ⟨hFail, failure, plan, hRun⟩
  · have hEdit : e.run state.plan = (.ok x, plan) := hRun
    rw [hEdit]
    exact .inl (achieves_set_bind
      (achieves_return ⟨rfl, hPost, rfl⟩))
  · have hEdit : e.run state.plan = (.error failure, plan) :=
      hRun
    rw [hEdit]
    exact .inr ⟨hFail, failure, _, rfl⟩

end Walk

end Flwor

------------------------------------------------------------
-- The First Change
------------------------------------------------------------

namespace Flwor

namespace Pass

/-
  At each node that is reached the pass leaves the plan as
  it is, or records a change.
-/
def Steps
    (pass : Pass)
    (plan : Plan) : Prop :=
  ∀ id, plan.Reaches id →
    (pass.transform id).run plan = (.ok false, plan) ∨
      ∃ after,
        (pass.transform id).run plan = (.ok true, after)

/- The same for a pass whose visits may fail. -/
def StepsUnless
    (pass : Pass)
    (mayFail : Prop)
    (plan : Plan) : Prop :=
  ∀ id, plan.Reaches id →
    Attempts (pass.transform id) plan mayFail
      (fun changed after => changed = false → after = plan)

/- A visit of a node leaves the plan as it is. -/
def Still
    (pass : Pass)
    (plan : Plan)
    (id : NodeId) : Prop :=
  (pass.transform id).run plan = (.ok false, plan)

/-
  The plan as it was after visits of some nodes, or after one
  recorded change.
-/
inductive Outcome
    (pass : Pass)
    (plan : Plan)
    (visited : List NodeId) : WalkState Unit → Prop where
  | still
      (hStill : ∀ id ∈ visited, pass.Still plan id) :
      Outcome pass plan visited ⟨plan, (), false⟩
  | changed
      {after : Plan}
      (hChanges : pass.Changes plan after) :
      Outcome pass plan visited ⟨after, (), true⟩

variable {pass : Pass}
variable {plan : Plan}
variable {state : WalkState Unit}
variable {id : NodeId}
variable {visited : List NodeId}
variable {mayFail : Prop}

/- The children are visited up to the first change. -/
theorem Outcome.attempts_children
    {visit : NodeId → Walk Unit Unit}
    {below : NodeId → List NodeId}
    (hVisit : ∀ c, plan.Reaches c →
      Attempts (visit c) ⟨plan, (), false⟩ mayFail
        (fun _ after => pass.Outcome plan (below c) after))
    (cs : List NodeId)
    (hReach : ∀ c ∈ cs, plan.Reaches c)
    (hOutcome : pass.Outcome plan visited state) :
    Attempts (cs.forM (fun c => do
      if !(← Walk.hasChanged) then visit c) :
        Walk Unit Unit) state mayFail
          (fun _ after => pass.Outcome plan
            (visited ++ cs.flatMap below) after) := by
  induction cs generalizing state visited with
  | nil =>
      rw [List.flatMap_nil, List.append_nil]
      exact .inl (achieves_return hOutcome)
  | cons c rest ih =>
      rw [List.forall_mem_cons] at hReach
      rw [List.forM, List.flatMap_cons, ← List.append_assoc]
      have hHead : Attempts ((do
          if !(← Walk.hasChanged) then visit c) :
            Walk Unit Unit) state mayFail
              (fun _ after => pass.Outcome plan
                (visited ++ below c) after) := by
        refine Walk.attempts_hasChanged_bind ?_
        cases hOutcome with
        | changed hChanges =>
            exact (achieves_return (.changed hChanges)).attempts
        | still hStill =>
            refine (hVisit c hReach.1).mono ?_
            rintro _ _ (hBelow | hChanges)
            · exact .still (List.forall_mem_append.mpr
                ⟨hStill, hBelow⟩)
            · exact .changed hChanges
      exact hHead.bind (fun _ _ hNext => ih hReach.2 hNext)

namespace StepsUnless

variable (hSteps : pass.StepsUnless mayFail plan)

include hSteps

theorem attempts_visit
    (hReach : plan.Reaches id) :
    Attempts (pass.walker.visit id) ⟨plan, (), false⟩ mayFail
      (fun next after =>
        next = .descend id ∧
          pass.Outcome plan [id] after) := by
  refine (Walk.attempts_edit (hSteps id hReach)).bind ?_
  rintro changed ⟨after, _, recorded⟩ ⟨hRun, hKept, hSame⟩
  cases hSame
  cases changed with
  | false =>
      have hPlan : after = plan := hKept rfl
      cases hPlan
      exact (achieves_return ⟨rfl, .still
        (List.forall_mem_singleton.mpr hRun)⟩).attempts
  | true =>
      refine Achieves.attempts ?_
      exact achieves_modify_bind (achieves_return
        ⟨rfl, .changed ⟨id, hReach, hRun⟩⟩)

/- One level more than the depth of a tree is visited. -/
theorem attempts_traverse
    (depth : Nat)
    (hReach : plan.Reaches id) :
    Attempts (pass.walker.traverse (depth + 1) id)
      ⟨plan, (), false⟩ mayFail
        (fun _ after => pass.Outcome plan
          (plan.treeWithin depth id).ids after) := by
  induction depth generalizing id with
  | zero =>
      rw [Walker.traverse]
      refine (hSteps.attempts_visit hReach).bind ?_
      rintro _ _ ⟨rfl, hVisited⟩
      refine Walk.attempts_hasChanged_bind ?_
      cases hVisited with
      | changed hChanges =>
          exact (achieves_return (.changed hChanges)).attempts
      | still hStill =>
          refine Walk.attempts_plan_bind ?_
          have hNone (c : NodeId) (_ : plan.Reaches c) :
              Attempts (pass.walker.traverse 0 c)
                ⟨plan, (), false⟩ mayFail (fun _ after =>
                  pass.Outcome plan
                    ((fun _ => []) c) after) :=
            (achieves_return
              (.still (List.forall_mem_nil _))).attempts
          have hAll :=
            (Outcome.still hStill).attempts_children hNone _
              (fun c hC => hReach.child hC)
          rw [List.flatMap_eq_nil_iff.mpr (fun _ _ => rfl)]
            at hAll
          exact hAll
  | succ depth ih =>
      rw [Walker.traverse]
      refine (hSteps.attempts_visit hReach).bind ?_
      rintro _ _ ⟨rfl, hVisited⟩
      refine Walk.attempts_hasChanged_bind ?_
      cases hVisited with
      | changed hChanges =>
          exact (achieves_return (.changed hChanges)).attempts
      | still hStill =>
          refine Walk.attempts_plan_bind ?_
          rw [Plan.treeWithin, Plan.ids_node_map]
          exact (Outcome.still hStill).attempts_children
            (fun c hC => ih hC) _
            (fun c hC => hReach.child hC)

/- A traversal from the root starts without a record. -/
theorem attempts_traverseRoot
    (before : Bool) :
    Attempts pass.walker.traverseRoot ⟨plan, (), before⟩ mayFail
      (fun _ after => pass.Outcome plan
        (plan.treeWithin (plan.size + 1) plan.root).ids
          after) := by
  have hRoot : StateT.run
        (ExceptT.run pass.walker.traverseRoot)
        ⟨plan, (), before⟩ =
      StateT.run (ExceptT.run (pass.walker.traverse
        (plan.size + 2) plan.root)) ⟨plan, (), false⟩ :=
    rfl
  unfold Attempts Achieves
  rw [hRoot]
  exact hSteps.attempts_traverse (plan.size + 1) .root

end StepsUnless

/- The nodes that a traversal visits are those reached. -/
theorem mem_ids_of_reaches
    (hLinked : plan.Linked)
    (hReach : plan.Reaches id) :
    id ∈ (plan.treeWithin (plan.size + 1) plan.root).ids := by
  have hUnfolds : plan.Unfolds plan.root
      (plan.treeWithin (plan.size + 1) plan.root) :=
    Plan.unfolds_treeWithin hLinked
      (fun y hY => hLinked.not_below_self hY)
      ⟨∅, rfl, by simp⟩ (by omega)
  rw [hUnfolds.mem_ids_iff hLinked,
    ← hLinked.reaches_iff_under]
  exact hReach

namespace Steps

variable (hSteps : pass.Steps plan)

include hSteps

theorem stepsUnless :
    pass.StepsUnless False plan := by
  intro id hReach
  rcases hSteps id hReach with hRun | ⟨after, hRun⟩
  · exact .inl ⟨false, plan, hRun, fun _ => rfl⟩
  · exact .inl ⟨true, after, hRun, nofun⟩

/- A traversal makes one change, or finds none to make. -/
theorem traverses :
    (pass.Traverses plan false plan ∧
      ∀ x ∈ (plan.treeWithin (plan.size + 1) plan.root).ids,
        pass.Still plan x) ∨
      ∃ after, pass.Changes plan after ∧
        pass.Traverses plan true after := by
  have hRoot (before : Bool) :
      StateT.run (ExceptT.run pass.walker.traverseRoot)
        ⟨plan, (), before⟩ =
      StateT.run (ExceptT.run pass.walker.traverseRoot)
        ⟨plan, (), false⟩ :=
    rfl
  rcases (hSteps.stepsUnless.attempts_traverseRoot
      false).achieves with ⟨_, state, hRun, hOutcome⟩
  cases hOutcome with
  | still hStill => exact .inl ⟨fun before =>
      (hRoot before).trans hRun, hStill⟩
  | @changed after hChanges =>
      exact .inr ⟨after, hChanges, fun before =>
        (hRoot before).trans hRun⟩

/- A traversal that finds no change has seen every node. -/
theorem still_of_traverses
    {result : Plan}
    (hLinked : plan.Linked)
    (hTraverses : pass.Traverses plan false result) :
    result = plan ∧
      ∀ id, plan.Reaches id → pass.Still plan id := by
  rcases hSteps.traverses with
    ⟨hSame, hStill⟩ | ⟨after, _, hChanged⟩
  · have hEq := (hTraverses false).symm.trans (hSame false)
    cases hEq
    exact ⟨rfl, fun id hReach =>
      hStill id (mem_ids_of_reaches hLinked hReach)⟩
  · have hEq := (hTraverses false).symm.trans (hChanged false)
    cases hEq

end Steps

end Pass

end Flwor

------------------------------------------------------------
-- Successful Runs
------------------------------------------------------------

namespace Flwor

theorem Edit.Ensures.attempts
    {α : Type}
    {edit : Edit α}
    {plan : Plan}
    {post : α → Plan → Prop}
    (hEdit : edit.Ensures plan post) :
    Attempts edit plan True post := by
  rcases hRun : edit.run plan with ⟨e | x, after⟩
  · exact .inr ⟨trivial, e, after, hRun⟩
  · exact .inl ⟨x, after, hRun, hEdit x after hRun⟩

namespace Pass

variable {pass : Pass}
variable {inv : Plan → Prop}
variable {plan after result : Plan}

/-
  While an invariant holds, a visit that succeeds leaves the
  plan as it is, or records a change that keeps it.
-/
def Preserves
    (pass : Pass)
    (inv : Plan → Prop) : Prop :=
  ∀ plan id, inv plan → plan.Reaches id →
    Edit.Ensures (pass.transform id) plan
      (fun changed after =>
        (changed = false → after = plan) ∧
          (changed = true → inv after))

/- One change after the other, up to a fixpoint. -/
structure Reaches
    (pass : Pass)
    (plan result : Plan) : Prop where
  changes : Relation.ReflTransGen pass.Changes plan result
  still : ∀ id, result.Reaches id → pass.Still result id

namespace Preserves

variable (hPreserves : pass.Preserves inv)

include hPreserves

theorem stepsUnless
    (hInv : inv plan) :
    pass.StepsUnless True plan := by
  intro id hReach
  exact (hPreserves plan id hInv hReach).attempts.mono
    (fun _ _ hPost => hPost.1)

theorem of_changes
    (hInv : inv plan)
    (hChanges : pass.Changes plan after) :
    inv after := by
  rcases hChanges with ⟨id, hReach, hRun⟩
  exact (hPreserves plan id hInv hReach _ _ hRun).2 rfl

theorem of_sequence
    (hInv : inv plan)
    (hChanges : Relation.ReflTransGen pass.Changes plan after) :
    inv after := by
  induction hChanges with
  | refl => exact hInv
  | tail _ hStep ih => exact hPreserves.of_changes ih hStep

/- The bound on the traversals is not reached. -/
theorem walkFrom
    (hLinked : ∀ plan, inv plan → plan.Linked)
    (left traversals : Nat)
    (before : Bool)
    (hInv : inv plan) :
    Attempts (pass.walker.walkFrom left traversals)
      ⟨plan, (), before⟩ True
      (fun _ after => pass.Reaches plan after.plan) := by
  induction left generalizing plan traversals before with
  | zero => exact .inr ⟨trivial, _, _, rfl⟩
  | succ left ih =>
      rw [Walker.walkFrom]
      refine ((hPreserves.stepsUnless hInv).attempts_traverseRoot
        before).bind ?_
      intro _ state hOutcome
      refine Walk.attempts_hasChanged_bind ?_
      cases hOutcome with
      | still hStill =>
          exact .inl (achieves_return ⟨.refl, fun id hReach =>
            hStill id (mem_ids_of_reaches
              (hLinked plan hInv) hReach)⟩)
      | changed hChanges =>
          refine (ih (traversals + 1) true
            (hPreserves.of_changes hInv hChanges)).mono ?_
          rintro _ after ⟨hRest, hStill⟩
          exact ⟨.head hChanges hRest, hStill⟩

/- A run that succeeds has found a fixpoint. -/
theorem of_run
    {bound : Nat}
    {report : WalkReport}
    (hLinked : ∀ plan, inv plan → plan.Linked)
    (hInv : inv plan)
    (hRun : pass.run bound plan = (.ok report, result)) :
    pass.Reaches plan result := by
  rcases hWalk : StateT.run
      (ExceptT.run (pass.walker.walk bound))
      ⟨plan, (), false⟩ with ⟨x, state⟩
  rw [run, hWalk] at hRun
  cases hRun
  exact (hPreserves.walkFrom hLinked bound 0 false
    hInv).of_run hWalk

end Preserves

end Pass

end Flwor

------------------------------------------------------------
-- Descent
------------------------------------------------------------

namespace Flwor

/- A number that a plan has goes down. -/
abbrev Plan.Lowers
    (measure : Plan → Nat)
    (after before : Plan) : Prop :=
  measure after < measure before

namespace Edit

/-
  The plan is left as it is, or a change is recorded that
  makes it smaller and keeps an invariant.
-/
def Descends
    (edit : Edit Bool)
    (inv : Plan → Prop)
    (less : Plan → Plan → Prop)
    (plan : Plan) : Prop :=
  edit.run plan = (.ok false, plan) ∨ ∃ after,
    edit.run plan = (.ok true, after) ∧
      inv after ∧ less after plan

variable {edit : Edit Bool}
variable {inv : Plan → Prop}
variable {less : Plan → Plan → Prop}
variable {plan : Plan}

theorem descends_of_achieves
    (hEdit : edit.Achieves plan (fun done after =>
      (done = false → after = plan) ∧
        (done = true → inv after ∧ less after plan))) :
    edit.Descends inv less plan := by
  rcases hEdit with ⟨done, after, hRun, hSame, hChanged⟩
  cases done with
  | false => exact .inl (hSame rfl ▸ hRun)
  | true => exact .inr ⟨after, hRun, hChanged rfl⟩

end Edit

namespace Pass

/- While an invariant holds, each visit makes a plan smaller. -/
def Descends
    (pass : Pass)
    (inv : Plan → Prop)
    (less : Plan → Plan → Prop) : Prop :=
  ∀ plan id, inv plan → plan.Reaches id →
    (pass.transform id).Descends inv less plan

variable {pass : Pass}
variable {inv : Plan → Prop}
variable {less : Plan → Plan → Prop}
variable {plan after last : Plan}
variable {changes : Nat}

namespace Descends

variable (hDescends : pass.Descends inv less)

include hDescends

theorem steps
    (hInv : inv plan) :
    pass.Steps plan := by
  intro id hReach
  refine (hDescends plan id hInv hReach).imp_right ?_
  rintro ⟨after, hRun, _⟩
  exact ⟨after, hRun⟩

theorem of_changes
    (hInv : inv plan)
    (hChanges : pass.Changes plan after) :
    inv after ∧ less after plan := by
  rcases hChanges with ⟨id, hReach, hRun⟩
  rcases hDescends plan id hInv hReach with
    hSame | ⟨next, hNext, hPost⟩
  · rw [hRun] at hSame
    cases hSame
  · rw [hRun] at hNext
    cases hNext
    exact hPost

/- The last plan of the descent is found by traversals. -/
theorem converges
    (hLess : WellFounded less)
    (hInv : inv plan) :
    ∃ changes result, pass.Converges plan changes result := by
  have hReached : ∃ changes last,
      pass.ChangesTo changes plan last ∧
        pass.Traverses last false last := by
    induction plan using hLess.induction with
    | _ plan ih =>
        rcases (hDescends.steps hInv).traverses with
          ⟨hLast, _⟩ | ⟨after, hChanges, hTraverses⟩
        · exact ⟨0, plan, .refl plan, hLast⟩
        · rcases hDescends.of_changes hInv hChanges with
            ⟨hAfter, hSmaller⟩
          rcases ih after hSmaller hAfter with
            ⟨changes, last, hRest, hLast⟩
          exact ⟨changes + 1, last,
            .step hTraverses hChanges hRest, hLast⟩
  rcases hReached with ⟨changes, last, hChanges, hLast⟩
  exact ⟨changes, last, .of_traversals hChanges hLast hLast⟩

/- No more changes are made than a measure has steps. -/
theorem changes_le
    {measure : Plan → Nat}
    (hMeasure : ∀ after plan, less after plan →
      measure after < measure plan)
    (hInv : inv plan)
    (hChanges : pass.ChangesTo changes plan last) :
    changes ≤ measure plan := by
  induction hChanges with
  | refl plan => exact Nat.zero_le _
  | step _ hChange _ ih =>
      rcases hDescends.of_changes hInv hChange with
        ⟨hAfter, hSmaller⟩
      exact (ih hAfter).trans_lt (hMeasure _ _ hSmaller)

end Descends

/- A pass that lowers a number with each change. -/
theorem Descends.converges_within
    {measure : Plan → Nat}
    (hDescends : pass.Descends inv (Plan.Lowers measure))
    (hInv : inv plan) :
    pass.ConvergesWithin plan (measure plan) := by
  rcases hDescends.converges
      (InvImage.wf measure Nat.lt_wfRel.wf) hInv with
    ⟨changes, result, hConverges⟩
  rcases hConverges.traversals with ⟨last, hChanges, _⟩
  exact ⟨changes, result, hConverges,
    hDescends.changes_le (fun _ _ h => h) hInv hChanges⟩

end Pass

end Flwor
