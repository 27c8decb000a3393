import Flwor.Proofs.Rewriting.Edits
import Flwor.Proofs.Rewriting.Reach

/-
  What a pass does to a whole plan, given what it does at
  one node.

  A traversal goes on to the nodes that it found as long as
  no change of the structure is recorded, and until then
  these nodes stay where they are.  So a pass that keeps
  plans well formed at each reached node keeps them well
  formed, wherever the bound on the traversals cuts it off.

  Key definitions include:
    * `Plan.Rewritten`
    * `Pass.Keeps`

  Key theorems include:
    * `Pass.Keeps.achieves_traverse`
    * `Pass.Keeps.run`
-/

------------------------------------------------------------
-- Steps of a Pass
------------------------------------------------------------

namespace Flwor

namespace Plan

/-
  A well-formed plan after a number of rewrites; without a
  recorded change it differs in annotations only.
-/
structure Rewritten
    (before : Plan)
    (changed : Bool)
    (after : Plan) : Prop where
  wellFormed : after.WellFormed
  unchanged : changed = false → before.SameLinks after

variable {before middle after : Plan}
variable {changed : Bool}

theorem Rewritten.of_sameLinks
    (hFormed : before.WellFormed)
    (hSame : before.SameLinks after) :
    before.Rewritten changed after :=
  ⟨hSame.wellFormed hFormed, fun _ => hSame⟩

theorem Rewritten.of_changed
    (hFormed : after.WellFormed) :
    before.Rewritten true after :=
  ⟨hFormed, fun hChanged => by cases hChanged⟩

theorem Rewritten.trans
    (hFirst : before.Rewritten false middle)
    (hSecond : middle.Rewritten changed after) :
    before.Rewritten changed after :=
  ⟨hSecond.wellFormed, fun hChanged =>
    (hFirst.unchanged rfl).trans
      (hSecond.unchanged hChanged)⟩

/- Nothing is done. -/
theorem WellFormed.achieves_nothing
    (hFormed : before.WellFormed) :
    (pure changed : Edit Bool).Achieves before
      before.Rewritten :=
  achieves_return (.of_sameLinks hFormed (.refl _))

/- A second way is tried if the first one does nothing. -/
theorem achieves_orElse
    {first second : Edit Bool}
    (hFirst : first.Achieves before before.Rewritten)
    (hSecond : ∀ middle : Plan, middle.WellFormed →
      before.SameLinks middle →
        second.Achieves middle middle.Rewritten) :
    (do
      if ← first then return true
      else second : Edit Bool).Achieves before
        before.Rewritten := by
  refine hFirst.bind ?_
  intro changed middle hMiddle
  cases changed with
  | true =>
      exact achieves_return (.of_changed hMiddle.wellFormed)
  | false =>
      refine (hSecond middle hMiddle.wellFormed
        (hMiddle.unchanged rfl)).mono ?_
      exact fun _ after hAfter => hMiddle.trans hAfter

end Plan

namespace Pass

/- A pass keeps plans well formed, whatever node it is at. -/
def Keeps
    (pass : Pass) : Prop :=
  ∀ (plan : Plan) (id : NodeId), plan.WellFormed →
    plan.Reaches id →
      (pass.transform id).Achieves plan plan.Rewritten

end Pass

end Flwor

------------------------------------------------------------
-- Traversals
------------------------------------------------------------

namespace Flwor

namespace Walk

variable {σ α : Type}
variable {state : WalkState σ}

/- An edit changes nothing but the plan. -/
theorem achieves_edit
    {e : Edit α}
    {post : α → Plan → Prop}
    (hEdit : e.Achieves state.plan post) :
    (Walk.edit e : Walk σ α).Achieves state (fun x after =>
      post x after.plan ∧ after.changed = state.changed) := by
  rcases hEdit with ⟨x, plan, hRun, hPost⟩
  refine achieves_get_bind ?_
  have hEdit : e.run state.plan = (.ok x, plan) := hRun
  rw [hEdit]
  refine achieves_set_bind ?_
  exact achieves_return ⟨hPost, rfl⟩

/- Steps that look at the record or at the plan first. -/
theorem achieves_hasChanged_bind
    {next : Bool → Walk σ α}
    {post : α → WalkState σ → Prop}
    (hNext : (next state.changed).Achieves state post) :
    (hasChanged >>= next).Achieves state post := by
  have hHere : (hasChanged : Walk σ Bool).Achieves state
      (fun changed after =>
        changed = state.changed ∧ state = after) :=
    achieves_get_bind (achieves_return ⟨rfl, rfl⟩)
  refine hHere.bind ?_
  rintro _ _ ⟨rfl, rfl⟩
  exact hNext

theorem achieves_plan_bind
    {next : Plan → Walk σ α}
    {post : α → WalkState σ → Prop}
    (hNext : (next state.plan).Achieves state post) :
    (Walk.plan >>= next).Achieves state post := by
  have hHere : (Walk.plan : Walk σ Plan).Achieves state
      (fun plan after => plan = state.plan ∧ state = after) :=
    achieves_get_bind (achieves_return ⟨rfl, rfl⟩)
  refine hHere.bind ?_
  rintro _ _ ⟨rfl, rfl⟩
  exact hNext

end Walk

namespace Pass

variable {pass : Pass}
variable {state : WalkState Unit}
variable {plan : Plan}
variable {id : NodeId}

/- The children of a visited node, one after the other. -/
theorem achieves_children
    {visit : NodeId → Walk Unit Unit}
    {cs : List NodeId}
    (hVisit : ∀ c ∈ cs, ∀ state : WalkState Unit,
      state.plan.WellFormed → state.plan.Reaches c →
        state.changed = false →
          (visit c).Achieves state (fun _ after =>
            state.plan.Rewritten after.changed after.plan))
    (hReach : ∀ c ∈ cs, plan.Reaches c)
    (hRewritten : plan.Rewritten state.changed state.plan) :
    (cs.forM (fun c => do
      if !(← Walk.hasChanged) then visit c) :
        Walk Unit Unit).Achieves state (fun _ after =>
          plan.Rewritten after.changed after.plan) := by
  induction cs generalizing state with
  | nil => exact achieves_return hRewritten
  | cons c rest ih =>
      rw [List.forall_mem_cons] at hVisit hReach
      rw [List.forM]
      have hHead : ((do
          if !(← Walk.hasChanged) then visit c) :
            Walk Unit Unit).Achieves state (fun _ after =>
              plan.Rewritten after.changed after.plan) := by
        refine Walk.achieves_hasChanged_bind ?_
        cases hChanged : state.changed with
        | true => exact achieves_return hRewritten
        | false =>
            rw [hChanged] at hRewritten
            have hSame := hRewritten.unchanged rfl
            refine (hVisit.1 state hRewritten.wellFormed
              (hSame.reaches_iff.mpr hReach.1)
              hChanged).mono ?_
            exact fun _ after hAfter =>
              hRewritten.trans hAfter
      refine hHead.bind ?_
      exact fun _ middle hMiddle =>
        ih hVisit.2 hReach.2 hMiddle

namespace Keeps

variable (hKeeps : pass.Keeps)

include hKeeps

/- One visit, while no change is recorded. -/
theorem achieves_visit
    (hFormed : state.plan.WellFormed)
    (hReach : state.plan.Reaches id)
    (hChanged : state.changed = false) :
    (pass.walker.visit id).Achieves state
      (fun next after => next = .descend id ∧
        state.plan.Rewritten after.changed after.plan) := by
  refine (Walk.achieves_edit
    (hKeeps state.plan id hFormed hReach)).bind ?_
  rintro changed middle ⟨hRewritten, hSame⟩
  rw [hChanged] at hSame
  cases changed with
  | false =>
      refine achieves_return ⟨rfl, ?_⟩
      rw [hSame]
      exact hRewritten
  | true =>
      refine achieves_modify_bind ?_
      exact achieves_return
        ⟨rfl, .of_changed hRewritten.wellFormed⟩

/- A traversal down to any depth. -/
theorem achieves_traverse
    (depth : Nat)
    (hFormed : state.plan.WellFormed)
    (hReach : state.plan.Reaches id)
    (hChanged : state.changed = false) :
    (pass.walker.traverse depth id).Achieves state
      (fun _ after =>
        state.plan.Rewritten after.changed after.plan) := by
  induction depth generalizing id state with
  | zero =>
      exact achieves_return
        (.of_sameLinks hFormed (.refl _))
  | succ depth ih =>
      rw [Walker.traverse]
      refine (hKeeps.achieves_visit hFormed hReach
        hChanged).bind ?_
      rintro _ visited ⟨rfl, hVisited⟩
      refine Walk.achieves_hasChanged_bind ?_
      cases hHere : visited.changed with
      | true =>
          rw [hHere] at hVisited
          refine achieves_return ?_
          rw [hHere]
          exact hVisited
      | false =>
          rw [hHere] at hVisited
          refine Walk.achieves_plan_bind ?_
          have hSame := hVisited.unchanged rfl
          have hChildren : ∀ c ∈ visited.plan.children id,
              state.plan.Reaches c := by
            intro c hC
            rw [hSame.children] at hC
            exact hReach.child hC
          refine achieves_children ?_ hChildren ?_
          · exact fun c _ state hFormed hReach hChanged =>
              ih hFormed hReach hChanged
          · rw [hHere]
            exact hVisited

/- A traversal from the root. -/
theorem achieves_traverseRoot
    (hFormed : state.plan.WellFormed) :
    pass.walker.traverseRoot.Achieves state (fun _ after =>
      after.plan.WellFormed) := by
  refine achieves_return_bind ?_
  refine achieves_modify_bind ?_
  refine Walk.achieves_plan_bind ?_
  have hCleared : ({ state with changed := false } :
      WalkState Unit).plan.WellFormed := hFormed
  refine (hKeeps.achieves_traverse _ hCleared .root
    rfl).mono ?_
  exact fun _ after hAfter => hAfter.wellFormed

/-
  A walk ends at a fixpoint or at its bound; the plan is
  well formed either way.
-/
theorem walkFrom
    (left traversals : Nat)
    (hFormed : state.plan.WellFormed) :
    ∃ result after,
      StateT.run (ExceptT.run
        (pass.walker.walkFrom left traversals)) state =
          (result, after) ∧
        after.plan.WellFormed ∧
        ((∃ report, result = .ok report) ∨
          result = .error
            (.noFixpoint pass.name (traversals + left))) := by
  induction left generalizing state traversals with
  | zero => exact ⟨_, _, rfl, hFormed, .inr rfl⟩
  | succ left ih =>
      rcases hKeeps.achieves_traverseRoot hFormed with
        ⟨_, middle, hRun, hMiddle⟩
      rw [Walker.walkFrom, ExceptT.run_bind,
        StateT.run_bind, hRun]
      cases hChanged : middle.changed with
      | true =>
          rcases ih (traversals + 1) hMiddle with
            ⟨result, after, hRest, hAfter, hResult⟩
          refine ⟨result, after, ?_, hAfter, ?_⟩
          · rw [← hRest]
            change StateT.run (ExceptT.run (if middle.changed
              then _ else _)) middle = _
            rw [if_pos hChanged]
          · rw [Nat.add_assoc, Nat.add_comm 1] at hResult
            exact hResult
      | false =>
          refine ⟨.ok ⟨pass.name, traversals + 1,
            traversals != 0⟩, middle, ?_, hMiddle,
            .inl ⟨_, rfl⟩⟩
          change StateT.run (ExceptT.run (if middle.changed
            then _ else _)) middle = _
          rw [if_neg (by simp [hChanged])]
          rfl

/- A run of the pass, within any bound. -/
theorem run
    (bound : Nat)
    (hFormed : plan.WellFormed) :
    (pass.run bound plan).2.WellFormed ∧
      ((∃ report, (pass.run bound plan).1 = .ok report) ∨
        (pass.run bound plan).1 =
          .error (.noFixpoint pass.name bound)) := by
  have hStart :
      (⟨plan, (), false⟩ : WalkState Unit).plan.WellFormed :=
    hFormed
  rcases hKeeps.walkFrom bound 0 hStart with
    ⟨result, after, hRun, hAfter, hResult⟩
  rw [Nat.zero_add] at hResult
  have hPass : pass.run bound plan = (result, after.plan) := by
    rw [Pass.run, Walker.walk, hRun]
  rw [hPass]
  exact ⟨hAfter, hResult⟩

end Keeps

end Pass

end Flwor
