import Flwor.Pass.LetLift
import Flwor.Proofs.Rewriting.Fixpoints
import Flwor.Proofs.Rewriting.Surgery

/-
  The pass that moves bindings keeps plans well formed.

  A binding is cut out of its pipeline and put in front of
  another stage or end.  All that matters for the rules is
  that this one is reached, is not the binding itself, and
  is fed by a stage that is not the binding either.

  Key theorems include:
    * `Pass.achieves_move`
    * `Pass.keeps_letLift`
-/

------------------------------------------------------------
-- Looking Around
------------------------------------------------------------

namespace Flwor

namespace Plan

variable {plan : Plan}
variable {id owner : NodeId}
variable {steps : Nat}

/- Whatever is found by going up is reached. -/
theorem Reaches.enclosingFinishWithin
    (hLinked : plan.Linked)
    (hReach : plan.Reaches id)
    (hFinish :
      plan.enclosingFinishWithin steps id = some owner) :
    plan.Reaches owner := by
  induction steps generalizing id with
  | zero => cases hFinish
  | succ steps ih =>
      rw [Plan.enclosingFinishWithin] at hFinish
      split at hFinish
      · cases hFinish
      next parent hParent =>
      have hUp := hReach.parent hLinked hParent
      split at hFinish
      · cases hFinish
        exact hUp
      · split at hFinish
        · exact ih hUp hFinish
        · cases hFinish

theorem Reaches.rowExprOwnerWithin
    (hLinked : plan.Linked)
    (hReach : plan.Reaches id)
    (hOwner :
      plan.rowExprOwnerWithin steps id = some owner) :
    plan.Reaches owner := by
  induction steps generalizing id with
  | zero => cases hOwner
  | succ steps ih =>
      rw [Plan.rowExprOwnerWithin] at hOwner
      split at hOwner
      · cases hOwner
      next parent hParent =>
      have hUp := hReach.parent hLinked hParent
      split at hOwner
      · cases hOwner
        exact hUp
      · split at hOwner
        · exact ih hUp hOwner
        · cases hOwner

end Plan

end Flwor

------------------------------------------------------------
-- Moved Bindings
------------------------------------------------------------

namespace Flwor

namespace Pass

open Plan

variable {plan : Plan}
variable {bind target feeder : NodeId}

/-
  A stage leaves its place and is put in front of another
  stage, or of an end.
-/
theorem achieves_move
    (hFormed : plan.WellFormed)
    (hReach : plan.Reaches bind)
    (hStage : (plan.kind bind).isStage)
    (hStart : plan.kind bind ≠ .start)
    (hTarget : plan.Reaches target)
    (hFeeder : plan.child? target 0 = some feeder)
    (hFeederStage : (plan.kind feeder).isStage)
    (hNe : target ≠ bind)
    (hFeederNe : feeder ≠ bind) :
    (do
      Edit.bypass bind
      Edit.interpose target bind
      return true : Edit Bool).Achieves plan
        plan.Rewritten := by
  rcases hFormed.exists_consumer hReach hStage with
    ⟨consumer, hParent, _, hConsumer⟩
  rcases hFormed.exists_feeder hReach (.inr hStage)
      hStart with
    ⟨head, hHead, hHeadStage⟩
  refine (hFormed.surgery.achieves_bypass hHead hParent
    hConsumer (live_of_reaches hReach)
    (.stage hStage hHeadStage)).bind ?_
  rintro _ cut ⟨hSurgery, hCut⟩
  have hLt (x : NodeId) (hX : plan.Reaches x) :
      x < plan.size := hFormed.lt_of_reaches hX
  have hFeederLt : feeder < plan.size :=
    hLt feeder (hTarget.child (mem_children_of_child? hFeeder))
  have hBindKind := hCut.edited.kind bind (hLt bind hReach)
  have hFeederKind := hCut.edited.kind feeder hFeederLt
  have hProper : (cut.kind bind).Proper (cut.payload bind)
      (cut.kind feeder :: cut.childKinds bind) := by
    have hBefore := hFormed.proper bind hReach
    rcases List.head?_eq_some_iff.mp
        ((List.head?_eq_getElem? ..).trans hHead) with
      ⟨rest, hChildren⟩
    rw [Plan.Proper, childKinds, hChildren, List.map_cons]
      at hBefore
    rw [hBindKind, hFeederKind,
      hCut.edited.payload bind (hLt bind hReach), childKinds,
      hCut.rest, hChildren, List.tail_cons,
      hCut.edited.map_kind]
    · exact hBefore.alike (.cons
        (.stage hHeadStage hFeederStage)
        (List.forall₂_same.mpr (fun k _ => .same k)))
    · intro c hC
      refine hFormed.linked.lt_of_mem (p := bind) ?_
      rw [hChildren]
      exact List.mem_cons_of_mem _ hC
  have hAlike : (cut.kind feeder).Alike (cut.kind bind) := by
    rw [hFeederKind, hBindKind]
    exact .stage hFeederStage hStage
  refine (hSurgery.achieves_interpose
    (hCut.child?_eq hNe hFeederNe hFeeder) hCut.detached hNe
    (live_of_reaches hTarget) (live_of_reaches hReach)
    (by simpa using hNe) hAlike hProper).bind ?_
  intro _ after hAfter
  exact achieves_return (.of_changed
    (hAfter.wellFormed_of_empty hFormed (by simp)))

/- The furthest stage that a binding can hop to. -/
theorem exists_of_loopExit?
    {name : String}
    {reads : List String}
    {t : Tree}
    (hExit : t.loopExit? name reads = some target) :
    ∃ s ∈ t.stages.drop 1, s.id = target ∧
      (s.kind = .forBind ∨ s.kind = .letBind) := by
  rw [Tree.loopExit?] at hExit
  split at hExit
  · rw [Option.map_eq_some_iff] at hExit
    rcases hExit with ⟨s, hLast, hId⟩
    have hMem := List.mem_of_getLast? hLast
    have hPass := List.mem_takeWhile_imp hMem
    rw [Tree.letsPass] at hPass
    simp only [Bool.and_eq_true, Bool.or_eq_true,
      decide_eq_true_eq] at hPass
    exact ⟨s, (List.takeWhile_sublist _).subset hMem, hId,
      hPass.1.1.1⟩
  · cases hExit

theorem achieves_liftLocally
    (hFormed : plan.WellFormed)
    (hReach : plan.Reaches bind)
    (hKind : plan.kind bind = .letBind)
    (name : String)
    (reads : List String) :
    (liftLocally bind name reads).Achieves plan
      plan.Rewritten := by
  refine achieves_get_bind ?_
  split
  · exact hFormed.achieves_nothing
  next target hExit =>
  rcases exists_of_loopExit? hExit with
    ⟨s, hS, rfl, hStageKind⟩
  rcases hReach with ⟨n, hAt⟩
  have hTree : plan.At n (plan.tree bind).id := by
    rw [id_tree]
    exact hAt
  rcases (plan.shows_tree bind).stages_drop hTree s hS with
    ⟨hShows, m, hDepth, hAtS⟩
  rw [hShows.kind_eq] at hStageKind
  have hStage : (plan.kind s.id).isStage := by
    rcases hStageKind with hK | hK <;> rw [hK] <;> rfl
  have hStart : plan.kind s.id ≠ .start := by
    rcases hStageKind with hK | hK <;> rw [hK] <;> simp
  rcases hFormed.exists_feeder ⟨m, hAtS⟩ (.inr hStage)
      hStart with
    ⟨feeder, hFeeder, hFeederStage⟩
  -- Both lie below the binding.
  have hNe : s.id ≠ bind := by
    intro hEq
    rw [hEq] at hAtS
    exact hDepth.ne (hAt.unique hFormed.linked hAtS)
  have hFeederNe : feeder ≠ bind := by
    rintro rfl
    have hBelow := hAtS.child (mem_children_of_child? hFeeder)
    have hSame := hAt.unique hFormed.linked hBelow
    omega
  exact achieves_move hFormed ⟨n, hAt⟩ (by rw [hKind]; rfl)
    (by rw [hKind]; simp) ⟨m, hAtS⟩ hFeeder hFeederStage hNe
    hFeederNe

/- The place outside that a binding can move to. -/
theorem exists_of_outwardTarget?
    {name : String}
    {reads : List String}
    (hTarget :
      outwardTarget? plan bind name reads = some target) :
    ∃ input pipe feeder,
      (plan.tree bind).input? = some input ∧
      input.kind = .start ∧
      (plan.enclosingFinish? bind).bind plan.parent? =
        some pipe ∧
      plan.rowExprOwner? pipe = some target ∧
      plan.isChecked target = false ∧
      plan.child? target 0 = some feeder ∧
      plan.kind feeder = .forBind := by
  simp only [outwardTarget?, Option.bind_eq_bind,
    Option.bind_eq_some_iff, Option.pure_def] at hTarget
  rcases hTarget with
    ⟨input, hInput, _, hStart, pipe, hPipe, owner, hOwner, _,
      hOpen, feeder, hFeeder, _, hFor, _, _, hRest⟩
  have hEq : owner = target := by
    split at hRest
    all_goals
      simp only [Option.bind_eq_some_iff] at hRest
      rcases hRest with ⟨_, _, _, _, hEq⟩
      exact Option.some.inj hEq
  subst hEq
  refine ⟨input, pipe, feeder, hInput, ?_,
    Option.bind_eq_some_iff.mpr hPipe, hOwner, ?_, hFeeder,
    ?_⟩
  · simpa [guard] using hStart
  · simpa [guard] using hOpen
  · simpa [guard] using hFor

theorem achieves_liftOutward
    (hFormed : plan.WellFormed)
    (hReach : plan.Reaches bind)
    (hKind : plan.kind bind = .letBind)
    (name : String)
    (reads : List String) :
    (liftOutward bind name reads).Achieves plan
      plan.Rewritten := by
  refine achieves_get_bind ?_
  split
  · exact hFormed.achieves_nothing
  next target hTarget =>
  rcases exists_of_outwardTarget? hTarget with
    ⟨input, pipe, feeder, hInput, hInputKind, hPipe, hOwner,
      _, hFeeder, hFeederKind⟩
  have hTargetReach : plan.Reaches target := by
    rw [Option.bind_eq_some_iff] at hPipe
    rcases hPipe with ⟨finish, hFinish, hParent⟩
    have hUp :=
      hReach.enclosingFinishWithin hFormed.linked hFinish
    exact (hUp.parent hFormed.linked
      hParent).rowExprOwnerWithin hFormed.linked hOwner
  -- The binding is fed by a start, its target by a loop.
  have hHead : plan.child? bind 0 = some input.id ∧
      plan.kind input.id = .start := by
    rw [Tree.input?] at hInput
    split at hInput
    · cases hInput
    · rw [List.head?_eq_getElem?] at hInput
      have hShows := plan.shows_tree bind
      rcases hShows.child?_eq hInput with ⟨hChild, hHere⟩
      rw [id_tree] at hHere
      exact ⟨hHere, hChild.kind_eq.symm.trans hInputKind⟩
  have hNe : target ≠ bind := by
    rintro rfl
    rw [hFeeder] at hHead
    rcases hHead with ⟨hEq, hStart⟩
    cases hEq
    rw [hFeederKind] at hStart
    cases hStart
  have hFeederNe : feeder ≠ bind := by
    rintro rfl
    rw [hFeederKind] at hKind
    cases hKind
  exact achieves_move hFormed hReach (by rw [hKind]; rfl)
    (by rw [hKind]; simp) hTargetReach hFeeder
    (by rw [hFeederKind]; rfl) hNe hFeederNe

/- A binding moves within its pipeline if it can. -/
theorem keeps_letLift :
    letLift.Keeps := by
  intro plan bind hFormed hReach
  refine achieves_get_bind ?_
  split
  · exact hFormed.achieves_nothing
  next hGuard =>
  have hKind : plan.kind bind = .letBind := by
    by_contra hKind
    simp [hKind] at hGuard
  dsimp only
  split
  · next name value _ _ =>
    refine achieves_orElse (achieves_liftLocally hFormed
      hReach hKind name value.references) ?_
    intro middle hMiddle hSame
    exact achieves_liftOutward hMiddle
      (hSame.reaches_iff.mpr hReach)
      ((hSame.kind bind).trans hKind) name value.references
  · exact hFormed.achieves_nothing

end Pass

end Flwor
