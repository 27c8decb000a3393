import Flwor.Proofs.Rewriting.Copies

/-
  The places of stages in a plan that passes the check.

  Rows are read from child 0 of an end, from child 0 of a
  stage, and from child 2 of a join.  The check finds every
  stage that stands elsewhere, but one: it lets a stage be
  the second child of an end, where the result of a pipeline
  is expected.

  From a place where rows are read the way back through the
  first children meets stages only and ends at a start.

  Key definitions include:
    * `Kind.StagePlace`
    * `Plan.IsPipeline`

  Key theorems include:
    * `Kind.Places.stagePlace`
    * `Plan.stages_confined`
-/

------------------------------------------------------------
-- Places of Stages
------------------------------------------------------------

namespace Flwor

namespace Kind

/- The children that rows are read from, by their index. -/
inductive StagePlace : Kind → Nat → Prop where
  | finish : StagePlace .finish 0
  | stage
      {k : Kind}
      (hStage : k.isStage) :
      StagePlace k 0
  | join : StagePlace .join 2

variable {k c : Kind}
variable {p : Payload}
variable {ks : List Kind}
variable {index : Nat}

/-
  A stage that passes the check is in its place, or it is
  what an end returns.
-/
theorem Places.stagePlace
    {id : NodeId}
    (hAdmits : k.Admits p ks)
    (hPlaces : k.Places id ks)
    (hChild : ks[index]? = some c)
    (hStage : c.isStage) :
    k.StagePlace index ∨ (k = .finish ∧ index = 1) := by
  by_cases hFinish : k = .finish
  · subst hFinish
    rcases hAdmits with ⟨s, rest, rfl, _, hLength⟩
    have hBound := (List.getElem?_eq_some_iff.mp hChild).1
    rw [List.length_cons] at hBound
    have hIndex : index = 0 ∨ index = 1 := by omega
    rcases hIndex with rfl | rfl
    · exact .inl .finish
    · exact .inr ⟨rfl, rfl⟩
  by_cases hJoin : k = .join
  · subst hJoin
    rcases hAdmits with ⟨l, r, rfl, _, _⟩
    rcases index with _ | _ | _ | index
    · exact .inl (.stage rfl)
    · cases hChild
      cases hStage
    · exact .inl .join
    · cases hChild
  have hReads := (hPlaces index c hChild).2 hStage
  rw [readsRows_eq hFinish hJoin, Bool.and_eq_true,
    beq_iff_eq] at hReads
  rcases hReads with ⟨hOwn, rfl⟩
  exact .inl (.stage hOwn)

/- Where rows are read from a child, it is a stage. -/
theorem StagePlace.isStage
    (hPlace : k.StagePlace index)
    (hAdmits : k.Admits p ks)
    (hChild : ks[index]? = some c) :
    c.isStage := by
  cases hPlace with
  | finish =>
      rcases hAdmits with ⟨s, rest, rfl, hStage, _⟩
      cases hChild
      exact hStage
  | join =>
      rcases hAdmits with ⟨l, r, rfl, _, hRight⟩
      cases hChild
      exact hRight
  | stage hOwn =>
      by_cases hStart : k = .start
      · subst hStart
        have hNone : ks = [] := hAdmits
        rw [hNone] at hChild
        cases hChild
      · rcases hAdmits.head (.inr hOwn) hStart with
          ⟨s, rest, rfl, hStage⟩
        cases hChild
        exact hStage

end Kind

end Flwor

------------------------------------------------------------
-- Plans That Pass the Check
------------------------------------------------------------

namespace Flwor

namespace Plan

variable {plan : Plan}
variable {n depth : Nat}
variable {id p c : NodeId}
variable {index : Nat}

/- The rules of a node that is reached. -/
theorem rules_of_validate
    (hLinked : plan.Linked)
    (hValid : plan.validate = .ok ())
    (hReach : plan.Reaches id) :
    (plan.kind id).Admits (plan.payload id)
        (plan.childKinds id) ∧
      (plan.kind id).Places id (plan.childKinds id) := by
  rcases hReach with ⟨n, hAt⟩
  rcases checked_of_at hLinked (root_lt_of_validate hValid)
      (firstDefect?_of_validate hValid) hAt with
    ⟨site, depth, _, _, hTree⟩
  exact rules_of_checked hTree

theorem childKinds_getElem?
    (hChild : plan.child? p index = some c) :
    (plan.childKinds p)[index]? = some (plan.kind c) := by
  unfold child? at hChild
  rw [childKinds, List.getElem?_map, hChild]
  rfl

/- The chain of a stage goes on with its first child. -/
theorem chain_treeWithin_of_child
    (hStart : plan.kind id ≠ .start)
    (hChild : plan.child? id 0 = some c) :
    (plan.treeWithin (depth + 1) id).chain =
      id :: (plan.treeWithin depth c).chain := by
  rcases hChildren : plan.children id with _ | ⟨d, rest⟩
  · rw [child?, hChildren] at hChild
    cases hChild
  · rw [child?, hChildren] at hChild
    cases hChild
    rw [treeWithin, Tree.chain, Tree.stages, if_neg hStart,
      hChildren]
    rfl

/- The chain of a start is the start alone. -/
theorem chain_treeWithin_of_start
    (hStart : plan.kind id = .start) :
    (plan.treeWithin depth id).chain = [id] := by
  cases depth with
  | zero =>
      rw [treeWithin, Tree.chain, Tree.stages, if_pos hStart]
      rfl
  | succ depth =>
      rw [treeWithin, Tree.chain, Tree.stages, if_pos hStart]
      rfl

/- Stages, each fed by the next one, and a start at last. -/
def IsPipeline
    (plan : Plan)
    (chain : List NodeId) : Prop :=
  (∀ s ∈ chain, plan.Reaches s ∧ (plan.kind s).isStage) ∧
    ∃ first, chain.getLast? = some first ∧
      plan.kind first = .start

/- The chain of a stage meets stages, up to a start. -/
theorem isPipeline_chain
    (hLinked : plan.Linked)
    (hValid : plan.validate = .ok ())
    (hAt : plan.At n id)
    (hStage : (plan.kind id).isStage)
    (hDepth : plan.size ≤ n + depth) :
    plan.IsPipeline (plan.treeWithin depth id).chain := by
  have hRoot := root_lt_of_validate hValid
  have hBound := hAt.lt_size hLinked hRoot
  induction depth generalizing n id with
  | zero => omega
  | succ depth ih =>
      have hReach : plan.Reaches id := ⟨n, hAt⟩
      by_cases hStart : plan.kind id = .start
      · rw [chain_treeWithin_of_start hStart]
        constructor
        · rw [List.forall_mem_singleton]
          exact ⟨hReach, hStage⟩
        · exact ⟨id, rfl, hStart⟩
      · have hRules :=
          rules_of_validate hLinked hValid hReach
        rcases hRules.1.head (.inr hStage) hStart with
          ⟨k, ks, hKinds, hFirst⟩
        rw [childKinds, List.map_eq_cons_iff] at hKinds
        rcases hKinds with ⟨c, cs, hChildren, rfl, _⟩
        have hChild : plan.child? id 0 = some c := by
          rw [child?, hChildren]
          rfl
        have hAtC := hAt.child (mem_children_of_child? hChild)
        rcases ih hAtC hFirst (by omega)
            (hAtC.lt_size hLinked hRoot) with
          ⟨hAll, first, hLast, hKind⟩
        rw [chain_treeWithin_of_child hStart hChild]
        constructor
        · rw [List.forall_mem_cons]
          exact ⟨⟨hReach, hStage⟩, hAll⟩
        · refine ⟨first, ?_, hKind⟩
          rw [List.getLast?_cons, hLast]
          rfl

/-
  In a plan that passes the check every stage but the root
  is in its place, or is what an end returns, and no other
  child is a stage.  From each place where rows are read,
  the chain of stages ends at a start.
-/
theorem stages_confined
    (hLinked : plan.Linked)
    (hValid : plan.validate = .ok ()) :
    (∀ id, plan.Reaches id → (plan.kind id).isStage →
      id ≠ plan.root →
      ∃ p index, plan.Reaches p ∧
        plan.child? p index = some id ∧
        ((plan.kind p).StagePlace index ∨
          (plan.kind p = .finish ∧ index = 1))) ∧
    (∀ p index c, plan.Reaches p →
      plan.child? p index = some c →
      (plan.kind c).isStage →
        (plan.kind p).StagePlace index ∨
          (plan.kind p = .finish ∧ index = 1)) ∧
    (∀ p index c, plan.Reaches p →
      plan.child? p index = some c →
      (plan.kind p).StagePlace index →
        plan.IsPipeline (plan.tree c).chain) := by
  have hPlaces
      (p : NodeId)
      (index : Nat)
      (c : NodeId)
      (hReach : plan.Reaches p)
      (hChild : plan.child? p index = some c)
      (hStage : (plan.kind c).isStage) :
      (plan.kind p).StagePlace index ∨
        (plan.kind p = .finish ∧ index = 1) := by
    rcases rules_of_validate hLinked hValid hReach with
      ⟨hAdmits, hPlaces⟩
    exact hPlaces.stagePlace hAdmits
      (childKinds_getElem? hChild) hStage
  refine ⟨?_, hPlaces, ?_⟩
  · intro id hReach hStage hRoot
    rcases hReach.exists_parent hLinked hRoot with
      ⟨p, hParent, hP⟩
    rcases hLinked.exists_indexInParent? hParent with
      ⟨index, _, hChild⟩
    exact ⟨p, index, hP, hChild,
      hPlaces p index id hP hChild hStage⟩
  · intro p index c hReach hChild hPlace
    have hRules := rules_of_validate hLinked hValid hReach
    have hStage := hPlace.isStage hRules.1
      (childKinds_getElem? hChild)
    rcases hReach.child (mem_children_of_child? hChild) with
      ⟨n, hAt⟩
    exact isPipeline_chain hLinked hValid hAt hStage
      (Nat.le_add_left _ _)

/- A pipeline over a join of two starts. -/
def joining : Document :=
  .branch .pipeExpr
    [.branch .finish
      [.branch .join
        [.leaf .start,
         .node .joinExpr (.cmp (.general .eq))
          [.leaf .emptySequence, .leaf .emptySequence] [],
         .leaf .start]]]

/- The plan of that pipeline. -/
def joiningPlan : Plan :=
  ((Edit.install joining).run empty).2

/- The right input of the join is a start alone. -/
theorem stages_confined_joiningPlan :
    ofDocument joining = .ok joiningPlan ∧
      joiningPlan.validate = .ok () ∧
      joiningPlan.child? 2 2 = some 7 ∧
      joiningPlan.IsPipeline [7] := by
  have hPlan : ofDocument joining = .ok joiningPlan := by
    decide +kernel
  have hValid : joiningPlan.validate = .ok () := by
    decide +kernel
  have hEnd : 1 ∈ joiningPlan.children joiningPlan.root := by
    decide +kernel
  have hJoin : 2 ∈ joiningPlan.children 1 := by
    decide +kernel
  have hChild : joiningPlan.child? 2 2 = some 7 := by
    decide +kernel
  have hKind : joiningPlan.kind 2 = .join := by
    decide +kernel
  have hChain : (joiningPlan.tree 7).chain = [7] := by
    decide +kernel
  have hPlace : (joiningPlan.kind 2).StagePlace 2 := by
    rw [hKind]
    exact .join
  have hPipeline := (stages_confined
    (linked_of_ofDocument hPlan) hValid).2.2 2 2 7
      ((Reaches.root.child hEnd).child hJoin) hChild hPlace
  rw [hChain] at hPipeline
  exact ⟨hPlan, hValid, hChild, hPipeline⟩

/- A pipeline that returns a start. -/
def returning : Document :=
  .branch .pipeExpr
    [.branch .finish [.leaf .start, .leaf .start]]

/- The plan of that pipeline. -/
def returningPlan : Plan :=
  ((Edit.install returning).run empty).2

/-
  It passes the check, although the second child of its end
  is a stage, and that is no place where rows are read.
-/
theorem returningPlan_not_confined :
    ofDocument returning = .ok returningPlan ∧
      returningPlan.validate = .ok () ∧
      returningPlan.Reaches 3 ∧
      (returningPlan.kind 3).isStage ∧
      3 ≠ returningPlan.root ∧
      ∀ p index, returningPlan.child? p index = some 3 →
        ¬ (returningPlan.kind p).StagePlace index := by
  have hPlan : ofDocument returning = .ok returningPlan := by
    decide +kernel
  have hValid : returningPlan.validate = .ok () := by
    decide +kernel
  have hEnd :
      1 ∈ returningPlan.children returningPlan.root := by
    decide +kernel
  have hReturned : 3 ∈ returningPlan.children 1 := by
    decide +kernel
  have hStage : (returningPlan.kind 3).isStage := by
    decide +kernel
  have hRoot : 3 ≠ returningPlan.root := by
    decide +kernel
  have hParent : returningPlan.parent? 3 = some 1 := by
    decide +kernel
  have hKind : returningPlan.kind 1 = .finish := by
    decide +kernel
  have hOther : returningPlan.child? 1 0 = some 2 := by
    decide +kernel
  refine ⟨hPlan, hValid,
    (Reaches.root.child hEnd).child hReturned, hStage,
    hRoot, ?_⟩
  intro p index hChild hPlace
  have hUp := (linked_of_ofDocument
    hPlan).parent?_of_child? hChild
  rw [hParent] at hUp
  cases hUp
  rw [hKind] at hPlace
  cases hPlace with
  | finish =>
      rw [hOther] at hChild
      cases hChild
  | stage hOwn => cases hOwn

end Plan

end Flwor
