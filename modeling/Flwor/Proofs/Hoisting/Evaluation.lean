import Flwor.Proofs.Hoisting.Edits
import Flwor.Proofs.Hoisting.Pipelines
import Flwor.Proofs.Joins.Unnesting

/-
  Hoisting a nested pipeline keeps what a plan means.

  The edit succeeds at every stage whose slot evaluates the
  pipeline exactly once.  The plan after it compiles if and
  only if the one before does, fails on the same bindings,
  and otherwise yields the same sequence.

  Key theorems include:
    * `Plan.exists_finish_of_stage`
    * `Plan.swaps_hoisted`
    * `Plan.exists_hoisted`
    * `Query.evaluate_hoisted`
    * `Query.evaluate_extracted`
-/

------------------------------------------------------------
-- Shapes
------------------------------------------------------------

namespace Flwor

namespace Tree

variable {name key : String}
variable {x y t t' : Tree}

namespace Hoists

theorem lacks
    (hHoists : Hoists name x y t t')
    (hLacks : t.Lacks key)
    (hNew : y.Lacks key) :
    t'.Lacks key := by
  induction hHoists with
  | here => exact hNew
  | @inside i k p ps before c c' after hEager hFilled hBeside
      _ ih =>
      have hPart := ih (hLacks.child (by simp))
      refine lacks_node (hLacks _ (mem_subtrees_self _))
        (fun d hD => ?_)
      rcases List.mem_append.mp hD with hD | hD
      · exact hLacks.child (by simp [hD])
      rcases List.mem_cons.mp hD with rfl | hD
      · exact hPart
      · exact hLacks.child (by simp [hD])

end Hoists

/-
  A stage stays in shape if another stage feeds it and
  another expression stands in its last slot.
-/
theorem Shaped.hoisted
    {i : NodeId}
    {k : Kind}
    {p : Payload}
    {ps : Properties}
    {input slot : Tree}
    {mid : List Tree}
    (hShaped : (Tree.node i k p ps
      (input :: (mid ++ [slot]))).Shaped)
    (hKind : k = .finish ∨ k = .selection ∨ k = .letBind ∨
      k = .forBind)
    (hInput : x.Shaped)
    (hStage : x.kind.isStage)
    (hNew : y.Shaped) :
    (Tree.node i k p ps (x :: (mid ++ [y]))).Shaped := by
  refine shaped_node ?_ (fun c hC => ?_)
  · rcases hShaped.self with ⟨place, hRule⟩
    refine ⟨place, ?_⟩
    rcases hKind with rfl | rfl | rfl | rfl <;>
      rcases mid with _ | ⟨v, _ | ⟨w, _ | ⟨z, rest⟩⟩⟩ <;>
      simp_all [brokenRule?]
  · rcases List.mem_cons.mp hC with rfl | hC
    · exact hInput
    rcases List.mem_append.mp hC with hC | hC
    · exact hShaped.child (by simp [hC])
    · cases List.mem_singleton.mp hC
      exact hNew

end Tree

end Flwor

------------------------------------------------------------
-- Stages and Ends
------------------------------------------------------------

namespace Flwor

namespace Plan

variable {plan : Plan}
variable {s u : Tree}

/-
  A stage feeds a child of some end, unless all that is above
  it are stages.
-/
theorem exists_finish_of_stage
    (hSound : plan.Sound)
    (hValid : plan.validate = .ok ())
    (hStage : s.kind.isStage)
    (hU : u ∈ plan.rootTree.subtrees)
    (hS : s ∈ u.subtrees) :
    u.kind.isStage ∧ s.Feeding u ∨
      ∃ r ∈ plan.rootTree.subtrees, r.kind = .finish ∧
        ∃ t ∈ r.children, t.kind.isStage ∧ s.Feeding t := by
  induction u using Tree.induction with
  | node i k p ps cs ih =>
      rw [Tree.subtrees, List.mem_cons,
        Tree.mem_subtreesAll_iff] at hS
      rcases hS with rfl | ⟨c, hC, hS⟩
      · exact .inl ⟨hStage, .here⟩
      have hCMem := Tree.mem_subtrees_trans
        (Tree.mem_subtrees_of_child hC
          (Tree.mem_subtrees_self c)) hU
      rcases ih c hC hCMem hS with
        ⟨hCStage, hFeeding⟩ | hFound
      case inr => exact .inr hFound
      -- A stage stands below a stage or below an end.
      rcases hSound.rules_of_subtree hValid hU with
        ⟨hAdmits, hPlaces⟩
      rcases List.mem_iff_getElem?.mp hC with ⟨index, hIndex⟩
      have hChild :
          (cs.map Tree.kind)[index]? = some c.kind := by
        rw [List.getElem?_map, hIndex]
        rfl
      have hPlace := Kind.Places.stagePlace hAdmits hPlaces
        hChild hCStage
      by_cases hFinish : k = .finish
      · exact .inr ⟨_, hU, hFinish, c, hC, hCStage, hFeeding⟩
      · have hOwn : k.isStage := by
          rcases hPlace with hPlace | ⟨hEnd, _⟩
          · cases hPlace with
            | finish => exact (hFinish rfl).elim
            | stage hOwn => exact hOwn
            | join => rfl
          · exact (hFinish hEnd).elim
        exact .inl ⟨hOwn, feeding_of_child hSound hValid hU
          hOwn hC hCStage hFeeding⟩

end Plan

/- What a part of a tree refers to, the tree refers to. -/
theorem Tree.mem_references_of_subtree
    {name : String}
    {s t : Tree}
    (hS : s ∈ t.subtrees)
    (hName : name ∈ s.references) :
    name ∈ t.references := by
  induction t using Tree.induction with
  | node i k p ps cs ih =>
      rw [subtrees, List.mem_cons, mem_subtreesAll_iff] at hS
      rcases hS with rfl | ⟨c, hC, hS⟩
      · exact hName
      · exact mem_references_of_child hC (ih c hC hS)

end Flwor

------------------------------------------------------------
-- The Tree of the Plan
------------------------------------------------------------

namespace Flwor

namespace Plan

variable {plan : Plan}
variable {library : Library}

/- A part of the plan is replaced within a pipeline. -/
theorem swaps_of_pipeline
    {a : NodeId}
    {s' pipe : Tree}
    (hSound : plan.Sound)
    (hValid : plan.validate = .ok ())
    (hLacks : plan.rootTree.Lacks Properties.project)
    (hPipe : pipe ∈ plan.rootTree.subtrees)
    (hKind : pipe.kind = .pipeExpr)
    (hA : a ∈ pipe.ids)
    (hNe : pipe.id ≠ a)
    (hShaped : (pipe.mapAt a (fun _ => s')).Shaped)
    (hLacks' : s'.Lacks Properties.project)
    (hNodup :
      (plan.rootTree.mapAt a (fun _ => s')).ids.Nodup)
    (hSwaps : (pipe.mapAt a (fun _ => s')).ids.Nodup →
      Tree.Swaps library pipe (pipe.mapAt a (fun _ => s'))) :
    Tree.Swaps library plan.rootTree
      (plan.rootTree.mapAt a (fun _ => s')) := by
  have hUnique := hSound.holds_rootTree.2.2
  have hBelow := Tree.mapAt_of_below (f := fun _ => s')
    hUnique hPipe hA
  rw [hBelow] at hNodup ⊢
  have hMapped := Tree.mem_subtrees_mapAt
    (u := pipe.mapAt a (fun _ => s'))
    (Tree.mem_ids_iff.mpr ⟨pipe, hPipe, rfl⟩)
  have hSame : (pipe.mapAt a (fun _ => s')).kind =
        .pipeExpr ∧
      (pipe.mapAt a (fun _ => s')).id = pipe.id := by
    rcases pipe with ⟨i, k, p, ps, cs⟩
    change i ≠ a at hNe
    rw [Tree.mapAt_of_ne hNe]
    exact ⟨hKind, rfl⟩
  refine (hSwaps (Tree.nodup_ids_of_subtree hNodup
    hMapped)).above (shaped_of_validate hValid) hLacks
    hUnique hPipe hKind hSame.1 hSame.2 hShaped ?_ hNodup
  exact Tree.lacks_mapAt (hLacks.subtree hPipe)
    (fun _ _ _ => hLacks')

/-
  Two stages that can replace each other, but for names that
  are read nowhere, can do so in the tree of the plan.
-/
theorem swaps_of_stage
    {lost : Set String}
    {s s' : Tree}
    (hSound : plan.Sound)
    (hValid : plan.validate = .ok ())
    (hLacks : plan.rootTree.Lacks Properties.project)
    (hUnread : ∀ name ∈ plan.rootTree.references, name ∉ lost)
    (hS : s ∈ plan.rootTree.subtrees)
    (hIsStage : s.kind.isStage ∧ s'.kind.isStage)
    (hId : s'.id = s.id)
    (hShaped : s'.Shaped)
    (hLacks' : s'.Lacks Properties.project)
    (hNodup :
      (plan.rootTree.mapAt s.id (fun _ => s')).ids.Nodup)
    (hForth : Tree.Replaces library False lost s s')
    (hBack : Tree.Replaces library False lost s' s) :
    Tree.Swaps library plan.rootTree
      (plan.rootTree.mapAt s.id (fun _ => s')) := by
  have hUnique := hSound.holds_rootTree.2.2
  have hRole (r : Tree) (hR : r ∈ plan.rootTree.subtrees)
      (hSelf : r.id = s.id) : r.SameRole s' := by
    rw [Tree.eq_of_id_eq hUnique hR hS hSelf]
    exact .inl hIsStage
  rcases exists_finish_of_stage hSound hValid hIsStage.1
      (Tree.mem_subtrees_self _) hS with
    ⟨hRoot, _⟩ | ⟨⟨j, k, q, qs, parts⟩, hR, hFinish, t, hT,
      hStage, hFeeding⟩
  · exact Tree.swaps_of_isStage hRoot
      ((Tree.sameRole_mapAt hRole).isStage hRoot)
  rw [Tree.kind_node] at hFinish
  subst hFinish
  rcases hSound.pipeline_of_finish hValid hR with
    ⟨i, p, ps, tail, rest, rfl, hPipe⟩
  have hMem : s ∈ (Tree.node i .pipeExpr p ps
      [.node j .finish q qs (tail :: rest)]).subtrees :=
    Tree.mem_subtrees_of_child List.mem_cons_self
      (Tree.mem_subtrees_of_child hT hFeeding.mem)
  have hNe : i ≠ s.id := by
    rintro rfl
    have hSame := Tree.eq_of_id_eq hUnique hPipe hS rfl
    rw [← hSame] at hIsStage
    cases hIsStage.1
  have hParts : s.Feeding tail ∧
      (∀ name ∈ (Tree.node i .pipeExpr p ps
        [.node j .finish q qs (tail :: rest)]).offSpine s.id,
          name ∉ lost) ∨ ∃ t ∈ rest, t.kind.isStage := by
    rcases List.mem_cons.mp hT with rfl | hRest
    · exact .inl ⟨hFeeding, fun name hName => hUnread name
        (Tree.mem_references_of_subtree hPipe
          (Tree.offSpine_subset _ hName))⟩
    · exact .inr ⟨t, hRest, hStage⟩
  have hEncloses : Tree.Encloses lost s (.node i .pipeExpr p ps
      [.node j .finish q qs (tail :: rest)]) :=
    ⟨(shaped_of_validate hValid).subtree hPipe,
      hLacks.subtree hPipe,
      Tree.nodup_ids_of_subtree hUnique hPipe, hMem,
      i, p, ps, j, q, qs, tail, rest, rfl, hParts⟩
  refine swaps_of_pipeline hSound hValid hLacks hPipe rfl
    (Tree.mem_ids_iff.mpr ⟨s, hMem, rfl⟩) hNe
    (Tree.shaped_mapAt hEncloses.shaped (fun r hR =>
      hRole r (Tree.mem_subtrees_trans hR hPipe))
      (fun _ _ _ => hShaped)) hLacks' hNodup ?_
  exact fun hNodup => hEncloses.swaps hIsStage hId hShaped
    hLacks' hNodup hForth hBack

/- An expression is hoisted out of what a pipeline returns. -/
theorem swaps_of_finish
    {name : String}
    {j b d m : NodeId}
    {q : Payload}
    {qs : Properties}
    {tail x e e' : Tree}
    (hSound : plan.Sound)
    (hValid : plan.validate = .ok ())
    (hLacks : plan.rootTree.Lacks Properties.project)
    (hR : .node j .finish q qs [tail, e] ∈
      plan.rootTree.subtrees)
    (hHoists :
      Tree.Hoists name x (Tree.reference m name) e e')
    (hShaped : (Tree.node j .finish q qs
      [.binder .letBind b d [] name tail x, e']).Shaped)
    (hLacks' : (Tree.node j .finish q qs
      [.binder .letBind b d [] name tail x, e']).Lacks
        Properties.project)
    (hNodup : (plan.rootTree.mapAt j (fun _ =>
      .node j .finish q qs
        [.binder .letBind b d [] name tail x, e'])).ids.Nodup) :
    Tree.Swaps library plan.rootTree
      (plan.rootTree.mapAt j (fun _ =>
        .node j .finish q qs
          [.binder .letBind b d [] name tail x, e'])) := by
  have hUnique := hSound.holds_rootTree.2.2
  rcases hSound.pipeline_of_finish hValid hR with
    ⟨i, p, ps, _, _, hParts, hPipe⟩
  rcases List.cons.inj hParts with ⟨rfl, rfl⟩
  have hNe : i ≠ j := by
    rintro rfl
    cases Tree.eq_of_id_eq hUnique hPipe hR rfl
  have hMapped : Tree.mapAt j (fun _ =>
      .node j .finish q qs
        [.binder .letBind b d [] name tail x, e'])
      (.node i .pipeExpr p ps [.node j .finish q qs [tail, e]])
        = .node i .pipeExpr p ps [.node j .finish q qs
          [.binder .letBind b d [] name tail x, e']] := by
    rw [Tree.mapAt_of_ne hNe, List.map_singleton,
      Tree.mapAt_self]
  refine swaps_of_pipeline hSound hValid hLacks hPipe rfl ?_
    hNe ?_ hLacks' hNodup ?_
  · exact Tree.mem_ids_iff.mpr ⟨_, Tree.mem_subtrees_of_child
      List.mem_cons_self (Tree.mem_subtrees_self _), rfl⟩
  · refine Tree.shaped_mapAt (fun r hR =>
      (shaped_of_validate hValid) r
        (Tree.mem_subtrees_trans hR hPipe))
      (fun r hIn hId => ?_) (fun _ _ _ => hShaped)
    rw [Tree.eq_of_id_eq hUnique
      (Tree.mem_subtrees_trans hIn hPipe) hR hId]
    exact .inr rfl
  · rw [hMapped]
    exact fun _ => Tree.swaps_result hHoists

end Plan

end Flwor

------------------------------------------------------------
-- Hoisting from a Slot
------------------------------------------------------------

namespace Flwor

namespace Tree

variable {name : String}
variable {b d m : NodeId}
variable {feeder x : Tree}

theorem shaped_reference :
    (reference m name).Shaped :=
  shaped_leaf ⟨none, rfl⟩

theorem shaped_binder
    {k : Kind}
    {ps : Properties}
    (hKind : k = .letBind ∨ k = .forBind)
    (hFeeder : feeder.Shaped)
    (hStage : feeder.kind.isStage)
    (hX : x.Shaped) :
    (binder k b d ps name feeder x).Shaped := by
  refine shaped_node ⟨none, ?_⟩ ?_
  · rcases hKind with rfl | rfl <;>
      simp [brokenRule?, hStage]
  · simp only [List.forall_mem_cons, List.not_mem_nil,
      IsEmpty.forall_iff, implies_true, and_true]
    exact ⟨hFeeder, shaped_leaf ⟨none, rfl⟩, hX⟩

theorem lacks_letBinder
    {key : String}
    (hFeeder : feeder.Lacks key)
    (hX : x.Lacks key) :
    (binder .letBind b d [] name feeder x).Lacks key := by
  refine lacks_node rfl ?_
  simp only [List.forall_mem_cons, List.not_mem_nil,
    IsEmpty.forall_iff, implies_true, and_true]
  exact ⟨hFeeder, lacks_leaf rfl, hX⟩

/- What feeds a stage or an end is a stage. -/
theorem Shaped.isStage_first
    {i : NodeId}
    {k : Kind}
    {p : Payload}
    {ps : Properties}
    {rest : List Tree}
    (hShaped : (Tree.node i k p ps (feeder :: rest)).Shaped)
    (hKind : k = .finish ∨ k = .selection ∨ k = .letBind ∨
      k = .forBind) :
    feeder.kind.isStage := by
  rcases hShaped.self with ⟨place, hRule⟩
  rcases hKind with rfl | rfl | rfl | rfl <;>
    simp_all [brokenRule?]

variable {i : NodeId}
variable {k : Kind}
variable {p : Payload}
variable {ps : Properties}
variable {e e' : Tree}
variable {mid : List Tree}

/- A stage stays in shape if its slot loses a pipeline. -/
theorem Buries.shaped_hoisted
    (hBuries : Buries x (reference m name) e e')
    (hShaped :
      (node i k p ps (feeder :: (mid ++ [e]))).Shaped)
    (hKind : k = .finish ∨ k = .selection ∨ k = .letBind ∨
      k = .forBind)
    (hX : x ∈ e.subtrees) :
    (node i k p ps (binder .letBind b d [] name feeder x ::
      (mid ++ [e']))).Shaped := by
  have hSlot : e.Shaped := hShaped.child (by simp)
  have hPipe : x.Shaped := hSlot.subtree hX
  exact hShaped.hoisted hKind
    (shaped_binder (.inl rfl)
      (hShaped.child List.mem_cons_self)
      (hShaped.isStage_first hKind) hPipe) rfl
    (hBuries.shaped hSlot shaped_reference)

/- It has the annotations then that it had before. -/
theorem Hoists.lacks_hoisted
    {key : String}
    (hHoists : Hoists name x (reference m name) e e')
    (hLacks :
      (node i k p ps (feeder :: (mid ++ [e]))).Lacks key)
    (hX : x ∈ e.subtrees) :
    (node i k p ps (binder .letBind b d [] name feeder x ::
      (mid ++ [e']))).Lacks key := by
  have hSlot : e.Lacks key := hLacks.child (by simp)
  refine lacks_node (hLacks _ (mem_subtrees_self _))
    (fun c hC => ?_)
  rcases List.mem_cons.mp hC with rfl | hC
  · exact lacks_letBinder (hLacks.child List.mem_cons_self)
      (hSlot.subtree hX)
  rcases List.mem_append.mp hC with hC | hC
  · exact hLacks.child (by simp [hC])
  · cases List.mem_singleton.mp hC
    exact hHoists.lacks hSlot (lacks_leaf rfl)

/-
  Unchecked nodes with an expression that is evaluated once
  for each row.
-/
def OpenSlot
    (k : Kind)
    (ps : Properties) : Prop :=
  (k = .finish ∨ k = .selection ∨ k = .letBind ∨
      k = .forBind) ∧
    ps.get? Properties.check = none

end Tree

namespace Plan

variable {plan : Plan}
variable {stage slot : NodeId}

/- A stage with its slot, as it is in a plan in shape. -/
theorem Sound.exists_slot
    (hSound : plan.Sound)
    (hRoot : plan.rootTree.Shaped)
    (hReach : plan.Reaches stage)
    (hSlot : plan.rowExpr? stage = some slot) :
    ∃ k p ps feeder mid e,
      .node stage k p ps (feeder :: (mid ++ [e])) ∈
          plan.rootTree.subtrees ∧
        plan.tree slot = e ∧
        (k = .finish ∧ mid = [] ∨ k = .selection ∨
          k = .letBind ∨ k = .forBind) := by
  rcases hSound.exists_of_reaches hReach with
    ⟨⟨i, k, p, ps, cs⟩, hS, rfl⟩
  rcases hSound.holds_rootTree with ⟨hTop, hHolds, _⟩
  have hHere := (hHolds.subtree hS).self
  have hShaped : (Tree.node i k p ps cs).Shaped :=
    fun r hR => hRoot r (Tree.mem_subtrees_trans hR hS)
  have hTree (e : Tree) (hE : e ∈ cs) :
      plan.tree e.id = e :=
    hHolds.tree_eq hSound.linked hTop
      (Tree.mem_subtrees_trans (Tree.mem_subtrees_of_child hE
        (Tree.mem_subtrees_self e)) hS)
  have hKind : plan.kind i = k := hHere.kind
  have hChildren : plan.children i = cs.map Tree.id :=
    hHere.children
  -- The slot is the second child, or else the last one.
  have hSecond (hLength : cs.length ≤ 2)
      (hChild : plan.child? i 1 = some slot) :
      ∃ feeder e, cs = feeder :: ([] ++ [e]) ∧
        plan.tree slot = e := by
    rw [child?, hChildren] at hChild
    rcases cs with _ | ⟨feeder, _ | ⟨e, _ | ⟨_, _⟩⟩⟩
    · cases hChild
    · cases hChild
    · cases hChild
      exact ⟨feeder, e, rfl, hTree e (by simp)⟩
    · simp at hLength
  have hLast (hInput : k.hasInput)
      (hChild : plan.lastChild? i = some slot) :
      ∃ feeder mid e, cs = feeder :: (mid ++ [e]) ∧
        plan.tree slot = e := by
    rcases hShaped.input hInput with
      ⟨feeder, first, rest, rfl, _⟩
    rw [lastChild?, hChildren] at hChild
    rcases List.eq_nil_or_concat' (first :: rest) with
      hNil | ⟨mid, e, hEq⟩
    · cases hNil
    · rw [hEq] at hTree hChild ⊢
      refine ⟨feeder, mid, e, rfl, ?_⟩
      simp only [List.map_cons, List.map_append, List.map_nil,
        ← List.cons_append, List.getLast?_concat,
        Option.some.injEq] at hChild
      rw [← hChild]
      exact hTree e (by simp)
  change plan.rowExpr? i = some slot at hSlot
  rw [rowExpr?, hKind] at hSlot
  rcases hShaped.self with ⟨place, hRule⟩
  cases k <;> dsimp only at hSlot <;> try cases hSlot
  case finish =>
    rcases hSecond (by simp [Tree.brokenRule?] at hRule; omega)
      hSlot with ⟨feeder, e, rfl, hE⟩
    exact ⟨_, p, ps, feeder, [], e, hS, hE, .inl ⟨rfl, rfl⟩⟩
  case selection =>
    rcases hSecond (by simp [Tree.brokenRule?] at hRule; omega)
      hSlot with ⟨feeder, e, rfl, hE⟩
    exact ⟨_, p, ps, feeder, [], e, hS, hE, .inr (.inl rfl)⟩
  case letBind =>
    rcases hLast rfl hSlot with ⟨feeder, mid, e, rfl, hE⟩
    exact ⟨_, p, ps, feeder, mid, e, hS, hE,
      .inr (.inr (.inl rfl))⟩
  case forBind =>
    rcases hLast rfl hSlot with ⟨feeder, mid, e, rfl, hE⟩
    exact ⟨_, p, ps, feeder, mid, e, hS, hE,
      .inr (.inr (.inr rfl))⟩

/- The tree of a plan before and after a stage is changed. -/
theorem swaps_hoisted
    (library : Library)
    {name : String}
    {k : Kind}
    {p : Payload}
    {ps : Properties}
    {feeder x e e' : Tree}
    {mid : List Tree}
    {b d m : NodeId}
    (hSound : plan.Sound)
    (hValid : plan.validate = .ok ())
    (hLacks : plan.rootTree.Lacks Properties.project)
    (hFresh : name ∉ plan.rootTree.references)
    (hS : .node stage k p ps (feeder :: (mid ++ [e])) ∈
      plan.rootTree.subtrees)
    (hKind : k = .finish ∧ mid = [] ∨ k = .selection ∨
      k = .letBind ∨ k = .forBind)
    (hUnchecked : ps.get? Properties.check = none)
    (hX : x ∈ e.subtrees)
    (hPipe : x.kind = .pipeExpr)
    (hHoists :
      Tree.Hoists name x (Tree.reference m name) e e')
    (hNodup : (plan.rootTree.mapAt stage (fun _ =>
      .node stage k p ps
        (.binder .letBind b d [] name feeder x ::
          (mid ++ [e'])))).ids.Nodup) :
    (plan.rootTree.mapAt stage (fun _ =>
        .node stage k p ps
          (.binder .letBind b d [] name feeder x ::
            (mid ++ [e'])))).Shaped ∧
      (plan.rootTree.mapAt stage (fun _ =>
        .node stage k p ps
          (.binder .letBind b d [] name feeder x ::
            (mid ++ [e'])))).Lacks Properties.project ∧
      Tree.Swaps library plan.rootTree
        (plan.rootTree.mapAt stage (fun _ =>
          .node stage k p ps
            (.binder .letBind b d [] name feeder x ::
              (mid ++ [e'])))) := by
  have hShapedS : (Tree.node stage k p ps
      (feeder :: (mid ++ [e]))).Shaped :=
    (shaped_of_validate hValid).subtree hS
  have hLacksS : (Tree.node stage k p ps
      (feeder :: (mid ++ [e]))).Lacks Properties.project :=
    hLacks.subtree hS
  have hKinds : k = .finish ∨ k = .selection ∨
      k = .letBind ∨ k = .forBind := by
    tauto
  have hShaped : (Tree.node stage k p ps
      (.binder .letBind b d [] name feeder x ::
        (mid ++ [e']))).Shaped :=
    hHoists.buries.shaped_hoisted hShapedS hKinds hX
  have hLacks' : (Tree.node stage k p ps
      (.binder .letBind b d [] name feeder x ::
        (mid ++ [e']))).Lacks Properties.project :=
    hHoists.lacks_hoisted hLacksS hX
  refine ⟨(shaped_of_validate hValid).exchange
      hSound.holds_rootTree.2.2 hS (.inr ?_) hShaped,
    Tree.lacks_mapAt hLacks (fun _ _ _ => hLacks'), ?_⟩
  · rfl
  rcases hKind with ⟨rfl, rfl⟩ | hKind
  · exact swaps_of_finish hSound hValid hLacks hS hHoists
      hShaped hLacks' hNodup
  -- Both slots hold an expression, so the steps are alike.
  have hSlot : e.kind ≠ .posVariable :=
    hHoists.buries.kind_ne rfl (by simp [hPipe])
  have hSlot' : e'.kind ≠ .posVariable :=
    hHoists.symm.buries.kind_ne rfl (by simp [Tree.reference])
  have hSteps : ∃ new grow, ∀ e : Tree,
      e.kind ≠ .posVariable →
        Tree.Slotted library (fun t =>
          .node stage k p ps (t :: (mid ++ [e]))) new e grow :=
    Tree.exists_slotted hShapedS hLacksS hUnchecked hKind hSlot
  rcases hSteps with ⟨new, grow, hSlotted⟩
  have hIsStage : k.isStage := by
    rcases hKind with rfl | rfl | rfl <;> rfl
  have hUnread : ∀ n ∈ plan.rootTree.references,
      n ∉ {n | n = name} :=
    fun n hN hEq => hFresh (hEq ▸ hN)
  exact swaps_of_stage hSound hValid hLacks hUnread hS
    ⟨hIsStage, hIsStage⟩ rfl hShaped hLacks' hNodup
    ((hSlotted e hSlot).replaces_hoisted (hSlotted e' hSlot')
      hHoists hIsStage)
    ((hSlotted e hSlot).replaces_restored (hSlotted e' hSlot')
      hHoists hIsStage)

/-
  The edit succeeds on a pipeline that an unchecked stage
  evaluates once for each row, with a name that is read
  nowhere, and the trees before and after are worth the same.
-/
theorem exists_hoisted
    {pipe : NodeId}
    {name : String}
    (hSound : plan.Sound)
    (hValid : plan.validate = .ok ())
    (hProject : plan.rootTree.Lacks Properties.project)
    (hReach : plan.Reaches stage)
    (hUnchecked : plan.isChecked stage = false)
    (hSlot : plan.rowExpr? stage = some slot)
    (hPipe : pipe ∈ (plan.tree slot).eagerPipes)
    (hFresh : name ∉ plan.rootTree.references) :
    ∃ after : Plan,
      (Edit.hoist name stage pipe).run plan = (.ok (), after) ∧
        after.rootTree.Shaped ∧
        after.rootTree.Lacks Properties.project ∧
        ∀ library,
          Tree.Swaps library plan.rootTree after.rootTree := by
  rcases hSound.exists_slot (shaped_of_validate hValid)
      hReach hSlot with
    ⟨k, p, ps, feeder, mid, e, hS, rfl, hKind⟩
  have hE := Tree.mem_subtrees_trans
    (Tree.mem_subtrees_of_child (by simp)
      (Tree.mem_subtrees_self (plan.tree slot))) hS
  rcases hSound.holds_rootTree with ⟨_, hHolds, hNodup⟩
  have hRescopable :
      (plan.tree slot).Rescopable {n | n = name} :=
    ⟨fun r hR => (shaped_of_validate hValid) r
        (Tree.mem_subtrees_trans hR hE),
      fun r hR => hProject r (Tree.mem_subtrees_trans hR hE),
      fun n hN hEq => hFresh (hEq ▸
        Tree.mem_references_of_subtree hE hN)⟩
  rcases Tree.exists_hoists hRescopable
      (Tree.nodup_ids_of_subtree hNodup hE) hPipe with
    ⟨x, hX, rfl, hPipeKind, hHoists⟩
  have hNone : ps.get? Properties.check = none := by
    have hHere : plan.properties stage = ps :=
      (hHolds.subtree hS).self.properties
    rw [isChecked, hHere] at hUnchecked
    simpa using hUnchecked
  rcases Edit.achieves_hoist hSound hS hX name with
    ⟨_, after, hRun, hAfter, b, d, j, hTree⟩
  have hUnique := hAfter.holds_rootTree.2.2
  rw [hTree] at hUnique
  have hSwaps (library : Library) :=
    swaps_hoisted library hSound hValid hProject hFresh hS
      hKind hNone hX hPipeKind
      (hHoists (Tree.reference j name)) hUnique
  rw [← hTree] at hSwaps
  exact ⟨after, hRun, (hSwaps []).1, (hSwaps []).2.1,
    fun library => (hSwaps library).2.2⟩

/- The counter of a plan is no part of its trees. -/
theorem tree_withCounter
    (plan : Plan)
    (count : Nat)
    (id : NodeId) :
    ({ plan with counter := count } : Plan).tree id =
      plan.tree id := by
  have hWithin (depth : Nat) (id : NodeId) :
      ({ plan with counter := count } : Plan).treeWithin
          depth id =
        plan.treeWithin depth id := by
    induction depth generalizing id with
    | zero => rfl
    | succ depth ih =>
        simp only [treeWithin, funext ih]
        rfl
  exact hWithin plan.size id

end Plan

end Flwor

------------------------------------------------------------
-- Evaluation
------------------------------------------------------------

namespace Flwor

namespace Query

variable {plan after : Plan}
variable {stage : NodeId}

/- Plans whose trees can replace each other evaluate alike. -/
theorem toOption_evaluate_of_swaps
    {library : Library}
    {externals : List String}
    {query query' : Query}
    (hShaped : plan.rootTree.Shaped)
    (hLacks : plan.rootTree.Lacks Properties.project)
    (hSwaps : Tree.Swaps library plan.rootTree
      after.rootTree)
    (hQuery : ofPlan library plan externals = .ok query)
    (hQuery' : ofPlan library after externals = .ok query')
    (bindings : Bindings) :
    (query'.evaluate bindings).result.toOption =
      (query.evaluate bindings).result.toOption := by
  rcases same_evaluate hShaped hLacks hSwaps.forth hQuery with
    ⟨compiled, hCompiled, hSame⟩
  cases hQuery'.symm.trans hCompiled
  exact hSame bindings

/-
  Hoisting is sound.  The edit succeeds on every pipeline
  that an unchecked stage evaluates once for each row, with
  any name that is read nowhere.  The plan after it compiles
  if and only if the one before does, and with any values of
  the externals it fails or yields the same sequence.
-/
theorem evaluate_hoisted
    {slot pipe : NodeId}
    {name : String}
    (hLinked : plan.Linked)
    (hValid : plan.validate = .ok ())
    (hProject : plan.rootTree.Lacks Properties.project)
    (hReach : plan.Reaches stage)
    (hUnchecked : plan.isChecked stage = false)
    (hSlot : plan.rowExpr? stage = some slot)
    (hPipe : pipe ∈ (plan.tree slot).eagerPipes)
    (hFresh : name ∉ plan.rootTree.references) :
    ∃ after,
      (Edit.hoist name stage pipe).run plan = (.ok (), after) ∧
        ∀ (library : Library) (externals : List String),
          ((∃ query, ofPlan library plan externals =
              .ok query) ↔
            ∃ query', ofPlan library after externals =
              .ok query') ∧
          ∀ query query' : Query,
            ofPlan library plan externals = .ok query →
              ofPlan library after externals = .ok query' →
                ∀ bindings : Bindings,
                  (query'.evaluate bindings).result.toOption =
                    (query.evaluate bindings).result.toOption
          := by
  have hSound : plan.Sound :=
    ⟨hLinked, Plan.root_lt_of_validate hValid⟩
  have hShaped := Plan.shaped_of_validate hValid
  rcases Plan.exists_hoisted hSound hValid hProject hReach
      hUnchecked hSlot hPipe hFresh with
    ⟨after, hRun, hShapedAfter, hProjectAfter, hSwaps⟩
  refine ⟨after, hRun, fun library externals => ⟨⟨?_, ?_⟩,
    fun query query' hQuery hQuery' =>
      toOption_evaluate_of_swaps hShaped hProject
        (hSwaps library) hQuery hQuery'⟩⟩
  · rintro ⟨query, hQuery⟩
    rcases meets_evaluate hShaped hProject
        ((hSwaps library).forth _) hQuery with
      ⟨query', hQuery', _⟩
    exact ⟨query', hQuery'⟩
  · rintro ⟨query', hQuery'⟩
    rcases meets_evaluate hShapedAfter hProjectAfter
        ((hSwaps library).back _) hQuery' with
      ⟨query, hQuery, _⟩
    exact ⟨query, hQuery⟩

/- The nested loop of a `let`, bound before it. -/
def hoistedPlan : Plan :=
  ((Edit.hoist "n" 2 8).run Plan.nestedPlan).2

theorem evaluate_hoisted_nestedPlan :
    ∃ query query',
      ofPlan Library.standard Plan.nestedPlan ["in"] =
          .ok query ∧
        ofPlan Library.standard hoistedPlan ["in"] =
          .ok query' ∧
        (query.evaluate
          [("in", [.int 1, .int 2, .int 1])]).result.toOption =
            some [.int 1, .int 1, .int 2, .int 1, .int 1] ∧
        (query'.evaluate
          [("in", [.int 1, .int 2, .int 1])]).result.toOption =
            some [.int 1, .int 1, .int 2, .int 1, .int 1] := by
  have hPlan : Plan.ofDocument Plan.nestedLoop =
      .ok Plan.nestedPlan := by
    decide +kernel
  have hLinked := Plan.linked_of_ofDocument hPlan
  have hValid : Plan.nestedPlan.validate = .ok () := by
    decide +kernel
  have hProject : Plan.nestedPlan.rootTree.Lacks
      Properties.project := by
    decide +kernel
  have hEnd : 1 ∈ Plan.nestedPlan.children
      Plan.nestedPlan.root := by
    decide +kernel
  have hStage : 2 ∈ Plan.nestedPlan.children 1 := by
    decide +kernel
  have hUnchecked : Plan.nestedPlan.isChecked 2 = false := by
    decide +kernel
  have hSlot : Plan.nestedPlan.rowExpr? 2 = some 8 := by
    decide +kernel
  have hPipe : 8 ∈ (Plan.nestedPlan.tree 8).eagerPipes := by
    decide +kernel
  have hFresh : "n" ∉ Plan.nestedPlan.rootTree.references := by
    decide +kernel
  rcases evaluate_hoisted hLinked hValid hProject
      ((Plan.Reaches.root.child hEnd).child hStage) hUnchecked
      hSlot hPipe hFresh with ⟨after, hRun, hBoth⟩
  have hAfter : hoistedPlan = after := by
    rw [hoistedPlan, hRun]
  subst hAfter
  rcases hBoth Library.standard ["in"] with ⟨hCompiles, hSame⟩
  have hSome : (ofPlan Library.standard Plan.nestedPlan
      ["in"]).toOption.isSome := by
    decide +kernel
  rcases Option.isSome_iff_exists.mp hSome with
    ⟨query, hQuery⟩
  rw [except_toOption_eq_some_iff] at hQuery
  rcases hCompiles.mp ⟨query, hQuery⟩ with ⟨query', hQuery'⟩
  have hItems : (query.evaluate
      [("in", [.int 1, .int 2, .int 1])]).result.toOption =
        some [.int 1, .int 1, .int 2, .int 1, .int 1] := by
    rw [toOption_evaluate (Plan.shaped_of_validate hValid)
      hProject hQuery (by simp)]
    decide +kernel
  exact ⟨query, query', hQuery, hQuery', hItems,
    (hSame query query' hQuery hQuery' _).trans hItems⟩

/-
  A step in which the pass hoists a pipeline is sound, if no
  check could read the generated name.
-/
theorem evaluate_extracted
    {library : Library}
    {externals : List String}
    {query query' : Query}
    (hLinked : plan.Linked)
    (hValid : plan.validate = .ok ())
    (hProject : plan.rootTree.Lacks Properties.project)
    (hCheck : plan.rootTree.Lacks Properties.check)
    (hReach : plan.Reaches stage)
    (hRun : (Pass.extractPipe stage).run plan =
      (.ok true, after))
    (hQuery : ofPlan library plan externals = .ok query)
    (hQuery' : ofPlan library after externals = .ok query')
    (bindings : Bindings) :
    (query'.evaluate bindings).result.toOption =
      (query.evaluate bindings).result.toOption := by
  have hSound : plan.Sound :=
    ⟨hLinked, Plan.root_lt_of_validate hValid⟩
  rcases Pass.hoist_of_extractPipe hRun with
    ⟨slot, pipe, name, middle, hUnchecked, hSlot, hPipe,
      hName, hHoist⟩
  rcases Edit.ensures_fresh hSound "n" name middle hName with
    ⟨hAlters, _, hNew⟩
  have hFresh : name ∉ plan.rootTree.references :=
    fun hMem => hNew.not_mentions hSound.holds_rootTree.2.1
      (Tree.mentions_of_references hCheck hMem)
  -- Generating a name changes nothing but the counter.
  cases hName
  have hTree := Plan.tree_withCounter plan
    (plan.freshNumber "n")
  have hRoot : ({ plan with
      counter := plan.freshNumber "n" } : Plan).rootTree =
        plan.rootTree :=
    hTree plan.root
  rcases hSound.exists_of_reaches hReach with ⟨s, hS, rfl⟩
  rw [← hRoot] at hS
  rcases Plan.exists_hoisted hAlters.sound
      (by rw [Plan.validate, hRoot]; exact hValid)
      (by rw [hRoot]; exact hProject)
      (hAlters.sound.reaches_of_subtree hS) hUnchecked hSlot
      (by rw [hTree]; exact hPipe) (by rw [hRoot]; exact hFresh)
    with ⟨after', hRun', _, _, hSwaps⟩
  cases hHoist.symm.trans hRun'
  rw [hRoot] at hSwaps
  exact toOption_evaluate_of_swaps
    (Plan.shaped_of_validate hValid) hProject (hSwaps library)
    hQuery hQuery' bindings

end Query

end Flwor
