import Flwor.Proofs.Arena.Insertions
import Flwor.Proofs.Hoisting.Stages

/-
  The edit that hoists a nested pipeline out of the slot of a
  stage: a reference takes the place of the pipeline, and a
  `let` below the stage binds it.

  The edit succeeds wherever the pipeline is below a later
  child of the stage.  Then the stage has changed in the tree
  of the plan as expected, and nothing else has.

  Key definitions include:
    * `Edit.hoist`

  Key theorems include:
    * `Pass.hoist_of_extractPipe`
    * `Edit.achieves_hoist`
-/

------------------------------------------------------------
-- Hoisting
------------------------------------------------------------

namespace Flwor

namespace Edit

/-
  Replace a pipeline by a reference to a variable, and bind
  it to the variable directly below a stage.
-/
def hoist
    (name : String)
    (stage pipe : NodeId) : Edit Unit := do
  let reference ← add .variableRef (.var name) []
  replace pipe reference
  let declared ← add .variable (.var name) []
  let bind ← addWith .letBind .none [declared, pipe]
  interpose stage bind

/- An edit after which a flag is returned. -/
theorem run_of_return
    {edit : Edit Unit}
    {plan after : Plan}
    (x : Bool)
    (hRun : (edit >>= fun _ => pure x).run plan =
      (.ok x, after)) :
    edit.run plan = (.ok (), after) := by
  rcases hFirst : edit.run plan with ⟨_ | _, middle⟩
  · rw [run_bind_of_error hFirst] at hRun
    cases hRun
  · rw [run_bind_of_ok hFirst] at hRun
    cases hRun
    rfl

/- A name can always be generated. -/
theorem exists_run_fresh
    (plan : Plan)
    (hint : String) :
    ∃ name after,
      (fresh hint).run plan = (.ok name, after) :=
  ⟨_, _, rfl⟩

end Edit

/- What the pass extracts is hoisted under a fresh name. -/
theorem Pass.hoist_of_extractPipe
    {plan after : Plan}
    {stage : NodeId}
    (hRun : (extractPipe stage).run plan = (.ok true, after)) :
    ∃ slot pipe name middle,
      plan.isChecked stage = false ∧
        plan.rowExpr? stage = some slot ∧
        pipe ∈ (plan.tree slot).eagerPipes ∧
        (Edit.fresh "n").run plan = (.ok name, middle) ∧
        (Edit.hoist name stage pipe).run middle =
          (.ok (), after) := by
  unfold extractPipe at hRun
  rw [Edit.run_get_bind] at hRun
  split at hRun
  · cases hRun
  next hChecked =>
  split at hRun
  case h_2 => cases hRun
  next slot feeder hSlot hFeeder =>
  dsimp only at hRun
  split at hRun
  · cases hRun
  next pipe hFind =>
  rcases Edit.exists_run_fresh plan "n" with
    ⟨name, middle, hFresh⟩
  rw [Edit.run_bind_of_ok hFresh] at hRun
  refine ⟨slot, pipe, name, middle, by simpa using hChecked,
    hSlot, List.mem_of_find?_eq_some hFind, hFresh,
    Edit.run_of_return true ?_⟩
  simpa only [Edit.hoist, bind_assoc] using hRun

namespace Plan

variable {plan after : Plan}
variable {s u : Tree}

/- A node that is not touched stays as it is. -/
theorem Alters.spared_node
    {touched : Set NodeId}
    {i : NodeId}
    {k : Kind}
    {p : Payload}
    {ps : Properties}
    {cs : List Tree}
    (hAlters : plan.Alters touched after)
    (hStands : plan.Stands (.node i k p ps cs))
    (hNot : i ∉ touched) :
    after.Stands (.node i k p ps cs) :=
  hAlters.spared _ hNot hStands

/- A changed tree takes the place of the old one. -/
theorem Alters.rootTree_eq
    {touched : Set NodeId}
    (hSound : plan.Sound)
    (hAlters : plan.Alters touched after)
    (hAround :
      ∀ r ∈ plan.rootTree.around s.id, r.id ∉ touched)
    (hNew : after.Holds u)
    (hId : u.id = s.id) :
    after.rootTree =
      plan.rootTree.mapAt s.id (fun _ => u) := by
  rcases hSound.holds_rootTree with ⟨hTop, hHolds, _⟩
  have hTree : after.Holds
      (plan.rootTree.mapAt s.id (fun _ => u)) := by
    refine holds_mapAt (fun r hR => ?_) hNew
    refine (hAlters.spared r (hAround r hR)
      (hHolds r (Tree.around_subset hR))).withChildren ?_
    rw [List.map_map]
    refine List.map_congr_left (fun c _ => ?_)
    rw [Function.comp, Tree.id_mapAt, hId]
    split
    next hSelf => exact hSelf.symm
    next => rfl
  have hRoot : (plan.rootTree.mapAt s.id (fun _ => u)).id =
      after.root := by
    rw [Tree.id_mapAt, hId, hAlters.root, ← hTop]
    split
    next hSelf => exact hSelf.symm
    next => rfl
  have hEq := hTree.tree_eq hAlters.sound.linked hRoot
    (Tree.mem_subtrees_self _)
  rw [hRoot] at hEq
  exact hEq

end Plan

end Flwor

------------------------------------------------------------
-- Success
------------------------------------------------------------

namespace Flwor

namespace Tree

/- All nodes below the two stages are old, or two new ones. -/
theorem ids_hoisted
    {d m : NodeId}
    {name : String}
    {feeder slot x : Tree}
    {mid : List Tree}
    (hX : x ∈ slot.subtrees) :
    ∀ t ∈ feeder :: ((mid ++ [slot.mapAt x.id
        (fun _ => reference m name)]) ++
          [node d .variable (.var name) [] [], x]),
      ∀ i ∈ t.ids,
        i ∈ idsAll (feeder :: (mid ++ [slot])) ∨
          i = m ∨ i = d := by
  have hKept (t : Tree)
      (hT : t ∈ feeder :: (mid ++ [slot]))
      (i : NodeId)
      (hI : i ∈ t.ids) :
      i ∈ idsAll (feeder :: (mid ++ [slot])) :=
    mem_idsAll_iff.mpr ⟨t, hT, hI⟩
  simp only [List.forall_mem_cons, List.forall_mem_append,
    List.not_mem_nil, IsEmpty.forall_iff, implies_true,
    and_true]
  refine ⟨fun i hI => .inl (hKept _ (by simp) i hI),
    ⟨fun t hT i hI => .inl (hKept t (by simp [hT]) i hI),
      fun i hI => ?_⟩, fun i hI => ?_,
    fun i hI => .inl (hKept slot (by simp) i
      (ids_subset hX i hI))⟩
  · rcases ids_mapAt hI with hI | hI
    · exact .inl (hKept slot (by simp) i hI)
    · exact .inr (.inl (List.mem_singleton.mp hI))
  · exact .inr (.inr (List.mem_singleton.mp hI))

end Tree

namespace Edit

open Plan

variable {plan : Plan}
variable {stage b : NodeId}
variable {k : Kind}
variable {p : Payload}
variable {ps : Properties}
variable {feeder t : Tree}
variable {rest cs : List Tree}
variable {l : Kind}
variable {q : Payload}
variable {qs : Properties}

/- A stage is put in front of another one. -/
theorem achieves_interpose
    (hSound : plan.Sound)
    (hStage : plan.Holds
      (.node stage k p ps (feeder :: rest)))
    (hBind : plan.Holds (.node b l q qs cs))
    (hDetached : plan.Detached b)
    (hNe : b ≠ stage)
    (hApart : ∀ t ∈ feeder :: (rest ++ cs),
      stage ∉ t.ids ∧ b ∉ t.ids) :
    (interpose stage b).Achieves plan (fun _ after =>
      plan.Alters {stage, b} after ∧
        after.Holds (.node stage k p ps
          (.node b l q qs (feeder :: cs)
            :: rest))) := by
  have hNe' : b ≠ feeder.id := by
    rintro rfl
    exact (hApart feeder List.mem_cons_self).2
      feeder.id_mem_ids
  have hPlace : plan.child? stage 0 = some feeder.id := by
    rw [child?, hStage.self.links]
    rfl
  refine ((achieves_remove hPlace).ensuring
    (ensures_remove hSound hStage.self rfl)).bind ?_
  rintro _ _ ⟨⟨rfl, rfl⟩, _, hCut, hCutSize, hStageCut⟩
  have hLoose := detached_detach hSound.linked hPlace
  have hBindCut := hCut.spared_node hBind.self hNe
  refine ((achieves_insert hLoose (Nat.zero_le _)).ensuring
    (ensures_insert hCut.sound hBindCut hLoose.lt)).bind ?_
  rintro _ _ ⟨rfl, hPut, _, hBindPut⟩
  have hBindLoose :
      (plan.detach stage 0 feeder.id).Detached b :=
    (edited_detach hSound.linked hPlace).detached hDetached
      (by simpa using hNe')
  have hBindLoose' : ((plan.detach stage 0 feeder.id).attach
      b 0 feeder.id).Detached b :=
    (edited_attach hLoose hBindCut.lt).detached hBindLoose
      (by simpa using hNe')
  have hStagePut := hPut.spared_node hStageCut hNe.symm
  refine ((achieves_insert hBindLoose'
    (Nat.zero_le _)).ensuring (ensures_insert
      (t := .node b l q qs (feeder :: cs))
      hPut.sound hStagePut hBindLoose'.lt)).mono ?_
  rintro _ _ ⟨rfl, hLast, _, hStageLast⟩
  have hAlters : plan.Alters {stage, b} _ :=
    (hCut.trans (hPut.trans hLast)).narrow (by
      rintro x (hX | hX | hX) _
      · exact .inl hX
      · exact .inr hX
      · exact .inl hX)
  -- Everything below the two stages stays as it was.
  have hKept (t : Tree) (hHolds : plan.Holds t)
      (hT : t ∈ feeder :: (rest ++ cs)) :
      Plan.Holds _ t :=
    hAlters.holds hHolds (by
      rintro x hX (rfl | rfl)
      · exact (hApart t hT).1 hX
      · exact (hApart t hT).2 hX)
  have hFed := holds_node
    (hLast.spared_node hBindPut hNe) (by
      intro t hT
      rcases List.mem_cons.mp hT with rfl | hT
      · exact hKept t (hStage.child List.mem_cons_self)
          List.mem_cons_self
      · exact hKept t (hBind.child hT)
          (List.mem_cons_of_mem _
            (List.mem_append_right _ hT)))
  refine ⟨hAlters, holds_node hStageLast ?_⟩
  intro t hT
  rcases List.mem_cons.mp hT with rfl | hT
  · exact hFed
  · exact hKept t
      (hStage.child (List.mem_cons_of_mem _ hT))
      (List.mem_cons_of_mem _ (List.mem_append_left _ hT))

/- A reference takes the place of a tree below another one. -/
theorem achieves_refer
    {s x : Tree}
    (hSound : plan.Sound)
    (hS : s ∈ plan.rootTree.subtrees)
    (hX : x ∈ s.subtrees)
    (hNe : s.id ≠ x.id)
    (name : String) :
    (do
      let reference ← add .variableRef (.var name) []
      replace x.id reference : Edit Unit).Achieves plan
        (fun _ after =>
          plan.Alters {i | i ∈ s.ids} after ∧
            after.Holds (s.mapAt x.id (fun _ =>
              Tree.reference plan.size name)) ∧
            after.Holds x ∧ after.Detached x.id) := by
  rcases hSound.holds_rootTree with ⟨_, hHolds, hNodup⟩
  have hNodupS := Tree.nodup_ids_of_subtree hNodup hS
  have hHoldsS := hHolds.subtree hS
  -- The parent lies within the tree, but not below the child.
  rcases Tree.exists_parent_around
      (Tree.mem_ids_iff.mpr ⟨x, hX, rfl⟩) hNe with
    ⟨r, hR, hChild⟩
  have hRMem := Tree.around_subset hR
  have hParent : plan.parent? x.id = some r.id := by
    refine hSound.linked.parent?_of_mem ?_
    rw [(hHoldsS r hRMem).children]
    exact hChild
  have hApart := Tree.not_mem_of_around hNodupS hX hR
  rcases hSound.alters_grow .variableRef (.var name) [] with
    ⟨hGrown, hNew⟩
  refine (achieves_add .variableRef (.var name) []).bind ?_
  rintro _ _ ⟨rfl, rfl⟩
  have hLoose := detached_grow hSound.root_lt .variableRef
    (.var name) []
  have hXLt := (hHoldsS.subtree hX).self.lt
  rcases achieves_replace hGrown.sound.linked
      (by rw [parent?_grow]; exact hParent) hLoose with
    ⟨index, hPlace, hReplace⟩
  refine hReplace.mono ?_
  rintro _ _ rfl
  have hPut := hGrown.sound.alters_exchange hPlace hLoose
  refine ⟨(hGrown.trans hPut).narrow ?_, ?_, ?_, ?_⟩
  · rintro i (hI | rfl) _
    · exact hI.elim
    · exact Tree.mem_ids_iff.mpr ⟨r, hRMem, rfl⟩
  · refine hGrown.sound.holds_exchange
      (u := Tree.reference plan.size name) hPlace hLoose
      (fun q hQ => hGrown.spared q (fun h => h)
        (hHoldsS q (Tree.around_subset hQ)))
      (holds_leaf hNew) ?_
    simpa [Tree.reference, Tree.ids, Tree.idsAll] using
      hXLt.ne
  · refine hPut.holds (hGrown.holds (hHoldsS.subtree hX)
      (fun _ _ h => h)) ?_
    rintro i hI rfl
    exact hApart hI
  · refine ⟨hXLt.trans_le (hGrown.size.trans hPut.size), ?_,
      hSound.linked.ne_root_of_parent? hParent⟩
    rw [parent?_exchange hGrown.sound.linked hPlace hLoose,
      if_pos rfl]

/- A stage is made that binds a tree, but is not yet fed. -/
theorem achieves_bind
    {x : Tree}
    (hSound : plan.Sound)
    (hHolds : plan.Holds x)
    (hLoose : plan.Detached x.id)
    (name : String) :
    (do
      let declared ← add .variable (.var name) []
      addWith .letBind .none [declared, x.id]
        : Edit NodeId).Achieves plan (fun b after =>
          b = plan.size + 1 ∧ plan.Alters ∅ after ∧
            after.Holds (.node b .letBind .none []
              [.node plan.size .variable (.var name) [] [],
                x]) ∧
            after.Detached b) := by
  rcases hSound.alters_grow .variable (.var name) [] with
    ⟨hGrown, hNew⟩
  have hEdited :=
    edited_grow plan .variable (.var name) []
  have hDeclared := detached_grow hSound.root_lt .variable
    (.var name) []
  refine (achieves_add .variable (.var name) []).bind ?_
  rintro _ _ ⟨rfl, rfl⟩
  have hParts : ∀ t ∈ [Tree.node plan.size .variable
      (.var name) [] [], x], (plan.grow .variable (.var name)
        []).Holds t :=
    forall_mem_pair (holds_leaf hNew)
      (hGrown.holds hHolds (fun _ _ h => h))
  refine ((achieves_addWith hGrown.sound.linked
    hGrown.sound.root_lt .letBind .none [plan.size, x.id]
    (forall_mem_pair hDeclared
      (hEdited.detached hLoose (by simp)))
    (by simpa using hLoose.lt.ne')).ensuring
      (ensures_addWith hGrown.sound .letBind .none hParts
        rfl)).mono ?_
  rintro _ after ⟨hBind, rfl, hAdded, _, hTree⟩
  refine ⟨size_grow plan .variable (.var name) [],
    (hGrown.trans hAdded).narrow (fun i hI _ => ?_), hTree,
    hBind.detached⟩
  rcases hI with hI | hI
  · exact hI
  · exact hI

/-
  A pipeline below a stage is hoisted: of the whole tree of
  the plan only this stage changes.
-/
theorem achieves_hoist
    {slot x : Tree}
    {mid : List Tree}
    (hSound : plan.Sound)
    (hStage : .node stage k p ps
      (feeder :: (mid ++ [slot])) ∈ plan.rootTree.subtrees)
    (hX : x ∈ slot.subtrees)
    (name : String) :
    (hoist name stage x.id).Achieves plan (fun _ after =>
      after.Sound ∧ ∃ b d j, after.rootTree =
        plan.rootTree.mapAt stage (fun _ =>
          .node stage k p ps
            (Tree.binder .letBind b d [] name feeder x
              :: (mid ++ [slot.mapAt x.id (fun _ =>
                Tree.reference j name)])))) := by
  have hParts : hoist name stage x.id = (do
      (do
        let reference ← add .variableRef (.var name) []
        replace x.id reference : Edit Unit)
      let b ← (do
        let declared ← add .variable (.var name) []
        addWith .letBind .none [declared, x.id]
          : Edit NodeId)
      interpose stage b) := by
    simp only [hoist, bind_assoc]
  rw [hParts]
  rcases hSound.holds_rootTree with ⟨_, hHolds, hNodup⟩
  have hHoldsS := hHolds.subtree hStage
  have hNodupS := Tree.nodup_ids_of_subtree hNodup hStage
  have hTop : stage ∉
      Tree.idsAll (feeder :: (mid ++ [slot])) :=
    (List.nodup_cons.mp hNodupS).1
  have hNotIn (c : Tree)
      (hC : c ∈ feeder :: (mid ++ [slot])) :
      stage ∉ c.ids :=
    fun hMem => hTop (Tree.mem_idsAll_iff.mpr ⟨c, hC, hMem⟩)
  have hHere : x.id ∈ slot.ids :=
    Tree.mem_ids_iff.mpr ⟨x, hX, rfl⟩
  have hNe : stage ≠ x.id := by
    rintro rfl
    exact hNotIn slot (by simp) hHere
  refine (achieves_refer hSound hStage
    (Tree.mem_subtrees_of_child (by simp) hX) hNe
    name).bind ?_
  rintro _ middle ⟨hRefer, hTree, hHoldsX, hLoose⟩
  rw [Tree.mapAt_of_last hNodupS hHere] at hTree
  refine (achieves_bind hRefer.sound hHoldsX hLoose
    name).bind ?_
  rintro _ middle' ⟨rfl, hAdded, hBind, hBindLoose⟩
  have hTree' := hAdded.holds hTree (fun _ _ h => h)
  have hReference : plan.size < middle.size := by
    refine hTree.lt_of_mem (Tree.mem_ids_iff.mpr
      ⟨Tree.reference plan.size name, ?_, rfl⟩)
    exact Tree.mem_subtrees_of_child (by simp)
      (Tree.mem_subtrees_mapAt hHere)
  have hOld
      {i : NodeId}
      (hI : i ∈ Tree.idsAll (feeder :: (mid ++ [slot]))) :
      i < plan.size :=
    hHoldsS.lt_of_mem (List.mem_cons_of_mem _ hI)
  have hParts := @Tree.ids_hoisted middle.size plan.size name
    feeder slot x mid hX
  have hLt := hHoldsS.self.lt
  have hNew : plan.size < middle.size + 1 :=
    hReference.trans (Nat.lt_succ_self _)
  refine (achieves_interpose hAdded.sound hTree' hBind
    hBindLoose ?_ ?_).mono ?_
  · exact (hLt.trans hNew).ne'
  · refine fun t hT => ⟨fun hMem => ?_, fun hMem => ?_⟩
    · rcases hParts t hT _ hMem with hIn | hIs | hIs
      · exact hTop hIn
      · exact hLt.ne hIs
      · exact (hLt.trans hReference).ne hIs
    · rcases hParts t hT _ hMem with hIn | hIs | hIs
      · exact (hOld hIn).not_gt hNew
      · exact hNew.ne' hIs
      · exact (Nat.lt_succ_self _).ne' hIs
  rintro _ after ⟨hFed, hResult⟩
  refine ⟨hFed.sound, middle.size + 1, middle.size, plan.size,
    ?_⟩
  have hAlters : plan.Alters {i | i ∈ (Tree.node stage k p ps
      (feeder :: (mid ++ [slot]))).ids} after := by
    refine (hRefer.trans (hAdded.trans hFed)).narrow ?_
    rintro i (hI | hI | rfl | rfl) hBefore
    · exact hI
    · exact hI.elim
    · exact List.mem_cons_self
    · exact (hBefore.not_gt hNew).elim
  exact hAlters.rootTree_eq hSound (fun r hR =>
    Tree.not_mem_of_around hNodup hStage hR) hResult rfl

end Edit

end Flwor
