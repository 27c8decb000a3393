import Flwor.Pass.Grouping
import Flwor.Proofs.Rewriting.Fixpoints
import Flwor.Proofs.Rewriting.Surgery

/-
  The pass that emits groupings keeps plans well formed.

  A new grouping takes the place of the last stage that
  belongs to a join and has that stage as its input.  It
  keeps the rules once it has its keys and its aggregate.

  Key theorems include:
    * `Pass.achieves_addGroupKey`, `Pass.achieves_groupKeys`
    * `Pass.achieves_emitGroup`
    * `Pass.keeps_groupEmission`
-/

------------------------------------------------------------
-- Groupings
------------------------------------------------------------

namespace Flwor

namespace Kind

theorem specsInOrder_replicate
    (n : Nat) :
    ShapeRule.specsInOrder false
      (List.replicate n groupSpec ++ [aggregateSpec]) =
        true := by
  induction n with
  | zero => rfl
  | succ n ih =>
      rw [List.replicate_succ, List.cons_append,
        ShapeRule.specsInOrder, ih]
      rfl

/- A grouping by any number of keys with one aggregate. -/
theorem proper_grouping
    {s : Kind}
    {p : Payload}
    (hStage : s.isStage)
    (n : Nat) :
    groupBy.Proper p
      (s :: (List.replicate n groupSpec
        ++ [aggregateSpec])) := by
  have hPlain : ∀ c ∈ List.replicate n groupSpec
      ++ [aggregateSpec], c.isPlain := by
    intro c hC
    rw [List.mem_append, List.mem_replicate,
      List.mem_singleton] at hC
    rcases hC with ⟨_, rfl⟩ | rfl <;> rfl
  have hOrder := specsInOrder_replicate n
  refine ⟨?_, hPlain⟩
  cases hSpecs : List.replicate n groupSpec
      ++ [aggregateSpec] with
  | nil => simp at hSpecs
  | cons spec specs =>
      rw [hSpecs] at hOrder
      exact ⟨s, spec, specs, rfl, hStage, hOrder⟩

end Kind

namespace Pass

open Plan

variable {start plan : Plan}
variable {loose : Set NodeId}
variable {group : NodeId}

/- A grouping that is not complete gets a further key. -/
theorem achieves_addGroupKey
    (hSurgery : start.Surgery loose plan)
    (hLoose : group ∈ loose)
    (hGroup : group < plan.size)
    (name : String) :
    (addGroupKey group name).Achieves plan (fun _ after =>
      start.Surgery loose after ∧
        plan.Edited {group} ∅ after ∧
        after.childKinds group =
          plan.childKinds group ++ [.groupSpec]) := by
  have hSpec : Kind.groupSpec.Proper .none [.variableRef] :=
    ⟨rfl, List.forall_mem_singleton.mpr rfl⟩
  refine (hSurgery.achieves_add []
    (Kind.proper_variableRef name)).bind ?_
  rintro reference plan₁ ⟨hSurgery₁, hRef⟩
  refine (hSurgery₁.achieves_addWith
    (List.forall_mem_singleton.mpr
      (hSurgery.live_of_new hRef.size_le))
    (List.forall_mem_singleton.mpr hRef.detached)
    (List.nodup_singleton _) ?_).bind ?_
  · rw [List.map_singleton, hRef.kind]
    exact hSpec
  rintro spec plan₂ ⟨hSurgery₂, hGrown⟩
  have hEdited : plan.Edited ∅ ∅ plan₂ := by
    refine hGrown.edited_of (hRef.edited.mono subset_rfl
      (by simp)) (List.forall_mem_singleton.mpr ?_)
    exact fun hOld => (hRef.ne_of_lt hOld rfl).elim
  have hSpecNew : plan.size ≤ spec :=
    Nat.le_trans hRef.edited.size hGrown.size_le
  refine (hSurgery₂.achieves_append hGrown.detached
    (hSurgery.live_of_new hSpecNew)
    (hEdited.lt hGroup)).mono ?_
  rintro _ after ⟨hSurgery₃, hAttached⟩
  have hAll := hEdited.trans hAttached.edited
  refine ⟨hSurgery₃.mono (by simp [hLoose]), ?_, ?_⟩
  · refine hAll.narrow (by simp) ?_
    rintro x (hX | rfl) hOld
    · exact hX
    · exact (Nat.not_lt.mpr hSpecNew hOld).elim
  · rw [childKinds, hAttached.children,
      List.insertIdx_length_self, List.map_append,
      List.map_singleton,
      hAttached.edited.kind spec hGrown.detached.lt,
      hGrown.kind, hEdited.children group hGroup (by simp),
      hAll.map_kind
        (fun c hC => hSurgery.linked.lt_of_mem hC),
      childKinds]

/- One key after the other. -/
theorem achieves_groupKeys
    (hSurgery : start.Surgery loose plan)
    (hLoose : group ∈ loose)
    (hGroup : group < plan.size)
    (keys : List String) :
    (keys.forM (addGroupKey group)).Achieves plan
      (fun _ after => start.Surgery loose after ∧
        plan.Edited {group} ∅ after ∧
        after.childKinds group = plan.childKinds group ++
          List.replicate keys.length .groupSpec) := by
  induction keys generalizing plan with
  | nil =>
      refine achieves_return ⟨hSurgery,
        (Edited.refl plan).mono (by simp) subset_rfl, ?_⟩
      simp
  | cons name rest ih =>
      rw [List.forM]
      refine (achieves_addGroupKey hSurgery hLoose hGroup
        name).bind ?_
      rintro _ middle ⟨hSurgery₁, hEdited₁, hKinds₁⟩
      refine (ih hSurgery₁ (Nat.lt_of_lt_of_le hGroup
        hEdited₁.size)).mono ?_
      rintro _ after ⟨hSurgery₂, hEdited₂, hKinds₂⟩
      refine ⟨hSurgery₂,
        (hEdited₁.trans hEdited₂).mono (by simp) (by simp),
        ?_⟩
      rw [hKinds₂, hKinds₁, List.length_cons,
        List.replicate_succ, List.append_assoc,
        List.singleton_append]

/- It gets an aggregate before anything else is done. -/
theorem achieves_addAggregate
    {α : Type}
    {next : Edit α}
    {post : α → Plan → Prop}
    (hSurgery : start.Surgery loose plan)
    (hLoose : group ∈ loose)
    (hGroup : group < plan.size)
    (target source : String)
    (hNext : ∀ after, start.Surgery loose after →
      plan.Edited {group} ∅ after →
        after.childKinds group =
          plan.childKinds group ++ [.aggregateSpec] →
            next.Achieves after post) :
    (do
      let declared ← Edit.add .variable (.var target) []
      let reference ← Edit.add .variableRef (.var source) []
      let aggregate ← Edit.addWith .aggregateSpec .none
        [declared, reference]
      Edit.append group aggregate
      next : Edit α).Achieves plan post := by
  have hCollects : Kind.aggregateSpec.Proper .none
      [.variable, .variableRef] :=
    ⟨rfl, forall_mem_pair rfl rfl⟩
  refine (hSurgery.achieves_add []
    (Kind.proper_variable target)).bind ?_
  rintro declared plan₁ ⟨hSurgery₁, hDeclared⟩
  refine (hSurgery₁.achieves_add []
    (Kind.proper_variableRef source)).bind ?_
  rintro reference plan₂ ⟨hSurgery₂, hReference⟩
  have hDeclared₂ : plan₂.Detached declared :=
    hReference.edited.detached hDeclared.detached (by simp)
  have hNe : declared ≠ reference :=
    hReference.ne_of_lt hDeclared.detached.lt
  have hKinds : [declared, reference].map plan₂.kind
      = [.variable, .variableRef] := by
    rw [List.map_cons, List.map_singleton,
      hReference.edited.kind declared hDeclared.detached.lt,
      hDeclared.kind, hReference.kind]
  refine (hSurgery₂.achieves_addWith
    (forall_mem_pair
      (hSurgery.live_of_new hDeclared.size_le)
      (hSurgery₁.live_of_new hReference.size_le))
    (forall_mem_pair hDeclared₂ hReference.detached)
    (by simp [hNe]) (hKinds ▸ hCollects)).bind ?_
  rintro aggregate plan₃ ⟨hSurgery₃, hGrown⟩
  have hBoth : plan.Edited ∅ ∅ plan₂ :=
    hReference.edited_of
      (hDeclared.edited.mono subset_rfl (by simp)) (by simp)
  have hEdited : plan.Edited ∅ ∅ plan₃ :=
    hGrown.edited_of hBoth (forall_mem_pair
      (fun hOld => (hDeclared.ne_of_lt hOld rfl).elim)
      (fun hOld => (hReference.ne_of_lt
        (hDeclared.edited.lt hOld) rfl).elim))
  have hNew : plan.size ≤ aggregate :=
    Nat.le_trans hBoth.size hGrown.size_le
  refine (hSurgery₃.achieves_append hGrown.detached
    (hSurgery.live_of_new hNew)
    (hEdited.lt hGroup)).bind ?_
  rintro _ after ⟨hSurgery₄, hAttached⟩
  have hAll := hEdited.trans hAttached.edited
  refine hNext after (hSurgery₄.mono (by simp [hLoose]))
    ?_ ?_
  · refine hAll.narrow (by simp) ?_
    rintro x (hX | rfl) hOld
    · exact hX
    · exact (Nat.not_lt.mpr hNew hOld).elim
  · rw [childKinds, hAttached.children,
      List.insertIdx_length_self, List.map_append,
      List.map_singleton,
      hAttached.edited.kind aggregate hGrown.detached.lt,
      hGrown.kind, hEdited.children group hGroup (by simp),
      hAll.map_kind
        (fun c hC => hSurgery.linked.lt_of_mem hC),
      childKinds]

end Pass

end Flwor

------------------------------------------------------------
-- The Pass
------------------------------------------------------------

namespace Flwor

namespace Plan

variable {plan : Plan}
variable {stage next : NodeId}

/- A stage that reads the rows of another is its parent. -/
theorem parent?_of_consumer
    (hConsumer : plan.consumer stage = .ok (.stage next)) :
    plan.parent? stage = some next := by
  unfold consumer at hConsumer
  split at hConsumer
  · cases hConsumer
  next parent hParent =>
  rw [hParent]
  split at hConsumer
  · cases hConsumer
  · split at hConsumer <;> cases hConsumer
  · split at hConsumer
    · cases hConsumer
      rfl
    · cases hConsumer

/- The rows of a join are grouped after a reached stage. -/
theorem regroupPointWithin_stage
    (hLinked : plan.Linked)
    (hReach : plan.Reaches stage)
    (hStage : (plan.kind stage).isStage)
    (steps : Nat) :
    plan.Reaches (plan.regroupPointWithin steps stage) ∧
      (plan.kind
        (plan.regroupPointWithin steps stage)).isStage := by
  induction steps generalizing stage with
  | zero => exact ⟨hReach, hStage⟩
  | succ steps ih =>
      rw [regroupPointWithin]
      split
      · next next hConsumer =>
        split
        · next hGuard =>
          rw [Bool.and_eq_true, decide_eq_true_eq] at hGuard
          exact ih (hReach.parent hLinked
            (parent?_of_consumer hConsumer))
            (by rw [hGuard.1]; rfl)
        · exact ⟨hReach, hStage⟩
      · exact ⟨hReach, hStage⟩

end Plan

namespace Pass

open Plan

variable {plan : Plan}
variable {join : NodeId}

/- A grouping in place of the last stage of a join. -/
theorem achieves_emitGroup
    (hFormed : plan.WellFormed)
    (hReach : plan.Reaches join)
    (hKind : plan.kind join = .join)
    (target source : String) :
    (emitGroup join target source).Achieves plan
      (fun _ after => after.WellFormed) := by
  refine achieves_get_bind ?_
  dsimp only
  generalize Names.latest
    (((plan.child? join 0).map plan.visible).getD []) = keys
  have hPoint := regroupPointWithin_stage hFormed.linked
    hReach (by rw [hKind]; rfl) plan.size
  rw [← regroupPoint] at hPoint
  generalize plan.regroupPoint join = last at hPoint ⊢
  rcases hPoint with ⟨hLast, hLastStage⟩
  rcases hFormed.exists_consumer hLast hLastStage with
    ⟨consumer, hParent, hConsumer, hNe⟩
  rcases hFormed.linked.exists_indexInParent? hParent with
    ⟨index, hIndex, hChild⟩
  rw [hParent, hIndex]
  dsimp only
  have hConsumerLt := hFormed.lt_of_reaches hConsumer
  have hLastLt := hFormed.lt_of_reaches hLast
  refine (hFormed.surgery.achieves_remove hChild).bind ?_
  rintro _ cut ⟨rfl, hSurgery₁, hCut⟩
  refine (hSurgery₁.achieves_addWith_loose
    (List.forall_mem_singleton.mpr (live_of_reaches hLast))
    (List.forall_mem_singleton.mpr hCut.detached)
    (List.nodup_singleton _)).bind ?_
  rintro group grouped ⟨hSurgery₂, hGrown⟩
  have hEdited₂ := hCut.edited.trans hGrown.edited
  have hGroupNew : plan.size ≤ group :=
    Nat.le_trans hCut.edited.size hGrown.size_le
  have hGroupNe : consumer ≠ group :=
    (Nat.lt_of_lt_of_le hConsumerLt hGroupNew).ne
  refine (achieves_groupKeys hSurgery₂ (Set.mem_insert _ _)
    hGrown.detached.lt keys).bind ?_
  rintro _ keyed ⟨hSurgery₃, hKeys, hKeyKinds⟩
  have hEdited₃ := hEdited₂.trans hKeys
  have hDetached₃ : keyed.Detached group :=
    hKeys.detached hGrown.detached (by simp)
  refine achieves_addAggregate hSurgery₃ (Set.mem_insert _ _)
    hDetached₃.lt target source ?_
  intro full hSurgery₄ hFull hFullKinds
  have hDetached₄ : full.Detached group :=
    hFull.detached hDetached₃ (by simp)
  have hEdited₄ := hEdited₃.trans hFull
  have hGroupKind : full.kind group = .groupBy := by
    rw [hFull.kind group hDetached₃.lt,
      hKeys.kind group hGrown.detached.lt, hGrown.kind]
  -- The grouping is complete.
  have hGroupProper : full.Proper group := by
    have hGroupKinds : grouped.childKinds group =
        [plan.kind last] := by
      rw [childKinds, hGrown.children, List.map_singleton,
        hGrown.edited.kind last hCut.detached.lt,
        hCut.edited.kind last hLastLt]
    rw [Plan.Proper, hGroupKind, hFullKinds, hKeyKinds,
      hGroupKinds, List.append_assoc, List.singleton_append]
    exact Kind.proper_grouping hLastStage keys.length
  -- It takes the place of the stage that it groups.
  have hConsumerCut : full.children consumer =
      (plan.children consumer).eraseIdx index := by
    rw [hFull.children consumer (hEdited₃.lt hConsumerLt)
        (by simpa using hGroupNe),
      hKeys.children consumer (hEdited₂.lt hConsumerLt)
        (by simpa using hGroupNe),
      hGrown.edited.children consumer
        (hCut.edited.lt hConsumerLt) (by simp),
      hCut.children]
  have hAlike :
      (plan.kind last).Alike (full.kind group) := by
    rw [hGroupKind]
    exact .stage hLastStage rfl
  refine ((hSurgery₄.mend hGroupProper).achieves_putBack
    hEdited₄ hFormed.linked
    (hFormed.proper consumer hConsumer) hChild hConsumerCut
    hDetached₄ (live_of_size_le hGroupNew) hAlike).bind ?_
  rintro _ placed ⟨hSurgery₅, _⟩
  refine (Edit.achieves_eraseProperty join
    Properties.regroup).mono ?_
  intro _ after hSame
  refine (hSurgery₅.sameLinks hSame).wellFormed_of_empty
    hFormed ?_
  simp only [Set.eq_empty_iff_forall_notMem]
  rintro x ⟨⟨rfl | rfl | hIn, hNotGroup⟩, hNotConsumer⟩
  · exact hNotGroup rfl
  · exact hNotConsumer rfl
  · exact hIn

theorem keeps_groupEmission :
    groupEmission.Keeps := by
  intro plan join hFormed hReach
  refine achieves_get_bind ?_
  dsimp only
  split
  · exact hFormed.achieves_nothing
  next hGuard =>
  have hKind : plan.kind join = .join := by
    by_contra hKind
    simp [hKind] at hGuard
  split
  · split
    · exact hFormed.achieves_nothing
    · refine (achieves_emitGroup hFormed hReach hKind _
        _).bind ?_
      exact fun _ after hAfter =>
        achieves_return (.of_changed hAfter)
  · exact hFormed.achieves_nothing

end Pass

end Flwor
