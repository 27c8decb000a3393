import Flwor.Proofs.Rewriting.Fixpoints
import Flwor.Proofs.Rewriting.Joining

/-
  The pass that replaces nested pipelines keeps plans well
  formed.

  A pipeline that is buried in an expression is bound by a
  stage of its own first.  A bound pipeline is then taken
  apart, and a join takes the place of the stage.

  Key theorems include:
    * `Pass.achieves_extractPipe`
    * `Pass.achieves_leftJoinLet`
    * `Pass.achieves_innerJoinFor`
    * `Pass.keeps_unnest`
-/

------------------------------------------------------------
-- Buried Pipelines
------------------------------------------------------------

namespace Flwor

namespace Plan

variable {plan : Plan}
variable {stage slot feeder pipe : NodeId}

/- A pipeline below the expression that a stage evaluates. -/
theorem exists_buried
    (hFormed : plan.WellFormed)
    (hReach : plan.Reaches stage)
    (hSlot : plan.rowExpr? stage = some slot)
    (hFeeder : plan.child? stage 0 = some feeder)
    (hPipe : pipe ∈ (plan.tree slot).eagerPipes) :
    (plan.kind feeder).isStage ∧
      plan.kind pipe = .pipeExpr ∧ plan.Reaches pipe ∧
        ∃ parent, plan.parent? pipe = some parent := by
  rcases rowExpr?_eq_some hSlot with
    ⟨hSlotMem, hReads, hStart⟩
  have hFeederStage :=
    hFormed.isStage_feeder hReach hReads hStart hFeeder
  rcases hReach with ⟨n, hAt⟩
  have hSlotAt : plan.At (n + 1) (plan.tree slot).id := by
    rw [id_tree]
    exact hAt.child hSlotMem
  rcases (plan.shows_tree slot).eagerPipes hSlotAt hPipe with
    ⟨hKind, m, hDepth, hPipeAt⟩
  have hNotRoot : pipe ≠ plan.root := by
    rintro rfl
    have hZero := hPipeAt.unique hFormed.linked .root
    omega
  have hPipeReach : plan.Reaches pipe := ⟨m, hPipeAt⟩
  rcases hPipeReach.exists_parent hFormed.linked hNotRoot with
    ⟨parent, hParent, _⟩
  exact ⟨hFeederStage, hKind, hPipeReach, parent, hParent⟩

end Plan

namespace Pass

open Plan

variable {start plan : Plan}
variable {stage feeder pipe parent value : NodeId}

/- A reference takes the place of a pipeline. -/
theorem achieves_putReference
    {α : Type}
    {next : String → Edit α}
    {post : α → Plan → Prop}
    (hFormed : plan.WellFormed)
    (hReach : plan.Reaches pipe)
    (hKind : plan.kind pipe = .pipeExpr)
    (hParent : plan.parent? pipe = some parent)
    (hint : String)
    (hNext : ∀ name after,
      plan.Surgery ∅ after →
        plan.Edited {parent} {pipe} after →
          after.Detached pipe →
            (∀ x index c, x < plan.size → c ≠ pipe →
              plan.child? x index = some c →
                after.child? x index = some c) →
              (next name).Achieves after post) :
    (do
      let name ← Edit.fresh hint
      let reference ← Edit.add .variableRef (.var name) []
      Edit.replace pipe reference
      next name : Edit α).Achieves plan post := by
  have hPipeLt := hFormed.lt_of_reaches hReach
  refine (Edit.achieves_fresh hint).bind ?_
  intro name plan₁ hSame
  have hSurgery₁ := hFormed.surgery.sameLinks hSame
  refine (hSurgery₁.achieves_add []
    (Kind.proper_variableRef name)).bind ?_
  rintro reference plan₂ ⟨hSurgery₂, hReference⟩
  have hEdited₂ : plan.Edited ∅ ∅ plan₂ :=
    hReference.edited_of hSame.edited (by simp)
  have hParent₂ : plan₂.parent? pipe = some parent := by
    rw [hEdited₂.parent pipe hPipeLt (by simp)]
    exact hParent
  have hAlike :
      (plan₂.kind pipe).Alike (plan₂.kind reference) := by
    rw [hEdited₂.kind pipe hPipeLt, hKind, hReference.kind]
    exact .pipe
  have hNew : plan.size ≤ reference :=
    Nat.le_trans hSame.edited.size hReference.size_le
  refine (hSurgery₂.achieves_replace hParent₂
    hReference.detached (live_of_size_le hNew) hAlike).bind ?_
  rintro _ after ⟨hSurgery, hReplaced⟩
  refine hNext name after hSurgery ?_ hReplaced.detached ?_
  · refine (hEdited₂.trans hReplaced.edited).narrow
      (by simp) ?_
    rintro x (hX | rfl | rfl) hOld
    · exact hX.elim
    · rfl
    · exact (Nat.not_lt.mpr hNew hOld).elim
  · intro x index c hX hC hChild
    refine hReplaced.child?_eq hC ?_
    rw [hEdited₂.child?_eq hX (by simp)]
    exact hChild

/- A value is bound in front of a stage. -/
theorem achieves_bindBefore
    (hFormed : start.WellFormed)
    (hSurgery : start.Surgery ∅ plan)
    (hStage : start.Reaches stage)
    (hFeeder : plan.child? stage 0 = some feeder)
    (hFeederStage : (plan.kind feeder).isStage)
    (hValue : plan.Detached value)
    (hLive : start.Live value)
    (hPlain : (plan.kind value).isPlain)
    (name : String) :
    (do
      let declared ← Edit.add .variable (.var name) []
      let bind ←
        Edit.addWith .letBind .none [declared, value]
      Edit.interpose stage bind
      return true : Edit Bool).Achieves plan
        start.Rewritten := by
  refine (hSurgery.achieves_add []
    (Kind.proper_variable name)).bind ?_
  rintro declared plan₁ ⟨hSurgery₁, hDeclared⟩
  have hNe : value ≠ declared := hDeclared.ne_of_lt hValue.lt
  refine (hSurgery₁.achieves_addWith_loose
    (forall_mem_pair (hSurgery.live_of_new hDeclared.size_le)
      hLive)
    (forall_mem_pair hDeclared.detached
      (hDeclared.edited.detached hValue (by simp)))
    (by simp [Ne.symm hNe])).bind ?_
  rintro bind plan₂ ⟨hSurgery₂, hBind⟩
  have hStageLt : stage < plan.size :=
    lt_size_of_mem_children (mem_children_of_child? hFeeder)
  have hFeederLt : feeder < plan.size :=
    hSurgery.linked.lt_of_mem (mem_children_of_child? hFeeder)
  have hBindNe : stage ≠ bind :=
    hBind.ne_of_lt (hDeclared.edited.lt hStageLt)
  have hFeederHere : plan₂.child? stage 0 = some feeder := by
    rw [hBind.edited.child?_eq
        (hDeclared.edited.lt hStageLt) (by simp),
      hDeclared.edited.child?_eq hStageLt (by simp)]
    exact hFeeder
  have hFeederKind : plan₂.kind feeder = plan.kind feeder := by
    rw [hBind.edited.kind feeder
        (hDeclared.edited.lt hFeederLt),
      hDeclared.edited.kind feeder hFeederLt]
  have hProper : (plan₂.kind bind).Proper
      (plan₂.payload bind)
      (plan₂.kind feeder :: plan₂.childKinds bind) := by
    have hKinds : plan₂.childKinds bind =
        [.variable, plan.kind value] := by
      rw [childKinds, hBind.children, List.map_cons,
        List.map_singleton,
        hBind.edited.kind declared hDeclared.detached.lt,
        hDeclared.kind,
        hBind.edited.kind value
          (hDeclared.edited.lt hValue.lt),
        hDeclared.edited.kind value hValue.lt]
    rw [hBind.kind, hKinds, hFeederKind]
    exact ⟨⟨_, _, rfl, hFeederStage⟩,
      forall_mem_pair rfl hPlain⟩
  have hAlike :
      (plan₂.kind feeder).Alike (plan₂.kind bind) := by
    rw [hFeederKind, hBind.kind]
    exact .stage hFeederStage rfl
  refine (hSurgery₂.achieves_interpose hFeederHere
    hBind.detached hBindNe (live_of_reaches hStage)
    (hSurgery₁.live_of_new hBind.size_le)
    (by simpa using hBindNe) hAlike hProper).bind ?_
  intro _ after hSurgery₃
  exact achieves_return (.of_changed
    (hSurgery₃.wellFormed_of_empty hFormed (by simp)))

/- A buried pipeline is bound in front of its stage. -/
theorem achieves_extractPipe
    (hFormed : plan.WellFormed)
    (hReach : plan.Reaches stage) :
    (extractPipe stage).Achieves plan plan.Rewritten := by
  refine achieves_get_bind ?_
  split
  · exact hFormed.achieves_nothing
  split
  · next slot feeder hSlot hFeeder =>
    dsimp only
    split
    · exact hFormed.achieves_nothing
    next pipe hFind =>
    rcases exists_buried hFormed hReach hSlot hFeeder
        (List.mem_of_find?_eq_some hFind) with
      ⟨hFeederStage, hKind, hPipe, parent, hParent⟩
    have hStageLt := hFormed.lt_of_reaches hReach
    have hPipeLt := hFormed.lt_of_reaches hPipe
    have hFeederLt := hFormed.linked.lt_of_mem
      (mem_children_of_child? hFeeder)
    have hFeederNe : feeder ≠ pipe :=
      ne_of_isStage hFeederStage (by rw [hKind]; rfl)
    refine achieves_putReference hFormed hPipe hKind hParent
      "n" ?_
    intro name middle hSurgery hEdited hDetached hChildren
    refine achieves_bindBefore hFormed hSurgery hReach
      (hChildren stage 0 feeder hStageLt hFeederNe hFeeder)
      ?_ hDetached (live_of_reaches hPipe) ?_ name
    · rw [hEdited.kind feeder hFeederLt]
      exact hFeederStage
    · rw [hEdited.kind pipe hPipeLt, hKind]
      rfl
  · exact hFormed.achieves_nothing

end Pass

end Flwor

------------------------------------------------------------
-- Bound Pipelines
------------------------------------------------------------

namespace Flwor

namespace Plan

variable {plan : Plan}
variable {n : Nat}
variable {stage pipe : NodeId}
variable {candidate : Candidate}

/- A stage that binds a replaceable pipeline. -/
theorem exists_nested
    (hFormed : plan.WellFormed)
    (hAt : plan.At n stage)
    (hStage : (plan.kind stage).isStage)
    (hStart : plan.kind stage ≠ .start)
    (hPipe : pipe ∈ plan.children stage)
    (hCandidate :
      plan.candidate? stage pipe = some candidate) :
    ∃ feeder, plan.child? stage 0 = some feeder ∧
      Nonempty
        (plan.Nested n stage feeder pipe candidate) := by
  simp only [candidate?, Option.bind_eq_bind,
    Option.bind_eq_some_iff, Option.pure_def] at hCandidate
  rcases hCandidate with
    ⟨feeder, hFeeder, found, hFound, _, _, _, _, hEq⟩
  cases hEq
  rcases exists_pipeline hFormed (hAt.child hPipe) hFound with
    ⟨parts⟩
  have hFeederStage := hFormed.isStage_feeder ⟨n, hAt⟩
    (.inr hStage) hStart hFeeder
  exact ⟨feeder, hFeeder, ⟨⟨parts, hAt, hStage,
    mem_children_of_child? hFeeder, hFeederStage, hPipe⟩⟩⟩

/- Loops and bindings have a variable with a name. -/
theorem exists_binding
    (hFormed : plan.WellFormed)
    (hReach : plan.Reaches stage)
    (hKind : plan.kind stage = .letBind ∨
      plan.kind stage = .forBind) :
    ∃ name, (plan.tree stage).binding? = some name := by
  have hAdmits := (hFormed.proper stage hReach).admits
  have hVariable :
      (plan.childKinds stage)[1]? = some .variable := by
    rcases hKind with hKind | hKind
    · rw [hKind] at hAdmits
      rcases hAdmits with ⟨s, v, hKinds, _⟩
      rw [hKinds]
      rfl
    · rw [hKind] at hAdmits
      rcases hAdmits with ⟨s, _, ⟨v, hKinds⟩ | ⟨v, hKinds⟩⟩
      all_goals
        rw [hKinds]
        rfl
  rw [childKinds, List.getElem?_map, Option.map_eq_some_iff]
    at hVariable
  rcases hVariable with ⟨c, hC, hVariableKind⟩
  have hDeclares := (hFormed.proper c
    (hReach.child (List.mem_of_getElem? hC))).admits
  rw [hVariableKind] at hDeclares
  rcases Option.isSome_iff_exists.mp hDeclares with
    ⟨name, hName⟩
  have hChild : (plan.tree stage).childVar? 1 = some name := by
    obtain ⟨k, hSize⟩ := Nat.exists_eq_succ_of_ne_zero
      (Nat.ne_zero_of_lt hFormed.root_lt)
    rw [Tree.childVar?, tree, hSize, Nat.succ_eq_add_one,
      children_treeWithin, List.getElem?_map, hC,
      Option.map_some, Option.bind_some, Tree.var?,
      payload_treeWithin]
    exact hName
  refine ⟨name, ?_⟩
  rw [Tree.binding?, tree, kind_treeWithin, ← tree]
  rcases hKind with hKind | hKind
  · rw [hKind]
    exact hChild
  · rw [hKind]
    exact hChild

end Plan

namespace Pass

open Plan

variable {plan : Plan}
variable {stage feeder : NodeId}

/- The rows that come into a stage are numbered. -/
theorem achieves_numberRows
    {α : Type}
    {next : NodeId → Edit α}
    {post : α → Plan → Prop}
    (hFormed : plan.WellFormed)
    (hFeeder : plan.child? stage 0 = some feeder)
    (hReach : plan.Reaches feeder)
    (hStage : (plan.kind feeder).isStage)
    (hNext : ∀ count after,
      plan.Surgery {stage} after →
        plan.Edited {stage} {feeder} after →
          after.Detached count → plan.size ≤ count →
            after.kind count = .count →
              (next count).Achieves after post) :
    (do
      let feeder ← Edit.remove stage 0
      let number ← Edit.fresh "pos"
      let declared ← Edit.add .variable (.var number) []
      let count ←
        Edit.addWith .count .none [feeder, declared]
      next count : Edit α).Achieves plan post := by
  have hFeederLt := hFormed.lt_of_reaches hReach
  refine (hFormed.surgery.achieves_remove hFeeder).bind ?_
  rintro _ plan₁ ⟨rfl, hSurgery₁, hCut⟩
  refine (Edit.achieves_fresh "pos").bind ?_
  intro number plan₂ hSame
  have hSurgery₂ := hSurgery₁.sameLinks hSame
  have hFeeder₂ : plan₂.Detached feeder :=
    hSame.edited.detached hCut.detached (by simp)
  refine (hSurgery₂.achieves_add []
    (Kind.proper_variable number)).bind ?_
  rintro declared plan₃ ⟨hSurgery₃, hDeclared⟩
  have hFeeder₃ : plan₃.Detached feeder :=
    hDeclared.edited.detached hFeeder₂ (by simp)
  have hNe : feeder ≠ declared :=
    hDeclared.ne_of_lt hFeeder₂.lt
  have hEdited₂ : plan.Edited {stage} {feeder} plan₂ :=
    (hCut.edited.trans hSame.edited).mono (by simp) (by simp)
  have hEdited₃ : plan.Edited {stage} {feeder} plan₃ :=
    hDeclared.edited_of hEdited₂ (by simp)
  have hCounts : Kind.count.Proper .none
      ([feeder, declared].map plan₃.kind) := by
    rw [List.map_cons, List.map_singleton, hDeclared.kind,
      hEdited₃.kind feeder hFeederLt]
    exact ⟨⟨_, rfl, hStage⟩,
      List.forall_mem_singleton.mpr rfl⟩
  refine (hSurgery₃.achieves_addWith
    (forall_mem_pair (live_of_reaches hReach)
      (hSurgery₂.live_of_new hDeclared.size_le))
    (forall_mem_pair hFeeder₃ hDeclared.detached)
    (by simp [hNe]) hCounts).bind ?_
  rintro count plan₄ ⟨hSurgery₄, hCount⟩
  refine hNext count plan₄ (hSurgery₄.mono (by simp)) ?_
    hCount.detached
    (Nat.le_trans hEdited₃.size hCount.size_le) hCount.kind
  exact hCount.edited_of hEdited₃ (forall_mem_pair
    (fun _ => rfl)
    (fun hOld =>
      (hDeclared.ne_of_lt (hEdited₂.lt hOld) rfl).elim))

/- A binding makes way for a join of numbered rows. -/
theorem achieves_leftJoinLet
    (hFormed : plan.WellFormed)
    (hReach : plan.Reaches stage)
    (hKind : plan.kind stage = .letBind) :
    (leftJoinLet stage).Achieves plan plan.Rewritten := by
  refine achieves_get_bind ?_
  split
  · exact hFormed.achieves_nothing
  dsimp only
  split
  · exact hFormed.achieves_nothing
  next candidate hCandidate =>
  rcases exists_binding hFormed hReach (.inl hKind) with
    ⟨target, hTarget⟩
  rw [hTarget]
  dsimp only
  rcases Option.bind_eq_some_iff.mp hCandidate with
    ⟨pipe, hPipe, hFound⟩
  rcases hReach with ⟨n, hAt⟩
  rcases exists_nested hFormed hAt (by rw [hKind]; rfl)
      (by simp [hKind]) (mem_children_of_child? hPipe)
        hFound with
    ⟨feeder, hFeeder, ⟨nested⟩⟩
  refine achieves_numberRows hFormed hFeeder
    ⟨_, nested.feeder_at⟩ nested.feeder_kind ?_
  intro count plan₄ hSurgery₄ hEdited₄ hCount hCountNew
    hCountKind
  refine achieves_joinPipeline hFormed nested hSurgery₄
    hEdited₄ hCount (.inr hCountNew)
    (by rw [hCountKind]; rfl) ?_
  intro inner join plan₅ hJoined
  refine (Edit.achieves_setProperty join
    Properties.leftJoin (.flag true)).bind ?_
  intro _ plan₆ hSame₆
  have hJoined₆ := hJoined.sameLinks hSame₆
  refine achieves_get_bind ?_
  split
  · refine (Edit.achieves_setProperty join
      Properties.regroup _).bind ?_
    intro _ plan₇ hSame₇
    refine ((hJoined₆.sameLinks
      hSame₇).ready.achieves_replace hFormed).bind ?_
    exact fun _ after hAfter =>
      achieves_return (.of_changed hAfter)
  · refine (Edit.achieves_fresh "r").bind ?_
    intro source plan₇ hSame₇
    refine (hJoined₆.sameLinks hSame₇).achieves_bind
      (.inl rfl) source ?_
    intro bind plan₈ hReady
    refine (Edit.achieves_setProperty bind
      Properties.check _).bind ?_
    intro _ plan₉ hSame₉
    refine (Edit.achieves_setProperty join
      Properties.regroup _).bind ?_
    intro _ plan₁₀ hSame₁₀
    refine (((hReady.sameLinks hSame₉).sameLinks
      hSame₁₀).achieves_replace hFormed).bind ?_
    exact fun _ after hAfter =>
      achieves_return (.of_changed hAfter)

/- A loop makes way for a join, and a loop over its result. -/
theorem achieves_innerJoinFor
    (hFormed : plan.WellFormed)
    (hReach : plan.Reaches stage)
    (hKind : plan.kind stage = .forBind) :
    (innerJoinFor stage).Achieves plan plan.Rewritten := by
  refine achieves_get_bind ?_
  dsimp only
  split
  · exact hFormed.achieves_nothing
  split
  · exact hFormed.achieves_nothing
  next candidate hCandidate =>
  rcases exists_binding hFormed hReach (.inr hKind) with
    ⟨target, hTarget⟩
  rw [hTarget]
  dsimp only
  split
  · exact hFormed.achieves_nothing
  rcases Option.bind_eq_some_iff.mp hCandidate with
    ⟨pipe, hPipe, hFound⟩
  rcases hReach with ⟨n, hAt⟩
  rcases exists_nested hFormed hAt (by rw [hKind]; rfl)
      (by simp [hKind]) (List.mem_of_getLast? hPipe)
        hFound with
    ⟨feeder, hFeeder, ⟨nested⟩⟩
  have hFeederLt := hFormed.linked.lt_of_mem
    (mem_children_of_child? hFeeder)
  refine (hFormed.surgery.achieves_remove hFeeder).bind ?_
  rintro _ plan₁ ⟨rfl, hSurgery₁, hCut⟩
  have hFeederStage : (plan₁.kind feeder).isStage := by
    rw [hCut.edited.kind feeder hFeederLt]
    exact nested.feeder_kind
  refine achieves_joinPipeline hFormed nested
    (hSurgery₁.mono (by simp)) hCut.edited hCut.detached
    (.inl rfl) hFeederStage ?_
  intro inner join plan₂ hJoined
  refine hJoined.achieves_bind (.inr rfl) target ?_
  intro bind plan₃ hReady
  refine (hReady.achieves_replace hFormed).bind ?_
  exact fun _ after hAfter =>
    achieves_return (.of_changed hAfter)

theorem keeps_unnest :
    unnest.Keeps := by
  intro plan stage hFormed hReach
  refine achieves_get_bind ?_
  split
  · exact achieves_extractPipe hFormed hReach
  · exact achieves_extractPipe hFormed hReach
  · next hKind =>
    refine achieves_orElse
      (achieves_extractPipe hFormed hReach) ?_
    intro middle hMiddle hSame
    exact achieves_leftJoinLet hMiddle
      (hSame.reaches_iff.mpr hReach)
      ((hSame.kind stage).trans hKind)
  · next hKind =>
    refine achieves_orElse
      (achieves_extractPipe hFormed hReach) ?_
    intro middle hMiddle hSame
    exact achieves_innerJoinFor hMiddle
      (hSame.reaches_iff.mpr hReach)
      ((hSame.kind stage).trans hKind)
  · exact hFormed.achieves_nothing

end Pass

end Flwor
