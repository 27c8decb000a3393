import Flwor.Pass.LetLift
import Flwor.Proofs.Arena.Loose
import Flwor.Proofs.Convergence.Measures
import Flwor.Proofs.Convergence.Traversals
import Flwor.Proofs.Hoisting.Evaluation
import Flwor.Proofs.Joins.Dismantling
import Flwor.Proofs.Rewriting.Lifting

/-
  Each binding that is moved leaves a loop or a pipeline.

  Cutting a binding out does not change what is around the
  others, nor does putting it in: a binding is no loop.  It
  comes to stand in less than before, and so does what is
  bound, with all the bindings in it.

  Key definitions include:
    * `Tree.Inserts`, `Tree.Lifted`

  Key theorems include:
    * `Plan.Straight.achieves_moved`
    * `Tree.Inserts.load_eq`
    * `Plan.Straight.exists_outward`
    * `Pass.achieves_lifted`
    * `Pass.descends_letLift`
-/

------------------------------------------------------------
-- Moved Stages
------------------------------------------------------------

namespace Flwor

namespace Tree

variable {b o x : NodeId}
variable {k l : Kind}
variable {p q : Payload}
variable {ps qs : Properties}
variable {input feeder t : Tree}
variable {rest more : List Tree}

/- With a stage, all is gone that hangs below but its input. -/
theorem not_mem_ids_of_cut
    (hNodup : t.ids.Nodup)
    (hBind : .node b k q ps (input :: rest) ∈ t.subtrees)
    (hX : x ∈ b :: idsAll rest) :
    x ∉ (t.mapAt b (fun _ => input)).ids := by
  intro hMem
  have hBindNodup := nodup_ids_of_subtree hNodup hBind
  have hParts := (List.nodup_cons.mp hBindNodup).2
  rw [idsAll, List.nodup_append'] at hParts
  have hOld : x ∈ (node b k q ps (input :: rest)).ids :=
    (List.mem_cons.mp hX).elim
      (fun hEq => hEq ▸ List.mem_cons_self)
      (fun hX => List.mem_cons_of_mem _
        (List.mem_append_right _ hX))
  have hBelow := mem_ids_of_mapAt hNodup hBind hOld hMem
  rcases List.mem_cons.mp hX with rfl | hX
  · exact (List.nodup_cons.mp hBindNodup).1
      (List.mem_append_left _ hBelow)
  · exact hParts.2.2 hBelow hX

/- So a stage that it then feeds is apart from all its parts. -/
theorem apart_of_cut
    (hNodup : t.ids.Nodup)
    (hBind : .node b k q ps (input :: rest) ∈ t.subtrees)
    (hAfter : (t.mapAt b (fun _ => input)).ids.Nodup)
    (hTarget : .node o l p qs (feeder :: more) ∈
      (t.mapAt b (fun _ => input)).subtrees) :
    b ≠ o ∧ ∀ u ∈ feeder :: (more ++ rest),
      o ∉ u.ids ∧ b ∉ u.ids := by
  have hGone (x : NodeId) (hX : x ∈ b :: idsAll rest) :=
    not_mem_ids_of_cut hNodup hBind hX
  have hBindNodup := nodup_ids_of_subtree hNodup hBind
  have hTargetNodup := nodup_ids_of_subtree hAfter hTarget
  have hTargetMem : o ∈ (t.mapAt b (fun _ => input)).ids :=
    mem_ids_iff.mpr ⟨_, hTarget, rfl⟩
  refine ⟨?_, fun u hU => ?_⟩
  · rintro rfl
    exact hGone b List.mem_cons_self hTargetMem
  rw [← List.cons_append, List.mem_append] at hU
  rcases hU with hU | hU
  · have hBelow (x : NodeId) (hX : x ∈ u.ids) :
        x ∈ idsAll (feeder :: more) :=
      mem_idsAll_iff.mpr ⟨u, hU, hX⟩
    refine ⟨fun hO => (List.nodup_cons.mp hTargetNodup).1
      (hBelow o hO), fun hB => ?_⟩
    exact hGone b List.mem_cons_self
      (ids_subset hTarget _
        (List.mem_cons_of_mem _ (hBelow b hB)))
  · have hBelow (x : NodeId) (hX : x ∈ u.ids) :
        x ∈ idsAll rest :=
      mem_idsAll_iff.mpr ⟨u, hU, hX⟩
    refine ⟨fun hO => hGone o
      (List.mem_cons_of_mem _ (hBelow o hO)) hTargetMem,
      fun hB => (List.nodup_cons.mp hBindNodup).1 ?_⟩
    exact List.mem_append_right _ (hBelow b hB)

end Tree

namespace Plan

variable {plan : Plan}
variable {b o : NodeId}
variable {k l : Kind}
variable {p q : Payload}
variable {ps qs : Properties}
variable {input feeder : Tree}
variable {rest more : List Tree}

/- A tree of nodes that are as before is in its place. -/
theorem Holds.rerooted
    {new : NodeId}
    {t : Tree}
    (hHolds : plan.Holds t) :
    ({ plan with root := new } : Plan).Holds t :=
  fun s hS => ⟨(hHolds s hS).lt, (hHolds s hS).kind,
    (hHolds s hS).payload, (hHolds s hS).properties,
    (hHolds s hS).children⟩

/- What feeds the root takes its place. -/
theorem Sound.achieves_cut_root
    (hSound : plan.Sound)
    (hRoot : plan.rootTree = .node b k q ps (input :: rest)) :
    (Edit.bypass b).Achieves plan (fun _ after =>
      after.Sound ∧ after.Detached b ∧
        after.Holds (.node b k q ps rest) ∧
        after.rootTree = input) := by
  rcases hSound.holds_rootTree with ⟨hTop, hHolds, hNodup⟩
  rw [hRoot] at hTop hHolds hNodup
  change b = plan.root at hTop
  have hParts := (List.nodup_cons.mp hNodup).1
  have hNot (c : Tree) (hC : c ∈ input :: rest) : b ∉ c.ids :=
    fun hMem => hParts (Tree.mem_idsAll_iff.mpr ⟨c, hC, hMem⟩)
  refine (hSound.loose.achieves_remove hHolds.self rfl).bind ?_
  rintro _ middle ⟨hEq, hLoose, hAlters, hStands⟩
  subst hEq
  have hDetached := hLoose.detached _ List.mem_cons_self
  have hHere : b = middle.root := hTop.trans hAlters.root.symm
  have hKept (c : Tree) (hC : c ∈ input :: rest) :
      middle.Holds c := by
    refine hAlters.holds (hHolds.child hC) ?_
    rintro x hX rfl
    exact hNot c hC hX
  refine achieves_get_bind ?_
  rw [if_pos hHere]
  refine (Edit.achieves_requireDetached hDetached).bind ?_
  rintro _ next hSame
  rcases hSame.symm with rfl
  have hAfter :
      ({ middle with root := input.id } : Plan).Sound :=
    (Move.reroot hDetached :
      Move (fun _ _ _ => True) _ _).sound hAlters.sound
  refine achieves_set ⟨hAfter, ⟨hStands.lt, ?_, ?_⟩,
    (holds_node hStands (fun c hC => hKept c
      (List.mem_cons_of_mem _ hC))).rerooted, ?_⟩
  · rw [hHere]
    exact hAlters.sound.linked.root
  · rintro rfl
    exact hNot input List.mem_cons_self input.id_mem_ids
  · exact (hKept input List.mem_cons_self).rerooted.tree_eq
      hAfter.linked rfl (Tree.mem_subtrees_self input)

/- What feeds a node other than the root takes its place. -/
theorem Sound.achieves_cut_below
    (hSound : plan.Sound)
    (hBind : .node b k q ps (input :: rest) ∈
      plan.rootTree.subtrees)
    (hRootNe : plan.rootTree.id ≠ b) :
    (Edit.bypass b).Achieves plan (fun _ after =>
      after.Sound ∧ after.Detached b ∧
        after.Holds (.node b k q ps rest) ∧
        after.rootTree =
          plan.rootTree.mapAt b (fun _ => input)) := by
  rcases hSound.holds_rootTree with ⟨hTop, hHolds, hNodup⟩
  have hHere := hHolds.subtree hBind
  rcases hSound.exists_consumer
      (s := .node b k q ps (input :: rest)) hBind hRootNe with
    ⟨r, hR, index, hPlace, hUp, _⟩
  have hNe : r.id ≠ b := Tree.around_ne hR
  refine ((hSound.loose.achieves_bypass hHere.self hUp
    hNe).ensuring (Edit.ensures_bypass hSound hHere.self
      (hHere.child List.mem_cons_self)
      (fun hEq => hRootNe (hTop.trans hEq.symm))
      (Tree.nodup_ids_of_subtree hNodup hBind)
      (fun r hR => hHolds r (Tree.around_subset hR)) hR
      (List.mem_map.mpr
        ⟨_, List.mem_of_getElem? hPlace, rfl⟩))).mono ?_
  rintro _ after ⟨⟨hLoose, hAlters, hStands⟩, _, _, hTree⟩
  refine ⟨hAlters.sound, hLoose.detached b List.mem_cons_self,
    holds_node hStands (fun c hC => ?_), ?_⟩
  · have hChild := List.mem_cons_of_mem input hC
    refine hAlters.holds (hHere.child hChild) ?_
    rintro x hX (rfl | rfl)
    · exact (List.nodup_cons.mp
        (Tree.nodup_ids_of_subtree hNodup hBind)).1
          (Tree.mem_idsAll_iff.mpr ⟨c, hChild, hX⟩)
    · exact Tree.not_mem_of_around hNodup hBind hR
        (List.mem_cons_of_mem _
          (Tree.mem_idsAll_iff.mpr ⟨c, hChild, hX⟩))
  · have hRoot : (plan.rootTree.mapAt b
        (fun _ => input)).id = after.root := by
      rw [Tree.id_mapAt, if_neg hRootNe, hTop, hAlters.root]
    have hEq := hTree.tree_eq hAlters.sound.linked hRoot
      (Tree.mem_subtrees_self _)
    rw [hRoot] at hEq
    exact hEq

/- What feeds a stage takes its place. -/
theorem Straight.achieves_cut
    (hStraight : plan.Straight)
    (hStage : k.isStage)
    (hInput : input.kind.isStage)
    (hBind : .node b k q ps (input :: rest) ∈
      plan.rootTree.subtrees) :
    (Edit.bypass b).Achieves plan (fun _ after =>
      after.Straight ∧ after.Detached b ∧
        after.Holds (.node b k q ps rest) ∧
        after.rootTree =
          plan.rootTree.mapAt b (fun _ => input)) := by
  have hSound := hStraight.sound
  have hCut : (Edit.bypass b).Achieves plan (fun _ after =>
      after.Sound ∧ after.Detached b ∧
        after.Holds (.node b k q ps rest) ∧
        after.rootTree =
          plan.rootTree.mapAt b (fun _ => input)) := by
    by_cases hEq : plan.rootTree.id = b
    · have hRoot := Tree.eq_of_id_eq
        hSound.holds_rootTree.2.2 (Tree.mem_subtrees_self _)
        hBind hEq
      rw [hRoot, Tree.mapAt_self]
      exact hSound.achieves_cut_root hRoot
    · exact hSound.achieves_cut_below hBind hEq
  refine hCut.mono ?_
  rintro _ after ⟨hAfter, hDetached, hHolds, hTree⟩
  refine ⟨hStraight.of_mapAt hAfter hBind
    (.inl ⟨hStage, hInput⟩) ?_ hTree, hDetached, hHolds, hTree⟩
  exact (hStraight.shaped_subtree hBind).child
    List.mem_cons_self

/- A stage leaves its place and feeds another one. -/
theorem Straight.achieves_moved
    (hStraight : plan.Straight)
    (hStage : k.isStage)
    (hInput : input.kind.isStage)
    (hFeeder : feeder.kind.isStage)
    (hBind : .node b k q ps (input :: rest) ∈
      plan.rootTree.subtrees)
    (hTarget : .node o l p qs (feeder :: more) ∈
      (plan.rootTree.mapAt b (fun _ => input)).subtrees) :
    (do
      Edit.bypass b
      Edit.interpose o b
      return true : Edit Bool).Achieves plan
        (fun done after => done = true ∧ after.Straight ∧
          after.rootTree =
            (plan.rootTree.mapAt b (fun _ => input)).mapAt o
              (fun _ => .node o l p qs
                (.node b k q ps (feeder :: rest) :: more)))
    := by
  have hNodup := hStraight.sound.holds_rootTree.2.2
  have hBindNodup := Tree.nodup_ids_of_subtree hNodup hBind
  have hBindShaped := hStraight.shaped_subtree hBind
  refine (hStraight.achieves_cut hStage hInput hBind).bind ?_
  rintro _ middle ⟨hMiddle, hDetached, hLoose, hTree⟩
  have hGone : b ∉ middle.rootTree.ids := by
    rw [hTree]
    exact Tree.not_mem_ids_of_cut hNodup hBind
      List.mem_cons_self
  rcases hMiddle.sound.holds_rootTree with
    ⟨_, hHolds, hNodup'⟩
  rcases Tree.apart_of_cut hNodup hBind (hTree ▸ hNodup')
      hTarget with ⟨hNe, hApart⟩
  rw [← hTree] at hTarget ⊢
  have hTargetNodup :=
    Tree.nodup_ids_of_subtree hNodup' hTarget
  refine (Edit.achieves_interpose hMiddle.sound
    (hHolds.subtree hTarget) hLoose hDetached hNe
    hApart).bind ?_
  rintro _ after ⟨hAlters, hNew⟩
  have hAround : ∀ r ∈ middle.rootTree.around o,
      r.id ∉ ({o, b} : Set NodeId) := by
    rintro r hR (hEq | hEq)
    · exact Tree.around_ne hR hEq
    · exact hGone (Tree.mem_ids_iff.mpr
        ⟨r, Tree.around_subset hR, hEq⟩)
  have hEq := hAlters.rootTree_eq
    (s := .node o l p qs (feeder :: more)) hMiddle.sound
    hAround hNew rfl
  refine achieves_return ⟨rfl, hMiddle.of_mapAt hAlters.sound
    hTarget (.inr ?_) ?_ hEq, hEq⟩
  · rfl
  -- Both get other stages as what feeds them.
  have hTargetShaped := hMiddle.shaped_subtree hTarget
  have hMoved : (Tree.node b k q ps (feeder :: rest)).Shaped :=
    hBindShaped.withInput hBindNodup hInput hFeeder
      (hTargetShaped.child List.mem_cons_self)
  exact hTargetShaped.withInput hTargetNodup hFeeder
    (d := .node b k q ps (feeder :: rest)) hStage hMoved

end Plan

end Flwor

------------------------------------------------------------
-- Bindings That Hop
------------------------------------------------------------

namespace Flwor

namespace Tree

variable {name : String}
variable {reads : List String}
variable {b i : NodeId}
variable {k : Kind}
variable {p q : Payload}
variable {ps qs : Properties}
variable {feeder s t u : Tree}
variable {rest : List Tree}

/- Loops and bindings that a binding may hop. -/
def Passable
    (k : Kind)
    (ps : Properties) : Prop :=
  (k = .forBind ∨ k = .letBind) ∧
    ps.get? Properties.check = none

theorem passable_of_letsPass
    (hPasses : s.letsPass name reads) :
    Passable s.kind s.properties := by
  simp only [letsPass, Bool.and_eq_true, Bool.or_eq_true,
    decide_eq_true_eq, Option.isNone_iff_eq_none] at hPasses
  exact hPasses.1.1

/-
  A binding of a name that reads some variables is put behind
  a stage that one gets to through stages that let it pass.
-/
inductive Inserts
    (name : String)
    (reads : List String)
    (b : NodeId)
    (q : Payload)
    (ps : Properties)
    (feeder : Tree)
    (rest : List Tree) : Tree → Tree → Prop where
  | here
      {i : NodeId}
      {k : Kind}
      {p : Payload}
      {qs : Properties}
      {cs : List Tree}
      (hPasses : (Tree.node i k p qs
        (feeder :: cs)).letsPass name reads) :
      Inserts name reads b q ps feeder rest
        (.node i k p qs (feeder :: cs))
        (.node i k p qs
          (.node b .letBind q ps (feeder :: rest) :: cs))
  | hop
      {i : NodeId}
      {k : Kind}
      {p : Payload}
      {qs : Properties}
      {c d : Tree}
      {cs : List Tree}
      (hPasses : (Tree.node i k p qs
        (c :: cs)).letsPass name reads)
      (hInserts : Inserts name reads b q ps feeder rest c d) :
      Inserts name reads b q ps feeder rest
        (.node i k p qs (c :: cs)) (.node i k p qs (d :: cs))

/- A binding is no loop. -/
theorem loops_letBind :
    (Tree.node b .letBind q ps (feeder :: rest)).loops =
      feeder.loops := by
  simp [loops_node, loopsHead]

/- A binding counts as much as is around it. -/
theorem load_letBind
    (around : Nat) :
    load around (.node b .letBind q ps (feeder :: rest)) =
      around + feeder.loops + (load around feeder
        + loadAll (around + feeder.loops) rest) := by
  simp [Tree.load, loopsHead, loadHead]

namespace Inserts

variable (hInserts :
  Inserts name reads b q ps feeder rest t u)

include hInserts

theorem kind_eq :
    u.kind = t.kind := by
  cases hInserts <;> rfl

theorem loops_eq :
    u.loops = t.loops := by
  induction hInserts with
  | here _ =>
      rw [loops_node, loops_node, loopsHead, loopsHead,
        loops_letBind]
  | hop _ _ ih =>
      rw [loops_node, loops_node, loopsHead, loopsHead, ih]

/- Only what the binding is counts in addition. -/
theorem load_eq
    (around : Nat) :
    load around u = load around t
      + (around + feeder.loops
        + loadAll (around + feeder.loops) rest) := by
  induction hInserts with
  | here hPasses =>
      rcases (passable_of_letsPass hPasses).1 with
          rfl | rfl <;>
        simp only [Tree.load, loopsHead, loadHead,
          loops_letBind, reduceCtorEq, if_true, if_false] <;>
        omega
  | hop hPasses hBelow ih =>
      rcases (passable_of_letsPass hPasses).1 with
          rfl | rfl <;>
        simp only [Tree.load, loopsHead, loadHead,
          hBelow.loops_eq, ih, reduceCtorEq, if_true,
          if_false] <;>
        omega

end Inserts

/-
  The last of the stages that a binding can hop to: it can
  be put behind it, and the loops among them are left.
-/
theorem exists_inserts
    (hShaped : t.Shaped)
    (hNodup : t.ids.Nodup)
    (hLast : (t.stages.takeWhile
      (letsPass name reads)).getLast? = some s) :
    ∃ i k p qs feeder cs, s = .node i k p qs (feeder :: cs) ∧
      s ∈ t.subtrees ∧ feeder.kind.isStage ∧
      feeder.loops + (t.stages.takeWhile
        (letsPass name reads)).countP
          (fun s => s.kind = .forBind) = t.loops ∧
      ∀ b q ps rest, Inserts name reads b q ps feeder rest t
        (t.mapAt i (fun _ => .node i k p qs
          (.node b .letBind q ps (feeder :: rest)
            :: cs))) := by
  induction t using Tree.induction with
  | node i k p qs cs ih =>
      by_cases hHere :
        (Tree.node i k p qs cs).letsPass name reads
      case neg =>
        rw [stages, List.takeWhile_cons_of_neg hHere] at hLast
        cases hLast
      have hKind : Passable k qs := passable_of_letsPass hHere
      rcases hShaped.input (by
        rcases hKind.1 with rfl | rfl <;> rfl) with
        ⟨c, first, more, rfl, hStage⟩
      have hStart : k ≠ .start := by
        rcases hKind.1 with rfl | rfl <;> simp
      have hStages : (Tree.node i k p qs
          (c :: first :: more)).stages =
          [.node i k p qs (c :: first :: more)]
            ++ c.stages := by
        rw [stages, if_neg hStart, stagesHead]
        rfl
      have hLoops : (Tree.node i k p qs
          (c :: first :: more)).loops =
          [Tree.node i k p qs (c :: first :: more)].countP
            (fun s => s.kind = .forBind) + c.loops := by
        rw [loops, hStages, List.countP_append]
        rfl
      rw [hStages, List.singleton_append,
        List.takeWhile_cons_of_pos hHere] at hLast ⊢
      rw [hLoops]
      cases hRest :
        c.stages.takeWhile (letsPass name reads) with
      | nil =>
          rw [hRest] at hLast
          cases hLast
          refine ⟨i, k, p, qs, c, first :: more, rfl,
            mem_subtrees_self _, hStage, ?_, ?_⟩
          · exact Nat.add_comm ..
          · intro b q ps rest
            rw [mapAt_self]
            exact .here hHere
      | cons r rs =>
          rw [hRest, List.getLast?_cons_cons] at hLast
          have hBelow := nodup_ids_of_mem
            (List.nodup_cons.mp hNodup).2
            (List.mem_cons_self : c ∈ c :: first :: more)
          rcases ih c List.mem_cons_self
              (hShaped.child List.mem_cons_self) hBelow
              (hRest ▸ hLast) with
            ⟨j, l, p', qs', feeder, cs, rfl, hS, hFeeder,
              hCount, hInserts⟩
          refine ⟨j, l, p', qs', feeder, cs, rfl,
            mem_subtrees_of_child List.mem_cons_self hS,
            hFeeder, ?_, fun b q ps rest => ?_⟩
          · rw [hRest] at hCount
            rw [← List.singleton_append, List.countP_append,
              ← hCount]
            exact Nat.add_left_comm ..
          · have hMem : j ∈ c.ids :=
              mem_ids_iff.mpr ⟨_, hS, rfl⟩
            rw [mapAt_of_first hNodup hMem]
            exact .hop hHere (hInserts b q ps rest)

/- A binding leaves a loop by hopping it. -/
theorem sheds_hopped
    (hInserts : Inserts name reads b q ps feeder rest t u)
    (hLoops : feeder.loops < t.loops) :
    Sheds (fun _ => 1)
      (.node b .letBind q ps (t :: rest)) u := by
  refine ⟨?_, fun around => ?_⟩
  · rw [hInserts.loops_eq, loops_letBind]
  · have hRest := loadAll_mono (Nat.add_le_add_left
      hLoops.le around) rest
    rw [hInserts.load_eq, load_letBind]
    omega

end Tree

end Flwor

------------------------------------------------------------
-- Bindings That Leave a Pipeline
------------------------------------------------------------

namespace Flwor

namespace Tree

variable {b f i o : NodeId}
variable {l : Kind}
variable {p q : Payload}
variable {ps qs : Properties}
variable {bind feeder slot slot' start : Tree}
variable {cs mid rest : List Tree}

/- What a binding counts for, with what it binds. -/
def lift
    (rest : List Tree)
    (around : Nat) : Nat :=
  around + loadAll around rest

theorem lift_mono
    (rest : List Tree) :
    Monotone (lift rest) :=
  fun _ _ hLe => Nat.add_le_add hLe (loadAll_mono hLe rest)

/- Right after a start there is no loop before a binding. -/
theorem sheds_start
    (hShaped : start.Shaped)
    (hKind : start.kind = .start) :
    Sheds (lift rest)
      (.node b .letBind q ps (start :: rest)) start := by
  rcases start with ⟨i, k, p, qs, cs⟩
  cases hKind
  have hNil : cs = [] := by
    rcases hShaped.self with ⟨place, hRule⟩
    simpa [brokenRule?] using hRule
  subst hNil
  refine ⟨loops_letBind.symm, fun around => ?_⟩
  rw [load_letBind, lift]
  simp [Tree.load, loadHead, loops_node]

/- A binding leaves the end of its pipeline behind. -/
theorem sheds_finish
    (hNodup : slot.ids.Nodup)
    (hFinish : .node f .finish p qs cs ∈ slot.subtrees)
    (hBind : bind ∈ subtreesAll cs)
    (hSheds : Sheds (lift rest) bind start) :
    Sheds (fun around => lift rest (around + 1)) slot
      (slot.mapAt bind.id (fun _ => start)) := by
  have hBelow := nodup_ids_of_subtree hNodup hFinish
  rcases mem_subtreesAll_iff.mp hBind with ⟨c, hC, hMem⟩
  have hId : bind.id ∈ c.ids :=
    mem_ids_iff.mpr ⟨bind, hMem, rfl⟩
  rcases List.append_of_mem hC with ⟨before, after, rfl⟩
  have hChild := (congruent_sheds (lift_mono rest)).mapAt
    (nodup_ids_of_mem (List.nodup_cons.mp hBelow).2 hC) hMem
    hSheds
  have hEnd : Sheds (fun around => lift rest (around + 1))
      (.node f .finish p qs (before ++ c :: after))
      (mapAt bind.id (fun _ => start)
        (.node f .finish p qs (before ++ c :: after))) := by
    rw [mapAt_of_child hBelow hId]
    exact (hChild.node (lift_mono rest)).weaken
      (fun _ => le_rfl)
  have hMono : Monotone (fun around =>
      lift rest (around + 1)) :=
    fun _ _ hLe => lift_mono rest (Nat.add_le_add_right hLe 1)
  rw [mapAt_of_below hNodup hFinish (List.mem_cons_of_mem _
    (mem_idsAll_iff.mpr ⟨c, hC, hId⟩))]
  exact (congruent_sheds hMono).mapAt hNodup hFinish hEnd

/- A binding comes to stand before the loops outside. -/
theorem sheds_owner
    (hSheds : Sheds (fun around => lift rest (around + 1))
      slot slot') :
    Sheds (fun _ => 1)
      (.node o l p qs (feeder :: (mid ++ [slot])))
      (.node o l p qs (.node b .letBind q ps (feeder :: rest)
        :: (mid ++ [slot']))) := by
  refine ⟨?_, fun around => ?_⟩
  · rw [loops_node, loops_node, loopsHead, loopsHead,
      loops_letBind]
  · have hSlot (outer : Nat) := hSheds.load outer
    simp only [lift] at hSlot
    rw [Tree.load, Tree.load, loopsHead, loopsHead, loadHead,
      loadHead, loops_letBind, load_letBind]
    simp only [loadAll_append, loadAll]
    generalize (if l = .finish then around + 1 else around) =
      outer
    have hHere := hSlot (outer + feeder.loops)
    have hRest := loadAll_mono
      (Nat.le_add_right (outer + feeder.loops) 1) rest
    omega

end Tree

end Flwor

------------------------------------------------------------
-- Looking Up
------------------------------------------------------------

namespace Flwor

namespace Tree

variable {r s t x y c d : Tree}

/- A tree hangs below another one, under stages only. -/
inductive Staged
    (s : Tree) : Tree → Prop where
  | here : Staged s s
  | under
      {i k p ps cs c}
      (hStage : Kind.isStage k)
      (hChild : c ∈ cs)
      (hStaged : Staged s c) :
      Staged s (.node i k p ps cs)

theorem Staged.mem
    (hStaged : Staged s t) :
    s ∈ t.subtrees := by
  induction hStaged with
  | here => exact mem_subtrees_self s
  | under _ hChild _ ih => exact mem_subtrees_of_child hChild ih

/- What hangs below a stage, hangs below what is above it. -/
theorem Staged.child
    (hStaged : Staged r t)
    (hStage : r.kind.isStage)
    (hChild : s ∈ r.children) :
    Staged s t := by
  induction hStaged with
  | here =>
      rcases r with ⟨i, k, p, ps, cs⟩
      exact .under hStage hChild .here
  | under hAbove hC _ ih => exact .under hAbove hC ih

theorem Buries.mem
    (hBuries : Buries x y c d) :
    x ∈ c.subtrees := by
  induction hBuries with
  | here => exact mem_subtrees_self x
  | inside _ _ ih => exact mem_subtrees_of_child (by simp) ih

theorem Buries.trans
    {c' d' : Tree}
    (hInner : Buries x y c d)
    (hOuter : Buries c d c' d') :
    Buries x y c' d' := by
  induction hOuter with
  | here => exact hInner
  | inside hEager _ ih => exact .inside hEager ih

end Tree

namespace Plan

variable {plan : Plan}
variable {s : Tree}
variable {f o : NodeId}

/- The end above a stage. -/
theorem Sound.exists_enclosing
    (hSound : plan.Sound)
    (hS : s ∈ plan.rootTree.subtrees)
    {steps : Nat}
    (hFinish :
      plan.enclosingFinishWithin steps s.id = some f) :
    ∃ p ps cs, .node f .finish p ps cs ∈
        plan.rootTree.subtrees ∧
      ∃ c ∈ cs, Tree.Staged s c := by
  induction steps generalizing s with
  | zero => cases hFinish
  | succ steps ih =>
      rw [enclosingFinishWithin] at hFinish
      split at hFinish
      · cases hFinish
      next parent hParent =>
      rcases hSound.exists_parent hS hParent with
        ⟨⟨i, k, p, ps, cs⟩, hR, rfl, hChild⟩
      have hMem := Tree.around_subset hR
      have hKind : plan.kind i = k :=
        (hSound.holds_rootTree.2.1 _ hMem).kind
      change (if plan.kind i = .finish then some i
        else if (plan.kind i).isStage then
          plan.enclosingFinishWithin steps i
        else none) = some f at hFinish
      split at hFinish
      · next hEnd =>
        cases hFinish
        cases hKind.symm.trans hEnd
        exact ⟨p, ps, cs, hMem, s, hChild, .here⟩
      · split at hFinish
        · next hStage =>
          rcases ih hMem hFinish with
            ⟨p', ps', ds, hEnd, d, hD, hStaged⟩
          exact ⟨p', ps', ds, hEnd, d, hD,
            hStaged.child (hKind ▸ hStage) hChild⟩
        · cases hFinish

/- The expression of a stage that another one is part of. -/
theorem Sound.exists_rowExpr
    (hSound : plan.Sound)
    (hS : s ∈ plan.rootTree.subtrees)
    {steps : Nat}
    (hOwner :
      plan.rowExprOwnerWithin steps s.id = some o) :
    ∃ slot ∈ plan.rootTree.subtrees,
      plan.parent? slot.id = some o ∧
        plan.rowExpr? o = some slot.id ∧
        ∀ y, Tree.Buries s y slot
          (slot.mapAt s.id (fun _ => y)) := by
  rcases hSound.holds_rootTree with ⟨_, hHolds, hNodup⟩
  induction steps generalizing s with
  | zero => cases hOwner
  | succ steps ih =>
      rw [rowExprOwnerWithin] at hOwner
      split at hOwner
      · cases hOwner
      next parent hParent =>
      split at hOwner
      · next hSlot =>
        cases hOwner
        refine ⟨s, hS, hParent, hSlot, fun y => ?_⟩
        rw [Tree.mapAt_id]
        exact .here
      · split at hOwner
        case isFalse => cases hOwner
        next hEager =>
        rcases hSound.exists_parent hS hParent with
          ⟨⟨i, k, p, ps, cs⟩, hAround, rfl, hChild⟩
        have hR := Tree.around_subset hAround
        rcases ih hR hOwner with
          ⟨slot, hSlotMem, hUp, hSlot, hBuries⟩
        refine ⟨slot, hSlotMem, hUp, hSlot, fun y => ?_⟩
        have hId : s.id ∈ (Tree.node i k p ps cs).ids :=
          Tree.mem_ids_iff.mpr ⟨s, Tree.mem_subtrees_of_child
            hChild (Tree.mem_subtrees_self s), rfl⟩
        have hRNodup := Tree.nodup_ids_of_subtree hNodup hR
        rw [Tree.mapAt_of_below
          (Tree.nodup_ids_of_subtree hNodup hSlotMem)
          (hBuries y).mem hId]
        refine Tree.Buries.trans ?_ (hBuries _)
        rw [(hHolds _ hR).kind] at hEager
        obtain ⟨before, after, rfl⟩ := List.append_of_mem hChild
        rw [Tree.mapAt_of_child hRNodup s.id_mem_ids,
          Tree.mapAt_id]
        exact .inside hEager .here

/-
  A binding that can leave its pipeline is fed by its start.
  The pipeline stands in the expression of another stage,
  which a loop feeds.
-/
theorem Straight.exists_outward
    {b : NodeId}
    {q : Payload}
    {ps : Properties}
    {input : Tree}
    {rest : List Tree}
    {name : String}
    {reads : List String}
    (hStraight : plan.Straight)
    (hBind : .node b .letBind q ps (input :: rest) ∈
      plan.rootTree.subtrees)
    (hTarget :
      Pass.outwardTarget? plan b name reads = some o) :
    input.kind = .start ∧
      ∃ k p qs feeder mid slot pipe f p' qs' cs,
        .node o k p qs (feeder :: (mid ++ [slot])) ∈
            plan.rootTree.subtrees ∧
          Tree.OpenSlot k qs ∧ feeder.kind.isStage ∧
          (∀ y, Tree.Buries pipe y slot
            (slot.mapAt pipe.id (fun _ => y))) ∧
          .node f .finish p' qs' cs ∈ pipe.children ∧
          ∃ c ∈ cs, Tree.Staged
            (.node b .letBind q ps (input :: rest)) c := by
  have hSound := hStraight.sound
  rcases hSound.holds_rootTree with ⟨hTop, hHolds, hNodup⟩
  have hTree (s : Tree) (hS : s ∈ plan.rootTree.subtrees) :
      plan.tree s.id = s :=
    hHolds.tree_eq hSound.linked hTop hS
  rcases Pass.exists_of_outwardTarget? hTarget with
    ⟨source, pipe, start, hSource, hStart, hPipe, hOwner,
      hOpen, hFeeder, hLoop⟩
  have hBindTree : plan.tree b =
      .node b .letBind q ps (input :: rest) := hTree _ hBind
  rw [hBindTree] at hSource
  cases hSource
  rw [Option.bind_eq_some_iff] at hPipe
  rcases hPipe with ⟨f, hFinish, hPipe⟩
  rcases hSound.exists_enclosing
      (s := .node b .letBind q ps (input :: rest)) hBind
      hFinish with
    ⟨p', qs', cs, hEnd, hStaged⟩
  rcases hSound.exists_parent
      (s := .node f .finish p' qs' cs) hEnd hPipe with
    ⟨u, hU, rfl, hChild⟩
  rcases hSound.exists_rowExpr (Tree.around_subset hU) hOwner
    with ⟨slot, hSlot, hUp, hRowExpr, hBuries⟩
  rcases hSound.exists_parent hSlot hUp with
    ⟨owner, hOwnerAround, rfl, _⟩
  rcases hSound.exists_slot hStraight.shaped
      (hSound.reaches_of_subtree
        (Tree.around_subset hOwnerAround)) hRowExpr with
    ⟨k, p, qs, feeder, mid, e, hOwnerMem, hE, hKind⟩
  rw [hTree slot hSlot] at hE
  subst hE
  have hHere : plan.Stands (.node owner.id k p qs
      (feeder :: (mid ++ [slot]))) := hHolds _ hOwnerMem
  rw [hHere.isChecked_eq, Option.isSome_eq_false_iff,
    Option.isNone_iff_eq_none] at hOpen
  refine ⟨hStart, k, p, qs, feeder, mid, slot, u, f, p', qs',
    cs, hOwnerMem, ⟨hKind.imp_left And.left, hOpen⟩, ?_,
    hBuries, hChild, hStaged⟩
  rw [child?, (hHolds _ hOwnerMem).links] at hFeeder
  cases hFeeder
  rw [← (hHolds feeder (Tree.mem_subtrees_trans
    (Tree.mem_subtrees_of_child List.mem_cons_self
      (Tree.mem_subtrees_self feeder)) hOwnerMem)).kind,
    hLoop]
  rfl

end Plan

end Flwor

------------------------------------------------------------
-- Moved Bindings
------------------------------------------------------------

namespace Flwor

namespace Tree

variable {s u : Tree}

/-
  What a change puts in the place of a tree: a binding comes
  to stand behind another stage of its pipeline, or before
  the stage in whose expression its pipeline is.
-/
inductive Lifted : Tree → Tree → Prop where
  | hopped
      {b q ps input rest feeder u name value}
      (hOpen : ps.get? Properties.check = none)
      (hName : binding?
        (.node b .letBind q ps (input :: rest)) = some name)
      (hValue : rest[1]? = some value)
      (hInserts : Inserts name value.references b q ps feeder
        rest input u)
      (hLoops : feeder.loops < input.loops) :
      Lifted (.node b .letBind q ps (input :: rest)) u
  | outward
      {o l p qs feeder mid slot pipe b q ps input rest}
      {name value f p' qs' cs c}
      (hOpen : ps.get? Properties.check = none)
      (hName : binding?
        (.node b .letBind q ps (input :: rest)) = some name)
      (hValue : rest[1]? = some value)
      (hOwner : OpenSlot l qs)
      (hStart : input.kind = .start)
      (hBuries : ∀ y, Buries pipe y slot
        (slot.mapAt pipe.id (fun _ => y)))
      (hFinish : .node f .finish p' qs' cs ∈ pipe.children)
      (hPart : c ∈ cs)
      (hStaged :
        Staged (.node b .letBind q ps (input :: rest)) c) :
      Lifted (.node o l p qs (feeder :: (mid ++ [slot])))
        (.node o l p qs
          (.node b .letBind q ps (feeder :: rest)
            :: (mid ++ [slot.mapAt b (fun _ => input)])))

/- The end of the pipeline that a binding leaves. -/
theorem mem_slot
    {f : NodeId}
    {p : Payload}
    {ps : Properties}
    {cs : List Tree}
    {slot pipe bind c : Tree}
    (hBuries : ∀ y, Buries pipe y slot
      (slot.mapAt pipe.id (fun _ => y)))
    (hFinish : .node f .finish p ps cs ∈ pipe.children)
    (hPart : c ∈ cs)
    (hStaged : Staged bind c) :
    .node f .finish p ps cs ∈ slot.subtrees ∧
      bind ∈ subtreesAll cs :=
  ⟨mem_subtrees_trans (mem_subtrees_of_child hFinish
      (mem_subtrees_self _)) (hBuries pipe).mem,
    mem_subtreesAll_iff.mpr ⟨c, hPart, hStaged.mem⟩⟩

theorem mem_subtrees_of_all
    {i : NodeId}
    {k : Kind}
    {p : Payload}
    {ps : Properties}
    {cs : List Tree}
    {t : Tree}
    (hT : .node i k p ps cs ∈ t.subtrees)
    (hS : s ∈ subtreesAll cs) :
    s ∈ t.subtrees := by
  rcases mem_subtreesAll_iff.mp hS with ⟨c, hC, hS⟩
  exact mem_subtrees_trans (mem_subtrees_of_child hC hS) hT

/- Either way the binding stands in less than before. -/
theorem Lifted.sheds
    (hLifted : Lifted s u)
    (hShaped : s.Shaped)
    (hNodup : s.ids.Nodup) :
    Sheds (fun _ => 1) s u := by
  cases hLifted with
  | hopped _ _ _ hInserts hLoops =>
      exact sheds_hopped hInserts hLoops
  | outward _ _ _ _ hStart hBuries hEnd hPart hStaged =>
      rcases mem_slot hBuries hEnd hPart hStaged with
        ⟨hFinish, hBind⟩
      have hInput := mem_subtrees_trans
        (mem_subtrees_of_child List.mem_cons_self
          (mem_subtrees_self _))
        (mem_subtrees_of_all hFinish hBind)
      refine sheds_owner (sheds_finish ?_ hFinish hBind
        (sheds_start ?_ hStart))
      · exact nodup_ids_of_mem (List.nodup_cons.mp hNodup).2
          (by simp)
      · exact (hShaped.child (by simp)).subtree hInput

theorem Lifted.sameRole
    (hLifted : Lifted s u)
    (hShaped : s.Shaped) :
    s.SameRole u := by
  cases hLifted with
  | hopped _ _ _ hInserts _ =>
      refine .inl ⟨rfl, ?_⟩
      rw [hInserts.kind_eq]
      exact hShaped.isStage_first (.inr (.inr (.inl rfl)))
  | outward => exact .inr rfl

end Tree

end Flwor

------------------------------------------------------------
-- The Pass
------------------------------------------------------------

namespace Flwor

namespace Pass

open Plan

variable {plan : Plan}
variable {name : String}
variable {b : NodeId}
variable {q : Payload}
variable {ps : Properties}
variable {input value : Tree}
variable {rest : List Tree}

/- The measure of a plan that moved bindings lower. -/
abbrev bindingLoad
    (plan : Plan) : Nat :=
  plan.rootTree.load 0

/- What a visit of a binding leaves. -/
abbrev LiftedTo
    (plan : Plan) : Bool → Plan → Prop :=
  plan.Swaps (fun s u => Tree.Lifted s u ∧ u.Shaped)

/- What takes the place of a tree stands in the plan after. -/
theorem liftedTo_of_mapAt
    {after : Plan}
    {s u : Tree}
    (hS : s ∈ plan.rootTree.subtrees)
    (hLifted : Tree.Lifted s u)
    (hAfter : after.Straight)
    (hTree : after.rootTree =
      plan.rootTree.mapAt s.id (fun _ => u)) :
    LiftedTo plan true after := by
  refine .of_mapAt hS ⟨hLifted, hAfter.shaped_subtree ?_⟩
    hAfter.sound hTree
  rw [hTree]
  exact Tree.mem_subtrees_mapAt
    (Tree.mem_ids_iff.mpr ⟨s, hS, rfl⟩)

/- A binding that hops a loop comes to stand before it. -/
theorem achieves_liftedLocally
    (hStraight : plan.Straight)
    (hOpen : ps.get? Properties.check = none)
    (hName : Tree.binding?
      (.node b .letBind q ps (input :: rest)) = some name)
    (hValue : rest[1]? = some value)
    (hInput : input.kind.isStage)
    (hBind : .node b .letBind q ps (input :: rest) ∈
      plan.rootTree.subtrees) :
    (liftLocally b name value.references).Achieves plan
      (LiftedTo plan) := by
  rcases hStraight.sound.holds_rootTree with
    ⟨hTop, hHolds, hNodup⟩
  have hTree : plan.tree b =
      .node b .letBind q ps (input :: rest) :=
    hHolds.tree_eq hStraight.sound.linked hTop hBind
  have hInputMem : input ∈ (Tree.node b .letBind q ps
      (input :: rest)).subtrees :=
    Tree.mem_subtrees_of_child List.mem_cons_self
      (Tree.mem_subtrees_self input)
  refine achieves_get_bind ?_
  rw [hTree]
  split
  · exact achieves_return .nothing
  next target hExit =>
  rw [Tree.loopExit?] at hExit
  have hStages : (Tree.node b .letBind q ps
      (input :: rest)).stages.drop 1 = input.stages := by
    rw [Tree.stages, if_neg (by simp)]
    rfl
  rw [hStages] at hExit
  split at hExit
  case isFalse => cases hExit
  next hLoop =>
  rw [Option.map_eq_some_iff] at hExit
  rcases hExit with ⟨s, hLast, rfl⟩
  have hInputShaped : input.Shaped :=
    (hStraight.shaped_subtree hBind).child List.mem_cons_self
  have hBindNodup := Tree.nodup_ids_of_subtree hNodup hBind
  rcases Tree.exists_inserts hInputShaped
      (Tree.nodup_ids_of_subtree hBindNodup hInputMem)
      hLast with
    ⟨o, l, p, qs, feeder, more, rfl, hTarget, hFeeder, hCount,
      hInserts⟩
  have hLess : feeder.loops < input.loops := by
    rw [← hCount]
    exact Nat.lt_add_of_pos_right
      (List.countP_pos_iff.mpr (List.any_eq_true.mp hLoop))
  refine (hStraight.achieves_moved rfl hInput hFeeder hBind
    (Tree.mem_subtrees_trans hTarget
      (Tree.mem_subtrees_mapAt
        (Tree.mem_ids_iff.mpr ⟨_, hBind, rfl⟩)))).mono ?_
  rintro _ after ⟨rfl, hAfter, hEq⟩
  rw [Tree.mapAt_mapAt] at hEq
  · exact liftedTo_of_mapAt hBind
      (.hopped hOpen hName hValue (hInserts b q ps rest) hLess)
      hAfter hEq
  · rintro r hR rfl
    exact Tree.not_mem_of_around hNodup hBind hR
      (Tree.ids_subset hInputMem _
        (Tree.mem_ids_iff.mpr ⟨_, hTarget, rfl⟩))

/- A binding that leaves a pipeline stands in one less. -/
theorem achieves_liftedOutward
    (hStraight : plan.Straight)
    (hOpen : ps.get? Properties.check = none)
    (hName : Tree.binding?
      (.node b .letBind q ps (input :: rest)) = some name)
    (hValue : rest[1]? = some value)
    (hInput : input.kind.isStage)
    (hBind : .node b .letBind q ps (input :: rest) ∈
      plan.rootTree.subtrees) :
    (liftOutward b name value.references).Achieves plan
      (LiftedTo plan) := by
  have hNodup := hStraight.sound.holds_rootTree.2.2
  refine achieves_get_bind ?_
  split
  · exact achieves_return .nothing
  next o hTarget =>
  rcases hStraight.exists_outward hBind hTarget with
    ⟨hStart, k, p', qs', feeder, mid, slot, pipe, f, p, qs, cs,
      hOwner, hSlotOpen, hFeeder, hBuries, hFinish, c, hPart,
      hStaged⟩
  rcases Tree.mem_slot hBuries hFinish hPart hStaged with
    ⟨hEnd, hBelow⟩
  have hOwnerNodup := Tree.nodup_ids_of_subtree hNodup hOwner
  have hSlot : slot ∈ plan.rootTree.subtrees :=
    Tree.mem_subtrees_trans (Tree.mem_subtrees_of_child
      (by simp) (Tree.mem_subtrees_self slot)) hOwner
  -- The binding is cut out below the slot.
  have hBindSlot : b ∈ slot.ids := Tree.mem_ids_iff.mpr
    ⟨_, Tree.mem_subtrees_of_all hEnd hBelow, rfl⟩
  have hBindOwner : b ∈ (Tree.node o k p' qs'
      (feeder :: (mid ++ [slot]))).ids := by
    refine List.mem_cons_of_mem _
      (Tree.mem_idsAll_iff.mpr ⟨slot, ?_, hBindSlot⟩)
    simp
  have hRoot : plan.rootTree.mapAt b (fun _ => input) =
      plan.rootTree.mapAt o (fun _ =>
        .node o k p' qs' (feeder :: (mid
          ++ [slot.mapAt b (fun _ => input)]))) := by
    rw [Tree.mapAt_of_below hNodup hOwner hBindOwner,
      Tree.mapAt_of_last hOwnerNodup hBindSlot]
    rfl
  refine (hStraight.achieves_moved rfl hInput hFeeder hBind
    (hRoot ▸ Tree.mem_subtrees_mapAt
      (Tree.mem_ids_iff.mpr ⟨_, hOwner, rfl⟩))).mono ?_
  rintro _ after ⟨rfl, hAfter, hEq⟩
  rw [hRoot, Tree.mapAt_mapAt (fun r hR => Tree.around_ne hR),
    Tree.mapAt_self] at hEq
  exact liftedTo_of_mapAt hOwner
    (.outward hOpen hName hValue hSlotOpen hStart hBuries
      hFinish hPart hStaged) hAfter hEq

/- One binding is moved, or none. -/
theorem achieves_lifted
    (hStraight : plan.Straight)
    (hReach : plan.Reaches b) :
    (liftBinding b).Achieves plan
      (LiftedTo plan) := by
  have hSound := hStraight.sound
  refine achieves_get_bind ?_
  split
  · exact achieves_return .nothing
  next hGuard =>
  rw [Bool.or_eq_true, not_or, decide_eq_true_eq, not_not,
    Bool.not_eq_true] at hGuard
  rcases hGuard with ⟨hKind, hOpen⟩
  rcases hSound.exists_input hStraight.shaped hReach hKind rfl
    with ⟨q, ps, input, first, rest, hBind⟩
  have hHere := hSound.holds_rootTree.2.1 _ hBind
  rw [hHere.isChecked_eq, Option.isSome_eq_false_iff,
    Option.isNone_iff_eq_none] at hOpen
  have hInput : input.kind.isStage :=
    (hStraight.shaped_subtree hBind).isStage_first
      (.inr (.inr (.inl rfl)))
  dsimp only
  have hTree : plan.tree b =
      .node b .letBind q ps (input :: first :: rest) :=
    hSound.holds_rootTree.2.1.tree_eq hSound.linked
      hSound.holds_rootTree.1 hBind
  rw [hTree]
  split
  · next name value hName hValue =>
    exact Swaps.achieves_orElse
      (achieves_liftedLocally hStraight hOpen hName hValue
        hInput hBind)
      (achieves_liftedOutward hStraight hOpen hName hValue
        hInput hBind)
  · exact achieves_return .nothing

/- A binding is moved if that takes it out of anything. -/
theorem descends_letLift :
    letLift.Descends Plan.Upright (Lowers bindingLoad) := by
  intro plan bind hUpright hReach
  have hNodup := hUpright.sound.holds_rootTree.2.2
  refine Edit.descends_of_achieves
    ((achieves_lifted hUpright.straight hReach).mono ?_)
  intro done after hSwaps
  refine ⟨hSwaps.kept, fun hDone => ?_⟩
  rcases hSwaps.swapped hDone with
    ⟨s, u, hS, ⟨hLifted, hNew⟩, hAfter, hTree⟩
  have hShaped := hUpright.shaped_subtree hS
  refine ⟨hUpright.of_mapAt hAfter hS
    (hLifted.sameRole hShaped) hNew hTree, ?_⟩
  have hAll := (Tree.congruent_sheds monotone_const).mapAt
    hNodup hS (hLifted.sheds hShaped
      (Tree.nodup_ids_of_subtree hNodup hS))
  rw [Lowers, bindingLoad, hTree]
  exact hAll.load 0

end Pass

end Flwor
