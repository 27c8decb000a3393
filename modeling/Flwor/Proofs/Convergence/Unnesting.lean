import Flwor.Proofs.Arena.Loose
import Flwor.Proofs.Convergence.Measures
import Flwor.Proofs.Convergence.Traversals
import Flwor.Proofs.Hoisting.Evaluation
import Flwor.Proofs.Joins.Unnesting

/-
  Each nested pipeline is extracted once at most, and becomes
  a join once at most.

  An extracted pipeline is bound by a `let`, from which it is
  not extracted again.  A pipeline that becomes a join is a
  pipeline no longer, and what it consists of is left: its
  stages, both keys and its result.

  Key definitions include:
    * `Tree.Unnested`

  Key theorems include:
    * `Tree.Buries.pipeWork_eq`
    * `Tree.Nested.pipeWork_parts`
    * `Pass.ensures_unnested`
    * `Pass.descends_unnest`
-/

------------------------------------------------------------
-- Extracted Pipelines
------------------------------------------------------------

namespace Flwor

namespace Tree

variable {x y t t' : Tree}

theorem pipeCost_of_ne
    {k : Kind}
    (hKind : k ≠ .letBind)
    (index : Nat) :
    k.pipeCost index = 2 :=
  if_neg (fun hBoth => hKind hBoth.1)

theorem pipeCost_of_lt
    {index : Nat}
    (hIndex : index < 2)
    (k : Kind) :
    k.pipeCost index = 2 :=
  if_neg (fun hBoth => hIndex.ne hBoth.2)

/- A pipeline counts for what it costs, with its parts. -/
theorem pipeWork_of_pipeExpr
    (hKind : t.kind = .pipeExpr)
    (cost : Nat) :
    pipeWork cost t = cost + pipeWork 0 t := by
  rcases t with ⟨i, k, p, ps, cs⟩
  cases hKind
  rw [pipeWork, pipeWork, if_pos rfl, if_pos rfl,
    Nat.zero_add]

theorem pipeWork_mono
    {cost cost' : Nat}
    (hLe : cost ≤ cost')
    (t : Tree) :
    pipeWork cost t ≤ pipeWork cost' t := by
  by_cases hKind : t.kind = .pipeExpr
  · rw [pipeWork_of_pipeExpr hKind,
      pipeWork_of_pipeExpr hKind cost']
    omega
  · rw [pipeWork_eq_of_ne hKind]

/-
  Without the pipeline that is buried in an expression its
  work is gone.
-/
theorem Buries.pipeWork_eq
    (hBuries : Buries x y t t')
    (hY : ∀ cost, pipeWork cost y = 0) :
    (t = x ∧ t' = y) ∨ ∀ cost,
      pipeWork cost t = pipeWork cost t' + pipeWork 2 x := by
  induction hBuries with
  | here => exact .inl ⟨rfl, rfl⟩
  | @inside i k p ps before c c' after hEager _ ih =>
      have hCost (index : Nat) : k.pipeCost index = 2 := by
        refine pipeCost_of_ne ?_ index
        rintro rfl
        cases hEager
      have hPart : pipeWork 2 c =
          pipeWork 2 c' + pipeWork 2 x := by
        rcases ih with ⟨rfl, rfl⟩ | hEq
        · rw [hY, Nat.zero_add]
        · exact hEq 2
      refine .inr (fun cost => ?_)
      simp only [pipeWork, pipeWorkAll_append, pipeWorkAll,
        hCost, hPart]
      omega

end Tree

end Flwor

------------------------------------------------------------
-- Joined Pipelines
------------------------------------------------------------

namespace Flwor

namespace Tree

variable {outer names : List String}
variable {run : String}
variable {tie : Tie outer}
variable {t t' : Tree}

/- The keys of a comparison are parts of it. -/
theorem pipeWork_keys
    {predicate : Tree}
    (hStated : tie.Stated predicate) :
    pipeWork 2 tie.outerKey + pipeWork 2 tie.innerKey ≤
      pipeWork 2 predicate := by
  rcases predicate with ⟨i, k, p, ps, cs⟩
  have hKind := hStated.kind
  have hKeys := hStated.keys
  cases hKind
  rcases hKeys with ⟨_, more, hMore⟩ | ⟨_, more, hMore⟩ <;>
    cases hMore <;>
    simp only [pipeWork, pipeWorkAll, Kind.pipeCost,
      reduceCtorEq, false_and, if_false] <;>
    omega

/- So are the keys and the other stages of correlated ones. -/
theorem Correlated.pipeWork_le
    (hCorrelated : Correlated outer run tie names t t') :
    pipeWork 2 tie.outerKey + pipeWork 2 tie.innerKey
        + pipeWork 2 t' ≤
      pipeWork 2 t := by
  induction hCorrelated with
  | here _ hStated =>
      have hKeys := pipeWork_keys hStated
      simp only [pipeWork, pipeWorkAll, Kind.pipeCost,
        reduceCtorEq, false_and, if_false]
      omega
  | after _ _ ih =>
      simp only [pipeWork, pipeWorkAll,
        pipeCost_of_lt Nat.two_pos]
      omega

/- A join counts for its inputs and its keys. -/
theorem pipeWork_join
    (j k : NodeId)
    (qs : Properties)
    (left right : Tree)
    (cost : Nat) :
    pipeWork cost (tie.join j k qs left right) =
      pipeWork 2 left + (pipeWork 2 tie.outerKey
        + pipeWork 2 tie.innerKey) + pipeWork 2 right := by
  simp only [Tie.join, pipeWork, pipeWorkAll, Kind.pipeCost,
    reduceCtorEq, false_and, if_false]
  omega

/- A `let` counts for its input and what it binds. -/
theorem pipeWork_letBinder
    (b d : NodeId)
    (ps : Properties)
    (name : String)
    (input value : Tree)
    (cost : Nat) :
    pipeWork cost (binder .letBind b d ps name input value) =
      pipeWork 2 input + pipeWork 1 value := by
  simp [binder, pipeWork, pipeWorkAll, Kind.pipeCost]

theorem pipeWork_forBinder
    (b d : NodeId)
    (ps : Properties)
    (name : String)
    (input value : Tree)
    (cost : Nat) :
    pipeWork cost (binder .forBind b d ps name input value) =
      pipeWork 2 input + pipeWork 2 value := by
  simp [binder, pipeWork, pipeWorkAll, Kind.pipeCost]

/-
  A stage counts for less once a pipeline is extracted from
  its expression, unless the stage is a `let` of just that.
-/
theorem Buries.pipeWork_hoisted
    {i b d j : NodeId}
    {k : Kind}
    {p : Payload}
    {ps : Properties}
    {name : String}
    {feeder x slot slot' : Tree}
    {mid : List Tree}
    (hBuries : Buries x (reference j name) slot slot')
    (hPipe : x.kind = .pipeExpr)
    (hKind : k ≠ .pipeExpr)
    (hElse : slot = x → k ≠ .letBind)
    (cost : Nat) :
    pipeWork cost (.node i k p ps
        (binder .letBind b d [] name feeder x
          :: (mid ++ [slot']))) <
      pipeWork cost (.node i k p ps
        (feeder :: (mid ++ [slot]))) := by
  have hReference (cost : Nat) :
      pipeWork cost (reference j name) = 0 := by
    simp [reference, pipeWork, pipeWorkAll]
  have hTwo := pipeWork_of_pipeExpr hPipe 2
  have hOne := pipeWork_of_pipeExpr hPipe 1
  have hSlot : pipeWork (k.pipeCost (0 + 1 + mid.length)) slot'
      + pipeWork 1 x <
        pipeWork (k.pipeCost (0 + 1 + mid.length)) slot := by
    rcases hBuries.pipeWork_eq hReference with
      ⟨rfl, rfl⟩ | hEq
    · rw [pipeCost_of_ne (hElse rfl), hReference]
      omega
    · rw [hEq]
      omega
  simp only [pipeWork, pipeWorkAll, pipeWorkAll_append,
    pipeWork_letBinder, pipeCost_of_lt Nat.two_pos,
    if_neg hKind]
  omega

namespace Nested

variable {feeder pipe last : Tree}
variable {candidate : Candidate}
variable (nested : Nested feeder.visible candidate pipe)
variable {number source : String}
variable {c v j k : NodeId}
variable {qs : Properties}

/- What is left of a pipeline, and the pipeline itself. -/
theorem pipeWork_parts
    (cost : Nat) :
    cost + (pipeWork 2 nested.tie.outerKey
        + pipeWork 2 nested.tie.innerKey
        + pipeWork 2 nested.stripped)
        + pipeWork 2 nested.result ≤
      pipeWork cost pipe := by
  have hTail := nested.correlated.pipeWork_le
  have hPipe := congrArg (pipeWork cost) nested.pipe_eq
  simp only [pipeWork, pipeWorkAll, Kind.pipeCost,
    reduceCtorEq, false_and, if_false, if_true] at hPipe
  omega

/- A join of the numbered rows counts for its parts. -/
theorem pipeWork_joined
    (cost : Nat) :
    pipeWork cost (nested.joined number c v j k qs) =
      pipeWork 2 feeder + (pipeWork 2 nested.tie.outerKey
        + pipeWork 2 nested.tie.innerKey)
        + pipeWork 2 nested.stripped := by
  have hCounter : pipeWork 2 (counter c v number feeder) =
      pipeWork 2 feeder := by
    simp [counter, pipeWork, pipeWorkAll, Kind.pipeCost]
  rw [joined, pipeWork_join, hCounter]

variable {nested}

/- The result may be bound again, but by a `let`. -/
theorem Collector.pipeWork_le
    (hCollector : nested.Collector source
      (nested.joined number c v j k qs) last)
    (cost : Nat) :
    pipeWork cost last ≤ pipeWork 2 feeder
      + (pipeWork 2 nested.tie.outerKey
        + pipeWork 2 nested.tie.innerKey
        + pipeWork 2 nested.stripped)
      + pipeWork 2 nested.result := by
  cases hCollector with
  | inner =>
      rw [pipeWork_joined]
      omega
  | checked =>
      have hResult := pipeWork_mono one_le_two
        nested.result
      rw [pipeWork_letBinder, pipeWork_joined]
      omega

end Nested

end Tree

end Flwor

------------------------------------------------------------
-- Joins in Shape
------------------------------------------------------------

namespace Flwor

namespace Tree

variable {outer names : List String}
variable {run : String}
variable {tie : Tie outer}
variable {left right t t' : Tree}

/- The parts of correlated stages are in shape. -/
theorem Correlated.shaped
    (hCorrelated : Correlated outer run tie names t t')
    (hShaped : t.Shaped) :
    t'.Shaped ∧ tie.outerKey.Shaped ∧
      tie.innerKey.Shaped := by
  induction hCorrelated with
  | here _ hStated =>
      have hPredicate := hShaped.child
        (List.mem_cons_of_mem _ List.mem_cons_self)
      exact ⟨hShaped.child List.mem_cons_self,
        hPredicate.child hStated.mem_children.1,
        hPredicate.child hStated.mem_children.2⟩
  | after hInput hStage ih =>
      have hBelow := ih (hShaped.child List.mem_cons_self)
      exact ⟨hStage.shaped hShaped hBelow.1 hInput.isStage,
        hBelow.2⟩

namespace Nested

variable {feeder pipe last : Tree}
variable {candidate : Candidate}
variable (nested : Nested feeder.visible candidate pipe)
variable {number source : String}
variable {c v j k : NodeId}
variable {qs : Properties}

/- The end of a pipeline in shape has parts in shape. -/
theorem shaped_finish
    (hPipe : pipe.Shaped) :
    nested.tail.Shaped ∧ nested.result.Shaped := by
  have hFinish := (nested.pipe_eq ▸ hPipe).child
    List.mem_cons_self
  exact ⟨hFinish.child List.mem_cons_self, hFinish.child
    (List.mem_cons_of_mem _ List.mem_cons_self)⟩

theorem shaped_join
    (hPipe : pipe.Shaped)
    (hLeft : left.Shaped)
    (hStage : left.kind.isStage) :
    (nested.tie.join j k qs left nested.stripped).Shaped := by
  rcases nested.correlated.shaped
      (nested.shaped_finish hPipe).1 with
    ⟨hStripped, hOuter, hInner⟩
  refine shaped_node ⟨none, ?_⟩ ?_
  · simp [brokenRule?, hStage, nested.correlated.isStage]
  · refine forall_mem_triple hLeft ?_ hStripped
    refine shaped_node ⟨none, ?_⟩
      (forall_mem_pair hOuter hInner)
    simp [brokenRule?, payload, Payload.comparison?]

theorem shaped_joined
    (hPipe : pipe.Shaped)
    (hFeeder : feeder.Shaped)
    (hStage : feeder.kind.isStage) :
    (nested.joined number c v j k qs).Shaped := by
  refine nested.shaped_join hPipe
    (shaped_node ⟨none, ?_⟩ ?_) rfl
  · simp [brokenRule?, hStage]
  · exact forall_mem_pair hFeeder
      (shaped_leaf ⟨none, rfl⟩)

variable {nested}

theorem Collector.shaped
    (hCollector : nested.Collector source
      (nested.joined number c v j k qs) last)
    (hPipe : pipe.Shaped)
    (hFeeder : feeder.Shaped)
    (hStage : feeder.kind.isStage) :
    last.Shaped ∧ last.kind.isStage := by
  have hJoined : (nested.joined number c v j k qs).Shaped :=
    nested.shaped_joined hPipe hFeeder hStage
  cases hCollector with
  | inner => exact ⟨hJoined, rfl⟩
  | checked =>
      exact ⟨shaped_binder (.inl rfl) hJoined rfl
        (nested.shaped_finish hPipe).2, rfl⟩

end Nested

end Tree

end Flwor

------------------------------------------------------------
-- Pipelines That Can Be Joined
------------------------------------------------------------

namespace Flwor

namespace Plan

/- A new stage binds something that is loose. -/
theorem Loose.achieves_binder
    {plan : Plan}
    {xs : List NodeId}
    {input value : NodeId}
    {k : Kind}
    {name : String}
    {next : NodeId → Edit Bool}
    {post : Bool → Plan → Prop}
    (hLoose : plan.Loose (input :: value :: xs))
    (hNext : ∀ bind after, after.Loose (bind :: xs) →
      plan.Alters ∅ after → (next bind).Achieves after post) :
    Achieves (do
        let declared ← Edit.add .variable (.var name) []
        let bind ← Edit.addWith k .none
          [input, declared, value]
        next bind) plan post := by
  refine (hLoose.achieves_add .variable (.var name) []).bind
    ?_
  rintro _ first ⟨rfl, hFirstLoose, hFirst⟩
  have hSwap : ([input, plan.size, value] ++ xs).Perm
      (plan.size :: input :: value :: xs) :=
    List.Perm.swap ..
  refine (hFirstLoose.achieves_addWith hSwap k .none).bind ?_
  rintro _ second ⟨rfl, hSecondLoose, hSecond⟩
  exact hNext _ second hSecondLoose
    ((hFirst.trans hSecond).narrow (by simp))

/- A join takes all that is left of a pipeline but one part. -/
theorem perm_inner
    (inner : Pass.InnerParts)
    (input : NodeId) :
    ([input, inner.keys, inner.tail] ++ [inner.result]).Perm
      [inner.tail, inner.result, inner.keys, input] :=
  (((List.Perm.swap ..).cons _).cons _).trans
    (List.reverse_perm [inner.tail, inner.result, inner.keys,
      input])

/- The rows of a loose stage are numbered. -/
theorem Loose.achieves_counted
    {plan : Plan}
    {xs : List NodeId}
    {input : NodeId}
    {next : NodeId → Edit Bool}
    {post : Bool → Plan → Prop}
    (hLoose : plan.Loose (input :: xs))
    (hNext : ∀ count after, after.Loose (count :: xs) →
      plan.Alters ∅ after → (next count).Achieves after post) :
    Achieves (do
        let number ← Edit.fresh "pos"
        let declared ← Edit.add .variable (.var number) []
        let count ← Edit.addWith .count .none [input, declared]
        next count) plan post := by
  refine (hLoose.achieves_fresh "pos").bind ?_
  rintro number first ⟨hFirstLoose, hFirst⟩
  refine (hFirstLoose.achieves_add .variable (.var number)
    []).bind ?_
  rintro _ second ⟨rfl, hSecondLoose, hSecond⟩
  have hSwap : ([input, first.size] ++ xs).Perm
      (first.size :: input :: xs) :=
    List.Perm.swap ..
  refine (hSecondLoose.achieves_addWith hSwap .count
    .none).bind ?_
  rintro _ third ⟨rfl, hThirdLoose, hThird⟩
  exact hNext _ third hThirdLoose
    (((hFirst.trans hSecond).trans hThird).narrow (by simp))

namespace Anchored

open Edit

variable {plan : Plan}
variable {stage : NodeId}
variable {p : Payload}
variable {ps : Properties}
variable {feeder s : Tree}
variable {rest : List Tree}
variable (hAnchored : plan.Anchored)

include hAnchored

/- A `let` of a replaceable pipeline can be replaced. -/
theorem achieves_leftJoinLet
    (hStage : .node stage .letBind p ps (feeder :: rest) ∈
      plan.rootTree.subtrees)
    (hBinding : ∃ name, Tree.binding? (.node stage .letBind p
      ps (feeder :: rest)) = some name) :
    (Pass.leftJoinLet stage).Achieves plan
      (fun done after => done = false → after = plan) := by
  have hSound := hAnchored.sound
  rcases hSound.holds_rootTree with ⟨hRoot, hHolds, hNodup⟩
  have hTree : plan.tree stage = _ :=
    hHolds.tree_eq hSound.linked hRoot hStage
  have hHere := hHolds.subtree hStage
  rcases hAnchored.exists_consumer
      (s := .node stage .letBind p ps (feeder :: rest)) rfl
      hStage with ⟨r, hR, _, _, hUp, _⟩
  rcases hBinding with ⟨target, hTarget⟩
  refine achieves_get_bind ?_
  dsimp only
  rw [hTree, hTarget]
  split
  · exact achieves_return (fun _ => rfl)
  split
  · exact achieves_return (fun _ => rfl)
  next candidate hCandidate =>
  rcases Option.bind_eq_some_iff.mp hCandidate with
    ⟨pipeId, hChild, hCandidate⟩
  rw [child?, hHere.self.links, List.getElem?_map,
    Option.map_eq_some_iff] at hChild
  rcases hChild with ⟨pipe, hPipe, rfl⟩
  have hInner : pipe ∈ rest := List.mem_of_getElem? hPipe
  rcases nonempty_nested hSound.linked hHolds hRoot hStage
    hInner hCandidate with ⟨nested⟩
  have hApart := Tree.apart_of_nodup
    (Tree.nodup_ids_of_subtree hNodup hStage) hInner
  have hOutside := Tree.around_apart hNodup hStage hR
    (List.mem_cons_of_mem feeder hInner)
  dsimp only
  refine (hSound.loose.achieves_remove hHere.self rfl).bind ?_
  rintro _ first ⟨rfl, hFirstLoose, hFirst, _⟩
  refine hFirstLoose.achieves_counted ?_
  intro count second hSecondLoose hSecond
  have hCounted : plan.Alters {stage} second :=
    (hFirst.trans hSecond).narrow (by simp)
  refine (achieves_takeApart nested hSecondLoose
    (hCounted.holds (hHere.child
      (List.mem_cons_of_mem _ hInner)) ?_) hApart.2.2.2).bind ?_
  · rintro x hX rfl
    exact hApart.2.1 hX
  rintro inner fifth ⟨hFifthLoose, hFifth, _⟩
  refine (hFifthLoose.achieves_addWith (perm_inner inner count)
    .join .none).bind ?_
  rintro _ sixth ⟨rfl, hSixthLoose, hSixth⟩
  have hUpSixth : sixth.parent? stage = some r.id := by
    refine ((hCounted.trans hFifth).trans hSixth).parent?_eq
      hSound.linked hUp ?_
    rintro ((hEq | hMem) | hMem)
    · exact hOutside.1 hEq
    · exact hOutside.2 hMem
    · exact hMem
  refine (hSixthLoose.achieves_setProperty fifth.size
    Properties.leftJoin (.flag true)).bind ?_
  rintro _ seventh ⟨hSeventhLoose, hSame⟩
  have hUpSeventh : seventh.parent? stage = some r.id := by
    rw [hSame.parent]
    exact hUpSixth
  refine achieves_get_bind ?_
  split
  · next source _ =>
    refine (hSeventhLoose.achieves_setProperty fifth.size
      Properties.regroup (.vars [target, source])).bind ?_
    rintro _ eighth ⟨hEighthLoose, hSame'⟩
    refine (hEighthLoose.achieves_replace (by
      rw [hSame'.parent]
      exact hUpSeventh)).bind ?_
    exact fun _ _ _ => achieves_return Bool.noConfusion
  · refine (hSeventhLoose.achieves_fresh "r").bind ?_
    rintro source eighth ⟨hEighthLoose, hEighth⟩
    refine hEighthLoose.achieves_binder ?_
    intro bind ninth hNinthLoose hNinth
    refine (hNinthLoose.achieves_setProperty bind
      Properties.check (.var candidate.run)).bind ?_
    rintro _ tenth ⟨hTenthLoose, hSame'⟩
    refine (hTenthLoose.achieves_setProperty fifth.size
      Properties.regroup (.vars [target, source])).bind ?_
    rintro _ eleventh ⟨hEleventhLoose, hSame''⟩
    refine (hEleventhLoose.achieves_replace (by
      rw [hSame''.parent, hSame'.parent]
      exact (hEighth.trans hNinth).parent?_eq
        hSeventhLoose.sound.linked hUpSeventh (by simp))).bind
      ?_
    exact fun _ _ _ => achieves_return Bool.noConfusion

/- A loop over a replaceable pipeline can be replaced. -/
theorem achieves_innerJoinFor
    (hStage : .node stage .forBind p ps (feeder :: rest) ∈
      plan.rootTree.subtrees)
    (hRest : rest ≠ [])
    (hBinding : ∃ name, Tree.binding? (.node stage .forBind p
      ps (feeder :: rest)) = some name) :
    (Pass.innerJoinFor stage).Achieves plan
      (fun done after => done = false → after = plan) := by
  have hSound := hAnchored.sound
  rcases hSound.holds_rootTree with ⟨hRoot, hHolds, hNodup⟩
  have hTree : plan.tree stage = _ :=
    hHolds.tree_eq hSound.linked hRoot hStage
  have hHere := hHolds.subtree hStage
  rcases hAnchored.exists_consumer
      (s := .node stage .forBind p ps (feeder :: rest)) rfl
      hStage with ⟨r, hR, _, _, hUp, _⟩
  rcases hBinding with ⟨target, hTarget⟩
  refine achieves_get_bind ?_
  dsimp only
  rw [hTree, hTarget]
  split
  · exact achieves_return (fun _ => rfl)
  split
  · exact achieves_return (fun _ => rfl)
  next candidate hCandidate =>
  rcases Option.bind_eq_some_iff.mp hCandidate with
    ⟨pipeId, hLast, hCandidate⟩
  rw [hHere.self.lastChild?_eq hRest,
    Option.map_eq_some_iff] at hLast
  rcases hLast with ⟨pipe, hPipe, rfl⟩
  have hInner := List.mem_of_getLast? hPipe
  rcases nonempty_nested hSound.linked hHolds hRoot hStage
    hInner hCandidate with ⟨nested⟩
  have hApart := Tree.apart_of_nodup
    (Tree.nodup_ids_of_subtree hNodup hStage) hInner
  have hOutside := Tree.around_apart hNodup hStage hR
    (List.mem_cons_of_mem feeder hInner)
  dsimp only
  split
  · exact achieves_return (fun _ => rfl)
  refine (hSound.loose.achieves_remove hHere.self rfl).bind ?_
  rintro _ first ⟨rfl, hFirstLoose, hFirst, _⟩
  refine (achieves_takeApart nested hFirstLoose
    (hFirst.holds (hHere.child
      (List.mem_cons_of_mem _ hInner)) ?_) hApart.2.2.2).bind
    ?_
  · rintro x hX rfl
    exact hApart.2.1 hX
  rintro inner second ⟨hSecondLoose, hSecond, _⟩
  refine (hSecondLoose.achieves_addWith
    (perm_inner inner feeder.id) .join .none).bind ?_
  rintro _ third ⟨rfl, hThirdLoose, hThird⟩
  refine hThirdLoose.achieves_binder ?_
  intro bind fourth hFourthLoose hFourth
  have hUpFourth : fourth.parent? stage = some r.id := by
    refine (((hFirst.trans hSecond).trans hThird).trans
      hFourth).parent?_eq hSound.linked hUp ?_
    rintro (((hEq | hMem) | hMem) | hMem)
    · exact hOutside.1 hEq
    · exact hOutside.2 hMem
    · exact hMem
    · exact hMem
  refine (hFourthLoose.achieves_replace hUpFourth).bind ?_
  exact fun _ _ _ => achieves_return Bool.noConfusion

end Anchored

end Plan

end Flwor

------------------------------------------------------------
-- Rewritten Stages
------------------------------------------------------------

namespace Flwor

namespace Tree

variable {plan : Plan}
variable {s u : Tree}

/-
  What a change of a plan puts in the place of a stage: the
  stage with a pipeline of its expression bound before it, a
  left join whose regrouping is pending, or an inner join.
-/
inductive Unnested
    (plan : Plan) : Tree → Tree → Prop where
  | extracted
      {i k p ps feeder mid slot slot' x b d j name}
      (hOpen : OpenSlot k ps)
      (hPipe : x.kind = .pipeExpr)
      (hElse : slot = x → k ≠ .letBind)
      (hX : x ∈ slot.subtrees)
      (hBuries : Buries x (reference j name) slot slot') :
      Unnested plan (.node i k p ps (feeder :: (mid ++ [slot])))
        (.node i k p ps
          (binder .letBind b d [] name feeder x
            :: (mid ++ [slot'])))
  | collected
      {i p ps feeder x pipe more}
      {candidate number source target}
      {nested : Nested feeder.visible candidate pipe}
      {c v j k last}
      (hOpen : ps.get? Properties.check = none)
      (hTarget : binding? (.node i .letBind p ps
        (feeder :: x :: pipe :: more)) = some target)
      (hPending : nested.Pending plan number source target c v
        j k last) :
      Unnested plan
        (.node i .letBind p ps (feeder :: x :: pipe :: more))
        last
  | looped
      {i p ps feeder mid pipe candidate target}
      {nested : Nested feeder.visible candidate pipe}
      {b v j k}
      (hOpen : ps.get? Properties.check = none)
      (hNew : plan.size ≤ j) :
      Unnested plan
        (.node i .forBind p ps (feeder :: (mid ++ [pipe])))
        (binder .forBind b v [] target
          (nested.tie.join j k [] feeder nested.stripped)
          nested.result)

namespace Unnested

variable (hUnnested : Unnested plan s u)
variable (hShaped : s.Shaped)

include hUnnested hShaped

/- A stage takes the place, or the same end. -/
theorem sameRole :
    s.SameRole u := by
  cases hUnnested with
  | extracted => exact .inr rfl
  | looped => exact .inl ⟨rfl, rfl⟩
  | collected _ _ hPending =>
      exact .inl ⟨rfl, (hPending.collector.shaped
        (hShaped.child (by simp)) (hShaped.child (by simp))
        (hShaped.isStage_first
          (.inr (.inr (.inl rfl))))).2⟩

theorem shaped :
    u.Shaped := by
  cases hUnnested with
  | extracted hOpen _ _ hX hBuries =>
      exact hBuries.shaped_hoisted hShaped hOpen.1 hX
  | @looped _ _ _ feeder mid pipe _ _ nested =>
      have hPipe : pipe.Shaped := hShaped.child (by simp)
      exact shaped_binder (.inr rfl)
        (nested.shaped_join hPipe
          (hShaped.child List.mem_cons_self)
          (hShaped.isStage_first (.inr (.inr (.inr rfl)))))
        rfl (nested.shaped_finish hPipe).2
  | collected _ _ hPending =>
      exact (hPending.collector.shaped
        (hShaped.child (by simp)) (hShaped.child (by simp))
        (hShaped.isStage_first
          (.inr (.inr (.inl rfl))))).1

omit hShaped in
/-
  A pipeline that is extracted is bound by a `let` from then
  on, and one that becomes a join is a pipeline no longer.
-/
theorem pipeWork_lt
    (cost : Nat) :
    u.pipeWork cost < s.pipeWork cost := by
  cases hUnnested with
  | extracted hOpen hPipe hElse _ hBuries =>
      refine hBuries.pipeWork_hoisted hPipe ?_ hElse cost
      rcases hOpen.1 with rfl | rfl | rfl | rfl <;> decide
  | @looped _ _ _ feeder mid pipe _ _ nested =>
      have hParts := nested.pipeWork_parts 2
      rw [pipeWork_forBinder, pipeWork_join]
      simp only [pipeWork, pipeWorkAll, pipeWorkAll_append,
        Kind.pipeCost, reduceCtorEq, false_and, if_false]
      omega
  | @collected i p ps feeder x pipe more _ _ _ _ nested _ _ _ _
      _ _ _ hPending =>
      have hParts := nested.pipeWork_parts 1
      have hCollected := hPending.collector.pipeWork_le cost
      have hBefore : pipeWork cost (.node i .letBind p ps
          (feeder :: x :: pipe :: more)) =
            feeder.pipeWork 2 + (x.pipeWork 2
              + (pipe.pipeWork 1
                + pipeWorkAll .letBind 3 more)) := by
        simp [pipeWork, pipeWorkAll, Kind.pipeCost]
      rw [hBefore]
      omega

end Unnested

end Tree

end Flwor

------------------------------------------------------------
-- The Pass
------------------------------------------------------------

namespace Flwor

namespace Pass

open Plan

variable {plan after : Plan}
variable {stage : NodeId}
variable {p : Payload}
variable {ps : Properties}
variable {feeder : Tree}
variable {rest : List Tree}

/- The work that the nested pipelines of a plan are. -/
abbrev planWork
    (plan : Plan) : Nat :=
  plan.rootTree.pipeWork 2

/- What a visit of a stage leaves. -/
abbrev UnnestedAt
    (plan : Plan)
    (stage : NodeId) : Bool → Plan → Prop :=
  plan.Swaps (fun s u => s.id = stage ∧ Tree.Unnested plan s u)

/- An extracted pipeline is bound by a `let` from then on. -/
theorem achieves_extracted
    (hStraight : plan.Straight)
    (hReach : plan.Reaches stage) :
    (extractPipe stage).Achieves plan
      (UnnestedAt plan stage) := by
  have hSound := hStraight.sound
  rcases hSound.holds_rootTree with ⟨_, hHolds, hNodup⟩
  refine achieves_get_bind ?_
  split
  · exact achieves_return .nothing
  next hUnchecked =>
  split
  case h_2 => exact achieves_return .nothing
  next slot feederId hSlot _ =>
  dsimp only
  split
  · exact achieves_return .nothing
  next pipe hFind =>
  rcases hSound.exists_slot hStraight.shaped hReach hSlot with
    ⟨k, p, ps, feeder, mid, e, hStage, rfl, hKind⟩
  have hPipe := List.mem_of_find?_eq_some hFind
  have hFound := List.find?_some hFind
  have hHere := hHolds _ hStage
  have hKindHere : plan.kind stage = k := hHere.kind
  rw [Bool.not_eq_true, hHere.isChecked_eq,
    Option.isSome_eq_false_iff, Option.isNone_iff_eq_none]
    at hUnchecked
  have hSlotMem : plan.tree slot ∈ plan.rootTree.subtrees :=
    Tree.mem_subtrees_trans (Tree.mem_subtrees_of_child
      (by simp) (Tree.mem_subtrees_self _)) hStage
  rcases Tree.exists_buries
      (Tree.nodup_ids_of_subtree hNodup hSlotMem) hPipe with
    ⟨x, hX, rfl, hPipeKind, hBuries⟩
  rcases Edit.exists_run_fresh plan "n" with
    ⟨name, middle, hFresh⟩
  have hMiddle : middle.rootTree = plan.rootTree := by
    cases hFresh
    exact tree_withCounter plan _ plan.root
  rcases Edit.ensures_fresh hSound "n" name middle hFresh with
    ⟨hAlters, _⟩
  rcases Edit.achieves_hoist hAlters.sound (hMiddle ▸ hStage)
    hX name with ⟨_, after, hRun, hAfter, b, d, j, hTree⟩
  rw [hMiddle] at hTree
  refine ⟨true, after, ?_, .of_mapAt hStage
    ⟨rfl, .extracted ⟨hKind.imp_left And.left, hUnchecked⟩
      hPipeKind ?_ hX (hBuries (Tree.reference j name))⟩
    hAfter hTree⟩
  · have hDone : (Edit.hoist name stage x.id >>= fun _ =>
        (pure true : Edit Bool)).run middle =
          (.ok true, after) :=
      Edit.run_bind_of_ok hRun
    refine (Edit.run_bind_of_ok hFresh).trans ?_
    simpa only [Edit.hoist, bind_assoc] using hDone
  · rintro hEq rfl
    -- A pipeline that a `let` binds is passed over.
    have hSame : x.id = slot := by rw [← hEq, id_tree]
    have hBinds : bindsSlot plan stage = true := by
      rw [bindsSlot, hKindHere]
    simp [hSame, hBinds] at hFound

/- A `let` of a pipeline becomes a join, which is none. -/
theorem ensures_collected
    (hSound : plan.Sound)
    (hStage : .node stage .letBind p ps (feeder :: rest) ∈
      plan.rootTree.subtrees) :
    (leftJoinLet stage).Ensures plan
      (UnnestedAt plan stage) := by
  refine (Edit.ensures_leftJoinLet hSound hStage).mono ?_
  rintro (_ | _) after ⟨hSame, hJoined⟩
  · cases hSame rfl
    exact .nothing
  rcases hJoined rfl with
    ⟨pipe, candidate, number, source, target, nested, c, v, j,
      k, last, hOpen, hTarget, hPipe, hPending, hAfter, hTree⟩
  rcases rest with _ | ⟨x, _ | ⟨_, more⟩⟩
  · cases hPipe
  · cases hPipe
  cases hPipe
  exact .of_mapAt hStage
    ⟨rfl, .collected hOpen hTarget hPending⟩ hAfter hTree

/- So does a loop over a pipeline. -/
theorem ensures_looped
    (hSound : plan.Sound)
    (hStage : .node stage .forBind p ps (feeder :: rest) ∈
      plan.rootTree.subtrees)
    (hRest : rest ≠ []) :
    (innerJoinFor stage).Ensures plan
      (UnnestedAt plan stage) := by
  refine (Edit.ensures_innerJoinFor hSound hStage hRest).mono ?_
  rintro (_ | _) after ⟨hSame, hJoined⟩
  · cases hSame rfl
    exact .nothing
  rcases hJoined rfl with
    ⟨pipe, candidate, target, nested, b, v, j, k, hOpen, _, _,
      hPipe, _, hNew, hAfter, hTree⟩
  rcases List.getLast?_eq_some_iff.mp hPipe with ⟨mid, rfl⟩
  exact .of_mapAt hStage ⟨rfl, .looped hOpen hNew⟩ hAfter
    hTree

/- A visit rewrites its stage, or leaves all as it is. -/
theorem ensures_unnested
    (hStraight : plan.Straight)
    (hReach : plan.Reaches stage) :
    (unnestStage stage).Ensures plan
      (UnnestedAt plan stage) := by
  have hSound := hStraight.sound
  have hExtract :=
    (achieves_extracted hStraight hReach).ensures
  refine Edit.ensures_get_bind ?_
  split
  · exact hExtract
  · exact hExtract
  · next hKind =>
    rcases hSound.exists_input hStraight.shaped hReach hKind
      rfl with ⟨p, ps, feeder, first, rest, hStage⟩
    exact Swaps.ensures_orElse hExtract
      (ensures_collected hStraight.sound hStage)
  · next hKind =>
    rcases hSound.exists_input hStraight.shaped hReach hKind
      rfl with ⟨p, ps, feeder, first, rest, hStage⟩
    exact Swaps.ensures_orElse hExtract
      (ensures_looped hStraight.sound hStage (by simp))
  · exact Edit.ensures_return .nothing

/- It does not fail where no stage is the root. -/
theorem achieves_unnested
    (hUpright : plan.Upright)
    (hReach : plan.Reaches stage) :
    (unnestStage stage).Achieves plan
      (UnnestedAt plan stage) := by
  have hStraight := hUpright.straight
  have hExtract := achieves_extracted hStraight hReach
  refine achieves_get_bind ?_
  split
  · exact hExtract
  · exact hExtract
  · next hKind =>
    rcases hUpright.sound.exists_input hUpright.shaped hReach
      hKind rfl with ⟨p, ps, feeder, first, rest, hStage⟩
    have hShaped := hUpright.shaped_subtree hStage
    exact Swaps.achieves_orElse hExtract
      (((hUpright.achieves_leftJoinLet hStage
        (hShaped.exists_binding (.inl rfl))).ensuring
          (ensures_collected hStraight.sound hStage)).mono
            (fun _ _ => And.right))
  · next hKind =>
    rcases hUpright.sound.exists_input hUpright.shaped hReach
      hKind rfl with ⟨p, ps, feeder, first, rest, hStage⟩
    have hShaped := hUpright.shaped_subtree hStage
    exact Swaps.achieves_orElse hExtract
      (((hUpright.achieves_innerJoinFor hStage (by simp)
        (hShaped.exists_binding (.inr rfl))).ensuring
          (ensures_looped hStraight.sound hStage (by simp))).mono
            (fun _ _ => And.right))
  · exact achieves_return .nothing

/- Each change of the pass leaves less work. -/
theorem descends_unnest :
    unnest.Descends Plan.Upright (Lowers planWork) := by
  intro plan stage hUpright hReach
  refine Edit.descends_of_achieves
    ((achieves_unnested hUpright hReach).mono ?_)
  intro done after hSwaps
  refine ⟨hSwaps.kept, fun hDone => ?_⟩
  rcases hSwaps.swapped hDone with
    ⟨s, u, hS, ⟨_, hUnnested⟩, hAfter, hTree⟩
  have hShaped := hUpright.shaped_subtree hS
  refine ⟨hUpright.of_mapAt hAfter hS
    (hUnnested.sameRole hShaped) (hUnnested.shaped hShaped)
    hTree, ?_⟩
  rw [Lowers, planWork, hTree]
  exact Tree.congruent_pipeWork.mapAt
    hUpright.sound.holds_rootTree.2.2 hS
    hUnnested.pipeWork_lt 2

end Pass

end Flwor
