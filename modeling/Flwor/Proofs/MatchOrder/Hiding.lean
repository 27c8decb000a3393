import Flwor.Proofs.Arena.Documents
import Flwor.Proofs.Arena.Loose
import Flwor.Proofs.Hoisting.Pipelines
import Flwor.Proofs.MatchOrder.Marking
import Flwor.Proofs.MatchOrder.Stages

/-
  Where the order of rows gets out of sight.

  Going up from a stage whose rows are blurred, the names
  that tell them apart are followed to the first grouping
  that has none of them as a key, or to a result that reads
  none of them.  After a grouping only the values that it
  collected are reordered, and what reads these ignores the
  order.  So the pipeline has the value that it had.

  Key definitions include:
    * `Plan.hidesWithin`
    * `Plan.Confines`

  Key theorems include:
    * `Plan.confines_of_unread`
    * `Plan.confines_of_hidden`
-/

------------------------------------------------------------
-- The Way Up
------------------------------------------------------------

namespace Flwor

namespace Plan

/-
  Whether the names that tell blurred rows apart get out of
  sight on the way up from a stage, at a grouping or at the
  end of the pipeline.  The number bounds the steps.
-/
def hidesWithin
    (plan : Plan) :
    Nat → Bool → List String → NodeId → Bool
  | 0, _, _, _ => false
  | steps + 1, even, names, stage =>
      match plan.consumer stage with
      | .ok (.finish finish) =>
          !(plan.tree finish).dependsOn names
      | .ok (.stage next) =>
          if plan.kind next = .groupBy then true
          else
            match (plan.tree next).blurredAfter? even names
            with
            | some (even', names') =>
                hidesWithin plan steps even' names' next
            | none => false
      | _ => false

/-
  A change of a subtree does not get out of some pipeline
  around it.
-/
def Confines
    (library : Library)
    (plan : Plan)
    (id : NodeId)
    (u : Tree) : Prop :=
  ∃ pipe ∈ plan.rootTree.subtrees, pipe.kind = .pipeExpr ∧
    id ∈ pipe.ids ∧ Tree.Replaces library False ∅ pipe
      (pipe.mapAt id (fun _ => u))

end Plan

end Flwor

------------------------------------------------------------
-- Replacements With Other Marks
------------------------------------------------------------

namespace Flwor

namespace Tree

variable {library : Library}
variable {id : NodeId}
variable {u t : Tree}

/- A tree with another mark somewhere. -/
theorem sameButMarks_mapAt
    (hMark : ∀ r ∈ t.subtrees, r.id = id → SameButMarks r u) :
    SameButMarks t (t.mapAt id (fun _ => u)) := by
  induction t using Tree.induction with
  | node i k p ps cs ih =>
      by_cases hId : i = id
      · subst hId
        rw [mapAt_self]
        exact hMark _ (mem_subtrees_self _) rfl
      · have hParts : (cs.map (mapAt id (fun _ => u))).map
            unmark = cs.map unmark := by
          rw [List.map_map]
          refine List.map_congr_left (fun c hC => ?_)
          exact ih c hC (fun r hR =>
            hMark r (mem_subtrees_of_child hC hR))
        rw [mapAt_of_ne hId, SameButMarks, unmark, unmark,
          unmarkAll_eq, unmarkAll_eq, hParts]

/- A pipeline that has the same value with another mark. -/
theorem replaces_of_value
    {pipe pipe' : Tree}
    (hKind : pipe.kind = .pipeExpr)
    (hSame : SameButMarks pipe pipe')
    (hValue : ∀ env,
      pipe'.value library env = pipe.value library env) :
    Replaces library False ∅ pipe pipe' := by
  refine .of_serves hKind (fun names hReads =>
    ⟨hReads.remark hSame, fun env env' hAgree => ?_⟩)
  rw [SameValue, hValue]
  exact hReads.sameValue hAgree

end Tree

end Flwor

------------------------------------------------------------
-- One Step Up
------------------------------------------------------------

namespace Flwor

namespace Tree

/- A node has more nodes below it than each of its children. -/
theorem length_ids_lt
    {r s : Tree}
    (hS : s ∈ r.children) :
    s.ids.length < r.ids.length := by
  rcases r with ⟨i, k, p, ps, cs⟩
  rw [ids, List.length_cons]
  exact Nat.lt_succ_of_le (length_ids_le hS)

/- The other children of a node are apart from one. -/
theorem ne_of_apart
    {i : NodeId}
    {k : Kind}
    {p : Payload}
    {ps : Properties}
    {s c : Tree}
    {rest : List Tree}
    (hNodup : (Tree.node i k p ps (s :: rest)).ids.Nodup)
    (hC : c ∈ rest) :
    c ≠ s := by
  rintro rfl
  exact (apart_of_nodup hNodup hC).2.2.1 c.id_mem_ids
    c.id_mem_ids

end Tree

namespace Plan

/-
  A plan in which a node may get another mark: functions
  that count as blind to the order of their argument are so.
-/
structure Remarks
    (library : Library)
    (blind : OrderBlind)
    (plan : Plan)
    (id : NodeId)
    (u : Tree) : Prop where
  sound : plan.Sound
  valid : plan.validate = .ok ()
  root : plan.rootTree.kind.isStage = false
  calls : plan.rootTree.CallsAlike library blind .reordered
  mark : ∀ r ∈ plan.rootTree.subtrees, r.id = id →
    r.SameButMarks u

namespace Remarks

variable {library : Library}
variable {blind : OrderBlind}
variable {plan : Plan}
variable {id : NodeId}
variable {u r s c : Tree}
variable {names : List String}
variable (hRemarks : Remarks library blind plan id u)

include hRemarks

theorem shaped
    (hS : s ∈ plan.rootTree.subtrees) :
    s.Shaped :=
  (shaped_of_validate hRemarks.valid).subtree hS

theorem nodup
    (hS : s ∈ plan.rootTree.subtrees) :
    s.ids.Nodup :=
  Tree.nodup_ids_of_subtree
    hRemarks.sound.holds_rootTree.2.2 hS

theorem same
    (hS : s ∈ plan.rootTree.subtrees) :
    s.SameButMarks (s.mapAt id (fun _ => u)) :=
  Tree.sameButMarks_mapAt (fun r hR =>
    hRemarks.mark r (Tree.mem_subtrees_trans hR hS))

theorem overlooks
    (hC : c ∈ plan.rootTree.subtrees)
    (hUnread : c.readsOrder blind names false = false) :
    c.Overlooks library blind .reordered names where
  shaped := hRemarks.shaped hC
  unread := hUnread
  checks _ _ _ _ _ := Likeness.keepsEmptiness_reordered
  calls t hT := hRemarks.calls t (Tree.mem_subtrees_trans hT hC)

/- A stage above rows in which some values are reordered. -/
theorem sameRows_parent
    (hR : r ∈ plan.rootTree.subtrees)
    (hStage : r.kind.isStage)
    (hS : s ∈ r.children)
    (hSStage : s.kind.isStage)
    (hId : id ∈ s.ids)
    (hUnread : ∀ c ∈ r.children, c ≠ s →
      c.readsOrder blind names false = false)
    {context : Env}
    (hRows : Tree.SameRows library False
      (Env.Varies .reordered names) s context
        (s.mapAt id (fun _ => u)) context) :
    Tree.SameRows library False
      (Env.Varies .reordered names) r context
        (r.mapAt id (fun _ => u)) context := by
  have hNodup := hRemarks.nodup hR
  have hShaped := hRemarks.shaped hR
  have hOverlooks (c : Tree) (hC : c ∈ r.children)
      (hNe : c ≠ s) :=
    hRemarks.overlooks (Tree.mem_subtrees_trans
      (Tree.mem_subtrees_of_child hC (Tree.mem_subtrees_self c))
      hR) (hUnread c hC hNe)
  rcases hRemarks.sound.cases_of_stage hRemarks.valid hR hStage
      hS hSStage with ⟨i, k, p, ps, rest, hKind, rfl⟩ |
      ⟨i, p, ps, keys, right, rfl⟩ |
      ⟨i, p, ps, left, keys, rfl⟩
  · have hRest (c : Tree) (hC : c ∈ rest) :=
      hOverlooks c (List.mem_cons_of_mem _ hC)
        (Tree.ne_of_apart hNodup hC)
    rw [Tree.mapAt_of_first hNodup hId]
    refine Tree.sameRows_input hKind hShaped
      (fun c hC => (hRest c hC).unread)
      (fun _ _ _ => Likeness.keepsEmptiness_reordered)
      (fun c hC => (hRest c hC).steady) ?_ (.refl context) hRows
    rintro c hC d hD rfl
    have hSpec := hShaped.orderSpec hC
    have hHere := hRest c hC
    rcases c with ⟨j, kind, q, qs, parts⟩
    cases hSpec
    exact (hHere.child (Tree.shields_eq_false (by simp))
      hD).steady
  · rcases hShaped.join with
      ⟨_, j, q, qs, leftKey, rightKey, _, hParts, _⟩
    cases hParts
    have hKeys := hOverlooks _ (by simp)
      (Tree.ne_of_apart hNodup List.mem_cons_self)
    have hRight := hOverlooks right (by simp)
      (Tree.ne_of_apart hNodup (by simp))
    rw [Tree.mapAt_of_first hNodup hId]
    exact Tree.sameRows_joined
      (fun d hD => (hKeys.child
        (Tree.shields_eq_false (by simp)) hD).steady)
      rfl hRows (hRight.steady.rows _ _ (.refl context))
  · rcases hShaped.join with
      ⟨_, j, q, qs, leftKey, rightKey, _, hParts, _⟩
    cases hParts
    have hVisible := (hRemarks.same (Tree.mem_subtrees_trans
      (Tree.mem_subtrees_of_child hS
        (Tree.mem_subtrees_self s)) hR)).congr
          Tree.visible_unmark
    have hKeys := hOverlooks
      (.node j .joinExpr q qs [leftKey, rightKey]) (by simp)
        (by rintro rfl; cases hSStage)
    have hLeft := hOverlooks left (by simp)
      (Tree.ne_of_apart hNodup (by simp)).symm
    rw [Tree.mapAt_of_third hNodup hId]
    exact Tree.sameRows_joined
      (fun d hD => (hKeys.child
        (Tree.shields_eq_false (by simp)) hD).steady)
      hVisible (hLeft.steady.rows _ _ (.refl context)) hRows

/-
  The end of a pipeline whose rows vary in names that its
  result cannot tell apart.
-/
theorem confines_of_finish
    {similar : Likeness}
    (hR : r ∈ plan.rootTree.subtrees)
    (hFinish : r.kind = .finish)
    (hS : s ∈ r.children)
    (hSStage : s.kind.isStage)
    (hId : id ∈ s.ids)
    (hSteady : ∀ c ∈ r.children.drop 1, c ≠ s →
      c.Steady library similar names)
    (hRows : ∀ context, Tree.SameRows library False
      (Env.Varies similar names) s context
        (s.mapAt id (fun _ => u)) context) :
    plan.Confines library id u := by
  rcases r with ⟨j, k, q, qs, parts⟩
  cases hFinish
  rcases hRemarks.sound.pipeline_of_finish hRemarks.valid hR
    with ⟨i, p, ps, tail, rest, rfl, hPipe⟩
  have hNodup := hRemarks.nodup hPipe
  have hBelow : id ∈ (Tree.node j .finish q qs
      (tail :: rest)).ids :=
    Tree.ids_subset (Tree.mem_subtrees_of_child hS
      (Tree.mem_subtrees_self s)) _ hId
  refine ⟨_, hPipe, rfl, Tree.ids_subset
    (Tree.mem_subtrees_of_child List.mem_cons_self
      (Tree.mem_subtrees_self _)) _ hBelow, ?_⟩
  rcases List.mem_cons.mp hS with rfl | hResult
  · have hValue (env : Env) :
        Tree.pipelineValue library
            [.node j .finish q qs (s :: rest)] env =
          Tree.pipelineValue library [.node j .finish q qs
            (s.mapAt id (fun _ => u) :: rest)] env :=
      Tree.pipelineValue_steady
        (fun c hC => hSteady c hC
          (Tree.ne_of_apart (hRemarks.nodup hR) hC))
        (hRows env)
    refine Tree.replaces_of_value rfl (hRemarks.same hPipe)
      (fun env => ?_)
    rw [Tree.mapAt_of_first hNodup hBelow,
      Tree.mapAt_of_first (hRemarks.nodup hR) hId, Tree.value,
      Tree.value]
    exact (hValue env).symm
  · exact Tree.replaces_of_not_reads (fun names =>
      (hRemarks.shaped hPipe).not_reads_of_stage hResult
        hSStage)

/- A tree of the plan has no more nodes than the arena. -/
theorem length_ids_le
    (hS : s ∈ plan.rootTree.subtrees) :
    s.ids.length ≤ plan.size := by
  have hHolds := hRemarks.sound.holds_rootTree.2.1.subtree hS
  have hSubset : s.ids ⊆ List.range plan.size :=
    fun x hX => List.mem_range.mpr (hHolds.lt_of_mem hX)
  have hLe := ((hRemarks.nodup hS).subperm hSubset).length_le
  rwa [List.length_range] at hLe

/- Above a stage there is a stage or the end of a pipeline. -/
theorem exists_above
    (hS : s ∈ plan.rootTree.subtrees)
    (hStage : s.kind.isStage) :
    ∃ r ∈ plan.rootTree.subtrees, s ∈ r.children ∧
      plan.parent? s.id = some r.id ∧
        plan.kind r.id = r.kind ∧
          (r.kind.isStage ∨ r.kind = .finish) := by
  have hHolds := hRemarks.sound.holds_rootTree
  have hNe : plan.rootTree.id ≠ s.id := by
    intro hEq
    have hRoot := hRemarks.root
    rw [Tree.eq_of_id_eq hHolds.2.2 (Tree.mem_subtrees_self _)
      hS hEq, hStage] at hRoot
    cases hRoot
  rcases hRemarks.sound.exists_consumer hS hNe with
    ⟨r, hAround, index, hIndex, hUp, _⟩
  have hR := Tree.around_subset hAround
  refine ⟨r, hR, List.mem_of_getElem? hIndex, hUp,
    (hHolds.2.1 r hR).kind, ?_⟩
  rcases hRemarks.sound.rules_of_subtree hRemarks.valid hR with
    ⟨hAdmits, hPlaces⟩
  have hChild :
      (r.children.map Tree.kind)[index]? = some s.kind := by
    rw [List.getElem?_map, hIndex]
    rfl
  rcases hPlaces.stagePlace hAdmits hChild hStage with
    hPlace | ⟨hFinish, _⟩
  · generalize r.kind = k at hPlace
    cases hPlace with
    | finish => exact .inr rfl
    | stage hStage => exact .inl hStage
    | join => exact .inl rfl
  · exact .inr hFinish

/- All that comes after the rows is the result. -/
theorem mem_ownExpressions
    (hR : r ∈ plan.rootTree.subtrees)
    (hFinish : r.kind = .finish)
    (hC : c ∈ r.children.drop 1) :
    c ∈ r.ownExpressions := by
  have hAdmits :=
    (hRemarks.sound.rules_of_subtree hRemarks.valid hR).1
  rcases r with ⟨j, k, q, qs, parts⟩
  cases hFinish
  rcases hAdmits with ⟨first, rest, hKinds, _, hLength⟩
  rcases List.map_eq_cons_iff.mp hKinds with
    ⟨tail, more, rfl, _, hMore⟩
  rw [← hMore, List.length_map] at hLength
  rcases List.mem_iff_getElem?.mp hC with ⟨index, hIndex⟩
  have hLt := (List.getElem?_eq_some_iff.mp hIndex).1
  have hZero : index = 0 := by
    simp only [Tree.children_node, List.drop_one,
      List.tail_cons] at hLt
    omega
  subst hZero
  rw [Tree.ownExpressions, Tree.kind_node]
  dsimp only
  rw [Option.mem_toList]
  exact hIndex

/- The other children of a node, as the arena has them. -/
theorem readsOrder_of_others
    (hR : r ∈ plan.rootTree.subtrees)
    (hS : s ∈ r.children)
    (hOthers : ((plan.children r.id).filter (fun c =>
      c != s.id)).any (fun c =>
        (plan.tree c).readsOrder blind names false) = false) :
    ∀ c ∈ r.children, c ≠ s →
      c.readsOrder blind names false = false := by
  intro c hC hNe
  have hHolds := hRemarks.sound.holds_rootTree
  have hBelow {d : Tree} (hD : d ∈ r.children) :
      d ∈ plan.rootTree.subtrees :=
    Tree.mem_subtrees_trans
      (Tree.mem_subtrees_of_child hD (Tree.mem_subtrees_self d))
      hR
  have hTree := hHolds.2.1.tree_eq hRemarks.sound.linked
    hHolds.1 (hBelow hC)
  rw [List.any_eq_false] at hOthers
  have hUnread := hOthers c.id (by
    rw [List.mem_filter, (hHolds.2.1 r hR).children]
    refine ⟨List.mem_map_of_mem hC, ?_⟩
    rw [bne_iff_ne]
    exact fun hId => hNe (Tree.eq_of_id_eq hHolds.2.2
      (hBelow hC) (hBelow hS) hId))
  rw [hTree] at hUnread
  simpa using hUnread

/-
  Going up from a stage: if only some names vary, and their
  values in their order only, and if nothing up to the end
  of the pipeline reads the order, it has the same value.
-/
theorem confines_of_unread
    (steps : Nat)
    (hS : s ∈ plan.rootTree.subtrees)
    (hStage : s.kind.isStage)
    (hId : id ∈ s.ids)
    (hSteps : plan.size < steps + s.ids.length)
    (hUnread : plan.readsOrderWithin blind names steps s.id =
      false)
    (hRows : ∀ context, Tree.SameRows library False
      (Env.Varies .reordered names) s context
        (s.mapAt id (fun _ => u)) context) :
    plan.Confines library id u := by
  induction steps generalizing s with
  | zero =>
      have hLe := hRemarks.length_ids_le hS
      omega
  | succ steps ih =>
      rcases hRemarks.exists_above hS hStage with
        ⟨r, hR, hChild, hParent, hKind, hAbove⟩
      have hNeither : (!r.kind.isStage && r.kind ≠ .finish) =
          false := by
        rcases hAbove with hStage | hFinish
        · simp [hStage]
        · simp [hFinish]
      simp only [readsOrderWithin, hParent, hKind, hNeither,
        Bool.false_eq_true, if_false] at hUnread
      split at hUnread
      next => cases hUnread
      next hOthers =>
        have hRest := hRemarks.readsOrder_of_others hR hChild
          (by simpa using hOthers)
        split at hUnread
        next hFinish =>
          refine hRemarks.confines_of_finish hR hFinish hChild
            hStage hId (fun c hC hNe => ?_) hRows
          have hMem := List.mem_of_mem_drop hC
          exact (hRemarks.overlooks (Tree.mem_subtrees_trans
            (Tree.mem_subtrees_of_child hMem
              (Tree.mem_subtrees_self c)) hR)
            (hRest c hMem hNe)).steady
        next hFinish =>
          have hRStage := hAbove.resolve_right hFinish
          have hLonger := Tree.length_ids_lt hChild
          exact ih hR hRStage (Tree.ids_subset
              (Tree.mem_subtrees_of_child hChild
                (Tree.mem_subtrees_self s)) _ hId)
            (by omega) hUnread (fun context =>
              hRemarks.sameRows_parent hR hRStage hChild hStage
                hId hRest (hRows context))

end Remarks

end Plan

end Flwor

------------------------------------------------------------
-- From a Join to a Grouping
------------------------------------------------------------

namespace Flwor

namespace Tree

/- Where no name is asked for, none is read. -/
theorem readsOrder_nil
    (blind : OrderBlind)
    (shielded : Bool)
    (t : Tree) :
    t.readsOrder blind [] shielded = false := by
  induction t using Tree.induction generalizing shielded with
  | node i k p ps cs ih =>
      rw [readsOrder_eq_false_iff]
      refine ⟨fun hReads => ?_, fun c hC => ih c hC _⟩
      cases hVar : p.var? <;>
        simp [readsOneOf, payload, hVar] at hReads

end Tree

namespace Plan

variable {library : Library}
variable {blind : OrderBlind}
variable {plan : Plan}
variable {id stage : NodeId}
variable {u s : Tree}
variable {even even' : Bool}
variable {names names' : List String}
variable {rest : List NodeId}

theorem readsOrderWithin_nil
    (steps : Nat)
    (node : NodeId) :
    plan.readsOrderWithin blind [] steps node = false := by
  induction steps generalizing node with
  | zero => rfl
  | succ steps ih =>
      rw [readsOrderWithin]
      split
      · rfl
      · simp [Tree.readsOrder_nil, ih]

/- The pass follows the same names from stage to stage. -/
theorem orderMattersAfter_of_blurred
    (hKind : plan.kind stage = (plan.tree stage).kind)
    (hAfter : (plan.tree stage).blurredAfter? even names =
      some (even', names')) :
    plan.orderMattersAfter blind names (stage :: rest) =
      plan.orderMattersAfter blind names' rest := by
  rw [orderMattersAfter, hKind]
  generalize plan.tree stage = t at hAfter
  cases hT : t.kind <;>
    simp only [Tree.blurredAfter?, hT, reduceCtorEq] at hAfter
  case letBind =>
    cases hAfter
    rfl
  case forBind =>
    cases hDepends : t.dependsOn names with
    | false =>
        rw [hDepends] at hAfter
        cases hAfter
        rw [Tree.derived_of_independent hDepends,
          List.append_nil]
    | true =>
        rw [hDepends] at hAfter
        cases even with
        | false => cases hAfter
        | true =>
            cases hAfter
            rfl
  case selection =>
    split at hAfter
    · cases hAfter
      rfl
    · cases hAfter
  case orderBy =>
    split at hAfter
    · cases hAfter
    · cases hAfter
      rfl

/- What the pass finds out at a grouping. -/
theorem unread_of_groupBy
    (hKind : plan.kind stage = .groupBy)
    (hMatters : plan.orderMattersAfter blind names
      (stage :: rest) = false) :
    (∀ name ∈ (plan.tree stage).groupKeys, name ∉ names) ∧
      plan.readsOrderWithin blind (GroupEntry.collected names
        (plan.tree stage).groupAggregates) plan.size stage =
          false := by
  rw [orderMattersAfter, hKind] at hMatters
  dsimp only at hMatters
  split at hMatters
  next => cases hMatters
  next hKeys =>
    refine ⟨fun name hName hMem => hKeys ?_, ?_⟩
    · exact List.any_eq_true.mpr ⟨name, hName, by simpa⟩
    · have hRead : (!(GroupEntry.collected names
          (plan.tree stage).groupAggregates).isEmpty
        && plan.readsOrder blind stage (GroupEntry.collected
          names (plan.tree stage).groupAggregates)) =
            false :=
        hMatters
      generalize GroupEntry.collected names _ =
        targets at hRead ⊢
      cases targets with
      | nil => exact readsOrderWithin_nil _ _
      | cons target more => exact hRead

/- A grouping in which no one observes the order. -/
theorem Remarks.confines_of_groupBy
    {i : NodeId}
    {p : Payload}
    {ps : Properties}
    {specs : List Tree}
    (hRemarks : Remarks library blind plan id u)
    (hR : .node i .groupBy p ps (s :: specs) ∈
      plan.rootTree.subtrees)
    (hId : id ∈ s.ids)
    (hMatters : plan.orderMattersAfter blind names
      (i :: rest) = false)
    (hRows : ∀ context, Meets False (Env.Blurs names)
      (s.rows library context)
      ((s.mapAt id (fun _ => u)).rows library context)) :
    plan.Confines library id u := by
  have hHolds := hRemarks.sound.holds_rootTree
  have hTree : plan.tree i = .node i .groupBy p ps (s :: specs) :=
    hHolds.2.1.tree_eq hRemarks.sound.linked hHolds.1 hR
  have hKind : plan.kind i = .groupBy := (hHolds.2.1 _ hR).kind
  have hIdAbove : id ∈
      (Tree.node i .groupBy p ps (s :: specs)).ids :=
    Tree.ids_subset (Tree.mem_subtrees_of_child
      List.mem_cons_self (Tree.mem_subtrees_self s)) _ hId
  rcases unread_of_groupBy hKind hMatters with
    ⟨hKeys, hUnread⟩
  rw [hTree] at hKeys hUnread
  refine hRemarks.confines_of_unread plan.size hR rfl hIdAbove
    ?_ hUnread (fun context => ?_)
  · exact Nat.lt_add_of_pos_right
      (List.length_pos_of_mem hIdAbove)
  · rw [Tree.mapAt_of_first (hRemarks.nodup hR) hId]
    exact Tree.sameRows_grouped hKeys (hRows context)

/-
  Going up from a stage whose rows are blurred: if the pass
  finds no one who observes their order, and the names that
  tell them apart get out of sight, then nobody does.
-/
theorem Remarks.confines_of_hidden
    (hRemarks : Remarks library blind plan id u)
    (steps : Nat)
    (hS : s ∈ plan.rootTree.subtrees)
    (hStage : s.kind.isStage)
    (hId : id ∈ s.ids)
    (hHides : plan.hidesWithin steps even names s.id)
    (hMatters : plan.orderMattersAfter blind names
      (plan.stagesAfterWithin steps s.id) = false)
    (hRows : ∀ context, Meets False (Env.Mixes even names)
      (s.rows library context)
      ((s.mapAt id (fun _ => u)).rows library context)) :
    plan.Confines library id u := by
  induction steps generalizing s even names with
  | zero => cases hHides
  | succ steps ih =>
      rcases hRemarks.exists_above hS hStage with
        ⟨r, hR, hChild, hParent, hKind, hAbove⟩
      have hHolds := hRemarks.sound.holds_rootTree
      have hTree : plan.tree r.id = r :=
        hHolds.2.1.tree_eq hRemarks.sound.linked hHolds.1 hR
      have hIdAbove : id ∈ r.ids :=
        Tree.ids_subset (Tree.mem_subtrees_of_child hChild
          (Tree.mem_subtrees_self s)) _ hId
      rw [hidesWithin] at hHides
      rw [stagesAfterWithin] at hMatters
      by_cases hFinish : r.kind = .finish
      · have hConsumer : plan.consumer s.id =
            .ok (.finish r.id) := by
          simp [consumer, hParent, hKind, hFinish]
        rw [hConsumer] at hHides
        simp only [hTree, Bool.not_eq_true'] at hHides
        refine hRemarks.confines_of_finish hR hFinish hChild
          hStage hId (fun c hC _ => ?_) (fun context =>
            (hRows context).mono (fun _ _ hMixes =>
              hMixes.blurs.alike))
        have hMem := List.mem_of_mem_drop hC
        exact Tree.steady_of_independent hHides
          ((hRemarks.shaped hR).child hMem)
          (hRemarks.mem_ownExpressions hR hFinish hC)
      have hRStage := hAbove.resolve_right hFinish
      by_cases hJoin : r.kind = .join
      · have hJoined : plan.consumer s.id = .ok (.join r.id) ∨
            ∃ e, plan.consumer s.id = .error e := by
          rw [consumer, hParent]
          dsimp only
          rw [hKind, hJoin]
          dsimp only
          split
          · exact .inl rfl
          · exact .inr ⟨_, rfl⟩
        rcases hJoined with hConsumer | ⟨e, hConsumer⟩
        · rw [hConsumer] at hHides
          cases hHides
        · rw [hConsumer] at hHides
          cases hHides
      have hHead : ∃ i k p ps rest, k.hasInput ∧
          r = .node i k p ps (s :: rest) := by
        rcases hRemarks.sound.cases_of_stage hRemarks.valid hR
          hRStage hChild hStage with hInput |
            ⟨_, _, _, _, _, rfl⟩ | ⟨_, _, _, _, _, rfl⟩
        · exact hInput
        · exact (hJoin rfl).elim
        · exact (hJoin rfl).elim
      rcases hHead with ⟨i, k, p, ps, rest, hInput, rfl⟩
      change plan.kind i = k at hKind
      change plan.tree i = _ at hTree
      have hConsumer : plan.consumer s.id = .ok (.stage i) :=
        hRemarks.sound.consumer_of_head hR rfl hRStage hJoin
      rw [hConsumer] at hHides hMatters
      dsimp only at hHides hMatters
      split at hHides
      next hGroup =>
        rw [hKind] at hGroup
        cases hGroup
        exact hRemarks.confines_of_groupBy hR hId hMatters
          (fun context => (hRows context).mono
            (fun _ _ hMixes => hMixes.blurs))
      next hGroup =>
        split at hHides
        next even' names' hAfter =>
          have hSameKind :
              plan.kind i = (plan.tree i).kind := by
            rw [hTree]
            exact hKind
          rw [orderMattersAfter_of_blurred hSameKind hAfter]
            at hMatters
          rw [hTree] at hAfter
          refine ih hR hRStage hIdAbove hHides hMatters
            (fun context => ?_)
          rw [Tree.mapAt_of_first (hRemarks.nodup hR) hId]
          exact Tree.mixes_after (hRemarks.shaped hR) hAfter
            (hRows context)
        next => cases hHides

end Plan

end Flwor
