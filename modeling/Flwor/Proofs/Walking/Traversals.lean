import Flwor.Proofs.Arena.Documents
import Flwor.Proofs.Walking.Logs

/-
  Single traversals of a walk.

  A visit may fail, or record a change, or it leaves the
  tree as it was and tells whether to go on below the node.
  Until the first visit of another kind the tree stays the
  same, so a traversal is a recursion on it.  Then it ends,
  and no bound on the depth cuts it off.

  Key definitions include:
    * `Plan.SameTree`
    * `Walker.Orderly`
    * `Plan.Covers`
    * `Walker.Traversed`

  Key theorems include:
    * `Plan.Covers.mem_iff`
    * `Walker.Orderly.traverses`
-/

------------------------------------------------------------
-- Visits That Change Nothing
------------------------------------------------------------

namespace Flwor

/- A visit with an answer and without a recorded change. -/
structure Visited.IsQuiet
    (v : Visited) : Prop where
  answered : ∃ next, v.answer = .ok next
  unchanged : v.changed = false

namespace Plan

/- The links below the root are the same. -/
structure SameTree
    (before after : Plan) : Prop where
  root : after.root = before.root
  children :
    ∀ x, before.Reaches x →
      after.children x = before.children x

variable {before middle after plan : Plan}
variable {x y : NodeId}
variable {visits : List Visited}

namespace SameTree

theorem refl
    (plan : Plan) :
    plan.SameTree plan :=
  ⟨rfl, fun _ _ => rfl⟩

variable (hSame : before.SameTree after)

include hSame

theorem reaches_iff :
    after.Reaches x ↔ before.Reaches x := by
  constructor
  · rintro ⟨n, hAt⟩
    induction hAt with
    | root =>
        rw [hSame.root]
        exact .root
    | child _ hMem ih =>
        rw [hSame.children _ ih] at hMem
        exact ih.child hMem
  · rintro ⟨n, hAt⟩
    induction hAt with
    | root =>
        rw [← hSame.root]
        exact .root
    | child hAt hMem ih =>
        rw [← hSame.children _ ⟨_, hAt⟩] at hMem
        exact ih.child hMem

theorem trans
    {last : Plan}
    (hNext : after.SameTree last) :
    before.SameTree last := by
  refine ⟨hNext.root.trans hSame.root, fun x hX => ?_⟩
  rw [hNext.children x (hSame.reaches_iff.mpr hX),
    hSame.children x hX]

end SameTree

/-
  The visits of a traversal below a node that changes
  nothing: to the node, and, unless it is skipped, to all
  that is below its children.
-/
inductive Covers
    (plan : Plan) : NodeId → List Visited → Prop where
  | skip
      (id : NodeId) :
      Covers plan id [⟨id, .ok .skip, false⟩]
  | descend
      (id : NodeId)
      (parts : NodeId → List Visited)
      (hParts : ∀ c ∈ plan.children id,
        Covers plan c (parts c)) :
      Covers plan id
        (⟨id, .ok (.descend id), false⟩ ::
          (plan.children id).flatMap parts)

namespace Covers

/- The same visits cover a tree with the same links. -/
theorem of_sameTree
    (hSame : before.SameTree after)
    (hReach : before.Reaches x)
    (hCovers : before.Covers x visits) :
    after.Covers x visits := by
  induction hCovers with
  | skip id => exact .skip id
  | descend id parts hParts ih =>
      have hChildren := hSame.children id hReach
      rw [← hChildren]
      refine .descend id parts (fun c hC => ?_)
      rw [hChildren] at hC
      exact ih c hC (hReach.child hC)

/- All visited nodes lie under the node. -/
theorem under
    (hLinked : plan.Linked)
    (hCovers : plan.Covers x visits) :
    ∀ v ∈ visits, plan.Under v.id x := by
  induction hCovers with
  | skip id => exact List.forall_mem_singleton.mpr .refl
  | descend id parts hParts ih =>
      refine List.forall_mem_cons.mpr ⟨.refl, fun v hV => ?_⟩
      rcases List.mem_flatMap.mp hV with ⟨c, hC, hV⟩
      exact (ih c hC v hV).tail (hLinked.up_iff.mpr hC)

/- The visits come in the order of the tree. -/
theorem sublist
    {t : Tree}
    (hCovers : plan.Covers x visits)
    (hUnfolds : plan.Unfolds x t) :
    (visits.map Visited.id).Sublist t.ids := by
  induction hCovers generalizing t with
  | skip id =>
      cases hUnfolds with
      | node _ below hBelow =>
          rw [Plan.ids_node_map]
          exact (List.nil_sublist _).cons_cons id
  | descend id parts hParts ih =>
      cases hUnfolds with
      | node _ below hBelow =>
          have hAll
              (cs : List NodeId)
              (hCs : ∀ c ∈ cs, c ∈ plan.children id) :
              ((cs.flatMap parts).map Visited.id).Sublist
                (cs.flatMap (fun c => (below c).ids)) := by
            induction cs with
            | nil => exact List.nil_sublist _
            | cons c rest ihCs =>
                rw [List.forall_mem_cons] at hCs
                rw [List.flatMap_cons, List.flatMap_cons,
                  List.map_append]
                exact (ih c hCs.1 (hBelow c hCs.1)).append
                  (ihCs hCs.2)
          rw [Plan.ids_node_map, List.map_cons]
          exact (hAll _ (fun _ hC => hC)).cons_cons id

/-
  The nodes that are visited are those that lie under the
  node and not below a skipped one.
-/
theorem mem_iff
    (hLinked : plan.Linked)
    (hFree : ∀ y, plan.Under y x → ¬ plan.Beneath y y)
    (hCovers : plan.Covers x visits) :
    y ∈ visits.map Visited.id ↔
      plan.Under y x ∧
        ∀ v ∈ visits, v.answer = .ok .skip →
          ¬ plan.Beneath y v.id := by
  induction hCovers with
  | skip id =>
      constructor
      · intro hMem
        cases List.mem_singleton.mp hMem
        refine ⟨.refl, fun v hV _ => ?_⟩
        cases List.mem_singleton.mp hV
        exact hFree id .refl
      · rintro ⟨hUnder, hNot⟩
        have hHere := hNot _ (List.mem_singleton_self _) rfl
        rcases Relation.reflTransGen_iff_eq_or_transGen.mp
            hUnder with hEq | hBeneath
        · exact List.mem_singleton.mpr hEq.symm
        · exact (hHere hBeneath).elim
  | descend id parts hParts ih =>
      have hUp (c : NodeId) (hC : c ∈ plan.children id) :
          plan.Up c id :=
        hLinked.up_iff.mpr hC
      have hFreeBelow (c : NodeId) (hC : c ∈ plan.children id)
          (y : NodeId) (hY : plan.Under y c) :
          ¬ plan.Beneath y y :=
        hFree y (hY.tail (hUp c hC))
      have hHere := hFree id .refl
      rw [List.map_cons, List.mem_cons, List.map_flatMap,
        List.mem_flatMap]
      constructor
      · rintro (rfl | ⟨c, hC, hMem⟩)
        · refine ⟨.refl, List.forall_mem_cons.mpr
            ⟨nofun, fun v hV _ => ?_⟩⟩
          -- a visited node above `y` would close a cycle
          rcases List.mem_flatMap.mp hV with ⟨c, hC, hV⟩
          intro hBeneath
          have hUnder := (hParts c hC).under hLinked v hV
          exact hHere (hBeneath.trans_left
            (hUnder.tail (hUp c hC)))
        · rcases (ih c hC (hFreeBelow c hC)).mp hMem with
            ⟨hUnder, hNot⟩
          refine ⟨hUnder.tail (hUp c hC),
            List.forall_mem_cons.mpr
              ⟨nofun, fun v hV hSkip => ?_⟩⟩
          rcases List.mem_flatMap.mp hV with ⟨d, hD, hV⟩
          by_cases hEq : c = d
          · subst hEq
            exact hNot v hV hSkip
          · -- no node lies under two children
            intro hBeneath
            have hOther : plan.Under y d :=
              hBeneath.to_reflTransGen.trans
                ((hParts d hD).under hLinked v hV)
            rcases under_total hUnder hOther with hCD | hDC
            · exact hHere (below_self_of_siblings (hUp c hC)
                (hUp d hD) hEq hCD)
            · exact hHere (below_self_of_siblings (hUp d hD)
                (hUp c hC) (Ne.symm hEq) hDC)
      · rintro ⟨hUnder, hNot⟩
        rcases Relation.ReflTransGen.cases_tail hUnder with
          hEq | ⟨c, hY, hUpC⟩
        · exact .inl hEq.symm
        · have hC := hLinked.up_iff.mp hUpC
          refine .inr ⟨c, hC,
            (ih c hC (hFreeBelow c hC)).mpr
              ⟨hY, fun v hV => hNot v ?_⟩⟩
          exact List.mem_cons_of_mem _
            (List.mem_flatMap.mpr ⟨c, hC, hV⟩)

end Covers

end Plan

end Flwor

------------------------------------------------------------
-- Orderly Walkers
------------------------------------------------------------

namespace Flwor

namespace Walker

variable {σ : Type}

/-
  Each visit of a reached node fails, or records a change,
  or leaves the tree as it was and tells to skip the node or
  to go on below it.  The plans and the walker's own states
  that a walk can lead to are admitted ones, and their links
  are in order.
-/
structure Orderly
    (walker : Walker σ)
    (admitted : Plan → σ → Prop) : Prop where
  linked : ∀ plan own, admitted plan own → plan.Linked
  prepare :
    ∀ before after, admitted before.plan before.own →
      walker.prepare.run before = (.ok (), after) →
        admitted after.plan after.own
  visit :
    ∀ before after id answer,
      admitted before.plan before.own →
      before.changed = false → before.plan.Reaches id →
      (walker.visit id).run before = (.ok answer, after) →
        admitted after.plan after.own ∧
          (after.changed = false →
            before.plan.SameTree after.plan ∧
              (answer = .skip ∨ answer = .descend id))

/- What is known while no change is recorded. -/
structure Still
    (admitted : Plan → σ → Prop)
    (start : Plan)
    (state : WalkState σ) : Prop where
  admitted : admitted state.plan state.own
  unchanged : state.changed = false
  same : start.SameTree state.plan

/-
  How a traversal ends: with a visit that fails, with one
  that records a change, or having covered the tree.
-/
inductive Traversed
    (admitted : Plan → σ → Prop)
    (start : Plan)
    (covered : List Visited → Prop) :
    Except Failure Unit → WalkState σ → List Visited →
      Prop where
  | failed
      {quiet : List Visited}
      (hQuiet : ∀ v ∈ quiet, v.IsQuiet)
      (e : Failure)
      (id : NodeId)
      (after : WalkState σ) :
      Traversed admitted start covered (.error e) after
        (quiet ++ [⟨id, .error e, after.changed⟩])
  | changed
      {quiet : List Visited}
      {after : WalkState σ}
      (hQuiet : ∀ v ∈ quiet, v.IsQuiet)
      (id : NodeId)
      (next : Visit)
      (hAdmitted : admitted after.plan after.own)
      (hChanged : after.changed = true) :
      Traversed admitted start covered (.ok ()) after
        (quiet ++ [⟨id, .ok next, true⟩])
  | still
      {visits : List Visited}
      {after : WalkState σ}
      (hQuiet : ∀ v ∈ visits, v.IsQuiet)
      (hStill : Still admitted start after)
      (hCovered : covered visits) :
      Traversed admitted start covered (.ok ()) after visits

variable {walker : Walker σ}
variable {admitted : Plan → σ → Prop}
variable {start : Plan}
variable {covered covered' : List Visited → Prop}

/- Visits before the others that changed nothing. -/
theorem Traversed.prepend
    {answer : Except Failure Unit}
    {after : WalkState σ}
    {first visits : List Visited}
    (hFirst : ∀ v ∈ first, v.IsQuiet)
    (hTraversed :
      Traversed admitted start covered answer after visits)
    (hCovered : ∀ visits, covered visits →
      covered' (first ++ visits)) :
    Traversed admitted start covered' answer after
      (first ++ visits) := by
  cases hTraversed with
  | failed hQuiet e id after =>
      rw [← List.append_assoc]
      exact .failed (List.forall_mem_append.mpr
        ⟨hFirst, hQuiet⟩) e id after
  | changed hQuiet id next hAdmitted hChanged =>
      rw [← List.append_assoc]
      exact .changed (List.forall_mem_append.mpr
        ⟨hFirst, hQuiet⟩) id next hAdmitted hChanged
  | still hQuiet hStill hHere =>
      exact .still (List.forall_mem_append.mpr
        ⟨hFirst, hQuiet⟩) hStill (hCovered _ hHere)

/-
  From some depth on, a traversal has the same outcome and
  the same visits for all depths, with and without a log.
-/
def Traverses
    (admitted : Plan → σ → Prop)
    (start : Plan)
    (covered : List Visited → Prop)
    (plain : Nat → Walk σ Unit)
    (noted : Nat → Walk (σ × List WalkEvent) Unit)
    (state : WalkState σ)
    (bound : Nat) : Prop :=
  ∃ answer after visits,
    Traversed admitted start covered answer after visits ∧
      ∀ depth, bound ≤ depth →
        Walk.Logs (plain depth) (noted depth) state answer
          after (visits.map .visited)

theorem Traverses.mono
    {plain : Nat → Walk σ Unit}
    {noted : Nat → Walk (σ × List WalkEvent) Unit}
    {state : WalkState σ}
    {bound bound' : Nat}
    (hTraverses : Traverses admitted start covered plain
      noted state bound)
    (hBound : bound ≤ bound') :
    Traverses admitted start covered plain noted state
      bound' := by
  rcases hTraverses with
    ⟨answer, after, visits, hTraversed, hLogs⟩
  exact ⟨answer, after, visits, hTraversed,
    fun depth hDepth =>
      hLogs depth (Nat.le_trans hBound hDepth)⟩

/- Visit a child, unless a change is recorded. -/
def visitChild
    (visit : NodeId → Walk σ Unit)
    (child : NodeId) : Walk σ Unit := do
  if !(← Walk.hasChanged) then visit child

/- Visit children until a change is recorded. -/
def visitChildren
    (visit : NodeId → Walk σ Unit)
    (cs : List NodeId) : Walk σ Unit :=
  cs.forM (visitChild visit)

theorem traverse_succ
    (walker : Walker σ)
    (depth : Nat)
    (id : NodeId) :
    walker.traverse (depth + 1) id = (do
      let next ← walker.visit id
      if ← Walk.hasChanged then return ()
      match next with
      | .skip => return ()
      | .descend node => do
          let plan ← Walk.plan
          visitChildren (walker.traverse depth)
            (plan.children node)) :=
  rfl

section Children

variable {plain : NodeId → Walk σ Unit}
variable {noted : NodeId → Walk (σ × List WalkEvent) Unit}
variable {state middle after : WalkState σ}
variable {answer : Except Failure Unit}
variable {events events' : List WalkEvent}
variable {c : NodeId}
variable {cs : List NodeId}

theorem logs_visitChild
    (hUnchanged : state.changed = false)
    (hLogs : Walk.Logs (plain c) (noted c) state answer after
      events) :
    Walk.Logs (visitChild plain c) (visitChild noted c) state
      answer after events := by
  refine Walk.logs_hasChanged_bind ?_
  rw [hUnchanged]
  exact hLogs

theorem logs_visitChildren_cons
    (hFirst : Walk.Logs (visitChild plain c)
      (visitChild noted c) state (.ok ()) middle events)
    (hRest : Walk.Logs (visitChildren plain cs)
      (visitChildren noted cs) middle answer after
        events') :
    Walk.Logs (visitChildren plain (c :: cs))
      (visitChildren noted (c :: cs)) state answer after
        (events ++ events') :=
  hFirst.bind hRest

theorem logs_visitChildren_error
    {e : Failure}
    (hFirst : Walk.Logs (visitChild plain c)
      (visitChild noted c) state (.error e) after events) :
    Walk.Logs (visitChildren plain (c :: cs))
      (visitChildren noted (c :: cs)) state (.error e) after
        events :=
  hFirst.bind_error

/- After a change no child is visited. -/
theorem logs_visitChildren_changed
    (hChanged : state.changed = true)
    (plain : NodeId → Walk σ Unit)
    (noted : NodeId → Walk (σ × List WalkEvent) Unit)
    (cs : List NodeId) :
    Walk.Logs (visitChildren plain cs)
      (visitChildren noted cs) state (.ok ()) state [] := by
  induction cs with
  | nil => exact Walk.logs_return ()
  | cons c rest ih =>
      have hHead : Walk.Logs (visitChild plain c)
          (visitChild noted c) state (.ok ()) state [] := by
        refine Walk.logs_hasChanged_bind ?_
        rw [hChanged]
        exact Walk.logs_return ()
      exact logs_visitChildren_cons hHead ih

end Children

/- The children are visited one after the other. -/
theorem traverses_visitChildren
    {plain : Nat → NodeId → Walk σ Unit}
    {noted : Nat → NodeId → Walk (σ × List WalkEvent) Unit}
    {bound : Nat}
    {cs : List NodeId}
    (hNodup : cs.Nodup)
    (hEach : ∀ c ∈ cs, ∀ state,
      Still admitted start state →
        Traverses admitted start (start.Covers c)
          (fun depth => plain depth c)
          (fun depth => noted depth c) state bound)
    {state : WalkState σ}
    (hStill : Still admitted start state) :
    Traverses admitted start
      (fun visits => ∃ parts, visits = cs.flatMap parts ∧
        ∀ c ∈ cs, start.Covers c (parts c))
      (fun depth => visitChildren (plain depth) cs)
      (fun depth => visitChildren (noted depth) cs)
      state bound := by
  induction cs generalizing state with
  | nil =>
      refine ⟨.ok (), state, [], .still
        (List.forall_mem_nil _) hStill ?_, fun _ _ =>
          Walk.logs_return ()⟩
      exact ⟨fun _ => [], rfl, List.forall_mem_nil _⟩
  | cons c rest ih =>
      rw [List.forall_mem_cons] at hEach
      rw [List.nodup_cons] at hNodup
      rcases hEach.1 state hStill with
        ⟨answer, middle, visits, hTraversed, hLogs⟩
      have hHead (depth : Nat) (hDepth : bound ≤ depth) :=
        logs_visitChild hStill.unchanged (hLogs depth hDepth)
      cases hTraversed with
      | failed hQuiet e id =>
          refine ⟨_, _, _, .failed hQuiet e id middle,
            fun depth hDepth => ?_⟩
          exact logs_visitChildren_error
            (hHead depth hDepth)
      | changed hQuiet id next hAdmitted hChanged =>
          refine ⟨_, _, _,
            .changed hQuiet id next hAdmitted hChanged,
            fun depth hDepth => ?_⟩
          have hRest := logs_visitChildren_changed hChanged
            (plain depth) (noted depth) rest
          have hBoth := logs_visitChildren_cons
            (hHead depth hDepth) hRest
          rw [List.append_nil] at hBoth
          exact hBoth
      | still hQuiet hMiddle hCovers =>
          rcases ih hNodup.2 hEach.2 hMiddle with
            ⟨answer, after, others, hOthers, hRest⟩
          refine ⟨answer, after, visits ++ others,
            hOthers.prepend hQuiet ?_,
            fun depth hDepth => ?_⟩
          · rintro _ ⟨parts, rfl, hParts⟩
            refine ⟨Function.update parts c visits, ?_, ?_⟩
            · rw [List.flatMap_cons, Function.update_self]
              congr 1
              refine List.flatMap_congr (fun d hD => ?_)
              rw [Function.update_of_ne]
              rintro rfl
              exact hNodup.1 hD
            · refine List.forall_mem_cons.mpr
                ⟨?_, fun d hD => ?_⟩
              · rw [Function.update_self]
                exact hCovers
              · rw [Function.update_of_ne]
                · exact hParts d hD
                · rintro rfl
                  exact hNodup.1 hD
          · rw [List.map_append]
            exact logs_visitChildren_cons
              (hHead depth hDepth) (hRest depth hDepth)

namespace Orderly

variable (hOrderly : walker.Orderly admitted)

include hOrderly

/- A traversal is a recursion on the tree below the node. -/
theorem traverses
    (hLinked : start.Linked)
    {x : NodeId}
    {t : Tree}
    (hUnfolds : start.Unfolds x t)
    (hReach : start.Reaches x)
    {state : WalkState σ}
    (hStill : Still admitted start state) :
    Traverses admitted start (start.Covers x)
      (fun depth => walker.traverse depth x)
      (fun depth => walker.logged.traverse depth x)
      state t.ids.length := by
  induction hUnfolds generalizing state with
  | node id below hBelow ih =>
      have hDeeper (depth : Nat)
          (hDepth : (Tree.node id (start.kind id)
            (start.payload id) (start.properties id)
            ((start.children id).map below)).ids.length ≤
              depth) :
          ∃ less, depth = less + 1 ∧
            (Tree.idsAll ((start.children id).map
              below)).length ≤ less := by
        rw [Tree.ids, List.length_cons] at hDepth
        exact ⟨depth - 1, by omega, by omega⟩
      rcases hRun : (walker.visit id).run state with
        ⟨answer, after⟩
      have hVisit := logs_visit hRun
      rcases answer with e | next
      · refine ⟨.error e, after, _, .failed
          (List.forall_mem_nil _) e id after,
          fun depth hDepth => ?_⟩
        rcases hDeeper depth hDepth with ⟨less, rfl, _⟩
        exact hVisit.bind_error
      rcases hOrderly.visit state after id next
          hStill.admitted hStill.unchanged
          (hStill.same.reaches_iff.mpr hReach) hRun with
        ⟨hAdmitted, hQuiet⟩
      cases hChanged : after.changed with
      | true =>
          rw [hChanged] at hVisit
          refine ⟨.ok (), after, _, .changed
            (List.forall_mem_nil _) id next hAdmitted
            hChanged, fun depth hDepth => ?_⟩
          rcases hDeeper depth hDepth with ⟨less, rfl, _⟩
          refine hVisit.bind (Walk.logs_hasChanged_bind ?_)
          rw [hChanged]
          exact Walk.logs_return ()
      | false =>
          rw [hChanged] at hVisit
          rcases hQuiet hChanged with ⟨hSame, rfl | rfl⟩
          · refine ⟨.ok (), after, [⟨id, .ok .skip, false⟩],
              .still (List.forall_mem_singleton.mpr
                ⟨⟨_, rfl⟩, rfl⟩)
              ⟨hAdmitted, hChanged,
                hStill.same.trans hSame⟩ (.skip id),
              fun depth hDepth => ?_⟩
            rcases hDeeper depth hDepth with ⟨less, rfl, _⟩
            refine hVisit.bind (Walk.logs_hasChanged_bind ?_)
            rw [hChanged]
            exact Walk.logs_return ()
          · have hAfter := hStill.same.trans hSame
            have hEach (c : NodeId)
                (hC : c ∈ start.children id)
                (state : WalkState σ)
                (hStill : Still admitted start state) :
                Traverses admitted start (start.Covers c)
                  (fun depth => walker.traverse depth c)
                  (fun depth =>
                    walker.logged.traverse depth c)
                  state (Tree.idsAll
                    ((start.children id).map
                      below)).length :=
              (ih c hC (hReach.child hC) hStill).mono
                (Tree.length_ids_le (List.mem_map_of_mem hC))
            rcases traverses_visitChildren
                (hLinked.nodup id) hEach
                ⟨hAdmitted, hChanged, hAfter⟩ with
              ⟨answer, last, visits, hTraversed, hLogs⟩
            refine ⟨answer, last,
              [⟨id, .ok (.descend id), false⟩] ++ visits,
              hTraversed.prepend
                (List.forall_mem_singleton.mpr
                  ⟨⟨_, rfl⟩, rfl⟩) ?_,
              fun depth hDepth => ?_⟩
            · rintro _ ⟨parts, rfl, hParts⟩
              exact .descend id parts hParts
            · rcases hDeeper depth hDepth with
                ⟨less, rfl, hLess⟩
              rw [List.map_append]
              dsimp only
              rw [traverse_succ, traverse_succ]
              refine hVisit.bind
                (Walk.logs_hasChanged_bind ?_)
              rw [hChanged]
              refine Walk.logs_plan_bind ?_
              rw [hAfter.children id hReach]
              exact hLogs less hLess

end Orderly

end Walker

end Flwor
