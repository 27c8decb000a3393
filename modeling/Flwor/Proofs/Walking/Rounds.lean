import Flwor.Proofs.Walking.Traversals

/-
  Walks to a fixpoint, round by round.

  In each round the walker prepares, and then the tree is
  traversed from the root.  The driver goes on to the next
  round only after a change, gives up at the first failure
  or after as many rounds as it may make, and is done with
  the first round that changes nothing.

  Key definitions include:
    * `Round`
    * `Round.Stops`, `Round.VisitsAll`
    * `Walker.Walked`

  Key theorems include:
    * `Walker.Orderly.exists_walked`
    * `Walker.Orderly.walk_contract`
-/

------------------------------------------------------------
-- Rounds
------------------------------------------------------------

namespace Flwor

/- The failure that an answer is, if it is one. -/
def Failure.of?
    {α : Type} : Except Failure α → Option Failure
  | .ok _ => none
  | .error e => some e

namespace Visited

/- The failure of a visit. -/
def failure?
    (v : Visited) : Option Failure :=
  Failure.of? v.answer

theorem IsQuiet.failure?_eq_none
    {v : Visited}
    (hQuiet : v.IsQuiet) :
    v.failure? = none := by
  rcases hQuiet.answered with ⟨next, hNext⟩
  rw [failure?, hNext]
  rfl

end Visited

/- How the walker prepared, and the visits after it. -/
structure Round where
  prepared : Except Failure Unit
  visits : List Visited

namespace Round

/- A round as it is logged. -/
def events
    (round : Round) : List WalkEvent :=
  .prepared round.prepared :: round.visits.map .visited

/- The failure of a round: to prepare, or of a visit. -/
def failure?
    (round : Round) : Option Failure :=
  (Failure.of? round.prepared).or
    (round.visits.findSome? Visited.failure?)

/- Whether some visit of a round records a change. -/
def changed
    (round : Round) : Bool :=
  round.visits.any Visited.changed

/-
  Nothing is visited after a failure to prepare, after a
  visit that fails, or after one that records a change.
-/
structure Stops
    (round : Round) : Prop where
  prepared : ∀ e, round.prepared = .error e →
    round.visits = []
  visits : ∀ v ∈ round.visits.dropLast, v.IsQuiet

/-
  The visits of a round are, in the order of the tree and
  once each, those to all nodes that are reached and do not
  lie below a skipped one.
-/
structure VisitsAll
    (round : Round)
    (plan : Plan) : Prop where
  ordered :
    (round.visits.map Visited.id).Sublist
      (plan.subtree plan.root)
  once : (round.visits.map Visited.id).Nodup
  mem_iff :
    ∀ x, x ∈ round.visits.map Visited.id ↔
      plan.Reaches x ∧
        ∀ v ∈ round.visits, v.answer = .ok .skip →
          ¬ plan.Beneath x v.id

theorem visitsAll_of_covers
    {plan : Plan}
    {round : Round}
    (hLinked : plan.Linked)
    (hCovers : plan.Covers plan.root round.visits) :
    round.VisitsAll plan := by
  have hFree (y : NodeId) (hY : plan.Under y plan.root) :
      ¬ plan.Beneath y y :=
    hLinked.not_below_self hY
  have hUnfolds := Plan.unfolds_tree hLinked hFree
  have hOrdered := hCovers.sublist hUnfolds
  refine ⟨hOrdered,
    hOrdered.nodup (hUnfolds.nodup_ids hLinked hFree),
    fun x => ?_⟩
  rw [hCovers.mem_iff hLinked hFree,
    hLinked.reaches_iff_under]

end Round

namespace Walker

variable {σ : Type}
variable {walker : Walker σ}
variable {admitted : Plan → σ → Prop}

/- How a round ends. -/
inductive Rounded
    (admitted : Plan → σ → Prop) :
    Except Failure Unit → WalkState σ → Round → Prop where
  | unprepared
      (e : Failure)
      (after : WalkState σ) :
      Rounded admitted (.error e) after ⟨.error e, []⟩
  | traversed
      {answer : Except Failure Unit}
      {after : WalkState σ}
      {visits : List Visited}
      (start : Plan)
      (hTraversed : Traversed admitted start
        (start.Covers start.root) answer after visits) :
      Rounded admitted answer after ⟨.ok (), visits⟩

/-
  How a walk ends, with a number of rounds left and a number
  of them done.
-/
inductive Walked
    (admitted : Plan → σ → Prop)
    (name : String) :
    Nat → Nat → Except Failure WalkReport → WalkState σ →
      List Round → Prop where
  | exhausted
      (done : Nat)
      (after : WalkState σ) :
      Walked admitted name 0 done
        (.error (.noFixpoint name done)) after []
  | failed
      {e : Failure}
      {after : WalkState σ}
      {round : Round}
      (left done : Nat)
      (hRound : Rounded admitted (.error e) after round) :
      Walked admitted name (left + 1) done (.error e) after
        [round]
  | fixpoint
      {after : WalkState σ}
      {round : Round}
      (left done : Nat)
      (hRound : Rounded admitted (.ok ()) after round)
      (hChanged : after.changed = false) :
      Walked admitted name (left + 1) done
        (.ok ⟨name, done + 1, done != 0⟩) after [round]
  | again
      {middle after : WalkState σ}
      {round : Round}
      {rounds : List Round}
      {left done : Nat}
      {answer : Except Failure WalkReport}
      (hRound : Rounded admitted (.ok ()) middle round)
      (hChanged : middle.changed = true)
      (hRest : Walked admitted name left (done + 1) answer
        after rounds) :
      Walked admitted name (left + 1) done answer after
        (round :: rounds)

namespace Traversed

variable {start : Plan}
variable {covered : List Visited → Prop}
variable {answer : Except Failure Unit}
variable {after : WalkState σ}
variable {visits : List Visited}

/- All visits but the last one are quiet. -/
theorem quiet_dropLast
    (hTraversed :
      Traversed admitted start covered answer after visits) :
    ∀ v ∈ visits.dropLast, v.IsQuiet := by
  cases hTraversed with
  | failed hQuiet | changed hQuiet =>
      rw [List.dropLast_concat]
      exact hQuiet
  | still hQuiet =>
      exact fun v hV => hQuiet v (List.dropLast_subset _ hV)

/- The failure is that of a visit, if there is one. -/
theorem findSome?_failure?
    (hTraversed :
      Traversed admitted start covered answer after visits) :
    visits.findSome? Visited.failure? =
      Failure.of? answer := by
  have hNone {quiet : List Visited}
      (hQuiet : ∀ v ∈ quiet, v.IsQuiet) :
      quiet.findSome? Visited.failure? = none :=
    List.findSome?_eq_none_iff.mpr
      (fun v hV => (hQuiet v hV).failure?_eq_none)
  cases hTraversed with
  | failed hQuiet e id | changed hQuiet =>
      rw [List.findSome?_append, hNone hQuiet]
      rfl
  | still hQuiet => exact hNone hQuiet

/- Without a failure the record is that of some visit. -/
theorem any_changed
    (hTraversed :
      Traversed admitted start covered (.ok ()) after
        visits) :
    visits.any Visited.changed = after.changed := by
  have hNone {quiet : List Visited}
      (hQuiet : ∀ v ∈ quiet, v.IsQuiet) :
      quiet.any Visited.changed = false :=
    List.any_eq_false.mpr (fun v hV => by
      rw [(hQuiet v hV).unchanged]
      exact Bool.false_ne_true)
  cases hTraversed with
  | changed hQuiet id next hAdmitted hChanged =>
      rw [List.any_append, hNone hQuiet, hChanged]
      rfl
  | still hQuiet hStill =>
      rw [hNone hQuiet, hStill.unchanged]

theorem admitted_after
    (hTraversed :
      Traversed admitted start covered (.ok ()) after
        visits) :
    admitted after.plan after.own := by
  cases hTraversed with
  | changed hQuiet id next hAdmitted => exact hAdmitted
  | still hQuiet hStill => exact hStill.admitted

end Traversed

namespace Rounded

variable {answer : Except Failure Unit}
variable {after : WalkState σ}
variable {round : Round}

theorem stops
    (hRound : Rounded admitted answer after round) :
    round.Stops := by
  cases hRound with
  | unprepared e =>
      exact ⟨fun _ _ => rfl, List.forall_mem_nil _⟩
  | traversed start hTraversed =>
      exact ⟨nofun, hTraversed.quiet_dropLast⟩

theorem failure?_eq
    (hRound : Rounded admitted answer after round) :
    round.failure? = Failure.of? answer := by
  cases hRound with
  | unprepared e => rfl
  | traversed start hTraversed =>
      exact hTraversed.findSome?_failure?

theorem changed_eq
    (hRound : Rounded admitted (.ok ()) after round) :
    round.changed = after.changed := by
  cases hRound with
  | traversed start hTraversed =>
      exact hTraversed.any_changed

theorem admitted_after
    (hRound : Rounded admitted (.ok ()) after round) :
    admitted after.plan after.own := by
  cases hRound with
  | traversed start hTraversed =>
      exact hTraversed.admitted_after

/- A round without a change has visited the whole tree. -/
theorem visitsAll
    (hOrderly : walker.Orderly admitted)
    (hRound : Rounded admitted (.ok ()) after round)
    (hChanged : after.changed = false) :
    round.VisitsAll after.plan := by
  have hLinked :=
    hOrderly.linked _ _ hRound.admitted_after
  refine Round.visitsAll_of_covers hLinked ?_
  cases hRound with
  | traversed start hTraversed =>
      cases hTraversed with
      | changed hQuiet id next hAdmitted hRecorded =>
          rw [hRecorded] at hChanged
          cases hChanged
      | still hQuiet hStill hCovers =>
          rw [hStill.same.root]
          exact hCovers.of_sameTree hStill.same .root

end Rounded

namespace Walked

variable {name : String}
variable {left done : Nat}
variable {answer : Except Failure WalkReport}
variable {after : WalkState σ}
variable {rounds : List Round}
variable (hWalked :
  Walked admitted name left done answer after rounds)

include hWalked

theorem length_le :
    rounds.length ≤ left := by
  induction hWalked with
  | exhausted => exact Nat.le_refl 0
  | failed left | fixpoint left =>
      exact Nat.succ_le_succ (Nat.zero_le left)
  | again hRound hChanged hRest ih =>
      exact Nat.succ_le_succ ih

theorem stops :
    ∀ r ∈ rounds, r.Stops := by
  induction hWalked with
  | exhausted => exact List.forall_mem_nil _
  | failed left done hRound | fixpoint left done hRound =>
      exact List.forall_mem_singleton.mpr hRound.stops
  | again hRound hChanged hRest ih =>
      exact List.forall_mem_cons.mpr ⟨hRound.stops, ih⟩

/- A further round is made only after a change. -/
theorem changed_dropLast :
    ∀ r ∈ rounds.dropLast,
      r.failure? = none ∧ r.changed = true := by
  induction hWalked with
  | exhausted | failed | fixpoint =>
      exact List.forall_mem_nil _
  | @again _ _ round rest _ _ _ hRound hChanged _ ih =>
      rcases rest with _ | ⟨next, rest⟩
      · exact List.forall_mem_nil _
      · refine List.forall_mem_cons.mpr
          ⟨⟨hRound.failure?_eq, ?_⟩, ih⟩
        rw [hRound.changed_eq, hChanged]

/- The first failure is the answer. -/
theorem answer_of_failure :
    ∀ r ∈ rounds, ∀ e, r.failure? = some e →
      answer = .error e := by
  induction hWalked with
  | exhausted => exact List.forall_mem_nil _
  | failed left done hRound =>
      refine List.forall_mem_singleton.mpr (fun e hE => ?_)
      rw [hRound.failure?_eq] at hE
      cases hE
      rfl
  | fixpoint left done hRound =>
      refine List.forall_mem_singleton.mpr (fun e hE => ?_)
      rw [hRound.failure?_eq] at hE
      cases hE
  | again hRound hChanged hRest ih =>
      refine List.forall_mem_cons.mpr ⟨fun e hE => ?_, ih⟩
      rw [hRound.failure?_eq] at hE
      cases hE

/-
  Without a failure the last round is the only one without a
  change, or all rounds record one and their number is the
  bound.
-/
theorem fixpoint_or_exhausted
    (hOrderly : walker.Orderly admitted)
    (hNone : ∀ r ∈ rounds, r.failure? = none) :
    (∃ before last, rounds = before ++ [last] ∧
      (∀ r ∈ before, r.changed = true) ∧
      last.changed = false ∧
      answer = .ok ⟨name, done + rounds.length,
        done + rounds.length != 1⟩ ∧
      last.VisitsAll after.plan) ∨
    (rounds.length = left ∧
      (∀ r ∈ rounds, r.changed = true) ∧
      answer = .error (.noFixpoint name (done + left))) := by
  induction hWalked with
  | exhausted =>
      exact .inr ⟨rfl, List.forall_mem_nil _, rfl⟩
  | failed left done hRound =>
      have hFailed := hNone _ (List.mem_singleton_self _)
      rw [hRound.failure?_eq] at hFailed
      cases hFailed
  | @fixpoint _ round left done hRound hChanged =>
      refine .inl ⟨[], round, rfl, List.forall_mem_nil _,
        ?_, ?_, hRound.visitsAll hOrderly hChanged⟩
      · rw [hRound.changed_eq, hChanged]
      · simp
  | @again _ _ round rest left done _ hRound hChanged _ ih =>
      have hHere : round.changed = true := by
        rw [hRound.changed_eq, hChanged]
      have hCount : done + 1 + rest.length =
          done + (round :: rest).length := by
        rw [List.length_cons]
        omega
      rcases ih (List.forall_mem_cons.mp hNone).2 with
        ⟨before, last, hRounds, hBefore, hLast, hAnswer,
          hAll⟩ | ⟨hLength, hAll, hAnswer⟩
      · rw [hCount] at hAnswer
        refine .inl ⟨round :: before, last, ?_,
          List.forall_mem_cons.mpr ⟨hHere, hBefore⟩, hLast,
          hAnswer, hAll⟩
        rw [hRounds, List.cons_append]
      · refine .inr ⟨congrArg Nat.succ hLength,
          List.forall_mem_cons.mpr ⟨hHere, hAll⟩, ?_⟩
        rw [hAnswer, Nat.add_assoc, Nat.add_comm 1]

end Walked

namespace Orderly

variable (hOrderly : walker.Orderly admitted)

include hOrderly

/- No path from the root has more nodes than the arena. -/
theorem traverses_root
    {state : WalkState σ}
    (hAdmitted : admitted state.plan state.own)
    (hUnchanged : state.changed = false) :
    Traverses admitted state.plan
      (state.plan.Covers state.plan.root)
      (fun depth => walker.traverse depth state.plan.root)
      (fun depth =>
        walker.logged.traverse depth state.plan.root)
      state (state.plan.size + 1) := by
  have hLinked := hOrderly.linked _ _ hAdmitted
  have hFree (y : NodeId)
      (hY : state.plan.Under y state.plan.root) :
      ¬ state.plan.Beneath y y :=
    hLinked.not_below_self hY
  have hUnfolds := Plan.unfolds_tree hLinked hFree
  have hSubset : (state.plan.tree state.plan.root).ids ⊆
      state.plan.root :: List.range state.plan.size := by
    intro x hX
    rw [hUnfolds.mem_ids_iff hLinked] at hX
    rw [List.mem_cons, List.mem_range]
    rcases Relation.ReflTransGen.cases_head hX with
      hEq | ⟨p, hUp, _⟩
    · exact .inl hEq
    · exact .inr (Plan.lt_size_of_parent? hUp)
  have hLength := ((hUnfolds.nodup_ids hLinked
    hFree).subperm hSubset).length_le
  rw [List.length_cons, List.length_range] at hLength
  exact (hOrderly.traverses hLinked hUnfolds .root
    ⟨hAdmitted, hUnchanged, .refl _⟩).mono hLength

theorem exists_rounded
    {state : WalkState σ}
    (hAdmitted : admitted state.plan state.own) :
    ∃ answer after round,
      Rounded admitted answer after round ∧
        Walk.Logs walker.traverseRoot
          walker.logged.traverseRoot state answer after
            round.events := by
  rcases hRun : walker.prepare.run state with
    ⟨e | ⟨⟩, middle⟩
  · exact ⟨.error e, middle, ⟨.error e, []⟩,
      .unprepared e middle,
      (logs_prepare hRun).bind_error⟩
  · have hMiddle := hOrderly.prepare state middle hAdmitted
      hRun
    have hCleared : admitted
        ({ middle with changed := false } :
          WalkState σ).plan
        ({ middle with changed := false } :
          WalkState σ).own :=
      hMiddle
    rcases hOrderly.traverses_root hCleared rfl with
      ⟨answer, after, visits, hTraversed, hLogs⟩
    refine ⟨answer, after, ⟨.ok (), visits⟩,
      .traversed middle.plan hTraversed, ?_⟩
    refine (logs_prepare hRun).bind (Walk.logs_clear_bind ?_)
    exact Walk.logs_plan_bind (hLogs _ (Nat.le_succ _))

theorem exists_walked
    {state : WalkState σ}
    (hAdmitted : admitted state.plan state.own)
    (left done : Nat) :
    ∃ answer after rounds,
      Walked admitted walker.name left done answer after
        rounds ∧
        Walk.Logs (walker.walkFrom left done)
          (walker.logged.walkFrom left done) state answer
            after (rounds.flatMap Round.events) := by
  induction left generalizing state done with
  | zero =>
      exact ⟨_, state, [], .exhausted done state,
        Walk.logs_throw _⟩
  | succ left ih =>
      rcases hOrderly.exists_rounded hAdmitted with
        ⟨answer, middle, round, hRound, hLogs⟩
      rcases answer with e | ⟨⟩
      · refine ⟨.error e, middle, [round],
          .failed left done hRound, ?_⟩
        rw [List.flatMap_singleton]
        exact hLogs.bind_error
      cases hChanged : middle.changed with
      | false =>
          refine ⟨_, middle, [round],
            .fixpoint left done hRound hChanged, ?_⟩
          rw [List.flatMap_singleton,
            ← List.append_nil round.events]
          refine hLogs.bind (Walk.logs_hasChanged_bind ?_)
          rw [hChanged]
          exact Walk.logs_return _
      | true =>
          rcases ih hRound.admitted_after (done + 1) with
            ⟨answer, after, rounds, hWalked, hRest⟩
          refine ⟨answer, after, round :: rounds,
            .again hRound hChanged hWalked, ?_⟩
          rw [List.flatMap_cons]
          refine hLogs.bind (Walk.logs_hasChanged_bind ?_)
          rw [hChanged]
          exact hRest

/-
  The contract of the driver.  A traversal ends, as it does
  for any greater depth.  A walk makes a number of rounds
  within its bound.  In each of them nothing is visited
  after a failure or a recorded change, and none but the
  last one fails or goes without a change.  A failure is the
  answer of the walk.  If there is none, either the last
  round is the first without a change, and it has visited
  the whole tree, or the bound has been reached.
-/
theorem walk_contract
    {state : WalkState σ}
    (hAdmitted : admitted state.plan state.own)
    (bound : Nat) :
    (∀ plan own, admitted plan own →
      ∀ depth, plan.size + 2 ≤ depth →
        (walker.traverse depth plan.root).run
            ⟨plan, own, false⟩ =
          (walker.traverse (plan.size + 2) plan.root).run
            ⟨plan, own, false⟩) ∧
    ∃ answer after rounds,
      (walker.walk bound).run state = (answer, after) ∧
      (∀ log,
        (walker.logged.walk bound).run (state.withLog log) =
          (answer, after.withLog
            (log ++ rounds.flatMap Round.events))) ∧
      rounds.length ≤ bound ∧
      (∀ r ∈ rounds, r.Stops) ∧
      (∀ r ∈ rounds.dropLast,
        r.failure? = none ∧ r.changed = true) ∧
      (∀ r ∈ rounds, ∀ e, r.failure? = some e →
        answer = .error e) ∧
      ((∀ r ∈ rounds, r.failure? = none) →
        (∃ before last, rounds = before ++ [last] ∧
          (∀ r ∈ before, r.changed = true) ∧
          last.changed = false ∧
          answer = .ok ⟨walker.name, rounds.length,
            rounds.length != 1⟩ ∧
          last.VisitsAll after.plan) ∨
        (rounds.length = bound ∧
          (∀ r ∈ rounds, r.changed = true) ∧
          answer =
            .error (.noFixpoint walker.name bound))) := by
  constructor
  · intro plan own hPlan depth hDepth
    have hState : admitted
        (⟨plan, own, false⟩ : WalkState σ).plan
        (⟨plan, own, false⟩ : WalkState σ).own :=
      hPlan
    rcases hOrderly.traverses_root hState rfl with
      ⟨answer, after, visits, _, hLogs⟩
    have hDeep : plan.size + 1 ≤ depth :=
      Nat.le_of_succ_le hDepth
    exact (hLogs depth hDeep).run_plain.trans
      (hLogs _ (Nat.le_succ _)).run_plain.symm
  · rcases hOrderly.exists_walked hAdmitted bound 0 with
      ⟨answer, after, rounds, hWalked, hLogs⟩
    have hOutcome := hWalked.fixpoint_or_exhausted hOrderly
    rw [Nat.zero_add, Nat.zero_add] at hOutcome
    exact ⟨answer, after, rounds, hLogs.run_plain,
      hLogs.run_noted, hWalked.length_le, hWalked.stops,
      hWalked.changed_dropLast, hWalked.answer_of_failure,
      hOutcome⟩

end Orderly

end Walker

end Flwor

------------------------------------------------------------
-- A Walker That Counts Its Changes
------------------------------------------------------------

namespace Flwor

namespace Walker

/-
  A walker that adds a node in each round until its count is
  used up, and that does not look into calls.
-/
def countdown : Walker Nat where
  name := "countdown"
  prepare := return ()
  visit id := do
    let state ← get
    match state.own with
    | 0 =>
        return if state.plan.kind id = .functionCall then
          .skip
        else .descend id
    | left + 1 =>
        let grown := state.plan.grow .emptySequence .none []
        set (WalkState.mk
          (grown.attach id (grown.children id).length
            state.plan.size)
          left true)
        return .descend id

theorem orderly_countdown :
    countdown.Orderly (fun plan _ => plan.Sound) := by
  refine ⟨fun _ _ hSound => hSound.linked, ?_, ?_⟩
  · rintro before _ hSound ⟨⟩
    exact hSound
  · rintro ⟨plan, own, changed⟩ after id answer hSound
      hUnchanged hReach hRun
    have hSound : plan.Sound := hSound
    rcases own with _ | left
    · cases hRun
      refine ⟨hSound, fun _ => ⟨.refl plan, ?_⟩⟩
      dsimp only
      split
      next => exact .inl rfl
      next => exact .inr rfl
    · cases hRun
      have hGrow : Plan.Move (fun _ _ _ => True) plan
          (plan.grow .emptySequence .none []) :=
        .grow plan .emptySequence .none []
      have hId : id < plan.size := by
        rcases hReach with ⟨n, hAt⟩
        exact hAt.lt_arena hSound.linked hSound.root_lt
      refine ⟨?_, fun hChanged => by cases hChanged⟩
      refine (Plan.Move.attach
        (Plan.detached_grow hSound.root_lt _ _ _)
        (hId.trans (by simp)) (Nat.le_refl _) trivial :
          Plan.Move (fun _ _ _ => True) _ _).sound
            (hGrow.sound hSound)

/- A sequence of a call and a literal. -/
def calling : Plan :=
  PlanCall.runAll
    [.install (.branch .functionCall [.leaf .literal]),
      .append 0 1, .add .literal .none, .append 0 3]
    (.ofNode .sequenceExpr .none)

theorem walk_contract_countdown :
    countdown.Orderly (fun plan _ => plan.Sound) ∧
      calling.Sound ∧
      ∃ (after : WalkState Nat) (rounds : List Round)
        (last : Round),
        (countdown.walk 3).run ⟨calling, 1, false⟩ =
          (.ok ⟨"countdown", 2, true⟩, after) ∧
        rounds.length = 2 ∧ last ∈ rounds ∧
        last.VisitsAll after.plan := by
  have hBuilt : calling.Built (fun _ _ => True) := by
    apply Plan.Built.call _ (.append 0 3) (by decide)
      (by simp)
    apply Plan.Built.call _ (.add .literal .none)
      (by decide) (by simp)
    apply Plan.Built.call _ (.append 0 1) (by decide)
      (by simp)
    apply Plan.Built.call _ (.install _) (by decide)
      (by simp)
    exact .ofNode .sequenceExpr .none
  have hSound := hBuilt.sound
  have hRun : ((countdown.walk 3).run
      ⟨calling, 1, false⟩).1 =
        .ok ⟨"countdown", 2, true⟩ := by
    rfl
  refine ⟨orderly_countdown, hSound, ?_⟩
  have hStart : (fun plan (_ : Nat) => plan.Sound)
      (⟨calling, 1, false⟩ : WalkState Nat).plan
      (⟨calling, 1, false⟩ : WalkState Nat).own :=
    hSound
  rcases (Orderly.walk_contract orderly_countdown hStart
      3).2 with
    ⟨answer, after, rounds, hWalk, _, _, _, _, hFailure,
      hOutcome⟩
  rw [hWalk] at hRun
  cases hRun
  have hNone (r : Round) (hR : r ∈ rounds) :
      r.failure? = none := by
    rcases hFailed : r.failure? with _ | e
    · rfl
    · cases hFailure r hR e hFailed
  rcases hOutcome hNone with
    ⟨before, last, hRounds, _, _, hAnswer, hAll⟩ |
      ⟨_, _, hAnswer⟩
  · have hLength : rounds.length = 2 := by
      simp only [Except.ok.injEq, WalkReport.mk.injEq]
        at hAnswer
      exact hAnswer.2.1.symm
    exact ⟨after, rounds, last, hWalk, hLength,
      by rw [hRounds]; simp, hAll⟩
  · cases hAnswer

end Walker

end Flwor
