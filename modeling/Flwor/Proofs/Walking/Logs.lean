import Flwor.Walk

/-
  Walks that keep a log.

  The driver of a walk asks its walker to prepare and to
  visit nodes.  A walker can note what it is asked and what
  it answers, in a log beside its own state; the driver is
  the same and so is all that it does.

  Key definitions include:
    * `Visited`, `WalkEvent`
    * `Walker.logged`
    * `Walk.Logs`

  Key theorems include:
    * `Walk.Logs.bind`
    * `Walker.logs_prepare`, `Walker.logs_visit`
-/

------------------------------------------------------------
-- Logged Walkers
------------------------------------------------------------

namespace Flwor

/-
  A visit: the node, the answer of the walker, and whether a
  change is recorded afterwards.
-/
structure Visited where
  id : NodeId
  answer : Except Failure Visit
  changed : Bool

/- What a walker is asked, with its answer. -/
inductive WalkEvent where
  | prepared (answer : Except Failure Unit)
  | visited (visit : Visited)

variable {σ α β : Type}

/- A state with a log beside what the walker owns. -/
def WalkState.withLog
    (state : WalkState σ)
    (log : List WalkEvent) :
    WalkState (σ × List WalkEvent) where
  plan := state.plan
  own := (state.own, log)
  changed := state.changed

namespace Walk

/- Take a step; its answer, and the state that it leaves. -/
def run
    (walk : Walk σ α)
    (state : WalkState σ) :
    Except Failure α × WalkState σ :=
  StateT.run (ExceptT.run walk) state

/- The same step, which is then noted in the log. -/
def noting
    (walk : Walk σ α)
    (note : Except Failure α → Bool → WalkEvent) :
    Walk (σ × List WalkEvent) α := do
  let state ← get
  let (answer, after) := walk.run
    { plan := state.plan
      own := state.own.1
      changed := state.changed }
  set (after.withLog
    (state.own.2 ++ [note answer after.changed]))
  match answer with
  | .ok x => return x
  | .error e => throw e

end Walk

namespace Walker

/- The walker that notes what it is asked. -/
def logged
    (walker : Walker σ) : Walker (σ × List WalkEvent) where
  name := walker.name
  prepare := walker.prepare.noting
    (fun answer _ => .prepared answer)
  visit id := (walker.visit id).noting
    (fun answer changed => .visited ⟨id, answer, changed⟩)

end Walker

end Flwor

------------------------------------------------------------
-- Steps With and Without a Log
------------------------------------------------------------

namespace Flwor

namespace Walk

variable {σ α β : Type}

/- Two steps do the same, but one adds events to a log. -/
structure Logs
    (plain : Walk σ α)
    (noted : Walk (σ × List WalkEvent) α)
    (before : WalkState σ)
    (answer : Except Failure α)
    (after : WalkState σ)
    (events : List WalkEvent) : Prop where
  run_plain : plain.run before = (answer, after)
  run_noted :
    ∀ log, noted.run (before.withLog log) =
      (answer, after.withLog (log ++ events))

theorem logs_noting
    (walk : Walk σ α)
    (note : Except Failure α → Bool → WalkEvent)
    {before after : WalkState σ}
    {answer : Except Failure α}
    (hRun : walk.run before = (answer, after)) :
    Logs walk (walk.noting note) before answer after
      [note answer after.changed] := by
  refine ⟨hRun, fun log => ?_⟩
  have hNoted : (walk.noting note).run
      (before.withLog log) =
      Walk.run (match (walk.run before).1 with
        | .ok x => pure x
        | .error e => throw e)
        ((walk.run before).2.withLog (log ++
          [note (walk.run before).1
            (walk.run before).2.changed])) :=
    rfl
  rw [hNoted, hRun]
  cases answer <;> rfl

variable {plain : Walk σ α}
variable {noted : Walk (σ × List WalkEvent) α}
variable {before middle after : WalkState σ}
variable {events events' : List WalkEvent}

theorem run_bind_ok
    {walk : Walk σ α}
    {next : α → Walk σ β}
    {x : α}
    (hRun : walk.run before = (.ok x, middle)) :
    Walk.run (walk >>= next) before =
      (next x).run middle := by
  unfold run at hRun ⊢
  rw [ExceptT.run_bind, StateT.run_bind, hRun]
  rfl

theorem run_bind_error
    {walk : Walk σ α}
    {next : α → Walk σ β}
    {e : Failure}
    (hRun : walk.run before = (.error e, middle)) :
    Walk.run (walk >>= next) before = (.error e, middle) := by
  unfold run at hRun ⊢
  rw [ExceptT.run_bind, StateT.run_bind, hRun]
  rfl

namespace Logs

variable {nextPlain : α → Walk σ β}
variable {nextNoted : α → Walk (σ × List WalkEvent) β}

/- One step after another, where the first one succeeds. -/
theorem bind
    {x : α}
    {answer : Except Failure β}
    (hFirst : Logs plain noted before (.ok x) middle events)
    (hNext : Logs (nextPlain x) (nextNoted x) middle answer
      after events') :
    Logs (plain >>= nextPlain) (noted >>= nextNoted) before
      answer after (events ++ events') := by
  refine ⟨?_, fun log => ?_⟩
  · rw [run_bind_ok hFirst.run_plain]
    exact hNext.run_plain
  · rw [run_bind_ok (hFirst.run_noted log),
      hNext.run_noted, List.append_assoc]

/- What fails is not followed by anything. -/
theorem bind_error
    {e : Failure}
    (hFirst :
      Logs plain noted before (.error e) middle events) :
    Logs (plain >>= nextPlain) (noted >>= nextNoted) before
      (.error e) middle events := by
  refine ⟨?_, fun log => ?_⟩
  · exact run_bind_error hFirst.run_plain
  · exact run_bind_error (hFirst.run_noted log)

end Logs

theorem logs_return
    (x : α) :
    Logs (pure x) (pure x) before (.ok x) before [] := by
  refine ⟨rfl, fun log => ?_⟩
  rw [List.append_nil]
  rfl

theorem logs_throw
    (e : Failure) :
    Logs (throw e : Walk σ α) (throw e) before (.error e)
      before [] := by
  refine ⟨rfl, fun log => ?_⟩
  rw [List.append_nil]
  rfl

/- Steps that look at the record or at the plan first. -/
theorem logs_hasChanged_bind
    {nextPlain : Bool → Walk σ α}
    {nextNoted : Bool → Walk (σ × List WalkEvent) α}
    {answer : Except Failure α}
    (hNext : Logs (nextPlain before.changed)
      (nextNoted before.changed) before answer after
        events) :
    Logs (hasChanged >>= nextPlain)
      (hasChanged >>= nextNoted) before answer after
        events :=
  ⟨hNext.run_plain, hNext.run_noted⟩

theorem logs_plan_bind
    {nextPlain : Plan → Walk σ α}
    {nextNoted : Plan → Walk (σ × List WalkEvent) α}
    {answer : Except Failure α}
    (hNext : Logs (nextPlain before.plan)
      (nextNoted before.plan) before answer after events) :
    Logs (Walk.plan >>= nextPlain)
      (Walk.plan >>= nextNoted) before answer after
        events :=
  ⟨hNext.run_plain, hNext.run_noted⟩

/- Steps before which the record of a change is cleared. -/
theorem logs_clear_bind
    {nextPlain : Unit → Walk σ α}
    {nextNoted : Unit → Walk (σ × List WalkEvent) α}
    {answer : Except Failure α}
    (hNext : Logs (nextPlain ()) (nextNoted ())
      { before with changed := false } answer after
        events) :
    Logs
      (modify (fun state => { state with changed := false })
        >>= nextPlain)
      (modify (fun state => { state with changed := false })
        >>= nextNoted)
      before answer after events :=
  ⟨hNext.run_plain, hNext.run_noted⟩

end Walk

namespace Walker

variable {σ : Type}
variable {before after : WalkState σ}

theorem logs_prepare
    {walker : Walker σ}
    {answer : Except Failure Unit}
    (hRun : walker.prepare.run before = (answer, after)) :
    Walk.Logs walker.prepare walker.logged.prepare before
      answer after [.prepared answer] :=
  Walk.logs_noting walker.prepare
    (fun answer _ => .prepared answer) hRun

theorem logs_visit
    {walker : Walker σ}
    {id : NodeId}
    {answer : Except Failure Visit}
    (hRun : (walker.visit id).run before =
      (answer, after)) :
    Walk.Logs (walker.visit id) (walker.logged.visit id)
      before answer after
        [.visited ⟨id, answer, after.changed⟩] :=
  Walk.logs_noting (walker.visit id)
    (fun answer changed => .visited ⟨id, answer, changed⟩)
    hRun

end Walker

end Flwor
