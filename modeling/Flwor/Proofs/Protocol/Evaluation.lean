import Flwor.Proofs.RowMeaning
import Flwor.Proofs.Protocol.Tapes

/-
  Evaluation keeps the order of calls.

  The tape of every operator is ordered, and the value of an
  expression leaves nothing behind but counters and runs of
  nested pipelines that are over.  Each of the two rests on
  the other: operators evaluate expressions, and expressions
  run operators.

  Key theorems include:
    * `Cursor.settled_forEach`
    * `Expr.quiet_eval`
    * `Operator.tape_ordered`
-/

------------------------------------------------------------
-- Consuming All Rows
------------------------------------------------------------

namespace Flwor

open Journal

namespace Cursor

variable {σ : Type}
variable {each : σ → Row → Answer σ}
variable {tape : Tape}

/- Handing on the rows tells of rows and of the end. -/
theorem tolerated_feed
    {P : Journal → Prop}
    (hP : Tolerant P)
    (hEach : ∀ state row, (each state row).journal.Quiet)
    {ending : Answer Unit}
    (hEnding : P ending.journal)
    (state : σ)
    {answers : List (Answer Row)}
    (hAnswers : ∀ a ∈ answers, P a.journal) :
    P (feed each ending state answers).2.journal := by
  induction answers generalizing state with
  | nil => exact hEnding
  | cons a rest ih =>
      rw [List.forall_mem_cons] at hAnswers
      have hStep : P (a.bind (each state)).journal :=
        hP.bind hAnswers.1
          (fun row => hP.quiet (hEach state row))
      unfold feed
      dsimp only
      split
      · exact hStep
      · exact hP.append hStep (ih _ hAnswers.2)

/- It opens first, and closes last in any case. -/
theorem exists_journal_forEach
    {P : Journal → Prop}
    (hP : Tolerant P)
    (hEach : ∀ state row, (each state row).journal.Quiet)
    {O C : Journal → Prop}
    (hKeeps : tape.Keeps O P C)
    (state : σ) :
    ∃ more, P more ∧
      (forEach each state (create tape)).2.1.journal =
        tape.opening.journal ++
          (more ++ tape.closing.journal) := by
  unfold forEach create openUp close Answer.both
  dsimp only
  cases hResult : tape.opening.result with
  | error e =>
      exact ⟨[], hP.nil, rfl⟩
  | ok u =>
      refine ⟨_, tolerated_feed hP hEach hKeeps.ending state
        hKeeps.rows, ?_⟩
      exact List.append_assoc _ _ _

/- Whatever happens, all raw cursors are over afterwards. -/
theorem settled_forEach
    (hOrdered : tape.Ordered)
    (hEach : ∀ state row, (each state row).journal.Quiet)
    (state : σ) :
    (forEach each state
      (create tape)).2.1.journal.Settled := by
  apply settled_of_inside
  · intro sides
    rcases hOrdered.lives sides with ⟨phase, hLives⟩
    rcases exists_journal_forEach
        (tolerant_readsOnly phase sides) hEach hLives state
      with ⟨more, hMore, hJournal⟩
    refine ⟨phase.ended, phase.ended_ne_opened, ?_⟩
    rw [hJournal, inside_append, calls_append,
      inside_append, calls_append, hLives.closing,
      ← List.append_assoc]
    exact (hLives.opening.read hMore).close
  · rcases exists_journal_forEach tolerant_runsSettled hEach
        hOrdered.runs state with
      ⟨more, hMore, hJournal⟩
    rw [hJournal]
    exact tolerant_runsSettled.append hOrdered.runs.opening
      (tolerant_runsSettled.append hMore
        hOrdered.runs.closing)

/- The run of a nested pipeline is told of as one event. -/
theorem quiet_run
    {α : Type}
    (hOrdered : tape.Ordered)
    (hEach : ∀ state row, (each state row).journal.Quiet)
    (state : σ)
    (value : α) :
    (((forEach each state (create tape)).2.1.bind (fun _ =>
      Answer.pure value)).relocate .nested).journal.Quiet :=
  by
  unfold Answer.relocate
  dsimp only
  rw [Answer.journal_bind_pure]
  split
  · exact Quiet.nil
  · exact Quiet.nested (settled_forEach hOrdered hEach state)

end Cursor

end Flwor

------------------------------------------------------------
-- Expressions and Operators
------------------------------------------------------------

namespace Flwor

open Journal

theorem quiet_rangeBound
    (item : Option Item) :
    (rangeBound item).journal.Quiet := by
  unfold rangeBound
  split
  · exact Quiet.nil
  · exact Quiet.nil
  · exact Quiet.nil

theorem quiet_disabled
    (check : Option Slot)
    (row : Row) :
    (disabled check row).journal.Quiet := by
  cases check with
  | none => exact Quiet.nil
  | some slot =>
      apply tolerant_quiet.bind Quiet.nil
      intro value
      exact Quiet.nil

mutual

/- An expression leaves counters and complete runs only. -/
theorem Expr.quiet_eval :
    ∀ (e : Expr) (row : Row), (e.eval row).journal.Quiet
  | .literal value, row => by
      rw [Expr.eval]
      exact Quiet.nil
  | .variable slot, row => by
      rw [Expr.eval]
      exact Quiet.nil
  | .concat parts, row => by
      rw [Expr.eval]
      apply tolerant_quiet.bind (Expr.quiet_evalAll parts row)
      intro values
      exact Quiet.nil
  | .range low high, row => by
      rw [Expr.eval]
      apply tolerant_quiet.bind (Expr.quiet_eval low row)
      intro s
      apply tolerant_quiet.bind Quiet.nil
      intro a
      apply tolerant_quiet.bind (quiet_rangeBound a)
      intro low
      apply tolerant_quiet.bind (Expr.quiet_eval high row)
      intro t
      apply tolerant_quiet.bind Quiet.nil
      intro b
      apply tolerant_quiet.bind (quiet_rangeBound b)
      intro high
      split
      · exact Quiet.nil
      · exact Quiet.nil
  | .arithmetic op left right, row => by
      rw [Expr.eval]
      apply tolerant_quiet.bind (Expr.quiet_eval left row)
      intro s
      apply tolerant_quiet.bind Quiet.nil
      intro a
      apply tolerant_quiet.bind (Expr.quiet_eval right row)
      intro t
      apply tolerant_quiet.bind Quiet.nil
      intro b
      split
      · apply tolerant_quiet.bind Quiet.nil
        intro c
        exact Quiet.nil
      · exact Quiet.nil
  | .comparison c left right, row => by
      rw [Expr.eval]
      apply tolerant_quiet.bind (Expr.quiet_eval left row)
      intro s
      apply tolerant_quiet.bind (Expr.quiet_eval right row)
      intro t
      apply tolerant_quiet.bind Quiet.nil
      intro answer
      exact Quiet.nil
  | .and left right, row => by
      rw [Expr.eval]
      apply tolerant_quiet.bind (Expr.quiet_eval left row)
      intro s
      apply tolerant_quiet.bind Quiet.nil
      intro b
      split
      · apply tolerant_quiet.bind (Expr.quiet_eval right row)
        intro t
        apply tolerant_quiet.bind Quiet.nil
        intro b
        exact Quiet.nil
      · exact Quiet.nil
  | .or left right, row => by
      rw [Expr.eval]
      apply tolerant_quiet.bind (Expr.quiet_eval left row)
      intro s
      apply tolerant_quiet.bind Quiet.nil
      intro b
      split
      · exact Quiet.nil
      · apply tolerant_quiet.bind (Expr.quiet_eval right row)
        intro t
        apply tolerant_quiet.bind Quiet.nil
        intro b
        exact Quiet.nil
  | .cond condition yes no, row => by
      rw [Expr.eval]
      apply tolerant_quiet.bind
        (Expr.quiet_eval condition row)
      intro s
      apply tolerant_quiet.bind Quiet.nil
      intro b
      split
      · exact Expr.quiet_eval yes row
      · exact Expr.quiet_eval no row
  | .call function arguments, row => by
      rw [Expr.eval]
      apply tolerant_quiet.bind
        (Expr.quiet_evalAll arguments row)
      intro args
      exact Quiet.nil
  | .pipeline tail result, row => by
      have hEach
          (values : List Sequence)
          (r : Row) :
          (do
            Answer.count .row
            let value ← result.eval r
            return value :: values :
              Answer (List Sequence)).journal.Quiet := by
        apply tolerant_quiet.bind (Quiet.counted .row)
        intro u
        apply tolerant_quiet.bind (Expr.quiet_eval result r)
        intro value
        exact Quiet.nil
      rw [Expr.eval]
      exact Cursor.quiet_run (Operator.tape_ordered tail row)
        hEach [] _

/- So do several expressions. -/
theorem Expr.quiet_evalAll :
    ∀ (es : List Expr) (row : Row),
      (Expr.evalAll es row).journal.Quiet
  | [], row => by
      rw [Expr.evalAll]
      exact Quiet.nil
  | e :: rest, row => by
      rw [Expr.evalAll]
      apply tolerant_quiet.bind (Expr.quiet_eval e row)
      intro value
      apply tolerant_quiet.bind (Expr.quiet_evalAll rest row)
      intro values
      exact Quiet.nil

/- So do the sort keys of a row. -/
theorem SortKey.quiet_evalAll :
    ∀ (keys : List SortKey) (row : Row),
      (SortKey.evalAll keys row).journal.Quiet
  | [], row => by
      rw [SortKey.evalAll]
      exact Quiet.nil
  | .mk e order :: rest, row => by
      rw [SortKey.evalAll]
      apply tolerant_quiet.bind (Expr.quiet_eval e row)
      intro s
      apply tolerant_quiet.bind Quiet.nil
      intro key
      apply tolerant_quiet.bind (SortKey.quiet_evalAll rest row)
      intro keys
      exact Quiet.nil

/- So does the value that a `let` binds. -/
theorem Expr.quiet_evalBinding :
    ∀ (value : Option Expr) (check : Option Slot) (row : Row),
      (Expr.evalBinding value check row).journal.Quiet
  | none, check, row => by
      rw [Expr.evalBinding]
      apply tolerant_quiet.bind (Quiet.counted _)
      intro u
      exact Quiet.nil
  | some e, check, row => by
      rw [Expr.evalBinding]
      apply tolerant_quiet.bind (quiet_disabled check row)
      intro skipped
      split
      · exact Quiet.nil
      · apply tolerant_quiet.bind (Quiet.counted _)
        intro u
        exact Expr.quiet_eval e row

/- The calls that an operator makes are in order. -/
theorem Operator.tape_ordered :
    ∀ (op : Operator) (context : Row),
      (op.tape context).Ordered
  | .start, context => by
      rw [Operator.tape]
      exact (Tape.orderedInputs_ofRows [context]).recorded
  | .forBind input var position source check, context => by
      rw [Operator.tape]
      apply Tape.OrderedInputs.recorded
      apply ((Operator.tape_ordered input context).asInput
        .left).expand
      intro row
      apply tolerant_quiet.bind (quiet_disabled check row)
      intro skipped
      split
      · exact Quiet.nil
      · apply tolerant_quiet.bind (Expr.quiet_eval source row)
        intro items
        exact Quiet.nil
  | .letBind input var value check, context => by
      rw [Operator.tape]
      apply Tape.OrderedInputs.recorded
      apply ((Operator.tape_ordered input context).asInput
        .left).expand
      intro row
      apply tolerant_quiet.bind
        (Expr.quiet_evalBinding value check row)
      intro bound
      exact Quiet.nil
  | .select input predicate, context => by
      rw [Operator.tape]
      apply Tape.OrderedInputs.recorded
      apply ((Operator.tape_ordered input context).asInput
        .left).expand
      intro row
      apply tolerant_quiet.bind (Expr.quiet_eval predicate row)
      intro s
      apply tolerant_quiet.bind Quiet.nil
      intro holds
      exact Quiet.nil
  | .orderBy input keys, context => by
      rw [Operator.tape]
      apply Tape.OrderedInputs.recorded
      apply ((Operator.tape_ordered input context).asInput
        .left).buffered
      intro rows
      apply tolerant_quiet.bind
      · apply tolerant_quiet.sequence
        intro a hA
        rcases List.mem_map.mp hA with ⟨row, _, rfl⟩
        apply tolerant_quiet.bind
          (SortKey.quiet_evalAll keys row)
        intro values
        exact Quiet.nil
      · intro keyed
        exact Quiet.nil
  | .groupBy input keys aggregates, context => by
      rw [Operator.tape]
      apply Tape.OrderedInputs.recorded
      apply ((Operator.tape_ordered input context).asInput
        .left).buffered
      intro rows
      exact Quiet.nil
  | .count input var, context => by
      rw [Operator.tape]
      exact ((Operator.tape_ordered input context).asInput
        .left).numbered.recorded
  | .project input width keep, context => by
      rw [Operator.tape]
      apply Tape.OrderedInputs.recorded
      apply ((Operator.tape_ordered input context).asInput
        .left).expand
      intro row
      apply tolerant_quiet.bind Quiet.nil
      intro kept
      exact Quiet.nil
  | .join left right leftKey rightKey comparison leftJoin
      skipSort width rightWidth, context => by
      rw [Operator.tape]
      apply Tape.OrderedInputs.recorded
      apply Tape.OrderedInputs.joined
        (Operator.tape_ordered left context)
        (Operator.tape_ordered right context)
      · intro row
        split
        · exact Quiet.nil
        · apply tolerant_quiet.bind
            (Expr.quiet_eval leftKey row)
          intro key
          exact Quiet.nil
      · apply Tape.twoInputs_of_reading
        · intro rows
          apply tolerant_quiet.bind
          · apply tolerant_quiet.sequence
            intro a hA
            rcases List.mem_map.mp hA with ⟨row, _, rfl⟩
            exact Expr.quiet_eval rightKey row
          · intro keys
            apply tolerant_quiet.bind (Quiet.counted _)
            intro u
            exact Quiet.nil
        · rfl

end

end Flwor
