import Flwor.Operator.Evaluate
import Flwor.Proofs.Meaning
import Flwor.Proofs.Outcome

/-
  The rows that an operator yields from a context row, one
  equation for each operator.

  `Operator.rows?` are the rows of the operator's tape, with
  journals left out.  The value of a nested pipeline is a
  map of its result over the rows of its tail.

  Key definitions include:
    * `Operator.rows?`

  Key theorems include:
    * `Operator.tape_settles`
    * `Operator.rows?_forBind`, `Operator.rows?_letBind`,
      `Operator.rows?_select`, `Operator.rows?_orderBy`,
      `Operator.rows?_groupBy`, `Operator.rows?_count`,
      `Operator.rows?_project`, `Operator.rows?_join`
    * `Expr.value?_pipeline`
-/

------------------------------------------------------------
-- Rows of Operators
------------------------------------------------------------

namespace Flwor

namespace Operator

attribute [local simp] Operator.tape Expr.eval

/- No operator fails at its end or at closing. -/
theorem tape_settles :
    ∀ (op : Operator) (context : Row),
      (op.tape context).Settles
  | .start, context => by
      rw [Operator.tape]
      exact (Tape.settles_ofRows [context]).recorded
  | .forBind input _ _ _ _, context => by
      rw [Operator.tape]
      exact (((tape_settles input context).asInput
        .left).expand _).recorded
  | .letBind input _ _ _, context => by
      rw [Operator.tape]
      exact (((tape_settles input context).asInput
        .left).expand _).recorded
  | .select input _, context => by
      rw [Operator.tape]
      exact (((tape_settles input context).asInput
        .left).expand _).recorded
  | .orderBy input _, context => by
      rw [Operator.tape]
      exact (((tape_settles input context).asInput
        .left).buffered _).recorded
  | .groupBy input _ _, context => by
      rw [Operator.tape]
      exact (((tape_settles input context).asInput
        .left).buffered _).recorded
  | .count input _, context => by
      rw [Operator.tape]
      exact ((tape_settles input context).asInput
        .left).numbered.recorded
  | .project input _ _, context => by
      rw [Operator.tape]
      exact (((tape_settles input context).asInput
        .left).expand _).recorded
  | .join left right _ _ _ _ _ _ _, context => by
      have hLeft :=
        (tape_settles left context).asInput .left
      have hRight :=
        (tape_settles right context).asInput .right
      rw [Operator.tape]
      refine Tape.Settles.recorded ⟨hLeft.ending, ?_⟩
      dsimp only
      split
      · simp [hLeft.closing, hRight.closing]
      · exact hLeft.closing

/- The rows that an operator yields from a context row. -/
def rows?
    (op : Operator)
    (context : Row) : Option (List Row) :=
  (op.tape context).outcome

/- The rows of an input replaced one by one. -/
theorem outcome_expand_input
    (input : Operator)
    (context : Row)
    (f : Row → Answer (List Row)) :
    (((input.tape context).asInput
        .left).expand f).recorded.outcome =
      (input.rows? context).bind (fun rows =>
        (rows.mapM (fun row => (f row).value?)).map
          List.flatten) := by
  rw [Tape.outcome_recorded, Tape.outcome_expand,
    Tape.outcome_asInput, rows?]

/- All rows of an input turned into others. -/
theorem outcome_buffered_input
    (input : Operator)
    (context : Row)
    (produce : List Row → Answer (List Row)) :
    (((input.tape context).asInput
        .left).buffered produce).recorded.outcome =
      (input.rows? context).bind (fun rows =>
        (produce rows).value?) := by
  rw [Tape.outcome_recorded,
    Tape.outcome_buffered
      ((tape_settles input context).asInput .left),
    Tape.outcome_asInput, rows?]

theorem rows?_start
    (context : Row) :
    rows? .start context = some [context] := by
  rw [rows?, Operator.tape, Tape.outcome_recorded,
    Tape.outcome_ofRows]

/- Whether a check, if present, finds an empty value. -/
def disabled?
    (check : Option Slot)
    (row : Row) : Option Bool :=
  match check with
  | none => some false
  | some slot => row[slot.index]?.map List.isEmpty

theorem value?_disabled
    (check : Option Slot)
    (row : Row) :
    (disabled check row).value? = disabled? check row := by
  cases check with
  | none => rfl
  | some slot =>
      simp only [disabled, disabled?, Answer.value?_bind,
        Answer.value?_ofExcept, Answer.value?_pure,
        Row.slot]
      cases row[slot.index]? with
      | none => rfl
      | some value => rfl

theorem rows?_forBind
    (input : Operator)
    (var : String)
    (position : Option String)
    (source : Expr)
    (check : Option Slot)
    (context : Row) :
    rows? (.forBind input var position source check)
        context =
      (rows? input context).bind (fun rows =>
        (rows.mapM (fun row =>
          (disabled? check row).bind (fun skipped =>
            if skipped then
              some [bindNothing row position.isSome]
            else
              (source.eval row).value?.map
                (bindItems row position.isSome)))).map
          List.flatten) := by
  rw [rows?, Operator.tape, outcome_expand_input]
  congr 1
  funext rows
  congr 2
  funext row
  simp only [Answer.value?_bind, value?_disabled]
  congr 1
  funext skipped
  cases skipped with
  | true => rfl
  | false =>
      simp only [Bool.false_eq_true, if_false,
        Answer.value?_bind, Answer.value?_pure]
      cases (source.eval row).value? with
      | none => rfl
      | some items => rfl

/- The value that a `let` binds, with journals left out. -/
def binding?
    (value : Option Expr)
    (check : Option Slot)
    (row : Row) : Option Sequence :=
  match value with
  | none => some []
  | some e =>
      (disabled? check row).bind (fun skipped =>
        if skipped then some []
        else (e.eval row).value?)

theorem value?_evalBinding
    (value : Option Expr)
    (check : Option Slot)
    (row : Row) :
    (Expr.evalBinding value check row).value? =
      binding? value check row := by
  cases value with
  | none => simp [Expr.evalBinding, binding?]
  | some e =>
      simp only [Expr.evalBinding, binding?,
        Answer.value?_bind, value?_disabled]
      congr 1
      funext skipped
      cases skipped with
      | true => rfl
      | false => simp

theorem rows?_letBind
    (input : Operator)
    (var : String)
    (value : Option Expr)
    (check : Option Slot)
    (context : Row) :
    rows? (.letBind input var value check) context =
      (rows? input context).bind (fun rows =>
        rows.mapM (fun row =>
          (binding? value check row).map (fun bound =>
            row ++ [bound]))) := by
  have hSingle (rows : List Row) :
      (rows.mapM (fun row =>
          (binding? value check row).map (fun bound =>
            [row ++ [bound]]))).map List.flatten =
        rows.mapM (fun row =>
          (binding? value check row).map (fun bound =>
            row ++ [bound])) := by
    induction rows with
    | nil => rfl
    | cons row rest ih =>
        simp only [List.mapM_cons, ← ih]
        cases binding? value check row with
        | none => rfl
        | some bound =>
            simp only [Option.map_some,
              Option.bind_eq_bind, Option.bind_some]
            cases rest.mapM (fun row =>
              (binding? value check row).map (fun bound =>
                [row ++ [bound]])) with
            | none => rfl
            | some rowss => rfl
  rw [rows?, Operator.tape, outcome_expand_input]
  congr 1
  funext rows
  rw [← hSingle]
  congr 2
  funext row
  simp only [Answer.value?_bind, value?_evalBinding,
    Answer.value?_pure]
  cases binding? value check row with
  | none => rfl
  | some bound => rfl

/- Whether a predicate holds of a row. -/
def holds?
    (predicate : Expr)
    (row : Row) : Option Bool :=
  (predicate.eval row).value?.bind (fun s =>
    s.booleanValue.toOption)

theorem rows?_select
    (input : Operator)
    (predicate : Expr)
    (context : Row) :
    rows? (.select input predicate) context =
      (rows? input context).bind (fun rows =>
        (rows.mapM (fun row =>
          (holds? predicate row).map (fun holds =>
            if holds then [row] else []))).map
              List.flatten) := by
  rw [rows?, Operator.tape, outcome_expand_input]
  congr 1
  funext rows
  congr 2
  funext row
  simp only [Answer.value?_bind, Answer.value?_ofEvaluation,
    Answer.value?_pure, holds?]
  cases (predicate.eval row).value? with
  | none => rfl
  | some s =>
      simp only [Option.bind_some]
      cases s.booleanValue.toOption with
      | none => rfl
      | some holds => rfl

/- The sort keys of a row, with journals left out. -/
def sortKeys?
    (keys : List SortKey)
    (row : Row) : Option (List (Option Item)) :=
  (SortKey.evalAll keys row).value?

theorem rows?_orderBy
    (input : Operator)
    (keys : List SortKey)
    (context : Row) :
    rows? (.orderBy input keys) context =
      (rows? input context).bind (fun rows =>
        (rows.mapM (fun row =>
          (sortKeys? keys row).map (fun values =>
            (values, row)))).map
          (sortRows (keys.map SortKey.order))) := by
  rw [rows?, Operator.tape, outcome_buffered_input]
  congr 1
  funext rows
  have hKeyed :
      (rows.map (fun row => (do
          let values ← SortKey.evalAll keys row
          return (values, row) :
            Answer (List (Option Item) × Row)))).mapM
          Answer.value? =
        rows.mapM (fun row =>
          (sortKeys? keys row).map (fun values =>
            (values, row))) := by
    rw [List.mapM_map]
    congr 1
    funext row
    simp only [Function.comp_apply, Answer.value?_bind,
      Answer.value?_pure, sortKeys?]
    cases (SortKey.evalAll keys row).value? with
    | none => rfl
    | some values => rfl
  simp only [Answer.value?_bind, Answer.value?_sequence,
    Answer.value?_pure, hKeyed]
  cases rows.mapM (fun row =>
      (sortKeys? keys row).map (fun values =>
        (values, row))) with
  | none => rfl
  | some keyed => rfl

theorem rows?_groupBy
    (input : Operator)
    (keys aggregates : List Slot)
    (context : Row) :
    rows? (.groupBy input keys aggregates) context =
      (rows? input context).bind (fun rows =>
        (groupRows context (keys.map Slot.index)
          (aggregates.map Slot.index) rows).toOption) := by
  rw [rows?, Operator.tape, outcome_buffered_input]
  rfl

theorem rows?_count
    (input : Operator)
    (var : String)
    (context : Row) :
    rows? (.count input var) context =
      (rows? input context).map (Tape.numberFrom 1) := by
  rw [rows?, Operator.tape, Tape.outcome_recorded,
    Tape.outcome_numbered, Tape.outcome_asInput, rows?]

theorem rows?_project
    (input : Operator)
    (width : Nat)
    (keep : List Slot)
    (context : Row) :
    rows? (.project input width keep) context =
      (rows? input context).bind (fun rows =>
        rows.mapM (fun row =>
          (projectRow width keep row).toOption)) := by
  have hSingle (rows : List Row) :
      (rows.mapM (fun row =>
          (projectRow width keep row).toOption.map
            (fun kept => [kept]))).map List.flatten =
        rows.mapM (fun row =>
          (projectRow width keep row).toOption) := by
    induction rows with
    | nil => rfl
    | cons row rest ih =>
        simp only [List.mapM_cons, ← ih]
        cases (projectRow width keep row).toOption with
        | none => rfl
        | some kept =>
            simp only [Option.map_some,
              Option.bind_eq_bind, Option.bind_some]
            cases rest.mapM (fun row =>
              (projectRow width keep row).toOption.map
                (fun kept => [kept])) with
            | none => rfl
            | some rowss => rfl
  rw [rows?, Operator.tape, outcome_expand_input]
  congr 1
  funext rows
  rw [← hSingle]
  congr 2
  funext row
  simp only [Answer.value?_bind, Answer.value?_ofExcept,
    Answer.value?_pure]
  cases (projectRow width keep row).toOption with
  | none => rfl
  | some kept => rfl

/- The keys of right rows, in order. -/
def keys?
    (key : Expr)
    (rows : List Row) : Option (List Sequence) :=
  rows.mapM (fun row => (key.eval row).value?)

/- The rows of a join for a left row, once it is open. -/
def joined
    (filled : Answer (Probe × Array (List Sequence)))
    (leftKey : Expr)
    (comparison : Comparison)
    (leftJoin skipSort : Bool)
    (rightWidth : Nat)
    (row : Row) : Answer (List Row) :=
  match filled.result with
  | .error _ => Answer.fail (.cursor .joinReadBeforeOpen)
  | .ok (probe, others) => do
      let key ← leftKey.eval row
      Answer.ofEvaluation
        (probe.joinRow comparison leftJoin skipSort
          rightWidth others row key)

theorem rows?_join
    (left right : Operator)
    (leftKey rightKey : Expr)
    (comparison : Comparison)
    (leftJoin skipSort : Bool)
    (width rightWidth : Nat)
    (context : Row) :
    rows? (.join left right leftKey rightKey comparison
        leftJoin skipSort width rightWidth) context =
      (rows? left context).bind (fun lefts =>
        (rows? right context).bind (fun rights =>
          (keys? rightKey rights).bind (fun keys =>
            (lefts.mapM (fun row =>
              (leftKey.eval row).value?.bind (fun key =>
                ((Probe.build
                    (JoinStrategy.ofComparison comparison)
                    keys).joinRow comparison leftJoin
                  skipSort rightWidth
                  (rights.map (fun row =>
                    row.drop width)).toArray
                  row key).toOption))).map
              List.flatten))) := by
  let lefts := (left.tape context).asInput .left
  let rights := (right.tape context).asInput .right
  have hLefts : lefts.Settles :=
    (tape_settles left context).asInput .left
  have hRights : rights.Settles :=
    (tape_settles right context).asInput .right
  have hLeft : rows? left context = lefts.outcome := by
    simp [lefts, rows?]
  have hRight : rows? right context = rights.outcome := by
    simp [rights, rows?]
  let others (rows : List Row) : Array (List Sequence) :=
    (rows.map (fun row => row.drop width)).toArray
  let probe (keys : List Sequence) : Probe :=
    Probe.build (JoinStrategy.ofComparison comparison) keys
  let reading : Answer (List Row) := do
    lefts.opening
    rights.readAll
  let filled : Answer (Probe × Array (List Sequence)) := do
    let rows ← reading
    rights.closing
    let keys ← Answer.sequence
      (rows.map (Expr.eval rightKey))
    Answer.count
      (.joined (JoinStrategy.ofComparison comparison))
    return (probe keys, others rows)
  have hFilled :
      filled.value? =
        lefts.opening.value?.bind (fun _ =>
          rights.outcome.bind (fun rows =>
            (keys? rightKey rows).map (fun keys =>
              (probe keys, others rows)))) := by
    simp only [filled, reading, Answer.value?_bind,
      Tape.value?_readAll, hRights.closing,
      Answer.value?_sequence, List.mapM_map,
      Answer.value?_count, Answer.value?_pure,
      Option.bind_some, Option.bind_assoc]
    congr 1
    funext u
    congr 1
    funext rows
    exact Option.map_eq_bind.symm
  let each : Row → Answer (List Row) :=
    joined filled leftKey comparison leftJoin skipSort
      rightWidth
  have hOutcome :
      rows? (.join left right leftKey rightKey comparison
          leftJoin skipSort width rightWidth) context =
        filled.value?.bind (fun _ =>
          (lefts.expand each).rows.mapM Answer.value?) := by
    rw [rows?, Operator.tape, Tape.outcome_recorded]
    rw [Tape.outcome_of_settles]
    · simp only [Answer.value?_bind', Option.bind_assoc]
      rfl
    · refine ⟨hLefts.ending, ?_⟩
      dsimp only
      split
      · rw [Answer.value?_both]
        rw [show (Tape.asInput Side.left
          (left.tape context)).closing.value? = some () from
            hLefts.closing]
        exact hRights.closing
      · exact hLefts.closing
  rw [hOutcome, hFilled, hLeft, hRight,
    Tape.outcome_of_settles hLefts]
  cases hOpening : lefts.opening.value? with
  | none => rfl
  | some u =>
      simp only [Option.bind_some]
      cases hReading : rights.outcome with
      | none =>
          cases lefts.rows.mapM Answer.value? with
          | none => rfl
          | some rows => rfl
      | some rows =>
          simp only [Option.bind_some]
          cases hKeys : keys? rightKey rows with
          | none =>
              cases lefts.rows.mapM Answer.value? with
              | none => rfl
              | some rows => rfl
          | some keys =>
              have hResult :
                  filled.result =
                    .ok (probe keys, others rows) := by
                apply Answer.result_eq_ok_of_value?
                simp [hFilled, hOpening, hReading, hKeys]
              have hEach (row : Row) :
                  (each row).value? =
                    (leftKey.eval row).value?.bind
                      (fun key =>
                        ((probe keys).joinRow comparison
                          leftJoin skipSort rightWidth
                          (others rows) row
                          key).toOption) := by
                simp only [each, joined, hResult,
                  Answer.value?_bind,
                  Answer.value?_ofEvaluation]
              have hExpand :=
                Tape.outcome_expand each lefts
              rw [Tape.outcome_of_settles
                  (hLefts.expand each),
                Tape.outcome_of_settles hLefts] at hExpand
              simp only [Tape.expand, hOpening,
                Option.bind_some, hEach] at hExpand
              simpa [Tape.expand] using hExpand

end Operator

end Flwor

------------------------------------------------------------
-- Values of Expressions
------------------------------------------------------------

namespace Flwor

theorem value?_atMostOne
    (s : Sequence) :
    (atMostOne s).value? = s.atMostOne? := by
  rw [atMostOne, Answer.value?_ofEvaluation]
  rfl

theorem value?_rangeBound
    (s : Sequence) :
    (s.atMostOne?.bind (fun item =>
      (rangeBound item).value?)) = s.bound? := by
  unfold Sequence.bound?
  congr 1
  funext item
  rcases item with _ | item
  · rfl
  · cases item <;> rfl

namespace Expr

/- The value of an expression on a row. -/
def value?
    (e : Expr)
    (row : Row) : Option Sequence :=
  (e.eval row).value?

theorem value?_variable
    (slot : Slot)
    (row : Row) :
    (Expr.variable slot).value? row = row[slot.index]? := by
  rw [value?, Expr.eval, Answer.value?_ofExcept, Slot.read]
  cases row[slot.index]? with
  | none => rfl
  | some value => rfl

theorem value?_evalAll
    (es : List Expr)
    (row : Row) :
    (evalAll es row).value? =
      es.mapM (fun e : Expr => e.value? row) := by
  induction es with
  | nil => rfl
  | cons e rest ih =>
      simp only [evalAll, Answer.value?_bind,
        Answer.value?_pure, ih, List.mapM_cons, value?]
      rfl

theorem value?_concat
    (parts : List Expr)
    (row : Row) :
    (Expr.concat parts).value? row =
      (parts.mapM (fun e : Expr => e.value? row)).map
        List.flatten := by
  rw [value?, Expr.eval, Answer.value?_bind,
    value?_evalAll]
  cases parts.mapM (fun e : Expr => e.value? row) with
  | none => rfl
  | some values => rfl

theorem value?_range
    (low high : Expr)
    (row : Row) :
    (Expr.range low high).value? row =
      (low.value? row).bind (fun s =>
        (high.value? row).bind (fun t =>
          Sequence.range? s t)) := by
  simp only [value?, Expr.eval, Answer.value?_bind,
    value?_atMostOne]
  cases (low.eval row).value? with
  | none => rfl
  | some s =>
      simp only [Option.bind_some, Sequence.range?,
        ← value?_rangeBound]
      cases (high.eval row).value? with
      | none => simp
      | some t =>
          simp only [Option.bind_some, Option.bind_assoc,
            Option.bind_eq_bind]
          refine Option.bind_congr (fun item _ => ?_)
          refine Option.bind_congr (fun a _ => ?_)
          refine Option.bind_congr (fun item' _ => ?_)
          refine Option.bind_congr (fun b _ => ?_)
          cases a <;> cases b <;> rfl

theorem value?_arithmetic
    (op : ArithmeticOp)
    (left right : Expr)
    (row : Row) :
    (Expr.arithmetic op left right).value? row =
      (left.value? row).bind (fun s =>
        (right.value? row).bind (fun t =>
          Sequence.arithmetic? op s t)) := by
  simp only [value?, Expr.eval, Answer.value?_bind,
    value?_atMostOne]
  cases (left.eval row).value? with
  | none => rfl
  | some s =>
      simp only [Option.bind_some, Sequence.arithmetic?]
      cases (right.eval row).value? with
      | none => simp
      | some t =>
          simp only [Option.bind_some, Option.bind_eq_bind]
          refine Option.bind_congr (fun a _ => ?_)
          refine Option.bind_congr (fun b _ => ?_)
          rcases a with _ | a
          · rfl
          · rcases b with _ | b
            · rfl
            · simp only [Answer.value?_bind,
                Answer.value?_ofEvaluation,
                Answer.value?_pure]
              cases op.apply a b <;> rfl

theorem value?_comparison
    (c : Comparison)
    (left right : Expr)
    (row : Row) :
    (Expr.comparison c left right).value? row =
      (left.value? row).bind (fun s =>
        (right.value? row).bind (fun t =>
          c.value? s t)) := by
  simp only [value?, Expr.eval, Answer.value?_bind,
    Answer.value?_ofEvaluation, Answer.value?_pure]
  refine Option.bind_congr (fun s _ => ?_)
  refine Option.bind_congr (fun t _ => ?_)
  rw [Comparison.value?]
  cases c.apply s t <;> rfl

/- The value of one of two branches. -/
theorem value?_cond
    (condition yes no : Expr)
    (row : Row) :
    (Expr.cond condition yes no).value? row =
      (condition.value? row).bind (fun s =>
        s.truth?.bind (fun holds =>
          if holds then yes.value? row
          else no.value? row)) := by
  simp only [value?, Expr.eval, Answer.value?_bind,
    Answer.value?_ofEvaluation, Sequence.truth?]
  refine Option.bind_congr (fun s _ => ?_)
  refine Option.bind_congr (fun holds _ => ?_)
  cases holds <;> rfl

theorem value?_and
    (left right : Expr)
    (row : Row) :
    (Expr.and left right).value? row =
      (left.value? row).bind (fun s =>
        s.truth?.bind (fun holds =>
          if holds then
            (right.value? row).bind (fun t =>
              t.truth?.map (fun b => [.bool b]))
          else some [.bool false])) := by
  simp only [value?, Expr.eval, Answer.value?_bind,
    Answer.value?_ofEvaluation, Sequence.truth?]
  refine Option.bind_congr (fun s _ => ?_)
  refine Option.bind_congr (fun holds _ => ?_)
  cases holds with
  | false => rfl
  | true =>
      simp only [if_true, Answer.value?_bind,
        Answer.value?_ofEvaluation, Answer.value?_pure]
      refine Option.bind_congr (fun t _ => ?_)
      cases t.booleanValue <;> rfl

theorem value?_or
    (left right : Expr)
    (row : Row) :
    (Expr.or left right).value? row =
      (left.value? row).bind (fun s =>
        s.truth?.bind (fun holds =>
          if holds then some [.bool true]
          else
            (right.value? row).bind (fun t =>
              t.truth?.map (fun b => [.bool b])))) := by
  simp only [value?, Expr.eval, Answer.value?_bind,
    Answer.value?_ofEvaluation, Sequence.truth?]
  refine Option.bind_congr (fun s _ => ?_)
  refine Option.bind_congr (fun holds _ => ?_)
  cases holds with
  | true => rfl
  | false =>
      simp only [Bool.false_eq_true, if_false,
        Answer.value?_bind, Answer.value?_ofEvaluation,
        Answer.value?_pure]
      refine Option.bind_congr (fun t _ => ?_)
      cases t.booleanValue <;> rfl

theorem value?_call
    (f : QueryFunction)
    (arguments : List Expr)
    (row : Row) :
    (Expr.call f arguments).value? row =
      (arguments.mapM (fun e : Expr =>
        e.value? row)).bind (fun values => (f.apply values).toOption) := by
  simp only [value?, Expr.eval, Answer.value?_bind,
    Answer.value?_ofEvaluation]
  rw [value?_evalAll]
  rfl

/- The value of a nested pipeline. -/
theorem value?_pipeline
    (tail : Operator)
    (result : Expr)
    (row : Row) :
    (Expr.pipeline tail result).value? row =
      (tail.rows? row).bind (fun rows =>
        (rows.mapM result.value?).map List.flatten) := by
  rw [value?, Expr.eval, Answer.value?_relocate]
  exact Cursor.value?_forEach_collect
    (Operator.tape_settles tail row) result.eval

end Expr

end Flwor
