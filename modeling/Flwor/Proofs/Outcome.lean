import Flwor.Cursor

/-
  What evaluations come to, with their journals left out.

  `Answer.value?` is the value of an answer and
  `Tape.outcome` are the rows of a tape that can be read to
  its end.  Each way of building a tape has an equation for
  its outcome, and consuming a cursor is a map over the
  outcome of its tape.

  Key definitions include:
    * `Answer.value?`
    * `Tape.outcome`
    * `Tape.Settles`

  Key theorems include:
    * `Tape.outcome_expand`
    * `Tape.outcome_numbered`
    * `Tape.outcome_buffered`
    * `Cursor.value?_forEach_collect`
-/

------------------------------------------------------------
-- Values of Answers
------------------------------------------------------------

namespace Flwor

namespace Answer

variable {α β : Type}

/- The value of an answer, if it has one. -/
def value?
    (a : Answer α) : Option α :=
  a.result.toOption

@[simp] theorem value?_mk_ok
    (journal : Journal)
    (x : α) :
    (⟨journal, .ok x⟩ : Answer α).value? = some x :=
  rfl

@[simp] theorem value?_mk_error
    (journal : Journal)
    (e : Failure) :
    (⟨journal, .error e⟩ : Answer α).value? = none :=
  rfl

@[simp] theorem value?_pure
    (x : α) :
    (Pure.pure x : Answer α).value? = some x :=
  rfl

@[simp] theorem value?_pure'
    (x : α) :
    (Answer.pure x : Answer α).value? = some x :=
  rfl

@[simp] theorem value?_fail
    (e : Failure) :
    (Answer.fail e : Answer α).value? = none :=
  rfl

@[simp] theorem value?_bind'
    (a : Answer α)
    (f : α → Answer β) :
    (Answer.bind a f).value? =
      a.value?.bind (fun x => (f x).value?) := by
  rcases a with ⟨journal, result⟩
  cases result with
  | error e => rfl
  | ok x => rfl

@[simp] theorem value?_bind
    (a : Answer α)
    (f : α → Answer β) :
    (a >>= f).value? =
      a.value?.bind (fun x => (f x).value?) :=
  value?_bind' a f

@[simp] theorem value?_map'
    (f : α → β)
    (a : Answer α) :
    (Answer.map f a).value? = a.value?.map f := by
  rcases a with ⟨journal, result⟩
  cases result with
  | error e => rfl
  | ok x => rfl

@[simp] theorem value?_map
    (f : α → β)
    (a : Answer α) :
    (f <$> a).value? = a.value?.map f :=
  value?_map' f a

@[simp] theorem value?_ofExcept
    (result : Except Failure α) :
    (Answer.ofExcept result).value? = result.toOption :=
  rfl

@[simp] theorem value?_ofEvaluation
    (result : Except EvaluationError α) :
    (Answer.ofEvaluation result).value? =
      result.toOption := by
  cases result with
  | error e => rfl
  | ok x => rfl

@[simp] theorem value?_note
    (e : Event) :
    (Answer.note e).value? = some () :=
  rfl

@[simp] theorem value?_count
    (c : Counter) :
    (Answer.count c).value? = some () :=
  rfl

@[simp] theorem value?_relocate
    (wrap : Journal → Event)
    (a : Answer α) :
    (a.relocate wrap).value? = a.value? :=
  rfl

@[simp] theorem value?_after
    (journal : Journal)
    (a : Answer α) :
    (a.after journal).value? = a.value? :=
  rfl

@[simp] theorem value?_both
    (a b : Answer Unit) :
    (a.both b).value? = a.value?.bind (fun _ => b.value?) := by
  rcases a with ⟨journal, result⟩
  cases result with
  | error e => rfl
  | ok x => rfl

@[simp] theorem value?_sequence
    (as : List (Answer α)) :
    (Answer.sequence as).value? = as.mapM value? := by
  induction as with
  | nil => rfl
  | cons a rest ih =>
      simp only [Answer.sequence, value?_bind', value?_map',
        ih, List.mapM_cons]
      cases a.value? with
      | none => rfl
      | some x =>
          cases rest.mapM value? with
          | none => rfl
          | some xs => rfl

/- The result of an answer that has a value. -/
theorem result_eq_ok_of_value?
    {a : Answer α}
    {x : α}
    (hValue : a.value? = some x) :
    a.result = .ok x := by
  rcases a with ⟨journal, result⟩
  cases result with
  | error e => simp at hValue
  | ok y => simpa using hValue

end Answer

end Flwor

------------------------------------------------------------
-- Rows of Tapes
------------------------------------------------------------

namespace Flwor

namespace Tape

/- The rows of a tape that can be read to its end. -/
def outcome
    (tape : Tape) : Option (List Row) := do
  let _ ← tape.opening.value?
  let rows ← tape.rows.mapM Answer.value?
  let _ ← tape.ending.value?
  return rows

/- A tape that fails neither at its end nor at closing. -/
structure Settles
    (tape : Tape) : Prop where
  ending : tape.ending.value? = some ()
  closing : tape.closing.value? = some ()

/- The outcome of a tape whose end does not fail. -/
theorem outcome_of_settles
    {tape : Tape}
    (hSettles : tape.Settles) :
    tape.outcome =
      tape.opening.value?.bind (fun _ =>
        tape.rows.mapM Answer.value?) := by
  unfold outcome
  rw [hSettles.ending]
  cases tape.opening.value? with
  | none => rfl
  | some u =>
      cases tape.rows.mapM Answer.value? with
      | none => rfl
      | some rows => rfl

@[simp] theorem value?_readAll
    (tape : Tape) :
    tape.readAll.value? = tape.outcome := by
  simp [readAll, outcome, bind]

@[simp] theorem outcome_ofRows
    (rows : List Row) :
    (ofRows rows).outcome = some rows := by
  have hRows :
      (rows.map Answer.pure).mapM Answer.value? =
        some rows := by
    induction rows with
    | nil => rfl
    | cons row rest ih =>
        simp only [List.map_cons, List.mapM_cons, ih]
        rfl
  simp [outcome, ofRows, hRows]

@[simp] theorem outcome_recorded
    (tape : Tape) :
    tape.recorded.outcome = tape.outcome := by
  simp [outcome, recorded, List.mapM_map,
    Function.comp_def]

@[simp] theorem outcome_asInput
    (side : Side)
    (tape : Tape) :
    (tape.asInput side).outcome = tape.outcome := by
  simp [outcome, asInput, List.mapM_map,
    Function.comp_def]

theorem settles_ofRows
    (rows : List Row) :
    (ofRows rows).Settles :=
  ⟨rfl, rfl⟩

theorem Settles.recorded
    {tape : Tape}
    (hSettles : tape.Settles) :
    tape.recorded.Settles :=
  ⟨hSettles.ending, hSettles.closing⟩

theorem Settles.asInput
    {tape : Tape}
    (hSettles : tape.Settles)
    (side : Side) :
    (tape.asInput side).Settles :=
  ⟨hSettles.ending, hSettles.closing⟩

end Tape

end Flwor

------------------------------------------------------------
-- Tapes over Tapes
------------------------------------------------------------

namespace Flwor

/- Two computations that do the same with each element. -/
theorem mapM_congr_left
    {α β : Type}
    {f g : α → Option β}
    {as : List α}
    (hSame : ∀ a ∈ as, f a = g a) :
    as.mapM f = as.mapM g := by
  induction as with
  | nil => rfl
  | cons a rest ih =>
      rw [List.forall_mem_cons] at hSame
      rw [List.mapM_cons, List.mapM_cons, hSame.1,
        ih hSame.2]

/- Two passes over a list of partial steps are one. -/
theorem mapM_option_bind
    {α β γ : Type}
    (g : α → Option β)
    (f : β → Option γ)
    (as : List α) :
    as.mapM (fun a => (g a).bind f) =
      (as.mapM g).bind (fun bs => bs.mapM f) := by
  induction as with
  | nil => rfl
  | cons a rest ih =>
      simp only [List.mapM_cons, ih]
      cases g a with
      | none => rfl
      | some b =>
          cases rest.mapM g with
          | none => cases hf : f b <;> simp [hf]
          | some bs => simp

namespace Tape

/-
  Replacing rows keeps the outcome of each replacement, in
  order; the journal that is carried along does not matter.
-/
theorem mapM_value?_expandRows
    (f : Row → Answer (List Row))
    (carry : Journal)
    (answers : List (Answer Row)) :
    (expandRows f carry answers).1.mapM Answer.value? =
      (answers.mapM (fun a : Answer Row =>
        (a.bind f).value?)).map
        List.flatten := by
  induction answers generalizing carry with
  | nil => rfl
  | cons a rest ih =>
      have hValue :
          ((a.bind f).after carry).value? =
            (a.bind f).value? :=
        rfl
      simp only [expandRows, List.mapM_cons, ← hValue]
      cases hResult : ((a.bind f).after carry).result with
      | error e =>
          have hNone :
              ((a.bind f).after carry).value? = none := by
            simp [Answer.value?, hResult, Except.toOption]
          simp [hNone]
      | ok rows =>
          have hSome :
              ((a.bind f).after carry).value? =
                some rows := by
            simp [Answer.value?, hResult, Except.toOption]
          rw [hSome]
          cases rows with
          | nil =>
              simp only [ih]
              cases rest.mapM (fun a : Answer Row =>
                (a.bind f).value?) with
              | none => rfl
              | some rowss => rfl
          | cons row more =>
              have hMore :
                  (more.map Answer.pure).mapM
                      Answer.value? =
                    some more := by
                simpa [outcome, ofRows] using
                  outcome_ofRows more
              simp only [List.mapM_cons, List.mapM_append,
                hMore, ih, Answer.value?_mk_ok]
              cases rest.mapM (fun a : Answer Row =>
                (a.bind f).value?) with
              | none => rfl
              | some rowss => rfl

/- Replacing the rows of a tape one by one. -/
theorem outcome_expand
    (f : Row → Answer (List Row))
    (tape : Tape) :
    (tape.expand f).outcome =
      tape.outcome.bind (fun rows =>
        (rows.mapM (fun row => (f row).value?)).map
          List.flatten) := by
  have hRows :
      tape.rows.mapM (fun a : Answer Row =>
          (a.bind f).value?) =
        (tape.rows.mapM Answer.value?).bind (fun rows =>
          rows.mapM (fun row => (f row).value?)) := by
    simp only [Answer.value?_bind']
    exact mapM_option_bind Answer.value?
      (fun row => (f row).value?) tape.rows
  simp only [outcome, expand, mapM_value?_expandRows,
    hRows, Answer.value?_after]
  cases tape.opening.value? with
  | none => rfl
  | some u =>
      cases tape.rows.mapM Answer.value? with
      | none => rfl
      | some rows =>
          cases tape.ending.value? with
          | none => simp
          | some v => simp

theorem Settles.expand
    {tape : Tape}
    (hSettles : tape.Settles)
    (f : Row → Answer (List Row)) :
    (tape.expand f).Settles :=
  ⟨hSettles.ending, hSettles.closing⟩

/- Append the number of each row, from a start on. -/
def numberFrom
    (n : Nat)
    (rows : List Row) : List Row :=
  (rows.zipIdx n).map (fun p => p.1 ++ [[.int p.2]])

theorem mapM_value?_numberRows
    (n : Nat)
    (answers : List (Answer Row)) :
    (numberRows n answers).mapM Answer.value? =
      (answers.mapM Answer.value?).map (numberFrom n) := by
  induction answers generalizing n with
  | nil => rfl
  | cons a rest ih =>
      rcases a with ⟨journal, result⟩
      cases result with
      | error e => simp [numberRows]
      | ok row =>
          simp only [numberRows, List.mapM_cons,
            Answer.value?_mk_ok, ih]
          cases rest.mapM Answer.value? with
          | none => rfl
          | some rows => rfl

/- Numbering the rows of a tape. -/
theorem outcome_numbered
    (tape : Tape) :
    tape.numbered.outcome =
      tape.outcome.map (numberFrom 1) := by
  simp only [outcome, numbered, mapM_value?_numberRows]
  cases tape.opening.value? with
  | none => rfl
  | some u =>
      cases tape.rows.mapM Answer.value? with
      | none => rfl
      | some rows =>
          cases tape.ending.value? with
          | none => rfl
          | some v => rfl

theorem Settles.numbered
    {tape : Tape}
    (hSettles : tape.Settles) :
    tape.numbered.Settles :=
  ⟨hSettles.ending, hSettles.closing⟩

/- Reading a whole tape before producing rows. -/
theorem outcome_buffered
    {tape : Tape}
    (hSettles : tape.Settles)
    (produce : List Row → Answer (List Row)) :
    (tape.buffered produce).outcome =
      tape.outcome.bind (fun rows =>
        (produce rows).value?) := by
  let filled : Answer (List Row) := do
    let rows ← tape.readAll
    tape.closing
    produce rows
  have hFilled :
      filled.value? =
        tape.outcome.bind (fun rows =>
          (produce rows).value?) := by
    simp [filled, hSettles.closing]
  rw [← hFilled]
  change
    (filled.bind (fun _ => Answer.pure ())).value?.bind
        (fun _ =>
          (List.mapM Answer.value? _).bind
            (fun rows => some rows)) =
      filled.value?
  cases hValue : filled.value? with
  | none => simp [hValue]
  | some rows =>
      have hResult :=
        Answer.result_eq_ok_of_value? hValue
      have hProduced :
          (tape.buffered produce).rows =
            rows.map Answer.pure := by
        simp only [filled] at hResult
        simp only [buffered, hResult]
      have hRows :
          (rows.map Answer.pure).mapM Answer.value? =
            some rows := by
        simpa [outcome, ofRows] using outcome_ofRows rows
      rw [hProduced, hRows]
      simp [hValue]

theorem Settles.buffered
    {tape : Tape}
    (hSettles : tape.Settles)
    (produce : List Row → Answer (List Row)) :
    (tape.buffered produce).Settles := by
  refine ⟨rfl, ?_⟩
  unfold Tape.buffered
  by_cases hOk : tape.readAll.isOk
  · simp [hOk]
  · simpa [hOk] using hSettles.closing

end Tape

end Flwor

------------------------------------------------------------
-- Consumed Cursors
------------------------------------------------------------

namespace Flwor

namespace Cursor

variable {σ : Type}

/-
  Feeding a consumer folds it over the rows: the state is
  that of the fold wherever the answer has a value.
-/
theorem value?_feed
    (each : σ → Row → Answer σ)
    {ending : Answer Unit}
    (hEnding : ending.value? = some ())
    (answers : List (Answer Row))
    (state : σ) :
    (feed each ending state answers).2.value?.map
        (fun _ => (feed each ending state answers).1) =
      (answers.mapM Answer.value?).bind (fun rows =>
        rows.foldlM (fun s row => (each s row).value?)
          state) := by
  induction answers generalizing state with
  | nil => simp [feed, hEnding]
  | cons a rest ih =>
      have hStep :
          (a.bind (each state)).value? =
            a.value?.bind (fun row =>
              (each state row).value?) :=
        Answer.value?_bind' a (each state)
      simp only [feed, List.mapM_cons]
      cases hResult : (a.bind (each state)).result with
      | error e =>
          have hNone :
              (a.bind (each state)).value? = none := by
            simp [Answer.value?, hResult, Except.toOption]
          rw [hStep] at hNone
          cases hValue : a.value? with
          | none => simp
          | some row =>
              have hEach : (each state row).value? = none := by
                simpa [hValue] using hNone
              cases rest.mapM Answer.value? with
              | none => simp
              | some rows => simp [hEach]
      | ok next =>
          have hSome :
              (a.bind (each state)).value? = some next := by
            simp [Answer.value?, hResult, Except.toOption]
          rw [hStep] at hSome
          cases hValue : a.value? with
          | none => simp [hValue] at hSome
          | some row =>
              have hEach :
                  (each state row).value? = some next := by
                simpa [hValue] using hSome
              simp only [Answer.value?_after, ih]
              cases rest.mapM Answer.value? with
              | none => simp
              | some rows => simp [hEach]

/- Folding a collector gathers the values in reverse. -/
theorem foldlM_collect
    {α β : Type}
    (f : α → Option β)
    (as : List α)
    (bs : List β) :
    as.foldlM (fun values a =>
        (f a).map (fun value => value :: values)) bs =
      (as.mapM f).map (fun values =>
        values.reverse ++ bs) := by
  induction as generalizing bs with
  | nil => rfl
  | cons a rest ih =>
      simp only [List.foldlM_cons, List.mapM_cons]
      cases f a with
      | none => rfl
      | some b =>
          simp only [Option.map_some, Option.bind_eq_bind,
            Option.bind_some, ih]
          cases rest.mapM f with
          | none => rfl
          | some values => simp

/-
  The values of an expression over the rows of a cursor,
  gathered while the cursor is opened, read and closed.
-/
theorem value?_forEach_collect
    {tape : Tape}
    (hSettles : tape.Settles)
    (f : Row → Answer Sequence) :
    let each (values : List Sequence) (row : Row) :
        Answer (List Sequence) := do
      Answer.count .row
      let value ← f row
      return value :: values
    let consumed := (create tape).forEach each []
    (consumed.2.1.bind (fun _ =>
        Answer.pure consumed.1.reverse.flatten)).value? =
      tape.outcome.bind (fun rows =>
        (rows.mapM (fun row => (f row).value?)).map
          List.flatten) := by
  intro each consumed
  have hEach :
      (fun values row => (each values row).value?) =
        fun values row =>
          (f row).value?.map (fun value =>
            value :: values) := by
    funext values row
    cases hValue : (f row).value? with
    | none => simp [each, hValue]
    | some value => simp [each, hValue]
  have hFeed := value?_feed each hSettles.ending tape.rows []
  rw [hEach] at hFeed
  simp only [foldlM_collect, List.append_nil] at hFeed
  rw [Tape.outcome_of_settles hSettles]
  cases hOpening : tape.opening.result with
  | error e =>
      have hNone : tape.opening.value? = none := by
        simp [Answer.value?, hOpening, Except.toOption]
      simp [consumed, forEach, create, openUp, hOpening,
        hNone]
  | ok u =>
      have hSome : tape.opening.value? = some u := by
        simp [Answer.value?, hOpening, Except.toOption]
      simp only [consumed, forEach, create, openUp, close,
        hOpening, hSome, Answer.value?_bind',
        Answer.value?_both, Answer.value?_after,
        hSettles.closing, Answer.value?_pure',
        Option.bind_some]
      generalize feed each tape.ending [] tape.rows = fed
        at hFeed
      rcases fed with ⟨values, answer⟩
      cases hRows : tape.rows.mapM Answer.value? with
      | none =>
          simp only [hRows, Option.bind_none,
            Option.map_eq_none_iff] at hFeed
          simp [hFeed]
      | some rows =>
          simp only [hRows, Option.bind_some] at hFeed ⊢
          cases hValues :
              rows.mapM (fun row => (f row).value?) with
          | none =>
              simp only [hValues, Option.map_none,
                Option.map_eq_none_iff] at hFeed
              simp [hFeed]
          | some found =>
              simp only [hValues, Option.map_some,
                Option.map_eq_some_iff] at hFeed
              rcases hFeed with ⟨v, hAnswer, hState⟩
              simp [hAnswer, hState]

end Cursor

end Flwor
