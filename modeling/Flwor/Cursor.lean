import Flwor.Answer
import Flwor.Row

/-
  This file defines cursors over rows.

  A tape says all that a raw cursor will answer: to being
  opened, to each call for a row, and to being closed.  A
  cursor is a tape under the protocol of a life cycle: rows
  can be read only between opening and closing, opening is
  possible once, and closing is always possible.

  Key definitions include:
    * `Tape`
    * `Tape.advance`
    * `Tape.exhausted`
    * `Tape.expand`
    * `Tape.numbered`
    * `Tape.buffered`
    * `Cursor`
    * `Cursor.openUp`, `Cursor.next`, `Cursor.close`
    * `Cursor.forEach`
-/

------------------------------------------------------------
-- Tapes
------------------------------------------------------------

namespace Flwor

/-
  The answers of a raw cursor: to being opened, to the calls
  for rows, to the first call after the last row, to each
  later one, and to being closed.
-/
structure Tape where
  opening : Answer Unit
  rows : List (Answer Row)
  ending : Answer Unit
  spent : Answer Unit
  closing : Answer Unit

namespace Tape

/- Answer a call for a row. -/
def advance
    (tape : Tape) : Answer (Option Row) × Tape :=
  match tape.rows with
  | a :: rest =>
      (a.bind (fun row => Answer.pure (some row)),
       { tape with rows := rest })
  | [] =>
      (tape.ending.bind (fun _ => Answer.pure none),
       { tape with ending := tape.spent })

/- The tape with nothing left to read. -/
def exhausted
    (tape : Tape) : Tape :=
  { tape with rows := [], ending := tape.spent }

/- The tape that yields rows without further effects. -/
def ofRows
    (rows : List Row) : Tape :=
  { opening := Answer.pure ()
    rows := rows.map Answer.pure
    ending := Answer.pure ()
    spent := Answer.pure ()
    closing := Answer.pure () }

/- Write each call that reaches the cursor to the journal. -/
def recorded
    (tape : Tape) : Tape :=
  let called (c : Call) : Journal := [.called c]
  { opening := tape.opening.after (called .opened)
    rows := tape.rows.map (Answer.after (called .advanced))
    ending := tape.ending.after (called .ended)
    spent := tape.spent.after (called .ended)
    closing := tape.closing.after (called .closed) }

/- The tape as an input of another cursor. -/
def asInput
    (side : Side)
    (tape : Tape) : Tape :=
  { opening := tape.opening.relocate (.input side)
    rows :=
      tape.rows.map (Answer.relocate (.input side))
    ending := tape.ending.relocate (.input side)
    spent := tape.spent.relocate (.input side)
    closing := tape.closing.relocate (.input side) }

/- Read all rows of a freshly opened tape. -/
def readAll
    (tape : Tape) : Answer (List Row) := do
  tape.opening
  let rows ← Answer.sequence tape.rows
  tape.ending
  return rows

end Tape

end Flwor

------------------------------------------------------------
-- Tapes over Tapes
------------------------------------------------------------

namespace Flwor

namespace Tape

/-
  Replace each row by any number of rows.  What happens on
  the way to a row that is replaced by none is told together
  with the next answer, or with the end.
-/
def expandRows
    (f : Row → Answer (List Row)) :
    Journal → List (Answer Row) →
      List (Answer Row) × Journal
  | carry, [] => ([], carry)
  | carry, a :: rest =>
      let b := (a.bind f).after carry
      match b.result with
      | .error e =>
          let (answers, last) := expandRows f [] rest
          (⟨b.journal, .error e⟩ :: answers, last)
      | .ok [] => expandRows f b.journal rest
      | .ok (row :: more) =>
          let (answers, last) := expandRows f [] rest
          (⟨b.journal, .ok row⟩
            :: (more.map Answer.pure ++ answers), last)

/- The tape whose rows are replaced one by one. -/
def expand
    (f : Row → Answer (List Row))
    (tape : Tape) : Tape :=
  let (rows, last) := expandRows f [] tape.rows
  { tape with
    rows := rows
    ending := tape.ending.after last }

/- Append the number of each row, from a start on. -/
def numberRows :
    Nat → List (Answer Row) → List (Answer Row)
  | _, [] => []
  | n, a :: rest =>
      match a.result with
      | .error e =>
          ⟨a.journal, .error e⟩ :: numberRows n rest
      | .ok row =>
          ⟨a.journal, .ok (row ++ [[.int n]])⟩
            :: numberRows (n + 1) rest

/- The tape whose rows carry their number, from one on. -/
def numbered
    (tape : Tape) : Tape :=
  { tape with rows := numberRows 1 tape.rows }

/-
  The tape that reads its whole input when it is opened.  An
  input that failed on the way is closed with the tape, a
  completely read one before the tape is open.
-/
def buffered
    (produce : List Row → Answer (List Row))
    (tape : Tape) : Tape :=
  let reading := tape.readAll
  let filled : Answer (List Row) := do
    let rows ← reading
    tape.closing
    produce rows
  { opening := filled.bind (fun _ => Answer.pure ())
    rows :=
      match filled.result with
      | .ok rows => rows.map Answer.pure
      | .error _ => []
    ending := Answer.pure ()
    spent := Answer.pure ()
    closing :=
      if reading.isOk then Answer.pure ()
      else tape.closing }

end Tape

end Flwor

------------------------------------------------------------
-- Life Cycles
------------------------------------------------------------

namespace Flwor

/- The phases of a cursor's life. -/
inductive Phase where
  | created
  | opened
  | closed
deriving DecidableEq, Repr

/- A tape under the protocol of a life cycle. -/
structure Cursor where
  tape : Tape
  phase : Phase

namespace Cursor

/- A cursor before any call. -/
def create
    (tape : Tape) : Cursor :=
  ⟨tape, .created⟩

/-
  Open the cursor.  It counts as open even if that fails, so
  that closing it reaches the tape.
-/
def openUp
    (cursor : Cursor) : Answer Unit × Cursor :=
  match cursor.phase with
  | .created =>
      (cursor.tape.opening, { cursor with phase := .opened })
  | .opened =>
      (Answer.fail (.cursor .openedTwice), cursor)
  | .closed =>
      (Answer.fail (.cursor .openedAfterClose), cursor)

/- Ask for a row. -/
def next
    (cursor : Cursor) : Answer (Option Row) × Cursor :=
  match cursor.phase with
  | .opened =>
      let (answer, tape) := cursor.tape.advance
      (answer, { cursor with tape := tape })
  | .created =>
      (Answer.fail (.cursor .readBeforeOpen), cursor)
  | .closed =>
      (Answer.fail (.cursor .readAfterClose), cursor)

/- Close the cursor. -/
def close
    (cursor : Cursor) : Answer Unit × Cursor :=
  let closed : Cursor :=
    { tape := cursor.tape.exhausted, phase := .closed }
  match cursor.phase with
  | .opened => (cursor.tape.closing, closed)
  | _ => (Answer.pure (), closed)

end Cursor

end Flwor

------------------------------------------------------------
-- Consuming All Rows
------------------------------------------------------------

namespace Flwor

namespace Cursor

variable {σ : Type}

/-
  Hand the rows to a consumer until the end or the first
  failure; the state is the one before the failing row.
-/
def feed
    (each : σ → Row → Answer σ)
    (ending : Answer Unit) :
    σ → List (Answer Row) → σ × Answer Unit
  | state, [] => (state, ending)
  | state, a :: rest =>
      let step := a.bind (each state)
      match step.result with
      | .error e => (state, ⟨step.journal, .error e⟩)
      | .ok state =>
          let (state, answer) := feed each ending state rest
          (state, answer.after step.journal)

/-
  Open the cursor, hand every row to a consumer, and close
  the cursor on every path.  The first failure wins; one of
  closing shows only if all else succeeded.
-/
def forEach
    (each : σ → Row → Answer σ)
    (state : σ)
    (cursor : Cursor) : σ × Answer Unit × Cursor :=
  let (opening, cursor) := cursor.openUp
  let (state, pulled) : σ × Answer Unit :=
    match opening.result with
    | .error e => (state, ⟨opening.journal, .error e⟩)
    | .ok () =>
        let (state, answer) :=
          feed each cursor.tape.ending state
            cursor.tape.rows
        (state, answer.after opening.journal)
  let (closing, cursor) := cursor.close
  (state, pulled.both closing, cursor)

end Cursor

end Flwor
