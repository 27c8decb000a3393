import Flwor.Item

/-
  This file defines the journal of an evaluation: what was
  counted, which calls reached a cursor, and what happened
  inside of its inputs and of nested pipelines.

  Key definitions include:
    * `JoinStrategy`
    * `Counter`
    * `Call`
    * `Event`
    * `Journal`
    * `Journal.calls`
    * `Tally`
    * `Journal.tally`
-/

------------------------------------------------------------
-- Events
------------------------------------------------------------

namespace Flwor

/- How a join finds the right rows for a left key. -/
inductive JoinStrategy where
  | hash
  | sortMerge
  | nestedLoop
deriving DecidableEq, Repr

namespace JoinStrategy

/- The strategy for a comparison. -/
def ofComparison : Comparison → JoinStrategy
  | .general .eq => .hash
  | .general .lt => .sortMerge
  | .general .le => .sortMerge
  | .general .gt => .sortMerge
  | .general .ge => .sortMerge
  | _ => .nestedLoop

/- The written name of a strategy. -/
def name : JoinStrategy → String
  | .hash => "hash"
  | .sortMerge => "sort-merge"
  | .nestedLoop => "nested-loop"

end JoinStrategy

/- What an evaluation counts. -/
inductive Counter where
  | letEvaluated
  | letSkipped
  | joined (strategy : JoinStrategy)
  | row
deriving DecidableEq, Repr

/-
  A call that reached a cursor.  A call for a row either
  takes one or finds the end.
-/
inductive Call where
  | opened
  | advanced
  | ended
  | closed
deriving DecidableEq, Repr

/- One of the inputs of an operator. -/
inductive Side where
  | left
  | right
deriving DecidableEq, Repr

/- One entry of a journal. -/
inductive Event where
  | counted (counter : Counter)
  | called (call : Call)
  | input
      (side : Side)
      (events : List Event)
  | nested (events : List Event)

/- What happened, in order. -/
abbrev Journal :=
  List Event

namespace Journal

/- The calls that reached the cursor itself. -/
def calls
    (journal : Journal) : List Call :=
  journal.filterMap (fun e =>
    match e with
    | .called c => some c
    | _ => none)

end Journal

end Flwor

------------------------------------------------------------
-- Tallies
------------------------------------------------------------

namespace Flwor

/- The counters of an evaluation. -/
structure Tally where
  letEvaluations : Nat
  skippedLets : Nat
  hashJoins : Nat
  sortMergeJoins : Nat
  nestedLoopJoins : Nat
  rows : Nat
deriving DecidableEq, Repr

namespace Tally

/- Nothing counted. -/
def zero : Tally :=
  ⟨0, 0, 0, 0, 0, 0⟩

/- Count both. -/
def add
    (a b : Tally) : Tally :=
  { letEvaluations := a.letEvaluations + b.letEvaluations
    skippedLets := a.skippedLets + b.skippedLets
    hashJoins := a.hashJoins + b.hashJoins
    sortMergeJoins := a.sortMergeJoins + b.sortMergeJoins
    nestedLoopJoins :=
      a.nestedLoopJoins + b.nestedLoopJoins
    rows := a.rows + b.rows }

/- Count one thing. -/
def one : Counter → Tally
  | .letEvaluated => { zero with letEvaluations := 1 }
  | .letSkipped => { zero with skippedLets := 1 }
  | .joined .hash => { zero with hashJoins := 1 }
  | .joined .sortMerge => { zero with sortMergeJoins := 1 }
  | .joined .nestedLoop => { zero with nestedLoopJoins := 1 }
  | .row => { zero with rows := 1 }

end Tally

namespace Event

mutual

/- What an event counts, inside of inputs and runs too. -/
def tally : Event → Tally
  | .counted c => Tally.one c
  | .called _ => Tally.zero
  | .input _ events => tallyAll events
  | .nested events => tallyAll events

/- What several events count. -/
def tallyAll : List Event → Tally
  | [] => Tally.zero
  | e :: rest => (tally e).add (tallyAll rest)

end

end Event

namespace Journal

/- What a journal counts. -/
def tally
    (journal : Journal) : Tally :=
  Event.tallyAll journal

end Journal

end Flwor
