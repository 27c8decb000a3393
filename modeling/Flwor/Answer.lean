import Flwor.Failure
import Flwor.Journal

/-
  This file defines the answer of a call: a value or a
  failure, together with the journal of what happened on the
  way.  A failure keeps the journal.

  Key definitions include:
    * `Answer`
    * `Answer.ofExcept`
    * `Answer.note`
    * `Answer.relocate`
    * `Answer.sequence`
-/

------------------------------------------------------------
-- Answers
------------------------------------------------------------

namespace Flwor

/- A result and the journal of reaching it. -/
structure Answer (α : Type) where
  journal : Journal
  result : Except Failure α

namespace Answer

variable {α β : Type}

/- Answer at once. -/
def pure
    (x : α) : Answer α :=
  ⟨[], .ok x⟩

/- Go on with the value of an answer, if it has one. -/
def bind
    (a : Answer α)
    (f : α → Answer β) : Answer β :=
  match a.result with
  | .error e => ⟨a.journal, .error e⟩
  | .ok x =>
      let b := f x
      ⟨a.journal ++ b.journal, b.result⟩

/- Change the value of an answer, if it has one. -/
def map
    (f : α → β)
    (a : Answer α) : Answer β :=
  ⟨a.journal, a.result.map f⟩

instance : Monad Answer where
  map := map
  pure := pure
  bind := bind

/- A result that leaves no trace. -/
def ofExcept
    (result : Except Failure α) : Answer α :=
  ⟨[], result⟩

/- The result of an operator or a function. -/
def ofEvaluation
    (result : Except EvaluationError α) : Answer α :=
  ⟨[], result.mapError Failure.evaluation⟩

/- Fail at once. -/
def fail
    (e : Failure) : Answer α :=
  ⟨[], .error e⟩

/- Write one event into the journal. -/
def note
    (e : Event) : Answer Unit :=
  ⟨[e], .ok ()⟩

/- Count something. -/
def count
    (c : Counter) : Answer Unit :=
  note (.counted c)

/- Put the journal inside of a single event. -/
def relocate
    (wrap : Journal → Event)
    (a : Answer α) : Answer α :=
  ⟨if a.journal.isEmpty then [] else [wrap a.journal],
   a.result⟩

/- Prepend to the journal. -/
def after
    (journal : Journal)
    (a : Answer α) : Answer α :=
  ⟨journal ++ a.journal, a.result⟩

/- Whether there is a value. -/
def isOk
    (a : Answer α) : Bool :=
  a.result.isOk

/- Take answers in order, up to the first failure. -/
def sequence : List (Answer α) → Answer (List α)
  | [] => pure []
  | a :: rest =>
      bind a (fun x => map (x :: ·) (sequence rest))

/-
  Do both, whatever the first one answers; the first failure
  wins.
-/
def both
    (a b : Answer Unit) : Answer Unit :=
  ⟨a.journal ++ b.journal,
   match a.result with
   | .error e => .error e
   | .ok () => b.result⟩

end Answer

end Flwor
