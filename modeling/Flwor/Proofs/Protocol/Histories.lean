import Flwor.Cursor

/-
  The calls that reach each raw cursor of an evaluation.

  A journal tells of one raw cursor and of all those that it
  made use of: the cursors of its inputs, and those of the
  pipelines that were run in the meantime.  Each of them
  stands at the end of a path, and what the journal holds
  below that path is the journal of that cursor.

  The life of a raw cursor goes through the phases in order:
  it is opened once, asked for rows only after that, and
  closed once.  A life without calls is that of a cursor
  that was never opened.

  Key definitions include:
    * `Journal.input`, `Journal.runs`
    * `Journal.Step`, `Journal.below`
    * `Life`
    * `Journal.Settled`
    * `Journal.Quiet`
    * `Journal.inside`

  Key theorems include:
    * `Life.read`, `Life.close`
    * `Journal.exists_life_below`
    * `Journal.settled_of_inside`
-/

------------------------------------------------------------
-- Paths
------------------------------------------------------------

namespace Flwor

namespace Event

/- What an event tells of one input. -/
def ofInput
    (side : Side) : Event → Journal
  | .input s events => if s = side then events else []
  | _ => []

/- The run of a nested pipeline that an event tells of. -/
def run? : Event → Option Journal
  | .nested events => some events
  | _ => none

end Event

namespace Journal

/- The journal of the raw cursor of one input. -/
def input
    (side : Side)
    (journal : Journal) : Journal :=
  journal.flatMap (Event.ofInput side)

/- The journals of the runs of nested pipelines, in order. -/
def runs
    (journal : Journal) : List Journal :=
  journal.filterMap Event.run?

/- From a raw cursor to one of those that it made use of. -/
inductive Step where
  | input (side : Side)
  | run (index : Nat)
deriving DecidableEq, Repr

/- The journal of the raw cursor at the end of a path. -/
def below : List Step → Journal → Journal
  | [], journal => journal
  | .input side :: path, journal =>
      below path (journal.input side)
  | .run index :: path, journal =>
      below path ((journal.runs[index]?).getD [])

end Journal

end Flwor

------------------------------------------------------------
-- Lives
------------------------------------------------------------

namespace Flwor

/- Whether a call asks for a row. -/
def Call.isRead : Call → Bool
  | .advanced => true
  | .ended => true
  | _ => false

/- The calls that lead a raw cursor to a phase. -/
inductive Life : Phase → List Call → Prop where
  | created : Life .created []
  | opened
      {reads : List Call}
      (hReads : ∀ c ∈ reads, c.isRead) :
      Life .opened (.opened :: reads)
  | closed
      {reads : List Call}
      (hReads : ∀ c ∈ reads, c.isRead) :
      Life .closed (.opened :: (reads ++ [.closed]))

namespace Phase

/- The calls that are left to make in a phase. -/
def closing : Phase → List Call
  | .opened => [.closed]
  | _ => []

/- The phase after those calls. -/
def ended : Phase → Phase
  | .opened => .closed
  | phase => phase

theorem ended_ne_opened
    (phase : Phase) :
    phase.ended ≠ .opened := by
  cases phase <;> decide

@[simp] theorem closing_ended
    (phase : Phase) :
    phase.ended.closing = [] := by
  cases phase <;> rfl

end Phase

namespace Life

variable {phase : Phase}
variable {calls more : List Call}

/- An open cursor may be asked for rows. -/
theorem read
    (hLife : Life phase calls)
    (hMore : ∀ c ∈ more, c.isRead ∧ phase = .opened) :
    Life phase (calls ++ more) := by
  cases hLife with
  | created =>
      have hNone : more = [] := by
        apply List.eq_nil_iff_forall_not_mem.mpr
        intro c hC
        cases (hMore c hC).2
      rw [hNone]
      exact .created
  | opened hReads =>
      rw [List.cons_append]
      apply Life.opened
      intro c hC
      rcases List.mem_append.mp hC with hC | hC
      · exact hReads c hC
      · exact (hMore c hC).1
  | closed hReads =>
      have hNone : more = [] := by
        apply List.eq_nil_iff_forall_not_mem.mpr
        intro c hC
        cases (hMore c hC).2
      rw [hNone, List.append_nil]
      exact .closed hReads

/- An open cursor can be closed. -/
theorem close
    (hLife : Life phase calls) :
    Life phase.ended (calls ++ phase.closing) := by
  cases hLife with
  | created => exact .created
  | opened hReads => exact .closed hReads
  | closed hReads =>
      rw [Phase.closing, List.append_nil]
      · exact .closed hReads
      · simp

end Life

end Flwor

------------------------------------------------------------
-- Settled Journals
------------------------------------------------------------

namespace Flwor

namespace Journal

/-
  All raw cursors that a journal tells of keep the order of
  calls, and none is left open.
-/
def Settled
    (journal : Journal) : Prop :=
  ∀ path, ∃ phase, phase ≠ .opened ∧
    Life phase (journal.below path).calls

/- What the evaluation of an expression may leave behind. -/
def Quiet
    (journal : Journal) : Prop :=
  ∀ e ∈ journal,
    (∃ c, e = .counted c) ∨
      ∃ events, e = .nested events ∧ Settled events

variable {a b journal : Journal}

@[simp] theorem calls_nil :
    calls [] = [] :=
  rfl

@[simp] theorem calls_append :
    (a ++ b).calls = a.calls ++ b.calls :=
  List.filterMap_append

@[simp] theorem input_nil
    (side : Side) :
    input side [] = [] :=
  rfl

@[simp] theorem input_append
    (side : Side) :
    (a ++ b).input side =
      a.input side ++ b.input side :=
  List.flatMap_append

@[simp] theorem runs_nil :
    runs [] = [] :=
  rfl

@[simp] theorem runs_append :
    (a ++ b).runs = a.runs ++ b.runs :=
  List.filterMap_append

/- No calls are told of below a path from nothing. -/
@[simp] theorem below_nil
    (path : List Step) :
    below path [] = [] := by
  induction path with
  | nil => rfl
  | cons step path ih =>
      cases step with
      | input side => exact ih
      | run index => exact ih

namespace Quiet

theorem nil :
    Quiet [] := by
  intro e hE
  cases hE

theorem append
    (hA : a.Quiet)
    (hB : b.Quiet) :
    (a ++ b).Quiet := by
  intro e hE
  rcases List.mem_append.mp hE with hE | hE
  · exact hA e hE
  · exact hB e hE

theorem counted
    (c : Counter) :
    Quiet [.counted c] := by
  intro e hE
  exact .inl ⟨c, List.mem_singleton.mp hE⟩

theorem nested
    (hSettled : journal.Settled) :
    Quiet [.nested journal] := by
  intro e hE
  exact .inr ⟨journal, List.mem_singleton.mp hE, hSettled⟩

variable (hQuiet : journal.Quiet)

include hQuiet

/- No call reaches the cursor itself. -/
theorem calls_eq_nil :
    journal.calls = [] := by
  apply List.filterMap_eq_nil_iff.mpr
  intro e hE
  rcases hQuiet e hE with ⟨c, rfl⟩ | ⟨events, rfl, _⟩
  · rfl
  · rfl

/- Nothing happens in the inputs. -/
theorem input_eq_nil
    (side : Side) :
    journal.input side = [] := by
  apply List.flatMap_eq_nil_iff.mpr
  intro e hE
  rcases hQuiet e hE with ⟨c, rfl⟩ | ⟨events, rfl, _⟩
  · rfl
  · rfl

/- All runs are complete. -/
theorem settled_of_mem_runs :
    ∀ run ∈ journal.runs, run.Settled := by
  intro run hRun
  rcases List.mem_filterMap.mp hRun with ⟨e, hE, hSome⟩
  rcases hQuiet e hE with ⟨c, rfl⟩ | ⟨events, rfl, hSettled⟩
  · cases hSome
  · cases hSome
    exact hSettled

end Quiet

end Journal

end Flwor

------------------------------------------------------------
-- Inputs of Inputs
------------------------------------------------------------

/-
  Journals of successive answers are joined.  On a path that
  leads through inputs only, so are the journals below it; a
  run of a pipeline is told of by a single answer.
-/

namespace Flwor

namespace Journal

/- The journal of the raw cursor of an input of inputs. -/
def inside : List Side → Journal → Journal
  | [], journal => journal
  | side :: sides, journal =>
      inside sides (journal.input side)

variable {a b journal : Journal}

theorem inside_self
    (journal : Journal) :
    journal.inside [] = journal :=
  rfl

theorem inside_cons
    (side : Side)
    (sides : List Side)
    (journal : Journal) :
    journal.inside (side :: sides) =
      (journal.input side).inside sides :=
  rfl

@[simp] theorem inside_nil
    (sides : List Side) :
    inside sides [] = [] := by
  induction sides with
  | nil => rfl
  | cons side sides ih => exact ih

@[simp] theorem inside_append
    (sides : List Side) :
    (a ++ b).inside sides =
      a.inside sides ++ b.inside sides := by
  induction sides generalizing a b with
  | nil => rfl
  | cons side sides ih =>
      rw [inside_cons, inside_cons, inside_cons,
        input_append, ih]

/- All runs of pipelines that a journal tells of are over. -/
def RunsSettled
    (journal : Journal) : Prop :=
  ∀ sides, ∀ run ∈ (journal.inside sides).runs, run.Settled

/- Every path leads through inputs, and then into a run. -/
theorem exists_life_below
    {allowed : Phase → Prop}
    (hAllowed : ∀ phase, phase ≠ .opened → allowed phase)
    (hInside : ∀ sides, ∃ phase, allowed phase ∧
      Life phase (journal.inside sides).calls)
    (hRuns : journal.RunsSettled)
    (path : List Step) :
    ∃ phase, allowed phase ∧
      Life phase (journal.below path).calls := by
  induction path generalizing journal with
  | nil => exact hInside []
  | cons step path ih =>
      cases step with
      | input side =>
          apply ih
          · intro sides
            exact hInside (side :: sides)
          · intro sides
            exact hRuns (side :: sides)
      | run index =>
          unfold below
          cases hRun : journal.runs[index]? with
          | none =>
              rw [Option.getD_none, below_nil]
              exact ⟨.created, hAllowed _ (by simp),
                .created⟩
          | some run =>
              have hSettled := hRuns [] run
                (List.mem_of_getElem? hRun)
              rcases hSettled path with
                ⟨phase, hPhase, hLife⟩
              exact ⟨phase, hAllowed phase hPhase, hLife⟩

theorem settled_of_inside
    (hInside : ∀ sides, ∃ phase, phase ≠ .opened ∧
      Life phase (journal.inside sides).calls)
    (hRuns : journal.RunsSettled) :
    journal.Settled :=
  exists_life_below (fun _ hPhase => hPhase) hInside hRuns

namespace Quiet

variable (hQuiet : journal.Quiet)

include hQuiet

theorem calls_inside
    (sides : List Side) :
    (journal.inside sides).calls = [] := by
  cases sides with
  | nil => exact hQuiet.calls_eq_nil
  | cons side sides =>
      rw [inside_cons, hQuiet.input_eq_nil, inside_nil,
        calls_nil]

theorem runsSettled :
    journal.RunsSettled := by
  intro sides
  cases sides with
  | nil => exact hQuiet.settled_of_mem_runs
  | cons side sides =>
      rw [inside_cons, hQuiet.input_eq_nil, inside_nil,
        runs_nil]
      exact List.forall_mem_nil _

end Quiet

end Journal

end Flwor
