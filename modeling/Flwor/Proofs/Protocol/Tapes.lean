import Flwor.Proofs.Protocol.Histories

/-
  Tapes that keep the order of calls.

  What a tape writes into the journal is stated for each of
  its answers: for opening, for each answer to a call for a
  row, and for closing.  A tape is ordered if on each path
  through inputs the opening leads to a phase, calls for rows
  read only where that phase is the open one, and closing
  makes the calls that are left in that phase.  So whatever
  the sequence of calls, the journals of its answers join to
  a life.

  The calls that reach the raw cursor of a tape itself are
  written down last; before that the tape has ordered inputs.

  Key definitions include:
    * `Journal.Tolerant`
    * `Tape.Keeps`
    * `Tape.Ordered`, `Tape.OrderedInputs`
    * `Tape.TwoInputs`

  Key theorems include:
    * `Tape.OrderedInputs.recorded`
    * `Tape.Ordered.asInput`
    * `Tape.OrderedInputs.expand`
    * `Tape.OrderedInputs.buffered`
    * `Tape.OrderedInputs.joined`
-/

------------------------------------------------------------
-- Journals of Answers
------------------------------------------------------------

namespace Flwor

namespace Journal

/- What is said of a journal also holds of journals joined. -/
structure Tolerant
    (P : Journal → Prop) : Prop where
  quiet : ∀ {journal}, journal.Quiet → P journal
  append : ∀ {a b}, P a → P b → P (a ++ b)

theorem tolerant_quiet :
    Tolerant Quiet :=
  ⟨fun hQuiet => hQuiet, Quiet.append⟩

theorem tolerant_runsSettled :
    Tolerant RunsSettled := by
  constructor
  · intro journal hQuiet
    exact hQuiet.runsSettled
  · intro a b hA hB sides run hRun
    rw [inside_append, runs_append, List.mem_append] at hRun
    rcases hRun with hRun | hRun
    · exact hA sides run hRun
    · exact hB sides run hRun

/- Nothing happens on a path through inputs. -/
def CallsNone
    (sides : List Side)
    (journal : Journal) : Prop :=
  (journal.inside sides).calls = []

theorem tolerant_callsNone
    (sides : List Side) :
    Tolerant (CallsNone sides) := by
  constructor
  · intro journal hQuiet
    exact hQuiet.calls_inside sides
  · intro a b hA hB
    unfold CallsNone at hA hB ⊢
    rw [inside_append, calls_append, hA, hB,
      List.append_nil]

/- Rows are read on a path, and only in the open phase. -/
def ReadsOnly
    (phase : Phase)
    (sides : List Side)
    (journal : Journal) : Prop :=
  ∀ c ∈ (journal.inside sides).calls,
    c.isRead ∧ phase = .opened

theorem CallsNone.readsOnly
    {journal : Journal}
    {sides : List Side}
    (hNone : journal.CallsNone sides)
    (phase : Phase) :
    journal.ReadsOnly phase sides := by
  intro c hC
  rw [hNone] at hC
  cases hC

theorem tolerant_readsOnly
    (phase : Phase)
    (sides : List Side) :
    Tolerant (ReadsOnly phase sides) := by
  constructor
  · intro journal hQuiet
    exact CallsNone.readsOnly (hQuiet.calls_inside sides)
      phase
  · intro a b hA hB c hC
    rw [inside_append, calls_append, List.mem_append] at hC
    rcases hC with hC | hC
    · exact hA c hC
    · exact hB c hC

end Journal

namespace Answer

variable {α β : Type}
variable {a : Answer α}
variable {f : α → Answer β}

theorem journal_bind_of_ok
    {x : α}
    (hResult : a.result = .ok x) :
    (a.bind f).journal = a.journal ++ (f x).journal := by
  unfold bind
  rw [hResult]

theorem journal_bind_of_error
    {e : Failure}
    (hResult : a.result = .error e) :
    (a.bind f).journal = a.journal := by
  unfold bind
  rw [hResult]

theorem result_bind_of_error
    {e : Failure}
    (hResult : a.result = .error e) :
    (a.bind f).result = .error e := by
  unfold bind
  rw [hResult]

theorem isOk_of_ok
    {x : α}
    (hResult : a.result = .ok x) :
    a.isOk = true := by
  unfold isOk
  rw [hResult]
  rfl

theorem isOk_of_error
    {e : Failure}
    (hResult : a.result = .error e) :
    a.isOk = false := by
  unfold isOk
  rw [hResult]
  rfl

/- A bind that does nothing more leaves nothing more. -/
@[simp] theorem journal_bind_pure
    (g : α → β) :
    (a.bind (fun x => Answer.pure (g x))).journal =
      a.journal := by
  cases hResult : a.result with
  | error e => exact journal_bind_of_error hResult
  | ok x =>
      rw [journal_bind_of_ok hResult]
      exact List.append_nil _

/- What comes after an answer leaves something tolerated. -/
theorem exists_journal_bind
    {P : Journal → Prop}
    (hP : Journal.Tolerant P)
    (hF : ∀ x, a.result = .ok x → P (f x).journal) :
    ∃ more, (a.bind f).journal = a.journal ++ more ∧
      P more := by
  cases hResult : a.result with
  | error e =>
      refine ⟨[], ?_, hP.quiet Journal.Quiet.nil⟩
      rw [journal_bind_of_error hResult, List.append_nil]
  | ok x =>
      exact ⟨(f x).journal, journal_bind_of_ok hResult,
        hF x hResult⟩

end Answer

namespace Journal.Tolerant

variable {α β : Type}
variable {P : Journal → Prop}
variable (hP : Tolerant P)

include hP

theorem nil :
    P [] :=
  hP.quiet Quiet.nil

theorem bind
    {a : Answer α}
    {f : α → Answer β}
    (hA : P a.journal)
    (hF : ∀ x, P (f x).journal) :
    P (a.bind f).journal := by
  rcases Answer.exists_journal_bind hP
      (fun x _ => hF x) with
    ⟨more, hJournal, hMore⟩
  rw [hJournal]
  exact hP.append hA hMore

theorem sequence
    {as : List (Answer α)}
    (hAll : ∀ a ∈ as, P a.journal) :
    P (Answer.sequence as).journal := by
  induction as with
  | nil => exact hP.nil
  | cons a rest ih =>
      rw [List.forall_mem_cons] at hAll
      apply hP.bind hAll.1
      intro x
      exact ih hAll.2

end Journal.Tolerant

end Flwor

------------------------------------------------------------
-- Ordered Tapes
------------------------------------------------------------

namespace Flwor

open Journal

/- What holds of the journals of a tape's answers. -/
structure Tape.Keeps
    (tape : Tape)
    (O P C : Journal → Prop) : Prop where
  opening : O tape.opening.journal
  rows : ∀ a ∈ tape.rows, P a.journal
  ending : P tape.ending.journal
  spent : P tape.spent.journal
  closing : C tape.closing.journal

namespace Tape

variable {tape lefts rights : Tape}
variable {O P C O' P' C' : Journal → Prop}
variable {phase : Phase}
variable {side : Side}
variable {sides : List Side}

theorem Keeps.mono
    (hKeeps : tape.Keeps O P C)
    (hO : ∀ journal, O journal → O' journal)
    (hP : ∀ journal, P journal → P' journal)
    (hC : ∀ journal, C journal → C' journal) :
    tape.Keeps O' P' C' :=
  ⟨hO _ hKeeps.opening,
    fun a hA => hP _ (hKeeps.rows a hA),
    hP _ hKeeps.ending, hP _ hKeeps.spent,
    hC _ hKeeps.closing⟩

/-
  The raw cursor at the end of a path through inputs is in a
  phase while the tape is open.
-/
def LivesAt
    (tape : Tape)
    (phase : Phase)
    (sides : List Side) : Prop :=
  tape.Keeps
    (fun journal => Life phase (journal.inside sides).calls)
    (ReadsOnly phase sides)
    (fun journal =>
      (journal.inside sides).calls = phase.closing)

/- The tape writes nothing about the end of a path. -/
def SilentAt
    (tape : Tape)
    (sides : List Side) : Prop :=
  tape.Keeps (CallsNone sides) (CallsNone sides)
    (CallsNone sides)

/- The calls of all raw cursors are in order. -/
structure Ordered
    (tape : Tape) : Prop where
  lives : ∀ sides, ∃ phase, tape.LivesAt phase sides
  runs : tape.Keeps RunsSettled RunsSettled RunsSettled

/- The same, where the tape's own calls are not told yet. -/
structure OrderedInputs
    (tape : Tape) : Prop where
  silent : tape.SilentAt []
  lives :
    ∀ side sides, ∃ phase, tape.LivesAt phase (side :: sides)
  runs : tape.Keeps RunsSettled RunsSettled RunsSettled

/- Nothing happens to a cursor that is not created. -/
theorem SilentAt.livesAt
    (hSilent : tape.SilentAt sides) :
    tape.LivesAt .created sides := by
  apply hSilent.mono
  · intro journal hNone
    rw [hNone]
    exact .created
  · intro journal hNone
    exact hNone.readsOnly .created
  · intro journal hNone
    exact hNone

/- Yielding given rows makes no use of other cursors. -/
theorem orderedInputs_ofRows
    (rows : List Row) :
    (ofRows rows).OrderedInputs := by
  have hKeeps
      {P : Journal → Prop}
      (hP : Tolerant P) :
      (ofRows rows).Keeps P P P := by
    refine ⟨hP.nil, ?_, hP.nil, hP.nil, hP.nil⟩
    intro a hA
    rcases List.mem_map.mp hA with ⟨row, _, rfl⟩
    exact hP.nil
  constructor
  · exact hKeeps (tolerant_callsNone [])
  · intro side sides
    exact ⟨.created, SilentAt.livesAt
      (hKeeps (tolerant_callsNone (side :: sides)))⟩
  · exact hKeeps tolerant_runsSettled

end Tape

end Flwor

------------------------------------------------------------
-- Recorded Calls and Inputs
------------------------------------------------------------

namespace Flwor

namespace Journal

/- A journal as it is told by the cursor above. -/
def asInput
    (side : Side)
    (journal : Journal) : Journal :=
  if journal.isEmpty then [] else [.input side journal]

/- It is found on its own side only. -/
theorem input_asInput
    (side s : Side)
    (journal : Journal) :
    (journal.asInput side).input s =
      if side = s then journal else [] := by
  cases journal with
  | nil => simp [asInput]
  | cons e rest => simp [asInput, input, Event.ofInput]

theorem calls_asInput
    (side : Side)
    (journal : Journal) :
    (journal.asInput side).calls = [] := by
  cases journal with
  | nil => rfl
  | cons e rest => rfl

theorem runs_asInput
    (side : Side)
    (journal : Journal) :
    (journal.asInput side).runs = [] := by
  cases journal with
  | nil => rfl
  | cons e rest => rfl

end Journal

open Journal

namespace Tape

variable {tape : Tape}
variable {O P C O' P' C' : Journal → Prop}
variable {side : Side}

/- Each call that reaches the cursor is one more event. -/
theorem Keeps.recorded
    (hKeeps : tape.Keeps O P C)
    (hO : ∀ journal, O journal →
      O' (.called .opened :: journal))
    (hP : ∀ (c : Call) journal, c.isRead → P journal →
      P' (.called c :: journal))
    (hC : ∀ journal, C journal →
      C' (.called .closed :: journal)) :
    tape.recorded.Keeps O' P' C' := by
  refine ⟨hO _ hKeeps.opening, ?_,
    hP .ended _ rfl hKeeps.ending,
    hP .ended _ rfl hKeeps.spent, hC _ hKeeps.closing⟩
  intro a hA
  rcases List.mem_map.mp hA with ⟨b, hB, rfl⟩
  exact hP .advanced _ rfl (hKeeps.rows b hB)

/- A tape with its own calls told first. -/
theorem OrderedInputs.recorded
    (hOrdered : tape.OrderedInputs) :
    tape.recorded.Ordered := by
  constructor
  · intro sides
    cases sides with
    | nil =>
        refine ⟨.opened, hOrdered.silent.recorded ?_ ?_ ?_⟩
        · intro journal hNone
          have hCalls : journal.calls = [] := hNone
          change Life .opened (.opened :: journal.calls)
          apply Life.opened
          rw [hCalls]
          exact List.forall_mem_nil _
        · intro c journal hRead hNone d hD
          have hCalls : journal.calls = [] := hNone
          change d ∈ c :: journal.calls at hD
          rw [hCalls, List.mem_singleton] at hD
          exact ⟨hD ▸ hRead, rfl⟩
        · intro journal hNone
          have hCalls : journal.calls = [] := hNone
          change .closed :: journal.calls = [Call.closed]
          rw [hCalls]
    | cons side sides =>
        rcases hOrdered.lives side sides with ⟨phase, hLives⟩
        exact ⟨phase, hLives.recorded (fun _ hO => hO)
          (fun _ _ _ hP => hP) (fun _ hC => hC)⟩
  · have hCalled
        (c : Call)
        (journal : Journal)
        (hRuns : journal.RunsSettled) :
        RunsSettled (.called c :: journal) := by
      intro sides
      cases sides with
      | nil => exact hRuns []
      | cons side sides => exact hRuns (side :: sides)
    exact hOrdered.runs.recorded (hCalled .opened)
      (fun c journal _ => hCalled c journal)
      (hCalled .closed)

/- What an input writes is one event, or none. -/
theorem Keeps.asInput
    (hKeeps : tape.Keeps O P C)
    (hO : ∀ journal, O journal → O' (journal.asInput side))
    (hP : ∀ journal, P journal → P' (journal.asInput side))
    (hC : ∀ journal, C journal → C' (journal.asInput side)) :
    (tape.asInput side).Keeps O' P' C' := by
  refine ⟨hO _ hKeeps.opening, ?_, hP _ hKeeps.ending,
    hP _ hKeeps.spent, hC _ hKeeps.closing⟩
  intro a hA
  rcases List.mem_map.mp hA with ⟨b, hB, rfl⟩
  exact hP _ (hKeeps.rows b hB)

/- An input leaves nothing on the other side. -/
theorem Ordered.silentAt_asInput
    (hOrdered : tape.Ordered)
    {s : Side}
    (hSide : side ≠ s)
    (sides : List Side) :
    (tape.asInput side).SilentAt (s :: sides) := by
  have hNone (journal : Journal) (_ : RunsSettled journal) :
      CallsNone (s :: sides) (journal.asInput side) := by
    unfold CallsNone
    rw [inside_cons, input_asInput, if_neg hSide,
      inside_nil, calls_nil]
  exact hOrdered.runs.asInput hNone hNone hNone

/- A tape as the input of another one. -/
theorem Ordered.asInput
    (hOrdered : tape.Ordered)
    (side : Side) :
    (tape.asInput side).OrderedInputs := by
  constructor
  · have hNone
        (journal : Journal)
        (_ : RunsSettled journal) :
        CallsNone [] (journal.asInput side) :=
      calls_asInput side journal
    exact hOrdered.runs.asInput hNone hNone hNone
  · intro s sides
    by_cases hSide : side = s
    · subst hSide
      rcases hOrdered.lives sides with ⟨phase, hLives⟩
      have hInside (journal : Journal) :
          (journal.asInput side).inside (side :: sides) =
            journal.inside sides := by
        rw [inside_cons, input_asInput, if_pos rfl]
      refine ⟨phase, hLives.asInput ?_ ?_ ?_⟩
      · intro journal hLife
        rw [hInside]
        exact hLife
      · intro journal hReads
        unfold ReadsOnly
        rw [hInside]
        exact hReads
      · intro journal hClosing
        rw [hInside]
        exact hClosing
    · exact ⟨.created, SilentAt.livesAt
        (hOrdered.silentAt_asInput hSide sides)⟩
  · have hRuns
        (journal : Journal)
        (hSettled : RunsSettled journal) :
        RunsSettled (journal.asInput side) := by
      intro sides
      cases sides with
      | nil =>
          rw [inside_self, runs_asInput]
          exact List.forall_mem_nil _
      | cons s sides =>
          rw [inside_cons, input_asInput]
          split
          · exact hSettled sides
          · rw [inside_nil, runs_nil]
            exact List.forall_mem_nil _
    exact hOrdered.runs.asInput hRuns hRuns hRuns

end Tape

end Flwor

------------------------------------------------------------
-- Tapes over Tapes
------------------------------------------------------------

namespace Flwor

open Journal

namespace Tape

variable {tape : Tape}
variable {O P C : Journal → Prop}
variable {phase : Phase}
variable {sides : List Side}

/- Replacing rows keeps what is said of their journals. -/
theorem keeps_expandRows
    (hP : Tolerant P)
    {f : Row → Answer (List Row)}
    (hF : ∀ row, (f row).journal.Quiet)
    {carry : Journal}
    (hCarry : P carry)
    {answers : List (Answer Row)}
    (hAnswers : ∀ a ∈ answers, P a.journal) :
    (∀ a ∈ (expandRows f carry answers).1, P a.journal) ∧
      P (expandRows f carry answers).2 := by
  induction answers generalizing carry with
  | nil =>
      unfold expandRows
      exact ⟨List.forall_mem_nil _, hCarry⟩
  | cons a rest ih =>
      rw [List.forall_mem_cons] at hAnswers
      have hStep : P ((a.bind f).after carry).journal :=
        hP.append hCarry
          (hP.bind hAnswers.1 (fun row => hP.quiet (hF row)))
      have hRest := ih hP.nil hAnswers.2
      unfold expandRows
      dsimp only
      split
      · exact ⟨List.forall_mem_cons.mpr ⟨hStep, hRest.1⟩,
          hRest.2⟩
      · exact ih hStep hAnswers.2
      · next row more hResult =>
          refine ⟨List.forall_mem_cons.mpr ⟨hStep, ?_⟩,
            hRest.2⟩
          intro b hB
          rcases List.mem_append.mp hB with hB | hB
          · rcases List.mem_map.mp hB with ⟨r, _, rfl⟩
            exact hP.nil
          · exact hRest.1 b hB

theorem Keeps.expand
    (hP : Tolerant P)
    (hKeeps : tape.Keeps O P C)
    {f : Row → Answer (List Row)}
    (hF : ∀ row, (f row).journal.Quiet) :
    (tape.expand f).Keeps O P C := by
  have hRows := keeps_expandRows hP hF hP.nil hKeeps.rows
  exact ⟨hKeeps.opening, hRows.1,
    hP.append hRows.2 hKeeps.ending, hKeeps.spent,
    hKeeps.closing⟩

theorem OrderedInputs.expand
    (hOrdered : tape.OrderedInputs)
    {f : Row → Answer (List Row)}
    (hF : ∀ row, (f row).journal.Quiet) :
    (tape.expand f).OrderedInputs := by
  constructor
  · exact hOrdered.silent.expand (tolerant_callsNone []) hF
  · intro side sides
    rcases hOrdered.lives side sides with ⟨phase, hLives⟩
    exact ⟨phase,
      hLives.expand (tolerant_readsOnly _ _) hF⟩
  · exact hOrdered.runs.expand tolerant_runsSettled hF

/- Numbering rows leaves their journals as they are. -/
theorem keeps_numberRows
    (n : Nat)
    {answers : List (Answer Row)}
    (hAnswers : ∀ a ∈ answers, P a.journal) :
    ∀ a ∈ numberRows n answers, P a.journal := by
  induction answers generalizing n with
  | nil =>
      unfold numberRows
      exact List.forall_mem_nil _
  | cons a rest ih =>
      rw [List.forall_mem_cons] at hAnswers
      unfold numberRows
      split
      · exact List.forall_mem_cons.mpr
          ⟨hAnswers.1, ih n hAnswers.2⟩
      · exact List.forall_mem_cons.mpr
          ⟨hAnswers.1, ih (n + 1) hAnswers.2⟩

theorem Keeps.numbered
    (hKeeps : tape.Keeps O P C) :
    tape.numbered.Keeps O P C :=
  { hKeeps with rows := keeps_numberRows 1 hKeeps.rows }

theorem OrderedInputs.numbered
    (hOrdered : tape.OrderedInputs) :
    tape.numbered.OrderedInputs := by
  constructor
  · exact hOrdered.silent.numbered
  · intro side sides
    rcases hOrdered.lives side sides with ⟨phase, hLives⟩
    exact ⟨phase, hLives.numbered⟩
  · exact hOrdered.runs.numbered

end Tape

end Flwor

------------------------------------------------------------
-- Inputs Read to the End
------------------------------------------------------------

namespace Flwor

open Journal

namespace Tape

variable {tape : Tape}
variable {O P C : Journal → Prop}
variable {phase : Phase}
variable {sides : List Side}

/- Reading all rows goes on from the opening. -/
theorem Keeps.readAll
    (hP : Tolerant P)
    (hKeeps : tape.Keeps O P C) :
    ∃ more,
      tape.readAll.journal = tape.opening.journal ++ more ∧
        P more := by
  apply Answer.exists_journal_bind hP
  intro _ _
  apply hP.bind (hP.sequence hKeeps.rows)
  intro rows
  apply hP.bind hKeeps.ending
  intro _
  exact hP.nil

theorem Keeps.readAll_self
    (hP : Tolerant P)
    (hKeeps : tape.Keeps P P C) :
    P tape.readAll.journal := by
  rcases hKeeps.readAll hP with ⟨more, hJournal, hMore⟩
  rw [hJournal]
  exact hP.append hKeeps.opening hMore

/- Reading all rows does not leave the phase. -/
theorem LivesAt.life_readAll
    (hLives : tape.LivesAt phase sides) :
    Life phase (tape.readAll.journal.inside sides).calls := by
  rcases hLives.readAll (tolerant_readsOnly phase sides) with
    ⟨more, hJournal, hMore⟩
  rw [hJournal, inside_append, calls_append]
  exact hLives.opening.read hMore

/- An input that is read and closed is over. -/
theorem LivesAt.life_consumed
    (hLives : tape.LivesAt phase sides) :
    Life phase.ended
      ((tape.readAll.journal ++
        tape.closing.journal).inside sides).calls := by
  rw [inside_append, calls_append, hLives.closing]
  exact hLives.life_readAll.close

/-
  What is left to tell of an input that is read to its end:
  it is closed either in the course of opening, or together
  with the tape that reads it.
-/
theorem buffered_journals
    (tape : Tape)
    {produce : List Row → Answer (List Row)}
    (hProduce : ∀ rows, (produce rows).journal.Quiet) :
    ((tape.buffered produce).opening.journal =
        tape.readAll.journal ∧
      (tape.buffered produce).closing = tape.closing) ∨
    ((∃ more, more.Quiet ∧
        (tape.buffered produce).opening.journal =
          tape.readAll.journal ++
            (tape.closing.journal ++ more)) ∧
      (tape.buffered produce).closing =
        Answer.pure ()) := by
  unfold buffered
  dsimp only
  rw [Answer.journal_bind_pure]
  cases hResult : tape.readAll.result with
  | error e =>
      rw [Answer.isOk_of_error hResult]
      exact .inl
        ⟨Answer.journal_bind_of_error hResult, rfl⟩
  | ok rows =>
      rw [Answer.isOk_of_ok hResult]
      rcases Answer.exists_journal_bind
          (a := tape.closing) (f := fun _ => produce rows)
          tolerant_quiet (fun _ _ => hProduce rows) with
        ⟨more, hJournal, hMore⟩
      refine .inr ⟨⟨more, hMore, ?_⟩, rfl⟩
      rw [← hJournal]
      exact Answer.journal_bind_of_ok hResult

/- The rows that are produced tell of nothing. -/
theorem keeps_buffered
    (hP : Tolerant P)
    {produce : List Row → Answer (List Row)}
    (hO : O (tape.buffered produce).opening.journal)
    (hC : C (tape.buffered produce).closing.journal) :
    (tape.buffered produce).Keeps O P C := by
  refine ⟨hO, ?_, hP.nil, hP.nil, hC⟩
  intro a hA
  unfold buffered at hA
  dsimp only at hA
  split at hA
  · rcases List.mem_map.mp hA with ⟨row, _, rfl⟩
    exact hP.nil
  · cases hA

theorem Keeps.buffered
    (hP : Tolerant P)
    (hKeeps : tape.Keeps P P P)
    {produce : List Row → Answer (List Row)}
    (hProduce : ∀ rows, (produce rows).journal.Quiet) :
    (tape.buffered produce).Keeps P P P := by
  have hRead := hKeeps.readAll_self hP
  rcases tape.buffered_journals hProduce with
    ⟨hOpening, hClosing⟩ | ⟨⟨more, hMore, hOpening⟩, hClosing⟩
  · apply keeps_buffered hP
    · rw [hOpening]
      exact hRead
    · rw [hClosing]
      exact hKeeps.closing
  · apply keeps_buffered hP
    · rw [hOpening]
      exact hP.append hRead
        (hP.append hKeeps.closing (hP.quiet hMore))
    · rw [hClosing]
      exact hP.nil

theorem OrderedInputs.buffered
    (hOrdered : tape.OrderedInputs)
    {produce : List Row → Answer (List Row)}
    (hProduce : ∀ rows, (produce rows).journal.Quiet) :
    (tape.buffered produce).OrderedInputs := by
  constructor
  · exact hOrdered.silent.buffered (tolerant_callsNone [])
      hProduce
  · intro side sides
    rcases hOrdered.lives side sides with ⟨phase, hLives⟩
    rcases tape.buffered_journals hProduce with
      ⟨hOpening, hClosing⟩ |
        ⟨⟨more, hMore, hOpening⟩, hClosing⟩
    · refine ⟨phase, keeps_buffered
        (tolerant_readsOnly _ _) ?_ ?_⟩
      · rw [hOpening]
        exact hLives.life_readAll
      · rw [hClosing]
        exact hLives.closing
    · refine ⟨phase.ended, keeps_buffered
        (tolerant_readsOnly _ _) ?_ ?_⟩
      · rw [hOpening, ← List.append_assoc, inside_append,
          calls_append, hMore.calls_inside, List.append_nil]
        exact hLives.life_consumed
      · rw [hClosing, Phase.closing_ended]
        exact (tolerant_callsNone _).nil
  · exact hOrdered.runs.buffered tolerant_runsSettled
      hProduce

end Tape

end Flwor

------------------------------------------------------------
-- Two Inputs
------------------------------------------------------------

/-
  A join keeps its left input open for as long as it is open
  itself, and reads its right input in the course of opening.
-/

namespace Flwor

open Journal

namespace Tape

variable {lefts rights left right : Tape}
variable {opening closing : Journal}

/-
  What a join tells of opening and of closing: its left input
  could not be opened; or its right input could not be read,
  and is closed with the join; or it was read and closed.
-/
inductive TwoInputs
    (lefts rights : Tape) : Journal → Journal → Prop where
  | unopened :
      TwoInputs lefts rights lefts.opening.journal
        lefts.closing.journal
  | unread :
      TwoInputs lefts rights
        (lefts.opening.journal ++ rights.readAll.journal)
        (lefts.closing.journal ++ rights.closing.journal)
  | filled
      {more : Journal}
      (hMore : more.Quiet) :
      TwoInputs lefts rights
        (lefts.opening.journal ++
          (rights.readAll.journal ++
            (rights.closing.journal ++ more)))
        lefts.closing.journal

namespace TwoInputs

variable (hTwo : TwoInputs lefts rights opening closing)

include hTwo

/- What is told besides of the left input. -/
theorem exists_more
    {P : Journal → Prop}
    (hP : Tolerant P)
    (hRights : rights.Keeps P P P) :
    (∃ more, opening = lefts.opening.journal ++ more ∧
      P more) ∧
    (∃ more, closing = lefts.closing.journal ++ more ∧
      P more) := by
  have hRead := hRights.readAll_self hP
  cases hTwo with
  | unopened =>
      exact ⟨⟨[], (List.append_nil _).symm, hP.nil⟩,
        ⟨[], (List.append_nil _).symm, hP.nil⟩⟩
  | unread =>
      exact ⟨⟨_, rfl, hRead⟩, ⟨_, rfl, hRights.closing⟩⟩
  | filled hMore =>
      exact ⟨⟨_, rfl, hP.append hRead
          (hP.append hRights.closing (hP.quiet hMore))⟩,
        ⟨[], (List.append_nil _).symm, hP.nil⟩⟩

/- What both inputs tolerate is told of the join. -/
theorem keeps
    {P : Journal → Prop}
    (hP : Tolerant P)
    (hLefts : lefts.Keeps P P P)
    (hRights : rights.Keeps P P P) :
    P opening ∧ P closing := by
  rcases hTwo.exists_more hP hRights with
    ⟨⟨a, rfl, hA⟩, ⟨b, rfl, hB⟩⟩
  exact ⟨hP.append hLefts.opening hA,
    hP.append hLefts.closing hB⟩

variable {phase : Phase}
variable {sides : List Side}

/- The left input lives on. -/
theorem life_left
    (hLefts : lefts.LivesAt phase sides)
    (hRights : rights.SilentAt sides) :
    Life phase (opening.inside sides).calls ∧
      (closing.inside sides).calls = phase.closing := by
  rcases hTwo.exists_more (tolerant_callsNone sides)
      hRights with
    ⟨⟨a, rfl, hA⟩, ⟨b, rfl, hB⟩⟩
  unfold CallsNone at hA hB
  constructor
  · rw [inside_append, calls_append, hA, List.append_nil]
    exact hLefts.opening
  · rw [inside_append, calls_append, hB, List.append_nil]
    exact hLefts.closing

/- The right input is not reached, or open, or over. -/
theorem exists_life_right
    (hLefts : lefts.SilentAt sides)
    (hRights : rights.LivesAt phase sides) :
    ∃ phase, Life phase (opening.inside sides).calls ∧
      (closing.inside sides).calls = phase.closing := by
  have hOpening : (lefts.opening.journal.inside sides).calls =
      [] := hLefts.opening
  have hClosing : (lefts.closing.journal.inside sides).calls =
      [] := hLefts.closing
  cases hTwo with
  | unopened =>
      refine ⟨.created, ?_, hClosing⟩
      rw [hOpening]
      exact .created
  | unread =>
      refine ⟨phase, ?_, ?_⟩
      · rw [inside_append, calls_append, hOpening]
        exact hRights.life_readAll
      · rw [inside_append, calls_append, hClosing]
        exact hRights.closing
  | filled hMore =>
      refine ⟨phase.ended, ?_, ?_⟩
      · rw [inside_append, calls_append, hOpening,
          ← List.append_assoc, inside_append, calls_append,
          hMore.calls_inside, List.append_nil]
        exact hRights.life_consumed
      · rw [hClosing, Phase.closing_ended]

end TwoInputs

/-
  Read the right input once the left one is open, close it,
  and go on; close with the left input, and with the right
  one if it is still open.
-/
theorem twoInputs_of_reading
    {α : Type}
    {prepare : List Row → Answer α}
    (hPrepare : ∀ rows, (prepare rows).journal.Quiet)
    {reading : Answer (List Row)}
    (hReading : reading =
      lefts.opening.bind (fun _ => rights.readAll)) :
    TwoInputs lefts rights
      ((reading.bind (fun rows =>
        rights.closing.bind (fun _ => prepare rows))).bind
          (fun _ => Answer.pure ())).journal
      (if lefts.opening.isOk && !reading.isOk then
        lefts.closing.both rights.closing
      else lefts.closing).journal := by
  rw [Answer.journal_bind_pure]
  cases hLeft : lefts.opening.result with
  | error e =>
      have hResult : reading.result = .error e := by
        rw [hReading, Answer.result_bind_of_error hLeft]
      have hJournal :
          reading.journal = lefts.opening.journal := by
        rw [hReading, Answer.journal_bind_of_error hLeft]
      rw [Answer.journal_bind_of_error hResult, hJournal,
        Answer.isOk_of_error hLeft]
      exact .unopened
  | ok u =>
      have hOpened : reading.journal =
          lefts.opening.journal ++
            rights.readAll.journal := by
        rw [hReading, Answer.journal_bind_of_ok hLeft]
      rw [Answer.isOk_of_ok hLeft]
      cases hResult : reading.result with
      | error e =>
          rw [Answer.journal_bind_of_error hResult,
            hOpened, Answer.isOk_of_error hResult]
          exact .unread
      | ok rows =>
          rcases Answer.exists_journal_bind
              (a := rights.closing)
              (f := fun _ => prepare rows) tolerant_quiet
              (fun _ _ => hPrepare rows) with
            ⟨more, hJournal, hMore⟩
          rw [Answer.journal_bind_of_ok hResult, hJournal,
            hOpened, Answer.isOk_of_ok hResult,
            List.append_assoc]
          exact .filled hMore

/- A tape that replaces rows and tells of two inputs. -/
theorem OrderedInputs.joined
    (hLeft : left.Ordered)
    (hRight : right.Ordered)
    {each : Row → Answer (List Row)}
    (hEach : ∀ row, (each row).journal.Quiet)
    {opening closing : Answer Unit}
    (hTwo : TwoInputs (left.asInput .left)
      (right.asInput .right) opening.journal
      closing.journal) :
    ({ (left.asInput .left).expand each with
        opening := opening
        closing := closing } : Tape).OrderedInputs := by
  have hLefts := hLeft.asInput .left
  have hRights := hRight.asInput .right
  have hKeeps
      {P : Journal → Prop}
      (hP : Tolerant P)
      (hPLeft : (left.asInput .left).Keeps P P P)
      (hPRight : (right.asInput .right).Keeps P P P) :
      ({ (left.asInput .left).expand each with
          opening := opening
          closing := closing } : Tape).Keeps P P P :=
    { hPLeft.expand hP hEach with
      opening := (hTwo.keeps hP hPLeft hPRight).1
      closing := (hTwo.keeps hP hPLeft hPRight).2 }
  constructor
  · exact hKeeps (tolerant_callsNone []) hLefts.silent
      hRights.silent
  · intro side sides
    cases side with
    | left =>
        rcases hLefts.lives .left sides with ⟨phase, hLives⟩
        have hLife := hTwo.life_left hLives
          (hRight.silentAt_asInput (by decide) sides)
        exact ⟨phase,
          { hLives.expand (tolerant_readsOnly _ _) hEach with
            opening := hLife.1
            closing := hLife.2 }⟩
    | right =>
        have hSilent :
            (left.asInput .left).SilentAt (.right :: sides) :=
          hLeft.silentAt_asInput (by decide) sides
        rcases hRights.lives .right sides with
          ⟨phase, hLives⟩
        rcases hTwo.exists_life_right hSilent hLives with
          ⟨phase, hOpening, hClosing⟩
        have hReads := (hSilent.expand
          (tolerant_callsNone _) hEach).mono
            (fun _ hNone => hNone)
            (fun _ hNone => hNone.readsOnly phase)
            (fun _ hNone => hNone)
        exact ⟨phase,
          { hReads with
            opening := hOpening
            closing := hClosing }⟩
  · exact hKeeps tolerant_runsSettled hLefts.runs hRights.runs

end Tape

end Flwor
