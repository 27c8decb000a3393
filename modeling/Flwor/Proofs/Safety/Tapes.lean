import Flwor.Cursor
import Flwor.Proofs.Outcome
import Flwor.Proofs.Safety.Errors

/-
  Answers and tapes that do not go wrong.

  A safe answer has a value with a given property, or fails
  with a raised error.  A tape yields rows of a width if it
  opens safely and, once it is open, answers each call for a
  row with a row of that width or a raised error.  A tape
  that could not be opened is never asked for a row, so it
  promises nothing about them.

  Key definitions include:
    * `Answer.Safe`
    * `Tape.Yields`

  Key theorems include:
    * `Answer.Safe.bind`
    * `Tape.Yields.expand`
    * `Tape.Yields.buffered`
    * `Tape.Yields.readAll`
    * `Cursor.safe_forEach`
-/

------------------------------------------------------------
-- Safe Answers
------------------------------------------------------------

namespace Flwor

/- A failure that is a raised error. -/
def Failure.IsRaised : Failure → Prop
  | .evaluation e => e.IsRaised
  | _ => False

namespace Answer

variable {α β : Type}

/- A value with a property, or a raised error. -/
def Safe
    (P : α → Prop)
    (a : Answer α) : Prop :=
  match a.result with
  | .ok x => P x
  | .error e => e.IsRaised

variable {P P' : α → Prop}
variable {Q : β → Prop}

theorem safe_pure
    {x : α}
    (hX : P x) :
    (pure x).Safe P :=
  hX

theorem safe_return
    {x : α}
    (hX : P x) :
    (Pure.pure x : Answer α).Safe P :=
  hX

theorem safe_ok
    (journal : Journal)
    {x : α}
    (hX : P x) :
    (Answer.mk journal (.ok x)).Safe P :=
  hX

theorem safe_error
    (journal : Journal)
    {e : Failure}
    (hRaised : e.IsRaised) :
    (Answer.mk journal (.error e)).Safe P :=
  hRaised

theorem Safe.mono
    {a : Answer α}
    (hSafe : a.Safe P)
    (hMono : ∀ x, P x → P' x) :
    a.Safe P' := by
  rcases a with ⟨journal, result⟩
  cases result with
  | error e => exact hSafe
  | ok x => exact hMono x hSafe

/- What a safe answer holds, if it holds a value. -/
theorem Safe.of_ok
    {a : Answer α}
    (hSafe : a.Safe P)
    {x : α}
    (hResult : a.result = .ok x) :
    P x := by
  rw [Safe, hResult] at hSafe
  exact hSafe

theorem Safe.of_error
    {a : Answer α}
    (hSafe : a.Safe P)
    {e : Failure}
    (hResult : a.result = .error e) :
    e.IsRaised := by
  rw [Safe, hResult] at hSafe
  exact hSafe

/- Going on safely with a safe answer. -/
theorem Safe.bind'
    {a : Answer α}
    {f : α → Answer β}
    (hSafe : a.Safe P)
    (hNext : ∀ x, a.result = .ok x → P x → (f x).Safe Q) :
    (a.bind f).Safe Q := by
  rcases a with ⟨journal, result⟩
  cases result with
  | error e => exact hSafe
  | ok x => exact hNext x rfl hSafe

theorem Safe.bind
    {a : Answer α}
    {f : α → Answer β}
    (hSafe : a.Safe P)
    (hNext : ∀ x, P x → (f x).Safe Q) :
    (a >>= f).Safe Q :=
  hSafe.bind' (fun x _ hX => hNext x hX)

theorem Safe.map
    {a : Answer α}
    {f : α → β}
    (hSafe : a.Safe P)
    (hMap : ∀ x, P x → Q (f x)) :
    (a.map f).Safe Q := by
  rcases a with ⟨journal, result⟩
  cases result with
  | error e => exact hSafe
  | ok x => exact hMap x hSafe

@[simp] theorem safe_after_iff
    (journal : Journal)
    (a : Answer α) :
    (a.after journal).Safe P ↔ a.Safe P :=
  Iff.rfl

@[simp] theorem safe_relocate_iff
    (wrap : Journal → Event)
    (a : Answer α) :
    (a.relocate wrap).Safe P ↔ a.Safe P :=
  Iff.rfl

@[simp] theorem safe_count
    (c : Counter) :
    (count c).Safe (fun _ => True) :=
  trivial

theorem safe_ofEvaluation
    {result : Except EvaluationError α}
    (hResult : RaisesOnly result)
    (hP : ∀ x, result = .ok x → P x) :
    (ofEvaluation result).Safe P := by
  cases result with
  | error e => exact hResult
  | ok x => exact hP x rfl

theorem safe_ofExcept
    {result : Except Failure α}
    {x : α}
    (hResult : result = .ok x)
    (hX : P x) :
    (ofExcept result).Safe P := by
  subst hResult
  exact hX

theorem safe_sequence
    {as : List (Answer α)}
    (hSafe : ∀ a ∈ as, a.Safe P) :
    (sequence as).Safe (fun xs => ∀ x ∈ xs, P x) := by
  induction as with
  | nil => exact safe_pure (by simp)
  | cons a rest ih =>
      have hRest :=
        ih (fun b hB => hSafe b (List.mem_cons_of_mem _ hB))
      refine (hSafe a List.mem_cons_self).bind
        (fun x hX => ?_)
      refine hRest.map (fun xs hXs => ?_)
      exact List.forall_mem_cons.mpr ⟨hX, hXs⟩

/- An answer that settles is safe. -/
theorem safe_of_value?
    {a : Answer α}
    {x : α}
    (hValue : a.value? = some x)
    (hX : P x) :
    a.Safe P := by
  rw [Safe, result_eq_ok_of_value? hValue]
  exact hX

/- Whether an answer has a value is decided by its result. -/
theorem isOk_iff
    {a : Answer α} :
    a.isOk = true ↔ ∃ x, a.result = .ok x := by
  rcases a with ⟨journal, result⟩
  cases result with
  | error e => simp [isOk, Except.isOk, Except.toBool]
  | ok x => simp [isOk, Except.isOk, Except.toBool]

/- The steps of an answer that has a value have values. -/
theorem bind_result_eq_ok_iff
    {a : Answer α}
    {f : α → Answer β}
    {y : β} :
    (a.bind f).result = .ok y ↔
      ∃ x, a.result = .ok x ∧ (f x).result = .ok y := by
  rcases a with ⟨journal, result⟩
  cases result with
  | error e => simp [Answer.bind]
  | ok x => simp [Answer.bind]

end Answer

end Flwor

------------------------------------------------------------
-- Tapes
------------------------------------------------------------

namespace Flwor

namespace Tape

/-
  A tape of rows of a width.  Its rows are promised only
  where opening it succeeds.
-/
structure Yields
    (width : Nat)
    (tape : Tape) : Prop where
  opening : tape.opening.Safe (fun _ => True)
  rows : tape.opening.isOk = true →
    ∀ a ∈ tape.rows, a.Safe (fun row => row.length = width)

variable {width wider : Nat}
variable {tape : Tape}

theorem yields_ofRows
    {rows : List Row}
    (hRows : ∀ row ∈ rows, row.length = width) :
    (ofRows rows).Yields width := by
  refine ⟨trivial, fun _ a hA => ?_⟩
  rcases List.mem_map.mp hA with ⟨row, hMem, rfl⟩
  exact Answer.safe_pure (hRows row hMem)

theorem Yields.recorded
    (hYields : tape.Yields width) :
    tape.recorded.Yields width := by
  refine ⟨hYields.opening, fun hOpen a hA => ?_⟩
  rcases List.mem_map.mp hA with ⟨b, hMem, rfl⟩
  exact hYields.rows hOpen b hMem

theorem Yields.asInput
    (hYields : tape.Yields width)
    (side : Side) :
    (tape.asInput side).Yields width := by
  refine ⟨hYields.opening, fun hOpen a hA => ?_⟩
  rcases List.mem_map.mp hA with ⟨b, hMem, rfl⟩
  exact hYields.rows hOpen b hMem

/- All rows of a tape that is read from its opening on. -/
theorem Yields.readAll
    (hYields : tape.Yields width)
    (hSettles : tape.Settles) :
    tape.readAll.Safe
      (fun rows => ∀ row ∈ rows, row.length = width) := by
  refine hYields.opening.bind' (fun u hOpen _ => ?_)
  have hRows :=
    hYields.rows (Answer.isOk_iff.mpr ⟨u, hOpen⟩)
  refine (Answer.safe_sequence hRows).bind
    (fun rows hAll => ?_)
  have hEnding : tape.ending.Safe (fun _ => True) :=
    Answer.safe_of_value? hSettles.ending trivial
  exact hEnding.bind (fun _ _ => Answer.safe_return hAll)

end Tape

end Flwor

------------------------------------------------------------
-- Tapes over Tapes
------------------------------------------------------------

namespace Flwor

namespace Tape

variable {width wider : Nat}
variable {tape : Tape}

/-
  Replacing rows safely keeps all answers safe; the journal
  that is carried along does not matter.
-/
theorem safe_expandRows
    {P Q : Row → Prop}
    {f : Row → Answer (List Row)}
    (hF : ∀ row, P row →
      (f row).Safe (fun rows => ∀ row ∈ rows, Q row))
    (carry : Journal)
    (answers : List (Answer Row))
    (hAnswers : ∀ a ∈ answers, a.Safe P) :
    ∀ a ∈ (expandRows f carry answers).1, a.Safe Q := by
  induction answers generalizing carry with
  | nil => simp [expandRows]
  | cons a rest ih =>
      have hRest (journal : Journal) :=
        ih journal (fun b hB =>
          hAnswers b (List.mem_cons_of_mem _ hB))
      have hStep : ((a.bind f).after carry).Safe
          (fun rows => ∀ row ∈ rows, Q row) :=
        (hAnswers a List.mem_cons_self).bind hF
      rw [expandRows]
      dsimp only
      split
      · next e hResult =>
          refine List.forall_mem_cons.mpr
            ⟨?_, hRest []⟩
          exact Answer.safe_error _ (hStep.of_error hResult)
      · exact hRest _
      · next row more hResult =>
          have hRows := hStep.of_ok hResult
          refine List.forall_mem_cons.mpr ⟨?_, ?_⟩
          · exact Answer.safe_ok _
              (hRows row List.mem_cons_self)
          · intro b hB
            rcases List.mem_append.mp hB with hMore | hLater
            · rcases List.mem_map.mp hMore with
                ⟨r, hMem, rfl⟩
              exact Answer.safe_pure
                (hRows r (List.mem_cons_of_mem _ hMem))
            · exact hRest [] b hLater

theorem Yields.expand
    (hYields : tape.Yields width)
    {f : Row → Answer (List Row)}
    (hF : ∀ row, row.length = width →
      (f row).Safe
        (fun rows => ∀ row ∈ rows, row.length = wider)) :
    (tape.expand f).Yields wider :=
  ⟨hYields.opening, fun hOpen =>
    safe_expandRows hF [] tape.rows (hYields.rows hOpen)⟩

theorem safe_numberRows
    (n : Nat)
    (answers : List (Answer Row))
    (hAnswers : ∀ a ∈ answers,
      a.Safe (fun row => row.length = width)) :
    ∀ a ∈ numberRows n answers,
      a.Safe (fun row => row.length = width + 1) := by
  induction answers generalizing n with
  | nil => simp [numberRows]
  | cons a rest ih =>
      have hRest (n : Nat) :=
        ih n (fun b hB =>
          hAnswers b (List.mem_cons_of_mem _ hB))
      have hA := hAnswers a List.mem_cons_self
      rw [numberRows]
      split
      · next e hResult =>
          exact List.forall_mem_cons.mpr
            ⟨Answer.safe_error _ (hA.of_error hResult),
              hRest n⟩
      · next row hResult =>
          refine List.forall_mem_cons.mpr
            ⟨Answer.safe_ok _ ?_, hRest (n + 1)⟩
          rw [List.length_append, hA.of_ok hResult]
          rfl

theorem Yields.numbered
    (hYields : tape.Yields width) :
    tape.numbered.Yields (width + 1) :=
  ⟨hYields.opening, fun hOpen =>
    safe_numberRows 1 tape.rows (hYields.rows hOpen)⟩

theorem Yields.buffered
    (hYields : tape.Yields width)
    (hSettles : tape.Settles)
    {produce : List Row → Answer (List Row)}
    (hProduce : ∀ rows,
      (∀ row ∈ rows, row.length = width) →
        (produce rows).Safe
          (fun rows => ∀ row ∈ rows, row.length = wider)) :
    (tape.buffered produce).Yields wider := by
  let filled : Answer (List Row) := do
    let rows ← tape.readAll
    tape.closing
    produce rows
  have hFilled : filled.Safe
      (fun rows => ∀ row ∈ rows, row.length = wider) := by
    refine (hYields.readAll hSettles).bind
      (fun rows hRows => ?_)
    have hClosing : tape.closing.Safe (fun _ => True) :=
      Answer.safe_of_value? hSettles.closing trivial
    exact hClosing.bind (fun _ _ => hProduce rows hRows)
  refine ⟨?_, fun _ a hA => ?_⟩
  · exact hFilled.bind (fun _ _ => Answer.safe_pure trivial)
  · unfold Tape.buffered at hA
    dsimp only at hA
    split at hA
    · next rows hResult =>
        rcases List.mem_map.mp hA with ⟨row, hMem, rfl⟩
        exact Answer.safe_pure
          (hFilled.of_ok hResult row hMem)
    · cases hA

end Tape

end Flwor

------------------------------------------------------------
-- Consumed Cursors
------------------------------------------------------------

namespace Flwor

namespace Cursor

variable {σ : Type}

theorem safe_feed
    {P : Row → Prop}
    {each : σ → Row → Answer σ}
    (hEach : ∀ state row, P row →
      (each state row).Safe (fun _ => True))
    {ending : Answer Unit}
    (hEnding : ending.Safe (fun _ => True))
    (state : σ)
    (answers : List (Answer Row))
    (hAnswers : ∀ a ∈ answers, a.Safe P) :
    (feed each ending state answers).2.Safe
      (fun _ => True) := by
  induction answers generalizing state with
  | nil => exact hEnding
  | cons a rest ih =>
      have hStep :
          (a.bind (each state)).Safe (fun _ => True) :=
        (hAnswers a List.mem_cons_self).bind (hEach state)
      rw [feed]
      dsimp only
      split
      · next e hResult =>
          exact Answer.safe_error _ (hStep.of_error hResult)
      · exact ih _ (fun b hB =>
          hAnswers b (List.mem_cons_of_mem _ hB))

/-
  A fresh cursor is consumed without a breach of protocol: it
  is opened once, and asked for rows only if that succeeded.
-/
theorem safe_forEach
    {width : Nat}
    {tape : Tape}
    (hYields : tape.Yields width)
    (hSettles : tape.Settles)
    {each : σ → Row → Answer σ}
    (hEach : ∀ state row, row.length = width →
      (each state row).Safe (fun _ => True))
    (state : σ) :
    ((create tape).forEach each state).2.1.Safe
      (fun _ => True) := by
  have hEnding : tape.ending.Safe (fun _ => True) :=
    Answer.safe_of_value? hSettles.ending trivial
  have hClosing : tape.closing.Safe (fun _ => True) :=
    Answer.safe_of_value? hSettles.closing trivial
  have hBoth (pulled : Answer Unit)
      (hPulled : pulled.Safe (fun _ => True)) :
      (pulled.both tape.closing).Safe (fun _ => True) := by
    rcases pulled with ⟨journal, result⟩
    cases result with
    | error e => exact hPulled
    | ok u => exact hClosing
  simp only [forEach, create, openUp, close]
  refine hBoth _ ?_
  split
  · next e hResult =>
      exact Answer.safe_error _
        (hYields.opening.of_error hResult)
  · next hResult =>
      exact safe_feed hEach hEnding state tape.rows
        (hYields.rows (Answer.isOk_iff.mpr ⟨_, hResult⟩))

end Cursor

end Flwor
