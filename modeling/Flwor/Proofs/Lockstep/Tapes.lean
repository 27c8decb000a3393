import Mathlib.Data.List.Forall2
import Flwor.Cursor

/-
  Answers and tapes in step with each other.

  Two results are in step if both are related values or both
  are the same failure.  Answers in step have also the same
  journal, so that nothing tells one evaluation from the
  other, and tapes in step answer every call in step.

  Key definitions include:
    * `InStep`
    * `Answer.InStep`
    * `Tape.InStep`

  Key theorems include:
    * `Answer.InStep.bind`
    * `Tape.InStep.expand`
    * `Tape.InStep.buffered`
    * `Cursor.forEach_inStep`
-/

------------------------------------------------------------
-- Results
------------------------------------------------------------

namespace Flwor

/- Related values, or one failure. -/
inductive InStep
    {ε α β : Type}
    (R : α → β → Prop) :
    Except ε α → Except ε β → Prop where
  | ok
      {x y}
      (hRelated : R x y) :
      InStep R (.ok x) (.ok y)
  | error (e : ε) :
      InStep R (.error e) (.error e)

namespace InStep

variable {ε α β γ δ : Type}
variable {R R' : α → β → Prop}
variable {S : γ → δ → Prop}
variable {a : Except ε α}
variable {b : Except ε β}

theorem refl
    (a : Except ε α) :
    InStep Eq a a := by
  cases a with
  | error e => exact .error e
  | ok x => exact .ok rfl

theorem eq
    {a b : Except ε α}
    (hStep : InStep Eq a b) :
    a = b := by
  cases hStep with
  | ok hEq => rw [hEq]
  | error e => rfl

theorem mono
    (hStep : InStep R a b)
    (hMono : ∀ x y, R x y → R' x y) :
    InStep R' a b := by
  cases hStep with
  | ok hRelated => exact .ok (hMono _ _ hRelated)
  | error e => exact .error e

theorem bind
    {f : α → Except ε γ}
    {g : β → Except ε δ}
    (hStep : InStep R a b)
    (hNext : ∀ x y, R x y → InStep S (f x) (g y)) :
    InStep S (a >>= f) (b >>= g) := by
  cases hStep with
  | ok hRelated => exact hNext _ _ hRelated
  | error e => exact .error e

/- A first step that both sides share. -/
theorem bind_same
    (a : Except ε α)
    {f : α → Except ε γ}
    {g : α → Except ε δ}
    (hNext : ∀ x, InStep S (f x) (g x)) :
    InStep S (a >>= f) (a >>= g) :=
  (refl a).bind (by
    rintro x _ rfl
    exact hNext x)

theorem map
    {f : α → γ}
    {g : β → δ}
    (hStep : InStep R a b)
    (hMap : ∀ x y, R x y → S (f x) (g y)) :
    InStep S (a.map f) (b.map g) := by
  cases hStep with
  | ok hRelated => exact .ok (hMap _ _ hRelated)
  | error e => exact .error e

/- One step for each element of a list. -/
theorem mapM
    {T : β → γ → Prop}
    {as : List α}
    {f : α → Except ε β}
    {g : α → Except ε γ}
    (hEach : ∀ a ∈ as, InStep T (f a) (g a)) :
    InStep (List.Forall₂ T) (as.mapM f) (as.mapM g) := by
  induction as with
  | nil => exact .ok .nil
  | cons a rest ih =>
      rw [List.forall_mem_cons] at hEach
      rw [List.mapM_cons, List.mapM_cons]
      refine hEach.1.bind (fun x y hHead => ?_)
      refine (ih hEach.2).bind (fun xs ys hRest => ?_)
      exact .ok (.cons hHead hRest)

end InStep

end Flwor

------------------------------------------------------------
-- Answers
------------------------------------------------------------

namespace Flwor

namespace Answer

variable {α β γ δ : Type}

/- The same journal, and results in step. -/
structure InStep
    (R : α → β → Prop)
    (a : Answer α)
    (b : Answer β) : Prop where
  journal : a.journal = b.journal
  result : Flwor.InStep R a.result b.result

variable {R R' : α → β → Prop}
variable {S : γ → δ → Prop}
variable {a : Answer α}
variable {b : Answer β}

namespace InStep

theorem refl
    (a : Answer α) :
    InStep Eq a a :=
  ⟨rfl, .refl _⟩

theorem eq
    {a b : Answer α}
    (hStep : InStep Eq a b) :
    a = b := by
  rcases a with ⟨journal, result⟩
  rcases b with ⟨journal', result'⟩
  rcases hStep with ⟨hJournal, hResult⟩
  cases hJournal
  cases hResult.eq
  rfl

theorem mono
    (hStep : InStep R a b)
    (hMono : ∀ x y, R x y → R' x y) :
    InStep R' a b :=
  ⟨hStep.journal, hStep.result.mono hMono⟩

/- Values at once. -/
theorem ok
    (journal : Journal)
    {x : α}
    {y : β}
    (hRelated : R x y) :
    InStep R ⟨journal, .ok x⟩ ⟨journal, .ok y⟩ :=
  ⟨rfl, .ok hRelated⟩

theorem pure
    {x : α}
    {y : β}
    (hRelated : R x y) :
    InStep R (Pure.pure x : Answer α)
      (Pure.pure y : Answer β) :=
  .ok [] hRelated

theorem error
    (journal : Journal)
    (e : Failure) :
    InStep R ⟨journal, .error e⟩ ⟨journal, .error e⟩ :=
  ⟨rfl, .error e⟩

theorem ofExcept
    {x : Except Failure α}
    {y : Except Failure β}
    (hStep : Flwor.InStep R x y) :
    InStep R (Answer.ofExcept x) (Answer.ofExcept y) :=
  ⟨rfl, hStep⟩

theorem ofEvaluation
    {x : Except EvaluationError α}
    {y : Except EvaluationError β}
    (hStep : Flwor.InStep R x y) :
    InStep R (Answer.ofEvaluation x)
      (Answer.ofEvaluation y) := by
  cases hStep with
  | ok hRelated => exact .ok [] hRelated
  | error e => exact .error [] _

theorem bind'
    {f : α → Answer γ}
    {g : β → Answer δ}
    (hStep : InStep R a b)
    (hNext : ∀ x y, R x y → InStep S (f x) (g y)) :
    InStep S (a.bind f) (b.bind g) := by
  rcases a with ⟨journal, result⟩
  rcases b with ⟨journal', result'⟩
  rcases hStep with ⟨hJournal, hResult⟩
  cases hJournal
  cases hResult with
  | ok hRelated =>
      have hStep := hNext _ _ hRelated
      exact ⟨congrArg (journal ++ ·) hStep.journal,
        hStep.result⟩
  | error e => exact .error _ e

theorem bind
    {f : α → Answer γ}
    {g : β → Answer δ}
    (hStep : InStep R a b)
    (hNext : ∀ x y, R x y → InStep S (f x) (g y)) :
    InStep S (a >>= f) (b >>= g) :=
  hStep.bind' hNext

theorem map
    {f : α → γ}
    {g : β → δ}
    (hStep : InStep R a b)
    (hMap : ∀ x y, R x y → S (f x) (g y)) :
    InStep S (a.map f) (b.map g) :=
  ⟨hStep.journal, hStep.result.map hMap⟩

theorem relocate
    (hStep : InStep R a b)
    (wrap : Journal → Event) :
    InStep R (a.relocate wrap) (b.relocate wrap) := by
  refine ⟨?_, hStep.result⟩
  rw [Answer.relocate, Answer.relocate, hStep.journal]

theorem after
    (hStep : InStep R a b)
    (journal : Journal) :
    InStep R (a.after journal) (b.after journal) :=
  ⟨congrArg (journal ++ ·) hStep.journal, hStep.result⟩

theorem isOk
    (hStep : InStep R a b) :
    a.isOk = b.isOk := by
  rcases a with ⟨journal, result⟩
  rcases b with ⟨journal', result'⟩
  cases hStep.result with
  | ok _ => rfl
  | error e => rfl

/- Answers in order, each in step with its counterpart. -/
theorem sequence
    {answers : List (Answer α)}
    {others : List (Answer β)}
    (hSteps : List.Forall₂ (InStep R) answers others) :
    InStep (List.Forall₂ R) (Answer.sequence answers)
      (Answer.sequence others) := by
  induction hSteps with
  | nil => exact .ok [] .nil
  | cons hHead _ ih =>
      exact hHead.bind' (fun x y hX =>
        ih.map (fun xs ys hXs => .cons hX hXs))

end InStep

end Answer

end Flwor

------------------------------------------------------------
-- Tapes
------------------------------------------------------------

namespace Flwor

namespace Tape

/- The same answers to all calls, but for related rows. -/
structure InStep
    (R : Row → Row → Prop)
    (tape other : Tape) : Prop where
  opening : tape.opening = other.opening
  rows : List.Forall₂ (Answer.InStep R) tape.rows other.rows
  ending : tape.ending = other.ending
  spent : tape.spent = other.spent
  closing : tape.closing = other.closing

variable {R S : Row → Row → Prop}
variable {tape other : Tape}

theorem InStep.ofRow
    {row row' : Row}
    (hRow : R row row') :
    InStep R (ofRows [row]) (ofRows [row']) :=
  ⟨rfl, .cons (.ok [] hRow) .nil, rfl, rfl, rfl⟩

theorem InStep.recorded
    (hStep : InStep R tape other) :
    InStep R tape.recorded other.recorded := by
  refine ⟨?_, ?_, ?_, ?_, ?_⟩
  · simp only [Tape.recorded, hStep.opening]
  · refine List.rel_map (fun a b hBoth => ?_) hStep.rows
    exact hBoth.after _
  · simp only [Tape.recorded, hStep.ending]
  · simp only [Tape.recorded, hStep.spent]
  · simp only [Tape.recorded, hStep.closing]

theorem InStep.asInput
    (hStep : InStep R tape other)
    (side : Side) :
    InStep R (tape.asInput side) (other.asInput side) := by
  refine ⟨?_, ?_, ?_, ?_, ?_⟩
  · simp only [Tape.asInput, hStep.opening]
  · refine List.rel_map (fun a b hBoth => ?_) hStep.rows
    exact hBoth.relocate _
  · simp only [Tape.asInput, hStep.ending]
  · simp only [Tape.asInput, hStep.spent]
  · simp only [Tape.asInput, hStep.closing]

theorem InStep.readAll
    (hStep : InStep R tape other) :
    Answer.InStep (List.Forall₂ R) tape.readAll
      other.readAll := by
  rw [Tape.readAll, Tape.readAll, hStep.opening,
    hStep.ending]
  refine (Answer.InStep.refl _).bind (fun _ _ _ => ?_)
  refine (Answer.InStep.sequence hStep.rows).bind
    (fun rows rows' hRows => ?_)
  refine (Answer.InStep.refl _).bind (fun _ _ _ => ?_)
  exact .pure hRows

/- The journal that is carried along is the same, too. -/
theorem expandRows_inStep
    {f g : Row → Answer (List Row)}
    (hF : ∀ row row', R row row' →
      Answer.InStep (List.Forall₂ S) (f row) (g row'))
    (carry : Journal)
    {answers others : List (Answer Row)}
    (hAnswers :
      List.Forall₂ (Answer.InStep R) answers others) :
    List.Forall₂ (Answer.InStep S)
        (expandRows f carry answers).1
        (expandRows g carry others).1 ∧
      (expandRows f carry answers).2 =
        (expandRows g carry others).2 := by
  induction hAnswers generalizing carry with
  | nil => exact ⟨.nil, rfl⟩
  | @cons a b rest rest' hHead _ ih =>
      have hStep := (hHead.bind' hF).after carry
      rw [expandRows, expandRows]
      rcases hA : (a.bind f).after carry with
        ⟨journal, result⟩
      rcases hB : (b.bind g).after carry with
        ⟨journal', result'⟩
      rw [hA, hB] at hStep
      rcases hStep with ⟨hJournal, hResult⟩
      cases hJournal
      cases hResult with
      | error e =>
          exact ⟨.cons (.error _ e) (ih []).1, (ih []).2⟩
      | ok hRows =>
          cases hRows with
          | nil => exact ih journal
          | cons hRow hMore =>
              refine ⟨.cons (.ok _ hRow) ?_, (ih []).2⟩
              refine List.rel_append ?_ (ih []).1
              exact List.rel_map
                (fun _ _ hBoth => .ok [] hBoth) hMore

theorem InStep.expand
    (hStep : InStep R tape other)
    {f g : Row → Answer (List Row)}
    (hF : ∀ row row', R row row' →
      Answer.InStep (List.Forall₂ S) (f row) (g row')) :
    InStep S (tape.expand f) (other.expand g) := by
  rcases expandRows_inStep hF [] hStep.rows with
    ⟨hRows, hLast⟩
  refine ⟨hStep.opening, hRows, ?_, hStep.spent,
    hStep.closing⟩
  simp only [Tape.expand, hStep.ending, hLast]

theorem numberRows_inStep
    (hR : ∀ row row' (n : Nat), R row row' →
      S (row ++ [[.int n]]) (row' ++ [[.int n]]))
    (n : Nat)
    {answers others : List (Answer Row)}
    (hAnswers :
      List.Forall₂ (Answer.InStep R) answers others) :
    List.Forall₂ (Answer.InStep S) (numberRows n answers)
      (numberRows n others) := by
  induction hAnswers generalizing n with
  | nil => exact .nil
  | @cons a b _ _ hHead _ ih =>
      rcases a with ⟨journal, result⟩
      rcases b with ⟨journal', result'⟩
      rcases hHead with ⟨hJournal, hResult⟩
      cases hJournal
      cases hResult with
      | error e => exact .cons (.error _ e) (ih n)
      | ok hRow =>
          exact .cons (.ok _ (hR _ _ n hRow)) (ih (n + 1))

theorem InStep.numbered
    (hStep : InStep R tape other)
    (hR : ∀ row row' (n : Nat), R row row' →
      S (row ++ [[.int n]]) (row' ++ [[.int n]])) :
    InStep S tape.numbered other.numbered :=
  ⟨hStep.opening, numberRows_inStep hR 1 hStep.rows,
    hStep.ending, hStep.spent, hStep.closing⟩

/- What is read at once and then produced. -/
theorem InStep.filled
    (hStep : InStep R tape other)
    {produce produce' : List Row → Answer (List Row)}
    (hProduce : ∀ rows rows', List.Forall₂ R rows rows' →
      Answer.InStep (List.Forall₂ S) (produce rows)
        (produce' rows')) :
    Answer.InStep (List.Forall₂ S)
      (do
        let rows ← tape.readAll
        tape.closing
        produce rows)
      (do
        let rows ← other.readAll
        other.closing
        produce' rows) := by
  refine hStep.readAll.bind (fun rows rows' hRows => ?_)
  rw [hStep.closing]
  exact (Answer.InStep.refl _).bind
    (fun _ _ _ => hProduce _ _ hRows)

/- The rows that are handed out once all are read. -/
theorem produced_inStep
    {filled filled' : Except Failure (List Row)} :
    Flwor.InStep (List.Forall₂ S) filled filled' →
      List.Forall₂ (Answer.InStep S)
        (match filled with
        | .ok rows => rows.map Answer.pure
        | .error _ => [])
        (match filled' with
        | .ok rows => rows.map Answer.pure
        | .error _ => []) := by
  intro hFilled
  cases hFilled with
  | ok hRows =>
      exact List.rel_map (fun _ _ hBoth => .ok [] hBoth)
        hRows
  | error e => exact .nil

theorem InStep.buffered
    (hStep : InStep R tape other)
    {produce produce' : List Row → Answer (List Row)}
    (hProduce : ∀ rows rows', List.Forall₂ R rows rows' →
      Answer.InStep (List.Forall₂ S) (produce rows)
        (produce' rows')) :
    InStep S (tape.buffered produce)
      (other.buffered produce') := by
  have hFilled := hStep.filled hProduce
  refine ⟨?_, ?_, rfl, rfl, ?_⟩
  · exact (hFilled.bind' (S := Eq) (fun _ _ _ =>
      .ok [] rfl)).eq
  · exact produced_inStep hFilled.result
  · simp only [Tape.buffered, hStep.readAll.isOk,
      hStep.closing]

end Tape

end Flwor

------------------------------------------------------------
-- Consumed Cursors
------------------------------------------------------------

namespace Flwor

namespace Cursor

variable {σ : Type}
variable {R : Row → Row → Prop}

/- Two consumers that answer the same to related rows. -/
theorem feed_inStep
    {each each' : σ → Row → Answer σ}
    (hEach : ∀ state row row', R row row' →
      each state row = each' state row')
    (ending : Answer Unit)
    (state : σ)
    {answers others : List (Answer Row)}
    (hAnswers :
      List.Forall₂ (Answer.InStep R) answers others) :
    feed each ending state answers =
      feed each' ending state others := by
  induction hAnswers generalizing state with
  | nil => rfl
  | @cons a b _ _ hHead _ ih =>
      have hStep : a.bind (each state) =
          b.bind (each' state) :=
        (hHead.bind' (S := Eq) (fun row row' hRow =>
          hEach state row row' hRow ▸ .refl _)).eq
      rw [feed, feed, hStep]
      dsimp only
      split
      · rfl
      · rw [ih]

theorem forEach_inStep
    {tape other : Tape}
    (hStep : Tape.InStep R tape other)
    {each each' : σ → Row → Answer σ}
    (hEach : ∀ state row row', R row row' →
      each state row = each' state row')
    (state : σ) :
    ((create tape).forEach each state).1 =
        ((create other).forEach each' state).1 ∧
      ((create tape).forEach each state).2.1 =
        ((create other).forEach each' state).2.1 := by
  have hFeed :=
    feed_inStep hEach other.ending state hStep.rows
  simp only [forEach, create, openUp, close, hStep.opening,
    hStep.ending, hStep.closing, hFeed, and_self]

end Cursor

end Flwor
