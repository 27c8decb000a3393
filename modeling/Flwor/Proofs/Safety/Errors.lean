import Flwor.Library
import Flwor.Operator.Join

/-
  The errors of operators and functions: whatever their
  operands are, they raise errors about values and never one
  about a name.

  Key definitions include:
    * `EvaluationError.IsRaised`
    * `RaisesOnly`
    * `QueryFunction.IsSafe`

  Key theorems include:
    * `ArithmeticOp.raisesOnly_apply`
    * `Comparison.raisesOnly_apply`
    * `Probe.raisesOnly_joinRow`
    * `Library.isSafe_of_mem_standard`
    * `Library.mem_of_resolve`
-/

------------------------------------------------------------
-- Raised Errors
------------------------------------------------------------

namespace Flwor

/-
  An error about the values that an operator or a function
  was given: a type mismatch, too many items, a division by
  zero, an overflow, a missing boolean value or an argument
  that a function refuses.
-/
def EvaluationError.IsRaised : EvaluationError → Prop
  | .mismatch _ => True
  | .notSingleton .. => True
  | .divisionByZero => True
  | .overflow _ => True
  | .noBooleanValue _ => True
  | .mixedExtremum .. => True
  | .badPosition _ => True
  | .unknownFunction .. => False
  | .undefinedVariable _ => False

variable {α β : Type}

/- A result that is a value or a raised error. -/
def RaisesOnly : Except EvaluationError α → Prop
  | .ok _ => True
  | .error e => e.IsRaised

namespace RaisesOnly

@[simp] theorem ok
    (x : α) :
    RaisesOnly (.ok x : Except EvaluationError α) :=
  trivial

@[simp] theorem pure
    (x : α) :
    RaisesOnly (Pure.pure x : Except EvaluationError α) :=
  trivial

@[simp] theorem error_iff
    (e : EvaluationError) :
    RaisesOnly (.error e : Except EvaluationError α) ↔
      e.IsRaised :=
  Iff.rfl

theorem bind
    {result : Except EvaluationError α}
    {f : α → Except EvaluationError β}
    (hResult : RaisesOnly result)
    (hNext : ∀ x, RaisesOnly (f x)) :
    RaisesOnly (result >>= f) := by
  cases result with
  | error e => exact hResult
  | ok x => exact hNext x

theorem map
    {result : Except EvaluationError α}
    (hResult : RaisesOnly result)
    (f : α → β) :
    RaisesOnly (result.map f) := by
  cases result with
  | error e => exact hResult
  | ok x => trivial

end RaisesOnly

end Flwor

------------------------------------------------------------
-- Operators
------------------------------------------------------------

namespace Flwor

attribute [local simp] EvaluationError.IsRaised

namespace Sequence

theorem raisesOnly_single?
    (place : String)
    (s : Sequence) :
    RaisesOnly (single? place s) := by
  unfold single?
  split <;> simp

theorem raisesOnly_booleanValue
    (s : Sequence) :
    RaisesOnly s.booleanValue := by
  unfold booleanValue
  split <;> simp

end Sequence

namespace Integer

theorem raisesOnly_narrow
    (place : String)
    (n : Int) :
    RaisesOnly (narrow place n) := by
  unfold narrow
  split <;> simp

end Integer

namespace ArithmeticOp

theorem raisesOnly_onIntegers
    (op : ArithmeticOp)
    (a b : Int) :
    RaisesOnly (op.onIntegers a b) := by
  unfold onIntegers
  cases op with
  | add => exact Integer.raisesOnly_narrow _ _
  | sub => exact Integer.raisesOnly_narrow _ _
  | mul => exact Integer.raisesOnly_narrow _ _
  | div =>
      dsimp only
      split
      · simp
      · split
        · exact Integer.raisesOnly_narrow _ _
        · simp
  | idiv =>
      dsimp only
      split
      · simp
      · exact Integer.raisesOnly_narrow _ _
  | mod =>
      dsimp only
      split
      · simp
      · exact (Integer.raisesOnly_narrow _ _).bind
          (fun _ => .ok _)

theorem raisesOnly_onDoubles
    (op : ArithmeticOp)
    (x y : Double) :
    RaisesOnly (op.onDoubles x y) := by
  cases op with
  | idiv =>
      unfold onDoubles wholeQuotient
      dsimp only
      split
      · simp
      · split
        · simp
        · split <;> simp
  | _ => trivial

theorem raisesOnly_apply
    (op : ArithmeticOp)
    (a b : Item) :
    RaisesOnly (op.apply a b) := by
  unfold apply
  split
  · exact raisesOnly_onIntegers op _ _
  · split
    · exact raisesOnly_onDoubles op _ _
    · simp

end ArithmeticOp

namespace Item

theorem raisesOnly_compare
    (relation : Relation)
    (a b : Item) :
    RaisesOnly (a.compare relation b) := by
  unfold compare
  split
  · split <;> simp
  · simp [incomparable]

end Item

namespace Comparison

theorem raisesOnly_apply
    (c : Comparison)
    (s t : Sequence) :
    RaisesOnly (c.apply s t) := by
  cases c with
  | general r => trivial
  | value r =>
      refine (Sequence.raisesOnly_single? _ s).bind ?_
      intro a
      refine (Sequence.raisesOnly_single? _ t).bind ?_
      intro b
      split
      · exact (Item.raisesOnly_compare r _ _).bind
          (fun _ => .pure _)
      · exact .pure none

end Comparison

end Flwor

------------------------------------------------------------
-- Joins
------------------------------------------------------------

namespace Flwor

namespace Probe

theorem raisesOnly_scan
    (comparison : Comparison)
    (key : Sequence)
    (rights : List (Sequence × Nat)) :
    RaisesOnly (scan comparison key rights) := by
  induction rights with
  | nil => trivial
  | cons right rest ih =>
      refine (comparison.raisesOnly_apply key right.1).bind ?_
      intro answer
      exact ih.bind (fun more => .pure _)

theorem raisesOnly_candidates
    (probe : Probe)
    (comparison : Comparison)
    (key : Sequence) :
    RaisesOnly (probe.candidates comparison key) := by
  cases probe with
  | hashed table => trivial
  | sorted entries => trivial
  | scanned keys => exact raisesOnly_scan comparison key _

theorem raisesOnly_joinRow
    (probe : Probe)
    (comparison : Comparison)
    (leftJoin skipSort : Bool)
    (rightWidth : Nat)
    (rights : Array (List Sequence))
    (left : Row)
    (key : Sequence) :
    RaisesOnly (probe.joinRow comparison leftJoin skipSort
      rightWidth rights left key) := by
  have hMatching := RaisesOnly.map
    (probe.raisesOnly_candidates comparison key)
    (arrange skipSort)
  refine RaisesOnly.bind hMatching ?_
  intro rows
  split <;> exact .pure _

end Probe

end Flwor

------------------------------------------------------------
-- Functions
------------------------------------------------------------

namespace Flwor

attribute [local simp] EvaluationError.IsRaised

/-
  A function that answers any arguments with a value or a
  raised error.
-/
def QueryFunction.IsSafe
    (f : QueryFunction) : Prop :=
  ∀ args, RaisesOnly (f.apply args)

namespace Library

theorem raisesOnly_addItems
    (total : Item)
    (items : List Item) :
    RaisesOnly (addItems total items) := by
  induction items generalizing total with
  | nil => trivial
  | cons a rest ih =>
      rw [addItems]
      split
      · simp [throw, throwThe, MonadExceptOf.throw,
          Bind.bind, Except.bind]
      · exact (ArithmeticOp.raisesOnly_apply .add total
          a).bind ih

theorem raisesOnly_sum
    (s default : Sequence) :
    RaisesOnly (sum s default) := by
  cases s with
  | nil => trivial
  | cons a rest =>
      rw [sum]
      split
      · simp
      · exact (raisesOnly_addItems a rest).map _

theorem raisesOnly_extremum
    (function : String)
    (wanted : Ordering)
    (best : Option Item)
    (items : List Item) :
    RaisesOnly (extremum function wanted best items) := by
  induction items generalizing best with
  | nil => trivial
  | cons a rest ih =>
      unfold extremum
      split
      · trivial
      · split
        · exact ih _
        · split
          · simp
          · exact ih _

theorem raisesOnly_joinTexts
    (s : Sequence)
    (separator : Option Sequence) :
    RaisesOnly (joinTexts s separator) := by
  cases separator with
  | none => trivial
  | some t =>
      exact (Sequence.raisesOnly_single? _ t).bind
        (fun item => .pure _)

theorem raisesOnly_position
    (arg : Sequence) :
    RaisesOnly (position arg) := by
  refine (Sequence.raisesOnly_single? _ arg).bind ?_
  intro item
  split
  · trivial
  · split <;> trivial

theorem raisesOnly_substring
    (text start : Sequence)
    (length : Option Sequence) :
    RaisesOnly (substring text start length) := by
  refine (Sequence.raisesOnly_single? _ text).bind ?_
  intro item
  split
  · trivial
  · refine (raisesOnly_position start).bind ?_
    intro first
    cases length with
    | none => trivial
    | some l =>
        exact (raisesOnly_position l).bind
          (fun size => .pure _)
  · trivial

theorem isSafe_unary
    (name : String)
    {apply : Sequence → Except EvaluationError Sequence}
    (hApply : ∀ s, RaisesOnly (apply s)) :
    (unary name apply).IsSafe :=
  fun args => hApply (argument args 0)

theorem isSafe_predicate
    (name : String)
    {test : Sequence → Except EvaluationError Bool}
    (hTest : ∀ s, RaisesOnly (test s)) :
    (predicate name test).IsSafe :=
  isSafe_unary name (fun s => (hTest s).map _)

theorem isSafe_extreme
    (name : String)
    (wanted : Ordering) :
    (extreme name wanted).IsSafe :=
  isSafe_unary name
    (fun s => (raisesOnly_extremum name wanted none s).map _)

/- Every standard function is safe. -/
theorem isSafe_of_mem_standard :
    ∀ f ∈ standard, f.IsSafe := by
  have hNot (s : Sequence) :
      RaisesOnly (s.booleanValue.map (fun b => !b)) :=
    (Sequence.raisesOnly_booleanValue s).map _
  simp only [standard, List.forall_mem_cons]
  refine ⟨isSafe_unary _ (fun s => .ok _), ?_,
    isSafe_extreme _ _, isSafe_extreme _ _,
    isSafe_predicate _ (fun s => .ok _),
    isSafe_predicate _ (fun s => .ok _),
    isSafe_predicate _ hNot,
    isSafe_predicate _ Sequence.raisesOnly_booleanValue,
    isSafe_unary _ (fun s => .ok _),
    isSafe_unary _ (fun s => .ok _),
    isSafe_unary _ (fun s => .ok _), ?_, ?_,
    List.forall_mem_nil _⟩
  · exact fun args => raisesOnly_sum _ _
  · exact fun args => raisesOnly_joinTexts _ _
  · exact fun args => raisesOnly_substring _ _ _

/- A call is resolved to a function of the library. -/
theorem mem_of_resolve
    {library : Library}
    {name : String}
    {arity : Nat}
    {f : QueryFunction}
    (hResolve : library.resolve name arity = .ok f) :
    f ∈ library := by
  rw [resolve] at hResolve
  split at hResolve
  · next g hFind =>
      cases hResolve
      exact List.mem_reverse.mp (List.mem_of_find?_eq_some hFind)
  · cases hResolve

end Library

end Flwor
