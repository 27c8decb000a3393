import Flwor.Proofs.Items.Rounding
import Flwor.Proofs.Items.Truncation

/-
  Division to an integer when one operand is a double.

  The quotient is rounded to a double first and truncated
  then.  What comes out is this integer or an overflow, with
  one exception: the range test admits `2 ^ 63`, to which the
  greatest integer is rounded, and answers the greatest
  integer for it.

  Key definitions include:
    * `ArithmeticOp.answer`
    * `ArithmeticOp.Whole`

  Key theorems include:
    * `ArithmeticOp.answer_idiv_cases`
    * `ArithmeticOp.doubles_idiv`
-/

------------------------------------------------------------
-- Quotients
------------------------------------------------------------

namespace Flwor

namespace ArithmeticOp

variable {a b : Item}
variable {x y : Double}

/- The result on two items, or the code of the error. -/
def answer
    (op : ArithmeticOp)
    (a b : Item) : Except String Item :=
  (op.apply a b).mapError EvaluationError.code

/-
  What a rounded quotient is answered by: its integer part if
  this fits in 64 bits, and the greatest integer if it is the
  integer after that.
-/
def Whole
    (r : ℚ)
    (n : ℤ) : Prop :=
  Integer.inRange (Integer.towardZero r) = true ∧
      n = Integer.towardZero r ∨
    Integer.towardZero r = 2 ^ 63 ∧ n = Integer.greatest

/- One double makes both operands doubles. -/
theorem answer_of_double
    (op : ArithmeticOp)
    (hX : a.toDouble? = some x)
    (hY : b.toDouble? = some y)
    (hDouble : a.type = .double ∨ b.type = .double) :
    op.answer a b =
      (op.onDoubles x y).mapError EvaluationError.code := by
  have hApply : op.apply a b = op.onDoubles x y := by
    unfold apply
    split
    next => rcases hDouble with hType | hType <;> cases hType
    next => rw [hX, hY]
  rw [answer, hApply]

/- The integers that the range test admits. -/
theorem admitted_iff
    (q : ℤ) :
    ¬(q < Integer.least ∨ Int.pow 2 63 < q) ↔
      Integer.inRange q = true ∨ q = 2 ^ 63 := by
  have hLeast : Integer.least = -2 ^ 63 := rfl
  have hGreatest : Integer.greatest = 2 ^ 63 - 1 := rfl
  have hBound : Int.pow 2 63 = 2 ^ 63 := rfl
  rw [Integer.inRange, Bool.and_eq_true, decide_eq_true_eq,
    decide_eq_true_eq, hLeast, hGreatest, hBound]
  omega

/- A divisor of zero is refused before all else. -/
theorem onDoubles_idiv_zero
    (x : Double)
    (hZero : y.isZero = true) :
    idiv.onDoubles x y = .error .divisionByZero :=
  if_pos hZero

/- A finite quotient is answered or overflows. -/
theorem onDoubles_idiv_finite
    {r : ℚ}
    (hNonzero : y.isZero = false)
    (hR : (x.div y).number? = some (.finite r)) :
    (∃ n, Whole r n ∧ idiv.onDoubles x y = .ok (.int n)) ∨
      (∀ n, ¬Whole r n) ∧
        idiv.onDoubles x y = .error (.overflow "idiv") := by
  have hWhole := Double.truncate?_eq_some_iff.mpr
    ⟨r, hR, rfl⟩
  have hIff := admitted_iff (Integer.towardZero r)
  have hMin (hFits : Integer.inRange (Integer.towardZero r)) :
      min (Integer.towardZero r) Integer.greatest =
        Integer.towardZero r := by
    rw [Integer.inRange, Bool.and_eq_true,
      decide_eq_true_eq, decide_eq_true_eq] at hFits
    exact min_eq_left hFits.2
  simp only [onDoubles, wholeQuotient, hNonzero,
    Bool.false_eq_true, if_false, hWhole]
  split
  next hBeyond =>
    refine .inr ⟨fun n hN => ?_, rfl⟩
    refine hIff.mpr ?_ hBeyond
    exact hN.imp And.left And.left
  next hWithin =>
    refine .inl ⟨_, ?_, rfl⟩
    rcases hIff.mp hWithin with hFits | hTop
    · exact .inl ⟨hFits, hMin hFits⟩
    · refine .inr ⟨hTop, ?_⟩
      rw [hTop]
      rfl

/- A quotient that is not finite overflows. -/
theorem onDoubles_idiv_other
    (hNonzero : y.isZero = false)
    (hOther : ∀ r, (x.div y).number? ≠ some (.finite r)) :
    idiv.onDoubles x y = .error (.overflow "idiv") := by
  have hNone := Double.truncate?_eq_none_iff.mpr hOther
  simp only [onDoubles, wholeQuotient, hNonzero,
    Bool.false_eq_true, if_false, hNone]

/- A quotient is answered by one integer. -/
theorem Whole.unique
    {r : ℚ}
    {m n : ℤ}
    (hM : Whole r m)
    (hN : Whole r n) :
    m = n := by
  have hTop : Integer.inRange (2 ^ 63) = false := rfl
  rcases hM with ⟨hFits, rfl⟩ | ⟨hOver, rfl⟩ <;>
    rcases hN with ⟨hFits', rfl⟩ | ⟨hOver', rfl⟩
  · rfl
  · rw [hOver', hTop] at hFits
    cases hFits
  · rw [hOver, hTop] at hFits'
    cases hFits'
  · rfl

/-
  With a divisor other than zero, a finite quotient that is
  admitted is answered, and any other one overflows.
-/
theorem onDoubles_idiv_cases
    (hNonzero : y.isZero = false) :
    (∃ r n, (x.div y).number? = some (.finite r) ∧
        Whole r n ∧ idiv.onDoubles x y = .ok (.int n)) ∨
      (∀ r, (x.div y).number? = some (.finite r) →
          ∀ n, ¬Whole r n) ∧
        idiv.onDoubles x y = .error (.overflow "idiv") := by
  by_cases hFinite :
      ∃ r, (x.div y).number? = some (.finite r)
  · rcases hFinite with ⟨r, hR⟩
    rcases onDoubles_idiv_finite hNonzero hR with
      ⟨n, hWhole, hOk⟩ | ⟨hNone, hError⟩
    · exact .inl ⟨r, n, hR, hWhole, hOk⟩
    · refine .inr ⟨fun r' hR' => ?_, hError⟩
      obtain rfl : r = r' := by
        rw [hR] at hR'
        cases hR'
        rfl
      exact hNone
  · rw [not_exists] at hFinite
    exact .inr ⟨fun r hR => absurd hR (hFinite r),
      onDoubles_idiv_other hNonzero hFinite⟩

/-
  Division to an integer of operands of which one is a double.
  A divisor of zero is refused.  Otherwise the quotient is
  rounded once, and its integer part is given if it fits in
  64 bits.  The integer after the greatest one is given as the
  greatest, and whatever is not finite or lies further out
  overflows.
-/
theorem doubles_idiv
    {a b : Item}
    {x y : Double}
    (hX : a.toDouble? = some x)
    (hY : b.toDouble? = some y)
    (hDouble : a.type = .double ∨ b.type = .double) :
    (idiv.answer a b = .error "FOAR0001" ↔
      y.isZero = true) ∧
      (∀ p d, x.number? = some (.finite p) →
        y.number? = some (.finite d) → d ≠ 0 →
          Double.Rounds (p / d) (x.div y)) ∧
      (y.isZero = false →
        (∀ item, idiv.answer a b = .ok item ↔
          ∃ r, (x.div y).number? = some (.finite r) ∧
            ∃ n, Whole r n ∧ item = .int n) ∧
        (idiv.answer a b = .error "FOAR0002" ↔
          ∀ r, (x.div y).number? = some (.finite r) →
            ∀ n, ¬Whole r n)) := by
  rw [answer_of_double idiv hX hY hDouble]
  refine ⟨⟨fun hRefused => ?_, fun hZero => ?_⟩,
    fun p d => Double.rounds_div, fun hNonzero => ?_⟩
  · by_contra hZero
    rw [Bool.not_eq_true] at hZero
    rcases onDoubles_idiv_cases (x := x) hZero with
      ⟨r, n, -, -, hOk⟩ | ⟨-, hError⟩
    · rw [hOk] at hRefused
      cases hRefused
    · rw [hError] at hRefused
      exact absurd (Except.error.inj hRefused) (by decide)
  · rw [onDoubles_idiv_zero x hZero]
    rfl
  · rcases onDoubles_idiv_cases (x := x) hNonzero with
      ⟨r, n, hR, hWhole, hOk⟩ | ⟨hNone, hError⟩
    · rw [hOk]
      refine ⟨fun item => ⟨?_, ?_⟩, ?_, fun hNone => ?_⟩
      · intro hItem
        cases hItem
        exact ⟨r, hR, n, hWhole, rfl⟩
      · rintro ⟨r', hR', m, hM, rfl⟩
        rw [hR] at hR'
        cases hR'
        rw [hWhole.unique hM]
        rfl
      · intro hItem
        cases hItem
      · exact absurd hWhole (hNone r hR n)
    · rw [hError]
      refine ⟨fun item => ⟨?_, ?_⟩, fun _ => hNone, fun _ => rfl⟩
      · intro hItem
        cases hItem
      · rintro ⟨r, hR, n, hWhole, -⟩
        exact absurd hWhole (hNone r hR n)

/-
  A quotient of a negative integer is truncated upward, the
  least integer is still given, and the divisor with the minus
  sign is zero as well.
-/
theorem doubles_idiv_bounds :
    let two : Double := .ofInt 2
    let low : Double := .ofSigned true (1086 * 2 ^ 52)
    idiv.answer (.int (-7)) (.dbl two) = .ok (.int (-3)) ∧
      idiv.answer (.dbl low) (.int 1) =
        .ok (.int Integer.least) ∧
      idiv.answer (.dbl low) (.dbl (.infinite true)) =
        .ok (.int 0) ∧
      idiv.answer (.dbl (.infinite true)) (.dbl two) =
        .error "FOAR0002" ∧
      idiv.answer (.int 1) (.dbl (.zero true)) =
        .error "FOAR0001" := by
  intro two low
  have hWhole
      {q : ℚ}
      {n : ℤ}
      (hFits : Integer.inRange n = true)
      (hN : q.num.tdiv q.den = n) :
      Whole q n := by
    rw [Integer.num_tdiv_den] at hN
    exact .inl ⟨hN ▸ hFits, hN.symm⟩
  rcases doubles_idiv (a := .int (-7)) (b := .dbl two)
      rfl rfl (.inr rfl) with ⟨-, -, hNegative⟩
  rcases doubles_idiv (a := .dbl low) (b := .int 1)
      rfl rfl (.inl rfl) with ⟨-, -, hLeast⟩
  rcases doubles_idiv (a := .dbl low)
      (b := .dbl (.infinite true)) rfl rfl (.inl rfl) with
    ⟨-, -, hSmall⟩
  rcases doubles_idiv (a := .dbl (.infinite true))
      (b := .dbl two) rfl rfl (.inl rfl) with ⟨-, -, hInfinite⟩
  rcases doubles_idiv (a := .int 1) (b := .dbl (.zero true))
      rfl rfl (.inr rfl) with ⟨hZero, -, -⟩
  refine ⟨?_, ?_, ?_, ?_, hZero.mpr (by decide +kernel)⟩
  · refine ((hNegative (by decide +kernel)).1 _).mpr
      ⟨-7 / 2, by decide +kernel, -3, ?_, rfl⟩
    exact hWhole rfl (by decide +kernel)
  · refine ((hLeast (by decide +kernel)).1 _).mpr
      ⟨-2 ^ 63, by decide +kernel, Integer.least, ?_, rfl⟩
    exact hWhole rfl (by decide +kernel)
  · refine ((hSmall (by decide +kernel)).1 _).mpr
      ⟨0, by decide +kernel, 0, ?_, rfl⟩
    exact hWhole rfl (by decide +kernel)
  · refine (hInfinite (by decide +kernel)).2.mpr
      (fun r hR => ?_)
    have hNumber : ((Double.infinite true).div two).number? =
        some .negInfinity := by
      decide +kernel
    rw [hNumber] at hR
    cases hR

/-
  The greatest integer is rounded to `2 ^ 63`, which the range
  test therefore admits.  This quotient does not fit, and the
  greatest integer is answered in its place.
-/
theorem doubles_idiv_saturating :
    let high : Double := .ofSigned false (1086 * 2 ^ 52)
    high.number? = some (.finite (2 ^ 63)) ∧
      (Double.ofInt Integer.greatest).number? =
        some (.finite (2 ^ 63)) ∧
      (high.div (Double.ofInt 1)).number? =
        some (.finite (2 ^ 63)) ∧
      Integer.towardZero (2 ^ 63) = 2 ^ 63 ∧
      Integer.inRange (2 ^ 63) = false ∧
      (Double.ofInt 1).isZero = false ∧
      idiv.apply (.dbl high) (.int 1) =
        .ok (.int Integer.greatest) ∧
      Integer.greatest ≠ 2 ^ 63 ∧
      idiv.answer (.dbl high) (.int 1) ≠
        .error "FOAR0002" := by
  intro high
  have hApply : idiv.apply (.dbl high) (.int 1) =
      .ok (.int Integer.greatest) := by
    decide +kernel
  refine ⟨by decide +kernel, by decide +kernel,
    by decide +kernel, ?_, rfl, by decide +kernel, hApply,
    by decide, ?_⟩
  · rw [← Integer.num_tdiv_den]
    decide +kernel
  · rw [answer, hApply]
    nofun

end ArithmeticOp

end Flwor
