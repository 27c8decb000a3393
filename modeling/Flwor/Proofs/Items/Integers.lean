import Flwor.Proofs.Items.Truncation

/-
  Arithmetic on integers is exact.

  The result of an operator is an integer that its operands
  determine, except where a quotient is not whole.  What is
  computed is this integer or an overflow.  A remainder is
  always an integer of 64 bits, but it is refused together
  with the only quotient that is none.

  Key definitions include:
    * `ArithmeticOp.Exact`
    * `ArithmeticOp.outcome`
    * `ArithmeticOp.Last`

  Key theorems include:
    * `Integer.inRange_tdiv_iff`
    * `Integer.inRange_tmod`
    * `ArithmeticOp.onIntegers_of_exact`
    * `ArithmeticOp.integers_exact`
-/

------------------------------------------------------------
-- Quotients and Remainders
------------------------------------------------------------

namespace Flwor

namespace Integer

variable {a b n : ℤ}

theorem narrow_of_inRange
    {place : String}
    (hRange : inRange n = true) :
    narrow place n = .ok (.int n) :=
  if_pos hRange

theorem narrow_of_not_inRange
    {place : String}
    (hRange : inRange n = false) :
    narrow place n = .error (.overflow place) :=
  if_neg (Bool.eq_false_iff.mp hRange)

/- The integers of 64 bits by their size. -/
theorem inRange_iff_le :
    inRange n = true ↔ -2 ^ 63 ≤ n ∧ n ≤ 2 ^ 63 - 1 := by
  have hLeast : least = -2 ^ 63 := rfl
  have hGreatest : greatest = 2 ^ 63 - 1 := rfl
  rw [inRange, Bool.and_eq_true, decide_eq_true_eq,
    decide_eq_true_eq, hLeast, hGreatest]

/- A divisor other than a unit at least halves. -/
private theorem natAbs_tdiv_le_half
    (hTwo : 2 ≤ b.natAbs) :
    (a.tdiv b).natAbs ≤ a.natAbs / 2 := by
  rw [Int.natAbs_tdiv]
  exact Nat.div_le_div_left hTwo Nat.two_pos

/- The only quotient that does not fit is `2 ^ 63`. -/
theorem inRange_tdiv_iff
    (hA : inRange a = true)
    (hNonzero : b ≠ 0) :
    inRange (a.tdiv b) = true ↔ ¬(a = least ∧ b = -1) := by
  have hLeast : least = -2 ^ 63 := rfl
  rw [inRange_iff_le] at hA
  rw [inRange_iff_le, hLeast]
  by_cases hOne : b = 1
  · subst hOne
    rw [Int.tdiv_one]
    omega
  · by_cases hMinus : b = -1
    · subst hMinus
      rw [Int.tdiv_neg, Int.tdiv_one]
      omega
    · have hHalf := natAbs_tdiv_le_half (a := a) (b := b)
        (by omega)
      omega

/- A remainder is smaller than the divisor. -/
theorem inRange_tmod
    (hB : inRange b = true)
    (hNonzero : b ≠ 0) :
    inRange (a.tmod b) = true := by
  rw [inRange_iff_le] at hB ⊢
  have hBound : (a.tmod b).natAbs < b.natAbs := by
    rw [Int.natAbs_tmod]
    exact Nat.mod_lt _ (Int.natAbs_pos.mpr hNonzero)
  omega

/- A quotient is whole if the divisor divides. -/
theorem eq_quotient_iff
    (hNonzero : b ≠ 0) :
    (n : ℚ) = a / b ↔ a.tmod b = 0 ∧ n = a.tdiv b := by
  have hCast : (b : ℚ) ≠ 0 := Int.cast_ne_zero.mpr hNonzero
  rw [eq_div_iff hCast, ← Int.cast_mul, Int.cast_inj]
  constructor
  · rintro rfl
    exact ⟨Int.mul_tmod_left n b,
      (Int.mul_tdiv_cancel n hNonzero).symm⟩
  · rintro ⟨hZero, rfl⟩
    exact Int.tdiv_mul_cancel (Int.dvd_of_tmod_eq_zero hZero)

end Integer

end Flwor

------------------------------------------------------------
-- Exact Results
------------------------------------------------------------

namespace Flwor

namespace ArithmeticOp

variable {a b n : ℤ}

/- The operators with a divisor. -/
def divides : ArithmeticOp → Bool
  | .div => true
  | .idiv => true
  | .mod => true
  | _ => false

/-
  An integer is the exact result of an operator.  Quotients
  are those of the rationals.
-/
def Exact
    (op : ArithmeticOp)
    (a b n : ℤ) : Prop :=
  match op with
  | .add => n = a + b
  | .sub => n = a - b
  | .mul => n = a * b
  | .div => (n : ℚ) = a / b
  | .idiv => n = Integer.towardZero (a / b)
  | .mod => n = a - b * Integer.towardZero (a / b)

/- The result on two integers, or the code of the error. -/
def outcome
    (op : ArithmeticOp)
    (a b : ℤ) : Except String Item :=
  (op.apply (.int a) (.int b)).mapError EvaluationError.code

theorem outcome_eq
    (op : ArithmeticOp) :
    op.outcome a b =
      (op.onIntegers a b).mapError EvaluationError.code :=
  rfl

/- The remainder by truncation. -/
theorem exact_mod_iff :
    mod.Exact a b n ↔ n = a.tmod b := by
  rw [Exact, ← Integer.tdiv_eq_towardZero, Int.tmod_def]

/- Except for remainders, the exact result is narrowed. -/
theorem onIntegers_of_exact
    {op : ArithmeticOp}
    (hDivisor : op.divides = true → b ≠ 0)
    (hExact : op.Exact a b n)
    (hMod : op ≠ .mod) :
    op.onIntegers a b = Integer.narrow op.symbol n := by
  cases op with
  | mod => exact absurd rfl hMod
  | div =>
      have hNonzero := hDivisor rfl
      rcases (Integer.eq_quotient_iff hNonzero).mp hExact with
        ⟨hZero, rfl⟩
      rw [onIntegers, if_neg hNonzero, if_pos hZero]
  | idiv =>
      rw [onIntegers, if_neg (hDivisor rfl), hExact,
        Integer.tdiv_eq_towardZero]
  | _ => rw [onIntegers, hExact]

/- A remainder is refused if the quotient does not fit. -/
theorem onIntegers_mod
    (hA : Integer.inRange a = true)
    (hNonzero : b ≠ 0) :
    mod.onIntegers a b =
      if a = Integer.least ∧ b = -1 then
        .error (.overflow "mod")
      else .ok (.int (a.tmod b)) := by
  have hIff := Integer.inRange_tdiv_iff hA hNonzero
  rw [onIntegers, if_neg hNonzero]
  split
  · rename_i hLast
    rw [Integer.narrow_of_not_inRange
      (Bool.eq_false_iff.mpr (fun h => hIff.mp h hLast))]
    rfl
  · rename_i hLast
    rw [Integer.narrow_of_inRange (hIff.mpr hLast)]
    rfl

/- A quotient that is not whole is a double. -/
theorem onIntegers_div
    (hNonzero : b ≠ 0)
    (hApart : ¬b ∣ a) :
    div.onIntegers a b =
      .ok (.dbl ((Double.ofInt a).div (Double.ofInt b))) := by
  rw [onIntegers, if_neg hNonzero,
    if_neg (mt Int.dvd_of_tmod_eq_zero hApart)]

/- A divisor of zero is refused by all that divide. -/
theorem onIntegers_zero
    {op : ArithmeticOp}
    (hDivides : op.divides = true) :
    op.onIntegers a 0 = .error .divisionByZero := by
  cases op <;> first | rfl | cases hDivides

/- Every operator has an exact result, or is a division. -/
theorem exists_exact
    {op : ArithmeticOp}
    (hDivisor : op.divides = true → b ≠ 0) :
    (∃ n, op.Exact a b n) ∨ op = .div ∧ ¬b ∣ a := by
  by_cases hApart : op = .div ∧ ¬b ∣ a
  · exact .inr hApart
  · refine .inl ?_
    cases op with
    | div =>
        have hWhole : b ∣ a := by
          by_contra hNot
          exact hApart ⟨rfl, hNot⟩
        exact ⟨a.tdiv b,
          (Integer.eq_quotient_iff (hDivisor rfl)).mpr
            ⟨Int.tmod_eq_zero_of_dvd hWhole, rfl⟩⟩
    | _ => exact ⟨_, rfl⟩

/- The remainder refused with its quotient. -/
def Last
    (op : ArithmeticOp)
    (a b : ℤ) : Prop :=
  op = .mod ∧ a = Integer.least ∧ b = -1

/- A result that fits is given, but for one remainder. -/
theorem outcome_of_inRange
    {op : ArithmeticOp}
    (hA : Integer.inRange a = true)
    (hDivisor : op.divides = true → b ≠ 0)
    (hExact : op.Exact a b n)
    (hRange : Integer.inRange n = true)
    (hLast : ¬op.Last a b) :
    op.outcome a b = .ok (.int n) := by
  rw [outcome_eq]
  by_cases hMod : op = .mod
  · subst hMod
    rw [onIntegers_mod hA (hDivisor rfl),
      if_neg (fun h => hLast ⟨rfl, h⟩),
      exact_mod_iff.mp hExact]
    rfl
  · rw [onIntegers_of_exact hDivisor hExact hMod,
      Integer.narrow_of_inRange hRange]
    rfl

/- A result that does not fit is refused. -/
theorem outcome_of_not_inRange
    {op : ArithmeticOp}
    (hB : Integer.inRange b = true)
    (hDivisor : op.divides = true → b ≠ 0)
    (hExact : op.Exact a b n)
    (hRange : Integer.inRange n = false) :
    op.outcome a b = .error "FOAR0002" := by
  have hMod : op ≠ .mod := by
    rintro rfl
    rw [exact_mod_iff.mp hExact,
      Integer.inRange_tmod hB (hDivisor rfl)] at hRange
    cases hRange
  rw [outcome_eq, onIntegers_of_exact hDivisor hExact hMod,
    Integer.narrow_of_not_inRange hRange]
  rfl

theorem outcome_of_last
    {op : ArithmeticOp}
    (hLast : op.Last a b) :
    op.outcome a b = .error "FOAR0002" := by
  rcases hLast with ⟨rfl, rfl, rfl⟩
  rfl

theorem outcome_zero
    {op : ArithmeticOp}
    (hDivides : op.divides = true) :
    op.outcome a 0 = .error "FOAR0001" := by
  rw [outcome_eq, onIntegers_zero hDivides]
  rfl

theorem outcome_div
    (hNonzero : b ≠ 0)
    (hApart : ¬b ∣ a) :
    div.outcome a b =
      .ok (.dbl ((Double.ofInt a).div (Double.ofInt b))) := by
  rw [outcome_eq, onIntegers_div hNonzero hApart]
  rfl

/- Where no divisor is zero, there are three outcomes. -/
theorem outcome_cases
    {op : ArithmeticOp}
    (hA : Integer.inRange a = true)
    (hB : Integer.inRange b = true)
    (hDivisor : op.divides = true → b ≠ 0) :
    (∃ item, op.outcome a b = .ok item) ∨
      op.outcome a b = .error "FOAR0002" ∧
        (op.Last a b ∨
          ∃ n, op.Exact a b n ∧
            Integer.inRange n = false) := by
  rcases exists_exact hDivisor with
    ⟨n, hExact⟩ | ⟨rfl, hApart⟩
  · by_cases hLast : op.Last a b
    · exact .inr ⟨outcome_of_last hLast, .inl hLast⟩
    · cases hRange : Integer.inRange n with
      | true =>
          exact .inl ⟨_, outcome_of_inRange hA hDivisor
            hExact hRange hLast⟩
      | false =>
          exact .inr
            ⟨outcome_of_not_inRange hB hDivisor hExact hRange,
              .inr ⟨n, hExact, hRange⟩⟩
  · exact .inl ⟨_, outcome_div (hDivisor rfl) hApart⟩

/-
  Arithmetic on two integers of 64 bits.  A divisor of zero
  is refused.  Otherwise the exact result is given if it is
  an integer that fits, a double if the quotient is not whole,
  and an overflow if the exact result does not fit.  The one
  overflow beside these is a remainder, which is zero.
-/
theorem integers_exact
    (op : ArithmeticOp)
    {a b : ℤ}
    (hA : Integer.inRange a = true)
    (hB : Integer.inRange b = true) :
    (op.outcome a b = .error "FOAR0001" ↔
      op.divides = true ∧ b = 0) ∧
      ((op.divides = true → b ≠ 0) →
        (∀ n, op.Exact a b n → Integer.inRange n = true →
          ¬(op = .mod ∧ a = Integer.least ∧ b = -1) →
          op.outcome a b = .ok (.int n)) ∧
        (op = .div → ¬b ∣ a →
          op.outcome a b = .ok
            (.dbl ((Double.ofInt a).div (Double.ofInt b)))) ∧
        (op.outcome a b = .error "FOAR0002" ↔
          (∃ n, op.Exact a b n ∧
            Integer.inRange n = false) ∨
          (op = .mod ∧ a = Integer.least ∧ b = -1))) := by
  have hPlain (hDivisor : op.divides = true → b ≠ 0) :=
    outcome_cases hA hB hDivisor
  refine ⟨⟨fun hZero => ?_, ?_⟩, fun hDivisor => ⟨?_, ?_, ?_⟩⟩
  · by_contra hNot
    have hDivisor : op.divides = true → b ≠ 0 :=
      fun hDivides hB => hNot ⟨hDivides, hB⟩
    rcases hPlain hDivisor with ⟨item, hItem⟩ | ⟨hOver, -⟩
    · rw [hZero] at hItem
      cases hItem
    · rw [hZero] at hOver
      exact absurd (Except.error.inj hOver) (by decide)
  · rintro ⟨hDivides, rfl⟩
    exact outcome_zero hDivides
  · exact fun n => outcome_of_inRange hA hDivisor
  · rintro rfl hApart
    exact outcome_div (hDivisor rfl) hApart
  · constructor
    · intro hOver
      rcases hPlain hDivisor with ⟨item, hItem⟩ | ⟨-, hWhy⟩
      · rw [hOver] at hItem
        cases hItem
      · exact hWhy.symm
    · rintro (⟨n, hExact, hRange⟩ | hLast)
      · exact outcome_of_not_inRange hB hDivisor hExact hRange
      · exact outcome_of_last hLast

/-
  The sum of the greatest integer and one is refused, and the
  quotient of minus seven by two is truncated upward.
-/
theorem integers_exact_bounds :
    Integer.inRange Integer.greatest = true ∧
      ArithmeticOp.add.outcome Integer.greatest 1 =
        .error "FOAR0002" ∧
      ArithmeticOp.idiv.outcome (-7) 2 = .ok (.int (-3)) := by
  have hTruncated :
      Integer.towardZero (((-7 : ℤ) : ℚ) / (2 : ℤ)) = -3 := by
    rw [← Integer.tdiv_eq_towardZero]
    rfl
  rcases integers_exact .add
      (a := Integer.greatest) (b := 1) (by decide) (by decide)
    with ⟨-, hSum⟩
  rcases integers_exact .idiv (a := -7) (b := 2)
      (by decide) (by decide) with ⟨-, hQuotient⟩
  refine ⟨by decide, ?_, ?_⟩
  · exact (hSum (by decide)).2.2.mpr
      (.inl ⟨Integer.greatest + 1, rfl, by decide⟩)
  · exact (hQuotient (by decide)).1 (-3) hTruncated.symm
      (by decide) (by decide)

/-
  The least integer leaves no remainder by minus one, and
  this remainder is refused as an overflow.
-/
theorem least_mod_minus_one_refused :
    Integer.inRange Integer.least = true ∧
      Integer.inRange (-1) = true ∧
      ArithmeticOp.mod.Exact Integer.least (-1) 0 ∧
      Integer.inRange 0 = true ∧
      ArithmeticOp.mod.apply (.int Integer.least) (.int (-1)) =
        .error (.overflow "mod") ∧
      ArithmeticOp.mod.outcome Integer.least (-1) =
        .error "FOAR0002" := by
  refine ⟨rfl, rfl, ?_, rfl, rfl, rfl⟩
  exact exact_mod_iff.mpr rfl

end ArithmeticOp

end Flwor
