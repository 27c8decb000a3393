import Mathlib.Algebra.Order.Group.Basic
import Mathlib.Data.Rat.Floor
import Mathlib.Order.Compare
import Flwor.Item.Arithmetic

/-
  Rounding toward zero.

  The integer part of a rational is the integer next to it
  on the side of zero.  Division of integers that truncates
  is the integer part of their quotient.

  Key definitions include:
    * `Integer.towardZero`

  Key theorems include:
    * `Integer.tdiv_eq_towardZero`
    * `Integer.num_tdiv_den`
    * `Integer.cmp_eq_of_parts`
    * `Double.truncate?_eq_some_iff`
-/

------------------------------------------------------------
-- Integer Parts
------------------------------------------------------------

namespace Flwor

namespace Integer

/- The integer part of a rational. -/
def towardZero
    (q : ℚ) : ℤ :=
  if 0 ≤ q then ⌊q⌋ else ⌈q⌉

theorem towardZero_of_nonneg
    {q : ℚ}
    (hQ : 0 ≤ q) :
    towardZero q = ⌊q⌋ :=
  if_pos hQ

theorem towardZero_of_nonpos
    {q : ℚ}
    (hQ : q ≤ 0) :
    towardZero q = ⌈q⌉ := by
  rcases hQ.eq_or_lt with rfl | hNeg
  · rfl
  · exact if_neg hNeg.not_ge

@[simp] theorem towardZero_neg
    (q : ℚ) :
    towardZero (-q) = -towardZero q := by
  rcases le_total 0 q with hQ | hQ
  · rw [towardZero_of_nonneg hQ,
      towardZero_of_nonpos (neg_nonpos.mpr hQ),
      Int.ceil_neg]
  · rw [towardZero_of_nonpos hQ,
      towardZero_of_nonneg (neg_nonneg.mpr hQ),
      Int.floor_neg]

/- Division that truncates is that of the quotient. -/
theorem tdiv_eq_towardZero
    (a b : ℤ) :
    a.tdiv b = towardZero (a / b) := by
  have hNat (m n : ℕ) :
      Int.tdiv m n = towardZero ((m : ℚ) / n) := by
    rw [towardZero_of_nonneg (by positivity),
      Rat.floor_natCast_div_natCast]
    rfl
  rcases a.eq_nat_or_neg with ⟨m, rfl | rfl⟩ <;>
    rcases b.eq_nat_or_neg with ⟨n, rfl | rfl⟩ <;>
    simp [Int.neg_tdiv, Int.tdiv_neg, neg_div, div_neg, hNat]

/- A rational in lowest terms is truncated by division. -/
theorem num_tdiv_den
    (q : ℚ) :
    q.num.tdiv q.den = towardZero q := by
  rw [tdiv_eq_towardZero]
  exact congrArg towardZero q.num_div_den

/- An integer is below the integer part if below the whole. -/
theorem lt_of_lt_towardZero
    {n : ℤ}
    {q : ℚ}
    (hLt : n < towardZero q) :
    (n : ℚ) < q := by
  rcases le_total 0 q with hQ | hQ
  · rw [towardZero_of_nonneg hQ] at hLt
    calc (n : ℚ) < (⌊q⌋ : ℚ) := Int.cast_lt.mpr hLt
      _ ≤ q := Int.floor_le q
  · rw [towardZero_of_nonpos hQ] at hLt
    exact Int.lt_ceil.mp hLt

theorem lt_of_towardZero_lt
    {n : ℤ}
    {q : ℚ}
    (hLt : towardZero q < n) :
    q < n := by
  have hNeg : ((-n : ℤ) : ℚ) < -q := by
    refine lt_of_lt_towardZero ?_
    rw [towardZero_neg]
    exact neg_lt_neg hLt
  rw [Int.cast_neg] at hNeg
  exact neg_lt_neg_iff.mp hNeg

/- The integers of 64 bits among the rationals. -/
theorem inRange_iff
    (n : ℤ) :
    inRange n = true ↔
      -2 ^ 63 ≤ (n : ℚ) ∧ (n : ℚ) < 2 ^ 63 := by
  have hLeast : least = -2 ^ 63 := rfl
  have hGreatest : greatest = 2 ^ 63 - 1 := rfl
  rw [inRange, Bool.and_eq_true, decide_eq_true_eq,
    decide_eq_true_eq, hLeast, hGreatest, Int.le_sub_one_iff]
  norm_cast

/-
  An integer lies beside a rational as it lies beside the
  integer part, or else as zero lies beside the fraction.
-/
theorem cmp_eq_of_parts
    (n : ℤ)
    (q : ℚ) :
    cmp (n : ℚ) q =
      (cmp n (towardZero q)).then
        (cmp 0 (q - towardZero q)) := by
  rcases lt_trichotomy n (towardZero q) with
    hLt | rfl | hGt
  · rw [(cmp_eq_lt_iff _ _).mpr hLt,
      (cmp_eq_lt_iff _ _).mpr (lt_of_lt_towardZero hLt)]
    rfl
  · rw [cmp_self_eq_eq, Ordering.eq_then,
      ← cmp_add_right 0 (q - towardZero q) (towardZero q : ℚ),
      zero_add, sub_add_cancel]
  · rw [(cmp_eq_gt_iff _ _).mpr hGt,
      (cmp_eq_gt_iff _ _).mpr (lt_of_towardZero_lt hGt)]
    rfl

end Integer

end Flwor

------------------------------------------------------------
-- Truncated Words
------------------------------------------------------------

namespace Flwor

namespace Double

variable {x : Double}

/- A finite word is truncated to its integer part. -/
theorem truncate?_eq_some_iff
    {n : ℤ} :
    x.truncate? = some n ↔
      ∃ r, x.number? = some (.finite r) ∧
        n = Integer.towardZero r := by
  unfold truncate?
  cases x.number? with
  | none => simp
  | some r =>
      cases r with
      | negInfinity => simp
      | infinity => simp
      | finite r =>
          simp [Integer.num_tdiv_den, eq_comm]

/- A word that is not finite has no integer part. -/
theorem truncate?_eq_none_iff :
    x.truncate? = none ↔
      ∀ r, x.number? ≠ some (.finite r) := by
  rw [Option.eq_none_iff_forall_ne_some]
  constructor
  · intro hNone r hR
    exact hNone _ (truncate?_eq_some_iff.mpr ⟨r, hR, rfl⟩)
  · intro hNone n hN
    rcases truncate?_eq_some_iff.mp hN with ⟨r, hR, -⟩
    exact hNone r hR

end Double

end Flwor
