import Mathlib.Algebra.Order.Field.Power
import Mathlib.Algebra.Order.Field.Rat
import Mathlib.Data.Rat.Cast.Lemmas
import Mathlib.Tactic.Linarith
import Mathlib.Tactic.Positivity
import Mathlib.Tactic.Ring
import Flwor.Double

/-
  A double other than zero is determined by its value.

  A finite word is read as a significand of at most 53 bits,
  which has all of them unless the exponent is the least one.
  So no two words stand for the same number, but for the two
  zeros.

  Key definitions include:
    * `Double.Canonical`

  Key theorems include:
    * `Double.toNat_of_finite`
    * `Double.Canonical.eq_of_scaled_eq`
    * `Double.eq_of_number?`
-/

------------------------------------------------------------
-- Readings
------------------------------------------------------------

namespace Flwor

namespace Double

variable {x y : Double}
variable {s t : Bool}
variable {m n : Nat}
variable {e f : Int}

/- The sign bit as it counts in a word. -/
def signBit
    (s : Bool) : Nat :=
  if s then 2 ^ 63 else 0

/- A significand with all its bits, or the least exponent. -/
structure Canonical
    (m : Nat)
    (e : Int) : Prop where
  lt : m < 2 ^ 53
  le : -1074 ≤ e
  full : e ≠ -1074 → 2 ^ 52 ≤ m

/- What precedes the fields is the sign bit. -/
theorem signBit_add
    (word : Nat)
    (hWord : word < 2 ^ 64) :
    signBit (decide (2 ^ 63 ≤ word)) +
        word / 2 ^ 52 % 2 ^ 11 * 2 ^ 52 + word % 2 ^ 52 =
      word := by
  unfold signBit
  split
  next hSign =>
    rw [decide_eq_true_eq] at hSign
    omega
  next hSign =>
    rw [decide_eq_true_eq] at hSign
    omega

/- An infinity is written as its sign and a full field. -/
theorem toNat_of_infinite
    (hRead : x.read = .infinite s) :
    x.bits.toNat = signBit s + 2047 * 2 ^ 52 := by
  have hWord := signBit_add x.bits.toNat x.bits.toNat_lt
  unfold read at hRead
  simp only [Nat.pow_eq] at hRead
  split at hRead
  next hField =>
    split at hRead
    next hFraction =>
      cases hRead
      rw [hField, hFraction, Nat.add_zero] at hWord
      exact hWord.symm
    next => cases hRead
  next => split at hRead <;> cases hRead

/-
  A finite number is written as its sign, its exponent and
  its significand.  If the significand is full then its first
  bit counts as one more of the exponent.
-/
theorem toNat_of_finite
    (hRead : x.read = .finite s m e) :
    Canonical m e ∧
      (x.bits.toNat : Int) =
        signBit s + (e + 1074) * 2 ^ 52 + m := by
  have hWord := signBit_add x.bits.toNat x.bits.toNat_lt
  have hFraction := Nat.mod_lt x.bits.toNat
    (Nat.two_pow_pos 52)
  unfold read at hRead
  simp only [Nat.pow_eq] at hRead
  split at hRead
  next => split at hRead <;> cases hRead
  next hFull =>
    split at hRead
    next hField =>
      cases hRead
      rw [hField] at hWord
      refine ⟨⟨by omega, le_rfl, fun h => (h rfl).elim⟩, ?_⟩
      omega
    next hField =>
      cases hRead
      refine ⟨⟨by omega, by omega, fun _ => by omega⟩, ?_⟩
      omega

/- Words that are read alike are the same. -/
theorem eq_of_read
    (hRead : x.read = y.read)
    (hNaN : x.read ≠ .nan) :
    x = y := by
  have hBits : x.bits.toNat = y.bits.toNat := by
    cases hX : x.read with
    | nan => exact (hNaN hX).elim
    | infinite s =>
        rw [toNat_of_infinite hX,
          toNat_of_infinite (hRead.symm.trans hX)]
    | finite s m e =>
        have hHere := (toNat_of_finite hX).2
        have hThere :=
          (toNat_of_finite (hRead.symm.trans hX)).2
        exact Int.ofNat_inj.mp (hHere.trans hThere.symm)
  exact congrArg mk (UInt64.toNat_inj.mp hBits)

end Double

end Flwor

------------------------------------------------------------
-- Values
------------------------------------------------------------

namespace Flwor

namespace Double

variable {x y : Double}
variable {s t : Bool}
variable {m n : Nat}
variable {e f : Int}

/- The value of a significand with a sign and an exponent. -/
theorem scaled_eq
    (s : Bool)
    (m : Nat)
    (e : Int) :
    scaled s m e = (if s then -1 else 1) * (m * 2 ^ e) := by
  have hSign : (((if s then -(m : Int) else m) : Int) : ℚ) =
      (if s then -1 else 1) * m := by
    cases s <;> simp
  rw [scaled, ← mul_assoc, ← hSign]
  split
  next hExponent =>
    obtain ⟨k, rfl⟩ := Int.eq_ofNat_of_zero_le hExponent
    simp [Int.pow_eq]
  next hExponent =>
    obtain ⟨k, hK⟩ := Int.eq_ofNat_of_zero_le
      (neg_nonneg.mpr (not_le.mp hExponent).le)
    obtain rfl : e = -(k : Int) := by omega
    simp [Nat.pow_eq, Rat.mkRat_eq_div, div_eq_mul_inv]

/- Equal magnitudes have no exponents that differ. -/
theorem Canonical.exponent_le
    (hM : Canonical m e)
    (hN : Canonical n f)
    (hEq : (m : ℚ) * 2 ^ e = n * 2 ^ f) :
    f ≤ e := by
  by_contra hLt
  have hFull : (2 : ℚ) ^ 52 ≤ n := by
    exact_mod_cast hN.full (by have := hM.le; omega)
  have hShort : (m : ℚ) < 2 ^ 53 := by
    exact_mod_cast hM.lt
  have hGap : (2 : ℚ) ≤ 2 ^ (f - e) := by
    calc (2 : ℚ) = 2 ^ (1 : Int) := (zpow_one 2).symm
      _ ≤ 2 ^ (f - e) :=
        zpow_le_zpow_right₀ (by norm_num) (by omega)
  have hScale : (2 : ℚ) ^ f = 2 ^ (f - e) * 2 ^ e := by
    rw [← zpow_add₀ two_ne_zero, sub_add_cancel]
  rw [hScale, ← mul_assoc] at hEq
  have hMantissa : (m : ℚ) = n * 2 ^ (f - e) :=
    mul_right_cancel₀ (zpow_ne_zero e two_ne_zero) hEq
  have hLong : (2 : ℚ) ^ 53 ≤ m := by
    rw [hMantissa, pow_succ]
    exact mul_le_mul hFull hGap (by norm_num) (by positivity)
  exact hLong.not_gt hShort

theorem Canonical.eq_of_magnitude_eq
    (hM : Canonical m e)
    (hN : Canonical n f)
    (hEq : (m : ℚ) * 2 ^ e = n * 2 ^ f) :
    m = n ∧ e = f := by
  obtain rfl : e = f :=
    le_antisymm (hN.exponent_le hM hEq.symm)
      (hM.exponent_le hN hEq)
  exact ⟨Nat.cast_injective
    (mul_right_cancel₀ (zpow_ne_zero e two_ne_zero) hEq), rfl⟩

/- Equal values other than zero are written alike. -/
theorem Canonical.eq_of_scaled_eq
    (hM : Canonical m e)
    (hN : Canonical n f)
    (hEq : scaled s m e = scaled t n f)
    (hNe : scaled s m e ≠ 0) :
    s = t ∧ m = n ∧ e = f := by
  have hLow : (0 : ℚ) ≤ m * (2 : ℚ) ^ e := by positivity
  have hLow' : (0 : ℚ) ≤ n * (2 : ℚ) ^ f := by positivity
  rw [scaled_eq] at hEq hNe
  rw [scaled_eq] at hEq
  cases s <;> cases t <;>
    simp only [if_true, Bool.false_eq_true, if_false, one_mul,
      neg_mul, neg_inj, neg_ne_zero] at hEq hNe
  · exact ⟨rfl, hM.eq_of_magnitude_eq hN hEq⟩
  · exact (hNe (by linarith)).elim
  · exact (hNe (by linarith)).elim
  · exact ⟨rfl, hM.eq_of_magnitude_eq hN hEq⟩

/- Two words that stand for a number are the same word. -/
theorem eq_of_number?
    {r : Number}
    (hX : x.number? = some r)
    (hY : y.number? = some r)
    (hNe : r ≠ .finite 0) :
    x = y := by
  have hNaN : x.read ≠ .nan := by
    intro hRead
    rw [number?, hRead] at hX
    cases hX
  refine eq_of_read ?_ hNaN
  rw [number?] at hX hY
  cases hRead : x.read with
  | nan => exact (hNaN hRead).elim
  | infinite s =>
      rw [hRead] at hX
      cases hOther : y.read with
      | infinite t =>
          rw [hOther] at hY
          cases s <;> cases hX <;> cases t <;> cases hY <;> rfl
      | nan | finite =>
          rw [hOther] at hY
          cases s <;> cases hX <;> cases hY
  | finite s m e =>
      rw [hRead] at hX
      cases hX
      cases hOther : y.read with
      | finite t n f =>
          rw [hOther] at hY
          injection (Option.some.inj hY) with hEq
          rcases (toNat_of_finite hRead).1.eq_of_scaled_eq
              (toNat_of_finite hOther).1 hEq.symm
              (fun hZero => hNe (congrArg _ hZero)) with
            ⟨rfl, rfl, rfl⟩
          rfl
      | infinite t =>
          rw [hOther] at hY
          cases t <;> cases hY
      | nan =>
          rw [hOther] at hY
          cases hY

end Double

end Flwor
