import Mathlib.Tactic.FieldSimp
import Mathlib.Tactic.NormNum
import Flwor.Proofs.Items.Words

/-
  A result is rounded to the nearest word.

  A positive rational is measured on a grid whose unit is
  the last bit of the words of its size, and the nearest
  multiple of the unit is taken.  Words that lie between the
  multiples are all smaller than the rational, so no word is
  nearer than the multiple.

  Key definitions include:
    * `Double.Measures`
    * `Double.limit`
    * `Double.Rounds`

  Key theorems include:
    * `Double.measures_ofMagnitude`
    * `Double.Measures.nearest_signed`
    * `Double.rounds_ofRat`
    * `Double.rounds_div`
-/

------------------------------------------------------------
-- Nearest Naturals
------------------------------------------------------------

namespace Flwor

namespace Double

variable {num den : Nat}

/- A quotient moves by at most one half, and then to even. -/
theorem roundHalfEven_near
    (num : Nat)
    (hDen : 0 < den) :
    |(roundHalfEven num den : ℚ) - num / den| ≤ 1 / 2 ∧
      (|(roundHalfEven num den : ℚ) - num / den| = 1 / 2 →
        2 ∣ roundHalfEven num den) := by
  have hPos : (0 : ℚ) < den := Nat.cast_pos.mpr hDen
  have hParts : (num : ℚ) / den =
      (num / den : ℕ) + (num % den : ℕ) / (den : ℚ) := by
    rw [eq_comm, ← mul_right_inj' hPos.ne', mul_add,
      mul_div_cancel₀ _ hPos.ne', mul_div_cancel₀ _ hPos.ne']
    exact_mod_cast Nat.div_add_mod num den
  have hLow : (0 : ℚ) ≤ (num % den : ℕ) / (den : ℚ) := by
    positivity
  unfold roundHalfEven
  simp only [hParts]
  split
  next hBelow =>
    have hHalf : ((num % den : ℕ) : ℚ) / den < 1 / 2 := by
      rw [div_lt_iff₀ hPos]
      have hCast : (2 : ℚ) * (num % den : ℕ) < den := by
        exact_mod_cast hBelow
      linarith
    rw [sub_add_cancel_left, abs_neg, abs_of_nonneg hLow]
    exact ⟨hHalf.le, fun hTie => absurd hTie hHalf.ne⟩
  next hBelow =>
    split
    next hAbove =>
      have hLess : ((num % den : ℕ) : ℚ) / den < 1 := by
        rw [div_lt_one hPos]
        exact_mod_cast Nat.mod_lt num hDen
      have hHalf : 1 / 2 < ((num % den : ℕ) : ℚ) / den := by
        rw [lt_div_iff₀ hPos]
        have hCast : (den : ℚ) < 2 * (num % den : ℕ) := by
          exact_mod_cast hAbove
        linarith
      rw [Nat.cast_add_one, add_sub_add_left_eq_sub,
        abs_of_pos (sub_pos.mpr hLess)]
      refine ⟨by linarith, fun hTie => ?_⟩
      linarith
    next hAbove =>
      have hHalf : ((num % den : ℕ) : ℚ) / den = 1 / 2 := by
        rw [div_eq_iff hPos.ne']
        have hCast : (2 : ℚ) * (num % den : ℕ) = den := by
          exact_mod_cast le_antisymm (not_lt.mp hAbove)
            (not_lt.mp hBelow)
        linarith
      rw [hHalf, Nat.cast_add, add_sub_add_left_eq_sub]
      rcases Nat.mod_two_eq_zero_or_one (num / den) with
        hEven | hOdd
      · rw [hEven]
        refine ⟨by norm_num, fun _ => by omega⟩
      · rw [hOdd]
        refine ⟨by norm_num, fun _ => by omega⟩

/- A quotient is rounded down below a bound if it is below. -/
theorem div_lt_iff_cast
    {bound : Nat}
    (num : Nat)
    (hDen : 0 < den) :
    num / den < bound ↔ (num : ℚ) / den < bound := by
  rw [Nat.div_lt_iff_lt_mul hDen,
    div_lt_iff₀ (Nat.cast_pos.mpr hDen), ← Nat.cast_mul,
    Nat.cast_lt]

end Double

end Flwor

------------------------------------------------------------
-- Grids
------------------------------------------------------------

namespace Flwor

namespace Double

variable {num den : Nat}
variable {e : Int}

/- A quotient measured in a unit of at least one. -/
theorem quotient_of_nonneg
    (num den : Nat)
    (hE : 0 ≤ e) :
    (num : ℚ) / (den * Nat.pow 2 e.toNat : ℕ) =
      num / den / 2 ^ e := by
  obtain ⟨n, rfl⟩ := Int.eq_ofNat_of_zero_le hE
  rw [Nat.pow_eq, Nat.cast_mul, Nat.cast_pow, div_div]
  simp

/- A quotient measured in a unit of less than one. -/
theorem quotient_of_neg
    (num den : Nat)
    (hE : ¬0 ≤ e) :
    ((num * Nat.pow 2 (-e).toNat : ℕ) : ℚ) / den =
      num / den / 2 ^ e := by
  obtain ⟨n, hN⟩ := Int.eq_ofNat_of_zero_le
    (neg_nonneg.mpr (not_le.mp hE).le)
  obtain rfl : e = -(n : Int) := by omega
  rw [Nat.pow_eq, Nat.cast_mul, Nat.cast_pow, zpow_neg,
    div_inv_eq_mul, mul_div_right_comm]
  simp

/- The binary orders of numerator and denominator. -/
theorem quotient_bounds
    (hNum : 0 < num)
    (hDen : 0 < den) :
    (2 : ℚ) ^ ((Nat.log2 num : Int) - Nat.log2 den - 1) <
        num / den ∧
      (num : ℚ) / den <
        2 ^ ((Nat.log2 num : Int) - Nat.log2 den + 1) := by
  have hPos : (0 : ℚ) < den := Nat.cast_pos.mpr hDen
  have hNumLow : (2 : ℚ) ^ (Nat.log2 num : Int) ≤ num := by
    rw [zpow_natCast]
    exact_mod_cast Nat.log2_self_le hNum.ne'
  have hNumHigh :
      (num : ℚ) < 2 ^ ((Nat.log2 num : Int) + 1) := by
    rw [← Nat.cast_add_one, zpow_natCast]
    exact_mod_cast Nat.lt_log2_self
  have hDenLow : (2 : ℚ) ^ (Nat.log2 den : Int) ≤ den := by
    rw [zpow_natCast]
    exact_mod_cast Nat.log2_self_le hDen.ne'
  have hDenHigh :
      (den : ℚ) < 2 ^ ((Nat.log2 den : Int) + 1) := by
    rw [← Nat.cast_add_one, zpow_natCast]
    exact_mod_cast Nat.lt_log2_self
  constructor
  · rw [lt_div_iff₀ hPos]
    calc (2 : ℚ) ^ ((Nat.log2 num : Int) - Nat.log2 den - 1) *
          den
        < 2 ^ ((Nat.log2 num : Int) - Nat.log2 den - 1) *
            2 ^ ((Nat.log2 den : Int) + 1) := by gcongr
      _ = 2 ^ (Nat.log2 num : Int) := by
          rw [← zpow_add₀ two_ne_zero]
          congr 1
          ring
      _ ≤ num := hNumLow
  · rw [div_lt_iff₀ hPos]
    calc (num : ℚ)
        < 2 ^ ((Nat.log2 num : Int) + 1) := hNumHigh
      _ = 2 ^ ((Nat.log2 num : Int) - Nat.log2 den + 1) *
            2 ^ (Nat.log2 den : Int) := by
          rw [← zpow_add₀ two_ne_zero]
          congr 1
          ring
      _ ≤ 2 ^ ((Nat.log2 num : Int) - Nat.log2 den + 1) *
            den := by gcongr

/- A quotient has 53 bits in a unit if it is below them. -/
theorem fits_iff
    (num : Nat)
    (hDen : 0 < den)
    (e : Int) :
    (if 0 ≤ e then
        decide (num / (den * Nat.pow 2 e.toNat) <
          Nat.pow 2 53)
      else
        decide (num * Nat.pow 2 (-e).toNat / den <
          Nat.pow 2 53)) = true ↔
      (num : ℚ) / den < 2 ^ 53 * 2 ^ e := by
  have hUnit : (0 : ℚ) < 2 ^ e := by positivity
  rw [← div_lt_iff₀ hUnit]
  split
  next hE =>
    have hScaled : 0 < den * Nat.pow 2 e.toNat :=
      Nat.mul_pos hDen (Nat.two_pow_pos _)
    rw [decide_eq_true_eq, div_lt_iff_cast _ hScaled,
      quotient_of_nonneg _ _ hE]
    norm_num
  next hE =>
    rw [decide_eq_true_eq, div_lt_iff_cast _ hDen,
      quotient_of_neg _ _ hE]
    norm_num

/-
  The grid of a quotient: its unit is such that 53 bits reach
  the quotient and 52 do not, unless the unit is the least.
-/
theorem gridExponent_bounds
    (hNum : 0 < num)
    (hDen : 0 < den) :
    -1074 ≤ gridExponent num den ∧
      (num : ℚ) / den < 2 ^ 53 * 2 ^ gridExponent num den ∧
      (gridExponent num den ≠ -1074 →
        2 ^ 52 * 2 ^ gridExponent num den ≤
          (num : ℚ) / den) := by
  obtain ⟨low, hLow⟩ : ∃ low : Int, low =
      (Nat.log2 num : Int) - (Nat.log2 den : Int) - 53 :=
    ⟨_, rfl⟩
  have hShift (k : Nat) (e : Int) :
      (2 : ℚ) ^ k * 2 ^ e = 2 ^ (k + e) := by
    rw [← zpow_natCast, ← zpow_add₀ two_ne_zero]
  have hMono {e f : Int} (hLe : e ≤ f) :
      (2 : ℚ) ^ e ≤ 2 ^ f :=
    zpow_le_zpow_right₀ one_le_two hLe
  rcases quotient_bounds hNum hDen with ⟨hAbove, hBelow⟩
  have hGrid : gridExponent num den =
      Max.max (if (num : ℚ) / den < 2 ^ 53 * 2 ^ low
        then low else low + 1) (-1074) := by
    unfold gridExponent
    simp only [← hLow, fits_iff num hDen]
  rw [hGrid]
  refine ⟨le_max_right _ _, ?_, fun hNe => ?_⟩
  · split
    next hFit =>
      refine hFit.trans_le ?_
      rw [hShift, hShift]
      exact hMono (by omega)
    next hFit =>
      refine hBelow.trans_le ?_
      rw [hShift]
      exact hMono (by omega)
  · split
    next hFit =>
      rw [if_pos hFit] at hNe
      refine le_trans ?_ hAbove.le
      rw [hShift]
      exact hMono (by omega)
    next hFit =>
      rw [if_neg hFit] at hNe
      refine le_trans ?_ (not_lt.mp hFit)
      rw [hShift, hShift]
      exact hMono (by omega)

end Double

end Flwor

------------------------------------------------------------
-- Measured Rationals
------------------------------------------------------------

namespace Flwor

namespace Double

/-
  A rational is next to a multiple of the unit of its grid,
  and to an even one if it lies between two of them.
-/
structure Measures
    (t : ℚ)
    (k : Nat)
    (e : Int) : Prop where
  least : -1074 ≤ e
  below : t < 2 ^ 53 * 2 ^ e
  above : e ≠ -1074 → 2 ^ 52 * 2 ^ e ≤ t
  near : |(k : ℚ) - t / 2 ^ e| ≤ 1 / 2
  even : |(k : ℚ) - t / 2 ^ e| = 1 / 2 → 2 ∣ k

variable {num den : Nat}

/- The magnitude bits are those of the measured quotient. -/
theorem measures_ofMagnitude
    (hNum : 0 < num)
    (hDen : 0 < den) :
    ∃ k e, Measures (num / den) k e ∧
      ofMagnitude num den =
        Min.min ((e + 1074).toNat * 2 ^ 52 + k)
          (2047 * 2 ^ 52) := by
  rcases gridExponent_bounds hNum hDen with
    ⟨hLeast, hBelow, hAbove⟩
  rw [ofMagnitude, if_neg hNum.ne']
  refine ⟨_, gridExponent num den,
    ⟨hLeast, hBelow, hAbove, ?_, ?_⟩, rfl⟩
  all_goals split
  next hE =>
    rw [← quotient_of_nonneg _ _ hE]
    exact (roundHalfEven_near _ (Nat.mul_pos hDen
      (Nat.pow_pos Nat.two_pos))).1
  next hE =>
    rw [← quotient_of_neg _ _ hE]
    exact (roundHalfEven_near _ hDen).1
  next hE =>
    rw [← quotient_of_nonneg _ _ hE]
    exact (roundHalfEven_near _ (Nat.mul_pos hDen
      (Nat.pow_pos Nat.two_pos))).2
  next hE =>
    rw [← quotient_of_neg _ _ hE]
    exact (roundHalfEven_near _ hDen).2

namespace Measures

variable {t : ℚ}
variable {k m : Nat}
variable {e f : Int}

/- A rational in the unit of its grid. -/
theorem unit_bounds
    (h : Measures t k e) :
    t / 2 ^ e < 2 ^ 53 ∧
      (e ≠ -1074 → 2 ^ 52 ≤ t / 2 ^ e) := by
  have hUnit : (0 : ℚ) < 2 ^ e := by positivity
  rw [div_lt_iff₀ hUnit, le_div_iff₀ hUnit]
  exact ⟨h.below, h.above⟩

/- Rounding up may carry out of the 53 bits. -/
theorem le_carry
    (h : Measures t k e) :
    k ≤ 2 ^ 53 := by
  have hNear := (abs_le.mp h.near).2
  have hLt : (k : ℚ) < 2 ^ 53 + 1 := by
    linarith [h.unit_bounds.1]
  exact Nat.lt_succ_iff.mp (by exact_mod_cast hLt)

/- Rounding down keeps the first of the 53 bits. -/
theorem full
    (h : Measures t k e)
    (hNe : e ≠ -1074) :
    2 ^ 52 ≤ k := by
  have hNear := (abs_le.mp h.near).1
  have hLt : (2 : ℚ) ^ 52 < k + 1 := by
    linarith [h.unit_bounds.2 hNe]
  exact Nat.lt_succ_iff.mp (by exact_mod_cast hLt)

/- No other multiple of the unit is nearer. -/
theorem nearest_multiple
    (h : Measures t k e)
    (j : Int) :
    |(k : ℚ) - t / 2 ^ e| ≤ |(j : ℚ) - t / 2 ^ e| ∧
      (|(k : ℚ) - t / 2 ^ e| = |(j : ℚ) - t / 2 ^ e| →
        j ≠ k → 2 ∣ k) := by
  by_cases hSame : j = k
  · subst hSame
    rw [Int.cast_natCast]
    exact ⟨le_rfl, fun _ hNe => absurd rfl hNe⟩
  · have hApart : (1 : ℚ) ≤ |(j : ℚ) - k| := by
      have hInt : 1 ≤ |j - (k : Int)| :=
        Int.one_le_abs (sub_ne_zero.mpr hSame)
      exact_mod_cast hInt
    have hTriangle : |(j : ℚ) - k| ≤
        |(j : ℚ) - t / 2 ^ e| + |(k : ℚ) - t / 2 ^ e| := by
      rw [abs_sub_comm (k : ℚ)]
      exact abs_sub_le _ _ _
    have hNear := h.near
    exact ⟨by linarith, fun hTie _ =>
      h.even (le_antisymm hNear (by linarith))⟩

/- A distance in the unit of a grid. -/
theorem abs_sub_unit
    (x t : ℚ)
    (e : Int) :
    |x * 2 ^ e - t| = |x - t / 2 ^ e| * 2 ^ e := by
  have hUnit : (0 : ℚ) < 2 ^ e := by positivity
  rw [← abs_of_pos hUnit, ← abs_mul, abs_of_pos hUnit,
    sub_mul, div_mul_cancel₀ _ hUnit.ne']

/-
  No other magnitude of 53 bits is nearer.  One that is not a
  multiple of the unit has less than 52 bits in this unit.
-/
theorem nearest_magnitude
    (h : Measures t k e)
    (hM : m < 2 ^ 53)
    (hF : -1074 ≤ f) :
    |(k : ℚ) * 2 ^ e - t| ≤ |(m : ℚ) * 2 ^ f - t| ∧
      (|(k : ℚ) * 2 ^ e - t| = |(m : ℚ) * 2 ^ f - t| →
        (m : ℚ) * 2 ^ f ≠ k * 2 ^ e → 2 ∣ k) := by
  have hUnit : (0 : ℚ) < 2 ^ e := by positivity
  by_cases hCoarse : e ≤ f
  · obtain ⟨n, hN⟩ := Int.eq_ofNat_of_zero_le
      (sub_nonneg.mpr hCoarse)
    obtain rfl : f = e + n := by omega
    have hMultiple : (m : ℚ) * 2 ^ (e + n) =
        ((m * 2 ^ n : Int) : ℚ) * 2 ^ e := by
      rw [zpow_add₀ two_ne_zero, zpow_natCast]
      push_cast
      ring
    rcases h.nearest_multiple (m * 2 ^ n) with ⟨hLe, hTie⟩
    rw [hMultiple, abs_sub_unit, abs_sub_unit]
    refine ⟨by gcongr, fun hEq hNe => ?_⟩
    refine hTie (mul_right_cancel₀ hUnit.ne' hEq) ?_
    intro hSame
    exact hNe (by rw [hSame, Int.cast_natCast])
  · have hNe : e ≠ -1074 := by omega
    have hAbove := h.above hNe
    have hSmall : (m : ℚ) * 2 ^ f < 2 ^ 52 * 2 ^ e := by
      have hCast : (m : ℚ) < 2 ^ 53 := by exact_mod_cast hM
      calc (m : ℚ) * 2 ^ f < 2 ^ 53 * 2 ^ f := by gcongr
        _ = 2 ^ 52 * 2 ^ (f + 1) := by
            rw [zpow_add₀ two_ne_zero]
            ring
        _ ≤ 2 ^ 52 * 2 ^ e := by
            gcongr
            · exact one_le_two
            · omega
    -- The first multiple that has 52 bits lies between.
    have hFirst :
        |(k : ℚ) * 2 ^ e - t| ≤ t - 2 ^ 52 * 2 ^ e := by
      have hGrid := (h.nearest_multiple (2 ^ 52)).1
      rw [Int.cast_pow, Int.cast_ofNat] at hGrid
      calc |(k : ℚ) * 2 ^ e - t|
          ≤ |(2 : ℚ) ^ 52 * 2 ^ e - t| := by
            rw [abs_sub_unit, abs_sub_unit]
            gcongr
        _ = t - 2 ^ 52 * 2 ^ e := by
            rw [abs_sub_comm,
              abs_of_nonneg (sub_nonneg.mpr hAbove)]
    have hLt : |(k : ℚ) * 2 ^ e - t| <
        |(m : ℚ) * 2 ^ f - t| := by
      rw [abs_sub_comm ((m : ℚ) * 2 ^ f),
        abs_of_pos (sub_pos.mpr (hSmall.trans_le hAbove))]
      linarith
    exact ⟨hLt.le, fun hEq => absurd hEq hLt.ne⟩

end Measures

end Double

end Flwor

------------------------------------------------------------
-- Words of Magnitudes
------------------------------------------------------------

namespace Flwor

namespace Double

variable {w k : Nat}
variable {e : Int}

theorem toNat_ofSigned
    (s : Bool)
    (hW : w < 2 ^ 63) :
    (ofSigned s w).bits.toNat = signBit s + w := by
  cases s with
  | false =>
      simp only [ofSigned, signBit, Bool.false_eq_true,
        if_false, Nat.zero_add, UInt64.toNat_ofNat']
      omega
  | true =>
      simp only [ofSigned, signBit, if_true, Nat.pow_eq,
        UInt64.toNat_ofNat']
      omega

theorem isNegative_ofSigned
    (s : Bool)
    (hW : w < 2 ^ 63) :
    (ofSigned s w).isNegative = s := by
  rw [isNegative, toNat_ofSigned s hW, Nat.pow_eq]
  cases s with
  | false => simpa [signBit] using hW
  | true => simp [signBit]

/- Magnitude bits are read apart from the sign. -/
theorem read_ofSigned
    (s : Bool)
    (hW : w < 2047 * 2 ^ 52) :
    (ofSigned s w).read =
      if w / 2 ^ 52 = 0 then .finite s w (-1074)
      else .finite s (2 ^ 52 + w % 2 ^ 52)
        ((w / 2 ^ 52 : Nat) - 1075) := by
  have hBits := toNat_ofSigned s (w := w) (by omega)
  have hSign := isNegative_ofSigned s (w := w) (by omega)
  have hField : (ofSigned s w).bits.toNat / 2 ^ 52 % 2 ^ 11 =
      w / 2 ^ 52 := by
    rw [hBits]
    cases s <;> simp only [signBit, if_true,
      Bool.false_eq_true, if_false] <;> omega
  have hFraction : (ofSigned s w).bits.toNat % 2 ^ 52 =
      w % 2 ^ 52 := by
    rw [hBits]
    cases s <;> simp only [signBit, if_true,
      Bool.false_eq_true, if_false] <;> omega
  rw [isNegative, Nat.pow_eq] at hSign
  simp only [read, Nat.pow_eq, hField, hFraction, hSign]
  rw [if_neg (by omega)]
  split
  next hZero =>
    rw [Nat.mod_eq_of_lt (by omega)]
  next => rfl

/- The word of a significand and an exponent. -/
theorem number?_ofSigned
    (s : Bool)
    (hLeast : -1074 ≤ e)
    (hCarry : k ≤ 2 ^ 53)
    (hFull : e ≠ -1074 → 2 ^ 52 ≤ k)
    (hWord : (e + 1074).toNat * 2 ^ 52 + k < 2047 * 2 ^ 52) :
    (ofSigned s ((e + 1074).toNat * 2 ^ 52 + k)).number? =
      some (.finite (scaled s k e)) := by
  rw [number?, read_ofSigned s hWord]
  by_cases hShort : k < 2 ^ 52
  · obtain rfl : e = -1074 := by
      by_contra hNe
      exact absurd (hFull hNe) (not_le.mpr hShort)
    rw [if_pos (by omega)]
    simp
  · rw [if_neg (by omega)]
    by_cases hTop : k = 2 ^ 53
    · -- The carry is the first bit of the next exponent.
      subst hTop
      have hExponent :
          (((e + 1074).toNat * 2 ^ 52 + 2 ^ 53) / 2 ^ 52 : Nat)
            - (1075 : Int) = e + 1 := by
        omega
      have hFraction :
          ((e + 1074).toNat * 2 ^ 52 + 2 ^ 53) % 2 ^ 52 = 0 := by
        omega
      simp only [hExponent, hFraction]
      rw [scaled_eq, scaled_eq, zpow_add₀ two_ne_zero]
      push_cast
      ring_nf
    · have hExponent :
          (((e + 1074).toNat * 2 ^ 52 + k) / 2 ^ 52 : Nat)
            - (1075 : Int) = e := by
        omega
      have hFraction : 2 ^ 52 +
          ((e + 1074).toNat * 2 ^ 52 + k) % 2 ^ 52 = k := by
        omega
      simp only [hExponent, hFraction]

/- A finite number is read as a significand. -/
theorem exists_read
    {x : Double}
    {v : ℚ}
    (hX : x.number? = some (.finite v)) :
    ∃ s m f, x.read = .finite s m f ∧ v = scaled s m f := by
  rw [number?] at hX
  cases hRead : x.read with
  | nan => rw [hRead] at hX; cases hX
  | infinite s => rw [hRead] at hX; cases s <;> cases hX
  | finite s m f =>
      rw [hRead] at hX
      cases hX
      exact ⟨s, m, f, rfl, rfl⟩

end Double

end Flwor

------------------------------------------------------------
-- Rounding
------------------------------------------------------------

namespace Flwor

namespace Double

/- Half a unit beyond the largest finite word. -/
def limit : ℚ :=
  (2 ^ 54 - 1) * 2 ^ (970 : Int)

/-
  The word that a rational is rounded to.  Beyond the limit
  it is an infinity.  Below it no finite word is nearer, and
  if one is as near then the last bit decides.
-/
structure Rounds
    (q : ℚ)
    (z : Double) : Prop where
  sign : q ≠ 0 → z.isNegative = decide (q < 0)
  overflow : limit ≤ |q| → z = infinite (decide (q < 0))
  nearest : |q| < limit →
    ∃ r, z.number? = some (.finite r) ∧
      ∀ (y : Double) (v : ℚ), y.number? = some (.finite v) →
        |r - q| ≤ |v - q| ∧
          (|r - q| = |v - q| → v ≠ r → 2 ∣ z.bits.toNat)

namespace Measures

variable {t v : ℚ}
variable {k : Nat}
variable {e : Int}

/- The bits run over exactly from the limit on. -/
theorem le_bits_iff
    (h : Measures t k e) :
    2047 * 2 ^ 52 ≤ (e + 1074).toNat * 2 ^ 52 + k ↔
      limit ≤ t := by
  have hCarry := h.le_carry
  have hLeast := h.least
  have hMono {f g : Int} (hLe : f ≤ g) :
      (2 : ℚ) ^ f ≤ 2 ^ g :=
    zpow_le_zpow_right₀ one_le_two hLe
  rw [limit]
  generalize hU : (2 : ℚ) ^ (970 : Int) = u
  have hPos : 0 < u := hU ▸ by positivity
  have hNext (n : Nat) :
      (2 : ℚ) ^ ((970 : Int) + n) = u * 2 ^ n := by
    rw [zpow_add₀ two_ne_zero, zpow_natCast, hU]
  rcases lt_trichotomy e 971 with hLow | rfl | hHigh
  · have hBelow : t < 2 ^ 53 * u := by
      refine h.below.trans_le ?_
      gcongr
      exact hU ▸ hMono (by omega)
    refine iff_of_false (by omega) (not_le.mpr ?_)
    linarith only [hBelow, hPos]
  · have hUnit : (2 : ℚ) ^ (971 : Int) = u * 2 := hNext 1
    have hNear := abs_le.mp h.near
    rw [hUnit] at hNear
    have hOver : (2 ^ 54 - 1) * u ≤ t ↔
        2 ^ 53 - 1 / 2 ≤ t / (u * 2) := by
      rw [le_div_iff₀ (by positivity)]
      constructor <;> intro hLe <;> linarith only [hLe]
    rw [hOver]
    constructor
    · intro hBits
      obtain rfl : k = 2 ^ 53 := by omega
      push_cast at hNear
      linarith only [hNear.2]
    · intro hLe
      by_contra hNot
      have hLess : (k : ℚ) + 1 ≤ 2 ^ 53 := by
        exact_mod_cast (by omega : k + 1 ≤ 2 ^ 53)
      have hTie : t / (u * 2) = k + 1 / 2 := by
        linarith only [hNear.1, hLe, hLess]
      have hEven := h.even (by rw [hUnit, hTie]; norm_num)
      have hLast : (k : ℚ) + 1 = 2 ^ 53 := by
        linarith only [hTie, hLe, hLess]
      have hOdd : k + 1 = 2 ^ 53 := by exact_mod_cast hLast
      omega
  · have hFull := h.full (by omega)
    have hAbove : 2 ^ 52 * (u * 2 ^ 2) ≤ t := by
      refine le_trans ?_ (h.above (by omega))
      gcongr
      exact hNext 2 ▸ hMono (by omega)
    refine iff_of_true (by omega) ?_
    linarith only [hAbove, hPos]

/- No number is nearer, whatever its sign. -/
theorem nearest_signed
    (h : Measures t k e)
    (hPos : 0 < t)
    {m : Nat}
    {f : Int}
    (hM : Canonical m f)
    (hV : |v| = m * 2 ^ f) :
    |(k : ℚ) * 2 ^ e - t| ≤ |v - t| ∧
      (|(k : ℚ) * 2 ^ e - t| = |v - t| →
        v ≠ k * 2 ^ e → 2 ∣ k) := by
  rcases le_total 0 v with hSign | hSign
  · rw [abs_of_nonneg hSign] at hV
    rw [hV]
    exact h.nearest_magnitude hM.lt hM.le
  · -- Zero lies between the rational and what is negative.
    rcases h.nearest_magnitude (m := 0) (f := f) (by norm_num)
      hM.le with ⟨hLe, hTie⟩
    rw [Nat.cast_zero, zero_mul, zero_sub, abs_neg,
      abs_of_pos hPos] at hLe hTie
    rw [abs_sub_comm v,
      abs_of_pos (sub_pos.mpr (hSign.trans_lt hPos))]
    refine ⟨by linarith, fun hEq hNe => ?_⟩
    obtain rfl : v = 0 := by linarith
    exact hTie (by linarith) hNe

end Measures

theorem abs_scaled
    (s : Bool)
    (m : Nat)
    (f : Int) :
    |scaled s m f| = m * 2 ^ f := by
  rw [scaled_eq]
  cases s <;> simp

variable {q : ℚ}

/- A word takes its sign and its magnitude from a rational. -/
theorem exists_measures
    (s : Bool)
    (hNonzero : q ≠ 0) :
    ∃ k e, Measures |q| k e ∧
      ofRat s q = ofSigned (q < 0)
        (Min.min ((e + 1074).toNat * 2 ^ 52 + k)
          (2047 * 2 ^ 52)) := by
  have hNum : 0 < q.num.natAbs :=
    Int.natAbs_pos.mpr (Rat.num_ne_zero.mpr hNonzero)
  have hAbs : |q| = q.num.natAbs / q.den := by
    rw [Nat.cast_natAbs, Int.cast_abs, ← Nat.abs_cast q.den,
      ← abs_div, Rat.num_div_den]
  rcases measures_ofMagnitude hNum q.den_pos with
    ⟨k, e, hMeasures, hBits⟩
  rw [← hAbs] at hMeasures
  exact ⟨k, e, hMeasures, by
    rw [ofRat, if_neg hNonzero, hBits]⟩

/- A rational other than zero is rounded to its word. -/
theorem rounds_of_ne_zero
    (s : Bool)
    (hNonzero : q ≠ 0) :
    Rounds q (ofRat s q) := by
  have hPos : 0 < |q| := abs_pos.mpr hNonzero
  rcases exists_measures s hNonzero with
    ⟨k, e, hMeasures, hWord⟩
  have hIff := hMeasures.le_bits_iff
  rw [hWord]
  refine ⟨fun _ => isNegative_ofSigned _ (by omega),
    fun hOver => ?_, fun hBelow => ?_⟩
  · rw [Nat.min_eq_right (hIff.mpr hOver)]
    rfl
  · have hBits := not_le.mp (mt hIff.mp hBelow.not_ge)
    rw [Nat.min_eq_left hBits.le]
    refine ⟨scaled (q < 0) k e,
      number?_ofSigned _ hMeasures.least hMeasures.le_carry
        hMeasures.full hBits, fun y v hY => ?_⟩
    have hEven : 2 ∣ (ofSigned (q < 0)
        ((e + 1074).toNat * 2 ^ 52 + k)).bits.toNat ↔
          2 ∣ k := by
      rw [toNat_ofSigned _ (by omega)]
      unfold signBit
      split <;> omega
    rcases exists_read hY with ⟨t, m, f, hRead, rfl⟩
    have hM := (toNat_of_finite hRead).1
    rw [hEven]
    rcases hNonzero.lt_or_gt with hNeg | hPositive
    · have hNearest := hMeasures.nearest_signed hPos hM
        (v := -scaled t m f) (by rw [abs_neg, abs_scaled])
      have hTurn (x : ℚ) : |x - q| = |-x - (|q|)| := by
        rw [abs_of_neg hNeg, ← abs_neg]
        ring_nf
      rw [scaled_eq, decide_eq_true hNeg, if_pos rfl,
        neg_one_mul, hTurn, hTurn, neg_neg]
      refine ⟨hNearest.1, fun hTie hNe =>
        hNearest.2 hTie (fun hEq => hNe ?_)⟩
      rw [← hEq, neg_neg]
    · have hNearest := hMeasures.nearest_signed hPos hM
        (abs_scaled t m f)
      rw [abs_of_pos hPositive] at hNearest
      rw [scaled_eq (decide (q < 0)),
        decide_eq_false hPositive.not_gt, if_neg nofun,
        one_mul]
      exact hNearest

/- Zero is rounded to a zero of either sign. -/
theorem rounds_zero
    (s : Bool) :
    Rounds 0 (zero s) := by
  have hNumber : (zero s).number? = some (.finite 0) := by
    cases s <;> decide +kernel
  refine ⟨fun hNe => absurd rfl hNe, fun hOver => ?_,
    fun _ => ⟨0, hNumber, fun y v _ => ⟨?_, ?_⟩⟩⟩
  · rw [abs_zero] at hOver
    exact absurd hOver (by norm_num [limit])
  · rw [sub_self, abs_zero]
    exact abs_nonneg _
  · intro hTie hNe
    rw [sub_self, abs_zero, sub_zero, eq_comm, abs_eq_zero]
      at hTie
    exact absurd hTie hNe

/- The word of a rational is what it is rounded to. -/
theorem rounds_ofRat
    (s : Bool)
    (q : ℚ) :
    Rounds q (ofRat s q) := by
  by_cases hZero : q = 0
  · subst hZero
    rw [ofRat, if_pos rfl]
    exact rounds_zero s
  · exact rounds_of_ne_zero s hZero

/- A sum is rounded once. -/
theorem rounds_add
    {x y : Double}
    {a b : ℚ}
    (hX : x.number? = some (.finite a))
    (hY : y.number? = some (.finite b)) :
    Rounds (a + b) (x.add y) := by
  rcases exists_read hX with ⟨s, m, e, hRead, rfl⟩
  rcases exists_read hY with ⟨t, n, f, hOther, rfl⟩
  simp only [add, hRead, hOther]
  exact rounds_ofRat _ _

/- A quotient is rounded once. -/
theorem rounds_div
    {x y : Double}
    {a b : ℚ}
    (hX : x.number? = some (.finite a))
    (hY : y.number? = some (.finite b))
    (hNonzero : b ≠ 0) :
    Rounds (a / b) (x.div y) := by
  rcases exists_read hX with ⟨s, m, e, hRead, rfl⟩
  rcases exists_read hY with ⟨t, n, f, hOther, rfl⟩
  have hN : n ≠ 0 := by
    rintro rfl
    exact hNonzero (by rw [scaled_eq]; simp)
  simp only [div, hRead, hOther, if_neg hN]
  exact rounds_ofRat _ _

end Double

end Flwor

------------------------------------------------------------
-- Exact Results
------------------------------------------------------------

namespace Flwor

namespace Double

variable {j : Int}

/- Small numbers lie below the limit. -/
theorem lt_limit
    {q : ℚ}
    (hQ : |q| < 2 ^ 53) :
    |q| < limit := by
  have hOne : (1 : ℚ) ≤ 2 ^ (970 : Int) :=
    one_le_zpow₀ one_le_two (by norm_num)
  refine hQ.trans_le ?_
  rw [limit]
  generalize (2 : ℚ) ^ (970 : Int) = u at hOne
  linarith only [hOne]

theorem abs_half_lt
    (hJ : |j| < 2 ^ 53) :
    |(j : ℚ) / 2| < 2 ^ 53 := by
  have hCast : |(j : ℚ)| < 2 ^ 53 := by exact_mod_cast hJ
  have hLow := abs_nonneg (j : ℚ)
  rw [abs_div, abs_two]
  linarith

/- One half of a small integer is a word. -/
theorem number?_ofRat_half
    (s : Bool)
    (hJ : |j| < 2 ^ 53) :
    (ofRat s (j / 2)).number? = some (.finite (j / 2)) := by
  obtain ⟨q, hQ⟩ : ∃ q : ℚ, q = j / 2 := ⟨_, rfl⟩
  rw [← hQ]
  by_cases hZero : q = 0
  · subst hZero
    rw [ofRat, if_pos rfl]
    cases s <;> decide +kernel
  · rcases exists_measures s hZero with
      ⟨k, e, hMeasures, hWord⟩
    have hBits := not_le.mp (mt hMeasures.le_bits_iff.mp
      (not_le.mpr (lt_limit (hQ ▸ abs_half_lt hJ))))
    have hM : j.natAbs < 2 ^ 53 := by
      rw [Int.abs_eq_natAbs] at hJ
      exact_mod_cast hJ
    have hAbs : |q| = j.natAbs * 2 ^ (-1 : Int) := by
      rw [hQ, abs_div, abs_two, Nat.cast_natAbs, Int.cast_abs,
        div_eq_mul_inv, zpow_neg_one]
    have hSame : (k : ℚ) * 2 ^ e = |q| := by
      have hNearest := (hMeasures.nearest_magnitude
        (m := j.natAbs) (f := -1) hM (by norm_num)).1
      rw [← hAbs, sub_self, abs_zero] at hNearest
      exact sub_eq_zero.mp
        (abs_nonpos_iff.mp hNearest)
    have hValue : scaled (q < 0) k e = q := by
      rw [scaled_eq, hSame]
      rcases lt_or_gt_of_ne hZero with hNeg | hPos
      · simp [hNeg, abs_of_neg hNeg]
      · simp [hPos.not_gt, abs_of_pos hPos]
    rw [hWord, Nat.min_eq_left hBits.le,
      number?_ofSigned _ hMeasures.least hMeasures.le_carry
        hMeasures.full hBits, hValue]

/- Whatever is rounded from a word is this word's number. -/
theorem Rounds.number?_half
    {q : ℚ}
    {z : Double}
    (h : Rounds q z)
    (hQ : q = j / 2)
    (hJ : |j| < 2 ^ 53) :
    z.number? = some (.finite q) := by
  subst hQ
  rcases h.nearest (lt_limit (abs_half_lt hJ)) with
    ⟨r, hR, hNearest⟩
  have hLe :=
    (hNearest _ _ (number?_ofRat_half false hJ)).1
  rw [sub_self, abs_zero] at hLe
  rw [hR, sub_eq_zero.mp (abs_nonpos_iff.mp hLe)]

/- Nothing is rounded across zero. -/
theorem Rounds.of_nonneg
    {q : ℚ}
    {z : Double}
    (h : Rounds q z)
    (hQ : 0 ≤ q) :
    z.number? = some .infinity ∨
      ∃ r, 0 ≤ r ∧ z.number? = some (.finite r) := by
  by_cases hOver : limit ≤ |q|
  · refine .inl ?_
    rw [h.overflow hOver, decide_eq_false hQ.not_gt]
    decide +kernel
  · rcases h.nearest (not_le.mp hOver) with
      ⟨r, hR, hNearest⟩
    have hZero : (zero false).number? = some (.finite 0) := by
      decide +kernel
    have hLe := (hNearest _ _ hZero).1
    rw [zero_sub, abs_neg, abs_of_nonneg hQ] at hLe
    exact .inr ⟨r, by linarith [(abs_le.mp hLe).1], hR⟩

/- Small integers are words. -/
theorem number?_ofInt
    {n : Int}
    (hN : |n| < 2 ^ 52) :
    (ofInt n).number? = some (.finite n) := by
  have hJ : |2 * n| < 2 ^ 53 := by
    rw [abs_mul, abs_two]
    omega
  exact (rounds_ofRat false (n : ℚ)).number?_half
    (j := 2 * n) (by push_cast; ring) hJ

/- What is larger than a small number stays larger. -/
theorem exists_number?_ofInt
    {n : Int}
    {q : ℚ}
    (hN : 2 ^ 52 ≤ n)
    (hQ : q < 2 ^ 51) :
    ∃ r, (ofInt n).number? = some r ∧
      (Number.finite q).compare r = .lt := by
  have hCast : (2 : ℚ) ^ 52 ≤ n := by exact_mod_cast hN
  have hRounds : Rounds n (ofInt n) := rounds_ofRat false n
  by_cases hOver : limit ≤ |(n : ℚ)|
  · refine ⟨.infinity, ?_, rfl⟩
    rw [hRounds.overflow hOver, decide_eq_false (by linarith)]
    decide +kernel
  · rcases hRounds.nearest (not_le.mp hOver) with
      ⟨r, hR, hNearest⟩
    have hWord : (ofInt (2 ^ 51)).number? =
        some (.finite ((2 ^ 51 : Int) : ℚ)) :=
      number?_ofInt (by norm_num)
    have hNear := (hNearest _ _ hWord).1
    rw [Int.cast_pow, Int.cast_ofNat, abs_sub_comm (2 ^ 51),
      abs_of_pos (a := (n : ℚ) - 2 ^ 51) (by linarith)] at hNear
    have hLow := (abs_le.mp hNear).1
    refine ⟨_, hR, ?_⟩
    rw [Number.compare, if_pos (by linarith)]

end Double

end Flwor
