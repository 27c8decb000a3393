import Mathlib.Data.Rat.Floor
import Flwor.Proofs.Functions.Calls
import Flwor.Proofs.Items.Rounding
import Flwor.Proofs.Items.Truncation

/-
  A part of a text is selected by position.

  Start and length are doubles, and so are the bounds that are
  computed from them.  For small integers none of the steps
  needs rounding, so the characters between the bounds are
  those whose position the arguments admit.  Without a length
  the size of the text is taken, which cuts the end off if the
  start lies in front of the text.

  Key definitions include:
    * `Library.charsAt`
    * `Library.between?`
    * `Library.checkedSlice?`

  Key theorems include:
    * `Library.charsAt_interval`
    * `Library.number?_sliceStart`, `Library.number?_sliceEnd`
    * `Library.checkedSlice?_eq`
    * `Library.exists_checkedSlice?`
    * `Library.substring_selects`
-/

------------------------------------------------------------
-- Characters at Positions
------------------------------------------------------------

namespace Flwor

namespace Library

variable {cs : List Char}

/- The characters at wanted positions, which count from one. -/
def charsAt
    (wanted : ℤ → Bool)
    (cs : List Char) : List Char :=
  ((cs.zipIdx 1).filter (fun c => wanted c.2)).map Prod.fst

/- Only the positions of the text matter. -/
theorem charsAt_congr
    {wanted other : ℤ → Bool}
    (hSame : ∀ p : ℤ, 1 ≤ p → p ≤ cs.length →
      wanted p = other p) :
    charsAt wanted cs = charsAt other cs := by
  refine congrArg (List.map Prod.fst)
    (List.filter_congr (fun c hC => ?_))
  have hLow := List.le_snd_of_mem_zipIdx hC
  have hHigh := List.snd_lt_of_mem_zipIdx hC
  exact hSame c.2 (by omega) (by omega)

/- An interval of positions is a prefix without a prefix. -/
theorem charsAt_interval
    (cs : List Char)
    (i j : Nat) :
    charsAt (fun p => i < p ∧ p ≤ j) cs =
      (cs.take j).drop i := by
  have hFrom (k : Nat) :
      ((cs.zipIdx (k + 1)).filter (fun c =>
          (i : ℤ) < c.2 ∧ (c.2 : ℤ) ≤ j)).map Prod.fst =
        (cs.take (j - k)).drop (i - k) := by
    induction cs generalizing k with
    | nil => simp
    | cons c rest ih =>
        rw [List.zipIdx_cons, List.filter_cons]
        by_cases hHigh : j ≤ k
        · rw [if_neg (by simp; omega), ih,
            Nat.sub_eq_zero_of_le hHigh,
            Nat.sub_eq_zero_of_le (by omega : j ≤ k + 1)]
          simp
        · obtain ⟨n, hN⟩ : ∃ n, j - k = n + 1 :=
            ⟨j - (k + 1), by omega⟩
          rw [hN, List.take_succ_cons]
          by_cases hLow : i ≤ k
          · rw [if_pos (by simp; omega), List.map_cons, ih,
              Nat.sub_eq_zero_of_le hLow,
              Nat.sub_eq_zero_of_le (by omega : i ≤ k + 1),
              (by omega : j - (k + 1) = n)]
            rfl
          · obtain ⟨m, hM⟩ : ∃ m, i - k = m + 1 :=
              ⟨i - (k + 1), by omega⟩
            rw [if_neg (by simp; omega), ih, hM,
              (by omega : j - (k + 1) = n),
              (by omega : i - (k + 1) = m)]
            rfl
  exact hFrom 0

end Library

end Flwor

------------------------------------------------------------
-- Exact Positions
------------------------------------------------------------

namespace Flwor

namespace Double

variable {x y : Double}
variable {p q : ℚ}

theorem isFinite_of_number?
    (hX : x.number? = some (.finite p)) :
    x.isFinite = true := by
  rcases exists_read hX with ⟨s, m, e, hRead, -⟩
  rw [isFinite, hRead]

theorem isNaN_iff :
    x.isNaN = true ↔ x.number? = none := by
  rw [isNaN, number?]
  cases x.read with
  | nan => simp
  | infinite s => cases s <;> simp
  | finite s m e => simp

theorem isNaN_of_number?
    (hX : x.number? = some (.finite p)) :
    x.isNaN = false := by
  rw [← Bool.not_eq_true, isNaN_iff, hX]
  nofun

theorem exists_number?_of_isNaN
    (hX : x.isNaN = false) :
    ∃ r, x.number? = some r := by
  rw [← Bool.not_eq_true, isNaN_iff] at hX
  exact Option.ne_none_iff_exists'.mp hX

theorem compare?_of_isNaN
    (hX : x.isNaN = true) :
    x.compare? y = none := by
  rw [compare?, isNaN_iff.mp hX]

/- An infinity stays one if something finite is added. -/
theorem number?_add_infinity
    (hX : x.number? = some .infinity)
    (hY : y.number? = some (.finite q)) :
    (x.add y).number? = some .infinity := by
  have hRead : x.read = .infinite false := by
    unfold number? at hX
    split at hX
    next => cases hX
    next => cases hX
    next hRead => exact hRead
    next => cases hX
  rcases exists_read hY with ⟨t, n, f, hOther, -⟩
  simp only [add, hRead, hOther]
  decide +kernel

/- Finite words compare as their numbers. -/
theorem compare?_of_number?
    (hX : x.number? = some (.finite p))
    (hY : y.number? = some (.finite q)) :
    x.compare? y =
      some (if p < q then .lt else if q < p then .gt
        else .eq) := by
  rw [compare?, hX, hY]
  rfl

/- A finite word is above another one if its number is. -/
theorem compare?_beq_gt
    (hX : x.number? = some (.finite p))
    (hY : y.number? = some (.finite q)) :
    (x.compare? y == some .gt) = decide (q < p) := by
  rw [compare?_of_number? hX hY]
  rcases lt_trichotomy p q with hLt | rfl | hGt
  · simp [hLt, hLt.le]
  · simp
  · simp [hGt, hGt.not_gt]

/- The larger of two finite words. -/
theorem number?_max
    (hX : x.number? = some (.finite p))
    (hY : y.number? = some (.finite q)) :
    (x.max y).number? = some (.finite (p ⊔ q)) := by
  rw [max, compare?_of_number? hX hY]
  rcases lt_trichotomy p q with hLt | rfl | hGt
  · simp [hLt, hY, hLt.le]
  · simp [hX]
  · simp [hGt, hGt.not_gt, hX, hGt.le]

/- The smaller of two finite words. -/
theorem number?_min
    (hX : x.number? = some (.finite p))
    (hY : y.number? = some (.finite q)) :
    (x.min y).number? = some (.finite (p ⊓ q)) := by
  rw [min, compare?_of_number? hX hY]
  rcases lt_trichotomy p q with hLt | rfl | hGt
  · simp [hLt, hX, hLt.le]
  · simp [hX]
  · simp [hGt, hGt.not_gt, hY, hGt.le]

/- A small sum of halves is exact. -/
theorem number?_add_half
    {j : ℤ}
    (hX : x.number? = some (.finite p))
    (hY : y.number? = some (.finite q))
    (hSum : p + q = j / 2)
    (hJ : |j| < 2 ^ 53) :
    (x.add y).number? = some (.finite (p + q)) :=
  (rounds_add hX hY).number?_half hSum hJ

/- A small sum of integers is exact. -/
theorem number?_add
    {m n : ℤ}
    (hX : x.number? = some (.finite m))
    (hY : y.number? = some (.finite n))
    (hSum : |m + n| < 2 ^ 52) :
    (x.add y).number? = some (.finite (m + n : ℤ)) := by
  have hJ : |2 * (m + n)| < 2 ^ 53 := by
    rw [abs_mul, abs_two]
    omega
  rw [Int.cast_add]
  refine number?_add_half hX hY (j := 2 * (m + n)) ?_ hJ
  push_cast
  ring

/- The position in front of a small integer. -/
theorem number?_sub_one
    {n : ℤ}
    (hX : x.number? = some (.finite n))
    (hN : |n - 1| < 2 ^ 52) :
    (x.sub (ofInt 1)).number? =
      some (.finite (n - 1 : ℤ)) := by
  have hMinus : (neg (ofInt 1)).number? =
      some (.finite ((-1 : ℤ) : ℚ)) := by
    decide +kernel
  exact number?_add hX hMinus hN

/- The size of a text bounds what is small. -/
theorem number?_min_size
    {n : ℤ}
    (size : Nat)
    (hX : x.number? = some (.finite n))
    (hN : n < 2 ^ 51) :
    (x.min (ofInt size)).number? =
      some (.finite (n ⊓ (size : ℤ) : ℤ)) := by
  by_cases hSmall : (size : ℤ) < 2 ^ 52
  · rw [Int.cast_min]
    refine number?_min hX (number?_ofInt ?_)
    rwa [abs_of_nonneg (Int.natCast_nonneg size)]
  · have hCast : (n : ℚ) < 2 ^ 51 := by exact_mod_cast hN
    rcases exists_number?_ofInt (not_lt.mp hSmall) hCast with
      ⟨r, hR, hLess⟩
    rw [min, compare?, hX, hR]
    simp only [hLess]
    rw [hX, min_eq_left (by omega)]

end Double

end Flwor

------------------------------------------------------------
-- Slices
------------------------------------------------------------

namespace Flwor

namespace Library

open Double

variable {x y : Double}
variable {n a l : ℤ}

/- A small integer is a position as it is. -/
theorem number?_roundHalfUp
    (hX : x.number? = some (.finite n))
    (hN : |n| < 2 ^ 51) :
    (roundHalfUp x).number? = some (.finite n) := by
  rw [abs_lt] at hN
  have hHalf : (ofDecimal false 5 (-1)).number? =
      some (.finite (1 / 2)) := by
    decide +kernel
  have hSum : (x.add (ofDecimal false 5 (-1))).number? =
      some (.finite (n + 1 / 2)) := by
    refine number?_add_half hX hHalf (j := 2 * n + 1) ?_ ?_
    · push_cast
      ring
    · rw [abs_lt]
      omega
  have hFloor : Rat.floor (n + 1 / 2) = n := by
    change ⌊(n + 1 / 2 : ℚ)⌋ = n
    rw [Int.floor_eq_iff]
    constructor <;> norm_num
  rw [roundHalfUp, if_pos (isFinite_of_number? hX), floor, hSum]
  dsimp only
  rw [hFloor]
  refine (rounds_ofRat _ (n : ℚ)).number?_half
    (j := 2 * n) ?_ ?_
  · push_cast
    ring
  · rw [abs_lt]
    omega

/- Where the characters begin: nothing precedes the text. -/
theorem number?_sliceStart
    (hX : x.number? = some (.finite a))
    (hA : |a| < 2 ^ 51) :
    ((x.max (ofInt 1)).sub (ofInt 1)).number? =
      some (.finite ((a ⊔ 1) - 1 : ℤ)) := by
  rw [abs_lt] at hA
  have hOne : (ofInt 1).number? = some (.finite (1 : ℤ)) :=
    number?_ofInt (by norm_num)
  have hMax := number?_max hX hOne
  rw [← Int.cast_max] at hMax
  refine number?_sub_one hMax ?_
  rw [abs_lt]
  omega

/- Where they end: nothing follows the text. -/
theorem number?_sliceEnd
    (size : Nat)
    (hX : x.number? = some (.finite a))
    (hY : y.number? = some (.finite l))
    (hA : |a| < 2 ^ 50)
    (hL : |l| < 2 ^ 50) :
    (((x.add y).sub (ofInt 1)).min (ofInt size)).number? =
      some (.finite ((a + l - 1) ⊓ (size : ℤ) : ℤ)) := by
  rw [abs_lt] at hA hL
  refine number?_min_size size ?_ (by omega)
  refine number?_sub_one (number?_add hX hY ?_) ?_ <;>
    · rw [abs_lt]
      omega

/-
  The characters between two bounds, unless they lie outside
  of the text.
-/
def between?
    (cs : List Char)
    (i j : ℤ) : Option (List Char) :=
  if 0 ≤ i ∧ i ≤ j ∧ j ≤ cs.length then
    some ((cs.take j.toNat).drop i.toNat)
  else none

/- A slice that is refused if its bounds are outside. -/
def checkedSlice?
    (cs : List Char)
    (start length : Double) : Option (List Char) :=
  let one := ofInt 1
  let size := ofInt cs.length
  if start.isNaN || length.isNaN
      || (start == infinite true
        && length == infinite false) then some []
  else
    let i := (start.max one).sub one
    let j := ((start.add length).sub one).min size
    if j.compare? i == some .gt then
      match i.truncate?, j.truncate? with
      | some i, some j => between? cs i j
      | _, _ => none
    else some []

/- What is not refused is the slice. -/
theorem slice_of_checkedSlice?
    {cs part : List Char}
    (hPart : checkedSlice? cs x y = some part) :
    slice cs x y = part := by
  revert hPart
  unfold checkedSlice? slice
  dsimp only
  cases ((x.max (ofInt 1)).sub (ofInt 1)).truncate? <;>
    cases (((x.add y).sub (ofInt 1)).min
      (ofInt cs.length)).truncate? <;>
      unfold between? <;> split_ifs <;> simp

/- The bounds of a slice are the bounds of its positions. -/
theorem charsAt_eq_slice
    (cs : List Char)
    (a l : ℤ) :
    charsAt (fun p => a ≤ p ∧ p < a + l) cs =
      (cs.take ((a + l - 1) ⊓ (cs.length : ℤ)).toNat).drop
        ((a ⊔ 1) - 1).toNat := by
  rw [← charsAt_interval]
  refine charsAt_congr (fun p hLow hHigh => ?_)
  rw [decide_eq_decide]
  omega

/- A length as large as the text leaves what starts in it. -/
theorem charsAt_size
    (cs : List Char)
    (a : ℤ) :
    charsAt (fun p => a ≤ p ∧ p < a + cs.length) cs =
      charsAt (fun p => a ≤ p ∧
        (1 ≤ a ∨ p < a + cs.length)) cs := by
  refine charsAt_congr (fun p hLow hHigh => ?_)
  rw [decide_eq_decide]
  omega

/- A word with an integer number is that integer. -/
theorem truncate?_of_integer
    (hX : x.number? = some (.finite n)) :
    x.truncate? = some n := by
  rw [truncate?, hX]
  simp

/-
  For small integers the bounds are never outside, and the
  slice is the characters that the arguments admit.
-/
theorem checkedSlice?_eq
    (cs : List Char)
    (hX : x.number? = some (.finite a))
    (hY : y.number? = some (.finite l))
    (hA : |a| < 2 ^ 50)
    (hL : |l| < 2 ^ 50) :
    checkedSlice? cs x y =
      some (charsAt (fun p => a ≤ p ∧ p < a + l) cs) := by
  have hStart := number?_sliceStart hX
    (hA.trans (by norm_num))
  have hEnd := number?_sliceEnd cs.length hX hY hA hL
  have hNotInfinite : (x == infinite true) = false := by
    rw [beq_eq_false_iff_ne]
    rintro rfl
    cases hX
  rw [charsAt_eq_slice, checkedSlice?]
  simp only [isNaN_of_number? hX, isNaN_of_number? hY,
    hNotInfinite, compare?_beq_gt hEnd hStart,
    truncate?_of_integer hStart, truncate?_of_integer hEnd,
    Int.cast_lt, Bool.false_and, Bool.false_or,
    Bool.false_eq_true, if_false, decide_eq_true_eq]
  generalize hI : (a ⊔ 1) - 1 = i
  generalize hJ : (a + l - 1) ⊓ (cs.length : ℤ) = j
  split
  next hLess =>
    rw [between?, if_pos (by omega)]
  next hMost =>
    refine congrArg some (List.drop_eq_nil_of_le ?_).symm
    rw [List.length_take]
    omega

end Library

end Flwor

------------------------------------------------------------
-- Bounds
------------------------------------------------------------

namespace Flwor

namespace Library

open Double

variable {x y : Double}
variable {cs : List Char}

/- No slice begins in front of the text. -/
theorem sliceStart_nonneg
    (hX : x.isNaN = false) :
    ((x.max (ofInt 1)).sub (ofInt 1)).number? =
        some .infinity ∨
      ∃ p, 0 ≤ p ∧
        ((x.max (ofInt 1)).sub (ofInt 1)).number? =
          some (.finite p) := by
  have hOne : (ofInt 1).number? = some (.finite (1 : ℤ)) :=
    number?_ofInt (by norm_num)
  have hMinus : (neg (ofInt 1)).number? =
      some (.finite (-1)) := by
    decide +kernel
  rcases exists_number?_of_isNaN hX with ⟨r, hR⟩
  cases r with
  | negInfinity =>
      have hMax : x.max (ofInt 1) = ofInt 1 := by
        rw [Double.max, compare?, hR, hOne]
        rfl
      rw [hMax]
      exact .inr ⟨0, le_rfl, by decide +kernel⟩
  | infinity =>
      have hMax : x.max (ofInt 1) = x := by
        rw [Double.max, compare?, hR, hOne]
        rfl
      rw [hMax]
      exact .inl (number?_add_infinity hR hMinus)
  | finite q =>
      have hMax := number?_max hR hOne
      refine (rounds_add hMax hMinus).of_nonneg ?_
      rw [Int.cast_one]
      linarith [le_max_right q 1]

/- No slice ends behind the text. -/
theorem sliceEnd_le
    (z : Double)
    (size : Nat)
    (hSize : size < 2 ^ 52) :
    (z.min (ofInt size)).number? = some .negInfinity ∨
      ∃ q ≤ (size : ℚ),
        (z.min (ofInt size)).number? = some (.finite q) := by
  have hNumber : (ofInt size).number? =
      some (.finite ((size : ℤ) : ℚ)) := by
    refine number?_ofInt ?_
    rw [abs_of_nonneg (Int.natCast_nonneg size)]
    exact_mod_cast hSize
  rw [Int.cast_natCast] at hNumber
  cases hZ : z.isNaN with
  | true =>
      refine .inr ⟨size, le_rfl, ?_⟩
      rw [Double.min, compare?_of_isNaN hZ]
      simpa only [hZ, if_true] using hNumber
  | false =>
      rcases exists_number?_of_isNaN hZ with ⟨r, hR⟩
      cases r with
      | negInfinity =>
          refine .inl ?_
          rw [Double.min, compare?, hR, hNumber]
          exact hR
      | infinity =>
          refine .inr ⟨size, le_rfl, ?_⟩
          rw [Double.min, compare?, hR, hNumber]
          exact hNumber
      | finite q =>
          exact .inr ⟨_, min_le_right q size,
            number?_min hR hNumber⟩

/-
  Whatever the arguments are, the bounds that are computed
  from them are never outside of the text.
-/
theorem exists_checkedSlice?
    (x y : Double)
    (hSize : cs.length < 2 ^ 52) :
    ∃ part, checkedSlice? cs x y = some part := by
  rw [checkedSlice?]
  dsimp only
  split
  next => exact ⟨_, rfl⟩
  next hOther =>
    simp only [Bool.or_eq_true, not_or, Bool.not_eq_true]
      at hOther
    split
    next hAbove =>
      rcases sliceStart_nonneg hOther.1.1 with
        hI | ⟨p, hP, hI⟩ <;>
        rcases sliceEnd_le ((x.add y).sub (ofInt 1))
          cs.length hSize with hJ | ⟨q, hQ, hJ⟩
      · rw [compare?, hI, hJ] at hAbove
        cases hAbove
      · rw [compare?, hI, hJ] at hAbove
        cases hAbove
      · rw [compare?, hI, hJ] at hAbove
        cases hAbove
      · rw [compare?_beq_gt hJ hI, decide_eq_true_eq]
          at hAbove
        have hNonneg := hP.trans hAbove.le
        have hHigh : ⌊q⌋ ≤ (cs.length : ℤ) := by
          have hFloor := (Int.floor_le q).trans hQ
          exact_mod_cast hFloor
        rw [truncate?_eq_some_iff.mpr ⟨p, hI, rfl⟩,
          truncate?_eq_some_iff.mpr ⟨q, hJ, rfl⟩,
          Integer.towardZero_of_nonneg hP,
          Integer.towardZero_of_nonneg hNonneg]
        exact ⟨_, if_pos ⟨Int.floor_nonneg.mpr hP,
          Int.floor_le_floor hAbove.le, hHigh⟩⟩
    next => exact ⟨_, rfl⟩

end Library

end Flwor

------------------------------------------------------------
-- Parts of Texts
------------------------------------------------------------

namespace Flwor

namespace Library

open Double

variable {item : Item}
variable {n : ℤ}

/- A small integer, also as a double, is a position. -/
theorem position_of_integer
    (hItem : item.number? = some (.finite n))
    (hN : |n| < 2 ^ 51) :
    ∃ x, position [item] = .ok x ∧
      x.number? = some (.finite n) := by
  cases item with
  | int m =>
      have hM : m = n := by
        simpa [Item.number?] using hItem
      subst hM
      exact ⟨_, rfl, number?_roundHalfUp
        (number?_ofInt (hN.trans (by norm_num))) hN⟩
  | dbl x => exact ⟨_, rfl, number?_roundHalfUp hItem hN⟩
  | bool b => cases hItem
  | str s => cases hItem

/- The standard library has this function of its name. -/
theorem call_substring
    (text start : Sequence)
    (length : Option Sequence) :
    standard.call "substring"
        ([text, start] ++ length.toList) =
      substring text start length := by
  cases length <;>
    exact call_standard (List.mem_of_getElem? (i := 12) rfl)
      rfl rfl

/- Positions that exist select a slice. -/
theorem substring_of_positions
    (s : String)
    {start size : Sequence}
    {x y : Double}
    (hX : position start = .ok x)
    (hY : position size = .ok y) :
    substring [.str s] start (some size) =
      .ok [.str (String.ofList (slice s.toList x y))] := by
  change (do
    let x ← position start
    let y ← position size
    pure [Item.str (String.ofList (slice s.toList x y))]) = _
  rw [hX, hY]
  rfl

/- Without a length the size of the text is taken. -/
theorem substring_of_position
    (s : String)
    {start : Sequence}
    {x : Double}
    (hX : position start = .ok x) :
    substring [.str s] start none =
      .ok [.str (String.ofList
        (slice s.toList x (ofInt s.length)))] := by
  rw [← String.length_toList]
  change (do
    let x ← position start
    pure [Item.str (String.ofList
      (slice s.toList x (ofInt s.toList.length)))]) = _
  rw [hX]
  rfl

/-
  The part of a text from a position on.  With a length, it
  consists of the characters whose positions lie between the
  start and the start plus the length.  Without one, the size
  of the text is the length, so that a part which starts in
  front of the text ends in front of the end.  No slice of a
  text is taken out of bounds.
-/
theorem substring_selects
    (s : String)
    (first : Item)
    (start : ℤ)
    (hFirst : first.number? = some (.finite start))
    (hStart : |start| < 2 ^ 50) :
    (∀ (size : Item) (length : ℤ),
        size.number? = some (.finite length) →
        |length| < 2 ^ 50 →
      ∃ x y, position [first] = .ok x ∧
        position [size] = .ok y ∧
        let part := charsAt
          (fun p => start ≤ p ∧ p < start + length) s.toList
        checkedSlice? s.toList x y = some part ∧
        standard.call "substring" [[.str s], [first], [size]] =
          .ok [.str (String.ofList part)]) ∧
      (s.length < 2 ^ 50 →
        ∃ x, position [first] = .ok x ∧
        let part := charsAt (fun p => start ≤ p ∧
          (1 ≤ start ∨ p < start + s.length)) s.toList
        checkedSlice? s.toList x (ofInt s.length) =
          some part ∧
        standard.call "substring" [[.str s], [first]] =
          .ok [.str (String.ofList part)]) ∧
      (s.length < 2 ^ 52 →
        ∀ x y, ∃ part,
          checkedSlice? s.toList x y = some part) := by
  rcases position_of_integer hFirst
    (hStart.trans (by norm_num)) with ⟨x, hX, hXNumber⟩
  refine ⟨fun size length hSize hLength => ?_, fun hShort => ?_,
    fun hLong x y => exists_checkedSlice? x y hLong⟩
  · rcases position_of_integer hSize
      (hLength.trans (by norm_num)) with ⟨y, hY, hYNumber⟩
    have hPart := checkedSlice?_eq s.toList hXNumber hYNumber
      hStart hLength
    refine ⟨x, y, hX, hY, hPart, ?_⟩
    rw [← slice_of_checkedSlice? hPart]
    exact (call_substring _ _ (some [size])).trans
      (substring_of_positions s hX hY)
  · have hLength : |(s.length : ℤ)| < 2 ^ 50 := by
      rw [abs_of_nonneg (Int.natCast_nonneg _)]
      exact_mod_cast hShort
    have hPart := checkedSlice?_eq s.toList hXNumber
      (number?_ofInt (hLength.trans (by norm_num)))
      hStart hLength
    rw [← String.length_toList, charsAt_size,
      String.length_toList] at hPart
    refine ⟨x, hX, hPart, ?_⟩
    rw [← slice_of_checkedSlice? hPart]
    exact (call_substring _ _ none).trans
      (substring_of_position s hX)

/-
  A start in front of the text takes characters off the
  length, and a start inside the text leaves its end.  What
  lies behind the end is empty.
-/
theorem substring_selects_motorCar :
    standard.call "substring"
        [[.str "motor car"], [.int 0], [.int 3]] =
          .ok [.str "mo"] ∧
      standard.call "substring"
        [[.str "motor car"], [.int 3], [.int (-1)]] =
          .ok [.str ""] ∧
      standard.call "substring"
        [[.str "motor car"], [.int 6]] =
          .ok [.str " car"] := by
  have hZero := substring_selects "motor car"
    (.int 0) 0 rfl (by decide)
  have hThree := substring_selects "motor car"
    (.int 3) 3 rfl (by decide)
  have hSix := substring_selects "motor car"
    (.int 6) 6 rfl (by decide)
  rcases hZero.1 (.int 3) 3 rfl (by decide) with
    ⟨x, y, -, -, -, hMo⟩
  rcases hThree.1 (.int (-1)) (-1) rfl (by decide) with
    ⟨x, y, -, -, -, hNone⟩
  rcases hSix.2.1 (by decide) with ⟨x, -, -, hCar⟩
  exact ⟨hMo, hNone, hCar⟩

/-
  Without a length the text is cut off at the end if the
  start lies in front of it, though all of its positions
  follow the start.
-/
theorem substring_cuts_end :
    charsAt (fun p => 0 ≤ p) "motor car".toList =
        "motor car".toList ∧
      standard.call "substring"
        [[.str "motor car"], [.int 0]] =
          .ok [.str "motor ca"] ∧
      standard.call "substring"
        [[.str "motor car"], [.int (-3)]] =
          .ok [.str "motor"] ∧
      standard.call "substring"
        [[.str "motor car"], [.int 0]] ≠
          .ok [.str "motor car"] := by
  have hCut : standard.call "substring"
      [[.str "motor car"], [.int 0]] =
        .ok [.str "motor ca"] := by
    decide +kernel
  refine ⟨by decide +kernel, hCut, by decide +kernel, ?_⟩
  rw [hCut]
  decide

end Library

end Flwor
