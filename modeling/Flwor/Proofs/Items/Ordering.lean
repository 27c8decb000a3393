import Mathlib
import Flwor.Proofs.Items.Places
import Flwor.Proofs.Items.Truncation

/-
  The order of items, by which all comparisons agree.

  Sorting is by a total preorder, and whatever a relation
  says of two items of one family can be read off it, unless
  one of them is no number.  An integer compares exactly with
  a double, although neither is rounded to the other.

  Key definitions include:
    * `Item.compareParts?`

  Key theorems include:
    * `Item.sortCompare_trans`
    * `Item.compareParts?_eq`
    * `Item.compare_consistent`
-/

------------------------------------------------------------
-- A Total Preorder
------------------------------------------------------------

namespace Flwor

namespace Item

variable {a b c : Item}

theorem sortCompare_ne_gt_iff :
    a.sortCompare b ≠ .gt ↔ a.place ≤ b.place := by
  rw [sortCompare_eq_cmp, Ne, cmp_eq_gt_iff, not_lt]

theorem sortCompare_self
    (a : Item) :
    a.sortCompare a = .eq := by
  rw [sortCompare_eq_cmp, cmp_self_eq_eq]

theorem sortCompare_trans
    (hAB : a.sortCompare b ≠ .gt)
    (hBC : b.sortCompare c ≠ .gt) :
    a.sortCompare c ≠ .gt := by
  rw [sortCompare_ne_gt_iff] at hAB hBC ⊢
  exact hAB.trans hBC

theorem place_of_number
    {x : Number}
    (hX : a.number? = some x) :
    a.place = .numeric (x.extended : WithBot _) := by
  have hFamily : a.family = .numeric := by
    cases a <;> first | rfl | cases hX
  rw [place_of_numeric hFamily, level, hX]
  rfl

theorem place_of_isNaN
    (hNaN : a.isNaN = true) :
    a.place = .numeric ⊥ := by
  have hNone := (isNaN_eq_true_iff a).mp hNaN
  rw [place_of_numeric hNone.1, level, hNone.2]
  rfl

/- Numbers compare as they lie on the rational line. -/
theorem sortCompare_of_number
    {x y : Number}
    (hX : a.number? = some x)
    (hY : b.number? = some y) :
    a.sortCompare b = cmp x.extended y.extended := by
  rw [sortCompare_eq_cmp, place_of_number hX,
    place_of_number hY, Place.numeric_strictMono.cmp_map_eq,
    WithBot.coe_strictMono.cmp_map_eq]

/- What is no number comes before all numbers. -/
theorem sortCompare_of_isNaN
    {y : Number}
    (hNaN : a.isNaN = true)
    (hY : b.number? = some y) :
    a.sortCompare b = .lt := by
  rw [sortCompare_eq_cmp, place_of_isNaN hNaN,
    place_of_number hY, cmp_eq_lt_iff]
  exact Place.numeric_strictMono (WithBot.bot_lt_coe _)

end Item

end Flwor

------------------------------------------------------------
-- Integers Against Doubles
------------------------------------------------------------

namespace Flwor

namespace Item

/-
  Compare an integer with a double without rounding it: a
  double beyond all integers of 64 bits is known to be
  larger or smaller, and else the integer part decides
  before the fraction.
-/
def compareParts?
    (n : Int)
    (x : Double) : Option Ordering :=
  x.number?.map (fun
    | .negInfinity => .gt
    | .infinity => .lt
    | .finite q =>
        let whole := q.num.tdiv q.den
        if 2 ^ 63 ≤ q then .lt
        else if q < -2 ^ 63 then .gt
        else (cmp n whole).then (cmp 0 (q - whole)))

/- A double stands for a number, unless it is none. -/
theorem exists_number
    {x : Double}
    (hX : x.isNaN = false) :
    ∃ y, x.number? = some y := by
  refine Option.ne_none_iff_exists'.mp (fun hNone => ?_)
  have hNaN := (isNaN_eq_true_iff (.dbl x)).mpr ⟨rfl, hNone⟩
  exact Bool.false_ne_true (hX.symm.trans hNaN)

/- Comparing by parts is comparing exactly. -/
theorem compareParts?_eq
    {n : Int}
    (hFits : Integer.inRange n = true)
    (x : Double) :
    compareParts? n x =
      x.number?.map (Number.finite n).compare := by
  refine congrArg (x.number?.map ·) (funext fun y => ?_)
  cases y with
  | negInfinity => rfl
  | infinity => rfl
  | finite q =>
      rcases (Integer.inRange_iff n).mp hFits with
        ⟨hLow, hHigh⟩
      rw [Number.compare_finite]
      dsimp only
      split
      next hAbove =>
        exact ((cmp_eq_lt_iff _ _).mpr
          (hHigh.trans_le hAbove)).symm
      split
      next hBelow =>
        exact ((cmp_eq_gt_iff _ _).mpr
          (hBelow.trans_le hLow)).symm
      next =>
        rw [Integer.num_tdiv_den]
        exact (Integer.cmp_eq_of_parts n q).symm

end Item

end Flwor

------------------------------------------------------------
-- Relations
------------------------------------------------------------

namespace Flwor

namespace Item

variable {a b : Item}

/- Items of one family are related as they are sorted. -/
theorem compare_of_numbers
    (hComparable : a.comparable b = true)
    (hA : a.isNaN = false)
    (hB : b.isNaN = false)
    (relation : Relation) :
    a.compare relation b =
      .ok (some (relation.holds (a.sortCompare b))) := by
  rw [compare, if_pos hComparable, hA, hB]
  rfl

/- What is no number is unequal to everything. -/
theorem compare_of_isNaN
    (hComparable : a.comparable b = true)
    (hNaN : a.isNaN = true ∨ b.isNaN = true)
    (relation : Relation) :
    a.compare relation b =
      .ok (if relation = .ne then some true else none) := by
  rw [compare, if_pos hComparable,
    if_pos (Bool.or_eq_true _ _ ▸ hNaN)]

theorem compare_of_not_comparable
    (hComparable : a.comparable b = false)
    (relation : Relation) :
    a.compare relation b =
      .error (.mismatch (.comparison a.type b.type)) := by
  rw [compare, if_neg (by simp [hComparable])]
  rfl

/- The converse relation of swapped items says the same. -/
theorem compare_converse
    (relation : Relation)
    (hComparable : a.comparable b = true) :
    b.compare relation.converse a = a.compare relation b := by
  have hSwapped := (comparable_comm a b).trans hComparable
  by_cases hNaN : a.isNaN = true ∨ b.isNaN = true
  · rw [compare_of_isNaN hComparable hNaN,
      compare_of_isNaN hSwapped hNaN.symm]
    simp only [relation.converse_eq_ne_iff]
  · simp only [not_or, Bool.not_eq_true] at hNaN
    rw [compare_of_numbers hComparable hNaN.1 hNaN.2,
      compare_of_numbers hSwapped hNaN.2 hNaN.1,
      ← sortCompare_swap a b, relation.holds_converse]

/-
  All comparisons of items agree with one order, in which
  numbers lie by their exact value.
-/
theorem compare_consistent
    (a b c : Item) :
    a.sortCompare a = .eq ∧
      b.sortCompare a = (a.sortCompare b).swap ∧
      (a.sortCompare b ≠ .gt → b.sortCompare c ≠ .gt →
        a.sortCompare c ≠ .gt) ∧
      (∀ x y, a.number? = some x → b.number? = some y →
        a.sortCompare b = cmp x.extended y.extended) ∧
      (∀ y, a.isNaN = true → b.number? = some y →
        a.sortCompare b = .lt) ∧
      (∀ n x, Integer.inRange n = true → x.isNaN = false →
        compareParts? n x =
          some ((Item.int n).sortCompare (.dbl x))) ∧
      (∀ relation, a.comparable b = true →
        a.isNaN = false → b.isNaN = false →
          a.compare relation b =
            .ok (some (relation.holds (a.sortCompare b)))) ∧
      (∀ relation, a.comparable b = true →
        a.isNaN = true ∨ b.isNaN = true →
          a.compare relation b =
            .ok (if relation = .ne then some true
              else none)) ∧
      (∀ relation,
        (∃ answer, a.compare relation b = .ok answer ∧
          b.compare relation.converse a = .ok answer) ∨
        a.compare relation b =
            .error (.mismatch (.comparison a.type b.type)) ∧
          b.compare relation.converse a =
            .error
              (.mismatch (.comparison b.type a.type))) ∧
      ∀ relation (s t : Sequence),
        s.generalCompare relation t =
          t.generalCompare relation.converse s := by
  refine ⟨sortCompare_self a, (sortCompare_swap a b).symm,
    sortCompare_trans, fun x y => sortCompare_of_number,
    fun y => sortCompare_of_isNaN, fun n x hFits hX => ?parts,
    fun relation hComparable hA hB =>
      compare_of_numbers hComparable hA hB relation,
    fun relation hComparable hNaN =>
      compare_of_isNaN hComparable hNaN relation,
    fun relation => ?converse, fun relation s t =>
      (Sequence.generalCompare_converse relation s t).symm⟩
  case parts =>
    rcases exists_number hX with ⟨y, hY⟩
    rw [compareParts?_eq hFits, hY, Option.map_some,
      Number.compare_eq_cmp,
      sortCompare_of_number (a := .int n) (b := .dbl x) rfl hY]
  case converse =>
    cases hComparable : a.comparable b with
    | true =>
        rw [compare_converse relation hComparable]
        left
        by_cases hNaN : a.isNaN = true ∨ b.isNaN = true
        · exact ⟨_, compare_of_isNaN hComparable hNaN relation,
            compare_of_isNaN hComparable hNaN relation⟩
        · simp only [not_or, Bool.not_eq_true] at hNaN
          have hHere := compare_of_numbers hComparable hNaN.1
            hNaN.2 relation
          exact ⟨_, hHere, hHere⟩
    | false =>
        exact .inr ⟨compare_of_not_comparable hComparable _,
          compare_of_not_comparable
            ((comparable_comm a b).trans hComparable) _⟩

/-
  The integer after 2 ^ 53 exceeds the double 2 ^ 53, to
  which it would be rounded, and a double that is no number
  comes before both of them.
-/
theorem compare_consistent_large :
    let n : Int := 2 ^ 53 + 1
    let x : Double := ⟨1076 * 2 ^ 52⟩
    (Item.int n).sortCompare (.dbl x) = .gt ∧
      compareParts? n x = some .gt ∧
      (Item.int n).compare .eq (.dbl x) = .ok (some false) ∧
      (Item.dbl x).compare .lt (.int n) = .ok (some true) ∧
      (Item.dbl .nan).sortCompare (.int n) ≠ .gt ∧
      (Item.dbl .nan).compare .le (.dbl x) = .ok none := by
  intro n x
  have hGt : (Item.int n).sortCompare (.dbl x) = .gt := by
    decide +kernel
  have hX : x.isNaN = false := by decide +kernel
  have hNaN : (Item.dbl .nan).isNaN = true := by
    decide +kernel
  have hNumber : x.number? = some (.finite (2 ^ 53)) := by
    decide +kernel
  rcases compare_consistent (.int n) (.dbl x) (.dbl .nan) with
    ⟨_, _, _, _, _, hParts, hRelated, _, _, _⟩
  rcases compare_consistent (.dbl x) (.int n) (.dbl .nan) with
    ⟨_, hSwap, _, _, _, _, hConverse, _, _, _⟩
  rcases compare_consistent (.dbl .nan) (.dbl x) (.int n) with
    ⟨_, _, hTrans, _, hBelow, _, _, hUnequal, _, _⟩
  have hLt : (Item.dbl x).sortCompare (.int n) = .lt := by
    rw [← Ordering.swap_inj, ← hSwap, hGt]
    rfl
  refine ⟨hGt, ?_, ?_, ?_, ?_, ?_⟩
  · rw [hParts n x (by decide +kernel) hX, hGt]
  · rw [hRelated .eq rfl rfl hX, hGt]
    rfl
  · rw [hConverse .lt rfl hX rfl, hLt]
    rfl
  · refine hTrans ?_ (by rw [hLt]; decide)
    rw [hBelow _ hNaN hNumber]
    decide
  · exact hUnequal .le rfl (.inl hNaN)

end Item

end Flwor
