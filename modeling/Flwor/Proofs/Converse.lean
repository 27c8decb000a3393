import Mathlib.Order.Compare
import Flwor.Proofs.Matching

/-
  Comparisons with their operands swapped.

  The order of items turns around with them, and so does the
  relation: a general comparison of two sequences says the
  same as its converse of the second and the first.

  Key theorems include:
    * `Item.sortCompare_swap`
    * `Item.satisfies_converse`
    * `Sequence.generalCompare_converse`
-/

------------------------------------------------------------
-- Orders
------------------------------------------------------------

namespace Flwor

theorem Number.compare_swap
    (x y : Number) :
    (x.compare y).swap = y.compare x := by
  cases x with
  | negInfinity => cases y <;> rfl
  | infinity => cases y <;> rfl
  | finite a =>
      cases y with
      | negInfinity => rfl
      | infinity => rfl
      | finite b =>
          rw [Number.compare, Number.compare]
          rcases lt_trichotomy a b with h | h | h
          · simp [h, h.not_gt]
          · simp [h]
          · simp [h, h.not_gt]

namespace Item

theorem compareNumbers_swap
    (a b : Item) :
    (a.compareNumbers b).swap = b.compareNumbers a := by
  unfold compareNumbers
  cases a.number? with
  | none => cases b.number? <;> rfl
  | some x =>
      cases b.number? with
      | none => rfl
      | some y => exact x.compare_swap y

/- The order of sorting is that of swapped items, reversed. -/
theorem sortCompare_swap
    (a b : Item) :
    (a.sortCompare b).swap = b.sortCompare a := by
  have hBool (x y : Bool) :
      (Ord.compare x y).swap = Ord.compare y x := by
    cases x <;> cases y <;> rfl
  have hString (x y : String) :
      (Ord.compare x y).swap = Ord.compare y x :=
    (Std.OrientedCmp.eq_swap).symm
  have hNumber {x y : Item}
      (hX : x.family = .numeric)
      (hY : y.family = .numeric) :
      (x.sortCompare y).swap = y.sortCompare x := by
    have hSwap := compareNumbers_swap x y
    cases x <;> cases hX <;> cases y <;> cases hY <;>
      simpa only [sortCompare, family] using hSwap
  cases a with
  | bool x =>
      cases b with
      | bool y => exact hBool x y
      | str y => rfl
      | int y => rfl
      | dbl y => rfl
  | str x =>
      cases b with
      | bool y => rfl
      | str y => exact hString x y
      | int y => rfl
      | dbl y => rfl
  | int x =>
      cases b with
      | bool y => rfl
      | str y => rfl
      | int y => exact hNumber rfl rfl
      | dbl y => exact hNumber rfl rfl
  | dbl x =>
      cases b with
      | bool y => rfl
      | str y => rfl
      | int y => exact hNumber rfl rfl
      | dbl y => exact hNumber rfl rfl

end Item

end Flwor

------------------------------------------------------------
-- Relations
------------------------------------------------------------

namespace Flwor

theorem Relation.holds_converse
    (relation : Relation)
    (order : Ordering) :
    relation.converse.holds order.swap =
      relation.holds order := by
  cases relation <;> cases order <;> rfl

theorem Relation.converse_eq_ne_iff
    (relation : Relation) :
    relation.converse = .ne ↔ relation = .ne := by
  cases relation <;> simp [converse]

theorem Item.comparable_comm
    (a b : Item) :
    b.comparable a = a.comparable b := by
  unfold comparable
  exact decide_eq_decide.mpr eq_comm

theorem Item.satisfies_converse
    (relation : Relation)
    (a b : Item) :
    b.satisfies relation.converse a =
      a.satisfies relation b := by
  rw [satisfies_eq, satisfies_eq, comparable_comm a b,
    Bool.or_comm, ← sortCompare_swap a b,
    relation.holds_converse,
    decide_eq_decide.mpr relation.converse_eq_ne_iff]

/- Some pair of items is a pair of swapped sequences. -/
theorem Sequence.generalCompare_converse
    (relation : Relation)
    (s t : Sequence) :
    t.generalCompare relation.converse s =
      s.generalCompare relation t := by
  rw [Bool.eq_iff_iff]
  simp only [generalCompare, List.any_eq_true,
    Item.satisfies_converse]
  constructor
  · rintro ⟨b, hB, a, hA, hHolds⟩
    exact ⟨a, hA, b, hB, hHolds⟩
  · rintro ⟨a, hA, b, hB, hHolds⟩
    exact ⟨b, hB, a, hA, hHolds⟩

end Flwor
