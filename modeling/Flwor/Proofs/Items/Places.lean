import Mathlib.Data.Sum.Order
import Mathlib.Data.String.Basic
import Flwor.Proofs.Converse

/-
  Every item has a place in a linear order.

  The truth values come first, then the numbers by the exact
  value that they stand for, with those items that are no
  number in front, and then the strings.  The sorting order
  is the order of the places.

  Key definitions include:
    * `Number.extended`
    * `Item.Place`
    * `Item.place`

  Key theorems include:
    * `Number.compare_eq_cmp`
    * `Item.sortCompare_eq_cmp`
-/

------------------------------------------------------------
-- Numbers
------------------------------------------------------------

namespace Flwor

namespace Number

/- A number on the rational line with both its ends. -/
def extended : Number → WithBot (WithTop ℚ)
  | .negInfinity => ⊥
  | .finite q => ((q : WithTop ℚ) : WithBot (WithTop ℚ))
  | .infinity => ((⊤ : WithTop ℚ) : WithBot (WithTop ℚ))

theorem compare_finite
    (p q : ℚ) :
    (finite p).compare (.finite q) = cmp p q := by
  refine (Ordering.Compares.cmp_eq ?_).symm
  rw [Number.compare]
  rcases lt_trichotomy p q with h | h | h
  · simp [h]
  · simp [h]
  · simp [h, h.not_gt]

theorem compare_eq_cmp
    (x y : Number) :
    x.compare y = cmp x.extended y.extended := by
  have hTop (q : ℚ) :
      ((q : WithTop ℚ) : WithBot (WithTop ℚ)) <
        ((⊤ : WithTop ℚ) : WithBot (WithTop ℚ)) :=
    WithBot.coe_lt_coe.mpr (WithTop.coe_lt_top q)
  have hMono : StrictMono (fun q : ℚ =>
      ((q : WithTop ℚ) : WithBot (WithTop ℚ))) :=
    WithBot.coe_strictMono.comp WithTop.coe_strictMono
  refine (Ordering.Compares.cmp_eq ?_).symm
  cases x with
  | negInfinity =>
      cases y <;> simp [Number.compare, extended]
  | finite p =>
      cases y with
      | negInfinity => exact WithBot.bot_lt_coe _
      | finite q =>
          rw [compare_finite, ← hMono.cmp_map_eq]
          exact cmp_compares _ _
      | infinity => exact hTop p
  | infinity =>
      cases y with
      | negInfinity => exact WithBot.bot_lt_coe _
      | finite q => exact hTop q
      | infinity => exact rfl

end Number

end Flwor

------------------------------------------------------------
-- Items
------------------------------------------------------------

namespace Flwor

namespace Item

/- The places of all items, family by family. -/
abbrev Place :=
  Bool ⊕ₗ WithBot (WithBot (WithTop ℚ)) ⊕ₗ String

namespace Place

variable (b : Bool)
variable (q : WithBot (WithBot (WithTop ℚ)))
variable (s : String)

def truth : Place :=
  toLex (.inl b)

def numeric : Place :=
  toLex (.inr (toLex (.inl q)))

def textual : Place :=
  toLex (.inr (toLex (.inr s)))

theorem truth_strictMono : StrictMono truth :=
  Sum.Lex.inl_strictMono

theorem numeric_strictMono : StrictMono numeric :=
  Sum.Lex.inr_strictMono.comp Sum.Lex.inl_strictMono

theorem textual_strictMono : StrictMono textual :=
  Sum.Lex.inr_strictMono.comp Sum.Lex.inr_strictMono

theorem truth_lt_numeric : truth b < numeric q :=
  Sum.Lex.inl_lt_inr _ _

theorem truth_lt_textual : truth b < textual s :=
  Sum.Lex.inl_lt_inr _ _

theorem numeric_lt_textual : numeric q < textual s :=
  Sum.Lex.inr_strictMono (Sum.Lex.inl_lt_inr _ _)

end Place

/- How high a number lies; what is none lies lowest. -/
def level
    (a : Item) : WithBot (WithBot (WithTop ℚ)) :=
  a.number?.map Number.extended

/- The place of an item in sorting order. -/
def place : Item → Place
  | .bool b => .truth b
  | .str s => .textual s
  | a => .numeric a.level

theorem place_of_numeric
    {a : Item}
    (hFamily : a.family = .numeric) :
    a.place = .numeric a.level := by
  cases a <;> cases hFamily <;> rfl

/- Numbers compare as they lie. -/
theorem compareNumbers_eq_cmp
    (a b : Item) :
    a.compareNumbers b = cmp a.level b.level := by
  unfold compareNumbers level
  cases a.number? with
  | none =>
      cases b.number? with
      | none => exact (cmp_self_eq_eq _).symm
      | some y =>
          exact ((cmp_eq_lt_iff _ _).mpr
            (WithBot.bot_lt_coe y.extended)).symm
  | some x =>
      cases b.number? with
      | none =>
          exact ((cmp_eq_gt_iff _ _).mpr
            (WithBot.bot_lt_coe x.extended)).symm
      | some y =>
          exact (x.compare_eq_cmp y).trans
            (WithBot.coe_strictMono.cmp_map_eq
              x.extended y.extended).symm

/-
  The sorting order is that of the places: within a family
  the order of its items, and else that of the families.
-/
theorem sortCompare_eq_cmp
    (a b : Item) :
    a.sortCompare b = cmp a.place b.place := by
  have hNumeric (x y : Item) :
      x.compareNumbers y =
        cmp (Place.numeric x.level)
          (Place.numeric y.level) :=
    (compareNumbers_eq_cmp x y).trans
      (Place.numeric_strictMono.cmp_map_eq _ _).symm
  have hLess {p q : Place} (hLt : p < q) :
      Ordering.lt = cmp p q :=
    ((cmp_eq_lt_iff p q).mpr hLt).symm
  have hMore {p q : Place} (hLt : q < p) :
      Ordering.gt = cmp p q :=
    ((cmp_eq_gt_iff p q).mpr hLt).symm
  cases a with
  | bool x =>
      cases b with
      | bool y =>
          exact (Place.truth_strictMono.cmp_map_eq x y ▸
            (cmp_eq_compare x y).symm)
      | str t => exact hLess (Place.truth_lt_textual x t)
      | int n => exact hLess (Place.truth_lt_numeric x _)
      | dbl d => exact hLess (Place.truth_lt_numeric x _)
  | str s =>
      cases b with
      | bool y => exact hMore (Place.truth_lt_textual y s)
      | str t =>
          exact (Place.textual_strictMono.cmp_map_eq s t ▸
            (cmp_eq_compare s t).symm)
      | int n => exact hMore (Place.numeric_lt_textual _ s)
      | dbl d => exact hMore (Place.numeric_lt_textual _ s)
  | int m =>
      cases b with
      | bool y => exact hMore (Place.truth_lt_numeric y _)
      | str t => exact hLess (Place.numeric_lt_textual _ t)
      | int n => exact hNumeric (.int m) (.int n)
      | dbl d => exact hNumeric (.int m) (.dbl d)
  | dbl x =>
      cases b with
      | bool y => exact hMore (Place.truth_lt_numeric y _)
      | str t => exact hLess (Place.numeric_lt_textual _ t)
      | int n => exact hNumeric (.dbl x) (.int n)
      | dbl d => exact hNumeric (.dbl x) (.dbl d)

end Item

end Flwor
