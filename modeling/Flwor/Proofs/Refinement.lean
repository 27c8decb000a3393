import Mathlib.Data.List.Forall2

/-
  When an outcome is right for a specified one: both fail, or
  both have values that correspond.  A lenient outcome may
  also have a value where the specified one fails.

  Key definitions include:
    * `Refines`

  Key theorems include:
    * `Refines.bind`, `Refines.both`
    * `Refines.mapM`
-/

------------------------------------------------------------
-- Refinement
------------------------------------------------------------

namespace Flwor

/- An outcome that meets a specified one. -/
inductive Refines
    {α β : Type}
    (lenient : Prop)
    (Related : α → β → Prop) :
    Option α → Option β → Prop where
  | value
      {x y}
      (hRelated : Related x y) :
      Refines lenient Related (some x) (some y)
  | failure :
      Refines lenient Related none none
  | spared
      (hLenient : lenient)
      (y : β) :
      Refines lenient Related none (some y)

namespace Refines

variable {α β γ δ : Type}
variable {lenient : Prop}
variable {R : α → β → Prop}
variable {S : γ → δ → Prop}

/- What a lenient outcome has where nothing is specified. -/
theorem of_lenient
    (hLenient : lenient)
    (b : Option β) :
    Refines lenient R none b := by
  cases b with
  | none => exact .failure
  | some y => exact .spared hLenient y

theorem bind
    {a : Option α}
    {b : Option β}
    {f : α → Option γ}
    {g : β → Option δ}
    (hOutcome : Refines lenient R a b)
    (hNext : ∀ x y, R x y → Refines lenient S (f x) (g y)) :
    Refines lenient S (a.bind f) (b.bind g) := by
  cases hOutcome with
  | value hRelated => exact hNext _ _ hRelated
  | failure => exact .failure
  | spared hLenient y => exact of_lenient hLenient _

theorem map
    {a : Option α}
    {b : Option β}
    {f : α → γ}
    {g : β → δ}
    (hOutcome : Refines lenient R a b)
    (hNext : ∀ x y, R x y → S (f x) (g y)) :
    Refines lenient S (a.map f) (b.map g) := by
  cases hOutcome with
  | value hRelated => exact .value (hNext _ _ hRelated)
  | failure => exact .failure
  | spared hLenient y => exact .spared hLenient _

theorem mono
    {R' : α → β → Prop}
    {a : Option α}
    {b : Option β}
    (hOutcome : Refines lenient R a b)
    (hWeaker : ∀ x y, R x y → R' x y) :
    Refines lenient R' a b := by
  cases hOutcome with
  | value hRelated => exact .value (hWeaker _ _ hRelated)
  | failure => exact .failure
  | spared hLenient y => exact .spared hLenient y

/- The same computation on the same value. -/
theorem refl
    (a : Option α) :
    Refines lenient Eq a a := by
  cases a with
  | none => exact .failure
  | some x => exact .value rfl

/- The same computation on two outcomes that are met. -/
theorem both
    {ε : Type}
    {a a' : Option α}
    {b b' : Option β}
    (hFirst : Refines lenient Eq a a')
    (hSecond : Refines lenient Eq b b')
    (f : α → β → Option ε) :
    Refines lenient Eq (a.bind (fun x => b.bind (f x)))
      (a'.bind (fun x => b'.bind (f x))) := by
  refine hFirst.bind ?_
  rintro x _ rfl
  refine hSecond.bind ?_
  rintro y _ rfl
  exact refl _

/- Elements that correspond, treated one by one. -/
theorem mapM
    {as : List α}
    {bs : List β}
    {f : α → Option γ}
    {g : β → Option δ}
    (hBoth : List.Forall₂ R as bs)
    (hEach : ∀ x y, R x y → Refines lenient S (f x) (g y)) :
    Refines lenient (List.Forall₂ S)
      (as.mapM f) (bs.mapM g) := by
  induction hBoth with
  | nil => exact .value .nil
  | cons hHead _ ih =>
      rw [List.mapM_cons, List.mapM_cons]
      refine (hEach _ _ hHead).bind (fun c d hFirst => ?_)
      exact ih.bind (fun cs ds hRest =>
        .value (.cons hFirst hRest))

/- Where nothing is lenient, both have a value or neither. -/
theorem eq_of_strict
    {a b : Option α}
    (hOutcome : Refines False Eq a b) :
    a = b := by
  cases hOutcome with
  | value hRelated => rw [hRelated]
  | failure => rfl
  | spared hLenient y => exact hLenient.elim

/- A specified value is met. -/
theorem eq_some
    {a b : Option α}
    {x : α}
    (hOutcome : Refines lenient Eq a b)
    (hValue : a = some x) :
    b = some x := by
  cases hOutcome with
  | value hRelated => rw [← hRelated, hValue]
  | failure => cases hValue
  | spared hLenient y => cases hValue

end Refines

end Flwor
