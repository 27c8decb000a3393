import Flwor.Proofs.Refinement

/-
  When two outcomes meet: both fail, or both have values that
  correspond.  Where the outcomes meet laxly, only one of
  them may fail as well, or only the first one.

  Strict meetings can be chained with lax ones.  Two lax ones
  can be chained if only the first outcome may fail alone;
  otherwise what is between them may fail where both ends
  have values.

  Key definitions include:
    * `Leeway`
    * `Meets`

  Key theorems include:
    * `Meets.bind`, `Meets.both`
    * `Meets.mapM`
    * `Meets.trans_lax`, `Meets.trans`
-/

------------------------------------------------------------
-- Meeting Outcomes
------------------------------------------------------------

namespace Flwor

/- Which of two outcomes may have a value alone. -/
structure Leeway where
  left : Prop
  right : Prop

/- Either of them, or none. -/
instance : Coe Prop Leeway where
  coe lax := ⟨lax, lax⟩

/- Only the second one: the first one fails more often. -/
def Leeway.onlyRight : Leeway :=
  ⟨False, True⟩

/- Two outcomes that correspond as far as both have values. -/
inductive Meets
    {α β : Type}
    (lax : Leeway)
    (Related : α → β → Prop) :
    Option α → Option β → Prop where
  | value
      {x y}
      (hRelated : Related x y) :
      Meets lax Related (some x) (some y)
  | failure :
      Meets lax Related none none
  | left
      (hLax : lax.left)
      (x : α) :
      Meets lax Related (some x) none
  | right
      (hLax : lax.right)
      (y : β) :
      Meets lax Related none (some y)

/- What corresponds strictly also meets. -/
theorem Refines.meets
    {α β : Type}
    {lax : Leeway}
    {R : α → β → Prop}
    {a : Option α}
    {b : Option β}
    (hOutcome : Refines False R a b) :
    Meets lax R a b := by
  cases hOutcome with
  | value hRelated => exact .value hRelated
  | failure => exact .failure
  | spared hLenient y => exact hLenient.elim

namespace Meets

variable {α β γ δ : Type}
variable {lax : Leeway}
variable {R : α → β → Prop}
variable {S : γ → δ → Prop}
variable {a : Option α}
variable {b : Option β}

/- A failure meets everything laxly. -/
theorem none_left
    (hLax : lax.right)
    (b : Option β) :
    Meets lax R none b := by
  cases b with
  | none => exact .failure
  | some y => exact .right hLax y

theorem none_right
    (hLax : lax.left)
    (a : Option α) :
    Meets lax R a none := by
  cases a with
  | none => exact .failure
  | some x => exact .left hLax x

theorem bind
    {f : α → Option γ}
    {g : β → Option δ}
    (hOutcome : Meets lax R a b)
    (hNext : ∀ x y, R x y → Meets lax S (f x) (g y)) :
    Meets lax S (a.bind f) (b.bind g) := by
  cases hOutcome with
  | value hRelated => exact hNext _ _ hRelated
  | failure => exact .failure
  | left hLax x => exact none_right hLax _
  | right hLax y => exact none_left hLax _

theorem map
    {f : α → γ}
    {g : β → δ}
    (hOutcome : Meets lax R a b)
    (hNext : ∀ x y, R x y → S (f x) (g y)) :
    Meets lax S (a.map f) (b.map g) := by
  cases hOutcome with
  | value hRelated => exact .value (hNext _ _ hRelated)
  | failure => exact .failure
  | left hLax x => exact .left hLax _
  | right hLax y => exact .right hLax _

theorem mono
    {R' : α → β → Prop}
    (hOutcome : Meets lax R a b)
    (hWeaker : ∀ x y, R x y → R' x y) :
    Meets lax R' a b := by
  cases hOutcome with
  | value hRelated => exact .value (hWeaker _ _ hRelated)
  | failure => exact .failure
  | left hLax x => exact .left hLax x
  | right hLax y => exact .right hLax y

/- The same meeting, seen from the other side. -/
theorem symm
    {R' : β → α → Prop}
    (hOutcome : Meets lax R a b)
    (hBack : ∀ x y, R x y → R' y x) :
    Meets ⟨lax.right, lax.left⟩ R' b a := by
  cases hOutcome with
  | value hRelated => exact .value (hBack _ _ hRelated)
  | failure => exact .failure
  | left hLax x => exact .right hLax x
  | right hLax y => exact .left hLax y

/- The same computation on the same value. -/
theorem refl
    (a : Option α) :
    Meets lax Eq a a := by
  cases a with
  | none => exact .failure
  | some x => exact .value rfl

/- The same computation on two outcomes that meet. -/
theorem both
    {ε : Type}
    {a a' : Option α}
    {b b' : Option β}
    (hFirst : Meets lax Eq a a')
    (hSecond : Meets lax Eq b b')
    (f : α → β → Option ε) :
    Meets lax Eq (a.bind (fun x => b.bind (f x)))
      (a'.bind (fun x => b'.bind (f x))) := by
  refine hFirst.bind ?_
  rintro x _ rfl
  refine hSecond.bind ?_
  rintro y _ rfl
  exact refl _

/- Elements that correspond, treated one by one. -/
theorem mapM
    {as : List α}
    {bs : List β}
    {f : α → Option γ}
    {g : β → Option δ}
    (hBoth : List.Forall₂ R as bs)
    (hEach : ∀ x y, R x y → Meets lax S (f x) (g y)) :
    Meets lax (List.Forall₂ S) (as.mapM f) (bs.mapM g) := by
  induction hBoth with
  | nil => exact .value .nil
  | cons hHead _ ih =>
      rw [List.mapM_cons, List.mapM_cons]
      refine (hEach _ _ hHead).bind (fun c d hFirst => ?_)
      exact ih.bind (fun cs ds hRest =>
        .value (.cons hFirst hRest))

/- Two values that meet correspond. -/
theorem related
    {x : α}
    {y : β}
    (hOutcome : Meets lax R a b)
    (hLeft : a = some x)
    (hRight : b = some y) :
    R x y := by
  subst hLeft
  subst hRight
  cases hOutcome with
  | value hRelated => exact hRelated

/- Outcomes that meet, and whose values also correspond. -/
theorem and
    {R' : α → β → Prop}
    (hOutcome : Meets lax R a b)
    (hAlso : Meets True R' a b) :
    Meets lax (fun x y => R x y ∧ R' x y) a b := by
  cases hOutcome with
  | value hRelated => exact .value ⟨hRelated, hAlso.related rfl rfl⟩
  | failure => exact .failure
  | left hLax x => exact .left hLax x
  | right hLax y => exact .right hLax y

/- It is enough to look at two values. -/
theorem of_values
    (hValues : ∀ x y, a = some x → b = some y → R x y) :
    Meets True R a b := by
  cases a with
  | none => exact none_left trivial b
  | some x =>
      cases b with
      | none => exact .left trivial x
      | some y => exact .value (hValues x y rfl rfl)

/- Where nothing is lax, both have a value or neither. -/
theorem eq_of_strict
    {a b : Option α}
    (hOutcome : Meets False Eq a b) :
    a = b := by
  cases hOutcome with
  | value hRelated => rw [hRelated]
  | failure => rfl
  | left hLax x => exact hLax.elim
  | right hLax y => exact hLax.elim

/- A strict meeting, and then a lax one. -/
theorem trans_lax
    {T : α → δ → Prop}
    {Q : β → δ → Prop}
    {d : Option δ}
    (hFirst : Meets False R a b)
    (hSecond : Meets lax Q b d)
    (hRelated : ∀ x y z, R x y → Q y z → T x z) :
    Meets lax T a d := by
  cases hFirst with
  | value hR =>
      cases hSecond with
      | value hQ => exact .value (hRelated _ _ _ hR hQ)
      | left hLax y => exact .left hLax _
  | failure =>
      cases hSecond with
      | failure => exact .failure
      | right hLax z => exact .right hLax z
  | left hLax x => exact hLax.elim
  | right hLax y => exact hLax.elim

/-
  Two meetings in which the first outcome may fail alone, but
  not the second one.
-/
theorem trans
    {T : α → δ → Prop}
    {Q : β → δ → Prop}
    {d : Option δ}
    (hStrict : ¬ lax.left)
    (hFirst : Meets lax R a b)
    (hSecond : Meets lax Q b d)
    (hRelated : ∀ x y z, R x y → Q y z → T x z) :
    Meets lax T a d := by
  cases hFirst with
  | value hR =>
      cases hSecond with
      | value hQ => exact .value (hRelated _ _ _ hR hQ)
      | left hLax y => exact (hStrict hLax).elim
  | failure =>
      cases hSecond with
      | failure => exact .failure
      | right hLax z => exact .right hLax z
  | left hLax x => exact (hStrict hLax).elim
  | right hLax y =>
      cases hSecond with
      | value hQ => exact .right hLax _
      | left hLax y => exact (hStrict hLax).elim

/- Then the first value decides about the second one. -/
theorem exists_of_onlyRight
    {x : α}
    (hOutcome : Meets .onlyRight R a b)
    (hValue : a = some x) :
    ∃ y, b = some y ∧ R x y := by
  subst hValue
  cases hOutcome with
  | value hRelated => exact ⟨_, rfl, hRelated⟩
  | left hLax x => exact hLax.elim

end Meets

end Flwor
