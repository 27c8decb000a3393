import Mathlib.Data.List.TakeWhile
import Flwor.Proofs.Functions.Calls
import Flwor.Proofs.Items.Places

/-
  The extreme item of a sequence.

  Up to the first item that is no number, the item met first
  among those that none comes before is carried along, and an
  item of another family ends the search with an error.  The
  first item that is no number ends it with this item, so what
  comes after it is not looked at.

  Key definitions include:
    * `Library.Leads`
    * `Library.Mixed`

  Key theorems include:
    * `Library.Leads.step`
    * `Library.extremum_append`
    * `Library.extremum_of_alike`
    * `Library.extremum_of_mixed`
    * `Library.extremes_before_nan`
-/

------------------------------------------------------------
-- Leading Items
------------------------------------------------------------

namespace Flwor

namespace Item

variable {wanted : Ordering}
variable {a b c : Item}

theorem sortCompare_asymm
    (hWanted : wanted ≠ .eq)
    (hBefore : a.sortCompare b = wanted) :
    b.sortCompare a ≠ wanted := by
  rw [sortCompare_eq_cmp] at hBefore ⊢
  cases wanted with
  | eq => exact absurd rfl hWanted
  | lt =>
      rw [cmp_eq_lt_iff] at hBefore
      rw [Ne, cmp_eq_lt_iff]
      exact hBefore.not_gt
  | gt =>
      rw [cmp_eq_gt_iff] at hBefore
      rw [Ne, cmp_eq_gt_iff]
      exact hBefore.not_gt

/- What comes before a first item comes before the others. -/
theorem sortCompare_of_before
    (hWanted : wanted ≠ .eq)
    (hBefore : a.sortCompare b = wanted)
    (hNot : c.sortCompare b ≠ wanted) :
    a.sortCompare c = wanted := by
  rw [sortCompare_eq_cmp] at hBefore hNot ⊢
  cases wanted with
  | eq => exact absurd rfl hWanted
  | lt =>
      rw [cmp_eq_lt_iff] at hBefore
      rw [Ne, cmp_eq_lt_iff, not_lt] at hNot
      rw [cmp_eq_lt_iff]
      exact hBefore.trans_le hNot
  | gt =>
      rw [cmp_eq_gt_iff] at hBefore
      rw [Ne, cmp_eq_gt_iff, not_lt] at hNot
      rw [cmp_eq_gt_iff]
      exact hNot.trans_lt hBefore

end Item

namespace Library

/-
  The first item of a sequence that no item comes before, in
  the wanted direction: it comes before all that stand in
  front of it.
-/
structure Leads
    (wanted : Ordering)
    (c : Item)
    (s : Sequence) : Prop where
  first : ∃ front back, s = front ++ c :: back ∧
    ∀ a ∈ front, c.sortCompare a = wanted
  least : ∀ a ∈ s, a.sortCompare c ≠ wanted

namespace Leads

variable {wanted : Ordering}
variable {c : Item}
variable {s : Sequence}

/- The only item leads. -/
theorem single
    (hWanted : wanted ≠ .eq)
    (c : Item) :
    Leads wanted c [c] where
  first := ⟨[], [], rfl, nofun⟩
  least := by
    rw [List.forall_mem_singleton]
    exact fun hBefore =>
      Item.sortCompare_asymm hWanted hBefore hBefore

/- One more item leads if it comes before the leading one. -/
theorem step
    (h : Leads wanted c s)
    (hWanted : wanted ≠ .eq)
    (a : Item) :
    Leads wanted (if a.sortCompare c = wanted then a else c)
      (s ++ [a]) := by
  split
  next hBefore =>
    have hAll : ∀ b ∈ s, a.sortCompare b = wanted :=
      fun b hB => Item.sortCompare_of_before hWanted hBefore
        (h.least b hB)
    refine ⟨⟨s, [], rfl, hAll⟩, ?_⟩
    rw [List.forall_mem_append]
    exact ⟨fun b hB =>
      Item.sortCompare_asymm hWanted (hAll b hB),
      (single hWanted a).least⟩
  next hNot =>
    rcases h.first with ⟨front, back, rfl, hFront⟩
    refine ⟨⟨front, back ++ [a], by simp, hFront⟩, ?_⟩
    rw [List.forall_mem_append, List.forall_mem_singleton]
    exact ⟨h.least, hNot⟩

/- The leading item is the first that none comes before. -/
theorem find?_eq
    (h : Leads wanted c s) :
    s.find? (fun a =>
      s.all (fun b => b.sortCompare a != wanted)) =
        some c := by
  rcases h.first with ⟨front, back, hSplit, hFront⟩
  rw [List.find?_eq_some_iff_append]
  refine ⟨?_, front, back, hSplit, fun a hA => ?_⟩
  · rw [List.all_eq_true]
    exact fun b hB => bne_iff_ne.mpr (h.least b hB)
  · have hC : c ∈ s := by
      rw [hSplit]
      exact List.mem_append_right _ List.mem_cons_self
    rw [Bool.not_eq_true', List.all_eq_false]
    refine ⟨c, hC, ?_⟩
    rw [bne_iff_ne, not_not]
    exact hFront a hA

end Leads

end Library

end Flwor

------------------------------------------------------------
-- The Search
------------------------------------------------------------

namespace Flwor

namespace Library

variable {function : String}
variable {wanted : Ordering}
variable {a b c : Item}
variable {s seen : Sequence}

/- Whether two items are of families that do not compare. -/
def Mixed
    (s : Sequence) : Prop :=
  ∃ a ∈ s, ∃ b ∈ s, a.comparable b = false

/- Which items are mixed does not depend on their order. -/
theorem mixed_perm
    {t : Sequence}
    (hPerm : s.Perm t) :
    Mixed s ↔ Mixed t := by
  simp only [Mixed, hPerm.mem_iff]

theorem comparable_iff :
    a.comparable b = true ↔ a.family = b.family :=
  decide_eq_true_iff

/- Items that are not mixed are of the family of the first. -/
theorem family_of_not_mixed
    (hMixed : ¬Mixed (b :: s))
    (hA : a ∈ s) :
    a.family = b.family := by
  by_contra hOther
  refine hMixed ⟨a, List.mem_cons_of_mem _ hA, b,
    List.mem_cons_self, ?_⟩
  rw [← Bool.not_eq_true, comparable_iff]
  exact hOther

/- The first item that is no number ends the search. -/
theorem extremum_of_isNaN
    (best : Option Item)
    (hNaN : a.isNaN = true)
    (rest : Sequence) :
    extremum function wanted best (a :: rest) =
      .ok (some a) := by
  cases best <;> rw [extremum, if_pos hNaN]

/- An item of the same family is compared with the best. -/
theorem extremum_cons
    (hNumber : a.isNaN = false)
    (hFamily : a.family = c.family)
    (rest : Sequence) :
    extremum function wanted (some c) (a :: rest) =
      extremum function wanted
        (some (if a.sortCompare c = wanted then a else c))
        rest := by
  rw [extremum, hNumber]
  simp only [Bool.false_eq_true, if_false, Item.atomicCompare,
    if_pos (comparable_iff.mpr hFamily)]

/- An item of another family is refused. -/
theorem extremum_of_other
    (hNumber : a.isNaN = false)
    (hFamily : a.family ≠ c.family)
    (rest : Sequence) :
    extremum function wanted (some c) (a :: rest) =
      .error (.mixedExtremum function a.type c.type) := by
  rw [extremum, hNumber]
  simp only [Bool.false_eq_true, if_false, Item.atomicCompare,
    if_neg (mt comparable_iff.mp hFamily)]

/-
  After items of one family the search goes on with the one
  that leads among all that were met.
-/
theorem extremum_append
    (function : String)
    (hWanted : wanted ≠ .eq)
    (hLeads : Leads wanted c seen)
    (hAlike : ∀ a ∈ s,
      a.isNaN = false ∧ a.family = c.family)
    (rest : Sequence) :
    ∃ d, Leads wanted d (seen ++ s) ∧ d.family = c.family ∧
      extremum function wanted (some c) (s ++ rest) =
        extremum function wanted (some d) rest := by
  induction s generalizing c seen with
  | nil =>
      rw [List.append_nil]
      exact ⟨c, hLeads, rfl, rfl⟩
  | cons a more ih =>
      rw [List.forall_mem_cons] at hAlike
      have hBest :
          (if a.sortCompare c = wanted then a else c).family =
            c.family := by
        split
        · exact hAlike.1.2
        · rfl
      have hMore : ∀ b ∈ more, b.isNaN = false ∧
          b.family =
            (if a.sortCompare c = wanted
              then a else c).family := by
        rw [hBest]
        exact hAlike.2
      rcases ih (hLeads.step hWanted a) hMore with
        ⟨d, hD, hFamily, hRest⟩
      rw [List.append_assoc] at hD
      refine ⟨d, hD, hFamily.trans hBest, ?_⟩
      rw [List.cons_append,
        extremum_cons hAlike.1.1 hAlike.1.2, hRest]

variable {numbers : Sequence}

/-
  If the items in front of the first non-number are alike,
  then the result is this non-number or the leading item.
-/
theorem extremum_of_alike
    (function : String)
    (hWanted : wanted ≠ .eq)
    (hNumbers : ∀ a ∈ numbers, a.isNaN = false)
    (hMixed : ¬Mixed numbers) :
    (∀ a rest, a.isNaN = true →
      extremum function wanted none (numbers ++ a :: rest) =
        .ok (some a)) ∧
      (numbers ≠ [] → ∃ d, Leads wanted d numbers ∧
        extremum function wanted none numbers =
          .ok (some d)) := by
  cases numbers with
  | nil =>
      exact ⟨fun a rest hNaN => extremum_of_isNaN none hNaN rest,
        fun hNe => absurd rfl hNe⟩
  | cons b more =>
      rw [List.forall_mem_cons] at hNumbers
      have hAlike : ∀ a ∈ more,
          a.isNaN = false ∧ a.family = b.family :=
        fun a hA => ⟨hNumbers.2 a hA,
          family_of_not_mixed hMixed hA⟩
      have hStart (rest : Sequence) :
          extremum function wanted none (b :: rest) =
            extremum function wanted (some b) rest := by
        rw [extremum, hNumbers.1]
        rfl
      have hRun := extremum_append function
        hWanted (.single hWanted b) hAlike
      constructor
      · intro a rest hNaN
        rcases hRun (a :: rest) with ⟨d, -, -, hRest⟩
        rw [List.cons_append, hStart, hRest,
          extremum_of_isNaN _ hNaN]
      · intro _
        rcases hRun [] with ⟨d, hD, -, hRest⟩
        rw [List.append_nil] at hRest
        refine ⟨d, hD, ?_⟩
        rw [hStart, hRest, extremum]

/- If they are mixed then the search fails, whatever follows. -/
theorem extremum_of_mixed
    (function : String)
    (hWanted : wanted ≠ .eq)
    (hNumbers : ∀ a ∈ numbers, a.isNaN = false)
    (hMixed : Mixed numbers)
    (rest : Sequence) :
    ∃ left right,
      extremum function wanted none (numbers ++ rest) =
        .error (.mixedExtremum function left right) := by
  cases numbers with
  | nil =>
      rcases hMixed with ⟨a, hA, -⟩
      cases hA
  | cons b more =>
      rw [List.forall_mem_cons] at hNumbers
      -- The first item that is of another family than `b`.
      have hOther : ∃ a ∈ more, a.family ≠ b.family := by
        by_contra hNone
        have hAll : ∀ a ∈ b :: more, a.family = b.family :=
          List.forall_mem_cons.mpr ⟨rfl, fun a hA =>
            by_contra (fun hA' => hNone ⟨a, hA, hA'⟩)⟩
        rcases hMixed with ⟨x, hX, y, hY, hApart⟩
        rw [← Bool.not_eq_true, comparable_iff] at hApart
        exact hApart ((hAll x hX).trans (hAll y hY).symm)
      rcases hOther with ⟨x, hX, hFamily⟩
      have hSome : (more.find? (fun a =>
          a.family ≠ b.family)).isSome = true :=
        List.find?_isSome.mpr ⟨x, hX, decide_eq_true hFamily⟩
      rcases Option.isSome_iff_exists.mp hSome with ⟨a, hFind⟩
      rcases List.find?_eq_some_iff_append.mp hFind with
        ⟨hA, front, back, rfl, hFront⟩
      rw [decide_eq_true_eq] at hA
      have hAlike : ∀ x ∈ front,
          x.isNaN = false ∧ x.family = b.family :=
        fun x hX => ⟨hNumbers.2 x (List.mem_append_left _ hX),
          by simpa using hFront x hX⟩
      rcases extremum_append function hWanted
          (.single hWanted b) hAlike (a :: (back ++ rest)) with
        ⟨d, -, hD, hRun⟩
      refine ⟨a.type, d.type, ?_⟩
      rw [List.cons_append, List.append_assoc, List.cons_append,
        extremum, hNumbers.1]
      refine hRun.trans (extremum_of_other
        (hNumbers.2 a (by simp)) (fun hSame => hA ?_) _)
      exact hSame.trans hD

end Library

end Flwor

------------------------------------------------------------
-- Minimum and Maximum
------------------------------------------------------------

namespace Flwor

namespace Library

variable {name : String}
variable {wanted : Ordering}
variable {s : Sequence}

/- The items in front of the first non-number, if there is one. -/
def numbers
    (s : Sequence) : Sequence :=
  s.takeWhile (fun a => !a.isNaN)

theorem isNaN_of_mem_numbers :
    ∀ a ∈ numbers s, a.isNaN = false := by
  intro a hA
  have hAll : (numbers s).all (fun a => !a.isNaN) = true :=
    List.all_takeWhile
  exact Bool.not_eq_true' _ ▸ List.all_eq_true.mp hAll a hA

/- A sequence without a non-number is all in front. -/
theorem numbers_of_find?_eq_none
    (hNone : s.find? Item.isNaN = none) :
    numbers s = s := by
  rw [List.find?_eq_head?_dropWhile_not,
    List.head?_eq_none_iff] at hNone
  calc numbers s
      = numbers s ++ s.dropWhile (fun a => !a.isNaN) := by
        rw [hNone, List.append_nil]
    _ = s := List.takeWhile_append_dropWhile

/- The first non-number follows what is in front of it. -/
theorem exists_numbers_append
    {a : Item}
    (hFind : s.find? Item.isNaN = some a) :
    a.isNaN = true ∧ ∃ rest, numbers s ++ a :: rest = s := by
  refine ⟨List.find?_some hFind, ?_⟩
  rw [List.find?_eq_head?_dropWhile_not,
    List.head?_eq_some_iff] at hFind
  rcases hFind with ⟨rest, hRest⟩
  refine ⟨rest, ?_⟩
  rw [numbers, ← hRest]
  exact List.takeWhile_append_dropWhile

/- Some sequence in front is all that a search depends on. -/
theorem exists_rest
    (s : Sequence) :
    ∃ rest, numbers s ++ rest = s :=
  ⟨s.dropWhile (fun a => !a.isNaN),
    List.takeWhile_append_dropWhile⟩

section Directions

variable
    (hName : (name, wanted) ∈
      [("min", Ordering.lt), ("max", .gt)])

include hName

/- The two functions search in the two directions. -/
theorem call_extreme
    (s : Sequence) :
    standard.call name [s] =
      (extremum name wanted none s).map Option.toList := by
  rw [List.mem_pair, Prod.mk.injEq, Prod.mk.injEq] at hName
  rcases hName with ⟨rfl, rfl⟩ | ⟨rfl, rfl⟩
  · exact call_standard (List.mem_of_getElem? (i := 2) rfl)
      rfl rfl
  · exact call_standard (List.mem_of_getElem? (i := 3) rfl)
      rfl rfl

theorem ne_eq_of_name :
    wanted ≠ .eq := by
  rintro rfl
  simp at hName

/- Mixed items in front of the first non-number are refused. -/
theorem call_of_mixed
    (hMixed : Mixed (numbers s)) :
    ∃ e, standard.call name [s] = .error e ∧
      e.code = "FORG0006" := by
  rcases exists_rest s with ⟨rest, hRest⟩
  rcases extremum_of_mixed name
      (ne_eq_of_name hName) isNaN_of_mem_numbers hMixed rest
    with ⟨left, right, hError⟩
  rw [hRest] at hError
  exact ⟨_, by rw [call_extreme hName, hError]; rfl, rfl⟩

/- Items that are not mixed have an extreme one. -/
theorem call_of_alike
    (hMixed : ¬Mixed (numbers s)) :
    (∀ a, s.find? Item.isNaN = some a →
      standard.call name [s] = .ok [a]) ∧
      (s.find? Item.isNaN = none → s ≠ [] →
        ∃ a, s.find? (fun a =>
            s.all (fun b => b.sortCompare a != wanted)) =
              some a ∧
          standard.call name [s] = .ok [a]) := by
  rcases extremum_of_alike name
      (ne_eq_of_name hName) isNaN_of_mem_numbers hMixed with
    ⟨hNaN, hNumbers⟩
  rw [call_extreme hName]
  constructor
  · intro a hFind
    rcases exists_numbers_append hFind with ⟨hA, rest, hRest⟩
    have hOk := hNaN a rest hA
    rw [hRest] at hOk
    rw [hOk]
    rfl
  · intro hFind hNe
    rw [numbers_of_find?_eq_none hFind] at hNumbers
    rcases hNumbers hNe with ⟨d, hLeads, hOk⟩
    refine ⟨d, hLeads.find?_eq, ?_⟩
    rw [hOk]
    rfl

theorem call_nil :
    standard.call name [[]] = .ok [] := by
  rw [call_extreme hName]
  rfl

/- A call fails exactly if what is in front is mixed. -/
theorem call_fails_iff
    (s : Sequence) :
    (∃ e, standard.call name [s] = .error e ∧
      e.code = "FORG0006") ↔ Mixed (numbers s) := by
  refine ⟨fun hFails => ?_, call_of_mixed hName⟩
  by_contra hMixed
  rcases hFails with ⟨e, hError, -⟩
  rcases call_of_alike hName hMixed with ⟨hNaN, hNumbers⟩
  cases hFind : s.find? Item.isNaN with
  | some a =>
      rw [hNaN a hFind] at hError
      cases hError
  | none =>
      by_cases hNe : s = []
      · subst hNe
        rw [call_nil hName] at hError
        cases hError
      · rcases hNumbers hFind hNe with ⟨a, -, hOk⟩
        rw [hOk] at hError
        cases hError

end Directions

/-
  The minimum and the maximum of a sequence.  They fail if and
  only if items in front of the first one that is no number
  are of families that do not compare.  Otherwise the first
  that is no number is given if there is one, nothing for no
  items, and else the first item that none comes before.  In a
  sequence without a non-number it does not depend on the
  order of the items whether the call fails.
-/
theorem extremes_before_nan
    {name : String}
    {wanted : Ordering}
    (hName : (name, wanted) ∈
      [("min", Ordering.lt), ("max", .gt)])
    (s : Sequence) :
    let inFront := s.takeWhile (fun a => !a.isNaN)
    let mixed := ∃ a ∈ inFront, ∃ b ∈ inFront,
      a.comparable b = false
    let fails (t : Sequence) := ∃ e,
      standard.call name [t] = .error e ∧ e.code = "FORG0006"
    (fails s ↔ mixed) ∧
      (¬mixed →
        (∀ a, s.find? Item.isNaN = some a →
          standard.call name [s] = .ok [a]) ∧
        (s = [] → standard.call name [s] = .ok []) ∧
        (s.find? Item.isNaN = none → s ≠ [] →
          ∃ a, s.find? (fun a =>
              s.all (fun b => b.sortCompare a != wanted)) =
                some a ∧
            standard.call name [s] = .ok [a])) ∧
      (s.find? Item.isNaN = none → ∀ t, s.Perm t →
        (fails s ↔ fails t)) := by
  intro inFront mixed fails
  refine ⟨call_fails_iff hName s, fun hMixed => ?_,
    fun hFind t hPerm => ?_⟩
  · rcases call_of_alike hName hMixed with ⟨hNaN, hNumbers⟩
    refine ⟨hNaN, ?_, hNumbers⟩
    rintro rfl
    exact call_nil hName
  · have hOther : t.find? Item.isNaN = none := by
      rw [List.find?_eq_none] at hFind ⊢
      exact fun a hA => hFind a (hPerm.mem_iff.mpr hA)
    refine (call_fails_iff hName s).trans
      (Iff.trans ?_ (call_fails_iff hName t).symm)
    rw [numbers_of_find?_eq_none hFind,
      numbers_of_find?_eq_none hOther]
    exact mixed_perm hPerm

/-
  The first of two equal maxima is given, a string after the
  first non-number goes unnoticed, and one in front does not.
-/
theorem extremes_before_nan_mixedItems :
    let one : Double := .ofInt 1
    ("max", Ordering.gt) ∈
        [("min", Ordering.lt), ("max", .gt)] ∧
      standard.call "max" [[.int 0, .dbl one, .int 1]] =
        .ok [.dbl one] ∧
      standard.call "max" [[.int 0, .dbl .nan, .str "a"]] =
        .ok [.dbl .nan] ∧
      ∃ e, standard.call "max" [[.int 0, .str "a"]] =
        .error e ∧ e.code = "FORG0006" := by
  intro one
  have hName : ("max", Ordering.gt) ∈
      [("min", Ordering.lt), ("max", .gt)] :=
    .tail _ (.head _)
  rcases extremes_before_nan hName
      [.int 0, .dbl one, .int 1] with ⟨-, hEqual, -⟩
  rcases extremes_before_nan hName
      [.int 0, .dbl .nan, .str "a"] with ⟨-, hAfter, -⟩
  rcases extremes_before_nan hName
      [.int 0, .str "a"] with ⟨hBefore, -, -⟩
  refine ⟨hName, ?_, (hAfter (by decide +kernel)).1 _
    (by decide +kernel), hBefore.mpr (by decide +kernel)⟩
  rcases (hEqual (by decide +kernel)).2.2 (by decide +kernel)
      (by decide) with ⟨a, hFind, hCall⟩
  have hFirst : [Item.int 0, .dbl one, .int 1].find? (fun a =>
      [Item.int 0, .dbl one, .int 1].all (fun b =>
        b.sortCompare a != .gt)) = some (.dbl one) := by
    decide +kernel
  rw [hCall, ← Option.some.inj (hFind.symm.trans hFirst)]

/-
  A string and an integer do not compare, wherever they stand.
  Behind a non-number they are not refused, and so it depends
  on the order of the items whether the call fails.
-/
theorem extremes_order_dependent :
    let s : Sequence := [.str "a", .int 1, .dbl .nan]
    let t : Sequence := [.dbl .nan, .str "a", .int 1]
    s.Perm t ∧
      (∃ a ∈ t, ∃ b ∈ t, a.comparable b = false) ∧
      standard.call "min" [s] =
        .error (.mixedExtremum "min" .integer .string) ∧
      standard.call "min" [t] = .ok [.dbl .nan] := by
  intro s t
  have hName : ("min", Ordering.lt) ∈
      [("min", Ordering.lt), ("max", .gt)] :=
    .head _
  refine ⟨by decide, by decide, ?_, ?_⟩
  · rw [call_extreme hName]
    rfl
  · rw [call_extreme hName]
    rfl

end Library

end Flwor
