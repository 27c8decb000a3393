import Flwor.Proofs.Functions.Calls
import Flwor.Proofs.Items.Keys

/-
  Distinct items are the first ones of their classes.

  A sequence is gone through once, and an item is kept unless
  its code was seen before; what is no number has no code and
  is kept once.  Since codes are the same exactly for equal
  items, what is kept is the first item of each class.

  Key definitions include:
    * `Library.unseenItems`

  Key theorems include:
    * `exists_mem_eraseDupsBy`
    * `Library.unseenItems_eq`
    * `Library.distinctItems_eq`
    * `Library.distinct_keeps_firsts`
-/

------------------------------------------------------------
-- First Elements of Classes
------------------------------------------------------------

namespace Flwor

variable {α : Type}
variable {r : α → α → Bool}
variable {as : List α}

/- What is kept stays in its order. -/
theorem eraseDupsBy_sublist
    (r : α → α → Bool)
    (as : List α) :
    (as.eraseDupsBy r).Sublist as := by
  induction as using eraseDupsBy_induct (r := r) with
  | nil => exact .slnil
  | cons a rest ih =>
      rw [List.eraseDupsBy_cons]
      exact (ih.trans List.filter_sublist).cons_cons a

/- Nothing is dropped where no two elements are related. -/
theorem eraseDupsBy_of_pairwise
    (hApart : as.Pairwise (fun a b => r b a = false)) :
    as.eraseDupsBy r = as := by
  induction as with
  | nil => rfl
  | cons a rest ih =>
      rw [List.pairwise_cons] at hApart
      have hAll : rest.filter (fun b => r b a = false) = rest :=
        List.filter_eq_self.mpr (fun b hB =>
          decide_eq_true (hApart.1 b hB))
      rw [List.eraseDupsBy_cons, hAll, ih hApart.2]

/- Every element is related to one that is kept. -/
theorem exists_mem_eraseDupsBy
    (hEquivalence : Equivalence (fun a b => r a b = true))
    {a : α}
    (hMem : a ∈ as) :
    ∃ b ∈ as.eraseDupsBy r, r b a = true := by
  have hClass :=
    (perm_flatMap_filter hEquivalence as).mem_iff.mpr hMem
  rcases List.mem_flatMap.mp hClass with ⟨b, hB, hRelated⟩
  exact ⟨b, hB, (List.mem_filter.mp hRelated).2⟩

end Flwor

------------------------------------------------------------
-- Items That Were Seen
------------------------------------------------------------

namespace Flwor

namespace Item

theorem equivalence_groupsWith :
    Equivalence (fun a b : Item => a.groupsWith b = true) := by
  simp only [groupsWith_iff]
  exact ⟨fun _ => rfl, Eq.symm, Eq.trans⟩

/- What groups together shares a code, or has none. -/
theorem code?_eq_iff
    {a b : Item}
    (hA : a.fits = true)
    (hB : b.fits = true) :
    a.code? = b.code? ↔ a.groupsWith b = true := by
  have hNone (c : Item) : c.code? = none ↔ c.key? = none :=
    (code?_eq_none_iff c).trans (key?_eq_none_iff c).symm
  rw [groupsWith_iff]
  cases hCode : a.code? with
  | none =>
      rw [(hNone a).mp hCode, eq_comm, hNone, eq_comm]
  | some k =>
      cases hOther : b.code? with
      | none =>
          have hKey := mt (hNone a).mpr (by simp [hCode])
          simp [(hNone b).mp hOther, hKey]
      | some l =>
          rcases exists_encodes hA hCode with
            ⟨key, hKey, hHere⟩
          rcases exists_encodes hB hOther with
            ⟨key', hKey', hThere⟩
          rw [hKey, hKey', Option.some.injEq,
            Option.some.injEq]
          exact hHere.eq_iff hThere

end Item

namespace Library

/-
  The items that were not seen before: those with a new code,
  and the first one that is no number.
-/
def unseenItems
    (seen : List Item.Code)
    (seenNaN : Bool) : Sequence → Sequence
  | [] => []
  | a :: rest =>
      match a.code? with
      | some k =>
          if k ∈ seen then unseenItems seen seenNaN rest
          else a :: unseenItems (k :: seen) seenNaN rest
      | none =>
          if seenNaN then unseenItems seen true rest
          else a :: unseenItems seen true rest

/- What was seen is the codes of what was kept. -/
structure Remembers
    (kept : Sequence)
    (seen : List Item.Code)
    (seenNaN : Bool) : Prop where
  fits : ∀ a ∈ kept, a.fits = true
  code : ∀ k, k ∈ seen ↔ ∃ b ∈ kept, b.code? = some k
  nan : seenNaN = true ↔ ∃ b ∈ kept, b.code? = none

namespace Remembers

variable {kept : Sequence}
variable {seen : List Item.Code}
variable {seenNaN : Bool}
variable {a : Item}

theorem empty : Remembers [] [] false where
  fits := nofun
  code := by simp
  nan := by simp

/- A code that is kept is remembered. -/
theorem keep_code
    (h : Remembers kept seen seenNaN)
    (hFits : a.fits = true)
    {k : Item.Code}
    (hCode : a.code? = some k) :
    Remembers (a :: kept) (k :: seen) seenNaN where
  fits := List.forall_mem_cons.mpr ⟨hFits, h.fits⟩
  code l := by simp [h.code, hCode, eq_comm]
  nan := by simp [h.nan, hCode]

/- That something was no number is remembered. -/
theorem keep_nan
    (h : Remembers kept seen seenNaN)
    (hFits : a.fits = true)
    (hCode : a.code? = none) :
    Remembers (a :: kept) seen true where
  fits := List.forall_mem_cons.mpr ⟨hFits, h.fits⟩
  code l := by simp [h.code, hCode]
  nan := by simp [hCode]

/- What was seen groups together with something kept. -/
theorem any_iff
    (h : Remembers kept seen seenNaN)
    (hFits : a.fits = true) :
    (kept.any (fun b => a.groupsWith b)) = true ↔
      ∃ b ∈ kept, b.code? = a.code? := by
  rw [List.any_eq_true]
  refine exists_congr (fun b => and_congr_right (fun hB => ?_))
  rw [← Item.code?_eq_iff hFits (h.fits b hB), eq_comm]

end Remembers

/-
  The items that were not seen are the first of the classes
  that nothing kept belongs to.
-/
theorem unseenItems_eq
    {kept : Sequence}
    {seen : List Item.Code}
    {seenNaN : Bool}
    (hRemembers : Remembers kept seen seenNaN)
    {s : Sequence}
    (hFits : ∀ a ∈ s, a.fits = true) :
    unseenItems seen seenNaN s =
      (s.filter (fun a =>
        !kept.any (fun b => a.groupsWith b))).eraseDupsBy
          Item.groupsWith := by
  induction s generalizing kept seen seenNaN with
  | nil => rfl
  | cons a rest ih =>
      rw [List.forall_mem_cons] at hFits
      have hSeen := hRemembers.any_iff hFits.1
      -- A kept item takes its whole class out of the rest.
      have hKeep :
          (a :: rest.filter (fun c =>
              !kept.any (fun b => c.groupsWith b))).eraseDupsBy
            Item.groupsWith =
          a :: (rest.filter (fun c =>
              !(a :: kept).any (fun b =>
                c.groupsWith b))).eraseDupsBy
            Item.groupsWith := by
        rw [List.eraseDupsBy_cons, List.filter_filter]
        refine congrArg (fun t => a :: List.eraseDupsBy _ t)
          (List.filter_congr (fun c _ => ?_))
        simp
      rw [unseenItems]
      cases hCode : a.code? with
      | some k =>
          rw [hCode, ← hRemembers.code] at hSeen
          dsimp only
          split
          next hMem =>
            rw [List.filter_cons_of_neg
                (by simp [hSeen.mpr hMem])]
            exact ih hRemembers hFits.2
          next hMem =>
            rw [List.filter_cons_of_pos
                (by simpa using mt hSeen.mp hMem), hKeep]
            exact congrArg _ (ih
              (hRemembers.keep_code hFits.1 hCode) hFits.2)
      | none =>
          rw [hCode, ← hRemembers.nan] at hSeen
          dsimp only
          split
          next hNaN =>
            subst hNaN
            rw [List.filter_cons_of_neg
                (by simp [hSeen.mpr rfl])]
            exact ih hRemembers hFits.2
          next hNaN =>
            rw [List.filter_cons_of_pos
                (by simpa using mt hSeen.mp hNaN), hKeep]
            exact congrArg _ (ih
              (hRemembers.keep_nan hFits.1 hCode) hFits.2)

/- Looking keys up keeps the first item of each class. -/
theorem distinctItems_eq
    (s : Sequence) :
    distinctItems s = s.eraseDupsBy Item.groupsWith := by
  have hRelation : Item.groupsWith = fun b a : Item =>
      b.key? == a.key? :=
    funext (fun b => funext (fun a => by
      rw [Bool.eq_iff_iff, Item.groupsWith_iff, beq_iff_eq]))
  have hKeys : (s.map (fun a => (a.key?, a))).map Prod.fst =
      s.map Item.key? := by
    simp
  rw [distinctItems, Buckets.firsts_eq, hKeys, eraseDups_map,
    ← hRelation, List.filterMap_map, List.map_filterMap]
  refine (List.filterMap_congr (g := some)
    (fun a hA => ?_)).trans List.filterMap_some
  have hFirst := find?_of_mem_eraseDupsBy
    Item.equivalence_groupsWith hA
  rw [hRelation] at hFirst
  rw [Function.comp_apply, List.find?_map, Option.map_map]
  simpa [Function.comp_def, Bool.beq_comm] using hFirst

end Library

end Flwor

------------------------------------------------------------
-- Distinct Items
------------------------------------------------------------

namespace Flwor

namespace Item

/- Items group together if they are equal or no numbers. -/
theorem groupsWith_eq_false_iff
    (a b : Item) :
    a.groupsWith b = false ↔
      a.compare .eq b ≠ .ok (some true) ∧
        ¬(a.isNaN = true ∧ b.isNaN = true) := by
  have hSatisfies : a.satisfies .eq b = true ↔
      a.compare .eq b = .ok (some true) := by
    constructor
    · exact fun hHolds =>
        ((satisfies_eq_true_iff .eq).mp hHolds).2
    · intro hTrue
      rw [satisfies, hTrue]
  rw [← Bool.not_eq_true, groupsWith, Bool.or_eq_true,
    Bool.and_eq_true, hSatisfies, not_or]

end Item

namespace Library

variable {s t : Sequence}

/- Both names call the same function. -/
theorem call_distinct
    (s : Sequence) :
    standard.call "distinct-values" [s] =
        .ok (distinctItems s) ∧
      standard.call "distinct" [s] =
        .ok (distinctItems s) :=
  ⟨call_standard (List.mem_of_getElem? (i := 8) rfl) rfl rfl,
    call_standard (List.mem_of_getElem? (i := 9) rfl) rfl rfl⟩

/- Items that are apart hold at most one non-number. -/
theorem length_filter_isNaN_le_one
    (hApart : t.Pairwise (fun a b =>
      b.groupsWith a = false)) :
    (t.filter Item.isNaN).length ≤ 1 := by
  have hFiltered := hApart.filter Item.isNaN
  have hNaN : ∀ a ∈ t.filter Item.isNaN, a.isNaN = true :=
    fun a hA => (List.mem_filter.mp hA).2
  match hKept : t.filter Item.isNaN with
  | [] => exact Nat.zero_le 1
  | [a] => exact le_rfl
  | a :: b :: rest =>
      rw [hKept] at hFiltered hNaN
      have hPair := (List.pairwise_cons.mp hFiltered).1 b
        List.mem_cons_self
      rw [Item.groupsWith_eq_false_iff] at hPair
      exact absurd ⟨hNaN b (by simp), hNaN a (by simp)⟩
        hPair.2

/-
  The distinct items of a sequence are part of it, no two of
  them are equal and at most one is no number.  Every item is
  equal to one of them, or is matched by the one that is no
  number, and each is the first of the items that it stands
  for.  They are their own distinct items.  If all integers
  fit in 64 bits, then they are what looking codes up keeps.
-/
theorem distinct_keeps_firsts
    (s : Sequence) :
    ∃ t : Sequence,
      standard.call "distinct-values" [s] = .ok t ∧
      standard.call "distinct" [s] = .ok t ∧
      t.Sublist s ∧
      t.Pairwise (fun a b =>
        a.compare .eq b ≠ .ok (some true) ∧
          b.compare .eq a ≠ .ok (some true)) ∧
      (t.filter Item.isNaN).length ≤ 1 ∧
      (∀ a ∈ s, ∃ b ∈ t,
        b.compare .eq a = .ok (some true) ∨
          b.isNaN = true ∧ a.isNaN = true) ∧
      (∀ b ∈ t, ∃ before after,
        s = before ++ b :: after ∧
          ∀ a ∈ before,
            b.compare .eq a ≠ .ok (some true) ∧
              ¬(b.isNaN = true ∧ a.isNaN = true)) ∧
      standard.call "distinct-values" [t] = .ok t ∧
      standard.call "distinct" [t] = .ok t ∧
      ((∀ a ∈ s, a.fits = true) →
        unseenItems [] false s = t) := by
  have hEquivalence := Item.equivalence_groupsWith
  have hApart := pairwise_eraseDupsBy Item.groupsWith s
  have hFixed := eraseDupsBy_of_pairwise hApart
  rw [← distinctItems_eq, ← distinctItems_eq] at hFixed
  rw [← distinctItems_eq] at hApart
  have hAgain := call_distinct (distinctItems s)
  rw [hFixed] at hAgain
  refine ⟨distinctItems s, (call_distinct s).1,
    (call_distinct s).2, ?part, ?unequal,
    length_filter_isNaN_le_one hApart, ?covered, ?first,
    hAgain.1, hAgain.2, ?seen⟩
  case part =>
    rw [distinctItems_eq]
    exact eraseDupsBy_sublist _ s
  case unequal =>
    refine hApart.imp (fun {a b} hHere => ?_)
    have hThere : a.groupsWith b = false :=
      Bool.eq_false_iff.mpr (fun h =>
        Bool.eq_false_iff.mp hHere (hEquivalence.symm h))
    rw [Item.groupsWith_eq_false_iff] at hHere hThere
    exact ⟨hThere.1, hHere.1⟩
  case covered =>
    intro a hA
    rcases exists_mem_eraseDupsBy hEquivalence hA with
      ⟨b, hB, hRelated⟩
    rw [← distinctItems_eq] at hB
    refine ⟨b, hB, ?_⟩
    by_contra hNot
    rw [not_or, ← Item.groupsWith_eq_false_iff, hRelated]
      at hNot
    cases hNot
  case first =>
    intro b hB
    rw [distinctItems_eq] at hB
    have hFind := find?_of_mem_eraseDupsBy hEquivalence hB
    rcases List.find?_eq_some_iff_append.mp hFind with
      ⟨-, before, after, hSplit, hBefore⟩
    refine ⟨before, after, hSplit, fun a hA => ?_⟩
    have hOther := hBefore a hA
    rw [Bool.not_eq_true'] at hOther
    exact (Item.groupsWith_eq_false_iff b a).mp hOther
  case seen =>
    intro hFits
    rw [unseenItems_eq .empty hFits, distinctItems_eq]
    simp

/-
  An integer stands for an equal double after it, the zero
  with a minus sign for the integer zero, and the first
  non-number for the other.
-/
theorem distinct_keeps_firsts_mixedItems :
    let one : Double := .ofInt 1
    let s : Sequence :=
      [.int 1, .dbl one, .str "1", .dbl .nan, .int 1,
        .dbl (.zero true), .int 0, .dbl .nan, .bool true]
    (∀ a ∈ s, a.fits = true) ∧
      standard.call "distinct" [s] =
        .ok [.int 1, .str "1", .dbl .nan, .dbl (.zero true),
          .bool true] := by
  intro one s
  have hFits : ∀ a ∈ s, a.fits = true := by decide
  rcases distinct_keeps_firsts s with
    ⟨t, -, hCall, -, -, -, -, -, -, -, hSeen⟩
  have hItems : unseenItems [] false s =
      [.int 1, .str "1", .dbl .nan, .dbl (.zero true),
        .bool true] := by
    decide +kernel
  rw [hCall, ← hSeen hFits, hItems]
  exact ⟨hFits, rfl⟩

end Library

end Flwor
