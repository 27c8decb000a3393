/-
  This file defines finite sets of variable names as sorted
  lists without repetition.

  Key definitions include:
    * `Names.sorted`
    * `Names.disjoint`
-/

------------------------------------------------------------
-- Sorted Name Sets
------------------------------------------------------------

namespace Flwor

namespace Names

/- The names of a list, each once, sorted. -/
def sorted
    (names : List String) : List String :=
  (names.mergeSort (fun a b => a ≤ b)).eraseReps

/- Whether two lists have no name in common. -/
def disjoint
    (a b : List String) : Bool :=
  a.all (fun n => !b.contains n)

end Names

end Flwor
