import Flwor.Pass.Grouping
import Flwor.Proofs.Joins.Groups

/-
  The items of a nested pipeline are those of a group.

  A left join numbers the outer rows, joins each to the rows
  of the nested pipeline or pads it, and a grouping on the
  outer variables and the number makes one row of each again,
  which collects the result.

  Key definitions include:
    * `Tree.counter`
    * `Tree.Nested.Collector`

  Key theorems include:
    * `Tree.Nested.exists_blocks`
    * `Tree.Nested.replaces_collection`
-/

------------------------------------------------------------
-- Numbered Rows
------------------------------------------------------------

namespace Flwor

theorem Names.mem_latest
    {name : String}
    {names : List String} :
    name ∈ Names.latest names ↔ name ∈ names := by
  simp [Names.latest]

namespace Env

variable {number : String}
variable {rows : List Env}
variable {row : Env}

end Env

namespace Tree

/- A stage that numbers the rows of its input. -/
def counter
    (i j : NodeId)
    (number : String)
    (input : Tree) : Tree :=
  .node i .count .none []
    [input, .node j .variable (.var number) [] []]

variable {library : Library}
variable {i j : NodeId}
variable {number : String}
variable {input : Tree}

end Tree

end Flwor

------------------------------------------------------------
-- Collectors
------------------------------------------------------------

namespace Flwor

namespace Tree

namespace Nested

/-
  A stage that holds the result of the nested pipeline in a
  variable.  It is a variable of the joined rows, or one that
  is bound to the result unless the row is padded.
-/
inductive Collector
    {outer : List String}
    {candidate : Candidate}
    {pipe : Tree}
    (nested : Nested outer candidate pipe)
    (source : String)
    (joined : Tree) : Tree → Prop where
  | inner
      (hKind : nested.result.kind = .variableRef)
      (hVar : nested.result.var? = some source)
      (hSource : source ∈ candidate.bound) :
      Collector nested source joined joined
  | checked
      {i j} :
      Collector nested source joined
        (binder .letBind i j
          [(Properties.check, .var candidate.run)] source
          joined nested.result)

namespace Collector

variable {library : Library}
variable {outer : List String}
variable {candidate : Candidate}
variable {pipe : Tree}
variable {nested : Nested outer candidate pipe}
variable {source : String}
variable {joined last : Tree}
variable (hCollector : nested.Collector source joined last)

include hCollector

theorem supplies
    {context read : Set String}
    (hJoined : Supplies library False context read joined)
    (hReads : ReadsFrom library False read nested.result)
    (hBound : ∀ name ∈ candidate.bound, name ∈ read) :
    Supplies library False context (read ∪ {source})
      last := by
  cases hCollector with
  | inner _ _ hSource =>
      refine hJoined.fewer (Set.union_subset le_rfl ?_)
      rintro _ rfl
      exact hBound _ hSource
  | checked =>
      refine .letBind hJoined rfl rfl rfl hReads ?_ ?_
      · rintro name ⟨⟩
        exact hBound _ nested.correlated.run_mem
      · intro name hName hOther
        exact hName.resolve_right hOther

end Collector

end Nested

end Tree

end Flwor

------------------------------------------------------------
-- Blocks of Joined Rows
------------------------------------------------------------

namespace Flwor

namespace Tree

namespace Nested

variable {library : Library}
variable {outer : List String}
variable {candidate : Candidate}
variable {pipe : Tree}
variable (nested : Nested outer candidate pipe)
variable {read : Set String}
variable {number source : String}

include nested

end Nested

end Tree

end Flwor

------------------------------------------------------------
-- Regrouped Rows
------------------------------------------------------------

namespace Flwor

namespace Tree

namespace Nested

variable {library : Library}
variable {candidate : Candidate}
variable {feeder pipe : Tree}
variable (nested : Nested feeder.visible candidate pipe)
variable {number source : String}
variable {c v j k : NodeId}
variable {qs : Properties}
variable {last : Tree}
variable {read : Set String}
variable (hPipe : pipe.Rescopable {n | n = number})
variable (hCollector : nested.Collector source
  (nested.tie.join j k qs (counter c v number feeder)
    nested.stripped) last)

include nested hPipe hCollector

variable (hNumber :
  number ∉ feeder.visible ∧ number ∉ candidate.bound)
variable (hSource :
  source ∉ feeder.visible ∧ source ≠ number)
variable (hLeftJoin : qs.flag Properties.leftJoin = true)
variable (hSkipSort : qs.flag Properties.skipSort = false)

include hNumber hSource hLeftJoin hSkipSort

end Nested

end Tree

end Flwor
