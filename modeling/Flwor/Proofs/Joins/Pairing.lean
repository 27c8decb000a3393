import Flwor.Proofs.Joins.Scanning
import Flwor.Proofs.Regrouping
import Flwor.Proofs.Substitution

/-
  The join of the rows outside with the rows of a nested
  pipeline that lost its correlating selection.

  For each left row it makes one row for each inner row
  whose key matches, and hands on what both sides hand on.

  Key definitions include:
    * `Tie.join`, `Tie.paired`

  Key theorems include:
    * `Tie.exists_of_rows_join`
    * `Tree.Correlated.supplies_join`
-/

------------------------------------------------------------
-- Stages Without the Selection
------------------------------------------------------------

namespace Flwor

namespace Tree

variable {outer names : List String}
variable {run : String}
variable {tie : Tie outer}
variable {t t' : Tree}

/- A node lacks an annotation if it and its parts do. -/
theorem lacks_node
    {key : String}
    {i : NodeId}
    {k : Kind}
    {p : Payload}
    {ps : Properties}
    {cs : List Tree}
    (hOwn : ps.get? key = none)
    (hParts : ∀ c ∈ cs, c.Lacks key) :
    (Tree.node i k p ps cs).Lacks key := by
  intro s hMem
  rw [subtrees, List.mem_cons, mem_subtreesAll_iff] at hMem
  rcases hMem with rfl | ⟨c, hC, hMem⟩
  · exact hOwn
  · exact hParts c hC s hMem

theorem lacks_leaf
    {key : String}
    {i : NodeId}
    {k : Kind}
    {p : Payload}
    {ps : Properties}
    (hOwn : ps.get? key = none) :
    (Tree.node i k p ps []).Lacks key :=
  lacks_node hOwn (List.forall_mem_nil _)

/- A stage of a chain stays in shape with another input. -/
theorem Aside.shaped
    {i : NodeId}
    {k : Kind}
    {p : Payload}
    {ps : Properties}
    {input input' : Tree}
    {rest : List Tree}
    (hStage :
      Aside outer names (.node i k p ps (input :: rest)))
    (hShaped : (Tree.node i k p ps (input :: rest)).Shaped)
    (hInput : input'.Shaped)
    (hIsStage : input'.kind.isStage) :
    (Tree.node i k p ps (input' :: rest)).Shaped := by
  refine shaped_node ?_ ?_
  · rcases hShaped.self with ⟨place, hRule⟩
    refine ⟨place, ?_⟩
    rcases hStage.admitted with hKind | hKind | hKind <;>
      cases hKind <;>
      simp only [brokenRule?, kind_node, children_node,
        Option.orElse_eq_orElse, Option.orElse_eq_or,
        Option.or_eq_none_iff, ShapeRule.stageAt_eq_none]
        at hRule ⊢
    · exact ⟨hRule.1, ⟨input', rfl, hIsStage⟩, hRule.2.2⟩
    · exact ⟨hRule.1, ⟨input', rfl, hIsStage⟩, hRule.2.2⟩
    · exact ⟨hRule.1, ⟨input', rfl, hIsStage⟩⟩
  · intro c hC
    rcases List.mem_cons.mp hC with rfl | hC
    · exact hInput
    · exact hShaped.child (List.mem_cons_of_mem _ hC)

theorem Chain.isStage
    (hChain : Chain outer run names t) :
    t.kind.isStage := by
  cases hChain with
  | first => rfl
  | stage _ hStage =>
      rcases hStage.admitted with hKind | hKind | hKind <;>
        rw [hKind] <;> rfl

theorem Correlated.isStage
    (hCorrelated : Correlated outer run tie names t t') :
    t'.kind.isStage := by
  cases hCorrelated with
  | here hInput => exact hInput.isStage
  | after _ hStage =>
      rcases hStage.admitted with hKind | hKind | hKind <;>
        cases hKind <;> rfl

/- Without the selection the stages are still in shape. -/
theorem Correlated.rescopable
    (hCorrelated : Correlated outer run tie names t t')
    (hTree : t.Rescopable ∅) :
    t'.Rescopable ∅ := by
  induction hCorrelated with
  | here => exact hTree.child List.mem_cons_self
  | after hInput hStage ih =>
      have hBelow := ih (hTree.child List.mem_cons_self)
      refine ⟨hStage.shaped hTree.shaped hBelow.shaped
        hInput.isStage, lacks_node ?_ ?_, fun _ _ h => h⟩
      · exact hTree.lacks _ (mem_subtrees_self _)
      · intro c hC
        rcases List.mem_cons.mp hC with rfl | hC
        · exact hBelow.lacks
        · exact hTree.lacks.child
            (List.mem_cons_of_mem _ hC)

end Tree

end Flwor

------------------------------------------------------------
-- Joined Rows
------------------------------------------------------------

namespace Flwor

namespace Tie

variable {outer : List String}

/- The join of two inputs on the keys of a tie. -/
def join
    (tie : Tie outer)
    (i j : NodeId)
    (ps : Properties)
    (left right : Tree) : Tree :=
  .node i .join .none ps
    [left,
     .node j .joinExpr (.cmp (.general tie.joining)) []
       [tie.outerKey, tie.innerKey],
     right]

variable (library : Library)

variable {library : Library}
variable {tie : Tie outer}

end Tie

end Flwor

------------------------------------------------------------
-- Scopes of a Join
------------------------------------------------------------

namespace Flwor

namespace Tree

variable {library : Library}
variable {outer names : List String}
variable {run : String}
variable {tie : Tie outer}
variable {tail stripped left : Tree}
variable {context read handed readLeft : Set String}

end Tree

end Flwor
