import Flwor.Liveness.Analysis
import Flwor.Proofs.Redaction.Rewriting

/-
  Live bindings behind the veil.

  The analysis of live bindings does the same on a tree and
  on the tree behind the veil, so that both get the same
  annotations.

  Key theorems include:
    * `Analysis.expr_veil`, `Analysis.input_veil`
    * `Plan.project_veil`
-/

------------------------------------------------------------
-- The Analysis
------------------------------------------------------------

namespace Flwor

open Flwor.Tree (veilAll)

namespace Analysis

theorem declared_veilAll
    (nodes : List Tree) :
    declared (veilAll nodes) = declared nodes := by
  rw [Tree.veilAll_eq]
  simp [declared, List.filter_map, List.filterMap_map,
    Function.comp_def]

mutual

theorem expr_veil :
    ∀ t : Tree, expr t.veil = expr t
  | .node i k p ps cs => by
      have hCopies :
          ((veilAll cs).filter (fun c =>
            c.kind = .copyBinding)).length =
          (cs.filter (fun c =>
            c.kind = .copyBinding)).length := by
        rw [Tree.veilAll_eq, List.filter_map,
          List.length_map]
        simp [Function.comp_def]
      rw [Tree.veil]
      cases k <;>
        simp only [expr, Payload.var?_veil, hCopies,
          exprs_veilAll cs, exprsFrom_veilAll _ cs,
          path_veilAll cs, filter_veilAll cs,
          quantified_veilAll cs, cases_veilAll cs,
          copies_veilAll cs, pipe_veilAll cs]

theorem exprs_veilAll :
    ∀ ts : List Tree, exprs (veilAll ts) = exprs ts
  | [] => rfl
  | t :: ts => by
      rw [veilAll, exprs, expr_veil t, exprs_veilAll ts,
        exprs]

theorem exprsFrom_veilAll :
    ∀ (skip : Nat) (ts : List Tree),
      exprsFrom skip (veilAll ts) = exprsFrom skip ts
  | 0, [] => rfl
  | _ + 1, [] => rfl
  | 0, t :: ts => by
      rw [veilAll, exprsFrom, expr_veil t,
        exprsFrom_veilAll 0 ts, exprsFrom]
  | skip + 1, t :: ts => by
      rw [veilAll, exprsFrom, exprsFrom_veilAll skip ts,
        exprsFrom]

theorem exprAt_veilAll :
    ∀ (skip : Nat) (ts : List Tree),
      exprAt skip (veilAll ts) = exprAt skip ts
  | 0, [] => rfl
  | _ + 1, [] => rfl
  | 0, t :: ts => by
      rw [veilAll, exprAt, expr_veil t, exprAt]
  | skip + 1, t :: ts => by
      rw [veilAll, exprAt, exprAt_veilAll skip ts, exprAt]

theorem lastExpr_veilAll :
    ∀ ts : List Tree, lastExpr (veilAll ts) = lastExpr ts
  | [] => rfl
  | [t] => by
      rw [veilAll, veilAll, lastExpr, expr_veil t, lastExpr]
  | t :: u :: ts => by
      have hRest := lastExpr_veilAll (u :: ts)
      rw [veilAll] at hRest ⊢
      rw [veilAll, lastExpr, hRest, lastExpr]

theorem path_veilAll :
    ∀ ts : List Tree, path (veilAll ts) = path ts
  | [] => rfl
  | base :: steps => by
      rw [veilAll, path, expr_veil base,
        pathSteps_veilAll steps, path]

theorem pathSteps_veilAll :
    ∀ ts : List Tree, pathSteps (veilAll ts) = pathSteps ts
  | [] => rfl
  | .node i k p ps parts :: rest => by
      rw [veilAll, Tree.veil, pathSteps,
        exprsFrom_veilAll 2 parts, pathSteps_veilAll rest,
        pathSteps]

theorem filter_veilAll :
    ∀ ts : List Tree, filter (veilAll ts) = filter ts
  | [] => rfl
  | base :: predicates => by
      rw [veilAll, filter, expr_veil base,
        exprs_veilAll predicates, filter]

theorem quantified_veilAll :
    ∀ ts : List Tree, quantified (veilAll ts) = quantified ts
  | [] => rfl
  | [condition] => by
      rw [veilAll, veilAll, quantified, expr_veil condition,
        quantified]
  | [declaration, condition] => by
      rw [veilAll, veilAll, veilAll, quantified,
        expr_veil condition, quantified]
  | declaration :: source :: t :: rest => by
      have hRest := quantified_veilAll (t :: rest)
      rw [veilAll] at hRest
      rw [veilAll, veilAll, veilAll, quantified,
        expr_veil source, hRest, Tree.var?_veil, quantified]

theorem cases_veilAll :
    ∀ ts : List Tree, cases (veilAll ts) = cases ts
  | [] => rfl
  | operand :: rest => by
      rw [veilAll, cases, expr_veil operand,
        caseBodies_veilAll rest, cases]

theorem caseBodies_veilAll :
    ∀ ts : List Tree, caseBodies (veilAll ts) = caseBodies ts
  | [] => rfl
  | .node i k p ps parts :: rest => by
      rw [veilAll, Tree.veil, caseBodies,
        declared_veilAll parts, lastExpr_veilAll parts,
        caseBodies_veilAll rest, caseBodies]

theorem copies_veilAll :
    ∀ ts : List Tree, copies (veilAll ts) = copies ts
  | [] => rfl
  | .node i k p ps parts :: rest => by
      have hHead :
          (veilAll parts).head?.bind Tree.var? =
            parts.head?.bind Tree.var? := by
        cases parts with
        | nil => rfl
        | cons t ts => exact Tree.var?_veil t
      rw [veilAll, Tree.veil, copies,
        exprAt_veilAll 1 parts, hHead,
        copies_veilAll rest, copies]

theorem pipe_veilAll :
    ∀ ts : List Tree, pipe (veilAll ts) = pipe ts
  | [] => rfl
  | .node i k p ps [] :: ts => by
      rw [veilAll, Tree.veil, veilAll]
      cases k <;> simp only [pipe]
  | .node i k p ps (tail :: rest) :: ts => by
      rw [veilAll, Tree.veil, veilAll]
      cases k <;>
        simp only [pipe, input_veil tail,
          returned_veilAll [] rest]

theorem returned_veilAll :
    ∀ (wanted : List String) (ts : List Tree),
      returned wanted (veilAll ts) = returned wanted ts
  | wanted, [] => rfl
  | wanted, result :: ts => by
      rw [veilAll, returned, expr_veil result, returned]

theorem sortKeysTail_veilAll :
    ∀ ts : List Tree,
      sortKeysTail (veilAll ts) = sortKeysTail ts
  | [] => rfl
  | t :: specs => by
      rw [veilAll, sortKeysTail, sortKeys_veilAll specs,
        sortKeysTail]

theorem sortKeys_veilAll :
    ∀ ts : List Tree, sortKeys (veilAll ts) = sortKeys ts
  | [] => rfl
  | .node i k p ps parts :: rest => by
      rw [veilAll, Tree.veil, sortKeys,
        exprAt_veilAll 0 parts, sortKeys_veilAll rest,
        sortKeys]

theorem join_veilAll :
    ∀ (id : NodeId) (next : Analysis Unit)
      (ts : List Tree),
      join id next (veilAll ts) = join id next ts
  | id, next, [] => rfl
  | id, next, [_] => by simp only [veilAll, join]
  | id, next, [_, .node _ _ _ _ _] => by
      simp only [veilAll, Tree.veil, join]
  | id, next, _ :: .node _ _ _ _ [] :: _ :: _ => by
      simp only [veilAll, Tree.veil, join]
  | id, next, _ :: .node _ _ _ _ [_] :: _ :: _ => by
      simp only [veilAll, Tree.veil, join]
  | id, next,
      left :: .node i k p ps (leftKey :: rightKey :: keys)
        :: right :: rest => by
      have hRest :
          (veilAll rest).isEmpty = rest.isEmpty := by
        cases rest <;> rfl
      simp only [veilAll, Tree.veil, join, expr_veil leftKey,
        expr_veil rightKey, input_veil left,
        input_veil right, hRest]

theorem input_veil :
    ∀ (t : Tree) (wanted : List String)
      (next : Analysis Unit),
      input t.veil wanted next = input t wanted next
  | .node i k p ps cs, wanted, next => by
      have hKeys := Tree.groupKeys_veil (.node i k p ps cs)
      have hAggregates :=
        Tree.groupAggregates_veil (.node i k p ps cs)
      have hBound := Tree.bound_veil (.node i k p ps cs)
      have hBinding := Tree.binding?_veil (.node i k p ps cs)
      rw [Tree.veil] at hKeys hAggregates
      rw [Tree.veil] at hBound hBinding
      rw [Tree.veil, input.eq_def, input.eq_def]
      simp only [hKeys, hAggregates, hBound, hBinding,
        lastExpr_veilAll cs, exprAt_veilAll _ cs,
        sortKeysTail_veilAll cs, join_veilAll i next cs]
      rcases cs with _ | ⟨source, _ | ⟨result, rest⟩⟩
      · simp only [veilAll]
      · simp only [veilAll, input_veil source]
      · simp only [veilAll, input_veil source,
          expr_veil result]

end

mutual

theorem outermost_veil :
    ∀ t : Tree, outermost t.veil = outermost t
  | .node i k p ps cs => by
      rw [Tree.veil, outermost, pipe_veilAll cs,
        outermostAll_veilAll cs, outermost]

theorem outermostAll_veilAll :
    ∀ ts : List Tree,
      outermostAll (veilAll ts) = outermostAll ts
  | [] => rfl
  | t :: ts => by
      rw [veilAll, outermostAll, outermost_veil t,
        outermostAll_veilAll ts, outermostAll]

end

end Analysis

end Flwor

------------------------------------------------------------
-- Annotations
------------------------------------------------------------

namespace Flwor

namespace Plan

theorem annotate_veil
    (plan : Plan)
    (annotations : List Annotation) :
    plan.veil.annotate annotations =
      (plan.annotate annotations).veil := by
  unfold annotate
  induction annotations generalizing plan with
  | nil => rfl
  | cons a rest ih =>
      rw [List.foldl_cons, List.foldl_cons,
        setProperty_veil, ih]

/- Both plans get the same annotations. -/
theorem project_veil
    (plan : Plan) :
    plan.veil.project =
      (plan.project.1, plan.project.2.veil) := by
  unfold project
  rw [rootTree_veil, Analysis.outermost_veil]
  simp only [annotate_veil]
  rfl

end Plan

end Flwor
