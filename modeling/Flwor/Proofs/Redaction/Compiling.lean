import Flwor.Json.Encode
import Flwor.Proofs.Redaction.Veil
import Flwor.Query

/-
  Queries compiled behind the veil.

  The query of a plan behind the veil is the query of the
  plan, with each constant replaced by the same one.  Their
  explanations agree on what may be shown.

  Key definitions include:
    * `Operator.veil`, `Expr.veil`
    * `Explain.redacted`

  Key theorems include:
    * `Compile.expr_veil`, `Compile.stage_veil`
    * `Operator.redacted_explain_veil`
    * `Query.compileRoot_veil`
-/

------------------------------------------------------------
-- Expressions and Operators
------------------------------------------------------------

namespace Flwor

mutual

/- An expression without the values of its constants. -/
def Expr.veil : Expr → Expr
  | .literal value =>
      .literal (value.map (fun _ => .bool false))
  | .variable slot => .variable slot
  | .concat parts => .concat (Expr.veilAll parts)
  | .range low high => .range low.veil high.veil
  | .arithmetic op l r => .arithmetic op l.veil r.veil
  | .comparison c l r => .comparison c l.veil r.veil
  | .and l r => .and l.veil r.veil
  | .or l r => .or l.veil r.veil
  | .cond c yes no => .cond c.veil yes.veil no.veil
  | .call f args => .call f (Expr.veilAll args)
  | .pipeline tail result => .pipeline tail.veil result.veil

/- Expressions without the values of their constants. -/
def Expr.veilAll : List Expr → List Expr
  | [] => []
  | e :: es => e.veil :: Expr.veilAll es

/- Sort keys without the values of their constants. -/
def SortKey.veilAll : List SortKey → List SortKey
  | [] => []
  | .mk e order :: keys =>
      .mk e.veil order :: SortKey.veilAll keys

/- An optional expression without its constants. -/
def Expr.veilOption : Option Expr → Option Expr
  | none => none
  | some e => some e.veil

/- An operator without the values of its constants. -/
def Operator.veil : Operator → Operator
  | .start => .start
  | .forBind input var position source check =>
      .forBind input.veil var position source.veil check
  | .letBind input var value check =>
      .letBind input.veil var (Expr.veilOption value) check
  | .select input predicate =>
      .select input.veil predicate.veil
  | .orderBy input keys =>
      .orderBy input.veil (SortKey.veilAll keys)
  | .groupBy input keys aggregates =>
      .groupBy input.veil keys aggregates
  | .count input var => .count input.veil var
  | .project input context keep =>
      .project input.veil context keep
  | .join left right leftKey rightKey comparison leftJoin
      skipSort context rightWidth =>
      .join left.veil right.veil leftKey.veil rightKey.veil
        comparison leftJoin skipSort context rightWidth

end

theorem Expr.length_veilAll
    (es : List Expr) :
    (Expr.veilAll es).length = es.length := by
  induction es with
  | nil => rfl
  | cons e rest ih =>
      rw [Expr.veilAll, List.length_cons, ih,
        List.length_cons]

end Flwor

------------------------------------------------------------
-- Compilation
------------------------------------------------------------

namespace Flwor

open Flwor.Tree (veilAll)

namespace Compile

variable (library : Library)

theorem trim_veil
    (properties : Properties)
    (op : Operator)
    (layout : Layout) :
    trim properties op.veil layout =
      Prod.map Operator.veil id
        (trim properties op layout) := by
  unfold trim
  split
  · rfl
  · dsimp only
    split
    · rfl
    · rfl

mutual

theorem expr_veil :
    ∀ (t : Tree) (layout : Layout),
      expr library t.veil layout =
        Expr.veil <$> expr library t layout
  | .node i k p ps cs, layout => by
      rw [Tree.veil]
      cases k
      case literal =>
        cases p <;> rfl
      case sequenceExpr =>
        simp only [expr, exprs_veilAll cs, bind_map_left,
          map_bind, map_pure, Expr.veil]
      case functionCall =>
        simp only [expr, exprs_veilAll cs, bind_map_left,
          map_bind, map_pure, Expr.veil,
          Payload.label?_veil, Expr.length_veilAll]
      case pipeExpr =>
        simp only [expr, pipeline_veilAll cs, bind_map_left,
          map_bind]
        rfl
      all_goals
        simp only [expr, operand_veilAll _ _ _ _ cs,
          bind_map_left, map_bind, map_pure, Expr.veil,
          Payload.comparison?_veil, Payload.arithmetic?_veil,
          Payload.var?_veil]
      all_goals rfl

theorem exprs_veilAll :
    ∀ (ts : List Tree) (layout : Layout),
      exprs library (veilAll ts) layout =
        Expr.veilAll <$> exprs library ts layout
  | [], layout => rfl
  | t :: ts, layout => by
      simp only [veilAll, exprs, expr_veil t,
        exprs_veilAll ts, bind_map_left, map_bind, map_pure,
        Expr.veilAll]

theorem operand_veilAll :
    ∀ (kind : Kind) (node : NodeId) (index skip : Nat)
      (ts : List Tree) (layout : Layout),
      operand library kind node index skip (veilAll ts)
          layout =
        Expr.veil <$>
          operand library kind node index skip ts layout
  | kind, node, index, 0, [], layout => rfl
  | kind, node, index, _ + 1, [], layout => rfl
  | kind, node, index, 0, t :: ts, layout => by
      rw [veilAll, operand, expr_veil t, operand]
  | kind, node, index, skip + 1, t :: ts, layout => by
      rw [veilAll, operand,
        operand_veilAll kind node index skip ts, operand]

theorem lastExpr_veilAll :
    ∀ (missing : Defect) (ts : List Tree)
      (layout : Layout),
      lastExpr library missing (veilAll ts) layout =
        Expr.veil <$> lastExpr library missing ts layout
  | missing, [], layout => rfl
  | missing, [t], layout => by
      rw [veilAll, veilAll, lastExpr, expr_veil t, lastExpr]
  | missing, t :: u :: ts, layout => by
      have hRest := lastExpr_veilAll missing (u :: ts) layout
      rw [veilAll] at hRest ⊢
      rw [veilAll, lastExpr, hRest, lastExpr]

theorem pipeline_veilAll :
    ∀ (ts : List Tree) (layout : Layout),
      pipeline library (veilAll ts) layout =
        Prod.map Operator.veil Expr.veil <$>
          pipeline library ts layout
  | [], layout => rfl
  | .node i k p ps cs :: ts, layout => by
      rw [veilAll, Tree.veil]
      cases k <;> try rfl
      simp only [pipeline, stageHead_veilAll .finish i cs,
        returned_veilAll cs, bind_map_left, map_bind,
        map_pure]
      rfl

theorem returned_veilAll :
    ∀ (ts : List Tree) (layout : Layout),
      returned library (veilAll ts) layout =
        Expr.veil <$> returned library ts layout
  | [], layout => rfl
  | [_], layout => rfl
  | _ :: t :: ts, layout => by
      rw [veilAll, veilAll, returned, expr_veil t, returned]

theorem stageHead_veilAll :
    ∀ (kind : Kind) (node : NodeId) (ts : List Tree)
      (context : Layout),
      stageHead library kind node (veilAll ts) context =
        Prod.map Operator.veil id <$>
          stageHead library kind node ts context
  | kind, id, [], context => rfl
  | kind, id, t :: ts, context => by
      rw [veilAll, stageHead, stage_veil t, stageHead]

theorem trimmedHead_veilAll :
    ∀ (kind : Kind) (node : NodeId) (ts : List Tree)
      (context : Layout),
      trimmedHead library kind node (veilAll ts) context =
        Prod.map Operator.veil id <$>
          trimmedHead library kind node ts context
  | kind, id, [], context => rfl
  | kind, id, t :: ts, context => by
      simp only [veilAll, trimmedHead, stage_veil t,
        bind_map_left, map_bind, map_pure,
        Tree.properties_veil]
      apply bind_congr
      rintro ⟨op, layout⟩
      exact congrArg pure (trim_veil t.properties op layout)

theorem sortKeys_veilAll :
    ∀ (ts : List Tree) (layout : Layout),
      sortKeys library (veilAll ts) layout =
        SortKey.veilAll <$> sortKeys library ts layout
  | [], layout => rfl
  | .node i k p ps cs :: ts, layout => by
      simp only [veilAll, Tree.veil, sortKeys,
        operand_veilAll k i 0 0 cs, sortKeys_veilAll ts,
        Payload.order?_veil, bind_map_left, map_bind,
        map_pure, SortKey.veilAll]

theorem sortKeysTail_veilAll :
    ∀ (ts : List Tree) (layout : Layout),
      sortKeysTail library (veilAll ts) layout =
        SortKey.veilAll <$> sortKeysTail library ts layout
  | [], layout => rfl
  | t :: ts, layout => by
      rw [veilAll, sortKeysTail, sortKeys_veilAll ts,
        sortKeysTail]

theorem join_veilAll :
    ∀ (node : NodeId) (properties : Properties)
      (ts : List Tree) (context : Layout),
      join library node properties (veilAll ts) context =
        Prod.map Operator.veil id <$>
          join library node properties ts context
  | node, properties, [], context => rfl
  | node, properties, [_], context => rfl
  | node, properties, [_, .node _ _ _ _ _], context => rfl
  | node, properties, l :: .node ki kk kp kps kcs :: r :: ts,
      context => by
      simp only [veilAll, Tree.veil, join,
        Payload.comparison?_veil, stage_veil l, stage_veil r,
        operand_veilAll _ _ _ _ kcs, bind_map_left,
        map_bind, map_pure, Tree.properties_veil]
      apply bind_congr
      intro comparison
      apply bind_congr
      rintro ⟨left, leftLayout⟩
      apply bind_congr
      rintro ⟨right, rightLayout⟩
      simp only [Prod.map_apply, id_eq, trim_veil,
        Prod.map_fst, Prod.map_snd]
      rfl

theorem stage_veil :
    ∀ (t : Tree) (context : Layout),
      stage library t.veil context =
        Prod.map Operator.veil id <$>
          stage library t context
  | .node i k p ps cs, context => by
      have hKeys := Tree.groupKeys_veil (.node i k p ps cs)
      have hAggregates :=
        Tree.groupAggregates_veil (.node i k p ps cs)
      have hBinding := Tree.binding?_veil (.node i k p ps cs)
      have hPosition :=
        Tree.position?_veil (.node i k p ps cs)
      rw [Tree.veil] at hKeys hAggregates
      rw [Tree.veil] at hBinding hPosition
      rw [Tree.veil]
      cases k
      case start => rfl
      case join =>
        simp only [stage, join_veilAll i ps cs]
      case forBind =>
        simp only [stage, hBinding, hPosition,
          stageHead_veilAll _ i cs, lastExpr_veilAll _ cs,
          bind_map_left, map_bind, map_pure]
        rfl
      case letBind =>
        simp only [stage, hBinding,
          stageHead_veilAll _ i cs, operand_veilAll _ i 2 2 cs,
          bind_map_left, map_bind]
        apply bind_congr
        rintro ⟨input, layout⟩
        apply bind_congr
        intro var
        split
        · simp only [map_bind, map_pure]
          rfl
        · rfl
      case selection =>
        simp only [stage, stageHead_veilAll _ i cs,
          operand_veilAll _ i 1 1 cs, bind_map_left,
          map_bind, map_pure]
        rfl
      case orderBy =>
        simp only [stage, trimmedHead_veilAll _ i cs,
          sortKeysTail_veilAll cs, bind_map_left, map_bind,
          map_pure]
        rfl
      case groupBy =>
        simp only [stage, hKeys, hAggregates,
          stageHead_veilAll _ i cs, bind_map_left, map_bind,
          map_pure]
        rfl
      case count =>
        simp only [stage, hBinding, stageHead_veilAll _ i cs,
          bind_map_left, map_bind, map_pure]
        rfl
      all_goals rfl

end

end Compile

end Flwor

------------------------------------------------------------
-- Explanations
------------------------------------------------------------

namespace Flwor

/- A property with what a redacted explanation shows. -/
def Detail.redacted
    (d : Detail) : Detail :=
  { d with value := d.shown true }

namespace Explain

mutual

/- An explanation with what a redacted one shows. -/
def redacted : Explain → Explain
  | .node op details inputs =>
      .node op (details.map Detail.redacted)
        (redactedAll inputs)

/- Explanations with what redacted ones show. -/
def redactedAll : List Explain → List Explain
  | [] => []
  | e :: rest => redacted e :: redactedAll rest

end

mutual

/- A redacted text shows nothing else. -/
theorem render_redacted :
    ∀ (depth : Nat) (e : Explain),
      e.redacted.render false depth = e.render true depth
  | depth, .node op details inputs => by
      rw [redacted, render, render, List.map_map,
        renderAll_redactedAll (depth + 1) inputs]
      rfl

theorem renderAll_redactedAll :
    ∀ (depth : Nat) (es : List Explain),
      renderAll false depth (redactedAll es) =
        renderAll true depth es
  | depth, [] => rfl
  | depth, e :: rest => by
      rw [redactedAll, renderAll, renderAll,
        render_redacted depth e,
        renderAll_redactedAll depth rest]

end

end Explain

namespace Encode

theorem details_redacted
    (ds : List Detail) :
    details false (ds.map Detail.redacted) =
      details true ds := by
  unfold details
  rw [List.foldl_map]
  rfl

mutual

/- A redacted encoding shows nothing else. -/
theorem explain_redacted :
    ∀ e : Explain,
      explain false e.redacted = explain true e
  | .node op ds inputs => by
      rw [Explain.redacted, explain, explain,
        explains_redactedAll inputs, details_redacted,
        List.isEmpty_map]

theorem explains_redactedAll :
    ∀ es : List Explain,
      explains false (Explain.redactedAll es) =
        explains true es
  | [] => rfl
  | e :: rest => by
      rw [Explain.redactedAll, explains, explains,
        explain_redacted e, explains_redactedAll rest]

end

end Encode

namespace Operator

theorem map_keyDetail_veilAll
    (keys : List SortKey) :
    ((SortKey.veilAll keys).map keyDetail).map
        Detail.redacted =
      (keys.map keyDetail).map Detail.redacted := by
  induction keys with
  | nil => rfl
  | cons key rest ih =>
      rcases key with ⟨e, order⟩
      rw [SortKey.veilAll, List.map_cons, List.map_cons, ih]
      rfl

/- No constant is shown of an operator. -/
theorem redacted_explain_veil :
    ∀ op : Operator,
      op.veil.explain.redacted = op.explain.redacted
  | .start => rfl
  | .forBind input var position source check => by
      have hInput := redacted_explain_veil input
      simp only [veil, explain, Explain.redacted,
        Explain.redactedAll, hInput, List.map_append]
      rfl
  | .letBind input var value check => by
      have hInput := redacted_explain_veil input
      simp only [veil, explain, Explain.redacted,
        Explain.redactedAll, hInput, List.map_append]
      cases value <;> rfl
  | .select input predicate => by
      have hInput := redacted_explain_veil input
      simp only [veil, explain, Explain.redacted,
        Explain.redactedAll, hInput]
      rfl
  | .orderBy input keys => by
      have hInput := redacted_explain_veil input
      simp only [veil, explain, Explain.redacted,
        Explain.redactedAll, hInput, map_keyDetail_veilAll]
  | .groupBy input keys aggregates => by
      have hInput := redacted_explain_veil input
      simp only [veil, explain, Explain.redacted,
        Explain.redactedAll, hInput]
  | .count input var => by
      have hInput := redacted_explain_veil input
      simp only [veil, explain, Explain.redacted,
        Explain.redactedAll, hInput]
  | .project input context keep => by
      have hInput := redacted_explain_veil input
      simp only [veil, explain, Explain.redacted,
        Explain.redactedAll, hInput]
  | .join left right leftKey rightKey comparison leftJoin
      skipSort context rightWidth => by
      have hLeft := redacted_explain_veil left
      have hRight := redacted_explain_veil right
      simp only [veil, explain, Explain.redacted,
        Explain.redactedAll, hLeft, hRight,
        List.map_append]
      rfl

end Operator

end Flwor

------------------------------------------------------------
-- Queries
------------------------------------------------------------

namespace Flwor

namespace Query

/-
  The root of a plan compiles behind the veil if it does
  without, and the same is shown of it.
-/
theorem compileRoot_veil
    (library : Library)
    (root : Tree)
    (externals : List String) :
    (fun q : Expr × Explain => q.2.redacted) <$>
        compileRoot library root.veil externals =
      (fun q : Expr × Explain => q.2.redacted) <$>
        compileRoot library root externals := by
  unfold compileRoot
  dsimp only
  rw [Tree.kind_veil]
  split
  · rw [Tree.children_veil, ← Tree.veilAll_eq,
      Compile.pipeline_veilAll]
    simp only [map_bind, bind_map_left]
    apply bind_congr
    rintro ⟨tail, result⟩
    have hTail := Operator.redacted_explain_veil tail
    simp only [Prod.map_apply, map_pure, Explain.redacted,
      Explain.redactedAll, hTail]
    rfl
  · rw [Compile.expr_veil]
    simp only [map_bind, bind_map_left, map_pure]
    rfl

end Query

end Flwor
