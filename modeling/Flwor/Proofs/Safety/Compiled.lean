import Flwor.Proofs.Compilation
import Flwor.Proofs.Safety.Operators

/-
  Compiled queries never go wrong: whatever annotations a
  plan carries, evaluating it answers items or raises an
  error about values.

  A compiled expression is safe on rows as wide as the layout
  that it was compiled for, and a compiled stage yields rows
  as wide as the layout that it hands to the next one.

  Key definitions include:
    * `Layout.OnContext`
    * `Tree.ExprSafe`
    * `Tree.StageSafe`

  Key theorems include:
    * `Tree.safe_of_compiled`
    * `Query.evaluate_answers_or_raises`
-/

------------------------------------------------------------
-- Layouts
------------------------------------------------------------

namespace Flwor

namespace Layout

/- A layout that starts with a context of a width. -/
structure OnContext
    (width : Nat)
    (layout : Layout) : Prop where
  context : layout.context = width
  fits : width ≤ layout.width

variable {layout : Layout}
variable {width : Nat}

theorem onContext_ofContext
    (names : List String) :
    (ofContext names).OnContext names.length :=
  ⟨rfl, Nat.le_refl _⟩

theorem OnContext.pushAll
    (hContext : layout.OnContext width)
    (names : List String) :
    (layout.pushAll names).OnContext width := by
  refine ⟨hContext.context, ?_⟩
  have hFits := hContext.fits
  simp only [Layout.width, Layout.pushAll,
    List.length_append] at hFits ⊢
  omega

theorem OnContext.push
    (hContext : layout.OnContext width)
    (name : String) :
    (layout.push name).OnContext width :=
  hContext.pushAll [name]

theorem OnContext.length_contextNames
    (hContext : layout.OnContext width) :
    layout.contextNames.length = width := by
  have hFits := hContext.fits
  rw [Layout.width] at hFits
  rw [contextNames, List.length_take, hContext.context]
  omega

theorem OnContext.length_locals
    (hContext : layout.OnContext width) :
    layout.locals.length = layout.width - width := by
  rw [locals, List.length_drop, hContext.context,
    Layout.width]

theorem OnContext.width_withLocals
    (hContext : layout.OnContext width)
    (names : List String) :
    (layout.withLocals names).width =
      width + names.length := by
  rw [Layout.width, withLocals, List.length_append,
    hContext.length_contextNames]

theorem OnContext.withLocals
    (hContext : layout.OnContext width)
    (names : List String) :
    (layout.withLocals names).OnContext width := by
  refine ⟨hContext.context, ?_⟩
  rw [hContext.width_withLocals]
  omega

/- A slot that was found lies within the layout. -/
theorem lt_width_of_slot?
    {name : String}
    {index : Nat}
    (hSlot : layout.slot? name = some index) :
    index < layout.width :=
  (List.getElem?_eq_some_iff.mp
    (getElem?_of_slot? hSlot)).1

theorem lt_width_of_slotFor
    {name : String}
    {slot : Slot}
    (hSlot : Compile.slotFor layout name = .ok slot) :
    slot.index < layout.width := by
  rw [Compile.slotFor_eq_ok_iff] at hSlot
  rcases hSlot with ⟨index, hIndex, rfl⟩
  exact lt_width_of_slot? hIndex

theorem checkFits_of_checkedSlot
    {properties : Properties}
    {check : Option Slot}
    (hCheck : Compile.checkedSlot layout properties =
      .ok check) :
    CheckFits layout.width check := by
  rintro slot rfl
  rw [Compile.checkedSlot] at hCheck
  split at hCheck
  · rw [except_map_eq_ok_iff] at hCheck
    rcases hCheck with ⟨found, hFound, hEq⟩
    cases hEq
    exact lt_width_of_slotFor hFound
  · cases hCheck

end Layout

end Flwor

------------------------------------------------------------
-- Compiled Trees
------------------------------------------------------------

namespace Flwor

/- What holds of all results of steps over a list. -/
theorem forall_mem_of_forall₂
    {α β : Type}
    {R : α → β → Prop}
    {P : β → Prop}
    {as : List α}
    {bs : List β}
    (hAll : List.Forall₂ R as bs)
    (hEach : ∀ a ∈ as, ∀ b, R a b → P b) :
    ∀ b ∈ bs, P b := by
  induction hAll with
  | nil => simp
  | cons hHead _ ih =>
      refine List.forall_mem_cons.mpr ⟨?_, ?_⟩
      · exact hEach _ List.mem_cons_self _ hHead
      · exact ih (fun a hA =>
          hEach a (List.mem_cons_of_mem _ hA))

namespace Tree

variable (library : Library)

/- The tree compiles to an expression that is safe. -/
def ExprSafe
    (t : Tree) : Prop :=
  ∀ layout e,
    Compile.expr library t layout = .ok e →
      e.SafeOn layout.width

/- An operator that yields rows of a layout. -/
structure Supplied
    (context : Nat)
    (op : Operator)
    (layout : Layout) : Prop where
  safe : op.SafeOn context layout.width
  layout : layout.OnContext context

/- The tree compiles to an operator that is safe. -/
def StageSafe
    (t : Tree) : Prop :=
  ∀ names op layout,
    Compile.stage library t (Layout.ofContext names) =
        .ok (op, layout) →
      Supplied names.length op layout

variable {library : Library}
variable {i : NodeId}
variable {p : Payload}
variable {ps : Properties}
variable {cs : List Tree}

theorem safe_of_operand
    (hCs : ∀ c ∈ cs, ExprSafe library c)
    {kind : Kind}
    {id : NodeId}
    {index skip : Nat}
    {layout : Layout}
    {e : Expr}
    (hOperand : Compile.operand library kind id index skip cs
      layout = .ok e) :
    e.SafeOn layout.width := by
  rw [Compile.operand_eq_ok_iff] at hOperand
  rcases hOperand with ⟨t, hT, hExpr⟩
  exact hCs t (List.mem_of_getElem? hT) layout e hExpr

theorem safe_of_exprs
    (hCs : ∀ c ∈ cs, ExprSafe library c)
    {layout : Layout}
    {es : List Expr}
    (hExprs : Compile.exprs library cs layout = .ok es) :
    ∀ e ∈ es, e.SafeOn layout.width := by
  rw [Compile.exprs_eq_ok_iff] at hExprs
  exact forall_mem_of_forall₂ hExprs
    (fun c hC e hExpr => hCs c hC layout e hExpr)

theorem exprSafe_node
    (hLibrary : ∀ f ∈ library, f.IsSafe)
    {k : Kind}
    (hCs : ∀ c ∈ cs, ExprSafe library c)
    (hPipe : k = .pipeExpr →
      ExprSafe library (.node i k p ps cs)) :
    ExprSafe library (.node i k p ps cs) := by
  intro layout e hCompile
  cases k
  case pipeExpr => exact hPipe rfl layout e hCompile
  case literal =>
    simp only [Compile.expr, except_bind_eq_ok_iff]
      at hCompile
    rcases hCompile with ⟨item, _, hEq⟩
    cases hEq
    exact .literal _
  case emptySequence =>
    simp only [Compile.expr] at hCompile
    cases hCompile
    exact .literal _
  case sequenceExpr =>
    simp only [Compile.expr, except_bind_eq_ok_iff]
      at hCompile
    rcases hCompile with ⟨parts, hParts, hEq⟩
    cases hEq
    exact .concat (safe_of_exprs hCs hParts)
  case rangeExpr =>
    simp only [Compile.expr, except_bind_eq_ok_iff]
      at hCompile
    rcases hCompile with ⟨l, hLow, h, hHigh, hEq⟩
    cases hEq
    exact .range (safe_of_operand hCs hLow)
      (safe_of_operand hCs hHigh)
  case arithmeticExpr =>
    simp only [Compile.expr, except_bind_eq_ok_iff]
      at hCompile
    rcases hCompile with ⟨op, _, l, hLeft, r, hRight, hEq⟩
    cases hEq
    exact .arithmetic op (safe_of_operand hCs hLeft)
      (safe_of_operand hCs hRight)
  case comparisonExpr =>
    simp only [Compile.expr, except_bind_eq_ok_iff]
      at hCompile
    rcases hCompile with ⟨c, _, l, hLeft, r, hRight, hEq⟩
    cases hEq
    exact .comparison c (safe_of_operand hCs hLeft)
      (safe_of_operand hCs hRight)
  case andExpr =>
    simp only [Compile.expr, except_bind_eq_ok_iff]
      at hCompile
    rcases hCompile with ⟨l, hLeft, r, hRight, hEq⟩
    cases hEq
    exact .and (safe_of_operand hCs hLeft)
      (safe_of_operand hCs hRight)
  case orExpr =>
    simp only [Compile.expr, except_bind_eq_ok_iff]
      at hCompile
    rcases hCompile with ⟨l, hLeft, r, hRight, hEq⟩
    cases hEq
    exact .or (safe_of_operand hCs hLeft)
      (safe_of_operand hCs hRight)
  case ifExpr =>
    simp only [Compile.expr, except_bind_eq_ok_iff]
      at hCompile
    rcases hCompile with ⟨c, hCondition, y, hYes, n, hNo,
      hEq⟩
    cases hEq
    exact .cond (safe_of_operand hCs hCondition)
      (safe_of_operand hCs hYes) (safe_of_operand hCs hNo)
  case functionCall =>
    simp only [Compile.expr, except_bind_eq_ok_iff,
      except_mapError_eq_ok_iff] at hCompile
    rcases hCompile with ⟨name, _, args, hArgs, f, hResolve,
      hEq⟩
    cases hEq
    exact .call (hLibrary f (Library.mem_of_resolve hResolve))
      (safe_of_exprs hCs hArgs)
  case variableRef =>
    simp only [Compile.expr, except_bind_eq_ok_iff]
      at hCompile
    rcases hCompile with ⟨name, _, slot, hSlot, hEq⟩
    cases hEq
    exact .read (Layout.lt_width_of_slotFor hSlot)
  all_goals
    simp only [Compile.expr] at hCompile
    cases hCompile

/- A stage whose input was compiled. -/
theorem supplied_of_stageHead
    (hCs : ∀ c ∈ cs, StageSafe library c)
    {names : List String}
    {kind : Kind}
    {id : NodeId}
    {op : Operator}
    {layout : Layout}
    (hHead : Compile.stageHead library kind id cs
      (Layout.ofContext names) = .ok (op, layout)) :
    Supplied names.length op layout := by
  rw [Compile.stageHead_eq_ok_iff] at hHead
  rcases hHead with ⟨input, hInput, hStage⟩
  exact hCs input (List.mem_of_head? hInput) names op layout
    hStage

/- Trimming changes rows and layout together. -/
theorem Supplied.trim
    {context : Nat}
    {op : Operator}
    {layout : Layout}
    (hSupplied : Supplied context op layout)
    (properties : Properties) :
    Supplied context (Compile.trim properties op layout).1
      (Compile.trim properties op layout).2 := by
  rw [Compile.trim]
  split
  · exact hSupplied
  · next wanted _ =>
      dsimp only
      split
      · exact hSupplied
      · have hLayout := hSupplied.layout
        have hKeep :
            ∀ slot ∈ Compile.keptSlots layout wanted,
              slot.index < layout.width :=
          fun slot hMem => Layout.lt_width_of_slot?
            (Layout.mem_keptSlots hMem).2.2
        have hWidth :
            (layout.select
              ((Compile.keptSlots layout wanted).map
                Slot.index)).width =
              context
                + (Compile.keptSlots layout wanted).length := by
          rw [Layout.width, Layout.names_select_keptSlots,
            List.length_append, List.length_map,
            hLayout.length_contextNames]
        refine ⟨?_, hLayout.withLocals _⟩
        rw [hWidth, hLayout.context]
        exact hSupplied.safe.project hLayout.fits hKeep

theorem stageSafe_start :
    StageSafe library (.node i .start p ps cs) := by
  intro names op layout hCompile
  simp only [Compile.stage] at hCompile
  cases hCompile
  exact ⟨.start, Layout.onContext_ofContext names⟩

theorem stageSafe_forBind
    (hExprs : ∀ c ∈ cs, ExprSafe library c)
    (hStages : ∀ c ∈ cs, StageSafe library c) :
    StageSafe library (.node i .forBind p ps cs) := by
  intro names op layout hCompile
  simp only [Compile.stage, except_bind_eq_ok_iff]
    at hCompile
  rcases hCompile with ⟨⟨input, before⟩, hHead, source,
    hSource, check, hCheck, var, _, hEq⟩
  cases hEq
  rw [Compile.lastExpr_eq_ok_iff] at hSource
  rcases hSource with ⟨t, hLast, hExpr⟩
  have hInput := supplied_of_stageHead hStages hHead
  have hOperator := hInput.safe.forBind var
    (position? (.node i .forBind p ps cs))
    (hExprs t (List.mem_of_getLast? hLast) before source
      hExpr)
    (Layout.checkFits_of_checkedSlot hCheck)
  refine ⟨?_, hInput.layout.pushAll _⟩
  have hWidth :
      (before.pushAll (var ::
        (position?
          (.node i .forBind p ps cs)).toList)).width =
        before.width + 1 + (position?
          (.node i .forBind p ps cs)).isSome.toNat := by
    rw [Layout.width, Layout.pushAll, Layout.width,
      List.length_append, List.length_cons]
    cases position? (.node i .forBind p ps cs) <;> rfl
  rw [hWidth]
  exact hOperator

theorem stageSafe_letBind
    (hExprs : ∀ c ∈ cs, ExprSafe library c)
    (hStages : ∀ c ∈ cs, StageSafe library c) :
    StageSafe library (.node i .letBind p ps cs) := by
  intro names op layout hCompile
  simp only [Compile.stage, except_bind_eq_ok_iff]
    at hCompile
  rcases hCompile with ⟨⟨input, before⟩, hHead, var, _,
    hBind⟩
  have hInput := supplied_of_stageHead hStages hHead
  have hWidth :
      (before.push var).width = before.width + 1 := by
    simp [Layout.width, Layout.push]
  split at hBind
  · simp only [except_bind_eq_ok_iff] at hBind
    rcases hBind with ⟨value, hValue, check, hCheck, hEq⟩
    cases hEq
    refine ⟨?_, hInput.layout.push var⟩
    rw [hWidth]
    refine hInput.safe.letBind var ?_
      (Layout.checkFits_of_checkedSlot hCheck)
    rintro e ⟨⟩
    exact safe_of_operand hExprs hValue
  · cases hBind
    refine ⟨?_, hInput.layout.push var⟩
    rw [hWidth]
    exact hInput.safe.letBind var (by simp)
      (by simp [CheckFits])

theorem stageSafe_selection
    (hExprs : ∀ c ∈ cs, ExprSafe library c)
    (hStages : ∀ c ∈ cs, StageSafe library c) :
    StageSafe library (.node i .selection p ps cs) := by
  intro names op layout hCompile
  simp only [Compile.stage, except_bind_eq_ok_iff]
    at hCompile
  rcases hCompile with ⟨⟨input, before⟩, hHead, predicate,
    hPredicate, hEq⟩
  cases hEq
  have hInput := supplied_of_stageHead hStages hHead
  exact ⟨hInput.safe.select
    (safe_of_operand hExprs hPredicate), hInput.layout⟩

theorem stageSafe_orderBy
    (hStages : ∀ c ∈ cs, StageSafe library c)
    (hKeys : ∀ c ∈ cs, ∀ d ∈ c.children,
      ExprSafe library d) :
    StageSafe library (.node i .orderBy p ps cs) := by
  intro names op layout hCompile
  simp only [Compile.stage, except_bind_eq_ok_iff,
    Compile.trimmedHead_eq_ok_iff,
    Compile.sortKeysTail_eq_ok_iff] at hCompile
  rcases hCompile with ⟨⟨input, before⟩,
    ⟨t, hHead, wide, wider, hStage, hTrim⟩, keys,
    hSortKeys, hEq⟩
  cases hEq
  have hInput := (hStages t (List.mem_of_head? hHead) names
    wide wider hStage).trim t.properties
  rw [hTrim] at hInput
  refine ⟨hInput.safe.orderBy (fun e order hMem => ?_),
    hInput.layout⟩
  have hKey : ∀ key ∈ keys, ∀ e order,
      key = .mk e order → e.SafeOn before.width := by
    refine forall_mem_of_forall₂ hSortKeys ?_
    rintro spec hSpec _ ⟨_, child, found, _, hChild, hExpr,
      rfl⟩ e order ⟨⟩
    exact hKeys spec (List.mem_of_mem_drop hSpec) child
      (List.mem_of_getElem? hChild) before found hExpr
  exact hKey _ hMem e order rfl

theorem stageSafe_groupBy
    (hStages : ∀ c ∈ cs, StageSafe library c) :
    StageSafe library (.node i .groupBy p ps cs) := by
  intro names op layout hCompile
  simp only [Compile.stage, except_bind_eq_ok_iff,
    except_mapM_eq_ok_iff] at hCompile
  rcases hCompile with ⟨⟨input, before⟩, hHead, keys, hKeys,
    aggregates, hAggregates, hEq⟩
  cases hEq
  have hInput := supplied_of_stageHead hStages hHead
  have hKeyBound : ∀ slot ∈ keys,
      slot.index < before.width :=
    forall_mem_of_forall₂ hKeys
      (fun _ _ _ hSlot => Layout.lt_width_of_slotFor hSlot)
  have hAggregateBound : ∀ slot ∈ aggregates,
      slot.index < before.width := by
    refine forall_mem_of_forall₂ hAggregates ?_
    rintro _ _ _ ⟨source, hSource, ⟨⟩⟩
    have hBound : source.index < before.width :=
      Layout.lt_width_of_slotFor hSource
    exact hBound
  refine ⟨?_, hInput.layout.withLocals _⟩
  rw [hInput.layout.width_withLocals, List.length_map,
    List.length_append, ← Nat.add_assoc]
  exact hInput.safe.groupBy hKeyBound hAggregateBound

theorem stageSafe_count
    (hStages : ∀ c ∈ cs, StageSafe library c) :
    StageSafe library (.node i .count p ps cs) := by
  intro names op layout hCompile
  simp only [Compile.stage, except_bind_eq_ok_iff]
    at hCompile
  rcases hCompile with ⟨⟨input, before⟩, hHead, var, _, hEq⟩
  cases hEq
  have hInput := supplied_of_stageHead hStages hHead
  refine ⟨?_, hInput.layout.push var⟩
  have hWidth :
      (before.push var).width = before.width + 1 := by
    simp [Layout.width, Layout.push]
  rw [hWidth]
  exact hInput.safe.count var

theorem stageSafe_join
    (hStages : ∀ c ∈ cs, StageSafe library c)
    (hKeys : ∀ c ∈ cs, ∀ d ∈ c.children,
      ExprSafe library d) :
    StageSafe library (.node i .join p ps cs) := by
  intro names op layout hCompile
  rcases cs with _ | ⟨l, _ | ⟨⟨j, k, q, qs, keys⟩,
    _ | ⟨r, rest⟩⟩⟩
  · simp only [Compile.stage, Compile.join] at hCompile
    cases hCompile
  · simp only [Compile.stage, Compile.join] at hCompile
    cases hCompile
  · simp only [Compile.stage, Compile.join] at hCompile
    cases hCompile
  · simp only [Compile.stage, Compile.join,
      except_bind_eq_ok_iff] at hCompile
    rcases hCompile with ⟨comparison, _,
      ⟨wideLeft, widerLeft⟩, hStageLeft,
      ⟨wideRight, widerRight⟩, hStageRight,
      leftKey, hLeftKey, rightKey, hRightKey, hEq⟩
    cases hEq
    have hLeft := (hStages l (by simp) names _ _
      hStageLeft).trim l.properties
    have hRight := (hStages r (by simp) names _ _
      hStageRight).trim r.properties
    have hOperands : ∀ d ∈ keys, ExprSafe library d :=
      hKeys (.node j k q qs keys) (by simp)
    have hJoin := hLeft.safe.join hRight.safe
      (safe_of_operand hOperands hLeftKey)
      (safe_of_operand hOperands hRightKey) comparison
      (ps.flag Properties.leftJoin)
      (ps.flag Properties.skipSort)
    refine ⟨?_, hLeft.layout.pushAll _⟩
    have hWidth (wide : Layout) (locals : List String) :
        (wide.pushAll locals).width =
          wide.width + locals.length := by
      simp [Layout.width, Layout.pushAll]
    rw [hWidth, hRight.layout.length_locals]
    exact hJoin

theorem exprSafe_pipe
    (hStages : ∀ c ∈ cs, ∀ d ∈ c.children,
      StageSafe library d)
    (hResults : ∀ c ∈ cs, ∀ d ∈ c.children,
      ExprSafe library d) :
    ExprSafe library (.node i .pipeExpr p ps cs) := by
  intro layout e hCompile
  rcases cs with _ | ⟨⟨j, k, q, qs, parts⟩, more⟩
  · simp only [Compile.expr, Compile.pipeline] at hCompile
    cases hCompile
  · by_cases hFinish : k = .finish
    · subst hFinish
      simp only [Compile.expr, Compile.pipeline,
        except_bind_eq_ok_iff, Compile.returned_eq_ok_iff]
        at hCompile
      rcases hCompile with ⟨_, ⟨⟨tail, inner⟩, hHead, result,
        ⟨t, hResult, hExpr⟩, hPair⟩, hEq⟩
      cases hPair
      cases hEq
      have hTail := supplied_of_stageHead
        (hStages _ List.mem_cons_self) hHead
      refine .pipeline hTail.safe ?_
      exact hResults _ List.mem_cons_self t
        (List.mem_of_getElem? hResult) inner result hExpr
    · cases k <;>
        first
        | exact (hFinish rfl).elim
        | (simp only [Compile.expr, Compile.pipeline]
            at hCompile
           cases hCompile)

/- What compiles is safe on the rows it is compiled for. -/
theorem safe_of_compiled
    (hLibrary : ∀ f ∈ library, f.IsSafe)
    (t : Tree) :
    ExprSafe library t ∧ StageSafe library t := by
  induction t using Tree.inductDeep with
  | node i k p ps cs ih ihDeep =>
      have hExprs (c : Tree) (hC : c ∈ cs) := (ih c hC).1
      have hStages (c : Tree) (hC : c ∈ cs) := (ih c hC).2
      have hDeep (c : Tree) (hC : c ∈ cs) (d : Tree)
          (hD : d ∈ c.children) :=
        (ihDeep c hC d hD).1
      refine ⟨exprSafe_node hLibrary hExprs
        (fun hPipe => ?_), ?_⟩
      · subst hPipe
        exact exprSafe_pipe
          (fun c hC d hD => (ihDeep c hC d hD).2) hDeep
      · cases k
        case start => exact stageSafe_start
        case forBind => exact stageSafe_forBind hExprs hStages
        case letBind => exact stageSafe_letBind hExprs hStages
        case selection =>
          exact stageSafe_selection hExprs hStages
        case orderBy => exact stageSafe_orderBy hStages hDeep
        case groupBy => exact stageSafe_groupBy hStages
        case count => exact stageSafe_count hStages
        case join => exact stageSafe_join hStages hDeep
        all_goals
          intro names op layout hCompile
          simp only [Compile.stage] at hCompile
          cases hCompile

end Tree

end Flwor

------------------------------------------------------------
-- Queries
------------------------------------------------------------

namespace Flwor

namespace Query

/-
  A compiled query whose externals are bound answers items or
  raises an error about values.  It never finds a row without
  a slot, breaks the protocol of a cursor, or misses a
  variable or a function, whatever annotations its plan
  carries.
-/
theorem evaluate_answers_or_raises
    {plan : Plan}
    {externals : List String}
    {query : Query}
    {bindings : Bindings}
    (hQuery : ofPlan Library.standard plan externals =
      .ok query)
    (hBound : ∀ name ∈ externals,
      (bindings.lookup name).isSome) :
    (∃ items,
        (query.evaluate bindings).result = .ok items) ∨
      ∃ e : EvaluationError, e.IsRaised ∧
        (query.evaluate bindings).result =
          .error (.evaluation e) := by
  rcases ofPlan_eq_ok hQuery with ⟨hCompile, hExternals⟩
  rcases exists_contextRow hBound with
    ⟨row, hRow, hAgrees⟩
  have hRoot := (Tree.safe_of_compiled
    Library.isSafe_of_mem_standard plan.rootTree).1
    (Layout.ofContext externals) query.root hCompile
  have hEvaluate :
      query.evaluate bindings = query.root.eval row := by
    rw [evaluate, hExternals, hRow]
    rfl
  have hSafe := hRoot row hAgrees.length
  rw [← hEvaluate] at hSafe
  rcases hResult : (query.evaluate bindings).result with
    e | items
  · have hRaised := hSafe.of_error hResult
    cases e with
    | evaluation e => exact .inr ⟨e, hRaised, rfl⟩
    | _ => cases hRaised
  · exact .inl ⟨items, rfl⟩

/-
  A plan with annotations of every kind: the `let` is dead,
  the join pads rows and drops `$y` before sorting:
  `for $x in $in let $z := 1 idiv 0
    left join for $y in $in on $x < $y
    order by $x return $x`.
-/
def annotatedPlan : Plan where
  nodes := #[
    ⟨.pipeExpr, .none, none, [1], []⟩,
    ⟨.finish, .none, some 0, [2, 22], []⟩,
    ⟨.orderBy, .none, some 1, [3, 20], []⟩,
    ⟨.join, .none, some 2, [4, 13, 16],
      [(Properties.leftJoin, .flag true),
       (Properties.skipSort, .flag true),
       (Properties.project, .vars ["x"])]⟩,
    ⟨.letBind, .none, some 3, [5, 9, 10],
      [(Properties.project, .vars ["x"])]⟩,
    ⟨.forBind, .none, some 4, [6, 7, 8], []⟩,
    ⟨.start, .none, some 5, [], []⟩,
    ⟨.variable, .var "x", some 5, [], []⟩,
    ⟨.variableRef, .var "in", some 5, [], []⟩,
    ⟨.variable, .var "z", some 4, [], []⟩,
    ⟨.arithmeticExpr, .arith .idiv, some 4, [11, 12], []⟩,
    ⟨.literal, .int 1, some 10, [], []⟩,
    ⟨.literal, .int 0, some 10, [], []⟩,
    ⟨.joinExpr, .cmp (.general .lt), some 3, [14, 15], []⟩,
    ⟨.variableRef, .var "x", some 13, [], []⟩,
    ⟨.variableRef, .var "y", some 13, [], []⟩,
    ⟨.forBind, .none, some 3, [17, 18, 19], []⟩,
    ⟨.start, .none, some 16, [], []⟩,
    ⟨.variable, .var "y", some 16, [], []⟩,
    ⟨.variableRef, .var "in", some 16, [], []⟩,
    ⟨.orderSpec, .order .ascending, some 2, [21], []⟩,
    ⟨.variableRef, .var "x", some 20, [], []⟩,
    ⟨.variableRef, .var "x", some 1, [], []⟩]
  root := 0
  counter := 0

/- Projection, padding and a dead `let` in one pipeline. -/
theorem evaluate_annotatedPlan :
    ∃ query,
      ofPlan Library.standard annotatedPlan ["in"] =
          .ok query ∧
        ((∃ items,
            (query.evaluate
              [("in", [.int 1, .int 2])]).result =
                .ok items) ∨
          ∃ e : EvaluationError, e.IsRaised ∧
            (query.evaluate
              [("in", [.int 1, .int 2])]).result =
                .error (.evaluation e)) := by
  have hCompiles : ∃ query,
      ofPlan Library.standard annotatedPlan ["in"] =
        .ok query :=
    ⟨_, rfl⟩
  rcases hCompiles with ⟨query, hQuery⟩
  exact ⟨query, hQuery,
    evaluate_answers_or_raises hQuery (by simp)⟩

end Query

end Flwor
