import Flwor.Proofs.Collecting
import Flwor.Proofs.CompileForms
import Flwor.Proofs.Layouts
import Flwor.Proofs.Refinement
import Flwor.Proofs.RowMeaning
import Flwor.Proofs.Scoping

/-
  A tree that follows the scoping rules compiles, and what
  it compiles to does on rows what the tree means in
  environments.

  There is one lemma for each rule.  The value of an
  expression is the same on every row that agrees with the
  environment on the names it reads; the rows of a stage
  correspond one by one to the environments that it yields,
  and agree with them on the names that it supplies.

  Key definitions include:
    * `Tree.ExprSimulated`
    * `Layout.Extends`
    * `Tree.StageSimulated`

  Key theorems include:
    * `Tree.ReadsFrom.simulated`
    * `Tree.Supplies.simulated`
-/

------------------------------------------------------------
-- Correspondence
------------------------------------------------------------

namespace Flwor

/-
  The layout of rows in a context of some names: the context
  comes first, and the bindings after it include the wanted
  ones.
-/
structure Layout.Extends
    (layout : Layout)
    (names : List String)
    (bindings : List String)
    (wanted : Set String) : Prop where
  context : layout.context = names.length
  contextNames : layout.contextNames = names
  bound : ∀ name ∈ layout.locals, name ∈ bindings
  held : ∀ name ∈ wanted, name ∈ layout.names
  heldLocal :
    ∀ name ∈ wanted, name ∈ bindings → name ∈ layout.locals

namespace Tree

variable (library : Library)
variable (lenient : Prop)

/- Compiling an expression for names and its correctness. -/
def ExprSimulated
    (names : Set String)
    (t : Tree) : Prop :=
  ∀ layout : Layout,
    (∀ name ∈ names, name ∈ layout.names) →
      ∃ e, Compile.expr library t layout = .ok e ∧
        ∀ row env, layout.Agrees names row env →
          Refines lenient Eq (t.value library env)
            (e.value? row)

/- Environments and rows that correspond one by one. -/
def RowsAgree
    (layout : Layout)
    (handed : Set String) : List Env → List Row → Prop :=
  List.Forall₂ (fun env row => layout.Agrees handed row env)

/- Compiling a stage in a context and its correctness. -/
def StageSimulated
    (context handed : Set String)
    (t : Tree) : Prop :=
  ∀ names : List String,
    (∀ name ∈ context, name ∈ names) →
      ∃ op layout,
        Compile.stage library t (Layout.ofContext names) =
            .ok (op, layout) ∧
          layout.Extends names t.visible handed ∧
          ∀ row env,
            (Layout.ofContext names).Agrees context row env →
              Refines lenient (RowsAgree layout handed)
                (t.rows library env) (op.rows? row)

end Tree

end Flwor

------------------------------------------------------------
-- Expressions
------------------------------------------------------------

namespace Flwor

namespace Tree

variable {library : Library}
variable {lenient : Prop}

section

variable {names : Set String}
variable {i : NodeId}
variable {p : Payload}
variable {ps : Properties}
variable {cs : List Tree}

attribute [local simp] Compile.expr Compile.stage value rows

theorem simulated_literal
    (hItem : p.item?.isSome) :
    ExprSimulated library lenient names
      (.node i .literal p ps cs) := by
  intro layout _
  rcases Option.isSome_iff_exists.mp hItem with ⟨item, hItem⟩
  refine ⟨.literal [item], ?_, fun row env _ => ?_⟩
  · simp only [Compile.expr, hItem]
    rfl
  · simp only [value, hItem]
    exact .refl _

theorem simulated_emptySequence :
    ExprSimulated library lenient names
      (.node i .emptySequence p ps cs) := by
  intro layout _
  refine ⟨.literal [], ?_, fun row env _ => ?_⟩
  · simp only [Compile.expr]
    rfl
  · simp only [value]
    exact .refl _

/- Expressions that are compiled one by one. -/
theorem simulated_all
    {layout : Layout}
    (hLayout : ∀ name ∈ names, name ∈ layout.names)
    (hParts : ∀ c ∈ cs, ExprSimulated library lenient names c) :
    ∃ es, Compile.exprs library cs layout = .ok es ∧
      es.length = cs.length ∧
        ∀ row env, layout.Agrees names row env →
          Refines lenient Eq (values library cs env)
            (es.mapM (fun e : Expr => e.value? row)) := by
  induction cs with
  | nil =>
      exact ⟨[], by simp [Compile.exprs]; rfl, rfl,
        fun row env _ => by
          rw [values]
          exact .refl _⟩
  | cons c rest ih =>
      rcases hParts c (by simp) layout hLayout with
        ⟨e, hCompile, hValue⟩
      rcases ih (fun d hMem => hParts d (by simp [hMem])) with
        ⟨es, hRest, hLength, hValues⟩
      refine ⟨e :: es, ?_, by simp [hLength],
        fun row env hAgrees => ?_⟩
      · rw [Compile.exprs, hCompile, hRest]
        rfl
      · rw [values, List.mapM_cons]
        refine (hValue row env hAgrees).bind ?_
        rintro s _ rfl
        refine (hValues row env hAgrees).bind ?_
        rintro more _ rfl
        exact .refl _

theorem simulated_sequence
    (hParts : ∀ c ∈ cs, ExprSimulated library lenient names c) :
    ExprSimulated library lenient names
      (.node i .sequenceExpr p ps cs) := by
  intro layout hLayout
  rcases simulated_all hLayout hParts with
    ⟨es, hCompile, _, hValues⟩
  refine ⟨.concat es, ?_, fun row env hAgrees => ?_⟩
  · simp only [Compile.expr, hCompile]
    rfl
  · rw [Expr.value?_concat, value, Option.map_eq_bind]
    refine (hValues row env hAgrees).bind ?_
    rintro parts _ rfl
    exact .refl _

theorem simulated_call
    {name : String}
    {f : QueryFunction}
    (hName : p.label? = some name)
    (hFunction : library.resolve name cs.length = .ok f)
    (hParts : ∀ c ∈ cs, ExprSimulated library lenient names c) :
    ExprSimulated library lenient names
      (.node i .functionCall p ps cs) := by
  intro layout hLayout
  rcases simulated_all hLayout hParts with
    ⟨es, hCompile, hLength, hValues⟩
  refine ⟨.call f es, ?_, fun row env hAgrees => ?_⟩
  · simp only [Compile.expr, hName, hCompile]
    simp only [Compile.require, bind, Except.bind, hLength,
      hFunction]
    rfl
  · rw [Expr.value?_call, value]
    simp only [hName]
    refine (hValues row env hAgrees).bind ?_
    rintro arguments _ rfl
    rw [hFunction]
    exact .refl _

theorem simulated_variableRef
    {name : String}
    (hName : p.var? = some name)
    (hMem : name ∈ names) :
    ExprSimulated library lenient names
      (.node i .variableRef p ps cs) := by
  intro layout hLayout
  cases hSlot : layout.slot? name with
  | none =>
      exact (Layout.slot?_eq_none_iff.mp hSlot
        (hLayout name hMem)).elim
  | some index =>
      refine ⟨.variable ⟨name, index⟩, ?_,
        fun row env hAgrees => ?_⟩
      · simp only [Compile.expr, except_bind_eq_ok_iff,
          Compile.require_eq_ok_iff,
          Compile.slotFor_eq_ok_iff]
        exact ⟨name, hName, _, ⟨index, hSlot, rfl⟩, rfl⟩
      · rw [Expr.value?_variable, value]
        simp only [hName]
        rw [hAgrees.getElem? hMem hSlot]
        exact .refl _

/- The operand at a place. -/
theorem simulated_operand
    {layout : Layout}
    (hLayout : ∀ name ∈ names, name ∈ layout.names)
    {index : Nat}
    {t : Tree}
    (hChild : cs[index]? = some t)
    (hOperand : ExprSimulated library lenient names t)
    (kind : Kind)
    (id : NodeId)
    (place : Nat) :
    ∃ e,
      Compile.operand library kind id place index cs
          layout = .ok e ∧
        ∀ row env, layout.Agrees names row env →
          Refines lenient Eq (valueAt library index cs env)
            (e.value? row) := by
  rcases hOperand layout hLayout with ⟨e, hCompile, hValue⟩
  refine ⟨e, (Compile.operand_eq_ok_iff library).mpr
    ⟨t, hChild, hCompile⟩, fun row env hAgrees => ?_⟩
  rw [valueAt_eq, hChild, Option.bind_some]
  exact hValue row env hAgrees

theorem simulated_binary
    {k : Kind}
    {left right : Tree}
    (hKind : Binary k p)
    (hLeft : cs[0]? = some left)
    (hRight : cs[1]? = some right)
    (hReadsLeft : ExprSimulated library lenient names left)
    (hReadsRight :
      ExprSimulated library lenient names right) :
    ExprSimulated library lenient names
      (.node i k p ps cs) := by
  intro layout hLayout
  rcases simulated_operand hLayout hLeft hReadsLeft k i 0 with
    ⟨l, hCompileLeft, hValueLeft⟩
  rcases simulated_operand hLayout hRight hReadsRight k i 1
    with ⟨r, hCompileRight, hValueRight⟩
  cases k <;> try exact hKind.elim
  case rangeExpr =>
    refine ⟨.range l r, ?_, fun row env hAgrees => ?_⟩
    · simp only [Compile.expr, hCompileLeft, hCompileRight]
      rfl
    · rw [Expr.value?_range, value]
      exact (hValueLeft row env hAgrees).both
        (hValueRight row env hAgrees) _
  case arithmeticExpr =>
    rcases Option.isSome_iff_exists.mp hKind with ⟨op, hOp⟩
    refine ⟨.arithmetic op l r, ?_,
      fun row env hAgrees => ?_⟩
    · simp only [Compile.expr, hOp, hCompileLeft,
        hCompileRight]
      rfl
    · rw [Expr.value?_arithmetic, value]
      simp only [hOp]
      exact (hValueLeft row env hAgrees).both
        (hValueRight row env hAgrees) _
  case comparisonExpr =>
    rcases Option.isSome_iff_exists.mp hKind with ⟨c, hC⟩
    refine ⟨.comparison c l r, ?_,
      fun row env hAgrees => ?_⟩
    · simp only [Compile.expr, hC, hCompileLeft,
        hCompileRight]
      rfl
    · rw [Expr.value?_comparison, value]
      simp only [hC]
      exact (hValueLeft row env hAgrees).both
        (hValueRight row env hAgrees) _
  case andExpr =>
    refine ⟨.and l r, ?_, fun row env hAgrees => ?_⟩
    · simp only [Compile.expr, hCompileLeft, hCompileRight]
      rfl
    · rw [Expr.value?_and, value]
      refine (hValueLeft row env hAgrees).bind ?_
      rintro s _ rfl
      refine (Refines.refl s.truth?).bind ?_
      rintro holds _ rfl
      cases holds with
      | false => exact .refl _
      | true =>
          refine (hValueRight row env hAgrees).bind ?_
          rintro t _ rfl
          rw [Option.map_eq_bind]
          exact .refl _
  case orExpr =>
    refine ⟨.or l r, ?_, fun row env hAgrees => ?_⟩
    · simp only [Compile.expr, hCompileLeft, hCompileRight]
      rfl
    · rw [Expr.value?_or, value]
      refine (hValueLeft row env hAgrees).bind ?_
      rintro s _ rfl
      refine (Refines.refl s.truth?).bind ?_
      rintro holds _ rfl
      cases holds with
      | true => exact .refl _
      | false =>
          refine (hValueRight row env hAgrees).bind ?_
          rintro t _ rfl
          rw [Option.map_eq_bind]
          exact .refl _

theorem simulated_cond
    {condition yes no : Tree}
    (hCondition : cs[0]? = some condition)
    (hYes : cs[1]? = some yes)
    (hNo : cs[2]? = some no)
    (hReadsCondition :
      ExprSimulated library lenient names condition)
    (hReadsYes : ExprSimulated library lenient names yes)
    (hReadsNo : ExprSimulated library lenient names no) :
    ExprSimulated library lenient names
      (.node i .ifExpr p ps cs) := by
  intro layout hLayout
  rcases simulated_operand hLayout hCondition
    hReadsCondition .ifExpr i 0 with
    ⟨c, hCompileCondition, hValueCondition⟩
  rcases simulated_operand hLayout hYes hReadsYes .ifExpr i 1
    with ⟨y, hCompileYes, hValueYes⟩
  rcases simulated_operand hLayout hNo hReadsNo .ifExpr i 2
    with ⟨n, hCompileNo, hValueNo⟩
  refine ⟨.cond c y n, ?_, fun row env hAgrees => ?_⟩
  · simp only [Compile.expr, hCompileCondition,
      hCompileYes, hCompileNo]
    rfl
  · rw [Expr.value?_cond, value]
    refine (hValueCondition row env hAgrees).bind ?_
    rintro s _ rfl
    refine (Refines.refl s.truth?).bind ?_
    rintro holds _ rfl
    cases holds with
    | true => exact hValueYes row env hAgrees
    | false => exact hValueNo row env hAgrees

/- A nested pipeline, in a layout that is all context. -/
theorem simulated_pipe
    {handed : Set String}
    {tail result : Tree}
    {j : NodeId}
    {q : Payload}
    {qs : Properties}
    {rest more : List Tree}
    (hTail : StageSimulated library lenient names handed tail)
    (hResult : ExprSimulated library lenient handed result) :
    ExprSimulated library lenient names
      (.node i .pipeExpr p ps
        (.node j .finish q qs (tail :: result :: rest)
          :: more)) := by
  intro outer hOuter
  rcases hTail outer.names hOuter with
    ⟨op, layout, hStage, hExtends, hRows⟩
  rcases hResult layout hExtends.held with
    ⟨e, hCompile, hValue⟩
  refine ⟨.pipeline op e, ?_, fun row env hAgrees => ?_⟩
  · simp only [Compile.expr, Compile.pipeline,
      Compile.stageHead, Compile.returned, hStage]
    simp only [bind, Except.bind, hCompile]
    rfl
  · have hContext :
        (Layout.ofContext outer.names).Agrees names row env :=
      ⟨hAgrees.length, hAgrees.values⟩
    rw [Expr.value?_pipeline, value, pipelineValue, headRows]
    refine (hRows row env hContext).bind ?_
    intro envs rows hAll
    rw [Option.map_eq_bind]
    refine (Refines.mapM (S := Eq) hAll ?_).bind ?_
    · intro env row hAgrees
      exact hValue row env hAgrees
    · intro parts values hSame
      rw [List.forall₂_eq_eq_eq] at hSame
      rw [hSame]
      exact .refl _

end

end Tree

end Flwor

------------------------------------------------------------
-- Extensions of Layouts
------------------------------------------------------------

namespace Flwor

namespace Layout

variable {layout : Layout}
variable {names bindings : List String}
variable {read wanted : Set String}

theorem Extends.names_eq
    (hExtends : layout.Extends names bindings read) :
    layout.names = names ++ layout.locals := by
  rw [← hExtends.contextNames,
    contextNames_append_locals]

theorem Extends.context_le
    (hExtends : layout.Extends names bindings read) :
    layout.context ≤ layout.names.length := by
  rw [hExtends.names_eq, hExtends.context,
    List.length_append]
  omega

/- A layout that consists of a context and some locals. -/
theorem Extends.of_names
    (locals : List String)
    (hContext : layout.context = names.length)
    (hNames : layout.names = names ++ locals)
    (hBound : ∀ name ∈ locals, name ∈ bindings)
    (hHeld : ∀ name ∈ wanted,
      name ∈ names ∨ name ∈ locals)
    (hHeldLocal : ∀ name ∈ wanted,
      name ∈ bindings → name ∈ locals) :
    layout.Extends names bindings wanted := by
  have hLocals : layout.locals = locals := by
    rw [Layout.locals, hNames, hContext, List.drop_left]
  refine ⟨hContext, ?_, ?_, ?_, ?_⟩
  · rw [Layout.contextNames, hNames, hContext,
      List.take_left]
  · rwa [hLocals]
  · simpa [hNames] using hHeld
  · rwa [hLocals]

/- Bindings that are added last. -/
theorem Extends.pushAll
    (hExtends : layout.Extends names bindings read)
    {new : List String}
    (hWanted : ∀ name ∈ wanted, name ∉ new → name ∈ read) :
    (layout.pushAll new).Extends names (bindings ++ new)
      wanted := by
  refine Extends.of_names (layout.locals ++ new)
    hExtends.context ?_ ?_ ?_ ?_
  · rw [Layout.pushAll, hExtends.names_eq,
      List.append_assoc]
  · intro name hName
    rw [List.mem_append] at hName ⊢
    exact hName.imp (hExtends.bound name) id
  · intro name hName
    by_cases hNew : name ∈ new
    · simp [hNew]
    · have hHeld :=
        hExtends.held name (hWanted name hName hNew)
      rw [hExtends.names_eq, List.mem_append] at hHeld
      rcases hHeld with hHeld | hHeld
      · exact .inl hHeld
      · exact .inr (by simp [hHeld])
  · intro name hName hBinding
    by_cases hNew : name ∈ new
    · simp [hNew]
    · rw [List.mem_append] at hBinding ⊢
      exact .inl (hExtends.heldLocal name
        (hWanted name hName hNew)
        (hBinding.resolve_right hNew))

theorem Extends.mono
    (hExtends : layout.Extends names bindings read)
    (hWanted : wanted ⊆ read) :
    layout.Extends names bindings wanted :=
  ⟨hExtends.context, hExtends.contextNames, hExtends.bound,
    fun name hName => hExtends.held name (hWanted hName),
    fun name hName =>
      hExtends.heldLocal name (hWanted hName)⟩

/- The row of a `for` that binds an item and its position. -/
theorem Agrees.bindFor
    {row : Row}
    {env : Env}
    (hAgrees : layout.Agrees read row env)
    {var : String}
    {position : Option String}
    (hWanted : ∀ name ∈ wanted,
      name ∉ var :: position.toList → name ∈ read)
    (item index : Sequence) :
    (layout.pushAll (var :: position.toList)).Agrees wanted
      (row ++ [item]
        ++ (if position.isSome then [index] else []))
      ((env.bind var item).bindOption position index) := by
  cases position with
  | none =>
      simp only [Option.isSome_none, Bool.false_eq_true,
        if_false, List.append_nil]
      refine hAgrees.push (fun name hName => ?_) item
      by_cases hEq : name = var
      · exact .inl hEq
      · exact .inr (hWanted name hName (by simpa using hEq))
  | some other =>
      have hSplit :
          layout.pushAll (var :: (some other).toList) =
            (layout.push var).push other := by
        simp [Layout.pushAll, Layout.push]
      rw [hSplit]
      simp only [Option.isSome_some, if_true]
      have hFirst : (layout.push var).Agrees
          {name | name ∈ wanted ∧ name ≠ other}
          (row ++ [item]) (env.bind var item) := by
        refine hAgrees.push (fun name hName => ?_) item
        by_cases hEq : name = var
        · exact .inl hEq
        · exact .inr (hWanted name hName.1
            (by simpa [hEq] using hName.2))
      refine hFirst.push (fun name hName => ?_) index
      by_cases hEq : name = other
      · exact .inl hEq
      · exact .inr ⟨hName, hEq⟩

end Layout

end Flwor

------------------------------------------------------------
-- Bindings
------------------------------------------------------------

namespace Flwor

namespace Tree

variable {library : Library}
variable {lenient : Prop}
variable {context read handed : Set String}
variable {i : NodeId}
variable {p : Payload}
variable {ps : Properties}

theorem simulated_start
    {cs : List Tree}
    (hHanded : handed ⊆ context) :
    StageSimulated library lenient context handed
      (.node i .start p ps cs) := by
  intro names hNames
  refine ⟨.start, Layout.ofContext names, ?_, ?_, ?_⟩
  · simp only [Compile.stage]
    rfl
  · refine Layout.Extends.of_names [] rfl
      (by simp [Layout.ofContext]) (by simp) ?_ ?_
    · exact fun name hName =>
        .inl (hNames name (hHanded hName))
    · simp [visible]
  · intro row env hAgrees
    rw [rows, Operator.rows?_start]
    exact .value (.cons (hAgrees.mono hHanded) .nil)

/- The slot of a variable that a stage checks. -/
theorem simulated_check
    {layout : Layout}
    (hLayout : ∀ name ∈ read, name ∈ layout.names)
    (hCheck : ∀ name,
      ps.var? Properties.check = some name → name ∈ read) :
    ∃ check, Compile.checkedSlot layout ps = .ok check ∧
      ∀ row env, layout.Agrees read row env →
        Operator.disabled? check row = env.disabled? ps := by
  unfold Compile.checkedSlot Env.disabled?
  cases hName : ps.var? Properties.check with
  | none => exact ⟨none, rfl, fun _ _ _ => rfl⟩
  | some name =>
      have hMem := hCheck name hName
      cases hSlot : layout.slot? name with
      | none =>
          exact (Layout.slot?_eq_none_iff.mp hSlot
            (hLayout name hMem)).elim
      | some index =>
          refine ⟨some ⟨name, index⟩, ?_,
            fun row env hAgrees => ?_⟩
          · simp only [Compile.slotFor, hSlot]
            rfl
          · rw [Operator.disabled?,
              hAgrees.getElem? hMem hSlot]

theorem simulated_forBind
    {input source : Tree}
    {rest : List Tree}
    {var : String}
    (hInput : StageSimulated library lenient context read input)
    (hSource : (input :: rest).getLast? = some source)
    (hReads : ExprSimulated library lenient read source)
    (hCheck : ∀ name,
      ps.var? Properties.check = some name → name ∈ read)
    (hVar : binding?
      (.node i .forBind p ps (input :: rest)) = some var)
    (hHanded : ∀ name ∈ handed,
      name ∉ bound (.node i .forBind p ps (input :: rest)) →
        name ∈ read) :
    StageSimulated library lenient context handed
      (.node i .forBind p ps (input :: rest)) := by
  intro names hNames
  let position :=
    position? (.node i .forBind p ps (input :: rest))
  have hBound :
      bound (.node i .forBind p ps (input :: rest)) =
        var :: position.toList := by
    simp [bound, kind, hVar, position]
  rw [hBound] at hHanded
  rcases hInput names hNames with
    ⟨op, layout, hStage, hExtends, hRows⟩
  rcases hReads layout hExtends.held with
    ⟨e, hCompile, hValue⟩
  rcases simulated_check hExtends.held hCheck with
    ⟨check, hCompileCheck, hDisabled⟩
  refine ⟨.forBind op var position e check,
    layout.pushAll (var :: position.toList), ?_, ?_, ?_⟩
  · have hLast :
        Compile.lastExpr library .forWithoutSource
          (input :: rest) layout = .ok e :=
      (Compile.lastExpr_eq_ok_iff library).mpr
        ⟨source, hSource, hCompile⟩
    simp only [Compile.stage, Compile.stageHead, hStage]
    simp only [bind, Except.bind, hLast, hCompileCheck,
      hVar]
    rfl
  · have hVisible :
        visible (.node i .forBind p ps (input :: rest)) =
          input.visible ++ var :: position.toList := by
      simp [visible, visibleHead, hBound]
    rw [hVisible]
    exact hExtends.pushAll hHanded
  · intro row env hAgrees
    rw [rows, Operator.rows?_forBind]
    simp only [headRows, hVar, Option.bind_eq_bind,
      Option.bind_some]
    refine (hRows row env hAgrees).bind ?_
    intro envs inputs hAll
    rw [Option.map_eq_bind]
    refine Refines.bind (Refines.mapM (S :=
      RowsAgree (layout.pushAll (var :: position.toList))
        handed) hAll ?_) ?_
    · intro env row hAgrees
      rw [hDisabled row env hAgrees]
      refine (Refines.refl (env.disabled? ps)).bind ?_
      rintro skipped _ rfl
      cases skipped with
      | true =>
          exact .value (.cons
            (hAgrees.bindFor hHanded [] []) .nil)
      | false =>
          rw [if_neg (by simp), if_neg (by simp),
            lastValue_eq, hSource, Option.bind_some,
            Option.map_eq_bind]
          refine (hValue row env hAgrees).bind ?_
          rintro items _ rfl
          refine .value ?_
          rw [RowsAgree, Env.bindItems, bindItems,
            List.forall₂_map_left_iff,
            List.forall₂_map_right_iff, List.forall₂_same]
          intro entry _
          exact hAgrees.bindFor hHanded _ _
    · intro envss rowss hLists
      exact .value (List.rel_flatten hLists)

/- The binding of a `let` or a `count` comes last. -/
theorem extends_push
    {layout : Layout}
    {names bindings : List String}
    (hExtends : layout.Extends names bindings read)
    {var : String}
    (hHanded : ∀ name ∈ handed,
      name ≠ var → name ∈ read) :
    (layout.push var).Extends names (bindings ++ [var])
      handed := by
  have hOther (name : String) (hName : name ∈ handed)
      (hNew : name ∉ [var]) : name ∈ read :=
    hHanded name hName (by simpa using hNew)
  exact hExtends.pushAll hOther

theorem visible_letBind
    {input : Tree}
    {rest : List Tree}
    {var : String}
    (hVar : binding?
      (.node i .letBind p ps (input :: rest)) = some var) :
    visible (.node i .letBind p ps (input :: rest)) =
      input.visible ++ [var] := by
  simp [visible, visibleHead, bound, kind, hVar]

theorem simulated_letBind
    {input bindingValue : Tree}
    {rest : List Tree}
    {var : String}
    (hInput : StageSimulated library lenient context read input)
    (hVar : binding?
      (.node i .letBind p ps (input :: rest)) = some var)
    (hLive : Compile.isLive ps var)
    (hValue : (input :: rest)[2]? = some bindingValue)
    (hReads : ExprSimulated library lenient read bindingValue)
    (hCheck : ∀ name,
      ps.var? Properties.check = some name → name ∈ read)
    (hHanded : ∀ name ∈ handed,
      name ≠ var → name ∈ read) :
    StageSimulated library lenient context handed
      (.node i .letBind p ps (input :: rest)) := by
  intro names hNames
  rcases hInput names hNames with
    ⟨op, layout, hStage, hExtends, hRows⟩
  rcases simulated_operand hExtends.held hValue hReads
    .letBind i 2 with ⟨e, hCompile, hOperand⟩
  rcases simulated_check hExtends.held hCheck with
    ⟨check, hCompileCheck, hDisabled⟩
  refine ⟨.letBind op var (some e) check, layout.push var,
    ?_, ?_, ?_⟩
  · simp only [Compile.stage, Compile.stageHead, hStage]
    simp only [bind, Except.bind, hVar, Compile.require,
      hLive, if_true, hCompile, hCompileCheck]
    rfl
  · rw [visible_letBind hVar]
    exact extends_push hExtends hHanded
  · intro row env hAgrees
    rw [rows, Operator.rows?_letBind]
    simp only [headRows, hVar, Option.bind_eq_bind,
      Option.bind_some]
    refine (hRows row env hAgrees).bind ?_
    intro envs inputs hAll
    refine Refines.mapM hAll ?_
    intro env row hAgrees
    have hWanted (name : String) (hName : name ∈ handed) :
        name = var ∨ name ∈ read := by
      by_cases hEq : name = var
      · exact .inl hEq
      · exact .inr (hHanded name hName hEq)
    rw [Operator.binding?, hDisabled row env hAgrees,
      Option.map_eq_bind, Option.bind_assoc]
    refine (Refines.refl (env.disabled? ps)).bind ?_
    rintro skipped _ rfl
    cases skipped with
    | true => exact .value (hAgrees.push hWanted [])
    | false =>
        refine (hOperand row env hAgrees).bind ?_
        rintro s _ rfl
        exact .value (hAgrees.push hWanted s)

/- Rows and environments with one more binding each. -/
theorem rowsAgree_of_dead
    {layout : Layout}
    {envs : List Env}
    {inputs : List Row}
    (hAll : RowsAgree layout read envs inputs)
    {var : String}
    (hUnread : var ∉ handed)
    (hHanded : ∀ name ∈ handed, name ∈ read)
    {f : Env → Option Env}
    (hBinds : ∀ env extended, f env = some extended →
      ∃ s, extended = env.bind var s)
    (hLenient : lenient) :
    Refines lenient (RowsAgree (layout.push var) handed)
      (envs.mapM f)
      (inputs.mapM (fun row => some (row ++ [[]]))) := by
  refine Refines.mapM hAll ?_
  intro env row hAgrees
  cases hBind : f env with
  | none => exact .of_lenient hLenient _
  | some extended =>
      rcases hBinds env extended hBind with ⟨s, rfl⟩
      refine .value ?_
      refine (hAgrees.mono hHanded).pushAll rfl ?_ ?_
      · intro name hName hMem
        rw [List.mem_singleton] at hMem
        exact (hUnread (hMem ▸ hName)).elim
      · intro name hName hMem
        rw [List.mem_singleton] at hMem
        rw [Env.bind_apply, if_neg hMem]
        exact ⟨hName, rfl⟩

theorem simulated_deadLet
    {input : Tree}
    {rest : List Tree}
    {var : String}
    (hInput : StageSimulated library lenient context read input)
    (hVar : binding?
      (.node i .letBind p ps (input :: rest)) = some var)
    (hDead : ¬Compile.isLive ps var)
    (hLenient : lenient)
    (hUnread : var ∉ handed)
    (hHanded : ∀ name ∈ handed, name ∈ read) :
    StageSimulated library lenient context handed
      (.node i .letBind p ps (input :: rest)) := by
  intro names hNames
  rcases hInput names hNames with
    ⟨op, layout, hStage, hExtends, hRows⟩
  refine ⟨.letBind op var none none, layout.push var,
    ?_, ?_, ?_⟩
  · simp only [Compile.stage, Compile.stageHead, hStage]
    simp only [bind, Except.bind, hVar, Compile.require,
      hDead, Bool.false_eq_true, if_false]
    rfl
  · rw [visible_letBind hVar]
    exact extends_push hExtends
      (fun name hName _ => hHanded name hName)
  · intro row env hAgrees
    rw [rows, Operator.rows?_letBind]
    simp only [headRows, hVar, Option.bind_eq_bind,
      Option.bind_some]
    refine (hRows row env hAgrees).bind ?_
    intro envs inputs hAll
    refine rowsAgree_of_dead hAll hUnread hHanded ?_ hLenient
    intro env extended hBind
    rw [Option.bind_eq_some_iff] at hBind
    rcases hBind with ⟨skipped, _, hBind⟩
    cases skipped with
    | true => exact ⟨[], (Option.some.inj hBind).symm⟩
    | false =>
        simp only [Bool.false_eq_true, if_false] at hBind
        rw [Option.bind_eq_some_iff] at hBind
        rcases hBind with ⟨s, _, hBind⟩
        exact ⟨s, (Option.some.inj hBind).symm⟩

theorem simulated_count
    {input : Tree}
    {rest : List Tree}
    {var : String}
    (hInput : StageSimulated library lenient context read input)
    (hVar : binding?
      (.node i .count p ps (input :: rest)) = some var)
    (hHanded : ∀ name ∈ handed,
      name ≠ var → name ∈ read) :
    StageSimulated library lenient context handed
      (.node i .count p ps (input :: rest)) := by
  intro names hNames
  rcases hInput names hNames with
    ⟨op, layout, hStage, hExtends, hRows⟩
  refine ⟨.count op var, layout.push var, ?_, ?_, ?_⟩
  · simp only [Compile.stage, Compile.stageHead, hStage]
    simp only [bind, Except.bind, hVar]
    rfl
  · have hVisible :
        visible (.node i .count p ps (input :: rest)) =
          input.visible ++ [var] := by
      simp [visible, visibleHead, bound, kind, hVar]
    rw [hVisible]
    exact extends_push hExtends hHanded
  · have hWanted (name : String) (hName : name ∈ handed) :
        name = var ∨ name ∈ read := by
      by_cases hEq : name = var
      · exact .inl hEq
      · exact .inr (hHanded name hName hEq)
    intro row env hAgrees
    rw [rows, Operator.rows?_count]
    simp only [headRows, hVar, Option.bind_eq_bind,
      Option.bind_some]
    rw [Option.map_eq_bind]
    refine (hRows row env hAgrees).bind ?_
    intro envs inputs hAll
    refine .value ?_
    -- The numbers of both start from one.
    unfold Env.numbered
    generalize 1 = n
    induction hAll generalizing n with
    | nil => exact .nil
    | cons hHead _ ih =>
        exact .cons (hHead.push hWanted _) (ih (n + 1))

theorem simulated_selection
    {input predicate : Tree}
    {rest : List Tree}
    (hInput : StageSimulated library lenient context read input)
    (hPredicate : (input :: rest)[1]? = some predicate)
    (hReads : ExprSimulated library lenient read predicate)
    (hHanded : handed ⊆ read) :
    StageSimulated library lenient context handed
      (.node i .selection p ps (input :: rest)) := by
  intro names hNames
  rcases hInput names hNames with
    ⟨op, layout, hStage, hExtends, hRows⟩
  rcases simulated_operand hExtends.held hPredicate hReads
    .selection i 1 with ⟨e, hCompile, hOperand⟩
  refine ⟨.select op e, layout, ?_, ?_, ?_⟩
  · simp only [Compile.stage, Compile.stageHead, hStage]
    simp only [bind, Except.bind, hCompile]
    rfl
  · have hVisible :
        visible (.node i .selection p ps (input :: rest)) =
          input.visible := by
      simp [visible, visibleHead, bound, kind]
    rw [hVisible]
    exact hExtends.mono hHanded
  · intro row env hAgrees
    rw [rows, Operator.rows?_select]
    simp only [headRows, Option.bind_eq_bind]
    refine (hRows row env hAgrees).bind ?_
    intro envs inputs hAll
    rw [Option.map_eq_bind]
    refine Refines.bind (Refines.mapM
      (S := RowsAgree layout handed) hAll ?_) ?_
    · intro env row hAgrees
      rw [Operator.holds?, Option.map_eq_bind,
        Option.bind_assoc]
      refine (hOperand row env hAgrees).bind ?_
      rintro s _ rfl
      refine (Refines.refl s.truth?).bind ?_
      rintro holds _ rfl
      cases holds with
      | true => exact .value (.cons (hAgrees.mono hHanded) .nil)
      | false => exact .value .nil
    · intro envss rowss hLists
      exact .value (List.rel_flatten hLists)

end Tree

end Flwor

------------------------------------------------------------
-- Buffering Stages
------------------------------------------------------------

namespace Flwor

namespace Tree

variable {library : Library}
variable {lenient : Prop}
variable {context read handed : Set String}
variable {i : NodeId}
variable {p : Payload}
variable {ps : Properties}

/- Trimmed rows still agree on the names that are read. -/
theorem simulated_trim
    (lenient : Prop)
    {layout : Layout}
    {names bindings : List String}
    (hExtends : layout.Extends names bindings read)
    (hKeeps : ps.Keeps read bindings)
    (op : Operator) :
    ∃ trimmed shorter,
      Compile.trim ps op layout = (trimmed, shorter) ∧
        shorter.Extends names bindings read ∧
          ∀ outcome row,
            Refines lenient (RowsAgree layout read) outcome
                (op.rows? row) →
              Refines lenient (RowsAgree shorter read)
                outcome (trimmed.rows? row) := by
  unfold Compile.trim
  cases hProject : ps.vars? Properties.project with
  | none => exact ⟨op, layout, rfl, hExtends, fun _ _ h => h⟩
  | some kept =>
      dsimp only
      split
      · exact ⟨op, layout, rfl, hExtends, fun _ _ h => h⟩
      · have hWanted (name : String) (hName : name ∈ read)
            (hLocal : name ∈ layout.locals) : name ∈ kept :=
          hKeeps kept hProject name hName
            (hExtends.bound name hLocal)
        have hSlot (name : String) (hName : name ∈ read)
            (hLocal : name ∈ layout.locals) :
            name ∈ (Compile.keptSlots layout kept).map
              Slot.name := by
          rcases Layout.exists_mem_keptSlots
            hExtends.context_le hLocal
            (hWanted name hName hLocal) with
            ⟨slot, hMem, rfl⟩
          exact List.mem_map_of_mem hMem
        refine ⟨_, _, rfl, ?_, ?_⟩
        · refine Layout.Extends.of_names _ hExtends.context
            (Layout.names_select_keptSlots layout kept
              |>.trans (by rw [hExtends.contextNames]))
            ?_ ?_ ?_
          · intro name hName
            rcases List.mem_map.mp hName with
              ⟨slot, hMem, rfl⟩
            exact hExtends.bound _
              (Layout.mem_keptSlots hMem).2.1
          · intro name hName
            have hHeld := hExtends.held name hName
            rw [hExtends.names_eq, List.mem_append] at hHeld
            exact hHeld.imp_right (hSlot name hName)
          · intro name hName hBinding
            exact hSlot name hName
              (hExtends.heldLocal name hName hBinding)
        · intro outcome row hOutcome
          rw [Operator.rows?_project,
            ← Option.bind_fun_some outcome]
          refine hOutcome.bind ?_
          intro envs rows hAll
          have hSame (es : List Env) :
              some es = es.mapM some := by
            induction es with
            | nil => rfl
            | cons env rest ih =>
                rw [List.mapM_cons, ← ih]
                rfl
          rw [hSame]
          refine Refines.mapM hAll ?_
          intro env row hAgrees
          rcases hAgrees.projectRow hExtends.context_le
            hWanted with ⟨shorter, hRow, hShorter⟩
          rw [hRow]
          exact .value hShorter

/- The sort keys of order specs. -/
theorem simulated_sortKeys
    {layout : Layout}
    (hLayout : ∀ name ∈ read, name ∈ layout.names)
    {specs : List Tree}
    (hOrders : ∀ spec ∈ specs, spec.payload.order?.isSome)
    (hKeys : ∀ spec ∈ specs, ∀ key,
      spec.children[0]? = some key →
        ExprSimulated library lenient read key)
    (hPresent : ∀ spec ∈ specs, spec.children ≠ []) :
    ∃ keys,
      Compile.sortKeys library specs layout = .ok keys ∧
        specs.mapM (fun spec => spec.payload.order?) =
            some (keys.map SortKey.order) ∧
          ∀ row env, layout.Agrees read row env →
            Refines lenient Eq (sortValues library specs env)
              (Operator.sortKeys? keys row) := by
  induction specs with
  | nil =>
      refine ⟨[], ?_, rfl, fun row env _ => ?_⟩
      · rw [Compile.sortKeys]
        rfl
      · rw [sortValues]
        exact .refl _
  | cons spec rest ih =>
      rcases spec with ⟨j, k, q, qs, cs⟩
      rcases ih
        (fun s hS => hOrders s (by simp [hS]))
        (fun s hS => hKeys s (by simp [hS]))
        (fun s hS => hPresent s (by simp [hS])) with
        ⟨keys, hRest, hOrdersRest, hValuesRest⟩
      rcases Option.isSome_iff_exists.mp
        (hOrders _ List.mem_cons_self) with ⟨order, hOrder⟩
      have hChildren := hPresent _ List.mem_cons_self
      cases cs with
      | nil => exact (hChildren rfl).elim
      | cons key others =>
          have hKey : (key :: others)[0]? = some key := rfl
          rcases simulated_operand hLayout hKey
            (hKeys _ List.mem_cons_self key rfl) k j 0 with
            ⟨e, hCompile, hValue⟩
          refine ⟨.mk e order :: keys, ?_, ?_,
            fun row env hAgrees => ?_⟩
          · simp only [payload] at hOrder
            simp only [Compile.sortKeys, hOrder, hCompile]
            simp only [hRest]
            rfl
          · rw [List.mapM_cons, hOrder, hOrdersRest]
            rfl
          · rw [sortValues, Operator.sortKeys?,
              SortKey.evalAll]
            simp only [Answer.value?_bind,
              value?_atMostOne, Answer.value?_pure]
            refine (hValue row env hAgrees).bind ?_
            rintro s _ rfl
            refine (Refines.refl s.atMostOne?).bind ?_
            rintro first _ rfl
            refine (hValuesRest row env hAgrees).bind ?_
            rintro more _ rfl
            exact .refl _

theorem simulated_orderBy
    {input : Tree}
    {specs : List Tree}
    (hInput : StageSimulated library lenient context read input)
    (hKeeps : input.properties.Keeps read input.visible)
    (hOrders : ∀ spec ∈ specs, spec.payload.order?.isSome)
    (hKeys : ∀ spec ∈ specs, ∀ key,
      spec.children[0]? = some key →
        ExprSimulated library lenient read key)
    (hPresent : ∀ spec ∈ specs, spec.children ≠ [])
    (hHanded : handed ⊆ read) :
    StageSimulated library lenient context handed
      (.node i .orderBy p ps (input :: specs)) := by
  intro names hNames
  rcases hInput names hNames with
    ⟨op, wider, hStage, hWider, hRowsWider⟩
  rcases simulated_trim lenient hWider hKeeps op
    with ⟨trimmed, layout, hTrim, hExtends, hTrimmed⟩
  rcases simulated_sortKeys hExtends.held hOrders hKeys
    hPresent with ⟨keys, hCompile, hOrder, hValues⟩
  refine ⟨.orderBy trimmed keys, layout, ?_, ?_, ?_⟩
  · simp only [Compile.stage, Compile.trimmedHead, hStage]
    simp only [bind, Except.bind, pure, Except.pure, hTrim,
      Compile.sortKeysTail, hCompile]
  · have hVisible :
        visible (.node i .orderBy p ps (input :: specs)) =
          input.visible := by
      simp [visible, visibleHead, bound, kind]
    rw [hVisible]
    exact hExtends.mono hHanded
  · intro row env hAgrees
    rw [rows, Operator.rows?_orderBy]
    simp only [headRows, List.drop_one, List.tail_cons,
      hOrder, Option.bind_eq_bind, Option.bind_some,
      tailSortValues]
    refine (hTrimmed _ _ (hRowsWider row env hAgrees)).bind ?_
    intro envs inputs hAll
    rw [Option.map_eq_bind]
    refine Refines.bind (Refines.mapM
      (S := fun x y =>
        x.1 = y.1 ∧ layout.Agrees read y.2 x.2) hAll ?_) ?_
    · intro env row hAgrees
      refine (hValues row env hAgrees).map ?_
      rintro values _ rfl
      exact ⟨rfl, hAgrees⟩
    · intro keyed rows hKeyed
      refine .value ?_
      have hSorted := forall₂_sortKeyed
        (R := fun env row => layout.Agrees read row env)
        (keys.map SortKey.order) hKeyed
      exact hSorted.imp (fun _ _ h => h.mono hHanded)

end Tree

end Flwor

------------------------------------------------------------
-- Groups
------------------------------------------------------------

namespace Flwor

namespace Tree

variable {library : Library}
variable {lenient : Prop}
variable {context read handed : Set String}
variable {i : NodeId}
variable {p : Payload}
variable {ps : Properties}

/- The slots of names that rows are asked for. -/
theorem simulated_slots
    {α : Type}
    {layout : Layout}
    (hLayout : ∀ name ∈ read, name ∈ layout.names)
    {slotOf : α → Except Failure Slot}
    (label source : α → String)
    (hSlotOf : ∀ a index,
      layout.slot? (source a) = some index →
        slotOf a = .ok ⟨label a, index⟩)
    (wanted : List α)
    (hWanted : ∀ a ∈ wanted, source a ∈ read) :
    ∃ slots,
      wanted.mapM slotOf = .ok slots ∧
        slots.map Slot.name = wanted.map label ∧
          ∀ row env, layout.Agrees read row env →
            (row.slots (slots.map Slot.index)).toOption =
              wanted.mapM (fun a => env (source a)) := by
  induction wanted with
  | nil => exact ⟨[], rfl, rfl, fun _ _ _ => rfl⟩
  | cons a rest ih =>
      rcases ih (fun b hB => hWanted b (by simp [hB])) with
        ⟨slots, hRest, hNames, hValues⟩
      have hRead := hWanted a (by simp)
      cases hSlot : layout.slot? (source a) with
      | none =>
          exact (Layout.slot?_eq_none_iff.mp hSlot
            (hLayout _ hRead)).elim
      | some index =>
          refine ⟨⟨label a, index⟩ :: slots, ?_, ?_,
            fun row env hAgrees => ?_⟩
          · rw [List.mapM_cons, hRest, hSlotOf a index hSlot]
            rfl
          · rw [List.map_cons, List.map_cons, hNames]
          · have hMore := hValues row env hAgrees
            rw [Row.slots, except_toOption_mapM] at hMore ⊢
            rw [List.map_cons, List.mapM_cons, hMore,
              List.mapM_cons, ← hAgrees.getElem? hRead hSlot,
              Row.slot]
            cases row[index]? <;> rfl

/- A row of a group agrees with what the group binds. -/
theorem agrees_group
    {names keys targets : List String}
    {group : GroupEntry}
    (hKeys : group.keys.length = keys.length)
    (hTargets : group.values.length = targets.length)
    {row : Row}
    {env : Env}
    (hAgrees : (Layout.ofContext names).Agrees context row env)
    (hHanded : ∀ name ∈ handed,
      name ∉ keys ++ targets → name ∈ context) :
    ((Layout.ofContext names).pushAll
        (keys ++ targets)).Agrees handed
      (row ++ group.keys ++ group.values)
      ((env.bindAll (keys.zip group.keys)).bindAll
        (targets.zip group.values)) := by
  rw [List.append_assoc]
  refine hAgrees.pushAll (by simp [hKeys, hTargets]) ?_ ?_
  · intro name _ hMem
    rw [Row.value?_append hKeys, Env.bindAll_zip _ hTargets,
      Env.bindAll_zip _ hKeys]
    by_cases hTarget : name ∈ targets
    · simp [hTarget]
    · have hKey : name ∈ keys := by
        simpa [hTarget] using hMem
      simp [hTarget, hKey]
  · intro name hName hNot
    have hBoth : name ∉ keys ∧ name ∉ targets := by
      simpa using hNot
    refine ⟨hHanded name hName hNot, ?_⟩
    rw [Env.bindAll_zip _ hTargets, if_neg hBoth.2,
      Env.bindAll_zip _ hKeys, if_neg hBoth.1]

theorem simulated_groupBy
    {input : Tree}
    {specs : List Tree}
    (hInput : StageSimulated library lenient context read input)
    (hKeys : ∀ name ∈ groupKeys
      (.node i .groupBy p ps (input :: specs)), name ∈ read)
    (hSources : ∀ aggregate ∈ groupAggregates
      (.node i .groupBy p ps (input :: specs)),
        aggregate.2 ∈ read)
    (hHanded : ∀ name ∈ handed,
      name ∉ bound (.node i .groupBy p ps (input :: specs)) →
        name ∈ context) :
    StageSimulated library lenient context handed
      (.node i .groupBy p ps (input :: specs)) := by
  intro names hNames
  rcases hInput names hNames with
    ⟨op, layout, hStage, hExtends, hRows⟩
  let keys := groupKeys
    (.node i .groupBy p ps (input :: specs))
  let aggregates := groupAggregates
    (.node i .groupBy p ps (input :: specs))
  let targets := aggregates.map Prod.fst
  have hBound :
      bound (.node i .groupBy p ps (input :: specs)) =
        keys ++ targets :=
    rfl
  rw [hBound] at hHanded
  have hSlotOfKey (name : String) (index : Nat)
      (hSlot : layout.slot? name = some index) :
      Compile.slotFor layout name = .ok ⟨name, index⟩ := by
    rw [Compile.slotFor, hSlot]
  have hSlotOfSource (a : String × String) (index : Nat)
      (hSlot : layout.slot? a.2 = some index) :
      (do
        let source ← Compile.slotFor layout a.2
        return Slot.mk a.1 source.index) =
          Except.ok ⟨a.1, index⟩ := by
    rw [Compile.slotFor, hSlot]
    rfl
  rcases simulated_slots hExtends.held (fun name => name)
    (fun name => name) hSlotOfKey keys hKeys with
    ⟨keySlots, hKeySlots, hKeyNames, hKeyValues⟩
  rcases simulated_slots hExtends.held Prod.fst Prod.snd
    hSlotOfSource aggregates hSources with
    ⟨slots, hSlots, hTargetNames, hTargetValues⟩
  have hLocals :
      (keySlots ++ slots).map Slot.name =
        keys ++ targets := by
    rw [List.map_append, hKeyNames, hTargetNames,
      List.map_id']
  refine ⟨.groupBy op keySlots slots,
    (Layout.ofContext names).pushAll (keys ++ targets),
    ?_, ?_, ?_⟩
  · have hLayout :
        layout.withLocals (keys ++ targets) =
          (Layout.ofContext names).pushAll
            (keys ++ targets) := by
      simp [Layout.withLocals, Layout.pushAll,
        Layout.ofContext, hExtends.contextNames,
        hExtends.context]
    simp only [Compile.stage, except_bind_eq_ok_iff,
      Compile.stageHead_eq_ok_iff]
    refine ⟨(op, layout), ⟨input, rfl, hStage⟩,
      keySlots, hKeySlots, slots, hSlots, ?_⟩
    rw [hLocals, hLayout]
    rfl
  · refine Layout.Extends.of_names (keys ++ targets)
      rfl rfl ?_ ?_ ?_
    · intro name hName
      simpa [visible, hBound] using hName
    · intro name hName
      by_cases hMem : name ∈ keys ++ targets
      · exact .inr hMem
      · exact .inl (hNames name (hHanded name hName hMem))
    · intro name _ hVisible
      simpa [visible, hBound] using hVisible
  · intro row env hAgrees
    rw [rows, Operator.rows?_groupBy]
    simp only [headRows, Option.bind_eq_bind]
    refine (hRows row env hAgrees).bind ?_
    intro envs inputs hAll
    -- The entries of both are the same.
    have hEntries : Refines lenient
        (List.Forall₂ (fun e f => e = f ∧
          e.keys.length = keys.length))
        (envs.mapM (fun env => do
          let ks ← keys.mapM env
          let vs ← aggregates.mapM (fun a => env a.2)
          return (⟨ks, vs⟩ : GroupEntry)))
        (inputs.mapM (fun row =>
          (GroupEntry.ofRow (keySlots.map Slot.index)
            (slots.map Slot.index) row).toOption)) := by
      refine Refines.mapM hAll ?_
      intro env row hAgrees
      have hKs := hKeyValues row env hAgrees
      have hVs := hTargetValues row env hAgrees
      rw [GroupEntry.ofRow, ← hKs, ← hVs]
      cases hSlotKeys :
          row.slots (keySlots.map Slot.index) with
      | error e => exact .failure
      | ok ks =>
          cases hSlotValues :
              row.slots (slots.map Slot.index) with
          | error e => exact .failure
          | ok vs =>
              refine .value ⟨rfl, ?_⟩
              rw [Row.slots, except_mapM_eq_ok_iff]
                at hSlotKeys
              have hWidth := congrArg List.length hKeyNames
              have hLength := hSlotKeys.length_eq
              simp only [List.length_map] at hWidth hLength
              rw [← hLength, hWidth]
    have hRowsOf :
        (groupRows row (keySlots.map Slot.index)
            (slots.map Slot.index) inputs).toOption =
          (inputs.mapM (fun row =>
            (GroupEntry.ofRow (keySlots.map Slot.index)
              (slots.map Slot.index) row).toOption)).bind
            (fun entries => some (groupEntries row
              aggregates.length entries)) := by
      have hWidth := congrArg List.length hTargetNames
      simp only [List.length_map] at hWidth
      rw [← except_toOption_mapM, groupRows,
        List.length_map, hWidth]
      cases inputs.mapM (GroupEntry.ofRow
          (keySlots.map Slot.index)
          (slots.map Slot.index)) <;> rfl
    rw [hRowsOf]
    refine hEntries.bind ?_
    intro entries others hSame
    have hEq : entries = others :=
      List.forall₂_eq_eq_eq ▸
        hSame.imp (fun _ _ h => h.1)
    subst hEq
    have hWidths : ∀ e ∈ entries,
        e.keys.length = keys.length := by
      rw [List.forall₂_same] at hSame
      exact fun e hMem => (hSame e hMem).2
    refine .value ?_
    rw [groupEntries_eq, RowsAgree,
      List.forall₂_map_left_iff, List.forall₂_map_right_iff,
      List.forall₂_same]
    intro group hMem
    rcases length_of_mem_mergeGroups hMem with
      ⟨hValuesLength, first, hFirst, hKeysEq⟩
    refine agrees_group ?_ ?_ hAgrees hHanded
    · rw [hKeysEq, hWidths first hFirst]
    · simp [hValuesLength, targets, aggregates]

end Tree

end Flwor

------------------------------------------------------------
-- Joins
------------------------------------------------------------

namespace Flwor

namespace Tree

variable {library : Library}
variable {lenient : Prop}
variable {context readLeft readRight handed : Set String}

/-
  A left row with the local slots of a right row, or with
  empty ones, agrees with the joined environment.
-/
theorem agrees_joined
    {names others : List String}
    {layout layoutRight : Layout}
    (hRight : layoutRight.Extends names others readRight)
    (hHandedLeft : ∀ name ∈ handed,
      name ∉ others → name ∈ readLeft)
    (hHandedRight : ∀ name ∈ handed,
      name ∈ others → name ∈ readRight)
    {left : Row}
    {env : Env}
    (hAgrees : layout.Agrees readLeft left env)
    {values : Row}
    (hLength : values.length = layoutRight.locals.length)
    (other : Env)
    (hValues : ∀ name ∈ readRight,
      name ∈ layoutRight.locals →
        values.value? layoutRight.locals name =
          other name) :
    (layout.pushAll layoutRight.locals).Agrees handed
      (left ++ values) (env.under others other) := by
  refine hAgrees.pushAll hLength ?_ ?_
  · intro name hName hLocal
    have hOther := hRight.bound name hLocal
    rw [hValues name (hHandedRight name hName hOther) hLocal,
      Env.under, if_pos hOther]
  · intro name hName hLocal
    have hOther : name ∉ others := fun hOther =>
      hLocal (hRight.heldLocal name
        (hHandedRight name hName hOther) hOther)
    rw [Env.under, if_neg hOther]
    exact ⟨hHandedLeft name hName hOther, rfl⟩

/- The local slots of a row agree on the local names. -/
theorem value?_drop
    {names bindings : List String}
    {layout : Layout}
    (hExtends : layout.Extends names bindings readRight)
    {row : Row}
    {env : Env}
    (hAgrees : layout.Agrees readRight row env)
    {name : String}
    (hName : name ∈ readRight)
    (hLocal : name ∈ layout.locals) :
    Row.value? (row.drop names.length) layout.locals name =
      env name := by
  have hLength : (row.take names.length).length =
      layout.contextNames.length := by
    have h := hExtends.context_le
    rw [hExtends.contextNames, List.length_take,
      hAgrees.length, ← hExtends.context]
    omega
  have hSplit := Row.value?_append hLength layout.locals
    (row.drop names.length) name
  rw [List.take_append_drop,
    Layout.contextNames_append_locals, if_pos hLocal,
    hAgrees.values name hName] at hSplit
  exact hSplit.symm

theorem length_drop
    {names bindings : List String}
    {layout : Layout}
    (hExtends : layout.Extends names bindings readRight)
    {row : Row}
    {env : Env}
    (hAgrees : layout.Agrees readRight row env) :
    (row.drop names.length).length =
      layout.locals.length := by
  rw [List.length_drop, hAgrees.length, Layout.locals,
    List.length_drop, hExtends.context]

theorem value?_replicate
    {names : List String}
    {name : String}
    (hMem : name ∈ names) :
    Row.value? (List.replicate names.length []) names name =
      some [] := by
  have hAll (ns : List String) :
      List.Forall₂ (fun _ value =>
        some ([] : Sequence) = some value) ns
        (List.replicate ns.length []) := by
    induction ns with
    | nil => exact .nil
    | cons first rest ih => exact .cons rfl ih
  exact Row.value?_of_forall₂ (hAll names) hMem

/- What one left row is joined to. -/
theorem simulated_joinRow
    {names others : List String}
    {layout layoutRight : Layout}
    (hRight : layoutRight.Extends names others readRight)
    (hHandedLeft : ∀ name ∈ handed,
      name ∉ others → name ∈ readLeft)
    (hHandedRight : ∀ name ∈ handed,
      name ∈ others → name ∈ readRight)
    {left : Row}
    {env : Env}
    (hAgrees : layout.Agrees readLeft left env)
    (comparison : Comparison)
    (leftJoin skipSort : Bool)
    {keys : List Sequence}
    {rights : List Row}
    (hLength : keys.length = rights.length)
    {keyed : List (Sequence × Env)}
    (hKeyed : List.Forall₂
      (fun x y => x.1 = y.1 ∧
        layoutRight.Agrees readRight y.2 x.2)
      keyed (keys.zip rights))
    (key : Sequence) :
    Refines lenient
      (RowsAgree (layout.pushAll layoutRight.locals) handed)
      ((comparison.found? skipSort key keyed).bind
        (fun found =>
          if found.isEmpty && leftJoin then
            some [env.padded others]
          else some (found.map (env.under others))))
      (((Probe.build (JoinStrategy.ofComparison comparison)
          keys).joinRow comparison leftJoin skipSort
        layoutRight.locals.length
        (rights.map (fun row =>
          row.drop names.length)).toArray
        left key).toOption) := by
  have hColumns :
      keys.zip (rights.map (fun row =>
          row.drop names.length)) =
        (keys.zip rights).map (fun e =>
          (e.1, e.2.drop names.length)) := by
    rw [List.zip_map_right]
    rfl
  rw [Probe.joinRow_build _ _ _ _ _ _ (by simpa using hLength),
    hColumns, Comparison.found?_map, Option.map_map,
    Option.map_eq_bind]
  refine (refines_found? (R := fun env row =>
    layoutRight.Agrees readRight row env) comparison skipSort
    key hKeyed).bind ?_
  intro found rows hFound
  have hEmpty : rows.isEmpty = found.isEmpty := by
    cases hFound <;> rfl
  simp only [Function.comp_apply, List.isEmpty_map, hEmpty]
  by_cases hPadded : (found.isEmpty && leftJoin) = true
  · rw [if_pos hPadded, if_pos hPadded]
    refine .value (.cons ?_ .nil)
    exact agrees_joined hRight hHandedLeft hHandedRight
      hAgrees (by simp) (fun _ => some [])
      (fun name _ hLocal => value?_replicate hLocal)
  · rw [if_neg hPadded, if_neg hPadded]
    refine .value ?_
    rw [RowsAgree, List.map_map, List.forall₂_map_left_iff,
      List.forall₂_map_right_iff]
    refine hFound.imp (fun other row hOther => ?_)
    exact agrees_joined hRight hHandedLeft hHandedRight
      hAgrees (length_drop hRight hOther) other
      (fun name hName hLocal =>
        value?_drop hRight hOther hName hLocal)

/- The right rows with their keys. -/
theorem simulated_keys
    {layout : Layout}
    {keys : List Tree}
    {e : Expr}
    (hValue : ∀ row env, layout.Agrees readRight row env →
      Refines lenient Eq (valueAt library 1 keys env)
        (e.value? row))
    {envs : List Env}
    {rows : List Row}
    (hRows : RowsAgree layout readRight envs rows) :
    Refines lenient
      (fun keyed values => values.length = rows.length ∧
        List.Forall₂ (fun x y => x.1 = y.1 ∧
            layout.Agrees readRight y.2 x.2)
          keyed (values.zip rows))
      (envs.mapM (fun env =>
        (valueAt library 1 keys env).map (fun key =>
          (key, env))))
      (Operator.keys? e rows) := by
  unfold Operator.keys?
  induction hRows with
  | nil => exact .value ⟨rfl, .nil⟩
  | @cons env row envs rows hHead _ ih =>
      rw [List.mapM_cons, List.mapM_cons,
        Option.map_eq_bind]
      simp only [Option.bind_eq_bind, Option.bind_assoc]
      refine (hValue row env hHead).bind ?_
      rintro key _ rfl
      refine ih.bind ?_
      rintro keyed values ⟨hLength, hAll⟩
      exact .value ⟨by simp [hLength],
        .cons ⟨rfl, hHead⟩ hAll⟩

/- The layout of a join: both inputs, the right one last. -/
theorem extends_join
    {names visibleLeft visibleRight : List String}
    {layoutLeft layoutRight : Layout}
    (hLeft :
      layoutLeft.Extends names visibleLeft readLeft)
    (hRight :
      layoutRight.Extends names visibleRight readRight)
    (hHandedLeft : ∀ name ∈ handed,
      name ∉ visibleRight → name ∈ readLeft)
    (hHandedRight : ∀ name ∈ handed,
      name ∈ visibleRight → name ∈ readRight) :
    (layoutLeft.pushAll layoutRight.locals).Extends names
      (visibleLeft ++ visibleRight) handed := by
  refine Layout.Extends.of_names
    (layoutLeft.locals ++ layoutRight.locals)
    hLeft.context ?_ ?_ ?_ ?_
  · rw [Layout.pushAll, hLeft.names_eq, List.append_assoc]
  · intro name hName
    rw [List.mem_append] at hName ⊢
    exact hName.imp (hLeft.bound name) (hRight.bound name)
  · intro name hName
    by_cases hOther : name ∈ visibleRight
    · have hLocal := hRight.heldLocal name
        (hHandedRight name hName hOther) hOther
      exact .inr (List.mem_append_right _ hLocal)
    · have hHeld := hLeft.held name
        (hHandedLeft name hName hOther)
      rw [hLeft.names_eq, List.mem_append] at hHeld
      exact hHeld.imp_right (List.mem_append_left _)
  · intro name hName hBinding
    by_cases hOther : name ∈ visibleRight
    · exact List.mem_append_right _ (hRight.heldLocal name
        (hHandedRight name hName hOther) hOther)
    · rw [List.mem_append] at hBinding
      exact List.mem_append_left _ (hLeft.heldLocal name
        (hHandedLeft name hName hOther)
        (hBinding.resolve_right hOther))

variable {i j : NodeId}
variable {k : Kind}
variable {p q : Payload}
variable {ps qs : Properties}

theorem simulated_join
    {left right leftKey rightKey : Tree}
    {keys : List Tree}
    (hLeft :
      StageSimulated library lenient context readLeft left)
    (hRight :
      StageSimulated library lenient context readRight right)
    (hKeepsLeft : left.properties.Keeps readLeft left.visible)
    (hKeepsRight :
      right.properties.Keeps readRight right.visible)
    (hComparison : q.comparison?.isSome)
    (hLeftKey : keys[0]? = some leftKey)
    (hRightKey : keys[1]? = some rightKey)
    (hReadsLeft :
      ExprSimulated library lenient readLeft leftKey)
    (hReadsRight :
      ExprSimulated library lenient readRight rightKey)
    (hHandedLeft : ∀ name ∈ handed,
      name ∉ right.visible → name ∈ readLeft)
    (hHandedRight : ∀ name ∈ handed,
      name ∈ right.visible → name ∈ readRight) :
    StageSimulated library lenient context handed
      (.node i .join p ps
        [left, .node j k q qs keys, right]) := by
  intro names hNames
  rcases Option.isSome_iff_exists.mp hComparison with
    ⟨comparison, hComparison⟩
  rcases hLeft names hNames with
    ⟨opLeft, wideLeft, hStageLeft, hWideLeft, hRowsLeft⟩
  rcases simulated_trim lenient hWideLeft hKeepsLeft
    opLeft with
    ⟨trimmedLeft, layoutLeft, hTrimLeft, hExtendsLeft,
      hTrimmedLeft⟩
  rcases hRight names hNames with
    ⟨opRight, wideRight, hStageRight, hWideRight,
      hRowsRight⟩
  rcases simulated_trim lenient hWideRight hKeepsRight
    opRight with
    ⟨trimmedRight, layoutRight, hTrimRight, hExtendsRight,
      hTrimmedRight⟩
  rcases simulated_operand hExtendsLeft.held hLeftKey
    hReadsLeft k j 0 with ⟨l, hCompileLeft, hValueLeft⟩
  rcases simulated_operand hExtendsRight.held hRightKey
    hReadsRight k j 1 with ⟨r, hCompileRight, hValueRight⟩
  refine ⟨.join trimmedLeft trimmedRight l r comparison
      (ps.flag Properties.leftJoin)
      (ps.flag Properties.skipSort) names.length
      layoutRight.locals.length,
    layoutLeft.pushAll layoutRight.locals, ?_, ?_, ?_⟩
  · simp only [Compile.stage, Compile.join, hComparison,
      hStageLeft, hStageRight]
    simp only [Compile.require, bind, Except.bind, pure,
      Except.pure, hTrimLeft, hTrimRight, hCompileLeft,
      hCompileRight]
    rfl
  · have hVisible :
        visible (.node i .join p ps
            [left, .node j k q qs keys, right]) =
          left.visible ++ right.visible := by
      simp [visible, visibleHead, visibleLast]
    rw [hVisible]
    exact extends_join hExtendsLeft hExtendsRight
      hHandedLeft hHandedRight
  · intro row env hAgrees
    rw [rows, Operator.rows?_join]
    simp only [joinRows, hComparison, Option.bind_eq_bind,
      Option.bind_some]
    refine (hTrimmedLeft _ _
      (hRowsLeft row env hAgrees)).bind ?_
    intro lefts leftRows hLefts
    refine (hTrimmedRight _ _
      (hRowsRight row env hAgrees)).bind ?_
    intro rights rightRows hRights
    refine (simulated_keys hValueRight hRights).bind ?_
    rintro keyed values ⟨hLength, hKeyed⟩
    rw [Option.map_eq_bind]
    refine Refines.bind (Refines.mapM (S :=
      RowsAgree (layoutLeft.pushAll layoutRight.locals)
        handed) hLefts ?_) ?_
    · intro env row hAgrees
      refine (hValueLeft row env hAgrees).bind ?_
      rintro key _ rfl
      exact simulated_joinRow hExtendsRight hHandedLeft
        hHandedRight hAgrees comparison _ _ hLength hKeyed
        key
    · intro envss rowss hLists
      exact .value (List.rel_flatten hLists)

end Tree

end Flwor

------------------------------------------------------------
-- Simulation
------------------------------------------------------------

namespace Flwor

namespace Tree

variable {library : Library}
variable {lenient : Prop}

mutual

/- An expression that reads some names only is simulated. -/
theorem ReadsFrom.simulated
    {names : Set String}
    {t : Tree}
    (hReads : ReadsFrom library lenient names t) :
    ExprSimulated library lenient names t := by
  match hReads with
  | .literal hItem => exact simulated_literal hItem
  | .emptySequence => exact simulated_emptySequence
  | .sequence hParts =>
      exact simulated_sequence (fun c hC =>
        (hParts c hC).simulated)
  | .binary hKind hLeft hRight hReadsLeft hReadsRight =>
      exact simulated_binary hKind hLeft hRight
        hReadsLeft.simulated hReadsRight.simulated
  | .cond hCondition hYes hNo hReadsCondition hReadsYes
      hReadsNo =>
      exact simulated_cond hCondition hYes hNo
        hReadsCondition.simulated hReadsYes.simulated
        hReadsNo.simulated
  | .call hName hFunction hArguments =>
      exact simulated_call hName hFunction (fun c hC =>
        (hArguments c hC).simulated)
  | .variableRef hName hMem =>
      exact simulated_variableRef hName hMem
  | .pipe hTail hResult =>
      exact simulated_pipe hTail.simulated hResult.simulated

/- A stage that supplies names is simulated. -/
theorem Supplies.simulated
    {context handed : Set String}
    {t : Tree}
    (hSupplies : Supplies library lenient context handed t) :
    StageSimulated library lenient context handed t := by
  match hSupplies with
  | .start hHanded => exact simulated_start hHanded
  | .forBind hInput hSource hReads hCheck hVar hHanded =>
      exact simulated_forBind hInput.simulated hSource
        hReads.simulated hCheck hVar hHanded
  | .letBind hInput hVar hLive hValue hReads hCheck
      hHanded =>
      exact simulated_letBind hInput.simulated hVar hLive
        hValue hReads.simulated hCheck hHanded
  | .deadLet hInput hVar hDead hLenient hUnread hHanded =>
      exact simulated_deadLet hInput.simulated hVar hDead
        hLenient hUnread hHanded
  | .selection hInput hPredicate hReads hHanded =>
      exact simulated_selection hInput.simulated hPredicate
        hReads.simulated hHanded
  | .orderBy hInput hKeeps hOrders hKeys hPresent hHanded =>
      exact simulated_orderBy hInput.simulated hKeeps
        hOrders (fun spec hSpec key hKey =>
          (hKeys spec hSpec key hKey).simulated)
        hPresent hHanded
  | .groupBy hInput hKeys hSources hHanded =>
      exact simulated_groupBy hInput.simulated hKeys
        hSources hHanded
  | .count hInput hVar hHanded =>
      exact simulated_count hInput.simulated hVar hHanded
  | .join hLeft hRight hKeepsLeft hKeepsRight hComparison
      hLeftKey hRightKey hReadsLeft hReadsRight hHandedLeft
      hHandedRight =>
      exact simulated_join hLeft.simulated hRight.simulated
        hKeepsLeft hKeepsRight hComparison hLeftKey
        hRightKey hReadsLeft.simulated
        hReadsRight.simulated hHandedLeft hHandedRight

end

end Tree

end Flwor
