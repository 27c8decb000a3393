import Flwor.Proofs.Shapes
import Flwor.Proofs.Simulation
import Flwor.Query

/-
  Compilation is correct: the value of a compiled query is
  the meaning of its plan tree.

  A tree that compiles follows the scoping rules for all the
  names of its layout, as long as nothing is projected, and
  so the simulation applies to every name.

  Key definitions include:
    * `Tree.Lacks`
    * `Env.ofBindings`

  Key theorems include:
    * `Tree.scoped_of_compiled`
    * `Query.evaluate_eq_value`
-/

------------------------------------------------------------
-- Trees Without an Annotation
------------------------------------------------------------

namespace Flwor

namespace Tree

/- No node of a tree has an annotation. -/
def Lacks
    (key : String)
    (t : Tree) : Prop :=
  ∀ s ∈ t.subtrees, s.properties.get? key = none

instance
    (key : String)
    (t : Tree) :
    Decidable (t.Lacks key) :=
  inferInstanceAs (Decidable (∀ s ∈ t.subtrees,
    s.properties.get? key = none))

theorem Lacks.child
    {key : String}
    {t c : Tree}
    (hLacks : t.Lacks key)
    (hChild : c ∈ t.children) :
    c.Lacks key :=
  fun s hMem => hLacks s (mem_subtrees_of_child hChild hMem)

theorem Lacks.subtree
    {key : String}
    {t s : Tree}
    (hLacks : t.Lacks key)
    (hS : s ∈ t.subtrees) :
    s.Lacks key :=
  fun r hR => hLacks r (mem_subtrees_trans hR hS)

/- Without the annotation everything is kept. -/
theorem Lacks.keeps
    {t : Tree}
    (hLacks : t.Lacks Properties.project)
    (wanted : Set String)
    (bindings : List String) :
    t.properties.Keeps wanted bindings := by
  intro names hNames
  rw [Properties.vars?, hLacks t (mem_subtrees_self t)]
    at hNames
  cases hNames

/- Without the annotation every `let` is live. -/
theorem Lacks.isLive
    {t : Tree}
    (hLacks : t.Lacks Properties.project)
    (name : String) :
    Compile.isLive t.properties name = true := by
  rw [Compile.isLive, Properties.vars?,
    hLacks t (mem_subtrees_self t)]

end Tree

end Flwor

------------------------------------------------------------
-- Scopes of Compiled Trees
------------------------------------------------------------

namespace Flwor

namespace Tree

variable (library : Library)

/- What a compiled expression says about its names. -/
def ExprScoped
    (t : Tree) : Prop :=
  ∀ layout e,
    Compile.expr library t layout = .ok e →
      ReadsFrom library False {n | n ∈ layout.names} t

/- What a compiled stage says about its names. -/
def StageScoped
    (t : Tree) : Prop :=
  ∀ names op layout,
    Compile.stage library t (Layout.ofContext names) =
        .ok (op, layout) →
      layout = (Layout.ofContext names).pushAll t.visible ∧
        Supplies library False {n | n ∈ names}
          {n | n ∈ layout.names} t

variable {library : Library}
variable {i : NodeId}
variable {k : Kind}
variable {p : Payload}
variable {ps : Properties}
variable {cs : List Tree}

/- Operands that were compiled. -/
theorem exprScoped_binary
    (hKind : Binary k p)
    (hCs : ∀ c ∈ cs, ExprScoped library c)
    {layout : Layout}
    {kind kind' : Kind}
    {place place' : Nat}
    {l r : Expr}
    (hLeft : Compile.operand library kind i place 0 cs
      layout = .ok l)
    (hRight : Compile.operand library kind' i place' 1 cs
      layout = .ok r) :
    ReadsFrom library False {n | n ∈ layout.names}
      (.node i k p ps cs) := by
  rw [Compile.operand_eq_ok_iff] at hLeft hRight
  rcases hLeft with ⟨left, hLeft, hCompileLeft⟩
  rcases hRight with ⟨right, hRight, hCompileRight⟩
  exact .binary hKind hLeft hRight
    (hCs left (List.mem_of_getElem? hLeft) layout l
      hCompileLeft)
    (hCs right (List.mem_of_getElem? hRight) layout r
      hCompileRight)

/- Expressions that were compiled one by one. -/
theorem readsFrom_of_exprs
    (hCs : ∀ c ∈ cs, ExprScoped library c)
    {layout : Layout}
    {es : List Expr}
    (hCompile : Compile.exprs library cs layout = .ok es) :
    ∀ c ∈ cs, ReadsFrom library False
      {n | n ∈ layout.names} c := by
  rw [Compile.exprs_eq_ok_iff] at hCompile
  intro c hC
  rcases List.forall₂_iff_get.mp hCompile with
    ⟨hLength, hEach⟩
  rcases List.mem_iff_getElem.mp hC with ⟨n, hN, rfl⟩
  exact hCs _ hC layout _
    (hEach n hN (by omega))

theorem exprScoped_node
    (hCs : ∀ c ∈ cs, ExprScoped library c)
    (hPipe : k = .pipeExpr →
      ExprScoped library (.node i k p ps cs)) :
    ExprScoped library (.node i k p ps cs) := by
  intro layout e hCompile
  cases k
  case pipeExpr => exact hPipe rfl layout e hCompile
  case literal =>
    simp only [Compile.expr, except_bind_eq_ok_iff,
      Compile.require_eq_ok_iff] at hCompile
    rcases hCompile with ⟨item, hItem, _⟩
    exact .literal (by simp [hItem])
  case emptySequence => exact .emptySequence
  case sequenceExpr =>
    simp only [Compile.expr, except_bind_eq_ok_iff]
      at hCompile
    rcases hCompile with ⟨es, hExprs, _⟩
    exact .sequence (readsFrom_of_exprs hCs hExprs)
  case rangeExpr =>
    simp only [Compile.expr, except_bind_eq_ok_iff]
      at hCompile
    rcases hCompile with ⟨l, hLeft, r, hRight, _⟩
    exact exprScoped_binary (by simp [Binary]) hCs
      hLeft hRight
  case arithmeticExpr =>
    simp only [Compile.expr, except_bind_eq_ok_iff,
      Compile.require_eq_ok_iff] at hCompile
    rcases hCompile with ⟨op, hOp, l, hLeft, r, hRight, _⟩
    exact exprScoped_binary (by simp [Binary, hOp]) hCs
      hLeft hRight
  case comparisonExpr =>
    simp only [Compile.expr, except_bind_eq_ok_iff,
      Compile.require_eq_ok_iff] at hCompile
    rcases hCompile with ⟨c, hC, l, hLeft, r, hRight, _⟩
    exact exprScoped_binary (by simp [Binary, hC]) hCs
      hLeft hRight
  case andExpr =>
    simp only [Compile.expr, except_bind_eq_ok_iff]
      at hCompile
    rcases hCompile with ⟨l, hLeft, r, hRight, _⟩
    exact exprScoped_binary (by simp [Binary]) hCs
      hLeft hRight
  case orExpr =>
    simp only [Compile.expr, except_bind_eq_ok_iff]
      at hCompile
    rcases hCompile with ⟨l, hLeft, r, hRight, _⟩
    exact exprScoped_binary (by simp [Binary]) hCs
      hLeft hRight
  case ifExpr =>
    simp only [Compile.expr, except_bind_eq_ok_iff,
      Compile.operand_eq_ok_iff] at hCompile
    rcases hCompile with ⟨c, ⟨condition, hCondition, hC⟩,
      y, ⟨yes, hYes, hY⟩, n, ⟨no, hNo, hN⟩, _⟩
    exact .cond hCondition hYes hNo
      (hCs _ (List.mem_of_getElem? hCondition) _ _ hC)
      (hCs _ (List.mem_of_getElem? hYes) _ _ hY)
      (hCs _ (List.mem_of_getElem? hNo) _ _ hN)
  case functionCall =>
    simp only [Compile.expr, except_bind_eq_ok_iff,
      Compile.require_eq_ok_iff,
      except_mapError_eq_ok_iff] at hCompile
    rcases hCompile with ⟨name, hName, es, hExprs, f,
      hFunction, _⟩
    have hLength : es.length = cs.length :=
      ((Compile.exprs_eq_ok_iff library).mp
        hExprs).length_eq.symm
    rw [hLength] at hFunction
    exact .call hName hFunction
      (readsFrom_of_exprs hCs hExprs)
  case variableRef =>
    simp only [Compile.expr, except_bind_eq_ok_iff,
      Compile.require_eq_ok_iff,
      Compile.slotFor_eq_ok_iff] at hCompile
    rcases hCompile with ⟨name, hName, slot,
      ⟨index, hSlot, _⟩, _⟩
    refine .variableRef hName ?_
    by_contra hNot
    rw [Set.mem_ofPred_eq, ← Layout.slot?_eq_none_iff]
      at hNot
    rw [hNot] at hSlot
    cases hSlot
  all_goals
    simp only [Compile.expr] at hCompile
    cases hCompile

/- A stage whose input was compiled. -/
theorem stageScoped_input
    (hCs : ∀ c ∈ cs, StageScoped library c)
    {names : List String}
    {kind : Kind}
    {op : Operator}
    {layout : Layout}
    (hHead : Compile.stageHead library kind i cs
      (Layout.ofContext names) = .ok (op, layout)) :
    ∃ input rest, cs = input :: rest ∧
      layout =
          (Layout.ofContext names).pushAll input.visible ∧
        Supplies library False {n | n ∈ names}
          {n | n ∈ layout.names} input := by
  rw [Compile.stageHead_eq_ok_iff] at hHead
  rcases hHead with ⟨input, hInput, hStage⟩
  rcases cs with _ | ⟨first, rest⟩
  · cases hInput
  · cases hInput
    exact ⟨input, rest, rfl,
      hCs input (by simp) names op layout hStage⟩

theorem mem_names_of_checked
    {layout : Layout}
    {check : Option Slot}
    (hCheck : Compile.checkedSlot layout ps = .ok check)
    {name : String}
    (hName : ps.var? Properties.check = some name) :
    name ∈ layout.names := by
  rw [Compile.checkedSlot] at hCheck
  simp only [hName, except_map_eq_ok_iff,
    Compile.slotFor_eq_ok_iff] at hCheck
  rcases hCheck with ⟨slot, ⟨index, hSlot, _⟩, _⟩
  by_contra hNot
  rw [← Layout.slot?_eq_none_iff, hSlot] at hNot
  cases hNot

/- Names whose slots were found are names of the layout. -/
theorem mem_names_of_slotFor
    {α : Type}
    {layout : Layout}
    (source : α → String)
    {slotOf : α → Except Failure Slot}
    (hSlotOf : ∀ a slot, slotOf a = .ok slot →
      source a ∈ layout.names)
    {wanted : List α}
    {slots : List Slot}
    (hSlots : wanted.mapM slotOf = .ok slots) :
    ∀ a ∈ wanted, source a ∈ layout.names := by
  rw [except_mapM_eq_ok_iff] at hSlots
  intro a hA
  rcases List.forall₂_iff_get.mp hSlots with
    ⟨hLength, hEach⟩
  rcases List.mem_iff_getElem.mp hA with ⟨n, hN, rfl⟩
  exact hSlotOf _ _ (hEach n hN (by omega))

/- The names under which slots were found. -/
theorem names_of_slotFor
    {α : Type}
    (label : α → String)
    {slotOf : α → Except Failure Slot}
    (hSlotOf : ∀ a slot, slotOf a = .ok slot →
      slot.name = label a)
    {wanted : List α}
    {slots : List Slot}
    (hSlots : wanted.mapM slotOf = .ok slots) :
    slots.map Slot.name = wanted.map label := by
  rw [except_mapM_eq_ok_iff] at hSlots
  induction hSlots with
  | nil => rfl
  | cons hHead _ ih =>
      rw [List.map_cons, List.map_cons, ih,
        hSlotOf _ _ hHead]

theorem mem_names_of_slot
    {layout : Layout}
    {name : String}
    {slot : Slot}
    (hSlot : Compile.slotFor layout name = .ok slot) :
    name ∈ layout.names := by
  rw [Compile.slotFor_eq_ok_iff] at hSlot
  rcases hSlot with ⟨index, hSlot, _⟩
  by_contra hNot
  rw [← Layout.slot?_eq_none_iff, hSlot] at hNot
  cases hNot

theorem stageScoped_forBind
    (hExprs : ∀ c ∈ cs, ExprScoped library c)
    (hStages : ∀ c ∈ cs, StageScoped library c) :
    StageScoped library (.node i .forBind p ps cs) := by
  intro names op layout hCompile
  simp only [Compile.stage, except_bind_eq_ok_iff,
    Compile.require_eq_ok_iff] at hCompile
  rcases hCompile with ⟨⟨op, layout⟩, hHead, source, hLast,
    check, hCheck, var, hVar, hEq⟩
  rcases stageScoped_input hStages hHead with
    ⟨input, rest, rfl, hLayout, hInput⟩
  cases hEq
  rw [Compile.lastExpr_eq_ok_iff] at hLast
  rcases hLast with ⟨t, hSource, hExpr⟩
  have hBound :
      bound (.node i .forBind p ps (input :: rest)) =
        var :: (position?
          (.node i .forBind p ps (input :: rest))).toList := by
    simp [bound, kind, hVar]
  refine ⟨?_, ?_⟩
  · rw [hLayout]
    simp [Layout.pushAll, visible, visibleHead, hBound]
  · refine .forBind hInput hSource
      (hExprs t (List.mem_of_getLast? hSource) _ _ hExpr)
      (fun name hName => mem_names_of_checked hCheck hName)
      hVar (fun name hName hNot => ?_)
    rw [hBound] at hNot
    rw [Set.mem_ofPred_eq, Layout.pushAll,
      List.mem_append] at hName
    exact hName.resolve_right hNot

theorem stageScoped_letBind
    (hLive : ∀ name, Compile.isLive ps name = true)
    (hExprs : ∀ c ∈ cs, ExprScoped library c)
    (hStages : ∀ c ∈ cs, StageScoped library c) :
    StageScoped library (.node i .letBind p ps cs) := by
  intro names op layout hCompile
  simp only [Compile.stage, except_bind_eq_ok_iff,
    Compile.require_eq_ok_iff, hLive, if_true,
    Compile.operand_eq_ok_iff] at hCompile
  rcases hCompile with ⟨⟨op, layout⟩, hHead, var, hVar,
    e, ⟨t, hValue, hExpr⟩, check, hCheck, hEq⟩
  rcases stageScoped_input hStages hHead with
    ⟨input, rest, rfl, hLayout, hInput⟩
  cases hEq
  refine ⟨?_, ?_⟩
  · rw [hLayout, visible_letBind hVar]
    simp [Layout.pushAll, Layout.push]
  · refine .letBind hInput hVar (hLive var) hValue
      (hExprs t (List.mem_of_getElem? hValue) _ _ hExpr)
      (fun name hName => mem_names_of_checked hCheck hName)
      (fun name hName hNot => ?_)
    rw [Set.mem_ofPred_eq, Layout.push, List.mem_append,
      List.mem_singleton] at hName
    exact hName.resolve_right hNot

theorem stageScoped_selection
    (hExprs : ∀ c ∈ cs, ExprScoped library c)
    (hStages : ∀ c ∈ cs, StageScoped library c) :
    StageScoped library (.node i .selection p ps cs) := by
  intro names op layout hCompile
  simp only [Compile.stage, except_bind_eq_ok_iff,
    Compile.operand_eq_ok_iff] at hCompile
  rcases hCompile with ⟨⟨op, layout⟩, hHead,
    e, ⟨t, hPredicate, hExpr⟩, hEq⟩
  rcases stageScoped_input hStages hHead with
    ⟨input, rest, rfl, hLayout, hInput⟩
  cases hEq
  refine ⟨?_, ?_⟩
  · rw [hLayout]
    simp [visible, visibleHead, bound, kind]
  · exact .selection hInput hPredicate
      (hExprs t (List.mem_of_getElem? hPredicate) _ _ hExpr)
      (fun _ hName => hName)

theorem stageScoped_count
    (hStages : ∀ c ∈ cs, StageScoped library c) :
    StageScoped library (.node i .count p ps cs) := by
  intro names op layout hCompile
  simp only [Compile.stage, except_bind_eq_ok_iff,
    Compile.require_eq_ok_iff] at hCompile
  rcases hCompile with ⟨⟨op, layout⟩, hHead, var, hVar, hEq⟩
  rcases stageScoped_input hStages hHead with
    ⟨input, rest, rfl, hLayout, hInput⟩
  cases hEq
  refine ⟨?_, ?_⟩
  · rw [hLayout]
    simp [Layout.pushAll, Layout.push, visible, visibleHead,
      bound, kind, hVar]
  · refine .count hInput hVar (fun name hName hNot => ?_)
    rw [Set.mem_ofPred_eq, Layout.push, List.mem_append,
      List.mem_singleton] at hName
    exact hName.resolve_right hNot

theorem stageScoped_groupBy
    (hStages : ∀ c ∈ cs, StageScoped library c) :
    StageScoped library (.node i .groupBy p ps cs) := by
  intro names op layout hCompile
  simp only [Compile.stage, except_bind_eq_ok_iff]
    at hCompile
  rcases hCompile with ⟨⟨op, layout⟩, hHead, keys, hKeys,
    slots, hSlots, hEq⟩
  have hNames : (keys ++ slots).map Slot.name =
      bound (.node i .groupBy p ps cs) := by
    have hKeyNames := names_of_slotFor
      (fun name => name) ?_ hKeys
    have hTargets := names_of_slotFor Prod.fst ?_ hSlots
    · rw [List.map_append, hKeyNames, hTargets, List.map_id']
      rfl
    · intro a slot hSlot
      rw [except_bind_eq_ok_iff] at hSlot
      rcases hSlot with ⟨source, _, hSlot⟩
      cases hSlot
      rfl
    · intro name slot hSlot
      rw [Compile.slotFor_eq_ok_iff] at hSlot
      rcases hSlot with ⟨index, _, rfl⟩
      rfl
  rcases stageScoped_input hStages hHead with
    ⟨input, rest, rfl, hLayout, hInput⟩
  cases hEq
  rw [hNames]
  refine ⟨?_, ?_⟩
  · rw [hLayout]
    simp [Layout.pushAll, Layout.withLocals,
      Layout.contextNames, Layout.ofContext, visible]
  · refine .groupBy hInput
      (mem_names_of_slotFor (fun name => name)
        (fun _ _ hSlot => mem_names_of_slot hSlot) hKeys)
      (mem_names_of_slotFor Prod.snd ?_ hSlots)
      (fun name hName hNot => ?_)
    · intro a slot hSlot
      rw [except_bind_eq_ok_iff] at hSlot
      rcases hSlot with ⟨source, hSource, _⟩
      exact mem_names_of_slot hSource
    · rw [Set.mem_ofPred_eq, Layout.withLocals,
        List.mem_append] at hName
      have hContext := hName.resolve_right hNot
      rw [hLayout] at hContext
      simpa [Layout.contextNames, Layout.pushAll,
        Layout.ofContext] using hContext

/- Without the annotation nothing is trimmed. -/
theorem Lacks.trim_eq
    {t : Tree}
    (hLacks : t.Lacks Properties.project)
    (op : Operator)
    (layout : Layout) :
    Compile.trim t.properties op layout = (op, layout) := by
  rw [Compile.trim, Properties.vars?,
    hLacks t (mem_subtrees_self t)]

theorem stageScoped_orderBy
    (hLacks : ∀ c ∈ cs, c.Lacks Properties.project)
    (hStages : ∀ c ∈ cs, StageScoped library c)
    (hKeys : ∀ c ∈ cs, ∀ d ∈ c.children,
      ExprScoped library d) :
    StageScoped library (.node i .orderBy p ps cs) := by
  intro names op layout hCompile
  simp only [Compile.stage, except_bind_eq_ok_iff,
    Compile.trimmedHead_eq_ok_iff,
    Compile.sortKeysTail_eq_ok_iff] at hCompile
  rcases hCompile with ⟨⟨op, layout⟩,
    ⟨input, hHead, wide, wider, hStage, hTrim⟩,
    sortKeys, hSortKeys, hEq⟩
  rcases cs with _ | ⟨first, specs⟩
  · cases hHead
  · cases hHead
    rw [(hLacks input (by simp)).trim_eq] at hTrim
    cases hTrim
    cases hEq
    rcases hStages input (by simp) names _ _ hStage with
      ⟨hLayout, hInput⟩
    have hSpec (spec : Tree) (hMem : spec ∈ specs) :
        ∃ key, Compile.SortKeyOf library layout spec key := by
      rcases List.forall₂_iff_get.mp hSortKeys with
        ⟨hLength, hEach⟩
      rw [List.drop_one, List.tail_cons] at hLength hEach
      rcases List.mem_iff_getElem.mp hMem with
        ⟨n, hN, rfl⟩
      exact ⟨_, hEach n hN (by omega)⟩
    refine ⟨?_, ?_⟩
    · rw [hLayout]
      simp [visible, visibleHead, bound, kind]
    · refine .orderBy hInput
        ((hLacks input (by simp)).keeps _ _)
        (fun spec hMem => ?_) (fun spec hMem key hKey => ?_)
        (fun spec hMem => ?_) (fun _ hName => hName)
      · rcases hSpec spec hMem with ⟨_, o, t, e, hOrder, _⟩
        simp [hOrder]
      · rcases hSpec spec hMem with
          ⟨_, o, t, e, _, hChild, hExpr, _⟩
        rw [hChild] at hKey
        cases hKey
        exact hKeys spec (by simp [hMem]) key
          (List.mem_of_getElem? hChild) _ _ hExpr
      · rcases hSpec spec hMem with
          ⟨_, o, t, e, _, hChild, _⟩
        intro hNil
        rw [hNil] at hChild
        cases hChild

theorem stageScoped_join
    (hLacks : ∀ c ∈ cs, c.Lacks Properties.project)
    (hShaped : (Tree.node i .join p ps cs).Shaped)
    (hStages : ∀ c ∈ cs, StageScoped library c)
    (hKeys : ∀ c ∈ cs, ∀ d ∈ c.children,
      ExprScoped library d) :
    StageScoped library (.node i .join p ps cs) := by
  intro names op layout hCompile
  rcases hShaped.join with ⟨left, j, q, qs, first, second,
    right, rfl, _, _⟩
  have hLacksLeft := hLacks left (by simp)
  have hLacksRight := hLacks right (by simp)
  simp only [Compile.stage, Compile.join,
    except_bind_eq_ok_iff, Compile.require_eq_ok_iff,
    Compile.operand_eq_ok_iff] at hCompile
  rcases hCompile with ⟨c, hComparison,
    ⟨opLeft, layoutLeft⟩, hStageLeft,
    ⟨opRight, layoutRight⟩, hStageRight, hCompile⟩
  simp only [hLacksLeft.trim_eq, hLacksRight.trim_eq]
    at hCompile
  rcases hCompile with ⟨l, ⟨leftKey, hLeftKey, hLeft⟩,
    r, ⟨rightKey, hRightKey, hRight⟩, hEq⟩
  cases hEq
  rcases hStages left (by simp) names _ _ hStageLeft with
    ⟨rfl, hSuppliesLeft⟩
  rcases hStages right (by simp) names _ _ hStageRight with
    ⟨rfl, hSuppliesRight⟩
  have hLocals :
      ((Layout.ofContext names).pushAll
        right.visible).locals = right.visible := by
    simp [Layout.locals, Layout.pushAll, Layout.ofContext]
  have hReads (d : Tree) (hMem : d ∈ [first, second]) :
      ExprScoped library d :=
    hKeys (.node j .joinExpr q qs [first, second]) (by simp)
      d hMem
  refine ⟨?_, ?_⟩
  · rw [hLocals]
    simp [Layout.pushAll, visible, visibleHead,
      visibleLast]
  · rw [hLocals]
    refine .join hSuppliesLeft hSuppliesRight
      (hLacksLeft.keeps _ _) (hLacksRight.keeps _ _)
      (by simp [hComparison]) hLeftKey hRightKey
      (hReads _ (List.mem_of_getElem? hLeftKey) _ _ hLeft)
      (hReads _ (List.mem_of_getElem? hRightKey) _ _ hRight)
      (fun name hName hNot => ?_)
      (fun name _ hMem => ?_)
    · rw [Set.mem_ofPred_eq, Layout.pushAll,
        List.mem_append] at hName
      exact hName.resolve_right hNot
    · simp [Layout.pushAll, hMem]

theorem exprScoped_pipe
    (hStages : ∀ c ∈ cs, ∀ d ∈ c.children,
      StageScoped library d)
    (hResults : ∀ c ∈ cs, ∀ d ∈ c.children,
      ExprScoped library d) :
    ExprScoped library (.node i .pipeExpr p ps cs) := by
  intro layout e hCompile
  rcases cs with _ | ⟨⟨j, k, q, qs, parts⟩, more⟩
  · simp only [Compile.expr, Compile.pipeline] at hCompile
    cases hCompile
  · by_cases hFinish : k = .finish
    · subst hFinish
      simp only [Compile.expr, Compile.pipeline,
        except_bind_eq_ok_iff, Compile.stageHead_eq_ok_iff,
        Compile.returned_eq_ok_iff] at hCompile
      rcases hCompile with ⟨⟨op, result⟩, ⟨⟨tailOp,
        tailLayout⟩, ⟨tail, hTail, hStage⟩, resultExpr,
        ⟨t, hResult, hExpr⟩, hPair⟩, _⟩
      rcases parts with _ | ⟨first, _ | ⟨second, rest⟩⟩
      · cases hTail
      · cases hResult
      · cases hTail
        cases hResult
        rcases hStages _ List.mem_cons_self tail (by simp [children])
          layout.names _ _ hStage with ⟨_, hSupplies⟩
        exact .pipe hSupplies
          (hResults _ List.mem_cons_self t (by simp [children]) _ _ hExpr)
    · cases k <;>
        first
        | exact (hFinish rfl).elim
        | (simp only [Compile.expr, Compile.pipeline]
            at hCompile
           cases hCompile)

/- What compiles reads and supplies the names in scope. -/
theorem scoped_of_compiled
    (t : Tree)
    (hLacks : t.Lacks Properties.project)
    (hShaped : t.Shaped) :
    ExprScoped library t ∧ StageScoped library t := by
  induction t using Tree.inductDeep with
  | node i k p ps cs ih ihDeep =>
      have hLacksChild (c : Tree) (hC : c ∈ cs) :
          c.Lacks Properties.project :=
        hLacks.child hC
      have hBoth (c : Tree) (hC : c ∈ cs) :=
        ih c hC (hLacksChild c hC) (hShaped.child hC)
      have hDeep (c : Tree) (hC : c ∈ cs) (d : Tree)
          (hD : d ∈ c.children) :=
        ihDeep c hC d hD ((hLacksChild c hC).child hD)
          ((hShaped.child hC).child hD)
      have hExprs (c : Tree) (hC : c ∈ cs) :=
        (hBoth c hC).1
      have hStages (c : Tree) (hC : c ∈ cs) :=
        (hBoth c hC).2
      refine ⟨exprScoped_node hExprs (fun hPipe => ?_), ?_⟩
      · subst hPipe
        exact exprScoped_pipe
          (fun c hC d hD => (hDeep c hC d hD).2)
          (fun c hC d hD => (hDeep c hC d hD).1)
      · cases k
        case start =>
          intro names op layout hCompile
          simp only [Compile.stage] at hCompile
          cases hCompile
          refine ⟨?_, .start (fun _ hName => hName)⟩
          simp [visible, Layout.pushAll]
        case forBind =>
          exact stageScoped_forBind hExprs hStages
        case letBind =>
          exact stageScoped_letBind hLacks.isLive hExprs
            hStages
        case selection =>
          exact stageScoped_selection hExprs hStages
        case orderBy =>
          exact stageScoped_orderBy hLacksChild hStages
            (fun c hC d hD => (hDeep c hC d hD).1)
        case groupBy => exact stageScoped_groupBy hStages
        case count => exact stageScoped_count hStages
        case join =>
          exact stageScoped_join hLacksChild
            hShaped hStages
            (fun c hC d hD => (hDeep c hC d hD).1)
        all_goals
          intro names op layout hCompile
          simp only [Compile.stage] at hCompile
          cases hCompile

end Tree

end Flwor

------------------------------------------------------------
-- Queries
------------------------------------------------------------

namespace Flwor

/- The environment in which a query is evaluated. -/
def Env.ofBindings
    (externals : List String)
    (bindings : Bindings) : Env :=
  fun name =>
    if name ∈ externals then bindings.lookup name else none

namespace Query

/- The root of a query is its compiled plan tree. -/
theorem compileRoot_eq_ok
    {library : Library}
    {root : Tree}
    {externals : List String}
    {e : Expr}
    {explain : Explain}
    (hCompile : compileRoot library root externals =
      .ok (e, explain)) :
    Compile.expr library root
      (Layout.ofContext externals) = .ok e := by
  rw [compileRoot] at hCompile
  rcases root with ⟨i, k, p, ps, cs⟩
  by_cases hPipe : k = .pipeExpr
  · subst hPipe
    simp only [Tree.kind, if_true, except_bind_eq_ok_iff,
      Tree.children] at hCompile
    rcases hCompile with ⟨⟨tail, result⟩, hPipeline, hEq⟩
    cases hEq
    simp only [Compile.expr, hPipeline]
    rfl
  · simp only [Tree.kind, hPipe, if_false,
      except_bind_eq_ok_iff] at hCompile
    rcases hCompile with ⟨e', hExpr, hEq⟩
    cases hEq
    exact hExpr

/- A compiled query knows its root and its externals. -/
theorem ofPlan_eq_ok
    {library : Library}
    {plan : Plan}
    {externals : List String}
    {query : Query}
    (hQuery : ofPlan library plan externals = .ok query) :
    Compile.expr library plan.rootTree
        (Layout.ofContext externals) = .ok query.root ∧
      query.externals = externals := by
  rw [ofPlan, except_bind_eq_ok_iff] at hQuery
  rcases hQuery with ⟨⟨root, explain⟩, hRoot, hEq⟩
  cases hEq
  exact ⟨compileRoot_eq_ok hRoot, rfl⟩

/- The context row agrees with the bindings it is made of. -/
theorem exists_contextRow
    {externals : List String}
    {bindings : Bindings}
    (hBound : ∀ name ∈ externals,
      (bindings.lookup name).isSome) :
    ∃ row, contextRow externals bindings = .ok row ∧
      (Layout.ofContext externals).Agrees
        {n | n ∈ externals} row
        (Env.ofBindings externals bindings) := by
  have hRow (names : List String)
      (hNames : ∀ name ∈ names,
        (bindings.lookup name).isSome) :
      ∃ row, contextRow names bindings = .ok row ∧
        List.Forall₂ (fun name value =>
          bindings.lookup name = some value) names row := by
    induction names with
    | nil => exact ⟨[], rfl, .nil⟩
    | cons name rest ih =>
        rcases ih (fun n hN => hNames n (by simp [hN])) with
          ⟨row, hRest, hAll⟩
        rcases Option.isSome_iff_exists.mp
          (hNames name (by simp)) with ⟨value, hValue⟩
        refine ⟨value :: row, ?_, .cons hValue hAll⟩
        rw [contextRow] at hRest ⊢
        rw [List.mapM_cons, hRest, hValue]
        rfl
  rcases hRow externals hBound with ⟨row, hContext, hAll⟩
  refine ⟨row, hContext, hAll.length_eq.symm, ?_⟩
  intro name hName
  rw [Layout.ofContext, Row.value?_of_forall₂ hAll hName]
  exact (if_pos hName).symm

/- What simulates the plan tree is what evaluation does. -/
theorem refines_evaluate
    {library : Library}
    {lenient : Prop}
    {plan : Plan}
    {externals : List String}
    {query : Query}
    {bindings : Bindings}
    (hReads : Tree.ReadsFrom library lenient
      {n | n ∈ externals} plan.rootTree)
    (hQuery : ofPlan library plan externals = .ok query)
    (hBound : ∀ name ∈ externals,
      (bindings.lookup name).isSome) :
    Refines lenient Eq
      (plan.rootTree.value library
        (Env.ofBindings externals bindings))
      (query.evaluate bindings).value? := by
  rcases ofPlan_eq_ok hQuery with ⟨hCompile, hExternals⟩
  rcases hReads.simulated (Layout.ofContext externals)
      (fun _ hName => hName) with ⟨e, hExpr, hValue⟩
  rw [hCompile] at hExpr
  cases hExpr
  rcases exists_contextRow hBound with
    ⟨row, hRow, hAgrees⟩
  have hEvaluate :
      (query.evaluate bindings).value? =
        query.root.value? row := by
    rw [evaluate, Answer.value?_bind,
      Answer.value?_ofExcept, hExternals, hRow]
    rfl
  rw [hEvaluate]
  exact hValue row _ hAgrees

/- The tree only has to be in shape, wherever it stands. -/
theorem toOption_evaluate
    {library : Library}
    {plan : Plan}
    {externals : List String}
    {query : Query}
    {bindings : Bindings}
    (hShaped : plan.rootTree.Shaped)
    (hLacks : plan.rootTree.Lacks Properties.project)
    (hQuery : ofPlan library plan externals = .ok query)
    (hBound : ∀ name ∈ externals,
      (bindings.lookup name).isSome) :
    (query.evaluate bindings).result.toOption =
      plan.rootTree.value library
        (Env.ofBindings externals bindings) := by
  rcases ofPlan_eq_ok hQuery with ⟨hCompile, _⟩
  have hReads := (Tree.scoped_of_compiled _ hLacks hShaped).1
    (Layout.ofContext externals) _ hCompile
  exact (refines_evaluate hReads hQuery
    hBound).eq_of_strict.symm

/-
  The plan of a pipeline that keeps the items from two on:
  `for $x in $in where $x >= 2 return $x`.
-/
def filteringPlan : Plan where
  nodes := #[
    ⟨.pipeExpr, .none, none, [1], []⟩,
    ⟨.finish, .none, some 0, [2, 9], []⟩,
    ⟨.selection, .none, some 1, [3, 7], []⟩,
    ⟨.forBind, .none, some 2, [4, 5, 6], []⟩,
    ⟨.start, .none, some 3, [], []⟩,
    ⟨.variable, .var "x", some 3, [], []⟩,
    ⟨.variableRef, .var "in", some 3, [], []⟩,
    ⟨.comparisonExpr, .cmp (.general .ge), some 2,
      [8, 10], []⟩,
    ⟨.variableRef, .var "x", some 7, [], []⟩,
    ⟨.variableRef, .var "x", some 1, [], []⟩,
    ⟨.literal, .int 2, some 7, [], []⟩]
  root := 0
  counter := 0

end Query

end Flwor
