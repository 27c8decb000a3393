import Flwor.Proofs.Compilation
import Flwor.Proofs.Layouts
import Flwor.Proofs.Lockstep.Operators
import Flwor.Proofs.Rescoping

/-
  An expression depends only on the variables it refers to.

  Two layouts may bind other names, in another order and
  with other contexts.  Where the names that a tree refers
  to are bound in both of them or in none, it compiles for
  both or fails alike, and where they hold the same values,
  its evaluations cannot be told apart: they end alike, and
  they count the same on the way.

  Key definitions include:
    * `Layout.SameScope`, `Layout.SameValues`
    * `Tree.ExprInStep`, `Tree.StageInStep`

  Key theorems include:
    * `Compile.trim_inStep`
    * `Tree.inStep`
    * `Plan.expr_depends_on_references`
-/

------------------------------------------------------------
-- Scopes
------------------------------------------------------------

namespace Flwor

namespace Layout

/- Some names are bound in both layouts or in none. -/
def SameScope
    (names : Set String)
    (layout layout' : Layout) : Prop :=
  ∀ name ∈ names, name ∈ layout.names ↔ name ∈ layout'.names

/- Rows of two layouts that agree on some names. -/
structure SameValues
    (names : Set String)
    (layout layout' : Layout)
    (row row' : Row) : Prop where
  left : row.length = layout.names.length
  right : row'.length = layout'.names.length
  values : ∀ name ∈ names,
    row.value? layout.names name =
      row'.value? layout'.names name

variable {names : Set String}
variable {layout layout' : Layout}
variable {outer outer' locals : List String}
variable {context context' row row' : Row}

theorem SameScope.withLocals
    (hScope : (ofContext outer).SameScope names
      (ofContext outer'))
    (locals : List String) :
    (Layout.mk (outer ++ locals) outer.length).SameScope
      names (Layout.mk (outer' ++ locals) outer'.length) := by
  intro name hName
  simp only [List.mem_append]
  exact or_congr_left (hScope name hName)

/- Rows beside each other agree on what their contexts do. -/
theorem SameValues.beside
    (hContexts : (ofContext outer).SameValues names
      (ofContext outer') context context')
    (hRows : Row.Beside context context' locals.length row
      row') :
    (Layout.mk (outer ++ locals) outer.length).SameValues
      names (Layout.mk (outer' ++ locals) outer'.length) row
      row' := by
  rcases hRows with ⟨values, hLength, rfl, rfl⟩
  rcases hContexts with ⟨hLeft, hRight, hValues⟩
  simp only [ofContext] at hLeft hRight hValues
  refine ⟨by simp [hLeft, hLength],
    by simp [hRight, hLength], fun name hName => ?_⟩
  dsimp only
  rw [Row.value?_append hLeft, Row.value?_append hRight,
    hValues name hName]

end Layout

/- What is in step for some rows is so for fewer of them. -/
theorem Slot.InStep.mono
    {R R' : Row → Row → Prop}
    {slot slot' : Slot}
    (hSlot : Slot.InStep R slot slot')
    (hMono : ∀ row row', R' row row' → R row row') :
    Slot.InStep R' slot slot' :=
  fun row row' hRows => hSlot row row' (hMono row row' hRows)

theorem Slot.InStep.mono_check
    {R R' : Row → Row → Prop}
    {check check' : Option Slot}
    (hCheck : Option.Rel (Slot.InStep R) check check')
    (hMono : ∀ row row', R' row row' → R row row') :
    Option.Rel (Slot.InStep R') check check' := by
  cases hCheck with
  | none => exact .none
  | some hSlot => exact .some (hSlot.mono hMono)

theorem Expr.InStep.mono
    {R R' : Row → Row → Prop}
    {e e' : Expr}
    (hExpr : e.InStep R e')
    (hMono : ∀ row row', R' row row' → R row row') :
    e.InStep R' e' :=
  fun row row' hRows => hExpr row row' (hMono row row' hRows)

end Flwor

------------------------------------------------------------
-- Slots of Layouts
------------------------------------------------------------

namespace Flwor

namespace Compile

variable {names : Set String}
variable {layout layout' : Layout}
variable {name : String}

/- A name is found in both layouts or in none. -/
theorem slotFor_inStep
    (hScope : layout.SameScope names layout')
    (hName : name ∈ names) :
    InStep
      (fun slot slot' => slot.name = slot'.name ∧
        Slot.InStep (layout.SameValues names layout') slot
          slot')
      (slotFor layout name) (slotFor layout' name) := by
  rw [slotFor, slotFor]
  cases hSlot : layout.slot? name with
  | none =>
      have hNot := Layout.slot?_eq_none_iff.mp hSlot
      rw [Layout.slot?_eq_none_iff.mpr
        (fun hMem => hNot ((hScope name hName).mpr hMem))]
      exact .error _
  | some index =>
      cases hSlot' : layout'.slot? name with
      | none =>
          have hMem := List.mem_of_getElem?
            (Layout.getElem?_of_slot? hSlot)
          exact (Layout.slot?_eq_none_iff.mp hSlot'
            ((hScope name hName).mp hMem)).elim
      | some index' =>
          refine .ok ⟨rfl, fun row row' hRows => ?_⟩
          have hValues := hRows.values name hName
          rw [Row.value?_of_slot? hSlot,
            Row.value?_of_slot? hSlot'] at hValues
          have hBound := (List.getElem?_eq_some_iff.mp
            (Layout.getElem?_of_slot? hSlot)).1
          rw [← hRows.left] at hBound
          refine ⟨row[index], ?_, ?_⟩
          · exact List.getElem?_eq_getElem hBound
          · dsimp only
            rw [← hValues]
            exact List.getElem?_eq_getElem hBound

theorem checkedSlot_inStep
    {properties : Properties}
    (hScope : layout.SameScope names layout')
    (hCheck : ∀ name,
      properties.var? Properties.check = some name →
        name ∈ names) :
    InStep
      (Option.Rel
        (Slot.InStep (layout.SameValues names layout')))
      (checkedSlot layout properties)
      (checkedSlot layout' properties) := by
  rw [checkedSlot, checkedSlot]
  cases hVar : properties.var? Properties.check with
  | none => exact .ok .none
  | some name =>
      exact (slotFor_inStep hScope (hCheck name hVar)).map
        (fun _ _ hSlot => .some hSlot.2)

end Compile

end Flwor

------------------------------------------------------------
-- Projections
------------------------------------------------------------

namespace Flwor

namespace Compile

variable {names : Set String}
variable {outer outer' : List String}

/-
  What a stage is compiled to in two contexts: it adds the
  same names to both, and its rows are beside each other.
-/
def Fed
    (names : Set String)
    (outer outer' : List String)
    (fed fed' : Operator × Layout) : Prop :=
  ∃ locals : List String,
    fed.2 = ⟨outer ++ locals, outer.length⟩ ∧
      fed'.2 = ⟨outer' ++ locals, outer'.length⟩ ∧
        ∀ context context',
          (Layout.ofContext outer).SameValues names
            (Layout.ofContext outer') context context' →
          Operator.InStep context context' locals.length
            fed.1 fed'.1

/- A stage that adds further names to both layouts. -/
theorem Fed.push
    {op op' : Operator}
    (locals more : List String)
    (hRows : ∀ context context',
      (Layout.ofContext outer).SameValues names
        (Layout.ofContext outer') context context' →
      Operator.InStep context context'
        (locals.length + more.length) op op') :
    Fed names outer outer'
      (op, (Layout.mk (outer ++ locals)
        outer.length).pushAll more)
      (op', (Layout.mk (outer' ++ locals)
        outer'.length).pushAll more) := by
  refine ⟨locals ++ more, ?_, ?_, ?_⟩
  · simp [Layout.pushAll]
  · simp [Layout.pushAll]
  · simpa using hRows

/- The latest bindings of some names, with their places. -/
def latest
    (locals wanted : List String) : List (String × Nat) :=
  locals.zipIdx.filter (fun p =>
    wanted.contains p.1
      && (Layout.mk locals 0).slot? p.1 == some p.2)

theorem keptSlots_eq
    (outer locals wanted : List String) :
    keptSlots ⟨outer ++ locals, outer.length⟩ wanted =
      (latest locals wanted).map (fun p =>
        ⟨p.1, outer.length + p.2⟩) := by
  rw [keptSlots, latest, Layout.locals, List.drop_left,
    List.filter_map]
  dsimp only
  congr 1
  refine List.filter_congr (fun p hP => ?_)
  have hMem := List.fst_mem_of_mem_zipIdx hP
  have hSlot : (Layout.mk locals outer.length).slot? p.1 =
      (Layout.mk locals 0).slot? p.1 :=
    rfl
  rw [Function.comp_apply, Layout.slot?_append,
    if_pos hMem, hSlot]
  cases (Layout.mk locals 0).slot? p.1 with
  | none => rfl
  | some index =>
      rw [Bool.eq_iff_iff]
      simp

theorem getElem?_of_mem_latest
    {locals wanted : List String}
    {p : String × Nat}
    (hP : p ∈ latest locals wanted) :
    locals[p.2]? = some p.1 := by
  rw [latest, List.mem_filter] at hP
  exact List.mem_zipIdx_iff_getElem?.mp hP.1

theorem select_keptSlots
    (outer locals wanted : List String) :
    (Layout.mk (outer ++ locals) outer.length).select
        ((keptSlots ⟨outer ++ locals, outer.length⟩
          wanted).map Slot.index) =
      ⟨outer ++ (latest locals wanted).map Prod.fst,
        outer.length⟩ := by
  rw [Layout.select, Layout.withLocals,
    Layout.contextNames, List.take_left, keptSlots_eq,
    List.map_map, List.filterMap_map]
  congr 2
  rw [← List.filterMap_eq_map]
  refine List.filterMap_congr (fun p hP => ?_)
  rw [Function.comp_apply, Function.comp_apply,
    List.getElem?_append_right (by simp),
    Nat.add_sub_cancel_left, getElem?_of_mem_latest hP]
  rfl

/- A projection drops the same on both sides. -/
theorem trim_inStep
    {fed fed' : Operator × Layout}
    (hFed : Fed names outer outer' fed fed')
    (properties : Properties) :
    Fed names outer outer' (trim properties fed.1 fed.2)
      (trim properties fed'.1 fed'.2) := by
  rcases fed with ⟨op, layout⟩
  rcases fed' with ⟨op', layout'⟩
  rcases hFed with ⟨locals, rfl, rfl, hRows⟩
  rw [trim, trim]
  cases properties.vars? Properties.project with
  | none => exact ⟨locals, rfl, rfl, hRows⟩
  | some wanted =>
      have hLocals (outer : List String) :
          (Layout.mk (outer ++ locals)
            outer.length).locals = locals :=
        List.drop_left
      have hLength (outer : List String) :
          (keptSlots ⟨outer ++ locals, outer.length⟩
            wanted).length = (latest locals wanted).length := by
        rw [keptSlots_eq, List.length_map]
      dsimp only
      rw [hLocals, hLocals, hLength, hLength]
      split
      · exact ⟨locals, rfl, rfl, hRows⟩
      · refine ⟨(latest locals wanted).map Prod.fst,
          select_keptSlots .., select_keptSlots .., ?_⟩
        intro context context' hContexts
        have hSlots : List.Forall₂
            (Slot.InStep
              (Row.Beside context context' locals.length))
            (keptSlots ⟨outer ++ locals, outer.length⟩
              wanted)
            (keptSlots ⟨outer' ++ locals, outer'.length⟩
              wanted) := by
          rw [keptSlots_eq, keptSlots_eq,
            List.forall₂_map_left_iff,
            List.forall₂_map_right_iff, List.forall₂_same]
          rintro p hP _ _ ⟨values, hValues, rfl, rfl⟩
          have hBound := (List.getElem?_eq_some_iff.mp
            (getElem?_of_mem_latest hP)).1
          rw [← hValues] at hBound
          refine ⟨values[p.2], ?_, ?_⟩
          · have hLeft : context.length = outer.length :=
              hContexts.left
            rw [← hLeft, List.getElem?_append_right
              (by simp), Nat.add_sub_cancel_left]
            exact List.getElem?_eq_getElem hBound
          · have hRight : context'.length = outer'.length :=
              hContexts.right
            rw [← hRight, List.getElem?_append_right
              (by simp), Nat.add_sub_cancel_left]
            exact List.getElem?_eq_getElem hBound
        have hProject :=
          (hRows context context' hContexts).project hSlots
        rw [hLength, show context.length = outer.length from
          hContexts.left, show context'.length =
          outer'.length from hContexts.right] at hProject
        rw [List.length_map]
        exact hProject

end Compile

end Flwor

------------------------------------------------------------
-- Parts of a Node
------------------------------------------------------------

namespace Flwor

namespace Tree

variable (library : Library)
variable (names : Set String)

/- A tree compiles to expressions in step. -/
def ExprInStep
    (t : Tree) : Prop :=
  ∀ layout layout' : Layout,
    layout.SameScope names layout' →
      InStep (Expr.InStep (layout.SameValues names layout'))
        (Compile.expr library t layout)
        (Compile.expr library t layout')

/- A tree compiles to operators in step. -/
def StageInStep
    (t : Tree) : Prop :=
  ∀ outer outer' : List String,
    (Layout.ofContext outer).SameScope names
      (Layout.ofContext outer') →
      InStep (Compile.Fed names outer outer')
        (Compile.stage library t (.ofContext outer))
        (Compile.stage library t (.ofContext outer'))

end Tree

namespace Compile

variable {library : Library}
variable {names : Set String}
variable {layout layout' : Layout}
variable {outer outer' : List String}
variable {ts : List Tree}

theorem exprs_inStep
    (hParts : ∀ t ∈ ts, t.ExprInStep library names)
    (hScope : layout.SameScope names layout') :
    InStep
      (List.Forall₂
        (Expr.InStep (layout.SameValues names layout')))
      (exprs library ts layout)
      (exprs library ts layout') := by
  induction ts with
  | nil => exact .ok .nil
  | cons t rest ih =>
      rw [List.forall_mem_cons] at hParts
      rw [exprs, exprs]
      refine (hParts.1 _ _ hScope).bind (fun e e' hE => ?_)
      refine (ih hParts.2).bind (fun es es' hEs => ?_)
      exact .ok (.cons hE hEs)

theorem operand_inStep
    (hParts : ∀ t ∈ ts, t.ExprInStep library names)
    (hScope : layout.SameScope names layout')
    (kind : Kind)
    (id : NodeId)
    (index skip : Nat) :
    InStep (Expr.InStep (layout.SameValues names layout'))
      (operand library kind id index skip ts layout)
      (operand library kind id index skip ts layout') := by
  induction ts generalizing skip with
  | nil =>
      rw [operand, operand]
      exact .error _
  | cons t rest ih =>
      rw [List.forall_mem_cons] at hParts
      cases skip with
      | zero =>
          rw [operand, operand]
          exact hParts.1 _ _ hScope
      | succ skip =>
          rw [operand, operand]
          exact ih hParts.2 skip

theorem lastExpr_inStep
    (hParts : ∀ t ∈ ts, t.ExprInStep library names)
    (hScope : layout.SameScope names layout')
    (missing : Defect) :
    InStep (Expr.InStep (layout.SameValues names layout'))
      (lastExpr library missing ts layout)
      (lastExpr library missing ts layout') := by
  induction ts with
  | nil =>
      rw [lastExpr, lastExpr]
      exact .error _
  | cons t rest ih =>
      rw [List.forall_mem_cons] at hParts
      cases rest with
      | nil =>
          rw [lastExpr, lastExpr]
          exact hParts.1 _ _ hScope
      | cons u more =>
          rw [lastExpr, lastExpr]
          exact ih hParts.2

theorem sortKeys_inStep
    (hParts : ∀ t ∈ ts, ∀ c ∈ t.children,
      c.ExprInStep library names)
    (hScope : layout.SameScope names layout') :
    InStep
      (List.Forall₂
        (SortKey.InStep (layout.SameValues names layout')))
      (sortKeys library ts layout)
      (sortKeys library ts layout') := by
  induction ts with
  | nil => exact .ok .nil
  | cons t rest ih =>
      rcases t with ⟨i, k, p, ps, cs⟩
      rw [List.forall_mem_cons] at hParts
      rw [sortKeys, sortKeys]
      refine .bind_same _ (fun order => ?_)
      refine (operand_inStep hParts.1 hScope k i 0 0).bind
        (fun e e' hE => ?_)
      refine (ih hParts.2).bind (fun keys keys' hKeys => ?_)
      exact .ok (.cons (.mk order hE) hKeys)

theorem stageHead_inStep
    (hParts : ∀ t ∈ ts, t.StageInStep library names)
    (hScope : (Layout.ofContext outer).SameScope names
      (Layout.ofContext outer'))
    (kind : Kind)
    (id : NodeId) :
    InStep (Fed names outer outer')
      (stageHead library kind id ts (.ofContext outer))
      (stageHead library kind id ts (.ofContext outer')) := by
  cases ts with
  | nil =>
      rw [stageHead, stageHead]
      exact .error _
  | cons t rest =>
      rw [stageHead, stageHead]
      exact hParts t List.mem_cons_self _ _ hScope

theorem trimmedHead_inStep
    (hParts : ∀ t ∈ ts, t.StageInStep library names)
    (hScope : (Layout.ofContext outer).SameScope names
      (Layout.ofContext outer'))
    (kind : Kind)
    (id : NodeId) :
    InStep (Fed names outer outer')
      (trimmedHead library kind id ts (.ofContext outer))
      (trimmedHead library kind id ts
        (.ofContext outer')) := by
  cases ts with
  | nil =>
      rw [trimmedHead, trimmedHead]
      exact .error _
  | cons t rest =>
      rw [trimmedHead, trimmedHead]
      refine (hParts t List.mem_cons_self _ _ hScope).bind
        (fun fed fed' hFed => ?_)
      exact .ok (trim_inStep hFed t.properties)

end Compile

end Flwor

------------------------------------------------------------
-- Expressions
------------------------------------------------------------

namespace Flwor

namespace Tree

variable {library : Library}
variable {names : Set String}
variable {i : NodeId}
variable {k : Kind}
variable {p : Payload}
variable {ps : Properties}
variable {cs : List Tree}

/-
  A pipeline takes the names of its layout as its context,
  and its result is read from rows beside each other.
-/
theorem exprInStep_pipe
    (hStages : ∀ c ∈ cs, ∀ d ∈ c.children,
      d.StageInStep library names)
    (hExprs : ∀ c ∈ cs, ∀ d ∈ c.children,
      d.ExprInStep library names) :
    ExprInStep library names (.node i .pipeExpr p ps cs) := by
  intro layout layout' hScope
  simp only [Compile.expr]
  suffices hPipeline : InStep
      (fun pipe pipe' : Operator × Expr =>
        Expr.InStep (layout.SameValues names layout')
          (.pipeline pipe.1 pipe.2)
          (.pipeline pipe'.1 pipe'.2))
      (Compile.pipeline library cs layout)
      (Compile.pipeline library cs layout') from
    hPipeline.bind (fun _ _ hPipe => .ok hPipe)
  rcases cs with _ | ⟨⟨j, l, q, qs, ds⟩, rest⟩
  · rw [Compile.pipeline, Compile.pipeline]
    · exact .error _
    all_goals simp
  by_cases hKind : l = .finish
  · subst hKind
    have hStages := hStages _ List.mem_cons_self
    have hExprs := hExprs _ List.mem_cons_self
    rw [Compile.pipeline, Compile.pipeline]
    refine (Compile.stageHead_inStep hStages hScope
      .finish j).bind ?_
    rintro ⟨tail, inner⟩ ⟨tail', inner'⟩
      ⟨locals, rfl, rfl, hRows⟩
    have hResult : InStep
        (Expr.InStep
          ((Layout.mk (layout.names ++ locals)
            layout.names.length).SameValues names
            (Layout.mk (layout'.names ++ locals)
              layout'.names.length)))
        (Compile.returned library ds
          ⟨layout.names ++ locals, layout.names.length⟩)
        (Compile.returned library ds
          ⟨layout'.names ++ locals, layout'.names.length⟩) := by
      rcases ds with _ | ⟨input, _ | ⟨result, more⟩⟩
      · rw [Compile.returned, Compile.returned] <;>
          first | exact .error _ | simp
      · rw [Compile.returned, Compile.returned] <;>
          first | exact .error _ | simp
      · rw [Compile.returned, Compile.returned]
        exact hExprs _ (by simp [children]) _ _
          (Layout.SameScope.withLocals hScope locals)
    refine hResult.bind (fun e e' hE => .ok ?_)
    refine .pipeline (fun context context' hContexts => ?_)
    have hOuter : (Layout.ofContext layout.names).SameValues
        names (Layout.ofContext layout'.names) context
        context' :=
      ⟨hContexts.left, hContexts.right, hContexts.values⟩
    exact ⟨_, hRows context context' hOuter,
      hE.mono (fun _ _ => hOuter.beside)⟩
  · rw [Compile.pipeline, Compile.pipeline]
    · exact .error _
    all_goals
      rintro j' q' qs' ds' rest' hEq
      cases hEq
      exact hKind rfl

theorem exprInStep_node
    (hName : k = .variableRef → ∀ name,
      p.var? = some name → name ∈ names)
    (hParts : ∀ c ∈ cs, c.ExprInStep library names)
    (hPipe : k = .pipeExpr →
      ExprInStep library names (.node i k p ps cs)) :
    ExprInStep library names (.node i k p ps cs) := by
  by_cases hKind : k = .pipeExpr
  · exact hPipe hKind
  intro layout layout' hScope
  have hOperand (index skip : Nat) :=
    Compile.operand_inStep hParts hScope k i index skip
  cases k
  case pipeExpr => exact (hKind rfl).elim
  case literal =>
    simp only [Compile.expr]
    exact .bind_same _ (fun item => .ok (.literal _))
  case emptySequence =>
    simp only [Compile.expr]
    exact .ok (.literal _)
  case sequenceExpr =>
    simp only [Compile.expr]
    exact (Compile.exprs_inStep hParts hScope).bind
      (fun es es' hEs => .ok (.concat hEs))
  case rangeExpr =>
    simp only [Compile.expr]
    refine (hOperand 0 0).bind (fun l l' hL => ?_)
    refine (hOperand 1 1).bind (fun r r' hR => ?_)
    exact .ok (hL.range hR)
  case arithmeticExpr =>
    simp only [Compile.expr]
    refine .bind_same _ (fun op => ?_)
    refine (hOperand 0 0).bind (fun l l' hL => ?_)
    refine (hOperand 1 1).bind (fun r r' hR => ?_)
    exact .ok (hL.arithmetic op hR)
  case comparisonExpr =>
    simp only [Compile.expr]
    refine .bind_same _ (fun c => ?_)
    refine (hOperand 0 0).bind (fun l l' hL => ?_)
    refine (hOperand 1 1).bind (fun r r' hR => ?_)
    exact .ok (hL.comparison c hR)
  case andExpr =>
    simp only [Compile.expr]
    refine (hOperand 0 0).bind (fun l l' hL => ?_)
    refine (hOperand 1 1).bind (fun r r' hR => ?_)
    exact .ok (hL.and hR)
  case orExpr =>
    simp only [Compile.expr]
    refine (hOperand 0 0).bind (fun l l' hL => ?_)
    refine (hOperand 1 1).bind (fun r r' hR => ?_)
    exact .ok (hL.or hR)
  case ifExpr =>
    simp only [Compile.expr]
    refine (hOperand 0 0).bind (fun c c' hC => ?_)
    refine (hOperand 1 1).bind (fun y y' hY => ?_)
    refine (hOperand 2 2).bind (fun n n' hN => ?_)
    exact .ok (hC.cond hY hN)
  case functionCall =>
    simp only [Compile.expr]
    refine .bind_same _ (fun name => ?_)
    refine (Compile.exprs_inStep hParts hScope).bind
      (fun es es' hEs => ?_)
    rw [hEs.length_eq]
    exact .bind_same _ (fun f => .ok (.call f hEs))
  case variableRef =>
    simp only [Compile.expr]
    cases hVar : p.var? with
    | none => exact .error _
    | some name =>
        exact (Compile.slotFor_inStep hScope
          (hName rfl name hVar)).bind
            (fun _ _ hSlot => .ok (.reference hSlot.2))
  all_goals
    simp only [Compile.expr]
    exact .error _

end Tree

end Flwor

------------------------------------------------------------
-- Stages
------------------------------------------------------------

namespace Flwor

namespace Tree

variable {library : Library}
variable {names : Set String}
variable {i : NodeId}
variable {k : Kind}
variable {p : Payload}
variable {ps : Properties}
variable {cs : List Tree}

theorem stageInStep_start :
    StageInStep library names (.node i .start p ps cs) := by
  intro outer outer' _
  simp only [Compile.stage]
  refine .ok ⟨[], ?_, ?_, fun _ _ _ => .start⟩ <;>
    simp [Layout.ofContext]

/-
  A stage that is fed: what it evaluates on the layouts of
  its input is evaluated on rows beside each other.
-/
theorem inStep_of_input
    {stage stage' :
      Operator × Layout →
        Except Failure (Operator × Layout)}
    {fed fed' : Except Failure (Operator × Layout)}
    {outer outer' : List String}
    (hFed : InStep (Compile.Fed names outer outer') fed fed')
    (hStage : ∀ (locals : List String)
      (input input' : Operator),
      (∀ context context',
        (Layout.ofContext outer).SameValues names
          (Layout.ofContext outer') context context' →
        Operator.InStep context context' locals.length input
            input' ∧
          ∀ row row', Row.Beside context context'
              locals.length row row' →
            (Layout.mk (outer ++ locals)
              outer.length).SameValues names
              (Layout.mk (outer' ++ locals) outer'.length)
              row row') →
      InStep (Compile.Fed names outer outer')
        (stage (input, ⟨outer ++ locals, outer.length⟩))
        (stage'
          (input', ⟨outer' ++ locals, outer'.length⟩))) :
    InStep (Compile.Fed names outer outer')
      (fed >>= stage) (fed' >>= stage') := by
  refine hFed.bind ?_
  rintro ⟨input, layout⟩ ⟨input', layout'⟩
    ⟨locals, rfl, rfl, hRows⟩
  exact hStage locals input input'
    (fun context context' hContexts =>
      ⟨hRows context context' hContexts,
        fun _ _ => hContexts.beside⟩)

theorem stageInStep_forBind
    (hStages : ∀ c ∈ cs, c.StageInStep library names)
    (hExprs : ∀ c ∈ cs, c.ExprInStep library names)
    (hCheck : ∀ name,
      ps.var? Properties.check = some name →
        name ∈ names) :
    StageInStep library names (.node i .forBind p ps cs) := by
  intro outer outer' hScope
  simp only [Compile.stage]
  refine inStep_of_input (Compile.stageHead_inStep hStages
    hScope .forBind i) (fun locals input input' hInput => ?_)
  have hInner := hScope.withLocals locals
  refine (Compile.lastExpr_inStep hExprs hInner _).bind
    (fun source source' hSource => ?_)
  refine (Compile.checkedSlot_inStep hInner hCheck).bind
    (fun check check' hSlot => ?_)
  refine .bind_same _ (fun var => .ok ?_)
  refine .push locals _ (fun context context' hContexts => ?_)
  rcases hInput context context' hContexts with
    ⟨hRows, hBeside⟩
  exact hRows.forBind (hSource.mono hBeside)
    (Slot.InStep.mono_check hSlot hBeside) var _

theorem stageInStep_letBind
    (hStages : ∀ c ∈ cs, c.StageInStep library names)
    (hExprs : ∀ c ∈ cs, c.ExprInStep library names)
    (hCheck : ∀ name,
      ps.var? Properties.check = some name →
        name ∈ names) :
    StageInStep library names (.node i .letBind p ps cs) := by
  intro outer outer' hScope
  simp only [Compile.stage]
  refine inStep_of_input (Compile.stageHead_inStep hStages
    hScope .letBind i) (fun locals input input' hInput => ?_)
  have hInner := hScope.withLocals locals
  refine .bind_same _ (fun var => ?_)
  split
  · refine (Compile.operand_inStep hExprs hInner _ i 2 2).bind
      (fun value value' hValue => ?_)
    refine (Compile.checkedSlot_inStep hInner hCheck).bind
      (fun check check' hSlot => .ok ?_)
    refine .push locals [var]
      (fun context context' hContexts => ?_)
    rcases hInput context context' hContexts with
      ⟨hRows, hBeside⟩
    exact hRows.letBind (.some (hValue.mono hBeside))
      (Slot.InStep.mono_check hSlot hBeside) var
  · refine .ok (.push locals [var]
      (fun context context' hContexts => ?_))
    exact (hInput context context' hContexts).1.letBind
      .none .none var

theorem stageInStep_selection
    (hStages : ∀ c ∈ cs, c.StageInStep library names)
    (hExprs : ∀ c ∈ cs, c.ExprInStep library names) :
    StageInStep library names
      (.node i .selection p ps cs) := by
  intro outer outer' hScope
  simp only [Compile.stage]
  refine inStep_of_input (Compile.stageHead_inStep hStages
    hScope .selection i)
      (fun locals input input' hInput => ?_)
  refine (Compile.operand_inStep hExprs
    (hScope.withLocals locals) _ i 1 1).bind
      (fun predicate predicate' hPredicate => .ok ?_)
  refine ⟨locals, rfl, rfl,
    fun context context' hContexts => ?_⟩
  rcases hInput context context' hContexts with
    ⟨hRows, hBeside⟩
  exact hRows.select (hPredicate.mono hBeside)

theorem stageInStep_count
    (hStages : ∀ c ∈ cs, c.StageInStep library names) :
    StageInStep library names (.node i .count p ps cs) := by
  intro outer outer' hScope
  simp only [Compile.stage]
  refine inStep_of_input (Compile.stageHead_inStep hStages
    hScope .count i) (fun locals input input' hInput => ?_)
  refine .bind_same _ (fun var => .ok ?_)
  refine .push locals [var]
    (fun context context' hContexts => ?_)
  exact (hInput context context' hContexts).1.count var

theorem stageInStep_orderBy
    (hStages : ∀ c ∈ cs, c.StageInStep library names)
    (hKeys : ∀ c ∈ cs, ∀ d ∈ c.children,
      d.ExprInStep library names) :
    StageInStep library names
      (.node i .orderBy p ps cs) := by
  intro outer outer' hScope
  simp only [Compile.stage]
  refine inStep_of_input (Compile.trimmedHead_inStep hStages
    hScope .orderBy i)
      (fun locals input input' hInput => ?_)
  have hSorts : InStep
      (List.Forall₂ (SortKey.InStep
        ((Layout.mk (outer ++ locals)
          outer.length).SameValues names
          (Layout.mk (outer' ++ locals) outer'.length))))
      (Compile.sortKeysTail library cs
        ⟨outer ++ locals, outer.length⟩)
      (Compile.sortKeysTail library cs
        ⟨outer' ++ locals, outer'.length⟩) := by
    cases cs with
    | nil => exact .ok .nil
    | cons head rest =>
        rw [List.forall_mem_cons] at hKeys
        rw [Compile.sortKeysTail, Compile.sortKeysTail]
        exact Compile.sortKeys_inStep hKeys.2
          (hScope.withLocals locals)
  refine hSorts.bind (fun keys keys' hSort => .ok ?_)
  refine ⟨locals, rfl, rfl,
    fun context context' hContexts => ?_⟩
  rcases hInput context context' hContexts with
    ⟨hRows, hBeside⟩
  refine hRows.orderBy (hSort.imp ?_)
  rintro _ _ ⟨order, hKey⟩
  exact .mk order (hKey.mono hBeside)

theorem stageInStep_groupBy
    (hStages : ∀ c ∈ cs, c.StageInStep library names)
    (hKeys : ∀ name ∈ groupKeys (.node i .groupBy p ps cs),
      name ∈ names)
    (hSources : ∀ aggregate ∈
      groupAggregates (.node i .groupBy p ps cs),
        aggregate.2 ∈ names) :
    StageInStep library names
      (.node i .groupBy p ps cs) := by
  intro outer outer' hScope
  simp only [Compile.stage]
  refine inStep_of_input (Compile.stageHead_inStep hStages
    hScope .groupBy i)
      (fun locals input input' hInput => ?_)
  have hInner := hScope.withLocals locals
  refine (InStep.mapM (fun name hName =>
    Compile.slotFor_inStep hInner (hKeys name hName))).bind
      (fun keys keys' hSlots => ?_)
  refine (InStep.mapM (fun aggregate hMem =>
    (Compile.slotFor_inStep hInner
      (hSources aggregate hMem)).bind
        (S := fun s s' => s.name = s'.name ∧ Slot.InStep
          ((Layout.mk (outer ++ locals)
            outer.length).SameValues names
            (Layout.mk (outer' ++ locals) outer'.length))
          s s')
        (fun s s' hSlot =>
          InStep.ok (x := Slot.mk aggregate.1 s.index)
            (y := Slot.mk aggregate.1 s'.index)
            ⟨rfl, hSlot.2⟩))).bind
      (fun aggregates aggregates' hOthers => .ok ?_)
  have hNames : (keys ++ aggregates).map Slot.name =
      (keys' ++ aggregates').map Slot.name :=
    List.forall₂_eq_eq_eq ▸ List.rel_map
      (fun _ _ hSlot => hSlot.1)
      (List.rel_append hSlots hOthers)
  refine ⟨(keys ++ aggregates).map Slot.name, ?_, ?_,
    fun context context' hContexts => ?_⟩
  · simp [Layout.withLocals, Layout.contextNames]
  · rw [hNames]
    simp [Layout.withLocals, Layout.contextNames]
  · rcases hInput context context' hContexts with
      ⟨hRows, hBeside⟩
    rw [List.length_map, List.length_append]
    exact hRows.groupBy
      (hSlots.imp (fun _ _ hSlot => hSlot.2.mono hBeside))
      (hOthers.imp (fun _ _ hSlot => hSlot.2.mono hBeside))

theorem stageInStep_join
    (hStages : ∀ c ∈ cs, c.StageInStep library names)
    (hKeys : ∀ c ∈ cs, ∀ d ∈ c.children,
      d.ExprInStep library names) :
    StageInStep library names (.node i .join p ps cs) := by
  intro outer outer' hScope
  simp only [Compile.stage]
  rcases cs with
    _ | ⟨l, _ | ⟨⟨j, kk, q, qs, ks⟩, _ | ⟨r, more⟩⟩⟩
  case cons.cons.cons =>
    rw [List.forall_mem_cons, List.forall_mem_cons,
      List.forall_mem_cons] at hStages
    rw [List.forall_mem_cons, List.forall_mem_cons] at hKeys
    simp only [Compile.join]
    refine .bind_same _ (fun c => ?_)
    refine (hStages.1 _ _ hScope).bind
      (fun fed fed' hFed => ?_)
    refine (hStages.2.2.1 _ _ hScope).bind
      (fun other other' hOther => ?_)
    have hLeft := Compile.trim_inStep hFed l.properties
    have hRight := Compile.trim_inStep hOther r.properties
    rcases hLeft with ⟨lefts, hL, hL', hLeft⟩
    rcases hRight with ⟨rights, hR, hR', hRight⟩
    rw [hL, hL', hR, hR']
    refine (Compile.operand_inStep hKeys.2.1
      (hScope.withLocals lefts) kk j 0 0).bind
        (fun key key' hKey => ?_)
    refine (Compile.operand_inStep hKeys.2.1
      (hScope.withLocals rights) kk j 1 1).bind
        (fun other other' hOther => .ok ?_)
    have hLocals (outer : List String) :
        (Layout.mk (outer ++ rights) outer.length).locals =
          rights :=
      List.drop_left
    rw [hLocals, hLocals]
    refine .push lefts rights
      (fun context context' hContexts => ?_)
    have hJoin := (hLeft context context' hContexts).join
      (hRight context context' hContexts)
      (hKey.mono (fun _ _ => hContexts.beside))
      (hOther.mono (fun _ _ => hContexts.beside)) c
      (ps.flag Properties.leftJoin)
      (ps.flag Properties.skipSort)
    rw [hContexts.left, hContexts.right] at hJoin
    exact hJoin
  all_goals
    rw [Compile.join, Compile.join]
    · exact .error _
    all_goals simp

/- What a tree compiles to, wherever it stands. -/
theorem inStep
    (t : Tree)
    (hShaped : t.Shaped)
    (hNames : ∀ name ∈ t.references, name ∈ names) :
    t.ExprInStep library names ∧
      t.StageInStep library names := by
  induction t using Tree.inductDeep with
  | node i k p ps cs ih ihDeep =>
      have hNode (c : Tree) (hC : c ∈ cs) :=
        ih c hC (hShaped.child hC) (fun name hName =>
          hNames name (mem_references_of_child hC hName))
      have hDeep (c : Tree) (hC : c ∈ cs) (d : Tree)
          (hD : d ∈ c.children) :=
        ihDeep c hC d hD ((hShaped.child hC).child hD)
          (fun name hName => hNames name
            (mem_references_of_child hC
              (mem_references_of_child hD hName)))
      have hCheck (name : String)
          (hVar : ps.var? Properties.check = some name) :
          name ∈ names :=
        hNames name (mem_references_of_check hVar)
      have hExprs (c : Tree) (hC : c ∈ cs) := (hNode c hC).1
      have hStages (c : Tree) (hC : c ∈ cs) := (hNode c hC).2
      have hKeys (c : Tree) (hC : c ∈ cs) (d : Tree)
          (hD : d ∈ c.children) := (hDeep c hC d hD).1
      refine ⟨exprInStep_node ?_ hExprs ?_, ?_⟩
      · rintro rfl name hVar
        exact hNames name
          (mem_references_of_variableRef rfl hVar)
      · rintro rfl
        exact exprInStep_pipe
          (fun c hC d hD => (hDeep c hC d hD).2) hKeys
      · cases k
        case start => exact stageInStep_start
        case forBind =>
          exact stageInStep_forBind hStages hExprs hCheck
        case letBind =>
          exact stageInStep_letBind hStages hExprs hCheck
        case selection =>
          exact stageInStep_selection hStages hExprs
        case orderBy =>
          exact stageInStep_orderBy hStages hKeys
        case groupBy =>
          exact stageInStep_groupBy hStages
            (fun name hName => hNames name
              (mem_references_of_groupKey hShaped hName))
            (fun aggregate hMem => hNames _
              (mem_references_of_aggregate hShaped hMem))
        case count => exact stageInStep_count hStages
        case join => exact stageInStep_join hStages hKeys
        all_goals
          intro outer outer' _
          simp only [Compile.stage]
          exact .error _

end Tree

end Flwor

------------------------------------------------------------
-- Dependence
------------------------------------------------------------

namespace Flwor

/-
  A name that is bound in neither of two layouts, or whose
  latest bindings hold one value.
-/
inductive Layout.Shares
    (layout layout' : Layout)
    (row row' : Row)
    (name : String) : Prop where
  | absent
      (hLeft : layout.slot? name = none)
      (hRight : layout'.slot? name = none)
  | bound
      {index index' : Nat}
      {value : Sequence}
      (hLeft : layout.slot? name = some index)
      (hRight : layout'.slot? name = some index')
      (hValue : row[index]? = some value)
      (hValue' : row'[index']? = some value)

namespace Layout

variable {layout layout' : Layout}
variable {row row' : Row}
variable {name : String}

theorem Shares.mem_iff
    (hShares : layout.Shares layout' row row' name) :
    name ∈ layout.names ↔ name ∈ layout'.names := by
  cases hShares with
  | absent hLeft hRight =>
      exact iff_of_false (slot?_eq_none_iff.mp hLeft)
        (slot?_eq_none_iff.mp hRight)
  | bound hLeft hRight _ _ =>
      exact iff_of_true
        (List.mem_of_getElem? (getElem?_of_slot? hLeft))
        (List.mem_of_getElem? (getElem?_of_slot? hRight))

theorem Shares.value?_eq
    (hShares : layout.Shares layout' row row' name) :
    row.value? layout.names name =
      row'.value? layout'.names name := by
  cases hShares with
  | absent hLeft hRight =>
      rw [Row.value?_eq_none (slot?_eq_none_iff.mp hLeft),
        Row.value?_eq_none (slot?_eq_none_iff.mp hRight)]
  | bound hLeft hRight hValue hValue' =>
      rw [Row.value?_of_slot? hLeft,
        Row.value?_of_slot? hRight, hValue, hValue']

end Layout

/-
  An expression depends only on the variables it refers to.

  Against two layouts that share these, it compiles or fails
  alike, and the compiled expressions answer the same on the
  two rows: the same sequence or the same failure, with the
  same journal, which holds all that is counted.
-/
theorem Plan.expr_depends_on_references
    {library : Library}
    {plan : Plan}
    {t : Tree}
    {layout layout' : Layout}
    {row row' : Row}
    (hValid : plan.validate = .ok ())
    (hTree : t ∈ plan.rootTree.subtrees)
    (hWidth : row.length = layout.width)
    (hWidth' : row'.length = layout'.width)
    (hShares : ∀ name ∈ t.references,
      layout.Shares layout' row row' name) :
    InStep (fun e e' => e.eval row = e'.eval row')
      (Compile.expr library t layout)
      (Compile.expr library t layout') := by
  have hShaped : t.Shaped := fun s hS =>
    (shaped_of_validate hValid) s
      (Tree.mem_subtrees_trans hS hTree)
  have hExpr :
      t.ExprInStep library {name | name ∈ t.references} :=
    (Tree.inStep t hShaped (fun _ hName => hName)).1
  have hExpr := hExpr layout layout'
    (fun name hName => (hShares name hName).mem_iff)
  refine hExpr.mono (fun e e' hBoth => hBoth row row' ?_)
  exact ⟨hWidth, hWidth',
    fun name hName => (hShares name hName).value?_eq⟩

/- The latest binding counts, in whatever slot it is. -/
theorem Plan.expr_depends_on_references_filteringPlan :
    ∃ e e',
      Compile.expr Library.standard
          Query.filteringPlan.rootTree ⟨["in"], 1⟩ = .ok e ∧
        Compile.expr Library.standard
          Query.filteringPlan.rootTree
            ⟨["y", "in", "in"], 2⟩ = .ok e' ∧
        e.eval [[.int 1, .int 2, .int 3]] =
          e'.eval [[.int 7], [], [.int 1, .int 2, .int 3]] := by
  have hReferences :
      Query.filteringPlan.rootTree.references =
        ["in", "x", "x"] := by
    decide +kernel
  have hStep : InStep
      (fun e e' => e.eval [[.int 1, .int 2, .int 3]] =
        e'.eval [[.int 7], [], [.int 1, .int 2, .int 3]])
      (Compile.expr Library.standard
        Query.filteringPlan.rootTree ⟨["in"], 1⟩)
      (Compile.expr Library.standard
        Query.filteringPlan.rootTree
          ⟨["y", "in", "in"], 2⟩) := by
    refine expr_depends_on_references (by decide +kernel)
      (Tree.mem_subtrees_self _) rfl rfl ?_
    simp only [hReferences, List.forall_mem_cons]
    exact ⟨.bound rfl rfl rfl rfl, .absent rfl rfl,
      .absent rfl rfl, nofun⟩
  cases hExpr : Compile.expr Library.standard
      Query.filteringPlan.rootTree ⟨["in"], 1⟩ with
  | error failure =>
      have hCompiles : (Compile.expr Library.standard
          Query.filteringPlan.rootTree
            ⟨["in"], 1⟩).toOption.isSome := by
        decide +kernel
      rw [hExpr] at hCompiles
      cases hCompiles
  | ok e =>
      rw [hExpr] at hStep
      cases hOther : Compile.expr Library.standard
          Query.filteringPlan.rootTree
            ⟨["y", "in", "in"], 2⟩ with
      | error failure =>
          rw [hOther] at hStep
          cases hStep
      | ok e' =>
          rw [hOther] at hStep
          cases hStep with
          | ok hSame => exact ⟨e, e', rfl, rfl, hSame⟩

end Flwor
