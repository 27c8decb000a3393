import Flwor.Operator.Syntax
import Flwor.Row
import Flwor.Stage.Bindings

/-
  This file defines how plan trees are compiled.  Every
  expression is compiled against the layout of the rows it
  will be evaluated on, so that references become slots.

  The `project` annotation of a stage lists the bindings that
  are read after it.  A `let` that binds something else is
  compiled without its expression, and in front of buffering
  stages the slots that nobody reads are dropped.

  Key definitions include:
    * `Compile.expr`
    * `Compile.stage`
    * `Compile.trim`
    * `Compile.pipeline`
-/

------------------------------------------------------------
-- Slots and Projections
------------------------------------------------------------

namespace Flwor

namespace Compile

/- The slot of a variable, which must be in scope. -/
def slotFor
    (layout : Layout)
    (name : String) : Except Failure Slot :=
  match layout.slot? name with
  | some index => .ok ⟨name, index⟩
  | none => .error (.evaluation (.undefinedVariable name))

/- The slot that a stage checks, if it does. -/
def checkedSlot
    (layout : Layout)
    (properties : Properties) :
    Except Failure (Option Slot) :=
  match properties.var? Properties.check with
  | some name => (slotFor layout name).map some
  | none => .ok none

/-
  The local slots that a projection keeps: of each variable
  it lists, the latest binding.
-/
def keptSlots
    (layout : Layout)
    (names : List String) : List Slot :=
  let slots := layout.locals.zipIdx.map (fun p =>
    Slot.mk p.1 (layout.context + p.2))
  slots.filter (fun s =>
    names.contains s.name
      && layout.slot? s.name == some s.index)

/- Drop the slots that the projection of a stage drops. -/
def trim
    (properties : Properties)
    (op : Operator)
    (layout : Layout) : Operator × Layout :=
  match properties.vars? Properties.project with
  | none => (op, layout)
  | some names =>
      let keep := keptSlots layout names
      if keep.length = layout.locals.length then
        (op, layout)
      else
        (.project op layout.context keep,
         layout.select (keep.map Slot.index))

/- Whether the projection of a `let` keeps its variable. -/
def isLive
    (properties : Properties)
    (name : String) : Bool :=
  match properties.vars? Properties.project with
  | some names => names.contains name
  | none => true

/- Why a kind of node is no expression. -/
def unsupported : Kind → Construct
  | .contextItemExpr => .contextItem
  | .pathExpr => .path
  | .stepExpr => .path
  | .filterExpr => .filter
  | .quantifiedExpr => .quantified
  | .typeSwitch => .typeswitch
  | .transformExpr => .transform
  | .tryCatchExpr => .tryCatch
  | .documentConstructor => .constructor
  | .elementConstructor => .constructor
  | _ => .outsideExpressionSlot

/- Fail because of a defect of the plan. -/
def malformed
    {α : Type}
    (d : Defect) : Except Failure α :=
  .error (.malformed d)

/- A value that a payload or a stage has to provide. -/
def require
    {α : Type}
    (d : Defect)
    (value : Option α) : Except Failure α :=
  match value with
  | some x => .ok x
  | none => malformed d

end Compile

end Flwor

------------------------------------------------------------
-- Expressions and Stages
------------------------------------------------------------

namespace Flwor

namespace Compile

variable (library : Library)

mutual

/- Compile an expression for rows of a layout. -/
def expr : Tree → Layout → Except Failure Expr
  | .node i k p _ cs, layout =>
      match k with
      | .literal => do
          let item ← require .literalWithoutValue p.item?
          return .literal [item]
      | .emptySequence => return .literal []
      | .sequenceExpr => do
          let parts ← exprs cs layout
          return .concat parts
      | .rangeExpr => do
          let low ← operand k i 0 0 cs layout
          let high ← operand k i 1 1 cs layout
          return .range low high
      | .arithmeticExpr => do
          let op ← require .arithmeticWithoutOperator
            p.arithmetic?
          let l ← operand k i 0 0 cs layout
          let r ← operand k i 1 1 cs layout
          return .arithmetic op l r
      | .comparisonExpr => do
          let c ← require .comparisonWithoutOperator
            p.comparison?
          let l ← operand k i 0 0 cs layout
          let r ← operand k i 1 1 cs layout
          return .comparison c l r
      | .andExpr => do
          let l ← operand k i 0 0 cs layout
          let r ← operand k i 1 1 cs layout
          return .and l r
      | .orExpr => do
          let l ← operand k i 0 0 cs layout
          let r ← operand k i 1 1 cs layout
          return .or l r
      | .ifExpr => do
          let c ← operand k i 0 0 cs layout
          let yes ← operand k i 1 1 cs layout
          let no ← operand k i 2 2 cs layout
          return .cond c yes no
      | .functionCall => do
          let name ← require .callWithoutName p.label?
          let args ← exprs cs layout
          let f ← (library.resolve name args.length).mapError
            Failure.evaluation
          return .call f args
      | .variableRef => do
          let name ← require .referenceWithoutVariable p.var?
          let slot ← slotFor layout name
          return .variable slot
      | .pipeExpr => do
          let (tail, result) ← pipeline cs layout
          return .pipeline tail result
      | k => .error (.unsupported (unsupported k))

/- Compile several expressions. -/
def exprs :
    List Tree → Layout → Except Failure (List Expr)
  | [], _ => return []
  | t :: ts, layout => do
      let e ← expr t layout
      let es ← exprs ts layout
      return e :: es

/-
  Compile the operand that so many others precede; its index
  is named if it is missing.
-/
def operand
    (kind : Kind)
    (id : NodeId)
    (index : Nat) :
    Nat → List Tree → Layout → Except Failure Expr
  | _, [], _ => malformed (.childMissing kind id index)
  | 0, t :: _, layout => expr t layout
  | skip + 1, _ :: ts, layout =>
      operand kind id index skip ts layout

/- Compile the last of several expressions. -/
def lastExpr
    (missing : Defect) :
    List Tree → Layout → Except Failure Expr
  | [], _ => malformed missing
  | [t], layout => expr t layout
  | _ :: t :: ts, layout => lastExpr missing (t :: ts) layout

/-
  Compile what stands below a pipeline expression: its tail
  in a fresh context, and its result on the rows of the tail.
-/
def pipeline :
    List Tree → Layout → Except Failure (Operator × Expr)
  | .node i .finish _ _ cs :: _, outer => do
      let (tail, layout) ← stageHead .finish i cs
        (Layout.ofContext outer.names)
      let result ← returned cs layout
      return (tail, result)
  | _, _ => malformed .pipeWithoutEnd

/- Compile the result of a pipeline. -/
def returned :
    List Tree → Layout → Except Failure Expr
  | _ :: t :: _, layout => expr t layout
  | _, _ => malformed .pipeWithoutReturn

/- Compile the stage that feeds a node. -/
def stageHead
    (kind : Kind)
    (id : NodeId) :
    List Tree → Layout →
      Except Failure (Operator × Layout)
  | [], _ => malformed (.childMissing kind id 0)
  | t :: _, context => stage t context

/- The same, without the slots that nobody reads. -/
def trimmedHead
    (kind : Kind)
    (id : NodeId) :
    List Tree → Layout →
      Except Failure (Operator × Layout)
  | [], _ => malformed (.childMissing kind id 0)
  | t :: _, context => do
      let (op, layout) ← stage t context
      return trim t.properties op layout

/- Compile the sort keys of order specs. -/
def sortKeys :
    List Tree → Layout → Except Failure (List SortKey)
  | [], _ => return []
  | .node i k p _ cs :: ts, layout => do
      let order ← require .specWithoutDirection p.order?
      let key ← operand k i 0 0 cs layout
      let keys ← sortKeys ts layout
      return .mk key order :: keys

/- Compile the sort keys that follow the input of a sort. -/
def sortKeysTail :
    List Tree → Layout → Except Failure (List SortKey)
  | [], _ => return []
  | _ :: ts, layout => sortKeys ts layout

/- Compile the inputs and the keys of a join. -/
def join
    (id : NodeId)
    (properties : Properties) :
    List Tree → Layout →
      Except Failure (Operator × Layout)
  | l :: .node ki kk kp _ kcs :: r :: _, context => do
      let comparison ← require .joinWithoutComparison
        kp.comparison?
      let (left, leftLayout) ← stage l context
      let (left, leftLayout) :=
        trim l.properties left leftLayout
      let (right, rightLayout) ← stage r context
      let (right, rightLayout) :=
        trim r.properties right rightLayout
      let leftKey ← operand kk ki 0 0 kcs leftLayout
      let rightKey ← operand kk ki 1 1 kcs rightLayout
      return (
        .join left right leftKey rightKey comparison
          (properties.flag Properties.leftJoin)
          (properties.flag Properties.skipSort)
          context.context rightLayout.locals.length,
        leftLayout.pushAll rightLayout.locals)
  | cs, _ =>
      malformed (.childMissing .join id cs.length)

/- Compile a stage in a context. -/
def stage :
    Tree → Layout → Except Failure (Operator × Layout)
  | .node i k p ps cs, context =>
      let self := Tree.node i k p ps cs
      match k with
      | .start => return (.start, context)
      | .forBind => do
          let (input, layout) ← stageHead k i cs context
          let source ← lastExpr .forWithoutSource cs layout
          let check ← checkedSlot layout ps
          let var ← require .forWithoutVariable self.binding?
          let position := self.position?
          return (.forBind input var position source check,
            layout.pushAll (var :: position.toList))
      | .letBind => do
          let (input, layout) ← stageHead k i cs context
          let var ← require .letWithoutVariable self.binding?
          if isLive ps var then
            let value ← operand k i 2 2 cs layout
            let check ← checkedSlot layout ps
            return (.letBind input var (some value) check,
              layout.push var)
          else
            return (.letBind input var none none,
              layout.push var)
      | .selection => do
          let (input, layout) ← stageHead k i cs context
          let predicate ← operand k i 1 1 cs layout
          return (.select input predicate, layout)
      | .orderBy => do
          let (input, layout) ← trimmedHead k i cs context
          let keys ← sortKeysTail cs layout
          return (.orderBy input keys, layout)
      | .groupBy => do
          let (input, layout) ← stageHead k i cs context
          let keys ← self.groupKeys.mapM (slotFor layout)
          let aggregates ← self.groupAggregates.mapM
            (fun a => do
              let source ← slotFor layout a.2
              return Slot.mk a.1 source.index)
          return (.groupBy input keys aggregates,
            layout.withLocals
              ((keys ++ aggregates).map Slot.name))
      | .count => do
          let (input, layout) ← stageHead k i cs context
          let var ← require .countWithoutVariable
            self.binding?
          return (.count input var, layout.push var)
      | .join => join i ps cs context
      | _ => malformed (.notAStage k i)

end

end Compile

end Flwor
