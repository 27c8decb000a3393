import Flwor.Plan.Node

/-
  This file defines how documents are put together: one
  function for each kind of expression, and clauses that are
  stacked into a pipeline in the order in which they are
  written.

  Key definitions include:
    * `Document.reference`, `Document.literal`,
      `Document.compare` and so on
    * `Clause`
    * `Clause.stackAll`
    * `Document.flwor`
-/

------------------------------------------------------------
-- Expressions
------------------------------------------------------------

namespace Flwor

namespace Document

/- A reference to a variable. -/
def reference
    (name : String) : Document :=
  carrying .variableRef (.var name)

/- A declaration of a variable. -/
def declaration
    (kind : Kind)
    (name : String) : Document :=
  carrying kind (.var name)

/- A literal with a payload. -/
def literal
    (payload : Payload) : Document :=
  carrying .literal payload

/- The empty sequence. -/
def emptySequence : Document :=
  leaf .emptySequence

/- A sequence of expressions. -/
def sequence
    (items : List Document) : Document :=
  branch .sequenceExpr items

/- A range of integers. -/
def range
    (low high : Document) : Document :=
  branch .rangeExpr [low, high]

/- An arithmetic expression. -/
def arithmetic
    (op : ArithmeticOp)
    (left right : Document) : Document :=
  .node .arithmeticExpr (.arith op) [left, right] []

/- A comparison. -/
def compare
    (comparison : Comparison)
    (left right : Document) : Document :=
  .node .comparisonExpr (.cmp comparison) [left, right] []

/- A general equality. -/
def equal
    (left right : Document) : Document :=
  compare (.general .eq) left right

/- A conjunction. -/
def both
    (left right : Document) : Document :=
  branch .andExpr [left, right]

/- A disjunction. -/
def either
    (left right : Document) : Document :=
  branch .orExpr [left, right]

/- A conditional expression. -/
def conditional
    (condition yes no : Document) : Document :=
  branch .ifExpr [condition, yes, no]

/- A call of a function by name. -/
def call
    (name : String)
    (arguments : List Document) : Document :=
  .node .functionCall (.label name) arguments []

/- A path from a base through steps. -/
def path
    (base : Document)
    (steps : List Document) : Document :=
  branch .pathExpr (base :: steps)

/- A step with predicates. -/
def step
    (axis : Axis)
    (test : Document)
    (predicates : List Document) : Document :=
  branch .stepExpr
    (carrying .axisSpec (.axis axis) :: test :: predicates)

/- A test for a name. -/
def nameTest
    (name : String) : Document :=
  carrying .nameTest (.label name)

/- A test that every node passes. -/
def anyKind : Document :=
  leaf .kindTestAnyKind

end Document

end Flwor

------------------------------------------------------------
-- Clauses
------------------------------------------------------------

namespace Flwor

/- A sort key of an `order by` clause. -/
structure OrderTerm where
  key : Document
  order : SortOrder

/- A variable that a `group by` clause collects into. -/
structure CollectTerm where
  target : String
  source : String
deriving DecidableEq, Repr

/- A clause of a query. -/
inductive Clause where
  | forIn
      (name : String)
      (source : Document)
  | forAt
      (name position : String)
      (source : Document)
  | letBe
      (name : String)
      (value : Document)
  | whereHolds (predicate : Document)
  | orderBy (terms : List OrderTerm)
  | groupBy
      (keys : List String)
      (collected : List CollectTerm)
  | count (name : String)
  | join
      (right : List Clause)
      (comparison : Comparison)
      (leftKey rightKey : Document)
      (leftJoin : Bool)

namespace Clause

/- The node of a sort key. -/
def orderSpec
    (term : OrderTerm) : Document :=
  .node .orderSpec (.order term.order) [term.key] []

/- The node of a grouping key. -/
def groupSpec
    (key : String) : Document :=
  .branch .groupSpec [.reference key]

/- The node of a collected variable. -/
def aggregateSpec
    (term : CollectTerm) : Document :=
  .branch .aggregateSpec
    [.declaration .variable term.target,
     .reference term.source]

/- A stage on top of its input. -/
def stage
    (kind : Kind)
    (input : Document)
    (parts : List Document) : Document :=
  .branch kind (input :: parts)

/- The defect of a clause, unless a condition holds. -/
def require
    (condition : Bool)
    (defect : ClauseDefect)
    (d : Document) : Except ClauseDefect Document :=
  if condition then .ok d else .error defect

/- The annotations of a join. -/
def joinProperties
    (leftJoin : Bool) : Properties :=
  if leftJoin then [(Properties.leftJoin, .flag true)]
  else []

mutual

/- Stack a clause on what comes before it. -/
def stack
    (input : Document) :
    Clause → Except ClauseDefect Document
  | .forIn name source =>
      require (name != "") .forVariable
        (stage .forBind input
          [.declaration .variable name, source])
  | .forAt name position source =>
      require (name != "" && position != "") .forVariables
        (stage .forBind input
          [.declaration .variable name,
           .declaration .posVariable position, source])
  | .letBe name value =>
      require (name != "") .letVariable
        (stage .letBind input
          [.declaration .variable name, value])
  | .whereHolds predicate =>
      .ok (stage .selection input [predicate])
  | .orderBy terms =>
      require (!terms.isEmpty) .orderKeys
        (stage .orderBy input (terms.map orderSpec))
  | .groupBy keys collected =>
      require (!keys.isEmpty) .groupKeys
        (stage .groupBy input
          (keys.map groupSpec
            ++ collected.map aggregateSpec))
  | .count name =>
      require (name != "") .countVariable
        (stage .count input
          [.declaration .variable name])
  | .join right comparison leftKey rightKey leftJoin => do
      let tail ← stackAll (.leaf .start) right
      let keys := Document.node .joinExpr (.cmp comparison)
        [leftKey, rightKey] []
      return .node .join .none [input, keys, tail]
        (joinProperties leftJoin)

/- Stack clauses in order, up to the first defect. -/
def stackAll
    (input : Document) :
    List Clause → Except ClauseDefect Document
  | [] => .ok input
  | clause :: rest => do
      let stacked ← stack input clause
      stackAll stacked rest

end

end Clause

namespace Document

/- The pipeline of some clauses and a result. -/
def flwor
    (clauses : List Clause)
    (result : Document) : Except Failure Document :=
  let malformed (d : ClauseDefect) : Failure :=
    .malformed (.clause d)
  match Clause.stackAll (leaf .start) clauses with
  | .error d => .error (malformed d)
  | .ok tail =>
      if clauses.isEmpty then .error (malformed .noClause)
      else
        .ok (branch .pipeExpr [branch .finish [tail, result]])

end Document

end Flwor
