import Flwor.Item
import Flwor.Plan.Kind

/-
  This file defines the ways in which planning, compiling
  and evaluating a query can fail, by cause, and the one
  function that puts a cause into words.

  Key definitions include:
    * `EvaluationError`
    * `EvaluationError.code`
    * `Defect`
    * `Construct`
    * `CursorFault`
    * `Failure`
    * `Failure.message`
-/

------------------------------------------------------------
-- Evaluation Errors
------------------------------------------------------------

namespace Flwor

/- Operands whose types do not fit an operation. -/
inductive Mismatch where
  | comparison (left right : ItemType)
  | arithmetic
      (op : ArithmeticOp)
      (left right : ItemType)
  | range (bound : ItemType)
  | sum (summand : ItemType)
  | substring (argument : ItemType)
deriving DecidableEq, Repr

namespace Mismatch

/- The mismatch in words. -/
def message
    (m : Mismatch) : String :=
  let (place, detail) : String × String :=
    match m with
    | .comparison l r =>
        ("comparison", l.name ++ " vs " ++ r.name)
    | .arithmetic op l r =>
        ("arithmetic",
         l.name ++ " " ++ op.symbol ++ " " ++ r.name)
    | .range t => ("range", t.name)
    | .sum t => ("sum", t.name)
    | .substring t => ("substring", t.name)
  "type mismatch in " ++ place ++ ": " ++ detail

end Mismatch

/- An error raised by an operator or a function. -/
inductive EvaluationError where
  | mismatch (cause : Mismatch)
  | notSingleton
      (place : String)
      (length : Nat)
  | divisionByZero
  | overflow (place : String)
  | noBooleanValue (length : Nat)
  | unknownFunction
      (name : String)
      (arity : Nat)
  | undefinedVariable (name : String)
  | mixedExtremum
      (function : String)
      (left right : ItemType)
  | badPosition (found : Option ItemType)
deriving DecidableEq, Repr

namespace EvaluationError

/- The standard code of an error. -/
def code : EvaluationError → String
  | .mismatch _ => "XPTY0004"
  | .notSingleton .. => "XPTY0004"
  | .divisionByZero => "FOAR0001"
  | .overflow _ => "FOAR0002"
  | .noBooleanValue _ => "FORG0006"
  | .unknownFunction .. => "XPST0017"
  | .undefinedVariable _ => "XPST0008"
  | .mixedExtremum .. => "FORG0006"
  | .badPosition _ => "FORG0006"

/- The error in words, without its code. -/
def description : EvaluationError → String
  | .mismatch m => m.message
  | .notSingleton place n =>
      place ++ " expects at most one item (got "
        ++ toString n ++ ")"
  | .divisionByZero => "division by zero"
  | .overflow place => "integer overflow in " ++ place
  | .noBooleanValue n =>
      "effective boolean value undefined for a sequence of "
        ++ toString n ++ " atomic items"
  | .unknownFunction name arity =>
      "unknown function " ++ name ++ "#" ++ toString arity
  | .undefinedVariable name =>
      "undefined variable $" ++ name
  | .mixedExtremum function l r =>
      function ++ ": " ++ (Mismatch.comparison l r).message
  | .badPosition (some t) =>
      "substring: " ++ t.name ++ " position"
  | .badPosition none => "substring: empty position"

/- The error in words, after its code. -/
def message
    (e : EvaluationError) : String :=
  "[" ++ e.code ++ "] " ++ e.description

end EvaluationError

end Flwor

------------------------------------------------------------
-- Plan Defects
------------------------------------------------------------

namespace Flwor

/- A rule on the shape of a node that a plan breaks. -/
inductive ShapeRule where
  | childKind
      (index : Nat)
      (kind : Kind)
  | childStage (index : Nat)
  | childCount (found : Nat)
  | finishUnderPipeline
  | orderSpecRequired
  | sortOrderRequired
  | specOrder
  | groupingKeyRequired
  | comparisonRequired
  | variableRequired
  | arithmeticRequired
  | functionRequired
  | axisAndTestRequired
  | axisRequired
  | stageInExpression
deriving DecidableEq, Repr

namespace ShapeRule

/- What is wrong with a node that breaks the rule. -/
def message : ShapeRule → String
  | .childKind i k =>
      "child " ++ toString i ++ " must be " ++ k.name
  | .childStage i =>
      "child " ++ toString i ++ " must be a pipeline stage"
  | .childCount n =>
      "unexpected child count " ++ toString n
  | .finishUnderPipeline =>
      "End must sit directly under PipeExpr"
  | .orderSpecRequired => "needs at least one order spec"
  | .sortOrderRequired => "missing sort order"
  | .specOrder =>
      "expects GroupSpec children followed by AggregateSpec"
        ++ " children"
  | .groupingKeyRequired =>
      "needs at least one grouping key"
  | .comparisonRequired => "missing comparison operator"
  | .variableRequired => "missing variable name"
  | .arithmeticRequired => "missing arithmetic operator"
  | .functionRequired => "missing function name"
  | .axisAndTestRequired => "needs an axis and a node test"
  | .axisRequired => "missing axis"
  | .stageInExpression => "stage in an expression slot"

end ShapeRule

/- A clause list that describes no pipeline. -/
inductive ClauseDefect where
  | forVariable
  | forVariables
  | letVariable
  | orderKeys
  | groupKeys
  | countVariable
  | noClause
deriving DecidableEq, Repr

namespace ClauseDefect

/- What the clause list lacks. -/
def message : ClauseDefect → String
  | .forVariable => "for clause requires a variable name"
  | .forVariables => "for clause requires variable names"
  | .letVariable => "let clause requires a variable name"
  | .orderKeys => "order by requires at least one key"
  | .groupKeys => "group by requires at least one key"
  | .countVariable =>
      "count clause requires a variable name"
  | .noClause => "flwor requires at least one clause"

end ClauseDefect

/- A way in which a plan breaks a structural invariant. -/
inductive Defect where
  | childIndex
  | alreadyAttached
      (kind : Kind)
      (id : Nat)
  | replacingDetached
  | parentWithoutChild
  | stageWithoutConsumer
  | stageInKeySlot
  | stageOutsidePipeline
  | shape
      (kind : Kind)
      (id : Nat)
      (rule : ShapeRule)
  | childMissing
      (kind : Kind)
      (id : Nat)
      (index : Nat)
  | notAStage
      (kind : Kind)
      (id : Nat)
  | pipeWithoutEnd
  | pipeWithoutReturn
  | literalWithoutValue
  | arithmeticWithoutOperator
  | comparisonWithoutOperator
  | callWithoutName
  | referenceWithoutVariable
  | forWithoutSource
  | forWithoutVariable
  | letWithoutVariable
  | specWithoutDirection
  | countWithoutVariable
  | joinWithoutComparison
  | joinInputsMissing
  | joinKeysMissing
  | joinWithoutConsumer
  | endWithoutInput
  | selectionWithoutPredicate
  | bindingOutsideScope
  | closingUnopenedScope
  | slotOutOfRow
      (name : String)
      (slot : Nat)
      (width : Nat)
  | rowTooShort
  | clause (defect : ClauseDefect)
  | reported (text : String)
deriving DecidableEq, Repr

namespace Defect

/- The defect in words. -/
def message : Defect → String
  | .childIndex => "child index out of range"
  | .alreadyAttached k id =>
      "node " ++ k.name ++ " #" ++ toString id
        ++ " is already attached"
  | .replacingDetached => "replacing a detached node"
  | .parentWithoutChild => "parent link without child link"
  | .stageWithoutConsumer =>
      "pipeline stage without consumer"
  | .stageInKeySlot => "stage attached to a join key slot"
  | .stageOutsidePipeline =>
      "stage attached outside a pipeline"
  | .shape k id rule =>
      k.name ++ " #" ++ toString id ++ ": " ++ rule.message
  | .childMissing k id i =>
      k.name ++ " #" ++ toString id ++ " lacks child "
        ++ toString i
  | .notAStage k id =>
      k.name ++ " #" ++ toString id
        ++ " is not a pipeline stage"
  | .pipeWithoutEnd => "pipe expression without end"
  | .pipeWithoutReturn =>
      "pipeline without return expression"
  | .literalWithoutValue => "literal without value"
  | .arithmeticWithoutOperator =>
      "arithmetic without operator"
  | .comparisonWithoutOperator =>
      "comparison without operator"
  | .callWithoutName => "call without function name"
  | .referenceWithoutVariable =>
      "reference without variable"
  | .forWithoutSource => "for without source"
  | .forWithoutVariable => "for without variable"
  | .letWithoutVariable => "let without variable"
  | .specWithoutDirection =>
      "order spec without direction"
  | .countWithoutVariable => "count without variable"
  | .joinWithoutComparison => "join without comparison"
  | .joinInputsMissing =>
      "join needs left input, keys and right input"
  | .joinKeysMissing => "join keys need two operands"
  | .joinWithoutConsumer => "join without consumer"
  | .endWithoutInput => "end without input"
  | .selectionWithoutPredicate =>
      "selection without predicate"
  | .bindingOutsideScope => "binding outside any scope"
  | .closingUnopenedScope =>
      "closing a scope that was never opened"
  | .slotOutOfRow name slot width =>
      "$" ++ name ++ " expected at slot " ++ toString slot
        ++ " of a " ++ toString width ++ "-slot row"
  | .rowTooShort => "row shorter than its layout"
  | .clause d => d.message
  | .reported text => text

end Defect

end Flwor

------------------------------------------------------------
-- Failures
------------------------------------------------------------

namespace Flwor

/- A legal construct that has no evaluation here. -/
inductive Construct where
  | contextItem
  | path
  | filter
  | quantified
  | typeswitch
  | transform
  | tryCatch
  | constructor
  | outsideExpressionSlot
  | reported (text : String)
deriving DecidableEq, Repr

namespace Construct

/- The construct in words. -/
def message : Construct → String
  | .contextItem => "context item expressions"
  | .path => "path expressions"
  | .filter => "filter expressions"
  | .quantified => "quantified expressions"
  | .typeswitch => "typeswitch expressions"
  | .transform => "transform expressions"
  | .tryCatch => "try/catch expressions"
  | .constructor => "node constructors"
  | .outsideExpressionSlot =>
      "plan node outside an expression slot"
  | .reported text => text

end Construct

/- A call that the life cycle of a cursor does not allow. -/
inductive CursorFault where
  | openedTwice
  | openedAfterClose
  | readBeforeOpen
  | readAfterClose
  | joinReadBeforeOpen
deriving DecidableEq, Repr

namespace CursorFault

/- The fault in words. -/
def message : CursorFault → String
  | .openedTwice => "open called twice"
  | .openedAfterClose => "open after close"
  | .readBeforeOpen => "next before open"
  | .readAfterClose => "next after close"
  | .joinReadBeforeOpen => "join read before open"

end CursorFault

/- Any failure of planning, compiling or evaluating. -/
inductive Failure where
  | malformed (defect : Defect)
  | unsupported (construct : Construct)
  | evaluation (error : EvaluationError)
  | cursor (fault : CursorFault)
  | noFixpoint
      (pass : String)
      (traversals : Nat)
deriving DecidableEq, Repr

namespace Failure

/- The failure in words. -/
def message : Failure → String
  | .malformed d => "malformed plan: " ++ d.message
  | .unsupported c => "unsupported: " ++ c.message
  | .evaluation e => e.message
  | .cursor f =>
      "cursor protocol violation: " ++ f.message
  | .noFixpoint pass n =>
      "pass '" ++ pass ++ "' did not converge after "
        ++ toString n ++ " traversals"

end Failure

end Flwor
