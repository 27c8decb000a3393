/-
  This file defines the kinds of plan nodes and the small
  vocabularies that their payloads draw from, each with the
  name under which it is written in documents.

  Key definitions include:
    * `Kind`
    * `Kind.isStage`
    * `Axis`
    * `SortOrder`
    * `Quantifier`
-/

------------------------------------------------------------
-- Node Kinds
------------------------------------------------------------

namespace Flwor

/-
  The kinds of plan nodes.  The first group makes up the
  pipelines, the second one the expressions; `finish` is the
  last node of a pipeline.
-/
inductive Kind where
  | pipeExpr
  | start
  | finish
  | forBind
  | letBind
  | selection
  | orderBy
  | orderSpec
  | groupBy
  | groupSpec
  | aggregateSpec
  | count
  | join
  | joinExpr
  | variable
  | posVariable
  | literal
  | emptySequence
  | sequenceExpr
  | rangeExpr
  | arithmeticExpr
  | comparisonExpr
  | andExpr
  | orExpr
  | ifExpr
  | functionCall
  | variableRef
  | contextItemExpr
  | pathExpr
  | stepExpr
  | axisSpec
  | nameTest
  | kindTestAnyKind
  | filterExpr
  | quantifiedExpr
  | typeSwitch
  | typeSwitchCase
  | sequenceType
  | transformExpr
  | copyBinding
  | tryCatchExpr
  | catchClause
  | documentConstructor
  | elementConstructor
deriving DecidableEq, Repr, Inhabited

namespace Kind

/- Every kind, in the order of declaration. -/
def all : List Kind :=
  [.pipeExpr, .start, .finish, .forBind, .letBind,
   .selection, .orderBy, .orderSpec, .groupBy, .groupSpec,
   .aggregateSpec, .count, .join, .joinExpr, .variable,
   .posVariable, .literal, .emptySequence, .sequenceExpr,
   .rangeExpr, .arithmeticExpr, .comparisonExpr, .andExpr,
   .orExpr, .ifExpr, .functionCall, .variableRef,
   .contextItemExpr, .pathExpr, .stepExpr, .axisSpec,
   .nameTest, .kindTestAnyKind, .filterExpr, .quantifiedExpr,
   .typeSwitch, .typeSwitchCase, .sequenceType,
   .transformExpr, .copyBinding, .tryCatchExpr, .catchClause,
   .documentConstructor, .elementConstructor]

/- The written name of a kind. -/
def name : Kind → String
  | .pipeExpr => "PipeExpr"
  | .start => "Start"
  | .finish => "End"
  | .forBind => "ForBind"
  | .letBind => "LetBind"
  | .selection => "Selection"
  | .orderBy => "OrderBy"
  | .orderSpec => "OrderSpec"
  | .groupBy => "GroupBy"
  | .groupSpec => "GroupSpec"
  | .aggregateSpec => "AggregateSpec"
  | .count => "Count"
  | .join => "Join"
  | .joinExpr => "JoinExpr"
  | .variable => "Variable"
  | .posVariable => "PosVariable"
  | .literal => "Literal"
  | .emptySequence => "EmptySequence"
  | .sequenceExpr => "SequenceExpr"
  | .rangeExpr => "RangeExpr"
  | .arithmeticExpr => "ArithmeticExpr"
  | .comparisonExpr => "ComparisonExpr"
  | .andExpr => "AndExpr"
  | .orExpr => "OrExpr"
  | .ifExpr => "IfExpr"
  | .functionCall => "FunctionCall"
  | .variableRef => "VariableRef"
  | .contextItemExpr => "ContextItemExpr"
  | .pathExpr => "PathExpr"
  | .stepExpr => "StepExpr"
  | .axisSpec => "AxisSpec"
  | .nameTest => "NameTest"
  | .kindTestAnyKind => "KindTestAnyKind"
  | .filterExpr => "FilterExpr"
  | .quantifiedExpr => "QuantifiedExpr"
  | .typeSwitch => "TypeSwitch"
  | .typeSwitchCase => "TypeSwitchCase"
  | .sequenceType => "SequenceType"
  | .transformExpr => "TransformExpr"
  | .copyBinding => "CopyBinding"
  | .tryCatchExpr => "TryCatchExpr"
  | .catchClause => "CatchClause"
  | .documentConstructor => "DocumentConstructor"
  | .elementConstructor => "ElementConstructor"

/- The kind with the given written name. -/
def ofName?
    (s : String) : Option Kind :=
  all.find? (fun k => k.name == s)

/-
  Whether the kind is a stage of a pipeline: a step that
  reads rows from child 0, or the source of the first row.
-/
def isStage : Kind → Bool
  | .start => true
  | .forBind => true
  | .letBind => true
  | .selection => true
  | .orderBy => true
  | .groupBy => true
  | .count => true
  | .join => true
  | _ => false

end Kind

end Flwor

------------------------------------------------------------
-- Axes
------------------------------------------------------------

namespace Flwor

/- The direction in which a path step moves. -/
inductive Axis where
  | child
  | descendant
  | descendantOrSelf
  | attribute
  | selfAxis
  | parent
  | ancestor
  | ancestorOrSelf
  | followingSibling
  | precedingSibling
  | following
  | preceding
deriving DecidableEq, Repr, Inhabited

namespace Axis

/- Every axis, in the order of declaration. -/
def all : List Axis :=
  [.child, .descendant, .descendantOrSelf, .attribute,
   .selfAxis, .parent, .ancestor, .ancestorOrSelf,
   .followingSibling, .precedingSibling, .following,
   .preceding]

/- The name of an axis in documents. -/
def name : Axis → String
  | .child => "Child"
  | .descendant => "Descendant"
  | .descendantOrSelf => "DescendantOrSelf"
  | .attribute => "Attribute"
  | .selfAxis => "SelfAxis"
  | .parent => "Parent"
  | .ancestor => "Ancestor"
  | .ancestorOrSelf => "AncestorOrSelf"
  | .followingSibling => "FollowingSibling"
  | .precedingSibling => "PrecedingSibling"
  | .following => "Following"
  | .preceding => "Preceding"

/- The name of an axis in path expressions. -/
def symbol : Axis → String
  | .child => "child"
  | .descendant => "descendant"
  | .descendantOrSelf => "descendant-or-self"
  | .attribute => "attribute"
  | .selfAxis => "self"
  | .parent => "parent"
  | .ancestor => "ancestor"
  | .ancestorOrSelf => "ancestor-or-self"
  | .followingSibling => "following-sibling"
  | .precedingSibling => "preceding-sibling"
  | .following => "following"
  | .preceding => "preceding"

/- The axis with the given document name. -/
def ofName?
    (s : String) : Option Axis :=
  all.find? (fun a => a.name == s)

end Axis

end Flwor

------------------------------------------------------------
-- Sort Orders and Quantifiers
------------------------------------------------------------

namespace Flwor

/- The direction of one sort key. -/
inductive SortOrder where
  | ascending
  | descending
deriving DecidableEq, Repr, Inhabited

namespace SortOrder

/- The name of a direction in documents. -/
def name : SortOrder → String
  | .ascending => "Ascending"
  | .descending => "Descending"

/- The direction with the given document name. -/
def ofName?
    (s : String) : Option SortOrder :=
  [ascending, descending].find? (fun o => o.name == s)

/- The keyword of a direction. -/
def keyword : SortOrder → String
  | .ascending => "ascending"
  | .descending => "descending"

/- The short keyword of a direction. -/
def abbreviation : SortOrder → String
  | .ascending => "asc"
  | .descending => "desc"

/- Turn an ascending comparison into one in the direction. -/
def apply : SortOrder → Ordering → Ordering
  | .ascending, c => c
  | .descending, c => c.swap

end SortOrder

/- Whether some or every item has to satisfy a condition. -/
inductive Quantifier where
  | some
  | every
deriving DecidableEq, Repr, Inhabited

namespace Quantifier

/- The name of a quantifier in documents. -/
def name : Quantifier → String
  | .some => "Some"
  | .every => "Every"

/- The quantifier with the given document name. -/
def ofName?
    (s : String) : Option Quantifier :=
  [Quantifier.some, Quantifier.every].find?
    (fun q => q.name == s)

/- The keyword of a quantifier. -/
def keyword : Quantifier → String
  | .some => "some"
  | .every => "every"

end Quantifier

end Flwor
