import Flwor.Plan.Tree

/-
  This file defines which plans are well formed: every node
  has the children and the payload that its kind asks for,
  and stages stand only where rows are read from them.

  Key definitions include:
    * `Site`
    * `Site.readsRows`
    * `Tree.brokenRule?`
    * `Tree.firstDefect?`
    * `Plan.validate`
    * `Plan.ofValidDocument`
-/

------------------------------------------------------------
-- Rules of One Node
------------------------------------------------------------

namespace Flwor

/- The place of a node below its parent. -/
structure Site where
  kind : Kind
  id : NodeId
  index : Nat
  count : Nat
deriving DecidableEq, Repr

namespace Site

/- Whether the parent reads rows from the place. -/
def readsRows
    (site : Site) : Bool :=
  match site.kind with
  | .finish => true
  | .join =>
      site.index == 0 || site.index + 1 == site.count
  | k => k.isStage && site.index == 0

end Site

namespace ShapeRule

/- The rule, unless its condition is met. -/
def brokenUnless
    (rule : ShapeRule)
    (condition : Bool) : Option ShapeRule :=
  if condition then none else some rule

/- The number of children is one of those allowed. -/
def countIn
    (allowed : List Nat)
    (children : List Tree) : Option ShapeRule :=
  (childCount children.length).brokenUnless
    (allowed.contains children.length)

/- A child has a given kind. -/
def kindAt
    (children : List Tree)
    (index : Nat)
    (kind : Kind) : Option ShapeRule :=
  (childKind index kind).brokenUnless
    (children[index]?.map Tree.kind == some kind)

/- A child is a stage. -/
def stageAt
    (children : List Tree)
    (index : Nat) : Option ShapeRule :=
  (childStage index).brokenUnless
    ((children[index]?.map
      (fun t => t.kind.isStage)).getD false)

/- All children after the first are order specs. -/
def orderSpecs
    (children : List Tree) : Option ShapeRule :=
  (List.range' 1 (children.length - 1)).findSome?
    (fun i => kindAt children i .orderSpec)

/- Keys come before aggregates, and nothing else occurs. -/
def specsInOrder : Bool → List Kind → Bool
  | _, [] => true
  | seen, .groupSpec :: rest =>
      !seen && specsInOrder seen rest
  | _, .aggregateSpec :: rest => specsInOrder true rest
  | _, _ :: _ => false

end ShapeRule

namespace Tree

/- The first rule on its own shape that a node breaks. -/
def brokenRule?
    (site : Option Site)
    (t : Tree) : Option ShapeRule :=
  let cs := t.children
  let p := t.payload
  match t.kind with
  | .pipeExpr =>
      ShapeRule.countIn [1] cs
        <|> ShapeRule.kindAt cs 0 .finish
  | .finish =>
      ShapeRule.countIn [1, 2] cs
        <|> ShapeRule.stageAt cs 0
        <|> ShapeRule.finishUnderPipeline.brokenUnless
          (site.map Site.kind == some .pipeExpr)
  | .start => ShapeRule.countIn [0] cs
  | .forBind =>
      ShapeRule.countIn [3, 4] cs
        <|> ShapeRule.stageAt cs 0
        <|> ShapeRule.kindAt cs 1 .variable
        <|> (if cs.length = 4 then
              ShapeRule.kindAt cs 2 .posVariable
            else none)
  | .letBind =>
      ShapeRule.countIn [3] cs
        <|> ShapeRule.stageAt cs 0
        <|> ShapeRule.kindAt cs 1 .variable
  | .selection =>
      ShapeRule.countIn [2] cs <|> ShapeRule.stageAt cs 0
  | .orderBy =>
      ShapeRule.orderSpecRequired.brokenUnless (2 ≤ cs.length)
        <|> ShapeRule.stageAt cs 0
        <|> ShapeRule.orderSpecs cs
  | .orderSpec =>
      ShapeRule.countIn [1] cs
        <|> ShapeRule.sortOrderRequired.brokenUnless
          p.order?.isSome
  | .groupBy =>
      ShapeRule.stageAt cs 0
        <|> ShapeRule.specOrder.brokenUnless
          (ShapeRule.specsInOrder false
            ((cs.drop 1).map Tree.kind))
        <|> ShapeRule.groupingKeyRequired.brokenUnless
          (2 ≤ cs.length)
  | .groupSpec =>
      ShapeRule.countIn [1] cs
        <|> ShapeRule.kindAt cs 0 .variableRef
  | .aggregateSpec =>
      ShapeRule.countIn [2] cs
        <|> ShapeRule.kindAt cs 0 .variable
        <|> ShapeRule.kindAt cs 1 .variableRef
  | .count =>
      ShapeRule.countIn [2] cs
        <|> ShapeRule.stageAt cs 0
        <|> ShapeRule.kindAt cs 1 .variable
  | .join =>
      ShapeRule.countIn [3] cs
        <|> ShapeRule.stageAt cs 0
        <|> ShapeRule.kindAt cs 1 .joinExpr
        <|> ShapeRule.stageAt cs 2
  | .joinExpr =>
      ShapeRule.countIn [2] cs
        <|> ShapeRule.comparisonRequired.brokenUnless
          p.comparison?.isSome
  | .variable =>
      ShapeRule.variableRequired.brokenUnless p.var?.isSome
  | .posVariable =>
      ShapeRule.variableRequired.brokenUnless p.var?.isSome
  | .variableRef =>
      ShapeRule.variableRequired.brokenUnless p.var?.isSome
  | .comparisonExpr =>
      ShapeRule.countIn [2] cs
        <|> ShapeRule.comparisonRequired.brokenUnless
          p.comparison?.isSome
  | .arithmeticExpr =>
      ShapeRule.countIn [2] cs
        <|> ShapeRule.arithmeticRequired.brokenUnless
          p.arithmetic?.isSome
  | .functionCall =>
      ShapeRule.functionRequired.brokenUnless p.label?.isSome
  | .stepExpr =>
      ShapeRule.axisAndTestRequired.brokenUnless
          (2 ≤ cs.length)
        <|> ShapeRule.kindAt cs 0 .axisSpec
  | .axisSpec =>
      ShapeRule.axisRequired.brokenUnless p.axis?.isSome
  | _ => none

end Tree

end Flwor

------------------------------------------------------------
-- Rules of a Whole Plan
------------------------------------------------------------

namespace Flwor

namespace Tree

/-
  The defect of one node, if it has one.  A stage in the
  wrong place is a defect of its parent.
-/
def ownDefect?
    (site : Option Site)
    (t : Tree) : Option Defect :=
  match t.brokenRule? site with
  | some rule => some (.shape t.kind t.id rule)
  | none =>
      match site with
      | some s =>
          if t.kind.isStage && !s.readsRows then
            some (.shape s.kind s.id .stageInExpression)
          else none
      | none => none

mutual

/- The first defect of a tree, in pre-order. -/
def firstDefect?
    (site : Option Site) : Tree → Option Defect
  | .node i k p ps cs =>
      match ownDefect? site (.node i k p ps cs) with
      | some d => some d
      | none => firstDefectAll? ⟨k, i, 0, cs.length⟩ cs

/- The first defect of the children from a place on. -/
def firstDefectAll?
    (site : Site) : List Tree → Option Defect
  | [] => none
  | t :: ts =>
      match firstDefect? (some site) t with
      | some d => some d
      | none =>
          firstDefectAll?
            { site with index := site.index + 1 } ts

end

end Tree

namespace Plan

/- Check every reachable node of a plan. -/
def validate
    (plan : Plan) : Except Failure Unit :=
  match plan.rootTree.firstDefect? none with
  | some d => .error (.malformed d)
  | none => .ok ()

/- The plan that a well-formed document describes. -/
def ofValidDocument
    (d : Document) : Except Failure Plan := do
  let plan ← ofDocument d
  plan.validate
  return plan

end Plan

end Flwor
