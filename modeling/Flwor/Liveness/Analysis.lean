import Flwor.Liveness.Scopes
import Flwor.Names
import Flwor.Stage.Bindings

/-
  This file defines the analysis that finds, for each stage
  of a plan, the bindings that are read after it.

  A pipeline is walked from its first stage on.  A stage
  opens a scope for its bindings, everything after the stage
  is walked inside of it, and what the closed scope reports
  is the annotation of the stage.  The expression of a `let`
  is walked only if the binding is read.

  Both inputs of a join are walked twice: speculatively, to
  learn which of the wanted names they provide, and then
  with the names that each has to provide.  Nothing is
  annotated while a speculative scope is open.

  Key definitions include:
    * `Analysis`
    * `Analysis.expr`
    * `Analysis.input`
    * `Plan.project`
-/

------------------------------------------------------------
-- Steps of the Analysis
------------------------------------------------------------

namespace Flwor

/- The bindings of a stage that are read after it. -/
structure Annotation where
  stage : NodeId
  names : List String
deriving DecidableEq, Repr

/- The open scopes and the annotations made so far. -/
structure AnalysisState where
  scopes : ScopeStack
  annotations : List Annotation
deriving DecidableEq, Repr

/- A step of the analysis. -/
abbrev Analysis :=
  ExceptT Failure (StateM AnalysisState)

namespace Analysis

/- Fail because of a defect of the plan. -/
def fail
    {α : Type}
    (d : Defect) : Analysis α :=
  throw (.malformed d)

/- Open a scope. -/
def openScope
    (speculative : Bool) : Analysis Unit :=
  modify (fun s =>
    { s with scopes := s.scopes.openScope speculative })

/- Bind a name in the innermost scope. -/
def bindName
    (name : String) : Analysis Unit := do
  let s ← get
  match s.scopes.bind name with
  | .ok scopes => set { s with scopes := scopes }
  | .error e => throw e

/- Look a name up. -/
def resolve
    (name : String) : Analysis Unit :=
  modify (fun s =>
    { s with scopes := ScopeStack.resolve name s.scopes })

/- Look several names up. -/
def resolveAll
    (names : List String) : Analysis Unit :=
  names.forM resolve

/- Close the innermost scope. -/
def close : Analysis ClosedScope := do
  let s ← get
  match s.scopes.close with
  | .ok (closed, scopes) =>
      set { s with scopes := scopes }
      return closed
  | .error e => throw e

/- Do something inside of a scope that binds names. -/
def within
    (names : List String)
    (body : Analysis Unit) : Analysis ClosedScope := do
  openScope false
  names.forM bindName
  body
  close

/- The names that something would look up outside. -/
def speculate
    (body : Analysis Unit) : Analysis (List String) := do
  openScope true
  body
  let closed ← close
  return closed.externals

/- Annotate a stage, unless the walk is speculative. -/
def annotate
    (stage : NodeId)
    (names : List String) : Analysis Unit :=
  modify (fun s =>
    if s.scopes.isCommitted then
      { s with
        annotations := s.annotations ++ [⟨stage, names⟩] }
    else s)

/- Look up the variable that a stage checks. -/
def readCheck
    (properties : Properties) : Analysis Unit :=
  resolveAll (properties.var? Properties.check).toList

/- The name of the context item. -/
def contextItem : String :=
  "fs:dot"

/- The names that a filter predicate can read. -/
def focus : List String :=
  [contextItem, "fs:position", "fs:last"]

/- The variables that some nodes declare. -/
def declared
    (nodes : List Tree) : List String :=
  (nodes.filter (fun t => t.kind = .variable)).filterMap
    Tree.var?

/- What each input of a join has to provide. -/
structure JoinSplit where
  left : List String
  right : List String
deriving DecidableEq, Repr

/-
  Split the names that are read after a join.  Names that
  the right input provides go to the right, as its bindings
  come later in a row; the left input takes the rest.
-/
def splitDemand
    (outside leftKey rightKey rightMissing : List String) :
    JoinSplit :=
  let right :=
    (rightKey ++ outside.filter (fun n =>
      !rightMissing.contains n)).eraseDups
  let left :=
    (leftKey ++ outside.filter (fun n =>
      !right.contains n)).eraseDups
  ⟨left, right⟩

end Analysis

end Flwor

------------------------------------------------------------
-- Expressions and Pipelines
------------------------------------------------------------

namespace Flwor

namespace Analysis

mutual

/- Look up everything that an expression reads. -/
def expr : Tree → Analysis Unit
  | .node _ k p _ cs =>
      match k with
      | .variableRef => resolveAll p.var?.toList
      | .contextItemExpr => resolve contextItem
      | .pipeExpr => pipe cs
      | .pathExpr => path cs
      | .filterExpr => filter cs
      | .quantifiedExpr => quantified cs
      | .typeSwitch => cases cs
      | .tryCatchExpr => cases cs
      | .transformExpr => do
          openScope false
          copies cs
          let bound := cs.filter (fun c =>
            c.kind = .copyBinding)
          exprsFrom bound.length cs
          let _ ← close
      | _ => exprs cs

/- Several expressions, in order. -/
def exprs : List Tree → Analysis Unit
  | [] => return ()
  | t :: ts => do
      expr t
      exprs ts

/- All but a number of expressions, in order. -/
def exprsFrom : Nat → List Tree → Analysis Unit
  | _, [] => return ()
  | 0, t :: ts => do
      expr t
      exprsFrom 0 ts
  | skip + 1, _ :: ts => exprsFrom skip ts

/- The expression at a place, if there is one. -/
def exprAt : Nat → List Tree → Analysis Unit
  | _, [] => return ()
  | 0, t :: _ => expr t
  | skip + 1, _ :: ts => exprAt skip ts

/- The last expression, if there is one. -/
def lastExpr : List Tree → Analysis Unit
  | [] => return ()
  | [t] => expr t
  | _ :: t :: ts => lastExpr (t :: ts)

/- The base of a path and the predicates of its steps. -/
def path : List Tree → Analysis Unit
  | [] => return ()
  | base :: steps => do
      expr base
      pathSteps steps

/- The predicates of steps see the context item. -/
def pathSteps : List Tree → Analysis Unit
  | [] => return ()
  | .node _ _ _ _ parts :: rest => do
      let _ ← within [contextItem] (exprsFrom 2 parts)
      pathSteps rest

/- The base of a filter and its predicates. -/
def filter : List Tree → Analysis Unit
  | [] => do
      let _ ← within focus (return ())
  | base :: predicates => do
      expr base
      let _ ← within focus (exprs predicates)

/-
  The bindings of a quantified expression, each visible in
  what follows, and its condition.
-/
def quantified : List Tree → Analysis Unit
  | [] => return ()
  | [condition] => expr condition
  | [_, condition] => expr condition
  | declaration :: source :: t :: rest => do
      expr source
      let _ ← within declaration.var?.toList
        (quantified (t :: rest))

/- An operand and the cases or clauses that follow it. -/
def cases : List Tree → Analysis Unit
  | [] => return ()
  | operand :: rest => do
      expr operand
      caseBodies rest

/- The body of a case sees the variables declared there. -/
def caseBodies : List Tree → Analysis Unit
  | [] => return ()
  | .node _ _ _ _ parts :: rest => do
      let _ ← within (declared parts) (lastExpr parts)
      caseBodies rest

/- The copies of a transformation, each visible afterwards. -/
def copies : List Tree → Analysis Unit
  | [] => return ()
  | .node _ k _ _ parts :: rest => do
      if k = .copyBinding then
        exprAt 1 parts
        (parts.head?.bind Tree.var?).toList.forM bindName
      copies rest

/- A nested pipeline, in a scope of its own. -/
def pipe : List Tree → Analysis Unit
  | .node _ .finish _ _ (tail :: rest) :: _ => do
      let _ ← within [] (input tail [] (returned [] rest))
  | .node _ .finish _ _ [] :: _ => fail .endWithoutInput
  | _ => fail .pipeWithoutEnd

/-
  The result of a pipeline; without one, the names that are
  wanted from its last stage.
-/
def returned
    (wanted : List String) : List Tree → Analysis Unit
  | [] => resolveAll wanted
  | result :: _ => expr result

/- The sort keys that follow the input of a sort. -/
def sortKeysTail : List Tree → Analysis Unit
  | [] => return ()
  | _ :: specs => sortKeys specs

/- The sort keys of order specs. -/
def sortKeys : List Tree → Analysis Unit
  | [] => return ()
  | .node _ _ _ _ parts :: rest => do
      exprAt 0 parts
      sortKeys rest

/-
  Both inputs of a join, its keys, and what comes after it.
  The names bound in between are those that the inputs
  provide.
-/
def join
    (id : NodeId)
    (next : Analysis Unit) : List Tree → Analysis Unit
  | left :: .node _ _ _ _ keys :: right :: rest =>
      match keys with
      | leftKey :: rightKey :: _ => do
          let outside ← speculate next
          let leftReads ← speculate (expr leftKey)
          let rightReads ← speculate (expr rightKey)
          let leftWants := (outside ++ leftReads).eraseDups
          let rightWants := (outside ++ rightReads).eraseDups
          let consumed (names : List String) :
              Analysis Unit :=
            if rest.isEmpty then resolveAll names
            else fail .stageInKeySlot
          let leftMissing ← speculate
            (input left leftWants (resolveAll leftWants))
          let rightMissing ← speculate
            (input right rightWants (consumed rightWants))
          let split := splitDemand outside leftReads
            rightReads rightMissing
          input left split.left (resolveAll split.left)
          input right split.right (consumed split.right)
          openScope false
          (split.left.filter (fun n =>
            !leftMissing.contains n)).forM bindName
          (split.right.filter (fun n =>
            !rightMissing.contains n)).forM bindName
          expr leftKey
          expr rightKey
          let closed ← within [] next
          annotate id closed.externals
          let _ ← close
      | _ => fail .joinKeysMissing
  | _ => fail .joinInputsMissing

/-
  The stages up to a tail, and then what reads the rows of
  the tail; some names are wanted from it.  A stage reads its
  expressions on the rows of its input, before its bindings.
-/
def input :
    Tree → List String → Analysis Unit → Analysis Unit
  | .node i k p ps cs, wanted, next =>
      let self := Tree.node i k p ps cs
      let body : Analysis Unit :=
        if k = .join then join i next cs
        else do
          match k with
          | .forBind =>
              lastExpr cs
              readCheck ps
          | .selection => exprAt 1 cs
          | .orderBy => sortKeysTail cs
          | .groupBy =>
              resolveAll self.groupKeys
              resolveAll (self.groupAggregates.map Prod.snd)
          | .start => pure ()
          | .letBind => pure ()
          | .count => pure ()
          | _ => fail (.notAStage k i)
          let closed ← within self.bound next
          let demand := closed.demand
          if k = .letBind then
            let live :=
              (self.binding?.map demand.contains).getD false
            if live then
              exprAt 2 cs
              readCheck ps
          annotate i demand
      if k = .start ∨ k = .join then body
      else
        match cs with
        | [] => body
        | [source] =>
            input source wanted
              (if k.isStage then body
               else if k = .finish then resolveAll wanted
               else fail .stageOutsidePipeline)
        | source :: result :: _ =>
            input source wanted
              (if k.isStage then body
               else if k = .finish then expr result
               else fail .stageOutsidePipeline)

end

mutual

/- Analyse every outermost pipeline of a tree. -/
def outermost : Tree → Analysis Unit
  | .node _ k _ _ cs =>
      if k = .pipeExpr then pipe cs
      else outermostAll cs

/- Analyse every outermost pipeline of several trees. -/
def outermostAll : List Tree → Analysis Unit
  | [] => return ()
  | t :: ts => do
      outermost t
      outermostAll ts

end

end Analysis

end Flwor

------------------------------------------------------------
-- Projections
------------------------------------------------------------

namespace Flwor

namespace Plan

/- Write annotations into a plan. -/
def annotate
    (plan : Plan)
    (annotations : List Annotation) : Plan :=
  annotations.foldl
    (fun plan a =>
      plan.setProperty a.stage Properties.project
        (.vars a.names))
    plan

/-
  Annotate the stages of a plan with the bindings that are
  read after them, and count the annotations.  Those made
  before a failure stay.
-/
def project
    (plan : Plan) : Except Failure Nat × Plan :=
  let (result, state) :=
    StateT.run
      (ExceptT.run (Analysis.outermost plan.rootTree))
      ⟨[], []⟩
  (result.map (fun _ => state.annotations.length),
   plan.annotate state.annotations)

end Plan

end Flwor
