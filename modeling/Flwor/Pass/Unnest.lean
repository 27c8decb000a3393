import Flwor.Pass.Moves
import Flwor.Walk

/-
  This file defines the pass that replaces nested pipelines
  by joins.

  A nested pipeline can be replaced if a single comparison
  ties it to the rows outside.  Bound by a `let`, it becomes
  a left join of the numbered outer rows, whose regrouping
  is left pending; bound by a `for` without position, it
  becomes an inner join.  One that is buried in a larger
  expression is first bound by a `let` of its own.

  Key definitions include:
    * `Candidate`
    * `Tree.correlation?`
    * `Tree.candidate?`
    * `Pass.extractPipe`
    * `Pass.leftJoinLet`
    * `Pass.innerJoinFor`
    * `Pass.unnest`
-/

------------------------------------------------------------
-- Candidates
------------------------------------------------------------

namespace Flwor

/- The comparison that ties an inner row to an outer one. -/
structure Correlation where
  selection : NodeId
  outerSide : Nat
  relation : Relation
  innerKey : Tree
  boundBefore : List String

/-
  A nested pipeline that can become a join: its end, the
  correlating selection, its first variable and all of its
  variables.
-/
structure Candidate where
  finish : NodeId
  correlation : Correlation
  run : String
  bound : List String

namespace Tree

/- Whether a tree reads outer variables and nothing else. -/
def readsOnly
    (outer : List String)
    (t : Tree) : Bool :=
  !t.references.isEmpty
    && t.references.all outer.contains

/- Whether a tree reads no outer variable. -/
def readsNone
    (outer : List String)
    (t : Tree) : Bool :=
  t.references.all (fun n => !outer.contains n)

/-
  The correlation that a selection states: a general
  comparison of which one side reads only outer variables
  and the other side none.
-/
def correlation?
    (outer bound : List String)
    (selection : Tree) : Option Correlation :=
  match selection.children[1]? with
  | some (Tree.node _ .comparisonExpr
      (.cmp (.general relation)) _ (left :: right :: _)) =>
      if left.readsOnly outer && right.readsNone outer then
        some ⟨selection.id, 0, relation, right, bound⟩
      else if right.readsOnly outer
          && left.readsNone outer then
        some ⟨selection.id, 1, relation, left, bound⟩
      else none
  | _ => none

/-
  Go through the inner stages from the first one on, with
  the variables bound so far.  All stages but the first
  correlating selection have to be independent of the outer
  variables, and no variable may be bound twice.
-/
def scanStages
    (outer : List String) :
    List String → Option Correlation → List Tree →
      Option (List String × Option Correlation)
  | bound, found, [] => some (bound, found)
  | bound, found, stage :: rest =>
      let admitted :=
        stage.kind = .forBind || stage.kind = .letBind
          || stage.kind = .selection
      if !admitted
          || (stage.properties.get? Properties.check).isSome
      then none
      else
        let correlation :=
          if found.isNone && stage.kind = .selection then
            stage.correlation? outer bound
          else none
        match correlation with
        | some c => scanStages outer bound (some c) rest
        | none =>
            let new := stage.bound
            if stage.stageReads.any outer.contains
                || !Names.disjoint new bound
                || new.eraseDups.length ≠ new.length then
              none
            else
              scanStages outer (bound ++ new) found rest

/-
  The way to replace a nested pipeline, given the variables
  of the rows outside.  The key of an inner row is evaluated
  below all inner stages, so it must not read a variable
  that is bound after the selection.
-/
def candidate?
    (outer : List String)
    (pipe : Tree) : Option Candidate := do
  guard (pipe.kind = .pipeExpr)
  let finish ← pipe.finish?
  guard (2 ≤ finish.children.length)
  let tail ← finish.children.head?
  match tail.stages.reverse with
  | start :: first :: second :: rest =>
      guard (start.kind = .start)
      guard (first.kind = .forBind)
      let (bound, found) ←
        scanStages outer [] none (first :: second :: rest)
      let correlation ← found
      guard (Names.disjoint bound outer)
      guard (correlation.innerKey.references.all (fun n =>
        !bound.contains n
          || correlation.boundBefore.contains n))
      let run ← first.binding?
      return ⟨finish.id, correlation, run, bound⟩
  | _ => none

end Tree

namespace Plan

/-
  The way to replace the pipeline that a stage binds.  Its
  variables become visible in the outer pipeline, so they
  must not be read there.
-/
def candidate?
    (plan : Plan)
    (stage pipe : NodeId) : Option Candidate := do
  let feeder ← plan.child? stage 0
  let candidate ←
    (plan.tree pipe).candidate? (plan.visible feeder)
  let finish ← plan.enclosingFinish? stage
  let elsewhere :=
    (plan.tree finish).referencesOutside pipe
  guard (Names.disjoint candidate.bound elsewhere)
  return candidate

end Plan

end Flwor

------------------------------------------------------------
-- Replacing Pipelines
------------------------------------------------------------

namespace Flwor

namespace Pass

/- The parts that a nested pipeline leaves behind. -/
structure InnerParts where
  keys : NodeId
  tail : NodeId
  result : NodeId

/-
  Take a nested pipeline apart: the keys of the join, the
  stages without the correlating selection, and the result.
-/
def takeApart
    (candidate : Candidate) : Edit InnerParts := do
  let c := candidate.correlation
  let plan ← get
  match plan.child? c.selection 1 with
  | none => Edit.fail .selectionWithoutPredicate
  | some predicate =>
      let outerKey ← Edit.remove predicate c.outerSide
      let innerKey ← Edit.remove predicate 0
      let relation :=
        if c.outerSide = 0 then c.relation
        else c.relation.converse
      let keys ← Edit.addWith .joinExpr
        (.cmp (.general relation)) [outerKey, innerKey]
      Edit.bypass c.selection
      let result ← Edit.remove candidate.finish 1
      let tail ← Edit.remove candidate.finish 0
      return ⟨keys, tail, result⟩

/- Whether the slot of a stage is bound by the stage itself. -/
def bindsSlot
    (plan : Plan)
    (stage : NodeId) : Bool :=
  match plan.kind stage with
  | .letBind => true
  | .forBind => (plan.tree stage).position?.isNone
  | _ => false

/-
  Bind the first replaceable pipeline that is buried in the
  expression of a stage by a `let` in front of the stage.
-/
def extractPipe
    (stage : NodeId) : Edit Bool := do
  let plan ← get
  if plan.isChecked stage then return false
  match plan.rowExpr? stage, plan.child? stage 0 with
  | some slot, some feeder =>
      let outer := plan.visible feeder
      let pipes := (plan.tree slot).eagerPipes
      let pipe? := pipes.find? (fun pipe =>
        !(pipe == slot && bindsSlot plan stage)
          && ((plan.tree pipe).candidate? outer).isSome)
      match pipe? with
      | none => return false
      | some pipe =>
          let name ← Edit.fresh "n"
          let reference ←
            Edit.add .variableRef (.var name) []
          Edit.replace pipe reference
          let declared ← Edit.add .variable (.var name) []
          let bind ←
            Edit.addWith .letBind .none [declared, pipe]
          Edit.interpose stage bind
          return true
  | _, _ => return false

/-
  Turn a `let` of a nested pipeline into a left join.  If
  the result is not simply an inner variable, it is bound
  above the join, unless the row had no match.
-/
def leftJoinLet
    (stage : NodeId) : Edit Bool := do
  let plan ← get
  if plan.isChecked stage then return false
  let candidate? :=
    (plan.child? stage 2).bind (plan.candidate? stage)
  match candidate? with
  | none => return false
  | some candidate =>
      match (plan.tree stage).binding? with
      | none => Edit.fail .letWithoutVariable
      | some target =>
          let feeder ← Edit.remove stage 0
          let number ← Edit.fresh "pos"
          let declared ← Edit.add .variable (.var number) []
          let count ←
            Edit.addWith .count .none [feeder, declared]
          let inner ← takeApart candidate
          let join ← Edit.addWith .join .none
            [count, inner.keys, inner.tail]
          Edit.setProperty join Properties.leftJoin
            (.flag true)
          let plan ← get
          let returned :=
            if plan.kind inner.result = .variableRef then
              (plan.var? inner.result).filter
                candidate.bound.contains
            else none
          match returned with
          | some source =>
              Edit.setProperty join Properties.regroup
                (.vars [target, source])
              Edit.replace stage join
              return true
          | none =>
              let source ← Edit.fresh "r"
              let declared ←
                Edit.add .variable (.var source) []
              let bind ← Edit.addWith .letBind .none
                [join, declared, inner.result]
              Edit.setProperty bind Properties.check
                (.var candidate.run)
              Edit.setProperty join Properties.regroup
                (.vars [target, source])
              Edit.replace stage bind
              return true

/- Turn a `for` over a nested pipeline into an inner join. -/
def innerJoinFor
    (stage : NodeId) : Edit Bool := do
  let plan ← get
  let tree := plan.tree stage
  if plan.isChecked stage || tree.position?.isSome then
    return false
  let candidate? :=
    (plan.lastChild? stage).bind (plan.candidate? stage)
  match candidate? with
  | none => return false
  | some candidate =>
      match tree.binding? with
      | none => Edit.fail .forWithoutVariable
      | some target =>
          if candidate.bound.contains target then
            return false
          let feeder ← Edit.remove stage 0
          let inner ← takeApart candidate
          let join ← Edit.addWith .join .none
            [feeder, inner.keys, inner.tail]
          let declared ← Edit.add .variable (.var target) []
          let bind ← Edit.addWith .forBind .none
            [join, declared, inner.result]
          Edit.replace stage bind
          return true

/- Extract or replace a nested pipeline of one stage. -/
def unnestStage
    (stage : NodeId) : Edit Bool := do
  match (← get).kind stage with
  | .finish => extractPipe stage
  | .selection => extractPipe stage
  | .letBind =>
      if ← extractPipe stage then return true
      else leftJoinLet stage
  | .forBind =>
      if ← extractPipe stage then return true
      else innerJoinFor stage
  | _ => return false

/- Replace nested pipelines until none is replaceable. -/
def unnest : Pass where
  name := "unnest"
  transform := unnestStage

end Pass

end Flwor
