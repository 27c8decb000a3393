import Flwor.Names
import Flwor.Plan.Tree

/-
  This file defines what the stages of a pipeline bind, read
  and show to the stages after them.

  A pipeline is stored with its input first: child 0 of a
  stage is the stage that feeds it.  A join has the tail of
  its left input as its first child and the tail of its
  right input as its last child.

  Key definitions include:
    * `Tree.input?`
    * `Tree.stages`, `Tree.chain`
    * `Tree.entry`
    * `Tree.binding?`, `Tree.position?`
    * `Tree.groupKeys`, `Tree.groupAggregates`
    * `Tree.bound`
    * `Tree.visible`
    * `Tree.ownExpressions`
    * `Tree.references`
    * `Tree.stageReads`
-/

------------------------------------------------------------
-- Chains of Stages
------------------------------------------------------------

namespace Flwor

namespace Tree

/- The stage that feeds a stage. -/
def input?
    (t : Tree) : Option Tree :=
  if t.kind = .start then none else t.children.head?

/- The end of a pipeline expression. -/
def finish?
    (t : Tree) : Option Tree :=
  t.children.head?.filter (fun c => c.kind = .finish)

mutual

/- The stages from a tail back to the start. -/
def stages : Tree → List Tree
  | .node i k p ps cs =>
      .node i k p ps cs
        :: (if k = .start then [] else stagesHead cs)

/- The stages back from the first of several trees. -/
def stagesHead : List Tree → List Tree
  | [] => []
  | t :: _ => stages t

end

/- The stages from a tail back to the start, by index. -/
def chain
    (tail : Tree) : List NodeId :=
  tail.stages.map id

mutual

/-
  The first stage of the chain of a tail: its start, or the
  nearest join.
-/
def entry : Tree → NodeId
  | .node i k _ _ cs =>
      if k = .start ∨ k = .join then i
      else entryHead i cs

/- The entry of the first of several trees, if there is one. -/
def entryHead
    (last : NodeId) : List Tree → NodeId
  | [] => last
  | t :: _ => entry t

end

end Tree

end Flwor

------------------------------------------------------------
-- Bindings
------------------------------------------------------------

namespace Flwor

namespace Tree

/- The variable that the payload of a node names. -/
def var?
    (t : Tree) : Option String :=
  t.payload.var?

/- The variable that a child declares or reads. -/
def childVar?
    (t : Tree)
    (index : Nat) : Option String :=
  t.children[index]?.bind var?

/- The main variable that a stage binds. -/
def binding?
    (t : Tree) : Option String :=
  match t.kind with
  | .forBind => t.childVar? 1
  | .letBind => t.childVar? 1
  | .count => t.childVar? 1
  | _ => none

/- The variable that holds the position in a `for`. -/
def position?
    (t : Tree) : Option String :=
  if t.kind = .forBind then
    (t.children[2]?.filter
      (fun c => c.kind = .posVariable)).bind var?
  else none

/- The keys of a grouping. -/
def groupKeys
    (t : Tree) : List String :=
  ((t.children.drop 1).filter
    (fun c => c.kind = .groupSpec)).filterMap
      (fun c => c.childVar? 0)

/- The target and source of each aggregate of a grouping. -/
def groupAggregates
    (t : Tree) : List (String × String) :=
  ((t.children.drop 1).filter
    (fun c => c.kind = .aggregateSpec)).filterMap
      (fun c =>
        match c.childVar? 0, c.childVar? 1 with
        | some target, some source => some (target, source)
        | _, _ => none)

/- The variables that a stage itself binds, in row order. -/
def bound
    (t : Tree) : List String :=
  match t.kind with
  | .forBind => t.binding?.toList ++ t.position?.toList
  | .letBind => t.binding?.toList
  | .count => t.binding?.toList
  | .groupBy =>
      t.groupKeys ++ t.groupAggregates.map Prod.fst
  | _ => []

mutual

/-
  The bindings of the pipeline that are visible after a
  stage, in row order.
-/
def visible : Tree → List String
  | .node i k p ps cs =>
      match k with
      | .start => []
      | .groupBy => bound (.node i k p ps cs)
      | .join => visibleHead cs ++ visibleLast cs
      | _ => visibleHead cs ++ bound (.node i k p ps cs)

/- The bindings visible after the first of several stages. -/
def visibleHead : List Tree → List String
  | [] => []
  | t :: _ => visible t

/- The bindings visible after the last of several stages. -/
def visibleLast : List Tree → List String
  | [] => []
  | [t] => visible t
  | _ :: t :: ts => visibleLast (t :: ts)

end

end Tree

end Flwor

------------------------------------------------------------
-- References
------------------------------------------------------------

namespace Flwor

namespace Tree

/-
  The expressions of a stage or of an end.  All but the
  expressions of joins are evaluated on the rows of child 0.
-/
def ownExpressions
    (t : Tree) : List Tree :=
  match t.kind with
  | .forBind => t.children.getLast?.toList
  | .letBind => t.children.getLast?.toList
  | .selection => t.children[1]?.toList
  | .finish => t.children[1]?.toList
  | .orderBy =>
      (t.children.drop 1).filterMap
        (fun spec => spec.children.head?)
  | .join =>
      match t.children[1]? with
      | some keys => keys.children
      | none => []
  | _ => []

/- The variables that one node reads. -/
def nodeReferences
    (kind : Kind)
    (payload : Payload)
    (properties : Properties) : List String :=
  (if kind = .variableRef then payload.var?.toList else [])
    ++ (properties.var? Properties.check).toList

mutual

/-
  The variables read anywhere in a tree.  Bindings inside of
  the tree are not subtracted.
-/
def references : Tree → List String
  | .node _ k p ps cs =>
      nodeReferences k p ps ++ referencesAll cs

/- The variables read anywhere in several trees. -/
def referencesAll : List Tree → List String
  | [] => []
  | t :: ts => references t ++ referencesAll ts

end

mutual

/- The variables read in a tree outside of a subtree. -/
def referencesOutside
    (excluded : NodeId) : Tree → List String
  | .node i k p ps cs =>
      if i = excluded then []
      else
        nodeReferences k p ps
          ++ referencesOutsideAll excluded cs

/- The variables read in trees outside of a subtree. -/
def referencesOutsideAll
    (excluded : NodeId) : List Tree → List String
  | [] => []
  | t :: ts =>
      referencesOutside excluded t
        ++ referencesOutsideAll excluded ts

end

/- The variables that a stage reads itself. -/
def stageReads
    (t : Tree) : List String :=
  t.ownExpressions.flatMap references
    ++ (if t.kind = .groupBy then
          t.groupKeys ++ t.groupAggregates.map Prod.snd
        else [])
    ++ (t.properties.var? Properties.check).toList

end Tree

end Flwor
