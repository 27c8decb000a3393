import Flwor.Plan.Arena

/-
  This file defines the tree below a node of an arena, its
  document form, and the way back from documents.

  Every analysis that only looks downwards is a recursion on
  this tree; the arena is needed to look upwards and to
  change a plan.

  Key definitions include:
    * `Tree`
    * `Tree.ids`
    * `Plan.tree`
    * `Plan.subtree`
    * `Tree.document`
    * `Plan.document`
    * `Edit.install`
    * `Edit.copy`
    * `Plan.ofDocument`
    * `Plan.render`
-/

------------------------------------------------------------
-- Trees
------------------------------------------------------------

namespace Flwor

/- A node together with everything below it. -/
inductive Tree where
  | node
      (id : NodeId)
      (kind : Kind)
      (payload : Payload)
      (properties : Properties)
      (children : List Tree)
deriving Inhabited

namespace Tree

/- The index of the topmost node. -/
def id : Tree → NodeId
  | .node i _ _ _ _ => i

/- The kind of the topmost node. -/
def kind : Tree → Kind
  | .node _ k _ _ _ => k

/- The payload of the topmost node. -/
def payload : Tree → Payload
  | .node _ _ p _ _ => p

/- The annotations of the topmost node. -/
def properties : Tree → Properties
  | .node _ _ _ ps _ => ps

/- The trees below the topmost node. -/
def children : Tree → List Tree
  | .node _ _ _ _ cs => cs

mutual

/- The indices of all nodes, each before those below it. -/
def ids : Tree → List NodeId
  | .node i _ _ _ cs => i :: idsAll cs

/- The indices of all nodes of several trees. -/
def idsAll : List Tree → List NodeId
  | [] => []
  | t :: ts => ids t ++ idsAll ts

end

mutual

/- All subtrees, each before those below it. -/
def subtrees : Tree → List Tree
  | .node i k p ps cs =>
      .node i k p ps cs :: subtreesAll cs

/- All subtrees of several trees. -/
def subtreesAll : List Tree → List Tree
  | [] => []
  | t :: ts => subtrees t ++ subtreesAll ts

end

mutual

/- The tree without the indices of its nodes. -/
def document : Tree → Document
  | .node _ k p ps cs => .node k p (documentAll cs) ps

/- Several trees without the indices of their nodes. -/
def documentAll : List Tree → List Document
  | [] => []
  | t :: ts => document t :: documentAll ts

end

mutual

/- One line for each node, indented by its depth. -/
def render
    (depth : Nat) : Tree → String
  | .node _ k p ps cs =>
      String.ofList (List.replicate (2 * depth) ' ')
        ++ k.name
        ++ (if p = .none then "" else " " ++ p.text)
        ++ (if ps.isEmpty then ""
            else " \x7b" ++ Properties.text ps ++ "\x7d")
        ++ "\n"
        ++ renderAll (depth + 1) cs

/- The lines of several trees. -/
def renderAll
    (depth : Nat) : List Tree → String
  | [] => ""
  | t :: ts => render depth t ++ renderAll depth ts

end

end Tree

end Flwor

------------------------------------------------------------
-- Trees of an Arena
------------------------------------------------------------

namespace Flwor

namespace Plan

/- The tree below a node, down to a given depth. -/
def treeWithin
    (plan : Plan) : Nat → NodeId → Tree
  | 0, id =>
      .node id (plan.kind id) (plan.payload id)
        (plan.properties id) []
  | depth + 1, id =>
      .node id (plan.kind id) (plan.payload id)
        (plan.properties id)
        ((plan.children id).map (plan.treeWithin depth))

/-
  The tree below a node.  No path without repetition is
  longer than the number of nodes.
-/
def tree
    (plan : Plan)
    (id : NodeId) : Tree :=
  plan.treeWithin plan.size id

/- The tree below the root. -/
def rootTree
    (plan : Plan) : Tree :=
  plan.tree plan.root

/- The nodes of a subtree, each before those below it. -/
def subtree
    (plan : Plan)
    (id : NodeId) : List NodeId :=
  (plan.tree id).ids

/- The number of nodes below the root, which is included. -/
def reachableCount
    (plan : Plan) : Nat :=
  (plan.subtree plan.root).length

/- The document form of a subtree. -/
def document
    (plan : Plan)
    (id : NodeId) : Document :=
  (plan.tree id).document

/- The text of the reachable tree. -/
def render
    (plan : Plan) : String :=
  plan.rootTree.render 0

end Plan

end Flwor

------------------------------------------------------------
-- Installing Documents
------------------------------------------------------------

namespace Flwor

namespace Edit

mutual

/- Add a document as a detached subtree, in pre-order. -/
def install : Document → Edit NodeId
  | .node kind payload children properties => do
      let id ← add kind payload properties
      installAll id children
      return id

/- Add documents as the further children of a node. -/
def installAll
    (parent : NodeId) : List Document → Edit Unit
  | [] => return ()
  | d :: ds => do
      let child ← install d
      append parent child
      installAll parent ds

end

/- Add a copy of a subtree, detached. -/
def copy
    (id : NodeId) : Edit NodeId := do
  let plan ← get
  install (plan.document id)

end Edit

namespace Plan

/- The plan that a document describes, whatever its shape. -/
def ofDocument
    (d : Document) : Except Failure Plan :=
  match (Edit.install d).run empty with
  | (.ok root, plan) => .ok { plan with root := root }
  | (.error e, _) => .error e

end Plan

end Flwor
