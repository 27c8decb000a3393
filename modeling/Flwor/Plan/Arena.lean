import Flwor.Plan.Node

/-
  This file defines plans as arenas: nodes addressed by
  stable indices, linked to their parent and children.

  Edits detach and attach nodes in place.  A detached node
  stays in the arena, keeps its index and is no longer
  reachable from the root.  An edit that fails keeps what
  was done before it, so its state outlives the failure.

  Key definitions include:
    * `NodeId`
    * `Node`
    * `Plan`
    * `Plan.ofNode`
    * `Edit`
    * `Edit.add`, `Edit.addWith`
    * `Edit.append`, `Edit.insert`, `Edit.remove`
    * `Edit.replaceChild`, `Edit.replace`
    * `Plan.generatedName`, `Plan.freshNumber`
    * `Edit.fresh`
-/

------------------------------------------------------------
-- Arenas
------------------------------------------------------------

namespace Flwor

/- The index of a node in its arena. -/
abbrev NodeId :=
  Nat

/- A node with its links. -/
structure Node where
  kind : Kind
  payload : Payload
  parent : Option NodeId
  children : List NodeId
  properties : Properties
deriving DecidableEq, Repr, Inhabited

/-
  An arena of nodes, its root, and the number of the last
  generated variable name.
-/
structure Plan where
  nodes : Array Node
  root : NodeId
  counter : Nat
deriving DecidableEq, Repr

namespace Plan

/- An arena without nodes. -/
def empty : Plan :=
  ⟨#[], 0, 0⟩

/- A plan of one node. -/
def ofNode
    (kind : Kind)
    (payload : Payload) : Plan :=
  ⟨#[⟨kind, payload, none, [], []⟩], 0, 0⟩

/- The number of nodes, reachable or not. -/
def size
    (plan : Plan) : Nat :=
  plan.nodes.size

/- The node at an index. -/
def node
    (plan : Plan)
    (id : NodeId) : Node :=
  plan.nodes.getD id default

/- The kind of a node. -/
def kind
    (plan : Plan)
    (id : NodeId) : Kind :=
  (plan.node id).kind

/- The payload of a node. -/
def payload
    (plan : Plan)
    (id : NodeId) : Payload :=
  (plan.node id).payload

/- The variable that the payload of a node names. -/
def var?
    (plan : Plan)
    (id : NodeId) : Option String :=
  (plan.payload id).var?

/- The parent of a node. -/
def parent?
    (plan : Plan)
    (id : NodeId) : Option NodeId :=
  (plan.node id).parent

/- The children of a node, in order. -/
def children
    (plan : Plan)
    (id : NodeId) : List NodeId :=
  (plan.node id).children

/- One child of a node. -/
def child?
    (plan : Plan)
    (id : NodeId)
    (index : Nat) : Option NodeId :=
  (plan.children id)[index]?

/- The last child of a node. -/
def lastChild?
    (plan : Plan)
    (id : NodeId) : Option NodeId :=
  (plan.children id).getLast?

/- The annotations of a node. -/
def properties
    (plan : Plan)
    (id : NodeId) : Properties :=
  (plan.node id).properties

/- The place of a node among the children of its parent. -/
def indexInParent?
    (plan : Plan)
    (id : NodeId) : Option Nat :=
  match plan.parent? id with
  | some parent =>
      (plan.children parent).findIdx? (fun c => c == id)
  | none => none

/- Whether a node has a parent or is the root. -/
def isAttached
    (plan : Plan)
    (id : NodeId) : Bool :=
  (plan.parent? id).isSome || id == plan.root

/- Change one node. -/
def modify
    (plan : Plan)
    (id : NodeId)
    (change : Node → Node) : Plan :=
  { plan with nodes := plan.nodes.modify id change }

/- Set the parent link of a node. -/
def setParent
    (plan : Plan)
    (id : NodeId)
    (parent : Option NodeId) : Plan :=
  plan.modify id (fun n => { n with parent := parent })

/- Set the child links of a node. -/
def setChildren
    (plan : Plan)
    (id : NodeId)
    (children : List NodeId) : Plan :=
  plan.modify id (fun n => { n with children := children })

/- Set the payload of a node. -/
def setPayload
    (plan : Plan)
    (id : NodeId)
    (payload : Payload) : Plan :=
  plan.modify id (fun n => { n with payload := payload })

/- Set a property of a node. -/
def setProperty
    (plan : Plan)
    (id : NodeId)
    (key : String)
    (value : Property) : Plan :=
  plan.modify id (fun n =>
    { n with
      properties := Properties.put key value n.properties })

/- Remove a property of a node. -/
def eraseProperty
    (plan : Plan)
    (id : NodeId)
    (key : String) : Plan :=
  plan.modify id (fun n =>
    { n with properties := n.properties.erase key })

end Plan

end Flwor

------------------------------------------------------------
-- Edits
------------------------------------------------------------

namespace Flwor

/- A change of a plan that may fail part of the way. -/
abbrev Edit :=
  ExceptT Failure (StateM Plan)

namespace Edit

/- Run an edit; the plan it leaves stands beside its answer. -/
def run
    {α : Type}
    (edit : Edit α)
    (plan : Plan) : Except Failure α × Plan :=
  StateT.run (ExceptT.run edit) plan

/- Fail because of a structural defect. -/
def fail
    {α : Type}
    (defect : Defect) : Edit α :=
  throw (.malformed defect)

/- Add a detached node. -/
def add
    (kind : Kind)
    (payload : Payload)
    (properties : Properties) : Edit NodeId := do
  let plan ← get
  set { plan with
    nodes := plan.nodes.push
      ⟨kind, payload, none, [], properties⟩ }
  return plan.size

/- Refuse a node that is already in place. -/
def requireDetached
    (id : NodeId) : Edit Unit := do
  let plan ← get
  if plan.isAttached id then
    fail (.alreadyAttached (plan.kind id) id)

/- Attach a detached node at a place among the children. -/
def insert
    (parent : NodeId)
    (index : Nat)
    (child : NodeId) : Edit Unit := do
  requireDetached child
  let plan ← get
  if (plan.children parent).length < index then
    fail .childIndex
  let children := (plan.children parent).insertIdx index child
  set ((plan.setChildren parent children).setParent
    child (some parent))

/- Attach a detached node after the children. -/
def append
    (parent : NodeId)
    (child : NodeId) : Edit Unit := do
  let plan ← get
  insert parent (plan.children parent).length child

/- Detach a child. -/
def remove
    (parent : NodeId)
    (index : Nat) : Edit NodeId := do
  let plan ← get
  match plan.child? parent index with
  | none => fail .childIndex
  | some child =>
      let children := (plan.children parent).eraseIdx index
      set ((plan.setChildren parent children).setParent
        child none)
      return child

/- Put a detached node in place of a child, detaching it. -/
def replaceChild
    (parent : NodeId)
    (index : Nat)
    (new : NodeId) : Edit NodeId := do
  requireDetached new
  let plan ← get
  match plan.child? parent index with
  | none => fail .childIndex
  | some old =>
      let children := (plan.children parent).set index new
      let attached :=
        (plan.setChildren parent children).setParent
          new (some parent)
      set (attached.setParent old none)
      return old

/- Put a detached node where another one stands. -/
def replace
    (old : NodeId)
    (new : NodeId) : Edit Unit := do
  let plan ← get
  if old = plan.root then
    requireDetached new
    set { plan with root := new }
  else
    match plan.parent? old with
    | none => fail .replacingDetached
    | some parent =>
        match plan.indexInParent? old with
        | none => fail .parentWithoutChild
        | some index =>
            let _ ← replaceChild parent index new

/- Add a node and attach detached children to it. -/
def addWith
    (kind : Kind)
    (payload : Payload)
    (children : List NodeId) : Edit NodeId := do
  let id ← add kind payload []
  children.forM (append id)
  return id

/- Set a property of a node. -/
def setProperty
    (id : NodeId)
    (key : String)
    (value : Property) : Edit Unit :=
  modify (fun plan => plan.setProperty id key value)

/- Remove a property of a node. -/
def eraseProperty
    (id : NodeId)
    (key : String) : Edit Unit :=
  modify (fun plan => plan.eraseProperty id key)

end Edit

end Flwor

------------------------------------------------------------
-- Generated Names
------------------------------------------------------------

namespace Flwor

namespace Plan

/-
  Generated names contain a character that no name in a
  query has.
-/
def generatedName
    (hint : String)
    (number : Nat) : String :=
  "#" ++ hint ++ toString number

/- The variables that payloads name, detached ones too. -/
def usedNames
    (plan : Plan) : List String :=
  plan.nodes.toList.filterMap (fun n => n.payload.var?)

/-
  The first number after the counter whose name is unused.
  Among one more candidate than there are nodes one is free.
-/
def freshNumber
    (plan : Plan)
    (hint : String) : Nat :=
  let used := plan.usedNames
  let candidates :=
    List.range' (plan.counter + 1) (plan.size + 1)
  (candidates.find? (fun k =>
    !used.contains (generatedName hint k))).getD
      (plan.counter + plan.size + 1)

end Plan

namespace Edit

/- Generate a variable name that no node uses. -/
def fresh
    (hint : String) : Edit String := do
  let plan ← get
  let number := plan.freshNumber hint
  set { plan with counter := number }
  return Plan.generatedName hint number

end Edit

end Flwor
