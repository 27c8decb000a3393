import Flwor.Pass.MatchOrder
import Flwor.Proofs.Arena.Calls
import Flwor.Proofs.Convergence.Traversals
import Flwor.Proofs.Liveness.Annotated

/-
  The pass that marks joins has no effect on its own
  decisions, so that one traversal settles them.

  Whether the order of a join's matches can be observed does
  not depend on the marks of other joins.  This is shown by
  taking all marks away.

  Key definitions include:
    * `Tree.unmark`, `Plan.unmark`
    * `Plan.MarkedFrom`
    * `Pass.Marks`

  Key theorems include:
    * `Plan.orderMatters?_unmark`
    * `Pass.converges_joinSortElimination`
-/

------------------------------------------------------------
-- Trees Without Marks
------------------------------------------------------------

namespace Flwor

namespace Properties

/- The annotations but the mark of a join. -/
def unmark
    (ps : Properties) : Properties :=
  ps.erase skipSort

theorem get?_erase_of_ne
    {key other : String}
    (hOther : other ≠ key)
    (ps : Properties) :
    (ps.erase key).get? other = ps.get? other := by
  unfold get?
  induction ps with
  | nil => rfl
  | cons entry rest ih =>
      rcases entry with ⟨k, v⟩
      rw [erase] at ih ⊢
      rw [List.filter_cons, List.lookup_cons]
      split
      · rw [List.lookup_cons, ih]
      next hKey =>
        have hEq : k = key := by simpa using hKey
        have hBeq : (other == k) = false := by
          simpa [hEq] using hOther
        rw [hBeq, ih]

@[simp] theorem get?_unmark
    (ps : Properties)
    {key : String}
    (hKey : key ≠ skipSort) :
    ps.unmark.get? key = ps.get? key :=
  get?_erase_of_ne hKey ps

/- A new mark is taken away again. -/
theorem unmark_put
    (value : Property)
    (ps : Properties) :
    unmark (put skipSort value ps) = ps.unmark := by
  unfold unmark
  induction ps with
  | nil => simp [put, erase]
  | cons entry rest ih =>
      rcases entry with ⟨k, v⟩
      rw [put]
      split
      next hKey => simp [erase, hKey]
      next hKey =>
        split
        · simp [erase]
        · rw [erase] at ih ⊢
          rw [List.filter_cons, ih, erase, erase,
            List.filter_cons]

end Properties

namespace Tree

mutual

/- A tree whose joins carry no marks. -/
def unmark : Tree → Tree
  | .node i k p ps cs => .node i k p ps.unmark (unmarkAll cs)

/- Trees whose joins carry no marks. -/
def unmarkAll : List Tree → List Tree
  | [] => []
  | t :: ts => unmark t :: unmarkAll ts

end

theorem unmarkAll_eq
    (ts : List Tree) :
    unmarkAll ts = ts.map unmark := by
  induction ts with
  | nil => rfl
  | cons t rest ih => rw [unmarkAll, ih, List.map_cons]

@[simp] theorem kind_unmark
    (t : Tree) :
    t.unmark.kind = t.kind := by
  rcases t with ⟨i, k, p, ps, cs⟩
  rfl

@[simp] theorem var?_unmark
    (t : Tree) :
    t.unmark.var? = t.var? := by
  rcases t with ⟨i, k, p, ps, cs⟩
  rfl

@[simp] theorem check_unmark
    (t : Tree) :
    t.unmark.properties.get? Properties.check =
      t.properties.get? Properties.check := by
  rcases t with ⟨i, k, p, ps, cs⟩
  exact Properties.get?_unmark ps (by decide)

@[simp] theorem children_unmark
    (t : Tree) :
    t.unmark.children = t.children.map unmark := by
  rcases t with ⟨i, k, p, ps, cs⟩
  exact unmarkAll_eq cs

@[simp] theorem childVar?_unmark
    (t : Tree)
    (index : Nat) :
    t.unmark.childVar? index = t.childVar? index := by
  rw [childVar?, childVar?, children_unmark,
    List.getElem?_map]
  cases t.children[index]? <;> simp

@[simp] theorem binding?_unmark
    (t : Tree) :
    t.unmark.binding? = t.binding? := by
  simp [binding?]

@[simp] theorem position?_unmark
    (t : Tree) :
    t.unmark.position? = t.position? := by
  simp only [position?, kind_unmark, children_unmark,
    List.getElem?_map, Option.filter_map,
    Option.bind_map, Function.comp_def, var?_unmark]

@[simp] theorem groupKeys_unmark
    (t : Tree) :
    t.unmark.groupKeys = t.groupKeys := by
  simp [groupKeys, ← List.map_tail, List.filter_map,
    List.filterMap_map, Function.comp_def]

@[simp] theorem groupAggregates_unmark
    (t : Tree) :
    t.unmark.groupAggregates = t.groupAggregates := by
  simp [groupAggregates, ← List.map_tail, List.filter_map,
    List.filterMap_map, Function.comp_def]

@[simp] theorem bound_unmark
    (t : Tree) :
    t.unmark.bound = t.bound := by
  simp [bound]

mutual

@[simp] theorem visible_unmark :
    ∀ t : Tree, t.unmark.visible = t.visible
  | .node i k p ps cs => by
      have hBound := bound_unmark (.node i k p ps cs)
      rw [unmark] at hBound ⊢
      cases k <;>
        simp [visible, hBound, visibleHead_unmarkAll cs,
          visibleLast_unmarkAll cs]

theorem visibleHead_unmarkAll :
    ∀ ts : List Tree,
      visibleHead (unmarkAll ts) = visibleHead ts
  | [] => rfl
  | t :: ts => by
      rw [unmarkAll, visibleHead, visibleHead,
        visible_unmark t]

theorem visibleLast_unmarkAll :
    ∀ ts : List Tree,
      visibleLast (unmarkAll ts) = visibleLast ts
  | [] => rfl
  | [t] => by
      rw [unmarkAll, unmarkAll, visibleLast, visibleLast,
        visible_unmark t]
  | t :: u :: ts => by
      have hRest := visibleLast_unmarkAll (u :: ts)
      rw [unmarkAll] at hRest ⊢
      rw [unmarkAll, visibleLast, hRest, visibleLast]

end

@[simp] theorem stages_unmark :
    ∀ t : Tree, t.unmark.stages = t.stages.map unmark
  | .node i k p ps [] => by
      simp [unmark, unmarkAll, stages, stagesHead]
  | .node i k p ps (c :: cs) => by
      rw [unmark, unmarkAll, stages, stages, List.map_cons,
        unmark, unmarkAll]
      split
      · rfl
      · rw [stagesHead, stagesHead, stages_unmark c]

theorem nodeReferences_unmark
    (k : Kind)
    (p : Payload)
    (ps : Properties) :
    nodeReferences k p ps.unmark = nodeReferences k p ps := by
  have hCheck : Properties.check ≠ Properties.skipSort := by
    decide
  simp [nodeReferences, Properties.var?, hCheck]

mutual

@[simp] theorem references_unmark :
    ∀ t : Tree, t.unmark.references = t.references
  | .node i k p ps cs => by
      rw [unmark, references, nodeReferences_unmark,
        referencesAll_unmarkAll cs, references]

theorem referencesAll_unmarkAll :
    ∀ ts : List Tree,
      referencesAll (unmarkAll ts) = referencesAll ts
  | [] => rfl
  | t :: ts => by
      rw [unmarkAll, referencesAll, references_unmark t,
        referencesAll_unmarkAll ts, referencesAll]

end

theorem ownExpressions_unmark
    (t : Tree) :
    t.unmark.ownExpressions =
      t.ownExpressions.map unmark := by
  have hOption (o : Option Tree) :
      (o.map unmark).toList = o.toList.map unmark := by
    cases o <;> rfl
  have hSpecs :
      ((t.children.map unmark).drop 1).filterMap (fun spec =>
          spec.children.head?) =
        ((t.children.drop 1).filterMap (fun spec =>
          spec.children.head?)).map unmark := by
    rw [← List.map_drop, List.filterMap_map,
      List.map_filterMap]
    simp
  unfold ownExpressions
  rw [kind_unmark, children_unmark, List.getLast?_map,
    List.getElem?_map, hOption, hOption, hSpecs]
  cases t.kind <;> try rfl
  cases t.children[1]? with
  | none => rfl
  | some keys => exact children_unmark keys

@[simp] theorem stageReads_unmark
    (t : Tree) :
    t.unmark.stageReads = t.stageReads := by
  simp [stageReads, ownExpressions_unmark, List.flatMap_map,
    Properties.var?]

mutual

@[simp] theorem readsOrder_unmark
    (blind : OrderBlind)
    (names : List String) :
    ∀ (shielded : Bool) (t : Tree),
      t.unmark.readsOrder blind names shielded =
        t.readsOrder blind names shielded
  | shielded, .node i k p ps cs => by
      have hLength : (unmarkAll cs).length = cs.length := by
        rw [unmarkAll_eq, List.length_map]
      simp only [unmark, readsOrder, hLength,
        readsOrderAny_unmarkAll blind names _ cs]

theorem readsOrderAny_unmarkAll
    (blind : OrderBlind)
    (names : List String) :
    ∀ (shielded : Bool) (ts : List Tree),
      readsOrderAny blind names shielded (unmarkAll ts) =
        readsOrderAny blind names shielded ts
  | shielded, [] => rfl
  | shielded, t :: ts => by
      rw [unmarkAll, readsOrderAny,
        readsOrder_unmark blind names shielded t,
        readsOrderAny_unmarkAll blind names shielded ts,
        readsOrderAny]

end

@[simp] theorem derived_unmark
    (dependents : List String)
    (t : Tree) :
    t.unmark.derived dependents = t.derived dependents := by
  simp [derived]

end Tree

end Flwor

------------------------------------------------------------
-- Plans Without Marks
------------------------------------------------------------

namespace Flwor

/- A node without the mark of a join. -/
def Node.unmark
    (n : Node) : Node :=
  { n with properties := n.properties.unmark }

namespace Plan

/- A plan whose joins carry no marks. -/
def unmark
    (plan : Plan) : Plan :=
  { plan with nodes := plan.nodes.map Node.unmark }

variable (plan : Plan)

@[simp] theorem root_unmark :
    plan.unmark.root = plan.root :=
  rfl

@[simp] theorem size_unmark :
    plan.unmark.size = plan.size :=
  Array.size_map

@[simp] theorem node_unmark
    (id : NodeId) :
    plan.unmark.node id = (plan.node id).unmark := by
  simp only [node, unmark, Array.getD_eq_getD_getElem?,
    Array.getElem?_map]
  cases plan.nodes[id]? <;> rfl

@[simp] theorem kind_unmark
    (id : NodeId) :
    plan.unmark.kind id = plan.kind id := by
  rw [kind, node_unmark]
  rfl

@[simp] theorem payload_unmark
    (id : NodeId) :
    plan.unmark.payload id = plan.payload id := by
  rw [payload, node_unmark]
  rfl

@[simp] theorem parent?_unmark
    (id : NodeId) :
    plan.unmark.parent? id = plan.parent? id := by
  rw [parent?, node_unmark]
  rfl

@[simp] theorem children_unmark
    (id : NodeId) :
    plan.unmark.children id = plan.children id := by
  rw [children, node_unmark]
  rfl

@[simp] theorem properties_unmark
    (id : NodeId) :
    plan.unmark.properties id =
      (plan.properties id).unmark := by
  rw [properties, node_unmark]
  rfl

@[simp] theorem child?_unmark
    (id : NodeId)
    (index : Nat) :
    plan.unmark.child? id index = plan.child? id index := by
  simp [child?]

@[simp] theorem lastChild?_unmark
    (id : NodeId) :
    plan.unmark.lastChild? id = plan.lastChild? id := by
  simp [lastChild?]

@[simp] theorem tree_unmark
    (id : NodeId) :
    plan.unmark.tree id = (plan.tree id).unmark := by
  have hWithin (depth : Nat) (id : NodeId) :
      plan.unmark.treeWithin depth id =
        (plan.treeWithin depth id).unmark := by
    induction depth generalizing id with
    | zero => simp [treeWithin, Tree.unmark, Tree.unmarkAll]
    | succ depth ih =>
        simp [treeWithin, Tree.unmark, Tree.unmarkAll_eq,
          Function.comp_def, ih]
  rw [tree, size_unmark, hWithin, tree]

@[simp] theorem stagesAfter_unmark
    (stage : NodeId) :
    plan.unmark.stagesAfter stage =
      plan.stagesAfter stage := by
  have hWithin (steps : Nat) (stage : NodeId) :
      plan.unmark.stagesAfterWithin steps stage =
        plan.stagesAfterWithin steps stage := by
    induction steps generalizing stage with
    | zero => rfl
    | succ steps ih => simp [stagesAfterWithin, consumer, ih]
  rw [stagesAfter, size_unmark, hWithin, stagesAfter]

@[simp] theorem readsOrder_unmark
    (blind : OrderBlind)
    (group : NodeId)
    (names : List String) :
    plan.unmark.readsOrder blind group names =
      plan.readsOrder blind group names := by
  have hWithin (steps : Nat) (node : NodeId) :
      plan.unmark.readsOrderWithin blind names steps node =
        plan.readsOrderWithin blind names steps node := by
    induction steps generalizing node with
    | zero => rfl
    | succ steps ih => simp [readsOrderWithin, ih]
  rw [readsOrder, size_unmark, hWithin, readsOrder]

/- Marks do not decide about marks. -/
@[simp] theorem orderMatters?_unmark
    (blind : OrderBlind)
    (join : NodeId) :
    plan.unmark.orderMatters? blind join =
      plan.orderMatters? blind join := by
  have hAfter (dependents : List String)
      (stages : List NodeId) :
      plan.unmark.orderMattersAfter blind dependents stages =
        plan.orderMattersAfter blind dependents stages := by
    induction stages generalizing dependents with
    | nil => rfl
    | cons stage rest ih => simp [orderMattersAfter, ih]
  unfold orderMatters?
  simp only [lastChild?_unmark, tree_unmark,
    Tree.stages_unmark, ← List.map_reverse,
    stagesAfter_unmark, hAfter, List.flatMap_map,
    Tree.bound_unmark]
  congr 1
  funext right
  rcases (plan.tree right).stages.reverse with
    _ | ⟨start, _ | ⟨first, rest⟩⟩
  · rfl
  · rfl
  · simp

end Plan

end Flwor

------------------------------------------------------------
-- Further Marks
------------------------------------------------------------

namespace Flwor

namespace Plan

/- The same plan, with further joins marked. -/
structure MarkedFrom
    (before after : Plan) : Prop where
  unmark : after.unmark = before.unmark
  marked : ∀ id,
    ((before.properties id).get?
      Properties.skipSort).isSome →
    ((after.properties id).get?
      Properties.skipSort).isSome

namespace MarkedFrom

variable {before middle after : Plan}

theorem refl
    (plan : Plan) :
    plan.MarkedFrom plan :=
  ⟨rfl, fun _ => id⟩

theorem trans
    (hFirst : before.MarkedFrom middle)
    (hSecond : middle.MarkedFrom after) :
    before.MarkedFrom after :=
  ⟨hSecond.unmark.trans hFirst.unmark,
    fun id hMarked =>
      hSecond.marked id (hFirst.marked id hMarked)⟩

variable (hMarked : before.MarkedFrom after)

include hMarked

theorem root :
    after.root = before.root := by
  rw [← root_unmark, hMarked.unmark, root_unmark]

theorem size :
    after.size = before.size := by
  rw [← size_unmark, hMarked.unmark, size_unmark]

theorem kind
    (id : NodeId) :
    after.kind id = before.kind id := by
  rw [← kind_unmark, hMarked.unmark, kind_unmark]

theorem children
    (id : NodeId) :
    after.children id = before.children id := by
  rw [← children_unmark, hMarked.unmark, children_unmark]

theorem sameLinks :
    before.SameLinks after where
  root := hMarked.root
  size := hMarked.size
  kind := hMarked.kind
  payload id := by
    rw [← payload_unmark, hMarked.unmark, payload_unmark]
  children := hMarked.children
  parent id := by
    rw [← parent?_unmark, hMarked.unmark, parent?_unmark]

theorem leftJoin
    (id : NodeId) :
    (after.properties id).flag Properties.leftJoin =
      (before.properties id).flag Properties.leftJoin := by
  have hKey : Properties.leftJoin ≠ Properties.skipSort := by
    decide
  unfold Properties.flag
  rw [← Properties.get?_unmark _ hKey, ← properties_unmark,
    hMarked.unmark, properties_unmark,
    Properties.get?_unmark _ hKey]

theorem orderMatters?
    (blind : OrderBlind)
    (join : NodeId) :
    after.orderMatters? blind join =
      before.orderMatters? blind join := by
  rw [← orderMatters?_unmark, hMarked.unmark,
    orderMatters?_unmark]

end MarkedFrom

variable {plan : Plan}
variable {join : NodeId}

theorem properties_setProperty
    (key : String)
    (value : Property)
    (id : NodeId) :
    (plan.setProperty join key value).properties id =
      if join = id ∧ id < plan.size then
        Properties.put key value (plan.properties id)
      else plan.properties id := by
  rw [setProperty, properties, node_modify]
  split <;> rfl

/- One more mark. -/
theorem markedFrom_setProperty
    (plan : Plan)
    (join : NodeId)
    (value : Property) :
    plan.MarkedFrom
      (plan.setProperty join Properties.skipSort value) := by
  constructor
  · have hNodes :
        (plan.nodes.modify join (fun n =>
          { n with
            properties := Properties.put Properties.skipSort
              value n.properties })).map Node.unmark =
          plan.nodes.map Node.unmark := by
      refine Array.ext (by simp) (fun i hI _ => ?_)
      rw [Array.getElem_map, Array.getElem_map,
        Array.getElem_modify]
      split
      · simp [Node.unmark, Properties.unmark_put]
      · rfl
    simp [unmark, setProperty, modify, hNodes]
  · intro id hMarked
    rw [properties_setProperty]
    split
    · rw [Properties.get?_put_self]
      rfl
    · exact hMarked

end Plan

end Flwor

------------------------------------------------------------
-- One Traversal
------------------------------------------------------------

namespace Flwor

namespace Pass

open Plan

variable {blind : OrderBlind}
variable {plan before middle after : Plan}
variable {join : NodeId}

/- The condition under which a join is marked. -/
def isToBeMarked
    (blind : OrderBlind)
    (plan : Plan)
    (join : NodeId) : Bool :=
  plan.kind join = .join
    && (plan.properties join).flag Properties.leftJoin
    && ((plan.properties join).get?
        Properties.skipSort).isNone
    && plan.orderMatters? blind join = some false

theorem run_markJoin
    (blind : OrderBlind)
    (plan : Plan)
    (join : NodeId) :
    (markJoin blind join).run plan = (.ok false,
      if isToBeMarked blind plan join then
        plan.setProperty join Properties.skipSort (.flag true)
      else plan) := by
  unfold markJoin isToBeMarked
  rw [Edit.run_get_bind]
  dsimp only
  split <;> rfl

/- Where further joins are marked, fewer are to be. -/
theorem isToBeMarked_of_markedFrom
    (hMarked : before.MarkedFrom after)
    (hNext : isToBeMarked blind after join) :
    isToBeMarked blind before join := by
  simp only [isToBeMarked, hMarked.kind, hMarked.leftJoin,
    hMarked.orderMatters?, Bool.and_eq_true] at hNext ⊢
  refine ⟨⟨hNext.1.1, ?_⟩, hNext.2⟩
  have hNone := hNext.1.2
  rw [Option.isNone_iff_eq_none] at hNone ⊢
  by_contra hSome
  have hThere := hMarked.marked join
    (Option.isSome_iff_ne_none.mpr hSome)
  rw [hNone] at hThere
  cases hThere

/- Reached joins that are marked one after the other. -/
inductive Marks
    (blind : OrderBlind) :
    Plan → Plan → Prop where
  | refl (plan : Plan) : Marks blind plan plan
  | mark
      {plan after : Plan}
      {join : NodeId}
      (hReach : plan.Reaches join)
      (hMark : isToBeMarked blind plan join)
      (hRest : Marks blind (plan.setProperty join
        Properties.skipSort (.flag true)) after) :
      Marks blind plan after

namespace Marks

theorem trans
    (hFirst : Marks blind before middle)
    (hSecond : Marks blind middle after) :
    Marks blind before after := by
  induction hFirst with
  | refl => exact hSecond
  | mark hReach hMark _ ih =>
      exact .mark hReach hMark (ih hSecond)

theorem markedFrom
    (hMarks : Marks blind before after) :
    before.MarkedFrom after := by
  induction hMarks with
  | refl plan => exact .refl plan
  | mark _ _ _ ih =>
      exact (markedFrom_setProperty _ _ _).trans ih

end Marks

/-
  A walk leaves marks that are enough for it: where these
  and maybe others are set, it leaves the plan as it is.
-/
def Settles
    (blind : OrderBlind)
    (walk : Walk Unit Unit)
    (before after : Plan) : Prop :=
  Marks blind before after ∧
    walk.Achieves ⟨before, (), false⟩
      (fun _ state => state = ⟨after, (), false⟩) ∧
    ∀ later, after.MarkedFrom later →
      walk.Achieves ⟨later, (), false⟩
        (fun _ state => state = ⟨later, (), false⟩)

theorem achieves_visitJoin
    (blind : OrderBlind)
    (plan : Plan)
    (join : NodeId) :
    ((joinSortElimination blind).walker.visit join).Achieves
      ⟨plan, (), false⟩ (fun next state =>
        next = .descend join ∧ state =
          ⟨if isToBeMarked blind plan join then
            plan.setProperty join Properties.skipSort
              (.flag true)
          else plan, (), false⟩) := by
  have hEdit : (markJoin blind join).Achieves plan
      (fun x next => x = false ∧ next =
        if isToBeMarked blind plan join then
          plan.setProperty join Properties.skipSort
            (.flag true)
        else plan) :=
    ⟨_, _, run_markJoin blind plan join, rfl, rfl⟩
  refine (Walk.achieves_edit hEdit).bind ?_
  rintro _ ⟨_, _, recorded⟩ ⟨⟨rfl, rfl⟩, hSame⟩
  cases hSame
  exact achieves_return ⟨rfl, rfl⟩

/- A visited join is marked, or it will never be. -/
theorem exists_marked
    (blind : OrderBlind)
    (hReach : plan.Reaches join) :
    ∃ after, Marks blind plan after ∧
      ((joinSortElimination blind).walker.visit
        join).Achieves ⟨plan, (), false⟩ (fun next state =>
          next = .descend join ∧
            state = ⟨after, (), false⟩) ∧
      ∀ later, after.MarkedFrom later →
        ((joinSortElimination blind).walker.visit
          join).Achieves ⟨later, (), false⟩
            (fun next state => next = .descend join ∧
              state = ⟨later, (), false⟩) := by
  have hVisit := achieves_visitJoin blind
  have hRest (later : Plan)
      (hNone : isToBeMarked blind later join = false) :
      ((joinSortElimination blind).walker.visit
        join).Achieves ⟨later, (), false⟩
          (fun next state => next = .descend join ∧
            state = ⟨later, (), false⟩) := by
    have hHere := hVisit later join
    rw [hNone] at hHere
    exact hHere
  cases hMark : isToBeMarked blind plan join with
  | false =>
      refine ⟨plan, .refl plan, hRest plan hMark,
        fun later hLater => hRest later ?_⟩
      by_contra hNext
      rw [isToBeMarked_of_markedFrom hLater
        (Bool.eq_true_of_not_eq_false hNext)] at hMark
      cases hMark
  | true =>
      have hHere := hVisit plan join
      rw [hMark, if_pos rfl] at hHere
      refine ⟨_, .mark hReach hMark (.refl _), hHere,
        fun later hLater => hRest later ?_⟩
      have hLt : join < plan.size := by
        by_contra hOut
        have hKind := hMark
        simp only [isToBeMarked, Plan.kind,
          node_of_size_le (Nat.not_lt.mp hOut)] at hKind
        cases hKind
      have hThere := hLater.marked join (by
        rw [properties_setProperty, if_pos ⟨rfl, hLt⟩,
          Properties.get?_put_self]
        rfl)
      unfold isToBeMarked
      rw [Option.isNone_eq_false_iff.mpr hThere]
      simp

theorem exists_settled_children
    {visit : NodeId → Walk Unit Unit}
    (hVisit : ∀ (c : NodeId) (plan : Plan),
      plan.Reaches c → ∃ after,
        Settles blind (visit c) plan after)
    (cs : List NodeId)
    (hReach : ∀ c ∈ cs, plan.Reaches c) :
    ∃ after, Settles blind (cs.forM (fun c => do
      if !(← Walk.hasChanged) then visit c)) plan after := by
  induction cs generalizing plan with
  | nil =>
      exact ⟨plan, .refl plan, achieves_return rfl,
        fun _ _ => achieves_return rfl⟩
  | cons c rest ih =>
      rw [List.forall_mem_cons] at hReach
      rcases hVisit c plan hReach.1 with
        ⟨middle, hFirst, hHere, hLater⟩
      have hSame := hFirst.markedFrom.sameLinks
      rcases ih (fun d hD =>
          hSame.reaches_iff.mpr (hReach.2 d hD)) with
        ⟨after, hSecond, hRest, hRestLater⟩
      have hMore := hSecond.markedFrom
      refine ⟨after, hFirst.trans hSecond, ?_,
        fun later hMarked => ?_⟩
      · rw [List.forM]
        refine Achieves.bind
          (Walk.achieves_hasChanged_bind hHere) ?_
        rintro _ _ rfl
        exact hRest
      · rw [List.forM]
        refine Achieves.bind
          (Walk.achieves_hasChanged_bind
            (hLater later (hMore.trans hMarked))) ?_
        rintro _ _ rfl
        exact hRestLater later hMarked

/- A traversal settles what it visits. -/
theorem exists_settled
    (blind : OrderBlind)
    (depth : Nat)
    (id : NodeId)
    (plan : Plan)
    (hReach : plan.Reaches id) :
    ∃ after, Settles blind
      ((joinSortElimination blind).walker.traverse depth id)
      plan after := by
  induction depth generalizing id plan with
  | zero =>
      exact ⟨plan, .refl plan, achieves_return rfl,
        fun _ _ => achieves_return rfl⟩
  | succ depth ih =>
      rcases exists_marked blind hReach with
        ⟨middle, hFirst, hHere, hLater⟩
      have hReached :=
        hFirst.markedFrom.sameLinks.reaches_iff.mpr hReach
      rcases exists_settled_children ih (middle.children id)
          (fun c hC => hReached.child hC) with
        ⟨after, hSecond, hRest, hRestLater⟩
      have hMore := hSecond.markedFrom
      refine ⟨after, hFirst.trans hSecond, ?_,
        fun later hMarked => ?_⟩
      · rw [Walker.traverse]
        refine hHere.bind ?_
        rintro _ _ ⟨rfl, rfl⟩
        refine Walk.achieves_hasChanged_bind ?_
        exact Walk.achieves_plan_bind hRest
      · rw [Walker.traverse]
        refine (hLater later (hMore.trans hMarked)).bind ?_
        rintro _ _ ⟨rfl, rfl⟩
        refine Walk.achieves_hasChanged_bind ?_
        refine Walk.achieves_plan_bind ?_
        have hSame := (hMore.trans hMarked).children id
        dsimp only
        rw [hSame]
        exact hRestLater later hMarked

/- Joins are marked in one traversal. -/
theorem converges_joinSortElimination
    (blind : OrderBlind)
    (plan : Plan) :
    ∃ result, Marks blind plan result ∧
      (joinSortElimination blind).Converges plan 0
        result := by
  rcases exists_settled blind (plan.size + 2) plan.root
      plan .root with
    ⟨result, hMarks, ⟨_, _, hRun, rfl⟩, hLater⟩
  rcases hLater result (.refl result) with
    ⟨_, _, hAgain, rfl⟩
  have hMarked := hMarks.markedFrom
  refine ⟨result, hMarks, .of_traversals (.refl plan)
    (fun _ => hRun) (fun _ => ?_)⟩
  rw [← hMarked.size, ← hMarked.root] at hAgain
  exact hAgain

end Pass

end Flwor
