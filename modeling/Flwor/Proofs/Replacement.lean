import Flwor.Proofs.Rescoping

/-
  Trees in which one subtree is replaced by another one: a
  stage by a stage, or a pipeline by a pipeline.

  The tree stays in shape, and what its other stages bind
  stays as it is.  The spine of a tree leads from its top to
  the replaced stage, through what feeds what; the names
  read off the spine do not come from within this stage.

  Key definitions include:
    * `Tree.mapAt`
    * `Tree.Exchanges`
    * `Tree.offSpine`

  Key theorems include:
    * `Tree.shaped_mapAt`
    * `Tree.lacks_mapAt`
    * `Tree.bound_mapAt`
-/

------------------------------------------------------------
-- Replaced Subtrees
------------------------------------------------------------

namespace Flwor

namespace Tree

mutual

/- Change the subtree at an index, and nothing below it. -/
def mapAt
    (id : NodeId)
    (f : Tree → Tree) : Tree → Tree
  | .node i k p ps cs =>
      if i = id then f (.node i k p ps cs)
      else .node i k p ps (mapAtAll id f cs)

/- Change the subtree at an index in several trees. -/
def mapAtAll
    (id : NodeId)
    (f : Tree → Tree) : List Tree → List Tree
  | [] => []
  | t :: ts => mapAt id f t :: mapAtAll id f ts

end

theorem mapAtAll_eq
    (id : NodeId)
    (f : Tree → Tree)
    (ts : List Tree) :
    mapAtAll id f ts = ts.map (mapAt id f) := by
  induction ts with
  | nil => rfl
  | cons t rest ih => rw [mapAtAll, ih, List.map_cons]

section

variable {id : NodeId}
variable {f : Tree → Tree}
variable {k : Kind}
variable {p : Payload}
variable {ps : Properties}
variable {cs : List Tree}

theorem mapAt_self :
    mapAt id f (.node id k p ps cs) =
      f (.node id k p ps cs) := by
  rw [mapAt, if_pos rfl]

theorem mapAt_of_ne
    {i : NodeId}
    (hId : i ≠ id) :
    mapAt id f (.node i k p ps cs) =
      .node i k p ps (cs.map (mapAt id f)) := by
  rw [mapAt, if_neg hId, mapAtAll_eq]

theorem mem_idsAll_iff
    {ts : List Tree} :
    id ∈ idsAll ts ↔ ∃ t ∈ ts, id ∈ t.ids := by
  induction ts with
  | nil => simp [idsAll]
  | cons t rest ih => simp [idsAll, ih]

/- Where the index does not occur, nothing is changed. -/
theorem mapAt_of_not_mem
    {t : Tree}
    (hId : id ∉ t.ids) :
    mapAt id f t = t := by
  induction t using Tree.induction with
  | node i k p ps cs ih =>
      rw [ids, List.mem_cons, mem_idsAll_iff, not_or]
        at hId
      rw [mapAt_of_ne (Ne.symm hId.1)]
      have hSame (c : Tree) (hC : c ∈ cs) :
          mapAt id f c = c :=
        ih c hC (fun hMem => hId.2 ⟨c, hC, hMem⟩)
      rw [List.map_congr_left hSame, List.map_id']

end

end Tree

end Flwor

------------------------------------------------------------
-- Shapes
------------------------------------------------------------

namespace Flwor

namespace Tree

/-
  Trees that may stand in the same places: two stages, or
  two trees of the same kind.
-/
def SameRole
    (t t' : Tree) : Prop :=
  t.kind.isStage ∧ t'.kind.isStage ∨ t.kind = t'.kind

namespace SameRole

variable {t t' : Tree}

theorem kind_eq
    (hRole : SameRole t t')
    (hStage : t.kind.isStage = false) :
    t'.kind = t.kind := by
  rcases hRole with ⟨hBoth, _⟩ | hEq
  · rw [hStage] at hBoth
    cases hBoth
  · exact hEq.symm

theorem isStage
    (hRole : SameRole t t')
    (hStage : t.kind.isStage) :
    t'.kind.isStage := by
  rcases hRole with ⟨_, hStage'⟩ | hEq
  · exact hStage'
  · rwa [← hEq]

end SameRole

end Tree

namespace ShapeRule

variable {cs : List Tree}
variable {g : Tree → Tree}

theorem kindAt_map
    (hRoles : ∀ c ∈ cs, c.SameRole (g c))
    {index : Nat}
    {k : Kind}
    (hStage : k.isStage = false)
    (hKind : kindAt cs index k = none) :
    kindAt (cs.map g) index k = none := by
  rw [kindAt_eq_none] at hKind ⊢
  rcases hKind with ⟨t, hChild, rfl⟩
  refine ⟨g t, by rw [List.getElem?_map, hChild]; rfl, ?_⟩
  exact (hRoles t (List.mem_of_getElem? hChild)).kind_eq
    hStage

theorem stageAt_map
    (hRoles : ∀ c ∈ cs, c.SameRole (g c))
    {index : Nat}
    (hStage : stageAt cs index = none) :
    stageAt (cs.map g) index = none := by
  rw [stageAt_eq_none] at hStage ⊢
  rcases hStage with ⟨t, hChild, hStage⟩
  refine ⟨g t, by rw [List.getElem?_map, hChild]; rfl, ?_⟩
  exact (hRoles t (List.mem_of_getElem? hChild)).isStage
    hStage

theorem countIn_map
    {allowed : List Nat}
    (hCount : countIn allowed cs = none) :
    countIn allowed (cs.map g) = none := by
  rw [countIn_eq_none] at hCount ⊢
  rwa [List.length_map]

theorem orderSpecs_map
    (hRoles : ∀ c ∈ cs, c.SameRole (g c))
    (hSpecs : orderSpecs cs = none) :
    orderSpecs (cs.map g) = none := by
  unfold orderSpecs at hSpecs ⊢
  rw [List.findSome?_eq_none_iff] at hSpecs ⊢
  intro index hIndex
  rw [List.length_map] at hIndex
  exact kindAt_map hRoles rfl (hSpecs index hIndex)

theorem specsInOrder_map
    (hRoles : ∀ c ∈ cs, c.SameRole (g c))
    (seen : Bool)
    (hSpecs : specsInOrder seen (cs.map Tree.kind) = true) :
    specsInOrder seen ((cs.map g).map Tree.kind) = true := by
  induction cs generalizing seen with
  | nil => rfl
  | cons c rest ih =>
      have hRest (d : Tree) (hD : d ∈ rest) :=
        hRoles d (List.mem_cons_of_mem _ hD)
      have hRole := hRoles c List.mem_cons_self
      rw [List.map_cons] at hSpecs
      rw [List.map_cons, List.map_cons]
      cases hKind : c.kind <;> rw [hKind, specsInOrder] at hSpecs <;>
        try cases hSpecs
      case groupSpec =>
        rw [hRole.kind_eq (by rw [hKind]; rfl), hKind,
          specsInOrder]
        rw [Bool.and_eq_true] at hSpecs ⊢
        exact ⟨hSpecs.1, ih hRest seen hSpecs.2⟩
      case aggregateSpec =>
        rw [hRole.kind_eq (by rw [hKind]; rfl), hKind,
          specsInOrder]
        exact ih hRest true hSpecs

end ShapeRule

end Flwor

namespace Flwor

namespace Tree

/-
  A node breaks no rule if its children are replaced by
  others that may stand there.
-/
theorem brokenRule?_map
    {g : Tree → Tree}
    {i : NodeId}
    {k : Kind}
    {p : Payload}
    {ps : Properties}
    {cs : List Tree}
    {place : Option Site}
    (hRoles : ∀ c ∈ cs, c.SameRole (g c))
    (hRule :
      brokenRule? place (.node i k p ps cs) = none) :
    brokenRule? place (.node i k p ps (cs.map g)) = none := by
  have hDrop : ∀ c ∈ cs.drop 1, c.SameRole (g c) :=
    fun c hC => hRoles c (List.mem_of_mem_drop hC)
  cases k <;>
    simp only [brokenRule?, kind_node, children_node,
      payload, Option.orElse_eq_orElse, Option.orElse_eq_or,
      Option.or_eq_none_iff, ShapeRule.brokenUnless_eq_none,
      decide_eq_true_eq, List.length_map] at hRule ⊢
  case start => exact ShapeRule.countIn_map hRule
  case finish =>
    exact ⟨ShapeRule.countIn_map hRule.1,
      ShapeRule.stageAt_map hRoles hRule.2.1, hRule.2.2⟩
  case forBind =>
    refine ⟨ShapeRule.countIn_map hRule.1,
      ShapeRule.stageAt_map hRoles hRule.2.1,
      ShapeRule.kindAt_map hRoles rfl hRule.2.2.1, ?_⟩
    have hPosition := hRule.2.2.2
    by_cases hFour : cs.length = 4
    · simp only [hFour, if_true] at hPosition ⊢
      exact ShapeRule.kindAt_map hRoles rfl hPosition
    · simp only [hFour, if_false]
  case letBind | count =>
    exact ⟨ShapeRule.countIn_map hRule.1,
      ShapeRule.stageAt_map hRoles hRule.2.1,
      ShapeRule.kindAt_map hRoles rfl hRule.2.2⟩
  case selection =>
    exact ⟨ShapeRule.countIn_map hRule.1,
      ShapeRule.stageAt_map hRoles hRule.2⟩
  case orderBy =>
    exact ⟨of_decide_eq_true hRule.1,
      ShapeRule.stageAt_map hRoles hRule.2.1,
      ShapeRule.orderSpecs_map hRoles hRule.2.2⟩
  case groupBy =>
    refine ⟨ShapeRule.stageAt_map hRoles hRule.1, ?_,
      of_decide_eq_true hRule.2.2⟩
    rw [← List.map_drop]
    exact ShapeRule.specsInOrder_map hDrop false hRule.2.1
  case join =>
    exact ⟨ShapeRule.countIn_map hRule.1,
      ShapeRule.stageAt_map hRoles hRule.2.1,
      ShapeRule.kindAt_map hRoles rfl hRule.2.2.1,
      ShapeRule.stageAt_map hRoles hRule.2.2.2⟩
  case pipeExpr | groupSpec =>
    exact ⟨ShapeRule.countIn_map hRule.1,
      ShapeRule.kindAt_map hRoles rfl hRule.2⟩
  case aggregateSpec =>
    exact ⟨ShapeRule.countIn_map hRule.1,
      ShapeRule.kindAt_map hRoles rfl hRule.2.1,
      ShapeRule.kindAt_map hRoles rfl hRule.2.2⟩
  case stepExpr =>
    exact ⟨of_decide_eq_true hRule.1,
      ShapeRule.kindAt_map hRoles rfl hRule.2⟩
  case orderSpec | joinExpr | comparisonExpr |
      arithmeticExpr =>
    exact ⟨ShapeRule.countIn_map hRule.1, hRule.2⟩
  all_goals exact hRule

/- A node is in shape if it breaks no rule and its parts do not. -/
theorem shaped_node
    {i : NodeId}
    {k : Kind}
    {p : Payload}
    {ps : Properties}
    {cs : List Tree}
    (hRule : ∃ place,
      brokenRule? place (.node i k p ps cs) = none)
    (hParts : ∀ c ∈ cs, c.Shaped) :
    (Tree.node i k p ps cs).Shaped := by
  intro s hMem
  rw [subtrees, List.mem_cons, mem_subtreesAll_iff] at hMem
  rcases hMem with rfl | ⟨c, hC, hMem⟩
  · exact hRule
  · exact hParts c hC s hMem

theorem shaped_leaf
    {i : NodeId}
    {k : Kind}
    {p : Payload}
    {ps : Properties}
    (hRule : ∃ place,
      brokenRule? place (.node i k p ps []) = none) :
    (Tree.node i k p ps []).Shaped :=
  shaped_node hRule (List.forall_mem_nil _)

variable {id : NodeId}
variable {f : Tree → Tree}

theorem sameRole_mapAt
    {t : Tree}
    (hTarget : ∀ s ∈ t.subtrees, s.id = id →
      s.SameRole (f s)) :
    t.SameRole (t.mapAt id f) := by
  rcases t with ⟨i, k, p, ps, cs⟩
  by_cases hId : i = id
  · subst hId
    rw [mapAt_self]
    exact hTarget _ (mem_subtrees_self _) rfl
  · rw [mapAt_of_ne hId]
    exact .inr rfl

/- A tree stays in shape if a subtree is replaced in shape. -/
theorem shaped_mapAt
    {t : Tree}
    (hShaped : t.Shaped)
    (hRole : ∀ s ∈ t.subtrees, s.id = id → s.SameRole (f s))
    (hTarget : ∀ s ∈ t.subtrees, s.id = id →
      (f s).Shaped) :
    (t.mapAt id f).Shaped := by
  induction t using Tree.induction with
  | node i k p ps cs ih =>
      by_cases hId : i = id
      · subst hId
        rw [mapAt_self]
        exact hTarget _ (mem_subtrees_self _) rfl
      · rw [mapAt_of_ne hId]
        have hBelow {c s : Tree} (hC : c ∈ cs)
            (hS : s ∈ c.subtrees) :
            s ∈ (Tree.node i k p ps cs).subtrees :=
          mem_subtrees_of_child hC hS
        refine shaped_node ?_ ?_
        · rcases hShaped.self with ⟨place, hRule⟩
          refine ⟨place, brokenRule?_map ?_ hRule⟩
          exact fun c hC => sameRole_mapAt (fun s hS =>
            hRole s (hBelow hC hS))
        · intro c' hC'
          rcases List.mem_map.mp hC' with ⟨c, hC, rfl⟩
          exact ih c hC (hShaped.child hC)
            (fun s hS => hRole s (hBelow hC hS))
            (fun s hS => hTarget s (hBelow hC hS))

/- Annotations that are nowhere are in no replacement. -/
theorem lacks_mapAt
    {key : String}
    {t : Tree}
    (hLacks : t.Lacks key)
    (hTarget : ∀ s ∈ t.subtrees, s.id = id →
      (f s).Lacks key) :
    (t.mapAt id f).Lacks key := by
  induction t using Tree.induction with
  | node i k p ps cs ih =>
      by_cases hId : i = id
      · subst hId
        rw [mapAt_self]
        exact hTarget _ (mem_subtrees_self _) rfl
      · rw [mapAt_of_ne hId]
        intro s hMem
        rw [subtrees, List.mem_cons, mem_subtreesAll_iff]
          at hMem
        rcases hMem with rfl | ⟨c', hC', hMem⟩
        · have hOwn := hLacks _ (mem_subtrees_self _)
          exact hOwn
        · rcases List.mem_map.mp hC' with ⟨c, hC, rfl⟩
          exact ih c hC (hLacks.child hC)
            (fun s hS => hTarget s
              (mem_subtrees_of_child hC hS)) s hMem

end Tree

end Flwor

------------------------------------------------------------
-- Bindings
------------------------------------------------------------

namespace Flwor

namespace Tree

/- Stages and pipelines alone are replaced, by their like. -/
structure Exchanges
    (id : NodeId)
    (f : Tree → Tree)
    (t : Tree) : Prop where
  movable : ∀ s ∈ t.subtrees, s.id = id →
    s.kind.isStage ∨ s.kind = .pipeExpr
  role : ∀ s ∈ t.subtrees, s.id = id → s.SameRole (f s)

variable {id : NodeId}
variable {f : Tree → Tree}

namespace Exchanges

theorem child
    {t c : Tree}
    (hExchanges : Exchanges id f t)
    (hChild : c ∈ t.children) :
    Exchanges id f c where
  movable s hS :=
    hExchanges.movable s (mem_subtrees_of_child hChild hS)
  role s hS :=
    hExchanges.role s (mem_subtrees_of_child hChild hS)

/- Only stages and pipelines are replaced. -/
theorem id_ne
    {t : Tree}
    (hExchanges : Exchanges id f t)
    (hStage : t.kind.isStage = false)
    (hPipe : t.kind ≠ .pipeExpr) :
    t.id ≠ id := by
  intro hId
  rcases hExchanges.movable _ (mem_subtrees_self _) hId with
    hSelf | hSelf
  · rw [hStage] at hSelf
    cases hSelf
  · exact hPipe hSelf

/- A tree that is not to be replaced keeps its root. -/
theorem mapAt_eq
    {t : Tree}
    (hExchanges : Exchanges id f t)
    (hStage : t.kind.isStage = false)
    (hPipe : t.kind ≠ .pipeExpr) :
    t.mapAt id f =
      .node t.id t.kind t.payload t.properties
        (t.children.map (mapAt id f)) := by
  have hNe := hExchanges.id_ne hStage hPipe
  rcases t with ⟨i, k, p, ps, cs⟩
  exact mapAt_of_ne hNe

theorem var?_mapAt
    {t : Tree}
    (hExchanges : Exchanges id f t)
    (hStage : t.kind.isStage = false)
    (hPipe : t.kind ≠ .pipeExpr) :
    (t.mapAt id f).var? = t.var? := by
  rw [hExchanges.mapAt_eq hStage hPipe]
  rfl

end Exchanges

variable {i : NodeId}
variable {k : Kind}
variable {p : Payload}
variable {ps : Properties}
variable {cs : List Tree}

/- The variable of a child that is not to be replaced. -/
theorem childVar?_mapAt
    {t : Tree}
    (hExchanges : ∀ c ∈ cs, Exchanges id f c)
    {index : Nat}
    (hChild : cs[index]? = some t)
    (hStage : t.kind.isStage = false)
    (hPipe : t.kind ≠ .pipeExpr) :
    childVar? (.node i k p ps (cs.map (mapAt id f))) index =
      childVar? (.node i k p ps cs) index := by
  simp only [childVar?, children_node, List.getElem?_map,
    hChild, Option.map_some, Option.bind_some]
  exact (hExchanges t (List.mem_of_getElem? hChild)).var?_mapAt
    hStage hPipe

/- What a stage binds is named by its second child. -/
theorem Shaped.variable
    (hShaped : (Tree.node i k p ps cs).Shaped)
    (hKind : k = .forBind ∨ k = .letBind ∨ k = .count) :
    ∃ c, cs[1]? = some c ∧ c.kind = .variable := by
  rcases hShaped.self with ⟨place, hRule⟩
  rcases hKind with rfl | rfl | rfl <;>
    simp only [brokenRule?, kind_node, children_node,
      Option.orElse_eq_orElse, Option.orElse_eq_or,
      Option.or_eq_none_iff, ShapeRule.kindAt_eq_none]
      at hRule
  · exact hRule.2.2.1
  · exact hRule.2.2
  · exact hRule.2.2

theorem binding?_mapAt
    (hShaped : (Tree.node i k p ps cs).Shaped)
    (hExchanges : ∀ c ∈ cs, Exchanges id f c) :
    binding? (.node i k p ps (cs.map (mapAt id f))) =
      binding? (.node i k p ps cs) := by
  have hChild
      (hKind : k = .forBind ∨ k = .letBind ∨ k = .count) :
      childVar? (.node i k p ps (cs.map (mapAt id f))) 1 =
        childVar? (.node i k p ps cs) 1 := by
    rcases hShaped.variable hKind with ⟨c, hC, hVariable⟩
    exact childVar?_mapAt hExchanges hC
      (by rw [hVariable]; rfl) (by simp [hVariable])
  cases k <;>
    first
    | exact hChild (by simp)
    | rfl

theorem position?_mapAt
    (hExchanges : ∀ c ∈ cs, Exchanges id f c) :
    position? (.node i k p ps (cs.map (mapAt id f))) =
      position? (.node i k p ps cs) := by
  unfold position?
  rw [kind_node, kind_node, children_node, children_node,
    List.getElem?_map]
  split
  next =>
    cases hChild : cs[2]? with
    | none => rfl
    | some c =>
        have hC := hExchanges c (List.mem_of_getElem? hChild)
        have hRole := sameRole_mapAt hC.role
        rw [Option.map_some]
        by_cases hPosition : c.kind = .posVariable
        · have hStage : c.kind.isStage = false := by
            rw [hPosition]
            rfl
          have hMapped := hRole.kind_eq hStage
          have hVar := hC.var?_mapAt hStage
            (by simp [hPosition])
          simp [Option.filter, hMapped, hPosition, hVar]
        · have hMapped :
              (c.mapAt id f).kind ≠ .posVariable := by
            intro hEq
            rcases hRole with ⟨_, hStage⟩ | hKind
            · rw [hEq] at hStage
              cases hStage
            · exact hPosition (hKind.trans hEq)
          simp [Option.filter, hMapped, hPosition]
  next => rfl

/- Specs of a kind are still of this kind, and no others. -/
theorem specs_mapAt
    {α : Type}
    {kind : Kind}
    {specs : List Tree}
    (hExchanges : ∀ c ∈ specs, Exchanges id f c)
    (hStage : kind.isStage = false)
    (g : Tree → Option α)
    (hSame : ∀ c ∈ specs, c.kind = kind →
      g (c.mapAt id f) = g c) :
    ((specs.map (mapAt id f)).filter (fun c =>
        c.kind = kind)).filterMap g =
      (specs.filter (fun c => c.kind = kind)).filterMap
        g := by
  induction specs with
  | nil => rfl
  | cons c rest ih =>
      have hRest := ih
        (fun d hD => hExchanges d (List.mem_cons_of_mem _ hD))
        (fun d hD => hSame d (List.mem_cons_of_mem _ hD))
      have hRole := sameRole_mapAt
        (hExchanges c List.mem_cons_self).role
      rw [List.map_cons, List.filter_cons, List.filter_cons]
      by_cases hKind : c.kind = kind
      · have hMapped : (c.mapAt id f).kind = kind := by
          rw [← hKind]
          exact hRole.kind_eq (by rw [hKind, hStage])
        simp only [hKind, hMapped, decide_true, if_true,
          List.filterMap_cons, hRest,
          hSame c List.mem_cons_self hKind]
      · have hMapped : (c.mapAt id f).kind ≠ kind := by
          intro hEq
          rcases hRole with ⟨_, hIsStage⟩ | hSameKind
          · rw [hEq, hStage] at hIsStage
            cases hIsStage
          · exact hKind (hSameKind.trans hEq)
        simp only [hKind, hMapped, decide_false,
          Bool.false_eq_true, if_false, hRest]

/- A spec of a grouping names the same variables. -/
theorem specVar?_mapAt
    {spec c : Tree}
    {index : Nat}
    (hExchanges : Exchanges id f spec)
    (hStage : spec.kind.isStage = false)
    (hPipe : spec.kind ≠ .pipeExpr)
    (hChild : spec.children[index]? = some c)
    (hChildStage : c.kind.isStage = false)
    (hChildPipe : c.kind ≠ .pipeExpr) :
    (spec.mapAt id f).childVar? index =
      spec.childVar? index := by
  rw [hExchanges.mapAt_eq hStage hPipe]
  exact childVar?_mapAt (fun d hD => hExchanges.child hD)
    hChild hChildStage hChildPipe

theorem groupKeys_mapAt
    (hShaped : (Tree.node i .groupBy p ps cs).Shaped)
    (hExchanges : ∀ c ∈ cs, Exchanges id f c) :
    groupKeys (.node i .groupBy p ps (cs.map (mapAt id f))) =
      groupKeys (.node i .groupBy p ps cs) := by
  unfold groupKeys
  rw [children_node, children_node, ← List.map_drop]
  refine specs_mapAt
    (fun c hC => hExchanges c (List.mem_of_mem_drop hC))
    rfl _ (fun c hC hKind => ?_)
  have hMem := List.mem_of_mem_drop hC
  rcases (hShaped.child hMem).groupSpec hKind with
    ⟨d, hD, hRef⟩
  exact specVar?_mapAt (hExchanges c hMem)
    (by rw [hKind]; rfl) (by simp [hKind]) hD
    (by rw [hRef]; rfl) (by simp [hRef])

theorem groupAggregates_mapAt
    (hShaped : (Tree.node i .groupBy p ps cs).Shaped)
    (hExchanges : ∀ c ∈ cs, Exchanges id f c) :
    groupAggregates
        (.node i .groupBy p ps (cs.map (mapAt id f))) =
      groupAggregates (.node i .groupBy p ps cs) := by
  unfold groupAggregates
  rw [children_node, children_node, ← List.map_drop]
  refine specs_mapAt
    (fun c hC => hExchanges c (List.mem_of_mem_drop hC))
    rfl _ (fun c hC hKind => ?_)
  have hMem := List.mem_of_mem_drop hC
  rcases (hShaped.child hMem).aggregateSpec hKind with
    ⟨⟨target, hTarget, hVariable⟩, source, hSource, hRef⟩
  have hStage : c.kind.isStage = false := by
    rw [hKind]
    rfl
  rw [specVar?_mapAt (hExchanges c hMem) hStage
      (by simp [hKind]) hTarget (by rw [hVariable]; rfl)
      (by simp [hVariable]),
    specVar?_mapAt (hExchanges c hMem) hStage
      (by simp [hKind]) hSource (by rw [hRef]; rfl)
      (by simp [hRef])]

/- What a stage binds itself stays as it is. -/
theorem bound_mapAt
    (hShaped : (Tree.node i k p ps cs).Shaped)
    (hExchanges : ∀ c ∈ cs, Exchanges id f c) :
    bound (.node i k p ps (cs.map (mapAt id f))) =
      bound (.node i k p ps cs) := by
  unfold bound
  rw [kind_node, kind_node,
    binding?_mapAt hShaped hExchanges,
    position?_mapAt hExchanges]
  split
  case h_4 =>
    rw [groupKeys_mapAt hShaped hExchanges,
      groupAggregates_mapAt hShaped hExchanges]
  all_goals rfl

end Tree

end Flwor

------------------------------------------------------------
-- The Spine
------------------------------------------------------------

namespace Flwor

/- Whether the first child leads to what feeds a node. -/
def Kind.hasSpine : Kind → Bool
  | .pipeExpr => true
  | .finish => true
  | k => k.hasInput

namespace Tree

mutual

/-
  The variables read in a tree outside of a stage that feeds
  it, and of everything below this stage.  All that is read
  counts if there is no such stage.
-/
def offSpine
    (id : NodeId) : Tree → List String
  | .node i k p ps cs =>
      if i = id then []
      else
        nodeReferences k p ps
          ++ (if k = .join then offSpineJoin id cs
            else if k.hasSpine then offSpineHead id cs
            else referencesAll cs)

/- The same, where the stage feeds the first tree. -/
def offSpineHead
    (id : NodeId) : List Tree → List String
  | [] => []
  | t :: ts => offSpine id t ++ referencesAll ts

/- The same, where the stage feeds an input of a join. -/
def offSpineJoin
    (id : NodeId) : List Tree → List String
  | [left, keys, right] =>
      offSpine id left ++ references keys
        ++ offSpine id right
  | ts => referencesAll ts

end

/- What is read off the spine is read. -/
theorem offSpine_subset
    {id : NodeId}
    {name : String}
    (t : Tree)
    (hName : name ∈ t.offSpine id) :
    name ∈ t.references := by
  induction t using Tree.induction with
  | node i k p ps cs ih =>
      rw [offSpine] at hName
      split at hName
      next => cases hName
      next =>
        rw [references, List.mem_append]
        refine (List.mem_append.mp hName).imp_right ?_
        intro hParts
        rw [mem_referencesAll_iff]
        have hHead (hMem : name ∈ offSpineHead id cs) :
            ∃ t ∈ cs, name ∈ t.references := by
          cases cs with
          | nil => cases hMem
          | cons c rest =>
              rw [offSpineHead, List.mem_append] at hMem
              rcases hMem with hMem | hMem
              · exact ⟨c, List.mem_cons_self,
                  ih c List.mem_cons_self hMem⟩
              · rcases mem_referencesAll_iff.mp hMem with
                  ⟨d, hD, hRead⟩
                exact ⟨d, List.mem_cons_of_mem _ hD, hRead⟩
        have hJoin (hMem : name ∈ offSpineJoin id cs) :
            ∃ t ∈ cs, name ∈ t.references := by
          unfold offSpineJoin at hMem
          split at hMem
          next left keys right =>
            simp only [List.mem_append] at hMem
            rcases hMem with (hMem | hMem) | hMem
            · exact ⟨left, by simp, ih left (by simp) hMem⟩
            · exact ⟨keys, by simp, hMem⟩
            · exact ⟨right, by simp,
                ih right (by simp) hMem⟩
          next => exact mem_referencesAll_iff.mp hMem
        split at hParts
        next => exact hJoin hParts
        next =>
          split at hParts
          · exact hHead hParts
          · exact mem_referencesAll_iff.mp hParts

variable {id : NodeId}
variable {name : String}
variable {i : NodeId}
variable {k : Kind}
variable {p : Payload}
variable {ps : Properties}
variable {cs : List Tree}

/- What is off the spine in a part is so in the whole. -/
theorem offSpine_of_child
    (hId : i ≠ id)
    {c : Tree}
    (hChild : c ∈ cs)
    (hName : name ∈ c.offSpine id) :
    name ∈ (Tree.node i k p ps cs).offSpine id := by
  rw [offSpine, if_neg hId, List.mem_append]
  refine .inr ?_
  have hAll : name ∈ referencesAll cs :=
    mem_referencesAll_iff.mpr
      ⟨c, hChild, offSpine_subset c hName⟩
  have hHead : name ∈ offSpineHead id cs := by
    cases cs with
    | nil => cases hChild
    | cons d rest =>
        rw [offSpineHead, List.mem_append]
        rcases List.mem_cons.mp hChild with rfl | hC
        · exact .inl hName
        · exact .inr (mem_referencesAll_iff.mpr
            ⟨c, hC, offSpine_subset c hName⟩)
  have hJoin : name ∈ offSpineJoin id cs := by
    unfold offSpineJoin
    split
    next left keys right =>
      simp only [List.mem_append]
      simp only [List.mem_cons, List.not_mem_nil,
        or_false] at hChild
      rcases hChild with rfl | rfl | rfl
      · exact .inl (.inl hName)
      · exact .inl (.inr (offSpine_subset _ hName))
      · exact .inr hName
    next => exact hAll
  split
  · exact hJoin
  · split
    · exact hHead
    · exact hAll

/- What a later part reads is off the spine. -/
theorem offSpine_of_rest
    {input c : Tree}
    {rest : List Tree}
    (hId : i ≠ id)
    (hJoin : k ≠ .join)
    (hChild : c ∈ rest)
    (hName : name ∈ c.references) :
    name ∈
      (Tree.node i k p ps (input :: rest)).offSpine id := by
  rw [offSpine, if_neg hId, List.mem_append]
  refine .inr ?_
  have hHead : name ∈ offSpineHead id (input :: rest) := by
    rw [offSpineHead, List.mem_append]
    exact .inr (mem_referencesAll_iff.mpr
      ⟨c, hChild, hName⟩)
  have hAll : name ∈ referencesAll (input :: rest) :=
    mem_referencesAll_iff.mpr
      ⟨c, List.mem_cons_of_mem _ hChild, hName⟩
  rw [if_neg hJoin]
  split
  · exact hHead
  · exact hAll

/- What the keys of a join read is off the spine. -/
theorem offSpine_of_keys
    {left keys right : Tree}
    (hId : i ≠ id)
    (hName : name ∈ keys.references) :
    name ∈ (Tree.node i .join p ps
      [left, keys, right]).offSpine id := by
  rw [offSpine, if_neg hId, List.mem_append]
  refine .inr ?_
  rw [if_pos rfl]
  simp only [offSpineJoin, List.mem_append]
  exact .inl (.inr hName)

/- What a node reads itself is off the spine. -/
theorem offSpine_of_check
    (hId : i ≠ id)
    (hCheck : ps.var? Properties.check = some name) :
    name ∈ (Tree.node i k p ps cs).offSpine id := by
  rw [offSpine, if_neg hId, List.mem_append]
  exact .inl (by simp [nodeReferences, hCheck])

end Tree

end Flwor
