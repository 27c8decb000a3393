import Flwor.Proofs.Arena.Insertions
import Flwor.Proofs.Joins.LeftJoins
import Flwor.Proofs.Rewriting.Emission

/-
  The regrouping that is pending on a left join is emitted.

  In the plan that a binding of a nested pipeline has left,
  only the new join has one.  The grouping takes the place of
  the stage that collects the result of the pipeline.

  Key definitions include:
    * `Tree.keySpec`, `Tree.aggregateSpec`

  Key theorems include:
    * `Edit.ensures_emitGroup`
    * `Edit.ensures_regroupJoin`
-/

------------------------------------------------------------
-- The Specs of a Grouping
------------------------------------------------------------

namespace Flwor

namespace Tree

/- A key of a grouping. -/
def keySpec
    (s r : NodeId)
    (name : String) : Tree :=
  .node s .groupSpec .none []
    [.node r .variableRef (.var name) [] []]

/- An aggregate of a grouping. -/
def aggregateSpec
    (a d r : NodeId)
    (target source : String) : Tree :=
  .node a .aggregateSpec .none []
    [.node d .variable (.var target) [] [],
     .node r .variableRef (.var source) [] []]

/- The specs of some keys, in order. -/
def KeySpecs
    (specs : List Tree)
    (keys : List String) : Prop :=
  List.Forall₂ (fun spec name =>
    ∃ s r, spec = keySpec s r name) specs keys

variable {g a d r : NodeId}
variable {q : Payload}
variable {gs : Properties}
variable {last : Tree}
variable {specs : List Tree}
variable {keys : List String}
variable {target source : String}

theorem le_of_mem_keySpec
    {n x : NodeId}
    {name : String}
    (hX : x ∈ (keySpec (n + 1) n name).ids) :
    n ≤ x := by
  simp only [keySpec, ids, idsAll, List.append_nil,
    List.mem_cons, List.not_mem_nil, or_false] at hX
  rcases hX with rfl | rfl
  · exact Nat.le_succ _
  · exact Nat.le_refl _

theorem le_of_mem_aggregateSpec
    {n x : NodeId}
    (hX : x ∈
      (aggregateSpec (n + 2) n (n + 1) target source).ids) :
    n ≤ x := by
  simp only [aggregateSpec, ids, idsAll, List.append_nil,
    List.mem_cons, List.mem_append, List.not_mem_nil,
    or_false] at hX
  rcases hX with rfl | rfl | rfl
  · exact Nat.le_add_right _ _
  · exact Nat.le_refl _
  · exact Nat.le_succ _

theorem groupKeys_of_specs
    (hSpecs : KeySpecs specs keys) :
    groupKeys (.node g .groupBy q gs (last :: specs
      ++ [aggregateSpec a d r target source])) = keys := by
  rw [groupKeys, children_node]
  induction hSpecs with
  | nil => rfl
  | cons hSpec _ ih =>
      rcases hSpec with ⟨s, r, rfl⟩
      exact congrArg _ ih

theorem groupAggregates_of_specs
    (hSpecs : KeySpecs specs keys) :
    groupAggregates (.node g .groupBy q gs (last :: specs
        ++ [aggregateSpec a d r target source])) =
      [(target, source)] := by
  rw [groupAggregates, children_node]
  induction hSpecs with
  | nil => rfl
  | cons hSpec _ ih =>
      rcases hSpec with ⟨s, r, rfl⟩
      exact ih

/- The specs of a grouping have no annotations. -/
theorem lacks_specs
    (hSpecs : KeySpecs specs keys)
    (key : String) :
    ∀ t ∈ specs ++ [aggregateSpec a d r target source],
      t.Lacks key := by
  have hLeaf (i : NodeId) (k : Kind) (p : Payload) :
      (Tree.node i k p [] []).Lacks key :=
    lacks_leaf rfl
  have hKey (t : Tree) (hT : t ∈ specs) : t.Lacks key := by
    induction hSpecs with
    | nil => cases hT
    | cons hSpec _ ih =>
        rcases hSpec with ⟨s, r, rfl⟩
        rcases List.mem_cons.mp hT with rfl | hT
        · refine lacks_node rfl ?_
          simpa using hLeaf r _ _
        · exact ih hT
  intro t hT
  rcases List.mem_append.mp hT with hT | hT
  · exact hKey t hT
  · cases List.mem_singleton.mp hT
    refine lacks_node rfl ?_
    simp only [List.forall_mem_cons, List.not_mem_nil,
      IsEmpty.forall_iff, implies_true, and_true]
    exact ⟨hLeaf d _ _, hLeaf r _ _⟩

/- A grouping of a stage by some specs is in shape. -/
theorem shaped_specs
    (hSpecs : KeySpecs specs keys)
    (hLast : last.Shaped)
    (hStage : last.kind.isStage) :
    (Tree.node g .groupBy q gs (last :: specs
      ++ [aggregateSpec a d r target source])).Shaped := by
  have hLeaf (i : NodeId) (k : Kind) (name : String)
      (hKind : k = .variable ∨ k = .variableRef) :
      (Tree.node i k (.var name) [] []).Shaped := by
    rcases hKind with rfl | rfl <;>
      exact shaped_leaf ⟨none, rfl⟩
  have hAggregate :
      (aggregateSpec a d r target source).Shaped := by
    refine shaped_node ⟨none, rfl⟩ ?_
    simp only [List.forall_mem_cons, List.not_mem_nil,
      IsEmpty.forall_iff, implies_true, and_true]
    exact ⟨hLeaf d _ _ (.inl rfl), hLeaf r _ _ (.inr rfl)⟩
  have hKeys : (∀ t ∈ specs, t.Shaped) ∧
      ShapeRule.specsInOrder false ((specs
        ++ [aggregateSpec a d r target source]).map
          Tree.kind) := by
    induction hSpecs with
    | nil => exact ⟨List.forall_mem_nil _, rfl⟩
    | cons hSpec _ ih =>
        rcases hSpec with ⟨s, r, rfl⟩
        refine ⟨List.forall_mem_cons.mpr ⟨?_, ih.1⟩, ih.2⟩
        refine shaped_node ⟨none, rfl⟩ ?_
        simpa using hLeaf r _ _ (.inr rfl)
  refine shaped_node ⟨none, ?_⟩ ?_
  · have hOrder := hKeys.2
    simp only [brokenRule?, kind_node, children_node,
      List.cons_append, List.drop_succ_cons, List.drop_zero,
      hOrder]
    simp [hStage]
  · rw [List.cons_append, List.forall_mem_cons,
      List.forall_mem_append]
    exact ⟨hLast, hKeys.1, by simpa using hAggregate⟩

/-
  The specs of a grouping by some keys that collects one
  variable.
-/
structure GroupSpecs
    (keys : List String)
    (target source : String)
    (specs : List Tree) : Prop where
  keys_eq : ∀ g t,
    groupKeys (.node g .groupBy .none [] (t :: specs)) = keys
  aggregates_eq : ∀ g t,
    groupAggregates (.node g .groupBy .none [] (t :: specs)) =
      [(target, source)]
  lacks : ∀ key, ∀ t ∈ specs, t.Lacks key
  shaped : ∀ g t, t.Shaped → t.kind.isStage →
    (Tree.node g .groupBy .none [] (t :: specs)).Shaped

theorem groupSpecs_of_specs
    (hSpecs : KeySpecs specs keys) :
    GroupSpecs keys target source
      (specs ++ [aggregateSpec a d r target source]) where
  keys_eq _ _ := groupKeys_of_specs hSpecs
  aggregates_eq _ _ := groupAggregates_of_specs hSpecs
  lacks := lacks_specs hSpecs
  shaped _ _ := shaped_specs hSpecs

end Tree

namespace Edit

open Plan

variable {plan : Plan}
variable {g : NodeId}
variable {q : Payload}
variable {gs : Properties}
variable {cs : List Tree}

/- A tree of new nodes is appended to a node. -/
theorem ensures_append_holds
    {p : NodeId}
    {k : Kind}
    {t : Tree}
    (hSound : plan.Sound)
    (hHolds : plan.Holds (.node p k q gs cs))
    (hApart : p ∉ Tree.idsAll (cs ++ [t]))
    (hT : plan.Holds t) :
    (append p t.id).Ensures plan (fun _ after =>
      plan.Alters {p} after ∧ after.size = plan.size ∧
        after.Holds (.node p k q gs (cs ++ [t]))) := by
  refine (ensures_append hSound hHolds.self
    hT.self.lt).mono ?_
  rintro _ after ⟨hAlters, hSize, hHere⟩
  refine ⟨hAlters, hSize, holds_node hHere (fun c hC => ?_)⟩
  refine hAlters.holds (?_ : plan.Holds c) ?_
  · rcases List.mem_append.mp hC with hC | hC
    · exact hHolds.child hC
    · cases List.mem_singleton.mp hC
      exact hT
  · rintro x hX rfl
    exact hApart (Tree.mem_idsAll_iff.mpr ⟨c, hC, hX⟩)

/- The nodes of the new specs are new. -/
theorem ensures_addGroupKey
    (hSound : plan.Sound)
    (hHolds : plan.Holds (.node g .groupBy q gs cs))
    (hApart : g ∉ Tree.idsAll cs)
    (name : String) :
    (Pass.addGroupKey g name).Ensures plan (fun _ after =>
      plan.Alters {g} after ∧
        after.Holds (.node g .groupBy q gs (cs ++
          [Tree.keySpec (plan.size + 1) plan.size name])))
    := by
  refine (ensures_add hSound .variableRef (.var name)
    []).bind ?_
  rintro _ first ⟨rfl, hFirst, hFirstSize, hReference⟩
  have hPart : ∀ t ∈ [
      Tree.node plan.size .variableRef (.var name) [] []],
      first.Holds t := by
    intro t hT
    cases List.mem_singleton.mp hT
    exact holds_leaf hReference
  refine (ensures_addWith hFirst.sound .groupSpec .none
    hPart rfl).bind ?_
  rintro _ second ⟨rfl, hSecond, _, hSpec⟩
  have hBoth := hFirst.trans hSecond
  rw [hFirstSize] at hSpec ⊢
  refine (ensures_append_holds hSecond.sound
    (hBoth.holds hHolds (by simp)) ?_ hSpec).mono ?_
  · have hLt : g < plan.size := hHolds.self.lt
    simp only [Tree.mem_idsAll_iff] at hApart ⊢
    rintro ⟨t, hT, hG⟩
    rcases List.mem_append.mp hT with hT | hT
    · exact hApart ⟨t, hT, hG⟩
    · cases List.mem_singleton.mp hT
      exact hLt.not_ge (Tree.le_of_mem_keySpec hG)
  · rintro _ after ⟨hAlters, _, hAfter⟩
    exact ⟨(hBoth.trans hAlters).narrow (by simp), hAfter⟩

theorem ensures_groupKeys
    (hSound : plan.Sound)
    (hHolds : plan.Holds (.node g .groupBy q gs cs))
    (hApart : g ∉ Tree.idsAll cs)
    (keys : List String) :
    (keys.forM (Pass.addGroupKey g)).Ensures plan
      (fun _ after =>
        plan.Alters {g} after ∧ ∃ specs,
          Tree.KeySpecs specs keys ∧
            (∀ x ∈ Tree.idsAll specs, plan.size ≤ x) ∧
            after.Holds (.node g .groupBy q gs
              (cs ++ specs))) := by
  induction keys generalizing plan cs with
  | nil =>
      refine ensures_return ⟨⟨hSound, rfl, le_rfl,
        fun _ _ h => h⟩, [], .nil, by simp [Tree.idsAll], ?_⟩
      rw [List.append_nil]
      exact hHolds
  | cons name rest ih =>
      refine (ensures_addGroupKey hSound hHolds hApart
        name).bind ?_
      rintro _ middle ⟨hAlters, hSpec⟩
      have hLt : g < plan.size := hHolds.self.lt
      refine (ih hAlters.sound hSpec ?_).mono ?_
      · simp only [Tree.mem_idsAll_iff] at hApart ⊢
        rintro ⟨t, hT, hG⟩
        rcases List.mem_append.mp hT with hT | hT
        · exact hApart ⟨t, hT, hG⟩
        · cases List.mem_singleton.mp hT
          exact hLt.not_ge (Tree.le_of_mem_keySpec hG)
      rintro _ after ⟨hAlters', specs, hSpecs, hNew, hAfter⟩
      refine ⟨(hAlters.trans hAlters').narrow (by simp), _,
        hSpecs.cons ⟨plan.size + 1, plan.size, rfl⟩, ?_, ?_⟩
      · intro x hX
        rw [Tree.idsAll, List.mem_append] at hX
        rcases hX with hX | hX
        · exact Tree.le_of_mem_keySpec hX
        · exact hAlters.size.trans (hNew x hX)
      · rw [List.append_assoc] at hAfter
        exact hAfter

/- The aggregate is appended to a grouping. -/
theorem ensures_addAggregate
    (hSound : plan.Sound)
    (hHolds : plan.Holds (.node g .groupBy q gs cs))
    (hApart : g ∉ Tree.idsAll cs)
    {target source : String}
    {next : Edit Unit}
    {post : Unit → Plan → Prop}
    (hNext : ∀ after, plan.Alters {g} after →
      after.Holds (.node g .groupBy q gs (cs ++
        [Tree.aggregateSpec (plan.size + 2) plan.size
          (plan.size + 1) target source])) →
      next.Ensures after post) :
    Edit.Ensures (do
        let declared ← add .variable (.var target) []
        let reference ← add .variableRef (.var source) []
        let aggregate ← addWith .aggregateSpec .none
          [declared, reference]
        append g aggregate
        next) plan post := by
  refine (ensures_add hSound .variable (.var target)
    []).bind ?_
  rintro _ first ⟨rfl, hFirst, hFirstSize, hDeclared⟩
  refine (ensures_add hFirst.sound .variableRef
    (.var source) []).bind ?_
  rintro _ second ⟨rfl, hSecond, hSecondSize, hReference⟩
  have hParts : ∀ t ∈ [
      Tree.node plan.size .variable (.var target) [] [],
      .node first.size .variableRef (.var source) [] []],
      second.Holds t := by
    simp only [List.forall_mem_cons, List.not_mem_nil,
      IsEmpty.forall_iff, implies_true, and_true]
    exact ⟨hSecond.holds (holds_leaf hDeclared)
      (by simp), holds_leaf hReference⟩
  refine (ensures_addWith hSecond.sound .aggregateSpec .none
    hParts rfl).bind ?_
  rintro _ third ⟨rfl, hThird, _, hSpec⟩
  have hAll := (hFirst.trans hSecond).trans hThird
  rw [hSecondSize, hFirstSize] at hSpec ⊢
  refine (ensures_append_holds hThird.sound
    (hAll.holds hHolds (by simp)) ?_ hSpec).bind ?_
  · have hLt : g < plan.size := hHolds.self.lt
    simp only [Tree.mem_idsAll_iff] at hApart ⊢
    rintro ⟨t, hT, hG⟩
    rcases List.mem_append.mp hT with hT | hT
    · exact hApart ⟨t, hT, hG⟩
    · cases List.mem_singleton.mp hT
      exact hLt.not_ge (Tree.le_of_mem_aggregateSpec hG)
  · rintro _ after ⟨hAlters, _, hAfter⟩
    exact hNext after ((hAll.trans hAlters).narrow (by simp))
      hAfter

end Edit

end Flwor

------------------------------------------------------------
-- The Grouping in Its Place
------------------------------------------------------------

namespace Flwor

namespace Edit

open Plan

variable {plan : Plan}
variable {j : NodeId}
variable {q : Payload}
variable {qs : Properties}
variable {cs : List Tree}
variable {last : Tree}

/-
  A grouping of the rows of a stage by some keys.  All of its
  nodes but those of the stage are new.
-/
theorem ensures_grouping
    {keys : List String}
    {target source : String}
    {next : NodeId → Edit Unit}
    {post : Unit → Plan → Prop}
    (hSound : plan.Sound)
    (hLast : plan.Holds last)
    (hNext : ∀ after specs, plan.Alters ∅ after →
      Tree.GroupSpecs keys target source specs →
      (∀ x ∈ Tree.idsAll specs, plan.size ≤ x) →
      after.Holds (.node plan.size .groupBy .none []
        (last :: specs)) →
      (next plan.size).Ensures after post) :
    Edit.Ensures (do
        let group ← addWith .groupBy .none [last.id]
        keys.forM (Pass.addGroupKey group)
        let declared ← add .variable (.var target) []
        let reference ← add .variableRef (.var source) []
        let aggregate ← addWith .aggregateSpec .none
          [declared, reference]
        append group aggregate
        next group) plan post := by
  have hInput : ∀ t ∈ [last], plan.Holds t := by
    intro t hT
    cases List.mem_singleton.mp hT
    exact hLast
  refine (ensures_addWith hSound .groupBy .none hInput
    rfl).bind ?_
  rintro _ first ⟨rfl, hFirst, hFirstSize, hGroup⟩
  have hOld : plan.size ∉ last.ids :=
    fun hMem => Nat.lt_irrefl _ (hLast.lt_of_mem hMem)
  refine (ensures_groupKeys hFirst.sound hGroup ?_ keys).bind
    ?_
  · simpa [Tree.idsAll] using hOld
  rintro _ second ⟨hSecond, specs, hSpecs, hNew, hKeyed⟩
  refine ensures_addAggregate hSecond.sound hKeyed ?_ ?_
  · rw [List.singleton_append, Tree.idsAll, List.mem_append,
      not_or]
    exact ⟨hOld, fun hMem =>
      Nat.not_succ_le_self _ (hFirstSize ▸ hNew _ hMem)⟩
  intro third hThird hGrouped
  rw [List.append_assoc] at hGrouped
  refine hNext third (specs ++ [Tree.aggregateSpec
      (second.size + 2) second.size (second.size + 1)
        target source])
    (((hFirst.trans hSecond).trans hThird).narrow ?_)
    (Tree.groupSpecs_of_specs hSpecs) ?_ hGrouped
  · rintro x ((hX | hX) | hX) hLt
    · exact hX
    · cases hX
      exact (Nat.lt_irrefl _ hLt).elim
    · cases hX
      exact (Nat.lt_irrefl _ hLt).elim
  · intro x hX
    have hGrown : plan.size ≤ first.size := hFirst.size
    rcases Tree.mem_idsAll_iff.mp hX with ⟨t, hT, hX⟩
    rcases List.mem_append.mp hT with hT | hT
    · exact hGrown.trans
        (hNew x (Tree.mem_idsAll_iff.mpr ⟨t, hT, hX⟩))
    · cases List.mem_singleton.mp hT
      exact (hGrown.trans hSecond.size).trans
        (Tree.le_of_mem_aggregateSpec hX)

/-
  The grouping takes the place of the last stage before it;
  the join below has no pending regrouping any more.
-/
theorem ensures_emitGroup
    (hSound : plan.Sound)
    (hLast : last ∈ plan.rootTree.subtrees)
    (hJoin : .node j .join q qs cs ∈ last.subtrees)
    (hPoint : plan.regroupPoint j = last.id)
    (target source : String) :
    (Pass.emitGroup j target source).Ensures plan
      (fun _ after => ∃ g specs,
        after.Sound ∧
        Tree.GroupSpecs (Names.latest
          ((cs[0]?.map Tree.visible).getD [])) target source
            specs ∧
        (∀ x ∈ g :: Tree.idsAll specs, plan.size ≤ x) ∧
        after.rootTree = plan.rootTree.mapAt last.id (fun _ =>
          .node g .groupBy .none []
            (last.mapAt j (fun _ =>
              .node j .join q (qs.erase Properties.regroup)
                cs) :: specs))) := by
  rcases hSound.holds_rootTree with ⟨hTop, hHolds, hNodup⟩
  have hJoinHere := Tree.mem_subtrees_trans hJoin hLast
  have hLeft : ((plan.child? j 0).map plan.visible).getD [] =
      (cs[0]?.map Tree.visible).getD [] := by
    rw [child?, (hHolds.subtree hJoinHere).self.links,
      List.getElem?_map, Option.map_map]
    cases hC : cs[0]? with
    | none => rfl
    | some c =>
        have hMem := Tree.mem_subtrees_trans
          (Tree.mem_subtrees_of_child
            (List.mem_of_getElem? hC)
            (Tree.mem_subtrees_self c)) hJoinHere
        exact congrArg Tree.visible
          (hHolds.tree_eq hSound.linked hTop hMem)
  refine ensures_get_bind ?_
  dsimp only
  rw [hLeft, hPoint]
  split
  · exact ensures_fail _
  · exact ensures_fail _
  next p index hUp hIndex =>
  -- The parent is the only node with this child.
  have hChild : plan.child? p index = some last.id := by
    rcases hSound.linked.exists_indexInParent? hUp with
      ⟨index', hIndex', hChild⟩
    cases hIndex.symm.trans hIndex'
    exact hChild
  rcases hSound.exists_parent hLast hUp with
    ⟨⟨i, k, q', ps, more⟩, hAround, hId, hMore⟩
  change i = _ at hId
  subst hId
  have hParent := hHolds _ (Tree.around_subset hAround)
  have hLastAt : more[index]? = some last := by
    rw [child?, hParent.links, List.getElem?_map,
      Option.map_eq_some_iff] at hChild
    rcases hChild with ⟨t, hT, hId⟩
    have hSame := Tree.eq_of_mem_ids
      (List.nodup_cons.mp (Tree.nodup_ids_of_subtree hNodup
        (Tree.around_subset hAround))).2
      (List.mem_of_getElem? hT) hMore t.id_mem_ids
      (hId ▸ last.id_mem_ids)
    rw [← hSame]
    exact hT
  have hOutside (r : Tree)
      (hR : r ∈ plan.rootTree.around last.id) :
      r.id ∉ last.ids :=
    Tree.not_mem_of_around hNodup hLast hR
  refine (ensures_remove hSound hParent hLastAt).bind ?_
  rintro _ first ⟨rfl, hFirst, hFirstSize, hDetached⟩
  have hLastFirst : first.Holds last := by
    refine hFirst.holds (hHolds.subtree hLast) ?_
    rintro x hX rfl
    exact hOutside _ hAround hX
  refine ensures_grouping hFirst.sound hLastFirst ?_
  intro second specs hSecond hSpecs hNew hGroup
  have hBelow (x : NodeId) (hX : x < plan.size) :
      x ≠ first.size ∧ x ∉ Tree.idsAll specs := by
    rw [← hFirstSize] at hX
    exact ⟨hX.ne, fun hMem => hX.not_ge (hNew x hMem)⟩
  refine (ensures_insert_tree hSound hAround hLastAt
    (hSecond.root.trans hFirst.root) hSecond.sound
    (fun r hR hNe => hSecond.spared r (by simp)
      (hFirst.spared r hNe (hHolds r
        (Tree.around_subset hR))))
    (hSecond.spared _ (by simp) hDetached) hGroup ?_).bind ?_
  · rw [Tree.ids, Tree.idsAll, List.mem_cons, List.mem_append,
      not_or, not_or]
    have hHere := hBelow _ hParent.lt
    exact ⟨hHere.1, hOutside _ hAround, hHere.2⟩
  rintro _ third ⟨hThird, _, _, hTree⟩
  have hJoinMem : j ∈ last.ids :=
    Tree.mem_ids_iff.mpr ⟨_, hJoin, rfl⟩
  have hStill : .node j .join q qs cs ∈
      third.rootTree.subtrees := by
    rw [hTree]
    exact Tree.mem_subtrees_trans hJoin
      (Tree.mem_subtrees_trans
        (Tree.mem_subtrees_of_child List.mem_cons_self
          (Tree.mem_subtrees_self last))
        (Tree.mem_subtrees_mapAt
          (Tree.mem_ids_iff.mpr ⟨last, hLast, rfl⟩)))
  refine (ensures_eraseProperty_tree hThird hStill _).mono ?_
  rintro _ after ⟨hAfter, _, hErased⟩
  refine ⟨first.size, specs, hAfter, hSpecs, ?_, ?_⟩
  · rw [← hFirstSize, List.forall_mem_cons]
    exact ⟨le_rfl, hNew⟩
  have hOld := hBelow j
    ((hHolds.subtree hJoinHere).self.lt)
  have hKept (t : Tree) (hT : t ∈ specs) (f : Tree → Tree) :
      t.mapAt j f = t :=
    Tree.mapAt_of_not_mem (fun hMem =>
      hOld.2 (Tree.mem_idsAll_iff.mpr ⟨t, hT, hMem⟩))
  rw [hErased, hTree, Tree.mapAt_mapAt,
    Tree.mapAt_of_ne hOld.1.symm, List.map_cons,
    List.map_congr_left (fun t hT => hKept t hT _),
    List.map_id']
  rintro r hR rfl
  exact hOutside r hR hJoinMem

end Edit

end Flwor

------------------------------------------------------------
-- The Annotations of a Join
------------------------------------------------------------

namespace Flwor

namespace Tree

/- The parts of correlated stages have no other annotations. -/
theorem Correlated.lacks
    {outer names : List String}
    {run key : String}
    {tie : Tie outer}
    {t t' : Tree}
    (hCorrelated : Correlated outer run tie names t t')
    (hLacks : t.Lacks key) :
    t'.Lacks key ∧ tie.outerKey.Lacks key ∧
      tie.innerKey.Lacks key := by
  induction hCorrelated with
  | here _ hStated =>
      have hPredicate := hLacks.child
        (List.mem_cons_of_mem _ List.mem_cons_self)
      exact ⟨hLacks.child List.mem_cons_self,
        hPredicate.child hStated.mem_children.1,
        hPredicate.child hStated.mem_children.2⟩
  | after _ _ ih =>
      have hBelow := ih (hLacks.child List.mem_cons_self)
      refine ⟨lacks_node ?_ ?_, hBelow.2⟩
      · exact hLacks _ (mem_subtrees_self _)
      · intro c hC
        rcases List.mem_cons.mp hC with rfl | hC
        · exact hBelow.1
        · exact hLacks.child (List.mem_cons_of_mem _ hC)

namespace Nested

variable {feeder pipe : Tree}
variable {candidate : Candidate}
variable {nested : Nested feeder.visible candidate pipe}
variable {number source key : String}
variable {c v j k : NodeId}
variable {qs : Properties}
variable {last : Tree}

theorem lacks_result
    (hPipe : pipe.Lacks key) :
    nested.result.Lacks key := by
  rw [nested.pipe_eq] at hPipe
  exact (hPipe.child List.mem_cons_self).child
    (List.mem_cons_of_mem _ List.mem_cons_self)

/- No node below a join has other annotations. -/
theorem lacks_join
    {left : Tree}
    (hLeft : left.Lacks key)
    (hPipe : pipe.Lacks key) :
    ∀ t ∈ [left,
      .node k .joinExpr (.cmp (.general nested.tie.joining)) []
        [nested.tie.outerKey, nested.tie.innerKey],
      nested.stripped], t.Lacks key := by
  have hTail : nested.tail.Lacks key := by
    rw [nested.pipe_eq] at hPipe
    exact (hPipe.child List.mem_cons_self).child
      List.mem_cons_self
  rcases nested.correlated.lacks hTail with
    ⟨hStripped, hOuter, hInner⟩
  simp only [List.forall_mem_cons, List.not_mem_nil,
    IsEmpty.forall_iff, implies_true, and_true]
  refine ⟨hLeft, lacks_node rfl ?_, hStripped⟩
  simp only [List.forall_mem_cons, List.not_mem_nil,
    IsEmpty.forall_iff, implies_true, and_true]
  exact ⟨hOuter, hInner⟩

theorem lacks_joined
    (hFeeder : feeder.Lacks key)
    (hPipe : pipe.Lacks key) :
    ∀ t ∈ (nested.joined number c v j k qs).children,
      t.Lacks key := by
  have hCounter : (counter c v number feeder).Lacks key := by
    refine lacks_node rfl ?_
    simp only [List.forall_mem_cons, List.not_mem_nil,
      IsEmpty.forall_iff, implies_true, and_true]
    exact ⟨hFeeder, lacks_leaf rfl⟩
  exact lacks_join hCounter hPipe

/- A collector has the annotations of the join and a check. -/
theorem Collector.lacks
    (hCollector : nested.Collector source
      (nested.joined number c v j k qs) last)
    (hFeeder : feeder.Lacks key)
    (hPipe : pipe.Lacks key)
    (hKey : key ≠ Properties.check)
    (hJoin : qs.get? key = none) :
    last.Lacks key := by
  have hJoined :
      (nested.joined number c v j k qs).Lacks key := by
    refine lacks_node hJoin (fun t hT => ?_)
    exact lacks_joined hFeeder hPipe t
      (show t ∈ (nested.joined number c v j k qs).children
        from hT)
  cases hCollector with
  | inner => exact hJoined
  | checked =>
      refine lacks_node ?_ ?_
      · rw [Properties.get?, List.lookup,
          beq_eq_false_iff_ne.mpr hKey]
        rfl
      · simp only [List.forall_mem_cons, List.not_mem_nil,
          IsEmpty.forall_iff, implies_true, and_true]
        exact ⟨hJoined, lacks_leaf rfl,
          lacks_result hPipe⟩

/- Only the join itself may have a pending regrouping. -/
theorem Collector.eq_joined
    (hCollector : nested.Collector source
      (nested.joined number c v j k qs) last)
    (hFeeder : feeder.Lacks Properties.regroup)
    (hPipe : pipe.Lacks Properties.regroup)
    {s : Tree}
    (hS : s ∈ last.subtrees)
    (hPending : s.properties.get? Properties.regroup ≠ none) :
    s = nested.joined number c v j k qs := by
  have hJoined
      (hS : s ∈ (nested.joined number c v j k qs).subtrees) :
      s = nested.joined number c v j k qs := by
    rcases mem_subtrees_cases hS with rfl | ⟨t, hT, hS⟩
    · rfl
    · exact (hPending
        (lacks_joined hFeeder hPipe t hT s hS)).elim
  cases hCollector with
  | inner => exact hJoined hS
  | @checked i x =>
      have hVariable : Tree.Lacks Properties.regroup
          (.node x .variable (.var source) [] []) :=
        lacks_leaf rfl
      rcases mem_subtrees_cases hS with rfl | ⟨t, hT, hS⟩
      · exact (hPending rfl).elim
      simp only [binder, children_node, List.mem_cons,
        List.not_mem_nil, or_false] at hT
      rcases hT with rfl | rfl | rfl
      · exact hJoined hS
      · exact (hPending (hVariable s hS)).elim
      · exact (hPending (lacks_result hPipe s hS)).elim

/- The collector of the join without its regrouping. -/
theorem Collector.erased
    (hCollector : nested.Collector source
      (nested.joined number c v j k qs) last)
    (hNodup : last.ids.Nodup) :
    nested.Collector source
      (nested.joined number c v j k
        (qs.erase Properties.regroup))
      (last.mapAt j (fun _ => nested.joined number c v j k
        (qs.erase Properties.regroup))) := by
  have hHere (f : Tree → Tree) :
      (nested.joined number c v j k qs).mapAt j f =
        f (nested.joined number c v j k qs) :=
    mapAt_self
  cases hCollector with
  | inner hKind hVar hSource =>
      rw [hHere]
      exact .inner hKind hVar hSource
  | @checked i x =>
      have hJoin : j ∈ (nested.joined number c v j k qs).ids :=
        Tree.id_mem_ids _
      rw [binder, ids, List.nodup_cons, idsAll,
        List.nodup_append'] at hNodup
      rcases hNodup with ⟨hTop, _, _, hApart⟩
      have hNe : i ≠ j := by
        rintro rfl
        exact hTop (List.mem_append_left _ hJoin)
      have hOther (t : Tree)
          (hT : t ∈ [.node x .variable (.var source) [] [],
            nested.result]) (f : Tree → Tree) :
          t.mapAt j f = t :=
        mapAt_of_not_mem (fun hMem =>
          hApart hJoin (mem_idsAll_iff.mpr ⟨t, hT, hMem⟩))
      rw [binder, mapAt_of_ne hNe, List.map_cons, hHere,
        List.map_congr_left (fun t hT => hOther t hT _),
        List.map_id']
      exact .checked

end Nested

end Tree

end Flwor

------------------------------------------------------------
-- The Pending Regrouping
------------------------------------------------------------

namespace Flwor

namespace Plan

variable {plan middle : Plan}
variable {stage : NodeId}
variable {last : Tree}

/- What reads the rows of a new stage is not checked. -/
theorem unchecked_consumer
    (hSound : middle.Sound)
    (hStage : stage ∈ plan.rootTree.ids)
    (hTree : middle.rootTree =
      plan.rootTree.mapAt stage (fun _ => last))
    (hLacks : plan.rootTree.Lacks Properties.check)
    {next : NodeId}
    (hNext : middle.parent? last.id = some next) :
    middle.isChecked next = false := by
  rcases hSound.holds_rootTree with ⟨_, hHolds, hNodup⟩
  have hLast : last ∈ middle.rootTree.subtrees := by
    rw [hTree]
    exact Tree.mem_subtrees_mapAt hStage
  rcases hSound.exists_parent hLast hNext with
    ⟨r, hAround, rfl, _⟩
  have hStands := hHolds _ (Tree.around_subset hAround)
  have hOutside :=
    Tree.not_mem_of_around hNodup hLast hAround
  have hMem := Tree.around_subset hAround
  rw [hTree] at hMem
  rw [isChecked, hStands.properties]
  rcases Tree.mem_of_mem_mapAt hMem with hMem | ⟨s, hS, rfl⟩
  · exact (hOutside
      (Tree.mem_ids_iff.mpr ⟨r, hMem, rfl⟩)).elim
  · rw [Tree.properties_mapAt (Tree.around_ne hS),
      hLacks s (Tree.around_subset hS)]
    rfl

/- The walk up stops at a stage whose consumer is unchecked. -/
theorem regroupPointWithin_of_unchecked
    {x : NodeId}
    (hUnchecked : ∀ next, middle.parent? x = some next →
      middle.isChecked next = false)
    (steps : Nat) :
    middle.regroupPointWithin steps x = x := by
  cases steps with
  | zero => rfl
  | succ n =>
      rw [regroupPointWithin]
      split
      next next hConsumer =>
        rw [hUnchecked next (parent?_of_consumer hConsumer),
          Bool.and_false, if_neg Bool.false_ne_true]
      · rfl

variable {feeder pipe : Tree}
variable {candidate : Candidate}
variable {nested : Tree.Nested feeder.visible candidate pipe}
variable {number source target : String}
variable {c v j k : NodeId}
variable {qs : Properties}

/- The rows are grouped after the stage that collects. -/
theorem regroupPoint_eq
    (hSound : middle.Sound)
    (hStage : stage ∈ plan.rootTree.ids)
    (hTree : middle.rootTree =
      plan.rootTree.mapAt stage (fun _ => last))
    (hLacks : plan.rootTree.Lacks Properties.check)
    (hCollector : nested.Collector source
      (nested.joined number c v j k qs) last) :
    middle.regroupPoint j = last.id := by
  have hAbove (next : NodeId)
      (hNext : middle.parent? last.id = some next) :
      middle.isChecked next = false :=
    unchecked_consumer hSound hStage hTree hLacks hNext
  cases hCollector with
  | inner =>
      exact regroupPointWithin_of_unchecked hAbove _
  | @checked i x =>
      rcases hSound.holds_rootTree with ⟨_, hHolds, _⟩
      have hBind : middle.Holds (Tree.binder .letBind i x
          [(Properties.check, .var candidate.run)] source
          (nested.joined number c v j k qs)
          nested.result) := by
        refine hHolds.subtree ?_
        rw [hTree]
        exact Tree.mem_subtrees_mapAt hStage
      have hChildren := hBind.self.links
      have hFirst : middle.child? i 0 = some j := by
        rw [child?, hChildren]
        rfl
      have hChecked : middle.isChecked i = true :=
        hBind.self.isChecked_eq
      have hKind : middle.kind i = .letBind :=
        hBind.self.kind
      have hConsumer : middle.consumer j = .ok (.stage i) := by
        rw [consumer,
          hSound.linked.parent?_of_child? hFirst]
        simp only [hKind]
        exact if_pos ⟨rfl, hFirst⟩
      have hSize : middle.size = middle.size - 1 + 1 :=
        (Nat.sub_add_cancel (Nat.one_le_of_lt
          hBind.self.lt)).symm
      rw [regroupPoint, hSize, regroupPointWithin, hConsumer]
      simp only [hKind, hChecked, decide_true, Bool.and_self,
        if_true]
      exact regroupPointWithin_of_unchecked hAbove _

end Plan

namespace Edit

open Plan

variable {plan middle : Plan}
variable {stage : NodeId}
variable {feeder pipe : Tree}
variable {candidate : Candidate}
variable {nested : Tree.Nested feeder.visible candidate pipe}
variable {number source target : String}
variable {c v j k : NodeId}
variable {last : Tree}

/-
  A join whose regrouping is emitted is the new one, and the
  rows of its collector are grouped in place of the binding.
-/
theorem ensures_regroupJoin
    (hSound : plan.Sound)
    (hStage : stage ∈ plan.rootTree.ids)
    (hLacksCheck : plan.rootTree.Lacks Properties.check)
    (hLacks : plan.rootTree.Lacks Properties.regroup)
    (hFeeder : feeder.Lacks Properties.regroup)
    (hPipe : pipe.Lacks Properties.regroup)
    (hPending : nested.Pending plan number source target c v
      j k last)
    (hMiddle : middle.Sound)
    (hTree : middle.rootTree =
      plan.rootTree.mapAt stage (fun _ => last))
    {join : NodeId}
    (hJoin : join ∈ middle.rootTree.ids) :
    (Pass.regroupJoin join).Ensures middle
      (fun done after => done = true →
        ∃ g specs grouped,
          nested.Collector source
            (nested.joined number c v j k
              [(Properties.leftJoin, .flag true)]) grouped ∧
          Tree.groupKeys (.node g .groupBy .none []
              (grouped :: specs)) =
            Names.latest (feeder.visible ++ [number]) ∧
          Tree.groupAggregates (.node g .groupBy .none []
              (grouped :: specs)) =
            [(target, source)] ∧
          (∀ key, ∀ t ∈ specs, t.Lacks key) ∧
          after.Sound ∧
          after.rootTree = plan.rootTree.mapAt stage (fun _ =>
            .node g .groupBy .none []
              (grouped :: specs))) := by
  rcases hMiddle.holds_rootTree with ⟨_, hHolds, hNodup⟩
  have hLast : last ∈ middle.rootTree.subtrees := by
    rw [hTree]
    exact Tree.mem_subtrees_mapAt hStage
  have hLastNodup := Tree.nodup_ids_of_subtree hNodup hLast
  rcases Tree.mem_ids_iff.mp hJoin with ⟨s, hS, rfl⟩
  have hProperties : middle.properties s.id = s.properties :=
    (hHolds.subtree hS).self.properties
  refine ensures_get_bind ?_
  dsimp only
  rw [hProperties]
  split
  · exact ensures_return nofun
  split
  case h_2 => exact ensures_return nofun
  next target' source' hRegroup =>
  split
  · exact ensures_return nofun
  -- Nothing else in the plan has a pending regrouping.
  have hGet : s.properties.get? Properties.regroup ≠ none := by
    intro hNone
    rw [Properties.vars?, hNone] at hRegroup
    cases hRegroup
  have hBelow : s ∈ last.subtrees := by
    rw [hTree] at hS
    refine (Tree.mem_of_mem_mapAt hS).resolve_right ?_
    rintro ⟨r, hR, rfl⟩
    rw [Tree.properties_mapAt (Tree.around_ne hR)] at hGet
    exact hGet (hLacks r (Tree.around_subset hR))
  cases hPending.collector.eq_joined hFeeder hPipe hBelow
    hGet
  cases (show some [target, source] = some [target', source']
    from hRegroup)
  have hPoint := regroupPoint_eq hMiddle hStage hTree
    hLacksCheck hPending.collector
  refine (ensures_emitGroup hMiddle hLast hBelow hPoint target
    source).bind ?_
  rintro _ after ⟨g, specs, hAfter, hSpecs, _, hGrouped⟩
  have hApart : ∀ r ∈ plan.rootTree.around stage,
      r.id ≠ last.id := by
    intro r hR
    have hOld := (hSound.holds_rootTree.2.1 _
      (Tree.around_subset hR)).lt
    exact (hOld.trans_le hPending.new).ne
  refine ensures_return (fun _ => ⟨g, specs, _,
    hPending.collector.erased hLastNodup,
    (hSpecs.keys_eq _ _).trans rfl, hSpecs.aggregates_eq _ _,
    hSpecs.lacks, hAfter, ?_⟩)
  rw [hGrouped, hTree, Tree.mapAt_mapAt hApart, Tree.mapAt_id]
  rfl

end Edit

end Flwor
