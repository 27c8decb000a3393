import Flwor.Proofs.Arena.Confinement
import Flwor.Proofs.Arena.Insertions
import Flwor.Proofs.Projection
import Flwor.Proofs.Substitution

/-
  The pipeline around a stage that is replaced.

  A replacement may expose names to the rest of the pipeline
  that its stage belongs to, if they are not read there; from
  outside of the pipeline none of them is seen.

  Key definitions include:
    * `Tree.Feeding`
    * `Tree.Encloses`

  Key theorems include:
    * `Tree.offSpine_subset_outside`
    * `Tree.Encloses.replaces`
    * `Plan.replaces_rootTree`
    * `Query.meets_evaluate`
-/

------------------------------------------------------------
-- What Is Read Outside
------------------------------------------------------------

namespace Flwor

namespace Kind

variable {k : Kind}

theorem hasSpine_of_hasInput
    (hKind : k.hasInput) :
    k.hasSpine ∧ k ≠ .join := by
  cases k <;> simp_all [hasInput, hasSpine]

theorem hasInput_of_isStage
    (hStage : k.isStage)
    (hStart : k ≠ .start)
    (hJoin : k ≠ .join) :
    k.hasInput := by
  cases k <;> first | rfl | contradiction

end Kind

namespace Tree

variable {name : String}
variable {x : NodeId}
variable {s t pipe : Tree}

section Node

variable {i : NodeId}
variable {k : Kind}
variable {p : Payload}
variable {ps : Properties}
variable {cs : List Tree}

end Node

/- One stage feeds another one, through stages and joins. -/
inductive Feeding
    (s : Tree) : Tree → Prop where
  | here : Feeding s s
  | input
      {i k p ps input rest}
      (hKind : k.hasInput)
      (hInput : Feeding s input) :
      Feeding s (.node i k p ps (input :: rest))
  | left
      {i p ps left keys right}
      (hLeft : Feeding s left) :
      Feeding s (.node i .join p ps [left, keys, right])
  | right
      {i p ps left keys right}
      (hRight : Feeding s right) :
      Feeding s (.node i .join p ps [left, keys, right])

theorem Feeding.mem
    (hFeeding : Feeding s t) :
    s ∈ t.subtrees := by
  induction hFeeding with
  | here => exact mem_subtrees_self s
  | input _ _ ih =>
      exact mem_subtrees_of_child List.mem_cons_self ih
  | left _ ih =>
      exact mem_subtrees_of_child List.mem_cons_self ih
  | right _ ih =>
      exact mem_subtrees_of_child
        (List.mem_cons_of_mem _ (List.mem_cons_of_mem _
          List.mem_cons_self)) ih

end Tree

end Flwor

------------------------------------------------------------
-- The Pipeline Around
------------------------------------------------------------

namespace Flwor

namespace Tree

variable {library : Library}
variable {lax : Leeway}
variable {lost names : Set String}
variable {s t t' tail pipe : Tree}

/- A stage is no expression. -/
theorem ReadsFrom.isStage_eq
    (hReads : ReadsFrom library False names t) :
    t.kind.isStage = false := by
  cases hReads with
  | @binary _ _ k _ _ _ _ _ hKind =>
      cases k <;> first | rfl | exact hKind.elim
  | _ => rfl

/- No stage is in the place of an expression. -/
theorem Replaces.of_stage
    {out : Exclusions}
    (hStage : t.kind.isStage)
    (hFeeds : ∀ context handed, Disjoint context out.absent →
      Disjoint handed out.lost →
        Supplies library False context handed t →
          Feeds library lax out.lost context handed t t') :
    Replaces library lax out t t' := by
  refine ⟨fun names _ hReads => ?_, hFeeds⟩
  rw [hReads.isStage_eq] at hStage
  cases hStage

/- From outside of a pipeline no name of it can be lost. -/
theorem Replaces.pipeline
    {i : NodeId}
    {p : Payload}
    {ps : Properties}
    {cs : List Tree}
    (hReplaces : Replaces library lax lost
      (.node i .pipeExpr p ps cs) t') :
    Replaces library lax ∅ (.node i .pipeExpr p ps cs) t' :=
  ⟨hReplaces.expr, fun _ _ _ _ hSupplies =>
    nomatch hSupplies⟩

/- A tree that no expression can be may be replaced. -/
theorem replaces_of_not_reads
    {i : NodeId}
    {p : Payload}
    {ps : Properties}
    {cs : List Tree}
    (hReads : ∀ names, ¬ ReadsFrom library False names
      (.node i .pipeExpr p ps cs)) :
    Replaces library lax ∅ (.node i .pipeExpr p ps cs) t' :=
  ⟨fun names _ h => (hReads names h).elim,
    fun _ _ _ _ hSupplies => nomatch hSupplies⟩

variable {i j : NodeId}
variable {p q : Payload}
variable {ps qs : Properties}
variable {rest : List Tree}
variable {f : Tree → Tree}

/- A pipeline does not return a stage. -/
theorem Shaped.not_reads_of_stage
    (hShaped : (Tree.node i .pipeExpr p ps
      [.node j .finish q qs (tail :: rest)]).Shaped)
    (hT : t ∈ rest)
    (hStage : t.kind.isStage) :
    ¬ ReadsFrom library False names (.node i .pipeExpr p ps
      [.node j .finish q qs (tail :: rest)]) := by
  intro hReads
  rcases (hShaped.child List.mem_cons_self).self with
    ⟨place, hRule⟩
  simp only [brokenRule?, kind_node, children_node,
    Option.orElse_eq_orElse, Option.orElse_eq_or,
    Option.or_eq_none_iff, ShapeRule.countIn_eq_none,
    List.length_cons, List.mem_cons, List.not_mem_nil,
    or_false] at hRule
  cases hReads with
  | binary hKind => exact hKind.elim
  | @pipe _ _ _ _ _ _ _ _ result more _ _ _ hResult =>
      have hNone : more = [] := by
        have hCount := hRule.1
        simp only [List.length_cons] at hCount
        exact List.eq_nil_of_length_eq_zero (by omega)
      subst hNone
      cases List.mem_singleton.mp hT
      rw [hResult.isStage_eq] at hStage
      cases hStage

/-
  A pipeline around a stage: the stage feeds the tail, and
  certain names are read nowhere else.  Otherwise a stage
  stands in the place of the result, and the pipeline is
  meaningless.
-/
structure Encloses
    (lost : Set String)
    (s u : Tree) : Prop where
  shaped : u.Shaped
  lacks : u.Lacks Properties.project
  nodup : u.ids.Nodup
  mem : s ∈ u.subtrees
  parts : ∃ i p ps j q qs tail rest,
    u = .node i .pipeExpr p ps
        [.node j .finish q qs (tail :: rest)] ∧
      (Feeding s tail ∧
          (∀ name ∈ u.offSpine s.id, name ∉ lost) ∨
        ∃ t ∈ rest, t.kind.isStage)

/-
  A stage of a pipeline is replaced, and the lost names are
  not read elsewhere in it.
-/
theorem Encloses.replaces
    {u : Tree}
    (hEncloses : Encloses lost s u)
    (hIsStage : s.kind.isStage ∧ t'.kind.isStage)
    (hAfter : (u.mapAt s.id (fun _ => t')).Lacks
      Properties.project)
    (hTarget : Replaces library lax lost s t') :
    Replaces library lax ∅ u
      (u.mapAt s.id (fun _ => t')) := by
  rcases hEncloses.parts with
    ⟨i, p, ps, j, q, qs, tail, rest, rfl, hParts⟩
  have hSame (r : Tree)
      (hR : r ∈ (Tree.node i .pipeExpr p ps
        [.node j .finish q qs (tail :: rest)]).subtrees)
      (hId : r.id = s.id) : r = s :=
    eq_of_id_eq hEncloses.nodup hR hEncloses.mem hId
  rcases hParts with ⟨_, hUnread⟩ | ⟨t, hT, hStage⟩
  · have hExchanges : Exchanges s.id (fun _ => t')
        (.node i .pipeExpr p ps
          [.node j .finish q qs (tail :: rest)]) := by
      refine ⟨fun r hR hId => ?_, fun r hR hId => ?_⟩
      · rw [hSame r hR hId]
        exact .inl hIsStage.1
      · rw [hSame r hR hId]
        exact .inl hIsStage
    have hHosts : Hosts lost s.id (fun _ => t')
        (.node i .pipeExpr p ps
          [.node j .finish q qs (tail :: rest)]) :=
      .of_lost hEncloses.shaped hEncloses.lacks hAfter
        hExchanges hUnread
    refine (replaces_mapAt hHosts (fun r hR hId => ?_)).pipeline
    rw [hSame r hR hId]
    exact hTarget
  · exact replaces_of_not_reads (fun names =>
      hEncloses.shaped.not_reads_of_stage hT hStage)

/- A pipeline is replaced in a tree around it. -/
theorem Replaces.above
    {u pipe' : Tree}
    (hShaped : u.Shaped)
    (hLacks : u.Lacks Properties.project)
    (hNodup : u.ids.Nodup)
    (hPipe : pipe ∈ u.subtrees)
    (hKind : pipe.kind = .pipeExpr)
    (hKind' : pipe'.kind = .pipeExpr)
    (hAfter : pipe'.Lacks Properties.project)
    (hReplaces : Replaces library lax ∅ pipe pipe') :
    Replaces library lax ∅ u
      (u.mapAt pipe.id (fun _ => pipe')) := by
  have hSame (r : Tree) (hR : r ∈ u.subtrees)
      (hId : r.id = pipe.id) : r = pipe :=
    eq_of_id_eq hNodup hR hPipe hId
  have hExchanges : Exchanges pipe.id (fun _ => pipe') u := by
    refine ⟨fun r hR hId => ?_, fun r hR hId => ?_⟩
    · rw [hSame r hR hId]
      exact .inr hKind
    · rw [hSame r hR hId]
      exact .inr (hKind.trans hKind'.symm)
  refine replaces_mapAt (.of_lost hShaped hLacks
    (lacks_mapAt hLacks (fun _ _ _ => hAfter)) hExchanges
    (fun _ _ h => h)) (fun r hR hId => ?_)
  rw [hSame r hR hId]
  exact hReplaces

end Tree

end Flwor

------------------------------------------------------------
-- The Pipeline in Its Plan
------------------------------------------------------------

namespace Flwor

namespace Plan

variable {plan : Plan}
variable {finish : NodeId}
variable {r s u : Tree}

theorem Sound.reaches_of_subtree
    (hSound : plan.Sound)
    (hR : r ∈ plan.rootTree.subtrees) :
    plan.Reaches r.id := by
  rcases hSound.holds_rootTree with ⟨hTop, hHolds, _⟩
  rw [hSound.linked.reaches_iff_under, ← hTop]
  exact hHolds.under hSound.linked
    (Tree.mem_ids_iff.mpr ⟨r, hR, rfl⟩)

/- The rules that a subtree of a valid plan follows. -/
theorem Sound.rules_of_subtree
    (hSound : plan.Sound)
    (hValid : plan.validate = .ok ())
    (hR : r ∈ plan.rootTree.subtrees) :
    r.kind.Admits r.payload (r.children.map Tree.kind) ∧
      r.kind.Places r.id (r.children.map Tree.kind) := by
  have hHere := hSound.holds_rootTree.2.1.subtree hR
  have hKinds : plan.childKinds r.id =
      r.children.map Tree.kind := by
    rw [childKinds, hHere.self.children, List.map_map]
    exact List.map_congr_left (fun c hC =>
      (hHere.child hC).self.kind)
  have hRules := rules_of_validate hSound.linked hValid
    (hSound.reaches_of_subtree hR)
  rw [hKinds, hHere.self.kind, hHere.self.payload] at hRules
  exact hRules

/- A stage below a stage is its input or one of two. -/
theorem Sound.cases_of_stage
    (hSound : plan.Sound)
    (hValid : plan.validate = .ok ())
    (hR : r ∈ plan.rootTree.subtrees)
    (hStage : r.kind.isStage)
    (hU : u ∈ r.children)
    (hUStage : u.kind.isStage) :
    (∃ i k p ps rest, k.hasInput ∧
        r = .node i k p ps (u :: rest)) ∨
      (∃ i p ps keys right,
        r = .node i .join p ps [u, keys, right]) ∨
      ∃ i p ps left keys,
        r = .node i .join p ps [left, keys, u] := by
  rcases hSound.rules_of_subtree hValid hR with
    ⟨hAdmits, hPlaces⟩
  rcases List.mem_iff_getElem?.mp hU with ⟨index, hIndex⟩
  have hChild :
      (r.children.map Tree.kind)[index]? = some u.kind := by
    rw [List.getElem?_map, hIndex]
    rfl
  have hShaped : r.Shaped :=
    fun t hT => (shaped_of_validate hValid) t
      (Tree.mem_subtrees_trans hT hR)
  have hPlace := Kind.Places.stagePlace hAdmits hPlaces hChild
    hUStage
  rcases r with ⟨i, k, p, ps, cs⟩
  rw [Tree.kind_node] at hStage
  rcases hPlace with hPlace | ⟨hFinish, _⟩
  case inr =>
    rw [Tree.kind_node] at hFinish
    rw [hFinish] at hStage
    cases hStage
  by_cases hJoin : k = .join
  · subst hJoin
    rcases hShaped.join with
      ⟨left, j, q, qs, leftKey, rightKey, right, rfl, _⟩
    cases hPlace with
    | stage =>
        cases hIndex
        exact .inr (.inl ⟨i, p, ps, _, right, rfl⟩)
    | join =>
        cases hIndex
        exact .inr (.inr ⟨i, p, ps, left, _, rfl⟩)
  · rcases cs with _ | ⟨first, rest⟩
    · cases hU
    have hFirst : first = u := by
      cases hPlace with
      | finish => cases hStage
      | stage =>
          cases hIndex
          rfl
      | join => exact (hJoin rfl).elim
    subst hFirst
    have hStart : k ≠ .start := by
      rintro rfl
      cases hAdmits
    exact .inl ⟨i, k, p, ps, rest,
      Kind.hasInput_of_isStage hStage hStart hJoin, rfl⟩

/- A stage below a stage feeds it. -/
theorem feeding_of_child
    (hSound : plan.Sound)
    (hValid : plan.validate = .ok ())
    (hR : r ∈ plan.rootTree.subtrees)
    (hStage : r.kind.isStage)
    (hU : u ∈ r.children)
    (hUStage : u.kind.isStage)
    (hFeeding : s.Feeding u) :
    s.Feeding r := by
  rcases hSound.cases_of_stage hValid hR hStage hU hUStage
    with ⟨i, k, p, ps, rest, hKind, rfl⟩ |
      ⟨i, p, ps, keys, right, rfl⟩ |
      ⟨i, p, ps, left, keys, rfl⟩
  · exact .input hKind hFeeding
  · exact .left hFeeding
  · exact .right hFeeding

/- The root of a valid plan is not the end of a pipeline. -/
theorem rootTree_kind_ne_finish
    (hValid : plan.validate = .ok ()) :
    plan.rootTree.kind ≠ .finish := by
  intro hKind
  have hRoot := firstDefect?_of_validate hValid
  generalize plan.rootTree = t at hKind hRoot
  rcases t with ⟨i, k, p, ps, cs⟩
  change k = .finish at hKind
  subst hKind
  rw [Tree.firstDefect?] at hRoot
  split at hRoot
  · cases hRoot
  next hOwn =>
    have hRule := Tree.brokenRule?_of_ownDefect? hOwn
    rw [Tree.brokenRule?_node_iff] at hRule
    cases hRule.2 rfl

/- A node above the end of a pipeline is this pipeline. -/
theorem Sound.pipeline_of_child
    {j : NodeId}
    {q : Payload}
    {qs : Properties}
    {parts : List Tree}
    (hSound : plan.Sound)
    (hValid : plan.validate = .ok ())
    (hR : r ∈ plan.rootTree.subtrees)
    (hFinish : .node j .finish q qs parts ∈ r.children) :
    ∃ i p ps tail rest, parts = tail :: rest ∧
      r = .node i .pipeExpr p ps
        [.node j .finish q qs (tail :: rest)] := by
  rcases r with ⟨i, k, p, ps, cs⟩
  have hPipeKind : k = .pipeExpr := by
    rcases List.mem_iff_getElem?.mp hFinish with
      ⟨index, hIndex⟩
    refine ((hSound.rules_of_subtree hValid hR).2 index
      .finish ?_).1 rfl
    rw [List.getElem?_map, hIndex]
    rfl
  subst hPipeKind
  have hShaped : (Tree.node i .pipeExpr p ps cs).Shaped :=
    fun t hT => (shaped_of_validate hValid) t
      (Tree.mem_subtrees_trans hT hR)
  rcases hShaped.pipe with ⟨j', q', qs', tail, rest, rfl, _⟩
  cases List.mem_singleton.mp hFinish
  exact ⟨i, p, ps, tail, rest, rfl, rfl⟩

/- The end of a pipeline belongs to one. -/
theorem Sound.pipeline_of_finish
    {j : NodeId}
    {q : Payload}
    {qs : Properties}
    {parts : List Tree}
    (hSound : plan.Sound)
    (hValid : plan.validate = .ok ())
    (hR : .node j .finish q qs parts ∈
      plan.rootTree.subtrees) :
    ∃ i p ps tail rest, parts = tail :: rest ∧
      .node i .pipeExpr p ps
        [.node j .finish q qs (tail :: rest)] ∈
          plan.rootTree.subtrees := by
  rcases hSound.holds_rootTree with ⟨hTop, _, hNodup⟩
  have hBelow : j ≠ plan.root := by
    intro hRoot
    refine rootTree_kind_ne_finish hValid ?_
    rw [Tree.eq_of_id_eq hNodup (Tree.mem_subtrees_self _) hR
      (hTop.trans hRoot.symm)]
    rfl
  rcases (hSound.reaches_of_subtree hR).exists_parent
      hSound.linked hBelow with ⟨x, hUp, _⟩
  rcases hSound.exists_parent hR hUp with
    ⟨pipe, hAround, _, hChild⟩
  have hPipeline := Tree.around_subset hAround
  rcases hSound.pipeline_of_child hValid hPipeline hChild with
    ⟨i, p, ps, tail, rest, hParts, rfl⟩
  exact ⟨i, p, ps, tail, rest, hParts, hPipeline⟩

end Plan

end Flwor

------------------------------------------------------------
-- Evaluation
------------------------------------------------------------

namespace Flwor

namespace Query

variable {library : Library}
variable {plan after : Plan}
variable {externals : List String}
variable {query : Query}

/-
  A plan whose tree is replaced compiles as before, and what
  it evaluates to meets what it evaluated to.
-/
theorem meets_evaluate
    {lax : Leeway}
    (hShaped : plan.rootTree.Shaped)
    (hLacks : plan.rootTree.Lacks Properties.project)
    (hServes :
      Tree.ReadsFrom library False {n | n ∈ externals}
        plan.rootTree →
        Tree.Serves library lax {n | n ∈ externals}
          plan.rootTree after.rootTree)
    (hQuery : ofPlan library plan externals = .ok query) :
    ∃ query',
      ofPlan library after externals = .ok query' ∧
        ∀ bindings : Bindings,
          (∀ name ∈ externals,
            (bindings.lookup name).isSome) →
            Meets lax Eq
              (query'.evaluate bindings).result.toOption
              (query.evaluate bindings).result.toOption := by
  have hReads : Tree.ReadsFrom library False
      {n | n ∈ externals} plan.rootTree :=
    (Tree.scoped_of_compiled _ hLacks hShaped).1
      (Layout.ofContext externals) _ (ofPlan_eq_ok hQuery).1
  have hServes := hServes hReads
  rcases hServes.reads.simulated (Layout.ofContext externals)
      (fun _ hName => hName) with ⟨e, hExpr, _⟩
  rcases exists_ofPlan hExpr with ⟨query', hQuery'⟩
  refine ⟨query', hQuery', fun bindings hBound => ?_⟩
  have hBefore := (refines_evaluate hReads hQuery
    hBound).eq_of_strict
  have hAfter := (refines_evaluate hServes.reads hQuery'
    hBound).eq_of_strict
  have hSame := hServes.same _
    (Env.ofBindings externals bindings) (fun _ _ => rfl)
  rw [Tree.SameValue, hBefore, hAfter] at hSame
  exact hSame

/-
  If nothing is lost, it fails or yields the same sequence,
  also where an external is not bound.
-/
theorem same_evaluate
    (hShaped : plan.rootTree.Shaped)
    (hLacks : plan.rootTree.Lacks Properties.project)
    (hServes : ∀ names,
      Tree.ReadsFrom library False names plan.rootTree →
        Tree.Serves library False names plan.rootTree
          after.rootTree)
    (hQuery : ofPlan library plan externals = .ok query) :
    ∃ query',
      ofPlan library after externals = .ok query' ∧
        ∀ bindings : Bindings,
          (query'.evaluate bindings).result.toOption =
            (query.evaluate bindings).result.toOption := by
  rcases meets_evaluate hShaped hLacks (hServes _) hQuery with
    ⟨query', hQuery', hMeets⟩
  have hNone {q : Query} (hExternals : q.externals = externals)
      {bindings : Bindings}
      (hUnbound : ¬∀ name ∈ externals,
        (bindings.lookup name).isSome) :
      (q.evaluate bindings).result.toOption = none := by
    cases hResult : (q.evaluate bindings).result with
    | error e => rfl
    | ok items =>
        have hBound := isSome_lookup_of_evaluate hResult
        rw [hExternals] at hBound
        exact (hUnbound hBound).elim
  refine ⟨query', hQuery', fun bindings => ?_⟩
  by_cases hBound : ∀ name ∈ externals,
      (bindings.lookup name).isSome
  · exact (hMeets bindings hBound).eq_of_strict
  · rw [hNone (ofPlan_eq_ok hQuery).2 hBound,
      hNone (ofPlan_eq_ok hQuery').2 hBound]

end Query

end Flwor
