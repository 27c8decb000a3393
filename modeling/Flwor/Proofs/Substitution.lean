import Mathlib
import Flwor.Proofs.Arena.Holding
import Flwor.Proofs.Replacement

/-
  What a replaced subtree means for the tree around it.

  Assume that a replacement follows the scoping rules
  wherever the replaced subtree does, and that their values
  or rows meet: then the same holds of the whole trees.  A
  replaced stage may lose some names to the rows that it
  hands on; these must not be read on the way to the end of
  its pipeline, where they get out of sight.  Nothing is said
  of scopes that hold certain other names, which no stage
  around the replaced one binds.

  Key definitions include:
    * `Exclusions`
    * `Tree.Serves`, `Tree.Feeds`
    * `Tree.Replaces`
    * `Tree.Hosts`

  Key theorems include:
    * `Tree.replaces_mapAt`
-/

------------------------------------------------------------
-- Replacements
------------------------------------------------------------

namespace Flwor

/-
  The names that a replacement loses, and the names that are
  absent from all scopes in which it replaces something.
-/
structure Exclusions where
  lost : Set String
  absent : Set String

/- Names get lost, and scopes may hold any names. -/
instance : Coe (Set String) Exclusions where
  coe lost := ⟨lost, ∅⟩

instance : EmptyCollection Exclusions where
  emptyCollection := ⟨∅, ∅⟩

namespace Tree

variable (library : Library)
variable (lax : Leeway)

/- One expression does what another one does for names. -/
structure Serves
    (names : Set String)
    (t t' : Tree) : Prop where
  reads : ReadsFrom library False names t'
  same : ∀ env env', Env.AgreeOn names env' env →
    SameValue library lax t' env' t env

/-
  One stage does what another one does in a context, for the
  names handed on; it may bind other names if they are lost.
-/
structure Feeds
    (lost context handed : Set String)
    (t t' : Tree) : Prop where
  supplies : Supplies library False context handed t'
  visible : ∀ name, name ∉ lost →
    (name ∈ t'.visible ↔ name ∈ t.visible)
  same : ∀ env env', Env.AgreeOn context env' env →
    SameRows library lax (Env.AgreeOn handed) t' env' t env

/-
  One tree may replace another one wherever this one follows
  the scoping rules.  Lost names are never handed on.
-/
structure Replaces
    (out : Exclusions)
    (t t' : Tree) : Prop where
  expr : ∀ names, Disjoint names out.absent →
    ReadsFrom library False names t →
      Serves library lax names t t'
  stage : ∀ context handed, Disjoint context out.absent →
    Disjoint handed out.lost →
      Supplies library False context handed t →
        Feeds library lax out.lost context handed t t'

/-
  A tree in which a subtree can be replaced: names that the
  replacement loses are read nowhere off the spine, unless
  they are absent, and absent names are not bound around it.
-/
structure Hosts
    (out : Exclusions)
    (id : NodeId)
    (f : Tree → Tree)
    (t : Tree) : Prop where
  shaped : t.Shaped
  lacks : t.Lacks Properties.project
  lacksAfter : (t.mapAt id f).Lacks Properties.project
  exchanges : Exchanges id f t
  unread : ∀ name ∈ t.offSpine id,
    name ∉ out.lost \ out.absent
  hidden : ∀ r ∈ t.subtrees, r.id = id ∨ r ∈ t.around id →
    ∀ name ∈ r.visible, name ∉ out.absent

variable {library : Library}
variable {lax : Leeway}
variable {lost : Set String}
variable {out : Exclusions}
variable {id : NodeId}
variable {f : Tree → Tree}
variable {i : NodeId}
variable {k : Kind}
variable {p : Payload}
variable {ps : Properties}
variable {cs : List Tree}
variable {names context handed : Set String}

/- With no names absent, all scopes count. -/
theorem Replaces.serves
    {t t' : Tree}
    (hReplaces : Replaces library lax lost t t')
    (names : Set String)
    (hReads : ReadsFrom library False names t) :
    Serves library lax names t t' :=
  hReplaces.expr names (Set.disjoint_empty names) hReads

namespace Hosts

/- With no names absent, all names may be bound around it. -/
theorem of_lost
    {t : Tree}
    (hShaped : t.Shaped)
    (hLacks : t.Lacks Properties.project)
    (hLacksAfter : (t.mapAt id f).Lacks Properties.project)
    (hExchanges : Exchanges id f t)
    (hUnread : ∀ name ∈ t.offSpine id, name ∉ lost) :
    Hosts lost id f t :=
  ⟨hShaped, hLacks, hLacksAfter, hExchanges,
    fun name hName hLost => hUnread name hName hLost.1,
    fun _ _ _ _ _ hAbsent => hAbsent⟩

theorem child
    {c : Tree}
    (hHosts : Hosts out id f (.node i k p ps cs))
    (hId : i ≠ id)
    (hChild : c ∈ cs) :
    Hosts out id f c where
  shaped := hHosts.shaped.child hChild
  lacks := hHosts.lacks.child hChild
  lacksAfter := by
    have hAfter := hHosts.lacksAfter
    rw [mapAt_of_ne hId] at hAfter
    exact hAfter.child (List.mem_map_of_mem hChild)
  exchanges := hHosts.exchanges.child hChild
  unread name hName :=
    hHosts.unread name (offSpine_of_child hId hChild hName)
  hidden r hR hPlace :=
    hHosts.hidden r (mem_subtrees_of_child hChild hR)
      (hPlace.imp_right (fun hAround =>
        mem_around_node.mpr ⟨hId, .inr ⟨c, hChild, hAround⟩⟩))

/- No absent name is handed on. -/
theorem disjoint_handed
    {t : Tree}
    (hHosts : Hosts out id f t)
    (hContext : Disjoint context out.absent)
    (hSupplies : Supplies library False context handed t) :
    Disjoint handed out.absent := by
  refine Set.disjoint_left.mpr (fun name hName hAbsent => ?_)
  refine Set.disjoint_left.mp hContext
    (hSupplies.mem_context hName (fun hVisible => ?_)) hAbsent
  refine hHosts.hidden t (mem_subtrees_self t) ?_ name hVisible
    hAbsent
  rcases t with ⟨i, k, p, ps, cs⟩
  by_cases hId : i = id
  · exact .inl hId
  · exact .inr (mem_around_node.mpr ⟨hId, .inl rfl⟩)

/- A part that reads nothing that gets lost. -/
theorem rescopable_of
    {c : Tree}
    (hHosts : Hosts out id f c)
    (hUnread : ∀ name ∈ c.references,
      name ∉ out.lost \ out.absent) :
    c.Rescopable (out.lost \ out.absent) where
  shaped := hHosts.shaped
  lacks := hHosts.lacks
  unread := hUnread

/- A part off the spine does not read what gets lost. -/
theorem rescopable
    {input c : Tree}
    {rest : List Tree}
    (hHosts :
      Hosts out id f (.node i k p ps (input :: rest)))
    (hId : i ≠ id)
    (hJoin : k ≠ .join)
    (hChild : c ∈ rest) :
    c.Rescopable (out.lost \ out.absent) :=
  (hHosts.child hId
    (List.mem_cons_of_mem _ hChild)).rescopable_of
      (fun name hName => hHosts.unread name
        (offSpine_of_rest hId hJoin hChild hName))

/- The checked variable of a stage does not get lost. -/
theorem check
    {name : String}
    (hHosts : Hosts out id f (.node i k p ps cs))
    (hId : i ≠ id)
    (hCheck : ps.var? Properties.check = some name) :
    name ∉ out.lost \ out.absent :=
  hHosts.unread name (offSpine_of_check hId hCheck)

end Hosts

/- A child at a place of the replaced tree. -/
theorem getElem?_mapAt
    {index : Nat}
    {t : Tree}
    (hChild : cs[index]? = some t) :
    (cs.map (mapAt id f))[index]? = some (t.mapAt id f) := by
  rw [List.getElem?_map, hChild]
  rfl

theorem disjoint_diff_right :
    Disjoint (names \ lost) lost :=
  Set.disjoint_sdiff_left

theorem disjoint_diff_absent
    (hNames : Disjoint names out.absent) :
    Disjoint (names \ lost) out.absent :=
  hNames.mono_left Set.sdiff_subset

/- What is not absent and read is not lost. -/
theorem mem_diff_of_read
    {name : String}
    (hNames : Disjoint names out.absent)
    (hName : name ∈ names)
    (hUnread : name ∉ out.lost \ out.absent) :
    name ∈ names \ out.lost :=
  ⟨hName, fun hLost => hUnread
    ⟨hLost, Set.disjoint_left.mp hNames hName⟩⟩

/- A part that reads nothing lost but what is absent. -/
theorem ReadsFrom.remaining
    {t : Tree}
    (hReads : ReadsFrom library False names t)
    (hTree : t.Rescopable (out.lost \ out.absent))
    (hNames : Disjoint names out.absent) :
    ReadsFrom library False (names \ out.lost) t :=
  (hReads.without hTree).wider
    ⟨hTree.shaped, hTree.lacks, fun _ _ h => h⟩
    (fun _ hName => mem_diff_of_read hNames hName.1 hName.2)

/- The rows that feed a node are those of its first child. -/
theorem Feeds.headRows
    {input input' : Tree}
    {rest rest' : List Tree}
    (hFeeds :
      Feeds library lax lost context handed input input')
    {env env' : Env}
    (hAgree : Env.AgreeOn context env' env) :
    Meets lax (List.Forall₂ (Env.AgreeOn handed))
      (headRows library (input' :: rest') env')
      (headRows library (input :: rest) env) :=
  hFeeds.same env env' hAgree

end Tree

end Flwor

------------------------------------------------------------
-- Replacements in Expressions
------------------------------------------------------------

namespace Flwor

namespace Tree

variable {library : Library}
variable {lax : Leeway}
variable {out : Exclusions}
variable {id : NodeId}
variable {f : Tree → Tree}
variable {i : NodeId}
variable {k : Kind}
variable {p : Payload}
variable {ps : Properties}
variable {cs : List Tree}
variable {names handed : Set String}

theorem Replaces.serves_all
    (hNames : Disjoint names out.absent)
    (hParts : ∀ c ∈ cs,
      Replaces library lax out c (c.mapAt id f))
    (hReads : ∀ c ∈ cs, ReadsFrom library False names c) :
    (∀ c' ∈ cs.map (mapAt id f),
        ReadsFrom library False names c') ∧
      ∀ env env', Env.AgreeOn names env' env →
        List.Forall₂ (fun c' c =>
          SameValue library lax c' env' c env)
          (cs.map (mapAt id f)) cs := by
  refine ⟨fun c' hC' => ?_, fun env env' hAgree => ?_⟩
  · rcases List.mem_map.mp hC' with ⟨c, hC, rfl⟩
    exact ((hParts c hC).expr names hNames (hReads c hC)).reads
  · rw [List.forall₂_map_left_iff, List.forall₂_same]
    exact fun c hC =>
      ((hParts c hC).expr names hNames (hReads c hC)).same env
        env' hAgree

/- A pipeline whose tail is replaced. -/
theorem serves_pipe
    {j : NodeId}
    {q : Payload}
    {qs : Properties}
    {tail result : Tree}
    {rest more : List Tree}
    (hId : i ≠ id)
    (hNames : Disjoint names out.absent)
    (hHosts : Hosts out id f
      (.node i .pipeExpr p ps
        (.node j .finish q qs (tail :: result :: rest)
          :: more)))
    (hTail : Replaces library lax out tail (tail.mapAt id f))
    (hResult :
      Replaces library lax out result (result.mapAt id f))
    (hSupplies : Supplies library False names handed tail)
    (hReads : ReadsFrom library False handed result) :
    Serves library lax names
      (.node i .pipeExpr p ps
        (.node j .finish q qs (tail :: result :: rest)
          :: more))
      (mapAt id f (.node i .pipeExpr p ps
        (.node j .finish q qs (tail :: result :: rest)
          :: more))) := by
  have hFinish := hHosts.child hId List.mem_cons_self
  have hFinishEq := hFinish.exchanges.mapAt_eq rfl (by simp)
  have hFinishId := hFinish.exchanges.id_ne rfl (by simp)
  have hHanded := (hFinish.child hFinishId
    List.mem_cons_self).disjoint_handed hNames hSupplies
  have hRescopable :
      result.Rescopable (out.lost \ out.absent) :=
    hFinish.rescopable hFinishId (by simp) List.mem_cons_self
  have hFeeds := hTail.stage _ _ hNames disjoint_diff_right
    (hSupplies.fewer Set.sdiff_subset)
  have hServes := hResult.expr _ (disjoint_diff_absent hHanded)
    (hReads.remaining hRescopable hHanded)
  rw [mapAt_of_ne hId, List.map_cons, hFinishEq]
  exact ⟨.pipe hFeeds.supplies hServes.reads,
    fun env env' hAgree =>
      sameValue_pipe (hFeeds.same env env' hAgree)
        (fun row row' hRow => hServes.same row' row hRow)⟩

/- An expression whose parts are replaced. -/
theorem serves_mapAt
    (hId : i ≠ id)
    (hNames : Disjoint names out.absent)
    (hHosts : Hosts out id f (.node i k p ps cs))
    (hParts : ∀ c ∈ cs,
      Replaces library lax out c (c.mapAt id f))
    (hDeep : ∀ c ∈ cs, c.id ≠ id → ∀ d ∈ c.children,
      Replaces library lax out d (d.mapAt id f))
    (hReads : ReadsFrom library False names
      (.node i k p ps cs)) :
    Serves library lax names (.node i k p ps cs)
      (mapAt id f (.node i k p ps cs)) := by
  have hAt {index : Nat} {c : Tree}
      (hChild : cs[index]? = some c) :=
    (hParts c (List.mem_of_getElem? hChild)).expr names hNames
  cases hReads with
  | pipe hTail hResult =>
      have hFinish := hDeep _ List.mem_cons_self
        ((hHosts.child hId List.mem_cons_self).exchanges.id_ne
          rfl (by simp))
      exact serves_pipe hId hNames hHosts
        (hFinish _ List.mem_cons_self)
        (hFinish _
          (List.mem_cons_of_mem _ List.mem_cons_self))
        hTail hResult
  | literal hItem =>
      rw [mapAt_of_ne hId]
      exact ⟨.literal hItem,
        fun _ _ _ => sameValue_literal rfl⟩
  | emptySequence =>
      rw [mapAt_of_ne hId]
      exact ⟨.emptySequence,
        fun _ _ _ => sameValue_emptySequence⟩
  | sequence hReadsAll =>
      rw [mapAt_of_ne hId]
      rcases Replaces.serves_all hNames hParts hReadsAll with
        ⟨hAfter, hSame⟩
      exact ⟨.sequence hAfter, fun env env' hAgree =>
        sameValue_sequence (hSame env env' hAgree)⟩
  | binary hKind hLeft hRight hReadsLeft hReadsRight =>
      rw [mapAt_of_ne hId]
      have hL := hAt hLeft hReadsLeft
      have hR := hAt hRight hReadsRight
      exact ⟨.binary hKind (getElem?_mapAt hLeft)
          (getElem?_mapAt hRight) hL.reads hR.reads,
        fun env env' hAgree => sameValue_binary hKind
          (getElem?_mapAt hLeft) hLeft
          (getElem?_mapAt hRight) hRight
          (hL.same env env' hAgree)
          (hR.same env env' hAgree)⟩
  | cond hCondition hYes hNo hReadsCondition hReadsYes
      hReadsNo =>
      rw [mapAt_of_ne hId]
      have hC := hAt hCondition hReadsCondition
      have hY := hAt hYes hReadsYes
      have hN := hAt hNo hReadsNo
      exact ⟨.cond (getElem?_mapAt hCondition)
          (getElem?_mapAt hYes) (getElem?_mapAt hNo)
          hC.reads hY.reads hN.reads,
        fun env env' hAgree => sameValue_cond
          (getElem?_mapAt hCondition) hCondition
          (getElem?_mapAt hYes) hYes (getElem?_mapAt hNo)
          hNo (hC.same env env' hAgree)
          (hY.same env env' hAgree)
          (hN.same env env' hAgree)⟩
  | call hName hFunction hReadsAll =>
      rw [mapAt_of_ne hId]
      rcases Replaces.serves_all hNames hParts hReadsAll with
        ⟨hAfter, hSame⟩
      exact ⟨.call hName (by rwa [List.length_map]) hAfter,
        fun env env' hAgree =>
          sameValue_call (hSame env env' hAgree)⟩
  | variableRef hName hMem =>
      rw [mapAt_of_ne hId]
      refine ⟨.variableRef hName hMem,
        fun env env' hAgree => ?_⟩
      refine sameValue_variableRef (fun name hVar => ?_)
      rw [hName] at hVar
      cases hVar
      exact hAgree _ hMem

end Tree

end Flwor

------------------------------------------------------------
-- Replacements in Stages
------------------------------------------------------------

namespace Flwor

namespace Tree

variable {library : Library}
variable {lax : Leeway}
variable {out : Exclusions}
variable {id : NodeId}
variable {f : Tree → Tree}
variable {i : NodeId}
variable {p : Payload}
variable {ps : Properties}
variable {cs rest : List Tree}
variable {context handed read : Set String}
variable {input : Tree}

/- What is handed on and not bound comes from what is left. -/
theorem mem_diff_of_handed
    {bound : List String}
    (hDisjoint : Disjoint handed out.lost)
    (hHanded : ∀ name ∈ handed, name ∉ bound → name ∈ read)
    {name : String}
    (hName : name ∈ handed)
    (hNew : name ∉ bound) :
    name ∈ read \ out.lost :=
  ⟨hHanded name hName hNew,
    Set.disjoint_left.mp hDisjoint hName⟩

/- The last child of a stage is none that feeds it. -/
theorem Shaped.mem_of_getLast?
    {k : Kind}
    {source : Tree}
    (hShaped : (Tree.node i k p ps (input :: rest)).Shaped)
    (hKind : k.hasInput)
    (hSource : (input :: rest).getLast? = some source) :
    source ∈ rest := by
  rcases hShaped.input hKind with
    ⟨_, first, more, hChildren, _⟩
  cases hChildren
  rw [List.getLast?_cons_cons] at hSource
  exact List.mem_of_getLast? hSource

/- A stage that adds bindings to what is visible before it. -/
theorem visible_mapAt
    {k : Kind}
    (hKind : k.hasInput)
    (hGroup : k ≠ .groupBy)
    (hHosts : Hosts out id f (.node i k p ps (input :: rest)))
    {handed' : Set String}
    (hFeeds : Feeds library lax out.lost context handed' input
      (input.mapAt id f))
    {name : String}
    (hName : name ∉ out.lost) :
    name ∈ visible (.node i k p ps
        ((input :: rest).map (mapAt id f))) ↔
      name ∈ visible (.node i k p ps (input :: rest)) := by
  have hAfter : visible (.node i k p ps
        ((input :: rest).map (mapAt id f))) =
      (input.mapAt id f).visible
        ++ bound (.node i k p ps
          ((input :: rest).map (mapAt id f))) :=
    visible_input hKind hGroup
  rw [hAfter, visible_input hKind hGroup,
    bound_mapAt hHosts.shaped
      (fun c hC => hHosts.exchanges.child hC),
    List.mem_append, List.mem_append]
  exact or_congr_left (hFeeds.visible name hName)

theorem feeds_forBind
    {source : Tree}
    {var : String}
    (hId : i ≠ id)
    (hHosts :
      Hosts out id f (.node i .forBind p ps (input :: rest)))
    (hParts : ∀ c ∈ input :: rest,
      Replaces library lax out c (c.mapAt id f))
    (hContext : Disjoint context out.absent)
    (hDisjoint : Disjoint handed out.lost)
    (hInput : Supplies library False context read input)
    (hSource : (input :: rest).getLast? = some source)
    (hReads : ReadsFrom library False read source)
    (hCheck : ∀ name,
      ps.var? Properties.check = some name → name ∈ read)
    (hVar : binding?
      (.node i .forBind p ps (input :: rest)) = some var)
    (hHanded : ∀ name ∈ handed,
      name ∉ bound (.node i .forBind p ps (input :: rest)) →
        name ∈ read) :
    Feeds library lax out.lost context handed
      (.node i .forBind p ps (input :: rest))
      (mapAt id f (.node i .forBind p ps (input :: rest)))
        := by
  have hExchanges (c : Tree) (hC : c ∈ input :: rest) :=
    hHosts.exchanges.child (c := c) hC
  have hBinding := binding?_mapAt hHosts.shaped hExchanges
  have hPosition :
      position? (.node i .forBind p ps
          ((input :: rest).map (mapAt id f))) =
        position? (.node i .forBind p ps (input :: rest)) :=
    position?_mapAt hExchanges
  have hRead := (hHosts.child hId
    List.mem_cons_self).disjoint_handed hContext hInput
  have hFeeds := (hParts input List.mem_cons_self).stage _ _
    hContext disjoint_diff_right
    (hInput.fewer Set.sdiff_subset)
  have hServes := (hParts source
    (List.mem_of_getLast? hSource)).expr _
      (disjoint_diff_absent hRead)
      (hReads.remaining (hHosts.rescopable hId (by simp)
        (hHosts.shaped.mem_of_getLast? rfl hSource)) hRead)
  have hLast : ((input :: rest).map (mapAt id f)).getLast? =
      some (source.mapAt id f) := by
    rw [List.getLast?_map, hSource]
    rfl
  have hChecked (name : String)
      (hName : ps.var? Properties.check = some name) :
      name ∈ read \ out.lost :=
    mem_diff_of_read hRead (hCheck name hName)
      (hHosts.check hId hName)
  rw [← bound_mapAt hHosts.shaped hExchanges] at hHanded
  rw [mapAt_of_ne hId]
  refine ⟨?_, fun name hName =>
      visible_mapAt rfl (by simp) hHosts hFeeds hName,
    fun env env' hAgree => ?_⟩
  · exact .forBind hFeeds.supplies hLast hServes.reads
      hChecked (hBinding.trans hVar)
      (fun name => mem_diff_of_handed hDisjoint hHanded)
  · refine sameRows_forBind (hFeeds.headRows hAgree)
      hBinding.symm hPosition.symm
      (fun _ _ => disabled?_eq hChecked) ?_
      (fun _ _ => agreeOn_kept (fun name =>
        mem_diff_of_handed hDisjoint hHanded))
    intro row row' hRow
    rw [lastValue_eq, lastValue_eq, hLast, hSource]
    exact hServes.same row' row hRow

theorem feeds_letBind
    {value : Tree}
    {var : String}
    (hId : i ≠ id)
    (hHosts :
      Hosts out id f (.node i .letBind p ps (input :: rest)))
    (hParts : ∀ c ∈ input :: rest,
      Replaces library lax out c (c.mapAt id f))
    (hContext : Disjoint context out.absent)
    (hDisjoint : Disjoint handed out.lost)
    (hInput : Supplies library False context read input)
    (hVar : binding?
      (.node i .letBind p ps (input :: rest)) = some var)
    (hLive : Compile.isLive ps var)
    (hValue : (input :: rest)[2]? = some value)
    (hReads : ReadsFrom library False read value)
    (hCheck : ∀ name,
      ps.var? Properties.check = some name → name ∈ read)
    (hHanded : ∀ name ∈ handed,
      name ≠ var → name ∈ read) :
    Feeds library lax out.lost context handed
      (.node i .letBind p ps (input :: rest))
      (mapAt id f (.node i .letBind p ps (input :: rest)))
        := by
  have hExchanges (c : Tree) (hC : c ∈ input :: rest) :=
    hHosts.exchanges.child (c := c) hC
  have hBinding := binding?_mapAt hHosts.shaped hExchanges
  have hRead := (hHosts.child hId
    List.mem_cons_self).disjoint_handed hContext hInput
  have hFeeds := (hParts input List.mem_cons_self).stage _ _
    hContext disjoint_diff_right
    (hInput.fewer Set.sdiff_subset)
  have hServes := (hParts value
    (List.mem_of_getElem? hValue)).expr _
      (disjoint_diff_absent hRead)
      (hReads.remaining (hHosts.rescopable hId (by simp)
        (List.mem_of_getElem? (i := 1) hValue)) hRead)
  have hChecked (name : String)
      (hName : ps.var? Properties.check = some name) :
      name ∈ read \ out.lost :=
    mem_diff_of_read hRead (hCheck name hName)
      (hHosts.check hId hName)
  have hHanded' (name : String) (hName : name ∈ handed)
      (hNew : name ≠ var) : name ∈ read \ out.lost :=
    ⟨hHanded name hName hNew,
      Set.disjoint_left.mp hDisjoint hName⟩
  rw [mapAt_of_ne hId]
  refine ⟨?_, fun name hName =>
      visible_mapAt rfl (by simp) hHosts hFeeds hName,
    fun env env' hAgree => ?_⟩
  · exact .letBind hFeeds.supplies (hBinding.trans hVar) hLive
      (getElem?_mapAt hValue) hServes.reads hChecked hHanded'
  · refine sameRows_letBind (hFeeds.headRows hAgree)
      hBinding.symm (fun _ _ => disabled?_eq hChecked) ?_
      (fun _ _ => agreeOn_kept ?_)
    · exact fun row row' hRow => sameValue_at 2
        (getElem?_mapAt hValue) hValue
        (hServes.same row' row hRow)
    · intro name hName hNew
      refine hHanded' name hName (fun hEq => hNew ?_)
      rw [bound_mapAt hHosts.shaped hExchanges]
      simp [bound, kind, hVar, hEq]

theorem feeds_selection
    {predicate : Tree}
    (hId : i ≠ id)
    (hHosts : Hosts out id f
      (.node i .selection p ps (input :: rest)))
    (hParts : ∀ c ∈ input :: rest,
      Replaces library lax out c (c.mapAt id f))
    (hContext : Disjoint context out.absent)
    (hDisjoint : Disjoint handed out.lost)
    (hInput : Supplies library False context read input)
    (hPredicate : (input :: rest)[1]? = some predicate)
    (hReads : ReadsFrom library False read predicate)
    (hHanded : handed ⊆ read) :
    Feeds library lax out.lost context handed
      (.node i .selection p ps (input :: rest))
      (mapAt id f (.node i .selection p ps (input :: rest)))
        := by
  have hRead := (hHosts.child hId
    List.mem_cons_self).disjoint_handed hContext hInput
  have hFeeds := (hParts input List.mem_cons_self).stage _ _
    hContext disjoint_diff_right
    (hInput.fewer Set.sdiff_subset)
  have hServes := (hParts predicate
    (List.mem_of_getElem? hPredicate)).expr _
      (disjoint_diff_absent hRead)
      (hReads.remaining (hHosts.rescopable hId (by simp)
        (List.mem_of_getElem? (i := 0) hPredicate)) hRead)
  have hHanded' : handed ⊆ read \ out.lost :=
    Set.subset_sdiff.mpr ⟨hHanded, hDisjoint⟩
  rw [mapAt_of_ne hId]
  refine ⟨?_, fun name hName =>
      visible_mapAt rfl (by simp) hHosts hFeeds hName,
    fun env env' hAgree => ?_⟩
  · exact .selection hFeeds.supplies
      (getElem?_mapAt hPredicate) hServes.reads hHanded'
  · exact sameRows_selection (hFeeds.headRows hAgree)
      (fun row row' hRow => sameValue_at 1
        (getElem?_mapAt hPredicate) hPredicate
        (hServes.same row' row hRow))
      (fun _ _ hRow => hRow.mono hHanded')

theorem feeds_count
    {var : String}
    (hId : i ≠ id)
    (hHosts :
      Hosts out id f (.node i .count p ps (input :: rest)))
    (hParts : ∀ c ∈ input :: rest,
      Replaces library lax out c (c.mapAt id f))
    (hContext : Disjoint context out.absent)
    (hDisjoint : Disjoint handed out.lost)
    (hInput : Supplies library False context read input)
    (hVar : binding?
      (.node i .count p ps (input :: rest)) = some var)
    (hHanded : ∀ name ∈ handed,
      name ≠ var → name ∈ read) :
    Feeds library lax out.lost context handed
      (.node i .count p ps (input :: rest))
      (mapAt id f (.node i .count p ps (input :: rest)))
        := by
  have hExchanges (c : Tree) (hC : c ∈ input :: rest) :=
    hHosts.exchanges.child (c := c) hC
  have hBinding := binding?_mapAt hHosts.shaped hExchanges
  have hRead := (hHosts.child hId
    List.mem_cons_self).disjoint_handed hContext hInput
  have hFeeds := (hParts input List.mem_cons_self).stage _ _
    hContext disjoint_diff_right
    (hInput.fewer Set.sdiff_subset)
  have hHanded' (name : String) (hName : name ∈ handed)
      (hNew : name ≠ var) : name ∈ read \ out.lost :=
    ⟨hHanded name hName hNew,
      Set.disjoint_left.mp hDisjoint hName⟩
  rw [mapAt_of_ne hId]
  refine ⟨?_, fun name hName =>
      visible_mapAt rfl (by simp) hHosts hFeeds hName,
    fun env env' hAgree => ?_⟩
  · exact .count hFeeds.supplies (hBinding.trans hVar)
      hHanded'
  · refine sameRows_count (hFeeds.headRows hAgree)
      hBinding.symm (fun _ _ => agreeOn_kept ?_)
    intro name hName hNew
    refine hHanded' name hName (fun hEq => hNew ?_)
    rw [bound_mapAt hHosts.shaped hExchanges]
    simp [bound, kind, hVar, hEq]

end Tree

end Flwor

------------------------------------------------------------
-- Sorting, Grouping and Joining
------------------------------------------------------------

namespace Flwor

namespace Tree

variable {library : Library}
variable {lax : Leeway}
variable {out : Exclusions}
variable {id : NodeId}
variable {f : Tree → Tree}
variable {i : NodeId}
variable {p : Payload}
variable {ps : Properties}
variable {specs : List Tree}
variable {context handed read : Set String}
variable {input : Tree}

theorem feeds_orderBy
    (hId : i ≠ id)
    (hHosts : Hosts out id f
      (.node i .orderBy p ps (input :: specs)))
    (hParts : ∀ c ∈ input :: specs,
      Replaces library lax out c (c.mapAt id f))
    (hDeep : ∀ spec ∈ specs, spec.id ≠ id →
      ∀ d ∈ spec.children,
        Replaces library lax out d (d.mapAt id f))
    (hContext : Disjoint context out.absent)
    (hDisjoint : Disjoint handed out.lost)
    (hInput : Supplies library False context read input)
    (hOrders : ∀ spec ∈ specs, spec.payload.order?.isSome)
    (hKeys : ∀ spec ∈ specs, ∀ key,
      spec.children[0]? = some key →
        ReadsFrom library False read key)
    (hPresent : ∀ spec ∈ specs, spec.children ≠ [])
    (hHanded : handed ⊆ read) :
    Feeds library lax out.lost context handed
      (.node i .orderBy p ps (input :: specs))
      (mapAt id f (.node i .orderBy p ps (input :: specs)))
        := by
  have hRead := (hHosts.child hId
    List.mem_cons_self).disjoint_handed hContext hInput
  have hFeeds := (hParts input List.mem_cons_self).stage _ _
    hContext disjoint_diff_right
    (hInput.fewer Set.sdiff_subset)
  have hHanded' : handed ⊆ read \ out.lost :=
    Set.subset_sdiff.mpr ⟨hHanded, hDisjoint⟩
  have hInputHosts := hHosts.child hId List.mem_cons_self
  -- The specs stay as they are, but for their keys.
  have hSpecEq (spec : Tree) (hSpec : spec ∈ specs) :
      spec.id ≠ id ∧
        spec.mapAt id f = .node spec.id spec.kind
          spec.payload spec.properties
            (spec.children.map (mapAt id f)) := by
    have hKind := hHosts.shaped.orderSpec hSpec
    have hExchanges := hHosts.exchanges.child (c := spec)
      (List.mem_cons_of_mem _ hSpec)
    have hStage : spec.kind.isStage = false := by
      rw [hKind]
      rfl
    exact ⟨hExchanges.id_ne hStage (by simp [hKind]),
      hExchanges.mapAt_eq hStage (by simp [hKind])⟩
  have hKey (spec : Tree) (hSpec : spec ∈ specs) (key : Tree)
      (hHere : spec.children[0]? = some key) :
      Serves library lax (read \ out.lost) key
        (key.mapAt id f) := by
    have hMem := List.mem_of_getElem? hHere
    exact (hDeep spec hSpec (hSpecEq spec hSpec).1 key
      hMem).expr _ (disjoint_diff_absent hRead)
      ((hKeys spec hSpec key hHere).remaining
        ((hHosts.rescopable hId (by simp) hSpec).child hMem)
        hRead)
  rw [mapAt_of_ne hId]
  refine ⟨.orderBy hFeeds.supplies
      (hInputHosts.lacksAfter.keeps _ _) ?_ ?_ ?_ hHanded',
    fun name hName =>
      visible_mapAt rfl (by simp) hHosts hFeeds hName,
    fun env env' hAgree => ?_⟩
  · intro spec' hSpec'
    rcases List.mem_map.mp hSpec' with ⟨spec, hSpec, rfl⟩
    rw [(hSpecEq spec hSpec).2]
    exact hOrders spec hSpec
  · intro spec' hSpec' key' hHere
    rcases List.mem_map.mp hSpec' with ⟨spec, hSpec, rfl⟩
    rw [(hSpecEq spec hSpec).2, children_node, List.getElem?_map,
      Option.map_eq_some_iff] at hHere
    rcases hHere with ⟨key, hHere, rfl⟩
    exact (hKey spec hSpec key hHere).reads
  · intro spec' hSpec'
    rcases List.mem_map.mp hSpec' with ⟨spec, hSpec, rfl⟩
    rw [(hSpecEq spec hSpec).2, children_node]
    simpa using hPresent spec hSpec
  · refine sameRows_orderBy (hFeeds.same env env' hAgree) ?_
      ?_ (fun _ _ hRow => hRow.mono hHanded')
    · have hMap (ts : List Tree) :
          ts.mapM (fun spec => spec.payload.order?) =
            (ts.map (fun spec => spec.payload.order?)).mapM
              (fun order => order) := by
        rw [List.mapM_map]
        rfl
      rw [hMap, hMap, List.map_map]
      apply congrArg (List.mapM (fun order => order))
      refine List.map_congr_left (fun spec hSpec => ?_)
      rw [Function.comp, (hSpecEq spec hSpec).2]
      rfl
    · intro row row' hRow
      refine meets_sortValues ?_
      rw [List.forall₂_map_left_iff, List.forall₂_same]
      intro spec hSpec
      refine meets_sortValue ?_
      rw [(hSpecEq spec hSpec).2, children_node,
        List.getElem?_map]
      cases hHere : spec.children[0]? with
      | none => exact .failure
      | some key =>
          exact (hKey spec hSpec key hHere).same row' row hRow

theorem feeds_groupBy
    (hId : i ≠ id)
    (hHosts : Hosts out id f
      (.node i .groupBy p ps (input :: specs)))
    (hParts : ∀ c ∈ input :: specs,
      Replaces library lax out c (c.mapAt id f))
    (hContext : Disjoint context out.absent)
    (hInput : Supplies library False context read input)
    (hKeys : ∀ name ∈ groupKeys
      (.node i .groupBy p ps (input :: specs)), name ∈ read)
    (hSources : ∀ aggregate ∈ groupAggregates
      (.node i .groupBy p ps (input :: specs)),
        aggregate.2 ∈ read)
    (hHanded : ∀ name ∈ handed,
      name ∉ bound (.node i .groupBy p ps (input :: specs)) →
        name ∈ context) :
    Feeds library lax out.lost context handed
      (.node i .groupBy p ps (input :: specs))
      (mapAt id f (.node i .groupBy p ps (input :: specs)))
        := by
  have hExchanges (c : Tree) (hC : c ∈ input :: specs) :=
    hHosts.exchanges.child (c := c) hC
  have hKeysEq := groupKeys_mapAt hHosts.shaped hExchanges
  have hAggregatesEq :=
    groupAggregates_mapAt hHosts.shaped hExchanges
  have hBound := bound_mapAt hHosts.shaped hExchanges
  have hRead := (hHosts.child hId
    List.mem_cons_self).disjoint_handed hContext hInput
  have hFeeds := (hParts input List.mem_cons_self).stage _ _
    hContext disjoint_diff_right
    (hInput.fewer Set.sdiff_subset)
  have hKept {name : String} {spec : Tree}
      (hSpec : spec ∈ specs) (hName : name ∈ spec.references) :
      name ∉ out.lost \ out.absent :=
    hHosts.unread name
      (offSpine_of_rest hId (by simp) hSpec hName)
  have hKeys' (name : String) (hName : name ∈ groupKeys
      (.node i .groupBy p ps (input :: specs))) :
      name ∈ read \ out.lost := by
    rcases exists_spec_of_groupKey hHosts.shaped hName with
      ⟨spec, hSpec, hReads⟩
    exact mem_diff_of_read hRead (hKeys name hName)
      (hKept hSpec hReads)
  have hSources' (aggregate : String × String)
      (hMem : aggregate ∈ groupAggregates
        (.node i .groupBy p ps (input :: specs))) :
      aggregate.2 ∈ read \ out.lost := by
    rcases exists_spec_of_aggregate hHosts.shaped hMem with
      ⟨spec, hSpec, hReads⟩
    exact mem_diff_of_read hRead (hSources aggregate hMem)
      (hKept hSpec hReads)
  rw [mapAt_of_ne hId]
  rw [← hBound] at hHanded
  rw [← hKeysEq] at hKeys'
  rw [← hAggregatesEq] at hSources'
  refine ⟨.groupBy hFeeds.supplies hKeys' hSources' hHanded,
    fun name _ => ?_, fun env env' hAgree => ?_⟩
  · rw [visible_groupBy, visible_groupBy, hBound]
  · exact sameRows_groupBy (hFeeds.headRows hAgree)
      hKeysEq.symm hAggregatesEq.symm
      (fun _ _ hRow name hName =>
        hRow name (hKeys' name hName))
      (fun _ _ hRow aggregate hMem =>
        hRow _ (hSources' aggregate hMem))
      (agreeOn_kept hHanded hAgree)

/- The keys of a join stand between its inputs. -/
theorem Shaped.joinKeys
    {left right : Tree}
    {j : NodeId}
    {k : Kind}
    {q : Payload}
    {qs : Properties}
    {keys : List Tree}
    (hShaped : (Tree.node i .join p ps
      [left, .node j k q qs keys, right]).Shaped) :
    k = .joinExpr := by
  rcases hShaped.join with
    ⟨_, _, _, _, _, _, _, hChildren, _⟩
  cases hChildren
  rfl

theorem feeds_join
    {left right leftKey rightKey : Tree}
    {j : NodeId}
    {k : Kind}
    {q : Payload}
    {qs : Properties}
    {keys : List Tree}
    {readLeft readRight : Set String}
    (hId : i ≠ id)
    (hHosts : Hosts out id f (.node i .join p ps
      [left, .node j k q qs keys, right]))
    (hParts : ∀ c ∈ [left, .node j k q qs keys, right],
      Replaces library lax out c (c.mapAt id f))
    (hDeep : ∀ c ∈ keys,
      Replaces library lax out c (c.mapAt id f))
    (hContext : Disjoint context out.absent)
    (hDisjoint : Disjoint handed out.lost)
    (hLeft : Supplies library False context readLeft left)
    (hRight : Supplies library False context readRight right)
    (hComparison : q.comparison?.isSome)
    (hLeftKey : keys[0]? = some leftKey)
    (hRightKey : keys[1]? = some rightKey)
    (hReadsLeft : ReadsFrom library False readLeft leftKey)
    (hReadsRight :
      ReadsFrom library False readRight rightKey)
    (hHandedLeft : ∀ name ∈ handed,
      name ∉ right.visible → name ∈ readLeft)
    (hHandedRight : ∀ name ∈ handed,
      name ∈ right.visible → name ∈ readRight) :
    Feeds library lax out.lost context handed
      (.node i .join p ps
        [left, .node j k q qs keys, right])
      (mapAt id f (.node i .join p ps
        [left, .node j k q qs keys, right])) := by
  have hDisjointLeft := (hHosts.child hId
    List.mem_cons_self).disjoint_handed hContext hLeft
  have hDisjointRight := (hHosts.child (c := right) hId
    (by simp)).disjoint_handed hContext hRight
  have hFeedsLeft := (hParts left (by simp)).stage _ _ hContext
    disjoint_diff_right (hLeft.fewer Set.sdiff_subset)
  have hFeedsRight := (hParts right (by simp)).stage _ _
    hContext disjoint_diff_right
    (hRight.fewer Set.sdiff_subset)
  have hKeysHosts := hHosts.child hId
    (List.mem_cons_of_mem _ List.mem_cons_self)
  have hKind := hHosts.shaped.joinKeys
  subst hKind
  have hKeysEq := hKeysHosts.exchanges.mapAt_eq rfl (by simp)
  have hKeyTree : (Tree.node j .joinExpr q qs
      keys).Rescopable (out.lost \ out.absent) :=
    hKeysHosts.rescopable_of (fun name hName =>
      hHosts.unread name (offSpine_of_keys hId hName))
  have hServesLeft := (hDeep leftKey
    (List.mem_of_getElem? hLeftKey)).expr _
      (disjoint_diff_absent hDisjointLeft)
      (hReadsLeft.remaining (hKeyTree.childAt hLeftKey)
        hDisjointLeft)
  have hServesRight := (hDeep rightKey
    (List.mem_of_getElem? hRightKey)).expr _
      (disjoint_diff_absent hDisjointRight)
      (hReadsRight.remaining (hKeyTree.childAt hRightKey)
        hDisjointRight)
  have hKept {name : String} (hName : name ∈ handed) :
      name ∉ out.lost :=
    Set.disjoint_left.mp hDisjoint hName
  have hSide {name : String} (hName : name ∈ handed) :
      name ∈ (right.mapAt id f).visible ↔
        name ∈ right.visible :=
    hFeedsRight.visible name (hKept hName)
  have hHandedLeft' (name : String) (hName : name ∈ handed)
      (hNot : name ∉ (right.mapAt id f).visible) :
      name ∈ readLeft \ out.lost := by
    rw [hSide hName] at hNot
    exact ⟨hHandedLeft name hName hNot, hKept hName⟩
  have hHandedRight' (name : String) (hName : name ∈ handed)
      (hMem : name ∈ (right.mapAt id f).visible) :
      name ∈ readRight \ out.lost := by
    rw [hSide hName] at hMem
    exact ⟨hHandedRight name hName hMem, hKept hName⟩
  have hLeftAfter :=
    (hHosts.child hId List.mem_cons_self).lacksAfter
  have hRightAfter := (hHosts.child (c := right) hId
    (by simp)).lacksAfter
  rw [mapAt_of_ne hId]
  simp only [List.map_cons, List.map_nil, hKeysEq]
  refine ⟨.join hFeedsLeft.supplies hFeedsRight.supplies
      (hLeftAfter.keeps _ _) (hRightAfter.keeps _ _)
      hComparison (getElem?_mapAt hLeftKey)
      (getElem?_mapAt hRightKey) hServesLeft.reads
      hServesRight.reads hHandedLeft' hHandedRight',
    fun name hName => ?_, fun env env' hAgree => ?_⟩
  · rw [visible_join, visible_join, List.mem_append,
      List.mem_append]
    exact or_congr (hFeedsLeft.visible name hName)
      (hFeedsRight.visible name hName)
  · refine sameRows_join (hFeedsLeft.same env env' hAgree)
      (hFeedsRight.same env env' hAgree) rfl rfl rfl ?_ ?_ ?_
      ?_
    · exact fun row row' hRow => sameValue_at 0
        (getElem?_mapAt hLeftKey) hLeftKey
        (hServesLeft.same row' row hRow)
    · exact fun row row' hRow => sameValue_at 1
        (getElem?_mapAt hRightKey) hRightKey
        (hServesRight.same row' row hRow)
    · intro row row' other other' hRow hOther
      exact .under (fun name hName => hSide hName)
        (fun name hName hMem =>
          hOther name (hHandedRight' name hName hMem))
        (fun name hName hNot =>
          hRow name (hHandedLeft' name hName hNot))
    · intro row row' hRow _
      exact .padded (fun name hName => hSide hName)
        (fun name hName hNot =>
          hRow name (hHandedLeft' name hName hNot))

/- A stage whose parts are replaced. -/
theorem feeds_mapAt
    {k : Kind}
    {cs : List Tree}
    (hId : i ≠ id)
    (hHosts : Hosts out id f (.node i k p ps cs))
    (hParts : ∀ c ∈ cs,
      Replaces library lax out c (c.mapAt id f))
    (hDeep : ∀ c ∈ cs, c.id ≠ id → ∀ d ∈ c.children,
      Replaces library lax out d (d.mapAt id f))
    (hContext : Disjoint context out.absent)
    (hDisjoint : Disjoint handed out.lost)
    (hSupplies : Supplies library False context handed
      (.node i k p ps cs)) :
    Feeds library lax out.lost context handed (.node i k p ps cs)
      (mapAt id f (.node i k p ps cs)) := by
  cases hSupplies with
  | start hHanded =>
      rw [mapAt_of_ne hId]
      refine ⟨.start hHanded, fun name _ => ?_,
        fun env env' hAgree =>
          sameRows_start (hAgree.mono hHanded)⟩
      simp [visible]
  | forBind hInput hSource hReads hCheck hVar hHanded =>
      exact feeds_forBind hId hHosts hParts hContext hDisjoint
        hInput hSource hReads hCheck hVar hHanded
  | letBind hInput hVar hLive hValue hReads hCheck hHanded =>
      exact feeds_letBind hId hHosts hParts hContext hDisjoint
        hInput hVar hLive hValue hReads hCheck hHanded
  | deadLet _ _ _ hLenient _ _ => exact hLenient.elim
  | selection hInput hPredicate hReads hHanded =>
      exact feeds_selection hId hHosts hParts hContext
        hDisjoint hInput hPredicate hReads hHanded
  | orderBy hInput _ hOrders hKeys hPresent hHanded =>
      exact feeds_orderBy hId hHosts hParts
        (fun spec hSpec => hDeep spec
          (List.mem_cons_of_mem _ hSpec))
        hContext hDisjoint hInput hOrders hKeys hPresent
        hHanded
  | groupBy hInput hKeys hSources hHanded =>
      exact feeds_groupBy hId hHosts hParts hContext hInput
        hKeys hSources hHanded
  | count hInput hVar hHanded =>
      exact feeds_count hId hHosts hParts hContext hDisjoint
        hInput hVar hHanded
  | join hLeft hRight _ _ hComparison hLeftKey hRightKey
      hReadsLeft hReadsRight hHandedLeft hHandedRight =>
      refine feeds_join hId hHosts hParts (hDeep _
        (List.mem_cons_of_mem _ List.mem_cons_self) ?_)
        hContext hDisjoint hLeft hRight hComparison hLeftKey
        hRightKey hReadsLeft hReadsRight hHandedLeft
        hHandedRight
      have hKind := hHosts.shaped.joinKeys
      exact (hHosts.exchanges.child (List.mem_cons_of_mem _
        List.mem_cons_self)).id_ne (by rw [hKind]; rfl)
          (by simp [hKind])

end Tree

end Flwor

------------------------------------------------------------
-- Replacements in Trees
------------------------------------------------------------

namespace Flwor

namespace Tree

variable {library : Library}
variable {lax : Leeway}
variable {out : Exclusions}
variable {id : NodeId}
variable {f : Tree → Tree}

/-
  A replaced subtree makes the whole tree replaceable.  The
  induction goes two levels at a time: pipelines and joins
  look at the children of their children.
-/
theorem replaces_mapAt
    {t : Tree}
    (hHosts : Hosts out id f t)
    (hTarget : ∀ s ∈ t.subtrees, s.id = id →
      Replaces library lax out s (f s)) :
    Replaces library lax out t (t.mapAt id f) := by
  suffices hBoth :
      Replaces library lax out t (t.mapAt id f) ∧
      (t.id ≠ id → ∀ c ∈ t.children,
        Replaces library lax out c (c.mapAt id f)) from hBoth.1
  induction t using Tree.induction with
  | node i k p ps cs ih =>
      by_cases hId : i = id
      · subst hId
        rw [mapAt_self]
        exact ⟨hTarget _ (mem_subtrees_self _) rfl,
          fun hNe => (hNe rfl).elim⟩
      · have hChild (c : Tree) (hC : c ∈ cs) :=
          ih c hC (hHosts.child hId hC) (fun s hS =>
            hTarget s (mem_subtrees_of_child hC hS))
        have hParts (c : Tree) (hC : c ∈ cs) :=
          (hChild c hC).1
        have hDeep (c : Tree) (hC : c ∈ cs) :=
          (hChild c hC).2
        exact ⟨⟨fun names hNames => serves_mapAt hId hNames
              hHosts hParts hDeep,
            fun context handed => feeds_mapAt hId hHosts
              hParts hDeep⟩,
          fun _ => hParts⟩

end Tree

end Flwor
