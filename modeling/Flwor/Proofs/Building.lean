import Flwor.Clause
import Flwor.Proofs.Arena.Documents

/-
  Clauses that are stacked into a pipeline.

  The first clause that lacks something decides about the
  error, whatever follows it.  Where no clause lacks anything,
  the pipeline passes the check, and its stages, read from
  the start to the end, give the clauses and the result back.

  Arguments of clauses are expressions that pass the check.
  Stages pass it only where rows are read from them.

  Key definitions include:
    * `Document.IsArgument`
    * `Document.FeedsRows`
    * `Document.clauses?`, `Document.pipeline?`
    * `Clause.defect?`

  Key theorems include:
    * `Document.fits_node_iff`
    * `Clause.stack_eq_of_defect`
    * `Clause.builds_stack`
    * `Document.flwor_builds`
-/

------------------------------------------------------------
-- Documents at a Place
------------------------------------------------------------

namespace Flwor

namespace Document

theorem map_document_treeAll
    (first : NodeId)
    (ds : List Document) :
    (treeAll first ds).map Tree.document = ds := by
  induction ds generalizing first with
  | nil => rfl
  | cons d rest ih =>
      rw [treeAll, List.map_cons, document_tree, ih]

theorem length_treeAll
    (first : NodeId)
    (ds : List Document) :
    (treeAll first ds).length = ds.length := by
  have hLength := congrArg List.length
    (map_document_treeAll first ds)
  rwa [List.length_map] at hLength

theorem map_kind_treeAll
    (first : NodeId)
    (ds : List Document) :
    (treeAll first ds).map Tree.kind = ds.map kind := by
  have hKinds := congrArg (List.map kind)
    (map_document_treeAll first ds)
  rw [List.map_map] at hKinds
  rw [← hKinds]
  exact List.map_congr_left
    (fun t _ => (Tree.kind_document t).symm)

/- The check of a document, one node at a time. -/
theorem fits_node_iff
    {site : Option Site}
    {k : Kind}
    {p : Payload}
    {ds : List Document}
    {ps : Properties} :
    (Document.node k p ds ps).Fits site ↔
      (k.Admits p (ds.map kind) ∧
        (k = .finish →
          site.map Site.kind = some .pipeExpr)) ∧
      (∀ s, site = some s → k.isStage → s.readsRows) ∧
      ∀ (j : Nat) (d : Document), ds[j]? = some d →
        d.Fits (some ⟨k, 0, j, ds.length⟩) := by
  have hParts (j : Nat) :
      ds[j]? = ((treeAll 1 ds)[j]?).map Tree.document := by
    rw [← List.getElem?_map, map_document_treeAll]
  rw [Fits, tree, Tree.firstDefect?_eq_none_iff,
    Tree.ownDefect?_eq_none_iff,
    Tree.brokenRule?_eq_none_iff, and_assoc]
  simp only [Tree.kind_node, Tree.children_node,
    map_kind_treeAll, length_treeAll, hParts]
  refine and_congr Iff.rfl (and_congr Iff.rfl ?_)
  constructor
  · intro hAll j d hD
    rcases Option.map_eq_some_iff.mp hD with ⟨t, hT, hSame⟩
    exact (fits_iff hSame rfl).mpr (hAll j t hT)
  · intro hAll j t hT
    refine (fits_iff rfl rfl).mp (hAll j t.document ?_)
    rw [hT]
    rfl

end Document

end Flwor

------------------------------------------------------------
-- Arguments and Stages
------------------------------------------------------------

namespace Flwor

namespace Document

/-
  An expression from which a plan can be made: neither a
  stage nor the end of a pipeline.
-/
structure IsArgument
    (d : Document) : Prop where
  made : ∃ plan, Plan.ofValidDocument d = .ok plan
  notStage : d.kind.isStage = false
  notFinish : d.kind ≠ .finish

/- A document that passes the check at every place. -/
def FitsAnywhere
    (d : Document) : Prop :=
  ∀ site, d.Fits site

/- A stage that passes the check where rows are read. -/
structure FeedsRows
    (d : Document) : Prop where
  isStage : d.kind.isStage
  fits : ∀ s : Site, s.readsRows → d.Fits (some s)

variable {k : Kind}
variable {p : Payload}
variable {ds : List Document}
variable {ps : Properties}

theorem fitsAnywhere_node
    (hAdmits : k.Admits p (ds.map kind))
    (hPlain : k.isPlain)
    (hParts : ∀ d ∈ ds, d.FitsAnywhere) :
    (Document.node k p ds ps).FitsAnywhere := by
  intro site
  rcases (Kind.isPlain_iff k).mp hPlain with
    ⟨hStage, hFinish⟩
  rw [fits_node_iff]
  refine ⟨⟨hAdmits, fun hKind => (hFinish hKind).elim⟩,
    fun s _ hKind => ?_, fun j d hD => ?_⟩
  · rw [hStage] at hKind
    cases hKind
  · exact hParts d (List.mem_of_getElem? hD) _

/- An argument passes at every place if it does by itself. -/
theorem IsArgument.fitsAnywhere
    {d : Document}
    (hArgument : d.IsArgument) :
    d.FitsAnywhere := by
  have hFits := (exists_ofValidDocument_iff d).mp
    hArgument.made
  have hStage := hArgument.notStage
  rcases d with ⟨k, p, ds, ps⟩
  rw [fits_node_iff] at hFits
  rcases hFits with ⟨⟨hAdmits, _⟩, _, hParts⟩
  intro site
  rw [fits_node_iff]
  refine ⟨⟨hAdmits, fun hKind => ?_⟩, fun s _ hKind => ?_,
    hParts⟩
  · exact (hArgument.notFinish hKind).elim
  · rw [kind, hKind] at hStage
    cases hStage

/- A stage with one input, and parts that fit anywhere. -/
theorem feedsRows_stage
    {input : Document}
    {parts : List Document}
    (hAdmits : k.Admits .none
      (input.kind :: parts.map kind))
    (hStage : k.isStage)
    (hInput : input.FeedsRows)
    (hParts : ∀ d ∈ parts, d.FitsAnywhere) :
    (Clause.stage k input parts).FeedsRows := by
  refine ⟨hStage, fun s hReads => ?_⟩
  rw [Clause.stage, branch, fits_node_iff]
  refine ⟨⟨hAdmits, fun hKind => ?_⟩, ?_, ?_⟩
  · exact (Kind.ne_finish_of_isStage hStage hKind).elim
  · rintro _ ⟨⟩ _
    exact hReads
  · intro j d hD
    rcases j with _ | j
    · cases hD
      refine hInput.fits _ ?_
      cases k <;> first | rfl | cases hStage
    · exact hParts d (List.mem_of_getElem? hD) _

theorem feedsRows_start :
    (leaf .start).FeedsRows := by
  refine ⟨rfl, fun s hReads => ?_⟩
  rw [leaf, fits_node_iff]
  refine ⟨⟨rfl, fun hKind => by cases hKind⟩, ?_, ?_⟩
  · rintro _ ⟨⟩ _
    exact hReads
  · intro j d hD
    cases hD

/- A join reads rows from its last child as well. -/
theorem feedsRows_join
    {input keys right : Document}
    (hKeys : keys.kind = .joinExpr)
    (hInput : input.FeedsRows)
    (hFits : keys.FitsAnywhere)
    (hRight : right.FeedsRows) :
    (Document.node .join .none [input, keys, right]
      ps).FeedsRows := by
  refine ⟨rfl, fun s hReads => ?_⟩
  rw [fits_node_iff]
  refine ⟨⟨?_, fun hKind => by cases hKind⟩, ?_, ?_⟩
  · refine ⟨input.kind, right.kind, ?_, hInput.isStage,
      hRight.isStage⟩
    rw [List.map_cons, List.map_cons, List.map_cons, hKeys]
    rfl
  · rintro _ ⟨⟩ _
    exact hReads
  · intro j d hD
    rcases j with _ | _ | _ | j
    · cases hD
      exact hInput.fits _ rfl
    · cases hD
      exact hFits _
    · cases hD
      exact hRight.fits _ rfl
    · cases hD

/- The end of a pipeline, with what it reads and returns. -/
theorem fits_pipeline
    {tail result : Document}
    (hTail : tail.FeedsRows)
    (hResult : result.FitsAnywhere) :
    (branch .pipeExpr
      [branch .finish [tail, result]]).Fits none := by
  rw [branch, fits_node_iff]
  refine ⟨⟨rfl, fun hKind => by cases hKind⟩, ?_, ?_⟩
  · intro s hSite
    cases hSite
  intro j d hD
  rcases j with _ | j
  · cases hD
    rw [branch, fits_node_iff]
    refine ⟨⟨?_, fun _ => rfl⟩, ?_, ?_⟩
    · exact ⟨tail.kind, [result.kind], rfl, hTail.isStage,
        Nat.le_refl 1⟩
    · intro s _ hKind
      cases hKind
    · intro j d hD
      rcases j with _ | _ | j
      · cases hD
        exact hTail.fits _ rfl
      · cases hD
        exact hResult _
      · cases hD
  · cases hD

theorem fitsAnywhere_reference
    (name : String) :
    (reference name).FitsAnywhere :=
  fitsAnywhere_node rfl rfl (List.forall_mem_nil _)

theorem fitsAnywhere_variable
    (name : String) :
    (declaration .variable name).FitsAnywhere :=
  fitsAnywhere_node rfl rfl (List.forall_mem_nil _)

theorem fitsAnywhere_posVariable
    (name : String) :
    (declaration .posVariable name).FitsAnywhere :=
  fitsAnywhere_node rfl rfl (List.forall_mem_nil _)

end Document

end Flwor

------------------------------------------------------------
-- Reading Clauses Back
------------------------------------------------------------

namespace Flwor

namespace Document

/- The sort key that a document is the node of. -/
def orderTerm? : Document → Option OrderTerm
  | .node .orderSpec (.order order) [key] [] =>
      some ⟨key, order⟩
  | _ => none

/- The grouping keys and what is collected beside them. -/
def groupTerms? :
    List Document →
      Option (List String × List CollectTerm)
  | [] => some ([], [])
  | .node .groupSpec .none
      [.node .variableRef (.var key) [] []] [] :: rest => do
      let terms ← groupTerms? rest
      return (key :: terms.1, terms.2)
  | .node .aggregateSpec .none
      [.node .variable (.var target) [] [],
       .node .variableRef (.var source) [] []] [] ::
        rest => do
      let terms ← groupTerms? rest
      return (terms.1, ⟨target, source⟩ :: terms.2)
  | _ => none

/- Whether annotations are those of a left join. -/
def leftJoin?
    (ps : Properties) : Option Bool :=
  [true, false].find? (fun leftJoin =>
    ps = Clause.joinProperties leftJoin)

/-
  The clauses that the stages of a pipeline are the nodes of,
  from the start on.  There are none if any of the stages has
  something that no clause gives it.
-/
def clauses? : Document → Option (List Clause)
  | .node .start .none [] [] => some []
  | .node .forBind .none
      [input, .node .variable (.var name) [] [],
       source] [] => do
      let before ← clauses? input
      return before ++ [.forIn name source]
  | .node .forBind .none
      [input, .node .variable (.var name) [] [],
       .node .posVariable (.var position) [] [],
       source] [] => do
      let before ← clauses? input
      return before ++ [.forAt name position source]
  | .node .letBind .none
      [input, .node .variable (.var name) [] [],
       value] [] => do
      let before ← clauses? input
      return before ++ [.letBe name value]
  | .node .selection .none [input, predicate] [] => do
      let before ← clauses? input
      return before ++ [.whereHolds predicate]
  | .node .orderBy .none (input :: specs) [] => do
      let before ← clauses? input
      let terms ← specs.mapM orderTerm?
      return before ++ [.orderBy terms]
  | .node .groupBy .none (input :: specs) [] => do
      let before ← clauses? input
      let terms ← groupTerms? specs
      return before ++ [.groupBy terms.1 terms.2]
  | .node .count .none
      [input, .node .variable (.var name) [] []] [] => do
      let before ← clauses? input
      return before ++ [.count name]
  | .node .join .none
      [input,
       .node .joinExpr (.cmp comparison)
         [leftKey, rightKey] [],
       tail] ps => do
      let before ← clauses? input
      let right ← clauses? tail
      let leftJoin ← leftJoin? ps
      return before ++
        [.join right comparison leftKey rightKey leftJoin]
  | _ => none

/- The clauses and the result of a whole pipeline. -/
def pipeline? : Document → Option (List Clause × Document)
  | .node .pipeExpr .none
      [.node .finish .none [tail, result] []] [] => do
      let clauses ← clauses? tail
      return (clauses, result)
  | _ => none

theorem mapM_orderTerm?
    (terms : List OrderTerm) :
    (terms.map Clause.orderSpec).mapM orderTerm? =
      some terms := by
  induction terms with
  | nil => rfl
  | cons term rest ih =>
      rw [List.map_cons, List.mapM_cons, ih]
      rfl

theorem groupTerms?_map
    (keys : List String)
    (collected : List CollectTerm) :
    groupTerms? (keys.map Clause.groupSpec ++
      collected.map Clause.aggregateSpec) =
        some (keys, collected) := by
  induction keys with
  | nil =>
      induction collected with
      | nil => rfl
      | cons term rest ih =>
          rw [List.map_nil, List.nil_append] at ih ⊢
          rw [List.map_cons, Clause.aggregateSpec, branch,
            declaration, reference, carrying, carrying,
            groupTerms?, ih]
          rfl
  | cons key rest ih =>
      rw [List.map_cons, List.cons_append, Clause.groupSpec,
        branch, reference, carrying, groupTerms?, ih]
      rfl

theorem leftJoin?_joinProperties
    (leftJoin : Bool) :
    leftJoin? (Clause.joinProperties leftJoin) =
      some leftJoin := by
  cases leftJoin <;> rfl

end Document

end Flwor

------------------------------------------------------------
-- Defects and Arguments of Clauses
------------------------------------------------------------

namespace Flwor

namespace Clause

mutual

/- What a clause lacks, if it lacks something. -/
def defect? : Clause → Option ClauseDefect
  | .forIn name _ =>
      if name = "" then some .forVariable else none
  | .forAt name position _ =>
      if name = "" ∨ position = "" then some .forVariables
      else none
  | .letBe name _ =>
      if name = "" then some .letVariable else none
  | .whereHolds _ => none
  | .orderBy terms =>
      if terms.isEmpty then some .orderKeys else none
  | .groupBy keys _ =>
      if keys.isEmpty then some .groupKeys else none
  | .count name =>
      if name = "" then some .countVariable else none
  | .join right _ _ _ _ => firstDefect? right

/- What the first incomplete clause lacks. -/
def firstDefect? : List Clause → Option ClauseDefect
  | [] => none
  | clause :: rest =>
      match defect? clause with
      | some defect => some defect
      | none => firstDefect? rest

end

mutual

/- The expressions that are passed to a clause. -/
def arguments : Clause → List Document
  | .forIn _ source => [source]
  | .forAt _ _ source => [source]
  | .letBe _ value => [value]
  | .whereHolds predicate => [predicate]
  | .orderBy terms => terms.map OrderTerm.key
  | .groupBy _ _ => []
  | .count _ => []
  | .join right _ leftKey rightKey _ =>
      argumentsAll right ++ [leftKey, rightKey]

/- The expressions that are passed to several clauses. -/
def argumentsAll : List Clause → List Document
  | [] => []
  | clause :: rest => arguments clause ++ argumentsAll rest

end

end Clause

end Flwor

------------------------------------------------------------
-- Stacking Clauses
------------------------------------------------------------

namespace Flwor

namespace Clause

open Document

/-
  A document with clauses stacked on another one: it feeds
  rows if that one does and all arguments fit, and it reads
  as the clauses after those of that one.
-/
structure Stacked
    (input : Document)
    (clauses : List Clause)
    (d : Document) : Prop where
  feedsRows :
    (∀ a ∈ argumentsAll clauses, a.FitsAnywhere) →
      input.FeedsRows → d.FeedsRows
  clauses :
    ∀ before, input.clauses? = some before →
      d.clauses? = some (before ++ clauses)

variable {input middle d : Document}

theorem stacked_nil
    (input : Document) :
    Stacked input [] input := by
  refine ⟨fun _ hInput => hInput, fun before hBefore => ?_⟩
  rw [hBefore, List.append_nil]

theorem Stacked.cons
    {clause : Clause}
    {rest : List Clause}
    (hFirst : Stacked input [clause] middle)
    (hRest : Stacked middle rest d) :
    Stacked input (clause :: rest) d := by
  refine ⟨fun hArguments hInput => ?_,
    fun before hBefore => ?_⟩
  · rw [argumentsAll, List.forall_mem_append] at hArguments
    refine hRest.feedsRows hArguments.2
      (hFirst.feedsRows ?_ hInput)
    rw [argumentsAll, argumentsAll, List.append_nil]
    exact hArguments.1
  · rw [hRest.clauses _ (hFirst.clauses before hBefore),
      List.append_assoc, List.singleton_append]

/- A stage with one input is the node of its clause. -/
theorem stacked_stage
    {k : Kind}
    {parts : List Document}
    {clause : Clause}
    (hAdmits : input.kind.isStage →
      k.Admits .none (input.kind :: parts.map kind))
    (hStage : k.isStage)
    (hParts : (∀ a ∈ clause.arguments, a.FitsAnywhere) →
      ∀ part ∈ parts, part.FitsAnywhere)
    (hReads : (stage k input parts).clauses? =
      input.clauses?.map (fun before => before ++ [clause])) :
    Stacked input [clause] (stage k input parts) := by
  refine ⟨fun hArguments hInput => ?_,
    fun before hBefore => ?_⟩
  · rw [argumentsAll, argumentsAll, List.append_nil]
      at hArguments
    exact feedsRows_stage (hAdmits hInput.isStage) hStage
      hInput (hParts hArguments)
  · rw [hReads, hBefore]
    rfl

/- The parts of an order by clause and its arguments. -/
theorem fitsAnywhere_orderSpecs
    {terms : List OrderTerm}
    (hKeys : ∀ a ∈ terms.map OrderTerm.key,
      a.FitsAnywhere) :
    ∀ part ∈ terms.map orderSpec, part.FitsAnywhere := by
  rw [List.forall_mem_map] at hKeys ⊢
  intro term hTerm
  refine fitsAnywhere_node ⟨⟨term.key.kind, rfl⟩, rfl⟩ rfl ?_
  exact List.forall_mem_singleton.mpr (hKeys term hTerm)

/- The parts of a group by clause. -/
theorem fitsAnywhere_groupSpecs
    (keys : List String)
    (collected : List CollectTerm) :
    ∀ part ∈ keys.map groupSpec ++
      collected.map aggregateSpec, part.FitsAnywhere := by
  rw [List.forall_mem_append, List.forall_mem_map,
    List.forall_mem_map]
  constructor
  · intro key _
    refine fitsAnywhere_node rfl rfl ?_
    exact List.forall_mem_singleton.mpr
      (fitsAnywhere_reference key)
  · intro term _
    refine fitsAnywhere_node rfl rfl ?_
    exact forall_mem_pair
      (fitsAnywhere_variable term.target)
      (fitsAnywhere_reference term.source)

/- Keys come before what is collected. -/
theorem specsInOrder_groupBy
    (keys : List String)
    (collected : List CollectTerm) :
    ShapeRule.specsInOrder false
      ((keys.map groupSpec ++
        collected.map aggregateSpec).map kind) := by
  have hCollected (seen : Bool) :
      ShapeRule.specsInOrder seen
        ((collected.map aggregateSpec).map kind) := by
    induction collected generalizing seen with
    | nil => rfl
    | cons term rest ih => exact ih true
  induction keys with
  | nil => exact hCollected false
  | cons key rest ih => exact ih

theorem stacked_forIn
    (name : String)
    (source : Document) :
    Stacked input [.forIn name source]
      (stage .forBind input
        [declaration .variable name, source]) := by
  refine stacked_stage (fun hStage => ⟨_, hStage, ?_⟩) rfl
    (fun hArguments => ?_) ?_
  · exact .inl ⟨source.kind, rfl⟩
  · exact forall_mem_pair (fitsAnywhere_variable name)
      (List.forall_mem_singleton.mp hArguments)
  · rw [stage, branch, declaration, carrying, clauses?]
    cases input.clauses? <;> rfl

theorem stacked_forAt
    (name position : String)
    (source : Document) :
    Stacked input [.forAt name position source]
      (stage .forBind input
        [declaration .variable name,
         declaration .posVariable position, source]) := by
  refine stacked_stage (fun hStage => ⟨_, hStage, ?_⟩) rfl
    (fun hArguments => ?_) ?_
  · exact .inr ⟨source.kind, rfl⟩
  · exact forall_mem_triple (fitsAnywhere_variable name)
      (fitsAnywhere_posVariable position)
      (List.forall_mem_singleton.mp hArguments)
  · rw [stage, branch, declaration, declaration, carrying,
      carrying, clauses?]
    cases input.clauses? <;> rfl

theorem stacked_letBe
    (name : String)
    (value : Document) :
    Stacked input [.letBe name value]
      (stage .letBind input
        [declaration .variable name, value]) := by
  refine stacked_stage (fun hStage => ?_) rfl
    (fun hArguments => ?_) ?_
  · exact ⟨input.kind, value.kind, rfl, hStage⟩
  · exact forall_mem_pair (fitsAnywhere_variable name)
      (List.forall_mem_singleton.mp hArguments)
  · rw [stage, branch, declaration, carrying, clauses?]
    cases input.clauses? <;> rfl

theorem stacked_whereHolds
    (predicate : Document) :
    Stacked input [.whereHolds predicate]
      (stage .selection input [predicate]) := by
  refine stacked_stage (fun hStage => ?_) rfl
    (fun hArguments => hArguments) ?_
  · exact ⟨input.kind, predicate.kind, rfl, hStage⟩
  · rw [stage, branch, clauses?]
    cases input.clauses? <;> rfl

theorem stacked_orderBy
    {terms : List OrderTerm}
    (hTerms : terms ≠ []) :
    Stacked input [.orderBy terms]
      (stage .orderBy input (terms.map orderSpec)) := by
  refine stacked_stage (fun hStage => ?_) rfl
    fitsAnywhere_orderSpecs ?_
  · rcases terms with _ | ⟨term, rest⟩
    · exact (hTerms rfl).elim
    · refine ⟨input.kind, .orderSpec,
        (rest.map orderSpec).map kind, rfl, hStage, ?_⟩
      simp [orderSpec, kind]
  · rw [stage, branch, clauses?, mapM_orderTerm?]
    cases input.clauses? <;> rfl

theorem stacked_groupBy
    {keys : List String}
    (hKeys : keys ≠ [])
    (collected : List CollectTerm) :
    Stacked input [.groupBy keys collected]
      (stage .groupBy input (keys.map groupSpec ++
        collected.map aggregateSpec)) := by
  have hOrder := specsInOrder_groupBy keys collected
  refine stacked_stage (fun hStage => ?_) rfl
    (fun _ => fitsAnywhere_groupSpecs keys collected) ?_
  · rcases keys with _ | ⟨key, rest⟩
    · exact (hKeys rfl).elim
    · exact ⟨input.kind, _, _, rfl, hStage, hOrder⟩
  · rw [stage, branch, clauses?, groupTerms?_map]
    cases input.clauses? <;> rfl

theorem stacked_count
    (name : String) :
    Stacked input [.count name]
      (stage .count input
        [declaration .variable name]) := by
  refine stacked_stage (fun hStage => ?_) rfl
    (fun _ => ?_) ?_
  · exact ⟨input.kind, rfl, hStage⟩
  · exact List.forall_mem_singleton.mpr
      (fitsAnywhere_variable name)
  · rw [stage, branch, declaration, carrying, clauses?]
    cases input.clauses? <;> rfl

/- A join is the node of what is stacked on its right. -/
theorem stacked_join
    {right : List Clause}
    {tail : Document}
    (hTail : Stacked (.leaf .start) right tail)
    (comparison : Comparison)
    (l r : Document)
    (leftJoin : Bool) :
    Stacked input [.join right comparison l r leftJoin]
      (.node .join .none
        [input,
         .node .joinExpr (.cmp comparison) [l, r] [],
         tail]
        (joinProperties leftJoin)) := by
  refine ⟨fun hArguments hInput => ?_,
    fun before hBefore => ?_⟩
  · rw [argumentsAll, argumentsAll, List.append_nil,
      arguments, List.forall_mem_append] at hArguments
    refine feedsRows_join rfl hInput ?_
      (hTail.feedsRows hArguments.1 feedsRows_start)
    exact fitsAnywhere_node ⟨⟨l.kind, r.kind, rfl⟩, rfl⟩ rfl
      hArguments.2
  · rw [clauses?, hBefore, hTail.clauses [] rfl,
      leftJoin?_joinProperties]
    rfl

theorem require_eq_ok
    {condition : Bool}
    {defect : ClauseDefect}
    (hCondition : condition = true) :
    require condition defect d = .ok d := by
  rw [require, if_pos hCondition]

mutual

/- A clause that lacks nothing is stacked. -/
theorem exists_stack
    (clause : Clause)
    (hNone : clause.defect? = none)
    (input : Document) :
    ∃ d, stack input clause = .ok d ∧
      Stacked input [clause] d := by
  cases clause with
  | forIn name source =>
      have hName : name ≠ "" := by
        simpa [defect?] using hNone
      rw [stack, require_eq_ok (by simpa using hName)]
      exact ⟨_, rfl, stacked_forIn name source⟩
  | forAt name position source =>
      have hNames : name ≠ "" ∧ position ≠ "" := by
        simpa [defect?] using hNone
      rw [stack, require_eq_ok (by simpa using hNames)]
      exact ⟨_, rfl, stacked_forAt name position source⟩
  | letBe name value =>
      have hName : name ≠ "" := by
        simpa [defect?] using hNone
      rw [stack, require_eq_ok (by simpa using hName)]
      exact ⟨_, rfl, stacked_letBe name value⟩
  | whereHolds predicate =>
      rw [stack]
      exact ⟨_, rfl, stacked_whereHolds predicate⟩
  | orderBy terms =>
      have hTerms : terms ≠ [] := by
        simpa [defect?] using hNone
      rw [stack, require_eq_ok (by simpa using hTerms)]
      exact ⟨_, rfl, stacked_orderBy hTerms⟩
  | groupBy keys collected =>
      have hKeys : keys ≠ [] := by
        simpa [defect?] using hNone
      rw [stack, require_eq_ok (by simpa using hKeys)]
      exact ⟨_, rfl, stacked_groupBy hKeys collected⟩
  | count name =>
      have hName : name ≠ "" := by
        simpa [defect?] using hNone
      rw [stack, require_eq_ok (by simpa using hName)]
      exact ⟨_, rfl, stacked_count name⟩
  | join right comparison l r leftJoin =>
      rcases exists_stackAll right hNone (.leaf .start) with
        ⟨tail, hRun, hTail⟩
      rw [stack, hRun]
      exact ⟨_, rfl,
        stacked_join hTail comparison l r leftJoin⟩

/- Clauses that lack nothing are stacked in order. -/
theorem exists_stackAll
    (clauses : List Clause)
    (hNone : firstDefect? clauses = none)
    (input : Document) :
    ∃ d, stackAll input clauses = .ok d ∧
      Stacked input clauses d := by
  cases clauses with
  | nil => exact ⟨input, rfl, stacked_nil input⟩
  | cons clause rest =>
      rw [firstDefect?] at hNone
      split at hNone
      next => cases hNone
      next hHere =>
        rcases exists_stack clause hHere input with
          ⟨middle, hStack, hFirst⟩
        rcases exists_stackAll rest hNone middle with
          ⟨d, hRun, hRest⟩
        refine ⟨d, ?_, hFirst.cons hRest⟩
        rw [stackAll, hStack]
        exact hRun

end

mutual

/- A clause that lacks something is not stacked. -/
theorem stack_eq_of_defect
    {e : ClauseDefect}
    (clause : Clause)
    (hDefect : clause.defect? = some e)
    (input : Document) :
    stack input clause = .error e := by
  cases clause with
  | forIn name source | letBe name value | count name =>
      rw [defect?, Option.ite_none_right_eq_some] at hDefect
      rcases hDefect with ⟨hName, ⟨⟩⟩
      simp [stack, require, hName]
  | forAt name position source =>
      rw [defect?, Option.ite_none_right_eq_some] at hDefect
      rcases hDefect with ⟨hName | hName, ⟨⟩⟩ <;>
        simp [stack, require, hName]
  | whereHolds predicate => cases hDefect
  | orderBy terms | groupBy keys collected =>
      rw [defect?, Option.ite_none_right_eq_some] at hDefect
      rcases hDefect with ⟨hEmpty, ⟨⟩⟩
      simp [stack, require, hEmpty]
  | join right comparison l r leftJoin =>
      rw [stack, stackAll_eq_of_defect right hDefect]
      rfl

/- The first clause that lacks something decides. -/
theorem stackAll_eq_of_defect
    {e : ClauseDefect}
    (clauses : List Clause)
    (hDefect : firstDefect? clauses = some e)
    (input : Document) :
    stackAll input clauses = .error e := by
  cases clauses with
  | nil => cases hDefect
  | cons clause rest =>
      rw [stackAll]
      cases hHere : clause.defect? with
      | some defect =>
          rw [firstDefect?, hHere] at hDefect
          cases hDefect
          rw [stack_eq_of_defect clause hHere]
          rfl
      | none =>
          rw [firstDefect?, hHere] at hDefect
          rcases exists_stack clause hHere input with
            ⟨d, hStack, _⟩
          rw [hStack]
          exact stackAll_eq_of_defect rest hDefect d

end

theorem firstDefect?_eq_none
    {clauses : List Clause}
    (hNone : ∀ c ∈ clauses, c.defect? = none) :
    firstDefect? clauses = none := by
  induction clauses with
  | nil => rfl
  | cons clause rest ih =>
      rw [List.forall_mem_cons] at hNone
      rw [firstDefect?, hNone.1]
      exact ih hNone.2

theorem firstDefect?_append_cons
    {before after : List Clause}
    {clause : Clause}
    {e : ClauseDefect}
    (hNone : ∀ c ∈ before, c.defect? = none)
    (hDefect : clause.defect? = some e) :
    firstDefect? (before ++ clause :: after) = some e := by
  induction before with
  | nil => rw [List.nil_append, firstDefect?, hDefect]
  | cons c rest ih =>
      rw [List.forall_mem_cons] at hNone
      rw [List.cons_append, firstDefect?, hNone.1]
      exact ih hNone.2

end Clause

end Flwor

------------------------------------------------------------
-- Pipelines
------------------------------------------------------------

namespace Flwor

namespace Document

open Clause

/-
  What a sequence of clauses and a result give.  Without any
  clause this is an error.  So it is if a clause lacks
  something: the error is that of the first such clause,
  whatever follows.  Otherwise it is a pipeline from which a
  plan can be made, and whose stages, from the start to the
  end, are the nodes of the clauses in order.
-/
theorem flwor_builds
    (clauses : List Clause)
    (result : Document)
    (hArguments :
      ∀ a ∈ argumentsAll clauses, a.IsArgument)
    (hResult : result.IsArgument) :
    (clauses = [] →
      flwor clauses result =
        .error (.malformed (.clause .noClause))) ∧
    (∀ before clause after e,
      clauses = before ++ clause :: after →
      (∀ c ∈ before, c.defect? = none) →
      clause.defect? = some e →
        flwor clauses result =
          .error (.malformed (.clause e))) ∧
    (clauses ≠ [] → (∀ c ∈ clauses, c.defect? = none) →
      ∃ d made, flwor clauses result = .ok d ∧
        Plan.ofValidDocument d = .ok made ∧
        d.pipeline? = some (clauses, result)) := by
  refine ⟨?_, ?_, fun hSome hNone => ?_⟩
  · rintro rfl
    rfl
  · rintro before clause after e rfl hNone hDefect
    rw [flwor, stackAll_eq_of_defect _
      (firstDefect?_append_cons hNone hDefect)]
  · rcases exists_stackAll clauses
        (firstDefect?_eq_none hNone) (leaf .start) with
      ⟨tail, hRun, hTail⟩
    have hFeeds : tail.FeedsRows :=
      hTail.feedsRows
        (fun a hA => (hArguments a hA).fitsAnywhere)
        feedsRows_start
    have hFits := fits_pipeline hFeeds hResult.fitsAnywhere
    rcases (exists_ofValidDocument_iff _).mpr hFits with
      ⟨made, hMade⟩
    refine ⟨_, made, ?_, hMade, ?_⟩
    · rw [flwor, hRun]
      simp [hSome]
    · rw [branch, branch, pipeline?, hTail.clauses [] rfl]
      rfl

/- Both sides of a join, and all other clauses. -/
def severalClauses : List Clause :=
  [.forIn "x" (literal (.int 1)),
   .join
     [.forAt "y" "i" (literal (.int 2)),
      .whereHolds (literal (.bool true))]
     (.general .eq) (reference "x") (reference "y") true,
   .letBe "z" (reference "y"),
   .orderBy [⟨reference "x", .ascending⟩],
   .groupBy ["x"] [⟨"w", "z"⟩],
   .count "n"]

theorem isArgument_reference
    (name : String) :
    (reference name).IsArgument :=
  ⟨(exists_ofValidDocument_iff _).mpr
    (fitsAnywhere_reference name none), rfl, by simp
      [reference, carrying, kind]⟩

theorem isArgument_literal
    (payload : Payload) :
    (literal payload).IsArgument :=
  ⟨(exists_ofValidDocument_iff _).mpr rfl, rfl, by simp
    [literal, carrying, kind]⟩

theorem flwor_builds_severalClauses :
    (∀ a ∈ argumentsAll severalClauses, a.IsArgument) ∧
      (∃ d made,
        flwor severalClauses (reference "n") = .ok d ∧
          Plan.ofValidDocument d = .ok made ∧
          d.pipeline? =
            some (severalClauses, reference "n")) ∧
      flwor [.count "n", .orderBy [], .count ""]
        (reference "n") =
          .error (.malformed (.clause .orderKeys)) := by
  have hArguments :
      ∀ a ∈ argumentsAll severalClauses, a.IsArgument := by
    simp [severalClauses, argumentsAll, arguments,
      isArgument_reference, isArgument_literal]
  have hResult := isArgument_reference "n"
  refine ⟨hArguments, ?_, ?_⟩
  · exact (flwor_builds severalClauses (reference "n")
      hArguments hResult).2.2 (by simp [severalClauses])
        (by simp [severalClauses, defect?, firstDefect?])
  · exact (flwor_builds [.count "n", .orderBy [], .count ""]
      (reference "n") (by simp [argumentsAll, arguments])
        hResult).2.1 [.count "n"] (.orderBy []) [.count ""]
          .orderKeys rfl (by simp [defect?]) rfl

end Document

end Flwor
