import Flwor.Proofs.Agreement
import Flwor.Proofs.Compilation

/-
  Trees in scopes that hold more names, or only those that a
  tree refers to.

  A tree that follows the scoping rules still does so if
  each of its scopes loses names that occur nowhere in the
  tree, and if each of them gains names.

  Key definitions include:
    * `rescoped`

  Key theorems include:
    * `Tree.mem_references_of_child`
    * `Tree.Supplies.fewer`
    * `Tree.ReadsFrom.rescope`, `Tree.Supplies.rescope`
    * `Tree.ReadsFrom.without`, `Tree.ReadsFrom.wider`
    * `Tree.agreeOn_context`
-/

------------------------------------------------------------
-- References
------------------------------------------------------------

namespace Flwor

namespace Tree

theorem mem_referencesAll_iff
    {name : String}
    {ts : List Tree} :
    name ∈ referencesAll ts ↔
      ∃ t ∈ ts, name ∈ t.references := by
  induction ts with
  | nil => simp [referencesAll]
  | cons t rest ih => simp [referencesAll, ih]

/- What a child refers to, its parent refers to. -/
theorem mem_references_of_child
    {name : String}
    {t c : Tree}
    (hChild : c ∈ t.children)
    (hName : name ∈ c.references) :
    name ∈ t.references := by
  rcases t with ⟨i, k, p, ps, cs⟩
  rw [references, List.mem_append, mem_referencesAll_iff]
  exact .inr ⟨c, hChild, hName⟩

theorem mem_references_of_check
    {name : String}
    {t : Tree}
    (hCheck : t.properties.var? Properties.check =
      some name) :
    name ∈ t.references := by
  rcases t with ⟨i, k, p, ps, cs⟩
  simp only [properties] at hCheck
  simp [references, nodeReferences, hCheck]

theorem mem_references_of_variableRef
    {name : String}
    {t : Tree}
    (hKind : t.kind = .variableRef)
    (hVar : t.var? = some name) :
    name ∈ t.references := by
  rcases t with ⟨i, k, p, ps, cs⟩
  cases hKind
  simp only [var?, payload] at hVar
  simp [references, nodeReferences, hVar]

/- A spec of a grouping refers to a child at some place. -/
theorem mem_references_of_childVar
    {name : String}
    {spec : Tree}
    {index : Nat}
    (hKind : ∃ c, spec.children[index]? = some c ∧
      c.kind = .variableRef)
    (hVar : spec.childVar? index = some name) :
    name ∈ spec.references := by
  rcases hKind with ⟨c, hChild, hKind⟩
  rw [childVar?, hChild, Option.bind_some] at hVar
  exact mem_references_of_child
    (List.mem_of_getElem? hChild)
    (mem_references_of_variableRef hKind hVar)

/- All children of a sort but its input are order specs. -/
theorem Shaped.orderSpec
    {i : NodeId}
    {p : Payload}
    {ps : Properties}
    {input : Tree}
    {specs : List Tree}
    {spec : Tree}
    (hShaped :
      (Tree.node i .orderBy p ps (input :: specs)).Shaped)
    (hSpec : spec ∈ specs) :
    spec.kind = .orderSpec := by
  rcases hShaped.self with ⟨place, hRule⟩
  simp only [brokenRule?, kind_node, children_node,
    Option.orElse_eq_orElse, Option.orElse_eq_or,
    Option.or_eq_none_iff, ShapeRule.orderSpecs,
    List.findSome?_eq_none_iff,
    ShapeRule.kindAt_eq_none] at hRule
  rcases List.mem_iff_getElem?.mp hSpec with ⟨j, hJ⟩
  have hIndex : j + 1 ∈
      List.range' 1 ((input :: specs).length - 1) := by
    have hBound := (List.getElem?_eq_some_iff.mp hJ).1
    rw [List.mem_range'_1, List.length_cons]
    omega
  rcases hRule.2.2 (j + 1) hIndex with ⟨t, hT, hKind⟩
  rw [List.getElem?_cons_succ, hJ] at hT
  cases hT
  exact hKind

/- The key of a valid spec is a reference. -/
theorem Shaped.groupSpec
    {spec : Tree}
    (hShaped : spec.Shaped)
    (hKind : spec.kind = .groupSpec) :
    ∃ c, spec.children[0]? = some c ∧
      c.kind = .variableRef := by
  rcases hShaped.self with ⟨place, hRule⟩
  simp only [brokenRule?, hKind, Option.orElse_eq_orElse,
    Option.orElse_eq_or, Option.or_eq_none_iff,
    ShapeRule.kindAt_eq_none] at hRule
  exact hRule.2

/- The source of a valid aggregate is a reference. -/
theorem Shaped.aggregateSpec
    {spec : Tree}
    (hShaped : spec.Shaped)
    (hKind : spec.kind = .aggregateSpec) :
    (∃ c, spec.children[0]? = some c ∧
        c.kind = .variable) ∧
      ∃ c, spec.children[1]? = some c ∧
        c.kind = .variableRef := by
  rcases hShaped.self with ⟨place, hRule⟩
  simp only [brokenRule?, hKind, Option.orElse_eq_orElse,
    Option.orElse_eq_or, Option.or_eq_none_iff,
    ShapeRule.kindAt_eq_none] at hRule
  exact hRule.2

/- A spec of a grouping reads each of the keys. -/
theorem exists_spec_of_groupKey
    {name : String}
    {t : Tree}
    (hShaped : t.Shaped)
    (hKey : name ∈ t.groupKeys) :
    ∃ spec ∈ t.children.drop 1, name ∈ spec.references := by
  rw [groupKeys, List.mem_filterMap] at hKey
  rcases hKey with ⟨spec, hSpec, hVar⟩
  rw [List.mem_filter, decide_eq_true_eq] at hSpec
  have hChild := List.mem_of_mem_drop hSpec.1
  exact ⟨spec, hSpec.1, mem_references_of_childVar
    ((hShaped.child hChild).groupSpec hSpec.2) hVar⟩

/- A spec of a grouping reads each of the sources. -/
theorem exists_spec_of_aggregate
    {aggregate : String × String}
    {t : Tree}
    (hShaped : t.Shaped)
    (hAggregate : aggregate ∈ t.groupAggregates) :
    ∃ spec ∈ t.children.drop 1,
      aggregate.2 ∈ spec.references := by
  rw [groupAggregates, List.mem_filterMap] at hAggregate
  rcases hAggregate with ⟨spec, hSpec, hVars⟩
  rw [List.mem_filter, decide_eq_true_eq] at hSpec
  have hChild := List.mem_of_mem_drop hSpec.1
  refine ⟨spec, hSpec.1, ?_⟩
  cases hTarget : spec.childVar? 0 with
  | none => simp [hTarget] at hVars
  | some target =>
      cases hSource : spec.childVar? 1 with
      | none => simp [hTarget, hSource] at hVars
      | some source =>
          simp only [hTarget, hSource,
            Option.some.injEq] at hVars
          rw [← hVars]
          exact mem_references_of_childVar
            ((hShaped.child hChild).aggregateSpec
              hSpec.2).2 hSource

theorem mem_references_of_groupKey
    {name : String}
    {t : Tree}
    (hShaped : t.Shaped)
    (hKey : name ∈ t.groupKeys) :
    name ∈ t.references := by
  rcases exists_spec_of_groupKey hShaped hKey with
    ⟨spec, hSpec, hName⟩
  exact mem_references_of_child (List.mem_of_mem_drop hSpec)
    hName

theorem mem_references_of_aggregate
    {aggregate : String × String}
    {t : Tree}
    (hShaped : t.Shaped)
    (hAggregate : aggregate ∈ t.groupAggregates) :
    aggregate.2 ∈ t.references := by
  rcases exists_spec_of_aggregate hShaped hAggregate with
    ⟨spec, hSpec, hName⟩
  exact mem_references_of_child (List.mem_of_mem_drop hSpec)
    hName

end Tree

end Flwor

------------------------------------------------------------
-- Other Scopes
------------------------------------------------------------

namespace Flwor

/- A scope that loses some names and then gains others. -/
def rescoped
    (lost gained names : Set String) : Set String :=
  {n | n ∈ names ∧ n ∉ lost ∨ n ∈ gained}

namespace Tree

variable {library : Library}
variable {lost gained : Set String}

/-
  A tree in shape that may change its scopes: it has no
  projections, and it does not refer to what they lose.
-/
structure Rescopable
    (lost : Set String)
    (t : Tree) : Prop where
  shaped : t.Shaped
  lacks : t.Lacks Properties.project
  unread : ∀ name ∈ t.references, name ∉ lost

namespace Rescopable

/- Any tree keeps to the rules where no name is lost. -/
theorem of_shaped
    {t : Tree}
    (hShaped : t.Shaped)
    (hLacks : t.Lacks Properties.project) :
    t.Rescopable ∅ :=
  ⟨hShaped, hLacks, fun _ _ => Set.notMem_empty _⟩

theorem child
    {t c : Tree}
    (hTree : t.Rescopable lost)
    (hChild : c ∈ t.children) :
    c.Rescopable lost where
  shaped := hTree.shaped.child hChild
  lacks := hTree.lacks.child hChild
  unread name hName :=
    hTree.unread name (mem_references_of_child hChild hName)

theorem childAt
    {t c : Tree}
    {index : Nat}
    (hTree : t.Rescopable lost)
    (hChild : t.children[index]? = some c) :
    c.Rescopable lost :=
  hTree.child (List.mem_of_getElem? hChild)

end Rescopable

/- What a tree refers to stays in its scopes. -/
theorem mem_rescoped
    {t : Tree}
    {names : Set String}
    {name : String}
    (hTree : t.Rescopable lost)
    (hReference : name ∈ t.references)
    (hName : name ∈ names) :
    name ∈ rescoped lost gained names :=
  .inl ⟨hName, hTree.unread name hReference⟩

/- What is handed on under a condition still is. -/
theorem mem_rescoped_of_handed
    {handed read : Set String}
    {name : String}
    (hName : name ∈ rescoped lost gained handed)
    (hHanded : name ∈ handed → name ∈ read) :
    name ∈ rescoped lost gained read := by
  rcases hName with ⟨hName, hLost⟩ | hGained
  · exact .inl ⟨hHanded hName, hLost⟩
  · exact .inr hGained

/- A stage also supplies less. -/
theorem Supplies.fewer
    {context handed wanted : Set String}
    {t : Tree}
    (hSupplies : Supplies library False context handed t)
    (hSubset : wanted ⊆ handed) :
    Supplies library False context wanted t := by
  cases hSupplies with
  | start hHanded =>
      exact .start (hSubset.trans hHanded)
  | forBind hInput hSource hReads hCheck hVar hHanded =>
      exact .forBind hInput hSource hReads hCheck hVar
        (fun name hName => hHanded name (hSubset hName))
  | letBind hInput hVar hLive hValue hReads hCheck hHanded =>
      exact .letBind hInput hVar hLive hValue hReads hCheck
        (fun name hName => hHanded name (hSubset hName))
  | deadLet _ _ _ hLenient _ _ => exact hLenient.elim
  | selection hInput hPredicate hReads hHanded =>
      exact .selection hInput hPredicate hReads
        (hSubset.trans hHanded)
  | orderBy hInput hKeeps hOrders hKeys hPresent hHanded =>
      exact .orderBy hInput hKeeps hOrders hKeys hPresent
        (hSubset.trans hHanded)
  | groupBy hInput hKeys hSources hHanded =>
      exact .groupBy hInput hKeys hSources
        (fun name hName => hHanded name (hSubset hName))
  | count hInput hVar hHanded =>
      exact .count hInput hVar
        (fun name hName => hHanded name (hSubset hName))
  | join hLeft hRight hKeepsLeft hKeepsRight hComparison
      hLeftKey hRightKey hReadsLeft hReadsRight hHandedLeft
      hHandedRight =>
      exact .join hLeft hRight hKeepsLeft hKeepsRight
        hComparison hLeftKey hRightKey hReadsLeft
        hReadsRight
        (fun name hName => hHandedLeft name (hSubset hName))
        (fun name hName => hHandedRight name (hSubset hName))

mutual

/- An expression in another scope. -/
theorem ReadsFrom.rescope
    {names : Set String}
    {t : Tree}
    (hReads : ReadsFrom library False names t)
    (hTree : t.Rescopable lost) :
    ReadsFrom library False (rescoped lost gained names)
      t := by
  match hReads with
  | .literal hItem => exact .literal hItem
  | .emptySequence => exact .emptySequence
  | .sequence hParts =>
      exact .sequence (fun c hC =>
        (hParts c hC).rescope (hTree.child hC))
  | .binary hKind hLeft hRight hReadsLeft hReadsRight =>
      exact .binary hKind hLeft hRight
        (hReadsLeft.rescope (hTree.childAt hLeft))
        (hReadsRight.rescope (hTree.childAt hRight))
  | .cond hCondition hYes hNo hReadsCondition hReadsYes
      hReadsNo =>
      exact .cond hCondition hYes hNo
        (hReadsCondition.rescope (hTree.childAt hCondition))
        (hReadsYes.rescope (hTree.childAt hYes))
        (hReadsNo.rescope (hTree.childAt hNo))
  | .call hName hFunction hArguments =>
      exact .call hName hFunction (fun c hC =>
        (hArguments c hC).rescope (hTree.child hC))
  | .variableRef hName hMem =>
      refine .variableRef hName (mem_rescoped hTree ?_ hMem)
      exact mem_references_of_variableRef rfl hName
  | .pipe hTail hResult =>
      have hFinish := hTree.child List.mem_cons_self
      exact .pipe
        (hTail.rescope (hFinish.child List.mem_cons_self))
        (hResult.rescope (hFinish.child
          (List.mem_cons_of_mem _ List.mem_cons_self)))

/- A stage in another scope, whose rows are read in one. -/
theorem Supplies.rescope
    {context handed : Set String}
    {t : Tree}
    (hSupplies : Supplies library False context handed t)
    (hTree : t.Rescopable lost) :
    Supplies library False (rescoped lost gained context)
      (rescoped lost gained handed) t := by
  match hSupplies with
  | .start hHanded =>
      exact .start (fun name hName =>
        mem_rescoped_of_handed hName (@hHanded name))
  | .forBind hInput hSource hReads hCheck hVar hHanded =>
      refine .forBind
        (hInput.rescope (hTree.child List.mem_cons_self))
        hSource (hReads.rescope (hTree.child
          (List.mem_of_getLast? hSource))) ?_ hVar ?_
      · intro name hName
        exact mem_rescoped hTree
          (mem_references_of_check hName) (hCheck name hName)
      · intro name hName hNew
        exact mem_rescoped_of_handed hName
          (fun h => hHanded name h hNew)
  | .letBind hInput hVar hLive hValue hReads hCheck
      hHanded =>
      refine .letBind
        (hInput.rescope (hTree.child List.mem_cons_self))
        hVar hLive hValue
        (hReads.rescope (hTree.childAt hValue)) ?_ ?_
      · intro name hName
        exact mem_rescoped hTree
          (mem_references_of_check hName) (hCheck name hName)
      · intro name hName hNew
        exact mem_rescoped_of_handed hName
          (fun h => hHanded name h hNew)
  | .deadLet _ _ _ hLenient _ _ => exact hLenient.elim
  | .selection hInput hPredicate hReads hHanded =>
      exact .selection
        (hInput.rescope (hTree.child List.mem_cons_self))
        hPredicate
        (hReads.rescope (hTree.childAt hPredicate))
        (fun name hName =>
          mem_rescoped_of_handed hName (@hHanded name))
  | .orderBy hInput _ hOrders hKeys hPresent hHanded =>
      have hInputTree := hTree.child List.mem_cons_self
      exact .orderBy (hInput.rescope hInputTree)
        (hInputTree.lacks.keeps _ _) hOrders
        (fun spec hSpec key hKey =>
          (hKeys spec hSpec key hKey).rescope
            ((hTree.child
              (List.mem_cons_of_mem _ hSpec)).childAt hKey))
        hPresent (fun name hName =>
          mem_rescoped_of_handed hName (@hHanded name))
  | .groupBy hInput hKeys hSources hHanded =>
      refine .groupBy
        (hInput.rescope (hTree.child List.mem_cons_self))
        ?_ ?_ ?_
      · intro name hName
        exact mem_rescoped hTree
          (mem_references_of_groupKey hTree.shaped hName)
          (hKeys name hName)
      · intro aggregate hMem
        exact mem_rescoped hTree
          (mem_references_of_aggregate hTree.shaped hMem)
          (hSources aggregate hMem)
      · intro name hName hNew
        exact mem_rescoped_of_handed hName
          (fun h => hHanded name h hNew)
  | .count hInput hVar hHanded =>
      refine .count
        (hInput.rescope (hTree.child List.mem_cons_self))
        hVar (fun name hName hNew => ?_)
      exact mem_rescoped_of_handed hName
        (fun h => hHanded name h hNew)
  | .join hLeft hRight _ _ hComparison hLeftKey hRightKey
      hReadsLeft hReadsRight hHandedLeft hHandedRight =>
      have hLeftTree := hTree.child List.mem_cons_self
      have hKeysTree := hTree.child
        (List.mem_cons_of_mem _ List.mem_cons_self)
      have hRightTree := hTree.child
        (List.mem_cons_of_mem _
          (List.mem_cons_of_mem _ List.mem_cons_self))
      refine .join (hLeft.rescope hLeftTree)
        (hRight.rescope hRightTree)
        (hLeftTree.lacks.keeps _ _)
        (hRightTree.lacks.keeps _ _) hComparison hLeftKey
        hRightKey (hReadsLeft.rescope
          (hKeysTree.childAt hLeftKey))
        (hReadsRight.rescope (hKeysTree.childAt hRightKey))
        ?_ ?_
      · intro name hName hNot
        exact mem_rescoped_of_handed hName
          (fun h => hHandedLeft name h hNot)
      · intro name hName hMem
        exact mem_rescoped_of_handed hName
          (fun h => hHandedRight name h hMem)

end

variable {names more : Set String}

/- Names that do not occur need not be in scope. -/
theorem ReadsFrom.without
    {t : Tree}
    (hReads : ReadsFrom library False names t)
    (hTree : t.Rescopable lost) :
    ReadsFrom library False (names \ lost) t := by
  have hRescoped : ReadsFrom library False
      (rescoped lost ∅ names) t := hReads.rescope hTree
  have hEq : rescoped lost ∅ names = names \ lost := by
    ext name
    simp [rescoped]
  rwa [hEq] at hRescoped

/- More names may be in scope. -/
theorem ReadsFrom.wider
    {t : Tree}
    (hReads : ReadsFrom library False names t)
    (hTree : t.Rescopable ∅)
    (hSubset : names ⊆ more) :
    ReadsFrom library False more t := by
  have hRescoped : ReadsFrom library False
      (rescoped ∅ more names) t := hReads.rescope hTree
  have hEq : rescoped ∅ more names = more := by
    ext name
    simp only [rescoped, Set.mem_empty_iff_false,
      not_false_eq_true, and_true, Set.mem_ofPred_eq]
    exact or_iff_right_of_imp (@hSubset name)
  rwa [hEq] at hRescoped

/- What a stage hands on and does not bind is in context. -/
theorem Supplies.mem_context
    {context handed : Set String}
    {t : Tree}
    (hSupplies : Supplies library False context handed t)
    {name : String}
    (hName : name ∈ handed)
    (hNew : name ∉ t.visible) :
    name ∈ context := by
  have hInputNew {i k p ps input rest}
      (hKind : Kind.hasInput k)
      (hGroup : k ≠ .groupBy)
      (hNot : name ∉
        visible (.node i k p ps (input :: rest))) :
      name ∉ input.visible ∧
        name ∉ bound (.node i k p ps (input :: rest)) := by
    rwa [visible_input hKind hGroup, List.mem_append, not_or]
      at hNot
  have hVar {t : Tree} {var : String}
      (hBinding : t.binding? = some var)
      (hBound : t.bound = t.binding?.toList)
      (hNot : name ∉ t.bound) :
      name ≠ var := by
    rintro rfl
    exact hNot (by simp [hBound, hBinding])
  match hSupplies with
  | .start hHanded => exact hHanded hName
  | .forBind hInput _ _ _ _ hHanded =>
      have hNot := hInputNew rfl (by simp) hNew
      exact hInput.mem_context
        (hHanded name hName hNot.2) hNot.1
  | .letBind hInput hBinding _ _ _ _ hHanded =>
      have hNot := hInputNew rfl (by simp) hNew
      exact hInput.mem_context
        (hHanded name hName (hVar hBinding rfl hNot.2))
        hNot.1
  | .deadLet _ _ _ hLenient _ _ => exact hLenient.elim
  | .selection hInput _ _ hHanded =>
      have hNot := hInputNew rfl (by simp) hNew
      exact hInput.mem_context (hHanded hName) hNot.1
  | .orderBy hInput _ _ _ _ hHanded =>
      have hNot := hInputNew rfl (by simp) hNew
      exact hInput.mem_context (hHanded hName) hNot.1
  | .groupBy _ _ _ hHanded =>
      rw [visible_groupBy] at hNew
      exact hHanded name hName hNew
  | .count hInput hBinding hHanded =>
      have hNot := hInputNew rfl (by simp) hNew
      exact hInput.mem_context
        (hHanded name hName (hVar hBinding rfl hNot.2))
        hNot.1
  | .join hLeft _ _ _ _ _ _ _ _ hHandedLeft _ =>
      rw [visible_join, List.mem_append, not_or] at hNew
      exact hLeft.mem_context
        (hHandedLeft name hName hNew.2) hNew.1

end Tree

end Flwor

------------------------------------------------------------
-- What Rows Take From Their Context
------------------------------------------------------------

namespace Flwor

/- Each of the results comes from one of the elements. -/
theorem exists_of_mem_mapM
    {α β : Type}
    {f : α → Option β}
    {xs : List α}
    {ys : List β}
    (hMapM : xs.mapM f = some ys)
    {y : β}
    (hMem : y ∈ ys) :
    ∃ x ∈ xs, f x = some y := by
  induction xs generalizing ys with
  | nil =>
      cases hMapM
      cases hMem
  | cons x rest ih =>
      rw [List.mapM_cons] at hMapM
      simp only [Option.bind_eq_bind,
        Option.bind_eq_some_iff] at hMapM
      rcases hMapM with ⟨first, hFirst, more, hMore, hEq⟩
      cases hEq
      rcases List.mem_cons.mp hMem with rfl | hMem
      · exact ⟨x, List.mem_cons_self, hFirst⟩
      · rcases ih hMore hMem with ⟨x', hX, hValue⟩
        exact ⟨x', List.mem_cons_of_mem _ hX, hValue⟩

/- The same for elements replaced by several ones. -/
theorem exists_of_mem_flatten
    {α β : Type}
    {f : α → Option (List β)}
    {xs : List α}
    {yss : List (List β)}
    (hMapM : xs.mapM f = some yss)
    {y : β}
    (hMem : y ∈ yss.flatten) :
    ∃ x ∈ xs, ∃ ys, f x = some ys ∧ y ∈ ys := by
  rcases List.mem_flatten.mp hMem with ⟨ys, hYs, hY⟩
  rcases exists_of_mem_mapM hMapM hYs with ⟨x, hX, hValue⟩
  exact ⟨x, hX, ys, hValue, hY⟩

namespace Tree

variable (library : Library)

/-
  A row of a stage with an input is a row of the input, its
  own bindings apart.
-/
theorem exists_input_row
    {i : NodeId}
    {k : Kind}
    {p : Payload}
    {ps : Properties}
    {cs : List Tree}
    {context row : Env}
    {rows : List Env}
    (hKind : k.hasInput)
    (hGroup : k ≠ .groupBy)
    (hRows : Tree.rows library (.node i k p ps cs) context =
      some rows)
    (hRow : row ∈ rows) :
    ∃ inputs, headRows library cs context = some inputs ∧
      ∃ input ∈ inputs, Env.AgreeOn
        {n | n ∉ bound (.node i k p ps cs)} row input := by
  cases k <;> try cases hKind
  case groupBy => exact (hGroup rfl).elim
  all_goals
    rw [Tree.rows] at hRows
    simp only [Option.bind_eq_bind,
      Option.bind_eq_some_iff] at hRows
    rcases hRows with ⟨inputs, hInputs, hRows⟩
    refine ⟨inputs, hInputs, ?_⟩
  case forBind =>
    rcases hRows with ⟨var, hVar, bounds, hBounds, hEq⟩
    cases hEq
    rcases exists_of_mem_flatten hBounds hRow with
      ⟨input, hInput, bound, hBound, hMem⟩
    refine ⟨input, hInput, ?_⟩
    rw [Option.bind_eq_some_iff] at hBound
    rcases hBound with ⟨skipped, _, hBound⟩
    have hBinds : ∃ value place, row =
        (input.bind var value).bindOption
          (position? (.node i .forBind p ps cs)) place := by
      cases skipped with
      | true =>
          cases hBound
          rw [List.mem_singleton] at hMem
          exact ⟨[], [], hMem⟩
      | false =>
          rw [if_neg (by simp),
            Option.bind_eq_some_iff] at hBound
          rcases hBound with ⟨items, _, hBound⟩
          cases hBound
          rw [Env.bindItems, List.mem_map] at hMem
          rcases hMem with ⟨entry, _, rfl⟩
          exact ⟨_, _, rfl⟩
    rcases hBinds with ⟨value, place, rfl⟩
    have hOwn : Tree.bound (.node i .forBind p ps cs) =
        var :: (position?
          (.node i .forBind p ps cs)).toList := by
      simp [Tree.bound, kind, hVar]
    rw [hOwn]
    exact Env.agreeOn_bindFor _ _ _ _ _
  case letBind =>
    rcases hRows with ⟨var, hVar, hRows⟩
    rcases exists_of_mem_mapM hRows hRow with
      ⟨input, hInput, hValue⟩
    refine ⟨input, hInput, ?_⟩
    rw [Option.bind_eq_some_iff] at hValue
    rcases hValue with ⟨skipped, _, hValue⟩
    have hBinds : ∃ value, row = input.bind var value := by
      cases skipped with
      | true =>
          cases hValue
          exact ⟨[], rfl⟩
      | false =>
          rw [if_neg (by simp),
            Option.bind_eq_some_iff] at hValue
          rcases hValue with ⟨s, _, hValue⟩
          cases hValue
          exact ⟨s, rfl⟩
    rcases hBinds with ⟨value, rfl⟩
    have hOwn : Tree.bound (.node i .letBind p ps cs) =
        [var] := by
      simp [Tree.bound, kind, hVar]
    rw [hOwn]
    simpa using Env.agreeOn_bind input var value
  case selection =>
    rcases hRows with ⟨kept, hKept, hEq⟩
    cases hEq
    rcases exists_of_mem_flatten hKept hRow with
      ⟨input, hInput, more, hMore, hMem⟩
    refine ⟨input, hInput, ?_⟩
    simp only [Option.bind_eq_some_iff] at hMore
    rcases hMore with ⟨s, _, holds, _, hEq⟩
    cases holds with
    | false =>
        cases hEq
        cases hMem
    | true =>
        cases hEq
        rw [if_pos rfl, List.mem_singleton] at hMem
        rw [hMem]
        exact .refl _ _
  case orderBy =>
    rcases hRows with ⟨orders, _, keyed, hKeyed, hEq⟩
    cases hEq
    simp only [sortKeyed, List.mem_map,
      List.mem_mergeSort] at hRow
    rcases hRow with ⟨entry, hEntry, rfl⟩
    rcases exists_of_mem_mapM hKeyed hEntry with
      ⟨input, hInput, hValue⟩
    rw [Option.map_eq_some_iff] at hValue
    rcases hValue with ⟨keys, _, rfl⟩
    exact ⟨input, hInput, .refl _ _⟩
  case count =>
    rcases hRows with ⟨var, hVar, hEq⟩
    cases hEq
    rw [Env.numbered, List.mem_map] at hRow
    rcases hRow with ⟨entry, hEntry, rfl⟩
    refine ⟨entry.1, List.fst_mem_of_mem_zipIdx hEntry, ?_⟩
    have hOwn : Tree.bound (.node i .count p ps cs) =
        [var] := by
      simp [Tree.bound, kind, hVar]
    rw [hOwn]
    simpa using Env.agreeOn_bind entry.1 var _

/- A row of a grouping is its context, bindings apart. -/
theorem agreeOn_groupBy
    {i : NodeId}
    {p : Payload}
    {ps : Properties}
    {cs : List Tree}
    {context row : Env}
    {rows : List Env}
    (hRows : Tree.rows library (.node i .groupBy p ps cs)
      context = some rows)
    (hRow : row ∈ rows) :
    Env.AgreeOn
      {n | n ∉ visible (.node i .groupBy p ps cs)} row
        context := by
  rw [Tree.rows] at hRows
  simp only [Option.bind_eq_bind,
    Option.bind_eq_some_iff] at hRows
  rcases hRows with ⟨inputs, _, entries, _, hEq⟩
  cases hEq
  rcases List.mem_map.mp hRow with ⟨group, _, rfl⟩
  intro name hName
  rw [visible_groupBy, bound, Set.mem_ofPred_eq, kind_node,
    List.mem_append, not_or] at hName
  refine (Env.agreeOn_bindAll _ _ name ?_).trans
    (Env.agreeOn_bindAll _ _ name ?_)
  · intro hMem
    rcases List.mem_map.mp hMem with ⟨pair, hPair, rfl⟩
    exact hName.2 (List.of_mem_zip hPair).1
  · intro hMem
    rcases List.mem_map.mp hMem with ⟨pair, hPair, rfl⟩
    exact hName.1 (List.of_mem_zip hPair).1

/- A row of a join is its left row, or its right one. -/
theorem agreeOn_join
    {i : NodeId}
    {p : Payload}
    {ps : Properties}
    {cs : List Tree}
    {context row : Env}
    {rows : List Env}
    (hRows : Tree.rows library (.node i .join p ps cs)
      context = some rows)
    (hRow : row ∈ rows)
    (hInputs : ∀ c ∈ cs, ∀ inputs,
      c.rows library context = some inputs →
        ∀ input ∈ inputs,
          Env.AgreeOn {n | n ∉ c.visible} input context) :
    Env.AgreeOn
      {n | n ∉ visible (.node i .join p ps cs)} row
        context := by
  rw [Tree.rows] at hRows
  unfold joinRows at hRows
  split at hRows
  next left j k q qs keys right =>
    simp only [Option.bind_eq_bind,
      Option.bind_eq_some_iff] at hRows
    rcases hRows with ⟨comparison, _, lefts, hLefts, rights,
      hRights, keyed, hKeyed, joined, hJoined, hEq⟩
    cases hEq
    rcases exists_of_mem_flatten hJoined hRow with
      ⟨input, hInput, more, hMore, hMem⟩
    rw [visible_join]
    have hLeft := hInputs left (by simp) lefts hLefts input
      hInput
    -- A row is joined with a right row, or with none.
    have hOther : ∃ other, row =
        input.under right.visible other := by
      rw [Option.bind_eq_some_iff] at hMore
      rcases hMore with ⟨key, _, hMore⟩
      rw [Option.bind_eq_some_iff] at hMore
      rcases hMore with ⟨found, _, hMore⟩
      split at hMore
      · cases hMore
        rw [List.mem_singleton] at hMem
        exact ⟨fun _ => some [], hMem⟩
      · cases hMore
        rcases List.mem_map.mp hMem with ⟨other, _, hEq⟩
        exact ⟨other, hEq.symm⟩
    rcases hOther with ⟨other, rfl⟩
    intro name hName
    rw [Set.mem_ofPred_eq, List.mem_append, not_or] at hName
    rw [Env.under, if_neg hName.2]
    exact hLeft name hName.1
  next => cases hRows

/- A row holds what its context does, bindings apart. -/
theorem agreeOn_context
    (t : Tree)
    {context : Env}
    {rows : List Env}
    (hRows : t.rows library context = some rows)
    {row : Env}
    (hRow : row ∈ rows) :
    Env.AgreeOn {n | n ∉ t.visible} row context := by
  induction t using Tree.induction generalizing rows row with
  | node i k p ps cs ih =>
      have hHead {inputs : List Env} {input : Env}
          (hInputs : headRows library cs context =
            some inputs)
          (hInput : input ∈ inputs) :
          Env.AgreeOn {n | n ∉ visibleHead cs} input
            context := by
        cases cs with
        | nil => cases hInputs
        | cons c rest =>
            exact ih c List.mem_cons_self hInputs hInput
      by_cases hKind : k.hasInput ∧ k ≠ .groupBy
      · rcases exists_input_row library hKind.1 hKind.2
          hRows hRow with ⟨inputs, hInputs, input, hInput,
            hAgree⟩
        have hVisible : visible (.node i k p ps cs) =
            visibleHead cs ++ bound (.node i k p ps cs) := by
          rcases Kind.eq_of_hasInput hKind.1 with
            rfl | rfl | rfl | rfl | rfl | rfl <;>
            first
            | exact (hKind.2 rfl).elim
            | simp [visible]
        rw [hVisible]
        intro name hName
        rw [Set.mem_ofPred_eq, List.mem_append, not_or]
          at hName
        exact (hAgree name hName.2).trans
          (hHead hInputs hInput name hName.1)
      cases k
      case forBind | letBind | selection | orderBy | count =>
        exact (hKind ⟨rfl, by simp⟩).elim
      case start =>
        rw [Tree.rows] at hRows
        cases hRows
        rw [List.mem_singleton] at hRow
        rw [hRow]
        exact .refl _ _
      case groupBy =>
        exact agreeOn_groupBy library hRows hRow
      case join =>
        exact agreeOn_join library hRows hRow
          (fun c hC inputs hInputs input hInput =>
            ih c hC hInputs hInput)
      all_goals
        simp only [Tree.rows] at hRows
        cases hRows

end Tree

end Flwor
