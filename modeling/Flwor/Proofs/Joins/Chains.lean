import Flwor.Proofs.Converse
import Flwor.Proofs.Joins.Steps
import Flwor.Proofs.NestedLoops

/-
  The stages of a nested pipeline that can become the right
  input of a join.

  They depend on the rows outside only where one selection
  compares a key of the outer row with one of the inner row.
  Without this selection the stages make the same rows for
  every outer row, and those whose keys compare true are the
  rows that the nested pipeline has there.

  Key definitions include:
    * `Tie`
    * `Tree.Chain`, `Tree.Correlated`

  Key theorems include:
    * `Tree.Correlated.exists_supplies`
    * `Tree.Correlated.rows_filtered`
    * `Tree.Correlated.rows_opened`
-/

------------------------------------------------------------
-- Ties
------------------------------------------------------------

namespace Flwor

/-
  A correlation together with its outer key: one key reads
  outer variables only, and the other one reads none.
-/
structure Tie
    (outer : List String) extends Correlation where
  outerKey : Tree
  outside : ∀ name ∈ outerKey.references, name ∈ outer
  inside : ∀ name ∈ innerKey.references, name ∉ outer

namespace Tie

variable {outer : List String}

/- The relation of the outer key to the inner one. -/
def joining
    (tie : Tie outer) : Relation :=
  if tie.outerSide = 0 then tie.relation
  else tie.relation.converse

/- Whether the key of an inner row matches an outer key. -/
def holds
    (library : Library)
    (tie : Tie outer)
    (key : Sequence)
    (row : Env) : Bool :=
  ((tie.innerKey.value library row).map (fun other =>
    key.generalCompare tie.joining other)).getD false

/- A comparison of the two keys, in either order. -/
structure Stated
    (tie : Tie outer)
    (predicate : Tree) : Prop where
  kind : predicate.kind = .comparisonExpr
  payload :
    predicate.payload = .cmp (.general tie.relation)
  keys :
    (tie.outerSide = 0 ∧ ∃ more, predicate.children =
        tie.outerKey :: tie.innerKey :: more) ∨
      (tie.outerSide = 1 ∧ ∃ more, predicate.children =
        tie.innerKey :: tie.outerKey :: more)

namespace Stated

variable {library : Library}
variable {tie : Tie outer}
variable {predicate : Tree}

theorem mem_children
    (hStated : tie.Stated predicate) :
    tie.outerKey ∈ predicate.children ∧
      tie.innerKey ∈ predicate.children := by
  rcases hStated.keys with
    ⟨_, more, hChildren⟩ | ⟨_, more, hChildren⟩ <;>
    simp [hChildren]

/- Both keys can be read where the comparison can. -/
theorem readsFrom
    (hStated : tie.Stated predicate)
    {read : Set String}
    (hReads : Tree.ReadsFrom library False read predicate) :
    Tree.ReadsFrom library False read tie.outerKey ∧
      Tree.ReadsFrom library False read tie.innerKey := by
  rcases predicate with ⟨i, k, p, ps, cs⟩
  have hKind := hStated.kind
  have hKeys := hStated.keys
  simp only [Tree.kind_node, Tree.children_node]
    at hKind hKeys
  subst hKind
  cases hReads with
  | binary _ hLeft hRight hReadsLeft hReadsRight =>
      rcases hKeys with ⟨_, more, rfl⟩ | ⟨_, more, rfl⟩
      · cases hLeft
        cases hRight
        exact ⟨hReadsLeft, hReadsRight⟩
      · cases hLeft
        cases hRight
        exact ⟨hReadsRight, hReadsLeft⟩

/- The comparison has a value if both keys have one. -/
theorem exists_values
    (hStated : tie.Stated predicate)
    {env : Env}
    {s : Sequence}
    (hValue : predicate.value library env = some s) :
    ∃ key other,
      tie.outerKey.value library env = some key ∧
        tie.innerKey.value library env = some other ∧
        s.truth? =
          some (key.generalCompare tie.joining other) := by
  rcases predicate with ⟨i, k, p, ps, cs⟩
  have hKind := hStated.kind
  have hPayload := hStated.payload
  have hKeys := hStated.keys
  simp only [Tree.kind_node, Tree.children_node,
    Tree.payload] at hKind hKeys hPayload
  subst hKind
  subst hPayload
  simp only [Tree.value, Payload.comparison?,
    Option.bind_eq_bind, Option.bind_some,
    Tree.valueAt_eq] at hValue
  rcases hKeys with ⟨hSide, more, rfl⟩ | ⟨hSide, more, rfl⟩
  all_goals
    simp only [List.getElem?_cons_zero,
      List.getElem?_cons_succ, Option.bind_some,
      Option.bind_eq_some_iff] at hValue
    rcases hValue with ⟨left, hLeft, right, hRight, hValue⟩
    cases hValue
  · refine ⟨left, right, hLeft, hRight, ?_⟩
    rw [joining, if_pos hSide]
    rfl
  · refine ⟨right, left, hRight, hLeft, ?_⟩
    rw [joining, if_neg (by simp [hSide]),
      Sequence.generalCompare_converse]
    rfl

end Stated

end Tie

end Flwor

------------------------------------------------------------
-- Chains of Stages
------------------------------------------------------------

namespace Flwor

namespace Tree

/-
  The stages of a nested pipeline up to some stage, none of
  which depends on the rows outside.  The first one binds
  the run variable to one item in each row.
-/
inductive Chain
    (outer : List String)
    (run : String) : List String → Tree → Prop where
  | first
      {i p ps rest j q qs cs}
      (hStage : Aside outer []
        (.node i .forBind p ps
          (.node j .start q qs cs :: rest)))
      (hRun : binding? (.node i .forBind p ps
        (.node j .start q qs cs :: rest)) = some run) :
      Chain outer run
        (bound (.node i .forBind p ps
          (.node j .start q qs cs :: rest)))
        (.node i .forBind p ps
          (.node j .start q qs cs :: rest))
  | stage
      {names i k p ps input rest}
      (hInput : Chain outer run names input)
      (hStage :
        Aside outer names (.node i k p ps (input :: rest))) :
      Chain outer run
        (names ++ bound (.node i k p ps (input :: rest)))
        (.node i k p ps (input :: rest))

/-
  The stages of a nested pipeline with its tie to the rows
  outside, and the same stages without the selection that
  states it.
-/
inductive Correlated
    (outer : List String)
    (run : String)
    (tie : Tie outer) :
    List String → Tree → Tree → Prop where
  | here
      {p ps input predicate rest}
      (hInput : Chain outer run tie.boundBefore input)
      (hStated : tie.Stated predicate) :
      Correlated outer run tie tie.boundBefore
        (.node tie.selection .selection p ps
          (input :: predicate :: rest))
        input
  | after
      {names i k p ps input input' rest}
      (hInput : Correlated outer run tie names input input')
      (hStage :
        Aside outer names (.node i k p ps (input :: rest))) :
      Correlated outer run tie
        (names ++ bound (.node i k p ps (input :: rest)))
        (.node i k p ps (input :: rest))
        (.node i k p ps (input' :: rest))

variable {outer names : List String}
variable {run : String}
variable {tie : Tie outer}
variable {t t' : Tree}

namespace Aside

variable {i : NodeId}
variable {k : Kind}
variable {p : Payload}
variable {ps : Properties}
variable {input : Tree}
variable {rest : List Tree}
variable (hStage :
  Aside outer names (.node i k p ps (input :: rest)))

include hStage

theorem hasInput :
    k.hasInput ∧ k ≠ .groupBy := by
  rcases hStage.admitted with hKind | hKind | hKind <;>
    cases hKind <;> exact ⟨rfl, by simp⟩

/- What the stage binds does not depend on its input. -/
theorem bound_eq
    (input' : Tree) :
    bound (.node i k p ps (input' :: rest)) =
      bound (.node i k p ps (input :: rest)) := by
  rcases hStage.admitted with hKind | hKind | hKind <;>
    cases hKind <;> rfl

theorem visible_eq
    (input' : Tree) :
    visible (.node i k p ps (input' :: rest)) =
      input'.visible
        ++ bound (.node i k p ps (input :: rest)) := by
  rw [visible_input hStage.hasInput.1 hStage.hasInput.2,
    hStage.bound_eq]

end Aside

theorem Chain.visible_eq
    (hChain : Chain outer run names t) :
    t.visible = names := by
  induction hChain with
  | first hStage =>
      rw [hStage.visible_eq]
      simp [visible]
  | stage _ hStage ih => rw [hStage.visible_eq, ih]

theorem Chain.run_mem
    (hChain : Chain outer run names t) :
    run ∈ names := by
  induction hChain with
  | first _ hRun => simp [bound, kind, hRun]
  | stage _ _ ih => exact List.mem_append_left _ ih

namespace Correlated

variable (hCorrelated : Correlated outer run tie names t t')

include hCorrelated

theorem visible_eq :
    t.visible = names := by
  induction hCorrelated with
  | here hInput =>
      rw [visible_input rfl (by simp), hInput.visible_eq]
      simp [bound]
  | after _ hStage ih => rw [hStage.visible_eq, ih]

theorem visible_eq' :
    t'.visible = names := by
  induction hCorrelated with
  | here hInput => exact hInput.visible_eq
  | after _ hStage ih => rw [hStage.visible_eq, ih]

/- What is bound before the selection is bound at the end. -/
theorem before_subset :
    ∀ name ∈ tie.boundBefore, name ∈ names := by
  induction hCorrelated with
  | here => exact fun name hName => hName
  | after _ _ ih =>
      exact fun name hName =>
        List.mem_append_left _ (ih name hName)

theorem run_mem :
    run ∈ names := by
  induction hCorrelated with
  | here hInput => exact hInput.run_mem
  | after _ _ ih => exact List.mem_append_left _ ih

/- The keys read from their own sides only. -/
theorem rescopable_keys
    (hTree : t.Rescopable ∅) :
    tie.outerKey.Rescopable {n | n ∉ outer} ∧
      tie.innerKey.Rescopable {n | n ∈ outer} := by
  induction hCorrelated with
  | here _ hStated =>
      have hPredicate := hTree.child
        (List.mem_cons_of_mem _ List.mem_cons_self)
      have hOuter := hPredicate.child hStated.mem_children.1
      have hInner := hPredicate.child hStated.mem_children.2
      exact ⟨⟨hOuter.shaped, hOuter.lacks,
          fun name hName hNot => hNot (tie.outside name hName)⟩,
        ⟨hInner.shaped, hInner.lacks, tie.inside⟩⟩
  | after _ _ ih => exact ih (hTree.child List.mem_cons_self)

end Correlated

end Tree

end Flwor

------------------------------------------------------------
-- Scopes
------------------------------------------------------------

namespace Flwor

namespace Tree

variable {library : Library}
variable {outer names new : List String}
variable {run : String}
variable {tie : Tie outer}
variable {t t' : Tree}
variable {context handed gained : Set String}

/- A step in scopes that lose the outer names. -/
theorem Step.supplies_rescoped
    {stage : Tree → Tree}
    {e input : Tree}
    {grow : Env → Sequence → Option (List Env)}
    {read : Set String}
    (hStep : Step library stage new e grow)
    (hReads : ReadsFrom library False read e)
    (hE : e.Rescopable {n | n ∈ outer})
    (hHanded : ∀ name ∈ handed, name ∉ new → name ∈ read)
    (hInput : Supplies library False context
      (rescoped {n | n ∈ outer} gained read) input) :
    Supplies library False context
      (rescoped {n | n ∈ outer} gained handed)
      (stage input) :=
  hStep.supplies hInput (hReads.rescope hE)
    (fun name hName hNew => mem_rescoped_of_handed hName
      (fun hMem => hHanded name hMem hNew))

/- The stages of a chain do without the outer names. -/
theorem Chain.rescope
    (hChain : Chain outer run names t)
    (hTree : t.Rescopable ∅)
    (hSupplies : Supplies library False context handed t) :
    Supplies library False
      (rescoped {n | n ∈ outer} gained context)
      (rescoped {n | n ∈ outer} gained handed) t := by
  induction hChain generalizing handed with
  | first hStage _ =>
      rcases hStage.exists_step hTree hSupplies with
        ⟨read, e, grow, hStep, hStart, hReads, hE, hHanded⟩
      cases hStart with
      | start hRead =>
          refine hStep.supplies_rescoped hReads hE hHanded ?_
          exact .start (fun name hName =>
            mem_rescoped_of_handed hName (@hRead name))
  | stage _ hStage ih =>
      rcases hStage.exists_step hTree hSupplies with
        ⟨read, e, grow, hStep, hInput, hReads, hE, hHanded⟩
      exact hStep.supplies_rescoped hReads hE hHanded
        (ih (hTree.child List.mem_cons_self) hInput)

/-
  Without the selection the stages also do without the outer
  names.  They hand on what the inner key reads besides,
  where this is not bound again.
-/
theorem Correlated.exists_supplies
    (hCorrelated : Correlated outer run tie names t t')
    (hTree : t.Rescopable ∅)
    (hSupplies : Supplies library False context handed t) :
    ∃ read,
      ReadsFrom library False read tie.outerKey ∧
        ReadsFrom library False read tie.innerKey ∧
        (∀ name ∈ read, name ∉ tie.boundBefore →
          name ∈ context) ∧
        ∀ gained, Supplies library False
          (rescoped {n | n ∈ outer} gained context)
          (rescoped {n | n ∈ outer}
            (gained ∪ rescoped {n | n ∈ outer} gained read)
            handed) t' := by
  induction hCorrelated generalizing handed with
  | here hInput hStated =>
      cases hSupplies with
      | selection hRead hPredicate hReads hHanded =>
          cases hPredicate
          have hKeys := hStated.readsFrom hReads
          refine ⟨_, hKeys.1, hKeys.2, ?_, fun gained =>
            (hInput.rescope (hTree.child List.mem_cons_self)
              hRead).fewer ?_⟩
          · intro name hName hNew
            rw [← hInput.visible_eq] at hNew
            exact hRead.mem_context hName hNew
          · rintro name (⟨hName, hOuter⟩ | hGained | hName)
            · exact .inl ⟨hHanded hName, hOuter⟩
            · exact .inr hGained
            · exact hName
  | after _ hStage ih =>
      rcases hStage.exists_step hTree hSupplies with
        ⟨read, e, grow, hStep, hInput, hReads, hE, hHanded⟩
      rcases ih (hTree.child List.mem_cons_self) hInput with
        ⟨readKeys, hOuter, hInner, hContext, hAfter⟩
      exact ⟨readKeys, hOuter, hInner, hContext,
        fun gained => hStep.supplies_rescoped hReads hE
          hHanded (hAfter gained)⟩

end Tree

end Flwor

------------------------------------------------------------
-- Rows
------------------------------------------------------------

namespace Flwor

namespace Tree

variable {library : Library}
variable {outer names : List String}
variable {run : String}
variable {tie : Tie outer}
variable {t t' : Tree}
variable {context handed : Set String}
variable {row env : Env}

/- The rows of a chain differ in the outer names only. -/
theorem Chain.rows_eq
    (hChain : Chain outer run names t)
    (hTree : t.Rescopable ∅)
    (hSupplies : Supplies library False context handed t)
    (hRow : Env.AgreeOn {n | n ∉ outer} row env)
    {rows rows' : List Env}
    (hRows : t.rows library row = some rows)
    (hRows' : t.rows library env = some rows') :
    rows = rows'.map (row.under names) := by
  induction hChain generalizing handed rows rows' with
  | first hStage _ =>
      rcases hStage.exists_step hTree hSupplies with
        ⟨read, e, grow, hStep, _, hReads, hE, _⟩
      have hAll := hStep.rows_filtered hReads hE hRow
        (fun _ => true) (fun _ _ _ => rfl) ?_
        hRows hRows'
      · simpa [visible] using hAll
      · intro inputs inputs' hInputs hInputs'
        rw [Tree.rows] at hInputs hInputs'
        cases hInputs
        cases hInputs'
        simp [visible, Env.under_nil]
  | stage hInput hStage ih =>
      rcases hStage.exists_step hTree hSupplies with
        ⟨read, e, grow, hStep, hFed, hReads, hE, _⟩
      have hAll := hStep.rows_filtered hReads hE hRow
        (fun _ => true) (fun _ _ _ => rfl) ?_
        hRows hRows'
      · simpa [hInput.visible_eq] using hAll
      · intro inputs inputs' hInputs hInputs'
        simpa [hInput.visible_eq] using ih
          (hTree.child List.mem_cons_self) hFed hInputs
          hInputs'

/-
  Where an outer key has a value, the rows of the stages
  with the selection are those of the stages without it
  whose key matches, below the outer row.
-/
theorem Correlated.rows_filtered
    (hCorrelated : Correlated outer run tie names t t')
    (hTree : t.Rescopable ∅)
    (hSupplies : Supplies library False context handed t)
    (hDisjoint : ∀ name ∈ names, name ∉ outer)
    (hBefore : ∀ name ∈ tie.innerKey.references,
      name ∈ names → name ∈ tie.boundBefore)
    (hRow : Env.AgreeOn {n | n ∉ outer} row env)
    {key : Sequence}
    (hKey : tie.outerKey.value library row = some key)
    {rows rows' : List Env}
    (hRows : t.rows library row = some rows)
    (hRows' : t'.rows library env = some rows') :
    rows = (rows'.filter (tie.holds library key)).map
      (row.under names) := by
  have hKeys := hCorrelated.rescopable_keys hTree
  rcases hCorrelated.exists_supplies hTree hSupplies with
    ⟨read, hOuter, hInner, -, -⟩
  induction hCorrelated generalizing handed rows rows' with
  | @here p ps input predicate rest hInput hStated =>
      have hChild := hTree.child List.mem_cons_self
      have hStep : Step library
          (fun t => .node tie.selection .selection p ps
            (t :: predicate :: rest))
          (bound (.node tie.selection .selection p ps
            (input :: predicate :: rest))) predicate _ :=
        step_selection rfl
      cases hSupplies with
      | selection hFed _ _ _ =>
          rw [hStep.rows, Option.bind_eq_some_iff] at hRows
          rcases hRows with ⟨inputs, hInputs, hRows⟩
          rw [hInput.rows_eq hChild hFed hRow hInputs hRows',
            Option.map_eq_some_iff] at hRows
          rcases hRows with ⟨rowss, hRowss, rfl⟩
          refine flatten_chosen ?_ hRowss
          intro x hX ys hYs
          simp only [Option.bind_eq_some_iff,
            Option.map_eq_some_iff] at hYs
          rcases hYs with ⟨s, hS, holds, hHolds, rfl⟩
          rcases hStated.exists_values hS with
            ⟨key', other, hKey', hOther, hTruth⟩
          -- The outer key is as outside, the inner one as
          -- in the context.
          have hSameKey : SameValue library False tie.outerKey
              (row.under tie.boundBefore x) tie.outerKey
              row := by
            refine (hOuter.without hKeys.1).sameValue ?_
            intro name hName
            have hIn : name ∈ outer := not_not.mp hName.2
            have hNot : name ∉ tie.boundBefore :=
              fun hMem => hDisjoint name hMem hIn
            simp [Env.under, hNot]
          have hAgree := agreeOn_under hRow hRows' hX
          rw [hInput.visible_eq] at hAgree
          have hSameOther : SameValue library False
              tie.innerKey (row.under tie.boundBefore x)
              tie.innerKey x :=
            (hInner.without hKeys.2).sameValue
              (hAgree.mono (fun name hName => hName.2))
          rw [hSameKey.eq_of_strict, hKey] at hKey'
          cases hKey'
          rw [hSameOther.eq_of_strict] at hOther
          rw [hHolds] at hTruth
          cases hTruth
          simp [Tie.holds, hOther]
  | @after names' i k p ps input input' rest hInput hStage
      ih =>
      rcases hStage.exists_step hTree hSupplies with
        ⟨readStep, e, grow, hStep, hFed, hReads, hE, _⟩
      -- What the stage binds is not read by the inner key.
      have hUnread : tie.innerKey.Rescopable {n | n ∈
          bound (.node i k p ps (input :: rest))} :=
        { shaped := hKeys.2.shaped
          lacks := hKeys.2.lacks
          unread := fun name hName hNew =>
            hStage.new name hNew (hInput.before_subset name
              (hBefore name hName
                (List.mem_append_right _ hNew))) }
      have hAll := hStep.rows_filtered hReads hE hRow
        (tie.holds library key) ?_ ?_ hRows hRows'
      · rwa [hInput.visible_eq'] at hAll
      · intro a b hAgree
        have hSame : SameValue library False tie.innerKey a
            tie.innerKey b :=
          (hInner.without hUnread).sameValue
            (hAgree.mono (fun name hName => hName.2))
        rw [Tie.holds, Tie.holds, hSame.eq_of_strict]
      · intro inputs inputs' hInputs hInputs'
        rw [hInput.visible_eq']
        exact ih (hTree.child List.mem_cons_self) hFed
          (fun name hMem => hDisjoint name
            (List.mem_append_left _ hMem))
          (fun name hName hMem => hBefore name hName
            (List.mem_append_left _ hMem))
          hInputs hInputs'

end Tree

end Flwor
