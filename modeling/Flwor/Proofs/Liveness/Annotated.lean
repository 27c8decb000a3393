import Flwor.Proofs.Liveness.Demand

/-
  Trees whose stages are annotated with projections.

  An annotation changes neither what a tree binds nor its
  value, which does not depend on projections.

  Key definitions include:
    * `Notes`
    * `Tree.annotate`

  Key theorems include:
    * `Tree.visible_annotate`
    * `Tree.value_annotate`
-/

------------------------------------------------------------
-- Properties
------------------------------------------------------------

namespace Flwor

/- The names with which each stage is annotated. -/
abbrev Notes :=
  NodeId → Option (List String)

namespace Properties

theorem get?_put_self
    (key : String)
    (value : Property)
    (ps : Properties) :
    (put key value ps).get? key = some value := by
  unfold get?
  induction ps with
  | nil => simp [put]
  | cons entry rest ih =>
      rcases entry with ⟨k, v⟩
      rw [put]
      split
      · simp
      · rename_i hKey
        split
        · simp
        · rw [List.lookup_cons, ih]
          have hBeq : (key == k) = false := by
            simp [Ne.symm hKey]
          rw [hBeq]

theorem get?_put_of_ne
    {key other : String}
    (hOther : other ≠ key)
    (value : Property)
    (ps : Properties) :
    (put key value ps).get? other = ps.get? other := by
  have hBeq : (other == key) = false := by
    simp [hOther]
  unfold get?
  induction ps with
  | nil => simp [put, hOther]
  | cons entry rest ih =>
      rcases entry with ⟨k, v⟩
      rw [put]
      split
      · rename_i hKey
        subst hKey
        simp [List.lookup_cons, hBeq]
      · split
        · simp [List.lookup_cons, hBeq]
        · rw [List.lookup_cons, List.lookup_cons, ih]

/- The properties of a node, with its annotation. -/
def annotate
    (ps : Properties)
    (names : Option (List String)) : Properties :=
  match names with
  | some names => put project (.vars names) ps
  | none => ps

theorem vars?_annotate
    (ps : Properties)
    (names : List String) :
    (annotate ps (some names)).vars? project =
      some names := by
  rw [vars?, annotate, get?_put_self]

theorem get?_annotate
    {key : String}
    (hKey : key ≠ project)
    (ps : Properties)
    (names : Option (List String)) :
    (annotate ps names).get? key = ps.get? key := by
  cases names with
  | none => rfl
  | some names => exact get?_put_of_ne hKey _ ps

@[simp] theorem check_annotate
    (ps : Properties)
    (names : Option (List String)) :
    (annotate ps names).var? check = ps.var? check := by
  unfold var?
  rw [get?_annotate (by decide)]

@[simp] theorem leftJoin_annotate
    (ps : Properties)
    (names : Option (List String)) :
    (annotate ps names).flag leftJoin = ps.flag leftJoin := by
  unfold flag
  rw [get?_annotate (by decide)]

@[simp] theorem skipSort_annotate
    (ps : Properties)
    (names : Option (List String)) :
    (annotate ps names).flag skipSort = ps.flag skipSort := by
  unfold flag
  rw [get?_annotate (by decide)]

end Properties

end Flwor

------------------------------------------------------------
-- Trees
------------------------------------------------------------

namespace Flwor

namespace Tree

variable (notes : Notes)

mutual

/- The tree with annotations. -/
def annotate : Tree → Tree
  | .node i k p ps cs =>
      .node i k p (ps.annotate (notes i)) (annotateAll cs)

/- Several trees with annotations. -/
def annotateAll : List Tree → List Tree
  | [] => []
  | t :: ts => annotate t :: annotateAll ts

end

theorem annotateAll_eq
    (ts : List Tree) :
    annotateAll notes ts = ts.map (annotate notes) := by
  induction ts with
  | nil => rfl
  | cons t rest ih => rw [annotateAll, ih, List.map_cons]

@[simp] theorem id_annotate
    (t : Tree) :
    (t.annotate notes).id = t.id := by
  rcases t with ⟨i, k, p, ps, cs⟩
  rfl

@[simp] theorem kind_annotate
    (t : Tree) :
    (t.annotate notes).kind = t.kind := by
  rcases t with ⟨i, k, p, ps, cs⟩
  rfl

@[simp] theorem payload_annotate
    (t : Tree) :
    (t.annotate notes).payload = t.payload := by
  rcases t with ⟨i, k, p, ps, cs⟩
  rfl

@[simp] theorem children_annotate
    (t : Tree) :
    (t.annotate notes).children =
      t.children.map (annotate notes) := by
  rcases t with ⟨i, k, p, ps, cs⟩
  exact annotateAll_eq notes cs

theorem properties_annotate
    (t : Tree) :
    (t.annotate notes).properties =
      t.properties.annotate (notes t.id) := by
  rcases t with ⟨i, k, p, ps, cs⟩
  rfl

@[simp] theorem var?_annotate
    (t : Tree) :
    (t.annotate notes).var? = t.var? := by
  rw [var?, var?, payload_annotate]

@[simp] theorem childVar?_annotate
    (t : Tree)
    (index : Nat) :
    (t.annotate notes).childVar? index =
      t.childVar? index := by
  rw [childVar?, childVar?, children_annotate,
    List.getElem?_map]
  cases t.children[index]? <;> simp

@[simp] theorem binding?_annotate
    (t : Tree) :
    (t.annotate notes).binding? = t.binding? := by
  simp [binding?]

@[simp] theorem position?_annotate
    (t : Tree) :
    (t.annotate notes).position? = t.position? := by
  simp only [position?, kind_annotate, children_annotate,
    List.getElem?_map]
  cases t.children[2]? with
  | none => rfl
  | some c =>
      simp only [Option.map_some, Option.filter_some,
        kind_annotate]
      by_cases hKind : c.kind = .posVariable
      · simp [hKind]
      · simp [hKind]

@[simp] theorem groupKeys_annotate
    (t : Tree) :
    (t.annotate notes).groupKeys = t.groupKeys := by
  simp [groupKeys, ← List.map_tail, List.filter_map,
    List.filterMap_map, Function.comp_def]

@[simp] theorem groupAggregates_annotate
    (t : Tree) :
    (t.annotate notes).groupAggregates =
      t.groupAggregates := by
  simp [groupAggregates, ← List.map_tail, List.filter_map,
    List.filterMap_map, Function.comp_def]

@[simp] theorem bound_annotate
    (t : Tree) :
    (t.annotate notes).bound = t.bound := by
  simp [bound]

mutual

@[simp] theorem visible_annotate :
    ∀ t : Tree, (t.annotate notes).visible = t.visible
  | .node i k p ps cs => by
      have hBound := bound_annotate notes (.node i k p ps cs)
      rw [annotate] at hBound ⊢
      cases k <;>
        simp [visible, hBound, visibleHead_annotateAll cs,
          visibleLast_annotateAll cs]

theorem visibleHead_annotateAll :
    ∀ ts : List Tree,
      visibleHead (annotateAll notes ts) = visibleHead ts
  | [] => rfl
  | t :: ts => by
      rw [annotateAll, visibleHead, visibleHead,
        visible_annotate t]

theorem visibleLast_annotateAll :
    ∀ ts : List Tree,
      visibleLast (annotateAll notes ts) = visibleLast ts
  | [] => rfl
  | [t] => by
      rw [annotateAll, annotateAll, visibleLast, visibleLast,
        visible_annotate t]
  | t :: u :: ts => by
      have hRest := visibleLast_annotateAll (u :: ts)
      rw [annotateAll] at hRest ⊢
      rw [annotateAll, visibleLast, hRest, visibleLast]

end

end Tree

end Flwor

------------------------------------------------------------
-- Values
------------------------------------------------------------

namespace Flwor

namespace Tree

variable (library : Library)
variable (notes : Notes)

theorem disabled?_annotate
    (env : Env)
    (ps : Properties)
    (names : Option (List String)) :
    env.disabled? (ps.annotate names) = env.disabled? ps := by
  rw [Env.disabled?, Env.disabled?,
    Properties.check_annotate]

mutual

/- A projection says nothing about the value. -/
theorem value_annotate :
    ∀ (t : Tree) (env : Env),
      value library (t.annotate notes) env =
        value library t env
  | .node i k p ps cs, env => by
      have hLength : (annotateAll notes cs).length =
          cs.length := by
        rw [annotateAll_eq, List.length_map]
      rw [annotate]
      cases k <;>
        simp only [value, values_annotateAll cs,
          valueAt_annotateAll _ cs,
          pipelineValue_annotateAll cs, hLength]

theorem values_annotateAll :
    ∀ (ts : List Tree) (env : Env),
      values library (annotateAll notes ts) env =
        values library ts env
  | [], env => rfl
  | t :: ts, env => by
      rw [annotateAll, values, values, value_annotate t,
        values_annotateAll ts]

theorem valueAt_annotateAll :
    ∀ (index : Nat) (ts : List Tree) (env : Env),
      valueAt library index (annotateAll notes ts) env =
        valueAt library index ts env
  | 0, [], env => rfl
  | _ + 1, [], env => rfl
  | 0, t :: ts, env => by
      rw [annotateAll, valueAt, valueAt, value_annotate t]
  | index + 1, t :: ts, env => by
      rw [annotateAll, valueAt, valueAt,
        valueAt_annotateAll index ts]

theorem lastValue_annotateAll :
    ∀ (ts : List Tree) (env : Env),
      lastValue library (annotateAll notes ts) env =
        lastValue library ts env
  | [], env => rfl
  | [t], env => by
      rw [annotateAll, annotateAll, lastValue, lastValue,
        value_annotate t]
  | t :: u :: ts, env => by
      have hRest := lastValue_annotateAll (u :: ts) env
      rw [annotateAll] at hRest ⊢
      rw [annotateAll, lastValue, hRest, lastValue]

theorem pipelineValue_annotateAll :
    ∀ (ts : List Tree) (env : Env),
      pipelineValue library (annotateAll notes ts) env =
        pipelineValue library ts env
  | [], env => rfl
  | .node i k p ps cs :: ts, env => by
      rw [annotateAll, annotate]
      by_cases hKind : k = .finish
      · subst hKind
        have hResult :
            valueAt library 1 (annotateAll notes cs) =
              valueAt library 1 cs :=
          funext (valueAt_annotateAll 1 cs)
        rw [pipelineValue, pipelineValue,
          headRows_annotateAll cs, hResult]
      · cases k <;>
          first
          | rfl
          | exact (hKind rfl).elim

theorem headRows_annotateAll :
    ∀ (ts : List Tree) (context : Env),
      headRows library (annotateAll notes ts) context =
        headRows library ts context
  | [], context => rfl
  | t :: ts, context => by
      rw [annotateAll, headRows, headRows, rows_annotate t]

theorem sortValues_annotateAll :
    ∀ (ts : List Tree) (env : Env),
      sortValues library (annotateAll notes ts) env =
        sortValues library ts env
  | [], env => rfl
  | .node i k p ps cs :: ts, env => by
      rw [annotateAll, annotate, sortValues, sortValues,
        valueAt_annotateAll 0 cs, sortValues_annotateAll ts]

theorem tailSortValues_annotateAll :
    ∀ (ts : List Tree) (env : Env),
      tailSortValues library (annotateAll notes ts) env =
        tailSortValues library ts env
  | [], env => rfl
  | t :: ts, env => by
      rw [annotateAll, tailSortValues, tailSortValues,
        sortValues_annotateAll ts]

theorem joinRows_annotateAll :
    ∀ (ps : Properties) (names : Option (List String))
      (ts : List Tree) (context : Env),
      joinRows library (ps.annotate names)
          (annotateAll notes ts) context =
        joinRows library ps ts context
  | ps, names, [l, .node i k p qs keys, r], context => by
      simp only [annotateAll, annotate, joinRows,
        rows_annotate l, rows_annotate r,
        valueAt_annotateAll _ keys, visible_annotate,
        Properties.leftJoin_annotate,
        Properties.skipSort_annotate]
  | ps, names, [], context => rfl
  | ps, names, [_], context => rfl
  | ps, names, [_, .node _ _ _ _ _], context => rfl
  | ps, names, _ :: .node _ _ _ _ _ :: _ :: _ :: _,
      context => rfl

theorem rows_annotate :
    ∀ (t : Tree) (context : Env),
      rows library (t.annotate notes) context =
        rows library t context
  | .node i k p ps cs, context => by
      have hBinding :=
        binding?_annotate notes (.node i k p ps cs)
      have hPosition :=
        position?_annotate notes (.node i k p ps cs)
      have hKeys :=
        groupKeys_annotate notes (.node i k p ps cs)
      have hAggregates :=
        groupAggregates_annotate notes (.node i k p ps cs)
      have hOrders : ((annotateAll notes cs).drop 1).mapM
            (fun spec => spec.payload.order?) =
          (cs.drop 1).mapM
            (fun spec => spec.payload.order?) := by
        rw [annotateAll_eq, ← List.map_drop, List.mapM_map]
        simp [Function.comp_def]
      rw [annotate] at hBinding hPosition
      rw [annotate] at hKeys hAggregates
      rw [annotate]
      cases k <;>
        simp only [rows, hBinding, hPosition, hKeys,
          hAggregates, hOrders, headRows_annotateAll cs,
          lastValue_annotateAll cs, valueAt_annotateAll _ cs,
          tailSortValues_annotateAll cs,
          joinRows_annotateAll, disabled?_annotate]

end

end Tree

end Flwor
