import Flwor.Library
import Flwor.Operator.Arrange
import Flwor.Operator.Join
import Flwor.Stage.Bindings

/-
  This file defines what a plan tree means, without slots,
  operators or cursors: an expression has a value in an
  environment of named values, and a stage turns the
  environment of its pipeline into environments, one for
  each row.

  A name denotes its latest binding.  A nested pipeline
  starts from the environment of the expression around it.
  The annotation `project` means nothing, and `skipSort` no
  more than another order of the rows that match.

  Key definitions include:
    * `Env`
    * `Env.bind`, `Env.bindAll`
    * `Env.under`, `Env.padded`
    * `Comparison.matched?`, `Comparison.found?`
    * `mergeGroups`
    * `Tree.value`
    * `Tree.rows`
-/

------------------------------------------------------------
-- Environments
------------------------------------------------------------

namespace Flwor

/- The value of each name that is in scope. -/
abbrev Env :=
  String → Option Sequence

namespace Env

/- The environment in which a name has a new value. -/
def bind
    (env : Env)
    (name : String)
    (value : Sequence) : Env :=
  fun n => if n = name then some value else env n

@[simp] theorem bind_apply
    (env : Env)
    (name : String)
    (value : Sequence)
    (other : String) :
    env.bind name value other =
      if other = name then some value else env other :=
  rfl

/- Bind a name that may be missing. -/
def bindOption
    (env : Env)
    (name : Option String)
    (value : Sequence) : Env :=
  match name with
  | none => env
  | some name => env.bind name value

/- Bind names one after the other; the latest one wins. -/
def bindAll
    (env : Env)
    (bindings : List (String × Sequence)) : Env :=
  bindings.foldl (fun env b => env.bind b.1 b.2) env

theorem bindAll_cons
    (env : Env)
    (name : String)
    (value : Sequence)
    (rest : List (String × Sequence)) :
    env.bindAll ((name, value) :: rest) =
      (env.bind name value).bindAll rest :=
  rfl

/-
  The environment in which some names are as in another one.
-/
def under
    (env : Env)
    (names : List String)
    (other : Env) : Env :=
  fun n => if n ∈ names then other n else env n

/- The environment in which some names are empty. -/
def padded
    (env : Env)
    (names : List String) : Env :=
  fun n => if n ∈ names then some [] else env n

/-
  Whether the variable that a stage checks is empty; a stage
  without a check is never disabled.
-/
def disabled?
    (env : Env)
    (properties : Properties) : Option Bool :=
  match properties.var? Properties.check with
  | none => some false
  | some name => (env name).map List.isEmpty

/- The environments that bind each of some items. -/
def bindItems
    (env : Env)
    (var : String)
    (position : Option String)
    (items : Sequence) : List Env :=
  items.zipIdx.map (fun p =>
    (env.bind var [p.1]).bindOption position
      [.int (p.2 + 1)])

/- The environment that binds nothing. -/
def bindNothing
    (env : Env)
    (var : String)
    (position : Option String) : Env :=
  (env.bind var []).bindOption position []

/- The environments in which a name is the row's number. -/
def numbered
    (var : String)
    (envs : List Env) : List Env :=
  (envs.zipIdx 1).map (fun p => p.1.bind var [.int p.2])

end Env

end Flwor

------------------------------------------------------------
-- Values of Operators
------------------------------------------------------------

namespace Flwor

namespace Sequence

/- At most one item of a value. -/
def atMostOne?
    (s : Sequence) : Option (Option Item) :=
  (s.single? "singleton operand").toOption

/- The bound of a range. -/
def bound?
    (s : Sequence) : Option (Option Int) :=
  s.atMostOne?.bind (fun item =>
    match item with
    | none => some none
    | some (.int n) => some (some n)
    | some _ => none)

/- The integers from one to another. -/
def integers
    (low high : Int) : Sequence :=
  (List.range (high + 1 - low).toNat).map
    (fun (i : Nat) => .int (low + i))

/- The range between two bounds, empty if one is missing. -/
def range?
    (s t : Sequence) : Option Sequence := do
  let low ← s.bound?
  let high ← t.bound?
  match low, high with
  | some a, some b => some (integers a b)
  | _, _ => some []

/- Calculate with two values of at most one item. -/
def arithmetic?
    (op : ArithmeticOp)
    (s t : Sequence) : Option Sequence := do
  let a ← s.atMostOne?
  let b ← t.atMostOne?
  match a, b with
  | some a, some b =>
      (op.apply a b).toOption.map (fun c => [c])
  | _, _ => some []

/- The effective boolean value. -/
def truth?
    (s : Sequence) : Option Bool :=
  s.booleanValue.toOption

end Sequence

namespace Comparison

/- The value of a comparison, which may be empty. -/
def value?
    (c : Comparison)
    (s t : Sequence) : Option Sequence :=
  (c.apply s t).toOption.map (fun answer =>
    (answer.map Item.bool).toList)

/- Whether two values compare true. -/
def matches?
    (c : Comparison)
    (s t : Sequence) : Option Bool :=
  (c.apply s t).toOption.map (fun answer =>
    answer = some true)

variable {α : Type}

/- The entries whose key a left key matches, in order. -/
def matched?
    (c : Comparison)
    (key : Sequence)
    (keyed : List (Sequence × α)) : Option (List α) :=
  (keyed.mapM (fun entry =>
    (c.matches? key entry.1).map (fun holds =>
      if holds then [entry.2] else []))).map List.flatten

/-
  The same entries.  Where nobody observes their order, it
  is that of a look-up structure.
-/
def found?
    (c : Comparison)
    (skipSort : Bool)
    (key : Sequence)
    (keyed : List (Sequence × α)) : Option (List α) :=
  if skipSort then
    ((Probe.build (JoinStrategy.ofComparison c)
        (keyed.map Prod.fst)).matching c true
      key).toOption.map (fun rows =>
        rows.filterMap (fun i =>
          (keyed.map Prod.snd)[i]?))
  else c.matched? key keyed

end Comparison

/-
  The groups of entries that belong together, in the order
  of their first entries: its keys, and the values of all.
-/
def mergeGroups
    (width : Nat)
    (entries : List GroupEntry) : List GroupEntry :=
  (entries.map GroupEntry.identity).eraseDups.filterMap
    (fun identity =>
      let group := entries.filter (fun e =>
        e.identity == identity)
      group.head?.map (fun first =>
        ⟨first.keys, (List.range width).map (gather group)⟩))

/- Sort by keys; what has equal keys keeps its order. -/
def sortKeyed
    {α : Type}
    (orders : List SortOrder)
    (keyed : List (List (Option Item) × α)) : List α :=
  (keyed.mergeSort (fun a b =>
    compareKeys orders a.1 b.1 != .gt)).map Prod.snd

end Flwor

------------------------------------------------------------
-- Trees
------------------------------------------------------------

namespace Flwor

namespace Tree

variable (library : Library)

mutual

/- The value of an expression. -/
def value : Tree → Env → Option Sequence
  | .node _ k p _ cs, env =>
      match k with
      | .literal => p.item?.map (fun item => [item])
      | .emptySequence => some []
      | .sequenceExpr => do
          let parts ← values cs env
          return parts.flatten
      | .rangeExpr => do
          let low ← valueAt 0 cs env
          let high ← valueAt 1 cs env
          Sequence.range? low high
      | .arithmeticExpr => do
          let op ← p.arithmetic?
          let s ← valueAt 0 cs env
          let t ← valueAt 1 cs env
          Sequence.arithmetic? op s t
      | .comparisonExpr => do
          let c ← p.comparison?
          let s ← valueAt 0 cs env
          let t ← valueAt 1 cs env
          c.value? s t
      | .andExpr => do
          let s ← valueAt 0 cs env
          if ← s.truth? then
            let t ← valueAt 1 cs env
            return [.bool (← t.truth?)]
          else return [.bool false]
      | .orExpr => do
          let s ← valueAt 0 cs env
          if ← s.truth? then
            return [.bool true]
          else
            let t ← valueAt 1 cs env
            return [.bool (← t.truth?)]
      | .ifExpr => do
          let s ← valueAt 0 cs env
          if ← s.truth? then valueAt 1 cs env
          else valueAt 2 cs env
      | .functionCall => do
          let name ← p.label?
          let arguments ← values cs env
          let f ← (library.resolve name cs.length).toOption
          (f.apply arguments).toOption
      | .variableRef => do
          let name ← p.var?
          env name
      | .pipeExpr => pipelineValue cs env
      | _ => none

/- The values of several expressions. -/
def values : List Tree → Env → Option (List Sequence)
  | [], _ => some []
  | t :: ts, env => do
      let s ← value t env
      let rest ← values ts env
      return s :: rest

/- The value of the expression that so many precede. -/
def valueAt : Nat → List Tree → Env → Option Sequence
  | _, [], _ => none
  | 0, t :: _, env => value t env
  | skip + 1, _ :: ts, env => valueAt skip ts env

/- The value of the last of several expressions. -/
def lastValue : List Tree → Env → Option Sequence
  | [], _ => none
  | [t], env => value t env
  | _ :: t :: ts, env => lastValue (t :: ts) env

/-
  The value of a pipeline: of its result on each row, in
  order.
-/
def pipelineValue : List Tree → Env → Option Sequence
  | .node _ .finish _ _ cs :: _, env => do
      let rows ← headRows cs env
      let parts ← rows.mapM (valueAt 1 cs)
      return parts.flatten
  | _, _ => none

/- The rows of the stage that comes first. -/
def headRows : List Tree → Env → Option (List Env)
  | [], _ => none
  | t :: _, context => rows t context

/- The sort keys of order specs. -/
def sortValues :
    List Tree → Env → Option (List (Option Item))
  | [], _ => some []
  | .node _ _ _ _ cs :: ts, env => do
      let s ← valueAt 0 cs env
      let key ← s.atMostOne?
      let keys ← sortValues ts env
      return key :: keys

/- The sort keys of the specs that follow an input. -/
def tailSortValues :
    List Tree → Env → Option (List (Option Item))
  | [], _ => some []
  | _ :: ts, env => sortValues ts env

/-
  The rows of a join: each row of the left input with the
  rows of the right input whose key compares true.  A left
  join pads a row without a match.
-/
def joinRows
    (properties : Properties) :
    List Tree → Env → Option (List Env)
  | [l, .node _ _ p _ keys, r], context => do
      let comparison ← p.comparison?
      let lefts ← rows l context
      let rights ← rows r context
      let keyed ← rights.mapM (fun right =>
        (valueAt 1 keys right).map (fun key => (key, right)))
      let joined ← lefts.mapM (fun left => do
        let key ← valueAt 0 keys left
        let found ← comparison.found?
          (properties.flag Properties.skipSort) key keyed
        if found.isEmpty
            && properties.flag Properties.leftJoin then
          return [left.padded r.visible]
        else
          return found.map (left.under r.visible))
      return joined.flatten
  | _, _ => none

/- The rows of a stage in the environment of its pipeline. -/
def rows : Tree → Env → Option (List Env)
  | .node i k p ps cs, context =>
      let self := Tree.node i k p ps cs
      match k with
      | .start => some [context]
      | .forBind => do
          let input ← headRows cs context
          let var ← self.binding?
          let bound ← input.mapM (fun row => do
            if ← row.disabled? ps then
              return [row.bindNothing var self.position?]
            else
              let items ← lastValue cs row
              return row.bindItems var self.position? items)
          return bound.flatten
      | .letBind => do
          let input ← headRows cs context
          let var ← self.binding?
          input.mapM (fun row => do
            if ← row.disabled? ps then
              return row.bind var []
            else
              let s ← valueAt 2 cs row
              return row.bind var s)
      | .selection => do
          let input ← headRows cs context
          let kept ← input.mapM (fun row => do
            let s ← valueAt 1 cs row
            return if ← s.truth? then [row] else [])
          return kept.flatten
      | .orderBy => do
          let input ← headRows cs context
          let orders ← (cs.drop 1).mapM (fun spec =>
            spec.payload.order?)
          let keyed ← input.mapM (fun row =>
            (tailSortValues cs row).map (fun keys =>
              (keys, row)))
          return sortKeyed orders keyed
      | .groupBy => do
          let input ← headRows cs context
          let entries ← input.mapM (fun row => do
            let keys ← self.groupKeys.mapM row
            let values ← self.groupAggregates.mapM
              (fun a => row a.2)
            return (⟨keys, values⟩ : GroupEntry))
          let groups :=
            mergeGroups self.groupAggregates.length entries
          return groups.map (fun group =>
            (context.bindAll
              (self.groupKeys.zip group.keys)).bindAll
                ((self.groupAggregates.map Prod.fst).zip
                  group.values))
      | .count => do
          let input ← headRows cs context
          let var ← self.binding?
          return Env.numbered var input
      | .join => joinRows ps cs context
      | _ => none

end

end Tree

end Flwor

------------------------------------------------------------
-- Parts of a Tree
------------------------------------------------------------

namespace Flwor

namespace Tree

/- What holds of a node if it holds of its children. -/
theorem induction
    {motive : Tree → Prop}
    (node :
      ∀ i k p ps cs, (∀ c ∈ cs, motive c) →
        motive (.node i k p ps cs)) :
    ∀ t, motive t
  | .node i k p ps cs =>
      node i k p ps cs (fun c _ => induction node c)

variable (library : Library)

theorem valueAt_eq
    (index : Nat)
    (cs : List Tree)
    (env : Env) :
    valueAt library index cs env =
      cs[index]?.bind (fun t => t.value library env) := by
  induction cs generalizing index with
  | nil => cases index <;> simp [valueAt]
  | cons c rest ih =>
      cases index with
      | zero => simp [valueAt]
      | succ index => simp [valueAt, ih]

theorem values_eq
    (cs : List Tree)
    (env : Env) :
    values library cs env =
      cs.mapM (fun t => t.value library env) := by
  induction cs with
  | nil => simp [values]
  | cons c rest ih => simp [values, ih]

theorem lastValue_eq
    (cs : List Tree)
    (env : Env) :
    lastValue library cs env =
      cs.getLast?.bind (fun t => t.value library env) := by
  induction cs with
  | nil => simp [lastValue]
  | cons c rest ih =>
      cases rest with
      | nil => simp [lastValue]
      | cons d more => simp [lastValue, ih]

/- The sort key of one order spec. -/
def sortValue
    (spec : Tree)
    (env : Env) : Option (Option Item) :=
  (spec.children[0]?.bind (fun t =>
    t.value library env)).bind Sequence.atMostOne?

theorem sortValues_eq
    (specs : List Tree)
    (env : Env) :
    sortValues library specs env =
      specs.mapM (fun spec => spec.sortValue library env) := by
  induction specs with
  | nil => simp [sortValues]
  | cons spec rest ih =>
      rcases spec with ⟨i, k, p, ps, cs⟩
      simp only [sortValues, List.mapM_cons, ih, valueAt_eq,
        sortValue, children]
      cases cs[0]?.bind (fun t => t.value library env) with
      | none => rfl
      | some s => rfl

end Tree

end Flwor
