import Mathlib.Data.Set.Basic
import Flwor.Liveness.Analysis
import Flwor.Proofs.Shapes

/-
  The names that the analysis of live bindings looks up.

  An expression looks up names around it; a stage, with
  everything that comes after it, looks up names in the
  context of its pipeline.  Both are given here as sets.

  Key definitions include:
    * `Tree.reads`
    * `Tree.lookups`
    * `Tree.wants`
    * `Tree.ExprDemands`
    * `Tree.StageDemands`

  Key theorems include:
    * `Tree.lookups_input`
-/

------------------------------------------------------------
-- Look-ups
------------------------------------------------------------

namespace Flwor

namespace Tree

/- What the right input of a join has to provide. -/
def rightShare
    (rightKey wanted missing : Set String) : Set String :=
  {n | n ∈ rightKey ∨ n ∈ wanted ∧ n ∉ missing}

/- What the left input of a join has to provide. -/
def leftShare
    (leftKey wanted share : Set String) : Set String :=
  {n | n ∈ leftKey ∨ n ∈ wanted ∧ n ∉ share}

/-
  The names that nothing between the inputs and the rest of
  the pipeline binds: inputs bind what they were asked for
  and did not miss.
-/
def unprovided
    (leftShare leftMissing rightShare rightMissing :
      Set String) : Set String :=
  {n | ¬(n ∈ leftShare ∧ n ∉ leftMissing) ∧
    ¬(n ∈ rightShare ∧ n ∉ rightMissing)}

mutual

/- The names that an expression looks up around it. -/
def reads : Tree → Set String
  | .node _ k p _ cs =>
      match k with
      | .variableRef => {n | p.var? = some n}
      | .contextItemExpr => {n | n = Analysis.contextItem}
      | .pipeExpr => pipeReads cs
      | .pathExpr => pathReads cs
      | .filterExpr => filterReads cs
      | .quantifiedExpr => quantifiedReads cs
      | .typeSwitch => caseReads cs
      | .tryCatchExpr => caseReads cs
      | .transformExpr =>
          copyReads
            (readsFrom
              (cs.filter (fun c =>
                c.kind = .copyBinding)).length cs) cs
      | _ => readsAll cs

/- The names that several expressions look up. -/
def readsAll : List Tree → Set String
  | [] => ∅
  | t :: ts => {n | n ∈ reads t ∨ n ∈ readsAll ts}

/- The names that a nested pipeline looks up. -/
def pipeReads : List Tree → Set String
  | .node _ .finish _ _ (tail :: rest) :: _ =>
      lookups tail (readsAt 0 rest)
  | _ => ∅

/- The names that the expression at a place looks up. -/
def readsAt : Nat → List Tree → Set String
  | _, [] => ∅
  | 0, t :: _ => reads t
  | skip + 1, _ :: ts => readsAt skip ts

/- The names that all but some expressions look up. -/
def readsFrom : Nat → List Tree → Set String
  | _, [] => ∅
  | 0, t :: ts => {n | n ∈ reads t ∨ n ∈ readsFrom 0 ts}
  | skip + 1, _ :: ts => readsFrom skip ts

/- The names that the last expression looks up. -/
def lastReads : List Tree → Set String
  | [] => ∅
  | [t] => reads t
  | _ :: t :: ts => lastReads (t :: ts)

/- The names that a path looks up. -/
def pathReads : List Tree → Set String
  | [] => ∅
  | base :: steps => {n | n ∈ reads base ∨ n ∈ stepReads steps}

/- The names that the predicates of steps look up. -/
def stepReads : List Tree → Set String
  | [] => ∅
  | .node _ _ _ _ parts :: rest =>
      {n | n ∈ readsFrom 2 parts ∧
          n ∉ [Analysis.contextItem] ∨
        n ∈ stepReads rest}

/- The names that a filter looks up. -/
def filterReads : List Tree → Set String
  | [] => ∅
  | base :: predicates =>
      {n | n ∈ reads base ∨
        n ∈ readsAll predicates ∧ n ∉ Analysis.focus}

/- The names that a quantified expression looks up. -/
def quantifiedReads : List Tree → Set String
  | [] => ∅
  | [condition] => reads condition
  | [_, condition] => reads condition
  | declaration :: source :: t :: rest =>
      {n | n ∈ reads source ∨
        n ∈ quantifiedReads (t :: rest) ∧
          n ∉ declaration.var?.toList}

/- The names that an operand and its cases look up. -/
def caseReads : List Tree → Set String
  | [] => ∅
  | operand :: rest =>
      {n | n ∈ reads operand ∨ n ∈ bodyReads rest}

/- The names that the bodies of cases look up. -/
def bodyReads : List Tree → Set String
  | [] => ∅
  | .node _ _ _ _ parts :: rest =>
      {n | n ∈ lastReads parts ∧
          n ∉ Analysis.declared parts ∨
        n ∈ bodyReads rest}

/- The names that copies and what follows them look up. -/
def copyReads (after : Set String) : List Tree → Set String
  | [] => after
  | .node _ k _ _ parts :: rest =>
      let later := copyReads after rest
      if k = .copyBinding then
        {n | n ∈ readsAt 1 parts ∨
          n ∈ later ∧
            n ∉ (parts.head?.bind Tree.var?).toList}
      else later

/- The names that the keys of order specs look up. -/
def sortReads : List Tree → Set String
  | [] => ∅
  | .node _ _ _ _ cs :: ts =>
      {n | n ∈ readsAt 0 cs ∨ n ∈ sortReads ts}

/- The names that the specs after an input look up. -/
def tailSortReads : List Tree → Set String
  | [] => ∅
  | _ :: ts => sortReads ts

/-
  The names that a stage and everything after it look up in
  the context, where the latter looks up the wanted ones.
-/
def lookups : Tree → Set String → Set String
  | .node i k p ps cs, wanted =>
      let self := Tree.node i k p ps cs
      let checked : Set String :=
        {n | ps.var? Properties.check = some n}
      let later : Set String :=
        {n | n ∈ wanted ∧ n ∉ self.bound}
      match k with
      | .forBind =>
          headLookups cs
            {n | n ∈ later ∨ n ∈ lastReads cs ∨ n ∈ checked}
      | .letBind =>
          headLookups cs
            {n | n ∈ later ∨
              (∃ var ∈ wanted, self.binding? = some var) ∧
                (n ∈ readsAt 2 cs ∨ n ∈ checked)}
      | .selection =>
          headLookups cs {n | n ∈ wanted ∨ n ∈ readsAt 1 cs}
      | .orderBy =>
          headLookups cs
            {n | n ∈ wanted ∨ n ∈ tailSortReads cs}
      | .groupBy =>
          headLookups cs
            {n | n ∈ later ∨ n ∈ self.groupKeys ∨
              n ∈ self.groupAggregates.map Prod.snd}
      | .count => headLookups cs later
      | .join => joinLookups wanted cs
      | _ => wanted

/- The names that the first of several stages looks up. -/
def headLookups : List Tree → Set String → Set String
  | [], wanted => wanted
  | t :: _, wanted => lookups t wanted

/- The names that a join looks up in its context. -/
def joinLookups
    (wanted : Set String) : List Tree → Set String
  | [left, .node _ _ _ _ (leftKey :: rightKey :: _), right] =>
      let leftReads := reads leftKey
      let rightReads := reads rightKey
      let leftMissing :=
        lookups left {n | n ∈ wanted ∨ n ∈ leftReads}
      let rightMissing :=
        lookups right {n | n ∈ wanted ∨ n ∈ rightReads}
      let toRight := rightShare rightReads wanted rightMissing
      let toLeft := leftShare leftReads wanted toRight
      {n | n ∈ lookups left toLeft ∨
        n ∈ lookups right toRight ∨
          (n ∈ leftReads ∨ n ∈ rightReads ∨ n ∈ wanted) ∧
            n ∈ unprovided toLeft leftMissing
              toRight rightMissing}
  | _ => wanted

end

end Tree

end Flwor

------------------------------------------------------------
-- Demand
------------------------------------------------------------

namespace Flwor

/- Expressions whose operands are all evaluated around. -/
def Kind.hasOperands : Kind → Bool
  | .sequenceExpr => true
  | .rangeExpr => true
  | .arithmeticExpr => true
  | .comparisonExpr => true
  | .andExpr => true
  | .orExpr => true
  | .ifExpr => true
  | .functionCall => true
  | _ => false

namespace Tree

theorem reads_of_hasOperands
    {i : NodeId}
    {k : Kind}
    {p : Payload}
    {ps : Properties}
    {cs : List Tree}
    (hOperands : k.hasOperands) :
    reads (.node i k p ps cs) = readsAll cs := by
  cases k <;>
    first
    | (cases hOperands
       done)
    | simp [reads]

/- The stage binds one of the wanted names. -/
def IsWanted
    (t : Tree)
    (wanted : Set String) : Prop :=
  ∃ var ∈ wanted, t.binding? = some var

/-
  The expressions that a stage evaluates on the rows of its
  input, where some names are wanted after it.
-/
def Evaluates
    (wanted : Set String)
    (t c : Tree) : Prop :=
  match t.kind with
  | .forBind => t.children.getLast? = some c
  | .letBind => t.IsWanted wanted ∧ t.children[2]? = some c
  | .selection => t.children[1]? = some c
  | .orderBy =>
      ∃ spec ∈ t.children.drop 1, spec.children[0]? = some c
  | _ => False

/- What a stage looks up itself. -/
def ownReads
    (t : Tree)
    (wanted : Set String) : Set String :=
  let checked : Set String :=
    {n | t.properties.var? Properties.check = some n}
  match t.kind with
  | .forBind =>
      {n | n ∈ lastReads t.children ∨ n ∈ checked}
  | .letBind =>
      {n | t.IsWanted wanted ∧
        (n ∈ readsAt 2 t.children ∨ n ∈ checked)}
  | .selection => readsAt 1 t.children
  | .orderBy => tailSortReads t.children
  | .groupBy =>
      {n | n ∈ t.groupKeys ∨
        n ∈ t.groupAggregates.map Prod.snd}
  | _ => ∅

/-
  What a stage, with everything after it, looks up among the
  bindings of its input.
-/
def wants
    (t : Tree)
    (wanted : Set String) : Set String :=
  {n | n ∈ wanted ∧ n ∉ t.bound ∨ n ∈ t.ownReads wanted}

theorem lookups_input
    {i : NodeId}
    {k : Kind}
    {p : Payload}
    {ps : Properties}
    {input : Tree}
    {rest : List Tree}
    (hInput : k.hasInput)
    (wanted : Set String) :
    lookups (.node i k p ps (input :: rest)) wanted =
      lookups input
        (wants (.node i k p ps (input :: rest)) wanted) := by
  rcases Kind.eq_of_hasInput hInput with
    rfl | rfl | rfl | rfl | rfl | rfl <;>
    rw [lookups, headLookups]
  case inr.inr.inl =>
    simp [wants, ownReads, kind, children, bound]
  case inr.inr.inr.inl =>
    simp [wants, ownReads, kind, children, bound]
  all_goals
    simp [wants, ownReads, IsWanted, kind, properties,
      children]

/- What the rows of the left input of a join have to hold. -/
def leftWants
    (leftKey right rightKey : Tree)
    (wanted : Set String) : Set String :=
  leftShare leftKey.reads wanted
    (rightShare rightKey.reads wanted
      (right.lookups
        {n | n ∈ wanted ∨ n ∈ rightKey.reads}))

/- What the rows of the right input of a join have to hold. -/
def rightWants
    (right rightKey : Tree)
    (wanted : Set String) : Set String :=
  rightShare rightKey.reads wanted
    (right.lookups {n | n ∈ wanted ∨ n ∈ rightKey.reads})

mutual

/-
  Within an expression there is a stage after which some
  names are looked up.
-/
inductive ExprDemands :
    Tree → Tree → Set String → Prop where
  | operand
      {i k p ps cs c s demand}
      (hKind : Kind.hasOperands k)
      (hChild : c ∈ cs)
      (hBelow : ExprDemands c s demand) :
      ExprDemands (.node i k p ps cs) s demand
  | tail
      {i p ps j q qs tail rest more s demand}
      (hBelow : StageDemands (readsAt 0 rest) tail s demand) :
      ExprDemands
        (.node i .pipeExpr p ps
          (.node j .finish q qs (tail :: rest) :: more))
        s demand
  | result
      {i p ps j q qs tail rest more c s demand}
      (hResult : rest[0]? = some c)
      (hBelow : ExprDemands c s demand) :
      ExprDemands
        (.node i .pipeExpr p ps
          (.node j .finish q qs (tail :: rest) :: more))
        s demand

/-
  Where some names are looked up after a stage, there is a
  stage up to it after which some names are looked up.
-/
inductive StageDemands :
    Set String → Tree → Tree → Set String → Prop where
  | self
      {wanted t} :
      StageDemands wanted t t wanted
  | input
      {wanted i k p ps input rest s demand}
      (hKind : Kind.hasInput k)
      (hBelow : StageDemands
        (wants (.node i k p ps (input :: rest)) wanted) input
          s demand) :
      StageDemands wanted (.node i k p ps (input :: rest))
        s demand
  | own
      {wanted t c s demand}
      (hOwn : Evaluates wanted t c)
      (hBelow : ExprDemands c s demand) :
      StageDemands wanted t s demand
  | left
      {wanted i p ps left j k q qs leftKey rightKey others}
      {right s demand}
      (hBelow : StageDemands
        (leftWants leftKey right rightKey wanted) left
          s demand) :
      StageDemands wanted
        (.node i .join p ps
          [left,
            .node j k q qs (leftKey :: rightKey :: others),
            right]) s demand
  | right
      {wanted i p ps left j k q qs leftKey rightKey others}
      {right s demand}
      (hBelow : StageDemands
        (rightWants right rightKey wanted) right s demand) :
      StageDemands wanted
        (.node i .join p ps
          [left,
            .node j k q qs (leftKey :: rightKey :: others),
            right]) s demand
  | joinKey
      {wanted i p ps left j k q qs leftKey rightKey others}
      {right c s demand}
      (hKey : c = leftKey ∨ c = rightKey)
      (hBelow : ExprDemands c s demand) :
      StageDemands wanted
        (.node i .join p ps
          [left,
            .node j k q qs (leftKey :: rightKey :: others),
            right]) s demand

end

end Tree

end Flwor
