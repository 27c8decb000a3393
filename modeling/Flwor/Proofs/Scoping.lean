import Mathlib.Data.Set.Basic
import Flwor.Compile
import Flwor.Library

/-
  Which names an expression reads and a stage hands on, as
  rules over plan trees.

  A stage supplies names in a context: the rows that it
  yields hold, under each of these names, what the name means
  there.  Names that an annotation lets a projection drop are
  not supplied.  A tree that follows the rules compiles, and
  its value depends on the supplied names only.

  Key definitions include:
    * `Properties.Keeps`
    * `Tree.Binary`
    * `Tree.ReadsFrom`
    * `Tree.Supplies`
-/

------------------------------------------------------------
-- Side Conditions
------------------------------------------------------------

namespace Flwor

/-
  The projection that a stage is annotated with, if any,
  keeps the wanted ones of its bindings.
-/
def Properties.Keeps
    (properties : Properties)
    (wanted : Set String)
    (bindings : List String) : Prop :=
  ∀ names, properties.vars? Properties.project = some names →
    ∀ name ∈ wanted, name ∈ bindings → name ∈ names

namespace Tree

/- An expression of two operands, with its operator. -/
def Binary : Kind → Payload → Prop
  | .rangeExpr, _ => True
  | .arithmeticExpr, p => p.arithmetic?.isSome
  | .comparisonExpr, p => p.comparison?.isSome
  | .andExpr, _ => True
  | .orExpr, _ => True
  | _, _ => False

end Tree

end Flwor

------------------------------------------------------------
-- Rules
------------------------------------------------------------

namespace Flwor

namespace Tree

variable (library : Library)

/-
  Whether a projection may leave out a binding, in which
  case it also leaves out the failure of its expression.
-/
variable (lenient : Prop)

mutual

/- An expression that reads some names only. -/
inductive ReadsFrom : Set String → Tree → Prop where
  | literal
      {names i p ps cs}
      (hItem : p.item?.isSome) :
      ReadsFrom names (.node i .literal p ps cs)
  | emptySequence
      {names i p ps cs} :
      ReadsFrom names (.node i .emptySequence p ps cs)
  | sequence
      {names i p ps cs}
      (hParts : ∀ c ∈ cs, ReadsFrom names c) :
      ReadsFrom names (.node i .sequenceExpr p ps cs)
  | binary
      {names i k p ps cs left right}
      (hKind : Binary k p)
      (hLeft : cs[0]? = some left)
      (hRight : cs[1]? = some right)
      (hReadsLeft : ReadsFrom names left)
      (hReadsRight : ReadsFrom names right) :
      ReadsFrom names (.node i k p ps cs)
  | cond
      {names i p ps cs condition yes no}
      (hCondition : cs[0]? = some condition)
      (hYes : cs[1]? = some yes)
      (hNo : cs[2]? = some no)
      (hReadsCondition : ReadsFrom names condition)
      (hReadsYes : ReadsFrom names yes)
      (hReadsNo : ReadsFrom names no) :
      ReadsFrom names (.node i .ifExpr p ps cs)
  | call
      {names i p ps cs name f}
      (hName : p.label? = some name)
      (hFunction : library.resolve name cs.length = .ok f)
      (hArguments : ∀ c ∈ cs, ReadsFrom names c) :
      ReadsFrom names (.node i .functionCall p ps cs)
  | variableRef
      {names i p ps cs name}
      (hName : p.var? = some name)
      (hMem : name ∈ names) :
      ReadsFrom names (.node i .variableRef p ps cs)
  | pipe
      {names i p ps j q qs tail result rest more handed}
      (hTail : Supplies names handed tail)
      (hResult : ReadsFrom handed result) :
      ReadsFrom names
        (.node i .pipeExpr p ps
          (.node j .finish q qs (tail :: result :: rest)
            :: more))

/-
  A stage that, where its context supplies some names,
  supplies others to what reads its rows.
-/
inductive Supplies :
    Set String → Set String → Tree → Prop where
  | start
      {context handed i p ps cs}
      (hHanded : handed ⊆ context) :
      Supplies context handed (.node i .start p ps cs)
  | forBind
      {context handed read i p ps input rest source var}
      (hInput : Supplies context read input)
      (hSource : (input :: rest).getLast? = some source)
      (hReads : ReadsFrom read source)
      (hCheck : ∀ name,
        ps.var? Properties.check = some name → name ∈ read)
      (hVar : binding?
        (.node i .forBind p ps (input :: rest)) = some var)
      (hHanded : ∀ name ∈ handed,
        name ∉ bound (.node i .forBind p ps (input :: rest)) →
          name ∈ read) :
      Supplies context handed
        (.node i .forBind p ps (input :: rest))
  | letBind
      {context handed read i p ps input rest value var}
      (hInput : Supplies context read input)
      (hVar : binding?
        (.node i .letBind p ps (input :: rest)) = some var)
      (hLive : Compile.isLive ps var)
      (hValue : (input :: rest)[2]? = some value)
      (hReads : ReadsFrom read value)
      (hCheck : ∀ name,
        ps.var? Properties.check = some name → name ∈ read)
      (hHanded : ∀ name ∈ handed,
        name ≠ var → name ∈ read) :
      Supplies context handed
        (.node i .letBind p ps (input :: rest))
  | deadLet
      {context handed read i p ps input rest var}
      (hInput : Supplies context read input)
      (hVar : binding?
        (.node i .letBind p ps (input :: rest)) = some var)
      (hDead : ¬Compile.isLive ps var)
      (hLenient : lenient)
      (hUnread : var ∉ handed)
      (hHanded : ∀ name ∈ handed, name ∈ read) :
      Supplies context handed
        (.node i .letBind p ps (input :: rest))
  | selection
      {context handed read i p ps input rest predicate}
      (hInput : Supplies context read input)
      (hPredicate : (input :: rest)[1]? = some predicate)
      (hReads : ReadsFrom read predicate)
      (hHanded : handed ⊆ read) :
      Supplies context handed
        (.node i .selection p ps (input :: rest))
  | orderBy
      {context handed read i p ps input specs}
      (hInput : Supplies context read input)
      (hKeeps : input.properties.Keeps read input.visible)
      (hOrders : ∀ spec ∈ specs, spec.payload.order?.isSome)
      (hKeys : ∀ spec ∈ specs, ∀ key,
        spec.children[0]? = some key → ReadsFrom read key)
      (hPresent : ∀ spec ∈ specs, spec.children ≠ [])
      (hHanded : handed ⊆ read) :
      Supplies context handed
        (.node i .orderBy p ps (input :: specs))
  | groupBy
      {context handed read i p ps input specs}
      (hInput : Supplies context read input)
      (hKeys : ∀ name ∈ groupKeys
        (.node i .groupBy p ps (input :: specs)),
          name ∈ read)
      (hSources : ∀ aggregate ∈ groupAggregates
        (.node i .groupBy p ps (input :: specs)),
          aggregate.2 ∈ read)
      (hHanded : ∀ name ∈ handed,
        name ∉ bound (.node i .groupBy p ps (input :: specs)) →
          name ∈ context) :
      Supplies context handed
        (.node i .groupBy p ps (input :: specs))
  | count
      {context handed read i p ps input rest var}
      (hInput : Supplies context read input)
      (hVar : binding?
        (.node i .count p ps (input :: rest)) = some var)
      (hHanded : ∀ name ∈ handed,
        name ≠ var → name ∈ read) :
      Supplies context handed
        (.node i .count p ps (input :: rest))
  | join
      {context handed readLeft readRight i p ps left right}
      {j k q qs keys leftKey rightKey}
      (hLeft : Supplies context readLeft left)
      (hRight : Supplies context readRight right)
      (hKeepsLeft : left.properties.Keeps readLeft left.visible)
      (hKeepsRight :
        right.properties.Keeps readRight right.visible)
      (hComparison : q.comparison?.isSome)
      (hLeftKey : keys[0]? = some leftKey)
      (hRightKey : keys[1]? = some rightKey)
      (hReadsLeft : ReadsFrom readLeft leftKey)
      (hReadsRight : ReadsFrom readRight rightKey)
      (hHandedLeft : ∀ name ∈ handed,
        name ∉ right.visible → name ∈ readLeft)
      (hHandedRight : ∀ name ∈ handed,
        name ∈ right.visible → name ∈ readRight) :
      Supplies context handed
        (.node i .join p ps
          [left, .node j k q qs keys, right])

end

end Tree

end Flwor
